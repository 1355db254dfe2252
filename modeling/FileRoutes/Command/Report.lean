import FileRoutes.Command.Help
import FileRoutes.Command.Migrate
import FileRoutes.Text.Control

/-!
# The command

`command` runs the whole command on a file system: it reads the command line, migrates, and reports
what is to be seen on the two output channels, together with the exit code.

The error channel shows the log, each line of it without control sequences, since the channel is
taken to be no terminal.  A failure is reported behind the log.  Its description comes first, and the
causes behind it follow in a list, which is numbered if there are several of them.
-/

namespace FileRoutes

/-- What a run of the command leaves. -/
structure Report where
  code : Nat
  /-- What is on the output channel. -/
  output : Text
  /-- What is on the error channel. -/
  messages : Text
  fs : FileSystem

namespace Report

/-- A number with blanks in front, five characters wide. -/
def aligned (n : Nat) : Text :=
  let digits := Text.ofNat n
  List.replicate (5 - digits.length) ' ' ++ digits

/-- The lines for a cause behind a failure.  It has a number if it is not the only one. -/
def causeLines (number? : Option Nat) (cause : Text) : List Text :=
  let lead : Text := match number? with
    | some n => aligned n ++ ": "
    | none => "    "
  Text.splitLines (lead ++ LogLine.indented lead.length cause)

/-- The lines for a failure. -/
def failureLines (f : Failure) : List Text :=
  let causes := f.chain.tail
  Text.splitLines ("Error: " ++ f.chain.headD [])
    ++ if causes.isEmpty then []
      else ([[], "Caused by:"] : List Text) ++ causes.zipIdx.flatMap fun (cause, n) =>
        causeLines (if causes.length = 1 then none else some n) cause

/-- The lines of a log that are shown. -/
def logText (isVerbose : Bool) (log : List LogLine) : Text :=
  (log.filter (·.isShown isVerbose)).flatMap fun l => Text.withoutControls (l.shown ++ ['\n'])

/-- The lines of the error channel. -/
def messageLines (r : Report) : List Text :=
  let stretches := Text.splitLines r.messages
  if stretches.getLast? = some [] then stretches.dropLast else stretches

end Report

/-- Runs the command on a file system. -/
def command (words : List Text) (fs : FileSystem) : Report :=
  match CommandLine.read words with
  | .error exit =>
    match exit.text? with
    | some t => ⟨0, t, [], fs⟩
    | none => ⟨2, [], [], fs⟩
  | .ok a =>
    let start : Action Unit := Action.tell .info .program "Route Migrate starting..."
    let (result, s) := (start *> migrate a) (Session.fresh fs)
    let log := Report.logText a.isVerbose s.log
    match result with
    | .ok () => ⟨0, s.printed, log, s.fs⟩
    | .error f => ⟨1, s.printed, log ++ Text.lines (Report.failureLines f), s.fs⟩

end FileRoutes
