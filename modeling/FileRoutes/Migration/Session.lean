import FileRoutes.FileSystem.Change
import FileRoutes.Migration.Failure
import FileRoutes.Migration.Log

/-!
# Sessions

A session is what the steps of a migration act on: the file system, the log, and what has been
printed.  A step may fail, and what it did before stays done, so a step is a function from a session
to a result and a session (`Action`).
-/

namespace FileRoutes

/-- What a migration acts on. -/
structure Session where
  fs : FileSystem
  /-- The lines of the log, the oldest first. -/
  log : List LogLine
  /-- What was printed. -/
  printed : Text

namespace Session

/-- A session in which nothing has happened yet. -/
def fresh (fs : FileSystem) : Session := ⟨fs, [], []⟩

end Session

/-- A step of a migration. -/
abbrev Action := ExceptT Failure (StateM Session)

namespace Action

/-- Adds lines to the log. -/
def tellAll (lines : List LogLine) : Action Unit :=
  modify fun s => { s with log := s.log ++ lines }

/-- Adds a line to the log. -/
def tell (level : Level) (stage : Stage) (message : Text) : Action Unit :=
  tellAll [⟨level, stage, message⟩]

/-- Prints a line. -/
def printLine (t : Text) : Action Unit :=
  modify fun s => { s with printed := s.printed ++ t ++ ['\n'] }

/-- The file system as it is. -/
def fileSystem : Action FileSystem := return (← get).fs

/-- A result whose error, if it is one, is the cause of the failure of a task. -/
def attempt {α : Type} (task : Task) (result : Except Cause α) : Action α :=
  match result with
  | .ok a => pure a
  | .error cause => throw (.during task cause)

/-- Asks the file system for the sake of a task. -/
def ask {α : Type} (task : Task) (question : FileSystem → Except Fault α) : Action α := do
  attempt task ((question (← fileSystem)).mapError .fault)

/-- Changes the file system for the sake of a task. -/
def change {α : Type} (task : Task) (c : Change α) : Action α := fun s =>
  match c s.fs with
  | (.ok a, fs) => (.ok a, { s with fs })
  | (.error fault, fs) => (.error (.during task (.fault fault)), { s with fs })

end Action

end FileRoutes
