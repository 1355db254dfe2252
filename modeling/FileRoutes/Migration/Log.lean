import FileRoutes.Text.Basic

/-!
# The log

A migration keeps a log of what it does.  Each line has a level and comes from one of the stages; a
reader chooses from which level on lines are shown.  A message that has several lines is shown with
the later ones indented.
-/

namespace FileRoutes

/-- How much a log line matters. -/
inductive Level where
  | debug
  | info
  | warn
  deriving DecidableEq

/-- The word for a level. -/
def Level.name : Level → Text
  | debug => "DEBUG"
  | info => "INFO"
  | warn => "WARN"

/-- The stage that writes a log line. -/
inductive Stage where
  | program
  | command
  | conventions
  | copying
  | loading
  | derivation
  | compilation
  | emission
  | output
  deriving DecidableEq

/-- The name of a stage in the log. -/
def Stage.name : Stage → Text
  | program => "route_migrate"
  | command => "route_migrate::cli"
  | conventions => "route_migrate::conventions"
  | copying => "route_migrate::copier"
  | loading => "route_migrate::scanner"
  | derivation => "route_migrate::deriver"
  | compilation => "route_migrate::compiler"
  | emission => "route_migrate::emitter"
  | output => "route_migrate::serializer"

/-- A line of the log. -/
structure LogLine where
  level : Level
  stage : Stage
  message : Text
  deriving DecidableEq

namespace LogLine

/-- A text whose lines after the first are indented. -/
def indented (blanks : Nat) (t : Text) : Text :=
  t.flatMap fun c => if c = '\n' then '\n' :: List.replicate blanks ' ' else [c]

/-- The line as it is shown.  The names of the levels are given the same width. -/
def shown (l : LogLine) : Text :=
  let level := l.level.name
  "[" ++ level ++ List.replicate (5 - level.length) ' ' ++ " " ++ l.stage.name ++ "] "
    ++ indented 4 l.message

/-- The line belongs to a log that was asked to be verbose or not. -/
def isShown (verbose : Bool) (l : LogLine) : Bool := verbose || l.level != .debug

end LogLine

end FileRoutes
