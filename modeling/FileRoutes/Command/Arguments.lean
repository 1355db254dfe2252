import FileRoutes.Route.Loading
import FileRoutes.Route.Table
import FileRoutes.Text.Quoted

/-!
# Arguments

What the command was asked to do.  On a command line the paths among the arguments are texts, as they
were typed (`Arguments`).  A migration takes them as paths (`Arguments Path`), and not every path is spelled
by a text.
-/

namespace FileRoutes

/-- The arguments of the command, with their paths as given. -/
structure Arguments (P : Type := Text) where
  /-- The project to migrate. -/
  source : P
  /-- The project to write. -/
  target : P
  order : EntryOrder
  style : PathStyle
  /-- A file with conventions. -/
  conventions? : Option P
  /-- The source is not copied; what is in the target is compiled. -/
  skipsCopy : Bool
  /-- Nothing is written; the routes file is printed. -/
  isDryRun : Bool
  /-- A file for the route table as JSON. -/
  dump? : Option P
  /-- All lines of the log are shown. -/
  isVerbose : Bool
  deriving DecidableEq

namespace Arguments

/-- The arguments with something else for each path. -/
def map {P Q : Type} (f : P → Q) (a : Arguments P) : Arguments Q where
  source := f a.source
  target := f a.target
  order := a.order
  style := a.style
  conventions? := a.conventions?.map f
  skipsCopy := a.skipsCopy
  isDryRun := a.isDryRun
  dump? := a.dump?.map f
  isVerbose := a.isVerbose

/-- Arguments that were typed are those with the paths that the texts spell. -/
instance : Coe Arguments (Arguments Path) := ⟨map Path.ofText⟩

/-- The name of an order in the log. -/
def orderTitle : EntryOrder → Text
  | .byName => "Name"
  | .asEnumerated => "Filesystem"

/-- The name of a style in the log. -/
def styleTitle : PathStyle → Text
  | .relative => "Relative"
  | .absolute => "Absolute"

/-- A path in the log. -/
def shownPath (p : Path) : Text := Text.quotedBytes p.bytes

/-- A path in the log that may not be given. -/
def shownPath? : Option Path → Text
  | none => "None"
  | some p => "Some(" ++ shownPath p ++ ")"

/-- All arguments on one line. -/
def shown (a : Arguments Path) : Text :=
  "CliArgs \x7b from: " ++ shownPath a.source
    ++ ", to: " ++ shownPath a.target
    ++ ", order: " ++ orderTitle a.order
    ++ ", path_style: " ++ styleTitle a.style
    ++ ", conventions: " ++ shownPath? a.conventions?
    ++ ", skip_copy: " ++ Text.ofBool a.skipsCopy
    ++ ", dry_run: " ++ Text.ofBool a.isDryRun
    ++ ", dump_routes: " ++ shownPath? a.dump?
    ++ ", verbose: " ++ Text.ofBool a.isVerbose ++ " \x7d"

end Arguments

end FileRoutes
