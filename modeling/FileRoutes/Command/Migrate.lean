import FileRoutes.Command.Arguments
import FileRoutes.Conventions.Reading
import FileRoutes.Migration.Copy
import FileRoutes.Migration.Output
import FileRoutes.Route.Compilation
import FileRoutes.Route.Dump

/-!
# Migrating a project

A migration reads the conventions, copies the project, compiles its routes and writes the generated
files into the copy.  The stages follow each other strictly, so that a failure leaves what the
earlier stages did and nothing of the later ones.

* Without a copy, the project that is compiled is the target as it is.
* A dry run compiles the source where it is, and prints the routes file instead of writing anything.
* The table is written as JSON on request, also in a dry run.
-/

namespace FileRoutes

namespace Migration

/-- Refuses arguments whose project is not a directory, and reports the others.  The project is the
one that the routes are compiled from at the end: the source or, without a copy, the target. -/
def check (a : Arguments Path) : Action Unit := do
  Action.tell .debug .command ("Parsed arguments: " ++ a.shown)
  let project := if a.skipsCopy then a.target else a.source
  let fs ← Action.fileSystem
  if !fs.exists project then throw (.refused (.absent project))
  if !fs.isDirectory project then throw (.refused (.noDirectory project))
  Action.tell .info .command ("Source: " ++ a.source.text)
  Action.tell .info .command ("Target: " ++ a.target.text)
  Action.tell .info .command ("Entry order: " ++ Arguments.orderTitle a.order)
  Action.tell .info .command ("Path style: " ++ Arguments.styleTitle a.style)
  Action.tell .info .command ("Conventions: " ++ a.conventions?.elim "Next.js app router".toList Path.text)

/-- The conventions that are asked for. -/
def conventions (a : Arguments Path) : Action Conventions :=
  match a.conventions? with
  | none => pure .standard
  | some file => do
    Action.tell .debug .conventions ("Loading routing conventions from " ++ file.text)
    Action.attempt (.loadConventions file)
      ((Conventions.load (← Action.fileSystem) file).mapError .problem)

/-- Copies the project, unless this is not asked for. -/
def copy (a : Arguments Path) : Action Unit := do
  if a.skipsCopy then
    Action.tell .info .command ("Skipping copy, compiling " ++ a.target.text ++ " in place")
  else if a.isDryRun then
    Action.tell .info .command ("Dry run, compiling " ++ a.source.text ++ " without copying")
  else
    let _ ← copyTree a.source a.target

/-- The directory whose routes are compiled. -/
def routesRoot (a : Arguments Path) (conventions : Conventions) : Path :=
  (if a.isDryRun && !a.skipsCopy then a.source else a.target).join (Path.ofText conventions.appDir)

/-- What a successful compilation leaves in the log. -/
def compilationLog (c : Compilation) : List LogLine :=
  ⟨.debug, .loading, "Loaded " ++ Text.ofNat c.nodes.length ++ " top-level entries"⟩
    :: c.derivation.decisions.map (⟨.debug, .derivation, ·.message⟩)
    ++ [⟨.info, .compilation, "Derived " ++ Text.ofNat c.routes.length ++ " top-level routes"⟩,
      ⟨.debug, .emission, "Emitting " ++ Text.ofNat c.routes.length ++ " top-level routes"⟩]

/-- Compiles the routes below a directory. -/
def compileRoutes (settings : Settings) (root : Path) : Action Compilation := do
  Action.tell .info .command ("Compiling routes from " ++ root.text)
  let fs ← Action.fileSystem
  if fs.isDirectory root then
    Action.tell .info .loading ("Loading route tree from " ++ root.text)
  let c ← Action.attempt (.compileRoutes root) ((compile settings fs root).mapError .problem)
  Action.tellAll (compilationLog c)
  if c.routes.isEmpty then
    Action.tell .warn .command ("No routable folders found in " ++ root.text)
  return c

/-- Writes the route table as JSON, if this is asked for. -/
def dump (a : Arguments Path) (routes : List Route) : Action Unit := do
  match a.dump? with
  | none => pure ()
  | some file =>
    Action.tell .debug .output "Serializing route table to JSON"
    writeText file (Route.dump routes)
    Action.tell .info .command ("Wrote route table to " ++ file.text)

/-- Writes the generated files, or prints the one with the routes. -/
def generate (a : Arguments Path) (c : Compilation) : Action Unit := do
  if a.isDryRun then
    Action.printLine (GeneratedFile.routesModule a.style c.fragment)
  else
    Action.tell .info .command ("Writing generated files to " ++ a.target.text)
    let written ← writeGenerated a.target (GeneratedFile.all a.style c.fragment)
    Action.tellAll (written.map fun path => ⟨.debug, .command, "Wrote " ++ path.text⟩)
    Action.tell .info .command "Migration complete!"
    Action.tell .info .command "Summary:"
    Action.tell .info .command ("  - Top-level routes: " ++ Text.ofNat c.routes.length)
    Action.tell .info .command ("  - Files generated: " ++ Text.ofNat written.length)
    Action.tell .info .command ("Now you can review the code in " ++ a.target.text)

/-- Runs a migration whose arguments have been checked. -/
def run (a : Arguments Path) : Action Unit := do
  let conventions ← conventions a
  copy a
  let c ← compileRoutes ⟨conventions, a.order, a.style⟩ (routesRoot a conventions)
  dump a c.routes
  generate a c

end Migration

/-- Checks the arguments and migrates. -/
def migrate (a : Arguments Path) : Action Unit := do
  Migration.check a
  Migration.run a

end FileRoutes
