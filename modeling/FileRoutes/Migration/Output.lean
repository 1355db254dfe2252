import FileRoutes.Migration.Session
import FileRoutes.Route.GeneratedFile

/-!
# Writing files

A text is written to a path in place of what was there, and the directories missing above it are
created.
-/

namespace FileRoutes

/-- Writes a text to a file. -/
def writeText (file : Path) (t : Text) : Action Unit := do
  Action.tell .debug .output ("Writing content to file: " ++ file.text)
  match file.parent? with
  | some above => Action.change (.createDirectory above) (FileSystem.createDirectories above)
  | none => pure ()
  let contents := Utf8.encode t
  Action.change (.writeFile file) (FileSystem.writeBytes file contents)
  Action.tell .debug .output
    ("Successfully wrote " ++ Text.ofNat contents.length ++ " bytes to " ++ file.text)

/-- Writes generated files into a directory.  The result lists their paths. -/
def writeGenerated (target : Path) (files : List GeneratedFile) : Action (List Path) :=
  files.mapM fun file => do
    let path := target.join (Path.ofText file.name)
    writeText path file.contents
    return path

end FileRoutes
