import FileRoutes.FileSystem.Resolve

/-!
# Questions to the file system

None of these operations changes anything.  They differ in how they treat a link at the end of the
path: only `isOccupied` and `readLink` are about the link, the others about what it leads to.
-/

namespace FileRoutes.FileSystem

/-- The path leads to an entry. -/
def «exists» (fs : FileSystem) (p : Path) : Bool := (fs.lookup .target p).isOk

/-- The path leads to a directory. -/
def isDirectory (fs : FileSystem) (p : Path) : Bool :=
  match fs.lookup .target p with
  | .ok e => e.isDirectory
  | .error _ => false

/-- There is an entry at the path, be it a link that leads nowhere. -/
def isOccupied (fs : FileSystem) (p : Path) : Bool := (fs.lookup .itself p).isOk

/-- The mode and the contents of a file that is opened for reading. -/
def openFile (fs : FileSystem) (p : Path) : Except Fault (Mode × Bytes) := do
  match ← fs.lookup .target p with
  | .file mode contents => if mode.read then .ok (mode, contents) else .error .denied
  | .directory mode _ => .error (if mode.read then .isDirectory else .denied)
  | .link _ => .error .tooManyLinks

/-- The bytes of a file. -/
def readBytes (fs : FileSystem) (p : Path) : Except Fault Bytes := do
  let (_, contents) ← fs.openFile p
  .ok contents

/-- The text of a file. -/
def readText (fs : FileSystem) (p : Path) : Except Fault Text := do
  match Utf8.decode? (← fs.readBytes p) with
  | some t => .ok t
  | none => .error .contentsNotText

/-- The path that a link holds. -/
def readLink (fs : FileSystem) (p : Path) : Except Fault Path := do
  match ← fs.lookup .itself p with
  | .link target => .ok target
  | _ => .error .unsuitable

/-- The names in a directory and the kinds of their entries, as the system enumerates them. -/
def list (fs : FileSystem) (p : Path) : Except Fault (List (Name × Entry.Kind)) := do
  match ← fs.lookup .target p with
  | .directory mode entries =>
    if mode.read then .ok (entries.map fun e => (e.1, e.2.kind)) else .error .denied
  | _ => .error .notDirectory

end FileRoutes.FileSystem
