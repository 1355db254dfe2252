import FileRoutes.FileSystem.Reading

/-!
# Changes to the file system

A change either succeeds or ends with a fault, and in both cases there is a file system afterwards:
some changes take several steps, and those that were done before the fault stay done.  This is what
the type `Change` says.

The elementary changes check everything before they touch anything.  Which of two faults is reported
follows from the order of the checks: first the way to the directory, then the last name, then what
is already there, and the permission to change the directory last.
-/

namespace FileRoutes

/-- A change to the file system that may fail, and then leaves what was done so far. -/
abbrev Change := ExceptT Fault (StateM FileSystem)

namespace FileSystem

/-- The state in which a change finds the file system. -/
def now : Change FileSystem := fun fs => (.ok fs, fs)

/-- Puts an entry at a location. -/
def putAt (loc : Location) (e : Entry) : Change Unit := fun fs => (.ok (), fs.put loc e)

/-- The answer to a question, or its fault. -/
def ask {α : Type} (question : FileSystem → Except Fault α) : Change α := fun fs => (question fs, fs)

/-! ## Directories -/

/-- Creates a directory.  Nothing may be there yet, and the directory above has to be. -/
def createDirectory (p : Path) : Change Unit := do
  let slot ← ask (·.slot p)
  match slot.name? with
  | none => throw .exists
  | some name =>
    if name.length > nameLimit then throw .nameTooLong
    if ((← now).find? (slot.directory ++ [name])).isSome then throw .exists
    if !slot.mode.write then throw .denied
    putAt (slot.directory ++ [name]) .emptyDirectory

/-- A fault in the creation of a directory does not matter if the path leads to a directory. -/
def unlessDirectory (p : Path) (fault : Fault) : Change Unit := do
  if (← now).isDirectory p then pure () else throw fault

/-- Creates the first of these paths as a directory, each being below the next.  Those that are
missing above it are created first. -/
def createChain : List Path → Change Unit
  | [] => throw .missing
  | p :: above =>
    if p = Path.empty then pure ()
    else tryCatch (createDirectory p) fun
      | .missing => do
        createChain above
        tryCatch (createDirectory p) (unlessDirectory p)
      | fault => unlessDirectory p fault

/-- Creates a directory and those missing above it, unless the path leads to a directory already. -/
def createDirectories (p : Path) : Change Unit := createChain p.ancestors

/-! ## Files and links -/

/-- Opens a file for writing: creates it if it is missing, empties it if it is there.  The result is
its location. -/
def openForWriting (p : Path) : Change Location := do
  let fs ← now
  match ← ask (·.resolve .creation p) with
  | .removed => throw .isDirectory
  | .entry loc =>
    match fs.find? loc with
    | some (.file mode _) =>
      if !mode.write then throw .denied
      putAt loc (.file mode [])
      pure loc
    | _ => throw .isDirectory
  | .gap directory name =>
    let (mode, _) ← ask (·.directoryAt directory)
    if !mode.write then throw .denied
    putAt (directory ++ [name]) (.file .plain [])
    pure (directory ++ [name])

/-- Writes a file with these contents, in place of those that it had. -/
def writeBytes (p : Path) (contents : Bytes) : Change Unit := do
  let loc ← openForWriting p
  match (← now).find? loc with
  | some (.file mode _) => putAt loc (.file mode contents)
  | _ => pure ()

/-- Copies a file with its mode.  The target is emptied before the first byte is read, so a file that
is copied to itself ends empty. -/
def copyFile (source destination : Path) : Change Unit := do
  let mode ← match ← ask (·.lookup .target source) with
    | .file mode _ => if mode.read then pure mode else throw .denied
    | .directory mode _ => if mode.read then throw .notRegular else throw .denied
    | .link _ => throw .notRegular
  let origin ← ask (·.locate .target source)
  let loc ← openForWriting destination
  match (← now).find? origin with
  | some (.file _ contents) => putAt loc (.file mode contents)
  | _ => pure ()

/-- Creates a link that holds `target`.  Nothing may be there yet. -/
def createLink (target p : Path) : Change Unit := do
  if target.segments.any (·.contains 0) then throw .zeroByte
  if target = Path.empty then throw .missing
  let slot ← ask (·.slot p)
  match slot.name? with
  | none => throw .exists
  | some name =>
    if name.length > nameLimit then throw .nameTooLong
    if ((← now).find? (slot.directory ++ [name])).isSome then throw .exists
    if slot.slashed then throw .missing
    if !slot.mode.write then throw .denied
    putAt (slot.directory ++ [name]) (.link target)

/-! ## Removal -/

/-- Removes a file or a link. -/
def removeFile (p : Path) : Change Unit := do
  let slot ← ask (·.slot p)
  match slot.name? with
  | none => throw .isDirectory
  | some name =>
    if name.length > nameLimit then throw .nameTooLong
    match (← now).find? (slot.directory ++ [name]) with
    | none => throw .missing
    | some e =>
      if slot.slashed then throw (if e.isDirectory then .isDirectory else .notDirectory)
      if !slot.mode.write then throw .denied
      if e.isDirectory then throw .isDirectory
      modify (·.remove (slot.directory ++ [name]))

/-- Removes an entry and all that is below it.  A link is removed, not what it leads to. -/
def removeAll (p : Path) : Change Unit := do
  let loc ← ask (·.locate .itself p)
  modify (·.remove loc)

end FileSystem

end FileRoutes
