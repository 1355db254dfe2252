import FileRoutes.FileSystem.Canonical
import FileRoutes.Migration.Session

/-!
# Copying a tree

`copyTree` copies what is below one directory into another.  Directories that are missing are
created, files are overwritten, links are made anew and hold what they held; whatever else is in the
target stays.

## The guard

A target inside the source would be copied into itself for ever, so it is refused.  The target need
not exist, and is resolved by `targetLocation`: first `.` and `..` are taken out of its absolute path
as text, then the longest beginning of it that leads anywhere is replaced by where it leads, and the
names behind it are kept.  The comparison with the source is by names, so a target whose name merely
begins like that of the source is none inside it.

## The walk

Each entry is copied before the entries in it, and a directory is listed when its turn comes, from
the file system as it is by then.  Paths grow with each level until the system refuses them, which
bounds the depth of the walk.
-/

namespace FileRoutes

/-- How many entries were copied. -/
structure CopyTotals where
  directories : Nat
  files : Nat
  links : Nat
  deriving DecidableEq

namespace CopyTotals

/-- Nothing was copied. -/
def zero : CopyTotals := ⟨0, 0, 0⟩

/-- The entries of two copies. -/
def add (t u : CopyTotals) : CopyTotals :=
  ⟨t.directories + u.directories, t.files + u.files, t.links + u.links⟩

instance : Add CopyTotals := ⟨add⟩

end CopyTotals

namespace Copy

/-! ## Where the target is -/

/-- The location that a segment leads to from another one, as far as the text tells. -/
def lexicalStep (loc : Location) (segment : Name) : Location :=
  if segment = [] ∨ segment = Path.dot then loc
  else if segment = Path.dotDot then loc.dropLast
  else loc ++ [segment]

/-- The location that a path spells when it is read from `start`. -/
def lexicalLocation (start : Location) (p : Path) : Location :=
  p.segments.foldl lexicalStep (if p.isAbsolute then [] else start)

/-- Replaces the longest beginning of a location that leads anywhere by where it leads.  The names
are given from the last to the first. -/
def settle (fs : FileSystem) : List Name → Location
  | [] => []
  | name :: above =>
    match fs.canonical (Path.ofLocation (name :: above).reverse) with
    | .ok loc => loc
    | .error _ => settle fs above ++ [name]

/-- The location of a target that need not exist. -/
def targetLocation (fs : FileSystem) (target : Path) : Except Fault Location := do
  let start ← if target.isAbsolute then .ok [] else fs.currentLocation
  return settle fs (lexicalLocation start target).reverse

/-! ## One entry -/

/-- The path of the entry that these names lead to from the source. -/
def entryPath (source : Path) (names : List Name) : Path := names.foldl Path.child source

/-- Copies a link, replacing what is at the destination. -/
def copyLink (entry destination : Path) : Action Unit := do
  let target ← Action.ask (.readLink entry) (·.readLink entry)
  if (← Action.fileSystem).isOccupied destination then
    Action.change (.replaceEntry destination) (FileSystem.removeFile destination)
  Action.tell .debug .copying ("Linking " ++ destination.text ++ " -> " ++ target.text)
  Action.change (.createLink destination) (FileSystem.createLink target destination)

/-- Copies the entry that these names lead to, but not what is in it. -/
def copyEntry (source target : Path) (names : List Name) (kind : Entry.Kind) :
    Action CopyTotals := do
  let entry := entryPath source names
  let relative := Path.ofNames names
  let destination := target.join relative
  match kind with
  | .directory =>
    Action.change (.createDirectory destination) (FileSystem.createDirectories destination)
    return ⟨1, 0, 0⟩
  | .link =>
    copyLink entry destination
    return ⟨0, 0, 1⟩
  | .file =>
    Action.tell .debug .copying ("Copying " ++ relative.text)
    Action.change (.copyFile destination) (FileSystem.copyFile entry destination)
    return ⟨0, 1, 0⟩

/-! ## The walk -/

/-- The entries of the directory that these names lead to. -/
def entries (source : Path) (names : List Name) : Action (List (Name × Entry.Kind)) := do
  let directory := entryPath source names
  Action.attempt (.readSource source)
    (((← Action.fileSystem).list directory).mapError (.visit directory))

/-- Copies what is in the directory that these names lead to, over at most `depth` levels. -/
def copyBelow (source target : Path) : Nat → List Name → Action CopyTotals
  | 0, names => throw (.during (.readSource source) (.visit (entryPath source names) .nameTooLong))
  | depth + 1, names => do
    (← entries source names).foldlM (fun totals (name, kind) => do
      let here ← copyEntry source target (names ++ [name]) kind
      let below ←
        if kind = .directory then copyBelow source target depth (names ++ [name])
        else pure .zero
      return totals + here + below) CopyTotals.zero

/-- Copies the source itself and, if it is or leads to a directory, what is in it. -/
def walk (source target : Path) : Action CopyTotals := do
  let fs ← Action.fileSystem
  let top ← Action.attempt (.readSource source)
    ((fs.lookup .itself source).mapError (.visit source))
  let here ← copyEntry source target [] top.kind
  let below ←
    if fs.isDirectory source then copyBelow source target FileSystem.pathLimit []
    else pure .zero
  return here + below

end Copy

/-- Copies the tree at `source` into `target`. -/
def copyTree (source target : Path) : Action CopyTotals := do
  Action.tell .info .copying ("Copying " ++ source.text ++ " to " ++ target.text)
  let origin ← Action.ask (.resolveSource source) (·.canonical source)
  let goal ← Action.ask .findCurrent (Copy.targetLocation · target)
  if origin.isPrefixOf goal then
    throw (.refused (.targetInside target source))
  let totals ← Copy.walk source target
  Action.tell .info .copying ("Copied " ++ Text.ofNat totals.files ++ " files and "
    ++ Text.ofNat totals.links ++ " links in " ++ Text.ofNat totals.directories ++ " directories")
  return totals

end FileRoutes
