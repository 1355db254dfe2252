import FileRoutes.Path

/-!
# Entries

A file system is a tree of entries: files with their bytes, symbolic links with the path they hold,
and directories with named entries.  The entries of a directory stand in the order in which the
operating system enumerates them, which is no order that a program may rely on.

`find?` reads the tree at a location, `put` and `remove` change it there.  A location is a list of
names that are followed downwards; links have no part in it.
-/

namespace FileRoutes

/-- What the running user may do with a file or a directory. -/
structure Mode where
  /-- Read the contents, or list the entries. -/
  read : Bool
  /-- Change the contents, or add and remove entries. -/
  write : Bool
  /-- Reach the entries of a directory by their names. -/
  search : Bool
  deriving DecidableEq, Inhabited

namespace Mode

/-- Everything is allowed. -/
def full : Mode := ⟨true, true, true⟩

/-- A file may be read and written. -/
def plain : Mode := ⟨true, true, false⟩

end Mode

/-- A file, a symbolic link or a directory. -/
inductive Entry where
  | file (mode : Mode) (contents : Bytes)
  | link (target : Path)
  | directory (mode : Mode) (entries : List (Name × Entry))
  deriving Inhabited

namespace Entry

/-- The three kinds of entries. -/
inductive Kind where
  | file
  | link
  | directory
  deriving DecidableEq

/-- The kind of an entry. -/
def kind : Entry → Kind
  | .file .. => .file
  | .link _ => .link
  | .directory .. => .directory

/-- The entry is a directory. -/
def isDirectory (e : Entry) : Bool := e.kind = .directory

/-- The entries of a directory; what is none has none. -/
def entries : Entry → List (Name × Entry)
  | .directory _ entries => entries
  | _ => []

/-- A directory without entries. -/
def emptyDirectory : Entry := .directory .full []

/-- The entry at a location below another. -/
def find? (e : Entry) : Location → Option Entry
  | [] => some e
  | name :: rest =>
    match e with
    | .directory _ entries => (entries.lookup name).bind (find? · rest)
    | _ => none

/-- Gives one name of a directory another entry; the order of the names stays. -/
def replace (name : Name) (new : Entry) (entries : List (Name × Entry)) : List (Name × Entry) :=
  entries.map fun e => if e.1 = name then (name, new) else e

/-- The tree with `new` at a location.  The directory that is to hold it has to be there, or nothing
changes; a new name comes last in it. -/
def put (e new : Entry) : Location → Entry
  | [] => new
  | name :: rest =>
    match e with
    | .directory mode entries =>
      match entries.lookup name with
      | some old => .directory mode (replace name (put old new rest) entries)
      | none => if rest = [] then .directory mode (entries ++ [(name, new)]) else e
    | _ => e

/-- The tree without the entry at a location and what is below it.  The top of the tree stays. -/
def remove (e : Entry) : Location → Entry
  | [] => e
  | name :: rest =>
    match e with
    | .directory mode entries =>
      if rest = [] then .directory mode (entries.filter (·.1 ≠ name))
      else match entries.lookup name with
        | some old => .directory mode (replace name (remove old rest) entries)
        | none => e
    | _ => e

end Entry

/-- What has been reached on the way along a path: the entry at a location, or a directory that was
removed while it was in use.  Such a directory stays as an empty one to which no name leads, but the
way up from it is open. -/
structure Spot where
  /-- The location, or that of the innermost directory above which was not removed. -/
  location : Location
  /-- How many levels below that location were removed. -/
  lost : Nat
  deriving DecidableEq, Inhabited

namespace Spot

/-- The entry at a location. -/
def ofLocation (loc : Location) : Spot := ⟨loc, 0⟩

/-- The directory above.  There is none above the top, so this is its own. -/
def above (s : Spot) : Spot :=
  match s.lost with
  | 0 => ⟨s.location.dropLast, 0⟩
  | n + 1 => ⟨s.location, n⟩

/-- What becomes of a directory in use when the entry at a location is removed. -/
def without (loc : Location) (s : Spot) : Spot :=
  if loc ≠ [] ∧ loc.isPrefixOf s.location then
    ⟨loc.dropLast, s.lost + (s.location.length + 1 - loc.length)⟩
  else s

end Spot

/-- A file system and the directory from which relative paths start. -/
structure FileSystem where
  /-- The top directory. -/
  root : Entry
  /-- Where relative paths start. -/
  current : Spot
  deriving Inhabited

namespace FileSystem

/-- The entry at a location. -/
def find? (fs : FileSystem) (loc : Location) : Option Entry := fs.root.find? loc

/-- The file system with another entry at a location. -/
def put (fs : FileSystem) (loc : Location) (new : Entry) : FileSystem :=
  ⟨fs.root.put new loc, fs.current⟩

/-- The file system without the entry at a location.  The current directory is lost when it was
there or below. -/
def remove (fs : FileSystem) (loc : Location) : FileSystem :=
  ⟨fs.root.remove loc, fs.current.without loc⟩

end FileSystem

end FileRoutes
