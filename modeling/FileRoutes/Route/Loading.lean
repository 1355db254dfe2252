import FileRoutes.FileSystem.Reading
import FileRoutes.Problem
import FileRoutes.Route.Node

/-!
# Loading the route tree

Loading turns the directory at the routes root into nodes, one for each entry below it.  Directories
become folders; everything else becomes a file, so a link is never entered, and what is loaded is as
deep as the tree on the disk.

## What makes it fail

The root has to be a directory that can be listed; otherwise there is no route tree.  Below the root
every directory has to be listed and every name has to be text, since names are written into
the modules that are generated.  The path of an entry has to be short enough for the system to be
asked about it, and the directory above has to let entries be reached by name.

All entries are looked at, one by one in the order of the siblings, an entry's name before what is
in it; the first fault ends it.

## Order

`EntryOrder.arrange` decides the order of the siblings.  It is applied to what became of each entry,
so that it decides which of several faults is the first.
-/

namespace FileRoutes

/-- The order of the entries of a directory. -/
inductive EntryOrder where
  /-- By the bytes of their names. -/
  | byName
  /-- As the system enumerates them. -/
  | asEnumerated
  deriving DecidableEq

namespace EntryOrder

/-- The word for an order. -/
def name : EntryOrder → Text
  | byName => "name"
  | asEnumerated => "filesystem"

/-- Brings named things into the order. -/
def arrange {α : Type} (order : EntryOrder) (entries : List (Name × α)) : List (Name × α) :=
  match order with
  | .byName => entries.mergeSort fun a b => Bytes.le a.1 b.1
  | .asEnumerated => entries

end EntryOrder

namespace Loading

/-- Why a directory below the root cannot be listed, if it cannot: `reachable` says whether its
name may be followed from the directory above. -/
def obstacle? (path : Path) (reachable : Bool) (mode : Mode) : Option Fault :=
  if path.bytes.length ≥ FileSystem.pathLimit then some .nameTooLong
  else if reachable && mode.read then none
  else some .denied

/-- The nodes of a directory from what became of its entries, or the first problem with one. -/
def collect (order : EntryOrder) (results : List (Name × Except Problem Node)) :
    Except Problem (List Node) :=
  (order.arrange results).mapM (·.2)

mutual

/-- The node of an entry of the directory `above`, whose names may be followed or not. -/
def node (order : EntryOrder) (above : Path) (logical : LogicalPath) (reachable : Bool)
    (name : Name) : Entry → Except Problem Node
  | .directory mode entries =>
    let path := above.child name
    match Utf8.decode? name with
    | none => .error (.unreadable path .nameNotText)
    | some text =>
      match obstacle? path reachable mode with
      | some fault => .error (.unreadable path fault)
      | none =>
        match collect order (nodes order path (logical.join text) mode.search entries) with
        | .error problem => .error problem
        | .ok children => .ok ⟨text, path, logical.join text, .folder, children⟩
  | _ =>
    let path := above.child name
    match Utf8.decode? name with
    | none => .error (.unreadable path .nameNotText)
    | some text => .ok ⟨text, path, logical.join text, .file, []⟩

/-- What becomes of each entry of a directory. -/
def nodes (order : EntryOrder) (above : Path) (logical : LogicalPath) (reachable : Bool) :
    List (Name × Entry) → List (Name × Except Problem Node)
  | [] => []
  | (name, e) :: rest =>
    (name, node order above logical reachable name e)
      :: nodes order above logical reachable rest

end

end Loading

/-- The nodes of the directory at `root`, whose logical paths begin with `marker`. -/
def load (fs : FileSystem) (order : EntryOrder) (marker : Text) (root : Path) :
    Except Problem (List Node) :=
  match fs.lookup .target root with
  | .ok (.directory mode entries) =>
    if mode.read then
      Loading.collect order (Loading.nodes order root (.root marker) mode.search entries)
    else .error (.noRoot root)
  | _ => .error (.noRoot root)

end FileRoutes
