import FileRoutes.FileSystem.Reading

/-!
# Inventories

The inventory of a directory is the list of all entries below it, with their relative paths and what
they hold, in the order of the paths' bytes.  Links are listed, not entered.  A directory that may not be
listed counts as empty, and the contents of a file that may not be read are left out.

What is new in a tree is told in the same terms: the entries that an earlier tree does not have, or has
with something else in them.  A directory comes before what is below it.
-/

namespace FileRoutes

/-- What an inventory tells of an entry. -/
inductive Item where
  | directory
  | file (contents? : Option Bytes)
  | link (target : Path)

mutual

/-- The entries below one, each with the names that lead to it. -/
def Entry.items : Entry → List (List Name × Item)
  | .directory mode entries => if mode.read then Entry.itemsOf entries else []
  | _ => []

/-- The entries of a directory and those below them. -/
def Entry.itemsOf : List (Name × Entry) → List (List Name × Item)
  | [] => []
  | (name, e) :: rest =>
    let item : Item := match e with
      | .file mode contents => .file (if mode.read then some contents else none)
      | .link target => .link target
      | .directory .. => .directory
    (([name], item) :: (Entry.items e).map fun (names, i) => (name :: names, i))
      ++ Entry.itemsOf rest

end

/-- The entries below a directory with their relative paths, ordered by the bytes of these. -/
def Entry.inventory (e : Entry) : List (Path × Item) :=
  (e.items.map fun (names, item) => (Path.ofNames names, item)).mergeSort
    fun a b => Bytes.le a.1.bytes b.1.bytes

mutual

/-- What an entry has below it that an earlier one at the same place did not have. -/
def Entry.news (earlier? : Option Entry) : Entry → List (Location × Item)
  | .directory _ entries => Entry.newsOf (earlier?.elim [] Entry.entries) entries
  | _ => []

/-- What entries tell that the earlier ones in the same directory did not. -/
def Entry.newsOf (earlier : List (Name × Entry)) : List (Name × Entry) → List (Location × Item)
  | [] => []
  | (name, e) :: rest =>
    let own : List Item := match e, earlier.lookup name with
      | .directory .., some (.directory ..) => []
      | .directory .., _ => [.directory]
      | .file _ new, some (.file _ old) => if new = old then [] else [.file (some new)]
      | .file _ new, _ => [.file (some new)]
      | .link new, some (.link old) => if new = old then [] else [.link new]
      | .link new, _ => [.link new]
    own.map (([name], ·))
      ++ (Entry.news (earlier.lookup name) e).map (fun (names, i) => (name :: names, i))
      ++ Entry.newsOf earlier rest

end

end FileRoutes
