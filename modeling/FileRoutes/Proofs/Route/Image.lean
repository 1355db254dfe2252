import FileRoutes.Proofs.Route.Exploration

/-!
# The forest as an image of the directory

A forest that was loaded has a node for each entry below the root, in its place, and no other nodes: whatever
names are followed from the root, they lead to one node if they lead to an entry, and to none otherwise
(`Node.reached`).  What the node says of itself follows from the names and from the entry (`Node.Depicts`).

Four things are kept in step on the way down: the node and the entry, the path at which the node was found, and
its logical path.  Each is made from that of the folder above with the entry's name, and this is all that
`Loading.Mirrors` says.  The rest follows by induction on the names (`Loading.Mirrors.reached_eq`).

Links need no special treatment.  They are entries that are no directories, so they become files and end the
way down.
-/

namespace FileRoutes

/-! ## Nodes by their names -/

namespace Node

/-- The nodes to which names lead from a node. -/
def reached : Location → Node → List Node
  | [], n => [n]
  | name :: rest, n => (n.children.filter fun m => Utf8.encode m.name = name).flatMap (reached rest)

/-- A folder for the root itself, which is none of the nodes that are loaded. -/
def top (root : Path) (marker : Text) (ns : List Node) : Node := ⟨[], root, .root marker, .folder, ns⟩

/-- The node is the image of the entry to which names lead from the root. -/
structure Depicts (order : EntryOrder) (root : Path) (marker : Text) (loc : Location) (n : Node)
    (e : Entry) : Prop where
  /-- It has the last of the names. -/
  name_eq : ∀ name ∈ loc.getLast?, Utf8.encode n.name = name
  /-- It was found at the path of the root with the names behind it. -/
  path_eq : n.path = loc.foldl Path.child root
  /-- It is as deep as there are names. -/
  depth_eq : n.logical.depth = loc.length
  /-- Its logical path is the marker with the names behind it. -/
  text_eq : ∃ names, Entry.locationOf names = loc ∧ n.logical.text = marker ++ names.flatMap ('/' :: ·)
  /-- It is a folder exactly if the entry is a directory. -/
  folder_iff : n.kind = .folder ↔ e.isDirectory = true
  /-- A file has no children. -/
  children_eq_nil : n.kind = .file → n.children = []
  /-- Its children have the names of the entries, each of them once. -/
  names_perm : (n.children.map fun m => Utf8.encode m.name).Perm (e.entries.map (·.1))
  names_nodup : (n.children.map fun m => Utf8.encode m.name).Nodup
  /-- By name, the names of its children grow. -/
  sorted : order = .byName → (n.children.map fun m => Utf8.encode m.name).Pairwise Bytes.Before

end Node

namespace Loading

variable {order : EntryOrder} {reachable : Bool} {name : Name} {e : Entry} {n m : Node}

/-! ## One step down -/

/-- The node is what becomes of an entry, with a node that is made from the entry's name for each of its
entries. -/
structure Mirrors (order : EntryOrder) (n : Node) (e : Entry) : Prop where
  folder_iff : n.kind = .folder ↔ e.isDirectory = true
  children : List.Forall₂ (fun p m => ∃ reachable, node order n.path n.logical reachable p.1 p.2 = .ok m)
    (order.arrange e.entries) n.children

/-- The node mirrors an entry of a directory, and has its place below the node of the directory. -/
structure ChildOf (order : EntryOrder) (n : Node) (p : Name × Entry) (m : Node) : Prop where
  mirrors : Mirrors order m p.2
  name_eq : Utf8.encode m.name = p.1
  path_eq : m.path = n.path.child p.1
  logical_eq : m.logical = n.logical.join m.name

/-- What is loaded mirrors the entry, and its name, path and logical path are made from the entry's name. -/
theorem childOf_of_node {p : Name × Entry} (h : node order n.path n.logical reachable p.1 p.2 = .ok m) :
    ChildOf order n p m := by
  cases hkind : p.2.isDirectory with
  | false =>
    obtain ⟨text, htext, rfl⟩ := node_of_file hkind h
    refine ⟨⟨by simp [hkind], ?_⟩, Utf8.encode_of_decode? htext, rfl, rfl⟩
    rw [Entry.entries_of_file hkind, (order.arrange_perm []).eq_nil]
    exact .nil
  | true =>
    obtain ⟨mode, entries, hdirectory⟩ := Entry.isDirectory_iff.mp hkind
    rw [hdirectory] at h
    obtain ⟨text, children, htext, hchildren, rfl⟩ := node_of_directory h
    refine ⟨⟨by simp [hkind], ?_⟩, Utf8.encode_of_decode? htext, rfl, rfl⟩
    rw [hdirectory]
    exact (collect_nodes_eq_ok_iff.mp hchildren).imp fun _ _ hp => ⟨mode.search, hp⟩

section Children

variable {ps : List (Name × Entry)} {ms : List Node}

theorem names_of_children (h : List.Forall₂ (ChildOf order n) ps ms) :
    (ms.map fun m => Utf8.encode m.name) = ps.map (·.1) := by
  induction h with
  | nil => rfl
  | cons hp _ ih => rw [List.map_cons, List.map_cons, ih, hp.name_eq]

theorem filter_children_of_notMem (h : List.Forall₂ (ChildOf order n) ps ms)
    (hnone : name ∉ ps.map (·.1)) : ms.filter (fun m => Utf8.encode m.name = name) = [] := by
  rw [← names_of_children h] at hnone
  refine List.filter_eq_nil_iff.mpr fun m hm hname => hnone ?_
  exact List.mem_map.mpr ⟨m, hm, of_decide_eq_true hname⟩

/-- Among the children of a folder, that of an entry is found by its name, and no other. -/
theorem filter_children_of_mem (h : List.Forall₂ (ChildOf order n) ps ms)
    (hdistinct : (ps.map (·.1)).Nodup) (hmem : (name, e) ∈ ps) :
    ∃ m, ms.filter (fun m => Utf8.encode m.name = name) = [m] ∧ ChildOf order n (name, e) m := by
  induction h with
  | nil => cases hmem
  | @cons p m ps ms hp hrest ih =>
    obtain ⟨hfirst, hothers⟩ := List.nodup_cons.mp hdistinct
    rcases List.mem_cons.mp hmem with rfl | hmem
    · -- none of the others has this name
      refine ⟨m, ?_, hp⟩
      rw [List.filter_cons_of_pos (by simpa using hp.name_eq), filter_children_of_notMem hrest hfirst]
    · have hother : Utf8.encode m.name ≠ name := by
        intro hname
        exact hfirst (List.mem_map.mpr ⟨(name, e), hmem, hname.symm.trans hp.name_eq⟩)
      rw [List.filter_cons_of_neg (by simpa using hother)]
      exact ih hothers hmem

end Children

namespace Mirrors

variable {root : Path} {marker : Text} {loc : Location} {x : Entry}

theorem childOf (h : Mirrors order n e) :
    List.Forall₂ (ChildOf order n) (order.arrange e.entries) n.children :=
  h.children.imp fun _ _ ⟨_, hp⟩ => childOf_of_node hp

/-- Each child of a folder is that of an entry. -/
theorem exists_childOf {c : Node} (h : Mirrors order n e) (hc : c ∈ n.children) :
    ∃ p ∈ e.entries, ChildOf order n p c := by
  have hperm := order.arrange_perm e.entries
  obtain ⟨i, hi, rfl⟩ := List.getElem_of_mem hc
  have hchildren := h.childOf
  have hi' : i < (order.arrange e.entries).length := hchildren.length_eq ▸ hi
  exact ⟨(order.arrange e.entries)[i], hperm.mem_iff.mp (List.getElem_mem hi'), hchildren.get hi' hi⟩

/-- The children have the names of the entries, in the order that was asked for. -/
theorem names_eq (h : Mirrors order n e) :
    (n.children.map fun m => Utf8.encode m.name) = (order.arrange e.entries).map (·.1) :=
  names_of_children h.childOf

theorem children_eq_nil (h : Mirrors order n e) (he : e.isDirectory = false) : n.children = [] := by
  have hchildren := h.children
  rw [Entry.entries_of_file he, (order.arrange_perm []).eq_nil] at hchildren
  exact List.forall₂_nil_left_iff.mp hchildren

section Directory

variable {mode : Mode} {entries : List (Name × Entry)}

theorem reached_cons_of_none (h : Mirrors order n (.directory mode entries))
    (hnone : entries.lookup name = none) (rest : Location) : n.reached (name :: rest) = [] := by
  have hname : name ∉ (order.arrange entries).map (·.1) := by
    rw [((order.arrange_perm entries).map _).mem_iff]
    intro hmem
    obtain ⟨p, hp, rfl⟩ := List.mem_map.mp hmem
    simpa using List.lookup_eq_none_iff.mp hnone p hp
  rw [Node.reached, filter_children_of_notMem h.childOf hname, List.flatMap_nil]

theorem reached_cons_of_some (h : Mirrors order n (.directory mode entries))
    (hvalid : (Entry.directory mode entries).Valid) (hfind : entries.lookup name = some x) (rest : Location) :
    ∃ m, n.reached (name :: rest) = m.reached rest ∧ ChildOf order n (name, x) m := by
  have hperm := order.arrange_perm entries
  obtain ⟨m, hfilter, hchild⟩ := filter_children_of_mem h.childOf ((hperm.map _).nodup_iff.mpr hvalid.distinct)
    (hperm.mem_iff.mpr (Entry.mem_of_lookup hfind))
  exact ⟨m, by rw [Node.reached, hfilter, List.flatMap_singleton], hchild⟩

end Directory

/-- Names that lead to no entry lead to no node. -/
theorem reached_eq_nil (h : Mirrors order n e) (hvalid : e.Valid) (hnone : e.find? loc = none) :
    n.reached loc = [] := by
  induction loc generalizing n e with
  | nil => cases hnone
  | cons name rest ih =>
    cases hkind : e.isDirectory with
    | false => rw [Node.reached, h.children_eq_nil hkind, List.filter_nil, List.flatMap_nil]
    | true =>
      obtain ⟨mode, entries, rfl⟩ := Entry.isDirectory_iff.mp hkind
      rw [Entry.find?_directory_cons] at hnone
      cases hlookup : entries.lookup name with
      | none => exact h.reached_cons_of_none hlookup rest
      | some x =>
        rw [hlookup] at hnone
        obtain ⟨m, hreached, hchild⟩ := h.reached_cons_of_some hvalid hlookup rest
        rw [hreached]
        exact ih hchild.mirrors (hvalid.inside (Entry.mem_of_lookup hlookup)) hnone

/-- Names that lead to an entry lead to its node, and only to that. -/
theorem reached_eq (h : Mirrors order n e) (hvalid : e.Valid) (hfind : e.find? loc = some x) :
    ∃ m, n.reached loc = [m] ∧ Mirrors order m x ∧ m.path = loc.foldl Path.child n.path ∧
      (∃ names, Entry.locationOf names = loc ∧
        m.logical = ⟨n.logical.marker, n.logical.segments ++ names⟩) ∧
      ∀ name ∈ loc.getLast?, Utf8.encode m.name = name := by
  induction loc generalizing n e with
  | nil =>
    obtain rfl := Option.some.inj ((Entry.find?_nil e).symm.trans hfind)
    exact ⟨n, by rw [Node.reached], h, rfl, ⟨[], rfl, by rw [List.append_nil]⟩, by simp⟩
  | cons name rest ih =>
    cases hkind : e.isDirectory with
    | false => cases e <;> simp_all [Entry.isDirectory, Entry.kind]
    | true =>
      obtain ⟨mode, entries, rfl⟩ := Entry.isDirectory_iff.mp hkind
      rw [Entry.find?_directory_cons] at hfind
      obtain ⟨y, hlookup, hfind⟩ := Option.bind_eq_some_iff.mp hfind
      obtain ⟨c, hreached, hchild⟩ := h.reached_cons_of_some hvalid hlookup rest
      obtain ⟨m, hm, hmirrors, hpath, ⟨names, hnames, hlogical⟩, hlast⟩ :=
        ih hchild.mirrors (hvalid.inside (Entry.mem_of_lookup hlookup)) hfind
      refine ⟨m, hreached.trans hm, hmirrors, ?_, ⟨c.name :: names, ?_, ?_⟩, ?_⟩
      · rw [hpath, hchild.path_eq, List.foldl_cons]
      · rw [Entry.locationOf_cons, hchild.name_eq, hnames]
      · rw [hlogical, hchild.logical_eq, LogicalPath.join, List.append_assoc, List.singleton_append]
      · cases rest with
        | nil =>
          obtain rfl : m = c := by simpa [Node.reached] using hm.symm
          simpa using hchild.name_eq
        | cons next rest => rwa [List.getLast?_cons_cons]

end Mirrors

theorem depicts_of_mirrors {root : Path} {marker : Text} {loc : Location} {names : List Text}
    (h : Mirrors order n e) (hvalid : e.Valid) (hpath : n.path = loc.foldl Path.child root)
    (hnames : Entry.locationOf names = loc) (hlogical : n.logical = ⟨marker, names⟩)
    (hlast : ∀ name ∈ loc.getLast?, Utf8.encode n.name = name) : n.Depicts order root marker loc e := by
  have hperm : (n.children.map fun m => Utf8.encode m.name).Perm (e.entries.map (·.1)) := by
    rw [h.names_eq]
    exact (order.arrange_perm e.entries).map _
  exact
    { name_eq := hlast
      path_eq := hpath
      depth_eq := by rw [hlogical, ← hnames, LogicalPath.depth, Entry.locationOf, List.length_map]
      text_eq := ⟨names, hnames, by rw [hlogical, LogicalPath.text]⟩
      folder_iff := h.folder_iff
      children_eq_nil := fun hfile => h.children_eq_nil (by
        rw [← Bool.not_eq_true, ← h.folder_iff, hfile]
        simp)
      names_perm := hperm
      names_nodup := hperm.nodup_iff.mpr hvalid.nodup_names
      sorted := by
        rintro rfl
        rw [h.names_eq]
        exact List.pairwise_map.mpr (EntryOrder.pairwise_arrange_byName hvalid.nodup_names) }

end Loading

/-! ## The whole forest -/

/-- **The image of a directory.**  Loading ends: a loader that asks the system for one directory after the other
has an answer, and it is that of `load` for all trees with names that the system can hold.  If there is a
forest, then the root is a directory, and names lead from the root to one node if they lead to an entry of it,
and to no node otherwise; and the node is the image of the entry. -/
theorem load_depicts {fs : FileSystem} (hfs : fs.Valid) (order : EntryOrder) (marker : Text) (root : Path) :
    (∃ answer, Loading.explored fs order marker root = some answer) ∧
    (fs.NamesFit → Loading.explored fs order marker root = some (load fs order marker root)) ∧
    ∀ ns, load fs order marker root = .ok ns →
      ∃ mode entries, fs.lookup .target root = .ok (.directory mode entries) ∧
        (∀ loc, (Entry.directory mode entries).find? loc = none →
          (Node.top root marker ns).reached loc = []) ∧
        ∀ loc e, (Entry.directory mode entries).find? loc = some e →
          ∃ n, (Node.top root marker ns).reached loc = [n] ∧ n.Depicts order root marker loc e := by
  refine ⟨Loading.exists_explored hfs order marker root,
    fun hnames => Loading.explored_eq hfs hnames order marker root, fun ns hload => ?_⟩
  obtain ⟨mode, entries, hlookup, hcollect⟩ := exists_of_load hload
  have hvalid := hfs.lookup hlookup
  have htop : Loading.Mirrors order (Node.top root marker ns) (.directory mode entries) :=
    ⟨by simp [Node.top, Entry.isDirectory, Entry.kind],
      (Loading.collect_nodes_eq_ok_iff.mp hcollect).imp fun _ _ hp => ⟨mode.search, hp⟩⟩
  refine ⟨mode, entries, hlookup, fun loc hnone => htop.reached_eq_nil hvalid hnone, fun loc e hfind => ?_⟩
  obtain ⟨n, hreached, hmirrors, hpath, ⟨names, hnames, hlogical⟩, hlast⟩ := htop.reached_eq hvalid hfind
  exact ⟨n, hreached,
    Loading.depicts_of_mirrors hmirrors (hvalid.find? hfind) hpath hnames hlogical hlast⟩

/-- A project whose root is reached over a link, and holds a directory of the same name and a link back. -/
def linkedTree : FileSystem where
  root := .directory .full [
    (Utf8.encode "app", .directory .full [
      (Utf8.encode "loop", .link (Path.ofText "/app")),
      (Utf8.encode "app", .directory .full [(Utf8.encode "page.tsx", .file .plain [])])]),
    (Utf8.encode "start", .link (Path.ofText "app"))]
  current := .ofLocation []

/-- The sample is loaded, although one of its links leads back to the root. -/
theorem load_depicts_linkedTree :
    linkedTree.Valid ∧ linkedTree.NamesFit ∧
    ∃ ns, load linkedTree .byName "./app" (Path.ofText "/start") = .ok ns ∧
      Loading.explored linkedTree .byName "./app" (Path.ofText "/start") = some (.ok ns) ∧
      ∃ mode entries, linkedTree.lookup .target (Path.ofText "/start") = .ok (.directory mode entries) ∧
        (∀ loc, (Entry.directory mode entries).find? loc = none →
          (Node.top (Path.ofText "/start") "./app" ns).reached loc = []) ∧
        ∀ loc e, (Entry.directory mode entries).find? loc = some e →
          ∃ n, (Node.top (Path.ofText "/start") "./app" ns).reached loc = [n] ∧
            n.Depicts .byName (Path.ofText "/start") "./app" loc e := by
  have hvalid : linkedTree.Valid := ⟨by decide, _, _, rfl⟩
  have hnames : linkedTree.NamesFit := Entry.namesFit_of_everything (by decide)
  have hloaded : (load linkedTree .byName "./app" (Path.ofText "/start")).isOk = true := by cbv
  cases hload : load linkedTree .byName "./app" (Path.ofText "/start") with
  | error problem =>
    rw [hload] at hloaded
    cases hloaded
  | ok ns =>
    obtain ⟨-, hsame, himage⟩ := load_depicts hvalid .byName "./app" (Path.ofText "/start")
    exact ⟨hvalid, hnames, ns, rfl, (hsame hnames).trans (congrArg some hload), himage ns hload⟩

end FileRoutes
