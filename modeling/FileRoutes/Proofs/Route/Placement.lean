import FileRoutes.Route.Compilation
import FileRoutes.Proofs.Route.Loading

/-!
# The same tree in two places

A route table tells where its pages are by their logical paths, so it does not depend on the place at
which the tree was loaded.  Nor does it depend on what is in the files: if two trees have directories
under the same names, and other entries under the same names (`Entry.SameShape`), and the one of them is
loaded by name, then the other one is loaded with the same result but for the places of the nodes
(`collect_of_sameShape`), unless the system refuses to list a directory of it (`Loading.Permitted`).
So both have the same table (`compile_of_sameShape`).

Nodes are compared by taking their places away (`Node.unplaced`).
-/

namespace FileRoutes

/-! ## Nodes without their places -/

namespace Node

mutual

/-- The node without the place at which it was found. -/
def unplaced : Node → Node
  | ⟨name, _, logical, kind, children⟩ => ⟨name, .empty, logical, kind, unplacedOf children⟩

/-- Nodes without the places at which they were found. -/
def unplacedOf : List Node → List Node
  | [] => []
  | n :: rest => unplaced n :: unplacedOf rest

end

theorem unplacedOf_eq_map (ns : List Node) : unplacedOf ns = ns.map unplaced := by
  induction ns with
  | nil => rw [unplacedOf, List.map_nil]
  | cons n ns ih => rw [unplacedOf, ih, List.map_cons]

theorem isFolder_unplaced (n : Node) : n.unplaced.isFolder = n.isFolder := by
  cases n
  rw [unplaced]
  rfl

/-- Whether there is a page among nodes does not depend on their places. -/
theorem anyPage_unplacedOf (conventions : Conventions) (ns : List Node) :
    anyPage conventions (unplacedOf ns) = anyPage conventions ns := by
  rw [unplacedOf_eq_map, anyPage, anyPage, List.any_map]
  congr 1
  funext n
  cases n
  rw [Function.comp_apply, unplaced]
  rfl

mutual

theorem derivation_unplaced (conventions : Conventions) (style : PathStyle) (above : Nat) :
    ∀ n : Node, derivation conventions style above n.unplaced = derivation conventions style above n
  | ⟨_, _, logical, _, children⟩ => by
    rw [unplaced, derivation, derivation, anyPage_unplacedOf,
      derivationOf_unplacedOf conventions style logical.depth children]

theorem derivationOf_unplacedOf (conventions : Conventions) (style : PathStyle) (above : Nat) :
    ∀ ns : List Node,
      derivationOf conventions style above (unplacedOf ns) = derivationOf conventions style above ns
  | [] => by rw [unplacedOf]
  | n :: rest => by
    rw [unplacedOf, derivationOf, derivationOf, isFolder_unplaced,
      derivation_unplaced conventions style above n, derivationOf_unplacedOf conventions style above rest]

end

end Node

/-- The table does not depend on the places of the nodes. -/
theorem derive_eq_of_unplaced {ns ns' : List Node} (h : ns.map Node.unplaced = ns'.map Node.unplaced)
    (conventions : Conventions) (style : PathStyle) :
    derive conventions style ns = derive conventions style ns' := by
  rw [derive, derive, ← Node.derivationOf_unplacedOf, ← Node.derivationOf_unplacedOf conventions style 0 ns',
    Node.unplacedOf_eq_map, Node.unplacedOf_eq_map, h]

/-! ## Trees of one shape -/

/-- The trees have directories at the same places, and other entries at the same places. -/
def Entry.SameShape (e e' : Entry) : Prop :=
  ∀ below, (e'.find? below).map Entry.isDirectory = (e.find? below).map Entry.isDirectory

namespace Entry.SameShape

variable {e e' : Entry} {mode mode' : Mode} {entries entries' : List (Name × Entry)}

theorem isDirectory_eq (h : SameShape e e') : e'.isDirectory = e.isDirectory := by
  have htop := h []
  rw [Entry.find?_nil, Entry.find?_nil] at htop
  exact Option.some.inj htop

/-- Entries of one name have one shape. -/
theorem lookup (h : SameShape (.directory mode entries) (.directory mode' entries')) {name : Name}
    {x x' : Entry} (hx : entries.lookup name = some x) (hx' : entries'.lookup name = some x') :
    SameShape x x' := by
  intro below
  have hbelow := h (name :: below)
  rwa [Entry.find?_directory_cons, Entry.find?_directory_cons, hx, hx'] at hbelow

/-- The directories have the same names. -/
theorem mem_names_iff (h : SameShape (.directory mode entries) (.directory mode' entries'))
    (hvalid : (Entry.directory mode entries).Valid) (hvalid' : (Entry.directory mode' entries').Valid)
    {name : Name} : name ∈ entries'.map (·.1) ↔ name ∈ entries.map (·.1) := by
  have hiff {m : Mode} {es : List (Name × Entry)} (hes : (Entry.directory m es).Valid) :
      name ∈ es.map (·.1) ↔ ((Entry.directory m es).find? [name]).isSome = true := by
    rw [Entry.find?_directory_cons]
    constructor
    · intro hmem
      obtain ⟨p, hp, rfl⟩ := List.mem_map.mp hmem
      rw [Entry.lookup_of_mem hes.distinct hp]
      simp
    · intro hsome
      obtain ⟨x, hx⟩ := Option.isSome_iff_exists.mp hsome
      obtain ⟨y, hy, -⟩ := Option.bind_eq_some_iff.mp hx
      exact List.mem_map_of_mem (f := Prod.fst) (Entry.mem_of_lookup hy)
  have hbelow := congrArg Option.isSome (h [name])
  rw [Option.isSome_map, Option.isSome_map] at hbelow
  rw [hiff hvalid', hiff hvalid, hbelow]

/-- The entries of the two directories stand in the same order by name. -/
theorem forall₂_arrange (h : SameShape (.directory mode entries) (.directory mode' entries'))
    (hvalid : (Entry.directory mode entries).Valid) (hvalid' : (Entry.directory mode' entries').Valid) :
    List.Forall₂ (fun p p' => p ∈ entries ∧ p' ∈ entries' ∧ p.1 = p'.1 ∧ SameShape p.2 p'.2)
      (EntryOrder.byName.arrange entries) (EntryOrder.byName.arrange entries') := by
  have hnames := EntryOrder.map_arrange_byName hvalid.distinct hvalid'.distinct
    fun name => (h.mem_names_iff hvalid hvalid').symm
  rw [← List.forall₂_eq_eq_eq, List.forall₂_map_left_iff, List.forall₂_map_right_iff,
    List.forall₂_iff_zip] at hnames
  obtain ⟨hlength, hnames⟩ := hnames
  refine List.forall₂_iff_zip.mpr ⟨hlength, fun {p p'} hp => ?_⟩
  obtain ⟨hmem, hmem'⟩ := List.of_mem_zip hp
  rw [(EntryOrder.arrange_perm .byName entries).mem_iff] at hmem
  rw [(EntryOrder.arrange_perm .byName entries').mem_iff] at hmem'
  have hname := hnames hp
  refine ⟨hmem, hmem', hname, h.lookup (Entry.lookup_of_mem hvalid.distinct hmem) ?_⟩
  rw [hname]
  exact Entry.lookup_of_mem hvalid'.distinct hmem'

end Entry.SameShape

/-! ## Loading a tree of the same shape -/

namespace Loading

/-- The system lists every directory below the one that is found at the path. -/
def Permitted (path : Path) (e : Entry) : Prop :=
  ∀ init name mode entries m es, e.find? (init ++ [name]) = some (.directory mode entries) →
    e.find? init = some (.directory m es) →
    ((init ++ [name]).foldl Path.child path).bytes.length < FileSystem.pathLimit ∧
      mode.read = true ∧ m.search = true

/-- What is permitted below a directory is permitted below those in it. -/
theorem Permitted.of_mem {path : Path} {mode : Mode} {entries : List (Name × Entry)}
    (h : Permitted path (.directory mode entries)) (hdistinct : (entries.map (·.1)).Nodup)
    {p : Name × Entry} (hp : p ∈ entries) : Permitted (path.child p.1) p.2 := by
  have hfind (names : List Name) : (Entry.directory mode entries).find? (p.1 :: names) = p.2.find? names :=
    Entry.find?_append_of_eq_some (Entry.find?_of_mem hdistinct hp) names
  intro init name m es m' es' hdirectory habove
  exact h (p.1 :: init) name m es m' es' ((hfind _).trans hdirectory) ((hfind _).trans habove)

section Shape

variable {path path' above above' : Path} {logical : LogicalPath} {reachable reachable' : Bool}
  {name : Name} {e e' : Entry}

/-- A directory is loaded like another one of its shape, if its entries are. -/
theorem collect_of_sameShape {mode mode' : Mode} {entries entries' : List (Name × Entry)}
    {ns' : List Node} (hshape : (Entry.directory mode entries).SameShape (.directory mode' entries'))
    (hvalid : (Entry.directory mode entries).Valid) (hvalid' : (Entry.directory mode' entries').Valid)
    (hpermitted : Permitted path (.directory mode entries))
    (hnode : ∀ p ∈ entries, ∀ e' n', p.2.SameShape e' → e'.Valid →
      (∀ m es, p.2 = .directory m es → obstacle? (path.child p.1) mode.search m = none) →
      node .byName path' logical reachable' p.1 e' = .ok n' →
      ∃ n, node .byName path logical mode.search p.1 p.2 = .ok n ∧ n.unplaced = n'.unplaced)
    (h : collect .byName (nodes .byName path' logical reachable' entries') = .ok ns') :
    ∃ ns, collect .byName (nodes .byName path logical mode.search entries) = .ok ns ∧
      ns.map Node.unplaced = ns'.map Node.unplaced := by
  rw [collect_nodes_eq_ok_iff] at h
  have hentries := hshape.forall₂_arrange hvalid hvalid'
  obtain ⟨ns, hns, hsame⟩ := exists_forall₂ hentries.flip h fun p' p n' hp hn' => by
    obtain ⟨hmem, hmem', hname, hinside⟩ := hp
    rw [← hname] at hn'
    refine hnode p hmem p'.2 n' hinside (hvalid'.inside hmem') (fun m es heq => ?_) hn'
    have hfind : (Entry.directory mode entries).find? ([] ++ [p.1]) = some (.directory m es) :=
      (Entry.find?_of_mem hvalid.distinct hmem).trans (congrArg some heq)
    obtain ⟨hshort, hread, hsearch⟩ := hpermitted [] p.1 m es mode entries hfind (Entry.find?_nil _)
    change (path.child p.1).bytes.length < _ at hshort
    rw [obstacle?, if_neg (Nat.not_le.mpr hshort), hsearch, hread]
    rfl
  refine ⟨ns, collect_nodes_eq_ok_iff.mpr hns, ?_⟩
  rw [← List.forall₂_eq_eq_eq, List.forall₂_map_left_iff, List.forall₂_map_right_iff]
  exact hsame.flip

/-- An entry is loaded like another one of its shape. -/
theorem node_of_sameShape (hshape : e.SameShape e') (hvalid : e.Valid) (hvalid' : e'.Valid)
    (hpermitted : Permitted (above.child name) e)
    (hhere : ∀ mode entries, e = .directory mode entries → obstacle? (above.child name) reachable mode = none)
    {n' : Node} (h : node .byName above' logical reachable' name e' = .ok n') :
    ∃ n, node .byName above logical reachable name e = .ok n ∧ n.unplaced = n'.unplaced := by
  induction e using Entry.induction generalizing e' above above' logical reachable reachable' name n' with
  | file mode contents =>
    obtain ⟨text, htext, rfl⟩ := node_of_file hshape.isDirectory_eq h
    refine ⟨⟨text, above.child name, logical.join text, .file, []⟩, ?_, ?_⟩
    · simp [node, htext]
    · rw [Node.unplaced, Node.unplaced]
  | link target =>
    obtain ⟨text, htext, rfl⟩ := node_of_file hshape.isDirectory_eq h
    refine ⟨⟨text, above.child name, logical.join text, .file, []⟩, ?_, ?_⟩
    · simp [node, htext]
    · rw [Node.unplaced, Node.unplaced]
  | directory mode entries ih =>
    obtain ⟨mode', entries', rfl⟩ := Entry.isDirectory_iff.mp hshape.isDirectory_eq
    obtain ⟨text, children', htext, hchildren', rfl⟩ := node_of_directory h
    obtain ⟨children, hchildren, hsame⟩ := collect_of_sameShape hshape hvalid hvalid' hpermitted
      (fun p hp _ _ hinside hvalid' hhere' hn' => ih p hp hinside (hvalid.inside hp) hvalid'
        (hpermitted.of_mem hvalid.distinct hp) hhere' hn') hchildren'
    refine ⟨⟨text, above.child name, logical.join text, .folder, children⟩, ?_, ?_⟩
    · rw [node]
      simp only [htext, hhere mode entries rfl, hchildren]
    · rw [Node.unplaced, Node.unplaced, Node.unplacedOf_eq_map, Node.unplacedOf_eq_map, hsame]

end Shape

end Loading

/-- A directory has the table of another one of its shape, wherever they are. -/
theorem compile_of_sameShape {settings : Settings} {fs fs' : FileSystem} {root root' : Path}
    {mode mode' : Mode} {entries entries' : List (Name × Entry)} {c' : Compilation}
    (horder : settings.order = .byName)
    (hlookup : fs.lookup .target root = .ok (.directory mode entries)) (hread : mode.read = true)
    (hlookup' : fs'.lookup .target root' = .ok (.directory mode' entries'))
    (hshape : (Entry.directory mode entries).SameShape (.directory mode' entries'))
    (hvalid : (Entry.directory mode entries).Valid) (hvalid' : (Entry.directory mode' entries').Valid)
    (hpermitted : Loading.Permitted root (.directory mode entries))
    (h : compile settings fs' root' = .ok c') :
    ∃ c, compile settings fs root = .ok c ∧ c.routes = c'.routes ∧ c.fragment = c'.fragment := by
  obtain ⟨conventions, order, style⟩ := settings
  obtain rfl : order = .byName := horder
  rw [compile] at h
  split at h
  · cases h
  · rename_i ns' hload
    rw [load, hlookup'] at hload
    simp only at hload
    split at hload
    · obtain ⟨ns, hns, hsame⟩ := Loading.collect_of_sameShape hshape hvalid hvalid' hpermitted
        (fun p hp _ _ hinside hvalid' hhere hn' => Loading.node_of_sameShape hinside (hvalid.inside hp)
          hvalid' (hpermitted.of_mem hvalid.distinct hp) hhere hn') hload
      have hderive := derive_eq_of_unplaced hsame conventions style
      refine ⟨⟨ns, derive conventions style ns,
        Route.fragment conventions (derive conventions style ns).routes⟩, ?_, ?_, ?_⟩
      · rw [compile, load, hlookup]
        simp only [hread, if_pos, hns]
      · rw [← Except.ok.inj h, Compilation.routes, Compilation.routes, hderive]
      · rw [← Except.ok.inj h, hderive]
    · cases hload

end FileRoutes
