import FileRoutes.Proofs.Route.Chains
import FileRoutes.Proofs.Route.Loading

/-!
# The table of a larger tree

If a tree has what another one has, directories where that has directories and other entries where that
has other entries (`Entry.Within`), then its table has the routes of the other one (`compile_embeds`).  It
may have more of them, between the others or below them, and a route may get a page that it did not have.

## Two inductions

The nodes of the smaller tree are found among those of the larger one, by an induction on the smaller tree
(`Loading.among_of_within`).  From there on it does not matter how the nodes were loaded: the second
induction is on the nodes and follows the derivation (`Node.embeds_derivation`).  That nothing is pruned
which was not pruned before comes with it, since a route is kept for its page or for the routes below it.
-/

namespace FileRoutes

/-! ## Embedded tables -/

/-- The other heading is of the same folder, and tells of a page if this one does. -/
structure Heading.Within (h h' : Heading) : Prop where
  path_eq : h'.path = h.path
  source_eq : h'.source = h.source
  hasPage : h.hasPage = true → h'.hasPage = true

namespace Route

/-- Each route has one in the other table, below those of the routes that it is below. -/
def Embeds (rs rs' : List Route) : Prop :=
  ∀ chain ∈ chainsOf rs, ∃ chain' ∈ chainsOf rs', List.Forall₂ Heading.Within chain chain'

namespace Embeds

variable {r r' : Route} {rs rs' : List Route}

theorem nil (rs : List Route) : Embeds [] rs := by
  intro chain hchain
  cases hchain

/-- A table with a route is embedded in none without. -/
theorem ne_nil (h : Embeds rs rs') (hne : rs ≠ []) : rs' ≠ [] := by
  obtain ⟨chain, hchain⟩ := List.exists_mem_of_ne_nil _ fun hnil => hne (chainsOf_eq_nil_iff.mp hnil)
  obtain ⟨chain', hchain', -⟩ := h chain hchain
  rintro rfl
  cases hchain'

/-- A route is embedded with the routes below it. -/
theorem singleton (hheading : r.heading.Within r'.heading) (hbelow : Embeds r.children r'.children) :
    Embeds [r] [r'] := by
  intro chain hchain
  rw [chainsOf_cons, chainsOf_nil, List.append_nil, chains_eq] at hchain ⊢
  rcases List.mem_cons.mp hchain with rfl | hchain
  · exact ⟨[r'.heading], List.mem_cons_self, .cons hheading .nil⟩
  · obtain ⟨rest, hrest, rfl⟩ := List.mem_map.mp hchain
    obtain ⟨rest', hrest', hwithin⟩ := hbelow rest hrest
    exact ⟨r'.heading :: rest', List.mem_cons_of_mem _ (List.mem_map_of_mem hrest'),
      .cons hheading hwithin⟩

end Embeds

end Route

/-! ## Nodes among others -/

namespace Node

mutual

/-- One of these nodes is like the node, and so are nodes in it like those in the node. -/
def Among : Node → List Node → Prop
  | ⟨name, _, logical, kind, children⟩, ns =>
    ∃ n ∈ ns, n.name = name ∧ n.logical = logical ∧ n.kind = kind ∧ AllAmong children n.children

/-- Each of the nodes is among the others. -/
def AllAmong : List Node → List Node → Prop
  | [], _ => True
  | n :: rest, ns => Among n ns ∧ AllAmong rest ns

end

variable {n : Node} {ns ns' : List Node}

theorem among_iff : Among n ns ↔ ∃ n' ∈ ns, n'.name = n.name ∧ n'.logical = n.logical ∧
    n'.kind = n.kind ∧ AllAmong n.children n'.children := by
  cases n
  rw [Among]

theorem allAmong_iff : AllAmong ns ns' ↔ ∀ n ∈ ns, Among n ns' := by
  induction ns with
  | nil => simp [AllAmong]
  | cons n ns ih => rw [AllAmong, ih, List.forall_mem_cons]

variable (conventions : Conventions) (style : PathStyle)

/-- A page among the nodes is one among the others. -/
theorem AllAmong.anyPage (h : AllAmong ns ns') (hpage : Node.anyPage conventions ns = true) :
    Node.anyPage conventions ns' = true := by
  obtain ⟨n, hn, hfile⟩ := List.any_eq_true.mp hpage
  obtain ⟨n', hn', hname, -, hkind, -⟩ := among_iff.mp (allAmong_iff.mp h n hn)
  refine List.any_eq_true.mpr ⟨n', hn', ?_⟩
  rwa [isFile, hkind, hname]

/-- A route of nodes is that of a folder among them, or below it. -/
theorem mem_chainsOf_derivationOf {above : Nat} {chain : List Heading} :
    chain ∈ Route.chainsOf (derivationOf conventions style above ns).routes ↔
      ∃ n ∈ ns, n.kind = .folder ∧
        chain ∈ Route.chainsOf (derivation conventions style above n).routes := by
  induction ns with
  | nil => simp
  | cons n ns ih =>
    cases hkind : n.kind with
    | file => simp [derivationOf_cons_of_file conventions style above hkind, ih, hkind]
    | folder =>
      rw [derivationOf_cons_of_folder conventions style above hkind, Route.chainsOf_append]
      simp [ih, hkind]

/-- The routes of a folder in the nodes are routes of the nodes. -/
theorem embeds_derivationOf {above : Nat} (hn : n ∈ ns) (hkind : n.kind = .folder) {rs : List Route}
    (h : Route.Embeds rs (derivation conventions style above n).routes) :
    Route.Embeds rs (derivationOf conventions style above ns).routes := by
  intro chain hchain
  obtain ⟨chain', hchain', hwithin⟩ := h chain hchain
  exact ⟨chain', (mem_chainsOf_derivationOf conventions style).mpr ⟨n, hn, hkind, hchain'⟩, hwithin⟩

/-- A folder with more in it has more routes. -/
theorem embeds_of_below {n n' : Node} (above : Nat) (hlogical : n'.logical = n.logical)
    (hpage : Node.anyPage conventions n.children = true → Node.anyPage conventions n'.children = true)
    (hbelow : Route.Embeds (n.routesBelow conventions style) (n'.routesBelow conventions style)) :
    Route.Embeds (derivation conventions style above n).routes
      (derivation conventions style above n').routes := by
  by_cases hkept : Node.anyPage conventions n.children = true ∨ n.routesBelow conventions style ≠ []
  · have hkept' : Node.anyPage conventions n'.children = true ∨ n'.routesBelow conventions style ≠ [] :=
      hkept.imp hpage hbelow.ne_nil
    rw [routes_derivation_of_kept conventions style above hkept,
      routes_derivation_of_kept conventions style above hkept', hlogical]
    exact .singleton ⟨rfl, rfl, hpage⟩ hbelow
  · obtain ⟨hnoPage, hnone⟩ := not_or.mp hkept
    rw [routes_derivation_of_pruned conventions style above (by simpa using hnoPage)
      (by simpa using hnone)]
    exact .nil _

mutual

/-- A folder that is among nodes has its routes among theirs. -/
theorem embeds_derivation (above : Nat) (ns : List Node) : ∀ n : Node, n.Among ns → n.kind = .folder →
    Route.Embeds (derivation conventions style above n).routes
      (derivationOf conventions style above ns).routes
  | ⟨name, path, logical, kind, children⟩, h, hkind => by
    obtain ⟨n', hn', -, hlogical, hkind', hchildren⟩ := among_iff.mp h
    refine embeds_derivationOf conventions style hn' (hkind'.trans hkind) ?_
    refine embeds_of_below conventions style above hlogical (hchildren.anyPage conventions) ?_
    rw [routesBelow, routesBelow, hlogical]
    exact embeds_derivationOf_of_allAmong logical.depth n'.children children hchildren

/-- Nodes that are among others have their routes among theirs. -/
theorem embeds_derivationOf_of_allAmong (above : Nat) (ns' : List Node) : ∀ ns : List Node,
    AllAmong ns ns' → Route.Embeds (derivationOf conventions style above ns).routes
      (derivationOf conventions style above ns').routes
  | [], _ => by
    rw [derivationOf_nil]
    exact .nil _
  | n :: rest, h => by
    rw [AllAmong] at h
    obtain ⟨hfirst, hrest⟩ := h
    have hfirst' := embeds_derivation above ns' n hfirst
    have hrest' := embeds_derivationOf_of_allAmong above ns' rest hrest
    intro chain hchain
    obtain ⟨m, hm, hkind, hchain⟩ := (mem_chainsOf_derivationOf conventions style).mp hchain
    rcases List.mem_cons.mp hm with heq | hm
    · rw [heq] at hkind hchain
      exact hfirst' hkind chain hchain
    · exact hrest' chain ((mem_chainsOf_derivationOf conventions style).mpr ⟨m, hm, hkind, hchain⟩)

end

end Node

/-! ## Trees within others -/

/-- The other tree has directories where this one has directories, and other entries where this one has
other entries. -/
def Entry.Within (e e' : Entry) : Prop :=
  ∀ below x, e.find? below = some x → ∃ x', e'.find? below = some x' ∧ x'.isDirectory = x.isDirectory

namespace Entry.Within

variable {e e' : Entry} {mode mode' : Mode} {entries entries' : List (Name × Entry)}

theorem isDirectory_eq (h : e.Within e') : e'.isDirectory = e.isDirectory := by
  obtain ⟨x, hx, hsame⟩ := h [] e (Entry.find?_nil e)
  rw [Entry.find?_nil] at hx
  rwa [Option.some.inj hx]

/-- What is in the directory is in the other one. -/
theorem inside (h : Within (.directory mode entries) (.directory mode' entries'))
    (hdistinct : (entries.map (·.1)).Nodup) {p : Name × Entry} (hp : p ∈ entries) :
    ∃ x, (p.1, x) ∈ entries' ∧ p.2.Within x := by
  have hlookup := Entry.lookup_of_mem hdistinct hp
  have hfind (below : List Name) :
      (Entry.directory mode entries).find? (p.1 :: below) = p.2.find? below := by
    rw [Entry.find?_directory_cons, hlookup]
    rfl
  obtain ⟨x, hx, -⟩ := h [p.1] p.2 ((hfind []).trans (Entry.find?_nil p.2))
  obtain ⟨y, hy, -⟩ := Option.bind_eq_some_iff.mp hx
  refine ⟨y, Entry.mem_of_lookup hy, fun below z hz => ?_⟩
  obtain ⟨z', hz', hsame⟩ := h (p.1 :: below) z ((hfind below).trans hz)
  rw [Entry.find?_directory_cons, hy] at hz'
  exact ⟨z', hz', hsame⟩

end Entry.Within

namespace Loading

variable {order : EntryOrder} {above above' : Path} {logical : LogicalPath} {reachable reachable' : Bool}
  {mode mode' : Mode} {entries entries' : List (Name × Entry)} {ns ns' : List Node}

/-- What is in a directory is among the nodes of a directory that has it too. -/
theorem allAmong_of_collect (hwithin : (Entry.directory mode entries).Within (.directory mode' entries'))
    (hdistinct : (entries.map (·.1)).Nodup)
    (hnode : ∀ p ∈ entries, ∀ e' n n', p.2.Within e' → node order above logical reachable p.1 p.2 = .ok n →
      node order above' logical reachable' p.1 e' = .ok n' → n' ∈ ns' → n.Among ns')
    (h : collect order (nodes order above logical reachable entries) = .ok ns)
    (h' : collect order (nodes order above' logical reachable' entries') = .ok ns') :
    Node.AllAmong ns ns' := by
  refine Node.allAmong_iff.mpr fun n hn => ?_
  obtain ⟨p, hp, hpn⟩ := exists_of_mem_collect h hn
  obtain ⟨e', hmem, hinside⟩ := hwithin.inside hdistinct hp
  obtain ⟨n', hn', hpn'⟩ := exists_mem_of_collect h' hmem
  exact hnode p hp e' n n' hinside hpn hpn' hn'

/-- What is no directory becomes the same node in both places, but for the path. -/
theorem among_of_file {e e' : Entry} {name : Name} {n n' : Node} (hfile : e.isDirectory = false)
    (hfile' : e'.isDirectory = false) (h : node order above logical reachable name e = .ok n)
    (h' : node order above' logical reachable' name e' = .ok n') (hn' : n' ∈ ns') : n.Among ns' := by
  obtain ⟨text, htext, rfl⟩ := node_of_file hfile h
  obtain ⟨text', htext', rfl⟩ := node_of_file hfile' h'
  obtain rfl := Option.some.inj (htext.symm.trans htext')
  exact Node.among_iff.mpr ⟨_, hn', rfl, rfl, rfl, trivial⟩

/-- The node of an entry is among others if one of these is the node of an entry that has more in it. -/
theorem among_of_within {e e' : Entry} {name : Name} {n n' : Node} (hwithin : e.Within e')
    (hvalid : e.Valid) (h : node order above logical reachable name e = .ok n)
    (h' : node order above' logical reachable' name e' = .ok n') (hn' : n' ∈ ns') : n.Among ns' := by
  induction e using Entry.induction generalizing e' above above' logical reachable reachable' name n n' ns' with
  | file mode contents => exact among_of_file rfl hwithin.isDirectory_eq h h' hn'
  | link target => exact among_of_file rfl hwithin.isDirectory_eq h h' hn'
  | directory mode entries ih =>
    obtain ⟨mode', entries', rfl⟩ := Entry.isDirectory_iff.mp hwithin.isDirectory_eq
    obtain ⟨text, children, htext, hchildren, rfl⟩ := node_of_directory h
    obtain ⟨text', children', htext', hchildren', rfl⟩ := node_of_directory h'
    obtain rfl := Option.some.inj (htext.symm.trans htext')
    refine Node.among_iff.mpr ⟨_, hn', rfl, rfl, rfl, ?_⟩
    exact allAmong_of_collect hwithin hvalid.distinct (fun p hp e' n n' hinside hpn hpn' hmem =>
      ih p hp hinside (hvalid.inside hp) hpn hpn' hmem) hchildren hchildren'

end Loading

/-- A tree that has more in it has more routes, wherever the two are. -/
theorem compile_embeds {settings : Settings} {fs fs' : FileSystem} {root root' : Path} {e e' : Entry}
    {c c' : Compilation} (hlookup : fs.lookup .target root = .ok e)
    (hlookup' : fs'.lookup .target root' = .ok e') (hwithin : e.Within e') (hvalid : e.Valid)
    (h : compile settings fs root = .ok c) (h' : compile settings fs' root' = .ok c') :
    Route.Embeds c.routes c'.routes := by
  obtain ⟨ns, hload, rfl⟩ := exists_load_of_compile h
  obtain ⟨ns', hload', rfl⟩ := exists_load_of_compile h'
  obtain ⟨mode, entries, hfound, hcollect⟩ := exists_of_load hload
  obtain ⟨mode', entries', hfound', hcollect'⟩ := exists_of_load hload'
  obtain rfl := Except.ok.inj (hfound.symm.trans hlookup)
  obtain rfl := Except.ok.inj (hfound'.symm.trans hlookup')
  have hamong := Loading.allAmong_of_collect hwithin hvalid.distinct
    (fun p hp e' n n' hinside => Loading.among_of_within hinside (hvalid.inside hp)) hcollect hcollect'
  exact Node.embeds_derivationOf_of_allAmong settings.conventions settings.style 0 ns' ns hamong

end FileRoutes
