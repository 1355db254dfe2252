import FileRoutes.Proofs.FileSystem.Enumeration
import FileRoutes.Proofs.Route.Exactness
import FileRoutes.Proofs.Route.Placement
import Mathlib.Data.List.Perm.Basic

/-!
# The order of siblings

The system may enumerate a directory in any order.  Two file systems that differ in nothing else
(`FileSystem.Reordered`) are compiled with one result if siblings are ordered by name, be it a table or a
problem.  If siblings stay as they are enumerated, then both are compiled or none is, and the tables are the
same up to the order of siblings at each level (`compile_reordered`).

## Forests

Nodes and routes both are forests, and what is said about the order of siblings is the same for both: so it
is defined once, for anything that has a label and children (`Forest.Reordered`).

## Two inductions

Ordered by name, the entries of a directory come in one sequence however they are enumerated, so what
becomes of them does too, up to the first problem (`Loading.node_byName_eq`).  In any other order the first
problem may be another one, but whether there is one depends on the entries alone, and the nodes are those
entries' nodes in some order (`Loading.exists_node_reordered`).
-/

namespace FileRoutes

/-! ## Forests -/

namespace Forest

variable {α β : Type}

/-- The forests are the same up to the order of siblings, at the top and below each tree. -/
inductive Reordered (label : α → β) (children : α → List α) : List α → List α → Prop
  | nil : Reordered label children [] []
  | keep (x : α) {xs ys : List α} : Reordered label children xs ys →
    Reordered label children (x :: xs) (x :: ys)
  | inside {x y : α} (zs : List α) : label x = label y →
    Reordered label children (children x) (children y) → Reordered label children (x :: zs) (y :: zs)
  | swap (x y : α) (zs : List α) : Reordered label children (x :: y :: zs) (y :: x :: zs)
  | trans {xs ys zs : List α} : Reordered label children xs ys → Reordered label children ys zs →
    Reordered label children xs zs

namespace Reordered

variable {label : α → β} {children : α → List α} {x y : α} {xs ys zs ws : List α}

theorem of_perm (h : xs.Perm ys) : Reordered label children xs ys := by
  induction h with
  | nil => exact .nil
  | cons x _ ih => exact .keep x ih
  | swap x y zs => exact .swap y x zs
  | trans _ _ ih ih' => exact .trans ih ih'

theorem refl (xs : List α) : Reordered label children xs xs := of_perm (.refl xs)

theorem symm (h : Reordered label children xs ys) : Reordered label children ys xs := by
  induction h with
  | nil => exact .nil
  | keep x _ ih => exact .keep x ih
  | inside zs hlabel _ ih => exact .inside zs hlabel.symm ih
  | swap x y zs => exact .swap y x zs
  | trans _ _ ih ih' => exact .trans ih' ih

theorem append_left (zs : List α) (h : Reordered label children xs ys) :
    Reordered label children (zs ++ xs) (zs ++ ys) := by
  induction zs with
  | nil => exact h
  | cons z zs ih => exact .keep z ih

theorem append (h : Reordered label children xs ys) (h' : Reordered label children zs ws) :
    Reordered label children (xs ++ zs) (ys ++ ws) := by
  refine .trans (append_left xs h') (.trans (of_perm List.perm_append_comm) (.trans (append_left ws h) ?_))
  exact of_perm List.perm_append_comm

theorem of_singleton (h : Reordered label children [x] [y]) (h' : Reordered label children xs ys) :
    Reordered label children (x :: xs) (y :: ys) :=
  h.append h'

theorem of_forall₂ (h : List.Forall₂ (fun x y => Reordered label children [x] [y]) xs ys) :
    Reordered label children xs ys := by
  induction h with
  | nil => exact .nil
  | cons hx _ ih => exact hx.of_singleton ih

theorem length_eq (h : Reordered label children xs ys) : xs.length = ys.length := by
  induction h with
  | nil => rfl
  | keep x _ ih => rw [List.length_cons, List.length_cons, ih]
  | inside zs _ _ _ => rfl
  | swap x y zs => rfl
  | trans _ _ ih ih' => exact ih.trans ih'

theorem eq_nil_iff (h : Reordered label children xs ys) : xs = [] ↔ ys = [] := by
  rw [← List.length_eq_zero_iff, h.length_eq, List.length_eq_zero_iff]

end Reordered

end Forest

/-! ## Nodes and routes -/

/-- What a node is without those in it. -/
def Node.label (n : Node) : Text × Path × LogicalPath × Node.Kind := (n.name, n.path, n.logical, n.kind)

/-- The nodes are the same up to the order of siblings. -/
abbrev Node.Reordered : List Node → List Node → Prop := Forest.Reordered Node.label Node.children

/-- The tables are the same up to the order of siblings. -/
abbrev Route.Reordered : List Route → List Route → Prop := Forest.Reordered Route.heading Route.children

namespace Node

variable (conventions : Conventions) (style : PathStyle) {n m : Node} {ns ns' : List Node}

theorem anyPage_of_reordered (h : Node.Reordered ns ns') :
    anyPage conventions ns = anyPage conventions ns' := by
  induction h with
  | nil => rfl
  | keep n _ ih =>
    rw [anyPage] at ih ⊢
    rw [List.any_cons, ih, anyPage, anyPage, List.any_cons]
  | @inside n m ns hlabel _ _ =>
    obtain ⟨hname, -, -, hkind⟩ : n.name = m.name ∧ n.path = m.path ∧ n.logical = m.logical ∧
        n.kind = m.kind := by simpa [label] using hlabel
    simp [anyPage, isFile, hname, hkind]
  | swap n m ns => simp [anyPage, Bool.or_left_comm]
  | trans _ _ ih ih' => exact ih.trans ih'

/-- A folder becomes the same route up to the order of those below it. -/
theorem reordered_derivation {above : Nat} (hlogical : n.logical = m.logical)
    (hpage : anyPage conventions n.children = anyPage conventions m.children)
    (hbelow : Route.Reordered (n.routesBelow conventions style) (m.routesBelow conventions style)) :
    Route.Reordered (derivation conventions style above n).routes
      (derivation conventions style above m).routes := by
  by_cases hkept : anyPage conventions n.children = true ∨ n.routesBelow conventions style ≠ []
  · have hkept' : anyPage conventions m.children = true ∨ m.routesBelow conventions style ≠ [] := by
      rwa [← hpage, Ne, ← hbelow.eq_nil_iff]
    rw [routes_derivation_of_kept conventions style above hkept,
      routes_derivation_of_kept conventions style above hkept', ← hlogical, ← hpage]
    exact .inside [] rfl hbelow
  · obtain ⟨hnoPage, hnone⟩ := not_or.mp hkept
    rw [not_not] at hnone
    rw [routes_derivation_of_pruned conventions style above (Bool.eq_false_iff.mpr hnoPage) hnone,
      routes_derivation_of_pruned conventions style above (hpage ▸ Bool.eq_false_iff.mpr hnoPage)
        (hbelow.eq_nil_iff.mp hnone)]
    exact .nil

/-- The routes of nodes, from those of the first of them. -/
theorem routes_derivationOf_cons (above : Nat) (n : Node) (ns : List Node) :
    (derivationOf conventions style above (n :: ns)).routes =
      (derivationOf conventions style above [n]).routes
        ++ (derivationOf conventions style above ns).routes := by
  cases hkind : n.kind with
  | file => simp [derivationOf_cons_of_file conventions style above hkind]
  | folder => simp [derivationOf_cons_of_folder conventions style above hkind]

/-- The derivation keeps the order of siblings, so in another order of the nodes it has another order. -/
theorem reordered_derivationOf (h : Node.Reordered ns ns') (above : Nat) :
    Route.Reordered (derivationOf conventions style above ns).routes
      (derivationOf conventions style above ns').routes := by
  induction h generalizing above with
  | nil => exact .refl _
  | @keep n ns ns' _ ih =>
    rw [routes_derivationOf_cons conventions style above n ns,
      routes_derivationOf_cons conventions style above n ns']
    exact .append_left _ (ih above)
  | @inside n m ns hlabel hchildren ih =>
    obtain ⟨-, -, hlogical, hkind⟩ : n.name = m.name ∧ n.path = m.path ∧ n.logical = m.logical ∧
        n.kind = m.kind := by simpa [label] using hlabel
    cases hfile : m.kind with
    | file =>
      rw [derivationOf_cons_of_file conventions style above (hkind.trans hfile),
        derivationOf_cons_of_file conventions style above hfile]
      exact .refl _
    | folder =>
      rw [derivationOf_cons_of_folder conventions style above (hkind.trans hfile),
        derivationOf_cons_of_folder conventions style above hfile]
      refine .append ?_ (.refl _)
      refine reordered_derivation conventions style hlogical (anyPage_of_reordered conventions hchildren) ?_
      rw [routesBelow, routesBelow, hlogical]
      exact ih m.logical.depth
  | swap n m ns =>
    have hcons := routes_derivationOf_cons conventions style above
    rw [hcons n (m :: ns), hcons m ns, hcons m (n :: ns), hcons n ns, ← List.append_assoc,
      ← List.append_assoc]
    exact .append (.of_perm List.perm_append_comm) (.refl _)
  | trans _ _ ih ih' => exact .trans (ih above) (ih' above)

end Node

/-! ## Loading -/

/-- Trees that are alike have directories under the same names. -/
theorem Entry.Alike.sameShape {e e' : Entry} (h : e.Alike e') : e.SameShape e' := by
  have hbare (x? : Option Entry) : x?.map isDirectory = (x?.map bare).map isDirectory := by
    rw [Option.map_map]
    congr 1
    funext x
    cases x <;> rfl
  intro below
  rw [hbare, hbare (e.find? below), h below]

/-- By name, the entries of directories that are alike come in one sequence. -/
theorem Entry.Alike.forall₂_arrange {mode mode' : Mode} {entries entries' : List (Name × Entry)}
    (h : Entry.Alike (.directory mode entries) (.directory mode' entries'))
    (hvalid : (Entry.directory mode entries).Valid) (hvalid' : (Entry.directory mode' entries').Valid) :
    List.Forall₂ (fun p p' => p ∈ entries ∧ p.1 = p'.1 ∧ p.2.Alike p'.2 ∧ p'.2.Valid)
      (EntryOrder.byName.arrange entries) (EntryOrder.byName.arrange entries') := by
  refine (h.sameShape.forall₂_arrange hvalid hvalid').imp fun p p' ⟨hp, hp', hname, _⟩ => ?_
  refine ⟨hp, hname, h.inside (Entry.lookup_of_mem hvalid.distinct hp) ?_, hvalid'.inside hp'⟩
  rw [hname]
  exact Entry.lookup_of_mem hvalid'.distinct hp'

namespace Loading

variable {order : EntryOrder} {above : Path} {logical : LogicalPath} {reachable : Bool} {name : Name}
  {e e' : Entry} {mode : Mode} {entries entries' : List (Name × Entry)}

/-! ### By name -/

theorem collect_byName_eq (halike : Entry.Alike (.directory mode entries) (.directory mode entries'))
    (hvalid : (Entry.directory mode entries).Valid) (hvalid' : (Entry.directory mode entries').Valid)
    (hnode : ∀ p ∈ entries, ∀ e', p.2.Alike e' → e'.Valid →
      node .byName above logical reachable p.1 e' = node .byName above logical reachable p.1 p.2) :
    collect .byName (nodes .byName above logical reachable entries') =
      collect .byName (nodes .byName above logical reachable entries) := by
  rw [collect_nodes_eq_mapM, collect_nodes_eq_mapM]
  refine (mapM_eq_of_forall₂ ((halike.forall₂_arrange hvalid hvalid').imp ?_)).symm
  rintro p p' ⟨hp, hname, hinside, hvalid'⟩
  rw [← hname]
  exact (hnode p hp p'.2 hinside hvalid').symm

/-- By name, an entry is loaded with one result, be it a node or a problem, however the directories in it are
enumerated. -/
theorem node_byName_eq (halike : e.Alike e') (hvalid : e.Valid) (hvalid' : e'.Valid) :
    node .byName above logical reachable name e' = node .byName above logical reachable name e := by
  induction e using Entry.induction generalizing e' above logical reachable name with
  | file mode contents => rw [halike.eq_of_file]
  | link target => rw [halike.eq_of_link]
  | directory mode entries ih =>
    obtain ⟨entries', rfl⟩ := halike.exists_directory
    have hentries (above : Path) (logical : LogicalPath) (reachable : Bool) :
        collect .byName (nodes .byName above logical reachable entries') =
          collect .byName (nodes .byName above logical reachable entries) :=
      collect_byName_eq halike hvalid hvalid' fun p hp _ hinside hvalid'' =>
        ih p hp hinside (hvalid.inside hp) hvalid''
    rw [node, node]
    simp only [hentries]

/-! ### In any order -/

theorem exists_collect_reordered (order' : EntryOrder)
    (halike : Entry.Alike (.directory mode entries) (.directory mode entries'))
    (hvalid : (Entry.directory mode entries).Valid) (hvalid' : (Entry.directory mode entries').Valid)
    (hnode : ∀ p ∈ entries, ∀ e' n, p.2.Alike e' → e'.Valid →
      node order above logical reachable p.1 p.2 = .ok n →
      ∃ n', node order' above logical reachable p.1 e' = .ok n' ∧ Node.Reordered [n] [n'])
    {ns : List Node} (h : collect order (nodes order above logical reachable entries) = .ok ns) :
    ∃ ns', collect order' (nodes order' above logical reachable entries') = .ok ns' ∧
      Node.Reordered ns ns' := by
  rw [collect_nodes_eq_ok_iff] at h
  -- the entries of the other directory, in the order in which those of this one are loaded
  have hbyName := halike.forall₂_arrange hvalid hvalid'
  obtain ⟨paired, hpaired, hperm⟩ := List.perm_comp_forall₂
    ((order.arrange_perm entries).trans (EntryOrder.byName.arrange_perm entries).symm) hbyName
  obtain ⟨ms, hms, hreordered⟩ := exists_forall₂ hpaired h fun p p' n hp hn => by
    obtain ⟨hmem, hname, hinside, hvalid''⟩ := hp
    obtain ⟨n', hn', hreordered⟩ := hnode p hmem p'.2 n hinside hvalid'' hn
    exact ⟨n', (show node order' above logical reachable p'.1 p'.2 = .ok n' by rwa [← hname]), hreordered⟩
  -- and the same in the order in which they are loaded there
  obtain ⟨ns', hns', hperm'⟩ := List.perm_comp_forall₂
    ((order'.arrange_perm entries').trans
      ((EntryOrder.byName.arrange_perm entries').symm.trans hperm.symm)) hms
  exact ⟨ns', collect_nodes_eq_ok_iff.mpr hns', (Forest.Reordered.of_forall₂ hreordered).trans
    (.of_perm hperm'.symm)⟩

/-- Whether an entry is loaded does not depend on the order of enumeration, nor do the nodes but for the order
of siblings. -/
theorem exists_node_reordered (order' : EntryOrder) (halike : e.Alike e') (hvalid : e.Valid)
    (hvalid' : e'.Valid) {n : Node}
    (h : node order above logical reachable name e = .ok n) :
    ∃ n', node order' above logical reachable name e' = .ok n' ∧ Node.Reordered [n] [n'] := by
  induction e using Entry.induction generalizing e' above logical reachable name n with
  | file mode contents =>
    rw [node_eq_of_file rfl] at h
    exact ⟨n, by rwa [halike.eq_of_file, node_eq_of_file rfl], .refl _⟩
  | link target =>
    rw [node_eq_of_file rfl] at h
    exact ⟨n, by rwa [halike.eq_of_link, node_eq_of_file rfl], .refl _⟩
  | directory mode entries ih =>
    obtain ⟨entries', rfl⟩ := halike.exists_directory
    obtain ⟨text, children, htext, hobstacle, hchildren, rfl⟩ := node_directory_eq_ok_iff.mp h
    obtain ⟨children', hchildren', hreordered⟩ := exists_collect_reordered order' halike hvalid
      hvalid' (fun p hp _ _ hinside hvalid'' hn => ih p hp hinside (hvalid.inside hp) hvalid'' hn) hchildren
    exact ⟨⟨text, above.child name, logical.join text, .folder, children'⟩,
      node_directory_eq_ok_iff.mpr ⟨text, children', htext, hobstacle, hchildren', rfl⟩,
      .inside [] rfl hreordered⟩

end Loading

section Load

variable {fs fs' : FileSystem} {order : EntryOrder} {marker : Text} {root : Path}

theorem load_byName_eq (hfs : fs.Valid) (hfs' : fs'.Valid) (h : fs.Reordered fs') (marker : Text)
    (root : Path) : load fs' .byName marker root = load fs .byName marker root := by
  rw [load, load]
  rcases h.lookup_cases .target root with ⟨fault, hfault, hfault'⟩ | ⟨e, e', he, he', halike⟩
  · rw [hfault, hfault']
  · have hvalid := hfs.lookup he
    have hvalid' := hfs'.lookup he'
    rw [he, he']
    cases e with
    | file mode contents => rw [halike.eq_of_file]
    | link target => rw [halike.eq_of_link]
    | directory mode entries =>
      obtain ⟨entries', rfl⟩ := halike.exists_directory
      simp only [Loading.collect_byName_eq halike hvalid hvalid' fun p hp _ hinside hvalid'' =>
        Loading.node_byName_eq hinside (hvalid.inside hp) hvalid'']

theorem exists_load_reordered (order' : EntryOrder) (hfs : fs.Valid) (hfs' : fs'.Valid)
    (h : fs.Reordered fs') {ns : List Node} (hload : load fs order marker root = .ok ns) :
    ∃ ns', load fs' order' marker root = .ok ns' ∧ Node.Reordered ns ns' := by
  obtain ⟨mode, entries, hlookup, hread, hcollect⟩ := load_eq_ok_iff.mp hload
  rcases h.lookup_cases .target root with ⟨fault, hfault, -⟩ | ⟨e, e', he, he', halike⟩
  · rw [hlookup] at hfault
    cases hfault
  · obtain rfl : e = .directory mode entries := Except.ok.inj (he.symm.trans hlookup)
    obtain ⟨entries', rfl⟩ := halike.exists_directory
    have hvalid := hfs.lookup he
    obtain ⟨ns', hns', hreordered⟩ := Loading.exists_collect_reordered order' halike hvalid
      (hfs'.lookup he') (fun p hp _ _ hinside hvalid'' hn =>
        Loading.exists_node_reordered order' hinside (hvalid.inside hp) hvalid'' hn) hcollect
    refine ⟨ns', ?_, hreordered⟩
    rw [load, he']
    simp only [hread, if_pos, hns']

end Load

/-! ## Compiling -/

/-- What can be loaded is compiled, and whether it can be does not depend on the order of enumeration. -/
theorem exists_compile_reordered {fs fs' : FileSystem} (order' : EntryOrder) (hfs : fs.Valid)
    (hfs' : fs'.Valid) (h : fs.Reordered fs') {conventions : Conventions} {style : PathStyle}
    {order : EntryOrder} {root : Path} {c : Compilation} (hcompile : compile ⟨conventions, order, style⟩ fs root = .ok c) :
    ∃ c', compile ⟨conventions, order', style⟩ fs' root = .ok c' ∧ Route.Reordered c.routes c'.routes := by
  obtain ⟨ns, hload, rfl⟩ := exists_load_of_compile hcompile
  obtain ⟨ns', hload', hreordered⟩ := exists_load_reordered order' hfs hfs' h hload
  refine ⟨⟨ns', derive conventions style ns',
    Route.fragment conventions (derive conventions style ns').routes⟩, ?_, ?_⟩
  · rw [compile, hload']
  · exact Node.reordered_derivationOf conventions style hreordered 0

/-- **The order of enumeration.**  Let two file systems differ at most in the order in which the system
enumerates directories.  With siblings ordered by name both are compiled with one result, be it a table or a
problem.  With siblings as they are enumerated, the one is compiled exactly if the other one is, and the tables
are reorderings of each other and of the one that is ordered by name. -/
theorem compile_reordered {fs fs' : FileSystem} (hfs : fs.Valid) (hfs' : fs'.Valid) (h : fs.Reordered fs')
    (conventions : Conventions) (style : PathStyle) (root : Path) :
    compile ⟨conventions, .byName, style⟩ fs root = compile ⟨conventions, .byName, style⟩ fs' root ∧
    ((∃ c, compile ⟨conventions, .asEnumerated, style⟩ fs root = .ok c) ↔
      ∃ c', compile ⟨conventions, .asEnumerated, style⟩ fs' root = .ok c') ∧
    ∀ c c', compile ⟨conventions, .asEnumerated, style⟩ fs root = .ok c →
      compile ⟨conventions, .asEnumerated, style⟩ fs' root = .ok c' →
      Route.Reordered c.routes c'.routes ∧
      ∃ b, compile ⟨conventions, .byName, style⟩ fs root = .ok b ∧
        Route.Reordered b.routes c.routes ∧ Route.Reordered b.routes c'.routes := by
  refine ⟨?_, ⟨fun ⟨c, hc⟩ => ?_, fun ⟨c', hc'⟩ => ?_⟩, fun c c' hc hc' => ?_⟩
  · rw [compile, compile, load_byName_eq hfs hfs' h]
  · obtain ⟨c', hc', -⟩ := exists_compile_reordered .asEnumerated hfs hfs' h hc
    exact ⟨c', hc'⟩
  · obtain ⟨c, hc, -⟩ := exists_compile_reordered .asEnumerated hfs' hfs h.symm hc'
    exact ⟨c, hc⟩
  · obtain ⟨d, hd, hreordered⟩ := exists_compile_reordered .asEnumerated hfs hfs' h hc
    obtain rfl : d = c' := Except.ok.inj (hd.symm.trans hc')
    obtain ⟨b, hb, hbyName⟩ := exists_compile_reordered .byName hfs hfs (.refl fs) hc
    exact ⟨hreordered, b, hb, hbyName.symm, hbyName.symm.trans hreordered⟩

/-- The sample project with each directory enumerated backwards. -/
def backwardTree : FileSystem where
  root := .directory .full [(Utf8.encode "app", .directory .full [
    (Utf8.encode "blog", .directory .full [
      (Utf8.encode "page.mdx", .link (Path.ofText "/app")),
      (Utf8.encode "page.d", .directory .full [])]),
    (Utf8.encode "(shop)", .directory .full [
      (Utf8.encode "cart", .directory .full [(Utf8.encode "page.tsx", .file .plain [])])])])]
  current := .ofLocation []

theorem reordered_backwardTree : sampleTree.Reordered backwardTree where
  tree := by
    refine Entry.alike_of_forall₂ (.cons ⟨rfl, ?_⟩ .nil)
    refine Entry.Alike.trans (Entry.alike_of_perm (.swap _ _ _) (by decide)) ?_
    refine Entry.alike_of_forall₂ (.cons ⟨rfl, ?_⟩ (.cons ⟨rfl, .refl _⟩ .nil))
    exact Entry.alike_of_perm (.swap _ _ _) (by decide)
  current_eq := rfl

/-- The sample is compiled like itself, enumerated backwards. -/
theorem compile_reordered_backwardTree :
    (sampleTree.Valid ∧ backwardTree.Valid ∧ sampleTree.Reordered backwardTree) ∧
    compile ⟨.standard, .byName, .relative⟩ sampleTree (Path.ofText "/app") =
      compile ⟨.standard, .byName, .relative⟩ backwardTree (Path.ofText "/app") ∧
    ((∃ c, compile ⟨.standard, .asEnumerated, .relative⟩ sampleTree (Path.ofText "/app") = .ok c) ↔
      ∃ c', compile ⟨.standard, .asEnumerated, .relative⟩ backwardTree (Path.ofText "/app") = .ok c') ∧
    ∀ c c', compile ⟨.standard, .asEnumerated, .relative⟩ sampleTree (Path.ofText "/app") = .ok c →
      compile ⟨.standard, .asEnumerated, .relative⟩ backwardTree (Path.ofText "/app") = .ok c' →
      Route.Reordered c.routes c'.routes ∧
      ∃ b, compile ⟨.standard, .byName, .relative⟩ sampleTree (Path.ofText "/app") = .ok b ∧
        Route.Reordered b.routes c.routes ∧ Route.Reordered b.routes c'.routes := by
  have hvalid : backwardTree.Valid := ⟨by decide, _, _, rfl⟩
  exact ⟨⟨valid_sampleTree, hvalid, reordered_backwardTree⟩,
    compile_reordered valid_sampleTree hvalid reordered_backwardTree .standard .relative (Path.ofText "/app")⟩

end FileRoutes
