import FileRoutes.Route.Compilation
import FileRoutes.Proofs.FileSystem.Tree
import FileRoutes.Proofs.Text.Utf8
import Mathlib.Data.List.Forall2

/-!
# What is loaded

Loading succeeds for a directory exactly if it succeeds for each entry of it, and then the nodes are
those of the entries, in the order that was asked for (`collect_nodes_eq_ok_iff`).  An entry that is
loaded has a text for its name; it becomes a folder if it is a directory, and a file otherwise
(`node_of_directory`, `node_of_file`).

## Order by name

In a directory without repeated names the order by name is strict: of two entries the earlier one has
the smaller name (`pairwise_arrange_byName`).
-/

namespace FileRoutes

/-! ## The order of names -/

namespace Bytes

/-- One byte sequence comes before another in the order of bytes. -/
def Before (a b : Bytes) : Prop := Bytes.le a b = true ∧ a ≠ b

theorem le_total : ∀ a b : Bytes, (Bytes.le a b || Bytes.le b a) = true
  | [], _ => rfl
  | _ :: _, [] => rfl
  | a :: as, b :: bs => by
    rw [Bytes.le, Bytes.le]
    by_cases h : a = b
    · rw [if_pos h, if_pos h.symm]
      exact le_total as bs
    · rw [if_neg h, if_neg (Ne.symm h)]
      rcases UInt8.lt_or_lt_of_ne h with hlt | hlt <;> simp [hlt]

theorem le_trans : ∀ a b c : Bytes, Bytes.le a b = true → Bytes.le b c = true → Bytes.le a c = true
  | [], _, _, _, _ => rfl
  | _ :: _, [], _, h, _ => by cases h
  | _ :: _, _ :: _, [], _, h => by cases h
  | a :: as, b :: bs, c :: cs, hab, hbc => by
    rw [Bytes.le] at hab hbc ⊢
    by_cases h : a = b
    · subst h
      rw [if_pos rfl] at hab
      by_cases h' : a = c
      · rw [if_pos h'] at hbc ⊢
        exact le_trans as bs cs hab hbc
      · rw [if_neg h'] at hbc ⊢
        exact hbc
    · rw [if_neg h] at hab
      have hlt : a < b := of_decide_eq_true hab
      by_cases h' : b = c
      · subst h'
        rw [if_neg h]
        exact hab
      · rw [if_neg h'] at hbc
        have hlt' : a < c := UInt8.lt_trans hlt (of_decide_eq_true hbc)
        rw [if_neg (UInt8.ne_of_lt hlt')]
        exact decide_eq_true hlt'

theorem le_antisymm : ∀ a b : Bytes, Bytes.le a b = true → Bytes.le b a = true → a = b
  | [], [], _, _ => rfl
  | [], _ :: _, _, h => by cases h
  | _ :: _, [], h, _ => by cases h
  | a :: as, b :: bs, hab, hba => by
    rw [Bytes.le] at hab hba
    by_cases h : a = b
    · subst h
      rw [if_pos rfl] at hab hba
      rw [le_antisymm as bs hab hba]
    · rw [if_neg h] at hab
      rw [if_neg (Ne.symm h)] at hba
      exact absurd (of_decide_eq_true hba) (UInt8.lt_asymm (of_decide_eq_true hab))

end Bytes

namespace EntryOrder

variable {α β : Type}

theorem arrange_perm (order : EntryOrder) (entries : List (Name × α)) :
    (order.arrange entries).Perm entries := by
  cases order with
  | byName => exact List.mergeSort_perm _ _
  | asEnumerated => exact List.Perm.refl _

/-- The order looks at names only. -/
theorem arrange_map (order : EntryOrder) (f : Name → α → β) (entries : List (Name × α)) :
    order.arrange (entries.map fun p => (p.1, f p.1 p.2)) =
      (order.arrange entries).map fun p => (p.1, f p.1 p.2) := by
  cases order with
  | byName =>
    rw [arrange, arrange]
    exact (List.map_mergeSort (f := fun p : Name × α => (p.1, f p.1 p.2)) fun _ _ _ _ => rfl).symm
  | asEnumerated => rfl

/-- The order by name is strict if no name is repeated. -/
theorem pairwise_arrange_byName {entries : List (Name × α)} (h : (entries.map (·.1)).Nodup) :
    (EntryOrder.byName.arrange entries).Pairwise fun p q => Bytes.Before p.1 q.1 := by
  have hsorted : (EntryOrder.byName.arrange entries).Pairwise fun p q => Bytes.le p.1 q.1 = true :=
    List.pairwise_mergeSort (fun p q r => Bytes.le_trans p.1 q.1 r.1)
      (fun p q => Bytes.le_total p.1 q.1) entries
  have hdistinct : ((EntryOrder.byName.arrange entries).map (·.1)).Nodup :=
    ((arrange_perm .byName entries).map (·.1)).nodup_iff.mpr h
  exact hsorted.and (List.pairwise_map.mp hdistinct)

/-- If the names are the same, so is their order. -/
theorem map_arrange_byName {entries : List (Name × α)} {entries' : List (Name × β)}
    (h : (entries.map (·.1)).Nodup) (h' : (entries'.map (·.1)).Nodup)
    (hnames : ∀ name, name ∈ entries.map (·.1) ↔ name ∈ entries'.map (·.1)) :
    (EntryOrder.byName.arrange entries).map (·.1) = (EntryOrder.byName.arrange entries').map (·.1) := by
  have hperm := (List.perm_ext_iff_of_nodup h h').mpr hnames
  have hantisymm : ∀ a b, Bytes.Before a b → Bytes.Before b a → a = b :=
    fun a b hab hba => Bytes.le_antisymm a b hab.1 hba.1
  refine List.Perm.eq_of_pairwise (fun a b _ _ => hantisymm a b)
    (List.pairwise_map.mpr (pairwise_arrange_byName h))
    (List.pairwise_map.mpr (pairwise_arrange_byName h')) ?_
  exact ((arrange_perm .byName entries).map _).trans
    (hperm.trans ((arrange_perm .byName entries').map _).symm)

end EntryOrder

namespace Loading

variable {order : EntryOrder} {above : Path} {logical : LogicalPath} {reachable : Bool}

/-- If `S` relates each of `xs` to one of `zs`, then what `R` relates to `xs` has such partners too. -/
theorem exists_forall₂ {α α' β β' : Type} {R : α → α' → Prop} {S : α → β → Prop} {S' : α' → β' → Prop}
    {T : β → β' → Prop} {xs : List α} {xs' : List α'} {zs : List β} (hR : List.Forall₂ R xs xs')
    (hS : List.Forall₂ S xs zs) (h : ∀ x x' z, R x x' → S x z → ∃ z', S' x' z' ∧ T z z') :
    ∃ zs', List.Forall₂ S' xs' zs' ∧ List.Forall₂ T zs zs' := by
  induction hR generalizing zs with
  | nil =>
    cases hS
    exact ⟨[], .nil, .nil⟩
  | cons hx _ ih =>
    cases hS with
    | cons hz hzs =>
      obtain ⟨z', hz', htz⟩ := h _ _ _ hx hz
      obtain ⟨zs', hzs', htzs⟩ := ih hzs
      exact ⟨z' :: zs', .cons hz' hzs', .cons htz htzs⟩

theorem nodes_eq_map (order : EntryOrder) (above : Path) (logical : LogicalPath) (reachable : Bool)
    (entries : List (Name × Entry)) :
    nodes order above logical reachable entries =
      entries.map fun p => (p.1, node order above logical reachable p.1 p.2) := by
  induction entries with
  | nil => rw [nodes, List.map_nil]
  | cons p entries ih => rw [nodes, ih, List.map_cons]

/-- The entries of a directory are loaded one by one, in the order that was asked for. -/
theorem collect_nodes_eq_mapM (order : EntryOrder) (above : Path) (logical : LogicalPath) (reachable : Bool)
    (entries : List (Name × Entry)) :
    collect order (nodes order above logical reachable entries) =
      (order.arrange entries).mapM fun p => node order above logical reachable p.1 p.2 := by
  rw [collect, nodes_eq_map,
    EntryOrder.arrange_map order (fun name e => node order above logical reachable name e), List.mapM_map]
  rfl

theorem mapM_eq_ok_iff {α β ε : Type} (f : α → Except ε β) {xs : List α} {ys : List β} :
    xs.mapM f = .ok ys ↔ List.Forall₂ (fun x y => f x = .ok y) xs ys := by
  induction xs generalizing ys with
  | nil =>
    rw [List.mapM_nil, List.forall₂_nil_left_iff]
    exact ⟨fun h => (Except.ok.inj h).symm, fun h => h ▸ rfl⟩
  | cons x xs ih =>
    rw [List.mapM_cons, List.forall₂_cons_left_iff]
    constructor
    · intro h
      cases hx : f x with
      | error e => simp [hx, bind, Except.bind] at h
      | ok y =>
        cases hxs : xs.mapM f with
        | error e => simp [hx, hxs, bind, Except.bind] at h
        | ok zs =>
          refine ⟨y, zs, rfl, ih.mp hxs, ?_⟩
          simpa [hx, hxs, bind, Except.bind, pure, Except.pure] using h.symm
    · rintro ⟨y, zs, hy, hzs, rfl⟩
      rw [hy, ih.mpr hzs]
      rfl

theorem mapM_eq_of_forall₂ {α α' β ε : Type} {f : α → Except ε β} {f' : α' → Except ε β} {xs : List α}
    {xs' : List α'} (h : List.Forall₂ (fun x x' => f x = f' x') xs xs') : xs.mapM f = xs'.mapM f' := by
  induction h with
  | nil => rw [List.mapM_nil, List.mapM_nil]
  | cons hx _ ih => rw [List.mapM_cons, List.mapM_cons, hx, ih]

/-- A directory is loaded exactly if each of its entries is, and the nodes come in the order that was
asked for. -/
theorem collect_nodes_eq_ok_iff {entries : List (Name × Entry)} {ns : List Node} :
    collect order (nodes order above logical reachable entries) = .ok ns ↔
      List.Forall₂ (fun p n => node order above logical reachable p.1 p.2 = .ok n)
        (order.arrange entries) ns := by
  rw [collect_nodes_eq_mapM, mapM_eq_ok_iff]

/-- Each node of a directory is that of one of its entries. -/
theorem exists_of_mem_collect {entries : List (Name × Entry)} {ns : List Node} {n : Node}
    (h : collect order (nodes order above logical reachable entries) = .ok ns) (hn : n ∈ ns) :
    ∃ p ∈ entries, node order above logical reachable p.1 p.2 = .ok n := by
  have hmem : ∀ p ∈ order.arrange entries, p ∈ entries := fun p hp =>
    (EntryOrder.arrange_perm order entries).mem_iff.mp hp
  rw [collect_nodes_eq_ok_iff] at h
  generalize order.arrange entries = ps at h hmem
  induction h with
  | nil => cases hn
  | @cons p m ps ns hpm _ ih =>
    rcases List.mem_cons.mp hn with rfl | hn
    · exact ⟨p, hmem p List.mem_cons_self, hpm⟩
    · exact ih hn fun q hq => hmem q (List.mem_cons_of_mem p hq)

/-- Each entry of a directory that is loaded has its node. -/
theorem exists_mem_of_collect {entries : List (Name × Entry)} {ns : List Node} {p : Name × Entry}
    (h : collect order (nodes order above logical reachable entries) = .ok ns) (hp : p ∈ entries) :
    ∃ n ∈ ns, node order above logical reachable p.1 p.2 = .ok n := by
  have hmem : p ∈ order.arrange entries := (EntryOrder.arrange_perm order entries).mem_iff.mpr hp
  rw [collect_nodes_eq_ok_iff] at h
  generalize order.arrange entries = ps at h hmem
  induction h with
  | nil => cases hmem
  | @cons q m ps ns hqm _ ih =>
    rcases List.mem_cons.mp hmem with rfl | hmem
    · exact ⟨m, List.mem_cons_self, hqm⟩
    · obtain ⟨n, hn, hpn⟩ := ih hmem
      exact ⟨n, List.mem_cons_of_mem m hn, hpn⟩

/-- A directory becomes a folder with the nodes of its entries, provided that its name is text and it can be
listed. -/
theorem node_directory_eq_ok_iff {name : Name} {mode : Mode} {entries : List (Name × Entry)} {n : Node} :
    node order above logical reachable name (.directory mode entries) = .ok n ↔
      ∃ text children, Utf8.decode? name = some text ∧ obstacle? (above.child name) reachable mode = none ∧
        collect order (nodes order (above.child name) (logical.join text) mode.search entries) =
          .ok children ∧
        n = ⟨text, above.child name, logical.join text, .folder, children⟩ := by
  rw [node]
  cases htext : Utf8.decode? name with
  | none => simp
  | some text =>
    cases hobstacle : obstacle? (above.child name) reachable mode with
    | some fault => simp
    | none =>
      cases hchildren : collect order
          (nodes order (above.child name) (logical.join text) mode.search entries) with
      | error problem => simp [hchildren]
      | ok children => simp [hchildren, eq_comm]

/-- A directory that is loaded becomes a folder with the nodes of its entries. -/
theorem node_of_directory {name : Name} {mode : Mode} {entries : List (Name × Entry)} {n : Node}
    (h : node order above logical reachable name (.directory mode entries) = .ok n) :
    ∃ text children, Utf8.decode? name = some text ∧
      collect order (nodes order (above.child name) (logical.join text) mode.search entries) =
        .ok children ∧
      n = ⟨text, above.child name, logical.join text, .folder, children⟩ := by
  obtain ⟨text, children, htext, -, hchildren, hn⟩ := node_directory_eq_ok_iff.mp h
  exact ⟨text, children, htext, hchildren, hn⟩

/-- Anything else becomes a file, provided that its name is text. -/
theorem node_eq_of_file {name : Name} {e : Entry} (he : e.isDirectory = false) :
    node order above logical reachable name e =
      match Utf8.decode? name with
      | none => .error (.unreadable (above.child name) .nameNotText)
      | some text => .ok ⟨text, above.child name, logical.join text, .file, []⟩ := by
  cases e with
  | file mode contents => cases htext : Utf8.decode? name <;> simp [node, htext]
  | link target => cases htext : Utf8.decode? name <;> simp [node, htext]
  | directory mode entries => cases he

/-- Anything else that is loaded becomes a file. -/
theorem node_of_file {name : Name} {e : Entry} {n : Node} (he : e.isDirectory = false)
    (h : node order above logical reachable name e = .ok n) :
    ∃ text, Utf8.decode? name = some text ∧
      n = ⟨text, above.child name, logical.join text, .file, []⟩ := by
  rw [node_eq_of_file he] at h
  split at h
  · cases h
  · exact ⟨_, ‹_›, (Except.ok.inj h).symm⟩

end Loading

/-- A root is loaded if it is a directory that can be listed and whose entries can be loaded. -/
theorem load_eq_ok_iff {fs : FileSystem} {order : EntryOrder} {marker : Text} {root : Path}
    {ns : List Node} :
    load fs order marker root = .ok ns ↔
      ∃ mode entries, fs.lookup .target root = .ok (.directory mode entries) ∧ mode.read = true ∧
        Loading.collect order (Loading.nodes order root (.root marker) mode.search entries) = .ok ns := by
  unfold load
  split
  · rename_i mode entries hlookup
    rw [hlookup]
    cases hread : mode.read <;> simp [hread]
  · rename_i hlookup
    simp only [reduceCtorEq, false_iff]
    rintro ⟨mode, entries, hdirectory, -⟩
    exact hlookup mode entries hdirectory

/-- A root that is loaded is a directory, and its nodes are those of its entries. -/
theorem exists_of_load {fs : FileSystem} {order : EntryOrder} {marker : Text} {root : Path}
    {ns : List Node} (h : load fs order marker root = .ok ns) :
    ∃ mode entries, fs.lookup .target root = .ok (.directory mode entries) ∧
      Loading.collect order (Loading.nodes order root (.root marker) mode.search entries) =
        .ok ns := by
  obtain ⟨mode, entries, hlookup, -, hcollect⟩ := load_eq_ok_iff.mp h
  exact ⟨mode, entries, hlookup, hcollect⟩

/-! ## Directories that are enumerated by name -/

/-- The system enumerates each directory of the tree in the order of the names. -/
def Entry.Arranged (e : Entry) : Prop :=
  ∀ p ∈ e.everything, p.2.entries.Pairwise fun x y => Bytes.le x.1 y.1 = true

instance (e : Entry) : Decidable e.Arranged :=
  inferInstanceAs (Decidable (∀ p ∈ e.everything, p.2.entries.Pairwise fun x y => Bytes.le x.1 y.1 = true))

namespace Entry.Arranged

variable {mode : Mode} {entries : List (Name × Entry)}

theorem arrange_eq (h : (Entry.directory mode entries).Arranged) (order : EntryOrder) :
    order.arrange entries = entries := by
  cases order with
  | byName => exact List.mergeSort_of_pairwise (h ([], .directory mode entries) List.mem_cons_self)
  | asEnumerated => rfl

theorem inside (h : (Entry.directory mode entries).Arranged) {p : Name × Entry} (hp : p ∈ entries) :
    p.2.Arranged := fun x hx => h (p.1 :: x.1, x.2) (List.mem_cons_of_mem _ (mem_everythingIn hp hx))

end Entry.Arranged

/-- Such a tree is loaded in the same way in both orders. -/
theorem Loading.node_order_eq {e : Entry} (h : e.Arranged) (order order' : EntryOrder) (above : Path)
    (logical : LogicalPath) (reachable : Bool) (name : Name) :
    node order above logical reachable name e = node order' above logical reachable name e := by
  induction e using Entry.induction generalizing above logical reachable name with
  | file mode contents => rw [node_eq_of_file rfl, node_eq_of_file rfl]
  | link target => rw [node_eq_of_file rfl, node_eq_of_file rfl]
  | directory mode entries ih =>
    have hentries (above : Path) (logical : LogicalPath) (reachable : Bool) :
        collect order (nodes order above logical reachable entries) =
          collect order' (nodes order' above logical reachable entries) := by
      rw [collect_nodes_eq_mapM, collect_nodes_eq_mapM, h.arrange_eq, h.arrange_eq]
      exact mapM_eq_of_forall₂ (List.forall₂_same.mpr fun p hp => ih p hp (h.inside hp) _ _ _ _)
    rw [node, node]
    simp only [hentries]

theorem compile_order_eq {fs : FileSystem} {root : Path} (h : ∀ e, fs.lookup .target root = .ok e → e.Arranged)
    (conventions : Conventions) (style : PathStyle) (order order' : EntryOrder) :
    compile ⟨conventions, order, style⟩ fs root = compile ⟨conventions, order', style⟩ fs root := by
  have hload : load fs order conventions.logicalRoot root = load fs order' conventions.logicalRoot root := by
    rw [load, load]
    cases hlookup : fs.lookup .target root with
    | error fault => rfl
    | ok e =>
      cases e with
      | file mode contents => rfl
      | link target => rfl
      | directory mode entries =>
        have harranged := h _ hlookup
        simp only [Loading.collect_nodes_eq_mapM, harranged.arrange_eq]
        rw [Loading.mapM_eq_of_forall₂ (List.forall₂_same.mpr fun p hp =>
          Loading.node_order_eq (harranged.inside hp) order order' _ _ _ _)]
  rw [compile, compile, hload]

/-! ## What has been compiled -/

/-- What has been compiled has been loaded, and the rest follows from the nodes. -/
theorem exists_load_of_compile {settings : Settings} {fs : FileSystem} {root : Path} {c : Compilation}
    (h : compile settings fs root = .ok c) :
    ∃ ns, load fs settings.order settings.conventions.logicalRoot root = .ok ns ∧
      c = ⟨ns, derive settings.conventions settings.style ns,
        Route.fragment settings.conventions (derive settings.conventions settings.style ns).routes⟩ := by
  rw [compile] at h
  split at h
  · cases h
  · rename_i ns hload
    exact ⟨ns, hload, (Except.ok.inj h).symm⟩

/-- The literal that is compiled is that of the table. -/
theorem fragment_of_compile {settings : Settings} {fs : FileSystem} {root : Path} {c : Compilation}
    (h : compile settings fs root = .ok c) : c.fragment = Route.fragment settings.conventions c.routes := by
  obtain ⟨ns, -, rfl⟩ := exists_load_of_compile h
  rfl

/-- What has been compiled is a directory. -/
theorem exists_lookup_of_compile {settings : Settings} {fs : FileSystem} {root : Path}
    {c : Compilation} (h : compile settings fs root = .ok c) :
    ∃ mode entries, fs.lookup .target root = .ok (.directory mode entries) := by
  obtain ⟨ns, hload, -⟩ := exists_load_of_compile h
  obtain ⟨mode, entries, hlookup, -⟩ := exists_of_load hload
  exact ⟨mode, entries, hlookup⟩

end FileRoutes
