import FileRoutes.Proofs.FileSystem.Listing
import FileRoutes.Proofs.Route.Exactness

/-!
# What makes loading fail

An entry below the root is an offence if its name is no text, or if it is a directory that the system does not
list.  It counts only if the loader comes to it, that is, if every directory on the way to it is listed
(`Loading.Offence`).

A directory is loaded exactly if there is no offence in it.  If there is one, then loading ends with the path
and the fault of an offence; by name, with the first one in the order in which a directory comes before what
is in it and siblings come by name (`Loading.accounts_collect`).  The order matters only for which of several
offences is told.

## What the system is asked

Whether a directory is listed is for the system to say, when it is asked by the directory's path.  That its
answer is what the loader takes it for is the content of `Loading.list_child`.
-/

namespace FileRoutes.Loading

variable {fs : FileSystem} {order : EntryOrder} {dir : Path} {mode m : Mode} {entries es : List (Name × Entry)}
  {name : Name} {e : Entry} {loc : Location} {fault : Fault}

/-! ## Offences -/

/-- What is wrong with an entry by itself: its name is no text, or it is a directory that the system does not
list. -/
def fault? (fs : FileSystem) (path : Path) (name : Name) (e : Entry) : Option Fault :=
  if Utf8.decode? name = none then some .nameNotText
  else if e.isDirectory then
    match fs.list path with
    | .ok _ => none
    | .error fault => some fault
  else none

/-- Among the entries of the directory at a path, or below them, there is one at the location with which
something is wrong, and the directories on the way to it are listed. -/
inductive Offence (fs : FileSystem) : Path → List (Name × Entry) → Location → Fault → Prop
  | here {dir : Path} {entries : List (Name × Entry)} {name : Name} {e : Entry} {fault : Fault}
      (mem : (name, e) ∈ entries) (wrong : fault? fs (dir.child name) name e = some fault) :
      Offence fs dir entries [name] fault
  | inside {dir : Path} {entries : List (Name × Entry)} {name : Name} {mode : Mode}
      {es : List (Name × Entry)} {listed : List (Name × Entry.Kind)} {loc : Location} {fault : Fault}
      (mem : (name, .directory mode es) ∈ entries) (isListed : fs.list (dir.child name) = .ok listed)
      (next : Offence fs (dir.child name) es loc fault) : Offence fs dir entries (name :: loc) fault

/-- No other offence comes before this one. -/
structure FirstOffence (fs : FileSystem) (order : EntryOrder) (dir : Path) (entries : List (Name × Entry))
    (loc : Location) (fault : Fault) : Prop where
  offence : Offence fs dir entries loc fault
  first : order = .byName → ∀ loc' fault', Offence fs dir entries loc' fault' →
    loc' = loc ∧ fault' = fault ∨ loc.Before loc'

/-- A success says that there is no offence, a problem that there is one, which it tells. -/
def Accounts {α : Type} (fs : FileSystem) (order : EntryOrder) (dir : Path)
    (entries : List (Name × Entry)) : Except Problem α → Prop
  | .ok _ => ∀ loc fault, ¬ Offence fs dir entries loc fault
  | .error problem => ∃ loc fault, problem = .unreadable (loc.foldl Path.child dir) fault ∧
      FirstOffence fs order dir entries loc fault

namespace Offence

theorem exists_head (h : Offence fs dir entries loc fault) : ∃ p ∈ entries, ∃ rest, loc = p.1 :: rest := by
  cases h with
  | here mem _ => exact ⟨_, mem, [], rfl⟩
  | inside mem _ _ => exact ⟨_, mem, _, rfl⟩

theorem ne_nil (h : Offence fs dir entries loc fault) : loc ≠ [] := by
  obtain ⟨p, -, rest, rfl⟩ := h.exists_head
  exact List.cons_ne_nil _ _

theorem mono (h : Offence fs dir entries loc fault) (hsub : ∀ p ∈ entries, p ∈ es) :
    Offence fs dir es loc fault := by
  cases h with
  | here mem wrong => exact .here (hsub _ mem) wrong
  | inside mem isListed next => exact .inside (hsub _ mem) isListed next

/-- What is an offence is in the tree. -/
theorem exists_find? (h : Offence fs dir entries loc fault) (hvalid : (Entry.directory mode entries).Valid) :
    ∃ e, (Entry.directory mode entries).find? loc = some e := by
  induction h generalizing mode with
  | here mem _ => exact ⟨_, Entry.find?_of_mem hvalid.distinct mem⟩
  | inside mem _ _ ih =>
    obtain ⟨e, he⟩ := ih (hvalid.inside mem)
    exact ⟨e, (Entry.find?_append_of_eq_some (Entry.find?_of_mem hvalid.distinct mem) _).trans he⟩

theorem ordinary (h : Offence fs dir entries loc fault) (hvalid : (Entry.directory mode entries).Valid) :
    ∀ name ∈ loc, name.Ordinary := by
  obtain ⟨e, he⟩ := h.exists_find? hvalid
  exact hvalid.ordinary_of_find? he

end Offence

theorem not_offence_nil : ¬ Offence fs dir [] loc fault := fun h => by
  obtain ⟨p, hp, -⟩ := h.exists_head
  cases hp

theorem offence_cons_iff {p : Name × Entry} {ps : List (Name × Entry)} :
    Offence fs dir (p :: ps) loc fault ↔ Offence fs dir [p] loc fault ∨ Offence fs dir ps loc fault := by
  constructor
  · intro h
    cases h with
    | here mem wrong =>
      rcases List.mem_cons.mp mem with rfl | mem
      · exact Or.inl (.here List.mem_cons_self wrong)
      · exact Or.inr (.here mem wrong)
    | inside mem isListed next =>
      rcases List.mem_cons.mp mem with rfl | mem
      · exact Or.inl (.inside List.mem_cons_self isListed next)
      · exact Or.inr (.inside mem isListed next)
  · rintro (h | h)
    · exact h.mono fun q hq => List.mem_cons.mpr (Or.inl (List.mem_singleton.mp hq))
    · exact h.mono fun q hq => List.mem_cons_of_mem p hq

/-- The offence of a single entry is that entry, or one in it if it is a directory that is listed. -/
theorem offence_singleton_iff :
    Offence fs dir [(name, e)] loc fault ↔
      (loc = [name] ∧ fault? fs (dir.child name) name e = some fault) ∨
        ∃ rest mode es listed, loc = name :: rest ∧ e = .directory mode es ∧
          fs.list (dir.child name) = .ok listed ∧ Offence fs (dir.child name) es rest fault := by
  constructor
  · intro h
    cases h with
    | here mem wrong =>
      obtain ⟨rfl, rfl⟩ := Prod.mk.inj (List.mem_singleton.mp mem)
      exact Or.inl ⟨rfl, wrong⟩
    | @inside _ _ _ mode es listed rest _ mem isListed next =>
      obtain ⟨rfl, rfl⟩ := Prod.mk.inj (List.mem_singleton.mp mem)
      exact Or.inr ⟨rest, mode, es, listed, rfl, rfl, isListed, next⟩
  · rintro (⟨rfl, wrong⟩ | ⟨rest, mode, es, listed, rfl, rfl, isListed, next⟩)
    · exact .here List.mem_cons_self wrong
    · exact .inside List.mem_cons_self isListed next

/-- With an entry that is itself an offence, nothing in it comes before it. -/
theorem firstOffence_here (h : fault? fs (dir.child name) name e = some fault) :
    FirstOffence fs order dir [(name, e)] [name] fault where
  offence := .here List.mem_cons_self h
  first _ loc' fault' h' := by
    rcases offence_singleton_iff.mp h' with ⟨rfl, hwrong⟩ | ⟨rest, mode, es, listed, rfl, -, -, next⟩
    · exact Or.inl ⟨rfl, Option.some.inj (hwrong.symm.trans h)⟩
    · obtain ⟨next, rest, rfl⟩ := List.exists_cons_of_ne_nil next.ne_nil
      exact Or.inr (.cons .nil)

/-- The first offence in a directory that is listed is the first one of that directory as an entry. -/
theorem FirstOffence.inside (h : FirstOffence fs order (dir.child name) es loc fault)
    {listed : List (Name × Entry.Kind)} (hlisted : fs.list (dir.child name) = .ok listed)
    (hright : fault? fs (dir.child name) name (.directory mode es) = none) :
    FirstOffence fs order dir [(name, .directory mode es)] (name :: loc) fault where
  offence := .inside List.mem_cons_self hlisted h.offence
  first horder loc' fault' h' := by
    rcases offence_singleton_iff.mp h' with ⟨-, h'⟩ | ⟨rest, mode, es, listed, rfl, heq, -, next⟩
    · rw [hright] at h'
      cases h'
    · obtain ⟨-, rfl⟩ := Entry.directory.inj heq
      rcases h.first horder rest fault' next with ⟨rfl, rfl⟩ | hbefore
      · exact Or.inl ⟨rfl, rfl⟩
      · exact Or.inr (.cons hbefore)

/-! ## One entry after the other -/

/-- What is said of each entry holds of all of them, if those that come first have the smaller names. -/
theorem accounts_mapM {α : Type} {ps : List (Name × Entry)} {f : Name × Entry → Except Problem α}
    (hsorted : ps.Pairwise fun p q => order = .byName → Bytes.Before p.1 q.1)
    (h : ∀ p ∈ ps, Accounts fs order dir [p] (f p)) : Accounts fs order dir ps (ps.mapM f) := by
  induction ps with
  | nil =>
    rw [List.mapM_nil]
    exact fun _ _ => not_offence_nil
  | cons p ps ih =>
    obtain ⟨hp, hps⟩ := List.forall_mem_cons.mp h
    obtain ⟨hbefore, hsorted⟩ := List.pairwise_cons.mp hsorted
    have hrest := ih hsorted hps
    rw [List.mapM_cons]
    cases hfirst : f p with
    | error problem =>
      -- what comes later has a greater name
      rw [hfirst] at hp
      obtain ⟨loc, fault, rfl, hoffence, hleast⟩ := hp
      refine ⟨loc, fault, rfl, offence_cons_iff.mpr (Or.inl hoffence), fun horder loc' fault' h' => ?_⟩
      rcases offence_cons_iff.mp h' with h' | h'
      · exact hleast horder loc' fault' h'
      · obtain ⟨q, hq, rest, rfl⟩ := hoffence.exists_head
        obtain ⟨q', hq', rest', rfl⟩ := h'.exists_head
        rw [List.mem_singleton.mp hq]
        exact Or.inr (.rel (hbefore q' hq' horder))
    | ok n =>
      rw [hfirst] at hp
      cases hmany : ps.mapM f with
      | error problem =>
        rw [hmany] at hrest
        obtain ⟨loc, fault, rfl, hoffence, hleast⟩ := hrest
        refine ⟨loc, fault, rfl, offence_cons_iff.mpr (Or.inr hoffence), fun horder loc' fault' h' => ?_⟩
        rcases offence_cons_iff.mp h' with h' | h'
        · exact absurd h' (hp loc' fault')
        · exact hleast horder loc' fault' h'
      | ok ns =>
        rw [hmany] at hrest
        intro loc fault h'
        rcases offence_cons_iff.mp h' with h' | h'
        · exact hp loc fault h'
        · exact hrest loc fault h'

theorem Accounts.of_perm {α : Type} {ps : List (Name × Entry)} {result : Except Problem α}
    (h : Accounts fs order dir ps result) (hperm : ps.Perm entries) : Accounts fs order dir entries result := by
  have hiff (loc : Location) (fault : Fault) :
      Offence fs dir entries loc fault ↔ Offence fs dir ps loc fault :=
    ⟨fun h => h.mono fun _ => hperm.mem_iff.mpr, fun h => h.mono fun _ => hperm.mem_iff.mp⟩
  cases result with
  | ok ns => exact fun loc fault h' => h loc fault ((hiff loc fault).mp h')
  | error problem =>
    obtain ⟨loc, fault, hproblem, hoffence, hleast⟩ := h
    exact ⟨loc, fault, hproblem, (hiff loc fault).mpr hoffence,
      fun horder loc' fault' h' => hleast horder loc' fault' ((hiff loc' fault').mp h')⟩

namespace Accounts

variable {α : Type} {result : Except Problem α}

theorem unreadable_iff (h : Accounts fs order dir entries result) :
    (∃ path fault, result = .error (.unreadable path fault)) ↔ ∃ loc fault, Offence fs dir entries loc fault := by
  cases result with
  | ok a =>
    constructor
    · rintro ⟨path, fault, heq⟩
      cases heq
    · rintro ⟨loc, fault, hoffence⟩
      exact absurd hoffence (h loc fault)
  | error problem =>
    obtain ⟨loc, fault, rfl, hfirst⟩ := h
    exact ⟨fun _ => ⟨loc, fault, hfirst.offence⟩, fun _ => ⟨_, fault, rfl⟩⟩

theorem ok_iff (h : Accounts fs order dir entries result) :
    (∃ a, result = .ok a) ↔ ¬ ∃ loc fault, Offence fs dir entries loc fault := by
  rw [← h.unreadable_iff]
  cases result with
  | ok a =>
    refine ⟨?_, fun _ => ⟨a, rfl⟩⟩
    rintro - ⟨path, fault, heq⟩
    cases heq
  | error problem =>
    obtain ⟨loc, fault, rfl, -⟩ := h
    constructor
    · rintro ⟨a, heq⟩
      cases heq
    · intro hnone
      exact absurd ⟨_, fault, rfl⟩ hnone

theorem exists_first {path : Path} {fault : Fault}
    (h : Accounts fs order dir entries (.error (.unreadable path fault) : Except Problem α)) :
    ∃ loc, path = loc.foldl Path.child dir ∧ FirstOffence fs order dir entries loc fault := by
  obtain ⟨loc, fault', heq, hfirst⟩ := h
  obtain ⟨rfl, rfl⟩ := Problem.unreadable.inj heq
  exact ⟨loc, rfl, hfirst⟩

end Accounts

/-! ## What the system says of a directory -/

theorem obstacle?_eq_none_iff {path : Path} {reachable : Bool} :
    obstacle? path reachable mode = none ↔
      path.bytes.length < FileSystem.pathLimit ∧ reachable = true ∧ mode.read = true := by
  rw [obstacle?, ← Nat.not_le]
  by_cases hlong : path.bytes.length ≥ FileSystem.pathLimit
  · simp [hlong]
  · cases reachable <;> cases mode.read <;> simp [hlong]

section Child

variable (hdir : fs.lookup .target dir = .ok (.directory mode entries))
  (hvalid : (Entry.directory mode entries).Valid) (hnames : (Entry.directory mode entries).NamesFit)
  (hmem : (name, .directory m es) ∈ entries)

include hdir hvalid hnames hmem

/-- A directory below one that was found is found too, unless there is an obstacle. -/
theorem lookup_child_directory (hnone : obstacle? (dir.child name) mode.search m = none) :
    fs.lookup .target (dir.child name) = .ok (.directory m es) := by
  have hlookup := fs.lookup_child hdir (hvalid.ordinary hmem) (hnames.short hvalid.distinct hmem)
    (Entry.lookup_of_mem hvalid.distinct hmem) fun target heq => by cases heq
  obtain ⟨hshort, hsearch, -⟩ := obstacle?_eq_none_iff.mp hnone
  rw [hlookup, if_neg (Nat.not_le.mpr hshort), if_pos hsearch]

/-- A directory below one that was found is listed, unless there is an obstacle. -/
theorem list_child : fs.list (dir.child name) =
    match obstacle? (dir.child name) mode.search m with
    | some fault => .error fault
    | none => .ok (es.map fun p => (p.1, p.2.kind)) := by
  have hlookup := fs.lookup_child hdir (hvalid.ordinary hmem) (hnames.short hvalid.distinct hmem)
    (Entry.lookup_of_mem hvalid.distinct hmem) fun target heq => by cases heq
  rw [FileSystem.list, obstacle?, hlookup]
  by_cases hlong : (dir.child name).bytes.length ≥ FileSystem.pathLimit
  · simp only [if_pos hlong]
    rfl
  · simp only [if_neg hlong]
    cases hsearch : mode.search <;> cases hread : m.read <;> simp [bind, Except.bind, hread]

end Child

/-! ## A whole directory -/

theorem accounts_file (he : e.isDirectory = false) (logical : LogicalPath) (reachable : Bool) :
    Accounts fs order dir [(name, e)] (node order dir logical reachable name e) := by
  rw [node_eq_of_file he]
  cases htext : Utf8.decode? name with
  | none => exact ⟨[name], .nameNotText, rfl, firstOffence_here (by rw [fault?, if_pos htext])⟩
  | some text =>
    intro loc fault h
    rcases offence_singleton_iff.mp h with ⟨-, h⟩ | ⟨rest, mode, es, listed, -, rfl, -⟩
    · simp [fault?, htext, he] at h
    · cases he

/-- The name of a directory comes first, then whether it is listed, then what is in it. -/
theorem accounts_directory (hdir : fs.lookup .target dir = .ok (.directory mode entries))
    (hvalid : (Entry.directory mode entries).Valid) (hnames : (Entry.directory mode entries).NamesFit)
    (hmem : (name, .directory m es) ∈ entries) (logical : LogicalPath)
    (hinside : ∀ logical, fs.lookup .target (dir.child name) = .ok (.directory m es) →
      Accounts fs order (dir.child name) es (collect order (nodes order (dir.child name) logical m.search es))) :
    Accounts fs order dir [(name, .directory m es)]
      (node order dir logical mode.search name (.directory m es)) := by
  have hlist := list_child hdir hvalid hnames hmem
  rw [node]
  cases htext : Utf8.decode? name with
  | none => exact ⟨[name], .nameNotText, rfl, firstOffence_here (by rw [fault?, if_pos htext])⟩
  | some text =>
    cases hobstacle : obstacle? (dir.child name) mode.search m with
    | some fault =>
      rw [hobstacle] at hlist
      refine ⟨[name], fault, rfl, firstOffence_here ?_⟩
      simp [fault?, htext, Entry.isDirectory, Entry.kind, hlist]
    | none =>
      rw [hobstacle] at hlist
      have hright : fault? fs (dir.child name) name (.directory m es) = none := by
        simp [fault?, htext, hlist]
      have hbelow := hinside (logical.join text) (lookup_child_directory hdir hvalid hnames hmem hobstacle)
      cases hcollect : collect order
          (nodes order (dir.child name) (logical.join text) m.search es) with
      | error problem =>
        rw [hcollect] at hbelow
        obtain ⟨loc, fault, rfl, hfirst⟩ := hbelow
        simp only [hcollect]
        exact ⟨name :: loc, fault, rfl, hfirst.inside hlist hright⟩
      | ok children =>
        rw [hcollect] at hbelow
        simp only [hcollect]
        intro loc fault h
        rcases offence_singleton_iff.mp h with ⟨-, h⟩ | ⟨rest, m', es', listed, -, heq, -, next⟩
        · rw [hright] at h
          cases h
        · obtain ⟨-, rfl⟩ := Entry.directory.inj heq
          exact hbelow rest fault next

/-- What becomes of a directory that was found tells of the first offence in it. -/
theorem accounts_collect (order : EntryOrder) (hdir : fs.lookup .target dir = .ok (.directory mode entries))
    (hvalid : (Entry.directory mode entries).Valid) (hnames : (Entry.directory mode entries).NamesFit)
    (logical : LogicalPath) :
    Accounts fs order dir entries (collect order (nodes order dir logical mode.search entries)) := by
  generalize htop : Entry.directory mode entries = top at hvalid hnames
  induction top using Entry.induction generalizing dir mode entries logical with
  | file m contents => cases htop
  | link target => cases htop
  | directory m es ih =>
    obtain ⟨rfl, rfl⟩ := Entry.directory.inj htop
    have hentry : ∀ p ∈ entries, Accounts fs order dir [p] (node order dir logical mode.search p.1 p.2) := by
      rintro ⟨name, e⟩ hmem
      cases hkind : e.isDirectory with
      | false => exact accounts_file hkind logical mode.search
      | true =>
        obtain ⟨m, es, rfl⟩ := Entry.isDirectory_iff.mp hkind
        exact accounts_directory hdir hvalid hnames hmem logical fun logical hfound =>
          ih _ hmem hfound logical rfl (hvalid.inside hmem) (hnames.inside hvalid.distinct hmem)
    rw [collect_nodes_eq_mapM]
    refine (accounts_mapM ?_ fun p hp =>
      hentry p ((order.arrange_perm entries).mem_iff.mp hp)).of_perm (order.arrange_perm entries)
    cases order with
    | byName => exact (EntryOrder.pairwise_arrange_byName hvalid.distinct).imp fun h _ => h
    | asEnumerated => exact List.pairwise_of_forall fun _ _ h => by cases h

end FileRoutes.Loading
