import FileRoutes.Proofs.FileSystem.Parents
import FileRoutes.Proofs.Route.Offences

/-!
# Loading by questions to the system

`load` reads the tree of entries.  A loader has no such tree: it lists the root, and then each directory that
it meets by the path that it has made for it (`Loading.explore`).  It learns that a directory is one from the
listing of the directory above.  Whether a fault lies at the root is found out at the end, by a comparison of
the path in the problem with that of the root (`Loading.explored`).

This loader does what `load` does (`Loading.explored_eq`).  So it ends, although nothing in it bounds the depth
to which it goes but the system itself: a path grows with each directory, and one that has become too long is
not listed any more (`Loading.exists_explored`).  And the comparison at the end is safe: paths are the same if
their components are, and that of an entry below the root has one component more for each name
(`Path.components_foldl_child`).

`load_outcome` says when loading fails, and how.
-/

namespace FileRoutes

/-! ## Components -/

namespace Path

/-- The components by which paths are compared: nothing stands for the slash at the beginning of an absolute
path, and a dot is a component only at the beginning. -/
def components (p : Path) : List Name :=
  (if p.isAbsolute then [[]] else if p.segments.head? = some dot then [dot] else [])
    ++ p.segments.filter (!isFiller ·)

variable {name : Name}

theorem components_child (p : Path) (hname : name.Ordinary) :
    (p.child name).components = p.components ++ [name] := by
  have hfiller : isFiller name = false := by
    simp [isFiller, hname.ne_nil, hname.ne_dot]
  have hsegments : (p.child name).segments = (if p.last = [] then p.initial else p.segments) ++ [name] := by
    rw [child, segments_join rfl]
    rfl
  have habsolute : (p.child name).isAbsolute = p.isAbsolute := isAbsolute_join rfl
  have hfilter : (if p.last = [] then p.initial else p.segments).filter (!isFiller ·) =
      p.segments.filter (!isFiller ·) := by
    split
    · rename_i hlast
      rw [segments, hlast, List.filter_append]
      simp [isFiller]
    · rfl
  have hhead : (p.child name).segments.head? = some dot ↔ p.segments.head? = some dot := by
    rw [hsegments]
    obtain ⟨initial, last⟩ := p
    cases initial with
    | nil =>
      by_cases hlast : last = []
      · have hnil : ([] : Name) ≠ dot := by decide
        simp [segments, hlast, hname.ne_dot, hnil]
      · simp [segments, hlast]
    | cons s ss => by_cases hlast : last = [] <;> simp [segments, hlast]
  rw [components, components, habsolute, if_congr hhead rfl rfl, hsegments, List.filter_append, hfilter,
    List.filter_cons_of_pos (by rw [hfiller]; rfl), List.filter_nil, List.append_assoc]

theorem components_foldl_child (p : Path) {names : List Name} (hnames : ∀ name ∈ names, name.Ordinary) :
    (names.foldl child p).components = p.components ++ names := by
  induction names generalizing p with
  | nil => rw [List.foldl_nil, List.append_nil]
  | cons name names ih =>
    obtain ⟨hname, hrest⟩ := List.forall_mem_cons.mp hnames
    rw [List.foldl_cons, ih (p.child name) hrest, components_child p hname, List.append_assoc,
      List.singleton_append]

end Path

namespace Loading

/-! ## The loader -/

/-- The node of a listed name; `enter` is what the loader does with a directory. -/
def encounter (enter : Path → LogicalPath → ExceptT Problem Option (List Node)) (dir : Path)
    (logical : LogicalPath) (listed : Name × Entry.Kind) : ExceptT Problem Option Node :=
  let path := dir.child listed.1
  match Utf8.decode? listed.1 with
  | none => throw (.unreadable path .nameNotText)
  | some text =>
    if listed.2 = .directory then do
      let children ← enter path (logical.join text)
      return ⟨text, path, logical.join text, .folder, children⟩
    else return ⟨text, path, logical.join text, .file, []⟩

/-- The nodes of the directory at a path, found by asking the system for it and for each directory in it.
There is no answer if the loader would have to go deeper than so many levels. -/
def explore (fs : FileSystem) (order : EntryOrder) :
    Nat → Path → LogicalPath → ExceptT Problem Option (List Node)
  | 0, _, _ => ExceptT.mk none
  | depth + 1, dir, logical =>
    match fs.list dir with
    | .error fault => throw (.unreadable dir fault)
    | .ok listed => (order.arrange listed).mapM (encounter (explore fs order depth) dir logical)

/-- What the loader makes of a root.  A problem with the root itself is recognised by its path. -/
def explored (fs : FileSystem) (order : EntryOrder) (marker : Text) (root : Path) :
    Option (Except Problem (List Node)) :=
  if fs.isDirectory root then
    match (explore fs order (FileSystem.pathLimit + 1) root (.root marker)).run with
    | some (.error (.unreadable path fault)) =>
      some (.error (if path.components = root.components then .noRoot path else .unreadable path fault))
    | answer => answer
  else some (.error (.noRoot root))

variable {fs : FileSystem} {order : EntryOrder} {dir root : Path} {mode m : Mode}
  {entries es : List (Name × Entry)} {name : Name} {depth : Nat} {marker : Text}

section Run

variable {α β ε : Type}

theorem run_bind_of_ok {x : ExceptT ε Option α} {a : α} (h : x.run = some (.ok a)) (f : α → ExceptT ε Option β) :
    (x >>= f).run = (f a).run := by
  rw [ExceptT.run_bind, h]
  rfl

theorem run_bind_of_error {x : ExceptT ε Option α} {e : ε} (h : x.run = some (.error e))
    (f : α → ExceptT ε Option β) : (x >>= f).run = some (.error e) := by
  rw [ExceptT.run_bind, h]
  rfl

/-- If each of some questions has an answer, then so has the sequence of them, up to the first problem. -/
theorem run_mapM {f : α → ExceptT ε Option β} {g : α → Except ε β} {xs : List α}
    (h : ∀ x ∈ xs, (f x).run = some (g x)) : (xs.mapM f).run = some (xs.mapM g) := by
  induction xs with
  | nil =>
    rw [List.mapM_nil, List.mapM_nil]
    rfl
  | cons x xs ih =>
    obtain ⟨hx, hxs⟩ := List.forall_mem_cons.mp h
    rw [List.mapM_cons, List.mapM_cons]
    cases hg : g x with
    | error e =>
      rw [hg] at hx
      exact run_bind_of_error hx _
    | ok b =>
      rw [hg] at hx
      rw [run_bind_of_ok hx]
      cases hgs : xs.mapM g with
      | error e => exact run_bind_of_error ((ih hxs).trans (by rw [hgs])) _
      | ok bs => exact run_bind_of_ok ((ih hxs).trans (by rw [hgs])) _

/-- If each of some questions has an answer, then so has the sequence of them. -/
theorem exists_run_mapM {f : α → ExceptT ε Option β} {xs : List α}
    (h : ∀ x ∈ xs, ∃ answer, (f x).run = some answer) : ∃ answer, (xs.mapM f).run = some answer := by
  induction xs with
  | nil => exact ⟨.ok [], by rw [List.mapM_nil]; rfl⟩
  | cons x xs ih =>
    obtain ⟨⟨answer, hx⟩, hxs⟩ := List.forall_mem_cons.mp h
    obtain ⟨answers, hmany⟩ := ih hxs
    rw [List.mapM_cons]
    cases answer with
    | error e => exact ⟨_, run_bind_of_error hx _⟩
    | ok b =>
      rw [run_bind_of_ok hx]
      cases answers with
      | error e => exact ⟨_, run_bind_of_error hmany _⟩
      | ok bs => exact ⟨_, run_bind_of_ok hmany _⟩

end Run

theorem explore_of_error {fault : Fault} (h : fs.list dir = .error fault) (logical : LogicalPath) :
    (explore fs order (depth + 1) dir logical).run = some (.error (.unreadable dir fault)) := by
  rw [explore, h]
  rfl

/-! ## It ends -/

theorem exists_encounter {enter : Path → LogicalPath → ExceptT Problem Option (List Node)} {kind : Entry.Kind}
    (henter : ∀ logical, ∃ answer, (enter (dir.child name) logical).run = some answer)
    (logical : LogicalPath) : ∃ answer, (encounter enter dir logical (name, kind)).run = some answer := by
  rw [encounter]
  cases Utf8.decode? name with
  | none => exact ⟨_, rfl⟩
  | some text =>
    by_cases hkind : kind = .directory
    · obtain ⟨answer, hanswer⟩ := henter (logical.join text)
      simp only [if_pos hkind]
      cases answer with
      | error problem => exact ⟨_, run_bind_of_error hanswer _⟩
      | ok children => exact ⟨_, run_bind_of_ok hanswer _⟩
    · simp only [if_neg hkind]
      exact ⟨_, rfl⟩

/-- The deeper the loader goes, the longer its path is, and a path that is too long is not listed. -/
theorem exists_explore (order : EntryOrder) (hfs : fs.Valid)
    (hdepth : FileSystem.pathLimit ≤ dir.bytes.length + depth) (logical : LogicalPath) : ∃ answer, (explore fs order (depth + 1) dir logical).run = some answer := by
  induction depth generalizing dir logical with
  | zero =>
    cases hlist : fs.list dir with
    | error fault => exact ⟨_, explore_of_error hlist logical⟩
    | ok listed =>
      obtain ⟨mode, entries, hlookup, -⟩ := FileSystem.exists_of_list hlist
      exact absurd (FileSystem.askable_of_lookup hlookup).short (Nat.not_lt.mpr hdepth)
  | succ depth ih =>
    cases hlist : fs.list dir with
    | error fault => exact ⟨_, explore_of_error hlist logical⟩
    | ok listed =>
      obtain ⟨mode, entries, hlookup, -, rfl⟩ := FileSystem.exists_of_list hlist
      rw [explore, hlist]
      refine exists_run_mapM fun p hp => exists_encounter (fun logical => ih ?_ logical) logical
      rw [(order.arrange_perm _).mem_iff] at hp
      obtain ⟨q, hq, rfl⟩ := List.mem_map.mp hp
      have hlonger := dir.length_bytes_lt_child ((hfs.lookup hlookup).ordinary hq).ne_nil
      simp only
      omega

/-- The loader has an answer for every root. -/
theorem exists_explored (hfs : fs.Valid) (order : EntryOrder) (marker : Text) (root : Path) :
    ∃ answer, explored fs order marker root = some answer := by
  rw [explored]
  split
  · obtain ⟨answer, hanswer⟩ := exists_explore order hfs (Nat.le_add_left _ root.bytes.length) (.root marker)
    rw [hanswer]
    split
    · exact ⟨_, rfl⟩
    · exact ⟨answer, rfl⟩
  · exact ⟨_, rfl⟩

/-! ## It does what `load` does -/

/-- The loader comes to the node of an entry if it does with a directory what is done with it. -/
theorem encounter_run {enter : Path → LogicalPath → ExceptT Problem Option (List Node)} {e : Entry}
    (logical : LogicalPath) (reachable : Bool)
    (hrefused : ∀ m es fault, e = .directory m es → obstacle? (dir.child name) reachable m = some fault →
      ∀ logical, (enter (dir.child name) logical).run = some (.error (.unreadable (dir.child name) fault)))
    (hentered : ∀ m es, e = .directory m es → obstacle? (dir.child name) reachable m = none →
      ∀ logical, (enter (dir.child name) logical).run =
        some (collect order (nodes order (dir.child name) logical m.search es))) :
    (encounter enter dir logical (name, e.kind)).run =
      some (node order dir logical reachable name e) := by
  rw [encounter]
  cases hkind : e.isDirectory with
  | false =>
    rw [node_eq_of_file hkind]
    have hfile : ¬ e.kind = .directory := of_decide_eq_false hkind
    cases Utf8.decode? name with
    | none => rfl
    | some text =>
      simp only [if_neg hfile]
      rfl
  | true =>
    obtain ⟨m, es, rfl⟩ := Entry.isDirectory_iff.mp hkind
    rw [node]
    cases Utf8.decode? name with
    | none => rfl
    | some text =>
      simp only [Entry.kind, if_pos]
      cases hobstacle : obstacle? (dir.child name) reachable m with
      | some fault => exact run_bind_of_error (hrefused m es fault rfl hobstacle (logical.join text)) _
      | none =>
        have hrun := hentered m es rfl hobstacle (logical.join text)
        simp only
        cases hcollect : collect order
            (nodes order (dir.child name) (logical.join text) m.search es) with
        | error problem =>
          rw [hcollect] at hrun
          exact run_bind_of_error hrun _
        | ok children =>
          rw [hcollect] at hrun
          exact run_bind_of_ok hrun _

/-- The loader comes to the nodes of a directory, if it may go as deep as a path may be long. -/
theorem explore_run (hdepth : FileSystem.pathLimit ≤ dir.bytes.length + depth)
    (hdir : fs.lookup .target dir = .ok (.directory mode entries)) (hread : mode.read = true)
    (hvalid : (Entry.directory mode entries).Valid) (hnames : (Entry.directory mode entries).NamesFit)
    (logical : LogicalPath) :
    (explore fs order (depth + 1) dir logical).run =
      some (collect order (nodes order dir logical mode.search entries)) := by
  induction depth generalizing dir mode entries logical with
  | zero => exact absurd (FileSystem.askable_of_lookup hdir).short (Nat.not_lt.mpr hdepth)
  | succ depth ih =>
    have hlist : fs.list dir = .ok (entries.map fun p => (p.1, p.2.kind)) := by
      rw [FileSystem.list, hdir]
      simp only [bind, Except.bind, hread, if_pos]
    rw [explore, hlist]
    simp only
    rw [EntryOrder.arrange_map order fun _ (e : Entry) => e.kind, List.mapM_map, collect_nodes_eq_mapM]
    refine run_mapM fun p hp => ?_
    have hmem : p ∈ entries := (order.arrange_perm entries).mem_iff.mp hp
    have hlonger := dir.length_bytes_lt_child (hvalid.ordinary hmem).ne_nil
    refine encounter_run logical mode.search (fun m es fault heq hobstacle logical => ?_)
      fun m es heq hobstacle logical => ?_
    · have hdirectory : (p.1, Entry.directory m es) ∈ entries := heq ▸ hmem
      have hchild := list_child hdir hvalid hnames hdirectory
      rw [hobstacle] at hchild
      exact explore_of_error hchild logical
    · have hdirectory : (p.1, Entry.directory m es) ∈ entries := heq ▸ hmem
      exact ih (by omega) (lookup_child_directory hdir hvalid hnames hdirectory hobstacle)
        (obstacle?_eq_none_iff.mp hobstacle).2.2 (hvalid.inside hdirectory)
        (hnames.inside hvalid.distinct hdirectory) logical

/-- The problem with an entry below the root is never taken for one with the root. -/
theorem components_ne_of_offence {loc : Location} {fault : Fault}
    (hvalid : (Entry.directory mode entries).Valid) (h : Offence fs root entries loc fault) :
    (loc.foldl Path.child root).components = root.components ++ loc ∧
      (loc.foldl Path.child root).components ≠ root.components := by
  have hcomponents := Path.components_foldl_child root (h.ordinary hvalid)
  refine ⟨hcomponents, fun heq => h.ne_nil ?_⟩
  rw [hcomponents] at heq
  exact List.append_right_eq_self.mp heq

/-- **The loader and `load`.**  A loader that asks the system for one directory after the other, and compares
paths at the end, has an answer, and it is that of `load`. -/
theorem explored_eq (hfs : fs.Valid) (hnames : fs.NamesFit) (order : EntryOrder) (marker : Text)
    (root : Path) : explored fs order marker root = some (load fs order marker root) := by
  rw [explored, load, FileSystem.isDirectory]
  cases hlookup : fs.lookup .target root with
  | error fault => rfl
  | ok e =>
    cases hkind : e.isDirectory with
    | false =>
      simp only [hkind]
      cases e with
      | directory m es => cases hkind
      | file m contents => rfl
      | link target => rfl
    | true =>
      obtain ⟨mode, entries, rfl⟩ := Entry.isDirectory_iff.mp hkind
      simp only [hkind, if_pos]
      cases hread : mode.read with
      | false =>
        have hlist : fs.list root = .error .denied := by
          rw [FileSystem.list, hlookup]
          simp [bind, Except.bind, hread]
        rw [explore_of_error hlist]
        simp
      | true =>
        have hvalid := hfs.lookup hlookup
        have hfit := FileSystem.NamesFit.lookup hnames hlookup
        have haccounts := accounts_collect order hlookup hvalid hfit (.root marker)
        rw [explore_run (Nat.le_add_left _ _) hlookup hread hvalid hfit]
        simp only [if_pos]
        cases hcollect : collect order (nodes order root (.root marker) mode.search entries) with
        | ok ns => rfl
        | error problem =>
          rw [hcollect] at haccounts
          obtain ⟨loc, fault, rfl, hfirst⟩ := haccounts
          simp only [if_neg (components_ne_of_offence hvalid hfirst.offence).2]

end Loading

/-! ## When loading fails -/

section Outcome

variable {fs : FileSystem} {root : Path}

theorem load_of_list_error {order : EntryOrder} {marker : Text} {fault : Fault} (h : fs.list root = .error fault) :
    load fs order marker root = .error (.noRoot root) := by
  rw [load]
  split
  · rename_i mode entries hlookup
    rw [FileSystem.list, hlookup] at h
    simp only [bind, Except.bind] at h
    split at h
    · cases h
    · rw [if_neg ‹_›]
  · rfl

/-- A root that is listed is not the problem. -/
theorem accounts_load (order : EntryOrder) (marker : Text) (hfs : fs.Valid) (hnames : fs.NamesFit)
    {listed : List (Name × Entry.Kind)} (h : fs.list root = .ok listed) :
    ∃ mode entries, fs.lookup .target root = .ok (.directory mode entries) ∧
      Loading.Accounts fs order root entries (load fs order marker root) := by
  obtain ⟨mode, entries, hlookup, hread, -⟩ := FileSystem.exists_of_list h
  refine ⟨mode, entries, hlookup, ?_⟩
  rw [load, hlookup]
  simp only [hread, if_pos]
  exact Loading.accounts_collect order hlookup (hfs.lookup hlookup) (FileSystem.NamesFit.lookup hnames hlookup)
    (.root marker)

theorem list_error_iff :
    (∃ fault, fs.list root = .error fault) ↔
      fs.exists root = false ∨ fs.isDirectory root = false ∨ ∃ fault, fs.list root = .error fault := by
  refine ⟨fun h => Or.inr (Or.inr h), ?_⟩
  rintro (hexists | hdirectory | h)
  · rw [FileSystem.exists] at hexists
    rw [FileSystem.list]
    cases hlookup : fs.lookup .target root with
    | error fault => exact ⟨fault, rfl⟩
    | ok e => simp [hlookup, Except.isOk, Except.toBool] at hexists
  · rw [FileSystem.isDirectory] at hdirectory
    rw [FileSystem.list]
    cases hlookup : fs.lookup .target root with
    | error fault => exact ⟨fault, rfl⟩
    | ok e =>
      cases e with
      | file mode contents => exact ⟨.notDirectory, rfl⟩
      | link target => exact ⟨.notDirectory, rfl⟩
      | directory mode entries => simp [hlookup, Entry.isDirectory, Entry.kind] at hdirectory
  · exact h

/-- **When loading fails.**  The root is the problem exactly if it is missing, is no directory or cannot be
listed.  Otherwise an entry below it is the problem exactly if there is an offence, and the root is loaded
exactly if there is none.  The problem tells the path and the fault of an offence; if siblings are ordered by
name, it is the first one.  All this is what a loader comes to that asks the system and compares paths at the
end, and that comparison keeps a problem with the root and one below it apart. -/
theorem load_outcome (hfs : fs.Valid) (hnames : fs.NamesFit) (order : EntryOrder) (marker : Text)
    (root : Path) :
    Loading.explored fs order marker root = some (load fs order marker root) ∧
    (load fs order marker root = .error (.noRoot root) ↔
      fs.exists root = false ∨ fs.isDirectory root = false ∨ ∃ fault, fs.list root = .error fault) ∧
    ∀ listed, fs.list root = .ok listed → ∃ top, fs.lookup .target root = .ok top ∧
      ((∃ path fault, load fs order marker root = .error (.unreadable path fault)) ↔
        ∃ loc fault, Loading.Offence fs root top.entries loc fault) ∧
      ((∃ ns, load fs order marker root = .ok ns) ↔
        ¬ ∃ loc fault, Loading.Offence fs root top.entries loc fault) ∧
      ∀ path fault, load fs order marker root = .error (.unreadable path fault) →
        ∃ loc, loc ≠ [] ∧ path = loc.foldl Path.child root ∧ path.components = root.components ++ loc ∧
          Loading.FirstOffence fs order root top.entries loc fault := by
  refine ⟨Loading.explored_eq hfs hnames order marker root, ?_, fun listed hlisted => ?_⟩
  · rw [← list_error_iff]
    constructor
    · intro h
      cases hlist : fs.list root with
      | error fault => exact ⟨fault, rfl⟩
      | ok listed =>
        obtain ⟨mode, entries, -, haccounts⟩ := accounts_load order marker hfs hnames hlist
        rw [h] at haccounts
        obtain ⟨loc, fault, heq, -⟩ := haccounts
        cases heq
    · rintro ⟨fault, hfault⟩
      exact load_of_list_error hfault
  · obtain ⟨mode, entries, hlookup, haccounts⟩ := accounts_load order marker hfs hnames hlisted
    refine ⟨.directory mode entries, hlookup, haccounts.unreadable_iff, haccounts.ok_iff,
      fun path fault h => ?_⟩
    rw [h] at haccounts
    obtain ⟨loc, rfl, hfirst⟩ := haccounts.exists_first
    exact ⟨loc, hfirst.offence.ne_nil, rfl,
      (Loading.components_ne_of_offence (hfs.lookup hlookup) hfirst.offence).1, hfirst⟩

end Outcome

/-- A project with a directory that may not be listed, and with a name that is no text. -/
def lockedTree : FileSystem where
  root := .directory .full [(Utf8.encode "app", .directory .full [
    ([0xFF], .file .plain []),
    (Utf8.encode "blog", .directory .full [
      (Utf8.encode "page.tsx", .file .plain []),
      (Utf8.encode "drafts", .directory ⟨false, true, true⟩ [(Utf8.encode "page.tsx", .file .plain [])])])])]
  current := .ofLocation []

theorem namesFit_lockedTree : lockedTree.NamesFit := Entry.namesFit_of_everything (by decide)

/-- The root of the sample is listed, so one of its two offences is told. -/
theorem load_outcome_lockedTree :
    (lockedTree.Valid ∧ lockedTree.NamesFit ∧ ∃ listed, lockedTree.list (Path.ofText "/app") = .ok listed) ∧
    Loading.explored lockedTree .byName "." (Path.ofText "/app") =
      some (load lockedTree .byName "." (Path.ofText "/app")) ∧
    (load lockedTree .byName "." (Path.ofText "/app") = .error (.noRoot (Path.ofText "/app")) ↔
      lockedTree.exists (Path.ofText "/app") = false ∨ lockedTree.isDirectory (Path.ofText "/app") = false ∨
        ∃ fault, lockedTree.list (Path.ofText "/app") = .error fault) ∧
    ∀ listed, lockedTree.list (Path.ofText "/app") = .ok listed →
      ∃ top, lockedTree.lookup .target (Path.ofText "/app") = .ok top ∧
      ((∃ path fault, load lockedTree .byName "." (Path.ofText "/app") = .error (.unreadable path fault)) ↔
        ∃ loc fault, Loading.Offence lockedTree (Path.ofText "/app") top.entries loc fault) ∧
      ((∃ ns, load lockedTree .byName "." (Path.ofText "/app") = .ok ns) ↔
        ¬ ∃ loc fault, Loading.Offence lockedTree (Path.ofText "/app") top.entries loc fault) ∧
      ∀ path fault, load lockedTree .byName "." (Path.ofText "/app") = .error (.unreadable path fault) →
        ∃ loc, loc ≠ [] ∧ path = loc.foldl Path.child (Path.ofText "/app") ∧
          path.components = (Path.ofText "/app").components ++ loc ∧
          Loading.FirstOffence lockedTree .byName (Path.ofText "/app") top.entries loc fault := by
  have hvalid : lockedTree.Valid := ⟨by decide, _, _, rfl⟩
  have hlisted : lockedTree.list (Path.ofText "/app") =
      .ok [([0xFF], .file), (Utf8.encode "blog", .directory)] := by cbv
  exact ⟨⟨hvalid, namesFit_lockedTree, _, hlisted⟩,
    load_outcome hvalid namesFit_lockedTree .byName "." (Path.ofText "/app")⟩

/-- By name the directory is the first offence: it comes before the name that is no text, and in it what is not
listed does not count. -/
example : load lockedTree .byName "." (Path.ofText "/app") =
    .error (.unreadable (Path.ofText "/app/blog/drafts") .denied) := by cbv

end FileRoutes
