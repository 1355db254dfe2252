import FileRoutes.Proofs.FileSystem.Denials
import FileRoutes.Proofs.Migration.Course

/-!
# When a copy succeeds

A copy between two trees, neither of which is in the other, with no link in or on the way to the target,
succeeds exactly if the trees do not clash: there is no relative place at which both have an entry and
only one of the two is a directory (`copyTree_exact`).  Then it leaves the overlay of the target and the
source.

## No clash, no failure

Without a clash all that can go wrong is that a permission is denied, so what is proved of each step is
what it fails with (`FailsOnly`).  The walk relies on more than on its course here: the paths can be asked
for, the links can be stored, and what has been copied so far does not clash with what is left (`Track`).
This is kept by whatever has been copied (`Track.copied`), since the overlay of an entry of the source is a
directory exactly if the entry is one.  How the failures of the steps become those of the walk does not
depend on what they are due to (`WalkFails.below`, `Apart.failsOnly_copyTree`).

## What the system can take

Names and paths have to be short enough and free of zero bytes (`Storable`), and a target that is to be
made has to end in a name.  The directories above `new/.` do not include `new`, so it is never made, and
without it there is no `new/.` (`copyTree_thwarted`).
-/

namespace FileRoutes

/-- The fault that a cause comes from, if it comes from one. -/
def Cause.fault? : Cause → Option Fault
  | fault f => some f
  | visit _ f => some f
  | problem p => p.fault?

/-- The fault that a failure comes from, if it comes from one. -/
def Failure.fault? : Failure → Option Fault
  | refused _ => none
  | during _ cause => cause.fault?

/-- What goes wrong is that a permission is denied. -/
def Failure.IsDenied (failure : Failure) : Prop := failure.fault? = some .denied

/-- The overlay of an entry of the source is a directory exactly if the entry is one. -/
theorem Entry.isDirectory_overlay {new old : Option Entry} {e x : Entry} (hnew : new = some e)
    (h : Entry.overlay new old = some x) : x.isDirectory = e.isDirectory := by
  subst hnew
  cases e with
  | file mode contents => rw [← Option.some.inj h]
  | link target => rw [← Option.some.inj h]
  | directory mode entries =>
    cases old with
    | none =>
      rw [← Option.some.inj h]
      rfl
    | some old => cases old <;> rw [← Option.some.inj h] <;> rfl

namespace Copy

open FileSystem (Treads Makes Holdable)

/-! ## What the walk relies on -/

/-- What has been copied does not clash with what is still to be copied. -/
theorem Copied.not_clash {fs fs' : FileSystem} {origin goal : Location} {part : List Name → Prop}
    (hc : Copied origin goal part fs fs') {below : Location} (h : ¬ Clash fs origin goal below) :
    ¬ Clash fs' origin goal below := by
  rintro ⟨e, old, he, hold, hne⟩
  rw [hc.view_source] at he
  by_cases hpart : part below
  · rw [hc.overlaid below hpart] at hold
    exact hne (Entry.isDirectory_overlay he hold).symm
  · rw [hc.view_of_not_part hpart] at hold
    exact h ⟨e, old, he, hold, hne⟩

/-- The system can take the names, the paths and the links of a copy. -/
structure Storable (fs : FileSystem) (source target : Path) (origin : Location) : Prop where
  sourceName : ∀ names e, fs.find? (origin ++ names) = some e →
    ∀ name ∈ names, name.length ≤ FileSystem.nameLimit
  sourcePath : ∀ names e, fs.find? (origin ++ names) = some e →
    (entryPath source names).bytes.length < FileSystem.pathLimit
  targetName : ∀ name, .down name ∈ target.moves → name.length ≤ FileSystem.nameLimit
  targetPath : ∀ names e, fs.find? (origin ++ names) = some e →
    (target.join (.ofNames names)).bytes.length < FileSystem.pathLimit
  targetZero : ∀ s ∈ target.segments, (0 : UInt8) ∉ s
  link : ∀ names link, fs.find? (origin ++ names) = some (.link link) → Holdable link

/-- The course of a copy in the way of which there is nothing. -/
structure Track (fs : FileSystem) (source target : Path) (origin goal : Location) : Prop
    extends Course fs source target origin goal where
  askable : source.Askable
  treads : fs.Treads source origin
  targetSpelled : fs.spelled target = goal
  targetDown : Step.up ∉ target.moves
  storable : Storable fs source target origin
  agrees : ∀ below, ¬ Clash fs origin goal below

/-- The source of a copy is as it was, so the system can take it. -/
theorem Storable.of_find?_eq {fs fs' : FileSystem} {source target : Path} {origin : Location}
    (h : Storable fs source target origin)
    (hsame : ∀ names, fs'.find? (origin ++ names) = fs.find? (origin ++ names)) :
    Storable fs' source target origin where
  sourceName names e he := h.sourceName names e (hsame names ▸ he)
  sourcePath names e he := h.sourcePath names e (hsame names ▸ he)
  targetName := h.targetName
  targetPath names e he := h.targetPath names e (hsame names ▸ he)
  targetZero := h.targetZero
  link names link he := h.link names link (hsame names ▸ he)

namespace Track

variable {fs fs' : FileSystem} {source target : Path} {origin goal : Location}
  {part : List Name → Prop} {names init : List Name} {name : Name} {e : Entry}

/-- What has been copied leaves nothing in the way of the rest. -/
theorem copied (h : Track fs source target origin goal) (hc : Copied origin goal part fs fs') :
    Track fs' source target origin goal where
  toCourse := h.toCourse.copied hc
  askable := h.askable
  treads := h.treads.keeps hc.touches.keeps h.sourceDirectory
  targetSpelled := by
    rw [FileSystem.spelled, hc.touches.keeps.beginning_eq]
    exact h.targetSpelled
  targetDown := h.targetDown
  storable := h.storable.of_find?_eq hc.find?_source
  agrees below := hc.not_clash (h.agrees below)

/-- What the target has in the place of an entry is of the same sort. -/
theorem isDirectory_eq (h : Track fs source target origin goal)
    (he : fs.find? (origin ++ names) = some e) {old : Entry}
    (hold : fs.find? (goal ++ names) = some old) : old.isDirectory = e.isDirectory := by
  by_contra hne
  refine h.agrees names ⟨e.bare, old.bare, ?_, ?_, ?_⟩
  · rw [FileSystem.view, he, Option.map_some]
  · rw [FileSystem.view, hold, Option.map_some]
  · rw [Entry.isDirectory_bare, Entry.isDirectory_bare]
    exact fun heq => hne heq.symm

/-! ### The paths of the entries -/

/-- No zero byte is in the path of an entry. -/
theorem zero_notMem_entryPath (hzero : ∀ s ∈ source.segments, (0 : UInt8) ∉ s)
    (hnames : ∀ name ∈ names, name.Ordinary) :
    ∀ s ∈ (entryPath source names).segments, (0 : UInt8) ∉ s := by
  induction names using List.reverseRecOn with
  | nil => exact hzero
  | append_singleton init name ih =>
    intro s hs
    rw [entryPath_concat] at hs
    rcases Path.mem_segments_join rfl hs with hs | hs
    · exact ih (fun n hn => hnames n (List.mem_append_left _ hn)) s hs
    · rw [List.mem_singleton.mp hs]
      exact (hnames name (by simp)).zero_notMem

/-- A path has at least as many bytes as there are names at its end. -/
theorem length_le_entryPath (hnames : ∀ name ∈ names, name.Ordinary) :
    names.length ≤ (entryPath source names).bytes.length := by
  induction names using List.reverseRecOn with
  | nil => exact Nat.zero_le _
  | append_singleton init name ih =>
    have hinit := ih fun n hn => hnames n (List.mem_append_left _ hn)
    have hlonger : (entryPath source init).bytes.length <
        (entryPath source (init ++ [name])).bytes.length := by
      rw [entryPath_concat]
      exact Path.length_bytes_lt_child _ (hnames name (by simp)).ne_nil
    rw [List.length_append, List.length_singleton]
    omega

/-- The system can be asked for an entry of the source. -/
theorem askable_entry (h : Track fs source target origin goal)
    (he : fs.find? (origin ++ names) = some e) : (entryPath source names).Askable := by
  rcases List.eq_nil_or_concat names with rfl | ⟨init, name, rfl⟩
  · exact h.askable
  rw [List.concat_eq_append] at he ⊢
  refine ⟨zero_notMem_entryPath h.askable.zero_notMem (h.ordinary he), fun hempty => ?_,
    h.storable.sourcePath _ e he⟩
  have hlast := last_entryPath source init name
  rw [hempty] at hlast
  exact (h.ordinary he name (by simp)).ne_nil hlast.symm

theorem last_destination (target : Path) (init : List Name) (name : Name) :
    (target.join (.ofNames (init ++ [name]))).last = name := by
  rw [Path.last_join, Path.ofNames, Path.ofSegments, List.getLastD_concat]

/-- The system can be asked for the destination of an entry, unless the path of it is empty. -/
theorem askable_destination (h : Storable fs source target origin)
    (hnames : ∀ name ∈ names, name.Ordinary) (he : fs.find? (origin ++ names) = some e)
    (hne : target.join (.ofNames names) ≠ .empty) : (target.join (.ofNames names)).Askable := by
  refine ⟨fun s hs => ?_, hne, h.targetPath names e he⟩
  rcases Path.mem_segments_join (Path.isAbsolute_ofNames fun n hn => (hnames n hn).isDown) hs with hs | hs
  · exact h.targetZero s hs
  · by_cases hnil : names = []
    · rw [hnil] at hs
      rw [List.mem_singleton.mp hs]
      exact List.not_mem_nil
    · rw [Path.ofNames, Path.segments_ofSegments hnil] at hs
      exact (hnames s hs).zero_notMem

/-- The path of an entry is looked up in the directory above it, or it is refused. -/
theorem looks_entry (h : Track fs source target origin goal)
    (he : fs.find? (origin ++ (init ++ [name])) = some e) :
    fs.Looks (entryPath source (init ++ [name])) (origin ++ init) name ∨
      fs.Refused (entryPath source (init ++ [name])) := by
  have hgoesOn := h.goesOn_entry he
  have hmoves : (entryPath source (init ++ [name])).moves =
      source.moves ++ (init.map .down ++ [.down name]) := by
    rw [hgoesOn.moves_eq, List.map_append]
    rfl
  have hlooks := FileSystem.looks_or_refused (h.sourceAnchored.of_isAbsolute_eq hgoesOn.isAbsolute_eq)
    (h.askable_entry he) (by
      rw [FileSystem.beginning_of_isAbsolute_eq hgoesOn.isAbsolute_eq]
      exact h.treads.trail) hmoves (by simp) (by
      rw [Step.foldl_move_map_down]
      exact Course.hasDirectory_above he) fun n hn => by
      refine h.storable.sourceName _ e he n ?_
      simpa using hn
  rwa [Step.foldl_move_map_down] at hlooks

/-- The path of a destination is looked up in the place of the directory above, or it is refused. -/
theorem looks_destination (h : Track fs source target origin goal)
    (he : fs.find? (origin ++ (init ++ [name])) = some e) (hcurrent : fs'.current = fs.current)
    (habove : fs'.HasDirectory (goal ++ init)) :
    fs'.Looks (target.join (.ofNames (init ++ [name]))) (goal ++ init) name ∨
      fs'.Refused (target.join (.ofNames (init ++ [name]))) := by
  have hgoesOn := h.goesOn_destination he
  have hmoves : (target.join (.ofNames (init ++ [name]))).moves =
      [] ++ ((target.moves ++ init.map .down) ++ [.down name]) := by
    rw [hgoesOn.moves_eq, List.map_append, List.nil_append, List.append_assoc]
    rfl
  have hbeginning : fs'.beginning (target.join (.ofNames (init ++ [name]))) = fs.beginning target := by
    rw [FileSystem.beginning_of_isAbsolute_eq hgoesOn.isAbsolute_eq, FileSystem.beginning, hcurrent,
      FileSystem.beginning]
  have hplace : (target.moves ++ init.map Step.down).foldl Step.move (fs.beginning target) = goal ++ init := by
    rw [List.foldl_append, Step.foldl_move_map_down, ← h.targetSpelled]
    rfl
  have hanchored : fs'.Anchored (target.join (.ofNames (init ++ [name]))) := by
    rw [FileSystem.Anchored, hcurrent]
    exact h.targetAnchored.of_isAbsolute_eq hgoesOn.isAbsolute_eq
  have hask := askable_destination h.storable (h.ordinary he) he fun hempty => by
    have hlast := last_destination target init name
    rw [hempty] at hlast
    exact (h.ordinary he name (by simp)).ne_nil hlast.symm
  rw [← hplace, ← hbeginning] at habove ⊢
  refine FileSystem.looks_or_refused hanchored hask (.done FileSystem.linkLimit _) hmoves ?_ habove
    fun n hn => ?_
  · simpa using h.targetDown
  · rw [List.append_assoc, List.mem_append] at hn
    rcases hn with hn | hn
    · exact h.storable.targetName n hn
    · refine h.storable.sourceName _ e he n ?_
      simpa using hn

/-- A directory of the source is found by its path, or the path is refused. -/
theorem treads_or_refused (h : Track fs source target origin goal) {mode : Mode}
    {entries : List (Name × Entry)} (he : fs.find? (origin ++ names) = some (.directory mode entries)) :
    fs.Treads (entryPath source names) (origin ++ names) ∨ fs.Refused (entryPath source names) := by
  rcases List.eq_nil_or_concat names with rfl | ⟨init, name, rfl⟩
  · rw [List.append_nil]
    exact Or.inl h.treads
  · rw [List.concat_eq_append] at he ⊢
    refine (h.looks_entry he).imp_left fun hlooks => ?_
    rw [← List.append_assoc] at he ⊢
    exact hlooks.treads he fun link heq => by cases heq

/-- A directory of the source is listed, unless a permission is denied. -/
theorem list_error (h : Track fs source target origin goal) {mode : Mode}
    {entries : List (Name × Entry)} (he : fs.find? (origin ++ names) = some (.directory mode entries))
    {fault : Fault} (hlist : fs.list (entryPath source names) = .error fault) : fault = .denied := by
  rw [FileSystem.list] at hlist
  rcases h.treads_or_refused he with htreads | hrefused
  · rw [htreads.lookup_directory (h.askable_entry he) he] at hlist
    simp only [bind, Except.bind] at hlist
    split at hlist
    · cases hlist
    · exact (Except.error.inj hlist).symm
  · rw [hrefused.lookup_eq] at hlist
    exact (Except.error.inj hlist).symm

end Track

/-! ## One entry -/

section Entry

variable {source target : Path} {origin goal : Location} {names init : List Name} {name : Name}
  {s : Session} {task : Task}

/-- A change that only fails for a lack of permission. -/
theorem change_fails {c : Change Unit} (h : FailsOnly (· = .denied) c s.fs) :
    FailsOnly Failure.IsDenied (Action.change task c) s :=
  Action.failsOnly_change h fun fault hfault => by
    rw [hfault]
    rfl

/-- The entries of a directory fail to be told only as the listing of it does. -/
theorem failsOnly_entries {P : Failure → Prop}
    (h : ∀ fault, s.fs.list (entryPath source names) = .error fault →
      P (.during (.readSource source) (.visit (entryPath source names) fault))) :
    FailsOnly P (Copy.entries source names) s := by
  rw [Copy.entries]
  refine .bind_of_ok (Action.fileSystem_eq_ok s) (Action.failsOnly_attempt fun cause hcause => ?_)
  cases hlist : s.fs.list (entryPath source names) with
  | ok es =>
    rw [hlist] at hcause
    cases hcause
  | error fault =>
    rw [hlist] at hcause
    rw [← Except.error.inj hcause]
    exact h fault hlist

theorem entries_fails (h : Track s.fs source target origin goal) {mode : Mode}
    {entries : List (Name × Entry)}
    (he : s.fs.find? (origin ++ names) = some (.directory mode entries)) :
    FailsOnly Failure.IsDenied (Copy.entries source names) s :=
  failsOnly_entries fun fault hlist => by
    rw [h.list_error he hlist]
    rfl

theorem copyDirectory_fails (h : Track s.fs source target origin goal)
    (habove : s.fs.HasDirectory (goal ++ init)) {mode : Mode} {entries : List (Name × Entry)}
    (he : s.fs.find? (origin ++ (init ++ [name])) = some (.directory mode entries)) :
    FailsOnly Failure.IsDenied (copyEntry source target (init ++ [name]) .directory) s := by
  rw [copyEntry]
  refine .bind (change_fails ?_) fun _ _ _ => .pure _
  refine FileSystem.createDirectories_fails_of_looks (h.looks_destination he rfl habove) fun old hold => ?_
  rw [List.append_assoc] at hold
  exact h.isDirectory_eq he hold

theorem copyFile_fails (h : Track s.fs source target origin goal)
    (habove : s.fs.HasDirectory (goal ++ init)) {mode : Mode} {contents : Bytes}
    (he : s.fs.find? (origin ++ (init ++ [name])) = some (.file mode contents)) :
    FailsOnly Failure.IsDenied (copyEntry source target (init ++ [name]) .file) s := by
  rw [copyEntry]
  refine .bind Action.failsOnly_tell fun _ t htell => ?_
  rw [← Action.tell_run htell] at h habove he
  have hname : name.IsDown := h.isDown he name (by simp)
  refine .bind (change_fails ?_) fun _ _ _ => .pure _
  refine FileSystem.copyFile_fails (h.looks_entry he) ?_ (by rwa [List.append_assoc])
    (h.looks_destination he rfl habove) ?_ fun old hold => ?_
  · rwa [last_entryPath]
  · rwa [Track.last_destination]
  · rw [List.append_assoc] at hold
    cases old with
    | file m c => exact ⟨m, c, rfl⟩
    | link link => cases h.sameLinks _ _ link he hold
    | directory m es => cases h.isDirectory_eq he hold

/-- The link is read, unless a permission is denied. -/
theorem Track.readLink_error {fs : FileSystem} (h : Track fs source target origin goal) {link : Path}
    (he : fs.find? (origin ++ (init ++ [name])) = some (.link link)) {fault : Fault}
    (hread : fs.readLink (entryPath source (init ++ [name])) = .error fault) : fault = .denied := by
  rw [FileSystem.readLink] at hread
  rcases h.looks_entry he with hlooks | hrefused
  · have hlast : (entryPath source (init ++ [name])).last.IsDown := by
      rw [last_entryPath]
      exact h.isDown he name (by simp)
    rw [← List.append_assoc] at he
    rw [hlooks.lookup_eq hlast .itself he (Or.inl rfl)] at hread
    cases hread
  · rw [hrefused.lookup_eq] at hread
    exact (Except.error.inj hread).symm

theorem copyLink_fails (h : Track s.fs source target origin goal)
    (habove : s.fs.HasDirectory (goal ++ init)) {link : Path}
    (he : s.fs.find? (origin ++ (init ++ [name])) = some (.link link)) :
    FailsOnly Failure.IsDenied (copyEntry source target (init ++ [name]) .link) s := by
  have hlast : (target.join (.ofNames (init ++ [name]))).last.IsDown := by
    rw [Track.last_destination]
    exact h.isDown he name (by simp)
  -- the new link is made in a state in which there is nothing at its place
  have hcreate {t : Session} (hcurrent : t.fs.current = s.fs.current)
      (habove' : t.fs.HasDirectory (goal ++ init))
      (hnone : t.fs.Looks (target.join (.ofNames (init ++ [name]))) (goal ++ init) name →
        t.fs.find? (goal ++ init ++ [name]) = none) {message : Text} :
      FailsOnly Failure.IsDenied (do
        Action.tell .debug .copying message
        Action.change (.createLink (target.join (.ofNames (init ++ [name]))))
          (FileSystem.createLink link (target.join (.ofNames (init ++ [name]))))) t := by
    refine .bind Action.failsOnly_tell fun _ u htell => ?_
    rw [← Action.tell_run htell] at hcurrent habove' hnone
    exact change_fails (FileSystem.createLink_fails (h.storable.link _ link he)
      (h.looks_destination he hcurrent habove') hlast hnone)
  rw [copyEntry]
  refine .bind ?_ fun _ _ _ => .pure _
  rw [copyLink]
  refine .bind (Action.failsOnly_ask fun fault hfault => ?_) fun held t hread => ?_
  · rw [h.readLink_error he hfault]
    rfl
  obtain ⟨hheld, rfl⟩ := Action.ask_run hread
  obtain rfl := Entry.link.inj (h.readLink_eq_ok he hheld)
  refine .bind_of_ok (Action.fileSystem_eq_ok s) ?_
  have hlooks := h.looks_destination he rfl habove
  split
  · rename_i hoccupied
    obtain ⟨old, hold⟩ : ∃ old, s.fs.find? (goal ++ init ++ [name]) = some old := by
      rcases hlooks with hlooks | hrefused
      · rw [hlooks.isOccupied_eq hlast] at hoccupied
        exact Option.isSome_iff_exists.mp hoccupied
      · rw [hrefused.isOccupied_eq] at hoccupied
        cases hoccupied
    have hplace := hold
    rw [List.append_assoc] at hplace
    refine .bind (change_fails (FileSystem.removeFile_fails hlooks hlast hold (h.isDirectory_eq he hplace)))
      fun _ t hremove => ?_
    obtain ⟨directory, last, hlooksUp, -, hclears, -⟩ := (FileSystem.removeFile_ends h.current
      (h.targetAnchored.of_isAbsolute_eq (h.goesOn_destination he).isAbsolute_eq)).ok_of_run
        (Action.change_run hremove)
    rw [h.eq_of_looksUp habove he hlooksUp, ← List.append_assoc] at hclears
    refine hcreate hclears.current_eq (hclears.hasDirectory habove) fun _ => ?_
    rw [← FileSystem.view_eq_none_iff, hclears.view_eq, if_pos rfl]
  · rename_i hoccupied
    refine hcreate rfl habove fun hlooks => ?_
    rw [hlooks.isOccupied_eq hlast] at hoccupied
    simpa using hoccupied

end Entry

/-! ## The walk -/

section Walk

variable {source target : Path} {origin goal : Location} {names : List Name} {s : Session}

/-- What the walk relies on is kept by whatever has been copied, and where it holds each step of the walk
only fails in one way. -/
structure WalkFails (P : Failure → Prop) (source target : Path) (origin goal : Location)
    (track : FileSystem → Prop) : Prop where
  course : ∀ fs, track fs → Course fs source target origin goal
  copied : ∀ fs fs' part, track fs → Copied origin goal part fs fs' → track fs'
  entries : ∀ (s : Session) names mode entries, track s.fs →
    s.fs.find? (origin ++ names) = some (.directory mode entries) → FailsOnly P (Copy.entries source names) s
  entry : ∀ (s : Session) init name e, track s.fs → s.fs.HasDirectory (goal ++ init) →
    s.fs.find? (origin ++ (init ++ [name])) = some e →
      FailsOnly P (copyEntry source target (init ++ [name]) e.kind) s
  /-- So does a walk that runs out of levels, if there is a directory so deep. -/
  depth : ∀ fs names e, track fs → fs.find? (origin ++ names) = some e →
    FileSystem.pathLimit ≤ names.length →
      P (.during (.readSource source) (.visit (entryPath source names) .nameTooLong))

namespace WalkFails

variable {P : Failure → Prop} {track : FileSystem → Prop}

/-- One turn of the loop only fails as the steps do. -/
theorem turn (h : WalkFails P source target origin goal track) {depth : Nat} {name : Name} {e : Entry}
    (htrack : track s.fs) (habove : s.fs.HasDirectory (goal ++ names))
    (he : s.fs.find? (origin ++ (names ++ [name])) = some e)
    (hbelow : ∀ t : Session, track t.fs → t.fs.HasDirectory (goal ++ (names ++ [name])) →
      t.fs.HasDirectory (origin ++ (names ++ [name])) →
        FailsOnly P (copyBelow source target depth (names ++ [name])) t) (before : CopyTotals) :
    FailsOnly P (do
      let here ← copyEntry source target (names ++ [name]) e.kind
      let below ←
        if e.kind = Entry.Kind.directory then copyBelow source target depth (names ++ [name])
        else pure .zero
      return before + here + below) s := by
  refine .bind (h.entry s names name e htrack habove he) fun here t hrun => ?_
  cases e with
  | file mode contents => exact .bind (.pure _) fun _ _ _ => .pure _
  | link link => exact .bind (.pure _) fun _ _ _ => .pure _
  | directory mode entries =>
    obtain ⟨-, hc, hmade⟩ :=
      (copyDirectory_ends (h.course _ htrack) habove ⟨mode, entries, he⟩).ok_of_run hrun
    have hkept : t.fs.HasDirectory (origin ++ (names ++ [name])) :=
      ⟨mode, entries, (hc.find?_source (names ++ [name])).trans he⟩
    exact .bind (hbelow t (h.copied _ _ _ htrack hc) hmade hkept) fun _ _ _ => .pure _

/-- The walk below a directory only fails as the steps do.  It is given one level less with each name. -/
theorem below (h : WalkFails P source target origin goal track) {depth : Nat}
    (hdepth : depth + names.length = FileSystem.pathLimit) (htrack : track s.fs)
    (habove : s.fs.HasDirectory (goal ++ names)) (hdirectory : s.fs.HasDirectory (origin ++ names)) :
    FailsOnly P (copyBelow source target depth names) s := by
  induction depth generalizing names s with
  | zero =>
    obtain ⟨mode, entries, he⟩ := hdirectory
    exact .throw (h.depth _ names _ htrack he (by omega))
  | succ depth ih =>
    obtain ⟨mode, entries, he⟩ := hdirectory
    rw [copyBelow]
    refine .bind (h.entries s names mode entries htrack he) fun es t hes => ?_
    have hcourse := h.course _ htrack
    obtain ⟨rfl, rfl, -⟩ := (entries_ends hcourse he).ok_of_run hes
    rw [List.foldlM_map]
    refine .foldlM (fun done u => Copied origin goal
      (fun b => ∃ p ∈ done, names ++ [p.1] <+: b) t.fs u.fs) (.noTurn t.fs) ?_
    rintro done ⟨name, e⟩ rest hentries before u hc
    have hmem : (name, e) ∈ entries := by rw [hentries]; simp
    have he' := (hc.find?_source _).trans (hcourse.find?_of_mem he hmem)
    have habove' := hc.touches.keeps.hasDirectory habove
    refine ⟨h.turn (h.copied _ _ _ htrack hc) habove' he' (fun v htrack' hmade hkept => ?_) before,
      fun after v hrun => ?_⟩
    · refine ih ?_ htrack' hmade hkept
      rw [List.length_append, List.length_singleton]
      omega
    · exact hc.turn ((copyTurn_ends (hcourse.copied hc) habove' he' (copyBelow_ends depth _)
        before).ok_of_run hrun).2.1

end WalkFails

/-- The walk below a directory only fails for a lack of permission: the path of the directory is too short
for the levels to run out. -/
theorem walkFails_of_track :
    WalkFails Failure.IsDenied source target origin goal (Track · source target origin goal) where
  course _ h := h.toCourse
  copied _ _ _ h hc := h.copied hc
  entries s names mode entries h he := entries_fails h he
  entry s init name e h habove he := by
    cases e with
    | file mode contents => exact copyFile_fails h habove he
    | link link => exact copyLink_fails h habove he
    | directory mode entries => exact copyDirectory_fails h habove he
  depth fs names e h he hdeep := by
    have hshort := h.storable.sourcePath names _ he
    have hnames : names.length ≤ (entryPath source names).bytes.length :=
      Track.length_le_entryPath (h.ordinary he)
    omega

end Walk

/-! ## The whole copy -/

/-- The source is a directory, and no link is in or on the way to the target, which is not in the source
and has not the source in it. -/
structure Apart (fs : FileSystem) (source target : Path) (origin goal : Location) : Prop where
  valid : fs.Valid
  sourceDirectory : ∃ mode entries, fs.lookup .itself source = .ok (.directory mode entries)
  origin_eq : fs.canonical source = .ok origin
  goal_eq : targetLocation fs target = .ok goal
  targetFree : fs.LinkFree target
  noTargetLink : ∀ below link, fs.find? (goal ++ below) ≠ some (.link link)
  targetDots : Path.dotDot ∉ target.segments
  /-- What is above the target is a directory, as far as there is anything. -/
  above : ∀ loc, loc <+: goal → loc ≠ goal → fs.find? loc = none ∨ fs.HasDirectory loc
  apart : ¬ origin <+: goal
  apart' : ¬ goal <+: origin

/-- What a copy leaves: the overlay in the target, and everything else as it was, but for directories that
were missing above the target. -/
structure Laid (origin goal : Location) (fs fs' : FileSystem) : Prop where
  overlaid : ∀ below, Overlaid origin goal fs fs' below
  outside : ∀ loc, ¬ goal <+: loc → fs'.view loc = fs.view loc ∨
    loc <+: goal ∧ fs.view loc = none ∧ fs'.view loc = some .emptyDirectory
  current_eq : fs'.current = fs.current

namespace Apart

variable {fs fs' : FileSystem} {source target : Path} {origin goal : Location} {totals : CopyTotals}

/-- The source is found by its path. -/
theorem treads (h : Apart fs source target origin goal) : ∃ mode entries,
    fs.lookup .itself source = .ok (.directory mode entries) ∧ fs.Treads source origin ∧
      fs.find? origin = some (.directory mode entries) := by
  obtain ⟨mode, entries, hlookup⟩ := h.sourceDirectory
  exact ⟨mode, entries, hlookup, FileSystem.treads_of_canonical h.valid h.origin_eq hlookup⟩

/-- The target is where its path says. -/
theorem spells (h : Apart fs source target origin goal) :
    fs.Anchored target ∧ fs.spelled target = goal := by
  obtain ⟨hanchored, hspelled⟩ := targetLocation_eq_ok h.valid h.targetFree h.goal_eq
  exact ⟨hanchored, hspelled.symm⟩

theorem madeAt (h : Apart fs source target origin goal) : fs.MadeAt target goal :=
  h.spells.2 ▸ h.targetFree.madeAt

/-- Only what is above the target is passed on its way. -/
theorem prefix_of_passes (h : Apart fs source target origin goal) (l : Location)
    (hl : fs.Passes target l) : l <+: goal :=
  h.spells.2 ▸ FileSystem.prefix_of_passes h.targetFree (Path.up_notMem_moves h.targetDots) hl

theorem harmless (h : Apart fs source target origin goal) : Harmless fs target origin := by
  obtain ⟨-, rfl⟩ := h.spells
  exact .of_apart h.targetFree (Path.up_notMem_moves h.targetDots) h.noTargetLink h.apart h.apart'

/-- Without a clash the target is a directory, or there is nothing yet. -/
theorem goal_cases (h : Apart fs source target origin goal) (hagrees : ¬ Clash fs origin goal []) :
    fs.find? goal = none ∨ fs.HasDirectory goal := by
  obtain ⟨mode, entries, -, -, hfind⟩ := h.treads
  cases hgoal : fs.find? goal with
  | none => exact Or.inl rfl
  | some old =>
    refine Or.inr ?_
    by_contra hfile
    refine hagrees ⟨.directory mode [], old.bare, ?_, ?_, fun heq => ?_⟩
    · rw [List.append_nil, FileSystem.view, hfind]
      rfl
    · rw [List.append_nil, FileSystem.view, hgoal]
      rfl
    · rw [Entry.isDirectory_bare] at heq
      obtain ⟨m, es, rfl⟩ := Entry.isDirectory_iff.mp heq.symm
      exact hfile ⟨m, es, hgoal⟩

/-- The directory of the target can be made. -/
theorem makeable (h : Apart fs source target origin goal) (hstorable : Storable fs source target origin)
    (hagrees : ¬ Clash fs origin goal []) : fs.Makeable (target.join (.ofNames [])) := by
  obtain ⟨hanchored, hspelled⟩ := h.spells
  have hgoesOn : target.GoesOn [] (target.join (.ofNames [])) := .join target (by simp)
  have hup := Path.up_notMem_moves h.targetDots
  refine FileSystem.Makeable.of_prefix (p := target) ⟨hanchored, hup, hstorable.targetName, ?_⟩
    hgoesOn.isAbsolute_eq (by rw [hgoesOn.moves_eq]; simp)
  intro way hway
  have hprefix : way.foldl Step.move (fs.beginning target) <+: goal :=
    hspelled ▸ Step.foldl_move_mono hup hway _
  by_cases heq : way.foldl Step.move (fs.beginning target) = goal
  · rw [heq]
    exact h.goal_cases hagrees
  · exact h.above _ hprefix heq

/-- When the directory of the target has been made, nothing is in the way of the copy. -/
theorem track (h : Apart fs source target origin goal) (hstorable : Storable fs source target origin)
    (hagrees : ∀ below, ¬ Clash fs origin goal below)
    (hmakes : Makes (fs.Passes (target.join (.ofNames []))) fs fs')
    (harrives : fs'.Arrives (target.join (.ofNames []))) : Track fs' source target origin goal := by
  obtain ⟨mode, entries, hlookup, htreads, hfind⟩ := h.treads
  have hdirectory : fs.HasDirectory origin := ⟨mode, entries, hfind⟩
  obtain ⟨goal', hmakes', hmadeAt, hcourse⟩ := Course.exists_of_arrives h.valid h.harmless
    htreads.anchored htreads.reaches hdirectory h.spells.1 hmakes harrives
  obtain rfl := hmadeAt.eq h.madeAt
  have hsame := Makes.find?_source h.harmless hmakes'
  refine ⟨hcourse, FileSystem.askable_of_lookup hlookup,
    htreads.keeps hmakes'.touches.keeps hdirectory, ?_, Path.up_notMem_moves h.targetDots,
    hstorable.of_find?_eq hsame, fun below => ?_⟩
  · rw [FileSystem.spelled, hmakes'.touches.keeps.beginning_eq]
    exact h.spells.2
  · rintro ⟨e, old, he, hold, hne⟩
    by_cases hbelow : below = []
    · -- both are directories now
      subst hbelow
      obtain ⟨m, hm⟩ := FileSystem.hasDirectory_iff_view.mp hcourse.sourceDirectory
      obtain ⟨m', hm'⟩ := FileSystem.hasDirectory_iff_view.mp hcourse.targetDirectory
      rw [List.append_nil, hm] at he
      rw [List.append_nil, hm'] at hold
      rw [← Option.some.inj he, ← Option.some.inj hold] at hne
      exact hne rfl
    · rw [FileSystem.view, hsame] at he
      rw [Makes.view_below hmakes' h.prefix_of_passes hbelow] at hold
      exact hagrees below ⟨e, old, he, hold, hne⟩

/-- A copy that succeeds leaves the overlay. -/
theorem laid (h : Apart fs source target origin goal)
    (hcompleted : Completed source target origin goal fs fs' totals) : Laid origin goal fs fs' where
  overlaid below := (hcompleted.overlaid h.prefix_of_passes below).1
  outside loc hloc := by
    obtain ⟨between, hmakes, -, -, hcopied⟩ := hcompleted.between
    have hlater : fs'.view loc = between.view loc := hcopied.touches.view_eq loc fun hl => by
      obtain ⟨below, e, -, -, rfl, -⟩ := hl
      exact hloc (List.prefix_append goal below)
    rw [hlater]
    rcases hmakes.view_eq loc with heq | ⟨hnone, hempty⟩
    · exact Or.inl heq
    · refine Or.inr ⟨h.prefix_of_passes loc ?_, hnone, hempty⟩
      -- a place that is not passed is as it was
      by_contra hpasses
      rw [hmakes.touches.view_eq loc fun hl => hpasses hl.1, hnone] at hempty
      cases hempty
  current_eq := (hcompleted.touches h.prefix_of_passes).keeps.current_eq

end Apart

section Whole

variable {source target : Path} {origin goal : Location} {s : Session}

/-- The walk fails only as the making of the target does, or as the walk below the source does when the
target has been made. -/
theorem Apart.failsOnly_walk {P : Failure → Prop} (h : Apart s.fs source target origin goal)
    (hmake : FailsOnly P (copyEntry source target [] .directory) s)
    (hbelow : ∀ t : Session, Makes (s.fs.Passes (target.join (.ofNames []))) s.fs t.fs →
      t.fs.Arrives (target.join (.ofNames [])) →
      FailsOnly P (copyBelow source target FileSystem.pathLimit []) t) :
    FailsOnly P (walk source target) s := by
  obtain ⟨mode, entries, hlookup, -, hfind⟩ := h.treads
  have hgoesOn : target.GoesOn [] (target.join (.ofNames [])) := .join target (by simp)
  have hanchored := h.spells.1.of_isAbsolute_eq hgoesOn.isAbsolute_eq
  have hisDirectory : s.fs.isDirectory source = true := by
    rw [FileSystem.isDirectory, FileSystem.lookup_target_of_itself hlookup]
    rfl
  have htop : Action.attempt (.readSource source)
      ((s.fs.lookup .itself source).mapError (.visit source)) s = (.ok (.directory mode entries), s) := by
    rw [hlookup]
    rfl
  rw [walk]
  refine .bind_of_ok (Action.fileSystem_eq_ok s) (.bind_of_ok htop (.bind hmake fun here t hrun => ?_))
  rw [Entry.kind, copyEntry] at hrun
  obtain ⟨⟨⟩, u, hchange, hpure⟩ := exists_of_bind_run hrun
  obtain ⟨-, rfl⟩ := eq_of_pure_run hpure
  obtain ⟨hmakes, harrives⟩ := (FileSystem.createDirectories_ends h.valid.current hanchored).ok_of_run
    (Action.change_run hchange)
  rw [if_pos hisDirectory]
  exact .bind (hbelow u hmakes harrives) fun _ _ _ => .pure _

/-- A copy fails only as its walk does. -/
theorem Apart.failsOnly_copyTree {P : Failure → Prop} (h : Apart s.fs source target origin goal)
    (hwalk : ∀ t : Session, t.fs = s.fs → FailsOnly P (walk source target) t) :
    FailsOnly P (copyTree source target) s := by
  rw [copyTree]
  refine .bind Action.failsOnly_tell fun _ t htell => ?_
  have ht := Action.tell_run htell
  refine .bind_of_ok (Action.ask_eq_ok (·.canonical source) (ht ▸ h.origin_eq)) ?_
  refine .bind_of_ok (Action.ask_eq_ok (targetLocation · target) (ht ▸ h.goal_eq)) ?_
  rw [if_neg (by rw [List.isPrefixOf_iff_prefix]; exact h.apart)]
  exact .bind (hwalk t ht) fun totals u _ => .bind Action.failsOnly_tell fun _ _ _ => .pure _

theorem walk_fails (h : Apart s.fs source target origin goal)
    (hstorable : Storable s.fs source target origin)
    (hlast : s.fs.find? goal = none → target.lastName? ≠ none)
    (hagrees : ∀ below, ¬ Clash s.fs origin goal below) :
    FailsOnly Failure.IsDenied (walk source target) s := by
  obtain ⟨mode, entries, -, -, hfind⟩ := h.treads
  have hspelled := h.spells.2
  have hgoesOn : target.GoesOn [] (target.join (.ofNames [])) := .join target (by simp)
  have hmoves : (target.join (.ofNames [])).moves = target.moves := by
    rw [hgoesOn.moves_eq, List.map_nil, List.append_nil]
  have hmakeable := h.makeable hstorable (hagrees [])
  refine h.failsOnly_walk ?_ fun t hmakes harrives => ?_
  · rw [copyEntry]
    refine .bind (change_fails ?_) fun _ _ _ => .pure _
    refine FileSystem.createDirectories_fails h.valid.current (h.valid.hasDirectory_beginning _) hmakeable
      (fun hne => Track.askable_destination hstorable (by simp) (by rwa [List.append_nil]) hne) ?_
    rw [FileSystem.spelled_of_goesOn hgoesOn, hspelled, List.append_nil, hmoves]
    refine (h.goal_cases (hagrees [])).symm.imp_right fun hnone => ?_
    have hname := hlast hnone
    rw [Path.lastName?] at hname
    split at hname
    · rename_i name hmove
      exact ⟨_, name, (List.dropLast_append_getLast? _ hmove).symm⟩
    · exact absurd rfl hname
  · have htrack := h.track hstorable hagrees hmakes harrives
    have hkept := Makes.find?_source h.harmless
      (hmakes.mono fun l hl _ => (passes_top target).mp hl) []
    refine walkFails_of_track.below rfl htrack ?_ ⟨mode, entries, hkept.trans ?_⟩
    · rw [List.append_nil]
      exact htrack.targetDirectory
    · rwa [List.append_nil]

/-- Without a clash a copy only fails for a lack of permission. -/
theorem copyTree_fails (h : Apart s.fs source target origin goal)
    (hstorable : Storable s.fs source target origin)
    (hlast : s.fs.find? goal = none → target.lastName? ≠ none)
    (hagrees : ∀ below, ¬ Clash s.fs origin goal below) :
    FailsOnly Failure.IsDenied (copyTree source target) s := by
  refine h.failsOnly_copyTree fun t ht => ?_
  rw [← ht] at h hstorable hlast hagrees
  exact walk_fails h hstorable hlast hagrees

/-- A copy that succeeds is complete. -/
theorem Apart.completed (h : Apart s.fs source target origin goal) {totals : CopyTotals} {t : Session}
    (hrun : copyTree source target s = (.ok totals, t)) :
    Completed source target origin goal s.fs t.fs totals := by
  obtain ⟨mode, entries, -, htreads, hfind⟩ := h.treads
  obtain ⟨-, made, hcompleted⟩ := (copyTree_ends h.valid (fun _ => htreads.reaches.madeAt)
    ⟨mode, entries, hfind⟩ fun _ => h.harmless).ok_of_run hrun
  obtain rfl := hcompleted.madeAt.eq h.madeAt
  exact hcompleted

/-- If no permission is denied, a copy succeeds exactly if the two trees do not clash, and then it leaves
the overlay and counts the entries of the source. -/
theorem copyTree_exact (h : Apart s.fs source target origin goal)
    (hstorable : Storable s.fs source target origin)
    (hlast : s.fs.find? goal = none → target.lastName? ≠ none)
    (hpermitted : ∀ failure t, copyTree source target s = (.error failure, t) → ¬ failure.IsDenied) :
    ((∃ totals t, copyTree source target s = (.ok totals, t)) ↔
        ∀ below, ¬ Clash s.fs origin goal below) ∧
      ∀ totals t, copyTree source target s = (.ok totals, t) →
        Laid origin goal s.fs t.fs ∧ ∃ e, s.fs.find? origin = some e ∧ totals = e.census := by
  refine ⟨⟨?_, fun hagrees => ?_⟩, fun totals t hrun => ?_⟩
  · rintro ⟨totals, t, hrun⟩ below
    exact ((h.completed hrun).overlaid h.prefix_of_passes below).2
  · cases hrun : copyTree source target s with
    | mk result t =>
      cases result with
      | ok totals => exact ⟨totals, t, rfl⟩
      | error failure =>
        exact absurd (copyTree_fails h hstorable hlast hagrees failure t hrun) (hpermitted failure t hrun)
  · exact ⟨h.laid (h.completed hrun), (h.completed hrun).totals_eq⟩

end Whole

/-! ## Samples -/

/-- A source with a file and a link in it, and a target that has a file of the same name. -/
def sampleTrees : FileSystem where
  root := .directory .full [
    (Utf8.encode "from", .directory .full [
      (Utf8.encode "a.ts", .file .plain [0x78]), (Utf8.encode "b.ts", .link (.ofText "a.ts"))]),
    (Utf8.encode "to", .directory .full [(Utf8.encode "a.ts", .file .plain [])])]
  current := .ofLocation []

/-- The places of the source. -/
theorem names_sampleTrees {names : List Name} {e : Entry}
    (h : sampleTrees.find? ([Utf8.encode "from"] ++ names) = some e) :
    names ∈ [[], [Utf8.encode "a.ts"], [Utf8.encode "b.ts"]] := by
  cases names with
  | nil => simp
  | cons name rest =>
    obtain ⟨x, hlookup, hx⟩ := Option.bind_eq_some_iff.mp h
    have hmem := Entry.mem_of_lookup hlookup
    simp only [List.mem_cons, Prod.mk.injEq, List.not_mem_nil, or_false] at hmem
    obtain rfl : rest = [] := by
      rcases hmem with ⟨-, rfl⟩ | ⟨-, rfl⟩
      · cases rest with
        | nil => rfl
        | cons n rest => cases hx
      · cases rest with
        | nil => rfl
        | cons n rest => cases hx
    rcases hmem with ⟨rfl, -⟩ | ⟨rfl, -⟩ <;> simp

theorem storable_sampleTrees :
    Storable sampleTrees (.ofText "from") (.ofText "to") [Utf8.encode "from"] := by
  have hall : ∀ names ∈ [[], [Utf8.encode "a.ts"], [Utf8.encode "b.ts"]],
      (∀ name ∈ names, name.length ≤ FileSystem.nameLimit) ∧
        (entryPath (.ofText "from") names).bytes.length < FileSystem.pathLimit ∧
          (Path.join (.ofText "to") (.ofNames names)).bytes.length < FileSystem.pathLimit := by
    decide
  refine ⟨fun names e he => (hall names (names_sampleTrees he)).1,
    fun names e he => (hall names (names_sampleTrees he)).2.1, fun name hname => ?_,
    fun names e he => (hall names (names_sampleTrees he)).2.2, by decide, fun names link he => ?_⟩
  · have hmoves : Path.moves (.ofText "to") = [.down (Utf8.encode "to")] := by decide
    rw [hmoves, List.mem_singleton] at hname
    rw [Step.down.inj hname]
    decide
  · have hnames := names_sampleTrees he
    simp only [List.mem_cons, List.not_mem_nil, or_false] at hnames
    rcases hnames with rfl | rfl | rfl
    · cases he
    · cases he
    · cases he
      exact ⟨by decide, by decide⟩

/-- The only link is in the source. -/
theorem link_sampleTrees {loc : Location} {link : Path}
    (h : sampleTrees.find? loc = some (.link link)) : [Utf8.encode "from"] <+: loc := by
  cases loc with
  | nil => cases h
  | cons name rest =>
    obtain ⟨x, hlookup, hx⟩ := Option.bind_eq_some_iff.mp h
    have hmem := Entry.mem_of_lookup hlookup
    simp only [List.mem_cons, Prod.mk.injEq, List.not_mem_nil, or_false] at hmem
    rcases hmem with ⟨rfl, -⟩ | ⟨-, rfl⟩
    · exact List.prefix_append _ rest
    · cases rest with
      | nil => cases hx
      | cons name rest =>
        obtain ⟨x, hlookup, hx⟩ := Option.bind_eq_some_iff.mp hx
        have hmem := Entry.mem_of_lookup hlookup
        simp only [List.mem_cons, Prod.mk.injEq, List.not_mem_nil, or_false] at hmem
        rw [hmem.2] at hx
        cases rest <;> cases hx

theorem apart_sampleTrees {target : Path} {goal : Location}
    (hgoal : targetLocation sampleTrees target = .ok goal) (hup : Step.up ∉ target.moves)
    (hdots : Path.dotDot ∉ target.segments) (hspelled : sampleTrees.spelled target = goal)
    (habove : goal.length = 1) (houtside : ¬ [Utf8.encode "from"] <+: goal)
    (houtside' : ¬ goal <+: [Utf8.encode "from"]) :
    Apart sampleTrees (.ofText "from") target [Utf8.encode "from"] goal where
  valid := ⟨by decide, _, _, rfl⟩
  sourceDirectory := ⟨_, _, rfl⟩
  origin_eq := by rfl
  goal_eq := hgoal
  targetFree way hway link hlink :=
    houtside (hspelled ▸ (link_sampleTrees hlink).trans (Step.foldl_move_mono hup hway _))
  noTargetLink below link hlink := by
    rcases List.prefix_or_prefix_of_prefix (link_sampleTrees hlink) (List.prefix_append goal below) with h | h
    · exact houtside h
    · exact houtside' h
  targetDots := hdots
  above loc hloc hne := by
    refine Or.inr ?_
    obtain rfl : loc = [] := by
      have hlength := hloc.length_le
      have hlt : loc.length ≠ goal.length := fun heq => hne (hloc.eq_of_length heq)
      exact List.length_eq_zero_iff.mp (by omega)
    exact ⟨_, _, rfl⟩
  apart := houtside
  apart' := houtside'

/-- The copy of the sample succeeds and leaves the overlay. -/
theorem copyTree_exact_sampleTrees :
    ∃ totals t, copyTree (.ofText "from") (.ofText "to") (.fresh sampleTrees) = (.ok totals, t) ∧
      Laid [Utf8.encode "from"] [Utf8.encode "to"] sampleTrees t.fs ∧
      ∃ e, sampleTrees.find? [Utf8.encode "from"] = some e ∧ totals = e.census := by
  obtain ⟨totals, t, hrun⟩ := exists_of_isOk_run
    (x := copyTree (.ofText "from") (.ofText "to")) (s := .fresh sampleTrees) (by decide +kernel)
  have hapart : Apart sampleTrees (.ofText "from") (.ofText "to") [Utf8.encode "from"] [Utf8.encode "to"] :=
    apart_sampleTrees (by rfl) (by decide) (by decide) (by decide) rfl (by decide) (by decide)
  refine ⟨totals, t, hrun, (copyTree_exact (s := .fresh sampleTrees) hapart storable_sampleTrees
    (fun _ => by decide) fun failure u hfails => ?_).2 totals t hrun⟩
  rw [hrun] at hfails
  cases (Prod.mk.inj hfails).1

/-- A copy of the sample fails although the trees do not clash, and for no lack of permission. -/
def Thwarted (target : Path) : Prop :=
  ∃ goal, Apart sampleTrees (.ofText "from") target [Utf8.encode "from"] goal ∧
    (∀ below, ¬ Clash sampleTrees [Utf8.encode "from"] goal below) ∧
    ∃ failure t, copyTree (.ofText "from") target (.fresh sampleTrees) = (.error failure, t) ∧
      ¬ failure.IsDenied

/-- A target that is missing and spells one name is thwarted by a fault of another sort. -/
theorem thwarted_of_fault {target : Path} (name : Name) (fault : Fault)
    (hgoal : targetLocation sampleTrees target = .ok [name]) (hup : Step.up ∉ target.moves)
    (hdots : Path.dotDot ∉ target.segments) (hspelled : sampleTrees.spelled target = [name])
    (hnew : sampleTrees.find? [name] = none) (hne : Utf8.encode "from" ≠ name)
    (hrun : (match (copyTree (.ofText "from") target (.fresh sampleTrees)).1 with
      | .ok _ => none
      | .error failure => failure.fault?) = some fault) (hfault : fault ≠ .denied) : Thwarted target := by
  refine ⟨[name], apart_sampleTrees hgoal hup hdots hspelled rfl ?_ ?_, ?_, ?_⟩
  · simpa using hne
  · simpa using hne.symm
  · rintro below ⟨e, old, -, hold, -⟩
    have hnone : sampleTrees.find? ([name] ++ below) = none := by
      rw [FileSystem.find?] at hnew
      rw [FileSystem.find?, Entry.find?_append, hnew]
      rfl
    rw [FileSystem.view, hnone] at hold
    cases hold
  · cases hcopy : copyTree (.ofText "from") target (.fresh sampleTrees) with
    | mk result t =>
      rw [hcopy] at hrun
      cases result with
      | ok totals => cases hrun
      | error failure =>
        refine ⟨failure, t, rfl, fun hdenied => hfault ?_⟩
        exact Option.some.inj (hrun.symm.trans hdenied)

/-- A path to `new` that is too long. -/
def longPath : Text := (List.replicate 2047 "./".toList).flatten ++ "new"

/-- Targets that the system does not take: one that is missing and ends in a dot, for which the directories
above are not made, a name that is too long, one with a zero byte, and a path that is too long. -/
theorem copyTree_thwarted :
    Thwarted (.ofText "new/.") ∧ Thwarted (.ofNames [List.replicate 256 0x61]) ∧
      Thwarted (.ofNames [[0]]) ∧ Thwarted (.ofText longPath) := by
  have hdot : Thwarted (.ofText "new/.") := thwarted_of_fault (Utf8.encode "new") .missing
    (by rfl) (by decide) (by decide) (by decide) rfl (by decide) (by decide +kernel)
    (by decide)
  have hname : Thwarted (.ofNames [List.replicate 256 0x61]) := thwarted_of_fault
    (List.replicate 256 0x61) .nameTooLong (by decide +kernel) (by decide +kernel)
    (by decide +kernel) (by decide +kernel) rfl (by decide) (by decide +kernel) (by decide)
  have hzero : Thwarted (.ofNames [[0]]) := thwarted_of_fault [0] .zeroByte
    (by rfl) (by decide) (by decide) (by decide) rfl (by decide) (by decide +kernel) (by decide)
  have hlong : Thwarted (.ofText longPath) := thwarted_of_fault (Utf8.encode "new")
    .nameTooLong (by decide +kernel) (by decide +kernel) (by decide +kernel)
    (by decide +kernel) rfl (by decide) (by decide +kernel) (by decide)
  exact ⟨hdot, hname, hzero, hlong⟩

end Copy

end FileRoutes
