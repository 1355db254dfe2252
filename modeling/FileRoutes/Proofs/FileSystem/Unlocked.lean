import FileRoutes.Proofs.FileSystem.Repetition

/-!
# Where nothing is locked

If directories may be listed, changed and searched, and files read and written, then nothing is refused for
a lack of permission: no question is answered by that (`Granted`), and no change fails with it.

What is made comes without a lock, so this stays so while directories are made and entries are removed
(`Adds.unlocked`, `Makes.unlocked`, `Clears.unlocked`).

A directory that can be asked for by its location is found there, since nothing on the way stops the
system, and its canonical location is the one it is at (`canonical_ofLocation`).
-/

namespace FileRoutes

/-- Nothing is forbidden about the entry itself. -/
def Entry.IsUnlocked : Entry → Prop
  | .file mode _ => mode.read = true ∧ mode.write = true
  | .link _ => True
  | .directory mode _ => mode = .full

instance : DecidablePred Entry.IsUnlocked
  | .file _ _ => inferInstanceAs (Decidable (_ ∧ _))
  | .link _ => inferInstanceAs (Decidable True)
  | .directory mode _ => inferInstanceAs (Decidable (mode = .full))

theorem Entry.isUnlocked_bare {e : Entry} : e.bare.IsUnlocked ↔ e.IsUnlocked := by
  cases e <;> rfl

/-- An ordinary name is a component. -/
theorem Name.Ordinary.not_isFiller {name : Name} (h : name.Ordinary) : ¬ Path.isFiller name = true := by
  simp [Path.isFiller, h.ne_nil, h.ne_dot]

namespace FileSystem

/-- Nothing is locked. -/
def Unlocked (fs : FileSystem) : Prop := ∀ loc e, fs.view loc = some e → e.IsUnlocked

variable {fs fs' : FileSystem} {p : Path} {loc : Location} {mode : Mode} {purpose : Purpose}

namespace Unlocked

theorem of_everything (h : ∀ q ∈ fs.root.everything, q.2.IsUnlocked) : fs.Unlocked := by
  intro loc e he
  obtain ⟨x, hx, rfl⟩ := Option.map_eq_some_iff.mp he
  exact Entry.isUnlocked_bare.mpr (h _ (Entry.mem_everything hx))

theorem directory (h : fs.Unlocked) {entries : List (Name × Entry)}
    (hfind : fs.find? loc = some (.directory mode entries)) : mode = .full :=
  h loc (.directory mode []) (view_eq_directory_iff.mpr ⟨entries, hfind⟩)

theorem file (h : fs.Unlocked) {contents : Bytes} (hfind : fs.find? loc = some (.file mode contents)) :
    mode.read = true ∧ mode.write = true :=
  h loc (.file mode contents) (view_eq_file_iff.mpr hfind)

end Unlocked

/-- Empty directories that are made are not locked. -/
theorem Unlocked.of_view_eq (h : fs.Unlocked)
    (hview : ∀ loc, fs'.view loc = fs.view loc ∨ fs'.view loc = some .emptyDirectory) : fs'.Unlocked := by
  intro loc e he
  rcases hview loc with hsame | hempty
  · exact h loc e (hsame ▸ he)
  · rw [hempty] at he
    rw [← Option.some.inj he]
    rfl

theorem Adds.unlocked {paths : List Path} (h : Adds paths fs fs') (hfs : fs.Unlocked) : fs'.Unlocked :=
  hfs.of_view_eq fun loc => (h.view_eq loc).imp_right fun hmade => hmade.2.1

theorem Makes.unlocked {places : Location → Prop} (h : Makes places fs fs') (hfs : fs.Unlocked) :
    fs'.Unlocked :=
  hfs.of_view_eq fun loc => (h.view_eq loc).imp_right And.right

theorem Clears.unlocked (h : Clears loc fs fs') (hfs : fs.Unlocked) : fs'.Unlocked := by
  intro l e he
  rw [h.view_eq] at he
  split at he
  · cases he
  · exact hfs l e he

/-! ## Questions -/

/-- The answer is not that a permission is denied. -/
def Granted {α : Type} (answer : Except Fault α) : Prop := ∀ fault, answer = .error fault → fault ≠ .denied

namespace Granted

variable {α β : Type} {answer : Except Fault α}

theorem ok (a : α) : Granted (.ok a) := fun _ heq => by cases heq

theorem error {fault : Fault} (h : fault ≠ .denied) : Granted (.error fault : Except Fault α) :=
  fun _ heq => Except.error.inj heq ▸ h

theorem bind {f : α → Except Fault β} (h : Granted answer) (hf : ∀ a, answer = .ok a → Granted (f a)) :
    Granted (answer >>= f) := by
  cases answer with
  | ok a => exact hf a rfl
  | error fault => exact error (h fault rfl)

end Granted

theorem directoryAt_granted (fs : FileSystem) (loc : Location) : Granted (fs.directoryAt loc) := by
  rw [directoryAt]
  split
  · exact .ok _
  · exact .error (by decide)

theorem mode_eq_of_directoryAt (h : fs.Unlocked) {entries : List (Name × Entry)}
    (hdirectory : fs.directoryAt loc = .ok (mode, entries)) : mode = .full := by
  rw [directoryAt] at hdirectory
  split at hdirectory
  · rename_i hfind
    rw [← (Prod.mk.inj (Except.ok.inj hdirectory)).1]
    exact h.directory hfind
  · cases hdirectory

theorem directoryOf_granted (fs : FileSystem) (spot : Spot) : Granted (fs.directoryOf spot) := by
  rw [directoryOf]
  split
  · exact directoryAt_granted fs _
  · exact .ok _

theorem searchable_granted (h : fs.Unlocked) (spot : Spot) : Granted (fs.searchable spot) := by
  rw [searchable]
  refine (directoryOf_granted fs spot).bind fun found hdirectory => ?_
  obtain ⟨mode, entries⟩ := found
  have hmode : mode = .full := by
    rw [directoryOf] at hdirectory
    split at hdirectory
    · exact mode_eq_of_directoryAt h hdirectory
    · exact (Prod.mk.inj (Except.ok.inj hdirectory)).1.symm
  rw [hmode]
  exact .ok _

theorem walk_granted (h : fs.Unlocked) {jump : Location → Path → List Step → Except Fault Place}
    (hjump : ∀ loc target rest, Granted (jump loc target rest)) (spot : Spot) (steps : List Step) :
    Granted (fs.walk purpose jump spot steps) := by
  induction steps generalizing spot with
  | nil =>
    rw [walk]
    exact .ok _
  | cons step rest ih =>
    cases step with
    | settle =>
      rw [walk]
      exact (directoryOf_granted fs spot).bind fun _ _ => ih spot
    | stay =>
      rw [walk]
      exact (searchable_granted h spot).bind fun _ _ => ih spot
    | up =>
      rw [walk]
      exact (searchable_granted h spot).bind fun _ _ => ih spot.above
    | down name =>
      rw [walk]
      refine (searchable_granted h spot).bind fun entries _ => ?_
      simp only
      split
      · exact .error (by decide)
      split
      · exact .error (by decide)
      split
      · exact .error (by decide)
      split
      · split
        · exact .ok _
        · exact .error (by decide)
      · split
        · exact .ok _
        · exact hjump _ _ _
      · exact ih _

theorem follow_granted (h : fs.Unlocked) (links : Nat) (spot : Spot) (steps : List Step) :
    Granted (fs.follow purpose links spot steps) := by
  induction links generalizing spot steps with
  | zero =>
    rw [follow]
    exact walk_granted h (fun _ _ _ => .error (by decide)) spot steps
  | succ links ih =>
    rw [follow]
    exact walk_granted h (fun _ _ _ => ih _ _) spot steps

theorem start_granted (fs : FileSystem) (p : Path) : Granted (fs.start p) := by
  rw [start]
  split
  · exact .error (by decide)
  split
  · exact .error (by decide)
  split
  · exact .error (by decide)
  · exact .ok _

theorem resolve_granted (h : fs.Unlocked) (p : Path) : Granted (fs.resolve purpose p) :=
  (start_granted fs p).bind fun _ _ => follow_granted h _ _ _

theorem locate_granted (h : fs.Unlocked) (p : Path) : Granted (fs.locate purpose p) := by
  refine (resolve_granted h p).bind fun place _ => ?_
  cases place with
  | entry loc => exact .ok loc
  | gap directory name => exact .error (by decide)
  | removed => exact .error (by decide)

theorem lookup_granted (h : fs.Unlocked) (p : Path) : Granted (fs.lookup purpose p) := by
  refine (resolve_granted h p).bind fun place _ => ?_
  cases place with
  | entry loc =>
    simp only
    split
    · exact .ok _
    · exact .error (by decide)
  | gap directory name => exact .error (by decide)
  | removed => exact .ok _

/-- What is looked up is not locked. -/
theorem Unlocked.lookup (h : fs.Unlocked) {e : Entry} (he : fs.lookup purpose p = .ok e) :
    e.bare.IsUnlocked := by
  obtain ⟨place, -, hplace⟩ := exists_of_bind_eq_ok he
  cases place with
  | entry loc =>
    simp only at hplace
    split at hplace
    · rename_i hfind
      refine h loc _ ?_
      rw [view, hfind, ← Except.ok.inj hplace]
      rfl
    · cases hplace
  | gap directory name => cases hplace
  | removed =>
    rw [← Except.ok.inj hplace]
    rfl

theorem readLink_granted (h : fs.Unlocked) (p : Path) : Granted (fs.readLink p) := by
  refine (lookup_granted h p).bind fun e _ => ?_
  cases e with
  | link target => exact .ok target
  | file mode contents => exact .error (by decide)
  | directory mode entries => exact .error (by decide)

theorem list_granted (h : fs.Unlocked) (p : Path) : Granted (fs.list p) := by
  refine (lookup_granted h p).bind fun e he => ?_
  cases e with
  | directory mode entries =>
    have hmode : mode = .full := h.lookup he
    rw [hmode]
    exact .ok _
  | file mode contents => exact .error (by decide)
  | link target => exact .error (by decide)

/-- The last name of a path is looked up, if at all, in a directory that is not locked. -/
theorem slot_granted (h : fs.Unlocked) (p : Path) :
    Granted (fs.slot p) ∧ ∀ slot, fs.slot p = .ok slot → slot.mode = .full := by
  rw [slot]
  obtain ⟨before, last?, slashed⟩ := splitLast p.steps
  constructor
  · refine (start_granted fs p).bind fun spot _ => (follow_granted h _ _ _).bind fun place _ => ?_
    cases place with
    | gap directory name => exact .error (by decide)
    | removed => rcases last? with _ | (_ | _ | _ | _) <;> first | exact .ok _ | exact .error (by decide)
    | entry directory =>
      refine (directoryAt_granted fs directory).bind fun found hdirectory => ?_
      obtain ⟨mode, entries⟩ := found
      rw [mode_eq_of_directoryAt h hdirectory]
      rcases last? with _ | (_ | _ | _ | _) <;> exact .ok _
  · intro slot heq
    obtain ⟨spot, -, heq⟩ := exists_of_bind_eq_ok heq
    obtain ⟨place, -, heq⟩ := exists_of_bind_eq_ok heq
    cases place with
    | gap directory name => cases heq
    | removed =>
      rcases last? with _ | (_ | _ | _ | _)
      all_goals
        cases heq
        try rfl
    | entry directory =>
      obtain ⟨⟨mode, entries⟩, hdirectory, heq⟩ := exists_of_bind_eq_ok heq
      rw [mode_eq_of_directoryAt h hdirectory] at heq
      rcases last? with _ | (_ | _ | _ | _)
      all_goals
        cases heq
        rfl

/-! ## Changes -/

section Changes

variable {α : Type}

theorem failsOnly_ask {question : FileSystem → Except Fault α} (h : Granted (question fs)) :
    FailsOnly (· ≠ .denied) (ask question) fs :=
  fun fault _ hrun => h fault (Prod.mk.inj hrun).1

theorem createDirectory_granted (h : fs.Unlocked) : FailsOnly (· ≠ .denied) (createDirectory p) fs := by
  obtain ⟨hslot, hmode⟩ := slot_granted h p
  rw [createDirectory]
  refine .bind (failsOnly_ask hslot) fun slot t hask => ?_
  obtain ⟨heq, rfl⟩ := ask_run hask
  cases slot.name? with
  | none => exact .throw (by decide)
  | some name =>
    refine failsOnly_guard (fun _ => by decide) fun _ => failsOnly_bind_now ?_
    refine failsOnly_guard (fun _ => by decide) fun _ => failsOnly_guard (fun hwrite => ?_) fun _ => failsOnly_putAt
    rw [hmode slot heq] at hwrite
    cases hwrite

theorem unlessDirectory_granted {fault : Fault} (hfault : fault ≠ .denied) :
    FailsOnly (· ≠ .denied) (unlessDirectory p fault) fs :=
  unlessDirectory_fails (Or.inr hfault)

theorem createChain_granted {paths : List Path} (h : fs.Unlocked) :
    FailsOnly (· ≠ .denied) (createChain paths) fs := by
  induction paths generalizing fs with
  | nil => exact .throw (by decide)
  | cons p above ih =>
    rw [createChain]
    split
    · exact .pure ()
    refine .tryCatch fun fault t hrun => ?_
    obtain rfl := createDirectory_error hrun
    have hfault := createDirectory_granted h fault _ hrun
    split
    · refine .bind (ih h) fun _ u hmade => .tryCatch fun fault' v hrun' => ?_
      have hu := (createChain_adds above).ok_of_run hmade
      exact unlessDirectory_granted (createDirectory_granted (hu.1.unlocked h) fault' v hrun')
    · exact unlessDirectory_granted hfault

theorem createDirectories_granted (h : fs.Unlocked) : FailsOnly (· ≠ .denied) (createDirectories p) fs :=
  createChain_granted h

theorem openForWriting_granted (h : fs.Unlocked) : FailsOnly (· ≠ .denied) (openForWriting p) fs := by
  rw [openForWriting]
  refine failsOnly_bind_now (.bind (failsOnly_ask (resolve_granted h p)) fun place t hask => ?_)
  obtain ⟨-, rfl⟩ := ask_run hask
  cases place with
  | removed => exact .throw (by decide)
  | entry loc =>
    simp only
    split
    · rename_i hfile
      refine failsOnly_guard (fun hwrite => ?_) fun _ => .bind failsOnly_putAt fun _ _ _ => .pure _
      rw [(h.file hfile).2] at hwrite
      cases hwrite
    · exact .throw (by decide)
  | gap directory name =>
    refine .bind (failsOnly_ask (directoryAt_granted fs directory)) fun found t hask => ?_
    obtain ⟨mode, entries⟩ := found
    obtain ⟨hdirectory, rfl⟩ := ask_run hask
    refine failsOnly_guard (fun hwrite => ?_) fun _ => .bind failsOnly_putAt fun _ _ _ => .pure _
    rw [mode_eq_of_directoryAt h hdirectory] at hwrite
    cases hwrite

theorem copyFile_granted (h : fs.Unlocked) (source : Path) :
    FailsOnly (· ≠ .denied) (copyFile source p) fs := by
  rw [copyFile]
  refine .bind (failsOnly_ask (lookup_granted h source)) fun e t hask => ?_
  obtain ⟨hlookup, rfl⟩ := ask_run hask
  have he := h.lookup hlookup
  cases e with
  | link target => exact .bind (.throw (by decide)) fun _ _ hrun => (not_throw_run hrun).elim
  | directory mode entries =>
    have hmode : mode = .full := he
    rw [hmode]
    exact .bind (.throw (by decide)) fun _ _ hrun => (not_throw_run hrun).elim
  | file mode contents =>
    have hread : mode.read = true := he.1
    simp only [hread, if_true]
    rw [pure_bind]
    refine .bind (failsOnly_ask (locate_granted h source)) fun origin t hask => ?_
    obtain ⟨-, rfl⟩ := ask_run hask
    refine .bind (openForWriting_granted h) fun loc t _ => failsOnly_bind_now ?_
    split
    · exact failsOnly_putAt
    · exact .pure ()

theorem createLink_granted (h : fs.Unlocked) (target : Path) :
    FailsOnly (· ≠ .denied) (createLink target p) fs := by
  obtain ⟨hslot, hmode⟩ := slot_granted h p
  rw [createLink]
  refine failsOnly_guard (fun _ => by decide) fun _ => failsOnly_guard (fun _ => by decide) fun _ => ?_
  refine .bind (failsOnly_ask hslot) fun slot t hask => ?_
  obtain ⟨heq, rfl⟩ := ask_run hask
  cases slot.name? with
  | none => exact .throw (by decide)
  | some name =>
    refine failsOnly_guard (fun _ => by decide) fun _ => failsOnly_bind_now ?_
    refine failsOnly_guard (fun _ => by decide) fun _ => failsOnly_guard (fun _ => by decide) fun _ => ?_
    refine failsOnly_guard (fun hwrite => ?_) fun _ => failsOnly_putAt
    rw [hmode slot heq] at hwrite
    cases hwrite

theorem removeFile_granted (h : fs.Unlocked) : FailsOnly (· ≠ .denied) (removeFile p) fs := by
  obtain ⟨hslot, hmode⟩ := slot_granted h p
  rw [removeFile]
  refine .bind (failsOnly_ask hslot) fun slot t hask => ?_
  obtain ⟨heq, rfl⟩ := ask_run hask
  cases slot.name? with
  | none => exact .throw (by decide)
  | some name =>
    refine failsOnly_guard (fun _ => by decide) fun _ => failsOnly_bind_now ?_
    cases fs.find? (slot.directory ++ [name]) with
    | none => exact .throw (by decide)
    | some e =>
      simp only
      refine failsOnly_guard (fun _ => ?_) fun _ => failsOnly_guard (fun hwrite => ?_) fun _ => ?_
      · split <;> decide
      · rw [hmode slot heq] at hwrite
        cases hwrite
      · exact failsOnly_guard (fun _ => by decide) fun _ fault t hrun => by cases (Prod.mk.inj hrun).1

end Changes

/-! ## Directories and their locations -/

theorem segments_ofLocation (hloc : loc ≠ []) : (Path.ofLocation loc).segments = [] :: loc := by
  rw [Path.ofLocation, if_neg hloc, Path.segments_ofSegments (List.cons_ne_nil _ _)]

/-- The system can be asked for a location, if its names are ordinary and not too long. -/
structure Spellable (loc : Location) : Prop where
  ordinary : ∀ name ∈ loc, name.Ordinary
  names : ∀ name ∈ loc, name.length ≤ nameLimit
  path : (Path.ofLocation loc).bytes.length < pathLimit

namespace Spellable

variable {above below : Location} {name : Name}

theorem of_prefix (h : Spellable loc) (habove : above <+: loc) (hne : above ≠ []) : Spellable above where
  ordinary n hn := h.ordinary n (habove.subset hn)
  names n hn := h.names n (habove.subset hn)
  path := by
    have hloc : loc ≠ [] := fun hnil => hne (List.prefix_nil.mp (hnil ▸ habove))
    have hle := Path.slashed_mono ((List.prefix_cons_inj []).mpr habove)
    have hpath := h.path
    rw [← segments_ofLocation hne, ← segments_ofLocation hloc, ← Path.length_bytes_succ,
      ← Path.length_bytes_succ] at hle
    omega

theorem askable (h : Spellable loc) (hloc : loc ≠ []) : (Path.ofLocation loc).Askable := by
  refine ⟨?_, ?_, h.path⟩
  · rw [segments_ofLocation hloc]
    refine List.forall_mem_cons.mpr ⟨List.not_mem_nil, fun name hname => ?_⟩
    exact (h.ordinary name hname).zero_notMem
  · intro hempty
    have habsolute := Path.isAbsolute_ofLocation loc
    rw [hempty] at habsolute
    cases habsolute

end Spellable

/-- What is at a location is found there. -/
theorem lookup_ofLocation (h : fs.Unlocked) {above : Location} {name : Name}
    (hspellable : Spellable (above ++ [name])) {e : Entry} (he : fs.find? (above ++ [name]) = some e) :
    fs.lookup .itself (.ofLocation (above ++ [name])) = .ok e := by
  have hdown : ∀ n ∈ above ++ [name], n.IsDown := fun n hn => (hspellable.ordinary n hn).isDown
  have hmoves : (Path.ofLocation (above ++ [name])).moves =
      [] ++ (above.map .down ++ [.down name]) := by
    rw [Path.moves_ofLocation hdown, List.map_append]
    rfl
  have hanchored : fs.Anchored (.ofLocation (above ++ [name])) := Or.inl (Path.isAbsolute_ofLocation _)
  have hbeginning : fs.beginning (.ofLocation (above ++ [name])) = [] :=
    if_pos (Path.isAbsolute_ofLocation _)
  have hlooks := looks_or_refused hanchored (hspellable.askable (by simp))
    (.done linkLimit _) hmoves (by simp) (by
      rw [hbeginning, Step.foldl_move_map_down]
      exact .of_find?_append he) fun n hn => by
      refine hspellable.names n ?_
      simpa using hn
  rw [hbeginning, Step.foldl_move_map_down, List.nil_append] at hlooks
  have hlast : (Path.ofLocation (above ++ [name])).last.IsDown := by
    rw [Path.ofLocation, if_neg (by simp), Path.ofSegments, ← List.cons_append, List.getLastD_concat]
    exact hdown name (by simp)
  rcases hlooks with hlooks | hrefused
  · exact hlooks.lookup_eq hlast .itself he (Or.inl rfl)
  · exact absurd rfl (lookup_granted h _ _ (hrefused.lookup_eq .itself))

/-- Names that lead down to a directory are a canonical location. -/
theorem canonicalWalk_down (h : fs.Unlocked) {jump : Location → Path → List Name → Except Fault Location}
    {above below : Location} (hdirectory : fs.HasDirectory (above ++ below))
    (hspellable : Spellable (above ++ below)) :
    fs.canonicalWalk jump above below = .ok (above ++ below) := by
  induction below generalizing above with
  | nil =>
    rw [canonicalWalk, List.append_nil]
  | cons name rest ih =>
    have hsplit : above ++ name :: rest = above ++ [name] ++ rest := (List.append_cons above name rest)
    rw [hsplit] at hdirectory hspellable ⊢
    have hname := hspellable.ordinary name (by simp)
    have hneeds : needsDirectory rest = false := by
      cases rest with
      | nil => rfl
      | cons next rest =>
        have hnext := hspellable.ordinary next (by simp)
        rw [needsDirectory, if_neg hnext.not_isFiller, decide_eq_false hnext.ne_dotDot]
    obtain ⟨mode, entries, hfind⟩ := hdirectory.above (List.prefix_append (above ++ [name]) rest)
    have hlookup := lookup_ofLocation h (hspellable.of_prefix (List.prefix_append _ rest) (by simp)) hfind
    rw [canonicalWalk_of_no_link hname.not_isFiller hname.ne_dotDot hlookup (fun target heq => by cases heq),
      canonicalBehind, if_neg (by simp [hneeds])]
    exact ih hdirectory hspellable

/-- The canonical location of the path of a directory is where it is. -/
theorem canonical_ofLocation (h : fs.Unlocked) (hloc : loc ≠ []) (hdirectory : fs.HasDirectory loc)
    (hspellable : Spellable loc) : fs.canonical (.ofLocation loc) = .ok loc := by
  have hask := hspellable.askable hloc
  rw [canonical, if_neg (by simpa using hask.zero_notMem), if_neg hask.ne_empty,
    if_pos (Path.isAbsolute_ofLocation loc), segments_ofLocation hloc]
  show fs.canonicalFrom linkLimit [] ([] :: loc) = .ok loc
  have hwalk (jump : Location → Path → List Name → Except Fault Location) :
      fs.canonicalWalk jump [] ([] :: loc) = .ok loc := by
    rw [canonicalWalk, if_pos (by rfl)]
    exact canonicalWalk_down h hdirectory hspellable
  rw [linkLimit, canonicalFrom, hwalk]

end FileSystem

end FileRoutes
