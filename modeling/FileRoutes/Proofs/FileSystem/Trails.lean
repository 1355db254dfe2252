import FileRoutes.Proofs.FileSystem.Ways

/-!
# Trails

A way tells where the system arrives if it arrives anywhere (`FileSystem.Way`).  A trail tells that it
does arrive: each step is taken from a directory in which names may be followed, each name is short
enough and found there, and no more links are followed than allowed (`Trail`).  So the system finds
something exactly if there is a trail (`follow_of_trail`, `trail_of_follow`).

Trails are put together from parts.  A trail to a directory stays one as long as directories and links
stay (`Trail.keeps`), and can be continued by names that are no links (`Trail.append`).  What a path is
asked for is then decided by its last name alone (`Looks`).
-/

namespace FileRoutes

/-- The system may be asked about the path. -/
structure Path.Askable (p : Path) : Prop where
  zero_notMem : ∀ s ∈ p.segments, (0 : UInt8) ∉ s
  ne_empty : p ≠ .empty
  short : p.bytes.length < FileSystem.pathLimit

namespace FileSystem

/-- The system takes the steps from one location to another, following at most so many links. -/
inductive Trail (fs : FileSystem) : Nat → Location → List Step → Location → Prop
  | done (links : Nat) (loc : Location) : Trail fs links loc [] loc
  | settle {links : Nat} {loc last : Location} {rest : List Step} (directory : fs.HasDirectory loc)
      (next : Trail fs links loc rest last) : Trail fs links loc (.settle :: rest) last
  | stay {links : Nat} {loc last : Location} {rest : List Step} (isOpen : fs.Open loc)
      (next : Trail fs links loc rest last) : Trail fs links loc (.stay :: rest) last
  | up {links : Nat} {loc last : Location} {rest : List Step} (isOpen : fs.Open loc)
      (next : Trail fs links loc.dropLast rest last) : Trail fs links loc (.up :: rest) last
  | down {links : Nat} {loc last : Location} {name : Name} {rest : List Step} {e : Entry}
      (isOpen : fs.Open loc) (short : name.length ≤ nameLimit)
      (found : fs.find? (loc ++ [name]) = some e) (noLink : ∀ target, e ≠ .link target)
      (next : Trail fs links (loc ++ [name]) rest last) :
      Trail fs links loc (.down name :: rest) last
  | link {links : Nat} {loc last : Location} {name : Name} {rest : List Step} {target : Path}
      (isOpen : fs.Open loc) (short : name.length ≤ nameLimit)
      (isLink : fs.find? (loc ++ [name]) = some (.link target))
      (next : Trail fs links (if target.isAbsolute then [] else loc) (target.steps ++ rest) last) :
      Trail fs (links + 1) loc (.down name :: rest) last

variable {fs : FileSystem} {links : Nat} {a b c loc : Location} {steps s t rest : List Step}

/-! ## Parts of a trail -/

namespace Trail

/-- No link has to be followed where none is allowed. -/
theorem of_zero (h : fs.Trail 0 a steps b) (links : Nat) : fs.Trail links a steps b := by
  generalize hzero : 0 = none at h
  induction h with
  | done _ loc => exact .done links loc
  | settle directory _ ih => exact .settle directory (ih hzero)
  | stay isOpen _ ih => exact .stay isOpen (ih hzero)
  | up isOpen _ ih => exact .up isOpen (ih hzero)
  | down isOpen short found noLink _ ih => exact .down isOpen short found noLink (ih hzero)
  | link _ _ _ _ _ => cases hzero

/-- A trail is continued by steps that follow no link. -/
theorem append (h : fs.Trail links a s b) (h' : fs.Trail 0 b t c) : fs.Trail links a (s ++ t) c := by
  induction h with
  | done links loc => exact h'.of_zero links
  | settle directory _ ih => exact .settle directory (ih h')
  | stay isOpen _ ih => exact .stay isOpen (ih h')
  | up isOpen _ ih => exact .up isOpen (ih h')
  | down isOpen short found noLink _ ih => exact .down isOpen short found noLink (ih h')
  | link isOpen short isLink _ ih =>
    have hnext := ih h'
    rw [List.append_assoc] at hnext
    exact .link isOpen short isLink hnext

/-- A trail is a way through directories. -/
theorem way (h : fs.Trail links a steps b) : fs.Way fs.Open a steps b := by
  induction h with
  | done _ loc => exact .done loc
  | settle _ _ ih => exact .settle ih
  | stay isOpen _ ih => exact .stay isOpen ih
  | up isOpen _ ih => exact .up isOpen ih
  | down isOpen _ found noLink _ ih =>
    refine .down isOpen (fun target hlink => ?_) ih
    rw [found] at hlink
    exact noLink target (Option.some.inj hlink)
  | link isOpen _ isLink _ ih => exact .link isOpen isLink ih

/-- The names that are followed are short enough. -/
theorem short {name : Name} (h : fs.Trail links a steps b) (hname : .down name ∈ steps) :
    name.length ≤ nameLimit := by
  induction h with
  | done _ loc => cases hname
  | settle _ _ ih => exact ih (by simpa using hname)
  | stay _ _ ih => exact ih (by simpa using hname)
  | up _ _ ih => exact ih (by simpa using hname)
  | down _ short _ _ _ ih =>
    rcases List.mem_cons.mp hname with heq | hname
    · exact Step.down.inj heq ▸ short
    · exact ih hname
  | link _ short _ _ ih =>
    rcases List.mem_cons.mp hname with heq | hname
    · exact Step.down.inj heq ▸ short
    · exact ih (List.mem_append_right _ hname)

/-- The demand for a directory at the end can be dropped. -/
theorem of_settle (h : fs.Trail links a (s ++ [.settle]) b) : fs.Trail links a s b := by
  generalize hsteps : s ++ [.settle] = steps at h
  induction h generalizing s with
  | done _ loc => simp at hsteps
  | settle directory next ih =>
    rcases List.append_eq_cons_iff.mp hsteps with ⟨rfl, hrest⟩ | ⟨s, rfl, hrest⟩
    · obtain rfl := (List.cons.inj hrest).2
      exact next
    · exact .settle directory (ih hrest.symm)
  | stay isOpen _ ih =>
    rcases List.append_eq_cons_iff.mp hsteps with ⟨rfl, hrest⟩ | ⟨s, rfl, hrest⟩
    · cases (List.cons.inj hrest).1
    · exact .stay isOpen (ih hrest.symm)
  | up isOpen _ ih =>
    rcases List.append_eq_cons_iff.mp hsteps with ⟨rfl, hrest⟩ | ⟨s, rfl, hrest⟩
    · cases (List.cons.inj hrest).1
    · exact .up isOpen (ih hrest.symm)
  | down isOpen short found noLink _ ih =>
    rcases List.append_eq_cons_iff.mp hsteps with ⟨rfl, hrest⟩ | ⟨s, rfl, hrest⟩
    · cases (List.cons.inj hrest).1
    · exact .down isOpen short found noLink (ih hrest.symm)
  | @link links loc last name rest target isOpen short isLink _ ih =>
    rcases List.append_eq_cons_iff.mp hsteps with ⟨rfl, hrest⟩ | ⟨s, rfl, hrest⟩
    · cases (List.cons.inj hrest).1
    · exact .link isOpen short isLink (ih (s := target.steps ++ s) (by rw [hrest, List.append_assoc]))

/-- A trail to a directory stays one. -/
theorem keeps {fs' : FileSystem} (h : fs.Trail links a steps b) (hkeeps : Keeps fs fs')
    (hb : fs.HasDirectory b) : fs'.Trail links a steps b := by
  induction h with
  | done links loc => exact .done links loc
  | settle directory _ ih => exact .settle (hkeeps.hasDirectory directory) (ih hb)
  | stay isOpen _ ih => exact .stay (hkeeps.isOpen isOpen) (ih hb)
  | up isOpen _ ih => exact .up (hkeeps.isOpen isOpen) (ih hb)
  | down isOpen short _ _ next ih =>
    -- the name leads on to a directory, so it is that of a directory
    obtain ⟨mode, entries, hfind⟩ := hkeeps.hasDirectory (next.way.hasDirectory hb)
    exact .down (hkeeps.isOpen isOpen) short hfind (fun target heq => by cases heq) (ih hb)
  | link isOpen short isLink _ ih =>
    exact .link (hkeeps.isOpen isOpen) short (hkeeps.link _ _ isLink) (ih hb)

/-- Moves through open directories to a directory. -/
theorem of_foldl (hopen : ∀ way step, way ++ [step] <+: steps → fs.Open (way.foldl Step.move a))
    (hshort : ∀ name, .down name ∈ steps → name.length ≤ nameLimit)
    (hb : fs.HasDirectory (steps.foldl Step.move a)) :
    fs.Trail 0 a steps (steps.foldl Step.move a) := by
  induction steps using List.reverseRecOn with
  | nil => exact .done 0 a
  | append_singleton init step ih =>
    have habove := hopen init step (List.prefix_refl _)
    have hinit := ih (fun way s hway => hopen way s (hway.trans (List.prefix_append init [step])))
      (fun name hname => hshort name (List.mem_append_left _ hname)) habove.hasDirectory
    rw [List.foldl_append] at hb ⊢
    refine hinit.append ?_
    cases step with
    | stay => exact .stay habove (.done 0 _)
    | settle => exact .settle habove.hasDirectory (.done 0 _)
    | up => exact .up habove (.done 0 _)
    | down name =>
      obtain ⟨mode, entries, hfind⟩ := hb
      exact .down habove (hshort name (by simp)) hfind (fun target heq => by cases heq) (.done 0 _)

end Trail

/-! ## What the system finds -/

/-- The system goes on from the end of a trail. -/
theorem follow_of_trail (purpose : Purpose) (rest : List Step) (h : fs.Trail links a steps b)
    (hrest : purpose = .target ∨ ∃ step ∈ rest, step ≠ .settle) :
    ∃ jump, fs.follow purpose links ⟨a, 0⟩ (steps ++ rest) = fs.walk purpose jump ⟨b, 0⟩ rest := by
  induction h with
  | done links loc =>
    obtain ⟨jump, hjump⟩ := fs.exists_follow_eq purpose links
    exact ⟨jump, hjump _ _⟩
  | @settle links loc last rest' directory _ ih =>
    obtain ⟨jump, hgo⟩ := ih
    obtain ⟨jump', hjump'⟩ := fs.exists_follow_eq purpose links
    obtain ⟨mode, entries, hfind⟩ := directory
    have hdirectory : fs.directoryOf ⟨loc, 0⟩ = .ok (mode, entries) := by
      rw [directoryOf, if_pos rfl, directoryAt, hfind]
    refine ⟨jump, ?_⟩
    rw [← hgo, hjump', hjump', List.cons_append, walk, hdirectory]
    rfl
  | @stay links loc last rest' isOpen _ ih =>
    obtain ⟨jump, hgo⟩ := ih
    obtain ⟨jump', hjump'⟩ := fs.exists_follow_eq purpose links
    obtain ⟨mode, entries, hsearch, hfind⟩ := isOpen
    refine ⟨jump, ?_⟩
    rw [← hgo, hjump', hjump', List.cons_append, walk, searchable_of_find? hfind hsearch]
    rfl
  | @up links loc last rest' isOpen _ ih =>
    obtain ⟨jump, hgo⟩ := ih
    obtain ⟨jump', hjump'⟩ := fs.exists_follow_eq purpose links
    obtain ⟨mode, entries, hsearch, hfind⟩ := isOpen
    refine ⟨jump, ?_⟩
    rw [← hgo, hjump', hjump', List.cons_append, walk, searchable_of_find? hfind hsearch]
    rfl
  | @down links loc last name rest' e isOpen short found noLink _ ih =>
    obtain ⟨jump, hgo⟩ := ih
    obtain ⟨jump', hjump'⟩ := fs.exists_follow_eq purpose links
    obtain ⟨mode, entries, hsearch, hfind⟩ := isOpen
    refine ⟨jump, ?_⟩
    rw [← hgo, hjump', hjump', List.cons_append,
      walk_down_of_found hfind hsearch short found noLink fun hpurpose => ?_]
    obtain ⟨step, hstep, hne⟩ := hrest.resolve_left (by simp [hpurpose])
    exact Or.inr ⟨step, List.mem_append_right _ hstep, hne⟩
  | @link links loc last name rest' target isOpen short isLink _ ih =>
    obtain ⟨jump, hgo⟩ := ih
    obtain ⟨mode, entries, hsearch, hfind⟩ := isOpen
    refine ⟨jump, ?_⟩
    rw [← hgo, follow, List.cons_append, walk_down_of_link hfind hsearch short isLink,
      List.append_assoc]
    · rfl
    · refine hrest.imp_right ?_
      rintro ⟨step, hstep, hne⟩
      exact ⟨step, List.mem_append_right _ hstep, hne⟩

/-- What a walk finds is at the end of a trail, if what it finds behind links is. -/
theorem trail_of_walk {jump : Location → Path → List Step → Except Fault Place}
    (hjump : ∀ (loc : Location) (target : Path) (rest : List Step) (name : Name),
      fs.Open loc → name.length ≤ nameLimit → fs.find? (loc ++ [name]) = some (.link target) →
      jump loc target rest = .ok (.entry b) → fs.Trail links loc (.down name :: rest) b)
    (h : fs.walk .target jump ⟨a, 0⟩ steps = .ok (.entry b)) : fs.Trail links a steps b := by
  induction steps generalizing a with
  | nil =>
    rw [walk, if_pos rfl] at h
    obtain rfl := Place.entry.inj (Except.ok.inj h)
    exact .done links _
  | cons step rest ih =>
    cases step with
    | settle =>
      rw [walk] at h
      obtain ⟨⟨mode, entries⟩, hdirectory, h⟩ := exists_of_bind_eq_ok h
      exact .settle ⟨mode, entries, directoryOf_eq_ok hdirectory⟩ (ih h)
    | stay =>
      rw [walk] at h
      obtain ⟨entries, hsearchable, h⟩ := exists_of_bind_eq_ok h
      obtain ⟨mode, hopen⟩ := searchable_eq_ok hsearchable
      exact .stay ⟨mode, entries, hopen⟩ (ih h)
    | up =>
      rw [walk] at h
      obtain ⟨entries, hsearchable, h⟩ := exists_of_bind_eq_ok h
      obtain ⟨mode, hopen⟩ := searchable_eq_ok hsearchable
      exact .up ⟨mode, entries, hopen⟩ (ih h)
    | down name =>
      obtain ⟨⟨mode, entries, hsearch, hfind⟩, hshort, hgo⟩ := walk_down_eq_ok h
      have hopen : fs.Open a := ⟨mode, entries, hsearch, hfind⟩
      rcases hgo with ⟨-, -, hplace⟩ | ⟨target, hlink, hgo⟩ | ⟨e, hbelow, hlink, hgo⟩
      · cases hplace
      · rw [if_neg (by simp)] at hgo
        exact hjump a target rest name hopen hshort hlink hgo
      · exact .down hopen hshort hbelow hlink (ih hgo)

theorem trail_of_follow (h : fs.follow .target links ⟨a, 0⟩ steps = .ok (.entry b)) :
    fs.Trail links a steps b := by
  induction links generalizing a steps with
  | zero =>
    rw [follow] at h
    exact trail_of_walk (fun _ _ _ _ _ _ _ hjump => by cases hjump) h
  | succ links ih =>
    rw [follow] at h
    exact trail_of_walk (fun _ _ _ _ hopen hshort hlink hjump => .link hopen hshort hlink (ih hjump)) h

/-! ## Paths -/

variable {p q : Path} {purpose : Purpose} {e : Entry}

/-- The path leads to a location, and the system finds what is there. -/
structure Treads (fs : FileSystem) (p : Path) (loc : Location) : Prop where
  anchored : fs.Anchored p
  trail : fs.Trail linkLimit (fs.beginning p) p.moves loc

theorem Treads.reaches (h : fs.Treads p loc) : fs.Reaches p loc := h.trail.way

theorem Treads.keeps {fs' : FileSystem} (h : fs.Treads p loc) (hkeeps : Keeps fs fs')
    (hloc : fs.HasDirectory loc) : fs'.Treads p loc where
  anchored := hkeeps.anchored h.anchored
  trail := by
    rw [hkeeps.beginning_eq]
    exact h.trail.keeps hkeeps hloc

theorem askable_of_start {spot : Spot} (h : fs.start p = .ok spot) : p.Askable := by
  rw [start] at h
  split at h
  · cases h
  rename_i hzero
  split at h
  · cases h
  rename_i hempty
  split at h
  · cases h
  rename_i hshort
  refine ⟨fun s hs hmem => hzero ?_, hempty, Nat.lt_of_not_le hshort⟩
  exact List.any_eq_true.mpr ⟨s, hs, by simpa using hmem⟩

theorem start_of_askable (hanchored : fs.Anchored p) (h : p.Askable) :
    fs.start p = .ok ⟨fs.beginning p, 0⟩ := by
  rw [start, if_neg, if_neg h.ne_empty, if_neg (Nat.not_le.mpr h.short), spot_eq_of_anchored hanchored]
  simpa using h.zero_notMem

theorem askable_of_lookup (h : fs.lookup purpose p = .ok e) : p.Askable := by
  obtain ⟨place, hresolve, -⟩ := exists_of_bind_eq_ok h
  obtain ⟨spot, hstart, -⟩ := exists_of_bind_eq_ok hresolve
  exact askable_of_start hstart

theorem askable_of_isDirectory (h : fs.isDirectory p = true) : p.Askable := by
  rw [isDirectory] at h
  split at h
  · exact askable_of_lookup ‹_›
  · cases h

/-- A path by which an entry is found leads there. -/
theorem treads_of_lookup (hanchored : fs.Anchored p) (h : fs.lookup .target p = .ok e) :
    ∃ loc, fs.Treads p loc ∧ fs.find? loc = some e := by
  obtain ⟨place, hresolve, h⟩ := exists_of_bind_eq_ok h
  obtain ⟨spot, hstart, hfollow⟩ := exists_of_bind_eq_ok hresolve
  rw [start_eq_ok hstart, spot_eq_of_anchored hanchored] at hfollow
  obtain ⟨loc, rfl | ⟨directory, name, rfl, -⟩, -⟩ := finds_of_follow hfollow
  · have htrail := trail_of_follow hfollow
    refine ⟨loc, ⟨hanchored, ?_⟩, ?_⟩
    · rcases p.steps_eq with ⟨hsteps, -⟩ | hsteps
      · rwa [hsteps] at htrail
      · rw [hsteps] at htrail
        exact htrail.of_settle
    · simp only at h
      split at h
      · rw [← Except.ok.inj h]
        assumption
      · cases h
  · cases h

/-- The directory that a path leads to is found. -/
theorem Treads.resolve_directory (h : fs.Treads p loc) (hask : p.Askable)
    (hloc : fs.HasDirectory loc) : fs.resolve .target p = .ok (.entry loc) := by
  obtain ⟨mode, entries, hfind⟩ := hloc
  have htrail : fs.Trail linkLimit (fs.beginning p) p.steps loc := by
    rcases p.steps_eq with ⟨hsteps, -⟩ | hsteps
    · rw [hsteps]
      exact h.trail
    · rw [hsteps]
      exact h.trail.append (.settle ⟨mode, entries, hfind⟩ (.done 0 loc))
  obtain ⟨jump, hjump⟩ := follow_of_trail .target [] htrail (Or.inl rfl)
  rw [List.append_nil] at hjump
  rw [resolve, start_of_askable h.anchored hask]
  show fs.follow .target linkLimit ⟨fs.beginning p, 0⟩ p.steps = _
  rw [hjump, walk, if_pos rfl]

theorem Treads.lookup_directory (h : fs.Treads p loc) (hask : p.Askable) {mode : Mode}
    {entries : List (Name × Entry)} (hfind : fs.find? loc = some (.directory mode entries)) :
    fs.lookup .target p = .ok (.directory mode entries) := by
  rw [lookup, h.resolve_directory hask ⟨mode, entries, hfind⟩]
  simp only [bind, Except.bind, hfind]

theorem Treads.isDirectory (h : fs.Treads p loc) (hask : p.Askable) (hloc : fs.HasDirectory loc) :
    fs.isDirectory p = true := by
  obtain ⟨mode, entries, hfind⟩ := hloc
  rw [FileSystem.isDirectory, h.lookup_directory hask hfind]
  rfl

/-- The slot of a path is in the directory that the moves before the last one lead to. -/
theorem slot_of_trail (hanchored : fs.Anchored p) (hask : p.Askable) {directory : Location}
    {mode : Mode} {entries : List (Name × Entry)}
    (htrail : fs.Trail linkLimit (fs.beginning p) p.moves.dropLast directory)
    (hfind : fs.find? directory = some (.directory mode entries)) :
    ∃ slashed, (p.last.IsDown → slashed = false) ∧ fs.slot p =
      if mode.search then .ok ⟨directory, mode, p.lastName?, slashed⟩ else .error .denied := by
  obtain ⟨slashed, hsplit⟩ := splitLast_steps p
  obtain ⟨jump, hjump⟩ := follow_of_trail .target [] htrail (Or.inl rfl)
  rw [List.append_nil] at hjump
  have hdirectory : fs.directoryAt directory = .ok (mode, entries) := by
    rw [directoryAt, hfind]
  refine ⟨slashed, fun hlast => ?_, ?_⟩
  · -- a path that ends in a name has no slash behind it
    rw [Path.steps_of_isDown hlast, Path.moves_of_isDown hlast, splitLast] at hsplit
    simpa using (Prod.mk.inj (Prod.mk.inj hsplit).2).2.symm
  · rw [slot, start_of_askable hanchored hask, Path.lastName?]
    simp only [bind, Except.bind, hsplit, hjump, walk, if_pos, hdirectory]
    cases mode.search with
    | false => rfl
    | true =>
      cases p.moves.getLast? with
      | none => rfl
      | some step => cases step <;> rfl

/-! ## The last name of a path -/

/-- The system looks the last name of a path up in this directory. -/
structure Looks (fs : FileSystem) (p : Path) (directory : Location) (name : Name) : Prop where
  anchored : fs.Anchored p
  askable : p.Askable
  trail : ∃ init, p.moves = init ++ [.down name] ∧
    fs.Trail linkLimit (fs.beginning p) init directory
  isOpen : fs.Open directory
  short : name.length ≤ nameLimit

namespace Looks

variable {directory : Location} {name : Name}

/-- A name that leads to what is no link leads there. -/
theorem treads (h : fs.Looks p directory name) (he : fs.find? (directory ++ [name]) = some e)
    (hlink : ∀ target, e ≠ .link target) : fs.Treads p (directory ++ [name]) where
  anchored := h.anchored
  trail := by
    obtain ⟨init, hmoves, htrail⟩ := h.trail
    rw [hmoves]
    exact htrail.append (.down h.isOpen h.short he hlink (.done 0 _))

/-- The slot of the path is the name in its directory. -/
theorem exists_slot (h : fs.Looks p directory name) :
    ∃ mode entries slashed, fs.find? directory = some (.directory mode entries) ∧
      (p.last.IsDown → slashed = false) ∧ fs.slot p = .ok ⟨directory, mode, some name, slashed⟩ := by
  obtain ⟨init, hmoves, htrail⟩ := h.trail
  obtain ⟨mode, entries, hsearch, hfind⟩ := h.isOpen
  obtain ⟨slashed, hlast, hslot⟩ := slot_of_trail h.anchored h.askable
    (by rwa [hmoves, List.dropLast_concat]) hfind
  rw [hsearch, if_pos rfl, Path.lastName?_of_moves hmoves] at hslot
  exact ⟨mode, entries, slashed, hfind, hlast, hslot⟩

/-- What is found by a path that ends in a name, for the entry itself or to create a file. -/
theorem resolve_eq (h : fs.Looks p directory name) (hlast : p.last.IsDown) (purpose : Purpose)
    (hlink : purpose = .itself ∨ ∀ target, fs.find? (directory ++ [name]) ≠ some (.link target)) :
    fs.resolve purpose p = .ok (if (fs.find? (directory ++ [name])).isSome
      then .entry (directory ++ [name]) else .gap directory name) := by
  obtain ⟨init, hmoves, htrail⟩ := h.trail
  obtain ⟨mode, entries, hsearch, hfind⟩ := h.isOpen
  obtain ⟨jump, hjump⟩ := follow_of_trail purpose [.down name] htrail
    (Or.inr ⟨.down name, by simp, by simp⟩)
  rw [resolve, start_of_askable h.anchored h.askable, Path.steps_of_isDown hlast, hmoves]
  show fs.follow purpose linkLimit ⟨fs.beginning p, 0⟩ (init ++ [.down name]) = _
  rw [hjump, walk_down_eq hfind hsearch, if_neg (by simp), if_neg (Nat.not_lt.mpr h.short)]
  cases hbelow : fs.find? (directory ++ [name]) with
  | none => exact walkDown_of_missing hbelow
  | some e =>
    rcases e.link_or_not with ⟨target, rfl⟩ | hentry
    · obtain rfl := hlink.resolve_right fun hno => hno target hbelow
      exact walkDown_of_link hbelow
    · exact walkDown_of_found hbelow hentry

end Looks

end FileSystem

end FileRoutes
