import FileRoutes.Proofs.FileSystem.Trails

/-!
# What the system refuses

If a path only passes directories, then there is one reason left why the system does not find what it
leads to: a directory on the way may not be searched.  So either all directories on the way are open, or
the system refuses the path (`open_or_refused`), and it does so whatever the path is followed for.

If a directory is missing on the way, then that is what the system reports, unless the path is refused
before (`slot_of_missing`).
-/

namespace FileRoutes.FileSystem

variable {fs : FileSystem} {links : Nat} {a : Location} {s steps init rest : List Step} {name : Name}
  {p : Path}

/-! ## Ways through directories -/

/-- Each of the steps starts in a directory, and the names that they lead to can be names. -/
structure Firm (fs : FileSystem) (a : Location) (steps : List Step) : Prop where
  directory : ∀ way step, way ++ [step] <+: steps → fs.HasDirectory (way.foldl Step.move a)
  short : ∀ name, .down name ∈ steps → name.length ≤ nameLimit
  settle_notMem : .settle ∉ steps

namespace Firm

theorem of_cons {step : Step} (h : fs.Firm a (step :: steps)) :
    fs.HasDirectory a ∧ fs.Firm (Step.move a step) steps where
  left := h.directory [] step (List.cons_prefix_cons.mpr ⟨rfl, List.nil_prefix⟩)
  right :=
    { directory := fun way s hway => h.directory (step :: way) s (List.cons_prefix_cons.mpr ⟨rfl, hway⟩)
      short := fun name hname => h.short name (List.mem_cons_of_mem step hname)
      settle_notMem := fun hsettle => h.settle_notMem (List.mem_cons_of_mem step hsettle) }

theorem left (h : fs.Firm a (init ++ steps)) : fs.Firm a init where
  directory way step hway := h.directory way step (hway.trans (List.prefix_append init steps))
  short name hname := h.short name (List.mem_append_left steps hname)
  settle_notMem hsettle := h.settle_notMem (List.mem_append_left steps hsettle)

/-- Steps down to a directory, and one more step. -/
theorem of_hasDirectory {step : Step} (hup : Step.up ∉ init)
    (hdirectory : fs.HasDirectory (init.foldl Step.move a))
    (hshort : ∀ name, .down name ∈ init ++ [step] → name.length ≤ nameLimit)
    (hsettle : .settle ∉ init ++ [step]) : fs.Firm a (init ++ [step]) where
  directory way s hway := by
    have hprefix : way <+: init := by
      have hdrop := Path.dropLast_prefix_dropLast hway
      rwa [List.dropLast_concat, List.dropLast_concat] at hdrop
    exact hdirectory.above (Step.foldl_move_mono hup hprefix a)
  short := hshort
  settle_notMem := hsettle

end Firm

theorem searchable_of_closed {mode : Mode} {entries : List (Name × Entry)}
    (h : fs.find? a = some (.directory mode entries)) (hsearch : mode.search = false) :
    fs.searchable ⟨a, 0⟩ = .error .denied := by
  have hdirectory : fs.directoryOf ⟨a, 0⟩ = .ok (mode, entries) := by
    rw [directoryOf, if_pos rfl, directoryAt, h]
  rw [searchable, hdirectory]
  simp only [bind, Except.bind, hsearch]
  rfl

/-- A walk is refused at the first directory that may not be searched. -/
theorem walk_denied {purpose : Purpose} {jump : Location → Path → List Step → Except Fault Place}
    (h : fs.Firm a steps)
    (hclosed : ∃ way step, way ++ [step] <+: steps ∧ ¬ fs.Open (way.foldl Step.move a)) :
    fs.walk purpose jump ⟨a, 0⟩ (steps ++ rest) = .error .denied := by
  induction steps generalizing a with
  | nil =>
    obtain ⟨way, step, hway, -⟩ := hclosed
    simp at hway
  | cons step steps ih =>
    obtain ⟨⟨mode, entries, hfind⟩, hnext⟩ := h.of_cons
    cases hsearch : mode.search with
    | false =>
      have hdenied := searchable_of_closed hfind hsearch
      cases step with
      | settle => exact absurd List.mem_cons_self h.settle_notMem
      | stay =>
        rw [List.cons_append, walk, hdenied]
        rfl
      | up =>
        rw [List.cons_append, walk, hdenied]
        rfl
      | down name =>
        rw [List.cons_append, walk.eq_def]
        simp only [hdenied, bind, Except.bind]
    | true =>
      obtain ⟨way, next, hway, hclosed⟩ := hclosed
      cases way with
      | nil => exact absurd ⟨mode, entries, hsearch, hfind⟩ hclosed
      | cons step' way =>
        rw [List.cons_append, List.cons_prefix_cons] at hway
        obtain ⟨rfl, hway⟩ := hway
        have hgo := ih hnext ⟨way, next, hway, hclosed⟩
        cases step' with
        | settle => exact absurd List.mem_cons_self h.settle_notMem
        | stay =>
          rw [List.cons_append, walk, searchable_of_find? hfind hsearch]
          exact hgo
        | up =>
          rw [List.cons_append, walk, searchable_of_find? hfind hsearch]
          exact hgo
        | down name =>
          -- the name leads to the directory in which the next step starts
          obtain ⟨next, after, rfl⟩ : ∃ next after, steps = next :: after := by
            refine List.exists_cons_of_ne_nil fun hnil => ?_
            rw [hnil] at hway
            simp at hway
          obtain ⟨⟨m, es, hbelow⟩, -⟩ := hnext.of_cons
          rw [List.cons_append, walk_down_of_found hfind hsearch (h.short name List.mem_cons_self) hbelow
            (fun target heq => by cases heq) fun _ => Or.inr ⟨next, by simp, ?_⟩]
          · exact hgo
          · rintro rfl
            exact h.settle_notMem (by simp)

/-- The system refuses the path for a lack of permission, whatever it is followed for. -/
structure Refused (fs : FileSystem) (p : Path) : Prop where
  resolve_eq : ∀ purpose, fs.resolve purpose p = .error .denied
  slot_eq : fs.slot p = .error .denied

theorem Refused.lookup_eq (h : fs.Refused p) (purpose : Purpose) :
    fs.lookup purpose p = .error .denied := by
  rw [lookup, h.resolve_eq]
  rfl

/-- On a way through directories all of them are open, or the path is refused. -/
theorem open_or_refused (hanchored : fs.Anchored p) (hask : p.Askable)
    (htrail : fs.Trail linkLimit (fs.beginning p) s a) (hmoves : p.moves = s ++ steps)
    (h : fs.Firm a steps) :
    (∀ way step, way ++ [step] <+: steps → fs.Open (way.foldl Step.move a)) ∨ fs.Refused p := by
  by_cases hopen : ∀ way step, way ++ [step] <+: steps → fs.Open (way.foldl Step.move a)
  · exact Or.inl hopen
  push Not at hopen
  refine Or.inr ⟨fun purpose => ?_, ?_⟩
  · obtain ⟨tail, htail⟩ : ∃ tail, p.steps = s ++ (steps ++ tail) := by
      rcases p.steps_eq with ⟨hsteps, -⟩ | hsteps
      · exact ⟨[], by rw [hsteps, hmoves, List.append_nil]⟩
      · exact ⟨_, by rw [hsteps, hmoves, List.append_assoc]⟩
    obtain ⟨step, hstep⟩ : ∃ step, step ∈ steps := by
      obtain ⟨way, step, hway, -⟩ := hopen
      exact ⟨step, hway.subset (by simp)⟩
    obtain ⟨jump, hjump⟩ := follow_of_trail purpose (steps ++ tail) htrail
      (Or.inr ⟨step, List.mem_append_left tail hstep, fun heq => h.settle_notMem (heq ▸ hstep)⟩)
    rw [resolve, start_of_askable hanchored hask]
    show fs.follow purpose linkLimit ⟨fs.beginning p, 0⟩ p.steps = _
    rw [htail, hjump, walk_denied h hopen]
  · rcases List.eq_nil_or_concat steps with rfl | ⟨before, last, rfl⟩
    · obtain ⟨way, step, hway, -⟩ := hopen
      simp at hway
    rw [List.concat_eq_append] at h hmoves hopen
    have hbefore : p.moves.dropLast = s ++ before := by
      rw [hmoves, ← List.append_assoc, List.dropLast_concat]
    by_cases hearlier : ∃ way step, way ++ [step] <+: before ∧ ¬ fs.Open (way.foldl Step.move a)
    · obtain ⟨slashed, hsplit⟩ := splitLast_steps p
      obtain ⟨jump, hjump⟩ := follow_of_trail .target before htrail (Or.inl rfl)
      have hdenied : fs.walk .target jump ⟨a, 0⟩ (before ++ []) = .error .denied :=
        walk_denied h.left hearlier
      rw [List.append_nil] at hdenied
      rw [slot, start_of_askable hanchored hask]
      simp only [bind, Except.bind, hsplit, hbefore, hjump, hdenied]
    · -- the directory of the last step is the one that may not be searched
      push Not at hearlier
      obtain ⟨mode, entries, hfind⟩ := h.directory before last (List.prefix_refl _)
      have hclosed : mode.search = false := by
        obtain ⟨way, step, hway, hclosed⟩ := hopen
        rcases List.prefix_concat_iff.mp hway with heq | hway
        · rw [(List.append_inj' heq rfl).1] at hclosed
          by_contra hsearch
          exact hclosed ⟨mode, entries, by simpa using hsearch, hfind⟩
        · exact absurd (hearlier way step hway) hclosed
      have hway := htrail.append (.of_foldl hearlier h.left.short ⟨mode, entries, hfind⟩)
      obtain ⟨slashed, -, hslot⟩ := slot_of_trail hanchored hask (hbefore ▸ hway) hfind
      rw [hslot, hclosed]
      rfl

/-- The last name of a path is looked up in its directory, or the path is refused. -/
theorem looks_or_refused (hanchored : fs.Anchored p) (hask : p.Askable)
    (htrail : fs.Trail linkLimit (fs.beginning p) s a)
    (hmoves : p.moves = s ++ (init ++ [.down name])) (hup : Step.up ∉ init)
    (hdirectory : fs.HasDirectory (init.foldl Step.move a))
    (hshort : ∀ n, .down n ∈ init ++ [.down name] → n.length ≤ nameLimit) :
    fs.Looks p (init.foldl Step.move a) name ∨ fs.Refused p := by
  have hfirm : fs.Firm a (init ++ [.down name]) := .of_hasDirectory hup hdirectory hshort fun hsettle =>
    p.settle_notMem_moves (hmoves ▸ List.mem_append_right s hsettle)
  refine (open_or_refused hanchored hask htrail hmoves hfirm).imp_left fun hopen => ?_
  refine ⟨hanchored, hask, ⟨s ++ init, by rw [hmoves, List.append_assoc], htrail.append ?_⟩,
    hopen init _ (List.prefix_refl _), hshort name (by simp)⟩
  exact .of_foldl (fun way step hway => hopen way step (hway.trans (List.prefix_append init _)))
    hfirm.left.short hdirectory

/-! ## Missing directories -/

/-- What is on the way is a directory, as far as there is anything. -/
theorem walk_of_missing (jump : Location → Path → List Step → Except Fault Place)
    (hdirectory : fs.HasDirectory a) (hup : Step.up ∉ steps) (hsettle : .settle ∉ steps)
    (hshort : ∀ name, .down name ∈ steps → name.length ≤ nameLimit)
    (hway : ∀ way, way <+: steps → fs.find? (way.foldl Step.move a) = none ∨
      fs.HasDirectory (way.foldl Step.move a))
    (hnone : fs.find? (steps.foldl Step.move a) = none) :
    fs.walk .target jump ⟨a, 0⟩ steps = .error .denied ∨
      fs.walk .target jump ⟨a, 0⟩ steps = .error .missing ∨
      ∃ directory name, fs.walk .target jump ⟨a, 0⟩ steps = .ok (.gap directory name) := by
  induction steps generalizing a with
  | nil => exact absurd hdirectory (not_hasDirectory_of_none hnone)
  | cons step steps ih =>
    obtain ⟨mode, entries, hfind⟩ := hdirectory
    obtain ⟨hstep, hup'⟩ := not_or.mp (List.mem_cons.not.mp hup)
    obtain ⟨hstep', hsettle'⟩ := not_or.mp (List.mem_cons.not.mp hsettle)
    have hshort' : ∀ name, .down name ∈ steps → name.length ≤ nameLimit :=
      fun name hname => hshort name (List.mem_cons_of_mem step hname)
    have hway' : ∀ way, way <+: steps → fs.find? (way.foldl Step.move (Step.move a step)) = none ∨
        fs.HasDirectory (way.foldl Step.move (Step.move a step)) :=
      fun way hprefix => hway (step :: way) (List.cons_prefix_cons.mpr ⟨rfl, hprefix⟩)
    cases hsearch : mode.search with
    | false =>
      have hdenied := searchable_of_closed hfind hsearch
      refine Or.inl ?_
      cases step with
      | settle => exact absurd rfl hstep'
      | up => exact absurd rfl hstep
      | stay =>
        rw [walk, hdenied]
        rfl
      | down name =>
        rw [walk.eq_def]
        simp only [hdenied, bind, Except.bind]
    | true =>
      cases step with
      | settle => exact absurd rfl hstep'
      | up => exact absurd rfl hstep
      | stay =>
        have hgo := ih ⟨mode, entries, hfind⟩ hup' hsettle' hshort' hway' hnone
        rw [walk, searchable_of_find? hfind hsearch]
        exact hgo
      | down name =>
        rcases hway' [] List.nil_prefix with hmissing | hdirectory
        · -- the first name that is missing
          rw [walk_down_eq hfind hsearch, if_neg (by simp),
            if_neg (Nat.not_lt.mpr (hshort name List.mem_cons_self)), walkDown_of_missing hmissing]
          split
          · exact Or.inr (Or.inr ⟨a, name, rfl⟩)
          · exact Or.inr (Or.inl rfl)
        · have hgo := ih hdirectory hup' hsettle' hshort' hway' hnone
          obtain ⟨m, es, hbelow⟩ := hdirectory
          rw [walk_down_of_found hfind hsearch (hshort name List.mem_cons_self) hbelow
            (fun target heq => by cases heq) (by simp)]
          exact hgo

/-- A path has no slot if the directory of its last name is missing. -/
theorem slot_of_missing (hanchored : fs.Anchored p) (hask : p.Askable)
    (hdirectory : fs.HasDirectory (fs.beginning p)) (hmoves : p.moves = init ++ [.down name])
    (hup : Step.up ∉ init) (hshort : ∀ n, .down n ∈ init → n.length ≤ nameLimit)
    (hway : ∀ way, way <+: init → fs.find? (way.foldl Step.move (fs.beginning p)) = none ∨
      fs.HasDirectory (way.foldl Step.move (fs.beginning p)))
    (hnone : fs.find? (init.foldl Step.move (fs.beginning p)) = none) :
    fs.slot p = .error .missing ∨ fs.slot p = .error .denied := by
  have hsettle : Step.settle ∉ init := fun hsettle =>
    p.settle_notMem_moves (hmoves ▸ List.mem_append_left _ hsettle)
  obtain ⟨slashed, hsplit⟩ := splitLast_steps p
  obtain ⟨jump, hjump⟩ := fs.exists_follow_eq .target linkLimit
  have hbefore : p.moves.dropLast = init := by rw [hmoves, List.dropLast_concat]
  rw [slot, start_of_askable hanchored hask]
  simp only [bind, Except.bind, hsplit, hbefore, hjump]
  rcases walk_of_missing jump hdirectory hup hsettle hshort hway hnone with h | h | ⟨d, n, h⟩
  · exact Or.inr (by simp only [h])
  · exact Or.inl (by simp only [h])
  · exact Or.inl (by simp only [h])

end FileRoutes.FileSystem
