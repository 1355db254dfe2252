import Mathlib.Algebra.Ring.Nat
import FileRoutes.Proofs.FileSystem.Moves

/-!
# The path above a name

A path whose moves end in a name has a path above it, and that path leads to the directory in which the
name is looked up (`Path.exists_parent?`): its moves are those before the name, but for dots that stand
right before it.  It ends in a name itself, or it is nothing but a dot or the beginning of the path.

It is not longer than the path, and has no other segments.
-/

namespace FileRoutes.Path

variable {ss : List Name} {p : Path} {init : List Step} {name : Name}

/-! ## Trimmed segments -/

/-- What is trimmed are segments that say nothing, and what is left ends in one that says something. -/
theorem exists_trimmed (ss : List Name) :
    ∃ fillers, ss = trimmed ss ++ fillers ∧ (∀ s ∈ fillers, isFiller s = true) ∧
      (trimmed ss = [] ∨ ∃ before s, trimmed ss = before ++ [s] ∧ isFiller s = false) := by
  refine ⟨ss.rtakeWhile isFiller, List.rdropWhile_append_rtakeWhile.symm,
    fun s hs => List.mem_rtakeWhile_imp hs, ?_⟩
  rcases List.eq_nil_or_concat (trimmed ss) with hnil | ⟨before, s, hs⟩
  · exact Or.inl hnil
  rw [List.concat_eq_append] at hs
  have hne : ss.rdropWhile isFiller ≠ [] := by
    show trimmed ss ≠ []
    simp [hs]
  have hlast : (ss.rdropWhile isFiller).getLast hne = s := by
    have heq : ss.rdropWhile isFiller = before ++ [s] := hs
    simp only [heq, List.getLast_append_singleton]
  refine Or.inr ⟨before, s, hs, ?_⟩
  simpa [hlast] using List.rdropWhile_last_not isFiller ss hne

/-- Segments that say nothing move nowhere. -/
theorem stay_of_filler {s : Name} {step : Step} (hs : isFiller s = true)
    (hstep : Step.ofSegment? s = some step) : step = .stay := by
  rw [isFiller, Bool.or_eq_true, decide_eq_true_iff, decide_eq_true_iff] at hs
  rcases hs with rfl | rfl
  · cases hstep
  · exact (Option.some.inj hstep).symm

/-- A segment that says something moves somewhere. -/
theorem exists_step_of_not_filler {s : Name} (hs : isFiller s = false) :
    ∃ step, Step.ofSegment? s = some step ∧ step ≠ .stay := by
  rw [isFiller, Bool.or_eq_false_iff, decide_eq_false_iff_not, decide_eq_false_iff_not] at hs
  rw [Step.ofSegment?, if_neg hs.1, if_neg hs.2]
  split
  · exact ⟨.up, rfl, by simp⟩
  · exact ⟨.down s, rfl, by simp⟩

/-- Trimming segments takes moves away that lead nowhere. -/
theorem filterMap_trimmed (ss : List Name) :
    ∃ stays, ss.filterMap Step.ofSegment? = (trimmed ss).filterMap Step.ofSegment? ++ stays ∧
      ∀ step ∈ stays, step = .stay := by
  obtain ⟨fillers, hss, hfillers, -⟩ := exists_trimmed ss
  refine ⟨fillers.filterMap Step.ofSegment?, ?_, fun step hstep => ?_⟩
  · rw [← List.filterMap_append, ← hss]
  · obtain ⟨s, hs, hstep⟩ := List.mem_filterMap.mp hstep
    exact stay_of_filler (hfillers s hs) hstep

theorem getLast?_filterMap_trimmed (ss : List Name) :
    ((trimmed ss).filterMap Step.ofSegment?).getLast? ≠ some .stay := by
  obtain ⟨-, -, -, hnil | ⟨before, s, hs, hfiller⟩⟩ := exists_trimmed ss
  · simp [hnil]
  · obtain ⟨step, hstep, hne⟩ := exists_step_of_not_filler hfiller
    rw [hs, List.filterMap_append, List.filterMap_cons_some hstep, List.filterMap_nil,
      List.getLast?_concat]
    simpa using hne

/-- Before the last component there are the moves before the last one, but for some that lead nowhere. -/
theorem exists_beforeLast? (h : ss.filterMap Step.ofSegment? = init ++ [.down name]) :
    ∃ body stays, beforeLast? ss = some body ∧ body <+: ss ∧
      init = body.filterMap Step.ofSegment? ++ stays ∧ (∀ step ∈ stays, step = .stay) ∧
      (body.filterMap Step.ofSegment?).getLast? ≠ some .stay := by
  obtain ⟨stays, hmoves, hstays⟩ := filterMap_trimmed ss
  -- the last move is that of the last component
  obtain rfl : stays = [] := by
    rcases List.eq_nil_or_concat stays with hnil | ⟨before, step, rfl⟩
    · exact hnil
    rw [List.concat_eq_append] at hmoves hstays
    rw [h, ← List.append_assoc] at hmoves
    have hlast : Step.down name = step := by simpa using (List.append_inj' hmoves rfl).2
    have hstay := hstays step (by simp)
    rw [← hlast] at hstay
    cases hstay
  obtain ⟨-, -, -, hnil | ⟨before, s, hs, hfiller⟩⟩ := exists_trimmed ss
  · rw [hnil, h] at hmoves
    simp at hmoves
  obtain ⟨step, hstep, -⟩ := exists_step_of_not_filler hfiller
  rw [List.append_nil, hs, h, List.filterMap_append, List.filterMap_cons_some hstep,
    List.filterMap_nil] at hmoves
  obtain ⟨stays, hbefore, hstays⟩ := filterMap_trimmed before
  have hbody : beforeLast? ss = some (trimmed before) := by
    rw [beforeLast?, hs]
    cases hcons : before ++ [s] with
    | nil => simp at hcons
    | cons t rest =>
      show some (trimmed (t :: rest).dropLast) = _
      rw [← hcons, List.dropLast_concat]
  refine ⟨trimmed before, stays, hbody, (prefix_of_beforeLast? hbody).trans (List.dropLast_prefix ss), ?_,
    hstays, getLast?_filterMap_trimmed before⟩
  · rw [(List.append_inj' hmoves rfl).1, hbefore]

/-! ## Lengths -/

/-- Segments with a slash behind each of them. -/
def slashed (ss : List Name) : Nat := (ss.map (·.length + 1)).sum

theorem length_bytes_succ (p : Path) : p.bytes.length + 1 = slashed p.segments := by
  rw [bytes, slashed, segments, List.map_append, List.sum_append, List.length_append,
    List.length_flatMap]
  simp [Nat.add_assoc]

theorem slashed_mono {ts : List Name} (h : ts <+: ss) : slashed ts ≤ slashed ss := by
  obtain ⟨rest, rfl⟩ := h
  rw [slashed, slashed, List.map_append, List.sum_append]
  exact Nat.le_add_right _ _

/-- A path of segments is not longer than they are with a slash behind each. -/
theorem length_bytes_ofSegments_le (h : slashed ss ≤ slashed p.segments) :
    (ofSegments ss).bytes.length ≤ p.bytes.length := by
  by_cases hnil : ss = []
  · rw [hnil]
    exact Nat.zero_le _
  · rw [← length_bytes_succ, ← segments_ofSegments hnil, ← length_bytes_succ] at h
    exact Nat.le_of_succ_le_succ h

/-- A name behind a path makes it longer. -/
theorem length_bytes_lt_child (p : Path) {name : Name} (hname : name ≠ []) :
    p.bytes.length < (p.child name).bytes.length := by
  have hpositive : 0 < name.length := List.length_pos_iff.mpr hname
  have hchild : slashed (p.child name).segments =
      slashed (if p.last = [] then p.initial else p.segments) + (name.length + 1) := by
    rw [child, segments_join rfl, slashed, slashed, List.map_append, List.sum_append]
    simp [segments]
  have hp : slashed p.segments ≤ slashed (if p.last = [] then p.initial else p.segments) + 1 := by
    split
    · rename_i hlast
      rw [segments, hlast, slashed, slashed, List.map_append, List.sum_append]
      simp
    · exact Nat.le_add_right _ 1
  rw [← length_bytes_succ] at hchild hp
  omega

/-! ## The path above -/

/-- The root and the empty path have an empty segment. -/
theorem mem_segments_ofSegments {s : Name} (h : s ∈ (ofSegments ss).segments) : s = [] ∨ s ∈ ss := by
  by_cases hnil : ss = []
  · rw [hnil] at h
    exact Or.inl (List.mem_singleton.mp h)
  · rw [segments_ofSegments hnil] at h
    exact Or.inr h

theorem exists_parent? (h : p.moves = init ++ [.down name]) :
    ∃ q stays, p.parent? = some q ∧ init = q.moves ++ stays ∧ (∀ step ∈ stays, step = .stay) ∧
      (q.moves.getLast? = some .stay → q.moves = [.stay]) ∧
      (∀ s ∈ q.segments, s = [] ∨ s ∈ p.segments) ∧ q.bytes.length ≤ p.bytes.length := by
  have hnil : Step.ofSegment? [] = none := rfl
  have hdot : Step.ofSegment? dot = some .stay := rfl
  unfold parent?
  split
  · -- a path has segments
    rename_i hsegments
    rw [moves, hsegments] at h
    simp at h
  · -- an absolute path: above its first name is the root
    rename_i s ss hsegments
    rw [moves, hsegments, List.filterMap_cons_none hnil] at h
    obtain ⟨body, stays, hbody, hbefore, hinit, hstays, hlast⟩ := exists_beforeLast? h
    have hmoves : (ofSegments ([] :: if body = [] then [[]] else body)).moves =
        body.filterMap Step.ofSegment? := by
      rw [moves_ofSegments, List.filterMap_cons_none hnil]
      split
      · rename_i hroot
        rw [hroot]
        rfl
      · rfl
    rw [hbody, hsegments]
    refine ⟨_, stays, rfl, by rw [hmoves]; exact hinit, hstays, ?_, fun t ht => ?_,
      length_bytes_ofSegments_le ?_⟩
    · rw [hmoves]
      exact fun hstay => absurd hstay hlast
    · rcases mem_segments_ofSegments ht with rfl | ht
      · exact Or.inl rfl
      rcases List.mem_cons.mp ht with rfl | ht
      · exact Or.inl rfl
      split at ht
      · exact Or.inl (List.mem_singleton.mp ht)
      · exact Or.inr (List.mem_cons_of_mem _ (hbefore.subset ht))
    · rw [hsegments]
      split
      · simp only [slashed, List.map_cons, List.sum_cons, List.map_nil, List.sum_nil, List.length_nil]
        omega
      · exact slashed_mono ((List.prefix_cons_inj []).mpr hbefore)
  · rename_i s ss hrelative hsegments
    split
    · -- a dot at the beginning is kept
      rename_i heq
      subst heq
      rw [moves, hsegments, List.filterMap_cons_some hdot] at h
      obtain ⟨rest, rfl⟩ : ∃ rest, init = .stay :: rest := by
        cases init with
        | nil => simp at h
        | cons step rest => exact ⟨rest, by rw [(List.cons.inj h).1]⟩
      obtain ⟨body, stays, hbody, hbefore, hinit, hstays, hlast⟩ := exists_beforeLast? (List.cons.inj h).2
      have hmoves : (ofSegments (dot :: body)).moves = .stay :: body.filterMap Step.ofSegment? := by
        rw [moves_ofSegments, List.filterMap_cons_some hdot]
      have hprefix : dot :: body <+: p.segments := hsegments ▸ (List.prefix_cons_inj dot).mpr hbefore
      rw [hbody]
      refine ⟨_, stays, rfl, by rw [hmoves, hinit]; rfl, hstays, ?_,
        fun t ht => (mem_segments_ofSegments ht).imp_right fun ht => hprefix.subset ht,
        length_bytes_ofSegments_le (slashed_mono hprefix)⟩
      rw [hmoves]
      cases hbelow : body.filterMap Step.ofSegment? with
      | nil => exact fun _ => rfl
      | cons step steps =>
        rw [hbelow] at hlast
        rw [List.getLast?_cons_cons]
        exact fun hstay => absurd hstay hlast
    · rw [moves, hsegments] at h
      obtain ⟨body, stays, hbody, hbefore, hinit, hstays, hlast⟩ := exists_beforeLast? h
      have hprefix : body <+: p.segments := hsegments ▸ hbefore
      refine ⟨_, stays, by rw [hbody]; rfl, by rw [moves_ofSegments]; exact hinit, hstays, ?_,
        fun t ht => (mem_segments_ofSegments ht).imp_right fun ht => hprefix.subset ht,
        length_bytes_ofSegments_le (slashed_mono hprefix)⟩
      rw [moves_ofSegments]
      exact fun hstay => absurd hstay hlast

end FileRoutes.Path
