import FileRoutes.FileSystem.Resolve
import FileRoutes.Proofs.FileSystem.Tree
import Mathlib.Data.List.DropRight

/-!
# The moves of a path

A path says how to move from directory to directory: down to a name, up, or not at all.  Its moves are
the steps that its segments stand for (`Path.moves`); its steps are these and, if it ends in a slash,
the demand that a directory has been reached.  As long as no link is met, the moves alone decide where
a path leads: each leads from one location to the next (`Step.move`).

The operations on paths are seen here by what they do to the moves.  A longer path has the moves of
both parts (`moves_join`), and the paths above a path have its first moves (`moves_of_mem_ancestors`).
A path without two dots only moves down, so wherever it passes is above the place it leads to.
-/

namespace FileRoutes

/-- Where a step leads when no link is met. -/
def Step.move (loc : Location) : Step → Location
  | .stay | .settle => loc
  | .up => loc.dropLast
  | .down name => loc ++ [name]

/-- A segment is a move down to itself: it is not empty, and no dots. -/
def Name.IsDown (name : Name) : Prop := Step.ofSegment? name = some (.down name)

theorem Name.Ordinary.isDown {name : Name} (h : name.Ordinary) : name.IsDown := by
  rw [Name.IsDown, Step.ofSegment?, if_neg h.ne_nil, if_neg h.ne_dot, if_neg h.ne_dotDot]

/-- A segment without slashes and zero bytes that is a move down is a name. -/
theorem Name.IsDown.ordinary {name : Name} (h : name.IsDown) (hslash : Path.slash ∉ name)
    (hzero : (0 : UInt8) ∉ name) : name.Ordinary := by
  refine ⟨?_, ?_, ?_, hslash, hzero⟩
  all_goals
    rintro rfl
    cases h

theorem Step.ofSegment?_ne_settle (s : Name) : Step.ofSegment? s ≠ some .settle := by
  rw [Step.ofSegment?]
  split
  · exact Option.some_ne_none _ |>.symm
  split
  · simp
  split
  · simp
  · simp

namespace Path

/-- The steps that the segments of a path stand for. -/
def moves (p : Path) : List Step := p.segments.filterMap Step.ofSegment?

theorem settle_notMem_moves (p : Path) : Step.settle ∉ p.moves := by
  intro h
  obtain ⟨s, -, hs⟩ := List.mem_filterMap.mp h
  exact Step.ofSegment?_ne_settle s hs

/-- The name in which a path ends, be it with a slash behind it. -/
def lastName? (p : Path) : Option Name :=
  match p.moves.getLast? with
  | some (.down name) => some name
  | _ => none

theorem lastName?_of_moves {p : Path} {init : List Step} {name : Name}
    (h : p.moves = init ++ [.down name]) : p.lastName? = some name := by
  rw [lastName?, h, List.getLast?_concat]

/-- A move down leads to a name that is a segment. -/
theorem isDown_of_mem_moves {p : Path} {name : Name} (h : Step.down name ∈ p.moves) :
    name.IsDown ∧ name ∈ p.segments := by
  obtain ⟨s, hmem, hs⟩ := List.mem_filterMap.mp h
  obtain rfl : s = name := by
    rw [Step.ofSegment?] at hs
    split at hs
    · cases hs
    split at hs
    · cases hs
    split at hs
    · cases hs
    · cases hs
      rfl
  exact ⟨hs, hmem⟩

/-- The steps of a path are its moves, and the demand for a directory behind a last slash. -/
theorem steps_eq (p : Path) :
    (p.steps = p.moves ∧ (p.last ≠ [] ∨ p.initial = [])) ∨ p.steps = p.moves ++ [.settle] := by
  rw [steps, moves, segments, List.filterMap_append]
  cases hlast : Step.ofSegment? p.last with
  | some s =>
    refine Or.inl ⟨by simp [hlast], Or.inl ?_⟩
    intro hnil
    rw [hnil] at hlast
    cases hlast
  | none =>
    by_cases hinitial : p.initial = []
    · exact Or.inl ⟨by simp [hlast, hinitial], Or.inr hinitial⟩
    · exact Or.inr (by simp [hlast, hinitial])

/-- A path that ends in a name ends in the move down to it. -/
theorem steps_of_isDown {p : Path} (h : p.last.IsDown) : p.steps = p.moves := by
  rw [steps, h, moves, segments, List.filterMap_append, List.filterMap_cons, h, List.filterMap_nil]

/-! ## Longer paths -/

theorem isAbsolute_join {p q : Path} (hq : q.isAbsolute = false) :
    (p.join q).isAbsolute = p.isAbsolute := by
  obtain ⟨initial, last⟩ := p
  rw [join, hq, if_neg Bool.false_ne_true]
  rw [isAbsolute] at hq ⊢
  rw [isAbsolute]
  by_cases hlast : last = []
  · cases initial with
    | nil => simpa [hlast] using hq
    | cons s ss => simp [hlast]
  · cases initial with
    | nil => simp [hlast]
    | cons s ss => simp [hlast]

theorem segments_join {p q : Path} (hq : q.isAbsolute = false) :
    (p.join q).segments = (if p.last = [] then p.initial else p.segments) ++ q.segments := by
  rw [join, hq, if_neg Bool.false_ne_true, segments, segments, segments, List.append_assoc]

/-- A path behind another one has no segments but those of both. -/
theorem mem_segments_join {p q : Path} (hq : q.isAbsolute = false) {s : Name}
    (hs : s ∈ (p.join q).segments) : s ∈ p.segments ∨ s ∈ q.segments := by
  rw [segments_join hq] at hs
  rcases List.mem_append.mp hs with hs | hs
  · split at hs
    · exact Or.inl (List.mem_append_left _ hs)
    · exact Or.inl hs
  · exact Or.inr hs

/-- Segments that are not empty stay when something is put behind the path. -/
theorem mem_segments_join_of_mem {p q : Path} (hq : q.isAbsolute = false) {s : Name}
    (hs : s ∈ p.segments) (hne : s ≠ []) : s ∈ (p.join q).segments := by
  rw [segments_join hq]
  refine List.mem_append_left _ ?_
  split
  · rename_i hlast
    exact (List.mem_append.mp hs).resolve_right fun hs => hne ((List.mem_singleton.mp hs).trans hlast)
  · exact hs

theorem zero_notMem_of_join {p q : Path} (hq : q.isAbsolute = false)
    (h : ∀ s ∈ (p.join q).segments, (0 : UInt8) ∉ s) : ∀ s ∈ p.segments, (0 : UInt8) ∉ s :=
  fun s hs hzero => h s (mem_segments_join_of_mem hq hs (List.ne_nil_of_mem hzero)) hzero

theorem last_join (p q : Path) : (p.join q).last = q.last := by
  rw [join]
  split <;> rfl

/-- A path behind another one has the moves of both. -/
theorem moves_join {p q : Path} (hq : q.isAbsolute = false) :
    (p.join q).moves = p.moves ++ q.moves := by
  have hnil : Step.ofSegment? [] = none := rfl
  rw [moves, segments_join hq, List.filterMap_append, moves, moves]
  congr 1
  split
  · rename_i hlast
    rw [segments, hlast, List.filterMap_append, List.filterMap_cons, hnil, List.filterMap_nil,
      List.append_nil]
  · rfl

theorem segments_ofSegments {ss : List Name} (h : ss ≠ []) : (ofSegments ss).segments = ss := by
  rw [segments, ofSegments, List.getLastD_eq_getLast?, List.getLast?_eq_some_getLast h,
    Option.getD_some, List.dropLast_append_getLast h]

theorem moves_ofSegments {ss : List Name} : (ofSegments ss).moves = ss.filterMap Step.ofSegment? := by
  by_cases h : ss = []
  · subst h
    rfl
  · rw [moves, segments_ofSegments h]

section Names

variable {names : List Name}

theorem filterMap_ofSegment?_of_isDown (h : ∀ name ∈ names, name.IsDown) :
    names.filterMap Step.ofSegment? = names.map .down := by
  induction names with
  | nil => rfl
  | cons name names ih =>
    rw [List.filterMap_cons, h name List.mem_cons_self,
      ih fun n hn => h n (List.mem_cons_of_mem name hn), List.map_cons]

theorem moves_ofNames (h : ∀ name ∈ names, name.IsDown) : (ofNames names).moves = names.map .down := by
  rw [ofNames, moves_ofSegments, filterMap_ofSegment?_of_isDown h]

theorem isAbsolute_ofNames (h : ∀ name ∈ names, name.IsDown) :
    (ofNames names).isAbsolute = false := by
  rw [ofNames, ofSegments, isAbsolute]
  cases names with
  | nil => rfl
  | cons name names =>
    have hne : name ≠ [] := by
      rintro rfl
      cases h [] List.mem_cons_self
    cases names <;> simp [hne]

/-- Bytes without a slash are a path of one segment. -/
theorem ofBytes_of_slash_notMem {bs : Bytes} (h : slash ∉ bs) : ofBytes bs = ofNames [bs] := by
  induction bs with
  | nil => rfl
  | cons b bs ih =>
    obtain ⟨hb, hbs⟩ := not_or.mp (List.mem_cons.not.mp h)
    rw [ofBytes, ih hbs]
    simp only [if_neg (Ne.symm hb)]
    rfl

/-- A path is cut at all its slashes. -/
def Cut (p : Path) : Prop := ∀ s ∈ p.segments, slash ∉ s

theorem cut_ofBytes (bs : Bytes) : (ofBytes bs).Cut := by
  induction bs with
  | nil => simp [Cut, ofBytes, empty, segments]
  | cons b bs ih =>
    rw [ofBytes]
    rw [Cut, segments] at ih
    by_cases hb : b = slash
    · rw [if_pos hb, Cut, segments]
      exact List.forall_mem_cons.mpr ⟨by simp, ih⟩
    · rw [if_neg hb]
      cases hinitial : (ofBytes bs).initial with
      | nil =>
        rw [hinitial] at ih
        simpa [Cut, segments, Ne.symm hb] using ih
      | cons s ss =>
        rw [hinitial] at ih
        simpa [Cut, segments, Ne.symm hb] using ih

theorem cut_ofText (t : Text) : (ofText t).Cut := cut_ofBytes _

/-- A path goes on from another one through these names. -/
structure GoesOn (p : Path) (names : List Name) (q : Path) : Prop where
  isAbsolute_eq : q.isAbsolute = p.isAbsolute
  moves_eq : q.moves = p.moves ++ names.map .down

theorem GoesOn.refl (p : Path) : GoesOn p [] p := ⟨rfl, by simp⟩

theorem GoesOn.join (p : Path) (h : ∀ name ∈ names, name.IsDown) :
    GoesOn p names (p.join (ofNames names)) where
  isAbsolute_eq := isAbsolute_join (isAbsolute_ofNames h)
  moves_eq := by rw [moves_join (isAbsolute_ofNames h), moves_ofNames h]

theorem GoesOn.child {p q : Path} (hq : GoesOn p names q) {name : Name} (h : name.IsDown) :
    GoesOn p (names ++ [name]) (q.child name) where
  isAbsolute_eq := (isAbsolute_join rfl).trans hq.isAbsolute_eq
  moves_eq := by
    have hname : moves ⟨[], name⟩ = [.down name] := by
      rw [moves, segments, List.nil_append, List.filterMap_cons, h, List.filterMap_nil]
    rw [Path.child, moves_join rfl, hq.moves_eq, hname, List.map_append, List.append_assoc]
    rfl

end Names

theorem isAbsolute_ofLocation (loc : Location) : (ofLocation loc).isAbsolute = true := by
  rw [ofLocation, ofSegments, isAbsolute]
  cases loc <;> simp

theorem moves_ofLocation {loc : Location} (h : ∀ name ∈ loc, name.IsDown) :
    (ofLocation loc).moves = loc.map .down := by
  rw [ofLocation, moves_ofSegments]
  cases loc with
  | nil => rfl
  | cons name loc =>
    rw [if_neg (List.cons_ne_nil _ _), List.filterMap_cons, ← filterMap_ofSegment?_of_isDown h]
    rfl

/-! ## The paths above -/

theorem prefix_trimmed (ss : List Name) : trimmed ss <+: ss :=
  List.rdropWhile_prefix isFiller ss

theorem dropLast_prefix_dropLast {α : Type} {l m : List α} (h : l <+: m) :
    l.dropLast <+: m.dropLast := by
  refine List.prefix_of_prefix_length_le ((List.dropLast_prefix l).trans h) (List.dropLast_prefix m) ?_
  rw [List.length_dropLast, List.length_dropLast]
  exact Nat.sub_le_sub_right h.length_le 1

theorem prefix_of_beforeLast? {ss body : List Name} (h : beforeLast? ss = some body) :
    body <+: ss.dropLast := by
  rw [beforeLast?] at h
  cases htrimmed : trimmed ss with
  | nil => simp [htrimmed] at h
  | cons s rest =>
    simp only [htrimmed, Option.some.injEq] at h
    rw [← h]
    exact (prefix_trimmed _).trans (dropLast_prefix_dropLast (htrimmed ▸ prefix_trimmed ss))

/-- An absolute path has an empty segment before its first slash. -/
theorem isAbsolute_iff {p : Path} : p.isAbsolute = true ↔ ∃ s ss, p.segments = [] :: s :: ss := by
  obtain ⟨initial, last⟩ := p
  cases initial with
  | nil => simp [isAbsolute, segments]
  | cons s ss =>
    cases ss with
    | nil => simp [isAbsolute, segments]
    | cons t ss => simp [isAbsolute, segments]

theorem isAbsolute_eq_of_segments {p q : Path}
    (h : (∃ s ss, p.segments = [] :: s :: ss) ↔ ∃ s ss, q.segments = [] :: s :: ss) :
    p.isAbsolute = q.isAbsolute := by
  rw [Bool.eq_iff_iff, isAbsolute_iff, isAbsolute_iff, h]

/-- The moves before the last segment. -/
def initialMoves (p : Path) : List Step := p.initial.filterMap Step.ofSegment?

theorem initialMoves_prefix (p : Path) : p.initialMoves <+: p.moves :=
  (List.prefix_append p.initial [p.last]).filterMap _

theorem moves_of_isDown {p : Path} (h : p.last.IsDown) : p.moves = p.initialMoves ++ [.down p.last] := by
  rw [moves, segments, List.filterMap_append, List.filterMap_cons, h, List.filterMap_nil]
  rfl

/-- Going up from a path leaves moves from before its last segment. -/
theorem moves_parent? {p q : Path} (h : p.parent? = some q) :
    q.isAbsolute = p.isAbsolute ∧ q.moves <+: p.initialMoves := by
  have hinitial : p.initial = p.segments.dropLast := by rw [segments, List.dropLast_concat]
  unfold parent? at h
  split at h
  · cases h
  · -- the path is absolute
    rename_i s ss hsegments
    obtain ⟨body, hbody, rfl⟩ := Option.map_eq_some_iff.mp h
    constructor
    · refine isAbsolute_eq_of_segments ⟨fun _ => ⟨s, ss, hsegments⟩, fun _ => ?_⟩
      rw [segments_ofSegments (List.cons_ne_nil _ _)]
      cases body <;> simp
    · rw [moves_ofSegments, initialMoves, hinitial, hsegments]
      by_cases hnil : body = []
      · rw [if_pos hnil]
        exact List.nil_prefix
      · rw [if_neg hnil, List.dropLast_cons_cons]
        exact ((List.prefix_cons_inj []).mpr (prefix_of_beforeLast? hbody)).filterMap _
  · rename_i s ss hrelative hsegments
    have hp : ¬ ∃ t ts, p.segments = [] :: t :: ts := by
      rintro ⟨t, ts, hts⟩
      rw [hsegments, List.cons.injEq] at hts
      exact hrelative t ts hts.1 hts.2
    split at h
    · -- a dot at the beginning is kept
      rename_i hdot
      subst hdot
      split at h
      · rename_i body hbody
        obtain rfl := Option.some.inj h
        have hsegments' : (ofSegments (dot :: body)).segments = dot :: body :=
          segments_ofSegments (List.cons_ne_nil _ _)
        refine ⟨isAbsolute_eq_of_segments (iff_of_false ?_ hp), ?_⟩
        · rw [hsegments']
          rintro ⟨t, ts, hts⟩
          cases hts
        · obtain ⟨t, ts, rfl⟩ : ∃ t ts, ss = t :: ts :=
            List.exists_cons_of_ne_nil fun hnil => by rw [hnil] at hbody; cases hbody
          rw [moves, hsegments', initialMoves, hinitial, hsegments, List.dropLast_cons_cons]
          exact ((List.prefix_cons_inj dot).mpr (prefix_of_beforeLast? hbody)).filterMap _
      · obtain rfl := Option.some.inj h
        exact ⟨isAbsolute_eq_of_segments (iff_of_false (by simp [empty, segments]) hp),
          List.nil_prefix⟩
    · obtain ⟨body, hbody, rfl⟩ := Option.map_eq_some_iff.mp h
      have hpre := prefix_of_beforeLast? hbody
      refine ⟨isAbsolute_eq_of_segments (iff_of_false ?_ hp), ?_⟩
      · rintro ⟨t, ts, hts⟩
        have hbody : body = [] :: t :: ts := by
          by_cases hnil : body = []
          · rw [hnil] at hts
            cases hts
          · rwa [segments_ofSegments hnil] at hts
        obtain ⟨rest, hrest⟩ := hpre.trans (List.dropLast_prefix _)
        rw [hbody] at hrest
        exact hp ⟨t, ts ++ rest, hsegments.trans hrest.symm⟩
      · rw [moves_ofSegments, initialMoves, hinitial, hsegments]
        exact hpre.filterMap _

theorem moves_of_mem_lineage {n : Nat} {p q : Path} (h : q ∈ lineage n p) :
    q.isAbsolute = p.isAbsolute ∧ q.moves <+: p.moves := by
  induction n generalizing p with
  | zero => cases h
  | succ n ih =>
    rw [lineage] at h
    cases hparent : p.parent? with
    | none =>
      simp only [hparent, List.mem_singleton] at h
      rw [h]
      exact ⟨rfl, List.prefix_refl _⟩
    | some r =>
      simp only [hparent, List.mem_cons] at h
      rcases h with rfl | h
      · exact ⟨rfl, List.prefix_refl _⟩
      · obtain ⟨habsolute, hmoves⟩ := ih h
        obtain ⟨habsolute', hmoves'⟩ := moves_parent? hparent
        exact ⟨habsolute.trans habsolute', hmoves.trans (hmoves'.trans p.initialMoves_prefix)⟩

/-- The paths above a path have its first moves. -/
theorem moves_of_mem_ancestors {p q : Path} (h : q ∈ p.ancestors) :
    q.isAbsolute = p.isAbsolute ∧ q.moves <+: p.moves :=
  moves_of_mem_lineage h

/-! ## Moving down only -/

theorem up_notMem_moves {p : Path} (h : dotDot ∉ p.segments) : Step.up ∉ p.moves := by
  intro hup
  obtain ⟨s, hs, hstep⟩ := List.mem_filterMap.mp hup
  rw [Step.ofSegment?] at hstep
  split at hstep
  · cases hstep
  split at hstep
  · cases hstep
  split at hstep
  · rename_i hdots
    exact h (hdots ▸ hs)
  · cases hstep

end Path

/-- Moves down lead to what is below. -/
theorem Step.prefix_foldl_move {steps : List Step} (h : Step.up ∉ steps) (loc : Location) :
    loc <+: steps.foldl Step.move loc := by
  induction steps generalizing loc with
  | nil => exact List.prefix_refl loc
  | cons step steps ih =>
    obtain ⟨hstep, hsteps⟩ := not_or.mp (List.mem_cons.not.mp h)
    refine List.IsPrefix.trans ?_ (ih hsteps (Step.move loc step))
    cases step with
    | stay => exact List.prefix_refl loc
    | settle => exact List.prefix_refl loc
    | up => exact absurd rfl hstep
    | down name => exact List.prefix_append loc [name]

theorem Step.foldl_move_mono {steps way : List Step} (h : Step.up ∉ steps) (hway : way <+: steps)
    (loc : Location) : way.foldl Step.move loc <+: steps.foldl Step.move loc := by
  obtain ⟨rest, rfl⟩ := hway
  rw [List.foldl_append]
  exact Step.prefix_foldl_move (fun hup => h (List.mem_append_right way hup)) _

/-- What holds of the names in front and of those that are moved down to holds of all names of the
place that is reached. -/
theorem Step.forall_mem_foldl_move {P : Name → Prop} {steps : List Step}
    (hsteps : ∀ name, Step.down name ∈ steps → P name) {loc : Location}
    (hloc : ∀ name ∈ loc, P name) : ∀ name ∈ steps.foldl Step.move loc, P name := by
  induction steps generalizing loc with
  | nil => exact hloc
  | cons step rest ih =>
    refine ih (fun name hname => hsteps name (List.mem_cons_of_mem step hname)) fun name hname => ?_
    cases step with
    | stay => exact hloc name hname
    | settle => exact hloc name hname
    | up => exact hloc name (List.mem_of_mem_dropLast hname)
    | down n =>
      rcases List.mem_append.mp hname with hname | hname
      · exact hloc name hname
      · rw [List.mem_singleton.mp hname]
        exact hsteps n List.mem_cons_self

/-- Dots lead nowhere. -/
theorem Step.foldl_move_stays {steps : List Step} (h : ∀ step ∈ steps, step = .stay) (loc : Location) :
    steps.foldl Step.move loc = loc := by
  induction steps with
  | nil => rfl
  | cons step steps ih =>
    rw [List.foldl_cons, h step List.mem_cons_self, Step.move]
    exact ih fun step hstep => h step (List.mem_cons_of_mem _ hstep)

theorem Step.foldl_move_map_down (names : List Name) (loc : Location) :
    (names.map Step.down).foldl Step.move loc = loc ++ names := by
  induction names generalizing loc with
  | nil => simp
  | cons name names ih => rw [List.map_cons, List.foldl_cons, ih, Step.move]; simp

end FileRoutes
