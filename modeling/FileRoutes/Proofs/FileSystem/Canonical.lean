import FileRoutes.FileSystem.Canonical
import FileRoutes.Proofs.FileSystem.Trails

/-!
# Canonical locations

The canonical location of a path is where the path is made (`madeAt_of_canonical`); if it meets no link
this is the location that it spells (`canonical_eq_ok`).  The system is asked about absolute paths on
the way, and these have to lead where they say.  So what is kept during the walk is that no link is at
the location reached, nor above it (`Clear`).
-/

namespace FileRoutes.FileSystem

variable {fs : FileSystem} {p : Path}

/-- No link is at the location or above it, and a path can spell it. -/
structure Clear (fs : FileSystem) (loc : Location) : Prop where
  isDown : ∀ name ∈ loc, name.IsDown
  noLink : ∀ above, above <+: loc → ∀ target, fs.find? above ≠ some (.link target)

namespace Clear

variable {loc : Location}

theorem dropLast (h : fs.Clear loc) : fs.Clear loc.dropLast where
  isDown name hname := h.isDown name (List.mem_of_mem_dropLast hname)
  noLink above habove := h.noLink above (habove.trans (List.dropLast_prefix loc))

theorem concat (h : fs.Clear loc) {name : Name} (hname : name.IsDown)
    (hlink : ∀ target, fs.find? (loc ++ [name]) ≠ some (.link target)) : fs.Clear (loc ++ [name]) where
  isDown n hn := by
    rcases List.mem_append.mp hn with hn | hn
    · exact h.isDown n hn
    · rw [List.mem_singleton.mp hn]
      exact hname
  noLink above habove := by
    rcases List.prefix_concat_iff.mp habove with rfl | habove
    · exact hlink
    · exact h.noLink above habove

end Clear

/-- Moves that meet no link lead where none is above. -/
theorem Clear.foldl_move {steps : List Step} (hnames : ∀ name, Step.down name ∈ steps → name.IsDown)
    {loc : Location} (hclear : fs.Clear loc) (hfree : ∀ way, way <+: steps → ∀ target,
      fs.find? (way.foldl Step.move loc) ≠ some (.link target)) :
    fs.Clear (steps.foldl Step.move loc) := by
  induction steps generalizing loc with
  | nil => exact hclear
  | cons step rest ih =>
    have hrest : ∀ way, way <+: rest → ∀ target,
        fs.find? (way.foldl Step.move (Step.move loc step)) ≠ some (.link target) :=
      fun way hway => hfree (step :: way) (List.cons_prefix_cons.mpr ⟨rfl, hway⟩)
    refine ih (fun name hname => hnames name (List.mem_cons_of_mem step hname)) ?_ hrest
    cases step with
    | stay => exact hclear
    | settle => exact hclear
    | up => exact hclear.dropLast
    | down name => exact hclear.concat (hnames name List.mem_cons_self) (hrest [] List.nil_prefix)

/-- Where a path begins there is a directory. -/
theorem Valid.hasDirectory_beginning (hfs : fs.Valid) (p : Path) : fs.HasDirectory (fs.beginning p) := by
  have hcurrent : fs.HasDirectory fs.current.location := hfs.current
  rw [beginning]
  split
  · exact hcurrent.above List.nil_prefix
  · exact hcurrent

/-- The names on the way to where a path begins are ordinary. -/
theorem Valid.ordinary_beginning (hfs : fs.Valid) (p : Path) :
    ∀ name ∈ fs.beginning p, name.Ordinary := by
  obtain ⟨mode, entries, hfind⟩ := hfs.hasDirectory_beginning p
  exact hfs.tree.ordinary_of_find? hfind

/-- The names that a path spells are ordinary, if its segments can be names. -/
theorem Valid.ordinary_spelled (hfs : fs.Valid) (hcut : p.Cut)
    (hzero : ∀ s ∈ p.segments, (0 : UInt8) ∉ s) : ∀ name ∈ fs.spelled p, name.Ordinary := by
  refine Step.forall_mem_foldl_move (fun name hname => ?_) (hfs.ordinary_beginning p)
  obtain ⟨hdown, hmem⟩ := Path.isDown_of_mem_moves hname
  exact hdown.ordinary (hcut name hmem) (hzero name hmem)

/-- Where a path begins there is no link, nor above. -/
theorem Valid.clear_beginning (hfs : fs.Valid) (p : Path) : fs.Clear (fs.beginning p) where
  isDown name hname := (hfs.ordinary_beginning p name hname).isDown
  noLink above habove target hlink := by
    obtain ⟨mode, entries, hfind⟩ := (hfs.hasDirectory_beginning p).above habove
    rw [hlink] at hfind
    cases hfind

/-- A path that meets no link spells a location above which there is none. -/
theorem Valid.clear_spelled (hfs : fs.Valid) (hfree : fs.LinkFree p) : fs.Clear (fs.spelled p) :=
  Clear.foldl_move (fun _ hname => (Path.isDown_of_mem_moves hname).1) (hfs.clear_beginning p) hfree

/-- A segment says nothing, or to go up, or to go down to a name. -/
theorem segment_cases (s : Name) :
    (Path.isFiller s = true ∧ (Step.ofSegment? s = none ∨ Step.ofSegment? s = some .stay)) ∨
      (Path.isFiller s = false ∧ s = Path.dotDot) ∨
      (Path.isFiller s = false ∧ s ≠ Path.dotDot ∧ s.IsDown) := by
  by_cases hnil : s = []
  · subst hnil
    exact Or.inl ⟨rfl, Or.inl rfl⟩
  by_cases hdot : s = Path.dot
  · subst hdot
    exact Or.inl ⟨rfl, Or.inr rfl⟩
  have hfiller : Path.isFiller s = false := by simp [Path.isFiller, hnil, hdot]
  by_cases hdots : s = Path.dotDot
  · exact Or.inr (Or.inl ⟨hfiller, hdots⟩)
  · refine Or.inr (Or.inr ⟨hfiller, hdots, ?_⟩)
    rw [Name.IsDown, Step.ofSegment?, if_neg hnil, if_neg hdot, if_neg hdots]

/-- What the system finds at a name behind a clear location is there. -/
theorem Clear.find?_of_lookup {loc : Location} (hclear : fs.Clear loc) {s : Name} (hs : s.IsDown)
    {e : Entry} (h : fs.lookup .itself (.ofLocation (loc ++ [s])) = .ok e) :
    fs.find? (loc ++ [s]) = some e := by
  have hdown : ∀ name ∈ loc ++ [s], name.IsDown := by
    simpa [or_imp, forall_and] using And.intro hclear.isDown hs
  have hlast : (Path.ofLocation (loc ++ [s])).last.IsDown := by
    rw [Path.ofLocation, if_neg (by simp), Path.ofSegments, ← List.cons_append,
      List.getLastD_concat]
    exact hs
  obtain ⟨found, hfinds, hfind⟩ := finds_of_lookup (Or.inl (Path.isAbsolute_ofLocation _)) h
  rw [Path.steps_of_isDown hlast, Path.moves_ofLocation hdown, List.map_append, beginning,
    if_pos (Path.isAbsolute_ofLocation _)] at hfinds
  obtain ⟨directory, hway, -, rfl⟩ := hfinds.of_itself
  have hfree : fs.FreeWay [] (loc.map .down) ([] ++ loc) := freeWay_downs hclear.noLink
  rwa [hway.eq hfree] at hfind

/-! ## One name of a canonical walk -/

section Name

variable {jump : Location → Path → List Name → Except Fault Location} {loc found : Location} {s : Name}
  {rest : List Name} {e : Entry}

/-- What is behind a location that holds no link: it may ask that there is a directory. -/
def canonicalBehind (fs : FileSystem) (jump : Location → Path → List Name → Except Fault Location)
    (here : Location) (rest : List Name) : Except Fault Location := do
  if needsDirectory rest then
    let _ ← fs.lookup .target ((Path.ofLocation here).join .empty)
  fs.canonicalWalk jump here rest

theorem canonicalWalk_of_link (hfiller : ¬ Path.isFiller s = true) (hdots : s ≠ Path.dotDot) {target : Path}
    (h : fs.lookup .itself (.ofLocation (loc ++ [s])) = .ok (.link target)) :
    fs.canonicalWalk jump loc (s :: rest) = jump loc target rest := by
  rw [canonicalWalk, if_neg hfiller, if_neg hdots]
  simp only [h, bind, Except.bind]

theorem canonicalWalk_of_no_link (hfiller : ¬ Path.isFiller s = true) (hdots : s ≠ Path.dotDot)
    (h : fs.lookup .itself (.ofLocation (loc ++ [s])) = .ok e) (hlink : ∀ target, e ≠ .link target) :
    fs.canonicalWalk jump loc (s :: rest) = fs.canonicalBehind jump (loc ++ [s]) rest := by
  rw [canonicalWalk, if_neg hfiller, if_neg hdots]
  simp only [h, bind, Except.bind]
  cases e with
  | link target => exact absurd rfl (hlink target)
  | file mode contents => rfl
  | directory mode entries => rfl

/-- The demand for a directory does not change where the walk goes on. -/
theorem canonicalWalk_of_behind (h : fs.canonicalBehind jump loc rest = .ok found) :
    fs.canonicalWalk jump loc rest = .ok found := by
  rw [canonicalBehind] at h
  split at h
  · obtain ⟨-, -, h⟩ := exists_of_bind_eq_ok h
    exact h
  · exact h

end Name

/-! ## Where it leads -/

/-- The demand for a directory may be made anywhere on a free way. -/
theorem freeWay_steps_append {target : Path} {rest : List Step} {a b : Location}
    (h : fs.FreeWay a (target.moves ++ rest) b) : fs.FreeWay a (target.steps ++ rest) b := by
  rcases target.steps_eq with ⟨hsteps, -⟩ | hsteps
  · rwa [hsteps]
  · obtain ⟨c, hmoves, hrest⟩ := exists_of_way_append h
    rw [hsteps, List.append_assoc]
    exact hmoves.append (.settle hrest)

/-- A canonical location is at the end of a free way, if those behind links are. -/
theorem freeWay_of_canonicalWalk {jump : Location → Path → List Name → Except Fault Location}
    {segments : List Name} {loc found : Location} (hclear : fs.Clear loc)
    (hjump : ∀ (loc : Location) (target : Path) (rest : List Name), fs.Clear loc →
      jump loc target rest = .ok found →
      fs.FreeWay (if target.isAbsolute then [] else loc)
        (target.moves ++ rest.filterMap Step.ofSegment?) found)
    (h : fs.canonicalWalk jump loc segments = .ok found) :
    fs.FreeWay loc (segments.filterMap Step.ofSegment?) found := by
  induction segments generalizing loc with
  | nil =>
    obtain rfl := Except.ok.inj h
    exact .done loc
  | cons s rest ih =>
    rcases segment_cases s with ⟨hfiller, hnone | hstay⟩ | ⟨hfiller, rfl⟩ | ⟨hfiller, hdots, hdown⟩
    · rw [canonicalWalk, if_pos hfiller] at h
      rw [List.filterMap_cons, hnone]
      exact ih hclear h
    · rw [canonicalWalk, if_pos hfiller] at h
      rw [List.filterMap_cons, hstay]
      exact .stay trivial (ih hclear h)
    · rw [canonicalWalk, if_neg (by simp [hfiller]), if_pos rfl] at h
      have hup : Step.ofSegment? Path.dotDot = some .up := rfl
      rw [List.filterMap_cons, hup]
      exact .up trivial (ih hclear.dropLast h)
    · have hfiller' : ¬ Path.isFiller s = true := by simp [hfiller]
      have hasked := h
      rw [canonicalWalk, if_neg hfiller', if_neg hdots] at hasked
      obtain ⟨e, hlookup, -⟩ := exists_of_bind_eq_ok hasked
      have hfind := hclear.find?_of_lookup hdown hlookup
      rw [List.filterMap_cons, hdown]
      rcases e.link_or_not with ⟨target, rfl⟩ | hlink
      · rw [canonicalWalk_of_link hfiller' hdots hlookup] at h
        exact .link trivial hfind (freeWay_steps_append (hjump loc target rest hclear h))
      · rw [canonicalWalk_of_no_link hfiller' hdots hlookup hlink] at h
        have hnone := find?_ne_link hfind hlink
        exact .down trivial hnone (ih (hclear.concat hdown hnone) (canonicalWalk_of_behind h))

theorem freeWay_of_canonicalFrom {links : Nat} {segments : List Name} {loc found : Location}
    (hclear : fs.Clear loc) (h : fs.canonicalFrom links loc segments = .ok found) :
    fs.FreeWay loc (segments.filterMap Step.ofSegment?) found := by
  induction links generalizing loc segments with
  | zero =>
    rw [canonicalFrom] at h
    exact freeWay_of_canonicalWalk hclear (fun _ _ _ _ hjump => by cases hjump) h
  | succ links ih =>
    rw [canonicalFrom] at h
    refine freeWay_of_canonicalWalk hclear (fun loc target rest hclear hjump => ?_) h
    have hclear' : fs.Clear (if target.isAbsolute then [] else loc) := by
      split
      · exact ⟨by simp, fun above habove => hclear.noLink above (habove.trans List.nil_prefix)⟩
      · exact hclear
    have hway := ih hclear' hjump
    rwa [List.filterMap_append] at hway

theorem currentLocation_eq_ok {loc : Location} (h : fs.currentLocation = .ok loc) :
    fs.current.lost = 0 ∧ loc = fs.current.location := by
  rw [currentLocation] at h
  split at h
  · exact ⟨‹_›, (Except.ok.inj h).symm⟩
  · cases h

/-- A question that starts where a path begins. -/
theorem anchored_of_start {α : Type} {f : Location → Except Fault α} {a : α}
    (h : (if p.isAbsolute = true then Except.ok [] >>= f else fs.currentLocation >>= f) = .ok a) :
    fs.Anchored p ∧ f (fs.beginning p) = .ok a := by
  rw [beginning]
  split at h
  · rename_i habsolute
    rw [if_pos habsolute]
    exact ⟨Or.inl habsolute, h⟩
  · rename_i hrelative
    obtain ⟨start, hstart, hf⟩ := exists_of_bind_eq_ok h
    obtain ⟨hlost, rfl⟩ := currentLocation_eq_ok hstart
    rw [if_neg hrelative]
    exact ⟨Or.inr hlost, hf⟩

/-- The canonical location of a path is where the path is made. -/
theorem madeAt_of_canonical (hfs : fs.Valid) {loc : Location} (h : fs.canonical p = .ok loc) :
    fs.Anchored p ∧ fs.MadeAt p loc := by
  rw [canonical] at h
  split at h
  · cases h
  split at h
  · cases h
  obtain ⟨hanchored, hfrom⟩ := anchored_of_start h
  exact ⟨hanchored, freeWay_of_canonicalFrom (hfs.clear_beginning p) hfrom⟩

/-- A directory is at the canonical location of its path. -/
theorem treads_of_canonical (hfs : fs.Valid) {loc : Location} (h : fs.canonical p = .ok loc)
    {mode : Mode} {entries : List (Name × Entry)}
    (hlookup : fs.lookup .itself p = .ok (.directory mode entries)) :
    fs.Treads p loc ∧ fs.find? loc = some (.directory mode entries) := by
  obtain ⟨hanchored, hmadeAt⟩ := madeAt_of_canonical hfs h
  obtain ⟨found, htreads, hfind⟩ := treads_of_lookup hanchored (lookup_target_of_itself hlookup)
  obtain rfl := htreads.reaches.eq hmadeAt
  exact ⟨htreads, hfind⟩

/-- The canonical location of a path that meets no link is the one that it spells. -/
theorem canonical_eq_ok (hfs : fs.Valid) (hfree : fs.LinkFree p) {loc : Location}
    (h : fs.canonical p = .ok loc) : fs.Anchored p ∧ loc = fs.spelled p := by
  obtain ⟨hanchored, hmade⟩ := madeAt_of_canonical hfs h
  exact ⟨hanchored, hmade.eq hfree.madeAt⟩

end FileRoutes.FileSystem
