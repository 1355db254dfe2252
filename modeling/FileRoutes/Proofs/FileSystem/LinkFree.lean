import FileRoutes.Proofs.FileSystem.Moves
import FileRoutes.Proofs.FileSystem.View
import FileRoutes.Proofs.Success
import FileRoutes.FileSystem.Reading

/-!
# Paths that meet no link

A path spells a location: the one that its moves lead to from where it begins (`FileSystem.spelled`).
If there is no link where the path passes (`LinkFree`), it leads to the location it spells or nowhere.
So the questions to the file system are answered by what is at that location (`lookup_eq`,
`exists_of_slot`).

Only the moves of a path matter, and only the links among what is there.  Hence a path still meets no
link after changes that make none (`LinkFree.of_alters`), whatever else they do on its way.

A relative path begins nowhere if the current directory has been removed; `Anchored` rules this out.
-/

namespace FileRoutes.FileSystem

/-- Where a path begins. -/
def beginning (fs : FileSystem) (p : Path) : Location :=
  if p.isAbsolute then [] else fs.current.location

/-- The path begins at a location. -/
def Anchored (fs : FileSystem) (p : Path) : Prop := p.isAbsolute = true ∨ fs.current.lost = 0

/-- The location that a path spells. -/
def spelled (fs : FileSystem) (p : Path) : Location := p.moves.foldl Step.move (fs.beginning p)

/-- There is no link where the path passes, nor where it ends. -/
def LinkFree (fs : FileSystem) (p : Path) : Prop :=
  ∀ way, way <+: p.moves → ∀ target,
    fs.find? (way.foldl Step.move (fs.beginning p)) ≠ some (.link target)

/-- A place is at a location: it is an entry there, or a name that a directory does not have. -/
def Leads (fs : FileSystem) (place : Place) (loc : Location) : Prop :=
  place = .entry loc ∨ ∃ directory name, place = .gap directory name ∧ loc = directory ++ [name] ∧
    fs.HasDirectory directory ∧ fs.find? loc = none

section Walk

variable {fs : FileSystem} {purpose : Purpose} {loc : Location}

theorem directoryAt_eq_ok {found : Mode × List (Name × Entry)} (h : fs.directoryAt loc = .ok found) :
    fs.find? loc = some (.directory found.1 found.2) := by
  rw [directoryAt] at h
  split at h
  · rename_i hfind
    rw [← Except.ok.inj h]
    exact hfind
  · cases h

theorem directoryOf_eq_ok {mode : Mode} {entries : List (Name × Entry)}
    (h : fs.directoryOf ⟨loc, 0⟩ = .ok (mode, entries)) :
    fs.find? loc = some (.directory mode entries) := by
  rw [directoryOf, if_pos rfl] at h
  exact directoryAt_eq_ok h

theorem searchable_eq_ok {entries : List (Name × Entry)} (h : fs.searchable ⟨loc, 0⟩ = .ok entries) :
    ∃ mode, mode.search = true ∧ fs.find? loc = some (.directory mode entries) := by
  obtain ⟨⟨mode, es⟩, hdirectory, h⟩ := exists_of_bind_eq_ok h
  simp only at h
  split at h
  · rename_i hsearch
    obtain rfl := Except.ok.inj h
    exact ⟨mode, hsearch, directoryOf_eq_ok hdirectory⟩
  · cases h

theorem find?_append_singleton {mode : Mode} {entries : List (Name × Entry)}
    (h : fs.find? loc = some (.directory mode entries)) (name : Name) :
    fs.find? (loc ++ [name]) = entries.lookup name := by
  rw [find?, Entry.find?_append_of_eq_some h, Entry.find?_directory_cons]
  cases entries.lookup name <;> simp

theorem searchable_of_find? {mode : Mode} {entries : List (Name × Entry)}
    (h : fs.find? loc = some (.directory mode entries)) (hsearch : mode.search = true) :
    fs.searchable ⟨loc, 0⟩ = .ok entries := by
  have hdirectory : fs.directoryOf ⟨loc, 0⟩ = .ok (mode, entries) := by
    rw [directoryOf, if_pos rfl, directoryAt, h]
  simp [searchable, hdirectory, hsearch, bind, Except.bind]

theorem find?_ne_link {e : Entry} (he : fs.find? loc = some e) (hlink : ∀ target, e ≠ .link target)
    (target : Path) : fs.find? loc ≠ some (.link target) :=
  fun heq => hlink target (Option.some.inj (he.symm.trans heq))

/-! ### Names

A walk looks something up at a name only.  In a directory that may be searched it comes to what has the
name (`walkDown`), unless the name is too long or a file is to be created behind a slash. -/

/-- What a walk comes to at a name in a directory that may be searched. -/
def walkDown (fs : FileSystem) (purpose : Purpose)
    (jump : Location → Path → List Step → Except Fault Place) (directory : Location) (name : Name)
    (rest : List Step) : Except Fault Place :=
  match fs.find? (directory ++ [name]) with
  | none => if rest = [] then .ok (.gap directory name) else .error .missing
  | some (.link target) =>
    if purpose = .itself ∧ rest = [] then .ok (.entry (directory ++ [name]))
    else jump directory target rest
  | some _ => fs.walk purpose jump (.ofLocation (directory ++ [name])) rest

variable {jump : Location → Path → List Step → Except Fault Place} {name : Name} {rest : List Step}
  {place : Place}

theorem walkDown_of_missing (hnone : fs.find? (loc ++ [name]) = none) :
    fs.walkDown purpose jump loc name rest =
      if rest = [] then .ok (.gap loc name) else .error .missing := by
  rw [walkDown, hnone]

theorem walkDown_of_link {target : Path} (hlink : fs.find? (loc ++ [name]) = some (.link target)) :
    fs.walkDown purpose jump loc name rest =
      if purpose = .itself ∧ rest = [] then .ok (.entry (loc ++ [name])) else jump loc target rest := by
  rw [walkDown, hlink]

theorem walkDown_of_found {e : Entry} (he : fs.find? (loc ++ [name]) = some e)
    (hlink : ∀ target, e ≠ .link target) :
    fs.walkDown purpose jump loc name rest = fs.walk purpose jump ⟨loc ++ [name], 0⟩ rest := by
  rw [walkDown, he]
  cases e with
  | link target => exact absurd rfl (hlink target)
  | file mode contents => rfl
  | directory mode entries => rfl

theorem walk_down_eq {mode : Mode} {entries : List (Name × Entry)}
    (hfind : fs.find? loc = some (.directory mode entries)) (hsearch : mode.search = true) :
    fs.walk purpose jump ⟨loc, 0⟩ (.down name :: rest) =
      if purpose = .creation ∧ (rest.all (· = .settle)) = true ∧ rest ≠ [] then .error .isDirectory
      else if name.length > nameLimit then .error .nameTooLong
      else fs.walkDown purpose jump loc name rest := by
  rw [walk.eq_def]
  simp only [searchable_of_find? hfind hsearch, bind, Except.bind, ne_eq, not_true_eq_false, if_false]
  rw [← find?_append_singleton hfind]
  rfl

/-- A name is followed in a directory that may be searched, if it is not too long and no file is to be
created behind a slash. -/
theorem walk_down_eq_ok_iff :
    fs.walk purpose jump ⟨loc, 0⟩ (.down name :: rest) = .ok place ↔
      (∃ mode entries, mode.search = true ∧ fs.find? loc = some (.directory mode entries)) ∧
        name.length ≤ nameLimit ∧
        ¬ (purpose = .creation ∧ (rest.all (· = .settle)) = true ∧ rest ≠ []) ∧
        fs.walkDown purpose jump loc name rest = .ok place := by
  constructor
  · intro h
    obtain ⟨mode, entries, hsearch, hfind⟩ : ∃ mode entries, mode.search = true ∧
        fs.find? loc = some (.directory mode entries) := by
      rw [walk] at h
      obtain ⟨entries, hsearchable, -⟩ := exists_of_bind_eq_ok h
      obtain ⟨mode, hsearch, hfind⟩ := searchable_eq_ok hsearchable
      exact ⟨mode, entries, hsearch, hfind⟩
    rw [walk_down_eq hfind hsearch] at h
    split at h
    · cases h
    split at h
    · cases h
    · exact ⟨⟨mode, entries, hsearch, hfind⟩, Nat.le_of_not_lt ‹_›, ‹_›, h⟩
  · rintro ⟨⟨mode, entries, hsearch, hfind⟩, hlength, hend, h⟩
    rw [walk_down_eq hfind hsearch, if_neg hend, if_neg (Nat.not_lt.mpr hlength)]
    exact h

/-- Where a name is followed there is a directory; the name is the last one and missing in it, or is that
of a link, which is the end or is followed, or is that of another entry, at which the walk goes on. -/
theorem walk_down_eq_ok (h : fs.walk purpose jump ⟨loc, 0⟩ (.down name :: rest) = .ok place) :
    (∃ mode entries, mode.search = true ∧ fs.find? loc = some (.directory mode entries)) ∧
      name.length ≤ nameLimit ∧
      ((fs.find? (loc ++ [name]) = none ∧ rest = [] ∧ place = .gap loc name) ∨
        (∃ target, fs.find? (loc ++ [name]) = some (.link target) ∧
          if purpose = .itself ∧ rest = [] then place = .entry (loc ++ [name])
          else jump loc target rest = .ok place) ∨
        ∃ e, fs.find? (loc ++ [name]) = some e ∧ (∀ target, e ≠ .link target) ∧
          fs.walk purpose jump ⟨loc ++ [name], 0⟩ rest = .ok place) := by
  obtain ⟨hopen, hlength, -, hdown⟩ := walk_down_eq_ok_iff.mp h
  refine ⟨hopen, hlength, ?_⟩
  cases hfind : fs.find? (loc ++ [name]) with
  | none =>
    rw [walkDown_of_missing hfind] at hdown
    split at hdown
    · exact Or.inl ⟨rfl, ‹_›, (Except.ok.inj hdown).symm⟩
    · cases hdown
  | some e =>
    rcases e.link_or_not with ⟨target, rfl⟩ | hlink
    · rw [walkDown_of_link hfind] at hdown
      refine Or.inr (Or.inl ⟨target, rfl, ?_⟩)
      split at hdown
      · rw [if_pos ‹_›]
        exact (Except.ok.inj hdown).symm
      · rw [if_neg ‹_›]
        exact hdown
    · rw [walkDown_of_found hfind hlink] at hdown
      exact Or.inr (Or.inr ⟨e, rfl, hlink, hdown⟩)

/-! ### Steps -/

/-- Steps that meet no link lead where they move. -/
theorem leads_of_walk {steps : List Step}
    (hfree : ∀ way, way <+: steps → ∀ target, fs.find? (way.foldl Step.move loc) ≠ some (.link target))
    (h : fs.walk purpose jump ⟨loc, 0⟩ steps = .ok place) :
    fs.Leads place (steps.foldl Step.move loc) := by
  induction steps generalizing loc with
  | nil =>
    rw [walk, if_pos rfl] at h
    exact Or.inl (Except.ok.inj h).symm
  | cons step rest ih =>
    have hrest : ∀ way, way <+: rest → ∀ target,
        fs.find? (way.foldl Step.move (Step.move loc step)) ≠ some (.link target) :=
      fun way hway => hfree (step :: way) (List.cons_prefix_cons.mpr ⟨rfl, hway⟩)
    cases step with
    | settle =>
      rw [walk] at h
      obtain ⟨-, -, h⟩ := exists_of_bind_eq_ok h
      exact ih hrest h
    | stay =>
      rw [walk] at h
      obtain ⟨-, -, h⟩ := exists_of_bind_eq_ok h
      exact ih hrest h
    | up =>
      rw [walk] at h
      obtain ⟨-, -, h⟩ := exists_of_bind_eq_ok h
      exact ih hrest h
    | down name =>
      obtain ⟨⟨mode, entries, -, hfind⟩, -, hgo⟩ := walk_down_eq_ok h
      rcases hgo with ⟨hnone, rfl, rfl⟩ | ⟨target, hlink, -⟩ | ⟨-, -, -, hgo⟩
      · exact Or.inr ⟨loc, name, rfl, rfl, ⟨mode, entries, hfind⟩, hnone⟩
      · exact absurd hlink (hrest [] List.nil_prefix target)
      · exact ih hrest hgo

/-- From a removed directory there is no way but up. -/
theorem eq_removed_of_walk {lost : Nat} (hlost : lost ≠ 0) {steps : List Step} (hup : Step.up ∉ steps)
    (h : fs.walk purpose jump ⟨loc, lost⟩ steps = .ok place) : place = .removed := by
  induction steps with
  | nil =>
    rw [walk, if_neg hlost] at h
    exact (Except.ok.inj h).symm
  | cons step rest ih =>
    obtain ⟨hstep, hrest⟩ := not_or.mp (List.mem_cons.not.mp hup)
    cases step with
    | settle =>
      rw [walk] at h
      obtain ⟨-, -, h⟩ := exists_of_bind_eq_ok h
      exact ih hrest h
    | stay =>
      rw [walk] at h
      obtain ⟨-, -, h⟩ := exists_of_bind_eq_ok h
      exact ih hrest h
    | up => exact absurd rfl hstep
    | down name =>
      rw [walk] at h
      obtain ⟨entries, -, hgo⟩ := exists_of_bind_eq_ok h
      simp only at hgo
      split at hgo
      · cases hgo
      · cases hgo

end Walk

/-! ## Paths -/

section Paths

variable {fs : FileSystem} {purpose : Purpose} {p : Path}

/-- Following steps is a walk that goes on somehow at a link. -/
theorem exists_follow_eq (fs : FileSystem) (purpose : Purpose) (links : Nat) :
    ∃ jump, ∀ s steps, fs.follow purpose links s steps = fs.walk purpose jump s steps := by
  cases links with
  | zero => exact ⟨_, fun s steps => by rw [follow]⟩
  | succ links => exact ⟨_, fun s steps => by rw [follow]⟩

theorem start_eq_ok {s : Spot} (h : fs.start p = .ok s) :
    s = if p.isAbsolute then .ofLocation [] else fs.current := by
  rw [start] at h
  split at h
  · cases h
  split at h
  · cases h
  split at h
  · cases h
  · exact (Except.ok.inj h).symm

theorem spot_eq_of_anchored (h : fs.Anchored p) :
    (if p.isAbsolute then .ofLocation [] else fs.current : Spot) = ⟨fs.beginning p, 0⟩ := by
  rw [beginning]
  rcases h with habsolute | hlost
  · rw [if_pos habsolute, if_pos habsolute]
    rfl
  · split
    · rfl
    · rw [← hlost]

/-- The demand for a directory leads nowhere else. -/
theorem foldl_move_steps (p : Path) (loc : Location) :
    p.steps.foldl Step.move loc = p.moves.foldl Step.move loc := by
  rcases p.steps_eq with ⟨h, -⟩ | h
  · rw [h]
  · rw [h, List.foldl_append]
    rfl

theorem LinkFree.steps (h : fs.LinkFree p) : ∀ way, way <+: p.steps → ∀ target,
    fs.find? (way.foldl Step.move (fs.beginning p)) ≠ some (.link target) := by
  intro way hway
  rcases p.steps_eq with ⟨hsteps, -⟩ | hsteps
  · rw [hsteps] at hway
    exact h way hway
  · rw [hsteps, List.prefix_concat_iff] at hway
    rcases hway with rfl | hway
    · rw [List.foldl_append]
      exact h p.moves (List.prefix_refl _)
    · exact h way hway

/-- A path that meets no link leads to the location that it spells. -/
theorem leads_of_resolve (hfree : fs.LinkFree p) (hanchored : fs.Anchored p) {place : Place}
    (h : fs.resolve purpose p = .ok place) : fs.Leads place (fs.spelled p) := by
  obtain ⟨s, hstart, hfollow⟩ := exists_of_bind_eq_ok h
  obtain ⟨jump, hjump⟩ := fs.exists_follow_eq purpose linkLimit
  rw [hjump, start_eq_ok hstart, spot_eq_of_anchored hanchored] at hfollow
  rw [spelled, ← foldl_move_steps]
  exact leads_of_walk hfree.steps hfollow

/-- An entry that a path leads to is at the location that the path spells. -/
theorem lookup_eq_ok (hfree : fs.LinkFree p) (hanchored : fs.Anchored p) {e : Entry}
    (h : fs.lookup purpose p = .ok e) : fs.find? (fs.spelled p) = some e := by
  obtain ⟨place, hresolve, h⟩ := exists_of_bind_eq_ok h
  rcases leads_of_resolve hfree hanchored hresolve with rfl | ⟨directory, name, rfl, -⟩
  · simp only at h
    split at h
    · rename_i hfind
      rw [hfind, Except.ok.inj h]
    · cases h
  · cases h

/-- The steps of a path are split before its last move. -/
theorem splitLast_steps (p : Path) :
    ∃ slashed, splitLast p.steps = (p.moves.dropLast, p.moves.getLast?, slashed) := by
  rcases p.steps_eq with ⟨hsteps, -⟩ | hsteps
  · have hlast : p.moves.getLast? ≠ some .settle := fun h =>
      p.settle_notMem_moves (List.mem_of_getLast? h)
    exact ⟨false, by rw [hsteps, splitLast]; simp [hlast]⟩
  · exact ⟨true, by rw [hsteps, splitLast]; simp⟩

/-- The name of a path that ends in a slash is followed by it. -/
theorem slashed_of_slot (hlast : p.last = []) {s : Slot} {name : Name} (h : fs.slot p = .ok s)
    (hname : s.name? = some name) : s.slashed = true := by
  have hsplit : ∃ before last?, splitLast p.steps = (before, last?, true) ∨ last? = none ∧
      splitLast p.steps = (before, last?, false) := by
    by_cases hinitial : p.initial = []
    · refine ⟨[], none, Or.inr ⟨rfl, ?_⟩⟩
      rw [Path.steps, hlast, hinitial]
      rfl
    · refine ⟨p.moves.dropLast, p.moves.getLast?, Or.inl ?_⟩
      have hsteps : p.steps = p.moves ++ [.settle] := by
        rw [Path.steps, hlast, Path.moves, Path.segments, hlast]
        simp [Step.ofSegment?, hinitial]
      rw [hsteps, splitLast]
      simp
  obtain ⟨before, last?, hsplit⟩ := hsplit
  obtain ⟨spot, hstart, h⟩ := exists_of_bind_eq_ok h
  rcases hsplit with hsplit | ⟨rfl, hsplit⟩
  · simp only [hsplit] at h
    obtain ⟨place, -, h⟩ := exists_of_bind_eq_ok h
    cases place with
    | gap directory last => cases h
    | removed =>
      simp only at h
      split at h
      · cases h
      · obtain rfl := Except.ok.inj h
        rfl
    | entry directory =>
      simp only at h
      obtain ⟨⟨mode, entries⟩, -, h⟩ := exists_of_bind_eq_ok h
      simp only at h
      split at h
      · cases h
      split at h
      · obtain rfl := Except.ok.inj h
        rfl
      · obtain rfl := Except.ok.inj h
        rfl
  · simp only [hsplit] at h
    obtain ⟨place, -, h⟩ := exists_of_bind_eq_ok h
    cases place with
    | gap directory last => cases h
    | removed =>
      obtain rfl := Except.ok.inj h
      cases hname
    | entry directory =>
      simp only at h
      obtain ⟨⟨mode, entries⟩, -, h⟩ := exists_of_bind_eq_ok h
      simp only at h
      split at h
      · cases h
      · obtain rfl := Except.ok.inj h
        cases hname

end Paths

/-! ## Longer and shorter paths -/

section GoesOn

variable {fs : FileSystem} {p q : Path} {names : List Name}

theorem beginning_of_isAbsolute_eq (h : q.isAbsolute = p.isAbsolute) :
    fs.beginning q = fs.beginning p := by
  rw [beginning, beginning, h]

theorem Anchored.of_isAbsolute_eq (hp : fs.Anchored p) (h : q.isAbsolute = p.isAbsolute) :
    fs.Anchored q :=
  hp.imp_left h.trans

theorem spelled_of_goesOn (h : p.GoesOn names q) : fs.spelled q = fs.spelled p ++ names := by
  rw [spelled, beginning_of_isAbsolute_eq h.isAbsolute_eq, h.moves_eq, List.foldl_append,
    Step.foldl_move_map_down]
  rfl

/-- A path that goes on meets no link if there is none at the end of the first one or below. -/
theorem LinkFree.goesOn (hfree : fs.LinkFree p)
    (hbelow : ∀ below target, fs.find? (fs.spelled p ++ below) ≠ some (.link target))
    (h : p.GoesOn names q) : fs.LinkFree q := by
  intro way hway target
  rw [h.moves_eq] at hway
  rw [beginning_of_isAbsolute_eq h.isAbsolute_eq]
  rcases List.prefix_or_prefix_of_prefix hway (List.prefix_append p.moves _) with hway' | ⟨rest, rfl⟩
  · exact hfree way hway' target
  · rw [List.prefix_append_right_inj] at hway
    obtain ⟨below, -, rfl⟩ := List.prefix_map_iff.mp hway
    rw [List.foldl_append, Step.foldl_move_map_down]
    exact hbelow below target

end GoesOn

/-! ## After changes -/

section Alters

variable {fs fs' : FileSystem} {part : Location → Prop} {p : Path} {loc : Location}

theorem Alters.beginning_eq (h : Alters part fs fs') (p : Path) : fs'.beginning p = fs.beginning p := by
  rw [beginning, beginning, h.current_eq]

theorem Alters.spelled_eq (h : Alters part fs fs') (p : Path) : fs'.spelled p = fs.spelled p := by
  rw [spelled, spelled, h.beginning_eq]

theorem Alters.anchored (h : Alters part fs fs') (hp : fs.Anchored p) : fs'.Anchored p := by
  rw [Anchored, h.current_eq]
  exact hp

theorem Alters.linkFree (h : Alters part fs fs') (hp : fs.LinkFree p) : fs'.LinkFree p := by
  intro way hway target hfind
  rw [h.beginning_eq] at hfind
  exact hp way hway target (h.link _ target hfind)

/-- A walk that ends at a directory begins at one. -/
theorem hasDirectory_of_walk {jump : Location → Path → List Step → Except Fault Place}
    {purpose : Purpose} {steps : List Step} {place : Place}
    (h : fs.walk purpose jump ⟨loc, 0⟩ steps = .ok place)
    (hend : fs.HasDirectory (steps.foldl Step.move loc)) : fs.HasDirectory loc := by
  cases steps with
  | nil => exact hend
  | cons step rest =>
    cases step with
    | settle =>
      rw [walk] at h
      obtain ⟨⟨mode, entries⟩, hdirectory, -⟩ := exists_of_bind_eq_ok h
      exact ⟨mode, entries, directoryOf_eq_ok hdirectory⟩
    | stay =>
      rw [walk] at h
      obtain ⟨entries, hsearchable, -⟩ := exists_of_bind_eq_ok h
      obtain ⟨mode, -, hfind⟩ := searchable_eq_ok hsearchable
      exact ⟨mode, entries, hfind⟩
    | up =>
      rw [walk] at h
      obtain ⟨entries, hsearchable, -⟩ := exists_of_bind_eq_ok h
      obtain ⟨mode, -, hfind⟩ := searchable_eq_ok hsearchable
      exact ⟨mode, entries, hfind⟩
    | down name =>
      obtain ⟨⟨mode, entries, -, hfind⟩, -⟩ := walk_down_eq_ok h
      exact ⟨mode, entries, hfind⟩

/-- A walk goes on at what the name leads to, be it that more than a slash follows or that none is asked
for. -/
theorem walk_down_of_found {jump : Location → Path → List Step → Except Fault Place}
    {purpose : Purpose} {mode : Mode} {entries : List (Name × Entry)} {name : Name} {e : Entry}
    {rest : List Step} (hfind : fs.find? loc = some (.directory mode entries))
    (hsearch : mode.search = true) (hlength : name.length ≤ nameLimit)
    (he : fs.find? (loc ++ [name]) = some e) (hlink : ∀ target, e ≠ .link target)
    (hrest : purpose = .creation → rest = [] ∨ ∃ step ∈ rest, step ≠ .settle) :
    fs.walk purpose jump ⟨loc, 0⟩ (.down name :: rest) =
      fs.walk purpose jump ⟨loc ++ [name], 0⟩ rest := by
  have hend : ¬ (purpose = .creation ∧ (rest.all (· = .settle)) = true ∧ rest ≠ []) := by
    rintro ⟨hpurpose, hall, hne⟩
    obtain ⟨step, hstep, hsettle⟩ := (hrest hpurpose).resolve_left hne
    exact hsettle (by simpa using List.all_eq_true.mp hall step hstep)
  rw [walk_down_eq hfind hsearch, if_neg hend, if_neg (Nat.not_lt.mpr hlength), walkDown_of_found he hlink]

/-- A walk goes on where the link leads that has the name. -/
theorem walk_down_of_link {jump : Location → Path → List Step → Except Fault Place}
    {purpose : Purpose} {mode : Mode} {entries : List (Name × Entry)} {name : Name} {target : Path}
    {rest : List Step} (hfind : fs.find? loc = some (.directory mode entries))
    (hsearch : mode.search = true) (hlength : name.length ≤ nameLimit)
    (hlink : fs.find? (loc ++ [name]) = some (.link target))
    (hrest : purpose = .target ∨ ∃ step ∈ rest, step ≠ .settle) :
    fs.walk purpose jump ⟨loc, 0⟩ (.down name :: rest) = jump loc target rest := by
  have hend : ¬ (purpose = .creation ∧ (rest.all (· = .settle)) = true ∧ rest ≠ []) := by
    rintro ⟨rfl, hall, -⟩
    obtain ⟨step, hstep, hsettle⟩ := hrest.resolve_left (by simp)
    exact hsettle (by simpa using List.all_eq_true.mp hall step hstep)
  have hitself : ¬ (purpose = .itself ∧ rest = []) := by
    rintro ⟨rfl, rfl⟩
    obtain ⟨step, hstep, -⟩ := hrest.resolve_left (by simp)
    cases hstep
  rw [walk_down_eq hfind hsearch, if_neg hend, if_neg (Nat.not_lt.mpr hlength), walkDown_of_link hlink,
    if_neg hitself]

theorem Alters.exists_directory (h : Alters part fs fs') {mode : Mode}
    {entries : List (Name × Entry)} (hloc : fs.find? loc = some (.directory mode entries)) :
    ∃ entries', fs'.find? loc = some (.directory mode entries') :=
  view_eq_directory_iff.mp (h.directory loc mode (view_eq_directory_iff.mpr ⟨entries, hloc⟩))

theorem Alters.searchable (h : Alters part fs fs') {entries : List (Name × Entry)}
    (hloc : fs.searchable ⟨loc, 0⟩ = .ok entries) :
    ∃ entries', fs'.searchable ⟨loc, 0⟩ = .ok entries' := by
  obtain ⟨mode, hsearch, hfind⟩ := searchable_eq_ok hloc
  obtain ⟨entries', hfind'⟩ := h.exists_directory hfind
  exact ⟨entries', searchable_of_find? hfind' hsearch⟩

/-- A walk to a directory stays possible, and does not depend on whether a link at its end is to be
followed. -/
theorem Alters.walk (h : Alters part fs fs')
    {jump : Location → Path → List Step → Except Fault Place}
    {purpose : Purpose} {steps : List Step} {place : Place}
    (hfree : ∀ way, way <+: steps → ∀ target,
      fs.find? (way.foldl Step.move loc) ≠ some (.link target))
    (hwalk : fs.walk purpose jump ⟨loc, 0⟩ steps = .ok place)
    (hend : fs.HasDirectory (steps.foldl Step.move loc))
    (jump' : Location → Path → List Step → Except Fault Place) :
    fs'.walk .target jump' ⟨loc, 0⟩ steps = .ok place := by
  induction steps generalizing loc with
  | nil =>
    rw [FileSystem.walk] at hwalk ⊢
    exact hwalk
  | cons step rest ih =>
    have hrest : ∀ way, way <+: rest → ∀ target,
        fs.find? (way.foldl Step.move (Step.move loc step)) ≠ some (.link target) :=
      fun way hway => hfree (step :: way) (List.cons_prefix_cons.mpr ⟨rfl, hway⟩)
    cases step with
    | settle =>
      rw [FileSystem.walk] at hwalk ⊢
      obtain ⟨⟨mode, entries⟩, hdirectory, hgo⟩ := exists_of_bind_eq_ok hwalk
      obtain ⟨entries', hfind⟩ := h.exists_directory (directoryOf_eq_ok hdirectory)
      have hdirectory' : fs'.directoryOf ⟨loc, 0⟩ = .ok (mode, entries') := by
        rw [directoryOf, if_pos rfl, directoryAt, hfind]
      rw [hdirectory']
      exact ih hrest hgo hend
    | stay =>
      rw [FileSystem.walk] at hwalk ⊢
      obtain ⟨entries, hsearchable, hgo⟩ := exists_of_bind_eq_ok hwalk
      obtain ⟨entries', hsearchable'⟩ := h.searchable hsearchable
      rw [hsearchable']
      exact ih hrest hgo hend
    | up =>
      rw [FileSystem.walk] at hwalk ⊢
      obtain ⟨entries, hsearchable, hgo⟩ := exists_of_bind_eq_ok hwalk
      obtain ⟨entries', hsearchable'⟩ := h.searchable hsearchable
      rw [hsearchable']
      exact ih hrest hgo hend
    | down name =>
      obtain ⟨⟨mode, entries, hsearch, hfind⟩, hlength, hgo⟩ := walk_down_eq_ok hwalk
      rcases hgo with ⟨hnone, rfl, -⟩ | ⟨target, hlink, -⟩ | ⟨-, -, -, hgo⟩
      · exact absurd hend (not_hasDirectory_of_none hnone)
      · exact absurd hlink (hrest [] List.nil_prefix target)
      · obtain ⟨m, es, hbelow⟩ := hasDirectory_of_walk hgo hend
        obtain ⟨entries', hfind'⟩ := h.exists_directory hfind
        obtain ⟨es', hbelow'⟩ := h.exists_directory hbelow
        rw [walk_down_of_found hfind' hsearch hlength hbelow' (by simp) (by simp)]
        exact ih hrest hgo hend

/-- A path that leads to a directory still leads there, and to the same one if nothing was changed in
it. -/
theorem Alters.lookup_directory (h : Alters part fs fs') (hfree : fs.LinkFree p)
    (hanchored : fs.Anchored p) {purpose : Purpose} {mode : Mode} {entries : List (Name × Entry)}
    (hlookup : fs.lookup purpose p = .ok (.directory mode entries))
    (hsame : fs'.find? (fs.spelled p) = fs.find? (fs.spelled p)) :
    fs'.lookup .target p = .ok (.directory mode entries) := by
  have hfind := lookup_eq_ok hfree hanchored hlookup
  obtain ⟨place, hresolve, -⟩ := exists_of_bind_eq_ok hlookup
  obtain ⟨s, hstart, hfollow⟩ := exists_of_bind_eq_ok hresolve
  have hend : fs.HasDirectory (p.steps.foldl Step.move (fs.beginning p)) := by
    rw [foldl_move_steps]
    exact ⟨mode, entries, hfind⟩
  obtain ⟨jump, hjump⟩ := fs.exists_follow_eq purpose linkLimit
  obtain ⟨jump', hjump'⟩ := fs'.exists_follow_eq .target linkLimit
  rw [hjump, start_eq_ok hstart, spot_eq_of_anchored hanchored] at hfollow
  have hplace : place = .entry (fs.spelled p) := by
    rcases leads_of_resolve hfree hanchored hresolve with hplace | ⟨d, n, -, -, -, hnone⟩
    · exact hplace
    · rw [hnone] at hfind
      cases hfind
  have hstart' : fs'.start p = .ok s := by
    rw [← hstart, start, start, h.current_eq]
  have hresolve' : fs'.resolve .target p = .ok place := by
    rw [resolve, hstart']
    show fs'.follow .target linkLimit s p.steps = _
    rw [hjump', start_eq_ok hstart, spot_eq_of_anchored hanchored]
    exact h.walk hfree.steps hfollow hend jump'
  rw [lookup, hresolve', hplace]
  simp only [bind, Except.bind, hsame, hfind]

end Alters

end FileRoutes.FileSystem
