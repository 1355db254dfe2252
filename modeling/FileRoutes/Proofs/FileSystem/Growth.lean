import FileRoutes.Proofs.FileSystem.Outcomes

/-!
# A file system that grows

Directories are made and files are written, but nothing is taken away: directories keep their modes,
links what they hold, and files stay files (`Grows`).  What a path led to it then leads to still
(`Grows.locate_eq_ok`), and the name that it ended in without finding anything it finds once there is
something (`Grows.locate_of_place`).

Nothing is asked of where a path begins here.  A relative path may start in a current directory that was
removed and come up from there, so what is proved of the system's walk is proved for every spot.

## What is written

* Making directories grows the file system by empty directories, each of which is found by one of the
  paths that were tried (`createDirectories_adds`), and afterwards the path leads to a directory.
* Writing a file changes what is found by its path afterwards, and keeps the mode of a file that was there
  (`writeBytes_writes`).
-/

namespace FileRoutes.FileSystem

variable {fs fs' fs'' : FileSystem}

/-! ## Growing -/

/-- Directories with their modes, links, and files as files stay. -/
structure Grows (fs fs' : FileSystem) : Prop extends Keeps fs fs' where
  file : ∀ loc mode contents, fs.find? loc = some (.file mode contents) →
    ∃ mode' contents', fs'.find? loc = some (.file mode' contents')

namespace Grows

theorem refl (fs : FileSystem) : Grows fs fs :=
  ⟨⟨rfl, fun _ _ h => h, fun _ _ h => h⟩, fun _ mode contents h => ⟨mode, contents, h⟩⟩

theorem trans (h : Grows fs fs') (h' : Grows fs' fs'') : Grows fs fs'' where
  toKeeps := h.toKeeps.trans h'.toKeeps
  file loc mode contents hfile := by
    obtain ⟨mode', contents', hfile'⟩ := h.file loc mode contents hfile
    exact h'.file loc mode' contents' hfile'

/-- A directory has the same mode, and may have more entries. -/
theorem exists_directory (h : Grows fs fs') {loc : Location} {mode : Mode} {entries : List (Name × Entry)}
    (hfind : fs.find? loc = some (.directory mode entries)) :
    ∃ entries', fs'.find? loc = some (.directory mode entries') :=
  view_eq_directory_iff.mp (h.directory loc mode (view_eq_directory_iff.mpr ⟨entries, hfind⟩))

/-- What is no link is replaced by no link. -/
theorem exists_of_find? (h : Grows fs fs') {loc : Location} {e : Entry} (he : fs.find? loc = some e)
    (hlink : ∀ target, e ≠ .link target) :
    ∃ e', fs'.find? loc = some e' ∧ ∀ target, e' ≠ .link target := by
  cases e with
  | file mode contents =>
    obtain ⟨mode', contents', hfile⟩ := h.file loc mode contents he
    exact ⟨_, hfile, fun target heq => by cases heq⟩
  | link target => exact absurd rfl (hlink target)
  | directory mode entries =>
    obtain ⟨entries', hfind⟩ := h.exists_directory he
    exact ⟨_, hfind, fun target heq => by cases heq⟩

/-- An entry where nothing was. -/
theorem of_sets {loc : Location} {new : Entry} (hnone : fs.find? loc = none) (h : Sets loc new fs fs') :
    Grows fs fs' where
  toKeeps := (h.shows.touches (by simp [hnone])).keeps
  file l mode contents hfile := by
    refine ⟨mode, contents, ?_⟩
    rw [← view_eq_file_iff, h.view_eq, if_neg, view_eq_file_iff]
    · exact hfile
    · rintro rfl
      rw [hnone] at hfile
      cases hfile

/-- A file in place of a file. -/
theorem of_sets_file {loc : Location} {mode mode' : Mode} {contents contents' : Bytes}
    (hfile : fs.find? loc = some (.file mode contents)) (h : Sets loc (.file mode' contents') fs fs') :
    Grows fs fs' where
  toKeeps := (h.shows.touches fun target hlink => by rw [hfile] at hlink; cases hlink).keeps
  file l m c hl := by
    by_cases heq : l = loc
    · exact ⟨mode', contents', heq ▸ h.find?_self⟩
    · refine ⟨m, c, ?_⟩
      rw [← view_eq_file_iff, h.view_eq, if_neg heq, view_eq_file_iff]
      exact hl

end Grows

/-- Making directories makes the file system grow. -/
theorem Makes.grows {places : Location → Prop} (h : Makes places fs fs') : Grows fs fs' where
  toKeeps := h.touches.keeps
  file loc mode contents hfile := by
    refine ⟨mode, contents, ?_⟩
    rw [← view_eq_file_iff] at hfile ⊢
    rcases h.view_eq loc with hsame | ⟨hnone, -⟩
    · rwa [hsame]
    · rw [hnone] at hfile
      cases hfile

/-! ## Walking on -/

section Walk

variable {purpose : Purpose} {rest : List Step} {loc : Location} {place : Place}

/-- From the place on the steps lead to the location, whatever is done about links. -/
def Continues (fs : FileSystem) (rest : List Step) (loc : Location) : Place → Prop
  | .entry reached => ∀ jump, fs.walk .target jump ⟨reached, 0⟩ rest = .ok (.entry loc)
  | .gap directory name =>
    ∀ jump, fs.walk .target jump ⟨directory, 0⟩ (.down name :: rest) = .ok (.entry loc)
  | .removed => False

/-- A directory that has been reached is still there. -/
theorem Grows.directoryOf (h : Grows fs fs') {s : Spot} {mode : Mode} {entries : List (Name × Entry)}
    (hdirectory : fs.directoryOf s = .ok (mode, entries)) :
    ∃ entries', fs'.directoryOf s = .ok (mode, entries') := by
  rw [FileSystem.directoryOf] at hdirectory
  split at hdirectory
  · rename_i hlost
    rw [FileSystem.directoryAt] at hdirectory
    split at hdirectory
    · rename_i hfind
      obtain ⟨entries', hfind'⟩ := h.exists_directory hfind
      obtain ⟨rfl, rfl⟩ := Prod.mk.inj (Except.ok.inj hdirectory)
      refine ⟨entries', ?_⟩
      rw [FileSystem.directoryOf, if_pos hlost, FileSystem.directoryAt, hfind']
    · cases hdirectory
  · rename_i hlost
    exact ⟨entries, by rwa [FileSystem.directoryOf, if_neg hlost]⟩

theorem Grows.searchable (h : Grows fs fs') {s : Spot} {entries : List (Name × Entry)}
    (hsearchable : fs.searchable s = .ok entries) : ∃ entries', fs'.searchable s = .ok entries' := by
  obtain ⟨⟨mode, es⟩, hdirectory, hgo⟩ := exists_of_bind_eq_ok hsearchable
  obtain ⟨es', hdirectory'⟩ := h.directoryOf hdirectory
  simp only at hgo
  split at hgo
  · rename_i hsearch
    refine ⟨es', ?_⟩
    rw [FileSystem.searchable, hdirectory']
    simp only [bind, Except.bind, hsearch, if_true]
  · cases hgo

/-- No name is followed in a directory that was removed. -/
theorem lost_of_walk_down {jump : Location → Path → List Step → Except Fault Place} {s : Spot}
    {name : Name} (h : fs.walk purpose jump s (.down name :: rest) = .ok place) : s.lost = 0 := by
  rw [walk] at h
  obtain ⟨entries, -, hgo⟩ := exists_of_bind_eq_ok h
  simp only at hgo
  split at hgo
  · cases hgo
  split at hgo
  · cases hgo
  · exact Decidable.not_not.mp ‹_›

/-- A walk in what has grown goes the same way, and on from where it ended before. -/
theorem Grows.walk (h : Grows fs fs') {jump jump' : Location → Path → List Step → Except Fault Place}
    (hpurpose : purpose ≠ .itself) (hplace : fs'.Continues rest loc place)
    (hjump : ∀ l target steps, jump l target steps = .ok place →
      jump' l target (steps ++ rest) = .ok (.entry loc))
    {s : Spot} {steps : List Step} (hwalk : fs.walk purpose jump s steps = .ok place) :
    fs'.walk .target jump' s (steps ++ rest) = .ok (.entry loc) := by
  induction steps generalizing s with
  | nil =>
    obtain ⟨location, lost⟩ := s
    rw [FileSystem.walk] at hwalk
    split at hwalk
    · rename_i hlost
      simp only at hlost hwalk
      rw [← Except.ok.inj hwalk] at hplace
      rw [hlost]
      exact hplace jump'
    · rw [← Except.ok.inj hwalk] at hplace
      exact hplace.elim
  | cons step steps ih =>
    cases step with
    | settle =>
      rw [FileSystem.walk] at hwalk
      obtain ⟨⟨mode, entries⟩, hdirectory, hgo⟩ := exists_of_bind_eq_ok hwalk
      obtain ⟨entries', hdirectory'⟩ := h.directoryOf hdirectory
      rw [List.cons_append, FileSystem.walk, hdirectory']
      exact ih hgo
    | stay =>
      rw [FileSystem.walk] at hwalk
      obtain ⟨entries, hsearchable, hgo⟩ := exists_of_bind_eq_ok hwalk
      obtain ⟨entries', hsearchable'⟩ := h.searchable hsearchable
      rw [List.cons_append, FileSystem.walk, hsearchable']
      exact ih hgo
    | up =>
      rw [FileSystem.walk] at hwalk
      obtain ⟨entries, hsearchable, hgo⟩ := exists_of_bind_eq_ok hwalk
      obtain ⟨entries', hsearchable'⟩ := h.searchable hsearchable
      rw [List.cons_append, FileSystem.walk, hsearchable']
      exact ih hgo
    | down name =>
      obtain ⟨location, lost⟩ := s
      obtain rfl : lost = 0 := lost_of_walk_down hwalk
      obtain ⟨⟨mode, entries, hsearch, hfind⟩, hlength, hgo⟩ := walk_down_eq_ok hwalk
      obtain ⟨entries', hfind'⟩ := h.exists_directory hfind
      rcases hgo with ⟨-, rfl, rfl⟩ | ⟨target, hlink, hgo⟩ | ⟨e, hbelow, hlink, hgo⟩
      · exact hplace jump'
      · rw [if_neg fun hitself => hpurpose hitself.1] at hgo
        rw [List.cons_append, walk_down_of_link hfind' hsearch hlength (h.link _ _ hlink) (by simp)]
        exact hjump _ _ _ hgo
      · obtain ⟨e', hbelow', hlink'⟩ := h.exists_of_find? hbelow hlink
        rw [List.cons_append, walk_down_of_found hfind' hsearch hlength hbelow' hlink' (by simp)]
        exact ih hgo

theorem Grows.follow (h : Grows fs fs') (hpurpose : purpose ≠ .itself)
    (hplace : fs'.Continues rest loc place) {links : Nat} {s : Spot} {steps : List Step}
    (hfollow : fs.follow purpose links s steps = .ok place) :
    fs'.follow .target links s (steps ++ rest) = .ok (.entry loc) := by
  induction links generalizing s steps with
  | zero =>
    rw [FileSystem.follow] at hfollow ⊢
    exact h.walk hpurpose hplace (fun _ _ _ hjump => by cases hjump) hfollow
  | succ links ih =>
    rw [FileSystem.follow] at hfollow ⊢
    refine h.walk hpurpose hplace (fun l target steps hjump => ?_) hfollow
    rw [← List.append_assoc]
    exact ih hjump

/-- A directory does not have the name that a walk ends in without finding anything. -/
structure IsGap (fs : FileSystem) (directory : Location) (name : Name) : Prop where
  isOpen : fs.Open directory
  short : name.length ≤ nameLimit
  missing : fs.find? (directory ++ [name]) = none

theorem isGap_of_walk {jump : Location → Path → List Step → Except Fault Place} {directory : Location}
    {name : Name} (hjump : ∀ l target steps, jump l target steps = .ok (.gap directory name) →
      fs.IsGap directory name) {s : Spot} {steps : List Step}
    (hwalk : fs.walk purpose jump s steps = .ok (.gap directory name)) : fs.IsGap directory name := by
  induction steps generalizing s with
  | nil =>
    rw [FileSystem.walk] at hwalk
    split at hwalk
    · cases hwalk
    · cases hwalk
  | cons step steps ih =>
    cases step with
    | settle =>
      rw [FileSystem.walk] at hwalk
      obtain ⟨_, -, hgo⟩ := exists_of_bind_eq_ok hwalk
      exact ih hgo
    | stay =>
      rw [FileSystem.walk] at hwalk
      obtain ⟨_, -, hgo⟩ := exists_of_bind_eq_ok hwalk
      exact ih hgo
    | up =>
      rw [FileSystem.walk] at hwalk
      obtain ⟨_, -, hgo⟩ := exists_of_bind_eq_ok hwalk
      exact ih hgo
    | down last =>
      obtain ⟨location, lost⟩ := s
      obtain rfl : lost = 0 := lost_of_walk_down hwalk
      obtain ⟨⟨mode, entries, hsearch, hfind⟩, hlength, hgo⟩ := walk_down_eq_ok hwalk
      rcases hgo with ⟨hnone, -, hgap⟩ | ⟨target, -, hgo⟩ | ⟨-, -, -, hgo⟩
      · obtain ⟨rfl, rfl⟩ := Place.gap.inj hgap
        exact ⟨⟨mode, entries, hsearch, hfind⟩, hlength, hnone⟩
      · split at hgo
        · cases hgo
        · exact hjump _ _ _ hgo
      · exact ih hgo

theorem isGap_of_follow {links : Nat} {directory : Location} {name : Name} {s : Spot} {steps : List Step}
    (hfollow : fs.follow purpose links s steps = .ok (.gap directory name)) : fs.IsGap directory name := by
  induction links generalizing s steps with
  | zero =>
    rw [FileSystem.follow] at hfollow
    exact isGap_of_walk (fun _ _ _ hjump => by cases hjump) hfollow
  | succ links ih =>
    rw [FileSystem.follow] at hfollow
    exact isGap_of_walk (fun _ _ _ hjump => ih hjump) hfollow

/-- The walk may end where it is. -/
theorem continues_entry (fs : FileSystem) (loc : Location) : fs.Continues [] loc (.entry loc) :=
  fun _ => rfl

/-- The walk goes on by a name that is short enough and no link. -/
theorem walk_name {jump : Location → Path → List Step → Except Fault Place} {directory : Location}
    {name : Name} {e : Entry} {steps : List Step} (hopen : fs.Open directory)
    (hshort : name.length ≤ nameLimit) (he : fs.find? (directory ++ [name]) = some e)
    (hlink : ∀ target, e ≠ .link target) :
    fs.walk .target jump ⟨directory, 0⟩ (.down name :: steps) =
      fs.walk .target jump ⟨directory ++ [name], 0⟩ steps := by
  obtain ⟨mode, entries, hsearch, hfind⟩ := hopen
  exact walk_down_of_found hfind hsearch hshort he hlink (by simp)

end Walk

/-! ## Walking the same way -/

section Again

variable {purpose : Purpose} {loc : Location} {place : Place} {rest : List Step}

/-- The place is the location, or it is a gap and what is there now is no link. -/
def Fills (fs : FileSystem) (loc : Location) : Place → Prop
  | .entry reached => reached = loc
  | .gap directory name => directory ++ [name] = loc ∧ ∃ e, fs.find? loc = some e ∧ ∀ target, e ≠ .link target
  | .removed => False

theorem fills_entry (fs : FileSystem) (loc : Location) : fs.Fills loc (.entry loc) := rfl

theorem fills_gap {directory : Location} {name : Name} {e : Entry}
    (he : fs.find? (directory ++ [name]) = some e) (hlink : ∀ target, e ≠ .link target) :
    fs.Fills (directory ++ [name]) (.gap directory name) :=
  And.intro rfl ⟨e, he, hlink⟩

theorem Grows.walkDown_again (h : Grows fs fs') (hplace : fs'.Fills loc place)
    {jump jump' : Location → Path → List Step → Except Fault Place}
    (hjump : ∀ l target steps, jump l target steps = .ok place → jump' l target steps = .ok (.entry loc))
    {directory : Location} {name : Name}
    (hwalk : fs.walk purpose jump (.ofLocation (directory ++ [name])) rest = .ok place →
      fs'.walk purpose jump' (.ofLocation (directory ++ [name])) rest = .ok (.entry loc))
    (hdown : fs.walkDown purpose jump directory name rest = .ok place) :
    fs'.walkDown purpose jump' directory name rest = .ok (.entry loc) := by
  cases hfind : fs.find? (directory ++ [name]) with
  | none =>
    rw [walkDown_of_missing hfind] at hdown
    split at hdown
    · rename_i hnil
      subst hnil
      obtain rfl := Except.ok.inj hdown
      -- the gap has been filled, so the walk ends in it
      obtain ⟨rfl, e, he, hlink⟩ := hplace
      rw [walkDown_of_found he hlink]
      rfl
    · cases hdown
  | some e =>
    rcases e.link_or_not with ⟨target, rfl⟩ | hlink
    · rw [walkDown_of_link hfind] at hdown
      rw [walkDown_of_link (h.link _ _ hfind)]
      split at hdown
      · rename_i hitself
        rw [if_pos hitself]
        obtain rfl := Except.ok.inj hdown
        exact congrArg (fun l => Except.ok (Place.entry l)) hplace
      · rename_i hitself
        rw [if_neg hitself]
        exact hjump _ _ _ hdown
    · obtain ⟨e', hfind', hlink'⟩ := h.exists_of_find? hfind hlink
      rw [walkDown_of_found hfind hlink] at hdown
      rw [walkDown_of_found hfind' hlink']
      exact hwalk hdown

/-- A walk in what has grown goes the same way, to where it ended or to what is there now. -/
theorem Grows.walk_again (h : Grows fs fs') (hplace : fs'.Fills loc place)
    {jump jump' : Location → Path → List Step → Except Fault Place}
    (hjump : ∀ l target steps, jump l target steps = .ok place → jump' l target steps = .ok (.entry loc))
    {s : Spot} {steps : List Step} (hwalk : fs.walk purpose jump s steps = .ok place) :
    fs'.walk purpose jump' s steps = .ok (.entry loc) := by
  induction steps generalizing s with
  | nil =>
    rw [FileSystem.walk] at hwalk ⊢
    obtain rfl := Except.ok.inj hwalk
    split at hplace
    · rw [if_pos ‹_›]
      exact congrArg (fun l => Except.ok (Place.entry l)) hplace
    · exact hplace.elim
  | cons step steps ih =>
    cases step with
    | settle =>
      rw [FileSystem.walk] at hwalk ⊢
      obtain ⟨⟨mode, entries⟩, hdirectory, hgo⟩ := exists_of_bind_eq_ok hwalk
      obtain ⟨entries', hdirectory'⟩ := h.directoryOf hdirectory
      rw [hdirectory']
      exact ih hgo
    | stay =>
      rw [FileSystem.walk] at hwalk ⊢
      obtain ⟨entries, hsearchable, hgo⟩ := exists_of_bind_eq_ok hwalk
      obtain ⟨entries', hsearchable'⟩ := h.searchable hsearchable
      rw [hsearchable']
      exact ih hgo
    | up =>
      rw [FileSystem.walk] at hwalk ⊢
      obtain ⟨entries, hsearchable, hgo⟩ := exists_of_bind_eq_ok hwalk
      obtain ⟨entries', hsearchable'⟩ := h.searchable hsearchable
      rw [hsearchable']
      exact ih hgo
    | down name =>
      obtain ⟨location, lost⟩ := s
      obtain rfl : lost = 0 := lost_of_walk_down hwalk
      obtain ⟨hopen, hlength, hend, hdown⟩ := walk_down_eq_ok_iff.mp hwalk
      exact walk_down_eq_ok_iff.mpr ⟨h.isOpen hopen, hlength, hend, h.walkDown_again hplace hjump ih hdown⟩

theorem Grows.follow_again (h : Grows fs fs') (hplace : fs'.Fills loc place) {links : Nat} {s : Spot}
    {steps : List Step} (hfollow : fs.follow purpose links s steps = .ok place) :
    fs'.follow purpose links s steps = .ok (.entry loc) := by
  induction links generalizing s steps with
  | zero =>
    rw [FileSystem.follow] at hfollow ⊢
    exact h.walk_again hplace (fun _ _ _ hjump => by cases hjump) hfollow
  | succ links ih =>
    rw [FileSystem.follow] at hfollow ⊢
    exact h.walk_again hplace (fun _ _ _ hjump => ih hjump) hfollow

end Again

/-! ## Paths -/

section Paths

variable {p : Path} {loc : Location} {purpose : Purpose}

theorem start_eq_of_current_eq (h : fs'.current = fs.current) (p : Path) : fs'.start p = fs.start p := by
  rw [start, start, h]

/-- What a path leads to if the system finds it. -/
theorem resolve_of_locate (h : fs.locate purpose p = .ok loc) : fs.resolve purpose p = .ok (.entry loc) := by
  obtain ⟨place, hresolve, hplace⟩ := exists_of_bind_eq_ok h
  cases place with
  | entry found =>
    obtain rfl := Except.ok.inj hplace
    exact hresolve
  | gap directory name => cases hplace
  | removed => cases hplace

/-- A path leads where it led, or to what is there now, whatever it is followed for. -/
theorem Grows.resolve_again (h : Grows fs fs') {place : Place} (hplace : fs'.Fills loc place)
    (hresolve : fs.resolve purpose p = .ok place) : fs'.resolve purpose p = .ok (.entry loc) := by
  obtain ⟨s, hstart, hfollow⟩ := exists_of_bind_eq_ok hresolve
  rw [resolve, start_eq_of_current_eq h.current_eq, hstart]
  exact h.follow_again hplace hfollow

/-- A path that ended in a place leads to what is at this place now. -/
theorem Grows.locate_of_place (h : Grows fs fs') (hpurpose : purpose ≠ .itself) {place : Place}
    (hresolve : fs.resolve purpose p = .ok place) (hplace : fs'.Continues [] loc place) :
    fs'.locate .target p = .ok loc := by
  obtain ⟨s, hstart, hfollow⟩ := exists_of_bind_eq_ok hresolve
  have hfollow' := h.follow hpurpose hplace hfollow
  rw [List.append_nil] at hfollow'
  rw [locate, resolve, start_eq_of_current_eq h.current_eq, hstart]
  simp only [bind, Except.bind, hfollow']

/-- A path leads where it led. -/
theorem Grows.locate_eq_ok (h : Grows fs fs') (hlocate : fs.locate .target p = .ok loc) :
    fs'.locate .target p = .ok loc :=
  h.locate_of_place (by simp) (resolve_of_locate hlocate) (continues_entry fs' loc)

/-- The last name of a path is behind what the moves before it lead to. -/
theorem exists_of_slot {slot : Slot} {name : Name} (hslot : fs.slot p = .ok slot)
    (hname : slot.name? = some name) : ∃ s, fs.start p = .ok s ∧
      fs.follow .target linkLimit s p.moves.dropLast = .ok (.entry slot.directory) ∧
      p.moves = p.moves.dropLast ++ [.down name] ∧ fs.Open slot.directory := by
  obtain ⟨s, hstart, hslot⟩ := exists_of_bind_eq_ok hslot
  obtain ⟨slashed, hsplit⟩ := splitLast_steps p
  simp only [hsplit] at hslot
  obtain ⟨place, hfollow, hslot⟩ := exists_of_bind_eq_ok hslot
  cases place with
  | gap directory last => cases hslot
  | removed =>
    simp only at hslot
    split at hslot
    · cases hslot
    · obtain rfl := Except.ok.inj hslot
      cases hname
  | entry directory =>
    simp only at hslot
    obtain ⟨⟨mode, entries⟩, hdirectory, hslot⟩ := exists_of_bind_eq_ok hslot
    simp only at hslot
    split at hslot
    · cases hslot
    rename_i hsearch
    split at hslot
    · rename_i last hlast
      obtain rfl := Except.ok.inj hslot
      obtain rfl := Option.some.inj hname
      exact ⟨s, hstart, hfollow, (List.dropLast_append_getLast? _ hlast).symm, mode, entries,
        by simpa using hsearch, directoryAt_eq_ok hdirectory⟩
    · obtain rfl := Except.ok.inj hslot
      cases hname

/-- A path leads to the directory that has got its last name. -/
theorem Grows.locate_of_slot (h : Grows fs fs') {slot : Slot} {name : Name} (hslot : fs.slot p = .ok slot)
    (hname : slot.name? = some name) (hshort : name.length ≤ nameLimit) {mode : Mode}
    {entries : List (Name × Entry)}
    (hfind : fs'.find? (slot.directory ++ [name]) = some (.directory mode entries)) :
    fs'.locate .target p = .ok (slot.directory ++ [name]) := by
  obtain ⟨s, hstart, hfollow, hmoves, hopen⟩ := exists_of_slot hslot hname
  have hnext (jump : Location → Path → List Step → Except Fault Place) (steps : List Step) :
      fs'.walk .target jump ⟨slot.directory, 0⟩ (.down name :: steps) =
        fs'.walk .target jump ⟨slot.directory ++ [name], 0⟩ steps :=
    walk_name (h.isOpen hopen) hshort hfind fun target heq => by cases heq
  -- behind the name there is at most the demand for a directory
  obtain ⟨rest, hsteps, hrest⟩ : ∃ rest, p.steps = p.moves.dropLast ++ rest ∧
      fs'.Continues rest (slot.directory ++ [name]) (.entry slot.directory) := by
    rcases p.steps_eq with ⟨hsteps, -⟩ | hsteps
    · exact ⟨[.down name], hsteps.trans hmoves, fun jump => hnext jump []⟩
    · refine ⟨[.down name, .settle], ?_, fun jump => ?_⟩
      · rw [hsteps]
        conv_lhs => rw [hmoves]
        simp
      · have hthere : fs'.directoryOf ⟨slot.directory ++ [name], 0⟩ = .ok (mode, entries) := by
          rw [FileSystem.directoryOf, if_pos rfl, directoryAt, hfind]
        rw [hnext, FileSystem.walk, hthere]
        rfl
  have hfollow' := h.follow (by simp) hrest hfollow
  rw [← hsteps] at hfollow'
  rw [locate, resolve, start_eq_of_current_eq h.current_eq, hstart]
  simp only [bind, Except.bind, hfollow']

/-- What leads to a directory is one. -/
theorem isDirectory_of_locate (h : fs.locate .target p = .ok loc) (hloc : fs.HasDirectory loc) :
    fs.isDirectory p = true := by
  obtain ⟨mode, entries, hfind⟩ := hloc
  have hlookup : fs.lookup .target p = .ok (.directory mode entries) := by
    rw [lookup, resolve_of_locate h]
    simp only [bind, Except.bind, hfind]
  rw [isDirectory, hlookup]
  rfl

end Paths

/-! ## Directories that are made -/

/-- Empty directories are put where nothing was, and each is found by one of the paths. -/
structure Adds (paths : List Path) (fs fs' : FileSystem) : Prop where
  grows : Grows fs fs'
  view_eq : ∀ loc, fs'.view loc = fs.view loc ∨ fs.view loc = none ∧
    fs'.view loc = some .emptyDirectory ∧ ∃ q ∈ paths, fs'.locate .target q = .ok loc

namespace Adds

variable {paths paths' : List Path}

theorem refl (paths : List Path) (fs : FileSystem) : Adds paths fs fs :=
  ⟨.refl fs, fun _ => Or.inl rfl⟩

theorem mono (h : Adds paths fs fs') (hpaths : ∀ q ∈ paths, q ∈ paths') : Adds paths' fs fs' where
  grows := h.grows
  view_eq loc := (h.view_eq loc).imp_right fun ⟨hnone, hempty, q, hq, hlocate⟩ =>
    ⟨hnone, hempty, q, hpaths q hq, hlocate⟩

theorem trans (h : Adds paths fs fs') (h' : Adds paths fs' fs'') : Adds paths fs fs'' where
  grows := h.grows.trans h'.grows
  view_eq loc := by
    rcases h.view_eq loc with heq | ⟨hnone, hempty, q, hq, hlocate⟩
    · rw [← heq]
      exact h'.view_eq loc
    · -- what was found when it was made is found when more has been made
      exact Or.inr ⟨hnone, h'.grows.directory loc .full hempty, q, hq, h'.grows.locate_eq_ok hlocate⟩

theorem sameLinks (h : Adds paths fs fs') : SameLinks fs fs' :=
  .of_view_eq h.grows.current_eq fun loc =>
    (h.view_eq loc).imp_right fun ⟨hnone, hempty, _⟩ => ⟨hnone, hempty⟩

end Adds

section Directories

variable {p q : Path}

theorem createDirectory_adds : Ends (createDirectory q) fs
    (fun _ fs' => Adds [q] fs fs' ∧ fs'.isDirectory q = true) (· = fs) := by
  refine .of_run (fun _ fs' hrun => ?_) fun _ fs' => createDirectory_error
  obtain ⟨slot, name, hslot, hname, hshort, hnone, heq⟩ := exists_of_createDirectory hrun
  obtain ⟨-, -, -, -, hopen⟩ := exists_of_slot hslot hname
  have hsets : Sets (slot.directory ++ [name]) .emptyDirectory fs fs' :=
    ⟨⟨slot.directory, name, rfl, hopen.hasDirectory⟩, not_hasDirectory_of_none hnone, rfl, heq⟩
  have hgrows : Grows fs fs' := .of_sets hnone hsets
  have hlocate := hgrows.locate_of_slot hslot hname hshort hsets.find?_self
  refine ⟨⟨hgrows, fun loc => ?_⟩, isDirectory_of_locate hlocate ⟨_, _, hsets.find?_self⟩⟩
  rw [hsets.view_eq]
  split
  · rename_i hloc
    rw [hloc]
    exact Or.inr ⟨view_eq_none_iff.mpr hnone, rfl, q, List.mem_singleton_self q, hlocate⟩
  · exact Or.inl rfl

theorem unlessDirectory_adds (fault : Fault) : Ends (unlessDirectory q fault) fs
    (fun _ fs' => fs' = fs ∧ fs.isDirectory q = true) (· = fs) := by
  rw [unlessDirectory]
  refine .bind (ends_now ?_)
  split
  · rename_i hdirectory
    exact .pure ⟨rfl, hdirectory⟩
  · exact .throw rfl

/-- Directories are made along a chain of paths; if this succeeds, the first of them leads to one. -/
theorem createChain_adds (paths : List Path) : Ends (createChain paths) fs
    (fun _ fs' => Adds paths fs fs' ∧ ∀ q ∈ paths.head?, q = .empty ∨ fs'.isDirectory q = true)
    (Adds paths fs) := by
  induction paths generalizing fs with
  | nil => exact .throw (.refl _ fs)
  | cons q above ih =>
    simp only [List.head?_cons, Option.mem_some_iff, forall_eq']
    have hcreate {t : FileSystem} (hadds : Adds (q :: above) fs t)
        {handler : Fault → Change Unit}
        (hhandler : ∀ fault, Ends (handler fault) t
          (fun _ fs' => Adds (q :: above) fs fs' ∧ (q = .empty ∨ fs'.isDirectory q = true))
          (Adds (q :: above) fs)) :
        Ends (tryCatch (createDirectory q) handler) t
          (fun _ fs' => Adds (q :: above) fs fs' ∧ (q = .empty ∨ fs'.isDirectory q = true))
          (Adds (q :: above) fs) := by
      refine .tryCatch (createDirectory_adds.mono ?_ ?_)
      · rintro _ fs' ⟨hadds', hdirectory⟩
        exact ⟨hadds.trans (hadds'.mono (by simp)), Or.inr hdirectory⟩
      · rintro _ rfl fault -
        exact hhandler fault
    have hunless {t : FileSystem} (hadds : Adds (q :: above) fs t) (fault : Fault) :
        Ends (unlessDirectory q fault) t
          (fun _ fs' => Adds (q :: above) fs fs' ∧ (q = .empty ∨ fs'.isDirectory q = true))
          (Adds (q :: above) fs) := by
      refine (unlessDirectory_adds fault).mono ?_ ?_
      · rintro _ _ ⟨rfl, hdirectory⟩
        exact ⟨hadds, Or.inr hdirectory⟩
      · rintro _ rfl
        exact hadds
    rw [createChain]
    split
    · rename_i hempty
      exact .pure ⟨.refl _ fs, Or.inl hempty⟩
    refine hcreate (.refl _ fs) fun fault => ?_
    split
    · -- what is missing above is made, and the path is tried again
      refine .bind (ih.mono (fun _ t hmade => ?_) fun t hadds => hadds.mono (by simp +contextual))
      have hadds' : Adds (q :: above) fs t := hmade.1.mono (by simp +contextual)
      exact hcreate hadds' fun fault => hunless hadds' fault
    · exact hunless (.refl _ fs) _

/-- The directories of a path are made; if this succeeds, the path is empty or leads to one. -/
theorem createDirectories_adds : Ends (createDirectories p) fs
    (fun _ fs' => Adds p.ancestors fs fs' ∧ (p = .empty ∨ fs'.isDirectory p = true))
    (Adds p.ancestors fs) := by
  refine (createChain_adds p.ancestors).mono (fun _ fs' ⟨hadds, hfirst⟩ => ⟨hadds, hfirst p ?_⟩)
    fun _ => id
  rw [Path.ancestors, Path.lineage]
  cases p.parent? <;> rfl

end Directories

/-! ## Files that are written -/

/-- The path leads to a file that holds the contents.  A file that was there keeps its mode. -/
structure Writes (p : Path) (contents : Bytes) (loc : Location) (mode : Mode) (fs fs' : FileSystem) :
    Prop where
  sets : Sets loc (.file mode contents) fs fs'
  locate_eq : fs'.locate .target p = .ok loc
  resolve_eq : fs'.resolve .creation p = .ok (.entry loc)
  writable : mode.write = true
  old : (∃ before, fs.find? loc = some (.file mode before)) ∨ fs.find? loc = none ∧ mode = .plain

namespace Writes

variable {p : Path} {contents contents' : Bytes} {loc : Location} {mode : Mode}

theorem grows (h : Writes p contents loc mode fs fs') : Grows fs fs' := by
  rcases h.old with ⟨before, hfile⟩ | ⟨hnone, -⟩
  · exact .of_sets_file hfile h.sets
  · exact .of_sets hnone h.sets

theorem sameLinks (h : Writes p contents loc mode fs fs') : SameLinks fs fs' := by
  refine h.sets.shows.sameLinks (fun target heq => by cases heq) fun target hlink => ?_
  rcases h.old with ⟨before, hfile⟩ | ⟨hnone, -⟩
  · rw [hfile] at hlink
    cases hlink
  · rw [hnone] at hlink
    cases hlink

/-- A file that was there keeps its mode. -/
theorem mode_eq (h : Writes p contents loc mode fs fs') {mode' : Mode} {before : Bytes}
    (hfile : fs.find? loc = some (.file mode' before)) : mode' = mode := by
  rcases h.old with ⟨before', hbefore⟩ | ⟨hnone, -⟩
  · rw [hfile] at hbefore
    exact (Entry.file.inj (Option.some.inj hbefore)).1
  · rw [hfile] at hnone
    cases hnone

/-- Other contents are put in place of the first. -/
theorem again (h : Writes p contents loc mode fs fs') (heq : fs'' = fs'.put loc (.file mode contents')) :
    Writes p contents' loc mode fs fs'' := by
  obtain ⟨directory, name, hloc, hdirectory⟩ := h.sets.above
  have hsets : Sets loc (.file mode contents') fs' fs'' :=
    ⟨⟨directory, name, hloc, h.grows.hasDirectory hdirectory⟩, not_hasDirectory_of_file h.sets.find?_self,
      rfl, heq⟩
  have hgrows : Grows fs' fs'' := .of_sets_file h.sets.find?_self hsets
  exact ⟨h.sets.again rfl heq, hgrows.locate_eq_ok h.locate_eq,
    hgrows.resolve_again (fills_entry fs'' loc) h.resolve_eq, h.writable, h.old⟩

end Writes

section Files

variable {p : Path}

theorem openForWriting_writes (hroot : fs.HasDirectory []) : Ends (openForWriting p) fs
    (fun loc fs' => ∃ mode, Writes p [] loc mode fs fs') (· = fs) := by
  rw [openForWriting]
  refine .bind (ends_now (.bind (ends_ask (fun place hplace => ?_) rfl)))
  cases place with
  | removed => exact .throw rfl
  | entry loc =>
    simp only
    split
    · rename_i mode contents hfile
      refine ends_guard rfl fun hwrite => .bind (ends_putAt (.pure ⟨mode, ?_⟩))
      have hsets : Sets loc (.file mode []) fs (fs.put loc (.file mode [])) := .of_file hroot hfile rfl rfl
      have hgrows : Grows fs (fs.put loc (.file mode [])) := .of_sets_file hfile hsets
      exact ⟨hsets, hgrows.locate_of_place (by simp) hplace (continues_entry _ loc),
        hgrows.resolve_again (fills_entry _ loc) hplace, by simpa using hwrite, Or.inl ⟨contents, hfile⟩⟩
    · exact .throw rfl
  | gap directory name =>
    obtain ⟨s, -, hfollow⟩ := exists_of_bind_eq_ok hplace
    have hgap := isGap_of_follow hfollow
    refine .bind (ends_ask (fun found _ => ?_) rfl)
    refine ends_guard rfl fun _ => .bind (ends_putAt (.pure ⟨.plain, ?_⟩))
    have hsets : Sets (directory ++ [name]) (.file .plain []) fs
        (fs.put (directory ++ [name]) (.file .plain [])) :=
      ⟨⟨directory, name, rfl, hgap.isOpen.hasDirectory⟩, not_hasDirectory_of_none hgap.missing, rfl, rfl⟩
    have hgrows : Grows fs _ := .of_sets hgap.missing hsets
    have hnolink (target : Path) : Entry.file .plain [] ≠ .link target := fun heq => by cases heq
    refine ⟨hsets, hgrows.locate_of_place (by simp) hplace fun jump => ?_,
      hgrows.resolve_again (fills_gap hsets.find?_self hnolink) hplace, rfl, Or.inr ⟨hgap.missing, rfl⟩⟩
    rw [walk_name (hgrows.isOpen hgap.isOpen) hgap.short hsets.find?_self hnolink]
    rfl

theorem writeBytes_writes (hroot : fs.HasDirectory []) (contents : Bytes) :
    Ends (writeBytes p contents) fs (fun _ fs' => ∃ loc mode, Writes p contents loc mode fs fs')
      (· = fs) := by
  rw [writeBytes]
  refine .bind ((openForWriting_writes hroot).mono (fun loc t hopen => ?_) fun _ => id)
  obtain ⟨mode, hwrites⟩ := hopen
  refine .bind (ends_now ?_)
  rw [hwrites.sets.find?_self]
  exact ends_putAt ⟨loc, mode, hwrites.again rfl⟩

end Files

end FileRoutes.FileSystem
