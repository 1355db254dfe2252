import FileRoutes.Proofs.FileSystem.LinkFree

/-!
# Ways that follow links

Where a path leads is told by a relation between two locations and the steps between them (`Way`).  It
says nothing of how many links may be followed, nor of how long names may be, so it holds of more than
the system grants; but a way leads to one place only (`Way.eq`), and the parts of a way are ways
(`Way.append`, `exists_of_way_append`).

## Two kinds of ways

What is asked of the locations from which a step is made is a parameter, and two values of it matter.

* A path *reaches* a location if each step starts from a directory in which names may be followed
  (`Reaches`).  This is what the system finds if it finds anything (`finds_of_follow`).
* A path is *made at* a location if nothing is asked (`MadeAt`).  Then names that are missing are
  passed as if they were directories, which they will be once the system has made them.

## After changes

A way through directories to a directory stays one as long as directories and links stay
(`Keeps.way`).  Where a path is made depends on the links alone (`SameLinks.way`).
-/

namespace FileRoutes.FileSystem

/-- Names may be followed from the directory at the location. -/
def Open (fs : FileSystem) (loc : Location) : Prop :=
  ∃ mode entries, mode.search = true ∧ fs.find? loc = some (.directory mode entries)

theorem Open.hasDirectory {fs : FileSystem} {loc : Location} (h : fs.Open loc) :
    fs.HasDirectory loc := by
  obtain ⟨mode, entries, -, hfind⟩ := h
  exact ⟨mode, entries, hfind⟩

/-- Steps lead from one location to another when each link is followed where it is met, and each
move starts from a location that may be passed. -/
inductive Way (fs : FileSystem) (Passable : Location → Prop) :
    Location → List Step → Location → Prop
  | done (loc : Location) : Way fs Passable loc [] loc
  | settle {loc last : Location} {rest : List Step} (next : Way fs Passable loc rest last) :
      Way fs Passable loc (.settle :: rest) last
  | stay {loc last : Location} {rest : List Step} (passable : Passable loc)
      (next : Way fs Passable loc rest last) : Way fs Passable loc (.stay :: rest) last
  | up {loc last : Location} {rest : List Step} (passable : Passable loc)
      (next : Way fs Passable loc.dropLast rest last) : Way fs Passable loc (.up :: rest) last
  | down {loc last : Location} {name : Name} {rest : List Step} (passable : Passable loc)
      (noLink : ∀ target, fs.find? (loc ++ [name]) ≠ some (.link target))
      (next : Way fs Passable (loc ++ [name]) rest last) :
      Way fs Passable loc (.down name :: rest) last
  | link {loc last : Location} {name : Name} {rest : List Step} {target : Path}
      (passable : Passable loc) (isLink : fs.find? (loc ++ [name]) = some (.link target))
      (next : Way fs Passable (if target.isAbsolute then [] else loc) (target.steps ++ rest) last) :
      Way fs Passable loc (.down name :: rest) last

/-- A path leads to a location by way of directories. -/
def Reaches (fs : FileSystem) (p : Path) (loc : Location) : Prop :=
  fs.Way fs.Open (fs.beginning p) p.moves loc

/-- Links are followed where they are met, and names that are missing as if they were directories. -/
abbrev FreeWay (fs : FileSystem) : Location → List Step → Location → Prop := fs.Way fun _ => True

/-- The system makes what a path names at this location: links are followed where they are met, two
dots leave what has been reached, and missing names are put behind it. -/
def MadeAt (fs : FileSystem) (p : Path) (loc : Location) : Prop :=
  fs.FreeWay (fs.beginning p) p.moves loc

section Way

variable {fs : FileSystem} {Passable Passable' : Location → Prop} {a b c : Location}
  {steps s t : List Step}

namespace Way

theorem mono (h : fs.Way Passable a steps b) (hmono : ∀ loc, Passable loc → Passable' loc) :
    fs.Way Passable' a steps b := by
  induction h with
  | done loc => exact .done loc
  | settle _ ih => exact .settle ih
  | stay passable _ ih => exact .stay (hmono _ passable) ih
  | up passable _ ih => exact .up (hmono _ passable) ih
  | down passable noLink _ ih => exact .down (hmono _ passable) noLink ih
  | link passable isLink _ ih => exact .link (hmono _ passable) isLink ih

theorem free (h : fs.Way Passable a steps b) : fs.FreeWay a steps b :=
  h.mono fun _ _ => trivial

/-- A way leads to one place. -/
theorem eq (h : fs.Way Passable a steps b) (h' : fs.Way Passable' a steps c) : b = c := by
  induction h with
  | done loc =>
    cases h'
    rfl
  | settle _ ih =>
    cases h' with
    | settle next => exact ih next
  | stay _ _ ih =>
    cases h' with
    | stay _ next => exact ih next
  | up _ _ ih =>
    cases h' with
    | up _ next => exact ih next
  | down _ noLink _ ih =>
    cases h' with
    | down _ _ next => exact ih next
    | link _ isLink _ => exact absurd isLink (noLink _)
  | link _ isLink _ ih =>
    cases h' with
    | down _ noLink _ => exact absurd isLink (noLink _)
    | link _ isLink' next =>
      rw [isLink] at isLink'
      cases isLink'
      exact ih next

theorem append (h : fs.Way Passable a s b) (h' : fs.Way Passable b t c) :
    fs.Way Passable a (s ++ t) c := by
  induction h with
  | done loc => exact h'
  | settle _ ih => exact .settle (ih h')
  | stay passable _ ih => exact .stay passable (ih h')
  | up passable _ ih => exact .up passable (ih h')
  | down passable noLink _ ih => exact .down passable noLink (ih h')
  | link passable isLink _ ih =>
    have hnext := ih h'
    rw [List.append_assoc] at hnext
    exact .link passable isLink hnext

end Way

/-- A way passes where its beginning leads. -/
theorem exists_of_way_append (h : fs.Way Passable a (s ++ t) c) :
    ∃ b, fs.Way Passable a s b ∧ fs.Way Passable b t c := by
  generalize hsteps : s ++ t = steps at h
  induction h generalizing s with
  | done loc =>
    obtain ⟨rfl, rfl⟩ := List.append_eq_nil_iff.mp hsteps
    exact ⟨loc, .done loc, .done loc⟩
  | settle next ih =>
    rcases List.append_eq_cons_iff.mp hsteps with ⟨rfl, rfl⟩ | ⟨s, rfl, hrest⟩
    · exact ⟨_, .done _, .settle next⟩
    · obtain ⟨b, hs, ht⟩ := ih hrest.symm
      exact ⟨b, .settle hs, ht⟩
  | stay passable next ih =>
    rcases List.append_eq_cons_iff.mp hsteps with ⟨rfl, rfl⟩ | ⟨s, rfl, hrest⟩
    · exact ⟨_, .done _, .stay passable next⟩
    · obtain ⟨b, hs, ht⟩ := ih hrest.symm
      exact ⟨b, .stay passable hs, ht⟩
  | up passable next ih =>
    rcases List.append_eq_cons_iff.mp hsteps with ⟨rfl, rfl⟩ | ⟨s, rfl, hrest⟩
    · exact ⟨_, .done _, .up passable next⟩
    · obtain ⟨b, hs, ht⟩ := ih hrest.symm
      exact ⟨b, .up passable hs, ht⟩
  | down passable noLink next ih =>
    rcases List.append_eq_cons_iff.mp hsteps with ⟨rfl, rfl⟩ | ⟨s, rfl, hrest⟩
    · exact ⟨_, .done _, .down passable noLink next⟩
    · obtain ⟨b, hs, ht⟩ := ih hrest.symm
      exact ⟨b, .down passable noLink hs, ht⟩
  | @link loc last name rest target passable isLink next ih =>
    rcases List.append_eq_cons_iff.mp hsteps with ⟨rfl, rfl⟩ | ⟨s, rfl, hrest⟩
    · exact ⟨_, .done _, .link passable isLink next⟩
    · obtain ⟨b, hs, ht⟩ := ih (s := target.steps ++ s) (by rw [hrest, List.append_assoc])
      exact ⟨b, .link passable isLink hs, ht⟩

namespace Way

/-- What is left of a way behind its beginning. -/
theorem right (h : fs.Way Passable a (s ++ t) c) (hs : fs.Way Passable' a s b) :
    fs.Way Passable b t c := by
  obtain ⟨b', hs', ht⟩ := exists_of_way_append h
  rwa [hs.eq hs']

/-- A way ends where the demand for a directory behind it is made. -/
theorem of_settle (h : fs.Way Passable a (s ++ [.settle]) b) : fs.Way Passable a s b := by
  obtain ⟨b', hs, ht⟩ := exists_of_way_append h
  cases ht with
  | settle next =>
    cases next
    exact hs

/-- A move starts from a location that may be passed. -/
theorem passable {step : Step} (h : fs.Way Passable a (step :: steps) b) (hstep : step ≠ .settle) :
    Passable a := by
  cases h with
  | settle _ => exact absurd rfl hstep
  | stay passable _ => exact passable
  | up passable _ => exact passable
  | down passable _ _ => exact passable
  | link passable _ _ => exact passable

/-- A way through directories to a directory begins at one. -/
theorem hasDirectory (h : fs.Way fs.Open a steps b) (hb : fs.HasDirectory b) :
    fs.HasDirectory a := by
  induction h with
  | done loc => exact hb
  | settle _ ih => exact ih hb
  | stay passable _ _ => exact passable.hasDirectory
  | up passable _ _ => exact passable.hasDirectory
  | down passable _ _ _ => exact passable.hasDirectory
  | link passable _ _ _ => exact passable.hasDirectory

/-- A name that is not that of a link leads to its entry. -/
theorem eq_of_down {name : Name} (h : fs.Way Passable a [.down name] b)
    (hlink : ∀ target, fs.find? (a ++ [name]) ≠ some (.link target)) : b = a ++ [name] := by
  cases h with
  | down _ _ next =>
    cases next
    rfl
  | link _ isLink _ => exact absurd isLink (hlink _)

end Way

/-- Moves that meet no link lead where they move. -/
theorem way_of_foldl (hpassable : ∀ way step, way ++ [step] <+: steps →
      Passable (way.foldl Step.move a))
    (hfree : ∀ way, way <+: steps → ∀ target,
      fs.find? (way.foldl Step.move a) ≠ some (.link target)) :
    fs.Way Passable a steps (steps.foldl Step.move a) := by
  induction steps generalizing a with
  | nil => exact .done a
  | cons step rest ih =>
    have hhere : Passable a :=
      hpassable [] step (List.cons_prefix_cons.mpr ⟨rfl, List.nil_prefix⟩)
    have hnext : fs.Way Passable (Step.move a step) rest (rest.foldl Step.move (Step.move a step)) :=
      ih (fun way next hway => hpassable (step :: way) next (List.cons_prefix_cons.mpr ⟨rfl, hway⟩))
        fun way hway => hfree (step :: way) (List.cons_prefix_cons.mpr ⟨rfl, hway⟩)
    have hstep := hfree [step] (List.cons_prefix_cons.mpr ⟨rfl, List.nil_prefix⟩)
    cases step with
    | settle => exact .settle hnext
    | stay => exact .stay hhere hnext
    | up => exact .up hhere hnext
    | down name => exact .down hhere hstep hnext

/-- Names are followed downwards if there is no link. -/
theorem freeWay_downs {names : List Name} (hlink : ∀ way, way <+: names → ∀ target,
      fs.find? (a ++ way) ≠ some (.link target)) :
    fs.FreeWay a (names.map .down) (a ++ names) := by
  rw [← Step.foldl_move_map_down]
  refine way_of_foldl (fun _ _ _ => trivial) fun way hway => ?_
  obtain ⟨names', hnames', rfl⟩ := List.prefix_map_iff.mp hway
  rw [Step.foldl_move_map_down]
  exact hlink names' hnames'

/-- The names down to a directory are followed. -/
theorem freeWay_of_hasDirectory {names : List Name} (h : fs.HasDirectory (a ++ names)) :
    fs.FreeWay a (names.map .down) (a ++ names) := by
  refine freeWay_downs fun way hway target hlink => ?_
  obtain ⟨mode, entries, hfind⟩ := h.above ((List.prefix_append_right_inj a).mpr hway)
  rw [hlink] at hfind
  cases hfind

/-- The names down into a directory are followed, and one more name that is not that of a link. -/
theorem freeWay_concat {names : List Name} {name : Name} (h : fs.HasDirectory (a ++ names))
    (hlink : ∀ target, fs.find? (a ++ (names ++ [name])) ≠ some (.link target)) :
    fs.FreeWay a ((names ++ [name]).map .down) (a ++ (names ++ [name])) := by
  rw [← List.append_assoc] at hlink ⊢
  rw [List.map_append]
  exact (freeWay_of_hasDirectory h).append (.down trivial hlink (.done _))

/-- What is passed on a way through directories to a directory is one. -/
theorem Way.hasDirectory_of_prefix (h : fs.Way fs.Open a steps b) (hb : fs.HasDirectory b)
    (hs : s <+: steps) (hc : fs.FreeWay a s c) : fs.HasDirectory c := by
  obtain ⟨t, rfl⟩ := hs
  obtain ⟨c', hs', ht⟩ := exists_of_way_append h
  rw [hc.eq hs']
  exact ht.hasDirectory hb

/-- A path that meets no link is made at the location that it spells. -/
theorem LinkFree.madeAt {p : Path} (h : fs.LinkFree p) : fs.MadeAt p (fs.spelled p) :=
  way_of_foldl (fun _ _ _ => trivial) h

end Way

/-! ## What the system finds -/

section Follow

variable {fs : FileSystem} {purpose : Purpose} {loc last : Location} {steps : List Step}

/-- The last step is taken as any other: a link at the end is followed. -/
def Follows (purpose : Purpose) (steps : List Step) : Prop :=
  purpose = .itself → ∀ name, steps.getLast? ≠ some (.down name)

/-- Following the steps leads there: to the end of the way, or, if an entry is wanted itself, to the one
that has the last name. -/
inductive Finds (fs : FileSystem) (purpose : Purpose) (loc : Location) (steps : List Step)
    (last : Location) : Prop
  | followed (follows : Follows purpose steps) (way : fs.Way fs.Open loc steps last)
  | named {init : List Step} {name : Name} {directory : Location} (itself : purpose = .itself)
      (steps_eq : steps = init ++ [.down name]) (way : fs.Way fs.Open loc init directory)
      (isOpen : fs.Open directory) (last_eq : last = directory ++ [name])

namespace Finds

/-- One more step in front. -/
theorem cons {step : Step} {next : Location} (h : fs.Finds purpose next steps last)
    (hfollows : steps = [] → Follows purpose [step])
    (hway : ∀ {steps b}, fs.Way fs.Open next steps b → fs.Way fs.Open loc (step :: steps) b) :
    fs.Finds purpose loc (step :: steps) last := by
  cases h with
  | followed follows way =>
    refine .followed (fun hpurpose name hlast => ?_) (hway way)
    cases steps with
    | nil => exact hfollows rfl hpurpose name hlast
    | cons s steps => exact follows hpurpose name (by rwa [List.getLast?_cons_cons] at hlast)
  | @named init name _ itself steps_eq way isOpen last_eq =>
    exact .named itself (show _ = (step :: init) ++ [.down name] by rw [steps_eq]; rfl) (hway way) isOpen
      last_eq

/-- A link in front of what is found. -/
theorem link {name : Name} {target : Path} {rest : List Step} (hopen : fs.Open loc)
    (hlink : fs.find? (loc ++ [name]) = some (.link target)) (hrest : ¬ (purpose = .itself ∧ rest = []))
    (h : fs.Finds purpose (if target.isAbsolute then [] else loc) (target.steps ++ rest) last) :
    fs.Finds purpose loc (.down name :: rest) last := by
  cases h with
  | followed follows way =>
    refine .followed (fun hpurpose n hlast => ?_) (.link hopen hlink way)
    cases rest with
    | nil => exact hrest ⟨hpurpose, rfl⟩
    | cons s rest =>
      rw [List.getLast?_cons_cons] at hlast
      refine follows hpurpose n ?_
      rw [List.getLast?_append, hlast]
      rfl
  | @named init n directory itself steps_eq way isOpen last_eq =>
    rcases List.eq_nil_or_concat rest with rfl | ⟨before, s, rfl⟩
    · exact absurd ⟨itself, rfl⟩ hrest
    · rw [List.concat_eq_append, ← List.append_assoc] at steps_eq
      obtain ⟨rfl, hs⟩ := List.append_inj' steps_eq rfl
      obtain rfl := (List.cons.inj hs).1
      exact .named itself (show _ = (.down name :: before) ++ [.down n] by simp)
        (.link hopen hlink way) isOpen last_eq

end Finds

/-- What a walk finds, if what it finds behind links is found. -/
theorem finds_of_walk {jump : Location → Path → List Step → Except Fault Place} {place : Place}
    (hjump : ∀ (loc : Location) (target : Path) (rest : List Step),
      jump loc target rest = .ok place → ∃ last, fs.Leads place last ∧
        fs.Finds purpose (if target.isAbsolute then [] else loc) (target.steps ++ rest) last)
    (h : fs.walk purpose jump ⟨loc, 0⟩ steps = .ok place) :
    ∃ last, fs.Leads place last ∧ fs.Finds purpose loc steps last := by
  induction steps generalizing loc with
  | nil =>
    rw [walk, if_pos rfl] at h
    exact ⟨loc, Or.inl (Except.ok.inj h).symm, .followed (fun _ _ hlast => by cases hlast) (.done loc)⟩
  | cons step rest ih =>
    cases step with
    | settle =>
      rw [walk] at h
      obtain ⟨-, -, h⟩ := exists_of_bind_eq_ok h
      obtain ⟨last, hleads, hfinds⟩ := ih h
      exact ⟨last, hleads, hfinds.cons (fun _ _ _ hlast => by cases hlast) .settle⟩
    | stay =>
      rw [walk] at h
      obtain ⟨entries, hsearchable, h⟩ := exists_of_bind_eq_ok h
      obtain ⟨mode, hopen⟩ := searchable_eq_ok hsearchable
      obtain ⟨last, hleads, hfinds⟩ := ih h
      exact ⟨last, hleads,
        hfinds.cons (fun _ _ _ hlast => by cases hlast) (.stay ⟨mode, entries, hopen⟩)⟩
    | up =>
      rw [walk] at h
      obtain ⟨entries, hsearchable, h⟩ := exists_of_bind_eq_ok h
      obtain ⟨mode, hopen⟩ := searchable_eq_ok hsearchable
      obtain ⟨last, hleads, hfinds⟩ := ih h
      exact ⟨last, hleads,
        hfinds.cons (fun _ _ _ hlast => by cases hlast) (.up ⟨mode, entries, hopen⟩)⟩
    | down name =>
      obtain ⟨⟨mode, entries, hsearch, hfind⟩, -, hgo⟩ := walk_down_eq_ok h
      have hopen : fs.Open loc := ⟨mode, entries, hsearch, hfind⟩
      -- the last name leads to its entry, unless it is that of a link that is followed
      have hend (hnone : ∀ target, fs.find? (loc ++ [name]) = some (.link target) → purpose = .itself) :
          fs.Finds purpose loc [.down name] (loc ++ [name]) := by
        by_cases hpurpose : purpose = .itself
        · exact .named hpurpose (List.nil_append _).symm (.done loc) hopen rfl
        · exact .followed (fun hitself => absurd hitself hpurpose)
            (.down hopen (fun target hlink => hpurpose (hnone target hlink)) (.done _))
      rcases hgo with ⟨hnone, rfl, rfl⟩ | ⟨target, hlink, hgo⟩ | ⟨e, hbelow, hlink, hgo⟩
      · refine ⟨loc ++ [name], Or.inr ⟨loc, name, rfl, rfl, hopen.hasDirectory, hnone⟩,
          hend fun target hlink => ?_⟩
        rw [hnone] at hlink
        cases hlink
      · split at hgo
        · rename_i hitself
          obtain ⟨hitself, rfl⟩ := hitself
          exact ⟨loc ++ [name], Or.inl hgo, hend fun _ _ => hitself⟩
        · obtain ⟨last, hleads, hfinds⟩ := hjump loc target rest hgo
          exact ⟨last, hleads, hfinds.link hopen hlink ‹_›⟩
      · have hentry := find?_ne_link hbelow hlink
        cases rest with
        | nil =>
          rw [walk, if_pos rfl] at hgo
          exact ⟨loc ++ [name], Or.inl (Except.ok.inj hgo).symm,
            hend fun target htarget => absurd htarget (hentry target)⟩
        | cons s rest =>
          obtain ⟨last, hleads, hfinds⟩ := ih hgo
          exact ⟨last, hleads, hfinds.cons (by simp) (.down hopen hentry)⟩

/-- Following steps finds what it leads to. -/
theorem finds_of_follow {links : Nat} {place : Place}
    (h : fs.follow purpose links ⟨loc, 0⟩ steps = .ok place) :
    ∃ last, fs.Leads place last ∧ fs.Finds purpose loc steps last := by
  induction links generalizing loc steps with
  | zero =>
    rw [follow] at h
    exact finds_of_walk (fun _ _ _ hjump => by cases hjump) h
  | succ links ih =>
    rw [follow] at h
    exact finds_of_walk (fun _ _ _ hjump => ih hjump) h

/-- A walk that does not follow a link at the end goes as one that does, but for the first link that is
met. -/
theorem walk_itself_cases {jump jump' : Location → Path → List Step → Except Fault Place} (spot : Spot) :
    fs.walk .itself jump' spot steps = fs.walk .target jump spot steps ∨
      ∃ directory name target rest, fs.find? (directory ++ [name]) = some (.link target) ∧
        fs.walk .target jump spot steps = jump directory target rest ∧
        fs.walk .itself jump' spot steps =
          if rest = [] then .ok (.entry (directory ++ [name])) else jump' directory target rest := by
  induction steps generalizing spot with
  | nil =>
    rw [walk, walk]
    exact Or.inl rfl
  | cons step rest ih =>
    cases step with
    | settle =>
      rw [walk, walk]
      cases fs.directoryOf spot with
      | error fault => exact Or.inl rfl
      | ok found => exact ih spot
    | stay =>
      rw [walk, walk]
      cases fs.searchable spot with
      | error fault => exact Or.inl rfl
      | ok entries => exact ih spot
    | up =>
      rw [walk, walk]
      cases fs.searchable spot with
      | error fault => exact Or.inl rfl
      | ok entries => exact ih spot.above
    | down name =>
      rw [walk, walk]
      cases hentries : fs.searchable spot with
      | error fault => exact Or.inl rfl
      | ok entries =>
        simp only [bind, Except.bind, reduceCtorEq, false_and, true_and, if_false]
        by_cases hlost : spot.lost ≠ 0
        · rw [if_pos hlost, if_pos hlost]
          exact Or.inl rfl
        rw [if_neg hlost, if_neg hlost]
        by_cases hlength : name.length > nameLimit
        · rw [if_pos hlength, if_pos hlength]
          exact Or.inl rfl
        rw [if_neg hlength, if_neg hlength]
        have hfind : fs.find? (spot.location ++ [name]) = entries.lookup name := by
          obtain ⟨location, lost⟩ := spot
          obtain rfl : lost = 0 := not_not.mp hlost
          obtain ⟨mode, -, hdirectory⟩ := searchable_eq_ok hentries
          exact find?_append_singleton hdirectory name
        cases hlookup : entries.lookup name with
        | none => exact Or.inl rfl
        | some e =>
          cases e with
          | link target =>
            exact Or.inr ⟨_, name, target, rest, hfind.trans hlookup, rfl, rfl⟩
          | file mode contents => exact ih _
          | directory mode es => exact ih _

/-- It makes no difference whether links at the end are followed, unless a link is found. -/
theorem follow_itself_cases (fs : FileSystem) (links : Nat) (spot : Spot) (steps : List Step) :
    fs.follow .itself links spot steps = fs.follow .target links spot steps ∨
      ∃ loc target, fs.follow .itself links spot steps = .ok (.entry loc) ∧
        fs.find? loc = some (.link target) := by
  induction links generalizing spot steps with
  | zero =>
    rw [follow, follow]
    rcases walk_itself_cases spot with hsame | ⟨directory, name, target, rest, hfind, htarget, hitself⟩
    · exact Or.inl hsame
    · rw [htarget, hitself]
      split
      · exact Or.inr ⟨_, target, rfl, hfind⟩
      · exact Or.inl rfl
  | succ links ih =>
    rw [follow, follow]
    rcases walk_itself_cases spot with hsame | ⟨directory, name, target, rest, hfind, htarget, hitself⟩
    · exact Or.inl hsame
    · rw [htarget, hitself]
      split
      · exact Or.inr ⟨_, target, rfl, hfind⟩
      · exact ih _ _

end Follow

/-! ## Paths -/

section Paths

variable {fs : FileSystem} {purpose : Purpose} {p : Path}

/-- The way of the steps of a path is that of its moves. -/
theorem reaches_of_way {loc : Location} (h : fs.Way fs.Open (fs.beginning p) p.steps loc) :
    fs.Reaches p loc := by
  rcases p.steps_eq with ⟨hsteps, -⟩ | hsteps
  · rwa [hsteps] at h
  · rw [hsteps] at h
    exact h.of_settle

/-- What a path leads to is found by its steps. -/
theorem finds_of_resolve (hanchored : fs.Anchored p) {place : Place}
    (h : fs.resolve purpose p = .ok place) :
    ∃ loc, fs.Leads place loc ∧ fs.Finds purpose (fs.beginning p) p.steps loc := by
  obtain ⟨s, hstart, hfollow⟩ := exists_of_bind_eq_ok h
  rw [start_eq_ok hstart, spot_eq_of_anchored hanchored] at hfollow
  exact finds_of_follow hfollow

theorem finds_of_locate (hanchored : fs.Anchored p) {loc : Location}
    (h : fs.locate purpose p = .ok loc) : fs.Finds purpose (fs.beginning p) p.steps loc := by
  obtain ⟨place, hresolve, h⟩ := exists_of_bind_eq_ok h
  obtain ⟨last, rfl | ⟨directory, name, rfl, -⟩, hfinds⟩ := finds_of_resolve hanchored hresolve
  · rwa [← Except.ok.inj h]
  · cases h

theorem finds_of_lookup (hanchored : fs.Anchored p) {e : Entry} (h : fs.lookup purpose p = .ok e) :
    ∃ loc, fs.Finds purpose (fs.beginning p) p.steps loc ∧ fs.find? loc = some e := by
  obtain ⟨place, hresolve, h⟩ := exists_of_bind_eq_ok h
  obtain ⟨loc, rfl | ⟨directory, name, rfl, -⟩, hfinds⟩ := finds_of_resolve hanchored hresolve
  · simp only at h
    split at h
    · rename_i hfind
      exact ⟨loc, hfinds, by rw [hfind, Except.ok.inj h]⟩
    · cases h
  · cases h

/-- What is found is reached, if links are followed. -/
theorem Finds.reaches {loc : Location} (h : fs.Finds purpose (fs.beginning p) p.steps loc)
    (hpurpose : purpose ≠ .itself) : fs.Reaches p loc := by
  cases h with
  | followed _ way => exact reaches_of_way way
  | named itself _ _ _ _ => exact absurd itself hpurpose

/-- A directory that is found is reached. -/
theorem Finds.reaches_of_hasDirectory {loc : Location}
    (h : fs.Finds purpose (fs.beginning p) p.steps loc) (hloc : fs.HasDirectory loc) :
    fs.Reaches p loc := by
  cases h with
  | followed _ way => exact reaches_of_way way
  | named _ steps_eq way isOpen last_eq =>
    refine reaches_of_way ?_
    rw [last_eq] at hloc
    rw [steps_eq, last_eq]
    refine way.append (.down isOpen (fun target hlink => ?_) (.done _))
    obtain ⟨mode, entries, hfind⟩ := hloc
    rw [hlink] at hfind
    cases hfind

/-- What is found by the last name of a path is the entry itself. -/
theorem Finds.of_itself {loc a : Location} {init : List Step} {name : Name}
    (h : fs.Finds .itself a (init ++ [.down name]) loc) :
    ∃ directory, fs.Way fs.Open a init directory ∧ fs.Open directory ∧
      loc = directory ++ [name] := by
  cases h with
  | followed follows _ => exact absurd (List.getLast?_concat) (follows rfl name)
  | @named init' name' directory _ steps_eq way isOpen last_eq =>
    obtain ⟨rfl, hname⟩ := List.append_inj' steps_eq rfl
    obtain rfl := Step.down.inj (List.cons.inj hname).1
    exact ⟨directory, way, isOpen, last_eq⟩

/-- A path leads to a directory by way of directories. -/
theorem reaches_of_isDirectory (hanchored : fs.Anchored p) (h : fs.isDirectory p = true) :
    ∃ loc, fs.Reaches p loc ∧ fs.HasDirectory loc := by
  rw [isDirectory] at h
  split at h
  · rename_i e he
    obtain ⟨mode, entries, rfl⟩ := Entry.isDirectory_iff.mp h
    obtain ⟨loc, hfinds, hfind⟩ := finds_of_lookup hanchored he
    exact ⟨loc, hfinds.reaches (by simp), mode, entries, hfind⟩
  · cases h

/-- What a path leads to is located. -/
theorem hasDirectory_of_locate {loc : Location} (h : fs.isDirectory p = true)
    (hlocate : fs.locate .target p = .ok loc) : fs.HasDirectory loc := by
  obtain ⟨place, hresolve, hplace⟩ := exists_of_bind_eq_ok hlocate
  rw [isDirectory, lookup, hresolve] at h
  cases place with
  | gap directory name => cases hplace
  | removed => cases hplace
  | entry found =>
    obtain rfl := Except.ok.inj hplace
    cases hfind : fs.find? found with
    | none => simp [hfind, bind, Except.bind] at h
    | some e =>
      simp only [hfind, bind, Except.bind] at h
      obtain ⟨mode, entries, rfl⟩ := Entry.isDirectory_iff.mp h
      exact ⟨mode, entries, hfind⟩

/-- At the end of a path there is what it leads to, or a link. -/
theorem lookup_itself_cases (fs : FileSystem) (p : Path) :
    fs.lookup .itself p = fs.lookup .target p ∨ ∃ target, fs.lookup .itself p = .ok (.link target) := by
  rw [lookup, lookup, resolve, resolve]
  simp only [bind, Except.bind]
  cases fs.start p with
  | error fault => exact Or.inl rfl
  | ok spot =>
    simp only
    rcases fs.follow_itself_cases linkLimit spot p.steps with hsame | ⟨loc, target, hitself, hlink⟩
    · rw [hsame]
      exact Or.inl rfl
    · refine Or.inr ⟨target, ?_⟩
      simp only [hitself, hlink]

/-- A directory that is at a path is also what the path leads to. -/
theorem lookup_target_of_itself {mode : Mode} {entries : List (Name × Entry)}
    (h : fs.lookup .itself p = .ok (.directory mode entries)) :
    fs.lookup .target p = .ok (.directory mode entries) := by
  rcases fs.lookup_itself_cases p with hsame | ⟨target, hlink⟩
  · exact hsame.symm.trans h
  · rw [h] at hlink
    cases hlink

/-- At the end of a path that leads to a directory there is the directory, or a link. -/
theorem lookup_itself_of_isDirectory (h : fs.isDirectory p = true) :
    (∃ mode entries, fs.lookup .itself p = .ok (.directory mode entries)) ∨
      ∃ target, fs.lookup .itself p = .ok (.link target) := by
  refine (fs.lookup_itself_cases p).imp_left fun hsame => ?_
  rw [isDirectory] at h
  split at h
  · rename_i e he
    obtain ⟨mode, entries, rfl⟩ := Entry.isDirectory_iff.mp h
    exact ⟨mode, entries, hsame.trans he⟩
  · cases h

/-- A directory that is listed is found, and may be read. -/
theorem exists_of_list {es : List (Name × Entry.Kind)} (h : fs.list p = .ok es) :
    ∃ mode entries, fs.lookup .target p = .ok (.directory mode entries) ∧ mode.read = true ∧
      es = entries.map fun q => (q.1, q.2.kind) := by
  obtain ⟨e, hlookup, h⟩ := exists_of_bind_eq_ok h
  split at h
  · rename_i mode entries
    split at h
    · exact ⟨mode, entries, hlookup, ‹_›, (Except.ok.inj h).symm⟩
    · cases h
  · cases h

theorem Reaches.madeAt {loc : Location} (h : fs.Reaches p loc) : fs.MadeAt p loc := Way.free h

/-- Where a path is made that goes on from another one. -/
theorem MadeAt.goesOn {q : Path} {names : List Name} {a b : Location} (h : fs.MadeAt p a)
    (hq : p.GoesOn names q) (hnames : fs.FreeWay a (names.map .down) b) : fs.MadeAt q b := by
  rw [MadeAt, beginning_of_isAbsolute_eq hq.isAbsolute_eq, hq.moves_eq]
  exact Way.append h hnames

/-- The last name of a path is looked up in this directory, which the moves before it reach. -/
structure LooksUp (fs : FileSystem) (p : Path) (directory : Location) (name : Name) : Prop where
  way : ∃ init, p.moves = init ++ [.down name] ∧ fs.Way fs.Open (fs.beginning p) init directory
  isOpen : fs.Open directory

theorem looksUp_of_slot (hanchored : fs.Anchored p) {s : Slot} {name : Name} (h : fs.slot p = .ok s)
    (hname : s.name? = some name) : fs.LooksUp p s.directory name := by
  obtain ⟨spot, hstart, h⟩ := exists_of_bind_eq_ok h
  obtain ⟨slashed, hsplit⟩ := splitLast_steps p
  simp only [hsplit] at h
  obtain ⟨place, hfollow, h⟩ := exists_of_bind_eq_ok h
  rw [start_eq_ok hstart, spot_eq_of_anchored hanchored] at hfollow
  obtain ⟨loc, rfl | ⟨directory, last, rfl, -⟩, hfinds⟩ := finds_of_follow hfollow
  · simp only at h
    obtain ⟨⟨mode, entries⟩, hdirectory, h⟩ := exists_of_bind_eq_ok h
    simp only at h
    split at h
    · cases h
    rename_i hsearch
    split at h
    · rename_i last hlast
      obtain rfl := Except.ok.inj h
      obtain rfl := Option.some.inj hname
      obtain ⟨before, hmoves⟩ := List.getLast?_eq_some_iff.mp hlast
      have hfind : fs.find? loc = some (.directory mode entries) := directoryOf_eq_ok hdirectory
      refine ⟨⟨before, hmoves, ?_⟩, mode, entries, by simpa using hsearch, hfind⟩
      cases hfinds with
      | followed _ way => rwa [hmoves, List.dropLast_concat] at way
      | named itself _ _ _ _ => cases itself
    · obtain rfl := Except.ok.inj h
      cases hname
  · cases h

theorem directory_of_slot {s : Slot} {name : Name} (h : fs.slot p = .ok s) (hname : s.name? = some name) :
    ∃ entries, fs.find? s.directory = some (.directory s.mode entries) := by
  obtain ⟨spot, -, h⟩ := exists_of_bind_eq_ok h
  obtain ⟨slashed, hsplit⟩ := splitLast_steps p
  simp only [hsplit] at h
  obtain ⟨place, -, h⟩ := exists_of_bind_eq_ok h
  cases place with
  | gap directory last => cases h
  | removed =>
    simp only at h
    split at h
    · cases h
    · obtain rfl := Except.ok.inj h
      cases hname
  | entry loc =>
    simp only at h
    obtain ⟨⟨mode, entries⟩, hdirectory, h⟩ := exists_of_bind_eq_ok h
    simp only at h
    split at h
    · cases h
    · split at h
      · obtain rfl := Except.ok.inj h
        exact ⟨entries, directoryAt_eq_ok hdirectory⟩
      · obtain rfl := Except.ok.inj h
        cases hname

/-- A name that is looked up leads to its entry, unless it is that of a link. -/
theorem LooksUp.reaches {directory : Location} {name : Name} (h : fs.LooksUp p directory name)
    (hlink : ∀ target, fs.find? (directory ++ [name]) ≠ some (.link target)) :
    fs.Reaches p (directory ++ [name]) := by
  obtain ⟨init, hmoves, hway⟩ := h.way
  rw [Reaches, hmoves]
  exact hway.append (.down h.isOpen hlink (.done _))

/-- The last name of a path that goes on below a directory is looked up where the names lead. -/
theorem LooksUp.eq_of_goesOn {q : Path} {names : List Name} {name last : Name}
    {goal directory : Location} (h : fs.LooksUp q directory last) (hgoal : fs.MadeAt p goal)
    (hdirectory : fs.HasDirectory (goal ++ names)) (hq : p.GoesOn (names ++ [name]) q) :
    directory = goal ++ names ∧ last = name := by
  obtain ⟨init, hmoves, hway⟩ := h.way
  have hsplit := hq.moves_eq
  rw [hmoves, List.map_append, ← List.append_assoc] at hsplit
  obtain ⟨rfl, hlast⟩ := List.append_inj' hsplit rfl
  rw [beginning_of_isAbsolute_eq hq.isAbsolute_eq] at hway
  have hnames := freeWay_of_hasDirectory hdirectory
  exact ⟨hway.eq (hgoal.append hnames), Step.down.inj (List.cons.inj hlast).1⟩

end Paths

/-! ## After changes -/

/-- The current directory is the same, and directories with their modes and links stay. -/
structure Keeps (fs fs' : FileSystem) : Prop where
  current_eq : fs'.current = fs.current
  directory : ∀ loc mode, fs.view loc = some (.directory mode []) →
    fs'.view loc = some (.directory mode [])
  link : ∀ loc target, fs.find? loc = some (.link target) → fs'.find? loc = some (.link target)

namespace Keeps

variable {fs fs' fs'' : FileSystem} {p : Path} {a b loc : Location} {steps : List Step}

theorem trans (h : Keeps fs fs') (h' : Keeps fs' fs'') : Keeps fs fs'' where
  current_eq := h'.current_eq.trans h.current_eq
  directory loc mode hloc := h'.directory loc mode (h.directory loc mode hloc)
  link loc target hloc := h'.link loc target (h.link loc target hloc)

theorem hasDirectory (h : Keeps fs fs') (hloc : fs.HasDirectory loc) : fs'.HasDirectory loc := by
  rw [hasDirectory_iff_view] at hloc ⊢
  exact hloc.imp fun mode => h.directory loc mode

theorem isOpen (h : Keeps fs fs') (hloc : fs.Open loc) : fs'.Open loc := by
  obtain ⟨mode, entries, hsearch, hfind⟩ := hloc
  obtain ⟨entries', hfind'⟩ :=
    view_eq_directory_iff.mp (h.directory loc mode (view_eq_directory_iff.mpr ⟨entries, hfind⟩))
  exact ⟨mode, entries', hsearch, hfind'⟩

theorem beginning_eq (h : Keeps fs fs') (p : Path) : fs'.beginning p = fs.beginning p := by
  rw [beginning, beginning, h.current_eq]

theorem anchored (h : Keeps fs fs') (hp : fs.Anchored p) : fs'.Anchored p := by
  rw [Anchored, h.current_eq]
  exact hp

/-- A way through directories to a directory stays one. -/
theorem way (h : Keeps fs fs') (hway : fs.Way fs.Open a steps b) (hb : fs.HasDirectory b) :
    fs'.Way fs'.Open a steps b := by
  induction hway with
  | done loc => exact .done loc
  | settle _ ih => exact .settle (ih hb)
  | stay passable _ ih => exact .stay (h.isOpen passable) (ih hb)
  | up passable _ ih => exact .up (h.isOpen passable) (ih hb)
  | down passable _ next ih =>
    refine .down (h.isOpen passable) (fun target hlink => ?_) (ih hb)
    -- the name leads on to a directory, so it is that of a directory
    obtain ⟨mode, entries, hfind⟩ := h.hasDirectory (next.hasDirectory hb)
    rw [hlink] at hfind
    cases hfind
  | link passable isLink _ ih => exact .link (h.isOpen passable) (h.link _ _ isLink) (ih hb)

theorem reaches (h : Keeps fs fs') (hp : fs.Reaches p loc) (hloc : fs.HasDirectory loc) :
    fs'.Reaches p loc := by
  rw [Reaches, h.beginning_eq]
  exact h.way hp hloc

end Keeps

theorem LooksUp.keeps {fs fs' : FileSystem} {p : Path} {directory : Location} {name : Name}
    (hp : fs.LooksUp p directory name) (h : Keeps fs fs') : fs'.LooksUp p directory name := by
  obtain ⟨init, hmoves, hway⟩ := hp.way
  exact ⟨⟨init, hmoves, h.beginning_eq p ▸ h.way hway hp.isOpen.hasDirectory⟩, h.isOpen hp.isOpen⟩

/-- The links are the same, and so is the current directory. -/
structure SameLinks (fs fs' : FileSystem) : Prop where
  current_eq : fs'.current = fs.current
  link_iff : ∀ loc target, fs'.find? loc = some (.link target) ↔ fs.find? loc = some (.link target)

namespace SameLinks

variable {fs fs' fs'' : FileSystem} {p : Path} {a b loc : Location} {steps : List Step}

theorem refl (fs : FileSystem) : SameLinks fs fs := ⟨rfl, fun _ _ => Iff.rfl⟩

theorem symm (h : SameLinks fs fs') : SameLinks fs' fs where
  current_eq := h.current_eq.symm
  link_iff loc target := (h.link_iff loc target).symm

theorem trans (h : SameLinks fs fs') (h' : SameLinks fs' fs'') : SameLinks fs fs'' where
  current_eq := h'.current_eq.trans h.current_eq
  link_iff loc target := (h'.link_iff loc target).trans (h.link_iff loc target)

/-- Directories that are made where nothing was change no link. -/
theorem of_view_eq (hcurrent : fs'.current = fs.current) (h : ∀ l, fs'.view l = fs.view l ∨
    fs.view l = none ∧ fs'.view l = some .emptyDirectory) : SameLinks fs fs' where
  current_eq := hcurrent
  link_iff loc target := by
    rw [← view_eq_link_iff, ← view_eq_link_iff]
    rcases h loc with heq | ⟨hnone, hempty⟩
    · rw [heq]
    · rw [hnone, hempty]
      simp [Entry.emptyDirectory]

theorem way (h : SameLinks fs fs') (hway : fs.FreeWay a steps b) : fs'.FreeWay a steps b := by
  induction hway with
  | done loc => exact .done loc
  | settle _ ih => exact .settle ih
  | stay _ _ ih => exact .stay trivial ih
  | up _ _ ih => exact .up trivial ih
  | down _ noLink _ ih =>
    exact .down trivial (fun target hlink => noLink target ((h.link_iff _ _).mp hlink)) ih
  | link _ isLink _ ih => exact .link trivial ((h.link_iff _ _).mpr isLink) ih

theorem beginning_eq (h : SameLinks fs fs') (p : Path) : fs'.beginning p = fs.beginning p := by
  rw [beginning, beginning, h.current_eq]

theorem madeAt (h : SameLinks fs fs') (hp : fs.MadeAt p loc) : fs'.MadeAt p loc := by
  rw [MadeAt, h.beginning_eq]
  exact h.way hp

end SameLinks

end FileRoutes.FileSystem
