import FileRoutes.Proofs.Migration.Composition
import FileRoutes.Proofs.Migration.Guard

/-!
# Targets that no link interferes with

The guard of a copy finds a location for every target, whatever is there of it and however much of that can
be reached (`targetLocation_of_anchored`), and no dots are left in it (`isDown_settle`).  As much of the text
as leads anywhere is replaced by where it leads, and if no link is at the location that the text spells, or
above it, that is where it was.  Then the guard compares the source with the very location that the target
spells, and it does so name by name: a target is refused exactly if the names of the source are the first of
its names (`targetLocation_exact`).

That the copy fails for no other reason in this way is due to the walk, which refuses nothing
(`Action.composes_obliging`).
-/

namespace FileRoutes

theorem Name.isDown_iff {name : Name} :
    name.IsDown ↔ name ≠ [] ∧ name ≠ Path.dot ∧ name ≠ Path.dotDot := by
  rw [Name.IsDown, Step.ofSegment?]
  split
  · simp [*]
  split
  · simp [*]
  split
  · simp [*]
  · simp [*]

namespace FileSystem

variable {fs : FileSystem} {p : Path} {loc : Location}

/-- A way on which names are followed leads to names: it passes over dots, and so do the links on it. -/
theorem Way.isDown {Passable : Location → Prop} {a b : Location} {steps : List Step}
    (h : fs.Way Passable a steps b) (ha : ∀ name ∈ a, name.IsDown)
    (hsteps : ∀ name, Step.down name ∈ steps → name.IsDown) : ∀ name ∈ b, name.IsDown := by
  induction h with
  | done loc => exact ha
  | settle _ ih => exact ih ha fun name hname => hsteps name (List.mem_cons_of_mem _ hname)
  | stay _ _ ih => exact ih ha fun name hname => hsteps name (List.mem_cons_of_mem _ hname)
  | up _ _ ih =>
    exact ih (fun name hname => ha name (List.mem_of_mem_dropLast hname))
      fun name hname => hsteps name (List.mem_cons_of_mem _ hname)
  | @down loc last name rest _ _ _ ih =>
    refine ih (fun n hn => ?_) fun n hn => hsteps n (List.mem_cons_of_mem _ hn)
    rcases List.mem_append.mp hn with hn | hn
    · exact ha n hn
    · rw [List.mem_singleton.mp hn]
      exact hsteps name List.mem_cons_self
  | @link loc last name rest target _ _ _ ih =>
    refine ih (fun n hn => ?_) fun n hn => ?_
    · split at hn
      · cases hn
      · exact ha n hn
    · rcases List.mem_append.mp hn with hn | hn
      · rcases target.steps_eq with ⟨hsteps', -⟩ | hsteps'
        · rw [hsteps'] at hn
          exact (Path.isDown_of_mem_moves hn).1
        · rw [hsteps'] at hn
          simp only [List.mem_append, List.mem_singleton, reduceCtorEq, or_false] at hn
          exact (Path.isDown_of_mem_moves hn).1
      · exact hsteps n (List.mem_cons_of_mem _ hn)

/-- A canonical location can be spelled. -/
theorem isDown_of_canonical (hfs : fs.Valid) (h : fs.canonical p = .ok loc) :
    ∀ name ∈ loc, name.IsDown :=
  (madeAt_of_canonical hfs h).2.isDown (hfs.clear_beginning p).isDown
    fun _ hname => (Path.isDown_of_mem_moves hname).1

/-- No link is at the location or above it. -/
def Unlinked (fs : FileSystem) (loc : Location) : Prop :=
  ∀ above, above <+: loc → ∀ link, fs.find? above ≠ some (.link link)

end FileSystem

namespace Copy

variable {fs : FileSystem} {source target : Path} {origin goal : Location}

theorem isDown_settle (hfs : fs.Valid) {names : List Name} (hnames : ∀ name ∈ names, name.IsDown) :
    ∀ name ∈ settle fs names, name.IsDown := by
  induction names with
  | nil => exact hnames
  | cons name above ih =>
    obtain ⟨hname, habove⟩ := List.forall_mem_cons.mp hnames
    rw [settle]
    cases hcanonical : fs.canonical (.ofLocation (name :: above).reverse) with
    | ok loc => exact FileSystem.isDown_of_canonical hfs hcanonical
    | error fault =>
      intro n hn
      rcases List.mem_append.mp hn with hn | hn
      · exact ih habove n hn
      · rwa [List.mem_singleton.mp hn]

/-- What the path spells are names, whatever dots are in it. -/
theorem isDown_spelled (hfs : fs.Valid) : ∀ name ∈ fs.spelled target, name.IsDown :=
  Step.forall_mem_foldl_move (fun _ hname => (Path.isDown_of_mem_moves hname).1)
    (hfs.clear_beginning target).isDown

/-- The guard finds a location for a target that begins somewhere. -/
theorem targetLocation_of_anchored (h : fs.Anchored target) :
    targetLocation fs target = .ok (settle fs (fs.spelled target).reverse) := by
  obtain ⟨goal, hgoal⟩ : ∃ goal, targetLocation fs target = .ok goal := by
    rw [targetLocation, FileSystem.currentLocation]
    rcases h with habsolute | hcurrent
    · rw [if_pos habsolute]
      exact ⟨_, rfl⟩
    · rw [if_pos hcurrent]
      split <;> exact ⟨_, rfl⟩
  rw [hgoal, (targetLocation_eq_settle hgoal).2]

variable {s : Session}

/-- The guard refuses a target whose location it finds in the source, and the copy refuses nothing else. -/
theorem refuses_iff_inside (horigin : s.fs.canonical source = .ok origin)
    (hgoal : targetLocation s.fs target = .ok goal) :
    (∃ refusal s', copyTree source target s = (.error (.refused refusal), s')) ↔ origin <+: goal := by
  constructor
  · rintro ⟨refusal, s', hrun⟩
    obtain ⟨t, htell, hsame⟩ :=
      Action.exists_tell .info .copying ("Copying " ++ source.text ++ " to " ++ target.text) s
    rw [← hsame] at horigin hgoal
    rw [copyTree, bind_run_of_ok htell, bind_run_of_ok (Action.ask_eq_ok (·.canonical source) horigin),
      bind_run_of_ok (Action.ask_eq_ok (targetLocation · target) hgoal)] at hrun
    by_contra houtside
    rw [if_neg (fun hprefix => houtside (List.isPrefixOf_iff_prefix.mp hprefix))] at hrun
    have hwalk := Action.composes_obliging.walkTold source target
    obtain ⟨task, cause, hduring⟩ := hwalk t _ s' hrun
    cases hduring
  · intro hinside
    obtain ⟨s', hrun, -⟩ := copyTree_of_prefix horigin hgoal hinside
    exact ⟨_, s', hrun⟩

/-- Names are compared as a whole: a longer name is another one. -/
theorem not_prefix_of_longer {above below : Location} {name more : Name} (hmore : more ≠ []) :
    ¬ above ++ [name] <+: above ++ (name ++ more) :: below := by
  rw [List.prefix_append_right_inj, List.cons_prefix_cons]
  rintro ⟨hname, -⟩
  exact hmore (List.self_eq_append_right.mp hname)

/-- The guard finds a location for every target, and one without dots.  If no link is at the location that
the target spells, or above it, the guard finds that location, and the target is refused exactly if the
names that lead to the source are the first of its names.  A name that only begins like that of the source
does not count. -/
theorem targetLocation_exact (hfs : s.fs.Valid) (hanchored : s.fs.Anchored target) :
    ∃ goal, targetLocation s.fs target = .ok goal ∧
      (∀ name ∈ goal, name ≠ [] ∧ name ≠ Path.dot ∧ name ≠ Path.dotDot) ∧
      (s.fs.Unlinked (s.fs.spelled target) → goal = s.fs.spelled target ∧
        ∀ source origin, s.fs.canonical source = .ok origin →
          ((∃ s', copyTree source target s = (.error (.refused (.targetInside target source)), s')) ↔
            origin <+: s.fs.spelled target) ∧
          ∀ above name more below, origin = above ++ [name] → more ≠ [] →
            s.fs.spelled target = above ++ (name ++ more) :: below →
              ∀ refusal s', copyTree source target s ≠ (.error (.refused refusal), s')) := by
  have hgoal := targetLocation_of_anchored hanchored
  refine ⟨_, hgoal, fun name hname => ?_, fun hunlinked => ?_⟩
  · exact Name.isDown_iff.mp
      (isDown_settle hfs (fun n hn => isDown_spelled hfs n (List.mem_reverse.mp hn)) name hname)
  have hspelled : settle s.fs (s.fs.spelled target).reverse = s.fs.spelled target := by
    rw [settle_eq hfs, List.reverse_reverse]
    rw [List.reverse_reverse]
    exact ⟨isDown_spelled hfs, hunlinked⟩
  rw [hspelled] at hgoal
  refine ⟨hspelled, fun source origin horigin => ⟨⟨?_, ?_⟩, ?_⟩⟩
  · rintro ⟨s', hrun⟩
    exact (refuses_iff_inside horigin hgoal).mp ⟨_, s', hrun⟩
  · intro hinside
    obtain ⟨s', hrun, -⟩ := copyTree_of_prefix horigin hgoal hinside
    exact ⟨s', hrun⟩
  · rintro above name more below rfl hmore hlonger refusal s' hrun
    have hinside := (refuses_iff_inside horigin hgoal).mp ⟨refusal, s', hrun⟩
    rw [hlonger] at hinside
    exact not_prefix_of_longer hmore hinside

/-! ## A neighbour with a longer name -/

/-- The current directory, and a directory beside it that may not be used at all. -/
def sampleLocked : FileSystem where
  root := .directory .full [
    (Utf8.encode "from", .directory .full [(Utf8.encode "page.tsx", .file .plain [0x78])]),
    (Utf8.encode "locked", .directory ⟨false, false, false⟩ [(Utf8.encode "inner", .emptyDirectory)])]
  current := .ofLocation [Utf8.encode "from"]

/-- The target passes by the locked directory, goes up from the top, and spells a name that begins with that
of the source.  Nothing is there yet. -/
theorem targetLocation_exact_longerName :
    sampleLocked.canonical (.ofText "../from") = .ok [Utf8.encode "from"] ∧
      targetLocation sampleLocked (.ofText "../../locked/inner/../../from-old/new") =
        .ok [Utf8.encode "from-old", Utf8.encode "new"] ∧
      ∀ refusal s', copyTree (.ofText "../from") (.ofText "../../locked/inner/../../from-old/new")
        (.fresh sampleLocked) ≠ (.error (.refused refusal), s') := by
  have hfs : sampleLocked.Valid := ⟨by decide, _, _, rfl⟩
  have horigin : sampleLocked.canonical (.ofText "../from") = .ok [Utf8.encode "from"] := by rfl
  have hspelled : sampleLocked.spelled (.ofText "../../locked/inner/../../from-old/new") =
      [Utf8.encode "from-old", Utf8.encode "new"] := by rfl
  have hunlinked : sampleLocked.Unlinked [Utf8.encode "from-old", Utf8.encode "new"] := by
    intro above habove link hlink
    cases above with
    | nil => cases hlink
    | cons name rest =>
      obtain ⟨rfl, -⟩ := List.cons_prefix_cons.mp habove
      cases hlink
  have hanchored : sampleLocked.Anchored (.ofText "../../locked/inner/../../from-old/new") := Or.inr rfl
  obtain ⟨goal, hgoal, -, hexact⟩ := targetLocation_exact (s := .fresh sampleLocked) hfs hanchored
  rw [← hspelled] at hunlinked
  obtain ⟨rfl, hguard⟩ := hexact hunlinked
  refine ⟨horigin, hspelled ▸ hgoal, ?_⟩
  exact (hguard _ _ horigin).2 [] (Utf8.encode "from") (Utf8.encode "-old") [Utf8.encode "new"] rfl
    (by decide) hspelled

end Copy

end FileRoutes
