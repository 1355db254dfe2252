import FileRoutes.Proofs.FileSystem.Growth
import FileRoutes.Proofs.Migration.Composition
import FileRoutes.Proofs.Migration.Guard
import FileRoutes.Proofs.Migration.Stages

/-!
# Failing stages

A migration that fails leaves what the stages before the failing one did, and what the failing stage did
on its own.  The stages are the check of the arguments, and then those of a run: the conventions are
read, the project is copied, its routes are compiled, the table is dumped, and the files are generated.

`Staged` tells of each stage what is left if it is the one that fails.  What a stage does to a file
system is told by `Action.on`, so that the file system after a failed copy, say, is the one that the same
copy leaves when it is run on its own.

## Dry runs

A dry run writes nothing but the dump.  Whether it fails or not, no place looks different afterwards but
the one to which the dump's path leads, and those of directories that were missing above it
(`Dumped`).  Nothing is assumed about the path: it may lead over links and dots, and begin in a
directory that was removed.
-/

namespace FileRoutes

open FileRoutes.Action (Logless)

namespace Migration

variable {a : Arguments Path} {fs fs' : FileSystem} {s : Session}

/-! ## Compiling -/

/-- What follows the line of the log that names the directory. -/
def compileListed (settings : Settings) (root : Path) (fs : FileSystem) : Action Compilation := do
  let c ← Action.attempt (.compileRoutes root) ((compile settings fs root).mapError .problem)
  Action.tellAll (compilationLog c)
  if c.routes.isEmpty then
    Action.tell .warn .command ("No routable folders found in " ++ root.text)
  return c

theorem compileRoutes_eq (settings : Settings) (root : Path) : compileRoutes settings root = (do
    Action.tell .info .command ("Compiling routes from " ++ root.text)
    let fs ← Action.fileSystem
    if fs.isDirectory root then
      Action.tell .info .loading ("Loading route tree from " ++ root.text)
    compileListed settings root fs) := rfl

theorem logless_compileListed (settings : Settings) (root : Path) (fs : FileSystem) :
    Logless (compileListed settings root fs) := by
  rw [compileListed]
  refine .bind (.attempt _ _) fun c => .bind (.tellAll _) fun _ => .ite ?_ (.pure c)
  exact .bind (.tell _ _ _) fun _ => .pure c

/-! ## One stage after the other -/

/-- Checking the arguments changes nothing. -/
theorem quiet_check (a : Arguments Path) : Action.Quiet (check a) := by
  have hreport : Action.Quiet (do
      Action.tell .info .command ("Source: " ++ a.source.text)
      Action.tell .info .command ("Target: " ++ a.target.text)
      Action.tell .info .command ("Entry order: " ++ Arguments.orderTitle a.order)
      Action.tell .info .command ("Path style: " ++ Arguments.styleTitle a.style)
      Action.tell .info .command ("Conventions: " ++ a.conventions?.elim "Next.js app router".toList Path.text)) :=
    .bind (.tell _ _ _) fun _ => .bind (.tell _ _ _) fun _ => .bind (.tell _ _ _) fun _ =>
      .bind (.tell _ _ _) fun _ => .tell _ _ _
  rw [check]
  refine .bind (.tell _ _ _) fun _ => .bind .fileSystem fun fs => ?_
  exact .guard (fun _ => .guard (fun _ => hreport) ()) ()

/-- The conventions that the arguments ask for are these. -/
inductive Chooses (a : Arguments Path) (fs : FileSystem) : Conventions → Prop
  | standard (h : a.conventions? = none) : Chooses a fs .standard
  | loaded {file : Path} {conventions : Conventions} (h : a.conventions? = some file)
      (hload : Conventions.load fs file = .ok conventions) : Chooses a fs conventions

/-- The copy that the arguments ask for leaves this file system; without a copy it is the one before. -/
inductive Leaves (a : Arguments Path) (fs : FileSystem) : FileSystem → Prop
  | same (h : a.skipsCopy = true ∨ a.isDryRun = true) : Leaves a fs fs
  | copied {fs' : FileSystem} {totals : CopyTotals} (hcopies : a.skipsCopy = false)
      (hwrites : a.isDryRun = false)
      (hcopy : (copyTree a.source a.target).on fs = (.ok totals, fs')) :
      Leaves a fs fs'

variable {conventions : Conventions}

/-- Conventions are read from the file system as it is. -/
theorem on_conventions_of_some {file : Path} (h : a.conventions? = some file) (fs : FileSystem) :
    (Migration.conventions a).on fs =
      Action.on (Action.attempt (.loadConventions file)
        ((Conventions.load fs file).mapError .problem)) fs := by
  have hread : Logless (do
      let found ← Action.fileSystem
      Action.attempt (.loadConventions file)
        ((Conventions.load found file).mapError .problem)) :=
    .bind .fileSystem fun _ => .attempt _ _
  rw [Migration.conventions.eq_def, h]
  show Action.on _ fs = _
  rw [Action.on_bind_of_ok (fun _ => hread) (Action.on_tell _ _ _ fs),
    Action.on_bind_of_ok (fun _ => .attempt _ _) (Action.on_fileSystem fs)]

/-- The conventions of a run are those that its arguments ask for. -/
theorem chooses_of_run {t : Session}
    (h : Migration.conventions a s = (.ok conventions, t)) : Chooses a s.fs conventions := by
  rw [Migration.conventions.eq_def] at h
  cases ha : a.conventions? with
  | none =>
    simp only [ha] at h
    obtain ⟨rfl, -⟩ := eq_of_pure_run h
    exact .standard ha
  | some file =>
    simp only [ha] at h
    obtain ⟨_, u, htell, h⟩ := exists_of_bind_run h
    obtain ⟨_, v, hfs, h⟩ := exists_of_bind_run h
    obtain ⟨rfl, rfl⟩ := Action.fileSystem_run hfs
    rw [Action.tell_run htell] at h
    exact .loaded ha (Action.eq_ok_of_mapError (Action.attempt_run h).1)

theorem on_conventions (h : Chooses a fs conventions) :
    (Migration.conventions a).on fs = (.ok conventions, fs) := by
  cases h with
  | standard hnone =>
    rw [Migration.conventions.eq_def, hnone]
    rfl
  | @loaded t _ hsome hload =>
    rw [on_conventions_of_some hsome]
    refine Action.on_attempt_of_ok ?_ fs
    rw [hload]
    rfl

theorem on_copy (h : Leaves a fs fs') : (copy a).on fs = (.ok (), fs') := by
  rw [copy]
  cases h with
  | same hnone =>
    by_cases hskips : a.skipsCopy = true
    · rw [if_pos hskips]
      exact Action.on_tell _ _ _ fs
    · rw [if_neg hskips, if_pos (hnone.resolve_left hskips)]
      exact Action.on_tell _ _ _ fs
  | copied hcopies hwrites hcopy =>
    rw [hcopies, hwrites, if_neg Bool.false_ne_true, if_neg Bool.false_ne_true,
      Action.on_bind_of_ok (fun _ => .pure ()) hcopy]
    rfl

/-- A run goes on from what the copy left. -/
theorem on_run (hconventions : Chooses a fs conventions) (hleaves : Leaves a fs fs') :
    (run a).on fs = Action.on (do
      let c ← compileRoutes ⟨conventions, a.order, a.style⟩ (routesRoot a conventions)
      dump a c.routes
      generate a c) fs' := by
  rw [run, Action.on_bind_of_ok (fun _ => .bind (Action.pervades_logless.copy a) fun _ => Action.pervades_logless.rest a _ _)
    (on_conventions hconventions), Action.on_bind_of_ok (fun _ => Action.pervades_logless.rest a _ _) (on_copy hleaves)]

theorem on_compileRoutes_of_ok {settings : Settings} {root : Path} {c : Compilation}
    (h : compile settings fs root = .ok c) : (compileRoutes settings root).on fs = (.ok c, fs) := by
  obtain ⟨t, hrun⟩ := compileRoutes_eq_ok (s := .fresh fs) h
  have hsame : t.fs = fs := ((quiet_compileRoutes settings root).of_run hrun).1
  rw [Action.on_of_run hrun, hsame]

theorem on_compileRoutes_of_error {settings : Settings} {root : Path} {problem : Problem}
    (h : compile settings fs root = .error problem) :
    (compileRoutes settings root).on fs = (.error (.during (.compileRoutes root) (.problem problem)), fs) := by
  have hlisted : (compileListed settings root fs).on fs =
      (.error (.during (.compileRoutes root) (.problem problem)), fs) := by
    refine Action.on_bind_of_error (Action.on_attempt_of_error ?_ fs)
    rw [h]
    rfl
  have hbehind (found : FileSystem) := logless_compileListed settings root found
  rw [compileRoutes_eq]
  refine (Action.on_bind_of_ok (fun _ => ?_) (Action.on_tell _ _ _ fs)).trans
    ((Action.on_bind_of_ok (fun found => ?_) (Action.on_fileSystem fs)).trans ?_)
  · exact .bind .fileSystem fun found => .ite (.bind (.tell _ _ _) fun _ => hbehind found) (hbehind found)
  · exact .ite (.bind (.tell _ _ _) fun _ => hbehind found) (hbehind found)
  · by_cases hdirectory : fs.isDirectory root = true
    · rw [if_pos hdirectory, Action.on_bind_of_ok (fun _ => hbehind fs) (Action.on_tell _ _ _ fs)]
      exact hlisted
    · rw [if_neg hdirectory]
      exact hlisted

/-! ## What a copy refuses -/

section Refusals

variable {source target : Path} {origin goal : Location} {fault : Fault}

theorem on_copyTree_of_source (h : fs.canonical source = .error fault) :
    (copyTree source target).on fs = (.error (.during (.resolveSource source) (.fault fault)), fs) := by
  obtain ⟨t, htell, hsame⟩ := Action.exists_tell .info .copying
    ("Copying " ++ source.text ++ " to " ++ target.text) (.fresh fs)
  have hsame' : t.fs = fs := hsame
  rw [← hsame'] at h
  have hrun : copyTree source target (.fresh fs) =
      (.error (.during (.resolveSource source) (.fault fault)), t) := by
    rw [copyTree, bind_run_of_ok htell, bind_run_of_error (Action.ask_eq_error (·.canonical source) h)]
  rw [Action.on_of_run hrun, hsame']

theorem on_copyTree_of_target (horigin : fs.canonical source = .ok origin)
    (h : Copy.targetLocation fs target = .error fault) :
    (copyTree source target).on fs = (.error (.during .findCurrent (.fault fault)), fs) := by
  obtain ⟨t, htell, hsame⟩ := Action.exists_tell .info .copying
    ("Copying " ++ source.text ++ " to " ++ target.text) (.fresh fs)
  have hsame' : t.fs = fs := hsame
  rw [← hsame'] at h horigin
  have hrun : copyTree source target (.fresh fs) = (.error (.during .findCurrent (.fault fault)), t) := by
    rw [copyTree, bind_run_of_ok htell, bind_run_of_ok (Action.ask_eq_ok (·.canonical source) horigin),
      bind_run_of_error (Action.ask_eq_error (Copy.targetLocation · target) h)]
  rw [Action.on_of_run hrun, hsame']

theorem on_copyTree_of_prefix (horigin : fs.canonical source = .ok origin)
    (hgoal : Copy.targetLocation fs target = .ok goal) (hinside : origin <+: goal) :
    (copyTree source target).on fs = (.error (.refused (.targetInside target source)), fs) := by
  obtain ⟨t, hrun, hsame⟩ := Copy.copyTree_of_prefix (s := .fresh fs) horigin hgoal hinside
  have hsame' : t.fs = fs := hsame
  rw [Action.on_of_run hrun, hsame']

end Refusals

/-! ## What a dry run writes -/

section DryRun

variable {p above : Path}

/-- The directories that were missing above the file have been made, or some of them. -/
def AddsAbove (p : Path) (fs fs' : FileSystem) : Prop :=
  fs' = fs ∨ ∃ above, p.parent? = some above ∧ FileSystem.Adds above.ancestors fs fs'

theorem AddsAbove.grows (h : AddsAbove p fs fs') :
    FileSystem.Grows fs fs' ∧ FileSystem.SameLinks fs fs' := by
  rcases h with rfl | ⟨above, -, hadds⟩
  · exact ⟨.refl fs', .refl fs'⟩
  · exact ⟨hadds.grows, hadds.sameLinks⟩

/-- A text is written once the directories above the file are there. -/
theorem writeText_writes (hroot : s.fs.HasDirectory []) (t : Text) : Ends (writeText p t) s
    (fun _ u => ∃ between, AddsAbove p s.fs between ∧
      ∃ loc mode, FileSystem.Writes p (Utf8.encode t) loc mode between u.fs)
    (fun u => AddsAbove p s.fs u.fs) := by
  have hwrite {u : Session} (hadds : AddsAbove p s.fs u.fs) (message : Text) : Ends (do
      Action.change (.writeFile p) (FileSystem.writeBytes p (Utf8.encode t))
      Action.tell .debug .output message) u
      (fun _ u => ∃ between, AddsAbove p s.fs between ∧
        ∃ loc mode, FileSystem.Writes p (Utf8.encode t) loc mode between u.fs)
      (fun u => AddsAbove p s.fs u.fs) := by
    refine .bind ((Action.ends_change (FileSystem.writeBytes_writes
      (hadds.grows.1.hasDirectory hroot) _)).mono
      (fun _ v hwritten => Action.ends_tell fun w hw => ?_) fun v hv => ?_)
    · rw [hw]
      exact ⟨u.fs, hadds, hwritten⟩
    · rwa [hv]
  rw [writeText]
  refine .bind (Action.ends_tell fun u hu => ?_)
  rw [← hu] at hwrite ⊢
  cases hparent : p.parent? with
  | none => exact hwrite (Or.inl rfl) _
  | some above =>
    refine .bind ((Action.ends_change FileSystem.createDirectories_adds).mono (fun _ v hmade => ?_)
      fun v hadds => Or.inr ⟨above, hparent, hadds⟩)
    exact hwrite (Or.inr ⟨above, hparent, hmade.1⟩) _

/-- No place looks different but the one to which the path leads, where there is a file, and those of
directories that were made above it. -/
structure Dumped (p : Path) (fs fs' : FileSystem) : Prop where
  current_eq : fs'.current = fs.current
  view_eq : ∀ loc, fs'.view loc = fs.view loc ∨
    (fs'.locate .target p = .ok loc ∧ ∃ mode contents, fs'.find? loc = some (.file mode contents) ∧
      ((∃ before, fs.find? loc = some (.file mode before)) ∨ fs.find? loc = none)) ∨
    (fs.view loc = none ∧ fs'.view loc = some .emptyDirectory ∧
      ∃ above, p.parent? = some above ∧ ∃ q ∈ above.ancestors, fs'.locate .target q = .ok loc)

namespace Dumped

theorem refl (p : Path) (fs : FileSystem) : Dumped p fs fs := ⟨rfl, fun _ => Or.inl rfl⟩

theorem of_addsAbove (h : AddsAbove p fs fs') : Dumped p fs fs' := by
  rcases h with rfl | ⟨above, hparent, hadds⟩
  · exact .refl p fs'
  · refine ⟨hadds.grows.current_eq, fun loc => ?_⟩
    rcases hadds.view_eq loc with heq | ⟨hnone, hempty, hmade⟩
    · exact Or.inl heq
    · exact Or.inr (Or.inr ⟨hnone, hempty, above, hparent, hmade⟩)

/-- The file is written once the directories are there. -/
theorem write {between : FileSystem} {contents : Bytes} {loc : Location} {mode : Mode}
    (h : Dumped p fs between) (hwrites : FileSystem.Writes p contents loc mode between fs') :
    Dumped p fs fs' where
  current_eq := hwrites.grows.current_eq.trans h.current_eq
  view_eq l := by
    have hview := hwrites.sets.view_eq l
    by_cases hl : l = loc
    · subst hl
      refine Or.inr (Or.inl ⟨hwrites.locate_eq, mode, contents, hwrites.sets.find?_self, ?_⟩)
      rcases h.view_eq l with heq | ⟨-, mode', contents', hfile, hold⟩ | ⟨-, hempty, -⟩
      · rcases hwrites.old with ⟨before, hbefore⟩ | ⟨hnone, -⟩
        · rw [← FileSystem.view_eq_file_iff, heq, FileSystem.view_eq_file_iff] at hbefore
          exact Or.inl ⟨before, hbefore⟩
        · rw [← FileSystem.view_eq_none_iff, heq, FileSystem.view_eq_none_iff] at hnone
          exact Or.inr hnone
      · exact hwrites.mode_eq hfile ▸ hold
      · have hdirectory : between.HasDirectory l := FileSystem.hasDirectory_iff_view.mpr ⟨_, hempty⟩
        exact absurd hdirectory hwrites.sets.free
    · rw [if_neg hl] at hview
      rcases h.view_eq l with heq | ⟨hlocate, -⟩ | ⟨hnone, hempty, above, hparent, q, hq, hlocate⟩
      · exact Or.inl (hview.trans heq)
      · have hsame := (hwrites.grows.locate_eq_ok hlocate).symm.trans hwrites.locate_eq
        exact absurd (Except.ok.inj hsame) hl
      · exact Or.inr (Or.inr ⟨hnone, hview.trans hempty, above, hparent, q, hq,
          hwrites.grows.locate_eq_ok hlocate⟩)

end Dumped

theorem writeText_dumped (hroot : s.fs.HasDirectory []) (t : Text) : Ends (writeText p t) s
    (fun _ u => Dumped p s.fs u.fs) (fun u => Dumped p s.fs u.fs) :=
  (writeText_writes hroot t).mono (fun _ _ ⟨_, hadds, _, _, hwrites⟩ =>
    (Dumped.of_addsAbove hadds).write hwrites) fun _ => .of_addsAbove

/-- A dry run changes nothing, or what the dump of the table changes. -/
def Previews (a : Arguments Path) (fs fs' : FileSystem) : Prop :=
  fs' = fs ∨ ∃ file, a.dump? = some file ∧ Dumped file fs fs'

theorem dump_previews (hroot : s.fs.HasDirectory []) (routes : List Route) : Ends (dump a routes) s
    (fun _ u => Previews a s.fs u.fs) (fun u => Previews a s.fs u.fs) := by
  rw [dump]
  cases hdump : a.dump? with
  | none => exact .pure (Or.inl rfl)
  | some t =>
    refine .bind (Action.ends_tell fun u hu => ?_)
    rw [← hu] at hroot ⊢
    refine .bind ((writeText_dumped hroot _).mono (fun _ v hdumped => Action.ends_tell fun w hw => ?_)
      fun v hdumped => Or.inr ⟨t, hdump, hdumped⟩)
    rw [hw]
    exact Or.inr ⟨t, hdump, hdumped⟩

theorem run_previewed (hroot : s.fs.HasDirectory []) (hdry : a.isDryRun = true) : Ends (run a) s
    (fun _ u => Previews a s.fs u.fs) (fun u => Previews a s.fs u.fs) := by
  have hsame {α : Type} {x : Action α} (hx : Action.Quiet x) {u : Session} (hu : u.fs = s.fs) :
      Ends x u (fun _ v => v.fs = s.fs) (fun v => v.fs = s.fs) := hx.ends (P := (· = s.fs)) hu
  have hnothing (u : Session) (hu : u.fs = s.fs) : Previews a s.fs u.fs := Or.inl hu
  rw [run]
  refine .bind ((hsame (quiet_conventions a) rfl).mono (fun conventions t ht => ?_) hnothing)
  refine .bind ((hsame (quiet_copy hdry) ht).mono (fun _ u hu => ?_) hnothing)
  refine .bind ((hsame (quiet_compileRoutes _ _) hu).mono (fun c v hv => ?_) hnothing)
  have hdump := dump_previews (a := a) (s := v) (hv ▸ hroot) c.routes
  rw [hv] at hdump
  refine .bind (hdump.mono (fun _ w hw => ?_) fun _ => id)
  rw [Ends, generate_dry_run hdry c w]
  exact hw

end DryRun

/-! ## The stages -/

/-- What is left when a stage fails, and in a dry run. -/
structure Staged (a : Arguments Path) (fs : FileSystem) : Prop where
  /-- Arguments that are refused leave everything as it was. -/
  refused : ∀ failure, ((check a).on fs).1 = .error failure → (migrate a).on fs = (.error failure, fs)
  /-- Arguments that are not refused are run with everything as it was. -/
  checked : ((check a).on fs).1 = .ok () → (migrate a).on fs = (run a).on fs
  /-- Conventions that cannot be read or make no sense leave everything as it was. -/
  conventions : ∀ file problem, a.conventions? = some file →
    Conventions.load fs file = .error problem →
    (run a).on fs = (.error (.during (.loadConventions file) (.problem problem)), fs)
  /-- So does a source that is not found, -/
  source : ∀ fault, fs.canonical a.source = .error fault →
    (copyTree a.source a.target).on fs =
      (.error (.during (.resolveSource a.source) (.fault fault)), fs)
  /-- a relative target when the current directory is not found, -/
  target : ∀ origin fault, fs.canonical a.source = .ok origin →
    Copy.targetLocation fs a.target = .error fault →
    (copyTree a.source a.target).on fs =
      (.error (.during .findCurrent (.fault fault)), fs)
  /-- and a target inside the source. -/
  inside : ∀ origin goal, fs.canonical a.source = .ok origin →
    Copy.targetLocation fs a.target = .ok goal → origin <+: goal →
    (copyTree a.source a.target).on fs =
      (.error (.refused (.targetInside a.target a.source)), fs)
  /-- Nothing follows a copy that fails. -/
  copy : ∀ conventions failure fs', Chooses a fs conventions → a.skipsCopy = false →
    a.isDryRun = false →
    (copyTree a.source a.target).on fs = (.error failure, fs') →
    (run a).on fs = (.error failure, fs')
  /-- Routes that cannot be compiled leave what the copy left. -/
  compile : ∀ conventions fs' problem, Chooses a fs conventions → Leaves a fs fs' →
    compile ⟨conventions, a.order, a.style⟩ fs' (routesRoot a conventions) = .error problem →
    (run a).on fs =
      (.error (.during (.compileRoutes (routesRoot a conventions)) (.problem problem)), fs')
  /-- Nothing follows a dump that cannot be written. -/
  dump : ∀ conventions fs' c file failure fs'', Chooses a fs conventions → Leaves a fs fs' →
    FileRoutes.compile ⟨conventions, a.order, a.style⟩ fs' (routesRoot a conventions) = .ok c →
    a.dump? = some file →
    (writeText file (Route.dump c.routes)).on fs' = (.error failure, fs'') →
    (run a).on fs = (.error failure, fs'')
  /-- A dry run changes nothing but what the dump changes. -/
  dryRun : a.isDryRun = true →
    Previews a fs ((run a).on fs).2 ∧ Previews a fs ((migrate a).on fs).2

theorem on_check (a : Arguments Path) (fs : FileSystem) : ((check a).on fs).2 = fs :=
  (quiet_check a (.fresh fs)).1

theorem on_migrate_of_refused {failure : Failure} (h : ((check a).on fs).1 = .error failure) :
    (migrate a).on fs = (.error failure, fs) :=
  Action.on_bind_of_error (Prod.ext h (on_check a fs))

theorem on_migrate_of_checked (h : ((check a).on fs).1 = .ok ()) :
    (migrate a).on fs = (run a).on fs :=
  Action.on_bind_of_ok (fun _ => Action.pervades_logless.run a) (Prod.ext h (on_check a fs))

theorem on_run_of_copy_error {failure : Failure} (hconventions : Chooses a fs conventions)
    (hcopies : a.skipsCopy = false) (hwrites : a.isDryRun = false)
    (h : (copyTree a.source a.target).on fs = (.error failure, fs')) :
    (run a).on fs = (.error failure, fs') := by
  have hcopy : (copy a).on fs = (.error failure, fs') := by
    rw [copy, hcopies, hwrites, if_neg Bool.false_ne_true, if_neg Bool.false_ne_true]
    exact Action.on_bind_of_error h
  rw [run, Action.on_bind_of_ok (fun _ => .bind (Action.pervades_logless.copy a) fun _ => Action.pervades_logless.rest a _ _)
    (on_conventions hconventions)]
  exact Action.on_bind_of_error hcopy

theorem on_dump_of_error {file : Path} {routes : List Route} {failure : Failure} (hdump : a.dump? = some file)
    (h : (writeText file (Route.dump routes)).on fs = (.error failure, fs')) :
    (dump a routes).on fs = (.error failure, fs') := by
  rw [dump, hdump]
  refine (Action.on_bind_of_ok (fun _ => ?_) (Action.on_tell _ _ _ fs)).trans
    (Action.on_bind_of_error h)
  exact .bind (Action.pervades_logless.writeText _ _) fun _ => .tell _ _ _

/-- Each stage that fails leaves what it did on its own after the stages before it. -/
theorem migrate_staged (hroot : fs.HasDirectory []) : Staged a fs where
  refused _ := on_migrate_of_refused
  checked := on_migrate_of_checked
  conventions file problem hsome hload := by
    refine Action.on_bind_of_error ?_
    rw [on_conventions_of_some hsome]
    refine Action.on_attempt_of_error ?_ fs
    rw [hload]
    rfl
  source _ := on_copyTree_of_source
  target _ _ := on_copyTree_of_target
  inside _ _ := on_copyTree_of_prefix
  copy _ _ _ := on_run_of_copy_error
  compile conventions fs' problem hconventions hleaves hproblem := by
    rw [on_run hconventions hleaves]
    exact Action.on_bind_of_error (on_compileRoutes_of_error hproblem)
  dump conventions fs' c file failure fs'' hconventions hleaves hcompile hdump hwrite := by
    rw [on_run hconventions hleaves, Action.on_bind_of_ok
      (fun _ => .bind (Action.pervades_logless.dump a _) fun _ => Action.pervades_logless.generate a _) (on_compileRoutes_of_ok hcompile)]
    exact Action.on_bind_of_error (on_dump_of_error hdump hwrite)
  dryRun hdry := by
    have hrun : Previews a fs ((run a).on fs).2 := (run_previewed (s := .fresh fs) hroot hdry).state
    refine ⟨hrun, ?_⟩
    cases hcheck : ((check a).on fs).1 with
    | error failure =>
      rw [on_migrate_of_refused hcheck]
      exact Or.inl rfl
    | ok _ =>
      rw [on_migrate_of_checked hcheck]
      exact hrun

/-! ## Stages that fail -/

/-- A migration of `from` to `to`. -/
def stagedArguments (dump? : Option Path) : Arguments Path where
  source := .ofText "from"
  target := .ofText "to"
  order := .asEnumerated
  style := .relative
  conventions? := none
  skipsCopy := false
  isDryRun := false
  dump? := dump?
  isVerbose := false

/-- A project `from` with these entries. -/
def stagedProject (entries : List (Name × Entry)) : FileSystem where
  root := .directory .full [(Utf8.encode "from", .directory .full entries)]
  current := .ofLocation []

/-- A project whose second file may not be read. -/
def lockedProject : FileSystem :=
  stagedProject [(Utf8.encode "a.ts", .file .plain [0x61]),
    (Utf8.encode "b.ts", .file { Mode.plain with read := false } [])]

/-- A project with a folder whose name is no text. -/
def namelessProject : FileSystem :=
  stagedProject [(Utf8.encode "app", .directory .full [([0xFF], .directory .full [])])]

/-- A project with a page. -/
def pageProject : FileSystem :=
  stagedProject [(Utf8.encode "app", .directory .full [
    (Utf8.encode "blog", .directory .full [(Utf8.encode "page.tsx", .file .plain [])])])]

/-- A copy that has copied one of two files ends the migration.  Behind a complete copy the table cannot be
compiled, and nothing is generated.  And a table that cannot be written where a directory is ends the
migration before the routes file is written. -/
theorem migrate_staged_projects :
    (∃ failure fs', (copyTree (.ofText "from") (.ofText "to")).on lockedProject = (.error failure, fs') ∧
      (fs'.find? [Utf8.encode "to", Utf8.encode "a.ts"]).isSome = true ∧
      (fs'.find? [Utf8.encode "to", Utf8.encode "b.ts"]).isSome = false ∧
      (run (stagedArguments none)).on lockedProject = (.error failure, fs')) ∧
    (∃ totals fs' problem,
      (copyTree (.ofText "from") (.ofText "to")).on namelessProject = (.ok totals, fs') ∧
      (fs'.find? [Utf8.encode "to", Utf8.encode "app", [0xFF]]).isSome = true ∧
      compile ⟨.standard, .asEnumerated, .relative⟩ fs' (.ofText "to/app") = .error problem ∧
      (run (stagedArguments none)).on namelessProject =
        (.error (.during (.compileRoutes (.ofText "to/app")) (.problem problem)), fs')) ∧
    ∃ totals fs' c failure fs'',
      (copyTree (.ofText "from") (.ofText "to")).on pageProject = (.ok totals, fs') ∧
      compile ⟨.standard, .asEnumerated, .relative⟩ fs' (.ofText "to/app") = .ok c ∧ c.routes ≠ [] ∧
      (writeText (.ofText "to/app") (Route.dump c.routes)).on fs' = (.error failure, fs'') ∧
      (fs''.find? [Utf8.encode "to", Utf8.encode "routes.tsx"]).isSome = false ∧
      (run (stagedArguments (some (.ofText "to/app")))).on pageProject = (.error failure, fs'') := by
  have hroot (entries : List (Name × Entry)) : (stagedProject entries).HasDirectory [] := ⟨_, _, rfl⟩
  have hleft {α : Type} {x : Action α} {fs : FileSystem} {r : Except Failure α} (h : (x.on fs).1 = r) :
      x.on fs = (r, (x.on fs).2) := Prod.ext h rfl
  refine ⟨?_, ?_, ?_⟩
  · obtain ⟨failure, hfailure⟩ := exists_error_of_isOk
      (r := ((copyTree (.ofText "from") (.ofText "to")).on lockedProject).1) (by decide +kernel)
    refine ⟨failure, _, hleft hfailure, by decide +kernel, by decide +kernel, ?_⟩
    exact (migrate_staged (hroot _)).copy .standard _ _ (.standard rfl) rfl rfl (hleft hfailure)
  · obtain ⟨totals, htotals, -⟩ := exists_of_toOption_any (p := fun _ => true)
      (r := ((copyTree (.ofText "from") (.ofText "to")).on namelessProject).1) (by decide +kernel)
    obtain ⟨problem, hproblem⟩ := exists_error_of_isOk (r := compile ⟨.standard, .asEnumerated, .relative⟩
      ((copyTree (.ofText "from") (.ofText "to")).on namelessProject).2 (.ofText "to/app")) (by decide +kernel)
    refine ⟨totals, _, problem, hleft htotals, by decide +kernel, hproblem, ?_⟩
    exact (migrate_staged (hroot _)).compile .standard _ problem (.standard rfl)
      (.copied rfl rfl (hleft htotals)) hproblem
  · obtain ⟨totals, htotals, -⟩ := exists_of_toOption_any (p := fun _ => true)
      (r := ((copyTree (.ofText "from") (.ofText "to")).on pageProject).1) (by decide +kernel)
    obtain ⟨c, hcompile, hc⟩ := exists_of_toOption_any (r := compile ⟨.standard, .asEnumerated, .relative⟩
      ((copyTree (.ofText "from") (.ofText "to")).on pageProject).2 (.ofText "to/app"))
      (p := fun c => !c.routes.isEmpty &&
        !((writeText (.ofText "to/app") (Route.dump c.routes)).on
          ((copyTree (.ofText "from") (.ofText "to")).on pageProject).2).1.isOk &&
        !(((writeText (.ofText "to/app") (Route.dump c.routes)).on
          ((copyTree (.ofText "from") (.ofText "to")).on pageProject).2).2.find?
            [Utf8.encode "to", Utf8.encode "routes.tsx"]).isSome) (by decide +kernel)
    simp only [Bool.and_eq_true, Bool.not_eq_true', List.isEmpty_eq_false_iff] at hc
    obtain ⟨⟨hroutes, hwrite⟩, hfree⟩ := hc
    obtain ⟨failure, hfailure⟩ := exists_error_of_isOk hwrite
    refine ⟨totals, _, c, failure, _, hleft htotals, hcompile, hroutes, hleft hfailure, hfree, ?_⟩
    exact (migrate_staged (hroot _)).dump .standard _ c (.ofText "to/app") failure _ (.standard rfl)
      (.copied rfl rfl (hleft htotals)) hcompile rfl (hleft hfailure)

end Migration

end FileRoutes
