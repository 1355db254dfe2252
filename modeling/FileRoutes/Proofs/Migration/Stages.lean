import FileRoutes.Command.Migrate
import FileRoutes.Proofs.Conventions.Reading
import FileRoutes.Proofs.Migration.Output

/-!
# The stages of a migration

Each stage that succeeds is told by what it hands on and what it does to the file system.  Loading the
conventions and compiling the routes only ask the file system; the others copy a tree or write files, or
do nothing at all.

The conventions that come out of the first stage are usable, so the name of the routes root is a single
segment.
-/

namespace FileRoutes

/-! ## Conventions -/

namespace Conventions

/-- A name that is neither empty nor dots is a move down. -/
theorem isDown_encode {t : Text} (hne : t ≠ []) (hdot : t ≠ ".".toList) (hdots : t ≠ "..".toList) :
    Name.IsDown (Utf8.encode t) := by
  have hnil : Utf8.encode t ≠ [] := fun h => hne (Utf8.encode_injective (u := []) h)
  have hone : Utf8.encode t ≠ Path.dot := fun h => hdot (Utf8.encode_injective h)
  have htwo : Utf8.encode t ≠ Path.dotDot := fun h => hdots (Utf8.encode_injective h)
  rw [Name.IsDown, Step.ofSegment?, if_neg hnil, if_neg hone, if_neg htwo]

end Conventions

/-! ## The stages -/

namespace Migration

variable {a : Arguments Path} {s s' : Session}

theorem conventions_run {conventions : Conventions}
    (h : Migration.conventions a s = (.ok conventions, s')) :
    s'.fs = s.fs ∧ conventions.complaint? = none := by
  rw [Migration.conventions.eq_def] at h
  cases ha : a.conventions? with
  | none =>
    simp only [ha] at h
    obtain ⟨rfl, rfl⟩ := eq_of_pure_run h
    exact ⟨rfl, by decide⟩
  | some t =>
    simp only [ha] at h
    obtain ⟨_, u, htell, h⟩ := exists_of_bind_run h
    obtain ⟨fs, v, hfs, h⟩ := exists_of_bind_run h
    obtain ⟨rfl, rfl⟩ := Action.fileSystem_run hfs
    obtain ⟨hload, rfl⟩ := Action.attempt_run h
    refine ⟨Action.tell_run htell, ?_⟩
    have hload' := Action.eq_ok_of_mapError hload
    rw [Conventions.load] at hload'
    split at hload'
    · cases hload'
    · exact Conventions.complaint?_of_read (Action.eq_ok_of_mapError hload')

theorem copy_run (hcopies : a.skipsCopy = false) (hwrites : a.isDryRun = false)
    (h : copy a s = (.ok (), s')) :
    ∃ totals, copyTree a.source a.target s = (.ok totals, s') := by
  rw [copy, hcopies, hwrites, if_neg Bool.false_ne_true, if_neg Bool.false_ne_true] at h
  obtain ⟨totals, u, hcopy, h⟩ := exists_of_bind_run h
  obtain ⟨-, rfl⟩ := eq_of_pure_run h
  exact ⟨totals, hcopy⟩

theorem compileRoutes_run {settings : Settings} {root : Path} {c : Compilation}
    (h : compileRoutes settings root s = (.ok c, s')) :
    s'.fs = s.fs ∧ compile settings s.fs root = .ok c := by
  rw [compileRoutes] at h
  obtain ⟨_, t, htell, h⟩ := exists_of_bind_run h
  obtain ⟨fs, t', hfs, h⟩ := exists_of_bind_run h
  obtain ⟨rfl, rfl⟩ := Action.fileSystem_run hfs
  rw [← Action.tell_run htell]
  -- the line of the log that is left out for what is no directory changes nothing
  have hrest : ∃ u, u.fs = t.fs ∧ (do
      let c ← Action.attempt (.compileRoutes root) ((compile settings t.fs root).mapError .problem)
      Action.tellAll (compilationLog c)
      if c.routes.isEmpty then
        Action.tell .warn .command ("No routable folders found in " ++ root.text)
      return c) u = (.ok c, s') := by
    by_cases hdirectory : t.fs.isDirectory root = true
    · rw [if_pos hdirectory] at h
      obtain ⟨_, u, htell', h⟩ := exists_of_bind_run h
      exact ⟨u, Action.tell_run htell', h⟩
    · rw [if_neg hdirectory] at h
      exact ⟨t, rfl, h⟩
  obtain ⟨u, hu, h⟩ := hrest
  obtain ⟨c', u', hattempt, h⟩ := exists_of_bind_run h
  obtain ⟨hcompile, rfl⟩ := Action.attempt_run hattempt
  obtain ⟨_, v, htell', h⟩ := exists_of_bind_run h
  have hv := Action.tellAll_run htell'
  by_cases hempty : c'.routes.isEmpty = true
  · rw [if_pos hempty] at h
    obtain ⟨_, w, htell'', h⟩ := exists_of_bind_run h
    obtain ⟨rfl, rfl⟩ := eq_of_pure_run h
    exact ⟨(Action.tell_run htell'').trans (hv.trans hu), Action.eq_ok_of_mapError hcompile⟩
  · rw [if_neg hempty] at h
    obtain ⟨rfl, rfl⟩ := eq_of_pure_run h
    exact ⟨hv.trans hu, Action.eq_ok_of_mapError hcompile⟩

/-- What can be compiled is compiled. -/
theorem compileRoutes_eq_ok {settings : Settings} {root : Path} {c : Compilation}
    (h : compile settings s.fs root = .ok c) : ∃ t, compileRoutes settings root s = (.ok c, t) := by
  have hattempt (u : Session) : Action.attempt (.compileRoutes root)
      ((compile settings s.fs root).mapError .problem) u = (.ok c, u) := by
    rw [h]
    rfl
  have hrest (u : Session) : ∃ v, (do
      let c ← Action.attempt (.compileRoutes root) ((compile settings s.fs root).mapError .problem)
      Action.tellAll (compilationLog c)
      if c.routes.isEmpty then
        Action.tell .warn .command ("No routable folders found in " ++ root.text)
      return c) u = (.ok c, v) := by
    rw [bind_run_of_ok (hattempt u)]
    by_cases hempty : c.routes.isEmpty = true
    · rw [if_pos hempty]
      exact ⟨_, rfl⟩
    · rw [if_neg hempty]
      exact ⟨_, rfl⟩
  obtain ⟨t, htell, hfs⟩ :=
    Action.exists_tell .info .command ("Compiling routes from " ++ root.text) s
  rw [← hfs] at hrest
  rw [compileRoutes, bind_run_of_ok htell, bind_run_of_ok (Action.fileSystem_eq_ok t)]
  by_cases hdirectory : t.fs.isDirectory root = true
  · obtain ⟨u, htell', -⟩ :=
      Action.exists_tell .info .loading ("Loading route tree from " ++ root.text) t
    rw [if_pos hdirectory, bind_run_of_ok htell']
    exact hrest u
  · rw [if_neg hdirectory]
    exact hrest t

/-- The routes root is in the target, unless nothing is written. -/
theorem routesRoot_of_writes (h : a.isDryRun = false) (conventions : Conventions) :
    routesRoot a conventions = a.target.join (Path.ofText conventions.appDir) := by
  rw [routesRoot, h, Bool.false_and, if_neg Bool.false_ne_true]

theorem dump_run {routes : List Route} (h : dump a routes s = (.ok (), s')) :
    (a.dump? = none ∧ s'.fs = s.fs) ∨ ∃ file u u', a.dump? = some file ∧ u.fs = s.fs ∧ s'.fs = u'.fs ∧
      writeText file (Route.dump routes) u = (.ok (), u') := by
  rw [dump] at h
  cases ha : a.dump? with
  | none =>
    simp only [ha] at h
    obtain ⟨-, rfl⟩ := eq_of_pure_run h
    exact Or.inl ⟨rfl, rfl⟩
  | some file =>
    simp only [ha] at h
    obtain ⟨_, u, htell, h⟩ := exists_of_bind_run h
    obtain ⟨_, u', hwrite, h⟩ := exists_of_bind_run h
    exact Or.inr ⟨file, u, u', rfl, Action.tell_run htell, Action.tell_run h, hwrite⟩

/-- The names of the generated files. -/
def generatedNames : List Text :=
  [GeneratedFile.routesName, GeneratedFile.appName, GeneratedFile.indexName]

theorem map_name_all (style : PathStyle) (fragment : Text) :
    (GeneratedFile.all style fragment).map (·.name) = generatedNames := rfl

theorem names_all (style : PathStyle) (fragment : Text) :
    (∀ f ∈ GeneratedFile.all style fragment, '/' ∉ f.name ∧ Name.IsDown (Utf8.encode f.name)) ∧
      ((GeneratedFile.all style fragment).map (·.name)).Nodup := by
  refine ⟨fun f hf => ?_, ?_⟩
  · have hname : f.name ∈ generatedNames := List.mem_map_of_mem (f := GeneratedFile.name) hf
    have hall : ∀ t ∈ generatedNames,
        '/' ∉ t ∧ t ≠ [] ∧ t ≠ ".".toList ∧ t ≠ "..".toList := by decide
    obtain ⟨hslash, hne, hdot, hdots⟩ := hall _ hname
    exact ⟨hslash, Conventions.isDown_encode hne hdot hdots⟩
  · rw [map_name_all]
    decide

/-! ## Stages that change nothing -/

open FileRoutes.Action (Quiet)

theorem quiet_conventions (a : Arguments Path) : Quiet (Migration.conventions a) := by
  rw [Migration.conventions.eq_def]
  cases a.conventions? with
  | none => exact .pure _
  | some t => exact .bind (.tell _ _ _) fun _ => .bind .fileSystem fun _ => .attempt _ _

theorem quiet_compileRoutes (settings : Settings) (root : Path) : Quiet (compileRoutes settings root) := by
  have hrest (fs : FileSystem) : Quiet (do
      let c ← Action.attempt (.compileRoutes root) ((compile settings fs root).mapError .problem)
      Action.tellAll (compilationLog c)
      if c.routes.isEmpty then
        Action.tell .warn .command ("No routable folders found in " ++ root.text)
      return c) := by
    refine .bind (.attempt _ _) fun c => .bind (.tellAll _) fun _ => ?_
    by_cases hempty : c.routes.isEmpty = true
    · rw [if_pos hempty]
      exact .bind (.tell _ _ _) fun _ => .pure c
    · rw [if_neg hempty]
      exact .pure c
  rw [compileRoutes]
  refine .bind (.tell _ _ _) fun _ => .bind .fileSystem fun fs => ?_
  by_cases hdirectory : fs.isDirectory root = true
  · rw [if_pos hdirectory]
    exact .bind (.tell _ _ _) fun _ => hrest fs
  · rw [if_neg hdirectory]
    exact hrest fs

/-- Nothing is copied in a dry run. -/
theorem quiet_copy (hdry : a.isDryRun = true) : Quiet (copy a) := by
  rw [copy, hdry, if_pos rfl]
  exact .ite (.tell _ _ _) (.tell _ _ _)

theorem quiet_dump (hdump : a.dump? = none) (routes : List Route) : Quiet (dump a routes) := by
  rw [dump, hdump]
  exact .pure ()

/-- Nothing is written in a dry run, but the routes file is printed. -/
theorem generate_dry_run (hdry : a.isDryRun = true) (c : Compilation) (s : Session) :
    generate a c s = (.ok (), { s with
      printed := s.printed ++ GeneratedFile.routesModule a.style c.fragment ++ ['\n'] }) := by
  rw [generate, hdry, if_pos rfl]
  rfl

/-- What is asked of a project before it is migrated. -/
theorem check_run (hcopies : a.skipsCopy = false) (h : check a s = (.ok (), s')) :
    s'.fs = s.fs ∧ s.fs.isDirectory a.source = true := by
  rw [check, hcopies, if_neg Bool.false_ne_true] at h
  obtain ⟨_, t, htell, h⟩ := exists_of_bind_run h
  obtain ⟨fs, u, hfs, h⟩ := exists_of_bind_run h
  obtain ⟨rfl, rfl⟩ := Action.fileSystem_run hfs
  obtain ⟨-, h⟩ := of_guard_run h
  obtain ⟨hdirectory, h⟩ := of_guard_run h
  obtain ⟨_, t₁, htell₁, h⟩ := exists_of_bind_run h
  obtain ⟨_, t₂, htell₂, h⟩ := exists_of_bind_run h
  obtain ⟨_, t₃, htell₃, h⟩ := exists_of_bind_run h
  obtain ⟨_, t₄, htell₄, h⟩ := exists_of_bind_run h
  rw [Action.tell_run h, Action.tell_run htell₄, Action.tell_run htell₃, Action.tell_run htell₂,
    Action.tell_run htell₁, Action.tell_run htell]
  rw [Action.tell_run htell] at hdirectory
  exact ⟨rfl, by simpa using hdirectory⟩

/-! ## The generated files -/

/-- What is told when the files have been written. -/
def report (a : Arguments Path) (c : Compilation) (written : List Path) : Action Unit := do
  Action.tellAll (written.map fun path => ⟨.debug, .command, "Wrote " ++ path.text⟩)
  Action.tell .info .command "Migration complete!"
  Action.tell .info .command "Summary:"
  Action.tell .info .command ("  - Top-level routes: " ++ Text.ofNat c.routes.length)
  Action.tell .info .command ("  - Files generated: " ++ Text.ofNat written.length)
  Action.tell .info .command ("Now you can review the code in " ++ a.target.text)

theorem generate_of_writes {c : Compilation} (h : a.isDryRun = false) : generate a c = (do
    Action.tell .info .command ("Writing generated files to " ++ a.target.text)
    let written ← writeGenerated a.target (GeneratedFile.all a.style c.fragment)
    report a c written) := by
  rw [generate, h]
  rfl

theorem quiet_report (a : Arguments Path) (c : Compilation) (written : List Path) :
    Action.Quiet (report a c written) := fun _ => ⟨rfl, rfl⟩

theorem logless_report (a : Arguments Path) (c : Compilation) (written : List Path) :
    Action.Logless (report a c written) := fun _ => rfl

/-- Only the generated files are touched, also if one of them fails. -/
theorem generate_ends {goal : Location} (c : Compilation) (hwrites : a.isDryRun = false)
    (h : Stands s.fs a.target goal)
    (hlinks : ∀ name ∈ generatedNames, ∀ link,
      s.fs.find? (goal ++ [Utf8.encode name]) ≠ some (.link link)) :
    Ends (generate a c) s
      (fun _ u => FileSystem.Alters (fun l => GeneratedPart goal (GeneratedFile.all a.style c.fragment) l ∧
          ¬ s.fs.HasDirectory l) s.fs u.fs ∧
        ∀ f ∈ GeneratedFile.all a.style c.fragment, ∃ mode,
          u.fs.find? (goal ++ [Utf8.encode f.name]) = some (.file mode (Utf8.encode f.contents)))
      (fun u => FileSystem.Alters (fun l => GeneratedPart goal (GeneratedFile.all a.style c.fragment) l ∧
        ¬ s.fs.HasDirectory l) s.fs u.fs) := by
  obtain ⟨hnames, hdistinct⟩ := names_all a.style c.fragment
  rw [generate_of_writes hwrites]
  refine .bind (Action.ends_tell fun t ht => ?_)
  rw [← ht] at h hlinks ⊢
  refine .bind ((h.writeGenerated_ends hnames hdistinct fun f hf => hlinks f.name ?_).mono
    (fun written u hu => ?_) fun _ => id)
  · exact List.mem_map_of_mem (f := GeneratedFile.name) hf
  · exact ((quiet_report a c written).ends (P := (· = u.fs)) rfl).mono (fun _ v hv => hv ▸ hu)
      fun v hv => hv ▸ hu.1

end Migration

end FileRoutes
