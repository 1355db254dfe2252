import FileRoutes.Proofs.Migration.Stages
import FileRoutes.Proofs.Route.Decoding
import FileRoutes.Proofs.Route.Loading

/-!
# The final state of a migration

Four stages act on the file system: the copy, the compilation, the dump of the table and the generated
files.  What a successful migration leaves is described in one piece (`Migration.Final`).

* The target is the overlay of what it was and the source, but for `routes.tsx`, `app.tsx` and
  `index.tsx`.
* `routes.tsx` holds the table that is compiled from the target, with the renderer of the style.  It does
  not matter whether the table is asked for before the files are written or afterwards.  The other two
  files are the same for every project.
* The dump is that of the same table.
* Source and surroundings are as they were.

## Why no stage disturbs another

The footprints of the stages are disjoint.  The copy changes what is in the target and makes directories
above it.  The dump changes its own file and makes directories above it, none of which is in the
target.  The generated files lie in the target, but not in the routes root: this has the name of a
directory there, and a directory cannot be overwritten.
-/

namespace FileRoutes

namespace Migration

variable {a : Arguments Path} {s s' : Session}

/-! ## What is asked of a migration -/

/-- Source and target are trees of their own, no link is in or on the way to either of them, and the
dump goes elsewhere. -/
structure Undisturbed (a : Arguments Path) (fs : FileSystem) (origin goal : Location) : Prop where
  valid : fs.Valid
  copies : a.skipsCopy = false
  writes : a.isDryRun = false
  origin_eq : fs.canonical a.source = .ok origin
  goal_eq : Copy.targetLocation fs a.target = .ok goal
  /-- The source is a real directory. -/
  directory : fs.HasDirectory origin
  apart : ¬ origin <+: goal
  apart' : ¬ goal <+: origin
  sourceFree : fs.LinkFree a.source
  targetFree : fs.LinkFree a.target
  noSourceLink : ∀ below link, fs.find? (origin ++ below) ≠ some (.link link)
  noTargetLink : ∀ below link, fs.find? (goal ++ below) ≠ some (.link link)
  targetDots : Path.dotDot ∉ a.target.segments
  dumpFree : ∀ file, a.dump? = some file → fs.LinkFree file
  dumpDots : ∀ file, a.dump? = some file → Path.dotDot ∉ file.segments
  dumpApart : ∀ file, a.dump? = some file →
    ¬ origin <+: fs.spelled file ∧ ¬ goal <+: fs.spelled file

theorem Undisturbed.setting {fs : FileSystem} {origin goal : Location}
    (h : Undisturbed a fs origin goal) :
    Copy.Setting fs a.source a.target origin goal :=
  .of_disjoint h.valid h.origin_eq h.goal_eq h.sourceFree h.targetFree h.targetDots h.noSourceLink
    h.noTargetLink h.apart h.apart'

/-! ## What is left by it -/

/-- What a migration leaves. -/
structure Final (a : Arguments Path) (fs fs' : FileSystem) (origin goal : Location)
    (conventions : Conventions) (c : Compilation) : Prop where
  /-- The target is the overlay of what it was and the source, but for the generated files. -/
  tree : ∀ below, below ≠ [Utf8.encode "routes.tsx"] → below ≠ [Utf8.encode "app.tsx"] →
    below ≠ [Utf8.encode "index.tsx"] → Copy.Overlaid origin goal fs fs' below
  /-- The table is that of the target as the copy left it. -/
  merged : ∃ copied, Copy.CopiedTree origin goal fs copied ∧
    compile ⟨conventions, a.order, a.style⟩ copied (routesRoot a conventions) = .ok c
  /-- The target as it is in the end has the same table. -/
  compiled : compile ⟨conventions, a.order, a.style⟩ fs' (routesRoot a conventions) = .ok c
  fragment_eq : c.fragment = Route.fragment conventions c.routes
  /-- The routes file is that of the table. -/
  routes : ∃ mode text,
    fs'.find? (goal ++ [Utf8.encode "routes.tsx"]) = some (.file mode (Utf8.encode text)) ∧
      Literal.RoutesText conventions a.style c.routes text
  /-- The application and its entry point do not depend on the table. -/
  app : ∃ mode, fs'.find? (goal ++ [Utf8.encode "app.tsx"]) =
    some (.file mode (Utf8.encode GeneratedFile.app))
  index : ∃ mode, fs'.find? (goal ++ [Utf8.encode "index.tsx"]) =
    some (.file mode (Utf8.encode GeneratedFile.index))
  /-- The dump is that of the table. -/
  dumped : ∀ file, a.dump? = some file → ∃ mode,
    fs'.find? (fs.spelled file) = some (.file mode (Utf8.encode (Route.dump c.routes)))
  /-- The source is as it was. -/
  source_eq : fs'.find? origin = fs.find? origin
  /-- So is everything else that was there. -/
  elsewhere : ∀ loc e, fs.find? loc = some e → ¬ goal <+: loc →
    (∀ file, a.dump? = some file → loc ≠ fs.spelled file) → fs'.view loc = fs.view loc

/-! ## The stages behind the copy -/

section Later

variable {fs fs' : FileSystem} {origin goal : Location}

/-- What the dump touches: its file, and the directories that are missing above it. -/
def DumpPart (a : Arguments Path) (fs : FileSystem) (loc : Location) : Prop :=
  ∃ file, a.dump? = some file ∧ loc <+: fs.spelled file ∧
    (loc = fs.spelled file ∨ fs.find? loc = none)

theorem dump_alters {routes : List Route} (hcurrent : s.fs.HasDirectory s.fs.current.location)
    (hfree : ∀ file, a.dump? = some file → s.fs.LinkFree file)
    (hdots : ∀ file, a.dump? = some file → Path.dotDot ∉ file.segments)
    (hrun : dump a routes s = (.ok (), s')) :
    FileSystem.Alters (DumpPart a s.fs) s.fs s'.fs ∧ ∀ file, a.dump? = some file → ∃ mode,
      s'.fs.find? (s.fs.spelled file) =
        some (.file mode (Utf8.encode (Route.dump routes))) := by
  rcases dump_run hrun with ⟨hnone, hsame⟩ | ⟨t, u, u', ha, hu, hu', hwrite⟩
  · rw [hsame]
    refine ⟨.refl _ _, fun t ht => ?_⟩
    rw [hnone] at ht
    cases ht
  · rw [← hu] at hcurrent hfree
    obtain ⟨halters, hfile⟩ := writeText_run hcurrent (hfree t ha) (Path.up_notMem_moves (hdots t ha))
      hwrite
    rw [hu', ← hu]
    refine ⟨halters.mono fun l ⟨hl, hnew⟩ => ⟨t, ha, hl, hnew⟩, fun t' ht' => ?_⟩
    rw [ha] at ht'
    obtain rfl := Option.some.inj ht'
    exact hfile

theorem generate_alters {source : Path} {c : Compilation}
    (h : Copy.Setting s.fs source a.target origin goal)
    (hgoal : s.fs.HasDirectory goal) (hwrites : a.isDryRun = false)
    (hrun : generate a c s = (.ok (), s')) :
    FileSystem.Alters (GeneratedPart goal (GeneratedFile.all a.style c.fragment)) s.fs s'.fs ∧
      ∀ f ∈ GeneratedFile.all a.style c.fragment, ∃ mode,
        s'.fs.find? (goal ++ [Utf8.encode f.name]) = some (.file mode (Utf8.encode f.contents)) := by
  obtain rfl := h.targetSpelled
  have hstands := Stands.of_linkFree h.current h.targetAnchored h.targetFree h.targetDown hgoal
  obtain ⟨halters, hfiles⟩ :=
    (generate_ends c hwrites hstands fun _ _ => h.noTargetLink _).ok_of_run hrun
  exact ⟨halters.mono fun l => And.left, hfiles⟩

end Later

/-! ## All stages -/

section Stages

variable {fs fs₁ fs₂ fs₃ : FileSystem} {origin goal : Location} {conventions : Conventions}
  {c : Compilation}

/-- The dump is outside source and target. -/
theorem Undisturbed.not_prefix_of_dumpPart (h : Undisturbed a fs origin goal)
    (hspelled : ∀ p, fs₁.spelled p = fs.spelled p) {loc : Location} (hloc : DumpPart a fs₁ loc) :
    ¬ origin <+: loc ∧ ¬ goal <+: loc := by
  obtain ⟨t, ht, hpre, -⟩ := hloc
  rw [hspelled] at hpre
  obtain ⟨horigin, hgoal⟩ := h.dumpApart t ht
  exact ⟨fun hl => horigin (hl.trans hpre), fun hl => hgoal (hl.trans hpre)⟩

theorem Undisturbed.not_prefix_of_copied (h : Undisturbed a fs origin goal) (loc : Location)
    (hloc : goal <+: loc ∨ loc <+: goal ∧ fs.find? loc = none) : ¬ origin <+: loc :=
  h.setting.not_prefix_of_near (hloc.imp_right And.left)

theorem Undisturbed.not_prefix_of_generatedPart (h : Undisturbed a fs origin goal)
    {files : List GeneratedFile} {loc : Location} (hloc : GeneratedPart goal files loc) :
    ¬ origin <+: loc := by
  obtain ⟨file, -, rfl⟩ := hloc
  exact h.setting.not_prefix_of_near (Or.inl (List.prefix_append goal _))

/-- The later stages leave the table: none of their files is in the routes root or replaces it. -/
theorem compile_eq_ok {settings : Settings} {source target : Path} {app : Text}
    {part : Location → Prop} {files : List GeneratedFile}
    (h : Copy.Setting fs₁ source target origin goal) (hslash : '/' ∉ app)
    (hdown : Name.IsDown (Utf8.encode app)) (hdump : FileSystem.Alters part fs₁ fs₂)
    (hpart : ∀ l, part l → ¬ goal <+: l)
    (hgenerate : FileSystem.Alters (GeneratedPart goal files) fs₂ fs₃)
    (hgenerated : ∀ f ∈ files, ∃ mode,
      fs₃.find? (goal ++ [Utf8.encode f.name]) = some (.file mode (Utf8.encode f.contents)))
    (hcompile : compile settings fs₁ (target.join (Path.ofText app)) = .ok c) :
    compile settings fs₃ (target.join (Path.ofText app)) = .ok c := by
  have hnames : ∀ n ∈ [Utf8.encode app], Name.IsDown n := by
    intro n hn
    rw [List.mem_singleton.mp hn]
    exact hdown
  rw [Path.ofText_of_slash_notMem hslash] at hcompile ⊢
  obtain ⟨hfree, hanchored, hspelled⟩ := h.destination_spells hnames
  obtain ⟨mode, entries, hlookup⟩ := exists_lookup_of_compile hcompile
  have hroot := FileSystem.lookup_eq_ok hfree hanchored hlookup
  rw [hspelled] at hroot
  have hdumped : fs₂.find? (goal ++ [Utf8.encode app]) = fs₁.find? (goal ++ [Utf8.encode app]) :=
    hdump.find?_eq _ fun l hl hpre => hpart l hl ((List.prefix_append goal _).trans hpre)
  have hwritten : fs₃.find? (goal ++ [Utf8.encode app]) = fs₂.find? (goal ++ [Utf8.encode app]) := by
    refine hgenerate.find?_eq _ fun l ⟨file, hfile, hl⟩ hpre => ?_
    -- a generated file with the name of the routes root would have replaced a directory
    rw [hl, List.prefix_append_right_inj, List.cons_prefix_cons] at hpre
    obtain ⟨m, hfound⟩ := hgenerated file hfile
    refine FileSystem.not_hasDirectory_of_file hfound ?_
    rw [← hpre.1]
    exact hgenerate.hasDirectory ⟨mode, entries, hdumped.trans hroot⟩
  have hlookup' := ((hdump.mono fun l hl => Or.inl hl).trans
    (hgenerate.mono fun l hl => Or.inr hl)).lookup_directory hfree hanchored hlookup
      (by rw [hspelled, hwritten, hdumped])
  rw [compile, load, hlookup']
  rw [compile, load, hlookup] at hcompile
  exact hcompile

/-- The stages one after the other: each leaves what the earlier ones have made. -/
theorem Undisturbed.final (h : Undisturbed a fs origin goal)
    (hcopied : Copy.CopiedTree origin goal fs fs₁)
    (hdump : FileSystem.Alters (DumpPart a fs₁) fs₁ fs₂)
    (hdumped : ∀ file, a.dump? = some file → ∃ mode, fs₂.find? (fs₁.spelled file) =
      some (.file mode (Utf8.encode (Route.dump c.routes))))
    (hgenerate : FileSystem.Alters (GeneratedPart goal (GeneratedFile.all a.style c.fragment)) fs₂ fs₃)
    (hgenerated : ∀ f ∈ GeneratedFile.all a.style c.fragment, ∃ mode,
      fs₃.find? (goal ++ [Utf8.encode f.name]) = some (.file mode (Utf8.encode f.contents)))
    (hcompile : compile ⟨conventions, a.order, a.style⟩ fs₁ (routesRoot a conventions) = .ok c)
    (hslash : '/' ∉ conventions.appDir) (hdown : Name.IsDown (Utf8.encode conventions.appDir)) :
    Final a fs fs₃ origin goal conventions c where
  tree below hroutes happ hindex := by
    have hgen : ¬ GeneratedPart goal (GeneratedFile.all a.style c.fragment) (goal ++ below) := by
      rintro ⟨file, hfile, heq⟩
      have hbelow := List.append_cancel_left heq
      simp only [GeneratedFile.all, List.mem_cons, List.not_mem_nil, or_false] at hfile
      rcases hfile with rfl | rfl | rfl
      · exact hroutes hbelow
      · exact happ hbelow
      · exact hindex hbelow
    have hdmp : ¬ DumpPart a fs₁ (goal ++ below) := fun hpart =>
      (h.not_prefix_of_dumpPart hcopied.alters.spelled_eq hpart).2 (List.prefix_append goal below)
    rw [Copy.Overlaid, hgenerate.view_eq _ hgen, hdump.view_eq _ hdmp]
    exact hcopied.overlaid below
  merged := ⟨fs₁, hcopied, hcompile⟩
  compiled := by
    rw [routesRoot_of_writes h.writes] at hcompile ⊢
    exact compile_eq_ok (h.setting.alters hcopied.alters h.not_prefix_of_copied) hslash hdown hdump
      (fun l hl => (h.not_prefix_of_dumpPart hcopied.alters.spelled_eq hl).2) hgenerate hgenerated
      hcompile
  fragment_eq := fragment_of_compile hcompile
  routes := by
    obtain ⟨mode, hfile⟩ := hgenerated ⟨"routes.tsx", GeneratedFile.routesModule a.style c.fragment⟩
      List.mem_cons_self
    refine ⟨mode, _, hfile, ?_⟩
    rw [fragment_of_compile hcompile]
    exact Literal.routesText_routesModule conventions a.style c.routes
  app := hgenerated ⟨"app.tsx", GeneratedFile.app⟩ (List.mem_cons_of_mem _ List.mem_cons_self)
  index := hgenerated ⟨"index.tsx", GeneratedFile.index⟩
    (List.mem_cons_of_mem _ (List.mem_cons_of_mem _ List.mem_cons_self))
  dumped t ht := by
    obtain ⟨mode, hfile⟩ := hdumped t ht
    rw [hcopied.alters.spelled_eq] at hfile
    refine ⟨mode, ?_⟩
    rw [← FileSystem.view_eq_file_iff, hgenerate.view_eq _ ?_, FileSystem.view_eq_file_iff]
    · exact hfile
    · rintro ⟨file, -, heq⟩
      exact (h.dumpApart t ht).2 (heq ▸ List.prefix_append goal _)
  source_eq := by
    rw [hgenerate.find?_eq _ fun l hl => h.not_prefix_of_generatedPart hl,
      hdump.find?_eq _ fun l hl => (h.not_prefix_of_dumpPart hcopied.alters.spelled_eq hl).1,
      hcopied.alters.find?_eq _ h.not_prefix_of_copied]
  elsewhere loc e hloc hgoal hother := by
    have hcopy : fs₁.view loc = fs.view loc := by
      refine hcopied.alters.view_eq _ ?_
      rintro (hl | ⟨-, hnone⟩)
      · exact hgoal hl
      · rw [hloc] at hnone
        cases hnone
    have hdmp : ¬ DumpPart a fs₁ loc := by
      rintro ⟨t, ht, -, heq | hnone⟩
      · exact hother t ht (heq.trans (hcopied.alters.spelled_eq _))
      · rw [← FileSystem.view_eq_none_iff, hcopy, FileSystem.view_eq_none_iff, hloc] at hnone
        cases hnone
    have hgen : ¬ GeneratedPart goal (GeneratedFile.all a.style c.fragment) loc := by
      rintro ⟨file, -, rfl⟩
      exact hgoal (List.prefix_append goal _)
    rw [hgenerate.view_eq _ hgen, hdump.view_eq _ hdmp, hcopy]

end Stages

/-- A successful migration leaves its final state. -/
theorem run_final {origin goal : Location} (h : Undisturbed a s.fs origin goal)
    (happ : ∀ conventions t, Migration.conventions a s = (.ok conventions, t) →
      conventions.appDir ≠ ".".toList ∧ conventions.appDir ≠ "..".toList)
    (hrun : run a s = (.ok (), s')) :
    ∃ conventions t c, Migration.conventions a s = (.ok conventions, t) ∧
      Final a s.fs s'.fs origin goal conventions c := by
  rw [run] at hrun
  obtain ⟨conventions, t, hconventions, hrun⟩ := exists_of_bind_run hrun
  obtain ⟨_, u, hcopy, hrun⟩ := exists_of_bind_run hrun
  obtain ⟨c, v, hcompile, hrun⟩ := exists_of_bind_run hrun
  obtain ⟨_, w, hdump, hgenerate⟩ := exists_of_bind_run hrun
  obtain ⟨hdot, hdots⟩ := happ conventions t hconventions
  obtain ⟨hsame, hcomplaint⟩ := conventions_run hconventions
  obtain ⟨hne, hslash⟩ := Conventions.appDir_of_complaint?_eq_none hcomplaint
  rw [← hsame] at h ⊢
  obtain ⟨totals, hcopy⟩ := copy_run h.copies h.writes hcopy
  have hcopied := Copy.copyTree_run h.valid h.setting h.directory hcopy
  obtain ⟨hsame', hcompiled⟩ := compileRoutes_run hcompile
  rw [← hsame'] at hcopied hcompiled
  have hsetting := h.setting.alters hcopied.alters h.not_prefix_of_copied
  obtain ⟨hdumps, hdumped⟩ := dump_alters hsetting.current
    (fun t ht => hcopied.alters.linkFree (h.dumpFree t ht)) h.dumpDots hdump
  have houtside : ∀ l, DumpPart a v.fs l → ¬ origin <+: l := fun l hl =>
    (h.not_prefix_of_dumpPart hcopied.alters.spelled_eq hl).1
  obtain ⟨hgenerates, hgenerated⟩ := generate_alters (hsetting.alters hdumps houtside)
    (hdumps.hasDirectory (hcopied.hasDirectory h.directory)) h.writes hgenerate
  exact ⟨conventions, t, c, hconventions, h.final hcopied hdumps hdumped hgenerates hgenerated hcompiled
    hslash (Conventions.isDown_encode hne hdot hdots)⟩

/-! ## A project without links -/

/-- There is no link in a tree. -/
def Linkless (e : Entry) : Prop := ∀ loc link, e.find? loc ≠ some (.link link)

theorem linkless_of_everything {e : Entry} (h : ∀ p ∈ e.everything, p.2.kind ≠ .link) : Linkless e :=
  fun _ _ hlink => h _ (Entry.mem_everything hlink) rfl

/-- A source that has a file with the name of a generated one, and a target that exists. -/
def sampleProject : FileSystem where
  root := .directory .full [
    (Utf8.encode "from", .directory .full [
      (Utf8.encode "app", .directory .full [
        (Utf8.encode "page.tsx", .file .plain []),
        (Utf8.encode "about", .directory .full [(Utf8.encode "page.tsx", .file .plain [])])]),
      (Utf8.encode "app.tsx", .file .plain [])]),
    (Utf8.encode "to", .directory .full [(Utf8.encode "old.ts", .file .plain [])])]
  current := .ofLocation []

def sampleArguments : Arguments Path where
  source := .ofText "/from"
  target := .ofText "/to"
  order := .asEnumerated
  style := .relative
  conventions? := none
  skipsCopy := false
  isDryRun := false
  dump? := some (.ofText "/out/routes.json")
  isVerbose := false

theorem linkless_sampleProject : Linkless sampleProject.root := linkless_of_everything (by decide)

theorem undisturbed_sampleProject : Undisturbed sampleArguments sampleProject
    [Utf8.encode "from"] [Utf8.encode "to"] where
  valid := ⟨by decide, _, _, rfl⟩
  copies := rfl
  writes := rfl
  origin_eq := by rfl
  goal_eq := by rfl
  directory := ⟨_, _, rfl⟩
  apart := by decide
  apart' := by decide
  sourceFree _ _ := linkless_sampleProject _
  targetFree _ _ := linkless_sampleProject _
  noSourceLink _ := linkless_sampleProject _
  noTargetLink _ := linkless_sampleProject _
  targetDots := by decide
  dumpFree _ _ _ _ := linkless_sampleProject _
  dumpDots t ht := by
    obtain rfl := Option.some.inj ht
    decide
  dumpApart t ht := by
    obtain rfl := Option.some.inj ht
    decide

/-- The sample is migrated. -/
theorem run_final_sampleProject :
    ∃ s', run sampleArguments (.fresh sampleProject) = (.ok (), s') ∧
      ∃ conventions t c,
        Migration.conventions sampleArguments (.fresh sampleProject) = (.ok conventions, t) ∧
        Final sampleArguments sampleProject s'.fs [Utf8.encode "from"] [Utf8.encode "to"]
          conventions c := by
  obtain ⟨⟨⟩, s', hrun⟩ := exists_of_isOk_run (x := run sampleArguments) (s := .fresh sampleProject)
    (by decide +kernel)
  refine ⟨s', hrun, run_final undisturbed_sampleProject (fun conventions t h => ?_) hrun⟩
  obtain ⟨rfl, -⟩ := eq_of_pure_run h
  decide

end Migration

end FileRoutes
