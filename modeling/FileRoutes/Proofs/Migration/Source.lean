import FileRoutes.Proofs.Migration.Confinement
import FileRoutes.Proofs.Migration.Stages
import FileRoutes.Proofs.Migration.Turns

/-!
# The source of a migration

A migration that neither skips the copy nor dumps the table leaves the tree of its source as it is,
whether it succeeds or fails (`run_keeps_source`).  It does so anyway if nothing is copied: in a dry run,
if the conventions cannot be loaded, if the target is refused, and if the path of the source is that of a
link.  Otherwise it writes into the target, and what it writes must not get into the source (`Spares`).

## What gets into the source

The target may be above the source, and then entries of the source have their places in the source
itself.  The way of the target may lead through a missing directory in the source, to leave it again by
two dots: that directory is made.  A link in the target is followed when a file is copied there, and a
link that has the name of a generated file is followed when this file is written; either may have been
copied from the source, and then what is asked is where it leads by then.  At last, a link that is copied
may be on the way of the source, and then what is read is no longer the source.  Each of these happens
(`run_damages_source`).

Links that lead elsewhere do no harm, whether they are in the target, in the source, or in both
(`harmlessProject`).  Nor does a link to the source through which nothing is written, since the migration
fails before (`unroutedProject`).
-/

namespace FileRoutes.Migration

open Copy (Misses Relinks SourceKept Starts Underway)

variable {a : Arguments Path} {s t : Session} {fs : FileSystem} {target : Path} {origin goal : Location}
  {done : Copy.Sequence}

/-- The routes of what has been copied. -/
def compileCopied (a : Arguments Path) : Action Compilation := do
  let settings ← conventions a
  copy a
  compileRoutes ⟨settings, a.order, a.style⟩ (routesRoot a settings)

/-- The migration writes the generated file of this name. -/
def Writes (a : Arguments Path) (s : Session) (name : Text) : Prop :=
  ∃ c t early f late, compileCopied a s = (.ok c, t) ∧
    GeneratedFile.all a.style c.fragment = early ++ f :: late ∧ f.name = name ∧
    (Action.on (writeGenerated a.target (early ++ [f])) t.fs).1.isOk = true

/-- Neither a copy to the target nor a file generated there gets into the source. -/
structure Spares (a : Arguments Path) (s : Session) (origin : Location) : Prop
    extends Copy.Spares s.fs a.source a.target origin where
  /-- No generated file has its place in the source when everything has been copied. -/
  generated : ∀ name ∈ (["routes.tsx".toList, "app.tsx".toList, "index.tsx".toList] : List Text),
    Writes a s name → ∀ top links, s.fs.find? origin = some top →
      Relinks s.fs a.target origin top.everything links →
      Misses s.fs a.target origin links [Utf8.encode name] .file

/-- A migration is found to spare the source, following so many steps at most. -/
def sparesCheck (n : Nat) (a : Arguments Path) (fs : FileSystem) (origin : Location) : Bool :=
  Copy.sparesCheck n fs a.source a.target origin && (fs.find? origin).any fun top =>
    (top.everything.foldlM (Copy.relink? n fs a.target) fs.links).any fun links =>
      (["routes.tsx".toList, "app.tsx".toList, "index.tsx".toList] : List Text).all fun name =>
        Copy.missesCheck n fs a.target origin links [Utf8.encode name] .file

theorem spares_of_check {n : Nat} (h : sparesCheck n a s.fs origin = true) : Spares a s origin := by
  obtain ⟨hcopy, h⟩ := Bool.and_eq_true_iff.mp h
  obtain ⟨top, htop, h⟩ := (Option.any_eq_true _ _).mp h
  obtain ⟨after, hafter, h⟩ := (Option.any_eq_true _ _).mp h
  refine ⟨Copy.spares_of_check hcopy, fun name hname _ top' links htop' hlinks => ?_⟩
  rw [htop] at htop'
  obtain rfl := Option.some.inj htop'
  rw [hlinks.eq_of_relink? hafter]
  exact Copy.misses_of_check (List.all_eq_true.mp h name hname)

/-! ## The generated files -/

/-- Everything has been copied into a target that is there. -/
structure Ready (fs : FileSystem) (target : Path) (origin goal : Location) (done : Copy.Sequence)
    (t : FileSystem) : Prop extends Underway fs target origin done t where
  directory : fs.HasDirectory origin
  stands : Stands t target goal

/-- So it is after a file has been put outside the source. -/
theorem Ready.put_file {t u : FileSystem} (h : Ready fs target origin goal done t) {name : Name} {q : Path}
    (hq : target.GoesOn [name] q) (hmisses : Misses fs target origin t.links [name] .file)
    {loc : Location} {mode : Mode} {contents : Bytes} (hreaches : t.Reaches q loc)
    (htakes : t.Takes .file loc)
    (hsets : FileSystem.Sets loc (.file mode contents) t u) : Ready fs target origin goal done u where
  toUnderway := h.toUnderway.put_file h.directory hq hmisses hreaches htakes hsets
  directory := h.directory
  stands := h.stands.of_sets_file htakes.ne_link hsets

/-- What is written outside the source leaves it as it is. -/
theorem Ready.writeGenerated_keeps {files : List GeneratedFile} (h : Ready fs target origin goal done s.fs)
    (hfiles : ∀ f ∈ files, '/' ∉ f.name ∧ Name.IsDown (Utf8.encode f.name))
    (hmisses : ∀ early f late, files = early ++ f :: late →
      (Action.on (writeGenerated target (early ++ [f])) s.fs).1.isOk = true →
      ∀ links, Relinks fs target origin done links →
        Misses fs target origin links [Utf8.encode f.name] .file) :
    Ends (writeGenerated target files) s (fun _ t => Ready fs target origin goal done t.fs)
      (SourceKept origin fs) := by
  induction files generalizing s with
  | nil =>
    rw [writeGenerated, List.mapM_nil]
    exact .pure h
  | cons f files ih =>
    obtain ⟨hslash, hdown⟩ := hfiles f List.mem_cons_self
    have hputs := h.stands.writeText_puts f.contents hslash hdown
    rw [writeGenerated, List.mapM_cons]
    refine .bind (.bind (.of_run (fun _ t hrun => .pure ?_) fun _ t hrun =>
      (congrArg (FileSystem.find? · origin) (hputs.fails_of_run hrun)).trans h.origin_eq))
    -- whatever is written next is written behind this file
    have hbehind (files : List GeneratedFile) : Action.on (writeGenerated target (f :: files)) s.fs =
        Action.on (do
          let written ← writeGenerated target files
          return target.join (Path.ofText f.name) :: written) t.fs := by
      rw [writeGenerated, List.mapM_cons]
      refine Action.on_bind_of_ok (fun _ =>
        .bind (Action.pervades_logless.writeGenerated target files) fun _ => .pure _) ?_
      rw [Action.on_bind_of_ok (fun _ => .pure _) ((Action.pervades_logless.writeText _ _).of_run hrun)]
      rfl
    obtain ⟨loc, mode, hreaches, htakes, hsets⟩ := hputs.ok_of_run hrun
    have hready := h.put_file (.join_ofText target hslash hdown)
      (hmisses [] f files rfl (by rw [List.nil_append, hbehind]; rfl) _ h.relinks) hreaches htakes hsets
    refine .bind ((ih hready (fun g hg => hfiles g (List.mem_cons_of_mem f hg))
      fun early g late hsplit hwritten => hmisses (f :: early) g late (by rw [hsplit]; rfl) ?_).mono
      (fun _ _ hu => .pure hu) fun _ => id)
    rw [List.cons_append, hbehind]
    cases hrest : Action.on (writeGenerated target (early ++ [g])) t.fs with
    | mk result last =>
      rw [hrest] at hwritten
      cases result with
      | error failure => cases hwritten
      | ok written =>
        rw [Action.on_bind_of_ok (fun _ => .pure _) hrest]
        rfl

/-- The generated files leave the source as it is. -/
theorem Ready.generate_keeps (h : Ready fs a.target origin goal done s.fs) (c : Compilation)
    (hwrites : a.isDryRun = false)
    (hmisses : ∀ early f late, GeneratedFile.all a.style c.fragment = early ++ f :: late →
      (Action.on (writeGenerated a.target (early ++ [f])) s.fs).1.isOk = true →
      ∀ links, Relinks fs a.target origin done links →
        Misses fs a.target origin links [Utf8.encode f.name] .file) :
    Ends (generate a c) s (fun _ => SourceKept origin fs) (SourceKept origin fs) := by
  rw [generate_of_writes hwrites]
  refine .bind (Action.ends_tell fun t ht => ?_)
  rw [← ht] at h hmisses
  refine .bind ((h.writeGenerated_keeps (names_all a.style c.fragment).1 hmisses).mono
    (fun written u hu => ?_) fun _ => id)
  exact ((quiet_report a c written).ends (P := (· = u.fs)) rfl).mono
    (fun _ v hv => (congrArg (FileSystem.find? · origin) hv).trans hu.origin_eq)
    fun v hv => (congrArg (FileSystem.find? · origin) hv).trans hu.origin_eq

/-! ## The whole migration -/

/-- Where the routes are compiled, the project is a directory. -/
theorem exists_stands {conventions : Conventions} {settings : Settings} {c : Compilation}
    (hcurrent : fs.HasDirectory fs.current.location) (hanchored : fs.Anchored target)
    (husable : conventions.complaint? = none)
    (hcompile : compile settings fs (target.child (Utf8.encode conventions.appDir)) = .ok c) :
    ∃ goal, Stands fs target goal := by
  obtain ⟨step, hstep, -⟩ := exists_step_of_appDir husable
  obtain ⟨mode, entries, hlookup⟩ := exists_lookup_of_compile hcompile
  have habsolute : (target.child (Utf8.encode conventions.appDir)).isAbsolute = target.isAbsolute :=
    Path.isAbsolute_join rfl
  have hmoves : (target.child (Utf8.encode conventions.appDir)).moves = target.moves ++ [step] := by
    have hsegment : Path.moves ⟨[], Utf8.encode conventions.appDir⟩ = [step] := by
      rw [Path.moves, Path.segments, List.nil_append, List.filterMap_cons, hstep, List.filterMap_nil]
    rw [Path.child, Path.moves_join rfl, hsegment]
  obtain ⟨loc, hfinds, hfind⟩ := FileSystem.finds_of_lookup (hanchored.of_isAbsolute_eq habsolute) hlookup
  have hway := hfinds.reaches_of_hasDirectory ⟨mode, entries, hfind⟩
  rw [FileSystem.Reaches, FileSystem.beginning_of_isAbsolute_eq habsolute, hmoves] at hway
  -- the segment is a step, and this starts from a directory
  obtain ⟨goal, htarget, hlast⟩ := FileSystem.exists_of_way_append hway
  have hopen := hlast.passable fun hsettle => Step.ofSegment?_ne_settle _ (hsettle ▸ hstep)
  exact ⟨goal, .of_reaches hcurrent hanchored htarget hopen.hasDirectory⟩

/-- When the routes have been compiled the source is as it was, and unless nothing is written all its entries
have been copied into a target that is there. -/
def Arrived (a : Arguments Path) (origin : Location) (fs t : FileSystem) : Prop :=
  t.find? origin = fs.find? origin ∧ (a.isDryRun = false → Starts fs a.source a.target origin ∧
    ∃ top goal, fs.find? origin = some top ∧ Ready fs a.target origin goal top.everything t)

/-- What is copied and compiled leaves the source as it is. -/
theorem compileCopied_keeps (hfs : s.fs.Valid) (hcopies : a.skipsCopy = false)
    (horigin : s.fs.locate .target a.source = .ok origin) (hdirectory : s.fs.HasDirectory origin)
    (hspares : a.isDryRun = false → (conventions a s).1.isOk = true →
      Starts s.fs a.source a.target origin → Copy.Spares s.fs a.source a.target origin) :
    Ends (compileCopied a) s (fun _ t => Arrived a origin s.fs t.fs) (SourceKept origin s.fs) := by
  rw [compileCopied]
  refine .bind (.of_run (fun loaded u hload => ?_) fun failure u hload => ?_)
  · rw [hload] at hspares
    obtain ⟨hu, husable⟩ := conventions_run hload
    rw [← hu] at hfs horigin hdirectory hspares ⊢
    cases hdry : a.isDryRun with
    | true =>
      refine .bind (((quiet_copy hdry).ends (P := (· = u.fs)) rfl).mono (fun _ t ht => ?_)
        fun t ht => congrArg (FileSystem.find? · origin) ht)
      refine ((quiet_compileRoutes _ _).ends (P := (· = u.fs)) ht).mono (fun _ v hv => ?_)
        fun v hv => congrArg (FileSystem.find? · origin) hv
      exact ⟨congrArg (FileSystem.find? · origin) hv, fun hwrites => by
        rw [hdry] at hwrites
        cases hwrites⟩
    | false =>
      rw [copy, hcopies, hdry, if_neg Bool.false_ne_true, if_neg Bool.false_ne_true]
      refine .bind (.bind ((Copy.copyTree_keeps hfs (fun hanchored => ?_) hdirectory fun hstarts =>
        hspares hdry rfl hstarts).mono (fun _ t ht => .pure ?_) fun _ => id))
      · exact ((FileSystem.finds_of_locate hanchored horigin).reaches (by simp)).madeAt
      obtain ⟨hstarts, hanchored, top, htop, hunderway⟩ := ht
      refine .of_run (fun c v hcompiled => ?_) fun _ v hcompiled => ?_
      · obtain ⟨hv, hcompile⟩ := compileRoutes_run hcompiled
        rw [routesRoot_eq_child husable, project, hdry, Bool.false_and, if_neg Bool.false_ne_true] at hcompile
        obtain ⟨goal, hstands⟩ := exists_stands hunderway.current
          (hunderway.anchored hanchored) husable hcompile
        rw [hv]
        exact ⟨hunderway.origin_eq, fun _ => ⟨hstarts, top, goal, htop, hunderway, hdirectory, hstands⟩⟩
      · exact (congrArg (FileSystem.find? · origin)
          (((quiet_compileRoutes _ _).ends (P := (· = t.fs)) rfl).fails_of_run hcompiled)).trans
          hunderway.origin_eq
  · exact congrArg (FileSystem.find? · origin)
      (((quiet_conventions a).ends (P := (· = s.fs)) rfl).fails_of_run hload)

/-- A migration leaves its source as it is, unless what is written to the target gets into it. -/
theorem run_keeps_source (hfs : s.fs.Valid) (haccepted : check a s = (.ok (), t))
    (hcopies : a.skipsCopy = false) (hdump : a.dump? = none)
    (horigin : s.fs.locate .target a.source = .ok origin)
    (hspares : a.isDryRun = false → (conventions a t).1.isOk = true →
      Starts t.fs a.source a.target origin → Spares a t origin) :
    (run a t).2.fs.find? origin = s.fs.find? origin := by
  obtain ⟨hsame, hdirectory⟩ := check_run hcopies haccepted
  rw [← hsame] at hfs hdirectory horigin ⊢
  have horigin' : t.fs.HasDirectory origin := FileSystem.hasDirectory_of_locate hdirectory horigin
  refine Ends.state (P := SourceKept origin t.fs) ?_
  have hrun : run a = (do
      let c ← compileCopied a
      dump a c.routes
      generate a c) := by
    rw [run, compileCopied]
    simp only [bind_assoc]
  have hcompiles := compileCopied_keeps hfs hcopies horigin horigin' fun hwrites hloads hstarts =>
    (hspares hwrites hloads hstarts).toSpares
  rw [hrun]
  refine .bind (.of_run (fun c u hcompiled => ?_) fun _ u hcompiled => hcompiles.fails_of_run hcompiled)
  have harrived := hcompiles.ok_of_run hcompiled
  refine .bind (((quiet_dump hdump c.routes).ends (P := (· = u.fs)) rfl).mono (fun _ v hv => ?_)
    fun v hv => (congrArg (FileSystem.find? · origin) hv).trans harrived.1)
  rw [← hv] at harrived
  cases hdry : a.isDryRun with
  | true =>
    rw [Ends, generate_dry_run hdry]
    exact harrived.1
  | false =>
    obtain ⟨hstarts, top, goal, htop, hready⟩ := harrived.2 hdry
    obtain ⟨loaded, w, hload, -⟩ := exists_of_bind_run hcompiled
    have hspares := hspares hdry (by rw [hload]; rfl) hstarts
    refine hready.generate_keeps c hdry fun early f late hsplit hwritten links hlinks => ?_
    rw [hv] at hwritten
    refine hspares.generated f.name ?_ ⟨c, u, early, f, late, hcompiled, hsplit, rfl, hwritten⟩ top links
      htop hlinks
    have hmem : f ∈ GeneratedFile.all a.style c.fragment := by
      rw [hsplit]
      exact List.mem_append_right early List.mem_cons_self
    exact List.mem_map_of_mem (f := GeneratedFile.name) hmem

/-! ## Links that lead elsewhere -/

/-- A project `from` with these further entries, and these beside it. -/
def projectWith (inside beside : List (Name × Entry)) : FileSystem where
  root := .directory .full ((Utf8.encode "from", .directory .full
    ((Utf8.encode "app", .directory .full [(Utf8.encode "page.tsx", .file .plain [])]) :: inside)) ::
      beside)
  current := .ofLocation []

/-- A migration of a source to a target. -/
def migrationOf (source target : Text) : Arguments Path where
  source := .ofText source
  target := .ofText target
  order := .byName
  style := .relative
  conventions? := none
  skipsCopy := false
  isDryRun := false
  dump? := none
  isVerbose := false

/-- A project and a target with links.  The target has another link in place of one of the source, a link in
place of a file, and one that has the name of a generated file; the source has a link with the name of
another generated file. -/
def harmlessProject : FileSystem :=
  projectWith
    [(Utf8.encode "lib", .link (.ofText "/new")), (Utf8.encode "a.ts", .file .plain [0x61]),
      (Utf8.encode "index.tsx", .link (.ofText "app/page.tsx"))]
    [(Utf8.encode "to", .directory .full [
        (Utf8.encode "lib", .link (.ofText "/old")), (Utf8.encode "a.ts", .link (.ofText "../shared/a.ts")),
        (Utf8.encode "routes.tsx", .link (.ofText "../shared/r.tsx"))]),
      (Utf8.encode "shared", .directory .full [])]

/-- A project without routes, and a target in which `routes.tsx` is a link to a file of the project. -/
def unroutedProject : FileSystem where
  root := .directory .full [
    (Utf8.encode "from", .directory .full [(Utf8.encode "a.ts", .file .plain [0x6F])]),
    (Utf8.encode "to", .directory .full [(Utf8.encode "routes.tsx", .link (.ofText "../from/a.ts"))])]
  current := .ofLocation []

/-- The location of `from`. -/
def sampleOrigin : Location := [Utf8.encode "from"]

/-- A migration that writes through links which lead elsewhere leaves the source as it is.  So does one that
fails before it would write through a link to the source. -/
theorem run_keeps_source_projects :
    ((check (migrationOf "from" "to") (.fresh harmlessProject)).1.isOk = true ∧
      (run (migrationOf "from" "to")
        (check (migrationOf "from" "to") (.fresh harmlessProject)).2).1.isOk = true ∧
      (run (migrationOf "from" "to")
        (check (migrationOf "from" "to") (.fresh harmlessProject)).2).2.fs.find? sampleOrigin =
        harmlessProject.find? sampleOrigin) ∧
    (check (migrationOf "from" "to") (.fresh unroutedProject)).1.isOk = true ∧
      (run (migrationOf "from" "to")
        (check (migrationOf "from" "to") (.fresh unroutedProject)).2).1.isOk = false ∧
      (run (migrationOf "from" "to")
        (check (migrationOf "from" "to") (.fresh unroutedProject)).2).2.fs.find? sampleOrigin =
        unroutedProject.find? sampleOrigin := by
  refine ⟨⟨by decide +kernel, by decide +kernel, run_keeps_source (s := .fresh harmlessProject)
      ⟨by decide, _, _, rfl⟩ rfl rfl rfl (by rfl) fun _ _ _ => spares_of_check (n := 20) (by decide +kernel)⟩,
    by decide +kernel, by decide +kernel, run_keeps_source (s := .fresh unroutedProject)
      ⟨by decide, _, _, rfl⟩ rfl rfl rfl (by rfl) fun _ _ _ => ?_⟩
  have hfails : (compileCopied (migrationOf "from" "to")
      (check (migrationOf "from" "to") (.fresh unroutedProject)).2).1.isOk = false := by decide +kernel
  refine { Copy.spares_of_check (n := 20) (by decide +kernel) with generated := ?_ }
  rintro name - ⟨c, t, early, f, late, hcompiled, -⟩
  rw [hcompiled] at hfails
  cases hfails

/-! ## Targets that meet the source -/

/-- A migration is accepted, and afterwards a path below the source is read otherwise than before. -/
structure Damages (fs : FileSystem) (source target path : Text) : Prop where
  valid : fs.Valid
  accepted : (check (migrationOf source target) (.fresh fs)).1.isOk = true
  below : ∃ origin, fs.locate .target (.ofText source) = .ok origin ∧
    origin <+: fs.spelled (Path.ofText path)
  changed : (run (migrationOf source target)
    (check (migrationOf source target) (.fresh fs)).2).2.fs.readBytes (Path.ofText path) ≠
      fs.readBytes (Path.ofText path)

/-- A source with a directory of its own name, in which there is this entry. -/
def nestedProject (name : Text) (e : Entry) : FileSystem :=
  projectWith [(Utf8.encode "a.ts", .file .plain [0x6F]),
    (Utf8.encode "from", .directory .full [(Utf8.encode name, e)])] []

/-- A source with these further entries, and a target with a link. -/
def linkedProject (inside : List (Name × Entry)) (name link : Text) : FileSystem :=
  projectWith ((Utf8.encode "a.ts", .file .plain [0x6F]) :: inside)
    [(Utf8.encode "to", .directory .full [(Utf8.encode name, .link (.ofText link))])]

/-- A source on whose way there is a link, with an entry of the name of that link.  Where the entry leads
there is another source, in which `routes.tsx` is a link to a file of the first one. -/
def turnedProject : FileSystem where
  root := .directory .full [
    (Utf8.encode "real", .directory .full [(Utf8.encode "from", .directory .full [
      (Utf8.encode "app", .directory .full [(Utf8.encode "page.tsx", .file .plain [])]),
      (Utf8.encode "a.ts", .file .plain [0x6F]), (Utf8.encode "x", .link (.ofText "other")),
      (Utf8.encode "routes.tsx", .link (.ofText "b.ts"))])]),
    (Utf8.encode "other", .directory .full [(Utf8.encode "from", .directory .full [
      (Utf8.encode "routes.tsx", .link (.ofText "/real/from/a.ts"))])]),
    (Utf8.encode "x", .link (.ofText "real"))]
  current := .ofLocation []

/-- What is copied gets into a source below the target: a file, a link and a directory.  A directory is made
there on the way of the target.  A file is written there through a link of the target, and through one that
has been copied.  A generated file is written there through either sort of link.  And when a link has turned
the way of the source, what is copied from there leads back to it. -/
theorem run_damages_source :
    (Damages (nestedProject "a.ts" (.file .plain [0x6E])) "from" "." "from/a.ts" ∧
      Damages (nestedProject "a.ts" (.link (.ofText "b.ts"))) "from" "." "from/a.ts" ∧
      Damages (nestedProject "new" .emptyDirectory) "from" "." "from/new") ∧
    Damages (projectWith [] []) "from" "from/new/../../to" "from/new" ∧
    (Damages (linkedProject [] "a.ts" "../from/a.ts") "from" "to" "from/a.ts" ∧
      Damages (linkedProject [(Utf8.encode "lib", .link (.ofText "/from/a.ts")),
        (Utf8.encode "z.ts", .file .plain [0x6E])] "z.ts" "lib") "from" "to" "from/a.ts") ∧
    (Damages (linkedProject [] "routes.tsx" "../from/a.ts") "from" "to" "from/a.ts" ∧
      Damages (projectWith [(Utf8.encode "a.ts", .file .plain [0x6F]),
        (Utf8.encode "routes.tsx", .link (.ofText "/from/a.ts"))] []) "from" "to" "from/a.ts") ∧
    Damages turnedProject "x/from" "." "real/from/a.ts" := by
  refine ⟨⟨?_, ?_, ?_⟩, ?_, ⟨?_, ?_⟩, ⟨?_, ?_⟩, ?_⟩
  all_goals
    exact ⟨⟨by decide, _, _, rfl⟩, by decide +kernel, ⟨_, rfl, by decide⟩, by decide +kernel⟩

end FileRoutes.Migration
