import FileRoutes.Proofs.Migration.Merging
import FileRoutes.Proofs.Migration.Recopying
import FileRoutes.Proofs.Migration.Regeneration

/-!
# Migrating once more

A migration that succeeds can be run once more, without the copy or with it, and then changes nothing at all
(`run_idempotent`).  Not even the order in which a directory lists its entries becomes another.

## Why nothing changes

Whatever a migration does makes the file system grow: directories are made and files are written, and all of
this is in the target but for directories that were missing on the way to it (`Furnishes`).  So what the first
run found the second one finds as well.

* It reads the same conventions, since their file is not in the target.
* It copies the same source.  This overwrites the generated files that the source has too, and leaves
  everything else as it is.
* It compiles the same table, since the generated files are not in the routes root.
* It generates the same files, and these undo what the copy did.

## What has to be asked

The conventions are read from where their path leads, be it by a link, so this is what must not be in the
target.  A copy has the mode of what is copied, so a file of the source that may not be written has a copy that
may not be overwritten (`CopiesWritable`); nothing is asked of the files if the second run skips the copy.
Without either of these the second run may do something else, or fail (`run_not_idempotent`).
-/

namespace FileRoutes

open FileSystem (Grows Builds Rewritten Refills)

variable {fs fs' fs'' : FileSystem} {origin goal : Location}

/-- It may be written, if it is a file. -/
def Entry.isWritable : Entry → Bool
  | .file mode _ => mode.write
  | _ => true

namespace Migration

/-- Files are written in the target only. -/
structure Furnishes (goal : Location) (fs fs' : FileSystem) : Prop extends Builds fs fs' where
  outside : ∀ loc mode contents, ¬ goal <+: loc → fs.find? loc = some (.file mode contents) →
    fs'.find? loc = some (.file mode contents)

namespace Furnishes

theorem refl (goal : Location) (fs : FileSystem) : Furnishes goal fs fs := ⟨.refl fs, fun _ _ _ _ => id⟩

theorem trans (h : Furnishes goal fs fs') (h' : Furnishes goal fs' fs'') : Furnishes goal fs fs'' :=
  ⟨h.toBuilds.trans h'.toBuilds, fun loc mode contents hloc hfile =>
    h'.outside loc mode contents hloc (h.outside loc mode contents hloc hfile)⟩

/-- The same conventions are read, if their file is not in the target. -/
theorem readText_eq (h : Furnishes goal fs fs') {p : Path} {t : Text}
    (houtside : ∀ loc, fs.locate .target p = .ok loc → ¬ goal <+: loc) (hread : fs.readText p = .ok t) :
    fs'.readText p = .ok t := by
  obtain ⟨mode, contents, hlookup⟩ := FileSystem.exists_of_readText hread
  obtain ⟨loc, hresolve, hfile⟩ := FileSystem.exists_of_lookup_file hlookup
  have hlocate : fs.locate .target p = .ok loc := by
    rw [FileSystem.locate, hresolve]
    rfl
  have hlookup' : fs'.lookup .target p = .ok (.file mode contents) :=
    FileSystem.lookup_of_resolve (h.resolve_again (FileSystem.fills_entry fs' loc) hresolve)
      (h.outside loc mode contents (houtside loc hlocate) hfile)
  rw [FileSystem.readText_of_lookup (hlookup'.trans hlookup.symm), hread]

end Furnishes

/-- Separate trees stay so. -/
theorem Furnishes.separate {source target : Path} (h : Furnishes goal fs fs')
    (hs : Copy.Separate fs source target origin goal) : Copy.Separate fs' source target origin goal where
  valid := h.fileSystem_valid hs.valid
  sourceDirectory := by
    obtain ⟨mode, entries, hlookup, htreads, -⟩ := hs.treads
    obtain ⟨entries', hlookup'⟩ := h.lookup_directory htreads.anchored hlookup
    exact ⟨mode, entries', hlookup'⟩
  origin_eq := h.canonical_again hs.origin_eq
  goal_eq := by
    obtain ⟨goal', hgoal⟩ := Copy.exists_targetLocation h.current_eq hs.goal_eq
    obtain ⟨-, hspelled⟩ := hs.spells
    obtain ⟨-, rfl⟩ := Copy.targetLocation_eq_ok (h.fileSystem_valid hs.valid) (h.linkFree hs.targetFree) hgoal
    rw [hgoal, FileSystem.spelled, h.sameLinks.beginning_eq, ← FileSystem.spelled, hspelled]
  targetFree := h.linkFree hs.targetFree
  noTargetLink below link hlink := hs.noTargetLink below link ((h.sameLinks.link_iff _ link).mp hlink)
  apart := hs.apart
  apart' := hs.apart'

/-! ## What is asked of a migration -/

open Copy (Separate Copied Since Settled)

variable {a : Arguments Path} {s t : Session} {conventions : Conventions} {c : Compilation}

/-- Source and target are separate, no link is in or on the way to either of them, and only the target is
written. -/
structure Plain (a : Arguments Path) (fs : FileSystem) (origin goal : Location) : Prop extends
    Separate fs a.source a.target origin goal where
  writes : a.isDryRun = false
  noDump : a.dump? = none
  targetCut : a.target.Cut
  sourceFree : fs.LinkFree a.source
  noSourceLink : ∀ below link, fs.find? (origin ++ below) ≠ some (.link link)

/-- The conventions are not read from the target. -/
structure Steady (a : Arguments Path) (fs : FileSystem) (origin goal : Location) : Prop extends
    Plain a fs origin goal where
  elsewhere : ∀ file, a.conventions? = some file → ∀ loc, fs.locate .target file = .ok loc →
    ¬ goal <+: loc

/-- What is copied may be written. -/
def CopiesWritable (a : Arguments Path) (fs : FileSystem) (origin : Location) : Prop :=
  a.skipsCopy = false → ∀ below mode contents,
    fs.find? (origin ++ below) = some (.file mode contents) → mode.write = true

/-! ## The stages -/

/-- The conventions that were chosen are chosen again, with or without the copy. -/
theorem Steady.chooses (h : Steady a fs origin goal) (hf : Furnishes goal fs fs')
    (hchooses : Chooses a fs conventions) (skips : Bool) :
    Chooses { a with skipsCopy := skips } fs' conventions := by
  cases hchooses with
  | standard hnone => exact .standard hnone
  | @loaded file _ hsome hload =>
    refine .loaded (show a.conventions? = some file from hsome) ?_
    rw [Conventions.load] at hload
    split at hload
    · cases hload
    · rename_i text hread
      rw [Conventions.load, hf.readText_eq (h.elsewhere file hsome) hread]
      exact hload

/-- The copy furnishes the target, and each file of the source is in it. -/
theorem Plain.furnishes (h : Plain a s.fs origin goal) {totals : CopyTotals}
    (hrun : copyTree a.source a.target s = (.ok totals, t)) :
    Furnishes goal s.fs t.fs ∧ ∀ below mode contents, t.fs.find? (origin ++ below) = some (.file mode contents) →
      s.fs.find? (origin ++ below) = some (.file mode contents) ∧
        t.fs.find? (goal ++ below) = some (.file mode contents) := by
  obtain ⟨between, hmakes, hvalid, hcourse, hcopied⟩ := h.copied h.targetCut hrun
  have hno (below : List Name) (link : Path) : between.find? (origin ++ below) ≠ some (.link link) :=
    fun hlink => h.noSourceLink below link ((hmakes.sameLinks.link_iff _ link).mp hlink)
  have hgrows : Grows between t.fs := hcopied.grows hno
  refine ⟨⟨⟨hmakes.grows.trans hgrows, ?_, fun _ => hcopied.valid hvalid⟩,
    fun loc mode contents hloc hfile => ?_⟩, fun below mode contents hfile => ?_⟩
  · refine hmakes.sameLinks.trans ⟨hgrows.current_eq, fun loc link => ?_⟩
    exact ⟨hcopied.find?_link hno, hgrows.link loc link⟩
  · have hview := FileSystem.view_eq_file_iff.mpr hfile
    rw [← FileSystem.view_eq_file_iff, hcopied.touches.view_eq]
    · rcases hmakes.view_eq loc with hsame | ⟨hnone, -⟩
      · rwa [hsame]
      · rw [hnone] at hview
        cases hview
    · rintro ⟨below, -, -, -, rfl, -⟩
      exact hloc (List.prefix_append goal below)
  · rw [hcopied.find?_source] at hfile
    have hview := FileSystem.view_eq_file_iff.mpr hfile
    constructor
    · rcases hmakes.view_eq (origin ++ below) with hsame | ⟨-, hempty⟩
      · rwa [hsame, FileSystem.view_eq_file_iff] at hview
      · rw [hempty] at hview
        cases hview
    · -- the source itself is a directory
      have hbelow : ∃ n, [n] <+: below := by
        cases below with
        | nil =>
          rw [List.append_nil] at hfile
          exact absurd hcourse.sourceDirectory (FileSystem.not_hasDirectory_of_file hfile)
        | cons n rest => exact ⟨n, rest, rfl⟩
      have hoverlaid := hcopied.overlaid below hbelow
      rw [Copy.Overlaid, hview] at hoverlaid
      exact FileSystem.view_eq_file_iff.mp hoverlaid

/-- So do the generated files. -/
theorem Furnishes.of_refills {files : List GeneratedFile} (h : Refills fs fs')
    (halters : FileSystem.Alters (fun l => GeneratedPart goal files l ∧ ¬ fs.HasDirectory l) fs fs') :
    Furnishes goal fs fs' where
  toBuilds := h.toBuilds
  outside loc mode contents hloc hfile := by
    rw [← FileSystem.view_eq_file_iff, halters.view_eq]
    · exact FileSystem.view_eq_file_iff.mpr hfile
    · rintro ⟨⟨file, -, rfl⟩, -⟩
      exact hloc (List.prefix_append goal _)

section Compiled

variable {source target : Path} {settings : Settings} {app : Text}

/-- What is compiled is a directory of the target. -/
theorem treads_of_compile (h : Separate fs source target origin goal) (hslash : '/' ∉ app)
    (hdown : Name.IsDown (Utf8.encode app))
    (hcompile : compile settings fs (target.join (Path.ofText app)) = .ok c) :
    ∃ mode entries, fs.lookup .target (target.join (Path.ofText app)) = .ok (.directory mode entries) ∧
      fs.Treads (target.join (Path.ofText app)) (goal ++ [Utf8.encode app]) ∧
      fs.find? (goal ++ [Utf8.encode app]) = some (.directory mode entries) := by
  have hgoesOn : target.GoesOn [Utf8.encode app] (target.join (Path.ofText app)) :=
    .join_ofText target hslash hdown
  obtain ⟨mode, entries, hlookup⟩ := exists_lookup_of_compile hcompile
  obtain ⟨loc, htreads, hfind⟩ := FileSystem.treads_of_lookup
    (h.spells.1.of_isAbsolute_eq hgoesOn.isAbsolute_eq) hlookup
  obtain rfl := htreads.reaches.eq (h.madeAt.goesOn hgoesOn (.down trivial (h.noTargetLink _) (.done _)))
  exact ⟨mode, entries, hlookup, htreads, hfind⟩

/-- So the target stands. -/
theorem stands_of_compile (h : Separate fs source target origin goal) (hslash : '/' ∉ app)
    (hdown : Name.IsDown (Utf8.encode app))
    (hcompile : compile settings fs (target.join (Path.ofText app)) = .ok c) : Stands fs target goal := by
  obtain ⟨mode, entries, -, htreads, hfind⟩ := treads_of_compile h hslash hdown hcompile
  have hgoesOn : target.GoesOn [Utf8.encode app] (target.join (Path.ofText app)) :=
    .join_ofText target hslash hdown
  have htrail := htreads.trail
  rw [hgoesOn.moves_eq, FileSystem.beginning_of_isAbsolute_eq hgoesOn.isAbsolute_eq] at htrail
  obtain ⟨loc, hbefore, -⟩ := htrail.exists_of_append ⟨mode, entries, hfind⟩
  have hreaches : fs.Reaches target loc := hbefore.way
  obtain rfl := hreaches.eq h.madeAt
  exact .of_reaches h.valid.current h.spells.1 hreaches (.of_find?_append hfind)

/-- The same is compiled as long as the routes root holds the same. -/
theorem compile_again (h : Separate fs source target origin goal) (hslash : '/' ∉ app)
    (hdown : Name.IsDown (Utf8.encode app)) (hgrows : Grows fs fs')
    (hsame : fs'.find? (goal ++ [Utf8.encode app]) = fs.find? (goal ++ [Utf8.encode app]))
    (hcompile : compile settings fs (target.join (Path.ofText app)) = .ok c) :
    compile settings fs' (target.join (Path.ofText app)) = .ok c := by
  obtain ⟨mode, entries, hlookup, htreads, hfind⟩ := treads_of_compile h hslash hdown hcompile
  have hlookup' := (htreads.keeps hgrows.toKeeps ⟨mode, entries, hfind⟩).lookup_directory
    (FileSystem.askable_of_lookup hlookup) (hsame.trans hfind)
  rw [compile, load, hlookup']
  rw [compile, load, hlookup] at hcompile
  exact hcompile

end Compiled

/-- What has been generated in a target that has been furnished before. -/
structure Generated (a : Arguments Path) (c : Compilation) (goal : Location) (fs fs' : FileSystem) : Prop extends
    Refills fs fs' where
  alters : FileSystem.Alters
    (fun l => GeneratedPart goal (GeneratedFile.all a.style c.fragment) l ∧ ¬ fs.HasDirectory l) fs fs'
  files : ∀ loc, GeneratedPart goal (GeneratedFile.all a.style c.fragment) loc →
    ∃ mode contents, fs'.find? loc = some (.file mode contents)
  again : fs'.root.Valid → ∀ v, Rewritten (GeneratedPart goal (GeneratedFile.all a.style c.fragment)) fs' v →
    (generate a c).on v = (.ok (), fs')

theorem generated_of_run (hwrites : a.isDryRun = false) (h : Stands s.fs a.target goal)
    (hno : ∀ below link, s.fs.find? (goal ++ below) ≠ some (.link link))
    (hrun : generate a c s = (.ok (), t)) : Generated a c goal s.fs t.fs := by
  obtain ⟨halters, hfiles⟩ := (generate_ends c hwrites h fun _ _ => hno _).ok_of_run hrun
  obtain ⟨hrefills, hagain⟩ := generate_again hwrites h (fun _ _ => hno _) hrun
  refine ⟨hrefills, halters, ?_, hagain⟩
  rintro loc ⟨file, hfile, rfl⟩
  obtain ⟨mode, hfind⟩ := hfiles file hfile
  exact ⟨mode, _, hfind⟩

namespace Generated

variable {between : FileSystem}

/-- The generated files are not in the routes root, also when they hold something else. -/
theorem find?_root (h : Generated a c goal fs fs') (hvalid : fs'.root.Valid) {v : FileSystem}
    (hv : Rewritten (GeneratedPart goal (GeneratedFile.all a.style c.fragment)) fs' v) {name : Name}
    (hroot : fs.HasDirectory (goal ++ [name])) : v.find? (goal ++ [name]) = fs.find? (goal ++ [name]) := by
  -- a generated file in the place of a directory, or in it
  have hnot (l : Location) (hl : GeneratedPart goal (GeneratedFile.all a.style c.fragment) l) :
      ¬ goal ++ [name] <+: l := by
    intro hprefix
    obtain ⟨mode, contents, hfile⟩ := h.files l hl
    obtain ⟨f, -, rfl⟩ := hl
    rw [List.prefix_append_right_inj, List.cons_prefix_cons] at hprefix
    obtain ⟨rfl, -⟩ := hprefix
    exact FileSystem.not_hasDirectory_of_file hfile (h.hasDirectory hroot)
  exact (hv.find?_eq hvalid hnot).trans (h.alters.find?_eq _ fun l hl => hnot l hl.1)

/-- They are not in the source either. -/
theorem find?_source (h : Generated a c goal fs fs') {source target : Path}
    (hs : Separate between source target origin goal) (below : List Name) :
    fs'.find? (origin ++ below) = fs.find? (origin ++ below) := by
  refine h.alters.find?_eq _ ?_
  rintro l ⟨⟨f, -, rfl⟩, -⟩ hprefix
  exact hs.not_prefix _ ((List.prefix_append origin below).trans hprefix)

/-- A target that has got the files of the source still has them, but for other contents. -/
theorem settled (h : Generated a c goal fs fs') {source target : Path}
    (hs : Separate fs' source target origin goal)
    (hno : ∀ below link, fs.find? (origin ++ below) ≠ some (.link link))
    (hfiles : ∀ below mode contents, fs.find? (origin ++ below) = some (.file mode contents) →
      mode.write = true ∧ fs.find? (goal ++ below) = some (.file mode contents)) :
    Settled (GeneratedPart goal (GeneratedFile.all a.style c.fragment)) origin goal fs' where
  valid := hs.valid.tree
  root := FileSystem.HasDirectory.above hs.valid.current List.nil_prefix
  apart := hs.not_prefix
  outside := by
    rintro l ⟨f, -, rfl⟩
    exact hs.not_prefix _
  rewritable := h.files
  noLink below link := by
    rw [h.find?_source hs]
    exact hno below link
  file below mode contents hfile := by
    rw [h.find?_source hs] at hfile
    obtain ⟨hwrite, hcopied⟩ := hfiles below mode contents hfile
    obtain ⟨contents', hnow⟩ := h.mode _ mode contents hcopied
    refine ⟨hwrite, contents', hnow, ?_⟩
    by_cases hpart : GeneratedPart goal (GeneratedFile.all a.style c.fragment) (goal ++ below)
    · exact Or.inl hpart
    · rw [← FileSystem.view_eq_file_iff, h.alters.view_eq _ fun hl => hpart hl.1,
        FileSystem.view_eq_file_iff, hcopied] at hnow
      exact Or.inr (Entry.file.inj (Option.some.inj hnow)).2.symm

end Generated

/-- The copy furnishes the target, and overwrites nothing but generated files when it is made once more. -/
theorem Plain.copy_again (h : Plain a s.fs origin goal) (hrun : copy a s = (.ok (), t)) :
    Furnishes goal s.fs t.fs ∧ (CopiesWritable a s.fs origin → ∀ fs', Generated a c goal t.fs fs' →
      ∃ v, Leaves a fs' v ∧
        Rewritten (GeneratedPart goal (GeneratedFile.all a.style c.fragment)) fs' v) := by
  cases hskips : a.skipsCopy with
  | true =>
    rw [copy, if_pos hskips] at hrun
    rw [Action.tell_run hrun]
    exact ⟨.refl goal s.fs, fun _ fs' hgenerated => ⟨fs', .same (Or.inl hskips), .refl hgenerated.files⟩⟩
  | false =>
    obtain ⟨totals, hcopy⟩ := copy_run hskips h.writes hrun
    obtain ⟨hfurnishes, hfiles⟩ := h.furnishes hcopy
    refine ⟨hfurnishes, fun hwritable fs' hgenerated => ?_⟩
    have hseparate : Separate fs' a.source a.target origin goal :=
      (hfurnishes.trans (.of_refills hgenerated.toRefills hgenerated.alters)).separate h.toSeparate
    have hsettled := hgenerated.settled hseparate
      (fun below link hlink => h.noSourceLink below link ((hfurnishes.sameLinks.link_iff _ link).mp hlink))
      fun below mode contents hfile =>
        (hfiles below mode contents hfile).imp_left (hwritable hskips below mode contents)
    have hsince : Since origin t.fs fs' := ⟨hgenerated.toGrows, hgenerated.find?_source hseparate⟩
    obtain ⟨totals', v, hagain, hrewritten⟩ := h.copyTree_again h.targetCut hcopy
      hsince hsettled hseparate
    exact ⟨v, .copied hskips h.writes hagain, hrewritten⟩

/-- The stages behind the copy undo what the copy overwrote. -/
theorem Generated.rest_again (h : Generated a c goal fs fs') (hvalid : fs'.root.Valid)
    (hs : Separate fs a.source a.target origin goal) (hwrites : a.isDryRun = false)
    (hdump : a.dump? = none) (hslash : '/' ∉ conventions.appDir)
    (hdown : Name.IsDown (Utf8.encode conventions.appDir))
    (hcompile : compile ⟨conventions, a.order, a.style⟩ fs
      (a.target.join (Path.ofText conventions.appDir)) = .ok c) {v : FileSystem}
    (hv : Rewritten (GeneratedPart goal (GeneratedFile.all a.style c.fragment)) fs' v) (skips : Bool) :
    Action.on (do
      let c ← compileRoutes ⟨conventions, a.order, a.style⟩
        (routesRoot { a with skipsCopy := skips } conventions)
      dump { a with skipsCopy := skips } c.routes
      generate { a with skipsCopy := skips } c) v = (.ok (), fs') := by
  obtain ⟨mode, entries, -, -, hfind⟩ := treads_of_compile hs hslash hdown hcompile
  have hcompile' := compile_again hs hslash hdown (h.toGrows.trans hv.grows)
    (h.find?_root hvalid hv ⟨mode, entries, hfind⟩) hcompile
  have hroot : routesRoot { a with skipsCopy := skips } conventions =
      a.target.join (Path.ofText conventions.appDir) :=
    routesRoot_of_writes (a := { a with skipsCopy := skips }) hwrites conventions
  have hnothing (fs : FileSystem) : (dump { a with skipsCopy := skips } c.routes).on fs = (.ok (), fs) := by
    rw [dump, hdump]
    rfl
  rw [hroot,
    Action.on_bind_of_ok (fun _ => .bind (Action.pervades_logless.dump _ _) fun _ => Action.pervades_logless.generate _ _)
      (on_compileRoutes_of_ok hcompile'),
    Action.on_bind_of_ok (fun _ => Action.pervades_logless.generate _ _) (hnothing v)]
  exact h.again hvalid v hv

/-- A migration that has succeeded can be run once more without the copy, and with the copy too if that may
be overwritten, and changes nothing. -/
theorem run_idempotent (h : Steady a s.fs origin goal)
    (happ : ∀ conventions t, Migration.conventions a s = (.ok conventions, t) →
      conventions.appDir ≠ ".".toList ∧ conventions.appDir ≠ "..".toList)
    (hrun : run a s = (.ok (), t)) :
    (CopiesWritable a s.fs origin → (run a).on t.fs = (.ok (), t.fs)) ∧
      (run { a with skipsCopy := true }).on t.fs = (.ok (), t.fs) := by
  rw [run] at hrun
  obtain ⟨conventions, u, hconventions, hrun⟩ := exists_of_bind_run hrun
  obtain ⟨_, v, hcopy, hrun⟩ := exists_of_bind_run hrun
  obtain ⟨c, w, hcompile, hrun⟩ := exists_of_bind_run hrun
  obtain ⟨_, x, hdump, hgenerate⟩ := exists_of_bind_run hrun
  obtain ⟨hdot, hdots⟩ := happ conventions u hconventions
  obtain ⟨hsame, hcomplaint⟩ := conventions_run hconventions
  obtain ⟨hne, hslash⟩ := Conventions.appDir_of_complaint?_eq_none hcomplaint
  have hdown := Conventions.isDown_encode hne hdot hdots
  have hchooses := chooses_of_run hconventions
  rw [← hsame] at h hchooses
  obtain ⟨hfurnishes, hagain⟩ := h.copy_again (c := c) hcopy
  have hseparate := hfurnishes.separate h.toSeparate
  obtain ⟨hcompiled, hcompile⟩ := compileRoutes_run hcompile
  rw [routesRoot_of_writes h.writes] at hcompile
  -- from the copy on nothing happens before the files are generated
  have hquiet : x.fs = v.fs := ((quiet_dump h.noDump c.routes).of_run hdump).1.trans hcompiled
  have hgenerated : Generated a c goal v.fs t.fs := by
    rw [← hquiet] at hseparate hcompile ⊢
    exact generated_of_run h.writes (stands_of_compile hseparate hslash hdown hcompile) hseparate.noTargetLink
      hgenerate
  have hwhole := hfurnishes.trans (.of_refills hgenerated.toRefills hgenerated.alters)
  have hvalid : t.fs.root.Valid := hwhole.valid h.valid.tree
  have hrest {fs : FileSystem}
      (hfs : Rewritten (GeneratedPart goal (GeneratedFile.all a.style c.fragment)) t.fs fs) (skips : Bool) :=
    hgenerated.rest_again hvalid hseparate h.writes h.noDump hslash hdown hcompile hfs skips
  constructor
  · intro hwritable
    rw [← hsame] at hwritable
    obtain ⟨fs, hleaves, hfs⟩ := hagain hwritable t.fs hgenerated
    rw [on_run (h.chooses hwhole hchooses a.skipsCopy) hleaves]
    exact hrest hfs a.skipsCopy
  · rw [on_run (h.chooses hwhole hchooses true) (.same (Or.inl rfl))]
    exact hrest (.refl hgenerated.files) true

/-! ## Samples -/

/-- The source has a routes file of its own, and the conventions stand in a file beside it. -/
def ownRoutes : FileSystem where
  root := .directory .full [
    (Utf8.encode "from", .directory .full [
      (Utf8.encode "routes.tsx", .file .plain (Utf8.encode "own")),
      (Utf8.encode "pages", .directory .full [
        (Utf8.encode "about", .directory .full [(Utf8.encode "page.tsx", .file .plain [])])])]),
    (Utf8.encode "to", .directory .full [(Utf8.encode "old.ts", .file .plain [])]),
    (Utf8.encode "routes.yaml", .file .plain (Utf8.encode "app_dir: pages"))]
  current := .ofLocation []

def repeatedArguments : Arguments Path where
  source := .ofText "from"
  target := .ofText "to"
  order := .byName
  style := .relative
  conventions? := none
  skipsCopy := false
  isDryRun := false
  dump? := none
  isVerbose := false

def ownArguments : Arguments Path := { repeatedArguments with conventions? := some (.ofText "routes.yaml") }

theorem linkless_ownRoutes : Linkless ownRoutes.root := linkless_of_everything (by decide)

theorem steady_ownRoutes :
    Steady ownArguments ownRoutes [Utf8.encode "from"] [Utf8.encode "to"] where
  valid := ⟨by decide, _, _, rfl⟩
  sourceDirectory := ⟨_, _, rfl⟩
  origin_eq := by rfl
  goal_eq := by rfl
  targetFree _ _ := linkless_ownRoutes _
  noTargetLink _ := linkless_ownRoutes _
  apart := by decide
  apart' := by decide
  writes := rfl
  noDump := rfl
  targetCut := Path.cut_ofText "to"
  sourceFree _ _ := linkless_ownRoutes _
  noSourceLink _ := linkless_ownRoutes _
  elsewhere t ht loc hloc := by
    obtain rfl := Option.some.inj ht
    have hfile : ownRoutes.locate .target (.ofText "routes.yaml") = .ok [Utf8.encode "routes.yaml"] := by rfl
    rw [hfile] at hloc
    rw [← Except.ok.inj hloc]
    decide

theorem copiesWritable_ownRoutes : CopiesWritable ownArguments ownRoutes [Utf8.encode "from"] := by
  intro _ below mode contents hfile
  have hall : ∀ p ∈ ownRoutes.root.everything, p.2.isWritable = true := by decide
  exact hall _ (Entry.mem_everything hfile)

/-- The sample is migrated over and over. -/
theorem run_idempotent_ownRoutes : ∃ t, run ownArguments (.fresh ownRoutes) = (.ok (), t) ∧
    (run ownArguments).on t.fs = (.ok (), t.fs) ∧
      (run { ownArguments with skipsCopy := true }).on t.fs = (.ok (), t.fs) := by
  obtain ⟨⟨⟩, t, hrun⟩ := exists_of_isOk_run (x := run ownArguments) (s := .fresh ownRoutes) (by decide +kernel)
  refine ⟨t, hrun, (run_idempotent (s := .fresh ownRoutes) steady_ownRoutes (fun conventions u h => ?_)
    hrun).imp_left fun hagain => hagain copiesWritable_ownRoutes⟩
  have happ : ((Migration.conventions ownArguments (.fresh ownRoutes)).1.toOption.all fun conventions =>
      conventions.appDir ≠ ".".toList ∧ conventions.appDir ≠ "..".toList) = true := by decide +kernel
  rw [h] at happ
  exact of_decide_eq_true happ

/-- As far as the paths tell, a migration by name writes to its target only and reads nothing from there. -/
structure Apparent (a : Arguments Path) (fs : FileSystem) (origin goal : Location) : Prop extends
    Plain a fs origin goal where
  byName : a.order = .byName
  outside : ∀ file, a.conventions? = some file → ¬ goal <+: fs.spelled file
  ordinary : ∀ conventions t, Migration.conventions a (.fresh fs) = (.ok conventions, t) →
    conventions.appDir ≠ ".".toList ∧ conventions.appDir ≠ "..".toList

/-- The source has a file that may only be read. -/
def readOnlySource : FileSystem where
  root := .directory .full [
    (Utf8.encode "from", .directory .full [
      (Utf8.encode "app", .directory .full [(Utf8.encode "page.tsx", .file .plain [])]),
      (Utf8.encode "licence", .file ⟨true, false, false⟩ [])])]
  current := .ofLocation []

/-- The conventions are read by way of a link from a file of the target that is about to be replaced. -/
def linkedConventions : FileSystem where
  root := .directory .full [
    (Utf8.encode "from", .directory .full [
      (Utf8.encode "app", .directory .full [(Utf8.encode "page.tsx", .file .plain [])]),
      (Utf8.encode "routes.yaml", .file .plain (Utf8.encode "app_dir: pages"))]),
    (Utf8.encode "to", .directory .full [
      (Utf8.encode "routes.yaml", .file .plain (Utf8.encode "app_dir: app"))]),
    (Utf8.encode "link.yaml", .link (.ofText "to/routes.yaml"))]
  current := .ofLocation []

def linkedArguments : Arguments Path := { repeatedArguments with conventions? := some (.ofText "link.yaml") }

/-- A run succeeds, and the same run fails behind it. -/
def FailsAgain (a : Arguments Path) (fs : FileSystem) : Prop :=
  ((run a).on fs).1.isOk = true ∧ ((run a).on ((run a).on fs).2).1.isOk = false

theorem linkless_readOnlySource : Linkless readOnlySource.root := linkless_of_everything (by decide)

theorem apparent_readOnlySource :
    Apparent repeatedArguments readOnlySource [Utf8.encode "from"] [Utf8.encode "to"] where
  valid := ⟨by decide, _, _, rfl⟩
  sourceDirectory := ⟨_, _, rfl⟩
  origin_eq := by rfl
  goal_eq := by rfl
  targetFree _ _ := linkless_readOnlySource _
  noTargetLink _ := linkless_readOnlySource _
  apart := by decide
  apart' := by decide
  writes := rfl
  noDump := rfl
  targetCut := Path.cut_ofText "to"
  sourceFree _ _ := linkless_readOnlySource _
  noSourceLink _ := linkless_readOnlySource _
  byName := rfl
  outside t ht := by cases ht
  ordinary conventions t h := by
    obtain ⟨rfl, -⟩ := eq_of_pure_run h
    decide

/-- The only link is beside source and target. -/
theorem not_prefix_of_link {loc l : Location} {link : Path}
    (hl : l = [Utf8.encode "from"] ∨ l = [Utf8.encode "to"])
    (h : linkedConventions.find? loc = some (.link link)) : ¬ l <+: loc ∧ ¬ loc <+: l := by
  have hall : ∀ p ∈ linkedConventions.root.everything, p.2.kind = .link →
      p.1 = [Utf8.encode "link.yaml"] := by decide
  obtain rfl : loc = [Utf8.encode "link.yaml"] := hall _ (Entry.mem_everything h) rfl
  rcases hl with rfl | rfl <;> decide

theorem apparent_linkedConventions :
    Apparent linkedArguments linkedConventions [Utf8.encode "from"] [Utf8.encode "to"] where
  valid := ⟨by decide, _, _, rfl⟩
  sourceDirectory := ⟨_, _, rfl⟩
  origin_eq := by rfl
  goal_eq := by rfl
  targetFree way hway link hlink := (not_prefix_of_link (Or.inr rfl) hlink).2
    (Step.foldl_move_mono (by decide : Step.up ∉ Path.moves (.ofText "to")) hway _)
  noTargetLink below link hlink := (not_prefix_of_link (Or.inr rfl) hlink).1 (List.prefix_append _ below)
  apart := by decide
  apart' := by decide
  writes := rfl
  noDump := rfl
  targetCut := Path.cut_ofText "to"
  sourceFree way hway link hlink := (not_prefix_of_link (Or.inl rfl) hlink).2
    (Step.foldl_move_mono (by decide : Step.up ∉ Path.moves (.ofText "from")) hway _)
  noSourceLink below link hlink := (not_prefix_of_link (Or.inl rfl) hlink).1 (List.prefix_append _ below)
  byName := rfl
  outside t ht := by
    obtain rfl := Option.some.inj ht
    decide
  ordinary conventions t h := by
    have happ : ((Migration.conventions linkedArguments (.fresh linkedConventions)).1.toOption.all
        fun conventions => conventions.appDir ≠ ".".toList ∧ conventions.appDir ≠ "..".toList) = true := by
      decide +kernel
    rw [h] at happ
    exact of_decide_eq_true happ

/-- A second run may fail to overwrite what the first one copied, or may read other conventions. -/
theorem run_not_idempotent :
    (Apparent repeatedArguments readOnlySource [Utf8.encode "from"] [Utf8.encode "to"] ∧
      FailsAgain repeatedArguments readOnlySource) ∧
    (Apparent linkedArguments linkedConventions [Utf8.encode "from"] [Utf8.encode "to"] ∧
      FailsAgain linkedArguments linkedConventions) := by
  refine ⟨⟨apparent_readOnlySource, ?_, ?_⟩, apparent_linkedConventions, ?_, ?_⟩
  all_goals decide +kernel

end Migration

end FileRoutes
