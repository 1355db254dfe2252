import FileRoutes.Proofs.Migration.Regeneration

/-!
# What has been written is there

The generated files are written one after the other, and a link in the place of one is followed.  So two
of the paths may lead to the same place, and the file there then has the contents that were written last.

## One file and several

When a file has been written its path leads to its contents, and a file to which the path does not lead is
what it was (`Receives`).  Nothing that was there is taken away by the files after it, so the path still
leads to that place when all are written, and what is there was written by the last file whose path
leads to it (`Delivers`).

## Paths that meet

The contents of the generated files differ, so a file is there as it was generated exactly if no later path
leads to the same place (`writeGenerated_reads`).  This is so for all of them if the target holds no link
under the name of one.  That it is not so for every target is seen from one with a link from the first file
to the second (`writeGenerated_overwrites`).
-/

namespace FileRoutes

open FileSystem (Grows SameLinks)

variable {fs fs' fs'' : FileSystem} {s s' : Session} {target p : Path} {f g : GeneratedFile}
  {files : List GeneratedFile} {loc : Location}

/-! ## Reading -/

theorem FileSystem.readText_of_lookup_file {mode : Mode} {t : Text}
    (h : fs.lookup .target p = .ok (.file mode (Utf8.encode t))) :
    fs.readText p = if mode.read = true then .ok t else .error .denied := by
  rw [readText, readBytes, openFile, h]
  by_cases hread : mode.read = true
  · simp only [bind, Except.bind, if_pos hread, Utf8.decode?_encode]
  · simp only [bind, Except.bind, if_neg hread]

/-! ## One file -/

/-- The path leads to a file with these contents, and nothing else that was there is any different. -/
structure Receives (p : Path) (contents : Bytes) (fs fs' : FileSystem) : Prop extends Grows fs fs' where
  sameLinks : SameLinks fs fs'
  found : ∃ loc mode, fs'.locate .target p = .ok loc ∧ fs'.find? loc = some (.file mode contents)
  others : ∀ loc mode before, fs'.locate .target p ≠ .ok loc →
    fs.find? loc = some (.file mode before) → fs'.find? loc = some (.file mode before)

theorem receives_of_writeText {t : Text} (hroot : s.fs.HasDirectory [])
    (hrun : writeText p t s = (.ok (), s')) : Receives p (Utf8.encode t) s.fs s'.fs := by
  obtain ⟨between, hadds, loc, mode, hwrites⟩ := (Migration.writeText_writes hroot t).ok_of_run hrun
  have hdumped : Migration.Dumped p s.fs s'.fs := (Migration.Dumped.of_addsAbove hadds).write hwrites
  refine ⟨hadds.grows.1.trans hwrites.grows, hadds.grows.2.trans hwrites.sameLinks,
    ⟨loc, mode, hwrites.locate_eq, hwrites.sets.find?_self⟩, fun l m before hother hfile => ?_⟩
  rw [← FileSystem.view_eq_file_iff] at hfile ⊢
  rcases hdumped.view_eq l with hsame | ⟨hlocate, -⟩ | ⟨hnone, -⟩
  · exact hsame.trans hfile
  · exact absurd hlocate hother
  · rw [hnone] at hfile
    cases hfile

/-! ## Several files -/

/-- The path of a generated file in the target. -/
def GeneratedFile.pathIn (target : Path) (f : GeneratedFile) : Path := target.join (.ofText f.name)

/-- The last of the files whose paths lead to the location. -/
def LastAt (fs : FileSystem) (target : Path) (files : List GeneratedFile) (loc : Location)
    (g : GeneratedFile) : Prop :=
  ∃ before after, files = before ++ g :: after ∧ fs.locate .target (g.pathIn target) = .ok loc ∧
    ∀ h ∈ after, fs.locate .target (h.pathIn target) ≠ .ok loc

namespace LastAt

theorem mem (h : LastAt fs target files loc g) : g ∈ files := by
  obtain ⟨before, after, rfl, -⟩ := h
  exact List.mem_append_right before List.mem_cons_self

theorem locate_eq (h : LastAt fs target files loc g) : fs.locate .target (g.pathIn target) = .ok loc := by
  obtain ⟨-, -, -, hlocate, -⟩ := h
  exact hlocate

theorem cons (h : LastAt fs target files loc g) (f : GeneratedFile) : LastAt fs target (f :: files) loc g := by
  obtain ⟨before, after, rfl, hlocate, hafter⟩ := h
  exact ⟨f :: before, after, rfl, hlocate, hafter⟩

/-- There is one that is the last. -/
theorem eq (hf : LastAt fs target files loc f) (hg : LastAt fs target files loc g) : f = g := by
  obtain ⟨before, after, rfl, hlocate, hafter⟩ := hf
  obtain ⟨before', after', heq, hlocate', hafter'⟩ := hg
  rcases List.append_eq_append_iff.mp heq with ⟨between, -, hbetween⟩ | ⟨between, -, hbetween⟩
  · rcases List.cons_eq_append_iff.mp hbetween with ⟨-, hsame⟩ | ⟨rest, -, rfl⟩
    · exact (List.cons.inj hsame).1.symm
    · exact absurd hlocate' (hafter g (by simp))
  · rcases List.cons_eq_append_iff.mp hbetween with ⟨-, hsame⟩ | ⟨rest, -, rfl⟩
    · exact (List.cons.inj hsame).1
    · exact absurd hlocate (hafter' f (by simp))

end LastAt

/-- Each path leads to what was written by the last file whose path leads there, and no other file is any
different. -/
structure Delivers (target : Path) (files : List GeneratedFile) (fs fs' : FileSystem) : Prop
    extends Grows fs fs' where
  sameLinks : SameLinks fs fs'
  found : ∀ f ∈ files, ∃ loc g mode, fs'.locate .target (f.pathIn target) = .ok loc ∧
    LastAt fs' target files loc g ∧ fs'.find? loc = some (.file mode (Utf8.encode g.contents))
  others : ∀ loc mode before, (∀ f ∈ files, fs'.locate .target (f.pathIn target) ≠ .ok loc) →
    fs.find? loc = some (.file mode before) → fs'.find? loc = some (.file mode before)

namespace Delivers

theorem refl (target : Path) (fs : FileSystem) : Delivers target [] fs fs :=
  ⟨.refl fs, .refl fs, by simp, fun _ _ _ _ => id⟩

/-- One more file in front. -/
theorem cons (h : Receives (f.pathIn target) (Utf8.encode f.contents) fs fs')
    (h' : Delivers target files fs' fs'') : Delivers target (f :: files) fs fs'' where
  toGrows := h.toGrows.trans h'.toGrows
  sameLinks := h.sameLinks.trans h'.sameLinks
  found := by
    refine List.forall_mem_cons.mpr ⟨?_, fun g hg => ?_⟩
    · obtain ⟨loc, mode, hlocate, hfile⟩ := h.found
      have hlocate' := h'.toGrows.locate_eq_ok hlocate
      by_cases hlater : ∃ g ∈ files, fs''.locate .target (g.pathIn target) = .ok loc
      · -- another file is put in its place
        obtain ⟨g, hg, hmeets⟩ := hlater
        obtain ⟨l, last, m, hl, hlast, hfile'⟩ := h'.found g hg
        obtain rfl : l = loc := Except.ok.inj (hl.symm.trans hmeets)
        exact ⟨l, last, m, hlocate', hlast.cons f, hfile'⟩
      · have hlater' (g : GeneratedFile) (hg : g ∈ files) :
            fs''.locate .target (g.pathIn target) ≠ .ok loc := fun heq => hlater ⟨g, hg, heq⟩
        exact ⟨loc, f, mode, hlocate', ⟨[], files, rfl, hlocate', hlater'⟩,
          h'.others loc mode _ hlater' hfile⟩
    · obtain ⟨loc, last, mode, hlocate, hlast, hfile⟩ := h'.found g hg
      exact ⟨loc, last, mode, hlocate, hlast.cons f, hfile⟩
  others loc mode before hother hfile := by
    obtain ⟨hfirst, hrest⟩ := List.forall_mem_cons.mp hother
    refine h'.others loc mode before hrest (h.others loc mode before (fun hlocate => ?_) hfile)
    exact hfirst (h'.toGrows.locate_eq_ok hlocate)

end Delivers

theorem writeGenerated_delivers {written : List Path} (hroot : s.fs.HasDirectory [])
    (hrun : writeGenerated target files s = (.ok written, s')) :
    written = files.map (·.pathIn target) ∧ Delivers target files s.fs s'.fs := by
  induction files generalizing s written with
  | nil =>
    rw [writeGenerated, List.mapM_nil] at hrun
    obtain ⟨rfl, rfl⟩ := eq_of_pure_run hrun
    exact ⟨rfl, .refl target _⟩
  | cons f files ih =>
    rw [writeGenerated, List.mapM_cons] at hrun
    obtain ⟨path, u, hfirst, hrun⟩ := exists_of_bind_run hrun
    obtain ⟨_, u', hwrite, hpath⟩ := exists_of_bind_run hfirst
    obtain ⟨rfl, rfl⟩ := eq_of_pure_run hpath
    obtain ⟨rest, w, hrest, hrun⟩ := exists_of_bind_run hrun
    obtain ⟨rfl, rfl⟩ := eq_of_pure_run hrun
    have hreceives := receives_of_writeText hroot hwrite
    obtain ⟨rfl, hdelivers⟩ := ih (hreceives.hasDirectory hroot) hrest
    exact ⟨rfl, .cons hreceives hdelivers⟩

/-! ## Paths that meet -/

/-- The place of the target holds no link under the name of one of the files. -/
def Unlinked (fs : FileSystem) (target : Path) (files : List GeneratedFile) : Prop :=
  fs.Anchored target ∧ ∃ goal, fs.MadeAt target goal ∧
    ∀ f ∈ files, ∀ link, fs.find? (goal ++ [Utf8.encode f.name]) ≠ some (.link link)

/-- Then each file is in the target under its name. -/
theorem Unlinked.exists_goal (h : Unlinked fs target files)
    (hnames : ∀ f ∈ files, '/' ∉ f.name ∧ Name.IsDown (Utf8.encode f.name)) (hgrows : Grows fs fs')
    (hlinks : SameLinks fs fs') : ∃ goal, ∀ f ∈ files, ∀ loc,
      fs'.locate .target (f.pathIn target) = .ok loc → loc = goal ++ [Utf8.encode f.name] := by
  obtain ⟨hanchored, goal, hgoal, hfree⟩ := h
  refine ⟨goal, fun f hf loc hlocate => ?_⟩
  obtain ⟨hslash, hdown⟩ := hnames f hf
  have hgoesOn : target.GoesOn [Utf8.encode f.name] (f.pathIn target) := .join_ofText target hslash hdown
  have hanchored' := hgrows.toKeeps.anchored (hanchored.of_isAbsolute_eq hgoesOn.isAbsolute_eq)
  have hreaches := (FileSystem.finds_of_locate hanchored' hlocate).reaches (by simp)
  exact (hlinks.symm.madeAt hreaches.madeAt).eq (hgoal.goesOn hgoesOn (.down trivial (hfree f hf) (.done _)))

/-- No two paths meet then. -/
theorem Unlinked.eq_of_locate (h : Unlinked fs target files)
    (hnames : ∀ f ∈ files, '/' ∉ f.name ∧ Name.IsDown (Utf8.encode f.name))
    (hdistinct : (files.map (·.name)).Nodup) (hgrows : Grows fs fs') (hlinks : SameLinks fs fs')
    (hf : f ∈ files) (hg : g ∈ files) (hflocate : fs'.locate .target (f.pathIn target) = .ok loc)
    (hglocate : fs'.locate .target (g.pathIn target) = .ok loc) : f = g := by
  obtain ⟨goal, hgoal⟩ := h.exists_goal hnames hgrows hlinks
  have hsame := (hgoal f hf loc hflocate).symm.trans (hgoal g hg loc hglocate)
  have hname : f.name = g.name := Utf8.encode_injective (List.cons.inj (List.append_cancel_left hsame)).1
  exact List.inj_on_of_nodup_map hdistinct hf hg hname

/-- The generated files have different contents. -/
theorem GeneratedFile.eq_of_contents_eq {style : PathStyle} {fragment : Text} (hf : f ∈ all style fragment)
    (hg : g ∈ all style fragment) (h : f.contents = g.contents) : f = g := by
  have hroutes : (routesModule style fragment).take 10 = "import \x7b F".toList := rfl
  have happ : app.take 10 = "import \x7b R".toList := rfl
  have hindex : index.take 10 = "import Rea".toList := rfl
  have htake : f.contents.take 10 = g.contents.take 10 := by rw [h]
  simp only [all, List.mem_cons, List.not_mem_nil, or_false] at hf hg
  rcases hf with rfl | rfl | rfl <;> rcases hg with rfl | rfl | rfl
  all_goals first
    | rfl
    | simp only [hroutes, happ, hindex] at htake
      exact absurd htake (by decide)

/-- **What is read where generated files were written.**  The paths that are reported are those of the
three files, in order.  Each leads to a file with the contents of the last of the three whose path leads
to the same place, and reading it gives these contents if the file may be read.  So a file is there as it
was generated exactly if it is the last at its place, which each of them is if the target holds no link
under the name of one. -/
theorem writeGenerated_reads {style : PathStyle} {fragment : Text} {written : List Path}
    (hroot : s.fs.HasDirectory [])
    (hrun : writeGenerated target (GeneratedFile.all style fragment) s = (.ok written, s')) :
    let files := GeneratedFile.all style fragment
    written = files.map (·.pathIn target) ∧
      ∀ f ∈ files, ∃ loc g mode, s'.fs.locate .target (f.pathIn target) = .ok loc ∧
        LastAt s'.fs target files loc g ∧
        s'.fs.lookup .target (f.pathIn target) = .ok (.file mode (Utf8.encode g.contents)) ∧
        s'.fs.readText (f.pathIn target) = (if mode.read = true then .ok g.contents else .error .denied) ∧
        (g.contents = f.contents ↔ LastAt s'.fs target files loc f) ∧
        (Unlinked s.fs target files → g = f) := by
  intro files
  obtain ⟨hwritten, hdelivers⟩ := writeGenerated_delivers hroot hrun
  obtain ⟨hnames, hdistinct⟩ := Migration.names_all style fragment
  refine ⟨hwritten, fun f hf => ?_⟩
  obtain ⟨loc, g, mode, hlocate, hlast, hfile⟩ := hdelivers.found f hf
  have hlookup := FileSystem.lookup_of_resolve (FileSystem.resolve_of_locate hlocate) hfile
  refine ⟨loc, g, mode, hlocate, hlast, hlookup, FileSystem.readText_of_lookup_file hlookup,
    ⟨fun hsame => ?_, fun hlast' => ?_⟩, fun hunlinked => ?_⟩
  · rwa [← GeneratedFile.eq_of_contents_eq hlast.mem hf hsame]
  · rw [hlast.eq hlast']
  · exact hunlinked.eq_of_locate hnames hdistinct hdelivers.toGrows hdelivers.sameLinks hlast.mem hf
      hlast.locate_eq hlocate

/-- The files of an empty table, written to `to`. -/
def writtenTo (fs : FileSystem) : Except Failure (List Path) × Session :=
  writeGenerated (.ofText "to") (GeneratedFile.all .relative "[]") (.fresh fs)

/-- What is reported of them. -/
def reportedFiles : List Path := [.ofText "to/routes.tsx", .ofText "to/app.tsx", .ofText "to/index.tsx"]

/-- A target that is a link to a directory, with one of the files in it already. -/
def renewedTarget : FileSystem where
  root := .directory .full [(Utf8.encode "to", .link (.ofText "build")),
    (Utf8.encode "build", .directory .full [(Utf8.encode "app.tsx", .file .plain [0x6F])])]
  current := .ofLocation []

theorem unlinked_renewedTarget : Unlinked renewedTarget (.ofText "to") (GeneratedFile.all .relative "[]") := by
  refine ⟨Or.inr rfl, [Utf8.encode "build"], .link trivial rfl (.down trivial ?_ (.done _)), ?_⟩
  · rintro link hlink
    cases hlink
  · simp only [GeneratedFile.all, List.forall_mem_cons, List.not_mem_nil, false_imp_iff, implies_true, and_true]
    refine ⟨fun link hlink => ?_, fun link hlink => ?_, fun link hlink => ?_⟩
    all_goals cases hlink

theorem writeGenerated_reads_renewedTarget :
    renewedTarget.HasDirectory [] ∧ (writtenTo renewedTarget).1 = .ok reportedFiles ∧
      ∀ f ∈ GeneratedFile.all .relative "[]", ∃ mode,
        (writtenTo renewedTarget).2.fs.lookup .target (f.pathIn (.ofText "to")) =
          .ok (.file mode (Utf8.encode f.contents)) := by
  have hroot : renewedTarget.HasDirectory [] := ⟨_, _, rfl⟩
  have hwritten : (writtenTo renewedTarget).1 = .ok reportedFiles := by rfl
  have hrun : writeGenerated (.ofText "to") (GeneratedFile.all .relative "[]") (.fresh renewedTarget) =
      (.ok reportedFiles, (writtenTo renewedTarget).2) := Prod.ext hwritten rfl
  refine ⟨hroot, hwritten, fun f hf => ?_⟩
  obtain ⟨-, g, mode, -, -, hlookup, -, -, hsame⟩ := (writeGenerated_reads hroot hrun).2 f hf
  rw [hsame unlinked_renewedTarget] at hlookup
  exact ⟨mode, hlookup⟩

/-- A target with a link from one of the files to another. -/
def linkedTarget : FileSystem where
  root := .directory .full [(Utf8.encode "to", .directory .full
    [(Utf8.encode "routes.tsx", .link (.ofText "app.tsx"))])]
  current := .ofLocation []

theorem writeGenerated_overwrites :
    linkedTarget.Valid ∧ (writtenTo linkedTarget).1 = .ok reportedFiles ∧
      (writtenTo linkedTarget).2.fs.readText (.ofText "to/routes.tsx") = .ok GeneratedFile.app ∧
      GeneratedFile.app ≠ GeneratedFile.routesModule .relative "[]" := by
  refine ⟨⟨by decide, _, _, rfl⟩, by rfl, ?_, ?_⟩
  all_goals decide +kernel

end FileRoutes
