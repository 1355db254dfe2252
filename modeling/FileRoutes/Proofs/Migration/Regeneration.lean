import FileRoutes.Proofs.FileSystem.Repetition
import FileRoutes.Proofs.FileSystem.Rewriting
import FileRoutes.Proofs.Migration.Failures

/-!
# Generating once more

Files that have been generated can be generated once more.  The second time nothing is missing above them,
and each of them is there and may be written, so each gets what it held after the first time.

## Undoing a copy

In between they may have got other contents, since a copy that is made once more overwrites them with files
of the same names from the source.  The file system then differs from what it was after the first time in
the contents of these files only, and generating them takes back one of the differences after the other
(`Stands.writeGenerated_again`).

Files that are generated keep the modes of the files that were there (`Refills`), so whoever could write a
file before can write it again.
-/

namespace FileRoutes

open FileSystem (Grows Sets SameLinks Rewritten)

variable {fs fs' fs'' : FileSystem} {s s' : Session}

/-! ## Files that keep their modes -/

namespace FileSystem

/-- Nothing is taken away, no link is made, and the tree stays valid. -/
structure Builds (fs fs' : FileSystem) : Prop extends Grows fs fs' where
  sameLinks : SameLinks fs fs'
  valid : fs.root.Valid → fs'.root.Valid

namespace Builds

theorem refl (fs : FileSystem) : Builds fs fs := ⟨.refl fs, .refl fs, id⟩

theorem trans (h : Builds fs fs') (h' : Builds fs' fs'') : Builds fs fs'' :=
  ⟨h.toGrows.trans h'.toGrows, h.sameLinks.trans h'.sameLinks, fun hvalid => h'.valid (h.valid hvalid)⟩

/-- The current directory does not go away. -/
theorem fileSystem_valid (h : Builds fs fs') (hfs : fs.Valid) : fs'.Valid where
  tree := h.valid hfs.tree
  current := by
    rw [h.current_eq]
    exact h.hasDirectory hfs.current

theorem linkFree (h : Builds fs fs') {p : Path} (hfree : fs.LinkFree p) : fs'.LinkFree p := by
  intro way hway link hlink
  rw [h.sameLinks.beginning_eq] at hlink
  exact hfree way hway link ((h.sameLinks.link_iff _ link).mp hlink)

end Builds

/-- A file that gets other contents keeps its mode. -/
structure Refills (fs fs' : FileSystem) : Prop extends Builds fs fs' where
  mode : ∀ loc mode contents, fs.find? loc = some (.file mode contents) →
    ∃ contents', fs'.find? loc = some (.file mode contents')

end FileSystem

open FileSystem (Builds Refills)
open Migration (AddsAbove GeneratedPart)

namespace FileSystem.Refills

theorem refl (fs : FileSystem) : Refills fs fs := ⟨.refl fs, fun _ _ contents h => ⟨contents, h⟩⟩

theorem trans (h : Refills fs fs') (h' : Refills fs' fs'') : Refills fs fs'' where
  toBuilds := h.toBuilds.trans h'.toBuilds
  mode loc mode contents hfile := by
    obtain ⟨contents', hfile'⟩ := h.mode loc mode contents hfile
    exact h'.mode loc mode contents' hfile'

/-- A file in place of nothing, or of a file with the same mode. -/
theorem of_sets {above : Location} {name : Name} {mode : Mode} {contents : Bytes}
    (h : Sets (above ++ [name]) (.file mode contents) fs fs') (hname : name.Ordinary)
    (hold : fs.find? (above ++ [name]) = none ∨
      ∃ before, fs.find? (above ++ [name]) = some (.file mode before)) : Refills fs fs' where
  toGrows := by
    rcases hold with hnone | ⟨before, hfile⟩
    · exact .of_sets hnone h
    · exact .of_sets_file hfile h
  sameLinks := h.shows.sameLinks (fun target heq => by cases heq) fun target hlink => by
    rcases hold with hnone | ⟨before, hfile⟩
    · rw [hnone] at hlink
      cases hlink
    · rw [hfile] at hlink
      cases hlink
  valid hvalid := by
    rw [h.eq]
    exact hvalid.put (.file mode contents) hname
  mode loc m c hfile := by
    by_cases heq : loc = above ++ [name]
    · subst heq
      rcases hold with hnone | ⟨before, hbefore⟩
      · rw [hnone] at hfile
        cases hfile
      · rw [hbefore] at hfile
        obtain ⟨rfl, -⟩ := Entry.file.inj (Option.some.inj hfile)
        exact ⟨contents, h.find?_self⟩
    · refine ⟨c, ?_⟩
      rw [← view_eq_file_iff, h.view_eq, if_neg heq, view_eq_file_iff]
      exact hfile

end FileSystem.Refills

/-! ## One file -/

/-- In whatever has grown from the file system the step gives the file these contents. -/
def Action.Renews (x : Action Unit) (loc : Location) (mode : Mode) (contents : Bytes) (fs : FileSystem) :
    Prop :=
  ∀ v before, Grows fs v → v.find? loc = some (.file mode before) →
    x.on v = (.ok (), v.put loc (.file mode contents))

/-- What is left to do when the directories above the file are there. -/
def writeContents (file : Path) (t : Text) : Action Unit := do
  Action.change (.writeFile file) (FileSystem.writeBytes file (Utf8.encode t))
  Action.tell .debug .output ("Successfully wrote " ++ Text.ofNat (Utf8.encode t).length
    ++ " bytes to " ++ file.text)

variable {file : Path} {t : Text}

theorem writeText_of_none (h : file.parent? = none) : writeText file t = (do
    Action.tell .debug .output ("Writing content to file: " ++ file.text)
    writeContents file t) := by
  rw [writeText, h]
  rfl

theorem writeText_of_some {above : Path} (h : file.parent? = some above) : writeText file t = (do
    Action.tell .debug .output ("Writing content to file: " ++ file.text)
    Action.change (.createDirectory above) (FileSystem.createDirectories above)
    writeContents file t) := by
  rw [writeText, h]
  rfl

theorem logless_writeContents (file : Path) (t : Text) : Action.Logless (writeContents file t) :=
  .bind (.change _ _) fun _ => .tell _ _ _

theorem writeContents_again (hroot : s.fs.HasDirectory []) (hrun : writeContents file t s = (.ok (), s')) :
    ∃ loc mode, FileSystem.Writes file (Utf8.encode t) loc mode s.fs s'.fs ∧
      (writeContents file t).Renews loc mode (Utf8.encode t) s'.fs := by
  obtain ⟨_, u, hchange, htell⟩ := exists_of_bind_run hrun
  obtain ⟨loc, mode, hwrites⟩ :=
    (FileSystem.writeBytes_writes hroot (Utf8.encode t)).ok_of_run (Action.change_run hchange)
  rw [Action.tell_run htell]
  refine ⟨loc, mode, hwrites, fun v before hv hbefore => ?_⟩
  have hroot' : v.HasDirectory [] := hv.hasDirectory (hwrites.grows.hasDirectory hroot)
  have hresolve := hv.resolve_again (FileSystem.fills_entry v loc) hwrites.resolve_eq
  rw [writeContents, Action.on_bind_of_ok (fun _ => .tell _ _ _) (Action.on_change_of_ok
    (FileSystem.writeBytes_eq_ok hroot' hresolve hbefore hwrites.writable _))]
  exact Action.on_tell _ _ _ _

/-- A text that has been written can be written once more, over whatever the file holds by then. -/
theorem writeText_again (hroot : s.fs.HasDirectory []) (hanchored : s.fs.Anchored file)
    (hrun : writeText file t s = (.ok (), s')) :
    ∃ between loc mode, AddsAbove file s.fs between ∧
      FileSystem.Writes file (Utf8.encode t) loc mode between s'.fs ∧
      (writeText file t).Renews loc mode (Utf8.encode t) s'.fs := by
  cases hparent : file.parent? with
  | none =>
    rw [writeText_of_none hparent] at hrun ⊢
    obtain ⟨_, u, htell, hrun⟩ := exists_of_bind_run hrun
    rw [← Action.tell_run htell] at hroot ⊢
    obtain ⟨loc, mode, hwrites, hagain⟩ := writeContents_again hroot hrun
    refine ⟨u.fs, loc, mode, Or.inl rfl, hwrites, fun v before hv hbefore => ?_⟩
    rw [Action.on_bind_of_ok (fun _ => logless_writeContents _ _) (Action.on_tell _ _ _ v)]
    exact hagain v before hv hbefore
  | some above =>
    rw [writeText_of_some hparent] at hrun ⊢
    obtain ⟨_, u, htell, hrun⟩ := exists_of_bind_run hrun
    obtain ⟨_, w, hcreate, hrun⟩ := exists_of_bind_run hrun
    rw [← Action.tell_run htell] at hroot hanchored ⊢
    have hcreate' := Action.change_run hcreate
    obtain ⟨hadds, -⟩ := FileSystem.createDirectories_adds.ok_of_run hcreate'
    obtain ⟨loc, mode, hwrites, hagain⟩ := writeContents_again (hadds.grows.hasDirectory hroot) hrun
    have hanchored' : w.fs.Anchored above :=
      (hadds.grows.toKeeps.anchored hanchored).of_isAbsolute_eq (Path.moves_parent? hparent).1
    refine ⟨w.fs, loc, mode, Or.inr ⟨above, hparent, hadds⟩, hwrites, fun v before hv hbefore => ?_⟩
    have hthere := FileSystem.createDirectories_again hcreate' hanchored' (hwrites.grows.trans hv)
    rw [Action.on_bind_of_ok (fun _ => .bind (.change _ _) fun _ => logless_writeContents _ _)
      (Action.on_tell _ _ _ v), Action.on_bind_of_ok (fun _ => logless_writeContents _ _)
      (Action.on_change_of_ok hthere)]
    exact hagain v before hv hbefore

/-! ## The target -/

variable {target : Path} {goal : Location}

/-- Where the file is written there was nothing, or a file with the same mode. -/
theorem Migration.AddsAbove.old {between : FileSystem} {contents : Bytes} {loc : Location} {mode : Mode}
    (h : AddsAbove file fs between) (hwrites : FileSystem.Writes file contents loc mode between fs') :
    fs.find? loc = none ∨ ∃ before, fs.find? loc = some (.file mode before) := by
  have hview : between.view loc = fs.view loc ∨ fs.view loc = none := by
    rcases h with rfl | ⟨above, -, hadds⟩
    · exact Or.inl rfl
    · exact (hadds.view_eq loc).imp_right And.left
  rcases hview with hsame | hnone
  · rcases hwrites.old with ⟨before, hbefore⟩ | ⟨hnone, -⟩
    · refine Or.inr ⟨before, ?_⟩
      rw [← FileSystem.view_eq_file_iff, ← hsame, FileSystem.view_eq_file_iff]
      exact hbefore
    · refine Or.inl ?_
      rw [← FileSystem.view_eq_none_iff, ← hsame, FileSystem.view_eq_none_iff]
      exact hnone
  · exact Or.inl (FileSystem.view_eq_none_iff.mp hnone)

/-- A file that has been written into the target can be written there once more. -/
theorem Stands.writeText_again {name : Text} (h : Stands s.fs target goal) (hname : '/' ∉ name)
    (hordinary : Name.Ordinary (Utf8.encode name))
    (hlink : ∀ link, s.fs.find? (goal ++ [Utf8.encode name]) ≠ some (.link link))
    (hrun : writeText (target.join (Path.ofText name)) t s = (.ok (), s')) :
    Refills s.fs s'.fs ∧ ∃ mode, s'.fs.find? (goal ++ [Utf8.encode name]) = some (.file mode (Utf8.encode t)) ∧
      (writeText (target.join (Path.ofText name)) t).Renews (goal ++ [Utf8.encode name]) mode (Utf8.encode t)
        s'.fs := by
  obtain ⟨m, hsets⟩ := (h.writeText_ends t hname hordinary.isDown hlink).ok_of_run hrun
  have hgoesOn : target.GoesOn [Utf8.encode name] (target.join (Path.ofText name)) :=
    .join_ofText target hname hordinary.isDown
  obtain ⟨between, loc, mode, hadds, hwrites, hagain⟩ := FileRoutes.writeText_again
    (h.current.above List.nil_prefix) (h.anchored.of_isAbsolute_eq hgoesOn.isAbsolute_eq) hrun
  -- the path leads into the target still
  have hkeeps := (hsets.shows.touches fun link heq => absurd heq (hlink link)).keeps
  have hlinks : SameLinks s.fs s'.fs := hsets.shows.sameLinks (fun link heq => by cases heq) hlink
  have hreaches := FileSystem.reaches_of_resolve
    (hkeeps.anchored (h.anchored.of_isAbsolute_eq hgoesOn.isAbsolute_eq)) (by simp) hwrites.resolve_eq
  obtain rfl := (hlinks.symm.madeAt hreaches.madeAt).eq
    (h.madeAt.goesOn hgoesOn (.down trivial hlink (.done _)))
  have hfile := hwrites.sets.find?_self
  obtain ⟨rfl, -⟩ := Entry.file.inj (Option.some.inj (hsets.find?_self.symm.trans hfile))
  exact ⟨.of_sets hsets hordinary (hadds.old hwrites), m, hfile, hagain⟩

theorem generatedPart_iff_cons {f : GeneratedFile} {files : List GeneratedFile} {loc : Location}
    (hloc : loc ≠ goal ++ [Utf8.encode f.name]) :
    GeneratedPart goal files loc ↔ GeneratedPart goal (f :: files) loc := by
  constructor
  · rintro ⟨g, hg, heq⟩
    exact ⟨g, List.mem_cons_of_mem f hg, heq⟩
  · rintro ⟨g, hg, heq⟩
    rcases List.mem_cons.mp hg with rfl | hg
    · exact absurd heq hloc
    · exact ⟨g, hg, heq⟩

/-- Files that have been written into the target keep their modes, and writing them once more restores all
that they held. -/
theorem Stands.writeGenerated_again {files : List GeneratedFile} (h : Stands s.fs target goal)
    (hnames : ∀ f ∈ files, '/' ∉ f.name ∧ Name.Ordinary (Utf8.encode f.name))
    (hdistinct : (files.map (·.name)).Nodup)
    (hlinks : ∀ f ∈ files, ∀ link, s.fs.find? (goal ++ [Utf8.encode f.name]) ≠ some (.link link))
    {written : List Path} (hrun : writeGenerated target files s = (.ok written, s')) :
    Refills s.fs s'.fs ∧ (s'.fs.root.Valid → ∀ v, Rewritten (GeneratedPart goal files) s'.fs v →
      (writeGenerated target files).on v = (.ok written, s'.fs)) := by
  induction files generalizing s written with
  | nil =>
    rw [writeGenerated, List.mapM_nil] at hrun ⊢
    obtain ⟨rfl, rfl⟩ := eq_of_pure_run hrun
    refine ⟨.refl _, fun hvalid v hv => ?_⟩
    rw [hv.eq hvalid (by simp [GeneratedPart])]
    rfl
  | cons f files ih =>
    obtain ⟨hslash, hordinary⟩ := hnames f List.mem_cons_self
    obtain ⟨hfresh, hdistinct⟩ := List.nodup_cons.mp (List.map_cons ▸ hdistinct)
    rw [writeGenerated, List.mapM_cons] at hrun ⊢
    obtain ⟨path, u, hfirst, hrun⟩ := exists_of_bind_run hrun
    obtain ⟨_, u', hwrite, hpath⟩ := exists_of_bind_run hfirst
    obtain ⟨rfl, rfl⟩ := eq_of_pure_run hpath
    obtain ⟨rest, w, hrest, hrun⟩ := exists_of_bind_run hrun
    obtain ⟨rfl, rfl⟩ := eq_of_pure_run hrun
    obtain ⟨hrefills, mode, hfile, hrenews⟩ :=
      h.writeText_again hslash hordinary (hlinks f List.mem_cons_self) hwrite
    have hstands := h.of_keeps hrefills.toKeeps hrefills.sameLinks
    have hnames' (g : GeneratedFile) (hg : g ∈ files) := hnames g (List.mem_cons_of_mem f hg)
    have hlinks' (g : GeneratedFile) (hg : g ∈ files) (link : Path) :
        u'.fs.find? (goal ++ [Utf8.encode g.name]) ≠ some (.link link) := fun heq =>
      hlinks g (List.mem_cons_of_mem f hg) link ((hrefills.sameLinks.link_iff _ link).mp heq)
    obtain ⟨hlater, hagain⟩ := ih hstands hnames' hdistinct hlinks' hrest
    -- the later files have other names
    have hother : ¬ GeneratedPart goal files (goal ++ [Utf8.encode f.name]) := by
      rintro ⟨g, hg, heq⟩
      have hsame : f.name = g.name := Utf8.encode_injective (List.cons.inj (List.append_cancel_left heq)).1
      exact hfresh (hsame ▸ List.mem_map_of_mem hg)
    obtain ⟨halters, -⟩ := (hstands.writeGenerated_ends (fun g hg => (hnames' g hg).imp_right (·.isDown))
      hdistinct hlinks').ok_of_run hrest
    have hkept : w.fs.find? (goal ++ [Utf8.encode f.name]) = some (.file mode (Utf8.encode f.contents)) := by
      rw [← FileSystem.view_eq_file_iff, halters.view_eq _ fun hpart => hother hpart.1,
        FileSystem.view_eq_file_iff]
      exact hfile
    refine ⟨hrefills.trans hlater, fun hvalid v hv => ?_⟩
    obtain ⟨m, contents, before, hthere, hbefore⟩ := hv.file _ ⟨f, List.mem_cons_self, rfl⟩
    rw [hkept] at hthere
    obtain ⟨rfl, -⟩ := Entry.file.inj (Option.some.inj hthere)
    have hroot : v.HasDirectory [] :=
      hv.grows.hasDirectory (hlater.hasDirectory (hstands.current.above List.nil_prefix))
    have hwritten := hrenews v before (hlater.toGrows.trans hv.grows) hbefore
    have hv' : Rewritten (GeneratedPart goal files) w.fs
        (v.put (goal ++ [Utf8.encode f.name]) (.file mode (Utf8.encode f.contents))) :=
      hv.put hroot hbefore (fun _ => generatedPart_iff_cons) (Or.inr hkept)
    refine (Action.on_bind_of_ok (fun _ => .bind (Action.pervades_logless.writeGenerated target files) fun _ => .pure _)
      (Action.on_bind_of_ok (fun _ => .pure _) hwritten)).trans ?_
    exact Action.on_bind_of_ok (fun _ => .pure _) (hagain hvalid _ hv')

/-! ## The stage -/

namespace Migration

variable {a : Arguments Path} {c : Compilation}

/-- Generated files keep their modes, and generating them once more restores all that they held. -/
theorem generate_again (hwrites : a.isDryRun = false) (h : Stands s.fs a.target goal)
    (hlinks : ∀ name ∈ generatedNames, ∀ link,
      s.fs.find? (goal ++ [Utf8.encode name]) ≠ some (.link link))
    (hrun : generate a c s = (.ok (), s')) :
    Refills s.fs s'.fs ∧ (s'.fs.root.Valid →
      ∀ v, Rewritten (GeneratedPart goal (GeneratedFile.all a.style c.fragment)) s'.fs v →
        (generate a c).on v = (.ok (), s'.fs)) := by
  obtain ⟨hnames, hdistinct⟩ := names_all a.style c.fragment
  have hordinary : ∀ name ∈ generatedNames, Name.Ordinary (Utf8.encode name) := by decide
  have hmem (f : GeneratedFile) (hf : f ∈ GeneratedFile.all a.style c.fragment) :
      f.name ∈ generatedNames := List.mem_map_of_mem (f := GeneratedFile.name) hf
  rw [generate_of_writes hwrites] at hrun ⊢
  obtain ⟨_, t, htell, hrun⟩ := exists_of_bind_run hrun
  obtain ⟨written, u, hgenerated, hrun⟩ := exists_of_bind_run hrun
  rw [← Action.tell_run htell] at h hlinks ⊢
  obtain ⟨hrefills, hagain⟩ := h.writeGenerated_again
    (fun f hf => ⟨(hnames f hf).1, hordinary _ (hmem f hf)⟩) hdistinct
    (fun f hf => hlinks _ (hmem f hf)) hgenerated
  rw [((quiet_report a c written).of_run hrun).1]
  refine ⟨hrefills, fun hvalid v hv => ?_⟩
  rw [Action.on_bind_of_ok (fun _ => .bind (Action.pervades_logless.writeGenerated _ _) fun _ => logless_report a c _)
    (Action.on_tell _ _ _ v), Action.on_bind_of_ok (fun _ => logless_report a c _) (hagain hvalid v hv)]
  rfl

end Migration

end FileRoutes
