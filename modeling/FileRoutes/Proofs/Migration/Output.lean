import FileRoutes.Migration.Output
import FileRoutes.Proofs.Migration.Overlay
import FileRoutes.Proofs.Text.Utf8

/-!
# What is written

Writing a text makes the directories missing above the file, and then puts a file with the text where
the path leads (`writeText_ends`).

Generated files are written into a target that is there (`Stands`), so nothing but the files themselves
is touched, and one does not disturb another (`writeGenerated_ends`).  What is asked is that no link has
the name of one of them: it would be followed.
-/

namespace FileRoutes

open FileSystem (Alters Makes Sets)

section Session

variable {s s' : Session}

/-! ## One file -/

/-- What is passed on the way to the directory of a file. -/
def AbovePassed (fs : FileSystem) (file : Path) (loc : Location) : Prop :=
  ∃ above, file.parent? = some above ∧ fs.Passes above loc

theorem writeText_ends {file : Path} (t : Text) (hcurrent : s.fs.HasDirectory s.fs.current.location)
    (hanchored : s.fs.Anchored file) :
    Ends (writeText file t) s
      (fun _ u => ∃ between loc mode, Makes (AbovePassed s.fs file) s.fs between ∧
        between.Reaches file loc ∧ between.Takes .file loc ∧
        Sets loc (.file mode (Utf8.encode t)) between u.fs)
      (fun u => Makes (AbovePassed s.fs file) s.fs u.fs) := by
  have hwrite {u : Session} (hmakes : Makes (AbovePassed s.fs file) s.fs u.fs) (message : Text) :
      Ends (do
        Action.change (.writeFile file) (FileSystem.writeBytes file (Utf8.encode t))
        Action.tell .debug .output message) u
        (fun _ u => ∃ between loc mode, Makes (AbovePassed s.fs file) s.fs between ∧
          between.Reaches file loc ∧ between.Takes .file loc ∧
          Sets loc (.file mode (Utf8.encode t)) between u.fs)
        (fun u => Makes (AbovePassed s.fs file) s.fs u.fs) := by
    have hkeeps := hmakes.touches.keeps
    have hroot : u.fs.HasDirectory [] := (hkeeps.hasDirectory hcurrent).above List.nil_prefix
    refine .bind ((Action.ends_change (FileSystem.writeBytes_ends hroot (hkeeps.anchored hanchored)
      _)).mono (fun _ v ⟨loc, mode, hreaches, htakes, hsets⟩ => Action.ends_tell fun w hw => ?_)
      fun v hv => ?_)
    · exact ⟨u.fs, loc, mode, hmakes, hreaches, htakes, hw ▸ hsets⟩
    · rwa [hv]
  rw [writeText]
  refine .bind (Action.ends_tell fun u hu => ?_)
  rw [← hu] at hcurrent hanchored hwrite ⊢
  cases hparent : file.parent? with
  | none => exact hwrite (.refl _ _) _
  | some above =>
    have hmakes {v : FileSystem} (h : Makes (u.fs.Passes above) u.fs v) :
        Makes (AbovePassed u.fs file) u.fs v := h.mono fun l hl _ => ⟨above, hparent, hl⟩
    refine .bind ((Action.ends_change (FileSystem.createDirectories_ends hcurrent ?_)).mono
      (fun _ v ⟨hmade, _⟩ => hwrite (hmakes hmade) _) fun v hmade => hmakes hmade)
    exact hanchored.of_isAbsolute_eq (Path.moves_parent? hparent).1

/-- Nothing is written by a path that starts in a removed directory. -/
theorem anchored_of_writeText {file : Path} {t : Text} (hdown : Step.up ∉ file.moves)
    (hrun : writeText file t s = (.ok (), s')) : s.fs.Anchored file := by
  have hwritten {v w : Session} (hv : v.fs.current = s.fs.current)
      (hchange : Action.change (.writeFile file) (FileSystem.writeBytes file (Utf8.encode t)) v =
        (.ok (), w)) : s.fs.Anchored file := by
    have hafter := FileSystem.anchored_of_writeBytes hdown (Action.change_run hchange)
    rwa [FileSystem.Anchored, hv] at hafter
  rw [writeText] at hrun
  obtain ⟨_, u, htell, hrun⟩ := exists_of_bind_run hrun
  have hfs := Action.tell_run htell
  cases hparent : file.parent? with
  | none =>
    simp only [hparent] at hrun
    obtain ⟨_, v, hchange, -⟩ := exists_of_bind_run hrun
    exact hwritten (by rw [hfs]) hchange
  | some above =>
    simp only [hparent] at hrun
    obtain ⟨_, v, hcreate, hrun⟩ := exists_of_bind_run hrun
    obtain ⟨_, w, hchange, -⟩ := exists_of_bind_run hrun
    refine hwritten ?_ hchange
    have hkeeps := FileSystem.KeepsCurrent.of_createChain above.ancestors u.fs
    rwa [← FileSystem.createDirectories, Action.change_run hcreate, hfs] at hkeeps

/-- A file is written to a path that meets no link. -/
theorem writeText_run {file : Path} {t : Text} (hcurrent : s.fs.HasDirectory s.fs.current.location)
    (hfree : s.fs.LinkFree file) (hdown : Step.up ∉ file.moves)
    (hrun : writeText file t s = (.ok (), s')) :
    Alters (fun l => l <+: s.fs.spelled file ∧ (l = s.fs.spelled file ∨ s.fs.find? l = none))
        s.fs s'.fs ∧
      ∃ mode, s'.fs.find? (s.fs.spelled file) = some (.file mode (Utf8.encode t)) := by
  obtain ⟨between, loc, mode, hmakes, hreaches, -, hsets⟩ :=
    (writeText_ends t hcurrent (anchored_of_writeText hdown hrun)).ok_of_run hrun
  obtain rfl := (hmakes.sameLinks.symm.madeAt hreaches.madeAt).eq hfree.madeAt
  refine ⟨(hmakes.alters.mono ?_).trans ((hsets.alters fun link heq => by cases heq).mono ?_), mode,
    hsets.find?_self⟩
  · rintro l ⟨⟨above, hparent, hl⟩, hnone⟩
    obtain ⟨habsolute, hinitial⟩ := Path.moves_parent? hparent
    have hmoves := hinitial.trans file.initialMoves_prefix
    refine ⟨FileSystem.prefix_of_passes hfree hdown (hl.mono habsolute hmoves), Or.inr hnone⟩
  · rintro l rfl
    exact ⟨List.prefix_refl _, Or.inl rfl⟩

/-! ## A target that is there -/

/-- The directory that the target leads to is there, and so is all that is passed on the way. -/
structure Stands (fs : FileSystem) (target : Path) (goal : Location) : Prop where
  current : fs.HasDirectory fs.current.location
  anchored : fs.Anchored target
  madeAt : fs.MadeAt target goal
  directory : fs.HasDirectory goal
  occupied : ∀ l, fs.Passes target l → fs.HasDirectory l

variable {target : Path} {goal : Location}

theorem Stands.of_keeps {fs fs' : FileSystem} (h : Stands fs target goal)
    (hkeeps : FileSystem.Keeps fs fs') (hlinks : FileSystem.SameLinks fs fs') :
    Stands fs' target goal where
  current := by
    rw [hkeeps.current_eq]
    exact hkeeps.hasDirectory h.current
  anchored := hkeeps.anchored h.anchored
  madeAt := hlinks.madeAt h.madeAt
  directory := hkeeps.hasDirectory h.directory
  occupied l hl := hkeeps.hasDirectory (h.occupied l (hlinks.passes_iff.mp hl))

/-- A target that is found by its path stands. -/
theorem Stands.of_reaches {fs : FileSystem} (hcurrent : fs.HasDirectory fs.current.location)
    (hanchored : fs.Anchored target) (hreaches : fs.Reaches target goal)
    (hdirectory : fs.HasDirectory goal) : Stands fs target goal where
  current := hcurrent
  anchored := hanchored
  madeAt := hreaches.madeAt
  directory := hdirectory
  occupied l hl := by
    obtain ⟨way, hprefix, hway⟩ := hl
    exact hreaches.hasDirectory_of_prefix hdirectory hprefix hway

/-- So does the target of a copy. -/
theorem Copy.Completed.stands {fs fs' : FileSystem} {source : Path} {origin : Location}
    {totals : CopyTotals} (h : Copy.Completed source target origin goal fs fs' totals) :
    Stands fs' target goal := by
  obtain ⟨between, -, -, hcourse, hcopied⟩ := h.between
  have hcourse' := hcourse.copied hcopied
  exact .of_reaches hcourse'.current hcourse'.targetAnchored hcourse'.targetReaches
    hcourse'.targetDirectory

/-- So does one that meets no link and only moves down. -/
theorem Stands.of_linkFree {fs : FileSystem} (hcurrent : fs.HasDirectory fs.current.location)
    (hanchored : fs.Anchored target) (hfree : fs.LinkFree target) (hdown : Step.up ∉ target.moves)
    (hdirectory : fs.HasDirectory (fs.spelled target)) : Stands fs target (fs.spelled target) where
  current := hcurrent
  anchored := hanchored
  madeAt := hfree.madeAt
  directory := hdirectory
  occupied _ hl := hdirectory.above (FileSystem.prefix_of_passes hfree hdown hl)

/-- A name without a slash is a path of one segment. -/
theorem Path.ofText_of_slash_notMem {t : Text} (h : '/' ∉ t) :
    Path.ofText t = .ofNames [Utf8.encode t] :=
  Path.ofBytes_of_slash_notMem fun hslash => h ((Utf8.mem_encode_iff (by decide)).mp hslash)

/-- A name without a slash behind a path goes on from it. -/
theorem Path.GoesOn.join_ofText (p : Path) {t : Text} (h : '/' ∉ t) (hdown : Name.IsDown (Utf8.encode t)) :
    p.GoesOn [Utf8.encode t] (p.join (Path.ofText t)) := by
  rw [Path.ofText_of_slash_notMem h]
  exact .join p (by simpa using hdown)

/-- Nothing but the file is touched where its path leads, be it through a link. -/
theorem Stands.writeText_puts {name : Text} (h : Stands s.fs target goal) (t : Text)
    (hname : '/' ∉ name) (hdown : Name.IsDown (Utf8.encode name)) :
    Ends (writeText (target.join (Path.ofText name)) t) s
      (fun _ u => ∃ loc mode, s.fs.Reaches (target.join (Path.ofText name)) loc ∧ s.fs.Takes .file loc ∧
        Sets loc (.file mode (Utf8.encode t)) s.fs u.fs)
      (fun u => u.fs = s.fs) := by
  have hgoesOn : target.GoesOn [Utf8.encode name] (target.join (Path.ofText name)) :=
    .join_ofText target hname hdown
  have hlast : (target.join (Path.ofText name)).last.IsDown := by
    rw [Path.last_join, Path.ofText_of_slash_notMem hname]
    exact hdown
  have hinitial : (target.join (Path.ofText name)).initialMoves = target.moves := by
    have hmoves := hgoesOn.moves_eq
    rw [Path.moves_of_isDown hlast] at hmoves
    exact (List.append_inj' hmoves rfl).1
  -- the directories above the file are all there
  have hnothing {fs : FileSystem}
      (hmakes : Makes (AbovePassed s.fs (target.join (Path.ofText name))) s.fs fs) : fs = s.fs := by
    refine hmakes.eq_of_occupied fun l hl hnone => ?_
    obtain ⟨above, hparent, hl⟩ := hl
    obtain ⟨habsolute, hmoves⟩ := Path.moves_parent? hparent
    rw [hinitial] at hmoves
    exact FileSystem.not_hasDirectory_of_none hnone
      (h.occupied l (hl.mono (habsolute.trans hgoesOn.isAbsolute_eq) hmoves))
  refine (FileRoutes.writeText_ends t h.current
    (h.anchored.of_isAbsolute_eq hgoesOn.isAbsolute_eq)).mono (fun _ u hu => ?_) fun u => hnothing
  obtain ⟨between, loc, mode, hmakes, hreaches, htakes, hsets⟩ := hu
  obtain rfl := hnothing hmakes
  exact ⟨loc, mode, hreaches, htakes, hsets⟩

/-- A file that is written into the target touches nothing else. -/
theorem Stands.writeText_ends {name : Text} (h : Stands s.fs target goal) (t : Text)
    (hname : '/' ∉ name) (hdown : Name.IsDown (Utf8.encode name))
    (hlink : ∀ link, s.fs.find? (goal ++ [Utf8.encode name]) ≠ some (.link link)) :
    Ends (writeText (target.join (Path.ofText name)) t) s
      (fun _ u => ∃ mode, Sets (goal ++ [Utf8.encode name]) (.file mode (Utf8.encode t)) s.fs u.fs)
      (fun u => u.fs = s.fs) := by
  refine (h.writeText_puts t hname hdown).mono (fun _ u hu => ?_) fun _ => id
  obtain ⟨loc, mode, hreaches, -, hsets⟩ := hu
  have hmadeAt := h.madeAt.goesOn (.join_ofText target hname hdown) (.down trivial hlink (.done _))
  obtain rfl := hreaches.eq hmadeAt
  exact ⟨mode, hsets⟩

/-- The target still stands when a file is put where there is no link. -/
theorem Stands.of_sets_file {fs fs' : FileSystem} {loc : Location} {mode : Mode} {contents : Bytes}
    (h : Stands fs target goal) (hlink : ∀ link, fs.find? loc ≠ some (.link link))
    (hsets : Sets loc (.file mode contents) fs fs') : Stands fs' target goal :=
  h.of_keeps (hsets.shows.touches fun link heq => absurd heq (hlink link)).keeps
    (hsets.shows.sameLinks (fun link heq => by cases heq) hlink)

/-! ## Several files -/

/-- What the generated files touch. -/
def Migration.GeneratedPart (goal : Location) (files : List GeneratedFile) (loc : Location) : Prop :=
  ∃ file ∈ files, loc = goal ++ [Utf8.encode file.name]

open Migration (GeneratedPart)

/-- Files that are written into the target touch nothing else, and no directory, also if one of them
fails. -/
theorem Stands.writeGenerated_ends {files : List GeneratedFile} (h : Stands s.fs target goal)
    (hnames : ∀ f ∈ files, '/' ∉ f.name ∧ Name.IsDown (Utf8.encode f.name))
    (hdistinct : (files.map (·.name)).Nodup)
    (hlinks : ∀ f ∈ files, ∀ link, s.fs.find? (goal ++ [Utf8.encode f.name]) ≠ some (.link link)) :
    Ends (writeGenerated target files) s
      (fun _ u => Alters (fun l => GeneratedPart goal files l ∧ ¬ s.fs.HasDirectory l) s.fs u.fs ∧
        ∀ f ∈ files, ∃ mode, u.fs.find? (goal ++ [Utf8.encode f.name]) =
          some (.file mode (Utf8.encode f.contents)))
      (fun u => Alters (fun l => GeneratedPart goal files l ∧ ¬ s.fs.HasDirectory l) s.fs u.fs) := by
  induction files generalizing s with
  | nil =>
    rw [writeGenerated, List.mapM_nil]
    exact .pure ⟨.refl _ _, by simp⟩
  | cons f files ih =>
    rw [writeGenerated, List.mapM_cons]
    obtain ⟨hslash, hdown⟩ := hnames f List.mem_cons_self
    obtain ⟨hfresh, hdistinct⟩ := List.nodup_cons.mp (List.map_cons ▸ hdistinct)
    have hlink := hlinks f List.mem_cons_self
    refine .bind (.bind ((h.writeText_ends f.contents hslash hdown hlink).mono
      (fun _ t ⟨mode, hsets⟩ => .pure ?_) fun t ht => ht ▸ .refl _ _))
    have hfile : ∀ link, Entry.file mode (Utf8.encode f.contents) ≠ .link link :=
      fun link heq => by cases heq
    have halters := hsets.alters hfile
    have hlater {u : Session}
        (hu : Alters (fun l => GeneratedPart goal files l ∧ ¬ t.fs.HasDirectory l) t.fs u.fs) :
        Alters (fun l => GeneratedPart goal (f :: files) l ∧ ¬ s.fs.HasDirectory l) s.fs u.fs := by
      refine (halters.mono ?_).trans (hu.mono ?_)
      · rintro l rfl
        exact ⟨⟨f, List.mem_cons_self, rfl⟩, hsets.free⟩
      · rintro l ⟨⟨g, hg, hl⟩, hfree⟩
        exact ⟨⟨g, List.mem_cons_of_mem f hg, hl⟩, fun hl => hfree (halters.hasDirectory hl)⟩
    have hstands : Stands t.fs target goal := h.of_sets_file hlink hsets
    refine .bind ((ih hstands (fun g hg => hnames g (List.mem_cons_of_mem f hg)) hdistinct
      fun g hg link heq => hlinks g (List.mem_cons_of_mem f hg) link (halters.link _ _ heq)).mono
      (fun _ u ⟨hu, hfiles⟩ => .pure ⟨hlater hu, fun g hg => ?_⟩) fun u => hlater)
    rcases List.mem_cons.mp hg with rfl | hg
    · -- the later files have other names
      refine ⟨mode, ?_⟩
      rw [← FileSystem.view_eq_file_iff, hu.view_eq _ ?_, FileSystem.view_eq_file_iff]
      · exact hsets.find?_self
      · rintro ⟨⟨g', hg', heq⟩, -⟩
        have hsame : g.name = g'.name :=
          Utf8.encode_injective (List.cons.inj (List.append_cancel_left heq)).1
        exact hfresh (hsame ▸ List.mem_map_of_mem hg')
    · exact hfiles g hg

end Session

end FileRoutes
