import FileRoutes.Proofs.FileSystem.Atomicity
import FileRoutes.Proofs.Migration.Separate

/-!
# A copy that fails

A copy may fail at any entry, for a lack of permission, because something is in the way, or because the
system does not take a name.  What it leaves is never worse than a part of the copy (`copyTree_halts`): a
place of the target looks as it did or holds the entry of the source, and nothing else has changed but for
directories that were missing above the target.

## Halting between two entries

Each step of the walk either does all of its work or none of it, so a walk that fails has copied some of
the entries and nothing else (`Halted`).  This is carried through the walk by an induction of its own,
which takes what the successful steps do from `copyTurn_ends`.

The step to be looked at is where a link replaces another entry, which is removed first.  The link can
always be made afterwards, as long as it holds what a link can hold and there is no link on the way to it
(`Clean`).
-/

namespace FileRoutes.Copy

open FileSystem (Makes Holdable)

variable {fs fs' : FileSystem} {source target : Path} {origin goal : Location}
  {names init : List Name} {name : Name} {s : Session}

/-! ## What the walk relies on -/

/-- The links of the source can be made, and where they are still to be made there is no link yet. -/
structure Clean (fs : FileSystem) (origin goal : Location) (names : List Name) : Prop where
  holdable : ∀ below link, fs.find? (origin ++ below) = some (.link link) → Holdable link
  noLink : ∀ below link, fs.find? (goal ++ (names ++ below)) ≠ some (.link link)

namespace Clean

theorem inside (h : Clean fs origin goal names) (name : Name) : Clean fs origin goal (names ++ [name]) where
  holdable := h.holdable
  noLink below link := by
    rw [List.append_assoc]
    exact h.noLink ([name] ++ below) link

/-- What has been copied elsewhere does not matter. -/
theorem copied {part : List Name → Prop} (h : Clean fs origin goal names)
    (hc : Copied origin goal part fs fs')
    (hpart : ∀ below, part (names ++ below) → ∀ link,
      fs'.find? (goal ++ (names ++ below)) ≠ some (.link link)) : Clean fs' origin goal names where
  holdable below link hlink := h.holdable below link (hc.find?_source below ▸ hlink)
  noLink below link hlink := by
    by_cases hbelow : part (names ++ below)
    · exact hpart below hbelow link hlink
    · rw [← FileSystem.view_eq_link_iff, hc.view_of_not_part hbelow, FileSystem.view_eq_link_iff] at hlink
      exact h.noLink below link hlink

end Clean

/-- A failure that left some of the entries copied and everything else as it was. -/
def Halted (origin goal : Location) (fs : FileSystem) (t : Session) : Prop :=
  ∃ part, Copied origin goal part fs t.fs

theorem Halted.of_eq {t : Session} (h : t.fs = fs) : Halted origin goal fs t := by
  subst h
  exact ⟨_, .none t.fs⟩

theorem Halted.of_copied {part : List Name → Prop} {t u : Session} (hc : Copied origin goal part fs t.fs)
    (h : Halted origin goal t.fs u) : Halted origin goal fs u := by
  obtain ⟨part', hc'⟩ := h
  exact ⟨_, hc.trans hc'⟩

/-! ## One entry -/

/-- On the way to the destination of an entry there are directories. -/
theorem Course.hasDirectory_of_way (h : Course fs source target origin goal)
    (habove : fs.HasDirectory (goal ++ init)) {way : List Step} {l : Location}
    (hway : way <+: target.moves ++ init.map .down) (hl : fs.FreeWay (fs.beginning target) way l) :
    fs.HasDirectory l := by
  rcases List.prefix_or_prefix_of_prefix hway (List.prefix_append target.moves _) with hprefix | ⟨rest, rfl⟩
  · exact h.targetReaches.hasDirectory_of_prefix h.targetDirectory hprefix hl
  · rw [List.prefix_append_right_inj] at hway
    obtain ⟨below, hbelow, rfl⟩ := List.prefix_map_iff.mp hway
    have hdirectory : fs.HasDirectory (goal ++ below) :=
      habove.above ((List.prefix_append_right_inj goal).mpr hbelow)
    rw [(hl.right h.targetReaches).eq (FileSystem.freeWay_of_hasDirectory hdirectory)]
    exact hdirectory

theorem copyDirectory_halts (h : Course s.fs source target origin goal)
    (habove : s.fs.HasDirectory (goal ++ init))
    (hdirectory : s.fs.HasDirectory (origin ++ (init ++ [name]))) :
    Ends (copyEntry source target (init ++ [name]) .directory) s (fun _ _ => True)
      (Halted origin goal s.fs) := by
  obtain ⟨mode, entries, he⟩ := hdirectory
  have hgoesOn := h.goesOn_destination he
  have hmoves : (target.join (.ofNames (init ++ [name]))).moves =
      (target.moves ++ init.map .down) ++ [.down name] := by
    rw [hgoesOn.moves_eq, List.map_append, ← List.append_assoc]
    rfl
  have hwhole := FileSystem.createDirectories_whole h.current
    (h.targetAnchored.of_isAbsolute_eq hgoesOn.isAbsolute_eq) hmoves fun way l hway hl => by
      rw [FileSystem.beginning_of_isAbsolute_eq hgoesOn.isAbsolute_eq] at hl
      obtain ⟨m, es, hfind⟩ := h.hasDirectory_of_way habove hway hl
      simp [hfind]
  rw [copyEntry]
  exact .bind ((Action.ends_change hwhole).mono (fun _ _ _ => .pure trivial) fun _ ht => .of_eq ht)

theorem copyFile_halts {mode : Mode} {contents : Bytes} (h : Course s.fs source target origin goal)
    (he : s.fs.find? (origin ++ (init ++ [name])) = some (.file mode contents)) :
    Ends (copyEntry source target (init ++ [name]) .file) s (fun _ _ => True)
      (Halted origin goal s.fs) := by
  rw [copyEntry]
  refine .bind (Action.ends_tell fun t ht => ?_)
  rw [← ht] at h he ⊢
  refine .bind ((Action.ends_change (FileSystem.copyFile_ends h.root
    (h.sourceAnchored.of_isAbsolute_eq (h.goesOn_entry he).isAbsolute_eq)
    (h.targetAnchored.of_isAbsolute_eq (h.goesOn_destination he).isAbsolute_eq))).mono
    (fun _ u _ => .pure trivial) fun u hu => .of_eq hu)

/-- Where a link is to replace another entry, either it does or the entry stays. -/
theorem copyLink_halts (h : Course s.fs source target origin goal)
    (habove : s.fs.HasDirectory (goal ++ init)) (hclean : Clean s.fs origin goal (init ++ [name]))
    {link : Path} (he : s.fs.find? (origin ++ (init ++ [name])) = some (.link link)) :
    Ends (copyEntry source target (init ++ [name]) .link) s (fun _ _ => True)
      (Halted origin goal s.fs) := by
  have hanchored := h.targetAnchored.of_isAbsolute_eq (h.goesOn_destination he).isAbsolute_eq
  have hlast : (target.join (.ofNames (init ++ [name]))).last.IsDown := by
    rw [Path.last_join, Path.ofNames, Path.ofSegments, List.getLastD_concat]
    exact h.isDown he name (by simp)
  rw [copyEntry]
  suffices hcopy : Ends (copyLink (entryPath source (init ++ [name]))
      (target.join (.ofNames (init ++ [name])))) s (fun _ _ => True) (fun t => t.fs = s.fs) from
    .bind (hcopy.mono (fun _ _ _ => .pure trivial) fun t ht => .of_eq ht)
  rw [copyLink]
  refine .bind (Action.ends_ask (fun held hheld => ?_) rfl)
  obtain rfl : held = link := (Entry.link.inj (h.readLink_eq_ok he hheld)).symm
  refine .bind (Action.ends_fileSystem ?_)
  split
  · refine .bind (.of_run (fun _ t hremove => ?_) fun failure t hremove => ?_)
    · -- the link can be made where the entry has been removed
      obtain ⟨fs'', hcreate⟩ := FileSystem.exists_createLink_of_removeFile h.current hanchored hlast
        (fun directory last hlooksUp => by
          rw [h.eq_of_looksUp habove he hlooksUp]
          intro other
          have hnone := hclean.noLink [] other
          rwa [List.append_nil] at hnone)
        (hclean.holdable _ _ he) (Action.change_run hremove)
      refine .bind (Action.ends_tell fun u hu => ?_)
      rw [← hu] at hcreate
      rw [Ends, Action.change, hcreate]
      trivial
    · exact (Action.ends_change (FileSystem.removeFile_ends h.current hanchored)).fails_of_run hremove
  · refine .bind (Action.ends_tell fun u hu => ?_)
    rw [← hu] at hanchored
    exact (Action.ends_change (FileSystem.createLink_ends hanchored held)).mono (fun _ _ _ => trivial)
      fun v hv => hv.trans hu

/-! ## The walk -/

/-- No two entries of a directory of the source have the same name. -/
theorem Course.name_ne (h : Course fs source target origin goal) {mode : Mode}
    {entries done rest : List (Name × Entry)} {e : Entry}
    (he : fs.find? (origin ++ names) = some (.directory mode entries))
    (hentries : entries = done ++ (name, e) :: rest) {p : Name × Entry} (hp : p ∈ done) : p.1 ≠ name := by
  have hvalid : (Entry.directory mode entries).Valid := by
    rw [FileSystem.find?, Entry.find?_append] at he
    obtain ⟨top, htop, he⟩ := Option.bind_eq_some_iff.mp he
    exact (h.sourceValid top htop).find? he
  have hdistinct := hvalid.distinct
  rw [hentries, List.map_append, List.nodup_append] at hdistinct
  exact hdistinct.2.2 p.1 (List.mem_map_of_mem hp) name (by simp)

/-- A walk below a directory that fails has copied some of the entries. -/
def WalkHalts (source target : Path) (origin goal : Location) (depth : Nat) (names : List Name) : Prop :=
  ∀ (s : Session) (mode : Mode) (entries : List (Name × Entry)),
    Course s.fs source target origin goal → Clean s.fs origin goal names →
    s.fs.HasDirectory (goal ++ names) → s.fs.find? (origin ++ names) = some (.directory mode entries) →
    Ends (copyBelow source target depth names) s (fun _ _ => True) (Halted origin goal s.fs)

/-- One turn of the loop that fails has copied some of the entries. -/
theorem copyTurn_halts {depth : Nat} {e : Entry} (h : Course s.fs source target origin goal)
    (hclean : Clean s.fs origin goal (names ++ [name])) (habove : s.fs.HasDirectory (goal ++ names))
    (he : s.fs.find? (origin ++ (names ++ [name])) = some e)
    (hwalk : WalkHalts source target origin goal depth (names ++ [name])) (before : CopyTotals) :
    Ends (do
      let here ← copyEntry source target (names ++ [name]) e.kind
      let below ←
        if e.kind = Entry.Kind.directory then copyBelow source target depth (names ++ [name])
        else pure .zero
      return before + here + below) s (fun _ _ => True) (Halted origin goal s.fs) := by
  cases e with
  | file mode contents =>
    exact .bind ((copyFile_halts h he).mono (fun _ _ _ => .bind (.pure (.pure trivial))) fun _ => id)
  | link link =>
    exact .bind ((copyLink_halts h habove hclean he).mono (fun _ _ _ => .bind (.pure (.pure trivial)))
      fun _ => id)
  | directory mode entries =>
    have hdirectory : s.fs.HasDirectory (origin ++ (names ++ [name])) := ⟨mode, entries, he⟩
    refine .bind (((copyDirectory_ends h habove hdirectory).withFails
      (copyDirectory_halts h habove hdirectory)).mono (fun totals t hmade => ?_) fun _ => id)
    obtain ⟨-, hc, m, es, hgoal⟩ := hmade
    have hclean' : Clean t.fs origin goal (names ++ [name]) := hclean.copied hc fun below hbelow link => by
      rw [hbelow, hgoal]
      simp
    exact .bind ((hwalk t mode entries (h.copied hc) hclean' ⟨m, es, hgoal⟩ ((hc.find?_source _).trans he)).mono
      (fun _ _ _ => .pure trivial) fun _ => .of_copied hc)

/-- The walk below a directory that fails has copied some of the entries. -/
theorem copyBelow_halts (depth : Nat) (names : List Name) : WalkHalts source target origin goal depth names := by
  induction depth generalizing names with
  | zero => exact fun s mode entries _ _ _ _ => .throw (.of_eq rfl)
  | succ depth ih =>
    intro s mode entries h hclean habove he
    have hlisted : Ends (Copy.entries source names) s (fun _ _ => True) (Halted origin goal s.fs) :=
      .bind (Action.ends_fileSystem (Action.ends_attempt (fun _ _ => trivial) (.of_eq rfl)))
    rw [copyBelow]
    refine .bind (((entries_ends h he).withFails hlisted).mono ?_ fun _ => id)
    rintro es t ⟨rfl, rfl, -⟩
    rw [List.foldlM_map]
    -- the entries that have had their turn have been copied
    refine (Ends.foldlM (fun done _ u => Copied origin goal
      (fun b => ∃ p ∈ done, names ++ [p.1] <+: b) t.fs u.fs) (.noTurn t.fs) ?_).mono
      (fun _ _ _ => trivial) fun _ => id
    rintro done ⟨name, e⟩ rest hentries before u hc
    have hmem : (name, e) ∈ entries := by rw [hentries]; simp
    have he' := (hc.find?_source _).trans (h.find?_of_mem he hmem)
    have habove' := hc.touches.keeps.hasDirectory habove
    have hclean' : Clean u.fs origin goal (names ++ [name]) := by
      refine (hclean.inside name).copied hc ?_
      rintro below ⟨p, hp, hprefix⟩
      rw [List.append_assoc, List.prefix_append_right_inj, List.singleton_append,
        List.cons_prefix_cons] at hprefix
      exact absurd hprefix.1 (h.name_ne he hentries hp)
    exact ((copyTurn_ends (h.copied hc) habove' he' (copyBelow_ends depth _) before).withFails
      (copyTurn_halts (h.copied hc) hclean' habove' he' (ih _) before)).mono
      (fun _ _ hturn => hc.turn hturn.2.1) fun _ => .of_copied hc

/-! ## The whole copy -/

/-- The place of the target holds the entry of the source: a file or a link as it is, or a directory. -/
def Holds (origin goal : Location) (fs fs' : FileSystem) (below : List Name) : Prop :=
  ∃ e, fs.find? (origin ++ below) = some e ∧ (e.isDirectory = true → fs'.HasDirectory (goal ++ below)) ∧
    (e.isDirectory = false → fs'.find? (goal ++ below) = some e)

/-- What a copy leaves that fails. -/
structure Interrupted (origin goal : Location) (fs fs' : FileSystem) : Prop where
  /-- Each place of the target looks as it did or holds the entry of the source. -/
  below : ∀ below, fs'.view (goal ++ below) = fs.view (goal ++ below) ∨ Holds origin goal fs fs' below
  /-- What the source does not have is as it was. -/
  old : ∀ below, fs.find? (origin ++ below) = none → fs'.find? (goal ++ below) = fs.find? (goal ++ below)
  source : fs'.find? origin = fs.find? origin
  /-- Elsewhere nothing has changed but for directories that were missing above the target. -/
  outside : ∀ loc, ¬ goal <+: loc → fs'.view loc = fs.view loc ∨
    loc <+: goal ∧ fs.view loc = none ∧ fs'.view loc = some .emptyDirectory
  current_eq : fs'.current = fs.current

/-- What has been copied of an entry is held by its place. -/
theorem Holds.of_overlaid {below : List Name} {e : Entry} (he : fs.find? (origin ++ below) = some e)
    (h : Overlaid origin goal fs fs' below) : Holds origin goal fs fs' below := by
  have hnew : fs.view (origin ++ below) = some e.bare := by
    rw [FileSystem.view, he]
    rfl
  rw [Overlaid, hnew] at h
  refine ⟨e, he, fun hdirectory => ?_, fun hfile => ?_⟩
  · obtain ⟨mode, entries, rfl⟩ := Entry.isDirectory_iff.mp hdirectory
    rw [FileSystem.hasDirectory_iff_view, h]
    cases fs.view (goal ++ below) with
    | none => exact ⟨.full, rfl⟩
    | some old =>
      cases old with
      | file m contents => exact ⟨.full, rfl⟩
      | link link => exact ⟨.full, rfl⟩
      | directory m es => exact ⟨m, rfl⟩
  · rw [Entry.bare_of_not_directory hfile, Entry.overlay_of_not_directory hfile] at h
    cases e with
    | file mode contents => exact FileSystem.view_eq_file_iff.mp h
    | link link => exact FileSystem.view_eq_link_iff.mp h
    | directory mode entries => cases hfile

section Parts

variable {between : FileSystem} {part : List Name → Prop}

/-- Only directories that were missing above the target are made on the way to it. -/
theorem Separate.view_cases (h : Separate fs source target origin goal)
    (hdots : Path.dotDot ∉ target.segments) (hmakes : Makes (fs.Passes target) fs between) (loc : Location) :
    between.view loc = fs.view loc ∨
      loc <+: goal ∧ fs.view loc = none ∧ between.view loc = some .emptyDirectory := by
  by_cases hsame : between.view loc = fs.view loc
  · exact Or.inl hsame
  · refine Or.inr ⟨h.prefix_of_passes hdots loc ?_, (hmakes.view_eq loc).resolve_left hsame⟩
    -- a place that is not passed is as it was
    by_contra hpasses
    exact hsame (hmakes.touches.view_eq loc fun hl => hpasses hl.1)

theorem eq_nil_of_prefix_goal {below : List Name} (h : goal ++ below <+: goal) : below = [] := by
  have hlength := h.length_le
  rw [List.length_append] at hlength
  exact List.length_eq_zero_iff.mp (by omega)

/-- Each place of the target looks as it did or holds the entry of the source. -/
theorem Separate.view_or_holds (h : Separate fs source target origin goal)
    (hdots : Path.dotDot ∉ target.segments) (hmakes : Makes (fs.Passes target) fs between)
    (hc : Copied origin goal part between fs') (below : List Name) :
    fs'.view (goal ++ below) = fs.view (goal ++ below) ∨ Holds origin goal fs fs' below := by
  have hsource := Makes.find?_source (h.harmless hdots) hmakes
  obtain ⟨mode, entries, -, -, horigin⟩ := h.treads
  by_cases hpart : part below
  · have hoverlaid := hc.overlaid below hpart
    cases he : fs.find? (origin ++ below) with
    | some e =>
      obtain ⟨x, hx, hholds⟩ := Holds.of_overlaid ((hsource below).trans he) hoverlaid
      exact Or.inr ⟨x, (hsource below).symm.trans hx, hholds⟩
    | none =>
      have hnew : between.view (origin ++ below) = none := by
        rw [FileSystem.view, hsource, he]
        rfl
      rw [Overlaid, hnew] at hoverlaid
      rcases h.view_cases hdots hmakes (goal ++ below) with hsame | ⟨habove, -⟩
      · exact Or.inl (hoverlaid.trans hsame)
      · rw [eq_nil_of_prefix_goal habove, List.append_nil, horigin] at he
        cases he
  · rw [hc.view_of_not_part hpart]
    rcases h.view_cases hdots hmakes (goal ++ below) with hsame | ⟨habove, -, hempty⟩
    · exact Or.inl hsame
    · -- the directory of the target has been made here
      obtain rfl := eq_nil_of_prefix_goal habove
      refine Or.inr ⟨_, by rw [List.append_nil, horigin], fun _ => ?_, fun hfile => by cases hfile⟩
      rw [← hc.view_of_not_part hpart] at hempty
      exact FileSystem.hasDirectory_iff_view.mpr ⟨_, hempty⟩

/-- What the source does not have is as it was. -/
theorem Separate.find?_of_none (h : Separate fs source target origin goal)
    (hdots : Path.dotDot ∉ target.segments) (hmakes : Makes (fs.Passes target) fs between)
    (hc : Copied origin goal part between fs') {below : List Name}
    (hnone : fs.find? (origin ++ below) = none) :
    fs'.find? (goal ++ below) = fs.find? (goal ++ below) := by
  obtain ⟨mode, entries, -, -, horigin⟩ := h.treads
  have hne : below ≠ [] := by
    rintro rfl
    rw [List.append_nil, horigin] at hnone
    cases hnone
  have hfirst : between.find? (goal ++ below) = fs.find? (goal ++ below) :=
    hmakes.touches.find?_eq _ fun l hl habove =>
      hne (eq_nil_of_prefix_goal (habove.trans (h.prefix_of_passes hdots l hl.1)))
  refine (hc.touches.find?_eq _ ?_).trans hfirst
  -- what is touched is the place of an entry of the source
  rintro l ⟨below', e, -, he, rfl, -⟩ habove
  obtain ⟨rest, rfl⟩ := (List.prefix_append_right_inj goal).mp habove
  rw [Makes.find?_source (h.harmless hdots) hmakes, FileSystem.find?, ← List.append_assoc,
    Entry.find?_append] at he
  rw [FileSystem.find?] at hnone
  rw [hnone] at he
  cases he

/-- A part of the source that has been copied, once the directory of the target has been made. -/
theorem Interrupted.of_copied (h : Separate fs source target origin goal)
    (hdots : Path.dotDot ∉ target.segments) (hmakes : Makes (fs.Passes target) fs between)
    (hc : Copied origin goal part between fs') : Interrupted origin goal fs fs' where
  below := h.view_or_holds hdots hmakes hc
  old _ := h.find?_of_none hdots hmakes hc
  source := by
    have hsource := Makes.find?_source (h.harmless hdots) hmakes []
    rw [List.append_nil] at hsource
    exact hc.find?_origin.trans hsource
  outside loc hloc := by
    have hlater : fs'.view loc = between.view loc := hc.touches.view_eq loc fun hl => by
      obtain ⟨below, e, -, -, rfl, -⟩ := hl
      exact hloc (List.prefix_append goal below)
    rw [hlater]
    exact h.view_cases hdots hmakes loc
  current_eq := hc.touches.keeps.current_eq.trans hmakes.touches.keeps.current_eq

end Parts

/-- A copy that fails leaves every place as it was, or in the state that it has after the copy. -/
theorem copyTree_halts {failure : Failure} {t : Session} (h : Separate s.fs source target origin goal)
    (hdots : Path.dotDot ∉ target.segments)
    (hlinks : ∀ below link, s.fs.find? (origin ++ below) = some (.link link) → Holdable link)
    (hrun : copyTree source target s = (.error failure, t)) : Interrupted origin goal s.fs t.fs := by
  obtain ⟨mode, entries, -, -, hfind⟩ := h.treads
  have hgoesOn : target.GoesOn [] (target.join (.ofNames [])) := .join target (by simp)
  have hpasses {u : FileSystem} (hmakes : Makes (s.fs.Passes (target.join (.ofNames []))) s.fs u) :
      Makes (s.fs.Passes target) s.fs u := hmakes.mono fun l hl _ => (passes_top target).mp hl
  suffices hends : Ends (copyTree source target) s (fun _ _ => True)
      (fun t => Interrupted origin goal s.fs t.fs) from hends.fails_of_run hrun
  refine h.copyTree_ends (fun _ => True) (Interrupted origin goal s.fs) ((FileSystem.createDirectories_ends h.valid.current
    (h.spells.1.of_isAbsolute_eq hgoesOn.isAbsolute_eq)).mono (fun _ fs' hmade u hu => ?_)
    fun fs' hmakes => .of_copied h hdots (hpasses hmakes) (.none fs'))
  subst hu
  obtain ⟨hmakes, harrives⟩ := hmade
  have hsource := Makes.find?_source (h.harmless hdots) (hpasses hmakes)
  have horigin : u.fs.find? origin = s.fs.find? origin := by simpa using hsource []
  have hcourse := h.course hmakes harrives fun e he => h.valid.tree.find? (horigin ▸ he)
  have hclean : Clean u.fs origin goal [] := by
    refine ⟨fun below link hlink => hlinks below link (hsource below ▸ hlink), fun below link hlink => ?_⟩
    exact h.noTargetLink below link ((hmakes.sameLinks.link_iff _ _).mp hlink)
  refine (copyBelow_halts _ [] u mode entries hcourse hclean (by simpa using hcourse.targetDirectory)
    (by simpa using horigin.trans hfind)).mono (fun _ _ _ => trivial) ?_
  rintro v ⟨part, hc⟩
  exact .of_copied h hdots (hpasses hmakes) hc

/-- A source whose last file cannot be copied, since there is a directory in its place, and whose link is
to replace a file. -/
def blockedTrees : FileSystem where
  root := .directory .full [
    (Utf8.encode "from", .directory .full [
      (Utf8.encode "a.ts", .file .plain [0x78]), (Utf8.encode "b.ts", .link (.ofText "a.ts")),
      (Utf8.encode "c.ts", .file .plain [])]),
    (Utf8.encode "to", .directory .full [
      (Utf8.encode "b.ts", .file .plain []), (Utf8.encode "c.ts", .directory .full [])])]
  current := .ofLocation []

/-- The only link is in the source. -/
theorem link_blockedTrees {loc : Location} {link : Path} (h : blockedTrees.find? loc = some (.link link)) :
    loc = [Utf8.encode "from", Utf8.encode "b.ts"] ∧ link = .ofText "a.ts" := by
  have hall : ∀ p ∈ blockedTrees.root.everything, p.2.kind = .link →
      p.1 = [Utf8.encode "from", Utf8.encode "b.ts"] := by decide
  obtain rfl : loc = [Utf8.encode "from", Utf8.encode "b.ts"] := hall _ (Entry.mem_everything h) rfl
  exact ⟨rfl, (Entry.link.inj (Option.some.inj h)).symm⟩

theorem separate_blockedTrees :
    Separate blockedTrees (.ofText "from") (.ofText "to") [Utf8.encode "from"] [Utf8.encode "to"] where
  valid := ⟨by decide, _, _, rfl⟩
  sourceDirectory := ⟨_, _, rfl⟩
  origin_eq := by rfl
  goal_eq := by rfl
  targetFree way hway link hlink := by
    have hprefix := Step.foldl_move_mono (by decide : Step.up ∉ Path.moves (.ofText "to")) hway
      (blockedTrees.beginning (.ofText "to"))
    rw [(link_blockedTrees hlink).1] at hprefix
    exact absurd hprefix (by decide)
  noTargetLink below link hlink := by
    have hloc := (link_blockedTrees hlink).1
    rw [List.singleton_append, List.cons.injEq] at hloc
    exact absurd hloc.1 (by decide)
  apart := by decide
  apart' := by decide

/-- The copy of the sample fails and leaves a part of it. -/
theorem copyTree_halts_blockedTrees : ∃ failure t,
    copyTree (.ofText "from") (.ofText "to") (.fresh blockedTrees) = (.error failure, t) ∧
      Interrupted [Utf8.encode "from"] [Utf8.encode "to"] blockedTrees t.fs := by
  cases hrun : copyTree (.ofText "from") (.ofText "to") (.fresh blockedTrees) with
  | mk result t =>
    cases result with
    | ok totals =>
      have hfails : (copyTree (.ofText "from") (.ofText "to") (.fresh blockedTrees)).1.isOk = false := by
        decide +kernel
      rw [hrun] at hfails
      cases hfails
    | error failure =>
      refine ⟨failure, t, rfl, copyTree_halts (s := .fresh blockedTrees) separate_blockedTrees (by decide)
        (fun below link hlink => ?_) hrun⟩
      rw [(link_blockedTrees hlink).2]
      exact ⟨by decide, by decide⟩

end FileRoutes.Copy
