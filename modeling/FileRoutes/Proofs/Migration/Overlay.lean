import FileRoutes.Proofs.Migration.Course

/-!
# A copy is an overlay

If no link is in or on the way to the trees of source and target, and neither tree is in the other, then
a copy that succeeds leaves in the target the overlay of what it was and the source (`copyTree_run`).
Nothing else has changed but that directories were made above the target.

`Copy.Setting` collects what is asked of the two trees.  Changes outside the source keep all of it
(`Setting.alters`), so the stages behind the copy find it as well.
-/

namespace FileRoutes.Copy

/-- Source and target are trees of their own, and no link is in or on the way to either of them. -/
structure Setting (fs : FileSystem) (source target : Path) (origin goal : Location) : Prop where
  current : fs.HasDirectory fs.current.location
  sourceFree : fs.LinkFree source
  sourceAnchored : fs.Anchored source
  sourceSpelled : fs.spelled source = origin
  targetFree : fs.LinkFree target
  targetAnchored : fs.Anchored target
  targetSpelled : fs.spelled target = goal
  targetDown : Step.up ∉ target.moves
  sourceValid : ∀ e, fs.find? origin = some e → e.Valid
  noSourceLink : ∀ below link, fs.find? (origin ++ below) ≠ some (.link link)
  noTargetLink : ∀ below link, fs.find? (goal ++ below) ≠ some (.link link)
  apart : ¬ origin <+: goal
  apart' : ¬ goal <+: origin

namespace Setting

variable {fs fs' : FileSystem} {source target : Path} {origin goal : Location}
  {part : Location → Prop}

/-- Nothing near the target is in the source. -/
theorem not_prefix_of_near (h : Setting fs source target origin goal) {loc : Location}
    (hloc : Near goal loc) : ¬ origin <+: loc :=
  Copy.not_prefix_of_near h.apart h.apart' hloc

/-- Changes outside the source leave the setting. -/
theorem alters (h : Setting fs source target origin goal) (ha : FileSystem.Alters part fs fs')
    (hpart : ∀ l, part l → ¬ origin <+: l) : Setting fs' source target origin goal where
  current := by
    rw [ha.current_eq]
    exact ha.hasDirectory h.current
  sourceFree := ha.linkFree h.sourceFree
  sourceAnchored := ha.anchored h.sourceAnchored
  sourceSpelled := (ha.spelled_eq source).trans h.sourceSpelled
  targetFree := ha.linkFree h.targetFree
  targetAnchored := ha.anchored h.targetAnchored
  targetSpelled := (ha.spelled_eq target).trans h.targetSpelled
  targetDown := h.targetDown
  sourceValid e he := h.sourceValid e (ha.find?_eq origin hpart ▸ he)
  noSourceLink below link hlink := h.noSourceLink below link (ha.link _ link hlink)
  noTargetLink below link hlink := h.noTargetLink below link (ha.link _ link hlink)
  apart := h.apart
  apart' := h.apart'

/-- What is known of the path of an entry of the target. -/
theorem destination_spells (h : Setting fs source target origin goal) {names : List Name}
    (hnames : ∀ name ∈ names, name.IsDown) :
    fs.LinkFree (target.join (.ofNames names)) ∧ fs.Anchored (target.join (.ofNames names)) ∧
      fs.spelled (target.join (.ofNames names)) = goal ++ names := by
  have hgoesOn := Path.GoesOn.join target hnames
  refine ⟨h.targetFree.goesOn ?_ hgoesOn, h.targetAnchored.of_isAbsolute_eq hgoesOn.isAbsolute_eq, ?_⟩
  · rw [h.targetSpelled]
    exact h.noTargetLink
  · rw [FileSystem.spelled_of_goesOn hgoesOn, h.targetSpelled]

/-- Trees of their own, from what the copy itself finds out about its paths. -/
theorem of_disjoint {fs : FileSystem} (hfs : fs.Valid) {source target : Path}
    {origin goal : Location} (horigin : fs.canonical source = .ok origin)
    (hgoal : targetLocation fs target = .ok goal) (hsource : fs.LinkFree source)
    (htarget : fs.LinkFree target) (hdots : Path.dotDot ∉ target.segments)
    (hsourceTree : ∀ below link, fs.find? (origin ++ below) ≠ some (.link link))
    (htargetTree : ∀ below link, fs.find? (goal ++ below) ≠ some (.link link))
    (hapart : ¬ origin <+: goal) (hapart' : ¬ goal <+: origin) :
    Setting fs source target origin goal := by
  obtain ⟨hanchored, rfl⟩ := FileSystem.canonical_eq_ok hfs hsource horigin
  obtain ⟨hanchored', rfl⟩ := targetLocation_eq_ok hfs htarget hgoal
  exact ⟨hfs.current, hsource, hanchored, rfl, htarget, hanchored', rfl, Path.up_notMem_moves hdots,
    fun e he => hfs.tree.find? he, hsourceTree, htargetTree, hapart, hapart'⟩

theorem harmless (h : Setting fs source target origin goal) : Harmless fs target origin := by
  obtain rfl := h.targetSpelled
  exact .of_apart h.targetFree h.targetDown h.noTargetLink h.apart h.apart'

end Setting

/-- What a copy does to the file system. -/
structure CopiedTree (origin goal : Location) (fs fs' : FileSystem) : Prop where
  /-- Only what is in the target has changed, and what was missing above it. -/
  alters : FileSystem.Alters (fun l => goal <+: l ∨ l <+: goal ∧ fs.find? l = none) fs fs'
  overlaid : ∀ below, Overlaid origin goal fs fs' below

theorem CopiedTree.hasDirectory {fs fs' : FileSystem} {origin goal : Location}
    (h : CopiedTree origin goal fs fs') (horigin : fs.HasDirectory origin) : fs'.HasDirectory goal := by
  obtain ⟨mode, hview⟩ := FileSystem.hasDirectory_iff_view.mp horigin
  have htop := h.overlaid []
  rw [Overlaid, List.append_nil, List.append_nil, hview] at htop
  rw [FileSystem.hasDirectory_iff_view, htop]
  cases fs.view goal with
  | none => exact ⟨.full, rfl⟩
  | some e => cases e <;> exact ⟨_, rfl⟩

/-- A copy of a tree without links makes no link. -/
theorem Completed.copiedTree {fs fs' : FileSystem} {source target : Path} {origin goal : Location}
    {totals : CopyTotals} (hsetting : Setting fs source target origin goal)
    (h : Completed source target origin goal fs fs' totals) : CopiedTree origin goal fs fs' := by
  have hplaces (l : Location) (hl : fs.Passes target l) : l <+: goal :=
    hsetting.targetSpelled ▸ FileSystem.prefix_of_passes hsetting.targetFree hsetting.targetDown hl
  have htouches := h.touches hplaces
  have hoverlaid (below : Location) := (h.overlaid hplaces below).1
  refine ⟨⟨htouches.keeps.current_eq, htouches.find?_eq, htouches.view_eq, fun loc link hlink => ?_,
    htouches.keeps.directory⟩, hoverlaid⟩
  by_cases hloc : goal <+: loc
  · obtain ⟨below, rfl⟩ := hloc
    rw [← FileSystem.view_eq_link_iff, hoverlaid] at hlink
    rcases Entry.overlay_eq_link hlink with hnew | hold
    · exact absurd (FileSystem.view_eq_link_iff.mp hnew) (hsetting.noSourceLink below link)
    · exact FileSystem.view_eq_link_iff.mp hold
  · rw [← FileSystem.view_eq_link_iff, htouches.view_eq, FileSystem.view_eq_link_iff] at hlink
    · exact hlink
    · rintro (hl | ⟨hl, -⟩)
      · exact hloc hl
      · -- what is made above the target is a directory
        obtain ⟨mode, entries, hfind⟩ := h.hasDirectory.above hl
        rw [FileSystem.view_eq_link_iff, hfind] at hlink
        cases hlink

/-- A copy overlays the target with the source. -/
theorem copyTree_run {source target : Path} {origin goal : Location} {s s' : Session}
    {totals : CopyTotals} (hfs : s.fs.Valid) (h : Setting s.fs source target origin goal)
    (horigin : s.fs.HasDirectory origin) (hrun : copyTree source target s = (.ok totals, s')) :
    CopiedTree origin goal s.fs s'.fs := by
  have hmadeAt : s.fs.MadeAt source origin := h.sourceSpelled ▸ h.sourceFree.madeAt
  obtain ⟨-, goal', hcompleted⟩ :=
    (copyTree_ends hfs (fun _ => hmadeAt) horigin fun _ => h.harmless).ok_of_run hrun
  obtain rfl : goal' = goal := by
    rw [hcompleted.madeAt.eq h.targetFree.madeAt, h.targetSpelled]
  exact hcompleted.copiedTree h

end FileRoutes.Copy
