import FileRoutes.Proofs.FileSystem.Growth
import FileRoutes.Proofs.Migration.Course

/-!
# Separate trees

A source and a target are separate if neither is in the other, and no link is in or on the way to the
target (`Separate`).  Nothing is asked of how the target is spelled: it may have two dots in it, and then
directories that it only passes are made too, be it in the source.

A copy between separate trees is not refused, so it comes down to making the directory of the target and
walking through the source (`Separate.copyTree_ends`).  When the directory of the target has been made the
walk can take its course (`Separate.course`).
-/

namespace FileRoutes.Copy

open FileSystem (Treads Makes)

variable {fs fs' : FileSystem} {source target : Path} {origin goal : Location} {s : Session}

/-- The source is a directory, no link is in or on the way to the target, and neither tree is in the
other. -/
structure Separate (fs : FileSystem) (source target : Path) (origin goal : Location) : Prop where
  valid : fs.Valid
  sourceDirectory : ∃ mode entries, fs.lookup .itself source = .ok (.directory mode entries)
  origin_eq : fs.canonical source = .ok origin
  goal_eq : targetLocation fs target = .ok goal
  targetFree : fs.LinkFree target
  noTargetLink : ∀ below link, fs.find? (goal ++ below) ≠ some (.link link)
  apart : ¬ origin <+: goal
  apart' : ¬ goal <+: origin

namespace Separate

/-- The source is found by its path. -/
theorem treads (h : Separate fs source target origin goal) : ∃ mode entries,
    fs.lookup .itself source = .ok (.directory mode entries) ∧ fs.Treads source origin ∧
      fs.find? origin = some (.directory mode entries) := by
  obtain ⟨mode, entries, hlookup⟩ := h.sourceDirectory
  exact ⟨mode, entries, hlookup, FileSystem.treads_of_canonical h.valid h.origin_eq hlookup⟩

/-- The target is where its path says. -/
theorem spells (h : Separate fs source target origin goal) :
    fs.Anchored target ∧ fs.spelled target = goal := by
  obtain ⟨hanchored, hspelled⟩ := targetLocation_eq_ok h.valid h.targetFree h.goal_eq
  exact ⟨hanchored, hspelled.symm⟩

theorem madeAt (h : Separate fs source target origin goal) : fs.MadeAt target goal :=
  h.spells.2 ▸ h.targetFree.madeAt

/-- Without two dots in it the way to the target passes what is above it, and nothing else. -/
theorem prefix_of_passes (h : Separate fs source target origin goal)
    (hdots : Path.dotDot ∉ target.segments) (l : Location) (hl : fs.Passes target l) : l <+: goal :=
  h.spells.2 ▸ FileSystem.prefix_of_passes h.targetFree (Path.up_notMem_moves hdots) hl

/-- Then nothing can happen to the source. -/
theorem harmless (h : Separate fs source target origin goal) (hdots : Path.dotDot ∉ target.segments) :
    Harmless fs target origin := by
  obtain ⟨-, rfl⟩ := h.spells
  exact .of_apart h.targetFree (Path.up_notMem_moves hdots) h.noTargetLink h.apart h.apart'

/-- The names that are passed on the way to the target are ordinary, if its segments can be names. -/
theorem ordinary_of_passes (h : Separate fs source target origin goal) (hcut : target.Cut)
    (hzero : ∀ s ∈ target.segments, (0 : UInt8) ∉ s) {l : Location} (hl : fs.Passes target l) : ∀ name ∈ l, name.Ordinary := by
  obtain ⟨way, hway, rfl⟩ := FileSystem.exists_of_passes h.targetFree hl
  refine Step.forall_mem_foldl_move (fun name hname => ?_) (h.valid.ordinary_beginning target)
  obtain ⟨hdown, hmem⟩ := Path.isDown_of_mem_moves (hway.subset hname)
  exact hdown.ordinary (hcut name hmem) (hzero name hmem)

/-- No place of the target is in the source. -/
theorem not_prefix (h : Separate fs source target origin goal) (below : List Name) :
    ¬ origin <+: goal ++ below :=
  not_prefix_of_near h.apart h.apart' (Or.inl (List.prefix_append goal below))

/-- When the directory of the target has been made the copy takes its course. -/
theorem course (h : Separate fs source target origin goal)
    (hmakes : Makes (fs.Passes (target.join (.ofNames []))) fs fs')
    (harrives : fs'.Arrives (target.join (.ofNames [])))
    (hvalid : ∀ e, fs'.find? origin = some e → e.Valid) : Course fs' source target origin goal := by
  obtain ⟨mode, entries, -, htreads, hfind⟩ := h.treads
  have hdirectory : fs.HasDirectory origin := ⟨mode, entries, hfind⟩
  have hkeeps := hmakes.touches.keeps
  have hgoesOn : target.GoesOn [] (target.join (.ofNames [])) := .join target (by simp)
  obtain ⟨found, hfound, hmade⟩ := harrives
  rw [FileSystem.Reaches, hgoesOn.moves_eq, FileSystem.beginning_of_isAbsolute_eq hgoesOn.isAbsolute_eq,
    List.map_nil, List.append_nil] at hfound
  have hreaches : fs'.Reaches target found := hfound
  obtain rfl := (hmakes.sameLinks.symm.madeAt hreaches.madeAt).eq h.madeAt
  refine ⟨?_, hkeeps.anchored htreads.anchored, hkeeps.reaches htreads.reaches hdirectory,
    hkeeps.hasDirectory hdirectory, hvalid, hkeeps.anchored h.spells.1, hreaches, hmade,
    fun below e _ hprefix => absurd hprefix (h.not_prefix below), fun below e link _ hlink => ?_⟩
  · rw [hkeeps.current_eq]
    exact hkeeps.hasDirectory h.valid.current
  · exact absurd ((hmakes.sameLinks.link_iff _ _).mp hlink) (h.noTargetLink below link)

/-- A copy makes the directory of the target and then walks through the source. -/
theorem copyTree_ends (h : Separate s.fs source target origin goal) (ok fails : FileSystem → Prop)
    (hcopy : Ends (FileSystem.createDirectories (target.join (.ofNames []))) s.fs
      (fun _ fs' => ∀ u : Session, u.fs = fs' →
        Ends (copyBelow source target FileSystem.pathLimit []) u (fun _ v => ok v.fs) (fun v => fails v.fs))
      fails) :
    Ends (copyTree source target) s (fun _ t => ok t.fs) (fun t => fails t.fs) := by
  have hcanonical (t : Session) (ht : t.fs = s.fs) :
      Action.ask (.resolveSource source) (·.canonical source) t = (.ok origin, t) :=
    Action.ask_eq_ok (·.canonical source) (ht ▸ h.origin_eq)
  have hlocation (t : Session) (ht : t.fs = s.fs) :
      Action.ask .findCurrent (targetLocation · target) t = (.ok goal, t) :=
    Action.ask_eq_ok (targetLocation · target) (ht ▸ h.goal_eq)
  obtain ⟨mode, entries, hlookup, -, -⟩ := h.treads
  have hisDirectory : s.fs.isDirectory source = true := by
    rw [FileSystem.isDirectory, FileSystem.lookup_target_of_itself hlookup]
    rfl
  have htop (t : Session) : Action.attempt (.readSource source)
      ((s.fs.lookup .itself source).mapError (.visit source)) t = (.ok (.directory mode entries), t) := by
    rw [hlookup]
    rfl
  have hwalk (t : Session) (ht : t.fs = s.fs) :
      Ends (walk source target) t (fun _ u => ok u.fs) (fun u => fails u.fs) := by
    rw [← ht] at htop hcopy hisDirectory
    rw [walk, Ends, bind_run_of_ok (Action.fileSystem_eq_ok t), bind_run_of_ok (htop t)]
    show Ends _ t _ _
    rw [Entry.kind, copyEntry]
    refine .bind (.bind ((Action.ends_change hcopy).mono (fun _ u hbelow => .pure ?_) fun _ => id))
    rw [if_pos hisDirectory]
    exact .bind ((hbelow u rfl).mono (fun _ v hv => .pure hv) fun _ => id)
  rw [copyTree]
  refine .bind (Action.ends_tell fun t ht => ?_)
  rw [Ends, bind_run_of_ok (hcanonical t ht), bind_run_of_ok (hlocation t ht),
    if_neg (by rw [List.isPrefixOf_iff_prefix]; exact h.apart)]
  show Ends _ t _ _
  refine .bind ((hwalk t ht).mono (fun totals u hu => .bind (Action.ends_tell fun v hv => .pure ?_)) fun _ => id)
  rwa [hv]

/-- When the directory of the target has been made the copy takes its course. -/
theorem made (h : Separate fs source target origin goal) (hcut : target.Cut)
    (hcreate : FileSystem.createDirectories (target.join (.ofNames [])) fs = (.ok (), fs')) :
    Makes (fs.Passes target) fs fs' ∧ fs'.root.Valid ∧ Course fs' source target origin goal := by
  have hgoesOn : target.GoesOn [] (target.join (.ofNames [])) := .join target (by simp)
  obtain ⟨hmakes, harrives⟩ := (FileSystem.createDirectories_ends h.valid.current
    (h.spells.1.of_isAbsolute_eq hgoesOn.isAbsolute_eq)).ok_of_run hcreate
  have hpasses : Makes (fs.Passes target) fs fs' := hmakes.mono fun l hl _ => (passes_top target).mp hl
  have hzero : ∀ s ∈ target.segments, (0 : UInt8) ∉ s := by
    have hrelative : (Path.ofNames []).isAbsolute = false := Path.isAbsolute_ofNames (by simp)
    refine Path.zero_notMem_of_join hrelative ?_
    obtain ⟨-, hempty | hdirectory⟩ := FileSystem.createDirectories_adds.ok_of_run hcreate
    · rw [hempty]
      decide
    · exact (FileSystem.askable_of_isDirectory hdirectory).zero_notMem
  have hvalid := hpasses.valid (fun l hl => h.ordinary_of_passes hcut hzero hl) h.valid.tree
  exact ⟨hpasses, hvalid, h.course hmakes harrives fun e he => hvalid.find? he⟩

/-- A copy that succeeds makes the directory of the target, takes its course and copies everything. -/
theorem copied {totals : CopyTotals} {t : Session} (h : Separate s.fs source target origin goal)
    (hcut : target.Cut) (hrun : copyTree source target s = (.ok totals, t)) :
    ∃ between, Makes (s.fs.Passes target) s.fs between ∧ between.root.Valid ∧
      Course between source target origin goal ∧
      Copied origin goal (fun b => ∃ n, [n] <+: b) between t.fs := by
  suffices hends : Ends (copyTree source target) s
      (fun _ t => ∃ between, Makes (s.fs.Passes target) s.fs between ∧ between.root.Valid ∧
        Course between source target origin goal ∧
        Copied origin goal (fun b => ∃ n, [n] <+: b) between t.fs) (fun _ => True) from
    hends.ok_of_run hrun
  refine h.copyTree_ends (fun fs' => ∃ between, Makes (s.fs.Passes target) s.fs between ∧
      between.root.Valid ∧ Course between source target origin goal ∧
      Copied origin goal (fun b => ∃ n, [n] <+: b) between fs')
    (fun _ => True) (.of_run (fun _ fs' hcreate u hu => ?_) fun _ _ _ => trivial)
  subst hu
  obtain ⟨hmakes, hvalid, hcourse⟩ := h.made hcut hcreate
  obtain ⟨m, es, hfind⟩ := hcourse.sourceDirectory
  refine (copyBelow_ends _ [] u m es hcourse (by simpa using hcourse.targetDirectory)
    (by simpa using hfind)).mono (fun _ v hv => ?_) fun _ _ => trivial
  obtain ⟨-, hcopied, -⟩ := hv
  exact ⟨u.fs, hmakes, hvalid, hcourse, hcopied⟩

end Separate

end FileRoutes.Copy
