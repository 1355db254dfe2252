import FileRoutes.Proofs.FileSystem.Denials
import FileRoutes.Proofs.FileSystem.Growth

/-!
# Changes that are made whole or not at all

Most changes check everything before they touch anything.  Two need more than one step.

* Links cannot be overwritten, so what is at the place of a new link is removed first.  Were the link not
  to be made afterwards, the old entry would be lost.  It is made (`exists_createLink_of_removeFile`): if
  the last name of a path was looked up to remove a file, then it can be looked up again, in a directory
  that may be changed, and nothing is there any more.
* A directory is created after those that are missing above it.  If none is missing, then nothing has
  happened when it fails (`createDirectories_whole`).

What has been looked up once is looked up again as long as directories and links stay (`Looks.keeps`).
-/

namespace FileRoutes.FileSystem

variable {fs fs' : FileSystem} {p : Path} {directory loc : Location} {name : Name}

/-! ## Links -/

/-- The slot of a path names a directory in which the last name is looked up. -/
theorem looks_of_slot (hanchored : fs.Anchored p) {slot : Slot} (hslot : fs.slot p = .ok slot)
    (hname : slot.name? = some name) (hshort : name.length ≤ nameLimit) :
    fs.Looks p slot.directory name := by
  obtain ⟨spot, hstart, hfollow, hmoves, hopen⟩ := exists_of_slot hslot hname
  have hspot : spot = ⟨fs.beginning p, 0⟩ := by rw [start_eq_ok hstart, spot_eq_of_anchored hanchored]
  rw [hspot] at hfollow
  exact ⟨hanchored, askable_of_start hstart, ⟨_, hmoves, trail_of_follow hfollow⟩, hopen, hshort⟩

theorem Looks.keeps (h : fs.Looks p directory name) (hkeeps : Keeps fs fs') :
    fs'.Looks p directory name where
  anchored := hkeeps.anchored h.anchored
  askable := h.askable
  trail := by
    obtain ⟨init, hmoves, htrail⟩ := h.trail
    refine ⟨init, hmoves, ?_⟩
    rw [hkeeps.beginning_eq]
    exact htrail.keeps hkeeps h.isOpen.hasDirectory
  isOpen := hkeeps.isOpen h.isOpen
  short := h.short

/-- When a file is removed, directories and links stay. -/
theorem Clears.keeps_of_file (h : Clears loc fs fs') (hlink : ∀ target, fs.find? loc ≠ some (.link target)) :
    Keeps fs fs' where
  current_eq := h.current_eq
  directory l mode hl := by
    have hne : l ≠ loc := fun heq => h.free (heq ▸ hasDirectory_iff_view.mpr ⟨mode, hl⟩)
    rwa [h.view_eq, if_neg hne]
  link l target hl := by
    have hne : l ≠ loc := fun heq => hlink target (heq ▸ hl)
    rw [← view_eq_link_iff] at hl ⊢
    rwa [h.view_eq, if_neg hne]

/-- What is removed was looked up in a directory that may be changed. -/
theorem exists_of_removeFile (h : removeFile p fs = (.ok (), fs')) :
    ∃ slot name, fs.slot p = .ok slot ∧ slot.name? = some name ∧ name.length ≤ nameLimit ∧
      slot.mode.write = true ∧ ∃ e, fs.find? (slot.directory ++ [name]) = some e ∧
        e.isDirectory = false ∧ fs' = fs.remove (slot.directory ++ [name]) := by
  rw [removeFile] at h
  obtain ⟨slot, t, hask, h⟩ := exists_of_bind_run h
  obtain ⟨hslot, rfl⟩ := ask_run hask
  cases hname : slot.name? with
  | none =>
    simp only [hname] at h
    exact (not_throw_run h).elim
  | some name =>
    simp only [hname] at h
    obtain ⟨hshort, h⟩ := of_guard_run h
    obtain ⟨found, t, hnow, h⟩ := exists_of_bind_run h
    obtain ⟨rfl, rfl⟩ := now_run hnow
    cases he : fs.find? (slot.directory ++ [name]) with
    | none =>
      simp only [he] at h
      exact (not_throw_run h).elim
    | some e =>
      simp only [he] at h
      obtain ⟨-, h⟩ := of_guard_run h
      obtain ⟨hwrite, h⟩ := of_guard_run h
      obtain ⟨hfile, h⟩ := of_guard_run h
      exact ⟨slot, name, hslot, hname, Nat.le_of_not_lt hshort, by simpa using hwrite, e, he,
        by simpa using hfile, (Prod.mk.inj h).2.symm⟩

/-- A link is made where nothing is, in a directory that may be changed. -/
theorem createLink_eq_ok (h : fs.Looks p directory name) (hlast : p.last.IsDown)
    (hnone : fs.find? (directory ++ [name]) = none) {mode : Mode}
    (hmode : fs.view directory = some (.directory mode [])) (hwrite : mode.write = true)
    {target : Path} (htarget : Holdable target) :
    createLink target p fs = (.ok (), fs.put (directory ++ [name]) (.link target)) := by
  obtain ⟨mode', entries, slashed, hfind, hslashed, hslot⟩ := h.exists_slot
  obtain rfl := hslashed hlast
  have hsame : mode' = mode := by
    rw [view, hfind] at hmode
    exact (Entry.directory.inj (Option.some.inj hmode)).1
  subst hsame
  have hzero : ¬ target.segments.any (·.contains 0) = true := by
    simpa using htarget.zero_notMem
  have hfree : ¬ (fs.find? (directory ++ [name])).isSome = true := by
    rw [hnone]
    exact Bool.false_ne_true
  rw [createLink]
  refine (guard_run hzero).trans ((guard_run htarget.ne_empty).trans
    ((bind_run_of_ok (ask_eq hslot) _).trans ?_))
  refine (guard_run (Nat.not_lt.mpr h.short)).trans ((bind_run_of_ok (now_eq fs) _).trans ?_)
  refine (guard_run hfree).trans ((guard_run Bool.false_ne_true).trans ((guard_run ?_).trans rfl))
  simp [hwrite]

/-- Where a file has been removed a link can be made. -/
theorem exists_createLink_of_removeFile (hcurrent : fs.HasDirectory fs.current.location)
    (hanchored : fs.Anchored p) (hlast : p.last.IsDown)
    (hlink : ∀ directory name, fs.LooksUp p directory name →
      ∀ target, fs.find? (directory ++ [name]) ≠ some (.link target))
    {target : Path} (htarget : Holdable target) (hrun : removeFile p fs = (.ok (), fs')) :
    ∃ fs'', createLink target p fs' = (.ok (), fs'') := by
  obtain ⟨slot, name, hslot, hname, hshort, hwrite, e, he, hfile, rfl⟩ := exists_of_removeFile hrun
  have hclears := Clears.of_remove hcurrent he hfile
  have hkeeps := hclears.keeps_of_file (hlink _ _ (looksUp_of_slot hanchored hslot hname))
  have hlooks := looks_of_slot hanchored hslot hname hshort
  -- the directory is the same one, with the same mode
  obtain ⟨mode, entries, slashed, hfind, -, hslot'⟩ := hlooks.exists_slot
  have hsame : slot.mode = mode := congrArg Slot.mode (Except.ok.inj (hslot.symm.trans hslot'))
  rw [hsame] at hwrite
  have hmode := hkeeps.directory _ mode (view_eq_directory_iff.mpr ⟨entries, hfind⟩)
  have hnone : (fs.remove (slot.directory ++ [name])).find? (slot.directory ++ [name]) = none := by
    rw [← view_eq_none_iff, hclears.view_eq, if_pos rfl]
  exact ⟨_, createLink_eq_ok (hlooks.keeps hkeeps) hlast hnone hmode hwrite htarget⟩

/-! ## Directories -/

/-- A chain does nothing if it fails, when those above do nothing anyway. -/
theorem createChain_whole {above : List Path} (habove : Ends (createChain above) fs (fun _ => (· = fs)) (· = fs)) :
    Ends (createChain (p :: above)) fs (fun _ _ => True) (· = fs) := by
  have hunless (fault : Fault) : Ends (unlessDirectory p fault) fs (fun _ _ => True) (· = fs) :=
    (unlessDirectory_adds fault).mono (fun _ _ _ => trivial) fun _ => id
  have hcreate {handler : Fault → Change Unit}
      (hhandler : ∀ fault, Ends (handler fault) fs (fun _ _ => True) (· = fs)) :
      Ends (tryCatch (createDirectory p) handler) fs (fun _ _ => True) (· = fs) := by
    refine .tryCatch (.of_run (fun _ _ _ => trivial) fun fault t hrun fault' _ => ?_)
    rw [createDirectory_error hrun]
    exact hhandler fault'
  rw [createChain]
  split
  · exact .pure trivial
  refine hcreate fun fault => ?_
  split
  · refine .bind (habove.mono (fun _ t ht => ?_) fun _ => id)
    rw [ht]
    exact hcreate hunless
  · exact hunless _

/-- The directory that a path ends in is created, or nothing happens, if nothing is missing on the way to
it. -/
theorem createDirectories_whole {init : List Step} (hcurrent : fs.HasDirectory fs.current.location)
    (hanchored : fs.Anchored p) (hmoves : p.moves = init ++ [.down name])
    (hway : ∀ way l, way <+: init → fs.FreeWay (fs.beginning p) way l → fs.find? l ≠ none) :
    Ends (createDirectories p) fs (fun _ _ => True) (· = fs) := by
  obtain ⟨q, stays, hparent, rfl, -⟩ := Path.exists_parent? hmoves
  have habsolute := (Path.moves_parent? hparent).1
  have hnothing {t : FileSystem} (hmakes : Makes (fs.Passes q) fs t) : t = fs := by
    refine hmakes.eq_of_occupied ?_
    rintro l ⟨way, hbefore, hl⟩
    rw [beginning_of_isAbsolute_eq habsolute] at hl
    exact hway way l (hbefore.trans (List.prefix_append q.moves stays)) hl
  rw [createDirectories, Path.ancestors, Path.lineage, hparent]
  refine createChain_whole ((createChain_ends (p := q) hcurrent fun r hr => ?_).mono
    (fun _ t hmade => hnothing hmade.1) fun t hmakes => hnothing hmakes)
  obtain ⟨habsolute', hmoves'⟩ := Path.moves_of_mem_lineage hr
  exact ⟨hanchored.of_isAbsolute_eq (habsolute'.trans habsolute), habsolute', hmoves'⟩

end FileRoutes.FileSystem
