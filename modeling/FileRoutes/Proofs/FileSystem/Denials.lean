import FileRoutes.Proofs.FileSystem.Outcomes
import FileRoutes.Proofs.FileSystem.Parents
import FileRoutes.Proofs.FileSystem.Refusals

/-!
# What a change fails with

Given that directories are where directories are needed, that nothing is in the way, and that names and
paths are not too long, a change fails for a lack of permission and for nothing else.

* A directory can be created whether or not those above it are missing (`createDirectories_fails`).  What
  may be in the way is only an entry of another kind at the place itself.
* A file can be opened for writing in the place of a file or of nothing (`copyFile_fails`).
* A link can be created where nothing is, and a file or a link be removed (`createLink_fails`,
  `removeFile_fails`).

That the last name of a path is looked up in a directory, unless the path is refused, is what carries
each of these proofs (`looks_or_refused`).
-/

namespace FileRoutes.FileSystem

variable {fs : FileSystem} {p : Path} {directory : Location} {name : Name}

/-! ## Elementary steps -/

section Steps

variable {α : Type} {P : Fault → Prop}

theorem ask_eq {question : FileSystem → Except Fault α} {result : Except Fault α}
    (h : question fs = result) : ask question fs = (result, fs) := by
  rw [ask, h]

theorem failsOnly_putAt {loc : Location} {e : Entry} : FailsOnly P (putAt loc e) fs := by
  intro fault t hrun
  cases (Prod.mk.inj hrun).1

theorem failsOnly_guard {c : Prop} [Decidable c] {fault : Fault} {x : Change α} {f : Unit → Change α}
    (hfault : c → P fault) (h : ¬ c → FailsOnly P x fs) :
    FailsOnly P (if c then (throw fault : Change Unit) >>= f else x) fs := by
  by_cases hc : c
  · rw [if_pos hc]
    exact .bind (.throw (hfault hc)) fun a t hrun => (not_throw_run hrun).elim
  · rw [if_neg hc]
    exact h hc

/-- A change that reads the file system first goes on with it as it is. -/
theorem failsOnly_bind_now {f : FileSystem → Change α} (h : FailsOnly P (f fs) fs) :
    FailsOnly P (now >>= f) fs :=
  .bind_of_ok rfl h

end Steps

/-! ## Directories -/

/-- A directory is not created for a lack of permission, or because it is there. -/
abbrev DeniedOrThere (fs : FileSystem) (p : Path) (fault : Fault) : Prop :=
  fault = .denied ∨ fault = .exists ∧ fs.isDirectory p = true

theorem createDirectory_fails_of_refused (h : fs.Refused p) :
    FailsOnly (fs.DeniedOrThere p) (createDirectory p) fs := by
  rw [createDirectory]
  exact .bind_of_error (ask_eq h.slot_eq) (Or.inl rfl)

theorem createDirectory_fails (h : fs.Looks p directory name ∨ fs.Refused p)
    (hclash : ∀ e, fs.find? (directory ++ [name]) = some e → e.isDirectory = true) :
    FailsOnly (fs.DeniedOrThere p) (createDirectory p) fs := by
  rcases h with h | h
  · obtain ⟨mode, entries, slashed, -, -, hslot⟩ := h.exists_slot
    rw [createDirectory]
    refine .bind_of_ok (ask_eq hslot) ?_
    refine failsOnly_guard (fun hlong => absurd hlong (Nat.not_lt.mpr h.short)) fun _ => ?_
    refine failsOnly_bind_now ?_
    refine failsOnly_guard (fun hsome => ?_) fun _ =>
      failsOnly_guard (fun _ => Or.inl rfl) fun _ => failsOnly_putAt
    obtain ⟨e, he⟩ := Option.isSome_iff_exists.mp hsome
    obtain ⟨m, es, rfl⟩ := Entry.isDirectory_iff.mp (hclash e he)
    exact Or.inr ⟨rfl, (h.treads he fun target heq => by cases heq).isDirectory h.askable ⟨m, es, he⟩⟩
  · exact createDirectory_fails_of_refused h

/-- A directory is not created where the path leads to one. -/
theorem createDirectory_fails_of_directory (hanchored : fs.Anchored p) (hask : p.Askable)
    (hup : Step.up ∉ p.moves) (hshort : ∀ n, .down n ∈ p.moves → n.length ≤ nameLimit)
    (hdirectory : fs.HasDirectory (fs.spelled p)) :
    FailsOnly (fs.DeniedOrThere p) (createDirectory p) fs := by
  have habove (way : List Step) (hway : way <+: p.moves) :
      fs.HasDirectory (way.foldl Step.move (fs.beginning p)) :=
    hdirectory.above (Step.foldl_move_mono hup hway _)
  have hfirm : fs.Firm (fs.beginning p) p.moves :=
    ⟨fun way step hway => habove way ((List.prefix_append way [step]).trans hway), hshort,
      p.settle_notMem_moves⟩
  rcases open_or_refused hanchored hask (.done linkLimit _) (List.nil_append _).symm hfirm with hopen | h
  · have hthere : fs.isDirectory p = true :=
      Treads.isDirectory ⟨hanchored, (Trail.of_foldl hopen hshort hdirectory).of_zero linkLimit⟩ hask
        hdirectory
    have hdrop : p.moves.dropLast <+: p.moves := List.dropLast_prefix _
    obtain ⟨mode, entries, hfind⟩ := habove _ hdrop
    obtain ⟨slashed, -, hslot⟩ := slot_of_trail hanchored hask ((Trail.of_foldl
      (fun way step hway => hopen way step (hway.trans hdrop))
      (fun n hn => hshort n (hdrop.subset hn)) ⟨mode, entries, hfind⟩).of_zero linkLimit) hfind
    rw [createDirectory]
    cases hsearch : mode.search with
    | false =>
      rw [hsearch, if_neg Bool.false_ne_true] at hslot
      exact .bind_of_error (ask_eq hslot) (Or.inl rfl)
    | true =>
      rw [hsearch, if_pos rfl] at hslot
      refine .bind_of_ok (ask_eq hslot) ?_
      cases hname : p.lastName? with
      | none => exact .throw (Or.inr ⟨rfl, hthere⟩)
      | some name =>
        -- the name is that of the directory the path leads to
        have hmoves : p.moves = p.moves.dropLast ++ [.down name] := by
          rw [Path.lastName?] at hname
          split at hname
          · rename_i hlast
            rw [← Option.some.inj hname]
            exact (List.dropLast_append_getLast? _ hlast).symm
          · cases hname
        have hmem : Step.down name ∈ p.moves := by
          rw [hmoves]
          simp
        have hsome : (fs.find? (p.moves.dropLast.foldl Step.move (fs.beginning p) ++ [name])).isSome := by
          obtain ⟨m, es, hfound⟩ := hdirectory
          rw [spelled, hmoves, List.foldl_append] at hfound
          exact Option.isSome_iff_exists.mpr ⟨_, hfound⟩
        refine failsOnly_guard (fun hlong => absurd hlong (Nat.not_lt.mpr (hshort name hmem))) fun _ => ?_
        refine failsOnly_bind_now (failsOnly_guard (fun _ => Or.inr ⟨rfl, hthere⟩) fun hnone => ?_)
        exact absurd hsome hnone
  · exact createDirectory_fails_of_refused h

theorem unlessDirectory_fails {P : Fault → Prop} {fault : Fault}
    (h : fs.isDirectory p = true ∨ P fault) : FailsOnly P (unlessDirectory p fault) fs := by
  rw [unlessDirectory]
  refine failsOnly_bind_now ?_
  split
  · exact .pure ()
  · rename_i hdirectory
    exact .throw (h.resolve_left hdirectory)

/-- A fault that was caught is passed on only if it is a lack of permission. -/
theorem DeniedOrThere.unlessDirectory_fails {fault : Fault} (h : fs.DeniedOrThere p fault) :
    FailsOnly (· = .denied) (unlessDirectory p fault) fs :=
  FileSystem.unlessDirectory_fails (h.symm.imp_left And.right)

/-- A chain need not be followed if the first directory of it can be created. -/
theorem createChain_fails {above : List Path}
    (h : FailsOnly (fs.DeniedOrThere p) (createDirectory p) fs) :
    FailsOnly (· = .denied) (createChain (p :: above)) fs := by
  rw [createChain]
  split
  · exact .pure ()
  refine .tryCatch fun fault t hrun => ?_
  obtain rfl := createDirectory_error hrun
  have hfault := h fault _ hrun
  split
  · rcases hfault with heq | ⟨heq, -⟩
    · cases heq
    · cases heq
  · exact hfault.unlessDirectory_fails

/-- The directories above a path are directories, as far as there is anything, and what it leads to is
one or is missing. -/
structure Makeable (fs : FileSystem) (p : Path) : Prop where
  anchored : fs.Anchored p
  up_notMem : Step.up ∉ p.moves
  short : ∀ name, .down name ∈ p.moves → name.length ≤ nameLimit
  way : ∀ way, way <+: p.moves → fs.find? (way.foldl Step.move (fs.beginning p)) = none ∨
    fs.HasDirectory (way.foldl Step.move (fs.beginning p))

theorem Makeable.linkFree (h : fs.Makeable p) : fs.LinkFree p := by
  intro way hway target hlink
  rcases h.way way hway with hnone | ⟨mode, entries, hfind⟩
  · rw [hnone] at hlink
    cases hlink
  · rw [hfind] at hlink
    cases hlink

theorem Makeable.of_prefix {q : Path} (h : fs.Makeable p) (habsolute : q.isAbsolute = p.isAbsolute)
    (hmoves : q.moves <+: p.moves) : fs.Makeable q where
  anchored := h.anchored.of_isAbsolute_eq habsolute
  up_notMem hup := h.up_notMem (hmoves.subset hup)
  short name hname := h.short name (hmoves.subset hname)
  way way hway := by
    rw [beginning_of_isAbsolute_eq habsolute]
    exact h.way way (hway.trans hmoves)

/-- When the directory above has been made, the name is looked up in it. -/
theorem Makeable.looks_or_refused {fs' : FileSystem} {init : List Step} (h : fs.Makeable p)
    (hask : p.Askable) (hcurrent : fs'.current = fs.current) (hmoves : p.moves = init ++ [.down name])
    (hdirectory : fs'.HasDirectory (init.foldl Step.move (fs.beginning p))) :
    fs'.Looks p (init.foldl Step.move (fs.beginning p)) name ∨ fs'.Refused p := by
  have hbeginning : fs'.beginning p = fs.beginning p := by rw [beginning, hcurrent, beginning]
  have hanchored : fs'.Anchored p := by
    rw [Anchored, hcurrent]
    exact h.anchored
  rw [← hbeginning] at hdirectory ⊢
  refine FileSystem.looks_or_refused hanchored hask (.done linkLimit _) hmoves (fun hup => ?_) hdirectory
    fun n hn => h.short n (hmoves ▸ hn)
  exact h.up_notMem (hmoves ▸ List.mem_append_left _ hup)

/-- The path above one that ends in a name leads to the directory of the name.  If there is nothing yet,
then it ends in a name as well. -/
theorem Makeable.exists_parent? {init : List Step} (h : fs.Makeable p) (hask : p.Askable)
    (hroot : fs.HasDirectory (fs.beginning p)) (hmoves : p.moves = init ++ [.down name]) :
    ∃ q, p.parent? = some q ∧ q.isAbsolute = p.isAbsolute ∧ q.moves <+: init ∧
      init.foldl Step.move (fs.beginning p) = fs.spelled q ∧
      (fs.find? (fs.spelled q) = none →
        q.Askable ∧ ∃ init' name', q.moves = init' ++ [.down name']) := by
  obtain ⟨q, stays, hparent, hinit, hstays, hlast, hsegments, hbytes⟩ := Path.exists_parent? hmoves
  obtain ⟨habsolute, -⟩ := Path.moves_parent? hparent
  have hbeginning : fs.beginning q = fs.beginning p := beginning_of_isAbsolute_eq habsolute
  have hq : q.moves <+: init := hinit ▸ List.prefix_append q.moves stays
  refine ⟨q, hparent, habsolute, hq, ?_, fun hnone => ?_⟩
  · rw [spelled, hbeginning, hinit, List.foldl_append, Step.foldl_move_stays hstays]
  rw [spelled, hbeginning] at hnone
  -- where the path begins there is a directory, so the path above leads on from there
  have hne : q.moves ≠ [] := by
    intro hnil
    rw [hnil] at hnone
    exact not_hasDirectory_of_none hnone hroot
  refine ⟨⟨fun s hs => ?_, ?_, Nat.lt_of_le_of_lt hbytes hask.short⟩, ?_⟩
  · rcases hsegments s hs with rfl | hs
    · simp
    · exact hask.zero_notMem s hs
  · rintro rfl
    exact hne rfl
  · obtain ⟨init', step, hstep⟩ := (List.eq_nil_or_concat q.moves).resolve_left hne
    rw [List.concat_eq_append] at hstep
    have hmem : step ∈ q.moves := by
      rw [hstep]
      simp
    cases step with
    | settle => exact absurd hmem q.settle_notMem_moves
    | up => exact absurd (hmoves ▸ List.mem_append_left _ (hq.subset hmem)) h.up_notMem
    | stay =>
      rw [hlast (by rw [hstep, List.getLast?_concat])] at hnone
      exact absurd hroot (not_hasDirectory_of_none hnone)
    | down name' => exact ⟨init', name', hstep⟩

/-- A chain is followed if the directory above is missing. -/
theorem createChain_fails_of_missing {above : List Path}
    (hslot : fs.slot p = .error .missing ∨ fs.slot p = .error .denied)
    (habove : FailsOnly (· = .denied) (createChain above) fs)
    (hafter : ∀ fs', createChain above fs = (.ok (), fs') →
      FailsOnly (fs'.DeniedOrThere p) (createDirectory p) fs') :
    FailsOnly (· = .denied) (createChain (p :: above)) fs := by
  rw [createChain]
  split
  · exact .pure ()
  refine .tryCatch fun fault t hrun => ?_
  obtain rfl := createDirectory_error hrun
  have hfault : t.slot p = .error fault := by
    obtain ⟨fault', hslot⟩ : ∃ fault', t.slot p = .error fault' := hslot.elim (⟨_, ·⟩) (⟨_, ·⟩)
    rw [createDirectory, bind_run_of_error (ask_eq hslot)] at hrun
    rw [hslot, Except.error.inj (Prod.mk.inj hrun).1]
  split
  · refine .bind habove fun _ u hmade => .tryCatch fun fault' v hrun' => ?_
    obtain rfl := createDirectory_error hrun'
    exact (hafter v hmade fault' v hrun').unlessDirectory_fails
  · rename_i hne
    rw [hfault] at hslot
    rcases hslot with heq | heq
    · exact absurd (Except.error.inj heq) hne
    · exact unlessDirectory_fails (Or.inr (Except.error.inj heq))

/-- What is below the last directory of a chain is missing before and after the chain is made. -/
theorem Makeable.of_createChain {n : Nat} {fs' : FileSystem} (h : fs.Makeable p) (hn : 0 < n)
    (hcurrent : fs.HasDirectory fs.current.location) (hnone : fs.find? (fs.spelled p) = none)
    (hrun : createChain (Path.lineage n p) fs = (.ok (), fs')) :
    fs'.current = fs.current ∧ fs'.HasDirectory (fs.spelled p) ∧
      fs'.find? (fs.spelled p ++ [name]) = none := by
  obtain ⟨hmakes, harrives⟩ := (createChain_ends hcurrent fun q hq =>
    ⟨h.anchored.of_isAbsolute_eq (Path.moves_of_mem_lineage hq).1, Path.moves_of_mem_lineage hq⟩).ok_of_run hrun
  obtain ⟨loc, hreaches, hdirectory⟩ := harrives p (by
    obtain ⟨m, rfl⟩ := Nat.exists_eq_succ_of_ne_zero hn.ne'
    rw [Path.lineage]
    cases p.parent? <;> rfl)
  obtain rfl := hreaches.eq (hmakes.sameLinks.madeAt h.linkFree.madeAt)
  refine ⟨hmakes.touches.keeps.current_eq, hdirectory, ?_⟩
  rw [hmakes.touches.find?_eq, find?_append_eq_none (not_hasDirectory_of_none hnone) (by simp)]
  rintro l ⟨hl, -⟩ hbelow
  have hlength := (hbelow.trans (prefix_of_passes h.linkFree h.up_notMem hl)).length_le
  rw [List.length_append, List.length_singleton] at hlength
  omega

/-- The directories above a path can be made, and so can what it leads to. -/
theorem createChain_lineage_fails {n : Nat} {init : List Step} (hn : p.moves.length ≤ n)
    (hcurrent : fs.HasDirectory fs.current.location) (hroot : fs.HasDirectory (fs.beginning p))
    (h : fs.Makeable p) (hask : p.Askable) (hmoves : p.moves = init ++ [.down name]) :
    FailsOnly (· = .denied) (createChain (Path.lineage n p)) fs := by
  induction n generalizing p init name with
  | zero =>
    rw [hmoves] at hn
    simp at hn
  | succ n ih =>
    obtain ⟨q, hparent, habsolute, hq, hplace, habove⟩ := h.exists_parent? hask hroot hmoves
    have hfirst : init <+: p.moves := hmoves ▸ List.prefix_append init _
    rw [Path.lineage, hparent]
    rcases h.way init hfirst with hnone | hdirectory
    · -- the directory above is missing, and is made first
      have hmakeable := h.of_prefix habsolute (hq.trans hfirst)
      obtain ⟨hask', init', name', hmoves'⟩ := habove (hplace ▸ hnone)
      have hlength : 0 < q.moves.length ∧ q.moves.length ≤ n := by
        have hle := hq.length_le
        rw [hmoves, List.length_append, List.length_singleton] at hn
        refine ⟨?_, by omega⟩
        rw [hmoves']
        simp
      refine createChain_fails_of_missing (slot_of_missing h.anchored hask hroot hmoves ?_ ?_ ?_ hnone)
        (ih hlength.2 ?_ hmakeable hask' hmoves') fun fs' hrun => ?_
      · exact fun hup => h.up_notMem (hfirst.subset hup)
      · exact fun n hn => h.short n (hfirst.subset hn)
      · exact fun way hway => h.way way (hway.trans hfirst)
      · rwa [beginning_of_isAbsolute_eq habsolute]
      · obtain ⟨hsame, hdirectory, hfree⟩ := hmakeable.of_createChain
          (Nat.lt_of_lt_of_le hlength.1 hlength.2) hcurrent (hplace ▸ hnone) hrun
        rw [← hplace] at hdirectory hfree
        refine createDirectory_fails (h.looks_or_refused hask hsame hmoves hdirectory) fun e he => ?_
        rw [hfree] at he
        cases he
    · refine createChain_fails (createDirectory_fails (h.looks_or_refused hask rfl hmoves hdirectory)
        fun e he => ?_)
      have hself := h.way p.moves (List.prefix_refl _)
      rw [hmoves, List.foldl_append] at hself
      rcases hself with hnone | ⟨mode, entries, hfind⟩
      · exact absurd (hnone.symm.trans he) (by simp)
      · rw [← Option.some.inj (hfind.symm.trans he)]
        rfl

/-- Nothing has to be made for the empty path. -/
theorem createChain_empty (above : List Path) : createChain (.empty :: above) = pure () := by
  rw [createChain, if_pos rfl]

theorem exists_ancestors (p : Path) : ∃ above, p.ancestors = p :: above := by
  rw [Path.ancestors, Path.lineage]
  cases p.parent? with
  | none => exact ⟨[], rfl⟩
  | some q => exact ⟨_, rfl⟩

/-- A directory can be made whose path leads to one already, or to a name that is missing. -/
theorem createDirectories_fails (hcurrent : fs.HasDirectory fs.current.location)
    (hroot : fs.HasDirectory (fs.beginning p)) (h : fs.Makeable p) (hask : p ≠ .empty → p.Askable)
    (hlast : fs.HasDirectory (fs.spelled p) ∨ ∃ init name, p.moves = init ++ [.down name]) :
    FailsOnly (· = .denied) (createDirectories p) fs := by
  obtain ⟨above, hancestors⟩ := exists_ancestors p
  by_cases hempty : p = .empty
  · rw [createDirectories, hancestors, hempty, createChain_empty]
    exact .pure ()
  rcases hlast with hdirectory | ⟨init, name, hmoves⟩
  · rw [createDirectories, hancestors]
    exact createChain_fails
      (createDirectory_fails_of_directory h.anchored (hask hempty) h.up_notMem h.short hdirectory)
  · refine createChain_lineage_fails ?_ hcurrent hroot h (hask hempty) hmoves
    refine (List.length_filterMap_le _ _).trans ?_
    rw [Path.segments, List.length_append, List.length_singleton]
    omega

/-- Nothing above has to be made if the name is looked up in a directory. -/
theorem createDirectories_fails_of_looks (h : fs.Looks p directory name ∨ fs.Refused p)
    (hclash : ∀ e, fs.find? (directory ++ [name]) = some e → e.isDirectory = true) :
    FailsOnly (· = .denied) (createDirectories p) fs := by
  obtain ⟨above, hancestors⟩ := exists_ancestors p
  rw [createDirectories, hancestors]
  exact createChain_fails (createDirectory_fails h hclash)

/-! ## Files and links -/

/-- A file can be opened where a file is or nothing. -/
theorem openForWriting_fails (h : fs.Looks p directory name ∨ fs.Refused p) (hlast : p.last.IsDown)
    (hfile : ∀ e, fs.find? (directory ++ [name]) = some e → ∃ mode contents, e = .file mode contents) :
    FailsOnly (· = .denied) (openForWriting p) fs := by
  rw [openForWriting]
  refine failsOnly_bind_now ?_
  rcases h with h | h
  · have hresolve := h.resolve_eq hlast .creation (Or.inr fun target hlink => by
      obtain ⟨mode, contents, heq⟩ := hfile _ hlink
      cases heq)
    cases hfind : fs.find? (directory ++ [name]) with
    | none =>
      rw [hfind] at hresolve
      obtain ⟨mode, entries, -, hdirectory⟩ := h.isOpen
      have hat : fs.directoryAt directory = .ok (mode, entries) := by rw [directoryAt, hdirectory]
      refine .bind_of_ok (ask_eq hresolve) (.bind_of_ok (ask_eq hat) ?_)
      exact failsOnly_guard (fun _ => rfl) fun _ => .bind failsOnly_putAt fun _ _ _ => .pure _
    | some e =>
      rw [hfind, Option.isSome_some, if_pos rfl] at hresolve
      obtain ⟨mode, contents, rfl⟩ := hfile e hfind
      refine .bind_of_ok (ask_eq hresolve) ?_
      simp only [hfind]
      exact failsOnly_guard (fun _ => rfl) fun _ => .bind failsOnly_putAt fun _ _ _ => .pure _
  · exact .bind_of_error (ask_eq (h.resolve_eq .creation)) rfl

/-- What is found by a path whose last name is looked up. -/
theorem Looks.lookup_eq (h : fs.Looks p directory name) (hlast : p.last.IsDown) (purpose : Purpose)
    {e : Entry} (he : fs.find? (directory ++ [name]) = some e)
    (hlink : purpose = .itself ∨ ∀ target, e ≠ .link target) : fs.lookup purpose p = .ok e := by
  have hresolve := h.resolve_eq hlast purpose (hlink.imp_right fun hne target heq =>
    hne target (Option.some.inj (he.symm.trans heq)))
  rw [he] at hresolve
  rw [lookup, hresolve]
  simp only [bind, Except.bind, Option.isSome_some, if_true, he]

/-- There is something at a path if there is something at its last name. -/
theorem Looks.isOccupied_eq (h : fs.Looks p directory name) (hlast : p.last.IsDown) :
    fs.isOccupied p = (fs.find? (directory ++ [name])).isSome := by
  rw [isOccupied]
  cases hfind : fs.find? (directory ++ [name]) with
  | none =>
    have hresolve := h.resolve_eq hlast .itself (Or.inl rfl)
    rw [hfind] at hresolve
    rw [lookup, hresolve]
    rfl
  | some e =>
    rw [h.lookup_eq hlast .itself hfind (Or.inl rfl)]
    rfl

theorem Refused.isOccupied_eq (h : fs.Refused p) : fs.isOccupied p = false := by
  rw [isOccupied, h.lookup_eq]
  rfl

theorem copyFile_fails {source : Path} {above : Location} {last : Name} {mode : Mode}
    {contents : Bytes} (hsource : fs.Looks source above last ∨ fs.Refused source)
    (hsourceLast : source.last.IsDown) (he : fs.find? (above ++ [last]) = some (.file mode contents))
    (h : fs.Looks p directory name ∨ fs.Refused p) (hlast : p.last.IsDown)
    (hfile : ∀ e, fs.find? (directory ++ [name]) = some e → ∃ mode contents, e = .file mode contents) :
    FailsOnly (· = .denied) (copyFile source p) fs := by
  rw [copyFile]
  rcases hsource with hsource | hsource
  · have hlink : ∀ target, Entry.file mode contents ≠ .link target := fun target heq => by cases heq
    have hlookup := hsource.lookup_eq hsourceLast .target he (Or.inr hlink)
    have hresolve := hsource.resolve_eq hsourceLast .target (Or.inr fun target heq =>
      hlink target (Option.some.inj (he.symm.trans heq)))
    rw [he] at hresolve
    have hlocate : fs.locate .target source = .ok (above ++ [last]) := by
      rw [locate, hresolve]
      rfl
    refine .bind_of_ok (ask_eq hlookup) ?_
    simp only
    split
    · rw [pure_bind]
      refine .bind_of_ok (ask_eq hlocate) (.bind (openForWriting_fails h hlast hfile) fun loc t _ => ?_)
      refine failsOnly_bind_now ?_
      split
      · exact failsOnly_putAt
      · exact .pure ()
    · exact .bind (.throw rfl) fun _ _ hrun => (not_throw_run hrun).elim
  · exact .bind_of_error (ask_eq (hsource.lookup_eq .target)) rfl

/-- The system can store the text of a link. -/
structure Holdable (target : Path) : Prop where
  zero_notMem : ∀ s ∈ target.segments, (0 : UInt8) ∉ s
  ne_empty : target ≠ .empty

theorem createLink_fails {target : Path} (htarget : Holdable target)
    (h : fs.Looks p directory name ∨ fs.Refused p) (hlast : p.last.IsDown)
    (hnone : fs.Looks p directory name → fs.find? (directory ++ [name]) = none) :
    FailsOnly (· = .denied) (createLink target p) fs := by
  rw [createLink]
  refine failsOnly_guard (fun hzero => ?_) fun _ => ?_
  · obtain ⟨s, hs, hmem⟩ := List.any_eq_true.mp hzero
    exact absurd (by simpa using hmem) (htarget.zero_notMem s hs)
  refine failsOnly_guard (fun hempty => absurd hempty htarget.ne_empty) fun _ => ?_
  rcases h with h | h
  · obtain ⟨mode, entries, slashed, -, hslashed, hslot⟩ := h.exists_slot
    obtain rfl := hslashed hlast
    refine .bind_of_ok (ask_eq hslot) ?_
    refine failsOnly_guard (fun hlong => absurd hlong (Nat.not_lt.mpr h.short)) fun _ => ?_
    refine failsOnly_bind_now (failsOnly_guard (fun hsome => ?_) fun _ => ?_)
    · rw [hnone h] at hsome
      cases hsome
    · exact failsOnly_guard (fun hslash => by cases hslash) fun _ =>
        failsOnly_guard (fun _ => rfl) fun _ => failsOnly_putAt
  · exact .bind_of_error (ask_eq h.slot_eq) rfl

theorem removeFile_fails (h : fs.Looks p directory name ∨ fs.Refused p) (hlast : p.last.IsDown)
    {e : Entry} (he : fs.find? (directory ++ [name]) = some e) (hfile : e.isDirectory = false) :
    FailsOnly (· = .denied) (removeFile p) fs := by
  rw [removeFile]
  rcases h with h | h
  · obtain ⟨mode, entries, slashed, -, hslashed, hslot⟩ := h.exists_slot
    obtain rfl := hslashed hlast
    refine .bind_of_ok (ask_eq hslot) ?_
    refine failsOnly_guard (fun hlong => absurd hlong (Nat.not_lt.mpr h.short)) fun _ => ?_
    refine failsOnly_bind_now ?_
    simp only [he]
    refine failsOnly_guard (fun hslash => by cases hslash) fun _ => failsOnly_guard (fun _ => rfl) fun _ => ?_
    refine failsOnly_guard (fun hdirectory => ?_) fun _ fault t hrun => ?_
    · rw [hfile] at hdirectory
      cases hdirectory
    · cases (Prod.mk.inj hrun).1
  · exact .bind_of_error (ask_eq h.slot_eq) rfl

end FileRoutes.FileSystem
