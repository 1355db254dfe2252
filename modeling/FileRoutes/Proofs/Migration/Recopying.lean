import FileRoutes.Proofs.FileSystem.Repetition
import FileRoutes.Proofs.FileSystem.Rewriting
import FileRoutes.Proofs.Migration.Failures
import FileRoutes.Proofs.Migration.Separate

/-!
# Copying once more

A copy that is made once more finds every directory and every file that it is about to make, so it makes
nothing and only writes into files what they held after the first time.  If some of them have got other
contents since, these are lost, and nothing else changes.

## What is shown of a step

Let `last` be the file system to which all this has led.  A step is repeatable if it succeeds in `last`,
whatever is in the files of a given part, and leaves all but those as it is in `last`
(`Action.Repeatable`).  Such steps can be put together, so all that has to be shown is that a step of the
copy is repeatable in what has grown from the state in which it ended the first time
(`copyDirectory_repeatable`, `copyFile_repeatable`).  The walk follows by induction on the depth, where the
turns of the loop that have been taken are repeatable (`copyBelow_repeatable`).

The second copy has to overwrite the files that the first one made, and these have the modes of their
sources.  So it is here that the files of the source have to be writable.
-/

namespace FileRoutes

open FileSystem (Grows Rewritten)

/-! ## Repeatable steps -/

namespace Action

variable {α β : Type} {part : Location → Prop} {fs : FileSystem}

/-- Whatever is in the files of the part, the step succeeds and leaves all but those as it is. -/
def Repeatable (part : Location → Prop) (fs : FileSystem) (x : Action α) : Prop :=
  ∀ v, Rewritten part fs v → ∃ a v', on x v = (.ok a, v') ∧ Rewritten part fs v'

namespace Repeatable

theorem of_same {x : Action α} {a : α} (h : ∀ v, Rewritten part fs v → on x v = (.ok a, v)) :
    Repeatable part fs x :=
  fun v hv => ⟨a, v, h v hv, hv⟩

theorem pure (a : α) : Repeatable part fs (Pure.pure a) := of_same fun _ _ => rfl

theorem tell (level : Level) (stage : Stage) (message : Text) :
    Repeatable part fs (tell level stage message) :=
  of_same fun v _ => on_tell level stage message v

/-- One repeatable step after the other. -/
theorem bind {x : Action α} {f : α → Action β} (hlog : ∀ a, Logless (f a)) (hx : Repeatable part fs x)
    (hf : ∀ a, Repeatable part fs (f a)) : Repeatable part fs (x >>= f) := by
  intro v hv
  obtain ⟨a, v', ha, hv'⟩ := hx v hv
  obtain ⟨b, w, hb, hw⟩ := hf a v' hv'
  exact ⟨b, w, (on_bind_of_ok hlog ha).trans hb, hw⟩

/-- What follows an answer that is always the same has to be repeatable for this answer only. -/
theorem bind_of_same {x : Action α} {f : α → Action β} {a : α} (hlog : ∀ a, Logless (f a))
    (hx : ∀ v, Rewritten part fs v → on x v = (.ok a, v)) (hf : Repeatable part fs (f a)) :
    Repeatable part fs (x >>= f) := by
  intro v hv
  obtain ⟨b, w, hb, hw⟩ := hf v hv
  exact ⟨b, w, (on_bind_of_ok hlog (hx v hv)).trans hb, hw⟩

/-- A repeatable step does not fail. -/
theorem ends {x : Action α} (h : Repeatable part fs x) (hlog : Logless x) {s : Session}
    (hs : Rewritten part fs s.fs) : Ends x s (fun _ t => Rewritten part fs t.fs) fun _ => False := by
  obtain ⟨a, v, hon, hv⟩ := h s.fs hs
  refine .of_run (fun b t hrun => ?_) fun failure t hrun => ?_
  · rw [hlog.of_run hrun] at hon
    rwa [(Prod.mk.inj hon).2]
  · rw [hlog.of_run hrun] at hon
    cases (Prod.mk.inj hon).1

end Repeatable

end Action

namespace Copy

open FileRoutes.Action (Repeatable)

variable {source target : Path} {origin goal : Location} {part : Location → Prop}
  {fs fs' last : FileSystem} {s t : Session} {names init : List Name} {name : Name}

/-! ## What has been left -/

/-- The file system has grown since, but not in the source. -/
structure Since (origin : Location) (fs last : FileSystem) : Prop extends Grows fs last where
  source : ∀ below, last.find? (origin ++ below) = fs.find? (origin ++ below)

/-- The files of the source are in the target, and can be overwritten; those in the part may have got
other contents. -/
structure Settled (part : Location → Prop) (origin goal : Location) (last : FileSystem) : Prop where
  valid : last.root.Valid
  root : last.HasDirectory []
  apart : ∀ below, ¬ origin <+: goal ++ below
  outside : ∀ l, part l → ¬ origin <+: l
  rewritable : ∀ l, part l → ∃ mode contents, last.find? l = some (.file mode contents)
  noLink : ∀ below link, last.find? (origin ++ below) ≠ some (.link link)
  file : ∀ below mode contents, last.find? (origin ++ below) = some (.file mode contents) →
    mode.write = true ∧ ∃ before, last.find? (goal ++ below) = some (.file mode before) ∧
      (part (goal ++ below) ∨ before = contents)

theorem Settled.find?_source (h : Settled part origin goal last) {v : FileSystem}
    (hv : Rewritten part last v) (below : List Name) :
    v.find? (origin ++ below) = last.find? (origin ++ below) :=
  hv.find?_eq h.valid fun l hl hprefix => h.outside l hl ((List.prefix_append origin below).trans hprefix)

/-- What is copied grows, if there is no link in the source. -/
theorem Copied.grows {done : List Name → Prop} (h : Copied origin goal done fs fs')
    (hlink : ∀ below link, fs.find? (origin ++ below) ≠ some (.link link)) : Grows fs fs' where
  toKeeps := h.touches.keeps
  file loc mode contents hfile := by
    have hview := FileSystem.view_eq_file_iff.mpr hfile
    by_cases hloc : ∃ below e, done below ∧ fs.find? (origin ++ below) = some e ∧
        loc = goal ++ below ∧ ¬ origin <+: loc
    · obtain ⟨below, e, hbelow, he, rfl, -⟩ := hloc
      have hoverlaid := h.overlaid below hbelow
      rw [Overlaid, FileSystem.view, FileSystem.view, he, Option.map_some] at hoverlaid
      cases e with
      | link link => exact absurd he (hlink below link)
      | file mode' contents' =>
        exact ⟨mode', contents', FileSystem.view_eq_file_iff.mp hoverlaid⟩
      | directory mode' entries =>
        refine absurd ⟨_, _, FileSystem.view_eq_directory_iff.mpr ⟨entries, he⟩, hview, ?_⟩
          (h.agrees below hbelow)
        simp [Entry.isDirectory, Entry.kind]
    · refine ⟨mode, contents, ?_⟩
      rw [← FileSystem.view_eq_file_iff, h.touches.view_eq loc hloc]
      exact hview

/-- What was left after a part of the copy has come from what was there before it. -/
theorem Since.of_copied {done : List Name → Prop} (h : Since origin fs' last)
    (hcopied : Copied origin goal done fs fs') (hsettled : Settled part origin goal last) :
    Since origin fs last where
  toGrows := by
    refine (hcopied.grows fun below link hlink => hsettled.noLink below link ?_).trans h.toGrows
    rw [h.source, hcopied.find?_source]
    exact hlink
  source below := (h.source below).trans (hcopied.find?_source below)

/-! ## One entry -/

/-- A directory that has been copied is there. -/
theorem copyDirectory_repeatable (h : Course s.fs source target origin goal)
    (habove : s.fs.HasDirectory (goal ++ init))
    (hdirectory : s.fs.HasDirectory (origin ++ (init ++ [name]))) {totals : CopyTotals}
    (hrun : copyEntry source target (init ++ [name]) .directory s = (.ok totals, t))
    (hsince : Since origin t.fs last) :
    Repeatable part last (copyEntry source target (init ++ [name]) .directory) := by
  obtain ⟨-, hcopied, -⟩ := (copyDirectory_ends h habove hdirectory).ok_of_run hrun
  obtain ⟨mode, entries, he⟩ := hdirectory
  have hanchored := (h.copied hcopied).targetAnchored.of_isAbsolute_eq (h.goesOn_destination he).isAbsolute_eq
  rw [copyEntry] at hrun ⊢
  obtain ⟨_, u, hcreate, hrun⟩ := exists_of_bind_run hrun
  obtain ⟨-, rfl⟩ := eq_of_pure_run hrun
  refine .bind (fun _ => .pure _) (.of_same (a := ()) fun v hv => ?_) fun _ => .pure _
  exact Action.on_change_of_ok (FileSystem.createDirectories_again (Action.change_run hcreate)
    hanchored (hsince.toGrows.trans hv.grows))

/-- A file that has been copied is overwritten with what it held. -/
theorem copyFile_repeatable (h : Course s.fs source target origin goal)
    (habove : s.fs.HasDirectory (goal ++ init)) {mode : Mode} {contents : Bytes}
    (he : s.fs.find? (origin ++ (init ++ [name])) = some (.file mode contents)) {totals : CopyTotals}
    (hrun : copyEntry source target (init ++ [name]) .file s = (.ok totals, t))
    (hsince : Since origin t.fs last) (hsettled : Settled part origin goal last) :
    Repeatable part last (copyEntry source target (init ++ [name]) .file) := by
  have hnolink (link : Path) : Entry.file mode contents ≠ .link link := fun heq => by cases heq
  obtain ⟨-, hcopied⟩ := (copyFile_ends h habove he).ok_of_run hrun
  have hbefore := hsince.of_copied hcopied hsettled
  rw [copyEntry] at hrun ⊢
  obtain ⟨_, u, htell, hrun⟩ := exists_of_bind_run hrun
  obtain ⟨_, w, hcopy, -⟩ := exists_of_bind_run hrun
  rw [← Action.tell_run htell] at h habove he hbefore
  obtain ⟨found, place, m, c, hfound, hfile, hread, hplace⟩ :=
    FileSystem.exists_of_copyFile (Action.change_run hcopy)
  -- both paths lead where they should
  have hreaches := FileSystem.reaches_of_resolve
    (h.sourceAnchored.of_isAbsolute_eq (h.goesOn_entry he).isAbsolute_eq) (by simp) hfound
  obtain rfl := hreaches.eq (h.madeAt_entry he hnolink)
  obtain ⟨l, hleads, hfinds⟩ := FileSystem.finds_of_resolve
    (h.targetAnchored.of_isAbsolute_eq (h.goesOn_destination he).isAbsolute_eq) hplace
  obtain rfl := (hfinds.reaches (by simp)).eq (h.madeAt_destination habove he hnolink)
  rw [he] at hfile
  obtain ⟨rfl, rfl⟩ := Entry.file.inj (Option.some.inj hfile)
  obtain ⟨hwrite, before, hlast, hpart⟩ := hsettled.file _ mode contents ((hbefore.source _).trans he)
  refine .bind (fun _ => .bind (.change _ _) fun _ => .pure _) (.tell _ _ _) fun _ =>
    .bind (fun _ => .pure _) (fun v hv => ?_) fun _ => .pure _
  have hgrows := hbefore.toGrows.trans hv.grows
  have hsource : v.find? (origin ++ (init ++ [name])) = some (.file mode contents) :=
    (hsettled.find?_source hv _).trans ((hbefore.source _).trans he)
  obtain ⟨now, hthere⟩ : ∃ now, v.find? (goal ++ (init ++ [name])) = some (.file mode now) := by
    by_cases hin : part (goal ++ (init ++ [name]))
    · obtain ⟨mode', x, now, hx, hnow⟩ := hv.file _ hin
      rw [hlast] at hx
      obtain ⟨rfl, -⟩ := Entry.file.inj (Option.some.inj hx)
      exact ⟨now, hnow⟩
    · refine ⟨before, ?_⟩
      rw [← FileSystem.view_eq_file_iff, hv.view_eq _ hin]
      exact FileSystem.view_eq_file_iff.mpr hlast
  have hcopy' := FileSystem.copyFile_eq_ok (hv.grows.hasDirectory hsettled.root)
    (hgrows.resolve_again (FileSystem.fills_entry v _) hfound) hsource hread
    (hgrows.resolve_again (hleads.fills hthere fun link heq => by cases heq) hplace) hthere hwrite
    fun heq => hsettled.apart (init ++ [name]) (heq ▸ List.prefix_append origin _)
  refine ⟨(), _, Action.on_change_of_ok hcopy', ?_⟩
  refine hv.put (hv.grows.hasDirectory hsettled.root) hthere (fun _ _ => Iff.rfl) (hpart.imp_right ?_)
  rintro rfl
  exact hlast

/-! ## The walk -/

/-- What the walk below a directory did it does again. -/
def WalkRepeats (part : Location → Prop) (origin goal : Location) (last : FileSystem)
    (source target : Path) (depth : Nat) (names : List Name) : Prop :=
  ∀ (s t : Session) (totals : CopyTotals) (mode : Mode) (entries : List (Name × Entry)),
    Course s.fs source target origin goal → s.fs.HasDirectory (goal ++ names) →
    s.fs.find? (origin ++ names) = some (.directory mode entries) →
    copyBelow source target depth names s = (.ok totals, t) → Since origin t.fs last →
    Repeatable part last (copyBelow source target depth names)

/-- So is one turn of the loop. -/
theorem copyTurn_repeatable {depth : Nat} {e : Entry} (hsettled : Settled part origin goal last)
    (h : Course s.fs source target origin goal) (habove : s.fs.HasDirectory (goal ++ names))
    (he : s.fs.find? (origin ++ (names ++ [name])) = some e)
    (hwalk : WalkRepeats part origin goal last source target depth (names ++ [name]))
    {before after : CopyTotals}
    (hrun : (do
      let here ← copyEntry source target (names ++ [name]) e.kind
      let below ←
        if e.kind = Entry.Kind.directory then copyBelow source target depth (names ++ [name])
        else pure .zero
      return before + here + below) s = (.ok after, t))
    (hsince : Since origin t.fs last) (start : CopyTotals) :
    Repeatable part last (do
      let here ← copyEntry source target (names ++ [name]) e.kind
      let below ←
        if e.kind = Entry.Kind.directory then copyBelow source target depth (names ++ [name])
        else pure .zero
      return start + here + below) := by
  obtain ⟨-, hturn, -⟩ := (copyTurn_ends h habove he (copyBelow_ends depth _) before).ok_of_run hrun
  obtain ⟨here, u, hentry, hrun⟩ := exists_of_bind_run hrun
  cases e with
  | link link => exact absurd ((hsince.source _).trans ((hturn.find?_source _).trans he)) (hsettled.noLink _ link)
  | file mode contents =>
    obtain ⟨-, rfl⟩ := eq_of_pure_run hrun
    exact .bind (fun _ => .bind (.pure _) fun _ => .pure _)
      (copyFile_repeatable h habove he hentry hsince hsettled) fun _ => .bind (fun _ => .pure _) (.pure _)
        fun _ => .pure _
  | directory mode entries =>
    obtain ⟨below, w, hbelow, hrun⟩ :=
      exists_of_bind_run (x := copyBelow source target depth (names ++ [name])) hrun
    obtain ⟨-, rfl⟩ := eq_of_pure_run hrun
    obtain ⟨-, hcopied, hmade⟩ := (copyDirectory_ends h habove ⟨mode, entries, he⟩).ok_of_run hentry
    have he' : u.fs.find? (origin ++ (names ++ [name])) = some (.directory mode entries) :=
      (hcopied.find?_source _).trans he
    have hcourse := h.copied hcopied
    obtain ⟨-, hcopied', -⟩ := (copyBelow_ends depth _ u mode entries hcourse hmade he').ok_of_run hbelow
    exact .bind (fun _ => .bind (Action.pervades_logless.copyBelow _ _ _ _) fun _ => .pure _)
      (copyDirectory_repeatable h habove ⟨mode, entries, he⟩ hentry (hsince.of_copied hcopied' hsettled))
      fun _ => .bind (fun _ => .pure _) (hwalk u w below mode entries hcourse hmade he' hbelow hsince)
        fun _ => .pure _

/-- The same entries are listed. -/
theorem on_entries (hsettled : Settled part origin goal last) (h : Course s.fs source target origin goal)
    {mode : Mode} {entries : List (Name × Entry)}
    (he : s.fs.find? (origin ++ names) = some (.directory mode entries)) {es : List (Name × Entry.Kind)}
    (hrun : Copy.entries source names s = (.ok es, t)) (hsince : Since origin s.fs last) {v : FileSystem}
    (hv : Rewritten part last v) : (Copy.entries source names).on v = (.ok es, v) := by
  have hanchored := h.sourceAnchored.of_isAbsolute_eq (h.goesOn_entry he).isAbsolute_eq
  rw [Copy.entries] at hrun ⊢
  obtain ⟨found, u, hfound, hrun⟩ := exists_of_bind_run hrun
  obtain ⟨rfl, rfl⟩ := Action.fileSystem_run hfound
  obtain ⟨hlist, rfl⟩ := Action.attempt_run hrun
  obtain ⟨m, inside, hlookup, hread, rfl⟩ := FileSystem.exists_of_list (Action.eq_ok_of_mapError hlist)
  obtain ⟨loc, hresolve, hfind⟩ := FileSystem.exists_of_lookup hanchored hlookup
  have hreaches := FileSystem.reaches_of_resolve hanchored (by simp) hresolve
  obtain rfl := hreaches.eq (h.madeAt_entry he fun link heq => by cases heq)
  have hfind' : v.find? (origin ++ names) = some (.directory m inside) :=
    (hsettled.find?_source hv _).trans ((hsince.source _).trans hfind)
  have hlookup' : v.lookup .target (entryPath source names) = .ok (.directory m inside) :=
    FileSystem.lookup_of_resolve ((hsince.toGrows.trans hv.grows).resolve_again
      (FileSystem.fills_entry v _) hresolve) hfind'
  rw [Action.on_bind_of_ok (fun _ => .attempt _ _) (Action.on_fileSystem v)]
  refine Action.on_attempt_of_ok ?_ v
  rw [FileSystem.list, hlookup']
  simp only [bind, Except.bind, hread, if_true]
  rfl

/-- The walk can be taken once more. -/
theorem copyBelow_repeatable (hsettled : Settled part origin goal last) (depth : Nat) (names : List Name) :
    WalkRepeats part origin goal last source target depth names := by
  induction depth generalizing names with
  | zero =>
    intro s t totals mode entries _ _ _ hrun _
    exact (not_throw_run hrun).elim
  | succ depth ih =>
    intro s t totals mode entries h habove he hrun hsince
    obtain ⟨-, hcopied, -⟩ := (copyBelow_ends (depth + 1) names s mode entries h habove he).ok_of_run hrun
    have hbefore := hsince.of_copied hcopied hsettled
    rw [copyBelow] at hrun ⊢
    obtain ⟨es, u, hentries, hrun⟩ := exists_of_bind_run hrun
    have hlisted (v : FileSystem) (hv : Rewritten part last v) :=
      on_entries hsettled h he hentries hbefore hv
    obtain ⟨rfl, rfl, -⟩ := (entries_ends h he).ok_of_run hentries
    -- neither one turn nor all of them depend on the log
    have hturnLog (name : Name) := Action.pervades_logless.copyTurn
      (Action.pervades_logless.copyBelow source target depth (names ++ [name]))
    refine .bind_of_same (fun es => Action.pervades_logless.foldlM
      (fun before entry => hturnLog entry.1 entry.2 before) es _) hlisted ?_
    rw [List.foldlM_map] at hrun ⊢
    -- the turns that have been taken can be taken once more
    refine ((Ends.foldlM (fun done _ (w : Session) =>
      Copied origin goal (fun b => ∃ p ∈ done, names ++ [p.1] <+: b) u.fs w.fs ∧
      (Since origin w.fs last → Repeatable part last (done.foldlM _ CopyTotals.zero)))
      ⟨.noTurn u.fs, fun _ => .pure _⟩ ?_ : Ends _ u _ fun _ => True).ok_of_run hrun).2 hsince
    rintro done ⟨name, e⟩ rest hentries before w ⟨hc, hdone⟩
    have hmem : (name, e) ∈ entries := by
      rw [hentries]
      simp
    have he' := (hc.find?_source _).trans (h.find?_of_mem he hmem)
    have hthere := hc.touches.keeps.hasDirectory habove
    refine .of_run (fun after x hturn => ?_) fun _ _ _ => trivial
    obtain ⟨-, hc', -⟩ := (copyTurn_ends (h.copied hc) hthere he' (copyBelow_ends depth _) before).ok_of_run hturn
    refine ⟨hc.turn hc', fun hx => ?_⟩
    rw [List.foldlM_append]
    refine .bind (fun start => ?_) (hdone (hx.of_copied hc' hsettled)) fun start => ?_
    · exact Action.pervades_logless.foldlM (fun before p => hturnLog p.1 (Entry.kind p.2) before) [(name, e)] _
    · rw [List.foldlM_cons]
      exact .bind (fun _ => .pure _)
        (copyTurn_repeatable hsettled (h.copied hc) hthere he' (ih _) hturn hx start) fun _ => .pure _

/-! ## The whole copy -/

/-- A copy can be made once more. -/
theorem Separate.copyTree_again {totals : CopyTotals} (h : Separate s.fs source target origin goal)
    (hcut : target.Cut) (hrun : copyTree source target s = (.ok totals, t))
    (hsince : Since origin t.fs last) (hsettled : Settled part origin goal last)
    (hlast : Separate last source target origin goal) :
    ∃ totals v, (copyTree source target).on last = (.ok totals, v) ∧ Rewritten part last v := by
  suffices hends : Ends (copyTree source target) s (fun _ t => Since origin t.fs last →
      ∃ totals v, (copyTree source target).on last = (.ok totals, v) ∧ Rewritten part last v)
      (fun _ => True) from
    hends.ok_of_run hrun hsince
  refine h.copyTree_ends (fun fs' => Since origin fs' last →
      ∃ totals v, (copyTree source target).on last = (.ok totals, v) ∧ Rewritten part last v)
    (fun _ => True) (.of_run (fun _ fs' hcreate u hu => .of_run (fun inside w hbelow hsince => ?_)
      fun _ _ _ => trivial) fun _ _ _ => trivial)
  subst hu
  obtain ⟨-, -, hcourse⟩ := h.made hcut hcreate
  obtain ⟨m, es, hfind⟩ := hcourse.sourceDirectory
  have hgoal : u.fs.HasDirectory (goal ++ []) := by simpa using hcourse.targetDirectory
  have hfind' : u.fs.find? (origin ++ []) = some (.directory m es) := by simpa using hfind
  obtain ⟨-, hcopied, -⟩ := (copyBelow_ends _ [] u m es hcourse hgoal hfind').ok_of_run hbelow
  have hrepeat := copyBelow_repeatable hsettled _ [] u w inside m es hcourse hgoal hfind' hbelow hsince
  have hgoesOn : target.GoesOn [] (target.join (.ofNames [])) := .join target (by simp)
  have hcreate' := FileSystem.createDirectories_again hcreate
    (hcourse.targetAnchored.of_isAbsolute_eq hgoesOn.isAbsolute_eq) (hsince.of_copied hcopied hsettled).toGrows
  have hlast' : Separate (Session.fresh last).fs source target origin goal := hlast
  refine Action.exists_on_of_ends (hlast'.copyTree_ends (Rewritten part last) (fun _ => False)
    (.of_run (fun _ fs'' hrun' x hx => ?_) fun e fs'' hrun' => ?_))
  · have hsame : x.fs = last := hx.trans (Prod.mk.inj (hrun'.symm.trans hcreate')).2
    have hstart : Rewritten part last x.fs := by
      rw [hsame]
      exact .refl hsettled.rewritable
    exact hrepeat.ends (Action.pervades_logless.copyBelow _ _ _ _) hstart
  · cases (Prod.mk.inj (hrun'.symm.trans hcreate')).1

end Copy

end FileRoutes
