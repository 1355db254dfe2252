import FileRoutes.Proofs.FileSystem.Canonical
import FileRoutes.Proofs.FileSystem.Denials
import FileRoutes.Proofs.FileSystem.Growth

/-!
# Doing it once more

What has succeeded succeeds once more when the file system has grown (`Grows`), and then there is less to
do: directories are there already, and files only get other contents.

## Questions

A path leads where it led, whatever it is followed for, and if it ended in a gap then it leads to what
has been put there (`Grows.resolve_again`).  So what was found by a path is found again, and a canonical
location stays one (`Grows.canonical_again`).

## Changes

Each change is told for the state in which nothing is missing.  Directories that are there are not made,
so nothing changes at all (`createDirectories_of_isDirectory`).  A file that is there and may be written
is replaced where it is (`writeBytes_eq_ok`, `copyFile_eq_ok`).
-/

namespace FileRoutes.FileSystem

variable {fs fs' : FileSystem} {purpose : Purpose} {p : Path} {loc : Location}

/-! ## Questions -/

theorem lookup_of_resolve (h : fs.resolve purpose p = .ok (.entry loc)) {e : Entry}
    (he : fs.find? loc = some e) : fs.lookup purpose p = .ok e := by
  rw [lookup, h]
  simp only [bind, Except.bind, he]

/-- An entry that a path leads to is reached by way of directories. -/
theorem reaches_of_resolve (hanchored : fs.Anchored p) (hpurpose : purpose ≠ .itself)
    (h : fs.resolve purpose p = .ok (.entry loc)) : fs.Reaches p loc := by
  obtain ⟨found, heq | ⟨directory, name, heq, -⟩, hfinds⟩ := finds_of_resolve hanchored h
  · obtain rfl := Place.entry.inj heq
    exact hfinds.reaches hpurpose
  · cases heq

/-- What a path leads to without finding anything it leads to when there is something. -/
theorem Leads.fills {place : Place} (h : fs.Leads place loc) {e : Entry} (he : fs'.find? loc = some e)
    (hlink : ∀ target, e ≠ .link target) : fs'.Fills loc place := by
  rcases h with rfl | ⟨directory, name, rfl, rfl, -⟩
  · exact fills_entry fs' loc
  · exact fills_gap he hlink

/-- What is found by a path that does not begin in a removed directory is in the tree. -/
theorem exists_of_lookup (hanchored : fs.Anchored p) {e : Entry} (h : fs.lookup purpose p = .ok e) :
    ∃ loc, fs.resolve purpose p = .ok (.entry loc) ∧ fs.find? loc = some e := by
  obtain ⟨place, hresolve, h⟩ := exists_of_bind_eq_ok h
  obtain ⟨last, rfl | ⟨directory, name, rfl, -⟩, -⟩ := finds_of_resolve hanchored hresolve
  · refine ⟨last, hresolve, ?_⟩
    simp only at h
    split at h
    · rw [← Except.ok.inj h]
      assumption
    · cases h
  · cases h

/-- A file that is found is in the tree. -/
theorem exists_of_lookup_file {mode : Mode} {contents : Bytes}
    (h : fs.lookup purpose p = .ok (.file mode contents)) :
    ∃ loc, fs.resolve purpose p = .ok (.entry loc) ∧ fs.find? loc = some (.file mode contents) := by
  obtain ⟨place, hresolve, h⟩ := exists_of_bind_eq_ok h
  cases place with
  | entry loc =>
    refine ⟨loc, hresolve, ?_⟩
    simp only at h
    split at h
    · rw [← Except.ok.inj h]
      assumption
    · cases h
  | gap directory name => cases h
  | removed => cases h

/-- A text that is read is that of a file. -/
theorem exists_of_readText {t : Text} (h : fs.readText p = .ok t) :
    ∃ mode contents, fs.lookup .target p = .ok (.file mode contents) := by
  obtain ⟨contents, hbytes, -⟩ := exists_of_bind_eq_ok h
  obtain ⟨opened, hopen, -⟩ := exists_of_bind_eq_ok hbytes
  obtain ⟨e, hlookup, hopen⟩ := exists_of_bind_eq_ok hopen
  cases e with
  | file mode contents => exact ⟨mode, contents, hlookup⟩
  | link target => cases hopen
  | directory mode entries => cases hopen

/-- What is read depends on what the path leads to. -/
theorem readText_of_lookup (h : fs'.lookup .target p = fs.lookup .target p) :
    fs'.readText p = fs.readText p := by
  rw [readText, readText, readBytes, readBytes, openFile, openFile, h]

/-- What was found is found again, a link as the same link. -/
theorem Grows.lookup_again (h : Grows fs fs') (hanchored : fs.Anchored p) {e : Entry}
    (hlookup : fs.lookup purpose p = .ok e) :
    ∃ e', fs'.lookup purpose p = .ok e' ∧ ∀ target, e' = .link target ↔ e = .link target := by
  obtain ⟨loc, hresolve, hfind⟩ := exists_of_lookup hanchored hlookup
  have hresolve' : fs'.resolve purpose p = .ok (.entry loc) := h.resolve_again (fills_entry fs' loc) hresolve
  rcases e.link_or_not with ⟨target, rfl⟩ | hlink
  · exact ⟨_, lookup_of_resolve hresolve' (h.link loc target hfind), fun _ => Iff.rfl⟩
  · obtain ⟨e', hfind', hlink'⟩ := h.exists_of_find? hfind hlink
    exact ⟨e', lookup_of_resolve hresolve' hfind', fun target => iff_of_false (hlink' target) (hlink target)⟩

/-- A directory is found again. -/
theorem Grows.lookup_directory (h : Grows fs fs') (hanchored : fs.Anchored p) {mode : Mode}
    {entries : List (Name × Entry)} (hlookup : fs.lookup purpose p = .ok (.directory mode entries)) :
    ∃ entries', fs'.lookup purpose p = .ok (.directory mode entries') := by
  obtain ⟨loc, hresolve, hfind⟩ := exists_of_lookup hanchored hlookup
  obtain ⟨entries', hfind'⟩ := h.exists_directory hfind
  exact ⟨entries', lookup_of_resolve (h.resolve_again (fills_entry fs' loc) hresolve) hfind'⟩

theorem Grows.isDirectory (h : Grows fs fs') (hanchored : fs.Anchored p)
    (hdirectory : fs.isDirectory p = true) : fs'.isDirectory p = true := by
  rw [FileSystem.isDirectory] at hdirectory
  split at hdirectory
  · rename_i e hlookup
    obtain ⟨mode, entries, rfl⟩ := Entry.isDirectory_iff.mp hdirectory
    obtain ⟨entries', hlookup'⟩ := h.lookup_directory hanchored hlookup
    rw [FileSystem.isDirectory, hlookup']
    rfl
  · cases hdirectory

section Canonical

variable {jump jump' : Location → Path → List Name → Except Fault Location} {found : Location}

/-- What is asked of a location is granted again. -/
theorem Grows.canonicalBehind_again (h : Grows fs fs') {here : Location} {rest : List Name}
    (hwalk : fs.canonicalWalk jump here rest = .ok found → fs'.canonicalWalk jump' here rest = .ok found)
    (hbehind : fs.canonicalBehind jump here rest = .ok found) :
    fs'.canonicalBehind jump' here rest = .ok found := by
  rw [canonicalBehind] at hbehind ⊢
  split at hbehind
  · rename_i hneeds
    obtain ⟨x, hthere, hgo⟩ := exists_of_bind_eq_ok hbehind
    have habsolute : ((Path.ofLocation here).join .empty).isAbsolute = true := by
      rw [Path.isAbsolute_join rfl]
      exact Path.isAbsolute_ofLocation here
    obtain ⟨x', hthere', -⟩ := h.lookup_again (Or.inl habsolute) hthere
    rw [if_pos hneeds, hthere']
    exact hwalk hgo
  · rename_i hneeds
    rw [if_neg hneeds]
    exact hwalk hbehind

/-- A canonical location is built again. -/
theorem Grows.canonicalWalk_again (h : Grows fs fs')
    (hjump : ∀ l target rest, jump l target rest = .ok found → jump' l target rest = .ok found)
    {segments : List Name} (hwalk : fs.canonicalWalk jump loc segments = .ok found) :
    fs'.canonicalWalk jump' loc segments = .ok found := by
  induction segments generalizing loc with
  | nil => exact hwalk
  | cons s rest ih =>
    by_cases hfiller : Path.isFiller s = true
    · rw [canonicalWalk, if_pos hfiller] at hwalk ⊢
      exact ih hwalk
    by_cases hdots : s = Path.dotDot
    · rw [canonicalWalk, if_neg hfiller, if_pos hdots] at hwalk ⊢
      exact ih hwalk
    have hasked := hwalk
    rw [canonicalWalk, if_neg hfiller, if_neg hdots] at hasked
    obtain ⟨e, hlookup, -⟩ := exists_of_bind_eq_ok hasked
    obtain ⟨e', hlookup', hlink⟩ := h.lookup_again (Or.inl (Path.isAbsolute_ofLocation _)) hlookup
    rcases e.link_or_not with ⟨target, rfl⟩ | hnone
    · obtain rfl := (hlink target).mpr rfl
      rw [canonicalWalk_of_link hfiller hdots hlookup] at hwalk
      rw [canonicalWalk_of_link hfiller hdots hlookup']
      exact hjump _ _ _ hwalk
    · rw [canonicalWalk_of_no_link hfiller hdots hlookup hnone] at hwalk
      rw [canonicalWalk_of_no_link hfiller hdots hlookup' fun target heq => hnone target ((hlink target).mp heq)]
      exact h.canonicalBehind_again ih hwalk

theorem Grows.canonicalFrom_again (h : Grows fs fs') {links : Nat} {segments : List Name}
    (hwalk : fs.canonicalFrom links loc segments = .ok found) :
    fs'.canonicalFrom links loc segments = .ok found := by
  induction links generalizing loc segments with
  | zero =>
    rw [canonicalFrom] at hwalk ⊢
    exact h.canonicalWalk_again (fun _ _ _ hjump => by cases hjump) hwalk
  | succ links ih =>
    rw [canonicalFrom] at hwalk ⊢
    exact h.canonicalWalk_again (fun _ _ _ hjump => ih hjump) hwalk

/-- A canonical location stays the one of its path. -/
theorem Grows.canonical_again (h : Grows fs fs') (hcanonical : fs.canonical p = .ok loc) :
    fs'.canonical p = .ok loc := by
  rw [canonical] at hcanonical ⊢
  split at hcanonical
  · cases hcanonical
  rename_i hzero
  split at hcanonical
  · cases hcanonical
  rename_i hempty
  rw [if_neg hzero, if_neg hempty, currentLocation, h.current_eq, ← currentLocation]
  split at hcanonical
  · rename_i habsolute
    rw [if_pos habsolute]
    exact h.canonicalFrom_again hcanonical
  · rename_i hrelative
    rw [if_neg hrelative]
    obtain ⟨start, hstart, hfrom⟩ := exists_of_bind_eq_ok hcanonical
    rw [hstart]
    exact h.canonicalFrom_again hfrom

end Canonical

/-! ## Directories -/

/-- The first part of a trail is one, to a directory if the whole leads to a directory. -/
theorem Trail.exists_of_append {links : Nat} {a b : Location} {s t : List Step}
    (h : fs.Trail links a (s ++ t) b) (hb : fs.HasDirectory b) :
    ∃ c, fs.Trail links a s c ∧ fs.HasDirectory c := by
  generalize hsteps : s ++ t = steps at h
  induction h generalizing s with
  | done links loc =>
    obtain ⟨rfl, -⟩ := List.append_eq_nil_iff.mp hsteps
    exact ⟨loc, .done links loc, hb⟩
  | @settle links loc last rest directory next ih =>
    rcases List.append_eq_cons_iff.mp hsteps with ⟨rfl, -⟩ | ⟨s', rfl, rfl⟩
    · exact ⟨loc, .done links loc, directory⟩
    · obtain ⟨c, htrail, hc⟩ := ih hb rfl
      exact ⟨c, .settle directory htrail, hc⟩
  | @stay links loc last rest isOpen next ih =>
    rcases List.append_eq_cons_iff.mp hsteps with ⟨rfl, -⟩ | ⟨s', rfl, rfl⟩
    · exact ⟨loc, .done links loc, isOpen.hasDirectory⟩
    · obtain ⟨c, htrail, hc⟩ := ih hb rfl
      exact ⟨c, .stay isOpen htrail, hc⟩
  | @up links loc last rest isOpen next ih =>
    rcases List.append_eq_cons_iff.mp hsteps with ⟨rfl, -⟩ | ⟨s', rfl, rfl⟩
    · exact ⟨loc, .done links loc, isOpen.hasDirectory⟩
    · obtain ⟨c, htrail, hc⟩ := ih hb rfl
      exact ⟨c, .up isOpen htrail, hc⟩
  | @down links loc last name rest e isOpen short found noLink next ih =>
    rcases List.append_eq_cons_iff.mp hsteps with ⟨rfl, -⟩ | ⟨s', rfl, rfl⟩
    · exact ⟨loc, .done links loc, isOpen.hasDirectory⟩
    · obtain ⟨c, htrail, hc⟩ := ih hb rfl
      exact ⟨c, .down isOpen short found noLink htrail, hc⟩
  | @link links loc last name rest target isOpen short isLink next ih =>
    rcases List.append_eq_cons_iff.mp hsteps with ⟨rfl, -⟩ | ⟨s', rfl, rfl⟩
    · exact ⟨loc, .done _ loc, isOpen.hasDirectory⟩
    · obtain ⟨c, htrail, hc⟩ := ih hb (List.append_assoc _ _ _)
      exact ⟨c, .link isOpen short isLink htrail, hc⟩

/-- A path to a directory says where its last name is looked up. -/
theorem slot_ne_missing (hanchored : fs.Anchored p) (h : fs.isDirectory p = true) :
    fs.slot p ≠ .error .missing := by
  obtain ⟨mode, entries, hlookup⟩ : ∃ mode entries, fs.lookup .target p = .ok (.directory mode entries) := by
    rw [isDirectory] at h
    split at h
    · obtain ⟨mode, entries, rfl⟩ := Entry.isDirectory_iff.mp h
      exact ⟨mode, entries, ‹_›⟩
    · cases h
  obtain ⟨loc, htreads, hfind⟩ := treads_of_lookup hanchored hlookup
  obtain ⟨rest, hmoves⟩ := List.dropLast_prefix p.moves
  have htrail := htreads.trail
  rw [← hmoves] at htrail
  obtain ⟨directory, hbefore, m, es, hdirectory⟩ := htrail.exists_of_append ⟨mode, entries, hfind⟩
  obtain ⟨slashed, -, hslot⟩ := slot_of_trail hanchored (askable_of_lookup hlookup) hbefore hdirectory
  rw [hslot]
  split
  · simp
  · simp

/-- Where a path leads to a directory none is made, and this is not for want of one above. -/
theorem createDirectory_of_isDirectory (hanchored : fs.Anchored p) (h : fs.isDirectory p = true) :
    ∃ fault, fault ≠ .missing ∧ createDirectory p fs = (.error fault, fs) := by
  have hfails : FailsOnly (· ≠ .missing) (createDirectory p) fs := by
    rw [createDirectory]
    cases hslot : fs.slot p with
    | error fault =>
      refine .bind_of_error (ask_eq hslot) ?_
      rintro rfl
      exact slot_ne_missing hanchored h hslot
    | ok slot =>
      refine .bind_of_ok (ask_eq hslot) ?_
      cases slot.name? with
      | none => exact .throw (by simp)
      | some name =>
        refine failsOnly_guard (by simp) fun _ => failsOnly_bind_now ?_
        exact failsOnly_guard (by simp) fun _ => failsOnly_guard (by simp) fun _ => failsOnly_putAt
  cases hrun : createDirectory p fs with
  | mk result t =>
    cases result with
    | error fault =>
      obtain rfl := createDirectory_error hrun
      exact ⟨fault, hfails fault t hrun, rfl⟩
    | ok u =>
      obtain ⟨slot, name, hslot, hname, -, hnone, -⟩ := exists_of_createDirectory hrun
      have hreaches := (looksUp_of_slot hanchored hslot hname).reaches fun target hlink => by
        rw [hnone] at hlink
        cases hlink
      obtain ⟨loc, hreaches', hdirectory⟩ := reaches_of_isDirectory hanchored h
      rw [hreaches'.eq hreaches] at hdirectory
      exact absurd hdirectory (not_hasDirectory_of_none hnone)

/-- Directories that are there are not made again. -/
theorem createDirectories_of_isDirectory (hanchored : fs.Anchored p) (h : fs.isDirectory p = true) :
    createDirectories p fs = (.ok (), fs) := by
  have hne : p ≠ .empty := (askable_of_isDirectory h).ne_empty
  obtain ⟨above, habove⟩ : ∃ above, p.ancestors = p :: above := by
    rw [Path.ancestors, Path.lineage]
    cases p.parent? with
    | none => exact ⟨_, rfl⟩
    | some q => exact ⟨_, rfl⟩
  obtain ⟨fault, hfault, hcreate⟩ := createDirectory_of_isDirectory hanchored h
  have hunless : unlessDirectory p fault fs = (.ok (), fs) := by
    rw [unlessDirectory, bind_run_of_ok (now_eq fs), if_pos h]
    rfl
  rw [createDirectories, habove, createChain, if_neg hne, tryCatch_run_of_error hcreate]
  split
  · exact absurd rfl hfault
  · exact hunless

/-- What was made is there, in whatever has grown from it. -/
theorem createDirectories_again (hrun : createDirectories p fs = (.ok (), fs')) (hanchored : fs'.Anchored p)
    {fs'' : FileSystem} (h : Grows fs' fs'') : createDirectories p fs'' = (.ok (), fs'') := by
  rcases (createDirectories_adds.ok_of_run hrun).2 with rfl | hdirectory
  · rfl
  · exact createDirectories_of_isDirectory (h.toKeeps.anchored hanchored) (h.isDirectory hanchored hdirectory)

/-! ## Files -/

section Files

variable {mode : Mode} {contents : Bytes}

theorem openForWriting_eq_ok (h : fs.resolve .creation p = .ok (.entry loc))
    (hfile : fs.find? loc = some (.file mode contents)) (hwrite : mode.write = true) :
    openForWriting p fs = (.ok loc, fs.put loc (.file mode [])) := by
  rw [openForWriting, bind_run_of_ok (now_eq fs), bind_run_of_ok (ask_eq h)]
  simp only [hfile]
  rw [if_neg (by simp [hwrite])]
  rfl

theorem exists_of_openForWriting (h : openForWriting p fs = (.ok loc, fs')) :
    ∃ place, fs.resolve .creation p = .ok place := by
  rw [openForWriting] at h
  obtain ⟨found, t, hnow, h⟩ := exists_of_bind_run h
  obtain ⟨rfl, rfl⟩ := now_run hnow
  obtain ⟨place, t, hask, -⟩ := exists_of_bind_run h
  exact ⟨place, (ask_run hask).1⟩

/-- A file that may be written gets other contents and keeps its mode. -/
theorem writeBytes_eq_ok (hroot : fs.HasDirectory []) (h : fs.resolve .creation p = .ok (.entry loc))
    (hfile : fs.find? loc = some (.file mode contents)) (hwrite : mode.write = true) (new : Bytes) :
    writeBytes p new fs = (.ok (), fs.put loc (.file mode new)) := by
  have hsets : Sets loc (.file mode []) fs (fs.put loc (.file mode [])) := .of_file hroot hfile rfl rfl
  rw [writeBytes, bind_run_of_ok (openForWriting_eq_ok h hfile hwrite), bind_run_of_ok (now_eq _),
    hsets.find?_self]
  exact congrArg (Prod.mk (Except.ok ())) (put_put fs loc _ _)

/-- A file that is copied is found and may be read, and the path of the copy leads somewhere. -/
theorem exists_of_copyFile {source : Path} (h : copyFile source p fs = (.ok (), fs')) :
    ∃ origin place mode contents, fs.resolve .target source = .ok (.entry origin) ∧
      fs.find? origin = some (.file mode contents) ∧ mode.read = true ∧
      fs.resolve .creation p = .ok place := by
  suffices hends : Ends (copyFile source p) fs
      (fun _ _ => ∃ origin place mode contents, fs.resolve .target source = .ok (.entry origin) ∧
        fs.find? origin = some (.file mode contents) ∧ mode.read = true ∧
        fs.resolve .creation p = .ok place) fun _ => True from
    hends.ok_of_run h
  rw [copyFile]
  refine .bind (ends_ask (fun e he => ?_) trivial)
  cases e with
  | link target => exact .bind (.throw trivial)
  | directory mode entries =>
    simp only
    split
    · exact .bind (.throw trivial)
    · exact .bind (.throw trivial)
  | file mode contents =>
    simp only
    split
    · rename_i hread
      rw [pure_bind]
      refine .bind (ends_ask (fun origin horigin => ?_) trivial)
      have hresolve := resolve_of_locate horigin
      refine .bind (.of_run (fun loc t hopen => ?_) fun _ _ _ => trivial)
      obtain ⟨place, hplace⟩ := exists_of_openForWriting hopen
      refine .of_run (fun _ _ _ => ⟨origin, place, mode, contents, hresolve, ?_, hread, hplace⟩)
        fun _ _ _ => trivial
      rw [lookup, hresolve] at he
      simp only [bind, Except.bind] at he
      split at he
      · rw [← Except.ok.inj he]
        assumption
      · cases he
    · exact .bind (.throw trivial)

/-- A file that may be written becomes a copy of another one that may be read. -/
theorem copyFile_eq_ok (hroot : fs.HasDirectory []) {source : Path} {origin : Location}
    (hsource : fs.resolve .target source = .ok (.entry origin))
    (horigin : fs.find? origin = some (.file mode contents)) (hread : mode.read = true)
    (h : fs.resolve .creation p = .ok (.entry loc)) {old : Mode} {before : Bytes}
    (hfile : fs.find? loc = some (.file old before)) (hwrite : old.write = true) (hne : origin ≠ loc) :
    copyFile source p fs = (.ok (), fs.put loc (.file mode contents)) := by
  have hsets : Sets loc (.file old []) fs (fs.put loc (.file old [])) := .of_file hroot hfile rfl rfl
  have hlocate : fs.locate .target source = .ok origin := by
    rw [locate, hsource]
    rfl
  have hkept : (fs.put loc (.file old [])).find? origin = some (.file mode contents) := by
    rw [← view_eq_file_iff, hsets.view_eq, if_neg hne, view_eq_file_iff]
    exact horigin
  rw [copyFile, bind_run_of_ok (ask_eq (lookup_of_resolve hsource horigin))]
  simp only [hread, if_true]
  rw [pure_bind, bind_run_of_ok (ask_eq hlocate),
    bind_run_of_ok (openForWriting_eq_ok h hfile hwrite), bind_run_of_ok (now_eq _), hkept]
  exact congrArg (Prod.mk (Except.ok ())) (put_put fs loc _ _)

end Files

end FileRoutes.FileSystem
