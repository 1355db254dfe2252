import FileRoutes.Proofs.FileSystem.Growth

/-!
# Names that the system can hold

The system allows no name of more than 255 bytes.  It refuses such a name wherever one is followed, so that an
entry of such a name could be seen in its directory and not be asked for.  There is none
(`FileSystem.NamesFit`): every change that a migration makes keeps it so, be it that it succeeds or that it
fails (`createDirectories_namesFit`, `copyFile_namesFit` and those like them).

## What a change measures

A change that puts a new entry somewhere has measured the last name of the path, or has come to a gap, which
is a name that was measured on the way (`isGap_of_follow`).  The names above it need no measure.  They lead to
a directory that is there, so they fit already.
-/

namespace FileRoutes

/-! ## Trees -/

namespace Entry

/-- No name in the tree has more bytes than the system allows. -/
def NamesFit (e : Entry) : Prop :=
  ∀ loc x, e.find? loc = some x → ∀ name ∈ loc, name.length ≤ FileSystem.nameLimit

theorem namesFit_of_everything {e : Entry}
    (h : ∀ p ∈ e.everything, ∀ name ∈ p.1, name.length ≤ FileSystem.nameLimit) : e.NamesFit :=
  fun _ _ hfind => h _ (mem_everything hfind)

/-- In an entry without others in it there are no names. -/
theorem namesFit_of_bare {e : Entry} (h : e.bare = e) : e.NamesFit := by
  intro loc x hx name hname
  cases loc with
  | nil => cases hname
  | cons first rest =>
    rw [← h] at hx
    cases e <;> cases hx

namespace NamesFit

variable {e x new : Entry} {loc : Location} {mode : Mode} {entries : List (Name × Entry)}

/-- The names below a directory of the tree are short enough too. -/
theorem of_find? (h : e.NamesFit) (hx : e.find? loc = some x) : x.NamesFit := by
  intro below y hy name hname
  exact h (loc ++ below) y ((find?_append_of_eq_some hx below).trans hy) name (List.mem_append_right loc hname)

theorem short (h : (directory mode entries).NamesFit) (hdistinct : (entries.map (·.1)).Nodup)
    {p : Name × Entry} (hp : p ∈ entries) : p.1.length ≤ FileSystem.nameLimit :=
  h [p.1] p.2 (find?_of_mem hdistinct hp) p.1 (List.mem_singleton_self p.1)

theorem inside (h : (directory mode entries).NamesFit) (hdistinct : (entries.map (·.1)).Nodup)
    {p : Name × Entry} (hp : p ∈ entries) : p.2.NamesFit :=
  h.of_find? (find?_of_mem hdistinct hp)

/-- Names fit after an entry was put somewhere if those in it do, and those that lead there. -/
theorem put (h : e.NamesFit) (hnew : new.NamesFit) (hholds : e.Holds loc)
    (hloc : ∀ name ∈ loc, name.length ≤ FileSystem.nameLimit) : (e.put new loc).NamesFit := by
  intro l y hy name hname
  by_cases hbelow : loc <+: l
  · obtain ⟨rest, rfl⟩ := hbelow
    rw [find?_put_below new hholds] at hy
    rcases List.mem_append.mp hname with hname | hname
    · exact hloc name hname
    · exact hnew rest y hy name hname
  · by_cases habove : l <+: loc
    · exact hloc name (habove.subset hname)
    · rw [find?_put_beside e new hbelow habove] at hy
      exact h l y hy name hname

/-- What is found after a removal was found before. -/
theorem remove (h : e.NamesFit) (loc : Location) : (e.remove loc).NamesFit := by
  rcases eq_or_ne loc [] with rfl | hne
  · rwa [Entry.remove]
  intro l y hy
  by_cases hbelow : loc <+: l
  · obtain ⟨rest, rfl⟩ := hbelow
    rw [find?_remove_below e hne] at hy
    cases hy
  · by_cases habove : l <+: loc
    · obtain ⟨rest, rfl⟩ := habove
      have hrest : rest ≠ [] := by
        rintro rfl
        exact hbelow (by rw [List.append_nil])
      rw [find?_remove_above e l hrest] at hy
      obtain ⟨z, hz, -⟩ := Option.map_eq_some_iff.mp hy
      exact h l z hz
    · rw [find?_remove_beside e hbelow habove] at hy
      exact h l y hy

end NamesFit

end Entry

namespace FileSystem

variable {fs : FileSystem} {loc : Location} {p : Path}

/-- No name in the file system has more bytes than the system allows. -/
def NamesFit (fs : FileSystem) : Prop := fs.root.NamesFit

/-- What a path leads to has names that fit. -/
theorem NamesFit.lookup (h : fs.NamesFit) {purpose : Purpose} {e : Entry} (he : fs.lookup purpose p = .ok e) :
    e.NamesFit := by
  obtain ⟨place, -, hplace⟩ := exists_of_bind_eq_ok he
  cases place with
  | gap directory name => cases hplace
  | removed =>
    obtain rfl := Except.ok.inj hplace
    exact Entry.namesFit_of_bare rfl
  | entry loc =>
    simp only at hplace
    split at hplace
    · rename_i hfind
      rw [← Except.ok.inj hplace]
      exact Entry.NamesFit.of_find? h hfind
    · cases hplace

/-! ## One entry -/

/-- An entry is put at a name that is short enough. -/
theorem NamesFit.put_name (h : fs.NamesFit) {directory : Location} (hdirectory : fs.HasDirectory directory)
    {name : Name} (hname : name.length ≤ nameLimit) {new : Entry} (hnew : new.bare = new) :
    (fs.put (directory ++ [name]) new).NamesFit := by
  obtain ⟨mode, entries, hfind⟩ := hdirectory
  refine Entry.NamesFit.put h (Entry.namesFit_of_bare hnew) (Entry.holds_concat hfind name) fun n hn => ?_
  rcases List.mem_append.mp hn with hn | hn
  · exact h directory _ hfind n hn
  · rwa [List.mem_singleton.mp hn]

/-- An entry is put in the place of another one. -/
theorem NamesFit.put_there (h : fs.NamesFit) {e : Entry} (he : fs.find? loc = some e) {new : Entry}
    (hnew : new.bare = new) : (fs.put loc new).NamesFit :=
  Entry.NamesFit.put h (Entry.namesFit_of_bare hnew) (Entry.holds_of_find? he) (h loc e he)

/-! ## Directories -/

theorem createDirectory_namesFit (h : fs.NamesFit) :
    Ends (createDirectory p) fs (fun _ => NamesFit) NamesFit := by
  refine .of_run (fun _ fs' hrun => ?_) fun fault fs' hrun => ?_
  · obtain ⟨slot, name, hslot, hname, hshort, -, rfl⟩ := exists_of_createDirectory hrun
    obtain ⟨s, -, -, -, hopen⟩ := exists_of_slot hslot hname
    exact h.put_name hopen.hasDirectory hshort rfl
  · rwa [createDirectory_error hrun]

theorem unlessDirectory_namesFit (h : fs.NamesFit) (fault : Fault) :
    Ends (unlessDirectory p fault) fs (fun _ => NamesFit) NamesFit := by
  rw [unlessDirectory]
  refine .bind (ends_now ?_)
  split
  · exact .pure h
  · exact .throw h

theorem createChain_namesFit {paths : List Path} (h : fs.NamesFit) :
    Ends (createChain paths) fs (fun _ => NamesFit) NamesFit := by
  induction paths generalizing fs with
  | nil => exact .throw h
  | cons p above ih =>
    rw [createChain]
    split
    · exact .pure h
    refine .tryCatch ((createDirectory_namesFit h).mono (fun _ _ => id) fun t ht fault _ => ?_)
    split
    · refine .bind ((ih ht).mono (fun _ u hu => ?_) fun _ => id)
      refine .tryCatch ((createDirectory_namesFit hu).mono (fun _ _ => id) fun v hv fault _ => ?_)
      exact unlessDirectory_namesFit hv fault
    · exact unlessDirectory_namesFit ht _

/-- Directories are created with names that fit, those that are made before a failure too. -/
theorem createDirectories_namesFit (h : fs.NamesFit) :
    Ends (createDirectories p) fs (fun _ => NamesFit) NamesFit :=
  createChain_namesFit h

/-! ## Files and links -/

/-- The file that is opened is there afterwards. -/
theorem openForWriting_namesFit (h : fs.NamesFit) :
    Ends (openForWriting p) fs (fun loc t => t.NamesFit ∧ ∃ e, t.find? loc = some e) NamesFit := by
  rw [openForWriting]
  refine .bind (ends_now (.bind (ends_ask (fun place hplace => ?_) h)))
  obtain ⟨s, -, hfollow⟩ := exists_of_bind_eq_ok hplace
  cases place with
  | removed => exact .throw h
  | entry loc =>
    simp only
    split
    · rename_i mode contents hfile
      refine ends_guard h fun _ => .bind (ends_putAt (.pure ⟨h.put_there hfile rfl, .file mode [], ?_⟩))
      exact Entry.find?_put_self _ (Entry.holds_of_find? hfile)
    · exact .throw h
  | gap directory name =>
    have hgap := isGap_of_follow hfollow
    obtain ⟨mode, entries, -, hfind⟩ := hgap.isOpen
    refine .bind (ends_ask (fun found _ => ?_) h)
    refine ends_guard h fun _ => .bind (ends_putAt (.pure ⟨?_, .file .plain [], ?_⟩))
    · exact h.put_name hgap.isOpen.hasDirectory hgap.short rfl
    · exact Entry.find?_put_self _ (Entry.holds_concat hfind name)

theorem writeBytes_namesFit (h : fs.NamesFit) (contents : Bytes) :
    Ends (writeBytes p contents) fs (fun _ => NamesFit) NamesFit := by
  rw [writeBytes]
  refine .bind ((openForWriting_namesFit h).mono (fun loc t hopen => .bind (ends_now ?_)) fun _ => id)
  obtain ⟨ht, e, he⟩ := hopen
  split
  · exact ends_putAt (ht.put_there he rfl)
  · exact .pure ht

theorem copyFile_namesFit (h : fs.NamesFit) {source : Path} :
    Ends (copyFile source p) fs (fun _ => NamesFit) NamesFit := by
  rw [copyFile]
  refine .bind (ends_ask (fun e _ => ?_) h)
  cases e with
  | link target => exact .bind (.throw h)
  | directory mode entries =>
    simp only
    split
    · exact .bind (.throw h)
    · exact .bind (.throw h)
  | file mode contents =>
    simp only
    split
    · rw [pure_bind]
      refine .bind (ends_ask (fun origin _ => ?_) h)
      refine .bind ((openForWriting_namesFit h).mono (fun loc t hopen => .bind (ends_now ?_)) fun _ => id)
      obtain ⟨ht, x, hx⟩ := hopen
      split
      · exact ends_putAt (ht.put_there hx rfl)
      · exact .pure ht
    · exact .bind (.throw h)

theorem createLink_namesFit (h : fs.NamesFit) (target : Path) :
    Ends (createLink target p) fs (fun _ => NamesFit) NamesFit := by
  rw [createLink]
  refine ends_guard h fun _ => ends_guard h fun _ => .bind (ends_ask (fun slot hslot => ?_) h)
  cases hname : slot.name? with
  | none => exact .throw h
  | some name =>
    obtain ⟨s, -, -, -, hopen⟩ := exists_of_slot hslot hname
    refine ends_guard h fun hshort => .bind (ends_now ?_)
    refine ends_guard h fun _ => ends_guard h fun _ => ends_guard h fun _ => ends_putAt ?_
    exact h.put_name hopen.hasDirectory (Nat.le_of_not_gt hshort) rfl

/-! ## Removal -/

theorem removeFile_namesFit (h : fs.NamesFit) : Ends (removeFile p) fs (fun _ => NamesFit) NamesFit := by
  rw [removeFile]
  refine .bind (ends_ask (fun slot _ => ?_) h)
  cases slot.name? with
  | none => exact .throw h
  | some name =>
    refine ends_guard h fun _ => .bind (ends_now ?_)
    cases fs.find? (slot.directory ++ [name]) with
    | none => exact .throw h
    | some e =>
      exact ends_guard h fun _ => ends_guard h fun _ => ends_guard h fun _ => Entry.NamesFit.remove h _

end FileSystem

end FileRoutes
