import FileRoutes.Proofs.FileSystem.Growth

/-!
# Files that hold something else

Two file systems may differ in the contents of some files and in nothing else (`Rewritten`): not in a mode,
not in what a link holds, and not even in the order in which the names of a directory stand.  If there is
no such file they are equal (`Rewritten.eq`), since a valid tree is told by what is at each location and by
the order of the names there (`Entry.Valid.eq`).

Overwriting a file may make two such file systems differ in one place more or in one place less
(`Rewritten.put`).
-/

namespace FileRoutes

namespace Entry

/-! ## Names in their order -/

/-- The names in a directory, in the order in which they stand there. -/
def names (e : Entry) : List Name := e.entries.map (·.1)

/-- Putting an entry in the place of another one leaves the names above it. -/
theorem names_put {e old : Entry} {loc : Location} (hloc : loc ≠ []) (h : e.find? loc = some old)
    (new : Entry) : (e.put new loc).names = e.names := by
  obtain ⟨name, rest, rfl⟩ := List.exists_cons_of_ne_nil hloc
  cases e with
  | file mode contents => cases h
  | link target => cases h
  | directory mode entries =>
    rw [find?_directory_cons] at h
    obtain ⟨x, hlookup, -⟩ := Option.bind_eq_some_iff.mp h
    rw [put_directory_of_lookup hlookup]
    exact map_fst_replace name _ entries

/-- Entries with the same names in the same order are the same if each name stands for the same. -/
theorem eq_of_lookup_eq {entries entries' : List (Name × Entry)}
    (hnames : entries'.map (·.1) = entries.map (·.1)) (hdistinct : (entries.map (·.1)).Nodup)
    (hlookup : ∀ name, entries'.lookup name = entries.lookup name) : entries' = entries := by
  induction entries generalizing entries' with
  | nil => exact List.map_eq_nil_iff.mp hnames
  | cons p entries ih =>
    obtain ⟨name, e⟩ := p
    obtain ⟨⟨name', e'⟩, rest, rfl, hname, hrest⟩ := List.map_eq_cons_iff.mp hnames
    obtain rfl : name' = name := hname
    obtain ⟨hfresh, hdistinct⟩ := List.nodup_cons.mp (List.map_cons ▸ hdistinct)
    have hhead := hlookup name'
    rw [List.lookup_cons_self, List.lookup_cons_self] at hhead
    have hmissing {xs : List (Name × Entry)} (hxs : xs.map (·.1) = entries.map (·.1)) :
        xs.lookup name' = none := by
      refine List.lookup_eq_none_iff.mpr fun q hq => ?_
      have hmem : q.1 ∈ entries.map (·.1) := by
        rw [← hxs]
        exact List.mem_map_of_mem hq
      have hne : name' ≠ q.1 := fun heq => hfresh (heq ▸ hmem)
      simpa using hne
    rw [Option.some.inj hhead, ih hrest hdistinct fun n => ?_]
    by_cases hn : n = name'
    · rw [hn, hmissing hrest, hmissing rfl]
    · have hsame := hlookup n
      rwa [lookup_cons_of_ne hn, lookup_cons_of_ne hn] at hsame

/-- A valid tree is told by what is at each location and by the order of the names there. -/
theorem Valid.eq {e e' : Entry} (h : e.Valid)
    (hbare : ∀ loc, (e'.find? loc).map bare = (e.find? loc).map bare)
    (hnames : ∀ loc, (e'.find? loc).map names = (e.find? loc).map names) : e' = e := by
  induction e using Entry.induction generalizing e' with
  | file mode contents =>
    have htop := hbare []
    rw [find?_nil, find?_nil] at htop
    exact bare_eq_file_iff.mp (Option.some.inj htop)
  | link target =>
    have htop := hbare []
    rw [find?_nil, find?_nil] at htop
    exact bare_eq_link_iff.mp (Option.some.inj htop)
  | directory mode entries ih =>
    have htop := hbare []
    have hlist := hnames []
    rw [find?_nil, find?_nil] at htop hlist
    obtain ⟨entries', rfl⟩ := bare_eq_directory_iff.mp (Option.some.inj htop)
    refine congrArg (Entry.directory mode) (eq_of_lookup_eq (Option.some.inj hlist) h.distinct fun name => ?_)
    have hname := hbare [name]
    simp only [find?_directory_cons] at hname
    cases hlookup : entries.lookup name with
    | none =>
      rw [hlookup] at hname
      simpa using hname
    | some x =>
      rw [hlookup] at hname
      obtain ⟨x', hlookup', -⟩ := Option.map_eq_some_iff.mp hname
      obtain ⟨y, hlookup', hy⟩ := Option.bind_eq_some_iff.mp hlookup'
      rw [hlookup']
      refine congrArg some (ih (name, x) (mem_of_lookup hlookup) (h.inside (mem_of_lookup hlookup))
        (fun loc => ?_) fun loc => ?_)
      · simpa [hlookup, hlookup'] using hbare (name :: loc)
      · simpa [hlookup, hlookup'] using hnames (name :: loc)

end Entry

namespace FileSystem

variable {part : Location → Prop} {fs fs' : FileSystem} {loc : Location}

/-- A change of one entry leaves the names of the directories, if something was there before. -/
theorem Sets.names_eq {old new : Entry} (h : Sets loc new fs fs') (hold : fs.find? loc = some old)
    (hnames : new.names = old.names) (l : Location) :
    (fs'.find? l).map Entry.names = (fs.find? l).map Entry.names := by
  by_cases hl : l <+: loc
  · obtain ⟨rest, rfl⟩ := hl
    by_cases hrest : rest = []
    · subst hrest
      rw [List.append_nil] at h hold
      rw [h.find?_self, hold, Option.map_some, Option.map_some, hnames]
    · have habove : fs'.find? l = (fs.find? l).map (Entry.put · new rest) := by
        rw [h.eq]
        exact Entry.find?_put_above fs.root new l hrest
      rw [FileSystem.find?, Entry.find?_append] at hold
      obtain ⟨e, he, hbelow⟩ := Option.bind_eq_some_iff.mp hold
      have hfind : fs.find? l = some e := he
      rw [habove, hfind, Option.map_some, Option.map_some, Option.map_some,
        Entry.names_put hrest hbelow]
  · rw [h.find?_eq hl]

/-! ## Other contents -/

/-- The files in a part may hold other contents; nothing else differs, not even the order of the names. -/
structure Rewritten (part : Location → Prop) (fs fs' : FileSystem) : Prop where
  current_eq : fs'.current = fs.current
  view_eq : ∀ loc, ¬ part loc → fs'.view loc = fs.view loc
  names_eq : ∀ loc, (fs'.find? loc).map Entry.names = (fs.find? loc).map Entry.names
  file : ∀ loc, part loc → ∃ mode contents contents',
    fs.find? loc = some (.file mode contents) ∧ fs'.find? loc = some (.file mode contents')

namespace Rewritten

theorem refl (h : ∀ loc, part loc → ∃ mode contents, fs.find? loc = some (.file mode contents)) :
    Rewritten part fs fs := by
  refine ⟨rfl, fun _ _ => rfl, fun _ => rfl, fun loc hloc => ?_⟩
  obtain ⟨mode, contents, hfile⟩ := h loc hloc
  exact ⟨mode, contents, contents, hfile, hfile⟩

/-- Where no file is rewritten the whole tree is as it was. -/
theorem find?_eq (h : Rewritten part fs fs') (hvalid : fs.root.Valid)
    (hloc : ∀ l, part l → ¬ loc <+: l) : fs'.find? loc = fs.find? loc := by
  have hview (below : Location) : fs'.view (loc ++ below) = fs.view (loc ++ below) :=
    h.view_eq _ fun hpart => hloc _ hpart (List.prefix_append loc below)
  have htop := hview []
  rw [List.append_nil] at htop
  cases hfind : fs.find? loc with
  | none => rwa [view_eq_none_iff.mpr hfind, view_eq_none_iff] at htop
  | some e =>
    rw [view, view, hfind] at htop
    obtain ⟨e', hfind', -⟩ := Option.map_eq_some_iff.mp htop
    rw [hfind']
    refine congrArg some ((hvalid.find? hfind).eq (fun below => ?_) fun below => ?_)
    · have hsame := hview below
      rwa [view, view, FileSystem.find?, FileSystem.find?, Entry.find?_append_of_eq_some hfind',
        Entry.find?_append_of_eq_some hfind] at hsame
    · have hsame := h.names_eq (loc ++ below)
      rwa [FileSystem.find?, FileSystem.find?, Entry.find?_append_of_eq_some hfind',
        Entry.find?_append_of_eq_some hfind] at hsame

/-- If no file is rewritten nothing differs at all. -/
theorem eq (h : Rewritten part fs fs') (hvalid : fs.root.Valid) (hpart : ∀ l, ¬ part l) : fs' = fs := by
  have hroot : fs'.find? [] = fs.find? [] := h.find?_eq hvalid fun l hl => absurd hl (hpart l)
  rw [FileSystem.find?, FileSystem.find?, Entry.find?_nil, Entry.find?_nil] at hroot
  have hcurrent := h.current_eq
  obtain ⟨root, current⟩ := fs
  obtain ⟨root', current'⟩ := fs'
  exact congrArg₂ FileSystem.mk (Option.some.inj hroot) hcurrent

/-- Whatever the files hold, the file system may count as one that has grown. -/
theorem grows (h : Rewritten part fs fs') : Grows fs fs' := by
  have hother {loc : Location} {e : Entry} (he : fs.find? loc = some e)
      (hfile : ∀ mode contents, e ≠ .file mode contents) : fs'.view loc = fs.view loc := by
    refine h.view_eq loc fun hpart => ?_
    obtain ⟨mode, contents, -, hthere, -⟩ := h.file loc hpart
    rw [he] at hthere
    exact hfile mode contents (Option.some.inj hthere)
  refine ⟨⟨h.current_eq, fun loc mode hmode => ?_, fun loc target hlink => ?_⟩,
    fun loc mode contents hfile => ?_⟩
  · obtain ⟨entries, hfind⟩ := view_eq_directory_iff.mp hmode
    exact (hother hfind fun _ _ heq => by cases heq).trans hmode
  · rw [← view_eq_link_iff, hother hlink fun _ _ heq => by cases heq]
    exact view_eq_link_iff.mpr hlink
  · by_cases hpart : part loc
    · obtain ⟨mode', -, contents', -, hfile'⟩ := h.file loc hpart
      exact ⟨mode', contents', hfile'⟩
    · refine ⟨mode, contents, ?_⟩
      rw [← view_eq_file_iff, h.view_eq loc hpart]
      exact view_eq_file_iff.mpr hfile

/-- A file that is overwritten once more may differ from now on, or does no longer if it gets what it held
in the first place. -/
theorem put (h : Rewritten part fs fs') (hroot : fs'.HasDirectory []) {mode : Mode} {before contents : Bytes}
    (hfile : fs'.find? loc = some (.file mode before)) {part' : Location → Prop}
    (hother : ∀ l, l ≠ loc → (part' l ↔ part l))
    (hloc : part' loc ∨ fs.find? loc = some (.file mode contents)) :
    Rewritten part' fs (fs'.put loc (.file mode contents)) := by
  have hsets : Sets loc (.file mode contents) fs' (fs'.put loc (.file mode contents)) :=
    .of_file hroot hfile rfl rfl
  have hmode : ∃ contents', fs.find? loc = some (.file mode contents') := by
    by_cases hpart : part loc
    · obtain ⟨mode', contents', before', hfs, hfs'⟩ := h.file loc hpart
      rw [hfile] at hfs'
      obtain ⟨rfl, -⟩ := Entry.file.inj (Option.some.inj hfs')
      exact ⟨contents', hfs⟩
    · refine ⟨before, ?_⟩
      rw [← view_eq_file_iff, ← h.view_eq loc hpart, view_eq_file_iff]
      exact hfile
  refine ⟨h.current_eq, fun l hl => ?_, fun l => ?_, fun l hl => ?_⟩
  · rw [hsets.view_eq]
    split
    · rename_i heq
      subst heq
      exact (view_eq_file_iff.mpr (hloc.resolve_left hl)).symm
    · rename_i hne
      exact h.view_eq l fun hpart => hl ((hother l hne).mpr hpart)
  · exact (hsets.names_eq hfile rfl l).trans (h.names_eq l)
  · by_cases heq : l = loc
    · subst heq
      obtain ⟨contents', hfs⟩ := hmode
      exact ⟨mode, contents', contents, hfs, hsets.find?_self⟩
    · obtain ⟨mode', contents', before', hfs, hfs'⟩ := h.file l ((hother l heq).mp hl)
      refine ⟨mode', contents', before', hfs, ?_⟩
      rw [← view_eq_file_iff, hsets.view_eq, if_neg heq]
      exact view_eq_file_iff.mpr hfs'

end Rewritten

end FileSystem

end FileRoutes
