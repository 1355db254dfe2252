import FileRoutes.Proofs.FileSystem.Effects
import FileRoutes.Proofs.FileSystem.Ways

/-!
# Both outcomes of a change

What a change leaves behind, be it that it succeeds or that it fails, for paths that may meet links.

* A directory is created at a place that the path passes, where nothing was; some may have been created
  before a failure (`createDirectories_ends`).
* A file is written where the path leads (`writeBytes_ends`, `copyFile_ends`).
* A link is created, or a file or a link removed, at the last name of the path, be it that of a link
  (`createLink_ends`, `removeFile_ends`).

But for the directories, a failed change has changed nothing.

## Footprints

`Touches part fs fs'` says what changes leave alone if they touch only locations in `part`.  Directories
and links stay, so what a path leads to by way of directories it still leads to (`Keeps.reaches`).
A change of one entry is described by what is seen of it: `Shows` an entry at a location, or `Clears`
the location.
-/

namespace FileRoutes.FileSystem

variable {fs fs' fs'' : FileSystem} {loc : Location}

/-! ## Footprints -/

/-- What changes at some locations leave as it was, if directories and links stay. -/
structure Touches (part : Location → Prop) (fs fs' : FileSystem) : Prop where
  keeps : Keeps fs fs'
  find?_eq : ∀ loc, (∀ l, part l → ¬ loc <+: l) → fs'.find? loc = fs.find? loc
  view_eq : ∀ loc, ¬ part loc → fs'.view loc = fs.view loc

namespace Touches

variable {part part' : Location → Prop}

theorem refl (part : Location → Prop) (fs : FileSystem) : Touches part fs fs :=
  ⟨⟨rfl, fun _ _ h => h, fun _ _ h => h⟩, fun _ _ => rfl, fun _ _ => rfl⟩

theorem trans (h : Touches part fs fs') (h' : Touches part fs' fs'') : Touches part fs fs'' where
  keeps := h.keeps.trans h'.keeps
  find?_eq loc hloc := (h'.find?_eq loc hloc).trans (h.find?_eq loc hloc)
  view_eq loc hloc := (h'.view_eq loc hloc).trans (h.view_eq loc hloc)

theorem mono (h : Touches part fs fs') (hpart : ∀ l, part l → part' l) : Touches part' fs fs' where
  keeps := h.keeps
  find?_eq loc hloc := h.find?_eq loc fun l hl => hloc l (hpart l hl)
  view_eq loc hloc := h.view_eq loc fun hl => hloc (hpart loc hl)

end Touches

/-- An entry without others in it is seen at a location where no directory was. -/
structure Shows (loc : Location) (new : Entry) (fs fs' : FileSystem) : Prop where
  free : ¬ fs.HasDirectory loc
  current_eq : fs'.current = fs.current
  find?_eq : ∀ l, ¬ l <+: loc → fs'.find? l = fs.find? l
  view_eq : ∀ l, fs'.view l = if l = loc then some new else fs.view l

theorem Sets.shows {new : Entry} (h : Sets loc new fs fs') : Shows loc new fs fs' where
  free := h.free
  current_eq := by
    rw [h.eq]
    rfl
  find?_eq _ := h.find?_eq
  view_eq := h.view_eq

/-- A change of one entry touches its location, if it does not replace a link by something else. -/
theorem Shows.touches {new : Entry} (h : Shows loc new fs fs')
    (hlink : ∀ target, fs.find? loc = some (.link target) → new = .link target) :
    Touches (· = loc) fs fs' where
  keeps := by
    refine ⟨h.current_eq, fun l mode hl => ?_, fun l target hl => ?_⟩
    · rw [h.view_eq, if_neg]
      · exact hl
      · rintro rfl
        exact h.free (hasDirectory_iff_view.mpr ⟨mode, hl⟩)
    · rw [← view_eq_link_iff, h.view_eq]
      split
      · subst l
        rw [hlink target hl]
      · exact view_eq_link_iff.mpr hl
  find?_eq l hl := h.find?_eq l (hl loc rfl)
  view_eq l hl := by rw [h.view_eq, if_neg hl]

/-- What is no link does not change the links, if it does not replace one. -/
theorem Shows.sameLinks {new : Entry} (h : Shows loc new fs fs') (hnew : ∀ target, new ≠ .link target)
    (hlink : ∀ target, fs.find? loc ≠ some (.link target)) : SameLinks fs fs' where
  current_eq := h.current_eq
  link_iff l target := by
    rw [← view_eq_link_iff, h.view_eq]
    split
    · subst l
      exact iff_of_false (fun heq => hnew target (Option.some.inj heq)) (hlink target)
    · exact view_eq_link_iff

/-- Nothing is seen any more at a location where a file or a link was. -/
structure Clears (loc : Location) (fs fs' : FileSystem) : Prop where
  occupied : fs.find? loc ≠ none
  free : ¬ fs.HasDirectory loc
  current_eq : fs'.current = fs.current
  find?_eq : ∀ l, ¬ l <+: loc → fs'.find? l = fs.find? l
  view_eq : ∀ l, fs'.view l = if l = loc then none else fs.view l

/-- A removal clears the location. -/
theorem Clears.of_remove (hcurrent : fs.HasDirectory fs.current.location) {e : Entry}
    (he : fs.find? loc = some e) (hfile : e.isDirectory = false) : Clears loc fs (fs.remove loc) := by
  have hfree : ¬ fs.HasDirectory loc := by
    rintro ⟨mode, entries, hfind⟩
    rw [he] at hfind
    rw [Option.some.inj hfind] at hfile
    cases hfile
  have hne : loc ≠ [] := by
    rintro rfl
    exact hfree (hcurrent.above List.nil_prefix)
  have hfind (l : Location) (hl : ¬ l <+: loc) : (fs.remove loc).find? l = fs.find? l := by
    by_cases hbelow : loc <+: l
    · obtain ⟨rest, rfl⟩ := hbelow
      have hrest : rest ≠ [] := by
        rintro rfl
        exact hl (by simp)
      rw [find?_append_eq_none hfree hrest]
      exact Entry.find?_remove_below fs.root hne rest
    · exact Entry.find?_remove_beside fs.root hbelow hl
  refine ⟨by simp [he], hfree, ?_, hfind, fun l => ?_⟩
  · rw [FileSystem.remove, Spot.without, if_neg]
    rintro ⟨-, hprefix⟩
    exact hfree (hcurrent.above (List.isPrefixOf_iff_prefix.mp hprefix))
  · split
    · subst l
      have hself := Entry.find?_remove_below fs.root hne []
      rw [List.append_nil] at hself
      exact view_eq_none_iff.mpr hself
    · rename_i hl
      by_cases habove : l <+: loc
      · obtain ⟨rest, rfl⟩ := habove
        have hrest : rest ≠ [] := by
          rintro rfl
          exact hl (List.append_nil l).symm
        have hup : (fs.remove (l ++ rest)).find? l = (fs.find? l).map (Entry.remove · rest) :=
          Entry.find?_remove_above fs.root l hrest
        rw [view, hup, view, Option.map_map]
        congr 1
        funext e
        exact Entry.bare_remove e rest
      · rw [view, hfind l habove, view]

/-- All directories and links that are left were there before. -/
theorem Clears.keeps (h : Clears loc fs fs') : Keeps fs' fs where
  current_eq := h.current_eq.symm
  directory l mode hl := by
    rw [h.view_eq] at hl
    split at hl
    · cases hl
    · exact hl
  link l target hl := by
    rw [← view_eq_link_iff, h.view_eq] at hl
    split at hl
    · cases hl
    · exact view_eq_link_iff.mp hl

/-- No directory is cleared. -/
theorem Clears.hasDirectory (h : Clears loc fs fs') {l : Location} (hl : fs.HasDirectory l) :
    fs'.HasDirectory l := by
  have hne : l ≠ loc := fun heq => h.free (heq ▸ hl)
  rw [hasDirectory_iff_view] at hl ⊢
  rwa [h.view_eq, if_neg hne]

/-- An entry in a place that was cleared replaces what was there. -/
theorem Clears.shows {new : Entry} (h : Clears loc fs fs') (h' : Shows loc new fs' fs'') :
    Shows loc new fs fs'' where
  free := h.free
  current_eq := h'.current_eq.trans h.current_eq
  find?_eq l hl := (h'.find?_eq l hl).trans (h.find?_eq l hl)
  view_eq l := by
    rw [h'.view_eq, h.view_eq]
    split <;> rfl

/-! ## Where an entry can be put -/

/-- The directory above this place may be changed. -/
def Receives (fs : FileSystem) (loc : Location) : Prop :=
  ∃ directory name mode entries, loc = directory ++ [name] ∧
    fs.find? directory = some (.directory mode entries) ∧ mode.write = true

/-- An entry of this kind may be put here: a directory where nothing is, a link in place of anything but a
directory, and a file where nothing is or in place of one that may be written. -/
def Takes (fs : FileSystem) : Entry.Kind → Location → Prop
  | .directory, loc => fs.find? loc = none ∧ fs.Receives loc
  | .link, loc => ¬ fs.HasDirectory loc ∧ fs.Receives loc
  | .file, loc => (∃ mode contents, fs.find? loc = some (.file mode contents) ∧ mode.write = true) ∨
      fs.find? loc = none ∧ fs.Receives loc

/-- No file is put in place of a link. -/
theorem Takes.ne_link {loc : Location} (h : fs.Takes .file loc) (link : Path) :
    fs.find? loc ≠ some (.link link) := by
  intro hlink
  rcases h with ⟨_, _, hfile, -⟩ | ⟨hnone, -⟩
  · rw [hlink] at hfile
    cases hfile
  · rw [hlink] at hnone
    cases hnone

theorem receives_of_slot {p : Path} {slot : Slot} {name : Name} (hslot : fs.slot p = .ok slot)
    (hname : slot.name? = some name) (hwrite : ¬ (!slot.mode.write) = true) :
    fs.Receives (slot.directory ++ [name]) := by
  obtain ⟨entries, hfind⟩ := directory_of_slot hslot hname
  exact ⟨slot.directory, name, slot.mode, entries, rfl, hfind, by simpa using hwrite⟩

/-! ## Elementary steps -/

section Steps

variable {α : Type} {ok : α → FileSystem → Prop} {fails : FileSystem → Prop}

theorem ends_now {ok : FileSystem → FileSystem → Prop} (h : ok fs fs) : Ends now fs ok fails := h

theorem ends_ask {question : FileSystem → Except Fault α} (hok : ∀ a, question fs = .ok a → ok a fs)
    (hfails : fails fs) : Ends (ask question) fs ok fails := by
  refine .of_run (fun a fs' hrun => ?_) fun fault fs' hrun => ?_
  · obtain ⟨ha, rfl⟩ := ask_run hrun
    exact hok a ha
  · rw [← (Prod.mk.inj hrun).2]
    exact hfails

theorem ends_putAt {ok : Unit → FileSystem → Prop} {e : Entry} (h : ok () (fs.put loc e)) :
    Ends (putAt loc e) fs ok fails := h

/-- What is refused leaves everything as it is. -/
theorem ends_guard {c : Prop} [Decidable c] {fault : Fault} {x : Change α}
    {f : Unit → Change α} (hfails : fails fs) (h : ¬ c → Ends x fs ok fails) :
    Ends (if c then (throw fault : Change Unit) >>= f else x) fs ok fails := by
  by_cases hc : c
  · rw [if_pos hc]
    exact .bind (.throw hfails)
  · rw [if_neg hc]
    exact h hc

end Steps

/-! ## Files and links -/

section Entries

variable {p : Path}

/-- A file that is opened for writing is where the path leads. -/
theorem openForWriting_ends (hroot : fs.HasDirectory []) (hanchored : fs.Anchored p) :
    Ends (openForWriting p) fs
      (fun loc fs' => fs.Reaches p loc ∧ fs.Takes .file loc ∧ ∃ mode, Sets loc (.file mode []) fs fs')
      (· = fs) := by
  rw [openForWriting]
  refine .bind (ends_now ?_)
  refine .bind (ends_ask (fun place hplace => ?_) rfl)
  obtain ⟨loc, hleads, hfinds⟩ := finds_of_resolve hanchored hplace
  have hreaches := hfinds.reaches (by simp)
  rcases hleads with rfl | ⟨directory, name, rfl, rfl, hdirectory, hnone⟩
  · simp only
    split
    · rename_i mode contents hfile
      refine ends_guard rfl fun hwrite => ?_
      refine .bind (ends_putAt ?_)
      have htakes : fs.Takes .file loc := Or.inl ⟨mode, contents, hfile, by simpa using hwrite⟩
      exact .pure ⟨hreaches, htakes, mode, .of_file hroot hfile rfl rfl⟩
    · exact .throw rfl
  · simp only
    refine .bind (ends_ask (fun found hfound => ?_) rfl)
    refine ends_guard rfl fun hwrite => ?_
    refine .bind (ends_putAt ?_)
    have htakes : fs.Takes .file (directory ++ [name]) := Or.inr ⟨hnone, directory, name, found.1, found.2,
      rfl, directoryAt_eq_ok hfound, by simpa using hwrite⟩
    exact .pure ⟨hreaches, htakes, .plain, ⟨directory, name, rfl, hdirectory⟩,
      not_hasDirectory_of_none hnone, rfl, rfl⟩

theorem writeBytes_ends (hroot : fs.HasDirectory []) (hanchored : fs.Anchored p) (contents : Bytes) :
    Ends (writeBytes p contents) fs
      (fun _ fs' => ∃ loc mode, fs.Reaches p loc ∧ fs.Takes .file loc ∧
        Sets loc (.file mode contents) fs fs')
      (· = fs) := by
  rw [writeBytes]
  refine .bind ((openForWriting_ends hroot hanchored).mono (fun loc t hopen => ?_) fun _ => id)
  obtain ⟨hreaches, htakes, mode, hsets⟩ := hopen
  refine .bind (ends_now ?_)
  rw [hsets.find?_self]
  exact ends_putAt ⟨loc, mode, hreaches, htakes, hsets.again rfl rfl⟩

/-- A copied file has the bytes of the source, unless it is the source. -/
theorem copyFile_ends (hroot : fs.HasDirectory []) {source : Path} (hsource : fs.Anchored source)
    (hanchored : fs.Anchored p) :
    Ends (copyFile source p) fs
      (fun _ fs' => ∃ origin loc mode contents copied, fs.Reaches source origin ∧
        fs.find? origin = some (.file mode contents) ∧ fs.Reaches p loc ∧ fs.Takes .file loc ∧
        (origin ≠ loc → copied = contents) ∧ Sets loc (.file mode copied) fs fs')
      (· = fs) := by
  rw [copyFile]
  refine .bind (ends_ask (fun e he => ?_) rfl)
  obtain ⟨origin, hfinds, hfind⟩ := finds_of_lookup hsource he
  cases e with
  | link target => exact .bind (.throw rfl)
  | directory mode entries =>
    simp only
    split
    · exact .bind (.throw rfl)
    · exact .bind (.throw rfl)
  | file mode contents =>
    simp only
    split
    · rw [pure_bind]
      refine .bind (ends_ask (fun found hfound => ?_) rfl)
      have hreaches := hfinds.reaches (by simp)
      obtain rfl : found = origin := (((finds_of_locate hsource hfound).reaches (by simp)).eq hreaches)
      refine .bind ((openForWriting_ends hroot hanchored).mono (fun loc t hopen => ?_) fun _ => id)
      obtain ⟨hloc, htakes, mode', hsets⟩ := hopen
      refine .bind (ends_now ?_)
      by_cases hsame : found = loc
      · -- the source was emptied when it was opened
        subst hsame
        rw [hsets.find?_self]
        exact ends_putAt ⟨found, found, mode, contents, [], hreaches, hfind, hloc, htakes,
          fun hne => absurd rfl hne, hsets.again rfl rfl⟩
      · have hapart : ¬ found <+: loc := by
          intro hprefix
          obtain ⟨directory, name, rfl, hdirectory⟩ := hsets.above
          rcases List.prefix_concat_iff.mp hprefix with heq | hprefix
          · exact hsame heq
          · exact not_hasDirectory_of_file hfind (hdirectory.above hprefix)
        rw [hsets.find?_eq hapart, hfind]
        exact ends_putAt ⟨found, loc, mode, contents, contents, hreaches, hfind, hloc, htakes,
          fun _ => rfl, hsets.again rfl rfl⟩
    · exact .bind (.throw rfl)

/-- A link is created at the last name of the path. -/
theorem createLink_ends (hanchored : fs.Anchored p) (target : Path) :
    Ends (createLink target p) fs
      (fun _ fs' => ∃ directory name, fs.LooksUp p directory name ∧
        fs.find? (directory ++ [name]) = none ∧ fs.Takes .link (directory ++ [name]) ∧
        Sets (directory ++ [name]) (.link target) fs fs')
      (· = fs) := by
  rw [createLink]
  refine ends_guard rfl fun _ => ends_guard rfl fun _ => ?_
  refine .bind (ends_ask (fun slot hslot => ?_) rfl)
  cases hname : slot.name? with
  | none => exact .throw rfl
  | some name =>
    have hlooksUp := looksUp_of_slot hanchored hslot hname
    refine ends_guard rfl fun _ => .bind (ends_now ?_)
    refine ends_guard rfl fun hnone => ends_guard rfl fun _ => ends_guard rfl fun hwrite => ends_putAt ?_
    rw [Bool.not_eq_true, Option.isSome_eq_false_iff, Option.isNone_iff_eq_none] at hnone
    exact ⟨slot.directory, name, hlooksUp, hnone,
      ⟨not_hasDirectory_of_none hnone, receives_of_slot hslot hname hwrite⟩,
      ⟨slot.directory, name, rfl, hlooksUp.isOpen.hasDirectory⟩, not_hasDirectory_of_none hnone, rfl, rfl⟩

/-- A file or a link is removed at the last name of the path. -/
theorem removeFile_ends (hcurrent : fs.HasDirectory fs.current.location) (hanchored : fs.Anchored p) :
    Ends (removeFile p) fs
      (fun _ fs' => ∃ directory name, fs.LooksUp p directory name ∧
        fs.Takes .link (directory ++ [name]) ∧ Clears (directory ++ [name]) fs fs' ∧
        (fs.root.Valid → fs'.root.Valid))
      (· = fs) := by
  rw [removeFile]
  refine .bind (ends_ask (fun slot hslot => ?_) rfl)
  cases hname : slot.name? with
  | none => exact .throw rfl
  | some name =>
    have hlooksUp := looksUp_of_slot hanchored hslot hname
    refine ends_guard rfl fun _ => .bind (ends_now ?_)
    cases he : fs.find? (slot.directory ++ [name]) with
    | none => exact .throw rfl
    | some e =>
      simp only
      refine ends_guard rfl fun _ => ends_guard rfl fun hwrite => ends_guard rfl fun hfile => ?_
      rw [Bool.not_eq_true] at hfile
      have hclears : Clears (slot.directory ++ [name]) fs (fs.remove (slot.directory ++ [name])) :=
        .of_remove hcurrent he hfile
      exact ⟨slot.directory, name, hlooksUp, ⟨hclears.free, receives_of_slot hslot hname hwrite⟩, hclears,
        fun hvalid => hvalid.remove _⟩

/-- No link is created or removed by a path that ends in a slash. -/
theorem createLink_of_slash (hlast : p.last = []) (target : Path) :
    Ends (createLink target p) fs (fun _ _ => False) (· = fs) := by
  rw [createLink]
  refine ends_guard rfl fun _ => ends_guard rfl fun _ => ?_
  refine .bind (ends_ask (fun slot hslot => ?_) rfl)
  cases hname : slot.name? with
  | none => exact .throw rfl
  | some name =>
    refine ends_guard rfl fun _ => .bind (ends_now (ends_guard rfl fun _ => ends_guard rfl fun h => ?_))
    exact absurd (slashed_of_slot hlast hslot hname) h

theorem removeFile_of_slash (hlast : p.last = []) :
    Ends (removeFile p) fs (fun _ _ => False) (· = fs) := by
  rw [removeFile]
  refine .bind (ends_ask (fun slot hslot => ?_) rfl)
  cases hname : slot.name? with
  | none => exact .throw rfl
  | some name =>
    refine ends_guard rfl fun _ => .bind (ends_now ?_)
    cases fs.find? (slot.directory ++ [name]) with
    | none => exact .throw rfl
    | some e => exact ends_guard rfl fun h => absurd (slashed_of_slot hlast hslot hname) h

end Entries

/-! ## Directories -/

/-- The path passes the place, or leads there: links are followed where they are met, and missing names
as if they were directories. -/
def Passes (fs : FileSystem) (p : Path) (loc : Location) : Prop :=
  ∃ way, way <+: p.moves ∧ fs.FreeWay (fs.beginning p) way loc

/-- A path that meets no link passes what its moves spell. -/
theorem exists_of_passes {p : Path} (hfree : fs.LinkFree p) (h : fs.Passes p loc) :
    ∃ way, way <+: p.moves ∧ loc = way.foldl Step.move (fs.beginning p) := by
  obtain ⟨way, hway, hloc⟩ := h
  have hmoved : fs.FreeWay (fs.beginning p) way (way.foldl Step.move (fs.beginning p)) :=
    way_of_foldl (fun _ _ _ => trivial) fun way' hway' => hfree way' (hway'.trans hway)
  exact ⟨way, hway, hloc.eq hmoved⟩

/-- A path that meets no link and only moves down passes what is above the place it leads to. -/
theorem prefix_of_passes {p : Path} (hfree : fs.LinkFree p) (hdown : Step.up ∉ p.moves)
    (h : fs.Passes p loc) : loc <+: fs.spelled p := by
  obtain ⟨way, hway, rfl⟩ := exists_of_passes hfree h
  exact Step.foldl_move_mono hdown hway _

/-- What is passed on the way of the first moves of a path is passed on its way. -/
theorem Passes.mono {p q : Path} (h : fs.Passes q loc) (habsolute : q.isAbsolute = p.isAbsolute)
    (hmoves : q.moves <+: p.moves) : fs.Passes p loc := by
  obtain ⟨way, hprefix, hway⟩ := h
  rw [beginning_of_isAbsolute_eq habsolute] at hway
  exact ⟨way, hprefix.trans hmoves, hway⟩

theorem SameLinks.passes_iff (h : SameLinks fs fs') {p : Path} : fs'.Passes p loc ↔ fs.Passes p loc := by
  have hbeginning := h.beginning_eq p
  constructor
  · rintro ⟨way, hprefix, hway⟩
    exact ⟨way, hprefix, h.symm.way (hbeginning ▸ hway)⟩
  · rintro ⟨way, hprefix, hway⟩
    exact ⟨way, hprefix, hbeginning ▸ h.way hway⟩

/-- Empty directories are put at some of these places, where nothing was. -/
structure Makes (places : Location → Prop) (fs fs' : FileSystem) : Prop where
  touches : Touches (fun l => places l ∧ fs.find? l = none) fs fs'
  view_eq : ∀ l, fs'.view l = fs.view l ∨ fs.view l = none ∧ fs'.view l = some .emptyDirectory
  valid : (∀ l, places l → ∀ name ∈ l, name.Ordinary) → fs.root.Valid → fs'.root.Valid

namespace Makes

variable {places places' : Location → Prop}

theorem refl (places : Location → Prop) (fs : FileSystem) : Makes places fs fs :=
  ⟨.refl _ fs, fun _ => Or.inl rfl, fun _ h => h⟩

theorem trans (h : Makes places fs fs') (h' : Makes places fs' fs'') : Makes places fs fs'' where
  touches := by
    refine h.touches.trans (h'.touches.mono fun l ⟨hl, hnone⟩ => ⟨hl, ?_⟩)
    rw [← view_eq_none_iff] at hnone ⊢
    rcases h.view_eq l with heq | ⟨hnone', -⟩
    · rw [← heq, hnone]
    · exact hnone'
  view_eq l := by
    rcases h.view_eq l with heq | ⟨hnone, hempty⟩
    · rw [← heq]
      exact h'.view_eq l
    · exact Or.inr ⟨hnone, h'.touches.keeps.directory l .full hempty⟩
  valid hplaces hvalid := h'.valid hplaces (h.valid hplaces hvalid)

/-- Only the places where nothing was matter. -/
theorem mono (h : Makes places fs fs')
    (hplaces : ∀ l, places l → fs.find? l = none → places' l) : Makes places' fs fs' where
  touches := h.touches.mono fun l hl => ⟨hplaces l hl.1 hl.2, hl.2⟩
  view_eq := h.view_eq
  valid hordinary hvalid := by
    refine h.valid (fun l hl => ?_) hvalid
    cases hfind : fs.find? l with
    | none => exact hordinary l (hplaces l hl hfind)
    | some e => exact hvalid.ordinary_of_find? hfind

theorem of_sets (hplace : places loc) (hnone : fs.find? loc = none)
    (h : Sets loc .emptyDirectory fs fs') : Makes places fs fs' where
  touches := (h.shows.touches (by simp [hnone])).mono fun l hl => by
    subst hl
    exact ⟨hplace, hnone⟩
  view_eq l := by
    rw [h.view_eq]
    split
    · subst l
      exact Or.inr ⟨view_eq_none_iff.mpr hnone, rfl⟩
    · exact Or.inl rfl
  valid hordinary hvalid := by
    obtain ⟨directory, name, rfl, -⟩ := h.above
    rw [h.eq]
    exact hvalid.put Entry.valid_emptyDirectory (hordinary _ hplace name (by simp))

/-- Nothing happens if there is an entry at each of the places. -/
theorem eq_of_occupied (h : Makes places fs fs') (hplaces : ∀ l, places l → fs.find? l ≠ none) :
    fs' = fs := by
  have hroot : fs'.find? [] = fs.find? [] :=
    h.touches.find?_eq [] fun l ⟨hl, hnone⟩ => absurd hnone (hplaces l hl)
  obtain ⟨root, current⟩ := fs
  obtain ⟨root', current'⟩ := fs'
  obtain rfl := Option.some.inj hroot
  obtain rfl := h.touches.keeps.current_eq
  rfl

theorem alters (h : Makes places fs fs') : Alters (fun l => places l ∧ fs.find? l = none) fs fs' where
  current_eq := h.touches.keeps.current_eq
  find?_eq := h.touches.find?_eq
  view_eq := h.touches.view_eq
  link loc target hlink := by
    rw [← view_eq_link_iff] at hlink ⊢
    rcases h.view_eq loc with heq | ⟨-, hempty⟩
    · rwa [← heq]
    · rw [hempty] at hlink
      cases hlink
  directory := h.touches.keeps.directory

/-- No link appears or disappears. -/
theorem sameLinks (h : Makes places fs fs') : SameLinks fs fs' :=
  .of_view_eq h.touches.keeps.current_eq h.view_eq

end Makes

/-- The path leads to a directory by way of directories. -/
def Arrives (fs : FileSystem) (p : Path) : Prop := ∃ loc, fs.Reaches p loc ∧ fs.HasDirectory loc

section Directories

variable {p q : Path}

theorem createDirectory_ends (hanchored : fs.Anchored q) (habsolute : q.isAbsolute = p.isAbsolute)
    (hmoves : q.moves <+: p.moves) :
    Ends (createDirectory q) fs (fun _ fs' => Makes (fs.Passes p) fs fs' ∧ fs'.Arrives q)
      (· = fs) := by
  refine .of_run (fun _ fs' hrun => ?_) fun _ fs' => createDirectory_error
  obtain ⟨slot, name, hslot, hname, -, hnone, heq⟩ := exists_of_createDirectory hrun
  have hlooksUp := looksUp_of_slot hanchored hslot hname
  have hsets : Sets (slot.directory ++ [name]) .emptyDirectory fs fs' :=
    ⟨⟨slot.directory, name, rfl, hlooksUp.isOpen.hasDirectory⟩, not_hasDirectory_of_none hnone, rfl, heq⟩
  have hreaches := hlooksUp.reaches fun target hlink => by
    rw [hnone] at hlink
    cases hlink
  have hmakes : Makes (fs.Passes p) fs fs' := by
    refine .of_sets ⟨q.moves, hmoves, ?_⟩ hnone hsets
    rw [← beginning_of_isAbsolute_eq habsolute]
    exact hreaches.free
  refine ⟨hmakes, slot.directory ++ [name], ?_, _, _, hsets.find?_self⟩
  -- the way to the directory above is kept, and the new name leads on from there
  refine (hlooksUp.keeps hmakes.touches.keeps).reaches fun target hlink => ?_
  rw [hsets.find?_self] at hlink
  cases hlink

theorem unlessDirectory_ends (hanchored : fs.Anchored q) (fault : Fault) :
    Ends (unlessDirectory q fault) fs (fun _ fs' => fs' = fs ∧ fs.Arrives q) (· = fs) := by
  rw [unlessDirectory]
  refine .bind (ends_now ?_)
  split
  · rename_i hdirectory
    exact .pure ⟨rfl, reaches_of_isDirectory hanchored hdirectory⟩
  · exact .throw rfl

/-- Directories are created along a chain of paths, each of which is above a path. -/
theorem createChain_ends {paths : List Path} (hcurrent : fs.HasDirectory fs.current.location)
    (hpaths : ∀ q ∈ paths, fs.Anchored q ∧ q.isAbsolute = p.isAbsolute ∧ q.moves <+: p.moves) :
    Ends (createChain paths) fs
      (fun _ fs' => Makes (fs.Passes p) fs fs' ∧ ∀ q ∈ paths.head?, fs'.Arrives q)
      (Makes (fs.Passes p) fs) := by
  induction paths generalizing fs with
  | nil => exact .throw (.refl _ fs)
  | cons q above ih =>
    obtain ⟨hanchored, habsolute, hmoves⟩ := hpaths q List.mem_cons_self
    simp only [List.head?_cons, Option.mem_some_iff, forall_eq']
    rw [createChain]
    split
    · rename_i hempty
      subst hempty
      exact .pure ⟨.refl _ fs, fs.current.location, .done _, hcurrent⟩
    have hunless {t : FileSystem} (hmakes : Makes (fs.Passes p) fs t) (hanchored : t.Anchored q)
        (fault : Fault) : Ends (unlessDirectory q fault) t
        (fun _ fs' => Makes (fs.Passes p) fs fs' ∧ fs'.Arrives q) (Makes (fs.Passes p) fs) := by
      refine (unlessDirectory_ends hanchored fault).mono ?_ ?_
      · rintro _ _ ⟨rfl, harrives⟩
        exact ⟨hmakes, harrives⟩
      · rintro _ rfl
        exact hmakes
    refine .tryCatch ((createDirectory_ends hanchored habsolute hmoves).mono (fun _ _ h => h) ?_)
    rintro _ rfl fault -
    split
    · -- what is missing above is created, and the path is tried again
      refine .bind ((ih hcurrent fun r hr => hpaths r (List.mem_cons_of_mem q hr)).mono
        (fun _ t hmade => ?_) fun _ => id)
      have hmakes := hmade.1
      have hanchored' := hmakes.touches.keeps.anchored hanchored
      refine .tryCatch ((createDirectory_ends hanchored' habsolute hmoves).mono ?_ ?_)
      · rintro _ fs' ⟨hmakes', harrives⟩
        exact ⟨hmakes.trans (hmakes'.mono fun l hl _ => hmakes.sameLinks.passes_iff.mp hl), harrives⟩
      · rintro _ rfl fault -
        exact hunless hmakes hanchored' fault
    · exact hunless (.refl _ _) hanchored _

/-- Directories are created where the path passes, and afterwards it leads to one. -/
theorem createDirectories_ends (hcurrent : fs.HasDirectory fs.current.location)
    (hanchored : fs.Anchored p) :
    Ends (createDirectories p) fs
      (fun _ fs' => Makes (fs.Passes p) fs fs' ∧ fs'.Arrives p) (Makes (fs.Passes p) fs) := by
  refine (createChain_ends hcurrent fun q hq => ?_).mono (fun _ fs' ⟨hmakes, harrives⟩ => ?_)
    fun _ => id
  · obtain ⟨habsolute, hmoves⟩ := Path.moves_of_mem_ancestors hq
    exact ⟨hanchored.of_isAbsolute_eq habsolute, habsolute, hmoves⟩
  · refine ⟨hmakes, harrives p ?_⟩
    rw [Path.ancestors, Path.lineage]
    cases p.parent? <;> rfl

end Directories

end FileRoutes.FileSystem
