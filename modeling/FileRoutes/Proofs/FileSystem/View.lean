import FileRoutes.Proofs.FileSystem.Tree

/-!
# What a file system shows

The view of a file system tells of each location what is there, without what is below it
(`FileSystem.view`).  A change of one entry is a change of the view at one location
(`Sets.view_eq`), so what a sequence of changes does is told by the view location by location.

## Footprints

`Alters part fs fs'` says what a sequence of changes leaves alone, if it touches only locations in
`part`: the view elsewhere, and the whole tree at any location that is not above a touched one.  It
says two things of the touched locations too, since later steps rely on them wherever they are.  No
link appears, so a path that meets no link still meets none, and a directory stays one and keeps its
mode, so the way to what is below it stays open.
-/

namespace FileRoutes.FileSystem

/-- What is at a location, without what is below it. -/
def view (fs : FileSystem) (loc : Location) : Option Entry := (fs.find? loc).map Entry.bare

section View

variable {fs : FileSystem} {loc : Location} {mode : Mode}

theorem view_eq_none_iff : fs.view loc = none ↔ fs.find? loc = none := by
  simp [view]

theorem view_eq_file_iff {contents : Bytes} :
    fs.view loc = some (.file mode contents) ↔ fs.find? loc = some (.file mode contents) := by
  simp [view, Entry.bare_eq_file_iff]

theorem view_eq_link_iff {target : Path} :
    fs.view loc = some (.link target) ↔ fs.find? loc = some (.link target) := by
  simp [view, Entry.bare_eq_link_iff]

theorem view_eq_directory_iff :
    fs.view loc = some (.directory mode []) ↔
      ∃ entries, fs.find? loc = some (.directory mode entries) := by
  rw [view]
  cases fs.find? loc <;> simp [Entry.bare_eq_directory_iff]

/-- There is a directory at the location. -/
def HasDirectory (fs : FileSystem) (loc : Location) : Prop :=
  ∃ mode entries, fs.find? loc = some (.directory mode entries)

theorem hasDirectory_iff_view :
    fs.HasDirectory loc ↔ ∃ mode, fs.view loc = some (.directory mode []) := by
  simp only [HasDirectory, view_eq_directory_iff]

/-- What is above an entry is a directory. -/
theorem HasDirectory.of_find?_append {e : Entry} {name : Name} {rest : Location}
    (h : fs.find? (loc ++ name :: rest) = some e) : fs.HasDirectory loc :=
  Entry.exists_directory_of_find?_append h

theorem HasDirectory.above {below : Location} (h : fs.HasDirectory below) (hloc : loc <+: below) :
    fs.HasDirectory loc := by
  obtain ⟨rest, rfl⟩ := hloc
  cases rest with
  | nil => rwa [List.append_nil] at h
  | cons name rest =>
    obtain ⟨m, es, h⟩ := h
    exact .of_find?_append h

/-- Below what is no directory there is nothing. -/
theorem find?_append_eq_none (h : ¬ fs.HasDirectory loc) {rest : Location} (hrest : rest ≠ []) :
    fs.find? (loc ++ rest) = none := by
  obtain ⟨name, rest, rfl⟩ := List.exists_cons_of_ne_nil hrest
  cases hfind : fs.find? (loc ++ name :: rest) with
  | none => rfl
  | some e => exact absurd (.of_find?_append hfind) h

theorem not_hasDirectory_of_file {contents : Bytes} (h : fs.find? loc = some (.file mode contents)) :
    ¬ fs.HasDirectory loc := by
  rintro ⟨m, es, hfind⟩
  rw [h] at hfind
  cases hfind

theorem not_hasDirectory_of_none (h : fs.find? loc = none) : ¬ fs.HasDirectory loc := by
  rintro ⟨m, es, hfind⟩
  rw [h] at hfind
  cases hfind

end View

/-! ## A change of one entry -/

/-- The change puts an entry without others in it at a location below a directory, and replaces no
directory. -/
structure Sets (loc : Location) (new : Entry) (fs fs' : FileSystem) : Prop where
  above : ∃ directory name, loc = directory ++ [name] ∧ fs.HasDirectory directory
  free : ¬ fs.HasDirectory loc
  bare : new.bare = new
  eq : fs' = fs.put loc new

namespace Sets

variable {loc : Location} {new : Entry} {fs fs' : FileSystem}

theorem holds (h : Sets loc new fs fs') : fs.root.Holds loc := by
  obtain ⟨directory, name, rfl, mode, entries, hfind⟩ := h.above
  exact Entry.holds_concat hfind name

theorem find?_self (h : Sets loc new fs fs') : fs'.find? loc = some new := by
  rw [h.eq]
  exact Entry.find?_put_self new h.holds

/-- Only the location and the directories above it can look different. -/
theorem find?_eq (h : Sets loc new fs fs') {l : Location} (hl : ¬ l <+: loc) :
    fs'.find? l = fs.find? l := by
  by_cases hbelow : loc <+: l
  · obtain ⟨rest, rfl⟩ := hbelow
    have hrest : rest ≠ [] := by
      rintro rfl
      rw [List.append_nil] at hl
      exact hl (List.prefix_refl loc)
    have hnew : new.find? rest = none := by
      obtain ⟨name, rest, rfl⟩ := List.exists_cons_of_ne_nil hrest
      rw [← h.bare]
      cases new <;> rfl
    rw [find?_append_eq_none h.free hrest, h.eq, ← hnew]
    exact Entry.find?_put_below new h.holds rest
  · rw [h.eq]
    exact Entry.find?_put_beside fs.root new hbelow hl

theorem view_eq (h : Sets loc new fs fs') (l : Location) :
    fs'.view l = if l = loc then some new else fs.view l := by
  by_cases hl : l <+: loc
  · obtain ⟨rest, rfl⟩ := hl
    by_cases hrest : rest = []
    · subst hrest
      rw [List.append_nil] at h
      rw [if_pos (List.append_nil l).symm, view, h.find?_self, Option.map_some, h.bare]
    · have habove : fs'.find? l = (fs.find? l).map (Entry.put · new rest) := by
        rw [h.eq]
        exact Entry.find?_put_above fs.root new l hrest
      rw [if_neg (by simpa using hrest), view, habove, view, Option.map_map]
      congr 1
      funext e
      exact Entry.bare_put e new hrest
  · have hne : l ≠ loc := fun heq => hl (heq ▸ List.prefix_refl l)
    rw [if_neg hne, view, h.find?_eq hl, view]

end Sets

/-! ## Sequences of changes -/

/-- What a sequence of changes at some locations, none of which makes a link, leaves as it was. -/
structure Alters (part : Location → Prop) (fs fs' : FileSystem) : Prop where
  current_eq : fs'.current = fs.current
  find?_eq : ∀ loc, (∀ l, part l → ¬ loc <+: l) → fs'.find? loc = fs.find? loc
  view_eq : ∀ loc, ¬ part loc → fs'.view loc = fs.view loc
  link : ∀ loc target, fs'.find? loc = some (.link target) → fs.find? loc = some (.link target)
  directory : ∀ loc mode, fs.view loc = some (.directory mode []) →
    fs'.view loc = some (.directory mode [])

namespace Alters

variable {part : Location → Prop} {fs fs' fs'' : FileSystem}

theorem refl (part : Location → Prop) (fs : FileSystem) : Alters part fs fs :=
  ⟨rfl, fun _ _ => rfl, fun _ _ => rfl, fun _ _ h => h, fun _ _ h => h⟩

theorem trans (h : Alters part fs fs') (h' : Alters part fs' fs'') : Alters part fs fs'' where
  current_eq := h'.current_eq.trans h.current_eq
  find?_eq loc hloc := (h'.find?_eq loc hloc).trans (h.find?_eq loc hloc)
  view_eq loc hloc := (h'.view_eq loc hloc).trans (h.view_eq loc hloc)
  link loc target hloc := h.link loc target (h'.link loc target hloc)
  directory loc mode hloc := h'.directory loc mode (h.directory loc mode hloc)

theorem mono (h : Alters part fs fs') {part' : Location → Prop} (hpart : ∀ l, part l → part' l) :
    Alters part' fs fs' where
  current_eq := h.current_eq
  find?_eq loc hloc := h.find?_eq loc fun l hl => hloc l (hpart l hl)
  view_eq loc hloc := h.view_eq loc fun hl => hloc (hpart loc hl)
  link := h.link
  directory := h.directory

theorem hasDirectory (h : Alters part fs fs') {loc : Location} (hloc : fs.HasDirectory loc) :
    fs'.HasDirectory loc := by
  rw [hasDirectory_iff_view] at hloc ⊢
  exact hloc.imp fun mode => h.directory loc mode

end Alters

theorem Sets.alters {loc : Location} {new : Entry} {fs fs' : FileSystem} (h : Sets loc new fs fs')
    (hnew : ∀ target, new ≠ .link target) : Alters (· = loc) fs fs' where
  current_eq := by
    rw [h.eq]
    rfl
  find?_eq l hl := h.find?_eq (hl loc rfl)
  view_eq l hl := by rw [h.view_eq, if_neg hl]
  link l target hl := by
    rw [← view_eq_link_iff, h.view_eq] at hl
    split at hl
    · exact absurd (Option.some.inj hl) (hnew target)
    · exact view_eq_link_iff.mp hl
  directory l mode hl := by
    rw [h.view_eq]
    split
    · subst l
      exact absurd (hasDirectory_iff_view.mpr ⟨mode, hl⟩) h.free
    · exact hl

end FileRoutes.FileSystem
