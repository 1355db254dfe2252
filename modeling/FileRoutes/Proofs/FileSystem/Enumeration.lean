import FileRoutes.Proofs.FileSystem.LinkFree

/-!
# The order of enumeration

A directory's entries stand in the order in which the system enumerates them.  Two trees that show the same
at each location differ in nothing but these orders (`Entry.Alike`): their directories have the same names
(`Entry.Alike.names_perm`), and under each name trees that are alike again (`Entry.Alike.inside`).  Trees
are alike if their entries are the same but for their order, or if these are alike (`Entry.alike_of_perm`,
`Entry.alike_of_forall₂`).

The system follows a path by looking names up, so the place to which a path leads does not depend on any order
of enumeration (`FileSystem.Reordered.resolve_eq`).
-/

namespace FileRoutes

/-! ## Trees -/

namespace Entry

/-- The trees show the same at each location. -/
def Alike (e e' : Entry) : Prop := ∀ loc, (e'.find? loc).map bare = (e.find? loc).map bare

variable {e e' : Entry} {mode mode' : Mode} {entries entries' : List (Name × Entry)} {name : Name}

namespace Alike

theorem refl (e : Entry) : Alike e e := fun _ => rfl

theorem symm (h : Alike e e') : Alike e' e := fun loc => (h loc).symm

theorem trans {e'' : Entry} (h : Alike e e') (h' : Alike e' e'') : Alike e e'' :=
  fun loc => (h' loc).trans (h loc)

theorem bare_eq (h : Alike e e') : e'.bare = e.bare := by
  have htop := h []
  rw [find?_nil, find?_nil] at htop
  exact Option.some.inj htop

theorem eq_of_file {contents : Bytes} (h : Alike (.file mode contents) e') : e' = .file mode contents :=
  bare_eq_file_iff.mp h.bare_eq

theorem eq_of_link {target : Path} (h : Alike (.link target) e') : e' = .link target :=
  bare_eq_link_iff.mp h.bare_eq

theorem exists_directory (h : Alike (.directory mode entries) e') :
    ∃ entries', e' = .directory mode entries' :=
  bare_eq_directory_iff.mp h.bare_eq

theorem lookup_map (h : Alike (.directory mode entries) (.directory mode' entries')) (name : Name) :
    (entries'.lookup name).map bare = (entries.lookup name).map bare := by
  have hname := h [name]
  simp only [find?_directory_cons] at hname
  cases hlookup : entries.lookup name <;> cases hlookup' : entries'.lookup name <;>
    simp_all

/-- Under a name that both have there are trees that are alike. -/
theorem inside (h : Alike (.directory mode entries) (.directory mode' entries')) {x x' : Entry}
    (hx : entries.lookup name = some x) (hx' : entries'.lookup name = some x') : Alike x x' := by
  intro loc
  have hbelow := h (name :: loc)
  rwa [find?_directory_cons, find?_directory_cons, hx, hx'] at hbelow

/-- A name is in both directories or in none. -/
theorem mem_names_iff (h : Alike (.directory mode entries) (.directory mode' entries')) :
    name ∈ entries'.map (·.1) ↔ name ∈ entries.map (·.1) := by
  have hiff (es : List (Name × Entry)) :
      name ∈ es.map (·.1) ↔ ((es.lookup name).map bare).isSome = true := by
    rw [Option.isSome_map, List.lookup_isSome_iff, List.mem_map]
    simp only [beq_iff_eq]
    exact exists_congr fun p => and_congr_right' eq_comm
  rw [hiff, hiff, h.lookup_map]

/-- The directories have the same names. -/
theorem names_perm (h : Alike (.directory mode entries) (.directory mode' entries'))
    (hdistinct : (entries.map (·.1)).Nodup) (hdistinct' : (entries'.map (·.1)).Nodup) :
    (entries'.map (·.1)).Perm (entries.map (·.1)) :=
  (List.perm_ext_iff_of_nodup hdistinct' hdistinct).mpr fun _ => h.mem_names_iff

end Alike

theorem alike_of_lookup (h : ∀ name, ∀ loc, ((entries'.lookup name).bind (find? · loc)).map bare =
    ((entries.lookup name).bind (find? · loc)).map bare) :
    Alike (.directory mode entries) (.directory mode entries') := by
  intro loc
  cases loc with
  | nil => rfl
  | cons name loc => exact h name loc

/-- The same entries in another order. -/
theorem alike_of_perm (hperm : entries.Perm entries') (hdistinct : (entries.map (·.1)).Nodup) :
    Alike (.directory mode entries) (.directory mode entries') := by
  have hdistinct' : (entries'.map (·.1)).Nodup := (hperm.map (·.1)).nodup_iff.mp hdistinct
  refine alike_of_lookup fun name loc => ?_
  congr 2
  refine Option.ext fun e => ⟨fun he => ?_, fun he => ?_⟩
  · exact lookup_of_mem hdistinct (hperm.mem_iff.mpr (mem_of_lookup he))
  · exact lookup_of_mem hdistinct' (hperm.mem_iff.mp (mem_of_lookup he))

/-- Entries that are alike under the same names. -/
theorem alike_of_forall₂ (h : List.Forall₂ (fun p p' => p.1 = p'.1 ∧ Alike p.2 p'.2) entries entries') :
    Alike (.directory mode entries) (.directory mode entries') := by
  refine alike_of_lookup fun name loc => ?_
  induction h with
  | nil => rfl
  | @cons p p' ps ps' hp _ ih =>
    obtain ⟨n, e⟩ := p
    obtain ⟨n', e'⟩ := p'
    obtain ⟨rfl, halike⟩ := hp
    by_cases hname : name = n
    · rw [hname, List.lookup_cons_self, List.lookup_cons_self]
      exact halike loc
    · rw [lookup_cons_of_ne hname, lookup_cons_of_ne hname]
      exact ih

end Entry

/-! ## File systems -/

namespace FileSystem

/-- The file systems differ at most in the order in which directories are enumerated. -/
structure Reordered (fs fs' : FileSystem) : Prop where
  tree : fs.root.Alike fs'.root
  current_eq : fs'.current = fs.current

namespace Reordered

variable {fs fs' : FileSystem} {s : Spot} {loc : Location} {purpose : Purpose} {p : Path}

theorem refl (fs : FileSystem) : Reordered fs fs := ⟨.refl _, rfl⟩

theorem symm (h : Reordered fs fs') : Reordered fs' fs := ⟨h.tree.symm, h.current_eq.symm⟩

theorem find?_map (h : Reordered fs fs') (loc : Location) :
    (fs'.find? loc).map Entry.bare = (fs.find? loc).map Entry.bare := h.tree loc

/-- What is at a location is alike. -/
theorem find?_alike (h : Reordered fs fs') {e e' : Entry} (he : fs.find? loc = some e)
    (he' : fs'.find? loc = some e') : e.Alike e' := by
  intro below
  have hbelow := h.tree (loc ++ below)
  rwa [Entry.find?_append_of_eq_some he, Entry.find?_append_of_eq_some he'] at hbelow

/-- A directory is there with the same mode. -/
theorem exists_directory (h : Reordered fs fs') {mode : Mode} {entries : List (Name × Entry)}
    (hfind : fs.find? loc = some (.directory mode entries)) :
    ∃ entries', fs'.find? loc = some (.directory mode entries') := by
  have hview := h.find?_map loc
  rw [hfind, Option.map_some, Entry.bare_directory] at hview
  obtain ⟨e', he', hbare⟩ := Option.map_eq_some_iff.mp hview
  obtain ⟨entries', rfl⟩ := Entry.bare_eq_directory_iff.mp hbare
  exact ⟨entries', he'⟩

/-- Where a name is followed there is a directory with the same mode in both, or the walk fails alike. -/
theorem directoryOf_cases (h : Reordered fs fs') (s : Spot) :
    (∃ fault, fs.directoryOf s = .error fault ∧ fs'.directoryOf s = .error fault) ∨
      ∃ mode entries entries', fs.directoryOf s = .ok (mode, entries) ∧
        fs'.directoryOf s = .ok (mode, entries') ∧
        (Entry.directory mode entries).Alike (.directory mode entries') := by
  by_cases hlost : s.lost = 0
  · simp only [FileSystem.directoryOf, if_pos hlost, directoryAt]
    by_cases hdirectory : fs.HasDirectory s.location
    · obtain ⟨mode, entries, hfind⟩ := hdirectory
      obtain ⟨entries', hfind'⟩ := h.exists_directory hfind
      refine Or.inr ⟨mode, entries, entries', ?_, ?_, h.find?_alike hfind hfind'⟩
      · rw [hfind]
      · rw [hfind']
    · have hdirectory' : ¬ fs'.HasDirectory s.location := by
        rintro ⟨mode, entries, hfind⟩
        obtain ⟨entries', hfind'⟩ := h.symm.exists_directory hfind
        exact hdirectory ⟨mode, entries', hfind'⟩
      have herror {f : FileSystem} (hf : ¬ f.HasDirectory s.location) :
          f.directoryAt s.location = .error .notDirectory := by
        rw [directoryAt]
        split
        · exact absurd ⟨_, _, ‹_›⟩ hf
        · rfl
      exact Or.inl ⟨.notDirectory, herror hdirectory, herror hdirectory'⟩
  · refine Or.inr ⟨.full, [], [], ?_, ?_, fun _ => rfl⟩
    · rw [FileSystem.directoryOf, if_neg hlost]
    · rw [FileSystem.directoryOf, if_neg hlost]

theorem searchable_cases (h : Reordered fs fs') (s : Spot) :
    (∃ fault, fs.searchable s = .error fault ∧ fs'.searchable s = .error fault) ∨
      ∃ mode entries entries', fs.searchable s = .ok entries ∧ fs'.searchable s = .ok entries' ∧
        (Entry.directory mode entries).Alike (.directory mode entries') := by
  rw [searchable, searchable]
  rcases h.directoryOf_cases s with ⟨fault, hfault, hfault'⟩ | ⟨mode, entries, entries', hok, hok', halike⟩
  · exact Or.inl ⟨fault, by rw [hfault]; rfl, by rw [hfault']; rfl⟩
  · rw [hok, hok']
    simp only [bind, Except.bind]
    cases mode.search with
    | false => exact Or.inl ⟨.denied, rfl, rfl⟩
    | true => exact Or.inr ⟨mode, entries, entries', rfl, rfl, halike⟩

/-- A walk looks names up, and does not see in which order they stand. -/
theorem walk_eq (h : Reordered fs fs') {jump : Location → Path → List Step → Except Fault Place}
    (steps : List Step) : fs'.walk purpose jump s steps = fs.walk purpose jump s steps := by
  induction steps generalizing s with
  | nil => rw [walk, walk]
  | cons step rest ih =>
    cases step with
    | settle =>
      rw [walk, walk]
      rcases h.directoryOf_cases s with ⟨fault, hfault, hfault'⟩ | ⟨mode, entries, entries', hok, hok', -⟩
      · rw [hfault, hfault']
        rfl
      · rw [hok, hok']
        exact ih
    | stay =>
      rw [walk, walk]
      rcases h.searchable_cases s with ⟨fault, hfault, hfault'⟩ | ⟨mode, entries, entries', hok, hok', -⟩
      · rw [hfault, hfault']
        rfl
      · rw [hok, hok']
        exact ih
    | up =>
      rw [walk, walk]
      rcases h.searchable_cases s with ⟨fault, hfault, hfault'⟩ | ⟨mode, entries, entries', hok, hok', -⟩
      · rw [hfault, hfault']
        rfl
      · rw [hok, hok']
        exact ih
    | down name =>
      rw [walk, walk]
      rcases h.searchable_cases s with ⟨fault, hfault, hfault'⟩ | ⟨mode, entries, entries', hok, hok', halike⟩
      · rw [hfault, hfault']
        rfl
      · rw [hok, hok']
        have hname := halike.lookup_map name
        simp only [bind, Except.bind]
        -- what the name stands for is missing in both, the same link in both, or no link in both
        cases hlookup : entries.lookup name with
        | none =>
          rw [hlookup, Option.map_none, Option.map_eq_none_iff] at hname
          rw [hname]
        | some e =>
          rw [hlookup, Option.map_some] at hname
          obtain ⟨e', he', hbare⟩ := Option.map_eq_some_iff.mp hname
          rw [he']
          cases e with
          | link target => rw [Entry.bare_eq_link_iff.mp hbare]
          | file mode contents =>
            rw [Entry.bare_eq_file_iff.mp hbare]
            simp only [ih]
          | directory mode es =>
            obtain ⟨es', rfl⟩ := Entry.bare_eq_directory_iff.mp hbare
            simp only [ih]

theorem follow_eq (h : Reordered fs fs') {links : Nat} {steps : List Step} :
    fs'.follow purpose links s steps = fs.follow purpose links s steps := by
  induction links generalizing s steps with
  | zero =>
    rw [follow, follow]
    exact h.walk_eq steps
  | succ links ih =>
    rw [follow, follow, h.walk_eq steps]
    simp only [ih]

/-- A path leads to the same place. -/
theorem resolve_eq (h : Reordered fs fs') (purpose : Purpose) (p : Path) :
    fs'.resolve purpose p = fs.resolve purpose p := by
  rw [resolve, resolve, start, start, h.current_eq]
  simp only [h.follow_eq]

/-- What a path leads to is alike, and it leads somewhere in both or in none. -/
theorem lookup_cases (h : Reordered fs fs') (purpose : Purpose) (p : Path) :
    (∃ fault, fs.lookup purpose p = .error fault ∧ fs'.lookup purpose p = .error fault) ∨
      ∃ e e', fs.lookup purpose p = .ok e ∧ fs'.lookup purpose p = .ok e' ∧ e.Alike e' := by
  rw [lookup, lookup, h.resolve_eq]
  cases hplace : fs.resolve purpose p with
  | error fault => exact Or.inl ⟨fault, rfl, rfl⟩
  | ok place =>
    simp only [bind, Except.bind]
    cases place with
    | gap directory name => exact Or.inl ⟨.missing, rfl, rfl⟩
    | removed => exact Or.inr ⟨_, _, rfl, rfl, fun _ => rfl⟩
    | entry loc =>
      have hview := h.find?_map loc
      cases hfind : fs.find? loc with
      | none =>
        rw [hfind, Option.map_none, Option.map_eq_none_iff] at hview
        simp only [hfind, hview]
        exact Or.inl ⟨.missing, rfl, rfl⟩
      | some e =>
        rw [hfind, Option.map_some] at hview
        obtain ⟨e', he', -⟩ := Option.map_eq_some_iff.mp hview
        simp only [hfind, he']
        exact Or.inr ⟨e, e', rfl, rfl, h.find?_alike hfind he'⟩

end Reordered

end FileSystem

end FileRoutes
