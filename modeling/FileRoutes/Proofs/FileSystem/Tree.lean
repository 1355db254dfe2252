import FileRoutes.FileSystem.Resolve
import Mathlib.Data.List.Infix
import Mathlib.Data.List.Nodup

/-!
# The tree of entries

What `find?` sees of a tree, and what `put` and `remove` change of what it sees.

## Valid trees

The type of entries allows a directory with two entries of one name, or with one whose name is `..`.
No file system holds these; `Entry.Valid` rules them out.  In a valid tree an entry is listed in a
directory exactly if it is found there by its name (`lookup_of_mem`, `mem_of_lookup`).

## What a change leaves

`put` at a location is seen differently from three kinds of places:

* from the location on down there is the new entry (`find?_put_below`),
* from a directory above, the change has moved down in it (`find?_put_above`),
* from any other place nothing has changed (`find?_put_beside`).

The same three hold of `remove`, which leaves nothing from the location on down.
-/

namespace FileRoutes

/-- A name that an entry of a directory can have. -/
structure Name.Ordinary (name : Name) : Prop where
  ne_nil : name ≠ []
  ne_dot : name ≠ Path.dot
  ne_dotDot : name ≠ Path.dotDot
  slash_notMem : Path.slash ∉ name
  zero_notMem : (0 : UInt8) ∉ name

instance (name : Name) : Decidable (Name.Ordinary name) :=
  decidable_of_iff (name ≠ [] ∧ name ≠ Path.dot ∧ name ≠ Path.dotDot ∧ Path.slash ∉ name ∧
      (0 : UInt8) ∉ name)
    ⟨fun ⟨h₁, h₂, h₃, h₄, h₅⟩ => ⟨h₁, h₂, h₃, h₄, h₅⟩,
      fun ⟨h₁, h₂, h₃, h₄, h₅⟩ => ⟨h₁, h₂, h₃, h₄, h₅⟩⟩

namespace Entry

/-- An entry is a link or it is none. -/
theorem link_or_not (e : Entry) : (∃ target, e = .link target) ∨ ∀ target, e ≠ .link target :=
  (Classical.em _).imp_right fun hlink target heq => hlink ⟨target, heq⟩

/-! ## Induction over a tree -/

/-- To prove something of all entries, prove it of a directory from the same for the entries in it. -/
@[elab_as_elim]
theorem induction {P : Entry → Prop} (file : ∀ mode contents, P (.file mode contents))
    (link : ∀ target, P (.link target))
    (directory : ∀ mode entries, (∀ p ∈ entries, P p.2) → P (.directory mode entries)) :
    ∀ e, P e
  | .file mode contents => file mode contents
  | .link target => link target
  | .directory mode entries =>
    directory mode entries fun p _ => induction file link directory p.2
termination_by e => e
decreasing_by
  rename_i hp
  have h := List.sizeOf_lt_of_mem hp
  have h' : sizeOf p.2 < sizeOf p := by
    obtain ⟨name, e⟩ := p
    simp only [Prod.mk.sizeOf_spec]
    omega
  simp only [Entry.directory.sizeOf_spec]
  omega

/-- Every directory of the tree has ordinary names in it, each of them once. -/
inductive Valid : Entry → Prop
  | file (mode : Mode) (contents : Bytes) : Valid (.file mode contents)
  | link (target : Path) : Valid (.link target)
  | directory {mode : Mode} {entries : List (Name × Entry)} (distinct : (entries.map (·.1)).Nodup)
      (ordinary : ∀ p ∈ entries, Name.Ordinary p.1) (inside : ∀ p ∈ entries, Valid p.2) :
      Valid (.directory mode entries)

section Valid

variable {mode : Mode} {entries : List (Name × Entry)}

theorem Valid.distinct (h : Valid (.directory mode entries)) : (entries.map (·.1)).Nodup := by
  cases h with
  | directory distinct _ _ => exact distinct

theorem Valid.ordinary (h : Valid (.directory mode entries)) {p : Name × Entry}
    (hp : p ∈ entries) : Name.Ordinary p.1 := by
  cases h with
  | directory _ ordinary _ => exact ordinary p hp

theorem Valid.inside (h : Valid (.directory mode entries)) {p : Name × Entry}
    (hp : p ∈ entries) : p.2.Valid := by
  cases h with
  | directory _ _ inside => exact inside p hp

end Valid

/-- No name is repeated among the entries. -/
theorem Valid.nodup_names {e : Entry} (h : e.Valid) : (e.entries.map (·.1)).Nodup := by
  cases h with
  | file mode contents => exact List.nodup_nil
  | link target => exact List.nodup_nil
  | directory distinct _ _ => exact distinct

theorem valid_emptyDirectory : emptyDirectory.Valid :=
  .directory (by simp) (by simp) (by simp)

mutual

/-- Decides whether a tree is valid. -/
def isValid : Entry → Bool
  | .directory _ entries => (entries.map (·.1)).Nodup && areValid entries
  | _ => true

/-- Decides whether the entries of a directory have ordinary names and are valid. -/
def areValid : List (Name × Entry) → Bool
  | [] => true
  | (name, e) :: rest => Name.Ordinary name && isValid e && areValid rest

end

theorem areValid_iff {entries : List (Name × Entry)} :
    areValid entries = true ↔ ∀ p ∈ entries, Name.Ordinary p.1 ∧ isValid p.2 = true := by
  induction entries with
  | nil => simp [areValid]
  | cons p entries ih =>
    obtain ⟨name, e⟩ := p
    simp [areValid, ih, and_assoc]

theorem isValid_iff {e : Entry} : isValid e = true ↔ e.Valid := by
  induction e using Entry.induction with
  | file mode contents => exact iff_of_true rfl (.file mode contents)
  | link target => exact iff_of_true rfl (.link target)
  | directory mode entries ih =>
    rw [isValid, Bool.and_eq_true, decide_eq_true_iff, areValid_iff]
    constructor
    · rintro ⟨hdistinct, hinside⟩
      exact .directory hdistinct (fun p hp => (hinside p hp).1)
        fun p hp => (ih p hp).mp (hinside p hp).2
    · intro h
      exact ⟨h.distinct, fun p hp => ⟨h.ordinary hp, (ih p hp).mpr (h.inside hp)⟩⟩

instance (e : Entry) : Decidable e.Valid := decidable_of_iff _ isValid_iff

theorem isDirectory_iff {e : Entry} :
    e.isDirectory = true ↔ ∃ mode entries, e = .directory mode entries := by
  cases e with
  | file mode contents => simp [isDirectory, kind]
  | link target => simp [isDirectory, kind]
  | directory mode entries => simp [isDirectory, kind]

/-- What is no directory has no entries. -/
theorem entries_of_file {e : Entry} (he : e.isDirectory = false) : e.entries = [] := by
  cases e with
  | file mode contents => rfl
  | link target => rfl
  | directory mode entries => cases he

/-! ## Looking up a name -/

theorem mem_of_lookup {entries : List (Name × Entry)} {name : Name} {e : Entry}
    (h : entries.lookup name = some e) : (name, e) ∈ entries := by
  obtain ⟨before, after, rfl, -⟩ := List.lookup_eq_some_iff.mp h
  exact List.mem_append_right _ List.mem_cons_self

theorem lookup_of_mem {entries : List (Name × Entry)} (h : (entries.map (·.1)).Nodup)
    {name : Name} {e : Entry} (he : (name, e) ∈ entries) : entries.lookup name = some e := by
  obtain ⟨before, after, rfl⟩ := List.append_of_mem he
  refine List.lookup_eq_some_iff.mpr ⟨before, after, rfl, fun p hp => ?_⟩
  rw [List.map_append, List.map_cons] at h
  have hne : p.1 ≠ name := (List.nodup_append.mp h).2.2 p.1 (List.mem_map_of_mem hp) name
    List.mem_cons_self
  simpa using hne.symm

/-! ## Finding a location -/

@[simp] theorem find?_nil (e : Entry) : e.find? [] = some e := by
  cases e <;> rfl

@[simp] theorem find?_directory_cons (mode : Mode) (entries : List (Name × Entry)) (name : Name)
    (rest : Location) :
    find? (.directory mode entries) (name :: rest) = (entries.lookup name).bind (find? · rest) := rfl

@[simp] theorem find?_file_cons (mode : Mode) (contents : Bytes) (name : Name) (rest : Location) :
    find? (.file mode contents) (name :: rest) = none := rfl

@[simp] theorem find?_link_cons (target : Path) (name : Name) (rest : Location) :
    find? (.link target) (name :: rest) = none := rfl

theorem find?_of_mem {mode : Mode} {entries : List (Name × Entry)} (hdistinct : (entries.map (·.1)).Nodup)
    {p : Name × Entry} (hp : p ∈ entries) : find? (.directory mode entries) [p.1] = some p.2 := by
  rw [find?_directory_cons, lookup_of_mem hdistinct hp]
  exact find?_nil p.2

theorem find?_append (e : Entry) (loc rest : Location) :
    e.find? (loc ++ rest) = (e.find? loc).bind (find? · rest) := by
  induction loc generalizing e with
  | nil => simp
  | cons name loc ih =>
    cases e with
    | file mode contents => rfl
    | link target => rfl
    | directory mode entries =>
      rw [List.cons_append, find?_directory_cons, find?_directory_cons]
      cases entries.lookup name with
      | none => rfl
      | some old => exact ih old

theorem find?_append_of_eq_some {e x : Entry} {loc : Location} (h : e.find? loc = some x)
    (rest : Location) : e.find? (loc ++ rest) = x.find? rest := by
  rw [find?_append, h]
  rfl

/-- What is found below a location is found in a directory. -/
theorem exists_directory_of_find?_append {e x : Entry} {loc : Location} {name : Name}
    {rest : Location} (h : e.find? (loc ++ name :: rest) = some x) :
    ∃ mode entries, e.find? loc = some (.directory mode entries) := by
  rw [find?_append] at h
  cases he : e.find? loc with
  | none => simp [he] at h
  | some y =>
    rw [he] at h
    cases y with
    | file mode contents => simp at h
    | link target => simp at h
    | directory mode entries => exact ⟨mode, entries, rfl⟩

mutual

/-- Every entry of a tree, with its location. -/
def everything : Entry → List (Location × Entry)
  | .directory mode entries => ([], .directory mode entries) :: everythingIn entries
  | e => [([], e)]

/-- Every entry from these on down. -/
def everythingIn : List (Name × Entry) → List (Location × Entry)
  | [] => []
  | (name, e) :: rest => (everything e).map (fun p => (name :: p.1, p.2)) ++ everythingIn rest

end

theorem everythingIn_append (entries entries' : List (Name × Entry)) :
    everythingIn (entries ++ entries') = everythingIn entries ++ everythingIn entries' := by
  induction entries with
  | nil => rfl
  | cons p entries ih => rw [List.cons_append, everythingIn, everythingIn, ih, List.append_assoc]

theorem everythingIn_concat (entries : List (Name × Entry)) (p : Name × Entry) :
    everythingIn (entries ++ [p]) =
      everythingIn entries ++ p.2.everything.map (fun q => (p.1 :: q.1, q.2)) := by
  rw [everythingIn_append, everythingIn, everythingIn, List.append_nil]

theorem mem_everythingIn {entries : List (Name × Entry)} {name : Name} {e x : Entry} {loc : Location}
    (he : (name, e) ∈ entries) (hx : (loc, x) ∈ e.everything) : (name :: loc, x) ∈ everythingIn entries := by
  induction entries with
  | nil => cases he
  | cons p entries ih =>
    obtain ⟨n, e'⟩ := p
    rw [everythingIn]
    rcases List.mem_cons.mp he with heq | he
    · obtain ⟨rfl, rfl⟩ := Prod.mk.inj heq
      exact List.mem_append_left _ (List.mem_map.mpr ⟨(loc, x), hx, rfl⟩)
    · exact List.mem_append_right _ (ih he)

/-- What is found is among all that there is, so what is to be shown of it can be checked there. -/
theorem mem_everything {e x : Entry} {loc : Location} (h : e.find? loc = some x) : (loc, x) ∈ e.everything := by
  induction loc generalizing e with
  | nil =>
    obtain rfl := Option.some.inj h
    cases e <;> simp [everything]
  | cons name loc ih =>
    cases e with
    | file mode contents => cases h
    | link target => cases h
    | directory mode entries =>
      rw [find?_directory_cons] at h
      obtain ⟨old, hlookup, h⟩ := Option.bind_eq_some_iff.mp h
      exact List.mem_cons_of_mem _ (mem_everythingIn (mem_of_lookup hlookup) (ih h))

theorem Valid.find? {e x : Entry} (he : e.Valid) {loc : Location} (h : e.find? loc = some x) :
    x.Valid := by
  induction loc generalizing e with
  | nil =>
    rw [find?_nil] at h
    exact Option.some.inj h ▸ he
  | cons name loc ih =>
    cases e with
    | file mode contents => simp at h
    | link target => simp at h
    | directory mode entries =>
      rw [find?_directory_cons] at h
      cases hl : entries.lookup name with
      | none => simp [hl] at h
      | some old =>
        rw [hl] at h
        exact ih (he.inside (mem_of_lookup hl)) h

/-- The names on the way to an entry are ordinary. -/
theorem Valid.ordinary_of_find? {e x : Entry} (he : e.Valid) {loc : Location}
    (h : e.find? loc = some x) : ∀ name ∈ loc, name.Ordinary := by
  induction loc generalizing e with
  | nil => simp
  | cons first loc ih =>
    cases e with
    | file mode contents => simp at h
    | link target => simp at h
    | directory mode entries =>
      rw [find?_directory_cons] at h
      cases hl : entries.lookup first with
      | none => simp [hl] at h
      | some old =>
        rw [hl] at h
        intro name hname
        rcases List.mem_cons.mp hname with rfl | hname
        · exact he.ordinary (mem_of_lookup hl)
        · exact ih (he.inside (mem_of_lookup hl)) h name hname

/-! ## Entries without what is below them -/

/-- The entry alone: a directory is emptied, and keeps its mode. -/
def bare : Entry → Entry
  | .directory mode _ => .directory mode []
  | e => e

@[simp] theorem bare_file (mode : Mode) (contents : Bytes) :
    bare (.file mode contents) = .file mode contents := rfl

@[simp] theorem bare_link (target : Path) : bare (.link target) = .link target := rfl

@[simp] theorem bare_directory (mode : Mode) (entries : List (Name × Entry)) :
    bare (.directory mode entries) = .directory mode [] := rfl

theorem bare_eq_directory_iff {e : Entry} {mode : Mode} :
    e.bare = .directory mode [] ↔ ∃ entries, e = .directory mode entries := by
  cases e with
  | file m contents => simp
  | link target => simp
  | directory m entries => simp

theorem bare_eq_link_iff {e : Entry} {target : Path} :
    e.bare = .link target ↔ e = .link target := by
  cases e <;> simp

theorem bare_eq_file_iff {e : Entry} {mode : Mode} {contents : Bytes} :
    e.bare = .file mode contents ↔ e = .file mode contents := by
  cases e <;> simp

/-! ## Putting an entry at a location -/

theorem lookup_cons_of_ne {entries : List (Name × Entry)} {m n : Name} (h : n ≠ m) (e : Entry) :
    ((m, e) :: entries).lookup n = entries.lookup n := by
  rw [List.lookup_cons, beq_eq_false_iff_ne.mpr h]

theorem lookup_replace (name : Name) (new : Entry) (entries : List (Name × Entry)) (n : Name) :
    (replace name new entries).lookup n =
      if n = name then (entries.lookup n).map fun _ => new else entries.lookup n := by
  induction entries with
  | nil => simp [replace]
  | cons p entries ih =>
    obtain ⟨m, e⟩ := p
    rw [replace, List.map_cons, ← replace]
    by_cases hn : n = m
    · subst hn
      by_cases hm : n = name <;> simp [hm]
    · by_cases hm : m = name
      · rw [if_pos hm, lookup_cons_of_ne (hm ▸ hn), lookup_cons_of_ne hn, ih]
      · rw [if_neg hm, lookup_cons_of_ne hn, lookup_cons_of_ne hn, ih]

@[simp] theorem put_nil (e new : Entry) : e.put new [] = new := by
  cases e <;> rfl

@[simp] theorem put_file_cons (mode : Mode) (contents : Bytes) (new : Entry) (name : Name)
    (rest : Location) : put (.file mode contents) new (name :: rest) = .file mode contents := rfl

@[simp] theorem put_link_cons (target : Path) (new : Entry) (name : Name) (rest : Location) :
    put (.link target) new (name :: rest) = .link target := rfl

theorem put_directory_of_lookup {mode : Mode} {entries : List (Name × Entry)} {name : Name}
    {old : Entry} (h : entries.lookup name = some old) (new : Entry) (rest : Location) :
    put (.directory mode entries) new (name :: rest) =
      .directory mode (replace name (put old new rest) entries) := by
  simp only [put, h]

theorem put_directory_of_lookup_none {mode : Mode} {entries : List (Name × Entry)} {name : Name}
    (h : entries.lookup name = none) (new : Entry) (rest : Location) :
    put (.directory mode entries) new (name :: rest) =
      if rest = [] then .directory mode (entries ++ [(name, new)]) else .directory mode entries := by
  simp only [put, h]

theorem bare_put (e new : Entry) {loc : Location} (h : loc ≠ []) : (e.put new loc).bare = e.bare := by
  cases loc with
  | nil => exact absurd rfl h
  | cons name rest =>
    cases e with
    | file mode contents => rfl
    | link target => rfl
    | directory mode entries =>
      cases hl : entries.lookup name with
      | some old => rw [put_directory_of_lookup hl, bare_directory, bare_directory]
      | none =>
        rw [put_directory_of_lookup_none hl]
        split <;> rfl

/-- The tree can hold an entry at the location: the directory above it is there. -/
def Holds (e : Entry) (loc : Location) : Prop :=
  loc = [] ∨ ∃ mode entries, e.find? loc.dropLast = some (.directory mode entries)

theorem holds_concat {e : Entry} {above : Location} {mode : Mode} {entries : List (Name × Entry)}
    (h : e.find? above = some (.directory mode entries)) (name : Name) :
    e.Holds (above ++ [name]) := by
  refine Or.inr ⟨mode, entries, ?_⟩
  rw [List.dropLast_concat]
  exact h

/-- The tree holds every location where an entry is. -/
theorem holds_of_find? {e x : Entry} {loc : Location} (h : e.find? loc = some x) : e.Holds loc := by
  rcases List.eq_nil_or_concat loc with rfl | ⟨above, name, rfl⟩
  · exact Or.inl rfl
  · rw [List.concat_eq_append] at h ⊢
    obtain ⟨mode, entries, hfind⟩ := exists_directory_of_find?_append h
    exact holds_concat hfind name

/-- A tree that holds a location below a name has a directory at its top. -/
theorem Holds.cons {e : Entry} {name : Name} {rest : Location} (h : e.Holds (name :: rest)) :
    ∃ mode entries, e = .directory mode entries ∧
      ((rest = [] ∧ entries.lookup name = none) ∨
        ∃ old, entries.lookup name = some old ∧ old.Holds rest) := by
  obtain h | ⟨m, es, h⟩ := h
  · cases h
  cases rest with
  | nil =>
    rw [List.dropLast_singleton, find?_nil] at h
    refine ⟨m, es, Option.some.inj h, ?_⟩
    cases hl : es.lookup name with
    | none => exact Or.inl ⟨rfl, rfl⟩
    | some old => exact Or.inr ⟨old, rfl, Or.inl rfl⟩
  | cons next rest =>
    rw [List.dropLast_cons_cons] at h
    cases e with
    | file mode contents => simp at h
    | link target => simp at h
    | directory mode entries =>
      refine ⟨mode, entries, rfl, Or.inr ?_⟩
      rw [find?_directory_cons] at h
      cases hl : entries.lookup name with
      | none => simp [hl] at h
      | some old =>
        rw [hl] at h
        exact ⟨old, rfl, Or.inr ⟨m, es, h⟩⟩

theorem find?_put_below {e : Entry} (new : Entry) {loc : Location} (h : e.Holds loc)
    (rest : Location) : (e.put new loc).find? (loc ++ rest) = new.find? rest := by
  induction loc generalizing e with
  | nil => simp
  | cons name loc ih =>
    obtain ⟨mode, entries, rfl, ⟨rfl, hl⟩ | ⟨old, hl, hold⟩⟩ := h.cons
    · rw [put_directory_of_lookup_none hl, if_pos rfl, List.cons_append, find?_directory_cons,
        List.lookup_append, hl]
      simp
    · rw [put_directory_of_lookup hl, List.cons_append, find?_directory_cons, lookup_replace,
        if_pos rfl, hl]
      exact ih hold

theorem find?_put_self {e : Entry} (new : Entry) {loc : Location} (h : e.Holds loc) :
    (e.put new loc).find? loc = some new := by
  have := find?_put_below new h []
  rwa [List.append_nil, find?_nil] at this

theorem find?_put_above (e new : Entry) (loc : Location) {rest : Location} (h : rest ≠ []) :
    (e.put new (loc ++ rest)).find? loc = (e.find? loc).map (put · new rest) := by
  induction loc generalizing e with
  | nil => simp
  | cons name loc ih =>
    cases e with
    | file mode contents => rfl
    | link target => rfl
    | directory mode entries =>
      rw [List.cons_append, find?_directory_cons]
      cases hl : entries.lookup name with
      | some old =>
        rw [put_directory_of_lookup hl, find?_directory_cons, lookup_replace, if_pos rfl, hl]
        exact ih old
      | none =>
        have hne : loc ++ rest ≠ [] := fun hnil => h (List.append_eq_nil_iff.mp hnil).2
        rw [put_directory_of_lookup_none hl, if_neg hne, find?_directory_cons, hl]
        rfl

theorem find?_put_beside (e new : Entry) {loc l : Location} (h : ¬ loc <+: l) (h' : ¬ l <+: loc) :
    (e.put new loc).find? l = e.find? l := by
  induction loc generalizing e l with
  | nil => exact absurd (List.nil_prefix) h
  | cons name loc ih =>
    cases l with
    | nil => exact absurd (List.nil_prefix) h'
    | cons n l =>
      cases e with
      | file mode contents => rfl
      | link target => rfl
      | directory mode entries =>
        by_cases hn : n = name
        · subst hn
          have hne : loc ≠ [] := by
            rintro rfl
            exact h ⟨l, rfl⟩
          cases hl : entries.lookup n with
          | some old =>
            rw [put_directory_of_lookup hl, find?_directory_cons, lookup_replace, if_pos rfl,
              find?_directory_cons, hl]
            exact ih old (fun hp => h (List.cons_prefix_cons.mpr ⟨rfl, hp⟩))
              (fun hp => h' (List.cons_prefix_cons.mpr ⟨rfl, hp⟩))
          | none => rw [put_directory_of_lookup_none hl, if_neg hne]
        · cases hl : entries.lookup name with
          | some old =>
            rw [put_directory_of_lookup hl, find?_directory_cons, lookup_replace, if_neg hn,
              find?_directory_cons]
          | none =>
            rw [put_directory_of_lookup_none hl]
            split
            · rw [find?_directory_cons, List.lookup_append, find?_directory_cons]
              rw [lookup_cons_of_ne hn]
              cases entries.lookup n <;> rfl
            · rfl

/-- The second of two entries that are put at one location counts. -/
theorem put_put (e x y : Entry) (loc : Location) : (e.put x loc).put y loc = e.put y loc := by
  induction loc generalizing e with
  | nil => simp
  | cons name loc ih =>
    cases e with
    | file mode contents => rfl
    | link target => rfl
    | directory mode entries =>
      cases hl : entries.lookup name with
      | some old =>
        have hl' : (replace name (old.put x loc) entries).lookup name = some (old.put x loc) := by
          rw [lookup_replace, if_pos rfl, hl]
          rfl
        rw [put_directory_of_lookup hl, put_directory_of_lookup hl', put_directory_of_lookup hl, ih]
        congr 1
        simp only [replace, List.map_map]
        refine List.map_congr_left fun p _ => ?_
        simp only [Function.comp_apply]
        split <;> simp_all
      | none =>
        rw [put_directory_of_lookup_none hl, put_directory_of_lookup_none hl]
        split
        · have hl' : (entries ++ [(name, x)]).lookup name = some x := by
            rw [List.lookup_append, hl]
            simp
          rw [put_directory_of_lookup hl']
          subst ‹loc = []›
          congr 1
          rw [replace, List.map_append]
          congr 1
          · refine (List.map_congr_left fun p hp => ?_).trans (List.map_id entries)
            have hne : p.1 ≠ name := by
              have hp' := List.lookup_eq_none_iff.mp hl p hp
              exact fun h => by simp [h] at hp'
            simp [hne]
          · simp
        · rw [put_directory_of_lookup_none hl, if_neg ‹_›]

/-! ## A change of a valid tree -/

theorem map_fst_replace (name : Name) (new : Entry) (entries : List (Name × Entry)) :
    (replace name new entries).map (·.1) = entries.map (·.1) := by
  rw [replace, List.map_map]
  refine List.map_congr_left fun p _ => ?_
  simp only [Function.comp_apply]
  split <;> simp_all

/-- A directory stays valid if an entry of it is given another valid one. -/
theorem Valid.replace {mode : Mode} {entries : List (Name × Entry)}
    (h : Valid (.directory mode entries)) (name : Name) {new : Entry} (hnew : new.Valid) :
    Valid (.directory mode (Entry.replace name new entries)) := by
  refine .directory (by rw [map_fst_replace]; exact h.distinct) (fun p hp => ?_) fun p hp => ?_
  · have hmem : p.1 ∈ entries.map (·.1) := by
      rw [← map_fst_replace name new]
      exact List.mem_map_of_mem hp
    obtain ⟨q, hq, hfst⟩ := List.mem_map.mp hmem
    exact hfst ▸ h.ordinary hq
  · rw [Entry.replace] at hp
    obtain ⟨q, hq, rfl⟩ := List.mem_map.mp hp
    split
    · exact hnew
    · exact h.inside hq

/-- A tree stays valid if a valid entry is put at an ordinary name. -/
theorem Valid.put {e new : Entry} (he : e.Valid) (hnew : new.Valid) {above : Location} {name : Name}
    (hname : name.Ordinary) : (e.put new (above ++ [name])).Valid := by
  induction above generalizing e with
  | nil =>
    cases e with
    | file mode contents => exact he
    | link target => exact he
    | directory mode entries =>
      rw [List.nil_append]
      cases hl : entries.lookup name with
      | some old =>
        rw [put_directory_of_lookup hl, put_nil]
        exact he.replace name hnew
      | none =>
        rw [put_directory_of_lookup_none hl, if_pos rfl]
        have hfresh : ∀ p ∈ entries, p.1 ≠ name := by
          intro p hp heq
          simpa [heq] using List.lookup_eq_none_iff.mp hl p hp
        refine .directory ?_ ?_ ?_
        · rw [List.map_append, List.nodup_append]
          refine ⟨he.distinct, by simp, ?_⟩
          simpa using fun m e hp heq => hfresh (m, e) hp heq
        · simpa [or_imp, forall_and] using ⟨fun m e hp => he.ordinary (p := (m, e)) hp, hname⟩
        · simpa [or_imp, forall_and] using ⟨fun m e hp => he.inside (p := (m, e)) hp, hnew⟩
  | cons first above ih =>
    cases e with
    | file mode contents => exact he
    | link target => exact he
    | directory mode entries =>
      rw [List.cons_append]
      cases hl : entries.lookup first with
      | some old =>
        rw [put_directory_of_lookup hl]
        exact he.replace first (ih (he.inside (mem_of_lookup hl)))
      | none =>
        rw [put_directory_of_lookup_none hl, if_neg (by simp)]
        exact he

/-! ## Removing an entry -/

theorem lookup_filter_ne (name : Name) (entries : List (Name × Entry)) (n : Name) :
    (entries.filter (·.1 ≠ name)).lookup n = if n = name then none else entries.lookup n := by
  induction entries with
  | nil => simp
  | cons p entries ih =>
    obtain ⟨m, e⟩ := p
    by_cases hm : m = name
    · subst hm
      rw [List.filter_cons_of_neg (by simp), ih]
      by_cases hn : n = m
      · rw [if_pos hn, if_pos hn]
      · rw [if_neg hn, if_neg hn, lookup_cons_of_ne hn]
    · rw [List.filter_cons_of_pos (by simpa using hm)]
      by_cases hn : n = m
      · subst hn
        rw [if_neg hm]
        simp
      · rw [lookup_cons_of_ne hn, ih, lookup_cons_of_ne hn]

theorem remove_directory_singleton (mode : Mode) (entries : List (Name × Entry)) (name : Name) :
    remove (.directory mode entries) [name] = .directory mode (entries.filter (·.1 ≠ name)) := rfl

theorem remove_directory_of_lookup {mode : Mode} {entries : List (Name × Entry)} {name : Name}
    {old : Entry} (h : entries.lookup name = some old) {rest : Location} (hrest : rest ≠ []) :
    remove (.directory mode entries) (name :: rest) =
      .directory mode (replace name (old.remove rest) entries) := by
  rw [remove, if_neg hrest, h]

theorem bare_remove (e : Entry) (loc : Location) : (e.remove loc).bare = e.bare := by
  cases loc with
  | nil => cases e <;> rfl
  | cons name rest =>
    cases e with
    | file mode contents => rfl
    | link target => rfl
    | directory mode entries =>
      rw [remove]
      split
      · rfl
      · split <;> rfl

/-- At the location and below it nothing is left. -/
theorem find?_remove_below (e : Entry) {loc : Location} (hloc : loc ≠ []) (rest : Location) :
    (e.remove loc).find? (loc ++ rest) = none := by
  induction loc generalizing e with
  | nil => exact absurd rfl hloc
  | cons name loc ih =>
    cases e with
    | file mode contents => rfl
    | link target => rfl
    | directory mode entries =>
      rw [List.cons_append]
      by_cases hnil : loc = []
      · rw [hnil, remove_directory_singleton, find?_directory_cons, lookup_filter_ne, if_pos rfl]
        rfl
      · cases hl : entries.lookup name with
        | some old =>
          rw [remove_directory_of_lookup hl hnil, find?_directory_cons, lookup_replace, if_pos rfl, hl]
          exact ih old hnil
        | none =>
          rw [remove, if_neg hnil, hl]
          simp only
          rw [find?_directory_cons, hl]
          rfl

theorem find?_remove_above (e : Entry) (loc : Location) {rest : Location} (h : rest ≠ []) :
    (e.remove (loc ++ rest)).find? loc = (e.find? loc).map (remove · rest) := by
  induction loc generalizing e with
  | nil => simp
  | cons name loc ih =>
    have hne : loc ++ rest ≠ [] := fun hnil => h (List.append_eq_nil_iff.mp hnil).2
    cases e with
    | file mode contents => rfl
    | link target => rfl
    | directory mode entries =>
      rw [List.cons_append, find?_directory_cons]
      cases hl : entries.lookup name with
      | some old =>
        rw [remove_directory_of_lookup hl hne, find?_directory_cons, lookup_replace, if_pos rfl, hl]
        exact ih old
      | none =>
        rw [remove, if_neg hne, hl]
        simp only
        rw [find?_directory_cons, hl]
        rfl

theorem find?_remove_beside (e : Entry) {loc l : Location} (h : ¬ loc <+: l) (h' : ¬ l <+: loc) :
    (e.remove loc).find? l = e.find? l := by
  induction loc generalizing e l with
  | nil => exact absurd List.nil_prefix h
  | cons name loc ih =>
    cases l with
    | nil => exact absurd List.nil_prefix h'
    | cons n l =>
      cases e with
      | file mode contents => rfl
      | link target => rfl
      | directory mode entries =>
        by_cases hnil : loc = []
        · subst hnil
          have hn : n ≠ name := by
            rintro rfl
            exact h (List.cons_prefix_cons.mpr ⟨rfl, List.nil_prefix⟩)
          rw [remove_directory_singleton, find?_directory_cons, lookup_filter_ne, if_neg hn,
            find?_directory_cons]
        · cases hl : entries.lookup name with
          | some old =>
            rw [remove_directory_of_lookup hl hnil, find?_directory_cons, lookup_replace,
              find?_directory_cons]
            by_cases hn : n = name
            · subst hn
              rw [if_pos rfl, hl]
              exact ih old (fun hp => h (List.cons_prefix_cons.mpr ⟨rfl, hp⟩))
                (fun hp => h' (List.cons_prefix_cons.mpr ⟨rfl, hp⟩))
            · rw [if_neg hn]
          | none => rw [remove, if_neg hnil, hl]

/-- A tree stays valid if an entry is removed. -/
theorem Valid.remove {e : Entry} (he : e.Valid) (loc : Location) : (e.remove loc).Valid := by
  induction loc generalizing e with
  | nil => cases e <;> exact he
  | cons name loc ih =>
    cases e with
    | file mode contents => exact he
    | link target => exact he
    | directory mode entries =>
      by_cases hnil : loc = []
      · subst hnil
        rw [remove_directory_singleton]
        refine .directory (he.distinct.sublist (List.filter_sublist.map _)) ?_ ?_
        · exact fun p hp => he.ordinary (List.mem_of_mem_filter hp)
        · exact fun p hp => he.inside (List.mem_of_mem_filter hp)
      · cases hl : entries.lookup name with
        | some old =>
          rw [remove_directory_of_lookup hl hnil]
          exact he.replace name (ih (he.inside (mem_of_lookup hl)))
        | none =>
          rw [Entry.remove, if_neg hnil, hl]
          exact he

end Entry

namespace FileSystem

/-- A file system as it is found: the tree is valid, and the current directory is there, or the
directory above that is left of it. -/
structure Valid (fs : FileSystem) : Prop where
  tree : fs.root.Valid
  current : ∃ mode entries, fs.find? fs.current.location = some (.directory mode entries)

/-- An entry that a path leads to is in the tree, or is what is left of a removed directory. -/
theorem Valid.lookup {fs : FileSystem} (hfs : fs.Valid) {purpose : Purpose} {p : Path}
    {e : Entry} (h : fs.lookup purpose p = .ok e) : e.Valid := by
  unfold FileSystem.lookup at h
  cases hplace : fs.resolve purpose p with
  | error fault => simp [hplace, bind, Except.bind] at h
  | ok place =>
    simp only [hplace, bind, Except.bind] at h
    cases place with
    | gap directory name => cases h
    | removed =>
      cases h
      exact Entry.valid_emptyDirectory
    | entry loc =>
      cases hfind : fs.find? loc with
      | none => simp [hfind] at h
      | some x =>
        simp only [hfind] at h
        cases h
        exact hfs.tree.find? hfind

end FileSystem

end FileRoutes
