import FileRoutes.Conventions.Reading
import FileRoutes.Proofs.Success

/-!
# What a text that gives conventions says

Conventions are told apart by the texts of their fields (`get`), and a field that is set leaves the others
as they are (`get_of_set?`).  So what the reader does with one entry of a mapping can be said once for all
fields.

## Keys

`keys` lists the keys of a text, in the order in which they stand there and with those that are no names of
fields.  Each name that the reader takes from the text is one of them, and it keeps the fields it has met, so
what it accepts gives no field twice (`count_keysOf_le`).  A key is looked at before the value behind it:
the bound holds for the keys up to any place, whatever else is wrong further on.

## Usable conventions

Whatever is read is usable, and in particular the name of the routes root is one segment.
-/

namespace FileRoutes.Conventions

open Yaml (Part Mark Document)

variable {conventions conventions' : Conventions} {field : Field} {t : Text}

/-! ## Fields -/

theorem Field.name_injective {field other : Field} (h : field.name = other.name) : field = other := by
  revert h
  cases field <;> cases other <;> decide

theorem Field.name_of_ofName? (h : Field.ofName? t = some field) : field.name = t := by
  simpa using List.find?_some h

theorem Field.name_ne_of_ofName? (h : Field.ofName? t = none) (field : Field) : field.name ≠ t := by
  have hmem : field ∈ Field.all := by cases field <;> decide
  simpa using List.find?_eq_none.mp h field hmem

/-- The text of a field. -/
def get (conventions : Conventions) : Field → Text
  | .appDir => conventions.appDir
  | .logicalRoot => conventions.logicalRoot
  | .pagePrefix => conventions.pagePrefix
  | .pageModule => conventions.pageModule
  | .groupOpen => [conventions.groupOpen]
  | .groupClose => [conventions.groupClose]
  | .lazyLoader => conventions.lazyLoader

/-- Conventions are the texts of their fields. -/
theorem eq_of_get_eq (h : ∀ field, conventions.get field = conventions'.get field) :
    conventions = conventions' := by
  have happ : conventions.appDir = conventions'.appDir := h .appDir
  have hroot : conventions.logicalRoot = conventions'.logicalRoot := h .logicalRoot
  have hprefix : conventions.pagePrefix = conventions'.pagePrefix := h .pagePrefix
  have hmodule : conventions.pageModule = conventions'.pageModule := h .pageModule
  have hopen : conventions.groupOpen = conventions'.groupOpen := List.head_eq_of_cons_eq (h .groupOpen)
  have hclose : conventions.groupClose = conventions'.groupClose := List.head_eq_of_cons_eq (h .groupClose)
  have hloader : conventions.lazyLoader = conventions'.lazyLoader := h .lazyLoader
  cases conventions
  cases conventions'
  simp_all

/-- The field that is set has the text, and the others keep theirs. -/
theorem get_of_set? (h : conventions.set? field t = some conventions') (other : Field) :
    conventions'.get other = if other = field then t else conventions.get other := by
  unfold set? at h
  split at h <;> cases h <;> cases other <;> rfl

/-- Any text fits a field, except for delimiters, which are characters. -/
theorem exists_set? (h : field.wanted = .character → t.length = 1) (conventions : Conventions) :
    ∃ conventions', conventions.set? field t = some conventions' := by
  cases field with
  | groupOpen =>
    obtain ⟨c, rfl⟩ := List.length_eq_one_iff.mp (h rfl)
    exact ⟨_, rfl⟩
  | groupClose =>
    obtain ⟨c, rfl⟩ := List.length_eq_one_iff.mp (h rfl)
    exact ⟨_, rfl⟩
  | _ => exact ⟨_, rfl⟩

/-! ## Keys -/

namespace Reading

/-- The keys of the first `n` entries of a mapping whose parts are given.  A key that is a collection has no
text. -/
def keysOf (d : Document) : Nat → List (Part × Mark) → List Text
  | 0, _ => []
  | _ + 1, [] => []
  | _ + 1, (.mappingEnd, _) :: _ => []
  | n + 1, part :: rest =>
    let here := match nodeText d none .field (part :: rest) with
      | .ok (t, _) => [t]
      | .error _ => []
    let behind := match (Document.skipNode 0 (part :: rest)).bind (Document.skipNode 0) with
      | some parts => keysOf d n parts
      | none => []
    here ++ behind

/-- The keys of a document that is a mapping. -/
def topKeys (d : Document) : List Text :=
  match d.parts with
  | (.mappingStart, _) :: rest => keysOf d (rest.length + 1) rest
  | _ => []

end Reading

/-- The keys of a text.  A text without any visible character has none. -/
def keys (t : Text) : List Text := if t.isBlank then [] else Reading.topKeys (Document.ofText t)

namespace Reading

variable {d : Document} {start : Mark}

/-- What has a text is one part. -/
theorem skipNode_of_nodeText {field? : Option Text} {wanted : Wanted} {parts : List (Part × Mark)}
    {r : Text × Mark} (h : nodeText d field? wanted parts = .ok r) :
    Document.skipNode 0 parts = some parts.tail := by
  cases parts with
  | nil => cases h
  | cons first rest =>
    obtain ⟨part, mark⟩ := first
    cases part <;> first | rfl | cases h

theorem keysOf_cons {n : Nat} {part : Part} {mark : Mark} {rest : List (Part × Mark)} {r : Text × Mark}
    (hend : part ≠ .mappingEnd) (h : nodeText d none .field ((part, mark) :: rest) = .ok r) :
    keysOf d (n + 1) ((part, mark) :: rest) =
      r.1 :: match Document.skipNode 0 rest with
        | some parts => keysOf d n parts
        | none => [] := by
  rw [keysOf, h, skipNode_of_nodeText h]
  · rfl
  · rintro mark' heq
    exact hend (Prod.mk.inj heq).1

/-- An entry that is read has a key.  If that is the name of a field, the field was not given before. -/
theorem of_fields_cons {n : Nat} {given : List Field} {part : Part} {mark : Mark} {rest : List (Part × Mark)}
    (hend : part ≠ .mappingEnd)
    (h : fields d start (n + 1) given conventions ((part, mark) :: rest) = .ok conventions') :
    ∃ r parts, nodeText d none .field ((part, mark) :: rest) = .ok r ∧ Document.skipNode 0 rest = some parts ∧
      (Field.ofName? r.1 = none ∧ fields d start n given conventions parts = .ok conventions' ∨
        ∃ own read, Field.ofName? r.1 = some own ∧ own ∉ given ∧
          fields d start n (own :: given) read parts = .ok conventions') := by
  rw [fields] at h
  rotate_left
  · exact hend
  obtain ⟨⟨name, mark'⟩, hname, h⟩ := exists_of_bind_eq_ok h
  cases hfield : Field.ofName? name with
  | none =>
    simp only [hfield] at h
    split at h
    · cases h
    · rename_i parts hskip
      exact ⟨_, parts, hname, hskip, Or.inl ⟨hfield, h⟩⟩
  | some own =>
    simp only [hfield] at h
    split at h
    · cases h
    · rename_i hgiven
      obtain ⟨⟨t, mark''⟩, hvalue, h⟩ := exists_of_bind_eq_ok h
      split at h
      · cases h
      · exact ⟨_, _, hname, skipNode_of_nodeText hvalue, Or.inr ⟨own, _, hfield, hgiven, h⟩⟩

/-- The fields that are read from a mapping are different from each other, and from those before. -/
theorem count_keysOf_le {n : Nat} {given : List Field} {parts : List (Part × Mark)}
    (h : fields d start n given conventions parts = .ok conventions') (field : Field) :
    (keysOf d n parts).count field.name ≤ if field ∈ given then 0 else 1 := by
  induction n generalizing given conventions parts with
  | zero => cases h
  | succ n ih =>
    rcases parts with - | ⟨⟨part, mark⟩, rest⟩
    · cases h
    by_cases hend : part = .mappingEnd
    · subst hend
      exact Nat.zero_le _
    obtain ⟨r, parts, hname, hskip, h⟩ := of_fields_cons hend h
    rw [keysOf_cons hend hname, hskip, List.count_cons]
    rcases h with ⟨hfield, h⟩ | ⟨own, read, hfield, hgiven, h⟩
    · rw [if_neg (by simpa using (Field.name_ne_of_ofName? hfield field).symm)]
      exact ih h
    · have hown := Field.name_of_ofName? hfield
      have hrest := ih h
      by_cases hsame : field = own
      · subst hsame
        rw [if_pos List.mem_cons_self, Nat.le_zero] at hrest
        rw [if_neg hgiven, hrest, Nat.zero_add]
        split <;> decide
      · have hne : r.1 ≠ field.name := fun heq => hsame (Field.name_injective (heq.symm.trans hown.symm))
        rw [if_neg (by simpa using hne)]
        simpa [hsame] using hrest

theorem count_topKeys_le (h : ofDocument d = .ok conventions) (field : Field) :
    (topKeys d).count field.name ≤ 1 := by
  obtain ⟨parts, anchors, isWhole, isOnly⟩ := d
  rcases parts with - | ⟨⟨part, mark⟩, rest⟩
  · exact Nat.zero_le _
  cases part with
  | mappingStart => exact count_keysOf_le h field
  | _ => exact Nat.zero_le _

end Reading

/-! ## Texts -/

/-- What a text that gives conventions holds. -/
theorem of_read (h : read t = .ok conventions) :
    t.isBlank = true ∧ conventions = standard ∨
      t.isBlank = false ∧ Reading.ofDocument (Document.ofText t) = .ok conventions ∧
        conventions.complaint? = none := by
  rw [read] at h
  split at h
  · rename_i hblank
    exact Or.inl ⟨hblank, (Except.ok.inj h).symm⟩
  · rename_i hblank
    obtain ⟨read, hread, h⟩ := exists_of_bind_eq_ok h
    split at h
    · split at h
      · rename_i hnone
        cases h
        exact Or.inr ⟨eq_false_of_ne_true hblank, hread, hnone⟩
      · cases h
    · cases h

theorem complaint?_of_read (h : read t = .ok conventions) : conventions.complaint? = none := by
  rcases of_read h with ⟨-, rfl⟩ | ⟨-, -, hnone⟩
  · decide
  · exact hnone

/-- Conventions are only read from a text that gives each field once at most. -/
theorem count_keys_le (h : read t = .ok conventions) (field : Field) : (keys t).count field.name ≤ 1 := by
  rcases of_read h with ⟨hblank, -⟩ | ⟨hblank, h, -⟩
  · rw [keys, if_pos hblank]
    exact Nat.zero_le _
  · rw [keys, hblank, if_neg Bool.false_ne_true]
    exact Reading.count_topKeys_le h field

/-- The name of the routes root of usable conventions is one segment. -/
theorem appDir_of_complaint?_eq_none (h : conventions.complaint? = none) :
    conventions.appDir ≠ [] ∧ '/' ∉ conventions.appDir := by
  rw [complaint?] at h
  split at h
  · cases h
  split at h
  · cases h
  split at h
  · cases h
  · rename_i happ
    obtain ⟨hne, hslash⟩ := not_or.mp happ
    exact ⟨hne, (not_or.mp hslash).1⟩

end FileRoutes.Conventions
