import FileRoutes.Proofs.Conventions.Reading
import FileRoutes.Proofs.Yaml.Mapping

/-!
# Conventions override what they mention

A file of conventions is usually a list of lines, each with a name of a field and a value in quotation marks.
The parts of such a text are its entries (`Document.ofText_of_lines`), and the reader takes them one by one.

## One entry and all of them

An entry with an unknown key changes nothing.  An entry with the name of a field gives this field its value
and leaves the others (`get_of_set?`); it does not fail, since the names are different and a delimiter is one
character.  The induction over the entries therefore carries two conditions: the names that are to come are
none of the fields that were given, and each field has the value that the first entry of its name gives, or
the one it had before (`exists_fields_of_parts`).  Because the names are different, the first entry of a name is
the only one, and the order of the lines does not matter.

What was read is then looked at once more as a whole: it is accepted if there is no complaint about it.
-/

namespace FileRoutes.Conventions

open Yaml (Part Mark Document IsEntry PartsOf entryLine)

namespace Reading

variable {d : Document} {start : Mark}

/-- An entry with an unknown key is passed over. -/
theorem fields_of_unknown {e : Text × Text} (h : Field.ofName? e.1 = none) (m m' : Mark) (n : Nat)
    (given : List Field) (conventions : Conventions) (ps : List (Part × Mark)) :
    fields d start (n + 1) given conventions ((.scalar none true e.1, m) :: (.scalar none false e.2, m') :: ps) =
      fields d start n given conventions ps := by
  rw [fields]
  · simp only [nodeText, scalarText, bind, Except.bind, h, Document.skipNode, if_pos]
  · intro heq
    cases heq

/-- An entry with the name of a field sets this field. -/
theorem fields_of_known {e : Text × Text} {field : Field} {conventions conventions' : Conventions}
    {given : List Field} (h : Field.ofName? e.1 = some field) (hgiven : field ∉ given)
    (hset : conventions.set? field e.2 = some conventions') (m m' : Mark) (n : Nat)
    (ps : List (Part × Mark)) :
    fields d start (n + 1) given conventions ((.scalar none true e.1, m) :: (.scalar none false e.2, m') :: ps) =
      fields d start n (field :: given) conventions' ps := by
  rw [fields]
  · simp only [nodeText, scalarText, bind, Except.bind, h, if_neg hgiven, hset, List.tail_cons]
  · intro heq
    cases heq

/-- The entries of a mapping override what is known so far.  None of them names a field that was given. -/
theorem exists_fields_of_parts {es : List (Text × Text)} {ps : List (Part × Mark)} (h : PartsOf es ps) {n : Nat}
    (hn : es.length < n) {given : List Field} (hgiven : ∀ field ∈ given, field.name ∉ es.map Prod.fst)
    (hdistinct : (es.map Prod.fst).Nodup)
    (hfit : ∀ field : Field, field.wanted = .character → ∀ e ∈ es, e.1 = field.name → e.2.length = 1)
    (conventions : Conventions) :
    ∃ read, fields d start n given conventions ps = .ok read ∧
      ∀ field, read.get field = (es.lookup field.name).getD (conventions.get field) := by
  induction h generalizing n given conventions with
  | nil m =>
    obtain ⟨n, rfl⟩ := Nat.exists_eq_succ_of_ne_zero (Nat.ne_of_gt hn)
    exact ⟨conventions, rfl, fun field => rfl⟩
  | @cons e es ps m m' rest ih =>
    obtain ⟨n, rfl⟩ := Nat.exists_eq_succ_of_ne_zero (Nat.ne_of_gt (Nat.zero_lt_of_lt hn))
    obtain ⟨hnew, hdistinct⟩ := List.nodup_cons.mp hdistinct
    have hrest : ∀ field : Field, field.wanted = .character → ∀ f ∈ es, f.1 = field.name → f.2.length = 1 :=
      fun field hwanted f hf => hfit field hwanted f (List.mem_cons_of_mem _ hf)
    have hlater : ∀ field ∈ given, field.name ∉ es.map Prod.fst :=
      fun field hfield hmem => hgiven field hfield (List.mem_cons_of_mem _ hmem)
    cases hfield : Field.ofName? e.1 with
    | none =>
      obtain ⟨read, hread, hget⟩ := ih (Nat.lt_of_succ_lt_succ hn) hlater hdistinct hrest conventions
      refine ⟨read, (fields_of_unknown hfield m m' n given conventions ps).trans hread, fun field => ?_⟩
      have hother : (field.name == e.1) = false := beq_false_of_ne (Field.name_ne_of_ofName? hfield field)
      rw [hget, List.lookup_cons, hother]
    | some own =>
      have hown := Field.name_of_ofName? hfield
      have hfresh : own ∉ given := fun hmem => hgiven own hmem (hown ▸ List.mem_cons_self)
      obtain ⟨set, hset⟩ := exists_set? (fun hwanted => hfit own hwanted e List.mem_cons_self hown.symm) conventions
      obtain ⟨read, hread, hget⟩ := ih (Nat.lt_of_succ_lt_succ hn)
        (List.forall_mem_cons.mpr ⟨hown ▸ hnew, hlater⟩) hdistinct hrest set
      refine ⟨read, (fields_of_known hfield hfresh hset m m' n ps).trans hread, fun field => ?_⟩
      rw [hget, get_of_set? hset]
      by_cases hsame : field = own
      · -- the field is set here, and no later line mentions it
        subst hsame
        have hlast : es.lookup field.name = none := by
          refine List.lookup_eq_none_iff.mpr fun f hf => ?_
          exact bne_iff_ne.mpr fun heq => hnew (List.mem_map.mpr ⟨f, hf, heq.symm.trans hown⟩)
        have hhere : (field.name == e.1) = true := beq_iff_eq.mpr hown
        rw [hlast, if_pos rfl, List.lookup_cons, hhere]
        rfl
      · have hother : (field.name == e.1) = false :=
          beq_false_of_ne fun heq => hsame (Field.name_injective (heq.trans hown.symm))
        rw [if_neg hsame, List.lookup_cons, hother]

/-- The keys of a mapping of entries. -/
theorem keysOf_of_parts {es : List (Text × Text)} {ps : List (Part × Mark)} (h : PartsOf es ps) {n : Nat}
    (hn : es.length < n) : keysOf d n ps = es.map Prod.fst := by
  induction h generalizing n with
  | nil m =>
    obtain ⟨n, rfl⟩ := Nat.exists_eq_succ_of_ne_zero (Nat.ne_of_gt hn)
    rfl
  | @cons e es ps m m' rest ih =>
    obtain ⟨n, rfl⟩ := Nat.exists_eq_succ_of_ne_zero (Nat.ne_of_gt (Nat.zero_lt_of_lt hn))
    refine (keysOf_cons ?_ rfl).trans (congrArg (e.1 :: ·) (ih (Nat.lt_of_succ_lt_succ hn)))
    intro heq
    cases heq

theorem length_le_of_parts {es : List (Text × Text)} {ps : List (Part × Mark)} (h : PartsOf es ps) :
    es.length ≤ ps.length := by
  induction h with
  | nil m => exact Nat.zero_le _
  | cons m m' rest ih => simp only [List.length_cons]; omega

end Reading

/-! ## Lines -/

section Lines

variable {closing : Text} (hclosing : closing = [] ∨ closing = ['\n'])

/-- A line has a visible character. -/
theorem isBlank_of_lines (closing : Text) (e : Text × Text) (es : List (Text × Text)) :
    Text.isBlank (Text.join ['\n'] ((e :: es).map entryLine) ++ closing) = false := by
  rw [Yaml.join_entryLines, Yaml.entryLine_append, Text.isBlank, List.all_eq_false]
  exact ⟨':', List.mem_append_right _ List.mem_cons_self, by decide⟩

include hclosing

theorem keys_of_lines {es : List (Text × Text)} (hes : ∀ e ∈ es, IsEntry e) :
    keys (Text.join ['\n'] (es.map entryLine) ++ closing) = es.map Prod.fst := by
  cases es with
  | nil => rcases hclosing with rfl | rfl <;> rfl
  | cons e es =>
    obtain ⟨m, ps, hparts, htext⟩ := Document.ofText_of_lines hclosing hes
    rw [keys, isBlank_of_lines, if_neg Bool.false_ne_true, htext]
    exact Reading.keysOf_of_parts hparts (Nat.lt_succ_of_le (Reading.length_le_of_parts hparts))

/-- The conventions of lines are accepted unless there is a complaint about them. -/
theorem exists_read_of_lines {es : List (Text × Text)} (hes : ∀ e ∈ es, IsEntry e)
    (hdistinct : (es.map Prod.fst).Nodup)
    (hfit : ∀ field : Field, field.wanted = .character → ∀ e ∈ es, e.1 = field.name → e.2.length = 1) :
    ∃ given : Conventions, (∀ field, given.get field = (es.lookup field.name).getD (standard.get field)) ∧
      read (Text.join ['\n'] (es.map entryLine) ++ closing) =
        match given.complaint? with
        | none => .ok given
        | some complaint => .error (.unusable complaint) := by
  cases es with
  | nil =>
    refine ⟨standard, fun field => rfl, ?_⟩
    rcases hclosing with rfl | rfl <;> rfl
  | cons e es =>
    obtain ⟨m, ps, hparts, htext⟩ := Document.ofText_of_lines hclosing hes
    obtain ⟨given, hdocument, hget⟩ : ∃ given : Conventions,
        Reading.ofDocument ⟨(.mappingStart, m) :: ps, [], true, true⟩ = .ok given ∧
          ∀ field, given.get field = ((e :: es).lookup field.name).getD (standard.get field) :=
      Reading.exists_fields_of_parts hparts (Nat.lt_succ_of_le (Reading.length_le_of_parts hparts))
        (fun field hfield => absurd hfield List.not_mem_nil) hdistinct hfit standard
    refine ⟨given, hget, ?_⟩
    rw [read, isBlank_of_lines, if_neg Bool.false_ne_true, htext]
    simp only [hdocument]
    rfl

end Lines

/-- A text that gives a field twice is an error. -/
theorem exists_error_of_twice {t : Text} (h : ∃ field : Field, 2 ≤ (keys t).count field.name) :
    ∃ fault, read t = .error fault := by
  obtain ⟨field, htwice⟩ := h
  cases hread : read t with
  | error fault => exact ⟨fault, rfl⟩
  | ok conventions => exact absurd (count_keys_le hread field) (Nat.not_le.mpr htwice)

/-- **Conventions override exactly what they mention.**

Lines with different keys, in any order and with or without a line feed behind the last one, give the standard
conventions with the values of the fields that are among the keys; no line at all gives the standard ones.
These are accepted unless there is a complaint about them.  A text that gives a field twice is an error, in
lines and in any other form, and what any text gives is usable. -/
theorem read_overrides {closing : Text} (hclosing : closing = [] ∨ closing = ['\n']) :
    (∀ entries : List (Text × Text), (∀ e ∈ entries, IsEntry e) → (entries.map Prod.fst).Nodup →
      (∀ field : Field, field.wanted = .character → ∀ e ∈ entries, e.1 = field.name → e.2.length = 1) →
      ∃! given : Conventions,
        (∀ field, given.get field = (entries.lookup field.name).getD (standard.get field)) ∧
        read (Text.join ['\n'] (entries.map entryLine) ++ closing) =
          match given.complaint? with
          | none => .ok given
          | some complaint => .error (.unusable complaint)) ∧
    (∀ entries : List (Text × Text), (∀ e ∈ entries, IsEntry e) →
      (∃ field : Field, 2 ≤ (entries.map Prod.fst).count field.name) →
      ∃ fault, read (Text.join ['\n'] (entries.map entryLine) ++ closing) = .error fault) ∧
    (∀ t, (∃ field : Field, 2 ≤ (keys t).count field.name) → ∃ fault, read t = .error fault) ∧
    ∀ t conventions, read t = .ok conventions → conventions.complaint? = none := by
  refine ⟨fun entries hentries hdistinct hfit => ?_, fun entries hentries htwice => ?_,
    fun t htwice => exists_error_of_twice htwice, fun t conventions h => complaint?_of_read h⟩
  · obtain ⟨given, hget, hread⟩ := exists_read_of_lines hclosing hentries hdistinct hfit
    refine ⟨given, ⟨hget, hread⟩, fun other hother => eq_of_get_eq fun field => ?_⟩
    exact (hother.1 field).trans (hget field).symm
  · exact exists_error_of_twice (by rwa [keys_of_lines hclosing hentries])

/-- Two fields and a key that is unknown, an unusable value, and fields that are given twice. -/
theorem read_overrides_delimiter :
    read "zz_top: \"any thing\"\ngroup_open: \"[\"\npage_prefix: \"index.\"\n" =
        .ok { standard with pagePrefix := "index.", groupOpen := '[' } ∧
      read "page_module: \"\"\n" = .error (.unusable .emptyPageModule) ∧
      (∃ fault, read "app_dir: \"a\"\napp_dir: \"b\"\n" = .error fault) ∧
      ∃ fault, read "\x7bapp_dir: a, app_dir: b\x7d" = .error fault := by
  have hclosing : (['\n'] : Text) = [] ∨ (['\n'] : Text) = ['\n'] := Or.inr rfl
  refine ⟨?_, ?_, ?_, (read_overrides hclosing).2.2.1 _ ⟨.appDir, by decide +kernel⟩⟩
  · obtain ⟨given, ⟨hget, hread⟩, -⟩ := (read_overrides hclosing).1
      [("zz_top", "any thing"), ("group_open", "["), ("page_prefix", "index.")] (by decide) (by decide)
      (by rintro (_ | _ | _ | _ | _ | _ | _) <;> decide)
    have hgiven : given = { standard with pagePrefix := "index.", groupOpen := '[' } :=
      eq_of_get_eq fun field => (hget field).trans (by cases field <;> rfl)
    rw [hgiven] at hread
    exact hread
  · obtain ⟨given, ⟨hget, hread⟩, -⟩ := (read_overrides hclosing).1 [("page_module", "")] (by decide)
      (by decide) (by rintro (_ | _ | _ | _ | _ | _ | _) <;> decide)
    have hgiven : given = { standard with pageModule := "" } :=
      eq_of_get_eq fun field => (hget field).trans (by cases field <;> rfl)
    rw [hgiven] at hread
    exact hread
  · exact (read_overrides hclosing).2.1 [("app_dir", "a"), ("app_dir", "b")] (by decide) ⟨.appDir, by decide⟩

end FileRoutes.Conventions
