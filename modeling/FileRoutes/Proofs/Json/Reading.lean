import FileRoutes.Json
import FileRoutes.Yaml.Cursor

/-!
# Reading JSON back

A reader for all of JSON: the words, numbers and escapes that are never written here too, and blanks
wherever they may stand.  What is written of a value is read as this value (`read?_text`).

## Strings

In a string a code point above 65535 may be written as a pair of surrogates.  So the inside of a string is
read as code units first (`units`), which are put together afterwards (`ofUnits?`); a surrogate without its
partner makes the string unreadable.  A character that stands for itself is no surrogate.

## Fuel

The reader goes down by recursion on a number.  Each list or object that is opened costs two, one for its
elements and one for the first of them, so twice the length of the text is enough for any text.
-/

namespace FileRoutes

namespace Json

/-- What can be read.  A number is kept as it is written. -/
inductive Value where
  | null
  | bool (b : Bool)
  | number (literal : Text)
  | string (t : Text)
  | array (elements : List Value)
  | object (members : List (Text × Value))

mutual

/-- The value as it is read. -/
def value : Json → Value
  | .bool b => .bool b
  | .string t => .string t
  | .array elements => .array (values elements)
  | .object fields => .object (members fields)

/-- The elements of a list as they are read. -/
def values : List Json → List Value
  | [] => []
  | e :: es => value e :: values es

/-- The fields of an object as they are read. -/
def members : List (Text × Json) → List (Text × Value)
  | [] => []
  | (key, e) :: fields => (key, value e) :: members fields

end

namespace Reader

open Yaml (hexValue?)

/-- A blank or line break. -/
def isSpace (c : Char) : Bool := c = ' ' || c = '\t' || c = '\n' || c = '\r'

/-- The text behind the blanks at its beginning. -/
def skip (t : Text) : Text := t.dropWhile isSpace

/-! ## Strings -/

/-- The character that a backslash and this letter stand for. -/
def letter? (c : Char) : Option Char :=
  match c with
  | '"' => some '"'
  | '\\' => some '\\'
  | '/' => some '/'
  | 'b' => some '\x08'
  | 'f' => some '\x0c'
  | 'n' => some '\n'
  | 'r' => some '\r'
  | 't' => some '\t'
  | _ => none

/-- The number of four hexadecimal digits. -/
def unit? (a b c d : Char) : Option Nat := do
  let a ← hexValue? a
  let b ← hexValue? b
  let c ← hexValue? c
  let d ← hexValue? d
  return ((a * 16 + b) * 16 + c) * 16 + d

/-- Reads on inside a string: its code points and surrogates from here on, and what follows it. -/
def units : Text → Option (List Nat × Text)
  | [] => none
  | c :: rest =>
    if c = '"' then some ([], rest)
    else if c = '\\' then
      match rest with
      | 'u' :: a :: b :: c :: d :: rest => do
        let u ← unit? a b c d
        let (us, following) ← units rest
        some (u :: us, following)
      | d :: rest => do
        let x ← letter? d
        let (us, following) ← units rest
        some (x.toNat :: us, following)
      | [] => none
    else if c.toNat < 0x20 then none
    else do
      let (us, following) ← units rest
      some (c.toNat :: us, following)

/-- The first surrogate of a pair. -/
def isHigh (u : Nat) : Bool := 0xD800 ≤ u && u < 0xDC00

/-- The second surrogate of a pair. -/
def isLow (u : Nat) : Bool := 0xDC00 ≤ u && u < 0xE000

/-- The text of some code points and pairs of surrogates. -/
def ofUnits? : List Nat → Option Text
  | [] => some []
  | u :: rest =>
    if isHigh u then
      match rest with
      | [] => none
      | v :: rest =>
        if isLow v then
          (ofUnits? rest).map (Char.ofNat (0x10000 + (u - 0xD800) * 0x400 + (v - 0xDC00)) :: ·)
        else none
    else if isLow u then none
    else (ofUnits? rest).map (Char.ofNat u :: ·)

/-- Reads a string whose quote has been opened. -/
def string (t : Text) : Option (Text × Text) := do
  let (us, following) ← units t
  let s ← ofUnits? us
  some (s, following)

/-! ## Words and numbers -/

/-- A character of a word or a number. -/
def isWordChar (c : Char) : Bool := c.isAlphanum || c = '-' || c = '+' || c = '.'

/-- What follows some digits, of which there is one at least. -/
def digits? (t : Text) : Option Text :=
  if t.head?.any Char.isDigit then some (t.dropWhile Char.isDigit) else none

/-- What follows the part of a number in front of the point. -/
def whole? (t : Text) : Option Text :=
  match t with
  | '-' :: '0' :: rest => some rest
  | '-' :: rest => digits? rest
  | '0' :: rest => some rest
  | _ => digits? t

/-- What follows the point of a number and the digits behind it, if there is one. -/
def fraction? (t : Text) : Option Text :=
  match t with
  | '.' :: rest => digits? rest
  | _ => some t

/-- What follows the exponent of a number, if there is one. -/
def exponent? (t : Text) : Option Text :=
  match t with
  | [] => some []
  | e :: rest =>
    if e = 'e' || e = 'E' then
      match rest with
      | '+' :: rest => digits? rest
      | '-' :: rest => digits? rest
      | _ => digits? rest
    else some t

/-- The text is a number. -/
def isNumber (t : Text) : Bool := (whole? t >>= fraction? >>= exponent?) == some []

/-- The value that a word stands for. -/
def word? (w : Text) : Option Value :=
  if w = "true".toList then some (.bool true)
  else if w = "false".toList then some (.bool false)
  else if w = "null".toList then some .null
  else if isNumber w then some (.number w)
  else none

/-! ## Values -/

mutual

/-- Reads a value, and what follows it. -/
def readValue : Nat → Text → Option (Value × Text)
  | 0, _ => none
  | n + 1, t =>
    match skip t with
    | [] => none
    | c :: rest =>
      if c = '"' then (string rest).map fun p => (.string p.1, p.2)
      else if c = '[' then
        match skip rest with
        | ']' :: rest => some (.array [], rest)
        | rest => (readElements n rest).map fun p => (.array p.1, p.2)
      else if c = '\x7b' then
        match skip rest with
        | '\x7d' :: rest => some (.object [], rest)
        | rest => (readMembers n rest).map fun p => (.object p.1, p.2)
      else
        let w := (c :: rest).takeWhile isWordChar
        (word? w).map fun v => (v, (c :: rest).dropWhile isWordChar)

/-- Reads the elements of a list, of which there is one at least, and the bracket behind them. -/
def readElements : Nat → Text → Option (List Value × Text)
  | 0, _ => none
  | n + 1, t => do
    let (v, t) ← readValue n t
    match skip t with
    | ',' :: t => do
      let (vs, t) ← readElements n t
      some (v :: vs, t)
    | ']' :: t => some ([v], t)
    | _ => none

/-- Reads the members of an object, of which there is one at least, and the brace behind them. -/
def readMembers : Nat → Text → Option (List (Text × Value) × Text)
  | 0, _ => none
  | n + 1, t =>
    match skip t with
    | '"' :: t => do
      let (key, t) ← string t
      match skip t with
      | ':' :: t => do
        let (v, t) ← readValue n t
        match skip t with
        | ',' :: t => do
          let (ms, t) ← readMembers n t
          some ((key, v) :: ms, t)
        | '\x7d' :: t => some ([(key, v)], t)
        | _ => none
      | _ => none
    | _ => none

end

end Reader

/-- The value that a text spells.  Nothing but blanks may stand around it. -/
def read? (t : Text) : Option Value := do
  let (v, rest) ← Reader.readValue (2 * t.length + 2) t
  if rest.all Reader.isSpace then some v else none

namespace Reader

/-! ## Strings that were written -/

/-- A control is written in four digits, which are read as its number. -/
theorem hex4_eq {n : Nat} (hn : n < 32) :
    ∃ a b c d, hex4 n = [a, b, c, d] ∧ unit? a b c d = some n := by
  have hall : ∀ n < 32, hex4 n = ['0', '0', Nat.digitChar (n / 16), Nat.digitChar (n % 16)] ∧
      unit? '0' '0' (Nat.digitChar (n / 16)) (Nat.digitChar (n % 16)) = some n := by decide
  exact ⟨_, _, _, _, hall n hn⟩

/-- What stands for a character: a letter behind a backslash, four digits, or the character itself. -/
theorem escaped_cases (c : Char) :
    (∃ d, escaped c = ['\\', d] ∧ d ≠ 'u' ∧ letter? d = some c) ∨
      (escaped c = "\\u".toList ++ hex4 c.toNat ∧ c.toNat < 32) ∨
      (escaped c = [c] ∧ c ≠ '"' ∧ c ≠ '\\' ∧ ¬ c.toNat < 32) := by
  by_cases hletter : c ∈ ['"', '\\', '\n', '\r', '\t', '\x08', '\x0c']
  · left
    simp only [List.mem_cons, List.not_mem_nil, or_false] at hletter
    rcases hletter with rfl | rfl | rfl | rfl | rfl | rfl | rfl <;> exact ⟨_, rfl, by decide, rfl⟩
  · simp only [List.mem_cons, List.not_mem_nil, or_false, not_or] at hletter
    obtain ⟨hquote, hslash, hfeed, hreturn, htab, hback, hform⟩ := hletter
    unfold escaped
    simp only [if_neg hquote, if_neg hslash, if_neg hfeed, if_neg hreturn, if_neg htab, if_neg hback, if_neg hform]
    by_cases hcontrol : c.toNat < 32
    · rw [if_pos hcontrol]
      exact Or.inr (Or.inl ⟨rfl, hcontrol⟩)
    · rw [if_neg hcontrol]
      exact Or.inr (Or.inr ⟨rfl, hquote, hslash, hcontrol⟩)

/-- What stands for a character in a string is read as this character. -/
theorem units_escaped (c : Char) (rest : Text) :
    units (escaped c ++ rest) = (units rest).map fun p => (c.toNat :: p.1, p.2) := by
  rcases escaped_cases c with ⟨d, heq, hd, hletter⟩ | ⟨heq, hcontrol⟩ | ⟨heq, hquote, hslash, hcontrol⟩
  · have hunits : units ('\\' :: d :: rest) =
        (letter? d >>= fun x => units rest >>= fun p => some (x.toNat :: p.1, p.2)) := by
      rw [units.eq_def]
      simp only [show ('\\' : Char) ≠ '"' by decide, if_false, if_true]
      split
      · rename_i heq
        exact absurd (List.cons.inj heq).1 hd
      · rename_i heq
        obtain ⟨rfl, rfl⟩ := List.cons.inj heq
        rfl
      · rename_i heq
        cases heq
    rw [heq]
    refine hunits.trans ?_
    rw [hletter]
    cases units rest <;> rfl
  · obtain ⟨d₁, d₂, d₃, d₄, hdigits, hunit⟩ := hex4_eq hcontrol
    have hunits : units ('\\' :: 'u' :: d₁ :: d₂ :: d₃ :: d₄ :: rest) =
        (unit? d₁ d₂ d₃ d₄ >>= fun u => units rest >>= fun p => some (u :: p.1, p.2)) := by
      rw [units.eq_def]
      rfl
    rw [heq, hdigits]
    refine hunits.trans ?_
    rw [hunit]
    cases units rest <;> rfl
  · rw [heq, List.singleton_append, units.eq_def]
    simp only [if_neg hquote, if_neg hslash, if_neg hcontrol]
    cases units rest <;> rfl

theorem units_flatMap_escaped (t rest : Text) :
    units (t.flatMap escaped ++ '"' :: rest) = some (t.map Char.toNat, rest) := by
  induction t with
  | nil =>
    rw [List.flatMap_nil, List.nil_append, units.eq_def]
    rfl
  | cons c t ih =>
    rw [List.flatMap_cons, List.append_assoc, units_escaped, ih]
    rfl

/-- No character is a surrogate. -/
theorem ofUnits?_map_toNat (t : Text) : ofUnits? (t.map Char.toNat) = some t := by
  induction t with
  | nil => rfl
  | cons c t ih =>
    have hvalid : c.toNat < 0xD800 ∨ (0xDFFF < c.toNat ∧ c.toNat < 0x110000) := c.valid
    have hhigh : isHigh c.toNat = false := by
      simp only [isHigh, Bool.and_eq_false_iff, decide_eq_false_iff_not]
      omega
    have hlow : isLow c.toNat = false := by
      simp only [isLow, Bool.and_eq_false_iff, decide_eq_false_iff_not]
      omega
    rw [List.map_cons, ofUnits?.eq_def]
    simp only [hhigh, hlow, Bool.false_eq_true, if_false, ih, Option.map_some, Char.ofNat_toNat]

/-- A string is read as the text that was quoted, and ends where it ends. -/
theorem string_quote (t rest : Text) :
    ∃ inside, quote t ++ rest = '"' :: inside ∧ string inside = some (t, rest) := by
  refine ⟨t.flatMap escaped ++ '"' :: rest, by simp [quote], ?_⟩
  rw [string, units_flatMap_escaped]
  simp only [Option.bind_eq_bind, Option.bind_some]
  rw [ofUnits?_map_toNat, Option.bind_some]

/-! ## Blanks that were written -/

theorem skip_cons {c : Char} (h : isSpace c = false) (t : Text) : skip (c :: t) = c :: t := by
  rw [skip, List.dropWhile_cons_of_neg (by simp [h])]

theorem skip_blank (t : Text) : skip (' ' :: t) = skip t :=
  List.dropWhile_cons_of_pos (by decide)

/-- A new line is nothing but blanks. -/
theorem skip_newline (level : Nat) (t : Text) : skip (newline level ++ t) = skip t := by
  refine List.dropWhile_append_of_pos fun c hc => ?_
  rw [newline, Text.repeated] at hc
  rcases List.mem_append.mp hc with hc | hc
  · rw [List.mem_singleton.mp hc]
    decide
  · obtain ⟨blanks, hblanks, hc⟩ := List.mem_flatten.mp hc
    rw [List.eq_of_mem_replicate hblanks] at hc
    have hall : "  ".toList.all isSpace = true := by decide
    exact List.all_eq_true.mp hall c hc

/-- What is written of a value begins neither with a blank nor like the end of a list. -/
theorem print_head (level : Nat) (j : Json) :
    ∃ c t, print level j = c :: t ∧ isSpace c = false ∧ c ≠ ']' := by
  have hbool : ∀ b, ∃ c t, Text.ofBool b = c :: t ∧ isSpace c = false ∧ c ≠ ']' := by
    intro b
    cases b <;> exact ⟨_, _, rfl, by decide, by decide⟩
  match j with
  | .bool b =>
    rw [print]
    exact hbool b
  | .string t =>
    rw [print]
    unfold quote
    exact ⟨_, _, rfl, by decide, by decide⟩
  | .array [] =>
    rw [print]
    exact ⟨_, _, rfl, by decide, by decide⟩
  | .array (e :: es) =>
    rw [print]
    exact ⟨_, _, rfl, by decide, by decide⟩
  | .object [] =>
    rw [print]
    exact ⟨_, _, rfl, by decide, by decide⟩
  | .object ((key, e) :: fields) =>
    rw [print]
    exact ⟨_, _, rfl, by decide, by decide⟩

theorem length_print_pos (level : Nat) (j : Json) : 0 < (print level j).length := by
  obtain ⟨c, t, heq, -, -⟩ := print_head level j
  rw [heq, List.length_cons]
  exact Nat.succ_pos _

theorem skip_print (level : Nat) (j : Json) (rest : Text) :
    skip (print level j ++ rest) = print level j ++ rest := by
  obtain ⟨c, t, heq, hspace, -⟩ := print_head level j
  rw [heq, List.cons_append, skip_cons hspace]

/-! ## Words that were written -/

/-- A word cannot go on here. -/
def EndsWord (t : Text) : Prop := ∀ c ∈ t.head?, isWordChar c = false

theorem takeWhile_word {w rest : Text} (hw : ∀ c ∈ w, isWordChar c = true) (hrest : EndsWord rest) :
    (w ++ rest).takeWhile isWordChar = w ∧ (w ++ rest).dropWhile isWordChar = rest := by
  rw [List.takeWhile_append_of_pos hw, List.dropWhile_append_of_pos hw]
  cases rest with
  | nil => simp
  | cons c rest =>
    have hc : isWordChar c = false := hrest c rfl
    simp [hc]

theorem endsWord_cons {c : Char} (h : isWordChar c = false) (t : Text) : EndsWord (c :: t) := by
  rintro d ⟨⟩
  exact h

theorem endsWord_newline (level : Nat) (t : Text) : EndsWord (newline level ++ t) :=
  endsWord_cons (by decide) _

/-! ## Values that were written -/

/-- The word for a truth value is read as this value. -/
theorem readValue_ofBool (b : Bool) {n : Nat} {t rest : Text} (ht : skip t = Text.ofBool b ++ rest)
    (hrest : EndsWord rest) : readValue (n + 1) t = some (.bool b, rest) := by
  have hword : (Text.ofBool b).all isWordChar = true := by
    cases b <;> decide
  obtain ⟨htake, hdrop⟩ := takeWhile_word (List.all_eq_true.mp hword) hrest
  have hvalue : word? (Text.ofBool b) = some (.bool b) := by
    cases b <;> rfl
  have hhead : ∃ c w, Text.ofBool b = c :: w ∧ c ≠ '"' ∧ c ≠ '[' ∧ c ≠ '\x7b' := by
    cases b <;> exact ⟨_, _, rfl, by decide, by decide, by decide⟩
  obtain ⟨c, w, heq, hquote, hbracket, hbrace⟩ := hhead
  rw [heq] at ht htake hdrop hvalue
  rw [List.cons_append] at ht htake hdrop
  rw [readValue.eq_def]
  simp only [ht, if_neg hquote, if_neg hbracket, if_neg hbrace, htake, hdrop, hvalue, Option.map_some]

/-- A string is read if it is what follows. -/
theorem readValue_quote (s : Text) {n : Nat} {t rest : Text} (ht : skip t = quote s ++ rest) :
    readValue (n + 1) t = some (.string s, rest) := by
  obtain ⟨inside, heq, hinside⟩ := string_quote s rest
  rw [readValue.eq_def]
  simp only [ht, heq, if_true, hinside, Option.map_some]

/-- A list without elements, and one whose elements are read. -/
theorem readValue_emptyArray {n : Nat} {t inside rest : Text} (ht : skip t = '[' :: inside)
    (hend : skip inside = ']' :: rest) : readValue (n + 1) t = some (.array [], rest) := by
  rw [readValue.eq_def]
  simp only [ht, show ('[' : Char) ≠ '"' by decide, if_false, if_true, hend]

theorem readValue_array {n : Nat} {t inside rest : Text} {vs : List Value} (ht : skip t = '[' :: inside)
    (hinside : ∀ following, skip inside ≠ ']' :: following)
    (h : readElements n (skip inside) = some (vs, rest)) : readValue (n + 1) t = some (.array vs, rest) := by
  rw [readValue.eq_def]
  simp only [ht, show ('[' : Char) ≠ '"' by decide, if_false, if_true, h, Option.map_some]

/-- An object without members, and one whose members are read. -/
theorem readValue_emptyObject {n : Nat} {t inside rest : Text} (ht : skip t = '\x7b' :: inside)
    (hend : skip inside = '\x7d' :: rest) : readValue (n + 1) t = some (.object [], rest) := by
  rw [readValue.eq_def]
  simp only [ht, show ('\x7b' : Char) ≠ '"' by decide, show ('\x7b' : Char) ≠ '[' by decide, if_false, if_true,
    hend]

theorem readValue_object {n : Nat} {t inside rest : Text} {ms : List (Text × Value)}
    (ht : skip t = '\x7b' :: inside) (hinside : ∀ following, skip inside ≠ '\x7d' :: following)
    (h : readMembers n (skip inside) = some (ms, rest)) : readValue (n + 1) t = some (.object ms, rest) := by
  rw [readValue.eq_def]
  simp only [ht, show ('\x7b' : Char) ≠ '"' by decide, show ('\x7b' : Char) ≠ '[' by decide, if_false, if_true,
    h, Option.map_some]

/-- The last element of a list, and one that others follow. -/
theorem readElements_last {n : Nat} {t t' rest : Text} {v : Value} (h : readValue n t = some (v, t'))
    (hend : skip t' = ']' :: rest) : readElements (n + 1) t = some ([v], rest) := by
  rw [readElements, h]
  simp only [Option.bind_eq_bind, Option.bind_some, hend]

theorem readElements_cons {n : Nat} {t t' t'' rest : Text} {v : Value} {vs : List Value}
    (h : readValue n t = some (v, t')) (hcomma : skip t' = ',' :: t'')
    (hvs : readElements n t'' = some (vs, rest)) : readElements (n + 1) t = some (v :: vs, rest) := by
  rw [readElements, h]
  simp only [Option.bind_eq_bind, Option.bind_some, hcomma, hvs]

/-- The last member of an object, and one that others follow. -/
theorem readMembers_last {n : Nat} {t t' t'' rest : Text} {key : Text} {v : Value}
    (ht : skip t = quote key ++ (':' :: t')) (h : readValue n t' = some (v, t''))
    (hend : skip t'' = '\x7d' :: rest) : readMembers (n + 1) t = some ([(key, v)], rest) := by
  obtain ⟨inside, heq, hinside⟩ := string_quote key (':' :: t')
  rw [readMembers, ht, heq]
  simp only [hinside, Option.bind_eq_bind, Option.bind_some, skip_cons (show isSpace ':' = false by decide), h, hend]

theorem readMembers_cons {n : Nat} {t t' t'' t₃ rest : Text} {key : Text} {v : Value} {ms : List (Text × Value)}
    (ht : skip t = quote key ++ (':' :: t')) (h : readValue n t' = some (v, t'')) (hcomma : skip t'' = ',' :: t₃)
    (hms : readMembers n t₃ = some (ms, rest)) : readMembers (n + 1) t = some ((key, v) :: ms, rest) := by
  obtain ⟨inside, heq, hinside⟩ := string_quote key (':' :: t')
  rw [readMembers, ht, heq]
  simp only [hinside, Option.bind_eq_bind, Option.bind_some, skip_cons (show isSpace ':' = false by decide), h, hcomma,
    hms]

/-! ## Lists and objects as they are written -/

section Written

variable (level : Nat) (e : Json) (es : List Json) (key : Text) (fields : List (Text × Json)) (rest : Text)

theorem print_array : print level (.array (e :: es)) ++ rest =
    '[' :: (newline (level + 1) ++ (print (level + 1) e ++ (printElements (level + 1) es
      ++ (newline level ++ ']' :: rest)))) := by
  rw [print]
  simp only [List.append_assoc]
  rfl

theorem length_print_array : (print level (.array (e :: es))).length =
    (print (level + 1) e).length + (printElements (level + 1) es).length
      + (newline (level + 1)).length + (newline level).length + 2 := by
  have h := congrArg List.length (print_array level e es [])
  simp only [List.append_nil, List.length_cons, List.length_append, List.length_nil] at h
  omega

theorem printElements_cons : printElements level (e :: es) ++ rest =
    ',' :: (newline level ++ (print level e ++ (printElements level es ++ rest))) := by
  rw [printElements]
  simp only [List.append_assoc]
  rfl

theorem length_printElements_cons : (printElements level (e :: es)).length =
    (print level e).length + (printElements level es).length + (newline level).length + 1 := by
  have h := congrArg List.length (printElements_cons level e es [])
  simp only [List.append_nil, List.length_cons, List.length_append] at h
  omega

theorem print_object : print level (.object ((key, e) :: fields)) ++ rest =
    '\x7b' :: (newline (level + 1) ++ (quote key ++ ':' :: ' ' :: (print (level + 1) e
      ++ (printFields (level + 1) fields ++ (newline level ++ '\x7d' :: rest))))) := by
  rw [print]
  simp only [List.append_assoc]
  rfl

theorem length_print_object : (print level (.object ((key, e) :: fields))).length =
    (quote key).length + (print (level + 1) e).length + (printFields (level + 1) fields).length
      + (newline (level + 1)).length + (newline level).length + 4 := by
  have h := congrArg List.length (print_object level e key fields [])
  simp only [List.append_nil, List.length_cons, List.length_append, List.length_nil] at h
  omega

theorem printFields_cons : printFields level ((key, e) :: fields) ++ rest =
    ',' :: (newline level ++ (quote key ++ ':' :: ' ' :: (print level e
      ++ (printFields level fields ++ rest)))) := by
  rw [printFields]
  simp only [List.append_assoc]
  rfl

theorem length_printFields_cons : (printFields level ((key, e) :: fields)).length =
    (quote key).length + (print level e).length + (printFields level fields).length
      + (newline level).length + 3 := by
  have h := congrArg List.length (printFields_cons level e key fields [])
  simp only [List.append_nil, List.length_cons, List.length_append] at h
  omega

end Written

theorem skip_quote (t rest : Text) : skip (quote t ++ rest) = quote t ++ rest := by
  obtain ⟨inside, heq, -⟩ := string_quote t rest
  rw [heq, skip_cons (by decide)]

mutual

/-- What was written of a value is read as this value, and ends where it ends. -/
theorem readValue_print : ∀ (j : Json) (level : Nat) {n : Nat} {t rest : Text}, skip t = print level j ++ rest →
    EndsWord rest → 2 * (print level j).length ≤ n + 1 → readValue (n + 1) t = some (j.value, rest)
  | .bool b, level, n, t, rest, ht, hrest, _ => by
    rw [print] at ht
    rw [readValue_ofBool b ht hrest, value]
  | .string s, level, n, t, rest, ht, _, _ => by
    rw [print] at ht
    rw [readValue_quote s ht, value]
  | .array [], level, n, t, rest, ht, _, _ => by
    rw [print] at ht
    rw [readValue_emptyArray ht (skip_cons (by decide) rest), value, values]
  | .array (e :: es), level, n, t, rest, ht, _, hn => by
    rw [print_array] at ht
    rw [length_print_array] at hn
    have hinside := (skip_newline (level + 1) _).trans (skip_print (level + 1) e
      (printElements (level + 1) es ++ (newline level ++ ']' :: rest)))
    obtain ⟨m, rfl⟩ : ∃ m, n = m + 1 := ⟨n - 1, by omega⟩
    rw [value]
    refine readValue_array ht (fun following heq => ?_) ?_
    · obtain ⟨c, u, hprint, -, hc⟩ := print_head (level + 1) e
      rw [hinside, hprint] at heq
      exact hc (List.cons.inj heq).1
    · refine readElements_print e es (level + 1) level ?_ (by omega)
      rw [hinside, skip_print]
  | .object [], level, n, t, rest, ht, _, _ => by
    rw [print] at ht
    rw [readValue_emptyObject ht (skip_cons (by decide) rest), value, members]
  | .object ((key, e) :: fields), level, n, t, rest, ht, _, hn => by
    rw [print_object] at ht
    rw [length_print_object] at hn
    have hinside := (skip_newline (level + 1) _).trans (skip_quote key
      (':' :: ' ' :: (print (level + 1) e ++ (printFields (level + 1) fields ++ (newline level ++ '\x7d' :: rest)))))
    obtain ⟨m, rfl⟩ : ∃ m, n = m + 1 := ⟨n - 1, by omega⟩
    rw [value]
    refine readValue_object ht (fun following heq => ?_) ?_
    · obtain ⟨inside, hquote, -⟩ := string_quote key
        (':' :: ' ' :: (print (level + 1) e ++ (printFields (level + 1) fields ++ (newline level ++ '\x7d' :: rest))))
      rw [hinside, hquote] at heq
      exact absurd (List.cons.inj heq).1 (by decide)
    · refine readMembers_print key e fields (level + 1) level ?_ (by omega)
      rw [hinside, skip_quote]
termination_by j => sizeOf j

/-- The elements of a list, which stand at one level and the bracket behind them at another. -/
theorem readElements_print : ∀ (e : Json) (es : List Json) (level outer : Nat) {n : Nat} {t rest : Text},
    skip t = print level e ++ (printElements level es ++ (newline outer ++ ']' :: rest)) →
    2 * ((print level e).length + (printElements level es).length) ≤ n →
    readElements (n + 1) t = some (values (e :: es), rest)
  | e, [], level, outer, n, t, rest, ht, hn => by
    have hpos := length_print_pos level e
    obtain ⟨m, rfl⟩ : ∃ m, n = m + 1 := ⟨n - 1, by omega⟩
    rw [printElements, List.nil_append] at ht
    rw [values, values]
    refine readElements_last (readValue_print e level ht (endsWord_newline outer _) (by omega)) ?_
    rw [skip_newline, skip_cons (by decide)]
  | e, e' :: es, level, outer, n, t, rest, ht, hn => by
    rw [printElements_cons] at ht
    rw [length_printElements_cons] at hn
    obtain ⟨m, rfl⟩ : ∃ m, n = m + 1 := ⟨n - 1, by omega⟩
    rw [values]
    refine readElements_cons (readValue_print e level ht (endsWord_cons (by decide) _) (by omega))
      (skip_cons (by decide) _) ?_
    refine readElements_print e' es level outer ?_ (by omega)
    rw [skip_newline, skip_print]
termination_by e es => sizeOf (e :: es)

/-- The members of an object. -/
theorem readMembers_print : ∀ (key : Text) (e : Json) (fields : List (Text × Json)) (level outer : Nat)
    {n : Nat} {t rest : Text}, skip t = quote key ++ ':' :: ' ' :: (print level e
      ++ (printFields level fields ++ (newline outer ++ '\x7d' :: rest))) →
    2 * ((print level e).length + (printFields level fields).length) ≤ n →
    readMembers (n + 1) t = some (members ((key, e) :: fields), rest)
  | key, e, [], level, outer, n, t, rest, ht, hn => by
    have hpos := length_print_pos level e
    obtain ⟨m, rfl⟩ : ∃ m, n = m + 1 := ⟨n - 1, by omega⟩
    rw [printFields, List.nil_append] at ht
    rw [members, members]
    have hvalue := readValue_print e level ((skip_blank _).trans (skip_print level e _))
      (endsWord_newline outer ('\x7d' :: rest)) (n := m) (by omega)
    refine readMembers_last ht hvalue ?_
    rw [skip_newline, skip_cons (by decide)]
  | key, e, (key', e') :: fields, level, outer, n, t, rest, ht, hn => by
    rw [printFields_cons] at ht
    rw [length_printFields_cons] at hn
    obtain ⟨m, rfl⟩ : ∃ m, n = m + 1 := ⟨n - 1, by omega⟩
    rw [members]
    have hend := endsWord_cons (show isWordChar ',' = false by decide) (newline level ++ (quote key'
      ++ ':' :: ' ' :: (print level e' ++ (printFields level fields ++ (newline outer ++ '\x7d' :: rest)))))
    have hvalue := readValue_print e level ((skip_blank _).trans (skip_print level e _)) hend (n := m) (by omega)
    refine readMembers_cons ht hvalue (skip_cons (by decide) _) ?_
    refine readMembers_print key' e' fields level outer ?_ (by omega)
    rw [skip_newline, skip_quote]
termination_by key e fields => sizeOf ((key, e) :: fields)

end

end Reader

/-- **What is written of a value is read as this value.** -/
theorem read?_text (j : Json) : read? j.text = some j.value := by
  have ht : Reader.skip j.text = print 0 j ++ [] := by
    have h := Reader.skip_print 0 j []
    rwa [List.append_nil] at h ⊢
  have h := Reader.readValue_print j 0 (n := 2 * j.text.length + 1) ht (by rintro c ⟨⟩) (by rw [text]; omega)
  rw [read?, h]
  rfl

end Json

end FileRoutes
