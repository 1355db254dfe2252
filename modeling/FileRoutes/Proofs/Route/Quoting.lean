import FileRoutes.Route.Literal

/-!
# Reading string literals

`Literal.read` reads a string literal between apostrophes as the language of the generated module does:
a backslash begins one of the four escapes, the first apostrophe that is not escaped is the end, and
the line must not end before.  It says what the literal stands for and what follows it.

Whatever text is quoted, and whatever follows, the reader finds both (`read_quote`).  An escape is read
as the one character it stands for, so the lemma about the inside of a literal is an induction over the
text that was quoted.
-/

namespace FileRoutes.Literal

/-- The character that a backslash and this character stand for. -/
def unescape? (c : Char) : Option Char :=
  if c = '\\' ∨ c = '\'' then some c
  else if c = 'n' then some '\n'
  else if c = 'r' then some '\r'
  else none

/-- Reads on inside a literal: its value from here on, and what follows it. -/
def readInside : Text → Option (Text × Text)
  | [] => none
  | c :: rest =>
    if c = '\'' then some ([], rest)
    else if c = '\n' ∨ c = '\r' then none
    else if c = '\\' then
      match rest with
      | [] => none
      | d :: rest => do
        let value ← unescape? d
        let (values, following) ← readInside rest
        some (value :: values, following)
    else do
      let (values, following) ← readInside rest
      some (c :: values, following)

/-- Reads a literal: its value, and what follows it. -/
def read : Text → Option (Text × Text)
  | [] => none
  | c :: rest => if c = '\'' then readInside rest else none

/-- What stands for a character in a literal is read as this character. -/
theorem readInside_escaped (c : Char) (rest : Text) :
    readInside (escaped c ++ rest) = (readInside rest).map fun p => (c :: p.1, p.2) := by
  have hplain : ∀ o : Option (Text × Text),
      (o >>= fun p => some (c :: p.1, p.2)) = o.map fun p => (c :: p.1, p.2) := by
    intro o
    cases o <;> rfl
  rw [← hplain, escaped]
  split
  · subst c
    rfl
  split
  · subst c
    rfl
  split
  · subst c
    rfl
  split
  · subst c
    rfl
  · rename_i hslash hquote hfeed hreturn
    rw [List.singleton_append, readInside.eq_def]
    simp only [if_neg hquote, if_neg (not_or.mpr ⟨hfeed, hreturn⟩), if_neg hslash]

theorem readInside_flatMap_escaped (value rest : Text) :
    readInside (value.flatMap escaped ++ '\'' :: rest) = some (value, rest) := by
  induction value with
  | nil => rw [List.flatMap_nil, List.nil_append, readInside.eq_def]; rfl
  | cons c value ih =>
    rw [List.flatMap_cons, List.append_assoc, readInside_escaped, ih]
    rfl

/-- A literal is read as the text that was quoted, and ends where it ends. -/
theorem read_quote (value rest : Text) : read (quote value ++ rest) = some (value, rest) := by
  have hquote : quote value ++ rest = '\'' :: (value.flatMap escaped ++ '\'' :: rest) := by
    simp [quote]
  rw [hquote, read, if_pos rfl, readInside_flatMap_escaped]

end FileRoutes.Literal
