import FileRoutes.Yaml.Gap

/-!
# Quoted scalars

Between apostrophes every character stands for itself, and an apostrophe is written twice.  Between
quotation marks a backslash begins an escape: a letter for a control character, a code point in
hexadecimal digits, or a line break that is not to be seen.  In both, line breaks are folded as
between the words of a plain scalar.

The reader takes one character at a time; `Awaiting` tells what it is in the middle of.
-/

namespace FileRoutes.Yaml

namespace QuotedScalar

/-- What a character behind a backslash stands for. -/
inductive Escape where
  /-- A character. -/
  | char (c : Char)
  /-- The character with a code point of so many hexadecimal digits. -/
  | code (digits : Nat)

/-- The escape that a character behind a backslash begins. -/
def escape? (c : Char) : Option Escape :=
  match c with
  | '0' => some (.char '\x00')
  | 'a' => some (.char '\x07')
  | 'b' => some (.char '\x08')
  | 't' => some (.char '\t')
  | '\t' => some (.char '\t')
  | 'n' => some (.char '\n')
  | 'v' => some (.char '\x0b')
  | 'f' => some (.char '\x0c')
  | 'r' => some (.char '\r')
  | 'e' => some (.char '\x1b')
  | ' ' => some (.char ' ')
  | '"' => some (.char '"')
  | '/' => some (.char '/')
  | '\\' => some (.char '\\')
  | 'N' => some (.char '\u0085')
  | '_' => some (.char '\u00a0')
  | 'L' => some (.char '\u2028')
  | 'P' => some (.char '\u2029')
  | 'x' => some (.code 2)
  | 'u' => some (.code 4)
  | 'U' => some (.code 8)
  | _ => none

/-- The character with a code point. -/
def charOf? (n : Nat) : Option Char :=
  if n < 0xD800 ∨ (0xDFFF < n ∧ n < 0x110000) then some (Char.ofNat n) else none

/-- What the reader is in the middle of. -/
inductive Awaiting where
  /-- Words and gaps: the gap since the last word, which is empty inside a word. -/
  | words (gap : Gap)
  /-- An escape, of which the backslash was read. -/
  | escape
  /-- A code point, of which some digits are missing. -/
  | digits (missing value : Nat)
  /-- The second of two apostrophes.  If it does not come, the first one was the closing quote. -/
  | apostrophe

/-- The result with a text in front. -/
def behind (t : Text) (r : Text × Cursor) : Text × Cursor := (t ++ r.1, r.2)

/-- Reads what is behind the opening quote.  The result is the text and the cursor behind the
closing quote. -/
def read? (isDouble : Bool) : Text → Mark → Awaiting → Option (Text × Cursor)
  | [], mark, .apostrophe => some ([], ⟨[], mark⟩)
  | [], _, _ => none
  | c :: rest, mark, .apostrophe =>
    if c = '\'' then (read? isDouble rest (mark.after c) (.words .empty)).map (behind ['\''])
    else some ([], ⟨c :: rest, mark⟩)
  | c :: rest, mark, .digits missing value =>
    match hexValue? c with
    | none => none
    | some digit =>
      if missing ≤ 1 then
        match charOf? (value * 16 + digit) with
        | none => none
        | some x => (read? isDouble rest (mark.after c) (.words .empty)).map (behind [x])
      else read? isDouble rest (mark.after c) (.digits (missing - 1) (value * 16 + digit))
  | c :: rest, mark, .escape =>
    if isBreak c then read? isDouble rest (mark.after c) (.words .escaped)
    else match escape? c with
      | none => none
      | some (.char x) => (read? isDouble rest (mark.after c) (.words .empty)).map (behind [x])
      | some (.code digits) => read? isDouble rest (mark.after c) (.digits digits 0)
  | c :: rest, mark, .words gap =>
    if isSpace c then read? isDouble rest (mark.after c) (.words (gap.add c))
    else if mark.column = 0 && isDocumentMarker (c :: rest) then none
    else if isDouble && c = '\\' then
      (read? isDouble rest (mark.after c) .escape).map (behind gap.text)
    else if isDouble && c = '"' then some (gap.text, ⟨rest, mark.after c⟩)
    else if !isDouble && c = '\'' then
      (read? isDouble rest (mark.after c) .apostrophe).map (behind gap.text)
    else (read? isDouble rest (mark.after c) (.words .empty)).map (behind (gap.text ++ [c]))

end QuotedScalar

/-- Reads a quoted scalar whose opening quote is at the cursor. -/
def quotedScalar? (isDouble : Bool) (c : Cursor) : Option (Text × Cursor) :=
  QuotedScalar.read? isDouble c.next.rest c.next.mark (.words .empty)

end FileRoutes.Yaml
