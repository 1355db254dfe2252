import FileRoutes.Text.Basic

/-!
# Reading YAML character by character

A cursor is the rest of a text together with the position at which it begins.  Positions count
bytes, lines and the characters of a line from zero.

Before a text is read, its line breaks are made alike: a carriage return, with or without a line
feed, and a next-line character become a line feed (`Source.ofText`).  The line and paragraph separators
are breaks too, but stay what they are, because folding treats them differently.

A text is looked at through windows of 16384 bytes, and a window with a control character cannot be
read.  What stands in the windows in front of it can.
-/

namespace FileRoutes.Yaml

/-- A position in a text. -/
structure Mark where
  /-- The number of bytes before it. -/
  index : Nat
  /-- The number of line breaks before it. -/
  line : Nat
  /-- The number of characters before it on its line. -/
  column : Nat
  deriving DecidableEq

/-! ## Classes of characters -/

/-- A line break. -/
def isBreak (c : Char) : Bool := c = '\n' || c = '\u2028' || c = '\u2029'

/-- A blank inside a line. -/
def isBlank (c : Char) : Bool := c = ' ' || c = '\t'

/-- A blank or a line break. -/
def isSpace (c : Char) : Bool := isBlank c || isBreak c

/-- A character of a name: an ASCII letter or digit, an underscore or a hyphen. -/
def isWord (c : Char) : Bool := c.isAlphanum || c = '_' || c = '-'

/-- The byte order mark. -/
def byteOrderMark : Char := '\uFEFF'

/-- A character that may occur in a text: tabs, line breaks and what is no control character. -/
def isAllowed (c : Char) : Bool :=
  let n := c.toNat
  n = 0x09 || n = 0x0A || n = 0x0D || (0x20 ≤ n && n ≤ 0x7E) || n = 0x85
    || (0xA0 ≤ n && n ≤ 0xD7FF) || (0xE000 ≤ n && n ≤ 0xFFFD) || 0x10000 ≤ n

/-- The value of a hexadecimal digit. -/
def hexValue? (c : Char) : Option Nat :=
  if '0' ≤ c ∧ c ≤ '9' then some (c.toNat - '0'.toNat)
  else if 'a' ≤ c ∧ c ≤ 'f' then some (c.toNat - 'a'.toNat + 10)
  else if 'A' ≤ c ∧ c ≤ 'F' then some (c.toNat - 'A'.toNat + 10)
  else none

/-! ## Sources -/

/-- The text with line breaks made alike. -/
def unifyBreaks : Text → Text
  | '\r' :: '\n' :: rest => '\n' :: unifyBreaks rest
  | c :: rest => (if c = '\r' || c = '\u0085' then '\n' else c) :: unifyBreaks rest
  | [] => []

/-- How many bytes a window holds.  A character that does not fit belongs to the next one. -/
def windowSize : Nat := 16384

/-- The number of characters in front of the first window that cannot be read.  `earlier` characters
stand in the windows before the one that is open, which holds `held` and has room for `room` bytes. -/
def readableCount? (earlier held room : Nat) : Text → Option Nat
  | [] => none
  | c :: rest =>
    if c.utf8Size ≤ room then
      if isAllowed c then readableCount? earlier (held + 1) (room - c.utf8Size) rest
      else some earlier
    else if isAllowed c then readableCount? (earlier + held) 1 (windowSize - c.utf8Size) rest
    else some (earlier + held)

/-- What can be read of a text. -/
structure Source where
  text : Text
  /-- The text goes on with a window that cannot be read. -/
  isCut : Bool

/-- What can be read of a text, with line breaks made alike. -/
def Source.ofText (t : Text) : Source :=
  match readableCount? 0 0 windowSize t with
  | none => ⟨unifyBreaks t, false⟩
  | some n => ⟨unifyBreaks (t.take n), true⟩

/-- The position behind a character. -/
def Mark.after (m : Mark) (c : Char) : Mark :=
  if isBreak c then ⟨m.index + c.utf8Size, m.line + 1, 0⟩
  else ⟨m.index + c.utf8Size, m.line, m.column + 1⟩

/-- The position behind some characters. -/
def Mark.afterAll (m : Mark) (t : Text) : Mark := t.foldl Mark.after m

/-- The beginning of a text. -/
def Mark.zero : Mark := ⟨0, 0, 0⟩

/-- The rest of a text and where it begins. -/
structure Cursor where
  rest : Text
  mark : Mark

namespace Cursor

/-- The character at the cursor. -/
def head? (c : Cursor) : Option Char := c.rest.head?

/-- The cursor behind the next character. -/
def next (c : Cursor) : Cursor :=
  match c.rest with
  | [] => c
  | x :: rest => ⟨rest, c.mark.after x⟩

/-- The cursor behind the next `n` characters. -/
def skip (n : Nat) (c : Cursor) : Cursor :=
  ⟨c.rest.drop n, c.mark.afterAll (c.rest.take n)⟩

/-- The longest run of characters with a property, and the cursor behind it. -/
def span (p : Char → Bool) (c : Cursor) : Text × Cursor :=
  let taken := c.rest.takeWhile p
  (taken, ⟨c.rest.dropWhile p, c.mark.afterAll taken⟩)

/-- The cursor behind the longest run of characters with a property. -/
def skipWhile (p : Char → Bool) (c : Cursor) : Cursor := (c.span p).2

/-- The cursor behind the rest of the line, but before its break. -/
def skipLine (c : Cursor) : Cursor := c.skipWhile (!isBreak ·)

end Cursor

/-- The text ends here or goes on with a blank or a line break. -/
def endsWord (t : Text) : Bool := t.head?.all isSpace

/-- The text goes on with three hyphens or three dots that stand alone. -/
def isDocumentMarker : Text → Bool
  | '-' :: '-' :: '-' :: rest => endsWord rest
  | '.' :: '.' :: '.' :: rest => endsWord rest
  | _ => false

end FileRoutes.Yaml
