import FileRoutes.Text.Basic

/-!
# Blank characters

The characters with the Unicode property `White_Space`.  They are more than the blanks and line
breaks of ASCII: the no-break spaces, the typographic spaces and the line and paragraph separators
belong to them, the zero-width space and the byte order mark do not.
-/

namespace FileRoutes.Text

/-- The property `White_Space`. -/
def isBlankChar (c : Char) : Bool :=
  let n := c.toNat
  (0x9 ≤ n && n ≤ 0xD) || n == 0x20 || n == 0x85 || n == 0xA0 || n == 0x1680
    || (0x2000 ≤ n && n ≤ 0x200A) || n == 0x2028 || n == 0x2029 || n == 0x202F
    || n == 0x205F || n == 0x3000

/-- No character of the text is visible. -/
def isBlank (t : Text) : Bool := t.all isBlankChar

end FileRoutes.Text
