import FileRoutes.Text.Utf8
import FileRoutes.Text.Unprintable
import FileRoutes.Text.Extender

/-!
# Quoted texts

Messages show a text or a path between double quotes, so that its ends are seen and no character of
it is lost to the reader.  A quote, a backslash and the common controls are written behind a
backslash; a character that does not print, or that would change the glyph before it, is written as
its code point.

A byte sequence is quoted like the text that it encodes.  A byte that belongs to no character is
written as two hexadecimal digits.
-/

namespace FileRoutes.Text

/-- A character's code point between braces. -/
def codePoint (c : Char) : Text := "\\u\x7b" ++ hex c.toNat ++ "\x7d"

/-- A character as it stands in a quoted text. -/
def quotedChar (c : Char) : Text :=
  if c = '\x00' then "\\0"
  else if c = '\t' then "\\t"
  else if c = '\r' then "\\r"
  else if c = '\n' then "\\n"
  else if c = '"' then "\\\""
  else if c = '\\' then "\\\\"
  else if isExtender c || isUnprintable c then codePoint c
  else [c]

/-- A text between double quotes. -/
def quoted (t : Text) : Text := "\"" ++ t.flatMap quotedChar ++ "\""

/-- A byte as two upper-case hexadecimal digits. -/
def hexByte (b : UInt8) : Text :=
  let digits := (hex b.toNat).map Char.toUpper
  "\\x" ++ (if digits.length < 2 then '0' :: digits else digits)

/-- A byte sequence between double quotes. -/
def quotedBytes (bs : Bytes) : Text :=
  "\"" ++ (Utf8.pieces bs).flatMap (fun
    | .char c => quotedChar c
    | .broken bytes => bytes.flatMap hexByte) ++ "\""

end FileRoutes.Text
