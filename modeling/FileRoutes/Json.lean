import FileRoutes.Text.Basic

/-!
# JSON

The values that are written to a JSON file, and their text.  The fields of an object keep their
order.  Each element and each field has a line of its own, indented by two blanks per level; a list
or an object without any is written on one line.
-/

namespace FileRoutes

/-- A JSON value. -/
inductive Json where
  | bool (b : Bool)
  | string (t : Text)
  | array (elements : List Json)
  | object (fields : List (Text × Json))

namespace Json

/-- A number below 65536 in four hexadecimal digits. -/
def hex4 (n : Nat) : Text :=
  let digits := Text.hex n
  List.replicate (4 - digits.length) '0' ++ digits

/-- A character inside a string.  The controls are escaped, five of them by a letter. -/
def escaped (c : Char) : Text :=
  if c = '"' then "\\\""
  else if c = '\\' then "\\\\"
  else if c = '\n' then "\\n"
  else if c = '\r' then "\\r"
  else if c = '\t' then "\\t"
  else if c = '\x08' then "\\b"
  else if c = '\x0c' then "\\f"
  else if c.toNat < 0x20 then "\\u" ++ hex4 c.toNat
  else [c]

/-- A string between quotes. -/
def quote (t : Text) : Text := "\"" ++ t.flatMap escaped ++ "\""

/-- A new line at a level. -/
def newline (level : Nat) : Text := "\n" ++ Text.repeated level "  "

mutual

/-- A value whose first line is indented already, at a level. -/
def print (level : Nat) : Json → Text
  | .bool b => Text.ofBool b
  | .string t => quote t
  | .array [] => "[]"
  | .array (e :: es) =>
    "[" ++ newline (level + 1) ++ print (level + 1) e ++ printElements (level + 1) es
      ++ newline level ++ "]"
  | .object [] => "\x7b\x7d"
  | .object ((key, value) :: fields) =>
    "\x7b" ++ newline (level + 1) ++ quote key ++ ": " ++ print (level + 1) value
      ++ printFields (level + 1) fields ++ newline level ++ "\x7d"

/-- The elements after the first. -/
def printElements (level : Nat) : List Json → Text
  | [] => []
  | e :: es => "," ++ newline level ++ print level e ++ printElements level es

/-- The fields after the first. -/
def printFields (level : Nat) : List (Text × Json) → Text
  | [] => []
  | (key, value) :: fields =>
    "," ++ newline level ++ quote key ++ ": " ++ print level value ++ printFields level fields

end

/-- The text of a value. -/
def text (j : Json) : Text := print 0 j

end Json

end FileRoutes
