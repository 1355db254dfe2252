/-!
# Texts

A text is a list of Unicode scalar values.  Every name, path component, generated source file and
message of this library is one, so that a statement about a printer or a reader is a statement
about lists and is proved by induction on them.

## Literals

A string literal may be written where a text is expected.  The coercion is `String.toList`, which
computes on literals, so closed statements about texts are decided by evaluation.

## Counting

`Text.ofNat` writes a number in decimal, `Text.hex` in hexadecimal with lower-case digits.  Both are
`Nat.toDigits`, so their digits never start with a zero unless the number is zero.
-/

namespace FileRoutes

/-- A sequence of Unicode scalar values. -/
abbrev Text := List Char

instance : Coe String Text := ⟨String.toList⟩

namespace Text

/-- The decimal digits of a number. -/
def ofNat (n : Nat) : Text := Nat.toDigits 10 n

/-- The decimal digits of an integer, behind a hyphen when it is negative. -/
def ofInt : Int → Text
  | .ofNat n => ofNat n
  | .negSucc n => '-' :: ofNat (n + 1)

/-- The lower-case hexadecimal digits of a number. -/
def hex (n : Nat) : Text := Nat.toDigits 16 n

/-- The words `true` and `false`. -/
def ofBool (b : Bool) : Text := if b then "true".toList else "false".toList

/-- The texts of a list, one after the other, with `separator` between neighbours. -/
def join (separator : Text) : List Text → Text
  | [] => []
  | [t] => t
  | t :: u :: rest => t ++ separator ++ join separator (u :: rest)

/-- The texts of a list, each ended by a line feed. -/
def lines (ts : List Text) : Text := ts.flatMap (· ++ ['\n'])

/-- `n` copies of a text, one after the other. -/
def repeated (n : Nat) (t : Text) : Text := (List.replicate n t).flatten

/-- The stretches between line feeds; a text without one is its own only stretch. -/
def splitLines : Text → List Text
  | [] => [[]]
  | '\n' :: rest => [] :: splitLines rest
  | c :: rest =>
    match splitLines rest with
    | [] => [[c]]
    | t :: ts => (c :: t) :: ts

end Text

end FileRoutes
