import FileRoutes.Number.Binary64
import FileRoutes.Text.Utf8

/-!
# What a scalar means

A plain scalar may be more than a text: a null, a truth value, or a number.  Which words and numerals
are recognised is a matter of the schema; everything else is the text itself.  A tag can ask for one
of these kinds, and then a scalar that is not of the kind is at fault.

## Numerals

Integers are decimal, or hexadecimal, octal or binary behind `0x`, `0o` and `0b`.  A decimal one with a
leading zero is no number.  An integer of more than 64 bits is kept apart, one of more than 128 bits
is read as a floating-point number.  Floating-point numbers are the usual decimals, with or without an
exponent, as long as they are not too large, and the words for infinity and for no number.
-/

namespace FileRoutes.Yaml

/-- What a scalar means. -/
inductive Scalar where
  | null
  | bool (b : Bool)
  | integer (n : Int)
  /-- An integer that does not fit into 64 bits. -/
  | wideInteger (n : Int)
  /-- A floating-point number, in its shortest form. -/
  | number (shown : Text)
  | text (t : Text)
  deriving DecidableEq

namespace Scalar

/-- The words for nothing. -/
def isNull (t : Text) : Bool :=
  t = "null".toList || t = "Null".toList || t = "NULL".toList || t = "~".toList

/-- The words for the truth values. -/
def bool? (t : Text) : Option Bool :=
  if t = "true".toList ∨ t = "True".toList ∨ t = "TRUE".toList then some true
  else if t = "false".toList ∨ t = "False".toList ∨ t = "FALSE".toList then some false
  else none

/-! ## Integers -/

/-- The value of a digit below `base`. -/
def digit? (base : Nat) (c : Char) : Option Nat :=
  let value? :=
    if c.isDigit then some (c.toNat - '0'.toNat)
    else if 'a' ≤ c ∧ c ≤ 'z' then some (c.toNat - 'a'.toNat + 10)
    else if 'A' ≤ c ∧ c ≤ 'Z' then some (c.toNat - 'A'.toNat + 10)
    else none
  value?.filter (· < base)

/-- The number that some digits denote; none if there are none. -/
def natural? (base : Nat) (t : Text) : Option Nat :=
  if t = [] then none
  else t.foldl (fun n? c => n?.bind fun n => (digit? base c).map (n * base + ·)) (some 0)

/-- A text without its sign, if it has one. -/
def unsigned (t : Text) : Text :=
  match t with
  | '+' :: rest | '-' :: rest => rest
  | _ => t

/-- The text begins with a sign. -/
def hasSign (t : Text) : Bool := t.head? == some '+' || t.head? == some '-'

/-- Digits behind a leading zero, which are no number. -/
def isPadded (t : Text) : Bool :=
  match unsigned t with
  | '0' :: c :: rest => (c :: rest).all Char.isDigit
  | _ => false

/-- The base of a numeral and the digits behind its mark. -/
def based? : Text → Option (Nat × Text)
  | '0' :: 'x' :: rest => some (16, rest)
  | '0' :: 'o' :: rest => some (8, rest)
  | '0' :: 'b' :: rest => some (2, rest)
  | _ => none

/-- An integer below `limit` that is not negative. -/
def nonNegative? (limit : Nat) (t : Text) : Option Nat :=
  let body := if t.head? = some '+' then t.tail else t
  let marked? := (based? body).bind fun (base, digits) => (natural? base digits).filter (· < limit)
  match marked? with
  | some n => some n
  | none =>
    if hasSign body || isPadded t then none else (natural? 10 body).filter (· < limit)

/-- The absolute value of a negative integer, at most `limit`. -/
def negative? (limit : Nat) (t : Text) : Option Nat :=
  match t with
  | '-' :: body =>
    let marked? := (based? body).bind fun (base, digits) => (natural? base digits).filter (· ≤ limit)
    match marked? with
    | some n => some n
    | none => if isPadded t then none else (natural? 10 body).filter (· ≤ limit)
  | _ => none

/-- The integer that a text denotes. -/
def integer? (t : Text) : Option Scalar :=
  match nonNegative? (Nat.pow 2 64) t, negative? (Nat.pow 2 63) t with
  | some n, _ => some (.integer n)
  | none, some n => some (.integer (-(n : Int)))
  | none, none =>
    match nonNegative? (Nat.pow 2 128) t, negative? (Nat.pow 2 127) t with
    | some n, _ => some (.wideInteger n)
    | none, some n => some (.wideInteger (-(n : Int)))
    | none, none => none

/-! ## Floating-point numbers -/

/-- The exponent behind its mark. -/
def exponent? (t : Text) : Option Int :=
  match t with
  | '-' :: rest => (natural? 10 rest).map fun n => -(n : Int)
  | '+' :: rest => (natural? 10 rest).map fun n => (n : Int)
  | _ => (natural? 10 t).map fun n => (n : Int)

/-- The decimal without a sign that a text denotes. -/
def decimal? (t : Text) : Option Decimal :=
  let whole := t.takeWhile Char.isDigit
  let rest := t.dropWhile Char.isDigit
  let (fraction, rest) :=
    match rest with
    | '.' :: rest => (rest.takeWhile Char.isDigit, rest.dropWhile Char.isDigit)
    | _ => ([], rest)
  let exponent? : Option Int :=
    match rest with
    | [] => some 0
    | c :: rest => if c = 'e' ∨ c = 'E' then exponent? rest else none
  match natural? 10 (whole ++ fraction), exponent? with
  | some digits, some exponent => some ⟨digits, exponent - (fraction.length : Int)⟩
  | _, _ => none

/-- The floating-point number that a text denotes, in its shortest form. -/
def number? (t : Text) : Option Scalar :=
  let body := if t.head? = some '+' then t.tail else t
  if t.head? = some '+' && hasSign body then none
  else if body = ".inf".toList ∨ body = ".Inf".toList ∨ body = ".INF".toList then
    some (.number "inf")
  else if t = "-.inf".toList ∨ t = "-.Inf".toList ∨ t = "-.INF".toList then some (.number "-inf")
  else if t = ".nan".toList ∨ t = ".NaN".toList ∨ t = ".NAN".toList then some (.number "NaN")
  else
    let sign : Text := if body.head? = some '-' then ['-'] else []
    let digits := if body.head? = some '-' then body.tail else body
    ((decimal? digits).bind Binary64.ofDecimal).map fun x => .number (sign ++ x.text)

/-! ## Plain and tagged scalars -/

/-- What a plain scalar means. -/
def plain (t : Text) : Scalar :=
  if t = [] ∨ isNull t then .null
  else match bool? t with
    | some b => .bool b
    | none =>
      match integer? t with
      | some s => s
      | none => (if isPadded t then none else number? t).getD (.text t)

/-- The kinds that a tag can ask for. -/
inductive Kind where
  | null
  | bool
  | integer
  | number
  deriving DecidableEq

/-- The kind that a tag asks for. -/
def kind? (tag : Bytes) : Option Kind :=
  if tag = Utf8.encode "tag:yaml.org,2002:null" then some .null
  else if tag = Utf8.encode "tag:yaml.org,2002:bool" then some .bool
  else if tag = Utf8.encode "tag:yaml.org,2002:int" then some .integer
  else if tag = Utf8.encode "tag:yaml.org,2002:float" then some .number
  else none

/-- What a scalar means that a tag asks to be of a kind; none if it is not of the kind. -/
def ofKind? (t : Text) : Kind → Option Scalar
  | .null => if isNull t then some .null else none
  | .bool => (bool? t).map .bool
  | .integer => integer? t
  | .number => number? t

/-- What a scalar means, or the kind that its tag asks for in vain. -/
def resolve (tag? : Option Bytes) (isPlain : Bool) (t : Text) : Except Kind Scalar :=
  match tag? with
  | none => .ok (if isPlain then plain t else .text t)
  | some tag =>
    match kind? tag with
    | some kind =>
      match ofKind? t kind with
      | some s => .ok s
      | none => .error kind
    | none =>
      let isLocal := tag.head? = some 0x21
      .ok (if isPlain && isLocal then plain t else .text t)

end Scalar

end FileRoutes.Yaml
