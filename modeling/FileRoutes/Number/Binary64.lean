import FileRoutes.Text.Basic

/-!
# Doubles from decimals, and back

A decimal numeral stands for a rational number; a double is the nearest number of the form
`m · 2 ^ e` with `m < 2 ^ 53`.  Both directions are done in exact arithmetic on natural numbers.

* `ofRatio` rounds a quotient to the nearest double, a tie going to the even significand.  The
  exponent never falls below `-1074`, so small values lose digits and the smallest become zero.
* `Binary64.shortest` gives the fewest decimal digits that read back as the same double, and of
  those the nearest to it, a tie going to the greater one.  For each number of digits it tries the two decimals around the value; the
  first count for which one of them lies in the interval that rounds to the double wins.

Values are not negative here: the sign is the caller's.
-/

namespace FileRoutes

/-- A finite double that is not negative: `significand · 2 ^ exponent`. -/
structure Binary64 where
  significand : Nat
  exponent : Int
  deriving DecidableEq

/-- A decimal that is not negative: `digits · 10 ^ exponent`. -/
structure Decimal where
  digits : Nat
  exponent : Int
  deriving DecidableEq

namespace Binary64

/-- The quotient of two numbers, rounded to the nearest integer, a tie to the even one. -/
def roundDiv (num den : Nat) : Nat :=
  let q := num / den
  let r := num % den
  if 2 * r < den then q
  else if den < 2 * r then q + 1
  else if q % 2 = 0 then q else q + 1

/-- Numerator and denominator of `num / den · 2 ^ shift`. -/
def scale (num den : Nat) (shift : Int) : Nat × Nat :=
  match shift with
  | .ofNat k => (num * Nat.pow 2 k, den)
  | .negSucc k => (num, den * Nat.pow 2 (k + 1))

/-- The double nearest to `num / den`; none if the value is too large for any. -/
def ofRatio (num den : Nat) : Option Binary64 :=
  if num = 0 then some ⟨0, -1074⟩
  else
    let guess : Int := (Nat.log2 num : Int) - (Nat.log2 den : Int) - 52
    -- The guess may be one too high.
    let (n, d) := scale num den (-guess)
    let exponent := max (-1074) (if n < Nat.pow 2 52 * d then guess - 1 else guess)
    let (n, d) := scale num den (-exponent)
    let m := roundDiv n d
    let (m, exponent) := if m = Nat.pow 2 53 then (Nat.pow 2 52, exponent + 1) else (m, exponent)
    if exponent > 971 then none else some ⟨m, exponent⟩

/-- The double nearest to a decimal; none if the value is too large for any.  Values beyond any
double are recognised by the position of their first digit, so no huge power is computed. -/
def ofDecimal (d : Decimal) : Option Binary64 :=
  let size : Int := (Nat.toDigits 10 d.digits).length
  if d.digits = 0 then some ⟨0, -1074⟩
  else if d.exponent + size > 400 then none
  else if d.exponent + size < -400 then some ⟨0, -1074⟩
  else match d.exponent with
    | .ofNat k => ofRatio (d.digits * Nat.pow 10 k) 1
    | .negSucc k => ofRatio d.digits (Nat.pow 10 (k + 1))

/-- Twice the double and the two midpoints to its neighbours, over a common denominator: the value,
the lower end and the upper end of the interval that rounds to it, and the denominator. -/
def interval (x : Binary64) : Nat × Nat × Nat × Nat :=
  -- In quarters of a unit, since the gap below a power of two is half the gap above it.
  let value := 4 * x.significand
  let below := if x.significand = Nat.pow 2 52 ∧ x.exponent > -1074 then 1 else 2
  match x.exponent with
  | .ofNat k => (value * Nat.pow 2 k, (value - below) * Nat.pow 2 k, (value + 2) * Nat.pow 2 k, 4)
  | .negSucc k => (value, value - below, value + 2, 4 * Nat.pow 2 (k + 1))

/-- `digits · 10 ^ exponent` lies in the interval of the double, whose ends belong to it when the
significand is even. -/
def readsBack (x : Binary64) (d : Decimal) : Bool :=
  let (_, low, high, den) := interval x
  let (n, m) := match d.exponent with
    | .ofNat k => (d.digits * Nat.pow 10 k, 1)
    | .negSucc k => (d.digits, Nat.pow 10 (k + 1))
  if x.significand % 2 = 0 then low * m ≤ n * den && n * den ≤ high * m
  else low * m < n * den && n * den < high * m

/-- The decimal with exponent `e` that is nearest to the double among the two around it, the greater
one if both are equally near, provided that one of them reads back. -/
def onGrid (x : Binary64) (e : Int) : Option Decimal :=
  let (value, _, _, den) := interval x
  let (n, d) := match e with
    | .ofNat k => (value, den * Nat.pow 10 k)
    | .negSucc k => (value * Nat.pow 10 (k + 1), den)
  let floor : Decimal := ⟨n / d, e⟩
  let ceil : Decimal := ⟨n / d + 1, e⟩
  let nearer := if 2 * (n % d) < d then [floor, ceil] else [ceil, floor]
  nearer.find? fun c => c.digits ≠ 0 && readsBack x c

/-- The position of the leading digit of the double, or one more. -/
def decimalSize (x : Binary64) : Int :=
  let (value, _, _, den) := interval x
  if den ≤ value then (Nat.toDigits 10 (value / den)).length
  else 1 - ((Nat.toDigits 10 (den / value)).length : Int) + 1

/-- The first grid, from the coarsest on, with a decimal that reads back. -/
def firstGrid (x : Binary64) : Nat → Int → Decimal
  | 0, e => ⟨x.significand, e⟩
  | n + 1, e =>
    match onGrid x e with
    | some d => d
    | none => firstGrid x n (e - 1)

/-- The shortest decimal that reads back as the double. -/
def shortest (x : Binary64) : Decimal :=
  if x.significand = 0 then ⟨0, 0⟩ else firstGrid x 20 (decimalSize x)

/-- A decimal written out in full, without an exponent, with at least one digit after the point. -/
def positional (d : Decimal) : Text :=
  let digits := Text.ofNat d.digits
  match d.exponent with
  | .ofNat k => digits ++ (if d.digits = 0 then [] else List.replicate k '0') ++ ".0"
  | .negSucc k =>
    let padded := List.replicate (k + 2 - digits.length) '0' ++ digits
    padded.take (padded.length - (k + 1)) ++ "." ++ padded.drop (padded.length - (k + 1))

/-- The double in decimal, with the fewest digits that read back. -/
def text (x : Binary64) : Text := positional (shortest x)

end Binary64

end FileRoutes
