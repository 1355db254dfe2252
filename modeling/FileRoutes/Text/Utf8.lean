import FileRoutes.Text.Basic

/-!
# Texts as bytes

File names and file contents are byte sequences; texts are written into them in UTF-8.  Reading has
to cope with bytes that are no UTF-8, so it is done in two steps.  `pieces` cuts a byte sequence
into characters and broken stretches, and the two readers differ only in what they make of a broken
stretch: `decode?` refuses the whole sequence, `decodeLossy` puts one replacement character in its
place.

## Where a broken stretch ends

A stretch is the longest beginning of some character's encoding that the bytes offer.  So a
character that is cut short gives one stretch, however many of its bytes are there, while a byte
that starts no character, such as a lone continuation byte, is a stretch of its own.  The reader is
a machine that takes one byte at a time: `Partial` holds what has been read of a character, how many
bytes are still missing, and the range the next of them has to lie in.  The range is narrower than
that of all continuation bytes after four of the leading bytes, which is what rules out overlong
forms, surrogates and values above the last code point.
-/

namespace FileRoutes

/-- A sequence of bytes. -/
abbrev Bytes := List UInt8

/-- The order of byte sequences: at the first difference the smaller byte comes first, and a
beginning comes before what it begins. -/
def Bytes.le : Bytes → Bytes → Bool
  | [], _ => true
  | _ :: _, [] => false
  | a :: as, b :: bs => if a = b then Bytes.le as bs else a < b

namespace Utf8

/-- The bytes of a text. -/
def encode (t : Text) : Bytes := t.flatMap String.utf8EncodeChar

/-- A part of a byte sequence: an encoded character, or bytes that encode none. -/
inductive Piece where
  | char (c : Char)
  | broken (bytes : Bytes)

/-- A character of which at least one byte is missing. -/
structure Partial where
  /-- The bits read so far. -/
  value : Nat
  /-- How many bytes are missing, the next one included. -/
  missing : Nat
  /-- The least value of the next byte. -/
  low : Nat
  /-- The greatest value of the next byte. -/
  high : Nat
  /-- The bytes read so far. -/
  bytes : Bytes

/-- What a byte says where a character may begin. -/
inductive Lead where
  /-- It is a character by itself. -/
  | whole (c : Char)
  /-- It begins a longer one. -/
  | opens (p : Partial)
  /-- No character begins with it. -/
  | none

/-- Classifies the first byte of a character. -/
def lead (b : UInt8) : Lead :=
  let n := b.toNat
  if n < 0x80 then .whole (Char.ofNat n)
  else if 0xC2 ≤ n ∧ n ≤ 0xDF then .opens ⟨n - 0xC0, 1, 0x80, 0xBF, [b]⟩
  else if n = 0xE0 then .opens ⟨0, 2, 0xA0, 0xBF, [b]⟩
  else if n = 0xED then .opens ⟨0xD, 2, 0x80, 0x9F, [b]⟩
  else if 0xE1 ≤ n ∧ n ≤ 0xEF then .opens ⟨n - 0xE0, 2, 0x80, 0xBF, [b]⟩
  else if n = 0xF0 then .opens ⟨0, 3, 0x90, 0xBF, [b]⟩
  else if 0xF1 ≤ n ∧ n ≤ 0xF3 then .opens ⟨n - 0xF0, 3, 0x80, 0xBF, [b]⟩
  else if n = 0xF4 then .opens ⟨4, 3, 0x80, 0x8F, [b]⟩
  else .none

/-- The machine: `held` is the character that is being read, if one is. -/
def piecesFrom : Option Partial → Bytes → List Piece
  | none, [] => []
  | some p, [] => [.broken p.bytes]
  | held, b :: rest =>
    let restart (before : List Piece) : List Piece :=
      match lead b with
      | .whole c => before ++ .char c :: piecesFrom none rest
      | .opens p => before ++ piecesFrom (some p) rest
      | .none => before ++ .broken [b] :: piecesFrom none rest
    match held with
    | none => restart []
    | some p =>
      if p.low ≤ b.toNat ∧ b.toNat ≤ p.high then
        let value := p.value * 64 + (b.toNat - 0x80)
        if p.missing ≤ 1 then .char (Char.ofNat value) :: piecesFrom none rest
        else piecesFrom (some ⟨value, p.missing - 1, 0x80, 0xBF, p.bytes ++ [b]⟩) rest
      else restart [.broken p.bytes]

/-- The characters and broken stretches of a byte sequence, in order. -/
def pieces (bs : Bytes) : List Piece := piecesFrom none bs

/-- The text that a byte sequence encodes, if all of it is UTF-8. -/
def decode? (bs : Bytes) : Option Text :=
  (pieces bs).mapM fun
    | .char c => some c
    | .broken _ => none

/-- The text of a byte sequence, with a replacement character for each broken stretch. -/
def decodeLossy (bs : Bytes) : Text :=
  (pieces bs).map fun
    | .char c => c
    | .broken _ => '\uFFFD'

end Utf8

end FileRoutes
