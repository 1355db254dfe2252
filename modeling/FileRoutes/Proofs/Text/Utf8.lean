import FileRoutes.Text.Utf8
import Mathlib.Data.List.Basic

/-!
# UTF-8, read back

A byte sequence that is read as a text is the encoding of that text (`encode_of_decode?`).  So a
name that was read from a directory can be written into a path again and leads to the same entry,
and two names with the same text are one name (`eq_of_decode?`).  An encoding is read as the text that was
encoded (`decode?_encode`).  A byte that is a character by itself,
such as a slash, occurs in an encoding only where that character does (`mem_encode_iff`), so cutting
bytes at slashes is cutting the text at them.

## The invariant of the machine

The machine in `Text.Utf8` holds the part of a character that it has read.  Such a part is sound
(`Partial.Sound`) if every way to complete it within the announced ranges gives a character whose
encoding begins with the bytes read so far and goes on with the completion.  The six kinds of leading
bytes open sound parts, and a byte in the announced range keeps a part sound.
-/

namespace FileRoutes

namespace Utf8

/-- The character that a piece stands for, if it stands for one. -/
def Piece.char? : Piece → Option Char
  | .char c => some c
  | .broken _ => none

theorem decode?_eq_mapM (bs : Bytes) : decode? bs = (pieces bs).mapM Piece.char? := by
  unfold decode?
  congr 1

/-! ## Encodings by their length -/

theorem toNat_ofNat_of_valid {v : Nat} (hv : v.isValidChar) : (Char.ofNat v).val.toNat = v := by
  rw [Char.ofNat, dif_pos hv]
  rfl

theorem byte_eq {n : Nat} {b : UInt8} (h : n = b.toNat) : UInt8.ofNat n = b := by
  rw [h]
  exact UInt8.ofNat_toNat

/-- One byte. -/
theorem encodeChar_one {b : UInt8} (hb : b.toNat < 0x80) :
    String.utf8EncodeChar (Char.ofNat b.toNat) = [b] := by
  have hv : b.toNat.isValidChar := Or.inl (by omega)
  unfold String.utf8EncodeChar
  simp only [toNat_ofNat_of_valid hv, if_pos (show b.toNat ≤ 127 by omega), UInt8.ofNat_toNat]

/-- Two bytes. -/
theorem encodeChar_two {b k : UInt8} (hb : 0xC2 ≤ b.toNat ∧ b.toNat ≤ 0xDF)
    (hk : 0x80 ≤ k.toNat ∧ k.toNat ≤ 0xBF) :
    String.utf8EncodeChar (Char.ofNat ((b.toNat - 0xC0) * 64 + (k.toNat - 0x80))) = [b, k] := by
  have hv : ((b.toNat - 0xC0) * 64 + (k.toNat - 0x80)).isValidChar := Or.inl (by omega)
  unfold String.utf8EncodeChar
  simp only [toNat_ofNat_of_valid hv]
  rw [if_neg (by omega), if_pos (by omega), byte_eq (b := b) (by omega),
    byte_eq (b := k) (by omega)]

/-- Three bytes, where `v` holds the bits of the first of them. -/
theorem encodeChar_three {b k l : UInt8} {v : Nat} (hb : b.toNat = 0xE0 + v) (hv : v < 16)
    (hk : 0x80 ≤ k.toNat ∧ k.toNat ≤ 0xBF) (hl : 0x80 ≤ l.toNat ∧ l.toNat ≤ 0xBF)
    (hlong : 0x20 ≤ v * 64 + (k.toNat - 0x80))
    (hpair : v * 64 + (k.toNat - 0x80) < 0x360 ∨ 0x37F < v * 64 + (k.toNat - 0x80)) :
    String.utf8EncodeChar
      (Char.ofNat ((v * 64 + (k.toNat - 0x80)) * 64 + (l.toNat - 0x80))) = [b, k, l] := by
  have hvalid : ((v * 64 + (k.toNat - 0x80)) * 64 + (l.toNat - 0x80)).isValidChar := by
    rcases hpair with h | h
    · exact Or.inl (by omega)
    · exact Or.inr ⟨by omega, by omega⟩
  unfold String.utf8EncodeChar
  simp only [toNat_ofNat_of_valid hvalid]
  rw [if_neg (by omega), if_neg (by omega), if_pos (by omega), byte_eq (b := b) (by omega),
    byte_eq (b := k) (by omega), byte_eq (b := l) (by omega)]

/-- Four bytes, where `v` holds the bits of the first of them. -/
theorem encodeChar_four {b k l m : UInt8} {v : Nat} (hb : b.toNat = 0xF0 + v)
    (hk : 0x80 ≤ k.toNat ∧ k.toNat ≤ 0xBF) (hl : 0x80 ≤ l.toNat ∧ l.toNat ≤ 0xBF)
    (hm : 0x80 ≤ m.toNat ∧ m.toNat ≤ 0xBF)
    (hlong : 0x10 ≤ v * 64 + (k.toNat - 0x80)) (hlast : v * 64 + (k.toNat - 0x80) < 0x110) :
    String.utf8EncodeChar
      (Char.ofNat (((v * 64 + (k.toNat - 0x80)) * 64 + (l.toNat - 0x80)) * 64
        + (m.toNat - 0x80))) = [b, k, l, m] := by
  have hvalid : (((v * 64 + (k.toNat - 0x80)) * 64 + (l.toNat - 0x80)) * 64
      + (m.toNat - 0x80)).isValidChar := Or.inr ⟨by omega, by omega⟩
  unfold String.utf8EncodeChar
  simp only [toNat_ofNat_of_valid hvalid]
  rw [if_neg (by omega), if_neg (by omega), if_neg (by omega), byte_eq (b := b) (by omega),
    byte_eq (b := k) (by omega), byte_eq (b := l) (by omega), byte_eq (b := m) (by omega)]

/-! ## Sound parts -/

/-- The value of a character whose missing bytes have been read. -/
def completed (value : Nat) (ks : Bytes) : Nat :=
  ks.foldl (fun v k => v * 64 + (k.toNat - 0x80)) value

theorem completed_cons (value : Nat) (k : UInt8) (ks : Bytes) :
    completed value (k :: ks) = completed (value * 64 + (k.toNat - 0x80)) ks := by
  simp only [completed, List.foldl_cons]

/-- Every completion of the part within the announced ranges gives a character whose encoding is the
bytes read so far and the completion. -/
structure Partial.Sound (p : Partial) : Prop where
  pending : 0 < p.missing
  low : 0x80 ≤ p.low
  high : p.high ≤ 0xBF
  complete : ∀ (k : UInt8) (ks : Bytes), ks.length + 1 = p.missing →
    p.low ≤ k.toNat ∧ k.toNat ≤ p.high → (∀ l ∈ ks, 0x80 ≤ l.toNat ∧ l.toNat ≤ 0xBF) →
    String.utf8EncodeChar (Char.ofNat (completed p.value (k :: ks))) = p.bytes ++ k :: ks

theorem sound_two {b : UInt8} (hb : 0xC2 ≤ b.toNat ∧ b.toNat ≤ 0xDF) :
    Partial.Sound ⟨b.toNat - 0xC0, 1, 0x80, 0xBF, [b]⟩ where
  pending := Nat.one_pos
  low := Nat.le_refl _
  high := Nat.le_refl _
  complete k ks hlen hk _ := by
    obtain rfl : ks = [] := List.length_eq_zero_iff.mp (by simpa using hlen)
    exact encodeChar_two hb hk

theorem sound_three {b : UInt8} {v low high : Nat} (hb : b.toNat = 0xE0 + v) (hv : v < 16)
    (hlow : 0x80 ≤ low) (hhigh : high ≤ 0xBF) (hlong : 0x20 ≤ v * 64 + (low - 0x80))
    (hpair : v * 64 + (high - 0x80) < 0x360 ∨ 0x37F < v * 64 + (low - 0x80)) :
    Partial.Sound ⟨v, 2, low, high, [b]⟩ where
  pending := Nat.two_pos
  low := hlow
  high := hhigh
  complete k ks hlen hk hks := by
    obtain ⟨l, rfl⟩ : ∃ l, ks = [l] := List.length_eq_one_iff.mp (by simpa using hlen)
    have hl := hks l (List.mem_singleton_self l)
    change low ≤ k.toNat ∧ k.toNat ≤ high at hk
    show String.utf8EncodeChar
      (Char.ofNat ((v * 64 + (k.toNat - 0x80)) * 64 + (l.toNat - 0x80))) = [b, k, l]
    exact encodeChar_three hb hv (by omega) hl (by omega) (by omega)

theorem sound_four {b : UInt8} {v low high : Nat} (hb : b.toNat = 0xF0 + v)
    (hlow : 0x80 ≤ low) (hhigh : high ≤ 0xBF) (hlong : 0x10 ≤ v * 64 + (low - 0x80))
    (hlast : v * 64 + (high - 0x80) < 0x110) : Partial.Sound ⟨v, 3, low, high, [b]⟩ where
  pending := by simp only; omega
  low := hlow
  high := hhigh
  complete k ks hlen hk hks := by
    obtain ⟨l, m, rfl⟩ : ∃ l m, ks = [l, m] := List.length_eq_two.mp (by simpa using hlen)
    have hl := hks l (by simp)
    have hm := hks m (by simp)
    change low ≤ k.toNat ∧ k.toNat ≤ high at hk
    show String.utf8EncodeChar
      (Char.ofNat (((v * 64 + (k.toNat - 0x80)) * 64 + (l.toNat - 0x80)) * 64
        + (m.toNat - 0x80))) = [b, k, l, m]
    exact encodeChar_four hb (by omega) hl hm (by omega) (by omega)

/-- What a byte says where a character may begin is right: a character has the byte as its encoding,
and a part that is opened is sound. -/
def Lead.Sound (b : UInt8) : Lead → Prop
  | .whole c => String.utf8EncodeChar c = [b]
  | .opens p => p.Sound ∧ p.bytes = [b]
  | .none => True

theorem sound_lead (b : UInt8) : (lead b).Sound b := by
  have hb : b.toNat < 256 := b.toNat_lt
  unfold lead
  dsimp only
  split
  · exact encodeChar_one ‹_›
  split
  · exact ⟨sound_two ‹_›, rfl⟩
  split
  · exact ⟨sound_three (by omega) (by omega) (by omega) (by omega) (by omega) (by omega), rfl⟩
  split
  · exact ⟨sound_three (by omega) (by omega) (by omega) (by omega) (by omega) (by omega), rfl⟩
  split
  · exact ⟨sound_three (by omega) (by omega) (by omega) (by omega) (by omega) (by omega), rfl⟩
  split
  · exact ⟨sound_four (by omega) (by omega) (by omega) (by omega) (by omega), rfl⟩
  split
  · exact ⟨sound_four (by omega) (by omega) (by omega) (by omega) (by omega), rfl⟩
  split
  · exact ⟨sound_four (by omega) (by omega) (by omega) (by omega) (by omega), rfl⟩
  · trivial

/-- A byte in the announced range, if it is not the last one, keeps a part sound. -/
theorem Partial.Sound.next {p : Partial} (hp : p.Sound) {b : UInt8}
    (hb : p.low ≤ b.toNat ∧ b.toNat ≤ p.high) (hmissing : ¬ p.missing ≤ 1) :
    Partial.Sound ⟨p.value * 64 + (b.toNat - 0x80), p.missing - 1, 0x80, 0xBF, p.bytes ++ [b]⟩ where
  pending := by simp only; omega
  low := Nat.le_refl _
  high := Nat.le_refl _
  complete k ks hlen hk hks := by
    have hall : ∀ l ∈ k :: ks, 0x80 ≤ l.toNat ∧ l.toNat ≤ 0xBF := by
      intro l hl
      rcases List.mem_cons.mp hl with rfl | hl
      · exact hk
      · exact hks l hl
    have hlong : (k :: ks).length + 1 = p.missing := by
      simp only [List.length_cons] at hlen ⊢
      omega
    have h := hp.complete b (k :: ks) hlong hb hall
    rw [completed_cons] at h
    rw [List.append_assoc]
    exact h

/-- The last byte in the announced range completes a part. -/
theorem Partial.Sound.last {p : Partial} (hp : p.Sound) {b : UInt8}
    (hb : p.low ≤ b.toNat ∧ b.toNat ≤ p.high) (hmissing : p.missing ≤ 1) :
    String.utf8EncodeChar (Char.ofNat (p.value * 64 + (b.toNat - 0x80))) = p.bytes ++ [b] := by
  have hpending := hp.pending
  exact hp.complete b [] (by simp only [List.length_nil]; omega) hb (by simp)

/-! ## Reading back -/

/-- The bytes of the character that is being read. -/
def heldBytes : Option Partial → Bytes
  | none => []
  | some p => p.bytes

theorem mapM_char_cons {c : Char} {ps : List Piece} {t : Text}
    (h : (Piece.char c :: ps).mapM Piece.char? = some t) :
    ∃ u, t = c :: u ∧ ps.mapM Piece.char? = some u := by
  rw [List.mapM_cons] at h
  cases hps : ps.mapM Piece.char? with
  | none => simp [Piece.char?, hps] at h
  | some u =>
    refine ⟨u, ?_, rfl⟩
    simpa [Piece.char?, hps] using h.symm

theorem mapM_broken_cons {bs : Bytes} {ps : List Piece} {t : Text} :
    (Piece.broken bs :: ps).mapM Piece.char? ≠ some t := by
  rw [List.mapM_cons]
  simp [Piece.char?]

/-- What the machine reads as a text, it has read from the encoding of that text. -/
theorem encode_of_piecesFrom : ∀ (held : Option Partial) {bs : Bytes} {t : Text},
    (∀ p ∈ held, p.Sound) → (piecesFrom held bs).mapM Piece.char? = some t →
    encode t = heldBytes held ++ bs
  | none, [], t, _, h => by
    rw [piecesFrom, List.mapM_nil] at h
    cases h
    rfl
  | some p, [], t, _, h => by
    rw [piecesFrom] at h
    exact absurd h mapM_broken_cons
  | none, b :: rest, t, _, h => by
    have hlead := sound_lead b
    unfold piecesFrom at h
    simp only [List.nil_append] at h
    cases hl : lead b with
    | whole c =>
      rw [hl] at h hlead
      obtain ⟨u, rfl, hu⟩ := mapM_char_cons h
      have ih := encode_of_piecesFrom none (by simp) hu
      rw [encode, List.flatMap_cons, ← encode, ih, show String.utf8EncodeChar c = [b] from hlead]
      rfl
    | opens p =>
      rw [hl] at h hlead
      obtain ⟨hp, hbytes⟩ : p.Sound ∧ p.bytes = [b] := hlead
      have ih := encode_of_piecesFrom (some p) (by simpa using hp) h
      rw [ih, show heldBytes (some p) = [b] from hbytes]
      rfl
    | none =>
      rw [hl] at h
      exact absurd h mapM_broken_cons
  | some p, b :: rest, t, hheld, h => by
    have hp : p.Sound := hheld p rfl
    unfold piecesFrom at h
    by_cases hb : p.low ≤ b.toNat ∧ b.toNat ≤ p.high
    · simp only [if_pos hb] at h
      by_cases hmissing : p.missing ≤ 1
      · rw [if_pos hmissing] at h
        obtain ⟨u, rfl, hu⟩ := mapM_char_cons h
        have ih := encode_of_piecesFrom none (by simp) hu
        rw [encode, List.flatMap_cons, ← encode, ih, hp.last hb hmissing]
        simp [heldBytes]
      · rw [if_neg hmissing] at h
        have ih := encode_of_piecesFrom (some _) (by simpa using hp.next hb hmissing) h
        rw [ih]
        simp [heldBytes]
    · -- a byte out of range breaks the part, so nothing is read as a text
      simp only [if_neg hb] at h
      cases hlead : lead b <;> rw [hlead] at h <;> exact absurd h mapM_broken_cons

/-- A byte sequence that is read as a text is the encoding of that text. -/
theorem encode_of_decode? {bs : Bytes} {t : Text} (h : decode? bs = some t) : encode t = bs := by
  rw [decode?_eq_mapM] at h
  exact encode_of_piecesFrom none (by simp) h

/-- Byte sequences with the same text are the same. -/
theorem eq_of_decode? {bs cs : Bytes} {t : Text} (hb : decode? bs = some t)
    (hc : decode? cs = some t) : bs = cs := by
  rw [← encode_of_decode? hb, encode_of_decode? hc]

/-! ## Reading what was encoded -/

section Machine

variable {b k : UInt8} {p : Partial} {rest : Bytes}

theorem piecesFrom_whole {c : Char} (h : lead b = .whole c) :
    piecesFrom none (b :: rest) = .char c :: piecesFrom none rest := by
  rw [piecesFrom]
  simp only [h, List.nil_append]

theorem piecesFrom_opens (h : lead b = .opens p) :
    piecesFrom none (b :: rest) = piecesFrom (some p) rest := by
  rw [piecesFrom]
  simp only [h, List.nil_append]

theorem piecesFrom_next (hb : p.low ≤ b.toNat ∧ b.toNat ≤ p.high) (hmissing : ¬ p.missing ≤ 1) :
    piecesFrom (some p) (b :: rest) =
      piecesFrom (some ⟨p.value * 64 + (b.toNat - 0x80), p.missing - 1, 0x80, 0xBF, p.bytes ++ [b]⟩) rest := by
  rw [piecesFrom]
  simp only [if_pos hb, if_neg hmissing]

theorem piecesFrom_last (hb : p.low ≤ b.toNat ∧ b.toNat ≤ p.high) (hmissing : p.missing ≤ 1) :
    piecesFrom (some p) (b :: rest) =
      .char (Char.ofNat (p.value * 64 + (b.toNat - 0x80))) :: piecesFrom none rest := by
  rw [piecesFrom]
  simp only [if_pos hb, if_pos hmissing]

theorem lead_one (hb : b.toNat < 0x80) : lead b = .whole (Char.ofNat b.toNat) := by
  rw [lead, if_pos hb]

theorem lead_two (hb : 0xC2 ≤ b.toNat ∧ b.toNat ≤ 0xDF) :
    lead b = .opens ⟨b.toNat - 0xC0, 1, 0x80, 0xBF, [b]⟩ := by
  rw [lead, if_neg (by omega), if_pos hb]

/-- The first of three bytes announces a range with the second in it. -/
theorem lead_three {v : Nat} (hb : b.toNat = 0xE0 + v) (hv : v < 16)
    (hk : 0x80 ≤ k.toNat ∧ k.toNat ≤ 0xBF) (hlong : 0x20 ≤ v * 64 + (k.toNat - 0x80))
    (hpair : v * 64 + (k.toNat - 0x80) < 0x360 ∨ 0x37F < v * 64 + (k.toNat - 0x80)) :
    ∃ low high, lead b = .opens ⟨v, 2, low, high, [b]⟩ ∧ low ≤ k.toNat ∧ k.toNat ≤ high := by
  rw [lead, if_neg (by omega), if_neg (by omega)]
  by_cases hzero : b.toNat = 0xE0
  · obtain rfl : v = 0 := by omega
    exact ⟨0xA0, 0xBF, if_pos hzero, by omega, by omega⟩
  rw [if_neg hzero]
  by_cases hpairs : b.toNat = 0xED
  · obtain rfl : v = 0xD := by omega
    exact ⟨0x80, 0x9F, if_pos hpairs, by omega, by omega⟩
  rw [if_neg hpairs, if_pos (by omega), hb, Nat.add_sub_cancel_left]
  exact ⟨0x80, 0xBF, rfl, hk⟩

/-- The first of four bytes announces a range with the second in it. -/
theorem lead_four {v : Nat} (hb : b.toNat = 0xF0 + v) (hk : 0x80 ≤ k.toNat ∧ k.toNat ≤ 0xBF)
    (hlong : 0x10 ≤ v * 64 + (k.toNat - 0x80)) (hlast : v * 64 + (k.toNat - 0x80) < 0x110) :
    ∃ low high, lead b = .opens ⟨v, 3, low, high, [b]⟩ ∧ low ≤ k.toNat ∧ k.toNat ≤ high := by
  rw [lead, if_neg (by omega), if_neg (by omega), if_neg (by omega), if_neg (by omega), if_neg (by omega)]
  by_cases hzero : b.toNat = 0xF0
  · obtain rfl : v = 0 := by omega
    exact ⟨0x90, 0xBF, if_pos hzero, by omega, by omega⟩
  rw [if_neg hzero]
  by_cases hfour : b.toNat = 0xF4
  · obtain rfl : v = 4 := by omega
    exact ⟨0x80, 0x8F, by rw [if_neg (by omega), if_pos hfour], by omega, by omega⟩
  rw [if_pos (by omega), hb, Nat.add_sub_cancel_left]
  exact ⟨0x80, 0xBF, rfl, hk⟩

end Machine

/-- An encoded character is read as that character. -/
theorem piecesFrom_encodeChar (c : Char) (rest : Bytes) :
    piecesFrom none (String.utf8EncodeChar c ++ rest) = .char c :: piecesFrom none rest := by
  have hbyte {n : Nat} (hn : n < 256) : (UInt8.ofNat n).toNat = n := UInt8.toNat_ofNat_of_lt' hn
  have hvalid : c.val.toNat < 0xD800 ∨ 0xDFFF < c.val.toNat ∧ c.val.toNat < 0x110000 := c.valid
  have hchar {n : Nat} (hn : n = c.val.toNat) : Char.ofNat n = c := by
    rw [hn]
    exact Char.ofNat_toNat c
  unfold String.utf8EncodeChar
  dsimp only
  split
  · rename_i hv
    have hb := hbyte (show c.val.toNat < 256 by omega)
    rw [List.singleton_append, piecesFrom_whole (lead_one (by omega)), hchar hb]
  split
  · rename_i hv
    simp only [List.cons_append, List.nil_append]
    have hb := hbyte (show c.val.toNat / 64 % 32 + 192 < 256 by omega)
    have hk := hbyte (show c.val.toNat % 64 + 128 < 256 by omega)
    rw [piecesFrom_opens (lead_two (by omega)), piecesFrom_last (by simp only; omega) (Nat.le_refl 1), hchar]
    simp only
    omega
  split
  · rename_i hv
    simp only [List.cons_append, List.nil_append]
    have hb := hbyte (show c.val.toNat / 4096 % 16 + 224 < 256 by omega)
    have hk := hbyte (show c.val.toNat / 64 % 64 + 128 < 256 by omega)
    have hl := hbyte (show c.val.toNat % 64 + 128 < 256 by omega)
    obtain ⟨low, high, hlead, hrange⟩ := lead_three (hb.trans (Nat.add_comm _ _)) (Nat.mod_lt _ (by decide))
      (k := UInt8.ofNat (c.val.toNat / 64 % 64 + 128)) (by omega) (by omega) (by omega)
    rw [piecesFrom_opens hlead, piecesFrom_next hrange (by simp only; omega),
      piecesFrom_last (by simp only; omega) (Nat.le_refl 1), hchar]
    simp only
    omega
  · simp only [List.cons_append, List.nil_append]
    have hb := hbyte (show c.val.toNat / 262144 % 8 + 240 < 256 by omega)
    have hk := hbyte (show c.val.toNat / 4096 % 64 + 128 < 256 by omega)
    have hl := hbyte (show c.val.toNat / 64 % 64 + 128 < 256 by omega)
    have hm := hbyte (show c.val.toNat % 64 + 128 < 256 by omega)
    obtain ⟨low, high, hlead, hrange⟩ := lead_four (hb.trans (Nat.add_comm _ _))
      (k := UInt8.ofNat (c.val.toNat / 4096 % 64 + 128)) (by omega) (by omega) (by omega)
    rw [piecesFrom_opens hlead, piecesFrom_next hrange (by simp only; omega),
      piecesFrom_next (by simp only; omega) (by simp only; omega),
      piecesFrom_last (by simp only; omega) (by simp only; omega), hchar]
    simp only
    omega

/-- An encoded text is read without a broken stretch. -/
theorem pieces_encode (t : Text) : pieces (encode t) = t.map .char := by
  rw [pieces]
  induction t with
  | nil => rfl
  | cons c t ih => rw [encode, List.flatMap_cons, piecesFrom_encodeChar, ← encode, ih, List.map_cons]

/-- What was encoded is read back. -/
theorem decode?_encode (t : Text) : decode? (encode t) = some t := by
  rw [decode?_eq_mapM, pieces_encode, List.mapM_map]
  exact List.mapM_pure.trans (by simp)

/-! ## Single bytes -/

theorem ne_ofNat {b : UInt8} (hb : b.toNat < 0x80) {n : Nat} (hlow : 0x80 ≤ n) (hhigh : n < 256) :
    b ≠ UInt8.ofNat n := by
  intro h
  have hn : b.toNat = n := by rw [h, UInt8.toNat_ofNat_of_lt' hhigh]
  omega

/-- A byte that is a character by itself occurs in the encoding of no other character. -/
theorem mem_encodeChar_iff {b : UInt8} (hb : b.toNat < 0x80) {c : Char} :
    b ∈ String.utf8EncodeChar c ↔ c = Char.ofNat b.toNat := by
  constructor
  · intro h
    unfold String.utf8EncodeChar at h
    dsimp only at h
    split at h
    · rename_i hv
      rw [List.mem_singleton.mp h, UInt8.toNat_ofNat_of_lt' (show c.val.toNat < 256 by omega)]
      exact (Char.ofNat_toNat c).symm
    · -- all bytes of a longer encoding are high
      exfalso
      split at h
      · simp only [List.mem_cons, List.not_mem_nil, or_false] at h
        rcases h with h | h <;> exact ne_ofNat hb (by omega) (by omega) h
      · split at h
        · simp only [List.mem_cons, List.not_mem_nil, or_false] at h
          rcases h with h | h | h <;> exact ne_ofNat hb (by omega) (by omega) h
        · simp only [List.mem_cons, List.not_mem_nil, or_false] at h
          rcases h with h | h | h | h <;> exact ne_ofNat hb (by omega) (by omega) h
  · rintro rfl
    rw [encodeChar_one hb]
    exact List.mem_singleton_self b

/-- A byte that is a character by itself occurs in an encoding exactly where that character does. -/
theorem mem_encode_iff {b : UInt8} (hb : b.toNat < 0x80) {t : Text} :
    b ∈ encode t ↔ Char.ofNat b.toNat ∈ t := by
  rw [encode, List.mem_flatMap]
  constructor
  · rintro ⟨c, hc, h⟩
    rw [← (mem_encodeChar_iff hb).mp h]
    exact hc
  · exact fun h => ⟨_, h, (mem_encodeChar_iff hb).mpr rfl⟩

/-- Texts with the same encoding are the same. -/
theorem encode_injective {t u : Text} (h : encode t = encode u) : t = u := by
  have hbytes : t.utf8Encode = u.utf8Encode := congrArg List.toByteArray h
  rw [← String.toByteArray_ofList, ← String.toByteArray_ofList, String.toByteArray_inj] at hbytes
  simpa using congrArg String.toList hbytes

end Utf8

end FileRoutes
