import FileRoutes.Yaml.Token
import Mathlib.Data.List.Basic

/-!
# The tokens of a mapping in lines

A mapping may be written in lines, each with an identifier as its key, a colon, and a value of printable
characters in quotation marks (`IsEntry`, `entryLine`).  This is the simplest form that a file of conventions
has, and here its tokens are told.

## One line

The tokenizer reads three things of a line.  The identifier is a plain scalar, and since a key may begin
there its token is held back.  The colon behind it is on the same line and less than 1024 bytes away, so the
place of the key still counts: the tokens that announce the key, and on the first line the one that opens the
mapping, are put in front of the scalar (`keyTokens`).  The value ends at the second quotation mark, and stands
where no key may begin.  `run_line` puts the three readings together, for a queue of any tokens that are not
held back.

## All lines

At the end of a line the token of the value is in the queue, and a break leads to the next line, which begins
in the first column again, so the mapping stays open.  The induction over the lines has this state as its
invariant (`topLevel`); the end of the text closes the mapping, whether or not there is a break in front of it
(`run_moreLines`).  The text can be read to its end and has no other breaks, so the readings are those of its
characters (`ofText_of_printable`), and there are enough of them, since a line has more than three characters.
-/

namespace FileRoutes.Yaml

/-! ## Lines -/

/-- A character of an identifier. -/
def isIdentifierChar (c : Char) : Bool := c.isLower || c.isDigit || c = '_'

/-- A lower-case identifier, which does not begin with a digit. -/
def isIdentifier : Text → Bool
  | [] => false
  | c :: rest => !c.isDigit && (c :: rest).all isIdentifierChar

/-- A character that stands for itself between quotation marks: one of the printable characters of ASCII, but no
quotation mark and no backslash. -/
def isPlainChar (c : Char) : Bool := 0x20 ≤ c.toNat && c.toNat ≤ 0x7E && c ≠ '"' && c ≠ '\\'

/-- A key and its value, as they may stand on a line. -/
structure IsEntry (e : Text × Text) : Prop where
  identifier : isIdentifier e.1 = true
  short : e.1.length ≤ 1000
  plain : e.2.all isPlainChar = true

instance (e : Text × Text) : Decidable (IsEntry e) :=
  decidable_of_iff (isIdentifier e.1 = true ∧ e.1.length ≤ 1000 ∧ e.2.all isPlainChar = true)
    ⟨fun ⟨hkey, hshort, hvalue⟩ => ⟨hkey, hshort, hvalue⟩,
      fun ⟨hkey, hshort, hvalue⟩ => ⟨hkey, hshort, hvalue⟩⟩

/-- The line of an entry. -/
def entryLine (e : Text × Text) : Text := e.1 ++ ':' :: ' ' :: '"' :: (e.2 ++ ['"'])

/-- What is behind the first line. -/
def moreLines (closing : Text) (es : List (Text × Text)) : Text := es.flatMap ('\n' :: entryLine ·) ++ closing

theorem entryLine_append (e : Text × Text) (t : Text) :
    entryLine e ++ t = e.1 ++ ':' :: ' ' :: '"' :: (e.2 ++ '"' :: t) := by
  simp [entryLine]

theorem moreLines_cons (closing : Text) (e : Text × Text) (es : List (Text × Text)) :
    moreLines closing (e :: es) = '\n' :: (entryLine e ++ moreLines closing es) := by
  simp [moreLines]

theorem join_entryLines (closing : Text) (e : Text × Text) (es : List (Text × Text)) :
    Text.join ['\n'] ((e :: es).map entryLine) ++ closing = entryLine e ++ moreLines closing es := by
  induction es generalizing e with
  | nil => simp [Text.join, moreLines]
  | cons f es ih =>
    have hrest := ih f
    rw [List.map_cons] at hrest
    rw [List.map_cons, List.map_cons, Text.join, List.append_assoc, hrest, moreLines_cons]
    simp

theorem three_le_length_entryLine (e : Text × Text) : 3 ≤ (entryLine e).length := by
  simp only [entryLine, List.length_append, List.length_cons]
  omega

theorem length_moreLines (closing : Text) (es : List (Text × Text)) :
    3 * es.length ≤ (moreLines closing es).length := by
  induction es with
  | nil => exact Nat.zero_le _
  | cons e es ih =>
    have hline := three_le_length_entryLine e
    rw [moreLines_cons, List.length_cons, List.length_cons, List.length_append]
    omega

/-! ## Characters -/

section Characters

variable {c d : Char}

theorem ne_of_isIdentifierChar (h : isIdentifierChar c = true) (hd : isIdentifierChar d = false) : c ≠ d := by
  rintro rfl
  rw [h] at hd
  cases hd

theorem all_of_isIdentifier {key : Text} (h : isIdentifier key = true) :
    key ≠ [] ∧ key.all isIdentifierChar = true := by
  cases key with
  | nil => cases h
  | cons c key => exact ⟨List.cons_ne_nil _ _, (Bool.and_eq_true_iff.mp h).2⟩

theorem toNat_of_isIdentifierChar (h : isIdentifierChar c = true) : 0x30 ≤ c.toNat ∧ c.toNat ≤ 0x7A := by
  simp only [isIdentifierChar, Bool.or_eq_true, decide_eq_true_eq] at h
  rcases h with (hlower | hdigit) | rfl
  · obtain ⟨hlow, hhigh⟩ := Bool.and_eq_true_iff.mp hlower
    exact ⟨Nat.le_trans (by decide) (UInt32.le_iff_toNat_le.mp (of_decide_eq_true hlow)),
      UInt32.le_iff_toNat_le.mp (of_decide_eq_true hhigh)⟩
  · obtain ⟨hlow, hhigh⟩ := Bool.and_eq_true_iff.mp hdigit
    exact ⟨UInt32.le_iff_toNat_le.mp (of_decide_eq_true hlow),
      Nat.le_trans (UInt32.le_iff_toNat_le.mp (of_decide_eq_true hhigh)) (by decide)⟩
  · decide

theorem isPlainChar_of_isIdentifierChar (h : isIdentifierChar c = true) : isPlainChar c = true := by
  obtain ⟨hlow, hhigh⟩ := toNat_of_isIdentifierChar h
  have hquote := ne_of_isIdentifierChar h (show isIdentifierChar '"' = false by decide)
  have hslash := ne_of_isIdentifierChar h (show isIdentifierChar '\\' = false by decide)
  simp only [isPlainChar, Bool.and_eq_true, decide_eq_true_eq]
  exact ⟨⟨⟨by omega, by omega⟩, hquote⟩, hslash⟩

theorem toNat_of_isPlainChar (h : isPlainChar c = true) : 0x20 ≤ c.toNat ∧ c.toNat ≤ 0x7E := by
  simp only [isPlainChar, Bool.and_eq_true, decide_eq_true_eq] at h
  exact h.1.1

theorem ne_of_toNat (h : c.toNat ≠ d.toNat) : c ≠ d := fun heq => h (congrArg Char.toNat heq)

theorem isBreak_of_isPlainChar (h : isPlainChar c = true) : isBreak c = false := by
  obtain ⟨hlow, hhigh⟩ := toNat_of_isPlainChar h
  have hfeed : c ≠ '\n' := ne_of_toNat (Nat.ne_of_gt (Nat.lt_of_lt_of_le (by decide) hlow))
  have hline : c ≠ '\u2028' := ne_of_toNat (Nat.ne_of_lt (Nat.lt_of_le_of_lt hhigh (by decide)))
  have hparagraph : c ≠ '\u2029' := ne_of_toNat (Nat.ne_of_lt (Nat.lt_of_le_of_lt hhigh (by decide)))
  simp [isBreak, hfeed, hline, hparagraph]

theorem isSpace_of_isIdentifierChar (h : isIdentifierChar c = true) : isSpace c = false := by
  have hblank := ne_of_isIdentifierChar h (show isIdentifierChar ' ' = false by decide)
  have htab := ne_of_isIdentifierChar h (show isIdentifierChar '\t' = false by decide)
  simp [isSpace, isBlank, hblank, htab, isBreak_of_isPlainChar (isPlainChar_of_isIdentifierChar h)]

/-- An identifier begins with no character that means something at the beginning of a token. -/
theorem isIndicator_of_isIdentifierChar (h : isIdentifierChar c = true) : Tokenizer.isIndicator c = false := by
  rw [Tokenizer.isIndicator, decide_eq_false_iff_not]
  intro hmem
  have hall : ['-', '?', ':', ',', '[', ']', '\x7b', '\x7d', '#', '&', '*', '!', '|', '>', '\'', '"', '%', '@',
    '\x60'].all (fun d => !isIdentifierChar d) = true := by decide
  have hnot := List.all_eq_true.mp hall c hmem
  rw [h] at hnot
  cases hnot

theorem utf8Size_of_isPlainChar (h : isPlainChar c = true) : c.utf8Size = 1 := by
  have hhigh := (toNat_of_isPlainChar h).2
  rw [Char.utf8Size, if_pos (UInt32.le_iff_toNat_le.mpr (Nat.le_trans hhigh (by decide)))]

/-- Plain characters take one byte each, and stay on the line. -/
theorem afterAll_of_plain {t : Text} (h : t.all isPlainChar = true) (m : Mark) :
    m.afterAll t = ⟨m.index + t.length, m.line, m.column + t.length⟩ := by
  induction t generalizing m with
  | nil => rfl
  | cons c t ih =>
    obtain ⟨hc, ht⟩ := Bool.and_eq_true_iff.mp (List.all_cons.symm.trans h)
    rw [Mark.afterAll, List.foldl_cons, ← Mark.afterAll, ih ht, Mark.after, isBreak_of_isPlainChar hc,
      if_neg Bool.false_ne_true, utf8Size_of_isPlainChar hc, List.length_cons]
    simp only [Nat.add_assoc, Nat.add_comm 1]

end Characters

/-! ## Sources -/

theorem readableCount?_eq_none {t : Text} (h : ∀ c ∈ t, isAllowed c = true) (earlier held room : Nat) :
    readableCount? earlier held room t = none := by
  induction t generalizing earlier held room with
  | nil => rfl
  | cons c t ih =>
    obtain ⟨hc, ht⟩ := List.forall_mem_cons.mp h
    rw [readableCount?, hc]
    split
    · exact ih ht _ _ _
    · exact ih ht _ _ _

theorem unifyBreaks_eq {t : Text} (h : ∀ c ∈ t, c ≠ '\r' ∧ c ≠ '\u0085') : unifyBreaks t = t := by
  induction t with
  | nil => rfl
  | cons c t ih =>
    obtain ⟨⟨hreturn, hnext⟩, ht⟩ := List.forall_mem_cons.mp h
    rw [unifyBreaks, ih ht]
    · simp [hreturn, hnext]
    · rintro rest rfl
      exact absurd rfl hreturn

/-- A text of printable characters and line feeds can be read, and is left as it is. -/
theorem ofText_of_printable {t : Text} (h : ∀ c ∈ t, c = '\n' ∨ 0x20 ≤ c.toNat ∧ c.toNat ≤ 0x7E) :
    Source.ofText t = ⟨t, false⟩ := by
  have hallowed : ∀ c ∈ t, isAllowed c = true := by
    intro c hc
    rcases h c hc with rfl | ⟨hlow, hhigh⟩
    · rfl
    · simp [isAllowed, hlow, hhigh]
  have hbreaks : ∀ c ∈ t, c ≠ '\r' ∧ c ≠ '\u0085' := by
    intro c hc
    rcases h c hc with rfl | ⟨hlow, hhigh⟩
    · decide
    · exact ⟨ne_of_toNat (Nat.ne_of_gt (Nat.lt_of_lt_of_le (by decide) hlow)),
        ne_of_toNat (Nat.ne_of_lt (Nat.lt_of_le_of_lt hhigh (by decide)))⟩
  rw [Source.ofText, readableCount?_eq_none hallowed, unifyBreaks_eq hbreaks]

/-- The characters of lines. -/
theorem printable_of_mem_lines {closing : Text} (hclosing : closing = [] ∨ closing = ['\n']) {e : Text × Text}
    {es : List (Text × Text)} (hes : ∀ f ∈ e :: es, IsEntry f) :
    ∀ c ∈ entryLine e ++ moreLines closing es, c = '\n' ∨ 0x20 ≤ c.toNat ∧ c.toNat ≤ 0x7E := by
  have hline : ∀ f ∈ e :: es, ∀ c ∈ entryLine f, 0x20 ≤ c.toNat ∧ c.toNat ≤ 0x7E := by
    intro f hf c hc
    obtain ⟨hidentifier, -, hplain⟩ := hes f hf
    have hall := (all_of_isIdentifier hidentifier).2
    simp only [entryLine, List.mem_append, List.mem_cons, List.not_mem_nil, or_false] at hc
    rcases hc with hc | rfl | rfl | rfl | hc | rfl
    · exact toNat_of_isPlainChar (isPlainChar_of_isIdentifierChar (List.all_eq_true.mp hall c hc))
    · decide
    · decide
    · decide
    · exact toNat_of_isPlainChar (List.all_eq_true.mp hplain c hc)
    · decide
  intro c hc
  simp only [moreLines, List.mem_append, List.mem_flatMap, List.mem_cons] at hc
  rcases hc with hc | ⟨f, hf, rfl | hc⟩ | hc
  · exact Or.inr (hline e List.mem_cons_self c hc)
  · exact Or.inl rfl
  · exact Or.inr (hline f (List.mem_cons_of_mem e hf) c hc)
  · rcases hclosing with rfl | rfl
    · cases hc
    · exact Or.inl (List.mem_singleton.mp hc)

/-! ## Scalars -/

/-- An identifier is read up to the colon behind it. -/
theorem readPlain_identifier {key : Text} (h : key.all isIdentifierChar = true) (margin : Nat) (rest : Text)
    (m : Mark) :
    PlainScalar.read? false margin (key ++ ':' :: ' ' :: rest) m none =
      some ⟨key, ⟨':' :: ' ' :: rest, m.afterAll key⟩, false⟩ := by
  induction key generalizing m with
  | nil => rfl
  | cons c key ih =>
    obtain ⟨hc, hkey⟩ := Bool.and_eq_true_iff.mp (List.all_cons.symm.trans h)
    have hcolon : c ≠ ':' := ne_of_isIdentifierChar hc (by decide)
    rw [List.cons_append, PlainScalar.read?, isSpace_of_isIdentifierChar hc, ih hkey]
    simp [hcolon, PlainScalar.behind, Gap.text, Gap.empty, Mark.afterAll]

/-- Plain characters are read up to the closing quotation mark.  Blanks are kept apart until a word follows. -/
theorem readQuoted_plain {value : Text} (h : value.all isPlainChar = true) (blanks rest : Text) {m : Mark}
    (hm : m.column ≠ 0) :
    QuotedScalar.read? true (value ++ '"' :: rest) m (.words ⟨blanks, false, none, []⟩) =
      some (blanks ++ value, ⟨rest, (m.afterAll value).after '"'⟩) := by
  induction value generalizing m blanks with
  | nil =>
    rw [List.nil_append, QuotedScalar.read?, List.append_nil]
    simp [show isSpace '"' = false by decide, hm, Gap.text, Mark.afterAll]
  | cons c value ih =>
    obtain ⟨hc, hvalue⟩ := Bool.and_eq_true_iff.mp (List.all_cons.symm.trans h)
    have hbreak := isBreak_of_isPlainChar hc
    have hcolumn : (m.after c).column ≠ 0 := by simp [Mark.after, hbreak]
    rw [List.cons_append, QuotedScalar.read?]
    cases hspace : isSpace c with
    | true =>
      rw [if_pos rfl, Gap.add, hbreak, if_neg Bool.false_ne_true, Gap.addBlank, if_neg Bool.false_ne_true,
        ih hvalue _ hcolumn, List.append_assoc]
      rfl
    | false =>
      have hquote : c ≠ '"' := by
        rintro rfl
        cases hc
      have hslash : c ≠ '\\' := by
        rintro rfl
        cases hc
      simp [hm, hquote, hslash, Gap.empty, ih hvalue [] hcolumn, QuotedScalar.behind, Gap.text, Mark.afterAll]

/-! ## The tokenizer -/

namespace Tokenizer

/-- The tokenizer outside of brackets, in a text that can be read to its end.  At most one collection is open,
and that begins in the first column. -/
def topLevel (cursor : Cursor) (queue : List Token) (given : Nat) (isOpen : Bool) (place? : Option KeyPlace)
    (keyAllowed : Bool) : Tokenizer :=
  ⟨cursor, false, queue, given, if isOpen then 1 else 0, if isOpen then [0] else [], place?, [], keyAllowed⟩

section Runs

variable {s : Tokenizer} {c : Cursor} {q : List Token} {t : Token} {given : Nat} {isOpen keyAllowed : Bool}
  {p : KeyPlace}

/-- A collection is not closed by what is to the right of its margin. -/
theorem unroll_of_le {limit : Nat} (h : s.margin ≤ limit) : s.unroll limit = s := by
  have hclose : closeTo limit s.mark s.margins s.margin [] = (s.margin, s.margins, []) := by
    cases s.margins with
    | nil => rfl
    | cons outer margins => rw [closeTo, if_neg (Nat.not_lt.mpr h)]
  rw [unroll, hclose]
  simp

theorem dropStale?_of_none :
    (topLevel c q given isOpen none keyAllowed).dropStale? = some (topLevel c q given isOpen none keyAllowed) :=
  rfl

theorem dropStale?_of_fresh (h : KeyPlace.isStale c.mark p = false) :
    (topLevel c q given isOpen (some p) keyAllowed).dropStale? =
      some (topLevel c q given isOpen (some p) keyAllowed) := by
  simp [dropStale?, topLevel, refresh?, mark, h]

theorem release_of_none (q q' : List Token) (given : Nat) :
    (topLevel c q' given isOpen none keyAllowed).release q =
      (q, topLevel c [] (given + q.length) isOpen none keyAllowed) := by
  induction q generalizing given with
  | nil => rfl
  | cons t q ih =>
    have hrest : release { topLevel c q' given isOpen none keyAllowed with given := given + 1 } q =
        (q, topLevel c [] (given + 1 + q.length) isOpen none keyAllowed) := ih (given + 1)
    rw [release, if_neg (by simp [isHeld, topLevel])]
    simp only [topLevel] at hrest ⊢
    rw [hrest, List.length_cons, Nat.add_assoc, Nat.add_comm 1]

/-- Tokens that are not held back are given away. -/
theorem run_of_none (hend : ∀ t ∈ q, t.isEnd = false)
    (h : (topLevel c [] (given + q.length) isOpen none keyAllowed).fetch? = some s) (n : Nat) :
    run (n + 1) (topLevel c q given isOpen none keyAllowed) = q ++ run n s := by
  have hnone : q.any (·.isEnd) = false := List.any_eq_false.mpr fun t ht => by simp [hend t ht]
  have hqueue : (topLevel c q given isOpen none keyAllowed).queue = q := rfl
  rw [run, dropStale?_of_none, ite_self]
  simp only [hqueue, release_of_none q q given, hnone, h, Bool.false_eq_true, if_false]

/-- The end of the text is the last token. -/
theorem run_of_end (hend : ∃ t ∈ q, t.isEnd = true) (n : Nat) :
    run (n + 1) (topLevel c q given isOpen none keyAllowed) = q := by
  have hsome : q.any (·.isEnd) = true := List.any_eq_true.mpr hend
  have hqueue : (topLevel c q given isOpen none keyAllowed).queue = q := rfl
  rw [run, dropStale?_of_none, ite_self]
  simp only [hqueue, release_of_none q q given, hsome, if_true]

/-- A token at a place where a key may begin is held back. -/
theorem run_of_held (hfresh : KeyPlace.isStale c.mark p = false) (hnumber : p.number = given)
    (h : (topLevel c [t] given isOpen (some p) keyAllowed).fetch? = some s) (n : Nat) :
    run (n + 1) (topLevel c [t] given isOpen (some p) keyAllowed) = run n s := by
  have hheld : (topLevel c [t] given isOpen (some p) keyAllowed).isHeld = true := by
    simp [isHeld, topLevel, hnumber]
  have hqueue : (topLevel c [t] given isOpen (some p) keyAllowed).queue = [t] := rfl
  have hsame : ({ topLevel c [t] given isOpen (some p) keyAllowed with queue := [t] } : Tokenizer) =
      topLevel c [t] given isOpen (some p) keyAllowed := rfl
  rw [run, dropStale?_of_fresh hfresh, ite_self]
  simp only [hqueue, release, hheld, hsame, h, if_true, List.any_nil, Bool.false_eq_true, if_false,
    List.nil_append]

/-- The next token is read behind the gap, and closes no collection. -/
theorem fetch?_eq {c' : Cursor} {place? : Option KeyPlace} {keyAllowed' : Bool}
    (hskip : skipGap false c.rest c.mark keyAllowed false = (c', keyAllowed'))
    (hstale : (topLevel c' q given isOpen place? keyAllowed').dropStale? =
      some (topLevel c' q given isOpen place? keyAllowed'))
    (h : (topLevel c' q given isOpen place? keyAllowed').fetchToken? = some s) (hcut : s.isCut = false) :
    (topLevel c q given isOpen place? keyAllowed).fetch? = some s := by
  have hmargin : (topLevel c' q given isOpen place? keyAllowed').margin ≤
      (topLevel c' q given isOpen place? keyAllowed').mark.column + 1 := by
    cases isOpen
    · exact Nat.zero_le _
    · exact Nat.le_add_left 1 _
  have hgap : skipGap (topLevel c q given isOpen place? keyAllowed).inFlow
      (topLevel c q given isOpen place? keyAllowed).cursor.rest
      (topLevel c q given isOpen place? keyAllowed).mark
      (topLevel c q given isOpen place? keyAllowed).keyAllowed false = (c', keyAllowed') := hskip
  have hbehind : ({ topLevel c q given isOpen place? keyAllowed with
      cursor := c', keyAllowed := keyAllowed' } : Tokenizer) =
        topLevel c' q given isOpen place? keyAllowed' := rfl
  have hsees : (topLevel c' q given isOpen place? keyAllowed').sees 4 = true := rfl
  rw [fetch?]
  simp only [hgap, hbehind, hstale, bind, Option.bind, hsees, unroll_of_le hmargin, h]
  simp [sees, hcut]

end Runs

/-! ## Single tokens -/

section Tokens

variable (given : Nat) (isOpen : Bool) (m : Mark) (rest : Text)

theorem isDocumentMarker_of_ne {c : Char} (hhyphen : c ≠ '-') (hdot : c ≠ '.') (t : Text) :
    isDocumentMarker (c :: t) = false := by
  unfold isDocumentMarker
  split
  · rename_i heq
    exact absurd (List.cons.inj heq).1 hhyphen
  · rename_i heq
    exact absurd (List.cons.inj heq).1 hdot
  · rfl

/-- No other token begins as an identifier does. -/
theorem fetchToken?_eq_fetchPlain? {c : Char} {t : Text} (h : isIdentifierChar c = true)
    {place? : Option KeyPlace} {keyAllowed : Bool} {q : List Token} :
    (topLevel ⟨c :: t, m⟩ q given isOpen place? keyAllowed).fetchToken? =
      (topLevel ⟨c :: t, m⟩ q given isOpen place? keyAllowed).fetchPlain? := by
  have hindicator := isIndicator_of_isIdentifierChar h
  have htab : c ≠ '\t' := ne_of_isIdentifierChar h (by decide)
  have hmarker : isDocumentMarker (c :: t) = false :=
    isDocumentMarker_of_ne (ne_of_isIdentifierChar h (by decide)) (ne_of_isIdentifierChar h (by decide)) t
  have hne : ∀ d, isIndicator d = true → c ≠ d := by
    rintro d hd rfl
    rw [hindicator] at hd
    cases hd
  have hcursor : (topLevel ⟨c :: t, m⟩ q given isOpen place? keyAllowed).cursor.rest = c :: t := rfl
  rw [fetchToken?, hcursor]
  simp [hmarker, hindicator, htab, hne '%' (by decide), hne '[' (by decide), hne '\x7b' (by decide),
    hne ']' (by decide), hne '\x7d' (by decide), hne ',' (by decide), hne '-' (by decide), hne '?' (by decide),
    hne ':' (by decide), hne '*' (by decide), hne '&' (by decide), hne '!' (by decide), hne '|' (by decide),
    hne '>' (by decide), hne '\'' (by decide), hne '"' (by decide)]

/-- An identifier is held back, since it may be a key. -/
theorem fetchToken?_identifier {key : Text} (h : isIdentifier key = true) :
    ∃ p : KeyPlace, p.number = given ∧ p.mark = m ∧
      (topLevel ⟨key ++ ':' :: ' ' :: rest, m⟩ [] given isOpen none true).fetchToken? =
        some (topLevel ⟨':' :: ' ' :: rest, m.afterAll key⟩ [⟨.scalar true key, m, m.afterAll key⟩] given isOpen
          (some p) false) := by
  obtain ⟨hne, hall⟩ := all_of_isIdentifier h
  obtain ⟨c, key, rfl⟩ := List.exists_cons_of_ne_nil hne
  have hread := readPlain_identifier hall (if isOpen then 1 else 0) rest m
  rw [List.cons_append] at hread ⊢
  rw [fetchToken?_eq_fetchPlain? given isOpen m (Bool.and_eq_true_iff.mp (List.all_cons.symm.trans hall)).1]
  refine ⟨⟨decide ((if isOpen then 1 else 0) = m.column + 1), given, m⟩, rfl, rfl, ?_⟩
  simp [fetchPlain?, topLevel, savePlace?, dropPlace?, inFlow, mark, hread, takeTo]
  rfl

/-- The token of a key with those that announce it and the one of the colon behind it. -/
def keyTokens (isOpen : Bool) (t : Token) (m m₁ m₂ : Mark) : List Token :=
  (if isOpen then [] else [⟨.blockMappingStart, m, m⟩]) ++ [⟨.key, m, m⟩, t, ⟨.value, m₁, m₂⟩]

theorem isEnd_of_mem_keyTokens {t u : Token} {m m₁ m₂ : Mark} (ht : t.isEnd = false)
    (hu : u ∈ keyTokens isOpen t m m₁ m₂) : u.isEnd = false := by
  cases isOpen <;> simp only [keyTokens, Bool.false_eq_true, if_false, if_true, List.nil_append, List.cons_append,
    List.mem_cons, List.not_mem_nil, or_false] at hu
  · rcases hu with rfl | rfl | rfl | rfl <;> first | rfl | exact ht
  · rcases hu with rfl | rfl | rfl <;> first | rfl | exact ht

/-- The colon behind a key puts the tokens that announce the key in front of it. -/
theorem fetchToken?_colon {p : KeyPlace} (t : Token) (hnumber : p.number = given)
    (hmark : p.mark.column = 0) :
    (topLevel ⟨':' :: ' ' :: rest, m⟩ [t] given isOpen (some p) false).fetchToken? =
      some (topLevel ⟨' ' :: rest, m.after ':'⟩ (keyTokens isOpen t p.mark m (m.after ':')) given true none
        false) := by
  have hcolon : (topLevel ⟨':' :: ' ' :: rest, m⟩ [t] given isOpen (some p) false).fetchToken? =
      (topLevel ⟨':' :: ' ' :: rest, m⟩ [t] given isOpen (some p) false).fetchColon? := by
    rw [fetchToken?]
    simp [topLevel, inFlow, isDocumentMarker, endsWord, isSpace, isBlank]
  rw [hcolon]
  cases isOpen <;>
    simp [fetchColon?, topLevel, keyTokens, insertAt, hnumber, hmark, opens, inFlow, indent, take, Cursor.skip, mark,
      Mark.afterAll]

/-- A scalar in quotation marks is read to its end.  It stands where no key may begin. -/
theorem fetchToken?_quoted {value : Text} (h : value.all isPlainChar = true) :
    ∃ m', (topLevel ⟨'"' :: (value ++ '"' :: rest), m⟩ [] given isOpen none false).fetchToken? =
      some (topLevel ⟨rest, m'⟩ [⟨.scalar false value, m, m'⟩] given isOpen none false) := by
  have hquoted : (topLevel ⟨'"' :: (value ++ '"' :: rest), m⟩ [] given isOpen none false).fetchToken? =
      (topLevel ⟨'"' :: (value ++ '"' :: rest), m⟩ [] given isOpen none false).fetchQuoted? true := by
    rw [fetchToken?]
    simp [topLevel, isDocumentMarker]
  have hcolumn : (m.after '"').column ≠ 0 := by simp [Mark.after, isBreak]
  have hread := readQuoted_plain h [] rest hcolumn
  refine ⟨((m.after '"').afterAll value).after '"', ?_⟩
  rw [hquoted]
  simp [fetchQuoted?, topLevel, savePlace?, quotedScalar?, Cursor.next, Gap.empty, hread, takeTo, mark]

/-- At the end of the text the collection is closed. -/
theorem fetchToken?_end (keyAllowed : Bool) :
    ∃ m', (topLevel ⟨[], m⟩ [] given true none keyAllowed).fetchToken? =
      some (topLevel ⟨[], m'⟩ [⟨.blockEnd, m', m'⟩, ⟨.streamEnd, m', m'⟩] given false none false) := by
  refine ⟨if m.column = 0 then m else ⟨m.index, m.line + 1, 0⟩, ?_⟩
  rw [fetchToken?]
  simp [topLevel, fetchEnd?, unroll, inFlow, closeTo, dropPlace?, take, Cursor.skip, mark, Mark.afterAll]

end Tokens

/-! ## Lines -/

section Lines

variable {m : Mark} {rest : Text}

/-- The gap in front of a line. -/
theorem skipGap_line {key : Text} (h : isIdentifier key = true) :
    skipGap false (key ++ rest) m true false = (⟨key ++ rest, m⟩, true) := by
  obtain ⟨hne, hall⟩ := all_of_isIdentifier h
  obtain ⟨c, key, rfl⟩ := List.exists_cons_of_ne_nil hne
  have hc := (Bool.and_eq_true_iff.mp (List.all_cons.symm.trans hall)).1
  have hnumber : c ≠ '#' := ne_of_isIdentifierChar hc (by decide)
  have hblank : c ≠ ' ' := ne_of_isIdentifierChar hc (by decide)
  have horder : c ≠ byteOrderMark := ne_of_isIdentifierChar hc (by decide)
  rw [List.cons_append, skipGap, isBreak_of_isPlainChar (isPlainChar_of_isIdentifierChar hc)]
  simp [hnumber, hblank, horder]

/-- A line takes three readings: of the key, which is held back, of the colon, and of the value. -/
theorem run_line (given : Nat) (isOpen : Bool) {e : Text × Text} (he : IsEntry e) {c : Cursor}
    {q : List Token} {keyAllowed : Bool} (hend : ∀ t ∈ q, t.isEnd = false)
    (hskip : skipGap false c.rest c.mark keyAllowed false = (⟨entryLine e ++ rest, m⟩, true))
    (hm : m.column = 0) :
    ∃ given' m₁ m₂ m₃ m₄, ∀ n, run (n + 3) (topLevel c q given isOpen none keyAllowed) =
      q ++ keyTokens isOpen ⟨.scalar true e.1, m, m₁⟩ m m₁ m₂
        ++ run n (topLevel ⟨rest, m₄⟩ [⟨.scalar false e.2, m₃, m₄⟩] given' true none false) := by
  have hall := (all_of_isIdentifier he.identifier).2
  rw [entryLine_append] at hskip
  obtain ⟨p, hnumber, rfl, hkey⟩ := fetchToken?_identifier (given + q.length) isOpen m
    ('"' :: (e.2 ++ '"' :: rest)) he.identifier
  -- the colon is on the same line as the key, and near enough
  have hfresh : KeyPlace.isStale (p.mark.afterAll e.1) p = false := by
    have hkeys : e.1.all isPlainChar = true :=
      List.all_eq_true.mpr fun d hd => isPlainChar_of_isIdentifierChar (List.all_eq_true.mp hall d hd)
    have hshort := he.short
    rw [afterAll_of_plain hkeys, KeyPlace.isStale]
    simp only [Nat.lt_irrefl, decide_false, Bool.false_or, decide_eq_false_iff_not, Nat.not_lt]
    omega
  have hcolon := fetchToken?_colon (given + q.length) isOpen (p.mark.afterAll e.1) ('"' :: (e.2 ++ '"' :: rest))
    ⟨.scalar true e.1, p.mark, p.mark.afterAll e.1⟩ hnumber hm
  have hbefore : skipGap false (':' :: ' ' :: '"' :: (e.2 ++ '"' :: rest)) (p.mark.afterAll e.1) false false =
      (⟨':' :: ' ' :: '"' :: (e.2 ++ '"' :: rest), p.mark.afterAll e.1⟩, false) := by
    simp [skipGap, isBreak, byteOrderMark]
  have hbehind (m' : Mark) : skipGap false (' ' :: '"' :: (e.2 ++ '"' :: rest)) m' false false =
      (⟨'"' :: (e.2 ++ '"' :: rest), m'.after ' '⟩, false) := by
    simp [skipGap, isBreak, byteOrderMark]
  obtain ⟨m₄, hvalue⟩ := fetchToken?_quoted (given + q.length + (keyTokens isOpen
    ⟨.scalar true e.1, p.mark, p.mark.afterAll e.1⟩ p.mark (p.mark.afterAll e.1)
      ((p.mark.afterAll e.1).after ':')).length) true (((p.mark.afterAll e.1).after ':').after ' ') rest he.plain
  have hfirst := run_of_none hend (fetch?_eq hskip dropStale?_of_none hkey rfl)
  have hsecond := run_of_held hfresh hnumber (fetch?_eq (c := ⟨':' :: ' ' :: '"' :: (e.2 ++ '"' :: rest), _⟩)
    hbefore (dropStale?_of_fresh hfresh) hcolon rfl)
  have hthird := run_of_none (fun t => isEnd_of_mem_keyTokens isOpen rfl)
    (fetch?_eq (c := ⟨' ' :: '"' :: (e.2 ++ '"' :: rest), _⟩) (hbehind _) dropStale?_of_none hvalue rfl)
  have hall (n : Nat) := (hfirst (n + 2)).trans (congrArg (q ++ ·) ((hsecond (n + 1)).trans (hthird n)))
  simp only [← List.append_assoc] at hall
  exact ⟨_, _, _, _, m₄, hall⟩

/-- The tokens of entries in an open mapping, and those behind them. -/
inductive TokensOf : List (Text × Text) → List Token → Prop
  | nil (m m' : Mark) : TokensOf [] [⟨.blockEnd, m, m⟩, ⟨.streamEnd, m', m'⟩]
  | cons {e : Text × Text} {es : List (Text × Text)} {ts : List Token} (m m₁ m₂ m₃ m₄ : Mark)
      (rest : TokensOf es ts) : TokensOf (e :: es)
        (keyTokens true ⟨.scalar true e.1, m, m₁⟩ m m₁ m₂ ++ ⟨.scalar false e.2, m₃, m₄⟩ :: ts)

theorem skipGap_break (m : Mark) (rest : Text) :
    skipGap false ('\n' :: rest) m false false = skipGap false rest (m.after '\n') true false := by
  rw [skipGap]
  simp [isBreak]

/-- The lines behind the first one, and the end. -/
theorem run_moreLines {closing : Text} (hclosing : closing = [] ∨ closing = ['\n']) {es : List (Text × Text)}
    (hes : ∀ e ∈ es, IsEntry e) {q : List Token} (hend : ∀ t ∈ q, t.isEnd = false) (m : Mark) (given : Nat) :
    ∃ ts, TokensOf es ts ∧ ∀ n, run (n + (3 * es.length + 2))
      (topLevel ⟨moreLines closing es, m⟩ q given true none false) = q ++ ts := by
  induction es generalizing q m given with
  | nil =>
    have hskip : ∃ m' keyAllowed, skipGap false (moreLines closing []) m false false = (⟨[], m'⟩, keyAllowed) := by
      rcases hclosing with rfl | rfl
      · exact ⟨m, false, by simp [moreLines, skipGap]⟩
      · exact ⟨m.after '\n', true, by simp [moreLines, skipGap, isBreak]⟩
    obtain ⟨m', keyAllowed, hskip⟩ := hskip
    obtain ⟨m'', htokens⟩ := fetchToken?_end (given + q.length) m' keyAllowed
    refine ⟨_, .nil m'' m'', fun n => ?_⟩
    rw [show n + (3 * [].length + 2) = n + 1 + 1 by simp, run_of_none hend
      (fetch?_eq hskip dropStale?_of_none htokens rfl), run_of_end ⟨_, .tail _ (.head _), rfl⟩]
  | cons e es ih =>
    obtain ⟨he, hes⟩ := List.forall_mem_cons.mp hes
    have hskip : skipGap false (moreLines closing (e :: es)) m false false =
        (⟨entryLine e ++ moreLines closing es, m.after '\n'⟩, true) := by
      rw [moreLines_cons, skipGap_break, entryLine_append, skipGap_line he.identifier]
    obtain ⟨given', m₁, m₂, m₃, m₄, hline⟩ := run_line given true
      (c := ⟨moreLines closing (e :: es), m⟩) he hend hskip rfl
    obtain ⟨ts, hts, hrest⟩ := ih hes (q := [⟨.scalar false e.2, m₃, m₄⟩]) (by simp [Token.isEnd]) m₄ given'
    refine ⟨_, .cons (m.after '\n') m₁ m₂ m₃ m₄ hts, fun n => ?_⟩
    rw [show n + (3 * (e :: es).length + 2) = n + (3 * es.length + 2) + 3 by rw [List.length_cons]; omega, hline,
      hrest, List.append_assoc]
    rfl

end Lines

end Tokenizer

/-- The tokens of lines: the mapping begins with the first key. -/
theorem tokens_of_lines {closing : Text} (hclosing : closing = [] ∨ closing = ['\n']) {e : Text × Text}
    {es : List (Text × Text)} (hes : ∀ f ∈ e :: es, IsEntry f) :
    ∃ m ts, Tokenizer.TokensOf (e :: es) ts ∧
      tokens (Text.join ['\n'] ((e :: es).map entryLine) ++ closing) = ⟨.blockMappingStart, m, m⟩ :: ts := by
  have htext := ofText_of_printable (printable_of_mem_lines hclosing hes)
  obtain ⟨he, hes⟩ := List.forall_mem_cons.mp hes
  have hstart : Tokenizer.start ⟨entryLine e ++ moreLines closing es, false⟩ =
      Tokenizer.topLevel ⟨entryLine e ++ moreLines closing es, .zero⟩ [] 0 false none true := rfl
  have hskip : Tokenizer.skipGap false (entryLine e ++ moreLines closing es) .zero true false =
      (⟨entryLine e ++ moreLines closing es, .zero⟩, true) := by
    rw [entryLine_append, Tokenizer.skipGap_line he.identifier]
  obtain ⟨given, m₁, m₂, m₃, m₄, hline⟩ := Tokenizer.run_line 0 false
    (c := ⟨entryLine e ++ moreLines closing es, .zero⟩) (q := []) he (by simp) hskip rfl
  obtain ⟨ts, hts, hrest⟩ := Tokenizer.run_moreLines hclosing hes (q := [⟨.scalar false e.2, m₃, m₄⟩])
    (by simp [Token.isEnd]) m₄ given
  -- each line is long enough for its readings
  obtain ⟨n, hn⟩ : ∃ n, (entryLine e ++ moreLines closing es).length + 2 = n + (3 * es.length + 2) + 3 := by
    have hfirst := three_le_length_entryLine e
    have hmore := length_moreLines closing es
    rw [List.length_append]
    exact ⟨(entryLine e).length + (moreLines closing es).length - (3 * es.length + 3), by omega⟩
  refine ⟨.zero, _, .cons .zero m₁ m₂ m₃ m₄ hts, ?_⟩
  rw [join_entryLines, tokens, htext]
  simp only [hstart, hn, hline, hrest]
  rfl

end FileRoutes.Yaml
