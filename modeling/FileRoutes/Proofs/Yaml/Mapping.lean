import FileRoutes.Yaml.Document
import FileRoutes.Proofs.Yaml.Lines

/-!
# The document of a mapping in lines

A key and its value are four tokens each line, and the reader takes four steps for them: the mark of the
key leads to the key, which is told as a scalar, and the colon to the value, which is told as another one.
Between two lines it expects a key again, with the end of the document below it on the stack.  So the run
over a number of lines follows the lines, with what is told about one line in front of what is told about
the others (`Reader.run_entry`), and ends with the mapping and the document (`Reader.run_end`).

A document of scalars without anchors and aliases keeps the parts as they were told.  The result is the
document of lines (`Document.ofText_of_lines`): a mapping of their entries, in the order of the lines, with
no error and with nothing behind it.
-/

namespace FileRoutes.Yaml

open Tokenizer (TokensOf keyTokens)

/-- The parts of entries in a mapping, and its end. -/
inductive PartsOf : List (Text × Text) → List (Part × Mark) → Prop
  | nil (m : Mark) : PartsOf [] [(.mappingEnd, m)]
  | cons {e : Text × Text} {es : List (Text × Text)} {ps : List (Part × Mark)} (m m' : Mark)
      (rest : PartsOf es ps) :
      PartsOf (e :: es) ((.scalar none true e.1, m) :: (.scalar none false e.2, m') :: ps)

theorem length_of_tokensOf {es : List (Text × Text)} {ts : List Token} (h : TokensOf es ts) :
    ts.length = 4 * es.length + 2 := by
  induction h with
  | nil m m' => rfl
  | cons m m₁ m₂ m₃ m₄ rest ih =>
    simp only [keyTokens, if_true, List.length_append, List.length_cons, List.length_nil, ih]
    omega

namespace Reader

variable {handles : List (Text × Bytes)}

/-- A line takes four steps, which tell its key and its value. -/
theorem run_entry (e : Text × Text) (m m₁ m₂ m₃ m₄ : Mark) (ts : List Token) (goals : List Goal) (n : Nat) :
    run (n + 4) ⟨keyTokens true ⟨.scalar true e.1, m, m₁⟩ m m₁ m₂ ++ ⟨.scalar false e.2, m₃, m₄⟩ :: ts,
        .blockKey :: goals, handles⟩ =
      (.scalar none none true e.1, m) :: (.scalar none none false e.2, m₃) ::
        run n ⟨ts, .blockKey :: goals, handles⟩ := by
  rfl

/-- The end of the mapping, of the document and of the text. -/
theorem run_end (m m' : Mark) (n : Nat) :
    run (n + 4) ⟨[⟨.blockEnd, m, m⟩, ⟨.streamEnd, m', m'⟩], [.blockKey, .documentEnd], handles⟩ =
      [(.mappingEnd, m), (.documentEnd, m'), (.streamEnd, m')] := by
  rfl

/-- The beginning of the document and of the mapping. -/
theorem run_start (m : Mark) (ts : List Token) (n : Nat) :
    run (n + 2) ⟨⟨.blockMappingStart, m, m⟩ :: ts, [.document true], []⟩ =
      (.documentStart, m) :: (.mappingStart none, m) :: run n ⟨ts, [.blockKey, .documentEnd], defaultHandles⟩ := by
  rfl

end Reader

namespace Document

theorem ofEvents_scalar (a : Anchors) (position : Nat) (isPlain : Bool) (t : Text) (m : Mark)
    (rest : List (Event × Mark)) :
    ofEvents a position ((.scalar none none isPlain t, m) :: rest) =
      (ofEvents a (position + 1) rest).behind (.scalar none isPlain t) m := by
  rfl

/-- The parts of a mapping from a line on. -/
theorem ofEvents_run {es : List (Text × Text)} {ts : List Token} (h : TokensOf es ts) (a : Anchors)
    (handles : List (Text × Bytes)) (position n : Nat) :
    ∃ ps, PartsOf es ps ∧
      ofEvents a position (Reader.run (n + 4 * es.length + 4) ⟨ts, [.blockKey, .documentEnd], handles⟩) =
        ⟨ps, a.positions, true, true⟩ := by
  induction h generalizing position with
  | nil m m' => exact ⟨_, .nil m, by rw [Reader.run_end]; rfl⟩
  | @cons e es ts m m₁ m₂ m₃ m₄ rest ih =>
    obtain ⟨ps, hparts, hrest⟩ := ih (position + 1 + 1)
    have hfuel : n + 4 * (e :: es).length + 4 = n + 4 * es.length + 4 + 4 := by
      rw [List.length_cons]
      omega
    refine ⟨_, .cons m m₃ hparts, ?_⟩
    rw [hfuel, Reader.run_entry, ofEvents_scalar, ofEvents_scalar, hrest]
    rfl

/-- The document of lines is the mapping of their entries. -/
theorem ofText_of_lines {closing : Text} (hclosing : closing = [] ∨ closing = ['\n']) {e : Text × Text}
    {es : List (Text × Text)} (hes : ∀ f ∈ e :: es, IsEntry f) :
    ∃ m ps, PartsOf (e :: es) ps ∧
      ofText (Text.join ['\n'] ((e :: es).map entryLine) ++ closing) = ⟨(.mappingStart, m) :: ps, [], true, true⟩ := by
  obtain ⟨m, ts, hts, htokens⟩ := tokens_of_lines hclosing hes
  -- there is a step for each token, and more
  obtain ⟨n, hfuel⟩ : ∃ n, 4 * (Token.mk .blockMappingStart m m :: ts).length + 8 =
      n + 4 * (e :: es).length + 4 + 2 := by
    rw [List.length_cons, length_of_tokensOf hts]
    exact ⟨12 * (e :: es).length + 14, by omega⟩
  obtain ⟨ps, hparts, hrun⟩ := ofEvents_run hts .none Reader.defaultHandles 1 n
  refine ⟨m, ps, hparts, ?_⟩
  rw [ofText, htokens, events, hfuel, Reader.run_start]
  exact congrArg (behind .mappingStart m) hrun

end Document

end FileRoutes.Yaml
