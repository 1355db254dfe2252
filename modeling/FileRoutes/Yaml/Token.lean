import FileRoutes.Yaml.BlockScalar
import FileRoutes.Yaml.PlainScalar
import FileRoutes.Yaml.QuotedScalar
import FileRoutes.Yaml.Tag

/-!
# YAML tokens

The text is cut into tokens.  Most of them are marks, names and scalars as they stand there.  The
structure of a block is not written by marks but by indentation, so the tokens that open and close
its collections are made up: a collection is opened by an entry further to the right than the
collection around it, and closed by a token further to the left.

## Keys

Whether a scalar, an alias or a collection in brackets is a key becomes clear only at the colon
behind it.  Until then the place in front of it is remembered (`KeyPlace`), and tokens from there on
are held back in a queue, so that the token that announces a key can still be put in front of it.  A
place is given up at the end of its line, after 1024 bytes, or where another one takes over.
Where the indentation allows nothing but a key, giving up is an error.

## Errors

The tokens in front of an error are told.  A text without an error is one whose last token is the
end of the stream.
-/

namespace FileRoutes.Yaml

/-- What a token is. -/
inductive Lexeme where
  | streamEnd
  | directive (d : Directive)
  | documentStart
  | documentEnd
  | blockSequenceStart
  | blockMappingStart
  | blockEnd
  | flowSequenceStart
  | flowSequenceEnd
  | flowMappingStart
  | flowMappingEnd
  | blockEntry
  | flowEntry
  | key
  | value
  | alias (name : Text)
  | anchor (name : Text)
  | tag (t : Tag.Written)
  | scalar (isPlain : Bool) (t : Text)

/-- A token and where it begins and ends. -/
structure Token where
  lexeme : Lexeme
  start : Mark
  stop : Mark

/-- The token stands for the end of the text. -/
def Token.isEnd (t : Token) : Bool :=
  match t.lexeme with
  | .streamEnd => true
  | _ => false

/-- A place at which a key may begin. -/
structure KeyPlace where
  /-- Nothing but a key may begin here. -/
  isRequired : Bool
  /-- The number of the token that begins here. -/
  number : Nat
  mark : Mark

/-- The state of the tokenizer. -/
structure Tokenizer where
  cursor : Cursor
  /-- The text goes on behind what can be read. -/
  isCut : Bool
  /-- The tokens that are held back. -/
  queue : List Token
  /-- How many tokens were given away. -/
  given : Nat
  /-- One more than the column of the innermost block collection; zero if there is none. -/
  margin : Nat
  /-- The margins of the collections around it. -/
  margins : List Nat
  /-- The place for a key at the innermost level of brackets. -/
  place? : Option KeyPlace
  /-- The places at the levels around it. -/
  places : List (Option KeyPlace)
  /-- A key may begin at the cursor. -/
  keyAllowed : Bool

namespace Tokenizer

/-- The cursor is inside brackets. -/
def inFlow (s : Tokenizer) : Bool := !s.places.isEmpty

/-- The position of the cursor. -/
def mark (s : Tokenizer) : Mark := s.cursor.mark

/-- The next `n` characters can be read, or the text ends before. -/
def sees (s : Tokenizer) (n : Nat) : Bool := !s.isCut || n ≤ (s.cursor.rest.take n).length

/-! ## Places for keys -/

/-- A place that is too far away from `mark`. -/
def KeyPlace.isStale (mark : Mark) (p : KeyPlace) : Bool :=
  p.mark.line < mark.line || p.mark.index + 1024 < mark.index

/-- Gives up a place if it is too far away; none if a key is required there. -/
def refresh? (mark : Mark) : Option KeyPlace → Option (Option KeyPlace)
  | none => some none
  | some p => if KeyPlace.isStale mark p then if p.isRequired then none else some none else some (some p)

/-- Gives up all places that are too far away. -/
def dropStale? (s : Tokenizer) : Option Tokenizer := do
  let place? ← refresh? s.mark s.place?
  let places ← s.places.mapM (refresh? s.mark)
  return { s with place?, places }

/-- Gives up the innermost place. -/
def dropPlace? (s : Tokenizer) : Option Tokenizer :=
  if s.place?.any (·.isRequired) then none else some { s with place? := none }

/-- Remembers the cursor as a place for a key, if one may begin there. -/
def savePlace? (s : Tokenizer) : Option Tokenizer :=
  if s.keyAllowed then do
    let s ← s.dropPlace?
    let isRequired := !s.inFlow && s.margin = s.mark.column + 1
    return { s with place? := some ⟨isRequired, s.given + s.queue.length, s.mark⟩ }
  else some s

/-! ## The queue -/

/-- Adds a token. -/
def push (s : Tokenizer) (t : Token) : Tokenizer := { s with queue := s.queue ++ [t] }

/-- Adds a token that consists of the next `n` characters. -/
def take (s : Tokenizer) (n : Nat) (lexeme : Lexeme) : Tokenizer :=
  let behind := s.cursor.skip n
  { s with cursor := behind, queue := s.queue ++ [⟨lexeme, s.mark, behind.mark⟩] }

/-- Adds a token that was read up to a cursor. -/
def takeTo (s : Tokenizer) (behind : Cursor) (lexeme : Lexeme) : Tokenizer :=
  { s with cursor := behind, queue := s.queue ++ [⟨lexeme, s.mark, behind.mark⟩] }

/-- Puts a token in front of the one with a number. -/
def insertAt (s : Tokenizer) (number : Nat) (t : Token) : Tokenizer :=
  { s with queue := s.queue.insertIdx (number - s.given) t }

/-! ## Indentation -/

/-- Closes the collections whose margin is greater than `limit`. -/
def closeTo (limit : Nat) (mark : Mark) : List Nat → Nat → List Token → Nat × List Nat × List Token
  | [], margin, closed => (margin, [], closed)
  | outer :: margins, margin, closed =>
    if limit < margin then closeTo limit mark margins outer (closed ++ [⟨.blockEnd, mark, mark⟩])
    else (margin, outer :: margins, closed)

/-- Closes the block collections that begin to the right of what is at `limit`. -/
def unroll (s : Tokenizer) (limit : Nat) : Tokenizer :=
  if s.inFlow then s
  else
    let (margin, margins, closed) := closeTo limit s.mark s.margins s.margin []
    { s with margin, margins, queue := s.queue ++ closed }

/-- A block collection begins at a column to the right of the one around it. -/
def opens (s : Tokenizer) (column : Nat) : Bool := !s.inFlow && s.margin ≤ column

/-- The state inside a block collection at a column. -/
def indent (s : Tokenizer) (column : Nat) : Tokenizer :=
  { s with margin := column + 1, margins := s.margin :: s.margins }

/-- Opens a block collection at the cursor, if one begins there. -/
def roll (s : Tokenizer) (lexeme : Lexeme) : Tokenizer :=
  if s.opens s.mark.column then
    (s.indent s.mark.column).push ⟨lexeme, s.mark, s.mark⟩
  else s

/-! ## Between tokens -/

/-- Skips blanks, comments and line breaks, and tells whether a key may begin behind them.  Tabs are
skipped where they cannot be mistaken for indentation, and a byte order mark at the beginning of a
line. -/
def skipGap (inFlow : Bool) : Text → Mark → Bool → Bool → Cursor × Bool
  | [], mark, keyAllowed, _ => (⟨[], mark⟩, keyAllowed)
  | c :: rest, mark, keyAllowed, inComment =>
    if isBreak c then skipGap inFlow rest (mark.after c) (keyAllowed || !inFlow) false
    else if inComment then skipGap inFlow rest (mark.after c) keyAllowed true
    else if c = '#' then skipGap inFlow rest (mark.after c) keyAllowed true
    else if c = ' ' || c = '\t' && (inFlow || !keyAllowed)
        || c = byteOrderMark && mark.column = 0 then
      skipGap inFlow rest (mark.after c) keyAllowed false
    else (⟨c :: rest, mark⟩, keyAllowed)

/-! ## Single tokens -/

/-- The end of the text, which counts as the beginning of a line. -/
def fetchEnd? (s : Tokenizer) : Option Tokenizer := do
  let m := s.mark
  let mark : Mark := if m.column = 0 then m else ⟨m.index, m.line + 1, 0⟩
  let s ← ({ s with cursor := ⟨[], mark⟩ }.unroll 0).dropPlace?
  return { s with keyAllowed := false }.take 0 .streamEnd

/-- A directive. -/
def fetchDirective? (s : Tokenizer) : Option Tokenizer := do
  let s ← (s.unroll 0).dropPlace?
  let (d, behind) ← Directive.read? s.cursor
  return { s with keyAllowed := false }.takeTo behind (.directive d)

/-- A mark between documents. -/
def fetchMarker? (s : Tokenizer) (lexeme : Lexeme) : Option Tokenizer := do
  let s ← (s.unroll 0).dropPlace?
  return { s with keyAllowed := false }.take 3 lexeme

/-- An opening bracket, behind which a new level begins. -/
def fetchOpening? (s : Tokenizer) (lexeme : Lexeme) : Option Tokenizer := do
  let s ← s.savePlace?
  return { s with place? := none, places := s.place? :: s.places, keyAllowed := true }.take 1 lexeme

/-- A closing bracket, behind which the level around it goes on. -/
def fetchClosing? (s : Tokenizer) (lexeme : Lexeme) : Option Tokenizer := do
  let s ← s.dropPlace?
  let s := match s.places with
    | [] => s
    | place? :: places => { s with place?, places }
  return { s with keyAllowed := false }.take 1 lexeme

/-- A comma between entries. -/
def fetchComma? (s : Tokenizer) : Option Tokenizer := do
  let s ← s.dropPlace?
  return { s with keyAllowed := true }.take 1 .flowEntry

/-- A hyphen in front of an entry. -/
def fetchHyphen? (s : Tokenizer) : Option Tokenizer := do
  if !s.inFlow && !s.keyAllowed then none
  let s ← (s.roll .blockSequenceStart).dropPlace?
  return { s with keyAllowed := true }.take 1 .blockEntry

/-- A question mark in front of a key. -/
def fetchQuestion? (s : Tokenizer) : Option Tokenizer := do
  if !s.inFlow && !s.keyAllowed then none
  let s ← (s.roll .blockMappingStart).dropPlace?
  return { s with keyAllowed := !s.inFlow }.take 1 .key

/-- A colon.  If a place for a key is remembered, the key begins there, and so does the mapping if
none began further to the left. -/
def fetchColon? (s : Tokenizer) : Option Tokenizer :=
  match s.place? with
  | some p =>
    let s := s.insertAt p.number ⟨.key, p.mark, p.mark⟩
    let s :=
      if s.opens p.mark.column then
        (s.indent p.mark.column).insertAt p.number ⟨.blockMappingStart, p.mark, p.mark⟩
      else s
    some ({ s with place? := none, keyAllowed := false }.take 1 .value)
  | none =>
    if !s.inFlow && !s.keyAllowed then none
    else
      let s := s.roll .blockMappingStart
      some ({ s with keyAllowed := !s.inFlow }.take 1 .value)

/-- An anchor or an alias. -/
def fetchName? (s : Tokenizer) (lexeme : Text → Lexeme) : Option Tokenizer := do
  let s ← s.savePlace?
  let (name, behind) ← anchorName? s.cursor
  return { s with keyAllowed := false }.takeTo behind (lexeme name)

/-- A tag. -/
def fetchTag? (s : Tokenizer) : Option Tokenizer := do
  let s ← s.savePlace?
  let (t, behind) ← Tag.read? s.inFlow s.cursor
  return { s with keyAllowed := false }.takeTo behind (.tag t)

/-- A block scalar. -/
def fetchBlockScalar? (s : Tokenizer) (isFolded : Bool) : Option Tokenizer := do
  let s ← s.dropPlace?
  let (t, behind) ← blockScalar? isFolded s.margin s.cursor
  return { s with keyAllowed := true }.takeTo behind (.scalar false t)

/-- A quoted scalar. -/
def fetchQuoted? (s : Tokenizer) (isDouble : Bool) : Option Tokenizer := do
  let s ← s.savePlace?
  let (t, behind) ← quotedScalar? isDouble s.cursor
  return { s with keyAllowed := false }.takeTo behind (.scalar false t)

/-- A plain scalar.  Behind a line break in the gap after it a key may begin. -/
def fetchPlain? (s : Tokenizer) : Option Tokenizer := do
  let s ← s.savePlace?
  let r ← PlainScalar.read? s.inFlow s.margin s.cursor.rest s.mark none
  return { s with keyAllowed := r.brokenOff }.takeTo r.cursor (.scalar true r.text)

/-- A character that begins no plain scalar, unless it is one of three that may do so by what follows
it. -/
def isIndicator (c : Char) : Bool :=
  c ∈ ['-', '?', ':', ',', '[', ']', '\x7b', '\x7d', '#', '&', '*', '!', '|', '>', '\'', '"', '%',
    '@', '\x60']

/-- Reads the token at the cursor. -/
def fetchToken? (s : Tokenizer) : Option Tokenizer :=
  match s.cursor.rest with
  | [] => s.fetchEnd?
  | c :: rest =>
    let endsHere := endsWord rest
    if s.mark.column = 0 && c = '%' then s.fetchDirective?
    else if s.mark.column = 0 && isDocumentMarker (c :: rest) then
      s.fetchMarker? (if c = '-' then .documentStart else .documentEnd)
    else if c = '[' then s.fetchOpening? .flowSequenceStart
    else if c = '\x7b' then s.fetchOpening? .flowMappingStart
    else if c = ']' then s.fetchClosing? .flowSequenceEnd
    else if c = '\x7d' then s.fetchClosing? .flowMappingEnd
    else if c = ',' then s.fetchComma?
    else if c = '-' && endsHere then s.fetchHyphen?
    else if c = '?' && (s.inFlow || endsHere) then s.fetchQuestion?
    else if c = ':' && (s.inFlow || endsHere) then s.fetchColon?
    else if c = '*' then s.fetchName? .alias
    else if c = '&' then s.fetchName? .anchor
    else if c = '!' then s.fetchTag?
    else if c = '|' && !s.inFlow then s.fetchBlockScalar? false
    else if c = '>' && !s.inFlow then s.fetchBlockScalar? true
    else if c = '\'' then s.fetchQuoted? false
    else if c = '"' then s.fetchQuoted? true
    else if !isIndicator c && c != '\t' || c = '-' || !s.inFlow && (c = '?' || c = ':') then
      s.fetchPlain?
    else none

/-- Goes to the next token, closes the collections that end in front of it, and reads it.  What a
token is shows in its first four characters, and where it ends, in the one behind it. -/
def fetch? (s : Tokenizer) : Option Tokenizer := do
  let (cursor, keyAllowed) := skipGap s.inFlow s.cursor.rest s.mark s.keyAllowed false
  let s ← { s with cursor, keyAllowed }.dropStale?
  if !s.sees 4 then none
  let s ← (s.unroll (s.mark.column + 1)).fetchToken?
  if s.sees 1 then some s else none

/-! ## All tokens -/

/-- A token might still be moved behind one that is put in front of it. -/
def isHeld (s : Tokenizer) : Bool :=
  (s.place? :: s.places).any fun place? => place?.any (·.number = s.given)

/-- The tokens of the queue that are not held back, and the state without them. -/
def release (s : Tokenizer) : List Token → List Token × Tokenizer
  | [] => ([], { s with queue := [] })
  | t :: rest =>
    if s.isHeld then ([], { s with queue := t :: rest })
    else
      let (given, s) := release { s with given := s.given + 1 } rest
      (t :: given, s)

/-- The tokens up to the end or the first error, for at most `n` readings. -/
def run : Nat → Tokenizer → List Token
  | 0, _ => []
  | n + 1, s =>
    match (if s.queue.isEmpty then some s else s.dropStale?) with
    | none => []
    | some s =>
      let (given, s) := s.release s.queue
      if given.any (·.isEnd) then given
      else match s.fetch? with
        | none => given
        | some s => given ++ run n s

/-- The tokenizer in front of a text. -/
def start (source : Source) : Tokenizer :=
  ⟨⟨source.text, .zero⟩, source.isCut, [], 0, 0, [], none, [], true⟩

end Tokenizer

/-- The tokens of a text, up to the first error. -/
def tokens (t : Text) : List Token :=
  let source := Source.ofText t
  (Tokenizer.start source).run (source.text.length + 2)

end FileRoutes.Yaml
