import FileRoutes.Yaml.Token

/-!
# YAML events

The tokens of a text are read as a sequence of events: a scalar, an alias, the beginning or end of a
collection, of a document, of the stream.  What is left out in the text, such as the value behind a
colon, appears as an empty scalar.

## The reader

The reader keeps a stack of what it expects (`Goal`), with what comes next on top.  A step looks at
the next token, replaces the top of the stack by what follows from the token, and may tell an
event.  So a nested collection is a stretch of the stack, and no step looks further than one token
ahead, apart from the anchor and the tag in front of a node.

A step fails on a token that is not expected, and on the end of the tokens, since these end early
only at an error.  The events in front of a failure are told.
-/

namespace FileRoutes.Yaml

/-- A part of a document. -/
inductive Event where
  | alias (name : Text)
  | scalar (anchor? : Option Text) (tag? : Option Bytes) (isPlain : Bool) (t : Text)
  | sequenceStart (anchor? : Option Text)
  | sequenceEnd
  | mappingStart (anchor? : Option Text)
  | mappingEnd
  | documentStart
  | documentEnd
  | streamEnd

/-- What is expected. -/
inductive Goal where
  /-- A document or the end.  The first one may begin without a mark. -/
  | document (isFirst : Bool)
  /-- The node of a document that was begun by a mark. -/
  | content
  /-- The end of a document. -/
  | documentEnd
  /-- A node.  Inside brackets it cannot be a block collection, and only as part of a mapping can it
  be a sequence that is not indented. -/
  | node (inBlock inMapping : Bool)
  /-- An entry of a block sequence, or its end. -/
  | blockEntry
  /-- An entry of a sequence that is not indented, or what follows it. -/
  | looseEntry
  /-- A key of a block mapping, or its end. -/
  | blockKey
  /-- The value of a block mapping. -/
  | blockValue
  /-- An entry of a sequence in brackets, or its end. -/
  | flowEntry (isFirst : Bool)
  /-- The key of a pair that stands in a sequence in brackets. -/
  | pairKey
  /-- The value of such a pair. -/
  | pairValue
  /-- The end of such a pair. -/
  | pairEnd
  /-- A key of a mapping in braces, or its end. -/
  | flowKey (isFirst : Bool)
  /-- The value of a mapping in braces. -/
  | flowValue
  /-- The value of a mapping in braces behind a key that no colon follows. -/
  | missingValue

/-- The state of the reader. -/
structure Reader where
  tokens : List Token
  /-- What is expected, the next first. -/
  goals : List Goal
  /-- What the handles of tags stand for. -/
  handles : List (Text × Bytes)

namespace Reader

/-- A step: the event it tells, if any, and the state behind it. -/
abbrev Step := Option (Event × Mark) × Reader

/-- The step that tells an event. -/
def tell (e : Event) (mark : Mark) (r : Reader) : Option Step := some (some (e, mark), r)

/-- The step that tells nothing. -/
def pass (r : Reader) : Option Step := some (none, r)

/-- The step that tells an empty scalar. -/
def blank (mark : Mark) (r : Reader) : Option Step :=
  r.tell (.scalar none none true []) mark

/-- The state with more goals and other tokens. -/
def expect (r : Reader) (goals : List Goal) (tokens : List Token) : Reader :=
  { r with goals := goals ++ r.goals, tokens }

/-- The state with other handles. -/
def declare (r : Reader) (handles : List (Text × Bytes)) : Reader := { r with handles }

/-- Handles that need no declaration. -/
def defaultHandles : List (Text × Bytes) :=
  [("!", Utf8.encode ['!']), ("!!", Utf8.encode "tag:yaml.org,2002:")]

/-! ## Documents -/

/-- Reads the directives in front of a document, each at most once. -/
def directives? (hasVersion : Bool) (handles : List (Text × Bytes)) :
    List Token → Option (List (Text × Bytes) × List Token)
  | [] => none
  | t :: rest =>
    match t.lexeme with
    | .directive (.version major minor) =>
      if hasVersion ∨ major ≠ 1 ∨ (minor ≠ 1 ∧ minor ≠ 2) then none
      else directives? true handles rest
    | .directive (.tag handle tagPrefix) =>
      if (handles.lookup handle).isSome then none
      else directives? hasVersion (handles ++ [(handle, tagPrefix)]) rest
    | _ => some (handles ++ defaultHandles, t :: rest)

/-- The token closes a document by a mark. -/
def isDocumentEnd (t : Token) : Bool :=
  match t.lexeme with
  | .documentEnd => true
  | _ => false

/-- A document, or the end of the stream. -/
def document (r : Reader) (isFirst : Bool) : Option Step :=
  let tokens := if isFirst then r.tokens else r.tokens.dropWhile isDocumentEnd
  match tokens with
  | [] => none
  | t :: rest =>
    match t.lexeme, isFirst with
    | .streamEnd, _ => { r with tokens := rest }.tell .streamEnd t.start
    | .directive _, _ | .documentStart, _ | _, false => do
      let (handles, tokens) ← directives? false [] tokens
      match tokens with
      | u :: rest =>
        match u.lexeme with
        | .documentStart =>
          ((r.expect [.content, .documentEnd] rest).declare handles).tell .documentStart t.start
        | _ => none
      | [] => none
    | _, true =>
      ((r.expect [.node true false, .documentEnd] tokens).declare defaultHandles).tell
        .documentStart t.start

/-- The end of a document.  The declarations in front of it no longer hold. -/
def documentEnd (r : Reader) : Option Step :=
  match r.tokens with
  | [] => none
  | t :: rest =>
    let tokens := if isDocumentEnd t then rest else t :: rest
    ((r.expect [.document false] tokens).declare []).tell .documentEnd t.start

/-- The node of a document, which may be left out. -/
def content (r : Reader) : Option Step :=
  match r.tokens with
  | [] => none
  | t :: _ =>
    match t.lexeme with
    | .directive _ | .documentStart | .documentEnd | .streamEnd => r.blank t.start
    | _ => (r.expect [.node true false] r.tokens).pass

/-! ## Nodes -/

/-- The anchor and the tag in front of a node. -/
structure Properties where
  anchor? : Option Text
  tag? : Option Tag.Written

/-- Reads an anchor and a tag, in either order. -/
def properties : List Token → Properties × List Token
  | ⟨.anchor a, _, _⟩ :: ⟨.tag t, _, _⟩ :: rest => (⟨some a, some t⟩, rest)
  | ⟨.tag t, _, _⟩ :: ⟨.anchor a, _, _⟩ :: rest => (⟨some a, some t⟩, rest)
  | ⟨.anchor a, _, _⟩ :: rest => (⟨some a, none⟩, rest)
  | ⟨.tag t, _, _⟩ :: rest => (⟨none, some t⟩, rest)
  | tokens => (⟨none, none⟩, tokens)

/-- The whole tag of a node; none if its handle was not declared. -/
def wholeTag? (handles : List (Text × Bytes)) (t : Tag.Written) : Option Bytes :=
  if t.handle = [] then some t.suffix else (handles.lookup t.handle).map (· ++ t.suffix)

/-- A node. -/
def node (r : Reader) (inBlock inMapping : Bool) : Option Step :=
  match r.tokens with
  | [] => none
  | ⟨.alias name, start, _⟩ :: rest => { r with tokens := rest }.tell (.alias name) start
  | first :: _ => do
    let (p, tokens) := properties r.tokens
    let tag? ← match p.tag? with
      | none => some none
      | some t => (wholeTag? r.handles t).map some
    match tokens with
    | [] => none
    | t :: rest =>
      match t.lexeme with
      | .scalar isPlain text =>
        let tag? := tag?.filter (· ≠ Utf8.encode ['!'])
        { r with tokens := rest }.tell (.scalar p.anchor? tag? isPlain text) first.start
      | .flowSequenceStart =>
        (r.expect [.flowEntry true] rest).tell (.sequenceStart p.anchor?) first.start
      | .flowMappingStart =>
        (r.expect [.flowKey true] rest).tell (.mappingStart p.anchor?) first.start
      | lexeme =>
        let empty? : Option Step :=
          if p.anchor?.isSome || tag?.isSome then
            { r with tokens }.tell (.scalar p.anchor? tag? true []) first.start
          else none
        match lexeme, inBlock, inMapping with
        | .blockEntry, _, true =>
          (r.expect [.looseEntry] tokens).tell (.sequenceStart p.anchor?) first.start
        | .blockSequenceStart, true, _ =>
          (r.expect [.blockEntry] rest).tell (.sequenceStart p.anchor?) first.start
        | .blockMappingStart, true, _ =>
          (r.expect [.blockKey] rest).tell (.mappingStart p.anchor?) first.start
        | _, _, _ => empty?

/-! ## Block collections -/

/-- An entry of a block sequence, or its end. -/
def blockEntry (r : Reader) : Option Step :=
  match r.tokens with
  | ⟨.blockEnd, start, _⟩ :: rest => { r with tokens := rest }.tell .sequenceEnd start
  | ⟨.blockEntry, _, stop⟩ :: rest =>
    match rest with
    | [] => none
    | t :: _ =>
      match t.lexeme with
      | .blockEntry | .blockEnd => (r.expect [.blockEntry] rest).blank stop
      | _ => (r.expect [.node true false, .blockEntry] rest).pass
  | _ => none

/-- An entry of a sequence that is not indented, or what follows it. -/
def looseEntry (r : Reader) : Option Step :=
  match r.tokens with
  | [] => none
  | ⟨.blockEntry, _, stop⟩ :: rest =>
    match rest with
    | [] => none
    | t :: _ =>
      match t.lexeme with
      | .blockEntry | .key | .value | .blockEnd => (r.expect [.looseEntry] rest).blank stop
      | _ => (r.expect [.node true false, .looseEntry] rest).pass
  | t :: _ => r.tell .sequenceEnd t.start

/-- What is behind the mark of a key or value in a block mapping: a node, or nothing. -/
def blockPart (r : Reader) (mark : Mark) (rest : List Token) (goal : Goal) : Option Step :=
  match rest with
  | [] => none
  | t :: _ =>
    match t.lexeme with
    | .key | .value | .blockEnd => (r.expect [goal] rest).blank mark
    | _ => (r.expect [.node true true, goal] rest).pass

/-- A key of a block mapping, or its end. -/
def blockKey (r : Reader) : Option Step :=
  match r.tokens with
  | ⟨.blockEnd, start, _⟩ :: rest => { r with tokens := rest }.tell .mappingEnd start
  | ⟨.key, _, stop⟩ :: rest => r.blockPart stop rest .blockValue
  | _ => none

/-- The value of a block mapping. -/
def blockValue (r : Reader) : Option Step :=
  match r.tokens with
  | [] => none
  | ⟨.value, _, stop⟩ :: rest => r.blockPart stop rest .blockKey
  | t :: _ => (r.expect [.blockKey] r.tokens).blank t.start

/-! ## Collections in brackets -/

/-- The tokens behind the comma in front of an entry.  The first entry has none. -/
def behindComma? (isFirst : Bool) : List Token → Option (List Token)
  | ⟨.flowEntry, start, stop⟩ :: rest =>
    if isFirst then some (⟨.flowEntry, start, stop⟩ :: rest) else some rest
  | tokens => if isFirst then some tokens else none

/-- An entry of a sequence in brackets, or its end. -/
def flowEntry (r : Reader) (isFirst : Bool) : Option Step :=
  match r.tokens with
  | ⟨.flowSequenceEnd, start, _⟩ :: rest => { r with tokens := rest }.tell .sequenceEnd start
  | tokens =>
    match behindComma? isFirst tokens with
    | some (⟨.flowSequenceEnd, start, _⟩ :: rest) =>
      { r with tokens := rest }.tell .sequenceEnd start
    | some (⟨.key, start, _⟩ :: rest) =>
      (r.expect [.pairKey, .flowEntry false] rest).tell (.mappingStart none) start
    | some rest => (r.expect [.node false false, .flowEntry false] rest).pass
    | none => none

/-- The key of a pair in a sequence.  The token behind a key that is left out is used up. -/
def pairKey (r : Reader) : Option Step :=
  match r.tokens with
  | [] => none
  | t :: rest =>
    match t.lexeme with
    | .value | .flowEntry | .flowSequenceEnd => (r.expect [.pairValue] rest).blank t.stop
    | _ => (r.expect [.node false false, .pairValue] r.tokens).pass

/-- The value of a pair in a sequence. -/
def pairValue (r : Reader) : Option Step :=
  let tokens := match r.tokens with
    | ⟨.value, _, _⟩ :: rest => (true, rest)
    | tokens => (false, tokens)
  match tokens with
  | (_, []) => none
  | (hasColon, t :: rest) =>
    match t.lexeme, hasColon with
    | .flowEntry, true | .flowSequenceEnd, true | _, false =>
      (r.expect [.pairEnd] (t :: rest)).blank t.start
    | _, true => (r.expect [.node false false, .pairEnd] (t :: rest)).pass

/-- The end of a pair in a sequence. -/
def pairEnd (r : Reader) : Option Step :=
  match r.tokens with
  | [] => none
  | t :: _ => r.tell .mappingEnd t.start

/-- A key of a mapping in braces, or its end. -/
def flowKey (r : Reader) (isFirst : Bool) : Option Step :=
  match r.tokens with
  | ⟨.flowMappingEnd, start, _⟩ :: rest => { r with tokens := rest }.tell .mappingEnd start
  | tokens =>
    match behindComma? isFirst tokens with
    | some (⟨.flowMappingEnd, start, _⟩ :: rest) =>
      { r with tokens := rest }.tell .mappingEnd start
    | some (⟨.key, _, _⟩ :: rest) =>
      match rest with
      | [] => none
      | t :: _ =>
        match t.lexeme with
        | .value | .flowEntry | .flowMappingEnd => (r.expect [.flowValue] rest).blank t.start
        | _ => (r.expect [.node false false, .flowValue] rest).pass
    | some rest => (r.expect [.node false false, .missingValue] rest).pass
    | none => none

/-- The value of a mapping in braces. -/
def flowValue (r : Reader) : Option Step :=
  let tokens := match r.tokens with
    | ⟨.value, _, _⟩ :: rest => (true, rest)
    | tokens => (false, tokens)
  match tokens with
  | (_, []) => none
  | (hasColon, t :: rest) =>
    match t.lexeme, hasColon with
    | .flowEntry, true | .flowMappingEnd, true | _, false =>
      (r.expect [.flowKey false] (t :: rest)).blank t.start
    | _, true => (r.expect [.node false false, .flowKey false] (t :: rest)).pass

/-- The value behind a key that no colon follows. -/
def missingValue (r : Reader) : Option Step :=
  match r.tokens with
  | [] => none
  | t :: _ => (r.expect [.flowKey false] r.tokens).blank t.start

/-! ## All events -/

/-- The step that a goal asks for, when it has been taken off the stack. -/
def step (r : Reader) : Goal → Option Step
  | .document isFirst => r.document isFirst
  | .content => r.content
  | .documentEnd => r.documentEnd
  | .node inBlock inMapping => r.node inBlock inMapping
  | .blockEntry => r.blockEntry
  | .looseEntry => r.looseEntry
  | .blockKey => r.blockKey
  | .blockValue => r.blockValue
  | .flowEntry isFirst => r.flowEntry isFirst
  | .pairKey => r.pairKey
  | .pairValue => r.pairValue
  | .pairEnd => r.pairEnd
  | .flowKey isFirst => r.flowKey isFirst
  | .flowValue => r.flowValue
  | .missingValue => r.missingValue

/-- The events up to the end or the first error, for at most `n` steps. -/
def run : Nat → Reader → List (Event × Mark)
  | 0, _ => []
  | n + 1, r =>
    match r.goals with
    | [] => []
    | goal :: goals =>
      match { r with goals }.step goal with
      | none => []
      | some (e?, r) => e?.toList ++ run n r

end Reader

/-- The events of a sequence of tokens, up to the first error. -/
def events (tokens : List Token) : List (Event × Mark) :=
  Reader.run (4 * tokens.length + 8) ⟨tokens, [.document true], []⟩

end FileRoutes.Yaml
