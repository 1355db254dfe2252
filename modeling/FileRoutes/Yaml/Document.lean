import FileRoutes.Yaml.Event

/-!
# YAML documents

A document is the sequence of its parts.  Aliases are not replaced by what they stand for: an alias
holds the number of an anchor, and `Document.target` gives the parts from the anchor on.

Anchors are numbered by how many names are known when they appear.  So an anchor that takes over a
name makes the next one get a number that was given before, and the earlier owner of the number is
lost, for the aliases in front as well.
-/

namespace FileRoutes.Yaml

/-- A part of a document. -/
inductive Part where
  | scalar (tag? : Option Bytes) (isPlain : Bool) (t : Text)
  | alias (number : Nat)
  | sequenceStart
  | sequenceEnd
  | mappingStart
  | mappingEnd
  /-- The only part of a text without any document. -/
  | void

/-- The first document of a text. -/
structure Document where
  /-- The parts, up to the first error. -/
  parts : List (Part × Mark)
  /-- The numbers of the anchors and the positions of their parts, the latest first. -/
  anchors : List (Nat × Nat)
  /-- There is no error in it. -/
  isWhole : Bool
  /-- There is nothing else in the text. -/
  isOnly : Bool

namespace Document

/-- The anchors that were met so far. -/
structure Anchors where
  /-- The names and their numbers, the latest first. -/
  names : List (Text × Nat)
  /-- The numbers and the positions of their parts, the latest first. -/
  positions : List (Nat × Nat)

/-- No anchor was met. -/
def Anchors.none : Anchors := ⟨[], []⟩

/-- The anchors with one more, whose part has a position. -/
def Anchors.add (a : Anchors) (position : Nat) : Option Text → Anchors
  | .none => a
  | .some name =>
    let number := a.names.length
    ⟨(name, number) :: a.names.filter (·.1 ≠ name), (number, position) :: a.positions⟩

/-- A document that ends at an error. -/
def cut (a : Anchors) : Document := ⟨[], a.positions, false, false⟩

/-- The document with a part in front. -/
def behind (part : Part) (mark : Mark) (d : Document) : Document :=
  { d with parts := (part, mark) :: d.parts }

/-- The first document among some events, when `position` of its parts are known. -/
def ofEvents (a : Anchors) (position : Nat) : List (Event × Mark) → Document
  | [] => cut a
  | (e, mark) :: rest =>
    match e with
    | .documentStart => ofEvents a position rest
    | .streamEnd => ⟨if position = 0 then [(.void, mark)] else [], a.positions, true, true⟩
    | .documentEnd =>
      let isOnly := match rest with
        | (.streamEnd, _) :: _ => true
        | _ => false
      ⟨[], a.positions, true, isOnly⟩
    | .alias name =>
      match a.names.lookup name with
      | none => cut a
      | some number => (ofEvents a (position + 1) rest).behind (.alias number) mark
    | .scalar anchor? tag? isPlain t =>
      (ofEvents (a.add position anchor?) (position + 1) rest).behind (.scalar tag? isPlain t) mark
    | .sequenceStart anchor? =>
      (ofEvents (a.add position anchor?) (position + 1) rest).behind .sequenceStart mark
    | .mappingStart anchor? =>
      (ofEvents (a.add position anchor?) (position + 1) rest).behind .mappingStart mark
    | .sequenceEnd => (ofEvents a (position + 1) rest).behind .sequenceEnd mark
    | .mappingEnd => (ofEvents a (position + 1) rest).behind .mappingEnd mark

/-- The first document of a text. -/
def ofText (t : Text) : Document := ofEvents .none 0 (events (tokens t))

/-- The parts from the anchor with a number on. -/
def target (d : Document) (number : Nat) : List (Part × Mark) :=
  match d.anchors.lookup number with
  | some position => d.parts.drop position
  | none => []

/-- The parts behind the first node, which begins at depth `depth` of collections. -/
def skipNode (depth : Nat) : List (Part × Mark) → Option (List (Part × Mark))
  | [] => none
  | (part, _) :: rest =>
    match part with
    | .sequenceStart | .mappingStart => skipNode (depth + 1) rest
    | .sequenceEnd | .mappingEnd => if depth ≤ 1 then some rest else skipNode (depth - 1) rest
    | _ => if depth = 0 then some rest else skipNode depth rest

end Document

end FileRoutes.Yaml
