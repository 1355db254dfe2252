import FileRoutes.Conventions.Fault
import FileRoutes.FileSystem.Reading
import FileRoutes.Problem
import FileRoutes.Text.Blank
import FileRoutes.Yaml.Document

/-!
# Reading conventions

Conventions are written as a YAML mapping from field names to scalars.  A field that is not mentioned
keeps its standard value, and what is given under other names is ignored.  A text without any visible
character gives the standard conventions.

## What is an error

The parts of the document are looked at in order, and the first thing wrong with one is reported,
even if the text is no YAML further on.  A name may be given once, a value has to be a scalar, and a
delimiter is one character; how a scalar is written, and whether it would mean a number elsewhere,
does not matter.  Then the rest of the text has to be free of errors and of further documents, and
last the values have to be usable.
-/

namespace FileRoutes.Conventions

/-- The fields of conventions. -/
inductive Field where
  | appDir
  | logicalRoot
  | pagePrefix
  | pageModule
  | groupOpen
  | groupClose
  | lazyLoader
  deriving DecidableEq

namespace Field

/-- All fields. -/
def all : List Field :=
  [appDir, logicalRoot, pagePrefix, pageModule, groupOpen, groupClose, lazyLoader]

/-- The name of a field in a file. -/
def name : Field → Text
  | appDir => "app_dir"
  | logicalRoot => "logical_root"
  | pagePrefix => "page_prefix"
  | pageModule => "page_module"
  | groupOpen => "group_open"
  | groupClose => "group_close"
  | lazyLoader => "lazy_loader"

/-- The field with a name. -/
def ofName? (t : Text) : Option Field := all.find? (·.name = t)

/-- What a field's value has to be. -/
def wanted : Field → Wanted
  | groupOpen | groupClose => .character
  | _ => .text

end Field

/-- Conventions with the text of one field replaced; none if the text does not fit. -/
def set? (conventions : Conventions) (field : Field) (t : Text) : Option Conventions :=
  match field, t with
  | .appDir, t => some { conventions with appDir := t }
  | .logicalRoot, t => some { conventions with logicalRoot := t }
  | .pagePrefix, t => some { conventions with pagePrefix := t }
  | .pageModule, t => some { conventions with pageModule := t }
  | .lazyLoader, t => some { conventions with lazyLoader := t }
  | .groupOpen, [c] => some { conventions with groupOpen := c }
  | .groupClose, [c] => some { conventions with groupClose := c }
  | _, _ => none

namespace Reading

open Yaml (Part Mark Document)

/-- Line and column of a position, counted from one; they are not told at the very beginning. -/
def position? (mark : Mark) : Option (Nat × Nat) :=
  if mark.line = 0 ∧ mark.column = 0 then none else some (mark.line + 1, mark.column + 1)

/-- The fault of a value that does not fit. -/
def mismatch (field? : Option Text) (issue : Issue) (mark : Mark) : Fault :=
  .mismatch ⟨field?, issue, position? mark⟩

/-- The text of the scalar that some parts begin with. -/
def scalarText (field? : Option Text) (wanted : Wanted) :
    List (Part × Mark) → Except Fault (Text × Mark)
  | (.scalar _ _ t, mark) :: _ => .ok (t, mark)
  | (.sequenceStart, mark) :: _ => .error (mismatch field? (.kind .sequence wanted) mark)
  | (.mappingStart, mark) :: _ => .error (mismatch field? (.kind .map wanted) mark)
  | _ => .error .malformed

/-- The text of the node that some parts begin with, which may be an alias for a scalar. -/
def nodeText (d : Document) (field? : Option Text) (wanted : Wanted)
    (parts : List (Part × Mark)) : Except Fault (Text × Mark) :=
  match parts with
  | (.alias number, _) :: _ => scalarText field? wanted (d.target number)
  | _ => scalarText field? wanted parts

/-- What a key is called in messages about its value. -/
def shownKey (key : Part) (t : Text) : Text :=
  match key with
  | .alias _ => ['?']
  | _ => t

/-- Reads the fields of a mapping that begins at `start`, at most `n` of them.  `given` are the fields
that have been read. -/
def fields (d : Document) (start : Mark) :
    Nat → List Field → Conventions → List (Part × Mark) → Except Fault Conventions
  | 0, _, _, _ => .error .malformed
  | _ + 1, _, _, [] => .error .malformed
  | _ + 1, _, conventions, (.mappingEnd, _) :: _ => .ok conventions
  | n + 1, given, conventions, (key, mark) :: rest => do
    let (name, _) ← nodeText d none .field ((key, mark) :: rest)
    match Field.ofName? name with
    | none =>
      match Document.skipNode 0 rest with
      | none => .error .malformed
      | some rest => fields d start n given conventions rest
    | some field =>
      if field ∈ given then .error (mismatch none (.twice name) start)
      else
        let shown := shownKey key name
        let (t, mark) ← nodeText d (some shown) field.wanted rest
        match conventions.set? field t with
        | none => .error (mismatch (some shown) (.value t field.wanted) mark)
        | some conventions => fields d start n (field :: given) conventions rest.tail

/-- The fault of a scalar that stands for the whole mapping. -/
def scalarFault (tag? : Option Bytes) (isPlain : Bool) (t : Text) (mark : Mark) : Fault :=
  match Yaml.Scalar.resolve tag? isPlain t with
  | .ok s => mismatch none (.kind (.scalar s) .conventions) mark
  | .error kind => mismatch none (.value t (.kind kind)) mark

/-- The conventions that the parts of a document spell. -/
def ofDocument (d : Document) : Except Fault Conventions :=
  match d.parts with
  | (.void, _) :: _ => .ok standard
  | (.mappingStart, mark) :: rest => fields d mark (rest.length + 1) [] standard rest
  | (.sequenceStart, mark) :: _ => .error (mismatch none (.kind .sequence .conventions) mark)
  | (.scalar tag? isPlain t, mark) :: _ =>
    if isPlain && t.isEmpty then .ok standard else .error (scalarFault tag? isPlain t mark)
  | _ => .error .malformed

end Reading

/-- The conventions that a text spells. -/
def read (t : Text) : Except Fault Conventions :=
  if t.isBlank then .ok standard
  else do
    let document := Yaml.Document.ofText t
    let conventions ← Reading.ofDocument document
    if document.isWhole && document.isOnly then
      match conventions.complaint? with
      | none => .ok conventions
      | some complaint => .error (.unusable complaint)
    else .error .malformed

/-- The conventions that a file spells. -/
def load (fs : FileSystem) (file : Path) : Except Problem Conventions :=
  match fs.readText file with
  | .error fault => .error (.unavailable fault)
  | .ok t => (read t).mapError .conventions

end FileRoutes.Conventions
