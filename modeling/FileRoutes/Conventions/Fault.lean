import FileRoutes.Conventions.Basic
import FileRoutes.Text.Quoted
import FileRoutes.Yaml.Scalar

/-!
# Why a text gives no conventions

Conventions are written as a YAML mapping.  The text may be no YAML at all; it may be YAML, but not
the mapping that is wanted, which is a mismatch at a certain field and position; or it may give
conventions that the compiler cannot work with.
-/

namespace FileRoutes.Conventions

/-- A value that was found where another was wanted. -/
inductive Found where
  | map
  | sequence
  | scalar (s : Yaml.Scalar)
  deriving DecidableEq

/-- The description of a scalar. -/
def scalarMessage : Yaml.Scalar → Text
  | .null => "unit value"
  | .bool b => "boolean `" ++ Text.ofBool b ++ "`"
  | .integer n => "integer `" ++ Text.ofInt n ++ "`"
  | .wideInteger n =>
    "integer `" ++ Text.ofInt n ++ "` as " ++ if n < 0 then "i128".toList else "u128".toList
  | .number shown => "floating point `" ++ shown ++ "`"
  | .text t => "string " ++ Text.quoted t

/-- The description of a value that was found. -/
def Found.message : Found → Text
  | map => "map"
  | sequence => "sequence"
  | scalar s => scalarMessage s

/-- What was wanted. -/
inductive Wanted where
  | conventions
  | field
  | text
  | character
  | kind (k : Yaml.Scalar.Kind)
  deriving DecidableEq

/-- The description of what was wanted. -/
def Wanted.message : Wanted → Text
  | conventions => "struct Conventions"
  | field => "field identifier"
  | text => "a string"
  | character => "a character"
  | kind .null => "null"
  | kind .bool => "a boolean"
  | kind .integer => "an integer"
  | kind .number => "a float"

/-- What a mismatch is about. -/
inductive Issue where
  /-- A value of one kind stands where another kind is wanted. -/
  | kind (found : Found) (wanted : Wanted)
  /-- A value has the right kind, but is not among those that are wanted. -/
  | value (found : Text) (wanted : Wanted)
  /-- A field is given twice. -/
  | twice (field : Text)
  deriving DecidableEq

/-- The description of an issue. -/
def Issue.message : Issue → Text
  | kind found wanted => "invalid type: " ++ found.message ++ ", expected " ++ wanted.message
  | value found wanted => "invalid value: string " ++ Text.quoted found ++ ", expected " ++ wanted.message
  | twice field => "duplicate field `" ++ field ++ "`"

/-- A value that does not fit. -/
structure Mismatch where
  /-- The field that it is given to. -/
  field? : Option Text
  issue : Issue
  /-- Its line and column, counted from one, if they are worth telling. -/
  position? : Option (Nat × Nat)
  deriving DecidableEq

/-- The description of a mismatch. -/
def Mismatch.message (m : Mismatch) : Text :=
  (match m.field? with
    | some field => field ++ ": "
    | none => [])
  ++ m.issue.message
  ++ match m.position? with
    | some (line, column) => " at line " ++ Text.ofNat line ++ " column " ++ Text.ofNat column
    | none => []

/-- Why a text gives no conventions. -/
inductive Fault where
  /-- The text is no YAML document, or holds more than one. -/
  | malformed
  /-- The document is not the mapping that is wanted. -/
  | mismatch (m : Mismatch)
  /-- The compiler cannot work with the conventions. -/
  | unusable (complaint : Complaint)
  deriving DecidableEq

/-- The description of a fault. -/
def Fault.message : Fault → Text
  | malformed => "YAML parse failed"
  | mismatch m => "YAML parse failed: " ++ m.message
  | unusable complaint => complaint.message

end FileRoutes.Conventions
