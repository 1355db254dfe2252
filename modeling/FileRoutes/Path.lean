import FileRoutes.Text.Utf8

/-!
# Paths

A path is what stands between its slashes: a list of segments, some of which may be empty.  Nothing
is tidied away, so a path is shown exactly as it was given, and `ofBytes` and `bytes` undo each
other.  A path always has a last segment, and this is why it is kept apart: the empty path is a
single empty segment, and a path that ends in a slash has an empty last segment.

## Two readings

* `join` and `child` build longer paths.  They look at segments only: a path that ends in a slash
  gives up its empty last segment to what is appended.
* `parent?` drops the last *component*.  A component is a segment that says something: empty
  segments and dots are skipped, except for the slash at the beginning of an absolute path and the
  dot at the beginning of a relative one.

What the file system makes of a path is another matter, told in `FileSystem.Resolve`: it follows links and
gives a trailing slash a meaning.
-/

namespace FileRoutes

/-- The name of a directory entry. -/
abbrev Name := Bytes

/-- The names on the way from the root of the file system down to an entry. -/
abbrev Location := List Name

/-- A path, cut at its slashes. -/
structure Path where
  /-- The segments that are followed by a slash. -/
  initial : List Name
  /-- The segment behind the last slash. -/
  last : Name
  deriving DecidableEq, Inhabited

namespace Path

/-- The byte between two segments. -/
def slash : UInt8 := 0x2F

/-- The segment for the directory reached so far. -/
def dot : Name := [0x2E]

/-- The segment for the directory above the one reached so far. -/
def dotDot : Name := [0x2E, 0x2E]

/-- The path without any byte. -/
def empty : Path := ⟨[], []⟩

/-- Cuts a byte sequence at its slashes. -/
def ofBytes : Bytes → Path
  | [] => empty
  | b :: rest =>
    let p := ofBytes rest
    if b = slash then ⟨[] :: p.initial, p.last⟩
    else match p.initial with
      | [] => ⟨[], b :: p.last⟩
      | s :: ss => ⟨(b :: s) :: ss, p.last⟩

/-- The bytes of a path. -/
def bytes (p : Path) : Bytes := p.initial.flatMap (· ++ [slash]) ++ p.last

/-- The path that a text spells. -/
def ofText (t : Text) : Path := ofBytes (Utf8.encode t)

/-- The path as it is shown in messages. -/
def text (p : Path) : Text := Utf8.decodeLossy p.bytes

/-- All segments, in order. -/
def segments (p : Path) : List Name := p.initial ++ [p.last]

/-- The path with these segments; the empty path if there are none. -/
def ofSegments (ss : List Name) : Path := ⟨ss.dropLast, ss.getLastD []⟩

/-- The path begins with a slash. -/
def isAbsolute (p : Path) : Bool := p.initial.head? == some []

/-! ## Longer paths -/

/-- A path behind another.  An absolute path stands for itself, whatever is before it. -/
def join (p q : Path) : Path :=
  if q.isAbsolute then q
  else ⟨(if p.last = [] then p.initial else p.initial ++ [p.last]) ++ q.initial, q.last⟩

/-- The path of an entry of the directory that a path names. -/
def child (p : Path) (name : Name) : Path := p.join ⟨[], name⟩

/-- The relative path through these names; the empty path if there are none. -/
def ofNames (names : List Name) : Path := ofSegments names

/-- The absolute path of a location. -/
def ofLocation (loc : Location) : Path := ofSegments ([] :: if loc = [] then [[]] else loc)

/-! ## The path above -/

/-- A segment that is no component: nothing, or a dot. -/
def isFiller (s : Name) : Bool := s = [] || s = dot

/-- The segments up to the last one that is a component. -/
def trimmed (ss : List Name) : List Name := (ss.reverse.dropWhile isFiller).reverse

/-- The segments before the last component; none if there is no component. -/
def beforeLast? (ss : List Name) : Option (List Name) :=
  match trimmed ss with
  | [] => none
  | s :: rest => some (trimmed (s :: rest).dropLast)

/-- The path without its last component.  There is none above the root and above the empty path. -/
def parent? (p : Path) : Option Path :=
  match p.segments with
  | [] => none
  | [] :: s :: ss =>
    (beforeLast? (s :: ss)).map fun body => ofSegments ([] :: if body = [] then [[]] else body)
  | s :: ss =>
    if s = dot then
      match beforeLast? ss with
      | some body => some (ofSegments (dot :: body))
      | none => some empty
    else (beforeLast? (s :: ss)).map ofSegments

/-- A path and the paths above it, at most `n` of them. -/
def lineage : Nat → Path → List Path
  | 0, _ => []
  | n + 1, p =>
    match p.parent? with
    | some q => p :: lineage n q
    | none => [p]

/-- A path and all paths above it: each has fewer segments than the one before, or is the empty
path. -/
def ancestors (p : Path) : List Path := lineage (p.initial.length + 2) p

end Path

end FileRoutes
