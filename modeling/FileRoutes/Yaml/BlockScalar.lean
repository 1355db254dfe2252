import FileRoutes.Yaml.Cursor

/-!
# Block scalars

A block scalar begins with a bar or an angle bracket at the end of a line and consists of the lines
behind it that are indented enough.  Its header may say how far that is and what becomes of the
breaks at its end; otherwise the first line that is not empty decides, and one break is kept.

Behind a bar, line breaks are kept.  Behind an angle bracket they are folded, but not next to a line
that begins with a blank.
-/

namespace FileRoutes.Yaml

/-- What becomes of the line breaks at the end of a block scalar. -/
inductive Chomping where
  | strip
  | clip
  | keep
  deriving DecidableEq

namespace BlockScalar

/-- The chomping that a character of the header asks for. -/
def chomping? (c : Char) : Option Chomping :=
  if c = '+' then some .keep else if c = '-' then some .strip else none

/-- The digit of the header.  It must not be zero. -/
def increment? (c : Char) : Option Nat :=
  if '1' ≤ c ∧ c ≤ '9' then some (c.toNat - '0'.toNat) else none

/-- Reads the header behind its first character: chomping and depth, in either order. -/
def header? (t : Text) : Option (Chomping × Option Nat × Nat) :=
  match t with
  | [] => some (.clip, none, 0)
  | c :: rest =>
    match chomping? c with
    | some chomping =>
      match rest with
      | d :: _ =>
        if d = '0' then none
        else if (increment? d).isSome then some (chomping, increment? d, 2)
        else some (chomping, none, 1)
      | [] => some (chomping, none, 1)
    | none =>
      if c = '0' then none
      else match increment? c with
        | none => some (.clip, none, 0)
        | some n =>
          match rest.head?.bind chomping? with
          | some chomping => some (chomping, some n, 2)
          | none => some (.clip, some n, 1)

/-- The end of the header's line: blanks and a comment are skipped. -/
def headerEnd? (c : Cursor) : Option Cursor :=
  let c := c.skipWhile isBlank
  let c := if c.head? = some '#' then c.skipLine else c
  match c.head? with
  | none => some c
  | some x => if isBreak x then some c.next else none

/-- Skips the indentation of lines and collects the breaks of those that are empty.  Also told is the
greatest column that was reached.  Without a depth every blank counts as indentation. -/
def emptyLines? (depth? : Option Nat) : Text → Mark → Nat → Option (Text × Nat × Cursor)
  | [], mark, deepest => some ([], max deepest mark.column, ⟨[], mark⟩)
  | c :: rest, mark, deepest =>
    let isIndentation := depth?.all (mark.column < ·)
    if c = ' ' && isIndentation then emptyLines? depth? rest (mark.after c) deepest
    else if c = '\t' && isIndentation then none
    else if isBreak c then
      (emptyLines? depth? rest (mark.after c) (max deepest mark.column)).map fun r =>
        (c :: r.1, r.2)
    else some ([], max deepest mark.column, ⟨c :: rest, mark⟩)

/-- The breaks at the end of what has been read: the one of the last line and those of the empty lines
behind it. -/
structure Ending where
  last? : Option Char
  empty : Text

/-- The text of an ending. -/
def Ending.chomped (e : Ending) : Chomping → Text
  | .strip => []
  | .clip => e.last?.toList
  | .keep => e.last?.toList ++ e.empty

/-- What stands for an ending between two lines, when either of them may begin with a blank. -/
def Ending.between (e : Ending) (isFolded blankBefore blankAfter : Bool) : Text :=
  if isFolded && e.last? = some '\n' && !blankBefore && !blankAfter then
    if e.empty = [] then [' '] else e.empty
  else e.last?.toList ++ e.empty

/-- Reads the lines at a depth, at most `n` of them. -/
def lines? (isFolded : Bool) (depth : Nat) : Nat → Cursor → Bool → Ending →
    Option (Text × Ending × Cursor)
  | 0, c, _, ending => some ([], ending, c)
  | n + 1, c, blankBefore, ending =>
    match c.head? with
    | none => some ([], ending, c)
    | some x =>
      if c.mark.column ≠ depth then some ([], ending, c)
      else
        let (line, behind) := c.span (!isBreak ·)
        match emptyLines? (some depth) behind.next.rest behind.next.mark 0 with
        | none => none
        | some (empty, _, next) =>
          (lines? isFolded depth n next (isBlank x) ⟨behind.head?, empty⟩).map fun r =>
            (ending.between isFolded blankBefore (isBlank x) ++ line ++ r.1, r.2)

/-- The depth of the lines, given that of the collection around them and the greatest column of the
lines before the first that is not empty. -/
def depth (margin deepest : Nat) : Option Nat → Nat
  | some increment => if margin = 0 then increment else margin - 1 + increment
  | none => max (max deepest margin) 1

end BlockScalar

/-- Reads a block scalar whose first character is at the cursor.  `margin` is one more than the column
of the collection around it, or zero if there is none. -/
def blockScalar? (isFolded : Bool) (margin : Nat) (c : Cursor) : Option (Text × Cursor) := do
  let (chomping, increment?, length) ← BlockScalar.header? c.next.rest
  let first ← BlockScalar.headerEnd? (c.next.skip length)
  let given? := increment?.map fun n => BlockScalar.depth margin 0 (some n)
  let (empty, deepest, start) ← BlockScalar.emptyLines? given? first.rest first.mark 0
  let depth := BlockScalar.depth margin deepest increment?
  let (t, ending, behind) ←
    BlockScalar.lines? isFolded depth (start.rest.length + 1) start false ⟨none, empty⟩
  return (t ++ ending.chomped chomping, behind)

end FileRoutes.Yaml
