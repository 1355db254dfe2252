import FileRoutes.Yaml.Gap

/-!
# Plain scalars

A plain scalar has no quotes.  It ends at a colon that ends a word, at a number sign behind a blank,
at a line that is not indented enough, and inside brackets at any of the characters that structure
them.  What is behind its last word belongs to it only if another word follows.
-/

namespace FileRoutes.Yaml

/-- A plain scalar and what is behind it. -/
structure PlainScalar where
  text : Text
  /-- Where the reading goes on, behind the gap after the last word. -/
  cursor : Cursor
  /-- There was a line break in that gap. -/
  brokenOff : Bool

/-- A character that structures a collection in brackets. -/
def isFlowMark (c : Char) : Bool := c = ',' || c = '[' || c = ']' || c = '\x7b' || c = '\x7d'

namespace PlainScalar

/-- The scalar with a text in front. -/
def behind (t : Text) (s : PlainScalar) : PlainScalar := { s with text := t ++ s.text }

/-- No word can begin here: the line belongs to something else, or to nothing. -/
def isOver (inFlow : Bool) (margin : Nat) (mark : Mark) (t : Text) : Bool :=
  (!inFlow && mark.column < margin) || (mark.column = 0 && isDocumentMarker t)
    || t.head? == some '#'

/-- Reads a plain scalar.  `margin` is the least column of a line that goes on with it; `gap?` is the
gap that is being read, if the last character was not part of a word. -/
def read? (inFlow : Bool) (margin : Nat) : Text → Mark → Option Gap → Option PlainScalar
  | [], mark, gap? => some ⟨[], ⟨[], mark⟩, gap?.any (·.broken)⟩
  | c :: rest, mark, gap? =>
    if isSpace c then
      let gap := gap?.getD .empty
      if gap.broken && c = '\t' && mark.column < margin then none
      else read? inFlow margin rest (mark.after c) (some (gap.add c))
    else if gap?.isSome && isOver inFlow margin mark (c :: rest)
        || c = ':' && endsWord rest || inFlow && isFlowMark c then
      some ⟨[], ⟨c :: rest, mark⟩, gap?.any (·.broken)⟩
    else if inFlow && c = ':' && rest.head?.any (fun d => d = '?' || isFlowMark d) then none
    else
      (read? inFlow margin rest (mark.after c) none).map
        (behind ((gap?.getD .empty).text ++ [c]))

end PlainScalar

end FileRoutes.Yaml
