import FileRoutes.Yaml.Cursor

/-!
# Gaps between words

Inside a scalar that may go over several lines, the characters between two words are kept apart
until the next word is reached.  Blanks on one line stand for themselves.  Around line breaks they
are dropped and the breaks are folded: one break becomes a blank, and of several the first is
dropped.
-/

namespace FileRoutes.Yaml

/-- What has been read between two words. -/
structure Gap where
  /-- The blanks, as long as there was no break. -/
  blanks : Text
  /-- There was a break. -/
  broken : Bool
  /-- The first break, unless it was escaped. -/
  first? : Option Char
  /-- The breaks after the first. -/
  more : Text

namespace Gap

/-- Nothing has been read. -/
def empty : Gap := ⟨[], false, none, []⟩

/-- A break was read behind a backslash. -/
def escaped : Gap := ⟨[], true, none, []⟩

/-- The gap with a blank behind it. -/
def addBlank (g : Gap) (c : Char) : Gap :=
  if g.broken then g else { g with blanks := g.blanks ++ [c] }

/-- The gap with a break behind it. -/
def addBreak (g : Gap) (c : Char) : Gap :=
  if g.broken then { g with more := g.more ++ [c] } else ⟨[], true, some c, []⟩

/-- The gap with a blank or a break behind it. -/
def add (g : Gap) (c : Char) : Gap := if isBreak c then g.addBreak c else g.addBlank c

/-- What the gap stands for. -/
def text (g : Gap) : Text :=
  if g.broken then
    match g.first? with
    | none => g.more
    | some c =>
      if c = '\n' then if g.more = [] then [' '] else g.more
      else c :: g.more
  else g.blanks

end Gap

end FileRoutes.Yaml
