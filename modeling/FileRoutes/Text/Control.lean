import FileRoutes.Text.Utf8

/-!
# Texts without control sequences

A terminal takes some characters as orders: an escape character begins a sequence that is not shown
but obeyed.  Where a text goes to something that is no terminal, these sequences are taken out, and
with them all controls except for those that are white space.

## Sequences

What follows the escape character decides what kind of sequence it is and hence where it ends
(`Sequence`).  A new escape character always begins a new sequence, and the characters `CAN` and `SUB`
always end the one that is being read.  A sequence that is not ended goes on to the end of the text.

White space may stand in the short sequences and is kept.  What is behind it is taken to be shown,
until the next control that is no white space; only then does the sequence go on.  Hence the reader
knows, besides the sequence it is in, whether the last character was kept.

Some sequences are ended by the byte `9C`.  It appears as a part of other characters only, and
these are lost with the sequence.
-/

namespace FileRoutes.Text

/-- The sequence that is being read. -/
inductive Sequence where
  /-- None: characters stand for themselves. -/
  | none
  /-- Only the escape character was read. -/
  | escape
  /-- An escape sequence that goes on to a final character. -/
  | escapeRest
  /-- A control sequence, which goes on to a letter. -/
  | control
  /-- The beginning of a device control string. -/
  | deviceEntry
  /-- The parameters of a device control string. -/
  | deviceParameters
  /-- What is between the parameters and the data of a device control string. -/
  | deviceRest
  /-- Data that goes on to a terminator. -/
  | data
  /-- A command to the operating system. -/
  | command
  deriving DecidableEq

namespace Sequence

/-- The character lies between two code points. -/
def within (first last : Nat) (c : Char) : Bool := first ≤ c.toNat && c.toNat ≤ last

/-- The character is written as one byte. -/
def isAscii (c : Char) : Bool := c.toNat < 0x80

/-- The controls that are white space. -/
def isSpace (c : Char) : Bool := c = '\t' || c = '\n' || c = '\x0c' || c = '\r'

/-- The sequence that a character begins behind an escape character. -/
def behindEscape (c : Char) : Sequence :=
  if c = '[' then control
  else if c = ']' then command
  else if c = 'P' then deviceEntry
  else if c = 'X' || c = '^' || c = '_' then data
  else if within 0x20 0x2F c then escapeRest
  else if within 0x30 0x7E c then none
  else escape

/-- The sequence behind a character of it that is not kept. -/
def after (s : Sequence) (c : Char) : Sequence :=
  if c = '\x1b' then escape
  else if c = '\x18' || c = '\x1a' then none
  else match s with
    | none => none
    | escape => behindEscape c
    | escapeRest => if within 0x30 0x7E c then none else escapeRest
    | control => if within 0x40 0x7E c then none else control
    | deviceEntry =>
      if within 0x20 0x2F c then deviceRest
      else if within 0x30 0x3F c then deviceParameters
      else if within 0x40 0x7E c then data
      else deviceEntry
    | deviceParameters =>
      if within 0x20 0x2F c then deviceRest
      else if within 0x3C 0x7E c then data
      else deviceParameters
    | deviceRest => if within 0x30 0x7E c then data else deviceRest
    | data => if !isAscii c && (Utf8.encode [c]).contains 0x9C then none else data
    | command => if c = '\x07' then none else command

/-- A character is kept in a sequence. -/
def keeps (s : Sequence) (c : Char) : Bool :=
  match s with
  | none => isSpace c || within 0x20 0x7E c || !isAscii c
  | escape | escapeRest | control => isSpace c
  | _ => false

/-- Takes the sequences out of a text of which `s` has been begun.  The last character before it was
kept or not. -/
def strip : Sequence → Bool → Text → Text
  | _, _, [] => []
  | s, wasKept, c :: rest =>
    if s.keeps c || wasKept && none.keeps c then
      c :: strip (if isAscii c then s else none) true rest
    else strip (s.after c) false rest

end Sequence

/-- A text without control sequences and without controls that are no white space. -/
def withoutControls (t : Text) : Text := Sequence.none.strip false t

end FileRoutes.Text
