import FileRoutes.Text.Utf8
import FileRoutes.Yaml.Cursor

/-!
# Tags, anchors and directives

A node may be given a tag and a name, and the lines before a document may declare short forms of
tags.  These are the words that such declarations are made of.

A tag is a URI.  It is written in full between angle brackets, or as a handle and a suffix; the
handle is replaced by what it was declared to stand for.  Octets of a URI may be written as two
hexadecimal digits behind a percent sign, but together they have to form characters.  A zero octet
ends the URI: what is behind it is read, but does not count.
-/

namespace FileRoutes.Yaml

namespace Tag

/-- A character of a URI.  The brackets and the comma are read only where they cannot belong to a
collection around the tag. -/
def isUriChar (bracketed : Bool) (c : Char) : Bool :=
  isWord c || c ∈ [';', '/', '?', ':', '@', '&', '=', '+', '$', '.', '!', '~', '*', '\'', '(', ')']
    || bracketed && (c = ',' || c = '[' || c = ']')

/-- How many octets a character has whose first one this is. -/
def octets? (n : Nat) : Option Nat :=
  if n < 0x80 then some 1
  else if 0xC0 ≤ n ∧ n < 0xE0 then some 2
  else if 0xE0 ≤ n ∧ n < 0xF0 then some 3
  else if 0xF0 ≤ n ∧ n < 0xF8 then some 4
  else none

/-- Reads a URI.  `owed` octets are missing of a character that is written in octets. -/
def uri? (bracketed : Bool) : Text → Mark → Nat → Option (Bytes × Cursor)
  | '%' :: a :: b :: rest, mark, owed =>
    match hexValue? a, hexValue? b with
    | some high, some low =>
      let octet := high * 16 + low
      let missing? := match owed with
        | 0 => octets? octet
        | _ => if 0x80 ≤ octet ∧ octet < 0xC0 then some owed else none
      match missing? with
      | none => none
      | some missing =>
        (uri? bracketed rest (mark.afterAll ['%', a, b]) (missing - 1)).map fun r =>
          (UInt8.ofNat octet :: r.1, r.2)
    | _, _ => none
  | c :: rest, mark, 0 =>
    if c = '%' then none
    else if isUriChar bracketed c then
      (uri? bracketed rest (mark.after c) 0).map fun r => (Utf8.encode [c] ++ r.1, r.2)
    else some ([], ⟨c :: rest, mark⟩)
  | [], mark, 0 => some ([], ⟨[], mark⟩)
  | _, _, _ + 1 => none

/-- The octets of a URI that count. -/
def counted (bytes : Bytes) : Bytes := bytes.takeWhile (· ≠ 0)

/-- Reads a URI that is not empty. -/
def fullUri? (bracketed : Bool) (c : Cursor) : Option (Bytes × Cursor) := do
  let (bytes, behind) ← uri? bracketed c.rest c.mark 0
  if bytes = [] then none else some (counted bytes, behind)

/-- Reads an exclamation mark, the word behind it, and a second mark if there is one. -/
def handle? (c : Cursor) : Option (Text × Cursor) :=
  match c.head? with
  | some '!' =>
    let (name, behind) := c.next.span isWord
    if behind.head? = some '!' then some ('!' :: name ++ ['!'], behind.next)
    else some ('!' :: name, behind)
  | _ => none

/-- A handle that is closed by a second mark. -/
def isClosed (handle : Text) : Bool := 2 ≤ handle.length && handle.getLast? == some '!'

/-- A tag as it is written: the handle, or nothing for a whole URI, and what is behind it. -/
structure Written where
  handle : Text
  suffix : Bytes

/-- Reads a tag. -/
def read? (inFlow : Bool) (c : Cursor) : Option (Written × Cursor) := do
  let (tag, behind) ←
    if c.next.head? = some '<' then do
      let (bytes, behind) ← fullUri? true (c.skip 2)
      if behind.head? = some '>' then some (Written.mk [] bytes, behind.next) else none
    else do
      let (handle, behind) ← handle? c
      if isClosed handle then
        let (suffix, behind) ← fullUri? false behind
        some (Written.mk handle suffix, behind)
      else
        -- What looked like a handle is the beginning of the suffix.
        let (rest, behind) ← uri? false behind.rest behind.mark 0
        let suffix := counted (Utf8.encode handle.tail ++ rest)
        if suffix = [] then some (Written.mk [] (Utf8.encode ['!']), behind)
        else some (Written.mk ['!'] suffix, behind)
  if endsWord behind.rest || inFlow && behind.head? = some ',' then some (tag, behind) else none

end Tag

/-- A declaration in front of a document. -/
inductive Directive where
  /-- The version of the format. -/
  | version (major minor : Nat)
  /-- What a handle stands for. -/
  | tag (handle : Text) (tagPrefix : Bytes)

namespace Directive

/-- Reads a number of at most nine digits. -/
def number? (c : Cursor) : Option (Nat × Cursor) :=
  let (digits, behind) := c.span Char.isDigit
  if digits = [] ∨ 9 < digits.length then none
  else some (digits.foldl (fun n d => n * 10 + (d.toNat - '0'.toNat)) 0, behind)

/-- Reads a version. -/
def version? (c : Cursor) : Option (Directive × Cursor) := do
  let (major, behind) ← number? (c.skipWhile isBlank)
  if behind.head? = some '.' then
    let (minor, behind) ← number? behind.next
    some (.version major minor, behind)
  else none

/-- Reads a handle and what it stands for. -/
def tag? (c : Cursor) : Option (Directive × Cursor) := do
  let (handle, behind) ← Tag.handle? (c.skipWhile isBlank)
  if handle ≠ ['!'] ∧ !Tag.isClosed handle then none
  if behind.head?.any isBlank then
    let (bytes, behind) ← Tag.fullUri? true (behind.skipWhile isBlank)
    if endsWord behind.rest then some (.tag handle bytes, behind) else none
  else none

/-- Reads a directive that begins at the cursor, and the rest of its line. -/
def read? (c : Cursor) : Option (Directive × Cursor) := do
  let (name, behind) := c.next.span isWord
  if !endsWord behind.rest then none
  let (directive, behind) ←
    if name = "YAML".toList then version? behind
    else if name = "TAG".toList then tag? behind
    else none
  let behind := behind.skipWhile isBlank
  let behind := if behind.head? = some '#' then behind.skipLine else behind
  match behind.head? with
  | none => some (directive, behind)
  | some x => if isBreak x then some (directive, behind.next) else none

end Directive

/-- Reads the name of an anchor or alias behind its first character. -/
def anchorName? (c : Cursor) : Option (Text × Cursor) :=
  let (name, behind) := c.next.span isWord
  let isEnded := endsWord behind.rest
    || behind.head?.any (· ∈ ['?', ':', ',', ']', '\x7d', '%', '@', '\x60'])
  if name ≠ [] ∧ isEnded then some (name, behind) else none

end FileRoutes.Yaml
