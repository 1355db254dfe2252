import FileRoutes.FileSystem.Entry
import FileRoutes.FileSystem.Fault

/-!
# From paths to locations

A path is followed from left to right.  Each name is looked up in the directory reached so far, and
a symbolic link that is met on the way is replaced by the path it holds before the next segment is
looked at.  So `..` leaves the directory that a link led to, not the one that holds the link.

## Steps

`Path.steps` turns the segments into steps: stay in the directory, go up, go down to a name.  Empty
segments are no steps, except for the one behind a last slash: `settle` asks that what has been
reached is a directory.

## The end of a path

What happens at the last name depends on the purpose (`Purpose`): an entry may be wanted itself
although it is a link, or what the link leads to, or a file may be about to be created there.  A
missing last name is no fault yet: the result then tells the directory and the name (`Place.gap`).

## Removed directories

The current directory may have been removed.  It and what was removed with it above can still be
reached by dots, but have no location (`Place.removed`): nothing is found in them or made there.

## Termination

Inside one path the number of steps falls.  A link puts new steps in front, but at most
`linkLimit` links are followed, so `follow` recurses on that number and `walk` on the steps.
-/

namespace FileRoutes

/-- One step on the way that a path describes. -/
inductive Step where
  /-- Stay in the directory. -/
  | stay
  /-- Go to the directory above. -/
  | up
  /-- Go down to a name. -/
  | down (name : Name)
  /-- Be sure to have reached a directory. -/
  | settle
  deriving DecidableEq

/-- The step that a segment stands for, if it is no empty one. -/
def Step.ofSegment? (s : Name) : Option Step :=
  if s = [] then none
  else if s = Path.dot then some .stay
  else if s = Path.dotDot then some .up
  else some (.down s)

/-- The steps of a path. -/
def Path.steps (p : Path) : List Step :=
  p.initial.filterMap Step.ofSegment?
    ++ match Step.ofSegment? p.last with
      | some s => [s]
      | none => if p.initial = [] then [] else [.settle]

/-- What a path is followed for. -/
inductive Purpose where
  /-- The entry itself, be it a link. -/
  | itself
  /-- The entry, or what it leads to. -/
  | target
  /-- A file that is opened and, if it is missing, created. -/
  | creation
  deriving DecidableEq

/-- Where a path leads. -/
inductive Place where
  /-- To an entry. -/
  | entry (location : Location)
  /-- To a name that a directory does not have. -/
  | gap (directory : Location) (name : Name)
  /-- To a directory that was removed. -/
  | removed
  deriving DecidableEq

namespace FileSystem

/-- How many links are followed before a path is given up. -/
def linkLimit : Nat := 40

/-- The greatest number of bytes in a name. -/
def nameLimit : Nat := 255

/-- The number of bytes from which on a path is too long. -/
def pathLimit : Nat := 4096

/-- The mode and the entries of the directory at a location. -/
def directoryAt (fs : FileSystem) (loc : Location) : Except Fault (Mode × List (Name × Entry)) :=
  match fs.find? loc with
  | some (.directory mode entries) => .ok (mode, entries)
  | _ => .error .notDirectory

/-- The mode and the entries of the directory that has been reached. -/
def directoryOf (fs : FileSystem) (s : Spot) : Except Fault (Mode × List (Name × Entry)) :=
  if s.lost = 0 then fs.directoryAt s.location else .ok (.full, [])

/-- The entries of the directory that has been reached, provided that they may be reached by name. -/
def searchable (fs : FileSystem) (s : Spot) : Except Fault (List (Name × Entry)) := do
  let (mode, entries) ← fs.directoryOf s
  if mode.search then .ok entries else .error .denied

/-- Follows steps from what has been reached.  `jump` goes on where a link leads: it is given the
directory of the link, the path in it, and the steps that are left. -/
def walk (fs : FileSystem) (purpose : Purpose)
    (jump : Location → Path → List Step → Except Fault Place) :
    Spot → List Step → Except Fault Place
  | s, [] => .ok (if s.lost = 0 then .entry s.location else .removed)
  | s, .settle :: rest => do
    let _ ← fs.directoryOf s
    walk fs purpose jump s rest
  | s, .stay :: rest => do
    let _ ← fs.searchable s
    walk fs purpose jump s rest
  | s, .up :: rest => do
    let _ ← fs.searchable s
    walk fs purpose jump s.above rest
  | s, .down name :: rest => do
    let entries ← fs.searchable s
    let isEnd := rest.all (· = .settle)
    if purpose = .creation ∧ isEnd ∧ rest ≠ [] then .error .isDirectory
    else if s.lost ≠ 0 then .error .missing
    else if name.length > nameLimit then .error .nameTooLong
    else match entries.lookup name with
      | none => if rest = [] then .ok (.gap s.location name) else .error .missing
      | some (.link target) =>
        if purpose = .itself ∧ rest = [] then .ok (.entry (s.location ++ [name]))
        else jump s.location target rest
      | some _ => walk fs purpose jump (.ofLocation (s.location ++ [name])) rest

/-- From where a path starts, if the path may be asked for at all. -/
def start (fs : FileSystem) (p : Path) : Except Fault Spot :=
  if p.segments.any (·.contains 0) then .error .zeroByte
  else if p = Path.empty then .error .missing
  else if p.bytes.length ≥ pathLimit then .error .nameTooLong
  else .ok (if p.isAbsolute then .ofLocation [] else fs.current)

/-- Follows steps over at most `links` links. -/
def follow (fs : FileSystem) (purpose : Purpose) :
    Nat → Spot → List Step → Except Fault Place
  | 0 => fs.walk purpose fun _ _ _ => .error .tooManyLinks
  | links + 1 => fs.walk purpose fun loc target rest =>
    fs.follow purpose links (.ofLocation (if target.isAbsolute then [] else loc)) (target.steps ++ rest)

/-- Where a path leads. -/
def resolve (fs : FileSystem) (purpose : Purpose) (p : Path) : Except Fault Place := do
  fs.follow purpose linkLimit (← fs.start p) p.steps

/-- The location of the entry to which a path leads. -/
def locate (fs : FileSystem) (purpose : Purpose) (p : Path) : Except Fault Location := do
  match ← fs.resolve purpose p with
  | .entry loc => .ok loc
  | .gap _ _ | .removed => .error .missing

/-- The entry to which a path leads. -/
def lookup (fs : FileSystem) (purpose : Purpose) (p : Path) : Except Fault Entry := do
  match ← fs.resolve purpose p with
  | .entry loc =>
    match fs.find? loc with
    | some e => .ok e
    | none => .error .missing
  | .gap _ _ => .error .missing
  | .removed => .ok .emptyDirectory

/-- The last name of a path and the directory in which it is looked up. -/
structure Slot where
  /-- The directory. -/
  directory : Location
  /-- The mode of the directory. -/
  mode : Mode
  /-- The last name; none if the path ends in a dot, two dots or nothing at all. -/
  name? : Option Name
  /-- The name is followed by a slash. -/
  slashed : Bool

/-- Splits steps before the last one that is not `settle`. -/
def splitLast (steps : List Step) : List Step × Option Step × Bool :=
  let slashed := steps.getLast? = some .settle
  let named := if slashed then steps.dropLast else steps
  (named.dropLast, named.getLast?, slashed)

/-- The slot that a path names.  The links on the way to the directory are followed, one at the last
name is not. -/
def slot (fs : FileSystem) (p : Path) : Except Fault Slot := do
  let spot ← fs.start p
  let (before, last?, slashed) := splitLast p.steps
  match ← fs.follow .target linkLimit spot before with
  | .gap _ _ => .error .missing
  | .removed =>
    match last? with
    | some (.down _) => .error .missing
    | _ => .ok ⟨[], .full, none, slashed⟩
  | .entry directory =>
    let (mode, _) ← fs.directoryAt directory
    if !mode.search then .error .denied
    match last? with
    | some (.down name) => .ok ⟨directory, mode, some name, slashed⟩
    | _ => .ok ⟨directory, mode, none, slashed⟩

end FileSystem

end FileRoutes
