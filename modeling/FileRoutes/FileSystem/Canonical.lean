import FileRoutes.FileSystem.Resolve

/-!
# Canonical locations

The canonical location of a path is where it leads, found without handing the path to the system as
a whole.  The segments are added one by one to a location that holds no link, and the system is only
asked what is at the location so far.  So it does not matter how long the path is, as long as the
locations on the way are not too long themselves.

Dots are dealt with as text.  That an entry in front of them is a directory is asked for where this
would not show anyway (`needsDirectory`).

The start has to have a location, so there is no canonical location of a relative path after the
current directory was removed.
-/

namespace FileRoutes.FileSystem

/-- The location of the current directory. -/
def currentLocation (fs : FileSystem) : Except Fault Location :=
  if fs.current.lost = 0 then .ok fs.current.location else .error .missing

/-- The segments behind an entry do not lead to a name in it, so they do not show whether it is a
directory. -/
def needsDirectory : List Name → Bool
  | [] => false
  | s :: rest => if Path.isFiller s then rest = [] || needsDirectory rest else s = Path.dotDot

/-- Adds segments to a canonical location.  `jump` goes on where a link leads: it is given the
location of the link's directory, the path in it, and the segments that are left. -/
def canonicalWalk (fs : FileSystem)
    (jump : Location → Path → List Name → Except Fault Location) :
    Location → List Name → Except Fault Location
  | loc, [] => .ok loc
  | loc, s :: rest =>
    if Path.isFiller s then canonicalWalk fs jump loc rest
    else if s = Path.dotDot then canonicalWalk fs jump loc.dropLast rest
    else do
      let here := Path.ofLocation (loc ++ [s])
      match ← fs.lookup .itself here with
      | .link target => jump loc target rest
      | _ =>
        if needsDirectory rest then
          let _ ← fs.lookup .target (here.join .empty)
        canonicalWalk fs jump (loc ++ [s]) rest

/-- Adds segments to a canonical location over at most `links` links. -/
def canonicalFrom (fs : FileSystem) : Nat → Location → List Name → Except Fault Location
  | 0 => fs.canonicalWalk fun _ _ _ => .error .tooManyLinks
  | links + 1 => fs.canonicalWalk fun loc target rest =>
    fs.canonicalFrom links (if target.isAbsolute then [] else loc) (target.segments ++ rest)

/-- The canonical location of a path. -/
def canonical (fs : FileSystem) (p : Path) : Except Fault Location :=
  if p.segments.any (·.contains 0) then .error .zeroByte
  else if p = Path.empty then .error .missing
  else do
    fs.canonicalFrom linkLimit (← if p.isAbsolute then .ok [] else fs.currentLocation) p.segments

end FileRoutes.FileSystem
