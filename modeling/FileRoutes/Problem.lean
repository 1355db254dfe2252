import FileRoutes.FileSystem.Fault
import FileRoutes.Conventions.Fault
import FileRoutes.Path

/-!
# Problems

A problem is what stops the compiler itself: there is no route tree, an entry of it cannot be read,
a file of conventions cannot be read, or conventions make no sense.
-/

namespace FileRoutes

/-- What stops the compiler. -/
inductive Problem where
  /-- The routes root is no directory that can be listed. -/
  | noRoot (root : Path)
  /-- An entry below the routes root cannot be read. -/
  | unreadable (path : Path) (fault : Fault)
  /-- A file that was asked for cannot be read. -/
  | unavailable (fault : Fault)
  /-- Conventions were given that cannot be used. -/
  | conventions (fault : Conventions.Fault)

namespace Problem

/-- The description of a problem. -/
def message : Problem → Text
  | noRoot root => "Routes root not found: " ++ root.text
  | unreadable path fault => "Cannot read " ++ path.text ++ ": " ++ fault.message
  | unavailable fault => "IO error: " ++ fault.message
  | conventions fault => "Invalid conventions: " ++ fault.message

/-- The fault of the file system behind a problem, if there is one. -/
def fault? : Problem → Option FileRoutes.Fault
  | unreadable _ fault => some fault
  | unavailable fault => some fault
  | _ => none

end Problem

end FileRoutes
