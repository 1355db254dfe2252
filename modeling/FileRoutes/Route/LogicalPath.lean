import FileRoutes.Conventions.Basic

/-!
# Logical paths

The logical path of a file or folder is the list of names that lead to it from the routes root,
behind a marker that stands for the root.  It is never taken apart again: a longer path is made by
adding a name, so a folder that has the root's name, or a part of the marker, is like any other.

A logical path is read in two ways.  `text` shows all names behind the marker; this is what page
modules are imported from.  `url` shows the names from some position on, without route groups; this
is what appears in the address bar.
-/

namespace FileRoutes

/-- Names below the routes root. -/
structure LogicalPath where
  /-- What stands for the root. -/
  marker : Text
  /-- The names, from the root down. -/
  segments : List Text
  deriving DecidableEq

namespace LogicalPath

/-- The path of the routes root itself. -/
def root (marker : Text) : LogicalPath := ⟨marker, []⟩

/-- The path of an entry of the folder. -/
def join (path : LogicalPath) (name : Text) : LogicalPath :=
  ⟨path.marker, path.segments ++ [name]⟩

/-- The number of names. -/
def depth (path : LogicalPath) : Nat := path.segments.length

/-- The marker and the names, each behind a slash. -/
def text (path : LogicalPath) : Text := path.marker ++ path.segments.flatMap ('/' :: ·)

/-- The names that appear in a URL: those from position `start` on that are no route groups. -/
def visible (path : LogicalPath) (start : Nat) (conventions : Conventions) : List Text :=
  (path.segments.drop start).filter (!conventions.isRouteGroup ·)

/-- The URL of the names from position `start` on; a slash if none of them appears in it. -/
def url (path : LogicalPath) (start : Nat) (conventions : Conventions) : Text :=
  '/' :: Text.join ['/'] (path.visible start conventions)

end LogicalPath

end FileRoutes
