import FileRoutes.Text.Basic

/-!
# Conventions of a file-based router

A router that reads its routes off a directory tree reserves some names: that of the directory, that
of the files which make a folder a page, and the delimiters around a folder that groups others
without appearing in their URLs.  `Conventions` holds these names, so nothing else in the library
knows them; the defaults are those of the Next.js app router.

`complaint?` tells what is wrong with a value that the compiler cannot work with.  Only the first
complaint is made.
-/

namespace FileRoutes

/-- The reserved names of a file-based router. -/
structure Conventions where
  /-- The directory of a project that holds the route tree. -/
  appDir : Text
  /-- What stands for that directory at the beginning of a module path. -/
  logicalRoot : Text
  /-- The beginning of the name of a page file. -/
  pagePrefix : Text
  /-- The module of a page, relative to its folder. -/
  pageModule : Text
  /-- The first character of a route group. -/
  groupOpen : Char
  /-- The last character of a route group. -/
  groupClose : Char
  /-- The function around the import of a page. -/
  lazyLoader : Text
  deriving DecidableEq

namespace Conventions

/-- The conventions of the Next.js app router. -/
def standard : Conventions where
  appDir := "app"
  logicalRoot := "./app"
  pagePrefix := "page."
  pageModule := "page"
  groupOpen := '('
  groupClose := ')'
  lazyLoader := "lazy"

instance : Inhabited Conventions := ⟨standard⟩

/-- A folder of this name groups others and adds nothing to their URLs: the name begins with the
opening and ends with the closing delimiter, and these are two characters of it. -/
def isRouteGroup (conventions : Conventions) (segment : Text) : Bool :=
  2 ≤ segment.length
    && segment.head? == some conventions.groupOpen
    && segment.getLast? == some conventions.groupClose

/-- A file of this name makes its folder a page. -/
def isPageFile (conventions : Conventions) (name : Text) : Bool :=
  conventions.pagePrefix.isPrefixOf name

/-- What can be wrong with conventions. -/
inductive Complaint where
  /-- Every file would be a page. -/
  | emptyPagePrefix
  /-- There would be no module to import. -/
  | emptyPageModule
  /-- The route tree is not in a directory directly below the project. -/
  | compositeAppDir (given : Text)
  /-- A group could not be told from a folder whose name has one character at both ends. -/
  | equalDelimiters (delimiter : Char)
  deriving DecidableEq

/-- The description of a complaint. -/
def Complaint.message : Complaint → Text
  | emptyPagePrefix => "page_prefix must not be empty"
  | emptyPageModule => "page_module must not be empty"
  | compositeAppDir given => "app_dir must be a single directory name, got '" ++ given ++ "'"
  | equalDelimiters delimiter => "group delimiters must differ, both are '" ++ [delimiter] ++ "'"

/-- The first complaint about conventions, if there is one. -/
def complaint? (conventions : Conventions) : Option Complaint :=
  if conventions.pagePrefix = [] then some .emptyPagePrefix
  else if conventions.pageModule = [] then some .emptyPageModule
  else if conventions.appDir = [] ∨ '/' ∈ conventions.appDir ∨ '\\' ∈ conventions.appDir then
    some (.compositeAppDir conventions.appDir)
  else if conventions.groupOpen = conventions.groupClose then
    some (.equalDelimiters conventions.groupOpen)
  else none

end Conventions

end FileRoutes
