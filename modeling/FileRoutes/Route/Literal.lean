import FileRoutes.Conventions.Basic
import FileRoutes.Route.Table

/-!
# The route table as an array literal

The table is written as a TypeScript array of objects, two blanks per level.  The fields of a route
come in a fixed order: its path, the element that loads its page if it has one, and the routes below
it if there are any.

## Strings

A string stands between apostrophes.  Of its characters only those are escaped that would end the
string or the line it is on; all others stand for themselves.
-/

namespace FileRoutes

/-- A character inside a string literal. -/
def Literal.escaped (c : Char) : Text :=
  if c = '\\' then "\\\\"
  else if c = '\'' then "\\'"
  else if c = '\n' then "\\n"
  else if c = '\r' then "\\r"
  else [c]

/-- A string literal. -/
def Literal.quote (value : Text) : Text := "'" ++ value.flatMap Literal.escaped ++ "'"

/-- The blanks at the beginning of a line. -/
def Literal.indent (depth : Nat) : Text := Text.repeated depth "  "

/-- The module of a route's page. -/
def Route.module (conventions : Conventions) (source : Text) : Text :=
  source ++ "/" ++ conventions.pageModule

mutual

/-- The object literal of a route, on lines of its own. -/
def Route.literal (conventions : Conventions) (depth : Nat) : Route → Text
  | ⟨path, hasPage, source, children⟩ =>
    let inner := Literal.indent (depth + 1)
    let element : Text := if hasPage then
        inner ++ "element: " ++ conventions.lazyLoader ++ "(() => import("
          ++ Literal.quote (Route.module conventions source) ++ ")),\n"
      else []
    let below : Text := if children.isEmpty then []
      else inner ++ "children: [\n" ++ Route.literals conventions (depth + 2) children
        ++ inner ++ "],\n"
    Literal.indent depth ++ "\x7b\n" ++ inner ++ "path: " ++ Literal.quote path ++ ",\n"
      ++ element ++ below ++ Literal.indent depth ++ "\x7d,\n"

/-- The object literals of several routes. -/
def Route.literals (conventions : Conventions) (depth : Nat) : List Route → Text
  | [] => []
  | r :: rest => Route.literal conventions depth r ++ Route.literals conventions depth rest

end

/-- The array literal of a route table. -/
def Route.fragment (conventions : Conventions) (routes : List Route) : Text :=
  if routes.isEmpty then "[]" else "[\n" ++ Route.literals conventions 1 routes ++ "]"

end FileRoutes
