import FileRoutes.Route.Derivation
import FileRoutes.Route.Literal
import FileRoutes.Route.Loading

/-!
# Compiling a route tree

A compilation loads the whole tree, derives the whole table from it and writes the table as a
literal.  It is a question to the file system: nothing is changed by it.
-/

namespace FileRoutes

/-- What a compilation is to do. -/
structure Settings where
  conventions : Conventions
  order : EntryOrder
  style : PathStyle

/-- The result of a compilation. -/
structure Compilation where
  /-- The entries of the routes root. -/
  nodes : List Node
  /-- The route table and the decisions that led to it. -/
  derivation : Derivation
  /-- The literal of the route table. -/
  fragment : Text

/-- The route table. -/
def Compilation.routes (c : Compilation) : List Route := c.derivation.routes

/-- Compiles the route tree at `root`. -/
def compile (settings : Settings) (fs : FileSystem) (root : Path) : Except Problem Compilation :=
  match load fs settings.order settings.conventions.logicalRoot root with
  | .error problem => .error problem
  | .ok nodes =>
    let derivation := derive settings.conventions settings.style nodes
    .ok ⟨nodes, derivation, Route.fragment settings.conventions derivation.routes⟩

end FileRoutes
