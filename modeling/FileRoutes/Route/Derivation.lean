import FileRoutes.Route.Node
import FileRoutes.Route.Table

/-!
# Deriving the route table

Each folder becomes a route if there is a page in it or below it, and is pruned otherwise.  Files
become nothing: they are only asked whether they are pages.

A folder is decided after the folders in it, since it is kept for their sake.  The derivation records
the decision on every folder in the order in which they are made (`Decision`), next to the routes
themselves.

## Paths

In the relative style a path begins where that of the folder above ends.  This is the depth of the
folder above, which is handed down; the depth of a folder is read off its own logical path.
-/

namespace FileRoutes

/-- What was decided on a folder. -/
inductive Decision where
  /-- There is no page in it or below it. -/
  | pruned (folder : LogicalPath)
  /-- It became a route with so many routes directly below it. -/
  | kept (path : Text) (folder : LogicalPath) (hasPage : Bool) (children : Nat)
  deriving DecidableEq

/-- The record of a decision. -/
def Decision.message : Decision → Text
  | pruned folder => "Pruning " ++ folder.text ++ ": no page below it"
  | kept path folder hasPage children =>
    "Route " ++ path ++ " from " ++ folder.text ++ " (page: " ++ Text.ofBool hasPage
      ++ ", children: " ++ Text.ofNat children ++ ")"

/-- Routes and the decisions that led to them. -/
structure Derivation where
  routes : List Route
  decisions : List Decision

namespace Derivation

/-- Nothing was decided. -/
def empty : Derivation := ⟨[], []⟩

/-- One derivation after another. -/
def append (d e : Derivation) : Derivation := ⟨d.routes ++ e.routes, d.decisions ++ e.decisions⟩

instance : Append Derivation := ⟨append⟩

end Derivation

/-- The position from which the names of a folder count, when that of the folder above ends at
`above`. -/
def PathStyle.start (style : PathStyle) (above : Nat) : Nat :=
  match style with
  | .relative => above
  | .absolute => 0

mutual

/-- Decides on a folder, given the depth of the folder above. -/
def Node.derivation (conventions : Conventions) (style : PathStyle) (above : Nat) :
    Node → Derivation
  | ⟨_, _, logical, _, nodes⟩ =>
    let below := Node.derivationOf conventions style logical.depth nodes
    let hasPage := Node.anyPage conventions nodes
    if !hasPage && below.routes.isEmpty then
      ⟨[], below.decisions ++ [.pruned logical]⟩
    else
      let path := logical.url (style.start above) conventions
      ⟨[⟨path, hasPage, logical.text, below.routes⟩],
        below.decisions ++ [.kept path logical hasPage below.routes.length]⟩

/-- Decides on the folders among the entries of a folder at depth `above`. -/
def Node.derivationOf (conventions : Conventions) (style : PathStyle) (above : Nat) :
    List Node → Derivation
  | [] => .empty
  | n :: rest =>
    (if n.isFolder then Node.derivation conventions style above n else .empty)
      ++ Node.derivationOf conventions style above rest

end

/-- The derivation of the route table from the entries of the routes root. -/
def derive (conventions : Conventions) (style : PathStyle) (nodes : List Node) : Derivation :=
  Node.derivationOf conventions style 0 nodes

end FileRoutes
