import FileRoutes.Route.Derivation

/-!
# Tables as lists of chains

A route table is a forest.  Here it is written as a list: each route of it, in preorder, stands as
the chain of headings from the top down to it.  The heading of a route is what the route says of
itself, without the routes below it.

The list determines the forest.  The length of a chain is the depth of its route, and all of the
chain but its end is the chain of the route above, so statements about shape, order, nesting and
fields of a table are statements about this one list.
-/

namespace FileRoutes

/-- What a route says of itself. -/
structure Heading where
  path : Text
  hasPage : Bool
  source : Text
  deriving DecidableEq

namespace Route

/-- The route without the routes below it. -/
def heading (r : Route) : Heading := ⟨r.path, r.hasPage, r.source⟩

mutual

/-- The chains of a route and of all routes below it, in preorder. -/
def chains : Route → List (List Heading)
  | ⟨path, hasPage, source, children⟩ =>
    [⟨path, hasPage, source⟩] :: (chainsOf children).map (⟨path, hasPage, source⟩ :: ·)

/-- The chains of the routes of a table, in preorder. -/
def chainsOf : List Route → List (List Heading)
  | [] => []
  | r :: rest => chains r ++ chainsOf rest

end

@[simp] theorem chainsOf_nil : chainsOf [] = [] := by
  rw [chainsOf]

@[simp] theorem chainsOf_cons (r : Route) (rest : List Route) :
    chainsOf (r :: rest) = chains r ++ chainsOf rest := by
  rw [chainsOf]

theorem chains_eq (r : Route) :
    chains r = [r.heading] :: (chainsOf r.children).map (r.heading :: ·) := by
  cases r
  rw [chains]
  rfl

theorem chainsOf_append (rs ss : List Route) : chainsOf (rs ++ ss) = chainsOf rs ++ chainsOf ss := by
  induction rs with
  | nil => rfl
  | cons r rs ih => rw [List.cons_append, chainsOf_cons, ih, chainsOf_cons, List.append_assoc]

theorem chainsOf_eq_nil_iff {rs : List Route} : chainsOf rs = [] ↔ rs = [] := by
  cases rs with
  | nil => simp
  | cons r rs => simp [chains_eq]

end Route

/-! ## Derivations -/

namespace Derivation

@[simp] theorem routes_empty : (empty : Derivation).routes = [] := rfl

end Derivation

namespace Node

variable (conventions : Conventions) (style : PathStyle) (above : Nat)

@[simp] theorem derivationOf_nil : derivationOf conventions style above [] = .empty := by
  rw [derivationOf]

/-- Files become nothing. -/
theorem derivationOf_cons_of_file {n : Node} (h : n.kind = .file) (rest : List Node) :
    (derivationOf conventions style above (n :: rest)).routes =
      (derivationOf conventions style above rest).routes := by
  rw [derivationOf, isFolder, h]
  rfl

theorem derivationOf_cons_of_folder {n : Node} (h : n.kind = .folder) (rest : List Node) :
    (derivationOf conventions style above (n :: rest)).routes =
      (derivation conventions style above n).routes
        ++ (derivationOf conventions style above rest).routes := by
  rw [derivationOf, isFolder, h]
  rfl

/-- The routes below a folder. -/
def routesBelow (n : Node) : List Route :=
  (derivationOf conventions style n.logical.depth n.children).routes

/-- A folder without a page in it or below it becomes nothing. -/
theorem routes_derivation_of_pruned {n : Node} (hpage : anyPage conventions n.children = false)
    (hbelow : n.routesBelow conventions style = []) :
    (derivation conventions style above n).routes = [] := by
  obtain ⟨name, path, logical, kind, children⟩ := n
  rw [routesBelow] at hbelow
  rw [derivation]
  simp only at hpage hbelow
  simp [hpage, hbelow]

/-- Any other folder becomes one route. -/
theorem routes_derivation_of_kept {n : Node}
    (h : anyPage conventions n.children = true ∨ n.routesBelow conventions style ≠ []) :
    (derivation conventions style above n).routes =
      [⟨n.logical.url (style.start above) conventions, anyPage conventions n.children,
        n.logical.text, n.routesBelow conventions style⟩] := by
  obtain ⟨name, path, logical, kind, children⟩ := n
  have hkept : (!anyPage conventions children
      && (derivationOf conventions style logical.depth children).routes.isEmpty) = false := by
    rcases h with h | h
    · simp only at h
      simp [h]
    · rw [routesBelow] at h
      simp only at h
      simp [h]
  rw [derivation]
  simp only [hkept]
  rfl

end Node

end FileRoutes
