import FileRoutes.Route.Dump
import FileRoutes.Proofs.Json.Reading
import Mathlib.Data.List.Forall2

/-!
# Reading the dump of a table back

The dump of a route table is read by a reader for all of JSON (`Json.read?`), and nothing of the table is
lost (`dump_read`).

* There is an object for each route, in the order of the routes.  Its keys are `path`, `hasPage` and `source`,
  and `children` if there are routes below the route; these stand there in the same way (`Route.Describes`).
* A route is found in an object by the keys alone, in whatever order they stand, and without the last key there
  are no routes below it (`Route.ofValue?`).
-/

namespace FileRoutes

namespace Route

/-! ## What is read of a route -/

/-- An object tells a route by these keys and no others. -/
inductive Describes : Json.Value → Route → Prop where
  | mk {r : Route} {values : List Json.Value} : List.Forall₂ Describes values r.children →
    Describes (.object (("path", .string r.path) :: ("hasPage", .bool r.hasPage) :: ("source", .string r.source)
      :: if r.children.isEmpty then [] else [("children", .array values)])) r

/-- The text under a key. -/
def textAt? (key : Text) (members : List (Text × Json.Value)) : Option Text :=
  match members.lookup key with
  | some (.string t) => some t
  | _ => none

/-- The truth value under a key. -/
def boolAt? (key : Text) (members : List (Text × Json.Value)) : Option Bool :=
  match members.lookup key with
  | some (.bool b) => some b
  | _ => none

mutual

/-- The route that an object tells. -/
def ofValue? : Json.Value → Option Route
  | .object members => do
    let path ← textAt? "path" members
    let hasPage ← boolAt? "hasPage" members
    let source ← textAt? "source" members
    let children ← childrenOf? members
    some ⟨path, hasPage, source, children⟩
  | _ => none

/-- The routes under the key for the routes below a route; none if it is missing. -/
def childrenOf? : List (Text × Json.Value) → Option (List Route)
  | [] => some []
  | (key, .array values) :: rest => if key = "children".toList then ofValues? values else childrenOf? rest
  | (key, _) :: rest => if key = "children".toList then none else childrenOf? rest

/-- The routes that several objects tell. -/
def ofValues? : List Json.Value → Option (List Route)
  | [] => some []
  | value :: rest => do
    let r ← ofValue? value
    let rs ← ofValues? rest
    some (r :: rs)

end

/-! ## What was written -/

mutual

theorem describes_json : ∀ r : Route, Describes r.json.value r
  | ⟨path, hasPage, source, children⟩ => by
    have h := Describes.mk (r := ⟨path, hasPage, source, children⟩) (describes_jsons children)
    rw [json, Json.value, Json.members, Json.members, Json.members, Json.value, Json.value, Json.value]
    cases children with
    | nil =>
      rw [List.isEmpty_nil, if_pos rfl, Json.members]
      exact h
    | cons r rest =>
      rw [List.isEmpty_cons, if_neg Bool.false_ne_true, Json.members, Json.value, Json.members]
      exact h

theorem describes_jsons : ∀ rs : List Route, List.Forall₂ Describes (Json.values (jsons rs)) rs
  | [] => by
    rw [jsons, Json.values]
    exact .nil
  | r :: rest => by
    rw [jsons, Json.values]
    exact .cons (describes_json r) (describes_jsons rest)

end

/-! ## What is found -/

/-- The keys in front of the routes below a route are passed over. -/
theorem childrenOf?_fields (r : Route) (rest : List (Text × Json.Value)) :
    childrenOf? (("path", .string r.path) :: ("hasPage", .bool r.hasPage) :: ("source", .string r.source) :: rest) =
      childrenOf? rest := by
  rw [childrenOf?, if_neg (by decide), childrenOf?, if_neg (by decide), childrenOf?, if_neg (by decide)]
  all_goals
    intro values h
    cases h

/-- A route is found if the routes below it are. -/
theorem ofValue?_of_below {r : Route} {values : List Json.Value} (h : ofValues? values = some r.children) :
    ofValue? (.object (("path", .string r.path) :: ("hasPage", .bool r.hasPage) :: ("source", .string r.source)
      :: if r.children.isEmpty then [] else [("children", .array values)])) = some r := by
  have hchildren : childrenOf? (if r.children.isEmpty then [] else [("children".toList, .array values)]) =
      some r.children := by
    cases hrs : r.children with
    | nil =>
      rw [List.isEmpty_nil, if_pos rfl, childrenOf?]
    | cons s rest =>
      rw [List.isEmpty_cons, if_neg Bool.false_ne_true, childrenOf?, if_pos rfl, h, hrs]
  rw [ofValue?, childrenOf?_fields, hchildren]
  cases r
  rfl

mutual

/-- A route is found in what describes it. -/
theorem ofValue?_of_describes : ∀ (r : Route) {value : Json.Value}, Describes value r → ofValue? value = some r
  | ⟨_, _, _, children⟩, _, .mk hbelow => ofValue?_of_below (ofValues?_of_describes children hbelow)

theorem ofValues?_of_describes : ∀ (rs : List Route) {values : List Json.Value},
    List.Forall₂ Describes values rs → ofValues? values = some rs
  | [], _, .nil => by rw [ofValues?]
  | r :: rest, _, .cons hfirst hrest => by
    rw [ofValues?, ofValue?_of_describes r hfirst, ofValues?_of_describes rest hrest]
    rfl

end

end Route

/-- **The dump of a table is read as the table.**  It is a list of objects in the order of the routes.  Each of
them describes its route by a fixed set of keys, and the routes are found in the objects by these keys. -/
theorem dump_read (rs : List Route) : ∃ values, Json.read? (Route.dump rs) = some (.array values) ∧
    List.Forall₂ Route.Describes values rs ∧ Route.ofValues? values = some rs := by
  have hdescribes := Route.describes_jsons rs
  refine ⟨Json.values (Route.jsons rs), ?_, hdescribes, Route.ofValues?_of_describes rs hdescribes⟩
  rw [Route.dump, Json.read?_text, Json.value]

end FileRoutes
