import FileRoutes.Json
import FileRoutes.Route.Table

/-!
# The route table as JSON

Each route is an object with its path, whether it has a page, its folder and the routes below it;
the last field is left out if there are none.
-/

namespace FileRoutes

mutual

/-- A route as a JSON object. -/
def Route.json : Route → Json
  | ⟨path, hasPage, source, children⟩ =>
    .object (("path", .string path) :: ("hasPage", .bool hasPage) :: ("source", .string source)
      :: if children.isEmpty then [] else [("children", .array (Route.jsons children))])

/-- Several routes as JSON objects. -/
def Route.jsons : List Route → List Json
  | [] => []
  | r :: rest => Route.json r :: Route.jsons rest

end

/-- The JSON text of a route table. -/
def Route.dump (routes : List Route) : Text := (Json.array (Route.jsons routes)).text

end FileRoutes
