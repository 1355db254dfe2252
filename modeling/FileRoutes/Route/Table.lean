import FileRoutes.Text.Basic

/-!
# Route tables

A route table is a forest: each route has a path, says whether there is a page at it, and holds the
routes below it.  `source` is the folder of the route, from which its page is imported.
-/

namespace FileRoutes

/-- A route and the routes below it. -/
structure Route where
  /-- The URL, or its part below the route above. -/
  path : Text
  /-- There is a page at this very path. -/
  hasPage : Bool
  /-- The folder of the route. -/
  source : Text
  children : List Route

/-- How the path of a route is written that lies below another. -/
inductive PathStyle where
  /-- Only the part below the other route. -/
  | relative
  /-- The whole URL. -/
  | absolute
  deriving DecidableEq

/-- The name of a style. -/
def PathStyle.name : PathStyle → Text
  | relative => "relative"
  | absolute => "absolute"

end FileRoutes
