import FileRoutes.Path
import FileRoutes.Route.LogicalPath

/-!
# Nodes of the route tree

A node is a file or a folder below the routes root, together with the path at which it was found and
its logical path.  Whatever is no folder is a file, a symbolic link too; files are of interest only
because some of them make their folder a page.
-/

namespace FileRoutes

/-- Whether a node is searched for pages or may be one. -/
inductive Node.Kind where
  | file
  | folder
  deriving DecidableEq

/-- An entry below the routes root. -/
structure Node where
  /-- The name in the folder above. -/
  name : Text
  /-- Where it was found. -/
  path : Path
  /-- The names from the routes root down to it. -/
  logical : LogicalPath
  kind : Node.Kind
  /-- The entries of a folder. -/
  children : List Node

namespace Node

/-- The node is a folder. -/
def isFolder (n : Node) : Bool := n.kind = .folder

/-- The node is a file. -/
def isFile (n : Node) : Bool := n.kind = .file

/-- One of these nodes is a file that makes its folder a page. -/
def anyPage (conventions : Conventions) (nodes : List Node) : Bool :=
  nodes.any fun n => n.isFile && conventions.isPageFile n.name

end Node

end FileRoutes
