import FileRoutes.Route.Table

/-!
# The generated files

Three files are generated into a project.  The first holds the route table and the function that
turns it into elements of react-router; the other two are the application around it and its entry
point, and do not depend on the routes.

## Two renderers

The function has to fit the style of the table's paths.  For relative paths it nests the elements:
the path of a route below another loses its slash, and the page of a route with others below it
becomes their index.  For absolute paths every page is registered on its own.
-/

namespace FileRoutes

/-- A file to be written into a project. -/
structure GeneratedFile where
  name : Text
  contents : Text
  deriving DecidableEq

namespace GeneratedFile

/-- The file with the route table. -/
def routesName : Text := "routes.tsx"

/-- The file with the application. -/
def appName : Text := "app.tsx"

/-- The file with the entry point. -/
def indexName : Text := "index.tsx"

/-- What stands before the route table. -/
def header : Text :=
  Text.lines [
    "import \x7b FC, LazyExoticComponent, ReactNode, lazy \x7d from 'react'",
    "import \x7b Route \x7d from 'react-router-dom'",
    "",
    "interface IRoute \x7b",
    "  path: string",
    "  element?: LazyExoticComponent<() => ReactNode> | LazyExoticComponent<FC>,",
    "  children?: IRoute[]",
    "\x7d",
    ""] ++ "const routes: IRoute[] = "

/-- What stands after a table of relative paths. -/
def nestedRenderer : Text :=
  Text.lines [
    "",
    "",
    "export function renderRoutes (routeList: IRoute[], nested = false): ReactNode[] \x7b",
    "  return routeList.map((route: IRoute) => \x7b",
    "    const path = nested ? route.path.replace(/^\\/+/, '') : route.path",
    "",
    "    if (!route.children) \x7b",
    "      return (",
    "        <Route",
    "          key=\x7broute.path\x7d",
    "          path=\x7bpath || undefined\x7d",
    "          index=\x7b!path || undefined\x7d",
    "          element=\x7broute.element && <route.element /> as any\x7d />",
    "      )",
    "    \x7d",
    "",
    "    return (",
    "      <Route key=\x7broute.path\x7d path=\x7bpath || undefined\x7d>",
    "        \x7broute.element && <Route index element=\x7b<route.element /> as any\x7d />\x7d",
    "        \x7brenderRoutes(route.children, true)\x7d",
    "      </Route>",
    "    )",
    "  \x7d)",
    "\x7d",
    "",
    "export default routes"]

/-- What stands after a table of absolute paths. -/
def flatRenderer : Text :=
  Text.lines [
    "",
    "",
    "export function renderRoutes (routeList: IRoute[]): ReactNode[] \x7b",
    "  return routeList.flatMap((route: IRoute) => [",
    "    route.element && (",
    "      <Route",
    "        key=\x7broute.path\x7d",
    "        path=\x7broute.path\x7d",
    "        element=\x7b<route.element /> as any\x7d />",
    "    ),",
    "    ...(route.children ? renderRoutes(route.children) : [])",
    "  ])",
    "\x7d",
    "",
    "export default routes"]

/-- The application. -/
def app : Text :=
  Text.lines [
    "import \x7b Routes \x7d from 'react-router-dom'",
    "import routes, \x7b renderRoutes \x7d from './routes'",
    "",
    "export function App () \x7b",
    "  return <Routes>\x7brenderRoutes(routes)\x7d</Routes>",
    "\x7d"]

/-- The entry point. -/
def index : Text :=
  Text.lines [
    "import ReactDOM from 'react-dom/client'",
    "import \x7b BrowserRouter as Router \x7d from 'react-router-dom'",
    "import Layout from './layout'",
    "import \x7b App \x7d from './app'",
    "",
    "ReactDOM.createRoot(document.getElementById('app')!).render(",
    "  <Router>",
    "    <Layout>",
    "      <App />",
    "    </Layout>",
    "  </Router>",
    ")"]

/-- The contents of the routes file around the literal of a table. -/
def routesModule (style : PathStyle) (fragment : Text) : Text :=
  header ++ fragment ++ match style with
    | .relative => nestedRenderer
    | .absolute => flatRenderer

/-- The generated files, in the order in which they are written. -/
def all (style : PathStyle) (fragment : Text) : List GeneratedFile :=
  [⟨routesName, routesModule style fragment⟩, ⟨appName, app⟩, ⟨indexName, index⟩]

end GeneratedFile

end FileRoutes
