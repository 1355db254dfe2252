import FileRoutes.Route.Literal
import FileRoutes.Proofs.Route.Chains

/-!
# What the renderers register

The generated module holds one of two renderers, and which one it is depends on the style of the table.
Here both are functions from tables to elements of react-router (`Route.nestedElements`,
`Route.flatElements`), written clause by clause after the text of the renderer.

An element says where its page is to be shown, and react-router reads this relative to the element
around it.  `Element.registered` is that reading: the URL and the module of every page, in the order of
the elements.

`registered_nestedElements` compares the renderers on tables that have nothing to do with each other
but their paths.  On a table of relative paths the first registers what the second registers on the
same table with the whole path in each route (`Route.withFullPaths`).  It needs that a path is a slash
with at most one name behind it, since the first renderer takes away all slashes at the beginning and
puts one back.
-/

namespace FileRoutes

/-! ## Elements -/

/-- An element `Route` of react-router. -/
structure Element where
  /-- Where it stands below the element around it. -/
  path? : Option Text
  /-- It stands at the URL of the element around it. -/
  isIndex : Bool
  /-- The module of its page. -/
  page? : Option Text
  children : List Element

namespace Element

/-- The URL of a path below another URL. -/
def under (url path : Text) : Text :=
  if path.head? = some '/' then path
  else if url = ['/'] then '/' :: path
  else url ++ '/' :: path

/-- The URL of an element that stands in one at `url`. -/
def place (url : Text) (path? : Option Text) (isIndex : Bool) : Text :=
  if isIndex then url else (path?.map (under url)).getD url

mutual

/-- The pages of an element and of those in it, with their URLs. -/
def registered (url : Text) : Element → List (Text × Text)
  | ⟨path?, isIndex, page?, children⟩ =>
    (page?.map fun page => (place url path? isIndex, page)).toList
      ++ registeredOf (place url path? isIndex) children

/-- The pages of several elements that stand in one at `url`. -/
def registeredOf (url : Text) : List Element → List (Text × Text)
  | [] => []
  | e :: rest => registered url e ++ registeredOf url rest

end

@[simp] theorem registeredOf_nil (url : Text) : registeredOf url [] = [] := by
  rw [registeredOf]

@[simp] theorem registeredOf_cons (url : Text) (e : Element) (rest : List Element) :
    registeredOf url (e :: rest) = registered url e ++ registeredOf url rest := by
  rw [registeredOf]

theorem registeredOf_append (url : Text) (es fs : List Element) :
    registeredOf url (es ++ fs) = registeredOf url es ++ registeredOf url fs := by
  induction es with
  | nil => simp
  | cons e es ih => rw [List.cons_append, registeredOf_cons, ih, registeredOf_cons, List.append_assoc]

end Element

/-! ## Renderers -/

namespace Route

/-- The module of the page of a route. -/
def page? (conventions : Conventions) (hasPage : Bool) (source : Text) : Option Text :=
  if hasPage then some (Route.module conventions source) else none

/-- The path of a route as the first renderer writes it: inside another element the slashes at its
beginning are taken away. -/
def writtenPath (nested : Bool) (path : Text) : Text :=
  if nested then path.dropWhile (· = '/') else path

mutual

/-- The element that the first renderer makes of a route.  The page of a route with others below it
becomes their index. -/
def nestedElement (conventions : Conventions) (nested : Bool) : Route → Element
  | ⟨path, hasPage, source, children⟩ =>
    let path := writtenPath nested path
    let shown := if path = [] then none else some path
    if children.isEmpty then ⟨shown, path.isEmpty, page? conventions hasPage source, []⟩
    else
      let index := (page? conventions hasPage source).map fun page => ⟨none, true, some page, []⟩
      ⟨shown, false, none, index.toList ++ nestedElements conventions true children⟩

/-- The elements that the first renderer makes of a table. -/
def nestedElements (conventions : Conventions) (nested : Bool) : List Route → List Element
  | [] => []
  | r :: rest => nestedElement conventions nested r :: nestedElements conventions nested rest

end

mutual

/-- The elements that the second renderer makes of a route. -/
def flatElement (conventions : Conventions) : Route → List Element
  | ⟨path, hasPage, source, children⟩ =>
    ((page? conventions hasPage source).map fun page => ⟨some path, false, some page, []⟩).toList
      ++ flatElements conventions children

/-- The elements that the second renderer makes of a table. -/
def flatElements (conventions : Conventions) : List Route → List Element
  | [] => []
  | r :: rest => flatElement conventions r ++ flatElements conventions rest

end

/-! ## Whole paths -/

/-- The whole path that relative paths lead to: one after the other, without those that are a mere
slash. -/
def fullPath (paths : List Text) : Text :=
  let shown := paths.filter (· ≠ ['/'])
  if shown = [] then ['/'] else shown.flatten

mutual

/-- A route and those below it with their whole paths; `above` are the relative paths on the way to
it. -/
def withFullPath (above : List Text) : Route → Route
  | ⟨path, hasPage, source, children⟩ =>
    ⟨fullPath (above ++ [path]), hasPage, source, withFullPaths (above ++ [path]) children⟩

/-- A table with whole paths. -/
def withFullPaths (above : List Text) : List Route → List Route
  | [] => []
  | r :: rest => withFullPath above r :: withFullPaths above rest

end

@[simp] theorem withFullPaths_nil (above : List Text) : withFullPaths above [] = [] := by
  rw [withFullPaths]

@[simp] theorem withFullPaths_cons (above : List Text) (r : Route) (rest : List Route) :
    withFullPaths above (r :: rest) = withFullPath above r :: withFullPaths above rest := by
  rw [withFullPaths]

theorem withFullPaths_append (above : List Text) (rs ss : List Route) :
    withFullPaths above (rs ++ ss) = withFullPaths above rs ++ withFullPaths above ss := by
  induction rs with
  | nil => simp
  | cons r rs ih => simp [ih]

theorem withFullPaths_eq_nil_iff {above : List Text} {rs : List Route} :
    withFullPaths above rs = [] ↔ rs = [] := by
  cases rs <;> simp

/-! ## Paths of one name -/

/-- A slash with at most one name behind it. -/
def IsStep (path : Text) : Prop :=
  path = ['/'] ∨ ∃ name, path = '/' :: name ∧ name ≠ [] ∧ '/' ∉ name

/-- The paths of a route and of those below it are slashes with at most one name behind them. -/
inductive Relative : Route → Prop where
  | mk {path : Text} {hasPage : Bool} {source : Text} {children : List Route} :
    IsStep path → (∀ r ∈ children, Relative r) → Relative ⟨path, hasPage, source, children⟩

theorem fullPath_append_slash (above : List Text) : fullPath (above ++ [['/']]) = fullPath above := by
  simp [fullPath]

/-- A whole path is a slash, or begins with one and a name. -/
theorem fullPath_eq_slash_or {above : List Text} (h : ∀ path ∈ above, IsStep path) :
    (∀ path ∈ above, path = ['/']) ∨ ∃ c rest, fullPath above = '/' :: c :: rest := by
  induction above with
  | nil => exact Or.inl fun path hpath => by cases hpath
  | cons first above ih =>
    rcases h first List.mem_cons_self with rfl | ⟨name, rfl, hname, -⟩
    · have heq : fullPath (['/'] :: above) = fullPath above := by simp [fullPath]
      rw [heq]
      rcases ih fun path hpath => h path (List.mem_cons_of_mem _ hpath) with hall | hex
      · refine Or.inl fun path hpath => ?_
        rcases List.mem_cons.mp hpath with rfl | hpath
        · rfl
        · exact hall path hpath
      · exact Or.inr hex
    · obtain ⟨c, rest, rfl⟩ := List.exists_cons_of_ne_nil hname
      exact Or.inr ⟨c, rest ++ (above.filter (· ≠ ['/'])).flatten, by simp [fullPath]⟩

theorem fullPath_of_all_slash {above : List Text} (h : ∀ path ∈ above, path = ['/']) :
    fullPath above = ['/'] := by
  have hnil : above.filter (· ≠ ['/']) = [] := by
    refine List.filter_eq_nil_iff.mpr fun path hpath => ?_
    simp [h path hpath]
  rw [fullPath, hnil]
  rfl

theorem head?_fullPath {above : List Text} (h : ∀ path ∈ above, IsStep path) :
    (fullPath above).head? = some '/' := by
  rcases fullPath_eq_slash_or h with hall | ⟨c, rest, heq⟩
  · rw [fullPath_of_all_slash hall]
    rfl
  · rw [heq]
    rfl

/-- One more name is put behind the whole path of the others. -/
theorem fullPath_append_name {above : List Text} (h : ∀ path ∈ above, IsStep path) {name : Text}
    (hname : name ≠ []) :
    fullPath (above ++ ['/' :: name]) =
      if fullPath above = ['/'] then '/' :: name else fullPath above ++ '/' :: name := by
  have hshown : (above ++ ['/' :: name]).filter (· ≠ ['/']) =
      above.filter (· ≠ ['/']) ++ ['/' :: name] := by
    rw [List.filter_append]
    simp [hname]
  rcases fullPath_eq_slash_or h with hall | ⟨c, rest, heq⟩
  · have hnil : above.filter (· ≠ ['/']) = [] := by
      refine List.filter_eq_nil_iff.mpr fun path hpath => ?_
      simp [hall path hpath]
    rw [fullPath_of_all_slash hall, if_pos rfl, fullPath, hshown, hnil]
    simp
  · rw [if_neg (by rw [heq]; simp)]
    rw [fullPath] at heq ⊢
    rw [hshown]
    by_cases hnil : above.filter (· ≠ ['/']) = []
    · rw [hnil] at heq
      simp at heq
    · rw [fullPath, if_neg hnil]
      simp

/-! ## The two renderers -/

/-- The path of an element of the first renderer, below the whole path of the routes around it, is the
whole path of its own route. -/
theorem place_writtenPath {above : List Text} (h : ∀ path ∈ above, IsStep path) {nested : Bool}
    (hnested : nested = true ∨ above = []) {path : Text} (hpath : IsStep path) (isLeaf : Bool) :
    Element.place (fullPath above)
        (if writtenPath nested path = [] then none else some (writtenPath nested path))
        (isLeaf && (writtenPath nested path).isEmpty) =
      fullPath (above ++ [path]) := by
  cases nested with
  | false =>
    obtain rfl : above = [] := hnested.resolve_left Bool.false_ne_true
    rcases hpath with rfl | ⟨name, rfl, hname, -⟩
    · simp [writtenPath, Element.place, Element.under, fullPath]
    · simp [writtenPath, Element.place, Element.under, fullPath, hname]
  | true =>
    rcases hpath with rfl | ⟨name, rfl, hname, hslash⟩
    · rw [fullPath_append_slash]
      cases isLeaf <;> simp [writtenPath, Element.place]
    · obtain ⟨c, rest, rfl⟩ := List.exists_cons_of_ne_nil hname
      have hc : c ≠ '/' := fun hc => hslash (hc ▸ List.mem_cons_self)
      have hwritten : writtenPath true ('/' :: c :: rest) = c :: rest := by simp [writtenPath, hc]
      rw [hwritten, fullPath_append_name h hname]
      simp [Element.place, Element.under, hc]

/-- The page of a route is registered by the second renderer at the path of the route. -/
theorem registeredOf_flatPage {url path : Text} (h : path.head? = some '/') (page? : Option Text) :
    Element.registeredOf url
        (page?.map fun page => (⟨some path, false, some page, []⟩ : Element)).toList =
      (page?.map fun page => (path, page)).toList := by
  cases page? with
  | none => simp
  | some page => simp [Element.registered, Element.place, Element.under, h]

/-- The page of a route with others below it is registered by the first renderer as their index. -/
theorem registeredOf_index (url : Text) (page? : Option Text) :
    Element.registeredOf url
        (page?.map fun page => (⟨none, true, some page, []⟩ : Element)).toList =
      (page?.map fun page => (url, page)).toList := by
  cases page? with
  | none => simp
  | some page => simp [Element.registered, Element.place]

/-- What is to be shown of a route, for the induction: below routes with the relative paths `above`, the
renderers register the same. -/
def RegistersAlike (conventions : Conventions) (r : Route) : Prop :=
  ∀ (url : Text) (above : List Text) (nested : Bool), (∀ path ∈ above, IsStep path) →
    (nested = true ∨ above = []) →
    Element.registered (fullPath above) (nestedElement conventions nested r) =
      Element.registeredOf url (flatElement conventions (withFullPath above r))

theorem registeredOf_nestedElements {conventions : Conventions} {rs : List Route}
    (hrs : ∀ r ∈ rs, RegistersAlike conventions r) (url : Text) {above : List Text}
    (habove : ∀ path ∈ above, IsStep path) {nested : Bool} (hnested : nested = true ∨ above = []) :
    Element.registeredOf (fullPath above) (nestedElements conventions nested rs) =
      Element.registeredOf url (flatElements conventions (withFullPaths above rs)) := by
  induction rs with
  | nil => rw [nestedElements, withFullPaths, flatElements, Element.registeredOf_nil,
      Element.registeredOf_nil]
  | cons r rs ih =>
    rw [nestedElements, withFullPaths, flatElements, Element.registeredOf_cons,
      Element.registeredOf_append, hrs r List.mem_cons_self url above nested habove hnested,
      ih fun s hs => hrs s (List.mem_cons_of_mem r hs)]

theorem Relative.registersAlike (conventions : Conventions) {r : Route} (h : r.Relative) :
    RegistersAlike conventions r := by
  induction h with
  | @mk path hasPage source children hpath _ ih =>
    intro url above nested habove hnested
    have hsteps : ∀ p ∈ above ++ [path], IsStep p := by
      intro p hp
      rcases List.mem_append.mp hp with hp | hp
      · exact habove p hp
      · rw [List.mem_singleton.mp hp]
        exact hpath
    rw [withFullPath, flatElement, Element.registeredOf_append,
      registeredOf_flatPage (head?_fullPath hsteps)]
    rw [nestedElement]
    cases children with
    | nil =>
      have hplace := place_writtenPath habove hnested hpath true
      rw [Bool.true_and] at hplace
      rw [List.isEmpty_nil, if_pos rfl, Element.registered, hplace, withFullPaths_nil, flatElements]
      simp
    | cons child rest =>
      have hplace := place_writtenPath habove hnested hpath false
      rw [Bool.false_and] at hplace
      have hbelow := registeredOf_nestedElements ih url hsteps (Or.inl rfl)
      rw [List.isEmpty_cons, if_neg Bool.false_ne_true, Element.registered, hplace,
        Element.registeredOf_append, registeredOf_index, hbelow]
      rfl

/-- **The two renderers agree.**  What the first registers on a table of relative paths is what the
second registers on the same table with whole paths. -/
theorem registered_nested_eq_flat (conventions : Conventions) {rs : List Route}
    (hrs : ∀ r ∈ rs, r.Relative) :
    Element.registeredOf ['/'] (nestedElements conventions false rs) =
      Element.registeredOf ['/'] (flatElements conventions (withFullPaths [] rs)) := by
  show Element.registeredOf (fullPath []) _ = _
  exact registeredOf_nestedElements (fun r hr => (hrs r hr).registersAlike conventions) ['/']
    (by simp) (Or.inr rfl)

end Route

end FileRoutes
