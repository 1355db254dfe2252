import FileRoutes.Route.GeneratedFile
import FileRoutes.Proofs.Route.Quoting
import Mathlib.Data.List.Basic

/-!
# Reading the routes file back

Nothing of a table is lost in the routes file, except for the source of a route that has no page, which
is not written.  What is written of a route is its outline (`Route.outline`), and `readModule` finds the
style and the outlines in the text of the file.

## Where a field ends

A string literal says itself where it ends.  Everything else is told apart by what a line begins with,
at the depth that is being read:

* a route, if a brace is opened; anything else there ends the list of routes,
* its page and the routes below it, by the names of the fields.

The depth matters, since the brace that closes a route is shallower by two blanks than the fields of
the route, and the bracket that closes a list of routes is shallower than the routes.  So a
text that looks like the beginning of a field is no field unless it stands at the beginning of a line of
the right depth, and line breaks in a name are escaped.

## Fuel

A list of routes is read by recursion on a number that bounds the length of its text.
-/

namespace FileRoutes

/-- What is written of a route. -/
structure Outline where
  path : Text
  /-- The source, if there is a page. -/
  source? : Option Text
  children : List Outline

namespace Route

mutual

/-- The outline of a route. -/
def outline : Route → Outline
  | ⟨path, hasPage, source, children⟩ =>
    ⟨path, if hasPage then some source else none, outlines children⟩

/-- The outlines of the routes of a table. -/
def outlines : List Route → List Outline
  | [] => []
  | r :: rest => outline r :: outlines rest

end

/-- Routes have the same outline if they agree in everything but the sources of routes without a
page. -/
theorem outline_eq_iff {r s : Route} :
    r.outline = s.outline ↔ r.path = s.path ∧ r.hasPage = s.hasPage ∧
      (r.hasPage = true → r.source = s.source) ∧ outlines r.children = outlines s.children := by
  obtain ⟨path, hasPage, source, children⟩ := r
  obtain ⟨path', hasPage', source', children'⟩ := s
  rw [outline, outline, Outline.mk.injEq]
  cases hasPage <;> cases hasPage' <;> simp

theorem outlines_eq_nil_iff {rs : List Route} : outlines rs = [] ↔ rs = [] := by
  cases rs <;> simp [outlines]

end Route

/-! ## The reader -/

/-- What follows an expected text, if the text is there. -/
def Text.after? (expected t : Text) : Option Text := t.dropPrefix? expected

namespace Literal

/-- The beginning of a route. -/
def opening (depth : Nat) : Text := indent depth ++ "\x7b\n"

/-- The end of a route. -/
def closing (depth : Nat) : Text := indent depth ++ "\x7d,\n"

/-- The beginning of the path of a route. -/
def pathKey (depth : Nat) : Text := indent (depth + 1) ++ "path: "

/-- The beginning of the page of a route. -/
def pageKey (depth : Nat) : Text := indent (depth + 1) ++ "element: "

/-- The beginning of the routes below a route. -/
def childrenKey (depth : Nat) : Text := indent (depth + 1) ++ "children: [\n"

/-- The end of the routes below a route. -/
def childrenEnd (depth : Nat) : Text := indent (depth + 1) ++ "],\n"

variable (conventions : Conventions)

/-- Reads the source of a route off its page, if it has one. -/
def readSource? (depth : Nat) (t : Text) : Option (Option Text × Text) :=
  match Text.after? (pageKey depth) t with
  | none => some (none, t)
  | some t => do
    let t ← Text.after? (conventions.lazyLoader ++ "(() => import(") t
    let (page, t) ← read t
    let source ← page.dropSuffix? ('/' :: conventions.pageModule)
    let t ← Text.after? ")),\n" t
    some (some source, t)

/-- Reads the routes below a route; `readMany` reads a list of routes at some depth. -/
def readChildren (readMany : Nat → Text → Option (List Outline × Text)) (depth : Nat) (t : Text) :
    Option (List Outline × Text) :=
  match Text.after? (childrenKey depth) t with
  | none => some ([], t)
  | some t => do
    let (children, t) ← readMany (depth + 2) t
    let t ← Text.after? (childrenEnd depth) t
    some (children, t)

/-- Reads a route whose brace has been opened. -/
def readOutline (readMany : Nat → Text → Option (List Outline × Text)) (depth : Nat) (t : Text) :
    Option (Outline × Text) := do
  let t ← Text.after? (pathKey depth) t
  let (path, t) ← read t
  let t ← Text.after? ",\n" t
  let (source?, t) ← readSource? conventions depth t
  let (children, t) ← readChildren readMany depth t
  let t ← Text.after? (closing depth) t
  some (⟨path, source?, children⟩, t)

/-- Reads as many routes as there are at a depth. -/
def readOutlines : Nat → Nat → Text → Option (List Outline × Text)
  | 0, _, _ => none
  | fuel + 1, depth, t =>
    match Text.after? (opening depth) t with
    | none => some ([], t)
    | some t => do
      let (first, t) ← readOutline conventions (readOutlines fuel) depth t
      let (rest, t) ← readOutlines fuel depth t
      some (first :: rest, t)

/-- Reads an array literal. -/
def readFragment (t : Text) : Option (List Outline × Text) :=
  match Text.after? "[]" t with
  | some t => some ([], t)
  | none => do
    let t ← Text.after? "[\n" t
    let (outlines, t) ← readOutlines conventions t.length 1 t
    let t ← Text.after? "]" t
    some (outlines, t)

/-- The style whose renderer a text is. -/
def styleOf? (t : Text) : Option PathStyle :=
  if t = GeneratedFile.nestedRenderer then some .relative
  else if t = GeneratedFile.flatRenderer then some .absolute
  else none

/-- Reads a routes file: the style and what is written of the table. -/
def readModule (t : Text) : Option (PathStyle × List Outline) := do
  let t ← Text.after? GeneratedFile.header t
  let (outlines, t) ← readFragment conventions t
  let style ← styleOf? t
  some (style, outlines)

end Literal

/-! ## Expected texts -/

namespace Text

theorem after?_append (expected t : Text) : after? expected (expected ++ t) = some t :=
  List.dropPrefix?_append_of_beq t (beq_self_eq_true expected)

theorem after?_append_append (common expected t : Text) :
    after? (common ++ expected) (common ++ t) = after? expected t := by
  induction common with
  | nil => rfl
  | cons c common ih =>
    rw [after?] at ih ⊢
    rw [List.cons_append, List.cons_append, List.dropPrefix?, if_pos (beq_self_eq_true c), ih]

theorem after?_cons_of_ne {c d : Char} (h : d ≠ c) (expected t : Text) :
    after? (c :: expected) (d :: t) = none := by
  rw [after?, List.dropPrefix?, if_neg (by simpa using h)]

end Text

namespace Literal

theorem indent_succ (depth : Nat) : indent (depth + 1) = indent depth ++ [' ', ' '] := by
  rw [indent, Text.repeated, List.replicate_succ', List.flatten_append]
  rfl

variable (conventions : Conventions) (depth : Nat)

/-! ## The fields of a route -/

/-- The page of a route as it is written. -/
def pageText (hasPage : Bool) (source : Text) : Text :=
  if hasPage then pageKey depth ++ ((conventions.lazyLoader ++ "(() => import(")
    ++ (quote (Route.module conventions source) ++ ")),\n"))
  else []

/-- The routes below a route as they are written. -/
def childrenText (children : List Route) : Text :=
  if children.isEmpty then []
  else childrenKey depth ++ (Route.literals conventions (depth + 2) children ++ childrenEnd depth)

/-- A route as it is written, behind the brace that opens it. -/
def inside : Route → Text
  | ⟨path, hasPage, source, children⟩ =>
    pathKey depth ++ (quote path ++ (",\n" ++ (pageText conventions depth hasPage source
      ++ (childrenText conventions depth children ++ closing depth))))

theorem literal_eq (r : Route) :
    Route.literal conventions depth r = opening depth ++ inside conventions depth r := by
  obtain ⟨path, hasPage, source, children⟩ := r
  rw [Route.literal, inside, opening, pathKey, closing, pageText, childrenText, pageKey, childrenKey,
    childrenEnd]
  simp only [List.append_assoc]

/-! ## Lines that are told apart -/

/-- A line that is shallower than expected. -/
theorem after?_indent_succ {c : Char} (hc : c ≠ ' ') (expected rest : Text) :
    Text.after? (indent (depth + 1) ++ expected) (indent depth ++ c :: rest) = none := by
  rw [indent_succ, List.append_assoc, Text.after?_append_append]
  exact Text.after?_cons_of_ne hc _ _

theorem after?_pageKey (children : List Route) (rest : Text) :
    Text.after? (pageKey depth) (childrenText conventions depth children ++ (closing depth ++ rest)) =
      none := by
  rw [pageKey, childrenText]
  cases children with
  | nil =>
    rw [List.isEmpty_nil, if_pos rfl, List.nil_append, closing, List.append_assoc]
    exact after?_indent_succ depth (by decide) _ _
  | cons r children =>
    rw [List.isEmpty_cons, if_neg Bool.false_ne_true, childrenKey, List.append_assoc,
      List.append_assoc, Text.after?_append_append]
    exact Text.after?_cons_of_ne (by decide) _ _

theorem after?_childrenKey (rest : Text) :
    Text.after? (childrenKey depth) (closing depth ++ rest) = none := by
  rw [childrenKey, closing, List.append_assoc]
  exact after?_indent_succ depth (by decide) _ _

theorem after?_opening (rest : Text) :
    Text.after? (opening (depth + 2)) (childrenEnd depth ++ rest) = none := by
  rw [opening, childrenEnd, List.append_assoc]
  exact after?_indent_succ (depth + 1) (by decide) _ _

/-! ## Reading what was written -/

theorem readSource?_pageText {rest : Text} (h : Text.after? (pageKey depth) rest = none)
    (hasPage : Bool) (source : Text) :
    readSource? conventions depth (pageText conventions depth hasPage source ++ rest) =
      some (if hasPage then some source else none, rest) := by
  cases hasPage with
  | false => simp [readSource?, pageText, h]
  | true =>
    have hmodule : (Route.module conventions source).dropSuffix? ('/' :: conventions.pageModule) =
        some source := by
      refine List.dropSuffix?_eq_some_iff.mpr ⟨_, ?_, beq_self_eq_true _⟩
      simp [Route.module]
    rw [readSource?, pageText, if_pos rfl]
    simp only [List.append_assoc, Text.after?_append, Option.bind_eq_bind]
    rw [← List.append_assoc conventions.lazyLoader, Text.after?_append, Option.bind_some, read_quote,
      Option.bind_some, hmodule, Option.bind_some, Text.after?_append]
    rfl

theorem readChildren_childrenText {readMany : Nat → Text → Option (List Outline × Text)}
    {children : List Route} {rest : Text}
    (h : readMany (depth + 2)
      (Route.literals conventions (depth + 2) children ++ (childrenEnd depth ++ (closing depth ++ rest)))
      = some (Route.outlines children, childrenEnd depth ++ (closing depth ++ rest))) :
    readChildren readMany depth (childrenText conventions depth children ++ (closing depth ++ rest)) =
      some (Route.outlines children, closing depth ++ rest) := by
  rw [readChildren, childrenText]
  cases children with
  | nil =>
    rw [List.isEmpty_nil, if_pos rfl, List.nil_append, after?_childrenKey]
    rfl
  | cons r children =>
    rw [List.isEmpty_cons, if_neg Bool.false_ne_true, List.append_assoc, Text.after?_append,
      List.append_assoc]
    simp only [Option.bind_eq_bind]
    rw [h, Option.bind_some, Text.after?_append]
    rfl

/-- A route is read if the routes below it are. -/
theorem readOutline_inside {readMany : Nat → Text → Option (List Outline × Text)} {r : Route}
    {rest : Text}
    (h : readMany (depth + 2)
      (Route.literals conventions (depth + 2) r.children
        ++ (childrenEnd depth ++ (closing depth ++ rest)))
      = some (Route.outlines r.children, childrenEnd depth ++ (closing depth ++ rest))) :
    readOutline conventions readMany depth (inside conventions depth r ++ rest) =
      some (r.outline, rest) := by
  obtain ⟨path, hasPage, source, children⟩ := r
  simp only [inside, readOutline, List.append_assoc, Option.bind_eq_bind, Text.after?_append,
    Option.bind_some, read_quote]
  rw [readSource?_pageText conventions depth (after?_pageKey conventions depth children rest),
    Option.bind_some]
  rw [readChildren_childrenText conventions depth h, Option.bind_some, Text.after?_append,
    Route.outline]
  rfl

/-- The text of a route is longer than that of the routes below it. -/
theorem length_literals_lt (r : Route) :
    (Route.literals conventions (depth + 2) r.children).length
      < (Route.literal conventions depth r).length := by
  obtain ⟨path, hasPage, source, children⟩ := r
  have hchildren : (Route.literals conventions (depth + 2) children).length
      ≤ (childrenText conventions depth children).length := by
    cases children with
    | nil => simp [Route.literals]
    | cons r children =>
      rw [childrenText, List.isEmpty_cons, if_neg Bool.false_ne_true]
      simp only [List.length_append]
      omega
  have hopening : (opening depth).length = (indent depth).length + 2 := List.length_append
  rw [literal_eq, inside]
  simp only [List.length_append]
  omega

/-- A list of routes is read, provided that what follows it begins no route. -/
theorem readOutlines_literals {fuel : Nat} : ∀ {depth : Nat} {rs : List Route} {rest : Text},
    (Route.literals conventions depth rs).length < fuel →
    Text.after? (opening depth) rest = none →
    readOutlines conventions fuel depth (Route.literals conventions depth rs ++ rest) =
      some (Route.outlines rs, rest) := by
  induction fuel with
  | zero =>
    intro depth rs rest hfuel
    omega
  | succ fuel ih =>
    intro depth rs rest hfuel hrest
    cases rs with
    | nil =>
      rw [Route.literals, List.nil_append, readOutlines, hrest]
      rfl
    | cons r rs =>
      have hlt := length_literals_lt conventions depth r
      rw [Route.literals, List.length_append] at hfuel
      have hpos : 0 < (Route.literal conventions depth r).length := by omega
      have hchildren := ih (show (Route.literals conventions (depth + 2) r.children).length < fuel by
        omega) (after?_opening depth (closing depth ++ (Route.literals conventions depth rs ++ rest)))
      have hfirst := readOutline_inside conventions depth hchildren
      rw [Route.literals, literal_eq, List.append_assoc, List.append_assoc, readOutlines,
        Text.after?_append]
      simp only [Option.bind_eq_bind]
      rw [hfirst, Option.bind_some, ih (by omega) hrest, Option.bind_some, Route.outlines]

theorem readFragment_fragment (rs : List Route) (rest : Text) :
    readFragment conventions (Route.fragment conventions rs ++ rest) =
      some (Route.outlines rs, rest) := by
  cases rs with
  | nil =>
    rw [Route.fragment, List.isEmpty_nil, if_pos rfl, readFragment, Text.after?_append]
    rfl
  | cons r rs =>
    have hnone (t : Text) : Text.after? "[]" ("[\n" ++ t) = none := rfl
    rw [Route.fragment, List.isEmpty_cons, if_neg Bool.false_ne_true, readFragment, List.append_assoc,
      List.append_assoc, hnone, Text.after?_append]
    simp only [Option.bind_eq_bind, Option.bind_some]
    rw [readOutlines_literals conventions (by simp) rfl, Option.bind_some, Text.after?_append]
    rfl

/-- What stands behind a literal in the routes file tells the style. -/
theorem exists_renderer (style : PathStyle) (fragment : Text) :
    ∃ renderer, GeneratedFile.routesModule style fragment =
        GeneratedFile.header ++ (fragment ++ renderer) ∧ styleOf? renderer = some style := by
  cases style with
  | relative =>
    refine ⟨GeneratedFile.nestedRenderer, ?_, if_pos rfl⟩
    rw [GeneratedFile.routesModule, List.append_assoc]
  | absolute =>
    have hne : GeneratedFile.flatRenderer ≠ GeneratedFile.nestedRenderer := by decide
    refine ⟨GeneratedFile.flatRenderer, ?_, ?_⟩
    · rw [GeneratedFile.routesModule, List.append_assoc]
    · rw [styleOf?, if_neg hne, if_pos rfl]

/-! ## Outlines decide the literal -/

mutual

theorem literal_eq_of_outline_eq : ∀ {depth : Nat} {r s : Route}, r.outline = s.outline →
    Route.literal conventions depth r = Route.literal conventions depth s
  | depth, ⟨path, hasPage, source, children⟩, ⟨path', hasPage', source', children'⟩, h => by
    obtain ⟨hpath, hhasPage, hsource, hchildren⟩ := Route.outline_eq_iff.mp h
    simp only at hpath hhasPage hsource hchildren
    subst hpath hhasPage
    have hpage : pageText conventions depth hasPage source =
        pageText conventions depth hasPage source' := by
      cases hasPage with
      | false => rfl
      | true => rw [hsource rfl]
    have hempty : children.isEmpty = children'.isEmpty := by
      rw [Bool.eq_iff_iff, List.isEmpty_iff, List.isEmpty_iff, ← Route.outlines_eq_nil_iff, hchildren,
        Route.outlines_eq_nil_iff]
    rw [literal_eq, literal_eq, inside, inside, hpage, childrenText, childrenText, hempty,
      literals_eq_of_outlines_eq hchildren]

theorem literals_eq_of_outlines_eq : ∀ {depth : Nat} {rs ss : List Route},
    Route.outlines rs = Route.outlines ss →
    Route.literals conventions depth rs = Route.literals conventions depth ss
  | _, [], [], _ => rfl
  | _, [], s :: ss, h => by
    rw [Route.outlines, Route.outlines] at h
    cases h
  | _, r :: rs, [], h => by
    rw [Route.outlines, Route.outlines] at h
    cases h
  | _, r :: rs, s :: ss, h => by
    rw [Route.outlines, Route.outlines, List.cons.injEq] at h
    rw [Route.literals, Route.literals, literal_eq_of_outline_eq h.1, literals_eq_of_outlines_eq h.2]

end

/-- Tables with the same outlines have the same literal. -/
theorem fragment_eq_of_outlines_eq {rs ss : List Route} (h : Route.outlines rs = Route.outlines ss) :
    Route.fragment conventions rs = Route.fragment conventions ss := by
  have hempty : rs.isEmpty = ss.isEmpty := by
    rw [Bool.eq_iff_iff, List.isEmpty_iff, List.isEmpty_iff, ← Route.outlines_eq_nil_iff, h,
      Route.outlines_eq_nil_iff]
  rw [Route.fragment, Route.fragment, hempty, literals_eq_of_outlines_eq conventions h]

/-! ## The whole file -/

/-- The table in a routes file is read from it. -/
theorem readModule_eq (style : PathStyle) (routes : List Route) :
    readModule conventions (GeneratedFile.routesModule style (Route.fragment conventions routes)) =
      some (style, Route.outlines routes) := by
  obtain ⟨renderer, hmodule, hstyle⟩ := exists_renderer style (Route.fragment conventions routes)
  rw [hmodule, readModule, Text.after?_append]
  simp only [Option.bind_eq_bind, Option.bind_some, readFragment_fragment, hstyle]

/-- A text is the routes file of a table: the literal of the table stands between what each such file
begins with and the renderer of the style, and reading gives the style and the table back. -/
structure RoutesText (style : PathStyle) (routes : List Route) (text : Text) : Prop where
  relative : style = .relative → text =
    GeneratedFile.header ++ Route.fragment conventions routes ++ GeneratedFile.nestedRenderer
  absolute : style = .absolute → text =
    GeneratedFile.header ++ Route.fragment conventions routes ++ GeneratedFile.flatRenderer
  read : readModule conventions text = some (style, Route.outlines routes)

theorem routesText_routesModule (style : PathStyle) (routes : List Route) :
    RoutesText conventions style routes
      (GeneratedFile.routesModule style (Route.fragment conventions routes)) where
  relative := by
    rintro rfl
    rfl
  absolute := by
    rintro rfl
    rfl
  read := readModule_eq conventions style routes

end Literal

/-- **The routes file says all of the table.**  Its reader finds the style and what is written of each
route, whatever texts are in the table.  So the literals of two tables are the same exactly if the
tables agree in everything but the sources of routes without a page. -/
theorem readModule_routesModule (conventions : Conventions) :
    (∀ (style : PathStyle) (routes : List Route),
      Literal.readModule conventions
          (GeneratedFile.routesModule style (Route.fragment conventions routes)) =
        some (style, Route.outlines routes)) ∧
    ∀ routes routes' : List Route,
      Route.fragment conventions routes = Route.fragment conventions routes' ↔
        Route.outlines routes = Route.outlines routes' := by
  refine ⟨Literal.readModule_eq conventions, fun routes routes' => ⟨fun h => ?_,
    Literal.fragment_eq_of_outlines_eq conventions⟩⟩
  have hread := Literal.readFragment_fragment conventions
  have hsame := hread routes []
  rw [h, hread routes' []] at hsame
  exact (Prod.ext_iff.mp (Option.some.inj hsame)).1.symm

end FileRoutes
