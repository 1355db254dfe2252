import FileRoutes.Proofs.Route.Loading
import FileRoutes.Proofs.Route.Rendering

/-!
# The two styles of a table

A table can be derived in two styles, and each has its own renderer.  Both describe the same
application: the tables differ only in their paths, a path of the absolute style being what the paths
of the relative style on the way to it say together, and the renderers register the same pages.

## Depth

In the relative style a folder drops as many names as the folder above it has.  What is left is the
folder's own name only if the logical paths fit together, so this is asked of the nodes
(`Node.Placed`): each logical path is that of the folder above and one more name.  Loading builds such
nodes.

The invariant of the induction is about a folder and the relative paths on the way to it: their whole
path is the URL of all its names (`fullPath_append_url`).  Whether a folder is pruned does not depend on
the style.
-/

namespace FileRoutes

/-- A node in the folder with the logical path `above`, and all nodes below it, have the logical paths
that their names give them. -/
inductive Node.Placed : LogicalPath → Node → Prop where
  | mk {above : LogicalPath} {name : Text} {path : Path} {kind : Node.Kind} {children : List Node} :
    name ≠ [] → '/' ∉ name → (∀ n ∈ children, Node.Placed (above.join name) n) →
    Node.Placed above ⟨name, path, above.join name, kind, children⟩

namespace Text

theorem join_append_singleton (separator : Text) (ts : List Text) (t : Text) :
    join separator (ts ++ [t]) = if ts = [] then t else join separator ts ++ separator ++ t := by
  induction ts with
  | nil => rfl
  | cons u ts ih =>
    cases ts with
    | nil => simp [join]
    | cons v ts =>
      rw [if_neg (List.cons_ne_nil _ _)] at ih ⊢
      rw [List.cons_append, List.cons_append, join, ← List.cons_append, ih, join]
      simp

theorem join_ne_nil {separator first : Text} (h : first ≠ []) {rest : List Text} :
    join separator (first :: rest) ≠ [] := by
  cases rest with
  | nil => exact h
  | cons t rest => simp [join, h]

end Text

namespace LogicalPath

variable (conventions : Conventions)

/-- The URL of the last name alone. -/
theorem url_join_depth (above : LogicalPath) (name : Text) :
    (above.join name).url above.depth conventions =
      '/' :: if conventions.isRouteGroup name then [] else name := by
  cases hgroup : conventions.isRouteGroup name <;>
    simp [url, visible, join, depth, hgroup, Text.join]

theorem isStep_url (above : LogicalPath) {name : Text} (hname : name ≠ []) (hslash : '/' ∉ name) :
    Route.IsStep ((above.join name).url above.depth conventions) := by
  rw [url_join_depth]
  cases conventions.isRouteGroup name with
  | true => exact Or.inl rfl
  | false => exact Or.inr ⟨name, rfl, hname, hslash⟩

/-- The URL of all names, with one more name. -/
theorem url_join_zero (above : LogicalPath) (name : Text) (habove : ∀ s ∈ above.segments, s ≠ []) :
    (above.join name).url 0 conventions =
      if conventions.isRouteGroup name then above.url 0 conventions
      else if above.url 0 conventions = ['/'] then '/' :: name
      else above.url 0 conventions ++ '/' :: name := by
  have hvisible : (above.join name).visible 0 conventions =
      above.visible 0 conventions ++ if conventions.isRouteGroup name then [] else [name] := by
    cases hgroup : conventions.isRouteGroup name <;> simp [visible, join, hgroup]
  have hne : ∀ s ∈ above.visible 0 conventions, s ≠ [] := fun s hs => by
    refine habove s ?_
    rw [visible, List.drop_zero] at hs
    exact (List.mem_filter.mp hs).1
  rw [url, url, hvisible]
  generalize above.visible 0 conventions = shown at hne
  cases conventions.isRouteGroup name with
  | true => simp
  | false =>
    rw [if_neg Bool.false_ne_true, if_neg Bool.false_ne_true, Text.join_append_singleton]
    cases shown with
    | nil => rfl
    | cons first rest =>
      have hjoin : Text.join ['/'] (first :: rest) ≠ [] :=
        Text.join_ne_nil (hne first List.mem_cons_self)
      rw [if_neg (List.cons_ne_nil _ _), if_neg (by simpa using hjoin)]
      simp

/-- Relative paths spell the names of a logical path: their whole path is its URL. -/
structure SpelledBy (above : LogicalPath) (paths : List Text) : Prop where
  named : ∀ s ∈ above.segments, s ≠ []
  steps : ∀ path ∈ paths, Route.IsStep path
  fullPath_eq : Route.fullPath paths = above.url 0 conventions

theorem spelledBy_root (marker : Text) : SpelledBy conventions (.root marker) [] where
  named := by simp [root]
  steps := by simp
  fullPath_eq := rfl

/-- One more name is spelled by one more relative path. -/
theorem SpelledBy.join {above : LogicalPath} {paths : List Text}
    (h : SpelledBy conventions above paths) {name : Text} (hname : name ≠ []) (hslash : '/' ∉ name) :
    SpelledBy conventions (above.join name)
      (paths ++ [(above.join name).url above.depth conventions]) where
  named := by
    intro s hs
    rcases List.mem_append.mp hs with hs | hs
    · exact h.named s hs
    · rw [List.mem_singleton.mp hs]
      exact hname
  steps := by
    intro path hpath
    rcases List.mem_append.mp hpath with hpath | hpath
    · exact h.steps path hpath
    · rw [List.mem_singleton.mp hpath]
      exact isStep_url conventions above hname hslash
  fullPath_eq := by
    rw [url_join_zero conventions above name h.named, url_join_depth, ← h.fullPath_eq]
    cases conventions.isRouteGroup name with
    | true => exact Route.fullPath_append_slash paths
    | false => exact Route.fullPath_append_name h.steps hname

end LogicalPath

/-! ## The two tables -/

namespace Node

variable (conventions : Conventions)

/-- The routes of two derivations are the same but for their paths, and these fit. -/
structure SameBut (paths : List Text) (relative absolute : List Route) : Prop where
  whole : absolute = Route.withFullPaths paths relative
  relative : ∀ r ∈ relative, r.Relative

theorem SameBut.append {paths : List Text} {rs ss rs' ss' : List Route} (h : SameBut paths rs rs')
    (h' : SameBut paths ss ss') : SameBut paths (rs ++ ss) (rs' ++ ss') where
  whole := by rw [Route.withFullPaths_append, h.whole, h'.whole]
  relative r hr := (List.mem_append.mp hr).elim (h.relative r) (h'.relative r)

/-- The routes of a list of nodes, from those of each of them. -/
theorem sameBut_derivationOf {paths : List Text} {above : Nat} {ns : List Node}
    (h : ∀ n ∈ ns, SameBut paths (derivation conventions .relative above n).routes
      (derivation conventions .absolute above n).routes) :
    SameBut paths (derivationOf conventions .relative above ns).routes
      (derivationOf conventions .absolute above ns).routes := by
  induction ns with
  | nil => exact ⟨by simp, by simp⟩
  | cons n ns ih =>
    have hrest := ih fun m hm => h m (List.mem_cons_of_mem n hm)
    cases hkind : n.kind with
    | file =>
      rw [derivationOf_cons_of_file conventions _ above hkind,
        derivationOf_cons_of_file conventions _ above hkind]
      exact hrest
    | folder =>
      rw [derivationOf_cons_of_folder conventions _ above hkind,
        derivationOf_cons_of_folder conventions _ above hkind]
      exact (h n List.mem_cons_self).append hrest

/-- The routes of a folder, from the routes below it. -/
theorem sameBut_derivation {above : LogicalPath} {name : Text} {paths : List Text} {n : Node}
    (hpaths : above.SpelledBy conventions paths) (hname : name ≠ []) (hslash : '/' ∉ name)
    (hlogical : n.logical = above.join name)
    (h : SameBut (paths ++ [(above.join name).url above.depth conventions])
      (n.routesBelow conventions .relative) (n.routesBelow conventions .absolute)) :
    SameBut paths (derivation conventions .relative above.depth n).routes
      (derivation conventions .absolute above.depth n).routes := by
  have hnil : n.routesBelow conventions .absolute = [] ↔ n.routesBelow conventions .relative = [] := by
    rw [h.whole, Route.withFullPaths_eq_nil_iff]
  by_cases hkept : anyPage conventions n.children = true ∨ n.routesBelow conventions .relative ≠ []
  · have hurl : Route.fullPath (paths ++
        [(above.join name).url (PathStyle.relative.start above.depth) conventions]) =
        (above.join name).url (PathStyle.absolute.start above.depth) conventions :=
      (hpaths.join conventions hname hslash).fullPath_eq
    rw [routes_derivation_of_kept conventions _ _ hkept,
      routes_derivation_of_kept conventions _ _ (hkept.imp_right (mt hnil.mp)), hlogical]
    constructor
    · rw [Route.withFullPaths_cons, Route.withFullPaths_nil, Route.withFullPath, hurl, h.whole]
      rfl
    · intro r hr
      rw [List.mem_singleton.mp hr]
      exact .mk (above.isStep_url conventions hname hslash) h.relative
  · obtain ⟨hpage, hbelow⟩ := not_or.mp hkept
    rw [not_not] at hbelow
    rw [routes_derivation_of_pruned conventions _ _ (Bool.eq_false_iff.mpr hpage) hbelow,
      routes_derivation_of_pruned conventions _ _ (Bool.eq_false_iff.mpr hpage) (hnil.mpr hbelow)]
    exact ⟨rfl, fun r hr => by cases hr⟩

theorem Placed.sameBut {above : LogicalPath} {n : Node} (h : n.Placed above) :
    ∀ {paths : List Text}, above.SpelledBy conventions paths →
      SameBut paths (derivation conventions .relative above.depth n).routes
        (derivation conventions .absolute above.depth n).routes := by
  induction h with
  | mk hname hslash _ ih =>
    intro paths hpaths
    exact sameBut_derivation conventions hpaths hname hslash rfl
      (sameBut_derivationOf conventions fun n hn => ih n hn (hpaths.join conventions hname hslash))

end Node

/-! ## Nodes that were loaded -/

namespace Loading

/-- Loading gives a node the logical path that its name gives it. -/
theorem placed_of_node {order : EntryOrder} {e : Entry} (hvalid : e.Valid) :
    ∀ {above : Path} {logical : LogicalPath} {reachable : Bool} {name : Name} {n : Node},
      name.Ordinary → node order above logical reachable name e = .ok n → n.Placed logical := by
  have hnamed {name : Name} {text : Text} (hname : name.Ordinary)
      (htext : Utf8.decode? name = some text) : text ≠ [] ∧ '/' ∉ text := by
    have hencode := Utf8.encode_of_decode? htext
    constructor
    · rintro rfl
      exact hname.ne_nil hencode.symm
    · intro hslash
      refine hname.slash_notMem ?_
      rw [← hencode]
      exact (Utf8.mem_encode_iff (by decide)).mpr hslash
  induction e using Entry.induction with
  | directory mode entries ih =>
    intro above logical reachable name n hname hn
    obtain ⟨text, children, htext, hchildren, rfl⟩ := node_of_directory hn
    obtain ⟨hne, hslash⟩ := hnamed hname htext
    refine .mk hne hslash fun child hchild => ?_
    obtain ⟨p, hp, hnode⟩ := exists_of_mem_collect hchildren hchild
    exact ih p hp (hvalid.inside hp) (hvalid.ordinary hp) hnode
  | file mode contents =>
    intro above logical reachable name n hname hn
    obtain ⟨text, htext, rfl⟩ := node_of_file rfl hn
    obtain ⟨hne, hslash⟩ := hnamed hname htext
    exact .mk hne hslash (by simp)
  | link target =>
    intro above logical reachable name n hname hn
    obtain ⟨text, htext, rfl⟩ := node_of_file rfl hn
    obtain ⟨hne, hslash⟩ := hnamed hname htext
    exact .mk hne hslash (by simp)

end Loading

/-- The nodes below a routes root have the logical paths that their names give them. -/
theorem placed_of_load {fs : FileSystem} (hfs : fs.Valid) {order : EntryOrder} {marker : Text}
    {root : Path} {ns : List Node} (h : load fs order marker root = .ok ns) :
    ∀ n ∈ ns, n.Placed (.root marker) := by
  intro n hn
  obtain ⟨mode, entries, hlookup, hcollect⟩ := exists_of_load h
  obtain ⟨p, hp, hnode⟩ := Loading.exists_of_mem_collect hcollect hn
  have hvalid := hfs.lookup hlookup
  exact Loading.placed_of_node (hvalid.inside hp) (hvalid.ordinary hp) hnode

/-- **The styles describe the same application.**  If the logical paths of the nodes are those their
names give them, the table of the absolute style is that of the relative style with the whole path in
each route, and what the renderer of the one registers from its table is what that of the other does. -/
theorem derive_styles (conventions : Conventions) {marker : Text} {ns : List Node}
    (h : ∀ n ∈ ns, n.Placed (.root marker)) :
    (derive conventions .absolute ns).routes =
        Route.withFullPaths [] (derive conventions .relative ns).routes ∧
      Element.registeredOf ['/']
          (Route.nestedElements conventions false (derive conventions .relative ns).routes) =
        Element.registeredOf ['/']
          (Route.flatElements conventions (derive conventions .absolute ns).routes) := by
  have hsame : Node.SameBut [] (derive conventions .relative ns).routes
      (derive conventions .absolute ns).routes :=
    Node.sameBut_derivationOf conventions fun n hn =>
      (h n hn).sameBut conventions (LogicalPath.spelledBy_root conventions marker)
  refine ⟨hsame.whole, ?_⟩
  rw [hsame.whole]
  exact Route.registered_nested_eq_flat conventions hsame.relative

/-- A page inside two groups, and a page next to a group with another page. -/
def sampleNodes : List Node :=
  let app := LogicalPath.root "./app"
  let shop := app.join "(shop)"
  let blog := app.join "blog"
  let file (folder : LogicalPath) : Node :=
    ⟨"page.tsx", Path.ofText "page.tsx", folder.join "page.tsx", .file, []⟩
  let folder (above : LogicalPath) (name : Text) (children : List Node) : Node :=
    ⟨name, .ofNames [Utf8.encode name], above.join name, .folder, children⟩
  [folder app "(shop)" [folder shop "(sale)" [file (shop.join "(sale)")]],
    folder app "blog" [file blog, folder blog "(all)" [
      folder (blog.join "(all)") "post" [file ((blog.join "(all)").join "post")]]]]

theorem placed_sampleNodes : ∀ n ∈ sampleNodes, n.Placed (.root "./app".toList) := by
  have hpage (folder : LogicalPath) : Node.Placed folder
      ⟨"page.tsx".toList, Path.ofText "page.tsx", folder.join "page.tsx".toList, .file, []⟩ :=
    .mk (by decide) (by decide) (by simp)
  simp only [sampleNodes, List.forall_mem_cons, List.not_mem_nil, false_imp_iff, implies_true, and_true]
  constructor
  · refine .mk (by decide) (by decide) (List.forall_mem_singleton.mpr ?_)
    exact .mk (by decide) (by decide) (List.forall_mem_singleton.mpr (hpage _))
  · refine .mk (by decide) (by decide) (List.forall_mem_cons.mpr ⟨hpage _, ?_⟩)
    refine List.forall_mem_singleton.mpr (.mk (by decide) (by decide) ?_)
    refine List.forall_mem_singleton.mpr (.mk (by decide) (by decide) ?_)
    exact List.forall_mem_singleton.mpr (hpage _)

/-- The sample is the same application in both styles. -/
theorem derive_styles_sampleNodes :
    (∀ n ∈ sampleNodes, n.Placed (.root "./app".toList)) ∧
      (derive .standard .absolute sampleNodes).routes =
          Route.withFullPaths [] (derive .standard .relative sampleNodes).routes ∧
        Element.registeredOf ['/']
            (Route.nestedElements .standard false (derive .standard .relative sampleNodes).routes) =
          Element.registeredOf ['/']
            (Route.flatElements .standard (derive .standard .absolute sampleNodes).routes) :=
  ⟨placed_sampleNodes, derive_styles .standard placed_sampleNodes⟩

end FileRoutes
