import FileRoutes.Proofs.Route.Pruning
import FileRoutes.Proofs.Route.Styles

/-!
# Route groups

A folder that is a route group stands for what is in it.  If the nodes of a folder are put into a group
in this folder, then the routes below the group are those that the nodes have without it, with the same
paths, pages and nesting, and only their sources tell the name of the group (`derivation_group`).

The nodes have other logical paths in the group than without it, and those of all nodes below them are
longer by one name as well.  So two derivations are compared here: that of the nodes moved to
`above.descend below`, and that of the same nodes moved to `(above.join group).descend below`, where
`below` are the names on the way down from the place of the group (`derivationOf_moved_group`).  In the
absolute style the name of the group is left out with all other groups.  In the relative style it is
dropped with the names of the folder above, which are one more in the group.
-/

namespace FileRoutes

/-! ## Moving nodes to another folder -/

namespace Node

/-- The logical paths of a node in the folder `above`, and of all nodes below it, are made of those of
the folders above and of the names. -/
inductive Follows : LogicalPath → Node → Prop where
  | mk {above : LogicalPath} {name : Text} {path : Path} {kind : Node.Kind} {children : List Node} :
    (∀ n ∈ children, Follows (above.join name) n) →
    Follows above ⟨name, path, above.join name, kind, children⟩

mutual

/-- The node with the logical path that it has in another folder. -/
def moved (above : LogicalPath) : Node → Node
  | ⟨name, path, _, kind, children⟩ =>
    ⟨name, path, above.join name, kind, movedOf (above.join name) children⟩

/-- Nodes with the logical paths that they have in another folder. -/
def movedOf (above : LogicalPath) : List Node → List Node
  | [] => []
  | n :: rest => moved above n :: movedOf above rest

end

theorem movedOf_eq_map (above : LogicalPath) (ns : List Node) :
    movedOf above ns = ns.map (moved above) := by
  induction ns with
  | nil => rw [movedOf, List.map_nil]
  | cons n ns ih => rw [movedOf, ih, List.map_cons]

theorem kind_moved (above : LogicalPath) (n : Node) : (n.moved above).kind = n.kind := by
  cases n
  rw [moved]

/-- Nodes are moved by nothing to where they are. -/
theorem Follows.moved_eq {above : LogicalPath} {n : Node} (h : n.Follows above) : n.moved above = n := by
  induction h with
  | @mk above name path kind children _ ih =>
    rw [moved, movedOf_eq_map, List.map_congr_left ih, List.map_id']

theorem movedOf_eq_self {above : LogicalPath} {ns : List Node} (h : ∀ n ∈ ns, n.Follows above) :
    movedOf above ns = ns := by
  rw [movedOf_eq_map, List.map_congr_left fun n hn => (h n hn).moved_eq, List.map_id']

/-- Whether there is a page among nodes does not depend on where they are. -/
theorem anyPage_movedOf (conventions : Conventions) (above : LogicalPath) (ns : List Node) :
    anyPage conventions (movedOf above ns) = anyPage conventions ns := by
  rw [movedOf_eq_map, anyPage, anyPage, List.any_map]
  congr 1
  funext n
  cases n
  rw [Function.comp_apply, moved]
  rfl

end Node

namespace LogicalPath

/-- The path that names lead to. -/
def descend (above : LogicalPath) (names : List Text) : LogicalPath :=
  ⟨above.marker, above.segments ++ names⟩

@[simp] theorem descend_nil (above : LogicalPath) : above.descend [] = above := by
  rw [descend, List.append_nil]

theorem descend_join (above : LogicalPath) (names : List Text) (name : Text) :
    (above.descend names).join name = above.descend (names ++ [name]) := by
  rw [join, descend, descend, List.append_assoc]

theorem text_descend (above : LogicalPath) (names : List Text) :
    (above.descend names).text = above.text ++ names.flatMap ('/' :: ·) := by
  rw [text, descend, text, List.flatMap_append, List.append_assoc]

theorem text_join (above : LogicalPath) (name : Text) : (above.join name).text = above.text ++ '/' :: name := by
  simp [text, join]

/-- A group among the names changes nothing in the URL of a folder. -/
theorem url_descend_group (above : LogicalPath) {group : Text} {conventions : Conventions}
    (hgroup : conventions.isRouteGroup group = true) (style : PathStyle) (names : List Text) (name : Text) :
    (((above.join group).descend names).join name).url
        (style.start ((above.join group).descend names).depth) conventions =
      ((above.descend names).join name).url (style.start (above.descend names).depth) conventions := by
  cases style with
  | relative => exact (url_join_depth conventions _ name).trans (url_join_depth conventions _ name).symm
  | absolute => simp [PathStyle.start, url, visible, join, descend, hgroup]

/-- The URL of a group ends where that of the folder above does. -/
theorem url_join_group (above : LogicalPath) {group : Text} {conventions : Conventions}
    (hgroup : conventions.isRouteGroup group = true) (style : PathStyle) :
    (above.join group).url (style.start above.depth) conventions =
      match style with
      | .relative => ['/']
      | .absolute => above.url 0 conventions := by
  cases style with
  | relative => exact (url_join_depth conventions above group).trans (by rw [if_pos hgroup])
  | absolute => simp [PathStyle.start, url, visible, join, hgroup]

end LogicalPath

/-! ## Other sources -/

namespace Route

mutual

/-- A route and those below it with other sources. -/
def withSource (change : Text → Text) : Route → Route
  | ⟨path, hasPage, source, children⟩ => ⟨path, hasPage, change source, withSources change children⟩

/-- A table with other sources. -/
def withSources (change : Text → Text) : List Route → List Route
  | [] => []
  | r :: rest => withSource change r :: withSources change rest

end

theorem withSources_append (change : Text → Text) (rs ss : List Route) :
    withSources change (rs ++ ss) = withSources change rs ++ withSources change ss := by
  induction rs with
  | nil => rw [withSources, List.nil_append, List.nil_append]
  | cons r rs ih => rw [List.cons_append, withSources, withSources, ih, List.cons_append]

theorem withSources_ne_nil_iff {change : Text → Text} {rs : List Route} :
    withSources change rs ≠ [] ↔ rs ≠ [] := by
  cases rs <;> simp [withSources]

end Route

/-- A text with a group inserted after the text of a logical path. -/
def LogicalPath.insertGroup (above : LogicalPath) (group source : Text) : Text :=
  above.text ++ '/' :: group ++ source.drop above.text.length

theorem LogicalPath.insertGroup_text_descend (above : LogicalPath) (group : Text) (names : List Text) :
    above.insertGroup group (above.descend names).text = ((above.join group).descend names).text := by
  rw [insertGroup, text_descend, List.drop_left, text_descend, text_join]

/-! ## The nodes with and without the group -/

namespace Node

variable (conventions : Conventions) (style : PathStyle)

theorem routesBelow_moved (above : LogicalPath) (n : Node) : (n.moved above).routesBelow conventions style =
    (derivationOf conventions style (above.join n.name).depth (movedOf (above.join n.name) n.children)).routes := by
  cases n
  rw [moved]
  rfl

/-- What becomes of a moved folder, told by the routes below it. -/
theorem routes_derivation_moved (above : LogicalPath) (n : Node) :
    (derivation conventions style above.depth (n.moved above)).routes =
      if anyPage conventions n.children = true ∨ (n.moved above).routesBelow conventions style ≠ [] then
        [⟨(above.join n.name).url (style.start above.depth) conventions, anyPage conventions n.children,
          (above.join n.name).text, (n.moved above).routesBelow conventions style⟩]
      else [] := by
  have hlogical : (n.moved above).logical = above.join n.name := by
    cases n
    rw [moved]
  have hpage : anyPage conventions (n.moved above).children = anyPage conventions n.children := by
    cases n
    rw [moved, anyPage_movedOf]
  by_cases hkept : anyPage conventions n.children = true ∨ (n.moved above).routesBelow conventions style ≠ []
  · rw [if_pos hkept, routes_derivation_of_kept conventions style _ (by rwa [hpage]), hlogical, hpage]
  · obtain ⟨hnone, hbelow⟩ := not_or.mp hkept
    rw [if_neg hkept, routes_derivation_of_pruned conventions style _
      (by rwa [hpage, ← Bool.not_eq_true]) (not_not.mp hbelow)]

section Group

variable {conventions} (above : LogicalPath) {group : Text}

/-- What becomes of a folder at both places, from what becomes of the folders in it. -/
theorem derivation_moved_group_of_below (hgroup : conventions.isRouteGroup group = true) (names : List Text)
    {n : Node} (hbelow : (n.moved ((above.join group).descend names)).routesBelow conventions style =
      Route.withSources (above.insertGroup group) ((n.moved (above.descend names)).routesBelow conventions style)) :
    (derivation conventions style ((above.join group).descend names).depth
        (n.moved ((above.join group).descend names))).routes =
      Route.withSources (above.insertGroup group)
        (derivation conventions style (above.descend names).depth (n.moved (above.descend names))).routes := by
  have hsource : ((above.join group).descend names |>.join n.name).text =
      above.insertGroup group ((above.descend names).join n.name).text := by
    rw [LogicalPath.descend_join, LogicalPath.descend_join, LogicalPath.insertGroup_text_descend]
  rw [routes_derivation_moved, routes_derivation_moved, hbelow, LogicalPath.url_descend_group above hgroup,
    hsource]
  simp only [Route.withSources_ne_nil_iff]
  split
  · rw [Route.withSources, Route.withSource, Route.withSources]
  · rw [Route.withSources]

mutual

theorem derivation_moved_group (hgroup : conventions.isRouteGroup group = true) (names : List Text) :
    ∀ n : Node,
      (derivation conventions style ((above.join group).descend names).depth
          (n.moved ((above.join group).descend names))).routes =
        Route.withSources (above.insertGroup group)
          (derivation conventions style (above.descend names).depth (n.moved (above.descend names))).routes
  | ⟨name, path, logical, kind, children⟩ => by
    refine derivation_moved_group_of_below style above hgroup names ?_
    rw [routesBelow_moved, routesBelow_moved, LogicalPath.descend_join, LogicalPath.descend_join]
    exact derivationOf_moved_group hgroup (names ++ [name]) children

/-- Nodes in the group become what they become without it, but for the sources. -/
theorem derivationOf_moved_group (hgroup : conventions.isRouteGroup group = true) (names : List Text) :
    ∀ ns : List Node,
      (derivationOf conventions style ((above.join group).descend names).depth
          (movedOf ((above.join group).descend names) ns)).routes =
        Route.withSources (above.insertGroup group)
          (derivationOf conventions style (above.descend names).depth (movedOf (above.descend names) ns)).routes
  | [] => by
    rw [movedOf, movedOf, derivationOf_nil, derivationOf_nil, Derivation.routes_empty, Route.withSources]
  | n :: rest => by
    have hrest := derivationOf_moved_group hgroup names rest
    rw [movedOf, movedOf]
    cases hkind : n.kind with
    | file =>
      rw [derivationOf_cons_of_file _ _ _ ((kind_moved _ n).trans hkind),
        derivationOf_cons_of_file _ _ _ ((kind_moved _ n).trans hkind), hrest]
    | folder =>
      rw [derivationOf_cons_of_folder _ _ _ ((kind_moved _ n).trans hkind),
        derivationOf_cons_of_folder _ _ _ ((kind_moved _ n).trans hkind), hrest,
        derivation_moved_group hgroup names n, Route.withSources_append]

end

end Group

end Node

/-! ## Transparency -/

namespace Node

/-- The names of the folder above stand in front of those of all folders below it. -/
theorem Follows.prefix_text {above : LogicalPath} {n : Node} (h : n.Follows above) :
    ∀ {chain : List Node} {m : Node}, chain ∈ folderChains n → m ∈ chain → above.text <+: m.logical.text := by
  induction h with
  | @mk above name path kind children _ ih =>
    intro chain m hchain hm
    rcases mem_folderChains.mp hchain with rfl | ⟨c, hc, -, rest, hrest, rfl⟩
    · rw [List.mem_singleton.mp hm, LogicalPath.text_join]
      exact List.prefix_append _ _
    · rcases List.mem_cons.mp hm with rfl | hm
      · rw [LogicalPath.text_join]
        exact List.prefix_append _ _
      · refine List.IsPrefix.trans ?_ (ih c hc hrest hm)
        rw [LogicalPath.text_join]
        exact List.prefix_append _ _

/-- The same of the routes. -/
theorem prefix_source (conventions : Conventions) (style : PathStyle) (depth : Nat) {above : LogicalPath}
    {ns : List Node} (hns : ∀ n ∈ ns, n.Follows above) {chain : List Heading}
    (hchain : chain ∈ Route.chainsOf (derivationOf conventions style depth ns).routes) {h : Heading}
    (hh : h ∈ chain) : above.text <+: h.source := by
  have hlabels := labels_derivationOf conventions style depth ns
  have hmem : chain.map (fun h => (h.source, h.hasPage)) ∈
      routeLabels (Route.chainsOf (derivationOf conventions style depth ns).routes) :=
    List.mem_map_of_mem hchain
  rw [hlabels] at hmem
  obtain ⟨folders, hfolders, heq⟩ := List.mem_map.mp hmem
  have hlabel : (h.source, h.hasPage) ∈ chain.map fun h => (h.source, h.hasPage) := List.mem_map_of_mem hh
  rw [← heq] at hlabel
  obtain ⟨m, hm, hsource⟩ := List.mem_map.mp hlabel
  obtain ⟨n, hn, -, hfolders⟩ := mem_folderChainsOf.mp (List.mem_of_mem_filter hfolders)
  rw [← (Prod.mk.inj hsource).1]
  exact (hns n hn).prefix_text hfolders hm

end Node

/-- **Route groups are transparent.**  Nodes that are put into a group become nothing exactly if they become
nothing without it and none of them is a page.  Otherwise the group becomes one route that adds nothing to
the URL of the folder above, and below it are the routes that the nodes become without the group, but for
the name of the group in their sources. -/
theorem derivation_group (conventions : Conventions) (style : PathStyle) {above : LogicalPath} {group : Text}
    (hgroup : conventions.isRouteGroup group = true) (path : Path) {ns : List Node}
    (hns : ∀ n ∈ ns, n.Follows above) :
    let direct := (Node.derivationOf conventions style above.depth ns).routes
    let grouped := (Node.derivation conventions style above.depth
      ⟨group, path, above.join group, .folder, Node.movedOf (above.join group) ns⟩).routes
    let isPage := ∃ n ∈ ns, n.kind = .file ∧ conventions.isPageFile n.name = true
    (grouped = [] ↔ direct = [] ∧ ¬ isPage) ∧
      (grouped ≠ [] → ∃ r, grouped = [r] ∧
        r.path = (match style with | .relative => ['/'] | .absolute => above.url 0 conventions) ∧
        (r.hasPage = true ↔ isPage) ∧
        r.source = above.text ++ '/' :: group ∧
        r.children = Route.withSources (above.insertGroup group) direct) ∧
      ∀ chain ∈ Route.chainsOf direct, ∀ h ∈ chain, above.text <+: h.source := by
  intro direct grouped isPage
  have hpage : Node.anyPage conventions ns = true ↔ isPage := by simp [isPage, Node.anyPage, Node.isFile]
  have hbelow : (Node.derivationOf conventions style (above.join group).depth
      (Node.movedOf (above.join group) ns)).routes = Route.withSources (above.insertGroup group) direct := by
    have h := Node.derivationOf_moved_group style above hgroup [] ns
    rwa [LogicalPath.descend_nil, LogicalPath.descend_nil, Node.movedOf_eq_self hns] at h
  have hgrouped : grouped = if isPage ∨ direct ≠ [] then
      [⟨(above.join group).url (style.start above.depth) conventions, Node.anyPage conventions ns,
        (above.join group).text, Route.withSources (above.insertGroup group) direct⟩] else [] := by
    have h := Node.routes_derivation_moved conventions style above ⟨group, path, .root [], .folder, ns⟩
    rw [Node.routesBelow_moved, Node.moved, hbelow] at h
    simpa only [hpage, Route.withSources_ne_nil_iff] using h
  refine ⟨?_, fun hne => ?_, fun chain hchain h hh => Node.prefix_source conventions style _ hns hchain hh⟩
  · rw [hgrouped, ite_eq_right_iff]
    simp [not_or, and_comm]
  · have hkept : isPage ∨ direct ≠ [] := by
      by_contra hpruned
      exact hne (hgrouped.trans (if_neg hpruned))
    rw [if_pos hkept] at hgrouped
    exact ⟨_, hgrouped, above.url_join_group hgroup style, hpage, above.text_join group, rfl⟩

/-- A page, and a page in a folder in another group. -/
def nodesOfBlog : List Node :=
  let blog := (LogicalPath.root "./app").join "blog"
  let old := blog.join "(old)"
  let page (folder : LogicalPath) : Node := ⟨"page.tsx", .empty, folder.join "page.tsx", .file, []⟩
  [page blog, ⟨"(old)", .empty, old, .folder, [⟨"post", .empty, old.join "post", .folder, [page (old.join "post")]⟩]⟩]

theorem follows_nodesOfBlog : ∀ n ∈ nodesOfBlog, n.Follows ((LogicalPath.root "./app").join "blog".toList) := by
  have hpage (folder : LogicalPath) : Node.Follows folder
      ⟨"page.tsx".toList, .empty, folder.join "page.tsx".toList, .file, []⟩ := .mk (by simp)
  simp only [nodesOfBlog, List.forall_mem_cons, List.not_mem_nil, false_imp_iff, implies_true, and_true]
  refine ⟨hpage _, .mk (List.forall_mem_singleton.mpr ?_)⟩
  exact .mk (List.forall_mem_singleton.mpr (hpage _))

/-- The entries of the blog are put into a group, and stay at the blog's URL. -/
theorem derivation_group_nodesOfBlog :
    Conventions.standard.isRouteGroup "(all)" = true ∧
      (∀ n ∈ nodesOfBlog, n.Follows ((LogicalPath.root "./app").join "blog".toList)) ∧
      ∃ r, (Node.derivation .standard .absolute 1
          ⟨"(all)", .empty, ((LogicalPath.root "./app").join "blog").join "(all)", .folder,
            Node.movedOf (((LogicalPath.root "./app").join "blog").join "(all)") nodesOfBlog⟩).routes = [r] ∧
        r.path = "/blog".toList ∧ r.hasPage = true ∧ r.source = "./app/blog/(all)".toList ∧
        r.children = Route.withSources (((LogicalPath.root "./app").join "blog").insertGroup "(all)")
          (Node.derivationOf .standard .absolute 1 nodesOfBlog).routes := by
  have hgroup : Conventions.standard.isRouteGroup "(all)" = true := by decide
  have hpage : ∃ n ∈ nodesOfBlog, n.kind = .file ∧ Conventions.standard.isPageFile n.name = true :=
    ⟨_, List.mem_cons_self, rfl, by decide⟩
  obtain ⟨hnil, hroute, -⟩ := derivation_group .standard .absolute hgroup .empty follows_nodesOfBlog
  obtain ⟨r, hr, hpath, hhas, hsource, hchildren⟩ := hroute fun h => (hnil.mp h).2 hpage
  exact ⟨hgroup, follows_nodesOfBlog, r, hr, hpath.trans (by decide), hhas.mpr hpage,
    hsource.trans (by decide), hchildren⟩

end FileRoutes
