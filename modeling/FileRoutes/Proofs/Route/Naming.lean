import FileRoutes.Proofs.Route.Grouping
import FileRoutes.Proofs.Route.Image
import Mathlib.Data.List.Nodup

/-!
# What URLs and sources tell

The names on the way to a folder are neither empty nor do they hold a slash (`LogicalPath.Named`), so they can
be read off the two texts in which they are put together.

* A URL is a slash if only route groups are shown, and otherwise the names behind its first slash, cut at
  the slashes, are those that are shown (`splitOn_join`).
* The text of a logical path is the marker, and what is behind it tells the names again
  (`splitOn_flatMap`).

## Sources

The source of a route is the text of a logical path, so no two routes of a table have the same source if no
two folders have the same logical path (`sourcesOf_sublist`).  Folders at different places have different
logical paths: on the way from the root down to them there is a first name in which they differ, since the
entries of a directory have different names (`Node.Apart`).  In the proof the two folders are below
different nodes of one list, or one of them is below the other (`nodup_folderPathsOf`).
-/

namespace FileRoutes

/-! ## Cutting at slashes -/

namespace Text

theorem join_eq_intercalate (separator : Text) (ts : List Text) :
    join separator ts = separator.intercalate ts := by
  induction ts with
  | nil => rfl
  | cons t ts ih =>
    cases ts with
    | nil => simp [join, List.intercalate]
    | cons u ts => rw [join, ih, List.intercalate_cons_cons]

theorem splitOn_join {c : Char} {ts : List Text} (hne : ts ≠ []) (h : ∀ t ∈ ts, c ∉ t) :
    (join [c] ts).splitOn c = ts := by
  rw [join_eq_intercalate, List.splitOn_intercalate c h hne]

/-- A separator in front of each text is one between them and the empty text. -/
theorem flatMap_cons_eq_join (c : Char) (ts : List Text) : ts.flatMap (c :: ·) = join [c] ([] :: ts) := by
  induction ts with
  | nil => rfl
  | cons t ts ih =>
    rw [List.flatMap_cons, ih, join]
    cases ts <;> simp [join]

theorem splitOn_flatMap {c : Char} {ts : List Text} (h : ∀ t ∈ ts, c ∉ t) :
    (ts.flatMap (c :: ·)).splitOn c = [] :: ts := by
  rw [flatMap_cons_eq_join, splitOn_join (List.cons_ne_nil _ _)]
  simpa using h

/-- A text that ends with a separator has an empty last part. -/
theorem nil_mem_splitOn_of_getLast? {c : Char} {t : Text} (h : t.getLast? = some c) : [] ∈ t.splitOn c := by
  obtain ⟨init, rfl⟩ := List.getLast?_eq_some_iff.mp h
  rw [List.splitOn_eq_splitOnP, List.splitOnP_append_cons init [] (by simp)]
  simp

end Text

namespace LogicalPath

/-- The names of a logical path can stand between slashes. -/
def Named (path : LogicalPath) : Prop := ∀ s ∈ path.segments, s ≠ [] ∧ '/' ∉ s

variable {path path' : LogicalPath}

theorem Named.of_mem_visible (h : path.Named) {start : Nat} {conventions : Conventions} {s : Text}
    (hs : s ∈ path.visible start conventions) : s ≠ [] ∧ '/' ∉ s :=
  h s (List.mem_of_mem_drop (List.mem_of_mem_filter hs))

theorem visible_eq_nil_iff {start : Nat} {conventions : Conventions} : path.visible start conventions = [] ↔
    ∀ s ∈ path.segments.drop start, conventions.isRouteGroup s = true := by
  simp [visible, List.filter_eq_nil_iff]

/-- What is behind the first slash of a URL is nothing exactly if no name is shown. -/
theorem Named.join_visible_eq_nil_iff (h : path.Named) {start : Nat} {conventions : Conventions} :
    Text.join ['/'] (path.visible start conventions) = [] ↔ path.visible start conventions = [] := by
  constructor
  · intro hnil
    cases hvisible : path.visible start conventions with
    | nil => rfl
    | cons first rest =>
      rw [hvisible] at hnil
      exact absurd hnil (Text.join_ne_nil (h.of_mem_visible (hvisible ▸ List.mem_cons_self)).1)
  · intro hvisible
    rw [hvisible, Text.join]

theorem Named.url_eq_slash_iff (h : path.Named) {start : Nat} {conventions : Conventions} :
    path.url start conventions = ['/'] ↔ path.visible start conventions = [] := by
  rw [url, List.cons_inj_right, h.join_visible_eq_nil_iff]

theorem Named.splitOn_join_visible (h : path.Named) {start : Nat} {conventions : Conventions}
    (hne : path.visible start conventions ≠ []) :
    (Text.join ['/'] (path.visible start conventions)).splitOn '/' = path.visible start conventions :=
  Text.splitOn_join hne fun _ hs => (h.of_mem_visible hs).2

/-- URLs are the same if the names in them are. -/
theorem Named.url_eq_iff (h : path.Named) (h' : path'.Named) {start start' : Nat} {conventions : Conventions} :
    path.url start conventions = path'.url start' conventions ↔
      path.visible start conventions = path'.visible start' conventions := by
  refine ⟨fun heq => ?_, fun heq => by rw [url, url, heq]⟩
  rw [url, url, List.cons_inj_right] at heq
  by_cases hnil : path.visible start conventions = []
  · rw [hnil, eq_comm, ← h'.join_visible_eq_nil_iff, ← heq, hnil, Text.join]
  · have hnil' : path'.visible start' conventions ≠ [] := by
      rwa [Ne, ← h'.join_visible_eq_nil_iff, ← heq, h.join_visible_eq_nil_iff]
    rw [← h.splitOn_join_visible hnil, heq, h'.splitOn_join_visible hnil']

/-- Behind the same marker the texts are the same if the names are. -/
theorem Named.text_eq_iff (h : path.Named) (h' : path'.Named) (hmarker : path.marker = path'.marker) :
    path.text = path'.text ↔ path.segments = path'.segments := by
  refine ⟨fun heq => ?_, fun heq => by rw [text, text, hmarker, heq]⟩
  rw [text, text, hmarker, List.append_cancel_left_eq] at heq
  have hsplit := congrArg (List.splitOn '/') heq
  rw [Text.splitOn_flatMap fun s hs => (h s hs).2, Text.splitOn_flatMap fun s hs => (h' s hs).2] at hsplit
  exact List.tail_eq_of_cons_eq hsplit

end LogicalPath

/-! ## The logical paths of folders -/

namespace Node

/-- The entries of a folder have different names, and so do those of the folders below it. -/
inductive Apart : Node → Prop where
  | mk {n : Node} : (n.children.map (·.name)).Nodup → (∀ c ∈ n.children, Apart c) → Apart n

mutual

/-- The logical paths of a folder and of those that one gets to from it, in preorder. -/
def folderPaths : Node → List LogicalPath
  | ⟨_, _, logical, _, children⟩ => logical :: folderPathsOf children

/-- The logical paths of the folders that one gets to from the top, in preorder. -/
def folderPathsOf : List Node → List LogicalPath
  | [] => []
  | n :: rest => (if n.isFolder then folderPaths n else []) ++ folderPathsOf rest

end

variable {above path : LogicalPath} {n : Node} {ns : List Node}

theorem mem_folderPathsOf :
    path ∈ folderPathsOf ns ↔ ∃ n ∈ ns, n.kind = .folder ∧ path ∈ folderPaths n := by
  induction ns with
  | nil => simp [folderPathsOf]
  | cons n ns ih => by_cases h : n.kind = .folder <;> simp [folderPathsOf, isFolder, h, ih]

/-- The logical path of a folder below a node tells the name of the node behind the names above. -/
theorem Placed.exists_descend (h : n.Placed above) (habove : above.Named) :
    ∀ path ∈ folderPaths n, path.Named ∧ ∃ names, path = above.descend (n.name :: names) := by
  induction h with
  | @mk above name place kind children hname hslash _ ih =>
    have hnamed : (above.join name).Named := by
      intro s hs
      rcases List.mem_append.mp hs with hs | hs
      · exact habove s hs
      · rw [List.mem_singleton.mp hs]
        exact ⟨hname, hslash⟩
    intro path hpath
    rw [folderPaths, List.mem_cons] at hpath
    rcases hpath with rfl | hpath
    · exact ⟨hnamed, [], rfl⟩
    · obtain ⟨c, hc, -, hpath⟩ := mem_folderPathsOf.mp hpath
      obtain ⟨hpathNamed, names, rfl⟩ := ih c hc hnamed path hpath
      refine ⟨hpathNamed, c.name :: names, ?_⟩
      rw [LogicalPath.descend, LogicalPath.descend, LogicalPath.join, List.append_assoc]
      rfl

/-- Folders below different nodes of a folder have different logical paths. -/
theorem nodup_folderPathsOf (habove : above.Named) (hplaced : ∀ n ∈ ns, n.Placed above)
    (hnames : (ns.map (·.name)).Nodup) (h : ∀ n ∈ ns, (folderPaths n).Nodup) : (folderPathsOf ns).Nodup := by
  induction ns with
  | nil =>
    rw [folderPathsOf]
    exact List.nodup_nil
  | cons n ns ih =>
    obtain ⟨hfirst, hrest⟩ := List.nodup_cons.mp hnames
    have hnodup := ih (fun m hm => hplaced m (List.mem_cons_of_mem n hm)) hrest
      fun m hm => h m (List.mem_cons_of_mem n hm)
    rw [folderPathsOf]
    split
    · refine (h n List.mem_cons_self).append hnodup fun path hpath hpath' => hfirst ?_
      obtain ⟨m, hm, -, hpath'⟩ := mem_folderPathsOf.mp hpath'
      obtain ⟨-, names, rfl⟩ := (hplaced n List.mem_cons_self).exists_descend habove path hpath
      obtain ⟨-, names', heq⟩ := (hplaced m (List.mem_cons_of_mem n hm)).exists_descend habove _ hpath'
      -- the names agree up to `above`, and the next one is that of the node
      have hsegments := List.append_cancel_left (congrArg LogicalPath.segments heq)
      exact List.mem_map.mpr ⟨m, hm, (List.cons.inj hsegments).1.symm⟩
    · exact hnodup

theorem Placed.named_join (h : n.Placed above) (habove : above.Named) : (above.join n.name).Named := by
  obtain ⟨hname, hslash, -⟩ := h
  intro s hs
  rcases List.mem_append.mp hs with hs | hs
  · exact habove s hs
  · rw [List.mem_singleton.mp hs]
    exact ⟨hname, hslash⟩

/-- No two folders at or below a node have the same logical path. -/
theorem Apart.nodup_folderPaths (h : n.Apart) :
    ∀ {above : LogicalPath}, above.Named → n.Placed above → (folderPaths n).Nodup := by
  induction h with
  | @mk n hnames _ ih =>
    intro above habove hplaced
    have hnamed := hplaced.named_join habove
    cases hplaced with
    | @mk _ name place kind children hname hslash hbelow =>
      rw [folderPaths]
      refine List.nodup_cons.mpr ⟨fun hpath => ?_, nodup_folderPathsOf hnamed hbelow hnames
        fun c hc => ih c hc hnamed (hbelow c hc)⟩
      obtain ⟨c, hc, -, hpath⟩ := mem_folderPathsOf.mp hpath
      obtain ⟨-, names, heq⟩ := (hbelow c hc).exists_descend hnamed _ hpath
      -- a folder below has one more name at least
      simpa [LogicalPath.descend] using congrArg LogicalPath.segments heq

end Node

/-! ## The sources of a table -/

mutual

/-- The sources of a route and of all routes below it, in preorder. -/
def Route.sources : Route → List Text
  | ⟨_, _, source, children⟩ => source :: Route.sourcesOf children

/-- The sources of the routes of a table, at all depths, in preorder. -/
def Route.sourcesOf : List Route → List Text
  | [] => []
  | r :: rest => Route.sources r ++ Route.sourcesOf rest

end

theorem Route.sourcesOf_append (rs ss : List Route) :
    sourcesOf (rs ++ ss) = sourcesOf rs ++ sourcesOf ss := by
  induction rs with
  | nil => rw [sourcesOf, List.nil_append, List.nil_append]
  | cons r rs ih => rw [List.cons_append, sourcesOf, ih, sourcesOf, List.append_assoc]

namespace Node

variable (conventions : Conventions) (style : PathStyle)

mutual

theorem sources_sublist (above : Nat) : ∀ n : Node,
    (Route.sourcesOf (derivation conventions style above n).routes).Sublist
      ((folderPaths n).map LogicalPath.text)
  | ⟨name, path, logical, kind, children⟩ => by
    have hbelow := sourcesOf_sublist logical.depth children
    rw [folderPaths, List.map_cons]
    by_cases hkept : anyPage conventions children = true ∨
        routesBelow conventions style ⟨name, path, logical, kind, children⟩ ≠ []
    · rw [routes_derivation_of_kept conventions style above hkept, Route.sourcesOf, Route.sourcesOf,
        Route.sources, List.append_nil]
      exact hbelow.cons_cons _
    · obtain ⟨hpage, hnone⟩ := not_or.mp hkept
      rw [not_not] at hnone
      rw [routes_derivation_of_pruned conventions style above (Bool.eq_false_iff.mpr hpage) hnone,
        Route.sourcesOf]
      exact List.nil_sublist _

/-- The sources of the routes are the texts of logical paths of folders, in the same order. -/
theorem sourcesOf_sublist (above : Nat) : ∀ ns : List Node,
    (Route.sourcesOf (derivationOf conventions style above ns).routes).Sublist
      ((folderPathsOf ns).map LogicalPath.text)
  | [] => by
    rw [derivationOf_nil, Derivation.routes_empty, Route.sourcesOf]
    exact List.nil_sublist _
  | n :: rest => by
    have hrest := sourcesOf_sublist above rest
    rw [folderPathsOf]
    cases hkind : n.kind with
    | file =>
      rw [derivationOf_cons_of_file conventions style above hkind, isFolder, hkind]
      exact hrest
    | folder =>
      rw [derivationOf_cons_of_folder conventions style above hkind, Route.sourcesOf_append, isFolder, hkind,
        decide_eq_true rfl, if_pos rfl, List.map_append]
      exact (sources_sublist above n).append hrest

end

/-- Routes of different folders have different sources. -/
theorem nodup_sourcesOf (depth : Nat) {marker : Text} {ns : List Node}
    (hplaced : ∀ n ∈ ns, n.Placed (.root marker)) (hnames : (ns.map (·.name)).Nodup)
    (hapart : ∀ n ∈ ns, n.Apart) :
    (Route.sourcesOf (derivationOf conventions style depth ns).routes).Nodup := by
  have hroot : (LogicalPath.root marker).Named := fun s hs => by cases hs
  have hnodup : (folderPathsOf ns).Nodup := nodup_folderPathsOf hroot hplaced hnames
    fun n hn => (hapart n hn).nodup_folderPaths hroot (hplaced n hn)
  refine (sourcesOf_sublist conventions style depth ns).nodup (hnodup.map_on ?_)
  intro path hpath path' hpath' htext
  obtain ⟨n, hn, -, hpath⟩ := mem_folderPathsOf.mp hpath
  obtain ⟨n', hn', -, hpath'⟩ := mem_folderPathsOf.mp hpath'
  obtain ⟨hnamed, names, rfl⟩ := (hplaced n hn).exists_descend hroot path hpath
  obtain ⟨hnamed', names', rfl⟩ := (hplaced n' hn').exists_descend hroot path' hpath'
  exact congrArg (LogicalPath.mk marker) ((hnamed.text_eq_iff hnamed' rfl).mp htext)

end Node

/-! ## Nodes that were loaded -/

namespace Loading

variable {order : EntryOrder} {n c : Node} {e : Entry}

/-- The entries of a directory have different names, and so have the nodes that become of them. -/
theorem Mirrors.nodup_names (h : Mirrors order n e) (hvalid : e.Valid) :
    (n.children.map (·.name)).Nodup := by
  have hencoded : (n.children.map fun m => Utf8.encode m.name).Nodup := by
    rw [h.names_eq, ((order.arrange_perm e.entries).map _).nodup_iff]
    exact hvalid.nodup_names
  refine List.Nodup.of_map Utf8.encode ?_
  rwa [List.map_map]

theorem Mirrors.apart (h : Mirrors order n e) (hvalid : e.Valid) : n.Apart := by
  induction e using Entry.induction generalizing n with
  | directory mode entries ih =>
    refine .mk (h.nodup_names hvalid) fun c hc => ?_
    obtain ⟨p, hp, hchild⟩ := h.exists_childOf hc
    exact ih p hp hchild.mirrors (hvalid.inside hp)
  | file mode contents =>
    refine .mk (h.nodup_names hvalid) fun c hc => ?_
    obtain ⟨p, hp, -⟩ := h.exists_childOf hc
    cases hp
  | link target =>
    refine .mk (h.nodup_names hvalid) fun c hc => ?_
    obtain ⟨p, hp, -⟩ := h.exists_childOf hc
    cases hp

end Loading

/-- The nodes below a routes root have different names in each folder. -/
theorem apart_of_load {fs : FileSystem} (hfs : fs.Valid) {order : EntryOrder} {marker : Text} {root : Path}
    {ns : List Node} (h : load fs order marker root = .ok ns) : (Node.top root marker ns).Apart := by
  obtain ⟨mode, entries, hlookup, hcollect⟩ := exists_of_load h
  have hmirrors : Loading.Mirrors order (Node.top root marker ns) (.directory mode entries) :=
    ⟨by simp [Node.top, Entry.isDirectory, Entry.kind],
      (Loading.collect_nodes_eq_ok_iff.mp hcollect).imp fun _ _ hp => ⟨mode.search, hp⟩⟩
  exact hmirrors.apart (hfs.lookup hlookup)

/-! ## Identification -/

/-- **URLs and sources tell what they stand for.**  A URL is a slash if only route groups are shown in it, and
otherwise what is between its slashes are the names that are shown.  So two folders are at the same URL exactly
if they have the same names but for route groups, and are shown the same behind a marker exactly if they have
the same names.  No two routes of a table that was made of a directory import the same module. -/
theorem paths_tell (conventions : Conventions) :
    (∀ (path : LogicalPath) (start : Nat), path.Named →
      (path.url start conventions = ['/'] ↔
        ∀ s ∈ path.segments.drop start, conventions.isRouteGroup s = true) ∧
      (path.url start conventions ≠ ['/'] → ∃ rest, path.url start conventions = '/' :: rest ∧
        rest.splitOn '/' = (path.segments.drop start).filter (!conventions.isRouteGroup ·) ∧
        [] ∉ rest.splitOn '/' ∧ rest.getLast? ≠ some '/')) ∧
    (∀ path path' : LogicalPath, path.Named → path'.Named →
      (path.url 0 conventions = path'.url 0 conventions ↔
        path.segments.filter (!conventions.isRouteGroup ·) = path'.segments.filter (!conventions.isRouteGroup ·)) ∧
      (path.marker = path'.marker → (path.text = path'.text ↔ path.segments = path'.segments))) ∧
    ∀ (fs : FileSystem) (order : EntryOrder) (marker : Text) (root : Path) (ns : List Node) (style : PathStyle),
      fs.Valid → load fs order marker root = .ok ns →
      (Route.sourcesOf (derive conventions style ns).routes).Nodup ∧
        ((Route.sourcesOf (derive conventions style ns).routes).map (Route.module conventions)).Nodup := by
  refine ⟨fun path start h => ⟨?_, fun hne => ?_⟩, fun path path' h h' => ⟨?_, fun hmarker => ?_⟩, ?_⟩
  · exact h.url_eq_slash_iff.trans LogicalPath.visible_eq_nil_iff
  · have hvisible := mt h.url_eq_slash_iff.mpr hne
    have hsplit := h.splitOn_join_visible hvisible
    have hnil : [] ∉ (Text.join ['/'] (path.visible start conventions)).splitOn '/' := by
      rw [hsplit]
      exact fun hmem => (h.of_mem_visible hmem).1 rfl
    exact ⟨_, rfl, hsplit, hnil, fun hlast => hnil (Text.nil_mem_splitOn_of_getLast? hlast)⟩
  · exact h.url_eq_iff h'
  · exact h.text_eq_iff h' hmarker
  · intro fs order marker root ns style hfs hload
    obtain ⟨hnames, hapart⟩ := apart_of_load hfs hload
    have hnodup := Node.nodup_sourcesOf conventions style 0 (placed_of_load hfs hload) hnames hapart
    refine ⟨hnodup, hnodup.map fun source source' h => ?_⟩
    rw [Route.module, Route.module, List.append_assoc, List.append_assoc] at h
    exact List.append_cancel_right h

/-- A project with a folder and a group of the same name, in each of which there is a folder of that name
again. -/
def namesakeTree : FileSystem where
  root :=
    let page : Name × Entry := (Utf8.encode "page.tsx", .file .plain [])
    let inner : Name × Entry := (Utf8.encode "a", .directory .full [page])
    .directory .full [(Utf8.encode "a", .directory .full [page, inner]), (Utf8.encode "(a)", .directory .full [inner])]
  current := .ofLocation []

/-- The folders in the group are told apart by their sources, although the group is not shown in their
URLs. -/
theorem paths_tell_namesakeTree :
    (⟨"./app", ["(a)", "a"]⟩ : LogicalPath).Named ∧ (⟨"./app", ["a"]⟩ : LogicalPath).Named ∧
      (⟨"./app", ["(a)", "a"]⟩ : LogicalPath).url 0 .standard = (⟨"./app", ["a"]⟩ : LogicalPath).url 0 .standard ∧
      (⟨"./app", ["(a)", "a"]⟩ : LogicalPath).text ≠ (⟨"./app", ["a"]⟩ : LogicalPath).text ∧
      namesakeTree.Valid ∧
      ∃ ns, load namesakeTree .asEnumerated "./app" (Path.ofText "/") = .ok ns ∧
        (Route.sourcesOf (derive .standard .absolute ns).routes).Nodup := by
  have hnamed : (⟨"./app", ["(a)", "a"]⟩ : LogicalPath).Named := by unfold LogicalPath.Named; decide
  have hnamed' : (⟨"./app", ["a"]⟩ : LogicalPath).Named := by unfold LogicalPath.Named; decide
  have hvalid : namesakeTree.Valid := ⟨by decide, _, _, rfl⟩
  obtain ⟨-, htwo, hsources⟩ := paths_tell .standard
  obtain ⟨hurl, htext⟩ := htwo ⟨"./app", ["(a)", "a"]⟩ ⟨"./app", ["a"]⟩ hnamed hnamed'
  refine ⟨hnamed, hnamed', hurl.mpr (by decide), mt (htext rfl).mp (by decide), hvalid, ?_⟩
  cases hload : load namesakeTree .asEnumerated "./app" (Path.ofText "/") with
  | error problem =>
    have hloaded : (load namesakeTree .asEnumerated "./app" (Path.ofText "/")).isOk = true := by cbv
    rw [hload] at hloaded
    cases hloaded
  | ok ns => exact ⟨ns, rfl, (hsources _ _ _ _ ns .absolute hvalid hload).1⟩

end FileRoutes
