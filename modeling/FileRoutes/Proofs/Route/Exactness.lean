import FileRoutes.Route.Compilation
import FileRoutes.Proofs.Route.Chains
import FileRoutes.Proofs.Route.Loading
import Mathlib

/-!
# The table of a directory

A route table is compiled from a directory in two recursions, one over the directory and one over the
nodes that were loaded.  Here both are replaced by one description of the result.

* The routes are the directories below the root that have a page in them or below them
  (`Entry.IsRoutable`).  A page is an entry that is no directory and whose name begins as pages do.
* They stand in preorder, siblings in the order of the bytes of their names: this is the order of
  the lists of names in which a list comes before what it begins (`Location.Before`).
* Each route stands below that of the directory above it, so the chain of a directory consists of the
  headings of the directories on the way down to it (`Entry.chain`).
* What a route says of itself follows from the names and from the page (`Heading.ofFolder`).

`compile_table` puts this together.  The induction is over the tree of entries.  Its statement is about
a directory somewhere below the root, reached by the names `above`, since a path in the absolute style
and the source of a route tell these names too.
-/

namespace FileRoutes

/-! ## The description -/

/-- The order of locations in which a directory comes before what is below it, and siblings come in
the order of their names. -/
def Location.Before : Location → Location → Prop := List.Lex Bytes.Before

namespace Entry

/-- A directory holds a page: an entry that is no directory and is named like a page. -/
def holdsPage (conventions : Conventions) (e : Entry) : Bool :=
  e.entries.any fun p => !p.2.isDirectory && (Utf8.decode? p.1).any conventions.isPageFile

/-- There is a page in the directory or in one below it. -/
def LeadsToPage (conventions : Conventions) (e : Entry) : Prop :=
  ∃ below x, e.find? below = some x ∧ x.holdsPage conventions = true

/-- There is a directory at the location below the top which has a page in it or below it. -/
def IsRoutable (conventions : Conventions) (top : Entry) (loc : Location) : Prop :=
  loc ≠ [] ∧ ∃ e, top.find? loc = some e ∧ e.isDirectory = true ∧ e.LeadsToPage conventions

/-- The location that names spell. -/
def locationOf (names : List Text) : Location := names.map Utf8.encode

/-- The directory that names lead to holds a page. -/
def pageAt (conventions : Conventions) (top : Entry) (names : List Text) : Bool :=
  (top.find? (locationOf names)).any (holdsPage conventions)

end Entry

/-- The names of a folder that its route shows: all of them, or only the last one. -/
def PathStyle.shown : PathStyle → List Text → List Text
  | .relative, names => names.getLast?.toList
  | .absolute, names => names

/-- The heading of the folder that names lead to.  Its path consists of the shown names that are no
route groups. -/
def Heading.ofFolder (conventions : Conventions) (style : PathStyle) (names : List Text)
    (hasPage : Bool) : Heading where
  path := '/' :: Text.join ['/'] ((style.shown names).filter (!conventions.isRouteGroup ·))
  hasPage := hasPage
  source := conventions.logicalRoot ++ names.flatMap ('/' :: ·)

/-- The headings on the way from a directory down through names.  The directory is itself reached by
the names `above`. -/
def Entry.chain (conventions : Conventions) (style : PathStyle) (above : List Text) (top : Entry)
    (names : List Text) : List Heading :=
  names.inits.tail.map fun way =>
    Heading.ofFolder conventions style (above ++ way) (top.pageAt conventions way)

/-- What chains have to do with those entries of a directory whose names are in some part of all
names. -/
structure Entry.Charted (conventions : Conventions) (style : PathStyle) (above : List Text)
    (top : Entry) (part : Name → Prop) (chains : List (List Heading))
    (ways : List (List Text)) : Prop where
  /-- The routes are the routable directories. -/
  mem : ∀ loc, loc ∈ ways.map Entry.locationOf ↔
    (∃ name ∈ loc.head?, part name) ∧ top.IsRoutable conventions loc
  /-- They stand in preorder. -/
  sorted : (ways.map Entry.locationOf).Pairwise Location.Before
  /-- Each stands below that of the directory above it. -/
  chains_eq : chains = ways.map (top.chain conventions style above)

namespace Entry

variable (conventions : Conventions) (style : PathStyle)

/-! ## Below one entry -/

@[simp] theorem locationOf_nil : locationOf [] = [] := rfl

@[simp] theorem locationOf_cons (text : Text) (names : List Text) :
    locationOf (text :: names) = Utf8.encode text :: locationOf names := rfl

theorem inits_tail_cons (text : Text) (names : List Text) :
    (text :: names).inits.tail = [text] :: names.inits.tail.map (text :: ·) := by
  cases names <;> simp

section Below

variable {mode : Mode} {entries : List (Name × Entry)} {name : Name} {e : Entry} {text : Text}

theorem pageAt_cons (hl : entries.lookup name = some e) (ht : Utf8.encode text = name)
    (names : List Text) :
    pageAt conventions (.directory mode entries) (text :: names) = e.pageAt conventions names := by
  rw [pageAt, locationOf_cons, ht, find?_directory_cons, hl]
  rfl

theorem pageAt_nil (e : Entry) : e.pageAt conventions [] = e.holdsPage conventions := by
  rw [pageAt, locationOf_nil, find?_nil]
  rfl

/-- The chain through an entry begins with the heading of the entry. -/
theorem chain_cons (hl : entries.lookup name = some e) (ht : Utf8.encode text = name)
    (above names : List Text) :
    chain conventions style above (.directory mode entries) (text :: names) =
      Heading.ofFolder conventions style (above ++ [text]) (e.holdsPage conventions)
        :: e.chain conventions style (above ++ [text]) names := by
  rw [chain, chain, inits_tail_cons, List.map_cons, List.map_map, pageAt_cons conventions hl ht,
    pageAt_nil]
  congr 1
  refine List.map_congr_left fun way _ => ?_
  rw [Function.comp_apply, pageAt_cons conventions hl ht, List.append_assoc]
  rfl

theorem isRoutable_cons_cons (hl : entries.lookup name = some e) (next : Name) (rest : Location) :
    IsRoutable conventions (.directory mode entries) (name :: next :: rest) ↔
      e.IsRoutable conventions (next :: rest) := by
  rw [IsRoutable, IsRoutable, find?_directory_cons, hl]
  simp

theorem isRoutable_singleton (hl : entries.lookup name = some e) (he : e.isDirectory = true) :
    IsRoutable conventions (.directory mode entries) [name] ↔ e.LeadsToPage conventions := by
  rw [IsRoutable, find?_directory_cons, hl]
  simp [he]

/-- Nothing is routable at an entry that is no directory, or below it. -/
theorem not_isRoutable_of_file (hl : entries.lookup name = some e) (he : e.isDirectory = false)
    (rest : Location) : ¬ IsRoutable conventions (.directory mode entries) (name :: rest) := by
  rintro ⟨-, x, hx, hdir, -⟩
  rw [find?_directory_cons, hl] at hx
  cases e with
  | directory m es => cases he
  | file m contents =>
    cases rest with
    | nil =>
      cases hx
      cases hdir
    | cons next rest => cases hx
  | link target =>
    cases rest with
    | nil =>
      cases hx
      cases hdir
    | cons next rest => cases hx

end Below

/-- There is a page in a directory or below it exactly if there is one in it, or something below it
is routable. -/
theorem leadsToPage_iff (e : Entry) :
    e.LeadsToPage conventions ↔
      e.holdsPage conventions = true ∨ ∃ loc, e.IsRoutable conventions loc := by
  constructor
  · rintro ⟨below, x, hx, hpage⟩
    cases below with
    | nil =>
      rw [find?_nil] at hx
      cases hx
      exact Or.inl hpage
    | cons name rest =>
      refine Or.inr ⟨name :: rest, List.cons_ne_nil _ _, x, hx, ?_, [], x, find?_nil x, hpage⟩
      cases x with
      | directory m es => rfl
      | file m contents => cases hpage
      | link target => cases hpage
  · rintro (hpage | ⟨loc, -, x, hx, -, below, y, hy, hpage⟩)
    · exact ⟨[], e, find?_nil e, hpage⟩
    · exact ⟨loc ++ below, y, by rw [find?_append_of_eq_some hx, hy], hpage⟩

/-! ## From the nodes of a directory to its routes -/

/-- The logical path of the folder that names lead to. -/
def logicalPath (conventions : Conventions) (names : List Text) : LogicalPath :=
  ⟨conventions.logicalRoot, names⟩

theorem logicalPath_join (above : List Text) (text : Text) :
    (logicalPath conventions above).join text = logicalPath conventions (above ++ [text]) := rfl

/-- A folder is asked for the same pages on the disk and among the nodes. -/
theorem anyPage_of_nodes {order : EntryOrder} {above : Path} {logical : LogicalPath} {e : Entry} {ns : List Node}
    (h : List.Forall₂ (fun p n => ∃ reachable, Loading.node order above logical reachable p.1 p.2 = .ok n)
      (order.arrange e.entries) ns) : Node.anyPage conventions ns = e.holdsPage conventions := by
  rw [holdsPage, ← (EntryOrder.arrange_perm order e.entries).any_eq, Node.anyPage]
  generalize order.arrange e.entries = ps at h ⊢
  induction h with
  | nil => rfl
  | @cons p n ps ns hn _ ih =>
    rw [List.any_cons, List.any_cons, ih]
    congr 1
    obtain ⟨name, e⟩ := p
    obtain ⟨reachable, hn⟩ := hn
    cases e with
    | directory m es =>
      obtain ⟨text, children, -, -, rfl⟩ := Loading.node_of_directory hn
      rfl
    | file m contents =>
      obtain ⟨text, htext, rfl⟩ := Loading.node_of_file rfl hn
      simp [Node.isFile, isDirectory, kind, htext]
    | link target =>
      obtain ⟨text, htext, rfl⟩ := Loading.node_of_file rfl hn
      simp [Node.isFile, isDirectory, kind, htext]

theorem anyPage_eq_holdsPage {order : EntryOrder} {above : Path} {logical : LogicalPath}
    {reachable : Bool} (mode : Mode) {entries : List (Name × Entry)} {ns : List Node}
    (h : Loading.collect order (Loading.nodes order above logical reachable entries) = .ok ns) :
    Node.anyPage conventions ns = holdsPage conventions (.directory mode entries) :=
  anyPage_of_nodes conventions ((Loading.collect_nodes_eq_ok_iff.mp h).imp fun _ _ hn => ⟨reachable, hn⟩)

/-- A folder's route says of itself what the description says. -/
theorem heading_eq (above : List Text) (text : Text) (hasPage : Bool) :
    (⟨(logicalPath conventions (above ++ [text])).url (style.start above.length) conventions,
      hasPage, (logicalPath conventions (above ++ [text])).text⟩ : Heading) =
      Heading.ofFolder conventions style (above ++ [text]) hasPage := by
  cases style with
  | absolute => rfl
  | relative =>
    simp [Heading.ofFolder, logicalPath, LogicalPath.url, LogicalPath.visible, LogicalPath.text,
      PathStyle.start, PathStyle.shown]

section Entries

variable {mode : Mode} {entries : List (Name × Entry)} {above : List Text} {path : Path}
  {reachable : Bool}

/-- What is to be shown of a directory, for the induction. -/
def ChartedBelow (e : Entry) : Prop :=
  ∀ mode entries, e = .directory mode entries → e.Valid →
    ∀ (path : Path) (reachable : Bool) (above : List Text) (ns : List Node),
    Loading.collect .byName
      (Loading.nodes .byName path (logicalPath conventions above) reachable entries) = .ok ns →
    ∃ ways, Charted conventions style above e (fun _ => True)
      (Route.chainsOf (Node.derivationOf conventions style above.length ns).routes) ways

/-- An entry that is no directory has no routes. -/
theorem charted_of_file {name : Name} {e : Entry} (hl : entries.lookup name = some e)
    (he : e.isDirectory = false) :
    Charted conventions style above (.directory mode entries) (· = name) [] [] where
  mem loc := by
    refine ⟨fun h => by simp at h, ?_⟩
    rintro ⟨⟨n, hn, rfl⟩, hloc⟩
    cases loc with
    | nil => cases hn
    | cons m rest =>
      cases hn
      exact absurd hloc (not_isRoutable_of_file conventions hl he rest)
  sorted := List.Pairwise.nil
  chains_eq := rfl

/-- A directory that has no page in it or below it has no routes. -/
theorem charted_of_pruned {name : Name} {e : Entry} (hl : entries.lookup name = some e)
    (he : e.isDirectory = true) (hpage : e.holdsPage conventions = false)
    (hbelow : ∀ loc, ¬ e.IsRoutable conventions loc) :
    Charted conventions style above (.directory mode entries) (· = name) [] [] where
  mem loc := by
    refine ⟨fun h => by simp at h, ?_⟩
    rintro ⟨⟨n, hn, rfl⟩, hloc⟩
    match loc with
    | [] => cases hn
    | [m] =>
      cases hn
      rcases (leadsToPage_iff conventions e).mp ((isRoutable_singleton conventions hl he).mp hloc)
        with h | ⟨loc, h⟩
      · rw [hpage] at h
        cases h
      · exact absurd h (hbelow loc)
    | m :: next :: rest =>
      cases hn
      exact absurd ((isRoutable_cons_cons conventions hl next rest).mp hloc) (hbelow _)
  sorted := List.Pairwise.nil
  chains_eq := rfl

/-- The routes of a directory that has a page: its own, and below it those of the directories in
it. -/
theorem charted_of_kept {name : Name} {e : Entry} {text : Text} {chains : List (List Heading)}
    {ways : List (List Text)} (hl : entries.lookup name = some e) (he : e.isDirectory = true)
    (ht : Utf8.encode text = name) (hleads : e.LeadsToPage conventions)
    (h : Charted conventions style (above ++ [text]) e (fun _ => True) chains ways) :
    Charted conventions style above (.directory mode entries) (· = name)
      ([Heading.ofFolder conventions style (above ++ [text]) (e.holdsPage conventions)] ::
        chains.map (Heading.ofFolder conventions style (above ++ [text])
          (e.holdsPage conventions) :: ·))
      ([text] :: ways.map (text :: ·)) where
  mem loc := by
    have hways : ([text] :: ways.map (text :: ·)).map locationOf =
        [name] :: (ways.map locationOf).map (name :: ·) := by
      rw [List.map_cons, List.map_map, List.map_map, locationOf_cons, ht, locationOf_nil]
      congr 1
      refine List.map_congr_left fun way _ => ?_
      rw [Function.comp_apply, Function.comp_apply, locationOf_cons, ht]
    rw [hways, List.mem_cons, List.mem_map]
    constructor
    · rintro (rfl | ⟨below, hbelow, rfl⟩)
      · exact ⟨⟨name, rfl, rfl⟩, (isRoutable_singleton conventions hl he).mpr hleads⟩
      · obtain ⟨-, hroutable⟩ := (h.mem below).mp hbelow
        refine ⟨⟨name, rfl, rfl⟩, ?_⟩
        obtain ⟨next, rest, rfl⟩ := List.exists_cons_of_ne_nil hroutable.1
        exact (isRoutable_cons_cons conventions hl next rest).mpr hroutable
    · rintro ⟨⟨n, hn, rfl⟩, hloc⟩
      match loc with
      | [] => cases hn
      | [m] =>
        cases hn
        exact Or.inl rfl
      | m :: next :: rest =>
        cases hn
        have hroutable := (isRoutable_cons_cons conventions hl next rest).mp hloc
        exact Or.inr ⟨next :: rest, (h.mem _).mpr ⟨⟨next, rfl, trivial⟩, hroutable⟩, rfl⟩
  sorted := by
    rw [List.map_cons, List.map_map, List.pairwise_cons]
    constructor
    · intro loc hloc
      obtain ⟨way, hway, rfl⟩ := List.mem_map.mp hloc
      have hroutable := (h.mem (locationOf way)).mp (List.mem_map_of_mem hway)
      obtain ⟨next, rest, heq⟩ := List.exists_cons_of_ne_nil hroutable.2.1
      rw [Function.comp_apply, locationOf_cons, locationOf_cons, heq]
      exact List.Lex.cons List.Lex.nil
    · have hsorted := List.pairwise_map.mp h.sorted
      exact List.pairwise_map.mpr (hsorted.imp fun hlex => List.Lex.cons hlex)
  chains_eq := by
    rw [h.chains_eq, List.map_cons, List.map_map, List.map_map,
      chain_cons conventions style hl ht]
    congr 1
    refine List.map_congr_left fun way _ => ?_
    rw [Function.comp_apply, Function.comp_apply, chain_cons conventions style hl ht]

/-- The routes of a directory in a directory, from the routes below it. -/
theorem exists_charted_of_folder {name : Name} {e : Entry} {text : Text} {children : List Node}
    {ways : List (List Text)} (hl : entries.lookup name = some e) (he : e.isDirectory = true)
    (ht : Utf8.encode text = name)
    (hpage : Node.anyPage conventions children = e.holdsPage conventions)
    (h : Charted conventions style (above ++ [text]) e (fun _ => True)
      (Route.chainsOf (Node.derivationOf conventions style (above ++ [text]).length children).routes)
      ways) :
    ∃ ways', Charted conventions style above (.directory mode entries) (· = name)
      (Route.chainsOf (Node.derivation conventions style above.length
        ⟨text, path, logicalPath conventions (above ++ [text]), .folder, children⟩).routes) ways' := by
  generalize hn : Node.mk text path (logicalPath conventions (above ++ [text])) .folder children = n
  have hbelow : (Node.derivationOf conventions style (above ++ [text]).length children).routes =
      n.routesBelow conventions style := by
    rw [← hn]
    rfl
  rw [hbelow] at h
  by_cases hleads : e.LeadsToPage conventions
  · have hkept : Node.anyPage conventions n.children = true ∨
        n.routesBelow conventions style ≠ [] := by
      rcases (leadsToPage_iff conventions e).mp hleads with hp | ⟨loc, hloc⟩
      · exact Or.inl (by rw [← hn, hpage, hp])
      · refine Or.inr fun hnil => ?_
        obtain ⟨first, rest, rfl⟩ := List.exists_cons_of_ne_nil hloc.1
        have hmem := (h.mem _).mpr ⟨⟨first, rfl, trivial⟩, hloc⟩
        have hchains := h.chains_eq
        rw [hnil, Route.chainsOf_nil] at hchains
        rw [List.map_eq_nil_iff.mp hchains.symm] at hmem
        cases hmem
    have hheading := heading_eq conventions style above text (e.holdsPage conventions)
    refine ⟨[text] :: ways.map (text :: ·), ?_⟩
    rw [Node.routes_derivation_of_kept conventions style above.length hkept, Route.chainsOf_cons,
      Route.chainsOf_nil, List.append_nil, Route.chains_eq, Route.heading]
    simp only [← hn, hpage] at hheading h ⊢
    rw [hheading]
    exact charted_of_kept conventions style hl he ht hleads h
  · have hnone : ∀ loc, ¬ e.IsRoutable conventions loc := fun loc hloc =>
      hleads ((leadsToPage_iff conventions e).mpr (Or.inr ⟨loc, hloc⟩))
    have hfalse : e.holdsPage conventions = false :=
      Bool.eq_false_iff.mpr fun hp => hleads ((leadsToPage_iff conventions e).mpr (Or.inl hp))
    have hempty : ways = [] := by
      refine List.eq_nil_iff_forall_not_mem.mpr fun way hway => ?_
      exact hnone _ ((h.mem (locationOf way)).mp (List.mem_map_of_mem hway)).2
    have hpruned : n.routesBelow conventions style = [] := by
      have hchains := h.chains_eq
      rw [hempty, List.map_nil] at hchains
      exact Route.chainsOf_eq_nil_iff.mp hchains
    refine ⟨[], ?_⟩
    rw [Node.routes_derivation_of_pruned conventions style above.length
      (by rw [← hn, hpage, hfalse]) hpruned]
    exact charted_of_pruned conventions style hl he hfalse hnone

/-- The routes of one entry. -/
theorem exists_charted_of_node (hvalid : Valid (.directory mode entries)) {p : Name × Entry}
    {n : Node} (hp : p ∈ entries) (ih : ChartedBelow conventions style p.2)
    (hn : Loading.node .byName path (logicalPath conventions above) reachable p.1 p.2 = .ok n) :
    ∃ ways, Charted conventions style above (.directory mode entries) (· = p.1)
      (Route.chainsOf (Node.derivationOf conventions style above.length [n]).routes) ways := by
  obtain ⟨name, e⟩ := p
  have hl : entries.lookup name = some e := lookup_of_mem hvalid.distinct hp
  cases hdir : e.isDirectory with
  | false =>
    obtain ⟨text, -, rfl⟩ := Loading.node_of_file hdir hn
    refine ⟨[], ?_⟩
    rw [Node.derivationOf_cons_of_file conventions style _ rfl]
    exact charted_of_file conventions style hl hdir
  | true =>
    obtain ⟨m, es, rfl⟩ := isDirectory_iff.mp hdir
    obtain ⟨text, children, htext, hchildren, rfl⟩ := Loading.node_of_directory hn
    rw [logicalPath_join] at hchildren ⊢
    obtain ⟨ways, hways⟩ := ih m es rfl (hvalid.inside hp) _ _ _ _ hchildren
    rw [Node.derivationOf_cons_of_folder conventions style _ rfl, Node.derivationOf_nil,
      Derivation.routes_empty, List.append_nil]
    exact exists_charted_of_folder conventions style hl hdir (Utf8.encode_of_decode? htext)
      (anyPage_eq_holdsPage conventions m hchildren) hways

/-! ## From one entry to all entries -/

/-- Two parts of a directory, the names of the first before those of the second. -/
theorem Charted.append {top : Entry} {part part' : Name → Prop} {chains chains' : List (List Heading)}
    {ways ways' : List (List Text)} (h : Charted conventions style above top part chains ways)
    (h' : Charted conventions style above top part' chains' ways')
    (hbefore : ∀ m n, part m → part' n → Bytes.Before m n) :
    Charted conventions style above top (fun name => part name ∨ part' name) (chains ++ chains')
      (ways ++ ways') where
  mem loc := by
    rw [List.map_append, List.mem_append, h.mem, h'.mem]
    constructor
    · rintro (⟨⟨n, hn, hpart⟩, hloc⟩ | ⟨⟨n, hn, hpart⟩, hloc⟩)
      · exact ⟨⟨n, hn, Or.inl hpart⟩, hloc⟩
      · exact ⟨⟨n, hn, Or.inr hpart⟩, hloc⟩
    · rintro ⟨⟨n, hn, hpart | hpart⟩, hloc⟩
      · exact Or.inl ⟨⟨n, hn, hpart⟩, hloc⟩
      · exact Or.inr ⟨⟨n, hn, hpart⟩, hloc⟩
  sorted := by
    rw [List.map_append, List.pairwise_append]
    refine ⟨h.sorted, h'.sorted, fun loc hloc loc' hloc' => ?_⟩
    obtain ⟨⟨m, hm, hpart⟩, -⟩ := (h.mem loc).mp hloc
    obtain ⟨⟨n, hn, hpart'⟩, -⟩ := (h'.mem loc').mp hloc'
    cases loc with
    | nil => cases hm
    | cons x xs =>
      cases loc' with
      | nil => cases hn
      | cons y ys =>
        cases hm
        cases hn
        exact List.Lex.rel (hbefore _ _ hpart hpart')
  chains_eq := by rw [h.chains_eq, h'.chains_eq, List.map_append]

/-- The routes of a part of the entries of a directory. -/
theorem exists_charted_of_nodes (hvalid : Valid (.directory mode entries))
    (ih : ∀ p ∈ entries, ChartedBelow conventions style p.2) {ps : List (Name × Entry)}
    {ns : List Node} (hsub : ∀ p ∈ ps, p ∈ entries)
    (hsorted : ps.Pairwise fun p q => Bytes.Before p.1 q.1)
    (h : List.Forall₂ (fun p n => Loading.node .byName path (logicalPath conventions above)
      reachable p.1 p.2 = .ok n) ps ns) :
    ∃ ways, Charted conventions style above (.directory mode entries)
      (fun name => ∃ p ∈ ps, p.1 = name)
      (Route.chainsOf (Node.derivationOf conventions style above.length ns).routes) ways := by
  induction h with
  | nil =>
    refine ⟨[], ?_, List.Pairwise.nil, by simp⟩
    intro loc
    simp
  | @cons p n ps ns hn _ ihps =>
    obtain ⟨hfirst, hrest⟩ := List.pairwise_cons.mp hsorted
    obtain ⟨ways, hways⟩ := exists_charted_of_node conventions style hvalid
      (hsub p List.mem_cons_self) (ih p (hsub p List.mem_cons_self)) hn
    obtain ⟨ways', hways'⟩ := ihps (fun q hq => hsub q (List.mem_cons_of_mem p hq)) hrest
    have happend := Charted.append conventions style hways hways' (by
      rintro m n rfl ⟨q, hq, rfl⟩
      exact hfirst q hq)
    have hroutes : (Node.derivationOf conventions style above.length [n]).routes
        ++ (Node.derivationOf conventions style above.length ns).routes =
        (Node.derivationOf conventions style above.length (n :: ns)).routes := by
      cases hkind : n.kind with
      | file => simp [Node.derivationOf_cons_of_file conventions style above.length hkind]
      | folder => simp [Node.derivationOf_cons_of_folder conventions style above.length hkind]
    refine ⟨ways ++ ways', ?_⟩
    rw [← hroutes, Route.chainsOf_append]
    have hpart : (fun name => ∃ q ∈ p :: ps, q.1 = name) =
        fun name => name = p.1 ∨ ∃ q ∈ ps, q.1 = name := by
      funext name
      simp [eq_comm]
    rw [hpart]
    exact happend

/-- The routes of a directory. -/
theorem chartedBelow (e : Entry) : ChartedBelow conventions style e := by
  induction e using Entry.induction with
  | file mode contents =>
    intro m es h
    cases h
  | link target =>
    intro m es h
    cases h
  | directory mode entries ih =>
    rintro m es ⟨⟩ hvalid path reachable above ns hns
    obtain ⟨ways, hways⟩ := exists_charted_of_nodes conventions style hvalid ih
      (fun p hp => (EntryOrder.arrange_perm .byName entries).mem_iff.mp hp)
      (EntryOrder.pairwise_arrange_byName hvalid.distinct)
      (Loading.collect_nodes_eq_ok_iff.mp hns)
    refine ⟨ways, ?_, hways.sorted, hways.chains_eq⟩
    intro loc
    rw [hways.mem]
    refine and_congr_left fun hloc => ?_
    obtain ⟨name, rest, rfl⟩ := List.exists_cons_of_ne_nil hloc.1
    obtain ⟨-, x, hx, -⟩ := hloc
    rw [find?_directory_cons] at hx
    constructor
    · rintro ⟨n, hn, -⟩
      exact ⟨n, hn, trivial⟩
    · -- what is found below a name was listed under that name
      rintro ⟨n, hn, -⟩
      cases hl : entries.lookup name with
      | none =>
        rw [hl] at hx
        cases hx
      | some old =>
        have hmem := (EntryOrder.arrange_perm .byName entries).mem_iff.mpr (mem_of_lookup hl)
        exact ⟨name, rfl, (name, old), hmem, rfl⟩

end Entries

end Entry

/-! ## The whole table -/

/-- **The table of a directory.**  If the directory at the root can be loaded by name, it is compiled.
The routes of the table are exactly the routable directories below the root, in preorder with siblings
by name, each nested in the route of the directory above it, and each says of itself what follows from
the names on the way to it and from the entries in it. -/
theorem compile_table {fs : FileSystem} (hfs : fs.Valid) (conventions : Conventions)
    (style : PathStyle) (root : Path) {nodes : List Node}
    (hload : load fs .byName conventions.logicalRoot root = .ok nodes) :
    ∃ (c : Compilation) (top : Entry) (ways : List (List Text)),
      compile ⟨conventions, .byName, style⟩ fs root = .ok c ∧
      c.fragment = Route.fragment conventions c.routes ∧
      fs.lookup .target root = .ok top ∧
      (∀ loc, loc ∈ ways.map Entry.locationOf ↔ top.IsRoutable conventions loc) ∧
      (ways.map Entry.locationOf).Pairwise Location.Before ∧
      Route.chainsOf c.routes = ways.map (top.chain conventions style []) := by
  obtain ⟨mode, entries, hlookup, hcollect⟩ := exists_of_load hload
  obtain ⟨ways, hways⟩ := Entry.chartedBelow conventions style (.directory mode entries) mode entries
    rfl (hfs.lookup hlookup) root mode.search [] nodes hcollect
  refine ⟨⟨nodes, derive conventions style nodes,
    Route.fragment conventions (derive conventions style nodes).routes⟩, .directory mode entries,
    ways, ?_, rfl, hlookup, fun loc => ?_, hways.sorted, hways.chains_eq⟩
  · rw [compile, hload]
  · rw [hways.mem]
    refine and_iff_right_of_imp fun hloc => ?_
    obtain ⟨name, rest, rfl⟩ := List.exists_cons_of_ne_nil hloc.1
    exact ⟨name, rfl, trivial⟩

/-- A project with a page behind a route group and one in a directory that also has a link. -/
def sampleTree : FileSystem where
  root := .directory .full [(Utf8.encode "app", .directory .full [
    (Utf8.encode "(shop)", .directory .full [
      (Utf8.encode "cart", .directory .full [(Utf8.encode "page.tsx", .file .plain [])])]),
    (Utf8.encode "blog", .directory .full [
      (Utf8.encode "page.d", .directory .full []),
      (Utf8.encode "page.mdx", .link (Path.ofText "/app"))])])]
  current := .ofLocation []

theorem valid_sampleTree : sampleTree.Valid := ⟨by decide, _, _, rfl⟩

/-- The sample is loaded and compiled. -/
theorem compile_table_sampleTree :
    ∃ nodes, load sampleTree .byName Conventions.standard.logicalRoot (Path.ofText "/app") = .ok nodes ∧
    ∃ (c : Compilation) (top : Entry) (ways : List (List Text)),
      compile ⟨.standard, .byName, .relative⟩ sampleTree (Path.ofText "/app") = .ok c ∧
      c.fragment = Route.fragment .standard c.routes ∧
      sampleTree.lookup .target (Path.ofText "/app") = .ok top ∧
      (∀ loc, loc ∈ ways.map Entry.locationOf ↔ top.IsRoutable .standard loc) ∧
      (ways.map Entry.locationOf).Pairwise Location.Before ∧
      Route.chainsOf c.routes = ways.map (top.chain .standard .relative []) := by
  have h : (load sampleTree .byName Conventions.standard.logicalRoot (Path.ofText "/app")).isOk =
      true := by cbv
  cases hload : load sampleTree .byName Conventions.standard.logicalRoot (Path.ofText "/app") with
  | error problem =>
    rw [hload] at h
    cases h
  | ok nodes =>
    exact ⟨nodes, rfl, compile_table valid_sampleTree .standard .relative (Path.ofText "/app") hload⟩

end FileRoutes
