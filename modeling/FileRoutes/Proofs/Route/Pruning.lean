import FileRoutes.Proofs.Route.Chains
import Mathlib.Logic.Basic

/-!
# Which folders become routes

The derivation decides on a folder when it has decided on the folders in it, and it looks at what was left
of these.  Here is said what this comes to, for nodes of any shape, whatever their logical paths are and
whatever is below a file (`derive_prunes`):

* One gets to a folder through folders only, from the top down.  Each folder that one gets to stands as the
  chain of the folders on the way to it, in preorder (`Node.folderChainsOf`).
* A folder stays if there is a page in it, or in a folder that one gets to from it (`Node.LeadsToPage`).
  A page is a file; a folder that is named like one is none (`Node.HoldsPage`).
* The routes are those of the folders that stay, and each lies below the routes of the folders above it.

## What is not read

The name of a folder, the place of a node and all that is below a file may be taken away without any change
of the routes or of the decisions (`Node.essentials`).
-/

namespace FileRoutes

namespace Node

/-! ## The description -/

/-- One gets from the folder to the other one through folders. -/
inductive Reaches : Node → Node → Prop
  | refl (n : Node) : Reaches n n
  | down {n c m : Node} : c ∈ n.children → c.kind = .folder → Reaches c m → Reaches n m

/-- A file that is directly in the folder is named like a page. -/
def HoldsPage (conventions : Conventions) (n : Node) : Prop :=
  ∃ c ∈ n.children, c.kind = .file ∧ conventions.pagePrefix <+: c.name

/-- There is a page in the folder, or in one that one gets to from it. -/
def LeadsToPage (conventions : Conventions) (n : Node) : Prop :=
  ∃ m, n.Reaches m ∧ m.HoldsPage conventions

mutual

/-- The folders that one gets to from a folder, in preorder, each as the chain of those on the way. -/
def folderChains : Node → List (List Node)
  | ⟨name, path, logical, kind, children⟩ =>
    [⟨name, path, logical, kind, children⟩] ::
      (folderChainsOf children).map (⟨name, path, logical, kind, children⟩ :: ·)

/-- The folders that one gets to from the top, in preorder, each as the chain of those on the way. -/
def folderChainsOf : List Node → List (List Node)
  | [] => []
  | n :: rest => (if n.isFolder then folderChains n else []) ++ folderChainsOf rest

end

variable {n m : Node} {ns : List Node} {chain : List Node}

theorem Reaches.trans {k : Node} (h : n.Reaches m) (h' : m.Reaches k) : n.Reaches k := by
  induction h with
  | refl n => exact h'
  | down hc hkind _ ih => exact .down hc hkind (ih h')

theorem folderChains_eq (n : Node) :
    folderChains n = [n] :: (folderChainsOf n.children).map (n :: ·) := by
  cases n
  rw [folderChains]

theorem mem_folderChainsOf :
    chain ∈ folderChainsOf ns ↔ ∃ n ∈ ns, n.kind = .folder ∧ chain ∈ folderChains n := by
  induction ns with
  | nil => simp [folderChainsOf]
  | cons n ns ih => by_cases h : n.kind = .folder <;> simp [folderChainsOf, isFolder, h, ih]

theorem mem_folderChains :
    chain ∈ folderChains n ↔ chain = [n] ∨
      ∃ c ∈ n.children, c.kind = .folder ∧ ∃ rest ∈ folderChains c, chain = n :: rest := by
  rw [folderChains_eq, List.mem_cons, List.mem_map]
  refine or_congr_right ⟨?_, ?_⟩
  · rintro ⟨rest, hrest, rfl⟩
    obtain ⟨c, hc, hkind, hrest⟩ := mem_folderChainsOf.mp hrest
    exact ⟨c, hc, hkind, rest, hrest, rfl⟩
  · rintro ⟨c, hc, hkind, rest, hrest, rfl⟩
    exact ⟨rest, mem_folderChainsOf.mpr ⟨c, hc, hkind, hrest⟩, rfl⟩

theorem ne_nil_of_mem_folderChains (h : chain ∈ folderChains n) : chain ≠ [] := by
  rcases mem_folderChains.mp h with rfl | ⟨c, -, -, rest, -, rfl⟩ <;> exact List.cons_ne_nil _ _

/-- A folder on the way does not change where the chain ends. -/
theorem getLast?_cons_of_mem (h : chain ∈ folderChainsOf ns) (n : Node) :
    (n :: chain).getLast? = chain.getLast? := by
  obtain ⟨c, -, -, hchain⟩ := mem_folderChainsOf.mp h
  obtain ⟨first, rest, rfl⟩ := List.exists_cons_of_ne_nil (ne_nil_of_mem_folderChains hchain)
  rw [List.getLast?_cons_cons]

/-- The chains are those of the folders that one gets to, and of no others. -/
theorem reaches_iff : n.Reaches m ↔ ∃ chain ∈ folderChains n, chain.getLast? = some m := by
  constructor
  · intro h
    induction h with
    | refl n => exact ⟨[n], mem_folderChains.mpr (Or.inl rfl), rfl⟩
    | @down n c m hc hkind _ ih =>
      obtain ⟨chain, hchain, hlast⟩ := ih
      refine ⟨n :: chain, mem_folderChains.mpr (Or.inr ⟨c, hc, hkind, chain, hchain, rfl⟩), ?_⟩
      rw [getLast?_cons_of_mem (mem_folderChainsOf.mpr ⟨c, hc, hkind, hchain⟩), hlast]
  · rintro ⟨chain, hchain, hlast⟩
    induction chain generalizing n with
    | nil => cases hlast
    | cons first chain ih =>
      rcases mem_folderChains.mp hchain with heq | ⟨c, hc, hkind, rest, hrest, heq⟩
      · obtain ⟨rfl, rfl⟩ := List.cons.inj heq
        obtain rfl := Option.some.inj hlast
        exact .refl _
      · obtain ⟨rfl, rfl⟩ := List.cons.inj heq
        rw [getLast?_cons_of_mem (mem_folderChainsOf.mpr ⟨c, hc, hkind, hrest⟩)] at hlast
        exact .down hc hkind (ih hrest hlast)

/-! ## Pages -/

section Pages

variable (conventions : Conventions)

theorem anyPage_iff_holdsPage : anyPage conventions n.children = true ↔ n.HoldsPage conventions := by
  simp [anyPage, HoldsPage, isFile, Conventions.isPageFile]

instance (n : Node) : Decidable (n.HoldsPage conventions) :=
  decidable_of_iff _ (anyPage_iff_holdsPage conventions)

theorem anyPage_eq_decide (n : Node) :
    anyPage conventions n.children = decide (n.HoldsPage conventions) := by
  rw [Bool.eq_iff_iff, anyPage_iff_holdsPage, decide_eq_true_iff]

theorem leadsToPage_iff_any : (folderChains n).any (·.getLast?.any (·.HoldsPage conventions)) = true ↔
    n.LeadsToPage conventions := by
  rw [LeadsToPage, List.any_eq_true]
  constructor
  · rintro ⟨chain, hchain, hpage⟩
    obtain ⟨m, hlast, hpage⟩ := (Option.any_eq_true _ _).mp hpage
    exact ⟨m, reaches_iff.mpr ⟨chain, hchain, hlast⟩, of_decide_eq_true hpage⟩
  · rintro ⟨m, hreaches, hpage⟩
    obtain ⟨chain, hchain, hlast⟩ := reaches_iff.mp hreaches
    exact ⟨chain, hchain, by simp [hlast, hpage]⟩

instance (n : Node) : Decidable (n.LeadsToPage conventions) :=
  decidable_of_iff _ (leadsToPage_iff_any conventions)

/-- The chain is that of a folder that stays. -/
def Stays (chain : List Node) : Bool := chain.getLast?.any (·.LeadsToPage conventions)

theorem stays_cons_of_mem (h : chain ∈ folderChainsOf ns) (n : Node) :
    Stays conventions (n :: chain) = Stays conventions chain := by
  rw [Stays, Stays, getLast?_cons_of_mem h]

/-- A folder stays for a page in it, or for the sake of a folder in it that stays. -/
theorem leadsToPage_iff : n.LeadsToPage conventions ↔
    n.HoldsPage conventions ∨ ∃ chain ∈ folderChainsOf n.children, Stays conventions chain = true := by
  constructor
  · rintro ⟨m, hreaches, hpage⟩
    cases hreaches with
    | refl => exact Or.inl hpage
    | @down _ c _ hc hkind hreaches =>
      refine Or.inr ⟨[c], mem_folderChainsOf.mpr ⟨c, hc, hkind, mem_folderChains.mpr (Or.inl rfl)⟩, ?_⟩
      exact decide_eq_true (p := c.LeadsToPage conventions) ⟨m, hreaches, hpage⟩
  · rintro (hpage | ⟨chain, hchain, hstays⟩)
    · exact ⟨n, .refl n, hpage⟩
    · obtain ⟨c, hc, hkind, hchain⟩ := mem_folderChainsOf.mp hchain
      obtain ⟨m, hlast, hleads⟩ := (Option.any_eq_true _ _).mp hstays
      obtain ⟨last, hreaches, hpage⟩ := of_decide_eq_true hleads
      refine ⟨last, .down hc hkind ?_, hpage⟩
      exact (reaches_iff.mpr ⟨chain, hchain, hlast⟩).trans hreaches

end Pages

/-! ## The routes that are left -/

section Routes

variable (conventions : Conventions) (style : PathStyle)

/-- What a route tells of its folder: how it is shown, and whether there is a page in it. -/
def routeLabels (chains : List (List Heading)) : List (List (Text × Bool)) :=
  chains.map (·.map fun h => (h.source, h.hasPage))

/-- The same of the folders themselves. -/
def folderLabels (chains : List (List Node)) : List (List (Text × Bool)) :=
  chains.map (·.map fun n => (n.logical.text, decide (n.HoldsPage conventions)))

/-- A folder becomes nothing exactly if it does not stay, given that this holds of the folders in it. -/
theorem leadsToPage_iff_kept {n : Node}
    (hbelow : routeLabels (Route.chainsOf (n.routesBelow conventions style)) =
      folderLabels conventions ((folderChainsOf n.children).filter (Stays conventions))) :
    n.LeadsToPage conventions ↔
      anyPage conventions n.children = true ∨ n.routesBelow conventions style ≠ [] := by
  have hnil : n.routesBelow conventions style = [] ↔
      (folderChainsOf n.children).filter (Stays conventions) = [] := by
    rw [← Route.chainsOf_eq_nil_iff, ← List.map_eq_nil_iff (f := List.map fun h => (h.source, h.hasPage)),
      ← routeLabels, hbelow, folderLabels, List.map_eq_nil_iff]
  rw [leadsToPage_iff, anyPage_iff_holdsPage, Ne, hnil, List.filter_eq_nil_iff]
  simp

/-- What becomes of a folder, from what becomes of the folders in it. -/
theorem labels_derivation_of_below (above : Nat) {n : Node}
    (hbelow : routeLabels (Route.chainsOf (n.routesBelow conventions style)) =
      folderLabels conventions ((folderChainsOf n.children).filter (Stays conventions))) :
    routeLabels (Route.chainsOf (derivation conventions style above n).routes) =
      folderLabels conventions ((folderChains n).filter (Stays conventions)) := by
  have hkept := leadsToPage_iff_kept conventions style hbelow
  have hfilter : ((folderChainsOf n.children).map (n :: ·)).filter (Stays conventions) =
      ((folderChainsOf n.children).filter (Stays conventions)).map (n :: ·) := by
    rw [List.filter_map]
    congr 1
    exact List.filter_congr fun chain hchain => stays_cons_of_mem conventions hchain n
  rw [folderChains_eq]
  by_cases hleads : n.LeadsToPage conventions
  · have hstays : Stays conventions [n] = true := decide_eq_true hleads
    rw [routes_derivation_of_kept conventions style above (hkept.mp hleads), Route.chainsOf_cons,
      Route.chainsOf_nil, List.append_nil, Route.chains_eq, List.filter_cons_of_pos hstays, hfilter]
    rw [routeLabels, folderLabels] at hbelow ⊢
    simp only [List.map_cons, List.map_map, List.map_nil, Route.heading, anyPage_eq_decide]
    congr 1
    -- the folder stands in front of each chain below it, and so does its route
    have hcons := congrArg (List.map ((n.logical.text, decide (n.HoldsPage conventions)) :: ·)) hbelow
    rw [List.map_map, List.map_map] at hcons
    exact hcons
  · obtain ⟨hpage, hnone⟩ := not_or.mp (mt hkept.mpr hleads)
    rw [not_not] at hnone
    have hstays : ¬ Stays conventions [n] = true := fun h => hleads (of_decide_eq_true h)
    rw [routes_derivation_of_pruned conventions style above (Bool.eq_false_iff.mpr hpage) hnone,
      List.filter_cons_of_neg hstays, hfilter]
    rw [hnone] at hbelow
    rw [folderLabels, List.map_map]
    rw [Route.chainsOf_nil, folderLabels] at hbelow
    rw [List.map_eq_nil_iff.mp hbelow.symm]
    rfl

mutual

theorem labels_derivation (above : Nat) : ∀ n : Node,
    routeLabels (Route.chainsOf (derivation conventions style above n).routes) =
      folderLabels conventions ((folderChains n).filter (Stays conventions))
  | ⟨_, _, logical, _, children⟩ =>
    labels_derivation_of_below conventions style above
      (labels_derivationOf logical.depth children)

theorem labels_derivationOf (above : Nat) : ∀ ns : List Node,
    routeLabels (Route.chainsOf (derivationOf conventions style above ns).routes) =
      folderLabels conventions ((folderChainsOf ns).filter (Stays conventions))
  | [] => by
    rw [derivationOf_nil, folderChainsOf]
    rfl
  | n :: rest => by
    have hrest := labels_derivationOf above rest
    rw [folderChainsOf]
    cases hkind : n.kind with
    | file =>
      rw [derivationOf_cons_of_file conventions style above hkind, hrest, isFolder, hkind]
      rfl
    | folder =>
      have hfirst := labels_derivation above n
      rw [routeLabels, folderLabels] at hfirst hrest ⊢
      rw [derivationOf_cons_of_folder conventions style above hkind, Route.chainsOf_append, List.map_append,
        hfirst, hrest, isFolder, hkind, decide_eq_true rfl, if_pos rfl, List.filter_append, List.map_append]

end

end Routes

/-! ## What is read -/

mutual

/-- What the derivation reads of a node: the name of a file, the logical path of a folder, and what it
reads of the nodes in the folder. -/
def essential : Node → Node
  | ⟨name, _, _, .file, _⟩ => ⟨name, .empty, .root [], .file, []⟩
  | ⟨_, _, logical, .folder, children⟩ => ⟨[], .empty, logical, .folder, essentials children⟩

/-- What the derivation reads of nodes. -/
def essentials : List Node → List Node
  | [] => []
  | n :: rest => essential n :: essentials rest

end

section Essentials

variable (conventions : Conventions) (style : PathStyle)

theorem kind_essential (n : Node) : n.essential.kind = n.kind := by
  obtain ⟨name, path, logical, kind, children⟩ := n
  cases kind <;> rw [essential]

theorem anyPage_essentials (ns : List Node) : anyPage conventions (essentials ns) = anyPage conventions ns := by
  induction ns with
  | nil => rw [essentials]
  | cons n ns ih =>
    rw [anyPage, anyPage] at ih ⊢
    rw [essentials, List.any_cons, ih, List.any_cons]
    congr 1
    obtain ⟨name, path, logical, kind, children⟩ := n
    cases kind <;> rw [essential] <;> rfl

mutual

theorem derivation_essential (above : Nat) : ∀ n : Node, n.kind = .folder →
    derivation conventions style above n.essential = derivation conventions style above n
  | ⟨_, _, logical, .folder, children⟩, _ => by
    rw [essential, derivation, derivation, anyPage_essentials,
      derivationOf_essentials logical.depth children]

theorem derivationOf_essentials (above : Nat) : ∀ ns : List Node,
    derivationOf conventions style above (essentials ns) = derivationOf conventions style above ns
  | [] => by rw [essentials]
  | n :: rest => by
    rw [essentials, derivationOf, derivationOf, derivationOf_essentials above rest, isFolder, isFolder,
      kind_essential]
    cases hkind : n.kind with
    | file => rfl
    | folder => rw [derivation_essential above n hkind]

end

end Essentials

end Node

/-! ## Routes without routes below them -/

/-- The route is in the table, or below a route of it. -/
inductive Route.Occurs : List Route → Route → Prop
  | here {rs : List Route} {r : Route} : r ∈ rs → Occurs rs r
  | inside {rs : List Route} {s r : Route} : s ∈ rs → Occurs s.children r → Occurs rs r

/-- Each route is that of a folder, with the routes of the nodes in it below, and was not pruned. -/
theorem Node.exists_of_mem_routes {conventions : Conventions} {style : PathStyle} {above : Nat}
    {ns : List Node} {r : Route} (h : r ∈ (derivationOf conventions style above ns).routes) :
    ∃ n ∈ ns, r.children = n.routesBelow conventions style ∧ (r.hasPage = true ∨ r.children ≠ []) := by
  induction ns with
  | nil =>
    rw [derivationOf_nil] at h
    cases h
  | cons n ns ih =>
    have hrest (h : r ∈ (derivationOf conventions style above ns).routes) : ∃ m ∈ n :: ns,
        r.children = m.routesBelow conventions style ∧ (r.hasPage = true ∨ r.children ≠ []) := by
      obtain ⟨m, hm, hr⟩ := ih h
      exact ⟨m, List.mem_cons_of_mem n hm, hr⟩
    cases hkind : n.kind with
    | file =>
      rw [derivationOf_cons_of_file conventions style above hkind] at h
      exact hrest h
    | folder =>
      rw [derivationOf_cons_of_folder conventions style above hkind] at h
      rcases List.mem_append.mp h with h | h
      · by_cases hkept : anyPage conventions n.children = true ∨ n.routesBelow conventions style ≠ []
        · rw [routes_derivation_of_kept conventions style above hkept] at h
          rw [List.mem_singleton.mp h]
          exact ⟨n, List.mem_cons_self, rfl, hkept⟩
        · obtain ⟨hpage, hnone⟩ := not_or.mp hkept
          rw [not_not] at hnone
          rw [routes_derivation_of_pruned conventions style above (Bool.eq_false_iff.mpr hpage) hnone] at h
          cases h
      · exact hrest h

theorem Node.hasPage_of_occurs {conventions : Conventions} {style : PathStyle} {rs : List Route} {r : Route}
    (h : Route.Occurs rs r) : ∀ above ns, rs = (derivationOf conventions style above ns).routes →
      r.children = [] → r.hasPage = true := by
  induction h with
  | here hr =>
    rintro above ns rfl hnil
    obtain ⟨n, -, -, hkept⟩ := exists_of_mem_routes hr
    exact hkept.resolve_right fun hne => hne hnil
  | inside hs _ ih =>
    rintro above ns rfl hnil
    obtain ⟨n, -, hchildren, -⟩ := exists_of_mem_routes hs
    exact ih n.logical.depth n.children hchildren hnil

/-- **Pruning is total and exact.**  The routes are those of the folders that one gets to from the top and
that lead to a page, in preorder and nested as the folders are.  A route with no others below it has a page.
Nothing else of the nodes is read than what their essentials hold. -/
theorem derive_prunes (conventions : Conventions) (style : PathStyle) (ns : List Node) :
    (Route.chainsOf (derive conventions style ns).routes).map (·.map fun h => (h.source, h.hasPage)) =
        ((Node.folderChainsOf ns).filter fun chain => chain.getLast?.any (·.LeadsToPage conventions)).map
          (·.map fun n => (n.logical.text, decide (n.HoldsPage conventions))) ∧
      (∀ r, Route.Occurs (derive conventions style ns).routes r → r.children = [] → r.hasPage = true) ∧
      derive conventions style (Node.essentials ns) = derive conventions style ns :=
  ⟨Node.labels_derivationOf conventions style 0 ns,
    fun _ hr => Node.hasPage_of_occurs hr 0 ns rfl,
    Node.derivationOf_essentials conventions style 0 ns⟩

end FileRoutes
