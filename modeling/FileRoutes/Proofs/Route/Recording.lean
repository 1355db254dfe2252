import FileRoutes.Proofs.Route.Pruning
import Mathlib.Data.List.Forall2

/-!
# What is recorded of a derivation

A folder is decided after the folders in it, and a line is recorded of each decision.  So the lines stand in
postorder, while the table is read from the top down.  Here the record is compared with the table, both in
postorder (`derive_recorded`):

* There is one line for each folder that one gets to through folders, after those for the folders in it, and
  siblings come as they are given (`Node.finishedOf`).
* A folder that is in the table has the line of its route, which tells the path, the source, whether there is
  a page, and how many routes are left below it (`Route.record`).  Any other folder is recorded as pruned
  (`Node.omission`).
* The lines of routes, alone, are those of the routes of the table.

Two folders of a tree may look alike, so a folder is told from others by those above it, and its route by the
routes above that (`Member`).  The route of a folder is made of what is read of the folder and of the routes
below it; it is in the table or not (`Node.routeAt`).
-/

namespace FileRoutes

/-- Something in a forest, and what is above it, from the top down. -/
structure Member (α : Type) where
  above : List α
  self : α

/-- The member of a tree whose top is at `a`, from a member of what is below the top. -/
def Member.under {α : Type} (a : α) (m : Member α) : Member α := ⟨a :: m.above, m.self⟩

namespace Route

mutual

/-- A route and the routes below it, each after those below it. -/
def finished : Route → List (Member Route)
  | ⟨path, hasPage, source, children⟩ =>
    (finishedOf children).map (.under ⟨path, hasPage, source, children⟩)
      ++ [⟨[], ⟨path, hasPage, source, children⟩⟩]

/-- The routes of a table, each after those below it. -/
def finishedOf : List Route → List (Member Route)
  | [] => []
  | r :: rest => finished r ++ finishedOf rest

end

/-- The line that is recorded of a route. -/
def record (r : Route) : Text :=
  "Route " ++ r.path ++ " from " ++ r.source ++ " (page: " ++ Text.ofBool r.hasPage ++ ", children: "
    ++ Text.ofNat r.children.length ++ ")"

/-- The beginning of the line of a route. -/
def recordKey : Text := "Route "

theorem finished_eq (r : Route) :
    finished r = (finishedOf r.children).map (.under r) ++ [⟨[], r⟩] := by
  cases r
  rw [finished]

theorem finishedOf_append (rs ss : List Route) : finishedOf (rs ++ ss) = finishedOf rs ++ finishedOf ss := by
  induction rs with
  | nil => rw [finishedOf, List.nil_append, List.nil_append]
  | cons r rs ih => rw [List.cons_append, finishedOf, ih, finishedOf, List.append_assoc]

theorem finishedOf_singleton (r : Route) : finishedOf [r] = finished r := by
  rw [finishedOf, finishedOf, List.append_nil]

theorem recordKey_prefix_record (r : Route) : recordKey.isPrefixOf r.record = true := by
  unfold recordKey record
  simp only [List.isPrefixOf_iff_prefix, List.append_assoc]
  exact List.prefix_append _ _

end Route

namespace Node

mutual

/-- A folder and the folders that one gets to from it, each after those in it. -/
def finished : Node → List (Member Node)
  | ⟨name, path, logical, kind, children⟩ =>
    (finishedOf children).map (.under ⟨name, path, logical, kind, children⟩)
      ++ [⟨[], ⟨name, path, logical, kind, children⟩⟩]

/-- The folders that one gets to from the top, each after those in it. -/
def finishedOf : List Node → List (Member Node)
  | [] => []
  | n :: rest => (if n.isFolder then finished n else []) ++ finishedOf rest

end

/-- The line that is recorded of a folder that becomes nothing. -/
def omission (n : Node) : Text := "Pruning " ++ n.logical.text ++ ": no page below it"

/-- The beginning of the line of a folder that becomes nothing. -/
def omissionKey : Text := "Pruning "

theorem finished_eq (n : Node) :
    finished n = (finishedOf n.children).map (.under n) ++ [⟨[], n⟩] := by
  cases n
  rw [finished]

theorem omissionKey_prefix_omission (n : Node) : omissionKey.isPrefixOf n.omission = true := by
  unfold omissionKey omission
  simp only [List.isPrefixOf_iff_prefix, List.append_assoc]
  exact List.prefix_append _ _

/-- The two kinds of lines differ in their first letters. -/
theorem not_recordKey_prefix_omission (n : Node) : Route.recordKey.isPrefixOf n.omission = false := by
  rfl

theorem not_omissionKey_prefix_record (r : Route) : omissionKey.isPrefixOf r.record = false := by
  rfl

section Routes

variable (conventions : Conventions) (style : PathStyle)

/-- The route of a folder, if it becomes one. -/
def route (above : Nat) (n : Node) : Route :=
  ⟨n.logical.url (style.start above) conventions, anyPage conventions n.children, n.logical.text,
    n.routesBelow conventions style⟩

/-- The route of a folder, below those of the folders above it. -/
def routeAt (depth : Nat) : List Node → Node → Member Route
  | [], n => ⟨[], n.route conventions style depth⟩
  | a :: rest, n => (routeAt a.logical.depth rest n).under (a.route conventions style depth)

/-- The line of a folder. -/
def line (depth : Nat) (m : Member Node) : Text :=
  if m.self.LeadsToPage conventions then (routeAt conventions style depth m.above m.self).self.record
  else m.self.omission

/-- A folder stays for a page in it, or for the sake of a route below it. -/
theorem leadsToPage_iff_routesBelow (n : Node) : n.LeadsToPage conventions ↔
    anyPage conventions n.children = true ∨ n.routesBelow conventions style ≠ [] :=
  leadsToPage_iff_kept conventions style (labels_derivationOf conventions style n.logical.depth n.children)

theorem routes_derivation_eq (above : Nat) (n : Node) : (derivation conventions style above n).routes =
    if n.LeadsToPage conventions then [n.route conventions style above] else [] := by
  by_cases hleads : n.LeadsToPage conventions
  · rw [if_pos hleads]
    exact routes_derivation_of_kept conventions style above
      ((leadsToPage_iff_routesBelow conventions style n).mp hleads)
  · obtain ⟨hpage, hbelow⟩ := not_or.mp (mt (leadsToPage_iff_routesBelow conventions style n).mpr hleads)
    rw [if_neg hleads]
    exact routes_derivation_of_pruned conventions style above (Bool.eq_false_iff.mpr hpage)
      (not_not.mp hbelow)

/-- The decision on a folder comes after those on the folders in it. -/
theorem decisions_derivation_eq (above : Nat) (n : Node) :
    (derivation conventions style above n).decisions.map Decision.message =
      (derivationOf conventions style n.logical.depth n.children).decisions.map Decision.message
        ++ [line conventions style above ⟨[], n⟩] := by
  have hleads := leadsToPage_iff_routesBelow conventions style n
  obtain ⟨name, path, logical, kind, children⟩ := n
  rw [derivation, line]
  simp only [routesBelow] at hleads
  by_cases hkept : anyPage conventions children = true ∨
      (derivationOf conventions style logical.depth children).routes ≠ []
  · rw [if_pos (hleads.mpr hkept)]
    have hnot : (!anyPage conventions children
        && (derivationOf conventions style logical.depth children).routes.isEmpty) = false := by
      rcases hkept with h | h <;> simp [h]
    simp only [hnot, Bool.false_eq_true, if_false, List.map_append, List.map_cons, List.map_nil]
    unfold Decision.message Route.record
    rfl
  · rw [if_neg (mt hleads.mp hkept)]
    obtain ⟨hpage, hbelow⟩ := not_or.mp hkept
    rw [not_not] at hbelow
    simp only [Bool.eq_false_iff.mpr hpage, hbelow, Bool.not_false, List.isEmpty_nil, Bool.and_self, if_true,
      List.map_append, List.map_cons, List.map_nil]
    unfold Decision.message omission
    rfl

/-! ## The lines -/

mutual

theorem lines_derivation (above : Nat) : ∀ n : Node,
    (derivation conventions style above n).decisions.map Decision.message =
      (finished n).map (line conventions style above)
  | ⟨name, path, logical, kind, children⟩ => by
    rw [decisions_derivation_eq, finished_eq, List.map_append, List.map_map,
      lines_derivationOf logical.depth children]
    rfl

theorem lines_derivationOf (above : Nat) : ∀ ns : List Node,
    (derivationOf conventions style above ns).decisions.map Decision.message =
      (finishedOf ns).map (line conventions style above)
  | [] => by
    rw [derivationOf_nil, finishedOf]
    rfl
  | n :: rest => by
    have hrest := lines_derivationOf above rest
    rw [derivationOf, finishedOf, List.map_append, ← hrest]
    cases hkind : n.isFolder with
    | false => rfl
    | true =>
      rw [if_pos rfl, if_pos rfl, ← lines_derivation above n, ← List.map_append]
      rfl

end

/-! ## The routes -/

/-- The routes of the members that stay. -/
def routesOfMembers (depth : Nat) (ms : List (Member Node)) : List (Member Route) :=
  (ms.filter (·.self.LeadsToPage conventions)).map fun m => routeAt conventions style depth m.above m.self

/-- What is in a folder becomes routes below the route of the folder. -/
theorem routesOfMembers_under (depth : Nat) (n : Node) (ms : List (Member Node)) :
    routesOfMembers conventions style depth (ms.map (.under n)) =
      (routesOfMembers conventions style n.logical.depth ms).map
        (.under (n.route conventions style depth)) := by
  rw [routesOfMembers, routesOfMembers, List.filter_map, List.map_map, List.map_map]
  rfl

mutual

theorem finished_derivation (above : Nat) : ∀ n : Node,
    Route.finishedOf (derivation conventions style above n).routes =
      routesOfMembers conventions style above (finished n)
  | ⟨name, path, logical, kind, children⟩ => by
    have hbelow := finished_derivationOf logical.depth children
    have hunder := routesOfMembers_under conventions style above ⟨name, path, logical, kind, children⟩
      (finishedOf children)
    rw [← hbelow] at hunder
    have happend (ms ms' : List (Member Node)) : routesOfMembers conventions style above (ms ++ ms') =
        routesOfMembers conventions style above ms ++ routesOfMembers conventions style above ms' := by
      rw [routesOfMembers, List.filter_append, List.map_append]
      rfl
    rw [finished_eq, happend, hunder, routes_derivation_eq]
    by_cases hleads : LeadsToPage conventions ⟨name, path, logical, kind, children⟩
    · rw [if_pos hleads, Route.finishedOf_singleton, Route.finished_eq, routesOfMembers]
      simp only [List.filter_cons, decide_eq_true hleads, if_true]
      rfl
    · -- a folder that becomes nothing has no routes below it
      have hnone := (not_or.mp (mt (leadsToPage_iff_routesBelow conventions style _).mpr hleads)).2
      rw [not_not, routesBelow] at hnone
      rw [if_neg hleads, hnone, routesOfMembers, List.filter_cons, if_neg (mt of_decide_eq_true hleads)]
      rfl

theorem finished_derivationOf (above : Nat) : ∀ ns : List Node,
    Route.finishedOf (derivationOf conventions style above ns).routes =
      routesOfMembers conventions style above (finishedOf ns)
  | [] => by
    rw [derivationOf_nil, finishedOf]
    rfl
  | n :: rest => by
    have hrest := finished_derivationOf above rest
    rw [finishedOf]
    cases hkind : n.kind with
    | file =>
      rw [derivationOf_cons_of_file conventions style above hkind, hrest, isFolder, hkind]
      rfl
    | folder =>
      rw [derivationOf_cons_of_folder conventions style above hkind, Route.finishedOf_append, hrest,
        finished_derivation above n, isFolder, hkind, routesOfMembers, routesOfMembers, routesOfMembers]
      rw [decide_eq_true rfl, if_pos rfl, List.filter_append, List.map_append]

end

/-! ## Folders that are in the table -/

theorem self_routeAt (depth : Nat) (above : List Node) (n : Node) :
    ∃ depth', (routeAt conventions style depth above n).self = n.route conventions style depth' := by
  induction above generalizing depth with
  | nil => exact ⟨depth, rfl⟩
  | cons a above ih => exact ih a.logical.depth

/-- The route of a folder that becomes nothing is like that of no other folder. -/
theorem leadsToPage_of_route_eq {n m : Node} {depth depth' : Nat}
    (h : n.route conventions style depth = m.route conventions style depth') (hm : m.LeadsToPage conventions) :
    n.LeadsToPage conventions := by
  obtain ⟨-, hpage, -, hbelow⟩ := Route.mk.inj h
  rw [leadsToPage_iff_routesBelow conventions style] at hm ⊢
  rwa [hpage, hbelow]

/-- The folders in the table are those that stay. -/
theorem mem_routesOfMembers_iff (depth : Nat) {ms : List (Member Node)} {m : Member Node} (hm : m ∈ ms) :
    routeAt conventions style depth m.above m.self ∈ routesOfMembers conventions style depth ms ↔
      m.self.LeadsToPage conventions := by
  constructor
  · intro h
    obtain ⟨other, hother, heq⟩ := List.mem_map.mp h
    have hleads := of_decide_eq_true (List.mem_filter.mp hother).2
    obtain ⟨depth₁, h₁⟩ := self_routeAt conventions style depth m.above m.self
    obtain ⟨depth₂, h₂⟩ := self_routeAt conventions style depth other.above other.self
    exact leadsToPage_of_route_eq conventions style (h₁.symm.trans ((congrArg Member.self heq).symm.trans h₂))
      hleads
  · intro h
    exact List.mem_map.mpr ⟨m, List.mem_filter.mpr ⟨hm, decide_eq_true h⟩, rfl⟩

theorem filter_lines (depth : Nat) (ms : List (Member Node)) :
    (ms.map (line conventions style depth)).filter Route.recordKey.isPrefixOf =
      (routesOfMembers conventions style depth ms).map (·.self.record) := by
  induction ms with
  | nil => rfl
  | cons m ms ih =>
    rw [List.map_cons, line, routesOfMembers] at *
    by_cases hleads : m.self.LeadsToPage conventions
    · rw [if_pos hleads, List.filter_cons, if_pos (Route.recordKey_prefix_record _), List.filter_cons,
        if_pos (decide_eq_true hleads), ih, List.map_cons, List.map_cons]
    · rw [if_neg hleads, List.filter_cons, not_recordKey_prefix_omission, if_neg Bool.false_ne_true,
        List.filter_cons, if_neg (mt of_decide_eq_true hleads), ih]

end Routes

end Node

/-- **The record accounts for every folder.**  There is one line for each folder that one gets to from the
top, after those for the folders in it.  It is the line of the folder's route if this is in the table, and
says that the folder was pruned if it is not.  The lines of routes are those of the table, each after the
lines of the routes below it. -/
theorem derive_recorded (conventions : Conventions) (style : PathStyle) (ns : List Node) :
    let lines := (derive conventions style ns).decisions.map Decision.message
    let table := Route.finishedOf (derive conventions style ns).routes
    List.Forall₂ (fun line folder =>
        let place := Node.routeAt conventions style 0 folder.above folder.self
        (place ∈ table → line = place.self.record) ∧ (place ∉ table → line = folder.self.omission) ∧
          (Node.omissionKey.isPrefixOf line = true ↔ place ∉ table))
        lines (Node.finishedOf ns) ∧
      lines.filter Route.recordKey.isPrefixOf = table.map (·.self.record) := by
  intro lines table
  have hlines : lines = (Node.finishedOf ns).map (Node.line conventions style 0) :=
    Node.lines_derivationOf conventions style 0 ns
  have htable : table = Node.routesOfMembers conventions style 0 (Node.finishedOf ns) :=
    Node.finished_derivationOf conventions style 0 ns
  rw [hlines, htable]
  refine ⟨?_, Node.filter_lines conventions style 0 (Node.finishedOf ns)⟩
  rw [List.forall₂_map_left_iff, List.forall₂_same]
  intro folder hfolder
  have hmem := Node.mem_routesOfMembers_iff conventions style 0 hfolder
  simp only [hmem]
  rw [Node.line]
  by_cases hleads : folder.self.LeadsToPage conventions
  · rw [if_pos hleads, Node.not_omissionKey_prefix_record]
    exact ⟨fun _ => rfl, fun h => absurd hleads h, by simp [hleads]⟩
  · rw [if_neg hleads, Node.omissionKey_prefix_omission]
    exact ⟨fun h => absurd h hleads, fun _ => rfl, by simp [hleads]⟩

end FileRoutes
