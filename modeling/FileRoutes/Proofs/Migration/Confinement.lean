import FileRoutes.Proofs.Migration.Stages
import FileRoutes.Proofs.Route.Image
import FileRoutes.Proofs.Route.Recording

/-!
# Where the routes are looked for

Usable conventions name the routes root by one segment, so its path is that of the project with one segment
behind it (`Migration.routesRoot_eq_child`).  Such a segment is one step: it stays in the project, leaves it,
or goes down to a name.  Nothing rules out the first two, and an `app_dir` of two dots makes the directory
above the project the routes root (`Migration.routesRoot_escapes`).

With any other `app_dir` the routes root is an entry of the project (`FileSystem.locate_child`).  If this is no
link, all that is looked at is in it (`confinedTo_of_locate`):

* A loader lists the root, and what it lists it finds by the names in the listings of the directories above
  (`Loading.Scans`).  Each name leads one level down, since it is that of a directory and not of a link.
* A route tells the names of a folder, and these lead to a directory; its page is a file in that directory.

So the invariant of both recursions is the location that has been reached: that of the root with names behind.
-/

namespace FileRoutes

/-! ## One name behind a path -/

namespace FileSystem

variable {fs : FileSystem} {p : Path} {loc : Location} {name : Name} {e : Entry}

theorem locate_of_resolve (h : fs.resolve .target p = .ok (.entry loc)) : fs.locate .target p = .ok loc := by
  rw [locate, h]
  rfl

theorem find?_of_locate (h : fs.locate .target p = .ok loc) (he : fs.lookup .target p = .ok e) :
    fs.find? loc = some e := by
  rw [lookup, resolve_of_locate h] at he
  simp only [bind, Except.bind] at he
  split at he
  · rename_i hfind
    rw [hfind, Except.ok.inj he]
  · cases he

/-- The steps of a path with a name behind it begin with those of the path, but for the demand for a
directory. -/
theorem steps_child (p : Path) (hname : name.IsDown) :
    ∃ tail, (tail = [] ∨ tail = [Step.settle]) ∧ p.steps = p.moves ++ tail ∧
      (p.child name).steps = p.moves ++ [.down name] := by
  have hlast : (p.child name).last.IsDown := by rwa [Path.child, Path.last_join]
  have hsteps : (p.child name).steps = p.moves ++ [.down name] := by
    rw [Path.steps_of_isDown hlast]
    exact ((Path.GoesOn.refl p).child hname).moves_eq
  rcases p.steps_eq with ⟨heq, -⟩ | heq
  · exact ⟨[], Or.inl rfl, by rw [heq, List.append_nil], hsteps⟩
  · exact ⟨[.settle], Or.inr rfl, heq, hsteps⟩

/-- Both begin at the same place. -/
theorem start_eq_of_child {spot spot' : Spot} (h : fs.start p = .ok spot)
    (h' : fs.start (p.child name) = .ok spot') : spot' = spot := by
  rw [start_eq_ok h', start_eq_ok h, Path.child, Path.isAbsolute_join rfl]

/-- A name behind the path of a directory leads to the entry of that name, or to its gap, if it is that of no
link. -/
theorem resolve_child (h : fs.locate .target p = .ok loc) (hname : name.IsDown)
    (hlink : ∀ target, fs.find? (loc ++ [name]) ≠ some (.link target)) {place : Place}
    (hplace : fs.resolve .target (p.child name) = .ok place) :
    place = .entry (loc ++ [name]) ∨ place = .gap loc name := by
  obtain ⟨spot, hstart, hfollow⟩ := exists_of_bind_eq_ok (resolve_of_locate h)
  obtain ⟨spot', hstart', hplace⟩ := exists_of_bind_eq_ok hplace
  obtain ⟨tail, htail, hsteps, hchild⟩ := steps_child p hname
  obtain rfl := start_eq_of_child hstart hstart'
  rw [hsteps] at hfollow
  obtain ⟨jump, hgo⟩ := exists_follow_append [.down name] htail hfollow
  rw [hchild, hgo] at hplace
  obtain ⟨-, -, hcases⟩ := walk_down_eq_ok hplace
  rcases hcases with ⟨-, -, rfl⟩ | ⟨target, hfound, -⟩ | ⟨-, -, -, hdone⟩
  · exact Or.inr rfl
  · exact absurd hfound (hlink target)
  · rw [walk, if_pos rfl] at hdone
    exact Or.inl (Except.ok.inj hdone).symm

/-- What is found by a name behind the path of a directory is the entry of that name. -/
theorem locate_child (h : fs.locate .target p = .ok loc) (hname : name.IsDown)
    (hlink : ∀ target, fs.find? (loc ++ [name]) ≠ some (.link target))
    (he : fs.lookup .target (p.child name) = .ok e) :
    fs.locate .target (p.child name) = .ok (loc ++ [name]) := by
  obtain ⟨place, hplace, he⟩ := exists_of_bind_eq_ok he
  rcases resolve_child h hname hlink hplace with rfl | rfl
  · exact locate_of_resolve hplace
  · cases he

/-- A way that began in the tree does not end in a removed directory. -/
theorem follow_ne_removed {links : Nat} {steps : List Step} :
    fs.follow .target links ⟨loc, 0⟩ steps ≠ .ok .removed := by
  intro h
  obtain ⟨last, hleads, -⟩ := finds_of_follow h
  rcases hleads with heq | ⟨directory, name, heq, -⟩ <;> cases heq

/-- From a removed directory no name leads on. -/
theorem exists_error_of_removed {links : Nat} {s : Spot} {steps tail : List Step}
    (h : fs.follow .target links s (steps ++ tail) = .ok .removed) (name : Name) :
    ∃ fault, fs.follow .target links s (steps ++ [.down name]) = .error fault := by
  obtain ⟨loc, lost⟩ := s
  obtain ⟨jump, hjump⟩ := fs.exists_follow_eq .target links
  induction steps generalizing lost with
  | nil =>
    cases lost with
    | zero => exact absurd h follow_ne_removed
    | succ lost =>
      rw [hjump, List.nil_append, walk]
      exact ⟨.missing, rfl⟩
  | cons step steps ih =>
    cases lost with
    | zero => exact absurd h follow_ne_removed
    | succ lost =>
      simp only [hjump] at h ih ⊢
      cases step with
      | settle =>
        rw [List.cons_append, walk] at h ⊢
        exact ih (lost + 1) h
      | stay =>
        rw [List.cons_append, walk] at h ⊢
        exact ih (lost + 1) h
      | up =>
        rw [List.cons_append, walk] at h ⊢
        exact ih lost h
      | down other =>
        rw [List.cons_append, walk] at h
        obtain ⟨entries, -, hgo⟩ := exists_of_bind_eq_ok h
        simp only at hgo
        split at hgo
        · cases hgo
        · cases hgo

/-- A directory behind whose path something is found by a name has a location. -/
theorem exists_locate_of_child (hp : fs.isDirectory p = true) (hname : name.IsDown)
    (he : fs.lookup .target (p.child name) = .ok e) : ∃ loc, fs.locate .target p = .ok loc := by
  rw [isDirectory] at hp
  cases hlookup : fs.lookup .target p with
  | error fault =>
    rw [hlookup] at hp
    cases hp
  | ok top =>
    obtain ⟨place, hresolve, hplace⟩ := exists_of_bind_eq_ok hlookup
    cases place with
    | entry loc => exact ⟨loc, locate_of_resolve hresolve⟩
    | gap directory name => cases hplace
    | removed =>
      obtain ⟨spot, hstart, hfollow⟩ := exists_of_bind_eq_ok hresolve
      obtain ⟨found, hfound, -⟩ := exists_of_bind_eq_ok he
      obtain ⟨spot', hstart', hfound⟩ := exists_of_bind_eq_ok hfound
      obtain ⟨tail, -, hsteps, hchild⟩ := steps_child p hname
      obtain rfl := start_eq_of_child hstart hstart'
      rw [hsteps] at hfollow
      obtain ⟨fault, hfault⟩ := exists_error_of_removed hfollow name
      rw [hchild, hfault] at hfound
      cases hfound

end FileSystem

/-! ## What is scanned -/

namespace Loading

variable {fs fs' : FileSystem} {root dir : Path} {loc : Location} {order : EntryOrder}

/-- The paths that are listed when the directory at the root is loaded: that of the root, and those made for
the directories in a listing. -/
inductive Scans (fs : FileSystem) (root : Path) : Path → Prop
  | root : Scans fs root root
  | inside {dir : Path} {listed : List (Name × Entry.Kind)} {name : Name} (outer : Scans fs root dir)
      (answer : fs.list dir = .ok listed) (mem : (name, .directory) ∈ listed) :
      Scans fs root (dir.child name)

theorem mapM_congr {α β : Type} {m : Type → Type} [Monad m] [LawfulMonad m] {f g : α → m β} {xs : List α}
    (h : ∀ x ∈ xs, f x = g x) : xs.mapM f = xs.mapM g := by
  induction xs with
  | nil => rw [List.mapM_nil, List.mapM_nil]
  | cons x xs ih =>
    obtain ⟨hx, hxs⟩ := List.forall_mem_cons.mp h
    rw [List.mapM_cons, List.mapM_cons, hx, ih hxs]

/-- A listing is all that the loader learns of a directory. -/
theorem explore_congr (h : ∀ dir, Scans fs root dir → fs'.list dir = fs.list dir) (depth : Nat)
    (hdir : Scans fs root dir) (logical : LogicalPath) :
    explore fs' order depth dir logical = explore fs order depth dir logical := by
  induction depth generalizing dir logical with
  | zero => rw [explore, explore]
  | succ depth ih =>
    rw [explore, explore, h dir hdir]
    cases hlist : fs.list dir with
    | error fault => rfl
    | ok listed =>
      have hsame : ∀ p ∈ order.arrange listed,
          encounter (explore fs' order depth) dir logical p = encounter (explore fs order depth) dir logical p := by
        rintro ⟨name, kind⟩ hp
        rw [(order.arrange_perm listed).mem_iff] at hp
        rw [encounter, encounter]
        cases Utf8.decode? name with
        | none => rfl
        | some text =>
          by_cases hkind : kind = .directory
          · subst hkind
            simp only [ih (hdir.inside hlist hp)]
          · simp only [if_neg hkind]
      exact mapM_congr hsame

/-- The loader asks about no other directories than those that it scans. -/
theorem explored_congr (h : ∀ dir, Scans fs root dir → fs'.list dir = fs.list dir)
    (hroot : fs'.isDirectory root = fs.isDirectory root) (marker : Text) :
    explored fs' order marker root = explored fs order marker root := by
  rw [explored, explored, hroot, explore_congr h _ .root]

/-- What is scanned and found is in the directory that the root leads to. -/
theorem Scans.exists_locate (hfs : fs.Valid)
    (hroot : ∀ e, fs.lookup .target root = .ok e → fs.locate .target root = .ok loc)
    (hscans : Scans fs root dir) {e : Entry} (he : fs.lookup .target dir = .ok e) :
    ∃ names, fs.locate .target dir = .ok (loc ++ names) := by
  induction hscans generalizing e with
  | root => exact ⟨[], by rw [hroot e he, List.append_nil]⟩
  | @inside dir listed name _ answer mem ih =>
    obtain ⟨mode, entries, hlookup, -, rfl⟩ := FileSystem.exists_of_list answer
    obtain ⟨names, hlocate⟩ := ih hlookup
    have hvalid := hfs.lookup hlookup
    obtain ⟨⟨name', x⟩, hmem, heq⟩ := List.mem_map.mp mem
    obtain ⟨rfl, hkind⟩ := Prod.mk.inj heq
    have hthere : fs.find? (loc ++ names ++ [name']) = some x :=
      (FileSystem.find?_append_singleton (FileSystem.find?_of_locate hlocate hlookup) name').trans
        (Entry.lookup_of_mem hvalid.distinct hmem)
    refine ⟨names ++ [name'], ?_⟩
    rw [← List.append_assoc]
    refine FileSystem.locate_child hlocate (hvalid.ordinary hmem).isDown (fun target hlink => ?_) he
    -- it was listed as a directory
    obtain rfl := Option.some.inj (hthere.symm.trans hlink)
    cases hkind

end Loading

/-! ## What is emitted -/

namespace Loading.Mirrors

variable {order : EntryOrder} {n m : Node} {e : Entry}

/-- Folders lead to folders as directories lead to directories. -/
theorem exists_of_reaches (h : Mirrors order n e) (hvalid : e.Valid) (hreaches : n.Reaches m) :
    ∃ names x, e.find? (Entry.locationOf names) = some x ∧ Mirrors order m x ∧
      m.logical = ⟨n.logical.marker, n.logical.segments ++ names⟩ := by
  induction hreaches generalizing e with
  | refl n => exact ⟨[], e, by simp, h, by rw [List.append_nil]⟩
  | @down n c m hc _ _ ih =>
    obtain ⟨⟨name, y⟩, hmem, hchild⟩ := h.exists_childOf hc
    cases e with
    | file mode contents => cases hmem
    | link target => cases hmem
    | directory mode entries =>
      obtain ⟨names, x, hfind, hmirrors, hlogical⟩ := ih hchild.mirrors (hvalid.inside hmem)
      refine ⟨c.name :: names, x, ?_, hmirrors, ?_⟩
      · rw [Entry.locationOf_cons, hchild.name_eq, Entry.find?_directory_cons,
          Entry.lookup_of_mem hvalid.distinct hmem]
        exact hfind
      · rw [hlogical, hchild.logical_eq, LogicalPath.join, List.append_assoc, List.singleton_append]

end Loading.Mirrors

namespace Node

theorem Reaches.kind_eq {n m : Node} (h : n.Reaches m) (hn : n.kind = .folder) : m.kind = .folder := by
  induction h with
  | refl n => exact hn
  | down _ hkind _ ih => exact ih hkind

variable {conventions : Conventions} {style : PathStyle} {above : Nat} {ns : List Node} {r : Route}

/-- Each route is that of a folder. -/
theorem exists_route_of_mem (h : r ∈ (derivationOf conventions style above ns).routes) :
    ∃ n ∈ ns, n.kind = .folder ∧ r = n.route conventions style above := by
  induction ns with
  | nil =>
    rw [derivationOf_nil] at h
    cases h
  | cons n ns ih =>
    have hrest (h : r ∈ (derivationOf conventions style above ns).routes) :
        ∃ m ∈ n :: ns, m.kind = .folder ∧ r = m.route conventions style above := by
      obtain ⟨m, hm, hroute⟩ := ih h
      exact ⟨m, List.mem_cons_of_mem n hm, hroute⟩
    cases hkind : n.kind with
    | file =>
      rw [derivationOf_cons_of_file conventions style above hkind] at h
      exact hrest h
    | folder =>
      rw [derivationOf_cons_of_folder conventions style above hkind, routes_derivation_eq] at h
      rcases List.mem_append.mp h with h | h
      · split at h
        · exact ⟨n, List.mem_cons_self, hkind, List.mem_singleton.mp h⟩
        · cases h
      · exact hrest h

/-- Each route of the table, at whatever depth, is that of a folder that one gets to. -/
theorem exists_route_of_occurs {rs : List Route} (h : Route.Occurs rs r) :
    ∀ above ns, rs = (derivationOf conventions style above ns).routes →
      ∃ n ∈ ns, n.kind = .folder ∧ ∃ m, n.Reaches m ∧ ∃ depth, r = m.route conventions style depth := by
  induction h with
  | here hr =>
    rintro above ns rfl
    obtain ⟨n, hn, hkind, rfl⟩ := exists_route_of_mem hr
    exact ⟨n, hn, hkind, n, .refl n, above, rfl⟩
  | inside hs _ ih =>
    rintro above ns rfl
    obtain ⟨n, hn, hkind, rfl⟩ := exists_route_of_mem hs
    obtain ⟨c, hc, hkind', m, hreaches, hroute⟩ := ih n.logical.depth n.children rfl
    exact ⟨n, hn, hkind, m, .down hc hkind' hreaches, hroute⟩

end Node

/-! ## Confinement -/

/-- A compilation looks at nothing but the directory at a location. -/
structure ConfinedTo (loc : Location) (settings : Settings) (fs : FileSystem) (root : Path) : Prop where
  /-- What is listed is that directory or one below it. -/
  scanned : ∀ dir listed, Loading.Scans fs root dir → fs.list dir = .ok listed →
    ∃ names, fs.locate .target dir = .ok (loc ++ names)
  /-- A loader that asks the system asks about nothing else. -/
  asked : ∀ fs' : FileSystem, fs'.isDirectory root = fs.isDirectory root →
    (∀ dir, Loading.Scans fs root dir → fs'.list dir = fs.list dir) →
      Loading.explored fs' settings.order settings.conventions.logicalRoot root =
        Loading.explored fs settings.order settings.conventions.logicalRoot root
  /-- The folder of a route is a directory below that one, and the route has a page if there is one in it. -/
  emitted : ∀ c r, compile settings fs root = .ok c → Route.Occurs c.routes r →
    ∃ names e, names ≠ [] ∧ r.source = settings.conventions.logicalRoot ++ names.flatMap ('/' :: ·) ∧
      fs.find? (loc ++ Entry.locationOf names) = some e ∧ e.isDirectory = true ∧
      e.holdsPage settings.conventions = r.hasPage

/-- A compilation is confined to the directory that the root leads to, if it leads to any. -/
theorem confinedTo_of_locate {fs : FileSystem} (hfs : fs.Valid) {root : Path} {loc : Location}
    (hroot : ∀ e, fs.lookup .target root = .ok e → fs.locate .target root = .ok loc) (settings : Settings) :
    ConfinedTo loc settings fs root where
  scanned dir listed hscans hlist := by
    obtain ⟨mode, entries, hlookup, -, -⟩ := FileSystem.exists_of_list hlist
    exact hscans.exists_locate hfs hroot hlookup
  asked fs' hdirectory hlists := Loading.explored_congr hlists hdirectory settings.conventions.logicalRoot
  emitted c r hcompile hoccurs := by
    obtain ⟨ns, hload, rfl⟩ := exists_load_of_compile hcompile
    obtain ⟨mode, entries, hlookup, hcollect⟩ := exists_of_load hload
    have hvalid := hfs.lookup hlookup
    have htop : Loading.Mirrors settings.order (Node.top root settings.conventions.logicalRoot ns)
        (.directory mode entries) :=
      ⟨by simp [Node.top, Entry.isDirectory, Entry.kind],
        (Loading.collect_nodes_eq_ok_iff.mp hcollect).imp fun _ _ hp => ⟨mode.search, hp⟩⟩
    obtain ⟨n, hn, hkind, m, hreaches, depth, rfl⟩ := Node.exists_route_of_occurs hoccurs 0 ns rfl
    -- the first step is kept apart: it is what makes the names some
    obtain ⟨⟨name, e⟩, hmem, hchild⟩ := htop.exists_childOf hn
    obtain ⟨names, x, hfind, hmirrors, hlogical⟩ :=
      hchild.mirrors.exists_of_reaches (hvalid.inside hmem) hreaches
    have hthere : fs.find? (loc ++ Entry.locationOf (n.name :: names)) = some x := by
      rw [FileSystem.find?, Entry.find?_append_of_eq_some (FileSystem.find?_of_locate (hroot _ hlookup) hlookup),
        Entry.locationOf_cons, hchild.name_eq, Entry.find?_directory_cons,
        Entry.lookup_of_mem hvalid.distinct hmem]
      exact hfind
    refine ⟨n.name :: names, x, List.cons_ne_nil _ _, ?_, hthere, ?_, ?_⟩
    · rw [Node.route, hlogical, hchild.logical_eq]
      rfl
    · exact hmirrors.folder_iff.mp (hreaches.kind_eq hkind)
    · exact (Entry.anyPage_of_nodes settings.conventions hmirrors.children).symm

/-! ## The routes root -/

namespace Migration

variable {t : Text} {conventions : Conventions}

/-- The project whose routes are compiled. -/
def project (a : Arguments Path) : Path :=
  if a.isDryRun && !a.skipsCopy then a.source else a.target

/-- The path of the routes root is that of the project with one segment behind it. -/
theorem routesRoot_eq_child (h : conventions.complaint? = none) (a : Arguments Path) :
    routesRoot a conventions = (project a).child (Utf8.encode conventions.appDir) := by
  rw [routesRoot, Path.ofText_of_slash_notMem (Conventions.appDir_of_complaint?_eq_none h).2]
  rfl

/-- One segment is one step, and it leads down unless it consists of one dot or two. -/
theorem exists_step_of_appDir (h : conventions.complaint? = none) :
    ∃ step, Step.ofSegment? (Utf8.encode conventions.appDir) = some step ∧
      (step = .stay ↔ conventions.appDir = ".".toList) ∧ (step = .up ↔ conventions.appDir = "..".toList) := by
  have hne := (Conventions.appDir_of_complaint?_eq_none h).1
  by_cases hdot : conventions.appDir = ".".toList
  · exact ⟨.stay, by rw [hdot]; decide, by simp [hdot], by rw [hdot]; decide⟩
  by_cases hdots : conventions.appDir = "..".toList
  · exact ⟨.up, by rw [hdots]; decide, by rw [hdots]; decide, by simp [hdots]⟩
  · refine ⟨_, Conventions.isDown_encode hne hdot hdots, ?_, ?_⟩
    · exact iff_of_false (by simp) hdot
    · exact iff_of_false (by simp) hdots

/-- **What a compilation can look at.**  The path of the routes root is that of the project with one segment
behind it.  This segment is one step; it stays in the project if `app_dir` is one dot, and leaves it if these
are two.  Otherwise the routes root is an entry of the project, and is found only in a project that has a
location.  If the entry is no link, it is what the path leads to, and a compilation is confined to it: what is
scanned, and the folders whose pages are emitted, are in a proper subdirectory of the project. -/
theorem routesRoot_confined (hread : Conventions.read t = .ok conventions) (a : Arguments Path) :
    routesRoot a conventions = (project a).child (Utf8.encode conventions.appDir) ∧
    (∃ step, Step.ofSegment? (Utf8.encode conventions.appDir) = some step ∧
      (step = .stay ↔ conventions.appDir = ".".toList) ∧ (step = .up ↔ conventions.appDir = "..".toList)) ∧
    (conventions.appDir ≠ ".".toList → conventions.appDir ≠ "..".toList → ∀ fs : FileSystem, fs.Valid →
      fs.isDirectory (project a) = true →
      (∀ e, fs.lookup .target (routesRoot a conventions) = .ok e →
        ∃ loc, fs.locate .target (project a) = .ok loc) ∧
      ∀ loc, fs.locate .target (project a) = .ok loc →
        (∀ target, fs.find? (loc ++ [Utf8.encode conventions.appDir]) ≠ some (.link target)) →
        (∀ e, fs.lookup .target (routesRoot a conventions) = .ok e →
          fs.locate .target (routesRoot a conventions) = .ok (loc ++ [Utf8.encode conventions.appDir])) ∧
        ∀ order style, ConfinedTo (loc ++ [Utf8.encode conventions.appDir]) ⟨conventions, order, style⟩ fs
          (routesRoot a conventions)) := by
  have husable := Conventions.complaint?_of_read hread
  have hchild := routesRoot_eq_child husable a
  refine ⟨hchild, exists_step_of_appDir husable, fun hdot hdots fs hfs hproject => ?_⟩
  have hdown : Name.IsDown (Utf8.encode conventions.appDir) :=
    Conventions.isDown_encode (Conventions.appDir_of_complaint?_eq_none husable).1 hdot hdots
  refine ⟨fun e he => ?_, fun loc hproject hlink => ?_⟩
  · rw [hchild] at he
    exact FileSystem.exists_locate_of_child hproject hdown he
  · have hroot : ∀ e, fs.lookup .target (routesRoot a conventions) = .ok e →
        fs.locate .target (routesRoot a conventions) = .ok (loc ++ [Utf8.encode conventions.appDir]) := by
      rw [hchild]
      exact fun e he => FileSystem.locate_child hproject hdown hlink he
    exact ⟨hroot, fun order style => confinedTo_of_locate hfs hroot ⟨conventions, order, style⟩⟩

/-- A project and a directory beside it, which holds a page. -/
def neighbours : FileSystem where
  root := .directory .full [
    (Utf8.encode "project", .directory .full [
      (Utf8.encode "pages", .directory .full [
        (Utf8.encode "blog", .directory .full [(Utf8.encode "page.tsx", .file .plain [])])])]),
    (Utf8.encode "other", .directory .full [(Utf8.encode "page.tsx", .file .plain [])])]
  current := .ofLocation []

/-- Arguments for a look at the project. -/
def previewArguments : Arguments Path where
  source := .ofText "project"
  target := .ofText "new"
  order := .byName
  style := .relative
  conventions? := none
  skipsCopy := false
  isDryRun := true
  dump? := none
  isVerbose := false

theorem valid_neighbours : neighbours.Valid := ⟨by decide, _, _, rfl⟩

theorem locate_project_neighbours :
    neighbours.locate .target (project previewArguments) = .ok [Utf8.encode "project"] := by cbv

theorem read_of_toOption (h : (Conventions.read t).toOption = some conventions) :
    Conventions.read t = .ok conventions := by
  cases hread : Conventions.read t with
  | error fault =>
    rw [hread] at h
    cases h
  | ok found =>
    rw [hread] at h
    rw [Option.some.inj h]

/-- In the sample, the routes root is the directory of that name in the project, and all that is scanned and
emitted is in it. -/
theorem routesRoot_confined_neighbours :
    ∃ conventions, Conventions.read "app_dir: pages\n".toList = .ok conventions ∧
      neighbours.Valid ∧ neighbours.isDirectory (project previewArguments) = true ∧
      neighbours.isDirectory (routesRoot previewArguments conventions) = true ∧
      neighbours.locate .target (routesRoot previewArguments conventions) =
        .ok [Utf8.encode "project", Utf8.encode "pages"] ∧
      ∀ order style, ConfinedTo [Utf8.encode "project", Utf8.encode "pages"] ⟨conventions, order, style⟩
        neighbours (routesRoot previewArguments conventions) := by
  have hread : Conventions.read "app_dir: pages\n".toList = .ok { Conventions.standard with appDir := "pages" } :=
    read_of_toOption (by decide +kernel)
  have hproject : neighbours.isDirectory (project previewArguments) = true := by cbv
  have hlookup : (neighbours.lookup .target (routesRoot previewArguments
      { Conventions.standard with appDir := "pages" })).map Entry.isDirectory = .ok true := by cbv
  obtain ⟨e, he, hdirectory⟩ : ∃ e, neighbours.lookup .target (routesRoot previewArguments
      { Conventions.standard with appDir := "pages" }) = .ok e ∧ e.isDirectory = true := by
    cases h : neighbours.lookup .target (routesRoot previewArguments
      { Conventions.standard with appDir := "pages" }) with
    | error fault =>
      rw [h] at hlookup
      cases hlookup
    | ok e =>
      rw [h] at hlookup
      exact ⟨e, rfl, Except.ok.inj hlookup⟩
  obtain ⟨-, -, hconfined⟩ := routesRoot_confined hread previewArguments
  obtain ⟨-, hinside⟩ := hconfined (by decide) (by decide) neighbours valid_neighbours hproject
  have hthere : (neighbours.find? [Utf8.encode "project", Utf8.encode "pages"]).map Entry.isDirectory =
      some true := by cbv
  obtain ⟨hroot, hall⟩ := hinside _ locate_project_neighbours fun target hlink => by
    rw [show neighbours.find? [Utf8.encode "project", Utf8.encode "pages"] = _ from hlink] at hthere
    cases hthere
  refine ⟨_, hread, valid_neighbours, hproject, ?_, hroot e he, hall⟩
  rw [FileSystem.isDirectory, he]
  exact hdirectory

/-- **The directory above.**  Conventions whose `app_dir` is two dots are accepted.  Then what is compiled is
beside the project: a directory there is scanned, and its page is in the table. -/
theorem routesRoot_escapes :
    ∃ conventions, Conventions.read "app_dir: ..\n".toList = .ok conventions ∧
      neighbours.locate .target (project previewArguments) = .ok [Utf8.encode "project"] ∧
      neighbours.locate .target (routesRoot previewArguments conventions) = .ok [] ∧
      Loading.Scans neighbours (routesRoot previewArguments conventions) (Path.ofText "project/../other") ∧
      neighbours.locate .target (Path.ofText "project/../other") = .ok [Utf8.encode "other"] ∧
      ∃ c r, compile ⟨conventions, .asEnumerated, .relative⟩ neighbours
        (routesRoot previewArguments conventions) = .ok c ∧
          r ∈ c.routes ∧ r.hasPage = true ∧ r.source = "./app/other".toList := by
  have hlist : neighbours.list (Path.ofText "project/..") =
      .ok [(Utf8.encode "project", .directory), (Utf8.encode "other", .directory)] := by cbv
  have hscans : Loading.Scans neighbours (Path.ofText "project/..")
      ((Path.ofText "project/..").child (Utf8.encode "other")) := .inside .root hlist (by decide)
  have hcompile : ((compile ⟨{ Conventions.standard with appDir := ".." }, .asEnumerated, .relative⟩ neighbours
      (Path.ofText "project/..")).toOption.any fun c =>
        c.routes.any fun r => r.hasPage && r.source = "./app/other".toList) = true := by decide +kernel
  refine ⟨{ Conventions.standard with appDir := ".." }, read_of_toOption (by decide +kernel),
    locate_project_neighbours, by cbv, hscans, by cbv, ?_⟩
  obtain ⟨c, hc, hroutes⟩ := exists_of_toOption_any hcompile
  obtain ⟨r, hr, h⟩ := List.any_eq_true.mp hroutes
  obtain ⟨hpage, hsource⟩ := Bool.and_eq_true_iff.mp h
  exact ⟨c, r, hc, hr, hpage, of_decide_eq_true hsource⟩

end Migration

end FileRoutes
