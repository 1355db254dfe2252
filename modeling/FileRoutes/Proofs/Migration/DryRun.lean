import FileRoutes.Proofs.Migration.FinalState
import FileRoutes.Proofs.Route.Placement

/-!
# The dry run

A dry run compiles the routes of the source where it is, and a real one those of the copy.  If the
source holds no links, and the target is not there yet and outside the source, then the copy has the
shape of the source, so both compile to the same table.  What the dry run prints is therefore what the
real one leaves in the routes file (`run_previews`).

## What the copy shows

A dry run could still fail where the real one succeeds: the system might refuse to list a directory of
the source by the path that the compilation uses.  If the routes root has a name, then the copy has
listed each directory by this very path.  If the routes root is a dot, then the paths have a dot more
than those that the copy used, and the source itself has to be searched for it (`ListedByDot`).  A
source whose directories have paths just short enough has no preview, nor has one that may not be searched
(`run_without_preview`).
-/

namespace FileRoutes

open FileSystem (Treads)

/-! ## The shape of a copy -/

theorem FileSystem.map_isDirectory_view (fs : FileSystem) (loc : Location) :
    (fs.view loc).map Entry.isDirectory = (fs.find? loc).map Entry.isDirectory := by
  rw [FileSystem.view, Option.map_map]
  congr 1
  funext e
  exact Entry.isDirectory_bare e

/-- Where nothing was, the overlay has the directories of the source. -/
theorem Entry.map_isDirectory_overlay_none (new : Option Entry) :
    (Entry.overlay new none).map Entry.isDirectory = new.map Entry.isDirectory := by
  cases new with
  | none => rfl
  | some e => cases e <;> rfl

namespace Copy.Completed

variable {fs fs' : FileSystem} {source target : Path} {origin goal : Location} {totals : CopyTotals}

/-- A place of the target where nothing was has a directory if the source has one there. -/
theorem map_isDirectory (h : Completed source target origin goal fs fs' totals)
    (hplaces : ∀ l, fs.Passes target l → l <+: goal) {below : List Name}
    (hmissing : fs.find? (goal ++ below) = none) : (fs'.find? (goal ++ below)).map Entry.isDirectory =
      (fs.find? (origin ++ below)).map Entry.isDirectory := by
  have hoverlaid := (h.overlaid hplaces below).1
  rw [Overlaid, FileSystem.view_eq_none_iff.mpr hmissing] at hoverlaid
  rw [← FileSystem.map_isDirectory_view, hoverlaid, Entry.map_isDirectory_overlay_none,
    FileSystem.map_isDirectory_view]

/-- A copy is as valid as the source, if the target has ordinary names. -/
theorem valid (h : Completed source target origin goal fs fs' totals)
    (hplaces : ∀ l, fs.Passes target l → l <+: goal) (hgoal : ∀ name ∈ goal, name.Ordinary)
    (hvalid : fs.root.Valid) : fs'.root.Valid := by
  obtain ⟨between, hmakes, -, -, hcopied⟩ := h.between
  exact hcopied.valid (hmakes.valid (fun l hl name hname => hgoal name ((hplaces l hl).subset hname)) hvalid)

end Copy.Completed

namespace Migration

/-- A directory without links is migrated by name to a target that is not there yet. -/
structure Afresh (a : Arguments Path) (fs : FileSystem) (origin goal : Location) : Prop where
  valid : fs.Valid
  copies : a.skipsCopy = false
  writes : a.isDryRun = false
  noDump : a.dump? = none
  byName : a.order = .byName
  directory : ∃ mode entries, fs.lookup .itself a.source = .ok (.directory mode entries)
  origin_eq : fs.canonical a.source = .ok origin
  goal_eq : Copy.targetLocation fs a.target = .ok goal
  noLink : ∀ below link, fs.find? (origin ++ below) ≠ some (.link link)
  missing : fs.find? goal = none
  outside : ¬ origin <+: goal
  targetCut : a.target.Cut
  targetFree : fs.LinkFree a.target
  targetDots : Path.dotDot ∉ a.target.segments

namespace Afresh

variable {a : Arguments Path} {fs fs' : FileSystem} {origin goal : Location} {totals : CopyTotals}

theorem spelled_eq (h : Afresh a fs origin goal) : goal = fs.spelled a.target :=
  (Copy.targetLocation_eq_ok h.valid h.targetFree h.goal_eq).2

/-- Only what is above the target is passed on its way. -/
theorem prefix_of_passes (h : Afresh a fs origin goal) (l : Location)
    (hl : fs.Passes a.target l) : l <+: goal := by
  rw [h.spelled_eq]
  exact FileSystem.prefix_of_passes h.targetFree (Path.up_notMem_moves h.targetDots) hl

/-- The source is found by its path. -/
theorem source (h : Afresh a fs origin goal) : fs.Treads a.source origin ∧
    a.source.Askable ∧ fs.HasDirectory origin := by
  obtain ⟨mode, entries, hlookup⟩ := h.directory
  obtain ⟨htreads, hfind⟩ := FileSystem.treads_of_canonical h.valid h.origin_eq hlookup
  exact ⟨htreads, FileSystem.askable_of_lookup hlookup, mode, entries, hfind⟩

/-- Nothing is below the target. -/
theorem find?_goal (h : Afresh a fs origin goal) (below : List Name) :
    fs.find? (goal ++ below) = none := by
  have hmissing := h.missing
  rw [FileSystem.find?] at hmissing
  rw [FileSystem.find?, Entry.find?_append, hmissing]
  rfl

/-- The names on the way to the target are ordinary, if the system is asked for what is in it. -/
theorem ordinary (h : Afresh a fs origin goal) {q : Path} (hq : q.isAbsolute = false)
    (hask : (a.target.join q).Askable) : ∀ name ∈ goal, name.Ordinary := by
  rw [h.spelled_eq]
  exact h.valid.ordinary_spelled h.targetCut (Path.zero_notMem_of_join hq hask.zero_notMem)

end Afresh

/-! ## The routes root -/

/-- The source is listed by paths with a dot behind that of the source. -/
structure ListedByDot (fs : FileSystem) (source : Path) (origin : Location) : Prop where
  isOpen : fs.Open origin
  short : ∀ names, fs.HasDirectory (origin ++ names) →
    (Copy.entryPath (source.join (Path.ofText ".")) names).bytes.length < FileSystem.pathLimit

/-- The routes root is at the same place of the source and of the copy, and the directories of the source
are listed from there. -/
structure Rooted (fs fs' : FileSystem) (source target : Path) (origin goal : Location) (app : Text)
    (place : List Name) : Prop where
  relative : (Path.ofText app).isAbsolute = false
  found : ∀ mode entries, fs.find? (origin ++ place) = some (.directory mode entries) →
    fs.lookup .target (source.join (Path.ofText app)) = .ok (.directory mode entries)
  short : ∀ names, fs.HasDirectory (origin ++ (place ++ names)) →
    (Copy.entryPath (source.join (Path.ofText app)) names).bytes.length < FileSystem.pathLimit
  madeAt : fs'.MadeAt (target.join (Path.ofText app)) (goal ++ place)

section Root

variable {fs fs' : FileSystem} {source target : Path} {origin goal : Location} {totals : CopyTotals}
  {app : Text}

/-- A dot is the source itself. -/
theorem Rooted.dot (htreads : fs.Treads source origin) (hask : source.Askable)
    (hdirectory : fs.HasDirectory origin) (hlisted : ListedByDot fs source origin)
    (hgoal : fs'.MadeAt target goal) :
    Rooted fs fs' source target origin goal "." [] where
  relative := rfl
  found mode entries hfind := by
    rw [List.append_nil] at hfind
    have hmoves : (source.join (.ofText ".")).moves = source.moves ++ [.stay] := Path.moves_join rfl
    have habsolute : (source.join (.ofText ".")).isAbsolute = source.isAbsolute := Path.isAbsolute_join rfl
    have htrail : fs.Treads (source.join (.ofText ".")) origin := by
      refine ⟨htreads.anchored.of_isAbsolute_eq habsolute, ?_⟩
      rw [FileSystem.beginning_of_isAbsolute_eq habsolute, hmoves]
      exact htreads.trail.append (.stay hlisted.isOpen (.done 0 origin))
    refine htrail.lookup_directory ⟨fun s hs => ?_, fun hempty => ?_, ?_⟩ hfind
    · rcases Path.mem_segments_join rfl hs with hs | hs
      · exact hask.zero_notMem s hs
      · obtain rfl := List.mem_singleton.mp hs
        decide
    · cases congrArg Path.last hempty
    · exact hlisted.short [] (by rwa [List.append_nil])
  short names hnames := hlisted.short names hnames
  madeAt := by
    have habsolute : (target.join (.ofText ".")).isAbsolute = target.isAbsolute := Path.isAbsolute_join rfl
    have hmoves : (target.join (.ofText ".")).moves = target.moves ++ [.stay] := Path.moves_join rfl
    rw [FileSystem.MadeAt, FileSystem.beginning_of_isAbsolute_eq habsolute, hmoves, List.append_nil]
    exact FileSystem.Way.append hgoal (.stay trivial (.done goal))

/-- A name is that of an entry of the source. -/
theorem Rooted.down (hslash : '/' ∉ app) (hdown : Name.IsDown (Utf8.encode app))
    (htreads : fs.Treads source origin)
    (hcompleted : Copy.Completed source target origin goal fs fs' totals)
    (hlink : ∀ link, fs'.find? (goal ++ [Utf8.encode app]) ≠ some (.link link)) :
    Rooted fs fs' source target origin goal app [Utf8.encode app] := by
  have hnames : ∀ name ∈ [Utf8.encode app], Name.IsDown name := by simpa using hdown
  have hroot : source.join (Path.ofText app) = Copy.entryPath source [Utf8.encode app] := by
    rw [Path.ofText_of_slash_notMem hslash]
    rfl
  refine ⟨?_, fun mode entries hfind => ?_, fun names hdirectory => ?_, ?_⟩
  · rw [Path.ofText_of_slash_notMem hslash]
    exact Path.isAbsolute_ofNames hnames
  · have hlistable := hcompleted.listable _ ⟨mode, entries, hfind⟩
    have hgoesOn := Copy.goesOn_entryPath source hnames
    rw [hroot]
    refine (show fs.Treads (Copy.entryPath source [Utf8.encode app]) (origin ++ [Utf8.encode app]) from
      ⟨?_, ?_⟩).lookup_directory hlistable.askable hfind
    · exact htreads.anchored.of_isAbsolute_eq hgoesOn.isAbsolute_eq
    · rw [FileSystem.beginning_of_isAbsolute_eq hgoesOn.isAbsolute_eq, hgoesOn.moves_eq]
      have hopen := hlistable.reachable [] _ rfl
      rw [List.append_nil] at hopen
      exact htreads.trail.append (.down hopen (hlistable.short _ (by simp)) hfind
        (fun link heq => by cases heq) (.done 0 _))
  · rw [hroot, Copy.entryPath, Copy.entryPath, ← List.foldl_append]
    exact (hcompleted.listable _ hdirectory).askable.short
  · rw [Path.ofText_of_slash_notMem hslash]
    exact hcompleted.stands.madeAt.goesOn (.join target hnames) (.down trivial hlink (.done _))

end Root

section Compile

variable {a : Arguments Path} {fs fs' : FileSystem} {origin goal : Location} {totals : CopyTotals}

/-- The routes root has a place in the source. -/
theorem Afresh.exists_rooted (h : Afresh a fs origin goal) {conventions : Conventions}
    (hcompleted : Copy.Completed a.source a.target origin goal fs fs' totals)
    (hcomplaint : conventions.complaint? = none) (hdots : conventions.appDir ≠ "..".toList)
    (hdot : conventions.appDir = ".".toList → ListedByDot fs a.source origin) :
    ∃ place, Rooted fs fs' a.source a.target origin goal
      conventions.appDir place := by
  obtain ⟨htreads, hask, hdirectory⟩ := h.source
  obtain ⟨hne, hslash⟩ := Conventions.appDir_of_complaint?_eq_none hcomplaint
  by_cases happ : conventions.appDir = ".".toList
  · rw [happ]
    exact ⟨[], .dot htreads hask hdirectory (hdot happ) hcompleted.stands.madeAt⟩
  · refine ⟨_, .down hslash (Conventions.isDown_encode hne happ hdots) htreads hcompleted fun link hlink => ?_⟩
    rcases hcompleted.link_cases hlink with hlink | hlink
    · exact h.noLink _ link hlink
    · rw [h.find?_goal] at hlink
      cases hlink

/-- The routes root of the source has the table of the one of the copy. -/
theorem Afresh.compile_eq_ok (h : Afresh a fs origin goal) {app : Text} {place : List Name}
    (hcompleted : Copy.Completed a.source a.target origin goal fs fs' totals)
    (hrooted : Rooted fs fs' a.source a.target origin goal app place)
    {settings : Settings} {c' : Compilation} (horder : settings.order = .byName)
    (hcompile : compile settings fs' (a.target.join (Path.ofText app)) = .ok c') :
    ∃ c, compile settings fs (a.source.join (Path.ofText app)) = .ok c ∧
      c.routes = c'.routes ∧ c.fragment = c'.fragment := by
  obtain ⟨mode', entries', hlookup'⟩ := exists_lookup_of_compile hcompile
  -- the routes root of the copy is found at its place
  obtain ⟨loc, htreads', hfind'⟩ := FileSystem.treads_of_lookup
    (hcompleted.stands.anchored.of_isAbsolute_eq (Path.isAbsolute_join hrooted.relative)) hlookup'
  obtain rfl := htreads'.reaches.eq hrooted.madeAt
  have hshape (below : List Name) :=
    hcompleted.map_isDirectory h.prefix_of_passes (h.find?_goal (place ++ below))
  have hhere := hshape []
  rw [List.append_nil, hfind', Option.map_some] at hhere
  obtain ⟨e, hfind, he⟩ := Option.map_eq_some_iff.mp hhere.symm
  obtain ⟨mode, entries, rfl⟩ := Entry.isDirectory_iff.mp he
  have hbelow (names : List Name) :
      (Entry.directory mode entries).find? names = fs.find? (origin ++ (place ++ names)) := by
    rw [← List.append_assoc, FileSystem.find?, Entry.find?_append_of_eq_some hfind]
  have hvalid' := hcompleted.valid h.prefix_of_passes
    (h.ordinary hrooted.relative (FileSystem.askable_of_lookup hlookup')) h.valid.tree
  refine compile_of_sameShape horder (hrooted.found mode entries hfind) ?_ hlookup' (fun names => ?_)
    (h.valid.tree.find? hfind) (hvalid'.find? hfind') ?_ hcompile
  · exact (hcompleted.listable _ ⟨mode, entries, hfind⟩).readable mode entries hfind
  · rw [hbelow, ← hshape, ← List.append_assoc, FileSystem.find?, Entry.find?_append_of_eq_some hfind']
  · intro init name m es m' es' hdirectory habove
    rw [hbelow] at hdirectory habove
    have hlistable := hcompleted.listable _ ⟨m, es, hdirectory⟩
    refine ⟨hrooted.short _ ⟨m, es, hdirectory⟩, hlistable.readable m es hdirectory, ?_⟩
    obtain ⟨m'', es'', hsearch, hopen⟩ := hlistable.reachable (place ++ init) name (by simp)
    rw [habove] at hopen
    obtain ⟨rfl, rfl⟩ := Entry.directory.inj (Option.some.inj hopen)
    exact hsearch

end Compile

/-! ## The preview -/

section Run

variable {a : Arguments Path} {origin goal : Location} {s s' : Session}

/-- A copy that succeeds is complete. -/
theorem Afresh.completed (h : Afresh a s.fs origin goal) {totals : CopyTotals}
    (hcopy : copyTree a.source a.target s = (.ok totals, s')) :
    Copy.Completed a.source a.target origin goal s.fs s'.fs totals := by
  obtain ⟨htreads, -, hdirectory⟩ := h.source
  have hapart : ¬ goal <+: origin := fun hprefix =>
    FileSystem.not_hasDirectory_of_none h.missing (hdirectory.above hprefix)
  have hharmless : Copy.Harmless s.fs a.target origin := by
    have hspelled := h.spelled_eq
    refine .of_apart h.targetFree (Path.up_notMem_moves h.targetDots) (fun below link hlink => ?_)
      (hspelled ▸ h.outside) (hspelled ▸ hapart)
    rw [← hspelled, h.find?_goal] at hlink
    cases hlink
  obtain ⟨-, goal', hcompleted⟩ := (Copy.copyTree_ends h.valid (fun _ => htreads.reaches.madeAt) hdirectory
    fun _ => hharmless).ok_of_run hcopy
  obtain rfl : goal' = goal := by rw [hcompleted.madeAt.eq h.targetFree.madeAt, h.spelled_eq]
  exact hcompleted

/-- A dry run succeeds if the source can be compiled. -/
theorem dry_run_eq_ok {conventions : Conventions} {c : Compilation} {t : Session}
    (hcopies : a.skipsCopy = false) (hdump : a.dump? = none)
    (hconventions : Migration.conventions a s = (.ok conventions, t))
    (hcompile : compile ⟨conventions, a.order, a.style⟩ s.fs
      (a.source.join (Path.ofText conventions.appDir)) = .ok c) :
    ∃ u, run { a with isDryRun := true } s = (.ok (), u) ∧ u.fs = s.fs ∧
      u.printed = s.printed ++ GeneratedFile.routesModule a.style c.fragment ++ ['\n'] := by
  have hconventions' : Migration.conventions { a with isDryRun := true } s = (.ok conventions, t) :=
    hconventions
  obtain ⟨hfs, hprinted⟩ := (quiet_conventions a).of_run hconventions
  obtain ⟨t', hcopy⟩ : ∃ t', copy { a with isDryRun := true } t = (.ok (), t') := by
    rw [copy, hcopies]
    exact ⟨_, rfl⟩
  obtain ⟨hfs', hprinted'⟩ := (quiet_copy rfl).of_run hcopy
  have hroot : routesRoot { a with isDryRun := true } conventions =
      a.source.join (Path.ofText conventions.appDir) := by
    rw [routesRoot, hcopies]
    rfl
  rw [← hfs, ← hfs', ← hroot] at hcompile
  obtain ⟨t'', hcompiled⟩ := compileRoutes_eq_ok hcompile
  obtain ⟨hfs'', hprinted''⟩ := (quiet_compileRoutes _ _).of_run hcompiled
  have hdump' : dump { a with isDryRun := true } c.routes t'' = (.ok (), t'') := by
    rw [dump, hdump]
    rfl
  have hgenerate := generate_dry_run (a := { a with isDryRun := true }) rfl c t''
  rw [hprinted'', hprinted', hprinted] at hgenerate
  have hrun : run { a with isDryRun := true } s = generate { a with isDryRun := true } c t'' := by
    rw [run, bind_run_of_ok hconventions', bind_run_of_ok hcopy, bind_run_of_ok hcompiled,
      bind_run_of_ok hdump']
  exact ⟨_, hrun.trans hgenerate, (hfs''.trans hfs').trans hfs, rfl⟩

/-- A dry run shows what a migration leaves. -/
structure Previewed (a : Arguments Path) (goal : Location) (s s' : Session) : Prop where
  /-- The dry run leaves the file system as it is, and prints the text of the routes file. -/
  printed : ∃ t text mode, run { a with isDryRun := true } s = (.ok (), t) ∧ t.fs = s.fs ∧
    s'.fs.find? (goal ++ [Utf8.encode "routes.tsx"]) = some (.file mode (Utf8.encode text)) ∧
    t.printed = s.printed ++ text ++ ['\n']
  /-- The source before the copy and the copy after it have the same table. -/
  compiled : ∃ conventions t totals u c c', Migration.conventions a s = (.ok conventions, t) ∧
    copyTree a.source a.target t = (.ok totals, u) ∧
    compile ⟨conventions, a.order, a.style⟩ s.fs
      (a.source.join (Path.ofText conventions.appDir)) = .ok c ∧
    compile ⟨conventions, a.order, a.style⟩ u.fs
      (a.target.join (Path.ofText conventions.appDir)) = .ok c' ∧
    c.routes = c'.routes ∧ c.fragment = c'.fragment

/-- If a migration succeeds, a dry run in the same state succeeds as well and shows what it leaves. -/
theorem run_previews (h : Afresh a s.fs origin goal)
    (happ : ∀ conventions t, Migration.conventions a s = (.ok conventions, t) →
      conventions.appDir ≠ "..".toList ∧
        (conventions.appDir = ".".toList → ListedByDot s.fs a.source origin))
    (hrun : run a s = (.ok (), s')) : Previewed a goal s s' := by
  rw [run] at hrun
  obtain ⟨conventions, t, hconventions, hrun⟩ := exists_of_bind_run hrun
  obtain ⟨_, u, hcopy, hrun⟩ := exists_of_bind_run hrun
  obtain ⟨c', v, hcompile, hrun⟩ := exists_of_bind_run hrun
  obtain ⟨_, w, hdump, hgenerate⟩ := exists_of_bind_run hrun
  obtain ⟨hfs, hcomplaint⟩ := conventions_run hconventions
  obtain ⟨hdots, hdot⟩ := happ conventions t hconventions
  obtain ⟨totals, hcopy⟩ := copy_run h.copies h.writes hcopy
  obtain ⟨hfs', hcompile⟩ := compileRoutes_run hcompile
  rw [routesRoot_of_writes h.writes] at hcompile
  rw [← hfs] at h hdot
  have hcompleted := h.completed hcopy
  obtain ⟨place, hrooted⟩ := h.exists_rooted hcompleted hcomplaint hdots hdot
  obtain ⟨c, hsource, hroutes, hfragment⟩ := h.compile_eq_ok hcompleted hrooted h.byName hcompile
  rw [hfs] at hsource
  obtain ⟨dry, hdry, hsame, hprinted⟩ := dry_run_eq_ok h.copies h.noDump hconventions hsource
  -- the real run writes the same text
  have hw : w.fs = u.fs := ((quiet_dump h.noDump c'.routes).of_run hdump).1.trans hfs'
  obtain ⟨-, hfiles⟩ := (generate_ends c' h.writes (hw ▸ hcompleted.stands) fun name _ link hlink => by
    rw [hw] at hlink
    rcases hcompleted.link_cases hlink with hlink | hlink
    · exact h.noLink _ link hlink
    · rw [h.find?_goal] at hlink
      cases hlink).ok_of_run hgenerate
  obtain ⟨mode, hfile⟩ := hfiles ⟨GeneratedFile.routesName, GeneratedFile.routesModule a.style c'.fragment⟩
    List.mem_cons_self
  rw [← hfragment] at hfile
  exact ⟨⟨dry, _, mode, hdry, hsame, hfile, hprinted⟩,
    conventions, t, totals, u, c, c', hconventions, hcopy, hsource, hcompile, hroutes, hfragment⟩

end Run

/-! ## The order of the routes -/

section Order

variable {a : Arguments Path} {s : Session}

theorem compileRoutes_eq_of_compile {settings settings' : Settings} {root : Path}
    (h : compile settings s.fs root = compile settings' s.fs root) :
    compileRoutes settings root s = compileRoutes settings' root s := by
  obtain ⟨t, htell, hfs⟩ := Action.exists_tell .info .command ("Compiling routes from " ++ root.text) s
  rw [← hfs] at h
  rw [compileRoutes, compileRoutes, bind_run_of_ok htell, bind_run_of_ok htell,
    bind_run_of_ok (Action.fileSystem_eq_ok t), bind_run_of_ok (Action.fileSystem_eq_ok t), h]

/-- What the routes are compiled from, once the copy has been made. -/
def compiledTree (a : Arguments Path) : Action (Except Fault Entry) := do
  let conventions ← Migration.conventions a
  copy a
  let fs ← Action.fileSystem
  return fs.lookup .target (routesRoot a conventions)

/-- A migration does not depend on the order if what it compiles is enumerated by name. -/
theorem run_order_eq (h : ∀ e t, compiledTree a s = (.ok (.ok e), t) → e.Arranged) (order : EntryOrder) :
    run { a with order } s = run a s := by
  refine bind_run_congr rfl fun conventions t hconventions => bind_run_congr rfl fun _ u hcopy =>
    bind_run_congr (compileRoutes_eq_of_compile (compile_order_eq (fun e he => h e u ?_) _ _ _ _)) fun _ _ _ => rfl
  rw [compiledTree, bind_run_of_ok hconventions, bind_run_of_ok (show copy a t = (.ok (), u) from hcopy),
    bind_run_of_ok (Action.fileSystem_eq_ok u)]
  exact congrArg (fun found => (Except.ok found, u)) he

end Order

/-! ## A dot as routes root -/

/-- A long name. -/
def longName : Text := List.replicate 250 'x'

/-- A project `from` with these entries, conventions by which it is its own routes root, and an empty
directory beside it. -/
def projectFrom (mode : Mode) (entries : List (Name × Entry)) : FileSystem where
  root := .directory .full [(Utf8.encode "dot.yaml", .file .plain (Utf8.encode "app_dir: .\n")),
    (Utf8.encode longName, .directory .full []), (Utf8.encode "from", .directory mode entries)]
  current := .ofLocation []

/-- Folders with pages, and a folder without. -/
def pagesAndFolders : List (Name × Entry) :=
  [(Utf8.encode "blog", .directory .full [
      (Utf8.encode "old", .directory .full [(Utf8.encode "page.tsx", .file .plain [])]),
      (Utf8.encode "page.tsx", .file .plain [0x6F])]),
    (Utf8.encode "components-shared-by-pages", .directory .full [])]

/-- The folders are in the routes root that has the ordinary name. -/
def ordinaryProject : FileSystem := projectFrom .full [(Utf8.encode "app", .directory .full pagesAndFolders)]

/-- The folders are directly in the project. -/
def dottedProject : FileSystem := projectFrom .full pagesAndFolders

/-- A project that may be listed but not searched. -/
def unsearchedProject : FileSystem := projectFrom ⟨true, true, false⟩ []

/-- A migration of `from`, by some path. -/
def migrationFrom (source : Text) (conventions? : Option Path) : Arguments Path where
  source := .ofText source
  target := .ofText "to"
  order := .byName
  style := .relative
  conventions? := conventions?
  skipsCopy := false
  isDryRun := false
  dump? := none
  isVerbose := false

/-- A migration of `from` as its own routes root. -/
def dottedArguments (source : Text) : Arguments Path := migrationFrom source (some (.ofText "dot.yaml"))

theorem afresh_projectFrom {mode : Mode} {entries : List (Name × Entry)} {source : Text}
    {conventions? : Option Path} (hvalid : (projectFrom mode entries).root.Valid)
    (hlinkless : Linkless (projectFrom mode entries).root)
    (hdirectory : ((projectFrom mode entries).lookup .itself (.ofText source)).toOption.map Entry.isDirectory =
      some true)
    (horigin : (projectFrom mode entries).canonical (.ofText source) = .ok [Utf8.encode "from"]) :
    Afresh (migrationFrom source conventions?) (projectFrom mode entries) [Utf8.encode "from"]
      [Utf8.encode "to"] where
  valid := ⟨hvalid, _, _, rfl⟩
  copies := rfl
  writes := rfl
  noDump := rfl
  byName := rfl
  directory := by
    obtain ⟨e, he, hisDirectory⟩ := Option.map_eq_some_iff.mp hdirectory
    obtain ⟨mode', entries', rfl⟩ := Entry.isDirectory_iff.mp hisDirectory
    refine ⟨mode', entries', ?_⟩
    show (projectFrom mode entries).lookup .itself (.ofText source) = _
    cases hlookup : (projectFrom mode entries).lookup .itself (.ofText source) with
    | error fault =>
      rw [hlookup] at he
      cases he
    | ok found =>
      rw [hlookup] at he
      exact congrArg Except.ok (Option.some.inj he)
  origin_eq := horigin
  goal_eq := by rfl
  noLink _ := hlinkless _
  missing := by rfl
  outside := by decide
  targetCut := Path.cut_ofText "to"
  targetFree _ _ := hlinkless _
  targetDots := by
    show Path.dotDot ∉ (Path.ofText "to").segments
    decide

theorem linkless_ordinaryProject : Linkless ordinaryProject.root := linkless_of_everything (by decide)

theorem linkless_dottedProject : Linkless dottedProject.root := linkless_of_everything (by decide)

theorem linkless_unsearchedProject : Linkless unsearchedProject.root := linkless_of_everything (by decide)

theorem appDir_of_toOption {a : Arguments Path} {s t : Session} {app : Text} {conventions : Conventions}
    (h : (Migration.conventions a s).1.toOption.map Conventions.appDir = some app)
    (hconventions : Migration.conventions a s = (.ok conventions, t)) : conventions.appDir = app := by
  rw [hconventions] at h
  exact Option.some.inj h

/-- A directory that is enumerated by name can be told to be so by looking at it. -/
theorem isOk_run_eq {a : Arguments Path} {fs : FileSystem}
    (h : ((compiledTree a (.fresh fs)).1.toOption.all fun found => found.toOption.all fun e => e.Arranged) =
      true) (order : EntryOrder) :
    (run a (.fresh fs)).1.isOk = (run { a with order } (.fresh fs)).1.isOk := by
  have harranged (e : Entry) (t : Session) (hrun : compiledTree a (.fresh fs) = (.ok (.ok e), t)) : e.Arranged := by
    rw [hrun] at h
    exact of_decide_eq_true h
  exact congrArg (fun outcome => outcome.1.isOk) (run_order_eq harranged order).symm

/-- The directories of the dotted project are listed by short paths. -/
theorem listedByDot_dottedProject :
    ListedByDot dottedProject (.ofText "from") [Utf8.encode "from"] where
  isOpen := ⟨_, _, rfl, rfl⟩
  short := by
    have hall : ∀ p ∈ dottedProject.root.everything,
        (Copy.entryPath ((Path.ofText "from").join (.ofText ".")) (p.1.drop 1)).bytes.length <
          FileSystem.pathLimit := by decide
    rintro names ⟨mode, entries, hfind⟩
    exact hall _ (Entry.mem_everything hfind)

/-- Migrations are previewed, be the routes root below the project or the project itself. -/
theorem run_previews_projects :
    (∃ s', run (migrationFrom "from" none) (.fresh ordinaryProject) = (.ok (), s') ∧
      Previewed (migrationFrom "from" none) [Utf8.encode "to"] (.fresh ordinaryProject) s') ∧
    ∃ s', run (dottedArguments "from") (.fresh dottedProject) = (.ok (), s') ∧
      Previewed (dottedArguments "from") [Utf8.encode "to"] (.fresh dottedProject) s' := by
  constructor
  · obtain ⟨⟨⟩, s', hrun⟩ := exists_of_isOk_run (x := run (migrationFrom "from" none))
      (s := .fresh ordinaryProject) ((isOk_run_eq (by decide +kernel) .asEnumerated).trans (by decide +kernel))
    refine ⟨s', hrun, run_previews (afresh_projectFrom (by decide) linkless_ordinaryProject (by decide) (by rfl))
      (fun conventions t h => ?_) hrun⟩
    have happ : conventions.appDir = "app".toList := appDir_of_toOption (by decide +kernel) h
    rw [happ]
    exact ⟨by decide, fun hdot => absurd hdot (by decide)⟩
  · obtain ⟨⟨⟩, s', hrun⟩ := exists_of_isOk_run (x := run (dottedArguments "from"))
      (s := .fresh dottedProject) ((isOk_run_eq (by decide +kernel) .asEnumerated).trans (by decide +kernel))
    refine ⟨s', hrun, run_previews (afresh_projectFrom (by decide) linkless_dottedProject (by decide) (by rfl))
      (fun conventions t h => ⟨?_, fun _ => listedByDot_dottedProject⟩) hrun⟩
    have happ : conventions.appDir = ".".toList := appDir_of_toOption (by decide +kernel) h
    rw [happ]
    decide

/-- A migration to a target that is not there yet succeeds, and its dry run fails. -/
structure Unpreviewed (a : Arguments Path) (fs : FileSystem) : Prop where
  afresh : Afresh a fs [Utf8.encode "from"] [Utf8.encode "to"]
  appDir : ∀ conventions t, Migration.conventions a (.fresh fs) = (.ok conventions, t) →
    conventions.appDir ≠ "..".toList
  succeeds : (run a (.fresh fs)).1.isOk = true
  fails : (run { a with isDryRun := true } (.fresh fs)).1.isOk = false

/-- A path to `from` that is as long as the copy of its folders allows. -/
def longPath : Text := (List.replicate 16 (longName ++ "/../")).flatten ++ "from"

theorem unpreviewed_dottedProject : Unpreviewed (dottedArguments longPath) dottedProject where
  afresh := afresh_projectFrom (by decide) linkless_dottedProject (by decide +kernel) (by decide +kernel)
  appDir conventions t h := by
    have happ : conventions.appDir = ".".toList := appDir_of_toOption (by decide +kernel) h
    rw [happ]
    decide
  succeeds := (isOk_run_eq (by decide +kernel) .asEnumerated).trans (by decide +kernel)
  fails := (isOk_run_eq (by decide +kernel) .asEnumerated).trans (by decide +kernel)

theorem unpreviewed_unsearchedProject : Unpreviewed (dottedArguments "from") unsearchedProject where
  afresh := afresh_projectFrom (by decide) linkless_unsearchedProject (by decide) (by rfl)
  appDir conventions t h := by
    have happ : conventions.appDir = ".".toList := appDir_of_toOption (by decide +kernel) h
    rw [happ]
    decide
  succeeds := by decide +kernel
  fails := by decide +kernel

/-- By a long path `from` is listed and copied, but with a dot behind it the path of a folder is too long.  And
a project without entries need not be searched to be copied, but a dot in it is not found. -/
theorem run_without_preview :
    (dottedProject.Open [Utf8.encode "from"] ∧ Unpreviewed (dottedArguments longPath) dottedProject) ∧
    (∀ names, unsearchedProject.HasDirectory ([Utf8.encode "from"] ++ names) →
      (Copy.entryPath ((Path.ofText "from").join (.ofText ".")) names).bytes.length < FileSystem.pathLimit) ∧
    Unpreviewed (dottedArguments "from") unsearchedProject := by
  refine ⟨⟨listedByDot_dottedProject.isOpen, unpreviewed_dottedProject⟩, ?_, unpreviewed_unsearchedProject⟩
  rintro names ⟨mode, entries, hfind⟩
  cases names with
  | nil => decide
  | cons name names => cases hfind

end Migration

end FileRoutes
