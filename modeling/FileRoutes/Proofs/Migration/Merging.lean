import FileRoutes.Proofs.Migration.Interruption
import FileRoutes.Proofs.Migration.Failures
import FileRoutes.Proofs.Migration.FinalState
import FileRoutes.Proofs.Route.Embedding

/-!
# Merging into a target that is there

A migration into a target with entries of its own does not lose a page of the source: the table of the
source is embedded in the one that is written (`Migration.run_merges`).  The target may add routes and
pages, and it may keep a folder that would have been pruned.

## What is compared

The table of the source is that of the routes root as it was before.  The written one is compiled from the
target after the copy, and the tree that is there has whatever the routes root of the source had.  Before
the copy empty directories may have been made in the source, if two dots in the path of the target lead
through it; more of them is no loss.

Nothing is asked of the dump.  It may be written wherever it can be, since by then the table has been
compiled, and it makes neither links nor anything that would keep the routes file from its place.
-/

namespace FileRoutes

open FileSystem (Makes Grows SameLinks)

/-! ## Trees that have more in them -/

/-- Making directories takes nothing away. -/
theorem FileSystem.Makes.exists_isDirectory_eq {fs fs' : FileSystem} {places : Location → Prop}
    (h : Makes places fs fs') {loc : Location} {e : Entry} (he : fs.find? loc = some e) :
    ∃ e', fs'.find? loc = some e' ∧ e'.isDirectory = e.isDirectory := by
  have hview : fs.view loc = some e.bare := by
    rw [view, he]
    rfl
  rcases h.view_eq loc with hsame | ⟨hnone, -⟩
  · rw [hview] at hsame
    obtain ⟨e', he', hbare⟩ := Option.map_eq_some_iff.mp hsame
    refine ⟨e', he', ?_⟩
    rw [← Entry.isDirectory_bare e', hbare, Entry.isDirectory_bare]
  · rw [hview] at hnone
    cases hnone

namespace Copy

variable {fs fs' : FileSystem} {origin goal : Location} {part : List Name → Prop} {below : List Name}

/-- An entry that has been copied is a directory where it was one. -/
theorem Copied.exists_isDirectory_eq (h : Copied origin goal part fs fs') (hbelow : part below) {e : Entry}
    (he : fs.find? (origin ++ below) = some e) :
    ∃ e', fs'.find? (goal ++ below) = some e' ∧ e'.isDirectory = e.isDirectory := by
  obtain ⟨x, hx, hdirectory, hfile⟩ := Holds.of_overlaid he (h.overlaid below hbelow)
  obtain rfl := Option.some.inj (hx.symm.trans he)
  cases hkind : x.isDirectory with
  | true =>
    obtain ⟨mode, entries, hfind⟩ := hdirectory hkind
    exact ⟨_, hfind, rfl⟩
  | false => exact ⟨x, hfile hkind, hkind⟩

/-- A copy without links makes none. -/
theorem Copied.find?_link (h : Copied origin goal part fs fs')
    (hsource : ∀ below link, fs.find? (origin ++ below) ≠ some (.link link)) {loc : Location} {link : Path}
    (hlink : fs'.find? loc = some (.link link)) : fs.find? loc = some (.link link) := by
  rw [← FileSystem.view_eq_link_iff] at hlink ⊢
  by_cases hloc : ∃ below, part below ∧ loc = goal ++ below
  · obtain ⟨below, hbelow, rfl⟩ := hloc
    rw [h.overlaid below hbelow] at hlink
    exact (Entry.overlay_eq_link hlink).resolve_left fun hnew =>
      hsource below link (FileSystem.view_eq_link_iff.mp hnew)
  · rwa [h.touches.view_eq loc] at hlink
    rintro ⟨below, e, hbelow, -, hl, -⟩
    exact hloc ⟨below, hbelow, hl⟩

end Copy

/-- What is found by a name behind a path that meets no link. -/
theorem FileSystem.find?_of_lookup_join {fs : FileSystem} {p : Path} {loc : Location} {name : Name} {e : Entry}
    (hfree : fs.LinkFree p) (hanchored : fs.Anchored p) (hspelled : fs.spelled p = loc)
    (hno : ∀ below link, fs.find? (loc ++ below) ≠ some (.link link)) (hname : name.IsDown)
    (hlookup : fs.lookup .target (p.join (.ofNames [name])) = .ok e) : fs.find? (loc ++ [name]) = some e := by
  have hgoesOn : p.GoesOn [name] (p.join (.ofNames [name])) := .join p (by simpa using hname)
  have hfree' : fs.LinkFree (p.join (.ofNames [name])) := hfree.goesOn (by rwa [hspelled]) hgoesOn
  have hfind := lookup_eq_ok hfree' (hanchored.of_isAbsolute_eq hgoesOn.isAbsolute_eq) hlookup
  rwa [spelled_of_goesOn hgoesOn, hspelled] at hfind

/-! ## The dump -/

/-- The dump adds a file and directories, or changes a file, and no link. -/
theorem Migration.dump_grows {a : Arguments Path} {s : Session} (hroot : s.fs.HasDirectory [])
    (routes : List Route) : Ends (Migration.dump a routes) s
      (fun _ u => Grows s.fs u.fs ∧ SameLinks s.fs u.fs) (fun _ => True) := by
  rw [Migration.dump]
  cases hdump : a.dump? with
  | none => exact .pure ⟨.refl s.fs, .refl s.fs⟩
  | some t =>
    refine .bind (Action.ends_tell fun u hu => ?_)
    rw [← hu] at hroot ⊢
    refine .bind ((Migration.writeText_writes hroot _).mono (fun _ v hv => Action.ends_tell fun w hw => ?_)
      fun _ _ => trivial)
    obtain ⟨between, hadds, loc, mode, hwrites⟩ := hv
    obtain ⟨hgrows, hlinks⟩ := hadds.grows
    rw [hw]
    exact ⟨hgrows.trans hwrites.grows, hlinks.trans hwrites.sameLinks⟩

namespace Migration

open Copy (Separate Course Copied)

variable {a : Arguments Path} {s s' : Session} {fs fs' : FileSystem} {origin goal : Location}

/-- Source and target are separate, no link is in or on the way to either of them, and the project is copied. -/
structure Merges (a : Arguments Path) (fs : FileSystem) (origin goal : Location) : Prop extends
    Separate fs a.source a.target origin goal where
  copies : a.skipsCopy = false
  writes : a.isDryRun = false
  targetCut : a.target.Cut
  sourceFree : fs.LinkFree a.source
  noSourceLink : ∀ below link, fs.find? (origin ++ below) ≠ some (.link link)

/-- The routes file is that of the target as the copy leaves it, and the table of the source is embedded in
its table. -/
structure Merged (a : Arguments Path) (fs fs' : FileSystem) (goal : Location) (conventions : Conventions)
    (totals : CopyTotals) (copied : FileSystem) (c : Compilation) : Prop where
  copy : (copyTree a.source a.target).on fs = (.ok totals, copied)
  compiled : compile ⟨conventions, a.order, a.style⟩ copied
    (a.target.join (Path.ofText conventions.appDir)) = .ok c
  routes : ∃ mode text,
    fs'.find? (goal ++ [Utf8.encode "routes.tsx"]) = some (.file mode (Utf8.encode text)) ∧
      Literal.RoutesText conventions a.style c.routes text
  embeds : ∀ c', compile ⟨conventions, a.order, a.style⟩ fs
    (a.source.join (Path.ofText conventions.appDir)) = .ok c' → Route.Embeds c'.routes c.routes

variable {between : FileSystem}

/-- The copy makes no link and takes no directory away. -/
theorem Merges.alters (h : Merges a fs origin goal)
    (hmakes : Makes (fs.Passes a.target) fs between)
    (hcopied : Copied origin goal (fun b => ∃ n, [n] <+: b) between fs') :
    FileSystem.Alters (fun _ => True) fs fs' where
  current_eq := hcopied.touches.keeps.current_eq.trans hmakes.touches.keeps.current_eq
  find?_eq loc hloc := absurd (List.prefix_refl loc) (hloc loc trivial)
  view_eq _ hloc := absurd trivial hloc
  link loc link hlink := by
    refine (hmakes.sameLinks.link_iff loc link).mp (hcopied.find?_link (fun below link hsource => ?_) hlink)
    exact h.noSourceLink below link ((hmakes.sameLinks.link_iff _ link).mp hsource)
  directory loc mode hview :=
    hcopied.touches.keeps.directory loc mode (hmakes.touches.keeps.directory loc mode hview)

/-- Once the copy has been made, the target has what the source had. -/
theorem Merges.within {name : Name} {e e' : Entry}
    (hmakes : Makes (fs.Passes a.target) fs between)
    (hcopied : Copied origin goal (fun b => ∃ n, [n] <+: b) between fs')
    (he : fs.find? (origin ++ [name]) = some e) (he' : fs'.find? (goal ++ [name]) = some e') :
    e.Within e' := by
  intro below x hx
  have hfind : fs.find? (origin ++ (name :: below)) = some x := by
    rw [List.append_cons, FileSystem.find?, Entry.find?_append_of_eq_some he, hx]
  obtain ⟨y, hy, hsame⟩ := hmakes.exists_isDirectory_eq hfind
  obtain ⟨z, hz, hsame'⟩ := hcopied.exists_isDirectory_eq ⟨name, by simp⟩ hy
  rw [List.append_cons, FileSystem.find?, Entry.find?_append_of_eq_some he'] at hz
  exact ⟨z, hz, hsame'.trans hsame⟩

/-- What is compiled from the source before the copy is embedded in what is compiled afterwards. -/
theorem Merges.embeds (h : Merges a fs origin goal) {settings : Settings} {app : Text} {c c' : Compilation}
    (hmakes : Makes (fs.Passes a.target) fs between)
    (hcopied : Copied origin goal (fun b => ∃ n, [n] <+: b) between fs') (hslash : '/' ∉ app)
    (hdown : Name.IsDown (Utf8.encode app))
    (hc : compile settings fs (a.source.join (Path.ofText app)) = .ok c)
    (hc' : compile settings fs' (a.target.join (Path.ofText app)) = .ok c') :
    Route.Embeds c.routes c'.routes := by
  have halters := h.alters hmakes hcopied
  obtain ⟨hanchored, horigin⟩ := FileSystem.canonical_eq_ok h.valid h.sourceFree h.origin_eq
  obtain ⟨hanchored', hgoal⟩ := h.spells
  rw [Path.ofText_of_slash_notMem hslash] at hc hc'
  obtain ⟨mode, entries, hlookup⟩ := exists_lookup_of_compile hc
  obtain ⟨mode', entries', hlookup'⟩ := exists_lookup_of_compile hc'
  have hfind : fs.find? (origin ++ [Utf8.encode app]) = some (.directory mode entries) :=
    FileSystem.find?_of_lookup_join h.sourceFree hanchored horigin.symm h.noSourceLink hdown hlookup
  have hfind' : fs'.find? (goal ++ [Utf8.encode app]) = some (.directory mode' entries') :=
    FileSystem.find?_of_lookup_join (halters.linkFree h.targetFree) (halters.anchored hanchored')
      ((halters.spelled_eq _).trans hgoal)
      (fun below link hlink => h.noTargetLink below link (halters.link _ _ hlink)) hdown hlookup'
  exact compile_embeds hlookup hlookup' (Merges.within hmakes hcopied hfind hfind')
    (h.valid.tree.find? hfind) hc hc'

/-- A migration loses no page of the source, whatever the target held before. -/
theorem run_merges (h : Merges a s.fs origin goal)
    (happ : ∀ conventions t, Migration.conventions a s = (.ok conventions, t) →
      conventions.appDir ≠ ".".toList ∧ conventions.appDir ≠ "..".toList)
    (hrun : run a s = (.ok (), s')) :
    ∃ conventions t totals copied c, Migration.conventions a s = (.ok conventions, t) ∧
      Merged a s.fs s'.fs goal conventions totals copied c := by
  rw [run] at hrun
  obtain ⟨conventions, t, hconventions, hrun⟩ := exists_of_bind_run hrun
  obtain ⟨_, u, hcopy, hrun⟩ := exists_of_bind_run hrun
  obtain ⟨c, v, hcompile, hrun⟩ := exists_of_bind_run hrun
  obtain ⟨_, w, hdump, hgenerate⟩ := exists_of_bind_run hrun
  obtain ⟨hdot, hdots⟩ := happ conventions t hconventions
  obtain ⟨hsame, hcomplaint⟩ := conventions_run hconventions
  obtain ⟨hne, hslash⟩ := Conventions.appDir_of_complaint?_eq_none hcomplaint
  rw [← hsame] at h ⊢
  obtain ⟨totals, hcopy⟩ := copy_run h.copies h.writes hcopy
  obtain ⟨between, hmakes, -, hcourse, hcopied⟩ := h.copied h.targetCut hcopy
  obtain ⟨hsame', hcompiled⟩ := compileRoutes_run hcompile
  rw [← hsame'] at hcopied hcompiled
  have halters := h.alters hmakes hcopied
  have hafter := hcourse.copied hcopied
  have hroot : v.fs.HasDirectory [] := hafter.current.above List.nil_prefix
  obtain ⟨hgrows, hlinks⟩ := (dump_grows hroot c.routes).ok_of_run hdump
  have hstands : Stands w.fs a.target goal :=
    (Stands.of_reaches hafter.current hafter.targetAnchored hafter.targetReaches
      hafter.targetDirectory).of_keeps hgrows.toKeeps hlinks
  obtain ⟨-, hfiles⟩ := (generate_ends c h.writes hstands fun _ _ link hlink =>
    h.noTargetLink _ link (halters.link _ link ((hlinks.link_iff _ link).mp hlink))).ok_of_run hgenerate
  obtain ⟨mode, hroutes⟩ := hfiles ⟨"routes.tsx", _⟩ List.mem_cons_self
  rw [routesRoot_of_writes h.writes] at hcompiled
  refine ⟨conventions, t, totals, v.fs, c, hconventions, ?_, hcompiled, ⟨mode, _, hroutes, ?_⟩, fun c' hc' => ?_⟩
  · rw [hsame']
    exact (Action.pervades_logless.copyTree _ _).of_run hcopy
  · rw [fragment_of_compile hcompiled]
    exact Literal.routesText_routesModule conventions a.style c.routes
  · exact h.embeds hmakes hcopied hslash (Conventions.isDown_encode hne hdot hdots) hc' hcompiled

/-- A target with a page of its own below a folder that the source has too. -/
def sharedFolders : FileSystem where
  root := .directory .full [
    (Utf8.encode "from", .directory .full [
      (Utf8.encode "app", .directory .full [
        (Utf8.encode "blog", .directory .full [(Utf8.encode "page.tsx", .file .plain [])])])]),
    (Utf8.encode "to", .directory .full [
      (Utf8.encode "app", .directory .full [
        (Utf8.encode "blog", .directory .full [
          (Utf8.encode "old", .directory .full [(Utf8.encode "page.tsx", .file .plain [])])])])])]
  current := .ofLocation []

/-- The path of the target leads through the source, where a directory is made for it. -/
def roundaboutArguments : Arguments Path where
  source := .ofText "from"
  target := .ofText "from/new/../../to"
  order := .asEnumerated
  style := .absolute
  conventions? := none
  skipsCopy := false
  isDryRun := false
  dump? := some (.ofText "from/app/table.json")
  isVerbose := false

theorem linkless_sharedFolders : Linkless sharedFolders.root := linkless_of_everything (by decide)

theorem merges_sharedFolders :
    Merges roundaboutArguments sharedFolders [Utf8.encode "from"] [Utf8.encode "to"] where
  valid := ⟨by decide, _, _, rfl⟩
  sourceDirectory := ⟨_, _, rfl⟩
  origin_eq := by rfl
  goal_eq := by rfl
  targetFree _ _ := linkless_sharedFolders _
  noTargetLink _ := linkless_sharedFolders _
  apart := by decide
  apart' := by decide
  copies := rfl
  writes := rfl
  targetCut := Path.cut_ofText _
  sourceFree _ _ := linkless_sharedFolders _
  noSourceLink _ := linkless_sharedFolders _

/-- The sample is merged. -/
theorem run_merges_sharedFolders :
    ∃ s', run roundaboutArguments (.fresh sharedFolders) = (.ok (), s') ∧
      ∃ conventions t totals copied c,
        Migration.conventions roundaboutArguments (.fresh sharedFolders) = (.ok conventions, t) ∧
          Merged roundaboutArguments sharedFolders s'.fs [Utf8.encode "to"] conventions totals copied c := by
  obtain ⟨⟨⟩, s', hrun⟩ := exists_of_isOk_run (x := run roundaboutArguments) (s := .fresh sharedFolders)
    (by decide +kernel)
  refine ⟨s', hrun, run_merges (s := .fresh sharedFolders) merges_sharedFolders (fun conventions t h => ?_) hrun⟩
  obtain ⟨rfl, -⟩ := eq_of_pure_run h
  decide

end Migration

end FileRoutes
