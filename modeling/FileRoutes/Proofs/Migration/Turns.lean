import FileRoutes.Proofs.FileSystem.LinkTables
import FileRoutes.Proofs.Migration.Composition
import FileRoutes.Proofs.Migration.Course

/-!
# The turns of a copy

The entries of a source are copied one after the other, each directory before the entries in it.  A link
that is copied takes the place of what was there, so an entry whose turn comes later may be put elsewhere
than where its path led at the beginning.  Where it is put can be told beforehand: it depends on the links
that there are by then, and these are the ones at the beginning and those that have been copied
(`Relinks`).

## What a copy leaves alone

A copy spares its source if no entry of the source has its place in the source when its turn comes, and if
the path of the source leads to the source whenever it is read (`Spares`).  Then the source is as it was
whether the copy succeeds or fails (`copyTree_keeps`).  Turns that never come, since the copy fails before
(`Copies`), do not count.

What carries the proof is that until then the file system differs from that at the beginning in nothing that
tells where a path leads, but for the links (`Underway`).  Each change of one entry keeps this
(`Underway.put`), so each turn does, and so does the walk (`copyBelow_keeps`).
-/

namespace FileRoutes

namespace Copy

open FileSystem (Takes Sets Shows Clears)

/-- Entries with the names that lead to them from the source, in the order in which they are copied. -/
abbrev Sequence := List (List Name × Entry)

/-! ## The links at a turn -/

/-- A location that may be passed while the source is as it was.  Where nothing is there may be a directory by
then, but not in the source. -/
def Passable (fs : FileSystem) (origin : Location) (loc : Location) : Prop :=
  fs.Open loc ∨ fs.find? loc = none ∧ ¬ origin <+: loc

/-- By these links, the steps lead to this location from where the path begins. -/
abbrev Guides (fs : FileSystem) (origin : Location) (links : LinkTable) (p : Path) (steps : List Step)
    (loc : Location) : Prop :=
  links.Way (Passable fs origin) (fs.beginning p) steps loc

/-- When these entries have been copied to the target, these are the links. -/
inductive Relinks (fs : FileSystem) (target : Path) (origin : Location) : Sequence → LinkTable → Prop
  | start : Relinks fs target origin [] fs.links
  | link {done : Sequence} {links : LinkTable} {init : List Name} {name : Name} {held : Path}
      {directory : Location} (before : Relinks fs target origin done links)
      (way : Guides fs origin links target (target.moves ++ init.map .down) directory) :
      Relinks fs target origin (done ++ [(init ++ [name], .link held)]) (links.set (directory ++ [name]) held)
  | other {done : Sequence} {links : LinkTable} {names : List Name} {e : Entry}
      (before : Relinks fs target origin done links) (noLink : e.held? = none) :
      Relinks fs target origin (done ++ [(names, e)]) links

/-- With these links, an entry of a kind that goes to these names below the target is put here.  A file is
put where the names lead; a link in the place of the last name, even if there is a link; and for a directory
there may be one made at each name on the way. -/
inductive Place (fs : FileSystem) (target : Path) (origin : Location) (links : LinkTable) :
    List Name → Entry.Kind → Location → Prop
  | file {names : List Name} {loc : Location}
      (way : Guides fs origin links target (target.moves ++ names.map .down) loc) :
      Place fs target origin links names .file loc
  | link {init : List Name} {name : Name} {directory : Location}
      (way : Guides fs origin links target (target.moves ++ init.map .down) directory) :
      Place fs target origin links (init ++ [name]) .link (directory ++ [name])
  | directory {names : List Name} {steps : List Step} {name : Name} {above : Location}
      (begins : steps ++ [.down name] <+: target.moves ++ names.map .down)
      (way : Guides fs origin links target steps above) :
      Place fs target origin links names .directory (above ++ [name])

/-- What is put there is not put into the source, unless the system refuses to. -/
def Misses (fs : FileSystem) (target : Path) (origin : Location) (links : LinkTable) (names : List Name)
    (kind : Entry.Kind) : Prop :=
  ∀ loc, Place fs target origin links names kind loc → fs.Takes kind loc → ¬ origin <+: loc

/-- Copies an entry, and lists it if it is a directory. -/
def copyListed (source target : Path) (p : List Name × Entry) : Action Unit := do
  let _ ← copyEntry source target p.1 p.2.kind
  if p.2.kind = .directory then
    let _ ← entries source p.1

/-- When these entries have been copied one after the other, the file system is this one. -/
def Reached (fs : FileSystem) (source target : Path) (done : Sequence) (t : FileSystem) : Prop :=
  Action.on (done.forM (copyListed source target)) fs = (.ok (), t)

/-- None of these entries fails to be copied. -/
def Copies (fs : FileSystem) (source target : Path) (done : Sequence) : Prop :=
  ∃ t, Reached fs source target done t

/-- The turn of this entry of the source comes when those have been copied, and then these are the links. -/
structure Turn (fs : FileSystem) (source target : Path) (origin : Location) (done : Sequence)
    (names : List Name) (e : Entry) (links : LinkTable) : Prop where
  next : ∃ top rest, fs.find? origin = some top ∧ top.everything = done ++ (names, e) :: rest
  comes : Copies fs source target done
  relinks : Relinks fs target origin done links

/-- The source can be read where it is, and nothing is copied into it. -/
structure Spares (fs : FileSystem) (source target : Path) (origin : Location) : Prop where
  /-- When a directory is listed or a link is read, the path of the source leads to the source. -/
  reads : ∀ done names e links, Turn fs source target origin done names e links → e.kind ≠ .file →
    Copies fs source target (done ++ [(names, e)]) →
    ∀ loc, Guides fs origin links source source.moves loc → loc = origin
  /-- No entry has its place in the source when its turn comes.  A file that cannot be copied does not get
  there. -/
  copied : ∀ done names e links, Turn fs source target origin done names e links →
    (e.kind = .file → Copies fs source target (done ++ [(names, e)])) →
    Misses fs target origin links names e.kind

/-! ## The state at a turn -/

/-- These entries have been copied, and the source is as it was. -/
structure Underway (fs : FileSystem) (target : Path) (origin : Location) (done : Sequence)
    (t : FileSystem) : Prop where
  relinks : Relinks fs target origin done t.links
  current_eq : t.current = fs.current
  current : t.HasDirectory t.current.location
  origin_eq : t.find? origin = fs.find? origin
  passable : ∀ loc, t.Passable loc → fs.Passable loc

namespace Underway

variable {fs t u : FileSystem} {source target q : Path} {origin loc directory : Location}
  {done done' : Sequence} {names init : List Name} {name last : Name} {e : Entry}

theorem start (hfs : fs.Valid) : Underway fs target origin [] fs :=
  ⟨.start, rfl, hfs.current, rfl, fun _ => id⟩

theorem root (h : Underway fs target origin done t) : t.HasDirectory [] := h.current.above List.nil_prefix

theorem anchored (h : Underway fs target origin done t) {p : Path} (hp : fs.Anchored p) : t.Anchored p := by
  rw [FileSystem.Anchored, h.current_eq]
  exact hp

theorem beginning_eq (h : Underway fs target origin done t) {p : Path}
    (habsolute : q.isAbsolute = p.isAbsolute) : t.beginning q = fs.beginning p := by
  rw [FileSystem.beginning_of_isAbsolute_eq habsolute, FileSystem.beginning, FileSystem.beginning,
    h.current_eq]

/-- What is below the source is as it was. -/
theorem find?_source (h : Underway fs target origin done t) (below : List Name) :
    t.find? (origin ++ below) = fs.find? (origin ++ below) := by
  have horigin := h.origin_eq
  rw [FileSystem.find?, FileSystem.find?] at horigin
  rw [FileSystem.find?, FileSystem.find?, Entry.find?_append, Entry.find?_append, horigin]

/-- What can be put into the source could be put there at the beginning. -/
theorem takes (h : Underway fs target origin done t) (hdirectory : fs.HasDirectory origin)
    {kind : Entry.Kind} (hinside : origin <+: loc) (htakes : t.Takes kind loc) : fs.Takes kind loc := by
  obtain ⟨below, rfl⟩ := hinside
  have hsame := h.find?_source below
  obtain ⟨m, es, htop⟩ := hdirectory
  have hreceives (hfree : ¬ t.HasDirectory (origin ++ below)) (hplace : t.Receives (origin ++ below)) :
      fs.Receives (origin ++ below) := by
    obtain ⟨above, name, mode, entries, heq, hfind, hwrite⟩ := hplace
    rcases List.eq_nil_or_concat below with rfl | ⟨init, last, rfl⟩
    · refine absurd ⟨m, es, ?_⟩ hfree
      rw [hsame, List.append_nil, htop]
    · rw [List.concat_eq_append, ← List.append_assoc] at heq ⊢
      obtain ⟨rfl, hlast⟩ := List.append_inj' heq rfl
      rw [h.find?_source] at hfind
      exact ⟨_, _, mode, entries, rfl, hfind, hwrite⟩
  cases kind with
  | directory =>
    obtain ⟨hnone, hplace⟩ := htakes
    exact ⟨hsame ▸ hnone, hreceives (FileSystem.not_hasDirectory_of_none hnone) hplace⟩
  | link =>
    obtain ⟨hfree, hplace⟩ := htakes
    refine ⟨?_, hreceives hfree hplace⟩
    rwa [FileSystem.HasDirectory, hsame] at hfree
  | file =>
    rcases htakes with ⟨mode, contents, hfile, hwrite⟩ | ⟨hnone, hplace⟩
    · exact Or.inl ⟨mode, contents, hsame ▸ hfile, hwrite⟩
    · exact Or.inr ⟨hsame ▸ hnone, hreceives (FileSystem.not_hasDirectory_of_none hnone) hplace⟩

/-- What misses the source is put elsewhere. -/
theorem not_prefix (h : Underway fs target origin done t) (hdirectory : fs.HasDirectory origin)
    {kind : Entry.Kind} (hmisses : Misses fs target origin t.links names kind)
    (hplace : Place fs target origin t.links names kind loc) (htakes : t.Takes kind loc) : ¬ origin <+: loc :=
  fun hinside => hmisses loc hplace (h.takes hdirectory hinside htakes) hinside

/-- An entry that is put outside the source leaves the copy under way. -/
theorem put (h : Underway fs target origin done t) {new : Entry} (hshows : Shows loc new t u)
    (houtside : ¬ origin <+: loc) (hnone : new.isDirectory = true → t.find? loc = none)
    (hrelinks : Relinks fs target origin done' u.links) : Underway fs target origin done' u where
  relinks := hrelinks
  current_eq := hshows.current_eq.trans h.current_eq
  current := by
    rw [hshows.current_eq]
    exact hshows.hasDirectory h.current
  origin_eq := (hshows.find?_eq origin houtside).trans h.origin_eq
  passable l hl := h.passable l (hshows.passable hnone hl)

/-- An entry that is no link has had its turn. -/
theorem other (h : Underway fs target origin done t) (names : List Name) (he : e.held? = none) :
    Underway fs target origin (done ++ [(names, e)]) t :=
  { h with relinks := .other h.relinks he }

/-! ### Places -/

theorem passable_of_open (h : Underway fs target origin done t) (hopen : t.Open loc) :
    Passable fs origin loc := by
  rcases h.passable loc (Or.inl hopen) with hopen' | hnone
  · exact Or.inl hopen'
  · refine Or.inr ⟨hnone, ?_⟩
    rintro ⟨below, rfl⟩
    rw [← h.find?_source] at hnone
    exact FileSystem.not_hasDirectory_of_none hnone hopen.hasDirectory

theorem way (h : Underway fs target origin done t) {a b : Location} {steps : List Step}
    (hway : t.Way t.Open a steps b) : t.links.Way (Passable fs origin) a steps b :=
  hway.byTable fun _ => h.passable_of_open

theorem place_file (h : Underway fs target origin done t) (hq : target.GoesOn names q)
    (hreaches : t.Reaches q loc) : Place fs target origin t.links names .file loc := by
  have hway := h.way hreaches
  rw [h.beginning_eq hq.isAbsolute_eq, hq.moves_eq] at hway
  exact .file hway

/-- The way to the directory in which the last name is looked up. -/
theorem way_of_looksUp (h : Underway fs target origin done t) (hq : target.GoesOn (init ++ [name]) q)
    (hlooksUp : t.LooksUp q directory last) : last = name ∧
      Guides fs origin t.links target (target.moves ++ init.map .down) directory := by
  obtain ⟨steps, hmoves, hway⟩ := hlooksUp.way
  have hsplit := hq.moves_eq
  rw [hmoves, List.map_append, ← List.append_assoc] at hsplit
  obtain ⟨rfl, hlast⟩ := List.append_inj' hsplit rfl
  rw [h.beginning_eq hq.isAbsolute_eq] at hway
  exact ⟨Step.down.inj (List.cons.inj hlast).1, h.way hway⟩

theorem place_directory (h : Underway fs target origin done t) (habsolute : q.isAbsolute = target.isAbsolute)
    (hmoves : q.moves <+: target.moves ++ names.map .down) (hlooksUp : t.LooksUp q directory name) :
    Place fs target origin t.links names .directory (directory ++ [name]) := by
  obtain ⟨steps, hsteps, hway⟩ := hlooksUp.way
  have hway' := h.way hway
  rw [h.beginning_eq habsolute] at hway'
  exact .directory (hsteps ▸ hmoves) hway'

/-- A path that goes on from the source leads to what is in it. -/
theorem eq_of_way (h : Underway fs target origin done t)
    (hsource : ∀ loc, Guides fs origin t.links source source.moves loc → loc = origin)
    (hdirectory : t.HasDirectory (origin ++ names))
    (hway : t.Way t.Open (fs.beginning source) (source.moves ++ names.map .down) loc) :
    loc = origin ++ names := by
  obtain ⟨top, htop, hbelow⟩ := FileSystem.exists_of_way_append hway
  obtain rfl := hsource top (h.way htop)
  exact hbelow.eq (FileSystem.freeWay_of_hasDirectory hdirectory)

/-! ### Changes -/

/-- Directories that are made outside the source leave the copy under way. -/
theorem createDirectories_keeps (h : Underway fs target origin done t) (hdirectory : fs.HasDirectory origin)
    (htarget : fs.Anchored target) (habsolute : q.isAbsolute = target.isAbsolute)
    (hmoves : q.moves <+: target.moves ++ names.map .down)
    (hmisses : ∀ links, Relinks fs target origin done links →
      Misses fs target origin links names .directory) :
    Ends (FileSystem.createDirectories q) t (fun _ => Underway fs target origin done)
      (Underway fs target origin done) := by
  refine FileSystem.createDirectories_keeps ?_ (h.anchored (htarget.of_isAbsolute_eq habsolute)) h
  intro u v p directory name hu habsolute' hmoves' hlooksUp htakes hsets
  have houtside := hu.not_prefix hdirectory (hmisses _ hu.relinks)
    (hu.place_directory (habsolute'.trans habsolute) (hmoves'.trans hmoves) hlooksUp) htakes
  have hsame : v.links = u.links :=
    hsets.shows.links_same rfl (FileSystem.links_eq_none.mpr fun link hlink => by
      rw [htakes.1] at hlink
      cases hlink)
  exact hu.put hsets.shows houtside (fun _ => htakes.1) (hsame ▸ hu.relinks)

/-- So does a file that is written outside the source. -/
theorem put_file (h : Underway fs target origin done t) (hdirectory : fs.HasDirectory origin)
    (hq : target.GoesOn names q) (hmisses : Misses fs target origin t.links names .file)
    (hreaches : t.Reaches q loc) (htakes : t.Takes .file loc) {mode : Mode} {contents : Bytes}
    (hsets : Sets loc (.file mode contents) t u) : Underway fs target origin done u := by
  have houtside := h.not_prefix hdirectory hmisses (h.place_file hq hreaches) htakes
  have hsame := hsets.shows.links_same rfl (FileSystem.links_eq_none.mpr htakes.ne_link)
  exact h.put hsets.shows houtside (fun hnot => by cases hnot) (hsame ▸ h.relinks)

end Underway

/-! ## How far a copy gets -/

theorem quiet_entries (source : Path) (names : List Name) : Action.Quiet (entries source names) :=
  .bind .fileSystem fun _ => .attempt _ _

namespace Reached

variable {fs : FileSystem} {source target : Path} {done : Sequence} {names : List Name} {e : Entry}
  {s t : Session} {totals : CopyTotals}

theorem start : Reached fs source target [] fs := rfl

theorem concat (h : Reached fs source target done s.fs) {p : List Name × Entry}
    (hturn : Action.on (copyListed source target p) s.fs = (.ok (), t.fs)) :
    Reached fs source target (done ++ [p]) t.fs := by
  have hlogless : Action.Logless (copyListed source target p) := by
    refine .bind (Action.pervades_logless.copyEntry _ _ _ _) fun _ => .ite ?_ (.pure _)
    exact .bind (Action.pervades_logless.entries _ _) fun _ => .pure _
  rw [Reached, List.forM_eq_forM] at h ⊢
  rw [List.forM_append, List.forM_cons, List.forM_nil,
    Action.on_bind_of_ok (fun _ => .bind hlogless fun _ => .pure _) h,
    Action.on_bind_of_ok (fun _ => .pure _) hturn]
  rfl

/-- After an entry that is no directory, once this is copied. -/
theorem concat_of_ne (h : Reached fs source target done s.fs) (he : e.kind ≠ .directory)
    (hrun : copyEntry source target names e.kind s = (.ok totals, t)) :
    Reached fs source target (done ++ [(names, e)]) t.fs := by
  refine h.concat ?_
  rw [copyListed, if_neg he,
    Action.on_bind_of_ok (fun _ => .pure _) ((Action.pervades_logless.copyEntry _ _ _ _).of_run hrun)]
  rfl

/-- After a directory, once this is copied and can be listed. -/
theorem concat_directory (h : Reached fs source target done s.fs) (he : e.kind = .directory)
    (hrun : copyEntry source target names e.kind s = (.ok totals, t))
    (hlists : (entries source names t).1.isOk = true) :
    Reached fs source target (done ++ [(names, e)]) t.fs := by
  have hentries : Action.Logless (entries source names) := Action.pervades_logless.entries _ _
  obtain ⟨listed, u, hu⟩ := exists_of_isOk_run hlists
  have hlisted : Action.on (entries source names) t.fs = (.ok listed, t.fs) := by
    rw [hentries.of_run hu, ((quiet_entries source names).of_run hu).1]
  refine h.concat ?_
  rw [copyListed, if_pos he, Action.on_bind_of_ok (fun _ => .bind hentries fun _ => .pure _)
    ((Action.pervades_logless.copyEntry _ _ _ _).of_run hrun),
    Action.on_bind_of_ok (fun _ => .pure _) hlisted]
  rfl

end Reached

/-! ## One turn -/

section Turn

variable {fs : FileSystem} {source target : Path} {origin : Location} {done : Sequence}
  {names init : List Name} {name : Name} {s : Session}

theorem goesOn_destination (hfs : fs.Valid) {e : Entry} (he : fs.find? (origin ++ names) = some e) :
    target.GoesOn names (target.join (.ofNames names)) :=
  .join target fun name hname =>
    (hfs.tree.ordinary_of_find? he name (List.mem_append_right origin hname)).isDown

theorem goesOn_entry (hfs : fs.Valid) {e : Entry} (he : fs.find? (origin ++ names) = some e) :
    source.GoesOn names (entryPath source names) :=
  goesOn_entryPath source fun name hname =>
    (hfs.tree.ordinary_of_find? he name (List.mem_append_right origin hname)).isDown

theorem makeDirectory_keeps (hfs : fs.Valid) (h : Underway fs target origin done s.fs)
    (hdirectory : fs.HasDirectory origin) (htarget : fs.Anchored target) {mode : Mode}
    {entries : List (Name × Entry)} (he : fs.find? (origin ++ names) = some (.directory mode entries))
    (hmisses : ∀ links, Relinks fs target origin done links →
      Misses fs target origin links names .directory) :
    Ends (copyEntry source target names .directory) s (fun _ t => Underway fs target origin done t.fs)
      (SourceKept origin fs) := by
  have hgoesOn : target.GoesOn names (target.join (.ofNames names)) := goesOn_destination hfs he
  rw [copyEntry]
  exact .bind ((Action.ends_change (h.createDirectories_keeps hdirectory htarget hgoesOn.isAbsolute_eq
    (hgoesOn.moves_eq ▸ List.prefix_refl _) hmisses)).mono (fun _ _ ht => .pure ht) fun _ ht => ht.origin_eq)

/-- A file is put where the path of its destination leads. -/
theorem copyFile_puts (hfs : fs.Valid) (h : Underway fs target origin done s.fs)
    (hsource : fs.Anchored source) (htarget : fs.Anchored target) {e : Entry}
    (he : fs.find? (origin ++ names) = some e) :
    Ends (copyEntry source target names .file) s
      (fun _ t => ∃ loc mode contents, s.fs.Reaches (target.join (.ofNames names)) loc ∧
        s.fs.Takes .file loc ∧ Sets loc (.file mode contents) s.fs t.fs)
      (SourceKept origin fs) := by
  have hentry : source.GoesOn names (entryPath source names) := goesOn_entry hfs he
  have hdestination : target.GoesOn names (target.join (.ofNames names)) := goesOn_destination hfs he
  rw [copyEntry]
  refine .bind (Action.ends_tell fun t ht => ?_)
  rw [← ht] at h ⊢
  refine .bind ((Action.ends_change (FileSystem.copyFile_ends h.root
    (h.anchored (hsource.of_isAbsolute_eq hentry.isAbsolute_eq))
    (h.anchored (htarget.of_isAbsolute_eq hdestination.isAbsolute_eq)))).mono
    (fun _ u hcopied => .pure ?_) fun u hu => (congrArg (FileSystem.find? · origin) hu).trans h.origin_eq)
  obtain ⟨_, loc, _, _, _, -, -, hreaches, htakes, -, hsets⟩ := hcopied
  exact ⟨loc, _, _, hreaches, htakes, hsets⟩

/-- The link that is read is the one in the source. -/
theorem Underway.readLink_eq {t : FileSystem} (hfs : fs.Valid) (h : Underway fs target origin done t)
    (hanchored : fs.Anchored source)
    (hsource : ∀ loc, Guides fs origin t.links source source.moves loc → loc = origin)
    {e : Entry} (he : fs.find? (origin ++ (init ++ [name])) = some e) {held : Path}
    (hread : t.readLink (entryPath source (init ++ [name])) = .ok held) : e = .link held := by
  obtain ⟨x, hlookup, hread⟩ := exists_of_bind_eq_ok hread
  have hentry : source.GoesOn (init ++ [name]) (entryPath source (init ++ [name])) := goesOn_entry hfs he
  have hlast : (entryPath source (init ++ [name])).last.IsDown := by
    rw [last_entryPath]
    exact (hfs.tree.ordinary_of_find? he name (by simp)).isDown
  have hsteps : (entryPath source (init ++ [name])).steps =
      (source.moves ++ init.map .down) ++ [.down name] := by
    rw [Path.steps_of_isDown hlast, hentry.moves_eq]
    simp
  obtain ⟨loc, hfinds, hfind⟩ := FileSystem.finds_of_lookup
    (h.anchored (hanchored.of_isAbsolute_eq hentry.isAbsolute_eq)) hlookup
  rw [hsteps, h.beginning_eq hentry.isAbsolute_eq] at hfinds
  obtain ⟨directory, hway, -, rfl⟩ := hfinds.of_itself
  have hinit : t.HasDirectory (origin ++ init) := by
    rw [FileSystem.HasDirectory, h.find?_source]
    exact Course.hasDirectory_above he
  rw [h.eq_of_way hsource hinit hway, List.append_assoc, h.find?_source, he] at hfind
  obtain rfl := Option.some.inj hfind
  split at hread
  · rw [Except.ok.inj hread]
  · cases hread

/-- What the link holds is put under the name of its destination. -/
theorem copyLink_puts (hfs : fs.Valid) (h : Underway fs target origin done s.fs)
    (hdirectory : fs.HasDirectory origin) (htarget : fs.Anchored target) {e : Entry}
    (he : fs.find? (origin ++ (init ++ [name])) = some e)
    (hmisses : Misses fs target origin s.fs.links (init ++ [name]) .link) :
    Ends (copyEntry source target (init ++ [name]) .link) s
      (fun _ t => ∃ held directory last, s.fs.readLink (entryPath source (init ++ [name])) = .ok held ∧
        s.fs.LooksUp (target.join (.ofNames (init ++ [name]))) directory last ∧
        ¬ origin <+: directory ++ [last] ∧ Shows (directory ++ [last]) (.link held) s.fs t.fs)
      (SourceKept origin fs) := by
  have hgoesOn : target.GoesOn (init ++ [name]) (target.join (.ofNames (init ++ [name]))) :=
    goesOn_destination hfs he
  have hlast := h.anchored (htarget.of_isAbsolute_eq hgoesOn.isAbsolute_eq)
  have houtside {directory : Location} {last : Name}
      (hlooksUp : s.fs.LooksUp (target.join (.ofNames (init ++ [name]))) directory last)
      (htakes : s.fs.Takes .link (directory ++ [last])) : ¬ origin <+: directory ++ [last] := by
    obtain ⟨rfl, hway⟩ := h.way_of_looksUp hgoesOn hlooksUp
    exact h.not_prefix hdirectory hmisses (.link hway) htakes
  rw [copyEntry]
  suffices hcopy : Ends (copyLink (entryPath source (init ++ [name]))
      (target.join (.ofNames (init ++ [name])))) s
      (fun _ t => ∃ held directory last, s.fs.readLink (entryPath source (init ++ [name])) = .ok held ∧
        s.fs.LooksUp (target.join (.ofNames (init ++ [name]))) directory last ∧
        ¬ origin <+: directory ++ [last] ∧ Shows (directory ++ [last]) (.link held) s.fs t.fs)
      (SourceKept origin fs) from
    .bind (hcopy.mono (fun _ _ ht => .pure ht) fun _ => id)
  rw [copyLink]
  refine .bind (Action.ends_ask (fun held hheld => ?_) h.origin_eq)
  refine .bind (Action.ends_fileSystem ?_)
  split
  · refine .bind ((Action.ends_change (FileSystem.removeFile_ends h.current hlast)).mono
      (fun _ t hremoved => ?_) fun t ht => (congrArg (FileSystem.find? · origin) ht).trans h.origin_eq)
    obtain ⟨directory, last, hlooksUp, htakes, hclears, -⟩ := hremoved
    have hout := houtside hlooksUp htakes
    have hkept : t.fs.find? origin = fs.find? origin := (hclears.find?_eq origin hout).trans h.origin_eq
    refine .bind (Action.ends_tell fun u hu => ?_)
    rw [← hu] at hclears hkept
    have hanchored' : u.fs.Anchored (target.join (.ofNames (init ++ [name]))) := by
      rw [FileSystem.Anchored, hclears.current_eq]
      exact hlast
    refine (Action.ends_change (FileSystem.createLink_ends hanchored' held)).mono
      (fun _ v hcreated => ?_) fun v hv => (congrArg (FileSystem.find? · origin) hv).trans hkept
    obtain ⟨directory', last', hlooksUp', -, -, hsets⟩ := hcreated
    -- the name is looked up where it was before the removal
    obtain ⟨rfl, rfl⟩ := (hlooksUp'.keeps hclears.keeps).eq hlooksUp
    exact ⟨held, _, _, hheld, hlooksUp, hout, hclears.shows hsets.shows⟩
  · refine .bind (Action.ends_tell fun u hu => ?_)
    rw [← hu] at hlast
    refine (Action.ends_change (FileSystem.createLink_ends hlast held)).mono (fun _ v hcreated => ?_)
      fun v hv => ?_
    · obtain ⟨directory, last, hlooksUp, -, htakes, hsets⟩ := hcreated
      rw [hu] at hlooksUp htakes hsets
      exact ⟨held, _, _, hheld, hlooksUp, houtside hlooksUp htakes, hsets.shows⟩
    · rw [SourceKept, hv, hu]
      exact h.origin_eq

/-- A link that has been put outside the source has had its turn. -/
theorem Underway.put_link {t u : FileSystem} (hfs : fs.Valid) (h : Underway fs target origin done t)
    {link : Path} (he : fs.find? (origin ++ (init ++ [name])) = some (.link link)) {directory : Location}
    {last : Name} (hlooksUp : t.LooksUp (target.join (.ofNames (init ++ [name]))) directory last)
    (houtside : ¬ origin <+: directory ++ [last]) (hshows : Shows (directory ++ [last]) (.link link) t u) :
    Underway fs target origin (done ++ [(init ++ [name], .link link)]) u := by
  obtain ⟨rfl, hway⟩ := h.way_of_looksUp (goesOn_destination hfs he) hlooksUp
  refine h.put hshows houtside (fun hnot => by cases hnot) ?_
  rw [hshows.links_eq]
  exact .link h.relinks hway

end Turn

/-! ## The walk -/

/-- The names of a directory in front of those of what is in it. -/
def Sequence.under (names : List Name) (entries : Sequence) : Sequence :=
  entries.map fun p => (names ++ p.1, p.2)

theorem Sequence.under_append (names : List Name) (entries entries' : Sequence) :
    Sequence.under names (entries ++ entries') =
      Sequence.under names entries ++ Sequence.under names entries' :=
  List.map_append

/-- What is no directory is all that there is. -/
theorem Sequence.under_of_ne {names : List Name} {e : Entry} (he : e.kind ≠ .directory) :
    Sequence.under names e.everything = [(names, e)] := by
  cases e <;> simp_all [Sequence.under, Entry.everything, Entry.kind]

theorem Sequence.under_directory (names : List Name) (mode : Mode) (entries : List (Name × Entry)) :
    Sequence.under names (Entry.directory mode entries).everything =
      (names, .directory mode entries) :: Sequence.under names (Entry.everythingIn entries) := by
  simp [Sequence.under, Entry.everything]

theorem Sequence.under_child (names : List Name) (name : Name) (entries : Sequence) :
    Sequence.under names (entries.map fun p => (name :: p.1, p.2)) =
      Sequence.under (names ++ [name]) entries := by
  simp [Sequence.under]

section Walk

variable {fs : FileSystem} {source target : Path} {origin : Location} {done rest : Sequence}
  {names : List Name} {name : Name} {top e : Entry} {s : Session}

theorem entries_keeps (hfs : fs.Valid) (h : Underway fs target origin done s.fs)
    (hanchored : fs.Anchored source)
    (hsource : (Copy.entries source names s).1.isOk = true →
      ∀ loc, Guides fs origin s.fs.links source source.moves loc → loc = origin)
    {mode : Mode} {entries : List (Name × Entry)}
    (he : fs.find? (origin ++ names) = some (.directory mode entries)) :
    Ends (Copy.entries source names) s
      (fun es t => t = s ∧ es = entries.map fun p => (p.1, p.2.kind)) (SourceKept origin fs) := by
  refine .of_run (fun es t hrun => ?_) fun failure t hrun => ?_
  · rw [hrun] at hsource
    obtain ⟨_, u, hu, hrun⟩ := exists_of_bind_run hrun
    obtain ⟨rfl, rfl⟩ := Action.fileSystem_run hu
    obtain ⟨hes, rfl⟩ := Action.attempt_run hrun
    refine ⟨rfl, ?_⟩
    obtain ⟨m, found, hlookup, -, rfl⟩ := FileSystem.exists_of_list (Action.eq_ok_of_mapError hes)
    have hentry : source.GoesOn names (entryPath source names) := goesOn_entry hfs he
    obtain ⟨loc, hfinds, hfind⟩ := FileSystem.finds_of_lookup
      (h.anchored (hanchored.of_isAbsolute_eq hentry.isAbsolute_eq)) hlookup
    have hreaches := hfinds.reaches (by simp)
    rw [FileSystem.Reaches, h.beginning_eq hentry.isAbsolute_eq, hentry.moves_eq] at hreaches
    have hsame := (h.find?_source names).trans he
    rw [h.eq_of_way (hsource rfl) ⟨mode, entries, hsame⟩ hreaches, hsame] at hfind
    rw [(Entry.directory.inj (Option.some.inj hfind)).2]
  · exact ((quiet_entries source names).ends (P := fun u => u.find? origin = fs.find? origin)
      h.origin_eq).fails_of_run hrun

/-- What the walk below a directory keeps. -/
def WalkKeeps (fs : FileSystem) (source target : Path) (origin : Location) (depth : Nat)
    (names : List Name) : Prop :=
  ∀ (s : Session) (mode : Mode) (entries : List (Name × Entry)) (top : Entry) (done rest : Sequence),
    fs.find? origin = some top → fs.find? (origin ++ names) = some (.directory mode entries) →
    top.everything = done ++ (Sequence.under names (Entry.everythingIn entries) ++ rest) →
    Underway fs target origin done s.fs →
    ((Copy.entries source names s).1.isOk = true → Reached fs source target done s.fs ∧
      ∀ loc, Guides fs origin s.fs.links source source.moves loc → loc = origin) →
    Ends (copyBelow source target depth names) s
      (fun _ t => Underway fs target origin (done ++ Sequence.under names (Entry.everythingIn entries)) t.fs ∧
        Reached fs source target (done ++ Sequence.under names (Entry.everythingIn entries)) t.fs)
      (SourceKept origin fs)

theorem turn_of_everything (htop : fs.find? origin = some top)
    (horder : top.everything = done ++ (names, e) :: rest) (hreached : Reached fs source target done s.fs)
    {links : LinkTable} (hlinks : Relinks fs target origin done links) :
    Turn fs source target origin done names e links :=
  ⟨⟨top, rest, htop, horder⟩, ⟨_, hreached⟩, hlinks⟩

/-- A directory has its turn, and if it can be listed then the next one comes. -/
theorem copyDirectory_keeps (hfs : fs.Valid) (hspares : Spares fs source target origin)
    (htarget : fs.Anchored target) (htop : fs.find? origin = some top) (hdirectory : fs.HasDirectory origin)
    {mode : Mode} {entries : List (Name × Entry)}
    (he : fs.find? (origin ++ names) = some (.directory mode entries))
    (horder : top.everything = done ++ (names, .directory mode entries) :: rest)
    (h : Underway fs target origin done s.fs) (hreached : Reached fs source target done s.fs) :
    Ends (copyEntry source target names .directory) s
      (fun _ t => Underway fs target origin (done ++ [(names, .directory mode entries)]) t.fs ∧
        ((Copy.entries source names t).1.isOk = true →
          Reached fs source target (done ++ [(names, .directory mode entries)]) t.fs ∧
            ∀ loc, Guides fs origin t.fs.links source source.moves loc → loc = origin))
      (SourceKept origin fs) := by
  have hturn {links : LinkTable} (hlinks : Relinks fs target origin done links) :=
    turn_of_everything htop horder hreached hlinks
  have hmakes : Ends (copyEntry source target names .directory) s _ _ :=
    makeDirectory_keeps hfs h hdirectory htarget he fun _ hlinks =>
      hspares.copied _ _ _ _ (hturn hlinks) fun hfile => by cases hfile
  refine .of_run (fun here t hrun => ?_) fun _ t hrun => hmakes.fails_of_run hrun
  have ht := hmakes.ok_of_run hrun
  refine ⟨ht.other names rfl, fun hlists => ?_⟩
  have hreached' := hreached.concat_directory (e := .directory mode entries) rfl hrun hlists
  exact ⟨hreached', hspares.reads _ _ _ _ (hturn ht.relinks) (by simp [Entry.kind]) ⟨_, hreached'⟩⟩

/-- One turn of the loop keeps the source. -/
theorem copyTurn_keeps (hfs : fs.Valid) (hspares : Spares fs source target origin)
    (hanchored : fs.Anchored source) (htarget : fs.Anchored target) (htop : fs.find? origin = some top)
    (hdirectory : fs.HasDirectory origin) {depth : Nat}
    (he : fs.find? (origin ++ (names ++ [name])) = some e)
    (horder : top.everything = done ++ (Sequence.under (names ++ [name]) e.everything ++ rest))
    (h : Underway fs target origin done s.fs) (hreached : Reached fs source target done s.fs)
    (hwalk : WalkKeeps fs source target origin depth (names ++ [name])) (before : CopyTotals) :
    Ends (do
      let here ← copyEntry source target (names ++ [name]) e.kind
      let below ←
        if e.kind = Entry.Kind.directory then copyBelow source target depth (names ++ [name])
        else pure .zero
      return before + here + below) s
      (fun _ t => Underway fs target origin (done ++ Sequence.under (names ++ [name]) e.everything) t.fs ∧
        Reached fs source target (done ++ Sequence.under (names ++ [name]) e.everything) t.fs)
      (SourceKept origin fs) := by
  cases e with
  | file mode contents =>
    rw [Sequence.under_of_ne (by simp [Entry.kind])] at horder ⊢
    have hturn := turn_of_everything htop horder hreached h.relinks
    have hputs := copyFile_puts hfs h hanchored htarget he
    refine .bind (.of_run (fun here t hrun => .bind (.pure (.pure ?_)))
      fun _ t hrun => hputs.fails_of_run hrun)
    have hreached' := hreached.concat_of_ne (by simp [Entry.kind]) hrun
    obtain ⟨loc, m, c, hreaches, htakes, hsets⟩ := hputs.ok_of_run hrun
    have hmisses := hspares.copied _ _ _ _ hturn fun _ => ⟨_, hreached'⟩
    exact ⟨(h.put_file hdirectory (goesOn_destination hfs he) hmisses hreaches htakes hsets).other _ rfl,
      hreached'⟩
  | link held =>
    rw [Sequence.under_of_ne (by simp [Entry.kind])] at horder ⊢
    have hturn := turn_of_everything htop horder hreached h.relinks
    have hmisses := hspares.copied _ _ _ _ hturn fun hfile => by cases hfile
    have hputs : Ends (copyEntry source target (names ++ [name]) .link) s _ _ :=
      copyLink_puts hfs h hdirectory htarget he hmisses
    refine .bind (.of_run (fun here t hrun => .bind (.pure (.pure ?_)))
      fun _ t hrun => hputs.fails_of_run hrun)
    have hreached' := hreached.concat_of_ne (by simp [Entry.kind]) hrun
    obtain ⟨held', directory, last, hread, hlooksUp, houtside, hshows⟩ := hputs.ok_of_run hrun
    have hsource := hspares.reads _ _ _ _ hturn (by simp [Entry.kind]) ⟨_, hreached'⟩
    obtain rfl := Entry.link.inj (h.readLink_eq hfs hanchored hsource he hread)
    exact ⟨h.put_link hfs he hlooksUp houtside hshows, hreached'⟩
  | directory mode entries =>
    rw [Sequence.under_directory, List.cons_append] at horder
    refine .bind ((copyDirectory_keeps hfs hspares htarget htop hdirectory he horder h hreached).mono
      (fun _ t ht => ?_) fun _ => id)
    obtain ⟨ht, hlisted⟩ := ht
    rw [List.append_cons done] at horder
    rw [Sequence.under_directory, List.append_cons done]
    exact .bind ((hwalk t mode entries top _ rest htop he horder ht hlisted).mono (fun _ u hu => .pure hu)
      fun _ => id)

/-- The walk below a directory keeps the source. -/
theorem copyBelow_keeps (hfs : fs.Valid) (hspares : Spares fs source target origin)
    (hanchored : fs.Anchored source) (htarget : fs.Anchored target) (hdirectory : fs.HasDirectory origin)
    (depth : Nat) (names : List Name) : WalkKeeps fs source target origin depth names := by
  induction depth generalizing names with
  | zero => exact fun s mode entries top done rest _ _ _ h _ => .throw h.origin_eq
  | succ depth ih =>
    intro s mode entries top done rest htop he horder h hlisted
    rw [copyBelow]
    have hentries := entries_keeps hfs h hanchored (fun hlists => (hlisted hlists).2) he
    refine .bind (.of_run (fun es t hrun => ?_) fun _ t hrun => hentries.fails_of_run hrun)
    obtain ⟨rfl, rfl⟩ := hentries.ok_of_run hrun
    have hreached := (hlisted (by rw [hrun]; rfl)).1
    rw [List.foldlM_map]
    -- the entries that have had their turn are those in front
    refine (Ends.foldlM (fun early _ u => Underway fs target origin
      (done ++ Sequence.under names (Entry.everythingIn early)) u.fs ∧ Reached fs source target
      (done ++ Sequence.under names (Entry.everythingIn early)) u.fs) ?_ ?_).mono (fun _ _ hu => hu)
      fun _ => id
    · rw [Entry.everythingIn, Sequence.under, List.map_nil, List.append_nil]
      exact ⟨h, hreached⟩
    · rintro early ⟨name, e⟩ late rfl before u ⟨hu, hreached⟩
      have he' : fs.find? (origin ++ (names ++ [name])) = some e := by
        have hvalid : (Entry.directory mode (early ++ (name, e) :: late)).Valid := hfs.tree.find? he
        rw [← List.append_assoc, FileSystem.find?_append_singleton he]
        exact Entry.lookup_of_mem hvalid.distinct (by simp)
      have horder' : top.everything = done ++ Sequence.under names (Entry.everythingIn early) ++
          (Sequence.under (names ++ [name]) e.everything ++
            (Sequence.under names (Entry.everythingIn late) ++ rest)) := by
        rw [horder, List.append_cons, Entry.everythingIn_append, Entry.everythingIn_concat,
          Sequence.under_append, Sequence.under_append, Sequence.under_child]
        simp only [List.append_assoc]
      rw [Entry.everythingIn_concat, Sequence.under_append, Sequence.under_child, ← List.append_assoc]
      exact copyTurn_keeps hfs hspares hanchored htarget htop hdirectory he' horder' hu hreached (ih _) before

/-! ## The whole copy -/

/-- The copy is not refused, and does not end at the source itself, which is a directory and no link. -/
structure Starts (fs : FileSystem) (source target : Path) (origin : Location) : Prop where
  directory : ∃ mode entries, fs.lookup .itself source = .ok (.directory mode entries)
  admitted : ∃ goal, targetLocation fs target = .ok goal ∧ ¬ origin <+: goal

theorem walk_keeps (hfs : s.fs.Valid) (hsource : s.fs.Anchored source) (horigin : s.fs.MadeAt source origin)
    (hdirectory : s.fs.HasDirectory origin) (htarget : s.fs.Anchored target)
    (hspares : (∃ mode entries, s.fs.lookup .itself source = .ok (.directory mode entries)) →
      Spares s.fs source target origin) :
    Ends (walk source target) s
      (fun _ t => ∃ mode entries top, s.fs.lookup .itself source = .ok (.directory mode entries) ∧
        s.fs.find? origin = some top ∧ Underway s.fs target origin top.everything t.fs)
      (SourceKept origin s.fs) := by
  have hroot : s.fs.HasDirectory [] := .above hfs.current List.nil_prefix
  have hgoesOn : target.GoesOn [] (target.join (.ofNames [])) := .join target (by simp)
  have hanchored := htarget.of_isAbsolute_eq hgoesOn.isAbsolute_eq
  rw [walk]
  refine .bind (Action.ends_fileSystem (.bind (Action.ends_attempt (fun top htop => ?_) rfl)))
  have hlookup := Action.eq_ok_of_mapError htop
  obtain ⟨loc, hfinds, hfind⟩ := FileSystem.finds_of_lookup hsource hlookup
  cases top with
  | link link =>
    rw [Entry.kind, copyEntry]
    exact .bind (.bind (.of_false ((copyLink_of_top _ target).mono (fun _ _ h => h)
      fun t ht => congrArg (FileSystem.find? · origin) ht)))
  | file mode contents =>
    rw [Entry.kind, copyEntry]
    refine .bind (.bind (Action.ends_tell fun t ht => ?_))
    rw [← ht] at hroot hsource horigin hdirectory hanchored ⊢
    refine .bind ((Action.ends_change (FileSystem.copyFile_ends hroot hsource hanchored)).mono
      (fun _ u hcopied => ?_) fun u hu => congrArg (FileSystem.find? · origin) hu)
    obtain ⟨found, _, m, c, _, hfound, hfile, -⟩ := hcopied
    obtain rfl := hfound.eq horigin
    exact absurd hdirectory (FileSystem.not_hasDirectory_of_file hfile)
  | directory mode entries =>
    have hreaches := hfinds.reaches_of_hasDirectory ⟨mode, entries, hfind⟩
    obtain rfl := hreaches.eq horigin
    have hisDirectory : s.fs.isDirectory source = true := by
      rw [FileSystem.isDirectory, FileSystem.lookup_target_of_itself hlookup]
      rfl
    have hspares := hspares ⟨mode, entries, hlookup⟩
    have hself : Sequence.under [] (Entry.everythingIn entries) = Entry.everythingIn entries := by
      simp [Sequence.under]
    have horder : (Entry.directory mode entries).everything =
        [] ++ ([], .directory mode entries) :: (Sequence.under [] (Entry.everythingIn entries) ++ []) := by
      rw [hself, List.append_nil, List.nil_append, Entry.everything]
    have htop : s.fs.find? (loc ++ []) = some (.directory mode entries) := by rwa [List.append_nil]
    refine .bind ((copyDirectory_keeps hfs hspares htarget hfind hdirectory htop horder (.start hfs)
      .start).mono (fun _ t ht => ?_) fun _ => id)
    obtain ⟨ht, hlisted⟩ := ht
    rw [if_pos hisDirectory]
    refine .bind ((copyBelow_keeps hfs hspares hsource htarget hdirectory _ [] t mode entries _ _ [] hfind
      htop horder ht hlisted).mono (fun _ u hu => .pure ⟨mode, entries, _, hlookup, hfind, ?_⟩) fun _ => id)
    rw [hself] at hu
    exact hu.1

/-- A copy that spares the source, if it starts at all, leaves it as it was. -/
theorem copyTree_keeps (hfs : s.fs.Valid) (horigin : s.fs.Anchored source → s.fs.MadeAt source origin)
    (hdirectory : s.fs.HasDirectory origin)
    (hspares : Starts s.fs source target origin → Spares s.fs source target origin) :
    Ends (copyTree source target) s
      (fun _ t => Starts s.fs source target origin ∧ s.fs.Anchored target ∧
        ∃ top, s.fs.find? origin = some top ∧ Underway s.fs target origin top.everything t.fs)
      (SourceKept origin s.fs) := by
  rw [copyTree]
  refine .bind (Action.ends_tell fun t ht => ?_)
  rw [← ht] at hfs horigin hdirectory hspares ⊢
  refine .bind (Action.ends_ask (fun found hfound => ?_) rfl)
  obtain ⟨hsource, hmadeAt⟩ := FileSystem.madeAt_of_canonical hfs hfound
  obtain rfl := hmadeAt.eq (horigin hsource)
  refine .bind (Action.ends_ask (fun goal hgoal => ?_) rfl)
  obtain ⟨htarget, -⟩ := targetLocation_eq_settle hgoal
  by_cases hinside : found <+: goal
  · rw [if_pos (List.isPrefixOf_iff_prefix.mpr hinside)]
    exact .bind (.throw rfl)
  · rw [if_neg (by rwa [List.isPrefixOf_iff_prefix])]
    refine .bind ((walk_keeps hfs hsource hmadeAt hdirectory htarget fun htop =>
      hspares ⟨htop, goal, hgoal, hinside⟩).mono (fun totals u hwalked => ?_) fun _ => id)
    obtain ⟨mode, entries, top, hlookup, htop, hunderway⟩ := hwalked
    refine .bind (Action.ends_tell fun v hv => .pure ⟨⟨⟨mode, entries, hlookup⟩, goal, hgoal, hinside⟩,
      htarget, top, htop, ?_⟩)
    rwa [hv]

end Walk

/-! ## Checking the turns -/

section Check

variable {fs : FileSystem} {source target : Path} {origin : Location} {n : Nat}

/-- The links after the turn of an entry, if its place is found within so many steps. -/
def relink? (n : Nat) (fs : FileSystem) (target : Path) (links : LinkTable) :
    List Name × Entry → Option LinkTable
  | (names, .link held) =>
    (links.follow? n (fs.beginning target) (target.moves ++ names.dropLast.map .down)).map fun directory =>
      links.set (directory ++ [names.getLastD []]) held
  | _ => some links

theorem Relinks.eq_of_relink? {done : Sequence} {links links' : LinkTable}
    (h : Relinks fs target origin done links)
    (hrelink : done.foldlM (relink? n fs target) fs.links = some links') : links = links' := by
  induction h generalizing links' with
  | start => exact Option.some.inj hrelink
  | @link done links init name held directory _ way ih =>
    rw [List.foldlM_append] at hrelink
    obtain ⟨before, hbefore, hlast⟩ := Option.bind_eq_some_iff.mp hrelink
    obtain rfl := ih hbefore
    rw [List.foldlM_cons, relink?, List.dropLast_concat, List.getLastD_concat] at hlast
    obtain ⟨after, hafter, heq⟩ := Option.bind_eq_some_iff.mp hlast
    obtain ⟨found, hfound, rfl⟩ := Option.map_eq_some_iff.mp hafter
    rw [way.eq_of_follow? hfound]
    exact Option.some.inj heq
  | @other done links names e _ noLink ih =>
    rw [List.foldlM_append] at hrelink
    obtain ⟨before, hbefore, hlast⟩ := Option.bind_eq_some_iff.mp hrelink
    obtain rfl := ih hbefore
    cases e with
    | file mode contents => exact Option.some.inj hlast
    | directory mode entries => exact Option.some.inj hlast
    | link held => cases noLink

/-- The entries with the links that there are at their turns. -/
def turns? (n : Nat) (fs : FileSystem) (target : Path) (links : LinkTable) :
    Sequence → Option (List ((List Name × Entry) × LinkTable))
  | [] => some []
  | p :: rest => do
    let next ← relink? n fs target links p
    let later ← turns? n fs target next rest
    return (p, links) :: later

theorem exists_of_turns? {links : LinkTable} {done rest : Sequence} {p : List Name × Entry}
    {turns : List ((List Name × Entry) × LinkTable)}
    (h : turns? n fs target links (done ++ p :: rest) = some turns) :
    ∃ links', done.foldlM (relink? n fs target) links = some links' ∧ (p, links') ∈ turns := by
  induction done generalizing links turns with
  | nil =>
    obtain ⟨next, -, h⟩ := Option.bind_eq_some_iff.mp h
    obtain ⟨later, -, h⟩ := Option.bind_eq_some_iff.mp h
    refine ⟨links, rfl, ?_⟩
    rw [← Option.some.inj h]
    exact List.mem_cons_self
  | cons q done ih =>
    obtain ⟨next, hnext, h⟩ := Option.bind_eq_some_iff.mp h
    obtain ⟨later, hlater, h⟩ := Option.bind_eq_some_iff.mp h
    obtain ⟨links', hlinks', hmem⟩ := ih hlater
    refine ⟨links', ?_, ?_⟩
    · rw [List.foldlM_cons, hnext]
      exact hlinks'
    · rw [← Option.some.inj h]
      exact List.mem_cons_of_mem _ hmem

/-- All turns of a copy are among those that were computed. -/
theorem mem_of_turn {done : Sequence} {names : List Name} {e top : Entry} {links : LinkTable}
    {turns : List ((List Name × Entry) × LinkTable)} (h : Turn fs source target origin done names e links)
    (htop : fs.find? origin = some top) (hturns : turns? n fs target fs.links top.everything = some turns) :
    ((names, e), links) ∈ turns := by
  obtain ⟨⟨top', rest, htop', horder⟩, -, hrelinks⟩ := h
  rw [htop] at htop'
  obtain rfl := Option.some.inj htop'
  rw [horder] at hturns
  obtain ⟨links', hlinks', hmem⟩ := exists_of_turns? hturns
  rwa [hrelinks.eq_of_relink? hlinks']

/-- What is put at these names is found to be outside the source. -/
def missesCheck (n : Nat) (fs : FileSystem) (target : Path) (origin : Location) (links : LinkTable)
    (names : List Name) : Entry.Kind → Bool
  | .file => (links.follow? n (fs.beginning target) (target.moves ++ names.map .down)).any
      (!origin.isPrefixOf ·)
  | .link => (links.follow? n (fs.beginning target) (target.moves ++ names.dropLast.map .down)).any
      fun directory => !origin.isPrefixOf (directory ++ [names.getLastD []])
  | .directory => (target.moves ++ names.map Step.down).inits.all fun way =>
      match way.getLast? with
      | some (.down name) => (links.follow? n (fs.beginning target) way.dropLast).any fun above =>
          !origin.isPrefixOf (above ++ [name]) || (fs.find? (above ++ [name])).isSome
      | _ => true

theorem misses_of_check {links : LinkTable} {names : List Name} {kind : Entry.Kind}
    (h : missesCheck n fs target origin links names kind = true) :
    Misses fs target origin links names kind := by
  intro loc hplace htakes hinside
  rw [← List.isPrefixOf_iff_prefix] at hinside
  cases hplace with
  | file way =>
    obtain ⟨found, hfound, hout⟩ := (Option.any_eq_true _ _).mp h
    rw [← way.eq_of_follow? hfound, hinside] at hout
    cases hout
  | link way =>
    rw [missesCheck, List.dropLast_concat, List.getLastD_concat] at h
    obtain ⟨found, hfound, hout⟩ := (Option.any_eq_true _ _).mp h
    rw [← way.eq_of_follow? hfound, hinside] at hout
    cases hout
  | @directory _ steps name above begins way =>
    have hstep := List.all_eq_true.mp h _ (List.mem_inits _ _ |>.mpr begins)
    simp only [List.getLast?_concat, List.dropLast_concat] at hstep
    obtain ⟨found, hfound, hout⟩ := (Option.any_eq_true _ _).mp hstep
    rw [← way.eq_of_follow? hfound, htakes.1, hinside] at hout
    cases hout

/-- At each turn the source is found where it is, and the entry is put outside it. -/
def sparesCheck (n : Nat) (fs : FileSystem) (source target : Path) (origin : Location) : Bool :=
  (fs.find? origin).any fun top => (turns? n fs target fs.links top.everything).any fun turns =>
    turns.all fun ((names, e), links) =>
      (links.follow? n (fs.beginning source) source.moves == some origin) &&
        missesCheck n fs target origin links names e.kind

theorem spares_of_check (h : sparesCheck n fs source target origin = true) :
    Spares fs source target origin := by
  obtain ⟨top, htop, h⟩ := (Option.any_eq_true _ _).mp h
  obtain ⟨turns, hturns, h⟩ := (Option.any_eq_true _ _).mp h
  have hturn {done : Sequence} {names : List Name} {e : Entry} {links : LinkTable}
      (hturn : Turn fs source target origin done names e links) :=
    Bool.and_eq_true_iff.mp (List.all_eq_true.mp h _ (mem_of_turn hturn htop hturns))
  refine ⟨fun done names e links hat _ _ loc way => ?_,
    fun done names e links hat _ => misses_of_check (hturn hat).2⟩
  exact way.eq_of_follow? (by simpa using (hturn hat).1)

end Check

end Copy

end FileRoutes
