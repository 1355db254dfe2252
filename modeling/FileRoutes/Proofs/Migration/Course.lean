import FileRoutes.Proofs.FileSystem.Outcomes
import FileRoutes.Proofs.FileSystem.Trails
import FileRoutes.Proofs.Migration.Guard

/-!
# The course of a copy

What a copy does to the file system, be it that it succeeds or that it fails on the way, for a source
with links in it and a target with links in it or on the way to it.

## What has been copied

The target becomes the overlay of what it was and the source: at each relative place there is the
source's entry if there is one, and what the target had otherwise (`Entry.overlay`).  A directory of the
target that the source has too stays, with its mode.  `Copied` says this of some relative places, and
that nothing else has changed.  It is made to be put together: two parts that were copied one after the
other are one part that has been copied (`Copied.trans`).

## What the walk relies on

Each entry is found again by its path, and each destination too.  `Course` collects what makes them be
found where they were: the paths of source and target reach two directories, no entry of the source has
its place in the source itself, and where the target has a link in place of an entry of the source, that
entry is the same link.  Whatever has been copied, the rest of the walk finds this again
(`Course.copied`).

A copy that fails has not touched the source.
-/

namespace FileRoutes

/-- What is at a location after the copy: the source's entry if there is one, the old one otherwise.
A directory does not replace another one. -/
def Entry.overlay : Option Entry → Option Entry → Option Entry
  | none, old => old
  | some (.directory _ _), some (.directory mode _) => some (.directory mode [])
  | some (.directory _ _), _ => some .emptyDirectory
  | some e, _ => some e

/-- Copying once more changes nothing. -/
theorem Entry.overlay_overlay (new old : Option Entry) :
    Entry.overlay new (Entry.overlay new old) = Entry.overlay new old := by
  cases new with
  | none => rfl
  | some e =>
    cases e with
    | file mode contents => rfl
    | link target => rfl
    | directory mode entries =>
      cases old with
      | none => rfl
      | some e => cases e <;> rfl

theorem Entry.overlay_of_not_directory {e : Entry} (h : e.isDirectory = false) (old : Option Entry) :
    Entry.overlay (some e) old = some e := by
  cases e with
  | file mode contents => rfl
  | link target => rfl
  | directory mode entries => cases h

/-- A link is that of the source, or an old one. -/
theorem Entry.overlay_eq_link {new old : Option Entry} {link : Path}
    (h : Entry.overlay new old = some (.link link)) :
    new = some (.link link) ∨ old = some (.link link) := by
  cases new with
  | none => exact Or.inr h
  | some e =>
    cases e with
    | file mode contents => cases h
    | link target => exact Or.inl h
    | directory mode entries =>
      cases old with
      | none => cases h
      | some e => cases e <;> cases h

theorem Entry.isDirectory_bare (e : Entry) : e.bare.isDirectory = e.isDirectory := by
  cases e <;> rfl

theorem Entry.bare_of_not_directory {e : Entry} (h : e.isDirectory = false) : e.bare = e := by
  cases e with
  | file mode contents => rfl
  | link target => rfl
  | directory mode entries => cases h

/-! ## Counting -/

namespace CopyTotals

/-- One entry of a kind. -/
def one : Entry.Kind → CopyTotals
  | .directory => ⟨1, 0, 0⟩
  | .file => ⟨0, 1, 0⟩
  | .link => ⟨0, 0, 1⟩

theorem add_def (t u : CopyTotals) :
    t + u = ⟨t.directories + u.directories, t.files + u.files, t.links + u.links⟩ := rfl

theorem add_assoc (t u v : CopyTotals) : t + u + v = t + (u + v) := by
  simp only [add_def, Nat.add_assoc]

theorem add_zero (t : CopyTotals) : t + zero = t := rfl

theorem zero_add (t : CopyTotals) : zero + t = t := by
  simp only [add_def, zero, Nat.zero_add]

end CopyTotals

mutual

/-- How many entries there are from an entry on down. -/
def Entry.census : Entry → CopyTotals
  | .directory _ entries => .one .directory + Entry.censusOf entries
  | .file .. => .one .file
  | .link _ => .one .link

/-- How many entries there are from the entries of a directory on down. -/
def Entry.censusOf : List (Name × Entry) → CopyTotals
  | [] => .zero
  | (_, e) :: rest => Entry.census e + Entry.censusOf rest

end

theorem Entry.censusOf_concat (entries : List (Name × Entry)) (p : Name × Entry) :
    Entry.censusOf (entries ++ [p]) = Entry.censusOf entries + p.2.census := by
  induction entries with
  | nil =>
    show p.2.census + .zero = .zero + p.2.census
    rw [CopyTotals.add_zero, CopyTotals.zero_add]
  | cons q entries ih =>
    rw [List.cons_append, Entry.censusOf, Entry.censusOf, ih, CopyTotals.add_assoc]

namespace Copy

open FileSystem (Touches Shows Makes Clears)

/-! ## What has been copied -/

/-- At this location below the target the overlay of what was there is found. -/
def Overlaid (origin goal : Location) (fs fs' : FileSystem) (below : Location) : Prop :=
  fs'.view (goal ++ below) = Entry.overlay (fs.view (origin ++ below)) (fs.view (goal ++ below))

/-- Both trees have an entry at the relative place, and only one of the two is a directory. -/
def Clash (fs : FileSystem) (origin goal : Location) (below : Location) : Prop :=
  ∃ e old, fs.view (origin ++ below) = some e ∧ fs.view (goal ++ below) = some old ∧
    e.isDirectory ≠ old.isDirectory

/-- The entries of the source at these relative places have been copied, and nothing else has
changed. -/
structure Copied (origin goal : Location) (part : List Name → Prop) (fs fs' : FileSystem) : Prop where
  touches : Touches (fun l => ∃ below e, part below ∧ fs.find? (origin ++ below) = some e ∧
    l = goal ++ below ∧ ¬ origin <+: l) fs fs'
  overlaid : ∀ below, part below → Overlaid origin goal fs fs' below
  agrees : ∀ below, part below → ¬ Clash fs origin goal below
  valid : fs.root.Valid → fs'.root.Valid

namespace Copied

variable {fs fs' fs'' : FileSystem} {origin goal : Location} {part part' : List Name → Prop}
  {below : List Name}

/-- The source is as it was. -/
theorem find?_source (h : Copied origin goal part fs fs') (below : List Name) :
    fs'.find? (origin ++ below) = fs.find? (origin ++ below) :=
  h.touches.find?_eq _ fun _ ⟨_, _, _, _, _, hl⟩ hprefix =>
    hl ((List.prefix_append origin below).trans hprefix)

theorem find?_origin (h : Copied origin goal part fs fs') : fs'.find? origin = fs.find? origin := by
  have hsame := h.find?_source []
  rwa [List.append_nil] at hsame

theorem view_source (h : Copied origin goal part fs fs') (below : List Name) :
    fs'.view (origin ++ below) = fs.view (origin ++ below) := by
  rw [FileSystem.view, h.find?_source, FileSystem.view]

/-- Other places of the target are as they were. -/
theorem view_of_not_part (h : Copied origin goal part fs fs') (hbelow : ¬ part below) :
    fs'.view (goal ++ below) = fs.view (goal ++ below) := by
  refine h.touches.view_eq _ ?_
  rintro ⟨below', e, hpart, -, heq, -⟩
  rw [List.append_cancel_left heq] at hbelow
  exact hbelow hpart

/-- Before anything has been copied. -/
theorem none (fs : FileSystem) : Copied origin goal (fun _ => False) fs fs :=
  ⟨.refl _ fs, fun _ h => h.elim, fun _ h => h.elim, id⟩

/-- Two parts that are copied one after the other. -/
theorem trans (h : Copied origin goal part fs fs') (h' : Copied origin goal part' fs' fs'') :
    Copied origin goal (fun b => part b ∨ part' b) fs fs'' where
  touches := by
    refine (h.touches.mono ?_).trans (h'.touches.mono ?_)
    · rintro l ⟨b, e, hpart, hfind, hl, hout⟩
      exact ⟨b, e, Or.inl hpart, hfind, hl, hout⟩
    · rintro l ⟨b, e, hpart, hfind, hl, hout⟩
      exact ⟨b, e, Or.inr hpart, (h.find?_source b) ▸ hfind, hl, hout⟩
  overlaid b hb := by
    rw [Overlaid]
    by_cases hpart : part b
    · have hfirst := h.overlaid b hpart
      rw [Overlaid] at hfirst
      by_cases hpart' : part' b
      · rw [h'.overlaid b hpart', h.view_source, hfirst, Entry.overlay_overlay]
      · rw [h'.view_of_not_part hpart', hfirst]
    · rw [h'.overlaid b (hb.resolve_left hpart), h.view_source, h.view_of_not_part hpart]
  agrees b hb := by
    by_cases hpart : part b
    · exact h.agrees b hpart
    · have hlater := h'.agrees b (hb.resolve_left hpart)
      rwa [Clash, h.view_source, h.view_of_not_part hpart] at hlater
  valid hvalid := h'.valid (h.valid hvalid)

/-- Where the source has nothing, nothing has to be done. -/
theorem extend (h : Copied origin goal part fs fs') (hpart : ∀ b, part b → part' b)
    (hnone : ∀ b, part' b → ¬ part b → fs.find? (origin ++ b) = Option.none) :
    Copied origin goal part' fs fs' where
  touches := h.touches.mono fun l ⟨b, e, hb, hl⟩ => ⟨b, e, hpart b hb, hl⟩
  overlaid b hb := by
    by_cases hb' : part b
    · exact h.overlaid b hb'
    · rw [Overlaid, h.view_of_not_part hb', FileSystem.view_eq_none_iff.mpr (hnone b hb hb')]
      rfl
  agrees b hb := by
    by_cases hb' : part b
    · exact h.agrees b hb'
    · rintro ⟨e, old, he, -⟩
      rw [FileSystem.view_eq_none_iff.mpr (hnone b hb hb')] at he
      cases he
  valid := h.valid

end Copied

/-! ## What the walk relies on -/

theorem goesOn_entryPath (source : Path) {names : List Name} (hnames : ∀ name ∈ names, name.IsDown) :
    source.GoesOn names (entryPath source names) := by
  induction names using List.reverseRecOn with
  | nil => exact .refl source
  | append_singleton names name ih =>
    rw [entryPath, List.foldl_append]
    exact (ih fun n hn => hnames n (List.mem_append_left _ hn)).child
      (hnames name (List.mem_append_right _ (List.mem_singleton_self name)))

theorem entryPath_concat (source : Path) (init : List Name) (name : Name) :
    entryPath source (init ++ [name]) = (entryPath source init).child name := by
  rw [entryPath, List.foldl_append]
  rfl

theorem last_entryPath (source : Path) (init : List Name) (name : Name) :
    (entryPath source (init ++ [name])).last = name := by
  rw [entryPath_concat]
  rfl

/-- Source and target are found by their paths, and what is copied does not get in the way of what is
still to be copied. -/
structure Course (fs : FileSystem) (source target : Path) (origin goal : Location) : Prop where
  current : fs.HasDirectory fs.current.location
  sourceAnchored : fs.Anchored source
  sourceReaches : fs.Reaches source origin
  sourceDirectory : fs.HasDirectory origin
  sourceValid : ∀ e, fs.find? origin = some e → e.Valid
  targetAnchored : fs.Anchored target
  targetReaches : fs.Reaches target goal
  targetDirectory : fs.HasDirectory goal
  /-- No entry of the source has its place in the source, but for directories that are there already. -/
  outside : ∀ below e, fs.find? (origin ++ below) = some e → origin <+: goal ++ below →
    e.isDirectory = true ∧ fs.HasDirectory (goal ++ below)
  /-- A link in the place of an entry of the source is the same link. -/
  sameLinks : ∀ below e link, fs.find? (origin ++ below) = some e →
    fs.find? (goal ++ below) = some (.link link) → e = .link link

/-- The directory at this place of the source is listed by its path. -/
structure Listable (fs : FileSystem) (source : Path) (origin : Location) (names : List Name) :
    Prop where
  askable : (entryPath source names).Askable
  short : ∀ name ∈ names, name.length ≤ FileSystem.nameLimit
  readable : ∀ mode entries, fs.find? (origin ++ names) = some (.directory mode entries) →
    mode.read = true
  reachable : ∀ init name, names = init ++ [name] → fs.Open (origin ++ init)

namespace Course

variable {fs fs' : FileSystem} {source target : Path} {origin goal : Location}
  {part : List Name → Prop} {names init : List Name} {name : Name} {e : Entry}

/-- What has been copied leaves the course of the copy. -/
theorem copied (h : Course fs source target origin goal) (hc : Copied origin goal part fs fs') :
    Course fs' source target origin goal where
  current := by
    rw [hc.touches.keeps.current_eq]
    exact hc.touches.keeps.hasDirectory h.current
  sourceAnchored := hc.touches.keeps.anchored h.sourceAnchored
  sourceReaches := hc.touches.keeps.reaches h.sourceReaches h.sourceDirectory
  sourceDirectory := hc.touches.keeps.hasDirectory h.sourceDirectory
  sourceValid e he := h.sourceValid e (hc.find?_origin ▸ he)
  targetAnchored := hc.touches.keeps.anchored h.targetAnchored
  targetReaches := hc.touches.keeps.reaches h.targetReaches h.targetDirectory
  targetDirectory := hc.touches.keeps.hasDirectory h.targetDirectory
  outside below e he hprefix := by
    rw [hc.find?_source] at he
    exact (h.outside below e he hprefix).imp_right hc.touches.keeps.hasDirectory
  sameLinks below e link he hlink := by
    rw [hc.find?_source] at he
    by_cases hpart : part below
    · rw [← FileSystem.view_eq_link_iff, hc.overlaid below hpart] at hlink
      rcases Entry.overlay_eq_link hlink with hnew | hold
      · rw [FileSystem.view_eq_link_iff, he] at hnew
        exact Option.some.inj hnew
      · exact h.sameLinks below e link he (FileSystem.view_eq_link_iff.mp hold)
    · rw [← FileSystem.view_eq_link_iff, hc.view_of_not_part hpart,
        FileSystem.view_eq_link_iff] at hlink
      exact h.sameLinks below e link he hlink

theorem root (h : Course fs source target origin goal) : fs.HasDirectory [] :=
  h.current.above List.nil_prefix

/-! ### Names and paths -/

/-- The names that lead to an entry of the source are ordinary. -/
theorem ordinary (h : Course fs source target origin goal)
    (he : fs.find? (origin ++ names) = some e) : ∀ name ∈ names, name.Ordinary := by
  rw [FileSystem.find?, Entry.find?_append] at he
  obtain ⟨top, htop, he⟩ := Option.bind_eq_some_iff.mp he
  exact (h.sourceValid top htop).ordinary_of_find? he

theorem isDown (h : Course fs source target origin goal) (he : fs.find? (origin ++ names) = some e) :
    ∀ name ∈ names, name.IsDown :=
  fun name hname => (h.ordinary he name hname).isDown

theorem goesOn_entry (h : Course fs source target origin goal)
    (he : fs.find? (origin ++ names) = some e) : source.GoesOn names (entryPath source names) :=
  goesOn_entryPath source (h.isDown he)

theorem goesOn_destination (h : Course fs source target origin goal)
    (he : fs.find? (origin ++ names) = some e) :
    target.GoesOn names (target.join (.ofNames names)) :=
  .join target (h.isDown he)

/-- The directory above an entry of the source. -/
theorem hasDirectory_above (he : fs.find? (origin ++ (init ++ [name])) = some e) :
    fs.HasDirectory (origin ++ init) := by
  rw [← List.append_assoc] at he
  exact .of_find?_append he

/-- The path of an entry of the source leads to it. -/
theorem madeAt_entry (h : Course fs source target origin goal)
    (he : fs.find? (origin ++ names) = some e) (hlink : ∀ link, e ≠ .link link) :
    fs.MadeAt (entryPath source names) (origin ++ names) := by
  refine h.sourceReaches.madeAt.goesOn (h.goesOn_entry he) ?_
  rcases List.eq_nil_or_concat names with rfl | ⟨init, name, rfl⟩
  · rw [List.append_nil]
    exact .done origin
  · rw [List.concat_eq_append] at he ⊢
    refine FileSystem.freeWay_concat (hasDirectory_above he) fun link hfind => ?_
    rw [hfind] at he
    exact hlink link (Option.some.inj he).symm

/-- The path of the destination of an entry leads to its place in the target. -/
theorem madeAt_destination (h : Course fs source target origin goal)
    (habove : fs.HasDirectory (goal ++ init)) (he : fs.find? (origin ++ (init ++ [name])) = some e)
    (hlink : ∀ link, e ≠ .link link) :
    fs.MadeAt (target.join (.ofNames (init ++ [name]))) (goal ++ (init ++ [name])) :=
  h.targetReaches.madeAt.goesOn (h.goesOn_destination he)
    (FileSystem.freeWay_concat habove fun link hfind => hlink link (h.sameLinks _ e link he hfind))

/-- The destination of an entry of the source is outside it, if it is no directory. -/
theorem not_prefix (h : Course fs source target origin goal)
    (he : fs.find? (origin ++ names) = some e) (hfile : e.isDirectory = false) :
    ¬ origin <+: goal ++ names := by
  intro hprefix
  rw [(h.outside names e he hprefix).1] at hfile
  cases hfile

/-- Passing the destination of an entry, one only meets what is there, but for the destination. -/
theorem occupied_of_passes (h : Course fs source target origin goal)
    (habove : fs.HasDirectory (goal ++ init)) (he : fs.find? (origin ++ (init ++ [name])) = some e)
    (hlink : ∀ link, e ≠ .link link) {l : Location}
    (hl : fs.Passes (target.join (.ofNames (init ++ [name]))) l) :
    fs.HasDirectory l ∨ l = goal ++ (init ++ [name]) := by
  obtain ⟨way, hprefix, hway⟩ := hl
  have hgoesOn := h.goesOn_destination he
  rw [FileSystem.beginning_of_isAbsolute_eq hgoesOn.isAbsolute_eq] at hway
  rw [hgoesOn.moves_eq] at hprefix
  rcases List.prefix_or_prefix_of_prefix hprefix (List.prefix_append target.moves _) with
    hprefix' | ⟨rest, rfl⟩
  · exact Or.inl (h.targetReaches.hasDirectory_of_prefix h.targetDirectory hprefix' hway)
  · rw [List.prefix_append_right_inj] at hprefix
    obtain ⟨below, hbelow, rfl⟩ := List.prefix_map_iff.mp hprefix
    have hrest := hway.right h.targetReaches
    rcases List.prefix_concat_iff.mp hbelow with rfl | hbelow
    · exact Or.inr (hrest.eq (FileSystem.freeWay_concat habove
        fun link hfind => hlink link (h.sameLinks _ e link he hfind)))
    · have hdirectory : fs.HasDirectory (goal ++ below) :=
        habove.above ((List.prefix_append_right_inj goal).mpr hbelow)
      rw [hrest.eq (FileSystem.freeWay_of_hasDirectory hdirectory)]
      exact Or.inl hdirectory

end Course

/-! ## One entry -/

section Entry

variable {fs fs' : FileSystem} {source target : Path} {origin goal : Location}
  {names init : List Name} {name : Name} {e : Entry}

/-- A file or a link has been copied when it is seen at its place. -/
theorem Copied.of_shows (h : Course fs source target origin goal)
    (he : fs.find? (origin ++ names) = some e) (hfile : e.isDirectory = false)
    (hshows : Shows (goal ++ names) e fs fs') (hvalid : fs.root.Valid → fs'.root.Valid) :
    Copied origin goal (· = names) fs fs' where
  touches := (hshows.touches fun link hlink => h.sameLinks names e link he hlink).mono fun l hl =>
    ⟨names, e, rfl, he, hl, hl ▸ h.not_prefix he hfile⟩
  overlaid below hbelow := by
    subst hbelow
    rw [Overlaid, hshows.view_eq, if_pos rfl, FileSystem.view, he, Option.map_some,
      Entry.bare_of_not_directory hfile, Entry.overlay_of_not_directory hfile]
  agrees below hbelow := by
    subst hbelow
    rintro ⟨e', old, he', hold, hne⟩
    rw [FileSystem.view, he, Option.map_some, Option.some.injEq] at he'
    rw [← he', Entry.isDirectory_bare, hfile] at hne
    obtain ⟨x, hx, rfl⟩ := Option.map_eq_some_iff.mp hold
    rw [Entry.isDirectory_bare] at hne
    obtain ⟨mode, entries, rfl⟩ := Entry.isDirectory_iff.mp (by simpa using hne.symm)
    exact hshows.free ⟨mode, entries, hx⟩
  valid := hvalid

/-- A directory has been copied when it has been made at its place. -/
theorem Copied.of_makes (h : Course fs source target origin goal)
    (hdirectory : fs.HasDirectory (origin ++ names)) (hmakes : Makes (· = goal ++ names) fs fs')
    (hmade : fs'.HasDirectory (goal ++ names)) : Copied origin goal (· = names) fs fs' := by
  obtain ⟨mode, entries, he⟩ := hdirectory
  obtain ⟨m, hview⟩ := FileSystem.hasDirectory_iff_view.mp hmade
  refine ⟨hmakes.touches.mono ?_, fun below hbelow => ?_, fun below hbelow => ?_, fun hvalid => ?_⟩
  · rintro l ⟨rfl, hnone⟩
    refine ⟨names, _, rfl, he, rfl, fun hprefix => ?_⟩
    exact FileSystem.not_hasDirectory_of_none hnone (h.outside names _ he hprefix).2
  · subst hbelow
    rw [Overlaid, FileSystem.view_eq_directory_iff.mpr ⟨entries, he⟩]
    rcases hmakes.view_eq (goal ++ below) with heq | ⟨hnone, hempty⟩
    · rw [← heq, hview]
      rfl
    · rw [hnone, hempty]
      rfl
  · subst hbelow
    rintro ⟨e, old, he', hold, hne⟩
    rw [FileSystem.view_eq_directory_iff.mpr ⟨entries, he⟩, Option.some.injEq] at he'
    rcases hmakes.view_eq (goal ++ below) with heq | ⟨hnone, -⟩
    · rw [← heq, hview, Option.some.injEq] at hold
      rw [← he', ← hold] at hne
      exact hne rfl
    · rw [hnone] at hold
      cases hold
  · refine hmakes.valid (fun l hl n hn => ?_) hvalid
    subst hl
    obtain ⟨m', es, hgoal⟩ := h.targetDirectory
    rcases List.mem_append.mp hn with hn | hn
    · exact hvalid.ordinary_of_find? hgoal n hn
    · exact h.ordinary he n hn

section Run

variable {s : Session}

/-- A failure that left the source as it was. -/
def SourceKept (origin : Location) (fs : FileSystem) (t : Session) : Prop :=
  t.fs.find? origin = fs.find? origin

theorem SourceKept.of_copied {part : List Name → Prop} {t u : Session}
    (hc : Copied origin goal part fs t.fs) (hu : SourceKept origin t.fs u) :
    SourceKept origin fs u :=
  hu.trans hc.find?_origin

theorem copyDirectory_ends (h : Course s.fs source target origin goal)
    (habove : s.fs.HasDirectory (goal ++ init))
    (hdirectory : s.fs.HasDirectory (origin ++ (init ++ [name]))) :
    Ends (copyEntry source target (init ++ [name]) .directory) s
      (fun totals t => totals = .one .directory ∧
        Copied origin goal (· = init ++ [name]) s.fs t.fs ∧
        t.fs.HasDirectory (goal ++ (init ++ [name])))
      (SourceKept origin s.fs) := by
  obtain ⟨mode, entries, he⟩ := hdirectory
  have hnolink : ∀ link, Entry.directory mode entries ≠ .link link := fun link heq => by cases heq
  have hgoesOn := h.goesOn_destination he
  have hanchored := h.targetAnchored.of_isAbsolute_eq hgoesOn.isAbsolute_eq
  -- on the way only the destination itself can be missing
  have hplaces {t : FileSystem} (hmakes : Makes (s.fs.Passes (target.join (.ofNames (init ++ [name]))))
      s.fs t) : Makes (· = goal ++ (init ++ [name])) s.fs t :=
    hmakes.mono fun l hl hnone => (h.occupied_of_passes habove he hnolink hl).resolve_left
      (FileSystem.not_hasDirectory_of_none hnone)
  rw [copyEntry]
  refine .bind ((Action.ends_change
    (FileSystem.createDirectories_ends h.current hanchored)).mono (fun _ t ⟨hmakes, harrives⟩ => ?_)
    fun t hmakes => ?_)
  · obtain ⟨loc, hreaches, hmade⟩ := harrives
    have hmadeAt := hmakes.sameLinks.madeAt (h.madeAt_destination habove he hnolink)
    obtain rfl := hreaches.eq hmadeAt
    exact .pure ⟨rfl, .of_makes h ⟨mode, entries, he⟩ (hplaces hmakes) hmade, hmade⟩
  · refine (hplaces hmakes).touches.find?_eq origin ?_
    rintro l ⟨rfl, hnone⟩ hprefix
    exact FileSystem.not_hasDirectory_of_none hnone (h.outside _ _ he hprefix).2

theorem copyFile_ends (h : Course s.fs source target origin goal)
    (habove : s.fs.HasDirectory (goal ++ init)) {mode : Mode} {contents : Bytes}
    (he : s.fs.find? (origin ++ (init ++ [name])) = some (.file mode contents)) :
    Ends (copyEntry source target (init ++ [name]) .file) s
      (fun totals t => totals = .one .file ∧ Copied origin goal (· = init ++ [name]) s.fs t.fs)
      (SourceKept origin s.fs) := by
  have hnolink : ∀ link, Entry.file mode contents ≠ .link link := fun link heq => by cases heq
  rw [copyEntry]
  refine .bind (Action.ends_tell fun t ht => ?_)
  rw [← ht] at h habove he ⊢
  refine .bind ((Action.ends_change (FileSystem.copyFile_ends h.root
    (h.sourceAnchored.of_isAbsolute_eq (h.goesOn_entry he).isAbsolute_eq)
    (h.targetAnchored.of_isAbsolute_eq (h.goesOn_destination he).isAbsolute_eq))).mono
    (fun _ u hcopied => .pure ?_) fun u hu => congrArg (FileSystem.find? · origin) hu)
  obtain ⟨found, loc, m, c, copied, hfound, hfile, hloc, -, hcopied, hsets⟩ := hcopied
  obtain rfl := hfound.eq (h.madeAt_entry he hnolink)
  obtain rfl := hloc.eq (h.madeAt_destination habove he hnolink)
  have hne : origin ++ (init ++ [name]) ≠ goal ++ (init ++ [name]) := fun heq =>
    h.not_prefix he rfl (heq ▸ List.prefix_append origin _)
  rw [he] at hfile
  obtain ⟨rfl, rfl⟩ := Entry.file.inj (Option.some.inj hfile)
  obtain rfl := hcopied hne
  refine ⟨rfl, .of_shows h he rfl hsets.shows fun hvalid => ?_⟩
  rw [hsets.eq, ← List.append_assoc]
  exact hvalid.put (.file _ _) (h.ordinary he name (by simp))

/-- The link that is read is the one in the source. -/
theorem Course.readLink_eq_ok (h : Course fs source target origin goal)
    (he : fs.find? (origin ++ (init ++ [name])) = some e) {link : Path}
    (hread : fs.readLink (entryPath source (init ++ [name])) = .ok link) : e = .link link := by
  obtain ⟨x, hlookup, hread⟩ := exists_of_bind_eq_ok hread
  have hgoesOn := h.goesOn_entry he
  have hlast : (entryPath source (init ++ [name])).last.IsDown := by
    rw [last_entryPath]
    exact h.isDown he name (by simp)
  have hsteps : (entryPath source (init ++ [name])).steps =
      (source.moves ++ init.map .down) ++ [.down name] := by
    rw [Path.steps_of_isDown hlast, hgoesOn.moves_eq]
    simp
  obtain ⟨loc, hfinds, hfind⟩ := FileSystem.finds_of_lookup
    (h.sourceAnchored.of_isAbsolute_eq hgoesOn.isAbsolute_eq) hlookup
  rw [hsteps, FileSystem.beginning_of_isAbsolute_eq hgoesOn.isAbsolute_eq] at hfinds
  obtain ⟨directory, hway, -, rfl⟩ := hfinds.of_itself
  have hinit := FileSystem.freeWay_of_hasDirectory (hasDirectory_above he)
  rw [hway.eq (h.sourceReaches.free.append hinit), List.append_assoc, he] at hfind
  obtain rfl := Option.some.inj hfind
  split at hread
  · rw [Except.ok.inj hread]
  · cases hread

/-- The last name of the destination of an entry is looked up in the directory above. -/
theorem Course.eq_of_looksUp (h : Course fs source target origin goal)
    (habove : fs.HasDirectory (goal ++ init)) (he : fs.find? (origin ++ (init ++ [name])) = some e)
    {directory : Location} {last : Name}
    (hlooksUp : fs.LooksUp (target.join (.ofNames (init ++ [name]))) directory last) :
    directory ++ [last] = goal ++ (init ++ [name]) := by
  obtain ⟨rfl, rfl⟩ := hlooksUp.eq_of_goesOn h.targetReaches.madeAt habove (h.goesOn_destination he)
  rw [List.append_assoc]

theorem copyLink_ends (h : Course s.fs source target origin goal)
    (habove : s.fs.HasDirectory (goal ++ init)) {link : Path}
    (he : s.fs.find? (origin ++ (init ++ [name])) = some (.link link)) :
    Ends (copyEntry source target (init ++ [name]) .link) s
      (fun totals t => totals = .one .link ∧ Copied origin goal (· = init ++ [name]) s.fs t.fs)
      (SourceKept origin s.fs) := by
  have hgoesOn := h.goesOn_destination he
  have hanchored := h.targetAnchored.of_isAbsolute_eq hgoesOn.isAbsolute_eq
  -- the new link is made in a state in which the old entry may have been removed
  have hcreate {t : Session} {held : Path} (hheld : held = link)
      (hback : FileSystem.Keeps t.fs s.fs) (htarget : t.fs.Anchored (target.join (.ofNames (init ++ [name]))))
      (hshows : ∀ fs', Shows (goal ++ (init ++ [name])) (.link link) t.fs fs' →
        Shows (goal ++ (init ++ [name])) (.link link) s.fs fs')
      (hvalid : s.fs.root.Valid → t.fs.root.Valid) (hkept : SourceKept origin s.fs t)
      {message : Text} :
      Ends (do
        Action.tell .debug .copying message
        Action.change (.createLink (target.join (.ofNames (init ++ [name]))))
          (FileSystem.createLink held (target.join (.ofNames (init ++ [name]))))) t
        (fun _ u => Copied origin goal (· = init ++ [name]) s.fs u.fs) (SourceKept origin s.fs) := by
    subst hheld
    refine .bind (Action.ends_tell fun u hu => ?_)
    rw [← hu] at hback htarget hshows hvalid
    refine (Action.ends_change (FileSystem.createLink_ends htarget held)).mono
      (fun _ v hcreated => ?_) fun v hv => ?_
    · obtain ⟨directory, last, hlooksUp, -, -, hsets⟩ := hcreated
      rw [h.eq_of_looksUp habove he (hlooksUp.keeps hback)] at hsets
      refine .of_shows h he rfl (hshows _ hsets.shows) fun hv => ?_
      rw [hsets.eq, ← List.append_assoc]
      exact (hvalid hv).put (.link held) (h.ordinary he name (by simp))
    · rw [SourceKept, hv, hu]
      exact hkept
  rw [copyEntry]
  suffices hcopy : Ends (copyLink (entryPath source (init ++ [name]))
      (target.join (.ofNames (init ++ [name])))) s
      (fun _ t => Copied origin goal (· = init ++ [name]) s.fs t.fs) (SourceKept origin s.fs) from
    .bind (hcopy.mono (fun _ t hcopied => .pure ⟨rfl, hcopied⟩) fun _ => id)
  rw [copyLink]
  refine .bind (Action.ends_ask (fun held hheld => ?_) rfl)
  have hlink : held = link := (Entry.link.inj (h.readLink_eq_ok he hheld)).symm
  refine .bind (Action.ends_fileSystem ?_)
  split
  · refine .bind ((Action.ends_change (FileSystem.removeFile_ends h.current hanchored)).mono
      (fun _ t hremoved => ?_) fun t ht => congrArg (FileSystem.find? · origin) ht)
    obtain ⟨directory, last, hlooksUp, -, hclears, hvalid⟩ := hremoved
    rw [h.eq_of_looksUp habove he hlooksUp] at hclears
    refine hcreate hlink hclears.keeps ?_ (fun _ => hclears.shows) hvalid
      (hclears.find?_eq origin (h.not_prefix he rfl))
    rw [FileSystem.Anchored, hclears.current_eq]
    exact hanchored
  · exact hcreate hlink ⟨rfl, fun _ _ hl => hl, fun _ _ hl => hl⟩ hanchored (fun _ hshows => hshows) id rfl

end Run

end Entry

/-! ## The walk -/

section Walk

variable {source target : Path} {origin goal : Location} {names : List Name} {s : Session}

/-- What is listed by its path was before, if the source is the same. -/
theorem Listable.of_same {fs fs' : FileSystem} (h : Listable fs' source origin names)
    (hsame : ∀ below, fs'.find? (origin ++ below) = fs.find? (origin ++ below)) :
    Listable fs source origin names where
  askable := h.askable
  short := h.short
  readable mode entries hfind := h.readable mode entries ((hsame names).trans hfind)
  reachable init name hnames := by
    obtain ⟨mode, entries, hsearch, hfind⟩ := h.reachable init name hnames
    exact ⟨mode, entries, hsearch, (hsame init).symm.trans hfind⟩

theorem Listable.of_copied {fs fs' : FileSystem} {part : List Name → Prop}
    (h : Listable fs' source origin names) (hc : Copied origin goal part fs fs') :
    Listable fs source origin names :=
  h.of_same hc.find?_source

/-- The entries of a directory of the source are found by their names. -/
theorem Course.find?_of_mem {fs : FileSystem} (h : Course fs source target origin goal) {mode : Mode}
    {entries : List (Name × Entry)} (he : fs.find? (origin ++ names) = some (.directory mode entries))
    {p : Name × Entry} (hp : p ∈ entries) : fs.find? (origin ++ (names ++ [p.1])) = some p.2 := by
  have hvalid : (Entry.directory mode entries).Valid := by
    rw [FileSystem.find?, Entry.find?_append] at he
    obtain ⟨top, htop, he⟩ := Option.bind_eq_some_iff.mp he
    exact (h.sourceValid top htop).find? he
  rw [← List.append_assoc, FileSystem.find?_append_singleton he]
  exact Entry.lookup_of_mem hvalid.distinct hp

theorem entries_ends (h : Course s.fs source target origin goal) {mode : Mode}
    {entries : List (Name × Entry)}
    (he : s.fs.find? (origin ++ names) = some (.directory mode entries)) :
    Ends (Copy.entries source names) s
      (fun es t => t = s ∧ es = (entries.map fun p => (p.1, p.2.kind)) ∧
        Listable s.fs source origin names)
      (SourceKept origin s.fs) := by
  rw [Copy.entries]
  refine .bind (Action.ends_fileSystem (Action.ends_attempt (fun es hes => ?_) rfl))
  obtain ⟨m, found, hlookup, hread, rfl⟩ :=
    FileSystem.exists_of_list (Action.eq_ok_of_mapError hes)
  have hgoesOn := h.goesOn_entry he
  obtain ⟨loc, hfinds, hfind⟩ := FileSystem.finds_of_lookup
    (h.sourceAnchored.of_isAbsolute_eq hgoesOn.isAbsolute_eq) hlookup
  have hreaches := hfinds.reaches (by simp)
  obtain rfl := hreaches.eq (h.madeAt_entry he fun link heq => by cases heq)
  rw [he] at hfind
  obtain ⟨rfl, rfl⟩ := Entry.directory.inj (Option.some.inj hfind)
  obtain ⟨_, htreads, -⟩ := FileSystem.treads_of_lookup
    (h.sourceAnchored.of_isAbsolute_eq hgoesOn.isAbsolute_eq) hlookup
  refine ⟨rfl, rfl, FileSystem.askable_of_lookup hlookup, fun name hname => ?_, fun m' es' he' => ?_, ?_⟩
  · refine htreads.trail.short ?_
    rw [hgoesOn.moves_eq]
    exact List.mem_append_right _ (List.mem_map_of_mem hname)
  · rw [he] at he'
    rw [← (Entry.directory.inj (Option.some.inj he')).1]
    exact hread
  · -- the last name was followed from the directory above
    rintro init name rfl
    rw [FileSystem.Reaches, FileSystem.beginning_of_isAbsolute_eq hgoesOn.isAbsolute_eq,
      hgoesOn.moves_eq, List.map_append, ← List.append_assoc] at hreaches
    obtain ⟨above, habove, hname⟩ := FileSystem.exists_of_way_append hreaches
    have hinit := FileSystem.freeWay_of_hasDirectory (Course.hasDirectory_above he)
    rw [← habove.eq (h.sourceReaches.madeAt.append hinit)]
    exact hname.passable (by simp)

/-- What the walk below a directory does. -/
def WalkEnds (source target : Path) (origin goal : Location) (depth : Nat) (names : List Name) : Prop :=
  ∀ (s : Session) (mode : Mode) (entries : List (Name × Entry)),
    Course s.fs source target origin goal → s.fs.HasDirectory (goal ++ names) →
    s.fs.find? (origin ++ names) = some (.directory mode entries) →
    Ends (copyBelow source target depth names) s
      (fun totals t => totals = Entry.censusOf entries ∧
        Copied origin goal (fun b => ∃ n, names ++ [n] <+: b) s.fs t.fs ∧
        ∀ rest, s.fs.HasDirectory (origin ++ (names ++ rest)) →
          Listable s.fs source origin (names ++ rest))
      (SourceKept origin s.fs)

/-- An entry that is no directory has been copied with all that is below it, which is nothing. -/
theorem Copied.of_leaf {fs fs' : FileSystem} {e : Entry}
    (he : fs.find? (origin ++ names) = some e) (hfile : e.isDirectory = false)
    (hc : Copied origin goal (· = names) fs fs') : Copied origin goal (names <+: ·) fs fs' := by
  have hfree : ¬ fs.HasDirectory (origin ++ names) := by
    rintro ⟨mode, entries, hfind⟩
    rw [hfind] at he
    rw [← Option.some.inj he] at hfile
    cases hfile
  refine hc.extend (fun b hb => hb ▸ List.prefix_refl _) ?_
  rintro b ⟨rest, rfl⟩ hrest
  rw [← List.append_assoc]
  exact FileSystem.find?_append_eq_none hfree fun hnil => hrest (by rw [hnil, List.append_nil])

/-- One turn of the loop copies an entry and what is below it. -/
theorem copyTurn_ends {depth : Nat} {name : Name} {e : Entry}
    (h : Course s.fs source target origin goal) (habove : s.fs.HasDirectory (goal ++ names))
    (he : s.fs.find? (origin ++ (names ++ [name])) = some e)
    (hwalk : WalkEnds source target origin goal depth (names ++ [name])) (before : CopyTotals) :
    Ends (do
      let here ← copyEntry source target (names ++ [name]) e.kind
      let below ←
        if e.kind = Entry.Kind.directory then copyBelow source target depth (names ++ [name])
        else pure .zero
      return before + here + below) s
      (fun after t => after = before + e.census ∧
        Copied origin goal (names ++ [name] <+: ·) s.fs t.fs ∧
        ∀ rest, s.fs.HasDirectory (origin ++ (names ++ [name] ++ rest)) →
          Listable s.fs source origin (names ++ [name] ++ rest))
      (SourceKept origin s.fs) := by
  have hleaf (hfile : e.isDirectory = false) (rest : List Name) :
      ¬ s.fs.HasDirectory (origin ++ (names ++ [name] ++ rest)) := by
    intro hdirectory
    rw [← List.append_assoc] at hdirectory
    obtain ⟨mode, entries, hfind⟩ := hdirectory.above (List.prefix_append _ rest)
    rw [he] at hfind
    rw [Option.some.inj hfind] at hfile
    cases hfile
  cases e with
  | file mode contents =>
    refine .bind ((copyFile_ends h habove he).mono (fun totals t ⟨htotals, hc⟩ => ?_) fun _ => id)
    refine .bind (.pure (.pure ⟨?_, hc.of_leaf he rfl, fun rest hrest => absurd hrest (hleaf rfl rest)⟩))
    rw [htotals, CopyTotals.add_zero]
    rfl
  | link link =>
    refine .bind ((copyLink_ends h habove he).mono (fun totals t ⟨htotals, hc⟩ => ?_) fun _ => id)
    refine .bind (.pure (.pure ⟨?_, hc.of_leaf he rfl, fun rest hrest => absurd hrest (hleaf rfl rest)⟩))
    rw [htotals, CopyTotals.add_zero]
    rfl
  | directory mode entries =>
    refine .bind ((copyDirectory_ends h habove ⟨mode, entries, he⟩).mono
      (fun totals t ⟨htotals, hc, hmade⟩ => ?_) fun _ => id)
    have he' : t.fs.find? (origin ++ (names ++ [name])) = some (.directory mode entries) :=
      (hc.find?_source _).trans he
    refine .bind ((hwalk t mode entries (h.copied hc) hmade he').mono
      (fun inside u ⟨hinside, hc', hlistable⟩ => ?_) fun _ => .of_copied hc)
    refine .pure ⟨?_, (hc.trans hc').extend ?_ ?_, fun rest hrest => ?_⟩
    · rw [htotals, hinside, CopyTotals.add_assoc]
      rfl
    · rintro b (rfl | ⟨n, hb⟩)
      · exact List.prefix_refl _
      · exact (List.prefix_append _ _).trans hb
    · rintro b ⟨rest, rfl⟩ hb
      cases rest with
      | nil => exact absurd (Or.inl (List.append_nil _)) hb
      | cons n rest => exact absurd (Or.inr ⟨n, rest, by simp⟩) hb
    · refine (hlistable rest ?_).of_copied hc
      obtain ⟨m, es, hfind⟩ := hrest
      exact ⟨m, es, (hc.find?_source _).trans hfind⟩

/-- The entries that had their turn before and the one that has had its turn now. -/
theorem Copied.turn {fs fs' fs'' : FileSystem} {done : List (Name × Entry)} {p : Name × Entry}
    (h : Copied origin goal (fun b => ∃ q ∈ done, names ++ [q.1] <+: b) fs fs')
    (h' : Copied origin goal (names ++ [p.1] <+: ·) fs' fs'') :
    Copied origin goal (fun b => ∃ q ∈ done ++ [p], names ++ [q.1] <+: b) fs fs'' := by
  refine (h.trans h').extend ?_ ?_
  · rintro b (⟨q, hq, hb⟩ | hb)
    · exact ⟨q, List.mem_append_left _ hq, hb⟩
    · exact ⟨p, by simp, hb⟩
  · rintro b ⟨q, hq, hb⟩ hnot
    rcases List.mem_append.mp hq with hq | hq
    · exact absurd (Or.inl ⟨q, hq, hb⟩) hnot
    · rw [List.mem_singleton.mp hq] at hb
      exact absurd (Or.inr hb) hnot

/-- Before the first turn. -/
theorem Copied.noTurn (fs : FileSystem) :
    Copied origin goal (fun b => ∃ q ∈ ([] : List (Name × Entry)), names ++ [q.1] <+: b) fs fs :=
  (Copied.none fs).extend (fun _ hb => hb.elim) (by simp)

/-- The walk copies what is below a directory, or fails and leaves the source as it was. -/
theorem copyBelow_ends (depth : Nat) (names : List Name) :
    WalkEnds source target origin goal depth names := by
  induction depth generalizing names with
  | zero => exact fun s mode entries _ _ _ => .throw rfl
  | succ depth ih =>
    intro s mode entries h habove he
    rw [copyBelow]
    refine .bind ((entries_ends h he).mono ?_ fun _ => id)
    rintro es t ⟨rfl, rfl, hlist⟩
    rw [List.foldlM_map]
    -- the entries that have had their turn have been copied
    refine (Ends.foldlM (fun done totals u => totals = Entry.censusOf done ∧
      Copied origin goal (fun b => ∃ p ∈ done, names ++ [p.1] <+: b) t.fs u.fs ∧
      ∀ p ∈ done, ∀ rest, t.fs.HasDirectory (origin ++ (names ++ [p.1] ++ rest)) →
        Listable t.fs source origin (names ++ [p.1] ++ rest)) ⟨rfl, .noTurn t.fs, by simp⟩ ?_).mono ?_
      fun _ => id
    · rintro done ⟨name, e⟩ rest hentries before u ⟨hbefore, hc, hlistable⟩
      have hmem : (name, e) ∈ entries := by rw [hentries]; simp
      have he' := (hc.find?_source _).trans (h.find?_of_mem he hmem)
      refine (copyTurn_ends (h.copied hc) (hc.touches.keeps.hasDirectory habove) he' (ih _) before).mono
        (fun after v ⟨hafter, hc', hlistable'⟩ => ⟨?_, hc.turn hc', ?_⟩) fun _ => .of_copied hc
      · rw [hafter, hbefore, Entry.censusOf_concat]
      · intro p hp below hbelow
        rcases List.mem_append.mp hp with hp | hp
        · exact hlistable p hp below hbelow
        · rw [List.mem_singleton.mp hp] at hbelow ⊢
          obtain ⟨m, es, hfind⟩ := hbelow
          exact (hlistable' below ⟨m, es, (hc.find?_source _).trans hfind⟩).of_copied hc
    · rintro totals u ⟨htotals, hc, hlistable⟩
      have hname {name : Name} {below : List Name} {x : Entry}
          (hx : t.fs.find? (origin ++ (names ++ name :: below)) = some x) : ∃ e, (name, e) ∈ entries := by
        rw [← List.append_assoc, FileSystem.find?, Entry.find?_append_of_eq_some he,
          Entry.find?_directory_cons] at hx
        obtain ⟨e, hlookup, -⟩ := Option.bind_eq_some_iff.mp hx
        exact ⟨e, Entry.mem_of_lookup hlookup⟩
      refine ⟨htotals, hc.extend ?_ ?_, fun rest hrest => ?_⟩
      · rintro b ⟨p, -, hb⟩
        exact ⟨p.1, hb⟩
      · rintro b ⟨name, below, rfl⟩ hnot
        by_contra hfind
        obtain ⟨x, hx⟩ := Option.ne_none_iff_exists'.mp hfind
        rw [List.append_assoc] at hx
        obtain ⟨e, hmem⟩ := hname hx
        exact hnot ⟨(name, e), hmem, below, rfl⟩
      · cases rest with
        | nil =>
          rw [List.append_nil]
          exact hlist
        | cons name rest =>
          obtain ⟨m, es, hfind⟩ := hrest
          obtain ⟨e, hmem⟩ := hname hfind
          have hlisted := hlistable (name, e) hmem rest
          rw [List.append_assoc, List.singleton_append] at hlisted
          exact hlisted ⟨m, es, hfind⟩

end Walk

/-! ## The whole copy -/

/-- A copy to the target cannot touch the source. -/
structure Harmless (fs : FileSystem) (target : Path) (origin : Location) : Prop where
  /-- No directory in the source is missing on the way of the target. -/
  way : ∀ loc, fs.Passes target loc → origin <+: loc → fs.find? loc ≠ none
  /-- No entry of the source has its place in the source, but for directories that are there already. -/
  outside : ∀ goal, fs.MadeAt target goal → ∀ below e, fs.find? (origin ++ below) = some e →
    origin <+: goal ++ below → e.isDirectory = true ∧ fs.HasDirectory (goal ++ below)
  /-- A link in the place of an entry of the source is the same link. -/
  sameLinks : ∀ goal, fs.MadeAt target goal → ∀ below e link, fs.find? (origin ++ below) = some e →
    fs.find? (goal ++ below) = some (.link link) → e = .link link

/-- What a successful copy does: the directories to the target are made, and then the entries of the
source are copied into it. -/
structure Completed (source target : Path) (origin goal : Location) (fs fs' : FileSystem)
    (totals : CopyTotals) : Prop where
  madeAt : fs.MadeAt target goal
  between : ∃ between, Makes (fs.Passes target) fs between ∧
    (∀ below, between.find? (origin ++ below) = fs.find? (origin ++ below)) ∧
    Course between source target origin goal ∧
    Copied origin goal (fun b => ∃ n, [n] <+: b) between fs'
  totals_eq : ∃ e, fs.find? origin = some e ∧ totals = e.census
  listable : ∀ names, fs.HasDirectory (origin ++ names) → Listable fs source origin names

section Whole

variable {source target : Path} {origin goal : Location} {s : Session}

theorem Makes.find?_source {fs fs' : FileSystem} (hharmless : Harmless fs target origin)
    (hmakes : Makes (fs.Passes target) fs fs') (below : List Name) :
    fs'.find? (origin ++ below) = fs.find? (origin ++ below) :=
  hmakes.touches.find?_eq _ fun l ⟨hl, hnone⟩ hprefix =>
    hharmless.way l hl ((List.prefix_append origin below).trans hprefix) hnone

/-- When the target has been made the copy takes its course. -/
theorem Course.of_makes {fs fs' : FileSystem} (hfs : fs.Valid) (hharmless : Harmless fs target origin)
    (hsource : fs.Anchored source) (hreaches : fs.Reaches source origin)
    (hdirectory : fs.HasDirectory origin) (htarget : fs.Anchored target)
    (hmakes : Makes (fs.Passes target) fs fs') (hgoal : fs'.Reaches target goal)
    (hmade : fs'.HasDirectory goal) :
    fs.MadeAt target goal ∧ Course fs' source target origin goal := by
  have hkeeps := hmakes.touches.keeps
  have hmadeAt : fs.MadeAt target goal := hmakes.sameLinks.symm.madeAt hgoal.madeAt
  have hsame := Makes.find?_source hharmless hmakes
  refine ⟨hmadeAt, ⟨?_, hkeeps.anchored hsource, hkeeps.reaches hreaches hdirectory,
    hkeeps.hasDirectory hdirectory, fun e he => ?_, hkeeps.anchored htarget, hgoal, hmade,
    fun below e he hprefix => ?_, fun below e link he hlink => ?_⟩⟩
  · rw [hkeeps.current_eq]
    exact hkeeps.hasDirectory hfs.current
  · have horigin := hsame []
    rw [List.append_nil] at horigin
    exact hfs.tree.find? (horigin ▸ he)
  · rw [hsame] at he
    exact (hharmless.outside goal hmadeAt below e he hprefix).imp_right hkeeps.hasDirectory
  · rw [hsame] at he
    exact hharmless.sameLinks goal hmadeAt below e link he
      ((hmakes.sameLinks.link_iff _ _).mp hlink)

/-- The target with the path of nothing behind it is passed as the target is. -/
theorem passes_top {fs : FileSystem} (target : Path) {l : Location} :
    fs.Passes (target.join (.ofNames [])) l ↔ fs.Passes target l := by
  have hgoesOn : target.GoesOn [] (target.join (.ofNames [])) := .join target (by simp)
  rw [FileSystem.Passes, hgoesOn.moves_eq, FileSystem.beginning_of_isAbsolute_eq hgoesOn.isAbsolute_eq,
    List.map_nil, List.append_nil, FileSystem.Passes]

/-- When the first directory has been made the copy takes its course. -/
theorem Course.exists_of_arrives {fs fs' : FileSystem} (hfs : fs.Valid)
    (hharmless : Harmless fs target origin) (hsource : fs.Anchored source)
    (hreaches : fs.Reaches source origin) (hdirectory : fs.HasDirectory origin)
    (htarget : fs.Anchored target) (hmakes : Makes (fs.Passes (target.join (.ofNames []))) fs fs')
    (harrives : fs'.Arrives (target.join (.ofNames []))) :
    ∃ goal, Makes (fs.Passes target) fs fs' ∧ fs.MadeAt target goal ∧
      Course fs' source target origin goal := by
  have hgoesOn : target.GoesOn [] (target.join (.ofNames [])) := .join target (by simp)
  obtain ⟨goal, hgoal, hmade⟩ := harrives
  rw [FileSystem.Reaches, hgoesOn.moves_eq, FileSystem.beginning_of_isAbsolute_eq hgoesOn.isAbsolute_eq,
    List.map_nil, List.append_nil] at hgoal
  have hmakes' : Makes (fs.Passes target) fs fs' := hmakes.mono fun l hl _ => (passes_top target).mp hl
  exact ⟨goal, hmakes',
    Course.of_makes hfs hharmless hsource hreaches hdirectory htarget hmakes' hgoal hmade⟩

/-- No link is copied to the path of the target with nothing behind it. -/
theorem copyLink_of_top (entry target : Path) :
    Ends (copyLink entry (target.join (.ofNames []))) s (fun _ _ => False) (·.fs = s.fs) := by
  have hslash : (target.join (.ofNames [])).last = [] := rfl
  rw [copyLink]
  refine .bind (Action.ends_ask (fun held _ => ?_) rfl)
  refine .bind (Action.ends_fileSystem ?_)
  split
  · exact .bind ((Action.ends_change (FileSystem.removeFile_of_slash hslash)).mono
      (fun _ _ h => h.elim) fun _ => id)
  · refine .bind (Action.ends_tell fun t ht => ?_)
    exact (Action.ends_change (FileSystem.createLink_of_slash hslash held)).mono
      (fun _ _ h => h) fun u hu => hu.trans ht

/-- The walk copies the whole tree, or fails and leaves the source as it was. -/
theorem walk_ends (hfs : s.fs.Valid) (hharmless : Harmless s.fs target origin)
    (hsource : s.fs.Anchored source) (horigin : s.fs.MadeAt source origin)
    (hdirectory : s.fs.HasDirectory origin) (htarget : s.fs.Anchored target) :
    Ends (walk source target) s
      (fun totals t => ∃ goal, Completed source target origin goal s.fs t.fs totals)
      (SourceKept origin s.fs) := by
  have hroot : s.fs.HasDirectory [] := .above hfs.current List.nil_prefix
  have hgoesOn : target.GoesOn [] (target.join (.ofNames [])) := .join target (by simp)
  have hanchored := htarget.of_isAbsolute_eq hgoesOn.isAbsolute_eq
  rw [walk]
  refine .bind (Action.ends_fileSystem (.bind (Action.ends_attempt (fun top htop => ?_) rfl)))
  have hlookup := Action.eq_ok_of_mapError htop
  obtain ⟨loc, hfinds, htop⟩ := FileSystem.finds_of_lookup hsource hlookup
  cases top with
  | link link =>
    rw [Entry.kind, copyEntry]
    exact .bind (.bind (.of_false ((copyLink_of_top _ target).mono (fun _ _ h => h)
      fun t ht => congrArg (FileSystem.find? · origin) ht)))
  | file mode contents =>
    rw [Entry.kind, copyEntry]
    refine .bind (.bind (Action.ends_tell fun t ht => ?_))
    rw [← ht] at hroot hsource horigin hdirectory hanchored ⊢
    refine .bind ((Action.ends_change (FileSystem.copyFile_ends hroot hsource hanchored)).mono
      (fun _ u hcopied => ?_) fun u hu => congrArg (FileSystem.find? · origin) hu)
    obtain ⟨found, _, m, c, _, hfound, hfile, -⟩ := hcopied
    obtain rfl := hfound.eq horigin
    exact absurd hdirectory (FileSystem.not_hasDirectory_of_file hfile)
  | directory mode entries =>
    rw [Entry.kind, copyEntry]
    have hreaches := hfinds.reaches_of_hasDirectory ⟨mode, entries, htop⟩
    obtain rfl := hreaches.eq horigin
    have hisDirectory : s.fs.isDirectory source = true := by
      rw [FileSystem.isDirectory, FileSystem.lookup_target_of_itself hlookup]
      rfl
    refine .bind (.bind ((Action.ends_change
      (FileSystem.createDirectories_ends hfs.current hanchored)).mono
      (fun _ t hmade => .pure ?_) fun t hmakes => ?_))
    · obtain ⟨hmakes, harrives⟩ := hmade
      obtain ⟨goal, hmakes', hmadeAt, hcourse⟩ :=
        Course.exists_of_arrives hfs hharmless hsource hreaches hdirectory htarget hmakes harrives
      have hsame := Makes.find?_source hharmless hmakes'
      have hkept : t.fs.find? loc = s.fs.find? loc := by simpa using hsame []
      rw [if_pos hisDirectory]
      refine .bind ((copyBelow_ends _ [] t mode entries hcourse (by simpa using hcourse.targetDirectory)
        (by simpa [hkept] using htop)).mono (fun inside u hbelow => .pure ?_)
        fun u hu => hu.trans hkept)
      obtain ⟨hinside, hcopied, hlistable⟩ := hbelow
      refine ⟨goal, hmadeAt, ⟨t.fs, hmakes', hsame, hcourse, hcopied⟩, ⟨_, htop, ?_⟩, ?_⟩
      · rw [hinside]
        rfl
      · rintro names ⟨m, es, hfind⟩
        exact (hlistable names ⟨m, es, (hsame names).trans hfind⟩).of_same hsame
    · have hsame := Makes.find?_source hharmless (hmakes.mono fun l hl _ => (passes_top target).mp hl) []
      simpa [SourceKept] using hsame

/-- The guard does not find the target in the source. -/
def Admitted (fs : FileSystem) (target : Path) (origin : Location) : Prop :=
  ∀ found, targetLocation fs target = .ok found → ¬ origin <+: found

/-- A copy that is not refused copies the whole tree, or fails and leaves the source as it was. -/
theorem copyTree_ends (hfs : s.fs.Valid)
    (horigin : s.fs.Anchored source → s.fs.MadeAt source origin) (hdirectory : s.fs.HasDirectory origin)
    (hharmless : Admitted s.fs target origin → Harmless s.fs target origin) :
    Ends (copyTree source target) s
      (fun totals t => Admitted s.fs target origin ∧
        ∃ goal, Completed source target origin goal s.fs t.fs totals)
      (SourceKept origin s.fs) := by
  rw [copyTree]
  refine .bind (Action.ends_tell fun t ht => ?_)
  rw [← ht] at hfs horigin hdirectory hharmless ⊢
  refine .bind (Action.ends_ask (fun found hfound => ?_) rfl)
  obtain ⟨hsource, hmadeAt⟩ := FileSystem.madeAt_of_canonical hfs hfound
  obtain rfl := hmadeAt.eq (horigin hsource)
  refine .bind (Action.ends_ask (fun goal hgoal => ?_) rfl)
  obtain ⟨htarget, -⟩ := targetLocation_eq_settle hgoal
  by_cases hinside : found <+: goal
  · rw [if_pos (List.isPrefixOf_iff_prefix.mpr hinside)]
    exact .bind (.throw rfl)
  · rw [if_neg (by rwa [List.isPrefixOf_iff_prefix])]
    have hadmitted : Admitted t.fs target found := fun goal' hgoal' => by
      rw [hgoal] at hgoal'
      rwa [← Except.ok.inj hgoal']
    refine .bind ((walk_ends hfs (hharmless hadmitted) hsource hmadeAt hdirectory htarget).mono
      (fun totals u hcompleted => ?_) fun _ => id)
    refine .bind (Action.ends_tell fun v hv => .pure ⟨hadmitted, ?_⟩)
    rwa [hv]

end Whole

/-! ## Trees of their own -/

section Apart

variable {fs fs' : FileSystem} {source target : Path} {origin goal : Location} {totals : CopyTotals}

/-- A location is in the target or above it. -/
def Near (goal loc : Location) : Prop := goal <+: loc ∨ loc <+: goal

/-- Nothing near the target is in the source, if neither tree is in the other. -/
theorem not_prefix_of_near (hapart : ¬ origin <+: goal) (hapart' : ¬ goal <+: origin) {loc : Location}
    (hloc : Near goal loc) : ¬ origin <+: loc := by
  intro horigin
  rcases hloc with hloc | hloc
  · rcases List.prefix_or_prefix_of_prefix horigin hloc with hp | hp
    · exact hapart hp
    · exact hapart' hp
  · exact hapart (horigin.trans hloc)

/-- A target that meets no link, in whose tree there is none, is harmless if neither tree is in the
other. -/
theorem Harmless.of_apart (hfree : fs.LinkFree target) (hdown : Step.up ∉ target.moves)
    (hnoLink : ∀ below link, fs.find? (fs.spelled target ++ below) ≠ some (.link link))
    (hapart : ¬ origin <+: fs.spelled target) (hapart' : ¬ fs.spelled target <+: origin) :
    Harmless fs target origin where
  way loc hloc hinside :=
    absurd (hinside.trans (FileSystem.prefix_of_passes hfree hdown hloc)) hapart
  outside goal hgoal below e _ hprefix := by
    rw [hgoal.eq hfree.madeAt] at hprefix
    exact absurd hprefix (not_prefix_of_near hapart hapart' (Or.inl (List.prefix_append _ below)))
  sameLinks goal hgoal below e link _ hlink := by
    rw [hgoal.eq hfree.madeAt] at hlink
    exact absurd hlink (hnoLink below link)

/-- Nothing is made below the target. -/
theorem Makes.view_below (hmakes : Makes (fs.Passes target) fs fs')
    (hplaces : ∀ l, fs.Passes target l → l <+: goal) {below : List Name} (hbelow : below ≠ []) :
    fs'.view (goal ++ below) = fs.view (goal ++ below) := by
  refine hmakes.touches.view_eq _ ?_
  rintro ⟨hl, -⟩
  have hlength := (hplaces _ hl).length_le
  have hpositive : 0 < below.length := List.length_pos_iff.mpr hbelow
  rw [List.length_append] at hlength
  omega

namespace Completed

theorem hasDirectory (h : Completed source target origin goal fs fs' totals) :
    fs'.HasDirectory goal := by
  obtain ⟨between, -, -, hcourse, hcopied⟩ := h.between
  exact hcopied.touches.keeps.hasDirectory hcourse.targetDirectory

/-- A link below the target was there before, or is one of the source. -/
theorem link_cases (h : Completed source target origin goal fs fs' totals) {name : Name}
    {below : List Name} {link : Path} (hlink : fs'.find? (goal ++ name :: below) = some (.link link)) :
    fs.find? (origin ++ name :: below) = some (.link link) ∨
      fs.find? (goal ++ name :: below) = some (.link link) := by
  obtain ⟨between, hmakes, hsource, -, hcopied⟩ := h.between
  have hoverlaid : Overlaid origin goal between fs' (name :: below) :=
    hcopied.overlaid _ ⟨name, below, rfl⟩
  rw [← FileSystem.view_eq_link_iff, hoverlaid] at hlink
  rcases Entry.overlay_eq_link hlink with hnew | hold
  · rw [FileSystem.view_eq_link_iff, hsource] at hnew
    exact Or.inl hnew
  · rw [FileSystem.view_eq_link_iff, hmakes.sameLinks.link_iff] at hold
    exact Or.inr hold

/-- Only what is in the target is touched, and what was missing above it. -/
theorem touches (h : Completed source target origin goal fs fs' totals)
    (hplaces : ∀ l, fs.Passes target l → l <+: goal) :
    Touches (fun l => goal <+: l ∨ l <+: goal ∧ fs.find? l = none) fs fs' := by
  obtain ⟨between, hmakes, -, -, hcopied⟩ := h.between
  refine (hmakes.touches.mono ?_).trans (hcopied.touches.mono ?_)
  · rintro l ⟨hl, hnone⟩
    exact Or.inr ⟨hplaces l hl, hnone⟩
  · rintro l ⟨below, -, -, -, rfl, -⟩
    exact Or.inl (List.prefix_append goal below)

/-- The target is the overlay of what it was and the source, in whose way nothing was. -/
theorem overlaid (h : Completed source target origin goal fs fs' totals)
    (hplaces : ∀ l, fs.Passes target l → l <+: goal) (below : List Name) :
    Overlaid origin goal fs fs' below ∧ ¬ Clash fs origin goal below := by
  obtain ⟨between, hmakes, hsource, hcourse, hcopied⟩ := h.between
  have hview (below : List Name) :
      between.view (origin ++ below) = fs.view (origin ++ below) := by
    rw [FileSystem.view, hsource, FileSystem.view]
  cases below with
  | nil =>
    have hnot : ¬ ∃ n : Name, [n] <+: ([] : List Name) := by simp
    obtain ⟨mode, hmode⟩ := FileSystem.hasDirectory_iff_view.mp hcourse.sourceDirectory
    obtain ⟨m, hm⟩ := FileSystem.hasDirectory_iff_view.mp hcourse.targetDirectory
    have horigin := hview []
    have hgoal := hcopied.view_of_not_part hnot
    rw [List.append_nil] at horigin hgoal
    rw [Overlaid, Clash, List.append_nil, List.append_nil, ← horigin, hmode, hgoal]
    rcases hmakes.view_eq goal with heq | ⟨hnone, hempty⟩
    · rw [← heq, hm]
      refine ⟨rfl, ?_⟩
      rintro ⟨e, old, he, hold, hne⟩
      rw [← Option.some.inj he, ← Option.some.inj hold] at hne
      exact hne rfl
    · rw [hnone, hempty]
      refine ⟨rfl, ?_⟩
      rintro ⟨e, old, -, hold, -⟩
      cases hold
  | cons name below =>
    have hpart : ∃ n, [n] <+: name :: below := ⟨name, below, rfl⟩
    have hleft : between.view (goal ++ name :: below) = fs.view (goal ++ name :: below) :=
      Makes.view_below hmakes hplaces (List.cons_ne_nil name below)
    have hoverlaid := hcopied.overlaid _ hpart
    have hagrees := hcopied.agrees _ hpart
    rw [Overlaid, hview, hleft] at hoverlaid
    rw [Clash, hview, hleft] at hagrees
    exact ⟨hoverlaid, hagrees⟩

end Completed

end Apart

end Copy

end FileRoutes
