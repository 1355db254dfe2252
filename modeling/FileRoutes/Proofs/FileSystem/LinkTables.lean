import FileRoutes.Proofs.FileSystem.Outcomes

/-!
# The links of a file system

Where a path leads depends on the links that are met, and a change may put a link in the place of another
one.  So that the way of a path can be told of states that are still to come, the links are taken out of the
file system: a table says of each location what the link there holds (`LinkTable`).

A way by the table of a state is a way in the state (`Way.byTable`).  What may be passed is told of the state
at the beginning: directories stay, and where nothing was there may be one (`Passable`).

A change of one entry changes the table at its location only (`Shows.links_eq`), and directories that are
created change nothing of it.  What each of them keeps is kept by `createDirectories`
(`createDirectories_keeps`).
-/

namespace FileRoutes

/-- What an entry holds if it is a link. -/
def Entry.held? : Entry → Option Path
  | .link target => some target
  | _ => none

theorem Entry.held?_eq_some {e : Entry} {target : Path} : e.held? = some target ↔ e = .link target := by
  cases e <;> simp [held?]

theorem Entry.held?_bare (e : Entry) : e.bare.held? = e.held? := by
  cases e <;> rfl

/-- What the links at some locations hold. -/
abbrev LinkTable := Location → Option Path

namespace LinkTable

/-- Steps lead from one location to another when each link of the table is followed where it is met, and
each move starts from a location that may be passed. -/
inductive Way (links : LinkTable) (Passable : Location → Prop) : Location → List Step → Location → Prop
  | done (loc : Location) : Way links Passable loc [] loc
  | settle {loc last : Location} {rest : List Step} (next : Way links Passable loc rest last) :
      Way links Passable loc (.settle :: rest) last
  | stay {loc last : Location} {rest : List Step} (passable : Passable loc)
      (next : Way links Passable loc rest last) : Way links Passable loc (.stay :: rest) last
  | up {loc last : Location} {rest : List Step} (passable : Passable loc)
      (next : Way links Passable loc.dropLast rest last) : Way links Passable loc (.up :: rest) last
  | down {loc last : Location} {name : Name} {rest : List Step} (passable : Passable loc)
      (noLink : links (loc ++ [name]) = none) (next : Way links Passable (loc ++ [name]) rest last) :
      Way links Passable loc (.down name :: rest) last
  | link {loc last : Location} {name : Name} {rest : List Step} {target : Path} (passable : Passable loc)
      (isLink : links (loc ++ [name]) = some target)
      (next : Way links Passable (if target.isAbsolute then [] else loc) (target.steps ++ rest) last) :
      Way links Passable loc (.down name :: rest) last

/-- The table with a link at a location. -/
def set (links : LinkTable) (loc : Location) (held : Path) : LinkTable :=
  fun l => if l = loc then some held else links l

/-- Where steps lead, if they do so behind at most so many of them and of those of links. -/
def follow? (links : LinkTable) : Nat → Location → List Step → Option Location
  | 0, _, _ => none
  | _ + 1, loc, [] => some loc
  | n + 1, loc, step :: rest =>
    match step with
    | .settle | .stay => follow? links n loc rest
    | .up => follow? links n loc.dropLast rest
    | .down name =>
      match links (loc ++ [name]) with
      | none => follow? links n (loc ++ [name]) rest
      | some target => follow? links n (if target.isAbsolute then [] else loc) (target.steps ++ rest)

/-- A way leads where the steps are followed to. -/
theorem Way.eq_of_follow? {links : LinkTable} {Passable : Location → Prop} {a b c : Location}
    {steps : List Step} (h : links.Way Passable a steps b) {n : Nat}
    (hfollow : links.follow? n a steps = some c) : b = c := by
  induction h generalizing n with
  | done loc =>
    cases n with
    | zero => cases hfollow
    | succ n => exact Option.some.inj hfollow
  | settle _ ih =>
    cases n with
    | zero => cases hfollow
    | succ n => exact ih hfollow
  | stay _ _ ih =>
    cases n with
    | zero => cases hfollow
    | succ n => exact ih hfollow
  | up _ _ ih =>
    cases n with
    | zero => cases hfollow
    | succ n => exact ih hfollow
  | down _ noLink _ ih =>
    cases n with
    | zero => cases hfollow
    | succ n =>
      simp only [follow?, noLink] at hfollow
      exact ih hfollow
  | link _ isLink _ ih =>
    cases n with
    | zero => cases hfollow
    | succ n =>
      simp only [follow?, isLink] at hfollow
      exact ih hfollow

end LinkTable

namespace FileSystem

variable {fs fs' : FileSystem} {loc : Location}

/-- The links that there are. -/
def links (fs : FileSystem) : LinkTable := fun loc => (fs.find? loc).bind Entry.held?

theorem links_eq_some {target : Path} :
    fs.links loc = some target ↔ fs.find? loc = some (.link target) := by
  rw [links, Option.bind_eq_some_iff]
  simp only [Entry.held?_eq_some, exists_eq_right]

theorem links_eq_none : fs.links loc = none ↔ ∀ target, fs.find? loc ≠ some (.link target) := by
  rw [Option.eq_none_iff_forall_ne_some]
  simp only [ne_eq, links_eq_some]

theorem links_eq_view (fs : FileSystem) (loc : Location) :
    fs.links loc = (fs.view loc).bind Entry.held? := by
  rw [links, view, Option.bind_map]
  congr 1
  funext e
  exact (Entry.held?_bare e).symm

/-- A location at which names may be followed, or may be once a directory has been made there. -/
def Passable (fs : FileSystem) (loc : Location) : Prop := fs.Open loc ∨ fs.find? loc = none

theorem passable_iff_view : fs.Passable loc ↔
    (∃ mode, mode.search = true ∧ fs.view loc = some (.directory mode [])) ∨ fs.view loc = none := by
  simp only [Passable, Open, view_eq_none_iff, view_eq_directory_iff, ← exists_and_left]

/-- A way in a file system is one by its links. -/
theorem Way.byTable {P Q : Location → Prop} {a b : Location} {steps : List Step} (h : fs.Way P a steps b)
    (hpassable : ∀ loc, P loc → Q loc) : fs.links.Way Q a steps b := by
  induction h with
  | done loc => exact .done loc
  | settle _ ih => exact .settle ih
  | stay passable _ ih => exact .stay (hpassable _ passable) ih
  | up passable _ ih => exact .up (hpassable _ passable) ih
  | down passable noLink _ ih => exact .down (hpassable _ passable) (links_eq_none.mpr noLink) ih
  | link passable isLink _ ih => exact .link (hpassable _ passable) (links_eq_some.mpr isLink) ih

/-! ## Changes -/

/-- An entry that is put at a location changes the links there. -/
theorem Shows.links_eq {new : Entry} (h : Shows loc new fs fs') :
    fs'.links = fun l => if l = loc then new.held? else fs.links l := by
  funext l
  rw [links_eq_view, h.view_eq, links_eq_view]
  split <;> rfl

/-- An entry that is no link leaves them as they are, if there was none in its place. -/
theorem Shows.links_same {new : Entry} (h : Shows loc new fs fs') (hnew : new.held? = none)
    (hold : fs.links loc = none) : fs'.links = fs.links := by
  rw [h.links_eq]
  funext l
  split
  · subst l
    rw [hnew, hold]
  · rfl

/-- What may be passed behind an entry that was put there could be passed before. -/
theorem Shows.passable {new : Entry} (h : Shows loc new fs fs')
    (hnone : new.isDirectory = true → fs.find? loc = none) {l : Location} (hl : fs'.Passable l) :
    fs.Passable l := by
  rw [passable_iff_view, h.view_eq] at hl
  split at hl
  · subst l
    obtain ⟨mode, -, hview⟩ | hview := hl
    · refine Or.inr (hnone ?_)
      rw [Option.some.inj hview]
      rfl
    · cases hview
  · exact passable_iff_view.mpr hl

theorem Shows.hasDirectory {new : Entry} (h : Shows loc new fs fs') {l : Location}
    (hl : fs.HasDirectory l) : fs'.HasDirectory l := by
  have hne : l ≠ loc := fun heq => h.free (heq ▸ hl)
  rw [hasDirectory_iff_view] at hl ⊢
  rwa [h.view_eq, if_neg hne]

/-- The last name of a path is looked up in one directory. -/
theorem LooksUp.eq {p : Path} {directory directory' : Location} {name name' : Name}
    (h : fs.LooksUp p directory name) (h' : fs.LooksUp p directory' name') :
    directory = directory' ∧ name = name' := by
  obtain ⟨init, hmoves, hway⟩ := h.way
  obtain ⟨init', hmoves', hway'⟩ := h'.way
  obtain ⟨rfl, hlast⟩ := List.append_inj' (hmoves.symm.trans hmoves') rfl
  exact ⟨hway.eq hway', Step.down.inj (List.cons.inj hlast).1⟩

/-! ## Making directories one by one -/

section Directories

variable {P : FileSystem → Prop} {p : Path}

/-- What the creation of a directory on the way of the path keeps. -/
def KeptByMaking (p : Path) (P : FileSystem → Prop) : Prop :=
  ∀ (fs fs' : FileSystem) (q : Path) (directory : Location) (name : Name), P fs →
    q.isAbsolute = p.isAbsolute → q.moves <+: p.moves → fs.LooksUp q directory name →
    fs.Takes .directory (directory ++ [name]) → Sets (directory ++ [name]) .emptyDirectory fs fs' → P fs'

theorem createDirectory_keeps {q : Path} (hstep : KeptByMaking p P) (hanchored : fs.Anchored q)
    (habsolute : q.isAbsolute = p.isAbsolute) (hmoves : q.moves <+: p.moves) (h : P fs) :
    Ends (createDirectory q) fs (fun _ t => P t ∧ t.current = fs.current) (· = fs) := by
  rw [createDirectory]
  refine .bind (ends_ask (fun slot hslot => ?_) rfl)
  cases hname : slot.name? with
  | none => exact .throw rfl
  | some name =>
    have hlooksUp := looksUp_of_slot hanchored hslot hname
    refine ends_guard rfl fun _ => .bind (ends_now ?_)
    refine ends_guard rfl fun hnone => ends_guard rfl fun hwrite => ends_putAt ⟨?_, rfl⟩
    rw [Bool.not_eq_true, Option.isSome_eq_false_iff, Option.isNone_iff_eq_none] at hnone
    exact hstep fs _ q slot.directory name h habsolute hmoves hlooksUp
      ⟨hnone, receives_of_slot hslot hname hwrite⟩
      ⟨⟨slot.directory, name, rfl, hlooksUp.isOpen.hasDirectory⟩, not_hasDirectory_of_none hnone, rfl, rfl⟩

theorem unlessDirectory_keeps (q : Path) (fault : Fault) (h : P fs) :
    Ends (unlessDirectory q fault) fs (fun _ t => P t ∧ t.current = fs.current) P := by
  rw [unlessDirectory]
  refine .bind (ends_now ?_)
  split
  · exact .pure ⟨h, rfl⟩
  · exact .throw h

/-- What each new directory keeps is kept along a chain of paths, each of which is above a path. -/
theorem createChain_keeps {paths : List Path} (hstep : KeptByMaking p P)
    (hpaths : ∀ q ∈ paths, fs.Anchored q ∧ q.isAbsolute = p.isAbsolute ∧ q.moves <+: p.moves) (h : P fs) :
    Ends (createChain paths) fs (fun _ t => P t ∧ t.current = fs.current) P := by
  induction paths generalizing fs with
  | nil => exact .throw h
  | cons q above ih =>
    obtain ⟨hanchored, habsolute, hmoves⟩ := hpaths q List.mem_cons_self
    rw [createChain]
    split
    · exact .pure ⟨h, rfl⟩
    refine .tryCatch ((createDirectory_keeps hstep hanchored habsolute hmoves h).mono (fun _ _ h => h) ?_)
    rintro _ rfl fault -
    split
    · -- what is missing above is created, and the path is tried again
      refine .bind ((ih (fun r hr => hpaths r (List.mem_cons_of_mem q hr)) h).mono
        (fun _ t ht => ?_) fun _ => id)
      obtain ⟨ht, hcurrent⟩ := ht
      have hanchored' : t.Anchored q := by
        rw [Anchored, hcurrent]
        exact hanchored
      rw [← hcurrent]
      refine .tryCatch ((createDirectory_keeps hstep hanchored' habsolute hmoves ht).mono
        (fun _ _ h => h) ?_)
      rintro _ rfl fault -
      exact unlessDirectory_keeps q fault ht
    · exact unlessDirectory_keeps q _ h

/-- What each new directory keeps is kept when all that are missing are created. -/
theorem createDirectories_keeps (hstep : KeptByMaking p P) (hanchored : fs.Anchored p) (h : P fs) :
    Ends (createDirectories p) fs (fun _ => P) P := by
  refine (createChain_keeps hstep (fun q hq => ?_) h).mono (fun _ _ ht => ht.1) fun _ => id
  obtain ⟨habsolute, hmoves⟩ := Path.moves_of_mem_ancestors hq
  exact ⟨hanchored.of_isAbsolute_eq habsolute, habsolute, hmoves⟩

end Directories

end FileSystem

end FileRoutes
