import FileRoutes.Proofs.FileSystem.Unlocked
import FileRoutes.Proofs.Migration.Conflicts

/-!
# Sources that are reached over links

A source may be any path that leads to a directory, so there may be links on its way, and the entry at its
end may be a link itself (`FileSystem.lookup_itself_of_isDirectory`).  What a copy makes of the two is
compared with the copy from the canonical location of the source.

* Links on the way make no difference: where nothing is locked, both copies to a new target succeed, with
  the same totals, and leave the same (`copyTree_named`).
* The entry at the end is taken for what it is.  A link there is copied as one, to the path of the target
  with nothing behind it, and no link is made at a path that ends in a slash.  So the copy fails before it
  has changed anything (`copyTree_of_link`), although the directory behind the link would have been read.

## Why the others succeed

A copy between trees that do not clash only fails for a lack of permission (`copyTree_fails`).  Where
nothing is locked it never does so: what is copied comes without a lock from a source that has none
(`Copied.unlocked`), so each entry finds the target as open as the one before it.
-/

namespace FileRoutes

/-- The overlay of entries that are not locked is not locked. -/
theorem Entry.isUnlocked_overlay {new old : Option Entry} {e : Entry} (hnew : ∀ x ∈ new, x.IsUnlocked)
    (hold : ∀ x ∈ old, x.IsUnlocked) (h : Entry.overlay new old = some e) : e.IsUnlocked := by
  cases new with
  | none => exact hold e h
  | some x =>
    cases x with
    | file mode contents => exact hnew e h
    | link target => exact hnew e h
    | directory mode entries =>
      cases old with
      | none =>
        rw [← Option.some.inj h]
        rfl
      | some y =>
        have hy := hold y rfl
        cases y with
        | directory m es =>
          rw [← Option.some.inj h]
          exact hy
        | file m contents =>
          rw [← Option.some.inj h]
          rfl
        | link target =>
          rw [← Option.some.inj h]
          rfl

namespace Copy

open FileSystem (Makes Spellable)

/-! ## A link at the end of the source -/

section Link

variable {source : Path} {s : Session}

/-- A copy of a source that ends in a link fails, and leaves everything as it was. -/
theorem copyTree_of_link (target : Path) {link : Path} (h : s.fs.lookup .itself source = .ok (.link link)) :
    Ends (copyTree source target) s (fun _ _ => False) (·.fs = s.fs) := by
  rw [copyTree]
  refine .bind (Action.ends_tell fun t ht => ?_)
  rw [← ht] at h ⊢
  refine .bind (Action.ends_ask (fun origin _ => ?_) rfl)
  refine .bind (Action.ends_ask (fun goal _ => ?_) rfl)
  split
  · exact .bind (.throw rfl)
  · refine .bind ?_
    rw [walk]
    refine .bind (Action.ends_fileSystem (.bind (Action.ends_attempt (fun top htop => ?_) rfl)))
    have hlookup := Action.eq_ok_of_mapError htop
    rw [h] at hlookup
    rw [← Except.ok.inj hlookup, Entry.kind, copyEntry]
    exact .bind (.bind ((copyLink_of_top _ target).mono (fun _ _ h => h.elim) fun _ => id))

end Link

/-! ## Where nothing is locked -/

/-- What is copied comes without a lock. -/
theorem Copied.unlocked {fs fs' : FileSystem} {origin goal : Location} {part : List Name → Prop}
    (hc : Copied origin goal part fs fs') (h : fs.Unlocked) : fs'.Unlocked := by
  intro loc e he
  by_cases hpart : ∃ below, part below ∧ loc = goal ++ below
  · obtain ⟨below, hbelow, rfl⟩ := hpart
    rw [hc.overlaid below hbelow] at he
    exact Entry.isUnlocked_overlay (h _) (h _) he
  · rw [hc.touches.view_eq loc fun ⟨below, _, hbelow, _, heq, _⟩ => hpart ⟨below, hbelow, heq⟩] at he
    exact h loc e he

section Unlocked

variable {source target : Path} {origin goal : Location} {names : List Name} {s : Session} {task : Task}

/-- A change that does not fail for a lack of permission. -/
theorem change_granted {c : Change Unit} (h : FailsOnly (· ≠ .denied) c s.fs) :
    FailsOnly (¬ ·.IsDenied) (Action.change task c) s :=
  Action.failsOnly_change h fun _ hfault hdenied => hfault (Option.some.inj hdenied)

theorem ask_granted {α : Type} {question : FileSystem → Except Fault α}
    (h : FileSystem.Granted (question s.fs)) : FailsOnly (¬ ·.IsDenied) (Action.ask task question) s :=
  Action.failsOnly_ask fun fault hfault hdenied => h fault hfault (Option.some.inj hdenied)

theorem entries_granted (h : s.fs.Unlocked) : FailsOnly (¬ ·.IsDenied) (Copy.entries source names) s :=
  failsOnly_entries fun fault hlist hdenied =>
    FileSystem.list_granted h _ fault hlist (Option.some.inj hdenied)

theorem copyLink_granted {entry destination : Path} (h : s.fs.Unlocked)
    (hcurrent : s.fs.HasDirectory s.fs.current.location) (hanchored : s.fs.Anchored destination) :
    FailsOnly (¬ ·.IsDenied) (copyLink entry destination) s := by
  -- the new link is made in a state in which the old entry may have been removed
  have hcreate {t : Session} (ht : t.fs.Unlocked) (held : Path) {message : Text} :
      FailsOnly (¬ ·.IsDenied) (do
        Action.tell .debug .copying message
        Action.change (.createLink destination) (FileSystem.createLink held destination)) t := by
    refine .bind Action.failsOnly_tell fun _ u htell => ?_
    rw [← Action.tell_run htell] at ht
    exact change_granted (FileSystem.createLink_granted ht held)
  rw [copyLink]
  refine .bind (ask_granted (FileSystem.readLink_granted h _)) fun held t hread => ?_
  obtain ⟨-, rfl⟩ := Action.ask_run hread
  refine .bind_of_ok (Action.fileSystem_eq_ok s) ?_
  split
  · refine .bind (change_granted (FileSystem.removeFile_granted h)) fun _ t hremove => ?_
    obtain ⟨directory, last, -, -, hclears, -⟩ := (FileSystem.removeFile_ends hcurrent hanchored).ok_of_run
      (Action.change_run hremove)
    exact hcreate (hclears.unlocked h) held
  · exact hcreate h held

/-- No entry is copied with a permission denied. -/
theorem copyEntry_granted {kind : Entry.Kind} (h : s.fs.Unlocked)
    (hcurrent : s.fs.HasDirectory s.fs.current.location)
    (hanchored : s.fs.Anchored (target.join (.ofNames names))) :
    FailsOnly (¬ ·.IsDenied) (copyEntry source target names kind) s := by
  cases kind with
  | directory =>
    rw [copyEntry]
    exact .bind (change_granted (FileSystem.createDirectories_granted h)) fun _ _ _ => .pure _
  | link =>
    rw [copyEntry]
    exact .bind (copyLink_granted h hcurrent hanchored) fun _ _ _ => .pure _
  | file =>
    rw [copyEntry]
    refine .bind Action.failsOnly_tell fun _ t htell => ?_
    rw [← Action.tell_run htell] at h
    exact .bind (change_granted (FileSystem.copyFile_granted h _)) fun _ _ _ => .pure _

/-- The walk below a directory does not fail for a lack of permission. -/
theorem walkFails_of_unlocked : WalkFails (¬ ·.IsDenied) source target origin goal
    fun fs => Course fs source target origin goal ∧ fs.Unlocked where
  course _ h := h.1
  copied _ _ _ h hc := ⟨h.1.copied hc, hc.unlocked h.2⟩
  entries s names mode entries h _ := entries_granted h.2
  entry s init name e h _ he :=
    copyEntry_granted h.2 h.1.current
      (h.1.targetAnchored.of_isAbsolute_eq (h.1.goesOn_destination he).isAbsolute_eq)
  depth _ _ _ _ _ _ hdenied := by cases hdenied

/-- The walk does not fail for a lack of permission. -/
theorem walk_granted (h : Apart s.fs source target origin goal) (hunlocked : s.fs.Unlocked) :
    FailsOnly (¬ ·.IsDenied) (walk source target) s := by
  obtain ⟨mode, entries, -, htreads, hfind⟩ := h.treads
  have hanchored := h.spells.1
  have hgoesOn : target.GoesOn [] (target.join (.ofNames [])) := .join target (by simp)
  refine h.failsOnly_walk (copyEntry_granted hunlocked h.valid.current
    (hanchored.of_isAbsolute_eq hgoesOn.isAbsolute_eq)) fun t hmakes harrives => ?_
  obtain ⟨made, hmakes', -, hcourse⟩ := Course.exists_of_arrives h.valid h.harmless htreads.anchored
    htreads.reaches ⟨mode, entries, hfind⟩ hanchored hmakes harrives
  have hkept := Makes.find?_source h.harmless hmakes' []
  refine walkFails_of_unlocked.below rfl ⟨hcourse, hmakes.unlocked hunlocked⟩ ?_
    ⟨mode, entries, hkept.trans ?_⟩
  · rw [List.append_nil]
    exact hcourse.targetDirectory
  · rwa [List.append_nil]

/-- Where nothing is locked a copy does not fail for a lack of permission. -/
theorem copyTree_granted (h : Apart s.fs source target origin goal) (hunlocked : s.fs.Unlocked) :
    FailsOnly (¬ ·.IsDenied) (copyTree source target) s := by
  refine h.failsOnly_copyTree fun t ht => ?_
  rw [← ht] at h hunlocked
  exact walk_granted h hunlocked

/-- Where nothing is locked a copy between trees that do not clash succeeds. -/
theorem copyTree_succeeds (h : Apart s.fs source target origin goal)
    (hstorable : Storable s.fs source target origin)
    (hlast : s.fs.find? goal = none → target.lastName? ≠ none)
    (hagrees : ∀ below, ¬ Clash s.fs origin goal below) (hunlocked : s.fs.Unlocked) :
    ∃ totals t, copyTree source target s = (.ok totals, t) ∧
      Completed source target origin goal s.fs t.fs totals := by
  cases hrun : copyTree source target s with
  | mk result t =>
    cases result with
    | error failure =>
      exact absurd (copyTree_fails h hstorable hlast hagrees failure t hrun)
        (copyTree_granted h hunlocked failure t hrun)
    | ok totals => exact ⟨totals, t, rfl, h.completed hrun⟩

/-- Where nothing is locked a copy succeeds exactly if the two trees do not clash, and then it leaves the
overlay and counts the entries of the source. -/
theorem copyTree_unlocked (h : Apart s.fs source target origin goal)
    (hstorable : Storable s.fs source target origin)
    (hlast : s.fs.find? goal = none → target.lastName? ≠ none) (hunlocked : s.fs.Unlocked) :
    ((∃ totals t, copyTree source target s = (.ok totals, t)) ↔
        ∀ below, ¬ Clash s.fs origin goal below) ∧
      ∀ totals t, copyTree source target s = (.ok totals, t) →
        Laid origin goal s.fs t.fs ∧ ∃ e, s.fs.find? origin = some e ∧ totals = e.census := by
  refine ⟨⟨?_, fun hagrees => ?_⟩, fun totals t hrun => ?_⟩
  · rintro ⟨totals, t, hrun⟩ below
    exact ((h.completed hrun).overlaid h.prefix_of_passes below).2
  · obtain ⟨totals, t, hrun, -⟩ := copyTree_succeeds h hstorable hlast hagrees hunlocked
    exact ⟨totals, t, hrun⟩
  · exact ⟨h.laid (h.completed hrun), (h.completed hrun).totals_eq⟩

end Unlocked

/-! ## A new target -/

/-- The source is accepted, by whatever path it is named, and the target is new: nothing is there yet, no
link is on the way to it, and it is not in the source.  Nothing is locked, and the system can take the
names, the paths and the links, also where the source is named by its location. -/
structure Vacant (fs : FileSystem) (source target : Path) (origin goal : Location) : Prop where
  valid : fs.Valid
  unlocked : fs.Unlocked
  isDirectory : fs.isDirectory source = true
  origin_eq : fs.canonical source = .ok origin
  goal_eq : targetLocation fs target = .ok goal
  targetFree : fs.LinkFree target
  targetDots : Path.dotDot ∉ target.segments
  targetName : target.lastName? ≠ none
  missing : fs.find? goal = none
  /-- What is above the target is a directory, as far as there is anything. -/
  above : ∀ loc, loc <+: goal → loc ≠ goal → fs.find? loc = none ∨ fs.HasDirectory loc
  outside : ¬ origin <+: goal
  short : ∀ name ∈ origin, name.length ≤ FileSystem.nameLimit
  storable : Storable fs source target origin
  storable' : Storable fs (.ofLocation origin) target origin

namespace Vacant

variable {fs : FileSystem} {source target : Path} {origin goal : Location}

/-- The canonical location of the source is that of a directory. -/
theorem hasDirectory (h : Vacant fs source target origin goal) : fs.HasDirectory origin := by
  obtain ⟨hanchored, hmadeAt⟩ := FileSystem.madeAt_of_canonical h.valid h.origin_eq
  obtain ⟨loc, hreaches, hdirectory⟩ := FileSystem.reaches_of_isDirectory hanchored h.isDirectory
  rwa [← hreaches.eq hmadeAt]

theorem origin_ne_nil (h : Vacant fs source target origin goal) : origin ≠ [] := by
  rintro rfl
  exact h.outside List.nil_prefix

theorem spellable (h : Vacant fs source target origin goal) : Spellable origin where
  ordinary := by
    obtain ⟨mode, entries, hfind⟩ := h.hasDirectory
    exact h.valid.tree.ordinary_of_find? hfind
  names := h.short
  path := by
    obtain ⟨mode, entries, hfind⟩ := h.hasDirectory
    exact h.storable'.sourcePath [] _ (by rwa [List.append_nil])

theorem find?_goal (h : Vacant fs source target origin goal) (below : Location) :
    fs.find? (goal ++ below) = none := by
  cases below with
  | nil => rw [List.append_nil, h.missing]
  | cons name below =>
    exact FileSystem.find?_append_eq_none (FileSystem.not_hasDirectory_of_none h.missing)
      (List.cons_ne_nil name below)

/-- Nothing is in the way of the copy. -/
theorem agrees (h : Vacant fs source target origin goal) (below : Location) :
    ¬ Clash fs origin goal below := by
  rintro ⟨e, old, -, hold, -⟩
  rw [FileSystem.view, h.find?_goal] at hold
  cases hold

/-- Any path whose entry is the directory of the source is that of a tree apart from the target. -/
theorem apart (h : Vacant fs source target origin goal) {path : Path} {mode : Mode}
    {entries : List (Name × Entry)} (hlookup : fs.lookup .itself path = .ok (.directory mode entries))
    (hcanonical : fs.canonical path = .ok origin) : Apart fs path target origin goal where
  valid := h.valid
  sourceDirectory := ⟨mode, entries, hlookup⟩
  origin_eq := hcanonical
  goal_eq := h.goal_eq
  targetFree := h.targetFree
  noTargetLink below link hlink := by
    rw [h.find?_goal] at hlink
    cases hlink
  targetDots := h.targetDots
  above := h.above
  apart := h.outside
  apart' hprefix := by
    obtain ⟨mode, entries, hfind⟩ := h.hasDirectory.above hprefix
    rw [h.missing] at hfind
    cases hfind

/-- The location of the source is its own canonical path. -/
theorem apart_ofLocation (h : Vacant fs source target origin goal) :
    Apart fs (.ofLocation origin) target origin goal := by
  obtain ⟨mode, entries, hfind⟩ := h.hasDirectory
  obtain ⟨above, name, heq⟩ := (List.eq_nil_or_concat origin).resolve_left h.origin_ne_nil
  rw [List.concat_eq_append] at heq
  have hlookup : fs.lookup .itself (.ofLocation origin) = .ok (.directory mode entries) := by
    subst heq
    exact FileSystem.lookup_ofLocation h.unlocked h.spellable hfind
  exact h.apart hlookup (FileSystem.canonical_ofLocation h.unlocked h.origin_ne_nil h.hasDirectory h.spellable)

end Vacant

/-- What a copy leaves does not depend on how the source is named. -/
theorem Laid.view_eq {fs fs' fs'' : FileSystem} {origin goal : Location} (h : Laid origin goal fs fs')
    (h' : Laid origin goal fs fs'') (hgoal : fs'.HasDirectory goal) (hgoal' : fs''.HasDirectory goal)
    (loc : Location) : fs''.view loc = fs'.view loc := by
  by_cases hinside : goal <+: loc
  · obtain ⟨below, rfl⟩ := hinside
    rw [h.overlaid below, h'.overlaid below]
  · -- what is above the target is there now, so it was made if it was missing
    have hmade {t : FileSystem} (hlaid : Laid origin goal fs t) (ht : t.HasDirectory goal) :
        t.view loc = if loc <+: goal ∧ fs.view loc = none then some .emptyDirectory else fs.view loc := by
      rcases hlaid.outside loc hinside with hsame | ⟨habove, hnone, hempty⟩
      · rw [hsame, if_neg]
        rintro ⟨habove, hnone⟩
        obtain ⟨mode, hmode⟩ := FileSystem.hasDirectory_iff_view.mp (ht.above habove)
        rw [hsame, hnone] at hmode
        cases hmode
      · rw [hempty, if_pos ⟨habove, hnone⟩]
    rw [hmade h hgoal, hmade h' hgoal']

section Named

variable {source target : Path} {origin goal : Location} {s : Session}

/-- A copy to a new target from the location of the source succeeds, and leaves the entries of the source.
If the path of the source ends in a link, a copy from there fails and leaves everything as it was;
otherwise, whatever links are on its way, it succeeds with the same totals and leaves the same. -/
theorem copyTree_named (h : Vacant s.fs source target origin goal) :
    ∃ totals t, copyTree (.ofLocation origin) target s = (.ok totals, t) ∧
      (∃ e, s.fs.find? origin = some e ∧ totals = e.census) ∧
      (∀ below, t.fs.view (goal ++ below) = Entry.overlay (s.fs.view (origin ++ below)) none) ∧
      ((∃ link, s.fs.lookup .itself source = .ok (.link link)) →
        ∃ failure t', copyTree source target s = (.error failure, t') ∧ t'.fs = s.fs) ∧
      ((∀ link, s.fs.lookup .itself source ≠ .ok (.link link)) →
        ∃ t', copyTree source target s = (.ok totals, t') ∧ ∀ loc, t'.fs.view loc = t.fs.view loc) := by
  have hlocated := h.apart_ofLocation
  obtain ⟨totals, t, hrun, hcompleted⟩ :=
    copyTree_succeeds hlocated h.storable' (fun _ => h.targetName) h.agrees h.unlocked
  refine ⟨totals, t, hrun, hcompleted.totals_eq, fun below => ?_, fun ⟨link, hlink⟩ => ?_, fun hlink => ?_⟩
  · have hoverlaid := (hlocated.laid hcompleted).overlaid below
    rwa [Overlaid, FileSystem.view_eq_none_iff.mpr (h.find?_goal below)] at hoverlaid
  · have hends := copyTree_of_link target hlink
    cases hcopy : copyTree source target s with
    | mk result t' =>
      cases result with
      | ok totals' => exact (hends.ok_of_run hcopy).elim
      | error failure => exact ⟨failure, t', rfl, hends.fails_of_run hcopy⟩
  · obtain ⟨mode, entries, hlookup⟩ := (FileSystem.lookup_itself_of_isDirectory h.isDirectory).resolve_right
      fun ⟨link, heq⟩ => hlink link heq
    have hnamed := h.apart hlookup h.origin_eq
    obtain ⟨totals', t', hrun', hcompleted'⟩ :=
      copyTree_succeeds hnamed h.storable (fun _ => h.targetName) h.agrees h.unlocked
    obtain ⟨e, he, htotals⟩ := hcompleted.totals_eq
    obtain ⟨e', he', htotals'⟩ := hcompleted'.totals_eq
    rw [he] at he'
    obtain rfl : totals' = totals := by rw [htotals, htotals', Option.some.inj he']
    exact ⟨t', hrun', (hlocated.laid hcompleted).view_eq (hnamed.laid hcompleted') hcompleted.hasDirectory
      hcompleted'.hasDirectory⟩

end Named

/-! ## A sample -/

/-- A directory with a file in it, and a link to the directory. -/
def linkedSource : FileSystem where
  root := .directory .full [
    (Utf8.encode "src", .directory .full [(Utf8.encode "a.ts", .file .plain [0x78])]),
    (Utf8.encode "from", .link (.ofText "src"))]
  current := .ofLocation []

/-- The entries of the source of the sample. -/
theorem everything_linkedSource {names : List Name} {e : Entry}
    (he : linkedSource.find? ([Utf8.encode "src"] ++ names) = some e) :
    names ∈ [[], [Utf8.encode "a.ts"]] ∧ e.kind ≠ .link := by
  have hall : ∀ q ∈ Entry.everything (.directory .full [(Utf8.encode "a.ts", .file .plain [0x78])]),
      q.1 ∈ [[], [Utf8.encode "a.ts"]] ∧ q.2.kind ≠ .link := by
    decide
  exact hall _ (Entry.mem_everything he)

/-- The link of the sample is beside its source. -/
theorem link_linkedSource {loc : Location} {link : Path} (h : linkedSource.find? loc = some (.link link)) :
    loc = [Utf8.encode "from"] := by
  have hall : ∀ q ∈ linkedSource.root.everything, q.2.kind = .link → q.1 = [Utf8.encode "from"] := by decide
  exact hall _ (Entry.mem_everything h) rfl

theorem storable_linkedSource {source : Path}
    (hpaths : ∀ names ∈ [[], [Utf8.encode "a.ts"]],
      (entryPath source names).bytes.length < FileSystem.pathLimit) :
    Storable linkedSource source (.ofText "to") [Utf8.encode "src"] := by
  have hall : ∀ names ∈ [[], [Utf8.encode "a.ts"]], (∀ name ∈ names, name.length ≤ FileSystem.nameLimit) ∧
      (Path.join (.ofText "to") (.ofNames names)).bytes.length < FileSystem.pathLimit := by
    decide
  refine ⟨fun names e he => (hall names (everything_linkedSource he).1).1,
    fun names e he => hpaths names (everything_linkedSource he).1, fun name hname => ?_,
    fun names e he => (hall names (everything_linkedSource he).1).2, by decide,
    fun names link he => absurd rfl (everything_linkedSource he).2⟩
  have hmoves : Path.moves (.ofText "to") = [.down (Utf8.encode "to")] := by decide
  rw [hmoves, List.mem_singleton] at hname
  rw [Step.down.inj hname]
  decide

/-- The target of the sample is new, whichever path names the source. -/
theorem vacant_linkedSource (source : Path) (hdirectory : linkedSource.isDirectory source = true)
    (hcanonical : linkedSource.canonical source = .ok [Utf8.encode "src"])
    (hpaths : ∀ names ∈ [[], [Utf8.encode "a.ts"]],
      (entryPath source names).bytes.length < FileSystem.pathLimit) :
    Vacant linkedSource source (.ofText "to") [Utf8.encode "src"] [Utf8.encode "to"] where
  valid := ⟨by decide, _, _, rfl⟩
  unlocked := .of_everything (by decide)
  isDirectory := hdirectory
  origin_eq := hcanonical
  goal_eq := by rfl
  targetFree way hway link hlink := by
    have hmoves : Path.moves (.ofText "to") = [.down (Utf8.encode "to")] := by decide
    have hall : ∀ way ∈ [Step.down (Utf8.encode "to")].inits,
        way.foldl Step.move (linkedSource.beginning (.ofText "to")) ≠ [Utf8.encode "from"] := by decide
    rw [hmoves] at hway
    exact hall way ((List.mem_inits way _).mpr hway) (link_linkedSource hlink)
  targetDots := by decide
  targetName := by decide
  missing := rfl
  above loc hloc hne := by
    obtain rfl : loc = [] := by
      rcases List.prefix_concat_iff.mp (show loc <+: [] ++ [Utf8.encode "to"] from hloc) with heq | hnil
      · exact absurd heq hne
      · exact List.prefix_nil.mp hnil
    exact Or.inr ⟨_, _, rfl⟩
  outside := by decide
  short := by decide
  storable := storable_linkedSource hpaths
  storable' := storable_linkedSource (by decide)

/-- With a slash behind it the link is followed, so the copy is that of the directory behind it; without
one the copy fails. -/
theorem copyTree_named_linkedSource :
    (∃ totals t t',
      copyTree (.ofLocation [Utf8.encode "src"]) (.ofText "to") (.fresh linkedSource) = (.ok totals, t) ∧
        copyTree (.ofText "from/") (.ofText "to") (.fresh linkedSource) = (.ok totals, t') ∧
          ∀ loc, t'.fs.view loc = t.fs.view loc) ∧
      ∃ failure t, copyTree (.ofText "from") (.ofText "to") (.fresh linkedSource) = (.error failure, t) ∧
        t.fs = linkedSource := by
  have hslash : linkedSource.lookup .itself (.ofText "from/") =
      .ok (.directory .full [(Utf8.encode "a.ts", .file .plain [0x78])]) := by rfl
  have hlink : linkedSource.lookup .itself (.ofText "from") = .ok (.link (.ofText "src")) := by rfl
  constructor
  · obtain ⟨totals, t, hrun, -, -, -, hnamed⟩ := copyTree_named (s := .fresh linkedSource)
      (vacant_linkedSource (.ofText "from/") (by rfl) (by rfl) (by decide))
    obtain ⟨t', hrun', hsame⟩ := hnamed fun link heq => by
      rw [show (Session.fresh linkedSource).fs = linkedSource from rfl, hslash] at heq
      cases heq
    exact ⟨totals, t, t', hrun, hrun', hsame⟩
  · obtain ⟨-, -, -, -, -, hfails, -⟩ := copyTree_named (s := .fresh linkedSource)
      (vacant_linkedSource (.ofText "from") (by rfl) (by rfl) (by decide))
    exact hfails ⟨_, hlink⟩

/-- A link to a directory is accepted as a source, and the directory can be copied to the new target, but
the link cannot. -/
theorem copyTree_fails_linkedSource :
    Vacant linkedSource (.ofText "from") (.ofText "to") [Utf8.encode "src"] [Utf8.encode "to"] ∧
      (copyTree (.ofText "from") (.ofText "to") (.fresh linkedSource)).1.isOk = false ∧
      ∃ t, copyTree (.ofLocation [Utf8.encode "src"]) (.ofText "to") (.fresh linkedSource) =
        (.ok ⟨1, 1, 0⟩, t) := by
  refine ⟨vacant_linkedSource _ (by rfl) (by rfl) (by decide), by decide +kernel, ?_⟩
  obtain ⟨totals, t, hrun⟩ := exists_of_isOk_run
    (x := copyTree (.ofLocation [Utf8.encode "src"]) (.ofText "to")) (s := .fresh linkedSource) (by decide +kernel)
  have htotals : (copyTree (.ofLocation [Utf8.encode "src"]) (.ofText "to") (.fresh linkedSource)).1.toOption =
      some ⟨1, 1, 0⟩ := by decide +kernel
  rw [hrun] at htotals
  obtain rfl := Option.some.inj htotals
  exact ⟨t, hrun⟩

end Copy

end FileRoutes
