import FileRoutes.Migration.Copy
import FileRoutes.Proofs.FileSystem.Canonical
import FileRoutes.Proofs.Migration.Session

/-!
# The guard against copying a tree into itself

The guard compares the source with a location that it works out from the text of the target: dots are
taken out first, and links are followed afterwards.  The system goes from left to right instead, and
leaves a link by two dots where the link leads.  So the two may differ, and then the guard compares
with a place where nothing is going to be made.

## When the guard is right

The location is the one where the system makes the target (`targetLocation_eq_of_madeAt`) provided that

* no two dots take back the name of a link (`TakesBackLink`), and
* each link that is left when the dots have been taken out has a canonical location (`LosesLink`).

Neither can be left out.  In the first case the copy may overwrite its source (`copyTree_onto_source`).  In
the second a copy to a link that leads nowhere fails by itself, but behind directories that are made for it
first, and these stay (`copyTree_past_lostLink`).

What carries the proof is that a location of the text and the place that has been reached stay
together: the names of the one lead to the other (`freeWay_lexical`).
-/

namespace FileRoutes

namespace Copy

variable {fs : FileSystem} {source target : Path} {origin goal : Location}

/-! ## The text of the target -/

theorem lexicalStep_eq (loc : Location) (segment : Name) :
    lexicalStep loc segment = ((Step.ofSegment? segment).map (Step.move loc)).getD loc := by
  rw [lexicalStep, Step.ofSegment?]
  by_cases hnil : segment = []
  · rw [if_pos (Or.inl hnil), if_pos hnil]
    rfl
  by_cases hdot : segment = Path.dot
  · rw [if_pos (Or.inr hdot), if_neg hnil, if_pos hdot]
    rfl
  rw [if_neg (not_or.mpr ⟨hnil, hdot⟩), if_neg hnil, if_neg hdot]
  split <;> rfl

/-- The text of a path spells the location that its moves lead to. -/
theorem foldl_lexicalStep (segments : List Name) (loc : Location) :
    segments.foldl lexicalStep loc = (segments.filterMap Step.ofSegment?).foldl Step.move loc := by
  induction segments generalizing loc with
  | nil => rfl
  | cons s segments ih =>
    rw [List.foldl_cons, ih, lexicalStep_eq, List.filterMap_cons]
    cases Step.ofSegment? s <;> rfl

/-- The guard settles the location that the target spells. -/
theorem targetLocation_eq_settle (h : targetLocation fs target = .ok goal) :
    fs.Anchored target ∧ goal = settle fs (fs.spelled target).reverse := by
  obtain ⟨hanchored, hgoal⟩ := FileSystem.anchored_of_start h
  refine ⟨hanchored, ?_⟩
  have hspelled : lexicalLocation (fs.beginning target) target = fs.spelled target := by
    rw [lexicalLocation, foldl_lexicalStep, FileSystem.spelled, FileSystem.beginning]
    split <;> rfl
  rw [← Except.ok.inj hgoal, hspelled]

/-- Where a target is depends on the current directory and on what is there. -/
theorem exists_targetLocation {fs' : FileSystem} (hcurrent : fs'.current = fs.current)
    (h : targetLocation fs target = .ok goal) : ∃ goal', targetLocation fs' target = .ok goal' := by
  rw [targetLocation] at h ⊢
  by_cases habsolute : target.isAbsolute = true
  · rw [if_pos habsolute]
    exact ⟨_, rfl⟩
  · rw [if_neg habsolute] at h ⊢
    obtain ⟨start, hstart, -⟩ := exists_of_bind_eq_ok h
    rw [FileSystem.currentLocation, ← hcurrent, ← FileSystem.currentLocation] at hstart
    rw [hstart]
    exact ⟨_, rfl⟩

/-! ## Where the system makes the target -/

/-- Two dots in the path take back the name of a link: as text it is gone, but the system follows it. -/
def TakesBackLink (fs : FileSystem) (p : Path) : Prop :=
  ∃ before after l name d link, p.moves = before ++ .up :: after ∧
    before.foldl Step.move (fs.beginning p) = l ++ [name] ∧ fs.FreeWay [] (l.map .down) d ∧
    fs.find? (d ++ [name]) = some (.link link)

/-- The text of the path, without its dots, goes through a link that has no canonical location. -/
def LosesLink (fs : FileSystem) (p : Path) : Prop :=
  ∃ l name d link, l ++ [name] <+: fs.spelled p ∧ fs.FreeWay [] (l.map .down) d ∧
    fs.find? (d ++ [name]) = some (.link link) ∧
    ∀ loc, fs.canonical (.ofLocation (l ++ [name])) ≠ .ok loc

/-- The names that the text has led to so far lead to what has been reached, if no name of a link is
taken back. -/
theorem freeWay_lexical {steps : List Step} {l loc last : Location}
    (hl : fs.FreeWay [] (l.map .down) loc) (hway : fs.FreeWay loc steps last)
    (hback : ∀ before after, steps = before ++ .up :: after → ∀ above name d link,
      before.foldl Step.move l = above ++ [name] → fs.FreeWay [] (above.map .down) d →
      fs.find? (d ++ [name]) ≠ some (.link link)) :
    fs.FreeWay [] ((steps.foldl Step.move l).map .down) last := by
  induction steps generalizing l loc with
  | nil =>
    cases hway
    exact hl
  | cons step rest ih =>
    have hrest {next : Location} (hnext : next = Step.move l step) : ∀ before after,
        rest = before ++ .up :: after → ∀ above name d link,
        before.foldl Step.move next = above ++ [name] → fs.FreeWay [] (above.map .down) d →
        fs.find? (d ++ [name]) ≠ some (.link link) := by
      intro before after hrest above name d link hfold
      exact hback (step :: before) after (by rw [hrest]; rfl) above name d link
        (by rw [List.foldl_cons, ← hnext, hfold])
    obtain ⟨next, hstep, hgo⟩ := FileSystem.exists_of_way_append (s := [step]) hway
    refine ih ?_ hgo (hrest rfl)
    cases step with
    | stay =>
      cases hstep with
      | stay _ done => cases done; exact hl
    | settle =>
      cases hstep with
      | settle done => cases done; exact hl
    | down name =>
      rw [Step.move, List.map_append]
      exact hl.append hstep
    | up =>
      obtain rfl : next = loc.dropLast := by
        cases hstep with
        | up _ done => cases done; rfl
      rcases List.eq_nil_or_concat l with rfl | ⟨above, name, rfl⟩
      · cases hl
        exact .done []
      · rw [List.concat_eq_append] at hl hback ⊢
        rw [Step.move, List.dropLast_concat]
        rw [List.map_append] at hl
        obtain ⟨d, habove, hname⟩ := FileSystem.exists_of_way_append hl
        obtain rfl := hname.eq_of_down (hback [] rest rfl above name d · rfl habove)
        rwa [List.dropLast_concat]

/-- Settling a location follows its names, if each link among them has a canonical location. -/
theorem settle_eq_of_freeWay (hfs : fs.Valid) {names : List Name}
    (hdown : ∀ name ∈ names, name.IsDown) (hgoal : fs.FreeWay [] (names.reverse.map .down) goal)
    (hlinks : ∀ l name d link, l ++ [name] <+: names.reverse → fs.FreeWay [] (l.map .down) d →
      fs.find? (d ++ [name]) = some (.link link) →
      ∃ loc, fs.canonical (.ofLocation (l ++ [name])) = .ok loc) :
    settle fs names = goal := by
  induction names generalizing goal with
  | nil =>
    cases hgoal
    rfl
  | cons name above ih =>
    rw [settle]
    rw [List.reverse_cons] at hgoal hlinks ⊢
    cases hcanonical : fs.canonical (.ofLocation (above.reverse ++ [name])) with
    | ok loc =>
      obtain ⟨-, hmade⟩ := FileSystem.madeAt_of_canonical hfs hcanonical
      have hdown' : ∀ n ∈ above.reverse ++ [name], n.IsDown := fun n hn =>
        hdown n (by simpa [or_comm] using hn)
      rw [FileSystem.MadeAt, Path.moves_ofLocation hdown', FileSystem.beginning,
        if_pos (Path.isAbsolute_ofLocation _)] at hmade
      exact hmade.eq hgoal
    | error fault =>
      rw [List.map_append] at hgoal
      obtain ⟨d, habove, hname⟩ := FileSystem.exists_of_way_append hgoal
      have hsettle : settle fs above = d :=
        ih (fun n hn => hdown n (List.mem_cons_of_mem name hn)) habove
          fun l n d' link hl => hlinks l n d' link (hl.trans (List.prefix_append _ _))
      simp only [hsettle]
      refine (hname.eq_of_down fun link hlink => ?_).symm
      obtain ⟨loc, hloc⟩ := hlinks above.reverse name d link (List.prefix_refl _) habove hlink
      rw [hcanonical] at hloc
      cases hloc

/-- The guard compares with the location where the system makes the target. -/
theorem targetLocation_eq_of_madeAt (hfs : fs.Valid) (hback : ¬ TakesBackLink fs target)
    (hlost : ¬ LosesLink fs target) {loc : Location} (hmade : fs.MadeAt target loc)
    (h : targetLocation fs target = .ok goal) : goal = loc := by
  obtain ⟨-, rfl⟩ := targetLocation_eq_settle h
  have hbeginning : fs.FreeWay [] ((fs.beginning target).map .down) (fs.beginning target) := by
    have hclear := hfs.clear_beginning target
    exact FileSystem.freeWay_downs hclear.noLink
  have hspelled : fs.FreeWay [] ((fs.spelled target).map .down) loc :=
    freeWay_lexical hbeginning hmade fun before after hmoves l name d link hfold hway hlink =>
      hback ⟨before, after, l, name, d, link, hmoves, hfold, hway, hlink⟩
  refine settle_eq_of_freeWay hfs (fun name hname => ?_) ?_ fun l name d link hl hway hlink => ?_
  · refine Step.forall_mem_foldl_move (fun _ hname => (Path.isDown_of_mem_moves hname).1) ?_ name
      (List.mem_reverse.mp hname)
    exact (hfs.clear_beginning target).isDown
  · rwa [List.reverse_reverse]
  · rw [List.reverse_reverse] at hl
    by_contra hnone
    exact hlost ⟨l, name, d, link, hl, hway, hlink, fun loc hloc => hnone ⟨loc, hloc⟩⟩

/-- A location above which there is no link leads to itself. -/
theorem settle_eq (hfs : fs.Valid) {names : List Name} (hclear : fs.Clear names.reverse) :
    settle fs names = names.reverse := by
  refine settle_eq_of_freeWay hfs (fun name hname => hclear.isDown name (List.mem_reverse.mpr hname))
    (FileSystem.freeWay_downs hclear.noLink) fun l name d link hl hway hlink => ?_
  have hl' : fs.FreeWay [] (l.map .down) l :=
    FileSystem.freeWay_downs fun way hway =>
      hclear.noLink way (hway.trans ((List.prefix_append l _).trans hl))
  rw [hway.eq hl'] at hlink
  exact absurd hlink (hclear.noLink _ hl link)

/-- The location of a target that meets no link is the one that it spells. -/
theorem targetLocation_eq_ok (hfs : fs.Valid) (hfree : fs.LinkFree target)
    (h : targetLocation fs target = .ok goal) : fs.Anchored target ∧ goal = fs.spelled target := by
  obtain ⟨hanchored, rfl⟩ := targetLocation_eq_settle h
  refine ⟨hanchored, ?_⟩
  rw [settle_eq hfs, List.reverse_reverse]
  rw [List.reverse_reverse]
  exact hfs.clear_spelled hfree

/-! ## The refusal -/

section Refusal

variable {s : Session}

/-- A target whose location is found in the source is refused, and nothing else happens. -/
theorem copyTree_of_prefix (horigin : s.fs.canonical source = .ok origin)
    (hgoal : targetLocation s.fs target = .ok goal) (hinside : origin <+: goal) :
    ∃ s', copyTree source target s = (.error (.refused (.targetInside target source)), s') ∧
      s'.fs = s.fs := by
  obtain ⟨t, htell, hsame⟩ :=
    Action.exists_tell .info .copying ("Copying " ++ source.text ++ " to " ++ target.text) s
  rw [← hsame] at horigin hgoal
  refine ⟨t, ?_, hsame⟩
  rw [copyTree, bind_run_of_ok htell, bind_run_of_ok (Action.ask_eq_ok (·.canonical source) horigin),
    bind_run_of_ok (Action.ask_eq_ok (targetLocation · target) hgoal),
    if_pos (List.isPrefixOf_iff_prefix.mpr hinside), bind_run_of_error (throw_run _ _)]

/-- A copy whose target the system would make in the source fails and leaves everything as it was, if
the links are met in the text of the target as the system meets them. -/
theorem copyTree_refuses (hfs : s.fs.Valid) (horigin : s.fs.canonical source = .ok origin)
    (hmade : s.fs.MadeAt target goal) (hinside : origin <+: goal)
    (hback : ¬ TakesBackLink s.fs target) (hlost : ¬ LosesLink s.fs target) :
    ∃ failure s', copyTree source target s = (.error failure, s') ∧ s'.fs = s.fs := by
  cases htarget : targetLocation s.fs target with
  | ok found =>
    obtain rfl := targetLocation_eq_of_madeAt hfs hback hlost hmade htarget
    obtain ⟨s', hrun, hsame⟩ := copyTree_of_prefix horigin htarget hinside
    exact ⟨_, s', hrun, hsame⟩
  | error fault =>
    obtain ⟨t, htell, hsame⟩ :=
      Action.exists_tell .info .copying ("Copying " ++ source.text ++ " to " ++ target.text) s
    rw [← hsame] at horigin htarget
    refine ⟨.during .findCurrent (.fault fault), t, ?_, hsame⟩
    rw [copyTree, bind_run_of_ok htell, bind_run_of_ok (Action.ask_eq_ok (·.canonical source) horigin),
      bind_run_of_error (Action.ask_eq_error (targetLocation · target) htarget)]

end Refusal

/-! ## A link into the source -/

/-- A project, and a link into it. -/
def sampleWithLink : FileSystem where
  root := .directory .full [
    (Utf8.encode "from", .directory .full [
      (Utf8.encode "app", .directory .full [(Utf8.encode "page.tsx", .file .plain [0x78])])]),
    (Utf8.encode "link", .link (.ofText "from/app"))]
  current := .ofLocation []

theorem sampleWithLink_valid : sampleWithLink.Valid := ⟨by decide, _, _, rfl⟩

/-- The link leads into the project. -/
theorem freeWay_sampleLink : sampleWithLink.FreeWay [] [.down (Utf8.encode "link")]
    [Utf8.encode "from", Utf8.encode "app"] := by
  have hlink : sampleWithLink.find? ([] ++ [Utf8.encode "link"]) = some (.link (.ofText "from/app")) := rfl
  refine .link trivial hlink ?_
  exact .down trivial (fun _ h => by cases h) (.down trivial (fun _ h => by cases h) (.done _))

/-- A target behind a link into the source is refused. -/
theorem copyTree_refuses_link :
    ∃ failure s', copyTree (.ofText "from") (.ofText "link/new") (.fresh sampleWithLink) =
      (.error failure, s') ∧ s'.fs = sampleWithLink := by
  have hmade : sampleWithLink.MadeAt (.ofText "link/new")
      [Utf8.encode "from", Utf8.encode "app", Utf8.encode "new"] :=
    freeWay_sampleLink.append (.down trivial (fun _ h => by cases h) (.done _))
  have horigin : sampleWithLink.canonical (.ofText "from") = .ok [Utf8.encode "from"] := by rfl
  refine copyTree_refuses sampleWithLink_valid horigin hmade
    (by decide) ?_ ?_
  · rintro ⟨before, after, l, name, d, link, hmoves, -⟩
    have hup : Step.up ∈ Path.moves (.ofText "link/new") := by rw [hmoves]; simp
    revert hup
    decide
  · rintro ⟨l, name, d, link, ⟨rest, hrest⟩, hway, hlink, hnone⟩
    change l ++ [name] ++ rest = [Utf8.encode "link", Utf8.encode "new"] at hrest
    rw [List.append_assoc] at hrest
    cases l with
    | nil =>
      obtain rfl : name = Utf8.encode "link" := (List.cons.inj hrest).1
      exact hnone [Utf8.encode "from", Utf8.encode "app"] (by rfl)
    | cons first l =>
      obtain ⟨rfl, hrest'⟩ := List.cons.inj hrest
      cases l with
      | nil =>
        obtain rfl : name = Utf8.encode "new" := (List.cons.inj hrest').1
        rw [hway.eq freeWay_sampleLink] at hlink
        cases hlink
      | cons second l => simp at hrest'

/-- Two dots behind a link lead to the directory that holds what the link leads to. -/
theorem madeAt_link_dotDot :
    sampleWithLink.MadeAt (.ofText "link/..") [Utf8.encode "from"] :=
  freeWay_sampleLink.append (.up trivial (.done _))

/-- The guard lets a copy pass whose target is the source itself, and the file in it is emptied. -/
theorem copyTree_onto_source :
    sampleWithLink.Valid ∧ sampleWithLink.canonical (.ofText "from") = .ok [Utf8.encode "from"] ∧
      sampleWithLink.MadeAt (.ofText "link/..") [Utf8.encode "from"] ∧
      sampleWithLink.readBytes (.ofText "from/app/page.tsx") = .ok [0x78] ∧
      (copyTree (.ofText "from") (.ofText "link/..") (.fresh sampleWithLink)).1.toOption = some ⟨2, 1, 0⟩ ∧
      (copyTree (.ofText "from") (.ofText "link/..") (.fresh sampleWithLink)).2.fs.readBytes
        (.ofText "from/app/page.tsx") = .ok [] := by
  refine ⟨sampleWithLink_valid, by rfl, madeAt_link_dotDot, by rfl, ?_, ?_⟩
  · decide +kernel
  · decide +kernel

/-- A link that leads to a missing entry of the project. -/
def sampleLostLink : FileSystem where
  root := .directory .full [
    (Utf8.encode "from", .directory .full [(Utf8.encode "page.tsx", .file .plain [0x78])]),
    (Utf8.encode "a", .directory .full [(Utf8.encode "link", .link (.ofText "/from/new"))])]
  current := .ofLocation []

theorem madeAt_lostLink : sampleLostLink.MadeAt (.ofText "a/new/../link/x")
    [Utf8.encode "from", Utf8.encode "new", Utf8.encode "x"] := by
  have hlink : sampleLostLink.find? ([Utf8.encode "a"] ++ [Utf8.encode "link"]) =
      some (.link (.ofText "/from/new")) := rfl
  refine .down trivial (fun _ h => by cases h) (.down trivial (fun _ h => by cases h) (.up trivial ?_))
  refine .link trivial hlink (.down trivial (fun _ h => by cases h) ?_)
  refine .down trivial (fun _ h => by cases h) ?_
  exact .down trivial (fun _ h => by cases h) (.done _)

/-- Two dots may take back what is no link, and still a directory is made before the copy fails. -/
theorem copyTree_past_lostLink :
    sampleLostLink.Valid ∧ sampleLostLink.canonical (.ofText "from") = .ok [Utf8.encode "from"] ∧
      sampleLostLink.MadeAt (.ofText "a/new/../link/x")
        [Utf8.encode "from", Utf8.encode "new", Utf8.encode "x"] ∧
      ¬ TakesBackLink sampleLostLink (.ofText "a/new/../link/x") ∧
      sampleLostLink.exists (.ofText "a/new") = false ∧
      (copyTree (.ofText "from") (.ofText "a/new/../link/x") (.fresh sampleLostLink)).1.isOk = false ∧
      (copyTree (.ofText "from") (.ofText "a/new/../link/x") (.fresh sampleLostLink)).2.fs.exists
        (.ofText "a/new") = true := by
  refine ⟨⟨by decide, _, _, rfl⟩, by rfl, madeAt_lostLink, ?_, by rfl, by decide +kernel, by decide +kernel⟩
  rintro ⟨before, after, l, name, d, link, hmoves, hfold, hway, hlink⟩
  -- the only two dots are behind a name that is missing
  have hall : Path.moves (.ofText "a/new/../link/x") = [.down (Utf8.encode "a"), .down (Utf8.encode "new")] ++
      .up :: [.down (Utf8.encode "link"), .down (Utf8.encode "x")] := by decide
  rw [hall] at hmoves
  obtain ⟨rfl, -, -⟩ := (List.append_cons_inj_of_notMem (by decide) (by decide)).mp hmoves
  have hsplit : [Utf8.encode "a"] ++ [Utf8.encode "new"] = l ++ [name] := hfold
  obtain ⟨rfl, hname⟩ := List.append_inj' hsplit rfl
  obtain rfl := (List.cons.inj hname).1
  have hdirectory : sampleLostLink.FreeWay [] [.down (Utf8.encode "a")] [Utf8.encode "a"] :=
    .down trivial (fun _ h => by cases h) (.done _)
  rw [hway.eq hdirectory] at hlink
  cases hlink

end Copy

end FileRoutes
