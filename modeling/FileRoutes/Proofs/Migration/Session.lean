import FileRoutes.Migration.Session
import FileRoutes.Proofs.Success

/-!
# Steps of a session

What the elementary steps of a session do to its file system: questions and lines of the log leave it as
it is, and a change does what it does on its own.

No step reads the log (`Logless`), so what a sequence does to a file system can be told without it
(`Action.on`).
-/

namespace FileRoutes.Action

variable {s s' : Session} {task : Task}

theorem tellAll_run {lines : List LogLine} (h : tellAll lines s = (.ok (), s')) : s'.fs = s.fs := by
  rw [← (Prod.mk.inj h).2]

theorem tell_run {level : Level} {stage : Stage} {message : Text}
    (h : tell level stage message s = (.ok (), s')) : s'.fs = s.fs :=
  tellAll_run h

theorem exists_tell (level : Level) (stage : Stage) (message : Text) (s : Session) :
    ∃ t, tell level stage message s = (.ok (), t) ∧ t.fs = s.fs := ⟨_, rfl, rfl⟩

theorem fileSystem_run {fs : FileSystem} (h : fileSystem s = (.ok fs, s')) : s.fs = fs ∧ s = s' := by
  obtain ⟨hfs, hs⟩ := Prod.mk.inj h
  exact ⟨Except.ok.inj hfs, hs⟩

theorem fileSystem_eq_ok (s : Session) : fileSystem s = (.ok s.fs, s) := rfl

theorem attempt_run {α : Type} {result : Except Cause α} {a : α}
    (h : attempt task result s = (.ok a, s')) : result = .ok a ∧ s = s' := by
  rw [attempt.eq_def] at h
  cases result with
  | error cause => exact (not_throw_run h).elim
  | ok b =>
    obtain ⟨rfl, hs⟩ := eq_of_pure_run h
    exact ⟨rfl, hs⟩

theorem eq_ok_of_mapError {ε ε' α : Type} {f : ε → ε'} {result : Except ε α} {a : α}
    (h : result.mapError f = .ok a) : result = .ok a := by
  cases result with
  | error e => cases h
  | ok b => rw [Except.ok.inj h]

theorem ask_run {α : Type} {question : FileSystem → Except Fault α} {a : α}
    (h : ask task question s = (.ok a, s')) : question s.fs = .ok a ∧ s = s' := by
  rw [ask] at h
  obtain ⟨fs, t, hfs, h⟩ := exists_of_bind_run h
  obtain ⟨rfl, rfl⟩ := fileSystem_run hfs
  obtain ⟨hquestion, rfl⟩ := attempt_run h
  exact ⟨eq_ok_of_mapError hquestion, rfl⟩

theorem ask_eq_ok {α : Type} (question : FileSystem → Except Fault α) {a : α}
    (h : question s.fs = .ok a) : ask task question s = (.ok a, s) := by
  have hattempt : ask task question s = attempt task ((question s.fs).mapError .fault) s := rfl
  rw [hattempt, h]
  rfl

theorem ask_eq_error {α : Type} (question : FileSystem → Except Fault α) {fault : Fault}
    (h : question s.fs = .error fault) :
    ask task question s = (.error (.during task (.fault fault)), s) := by
  have hattempt : ask task question s = attempt task ((question s.fs).mapError .fault) s := rfl
  rw [hattempt, h]
  rfl

theorem change_run {α : Type} {c : Change α} {a : α} (h : change task c s = (.ok a, s')) :
    c s.fs = (.ok a, s'.fs) := by
  rw [change] at h
  split at h
  · rename_i fs hc
    obtain ⟨ha, rfl⟩ := Prod.mk.inj h
    rw [hc, Except.ok.inj ha]
  · cases (Prod.mk.inj h).1

/-! ## Both outcomes -/

section Ends

variable {α : Type} {ok : α → Session → Prop} {fails : Session → Prop}

theorem ends_tell {ok : Unit → Session → Prop} {level : Level} {stage : Stage} {message : Text}
    (h : ∀ t : Session, t.fs = s.fs → ok () t) : Ends (tell level stage message) s ok fails :=
  h _ rfl

theorem ends_fileSystem {ok : FileSystem → Session → Prop} (h : ok s.fs s) :
    Ends fileSystem s ok fails := h

theorem ends_attempt {result : Except Cause α} (hok : ∀ a, result = .ok a → ok a s)
    (hfails : fails s) : Ends (attempt task result) s ok fails := by
  cases result with
  | ok a => exact hok a rfl
  | error cause => exact hfails

theorem ends_ask {question : FileSystem → Except Fault α} (hok : ∀ a, question s.fs = .ok a → ok a s)
    (hfails : fails s) : Ends (ask task question) s ok fails := by
  rw [ask]
  exact .bind (ends_fileSystem (ends_attempt (fun a ha => hok a (eq_ok_of_mapError ha)) hfails))

theorem ends_change {c : Change α} {ok : α → FileSystem → Prop} {fails : FileSystem → Prop}
    (h : Ends c s.fs ok fails) :
    Ends (change task c) s (fun a t => ok a t.fs) (fun t => fails t.fs) := by
  rw [Ends] at h ⊢
  rw [change]
  split at h
  · rename_i hc
    rw [hc]
    exact h
  · rename_i hc
    rw [hc]
    exact h

end Ends

/-! ## What a failure is due to -/

section FailsOnly

variable {α : Type} {P : Failure → Prop}

theorem failsOnly_tell {level : Level} {stage : Stage} {message : Text} :
    FailsOnly P (tell level stage message) s := by
  intro failure t hrun
  cases (Prod.mk.inj hrun).1

theorem failsOnly_attempt {result : Except Cause α}
    (h : ∀ cause, result = .error cause → P (.during task cause)) :
    FailsOnly P (attempt task result) s := by
  cases result with
  | ok a => exact .pure a
  | error cause => exact .throw (h cause rfl)

theorem failsOnly_ask {question : FileSystem → Except Fault α}
    (h : ∀ fault, question s.fs = .error fault → P (.during task (.fault fault))) :
    FailsOnly P (ask task question) s := by
  rw [ask]
  refine .bind_of_ok (fileSystem_eq_ok s) (failsOnly_attempt fun cause hcause => ?_)
  cases hquestion : question s.fs with
  | ok a =>
    rw [hquestion] at hcause
    cases hcause
  | error fault =>
    rw [hquestion] at hcause
    rw [← Except.error.inj hcause]
    exact h fault hquestion

theorem failsOnly_change {c : Change α} {Q : Fault → Prop} (h : FailsOnly Q c s.fs)
    (hP : ∀ fault, Q fault → P (.during task (.fault fault))) : FailsOnly P (change task c) s := by
  intro failure t hrun
  rw [change] at hrun
  split at hrun
  · cases (Prod.mk.inj hrun).1
  · rename_i fault fs hc
    rw [← Except.error.inj (Prod.mk.inj hrun).1]
    exact hP fault (h fault fs hc)

end FailsOnly

/-! ## Steps that change nothing -/

/-- The step leaves the file system and what was printed as they are, whether it succeeds or fails. -/
def Quiet {α : Type} (x : Action α) : Prop := ∀ s, (x s).2.fs = s.fs ∧ (x s).2.printed = s.printed

namespace Quiet

variable {α β : Type}

theorem of_run {x : Action α} (h : Quiet x) {result : Except Failure α} (hrun : x s = (result, s')) :
    s'.fs = s.fs ∧ s'.printed = s.printed := by
  have hsame := h s
  rwa [hrun] at hsame

theorem pure (a : α) : Quiet (Pure.pure a) := fun _ => ⟨rfl, rfl⟩

theorem throw (failure : Failure) : Quiet (MonadExcept.throw failure : Action α) := fun _ => ⟨rfl, rfl⟩

theorem tell (level : Level) (stage : Stage) (message : Text) : Quiet (tell level stage message) :=
  fun _ => ⟨rfl, rfl⟩

theorem tellAll (lines : List LogLine) : Quiet (tellAll lines) := fun _ => ⟨rfl, rfl⟩

theorem fileSystem : Quiet fileSystem := fun _ => ⟨rfl, rfl⟩

theorem attempt (task : Task) (result : Except Cause α) : Quiet (attempt task result) := by
  intro s
  cases result <;> exact ⟨rfl, rfl⟩

theorem bind {x : Action α} {f : α → Action β} (hx : Quiet x) (hf : ∀ a, Quiet (f a)) :
    Quiet (x >>= f) := by
  intro s
  cases hrun : x s with
  | mk result t =>
    obtain ⟨hfs, hprinted⟩ := hx.of_run hrun
    cases result with
    | ok a =>
      rw [bind_run_of_ok hrun, ← hfs, ← hprinted]
      exact hf a t
    | error failure =>
      rw [bind_run_of_error hrun]
      exact ⟨hfs, hprinted⟩

theorem ite {c : Prop} [Decidable c] {x y : Action α} (hx : Quiet x) (hy : Quiet y) :
    Quiet (if c then x else y) := by
  split
  · exact hx
  · exact hy

/-- What is refused changes nothing. -/
theorem guard {c : Prop} [Decidable c] {failure : Failure} {f : α → Action β} (hf : ∀ a, Quiet (f a))
    (a : α) : Quiet (if c then (MonadExcept.throw failure : Action α) >>= f else f a) :=
  .ite (.bind (.throw failure) hf) (hf a)

/-- The sequence goes on with the same file system. -/
theorem ends {x : Action α} (h : Quiet x) {P : FileSystem → Prop} (hP : P s.fs) :
    Ends x s (fun _ t => P t.fs) (fun t => P t.fs) :=
  .of_run (fun _ _ hrun => (h.of_run hrun).1 ▸ hP) fun _ _ hrun => (h.of_run hrun).1 ▸ hP

end Quiet

/-! ## Steps that do not read the log -/

section Logless

variable {α β : Type} {fs fs' : FileSystem}

/-- The result of a step on a file system, and the file system that it leaves. -/
def on (x : Action α) (fs : FileSystem) : Except Failure α × FileSystem :=
  ((x (.fresh fs)).1, (x (.fresh fs)).2.fs)

/-- What the step does depends neither on the log nor on what was printed. -/
def Logless (x : Action α) : Prop := ∀ s, ((x s).1, (x s).2.fs) = on x s.fs

theorem on_of_run {x : Action α} {result : Except Failure α} (hrun : x (.fresh fs) = (result, s')) :
    on x fs = (result, s'.fs) := by
  rw [on, hrun]

/-- What cannot fail has a value. -/
theorem exists_on_of_ends {x : Action α} {P : FileSystem → Prop}
    (h : Ends x (.fresh fs) (fun _ t => P t.fs) fun _ => False) : ∃ a fs', on x fs = (.ok a, fs') ∧ P fs' := by
  cases hrun : x (.fresh fs) with
  | mk result t =>
    cases result with
    | ok a => exact ⟨a, t.fs, on_of_run hrun, h.ok_of_run hrun⟩
    | error failure => exact (h.fails_of_run hrun).elim

namespace Logless

theorem of_run {x : Action α} (h : Logless x) {result : Except Failure α} (hrun : x s = (result, s')) :
    on x s.fs = (result, s'.fs) := by
  rw [← h s, hrun]

theorem pure (a : α) : Logless (Pure.pure a) := fun _ => rfl

theorem throw (failure : Failure) : Logless (MonadExcept.throw failure : Action α) := fun _ => rfl

theorem tell (level : Level) (stage : Stage) (message : Text) : Logless (tell level stage message) :=
  fun _ => rfl

theorem tellAll (lines : List LogLine) : Logless (tellAll lines) := fun _ => rfl

theorem printLine (t : Text) : Logless (printLine t) := fun _ => rfl

theorem fileSystem : Logless fileSystem := fun _ => rfl

theorem attempt (task : Task) (result : Except Cause α) : Logless (attempt task result) := by
  intro s
  cases result <;> rfl

theorem change (task : Task) (c : Change α) : Logless (change task c) := by
  intro s
  have hfresh : (Session.fresh s.fs).fs = s.fs := rfl
  rw [on, Action.change, Action.change, hfresh]
  cases c s.fs with
  | mk result t => cases result <;> rfl

theorem bind {x : Action α} {f : α → Action β} (hx : Logless x) (hf : ∀ a, Logless (f a)) :
    Logless (x >>= f) := by
  intro s
  have hsame := hx s
  rw [on] at hsame ⊢
  cases hrun : x s with
  | mk result t =>
    cases hfresh : x (.fresh s.fs) with
    | mk result' t' =>
      rw [hrun, hfresh] at hsame
      obtain ⟨hresult, hfs⟩ := Prod.mk.inj hsame
      subst hresult
      cases result with
      | error failure =>
        rw [bind_run_of_error hrun, bind_run_of_error hfresh]
        exact congrArg (Prod.mk _) hfs
      | ok a =>
        rw [bind_run_of_ok hrun, bind_run_of_ok hfresh, hf a t, hf a t']
        exact congrArg (on (f a)) hfs

theorem ite {c : Prop} [Decidable c] {x y : Action α} (hx : Logless x) (hy : Logless y) :
    Logless (if c then x else y) := by
  split
  · exact hx
  · exact hy

end Logless

theorem on_tell (level : Level) (stage : Stage) (message : Text) (fs : FileSystem) :
    on (tell level stage message) fs = (.ok (), fs) := rfl

theorem on_fileSystem (fs : FileSystem) : on fileSystem fs = (.ok fs, fs) := rfl

theorem on_attempt_of_ok {result : Except Cause α} {a : α} (h : result = .ok a) (fs : FileSystem) :
    on (attempt task result) fs = (.ok a, fs) := by
  rw [h]
  rfl

theorem on_attempt_of_error {result : Except Cause α} {cause : Cause} (h : result = .error cause)
    (fs : FileSystem) : on (attempt task result) fs = (.error (.during task cause), fs) := by
  rw [h]
  rfl

theorem on_change_of_ok {c : Change α} {a : α} (h : c fs = (.ok a, fs')) :
    on (change task c) fs = (.ok a, fs') := by
  have hfresh : (Session.fresh fs).fs = fs := rfl
  have hrun : change task c (.fresh fs) = (.ok a, { Session.fresh fs with fs := fs' }) := by
    rw [change, hfresh, h]
  exact on_of_run hrun

/-- After a step that succeeds the sequence goes on with what it left. -/
theorem on_bind_of_ok {x : Action α} {f : α → Action β} {a : α} (hf : ∀ a, Logless (f a))
    (h : on x fs = (.ok a, fs')) : on (x >>= f) fs = on (f a) fs' := by
  rw [on] at h ⊢
  cases hrun : x (.fresh fs) with
  | mk result t =>
    rw [hrun] at h
    obtain ⟨hresult, hfs⟩ := Prod.mk.inj h
    dsimp only at hresult hfs
    subst hresult hfs
    rw [bind_run_of_ok hrun, hf a t]

/-- After a step that fails the sequence ends. -/
theorem on_bind_of_error {x : Action α} {f : α → Action β} {failure : Failure}
    (h : on x fs = (.error failure, fs')) : on (x >>= f) fs = (.error failure, fs') := by
  rw [on] at h ⊢
  cases hrun : x (.fresh fs) with
  | mk result t =>
    rw [hrun] at h
    obtain ⟨hresult, hfs⟩ := Prod.mk.inj h
    dsimp only at hresult hfs
    subst hresult hfs
    rw [bind_run_of_error hrun]

end Logless

end FileRoutes.Action
