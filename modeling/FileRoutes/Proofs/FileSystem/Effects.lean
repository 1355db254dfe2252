import FileRoutes.FileSystem.Change
import FileRoutes.Proofs.FileSystem.LinkFree

/-!
# Steps of a change

What the steps of a change do to the file system.  Questions leave it as it is, and putting an entry in
the place of another one puts the new one where the old one was.  No change moves the current
directory, so nothing is written by a relative path if the current directory was removed.
-/

namespace FileRoutes.FileSystem

variable {fs fs' : FileSystem} {p : Path}

theorem ask_run {α : Type} {question : FileSystem → Except Fault α} {a : α}
    (h : ask question fs = (.ok a, fs')) : question fs = .ok a ∧ fs = fs' :=
  Prod.mk.inj h

theorem now_run {found : FileSystem} (h : now fs = (.ok found, fs')) : fs = found ∧ fs = fs' := by
  obtain ⟨hfound, hsame⟩ := Prod.mk.inj h
  exact ⟨Except.ok.inj hfound, hsame⟩

theorem now_eq (fs : FileSystem) : now fs = (.ok fs, fs) := rfl

theorem putAt_run {loc : Location} {e : Entry} (h : putAt loc e fs = (.ok (), fs')) :
    fs' = fs.put loc e :=
  (Prod.mk.inj h).2.symm

/-! ## The current directory -/

/-- The change does not move the current directory, whether it succeeds or fails. -/
def KeepsCurrent {α : Type} (c : Change α) : Prop := ∀ fs, (c fs).2.current = fs.current

namespace KeepsCurrent

variable {α β : Type}

theorem of_pure (a : α) : KeepsCurrent (pure a) := fun _ => rfl

theorem of_throw (fault : Fault) : KeepsCurrent (throw fault : Change α) := fun _ => rfl

theorem of_now : KeepsCurrent now := fun _ => rfl

theorem of_bind {x : Change α} {f : α → Change β} (hx : KeepsCurrent x)
    (hf : ∀ a, KeepsCurrent (f a)) : KeepsCurrent (x >>= f) := by
  intro fs
  have hfirst := hx fs
  simp only [bind, ExceptT.bind, ExceptT.bindCont, ExceptT.mk, StateT.bind]
  cases hrun : x fs with
  | mk result t =>
    rw [hrun] at hfirst
    cases result with
    | ok a => exact (hf a t).trans hfirst
    | error fault => exact hfirst

theorem of_tryCatch {x : Change α} {handler : Fault → Change α} (hx : KeepsCurrent x)
    (hhandler : ∀ fault, KeepsCurrent (handler fault)) : KeepsCurrent (tryCatch x handler) := by
  intro fs
  have hfirst := hx fs
  simp only [tryCatch, tryCatchThe, MonadExceptOf.tryCatch, ExceptT.tryCatch, ExceptT.mk, bind,
    StateT.bind]
  cases hrun : x fs with
  | mk result t =>
    rw [hrun] at hfirst
    cases result with
    | ok a => exact hfirst
    | error fault => exact (hhandler fault t).trans hfirst

theorem of_ite {c : Prop} [Decidable c] {x y : Change α} (hx : KeepsCurrent x) (hy : KeepsCurrent y) :
    KeepsCurrent (if c then x else y) := by
  split
  · exact hx
  · exact hy

end KeepsCurrent

/-! ## Directories -/

theorem exists_of_createDirectory (h : createDirectory p fs = (.ok (), fs')) :
    ∃ slot name, fs.slot p = .ok slot ∧ slot.name? = some name ∧ name.length ≤ nameLimit ∧
      fs.find? (slot.directory ++ [name]) = none ∧
      fs' = fs.put (slot.directory ++ [name]) .emptyDirectory := by
  rw [createDirectory] at h
  obtain ⟨slot, t, hask, h⟩ := exists_of_bind_run h
  obtain ⟨hslot, rfl⟩ := ask_run hask
  cases hname : slot.name? with
  | none =>
    simp only [hname] at h
    exact (not_throw_run h).elim
  | some name =>
    simp only [hname] at h
    obtain ⟨hlength, h⟩ := of_guard_run h
    obtain ⟨found, t, hnow, h⟩ := exists_of_bind_run h
    obtain ⟨rfl, rfl⟩ := now_run hnow
    obtain ⟨hnone, h⟩ := of_guard_run h
    obtain ⟨-, h⟩ := of_guard_run h
    rw [Bool.not_eq_true, Option.isSome_eq_false_iff, Option.isNone_iff_eq_none] at hnone
    exact ⟨slot, name, hslot, hname, Nat.le_of_not_lt hlength, hnone, putAt_run h⟩

theorem createDirectory_error {fault : Fault} (h : createDirectory p fs = (.error fault, fs')) :
    fs' = fs := by
  rw [createDirectory] at h
  rcases of_bind_run_error h with hask | ⟨slot, t, hask, h⟩
  · exact (Prod.mk.inj hask).2.symm
  obtain ⟨-, rfl⟩ := ask_run hask
  cases hname : slot.name? with
  | none =>
    simp only [hname] at h
    exact (Prod.mk.inj h).2.symm
  | some name =>
    simp only [hname] at h
    rcases of_guard_run_error h with rfl | h
    · rfl
    rcases of_bind_run_error h with hnow | ⟨found, t, hnow, h⟩
    · cases (Prod.mk.inj hnow).1
    obtain ⟨-, rfl⟩ := now_run hnow
    rcases of_guard_run_error h with rfl | h
    · rfl
    rcases of_guard_run_error h with rfl | h
    · rfl
    cases (Prod.mk.inj h).1

/-- Creating directories does not move the current one. -/
theorem KeepsCurrent.of_createDirectory (p : Path) : KeepsCurrent (createDirectory p) := by
  intro fs
  cases hrun : createDirectory p fs with
  | mk result t =>
    cases result with
    | error fault => rw [createDirectory_error hrun]
    | ok u =>
      obtain ⟨slot, name, -, -, -, -, rfl⟩ := exists_of_createDirectory hrun
      rfl

theorem KeepsCurrent.of_unlessDirectory (p : Path) (fault : Fault) :
    KeepsCurrent (unlessDirectory p fault) :=
  of_bind of_now fun _ => of_ite (of_pure ()) (of_throw fault)

theorem KeepsCurrent.of_createChain (paths : List Path) : KeepsCurrent (createChain paths) := by
  induction paths with
  | nil => exact of_throw .missing
  | cons p above ih =>
    rw [createChain]
    refine of_ite (of_pure ()) (of_tryCatch (of_createDirectory p) fun fault => ?_)
    split
    · exact of_bind ih fun _ => of_tryCatch (of_createDirectory p) (of_unlessDirectory p)
    · exact of_unlessDirectory p _

/-! ## Files -/

/-- The second of two entries that are put at one location counts. -/
theorem put_put (fs : FileSystem) (loc : Location) (x y : Entry) :
    (fs.put loc x).put loc y = fs.put loc y := by
  rw [FileSystem.put, FileSystem.put, FileSystem.put, Entry.put_put]

/-- Putting a second entry at the same location. -/
theorem Sets.again {loc : Location} {new newer : Entry} {t : FileSystem} (h : Sets loc new fs t)
    (hnewer : newer.bare = newer) (heq : fs' = t.put loc newer) : Sets loc newer fs fs' where
  above := h.above
  free := h.free
  bare := hnewer
  eq := by rw [heq, h.eq, put_put]

/-- A file that is there can be replaced. -/
theorem Sets.of_file (hroot : fs.HasDirectory []) {loc : Location} {mode : Mode} {contents : Bytes}
    (hfile : fs.find? loc = some (.file mode contents)) {new : Entry} (hnew : new.bare = new)
    (heq : fs' = fs.put loc new) : Sets loc new fs fs' where
  above := by
    rcases List.eq_nil_or_concat loc with rfl | ⟨directory, name, rfl⟩
    · obtain ⟨m, es, hfind⟩ := hroot
      rw [hfind] at hfile
      cases hfile
    · rw [List.concat_eq_append] at hfile ⊢
      exact ⟨directory, name, rfl, .of_find?_append hfile⟩
  free := not_hasDirectory_of_file hfile
  bare := hnew
  eq := heq

/-- Nothing is written in a removed directory. -/
theorem anchored_of_writeBytes (hdown : Step.up ∉ p.moves) {contents : Bytes}
    (h : writeBytes p contents fs = (.ok (), fs')) : fs.Anchored p := by
  rw [writeBytes] at h
  obtain ⟨loc, t, hopen, -⟩ := exists_of_bind_run h
  rw [openForWriting] at hopen
  obtain ⟨found, t, hnow, hopen⟩ := exists_of_bind_run hopen
  obtain ⟨rfl, rfl⟩ := now_run hnow
  obtain ⟨place, t, hask, hopen⟩ := exists_of_bind_run hopen
  obtain ⟨hresolve, rfl⟩ := ask_run hask
  by_contra hlost
  obtain ⟨hrelative, hlost⟩ := not_or.mp hlost
  obtain ⟨s, hstart, hfollow⟩ := exists_of_bind_eq_ok hresolve
  obtain ⟨jump, hjump⟩ := fs.exists_follow_eq .creation linkLimit
  rw [hjump, start_eq_ok hstart, if_neg hrelative] at hfollow
  have hup : Step.up ∉ p.steps := by
    rcases p.steps_eq with ⟨hsteps, -⟩ | hsteps
    · rwa [hsteps]
    · rw [hsteps]
      simpa using hdown
  obtain rfl := eq_removed_of_walk hlost hup hfollow
  exact (not_throw_run hopen).elim

end FileRoutes.FileSystem
