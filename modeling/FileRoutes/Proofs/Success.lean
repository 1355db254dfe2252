import Mathlib.Logic.Basic

/-!
# Steps of a success

A sequence of steps succeeds only if each of its steps does.  For questions (`Except`) and for changes
of a state that may fail (`ExceptT` over `StateM`) these lemmas give the first step and the rest of a
sequence that succeeded, with the value and the state between them.

## Both outcomes

What a sequence does is told by two conditions if its failures matter too: one for the value and the
state of a success, and one for the state that a failure leaves (`Ends`).  A failure skips what is left
of a sequence, so the second condition is the same for all parts of it.
-/

namespace FileRoutes

universe u

variable {ε : Type u} {α β : Type u}

theorem exists_of_bind_eq_ok {x : Except ε α} {f : α → Except ε β} {b : β}
    (h : x >>= f = .ok b) : ∃ a, x = .ok a ∧ f a = .ok b := by
  cases x with
  | error e => cases h
  | ok a => exact ⟨a, rfl, h⟩

section Stateful

variable {σ : Type u} {s s' : σ}

theorem exists_of_bind_run {x : ExceptT ε (StateM σ) α} {f : α → ExceptT ε (StateM σ) β} {b : β}
    (h : (x >>= f) s = (.ok b, s')) : ∃ a t, x s = (.ok a, t) ∧ f a t = (.ok b, s') := by
  simp only [bind, ExceptT.bind, ExceptT.bindCont, ExceptT.mk, StateT.bind] at h
  cases hx : x s with
  | mk result t =>
    simp only [hx] at h
    cases result with
    | ok a => exact ⟨a, t, rfl, h⟩
    | error e => cases (Prod.mk.inj h).1

/-- After a step that succeeds the sequence goes on with its value. -/
theorem bind_run_of_ok {x : ExceptT ε (StateM σ) α} {a : α} (h : x s = (.ok a, s'))
    (f : α → ExceptT ε (StateM σ) β) : (x >>= f) s = f a s' := by
  simp only [bind, ExceptT.bind, ExceptT.bindCont, ExceptT.mk, StateT.bind, h]

/-- After a step that fails the sequence ends. -/
theorem bind_run_of_error {x : ExceptT ε (StateM σ) α} {e : ε} (h : x s = (.error e, s'))
    (f : α → ExceptT ε (StateM σ) β) : (x >>= f) s = (.error e, s') := by
  simp only [bind, ExceptT.bind, ExceptT.bindCont, ExceptT.mk, StateT.bind, h]
  rfl

/-- Sequences are equal if their steps are. -/
theorem bind_run_congr {x y : ExceptT ε (StateM σ) α} {f g : α → ExceptT ε (StateM σ) β} (hx : x s = y s)
    (hf : ∀ a t, y s = (.ok a, t) → f a t = g a t) : (x >>= f) s = (y >>= g) s := by
  cases hrun : y s with
  | mk result t =>
    cases result with
    | ok a => rw [bind_run_of_ok (hx.trans hrun), bind_run_of_ok hrun, hf a t hrun]
    | error e => rw [bind_run_of_error (hx.trans hrun), bind_run_of_error hrun]

/-- What fails is handled. -/
theorem tryCatch_run_of_error {x : ExceptT ε (StateM σ) α} {e : ε} (h : x s = (.error e, s'))
    (handler : ε → ExceptT ε (StateM σ) α) : tryCatch x handler s = handler e s' := by
  simp only [tryCatch, tryCatchThe, MonadExceptOf.tryCatch, ExceptT.tryCatch, ExceptT.mk, bind,
    StateT.bind, h]

theorem eq_of_pure_run {a b : α} (h : (pure a : ExceptT ε (StateM σ) α) s = (.ok b, s')) :
    a = b ∧ s = s' := by
  obtain ⟨ha, hs⟩ := Prod.mk.inj h
  exact ⟨Except.ok.inj ha, hs⟩

theorem throw_run (e : ε) (s : σ) : (throw e : ExceptT ε (StateM σ) α) s = (.error e, s) := rfl

theorem not_throw_run {e : ε} {b : α} (h : (throw e : ExceptT ε (StateM σ) α) s = (.ok b, s')) :
    False := by
  cases (Prod.mk.inj h).1

/-- What is not refused goes on. -/
theorem guard_run {c : Prop} [Decidable c] {e : ε} {f : α → ExceptT ε (StateM σ) β}
    {x : ExceptT ε (StateM σ) β} (hc : ¬ c) :
    (if c then (throw e : ExceptT ε (StateM σ) α) >>= f else x) s = x s := by
  rw [if_neg hc]

/-- What is refused did not happen. -/
theorem of_guard_run {c : Prop} [Decidable c] {e : ε} {f : α → ExceptT ε (StateM σ) β}
    {x : ExceptT ε (StateM σ) β} {b : β}
    (h : (if c then (throw e : ExceptT ε (StateM σ) α) >>= f else x) s = (.ok b, s')) :
    ¬ c ∧ x s = (.ok b, s') := by
  by_cases hc : c
  · rw [if_pos hc] at h
    obtain ⟨a, t, ha, -⟩ := exists_of_bind_run h
    exact (not_throw_run ha).elim
  · rw [if_neg hc] at h
    exact ⟨hc, h⟩

/-- A result whose value passes a test has one. -/
theorem exists_of_toOption_any {r : Except ε α} {p : α → Bool} (h : r.toOption.any p = true) :
    ∃ a, r = .ok a ∧ p a = true := by
  cases r with
  | ok a => exact ⟨a, rfl, h⟩
  | error e => cases h

/-- What has no value has an error. -/
theorem exists_error_of_isOk {r : Except ε α} (h : r.isOk = false) : ∃ e, r = .error e := by
  cases r with
  | ok a => cases h
  | error e => exact ⟨e, rfl⟩

/-- What does not fail has a value. -/
theorem exists_of_isOk_run {x : ExceptT ε (StateM σ) α} (h : (x s).1.isOk = true) :
    ∃ a s', x s = (.ok a, s') := by
  cases hx : x s with
  | mk result t =>
    cases result with
    | ok a => exact ⟨a, t, rfl⟩
    | error e =>
      rw [hx] at h
      cases h

/-! ## Failures -/

variable {e : ε}

theorem of_bind_run_error {x : ExceptT ε (StateM σ) α} {f : α → ExceptT ε (StateM σ) β}
    (h : (x >>= f) s = (.error e, s')) :
    x s = (.error e, s') ∨ ∃ a t, x s = (.ok a, t) ∧ f a t = (.error e, s') := by
  simp only [bind, ExceptT.bind, ExceptT.bindCont, ExceptT.mk, StateT.bind] at h
  cases hx : x s with
  | mk result t =>
    simp only [hx] at h
    cases result with
    | ok a => exact Or.inr ⟨a, t, rfl, h⟩
    | error e' =>
      obtain ⟨he, hs⟩ := Prod.mk.inj h
      exact Or.inl (by rw [Except.error.inj he, hs])

/-- A refusal changes nothing. -/
theorem of_guard_run_error {c : Prop} [Decidable c] {e' : ε} {f : α → ExceptT ε (StateM σ) β}
    {x : ExceptT ε (StateM σ) β}
    (h : (if c then (throw e' : ExceptT ε (StateM σ) α) >>= f else x) s = (.error e, s')) :
    s' = s ∨ x s = (.error e, s') := by
  by_cases hc : c
  · rw [if_pos hc] at h
    rcases of_bind_run_error h with hthrow | ⟨a, t, ha, -⟩
    · exact Or.inl (Prod.mk.inj hthrow).2.symm
    · exact (not_throw_run ha).elim
  · rw [if_neg hc] at h
    exact Or.inr h

/-! ## Both outcomes -/

/-- The sequence ends with a value and a state as `ok` has it, or fails in a state as `fails` has it. -/
def Ends (x : ExceptT ε (StateM σ) α) (s : σ) (ok : α → σ → Prop) (fails : σ → Prop) : Prop :=
  match x s with
  | (.ok a, s') => ok a s'
  | (.error _, s') => fails s'

namespace Ends

variable {x : ExceptT ε (StateM σ) α} {ok ok' : α → σ → Prop} {fails fails' : σ → Prop}

theorem of_run (hok : ∀ a s', x s = (.ok a, s') → ok a s')
    (herror : ∀ e s', x s = (.error e, s') → fails s') : Ends x s ok fails := by
  rw [Ends]
  split
  · exact hok _ _ ‹_›
  · exact herror _ _ ‹_›

theorem ok_of_run (h : Ends x s ok fails) {a : α} (hrun : x s = (.ok a, s')) : ok a s' := by
  rwa [Ends, hrun] at h

theorem fails_of_run (h : Ends x s ok fails) {e : ε} (hrun : x s = (.error e, s')) : fails s' := by
  rwa [Ends, hrun] at h

/-- The state that is left, if both outcomes agree on it. -/
theorem state {P : σ → Prop} (h : Ends x s (fun _ => P) P) : P (x s).2 := by
  rw [Ends] at h
  split at h
  · rename_i hrun
    rwa [hrun]
  · rename_i hrun
    rwa [hrun]

theorem mono (h : Ends x s ok fails) (hok : ∀ a s', ok a s' → ok' a s')
    (hfails : ∀ s', fails s' → fails' s') : Ends x s ok' fails' :=
  .of_run (fun a s' hrun => hok a s' (h.ok_of_run hrun)) fun _ s' hrun => hfails s' (h.fails_of_run hrun)

/-- What is known of the failures is told beside what is known of the successes. -/
theorem withFails {any : α → σ → Prop} (h : Ends x s ok fails) (h' : Ends x s any fails') :
    Ends x s ok fails' :=
  .of_run (fun _ _ hrun => h.ok_of_run hrun) fun _ _ hrun => h'.fails_of_run hrun

/-- What cannot succeed ends as it fails. -/
theorem of_false (h : Ends x s (fun _ _ => False) fails) : Ends x s ok fails :=
  h.mono (fun _ _ => False.elim) fun _ => id

theorem pure {a : α} (h : ok a s) : Ends (Pure.pure a : ExceptT ε (StateM σ) α) s ok fails := h

theorem throw {e : ε} (h : fails s) : Ends (MonadExcept.throw e : ExceptT ε (StateM σ) α) s ok fails := h

theorem bind {f : α → ExceptT ε (StateM σ) β} {ok : β → σ → Prop}
    (h : Ends x s (fun a t => Ends (f a) t ok fails) fails) : Ends (x >>= f) s ok fails := by
  rw [Ends] at h
  split at h
  · rename_i hrun
    rwa [Ends, bind_run_of_ok hrun]
  · rename_i hrun
    rwa [Ends, bind_run_of_error hrun]

/-- A failure is handled. -/
theorem tryCatch {handler : ε → ExceptT ε (StateM σ) α}
    (h : Ends x s ok fun t => ∀ e, x s = (.error e, t) → Ends (handler e) t ok fails) :
    Ends (MonadExcept.tryCatch x handler) s ok fails := by
  rw [Ends] at h ⊢
  simp only [MonadExcept.tryCatch, tryCatchThe, MonadExceptOf.tryCatch, ExceptT.tryCatch, ExceptT.mk,
    Bind.bind, StateT.bind]
  split at h
  · rename_i hrun
    rw [hrun]
    exact h
  · rename_i hrun
    rw [hrun]
    exact h _ hrun

/-- A loop keeps what each turn of it keeps. -/
theorem foldlM {γ : Type u} {xs : List γ} {f : α → γ → ExceptT ε (StateM σ) α} {a : α}
    (inv : List γ → α → σ → Prop) (hstart : inv [] a s)
    (hstep : ∀ done x rest, xs = done ++ x :: rest → ∀ a t, inv done a t →
      Ends (f a x) t (inv (done ++ [x])) fails) :
    Ends (xs.foldlM f a) s (inv xs) fails := by
  -- the invariant is about the turns that are done, so the list of those left is what shrinks
  suffices h : ∀ left done a t, xs = done ++ left → inv done a t →
      Ends (left.foldlM f a) t (inv xs) fails from h xs [] a s rfl hstart
  intro left
  induction left with
  | nil =>
    intro done a t hxs hinv
    rw [List.foldlM_nil]
    rw [List.append_nil] at hxs
    exact hxs ▸ hinv
  | cons x left ih =>
    intro done a t hxs hinv
    rw [List.foldlM_cons]
    refine bind ((hstep done x left hxs a t hinv).mono (fun b u hb => ?_) fun _ => id)
    exact ih (done ++ [x]) b u (by rw [hxs, List.append_assoc]; rfl) hb

end Ends

/-! ## What a failure is due to -/

/-- If the sequence fails, then with an error of this sort. -/
def FailsOnly (P : ε → Prop) (x : ExceptT ε (StateM σ) α) (s : σ) : Prop :=
  ∀ e s', x s = (.error e, s') → P e

namespace FailsOnly

variable {P : ε → Prop} {x : ExceptT ε (StateM σ) α}

theorem pure (a : α) : FailsOnly P (Pure.pure a : ExceptT ε (StateM σ) α) s := by
  intro e s' hrun
  cases (Prod.mk.inj hrun).1

theorem throw {e : ε} (h : P e) : FailsOnly P (MonadExcept.throw e : ExceptT ε (StateM σ) α) s := by
  intro e' s' hrun
  rwa [← Except.error.inj (Prod.mk.inj hrun).1]

theorem bind {f : α → ExceptT ε (StateM σ) β} (hx : FailsOnly P x s)
    (hf : ∀ a t, x s = (.ok a, t) → FailsOnly P (f a) t) : FailsOnly P (x >>= f) s := by
  intro e s' hrun
  rcases of_bind_run_error hrun with hrun | ⟨a, t, ha, hrun⟩
  · exact hx e s' hrun
  · exact hf a t ha e s' hrun

/-- The sequence cannot fail in a step that succeeds. -/
theorem bind_of_ok {f : α → ExceptT ε (StateM σ) β} {a : α} {t : σ} (ha : x s = (.ok a, t))
    (h : FailsOnly P (f a) t) : FailsOnly P (x >>= f) s := by
  intro e s' hrun
  rw [bind_run_of_ok ha] at hrun
  exact h e s' hrun

theorem bind_of_error {f : α → ExceptT ε (StateM σ) β} {e : ε} {t : σ} (he : x s = (.error e, t))
    (h : P e) : FailsOnly P (x >>= f) s := by
  intro e' s' hrun
  rw [bind_run_of_error he] at hrun
  rwa [← Except.error.inj (Prod.mk.inj hrun).1]

/-- What is handled fails only as its handler does. -/
theorem tryCatch {handler : ε → ExceptT ε (StateM σ) α}
    (h : ∀ e t, x s = (.error e, t) → FailsOnly P (handler e) t) :
    FailsOnly P (MonadExcept.tryCatch x handler) s := by
  intro e s' hrun
  simp only [MonadExcept.tryCatch, tryCatchThe, MonadExceptOf.tryCatch, ExceptT.tryCatch, ExceptT.mk,
    Bind.bind, StateT.bind] at hrun
  split at hrun
  rename_i result t hx
  cases result with
  | ok a => cases (Prod.mk.inj hrun).1
  | error e' => exact h e' t hx e s' hrun

/-- A loop fails only as one of its turns does. -/
theorem foldlM {γ : Type u} {xs : List γ} {f : α → γ → ExceptT ε (StateM σ) α} {a : α}
    (inv : List γ → σ → Prop) (hstart : inv [] s)
    (hstep : ∀ done x rest, xs = done ++ x :: rest → ∀ a t, inv done t →
      FailsOnly P (f a x) t ∧ ∀ b u, f a x t = (.ok b, u) → inv (done ++ [x]) u) :
    FailsOnly P (xs.foldlM f a) s := by
  suffices h : ∀ left done a t, xs = done ++ left → inv done t → FailsOnly P (left.foldlM f a) t from
    h xs [] a s rfl hstart
  intro left
  induction left with
  | nil =>
    intro done a t _ _
    rw [List.foldlM_nil]
    exact .pure a
  | cons x left ih =>
    intro done a t hxs hinv
    obtain ⟨hfails, hnext⟩ := hstep done x left hxs a t hinv
    rw [List.foldlM_cons]
    refine bind hfails fun b u hrun => ?_
    exact ih (done ++ [x]) b u (by rw [hxs, List.append_assoc]; rfl) (hnext b u hrun)

end FailsOnly

end Stateful

end FileRoutes
