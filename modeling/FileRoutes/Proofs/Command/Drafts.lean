import FileRoutes.Command.Line

/-!
# What a draft has recorded

Whatever a command line says is recorded in a draft, and a draft is told apart by the texts that its slots
have been given (`text?`) and by the flags that are raised.  To give a slot a text changes this text only
(`assigned_of_assign?`), to raise a flag only the flag (`exists_flag`).  So what a word does to a draft can
be said for all slots at once.

A value is checked late, so the draft that matters is the one that is left when what is pending has been
checked.  A value that is pending ends up in its slot, if the slot is still free and takes the text
(`exists_settle_pending`).
-/

namespace FileRoutes

theorem EntryOrder.name_injective {o o' : EntryOrder} (h : o.name = o'.name) : o = o' := by
  revert h
  cases o <;> cases o' <;> decide

theorem PathStyle.name_injective {s s' : PathStyle} (h : s.name = s'.name) : s = s' := by
  revert h
  cases s <;> cases s' <;> decide

namespace CommandLine

/-- The texts that a slot takes. -/
def Slot.Takes : Slot → Text → Prop
  | .setting .order, t => ∃ o : EntryOrder, o.name = t
  | .setting .pathStyle, t => ∃ s : PathStyle, s.name = t
  | _, t => t ≠ []

namespace Draft

variable {d d' e : Draft} {slot : Slot} {t : Text} {f : Flag}

/-- The text that a slot has been given. -/
def text? (d : Draft) : Slot → Option Text
  | .source => d.source?
  | .target => d.target?
  | .setting .order => d.order?.map EntryOrder.name
  | .setting .pathStyle => d.style?.map PathStyle.name
  | .setting .conventions => d.conventions?
  | .setting .dumpRoutes => d.dump?

theorem has_eq (d : Draft) (slot : Slot) : d.has slot = (d.text? slot).isSome := by
  cases slot with
  | source => rfl
  | target => rfl
  | setting s => cases s <;> simp [has, text?]

/-- The number of operands is no text. -/
theorem text?_operands (d : Draft) (n : Nat) (slot : Slot) :
    text? { d with operands := n } slot = d.text? slot := by
  rcases slot with (_ | _ | _ | _) | _ | _ <;> rfl

theorem raised_operands (d : Draft) (n : Nat) (f : Flag) : raised { d with operands := n } f = d.raised f := by
  cases f <;> rfl

/-! ## Values -/

/-- A slot is given a text, and nothing else changes. -/
structure Assigned (slot : Slot) (t : Text) (d d' : Draft) : Prop where
  text?_eq : ∀ other, d'.text? other = if other = slot then some t else d.text? other
  raised_eq : ∀ f, d'.raised f = d.raised f
  pending?_eq : d'.pending? = d.pending?
  operands_eq : d'.operands = d.operands
  operandsOnly_eq : d'.operandsOnly = d.operandsOnly

theorem orderNamed?_eq_some_iff {o : EntryOrder} : orderNamed? t = some o ↔ o.name = t := by
  constructor
  · intro h
    simpa using List.find?_some h
  · rintro rfl
    cases o <;> decide

theorem styleNamed?_eq_some_iff {s : PathStyle} : styleNamed? t = some s ↔ s.name = t := by
  constructor
  · intro h
    simpa using List.find?_some h
  · rintro rfl
    cases s <;> decide

theorem path?_eq_some_iff {p : Text} : path? t = some p ↔ t ≠ [] ∧ p = t := by
  rw [path?]
  split <;> simp [*, eq_comm]

theorem assigned_of_assign? (h : d.assign? slot t = some d') : Assigned slot t d d' := by
  rcases slot with (_ | _ | _ | _) | _ | _
  case' setting.order =>
    obtain ⟨o, ho, rfl⟩ := Option.map_eq_some_iff.mp h
    obtain rfl := orderNamed?_eq_some_iff.mp ho
  case' setting.pathStyle =>
    obtain ⟨s, hs, rfl⟩ := Option.map_eq_some_iff.mp h
    obtain rfl := styleNamed?_eq_some_iff.mp hs
  case' setting.conventions | setting.dumpRoutes | source | target =>
    obtain ⟨p, hp, rfl⟩ := Option.map_eq_some_iff.mp h
    obtain ⟨-, rfl⟩ := path?_eq_some_iff.mp hp
  all_goals
    refine ⟨fun other => ?_, fun f => by cases f <;> rfl, rfl, rfl, rfl⟩
    rcases other with (_ | _ | _ | _) | _ | _ <;> rfl

/-- A text is given to a slot that takes it. -/
theorem exists_assign? (h : slot.Takes t) (d : Draft) : ∃ d', d.assign? slot t = some d' := by
  rcases slot with (_ | _ | _ | _) | _ | _
  case setting.order =>
    obtain ⟨o, ho⟩ := h
    exact ⟨_, by rw [assign?, orderNamed?_eq_some_iff.mpr ho]; rfl⟩
  case setting.pathStyle =>
    obtain ⟨s, hs⟩ := h
    exact ⟨_, by rw [assign?, styleNamed?_eq_some_iff.mpr hs]; rfl⟩
  all_goals exact ⟨_, by rw [assign?, path?_eq_some_iff.mpr ⟨h, rfl⟩]; rfl⟩

/-! ## What is pending -/

theorem settle_of_pending?_eq_none (h : d.pending? = none) : d.settle = .ok d := by
  rw [settle, h]

theorem mapError_settle (h : d.settle = .ok e) : d.settle.mapError Exit.fault = .ok e := by
  rw [h]
  rfl

/-- A pending value is put into its slot, if the slot is free and takes it. -/
theorem exists_settle_pending (hpending : d.pending? = none) (hfree : d.text? slot = none)
    (htakes : slot.Takes t) :
    ∃ d', settle { d with pending? := some (slot, some t) } = .ok d' ∧ Assigned slot t d d' := by
  obtain ⟨d', hassign⟩ := exists_assign? htakes d
  refine ⟨d', ?_, assigned_of_assign? hassign⟩
  have hhas : has { d with pending? := some (slot, some t) } slot = false := by
    rw [has_eq]
    exact Option.isSome_eq_false_iff.mpr (Option.isNone_iff_eq_none.mpr hfree)
  have hsame : { { d with pending? := some (slot, some t) } with pending? := none } = d := by
    rw [← hpending]
  rw [settle]
  simp only [hhas, Bool.false_eq_true, if_false, hsame, hassign]

theorem await_eq (h : d.settle = .ok e) (slot : Slot) (value? : Option Text) :
    d.await slot value? = .ok { e with pending? := some (slot, value?) } := by
  rw [await, h]
  rfl

/-- Nothing is pending in what has been checked, and no operand is read by the check. -/
theorem of_settle (h : d.settle = .ok e) :
    e.pending? = none ∧ e.operands = d.operands ∧ e.operandsOnly = d.operandsOnly := by
  rw [settle] at h
  split at h
  · rename_i hnone
    obtain rfl := Except.ok.inj h
    exact ⟨hnone, rfl, rfl⟩
  · cases h
  split at h
  · cases h
  split at h
  · rename_i hassign
    obtain rfl := Except.ok.inj h
    have hassigned := assigned_of_assign? hassign
    exact ⟨hassigned.pending?_eq, hassigned.operands_eq, hassigned.operandsOnly_eq⟩
  · cases h

/-- A word is no value of an option, unless the option still waits for it. -/
theorem value_eq_operand (h : d.settle = .ok e) (t : Text) : d.value t = d.operand t := by
  rw [value]
  split
  · rename_i hpending
    rw [settle, hpending] at h
    cases h
  · rfl

theorem operand_source (h : d.settle = .ok e) (hnone : d.operands = 0) (t : Text) :
    d.operand t = .ok { e with pending? := some (.source, some t), operands := 1 } := by
  rw [operand, hnone]
  simp only [await_eq h]
  rfl

theorem operand_target (h : d.settle = .ok e) (hone : d.operands = 1) (t : Text) :
    d.operand t = .ok { e with pending? := some (.target, some t), operands := 2 } := by
  rw [operand, hone]
  simp only [await_eq h]
  rfl

/-! ## Flags -/

/-- A flag is raised, and nothing else changes. -/
structure Raised (f : Flag) (d d' : Draft) : Prop where
  text?_eq : ∀ slot, d'.text? slot = d.text? slot
  raised_eq : ∀ g, d'.raised g = (decide (g = f) || d.raised g)
  pending?_eq : d'.pending? = d.pending?
  operands_eq : d'.operands = d.operands
  operandsOnly_eq : d'.operandsOnly = d.operandsOnly

/-- A flag that is kept is raised, unless this was done before. -/
theorem exists_flag (h : d.settle = .ok e) (atLength : Bool) (hfree : e.raised f = false)
    (hhelp : f ≠ .help) (hversion : f ≠ .version) : ∃ d', d.flag atLength f = .ok d' ∧ Raised f e d' := by
  rw [flag, mapError_settle h]
  simp only [bind, Except.bind, hfree, Bool.false_eq_true, if_false]
  cases f
  case help => exact absurd rfl hhelp
  case version => exact absurd rfl hversion
  all_goals
    refine ⟨_, rfl, fun slot => ?_, fun g => ?_, rfl, rfl, rfl⟩
    · rcases slot with (_ | _ | _ | _) | _ | _ <;> rfl
    · cases g <;> rfl

end Draft

end CommandLine

end FileRoutes
