import FileRoutes.Proofs.Command.Drafts
import Mathlib.Data.List.Count
import Mathlib.Data.List.Forall2
import Mathlib.Data.List.TakeWhile

/-!
# Command lines that spell arguments

Arguments may be written down in many ways.  An option that has its default may be left out; a value stands
behind the name of its option, as a word of its own or behind an equals sign; the file of the conventions and
the demand for all lines of the log have short names; and the options stand anywhere before, between and
behind the two operands.  `Spelling` holds of the command lines that come about in this way.

All of them are read as the arguments that they spell, and there is one for any arguments whose paths are
neither empty nor begin with a hyphen (`read_spelling`).

## Parts

A command line is put together from parts: values, each for its slot, and flags (`Part`).  What the parts
have to be is said by `Lists`, and how each is written by `Spells`.  The reader takes the parts one by one,
and what it has recorded after some of them are the texts and flags in these (`Records`).  The draft lags
behind by the value that is pending, so what is compared is the draft that its check leaves.
-/

namespace FileRoutes

namespace CommandLine

/-! ## Parts of a command line -/

/-- The long name of an option with a value. -/
def Setting.title : Setting → Text
  | .order => "order"
  | .pathStyle => "path-style"
  | .conventions => "conventions"
  | .dumpRoutes => "dump-routes"

/-- The long name of an option without a value. -/
def Flag.title : Flag → Text
  | .skipCopy => "skip-copy"
  | .dryRun => "dry-run"
  | .verbose => "verbose"
  | .help => "help"
  | .version => "version"

/-- A part of a command line: a value for a slot, or a flag. -/
inductive Part where
  | value (slot : Slot) (t : Text)
  | flag (f : Flag)
  deriving DecidableEq

/-- The slot of a value. -/
def Part.slot? : Part → Option Slot
  | value slot _ => some slot
  | flag _ => none

/-- The values for a slot, in order. -/
def textsOf (slot : Slot) (parts : List Part) : List Text :=
  parts.filterMap fun
    | .value s t => if s = slot then some t else none
    | .flag _ => none

/-- How a part may be written. -/
inductive Spells : Part → List Text → Prop
  | source (t : Text) : Spells (.value .source t) [t]
  | target (t : Text) : Spells (.value .target t) [t]
  | apart (s : Setting) (t : Text) : Spells (.value (.setting s) t) ['-' :: '-' :: s.title, t]
  | joined (s : Setting) (t : Text) : Spells (.value (.setting s) t) ['-' :: '-' :: s.title ++ '=' :: t]
  | short (t : Text) : Spells (.value (.setting .conventions) t) [['-', 'c'], t]
  | flag (f : Flag) : Spells (.flag f) ['-' :: '-' :: f.title]
  | shortFlag : Spells (.flag .verbose) [['-', 'v']]

/-- The words of a part that spell names out. -/
def Part.words : Part → List Text
  | value (.setting s) t => ['-' :: '-' :: s.title, t]
  | value _ t => [t]
  | flag f => ['-' :: '-' :: f.title]

/-- What a slot counts as if it is given nothing. -/
def Slot.default? : Slot → Option Text
  | .setting .order => some "name".toList
  | .setting .pathStyle => some "relative".toList
  | _ => none

end CommandLine

open CommandLine

namespace Arguments

/-- The text of a slot. -/
def text? (a : Arguments) : Slot → Option Text
  | .source => some a.source
  | .target => some a.target
  | .setting .order => some a.order.name
  | .setting .pathStyle => some a.style.name
  | .setting .conventions => a.conventions?
  | .setting .dumpRoutes => a.dump?

/-- The flag is raised.  The others ask for something else than a migration. -/
def raises (a : Arguments) : Flag → Bool
  | .skipCopy => a.skipsCopy
  | .dryRun => a.isDryRun
  | .verbose => a.isVerbose
  | .help | .version => false

/-- All paths. -/
def paths (a : Arguments) : List Text := a.source :: a.target :: (a.conventions?.toList ++ a.dump?.toList)

/-- The parts list the arguments: each value and each flag once, the source in front of the target.  What has
its default may be missing. -/
structure Lists (a : Arguments) (parts : List Part) : Prop where
  values : ∀ slot, textsOf slot parts = (a.text? slot).toList ∨
    (textsOf slot parts = [] ∧ a.text? slot = slot.default?)
  flags : ∀ f, parts.count (.flag f) = (a.raises f).toNat
  inOrder : parts.Pairwise fun p q => p.slot? = some .target → q.slot? ≠ some .source

/-- All values of the arguments and then their flags. -/
def parts (a : Arguments) : List Part :=
  (.value .source a.source :: .value .target a.target ::
    [Setting.order, .pathStyle, .conventions, .dumpRoutes].filterMap fun s =>
      (a.text? (.setting s)).map (.value (.setting s)))
    ++ ([Flag.skipCopy, .dryRun, .verbose].filter a.raises).map .flag

/-- The command line spells the arguments. -/
def Spelling (a : Arguments) (words : List Text) : Prop :=
  ∃ parts groups, a.Lists parts ∧ List.Forall₂ Spells parts groups ∧ words = groups.flatten

end Arguments

namespace CommandLine

variable {a : Arguments} {d d' e e' : Draft} {slot : Slot} {t : Text} {f : Flag} {part : Part}
  {parts done left : List Part} {words : List Text}

/-- The word is neither empty nor does it begin with a hyphen. -/
def IsPlain (t : Text) : Prop := t ≠ [] ∧ t.head? ≠ some '-'

instance (t : Text) : Decidable (IsPlain t) := inferInstanceAs (Decidable (_ ∧ _))

/-! ## Words -/

theorem word_of_isPlain (honly : d.operandsOnly = false) (ht : IsPlain t) : d.word t = d.value t := by
  obtain ⟨hnil, hhyphen⟩ := ht
  cases t with
  | nil => exact absurd rfl hnil
  | cons c rest =>
    have hc : c ≠ '-' := fun h => hhyphen (by rw [h]; rfl)
    unfold Draft.word
    rw [honly, if_neg Bool.false_ne_true]
    split
    case h_4 => rfl
    all_goals
      rename_i h
      exact absurd (List.cons.inj h).1 hc

theorem word_long (honly : d.operandsOnly = false) {name : Text} (hname : name ≠ []) :
    d.word ('-' :: '-' :: name) = d.long name := by
  cases name with
  | nil => exact absurd rfl hname
  | cons c rest =>
    unfold Draft.word
    rw [honly, if_neg Bool.false_ne_true]
    rfl

theorem ne_equals_of_notMem {name : Text} (h : '=' ∉ name) : ∀ c ∈ name, decide (c ≠ '=') = true :=
  fun _ hc => decide_eq_true fun heq => h (heq ▸ hc)

/-- A word without an equals sign is a name. -/
theorem splitEquals_of_notMem {name : Text} (h : '=' ∉ name) : Draft.splitEquals name = (name, none) := by
  have hname := ne_equals_of_notMem h
  rw [Draft.splitEquals, List.takeWhile_eq_self_iff.mpr hname, List.dropWhile_eq_nil_iff.mpr hname]

/-- The value begins behind the first equals sign. -/
theorem splitEquals_append {name : Text} (h : '=' ∉ name) (t : Text) :
    Draft.splitEquals (name ++ '=' :: t) = (name, some t) := by
  have hname := ne_equals_of_notMem h
  rw [Draft.splitEquals, List.takeWhile_append_of_pos hname, List.dropWhile_append_of_pos hname]
  simp

theorem notMem_title (s : Setting) : '=' ∉ s.title := by
  cases s <;> decide

theorem lookup_title (s : Setting) : longNames.lookup s.title = some (.setting s) := by
  cases s <;> decide

theorem lookup_flagTitle (f : Flag) : longNames.lookup f.title = some (.flag f) := by
  cases f <;> decide

theorem long_title (h : d.settle = .ok e) (s : Setting) :
    d.long s.title = .ok { e with pending? := some (.setting s, none) } := by
  rw [Draft.long, splitEquals_of_notMem (notMem_title s)]
  simp only [lookup_title]
  rw [Draft.await_eq h]
  rfl

/-- The file of the conventions is awaited under its short name, too. -/
theorem word_short (honly : d.operandsOnly = false) (h : d.settle = .ok e) :
    d.word ['-', 'c'] = .ok { e with pending? := some (.setting .conventions, none) } := by
  have hshort : d.word ['-', 'c'] = (d.await (.setting .conventions) none).mapError .fault := by
    unfold Draft.word
    rw [honly, if_neg Bool.false_ne_true]
    rfl
  rw [hshort, Draft.await_eq h]
  rfl

theorem word_shortFlag (honly : d.operandsOnly = false) (h : d.flag false .verbose = .ok d') :
    d.word ['-', 'v'] = .ok d' := by
  have hshort : d.word ['-', 'v'] = d.flag false .verbose >>= fun d => Draft.short d [] := by
    unfold Draft.word
    rw [honly, if_neg Bool.false_ne_true]
    rfl
  rw [hshort, h]
  rfl

theorem long_joined (s : Setting) (t : Text) :
    d.long (s.title ++ '=' :: t) = (d.attach (.setting s) t).mapError .fault := by
  rw [Draft.long, splitEquals_append (notMem_title s)]
  simp only [lookup_title]

theorem long_flagTitle (f : Flag) : d.long f.title = d.flag true f := by
  have hequals : '=' ∉ f.title := by cases f <;> decide
  rw [Draft.long, splitEquals_of_notMem hequals]
  simp only [lookup_flagTitle]

/-! ## What has been recorded -/

theorem textsOf_append (slot : Slot) (parts parts' : List Part) :
    textsOf slot (parts ++ parts') = textsOf slot parts ++ textsOf slot parts' := List.filterMap_append

theorem textsOf_value (slot other : Slot) (t : Text) :
    textsOf other [.value slot t] = if slot = other then [t] else [] := by
  rw [textsOf, List.filterMap_cons]
  split <;> simp_all

theorem textsOf_flag (slot : Slot) (f : Flag) : textsOf slot [.flag f] = [] := rfl

theorem textsOf_eq_nil (h : ∀ p ∈ parts, p.slot? ≠ some slot) : textsOf slot parts = [] := by
  refine List.filterMap_eq_nil_iff.mpr fun p hp => ?_
  have hother := h p hp
  cases p with
  | flag g => rfl
  | value s u =>
    have hs : s ≠ slot := fun heq => hother (congrArg some heq)
    simp only [if_neg hs]

/-- How many operands there are. -/
def operandCount (parts : List Part) : Nat := (textsOf .source parts ++ textsOf .target parts).length

/-- The draft has recorded these parts, and nothing is pending. -/
structure Records (parts : List Part) (e : Draft) : Prop where
  text?_eq : ∀ slot, e.text? slot = (textsOf slot parts).head?
  raised_eq : ∀ f, e.raised f = decide (.flag f ∈ parts)
  pending?_eq : e.pending? = none
  operands_eq : e.operands = operandCount parts
  operandsOnly_eq : e.operandsOnly = false

theorem records_empty : Records [] .empty where
  text?_eq slot := by rcases slot with (_ | _ | _ | _) | _ | _ <;> rfl
  raised_eq f := by cases f <;> rfl
  pending?_eq := rfl
  operands_eq := rfl
  operandsOnly_eq := rfl

namespace Records

/-- A value is recorded in its slot, which had none so far. -/
theorem value (h : Records done e) (hnew : textsOf slot done = [])
    (hassigned : Draft.Assigned slot t { e with operands := operandCount (done ++ [.value slot t]) } e') :
    Records (done ++ [.value slot t]) e' where
  text?_eq other := by
    rw [hassigned.text?_eq, Draft.text?_operands, h.text?_eq, textsOf_append, textsOf_value]
    by_cases hother : other = slot
    · subst hother
      rw [hnew, if_pos rfl, if_pos rfl]
      rfl
    · rw [if_neg hother, if_neg (Ne.symm hother), List.append_nil]
  raised_eq f := by
    rw [hassigned.raised_eq, Draft.raised_operands, h.raised_eq]
    simp
  pending?_eq := hassigned.pending?_eq.trans h.pending?_eq
  operands_eq := hassigned.operands_eq
  operandsOnly_eq := hassigned.operandsOnly_eq.trans h.operandsOnly_eq

/-- A flag is recorded. -/
theorem flag (h : Records done e) (hraised : Draft.Raised f e e') : Records (done ++ [.flag f]) e' where
  text?_eq slot := by
    rw [hraised.text?_eq, h.text?_eq, textsOf_append, textsOf_flag, List.append_nil]
  raised_eq g := by
    rw [hraised.raised_eq, h.raised_eq]
    simp [or_comm]
  pending?_eq := hraised.pending?_eq.trans h.pending?_eq
  operands_eq := by
    rw [hraised.operands_eq, h.operands_eq, operandCount, operandCount]
    simp only [textsOf_append, textsOf_flag, List.append_nil]
  operandsOnly_eq := hraised.operandsOnly_eq.trans h.operandsOnly_eq

end Records

/-! ## Reading parts -/

/-- The words are read, and when what is pending has been checked, these parts have been recorded. -/
def ReadsTo (d : Draft) (words : List Text) (parts : List Part) : Prop :=
  ∃ d' e, words.foldlM Draft.word d = .ok d' ∧ d'.settle = .ok e ∧ Records parts e

theorem ReadsTo.nil (h : d.settle = .ok e) (hrecords : Records parts e) : ReadsTo d [] parts :=
  ⟨d, e, rfl, h, hrecords⟩

theorem ReadsTo.cons (h : d.word t = .ok d') (hrest : ReadsTo d' words parts) :
    ReadsTo d (t :: words) parts := by
  obtain ⟨last, e, hwords, hsettle, hrecords⟩ := hrest
  exact ⟨last, e, by rw [List.foldlM_cons, h]; exact hwords, hsettle, hrecords⟩

namespace Records

section Steps

variable (h : Records done e) (hd : d.settle = .ok e)

include h

/-- A value that is pending for a slot without one is recorded by the check. -/
theorem exists_settle (hnew : textsOf slot done = []) (htakes : slot.Takes t) {n : Nat}
    (hn : operandCount (done ++ [.value slot t]) = n) :
    ∃ e', Draft.settle { e with pending? := some (slot, some t), operands := n } = .ok e' ∧
      Records (done ++ [.value slot t]) e' := by
  subst hn
  obtain ⟨e', hsettle, hassigned⟩ := Draft.exists_settle_pending
    (d := { e with operands := operandCount (done ++ [.value slot t]) }) h.pending?_eq
    (by rw [Draft.text?_operands, h.text?_eq, hnew]; rfl) htakes
  exact ⟨e', hsettle, h.value hnew hassigned⟩

/-- The value of an option is no operand. -/
theorem operandCount_setting (s : Setting) (t : Text) :
    operandCount (done ++ [.value (.setting s) t]) = e.operands := by
  rw [h.operands_eq, operandCount, operandCount]
  simp only [textsOf_append, textsOf_value, reduceCtorEq, if_false, List.append_nil]

/-- An option waits for its value, which is a word of its own. -/
theorem readsTo_awaited {s : Setting} (hplain : IsPlain t) (hnew : textsOf (.setting s) done = [])
    (htakes : (Slot.setting s).Takes t) :
    ReadsTo { e with pending? := some (.setting s, none) } [t] (done ++ [.value (.setting s) t]) := by
  obtain ⟨e', hsettle, hrecords⟩ := h.exists_settle hnew htakes (h.operandCount_setting s t)
  exact .cons (word_of_isPlain h.operandsOnly_eq hplain) (.nil hsettle hrecords)

include hd

theorem operandsOnly_of_settle : d.operandsOnly = false :=
  (Draft.of_settle hd).2.2.symm.trans h.operandsOnly_eq

theorem operands_of_settle : d.operands = operandCount done :=
  (Draft.of_settle hd).2.1.symm.trans h.operands_eq

theorem readsTo_source (hplain : IsPlain t) (hnew : textsOf .source done = [])
    (hturn : textsOf .target done = []) : ReadsTo d [t] (done ++ [.value .source t]) := by
  have hnone : d.operands = 0 := by
    rw [h.operands_of_settle hd, operandCount, hnew, hturn]
    rfl
  obtain ⟨e', hsettle, hrecords⟩ := h.exists_settle hnew (t := t) hplain.1 (n := 1)
    (by rw [operandCount]; simp [textsOf_append, textsOf_value, hnew, hturn])
  refine .cons ?_ (.nil hsettle hrecords)
  rw [word_of_isPlain (h.operandsOnly_of_settle hd) hplain, Draft.value_eq_operand hd,
    Draft.operand_source hd hnone]

theorem readsTo_target (hplain : IsPlain t) (hnew : textsOf .target done = [])
    (hturn : (textsOf .source done).length = 1) : ReadsTo d [t] (done ++ [.value .target t]) := by
  have hone : d.operands = 1 := by
    rw [h.operands_of_settle hd, operandCount, hnew, List.append_nil, hturn]
  obtain ⟨e', hsettle, hrecords⟩ := h.exists_settle hnew (t := t) hplain.1 (n := 2)
    (by rw [operandCount]; simp [textsOf_append, textsOf_value, hnew, hturn])
  refine .cons ?_ (.nil hsettle hrecords)
  rw [word_of_isPlain (h.operandsOnly_of_settle hd) hplain, Draft.value_eq_operand hd,
    Draft.operand_target hd hone]

/-- A value behind the equals sign is checked at once. -/
theorem readsTo_joined {s : Setting} (hnew : textsOf (.setting s) done = [])
    (htakes : (Slot.setting s).Takes t) :
    ReadsTo d ['-' :: '-' :: s.title ++ '=' :: t] (done ++ [.value (.setting s) t]) := by
  obtain ⟨e', hsettle, hrecords⟩ := h.exists_settle hnew htakes (h.operandCount_setting s t)
  have hname : s.title ++ '=' :: t ≠ [] := by simp
  have hlong := word_long (h.operandsOnly_of_settle hd) hname
  have hword : d.word ('-' :: '-' :: (s.title ++ '=' :: t)) = .ok e' := by
    rw [hlong, long_joined, Draft.attach, Draft.await_eq hd]
    exact congrArg (Except.mapError Exit.fault) hsettle
  exact .cons hword (.nil (Draft.settle_of_pending?_eq_none hrecords.pending?_eq) hrecords)

/-- A value for a free slot that takes it is read, however it is written. -/
theorem readsTo_value (hspells : Spells (.value slot t) words) (hplain : IsPlain t)
    (hnew : textsOf slot done = []) (htakes : slot.Takes t)
    (hsource : slot = .source → textsOf .target done = [])
    (htarget : slot = .target → (textsOf .source done).length = 1) :
    ReadsTo d words (done ++ [.value slot t]) := by
  have honly := h.operandsOnly_of_settle hd
  cases hspells with
  | source => exact h.readsTo_source hd hplain hnew (hsource rfl)
  | target => exact h.readsTo_target hd hplain hnew (htarget rfl)
  | apart s =>
    have hname : s.title ≠ [] := by cases s <;> decide
    exact .cons ((word_long honly hname).trans (long_title hd s)) (h.readsTo_awaited hplain hnew htakes)
  | joined s => exact h.readsTo_joined hd hnew htakes
  | short => exact .cons (word_short honly hd) (h.readsTo_awaited hplain hnew htakes)

/-- A flag that is kept is read, if it is not raised yet. -/
theorem readsTo_flag (hspells : Spells (.flag f) words) (hnew : .flag f ∉ done) (hhelp : f ≠ .help)
    (hversion : f ≠ .version) : ReadsTo d words (done ++ [.flag f]) := by
  have honly := h.operandsOnly_of_settle hd
  have hfree : e.raised f = false := by rw [h.raised_eq]; exact decide_eq_false hnew
  obtain ⟨atLength, t, rfl, hword⟩ : ∃ atLength t, words = [t] ∧
      ∀ d', d.flag atLength f = .ok d' → d.word t = .ok d' := by
    cases hspells with
    | flag =>
      have hname : f.title ≠ [] := by cases f <;> decide
      exact ⟨true, _, rfl, fun d' hflag => ((word_long honly hname).trans (long_flagTitle f)).trans hflag⟩
    | shortFlag => exact ⟨false, _, rfl, fun d' hflag => word_shortFlag honly hflag⟩
  obtain ⟨d', hflag, hraised⟩ := Draft.exists_flag hd atLength hfree hhelp hversion
  have hrecords := h.flag hraised
  exact .cons (hword d' hflag) (.nil (Draft.settle_of_pending?_eq_none hrecords.pending?_eq) hrecords)

end Steps

end Records

/-! ## What is listed -/

section Lists

variable (hlists : a.Lists (done ++ part :: left))

include hlists

/-- A value that is listed is the only one for its slot, and the arguments have it. -/
theorem text?_of_lists (hpart : part = .value slot t) : textsOf slot done = [] ∧ a.text? slot = some t := by
  subst hpart
  have hsplit : textsOf slot (done ++ .value slot t :: left) =
      textsOf slot done ++ t :: textsOf slot left := by
    rw [← List.singleton_append, textsOf_append, textsOf_append, textsOf_value, if_pos rfl]
    rfl
  rcases hlists.values slot with h | ⟨h, -⟩
  · rw [hsplit] at h
    cases htext : a.text? slot with
    | none =>
      rw [htext] at h
      simp at h
    | some u =>
      rw [htext, Option.toList_some] at h
      obtain ⟨hdone, hrest⟩ | ⟨hdone, hrest⟩ := List.append_eq_singleton_iff.mp h
      · exact ⟨hdone, by rw [(List.cons.inj hrest).1]⟩
      · cases hrest
  · rw [hsplit] at h
    simp at h

/-- A flag that is listed is listed once, and it is kept. -/
theorem raises_of_lists (hpart : part = .flag f) : .flag f ∉ done ∧ a.raises f = true := by
  subst hpart
  have hcount := hlists.flags f
  rw [List.count_append, List.count_cons_self] at hcount
  cases hraises : a.raises f with
  | false =>
    rw [hraises] at hcount
    simp at hcount
  | true =>
    rw [hraises] at hcount
    refine ⟨fun hmem => ?_, rfl⟩
    have hpos := List.count_pos_iff.mpr hmem
    simp only [Bool.toNat_true] at hcount
    omega

/-- In front of the source there is no target. -/
theorem textsOf_target_of_lists (hpart : part = .value .source t) : textsOf .target done = [] := by
  subst hpart
  have hbefore := (List.pairwise_append.mp hlists.inOrder).2.2
  exact textsOf_eq_nil fun p hp htarget => hbefore p hp _ List.mem_cons_self htarget rfl

/-- The source is in front of the target. -/
theorem textsOf_source_of_lists (hpart : part = .value .target t) :
    textsOf .source done = [a.source] := by
  subst hpart
  have hafter := (List.pairwise_cons.mp (List.pairwise_append.mp hlists.inOrder).2.1).1
  have hbehind : textsOf .source left = [] := textsOf_eq_nil fun p hp => hafter p hp rfl
  rcases hlists.values .source with h | ⟨-, h⟩
  · rwa [← List.singleton_append, textsOf_append, textsOf_append, textsOf_value,
      if_neg (by decide), hbehind, List.append_nil, List.append_nil] at h
  · cases h

end Lists

/-- The slots take the texts that the arguments have. -/
theorem takes_of_text? (h : a.text? slot = some t) (ht : t ≠ []) : slot.Takes t := by
  rcases slot with (_ | _ | _ | _) | _ | _
  case setting.order => exact ⟨a.order, Option.some.inj h⟩
  case setting.pathStyle => exact ⟨a.style, Option.some.inj h⟩
  all_goals exact ht

/-- The texts of the arguments are no options. -/
theorem isPlain_of_text? (hpaths : ∀ t ∈ a.paths, IsPlain t) (h : a.text? slot = some t) : IsPlain t := by
  rcases slot with (_ | _ | _ | _) | _ | _
  case setting.order =>
    obtain rfl := Option.some.inj h
    cases a.order <;> decide
  case setting.pathStyle =>
    obtain rfl := Option.some.inj h
    cases a.style <;> decide
  case source =>
    obtain rfl := Option.some.inj h
    exact hpaths _ (by simp [Arguments.paths])
  case target =>
    obtain rfl := Option.some.inj h
    exact hpaths _ (by simp [Arguments.paths])
  all_goals
    rw [Arguments.text?] at h
    exact hpaths t (by simp [Arguments.paths, h])

/-! ## The whole command line -/

/-- One part is read, whatever was read before. -/
theorem readsTo_part (hpaths : ∀ t ∈ a.paths, IsPlain t) (hlists : a.Lists (done ++ part :: left))
    (hspells : Spells part words) (hd : d.settle = .ok e) (hrecords : Records done e) :
    ReadsTo d words (done ++ [part]) := by
  cases part with
  | value slot t =>
    obtain ⟨hnew, htext⟩ := text?_of_lists hlists rfl
    have hplain := isPlain_of_text? hpaths htext
    refine hrecords.readsTo_value hd hspells hplain hnew (takes_of_text? htext hplain.1) ?_ ?_
    · rintro rfl
      exact textsOf_target_of_lists hlists rfl
    · rintro rfl
      rw [textsOf_source_of_lists hlists rfl]
      rfl
  | flag f =>
    obtain ⟨hnew, hraises⟩ := raises_of_lists hlists rfl
    refine hrecords.readsTo_flag hd hspells hnew ?_ ?_ <;> (rintro rfl; cases hraises)

/-- All parts are read, one by one. -/
theorem readsTo_of_spells (hpaths : ∀ t ∈ a.paths, IsPlain t) {groups : List (List Text)}
    (hspells : List.Forall₂ Spells left groups) (hlists : a.Lists (done ++ left))
    (hd : d.settle = .ok e) (hrecords : Records done e) : ReadsTo d groups.flatten (done ++ left) := by
  induction hspells generalizing done d e with
  | nil =>
    rw [List.append_nil]
    exact .nil hd hrecords
  | @cons part words left groups hpart _ ih =>
    obtain ⟨d', e', hwords, hd', hrecords'⟩ := readsTo_part hpaths hlists hpart hd hrecords
    rw [List.append_cons] at hlists ⊢
    obtain ⟨last, e'', hrest, hlast⟩ := ih hlists hd' hrecords'
    refine ⟨last, e'', ?_, hlast⟩
    rw [List.flatten_cons, List.foldlM_append, hwords]
    exact hrest

/-- What has been recorded of a slot is what the arguments have, or nothing if that is the default. -/
theorem text?_of_records (hrecords : Records parts e) (hlists : a.Lists parts) (slot : Slot) :
    e.text? slot = a.text? slot ∨ (e.text? slot = none ∧ a.text? slot = slot.default?) := by
  rw [hrecords.text?_eq]
  rcases hlists.values slot with h | ⟨h, hdefault⟩
  · left
    rw [h]
    cases a.text? slot <;> rfl
  · right
    rw [h]
    exact ⟨rfl, hdefault⟩

theorem raised_of_records (hrecords : Records parts e) (hlists : a.Lists parts) (f : Flag) :
    e.raised f = a.raises f := by
  have hcount := hlists.flags f
  rw [hrecords.raised_eq]
  cases hraises : a.raises f with
  | false =>
    rw [hraises] at hcount
    exact decide_eq_false (List.count_eq_zero.mp hcount)
  | true =>
    rw [hraises] at hcount
    exact decide_eq_true (List.count_pos_iff.mp (by rw [hcount]; decide))

/-- When the parts that list the arguments have been recorded, the arguments are what is read. -/
theorem finish_eq_ok (hd : d.settle = .ok e) (hrecords : Records parts e) (hlists : a.Lists parts) :
    d.finish = .ok a := by
  have htext := text?_of_records hrecords hlists
  have hraised := raised_of_records hrecords hlists
  have hsource : e.source? = some a.source := (htext .source).resolve_right fun h => by cases h.2
  have htarget : e.target? = some a.target := (htext .target).resolve_right fun h => by cases h.2
  have horder : e.order?.getD .byName = a.order := by
    rcases htext (.setting .order) with h | ⟨h, hdefault⟩
    · obtain ⟨o, ho, hname⟩ := Option.map_eq_some_iff.mp h
      rw [ho]
      exact EntryOrder.name_injective hname
    · rw [Option.map_eq_none_iff.mp h]
      exact EntryOrder.name_injective (Option.some.inj hdefault).symm
  have hstyle : e.style?.getD .relative = a.style := by
    rcases htext (.setting .pathStyle) with h | ⟨h, hdefault⟩
    · obtain ⟨s, hs, hname⟩ := Option.map_eq_some_iff.mp h
      rw [hs]
      exact PathStyle.name_injective hname
    · rw [Option.map_eq_none_iff.mp h]
      exact PathStyle.name_injective (Option.some.inj hdefault).symm
  have hconventions : e.conventions? = a.conventions? :=
    (htext (.setting .conventions)).elim id fun h => h.1.trans h.2.symm
  have hdump : e.dump? = a.dump? := (htext (.setting .dumpRoutes)).elim id fun h => h.1.trans h.2.symm
  have hskips : e.skipsCopy = a.skipsCopy := hraised .skipCopy
  have hdry : e.isDryRun = a.isDryRun := hraised .dryRun
  have hverbose : e.isVerbose = a.isVerbose := hraised .verbose
  rw [Draft.finish, Draft.mapError_settle hd]
  simp only [bind, Except.bind, hsource, htarget, horder, hstyle, hconventions, hdump, hskips, hdry, hverbose]

/-! ## There is a command line for all arguments -/

theorem Part.spells_words (p : Part) : Spells p p.words := by
  cases p with
  | flag f => exact .flag f
  | value slot t =>
    cases slot with
    | setting s => exact .apart s t
    | source => exact .source t
    | target => exact .target t

theorem textsOf_map_flag (slot : Slot) (fs : List Flag) : textsOf slot (fs.map .flag) = [] := by
  rw [textsOf, List.filterMap_map]
  exact List.filterMap_eq_nil_iff.mpr fun f _ => rfl

theorem lists_parts (a : Arguments) : a.Lists a.parts where
  values slot := by
    left
    rw [Arguments.parts, textsOf_append, textsOf_map_flag, List.append_nil]
    rcases slot with (_ | _ | _ | _) | _ | _ <;> cases hc : a.conventions? <;> cases hd : a.dump? <;>
      simp [textsOf, Arguments.text?, hc, hd]
  flags f := by
    have hflag : Function.Injective Part.flag := fun f g h => by cases h; rfl
    rw [Arguments.parts, List.count_append, List.count_eq_zero.mpr (by simp), Nat.zero_add,
      List.count_map_of_injective _ _ hflag]
    cases hraises : a.raises f with
    | false => exact List.count_eq_zero.mpr fun hmem => by simp [hraises] at hmem
    | true =>
      rw [List.count_filter hraises]
      cases f
      case help | version => cases hraises
      all_goals rfl
  inOrder := by
    have hbehind : ∀ q ∈ a.parts.tail, q.slot? ≠ some .source := by
      intro q hq
      simp only [Arguments.parts, List.cons_append, List.tail_cons, List.mem_cons, List.mem_append,
        List.mem_filterMap, List.mem_map, Option.map_eq_some_iff] at hq
      rcases hq with rfl | ⟨s, -, t, -, rfl⟩ | ⟨f, -, rfl⟩ <;> simp [Part.slot?]
    have hparts : a.parts = .value .source a.source :: a.parts.tail := rfl
    rw [hparts]
    refine List.pairwise_cons.mpr ⟨fun q _ h => ?_, ?_⟩
    · cases h
    · exact List.pairwise_of_forall_mem_list fun _ _ q hq _ => hbehind q hq

theorem exists_spelling (a : Arguments) : ∃ words, a.Spelling words := by
  refine ⟨_, a.parts, a.parts.map Part.words, lists_parts a, ?_, rfl⟩
  exact List.forall₂_map_right_iff.mpr (List.forall₂_same.mpr fun p _ => p.spells_words)

/-- If no path is empty or begins with a hyphen, the arguments can be spelled by a command line, and whatever
command line spells them is read as them. -/
theorem read_spelling (hpaths : ∀ t ∈ a.paths, IsPlain t) :
    (∃ words, a.Spelling words) ∧ ∀ words, a.Spelling words → read words = .ok a := by
  refine ⟨exists_spelling a, ?_⟩
  rintro words ⟨parts, groups, hlists, hspells, rfl⟩
  have hread : ReadsTo .empty groups.flatten ([] ++ parts) :=
    readsTo_of_spells hpaths hspells hlists rfl records_empty
  obtain ⟨d, e, hwords, hsettle, hrecords⟩ := hread
  rw [read, hwords]
  exact finish_eq_ok hsettle hrecords hlists

/-- Arguments whose paths look like names of options and of values. -/
def sampleSpelled : Arguments where
  source := "filesystem".toList
  target := "order=name".toList
  order := .asEnumerated
  style := .relative
  conventions? := some "v=c".toList
  skipsCopy := false
  isDryRun := true
  dump? := some "name".toList
  isVerbose := true

/-- The operands stand among the options, and the style is left out. -/
theorem read_spelling_interleaved :
    sampleSpelled.Spelling ["-v", "--dump-routes", "name", "filesystem", "--order=filesystem", "-c", "v=c",
        "order=name", "--dry-run"] ∧
      read ["-v", "--dump-routes", "name", "filesystem", "--order=filesystem", "-c", "v=c", "order=name",
        "--dry-run"] = .ok sampleSpelled := by
  have hlists : sampleSpelled.Lists [.flag .verbose, .value (.setting .dumpRoutes) "name",
      .value .source "filesystem", .value (.setting .order) "filesystem",
      .value (.setting .conventions) "v=c", .value .target "order=name", .flag .dryRun] := by
    refine ⟨fun slot => ?_, fun f => ?_, by decide⟩
    · rcases slot with (_ | _ | _ | _) | _ | _ <;> decide
    · cases f <;> decide
  have hspelling : sampleSpelled.Spelling ["-v", "--dump-routes", "name", "filesystem",
      "--order=filesystem", "-c", "v=c", "order=name", "--dry-run"] :=
    ⟨_, [["-v"], ["--dump-routes", "name"], ["filesystem"], ["--order=filesystem"], ["-c", "v=c"],
      ["order=name"], ["--dry-run"]], hlists,
      .cons .shortFlag <| .cons (.apart .dumpRoutes _) <| .cons (.source _) <| .cons (.joined .order _) <|
        .cons (.short _) <| .cons (.target _) <| .cons (.flag .dryRun) .nil, rfl⟩
  exact ⟨hspelling, (read_spelling (by decide)).2 _ hspelling⟩

end CommandLine

end FileRoutes
