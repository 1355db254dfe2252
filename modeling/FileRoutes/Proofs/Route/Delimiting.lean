import FileRoutes.Proofs.Route.Quoting
import Mathlib.Data.List.Basic

/-!
# Literals end where they are meant to

Whatever is quoted, its literal is read to its last apostrophe and no further: the text that follows is
left unread (`read_quote`), and no beginning of the literal is a literal (`read_take_quote`).  So two texts
have the same literal only if they are the same, and nothing that a text holds can end its literal early.

That no beginning of a literal is one needs no second look at the escapes.  The reader does not look
ahead, so what it has read once it reads in front of anything (`readInside_append`), and of a literal
it is known already what is read.

## Lines

Of the characters of a literal none ends the line (`breaks_quote`).  What ends a line in the text of a
table therefore belongs to the layout, or to the loader, which is written as it is.  It is the same in the
text of the table without its names, that is, without paths, sources and the name of the page module
(`breaks_fragment`).
-/

namespace FileRoutes

namespace Literal

variable {value t : Text}

/-! ## Where a literal ends -/

/-- The reader does not look ahead. -/
theorem readInside_append {p : Text × Text} (h : readInside t = some p) (more : Text) :
    readInside (t ++ more) = some (p.1, p.2 ++ more) := by
  fun_induction readInside t generalizing p with
  | case1 => cases h
  | case2 rest =>
    rw [List.cons_append, readInside.eq_def]
    obtain rfl := Option.some.inj h
    simp
  | case3 c rest hquote hbreak => cases h
  | case4 => cases h
  | case5 hquote hbreak d rest ih =>
    simp only [Option.bind_eq_bind, Option.bind_eq_some_iff, Option.some.injEq] at h
    obtain ⟨c, hc, q, hq, rfl⟩ := h
    rw [List.cons_append, List.cons_append, readInside.eq_def]
    simp [hc, ih hq]
  | case6 c rest hquote hbreak hslash ih =>
    simp only [Option.bind_eq_bind, Option.bind_eq_some_iff, Option.some.injEq] at h
    obtain ⟨q, hq, rfl⟩ := h
    rw [List.cons_append, readInside.eq_def]
    simp only [if_neg hquote, if_neg hbreak, if_neg hslash, ih hq]
    rfl

theorem read_append {p : Text × Text} (h : read t = some p) (more : Text) :
    read (t ++ more) = some (p.1, p.2 ++ more) := by
  cases t with
  | nil => cases h
  | cons c rest =>
    rw [read] at h
    rw [List.cons_append, read]
    split at h
    · rename_i hquote
      rw [if_pos hquote]
      exact readInside_append h more
    · cases h

/-- No beginning of a literal is a literal. -/
theorem read_take_quote {n : Nat} (hn : n < (quote value).length) : read ((quote value).take n) = none := by
  cases hread : read ((quote value).take n) with
  | none => rfl
  | some p =>
    have hwhole := read_append hread ((quote value).drop n)
    have hquote := read_quote value []
    rw [List.take_append_drop] at hwhole
    rw [List.append_nil, hwhole] at hquote
    -- what is behind the beginning would have been left unread
    have hdrop : (quote value).drop n = [] :=
      (List.append_eq_nil_iff.mp (Prod.mk.inj (Option.some.inj hquote)).2).2
    exact absurd (List.drop_eq_nil_iff.mp hdrop) (Nat.not_le.mpr hn)

theorem quote_injective : Function.Injective quote := by
  intro value value' h
  have hvalue := read_quote value []
  rw [h, read_quote] at hvalue
  exact (Prod.mk.inj (Option.some.inj hvalue)).1.symm

/-! ## Lines -/

/-- The line feeds and carriage returns of a text. -/
def breaks (t : Text) : Text := t.filter fun c => c = '\n' ∨ c = '\r'

theorem breaks_append (t u : Text) : breaks (t ++ u) = breaks t ++ breaks u := List.filter_append ..

theorem breaks_escaped (c : Char) : breaks (escaped c) = [] := by
  rw [escaped]
  split
  · rfl
  split
  · rfl
  split
  · rfl
  split
  · rfl
  · rename_i hfeed hreturn
    simp [breaks, hfeed, hreturn]

/-- A literal is on one line. -/
@[simp] theorem breaks_quote (value : Text) : breaks (quote value) = [] := by
  have hinside : breaks (value.flatMap escaped) = [] := by
    induction value with
    | nil => rfl
    | cons c value ih => rw [List.flatMap_cons, breaks_append, breaks_escaped, ih, List.nil_append]
  rw [quote, breaks_append, breaks_append, hinside]
  rfl

end Literal

/-! ## The lines of a table -/

namespace Route

open Literal (breaks breaks_append breaks_quote)

mutual

/-- The route without its path and its source, and so are those below it. -/
def nameless : Route → Route
  | ⟨_, hasPage, _, children⟩ => ⟨[], hasPage, [], namelessAll children⟩

/-- The routes without their paths and sources. -/
def namelessAll : List Route → List Route
  | [] => []
  | r :: rest => nameless r :: namelessAll rest

end

theorem isEmpty_namelessAll (rs : List Route) : (namelessAll rs).isEmpty = rs.isEmpty := by
  cases rs <;> simp [namelessAll]

mutual

theorem breaks_literal (conventions : Conventions) (depth : Nat) : ∀ r : Route,
    breaks (literal conventions depth r) =
      breaks (literal { conventions with pageModule := [] } depth r.nameless)
  | ⟨path, hasPage, source, children⟩ => by
    have hbelow := breaks_literals conventions (depth + 2) children
    rw [nameless, literal, literal]
    simp only [apply_ite breaks, breaks_append, breaks_quote, isEmpty_namelessAll, hbelow]

theorem breaks_literals (conventions : Conventions) (depth : Nat) : ∀ rs : List Route,
    breaks (literals conventions depth rs) =
      breaks (literals { conventions with pageModule := [] } depth (namelessAll rs))
  | [] => rfl
  | r :: rest => by
    rw [namelessAll, literals, literals, breaks_append, breaks_append, breaks_literal conventions depth r,
      breaks_literals conventions depth rest]

end

/-- The text of a table has the lines that it has without any names. -/
theorem breaks_fragment (conventions : Conventions) (rs : List Route) :
    breaks (fragment conventions rs) =
      breaks (fragment { conventions with pageModule := [] } (namelessAll rs)) := by
  rw [fragment, fragment, isEmpty_namelessAll]
  split
  · rfl
  · simp only [breaks_append, breaks_literals conventions 1 rs]

end Route

/-- Literals delimit themselves: any text is read off its literal, whatever follows is left unread, and no
beginning of a literal can be read.  A literal is on one line, and no name in a table makes a line. -/
theorem quote_delimits :
    (∀ value rest, Literal.read (Literal.quote value ++ rest) = some (value, rest)) ∧
      (∀ value n, n < (Literal.quote value).length →
        Literal.read ((Literal.quote value).take n) = none) ∧
      Function.Injective Literal.quote ∧
      (∀ value, '\n' ∉ Literal.quote value ∧ '\r' ∉ Literal.quote value) ∧
      ∀ conventions rs, Literal.breaks (Route.fragment conventions rs) =
        Literal.breaks (Route.fragment { conventions with pageModule := [] } (Route.namelessAll rs)) := by
  refine ⟨Literal.read_quote, fun value n => Literal.read_take_quote, Literal.quote_injective,
    fun value => ?_, Route.breaks_fragment⟩
  have hbreaks : ∀ c ∈ Literal.quote value, ¬ (c = '\n' ∨ c = '\r') := by
    simpa [Literal.breaks, List.filter_eq_nil_iff] using Literal.breaks_quote value
  exact ⟨fun h => hbreaks _ h (Or.inl rfl), fun h => hbreaks _ h (Or.inr rfl)⟩

end FileRoutes
