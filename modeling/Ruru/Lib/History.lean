import Mathlib.Data.List.Basic
import Mathlib.Tactic.Common

/-!
# Ruru.Lib.History — histories in which the past allows everything

`Justified Q h`: every entry of the history `h` is allowed by `Q` after the entries before it.  The
rules are about appending to a history.
-/

namespace History

variable {α : Type*} {Q : List α → α → Prop}

/-- Every entry is allowed by those before it. -/
def Justified (Q : List α → α → Prop) (h : List α) : Prop :=
  ∀ past x rest, h = past ++ x :: rest → Q past x

theorem justified_nil : Justified Q [] := fun past x rest h => absurd h (by simp)

theorem justified_append {a b : List α} :
    Justified Q (a ++ b) ↔ Justified Q a ∧ ∀ past x rest, b = past ++ x :: rest → Q (a ++ past) x := by
  constructor
  · intro h
    refine ⟨fun past x rest ha => h past x (rest ++ b) (by rw [ha]; simp), fun past x rest hb => ?_⟩
    exact h (a ++ past) x rest (by rw [hb, List.append_assoc])
  · rintro ⟨ha, hb⟩ past x rest h
    rcases List.append_eq_append_iff.mp h with ⟨c, hpast, hrest⟩ | ⟨c, hc, hrest⟩
    · rw [hpast]
      exact hb c x rest hrest
    · cases c with
      | nil =>
        rw [List.append_nil] at hc
        rw [← hc, ← List.append_nil a]
        exact hb [] x rest hrest.symm
      | cons y c =>
        obtain ⟨rfl, -⟩ := List.cons_eq_cons.mp hrest
        exact ha past x c hc

/-- The only way to split a history of one entry. -/
theorem split_singleton {x y : α} {past rest : List α} (h : [x] = past ++ y :: rest) :
    past = [] ∧ y = x := by
  cases past with
  | nil => exact ⟨rfl, (List.cons_eq_cons.mp h).1.symm⟩
  | cons z past => exact absurd (congrArg List.length h) (by simp)

/-- What was allowed stays allowed when the history goes on. -/
theorem Justified.of_append {a b : List α} (h : Justified Q (a ++ b)) : Justified Q a :=
  (justified_append.mp h).1

/-- Entries that any past allows can be added. -/
theorem Justified.append {a b : List α} (h : Justified Q a)
    (hb : ∀ x ∈ b, ∀ past, Q (a ++ past) x) : Justified Q (a ++ b) :=
  justified_append.mpr ⟨h, fun past x rest he => hb x (by rw [he]; simp) past⟩

end History
