import Mathlib.Data.List.Basic
import Mathlib.Logic.Function.Basic
import Mathlib.Tactic.Common

/-!
# Ruru.Lib.Circular — the queue stored between two indices of a circular memory

`contents m cap rd wt` lists the cells from `rd` up to `wt`, wrapping at `cap`.  Equal indices mean
the empty queue, so one cell always stays unused.  Rules: writing at `wt` appends, advancing `rd`
removes the first element, and the indices tell how many elements are stored.
-/

namespace Circular

variable {α : Type*}

/-- How many cells lie between the indices. -/
def count (cap rd wt : ℕ) : ℕ := (wt + cap - rd) % cap

/-- The stored elements, oldest first. -/
def contents (m : ℕ → α) (cap rd wt : ℕ) : List α :=
  (List.range (count cap rd wt)).map fun i => m ((rd + i) % cap)

@[simp] theorem length_contents (m : ℕ → α) (cap rd wt : ℕ) :
    (contents m cap rd wt).length = count cap rd wt := by
  simp [contents]

/-- The count without a remainder: either the indices are in order or the queue wraps. -/
theorem count_of_lt {cap rd wt : ℕ} (hr : rd < cap) (hw : wt < cap) :
    count cap rd wt = if rd ≤ wt then wt - rd else wt + cap - rd := by
  unfold count
  split_ifs with h
  · rw [show wt + cap - rd = wt - rd + cap by omega, Nat.add_mod_right]
    exact Nat.mod_eq_of_lt (by omega)
  · exact Nat.mod_eq_of_lt (by omega)

theorem succ_mod {cap i : ℕ} (hi : i < cap) :
    (i + 1) % cap = if i + 1 = cap then 0 else i + 1 := by
  split_ifs with h
  · rw [h, Nat.mod_self]
  · exact Nat.mod_eq_of_lt (by omega)

@[simp] theorem contents_self (m : ℕ → α) (cap i : ℕ) : contents m cap i i = [] := by
  simp [contents, count]

theorem count_eq_zero {cap rd wt : ℕ} (hr : rd < cap) (hw : wt < cap) :
    count cap rd wt = 0 ↔ rd = wt := by
  rw [count_of_lt hr hw]
  split_ifs <;> omega

theorem count_lt {cap rd wt : ℕ} (hr : rd < cap) : count cap rd wt < cap :=
  Nat.mod_lt _ (by omega)

/-- The next write index meets the read index exactly when all cells but one are used. -/
theorem succ_eq_iff_full {cap rd wt : ℕ} (hr : rd < cap) (hw : wt < cap) :
    rd = (wt + 1) % cap ↔ count cap rd wt + 1 = cap := by
  rw [count_of_lt hr hw, succ_mod hw]
  split_ifs <;> omega

theorem count_write {cap rd wt : ℕ} (hr : rd < cap) (hw : wt < cap)
    (hroom : rd ≠ (wt + 1) % cap) :
    count cap rd ((wt + 1) % cap) = count cap rd wt + 1 := by
  rw [succ_mod hw] at hroom ⊢
  rw [count_of_lt hr hw, count_of_lt hr (by split_ifs <;> omega)]
  split_ifs at hroom ⊢ <;> omega

theorem count_read {cap rd wt : ℕ} (hr : rd < cap) (hw : wt < cap) (hne : wt ≠ rd) :
    count cap rd wt = count cap ((rd + 1) % cap) wt + 1 := by
  rw [succ_mod hr, count_of_lt hr hw, count_of_lt (by split_ifs <;> omega) hw]
  split_ifs <;> omega

/-- Writing at the write index and advancing it appends. -/
theorem contents_write {m : ℕ → α} {cap rd wt : ℕ} (hr : rd < cap) (hw : wt < cap)
    (hroom : rd ≠ (wt + 1) % cap) (x : α) :
    contents (Function.update m wt x) cap rd ((wt + 1) % cap) = contents m cap rd wt ++ [x] := by
  have hfull : count cap rd wt + 1 ≠ cap := fun h => hroom ((succ_eq_iff_full hr hw).mpr h)
  have hlt : count cap rd wt < cap := count_lt hr
  have hend : (rd + count cap rd wt) % cap = wt := by
    rw [count_of_lt hr hw]
    split_ifs with h
    · rw [show rd + (wt - rd) = wt by omega, Nat.mod_eq_of_lt hw]
    · rw [show rd + (wt + cap - rd) = wt + cap by omega, Nat.add_mod_right, Nat.mod_eq_of_lt hw]
  unfold contents
  rw [count_write hr hw hroom, List.range_succ, List.map_append]
  refine congrArg₂ (· ++ ·) (List.map_congr_left fun i hi => ?_) ?_
  · -- the cells in use are not the one written
    have hi' : i < count cap rd wt := List.mem_range.mp hi
    refine Function.update_of_ne (fun heq => ?_) _ _
    rw [count_of_lt hr hw] at hi'
    have hcase : (rd + i) % cap = if rd + i < cap then rd + i else rd + i - cap := by
      split_ifs with h
      · exact Nat.mod_eq_of_lt h
      · rw [Nat.mod_eq_sub_mod (by omega), Nat.mod_eq_of_lt (by split_ifs at hi' <;> omega)]
    rw [hcase] at heq
    split_ifs at heq hi' <;> omega
  · simp [hend]

/-- The oldest element stands at the read index; advancing the index removes it. -/
theorem contents_read {m : ℕ → α} {cap rd wt : ℕ} (hr : rd < cap) (hw : wt < cap) (hne : wt ≠ rd) :
    contents m cap rd wt = m rd :: contents m cap ((rd + 1) % cap) wt := by
  unfold contents
  rw [count_read hr hw hne, List.range_succ_eq_map, List.map_cons, List.map_map]
  refine congrArg₂ List.cons ?_ (List.map_congr_left fun i _ => ?_)
  · rw [Nat.add_zero, Nat.mod_eq_of_lt hr]
  · simp only [Function.comp_apply]
    rw [Nat.mod_add_mod, show rd + i.succ = rd + 1 + i by omega]

end Circular
