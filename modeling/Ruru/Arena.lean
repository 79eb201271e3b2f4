import Ruru.Lib.Memory
import Ruru.Libc

/-!
# Ruru.Arena — `RuruArena`, the bump arena of a loop

Offsets into `memory` stand for the pointers `ArenaAlloc` returns.  That `pos` stays between 0 and
`capacity` is part of the type, so none of the `int32_t` sums below leaves its range.
-/

namespace Ruru

structure RuruArena where
  memory : ℕ → UInt8
  pos : ℤ
  capacity : ℤ
  pos_nonneg : 0 ≤ pos
  pos_le : pos ≤ capacity

namespace RuruArena

/-- The constructor: `1 << capacity` bytes, with whatever `new` finds in them. -/
def ruruArena (memory : ℕ → UInt8) (capacity : ℕ) : RuruArena where
  memory := memory
  pos := 0
  capacity := 2 ^ capacity
  pos_nonneg := Int.le_refl 0
  pos_le := by positivity

/-- `RuruArena::ArenaAlloc`: the offset of the block, or NULL. -/
def arenaAlloc (a : RuruArena) (blockSize : ℤ) : Option ℕ × RuruArena :=
  if h0 : blockSize ≤ 0 then (none, a)
  else
    let remain := a.capacity - a.pos
    if h1 : remain < blockSize then (none, a)
    else
      (some a.pos.toNat,
        { a with
          pos := a.pos + blockSize
          pos_nonneg := by have := a.pos_nonneg; omega
          pos_le := by omega })

/-- `RuruArena::ArenaReset`. -/
def arenaReset (a : RuruArena) : RuruArena :=
  { a with pos := 0, pos_nonneg := Int.le_refl 0, pos_le := a.pos_nonneg.trans a.pos_le }

/-- `memcpy(p, data, ..)` for a block `p` of the arena. -/
def memcpy (a : RuruArena) (p : ℕ) (data : List UInt8) : RuruArena :=
  { a with memory := Memory.store a.memory p data }

/-- What an allocation does: it fails and changes nothing, or returns the block that starts at the
old `pos` and ends at the new one, within the capacity. -/
theorem arenaAlloc_cases (a : RuruArena) {n : ℕ} (hn : 1 ≤ n) :
    a.arenaAlloc n = (none, a) ∧ a.capacity < a.pos + n ∨
      ∃ a', a.arenaAlloc n = (some a.pos.toNat, a') ∧ a'.memory = a.memory ∧
        a'.pos = a.pos + n ∧ a'.capacity = a.capacity ∧ a.pos + n ≤ a.capacity := by
  unfold arenaAlloc
  rw [dif_neg (by omega)]
  by_cases h : a.capacity - a.pos < n
  · rw [dif_pos h]
    exact Or.inl ⟨rfl, by omega⟩
  · rw [dif_neg h]
    exact Or.inr ⟨_, rfl, rfl, rfl, rfl, by omega⟩

/-- A failed allocation changes nothing. -/
theorem arenaAlloc_none {a a' : RuruArena} {n : ℤ} (h : a.arenaAlloc n = (none, a')) : a' = a := by
  unfold arenaAlloc at h
  by_cases h0 : n ≤ 0
  · rw [dif_pos h0] at h
    exact (Prod.mk.inj h).2.symm
  · rw [dif_neg h0] at h
    by_cases h1 : a.capacity - a.pos < n
    · rw [dif_pos h1] at h
      exact (Prod.mk.inj h).2.symm
    · rw [dif_neg h1] at h
      exact absurd (Prod.mk.inj h).1 (by simp)

/-- A successful allocation of a positive size returns the old `pos`. -/
theorem arenaAlloc_some {a a' : RuruArena} {n : ℤ} {p : ℕ} (h : a.arenaAlloc n = (some p, a')) :
    (p : ℤ) = a.pos ∧ a.pos ≤ a'.pos ∧ a'.memory = a.memory := by
  unfold arenaAlloc at h
  by_cases h0 : n ≤ 0
  · rw [dif_pos h0] at h
    exact absurd (Prod.mk.inj h).1 (by simp)
  · rw [dif_neg h0] at h
    by_cases h1 : a.capacity - a.pos < n
    · rw [dif_pos h1] at h
      exact absurd (Prod.mk.inj h).1 (by simp)
    · rw [dif_neg h1] at h
      obtain ⟨hp, rfl⟩ := Prod.mk.inj h
      have := a.pos_nonneg
      have := Option.some.inj hp
      exact ⟨by omega, by simp only; omega, rfl⟩

end RuruArena

end Ruru
