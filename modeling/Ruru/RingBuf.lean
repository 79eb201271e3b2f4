import Ruru.Lib.Circular
import Ruru.Libc

/-!
# Ruru.RingBuf — `RuruRingBuf<T>`

The indices are `uint32_t`; both stay below `cap` by construction.  `elements` is the queue the
buffer stands for, and each operation is one queue operation on it.
-/

namespace Ruru

structure RuruRingBuf (T : Type) where
  memory : ℕ → T
  cap : ℕ
  rd : ℕ
  wt : ℕ
  cap_lt : cap < 2 ^ 32
  rd_lt : rd < cap
  wt_lt : wt < cap

namespace RuruRingBuf

variable {T : Type}

/-- The constructor, for a positive capacity; `new T[cap]` leaves the elements as they are. -/
def ruruRingBuf (memory : ℕ → T) (cap : ℕ) (h0 : 0 < cap) (hlt : cap < 2 ^ 32) : RuruRingBuf T where
  memory := memory
  cap := cap
  rd := 0
  wt := 0
  cap_lt := hlt
  rd_lt := h0
  wt_lt := h0

/-- `(i + 1) % cap` in `uint32_t`. -/
def advance (b : RuruRingBuf T) (i : ℕ) : ℕ := (i + 1) % 2 ^ 32 % b.cap

theorem advance_lt (b : RuruRingBuf T) (i : ℕ) : b.advance i < b.cap :=
  Nat.mod_lt _ (Nat.zero_lt_of_lt b.rd_lt)

theorem advance_eq (b : RuruRingBuf T) {i : ℕ} (hi : i < b.cap) : b.advance i = (i + 1) % b.cap := by
  have := b.cap_lt
  rw [advance, Nat.mod_eq_of_lt (by omega : i + 1 < 2 ^ 32)]

/-- `RingBufReset`. -/
def ringBufReset (b : RuruRingBuf T) : RuruRingBuf T :=
  { b with rd := 0, wt := 0, rd_lt := Nat.zero_lt_of_lt b.rd_lt, wt_lt := Nat.zero_lt_of_lt b.rd_lt }

/-- `RingBufEmpty`. -/
def ringBufEmpty (b : RuruRingBuf T) : Bool := b.rd == b.wt

/-- `RingBufRead`: the element written to `out`, if any. -/
def ringBufRead (b : RuruRingBuf T) : Option T × RuruRingBuf T :=
  if b.wt ≠ b.rd then
    (some (b.memory b.rd), { b with rd := b.advance b.rd, rd_lt := b.advance_lt b.rd })
  else (none, b)

/-- `RingBufWrite`. -/
def ringBufWrite (b : RuruRingBuf T) (input : T) : Bool × RuruRingBuf T :=
  if b.rd ≠ b.advance b.wt then
    (true, { b with
      memory := Function.update b.memory b.wt input
      wt := b.advance b.wt
      wt_lt := b.advance_lt b.wt })
  else (false, b)

/-- The stored elements, oldest first. -/
def elements (b : RuruRingBuf T) : List T := Circular.contents b.memory b.cap b.rd b.wt

@[simp] theorem elements_ruruRingBuf (memory : ℕ → T) (cap : ℕ) (h0 : 0 < cap) (hlt : cap < 2 ^ 32) :
    (ruruRingBuf memory cap h0 hlt).elements = [] :=
  Circular.contents_self memory cap 0

theorem length_elements_lt (b : RuruRingBuf T) : b.elements.length < b.cap := by
  rw [elements, Circular.length_contents]
  exact Circular.count_lt b.rd_lt

/-- A write appends when fewer than `cap - 1` elements are stored, and else changes nothing. -/
theorem ringBufWrite_cases (b : RuruRingBuf T) (x : T) :
    (∃ b', b.ringBufWrite x = (true, b') ∧ b'.elements = b.elements ++ [x] ∧ b'.cap = b.cap ∧
        b.elements.length + 1 < b.cap) ∨
      (b.ringBufWrite x = (false, b) ∧ b.elements.length + 1 = b.cap) := by
  unfold ringBufWrite
  by_cases h : b.rd ≠ b.advance b.wt
  · rw [if_pos h]
    have h' : b.rd ≠ (b.wt + 1) % b.cap := by rwa [b.advance_eq b.wt_lt] at h
    have hlen := b.length_elements_lt
    have hfull : b.elements.length + 1 ≠ b.cap := by
      rw [elements, Circular.length_contents]
      exact fun hf => h' ((Circular.succ_eq_iff_full b.rd_lt b.wt_lt).mpr hf)
    refine Or.inl ⟨_, rfl, ?_, rfl, by omega⟩
    simp only [elements, b.advance_eq b.wt_lt]
    exact Circular.contents_write b.rd_lt b.wt_lt h' x
  · rw [if_neg h]
    refine Or.inr ⟨rfl, ?_⟩
    rw [elements, Circular.length_contents]
    rw [b.advance_eq b.wt_lt] at h
    exact (Circular.succ_eq_iff_full b.rd_lt b.wt_lt).mp (not_not.mp h)

/-- A read takes the oldest element, or changes nothing when none is stored. -/
theorem ringBufRead_cases (b : RuruRingBuf T) :
    (∃ x b', b.ringBufRead = (some x, b') ∧ b.elements = x :: b'.elements ∧ b'.cap = b.cap) ∨
      (b.ringBufRead = (none, b) ∧ b.elements = []) := by
  unfold ringBufRead
  by_cases h : b.wt ≠ b.rd
  · rw [if_pos h]
    refine Or.inl ⟨_, _, rfl, ?_, rfl⟩
    simp only [elements, b.advance_eq b.rd_lt]
    exact Circular.contents_read b.rd_lt b.wt_lt h
  · rw [if_neg h]
    refine Or.inr ⟨rfl, ?_⟩
    rw [elements, not_not.mp h]
    exact Circular.contents_self _ _ _

theorem ringBufRead_some {b b' : RuruRingBuf T} {x : T} (h : b.ringBufRead = (some x, b')) :
    b.elements = x :: b'.elements ∧ b'.cap = b.cap := by
  rcases b.ringBufRead_cases with ⟨y, c, hr, hel, hcap⟩ | ⟨hr, -⟩
  · obtain ⟨hxy, rfl⟩ := Prod.mk.inj (h.symm.trans hr)
    rw [hel, Option.some.inj hxy]
    exact ⟨rfl, hcap⟩
  · exact absurd (Prod.mk.inj (h.symm.trans hr)).1 (by simp)

theorem cap_ringBufWrite (b : RuruRingBuf T) (x : T) : (b.ringBufWrite x).2.cap = b.cap := by
  rcases b.ringBufWrite_cases x with ⟨b', hw, -, hcap, -⟩ | ⟨hw, -⟩
  · rw [hw]
    exact hcap
  · rw [hw]

end RuruRingBuf

end Ruru
