import Ruru.Lib.Fifo
import Ruru.RingBuf

/-!
# Ruru.RingFifo — the ring buffer refines a bounded FIFO queue

`elements` is the abstraction: each operation of a `RuruRingBuf` of capacity `cap` answers as the
queue of capacity `cap - 1` does and leads to the elements that queue has.
-/

namespace Ruru

namespace RuruRingBuf

variable {T : Type}

/-- An operation of the buffer. -/
def step (b : RuruRingBuf T) : Fifo.Op T → Fifo.Answer T × RuruRingBuf T
  | .write input => (.written (b.ringBufWrite input).1, (b.ringBufWrite input).2)
  | .read => (.got b.ringBufRead.1, b.ringBufRead.2)
  | .empty => (.isEmpty b.ringBufEmpty, b)
  | .reset => (.done, b.ringBufReset)

theorem ringBufEmpty_eq (b : RuruRingBuf T) : b.ringBufEmpty = b.elements.isEmpty := by
  rw [Bool.eq_iff_iff, List.isEmpty_iff, ← List.length_eq_zero_iff, elements,
    Circular.length_contents, Circular.count_eq_zero b.rd_lt b.wt_lt]
  exact beq_iff_eq

@[simp] theorem elements_ringBufReset (b : RuruRingBuf T) : b.ringBufReset.elements = [] :=
  Circular.contents_self b.memory b.cap 0

/-- The buffer `b` of capacity `cap` stands for the queue `q`. -/
def StandsFor (cap : ℕ) (b : RuruRingBuf T) (q : List T) : Prop := b.cap = cap ∧ b.elements = q

/-- One operation. -/
theorem step_refines {cap : ℕ} {b : RuruRingBuf T} {q : List T} (h : b.StandsFor cap q)
    (op : Fifo.Op T) : (b.step op).1 = (Fifo.step (cap - 1) q op).1 ∧
      (b.step op).2.StandsFor cap (Fifo.step (cap - 1) q op).2 := by
  obtain ⟨rfl, rfl⟩ := h
  cases op with
  | write input =>
    rcases b.ringBufWrite_cases input with ⟨b', hw, hel, hcap, hroom⟩ | ⟨hw, hfull⟩
    · rw [step, Fifo.step, hw, if_pos (by omega)]
      exact ⟨rfl, hcap, hel⟩
    · rw [step, Fifo.step, hw, if_neg (by omega)]
      exact ⟨rfl, rfl, rfl⟩
  | read =>
    rcases b.ringBufRead_cases with ⟨x, b', hr, hel, hcap⟩ | ⟨hr, hel⟩
    · rw [step, Fifo.step, hr, hel]
      exact ⟨rfl, hcap, rfl⟩
    · rw [step, Fifo.step, hr, hel]
      exact ⟨rfl, rfl, hel⟩
  | empty =>
    rw [step, Fifo.step, b.ringBufEmpty_eq]
    exact ⟨rfl, rfl, rfl⟩
  | reset => exact ⟨rfl, rfl, b.elements_ringBufReset⟩

/-- A failed operation leaves the buffer as it is, indices and memory. -/
theorem step_of_failed {b : RuruRingBuf T} {op : Fifo.Op T} (h : (b.step op).1.failed = true) :
    (b.step op).2 = b := by
  cases op with
  | write input =>
    rcases b.ringBufWrite_cases input with ⟨b', hw, -⟩ | ⟨hw, -⟩
    · rw [step, hw] at h
      exact absurd h (by simp [Fifo.Answer.failed])
    · rw [step, hw]
  | read =>
    rcases b.ringBufRead_cases with ⟨x, b', hr, -⟩ | ⟨hr, -⟩
    · rw [step, hr] at h
      exact absurd h (by simp [Fifo.Answer.failed])
    · rw [step, hr]
  | empty => rfl
  | reset => exact absurd h (by simp [step, Fifo.Answer.failed])

/-- **The ring buffer is a bounded FIFO.**  Whatever its capacity and the calls made on it, a
`RuruRingBuf` answers as the queue of capacity `cap - 1`; on the way its indices stay below `cap`, the
increment of an index stays in `uint32_t` and the divisor is not 0, and a call that fails changes
nothing. -/
theorem ringBuf_refines_fifo (memory : ℕ → T) (cap : ℕ) (h0 : 0 < cap) (hlt : cap < 2 ^ 32)
    (ops : List (Fifo.Op T)) :
    let b := ruruRingBuf memory cap h0 hlt
    (Machine.run step b ops).1 = (Machine.run (Fifo.step (cap - 1)) [] ops).1 ∧
      (Machine.run step b ops).2.elements = (Machine.run (Fifo.step (cap - 1)) [] ops).2 ∧
      ∀ past rest, ops = past ++ rest →
        let c := (Machine.run step b past).2
        c.rd < cap ∧ c.wt < cap ∧ c.rd + 1 < 2 ^ 32 ∧ c.wt + 1 < 2 ^ 32 ∧ c.cap = cap ∧
          ∀ op, (c.step op).1.failed = true → (c.step op).2 = c := by
  intro b
  have hstart : b.StandsFor cap [] := ⟨rfl, elements_ruruRingBuf memory cap h0 hlt⟩
  have hrun := Machine.run_refines (R := StandsFor cap) (fun _ _ op h => step_refines h op) hstart
  obtain ⟨hanswers, -, hend⟩ := hrun ops
  refine ⟨hanswers, hend, fun past rest _ => ?_⟩
  intro c
  obtain ⟨-, hcap, -⟩ := hrun past
  have hrd : c.rd < cap := hcap ▸ c.rd_lt
  have hwt : c.wt < cap := hcap ▸ c.wt_lt
  exact ⟨hrd, hwt, by omega, by omega, hcap, fun op h => step_of_failed h⟩

/-- A buffer with room for two: the third write fails, and so does the fourth read. -/
theorem ringBuf_refines_fifo_wrapping :
    let ops : List (Fifo.Op ℕ) := [.write 1, .write 2, .write 3, .read, .write 4, .read, .read, .read,
      .empty]
    let b := ruruRingBuf (fun _ => 0) 3 (by decide) (by decide)
    (Machine.run step b ops).1 = (Machine.run (Fifo.step (3 - 1)) [] ops).1 ∧
      (Machine.run step b ops).2.elements = (Machine.run (Fifo.step (3 - 1)) [] ops).2 ∧
      ∀ past rest, ops = past ++ rest →
        let c := (Machine.run step b past).2
        c.rd < 3 ∧ c.wt < 3 ∧ c.rd + 1 < 2 ^ 32 ∧ c.wt + 1 < 2 ^ 32 ∧ c.cap = 3 ∧
          ∀ op, (c.step op).1.failed = true → (c.step op).2 = c :=
  ringBuf_refines_fifo (fun _ => 0) 3 (by decide) (by decide) _

end RuruRingBuf

end Ruru
