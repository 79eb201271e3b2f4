import Mathlib.Data.List.Basic
import Mathlib.Tactic.Common

/-!
# Ruru.Lib.Fifo — machines that answer, and the bounded FIFO queue

A machine is a function from a state and an operation to an answer and the next state.
`Machine.run_refines`: a relation that every operation preserves with equal answers makes the answers
of whole runs equal.  `Fifo.step n` is the queue that holds at most `n` elements.
-/

namespace Machine

variable {σ τ ι ο : Type*}

/-- The answers of a run, and the state it ends in. -/
def run (f : σ → ι → ο × σ) : σ → List ι → List ο × σ
  | s, [] => ([], s)
  | s, i :: is => ((f s i).1 :: (run f (f s i).2 is).1, (run f (f s i).2 is).2)

/-- What one operation preserves, a run preserves. -/
theorem run_refines {f : σ → ι → ο × σ} {g : τ → ι → ο × τ} {R : σ → τ → Prop}
    (hstep : ∀ s t i, R s t → (f s i).1 = (g t i).1 ∧ R (f s i).2 (g t i).2) {s : σ} {t : τ}
    (h : R s t) (is : List ι) :
    (run f s is).1 = (run g t is).1 ∧ R (run f s is).2 (run g t is).2 := by
  induction is generalizing s t with
  | nil => exact ⟨rfl, h⟩
  | cons i is ih =>
    obtain ⟨hans, hnext⟩ := hstep s t i h
    obtain ⟨hrest, hend⟩ := ih hnext
    exact ⟨List.cons_eq_cons.mpr ⟨hans, hrest⟩, hend⟩

end Machine

namespace Fifo

variable {α : Type*}

/-- The operations of a queue. -/
inductive Op (α : Type*) where
  | write (x : α)
  | read
  | empty
  | reset

/-- Their answers. -/
inductive Answer (α : Type*) where
  | written (ok : Bool)
  | got (x : Option α)
  | isEmpty (ok : Bool)
  | done
deriving DecidableEq

/-- The answer of an operation that failed. -/
def Answer.failed : Answer α → Bool
  | .written ok => !ok
  | .got x => x.isNone
  | _ => false

/-- The queue of capacity `n`. -/
def step (n : ℕ) (q : List α) : Op α → Answer α × List α
  | .write x => if q.length < n then (.written true, q ++ [x]) else (.written false, q)
  | .read => (.got q.head?, q.tail)
  | .empty => (.isEmpty q.isEmpty, q)
  | .reset => (.done, [])

end Fifo
