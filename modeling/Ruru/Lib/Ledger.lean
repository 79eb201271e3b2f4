import Mathlib.Data.List.Induction
import Mathlib.Logic.Function.Basic
import Mathlib.Tactic.Common

/-!
# Ruru.Lib.Ledger — the history of a table

A table maps names to values; its history is the list of the entries made and removed.  A name may
be entered again once it was removed.  `Respects Q h`: every operation of `h` is allowed by `Q` on the
table it meets; `RemovesHeld` and `EntersFree` are the two rules of use.  Everything is about
appending to a history.
-/

namespace Ledger

variable {α β : Type*} [DecidableEq α]

inductive Op (α β : Type*) where
  | enter (a : α) (b : β)
  | remove (a : α)

/-- The table after an operation. -/
def Op.on (t : α → Option β) : Op α β → α → Option β
  | .enter a b => Function.update t a (some b)
  | .remove a => Function.update t a none

/-- The table after a history. -/
def table (h : List (Op α β)) : α → Option β := h.foldl Op.on fun _ => none

theorem table_append (h h' : List (Op α β)) : table (h ++ h') = h'.foldl Op.on (table h) :=
  List.foldl_append

@[simp] theorem on_enter (t : α → Option β) (a : α) (b : β) (x : α) :
    (Op.enter a b).on t x = if x = a then some b else t x := by
  simp [Op.on, Function.update_apply]

@[simp] theorem on_remove (t : α → Option β) (a x : α) :
    (Op.remove a : Op α β).on t x = if x = a then none else t x := by
  simp [Op.on, Function.update_apply]

/-- Every operation is allowed on the table it meets, from the table `t` on. -/
def RespectsFrom (Q : (α → Option β) → Op α β → Prop) : (α → Option β) → List (Op α β) → Prop
  | _, [] => True
  | t, op :: ops => Q t op ∧ RespectsFrom Q (op.on t) ops

/-- Every operation of a history is allowed on the table it meets. -/
def Respects (Q : (α → Option β) → Op α β → Prop) (h : List (Op α β)) : Prop :=
  RespectsFrom Q (fun _ => none) h

variable {Q : (α → Option β) → Op α β → Prop}

theorem respectsFrom_append {t : α → Option β} {h h' : List (Op α β)} :
    RespectsFrom Q t (h ++ h') ↔ RespectsFrom Q t h ∧ RespectsFrom Q (h.foldl Op.on t) h' := by
  induction h generalizing t with
  | nil => simp [RespectsFrom]
  | cons op ops ih =>
    simp only [List.cons_append, RespectsFrom, List.foldl_cons, ih]
    exact and_assoc.symm

theorem respects_append {h h' : List (Op α β)} :
    Respects Q (h ++ h') ↔ Respects Q h ∧ RespectsFrom Q (table h) h' := respectsFrom_append

/-- What a history respects, its beginnings respect. -/
theorem Respects.of_append {h h' : List (Op α β)} (hr : Respects Q (h ++ h')) : Respects Q h :=
  (respects_append.mp hr).1

/-- Only what the table holds is removed. -/
def RemovesHeld (t : α → Option β) : Op α β → Prop
  | .enter _ _ => True
  | .remove a => (t a).isSome

/-- Only names the table does not hold are entered. -/
def EntersFree (t : α → Option β) : Op α β → Prop
  | .enter a _ => t a = none
  | .remove _ => True

/-- Removals take out of a table what it holds, each once, and leave nothing, exactly if they are a
permutation of it. -/
theorem removes_all_iff {t : α → Option β} {os cs : List α} (hos : os.Nodup)
    (ht : ∀ x, (t x).isSome = true ↔ x ∈ os) :
    (RespectsFrom RemovesHeld t (cs.map .remove) ∧ ∀ x, (cs.map .remove).foldl Op.on t x = none) ↔
      cs.Perm os := by
  induction cs generalizing t os with
  | nil =>
    have hempty : (∀ x, t x = none) ↔ os = [] := by
      simp only [List.eq_nil_iff_forall_not_mem, ← ht, Option.not_isSome_iff_eq_none]
    simp [RespectsFrom, hempty, List.nil_perm]
  | cons c cs ih =>
    have ht' : ∀ x, ((Op.remove c).on t x).isSome = true ↔ x ∈ os.erase c := by
      intro x
      rw [on_remove, hos.mem_erase_iff, ← ht]
      by_cases hx : x = c <;> simp [hx]
    rw [List.cons_perm_iff_perm_erase, ← ih (hos.erase c) ht', ← ht, ← and_assoc]
    rfl

theorem respectsFrom_enters (t : α → Option β) (os : List α) (b : β) :
    RespectsFrom RemovesHeld t (os.map fun a => .enter a b) := by
  induction os generalizing t with
  | nil => trivial
  | cons a os ih => exact ⟨trivial, ih _⟩

/-- The table after entries holds what was entered. -/
theorem isSome_table_enters (os : List α) (b : β) (x : α) :
    (table (os.map fun a => Op.enter a b) x).isSome = true ↔ x ∈ os := by
  induction os using List.reverseRecOn with
  | nil => simp [table]
  | append_singleton os a ih =>
    rw [List.map_append, table_append]
    by_cases hx : x = a <;> simp [hx, ih]

instance (t : α → Option β) : DecidablePred (RemovesHeld t)
  | .enter _ _ => inferInstanceAs (Decidable True)
  | .remove a => inferInstanceAs (Decidable ((t a).isSome = true))

instance [DecidableEq β] (t : α → Option β) : DecidablePred (EntersFree t)
  | .enter a _ => inferInstanceAs (Decidable (t a = none))
  | .remove _ => inferInstanceAs (Decidable True)

instance [∀ t : α → Option β, DecidablePred (Q t)] (h : List (Op α β)) : Decidable (Respects Q h) :=
  go (fun _ => none) h
where
  go (t : α → Option β) : (h : List (Op α β)) → Decidable (RespectsFrom Q t h)
    | [] => inferInstanceAs (Decidable True)
    | op :: ops =>
      have := go (op.on t) ops
      inferInstanceAs (Decidable (_ ∧ _))

end Ledger
