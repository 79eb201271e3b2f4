import Mathlib.Data.Int.Notation
import Mathlib.Logic.Function.Basic
import Mathlib.Data.List.Basic
import Mathlib.Logic.Relation
import Mathlib.Tactic.Common

/-!
# Ruru.Lib.Relay — a queue that forwards messages to their recipients

Messages for many recipients wait in one queue; the front one is forwarded to its recipient or lost.
`Faithful`: every recipient was forwarded, in order and once each, messages that were received for
it, and the others are the ones counted as lost.  The steps keep it, and a message that is forwarded
without leaving the queue breaks it for good.
-/

namespace Relay

open Relation

variable {κ μ : Type*} [DecidableEq κ]

/-- The messages for the recipient `k`. -/
def messagesFor (k : κ) (ms : List (κ × μ)) : List μ :=
  ms.filterMap fun m => if m.1 = k then some m.2 else none

@[simp] theorem messagesFor_nil (k : κ) : messagesFor k ([] : List (κ × μ)) = [] := rfl

@[simp] theorem messagesFor_append (k : κ) (a b : List (κ × μ)) :
    messagesFor k (a ++ b) = messagesFor k a ++ messagesFor k b := List.filterMap_append

theorem messagesFor_cons (k : κ) (m : κ × μ) (ms : List (κ × μ)) :
    messagesFor k (m :: ms) = (if m.1 = k then [m.2] else []) ++ messagesFor k ms := by
  unfold messagesFor
  rw [List.filterMap_cons]
  by_cases h : m.1 = k
  · simp only [if_pos h, List.singleton_append]
  · simp only [if_neg h, List.nil_append]

/-- All messages received so far, those that wait, what each recipient was forwarded, and how many
messages for it were lost. -/
structure State (κ μ : Type*) where
  received : List (κ × μ)
  queue : List (κ × μ)
  out : κ → List μ
  lost : κ → ℕ

/-- The recipient `k` is forwarded `m`. -/
def State.send (s : State κ μ) (k : κ) (m : μ) : State κ μ :=
  { s with out := Function.update s.out k (s.out k ++ [m]) }

/-- A message for `k` is lost. -/
def State.drop (s : State κ μ) (k : κ) : State κ μ :=
  { s with lost := Function.update s.lost k (s.lost k + 1) }

/-- `t` is `s` after the attempt to forward `m` to `k`. -/
def Attempt (s : State κ μ) (k : κ) (m : μ) (t : State κ μ) : Prop := t = s.send k m ∨ t = s.drop k

/-- A step: a message arrives, or the front one leaves the queue. -/
inductive Step : State κ μ → State κ μ → Prop
  | receive (s : State κ μ) (m : κ × μ) :
      Step s { s with received := s.received ++ [m], queue := s.queue ++ [m] }
  | forward {s t : State κ μ} {k : κ} {m : μ} {rest : List (κ × μ)} (front : s.queue = (k, m) :: rest)
      (attempt : Attempt { s with queue := rest } k m t) : Step s t

abbrev Steps : State κ μ → State κ μ → Prop := ReflTransGen Step

/-- Several messages arrive. -/
theorem steps_receive (s : State κ μ) (ms : List (κ × μ)) :
    Steps s { s with received := s.received ++ ms, queue := s.queue ++ ms } := by
  induction ms generalizing s with
  | nil =>
    simp only [List.append_nil]
    exact .refl
  | cons m ms ih =>
    have hrest := ih { s with received := s.received ++ [m], queue := s.queue ++ [m] }
    simp only [List.append_assoc, List.singleton_append] at hrest
    exact .head (.receive s m) hrest

/-- What was forwarded to `k` and what waits for it was received for it, in this order and once each;
the rest was lost. -/
def Faithful (s : State κ μ) (k : κ) : Prop :=
  List.Sublist (s.out k ++ messagesFor k s.queue) (messagesFor k s.received) ∧
    (s.out k).length + (messagesFor k s.queue).length + s.lost k = (messagesFor k s.received).length

/-- How many messages more are forwarded, waiting or lost than were received. -/
def excess (s : State κ μ) (k : κ) : ℤ :=
  (s.out k).length + (messagesFor k s.queue).length + s.lost k - (messagesFor k s.received).length

theorem Faithful.excess_eq {s : State κ μ} {k : κ} (h : Faithful s k) : excess s k = 0 := by
  obtain ⟨-, hlen⟩ := h
  unfold excess
  omega

theorem out_send (s : State κ μ) (k j : κ) (m : μ) :
    (s.send k m).out j = s.out j ++ if k = j then [m] else [] := by
  show Function.update s.out k (s.out k ++ [m]) j = _
  split_ifs with h
  · subst h
    rw [Function.update_self]
  · rw [Function.update_of_ne (Ne.symm h), List.append_nil]

theorem lost_drop (s : State κ μ) (k j : κ) :
    (s.drop k).lost j = s.lost j + if k = j then 1 else 0 := by
  show Function.update s.lost k (s.lost k + 1) j = _
  split_ifs with h
  · subst h
    rw [Function.update_self]
  · rw [Function.update_of_ne (Ne.symm h), Nat.add_zero]

theorem Attempt.excess_eq {s t : State κ μ} {k : κ} {m : μ} (h : Attempt s k m t) (j : κ) :
    excess t j = excess s j + if k = j then 1 else 0 := by
  rcases h with rfl | rfl
  · unfold excess
    rw [out_send]
    simp only [State.send, List.length_append]
    by_cases hkj : k = j
    · simp only [if_pos hkj, List.length_singleton]
      omega
    · simp only [if_neg hkj, List.length_nil]
      omega
  · unfold excess
    rw [lost_drop]
    simp only [State.drop]
    split_ifs <;> omega

theorem Step.excess_eq {s t : State κ μ} (h : Step s t) (j : κ) : excess t j = excess s j := by
  cases h with
  | receive m =>
    unfold excess
    simp only [messagesFor_append, List.length_append]
    omega
  | @forward _ k m rest front attempt =>
    rw [attempt.excess_eq j]
    unfold excess
    rw [front, messagesFor_cons]
    by_cases hkj : k = j
    · simp only [if_pos hkj, List.length_append, List.length_singleton]
      omega
    · simp only [if_neg hkj, List.nil_append]
      omega

theorem Steps.excess_eq {s t : State κ μ} (h : Steps s t) (j : κ) :
    excess t j = excess s j := by
  induction h with
  | refl => rfl
  | tail _ hstep ih => exact (hstep.excess_eq j).trans ih

theorem Step.faithful {s t : State κ μ} (h : Step s t) {j : κ} (hs : Faithful s j) :
    Faithful t j := by
  have hexcess := h.excess_eq j
  rw [hs.excess_eq] at hexcess
  refine ⟨?_, by unfold excess at hexcess; omega⟩
  cases h with
  | receive m =>
    simp only [messagesFor_append, ← List.append_assoc]
    exact hs.1.append (List.Sublist.refl _)
  | @forward _ k m rest front attempt =>
    have hsub := hs.1
    rw [front, messagesFor_cons, ← List.append_assoc] at hsub
    rcases attempt with rfl | rfl
    · rw [out_send]
      exact hsub
    · refine List.Sublist.trans ?_ hsub
      exact (List.sublist_append_left _ _).append (List.Sublist.refl _)

/-- The run lemma. -/
theorem Steps.faithful {s t : State κ μ} (h : Steps s t) {j : κ} (hs : Faithful s j) :
    Faithful t j := by
  induction h with
  | refl => exact hs
  | tail _ hstep ih => exact hstep.faithful ih

/-- A message forwarded, or lost, without leaving the queue is one too many, whatever follows. -/
theorem not_faithful_of_repeat {s t u v : State κ μ} {k : κ} {m : μ} (hs : Faithful s k)
    (before : Steps s t) (again : Attempt t k m u) (after : Steps u v) : ¬Faithful v k := by
  intro hv
  have h := hv.excess_eq
  rw [after.excess_eq k, again.excess_eq k, before.excess_eq k, hs.excess_eq, if_pos rfl] at h
  exact absurd h (by simp)

end Relay
