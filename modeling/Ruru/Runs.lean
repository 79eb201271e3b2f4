import Ruru.Moves

/-!
# Ruru.Runs — runs of a loop under any application

A run is any order of callbacks of usrsctp, calls of `Loop` with any `evt`, and calls by which the
application sends.  Each step is a sequence of moves, a dequeue, or a reset of the arena followed by
moves.
-/

namespace Ruru

open Relation

variable {σ υ : Type} (env : Env σ υ)

/-- A loop and the event that the most recent call of `Loop` dequeued, if it did. -/
structure PolledLoop (σ υ : Type) where
  ruru : RuruLoop σ υ
  returned : Option RuruEvent := none

/-- What happens to a loop: a callback, a call of `Loop` with any `evt`, or one of the calls by which
the application sends. -/
inductive LoopInput where
  | callback (cb : SctpCallback)
  | loop (fuel : ℕ) (evt : RuruEvent) (batch : EpollBatch)
  | sendUsrSctpData (client : ℕ) (msg : RuruSctpMessage)
  | sendSctpCacheData (client : ℕ)
  | clientSendHeartBeatData (client : ℕ)

namespace PolledLoop

/-- The next state; `none` if `Loop` does not return. -/
def step (st : PolledLoop σ υ) : LoopInput → Option (PolledLoop σ υ)
  | .callback cb => some { st with ruru := st.ruru.callback env cb }
  | .loop fuel evt batch =>
    (st.ruru.loop env fuel evt batch).map fun r =>
      { ruru := r.2.2, returned := if st.ruru.que_ = [] then none else some r.2.1 }
  | .sendUsrSctpData client msg => some { st with ruru := st.ruru.sendUsrSctpData env client msg }
  | .sendSctpCacheData client => some { st with ruru := st.ruru.sendSctpCacheData env client }
  | .clientSendHeartBeatData client =>
    some { st with ruru := st.ruru.clientSendHeartBeatData env client }

/-- A step as a relation. -/
def Step (st : PolledLoop σ υ) (input : LoopInput) (st' : PolledLoop σ υ) : Prop :=
  st.step env input = some st'

/-- What a step can be. -/
theorem step_cases {st st' : PolledLoop σ υ} {input : LoopInput} (hs : Step env st input st') :
    (RuruLoop.Moves false st.ruru st'.ruru ∧ st'.returned = st.returned) ∨
      (∃ front rest, st.ruru.que_ = front :: rest ∧ st'.ruru = { st.ruru with que_ := rest } ∧
        st'.returned = some front) ∨
      (st.ruru.que_ = [] ∧ RuruLoop.Moves false st.ruru.resetArena st'.ruru ∧
        st'.returned = none) := by
  cases input with
  | callback cb =>
    obtain rfl := Option.some.inj hs
    exact Or.inl ⟨RuruLoop.moves_callback env st.ruru cb, rfl⟩
  | sendUsrSctpData client msg =>
    obtain rfl := Option.some.inj hs
    exact Or.inl ⟨(RuruLoop.exchanges_sendUsrSctpData env st.ruru client msg).moves env, rfl⟩
  | sendSctpCacheData client =>
    obtain rfl := Option.some.inj hs
    exact Or.inl ⟨(RuruLoop.exchanges_sendSctpCacheData env st.ruru client).moves env, rfl⟩
  | clientSendHeartBeatData client =>
    obtain rfl := Option.some.inj hs
    exact Or.inl ⟨(RuruLoop.exchanges_clientSendHeartBeatData env st.ruru client).moves env, rfl⟩
  | loop fuel evt batch =>
    obtain ⟨⟨haveData, evt', ruru⟩, hl, rfl⟩ := Option.map_eq_some_iff.mp hs
    rcases RuruLoop.loop_cases env hl with ⟨rest, hq, -, rfl⟩ | ⟨hq, -, hm⟩
    · exact Or.inr (Or.inl ⟨evt', rest, hq, rfl, by simp [hq]⟩)
    · exact Or.inr (Or.inr ⟨hq, hm, by simp [hq]⟩)

/-- A property of the loop that moves, dequeues and resets keep holds in every state of a run. -/
theorem always_of_moves {P : RuruLoop σ υ → Prop}
    (hmoves : ∀ {s s'}, P s → RuruLoop.Moves false s s' → P s')
    (hque : ∀ {s} rest, P s → P { s with que_ := rest }) (hreset : ∀ {s}, P s → P s.resetArena)
    {st : PolledLoop σ υ} (h0 : P st.ruru) (inputs : List LoopInput) :
    Lts.Always (Step env) (fun st => P st.ruru) st inputs := by
  refine Lts.always_iff_prefix.mpr fun pre post _ st' hpath => ?_
  refine Lts.Path.invariant (P := fun st => P st.ruru) (fun s a t hP hs => ?_) hpath h0
  rcases step_cases env hs with ⟨hm, -⟩ | ⟨front, rest, -, hs', -⟩ | ⟨-, hm, -⟩
  · exact hmoves hP hm
  · rw [hs']
    exact hque rest hP
  · exact hmoves (hreset hP) hm

end PolledLoop

end Ruru
