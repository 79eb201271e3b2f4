import Ruru.Exchanges

/-!
# Ruru.Moves — what the functions of a loop can do to its queue and arena

Everything the loop does between two dequeues is a sequence of `Move`s: an inbound message is
queued or dropped, an event without data is queued, or neither the queue nor the arena changes.  An
invariant of the queue and the arena is checked once for each move; every exchange is made of moves,
and so is everything the functions do.
-/

namespace Ruru

open Relation

/-- The events pushed so far, with the inbound messages they were made from. -/
def pushed (trace : List Effect) : List (RuruEvent × Option (Inbound × SctpRcvinfo)) :=
  trace.filterMap fun
    | .push evt origin => some (evt, origin)
    | _ => none

/-- A heartbeat is copied or sent. -/
def Effect.isBeat : Effect → Bool
  | .beatCopy .. => true
  | .beatSend .. => true
  | _ => false

/-- Neither a push nor about a heartbeat. -/
def Effect.isPlain : Effect → Bool
  | .push .. => false
  | e => !e.isBeat

@[simp] theorem pushed_append (a b : List Effect) : pushed (a ++ b) = pushed a ++ pushed b :=
  List.filterMap_append

theorem pushed_eq_nil {es : List Effect} (h : ∀ e ∈ es, e.isPlain = true) : pushed es = [] := by
  refine List.filterMap_eq_nil_iff.mpr fun e he => ?_
  cases e with
  | push evt origin => exact absurd (h _ he) (by simp [Effect.isPlain])
  | _ => rfl

theorem beats_eq_nil {es : List Effect} (h : ∀ e ∈ es, e.isPlain = true) :
    es.filter Effect.isBeat = [] := by
  refine List.filter_eq_nil_iff.mpr fun e he => ?_
  have hp := h e he
  intro hbeat
  cases e with
  | beatCopy | beatSend => exact absurd hp Bool.false_ne_true
  | _ => exact absurd hbeat Bool.false_ne_true

/-- The calls to usrsctp are plain. -/
theorem isPlain_usrsctp (i : ℕ) (calls : List UsrsctpCall) :
    ∀ e ∈ calls.map (Effect.usrsctp i), e.isPlain = true := by
  intro e he
  obtain ⟨call, -, rfl⟩ := List.mem_map.mp he
  rfl

variable {σ υ : Type} (env : Env σ υ)

namespace RuruLoop

/-- The rings of the clients. -/
def rings (s : RuruLoop σ υ) : List (RuruRingBuf HeartBeatData) := s.clientMgr_.map (·.heartBeatRing)

/-- The clients keep their rings, and the rings of new clients are empty and of the one size. -/
def KeepsRings (s s' : RuruLoop σ υ) : Prop :=
  ∃ fresh, s'.rings = s.rings ++ fresh ∧ ∀ r ∈ fresh, r.elements = [] ∧ r.cap = 100

/-- An elementary change of the queue, the arena and the rings; with `fixed` the connection records
stay. -/
inductive Move (fixed : Bool) : RuruLoop σ υ → RuruLoop σ υ → Prop
  | quiet {s s' : RuruLoop σ υ} (que : s'.que_ = s.que_) (arena : s'.arena_ = s.arena_)
      (history : pushed s'.trace = pushed s.trace)
      (beats : s'.trace.filter Effect.isBeat = s.trace.filter Effect.isBeat)
      (rings : KeepsRings s s') (sockets : s'.udpfd_ = s.udpfd_ ∧ s'.tcpfd_ = s.tcpfd_)
      (cons : fixed = true → s'.cons = s.cons) : Move fixed s s'
  | scan {s : RuruLoop σ υ} {i : ℕ} (known : i < s.clientMgr_.length) :
      Move fixed s (s.push { type := .evtSendCacheData, client := some i } none)
  | store {s : RuruLoop σ υ} {i : ℕ} {client : RuruClient σ} (known : s.clientMgr_[i]? = some client)
      (data : List UInt8) : Move fixed s (s.storeBeat i client.heartBeatRing data)
  | take {s : RuruLoop σ υ} {i : ℕ} {client : RuruClient σ} (known : s.clientMgr_[i]? = some client)
      {beat : HeartBeatData} {ring : RuruRingBuf HeartBeatData}
      (read : client.heartBeatRing.ringBufRead = (some beat, ring)) :
      Move fixed s (s.takeBeat i beat ring)
  | recv (s : RuruLoop σ υ) (i : ℕ) (data : Inbound) (rcv : SctpRcvinfo) :
      Move fixed s (s.pushClientRecvData i data rcv)

/-- A sequence of moves. -/
abbrev Moves (fixed : Bool) : RuruLoop σ υ → RuruLoop σ υ → Prop := ReflTransGen (Move fixed)

variable {fixed : Bool}

theorem KeepsRings.of_eq {s s' : RuruLoop σ υ} (h : s'.rings = s.rings) : KeepsRings s s' :=
  ⟨[], by rw [h, List.append_nil], by simp⟩

theorem KeepsRings.length_le {s s' : RuruLoop σ υ} (h : KeepsRings s s') :
    s.clientMgr_.length ≤ s'.clientMgr_.length := by
  obtain ⟨fresh, hr, -⟩ := h
  have := congrArg List.length hr
  simp only [rings, List.length_map, List.length_append] at this
  omega

theorem rings_updateClient (s : RuruLoop σ υ) (i : ℕ) {f : RuruClient σ → RuruClient σ}
    (hf : ∀ c, (f c).heartBeatRing = c.heartBeatRing) : (s.updateClient i f).rings = s.rings :=
  map_updateClient _ s i fun c _ => hf c

/-- A change that leaves the queue, the arena, the rings and the sockets alone and adds plain
effects only. -/
theorem Moves.of_trace {s s' : RuruLoop σ υ} {es : List Effect} (que : s'.que_ = s.que_)
    (arena : s'.arena_ = s.arena_) (trace : s'.trace = s.trace ++ es)
    (h : ∀ e ∈ es, e.isPlain = true) (rings : s'.rings = s.rings)
    (sockets : s'.udpfd_ = s.udpfd_ ∧ s'.tcpfd_ = s.tcpfd_)
    (cons : fixed = true → s'.cons = s.cons) : Moves fixed s s' := by
  refine .single (.quiet que arena ?_ ?_ (.of_eq rings) sockets cons)
  · rw [trace, pushed_append, pushed_eq_nil h, List.append_nil]
  · rw [trace, List.filter_append, beats_eq_nil h, List.append_nil]

/-- The invariant rule for moves. -/
theorem Moves.invariant {P : RuruLoop σ υ → Prop} (hP : ∀ s s', P s → Move fixed s s' → P s')
    {s s' : RuruLoop σ υ} (h : Moves fixed s s') (h0 : P s) : P s' := by
  induction h with
  | refl => exact h0
  | tail _ hm ih => exact hP _ _ ih hm

theorem Moves.sockets {s s' : RuruLoop σ υ} (h : Moves fixed s s') :
    s'.udpfd_ = s.udpfd_ ∧ s'.tcpfd_ = s.tcpfd_ := by
  induction h with
  | refl => exact ⟨rfl, rfl⟩
  | tail _ hm ih =>
    cases hm with
    | quiet que arena history beats rings sockets cons =>
      exact ⟨sockets.1.trans ih.1, sockets.2.trans ih.2⟩
    | scan known => exact ih
    | store known data => exact ih
    | take known read => exact ih
    | recv i data rcv =>
      rcases pushClientRecvData_cases _ i data rcv with hp | ⟨p, arena, -, -, hp⟩
      · rw [hp]; exact ih
      · rw [hp]; exact ih

theorem Moves.cons {s s' : RuruLoop σ υ} (h : Moves true s s') : s'.cons = s.cons := by
  induction h with
  | refl => rfl
  | tail _ hm ih =>
    cases hm with
    | quiet que arena history beats rings sockets cons => exact (cons rfl).trans ih
    | scan known => exact ih
    | store known data => exact ih
    | take known read => exact ih
    | recv i data rcv =>
      rcases pushClientRecvData_cases _ i data rcv with hp | ⟨p, arena, -, -, hp⟩
      · rw [hp]; exact ih
      · rw [hp]; exact ih

/-- Clients are never removed. -/
theorem Moves.clients_le {s s' : RuruLoop σ υ} (h : Moves fixed s s') :
    s.clientMgr_.length ≤ s'.clientMgr_.length := by
  induction h with
  | refl => exact Nat.le_refl _
  | tail _ hm ih =>
    refine ih.trans ?_
    cases hm with
    | quiet que arena history beats rings sockets cons => exact rings.length_le
    | scan known => exact Nat.le_refl _
    | store known data => exact (length_updateClient _ _ _).ge
    | take known read => exact (length_updateClient _ _ _).ge
    | recv i data rcv =>
      rcases pushClientRecvData_cases _ i data rcv with hp | ⟨p, arena, -, -, hp⟩
      · rw [hp]
      · rw [hp]
        exact Nat.le_refl _

/-! ### The callbacks -/

theorem Apart.rings {s t : RuruLoop σ υ} (h : Apart fixed s t) : t.rings = s.rings := by
  have hseats := congrArg (List.map Prod.fst) h.seats
  simp only [RuruLoop.seats, List.map_map] at hseats
  exact hseats

theorem isPlain_of_isAside {e : Effect} (h : e.isAside = true) : e.isPlain = true := by
  cases e with
  | push | beatCopy | beatSend => exact absurd h (by simp [Effect.isAside])
  | _ => rfl

theorem Aside.moves {s t : RuruLoop σ υ} (h : Aside fixed s t) : Moves fixed s t := by
  obtain ⟨apart, es, trace, plain⟩ := h
  exact Moves.of_trace apart.que apart.arena trace (fun e he => isPlain_of_isAside (plain e he))
    apart.rings apart.sockets apart.cons

/-- What is aside is about no heartbeat. -/
theorem Aside.beats {s t : RuruLoop σ υ} (h : Aside fixed s t) :
    t.trace.filter Effect.isBeat = s.trace.filter Effect.isBeat := by
  obtain ⟨-, es, trace, plain⟩ := h
  rw [trace, List.filter_append, beats_eq_nil fun e he => isPlain_of_isAside (plain e he),
    List.append_nil]

/-- What is aside is about no event. -/
theorem Aside.pushed {s t : RuruLoop σ υ} (h : Aside fixed s t) : pushed t.trace = pushed s.trace := by
  obtain ⟨-, es, trace, plain⟩ := h
  rw [trace, pushed_append, pushed_eq_nil fun e he => isPlain_of_isAside (plain e he),
    List.append_nil]

theorem moves_onSctpOutboundPacket (s : RuruLoop σ υ) (i : ℕ) (data : List UInt8) :
    Moves fixed s (s.onSctpOutboundPacket env i data) := by
  unfold onSctpOutboundPacket
  by_cases hlen : data.length < sizeofSctpHeader
  · rw [if_pos hlen]
  · rw [if_neg hlen]
    split
    · exact .refl
    · rename_i client hi
      split_ifs
      · exact .single (.store hi data)
      · exact (aside_clientSendData env s i data).moves

theorem moves_callback (s : RuruLoop σ υ) (cb : SctpCallback) : Moves fixed s (s.callback env cb) := by
  cases cb with
  | outbound addr data => exact moves_onSctpOutboundPacket env s addr data
  | inbound ulpInfo data rcv => exact .single (.recv s ulpInfo data rcv)

theorem moves_callbacks (s : RuruLoop σ υ) (cbs : List SctpCallback) :
    Moves fixed s (s.callbacks env cbs) := by
  induction cbs generalizing s with
  | nil => exact .refl
  | cons cb cbs ih => exact (moves_callback env s cb).trans (ih _)

/-! ### Exchanges -/

/-- An exchange is made of moves. -/
theorem Exchange.moves {s s' : RuruLoop σ υ} (h : Exchange env fixed s s') : Moves fixed s s' := by
  cases h with
  | aside aside => exact aside.moves
  | called apart trace =>
    exact (Moves.of_trace apart.que apart.arena trace (isPlain_usrsctp _ _) apart.rings apart.sockets
      apart.cons).trans (moves_callbacks env _ _)
  | scan known => exact .single (.scan known)
  | take known read => exact .single (.take known read)
  | @enroll client empty size =>
    refine .single (.quiet rfl rfl ?_ ?_ ⟨[client.heartBeatRing], ?_, ?_⟩ ⟨rfl, rfl⟩ fun _ => rfl)
    · simp [pushed]
    · simp [Effect.isBeat]
    · simp [RuruLoop.rings]
    · simpa using ⟨empty, size⟩

theorem Exchanges.moves {s s' : RuruLoop σ υ} (h : Exchanges env fixed s s') : Moves fixed s s' := by
  induction h with
  | refl => exact .refl
  | tail _ he ih => exact ih.trans (he.moves env)

/-- A registration, before it is noted. -/
theorem moves_registerClient (s : RuruLoop σ υ) (address : RuruAddress) :
    Moves fixed s (s.registerClient env address) := by
  refine ReflTransGen.trans ((exchanges_usrsctpDone env s s.clientMgr_.length
    (.construct env.usrsctp (env.junk s.clientMgr_.length) s.usr s.nextSock)).moves env) ?_
  have hring : KeepsRings (s.usrsctpDone env s.clientMgr_.length
      (.construct env.usrsctp (env.junk s.clientMgr_.length) s.usr s.nextSock))
      (s.registerClient env address) := by
    refine ⟨[.ruruRingBuf (env.ringMemory s.clientMgr_.length) 100 (by decide) (by decide)], ?_, ?_⟩
    · simp only [registerClient, rings, List.map_append]
      rfl
    · intro r hr
      rw [List.mem_singleton.mp hr]
      exact ⟨RuruRingBuf.elements_ruruRingBuf .., rfl⟩
  exact .single (.quiet rfl rfl rfl rfl hring ⟨rfl, rfl⟩ fun _ => rfl)

theorem moves_handleEvent (s : RuruLoop σ υ) (evt : RuruEvent) :
    Moves fixed s (s.handleEvent env evt) := (exchanges_handleEvent env s evt).moves env

/-- `Loop` with a queued event dequeues it; otherwise it resets the arena and moves on from there. -/
theorem loop_cases {fuel : ℕ} {s : RuruLoop σ υ} {evt : RuruEvent} {batch : EpollBatch}
    {haveData : Bool} {evt' : RuruEvent} {s' : RuruLoop σ υ}
    (h : s.loop env fuel evt batch = some (haveData, evt', s')) :
    (∃ rest, s.que_ = evt' :: rest ∧ haveData = true ∧ s' = { s with que_ := rest }) ∨
      (s.que_ = [] ∧ evt' = evt ∧ Moves false s.resetArena s') :=
  (loop_exchanges env h).imp_right fun ⟨hq, he, hm⟩ => ⟨hq, he, hm.moves env⟩

end RuruLoop

end Ruru
