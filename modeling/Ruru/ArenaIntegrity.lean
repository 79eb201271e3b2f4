import Ruru.Runs

/-!
# Ruru.ArenaIntegrity — queued messages keep their bytes

The arena is reset only when the queue is found empty, so every queued event with data was pushed
after the last reset and its block lies below `pos`.  `LiveBlocks` states this for the events in
hand and in the queue together with the messages they were made from; it is kept by every move, by
a dequeue and by the reset.
-/

namespace Ruru

open Memory Relation

variable {σ υ : Type} (env : Env σ υ)

/-- An event with the inbound message it was made from. -/
abbrev Sourced := RuruEvent × Option (Inbound × SctpRcvinfo)

namespace RuruLoop

/-- The block of a data event still holds the message the event was made from. -/
structure HoldsMessage (s : RuruLoop σ υ) (x : Sourced) (p : ℕ) (data : Inbound)
    (rcv : SctpRcvinfo) : Prop where
  origin : x.2 = some (data, rcv)
  block : x.1.data = some p
  allocated : (p + data.1.length : ℤ) ≤ s.arena_.pos
  bytes : load s.arena_.memory p data.1.length = data.1
  length_le : x.1.length ≤ data.1.length
  param : x.1.param = dataParam rcv
  client : ∃ i, x.1.client = some i ∧ i < s.clientMgr_.length

/-- That, if the event is a data event. -/
def Intact (s : RuruLoop σ υ) (x : Sourced) : Prop :=
  x.1.type = .evtRecvClientData → ∃ p data rcv, s.HoldsMessage x p data rcv

/-- The block of the first event ends before the block of the second begins. -/
def Before (x y : Sourced) : Prop :=
  ∀ p q dx dy, x.1.type = .evtRecvClientData → y.1.type = .evtRecvClientData →
    x.1.data = some p → y.1.data = some q → x.2 = some dx → y.2 = some dy →
    p + dx.1.1.length ≤ q

/-- The events in hand and in the queue are the last ones pushed; the blocks of their messages are
intact and lie in the order of the events. -/
def LiveBlocks (held : List RuruEvent) (s : RuruLoop σ υ) : Prop :=
  ∃ live : List Sourced, live <:+ pushed s.trace ∧ live.map Prod.fst = held ++ s.que_ ∧
    (∀ x ∈ live, s.Intact x) ∧ live.Pairwise Before

/-- Blocks stay intact while the arena only grows beyond them. -/
theorem Intact.mono {s s' : RuruLoop σ υ} {x : Sourced} (h : s.Intact x)
    (hpos : s.arena_.pos ≤ s'.arena_.pos)
    (hbytes : ∀ p n : ℕ, (p + n : ℤ) ≤ s.arena_.pos →
      load s'.arena_.memory p n = load s.arena_.memory p n)
    (hclients : s.clientMgr_.length ≤ s'.clientMgr_.length) : s'.Intact x := by
  intro htype
  obtain ⟨p, data, rcv, hx⟩ := h htype
  obtain ⟨i, hi, hlt⟩ := hx.client
  refine ⟨p, data, rcv, hx.origin, hx.block, hx.allocated.trans hpos, ?_, hx.length_le, hx.param,
    i, hi, Nat.lt_of_lt_of_le hlt hclients⟩
  rw [hbytes p _ hx.allocated, hx.bytes]

theorem LiveBlocks.quiet {held : List RuruEvent} {s s' : RuruLoop σ υ} (h : LiveBlocks held s)
    (que : s'.que_ = s.que_) (arena : s'.arena_ = s.arena_)
    (history : pushed s'.trace = pushed s.trace)
    (clients : s.clientMgr_.length ≤ s'.clientMgr_.length) : LiveBlocks held s' := by
  obtain ⟨live, hsuf, hque, hint, hord⟩ := h
  refine ⟨live, history ▸ hsuf, by rw [que, hque], fun x hx => ?_, hord⟩
  exact (hint x hx).mono (by rw [arena]) (fun p n _ => by rw [arena]) clients

/-- Pushing an event behind the live ones. -/
theorem LiveBlocks.push {held : List RuruEvent} {s s' : RuruLoop σ υ} (h : LiveBlocks held s)
    (x : Sourced) (que : s'.que_ = s.que_ ++ [x.1]) (history : pushed s'.trace = pushed s.trace ++ [x])
    (hkeep : ∀ y, s.Intact y → s'.Intact y) (hnew : s'.Intact x)
    (hbefore : ∀ y, s.Intact y → Before y x) : LiveBlocks held s' := by
  obtain ⟨live, hsuf, hque, hint, hord⟩ := h
  refine ⟨live ++ [x], ?_, ?_, ?_, ?_⟩
  · rw [history]
    exact (List.suffix_append_inj_of_length_eq rfl).mpr ⟨hsuf, rfl⟩
  · rw [List.map_append, hque, que, List.append_assoc]
    rfl
  · intro y hy
    rcases List.mem_append.mp hy with hy | hy
    · exact hkeep y (hint y hy)
    · rw [List.mem_singleton.mp hy]
      exact hnew
  · refine List.pairwise_append.mpr ⟨hord, List.pairwise_singleton _ _, fun y hy z hz => ?_⟩
    rw [List.mem_singleton.mp hz]
    exact hbefore y (hint y hy)

/-- Pushing an event without data. -/
theorem LiveBlocks.wake {held : List RuruEvent} {s s' : RuruLoop σ υ} (h : LiveBlocks held s)
    (evt : RuruEvent) (htype : evt.type ≠ .evtRecvClientData) (que : s'.que_ = s.que_ ++ [evt])
    (history : pushed s'.trace = pushed s.trace ++ [(evt, none)]) (arena : s'.arena_ = s.arena_)
    (clients : s.clientMgr_.length ≤ s'.clientMgr_.length) : LiveBlocks held s' := by
  refine h.push (evt, none) que history (fun y hy => ?_) ?_ ?_
  · exact hy.mono (by rw [arena]) (fun _ _ _ => by rw [arena]) clients
  · exact fun hdata => absurd hdata htype
  · exact fun y _ p q dx dy _ hdata => absurd hdata htype

/-- A message is copied to a fresh block right above all live ones. -/
theorem LiveBlocks.recv {held : List RuruEvent} {s : RuruLoop σ υ} (h : LiveBlocks held s) (i : ℕ)
    (data : Inbound) (rcv : SctpRcvinfo) : LiveBlocks held (s.pushClientRecvData i data rcv) := by
  rcases pushClientRecvData_cases s i data rcv with he | ⟨p, arena, hi, ha, he⟩
  · rw [he]
    exact h
  rw [he]
  have hlen : toInt32 data.1.length = data.1.length := toInt32_natCast data.2
  rw [hlen] at ha
  have hpos : 1 ≤ data.1.length := by
    by_contra h0
    have h0' : (data.1.length : ℤ) ≤ 0 := by omega
    rw [RuruArena.arenaAlloc, dif_pos h0'] at ha
    exact absurd (Prod.mk.inj ha).1 (by simp)
  obtain ⟨hfail, -⟩ | ⟨a', ha', hmem, hpos', hcap, hroom⟩ := s.arena_.arenaAlloc_cases hpos
  · rw [hfail] at ha
    exact absurd (Prod.mk.inj ha).1 (by simp)
  rw [ha'] at ha
  obtain ⟨hp, rfl⟩ := Prod.mk.inj ha
  have hp' : (p : ℤ) = s.arena_.pos := by
    have := s.arena_.pos_nonneg
    have := Option.some.inj hp
    omega
  have hkeep : ∀ y, s.Intact y → ({ s with arena_ := a'.memcpy p data.1 }.push
      (recvEvent i p data rcv) (some (data, rcv))).Intact y := by
    refine fun y hy => hy.mono ?_ (fun q n hq => ?_) le_rfl
    · rw [RuruLoop.push, RuruArena.memcpy, hpos']
      omega
    · rw [RuruLoop.push, RuruArena.memcpy, hmem]
      exact load_store_disjoint (Or.inl (by omega))
  refine h.push (recvEvent i p data rcv, some (data, rcv)) rfl (by simp [RuruLoop.push, pushed])
    hkeep ?_ ?_
  · intro _
    refine ⟨p, data, rcv, rfl, rfl, ?_, ?_, ?_, rfl, i, rfl, hi⟩
    · rw [RuruLoop.push, RuruArena.memcpy, hpos']
      omega
    · exact load_store _ p data.1
    · exact toUint16_le _
  · intro y hy q q' dx dy htx hty hq hq' hdx hdy
    obtain ⟨p', d, r, hh⟩ := hy htx
    obtain rfl := Option.some.inj (hq.symm.trans hh.block)
    obtain rfl := Option.some.inj (hdx.symm.trans hh.origin)
    obtain rfl := Option.some.inj hq'
    have := hh.allocated
    simp only
    omega

theorem Moves.liveBlocks {fixed : Bool} {held : List RuruEvent} {s s' : RuruLoop σ υ}
    (hm : Moves fixed s s') (h : LiveBlocks held s) : LiveBlocks held s' := by
  refine hm.invariant (fun s s' hs hmove => ?_) h
  cases hmove with
  | quiet que arena history beats rings sockets cons =>
    exact hs.quiet que arena history rings.length_le
  | scan known =>
    exact hs.wake _ (by simp) rfl (by simp [RuruLoop.push, pushed]) rfl le_rfl
  | store known data =>
    exact hs.wake _ (by simp) rfl
      (by simp [pushed]) rfl
      (by simp [storeBeat, RuruLoop.push, note, updateClient])
  | take known read =>
    exact hs.quiet rfl rfl (by simp [pushed])
      (by simp [takeBeat, note, updateClient])
  | recv i data rcv => exact hs.recv i data rcv

/-- Dequeuing: the event is in hand now, what was in hand is forgotten. -/
theorem LiveBlocks.dequeue {held : List RuruEvent} {s : RuruLoop σ υ} (h : LiveBlocks held s)
    {front : RuruEvent} {rest : List RuruEvent} (hq : s.que_ = front :: rest) :
    LiveBlocks [front] { s with que_ := rest } := by
  obtain ⟨live, hsuf, hque, hint, hord⟩ := h
  refine ⟨live.drop held.length, (List.drop_suffix _ _).trans hsuf, ?_,
    fun x hx => (hint x (List.mem_of_mem_drop hx)).mono le_rfl (fun _ _ _ => rfl) le_rfl, hord.sublist (List.drop_sublist _ _)⟩
  rw [List.map_drop, hque, hq, List.drop_left]
  rfl

/-- With nothing queued the arena may be reset. -/
theorem LiveBlocks.reset {s : RuruLoop σ υ} (hq : s.que_ = []) : LiveBlocks [] s.resetArena :=
  ⟨[], List.nil_suffix, by simp [resetArena, hq], by simp, List.Pairwise.nil⟩

end RuruLoop

/-! ### Runs -/

namespace PolledLoop

/-- The data event `x`: its block is allocated and within the arena, it begins with the first
`length` bytes of the inbound message of the event, whose stream parameters the event carries, and
its client is in `clientMgr_`. -/
def BlockHolds (s : RuruLoop σ υ) (x : Sourced) (p : ℕ) (data : Inbound) (rcv : SctpRcvinfo) :
    Prop :=
  x.1.data = some p ∧ x.2 = some (data, rcv) ∧
    (p + data.1.length : ℤ) ≤ s.arena_.pos ∧ s.arena_.pos ≤ s.arena_.capacity ∧
    load s.arena_.memory p x.1.length = data.1.take x.1.length ∧
    x.1.param.sid.toInt = rcv.rcvSid.toNat ∧ x.1.param.ssn.toInt = rcv.rcvSsn.toNat ∧
    x.1.param.tsn.toUInt32 = rcv.rcvTsn ∧
    ∃ i, x.1.client = some i ∧ i < s.clientMgr_.length

/-- The blocks of two data events have no cell in common. -/
def BlocksDisjoint (x y : Sourced) : Prop :=
  ∀ p q dx dy, x.1.type = .evtRecvClientData → y.1.type = .evtRecvClientData →
    x.1.data = some p → y.1.data = some q → x.2 = some dx → y.2 = some dy →
    p + dx.1.1.length ≤ q ∨ q + dy.1.1.length ≤ p

/-- The event returned last and the queued ones are the last events pushed; the data events among
them keep their messages in blocks of their own, `pos` stays in range, and a failed allocation
changes nothing. -/
def QueuedDataIntact (st : PolledLoop σ υ) : Prop :=
  (∃ live : List Sourced, live <:+ pushed st.ruru.trace ∧
    live.map Prod.fst = st.returned.toList ++ st.ruru.que_ ∧
    (∀ x ∈ live, x.1.type = .evtRecvClientData → ∃ p data rcv, BlockHolds st.ruru x p data rcv) ∧
    live.Pairwise BlocksDisjoint) ∧
  (0 ≤ st.ruru.arena_.pos ∧ st.ruru.arena_.pos ≤ st.ruru.arena_.capacity) ∧
  ∀ i (data : Inbound) rcv, (st.ruru.arena_.arenaAlloc (toInt32 data.1.length)).1 = none →
    st.ruru.pushClientRecvData i data rcv = st.ruru

theorem dataParam_faithful (rcv : SctpRcvinfo) :
    (RuruLoop.dataParam rcv).sid.toInt = rcv.rcvSid.toNat ∧
      (RuruLoop.dataParam rcv).ssn.toInt = rcv.rcvSsn.toNat ∧
      (RuruLoop.dataParam rcv).tsn.toUInt32 = rcv.rcvTsn := by
  have key : ∀ x : UInt16, x.toUInt32.toInt32.toInt = x.toNat := by
    intro x
    have hx := x.toNat_lt
    rw [← Int32.toInt_toBitVec, UInt32.toBitVec_toInt32, BitVec.toInt_eq_toNat_of_lt]
    · simp
    · simp
      omega
  exact ⟨key _, key _, by simp [RuruLoop.dataParam]⟩

theorem queuedDataIntact_of_liveBlocks {st : PolledLoop σ υ}
    (h : st.ruru.LiveBlocks st.returned.toList) : QueuedDataIntact st := by
  refine ⟨?_, ⟨st.ruru.arena_.pos_nonneg, st.ruru.arena_.pos_le⟩, fun i data rcv hfail => ?_⟩
  · obtain ⟨live, hsuf, hque, hint, hord⟩ := h
    refine ⟨live, hsuf, hque, fun x hx htype => ?_, hord.imp ?_⟩
    · obtain ⟨p, data, rcv, hh⟩ := hint x hx htype
      obtain ⟨hsid, hssn, htsn⟩ := dataParam_faithful rcv
      refine ⟨p, data, rcv, hh.block, hh.origin, hh.allocated, st.ruru.arena_.pos_le, ?_,
        hh.param ▸ hsid, hh.param ▸ hssn, hh.param ▸ htsn, hh.client⟩
      calc load st.ruru.arena_.memory p x.1.length
        _ = (load st.ruru.arena_.memory p data.1.length).take x.1.length := by
          rw [take_load, Nat.min_eq_left hh.length_le]
        _ = data.1.take x.1.length := by rw [hh.bytes]
    · exact fun hb p q dx dy h1 h2 h3 h4 h5 h6 => Or.inl (hb p q dx dy h1 h2 h3 h4 h5 h6)
  · rcases RuruLoop.pushClientRecvData_cases st.ruru i data rcv with he | ⟨p, arena, -, ha, -⟩
    · exact he
    · rw [ha] at hfail
      exact absurd hfail (by simp)

theorem step_liveBlocks {st st' : PolledLoop σ υ} {input : LoopInput}
    (h : st.ruru.LiveBlocks st.returned.toList) (hs : Step env st input st') :
    st'.ruru.LiveBlocks st'.returned.toList := by
  rcases step_cases env hs with ⟨hm, hr⟩ | ⟨front, rest, hq, hs', hr⟩ | ⟨hq, hm, hr⟩
  · rw [hr]
    exact hm.liveBlocks h
  · rw [hr, hs']
    exact h.dequeue hq
  · rw [hr]
    exact hm.liveBlocks (RuruLoop.LiveBlocks.reset hq)

/-- **Arena integrity.**  Along every run from a constructed loop the queued messages, and the one
returned last, are intact. -/
theorem queued_data_intact (this : LoopId) (udpfd tcpfd : ℤ) (memory : ℕ → UInt8) (usr : υ)
    (nextSock : Sock) (count : ℤ) (inputs : List LoopInput) :
    Lts.Always (Step env) QueuedDataIntact
      { ruru := .constructed this udpfd tcpfd memory usr nextSock count } inputs := by
  refine Lts.always_iff_prefix.mpr fun pre post _ st hpath => ?_
  have hlive : st.ruru.LiveBlocks st.returned.toList := by
    refine Lts.Path.invariant (P := fun st => st.ruru.LiveBlocks st.returned.toList)
      (fun s a t hs ht => step_liveBlocks env hs ht) hpath ?_
    exact ⟨[], List.nil_suffix, rfl, by simp, List.Pairwise.nil⟩
  exact queuedDataIntact_of_liveBlocks hlive

end PolledLoop

end Ruru
