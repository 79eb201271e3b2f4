import Ruru.ArenaIntegrity
import Ruru.Deeds
import Ruru.Dispatch
import Ruru.Lib.Relay

/-!
# Ruru.EchoRelay — the example server relays the messages of its clients

Seen from outside the example server is a `Relay`: what usrsctp delivers for a client and finds room
in the arena waits in the queue of the loop, and is forwarded to `usrsctp_sendv` or the cache of the
same client.  The refinement joins three facts about the code: the blocks of queued events are intact,
only the echo of an event submits a message, and a `RuruSctp` keeps the order of what is submitted.
-/

namespace Ruru

open Memory Relation

variable {σ υ : Type} (env : Env σ υ)

/-! ### What is relayed -/

/-- The calls to usrsctp made for the client `i`. -/
def callsOf (i : ℕ) (trace : List Effect) : List UsrsctpCall :=
  trace.filterMap fun
    | .usrsctp client call => if client = i then some call else none
    | _ => none

/-- What a message comes back as: the bytes that the length of its event counts, on its stream. -/
def echoOf (data : Inbound) (rcv : SctpRcvinfo) : RuruSctpMessage where
  data := data.1.take (toUint16 data.1.length)
  param := { sid := rcv.rcvSid, ppid := 0 }

/-- The client of an event made from a message, and what the message comes back as. -/
def receivedEcho (x : Sourced) : Option (ℕ × RuruSctpMessage) :=
  match x.1.client, x.2 with
  | some client, some (data, rcv) => some (client, echoOf data rcv)
  | _, _ => none

/-- The event was made from the message it comes with, or it is none with data. -/
def WellSourced (x : Sourced) : Prop :=
  (∃ i p data rcv, x = (RuruLoop.recvEvent i p data rcv, some (data, rcv))) ∨
    (x.1.type ≠ .evtRecvClientData ∧ x.2 = none)

@[simp] theorem callsOf_append (i : ℕ) (a b : List Effect) :
    callsOf i (a ++ b) = callsOf i a ++ callsOf i b := List.filterMap_append

theorem callsOf_usrsctp (i j : ℕ) (calls : List UsrsctpCall) :
    callsOf j (calls.map (Effect.usrsctp i)) = if i = j then calls else [] := by
  unfold callsOf
  rw [List.filterMap_map]
  by_cases hij : i = j
  · rw [if_pos hij]
    exact (List.filterMap_congr fun c _ => if_pos hij).trans List.filterMap_some
  · rw [if_neg hij]
    exact List.filterMap_eq_nil_iff.mpr fun c _ => if_neg hij

theorem callsOf_quiet (i : ℕ) {es : List Effect} (h : ∀ e ∈ es, e.isQuiet = true) :
    callsOf i es = [] := by
  refine List.filterMap_eq_nil_iff.mpr fun e he => ?_
  have hquiet := h e he
  cases e with
  | usrsctp client call => exact absurd hquiet (by simp [Effect.isQuiet])
  | _ => rfl

/-! ### Direct sends that fail for good -/

section DirectSends

variable (u : Usrsctp υ)

open Transport

/-- The constructor sends nothing. -/
theorem countP_directFatal_construct (junk : Bool) (usr : υ) (nextSock : Sock) :
    (construct u junk usr nextSock).calls.countP (·.directFatal) = 0 := by
  apply List.countP_eq_zero.mpr
  intro c hc
  have hdirect := (construct_idle u junk usr nextSock).not_sent.2 c hc
  simp [(UsrsctpCall.lost_of_not_direct hdirect).1]

/-- A call fails for good directly at most as often as it submits a message. -/
theorem countP_directFatal_step {t : Transport υ} (h : t.calls = []) (hcr : t.crashed = false)
    (hw : ∀ d ∈ t.cache, d.Whole) {op : SctpOp} (hop : op.Sendable) :
    (t.step u op).calls.countP (·.directFatal) ≤ (submitted [op]).length := by
  obtain ⟨new, hcarries, hone⟩ := step_spec u t op hop hcr hw
  rw [hcarries.calls, h, List.nil_append]
  refine le_trans (List.countP_mono_left fun c _ hc => ?_) hone
  by_contra hd
  rw [(UsrsctpCall.lost_of_not_direct (by simpa using hd)).1] at hc
  exact absurd hc (by decide)

/-- A direct send of `SendUsrSctpData` fails for good, once, exactly if the message is lost. -/
theorem count_sendUsrSctpData {t : Transport υ} (h : t.calls = []) (hcr : t.crashed = false)
    (hw : ∀ d ∈ t.cache, d.Whole) {msg : RuruSctpMessage} (hmsg : msg.data.length < 2 ^ 31) :
    (t.step u (.sendUsrSctpData (some msg))).calls.countP (·.directFatal) =
      if lostDirectly u t msg then 1 else 0 := by
  have hle : (t.step u (.sendUsrSctpData (some msg))).calls.countP (·.directFatal) ≤ 1 :=
    countP_directFatal_step u h hcr hw ⟨msg, rfl, hmsg⟩
  have hany : lostDirectly u t msg =
      (t.step u (.sendUsrSctpData (some msg))).calls.any (·.directFatal) := by
    rw [lostDirectly, losesTo, h]
    rfl
  by_cases hlost : lostDirectly u t msg = true
  · rw [if_pos hlost]
    rw [hany] at hlost
    obtain ⟨c, hc, hfatal⟩ := List.any_eq_true.mp hlost
    exact le_antisymm hle (List.countP_pos_iff.mpr ⟨c, hc, hfatal⟩)
  · rw [if_neg hlost]
    rw [hany] at hlost
    exact List.countP_eq_zero.mpr fun c hc hfatal => hlost (List.any_eq_true.mpr ⟨c, hc, hfatal⟩)

end DirectSends

namespace RuruLoop

/-- The cache of the client `i`. -/
def cacheOf (s : RuruLoop σ υ) (i : ℕ) : List RuruCacheData :=
  (s.clientMgr_[i]?).elim [] (·.cache)

/-- The client of a queued data event, and the message that `Echo2Client` makes of it. -/
def waitingEcho (s : RuruLoop σ υ) (evt : RuruEvent) : Option (ℕ × RuruSctpMessage) :=
  if evt.type = .evtRecvClientData then evt.client.map fun client => (client, s.echoMessage evt)
  else none

/-- The loop as a relay: the messages that were queued, the echoes that wait, what usrsctp accepted
for a client with what waits in its cache, and the direct sends for it that failed for good. -/
def relay (s : RuruLoop σ υ) : Relay.State ℕ RuruSctpMessage where
  received := (pushed s.trace).filterMap receivedEcho
  queue := s.que_.filterMap s.waitingEcho
  out i := accepted (callsOf i s.trace) ++ cached (s.cacheOf i)
  lost i := (callsOf i s.trace).countP (·.directFatal)

/-- No client has a truncated element in its cache. -/
def WholeCaches (s : RuruLoop σ υ) : Prop := ∀ client ∈ s.clientMgr_, ∀ d ∈ client.cache, d.Whole

/-- What the refinement needs of a loop. -/
structure RelaySound (s : RuruLoop σ υ) : Prop where
  live : s.LiveBlocks []
  sourced : ∀ x ∈ pushed s.trace, WellSourced x
  whole : s.WholeCaches

/-! ### What waits in the queue -/

/-- Moves append to the queue what they push. -/
theorem Moves.pushes {fixed : Bool} {s s' : RuruLoop σ υ} (h : Moves fixed s s') :
    ∃ new : List Sourced, s'.que_ = s.que_ ++ new.map Prod.fst ∧
      pushed s'.trace = pushed s.trace ++ new ∧ ∀ x ∈ new, WellSourced x := by
  induction h with
  | refl => exact ⟨[], by simp, by simp, by simp⟩
  | @tail s1 s2 _ hm ih =>
    obtain ⟨new, hque, hpushed, hnew⟩ := ih
    have hpush : ∀ x : Sourced, WellSourced x → s2.que_ = s1.que_ ++ [x.1] →
        pushed s2.trace = pushed s1.trace ++ [x] → ∃ new : List Sourced,
          s2.que_ = s.que_ ++ new.map Prod.fst ∧ pushed s2.trace = pushed s.trace ++ new ∧
            ∀ x ∈ new, WellSourced x := by
      intro x hx hq hp
      refine ⟨new ++ [x], ?_, ?_, fun y hy => ?_⟩
      · rw [hq, hque, List.map_append, List.append_assoc]
        rfl
      · rw [hp, hpushed, List.append_assoc]
      · rcases List.mem_append.mp hy with hy | hy
        · exact hnew y hy
        · rw [List.mem_singleton.mp hy]
          exact hx
    cases hm with
    | quiet que arena history beats rings sockets cons =>
      exact ⟨new, que.trans hque, history.trans hpushed, hnew⟩
    | @scan i known =>
      exact hpush ({ type := .evtSendCacheData, client := some i }, none) (Or.inr ⟨by simp, rfl⟩) rfl
        (by simp [RuruLoop.push, pushed])
    | @store i client known data =>
      exact hpush ({ type := .evtHeartBeat, client := some i }, none) (Or.inr ⟨by simp, rfl⟩) rfl
        (by simp [pushed])
    | take known read => exact ⟨new, hque, by simpa [pushed] using hpushed, hnew⟩
    | recv i data rcv =>
      rcases pushClientRecvData_cases s1 i data rcv with he | ⟨p, arena, -, -, he⟩
      · rw [he]
        exact ⟨new, hque, hpushed, hnew⟩
      · rw [he] at hpush ⊢
        exact hpush (recvEvent i p data rcv, some (data, rcv)) (Or.inl ⟨i, p, data, rcv, rfl⟩) rfl
          (by simp [RuruLoop.push, pushed])

theorem sid_dataParam (rcv : SctpRcvinfo) : (dataParam rcv).sid.toUInt32.toUInt16 = rcv.rcvSid := by
  simp [dataParam]

/-- A queued event will come back as the message it was made from. -/
theorem waitingEcho_eq {s : RuruLoop σ υ} {x : Sourced} (hx : WellSourced x) (hintact : s.Intact x) :
    s.waitingEcho x.1 = receivedEcho x := by
  rcases hx with ⟨i, p, data, rcv, rfl⟩ | ⟨htype, horigin⟩
  · obtain ⟨q, data', rcv', hh⟩ := hintact rfl
    obtain rfl : p = q := Option.some.inj hh.block
    obtain ⟨rfl, rfl⟩ : data = data' ∧ rcv = rcv' := Prod.mk.inj (Option.some.inj hh.origin)
    have hbytes : load s.arena_.memory p (toUint16 data.1.length) =
        data.1.take (toUint16 data.1.length) := by
      calc load s.arena_.memory p (toUint16 data.1.length)
        _ = (load s.arena_.memory p data.1.length).take (toUint16 data.1.length) := by
          rw [take_load, Nat.min_eq_left (toUint16_le _)]
        _ = data.1.take (toUint16 data.1.length) := by rw [hh.bytes]
    have hmessage : s.echoMessage (recvEvent i p data rcv) = echoOf data rcv := by
      simp only [echoMessage, recvEvent, hbytes, sid_dataParam, echoOf]
    calc s.waitingEcho (recvEvent i p data rcv)
      _ = some (i, s.echoMessage (recvEvent i p data rcv)) := rfl
      _ = receivedEcho (recvEvent i p data rcv, some (data, rcv)) := by rw [hmessage]; rfl
  · rw [waitingEcho, if_neg htype, receivedEcho, horigin]
    cases x.1.client <;> rfl

/-- The queue of the relay, by the messages of the queued events. -/
theorem queue_relay {s : RuruLoop σ υ} (h : s.RelaySound) {live : List Sourced}
    (hsuf : live <:+ pushed s.trace) (hque : live.map Prod.fst = s.que_)
    (hintact : ∀ x ∈ live, s.Intact x) : s.relay.queue = live.filterMap receivedEcho := by
  show s.que_.filterMap s.waitingEcho = _
  rw [← hque, List.filterMap_map]
  exact List.filterMap_congr fun x hx =>
    waitingEcho_eq (h.sourced x (hsuf.subset hx)) (hintact x hx)

/-! ### The member functions of `RuruSctp` -/

theorem cacheOf_eq {s : RuruLoop σ υ} {i : ℕ} {client : RuruClient σ}
    (hi : s.clientMgr_[i]? = some client) : s.cacheOf i = client.cache := by
  rw [cacheOf, hi]
  rfl

theorem cacheOf_of_faces {s s' : RuruLoop σ υ} (h : s'.faces = s.faces) (i : ℕ) :
    s'.cacheOf i = s.cacheOf i := by
  have hface : ∀ t : RuruLoop σ υ, t.cacheOf i = (t.faces[i]?).elim [] (·.2.2) := by
    intro t
    rw [cacheOf, faces, List.getElem?_map]
    cases t.clientMgr_[i]? <;> rfl
  rw [hface s', hface s, h]

theorem cacheOf_operated {s : RuruLoop σ υ} {i : ℕ} {client : RuruClient σ}
    (hi : s.clientMgr_[i]? = some client) (op : SctpOp) (j : ℕ) :
    (s.operated env i client op).cacheOf j =
      if i = j then ((s.transport client).step env.usrsctp op).cache else s.cacheOf j := by
  show ((s.clientMgr_.modify i _)[j]?).elim [] (·.cache) = _
  rw [List.getElem?_modify]
  by_cases hij : i = j
  · subst hij
    simp [hi]
  · simp only [if_neg hij, id_map']
    rfl

theorem callsOf_operated (s : RuruLoop σ υ) (i : ℕ) (client : RuruClient σ) (op : SctpOp) (j : ℕ) :
    callsOf j (s.operated env i client op).trace = callsOf j s.trace ++
      if i = j then ((s.transport client).step env.usrsctp op).calls else [] := by
  show callsOf j (s.trace ++ _) = _
  rw [callsOf_append, callsOf_usrsctp]

/-- What an operation submits joins what the client was sent; the other clients are left alone. -/
theorem out_operated {s : RuruLoop σ υ} (hw : s.WholeCaches) {i : ℕ} {client : RuruClient σ}
    (hi : s.clientMgr_[i]? = some client) {op : SctpOp} (hop : op.Sendable) (j : ℕ) :
    (s.operated env i client op).relay.out j = s.relay.out j ++
      if i = j then survivors env.usrsctp (s.transport client) [op] else [] := by
  show accepted (callsOf j (s.operated env i client op).trace) ++
    cached ((s.operated env i client op).cacheOf j) = _
  rw [callsOf_operated, cacheOf_operated env hi]
  by_cases hij : i = j
  · subst hij
    obtain ⟨new, hcarries, -⟩ := step_spec env.usrsctp (s.transport client) op hop rfl
      (hw client (List.mem_of_getElem? hi))
    have hnew : ((s.transport client).step env.usrsctp op).calls = new := hcarries.calls
    rw [if_pos rfl, if_pos rfl, if_pos rfl, accepted_append, List.append_assoc, hnew, hcarries.queue,
      ← List.append_assoc]
    show _ = accepted (callsOf i s.trace) ++ cached (s.cacheOf i) ++ _
    rw [cacheOf_eq hi]
    rfl
  · rw [if_neg hij, if_neg hij, if_neg hij, List.append_nil, List.append_nil]
    rfl

theorem wholeCaches_operated {s : RuruLoop σ υ} (hw : s.WholeCaches) {i : ℕ} {client : RuruClient σ}
    (hi : s.clientMgr_[i]? = some client) {op : SctpOp} (hop : op.Sendable) :
    (s.operated env i client op).WholeCaches := by
  intro c hc d hd
  obtain ⟨new, hcarries, -⟩ := step_spec env.usrsctp (s.transport client) op hop rfl
    (hw client (List.mem_of_getElem? hi))
  obtain ⟨j, hj⟩ := List.mem_iff_getElem?.mp hc
  have hcache := cacheOf_operated env hi op j
  rw [cacheOf_eq hj] at hcache
  rw [hcache] at hd
  split_ifs at hd
  · exact hcarries.whole d hd
  · rw [cacheOf] at hd
    cases hcj : s.clientMgr_[j]? with
    | none => rw [hcj] at hd; exact absurd hd (by simp)
    | some cj =>
      rw [hcj] at hd
      exact hw cj (List.mem_of_getElem? hcj) d hd

/-! ### What was sent -/

theorem lost_operated (s : RuruLoop σ υ) (i : ℕ) (client : RuruClient σ) (op : SctpOp) (j : ℕ) :
    (s.operated env i client op).relay.lost j = s.relay.lost j + if i = j then
      ((s.transport client).step env.usrsctp op).calls.countP (·.directFatal) else 0 := by
  show (callsOf j (s.operated env i client op).trace).countP _ = (callsOf j s.trace).countP _ + _
  rw [callsOf_operated, List.countP_append]
  split_ifs <;> rfl

/-- Nothing was submitted for any client. -/
def SameOut (s s' : RuruLoop σ υ) : Prop :=
  (∀ i, s'.relay.out i = s.relay.out i) ∧ ∀ i, s'.relay.lost i = s.relay.lost i

/-- A deed that only adds effects without a send and leaves the caches alone. -/
theorem sameOut_of_calls {s s' : RuruLoop σ υ} {es : List Effect} (trace : s'.trace = s.trace ++ es)
    (cache : ∀ i, s'.cacheOf i = s.cacheOf i) (out : ∀ i, accepted (callsOf i es) = [])
    (lost : ∀ i, (callsOf i es).countP (·.directFatal) = 0) : SameOut s s' := by
  refine ⟨fun i => ?_, fun i => ?_⟩
  · show accepted (callsOf i s'.trace) ++ cached (s'.cacheOf i) =
      accepted (callsOf i s.trace) ++ cached (s.cacheOf i)
    rw [trace, callsOf_append, accepted_append, out i, List.append_nil, cache i]
  · show (callsOf i s'.trace).countP _ = (callsOf i s.trace).countP _
    rw [trace, callsOf_append, List.countP_append, lost i, Nat.add_zero]

theorem sameOut_of_silent {s s' : RuruLoop σ υ} {es : List Effect} (trace : s'.trace = s.trace ++ es)
    (cache : ∀ i, s'.cacheOf i = s.cacheOf i) (silent : ∀ i, callsOf i es = []) : SameOut s s' :=
  sameOut_of_calls trace cache (fun i => by rw [silent i]; rfl) fun i => by rw [silent i]; rfl

theorem wholeCaches_iff (s : RuruLoop σ υ) :
    s.WholeCaches ↔ ∀ i, ∀ d ∈ s.cacheOf i, d.Whole := by
  constructor
  · intro h i d hd
    rw [cacheOf] at hd
    cases hi : s.clientMgr_[i]? with
    | none => rw [hi] at hd; exact absurd hd (by simp)
    | some client =>
      rw [hi] at hd
      exact h client (List.mem_of_getElem? hi) d hd
  · intro h client hc d hd
    obtain ⟨i, hi⟩ := List.mem_iff_getElem?.mp hc
    refine h i d ?_
    rw [cacheOf_eq hi]
    exact hd

theorem SameOut.trans {s t u : RuruLoop σ υ} (h : SameOut s t) (h' : SameOut t u) : SameOut s u :=
  ⟨fun i => (h'.1 i).trans (h.1 i), fun i => (h'.2 i).trans (h.2 i)⟩

/-- A member function other than `SendUsrSctpData` submits nothing. -/
theorem sameOut_operated {s : RuruLoop σ υ} (hw : s.WholeCaches) {i : ℕ} {client : RuruClient σ}
    (known : s.clientMgr_[i]? = some client) {op : SctpOp}
    (hop : ∀ msg, op ≠ .sendUsrSctpData msg) :
    (s.operated env i client op).WholeCaches ∧ SameOut s (s.operated env i client op) := by
  have hnone : op.Sendable ∧ survivors env.usrsctp (s.transport client) [op] = [] ∧
      submitted [op] = [] := by
    cases op with
    | sendUsrSctpData msg => exact absurd rfl (hop msg)
    | sendSctpCacheData => exact ⟨trivial, rfl, rfl⟩
    | recvUsrSctpData data => exact ⟨trivial, rfl, rfl⟩
  refine ⟨wholeCaches_operated env hw known hnone.1, fun j => ?_, fun j => ?_⟩
  · rw [out_operated env hw known hnone.1, hnone.2.1, ite_self, List.append_nil]
  · have hstep := countP_directFatal_step env.usrsctp (t := s.transport client) rfl rfl
      (hw client (List.mem_of_getElem? known)) hnone.1
    rw [hnone.2.2] at hstep
    rw [lost_operated, Nat.le_zero.mp hstep, ite_self, Nat.add_zero]

/-- The step lemma: no deed but the echo of a message submits one. -/
theorem Deed.sameOut {s s' : RuruLoop σ υ} (h : Deed env false s s') (hw : s.WholeCaches) :
    s'.WholeCaches ∧ SameOut s s' := by
  cases h with
  | quiet faces udpfd es trace plain =>
    have hcache := cacheOf_of_faces faces
    refine ⟨(wholeCaches_iff s').mpr fun i => ?_, ?_⟩
    · rw [hcache i]
      exact (wholeCaches_iff s).mp hw i
    · exact sameOut_of_silent trace hcache fun i =>
        callsOf_quiet i fun e he => (plain e he).1
  | packet known taken size => exact ⟨hw, sameOut_of_silent rfl (fun i => rfl) fun i => rfl⟩
  | sent known buffers sizes =>
    refine ⟨hw, sameOut_of_silent rfl (fun i => rfl) fun i => ?_⟩
    refine List.filterMap_eq_nil_iff.mpr fun e he => ?_
    obtain ⟨b, -, rfl⟩ := List.mem_map.mp he
    rfl
  | @fed i client packet known handed data =>
    have hnoted : SameOut s (s.note (.dtlsData i data)) :=
      sameOut_of_silent rfl (fun i => rfl) fun i => rfl
    have hother : ∀ msg, SctpOp.recvUsrSctpData (some data) ≠ .sendUsrSctpData msg := by simp
    obtain ⟨hwhole, hout⟩ :=
      sameOut_operated env (s := s.note (.dtlsData i data)) hw known hother
    exact ⟨hwhole, hnoted.trans hout⟩
  | @operated i client known op other sender =>
    exact sameOut_operated env hw known fun msg hm => absurd (sender msg hm) (by simp)
  | construct junk =>
    have hidle := construct_idle env.usrsctp junk s.usr s.nextSock
    have hcount := countP_directFatal_construct env.usrsctp junk s.usr s.nextSock
    refine ⟨hw, sameOut_of_calls rfl (fun i => rfl) (fun i => ?_) fun i => ?_⟩
    · rw [callsOf_usrsctp]
      split_ifs
      · exact hidle.not_sent.1
      · rfl
    · rw [callsOf_usrsctp]
      split_ifs
      · exact hcount
      · rfl
  | @enroll client fresh udpfd =>
    have hcache : ∀ i, cacheOf { s with
        clientMgr_ := s.clientMgr_ ++ [client]
        trace := s.trace ++ [.registered s.clientMgr_.length client.address] } i = s.cacheOf i := by
      intro i
      rw [cacheOf, cacheOf, List.getElem?_append]
      split_ifs with hlt
      · rfl
      · rw [List.getElem?_eq_none (Nat.le_of_not_lt hlt)]
        cases i - s.clientMgr_.length with
        | zero => exact fresh
        | succ n => rfl
    refine ⟨(wholeCaches_iff _).mpr fun i => ?_, sameOut_of_silent rfl hcache fun i => rfl⟩
    rw [hcache i]
    exact (wholeCaches_iff s).mp hw i

/-- The run lemma. -/
theorem Deeds.sameOut {s s' : RuruLoop σ υ} (h : Deeds env false s s') (hw : s.WholeCaches) :
    s'.WholeCaches ∧ SameOut s s' := by
  refine Deeds.invariant env (P := fun t => t.WholeCaches ∧ SameOut s t) (fun t t' ht hd => ?_) h
    ⟨hw, fun i => rfl, fun i => rfl⟩
  obtain ⟨hwhole, hout⟩ := hd.sameOut env ht.1
  exact ⟨hwhole, ht.2.trans hout⟩

/-! ### The loop as a relay -/

theorem RelaySound.moves {s s' : RuruLoop σ υ} (h : s.RelaySound) (hm : Moves false s s')
    (hwhole : s'.WholeCaches) : s'.RelaySound := by
  obtain ⟨new, -, hpushed, hnew⟩ := hm.pushes
  refine ⟨hm.liveBlocks h.live, fun x hx => ?_, hwhole⟩
  rw [hpushed] at hx
  exact (List.mem_append.mp hx).elim (h.sourced x) (hnew x)

/-- Moves that submit nothing receive messages. -/
theorem steps_of_sameOut {s s' : RuruLoop σ υ} (h : s.RelaySound) (h' : s'.RelaySound)
    (hm : Moves false s s') (hout : SameOut s s') : Relay.Steps s.relay s'.relay := by
  obtain ⟨new, hque, hpushed, -⟩ := hm.pushes
  obtain ⟨live, hsuf, hlive, hintact, -⟩ := h.live
  obtain ⟨live', hsuf', hlive', hintact', -⟩ := h'.live
  have hnew : live' = live ++ new := by
    -- both are the last entries of one history
    refine (List.suffix_of_suffix_length_le hsuf' (hpushed ▸ (List.suffix_append_inj_of_length_eq
      rfl).mpr ⟨hsuf, rfl⟩) ?_).eq_of_length ?_
    all_goals
      have hlen := congrArg List.length hlive
      have hlen' := congrArg List.length hlive'
      simp only [List.length_map, List.nil_append, hque, List.length_append] at hlen hlen'
      simp only [List.length_append]
      omega
  have hrelay : s'.relay = { s.relay with
      received := s.relay.received ++ new.filterMap receivedEcho
      queue := s.relay.queue ++ new.filterMap receivedEcho } := by
    have hreceived : s'.relay.received = s.relay.received ++ new.filterMap receivedEcho := by
      show (pushed s'.trace).filterMap receivedEcho = _
      rw [hpushed, List.filterMap_append]
      rfl
    have hqueue : s'.relay.queue = s.relay.queue ++ new.filterMap receivedEcho := by
      rw [queue_relay h' hsuf' hlive' hintact', queue_relay h hsuf hlive hintact, hnew,
        List.filterMap_append]
    calc s'.relay
      _ = ⟨s'.relay.received, s'.relay.queue, s'.relay.out, s'.relay.lost⟩ := rfl
      _ = _ := by rw [hreceived, hqueue, funext hout.1, funext hout.2]
  rw [hrelay]
  exact Relay.steps_receive s.relay _

/-- What runs between two echoes keeps the loop sound and receives messages. -/
theorem RelaySound.steps {s s' : RuruLoop σ υ} (h : s.RelaySound) (hm : Moves false s s')
    (hd : Deeds env false s s') : s'.RelaySound ∧ Relay.Steps s.relay s'.relay := by
  obtain ⟨hwhole, hout⟩ := hd.sameOut env h.whole
  have h' : s'.RelaySound := h.moves hm hwhole
  exact ⟨h', steps_of_sameOut h h' hm hout⟩

/-- Before the callbacks, a message submitted for a client is forwarded or lost. -/
theorem RelaySound.attempt {s : RuruLoop σ υ} (h : s.RelaySound) {i : ℕ} {client : RuruClient σ}
    (hi : s.clientMgr_[i]? = some client) {msg : RuruSctpMessage} (hmsg : msg.data.length < 2 ^ 31) :
    (s.operated env i client (.sendUsrSctpData (some msg))).RelaySound ∧
      Relay.Attempt s.relay i msg (s.operated env i client (.sendUsrSctpData (some msg))).relay := by
  set s' := s.operated env i client (.sendUsrSctpData (some msg)) with hs'
  have hpushed : pushed s'.trace = pushed s.trace := by
    show pushed (s.trace ++ List.map (Effect.usrsctp i) _) = _
    rw [pushed_append, List.append_right_eq_self]
    exact pushed_eq_nil (isPlain_usrsctp i _)
  have hlength : s'.clientMgr_.length = s.clientMgr_.length := length_updateClient s i _
  have hsendable : SctpOp.Sendable (.sendUsrSctpData (some msg)) := ⟨msg, rfl, hmsg⟩
  refine ⟨⟨h.live.quiet rfl rfl hpushed hlength.ge, hpushed.symm ▸ h.sourced,
    wholeCaches_operated env h.whole hi hsendable⟩, ?_⟩
  have hreceived : s'.relay.received = s.relay.received := by
    show (pushed s'.trace).filterMap receivedEcho = _
    rw [hpushed]
    rfl
  have hout := out_operated env h.whole hi hsendable
  have hlost := lost_operated env s i client (.sendUsrSctpData (some msg))
  have hcount := count_sendUsrSctpData env.usrsctp (t := s.transport client) rfl rfl
    (h.whole client (List.mem_of_getElem? hi)) hmsg
  have hsurvivors : survivors env.usrsctp (s.transport client) [.sendUsrSctpData (some msg)] =
      if lostDirectly env.usrsctp (s.transport client) msg then [] else [msg] := by
    simp only [survivors, submittedBut, List.append_nil]
    rfl
  have hrelay : s'.relay = ⟨s'.relay.received, s.relay.queue, s'.relay.out, s'.relay.lost⟩ := rfl
  rw [hsurvivors] at hout
  by_cases hgone : lostDirectly env.usrsctp (s.transport client) msg = true
  · right
    rw [hrelay, hreceived]
    refine congrArg₂ _ (funext fun j => ?_) (funext fun j => ?_)
    · rw [hout j, if_pos hgone, ite_self, List.append_nil]
    · rw [hlost j, hcount, if_pos hgone]
      exact (Relay.lost_drop s.relay i j).symm
  · left
    rw [hrelay, hreceived]
    refine congrArg₂ _ (funext fun j => ?_) (funext fun j => ?_)
    · rw [hout j, if_neg hgone]
      exact (Relay.out_send s.relay i j msg).symm
    · rw [hlost j, hcount, if_neg hgone, ite_self, Nat.add_zero]

/-- `SendUsrSctpData` forwards or loses its message, and may receive others. -/
theorem RelaySound.sendUsrSctpData {s : RuruLoop σ υ} (h : s.RelaySound) {i : ℕ}
    (hi : i < s.clientMgr_.length) {msg : RuruSctpMessage} (hmsg : msg.data.length < 2 ^ 31) :
    (s.sendUsrSctpData env i msg).RelaySound ∧ ∃ t, Relay.Attempt s.relay i msg t ∧
      Relay.Steps t (s.sendUsrSctpData env i msg).relay := by
  obtain ⟨client, hclient⟩ : ∃ client, s.clientMgr_[i]? = some client :=
    ⟨_, List.getElem?_eq_getElem hi⟩
  obtain ⟨hsound, hattempt⟩ := h.attempt env hclient hmsg
  have hsend : s.sendUsrSctpData env i msg =
      (s.operated env i client (.sendUsrSctpData (some msg))).callbacks env
        (((s.transport client).step env.usrsctp (.sendUsrSctpData (some msg))).calls.flatMap
          UsrsctpCall.callbacks) := by
    simp only [RuruLoop.sendUsrSctpData, hclient]
    rfl
  rw [hsend]
  obtain ⟨hdone, hsteps⟩ := hsound.steps env (moves_callbacks env _ _) (deeds_callbacks env _ _)
  exact ⟨hdone, _, hattempt, hsteps⟩

theorem length_echoMessage_le (s : RuruLoop σ υ) (evt : RuruEvent) :
    (s.echoMessage evt).data.length ≤ evt.length := by
  unfold echoMessage
  cases evt.data with
  | none => exact Nat.zero_le _
  | some p => exact (length_load _ _ _).le

/-- `Echo2Client` forwards or loses the message of its event. -/
theorem RelaySound.echo2Client {s : RuruLoop σ υ} (h : s.RelaySound) {evt : RuruEvent}
    (htype : evt.type = .evtRecvClientData) {i : ℕ} (hclient : evt.client = some i)
    (hi : i < s.clientMgr_.length) (hlength : evt.length < 2 ^ 16) :
    (s.handleEvent env evt).RelaySound ∧ ∃ t, Relay.Attempt s.relay i (s.echoMessage evt) t ∧
      Relay.Steps t (s.handleEvent env evt).relay := by
  have hsend : s.handleEvent env evt = s.sendUsrSctpData env i (s.echoMessage evt) := by
    simp only [handleEvent, htype, RuruLoop.echo2Client, hclient]
  rw [hsend]
  have hle := s.length_echoMessage_le evt
  exact h.sendUsrSctpData env hi (by omega)

/-- Handling another event receives at most. -/
theorem RelaySound.handleOther {s : RuruLoop σ υ} (h : s.RelaySound) {evt : RuruEvent}
    (htype : evt.type ≠ .evtRecvClientData) :
    (s.handleEvent env evt).RelaySound ∧ Relay.Steps s.relay (s.handleEvent env evt).relay :=
  h.steps env (moves_handleEvent env s evt) (deeds_handleEvent_other env s htype)

end RuruLoop

/-! ### Runs of the example server -/

namespace EchoServer

/-- The turn does not act a second time on a data event: `evt` holds none, or an event is queued, or
there is no news. -/
def EchoesOnce (st : EchoServer σ υ) : EchoInput → Prop
  | .callback _ => True
  | .turn _ batch =>
    st.evt.type ≠ .evtRecvClientData ∨ st.ruru.que_ ≠ [] ∨ ¬st.ruru.LoopHasNews batch

/-- Every client was sent back, in order and once each, messages queued for it when they came; the
others still wait, or are lost to a direct send that failed for good: with an errno that, as `perror`
left it, was not a would-block. -/
def Relays (st : EchoServer σ υ) : Prop := ∀ i, Relay.Faithful st.ruru.relay i

/-- The invariant of the runs: a data event in `evt` has a client and a `uint16_t` length. -/
structure RelayReady (st : EchoServer σ υ) : Prop where
  sound : st.ruru.RelaySound
  held : st.evt.type = .evtRecvClientData →
    ∃ i, st.evt.client = some i ∧ i < st.ruru.clientMgr_.length ∧ st.evt.length < 2 ^ 16

/-- What is known of a queued data event. -/
theorem queued_event {s : RuruLoop σ υ} (h : s.RelaySound) {evt : RuruEvent} (hevt : evt ∈ s.que_)
    (htype : evt.type = .evtRecvClientData) :
    ∃ i, evt.client = some i ∧ i < s.clientMgr_.length ∧ evt.length < 2 ^ 16 := by
  obtain ⟨live, hsuf, hlive, hintact, -⟩ := h.live
  rw [List.nil_append] at hlive
  rw [← hlive] at hevt
  obtain ⟨x, hx, rfl⟩ := List.mem_map.mp hevt
  obtain ⟨p, data, rcv, hh⟩ := hintact x hx htype
  obtain ⟨i, hi, hlt⟩ := hh.client
  rcases h.sourced x (hsuf.subset hx) with ⟨i', p', data', rcv', rfl⟩ | ⟨hother, -⟩
  · exact ⟨i, hi, hlt, toUint16_lt _⟩
  · exact absurd htype hother

/-- Dequeuing forgets the event in hand. -/
theorem dequeued_sound {s : RuruLoop σ υ} (h : s.RelaySound) {evt : RuruEvent}
    {rest : List RuruEvent} (hq : s.que_ = evt :: rest) :
    RuruLoop.RelaySound { s with que_ := rest } := by
  obtain ⟨live, hsuf, hlive, hintact, hord⟩ := h.live.dequeue hq
  refine ⟨⟨live.drop 1, (List.drop_suffix _ _).trans hsuf, ?_,
    fun x hx => hintact x (List.mem_of_mem_drop hx), hord.sublist (List.drop_sublist _ _)⟩,
    h.sourced, h.whole⟩
  rw [List.map_drop, hlive]
  rfl

/-- A turn that dequeues. -/
theorem relay_dequeue {st : EchoServer σ υ} (h : st.RelayReady) {evt : RuruEvent}
    {rest : List RuruEvent} (hq : st.ruru.que_ = evt :: rest) :
    (st.afterLoop env true evt { st.ruru with que_ := rest }).RelayReady ∧
      Relay.Steps st.ruru.relay
        (st.afterLoop env true evt { st.ruru with que_ := rest }).ruru.relay := by
  set s' : RuruLoop σ υ := { st.ruru with que_ := rest } with hs'
  have hsound : s'.RelaySound := dequeued_sound h.sound hq
  have hevt : evt ∈ st.ruru.que_ := hq ▸ List.mem_cons_self
  have hqueue : st.ruru.relay.queue = (s'.waitingEcho evt).toList ++ s'.relay.queue := by
    show st.ruru.que_.filterMap s'.waitingEcho = _
    rw [hq, List.filterMap_cons]
    cases s'.waitingEcho evt <;> rfl
  have hheld : evt.type = .evtRecvClientData → ∃ i, evt.client = some i ∧
      i < (s'.handleEvent env evt).clientMgr_.length ∧ evt.length < 2 ^ 16 := by
    intro htype
    obtain ⟨i, hclient, hi, hlength⟩ := queued_event h.sound hevt htype
    have hgrow : s'.clientMgr_.length ≤ (s'.handleEvent env evt).clientMgr_.length :=
      (RuruLoop.moves_handleEvent env s' evt : RuruLoop.Moves false s' _).clients_le
    exact ⟨i, hclient, hi.trans_le hgrow, hlength⟩
  show EchoServer.RelayReady ⟨s'.handleEvent env evt, evt, _⟩ ∧
    Relay.Steps st.ruru.relay (s'.handleEvent env evt).relay
  by_cases htype : evt.type = .evtRecvClientData
  · obtain ⟨i, hclient, hi, hlength⟩ := queued_event h.sound hevt htype
    obtain ⟨hdone, t, hattempt, hsteps⟩ := hsound.echo2Client env htype hclient hi hlength
    have hwaiting : s'.waitingEcho evt = some (i, s'.echoMessage evt) := by
      rw [RuruLoop.waitingEcho, if_pos htype, hclient]
      rfl
    rw [hwaiting] at hqueue
    exact ⟨⟨hdone, hheld⟩, .head (.forward hqueue hattempt) hsteps⟩
  · obtain ⟨hdone, hsteps⟩ := hsound.handleOther env htype
    have hsame : st.ruru.relay = s'.relay := by
      have hwaiting : s'.waitingEcho evt = none := if_neg htype
      rw [hwaiting] at hqueue
      exact congrArg (fun q => { s'.relay with queue := q }) hqueue
    rw [hsame]
    exact ⟨⟨hdone, hheld⟩, hsteps⟩

/-- A turn that finds the queue empty, up to the switch. -/
theorem relay_idle {s s' : RuruLoop σ υ} (h : s.RelaySound) {fuel : ℕ} {evt evt' : RuruEvent}
    {batch : EpollBatch} {haveData : Bool} (hq : s.que_ = [])
    (hm : RuruLoop.Moves false s.resetArena s')
    (hl : s.loop env fuel evt batch = some (haveData, evt', s')) :
    s'.RelaySound ∧ Relay.Steps s.relay s'.relay := by
  obtain ⟨hwhole, hout⟩ := (RuruLoop.deeds_loop env hl).sameOut env h.whole
  have hreset : s.resetArena.RelaySound := ⟨RuruLoop.LiveBlocks.reset hq, h.sourced, h.whole⟩
  have hdone : s'.RelaySound := hreset.moves hm hwhole
  have hsame : s.relay = s.resetArena.relay := by
    have hqueue : s.relay.queue = s.resetArena.relay.queue := by
      show s.que_.filterMap _ = s.que_.filterMap _
      rw [hq]
      rfl
    exact congrArg (fun q => { s.relay with queue := q }) hqueue
  rw [hsame]
  exact ⟨hdone, RuruLoop.steps_of_sameOut hreset hdone hm hout⟩

/-- The step lemma: the invariant stays, and the step is one of the relay, or a second echo. -/
theorem step_relay {st st' : EchoServer σ υ} {input : EchoInput} (h : st.RelayReady)
    (hs : Step env st input st') : st'.RelayReady ∧
      ((st.EchoesOnce input ∧ Relay.Steps st.ruru.relay st'.ruru.relay) ∨
        (¬st.EchoesOnce input ∧ ∃ i m t u, Relay.Steps st.ruru.relay t ∧ Relay.Attempt t i m u ∧
          Relay.Steps u st'.ruru.relay)) := by
  cases input with
  | callback cb =>
    obtain rfl := Option.some.inj hs
    have hm : RuruLoop.Moves false st.ruru _ := RuruLoop.moves_callback env st.ruru cb
    obtain ⟨hdone, hsteps⟩ := h.sound.steps env hm (RuruLoop.deeds_callback env st.ruru cb)
    refine ⟨⟨hdone, fun htype => ?_⟩, Or.inl ⟨trivial, hsteps⟩⟩
    obtain ⟨i, hclient, hi, hlength⟩ := h.held htype
    exact ⟨i, hclient, hi.trans_le hm.clients_le, hlength⟩
  | turn fuel batch =>
    obtain ⟨⟨haveData, evt, ruru⟩, hl, rfl⟩ := Option.map_eq_some_iff.mp hs
    rcases RuruLoop.loop_cases env hl with ⟨rest, hq, rfl, rfl⟩ | ⟨hq, rfl, hm⟩
    · obtain ⟨hready, hsteps⟩ := relay_dequeue env h hq
      exact ⟨hready, Or.inl ⟨Or.inr (Or.inl (by simp [hq])), hsteps⟩⟩
    · have hnews := RuruLoop.loop_news env hq hl
      obtain ⟨hdone, hsteps⟩ := relay_idle env h.sound hq hm hl
      cases haveData with
      | false =>
        refine ⟨⟨hdone, fun htype => absurd htype (by simp [afterLoop])⟩, Or.inl ⟨?_, hsteps⟩⟩
        exact Or.inr (Or.inr fun hn => absurd (hnews.mpr hn) (by simp))
      | true =>
        have hgrow : st.ruru.clientMgr_.length ≤ ruru.clientMgr_.length := hm.clients_le
        have hmh : RuruLoop.Moves false ruru _ := RuruLoop.moves_handleEvent env ruru st.evt
        have hheld : st.evt.type = .evtRecvClientData → ∃ i, st.evt.client = some i ∧
            i < (ruru.handleEvent env st.evt).clientMgr_.length ∧ st.evt.length < 2 ^ 16 := by
          intro htype
          obtain ⟨i, hclient, hi, hlength⟩ := h.held htype
          exact ⟨i, hclient, (hi.trans_le hgrow).trans_le hmh.clients_le, hlength⟩
        by_cases htype : st.evt.type = .evtRecvClientData
        · -- the event that was acted on last is acted on again
          obtain ⟨i, hclient, hi, hlength⟩ := h.held htype
          obtain ⟨hagain, t, hattempt, hafter⟩ :=
            hdone.echo2Client env htype hclient (hi.trans_le hgrow) hlength
          refine ⟨⟨hagain, hheld⟩, Or.inr ⟨?_, i, _, _, t, hsteps, hattempt, hafter⟩⟩
          rintro (hother | hqueued | hquiet)
          · exact hother htype
          · exact hqueued hq
          · exact hquiet (hnews.mp rfl)
        · obtain ⟨hhandled, hother⟩ := hdone.handleOther env htype
          exact ⟨⟨hhandled, hheld⟩, Or.inl ⟨Or.inl htype, hsteps.trans hother⟩⟩

/-- **The relay.**  From a constructed loop on, along any run of callbacks and turns, every client is
sent back its own queued messages, in order, once each and no others, up to the losses of direct sends
that failed for good, exactly if no turn acts a second time on a data event. -/
theorem relays_iff_echoesOnce (this : LoopId) (udpfd tcpfd : ℤ) (memory : ℕ → UInt8) (usr : υ)
    (nextSock : Sock) (count : ℤ) (inputs : List EchoInput) :
    let start : EchoServer σ υ :=
      { ruru := .constructed this udpfd tcpfd memory usr nextSock count }
    Lts.Always (Step env) Relays start inputs ↔ Lts.Each (Step env) EchoesOnce start inputs := by
  intro start
  have hlive : start.ruru.LiveBlocks [] := ⟨[], List.nil_suffix, rfl, by simp, List.Pairwise.nil⟩
  have h0 : start.RelayReady := by
    refine ⟨⟨hlive, fun x hx => ?_, fun client hc => ?_⟩, fun htype => ?_⟩
    · exact absurd hx (by simp [start, RuruLoop.constructed, pushed])
    · exact absurd hc (by simp [start, RuruLoop.constructed])
    · exact absurd htype (by simp [start])
  have hrelays : start.Relays := by
    intro i
    exact ⟨List.Sublist.refl _, rfl⟩
  refine Lts.always_iff_each (I := RelayReady) ?_ ?_ h0 hrelays inputs
  · intro st input st' h hr hs
    obtain ⟨-, ⟨honce, hsteps⟩ | ⟨htwice, i, m, t, u, hbefore, hagain, hafter⟩⟩ := step_relay env h hs
    · exact ⟨fun _ => honce, fun _ i => hsteps.faithful (hr i)⟩
    · refine ⟨fun hr' => absurd (hr' i) ?_, fun honce => absurd honce htwice⟩
      exact Relay.not_faithful_of_repeat (hr i) hbefore hagain hafter
  · intro st input st' h _ hs _
    exact (step_relay env h hs).1

end EchoServer

end Ruru
