import Ruru.HeartBeat

/-!
# Ruru.HeartBeatWakes — heartbeats and the events that ask for them to be sent

A heartbeat waits in the ring of its client, and an `EVT_HeartBeat` in the queue of the loop asks for
the ring to be emptied.  The example server empties it when it acts on the event.  So a ring that is
not empty has an event queued, and every heartbeat that found room in its ring is sent once, in order.
-/

namespace Ruru

open Relation

variable {σ υ : Type} (env : Env σ υ)

/-! ### What a ring keeps -/

/-- A packet whose first chunk, behind the common header of 12 bytes, is a HEARTBEAT (4) or a
HEARTBEAT-ACK (5). -/
def HeartBeatPacket (data : List UInt8) : Prop :=
  16 ≤ data.length ∧ (data[12]? = some 4 ∨ data[12]? = some 5)

instance (data : List UInt8) : Decidable (HeartBeatPacket data) := inferInstanceAs (Decidable (_ ∧ _))

/-- What the rings depend on: usrsctp calls back, a heartbeat is passed to `ClientSendData`, a client
is registered. -/
inductive RingEvent where
  | callback (cb : SctpCallback)
  | sent (client : ℕ)
  | registered (client : ℕ)

/-- The heartbeats a ring took in, and how many have left it; `live` says whether its client is
registered. -/
structure RingHistory where
  live : Bool := false
  kept : List (List UInt8) := []
  sent : ℕ := 0

def RingHistory.held (h : RingHistory) : ℕ := h.kept.length - h.sent

/-- A heartbeat that usrsctp emits for client `i` is kept unless 99 are held. -/
def RingHistory.after (i : ℕ) (h : RingHistory) : RingEvent → RingHistory
  | .callback (.outbound addr data) =>
    if addr = i ∧ h.live = true ∧ HeartBeatPacket data ∧ h.held < 99 then
      { h with kept := h.kept ++ [data] }
    else h
  | .callback (.inbound ..) => h
  | .sent j => if j = i then { h with sent := h.sent + 1 } else h
  | .registered j => if j = i then { h with live := true } else h

/-- What a history makes of the ring of client `i`. -/
def ringHistory (i : ℕ) (log : List RingEvent) : RingHistory := log.foldl (RingHistory.after i) {}

@[simp] theorem ringHistory_snoc (i : ℕ) (log : List RingEvent) (e : RingEvent) :
    ringHistory i (log ++ [e]) = (ringHistory i log).after i e := by
  simp [ringHistory]

/-- A call of usrsctp shows the callbacks made in it. -/
def Effect.ringEvents : Effect → List RingEvent
  | .usrsctp _ call => call.callbacks.map .callback
  | .beatSend client _ _ => [.sent client]
  | .registered client _ => [.registered client]
  | _ => []

theorem ringEvents_eq_nil {es : List Effect} (h : ∀ e ∈ es, e.ringEvents = []) :
    es.flatMap Effect.ringEvents = [] := List.flatMap_eq_nil_iff.mpr h

theorem ringEvents_usrsctp (i : ℕ) (calls : List UsrsctpCall) :
    (calls.map (Effect.usrsctp i)).flatMap Effect.ringEvents =
      (calls.flatMap UsrsctpCall.callbacks).map .callback := by
  rw [List.flatMap_map, List.map_flatMap]
  rfl

/-- Between the turns usrsctp calls back on its own. -/
def EchoInput.ringEvents : EchoInput → List RingEvent
  | .callback cb => [.callback cb]
  | .turn .. => []

namespace RuruLoop

/-- An `EVT_HeartBeat` for client `i` is queued. -/
def BeatWake (s : RuruLoop σ υ) (i : ℕ) : Prop :=
  ∃ evt ∈ s.que_, evt.type = .evtHeartBeat ∧ evt.client = some i

/-- No heartbeat is stranded: a ring that is not empty has an event queued. -/
def NoneStranded (s : RuruLoop σ υ) : Prop := ∀ i, s.waitingBeats i ≠ [] → s.BeatWake i

/-- For every client: the heartbeats sent, followed by those in its ring, are those that usrsctp
emitted except when the ring held 99. -/
def BeatsOnce (log : List RingEvent) (s : RuruLoop σ υ) : Prop :=
  ∀ i, (ringHistory i log).held = (s.waitingBeats i).length ∧
    sentBeats i s.trace ++ (s.waitingBeats i).map (·.passed) =
      (ringHistory i log).kept.map fun data => (data, data.length)

/-- No heartbeat that a ring took in is longer than 1024 bytes. -/
def KeptShort (log : List RingEvent) : Prop :=
  ∀ i, ∀ data ∈ (ringHistory i log).kept, data.length ≤ 1024

/-! ### The ledger of a ring -/

/-- The rings have the size of the constructor, and what they took in and gave back is what the
history makes of them. -/
structure RingLedger (log : List RingEvent) (s : RuruLoop σ υ) : Prop where
  cap : ∀ ring ∈ s.rings, ring.cap = 100
  ledger : s.BeatLedger
  live : ∀ i, (ringHistory i log).live = decide (i < s.rings.length)
  kept : ∀ i, (ringHistory i log).kept = storedBeats i s.trace
  sent : ∀ i, (ringHistory i log).sent = (sentBeats i s.trace).length

variable {log : List RingEvent}

theorem RingLedger.held {s : RuruLoop σ υ} (h : s.RingLedger log) (i : ℕ) :
    (ringHistory i log).held = (s.waitingBeats i).length := by
  have hlen := congrArg List.length (h.ledger i)
  rw [List.length_append, List.length_map, List.length_map] at hlen
  rw [RingHistory.held, h.kept i, h.sent i]
  omega

theorem RingLedger.beatsOnce {s : RuruLoop σ υ} (h : s.RingLedger log) (hshort : KeptShort log) :
    s.BeatsOnce log := by
  intro i
  refine ⟨h.held i, ?_⟩
  rw [h.ledger i, h.kept i]
  refine List.map_congr_left fun data hdata => ?_
  exact (passed_heartBeatData_iff data).mpr (hshort i data (by rwa [h.kept i]))

/-- The rings, and the effects about heartbeats, stay. -/
theorem RingLedger.congr {s s' : RuruLoop σ υ} (h : s.RingLedger log)
    (beats : s'.trace.filter Effect.isBeat = s.trace.filter Effect.isBeat) (rings : s'.rings = s.rings) :
    s'.RingLedger log := by
  refine ⟨by rw [rings]; exact h.cap, h.ledger.congr beats (waitingBeats_keeps (.of_eq rings)),
    by rw [rings]; exact h.live, fun i => ?_, fun i => ?_⟩
  · rw [h.kept i, ← storedBeats_filter i s'.trace, beats, storedBeats_filter]
  · rw [h.sent i, ← sentBeats_filter i s'.trace, beats, sentBeats_filter]

/-- An event that no ring takes notice of. -/
theorem RingLedger.ignore {s : RuruLoop σ υ} (h : s.RingLedger log) {e : RingEvent}
    (he : ∀ i, (ringHistory i log).after i e = ringHistory i log) : s.RingLedger (log ++ [e]) := by
  refine ⟨h.cap, h.ledger, fun i => ?_, fun i => ?_, fun i => ?_⟩
  · rw [ringHistory_snoc, he i, h.live i]
  · rw [ringHistory_snoc, he i, h.kept i]
  · rw [ringHistory_snoc, he i, h.sent i]

/-- A client gets another ring. -/
theorem rings_setRing {s s' : RuruLoop σ υ} {j : ℕ} {ring : RuruRingBuf HeartBeatData}
    (hs' : s'.clientMgr_ = s.clientMgr_.modify j fun c => { c with heartBeatRing := ring }) :
    s'.rings = s.rings.set j ring := by
  apply List.ext_getElem?
  intro k
  simp only [rings, hs', List.getElem?_map, List.getElem?_modify, List.getElem?_set,
    List.length_map]
  by_cases hjk : j = k
  · subst hjk
    cases hj : s.clientMgr_[j]? with
    | none => simpa using hj
    | some c => simp [(List.getElem?_eq_some_iff.mp hj).1]
  · simp [hjk]

theorem cap_setRing {s : RuruLoop σ υ} (h : ∀ r ∈ s.rings, r.cap = 100) {j : ℕ}
    {ring : RuruRingBuf HeartBeatData} (hring : ring.cap = 100) : ∀ r ∈ s.rings.set j ring, r.cap = 100 := by
  intro r hr
  rcases List.mem_or_eq_of_mem_set hr with hold | rfl
  · exact h r hold
  · exact hring

theorem RingLedger.cap_client {s : RuruLoop σ υ} (h : s.RingLedger log) {j : ℕ}
    {client : RuruClient σ} (hj : s.clientMgr_[j]? = some client) :
    client.heartBeatRing.cap = 100 :=
  h.cap _ (List.mem_map_of_mem (List.mem_of_getElem? hj))

/-- The history knows the registered clients. -/
theorem RingLedger.live_iff {s : RuruLoop σ υ} (h : s.RingLedger log) (i : ℕ) :
    (ringHistory i log).live = true ↔ ∃ client, s.clientMgr_[i]? = some client := by
  rw [h.live i, rings, List.length_map, decide_eq_true_iff]
  constructor
  · intro hlt
    exact ⟨_, List.getElem?_eq_getElem hlt⟩
  · rintro ⟨client, hclient⟩
    exact (List.getElem?_eq_some_iff.mp hclient).1

/-- A heartbeat of a registered client is stored, or dropped because the ring is full. -/
theorem RingLedger.store {s : RuruLoop σ υ} (h : s.RingLedger log) {j : ℕ} {client : RuruClient σ}
    (hj : s.clientMgr_[j]? = some client) {data : List UInt8} (hbeat : HeartBeatPacket data) :
    (s.storeBeat j client.heartBeatRing data).RingLedger (log ++ [.callback (.outbound j data)]) := by
  have hcap := h.cap_client hj
  have hlive := (h.live_iff j).mpr ⟨client, hj⟩
  have hheld := h.held j
  rw [waitingBeats_of_client hj] at hheld
  obtain ⟨hcap', hroom⟩ : (client.heartBeatRing.ringBufWrite (heartBeatData data)).2.cap = 100 ∧
      ((client.heartBeatRing.ringBufWrite (heartBeatData data)).1 = true ↔
        (ringHistory j log).held < 99) := by
    rcases client.heartBeatRing.ringBufWrite_cases (heartBeatData data) with
      ⟨ring, hw, -, hc, hroom⟩ | ⟨hw, hfull⟩
    · rw [hw]
      exact ⟨hc.trans hcap, iff_of_true rfl (by omega)⟩
    · rw [hw]
      exact ⟨hcap, iff_of_false (by simp) (by omega)⟩
  have htrace := s.trace_storeBeat j client.heartBeatRing data
  have hrings : (s.storeBeat j client.heartBeatRing data).rings = s.rings.set j _ :=
    rings_setRing (s := s) rfl
  refine ⟨?_, h.ledger.store hj data, fun i => ?_, fun i => ?_, fun i => ?_⟩
  · rw [hrings]
    exact cap_setRing h.cap hcap'
  · rw [hrings, List.length_set, ← h.live i, ringHistory_snoc, RingHistory.after]
    split_ifs <;> rfl
  · rw [htrace, storedBeats_append, ← h.kept i, ringHistory_snoc]
    generalize (client.heartBeatRing.ringBufWrite (heartBeatData data)).1 = stored at hroom
    by_cases hij : j = i
    · subst hij
      by_cases hfree : (ringHistory j log).held < 99
      · rw [hroom.mpr hfree]
        simp [RingHistory.after, hfree, hlive, hbeat, storedBeats]
      · rw [Bool.eq_false_iff.mpr (mt hroom.mp hfree)]
        simp [RingHistory.after, hfree, storedBeats]
    · cases stored <;> simp [RingHistory.after, hij, storedBeats]
  · rw [htrace, sentBeats_append, List.length_append, ← h.sent i, ringHistory_snoc,
      RingHistory.after]
    split_ifs <;> simp [sentBeats]

/-- A heartbeat is taken out of its ring. -/
theorem RingLedger.take {s : RuruLoop σ υ} (h : s.RingLedger log) {j : ℕ} {client : RuruClient σ}
    (hj : s.clientMgr_[j]? = some client) {beat : HeartBeatData} {ring : RuruRingBuf HeartBeatData}
    (hread : client.heartBeatRing.ringBufRead = (some beat, ring)) :
    (s.takeBeat j beat ring).RingLedger (log ++ [.sent j]) := by
  have hcap : ring.cap = 100 :=
    (RuruRingBuf.ringBufRead_some hread).2.trans (h.cap_client hj)
  have htrace := s.trace_takeBeat j beat ring
  have hrings : (s.takeBeat j beat ring).rings = s.rings.set j ring := rings_setRing (s := s) rfl
  refine ⟨?_, h.ledger.take hj hread, fun i => ?_, fun i => ?_, fun i => ?_⟩
  · rw [hrings]
    exact cap_setRing h.cap hcap
  · rw [hrings, List.length_set, ← h.live i, ringHistory_snoc]
    by_cases hij : j = i <;> simp [RingHistory.after, hij]
  · rw [htrace, storedBeats_append, ← h.kept i, ringHistory_snoc]
    by_cases hij : j = i <;> simp [RingHistory.after, hij, storedBeats]
  · rw [htrace, sentBeats_append, List.length_append, ← h.sent i, ringHistory_snoc]
    by_cases hij : j = i <;> simp [RingHistory.after, hij, sentBeats]

/-- A new client comes with an empty ring. -/
theorem RingLedger.enroll {s : RuruLoop σ υ} (h : s.RingLedger log) {client : RuruClient σ}
    (empty : client.heartBeatRing.elements = []) (size : client.heartBeatRing.cap = 100)
    {s' : RuruLoop σ υ} (clients : s'.clientMgr_ = s.clientMgr_ ++ [client])
    (trace : s'.trace = s.trace ++ [.registered s.clientMgr_.length client.address]) :
    s'.RingLedger (log ++ [.registered s.clientMgr_.length]) := by
  have hrings : s'.rings = s.rings ++ [client.heartBeatRing] := by
    rw [rings, clients, List.map_append]
    rfl
  have hbeats : s'.trace.filter Effect.isBeat = s.trace.filter Effect.isBeat := by
    rw [trace, List.filter_append]
    exact List.append_nil _
  have hlen : s.rings.length = s.clientMgr_.length := List.length_map _
  refine ⟨fun r hr => ?_, h.ledger.congr hbeats (waitingBeats_keeps ⟨[client.heartBeatRing], hrings,
    by simpa using ⟨empty, size⟩⟩), fun i => ?_, fun i => ?_, fun i => ?_⟩
  · rw [hrings] at hr
    rcases List.mem_append.mp hr with hold | hnew
    · exact h.cap r hold
    · rw [List.mem_singleton.mp hnew]
      exact size
  · rw [hrings, List.length_append, List.length_singleton, hlen, ringHistory_snoc, RingHistory.after]
    split_ifs with hi
    · subst hi
      simp
    · rw [h.live i, hlen]
      exact decide_eq_decide.mpr (by omega)
  · rw [← storedBeats_filter i s'.trace, hbeats, storedBeats_filter, ← h.kept i, ringHistory_snoc,
      RingHistory.after]
    split_ifs <;> rfl
  · rw [← sentBeats_filter i s'.trace, hbeats, sentBeats_filter, ← h.sent i, ringHistory_snoc,
      RingHistory.after]
    split_ifs <;> rfl

/-! ### The callbacks, and the exchanges -/

theorem isHeartBeat_iff {data : List UInt8} (hlen : sizeofSctpHeader ≤ data.length) :
    isHeartBeat data = true ↔ HeartBeatPacket data := by
  have h12 : 12 < data.length := lt_of_lt_of_le (by decide) hlen
  have h16 : 16 ≤ data.length := hlen
  simp [isHeartBeat, chunktypeOffset, HeartBeatPacket, List.getElem?_eq_getElem h12, h16]

/-- A callback does to the rings what its entry in the history says. -/
theorem RingLedger.callback {s : RuruLoop σ υ} (h : s.RingLedger log) (cb : SctpCallback) :
    (s.callback env cb).RingLedger (log ++ [.callback cb]) := by
  cases cb with
  | inbound ulpInfo data rcv =>
    have hkept : s.RingLedger (log ++ [.callback (.inbound ulpInfo data rcv)]) := h.ignore fun _ => rfl
    show (s.pushClientRecvData ulpInfo data rcv).RingLedger _
    rcases pushClientRecvData_cases s ulpInfo data rcv with he | ⟨p, arena, -, -, he⟩
    · rw [he]
      exact hkept
    · rw [he]
      exact hkept.congr (by simp [RuruLoop.push, Effect.isBeat]) rfl
  | outbound addr data =>
    show (s.onSctpOutboundPacket env addr data).RingLedger _
    unfold onSctpOutboundPacket
    by_cases hlen : data.length < sizeofSctpHeader
    · rw [if_pos hlen]
      refine h.ignore fun i => if_neg ?_
      rintro ⟨-, -, ⟨h16, -⟩, -⟩
      exact absurd h16 (not_le.mpr hlen)
    · rw [if_neg hlen]
      cases hi : s.clientMgr_[addr]? with
      | none =>
        -- nobody is registered under that number
        refine h.ignore fun i => if_neg ?_
        rintro ⟨rfl, hlive, -⟩
        obtain ⟨client, hclient⟩ := (h.live_iff addr).mp hlive
        exact absurd (hi.symm.trans hclient) (by simp)
      | some client =>
        have hbeat := isHeartBeat_iff (not_lt.mp hlen)
        dsimp only
        split_ifs with hb
        · exact h.store hi (hbeat.mp hb)
        · have hkept : s.RingLedger (log ++ [.callback (.outbound addr data)]) :=
            h.ignore fun i => if_neg fun hall => hb (hbeat.mpr hall.2.2.1)
          have haside : Aside true s (s.clientSendData env addr data) :=
            aside_clientSendData env s addr data
          exact hkept.congr haside.beats haside.1.rings

theorem RingLedger.callbacks {s : RuruLoop σ υ} (h : s.RingLedger log) (cbs : List SctpCallback) :
    (s.callbacks env cbs).RingLedger (log ++ cbs.map .callback) := by
  induction cbs generalizing s log with
  | nil =>
    rw [List.map_nil, List.append_nil]
    exact h
  | cons cb cbs ih =>
    have hrest := ih (h.callback env cb)
    rw [List.append_assoc] at hrest
    exact hrest

/-- What the callbacks do shows none of the events of the history. -/
theorem CallbackWork.silent {s s' : RuruLoop σ υ} (h : CallbackWork s s') :
    ∃ es, s'.trace = s.trace ++ es ∧ es.flatMap Effect.ringEvents = [] := by
  obtain ⟨es, he, hes⟩ := h.effects
  refine ⟨es, he, ringEvents_eq_nil fun e hmem => ?_⟩
  have hwork := hes e hmem
  cases e with
  | usrsctp | beatSend | registered => exact absurd hwork (by simp [Effect.isCallbackWork])
  | _ => rfl

/-- The step lemma: an exchange keeps the ledger with the history that its effects show. -/
theorem Exchange.ringLedger {fixed : Bool} {s s' : RuruLoop σ υ} (hx : Exchange env fixed s s')
    (h : s.RingLedger log) : ∃ es, s'.trace = s.trace ++ es ∧
      s'.RingLedger (log ++ es.flatMap Effect.ringEvents) := by
  cases hx with
  | aside aside =>
    have hkept : s'.RingLedger log := h.congr aside.beats aside.1.rings
    obtain ⟨-, es, trace, plain⟩ := aside
    have hnone : es.flatMap Effect.ringEvents = [] := ringEvents_eq_nil fun e he => by
      have hp := plain e he
      cases e with
      | usrsctp | beatSend | registered => exact absurd hp (by simp [Effect.isAside])
      | _ => rfl
    refine ⟨es, trace, ?_⟩
    rw [hnone, List.append_nil]
    exact hkept
  | @called t apart i calls trace =>
    obtain ⟨es, hes, hsilent⟩ :=
      (work_callbacks env t (calls.flatMap UsrsctpCall.callbacks)).silent
    have hbeats : t.trace.filter Effect.isBeat = s.trace.filter Effect.isBeat := by
      rw [trace, List.filter_append, beats_eq_nil (isPlain_usrsctp i calls), List.append_nil]
    refine ⟨calls.map (Effect.usrsctp i) ++ es, by rw [hes, trace, List.append_assoc], ?_⟩
    rw [List.flatMap_append, hsilent, List.append_nil, ringEvents_usrsctp]
    exact (h.congr hbeats apart.rings).callbacks env _
  | @scan i known =>
    refine ⟨[.push (cacheWake i) none], rfl, ?_⟩
    show RingLedger (log ++ []) _
    rw [List.append_nil]
    exact h.congr (by simp [RuruLoop.push, Effect.isBeat]) rfl
  | take known read => exact ⟨_, trace_takeBeat .., h.take known read⟩
  | enroll empty size => exact ⟨_, rfl, h.enroll empty size rfl rfl⟩

/-- The run lemma. -/
theorem Exchanges.ringLedger {fixed : Bool} {s s' : RuruLoop σ υ} (hx : Exchanges env fixed s s')
    (h : s.RingLedger log) : ∃ es, s'.trace = s.trace ++ es ∧
      s'.RingLedger (log ++ es.flatMap Effect.ringEvents) := by
  induction hx with
  | refl => exact ⟨[], (List.append_nil _).symm, by simpa using h⟩
  | tail _ hlast ih =>
    obtain ⟨es, he, hes⟩ := ih
    obtain ⟨es', he', hes'⟩ := hlast.ringLedger env hes
    refine ⟨es ++ es', by rw [he', he, List.append_assoc], ?_⟩
    rw [List.flatMap_append, ← List.append_assoc]
    exact hes'

/-! ### The events -/

/-- An event is queued for every ring that is not empty, except for the client `but`. -/
def StrandedAtMost (but : Option ℕ) (s : RuruLoop σ υ) : Prop :=
  ∀ i, some i ≠ but → s.waitingBeats i ≠ [] → s.BeatWake i

/-- Pushing an event takes none away. -/
theorem BeatWake.push {s s' : RuruLoop σ υ} {i : ℕ} (h : s.BeatWake i) {new : List RuruEvent}
    (que : s'.que_ = s.que_ ++ new) : s'.BeatWake i := by
  obtain ⟨evt, hmem, hevt⟩ := h
  exact ⟨evt, by rw [que]; exact List.mem_append_left _ hmem, hevt⟩

theorem StrandedAtMost.push {s s' : RuruLoop σ υ} {but : Option ℕ} (h : s.StrandedAtMost but)
    (new : List RuruEvent) (que : s'.que_ = s.que_ ++ new)
    (waiting : ∀ i, s'.waitingBeats i ≠ [] → s.waitingBeats i ≠ []) : s'.StrandedAtMost but :=
  fun i hi hw => (h i hi (waiting i hw)).push que

theorem Moves.strandedAtMost {fixed : Bool} {s s' : RuruLoop σ υ} (hm : Moves fixed s s')
    {but : Option ℕ} (h : s.StrandedAtMost but) : s'.StrandedAtMost but := by
  refine hm.invariant (fun s s' hs hmove => ?_) h
  cases hmove with
  | quiet que arena history beats rings sockets cons =>
    refine hs.push [] (by rw [que, List.append_nil]) fun i hw => ?_
    rwa [waitingBeats_keeps rings i] at hw
  | scan known => exact hs.push _ rfl fun _ hw => hw
  | @store j client known data =>
    intro i hi hw
    by_cases hij : j = i
    · subst hij
      exact ⟨{ type := .evtHeartBeat, client := some j }, by simp, rfl, rfl⟩
    · have hsame : (s.storeBeat j client.heartBeatRing data).waitingBeats i = s.waitingBeats i := by
        rw [waitingBeats_setRing known rfl i, if_neg hij]
      exact (hs i hi (hsame ▸ hw)).push rfl
  | @take j client known beat ring read =>
    refine hs.push [] (by simp) fun i hw => ?_
    by_cases hij : j = i
    · subst hij
      rw [waitingBeats_takeBeat known read]
      simp
    · rwa [waitingBeats_setRing (s := s) known rfl i, if_neg hij] at hw
  | recv i data rcv =>
    rcases pushClientRecvData_cases s i data rcv with he | ⟨p, arena, -, -, he⟩
    · rw [he]
      exact hs
    · rw [he]
      exact hs.push _ rfl fun _ hw => hw

/-! ### Emptying a ring -/

/-- A round for every element empties the ring. -/
theorem waitingBeats_sendBeats {fuel : ℕ} {s : RuruLoop σ υ} {i : ℕ}
    (hfuel : (s.waitingBeats i).length ≤ fuel) : (s.sendBeats env fuel i).waitingBeats i = [] := by
  induction fuel generalizing s with
  | zero => exact List.eq_nil_of_length_eq_zero (Nat.le_zero.mp hfuel)
  | succ fuel ih =>
    unfold sendBeats
    cases hi : s.clientMgr_[i]? with
    | none => simp [waitingBeats, rings, hi]
    | some client =>
      rcases client.heartBeatRing.ringBufRead_cases with ⟨beat, ring, hr, -, -⟩ | ⟨hr, hel⟩
      · simp only [hr]
        apply ih
        have hsent : ((s.takeBeat i beat ring).clientSendData env i
            (beat.data.take beat.length)).waitingBeats i = (s.takeBeat i beat ring).waitingBeats i := by
          have haside : Aside true (s.takeBeat i beat ring) _ :=
            aside_clientSendData env (s.takeBeat i beat ring) i (beat.data.take beat.length)
          rw [waitingBeats, haside.1.rings, waitingBeats]
        rw [waitingBeats_takeBeat hi hr, List.length_cons] at hfuel
        show (((s.takeBeat i beat ring).clientSendData env i _).waitingBeats i).length ≤ fuel
        rw [hsent]
        omega
      · simp only [hr]
        rw [waitingBeats_of_client hi, hel]

theorem waitingBeats_clientSendHeartBeatData (s : RuruLoop σ υ) (i : ℕ) :
    (s.clientSendHeartBeatData env i).waitingBeats i = [] := by
  unfold clientSendHeartBeatData
  cases hi : s.clientMgr_[i]? with
  | none => simp [waitingBeats, rings, hi]
  | some client =>
    apply waitingBeats_sendBeats
    rw [waitingBeats_of_client hi]
    exact Nat.le_of_lt client.heartBeatRing.length_elements_lt

/-- Acting on an event that is dequeued. -/
theorem NoneStranded.handleEvent {s : RuruLoop σ υ} (h : s.NoneStranded) {front : RuruEvent}
    {rest : List RuruEvent} (hq : s.que_ = front :: rest) :
    (({ s with que_ := rest } : RuruLoop σ υ).handleEvent env front).NoneStranded := by
  intro i hw
  set t : RuruLoop σ υ := { s with que_ := rest } with ht
  by_cases hfront : front.type = .evtHeartBeat ∧ front.client = some i
  · have hdrained : (t.handleEvent env front).waitingBeats i = [] := by
      rw [RuruLoop.handleEvent, hfront.1]
      dsimp only
      rw [sendHeartBeat, hfront.2]
      exact waitingBeats_clientSendHeartBeatData env t i
    exact absurd hdrained hw
  · have hrest : t.StrandedAtMost (if front.type = .evtHeartBeat then front.client else none) := by
      intro j hj hwait
      obtain ⟨evt, hmem, htype, hclient⟩ := h j hwait
      rw [hq] at hmem
      rcases List.mem_cons.mp hmem with rfl | hmem
      · rw [if_pos htype, hclient] at hj
        exact absurd rfl hj
      · exact ⟨evt, hmem, htype, hclient⟩
    have hm : Moves false t (t.handleEvent env front) := moves_handleEvent env t front
    refine hm.strandedAtMost hrest i ?_ hw
    split_ifs with htype
    · exact fun heq => hfront ⟨htype, heq.symm⟩
    · simp

end RuruLoop

/-! ### Runs -/

namespace EchoServer

/-- A step is a sequence of moves; or it acts on an event it dequeues; or it resets the arena first. -/
theorem step_cases {st st' : EchoServer σ υ} {input : EchoInput} (hs : Step env st input st') :
    RuruLoop.Moves false st.ruru st'.ruru ∨
      (∃ front rest, st.ruru.que_ = front :: rest ∧
        st'.ruru = ({ st.ruru with que_ := rest } : RuruLoop σ υ).handleEvent env front) ∨
      (st.ruru.que_ = [] ∧ RuruLoop.Moves false st.ruru.resetArena st'.ruru) := by
  cases input with
  | callback cb =>
    obtain rfl := Option.some.inj hs
    exact Or.inl (RuruLoop.moves_callback env st.ruru cb)
  | turn fuel batch =>
    obtain ⟨⟨haveData, evt, ruru⟩, hl, rfl⟩ := Option.map_eq_some_iff.mp hs
    rcases RuruLoop.loop_cases env hl with ⟨rest, hq, hdata, hruru⟩ | ⟨hq, -, hm⟩
    · refine Or.inr (Or.inl ⟨evt, rest, hq, ?_⟩)
      rw [hdata, hruru]
      rfl
    · refine Or.inr (Or.inr ⟨hq, ?_⟩)
      cases haveData with
      | false => exact hm
      | true => exact hm.trans (RuruLoop.moves_handleEvent env ruru evt)

theorem step_noneStranded {st st' : EchoServer σ υ} {input : EchoInput}
    (h : st.ruru.NoneStranded) (hs : Step env st input st') : st'.ruru.NoneStranded := by
  have hmoves : ∀ {s s' : RuruLoop σ υ}, RuruLoop.Moves false s s' → s.NoneStranded →
      s'.NoneStranded := by
    intro s s' hm hs i
    have hall : s.StrandedAtMost none := fun j _ => hs j
    exact hm.strandedAtMost hall i (by simp)
  rcases step_cases env hs with hm | ⟨front, rest, hq, he⟩ | ⟨-, hm⟩
  · exact hmoves hm h
  · rw [he]
    exact h.handleEvent env hq
  · exact hmoves hm h

/-- The server with the history of its rings: a step adds what it is given and what its effects
show. -/
def Logged (o : EchoServer σ υ × List RingEvent) (input : EchoInput)
    (o' : EchoServer σ υ × List RingEvent) : Prop :=
  Step env o.1 input o'.1 ∧ o'.2 = o.2 ++ (input.ringEvents ++
    (o'.1.ruru.trace.drop o.1.ruru.trace.length).flatMap Effect.ringEvents)

/-- Every run has a history. -/
theorem exists_logged {st st' : EchoServer σ υ} {inputs : List EchoInput}
    (h : Lts.Path (Step env) st inputs st') (log : List RingEvent) :
    ∃ log', Lts.Path (Logged env) (st, log) inputs (st', log') := by
  induction inputs generalizing st log with
  | nil => exact ⟨log, congrArg (·, log) h⟩
  | cons input inputs ih =>
    obtain ⟨t, hs, hrest⟩ := h
    obtain ⟨log', hlog⟩ := ih hrest (log ++ (input.ringEvents ++
      (t.ruru.trace.drop st.ruru.trace.length).flatMap Effect.ringEvents))
    exact ⟨log', (t, _), ⟨hs, rfl⟩, hlog⟩

/-- The step lemma for the server. -/
theorem step_ringLedger {o o' : EchoServer σ υ × List RingEvent} {input : EchoInput}
    (h : o.1.ruru.RingLedger o.2) (hs : Logged env o input o') : o'.1.ruru.RingLedger o'.2 := by
  obtain ⟨hstep, hlog⟩ := hs
  have hdone : ∀ {es : List Effect}, o'.1.ruru.trace = o.1.ruru.trace ++ es →
      o'.2 = o.2 ++ (input.ringEvents ++ es.flatMap Effect.ringEvents) := by
    intro es hes
    rw [hlog, hes, List.drop_left]
  cases input with
  | callback cb =>
    obtain ⟨es, he, hsilent⟩ := (RuruLoop.work_callback env o.1.ruru cb).silent
    have hruru : o.1.ruru.callback env cb = o'.1.ruru :=
      congrArg EchoServer.ruru (Option.some.inj hstep)
    rw [hruru] at he
    rw [hdone he, hsilent, List.append_nil, ← hruru]
    exact h.callback env cb
  | turn fuel batch =>
    have hturn : ∀ {s : RuruLoop σ υ}, s.trace = o.1.ruru.trace → s.rings = o.1.ruru.rings →
        RuruLoop.Exchanges env false s o'.1.ruru → o'.1.ruru.RingLedger o'.2 := by
      intro s htrace hrings hx
      obtain ⟨es, he, hes⟩ := hx.ringLedger env (h.congr (by rw [htrace]) hrings)
      rw [hdone (he.trans (by rw [htrace]))]
      exact hes
    obtain ⟨⟨haveData, evt, ruru⟩, hl, hafter⟩ := Option.map_eq_some_iff.mp hstep
    rcases RuruLoop.loop_exchanges env hl with ⟨rest, hq, rfl, rfl⟩ | ⟨hq, -, hx⟩
    · refine hturn (s := { o.1.ruru with que_ := rest }) rfl rfl ?_
      rw [← hafter]
      exact RuruLoop.exchanges_handleEvent env _ evt
    · refine hturn (s := o.1.ruru.resetArena) rfl rfl ?_
      rw [← hafter]
      cases haveData with
      | false => exact hx
      | true => exact hx.trans (RuruLoop.exchanges_handleEvent env ruru evt)

/-- **No heartbeat is stranded, reordered or sent twice.**  In every state that the example server
reaches, whatever callbacks come between its turns and in them: a ring that is not empty has an event
queued; and as long as no heartbeat that a ring took in was longer than 1024 bytes, the heartbeats
sent for a client, followed by those in its ring, are those that usrsctp emitted for it except when
the ring held 99. -/
theorem heartbeats_once (this : LoopId) (udpfd tcpfd : ℤ) (memory : ℕ → UInt8) (usr : υ)
    (nextSock : Sock) (count : ℤ) (inputs : List EchoInput) :
    Lts.Always (Logged env)
      (fun o => o.1.ruru.NoneStranded ∧ (RuruLoop.KeptShort o.2 → o.1.ruru.BeatsOnce o.2))
      ({ ruru := .constructed this udpfd tcpfd memory usr nextSock count }, []) inputs := by
  refine Lts.always_iff_prefix.mpr fun pre post _ o hpath => ⟨?_, fun hshort => ?_⟩
  · refine hpath.invariant (P := fun o => o.1.ruru.NoneStranded)
      (fun _ _ _ hP hs => step_noneStranded env hP hs.1) fun i hw => ?_
    exact absurd rfl hw
  · have hledger : o.1.ruru.RingLedger o.2 := by
      refine hpath.invariant (P := fun o => o.1.ruru.RingLedger o.2)
        (fun _ _ _ hP hs => step_ringLedger env hP hs) ?_
      refine ⟨?_, fun i => rfl, fun i => rfl, fun i => rfl, fun i => rfl⟩
      intro r hr
      simp [RuruLoop.constructed, RuruLoop.rings] at hr
    exact hledger.beatsOnce hshort

end EchoServer

end Ruru
