import Ruru.PlainLibs
import Ruru.Runs

/-!
# Ruru.HeartBeat — the way of a heartbeat through its ring

For each client the heartbeats passed to `ClientSendData`, followed by those in its ring, are what
`HeartBeatData` keeps of the packets stored, in order and once each.  `HeartBeatData` keeps a packet
exactly if its length is at most 1024.
-/

namespace Ruru

open Relation

variable {σ υ : Type} (env : Env σ υ)

/-- The packets copied for client `i` and stored in its ring. -/
def storedBeats (i : ℕ) (trace : List Effect) : List (List UInt8) :=
  trace.filterMap fun
    | .beatCopy j data true => if j = i then some data else none
    | _ => none

/-- What `ClientSendHeartBeatData` passed to `ClientSendData` for client `i`: bytes and length. -/
def sentBeats (i : ℕ) (trace : List Effect) : List (List UInt8 × ℕ) :=
  trace.filterMap fun
    | .beatSend j data length => if j = i then some (data, length) else none
    | _ => none

/-- What `ClientSendHeartBeatData` will pass for a stored element. -/
def HeartBeatData.passed (beat : HeartBeatData) : List UInt8 × ℕ :=
  (beat.data.take beat.length, beat.length)

/-- An element keeps its packet exactly if the packet fits the array. -/
theorem passed_heartBeatData_iff (data : List UInt8) :
    (RuruLoop.heartBeatData data).passed = (data, data.length) ↔ data.length ≤ 1024 := by
  simp only [HeartBeatData.passed, RuruLoop.heartBeatData, Prod.mk.injEq]
  constructor
  · rintro ⟨hdata, hlen⟩
    have h := congrArg List.length hdata
    rw [List.length_take, List.length_take] at h
    omega
  · intro h
    have hlen : toUint16 data.length = data.length := (toUint16_eq_iff _).mpr (by omega)
    rw [hlen]
    exact ⟨by rw [List.take_of_length_le h, List.take_length], rfl⟩

namespace RuruLoop

/-- What is in the ring of client `i`. -/
def waitingBeats (s : RuruLoop σ υ) (i : ℕ) : List HeartBeatData :=
  ((s.rings[i]?).map (·.elements)).getD []

/-- For every client: sent, then waiting, is what the elements keep of the packets stored. -/
def BeatLedger (s : RuruLoop σ υ) : Prop :=
  ∀ i, sentBeats i s.trace ++ (s.waitingBeats i).map (·.passed) =
    (storedBeats i s.trace).map fun data => (heartBeatData data).passed

/-! ### What the ledger depends on -/

@[simp] theorem storedBeats_append (i : ℕ) (a b : List Effect) :
    storedBeats i (a ++ b) = storedBeats i a ++ storedBeats i b := List.filterMap_append

@[simp] theorem sentBeats_append (i : ℕ) (a b : List Effect) :
    sentBeats i (a ++ b) = sentBeats i a ++ sentBeats i b := List.filterMap_append

/-- Only the effects about heartbeats count. -/
theorem storedBeats_filter (i : ℕ) (trace : List Effect) :
    storedBeats i (trace.filter Effect.isBeat) = storedBeats i trace := by
  rw [storedBeats, List.filterMap_filter]
  refine List.filterMap_congr fun e _ => ?_
  cases e <;> simp [Effect.isBeat]

theorem sentBeats_filter (i : ℕ) (trace : List Effect) :
    sentBeats i (trace.filter Effect.isBeat) = sentBeats i trace := by
  rw [sentBeats, List.filterMap_filter]
  refine List.filterMap_congr fun e _ => ?_
  cases e <;> simp [Effect.isBeat]

theorem BeatLedger.congr {s s' : RuruLoop σ υ} (h : s.BeatLedger)
    (beats : s'.trace.filter Effect.isBeat = s.trace.filter Effect.isBeat)
    (waiting : ∀ i, s'.waitingBeats i = s.waitingBeats i) : s'.BeatLedger := by
  intro i
  rw [← sentBeats_filter, ← storedBeats_filter, beats, sentBeats_filter, storedBeats_filter,
    waiting i]
  exact h i

theorem waitingBeats_keeps {s s' : RuruLoop σ υ} (h : KeepsRings s s') (i : ℕ) :
    s'.waitingBeats i = s.waitingBeats i := by
  obtain ⟨fresh, hr, he⟩ := h
  unfold waitingBeats
  rw [hr]
  by_cases hi : i < s.rings.length
  · rw [List.getElem?_append_left hi]
  · rw [List.getElem?_append_right (by omega), List.getElem?_eq_none (l := s.rings) (by omega)]
    cases hf : fresh[i - s.rings.length]? with
    | none => rfl
    | some r => simp [(he r (List.mem_of_getElem? hf)).1]

/-- Replacing the ring of a client changes what waits for that client only. -/
theorem waitingBeats_setRing {s s' : RuruLoop σ υ} {j : ℕ} {client : RuruClient σ}
    (hj : s.clientMgr_[j]? = some client) {ring : RuruRingBuf HeartBeatData}
    (hs' : s'.clientMgr_ = s.clientMgr_.modify j fun c => { c with heartBeatRing := ring }) (i : ℕ) :
    s'.waitingBeats i = if j = i then ring.elements else s.waitingBeats i := by
  simp only [waitingBeats, rings, hs', List.getElem?_map, List.getElem?_modify]
  by_cases hij : j = i
  · subst hij
    simp [hj]
  · simp [hij]

theorem waitingBeats_of_client {s : RuruLoop σ υ} {j : ℕ} {client : RuruClient σ}
    (hj : s.clientMgr_[j]? = some client) : s.waitingBeats j = client.heartBeatRing.elements := by
  simp [waitingBeats, rings, hj]

theorem waitingBeats_takeBeat {s : RuruLoop σ υ} {j : ℕ} {client : RuruClient σ}
    (hj : s.clientMgr_[j]? = some client) {beat : HeartBeatData} {ring : RuruRingBuf HeartBeatData}
    (hread : client.heartBeatRing.ringBufRead = (some beat, ring)) :
    s.waitingBeats j = beat :: (s.takeBeat j beat ring).waitingBeats j := by
  have htaken : (s.takeBeat j beat ring).waitingBeats j = ring.elements :=
    (waitingBeats_setRing (s := s) hj rfl j).trans (if_pos rfl)
  rw [htaken, waitingBeats_of_client hj, (RuruRingBuf.ringBufRead_some hread).1]

/-! ### The moves -/

theorem BeatLedger.store {s : RuruLoop σ υ} (h : s.BeatLedger) {j : ℕ} {client : RuruClient σ}
    (hj : s.clientMgr_[j]? = some client) (data : List UInt8) :
    (s.storeBeat j client.heartBeatRing data).BeatLedger := by
  intro i
  have hwait : (s.storeBeat j client.heartBeatRing data).waitingBeats i =
      if j = i then (client.heartBeatRing.ringBufWrite (heartBeatData data)).2.elements
      else s.waitingBeats i := waitingBeats_setRing hj rfl i
  have hsent : sentBeats i (s.storeBeat j client.heartBeatRing data).trace = sentBeats i s.trace := by
    simp [sentBeats]
  have hstored : storedBeats i (s.storeBeat j client.heartBeatRing data).trace =
      storedBeats i s.trace ++
        if (client.heartBeatRing.ringBufWrite (heartBeatData data)).1 ∧ j = i then [data] else [] := by
    cases hb : (client.heartBeatRing.ringBufWrite (heartBeatData data)).1 <;>
      by_cases hij : j = i <;>
      simp [storedBeats, hb, hij]
  rw [hwait, hsent, hstored]
  by_cases hij : j = i
  · subst hij
    have hled := h j
    rw [waitingBeats_of_client hj] at hled
    rcases client.heartBeatRing.ringBufWrite_cases (heartBeatData data) with
      ⟨r, hw, hel, -, -⟩ | ⟨hw, -⟩
    · simp [hw, hel, ← hled]
    · simp [hw, hled]
  · simp [hij, h i]

theorem BeatLedger.take {s : RuruLoop σ υ} (h : s.BeatLedger) {j : ℕ} {client : RuruClient σ}
    (hj : s.clientMgr_[j]? = some client) {beat : HeartBeatData} {ring : RuruRingBuf HeartBeatData}
    (hread : client.heartBeatRing.ringBufRead = (some beat, ring)) :
    (s.takeBeat j beat ring).BeatLedger := by
  intro i
  have hstored : storedBeats i (s.takeBeat j beat ring).trace = storedBeats i s.trace := by
    simp [storedBeats]
  have hsent : sentBeats i (s.takeBeat j beat ring).trace =
      sentBeats i s.trace ++ if j = i then [beat.passed] else [] := by
    by_cases hij : j = i <;>
      simp [sentBeats, hij, HeartBeatData.passed]
  rw [hsent, hstored, ← h i]
  by_cases hij : j = i
  · subst hij
    rw [waitingBeats_takeBeat hj hread]
    simp
  · rw [waitingBeats_setRing (s := s) hj rfl i]
    simp [hij]

theorem Moves.beatLedger {fixed : Bool} {s s' : RuruLoop σ υ} (hm : Moves fixed s s')
    (h : s.BeatLedger) : s'.BeatLedger := by
  refine hm.invariant (fun s s' hs hmove => ?_) h
  cases hmove with
  | quiet que arena history beats rings sockets cons => exact hs.congr beats (waitingBeats_keeps rings)
  | scan known => exact hs.congr (by simp [RuruLoop.push, Effect.isBeat]) fun _ => rfl
  | store known data => exact hs.store known data
  | take known read => exact hs.take known read
  | recv i data rcv =>
    rcases pushClientRecvData_cases s i data rcv with he | ⟨p, arena, -, -, he⟩
    · rw [he]
      exact hs
    · rw [he]
      exact hs.congr (by simp [RuruLoop.push, Effect.isBeat]) fun _ => rfl

/-! ### Runs -/

/-- Every packet stored went, or will go, to `ClientSendData` with its bytes and its length, in order
and once, and the copy made of it stayed inside `HeartBeatData::data`. -/
def BeatsIntact (s : RuruLoop σ υ) : Prop :=
  ∀ i, sentBeats i s.trace ++ (s.waitingBeats i).map (·.passed) =
      (storedBeats i s.trace).map (fun data => (data, data.length)) ∧
    ∀ data ∈ storedBeats i s.trace, data.length ≤ (heartBeatData data).data.length

/-- No packet longer than 1024 bytes was stored. -/
def BeatsShort (s : RuruLoop σ υ) : Prop :=
  ∀ i, ∀ data ∈ storedBeats i s.trace, data.length ≤ 1024

theorem BeatLedger.intact_iff {s : RuruLoop σ υ} (h : s.BeatLedger) :
    s.BeatsIntact ↔ s.BeatsShort := by
  refine forall_congr' fun i => ?_
  rw [h i, List.map_inj_left]
  simp only [passed_heartBeatData_iff]
  refine ⟨fun hh => hh.1, fun hh => ⟨hh, fun data hd => ?_⟩⟩
  simpa [heartBeatData] using hh data hd

end RuruLoop

/-- **Heartbeats.**  In every state of every run of a constructed loop, the heartbeats are intact
exactly if no packet stored was longer than 1024 bytes. -/
theorem beats_intact_iff_short (this : LoopId) (udpfd tcpfd : ℤ) (memory : ℕ → UInt8) (usr : υ)
    (nextSock : Sock) (count : ℤ) (inputs : List LoopInput) :
    Lts.Always (PolledLoop.Step env) (fun st => st.ruru.BeatsIntact ↔ st.ruru.BeatsShort)
      { ruru := .constructed this udpfd tcpfd memory usr nextSock count } inputs := by
  have hledger : Lts.Always (PolledLoop.Step env) (fun st => st.ruru.BeatLedger)
      { ruru := .constructed this udpfd tcpfd memory usr nextSock count } inputs := by
    refine PolledLoop.always_of_moves env (fun hP hm => hm.beatLedger hP) (fun _ hP => hP)
      (fun hP => hP) ?_ inputs
    intro i
    rfl
  exact hledger.mono fun st h => h.intact_iff

/-- A registration, and then a HEARTBEAT-ACK of 1040 bytes for its client. -/
def longBeatInputs : List LoopInput :=
  [.loop 0 {} acceptBatch, .loop 0 {} requestBatch,
    .callback (.outbound 0 (List.replicate 12 0 ++ 5 :: List.replicate 1027 0))]

/-- The copy of that packet leaves `HeartBeatData::data`. -/
theorem long_beat_not_intact :
    ¬Lts.Always (PolledLoop.Step plainEnv) (fun st => st.ruru.BeatsIntact)
      { ruru := .constructed 0 3 4 (fun _ => 0) [] 0 1 } longBeatInputs := by
  intro h
  have key : ((longBeatInputs.foldlM (PolledLoop.step plainEnv)
      { ruru := .constructed 0 3 4 (fun _ => 0) [] 0 1 }).map fun st =>
        (storedBeats 0 st.ruru.trace).map List.length) = some [1040] := by
    decide +kernel
  obtain ⟨st, hst, hlen⟩ := Option.map_eq_some_iff.mp key
  have hin : st.ruru.BeatsIntact :=
    Lts.always_iff_prefix.mp h longBeatInputs [] (by simp) st (Lts.path_iff_foldlM.mpr hst)
  obtain ⟨data, hdata, hd⟩ : ∃ data ∈ storedBeats 0 st.ruru.trace, data.length = 1040 :=
    List.mem_map.mp (by rw [hlen]; exact List.mem_singleton.mpr rfl)
  have hcopy := (hin 0).2 data hdata
  have hfits := (RuruLoop.heartBeatData data).fits
  omega

end Ruru
