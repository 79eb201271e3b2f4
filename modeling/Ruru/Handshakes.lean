import Ruru.ClientWork
import Ruru.HeartBeatWakes
import Ruru.Lib.History
import Ruru.PlainLibs

/-!
# Ruru.Handshakes — the order of the two handshakes of a client

The flag of the SCTP transport is raised by data that DTLS has decrypted, and usrsctp emits packets
for a client only once such data was passed to it.  So from the registration of a client on, its DTLS
flag is up before usrsctp has anything to send, and `ClientSendData` drops nothing.
-/

namespace Ruru

open History

variable {σ υ : Type} (env : Env σ υ)

/-! ### Histories -/

/-- `usrsctp_sendv`. -/
def UsrsctpFn.isSendv : UsrsctpFn → Bool
  | .sendv .. => true
  | _ => false

/-- `usrsctp_conninput` or `usrsctp_sendv`, which make usrsctp emit packets. -/
def UsrsctpFn.talks : UsrsctpFn → Bool
  | .conninput _ | .sendv .. => true
  | _ => false

/-- A call made for client `i` that makes usrsctp emit packets. -/
def Effect.talksFor (i : ℕ) : Effect → Bool
  | .usrsctp j call => j == i && call.fn.talks
  | _ => false

def Effect.sendsFor (i : ℕ) : Effect → Bool
  | .usrsctp j call => j == i && call.fn.isSendv
  | _ => false

/-- `ClientSendData` drops data of client `i`. -/
def Effect.dropsFor (i : ℕ) : Effect → Bool
  | .dropped j _ => j == i
  | _ => false

/-- The callbacks made during the call. -/
def Effect.callbacks : Effect → List SctpCallback
  | .usrsctp _ call => call.callbacks
  | _ => []

def Talked (i : ℕ) (trace : List Effect) : Prop := ∃ e ∈ trace, e.talksFor i = true

/-- DTLS data of client `i` has been read. -/
def DataRead (i : ℕ) (trace : List Effect) : Prop := ∃ data, Effect.dtlsData i data ∈ trace

/-- usrsctp emits packets for client `i` only during or after a call made for it that makes it talk. -/
def EmitsInTurn (i : ℕ) (trace : List Effect) : Prop :=
  Justified (fun past e => (∃ data, .outbound i data ∈ e.callbacks) → Talked i (past ++ [e])) trace

/-- `usrsctp_sendv` is called for client `i` only after DTLS data was read. -/
def ReadFirst (i : ℕ) (trace : List Effect) : Prop :=
  Justified (fun past e => e.sendsFor i = true → DataRead i past) trace

variable {i : ℕ}

theorem Talked.append {trace : List Effect} (h : Talked i trace) (es : List Effect) :
    Talked i (trace ++ es) := by
  obtain ⟨e, he, htalks⟩ := h
  exact ⟨e, List.mem_append_left _ he, htalks⟩

theorem DataRead.append {trace : List Effect} (h : DataRead i trace) (es : List Effect) :
    DataRead i (trace ++ es) := by
  obtain ⟨data, hdata⟩ := h
  exact ⟨data, List.mem_append_left _ hdata⟩

/-- A call that calls back for client `i` is made when usrsctp has talked for it. -/
theorem EmitsInTurn.talked {trace : List Effect} (h : EmitsInTurn i trace) {e : Effect}
    (he : e ∈ trace) {data : List UInt8} (hdata : .outbound i data ∈ e.callbacks) : Talked i trace := by
  obtain ⟨past, rest, rfl⟩ := List.append_of_mem he
  have htalked : Talked i (past ++ [e]) := h past e rest rfl ⟨data, hdata⟩
  simpa using htalked.append rest

namespace RuruLoop

/-- `dtlsTransport.bHandShakeDone` of client `i`. -/
def dtlsDone (s : RuruLoop σ υ) (i : ℕ) : Bool :=
  (s.clientMgr_[i]?).any fun c => c.dtlsTransport.bHandShakeDone

/-- `sctpTransport.bHandShakeDone` of client `i`. -/
def sctpDone (s : RuruLoop σ υ) (i : ℕ) : Bool :=
  (s.clientMgr_[i]?).any fun c => c.sctpTransport.bHandShakeDone

/-- What is promised of the handshakes of client `i`. -/
structure HandshakesOrdered (i : ℕ) (s : RuruLoop σ υ) : Prop where
  sctp : s.sctpDone i = true → s.dtlsDone i = true
  readFirst : ReadFirst i s.trace
  noneDropped : ∀ e ∈ s.trace, e.dropsFor i = false

/-- The invariant: whatever may make client `i` send has come after its DTLS handshake. -/
structure Layered (i : ℕ) (s : RuruLoop σ υ) : Prop where
  sctp : s.sctpDone i = true → s.dtlsDone i = true ∧ DataRead i s.trace
  talked : Talked i s.trace → s.dtlsDone i = true
  waiting : s.waitingBeats i ≠ [] → s.dtlsDone i = true
  readFirst : ReadFirst i s.trace
  noneDropped : ∀ e ∈ s.trace, e.dropsFor i = false

theorem Layered.ordered {s : RuruLoop σ υ} (h : s.Layered i) : s.HandshakesOrdered i :=
  ⟨fun hsctp => (h.sctp hsctp).1, h.readFirst, h.noneDropped⟩

/-- One step of the invariant, with what has to be known about the flags, the ring and the new
effects. -/
theorem Layered.extend {s s' : RuruLoop σ υ} (h : s.Layered i) (es : List Effect)
    (trace : s'.trace = s.trace ++ es) (dtls : s.dtlsDone i = true → s'.dtlsDone i = true)
    (sctp : s'.sctpDone i = true →
      s.sctpDone i = true ∨ s'.dtlsDone i = true ∧ DataRead i s.trace)
    (waiting : s'.waitingBeats i ≠ [] → s.waitingBeats i ≠ [] ∨ s'.dtlsDone i = true)
    (talks : ∀ e ∈ es, e.talksFor i = true → s'.dtlsDone i = true)
    (sends : ∀ e ∈ es, e.sendsFor i = true → DataRead i s.trace)
    (drops : ∀ e ∈ es, e.dropsFor i = false) : s'.Layered i := by
  constructor
  · intro hs
    rw [trace]
    rcases sctp hs with hold | ⟨hdone, hread⟩
    · exact ⟨dtls (h.sctp hold).1, (h.sctp hold).2.append es⟩
    · exact ⟨hdone, hread.append es⟩
  · rintro ⟨e, he, htalks⟩
    rw [trace] at he
    rcases List.mem_append.mp he with hold | hnew
    · exact dtls (h.talked ⟨e, hold, htalks⟩)
    · exact talks e hnew htalks
  · intro hw
    rcases waiting hw with hold | hdone
    · exact dtls (h.waiting hold)
    · exact hdone
  · rw [trace]
    exact h.readFirst.append fun e he past hsends => (sends e he hsends).append past
  · rw [trace]
    intro e he
    rcases List.mem_append.mp he with hold | hnew
    · exact h.noneDropped e hold
    · exact drops e hnew

/-! ### Keeping the order -/

/-- `s'` comes after `s`: if usrsctp emits in turn, the invariant is kept, and the DTLS flag of client
`i` is not taken down. -/
structure Keeps (i : ℕ) (s s' : RuruLoop σ υ) : Prop where
  grows : ∃ es, s'.trace = s.trace ++ es
  layered : EmitsInTurn i s'.trace → s.Layered i →
    s'.Layered i ∧ (s.dtlsDone i = true → s'.dtlsDone i = true)

theorem Keeps.refl (s : RuruLoop σ υ) : Keeps i s s :=
  ⟨⟨[], (List.append_nil _).symm⟩, fun _ h => ⟨h, id⟩⟩

theorem Keeps.trans {s t u : RuruLoop σ υ} (h : Keeps i s t) (h' : Keeps i t u) : Keeps i s u := by
  obtain ⟨es, he⟩ := h.grows
  obtain ⟨es', he'⟩ := h'.grows
  refine ⟨⟨es ++ es', by rw [he', he, List.append_assoc]⟩, fun hturn hs => ?_⟩
  have hturn' : EmitsInTurn i t.trace := by
    rw [he'] at hturn
    exact hturn.of_append
  obtain ⟨ht, hdone⟩ := h.layered hturn' hs
  obtain ⟨hu, hdone'⟩ := h'.layered hturn ht
  exact ⟨hu, fun hd => hdone' (hdone hd)⟩

/-- What is needed for `Keeps` may be taken from the invariant. -/
theorem Keeps.of_layered {s s' : RuruLoop σ υ} (work : ClientWork s s')
    (h : EmitsInTurn i s'.trace → s.Layered i → Keeps i s s') : Keeps i s s' := by
  obtain ⟨es, he, -⟩ := work.effects
  exact ⟨⟨es, he⟩, fun hturn hs => (h hturn hs).layered hturn hs⟩

/-- An effect that is no concern of the handshakes of client `i`. -/
def Harmless (i : ℕ) (e : Effect) : Prop :=
  e.talksFor i = false ∧ e.sendsFor i = false ∧ e.dropsFor i = false

/-- Flags and rings stay as they are, or the DTLS flag is raised or the SCTP flag taken down. -/
theorem Keeps.of_harmless {s s' : RuruLoop σ υ} (es : List Effect) (trace : s'.trace = s.trace ++ es)
    (harmless : ∀ e ∈ es, Harmless i e) (dtls : s.dtlsDone i = true → s'.dtlsDone i = true)
    (sctp : s'.sctpDone i = true → s.sctpDone i = true)
    (waiting : s'.waitingBeats i ≠ [] → s.waitingBeats i ≠ []) : Keeps i s s' := by
  refine ⟨⟨es, trace⟩, fun _ h => ⟨h.extend es trace dtls (fun hs => Or.inl (sctp hs))
    (fun hw => Or.inl (waiting hw)) ?_ ?_ fun e he => (harmless e he).2.2, dtls⟩⟩
  · intro e he htalks
    exact absurd htalks (by rw [(harmless e he).1]; simp)
  · intro e he hsends
    exact absurd hsends (by rw [(harmless e he).2.1]; simp)

theorem keeps_note (s : RuruLoop σ υ) {e : Effect} (he : Harmless i e) : Keeps i s (s.note e) :=
  .of_harmless [e] rfl (by simpa using he) id id id

/-- The flag of client `i` after client `j` was updated. -/
theorem any_updateClient (s : RuruLoop σ υ) (j : ℕ) (f : RuruClient σ → RuruClient σ)
    (flag : RuruClient σ → Bool) : ((s.updateClient j f).clientMgr_[i]?).any flag =
      if j = i then (s.clientMgr_[i]?).any (fun c => flag (f c)) else (s.clientMgr_[i]?).any flag := by
  rw [updateClient, List.getElem?_modify]
  cases s.clientMgr_[i]? with
  | none => simp
  | some c => by_cases hij : j = i <;> simp [hij]

/-- Updating a client without touching its ring, taking down its DTLS flag or raising its SCTP flag. -/
theorem keeps_updateClient (s : RuruLoop σ υ) (j : ℕ) {f : RuruClient σ → RuruClient σ}
    (dtls : ∀ c, s.clientMgr_[j]? = some c → c.dtlsTransport.bHandShakeDone = true →
      (f c).dtlsTransport.bHandShakeDone = true)
    (sctp : ∀ c, (f c).sctpTransport.bHandShakeDone = true →
      c.sctpTransport.bHandShakeDone = true)
    (ring : ∀ c, (f c).heartBeatRing = c.heartBeatRing) : Keeps i s (s.updateClient j f) := by
  refine .of_harmless [] (List.append_nil _).symm (by simp) ?_ ?_ ?_
  · unfold dtlsDone
    rw [any_updateClient]
    split_ifs with hij
    · subst hij
      cases hj : s.clientMgr_[j]? with
      | none => exact id
      | some c => exact dtls c hj
    · exact id
  · unfold sctpDone
    rw [any_updateClient]
    split_ifs with hij
    · cases s.clientMgr_[i]? with
      | none => exact id
      | some c => exact sctp c
    · exact id
  · rw [waitingBeats, rings_updateClient s j ring, waitingBeats]
    exact id

/-! ### The functions of a client -/

theorem keeps_clientSendPendingDtls (s : RuruLoop σ υ) (j : ℕ) :
    Keeps i s (s.clientSendPendingDtls j) := by
  unfold clientSendPendingDtls
  split
  · exact .refl s
  · rename_i client hj
    refine (keeps_updateClient s j (f := fun c => { c with
      dtlsTransport := { c.dtlsTransport with outBio := [] } }) (fun _ _ h => h) (fun _ h => h)
      fun _ => rfl).trans ?_
    refine .of_harmless _ rfl (fun e he => ?_) id id id
    obtain ⟨buffer, -, rfl⟩ := List.mem_map.mp he
    exact ⟨rfl, rfl, rfl⟩

theorem dtlsDone_clientSendPendingDtls (s : RuruLoop σ υ) (j : ℕ) :
    (s.clientSendPendingDtls j).dtlsDone i = s.dtlsDone i := by
  unfold clientSendPendingDtls
  split
  · rfl
  · refine (any_updateClient s j _ _).trans ?_
    split_ifs <;> rfl

/-- Sending data for a client that is not `i`, or whose DTLS flag is up. -/
theorem keeps_clientSendData (s : RuruLoop σ υ) (j : ℕ) (data : List UInt8)
    (hdone : j = i → s.dtlsDone i = true) : Keeps i s (s.clientSendData env j data) := by
  unfold clientSendData
  split
  · exact .refl s
  · rename_i client hj
    dsimp only
    split_ifs with hflag
    · refine Keeps.trans ?_ (keeps_clientSendPendingDtls _ j)
      exact keeps_updateClient s j (fun _ _ _ => hflag) (fun _ h => h) fun _ => rfl
    · refine keeps_note s ⟨rfl, rfl, ?_⟩
      have hij : j ≠ i := by
        rintro rfl
        have hup := hdone rfl
        rw [dtlsDone, hj] at hup
        exact hflag hup
      simp [Effect.dropsFor, hij]

/-- A client gets another ring and keeps its flags. -/
theorem done_setRing {s s' : RuruLoop σ υ} {j : ℕ} {ring : RuruRingBuf HeartBeatData}
    (hs' : s'.clientMgr_ = s.clientMgr_.modify j fun c => { c with heartBeatRing := ring }) :
    s'.dtlsDone i = s.dtlsDone i ∧ s'.sctpDone i = s.sctpDone i := by
  unfold dtlsDone sctpDone
  rw [hs', List.getElem?_modify]
  cases s.clientMgr_[i]? with
  | none => simp
  | some c => by_cases hij : j = i <;> simp [hij]

theorem keeps_takeBeat {s : RuruLoop σ υ} {j : ℕ} {client : RuruClient σ}
    (hj : s.clientMgr_[j]? = some client) {beat : HeartBeatData} {ring : RuruRingBuf HeartBeatData}
    (hread : client.heartBeatRing.ringBufRead = (some beat, ring)) :
    Keeps i s (s.takeBeat j beat ring) := by
  have hflags : (s.takeBeat j beat ring).dtlsDone i = s.dtlsDone i ∧
      (s.takeBeat j beat ring).sctpDone i = s.sctpDone i := done_setRing rfl
  refine .of_harmless [.beatSend j (beat.data.take beat.length) beat.length]
    (s.trace_takeBeat j beat ring) (fun e he => ?_) (fun h => hflags.1.trans h)
    (fun h => hflags.2.symm.trans h) fun hw => ?_
  · rw [List.mem_singleton.mp he]
    exact ⟨rfl, rfl, rfl⟩
  · by_cases hij : j = i
    · subst hij
      rw [waitingBeats_takeBeat hj hread]
      simp
    · rwa [waitingBeats_setRing (s := s) hj rfl i, if_neg hij] at hw

/-- What waits in a ring was put there after the DTLS handshake. -/
theorem keeps_sendBeats (fuel : ℕ) (s : RuruLoop σ υ) (j : ℕ) :
    Keeps i s (s.sendBeats env fuel j) := by
  induction fuel generalizing s with
  | zero => exact .refl s
  | succ fuel ih =>
    refine .of_layered (work_sendBeats env _ s j) fun _ hs => ?_
    unfold sendBeats
    split
    · exact .refl s
    · rename_i client hj
      split
      · exact .refl s
      · rename_i beat ring hread
        have htake : Keeps i s (s.takeBeat j beat ring) := keeps_takeBeat hj hread
        refine (htake.trans (keeps_clientSendData env _ j _ ?_)).trans (ih _)
        rintro rfl
        have hup : s.dtlsDone j = true := hs.waiting (by rw [waitingBeats_takeBeat hj hread]; simp)
        exact (done_setRing rfl).1.trans hup

theorem keeps_clientSendHeartBeatData (s : RuruLoop σ υ) (j : ℕ) :
    Keeps i s (s.clientSendHeartBeatData env j) := by
  unfold clientSendHeartBeatData
  split
  · exact .refl s
  · exact keeps_sendBeats env _ s j

/-! ### The callbacks -/

theorem keeps_storeBeat {s : RuruLoop σ υ} {j : ℕ} {client : RuruClient σ}
    (hj : s.clientMgr_[j]? = some client) (data : List UInt8)
    (hdone : j = i → s.dtlsDone i = true) :
    Keeps i s (s.storeBeat j client.heartBeatRing data) := by
  obtain ⟨hdtls, hsctp⟩ : (s.storeBeat j client.heartBeatRing data).dtlsDone i = s.dtlsDone i ∧
      (s.storeBeat j client.heartBeatRing data).sctpDone i = s.sctpDone i := done_setRing rfl
  have htrace := s.trace_storeBeat j client.heartBeatRing data
  refine ⟨⟨_, htrace⟩, fun _ h => ⟨?_, hdtls.trans⟩⟩
  refine h.extend _ htrace hdtls.trans (fun hs => Or.inl (hsctp.symm.trans hs)) ?_ ?_ ?_ ?_
  · intro hw
    by_cases hij : j = i
    · exact Or.inr (hdtls.trans (hdone hij))
    · rw [waitingBeats_setRing (s := s) hj rfl i, if_neg hij] at hw
      exact Or.inl hw
  all_goals simp [Effect.talksFor, Effect.sendsFor, Effect.dropsFor]

/-- An outbound packet of client `i` comes after its DTLS handshake. -/
theorem keeps_onSctpOutboundPacket (s : RuruLoop σ υ) (j : ℕ) (data : List UInt8)
    (hdone : j = i → s.dtlsDone i = true) : Keeps i s (s.onSctpOutboundPacket env j data) := by
  unfold onSctpOutboundPacket
  by_cases hlen : data.length < sizeofSctpHeader
  · rw [if_pos hlen]
    exact .refl s
  · rw [if_neg hlen]
    split
    · exact .refl s
    · rename_i client hj
      split_ifs
      · exact keeps_storeBeat hj data hdone
      · exact keeps_clientSendData env s j data hdone

theorem keeps_pushClientRecvData (s : RuruLoop σ υ) (j : ℕ) (data : Inbound) (rcv : SctpRcvinfo) :
    Keeps i s (s.pushClientRecvData j data rcv) := by
  rcases pushClientRecvData_cases s j data rcv with he | ⟨p, arena, -, -, he⟩
  · rw [he]
    exact .refl s
  · rw [he]
    refine .of_harmless [.push (recvEvent j p data rcv) (some (data, rcv))] rfl ?_ id id id
    intro e he'
    rw [List.mem_singleton.mp he']
    exact ⟨rfl, rfl, rfl⟩

theorem keeps_callback (s : RuruLoop σ υ) (cb : SctpCallback)
    (hdone : ∀ data, cb = .outbound i data → s.dtlsDone i = true) :
    Keeps i s (s.callback env cb) := by
  cases cb with
  | outbound addr data =>
    refine keeps_onSctpOutboundPacket env s addr data fun hij => hdone data ?_
    rw [hij]
  | inbound ulpInfo data rcv => exact keeps_pushClientRecvData s ulpInfo data rcv

theorem keeps_callbacks (cbs : List SctpCallback) (s : RuruLoop σ υ)
    (hdone : ∀ data, .outbound i data ∈ cbs → s.dtlsDone i = true) :
    Keeps i s (s.callbacks env cbs) := by
  induction cbs generalizing s with
  | nil => exact .refl s
  | cons cb cbs ih =>
    have hcb : Keeps i s (s.callback env cb) :=
      keeps_callback env s cb fun data he => hdone data (by rw [he]; exact List.mem_cons_self)
    refine .of_layered (work_callbacks env s (cb :: cbs)).clientWork fun hturn hs => ?_
    refine hcb.trans (ih _ fun data hmem => ?_)
    have hup : s.dtlsDone i = true := hdone data (List.mem_cons_of_mem _ hmem)
    refine (hcb.layered ?_ hs).2 hup
    obtain ⟨es, he, -⟩ := (work_callbacks env (s.callback env cb) cbs).effects
    rw [show (s.callbacks env (cb :: cbs)).trace = _ from he] at hturn
    exact hturn.of_append

/-! ### The calls of usrsctp -/

/-- usrsctp answers the calls that the transport of client `j` made; for client `i` they come after the
DTLS handshake, and the sends after data was read. -/
theorem keeps_usrsctpDone (s : RuruLoop σ υ) (j : ℕ) (t : Transport υ)
    (talks : ∀ call ∈ t.calls, j = i → call.fn.talks = true → s.dtlsDone i = true)
    (sends : ∀ call ∈ t.calls, j = i → call.fn.isSendv = true → DataRead i s.trace) :
    Keeps i s (s.usrsctpDone env j t) := by
  refine .of_layered (work_usrsctpDone env s j t) fun hturn hs => ?_
  set called : RuruLoop σ υ := { s with
    usr := t.usr
    nextSock := t.nextSock
    trace := s.trace ++ t.calls.map (Effect.usrsctp j) } with hcalled
  have hcall : Keeps i s called := by
    refine ⟨⟨_, rfl⟩, fun _ h => ⟨h.extend (t.calls.map (Effect.usrsctp j)) rfl id Or.inl
      Or.inl ?_ ?_ ?_, id⟩⟩
    · intro e he htalks
      obtain ⟨call, hmem, rfl⟩ := List.mem_map.mp he
      simp only [Effect.talksFor, Bool.and_eq_true, beq_iff_eq] at htalks
      exact talks call hmem htalks.1 htalks.2
    · intro e he hsends
      obtain ⟨call, hmem, rfl⟩ := List.mem_map.mp he
      simp only [Effect.sendsFor, Bool.and_eq_true, beq_iff_eq] at hsends
      exact sends call hmem hsends.1 hsends.2
    · intro e he
      obtain ⟨call, -, rfl⟩ := List.mem_map.mp he
      rfl
  refine hcall.trans (keeps_callbacks env _ called fun data hdata => ?_)
  obtain ⟨call, hmem, hcb⟩ := List.mem_flatMap.mp hdata
  have hturn' : EmitsInTurn i called.trace := by
    obtain ⟨es, he, -⟩ := (work_callbacks env called (t.calls.flatMap UsrsctpCall.callbacks)).effects
    rw [show (s.usrsctpDone env j t).trace = _ from he] at hturn
    exact hturn.of_append
  refine ((hcall.layered hturn' hs).1).talked (hturn'.talked (e := .usrsctp j call) ?_ hcb)
  exact List.mem_append_right _ (List.mem_map_of_mem hmem)

/-- A transport whose flag is down makes no call to send. -/
theorem silent_of_not_done (u : Usrsctp υ) {t : Transport υ} (h : t.bHandShakeDone = false) :
    (t.sendSctpCacheData u).2 = t ∧ ∀ msg, (t.sendUsrSctpData u (some msg)).2.calls = t.calls ∧
      (t.sendUsrSctpData u (some msg)).2.bHandShakeDone = false := by
  simp [Transport.sendSctpCacheData, Transport.sendUsrSctpData, Transport.pushMsg2ClientCache, h]

/-- A member function of the transport of client `j` is done; it raised the flag of client `i` only
after data was read. -/
theorem keeps_withTransport (s : RuruLoop σ υ) (j : ℕ) (t : Transport υ)
    (flag : j = i → t.bHandShakeDone = true →
      s.sctpDone i = true ∨ s.dtlsDone i = true ∧ DataRead i s.trace)
    (talks : ∀ call ∈ t.calls, j = i → call.fn.talks = true → s.dtlsDone i = true)
    (sends : ∀ call ∈ t.calls, j = i → call.fn.isSendv = true → DataRead i s.trace) :
    Keeps i s (s.withTransport env j t) := by
  set updated : RuruLoop σ υ := s.updateClient j fun c =>
    { c with sctpTransport := ⟨t.sock_, t.bHandShakeDone⟩, cache := t.cache } with hupdated
  have hdtls : updated.dtlsDone i = s.dtlsDone i := by
    refine (any_updateClient s j _ _).trans ?_
    split_ifs <;> rfl
  have hupdate : Keeps i s updated := by
    refine ⟨⟨[], (List.append_nil _).symm⟩, fun _ h => ⟨?_, hdtls.trans⟩⟩
    refine h.extend [] (List.append_nil _).symm hdtls.trans ?_ (fun hw => Or.inl ?_)
      (by simp) (by simp) (by simp)
    · intro hs
      rw [sctpDone, hupdated, any_updateClient] at hs
      split_ifs at hs with hij
      · have hup : t.bHandShakeDone = true := by
          cases hi : s.clientMgr_[i]? with
          | none => simp [hi] at hs
          | some c => simpa [hi] using hs
        rw [hdtls]
        exact flag hij hup
      · exact Or.inl hs
    · rwa [waitingBeats, hupdated, rings_updateClient s j (by simp)] at hw
  refine hupdate.trans (keeps_usrsctpDone env updated j t (fun call hmem hij htalks => ?_) sends)
  exact hdtls.trans (talks call hmem hij htalks)

/-- Data that DTLS has decrypted is passed on. -/
theorem keeps_recvUsrSctpData (s : RuruLoop σ υ) (j : ℕ) (data : List UInt8)
    (hdone : j = i → s.dtlsDone i = true ∧ DataRead i s.trace) :
    Keeps i s (s.recvUsrSctpData env j data) := by
  unfold recvUsrSctpData
  split
  · exact .refl s
  · rename_i client hj
    refine keeps_withTransport env s j _ (fun hij _ => Or.inr (hdone hij))
      (fun _ _ hij _ => (hdone hij).1) fun _ _ hij _ => (hdone hij).2

/-- Sending: the flag is not raised, and there are calls only if it was up. -/
theorem keeps_send (s : RuruLoop σ υ) {j : ℕ} {client : RuruClient σ}
    (hj : s.clientMgr_[j]? = some client) (t : Transport υ)
    (silent : client.sctpTransport.bHandShakeDone = false →
      t.calls = [] ∧ t.bHandShakeDone = false) : Keeps i s (s.withTransport env j t) := by
  refine .of_layered (work_withTransport env s j t) fun _ hs => ?_
  cases hflag : client.sctpTransport.bHandShakeDone with
  | false =>
    obtain ⟨hcalls, hdown⟩ := silent hflag
    refine keeps_withTransport env s j t (fun _ hup => ?_) ?_ ?_
    · exact absurd (hup.symm.trans hdown) (by simp)
    · simp [hcalls]
    · simp [hcalls]
  | true =>
    have hup : j = i → s.sctpDone i = true := by
      rintro rfl
      rw [sctpDone, hj]
      exact hflag
    exact keeps_withTransport env s j t (fun hij _ => Or.inl (hup hij))
      (fun _ _ hij _ => (hs.sctp (hup hij)).1) fun _ _ hij _ => (hs.sctp (hup hij)).2

theorem keeps_sendUsrSctpData (s : RuruLoop σ υ) (j : ℕ) (msg : RuruSctpMessage) :
    Keeps i s (s.sendUsrSctpData env j msg) := by
  unfold sendUsrSctpData
  split
  · exact .refl s
  · rename_i client hj
    exact keeps_send env s hj _ fun hdown => (silent_of_not_done env.usrsctp hdown).2 msg

theorem keeps_sendSctpCacheData (s : RuruLoop σ υ) (j : ℕ) :
    Keeps i s (s.sendSctpCacheData env j) := by
  unfold sendSctpCacheData
  split
  · exact .refl s
  · rename_i client hj
    refine keeps_send env s hj _ fun hdown => ?_
    rw [(silent_of_not_done env.usrsctp (t := s.transport client) hdown).1]
    exact ⟨rfl, hdown⟩

/-! ### `HandleDtlsPacket` -/

/-- A round of the loop, for a client that is not `i` or whose DTLS flag is up. -/
theorem keeps_dtlsRead (s : RuruLoop σ υ) (j : ℕ) (hdone : j = i → s.dtlsDone i = true) :
    Keeps i s (s.dtlsRead env j) := by
  unfold dtlsRead
  split
  · exact .refl s
  · rename_i client hj
    dsimp only
    set r := env.openssl.read client.dtlsTransport.ssl client.dtlsTransport.inBio with hr
    have hread : Keeps i s (s.updateClient j fun c =>
        { c with dtlsTransport := client.dtlsTransport.after r }) := by
      refine keeps_updateClient s j (fun c hc hup => ?_) (fun _ h => h) fun _ => rfl
      obtain rfl := Option.some.inj (hj.symm.trans hc)
      exact hup
    split_ifs with hret
    · refine (hread.trans (keeps_note _ ⟨rfl, rfl, rfl⟩)).trans (keeps_recvUsrSctpData env _ j _ ?_)
      rintro rfl
      refine ⟨?_, r.buffer.take r.ret.toNat, List.mem_append_right _ List.mem_cons_self⟩
      have hup : s.dtlsDone j = true := hdone rfl
      refine (any_updateClient s j _ _).trans ?_
      rw [if_pos rfl]
      rw [dtlsDone, hj] at hup
      rw [hj]
      exact hup
    · exact hread

theorem keeps_dtlsReadLoop {fuel : ℕ} {s s' : RuruLoop σ υ} {j : ℕ}
    (hdone : j = i → s.dtlsDone i = true) (h : s.dtlsReadLoop env fuel j = some s') :
    Keeps i s s' := by
  induction fuel generalizing s with
  | zero =>
    unfold dtlsReadLoop at h
    split_ifs at h
    cases h
    exact .refl _
  | succ fuel ih =>
    refine .of_layered (work_dtlsReadLoop env h) fun hturn hs => ?_
    unfold dtlsReadLoop at h
    split_ifs at h
    · have hread := keeps_dtlsRead env s j hdone
      obtain ⟨es, he, -⟩ := (work_dtlsReadLoop env h).effects
      rw [he] at hturn
      exact hread.trans (ih (fun hij => (hread.layered hturn.of_append hs).2 (hdone hij)) h)
    · cases h
      exact .refl _

theorem keeps_handleDtlsPacket {fuel : ℕ} {s s' : RuruLoop σ υ} {j : ℕ} {data : List UInt8}
    (h : s.handleDtlsPacket env fuel j data = some s') : Keeps i s s' := by
  unfold handleDtlsPacket at h
  split at h
  · cases h
    exact .refl _
  · rename_i client hj
    have hupdate : ∀ d : RuruDtls σ,
        (client.dtlsTransport.bHandShakeDone = true → d.bHandShakeDone = true) →
        Keeps i s (s.updateClient j fun c => { c with dtlsTransport := d }) := by
      intro d hd
      refine keeps_updateClient s j (fun c hc hup => hd ?_) (fun _ h => h) fun _ => rfl
      obtain rfl := Option.some.inj (hj.symm.trans hc)
      exact hup
    dsimp only at h
    split_ifs at h
    · refine ((hupdate _ fun _ => rfl).trans (keeps_clientSendPendingDtls _ j)).trans
        (keeps_dtlsReadLoop env (fun hij => ?_) h)
      rw [dtlsDone_clientSendPendingDtls, dtlsDone, any_updateClient, if_pos hij, ← hij, hj]
      rfl
    · cases h
      exact (hupdate _ (by exact id)).trans (keeps_clientSendPendingDtls _ j)
    · cases h
      exact hupdate _ (by exact id)
    · cases h
      exact (hupdate _ (by exact id)).trans (keeps_clientSendPendingDtls _ j)

/-! ### Runs -/

/-- A call of a member function of a client, or a callback of usrsctp. -/
inductive ClientCall where
  | handleDtlsPacket (client : ℕ) (data : List UInt8) (fuel : ℕ)
  | sendUsrSctpData (client : ℕ) (msg : RuruSctpMessage)
  | sendSctpCacheData (client : ℕ)
  | clientSendHeartBeatData (client : ℕ)
  | callback (cb : SctpCallback)

/-- The loop after the call; `none` if it does not return. -/
def call (s : RuruLoop σ υ) : ClientCall → Option (RuruLoop σ υ)
  | .handleDtlsPacket client data fuel => s.handleDtlsPacket env fuel client data
  | .sendUsrSctpData client msg => some (s.sendUsrSctpData env client msg)
  | .sendSctpCacheData client => some (s.sendSctpCacheData env client)
  | .clientSendHeartBeatData client => some (s.clientSendHeartBeatData env client)
  | .callback cb => some (s.callback env cb)

/-- A call in whose course usrsctp emits packets for client `i` in turn, also when it calls back on
its own. -/
def CalledInTurn (i : ℕ) (s : RuruLoop σ υ) (input : ClientCall) (s' : RuruLoop σ υ) : Prop :=
  s.call env input = some s' ∧ EmitsInTurn i s'.trace ∧
    ∀ data, input = .callback (.outbound i data) → Talked i s.trace

theorem call_keeps {s s' : RuruLoop σ υ} {input : ClientCall} (h : s.call env input = some s')
    (htalked : ∀ data, input = .callback (.outbound i data) → Talked i s.trace) : Keeps i s s' := by
  cases input with
  | handleDtlsPacket client data fuel => exact keeps_handleDtlsPacket env h
  | sendUsrSctpData client msg =>
    cases h
    exact keeps_sendUsrSctpData env s client msg
  | sendSctpCacheData client =>
    cases h
    exact keeps_sendSctpCacheData env s client
  | clientSendHeartBeatData client =>
    cases h
    exact keeps_clientSendHeartBeatData env s client
  | callback cb =>
    cases h
    refine .of_layered (work_callback env s cb).clientWork fun _ hs => ?_
    exact keeps_callback env s cb fun data hcb => hs.talked (htalked data (by rw [hcb]))

theorem sock_closeSctpSocket (u : Usrsctp υ) (t : Transport υ) :
    (t.closeSctpSocket u).sock_ = none := by
  unfold Transport.closeSctpSocket
  split_ifs with hsock
  · rfl
  · simpa using hsock

/-- The constructor of the transport takes the flag down when it succeeds. -/
theorem construct_done (u : Usrsctp υ) (junk : Bool) (usr : υ) (nextSock : Sock)
    (h : (Transport.construct u junk usr nextSock).sock_.isSome = true) :
    (Transport.construct u junk usr nextSock).bHandShakeDone = false := by
  unfold Transport.construct Transport.ruruSctp at h ⊢
  rw [if_pos rfl] at h ⊢
  dsimp only at h ⊢
  split_ifs at h ⊢
  · rw [sock_closeSctpSocket] at h
    exact absurd h (by simp)
  · rfl
  · rw [sock_closeSctpSocket] at h
    exact absurd h (by simp)
  · exact absurd h (by simp)

/-- The loop right after the registration of a client, where its history begins. -/
def registered (s : RuruLoop σ υ) (address : RuruAddress) : RuruLoop σ υ :=
  { s.registerClient env address with trace := [] }

theorem layered_registered (s : RuruLoop σ υ) (address : RuruAddress)
    (constructed : (Transport.construct env.usrsctp (env.junk s.clientMgr_.length) s.usr
      s.nextSock).sock_.isSome = true) :
    (s.registered env address).Layered s.clientMgr_.length := by
  set i := s.clientMgr_.length with hi
  set t := s.usrsctpDone env i (.construct env.usrsctp (env.junk i) s.usr s.nextSock) with ht
  have hlen : t.clientMgr_.length = i := (work_usrsctpDone env s _ _).clients
  have hclient : (s.registered env address).clientMgr_[i]? =
      some (t.attachClientInfo (t.ruruClient env i
        (.construct env.usrsctp (env.junk i) s.usr s.nextSock) address)) := by
    show (t.clientMgr_ ++ [_])[i]? = _
    rw [List.getElem?_append_right hlen.le, hlen, Nat.sub_self]
    rfl
  have hdown : (s.registered env address).sctpDone i = false := by
    rw [sctpDone, hclient]
    exact construct_done env.usrsctp _ s.usr s.nextSock constructed
  constructor
  · intro hup
    exact absurd (hup.symm.trans hdown) (by simp)
  · rintro ⟨e, he, -⟩
    exact absurd he (by simp [registered])
  · intro hw
    rw [waitingBeats_of_client hclient] at hw
    exact absurd (RuruRingBuf.elements_ruruRingBuf ..) hw
  · exact justified_nil
  · simp [registered]

/-- **The order of the handshakes.**  From the successful construction of client `i` on, whatever is
called in whatever order, and as long as usrsctp emits packets for the client only during or after a
call that makes it talk for it: the SCTP flag is up only when the DTLS flag is, `usrsctp_sendv` is
called only after DTLS data was read, nothing is dropped for want of a handshake, and no call takes
the DTLS flag down. -/
theorem handshakes_ordered (s : RuruLoop σ υ) (address : RuruAddress)
    (constructed : (Transport.construct env.usrsctp (env.junk s.clientMgr_.length) s.usr
      s.nextSock).sock_.isSome = true) (inputs : List ClientCall) :
    let i := s.clientMgr_.length
    Lts.Always (CalledInTurn env i)
      (fun t => t.HandshakesOrdered i ∧ ∀ input u, CalledInTurn env i t input u →
        t.dtlsDone i = true → u.dtlsDone i = true) (s.registered env address) inputs := by
  intro i
  refine Lts.always_iff_prefix.mpr fun pre post _ t hpath => ?_
  have ht : t.Layered i := by
    refine hpath.invariant (P := fun t => t.Layered i) (fun t input u hP hcall => ?_)
      (layered_registered env s address constructed)
    exact ((call_keeps env hcall.1 hcall.2.2).layered hcall.2.1 hP).1
  refine ⟨ht.ordered, fun input u hcall => ?_⟩
  exact ((call_keeps env hcall.1 hcall.2.2).layered hcall.2.1 ht).2

/-- The first data packet, which brings the association up, and a message sent then. -/
def firstPackets : List ClientCall :=
  [.handleDtlsPacket 0 [1, 2, 3] 1, .sendUsrSctpData 0 { data := [4, 5] }]

theorem first_packets_ordered :
    Lts.Always (CalledInTurn plainEnv 0)
      (fun t => t.HandshakesOrdered 0 ∧ ∀ input u, CalledInTurn plainEnv 0 t input u →
        t.dtlsDone 0 = true → u.dtlsDone 0 = true)
      ((constructed 0 3 4 (fun _ => 0) [] 0 1).registered plainEnv ⟨0x7F000001, 5000⟩) firstPackets :=
  handshakes_ordered plainEnv (constructed 0 3 4 (fun _ => 0) [] 0 1) ⟨0x7F000001, 5000⟩ rfl
    firstPackets

end RuruLoop

end Ruru
