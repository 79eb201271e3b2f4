import Ruru.EchoServer
import Ruru.Serving

/-!
# Ruru.ClientWork — what serving the clients leaves alone

The callbacks, `HandleDtlsPacket`, the UDP branch and the functions that send work on the clients.
They leave alone the connection records and their descriptors, the scan counter, the sockets, and
the constant part of every client, and queue no `EVT_SendCacheData`.
-/

namespace Ruru

variable {σ υ : Type} (env : Env σ υ)

/-- What the member functions of a client and the callbacks do. -/
def Effect.isClientWork : Effect → Bool
  | .push .. | .usrsctp .. | .beatCopy .. | .beatSend .. | .dropped .. | .dtlsData .. | .sendto .. =>
    true
  | _ => false

/-- What the callbacks of usrsctp do. -/
def Effect.isCallbackWork : Effect → Bool
  | .push .. | .beatCopy .. | .dropped .. | .sendto .. => true
  | _ => false

/-- A datagram is taken from the socket or passed to a client. -/
def Effect.isDatagram : Effect → Bool
  | .recvfrom .. | .dtlsPacket .. => true
  | _ => false

/-- What the UDP branch does. -/
def Effect.isUdpWork (e : Effect) : Bool := e.isClientWork || e.isDatagram

/-- `EVT_SendCacheData`. -/
def RuruEvent.isCacheWake (evt : RuruEvent) : Bool := evt.type == .evtSendCacheData

/-- The part of a client that its constructor and `AttachClientInfo` set for good. -/
structure ClientStatics where
  address : RuruAddress
  que : Option LoopId
  arena : Option LoopId
  udpfd_ : ℤ
  ringCap : ℕ
deriving DecidableEq

def RuruClient.statics (c : RuruClient σ) : ClientStatics :=
  ⟨c.address, c.que, c.arena, c.udpfd_, c.heartBeatRing.cap⟩

namespace RuruLoop

def statics (s : RuruLoop σ υ) : List ClientStatics := s.clientMgr_.map (·.statics)

/-- The queued `EVT_SendCacheData` events. -/
def cacheWakes (s : RuruLoop σ υ) : List RuruEvent := s.que_.filter RuruEvent.isCacheWake

/-- `s'` may come from `s` by serving clients, with effects in `p` only. -/
structure Work (p : Effect → Bool) (s s' : RuruLoop σ υ) : Prop where
  cons : s'.cons = s.cons
  count : s'.count = s.count
  sockets : s'.udpfd_ = s.udpfd_ ∧ s'.tcpfd_ = s.tcpfd_
  statics : s'.statics = s.statics
  wakes : s'.cacheWakes = s.cacheWakes
  effects : ∃ es, s'.trace = s.trace ++ es ∧ ∀ e ∈ es, p e = true

abbrev ClientWork : RuruLoop σ υ → RuruLoop σ υ → Prop := Work Effect.isClientWork

abbrev CallbackWork : RuruLoop σ υ → RuruLoop σ υ → Prop := Work Effect.isCallbackWork

abbrev UdpWork : RuruLoop σ υ → RuruLoop σ υ → Prop := Work Effect.isUdpWork

variable {p : Effect → Bool}

theorem Work.refl (s : RuruLoop σ υ) : Work p s s :=
  ⟨rfl, rfl, ⟨rfl, rfl⟩, rfl, rfl, [], (List.append_nil _).symm, by simp⟩

theorem Work.trans {s t u : RuruLoop σ υ} (h : Work p s t) (h' : Work p t u) : Work p s u := by
  obtain ⟨es, he, hes⟩ := h.effects
  obtain ⟨es', he', hes'⟩ := h'.effects
  refine ⟨h'.cons.trans h.cons, h'.count.trans h.count, ⟨h'.sockets.1.trans h.sockets.1,
    h'.sockets.2.trans h.sockets.2⟩, h'.statics.trans h.statics, h'.wakes.trans h.wakes,
    es ++ es', by rw [he', he, List.append_assoc], fun e hmem => ?_⟩
  rcases List.mem_append.mp hmem with hmem | hmem
  · exact hes e hmem
  · exact hes' e hmem

theorem Work.mono {q : Effect → Bool} {s s' : RuruLoop σ υ} (h : Work p s s')
    (hpq : ∀ e, p e = true → q e = true) : Work q s s' := by
  obtain ⟨es, he, hes⟩ := h.effects
  exact ⟨h.cons, h.count, h.sockets, h.statics, h.wakes, es, he, fun e hmem => hpq e (hes e hmem)⟩

theorem CallbackWork.clientWork {s s' : RuruLoop σ υ} (h : CallbackWork s s') : ClientWork s s' :=
  Work.mono h fun e he => by cases e <;> simp_all [Effect.isCallbackWork, Effect.isClientWork]

theorem ClientWork.udpWork {s s' : RuruLoop σ υ} (h : ClientWork s s') : UdpWork s s' :=
  Work.mono h fun e he => by rw [Effect.isUdpWork, he, Bool.true_or]

theorem Work.clients {s s' : RuruLoop σ υ} (h : Work p s s') :
    s'.clientMgr_.length = s.clientMgr_.length := by
  have hlen := congrArg List.length h.statics
  simpa [RuruLoop.statics] using hlen

/-! ### The elementary steps -/

theorem statics_updateClient (s : RuruLoop σ υ) (i : ℕ) (f : RuruClient σ → RuruClient σ)
    (hf : ∀ c, s.clientMgr_[i]? = some c → (f c).statics = c.statics) :
    (s.updateClient i f).statics = s.statics := map_updateClient _ s i hf

theorem work_updateClient (s : RuruLoop σ υ) (i : ℕ) (f : RuruClient σ → RuruClient σ)
    (hf : ∀ c, s.clientMgr_[i]? = some c → (f c).statics = c.statics) :
    Work p s (s.updateClient i f) :=
  ⟨rfl, rfl, ⟨rfl, rfl⟩, statics_updateClient s i f hf, rfl, [], (List.append_nil _).symm, by simp⟩

/-- The clients change within their constant parts, and effects are added. -/
theorem Work.of_statics {s s' : RuruLoop σ υ} {es : List Effect} (cons : s'.cons = s.cons)
    (count : s'.count = s.count) (sockets : s'.udpfd_ = s.udpfd_ ∧ s'.tcpfd_ = s.tcpfd_)
    (statics : s'.statics = s.statics) (que : s'.que_ = s.que_) (trace : s'.trace = s.trace ++ es)
    (hes : ∀ e ∈ es, p e = true) : Work p s s' :=
  ⟨cons, count, sockets, statics, by rw [cacheWakes, que, cacheWakes], es, trace, hes⟩

theorem work_note (s : RuruLoop σ υ) {e : Effect} (he : p e = true) : Work p s (s.note e) :=
  .of_statics rfl rfl ⟨rfl, rfl⟩ rfl rfl rfl (by simpa using he)

/-- An event other than `EVT_SendCacheData` is queued. -/
theorem work_push (s : RuruLoop σ υ) {evt : RuruEvent} (origin : Option (Inbound × SctpRcvinfo))
    (hevt : evt.isCacheWake = false) : CallbackWork s (s.push evt origin) :=
  ⟨rfl, rfl, ⟨rfl, rfl⟩, rfl, by simp [cacheWakes, RuruLoop.push, hevt], [.push evt origin], rfl,
    by simp [Effect.isCallbackWork]⟩

/-! ### The functions of a client -/

theorem work_clientSendPendingDtls (s : RuruLoop σ υ) (i : ℕ) :
    CallbackWork s (s.clientSendPendingDtls i) := by
  unfold clientSendPendingDtls
  split
  · exact .refl s
  · refine .of_statics rfl rfl ⟨rfl, rfl⟩ (statics_updateClient s i _ fun _ _ => by rfl) rfl rfl ?_
    simp [Effect.isCallbackWork]

theorem work_clientSendData (s : RuruLoop σ υ) (i : ℕ) (data : List UInt8) :
    CallbackWork s (s.clientSendData env i data) := by
  unfold clientSendData
  split
  · exact .refl s
  · dsimp only
    split_ifs
    · exact (work_updateClient s i _ fun _ _ => by rfl).trans (work_clientSendPendingDtls _ i)
    · exact work_note s rfl

theorem work_takeBeat (s : RuruLoop σ υ) {i : ℕ} {client : RuruClient σ} {beat : HeartBeatData}
    {ring : RuruRingBuf HeartBeatData} (hi : s.clientMgr_[i]? = some client)
    (hread : client.heartBeatRing.ringBufRead = (some beat, ring)) :
    ClientWork s (s.takeBeat i beat ring) := by
  refine (work_updateClient s i _ fun c hc => ?_).trans (work_note _ rfl)
  obtain rfl : client = c := Option.some.inj (hi.symm.trans hc)
  have hcap := (RuruRingBuf.ringBufRead_some hread).2
  simp [RuruClient.statics, hcap]

theorem work_sendBeats (fuel : ℕ) (s : RuruLoop σ υ) (i : ℕ) :
    ClientWork s (s.sendBeats env fuel i) := by
  induction fuel generalizing s with
  | zero => exact .refl s
  | succ fuel ih =>
    unfold sendBeats
    split
    · exact .refl s
    · rename_i client hi
      split
      · exact .refl s
      · rename_i beat ring hread
        exact ((work_takeBeat s hi hread).trans (work_clientSendData env _ i _).clientWork).trans
          (ih _)

theorem work_clientSendHeartBeatData (s : RuruLoop σ υ) (i : ℕ) :
    ClientWork s (s.clientSendHeartBeatData env i) := by
  unfold clientSendHeartBeatData
  split
  · exact .refl s
  · exact work_sendBeats env _ s i

theorem work_storeBeat (s : RuruLoop σ υ) {i : ℕ} {client : RuruClient σ}
    (hi : s.clientMgr_[i]? = some client) (data : List UInt8) :
    CallbackWork s (s.storeBeat i client.heartBeatRing data) := by
  refine ((work_note s rfl).trans (work_updateClient _ i _ fun c hc => ?_)).trans (work_push _ none rfl)
  obtain rfl : client = c := Option.some.inj (hi.symm.trans hc)
  have hcap := client.heartBeatRing.cap_ringBufWrite (heartBeatData data)
  simp [RuruClient.statics, hcap]

theorem work_onSctpOutboundPacket (s : RuruLoop σ υ) (i : ℕ) (data : List UInt8) :
    CallbackWork s (s.onSctpOutboundPacket env i data) := by
  unfold onSctpOutboundPacket
  by_cases hlen : data.length < sizeofSctpHeader
  · rw [if_pos hlen]
    exact .refl s
  · rw [if_neg hlen]
    split
    · exact .refl s
    · rename_i client hi
      split_ifs
      · exact work_storeBeat s hi data
      · exact work_clientSendData env s i data

/-- The event `PushClientRecvData` makes of a message copied to `p`. -/
def recvEvent (i p : ℕ) (data : Inbound) (rcv : SctpRcvinfo) : RuruEvent where
  type := .evtRecvClientData
  client := some i
  data := some p
  length := toUint16 data.1.length
  param := dataParam rcv

/-- `PushClientRecvData` changes nothing, or copies the message into a new block and queues the
event. -/
theorem pushClientRecvData_cases (s : RuruLoop σ υ) (i : ℕ) (data : Inbound) (rcv : SctpRcvinfo) :
    s.pushClientRecvData i data rcv = s ∨
      ∃ p arena, i < s.clientMgr_.length ∧
        s.arena_.arenaAlloc (toInt32 data.1.length) = (some p, arena) ∧
        s.pushClientRecvData i data rcv =
          { s with arena_ := arena.memcpy p data.1 }.push (recvEvent i p data rcv)
            (some (data, rcv)) := by
  unfold pushClientRecvData
  cases hi : s.clientMgr_[i]? with
  | none => exact Or.inl rfl
  | some client =>
    have hlt : i < s.clientMgr_.length := (List.getElem?_eq_some_iff.mp hi).1
    by_cases hq : client.que.isSome = true
    · simp only [if_pos hq]
      rcases ha : s.arena_.arenaAlloc (toInt32 data.1.length) with ⟨_ | p, arena⟩
      · rw [RuruArena.arenaAlloc_none ha]
        exact Or.inl rfl
      · exact Or.inr ⟨p, arena, hlt, rfl, rfl⟩
    · left
      simp only [if_neg hq]

theorem work_pushClientRecvData (s : RuruLoop σ υ) (i : ℕ) (data : Inbound) (rcv : SctpRcvinfo) :
    CallbackWork s (s.pushClientRecvData i data rcv) := by
  rcases pushClientRecvData_cases s i data rcv with he | ⟨p, arena, -, -, he⟩
  · rw [he]
    exact .refl s
  · rw [he]
    have harena : CallbackWork s { s with arena_ := arena.memcpy p data.1 } :=
      ⟨rfl, rfl, ⟨rfl, rfl⟩, rfl, rfl, [], (List.append_nil _).symm, by simp⟩
    exact harena.trans (work_push _ _ rfl)

theorem work_callback (s : RuruLoop σ υ) (cb : SctpCallback) :
    CallbackWork s (s.callback env cb) := by
  cases cb with
  | outbound addr data => exact work_onSctpOutboundPacket env s addr data
  | inbound ulpInfo data rcv => exact work_pushClientRecvData s ulpInfo data rcv

theorem work_callbacks (s : RuruLoop σ υ) (cbs : List SctpCallback) :
    CallbackWork s (s.callbacks env cbs) := by
  induction cbs generalizing s with
  | nil => exact .refl s
  | cons cb cbs ih => exact (work_callback env s cb).trans (ih _)

theorem work_usrsctpDone (s : RuruLoop σ υ) (i : ℕ) (t : Transport υ) :
    ClientWork s (s.usrsctpDone env i t) := by
  refine Work.trans ?_ (work_callbacks env _ _).clientWork
  refine .of_statics rfl rfl ⟨rfl, rfl⟩ rfl rfl rfl ?_
  simp [Effect.isClientWork]

theorem work_withTransport (s : RuruLoop σ υ) (i : ℕ) (t : Transport υ) :
    ClientWork s (s.withTransport env i t) :=
  (work_updateClient s i _ fun _ _ => by rfl).trans (work_usrsctpDone env _ i t)

theorem work_recvUsrSctpData (s : RuruLoop σ υ) (i : ℕ) (data : List UInt8) :
    ClientWork s (s.recvUsrSctpData env i data) := by
  unfold recvUsrSctpData
  split
  · exact .refl s
  · exact work_withTransport env s i _

theorem work_sendUsrSctpData (s : RuruLoop σ υ) (i : ℕ) (msg : RuruSctpMessage) :
    ClientWork s (s.sendUsrSctpData env i msg) := by
  unfold sendUsrSctpData
  split
  · exact .refl s
  · exact work_withTransport env s i _

theorem work_sendSctpCacheData (s : RuruLoop σ υ) (i : ℕ) :
    ClientWork s (s.sendSctpCacheData env i) := by
  unfold sendSctpCacheData
  split
  · exact .refl s
  · exact work_withTransport env s i _

/-- A registration lets usrsctp make its callbacks and then appends the client. -/
theorem registerClient_cases (s : RuruLoop σ υ) (address : RuruAddress) :
    ∃ t client, ClientWork s t ∧ client.statics = ⟨address, some t.this, some t.this, t.udpfd_, 100⟩ ∧
      s.registerClient env address = { t with clientMgr_ := t.clientMgr_ ++ [client] } :=
  ⟨s.usrsctpDone env s.clientMgr_.length
      (.construct env.usrsctp (env.junk s.clientMgr_.length) s.usr s.nextSock),
    _, work_usrsctpDone env s _ _, rfl, rfl⟩

/-! ### `HandleDtlsPacket` and the UDP branch -/

theorem work_dtlsRead (s : RuruLoop σ υ) (i : ℕ) : ClientWork s (s.dtlsRead env i) := by
  unfold dtlsRead
  split
  · exact .refl s
  · dsimp only
    split_ifs
    · exact (work_updateClient s i _ fun _ _ => by rfl).trans ((work_note _ rfl).trans
        (work_recvUsrSctpData env _ i _))
    · exact work_updateClient s i _ fun _ _ => by rfl

theorem work_dtlsReadLoop {fuel : ℕ} {s s' : RuruLoop σ υ} {i : ℕ}
    (h : s.dtlsReadLoop env fuel i = some s') : ClientWork s s' := by
  induction fuel generalizing s with
  | zero =>
    unfold dtlsReadLoop at h
    split_ifs at h
    cases h
    exact .refl _
  | succ fuel ih =>
    unfold dtlsReadLoop at h
    split_ifs at h
    · exact (work_dtlsRead env s i).trans (ih h)
    · cases h
      exact .refl _

theorem work_handleDtlsPacket {fuel : ℕ} {s s' : RuruLoop σ υ} {i : ℕ} {data : List UInt8}
    (h : s.handleDtlsPacket env fuel i data = some s') : ClientWork s s' := by
  unfold handleDtlsPacket at h
  split at h
  · cases h
    exact .refl _
  · dsimp only at h
    split_ifs at h
    · exact (work_updateClient s i _ fun _ _ => by rfl).trans ((work_clientSendPendingDtls _ i).clientWork.trans
        (work_dtlsReadLoop env h))
    · cases h
      exact (work_updateClient s i _ fun _ _ => by rfl).trans
        (work_clientSendPendingDtls _ i).clientWork
    · cases h
      exact work_updateClient s i _ fun _ _ => by rfl
    · cases h
      exact (work_updateClient s i _ fun _ _ => by rfl).trans
        (work_clientSendPendingDtls _ i).clientWork

theorem work_recvDatagrams {fuel : ℕ} {s : RuruLoop σ υ} {ds : List (SockaddrIn × List UInt8)}
    {r : Bool × RuruLoop σ υ} (h : s.recvDatagrams env fuel ds = some r) : UdpWork s r.2 := by
  induction ds generalizing s r with
  | nil => cases h; exact .refl _
  | cons d ds ih =>
    unfold recvDatagrams at h
    dsimp only at h
    split_ifs at h
    · cases h
      exact work_note s rfl
    · split at h
      · exact absurd h (by simp)
      · rename_i s1 hs1
        obtain ⟨r', hr', rfl⟩ := Option.map_eq_some_iff.mp h
        have hrest : UdpWork s1 r'.2 := ih hr'
        have htaken : UdpWork s (s.note (.recvfrom ⟨ntohl d.1.sAddr, ntohs d.1.sinPort⟩
            (d.2.take 4096))) := work_note s rfl
        refine htaken.trans (Work.trans ?_ hrest)
        split at hs1
        · exact (work_note _ rfl).trans (work_handleDtlsPacket env hs1).udpWork
        · cases hs1
          exact .refl _

end RuruLoop

end Ruru
