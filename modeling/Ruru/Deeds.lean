import Ruru.Exchanges
import Ruru.SctpFifo

/-!
# Ruru.Deeds — what the functions of a loop do to its clients and to the outside

A `Deed` is an elementary change as the clients and the history see it: datagrams sent for a client,
a packet or decrypted data handed to it, a member function of its `RuruSctp`, a registration, or
something that leaves the addresses and the caches of the clients alone.  An invariant of these is
checked once for each deed; the lemmas here carry it to the functions.
-/

namespace Ruru

open Relation

/-- Neither for usrsctp, nor out to a client, nor on the way of a datagram to usrsctp. -/
def Effect.isQuiet : Effect → Bool
  | .usrsctp .. | .dtlsPacket .. | .dtlsData .. | .registered .. | .sendto .. => false
  | _ => true

/-- The client that a quiet effect is for. -/
def Effect.subject : Effect → Option ℕ
  | .push evt _ => evt.client
  | .beatCopy client .. | .beatSend client .. | .dropped client _ => some client
  | _ => none

variable {σ υ : Type} (env : Env σ υ)

/-- What the deeds tell apart of a client. -/
def RuruClient.face (c : RuruClient σ) : RuruAddress × ℤ × List RuruCacheData :=
  (c.address, c.udpfd_, c.cache)

/-! ### The calls that `RuruSctp` makes -/

/-- What the functions that send call. -/
def UsrsctpFn.isSending : UsrsctpFn → Bool
  | .sendv .. | .close _ => true
  | _ => false

section Calls

open Transport

variable {p : UsrsctpFn → Bool}

variable (u : Usrsctp υ)

theorem CallsIn.giveUp {t : Transport υ} (h : CallsIn UsrsctpFn.isSending t) :
    CallsIn UsrsctpFn.isSending (t.giveUp u) := CallsIn.answer h rfl

theorem CallsIn.flushCache (cache : List RuruCacheData) {t : Transport υ}
    (h : CallsIn UsrsctpFn.isSending t) :
    CallsIn UsrsctpFn.isSending (Transport.flushCache u cache t).2 := by
  induction cache generalizing t with
  | nil => exact h
  | cons d cache ih =>
    have hsent : CallsIn UsrsctpFn.isSending
        (t.sent u .cache (d.data.take (toSize d.length)) (sndinfo d.param)) := CallsIn.answer h rfl
    unfold Transport.flushCache
    dsimp only
    split_ifs
    · exact CallsIn.giveUp u hsent
    · exact hsent
    · exact ih hsent

theorem CallsIn.sendSctpCacheData {t : Transport υ} (h : CallsIn UsrsctpFn.isSending t) :
    CallsIn UsrsctpFn.isSending (t.sendSctpCacheData u).2 := by
  unfold Transport.sendSctpCacheData
  split_ifs
  · exact h.flushCache u t.cache
  · exact h

theorem CallsIn.pushMsg2ClientCache {t : Transport υ} (h : CallsIn p t)
    (msg : Option RuruSctpMessage) : CallsIn p (t.pushMsg2ClientCache msg) := by
  cases msg with
  | none => exact h
  | some msg => exact h

theorem CallsIn.sendUsrSctpData {t : Transport υ} (h : CallsIn UsrsctpFn.isSending t)
    (msg : Option RuruSctpMessage) : CallsIn UsrsctpFn.isSending (t.sendUsrSctpData u msg).2 := by
  have hflushed := h.sendSctpCacheData u
  unfold Transport.sendUsrSctpData
  dsimp only
  by_cases hdone : (t.sendSctpCacheData u).1 = true
  · rw [if_pos hdone]
    cases msg with
    | none => exact hflushed
    | some msg =>
      have hsent : CallsIn UsrsctpFn.isSending
          ((t.sendSctpCacheData u).2.sent u .direct msg.data (sndinfo msg.param)) :=
        CallsIn.answer hflushed rfl
      dsimp only
      split_ifs
      · exact CallsIn.giveUp u hsent
      · exact hsent
      · exact hsent
      · exact hflushed
  · rw [if_neg hdone]
    exact hflushed.pushMsg2ClientCache msg

end Calls

namespace RuruLoop

def faces (s : RuruLoop σ υ) : List (RuruAddress × ℤ × List RuruCacheData) :=
  s.clientMgr_.map (·.face)

/-- The loop after the member function `op` of the `RuruSctp` of client `i`, before the callbacks. -/
def operated (s : RuruLoop σ υ) (i : ℕ) (client : RuruClient σ) (op : SctpOp) : RuruLoop σ υ :=
  let t := (s.transport client).step env.usrsctp op
  { s.updateClient i fun c =>
      { c with sctpTransport := ⟨t.sock_, t.bHandShakeDone⟩, cache := t.cache } with
    usr := t.usr
    nextSock := t.nextSock
    trace := s.trace ++ t.calls.map (Effect.usrsctp i) }

/-- The loop after the constructor of the `RuruSctp` of a new client, before the callbacks. -/
def preparing (s : RuruLoop σ υ) (junk : Bool) : RuruLoop σ υ :=
  let t := Transport.construct env.usrsctp junk s.usr s.nextSock
  { s with
    usr := t.usr
    nextSock := t.nextSock
    trace := s.trace ++ t.calls.map (Effect.usrsctp s.clientMgr_.length) }

/-- A quiet effect for a known client, if for any. -/
def Quiet (s : RuruLoop σ υ) (e : Effect) : Prop :=
  e.isQuiet = true ∧ ∀ i, e.subject = some i → i < s.clientMgr_.length

/-- An elementary change; a message is sent only with `sends`. -/
inductive Deed (sends : Bool) : RuruLoop σ υ → RuruLoop σ υ → Prop
  | quiet {s s' : RuruLoop σ υ} (faces : s'.faces = s.faces) (udpfd : s'.udpfd_ = s.udpfd_)
      (es : List Effect) (trace : s'.trace = s.trace ++ es) (plain : ∀ e ∈ es, s.Quiet e) :
      Deed sends s s'
  | packet {s : RuruLoop σ υ} {i : ℕ} {client : RuruClient σ} {data : List UInt8}
      (known : s.clientMgr_[i]? = some client) (taken : .recvfrom client.address data ∈ s.trace)
      (size : data ≠ [] ∧ data.length ≤ 4096) : Deed sends s (s.note (.dtlsPacket i data))
  | sent {s : RuruLoop σ υ} {i : ℕ} {client : RuruClient σ} (known : s.clientMgr_[i]? = some client)
      (buffers : List (List UInt8)) (sizes : ∀ b ∈ buffers, b ≠ [] ∧ b.length ≤ 4096) :
      Deed sends s { s with
        trace := s.trace ++ buffers.map fun b => .sendto client.udpfd_ client.address b }
  | fed {s : RuruLoop σ υ} {i : ℕ} {client : RuruClient σ} {packet : List UInt8}
      (known : s.clientMgr_[i]? = some client) (handed : .dtlsPacket i packet ∈ s.trace)
      (data : List UInt8) : Deed sends s
        ((s.note (.dtlsData i data)).operated env i client (.recvUsrSctpData (some data)))
  | operated {s : RuruLoop σ υ} {i : ℕ} {client : RuruClient σ}
      (known : s.clientMgr_[i]? = some client) {op : SctpOp}
      (other : ∀ data, op ≠ .recvUsrSctpData data)
      (sender : ∀ msg, op = .sendUsrSctpData msg → sends = true) :
      Deed sends s (s.operated env i client op)
  | construct (s : RuruLoop σ υ) (junk : Bool) : Deed sends s (s.preparing env junk)
  | enroll {s : RuruLoop σ υ} {client : RuruClient σ} (fresh : client.cache = [])
      (udpfd : client.udpfd_ = s.udpfd_) :
      Deed sends s { s with
        clientMgr_ := s.clientMgr_ ++ [client]
        trace := s.trace ++ [.registered s.clientMgr_.length client.address] }

/-- A sequence of deeds. -/
abbrev Deeds (sends : Bool) : RuruLoop σ υ → RuruLoop σ υ → Prop := ReflTransGen (Deed env sends)

variable {sends : Bool}

/-- The history only grows. -/
theorem Deed.trace_mono {s s' : RuruLoop σ υ} (h : Deed env sends s s') : s.trace <+: s'.trace := by
  cases h with
  | quiet faces udpfd es trace plain => exact ⟨es, trace.symm⟩
  | packet | sent | operated | construct | enroll => exact ⟨_, rfl⟩
  | fed => exact (List.prefix_append _ _).trans (List.prefix_append _ _)

theorem Deeds.trace_mono {s s' : RuruLoop σ υ} (h : Deeds env sends s s') :
    s.trace <+: s'.trace := by
  induction h with
  | refl => exact List.prefix_refl _
  | tail _ hd ih => exact ih.trans (hd.trace_mono env)

/-- The invariant rule for deeds. -/
theorem Deeds.invariant {P : RuruLoop σ υ → Prop} (hP : ∀ s s', P s → Deed env sends s s' → P s')
    {s s' : RuruLoop σ υ} (h : Deeds env sends s s') (h0 : P s) : P s' := by
  induction h with
  | refl => exact h0
  | tail _ hd ih => exact hP _ _ ih hd

/-! ### Quiet changes -/

theorem faces_updateClient (s : RuruLoop σ υ) (i : ℕ) {f : RuruClient σ → RuruClient σ}
    (hf : ∀ c, (f c).face = c.face) : (s.updateClient i f).faces = s.faces :=
  map_updateClient _ s i fun c _ => hf c

theorem deeds_of_faces {s s' : RuruLoop σ υ} (faces : s'.faces = s.faces)
    (udpfd : s'.udpfd_ = s.udpfd_) (es : List Effect) (trace : s'.trace = s.trace ++ es)
    (plain : ∀ e ∈ es, s.Quiet e) : Deeds env sends s s' :=
  .single (.quiet faces udpfd es trace plain)

theorem deeds_updateClient (s : RuruLoop σ υ) (i : ℕ) (f : RuruClient σ → RuruClient σ)
    (hf : ∀ c, (f c).face = c.face) : Deeds env sends s (s.updateClient i f) :=
  deeds_of_faces env (faces_updateClient s i hf) rfl [] (List.append_nil _).symm (by simp)

theorem deeds_note (s : RuruLoop σ υ) {e : Effect} (he : s.Quiet e) :
    Deeds env sends s (s.note e) :=
  deeds_of_faces env rfl rfl [e] rfl (by simpa using he)

/-- A quiet effect that is for no client. -/
theorem quiet_of_none (s : RuruLoop σ υ) {e : Effect} (he : e.isQuiet = true)
    (hsubject : e.subject = none) : s.Quiet e :=
  ⟨he, fun i hi => absurd (hsubject.symm.trans hi) (by simp)⟩

/-- Quiet effects that are for no client. -/
theorem deeds_anonymous {s s' : RuruLoop σ υ} (faces : s'.faces = s.faces)
    (udpfd : s'.udpfd_ = s.udpfd_) (es : List Effect) (trace : s'.trace = s.trace ++ es)
    (plain : ∀ e ∈ es, e.isQuiet = true ∧ e.subject = none) : Deeds env sends s s' :=
  deeds_of_faces env faces udpfd es trace fun e he => quiet_of_none s (plain e he).1 (plain e he).2

/-- A quiet effect for a known client. -/
theorem quiet_of_known {s : RuruLoop σ υ} {e : Effect} {i : ℕ} (he : e.isQuiet = true)
    (hsubject : e.subject = some i) (hi : i < s.clientMgr_.length) : s.Quiet e :=
  ⟨he, fun _ hj => Option.some.inj (hsubject.symm.trans hj) ▸ hi⟩

theorem lt_of_known {s : RuruLoop σ υ} {i : ℕ} {client : RuruClient σ}
    (hi : s.clientMgr_[i]? = some client) : i < s.clientMgr_.length :=
  (List.getElem?_eq_some_iff.mp hi).1

/-! ### The member functions of a client and the callbacks -/

theorem bioReads_sizes : ∀ (fuel : ℕ) (pending : List UInt8), ∀ b ∈ bioReads fuel pending,
    b ≠ [] ∧ b.length ≤ 4096 := by
  intro fuel
  induction fuel with
  | zero => exact fun _ b hb => absurd hb (by simp [bioReads])
  | succ fuel ih =>
    intro pending b hb
    unfold bioReads at hb
    split_ifs at hb with hp
    · exact absurd hb (by simp)
    · rcases List.mem_cons.mp hb with rfl | hb
      · exact ⟨by simpa using hp, List.length_take_le _ _⟩
      · exact ih _ b hb

theorem deeds_clientSendPendingDtls (s : RuruLoop σ υ) (i : ℕ) :
    Deeds env sends s (s.clientSendPendingDtls i) := by
  unfold clientSendPendingDtls
  cases hi : s.clientMgr_[i]? with
  | none => exact .refl
  | some client =>
    have hsent : Deed env sends s _ := .sent hi (bioReads client.dtlsTransport.outBio.length
      client.dtlsTransport.outBio) (bioReads_sizes _ _)
    refine (ReflTransGen.single hsent).trans ?_
    exact deeds_updateClient env { s with trace := s.trace ++ _ } i _ (by intro c; rfl)

theorem deeds_clientSendData (s : RuruLoop σ υ) (i : ℕ) (data : List UInt8) :
    Deeds env sends s (s.clientSendData env i data) := by
  unfold clientSendData
  split
  · exact .refl
  · rename_i client hi
    dsimp only
    split_ifs
    · exact (deeds_updateClient env s i _ (by intro c; rfl)).trans (deeds_clientSendPendingDtls env _ i)
    · exact deeds_note env s (quiet_of_known rfl rfl (lt_of_known hi))

theorem deeds_takeBeat {s : RuruLoop σ υ} {i : ℕ} (hi : i < s.clientMgr_.length)
    (beat : HeartBeatData) (ring : RuruRingBuf HeartBeatData) :
    Deeds env sends s (s.takeBeat i beat ring) := by
  refine (deeds_updateClient env s i _ (by intro c; rfl)).trans (deeds_note env _ ?_)
  exact quiet_of_known rfl rfl (hi.trans_eq (length_updateClient s i _).symm)

theorem deeds_sendBeats (fuel : ℕ) (s : RuruLoop σ υ) (i : ℕ) :
    Deeds env sends s (s.sendBeats env fuel i) := by
  induction fuel generalizing s with
  | zero => exact .refl
  | succ fuel ih =>
    unfold sendBeats
    split
    · exact .refl
    · rename_i client hi
      split
      · exact .refl
      · exact ((deeds_takeBeat env (lt_of_known hi) _ _).trans
          (deeds_clientSendData env _ i _)).trans (ih _)

theorem deeds_clientSendHeartBeatData (s : RuruLoop σ υ) (i : ℕ) :
    Deeds env sends s (s.clientSendHeartBeatData env i) := by
  unfold clientSendHeartBeatData
  split
  · exact .refl
  · exact deeds_sendBeats env _ s i

theorem deeds_storeBeat {s : RuruLoop σ υ} {i : ℕ} (hi : i < s.clientMgr_.length)
    (ring : RuruRingBuf HeartBeatData) (data : List UInt8) :
    Deeds env sends s (s.storeBeat i ring data) := by
  have hcopied : Deeds env sends s
      (s.note (.beatCopy i data (ring.ringBufWrite (heartBeatData data)).1)) :=
    deeds_note env s (quiet_of_known rfl rfl hi)
  have hstored : Deeds env sends
      (s.note (.beatCopy i data (ring.ringBufWrite (heartBeatData data)).1)) _ :=
    deeds_updateClient env _ i
      (fun c => { c with heartBeatRing := (ring.ringBufWrite (heartBeatData data)).2 })
      (by intro c; rfl)
  refine (hcopied.trans hstored).trans ?_
  refine deeds_of_faces env rfl rfl [.push { type := .evtHeartBeat, client := some i } none] rfl ?_
  intro e he
  rw [List.mem_singleton.mp he]
  exact quiet_of_known rfl rfl (hi.trans_eq (length_updateClient _ i _).symm)

theorem deeds_onSctpOutboundPacket (s : RuruLoop σ υ) (i : ℕ) (data : List UInt8) :
    Deeds env sends s (s.onSctpOutboundPacket env i data) := by
  unfold onSctpOutboundPacket
  by_cases hlen : data.length < sizeofSctpHeader
  · rw [if_pos hlen]
  · rw [if_neg hlen]
    split
    · exact .refl
    · rename_i client hi
      split_ifs
      · exact deeds_storeBeat env (lt_of_known hi) _ data
      · exact deeds_clientSendData env s i data

theorem deeds_pushClientRecvData (s : RuruLoop σ υ) (i : ℕ) (data : Inbound) (rcv : SctpRcvinfo) :
    Deeds env sends s (s.pushClientRecvData i data rcv) := by
  rcases pushClientRecvData_cases s i data rcv with he | ⟨p, arena, hi, -, he⟩
  · rw [he]
  · rw [he]
    refine deeds_of_faces env rfl rfl [.push (recvEvent i p data rcv) (some (data, rcv))] rfl ?_
    intro e he
    rw [List.mem_singleton.mp he]
    exact quiet_of_known rfl rfl hi

theorem deeds_callback (s : RuruLoop σ υ) (cb : SctpCallback) :
    Deeds env sends s (s.callback env cb) := by
  cases cb with
  | outbound addr data => exact deeds_onSctpOutboundPacket env s addr data
  | inbound ulpInfo data rcv => exact deeds_pushClientRecvData env s ulpInfo data rcv

theorem deeds_callbacks (s : RuruLoop σ υ) (cbs : List SctpCallback) :
    Deeds env sends s (s.callbacks env cbs) := by
  induction cbs generalizing s with
  | nil => exact .refl
  | cons cb cbs ih => exact (deeds_callback env s cb).trans (ih _)

/-- A member function of the `RuruSctp` of a client, with the callbacks. -/
theorem deeds_operated {s : RuruLoop σ υ} {i : ℕ} {client : RuruClient σ}
    (known : s.clientMgr_[i]? = some client) {op : SctpOp}
    (other : ∀ data, op ≠ .recvUsrSctpData data)
    (sender : ∀ msg, op = .sendUsrSctpData msg → sends = true) :
    Deeds env sends s (s.withTransport env i ((s.transport client).step env.usrsctp op)) :=
  (ReflTransGen.single (.operated known other sender)).trans (deeds_callbacks env _ _)

/-- The data of a packet goes to usrsctp. -/
theorem deeds_recvUsrSctpData {s : RuruLoop σ υ} {i : ℕ} {packet : List UInt8}
    (hi : i < s.clientMgr_.length) (hpacket : .dtlsPacket i packet ∈ s.trace) (data : List UInt8) :
    Deeds env sends s ((s.note (.dtlsData i data)).recvUsrSctpData env i data) := by
  have hclient : s.clientMgr_[i]? = some s.clientMgr_[i] := List.getElem?_eq_getElem hi
  have hnoted : (s.note (.dtlsData i data)).clientMgr_[i]? = some s.clientMgr_[i] := hclient
  unfold recvUsrSctpData
  rw [hnoted]
  exact (ReflTransGen.single (.fed hclient hpacket data)).trans (deeds_callbacks env _ _)

theorem deeds_sendSctpCacheData (s : RuruLoop σ υ) (i : ℕ) :
    Deeds env sends s (s.sendSctpCacheData env i) := by
  unfold sendSctpCacheData
  split
  · exact .refl
  · rename_i client hi
    have hother : ∀ data, SctpOp.sendSctpCacheData ≠ .recvUsrSctpData data := fun data h => by cases h
    exact deeds_operated env hi hother fun msg h => by cases h

theorem deeds_sendUsrSctpData (s : RuruLoop σ υ) (i : ℕ) (msg : RuruSctpMessage) :
    Deeds env true s (s.sendUsrSctpData env i msg) := by
  unfold sendUsrSctpData
  split
  · exact .refl
  · rename_i client hi
    have hother : ∀ data, SctpOp.sendUsrSctpData (some msg) ≠ .recvUsrSctpData data :=
      fun data h => by cases h
    exact deeds_operated env hi hother fun _ _ => rfl

/-! ### `HandleDtlsPacket` -/

theorem deeds_dtlsRead {s : RuruLoop σ υ} {i : ℕ} {packet : List UInt8}
    (hpacket : .dtlsPacket i packet ∈ s.trace) : Deeds env sends s (s.dtlsRead env i) := by
  unfold dtlsRead
  cases hi : s.clientMgr_[i]? with
  | none => exact .refl
  | some client =>
    dsimp only
    generalize env.openssl.read client.dtlsTransport.ssl client.dtlsTransport.inBio = r
    have hafter : Deeds env sends s
        (s.updateClient i fun c => { c with dtlsTransport := client.dtlsTransport.after r }) :=
      deeds_updateClient env s i _ (by intro c; rfl)
    split_ifs
    · refine hafter.trans (deeds_recvUsrSctpData env ?_ (?_ : Effect.dtlsPacket i packet ∈ _) _)
      · exact (lt_of_known hi).trans_eq (length_updateClient s i _).symm
      · exact hpacket
    · exact hafter

theorem deeds_dtlsReadLoop {fuel : ℕ} {s s' : RuruLoop σ υ} {i : ℕ} {packet : List UInt8}
    (hpacket : .dtlsPacket i packet ∈ s.trace) (h : s.dtlsReadLoop env fuel i = some s') :
    Deeds env sends s s' := by
  induction fuel generalizing s with
  | zero =>
    unfold dtlsReadLoop at h
    split_ifs at h
    cases h
    exact .refl
  | succ fuel ih =>
    unfold dtlsReadLoop at h
    split_ifs at h
    · have hread : Deeds env sends s (s.dtlsRead env i) := deeds_dtlsRead env hpacket
      exact hread.trans (ih ((hread.trace_mono env).subset hpacket) h)
    · cases h
      exact .refl

theorem deeds_handleDtlsPacket {fuel : ℕ} {s s' : RuruLoop σ υ} {i : ℕ} {data packet : List UInt8}
    (hpacket : .dtlsPacket i packet ∈ s.trace) (h : s.handleDtlsPacket env fuel i data = some s') :
    Deeds env sends s s' := by
  unfold handleDtlsPacket at h
  split at h
  · cases h
    exact .refl
  · dsimp only at h
    split_ifs at h
    · refine ((deeds_updateClient env s i _ ?_).trans (deeds_clientSendPendingDtls env _ i)).trans
        (deeds_dtlsReadLoop env (?_ : Effect.dtlsPacket i packet ∈ _) h)
      · intro c
        rfl
      · exact ((deeds_clientSendPendingDtls env _ i : Deeds env sends _ _).trace_mono
          env).subset hpacket
    · cases h
      exact (deeds_updateClient env s i _ (by intro c; rfl)).trans (deeds_clientSendPendingDtls env _ i)
    · cases h
      exact deeds_updateClient env s i _ (by intro c; rfl)
    · cases h
      exact (deeds_updateClient env s i _ (by intro c; rfl)).trans (deeds_clientSendPendingDtls env _ i)

/-! ### `EpollWait` and the scan -/

theorem deeds_recvDatagrams {fuel : ℕ} {s : RuruLoop σ υ} {ds : List (SockaddrIn × List UInt8)}
    {r : Bool × RuruLoop σ υ} (h : s.recvDatagrams env fuel ds = some r) : Deeds env sends s r.2 := by
  induction ds generalizing s r with
  | nil =>
    cases h
    exact .refl
  | cons d ds ih =>
    unfold recvDatagrams at h
    dsimp only at h
    generalize haddress : (⟨ntohl d.1.sAddr, ntohs d.1.sinPort⟩ : RuruAddress) = address at h
    have htaken : Deeds env sends s (s.note (.recvfrom address (d.2.take 4096))) :=
      deeds_note env s (quiet_of_none s rfl rfl)
    split_ifs at h with hempty
    · cases h
      exact htaken
    · split at h
      · exact absurd h (by simp)
      · rename_i s1 hs1
        obtain ⟨r', hr', rfl⟩ := Option.map_eq_some_iff.mp h
        have hrest : Deeds env sends s1 r'.2 := ih hr'
        refine (htaken.trans ?_).trans hrest
        split at hs1
        · rename_i i hfind
          -- the datagram came from the address of the client that is found
          obtain ⟨client, hi, hclient⟩ :
              ∃ client, s.clientMgr_[i]? = some client ∧ client.address = address := by
            obtain ⟨hlt, hmatch, -⟩ := List.findIdx?_eq_some_iff_getElem.mp hfind
            refine ⟨s.clientMgr_[i], List.getElem?_eq_getElem hlt, ?_⟩
            simp only [Bool.and_eq_true, beq_iff_eq] at hmatch
            obtain ⟨h1, h2⟩ : s.clientMgr_[i].address.host = address.host ∧
                s.clientMgr_[i].address.port = address.port := hmatch
            cases hc : s.clientMgr_[i].address
            cases address
            rw [hc] at h1 h2
            simp_all
          have hpacket : Deed env sends (s.note (.recvfrom address (d.2.take 4096)))
              ((s.note (.recvfrom address (d.2.take 4096))).note (.dtlsPacket i (d.2.take 4096))) := by
            refine .packet hi ?_ ⟨hempty, List.length_take_le _ _⟩
            rw [hclient]
            exact List.mem_append_right _ (List.mem_singleton_self _)
          exact (ReflTransGen.single hpacket).trans (deeds_handleDtlsPacket env
            (List.mem_append_right _ (List.mem_singleton_self _)) hs1)
        · cases hs1
          exact .refl

theorem deeds_acceptOne (s : RuruLoop σ υ) (a : AcceptResult) : Deeds env sends s (s.acceptOne a) := by
  have hopened : Deeds env sends s (s.note (.opened a.cfd)) :=
    deeds_note env s (quiet_of_none s rfl rfl)
  refine hopened.trans ?_
  unfold acceptOne
  generalize s.note (.opened a.cfd) = s
  by_cases hnb : a.nonBlocking = true
  · simp only [if_pos hnb]
    have h1 : Deeds env sends s { s with
        cons := s.cons ++ [some ({ fd := a.cfd } : RuruConnectionData)]
        trace := s.trace ++ [.newCon s.cons.length a.cfd] } :=
      deeds_anonymous env rfl rfl _ rfl (by simp [Effect.isQuiet, Effect.subject])
    split_ifs
    · exact h1.trans (deeds_note env _ (quiet_of_none _ rfl rfl))
    · exact h1.trans (deeds_note env _ (quiet_of_none _ rfl rfl))
  · simp only [if_neg hnb]
    exact deeds_note env s (quiet_of_none s rfl rfl)

theorem deeds_accepts (as : List AcceptResult) (s : RuruLoop σ υ) :
    Deeds env sends s (as.foldl acceptOne s) := by
  induction as generalizing s with
  | nil => exact .refl
  | cons a as ih => exact (deeds_acceptOne env s a).trans (ih _)

theorem deeds_closeCon (s : RuruLoop σ υ) (c : ConId) (fd : ℤ) :
    Deeds env sends s (s.closeCon c fd) :=
  deeds_anonymous env rfl rfl [.close fd, .deleteCon c] rfl (by simp [Effect.isQuiet, Effect.subject])

/-- A registration; the number of the client is the number of the clients before. -/
theorem deeds_registerClient (s : RuruLoop σ υ) (address : RuruAddress) :
    Deeds env sends s
      ((s.registerClient env address).note (.registered s.clientMgr_.length address)) := by
  set t := Transport.construct env.usrsctp (env.junk s.clientMgr_.length) s.usr s.nextSock with ht
  have hprepared : Deeds env sends s (s.preparing env (env.junk s.clientMgr_.length)) :=
    .single (.construct s _)
  have hcalled : Deeds env sends s (s.usrsctpDone env s.clientMgr_.length t) :=
    hprepared.trans (deeds_callbacks env _ _)
  have hlength : (s.usrsctpDone env s.clientMgr_.length t).clientMgr_.length =
      s.clientMgr_.length := (work_usrsctpDone env s s.clientMgr_.length t).clients
  set client := (s.usrsctpDone env s.clientMgr_.length t).attachClientInfo
    ((s.usrsctpDone env s.clientMgr_.length t).ruruClient env s.clientMgr_.length t address)
  have hfresh : client.cache = [] :=
    (construct_idle env.usrsctp (env.junk s.clientMgr_.length) s.usr s.nextSock).cache
  have henroll : Deed env sends (s.usrsctpDone env s.clientMgr_.length t) _ := .enroll hfresh rfl
  rw [hlength] at henroll
  exact hcalled.tail henroll

theorem Answer.deeds {s t : RuruLoop σ υ} {fd : ℤ} {address : Option RuruAddress}
    (h : Answer env s fd address t) : Deeds env sends s t := by
  cases h with
  | silent => exact .refl
  | badRequest => exact deeds_note env s (quiet_of_none s rfl rfl)
  | ok address =>
    exact (deeds_registerClient env s address).trans (deeds_note env _ (quiet_of_none _ rfl rfl))

theorem Serves.deeds {fuel : ℕ} {s t : RuruLoop σ υ} {e : EpollEvent} (h : Serves env fuel s e t) :
    Deeds env sends s t := by
  cases h with
  | gone dead => exact .refl
  | error live failed => exact deeds_closeCon env s _ _
  | udp live sound fd drained => exact deeds_recvDatagrams env drained
  | accept live sound udp fd => exact deeds_accepts env e.accepts s
  | http live sound udp tcp answer => exact (answer.deeds env).trans (deeds_closeCon env _ _ _)

theorem deeds_epollEvents {fuel : ℕ} {s : RuruLoop σ υ} {es : List EpollEvent}
    {r : Bool × RuruLoop σ υ} (h : s.epollEvents env fuel es = some r) : Deeds env sends s r.2 :=
  epollEvents_induction env (fun _ => .refl) ReflTransGen.trans (fun _ _ _ _ hs => hs.deeds env) h

theorem deeds_scanClientCacheData (s : RuruLoop σ υ) :
    Deeds env sends s s.scanClientCacheData.2 := by
  rw [scanClientCacheData_snd]
  refine deeds_of_faces env rfl rfl _ rfl fun e he => ?_
  obtain ⟨i, hi, rfl⟩ := List.mem_map.mp he
  refine quiet_of_known rfl rfl ?_
  split_ifs at hi
  · exact List.mem_range.mp (List.mem_filter.mp hi).1
  · exact absurd hi (by simp)

/-! ### `Loop` and the handlers of the example server -/

/-- `Loop` sends no message of its own. -/
theorem deeds_loop {fuel : ℕ} {s : RuruLoop σ υ} {evt evt' : RuruEvent} {batch : EpollBatch}
    {haveData : Bool} {s' : RuruLoop σ υ}
    (h : s.loop env fuel evt batch = some (haveData, evt', s')) : Deeds env sends s s' := by
  cases hq : s.que_ with
  | cons front rest =>
    rw [loop_of_cons env hq] at h
    simp only [Option.some.injEq, Prod.mk.injEq] at h
    obtain ⟨rfl, rfl, rfl⟩ := h
    exact deeds_of_faces env rfl rfl [] (List.append_nil _).symm (by simp)
  | nil =>
    rw [loop_of_nil env hq] at h
    obtain ⟨r, hr, he⟩ := Option.map_eq_some_iff.mp h
    simp only [Prod.mk.injEq] at he
    obtain ⟨-, -, rfl⟩ := he
    have hreset : Deeds env sends s s.resetArena :=
      deeds_of_faces env rfl rfl [] (List.append_nil _).symm (by simp)
    exact (hreset.trans (deeds_scanClientCacheData env _)).trans (deeds_epollEvents env hr)

/-- Handling an event other than received data sends no message. -/
theorem deeds_handleEvent_other (s : RuruLoop σ υ) {evt : RuruEvent}
    (htype : evt.type ≠ .evtRecvClientData) : Deeds env sends s (s.handleEvent env evt) := by
  unfold handleEvent
  split
  · unfold sendHeartBeat
    split
    · exact .refl
    · exact deeds_clientSendHeartBeatData env s _
  · rename_i h
    exact absurd h htype
  · unfold sendClientCacheData
    split
    · exact .refl
    · exact deeds_sendSctpCacheData env s _
  · exact .refl

end RuruLoop

end Ruru
