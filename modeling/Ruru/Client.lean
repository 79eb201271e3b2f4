import Ruru.State

/-!
# Ruru.Client — the member functions of `RuruClient` and the callbacks of usrsctp

They run on the state of the whole loop, since a client reaches the loop's queue and arena through
`que` and `arena`.  usrsctp calls back while one of its functions runs; the callbacks touch nothing
that `RuruSctp` uses, so they are carried out in order when its member function is done.
-/

namespace Ruru

variable {σ υ : Type} (env : Env σ υ)

namespace RuruLoop

/-- The successive `BIO_read(outBio, buffer, 4096)` until nothing is pending; every one of them
takes at least a byte, so there are at most `fuel`, the number of bytes. -/
def bioReads : ℕ → List UInt8 → List (List UInt8)
  | 0, _ => []
  | fuel + 1, pending =>
    if pending = [] then [] else pending.take 4096 :: bioReads fuel (pending.drop 4096)

/-- `RuruClient::ClientSendPendingDtls`. -/
def clientSendPendingDtls (s : RuruLoop σ υ) (i : ℕ) : RuruLoop σ υ :=
  match s.clientMgr_[i]? with
  | none => s
  | some client =>
    let out := client.dtlsTransport.outBio
    let s := s.updateClient i fun c =>
      { c with dtlsTransport := { c.dtlsTransport with outBio := [] } }
    { s with trace := s.trace ++
      (bioReads out.length out).map fun buffer => .sendto client.udpfd_ client.address buffer }

/-- `RuruClient::ClientSendData`. -/
def clientSendData (s : RuruLoop σ υ) (i : ℕ) (data : List UInt8) : RuruLoop σ υ :=
  match s.clientMgr_[i]? with
  | none => s
  | some client =>
    let d := client.dtlsTransport
    if d.bHandShakeDone then
      let s := s.updateClient i fun c =>
        { c with dtlsTransport := d.after (env.openssl.write d.ssl d.inBio data) }
      s.clientSendPendingDtls i
    else s.note (.dropped i data)

/-- `ClientSendData(beat.data, beat.length)` for a heartbeat; the history shows the call. -/
def passBeat (s : RuruLoop σ υ) (i : ℕ) (beat : HeartBeatData) : RuruLoop σ υ :=
  (s.note (.beatSend i (beat.data.take beat.length) beat.length)).clientSendData env i
    (beat.data.take beat.length)

/-- The loop of `ClientSendHeartBeatData`; it ends because every round empties one cell. -/
def sendBeats : ℕ → RuruLoop σ υ → ℕ → RuruLoop σ υ
  | 0, s, _ => s
  | fuel + 1, s, i =>
    match s.clientMgr_[i]? with
    | none => s
    | some client =>
      match client.heartBeatRing.ringBufRead with
      | (none, _) => s
      | (some beat, ring) =>
        let s := s.updateClient i fun c => { c with heartBeatRing := ring }
        sendBeats fuel (s.passBeat env i beat) i

/-- `RuruClient::ClientSendHeartBeatData`. -/
def clientSendHeartBeatData (s : RuruLoop σ υ) (i : ℕ) : RuruLoop σ υ :=
  match s.clientMgr_[i]? with
  | none => s
  | some client => s.sendBeats env client.heartBeatRing.cap i

/-- `RingBufRead(beat)` has left `ring`, and the call that passes `beat` on begins. -/
def takeBeat (s : RuruLoop σ υ) (i : ℕ) (beat : HeartBeatData) (ring : RuruRingBuf HeartBeatData) :
    RuruLoop σ υ :=
  (s.updateClient i fun c => { c with heartBeatRing := ring }).note
    (.beatSend i (beat.data.take beat.length) beat.length)

@[simp] theorem trace_takeBeat (s : RuruLoop σ υ) (i : ℕ) (beat : HeartBeatData)
    (ring : RuruRingBuf HeartBeatData) : (s.takeBeat i beat ring).trace =
      s.trace ++ [.beatSend i (beat.data.take beat.length) beat.length] := rfl

@[simp] theorem que_takeBeat (s : RuruLoop σ υ) (i : ℕ) (beat : HeartBeatData)
    (ring : RuruRingBuf HeartBeatData) : (s.takeBeat i beat ring).que_ = s.que_ := rfl

/-! ### The callbacks of usrsctp -/

/-- `sizeof(SctpHeader)` and the offset of `chunktype` in it. -/
def sizeofSctpHeader : ℕ := 16
def chunktypeOffset : ℕ := 12

/-- The first chunk of a packet is HEARTBEAT (4) or HEARTBEAT-ACK (5). -/
def isHeartBeat (data : List UInt8) : Bool :=
  data.getD chunktypeOffset 0 == 4 || data.getD chunktypeOffset 0 == 5

/-- The `HeartBeatData` that `memcpy(beat.data, data, length); beat.length = length;` makes, as far
as the copy stays inside the array. -/
def heartBeatData (data : List UInt8) : HeartBeatData where
  data := data.take 1024
  length := toUint16 data.length
  fits := List.length_take_le 1024 data

/-- The heartbeat branch of `OnSctpOutboundPacket` for the client `i`, whose ring is `ring`. -/
def storeBeat (s : RuruLoop σ υ) (i : ℕ) (ring : RuruRingBuf HeartBeatData) (data : List UInt8) :
    RuruLoop σ υ :=
  let r := ring.ringBufWrite (heartBeatData data)
  let s := s.note (.beatCopy i data r.1)
  let s := s.updateClient i fun c => { c with heartBeatRing := r.2 }
  s.push { type := .evtHeartBeat, client := some i } none

@[simp] theorem trace_storeBeat (s : RuruLoop σ υ) (i : ℕ) (ring : RuruRingBuf HeartBeatData)
    (data : List UInt8) : (s.storeBeat i ring data).trace =
      s.trace ++ [.beatCopy i data (ring.ringBufWrite (heartBeatData data)).1,
        .push { type := .evtHeartBeat, client := some i } none] := by
  simp [storeBeat, RuruLoop.push, note, updateClient]

@[simp] theorem que_storeBeat (s : RuruLoop σ υ) (i : ℕ) (ring : RuruRingBuf HeartBeatData)
    (data : List UInt8) : (s.storeBeat i ring data).que_ =
      s.que_ ++ [{ type := .evtHeartBeat, client := some i }] := rfl

/-- `RuruSctp::OnSctpOutboundPacket`. -/
def onSctpOutboundPacket (s : RuruLoop σ υ) (i : ℕ) (data : List UInt8) : RuruLoop σ υ :=
  if data.length < sizeofSctpHeader then s
  else match s.clientMgr_[i]? with
    | none => s
    | some client =>
      if isHeartBeat data then s.storeBeat i client.heartBeatRing data
      else s.clientSendData env i data

/-- `evt.param.sid = rcv.rcv_sid;` and the two lines after it. -/
def dataParam (rcv : SctpRcvinfo) : RuruDataParam where
  sid := rcv.rcvSid.toUInt32.toInt32
  ssn := rcv.rcvSsn.toUInt32.toInt32
  tsn := rcv.rcvTsn.toInt32

/-- `PushClientRecvData`. -/
def pushClientRecvData (s : RuruLoop σ υ) (i : ℕ) (data : Inbound) (rcv : SctpRcvinfo) :
    RuruLoop σ υ :=
  match s.clientMgr_[i]? with
  | none => s
  | some client =>
    if client.que.isSome then
      match s.arena_.arenaAlloc (toInt32 data.1.length) with
      | (none, arena) => { s with arena_ := arena }
      | (some p, arena) =>
        let s := { s with arena_ := arena.memcpy p data.1 }
        s.push { type := .evtRecvClientData
                 client := some i
                 data := some p
                 length := toUint16 data.1.length
                 param := dataParam rcv } (some (data, rcv))
    else s

/-- A callback; `OnSctpInboundPacket` does nothing but hand its data to `PushClientRecvData`. -/
def callback (s : RuruLoop σ υ) : SctpCallback → RuruLoop σ υ
  | .outbound addr data => s.onSctpOutboundPacket env addr data
  | .inbound ulpInfo data rcv => s.pushClientRecvData ulpInfo data rcv

def callbacks (s : RuruLoop σ υ) (cbs : List SctpCallback) : RuruLoop σ υ :=
  cbs.foldl (callback env) s

/-- What `RuruSctp` of the client `i` sees. -/
def transport (s : RuruLoop σ υ) (client : RuruClient σ) : Transport υ where
  sock_ := client.sctpTransport.sock_
  bHandShakeDone := client.sctpTransport.bHandShakeDone
  cache := client.cache
  usr := s.usr
  nextSock := s.nextSock

/-- The loop after usrsctp has answered the calls of the transport `t` of client `i`. -/
def usrsctpDone (s : RuruLoop σ υ) (i : ℕ) (t : Transport υ) : RuruLoop σ υ :=
  callbacks env
    { s with
      usr := t.usr
      nextSock := t.nextSock
      trace := s.trace ++ t.calls.map (Effect.usrsctp i) }
    (t.calls.flatMap UsrsctpCall.callbacks)

/-- The loop after a member function of the `RuruSctp` of client `i` left the transport `t`. -/
def withTransport (s : RuruLoop σ υ) (i : ℕ) (t : Transport υ) : RuruLoop σ υ :=
  let s := s.updateClient i fun c =>
    { c with sctpTransport := ⟨t.sock_, t.bHandShakeDone⟩, cache := t.cache }
  s.usrsctpDone env i t

/-- `client->sctpTransport.RecvUsrSctpData(data, length)`. -/
def recvUsrSctpData (s : RuruLoop σ υ) (i : ℕ) (data : List UInt8) : RuruLoop σ υ :=
  match s.clientMgr_[i]? with
  | none => s
  | some client =>
    s.withTransport env i ((s.transport client).recvUsrSctpData env.usrsctp (some data))

/-- `client->sctpTransport.SendUsrSctpData(&msg)`. -/
def sendUsrSctpData (s : RuruLoop σ υ) (i : ℕ) (msg : RuruSctpMessage) : RuruLoop σ υ :=
  match s.clientMgr_[i]? with
  | none => s
  | some client =>
    s.withTransport env i ((s.transport client).sendUsrSctpData env.usrsctp (some msg)).2

/-- `client->sctpTransport.SendSctpCacheData()`. -/
def sendSctpCacheData (s : RuruLoop σ υ) (i : ℕ) : RuruLoop σ υ :=
  match s.clientMgr_[i]? with
  | none => s
  | some client =>
    s.withTransport env i ((s.transport client).sendSctpCacheData env.usrsctp).2

/-! ### `HandleDtlsPacket` -/

/-- One `SSL_read` of the loop, and what follows when it returned data. -/
def dtlsRead (s : RuruLoop σ υ) (i : ℕ) : RuruLoop σ υ :=
  match s.clientMgr_[i]? with
  | none => s
  | some client =>
    let d := client.dtlsTransport
    let r := env.openssl.read d.ssl d.inBio
    let s := s.updateClient i fun c => { c with dtlsTransport := d.after r }
    if r.ret > 0 then
      let data := r.buffer.take r.ret.toNat
      (s.note (.dtlsData i data)).recvUsrSctpData env i data
    else s

/-- `BIO_ctrl_pending(inBio) > 0` for the client `i`. -/
def inPending (s : RuruLoop σ υ) (i : ℕ) : Bool :=
  match s.clientMgr_[i]? with
  | none => false
  | some client => !client.dtlsTransport.inBio.isEmpty

/-- `while (BIO_ctrl_pending(inBio) > 0)`, for at most `fuel` rounds. -/
def dtlsReadLoop : ℕ → RuruLoop σ υ → ℕ → Option (RuruLoop σ υ)
  | 0, s, i => if s.inPending i then none else some s
  | fuel + 1, s, i => if s.inPending i then dtlsReadLoop fuel (s.dtlsRead env i) i else some s

/-- `RuruClient::HandleDtlsPacket`, when its loop takes at most `fuel` rounds. -/
def handleDtlsPacket (fuel : ℕ) (s : RuruLoop σ υ) (i : ℕ) (data : List UInt8) :
    Option (RuruLoop σ υ) :=
  match s.clientMgr_[i]? with
  | none => some s
  | some client =>
    let d := { client.dtlsTransport with inBio := client.dtlsTransport.inBio ++ data }
    if env.openssl.isInitFinished d.ssl then
      let s := s.updateClient i fun c => { c with dtlsTransport := { d with bHandShakeDone := true } }
      (s.clientSendPendingDtls i).dtlsReadLoop env fuel i
    else
      let r := env.openssl.doHandshake d.ssl d.inBio
      let s := s.updateClient i fun c => { c with dtlsTransport := d.after r }
      if r.ret ≤ 0 then
        if env.openssl.getError r.ssl r.ret = SSL_ERROR_WANT_READ then
          some (s.clientSendPendingDtls i)
        else some s
      else some (s.clientSendPendingDtls i)

end RuruLoop

end Ruru
