import Ruru.Libc

/-!
# Ruru.Sctp — `RuruSctp` over an arbitrary usrsctp

The member functions of `RuruSctp` that use the socket.  usrsctp itself is a parameter: an
arbitrary state with one function for each entry point the code calls, so every choice of results
is some `Usrsctp`.  A `Transport` is what these functions read and write: the object, the cache of
its client, usrsctp, and the history of the calls made to it (which the code never reads).
Sockets are numbered in the order usrsctp creates them; a number is never used again.
-/

namespace Ruru

/-- A socket of usrsctp; `Option Sock` is a `struct socket *`. -/
abbrev Sock := ℕ

/-- The part of `struct sctp_rcvinfo` the code reads. -/
structure SctpRcvinfo where
  rcvSid : UInt16
  rcvSsn : UInt16
  rcvTsn : UInt32
deriving DecidableEq, Repr

/-- A message usrsctp delivers; its length is far below the range of `int32_t`. -/
abbrev Inbound := { data : List UInt8 // data.length < 2 ^ 31 }

/-- A callback of usrsctp: `OnSctpOutboundPacket(addr, ..)` or `OnSctpInboundPacket(.., ulp_info)`
on the transport of the client with that number. -/
inductive SctpCallback where
  | outbound (addr : ℕ) (data : List UInt8)
  | inbound (ulpInfo : ℕ) (data : Inbound) (rcv : SctpRcvinfo)

structure SctpMsgParam where
  sid : UInt16 := 0
  ppid : UInt32 := 0
deriving DecidableEq, Repr

/-- `RuruSctpMessage`: `data` and `len` are the bytes. -/
structure RuruSctpMessage where
  data : List UInt8
  param : SctpMsgParam := {}
deriving DecidableEq, Repr

structure RuruCacheData where
  param : SctpMsgParam
  data : List UInt8
  length : ℤ
deriving DecidableEq, Repr

/-- The fields of `struct sctp_sndinfo` that are set; `snd_flags` is always `SCTP_EOR`. -/
structure SctpSndinfo where
  sndSid : UInt16
  sndPpid : UInt32
deriving DecidableEq, Repr

/-- The result of `usrsctp_sendv`, the `errno` it leaves, and the `errno` that the `perror` behind a
failed send leaves (`perror` writes to `stderr`, and that may fail too). -/
structure SendvResult where
  ret : ℤ
  errno : ℕ
  perrorErrno : ℕ
deriving DecidableEq, Repr

/-- What a call to usrsctp gives back: its value, the callbacks it made meanwhile, its new state. -/
structure Ret (υ α : Type) where
  val : α
  callbacks : List SctpCallback
  usr : υ

/-- usrsctp, as the code sees it. -/
structure Usrsctp (υ : Type) where
  socket : υ → Ret υ Bool
  setNonBlocking : υ → Sock → Ret υ ℤ
  bind : υ → Sock → Ret υ ℤ
  listen : υ → Sock → Ret υ ℤ
  accept : υ → Option Sock → Ret υ Bool
  sendv : υ → Option Sock → List UInt8 → SctpSndinfo → Ret υ SendvResult
  close : υ → Option Sock → Ret υ Unit
  conninput : υ → List UInt8 → Ret υ Unit

/-- Which of its two call sites a `usrsctp_sendv` comes from. -/
inductive SendSite where
  | cache
  | direct
deriving DecidableEq, Repr

/-- A call to usrsctp with its arguments and result. -/
inductive UsrsctpFn where
  | socket (ret : Option Sock)
  | setNonBlocking (sock : Sock) (ret : ℤ)
  | bind (sock : Sock) (ret : ℤ)
  | listen (sock : Sock) (ret : ℤ)
  | accept (sock : Option Sock) (ret : Option Sock)
  | sendv (site : SendSite) (sock : Option Sock) (data : List UInt8) (info : SctpSndinfo)
      (ret : SendvResult)
  | close (sock : Option Sock)
  | conninput (data : List UInt8)
deriving DecidableEq, Repr

/-- A call to usrsctp with the callbacks made during it. -/
structure UsrsctpCall where
  fn : UsrsctpFn
  callbacks : List SctpCallback

/-- `RuruSctp` with `client->cache`, usrsctp and the calls made so far.  `crashed`: a null pointer
was dereferenced. -/
structure Transport (υ : Type) where
  sock_ : Option Sock
  bHandShakeDone : Bool
  cache : List RuruCacheData
  usr : υ
  nextSock : Sock
  calls : List UsrsctpCall := []
  crashed : Bool := false

namespace Transport

variable {υ : Type} {α : Type}

/-- The state after usrsctp has answered a call. -/
def answer (t : Transport υ) (fn : UsrsctpFn) (r : Ret υ α) : Transport υ :=
  { t with usr := r.usr, calls := t.calls ++ [⟨fn, r.callbacks⟩] }

variable (u : Usrsctp υ)

/-- `usrsctp_close(sock)`. -/
def usrsctpClose (t : Transport υ) (sock : Option Sock) : Transport υ :=
  t.answer (.close sock) (u.close t.usr sock)

/-- `RuruSctp::CloseSctpSocket`. -/
def closeSctpSocket (t : Transport υ) : Transport υ :=
  if t.sock_.isSome then { t.usrsctpClose u t.sock_ with sock_ := none } else t

/-- `RuruSctp::ConfigureSctpSocket` on the socket `s`; the options it sets are not checked. -/
def configureSctpSocket (t : Transport υ) (s : Sock) : Bool × Transport υ :=
  let r := u.setNonBlocking t.usr s
  let t := t.answer (.setNonBlocking s r.val) r
  if r.val < 0 then (false, t)
  else
    let r := u.bind t.usr s
    let t := t.answer (.bind s r.val) r
    if r.val < 0 then (false, t) else (true, t)

/-- `RuruSctp::RuruSctp(cli)` on an object whose memory reads as `t`; `cli` says whether the pointer
is not null.  `bHandShakeDone` is arbitrary until the last line sets it. -/
def ruruSctp (cli : Bool) (t : Transport υ) : Transport υ :=
  if cli then
    let r := u.socket t.usr
    if r.val then
      let s := t.nextSock
      let t := { t.answer (.socket (some s)) r with sock_ := some s, nextSock := s + 1 }
      let ok := (t.configureSctpSocket u s).1
      let t := (t.configureSctpSocket u s).2
      if ok then
        let r := u.listen t.usr s
        let t := t.answer (.listen s r.val) r
        if r.val < 0 then t.closeSctpSocket u
        else { t with bHandShakeDone := false }
      else t.closeSctpSocket u
    else { t.answer (.socket none) r with sock_ := none }
  -- every member stays uninitialised, `client` too
  else t

/-- The constructor of a new client's transport, whose `bHandShakeDone` reads as `junk`. -/
def construct (junk : Bool) (usr : υ) (nextSock : Sock) : Transport υ :=
  ruruSctp u true
    { sock_ := none, bHandShakeDone := junk, cache := [], usr := usr, nextSock := nextSock }

/-- `RuruSctp::PushMsg2ClientCache`. -/
def pushMsg2ClientCache (t : Transport υ) : Option RuruSctpMessage → Transport υ
  | none => { t with crashed := true }
  | some msg => { t with cache := t.cache ++ [⟨msg.param, msg.data, toInt32 msg.data.length⟩] }

/-- The `sctp_sndinfo` both call sites of `usrsctp_sendv` build. -/
def sndinfo (p : SctpMsgParam) : SctpSndinfo := ⟨p.sid, htonl p.ppid⟩

/-- The answer to `usrsctp_sendv(sock_, data, .., info, ..)`. -/
def sendv (t : Transport υ) (data : List UInt8) (info : SctpSndinfo) : Ret υ SendvResult :=
  u.sendv t.usr t.sock_ data info

/-- The state after that call, made at `site`. -/
def sent (t : Transport υ) (site : SendSite) (data : List UInt8) (info : SctpSndinfo) :
    Transport υ :=
  t.answer (.sendv site t.sock_ data info (t.sendv u data info).val) (t.sendv u data info)

/-- `errno != EWOULDBLOCK && errno != EAGAIN` after a failed send, where the code tests it: behind
the `perror`. -/
def SendvResult.fatal (r : SendvResult) : Bool :=
  r.perrorErrno != EWOULDBLOCK && r.perrorErrno != EAGAIN

/-- `usrsctp_close(sock_); bHandShakeDone = false`, after a send failed for good. -/
def giveUp (t : Transport υ) : Transport υ :=
  { t.usrsctpClose u t.sock_ with bHandShakeDone := false }

/-- The loop of `SendSctpCacheData` over the elements of the cache. -/
def flushCache : List RuruCacheData → Transport υ → Bool × Transport υ
  | [], t => (true, { t with cache := [] })
  | sendData :: rest, t =>
    let data := sendData.data.take (toSize sendData.length)
    let r := (t.sendv u data (sndinfo sendData.param)).val
    let t := t.sent u .cache data (sndinfo sendData.param)
    if r.ret < 0 then
      let t := { t with cache := sendData :: rest }
      if SendvResult.fatal r then (false, t.giveUp u) else (false, t)
    else flushCache rest t

/-- `RuruSctp::SendSctpCacheData`. -/
def sendSctpCacheData (t : Transport υ) : Bool × Transport υ :=
  if t.bHandShakeDone then flushCache u t.cache t else (false, t)

/-- `RuruSctp::SendUsrSctpData`; `none` is a null `sctpMsg`. -/
def sendUsrSctpData (t : Transport υ) (sctpMsg : Option RuruSctpMessage) : Bool × Transport υ :=
  let flushed := (t.sendSctpCacheData u).1
  let t := (t.sendSctpCacheData u).2
  if flushed then
    match sctpMsg with
    | none => (true, t)
    | some msg =>
      if t.bHandShakeDone then
        let r := (t.sendv u msg.data (sndinfo msg.param)).val
        let t := t.sent u .direct msg.data (sndinfo msg.param)
        if r.ret < 0 then
          if SendvResult.fatal r then (false, t.giveUp u)
          else (false, t.pushMsg2ClientCache (some msg))
        else (true, t)
      else (true, t)
  else (false, t.pushMsg2ClientCache sctpMsg)

/-- `RuruSctp::RecvUsrSctpData`; `none` is a null `data`. -/
def recvUsrSctpData (t : Transport υ) : Option (List UInt8) → Transport υ
  | none => t
  | some data =>
    let t :=
      if t.bHandShakeDone then t
      else
        let r := u.accept t.usr t.sock_
        if r.val then
          let s := t.nextSock
          let t := { t.answer (.accept t.sock_ (some s)) r with nextSock := s + 1 }
          { t.usrsctpClose u t.sock_ with sock_ := some s, bHandShakeDone := true }
        else t.answer (.accept t.sock_ none) r
    t.answer (.conninput data) (u.conninput t.usr data)

end Transport

/-- A usrsctp where every call succeeds, except that the sends give the results on a list, `perror`'s
`errno` included. -/
def scripted : Usrsctp (List SendvResult) where
  socket s := ⟨true, [], s⟩
  setNonBlocking s _ := ⟨0, [], s⟩
  bind s _ := ⟨0, [], s⟩
  listen s _ := ⟨0, [], s⟩
  accept s _ := ⟨true, [], s⟩
  sendv s _ data _ := ⟨s.headD ⟨data.length, 0, 0⟩, [], s.tail⟩
  close s _ := ⟨(), [], s⟩
  conninput s _ := ⟨(), [], s⟩

end Ruru
