import Ruru.Http.Handler

/-!
# Ruru.Loop — `UpdateEvent`, `ScanClientCacheData`, `EpollWait` and `Loop`

The kernel is an argument: for each event of a batch the mask and what the calls made while it is
served return.  A function that never returns has no result, hence the `Option`; `fuel` bounds the
rounds of each `HandleDtlsPacket`.
-/

namespace Ruru

/-- `struct sockaddr_in`, in network byte order. -/
structure SockaddrIn where
  sAddr : UInt32
  sinPort : UInt16
deriving DecidableEq

def ntohs (x : UInt16) : UInt16 := .ofNat (x.toNat % 2 ^ 8 * 2 ^ 8 + x.toNat / 2 ^ 8)

/-- A successful `accept`, with what `SetNonBlocking` and `epoll_ctl` make of it. -/
structure AcceptResult where
  cfd : ℤ
  nonBlocking : Bool
  added : Bool
deriving DecidableEq

/-- An event of `epoll_wait`: the record in `data.ptr`, the mask, and what is there to receive, to
accept or to read until the call would block. -/
structure EpollEvent where
  ptr : ConId
  epollErr : Bool := false
  epollHup : Bool := false
  epollIn : Bool := true
  datagrams : List (SockaddrIn × List UInt8) := []
  accepts : List AcceptResult := []
  reads : List ReadResult := []
deriving DecidableEq

/-- What `epoll_wait` returns; it reports a registered descriptor once. -/
structure EpollBatch where
  events : List EpollEvent
  nodup : (events.map (·.ptr)).Nodup

namespace RuruLoop

variable {σ υ : Type} (env : Env σ υ)

/-- A loop after its constructor has succeeded: no client, an empty queue, an unused arena of 2^20
bytes, and the records of the two sockets. -/
def constructed (this : LoopId) (udpfd tcpfd : ℤ) (memory : ℕ → UInt8) (usr : υ) (nextSock : Sock)
    (count : ℤ) : RuruLoop σ υ where
  this := this
  udpfd_ := udpfd
  tcpfd_ := tcpfd
  clientMgr_ := []
  que_ := []
  arena_ := .ruruArena memory 20
  cons := [some { fd := udpfd }, some { fd := tcpfd }]
  usr := usr
  nextSock := nextSock
  count := count
  trace := [.opened udpfd, .opened tcpfd, .newCon 0 udpfd, .epollAdd 0 udpfd, .newCon 1 tcpfd,
    .epollAdd 1 tcpfd]

/-- `FindClientByAddress`. -/
def findClientByAddress (s : RuruLoop σ υ) (address : RuruAddress) : Option ℕ :=
  s.clientMgr_.findIdx? fun client =>
    client.address.host == address.host && client.address.port == address.port

/-- `arena_.ArenaReset()`. -/
def resetArena (s : RuruLoop σ υ) : RuruLoop σ υ := { s with arena_ := s.arena_.arenaReset }

/-- `UpdateEvent`. -/
def updateEvent (s : RuruLoop σ υ) (evt : RuruEvent) : Bool × RuruEvent × RuruLoop σ υ :=
  match s.que_ with
  | front :: rest => (true, front, { s with que_ := rest })
  | [] => (false, evt, s.resetArena)

/-- The period of the scan. -/
def roll : ℤ := 100

/-- The clients whose cache is not empty. -/
def cachingClients (s : RuruLoop σ υ) : List ℕ :=
  (List.range s.clientMgr_.length).filter fun i =>
    (s.clientMgr_[i]?).any fun client => !client.cache.isEmpty

/-- `ScanClientCacheData`; the counter wraps around. -/
def scanClientCacheData (s : RuruLoop σ υ) : Bool × RuruLoop σ υ :=
  let due := s.count.tmod roll = 0
  let s := { s with count := toInt32 (s.count + 1) }
  if ¬due then (false, s)
  else
    (!s.cachingClients.isEmpty, s.cachingClients.foldl
      (fun s i => s.push { type := .evtSendCacheData, client := some i } none) s)

/-- `while ((bytes = recvfrom(..)) > 0)`. -/
def recvDatagrams (fuel : ℕ) : RuruLoop σ υ → List (SockaddrIn × List UInt8) →
    Option (Bool × RuruLoop σ υ)
  | s, [] => some (false, s)
  | s, (remote, datagram) :: rest =>
    let buffer := datagram.take 4096
    let address : RuruAddress := ⟨ntohl remote.sAddr, ntohs remote.sinPort⟩
    let s := s.note (.recvfrom address buffer)
    if buffer = [] then some (false, s)
    else
      let handled := match s.findClientByAddress address with
        | some client => (s.note (.dtlsPacket client buffer)).handleDtlsPacket env fuel client buffer
        | none => some s
      match handled with
      | none => none
      | some s => (recvDatagrams fuel s rest).map fun r => (true, r.2)

/-- The body of the loop over `accept`, when it returned a descriptor. -/
def acceptOne (s : RuruLoop σ υ) (a : AcceptResult) : RuruLoop σ υ :=
  let s := s.note (.opened a.cfd)
  if a.nonBlocking then
    let con := s.cons.length
    let s := { s with
      cons := s.cons ++ [some ({ fd := a.cfd } : RuruConnectionData)]
      trace := s.trace ++ [Effect.newCon con a.cfd] }
    if a.added then s.note (.epollAdd con a.cfd) else s.note (.close a.cfd)
  else s.note (.close a.cfd)

/-- The body of the loop over the events. -/
def epollEvent (fuel : ℕ) (s : RuruLoop σ υ) (e : EpollEvent) : Option (Bool × RuruLoop σ υ) :=
  match (s.cons[e.ptr]?).join with
  | none => some (false, s)
  | some con =>
    if e.epollErr || e.epollHup || !e.epollIn then some (false, s.closeCon e.ptr con.fd)
    else if con.fd = s.udpfd_ then s.recvDatagrams env fuel e.datagrams
    else if con.fd = s.tcpfd_ then some (true, e.accepts.foldl acceptOne s)
    else (s.httpRequestHandle env e.ptr con e.reads).map fun s => (true, s)

/-- The loop over the events. -/
def epollEvents (fuel : ℕ) : RuruLoop σ υ → List EpollEvent → Option (Bool × RuruLoop σ υ)
  | s, [] => some (false, s)
  | s, e :: rest =>
    match s.epollEvent env fuel e with
    | none => none
    | some (haveData, s) => (epollEvents fuel s rest).map fun r => (haveData || r.1, r.2)

/-- `EpollWait`; only a registered descriptor is reported, so the record of an event is one that is
live when `epoll_wait` is called. -/
def epollWait (fuel : ℕ) (s : RuruLoop σ υ) (batch : EpollBatch) : Option (Bool × RuruLoop σ υ) :=
  s.epollEvents env fuel (batch.events.filter fun e => ((s.cons[e.ptr]?).join).isSome)

/-- `Loop(evt)`: its result, `evt` afterwards, and the loop. -/
def loop (fuel : ℕ) (s : RuruLoop σ υ) (evt : RuruEvent) (batch : EpollBatch) :
    Option (Bool × RuruEvent × RuruLoop σ υ) :=
  let r := s.updateEvent evt
  if r.1 then some r
  else
    let scan := r.2.2.scanClientCacheData
    match scan.2.epollWait env fuel batch with
    | none => none
    | some (haveData, s) => some (scan.1 || haveData, r.2.1, s)

end RuruLoop

end Ruru
