import Ruru.Arena
import Ruru.RingBuf
import Ruru.Sctp

/-!
# Ruru.State — the data of a `RuruLoop` and of its clients

A client is its position in `clientMgr_`, which only grows at the end; a connection record is its
position in `cons`, the records made so far, with `none` where it was deleted.  OpenSSL, usrsctp,
cJSON and `inet_addr` are the fields of an `Env`.  `trace` is the history of what the code did to
the outside and of the events it pushed; the code never reads it.
-/

namespace Ruru

/-! ### Events -/

inductive RuruEventType where
  | evtNone
  | evtRecvClientData
  | evtHeartBeat
  | evtSendCacheData
deriving DecidableEq, Repr

structure RuruDataParam where
  sid : Int32 := 0
  ssn : Int32 := 0
  tsn : Int32 := 0
deriving DecidableEq

/-- `client` and `data` are NULL as `none`; `length` is a `uint16_t`. -/
structure RuruEvent where
  type : RuruEventType := .evtNone
  client : Option ℕ := none
  data : Option ℕ := none
  length : ℕ := 0
  param : RuruDataParam := {}
deriving DecidableEq

/-! ### OpenSSL -/

/-- What an OpenSSL call gives back: its value, the new SSL object, how many bytes it took from
`inBio`, what it appended to `outBio`, and what it stored in the caller's buffer. -/
structure SslCall (σ : Type) where
  ret : ℤ
  ssl : σ
  consumed : ℕ := 0
  written : List UInt8 := []
  buffer : List UInt8 := []

/-- OpenSSL, as the code sees it; the BIOs are memory BIOs, so their contents are the code's. -/
structure OpenSSL (σ : Type) where
  sslNew : ℕ → σ
  isInitFinished : σ → Bool
  doHandshake : σ → List UInt8 → SslCall σ
  getError : σ → ℤ → ℤ
  read : σ → List UInt8 → SslCall σ
  write : σ → List UInt8 → List UInt8 → SslCall σ

def SSL_ERROR_WANT_READ : ℤ := 2

structure RuruDtls (σ : Type) where
  ssl : σ
  inBio : List UInt8
  outBio : List UInt8
  bHandShakeDone : Bool

/-- The object after an OpenSSL call. -/
def RuruDtls.after {σ : Type} (d : RuruDtls σ) (r : SslCall σ) : RuruDtls σ :=
  { d with ssl := r.ssl, inBio := d.inBio.drop r.consumed, outBio := d.outBio ++ r.written }

/-! ### Clients -/

structure RuruAddress where
  host : UInt32 := 0
  port : UInt16 := 0
deriving DecidableEq

/-- The part of `data` that was written, which fits the array, and the `uint16_t` `length`. -/
structure HeartBeatData where
  data : List UInt8
  length : ℕ
  fits : data.length ≤ 1024
deriving DecidableEq

/-- The fields of `RuruSctp`. -/
structure RuruSctp where
  sock_ : Option Sock
  bHandShakeDone : Bool

/-- The identity of a loop, which the pointers of its clients refer to. -/
abbrev LoopId := ℕ

/-- `que` and `arena` are the loop whose queue and arena the client uses. -/
structure RuruClient (σ : Type) where
  dtlsTransport : RuruDtls σ
  sctpTransport : RuruSctp
  heartBeatRing : RuruRingBuf HeartBeatData
  address : RuruAddress
  que : Option LoopId
  arena : Option LoopId
  cache : List RuruCacheData
  udpfd_ : ℤ

/-! ### Connections -/

abbrev ConId := ℕ

structure RuruConnectionData where
  fd : ℤ := -1
  data : ℕ → UInt8 := fun _ => 0
  length : ℤ := 0

/-! ### The loop -/

/-- What the code does to the outside, the events it pushes, the way of the heartbeats (the `memcpy`
of a packet into a `HeartBeatData` with the result of `RingBufWrite`, and what
`ClientSendHeartBeatData` passes to `ClientSendData`), what `ClientSendData` drops before the
handshake, the datagrams taken from the socket, those passed to `HandleDtlsPacket` and the data
passed on to `RecvUsrSctpData`, the clients whose registration is answered 200 OK, and the
descriptors `socket`, `epoll_create1` and `accept` return. -/
inductive Effect where
  | push (evt : RuruEvent) (origin : Option (Inbound × SctpRcvinfo))
  | usrsctp (client : ℕ) (call : UsrsctpCall)
  | beatCopy (client : ℕ) (data : List UInt8) (stored : Bool)
  | beatSend (client : ℕ) (data : List UInt8) (length : ℕ)
  | dropped (client : ℕ) (data : List UInt8)
  | recvfrom (address : RuruAddress) (data : List UInt8)
  | dtlsPacket (client : ℕ) (data : List UInt8)
  | dtlsData (client : ℕ) (data : List UInt8)
  | registered (client : ℕ) (address : RuruAddress)
  | sendto (fd : ℤ) (dest : RuruAddress) (data : List UInt8)
  | socketWrite (fd : ℤ) (text : String)
  | opened (fd : ℤ)
  | close (fd : ℤ)
  | newCon (con : ConId) (fd : ℤ)
  | deleteCon (con : ConId)
  | epollAdd (con : ConId) (fd : ℤ)

def INT_MAX : ℤ := 2 ^ 31 - 1
def INT_MIN : ℤ := -2 ^ 31

/-- A `double` that `strtod` reads in the text of a JSON number; that is never a NaN. -/
inductive Double where
  | finite (value : ℚ)
  | infinite (negative : Bool)

/-- `valueint` of a JSON number: it saturates to `int`, and a fraction is cut off. -/
def Double.valueint : Double → ℤ
  | .finite value =>
    if INT_MAX ≤ value then INT_MAX
    else if value ≤ INT_MIN then INT_MIN
    else value.num.tdiv value.den
  | .infinite negative => if negative then INT_MIN else INT_MAX

/-- A parsed JSON value, as far as the code looks at it. -/
inductive CJson where
  | string (valuestring : List UInt8)
  | number (valuedouble : Double)
  | object (members : List (List UInt8 × CJson))
  | other

/-- The libraries the server calls.  `junk` is what an uninitialised `bHandShakeDone` of the client
with that number reads as, `ringMemory` what its ring buffer holds before the first write. -/
structure Env (σ υ : Type) where
  openssl : OpenSSL σ
  usrsctp : Usrsctp υ
  cJsonParse : List UInt8 → Option CJson
  inetAddr : List UInt8 → UInt32
  junk : ℕ → Bool
  ringMemory : ℕ → ℕ → HeartBeatData

/-- A `RuruLoop` with the connection records, usrsctp and the static `count` of
`ScanClientCacheData`. -/
structure RuruLoop (σ υ : Type) where
  this : LoopId
  udpfd_ : ℤ
  tcpfd_ : ℤ
  clientMgr_ : List (RuruClient σ)
  que_ : List RuruEvent
  arena_ : RuruArena
  cons : List (Option RuruConnectionData)
  usr : υ
  nextSock : Sock
  count : ℤ
  trace : List Effect

namespace RuruLoop

variable {σ υ : Type}

def note (s : RuruLoop σ υ) (e : Effect) : RuruLoop σ υ := { s with trace := s.trace ++ [e] }

/-- `que->push(evt)`, for an event made from the inbound message `origin`, if any. -/
def push (s : RuruLoop σ υ) (evt : RuruEvent) (origin : Option (Inbound × SctpRcvinfo)) :
    RuruLoop σ υ :=
  { s with que_ := s.que_ ++ [evt], trace := s.trace ++ [.push evt origin] }

/-- The client `i` after `f`. -/
def updateClient (s : RuruLoop σ υ) (i : ℕ) (f : RuruClient σ → RuruClient σ) : RuruLoop σ υ :=
  { s with clientMgr_ := s.clientMgr_.modify i f }

@[simp] theorem length_updateClient (s : RuruLoop σ υ) (i : ℕ) (f : RuruClient σ → RuruClient σ) :
    (s.updateClient i f).clientMgr_.length = s.clientMgr_.length := by
  simp [updateClient]

/-- What `f` leaves alone stays. -/
theorem map_updateClient {α : Type} (g : RuruClient σ → α) (s : RuruLoop σ υ) (i : ℕ)
    {f : RuruClient σ → RuruClient σ} (hf : ∀ c, s.clientMgr_[i]? = some c → g (f c) = g c) :
    (s.updateClient i f).clientMgr_.map g = s.clientMgr_.map g := by
  apply List.ext_getElem?
  intro j
  simp only [updateClient, List.getElem?_map, List.getElem?_modify]
  by_cases hij : i = j
  · subst hij
    cases hc : s.clientMgr_[i]? with
    | none => rfl
    | some c => simp [hf c hc]
  · simp [hij]

end RuruLoop

end Ruru
