import Ruru.Client
import Ruru.Http.PhrParse

/-!
# Ruru.Http.Handler — `RuruLoop::HttpRequestHandle`

The body of the endless loop has two halves, the `read` with its test and the parse with what
follows; `HttpState` says which half is next or how the loop was left.  All the handler does to the
loop's state it does after leaving the loop.
-/

namespace Ruru

open Memory Http

def HTTP_MAX_SIZE : ℕ := 4096

/-- The number of elements of `headers`. -/
def maxHeaders : ℕ := 16

/-- What `read` can do: deliver bytes (none at the end of the stream), or fail with an errno. -/
inductive ReadResult where
  | bytes (bs : List UInt8)
  | fail (errno : ℕ)
deriving DecidableEq

/-- Where the handler of a connection is.  `undefined`: `con->length` is negative, so the parser is
told the buffer had almost 2^64 bytes. -/
inductive HttpState where
  | reading (con : RuruConnectionData)
  | parsing (con : RuruConnectionData) (lastLen : ℕ)
  | closed
  | badRequest
  | body (con : RuruConnectionData) (status : ℕ) (contentLength : ℕ)
  | undefined

/-- `"content-length"`. -/
def contentLengthName : List UInt8 :=
  [99, 111, 110, 116, 101, 110, 116, 45, 108, 101, 110, 103, 116, 104]

/-- `name_len == strlen("content-length")` and the name is that, in any case. -/
def isContentLength (data : ℕ → UInt8) (h : PhrHeader) : Bool :=
  h.nameLen == contentLengthName.length &&
    match h.name with
    | none => false
    | some name => (load data name contentLengthName.length).map toLower == contentLengthName

/-- `contentLength` after the loop over the headers, if `data` has `size` bytes; `atoi` reads on from
the value. -/
def contentLengthIn (size : ℕ) (data : ℕ → UInt8) (headers : List PhrHeader) : ℕ :=
  match headers.find? (isContentLength data) with
  | none => 0
  | some h => toSize (atoi (load data h.value (size - h.value)))

/-- `contentLength` for `con->data`. -/
def contentLength (data : ℕ → UInt8) (headers : List PhrHeader) : ℕ :=
  contentLengthIn HTTP_MAX_SIZE data headers

/-- The size `HTTP_MAX_SIZE - con->length` that `read` is asked for. -/
def RuruConnectionData.readSize (con : RuruConnectionData) : ℕ :=
  toSize (HTTP_MAX_SIZE - con.length)

/-- The bytes `read` delivers when asked for `count`. -/
def ReadResult.got (count : ℕ) : ReadResult → List UInt8
  | .bytes bs => bs.take count
  | .fail _ => []

/-- What `read` does when asked for `count` bytes with `r` there: asked for none, it returns 0. -/
def ReadResult.asked (count : ℕ) (r : ReadResult) : ReadResult := if count = 0 then .bytes [] else r

/-- The first half: `read` to `data + length`, its test, `lastLen` and the new `length`. -/
def httpRead (con : RuruConnectionData) (r : ReadResult) : HttpState :=
  if con.length < 0 ∨ HTTP_MAX_SIZE < con.length then .undefined
  else
    let got := r.got con.readSize
    match r with
    | .fail errno =>
      if errno ≠ EAGAIN then .closed
      else .parsing { con with length := toInt32 (con.length - 1) } (toSize con.length)
    | .bytes _ =>
      if got = [] then .closed
      else
        .parsing { con with
          data := store con.data con.length.toNat got
          length := toInt32 (con.length + got.length) } (toSize con.length)

/-- The second half: the parse and the branches on `status`. -/
def httpParse (con : RuruConnectionData) (lastLen : ℕ) : HttpState :=
  if con.length < 0 then .undefined
  else match phrParseRequest (load con.data 0 con.length.toNat) maxHeaders lastLen with
    | .ok (status, request) =>
      let n := contentLength con.data request.headers
      if n > 0 then
        if con.length = toInt32 (status + toInt32 n) then .body con status n else .reading con
      else .reading con
    | .error ret =>
      if ret = -1 then .closed
      else if con.length = HTTP_MAX_SIZE then .badRequest
      else .reading con

/-- One round of the loop. -/
def httpPass (con : RuruConnectionData) (r : ReadResult) : HttpState :=
  match httpRead con (r.asked con.readSize) with
  | .parsing con lastLen => httpParse con lastLen
  | st => st

/-- The loop, until it is left or the results of `read` are used up. -/
def httpLoop : RuruConnectionData → List ReadResult → HttpState
  | con, [] => .reading con
  | con, r :: rs =>
    match httpPass con r with
    | .reading con => httpLoop con rs
    | st => st

/-! ### `BodyParse` and the registration -/

/-- `cJSON_GetObjectItem`: the first member with that name, in any case. -/
def CJson.getObjectItem (root : CJson) (name : List UInt8) : Option CJson :=
  match root with
  | .object members => (members.find? fun m => m.1.map toLower == name.map toLower).map (·.2)
  | _ => none

/-- The string at `data + p`, if `data` has `size` bytes: the bytes up to the first NUL. -/
def cString (size : ℕ) (data : ℕ → UInt8) (p : ℕ) : List UInt8 :=
  (load data p (size - p)).takeWhile (· != 0)

/-- `"ip"`. -/
def ipName : List UInt8 := [105, 112]

/-- `"port"`. -/
def portName : List UInt8 := [112, 111, 114, 116]

variable {σ υ : Type} (env : Env σ υ)

/-- `BodyParse(data + p, length, address)`, if `data` has `size` bytes: the address, when it returns
true. -/
def bodyParseIn (size : ℕ) (data : ℕ → UInt8) (p : ℕ) (length : ℤ) : Option RuruAddress :=
  if length < 0 then none
  else match env.cJsonParse (cString size data p) with
    | none => none
    | some root =>
      match root.getObjectItem ipName, root.getObjectItem portName with
      | some (.string ip), some (.number port) =>
        some ⟨ntohl (env.inetAddr ip), .ofInt port.valueint⟩
      | _, _ => none

/-- `BodyParse(con->data + p, length, address)`. -/
def bodyParse (data : ℕ → UInt8) (p : ℕ) (length : ℤ) : Option RuruAddress :=
  bodyParseIn env HTTP_MAX_SIZE data p length

namespace RuruLoop

/-- `AttachClientInfo`. -/
def attachClientInfo (s : RuruLoop σ υ) (client : RuruClient σ) : RuruClient σ :=
  { client with que := some s.this, arena := some s.this }

/-- `new RuruClient(&dtsCtx_, address, udpfd_)`, the client with number `i`, once the constructor of
its `sctpTransport` has left `t`. -/
def ruruClient (s : RuruLoop σ υ) (i : ℕ) (t : Transport υ) (address : RuruAddress) :
    RuruClient σ where
  dtlsTransport := ⟨env.openssl.sslNew i, [], [], false⟩
  sctpTransport := ⟨t.sock_, t.bHandShakeDone⟩
  heartBeatRing := .ruruRingBuf (env.ringMemory i) 100 (by decide) (by decide)
  address := address
  que := none
  arena := none
  cache := t.cache
  udpfd_ := s.udpfd_

/-- The new client, `AttachClientInfo` and `push_back`. -/
def registerClient (s : RuruLoop σ υ) (address : RuruAddress) : RuruLoop σ υ :=
  let i := s.clientMgr_.length
  let t := Transport.construct env.usrsctp (env.junk i) s.usr s.nextSock
  let s := s.usrsctpDone env i t
  { s with clientMgr_ := s.clientMgr_ ++ [s.attachClientInfo (s.ruruClient env i t address)] }

/-- `close(con->fd); delete con;`. -/
def closeCon (s : RuruLoop σ υ) (c : ConId) (fd : ℤ) : RuruLoop σ υ :=
  { s with cons := s.cons.set c none, trace := s.trace ++ [.close fd, .deleteCon c] }

def HTTP_BAD_REQUEST : String := "HTTP/1.1 400 Bad request\r\n\r\n"

def httpOk : String :=
  "HTTP/1.1 200 OK\r\nContent-Type: application/json\r\nConnection: close\r\n\r\n"

theorem bad_request_ne_ok : HTTP_BAD_REQUEST ≠ httpOk := by decide

attribute [irreducible] HTTP_BAD_REQUEST httpOk

/-- What follows `BodyParse`, with the address it found, if it returned true. -/
def httpAnswer (s : RuruLoop σ υ) (c : ConId) (fd : ℤ) : Option RuruAddress → RuruLoop σ υ
  | some address =>
    let client := s.clientMgr_.length
    let s := (s.registerClient env address).note (.registered client address)
    (s.note (.socketWrite fd httpOk)).closeCon c fd
  | none => (s.note (.socketWrite fd HTTP_BAD_REQUEST)).closeCon c fd

/-- `HttpRequestHandle(con)`; `none` if it has not returned after the last of `reads`. -/
def httpRequestHandle (s : RuruLoop σ υ) (c : ConId) (con : RuruConnectionData)
    (reads : List ReadResult) : Option (RuruLoop σ υ) :=
  match httpLoop con reads with
  | .reading _ | .parsing _ _ | .undefined => none
  | .closed => some (s.closeCon c con.fd)
  | .badRequest => some ((s.note (.socketWrite con.fd HTTP_BAD_REQUEST)).closeCon c con.fd)
  | .body con status n =>
    some (s.httpAnswer env c con.fd (bodyParse env con.data status (toInt32 n)))

end RuruLoop

end Ruru
