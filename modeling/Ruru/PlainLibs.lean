import Ruru.Loop

/-!
# Ruru.PlainLibs — an `Env` to run the server with

A usrsctp whose sends give scripted results, an OpenSSL whose connections are established and send
their records unencrypted, and the answers of cJSON and `inet_addr` for one registration.
-/

namespace Ruru

/-- An ASCII text as bytes. -/
def ascii (s : String) : List UInt8 := s.toList.map fun c => c.toNat.toUInt8

/-- An established connection; `closed` after a close_notify was received. -/
structure PlainSsl where
  closed : Bool
deriving DecidableEq

/-- The content type of an alert record. -/
def alertType : UInt8 := 21

/-- `SSL_read` takes what is pending; an alert closes the connection, and from then on `SSL_read`
returns 0 without taking anything. -/
def plainSsl : OpenSSL PlainSsl where
  sslNew _ := ⟨false⟩
  isInitFinished _ := true
  doHandshake s _ := { ret := 1, ssl := s }
  getError _ _ := 0
  read s inBio :=
    if s.closed then { ret := 0, ssl := s }
    else if inBio.head? = some alertType then
      { ret := 0, ssl := ⟨true⟩, consumed := inBio.length }
    else { ret := inBio.length, ssl := s, consumed := inBio.length, buffer := inBio }
  write s _ data := { ret := data.length, ssl := s, written := data }

/-- The body of a registration. -/
def sampleBody : List UInt8 := ascii "\x7b\"ip\":\"127.0.0.1\",\"port\":5000\x7d"

/-- A registration request. -/
def sampleRequest : List UInt8 :=
  ascii "POST / HTTP/1.1\r\nContent-Length: 30\r\n\r\n" ++ sampleBody

/-- What cJSON makes of `sampleBody`. -/
def sampleJson (text : List UInt8) : Option CJson :=
  if text = sampleBody then
    some (.object [(ascii "ip", .string (ascii "127.0.0.1")), (ascii "port", .number (.finite 5000))])
  else none

/-- `inet_addr` on the address of `sampleBody`; `INADDR_NONE` elsewhere. -/
def sampleInetAddr (text : List UInt8) : UInt32 :=
  if text = ascii "127.0.0.1" then 0x0100007F else 0xFFFFFFFF

def plainEnv : Env PlainSsl (List SendvResult) where
  openssl := plainSsl
  usrsctp := scripted
  cJsonParse := sampleJson
  inetAddr := sampleInetAddr
  junk _ := false
  ringMemory _ _ := ⟨[], 0, by decide⟩

/-- A connection comes in, with descriptor 5. -/
def acceptBatch : EpollBatch := ⟨[{ ptr := 1, accepts := [⟨5, true, true⟩] }], by decide⟩

/-- The first connection brings the registration. -/
def requestBatch : EpollBatch := ⟨[{ ptr := 2, reads := [.bytes sampleRequest] }], by decide⟩

/-- A loop with one registered client. -/
def sampleLoop : RuruLoop PlainSsl (List SendvResult) :=
  (RuruLoop.constructed 0 3 4 (fun _ => 0) [] 0 1).registerClient plainEnv ⟨0x7F000001, 5000⟩

end Ruru
