import Ruru.Lib.Lts
import Ruru.Loop

/-!
# Ruru.EchoServer — the poll loop of `EchoServer.cpp`

One `RuruEvent evt` lives through all turns of `while (ruru.Loop(evt))`; the outer `for (;;)` makes
a fresh one.  Between the turns usrsctp may call back (its timers do).
-/

namespace Ruru

open Memory

variable {σ υ : Type} (env : Env σ υ)

namespace RuruLoop

/-- The message `Echo2Client` makes of an event. -/
def echoMessage (s : RuruLoop σ υ) (evt : RuruEvent) : RuruSctpMessage where
  data := match evt.data with
    | none => []
    | some p => load s.arena_.memory p evt.length
  param := { sid := evt.param.sid.toUInt32.toUInt16, ppid := 0 }

/-- `Echo2Client`. -/
def echo2Client (s : RuruLoop σ υ) (evt : RuruEvent) : RuruLoop σ υ :=
  match evt.client with
  | none => s
  | some client => s.sendUsrSctpData env client (s.echoMessage evt)

/-- `SendClientCacheData`. -/
def sendClientCacheData (s : RuruLoop σ υ) (evt : RuruEvent) : RuruLoop σ υ :=
  match evt.client with
  | none => s
  | some client => s.sendSctpCacheData env client

/-- `SendHeartBeat`. -/
def sendHeartBeat (s : RuruLoop σ υ) (evt : RuruEvent) : RuruLoop σ υ :=
  match evt.client with
  | none => s
  | some client => s.clientSendHeartBeatData env client

/-- `switch (evt.type)`. -/
def handleEvent (s : RuruLoop σ υ) (evt : RuruEvent) : RuruLoop σ υ :=
  match evt.type with
  | .evtHeartBeat => s.sendHeartBeat env evt
  | .evtRecvClientData => s.echo2Client env evt
  | .evtSendCacheData => s.sendClientCacheData env evt
  | .evtNone => s

end RuruLoop

/-- The program between two turns, with the events other than `EVT_None` that the switch has acted
on so far. -/
structure EchoServer (σ υ : Type) where
  ruru : RuruLoop σ υ
  evt : RuruEvent := {}
  acted : List RuruEvent := []

/-- What happens next: a callback of usrsctp, or a turn with what the kernel has for it. -/
inductive EchoInput where
  | callback (cb : SctpCallback)
  | turn (fuel : ℕ) (batch : EpollBatch)

namespace EchoServer

/-- The rest of a turn after `Loop` has returned. -/
def afterLoop (st : EchoServer σ υ) (haveData : Bool) (evt : RuruEvent) (ruru : RuruLoop σ υ) :
    EchoServer σ υ :=
  if haveData then
    { ruru := ruru.handleEvent env evt
      evt := evt
      acted := st.acted ++ if evt.type = .evtNone then [] else [evt] }
  else { st with ruru := ruru, evt := {} }

/-- What the program does next; `none` if `Loop` does not return. -/
def step (st : EchoServer σ υ) : EchoInput → Option (EchoServer σ υ)
  | .callback cb => some { st with ruru := st.ruru.callback env cb }
  | .turn fuel batch =>
    (st.ruru.loop env fuel st.evt batch).map fun r => st.afterLoop env r.1 r.2.1 r.2.2

/-- A step as a relation. -/
def Step (st : EchoServer σ υ) (input : EchoInput) (st' : EchoServer σ υ) : Prop :=
  st.step env input = some st'

end EchoServer

end Ruru
