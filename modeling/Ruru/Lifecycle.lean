import Ruru.ConnectionRecords
import Ruru.ListeningSockets
import Ruru.Runs

/-!
# Ruru.Lifecycle — from the constructor to the destructor

The constructor, a run of the loop, and the destructor.  While the loop runs, the records are the
registered descriptors unless `epoll_ctl` refuses an accepted one.  At the end `Destory` closes the two
sockets only, and after a constructor that failed it reads fields that were never set.
-/

namespace Ruru

open Ledger

variable {σ υ : Type} (env : Env σ υ)

/-! ### The constructor and `Destory` -/

/-- What `socket` and `bind` return. -/
structure SocketResult where
  socket : Option ℕ
  bind : Bool

/-- What `events_` points to; `junk` if it was never set. -/
inductive Events where
  | null
  | junk
  | allocated
deriving DecidableEq

/-- What the calls of the constructor return, as far as it gets, and what the fields hold before they
are set.  A number that the kernel gives is not open. -/
structure Construction where
  tcpfdJunk : ℤ
  epfdJunk : ℤ
  eventsJunk : Bool
  udp : SocketResult
  udpNonBlocking : Bool
  tcp : SocketResult
  tcpNonBlocking : Bool
  listening : Bool
  epollCreate : Option ℕ
  udpAdded : Bool
  tcpAdded : Bool
  numbers : ([udp.socket, tcp.socket, epollCreate].reduceOption).Nodup

/-- The fields that the constructor and `Destory` set, with the history. -/
structure LoopFields where
  udpfd_ : ℤ
  tcpfd_ : ℤ
  epfd_ : ℤ
  events_ : Events
  trace : List Effect

/-- `CreateUdpSocket` and `CreateTcpSocket`; a socket that `bind` refuses is not closed. -/
def createSocket (r : SocketResult) : ℤ × List Effect :=
  match r.socket with
  | none => (-1, [])
  | some fd => (if r.bind then fd else -1, [.opened fd])

def createUdpSocket (r : SocketResult) : ℤ × List Effect := createSocket r

def createTcpSocket (r : SocketResult) : ℤ × List Effect := createSocket r

/-- `Destory`; `delete[]` of a pointer that is no array has no result. -/
def LoopFields.destory (f : LoopFields) : Option LoopFields :=
  let f := if 0 < f.udpfd_ then
    { f with udpfd_ := -1, trace := f.trace ++ [.close f.udpfd_] } else f
  let f := if 0 < f.tcpfd_ then
    { f with tcpfd_ := -1, trace := f.trace ++ [.close f.tcpfd_] } else f
  match f.events_ with
  | .null => some f
  | .junk => none
  | .allocated => some { f with events_ := .null }

/-- `Destory(); return;` in the constructor. -/
def LoopFields.giveUp (f : LoopFields) : Option (Bool × LoopFields) := f.destory.map fun f => (false, f)

/-- The constructor: whether it gets to its end, and the fields then. -/
def Construction.ruruLoop (k : Construction) : Option (Bool × LoopFields) :=
  let udp := createUdpSocket k.udp
  let f : LoopFields := ⟨udp.1, k.tcpfdJunk, k.epfdJunk, if k.eventsJunk then .junk else .null, udp.2⟩
  if f.udpfd_ < 0 then some (false, f)
  else if k.udpNonBlocking = false then f.giveUp
  else
    let tcp := createTcpSocket k.tcp
    let f : LoopFields := { f with tcpfd_ := tcp.1, trace := f.trace ++ tcp.2 }
    if f.tcpfd_ < 0 then f.giveUp
    else if k.tcpNonBlocking = false then f.giveUp
    else if k.listening = false then f.giveUp
    else match k.epollCreate with
      | none => { f with epfd_ := -1 }.giveUp
      | some epfd =>
        let f : LoopFields := { f with
          epfd_ := epfd
          trace := f.trace ++ [.opened epfd, .newCon 0 f.udpfd_] }
        if k.udpAdded = false then f.giveUp
        else
          let f : LoopFields := { f with
            trace := f.trace ++ [.epollAdd 0 f.udpfd_, .newCon 1 f.tcpfd_] }
          if k.tcpAdded = false then f.giveUp
          else some (true, { f with
            events_ := .allocated
            trace := f.trace ++ [.epollAdd 1 f.tcpfd_] })

/-- Nothing was closed or deleted that was not there, and nothing is left. -/
structure Ended (trace : List Effect) : Prop where
  closes : ClosesOpen trace
  deletes : DeletesLive trace
  closed : ∀ fd, ¬FdOpen trace fd
  deleted : ∀ c, recordFd trace c = none

/-! ### What `Destory` does -/

namespace LoopFields

/-- The descriptors that `Destory` closes. -/
def closes (f : LoopFields) : List ℤ :=
  (if 0 < f.udpfd_ then [f.udpfd_] else []) ++ if 0 < f.tcpfd_ then [f.tcpfd_] else []

theorem closes_eq_nil {f : LoopFields} (hudp : ¬0 < f.udpfd_) (htcp : ¬0 < f.tcpfd_) :
    f.closes = [] := by
  rw [closes, if_neg hudp, if_neg htcp]
  rfl

theorem destory_eq (f : LoopFields) : f.destory =
    if f.events_ = .junk then none else some {
      udpfd_ := if 0 < f.udpfd_ then -1 else f.udpfd_
      tcpfd_ := if 0 < f.tcpfd_ then -1 else f.tcpfd_
      epfd_ := f.epfd_
      events_ := .null
      trace := f.trace ++ f.closes.map .close } := by
  obtain ⟨udpfd_, tcpfd_, epfd_, events_, trace⟩ := f
  unfold destory closes
  by_cases hudp : 0 < udpfd_ <;> by_cases htcp : 0 < tcpfd_ <;>
    cases events_ <;> simp [hudp, htcp]

/-- The history after `Destory`. -/
theorem destory_trace (f : LoopFields) : f.destory.map (·.trace) =
    if f.events_ = .junk then none else some (f.trace ++ f.closes.map .close) := by
  rw [destory_eq]
  split_ifs <;> rfl

/-- The destructor finds nothing left to do after the constructor gave up. -/
theorem destory_destory {f g : LoopFields} (h : f.destory = some g) :
    g.destory.map (·.trace) = some g.trace := by
  have hjunk : f.events_ ≠ .junk := fun hjunk => by simp [destory_eq, hjunk] at h
  rw [destory_eq, if_neg hjunk] at h
  have hg := Option.some.inj h
  have hclosed : ∀ x : ℤ, ¬0 < if 0 < x then -1 else x := by
    intro x
    split_ifs <;> omega
  have hudp : ¬0 < g.udpfd_ := hg ▸ hclosed f.udpfd_
  have htcp : ¬0 < g.tcpfd_ := hg ▸ hclosed f.tcpfd_
  have hevents : g.events_ = .null := hg ▸ rfl
  rw [destory_trace, closes_eq_nil hudp htcp, hevents]
  simp

end LoopFields

/-! ### Lives that end before the loop runs -/

/-- Nothing but opening and closing sockets: all is well exactly if what was closed is what was
opened. -/
theorem ended_iff_perm {os cs : List ℤ} (hos : os.Nodup) :
    Ended (os.map .opened ++ cs.map .close) ↔ cs.Perm os := by
  have hfd : fdOps (os.map .opened ++ cs.map .close) =
      os.map (fun fd => .enter fd ()) ++ cs.map .remove := by
    simp [fdOps, List.filterMap_append, List.filterMap_map]
  have hcon : conOps (os.map .opened ++ cs.map .close) = [] := by
    simp [conOps, List.filterMap_append, List.filterMap_map]
  rw [← removes_all_iff hos (isSome_table_enters os ())]
  constructor
  · intro h
    have hcloses := h.closes
    rw [ClosesOpen, hfd, respects_append] at hcloses
    refine ⟨hcloses.2, fun x => ?_⟩
    have hx := h.closed x
    rw [FdOpen, hfd, table_append] at hx
    exact Option.eq_none_iff_forall_ne_some.mpr fun _ => hx
  · rintro ⟨hremoves, hnone⟩
    constructor
    · rw [ClosesOpen, hfd, respects_append]
      exact ⟨respectsFrom_enters _ os (), hremoves⟩
    · rw [DeletesLive, hcon]
      trivial
    · intro x
      rw [FdOpen, hfd, table_append, hnone]
      simp
    · intro c
      rw [recordFd, hcon]
      rfl

/-- A descriptor that is never closed is left. -/
theorem Survives.not_ended {trace : List Effect} {fd : ℤ} (h : Survives trace fd) : ¬Ended trace :=
  fun hended => hended.closed fd h.1

namespace Construction

variable (k : Construction)

/-- The constructor is left with these fields, before the call of `Destory` if it makes one. -/
def Stops (f : LoopFields) : Prop := k.ruruLoop = f.giveUp ∨ k.ruruLoop = some (false, f)

/-- The constructor fails before `epoll_create1` has succeeded, what it opened is what `Destory`
closes, and `events_` was null already. -/
def Clean : Prop :=
  k.eventsJunk = false ∧
    match k.udp.socket with
    | none => k.tcpfdJunk ≤ 0
    | some udpfd =>
      if k.udp.bind = false then 0 < udpfd ∧ k.tcpfdJunk = udpfd
      else if k.udpNonBlocking = false then 0 < udpfd ∧ k.tcpfdJunk ≤ 0
      else match k.tcp.socket with
        | none => 0 < udpfd
        | some tcpfd => (0 < udpfd ∧ k.tcp.bind = true ∧ 0 < tcpfd) ∧
          (k.tcpNonBlocking = false ∨ k.listening = false ∨ k.epollCreate = none)

/-- The fields at the beginning. -/
def unset : LoopFields :=
  ⟨-1, k.tcpfdJunk, k.epfdJunk, if k.eventsJunk then .junk else .null, []⟩

/-- The constructor gives up with nothing but sockets opened. -/
structure StopsEarly (f : LoopFields) (os : List ℤ) : Prop where
  stops : k.Stops f
  events : f.events_ = k.unset.events_
  trace : f.trace = os.map .opened
  nodup : os.Nodup
  clean : k.Clean ↔ k.eventsJunk = false ∧ f.closes.Perm os

/-- The constructor gives up with an epoll descriptor. -/
structure StopsLate (f : LoopFields) (epfd : ℤ) : Prop where
  stops : k.Stops f
  survives : Survives f.trace epfd
  sockets : f.udpfd_ ≠ epfd ∧ f.tcpfd_ ≠ epfd
  unclean : ¬k.Clean

/-- The fields at the end of the constructor. -/
def made (udpfd tcpfd epfd : ℕ) : LoopFields :=
  ⟨udpfd, tcpfd, epfd, .allocated, [.opened udpfd, .opened tcpfd, .opened epfd, .newCon 0 udpfd,
    .epollAdd 0 udpfd, .newCon 1 tcpfd, .epollAdd 1 tcpfd]⟩

/-- How the constructor can end. -/
inductive Outcome : Prop
  | early (f : LoopFields) (os : List ℤ) (stops : k.StopsEarly f os)
  | late (f : LoopFields) (epfd : ℤ) (stops : k.StopsLate f epfd)
  | done {udpfd tcpfd epfd : ℕ} (numbers : udpfd ≠ tcpfd ∧ udpfd ≠ epfd ∧ tcpfd ≠ epfd)
      (ctor : k.ruruLoop = some (true, made udpfd tcpfd epfd)) (unclean : ¬k.Clean)

/-- The fields with both sockets. -/
def bound (udpfd tcpfd : ℕ) : LoopFields :=
  { k.unset with udpfd_ := udpfd, tcpfd_ := tcpfd, trace := [.opened udpfd, .opened tcpfd] }

theorem numbers_ne {udpfd tcpfd : ℕ} (hudp : k.udp.socket = some udpfd)
    (htcp : k.tcp.socket = some tcpfd) : udpfd ≠ tcpfd ∧
      ∀ epfd, k.epollCreate = some epfd → udpfd ≠ epfd ∧ tcpfd ≠ epfd := by
  have hnodup := k.numbers
  rw [hudp, htcp] at hnodup
  cases hep : k.epollCreate with
  | none =>
    rw [hep] at hnodup
    simpa [List.reduceOption] using hnodup
  | some epfd =>
    rw [hep] at hnodup
    simp [List.reduceOption] at hnodup
    simp [hnodup]

/-- The constructor once it has both sockets. -/
theorem ruruLoop_bound {udpfd tcpfd : ℕ} (hudp : k.udp.socket = some udpfd)
    (hbind : k.udp.bind = true) (hblock : k.udpNonBlocking = true)
    (htcp : k.tcp.socket = some tcpfd) (hbind' : k.tcp.bind = true) : k.Outcome := by
  obtain ⟨hne, hepfd⟩ := k.numbers_ne hudp htcp
  have hudp' : ¬(udpfd : ℤ) < 0 := by omega
  have htcp' : ¬(tcpfd : ℤ) < 0 := by omega
  have hclean : k.Clean ↔ k.eventsJunk = false ∧ (0 < udpfd ∧ 0 < tcpfd) ∧
      (k.tcpNonBlocking = false ∨ k.listening = false ∨ k.epollCreate = none) := by
    simp [Clean, hudp, hbind, hblock, htcp, hbind']
  have hperm : (k.bound udpfd tcpfd).closes.Perm [(udpfd : ℤ), ↑tcpfd] ↔ 0 < udpfd ∧ 0 < tcpfd := by
    rw [LoopFields.closes]
    by_cases hpos : 0 < udpfd <;> by_cases hpos' : 0 < tcpfd
    · simp [bound, hpos, hpos']
    all_goals
      refine iff_of_false (fun hperm => ?_) (by simp [hpos, hpos'])
      have hlen := hperm.length_eq
      simp [bound, hpos, hpos'] at hlen
  have hearly : ∀ f : LoopFields, k.Stops f → f.events_ = k.unset.events_ →
      f.closes = (k.bound udpfd tcpfd).closes → f.trace = [.opened udpfd, .opened tcpfd] →
      (k.tcpNonBlocking = false ∨ k.listening = false ∨ k.epollCreate = none) →
      k.StopsEarly f [↑udpfd, ↑tcpfd] :=
    fun f hstops hevents hcloses htrace hfail => ⟨hstops, hevents, htrace, by simpa using hne,
      by rw [hclean, hcloses, hperm]; simp [hfail]⟩
  cases hblock' : k.tcpNonBlocking with
  | false =>
    refine .early _ _ (hearly (k.bound udpfd tcpfd) (Or.inl ?_) rfl rfl rfl (Or.inl hblock'))
    simp [ruruLoop, createUdpSocket, createTcpSocket, createSocket, hudp, hbind, hblock, htcp, hbind',
      hblock', hudp', htcp', unset, bound]
  | true =>
    cases hlisten : k.listening with
    | false =>
      refine .early _ _ (hearly (k.bound udpfd tcpfd) (Or.inl ?_) rfl rfl rfl
        (Or.inr (Or.inl hlisten)))
      simp [ruruLoop, createUdpSocket, createTcpSocket, createSocket, hudp, hbind, hblock, htcp, hbind',
        hblock', hlisten, hudp', htcp', unset, bound]
    | true =>
      cases hep : k.epollCreate with
      | none =>
        refine .early _ _ (hearly { k.bound udpfd tcpfd with epfd_ := -1 } (Or.inl ?_) rfl rfl rfl
          (Or.inr (Or.inr hep)))
        simp [ruruLoop, createUdpSocket, createTcpSocket, createSocket, hudp, hbind, hblock, htcp,
          hbind', hblock', hlisten, hep, hudp', htcp', unset, bound]
      | some epfd =>
        obtain ⟨hue, hte⟩ := hepfd epfd hep
        have hunclean : ¬k.Clean := by simp [hclean, hblock', hlisten, hep]
        have hlate : ∀ es, (∀ e ∈ es, e ≠ .close epfd) → k.Stops { k.bound udpfd tcpfd with
            epfd_ := epfd
            trace := [.opened udpfd, .opened tcpfd, .opened epfd] ++ es } → k.Outcome := by
          intro es hes hstops
          have hopened : Survives [.opened udpfd, .opened tcpfd, .opened epfd] epfd :=
            ⟨by simp [FdOpen, fdOps, table], by simp⟩
          refine .late _ epfd ⟨hstops, hopened.effects hes, ?_, hunclean⟩
          exact ⟨Nat.cast_injective.ne hue, Nat.cast_injective.ne hte⟩
        cases hadd : k.udpAdded with
        | false =>
          refine hlate [.newCon 0 udpfd] (by simp) (Or.inl ?_)
          simp [ruruLoop, createUdpSocket, createTcpSocket, createSocket, hudp, hbind, hblock, htcp,
            hbind', hblock', hlisten, hep, hudp', htcp', hadd, unset, bound]
        | true =>
          cases hadd' : k.tcpAdded with
          | false =>
            refine hlate [.newCon 0 udpfd, .epollAdd 0 udpfd, .newCon 1 tcpfd] (by simp) (Or.inl ?_)
            simp [ruruLoop, createUdpSocket, createTcpSocket, createSocket, hudp, hbind, hblock, htcp,
              hbind', hblock', hlisten, hep, hudp', htcp', hadd, hadd', unset, bound]
          | true =>
            refine .done ⟨hne, hue, hte⟩ ?_ hunclean
            simp [ruruLoop, createUdpSocket, createTcpSocket, createSocket, hudp, hbind, hblock, htcp,
              hbind', hblock', hlisten, hep, hudp', htcp', hadd, hadd', made]

/-- Where the constructor stops, and whether all is well then. -/
theorem ruruLoop_cases : k.Outcome := by
  cases hudp : k.udp.socket with
  | none =>
    refine .early k.unset [] ⟨Or.inr ?_, rfl, rfl, List.nodup_nil, ?_⟩
    · simp [ruruLoop, createUdpSocket, createSocket, hudp, unset]
    · have hclean : k.Clean ↔ k.eventsJunk = false ∧ k.tcpfdJunk ≤ 0 := by simp [Clean, hudp]
      rw [hclean, LoopFields.closes]
      by_cases hjunk : 0 < k.tcpfdJunk <;> simp [unset, hjunk]
      omega
  | some udpfd =>
    cases hbind : k.udp.bind with
    | false =>
      refine .early { k.unset with trace := [.opened udpfd] } [↑udpfd] ⟨Or.inr ?_, rfl, rfl,
        List.nodup_singleton _, ?_⟩
      · simp [ruruLoop, createUdpSocket, createSocket, hudp, hbind, unset]
      · have hclean : k.Clean ↔ k.eventsJunk = false ∧ 0 < udpfd ∧ k.tcpfdJunk = udpfd := by
          simp [Clean, hudp, hbind]
        rw [hclean, LoopFields.closes]
        by_cases hjunk : 0 < k.tcpfdJunk <;> simp [unset, hjunk] <;> omega
    | true =>
      cases hblock : k.udpNonBlocking with
      | false =>
        refine .early { k.unset with udpfd_ := udpfd, trace := [.opened udpfd] } [↑udpfd]
          ⟨Or.inl ?_, rfl, rfl, List.nodup_singleton _, ?_⟩
        · simp [ruruLoop, createUdpSocket, createSocket, hudp, hbind, hblock, unset]
        · have hclean : k.Clean ↔ k.eventsJunk = false ∧ 0 < udpfd ∧ k.tcpfdJunk ≤ 0 := by
            simp [Clean, hudp, hbind, hblock]
          rw [hclean, LoopFields.closes]
          by_cases hpos : 0 < udpfd <;> by_cases hjunk : 0 < k.tcpfdJunk <;>
            simp [unset, hpos, hjunk] <;> omega
      | true =>
        cases htcp : k.tcp.socket with
        | none =>
          refine .early { k.unset with udpfd_ := udpfd, tcpfd_ := -1, trace := [.opened udpfd] }
            [↑udpfd] ⟨Or.inl ?_, rfl, rfl, List.nodup_singleton _, ?_⟩
          · simp [ruruLoop, createUdpSocket, createTcpSocket, createSocket, hudp, hbind, hblock, htcp,
              unset]
          · have hclean : k.Clean ↔ k.eventsJunk = false ∧ 0 < udpfd := by
              simp [Clean, hudp, hbind, hblock, htcp]
            rw [hclean, LoopFields.closes]
            by_cases hpos : 0 < udpfd <;> simp [hpos]
        | some tcpfd =>
          cases hbind' : k.tcp.bind with
          | true => exact k.ruruLoop_bound hudp hbind hblock htcp hbind'
          | false =>
            have hne := (k.numbers_ne hudp htcp).1
            refine .early { k.bound udpfd tcpfd with tcpfd_ := -1 } [↑udpfd, ↑tcpfd] ⟨Or.inl ?_, rfl,
              rfl, by simpa using hne, iff_of_false ?_ ?_⟩
            · simp [ruruLoop, createUdpSocket, createTcpSocket, createSocket, hudp, hbind, hblock,
                htcp, hbind', unset, bound]
            · simp [Clean, hudp, hbind, hblock, htcp, hbind']
            · rintro ⟨-, hperm⟩
              have hlen := hperm.length_eq
              by_cases hpos : 0 < udpfd <;> simp [LoopFields.closes, bound, hpos] at hlen

end Construction

/-! ### While the loop runs -/

namespace PolledLoop

/-- A step in which the kernel does its part: a new descriptor has a number that is not open, and
`epoll_wait` reports registered records only. -/
def Polled (st : PolledLoop σ υ) (input : LoopInput) (st' : PolledLoop σ υ) : Prop :=
  Step env st input st' ∧ OpensFree st'.ruru.trace ∧
    ∀ fuel evt batch, input = .loop fuel evt batch → ∀ e ∈ batch.events, st.ruru.Reported e.ptr

/-- The live records are the registered descriptors, nothing was closed or deleted that was not
there, and no record is used that was deleted. -/
structure Tidy (st : PolledLoop σ υ) : Prop where
  corresponds : st.ruru.Corresponds
  closes : ClosesOpen st.ruru.trace
  deletes : DeletesLive st.ruru.trace
  servesLive : st.ruru.ServesLive env

/-- `epoll_ctl` refuses no descriptor that the step accepts and makes non-blocking. -/
def RegistersAccepted (st : PolledLoop σ υ) (input : LoopInput) : Prop :=
  ∀ fuel evt batch, input = .loop fuel evt batch → st.ruru.que_ = [] →
    ∀ e ∈ batch.events, st.ruru.AcceptsRegistered e

theorem tidy_iff {st : PolledLoop σ υ} (h : st.ruru.Accounted) :
    st.Tidy env ↔ st.ruru.Corresponds :=
  ⟨fun ht => ht.corresponds, fun hc => ⟨hc, h.closes, h.deletes, h.servesLive env⟩⟩

theorem touches_of_polled {st st' : PolledLoop σ υ} {input : LoopInput} (h : st.ruru.Accounted)
    (hs : Polled env st input st') :
    ∃ ls, Lts.Path RuruLoop.Touches st.ruru ls st'.ruru ∧
      ((∀ l ∈ ls, l.Registers) ↔ st.RegistersAccepted input) := by
  obtain ⟨hstep, hfree, hrep⟩ := hs
  have hwork : RuruLoop.ClientWork st.ruru st'.ruru → (∀ fuel evt batch, input ≠ .loop fuel evt batch) →
      ∃ ls, Lts.Path RuruLoop.Touches st.ruru ls st'.ruru ∧
        ((∀ l ∈ ls, l.Registers) ↔ st.RegistersAccepted input) := by
    intro hwork hinput
    refine ⟨[.calm], ⟨_, hwork.udpWork.calm, rfl⟩, iff_of_true (by simp [RuruLoop.Touch.Registers]) ?_⟩
    exact fun fuel evt batch heq => absurd heq (hinput fuel evt batch)
  cases input with
  | callback cb =>
    obtain rfl := Option.some.inj hstep
    exact hwork (RuruLoop.work_callback env st.ruru cb).clientWork (by simp)
  | sendUsrSctpData client msg =>
    obtain rfl := Option.some.inj hstep
    exact hwork (RuruLoop.work_sendUsrSctpData env st.ruru client msg) (by simp)
  | sendSctpCacheData client =>
    obtain rfl := Option.some.inj hstep
    exact hwork (RuruLoop.work_sendSctpCacheData env st.ruru client) (by simp)
  | clientSendHeartBeatData client =>
    obtain rfl := Option.some.inj hstep
    exact hwork (RuruLoop.work_clientSendHeartBeatData env st.ruru client) (by simp)
  | loop fuel evt batch =>
    have hrep' := hrep fuel evt batch rfl
    obtain ⟨⟨haveData, evt', ruru⟩, hl, rfl⟩ := Option.map_eq_some_iff.mp hstep
    by_cases hq : st.ruru.que_ = []
    · rw [RuruLoop.loop_of_nil env hq] at hl
      obtain ⟨r, hr, he⟩ := Option.map_eq_some_iff.mp hl
      obtain ⟨-, -, rfl⟩ : _ ∧ _ ∧ r.2 = ruru := by simpa using he
      have hscan := RuruLoop.calm_scanClientCacheData st.ruru.resetArena
      have hcalm : RuruLoop.Calm st.ruru st.ruru.resetArena.scanClientCacheData.2 :=
        ⟨hscan.cons, hscan.sockets, hscan.effects⟩
      obtain ⟨ls, hpath, hiff⟩ := RuruLoop.touches_of_epollWait env (h.calm hcalm).1
        (fun e he => (hcalm.spares e.ptr).reported (hrep' e he)) hr hfree
      refine ⟨.calm :: ls, ⟨_, hcalm, hpath⟩, ?_⟩
      rw [List.forall_mem_cons, hiff]
      have hsame : ∀ e ∈ batch.events, (st.ruru.resetArena.scanClientCacheData.2.AcceptsRegistered e ↔
          st.ruru.AcceptsRegistered e) := by
        intro e he
        obtain ⟨con, hcon, -⟩ := h.reported (hrep' e he)
        exact (hcalm.spares e.ptr).acceptsRegistered hcon
      constructor
      · rintro ⟨-, hall⟩ fuel' evt'' batch' heq - e he
        obtain ⟨-, -, rfl⟩ := LoopInput.loop.inj heq
        exact (hsame e he).mp (hall e he)
      · intro hall
        exact ⟨trivial, fun e he => (hsame e he).mpr (hall fuel evt batch rfl hq e he)⟩
    · rcases RuruLoop.loop_cases env hl with ⟨rest, -, -, rfl⟩ | ⟨hempty, -, -⟩
      · refine ⟨[.calm], ⟨{ st.ruru with que_ := rest }, ⟨rfl, ⟨rfl, rfl⟩, [], by simp, by simp⟩, rfl⟩,
          iff_of_true (by simp [RuruLoop.Touch.Registers]) ?_⟩
        exact fun _ _ _ _ hempty => absurd hempty hq
      · exact absurd hempty hq

/-- **Records and descriptors of a running loop.**  From a state in which everything is accounted for,
all is well along a run exactly if `epoll_ctl` refuses no accepted descriptor. -/
theorem always_tidy_iff {st : PolledLoop σ υ} (h : st.ruru.Accounted) (hst : st.ruru.Corresponds)
    (inputs : List LoopInput) : Lts.Always (Polled env) (Tidy env) st inputs ↔
      Lts.Each (Polled env) RegistersAccepted st inputs := by
  refine Lts.always_iff_each (I := fun st => st.ruru.Accounted) ?_ ?_ h ((tidy_iff env h).mpr hst)
    inputs
  · intro st input st' h htidy hs
    obtain ⟨ls, hpath, hiff⟩ := touches_of_polled env h hs
    obtain ⟨hacc, hcorr⟩ := h.path hpath
    rw [tidy_iff env hacc, hcorr, hiff]
    exact and_iff_right htidy.corresponds
  · intro st input st' h _ hs _
    obtain ⟨ls, hpath, -⟩ := touches_of_polled env h hs
    exact (h.path hpath).1

end PolledLoop

/-! ### Whole lives -/

namespace RuruLoop

/-- The epoll descriptor was never closed, and it is neither of the sockets nor a connection's. -/
structure EpfdOpen (epfd : ℤ) (s : RuruLoop σ υ) : Prop where
  survives : Survives s.trace epfd
  sockets : s.udpfd_ ≠ epfd ∧ s.tcpfd_ ≠ epfd
  records : ∀ c, s.liveFd c ≠ some epfd

theorem EpfdOpen.touches {epfd : ℤ} {s t : RuruLoop σ υ} (h : EpfdOpen epfd s) (hacc : s.Accounted)
    {l : Touch} (ht : Touches s l t) : EpfdOpen epfd t := by
  cases l with
  | calm =>
    have hcalm : Calm s t := ht
    obtain ⟨es, he, hes⟩ := hcalm.effects
    constructor
    · rw [he]
      refine h.survives.effects fun e hmem => ?_
      rintro rfl
      exact absurd (hes _ hmem) (by simp [Effect.isDescriptor])
    · rw [hcalm.sockets.1, hcalm.sockets.2]
      exact h.sockets
    · intro c
      rw [liveFd, hcalm.cons]
      exact h.records c
  | close c fd =>
    obtain ⟨hreg, rfl⟩ := ht
    have hne : fd ≠ epfd := by
      rintro rfl
      exact h.records c (hacc.registered fd c hreg).1
    refine ⟨h.survives.effects (by simp [hne]), h.sockets, fun y => ?_⟩
    rw [liveFd_closeCon]
    split_ifs
    · simp
    · exact h.records y
  | accept a =>
    obtain ⟨hclosed, haccepted⟩ := ht
    have hne : a.cfd ≠ epfd := by
      rintro rfl
      exact hclosed h.survives.1
    have hrecords : ∀ t : RuruLoop σ υ, t.cons = s.cons ++ [some { fd := a.cfd }] →
        ∀ c, t.liveFd c ≠ some epfd := by
      intro t hcons c
      rw [liveFd_newCon hcons]
      split_ifs
      · simpa using hne
      · exact h.records c
    cases haccepted with
    | rejected blocking => exact ⟨h.survives.effects (by simp [hne]), h.sockets, h.records⟩
    | added nonBlocking added =>
      exact ⟨h.survives.effects (by simp), h.sockets, hrecords _ rfl⟩
    | notAdded nonBlocking notAdded =>
      exact ⟨h.survives.effects (by simp [hne]), h.sockets, hrecords _ rfl⟩

theorem EpfdOpen.path {epfd : ℤ} {s t : RuruLoop σ υ} (h : EpfdOpen epfd s) (hacc : s.Accounted)
    {ls : List Touch} (hp : Lts.Path Touches s ls t) : EpfdOpen epfd t := by
  have hboth : t.Accounted ∧ EpfdOpen epfd t :=
    Lts.Path.invariant (P := fun s => s.Accounted ∧ EpfdOpen epfd s)
      (fun _ _ _ hs ht => ⟨(hs.1.touches ht).1, hs.2.touches hs.1 ht⟩) hp ⟨hacc, h⟩
  exact hboth.2

end RuruLoop

section Lives

variable (this : LoopId) (memory : ℕ → UInt8) (usr : υ) (nextSock : Sock) (count : ℤ)

/-- The loop that the constructor made. -/
def LoopFields.started (f : LoopFields) : PolledLoop σ υ where
  ruru := { RuruLoop.constructed this f.udpfd_ f.tcpfd_ memory usr nextSock count with
    trace := f.trace }

/-- The fields after the loop ran. -/
def LoopFields.ran (f : LoopFields) (s : RuruLoop σ υ) : LoopFields :=
  { f with udpfd_ := s.udpfd_, tcpfd_ := s.tcpfd_, trace := s.trace }

/-- A life and its history: the constructor, a run of the loop if the constructor got to its end, and
the destructor.  A loop whose constructor gave up has nothing that `epoll_wait` could report.  There
is no history if `delete[]` was called on no array. -/
inductive Lived (k : Construction) : Option (List Effect) → Prop
  | undefined (ctor : k.ruruLoop = none) : Lived k none
  | failed {f : LoopFields} (ctor : k.ruruLoop = some (false, f)) :
      Lived k (f.destory.map (·.trace))
  | ran {f : LoopFields} {inputs : List LoopInput} {st : PolledLoop σ υ}
      (ctor : k.ruruLoop = some (true, f))
      (run : Lts.Path (PolledLoop.Polled env) (f.started this memory usr nextSock count) inputs st) :
      Lived k ((f.ran st.ruru).destory.map (·.trace))

/-- A life that ends well. -/
def EndsWell (history : Option (List Effect)) : Prop := ∃ trace, history = some trace ∧ Ended trace

theorem Construction.Stops.not_done {k : Construction} {f g : LoopFields} (h : k.Stops f) :
    k.ruruLoop ≠ some (true, g) := by
  intro hg
  rcases h with h | h
  · obtain ⟨f', -, he⟩ := Option.map_eq_some_iff.mp (h.symm.trans hg)
    exact absurd (Prod.mk.inj he).1 (by simp)
  · exact absurd (h.symm.trans hg) (by simp)

variable {k : Construction}

/-- After a constructor that gave up there is one `Destory` that does something. -/
theorem Lived.of_stops {history : Option (List Effect)}
    (h : Lived env this memory usr nextSock count k history) {f : LoopFields} (hstops : k.Stops f) :
    history = f.destory.map (·.trace) := by
  cases h with
  | undefined ctor =>
    rcases hstops with hstops | hstops
    · have hnone : f.destory = none := Option.map_eq_none_iff.mp (hstops.symm.trans ctor)
      rw [hnone]
      rfl
    · exact absurd (hstops.symm.trans ctor) (by simp)
  | @failed g ctor =>
    rcases hstops with hstops | hstops
    · obtain ⟨g', hg, he⟩ := Option.map_eq_some_iff.mp (hstops.symm.trans ctor)
      obtain rfl := (Prod.mk.inj he).2
      rw [LoopFields.destory_destory hg, hg]
      rfl
    · obtain ⟨-, rfl⟩ := Prod.mk.inj (Option.some.inj (hstops.symm.trans ctor))
      rfl
  | ran ctor run => exact absurd ctor hstops.not_done

/-- `Destory` does not close the epoll descriptor. -/
theorem not_endsWell {f : LoopFields} {epfd : ℤ} (h : Survives f.trace epfd)
    (sockets : f.udpfd_ ≠ epfd ∧ f.tcpfd_ ≠ epfd) : ¬EndsWell (f.destory.map (·.trace)) := by
  rintro ⟨trace, htrace, hended⟩
  rw [LoopFields.destory_trace] at htrace
  split_ifs at htrace
  obtain rfl := Option.some.inj htrace
  refine (h.effects fun e he => ?_).not_ended hended
  obtain ⟨fd, hfd, rfl⟩ := List.mem_map.mp he
  rintro heq
  obtain rfl := Effect.close.inj heq
  unfold LoopFields.closes at hfd
  rcases List.mem_append.mp hfd with hfd | hfd
  · split_ifs at hfd
    · exact sockets.1 (List.mem_singleton.mp hfd).symm
    · exact absurd hfd List.not_mem_nil
  · split_ifs at hfd
    · exact sockets.2 (List.mem_singleton.mp hfd).symm
    · exact absurd hfd List.not_mem_nil

/-- With only sockets opened, all is well exactly if `Destory` closes them. -/
theorem endsWell_iff_perm {f : LoopFields} {os : List ℤ} (h : k.StopsEarly f os) :
    EndsWell (f.destory.map (·.trace)) ↔ k.Clean := by
  have hevents : f.events_ = .junk ↔ k.eventsJunk = true := by
    rw [h.events, Construction.unset]
    cases k.eventsJunk <;> simp
  rw [LoopFields.destory_trace, h.clean]
  by_cases hjunk : k.eventsJunk = true
  · simp [EndsWell, hevents, hjunk]
  · rw [if_neg (hevents.not.mpr hjunk), h.trace]
    simp [EndsWell, ended_iff_perm h.nodup, hjunk]

theorem started_accounted {udpfd tcpfd epfd : ℕ}
    (numbers : udpfd ≠ tcpfd ∧ udpfd ≠ epfd ∧ tcpfd ≠ epfd) :
    let s := (((Construction.made udpfd tcpfd epfd).started this memory usr nextSock count :
      PolledLoop σ υ)).ruru
    s.Accounted ∧ s.Corresponds ∧ s.EpfdOpen epfd := by
  intro s
  have hne : (udpfd : ℤ) ≠ tcpfd ∧ (udpfd : ℤ) ≠ epfd ∧ (tcpfd : ℤ) ≠ epfd :=
    ⟨Nat.cast_injective.ne numbers.1, Nat.cast_injective.ne numbers.2.1,
      Nat.cast_injective.ne numbers.2.2⟩
  have hlive : ∀ c, s.liveFd c = if c = 1 then some ↑tcpfd else if c = 0 then some ↑udpfd else none := by
    rintro (_ | _ | c)
    · rfl
    · rfl
    · simp [s, RuruLoop.liveFd, LoopFields.started, RuruLoop.constructed]
  have hreg : ∀ fd, registeredCon s.trace fd =
      if fd = tcpfd then some 1 else if fd = udpfd then some 0 else none := by
    intro fd
    simp [s, registeredCon, epollOps, LoopFields.started, Construction.made, table]
  have hopen : ∀ fd, FdOpen s.trace fd ↔ fd = epfd ∨ fd = tcpfd ∨ fd = udpfd := by
    intro fd
    simp only [s, FdOpen, fdOps, LoopFields.started, Construction.made, table, List.filterMap_cons,
      List.filterMap_nil, List.foldl_cons, List.foldl_nil, on_enter]
    split_ifs <;> simp_all
  have hacc : s.Accounted := by
    constructor
    · intro c
      rw [hlive]
      simp [s, recordFd, conOps, LoopFields.started, Construction.made, table]
    · intro fd c hc
      rw [hreg] at hc
      rw [hlive, hopen]
      split_ifs at hc with h1 h2
      · obtain rfl := Option.some.inj hc
        simp [h1]
      · obtain rfl := Option.some.inj hc
        simp [h2]
    · simp [s, ClosesOpen, fdOps, LoopFields.started, Construction.made, Respects, RespectsFrom,
        RemovesHeld]
    · simp [s, DeletesLive, conOps, LoopFields.started, Construction.made, Respects, RespectsFrom,
        RemovesHeld]
  refine ⟨hacc, hacc.corresponds_iff.mpr fun c fd hc => ?_, ?_⟩
  · rw [hlive] at hc
    rw [hreg]
    split_ifs at hc with h1 h2
    · obtain rfl := Option.some.inj hc
      simp [h1]
    · obtain rfl := Option.some.inj hc
      rw [if_neg hne.1, if_pos rfl, h2]
  · refine ⟨⟨(hopen _).mpr (Or.inl rfl), ?_⟩, ⟨hne.2.1, hne.2.2⟩, fun c => ?_⟩
    · simp [s, LoopFields.started, Construction.made]
    · rw [hlive]
      split_ifs
      · simpa using hne.2.2
      · simpa using hne.2.1
      · simp

/-- **A loop from its constructor to its destructor.**  A life ends with nothing left, closed twice or
deleted twice exactly if the constructor is clean.  As long as the loop runs, the live records are the
registered descriptors exactly if `epoll_ctl` refuses no accepted descriptor. -/
theorem ends_well_iff (k : Construction) :
    (∀ history, Lived env this memory usr nextSock count k history → (EndsWell history ↔ k.Clean)) ∧
      ∀ f, k.ruruLoop = some (true, f) → ∀ inputs : List LoopInput,
        let start := f.started this memory usr nextSock count
        Lts.Always (PolledLoop.Polled env) (PolledLoop.Tidy env) start inputs ↔
          Lts.Each (PolledLoop.Polled env) PolledLoop.RegistersAccepted start inputs := by
  constructor
  · intro history hlived
    cases k.ruruLoop_cases with
    | early f os stops =>
      rw [hlived.of_stops env this memory usr nextSock count stops.stops]
      exact endsWell_iff_perm stops
    | late f epfd stops =>
      rw [hlived.of_stops env this memory usr nextSock count stops.stops]
      exact iff_of_false (not_endsWell stops.survives stops.sockets) stops.unclean
    | @done udpfd tcpfd epfd numbers ctor unclean =>
      refine iff_of_false ?_ unclean
      cases hlived with
      | undefined ctor' => exact absurd (ctor.symm.trans ctor') (by simp)
      | failed ctor' => exact absurd (ctor.symm.trans ctor') (by simp)
      | @ran f inputs st ctor' run =>
        obtain ⟨-, rfl⟩ := Prod.mk.inj (Option.some.inj (ctor.symm.trans ctor'))
        have hstart := started_accounted (σ := σ) this memory usr nextSock count numbers
        have hboth : st.ruru.Accounted ∧ st.ruru.EpfdOpen epfd := by
          refine Lts.Path.invariant (P := fun st => st.ruru.Accounted ∧ st.ruru.EpfdOpen epfd) ?_ run
            ⟨hstart.1, hstart.2.2⟩
          intro st input st' hst hs
          obtain ⟨ls, hpath, -⟩ := PolledLoop.touches_of_polled env hst.1 hs
          exact ⟨(hst.1.path hpath).1, hst.2.path hst.1 hpath⟩
        exact not_endsWell hboth.2.survives hboth.2.sockets
  · intro f hf inputs
    cases k.ruruLoop_cases with
    | early g os stops => exact absurd hf stops.stops.not_done
    | late g epfd stops => exact absurd hf stops.stops.not_done
    | done numbers ctor unclean =>
      obtain ⟨-, rfl⟩ := Prod.mk.inj (Option.some.inj (ctor.symm.trans hf))
      have hstart := started_accounted (σ := σ) this memory usr nextSock count numbers
      exact PolledLoop.always_tidy_iff env hstart.1 hstart.2.1 inputs

end Lives

/-- Every call of the constructor succeeds. -/
def plainConstruction : Construction where
  tcpfdJunk := 0
  epfdJunk := 0
  eventsJunk := false
  udp := ⟨some 3, true⟩
  udpNonBlocking := true
  tcp := ⟨some 4, true⟩
  tcpNonBlocking := true
  listening := true
  epollCreate := some 5
  udpAdded := true
  tcpAdded := true
  numbers := by decide

/-- There is no TCP socket. -/
def noTcpSocket : Construction := { plainConstruction with tcp := ⟨none, true⟩, numbers := by decide }

/-- The loop that the constructor makes. -/
def plainStart : PolledLoop PlainSsl (List SendvResult) :=
  (Construction.made 3 4 5).started 0 (fun _ => 0) [] 0 1

/-- A connection comes in with descriptor 6. -/
def acceptInput (added : Bool) : LoopInput :=
  .loop 0 {} ⟨[{ ptr := 1, accepts := [⟨6, true, added⟩] }], by simp⟩

/-- Without a TCP socket the UDP socket is closed and all is well; a connection that is registered
leaves the records and descriptors in order. -/
theorem no_tcp_socket_ends_well : EndsWell (some [.opened 3, .close 3]) ∧
    Lts.Always (PolledLoop.Polled plainEnv) (PolledLoop.Tidy plainEnv) plainStart
      [acceptInput true] := by
  constructor
  · have hlived : Lived plainEnv 0 (fun _ => 0) [] 0 1 noTcpSocket (some [.opened 3, .close 3]) :=
      .failed (f := ⟨-1, -1, 0, .null, [.opened 3, .close 3]⟩) rfl
    exact ((ends_well_iff plainEnv 0 (fun _ => 0) [] 0 1 noTcpSocket).1 _ hlived).mpr
      ⟨rfl, Nat.succ_pos 2⟩
  · refine ((ends_well_iff plainEnv 0 (fun _ => 0) [] 0 1 plainConstruction).2
      (Construction.made 3 4 5) rfl _).mpr fun t _ => ⟨?_, trivial⟩
    intro fuel evt batch heq _ e he a ha _
    obtain ⟨-, -, rfl⟩ := LoopInput.loop.inj heq
    obtain rfl := List.mem_singleton.mp he
    obtain rfl : a = ⟨6, true, true⟩ := List.mem_singleton.mp ha
    rfl

/-- A loop that was made leaves its epoll descriptor, and a descriptor that `epoll_ctl` refuses leaves
a record. -/
theorem refused_descriptor_leaks :
    (∃ history, Lived plainEnv 0 (fun _ => 0) [] 0 1 plainConstruction history ∧
      ¬EndsWell history) ∧
    ¬Lts.Always (PolledLoop.Polled plainEnv) (PolledLoop.Tidy plainEnv) plainStart
      [acceptInput false] := by
  have hstart := started_accounted (σ := PlainSsl) 0 (fun _ => 0) ([] : List SendvResult) 0 1
    (show 3 ≠ 4 ∧ 3 ≠ 5 ∧ 4 ≠ 5 by decide)
  constructor
  · have hrun : Lts.Path (PolledLoop.Polled plainEnv) plainStart [] plainStart := rfl
    refine ⟨_, .ran (f := Construction.made 3 4 5) rfl hrun, ?_⟩
    exact not_endsWell hstart.2.2.survives hstart.2.2.sockets
  · intro h
    have hnot : ¬plainStart.RegistersAccepted (acceptInput false) := by
      intro hreg
      have hadded := hreg 0 {} _ rfl rfl _ List.mem_cons_self ⟨6, true, false⟩
      exact absurd (hadded List.mem_cons_self rfl) (by decide)
    have key : ((plainStart.step plainEnv (acceptInput false)).map fun st =>
        decide (OpensFree st.ruru.trace)) = some true := by
      decide +kernel
    obtain ⟨st, hst, hfree⟩ := Option.map_eq_some_iff.mp key
    have hpolled : PolledLoop.Polled plainEnv plainStart (acceptInput false) st := by
      refine ⟨hst, of_decide_eq_true hfree, fun fuel evt batch heq e he => ?_⟩
      obtain ⟨-, -, rfl⟩ := LoopInput.loop.inj heq
      obtain rfl := List.mem_singleton.mp he
      exact ⟨4, rfl⟩
    have heach := (PolledLoop.always_tidy_iff plainEnv hstart.1 hstart.2.1 [acceptInput false]).mp h
    exact hnot (heach st hpolled).1

end Ruru
