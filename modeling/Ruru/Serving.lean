import Ruru.Http.Passes
import Ruru.Lib.Lts
import Ruru.Loop

/-!
# Ruru.Serving — what serving one event of `epoll_wait` can be

`Serves` is the case analysis of the body of `EpollWait`'s loop, and `Answer` that of what
`HttpRequestHandle` does before it closes the connection.  Facts about `EpollWait` are proved once
for each of their constructors.
-/

namespace Ruru

/-- The test of the error branch. -/
def EpollEvent.failed (e : EpollEvent) : Bool := e.epollErr || e.epollHup || !e.epollIn

namespace RuruLoop

variable {σ υ : Type} (env : Env σ υ)

/-! ### `HttpRequestHandle` -/

/-- The address that a connection registers with what it delivers, if its request is answered 200. -/
def requestAddress (con : RuruConnectionData) (reads : List ReadResult) : Option RuruAddress :=
  match httpLoop con reads with
  | .body con status n => bodyParse env con.data status (toInt32 n)
  | _ => none

/-- What happens between the receive loop and the close of the connection `fd`. -/
inductive Answer (s : RuruLoop σ υ) (fd : ℤ) : Option RuruAddress → RuruLoop σ υ → Prop
  | silent : Answer s fd none s
  | badRequest : Answer s fd none (s.note (.socketWrite fd HTTP_BAD_REQUEST))
  | ok (address : RuruAddress) : Answer s fd (some address)
      (((s.registerClient env address).note (.registered s.clientMgr_.length address)).note
        (.socketWrite fd httpOk))

theorem answer_of_httpRequestHandle {s s' : RuruLoop σ υ} {c : ConId} {con : RuruConnectionData}
    {reads : List ReadResult} (h : s.httpRequestHandle env c con reads = some s') :
    ∃ t, Answer env s con.fd (requestAddress env con reads) t ∧ s' = t.closeCon c con.fd := by
  unfold httpRequestHandle at h
  unfold requestAddress
  cases hl : httpLoop con reads with
  | reading _ | parsing _ _ | undefined => rw [hl] at h; exact absurd h (by simp)
  | closed =>
    rw [hl] at h
    cases h
    exact ⟨s, .silent, rfl⟩
  | badRequest =>
    rw [hl] at h
    cases h
    exact ⟨_, .badRequest, rfl⟩
  | body con' status n =>
    rw [hl] at h
    cases h
    have hfd : con'.fd = con.fd := fd_httpLoop (by rw [hl]; rfl)
    dsimp only
    rw [hfd]
    cases bodyParse env con'.data status (toInt32 n) with
    | none => exact ⟨_, .badRequest, rfl⟩
    | some address => exact ⟨_, .ok address, rfl⟩

/-! ### The loop over the events -/

/-- `s` serves the event `e` and becomes `s'`. -/
inductive Serves (fuel : ℕ) (s : RuruLoop σ υ) (e : EpollEvent) : RuruLoop σ υ → Prop
  | gone (dead : (s.cons[e.ptr]?).join = none) : Serves fuel s e s
  | error {con : RuruConnectionData} (live : s.cons[e.ptr]? = some (some con))
      (failed : e.failed = true) : Serves fuel s e (s.closeCon e.ptr con.fd)
  | udp {con : RuruConnectionData} (live : s.cons[e.ptr]? = some (some con))
      (sound : e.failed = false) (fd : con.fd = s.udpfd_) {r : Bool × RuruLoop σ υ}
      (drained : s.recvDatagrams env fuel e.datagrams = some r) : Serves fuel s e r.2
  | accept {con : RuruConnectionData} (live : s.cons[e.ptr]? = some (some con))
      (sound : e.failed = false) (udp : con.fd ≠ s.udpfd_) (fd : con.fd = s.tcpfd_) :
      Serves fuel s e (e.accepts.foldl acceptOne s)
  | http {con : RuruConnectionData} (live : s.cons[e.ptr]? = some (some con))
      (sound : e.failed = false) (udp : con.fd ≠ s.udpfd_) (tcp : con.fd ≠ s.tcpfd_)
      {t : RuruLoop σ υ} (answer : Answer env s con.fd (requestAddress env con e.reads) t) :
      Serves fuel s e (t.closeCon e.ptr con.fd)

theorem serves_of_epollEvent {fuel : ℕ} {s : RuruLoop σ υ} {e : EpollEvent} {r : Bool × RuruLoop σ υ}
    (h : s.epollEvent env fuel e = some r) : Serves env fuel s e r.2 := by
  unfold epollEvent at h
  cases hcon : (s.cons[e.ptr]?).join with
  | none =>
    rw [hcon] at h
    cases h
    exact .gone hcon
  | some con =>
    have hlive : s.cons[e.ptr]? = some (some con) := Option.join_eq_some_iff.mp hcon
    rw [hcon] at h
    dsimp only at h
    split_ifs at h with hfail hudp htcp
    · cases h
      exact .error hlive hfail
    · exact .udp hlive (Bool.eq_false_iff.mpr hfail) hudp h
    · cases h
      exact .accept hlive (Bool.eq_false_iff.mpr hfail) hudp htcp
    · obtain ⟨s', hs', rfl⟩ := Option.map_eq_some_iff.mp h
      obtain ⟨t, ht, rfl⟩ := answer_of_httpRequestHandle env hs'
      exact .http hlive (Bool.eq_false_iff.mpr hfail) hudp htcp ht

/-- The loop after an event was served. -/
def serve (s : RuruLoop σ υ) (input : ℕ × EpollEvent) : Option (RuruLoop σ υ) :=
  (s.epollEvent env input.1 input.2).map (·.2)

/-- Serving an event, as a step of runs. -/
def Served (s : RuruLoop σ υ) (input : ℕ × EpollEvent) (s' : RuruLoop σ υ) : Prop :=
  s.serve env input = some s'

theorem Served.serves {s s' : RuruLoop σ υ} {input : ℕ × EpollEvent} (h : Served env s input s') :
    Serves env input.1 s input.2 s' := by
  obtain ⟨r, hr, rfl⟩ := Option.map_eq_some_iff.mp h
  exact serves_of_epollEvent env hr

/-- `EpollWait` is a run over the events it reports. -/
theorem path_of_epollEvents {fuel : ℕ} {s : RuruLoop σ υ} {es : List EpollEvent}
    {r : Bool × RuruLoop σ υ} (h : s.epollEvents env fuel es = some r) :
    Lts.Path (Served env) s (es.map fun e => (fuel, e)) r.2 := by
  induction es generalizing s r with
  | nil =>
    cases h
    rfl
  | cons e es ih =>
    unfold epollEvents at h
    split at h
    · exact absurd h (by simp)
    · rename_i haveData t ht
      obtain ⟨r', hr', rfl⟩ := Option.map_eq_some_iff.mp h
      have hrest : Lts.Path (Served env) t (es.map fun e => (fuel, e)) r'.2 := ih hr'
      exact ⟨t, Option.map_eq_some_iff.mpr ⟨_, ht, rfl⟩, hrest⟩

/-- A relation that composes and holds of serving each event holds of serving them all. -/
theorem epollEvents_induction {R : RuruLoop σ υ → RuruLoop σ υ → Prop} (refl : ∀ s, R s s)
    (trans : ∀ {s t u}, R s t → R t u → R s u) {fuel : ℕ} {es : List EpollEvent}
    (serve : ∀ s t, ∀ e ∈ es, Serves env fuel s e t → R s t) {s : RuruLoop σ υ}
    {r : Bool × RuruLoop σ υ} (h : s.epollEvents env fuel es = some r) : R s r.2 := by
  have hpath := path_of_epollEvents env h
  clear h
  induction es generalizing s with
  | nil =>
    rw [show r.2 = s from hpath]
    exact refl s
  | cons e es ih =>
    obtain ⟨t, ht, hrest⟩ := hpath
    have htail : R t r.2 := ih (fun s t e he => serve s t e (List.mem_cons_of_mem _ he)) hrest
    exact trans (serve s t e List.mem_cons_self ht.serves) htail

/-! ### The scan -/

/-- The event that asks for the cache of client `i` to be sent. -/
def cacheWake (i : ℕ) : RuruEvent := { type := .evtSendCacheData, client := some i }

theorem foldl_push_cacheWake (is : List ℕ) (s : RuruLoop σ υ) :
    is.foldl (fun s i => s.push { type := .evtSendCacheData, client := some i } none) s =
      { s with
        que_ := s.que_ ++ is.map cacheWake
        trace := s.trace ++ is.map fun i => .push (cacheWake i) none } := by
  induction is generalizing s with
  | nil => simp
  | cons i is ih =>
    rw [List.foldl_cons, ih]
    simp [push, cacheWake]

/-- What the scan does: it counts, and when it is due it queues an event for every client with a
cache that is not empty. -/
theorem scanClientCacheData_snd (s : RuruLoop σ υ) : s.scanClientCacheData.2 =
    let due := if s.count.tmod roll = 0 then s.cachingClients else []
    { s with
      count := toInt32 (s.count + 1)
      que_ := s.que_ ++ due.map cacheWake
      trace := s.trace ++ due.map fun i => .push (cacheWake i) none } := by
  unfold scanClientCacheData
  by_cases hdue : s.count.tmod roll = 0
  · simp only [hdue, not_true, if_false, if_true, foldl_push_cacheWake]
    rfl
  · simp [hdue]

end RuruLoop

end Ruru
