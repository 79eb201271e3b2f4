import Ruru.ClientWork

/-!
# Ruru.Exchanges — what passes between a loop, usrsctp and the rings

Everything the loop does between two dequeues is a sequence of `Exchange`s: calls of usrsctp, each
with the callbacks that usrsctp made in it, a heartbeat taken out of its ring, a new client, an event
of the scan, or something that concerns none of these.  So every callback that the history of the
calls shows was carried out, in order, and no other.  The lemmas here carry this to the functions.
-/

namespace Ruru

open Relation

/-- Not about an event, a heartbeat, usrsctp or a registration. -/
def Effect.isAside : Effect → Bool
  | .push .. | .beatCopy .. | .beatSend .. | .usrsctp .. | .registered .. => false
  | _ => true

variable {σ υ : Type} (env : Env σ υ)

/-- Where a client receives: its ring, and the queue it pushes to. -/
def RuruClient.seat (c : RuruClient σ) : RuruRingBuf HeartBeatData × Option LoopId :=
  (c.heartBeatRing, c.que)

namespace RuruLoop

def seats (s : RuruLoop σ υ) : List (RuruRingBuf HeartBeatData × Option LoopId) :=
  s.clientMgr_.map (·.seat)

/-- The queue, the arena, the seats and the sockets stay, with `fixed` the connection records too. -/
structure Apart (fixed : Bool) (s t : RuruLoop σ υ) : Prop where
  seats : t.seats = s.seats
  que : t.que_ = s.que_
  arena : t.arena_ = s.arena_
  sockets : t.udpfd_ = s.udpfd_ ∧ t.tcpfd_ = s.tcpfd_
  cons : fixed = true → t.cons = s.cons

/-- A change that concerns no exchange. -/
def Aside (fixed : Bool) (s t : RuruLoop σ υ) : Prop :=
  Apart fixed s t ∧ ∃ es, t.trace = s.trace ++ es ∧ ∀ e ∈ es, e.isAside = true

/-- An elementary exchange. -/
inductive Exchange (fixed : Bool) : RuruLoop σ υ → RuruLoop σ υ → Prop
  | aside {s t : RuruLoop σ υ} (aside : Aside fixed s t) : Exchange fixed s t
  | called {s t : RuruLoop σ υ} (apart : Apart fixed s t) {i : ℕ} {calls : List UsrsctpCall}
      (trace : t.trace = s.trace ++ calls.map (Effect.usrsctp i)) :
      Exchange fixed s (t.callbacks env (calls.flatMap UsrsctpCall.callbacks))
  | scan {s : RuruLoop σ υ} {i : ℕ} (known : i < s.clientMgr_.length) :
      Exchange fixed s (s.push (cacheWake i) none)
  | take {s : RuruLoop σ υ} {i : ℕ} {client : RuruClient σ} (known : s.clientMgr_[i]? = some client)
      {beat : HeartBeatData} {ring : RuruRingBuf HeartBeatData}
      (read : client.heartBeatRing.ringBufRead = (some beat, ring)) :
      Exchange fixed s (s.takeBeat i beat ring)
  | enroll {s : RuruLoop σ υ} {client : RuruClient σ} (empty : client.heartBeatRing.elements = [])
      (size : client.heartBeatRing.cap = 100) : Exchange fixed s { s with
        clientMgr_ := s.clientMgr_ ++ [client]
        trace := s.trace ++ [.registered s.clientMgr_.length client.address] }

/-- A sequence of exchanges. -/
abbrev Exchanges (fixed : Bool) : RuruLoop σ υ → RuruLoop σ υ → Prop :=
  ReflTransGen (Exchange env fixed)

variable {fixed : Bool}

theorem seats_updateClient (s : RuruLoop σ υ) (i : ℕ) {f : RuruClient σ → RuruClient σ}
    (hf : ∀ c, (f c).seat = c.seat) : (s.updateClient i f).seats = s.seats :=
  map_updateClient _ s i fun c _ => hf c

theorem Apart.refl (s : RuruLoop σ υ) : Apart fixed s s := ⟨rfl, rfl, rfl, ⟨rfl, rfl⟩, fun _ => rfl⟩

theorem Aside.trans {s t u : RuruLoop σ υ} (h : Aside fixed s t) (h' : Aside fixed t u) :
    Aside fixed s u := by
  obtain ⟨a, es, he, hes⟩ := h
  obtain ⟨a', es', he', hes'⟩ := h'
  refine ⟨⟨a'.seats.trans a.seats, a'.que.trans a.que, a'.arena.trans a.arena,
    ⟨a'.sockets.1.trans a.sockets.1, a'.sockets.2.trans a.sockets.2⟩,
    fun hf => (a'.cons hf).trans (a.cons hf)⟩, es ++ es', by rw [he', he, List.append_assoc], ?_⟩
  intro e hmem
  rcases List.mem_append.mp hmem with hmem | hmem
  · exact hes e hmem
  · exact hes' e hmem

theorem Aside.exchanges {s t : RuruLoop σ υ} (h : Aside fixed s t) : Exchanges env fixed s t :=
  .single (.aside h)

theorem aside_refl (s : RuruLoop σ υ) : Aside fixed s s :=
  ⟨.refl s, [], (List.append_nil _).symm, by simp⟩

theorem aside_updateClient (s : RuruLoop σ υ) (i : ℕ) (f : RuruClient σ → RuruClient σ)
    (hf : ∀ c, (f c).seat = c.seat) : Aside fixed s (s.updateClient i f) :=
  ⟨⟨seats_updateClient s i hf, rfl, rfl, ⟨rfl, rfl⟩, fun _ => rfl⟩, [], (List.append_nil _).symm,
    by simp⟩

theorem aside_note (s : RuruLoop σ υ) {e : Effect} (he : e.isAside = true) :
    Aside fixed s (s.note e) :=
  ⟨⟨rfl, rfl, rfl, ⟨rfl, rfl⟩, fun _ => rfl⟩, [e], rfl, by simpa using he⟩

/-! ### The member functions of a client -/

theorem aside_clientSendPendingDtls (s : RuruLoop σ υ) (i : ℕ) :
    Aside fixed s (s.clientSendPendingDtls i) := by
  unfold clientSendPendingDtls
  split
  · exact aside_refl s
  · refine ⟨⟨?_, rfl, rfl, ⟨rfl, rfl⟩, fun _ => rfl⟩, _, rfl, ?_⟩
    · exact seats_updateClient s i (by intro c; rfl)
    · simp [Effect.isAside]

theorem aside_clientSendData (s : RuruLoop σ υ) (i : ℕ) (data : List UInt8) :
    Aside fixed s (s.clientSendData env i data) := by
  unfold clientSendData
  split
  · exact aside_refl s
  · dsimp only
    split_ifs
    · exact (aside_updateClient s i _ (by intro c; rfl)).trans (aside_clientSendPendingDtls _ i)
    · exact aside_note s rfl

theorem exchanges_sendBeats (fuel : ℕ) (s : RuruLoop σ υ) (i : ℕ) :
    Exchanges env fixed s (s.sendBeats env fuel i) := by
  induction fuel generalizing s with
  | zero => exact .refl
  | succ fuel ih =>
    unfold sendBeats
    split
    · exact .refl
    · rename_i client hi
      split
      · exact .refl
      · rename_i beat ring hread
        have htaken : Exchanges env fixed s (s.takeBeat i beat ring) := .single (.take hi hread)
        exact (htaken.trans ((aside_clientSendData env _ i _).exchanges env)).trans (ih _)

theorem exchanges_clientSendHeartBeatData (s : RuruLoop σ υ) (i : ℕ) :
    Exchanges env fixed s (s.clientSendHeartBeatData env i) := by
  unfold clientSendHeartBeatData
  split
  · exact .refl
  · exact exchanges_sendBeats env _ s i

/-- usrsctp has answered the calls of the transport `t` of client `i`. -/
theorem exchanges_usrsctpDone (s : RuruLoop σ υ) (i : ℕ) (t : Transport υ) :
    Exchanges env fixed s (s.usrsctpDone env i t) := by
  have hcalled : Apart fixed s { s with
      usr := t.usr
      nextSock := t.nextSock
      trace := s.trace ++ t.calls.map (Effect.usrsctp i) } :=
    ⟨rfl, rfl, rfl, ⟨rfl, rfl⟩, fun _ => rfl⟩
  exact .single (.called hcalled rfl)

theorem exchanges_withTransport (s : RuruLoop σ υ) (i : ℕ) (t : Transport υ) :
    Exchanges env fixed s (s.withTransport env i t) :=
  ((aside_updateClient s i _ (by intro c; rfl)).exchanges env).trans (exchanges_usrsctpDone env _ i t)

theorem exchanges_recvUsrSctpData (s : RuruLoop σ υ) (i : ℕ) (data : List UInt8) :
    Exchanges env fixed s (s.recvUsrSctpData env i data) := by
  unfold recvUsrSctpData
  split
  · exact .refl
  · exact exchanges_withTransport env s i _

theorem exchanges_sendUsrSctpData (s : RuruLoop σ υ) (i : ℕ) (msg : RuruSctpMessage) :
    Exchanges env fixed s (s.sendUsrSctpData env i msg) := by
  unfold sendUsrSctpData
  split
  · exact .refl
  · exact exchanges_withTransport env s i _

theorem exchanges_sendSctpCacheData (s : RuruLoop σ υ) (i : ℕ) :
    Exchanges env fixed s (s.sendSctpCacheData env i) := by
  unfold sendSctpCacheData
  split
  · exact .refl
  · exact exchanges_withTransport env s i _

/-! ### `HandleDtlsPacket` -/

theorem exchanges_dtlsRead (s : RuruLoop σ υ) (i : ℕ) :
    Exchanges env fixed s (s.dtlsRead env i) := by
  unfold dtlsRead
  split
  · exact .refl
  · dsimp only
    split_ifs
    · refine ReflTransGen.trans (Aside.exchanges env ?_) (exchanges_recvUsrSctpData env _ i _)
      exact (aside_updateClient s i _ (by intro c; rfl)).trans (aside_note _ rfl)
    · exact (aside_updateClient s i _ (by intro c; rfl)).exchanges env

theorem exchanges_dtlsReadLoop {fuel : ℕ} {s s' : RuruLoop σ υ} {i : ℕ}
    (h : s.dtlsReadLoop env fuel i = some s') : Exchanges env fixed s s' := by
  induction fuel generalizing s with
  | zero =>
    unfold dtlsReadLoop at h
    split_ifs at h
    cases h
    exact .refl
  | succ fuel ih =>
    unfold dtlsReadLoop at h
    split_ifs at h
    · exact (exchanges_dtlsRead env s i).trans (ih h)
    · cases h
      exact .refl

theorem exchanges_handleDtlsPacket {fuel : ℕ} {s s' : RuruLoop σ υ} {i : ℕ} {data : List UInt8}
    (h : s.handleDtlsPacket env fuel i data = some s') : Exchanges env fixed s s' := by
  unfold handleDtlsPacket at h
  split at h
  · cases h
    exact .refl
  · dsimp only at h
    split_ifs at h
    · refine ReflTransGen.trans (Aside.exchanges env ?_) (exchanges_dtlsReadLoop env h)
      exact (aside_updateClient s i _ (by intro c; rfl)).trans (aside_clientSendPendingDtls _ i)
    · cases h
      apply Aside.exchanges env
      exact (aside_updateClient s i _ (by intro c; rfl)).trans (aside_clientSendPendingDtls _ i)
    · cases h
      exact (aside_updateClient s i _ (by intro c; rfl)).exchanges env
    · cases h
      apply Aside.exchanges env
      exact (aside_updateClient s i _ (by intro c; rfl)).trans (aside_clientSendPendingDtls _ i)

/-! ### `EpollWait` and the scan -/

theorem exchanges_recvDatagrams {fuel : ℕ} {s : RuruLoop σ υ}
    {ds : List (SockaddrIn × List UInt8)} {r : Bool × RuruLoop σ υ}
    (h : s.recvDatagrams env fuel ds = some r) : Exchanges env fixed s r.2 := by
  induction ds generalizing s r with
  | nil => cases h; exact .refl
  | cons d ds ih =>
    unfold recvDatagrams at h
    dsimp only at h
    split_ifs at h
    · cases h
      exact (aside_note s rfl).exchanges env
    · split at h
      · exact absurd h (by simp)
      · rename_i s1 hs1
        obtain ⟨r', hr', rfl⟩ := Option.map_eq_some_iff.mp h
        have hrest : Exchanges env fixed s1 r'.2 := ih hr'
        have htaken : Exchanges env fixed s (s.note (.recvfrom
            ⟨ntohl d.1.sAddr, ntohs d.1.sinPort⟩ (d.2.take 4096))) :=
          (aside_note s rfl).exchanges env
        refine htaken.trans (ReflTransGen.trans ?_ hrest)
        split at hs1
        · exact ((aside_note _ rfl).exchanges env).trans (exchanges_handleDtlsPacket env hs1)
        · cases hs1
          exact .refl

theorem aside_acceptOne (s : RuruLoop σ υ) (a : AcceptResult) : Aside false s (s.acceptOne a) := by
  refine (aside_note s (e := .opened a.cfd) rfl).trans ?_
  unfold acceptOne
  generalize s.note (.opened a.cfd) = s
  by_cases hnb : a.nonBlocking = true
  · simp only [if_pos hnb]
    have h1 : Aside false s { s with
        cons := s.cons ++ [some ({ fd := a.cfd } : RuruConnectionData)]
        trace := s.trace ++ [.newCon s.cons.length a.cfd] } :=
      ⟨⟨rfl, rfl, rfl, ⟨rfl, rfl⟩, by simp⟩, _, rfl, by simp [Effect.isAside]⟩
    split_ifs
    · exact h1.trans (aside_note _ rfl)
    · exact h1.trans (aside_note _ rfl)
  · simp only [if_neg hnb]
    exact aside_note s rfl

theorem aside_accepts (as : List AcceptResult) (s : RuruLoop σ υ) :
    Aside false s (as.foldl acceptOne s) := by
  induction as generalizing s with
  | nil => exact aside_refl s
  | cons a as ih => exact (aside_acceptOne s a).trans (ih _)

theorem aside_closeCon (s : RuruLoop σ υ) (c : ConId) (fd : ℤ) : Aside false s (s.closeCon c fd) :=
  ⟨⟨rfl, rfl, rfl, ⟨rfl, rfl⟩, by simp⟩, [.close fd, .deleteCon c], rfl, by simp [Effect.isAside]⟩

/-- A registration: the constructor calls usrsctp, then the client is appended. -/
theorem exchanges_registerClient (s : RuruLoop σ υ) (address : RuruAddress) :
    Exchanges env fixed s
      ((s.registerClient env address).note (.registered s.clientMgr_.length address)) := by
  set t := Transport.construct env.usrsctp (env.junk s.clientMgr_.length) s.usr s.nextSock
  have hcalled : Exchanges env fixed s (s.usrsctpDone env s.clientMgr_.length t) :=
    exchanges_usrsctpDone env s _ t
  have hlength : (s.usrsctpDone env s.clientMgr_.length t).clientMgr_.length =
      s.clientMgr_.length := (work_usrsctpDone env s s.clientMgr_.length t).clients
  set client := (s.usrsctpDone env s.clientMgr_.length t).attachClientInfo
    ((s.usrsctpDone env s.clientMgr_.length t).ruruClient env s.clientMgr_.length t address)
  have hempty : client.heartBeatRing.elements = [] := RuruRingBuf.elements_ruruRingBuf ..
  have henroll : Exchange env fixed (s.usrsctpDone env s.clientMgr_.length t) _ :=
    .enroll hempty rfl
  rw [hlength] at henroll
  exact hcalled.tail henroll

theorem Answer.exchanges {s t : RuruLoop σ υ} {fd : ℤ} {address : Option RuruAddress}
    (h : Answer env s fd address t) : Exchanges env fixed s t := by
  cases h with
  | silent => exact .refl
  | badRequest => exact (aside_note s rfl).exchanges env
  | ok address =>
    exact (exchanges_registerClient env s address).trans ((aside_note _ rfl).exchanges env)

theorem Serves.exchanges {fuel : ℕ} {s t : RuruLoop σ υ} {e : EpollEvent}
    (h : Serves env fuel s e t) : Exchanges env false s t := by
  cases h with
  | gone dead => exact .refl
  | error live failed => exact (aside_closeCon s _ _).exchanges env
  | udp live sound fd drained => exact exchanges_recvDatagrams env drained
  | accept live sound udp fd => exact (aside_accepts e.accepts s).exchanges env
  | http live sound udp tcp answer =>
    exact (answer.exchanges env).trans ((aside_closeCon _ _ _).exchanges env)

theorem exchanges_epollEvents {fuel : ℕ} {s : RuruLoop σ υ} {es : List EpollEvent}
    {r : Bool × RuruLoop σ υ} (h : s.epollEvents env fuel es = some r) :
    Exchanges env false s r.2 :=
  epollEvents_induction env (fun _ => .refl) ReflTransGen.trans (fun _ _ _ _ hs => hs.exchanges env) h

/-- Queueing a cache event for each of some known clients. -/
theorem exchanges_pushSendCacheData (is : List ℕ) (s : RuruLoop σ υ)
    (hknown : ∀ i ∈ is, i < s.clientMgr_.length) :
    Exchanges env fixed s (is.foldl
      (fun s i => s.push { type := .evtSendCacheData, client := some i } none) s) := by
  induction is generalizing s with
  | nil => exact .refl
  | cons i is ih =>
    have h1 : Exchanges env fixed s (s.push { type := .evtSendCacheData, client := some i } none) :=
      .single (.scan (hknown i (by simp)))
    exact h1.trans (ih _ fun j hj => hknown j (by simp [hj]))

theorem exchanges_scanClientCacheData (s : RuruLoop σ υ) :
    Exchanges env fixed s s.scanClientCacheData.2 := by
  have hcounted : Aside fixed s { s with count := toInt32 (s.count + 1) } :=
    ⟨⟨rfl, rfl, rfl, ⟨rfl, rfl⟩, fun _ => rfl⟩, [], (List.append_nil _).symm, by simp⟩
  have hcount : Exchanges env fixed s { s with count := toInt32 (s.count + 1) } :=
    hcounted.exchanges env
  unfold scanClientCacheData
  dsimp only
  split_ifs
  · refine hcount.trans (exchanges_pushSendCacheData env _ _ fun i hi => ?_)
    exact List.mem_range.mp (List.mem_filter.mp hi).1
  · exact hcount

/-! ### The handlers of the example server, and `Loop` -/

theorem exchanges_handleEvent (s : RuruLoop σ υ) (evt : RuruEvent) :
    Exchanges env fixed s (s.handleEvent env evt) := by
  unfold handleEvent
  split
  · unfold sendHeartBeat
    split
    · exact .refl
    · exact exchanges_clientSendHeartBeatData env s _
  · unfold echo2Client
    split
    · exact .refl
    · exact exchanges_sendUsrSctpData env s _ _
  · unfold sendClientCacheData
    split
    · exact .refl
    · exact exchanges_sendSctpCacheData env s _
  · exact .refl

theorem loop_of_cons {fuel : ℕ} {s : RuruLoop σ υ} {evt front : RuruEvent} {batch : EpollBatch}
    {rest : List RuruEvent} (hq : s.que_ = front :: rest) :
    s.loop env fuel evt batch = some (true, front, { s with que_ := rest }) := by
  simp [loop, updateEvent, hq]

theorem loop_of_nil {fuel : ℕ} {s : RuruLoop σ υ} {evt : RuruEvent} {batch : EpollBatch}
    (hq : s.que_ = []) : s.loop env fuel evt batch =
      (s.resetArena.scanClientCacheData.2.epollWait env fuel batch).map fun r =>
        (s.resetArena.scanClientCacheData.1 || r.1, evt, r.2) := by
  simp only [loop, updateEvent, hq, Bool.false_eq_true, if_false]
  cases s.resetArena.scanClientCacheData.2.epollWait env fuel batch <;> rfl

/-- `Loop` with a queued event dequeues it; otherwise it resets the arena and goes on from there. -/
theorem loop_exchanges {fuel : ℕ} {s : RuruLoop σ υ} {evt : RuruEvent} {batch : EpollBatch}
    {haveData : Bool} {evt' : RuruEvent} {s' : RuruLoop σ υ}
    (h : s.loop env fuel evt batch = some (haveData, evt', s')) :
    (∃ rest, s.que_ = evt' :: rest ∧ haveData = true ∧ s' = { s with que_ := rest }) ∨
      (s.que_ = [] ∧ evt' = evt ∧ Exchanges env false s.resetArena s') := by
  cases hq : s.que_ with
  | cons front rest =>
    rw [loop_of_cons env hq] at h
    simp only [Option.some.injEq, Prod.mk.injEq] at h
    obtain ⟨rfl, rfl, rfl⟩ := h
    exact Or.inl ⟨rest, rfl, rfl, rfl⟩
  | nil =>
    rw [loop_of_nil env hq] at h
    obtain ⟨r, hr, he⟩ := Option.map_eq_some_iff.mp h
    simp only [Prod.mk.injEq] at he
    obtain ⟨-, rfl, rfl⟩ := he
    exact Or.inr ⟨rfl, rfl,
      (exchanges_scanClientCacheData env _).trans (exchanges_epollEvents env hr)⟩

end RuruLoop

end Ruru
