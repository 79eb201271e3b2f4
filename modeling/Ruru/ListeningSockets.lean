import Ruru.Descriptors
import Ruru.PlainLibs

/-!
# Ruru.ListeningSockets — the two sockets of the constructor

The error branch closes the descriptor of whatever record the event is about, also that of the UDP
or the listening socket; its number may then be given to an accepted connection, which dispatch
takes for the socket.  Without such an event both sockets stay, and no accepted connection can get
their numbers.
-/

namespace Ruru

open Ledger

variable {σ υ : Type} (env : Env σ υ)

/-- The descriptor is open and was never closed, so it is still the socket it was opened for. -/
def Survives (trace : List Effect) (fd : ℤ) : Prop := FdOpen trace fd ∧ .close fd ∉ trace

/-- Only closing that descriptor ends it. -/
theorem Survives.effects {trace es : List Effect} {fd : ℤ} (h : Survives trace fd)
    (hes : ∀ e ∈ es, e ≠ .close fd) : Survives (trace ++ es) fd := by
  induction es generalizing trace with
  | nil => rwa [List.append_nil]
  | cons e es ih =>
    obtain ⟨he, hes⟩ := List.forall_mem_cons.mp hes
    rw [List.append_cons]
    refine ih ⟨?_, by simpa [h.2] using he.symm⟩ hes
    have hopen : table (fdOps trace) fd = some () := h.1
    cases e with
    | opened fd' =>
      rw [FdOpen, fdOps, List.filterMap_append]
      show table (fdOps trace ++ [.enter fd' ()]) fd = some ()
      rw [table_append, List.foldl_cons, List.foldl_nil, on_enter]
      split_ifs
      · rfl
      · exact hopen
    | close fd' =>
      have hne : fd ≠ fd' := fun heq => he (by rw [heq])
      rw [FdOpen, fdOps, List.filterMap_append]
      show table (fdOps trace ++ [.remove fd']) fd = some ()
      rw [table_append, List.foldl_cons, List.foldl_nil, on_remove, if_neg hne]
      exact hopen
    | _ =>
      rw [FdOpen, fdOps, List.filterMap_append]
      simpa [fdOps] using hopen

namespace RuruLoop

/-- The two sockets survive, and the record of no accepted connection has their descriptors. -/
structure SocketsSurvive (s : RuruLoop σ υ) : Prop where
  udp : Survives s.trace s.udpfd_
  tcp : Survives s.trace s.tcpfd_
  accepted : ∀ (c : ConId) (con : RuruConnectionData), 2 ≤ c → s.cons[c]? = some (some con) →
    con.fd ≠ s.udpfd_ ∧ con.fd ≠ s.tcpfd_

theorem SocketsSurvive.effects {s t : RuruLoop σ υ} (h : s.SocketsSurvive) {es : List Effect}
    (sockets : t.udpfd_ = s.udpfd_ ∧ t.tcpfd_ = s.tcpfd_) (trace : t.trace = s.trace ++ es)
    (spared : ∀ e ∈ es, e ≠ .close s.udpfd_ ∧ e ≠ .close s.tcpfd_)
    (records : ∀ (c : ConId) con, 2 ≤ c → t.cons[c]? = some (some con) →
      s.cons[c]? = some (some con) ∨ con.fd ≠ s.udpfd_ ∧ con.fd ≠ s.tcpfd_) : t.SocketsSurvive := by
  constructor
  · rw [trace, sockets.1]
    exact h.udp.effects fun e he => (spared e he).1
  · rw [trace, sockets.2]
    exact h.tcp.effects fun e he => (spared e he).2
  · intro c con hc hlive
    rw [sockets.1, sockets.2]
    rcases records c con hc hlive with hold | hnew
    · exact h.accepted c con hc hold
    · exact hnew

theorem SocketsSurvive.calm {s t : RuruLoop σ υ} (h : s.SocketsSurvive) (hcalm : Calm s t) :
    t.SocketsSurvive := by
  obtain ⟨es, he, hes⟩ := hcalm.effects
  refine h.effects hcalm.sockets he (fun e hmem => ⟨?_, ?_⟩) fun c con _ hlive => ?_
  · rintro rfl
    exact absurd (hes _ hmem) (by simp [Effect.isDescriptor])
  · rintro rfl
    exact absurd (hes _ hmem) (by simp [Effect.isDescriptor])
  · exact Or.inl (hcalm.cons ▸ hlive)

/-- Closing a connection spares the sockets exactly if it is not theirs. -/
theorem socketsSurvive_closeCon_iff {s : RuruLoop σ υ} (h : s.SocketsSurvive) (c : ConId) (fd : ℤ) :
    (s.closeCon c fd).SocketsSurvive ↔ fd ≠ s.udpfd_ ∧ fd ≠ s.tcpfd_ := by
  constructor
  · intro hclosed
    refine ⟨fun heq => hclosed.udp.2 ?_, fun heq => hclosed.tcp.2 ?_⟩
    · simp [closeCon, heq]
    · simp [closeCon, heq]
  · rintro ⟨hudp, htcp⟩
    refine h.effects ⟨rfl, rfl⟩ rfl (by simp [hudp, htcp]) fun c' con _ hlive => Or.inl ?_
    have hlive' : (s.cons.set c none)[c']? = some (some con) := hlive
    rw [List.getElem?_set] at hlive'
    split_ifs at hlive' with heq hlt
    · exact absurd (Option.some.inj hlive') (by simp)
    · exact hlive'

/-- An accepted connection does not get the number of an open socket. -/
theorem SocketsSurvive.accept {s t : RuruLoop σ υ} (h : s.SocketsSurvive) {a : AcceptResult}
    (hclosed : ¬FdOpen s.trace a.cfd) (haccepted : Accepted s a t) : t.SocketsSurvive := by
  have hudp : a.cfd ≠ s.udpfd_ := fun heq => hclosed (heq ▸ h.udp.1)
  have htcp : a.cfd ≠ s.tcpfd_ := fun heq => hclosed (heq ▸ h.tcp.1)
  have hrecords : ∀ (c : ConId) con, 2 ≤ c →
      (s.cons ++ [some { fd := a.cfd }])[c]? = some (some con) →
      s.cons[c]? = some (some con) ∨ con.fd ≠ s.udpfd_ ∧ con.fd ≠ s.tcpfd_ := by
    intro c con _ hlive
    rw [List.getElem?_append] at hlive
    split_ifs at hlive
    · exact Or.inl hlive
    · obtain rfl : con = { fd := a.cfd } :=
        Option.some.inj (List.mem_singleton.mp (List.mem_of_getElem? hlive))
      exact Or.inr ⟨hudp, htcp⟩
  cases haccepted with
  | rejected blocking =>
    exact h.effects ⟨rfl, rfl⟩ rfl (by simp [hudp, htcp]) fun _ _ _ hlive => Or.inl hlive
  | added nonBlocking added => exact h.effects ⟨rfl, rfl⟩ rfl (by simp) hrecords
  | notAdded nonBlocking notAdded =>
    exact h.effects ⟨rfl, rfl⟩ rfl (by simp [hudp, htcp]) hrecords

/-! ### Runs -/

/-- Serving an event, with the numbers the kernel gives to new descriptors. -/
def ServedByKernel (s : RuruLoop σ υ) (input : ℕ × EpollEvent) (s' : RuruLoop σ υ) : Prop :=
  Served env s input s' ∧ OpensFree s'.trace

/-- An error event is not about a record with the descriptor of one of the two sockets. -/
def ErrorSpares (s : RuruLoop σ υ) (input : ℕ × EpollEvent) : Prop :=
  input.2.failed = true → ∀ con, s.cons[input.2.ptr]? = some (some con) →
    con.fd ≠ s.udpfd_ ∧ con.fd ≠ s.tcpfd_

theorem step_socketsSurvive {s s' : RuruLoop σ υ} {input : ℕ × EpollEvent} (h : s.SocketsSurvive)
    (hs : ServedByKernel env s input s') : s'.SocketsSurvive ↔ s.ErrorSpares input := by
  obtain ⟨hserved, hfree⟩ := hs
  cases hserved.serves with
  | gone dead =>
    refine iff_of_true h fun _ con hlive => ?_
    rw [hlive] at dead
    exact absurd dead (by simp)
  | error live failed =>
    rw [socketsSurvive_closeCon_iff h]
    refine ⟨fun hspared _ con hlive => ?_, fun hspares => hspares failed _ live⟩
    obtain rfl := Option.some.inj (Option.some.inj (live.symm.trans hlive))
    exact hspared
  | udp live sound fd drained =>
    refine iff_of_true (h.calm (work_recvDatagrams env drained).calm) fun hfail => ?_
    exact absurd (hfail.symm.trans sound) (by simp)
  | accept live sound udp fd =>
    refine iff_of_true ?_ fun hfail => absurd (hfail.symm.trans sound) (by simp)
    exact (path_accepts hfree).invariant (fun _ _ _ hP ha => hP.accept ha.1 ha.2) h
  | http live sound udp tcp answer =>
    refine iff_of_true ?_ fun hfail => absurd (hfail.symm.trans sound) (by simp)
    have hcalm := answer.calm
    refine (socketsSurvive_closeCon_iff (h.calm hcalm) _ _).mpr ?_
    rw [hcalm.sockets.1, hcalm.sockets.2]
    exact ⟨udp, tcp⟩

theorem socketsSurvive_constructed {this : LoopId} {udpfd tcpfd : ℤ} (hne : udpfd ≠ tcpfd)
    (memory : ℕ → UInt8) (usr : υ) (nextSock : Sock) (count : ℤ) :
    (constructed this udpfd tcpfd memory usr nextSock count : RuruLoop σ υ).SocketsSurvive := by
  constructor
  · refine ⟨?_, by simp [constructed]⟩
    simp [FdOpen, fdOps, constructed, table, hne]
  · refine ⟨?_, by simp [constructed]⟩
    simp [FdOpen, fdOps, constructed, table]
  · intro c con hc hlive
    obtain ⟨c, rfl⟩ := Nat.exists_eq_add_of_le hc
    simp [constructed, Nat.add_comm 2 c] at hlive

/-- **The listening sockets.**  Along every run of `EpollWait` over a constructed loop the two
sockets survive, and no accepted connection has their numbers, exactly if no error event is about
one of them. -/
theorem sockets_survive_iff (this : LoopId) {udpfd tcpfd : ℤ} (hne : udpfd ≠ tcpfd)
    (memory : ℕ → UInt8) (usr : υ) (nextSock : Sock) (count : ℤ) (inputs : List (ℕ × EpollEvent)) :
    let start := constructed this udpfd tcpfd memory usr nextSock count
    Lts.Always (ServedByKernel env) SocketsSurvive start inputs ↔
      Lts.Each (ServedByKernel env) ErrorSpares start inputs := by
  refine Lts.always_iff_each (I := fun _ => True) ?_ (fun _ _ _ _ _ _ _ => trivial) trivial
    (socketsSurvive_constructed hne memory usr nextSock count) inputs
  exact fun s input s' _ h hs => step_socketsSurvive env h hs

/-- A connection comes in. -/
theorem sockets_survive_accept :
    Lts.Always (ServedByKernel plainEnv) SocketsSurvive (constructed 0 3 4 (fun _ => 0) [] 0 1)
      [(0, { ptr := 1, accepts := [⟨5, true, true⟩] })] :=
  (sockets_survive_iff plainEnv 0 (by decide) (fun _ => 0) [] 0 1 _).mpr
    fun _ _ => ⟨fun hfail => absurd hfail (by decide), trivial⟩

/-- `EPOLLERR` is reported on the UDP socket, and then a connection comes in that gets its number. -/
def udpErrorInputs : List (ℕ × EpollEvent) :=
  [(0, { ptr := 0, epollErr := true }), (0, { ptr := 1, accepts := [⟨3, true, true⟩] })]

/-- The UDP socket is closed then, and an accepted connection has its number. -/
theorem udp_error_not_survived :
    ¬Lts.Always (ServedByKernel plainEnv) SocketsSurvive
      (constructed 0 3 4 (fun _ => 0) [] 0 1) udpErrorInputs := by
  intro h
  have hpath : Lts.Path (ServedByKernel plainEnv) (constructed 0 3 4 (fun _ => 0) [] 0 1)
      udpErrorInputs (((constructed 0 3 4 (fun _ => 0) [] 0 1).closeCon 0 3).acceptOne
        ⟨3, true, true⟩) :=
    ⟨_, ⟨rfl, by decide⟩, _, ⟨rfl, by decide⟩, rfl⟩
  have hsurvive := Lts.always_iff_prefix.mp h udpErrorInputs [] (by simp) _ hpath
  exact (hsurvive.accepted 2 { fd := 3 } (le_refl 2) rfl).1 rfl

end RuruLoop

end Ruru
