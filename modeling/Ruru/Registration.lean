import Ruru.Datagrams

/-!
# Ruru.Registration — which client the datagrams of an address reach

A registration appends a client without looking, the lookup takes the first client with the address,
and no client is ever removed.  So the newest registration of an address is served as long as no
address is registered twice, and not any more from the second registration on.
-/

namespace Ruru

variable {σ υ : Type} (env : Env σ υ)

/-- The registrations answered 200 OK, with the numbers of the clients made for them. -/
def registrations (trace : List Effect) : List (RuruAddress × ℕ) :=
  trace.filterMap fun
    | .registered client address => some (address, client)
    | _ => none

/-- The client of the latest registration of an address. -/
def newest (trace : List Effect) (address : RuruAddress) : Option ℕ :=
  ((registrations trace).reverse.find? fun r => r.1 == address).map (·.2)

@[simp] theorem registrations_append (a b : List Effect) :
    registrations (a ++ b) = registrations a ++ registrations b := List.filterMap_append

theorem registrations_eq_nil {es : List Effect} (h : ∀ e ∈ es, e.isUdpWork = true) :
    registrations es = [] := by
  refine List.filterMap_eq_nil_iff.mpr fun e he => ?_
  have hwork := h e he
  cases e with
  | registered client address => exact absurd hwork (by simp [Effect.isUdpWork, Effect.isClientWork,
      Effect.isDatagram])
  | _ => rfl

/-- With distinct keys the last match is the first one. -/
theorem find?_reverse_of_nodup {α κ : Type} [DecidableEq κ] {key : α → κ} {l : List α}
    (h : (l.map key).Nodup) (k : κ) :
    l.reverse.find? (fun x => key x == k) = l.find? fun x => key x == k := by
  cases hr : l.reverse.find? (fun x => key x == k) with
  | none =>
    symm
    simpa using hr
  | some x =>
    have hx : x ∈ l := List.mem_reverse.mp (List.mem_of_find?_eq_some hr)
    have hxk : key x = k := by simpa using List.find?_some hr
    have hsome : (l.find? fun x => key x == k).isSome := by
      rw [List.find?_isSome]
      exact ⟨x, hx, by simpa using hxk⟩
    obtain ⟨y, hy⟩ := Option.isSome_iff_exists.mp hsome
    have hyk : key y = k := by simpa using List.find?_some hy
    rw [hy, List.inj_on_of_nodup_map h hx (List.mem_of_find?_eq_some hy) (hxk.trans hyk.symm)]

namespace RuruLoop

def addresses (s : RuruLoop σ υ) : List RuruAddress := s.clientMgr_.map (·.address)

theorem addresses_eq (s : RuruLoop σ υ) : s.addresses = s.statics.map (·.address) := by
  rw [addresses, statics, List.map_map]
  rfl

/-- The address that serving the event registers. -/
def registers (s : RuruLoop σ υ) (e : EpollEvent) : Option RuruAddress :=
  match (s.cons[e.ptr]?).join with
  | none => none
  | some con =>
    if e.failed ∨ con.fd = s.udpfd_ ∨ con.fd = s.tcpfd_ then none
    else requestAddress env con e.reads

/-! ### One event -/

/-- Serving an event appends the client it registers, and nothing else changes the clients'
addresses or registers a client. -/
structure Registers (s s' : RuruLoop σ υ) (address : Option RuruAddress) : Prop where
  addresses : s'.addresses = s.addresses ++ address.toList
  registrations : registrations s'.trace =
    registrations s.trace ++ address.toList.map fun a => (a, s.clientMgr_.length)

theorem UdpWork.registers {s s' : RuruLoop σ υ} (h : UdpWork s s') : Registers s s' none := by
  obtain ⟨es, he, hes⟩ := h.effects
  constructor
  · rw [addresses_eq, addresses_eq, h.statics]
    simp
  · rw [he, registrations_append, registrations_eq_nil hes]
    rfl

theorem Answer.registers {s t : RuruLoop σ υ} {fd : ℤ} {address : Option RuruAddress}
    (h : Answer env s fd address t) : Registers s t address := by
  cases h with
  | silent => exact ⟨by simp, by simp⟩
  | badRequest => exact ⟨by simp [RuruLoop.addresses, note], by simp [note, Ruru.registrations]⟩
  | ok address =>
    obtain ⟨u, client, hu, hclient, he⟩ := registerClient_cases env s address
    have hwork := hu.udpWork.registers
    have haddress : client.address = address := congrArg ClientStatics.address hclient
    rw [he]
    constructor
    · have := hwork.addresses
      simp only [RuruLoop.addresses, Option.toList_none, List.append_nil] at this
      simp [RuruLoop.addresses, note, haddress, this]
    · have := hwork.registrations
      simp only [Option.toList_none, List.map_nil, List.append_nil] at this
      show Ruru.registrations (u.trace ++ [.registered _ address] ++ [.socketWrite fd httpOk]) = _
      rw [registrations_append, registrations_append, this, List.append_assoc]
      rfl

theorem registers_accepts (as : List AcceptResult) (s : RuruLoop σ υ) :
    Registers s (as.foldl acceptOne s) none := by
  induction as generalizing s with
  | nil => exact ⟨by simp, by simp⟩
  | cons a as ih =>
    have hone : Registers s (s.acceptOne a) none := by
      unfold acceptOne
      dsimp only
      split_ifs
      · exact ⟨by simp [RuruLoop.addresses, note], by simp [note, Ruru.registrations]⟩
      · exact ⟨by simp [RuruLoop.addresses, note], by simp [note, Ruru.registrations]⟩
      · exact ⟨by simp [RuruLoop.addresses, note], by simp [note, Ruru.registrations]⟩
    have hrest := ih (s.acceptOne a)
    constructor
    · rw [List.foldl_cons, hrest.addresses, hone.addresses]
      simp
    · rw [List.foldl_cons, hrest.registrations, hone.registrations]
      simp

theorem Registers.closeCon {s t : RuruLoop σ υ} {address : Option RuruAddress}
    (h : Registers s t address) (c : ConId) (fd : ℤ) : Registers s (t.closeCon c fd) address := by
  constructor
  · exact h.addresses
  · rw [RuruLoop.closeCon, registrations_append, h.registrations]
    simp [Ruru.registrations]

theorem Serves.registers {fuel : ℕ} {s s' : RuruLoop σ υ} {e : EpollEvent}
    (h : Serves env fuel s e s') : Registers s s' (s.registers env e) := by
  have hrefl : Registers s s none := ⟨by simp, by simp⟩
  cases h with
  | gone dead =>
    rw [RuruLoop.registers, dead]
    exact hrefl
  | error live failed =>
    rw [RuruLoop.registers, live]
    simp only [Option.join_some, failed, true_or, if_true]
    exact hrefl.closeCon _ _
  | udp live sound fd drained =>
    rw [RuruLoop.registers, live]
    simp only [Option.join_some, fd, true_or, or_true, if_true]
    exact (work_recvDatagrams env drained).registers
  | accept live sound udp fd =>
    rw [RuruLoop.registers, live]
    simp only [Option.join_some, fd, or_true, if_true]
    exact registers_accepts e.accepts s
  | http live sound udp tcp answer =>
    rw [RuruLoop.registers, live]
    simp only [Option.join_some, sound, udp, tcp, Bool.false_eq_true, or_self, if_false]
    exact answer.registers.closeCon _ _

/-! ### Runs -/

/-- No two clients have the same address, and a datagram goes to the client of the latest
registration of its source. -/
def NewestServed (s : RuruLoop σ υ) : Prop :=
  s.addresses.Nodup ∧ ∀ fuel remote (data : List UInt8) r, data ≠ [] → data.length ≤ 4096 →
    s.recvDatagrams env fuel [(remote, data)] = some r →
    handed r.2.trace = handed s.trace ++
      ((newest s.trace remote.source).map fun client => (client, data)).toList

/-- The registrations answered so far are the clients, in order. -/
def Recorded (s : RuruLoop σ υ) : Prop := registrations s.trace = s.addresses.zipIdx

/-- The lookup takes the first client with the address. -/
theorem Recorded.findClientByAddress {s : RuruLoop σ υ} (h : s.Recorded) (address : RuruAddress) :
    s.findClientByAddress address =
      ((registrations s.trace).find? fun r => r.1 == address).map (·.2) := by
  calc s.findClientByAddress address
    _ = s.addresses.findIdx? (· == address) := by
      rw [findClientByAddress_eq, addresses_eq, List.findIdx?_map]
      rfl
    _ = (s.addresses.zipIdx.find? fun r => r.1 == address).map (·.2) :=
      List.findIdx?_eq_fst_find?_zipIdx
    _ = ((registrations s.trace).find? fun r => r.1 == address).map (·.2) := by rw [h]

theorem Recorded.newestServed_iff {s : RuruLoop σ υ} (h : s.Recorded) :
    s.NewestServed env ↔ s.addresses.Nodup := by
  refine ⟨fun hs => hs.1, fun hnodup => ⟨hnodup, fun fuel remote data r hne hlen hr => ?_⟩⟩
  have hkeys : ((registrations s.trace).map Prod.fst).Nodup := by
    rw [h, List.zipIdx_map_fst]
    exact hnodup
  have hfind : s.findClientByAddress remote.source = newest s.trace remote.source := by
    rw [h.findClientByAddress, newest, find?_reverse_of_nodup hkeys]
  have hdrained := drained_upToEmpty env (by simpa using hlen) hr
  have hreceiver : s.receiver (remote, data) =
      (newest s.trace remote.source).map fun client => (client, data) := by
    rw [receiver, if_neg hne, hfind]
  rw [hdrained.2, upToEmpty, if_neg hne, upToEmpty]
  cases hn : (newest s.trace remote.source).map fun client => (client, data) <;>
    simp [hreceiver, hn]

theorem step_recorded {s s' : RuruLoop σ υ} {input : ℕ × EpollEvent} (h : s.Recorded)
    (hs : Served env s input s') : s'.Recorded := by
  have hreg := hs.serves.registers
  rw [Recorded, hreg.registrations, hreg.addresses, h, List.zipIdx_append, Nat.zero_add]
  cases s.registers env input.2 <;> simp [RuruLoop.addresses]

/-- **The newest registration is served.**  Along any run of `EpollWait` over a constructed loop,
the newest registration of every address is served exactly if no address is registered that a client
has already. -/
theorem newest_served_iff (this : LoopId) (udpfd tcpfd : ℤ) (memory : ℕ → UInt8) (usr : υ)
    (nextSock : Sock) (count : ℤ) (inputs : List (ℕ × EpollEvent)) :
    let start := constructed this udpfd tcpfd memory usr nextSock count
    Lts.Always (Served env) (NewestServed env) start inputs ↔
      Lts.Each (Served env) (fun s input => ∀ address, s.registers env input.2 = some address →
        s.findClientByAddress address = none) start inputs := by
  have h0 : (constructed this udpfd tcpfd memory usr nextSock count : RuruLoop σ υ).Recorded := rfl
  refine Lts.always_iff_each (I := Recorded) ?_ (fun _ _ _ h _ hs _ => step_recorded env h hs) h0
    ((h0.newestServed_iff env).mpr List.nodup_nil) inputs
  intro s input s' h hserved hs
  have hreg := hs.serves.registers
  rw [(step_recorded env h hs).newestServed_iff, hreg.addresses]
  cases hr : s.registers env input.2 with
  | none => simpa using hserved.1
  | some address =>
    have hnone : s.findClientByAddress address = none ↔ address ∉ s.addresses := by
      rw [findClientByAddress_eq, addresses_eq, List.findIdx?_eq_none_iff]
      simp only [List.mem_map, not_exists, not_and, beq_eq_false_iff_ne]
    simp only [Option.toList_some, Option.some.injEq, forall_eq', hnone]
    rw [List.nodup_append_comm, List.singleton_append, List.nodup_cons]
    exact and_iff_left hserved.1

/-- A peer registers, restarts, and registers again. -/
def registerTwice : List (ℕ × EpollEvent) :=
  [(0, { ptr := 1, accepts := [⟨5, true, true⟩] }), (0, { ptr := 2, reads := [.bytes sampleRequest] }),
    (0, { ptr := 1, accepts := [⟨6, true, true⟩] }), (0, { ptr := 3, reads := [.bytes sampleRequest] })]

/-- There are two clients with its address then. -/
theorem second_registration_not_served :
    ¬Lts.Always (Served plainEnv) (NewestServed plainEnv)
      (constructed 0 3 4 (fun _ => 0) [] 0 1) registerTwice := by
  intro h
  have key : (registerTwice.foldlM (serve plainEnv) (constructed 0 3 4 (fun _ => 0) [] 0 1)).map
      (fun s => s.addresses) = some [⟨0x7F000001, 5000⟩, ⟨0x7F000001, 5000⟩] := by
    decide +kernel
  obtain ⟨s, hs, haddresses⟩ := Option.map_eq_some_iff.mp key
  have hserved : s.NewestServed plainEnv :=
    Lts.always_iff_prefix.mp h registerTwice [] (by simp) s (Lts.path_iff_foldlM.mpr hs)
  have hnodup := hserved.1
  rw [haddresses] at hnodup
  simp at hnodup

end RuruLoop

end Ruru
