import Ruru.Deeds
import Ruru.Lib.History
import Ruru.Registration
import Ruru.Runs

/-!
# Ruru.Provenance — whom the server works for

Every effect has its cause in the history before it: a client is registered before anything is done
for it, a packet handed to it came from its address, decrypted data comes out of such a packet, what
usrsctp is fed was decrypted, and a datagram goes out to a registered address only.
-/

namespace Ruru

open Relation

variable {σ υ : Type} (env : Env σ υ)

/-- The client was registered. -/
def Enrolled (past : List Effect) (client : ℕ) : Prop := ∃ address, .registered client address ∈ past

/-- What the past has to contain for a call to usrsctp: the constructor runs before its client is
registered. -/
def CallCaused (past : List Effect) (client : ℕ) : UsrsctpFn → Prop
  | .conninput data => .dtlsData client data ∈ past
  | .sendv .. | .accept .. => Enrolled past client
  | _ => Enrolled past client ∨ client = (registrations past).length

/-- What the past has to contain for an effect. -/
def Caused (udpfd : ℤ) (past : List Effect) : Effect → Prop
  | .registered client _ => client = (registrations past).length
  | .dtlsPacket client data => (data ≠ [] ∧ data.length ≤ 4096) ∧
      ∃ address, .registered client address ∈ past ∧ .recvfrom address data ∈ past
  | .dtlsData client _ => ∃ packet, .dtlsPacket client packet ∈ past
  | .usrsctp client call => CallCaused past client call.fn
  | .sendto fd dest data => fd = udpfd ∧ (data ≠ [] ∧ data.length ≤ 4096) ∧
      ∃ client, .registered client dest ∈ past
  | .push evt _ => ∀ client, evt.client = some client → Enrolled past client
  | .beatCopy client _ _ | .beatSend client _ _ | .dropped client _ => Enrolled past client
  | _ => True

/-- The data that calls to usrsctp feed to it. -/
def conninputs (calls : List UsrsctpCall) : List (List UInt8) :=
  calls.filterMap fun c => match c.fn with
    | .conninput data => some data
    | _ => none

/-- The data fed to usrsctp, with the clients. -/
def fedData (trace : List Effect) : List (ℕ × List UInt8) :=
  trace.flatMap fun
    | .usrsctp client call => (conninputs [call]).map fun data => (client, data)
    | _ => []

/-- The data that came out of `SSL_read`, with the clients. -/
def readData (trace : List Effect) : List (ℕ × List UInt8) :=
  trace.flatMap fun
    | .dtlsData client data => [(client, data)]
    | _ => []

theorem Enrolled.mono {past : List Effect} {client : ℕ} (h : Enrolled past client)
    (more : List Effect) : Enrolled (past ++ more) client := by
  obtain ⟨address, hmem⟩ := h
  exact ⟨address, List.mem_append_left more hmem⟩

@[simp] theorem fedData_append (a b : List Effect) : fedData (a ++ b) = fedData a ++ fedData b :=
  List.flatMap_append

@[simp] theorem readData_append (a b : List Effect) :
    readData (a ++ b) = readData a ++ readData b := List.flatMap_append

theorem fedData_usrsctp (i : ℕ) (calls : List UsrsctpCall) :
    fedData (calls.map (Effect.usrsctp i)) = (conninputs calls).map fun data => (i, data) := by
  induction calls with
  | nil => rfl
  | cons c calls ih =>
    have hsplit : conninputs (c :: calls) = conninputs [c] ++ conninputs calls :=
      List.filterMap_append (l := [c])
    rw [hsplit, List.map_append, ← ih]
    rfl

theorem readData_usrsctp (i : ℕ) (calls : List UsrsctpCall) :
    readData (calls.map (Effect.usrsctp i)) = [] := by
  refine List.flatMap_eq_nil_iff.mpr fun e he => ?_
  obtain ⟨c, -, rfl⟩ := List.mem_map.mp he
  rfl

theorem registrations_usrsctp (i : ℕ) (calls : List UsrsctpCall) :
    registrations (calls.map (Effect.usrsctp i)) = [] := by
  refine registrations_eq_nil fun e he => ?_
  obtain ⟨c, -, rfl⟩ := List.mem_map.mp he
  rfl

theorem traces_of_quiet {es : List Effect} (h : ∀ e ∈ es, e.isQuiet = true) :
    registrations es = [] ∧ fedData es = [] ∧ readData es = [] := by
  induction es with
  | nil => exact ⟨rfl, rfl, rfl⟩
  | cons e es ih =>
    obtain ⟨hregistrations, hfed, hread⟩ := ih fun e' he' => h e' (List.mem_cons_of_mem _ he')
    have hquiet := h e List.mem_cons_self
    cases e with
    | usrsctp | dtlsPacket | dtlsData | registered | sendto =>
      exact absurd hquiet (by simp [Effect.isQuiet])
    | _ => exact ⟨hregistrations, hfed, hread⟩

/-- Calls without a `conninput` feed nothing. -/
theorem conninputs_eq_nil {calls : List UsrsctpCall}
    (h : ∀ c ∈ calls, c.fn.isSetup = true ∨ c.fn.isSending = true) : conninputs calls = [] := by
  refine List.filterMap_eq_nil_iff.mpr fun c hc => ?_
  have hfn := h c hc
  split
  · rename_i hin
    rw [hin] at hfn
    exact absurd hfn (by simp [UsrsctpFn.isSetup, UsrsctpFn.isSending])
  · rfl

/-- `RecvUsrSctpData` feeds its data once. -/
theorem conninputs_recvUsrSctpData (u : Usrsctp υ) (t : Transport υ) (ht : t.calls = [])
    (data : List UInt8) : conninputs (t.recvUsrSctpData u (some data)).calls = [data] := by
  simp only [Transport.recvUsrSctpData]
  split_ifs
  · simp [Transport.answer, ht, conninputs]
  · simp [Transport.answer, Transport.usrsctpClose, ht, conninputs]
  · simp [Transport.answer, ht, conninputs]

namespace RuruLoop

/-- The addresses of the clients, with the descriptors they send on. -/
def posts (s : RuruLoop σ υ) : List (RuruAddress × ℤ) :=
  s.clientMgr_.map fun c => (c.address, c.udpfd_)

theorem posts_of_faces {s s' : RuruLoop σ υ} (h : s'.faces = s.faces) : s'.posts = s.posts := by
  have hface : ∀ t : RuruLoop σ υ, t.posts = t.faces.map fun f => (f.1, f.2.1) := by
    intro t
    rw [posts, faces, List.map_map]
    rfl
  rw [hface s', hface s, h]

theorem posts_operated (s : RuruLoop σ υ) (i : ℕ) (client : RuruClient σ) (op : SctpOp) :
    (s.operated env i client op).posts = s.posts := by
  refine List.ext_getElem? fun j => ?_
  show ((s.clientMgr_.modify i _).map _)[j]? = (s.clientMgr_.map _)[j]?
  rw [List.getElem?_map, List.getElem?_map, List.getElem?_modify]
  cases s.clientMgr_[j]? with
  | none => rfl
  | some c =>
    by_cases hij : i = j <;> simp [hij]

/-- The history explains itself, and agrees with the clients. -/
structure Provenant (udpfd : ℤ) (s : RuruLoop σ υ) : Prop where
  udp : s.udpfd_ = udpfd
  count : (registrations s.trace).length = s.clientMgr_.length
  posts : ∀ (i : ℕ) address fd, s.posts[i]? = some (address, fd) →
    fd = udpfd ∧ .registered i address ∈ s.trace
  caused : History.Justified (Caused udpfd) s.trace
  fed : fedData s.trace = readData s.trace

variable {udpfd : ℤ}

theorem Provenant.client {s : RuruLoop σ υ} (h : s.Provenant udpfd) {i : ℕ} {client : RuruClient σ}
    (hi : s.clientMgr_[i]? = some client) :
    client.udpfd_ = udpfd ∧ .registered i client.address ∈ s.trace := by
  refine h.posts i client.address client.udpfd_ ?_
  rw [RuruLoop.posts, List.getElem?_map, hi]
  rfl

theorem Provenant.enrolled {s : RuruLoop σ υ} (h : s.Provenant udpfd) {i : ℕ}
    (hi : i < s.clientMgr_.length) (more : List Effect) : Enrolled (s.trace ++ more) i := by
  have hclient := h.client (List.getElem?_eq_getElem hi)
  exact Enrolled.mono ⟨_, hclient.2⟩ more

/-- Effects that register no client are added. -/
theorem Provenant.extend {s s' : RuruLoop σ υ} (h : s.Provenant udpfd) {es : List Effect}
    (udp : s'.udpfd_ = s.udpfd_) (posts : s'.posts = s.posts) (trace : s'.trace = s.trace ++ es)
    (old : registrations es = [])
    (caused : ∀ past x rest, es = past ++ x :: rest → Caused udpfd (s.trace ++ past) x)
    (fed : fedData es = readData es) : s'.Provenant udpfd := by
  have hlength : s'.clientMgr_.length = s.clientMgr_.length := by
    have := congrArg List.length posts
    simpa [RuruLoop.posts] using this
  refine ⟨udp.trans h.udp, ?_, fun i address fd hi => ?_, ?_, ?_⟩
  · rw [trace, registrations_append, old, List.append_nil, h.count, hlength]
  · rw [posts] at hi
    obtain ⟨hfd, hmem⟩ := h.posts i address fd hi
    rw [trace]
    exact ⟨hfd, List.mem_append_left es hmem⟩
  · rw [trace]
    exact History.justified_append.mpr ⟨h.caused, caused⟩
  · rw [trace, fedData_append, readData_append, h.fed, fed]

/-- Quiet effects need a known client at most. -/
theorem Provenant.quiet {s : RuruLoop σ υ} (h : s.Provenant udpfd) {e : Effect} (he : s.Quiet e)
    (more : List Effect) : Caused udpfd (s.trace ++ more) e := by
  obtain ⟨hquiet, hknown⟩ := he
  cases e with
  | push evt origin => exact fun i hi => h.enrolled (hknown i hi) more
  | beatCopy i data stored => exact h.enrolled (hknown i rfl) more
  | beatSend i data length => exact h.enrolled (hknown i rfl) more
  | dropped i data => exact h.enrolled (hknown i rfl) more
  | usrsctp | dtlsPacket | dtlsData | registered | sendto => exact absurd hquiet (by simp [Effect.isQuiet])
  | recvfrom | socketWrite | opened | close | newCon | deleteCon | epollAdd => trivial

/-- Calls for a known client, none of which feeds anything. -/
theorem Provenant.calls {s : RuruLoop σ υ} (h : s.Provenant udpfd) {i : ℕ}
    (hi : i < s.clientMgr_.length) {c : UsrsctpCall} (hfn : c.fn.isSending = true)
    (more : List Effect) : Caused udpfd (s.trace ++ more) (.usrsctp i c) := by
  have henrolled := h.enrolled hi more
  show CallCaused _ i c.fn
  cases hc : c.fn with
  | sendv site sock data info ret => exact henrolled
  | close sock => exact Or.inl henrolled
  | _ => rw [hc] at hfn; exact absurd hfn (by simp [UsrsctpFn.isSending])

/-- The calls of the constructor of the next client. -/
theorem Provenant.setup {s : RuruLoop σ υ} (h : s.Provenant udpfd) {c : UsrsctpCall}
    (hfn : c.fn.isSetup = true) {past : List Effect} (hpast : registrations past = []) :
    Caused udpfd (s.trace ++ past) (.usrsctp s.clientMgr_.length c) := by
  have hnext : s.clientMgr_.length = (registrations (s.trace ++ past)).length := by
    rw [registrations_append, hpast, List.append_nil, h.count]
  show CallCaused _ _ c.fn
  cases hc : c.fn with
  | sendv | accept | conninput => rw [hc] at hfn; exact absurd hfn (by simp [UsrsctpFn.isSetup])
  | _ => exact Or.inr hnext

/-- The calls of `RecvUsrSctpData`, once its data is in the history. -/
theorem Provenant.fedCalls {s : RuruLoop σ υ} (h : s.Provenant udpfd) {i : ℕ}
    (hi : i < s.clientMgr_.length) {data : List UInt8} {calls : List UsrsctpCall}
    (hcalls : conninputs calls = [data]) {c : UsrsctpCall} (hc : c ∈ calls) {past : List Effect}
    (hpast : .dtlsData i data ∈ past) : Caused udpfd (s.trace ++ past) (.usrsctp i c) := by
  have henrolled := h.enrolled hi past
  show CallCaused _ i c.fn
  cases hfn : c.fn with
  | conninput data' =>
    have hmem : data' ∈ conninputs calls := List.mem_filterMap.mpr ⟨c, hc, by rw [hfn]⟩
    rw [hcalls, List.mem_singleton] at hmem
    rw [hmem]
    exact List.mem_append_right _ hpast
  | sendv | accept => exact henrolled
  | _ => exact Or.inl henrolled

/-- An entry of the calls of a client is one of these calls. -/
theorem mem_calls_of_split {i : ℕ} {calls : List UsrsctpCall} {past rest : List Effect} {x : Effect}
    (h : calls.map (Effect.usrsctp i) = past ++ x :: rest) :
    (∃ c ∈ calls, x = .usrsctp i c) ∧ registrations past = [] := by
  have hmem : ∀ e ∈ past ++ x :: rest, ∃ c ∈ calls, e = .usrsctp i c := by
    intro e he
    rw [← h] at he
    obtain ⟨c, hc, rfl⟩ := List.mem_map.mp he
    exact ⟨c, hc, rfl⟩
  refine ⟨hmem x (by simp), registrations_eq_nil fun e he => ?_⟩
  obtain ⟨c, -, rfl⟩ := hmem e (List.mem_append_left _ he)
  rfl

/-- The step lemma. -/
theorem Provenant.deed {sends : Bool} {s s' : RuruLoop σ υ} (h : s.Provenant udpfd)
    (hd : Deed env sends s s') : s'.Provenant udpfd := by
  cases hd with
  | quiet faces udp es trace plain =>
    obtain ⟨hregistrations, hfed, hread⟩ := traces_of_quiet fun e he => (plain e he).1
    refine h.extend udp (posts_of_faces faces) trace hregistrations (fun past x rest he => ?_)
      (hfed.trans hread.symm)
    exact h.quiet (plain x (by rw [he]; simp)) past
  | @packet i client data known taken size =>
    refine h.extend rfl rfl rfl rfl (fun past x rest he => ?_) rfl
    obtain ⟨rfl, rfl⟩ := History.split_singleton he
    rw [List.append_nil]
    exact ⟨size, client.address, (h.client known).2, taken⟩
  | @sent i client known buffers sizes =>
    have hplain : ∀ e ∈ buffers.map (fun b => Effect.sendto client.udpfd_ client.address b),
        ∃ b ∈ buffers, e = .sendto client.udpfd_ client.address b := by
      intro e he
      obtain ⟨b, hb, rfl⟩ := List.mem_map.mp he
      exact ⟨b, hb, rfl⟩
    refine h.extend rfl rfl rfl ?_ (fun past x rest he => ?_) ?_
    · refine registrations_eq_nil fun e he => ?_
      obtain ⟨b, -, rfl⟩ := hplain e he
      rfl
    · obtain ⟨b, hb, rfl⟩ := hplain x (by rw [he]; simp)
      obtain ⟨hfd, hmem⟩ := h.client known
      exact ⟨hfd, sizes b hb, i, List.mem_append_left _ hmem⟩
    · have hfed : fedData (buffers.map fun b => Effect.sendto client.udpfd_ client.address b) = [] := by
        refine List.flatMap_eq_nil_iff.mpr fun e he => ?_
        obtain ⟨b, -, rfl⟩ := hplain e he
        rfl
      rw [hfed]
      refine (List.flatMap_eq_nil_iff.mpr fun e he => ?_).symm
      obtain ⟨b, -, rfl⟩ := hplain e he
      rfl
  | @fed i client packet known handed data =>
    have hcalls : conninputs ((s.transport client).step env.usrsctp
        (.recvUsrSctpData (some data))).calls = [data] := by
      rw [step_of_alive env.usrsctp rfl]
      exact conninputs_recvUsrSctpData env.usrsctp (s.transport client) rfl data
    generalize hmade : ((s.transport client).step env.usrsctp
        (.recvUsrSctpData (some data))).calls = calls at hcalls
    have htrace : ((s.note (.dtlsData i data)).operated env i client
        (.recvUsrSctpData (some data))).trace =
          s.trace ++ .dtlsData i data :: calls.map (Effect.usrsctp i) := by
      rw [← hmade, ← List.singleton_append, ← List.append_assoc]
      rfl
    refine h.extend rfl (posts_operated env _ i client _) htrace ?_ (fun past x rest he => ?_) ?_
    · exact registrations_usrsctp i calls
    · cases past with
      | nil =>
        obtain ⟨rfl, -⟩ := List.cons_eq_cons.mp he
        rw [List.append_nil]
        exact ⟨packet, handed⟩
      | cons y past =>
        obtain ⟨rfl, hsplit⟩ := List.cons_eq_cons.mp he
        obtain ⟨⟨c, hc, rfl⟩, -⟩ := mem_calls_of_split hsplit
        exact h.fedCalls (lt_of_known known) hcalls hc List.mem_cons_self
    · rw [← List.singleton_append, fedData_append, readData_append, fedData_usrsctp,
        readData_usrsctp, hcalls]
      rfl
  | @operated i client known op other sender =>
    have hsending : ∀ c ∈ ((s.transport client).step env.usrsctp op).calls,
        c.fn.isSending = true := by
      have hnone : CallsIn UsrsctpFn.isSending (s.transport client) :=
        fun c hc => absurd hc (by simp [transport])
      rw [step_of_alive env.usrsctp rfl]
      cases op with
      | sendUsrSctpData msg => exact hnone.sendUsrSctpData env.usrsctp msg
      | sendSctpCacheData => exact hnone.sendSctpCacheData env.usrsctp
      | recvUsrSctpData data => exact absurd rfl (other data)
    refine h.extend rfl (posts_operated env s i client op) rfl (registrations_usrsctp i _)
      (fun past x rest he => ?_) ?_
    · obtain ⟨⟨c, hc, rfl⟩, -⟩ := mem_calls_of_split he
      exact h.calls (lt_of_known known) (hsending c hc) past
    · rw [fedData_usrsctp, readData_usrsctp, conninputs_eq_nil fun c hc => Or.inr (hsending c hc)]
      rfl
  | construct junk =>
    have hsetup := (construct_idle env.usrsctp junk s.usr s.nextSock).calls
    refine h.extend rfl rfl rfl (registrations_usrsctp _ _) (fun past x rest he => ?_) ?_
    · obtain ⟨⟨c, hc, rfl⟩, hpast⟩ := mem_calls_of_split he
      exact h.setup (hsetup c hc) hpast
    · rw [fedData_usrsctp, readData_usrsctp, conninputs_eq_nil fun c hc => Or.inl (hsetup c hc)]
      rfl
  | @enroll client fresh fd =>
    refine ⟨h.udp, ?_, fun i address fd' hi => ?_, ?_, ?_⟩
    · show (registrations (s.trace ++ [.registered _ _])).length = (s.clientMgr_ ++ [client]).length
      rw [registrations_append, List.length_append, List.length_append, h.count]
      rfl
    · have hposts : s.posts ++ [(client.address, client.udpfd_)] =
          (s.clientMgr_ ++ [client]).map fun c => (c.address, c.udpfd_) := by
        rw [List.map_append]
        rfl
      have hi' : (s.posts ++ [(client.address, client.udpfd_)])[i]? = some (address, fd') := by
        rw [hposts]
        exact hi
      rw [List.getElem?_append] at hi'
      have hlength : s.posts.length = s.clientMgr_.length := by rw [RuruLoop.posts, List.length_map]
      split_ifs at hi' with hlt
      · obtain ⟨hfd, hmem⟩ := h.posts i address fd' hi'
        exact ⟨hfd, List.mem_append_left _ hmem⟩
      · rw [List.getElem?_singleton] at hi'
        split_ifs at hi' with hzero
        obtain ⟨rfl, rfl⟩ := Prod.mk.inj (Option.some.inj hi')
        obtain rfl : i = s.clientMgr_.length := by omega
        exact ⟨fd.trans h.udp, List.mem_append_right _ (List.mem_singleton_self _)⟩
    · refine History.justified_append.mpr ⟨h.caused, fun past x rest he => ?_⟩
      obtain ⟨rfl, rfl⟩ := History.split_singleton he
      rw [List.append_nil]
      exact h.count.symm
    · rw [fedData_append, readData_append, h.fed]
      rfl

theorem Provenant.deeds {sends : Bool} {s s' : RuruLoop σ υ} (h : s.Provenant udpfd)
    (hd : Deeds env sends s s') : s'.Provenant udpfd :=
  hd.invariant env (fun _ _ ht hdeed => ht.deed env hdeed) h

end RuruLoop

/-! ### Runs -/

namespace PolledLoop

theorem deeds_of_step {st st' : PolledLoop σ υ} {input : LoopInput} (hs : Step env st input st') :
    RuruLoop.Deeds env true st.ruru st'.ruru := by
  cases input with
  | callback cb =>
    obtain rfl := Option.some.inj hs
    exact RuruLoop.deeds_callback env st.ruru cb
  | loop fuel evt batch =>
    obtain ⟨⟨haveData, evt', ruru⟩, hl, rfl⟩ := Option.map_eq_some_iff.mp hs
    exact RuruLoop.deeds_loop env hl
  | sendUsrSctpData client msg =>
    obtain rfl := Option.some.inj hs
    exact RuruLoop.deeds_sendUsrSctpData env st.ruru client msg
  | sendSctpCacheData client =>
    obtain rfl := Option.some.inj hs
    exact RuruLoop.deeds_sendSctpCacheData env st.ruru client
  | clientSendHeartBeatData client =>
    obtain rfl := Option.some.inj hs
    exact RuruLoop.deeds_clientSendHeartBeatData env st.ruru client

/-- **Provenance.**  In every run of a constructed loop under any application, every effect has its
cause before it, and usrsctp is fed exactly what `SSL_read` returned, in order and for the same
clients. -/
theorem every_effect_caused (this : LoopId) (udpfd tcpfd : ℤ) (memory : ℕ → UInt8) (usr : υ)
    (nextSock : Sock) (count : ℤ) (inputs : List LoopInput) :
    Lts.Always (Step env)
      (fun st => History.Justified (Caused udpfd) st.ruru.trace ∧
        fedData st.ruru.trace = readData st.ruru.trace)
      { ruru := .constructed this udpfd tcpfd memory usr nextSock count } inputs := by
  refine Lts.always_iff_prefix.mpr fun pre post _ st hpath => ?_
  have hprovenant : st.ruru.Provenant udpfd := by
    refine Lts.Path.invariant (P := fun st => st.ruru.Provenant udpfd)
      (fun s input t hs hstep => hs.deeds env (deeds_of_step env hstep)) hpath ?_
    refine ⟨rfl, rfl, fun i address fd hi => absurd hi (by simp [RuruLoop.posts,
      RuruLoop.constructed]), ?_, rfl⟩
    have hplain : ∀ e ∈ (RuruLoop.constructed this udpfd tcpfd memory usr nextSock count :
        RuruLoop σ υ).trace, ∀ past, Caused udpfd ([] ++ past) e := by
      intro e he past
      simp only [RuruLoop.constructed, List.mem_cons, List.not_mem_nil, or_false] at he
      rcases he with rfl | rfl | rfl | rfl | rfl | rfl <;> exact trivial
    exact History.justified_nil.append hplain
  exact ⟨hprovenant.caused, hprovenant.fed⟩

end PolledLoop

end Ruru
