import Ruru.ClientWork
import Ruru.PlainLibs
import Ruru.Serving

/-!
# Ruru.Datagrams — the drain of the UDP socket

The loop over `recvfrom` stops at the first result that is not positive, and an empty datagram gives
0 as well as the end of the queue does not.  So the datagrams taken are those up to the first empty
one; those before it are passed on, in order and with their bytes.
-/

namespace Ruru

variable {σ υ : Type} (env : Env σ υ)

/-- The datagrams taken from the socket, with their sources. -/
def taken (trace : List Effect) : List (RuruAddress × List UInt8) :=
  trace.filterMap fun
    | .recvfrom address data => some (address, data)
    | _ => none

/-- The datagrams passed to `HandleDtlsPacket`, with the clients they were passed to. -/
def handed (trace : List Effect) : List (ℕ × List UInt8) :=
  trace.filterMap fun
    | .dtlsPacket client data => some (client, data)
    | _ => none

@[simp] theorem taken_append (a b : List Effect) : taken (a ++ b) = taken a ++ taken b :=
  List.filterMap_append

@[simp] theorem handed_append (a b : List Effect) : handed (a ++ b) = handed a ++ handed b :=
  List.filterMap_append

/-- The source address as the code reads it. -/
def SockaddrIn.source (remote : SockaddrIn) : RuruAddress := ⟨ntohl remote.sAddr, ntohs remote.sinPort⟩

/-- The datagrams up to the first empty one, which is included. -/
def upToEmpty : List (SockaddrIn × List UInt8) → List (SockaddrIn × List UInt8)
  | [] => []
  | d :: ds => if d.2 = [] then [d] else d :: upToEmpty ds

theorem isPrefix_upToEmpty (ds : List (SockaddrIn × List UInt8)) : upToEmpty ds <+: ds := by
  induction ds with
  | nil => exact List.prefix_rfl
  | cons d ds ih =>
    unfold upToEmpty
    split_ifs
    · exact ⟨ds, rfl⟩
    · exact (List.cons_prefix_cons).mpr ⟨rfl, ih⟩

theorem upToEmpty_eq_iff (ds : List (SockaddrIn × List UInt8)) :
    upToEmpty ds = ds ↔ ∀ d ∈ ds.dropLast, d.2 ≠ [] := by
  induction ds with
  | nil => simp [upToEmpty]
  | cons d ds ih =>
    cases ds with
    | nil => simp [upToEmpty]
    | cons e es =>
      rw [List.dropLast_cons_cons, List.forall_mem_cons, ← ih]
      by_cases hd : d.2 = []
      · simp [upToEmpty, hd]
      · rw [upToEmpty, if_neg hd, List.cons_inj_right]
        exact ⟨fun h => ⟨hd, h⟩, fun h => h.2⟩

namespace RuruLoop

/-! ### What handling a datagram leaves alone -/

theorem taken_of_clientWork {s s' : RuruLoop σ υ} (h : ClientWork s s') :
    taken s'.trace = taken s.trace := by
  obtain ⟨es, he, hes⟩ := h.effects
  have hnone : taken es = [] := by
    refine List.filterMap_eq_nil_iff.mpr fun e hmem => ?_
    cases e with
    | recvfrom => exact absurd (hes _ hmem) Bool.false_ne_true
    | _ => rfl
  rw [he, taken_append, hnone, List.append_nil]

theorem handed_of_clientWork {s s' : RuruLoop σ υ} (h : ClientWork s s') :
    handed s'.trace = handed s.trace := by
  obtain ⟨es, he, hes⟩ := h.effects
  have hnone : handed es = [] := by
    refine List.filterMap_eq_nil_iff.mpr fun e hmem => ?_
    cases e with
    | dtlsPacket => exact absurd (hes _ hmem) Bool.false_ne_true
    | _ => rfl
  rw [he, handed_append, hnone, List.append_nil]

/-- The lookup depends on the constant parts of the clients only. -/
theorem findClientByAddress_eq (s : RuruLoop σ υ) (address : RuruAddress) :
    s.findClientByAddress address = s.statics.findIdx? (·.address == address) := by
  unfold findClientByAddress statics
  rw [List.findIdx?_map]
  congr 1
  funext client
  cases address with
  | mk host port =>
    simp only [Function.comp, RuruClient.statics]
    cases client.address with
    | mk host' port' => rw [Bool.eq_iff_iff]; simp

/-! ### The loop over `recvfrom` -/

/-- Who gets a datagram, if anyone. -/
def receiver (s : RuruLoop σ υ) (d : SockaddrIn × List UInt8) : Option (ℕ × List UInt8) :=
  if d.2 = [] then none else (s.findClientByAddress d.1.source).map fun client => (client, d.2)

/-- Every waiting datagram has been taken from the socket, and each non-empty one whose source is
registered has been passed on, once, in order and with its bytes. -/
def Drained (s : RuruLoop σ υ) (waiting : List (SockaddrIn × List UInt8)) (s' : RuruLoop σ υ) : Prop :=
  taken s'.trace = taken s.trace ++ waiting.map (fun d => (d.1.source, d.2)) ∧
    handed s'.trace = handed s.trace ++ waiting.filterMap s.receiver

theorem drained_upToEmpty {fuel : ℕ} {s : RuruLoop σ υ} {ds : List (SockaddrIn × List UInt8)}
    (short : ∀ d ∈ ds, d.2.length ≤ 4096) {r : Bool × RuruLoop σ υ}
    (h : s.recvDatagrams env fuel ds = some r) : s.Drained (upToEmpty ds) r.2 := by
  induction ds generalizing s r with
  | nil =>
    cases h
    exact ⟨(List.append_nil _).symm, (List.append_nil _).symm⟩
  | cons d ds ih =>
    obtain ⟨hd, hds⟩ := List.forall_mem_cons.mp short
    have htake : d.2.take 4096 = d.2 := List.take_of_length_le hd
    have hsource : (⟨ntohl d.1.sAddr, ntohs d.1.sinPort⟩ : RuruAddress) = d.1.source := rfl
    unfold recvDatagrams at h
    simp only [htake, hsource] at h
    by_cases hempty : d.2 = []
    · rw [if_pos hempty] at h
      cases h
      simp [Drained, upToEmpty, hempty, taken, handed, note, receiver, SockaddrIn.source]
    · rw [if_neg hempty] at h
      split at h
      · exact absurd h (by simp)
      · rename_i s1 hs1
        obtain ⟨r', hr', rfl⟩ := Option.map_eq_some_iff.mp h
        have hrest := ih hds hr'
        have hone : taken s1.trace = taken s.trace ++ [(d.1.source, d.2)] ∧
            handed s1.trace = handed s.trace ++ (s.receiver d).toList ∧ s1.statics = s.statics := by
          cases hfind : s.findClientByAddress d.1.source with
          | none =>
            have hnote : (s.note (.recvfrom d.1.source d.2)).findClientByAddress d.1.source = none :=
              hfind
            rw [hnote] at hs1
            cases hs1
            simp [taken, handed, note, receiver, hempty, hfind, statics]
          | some client =>
            have hnote : (s.note (.recvfrom d.1.source d.2)).findClientByAddress d.1.source =
                some client := hfind
            rw [hnote] at hs1
            have hwork := work_handleDtlsPacket env hs1
            rw [taken_of_clientWork hwork, handed_of_clientWork hwork, hwork.statics]
            simp [taken, handed, note, receiver, hempty, hfind, statics]
        have hreceiver : s1.receiver = s.receiver := by
          funext d
          simp only [receiver, findClientByAddress_eq, hone.2.2]
        rw [Drained, hreceiver, hone.1, hone.2.1] at hrest
        rw [Drained, upToEmpty, if_neg hempty, hrest.1, hrest.2]
        refine ⟨by simp, ?_⟩
        cases hd : s.receiver d <;> simp [hd]

theorem Drained.iff_upToEmpty {s s' : RuruLoop σ υ} {ds : List (SockaddrIn × List UInt8)}
    (h : s.Drained (upToEmpty ds) s') : s.Drained ds s' ↔ upToEmpty ds = ds := by
  constructor
  · intro hall
    have hlen := congrArg List.length (List.append_cancel_left (h.1.symm.trans hall.1))
    rw [List.length_map, List.length_map] at hlen
    exact (isPrefix_upToEmpty ds).eq_of_length hlen
  · intro heq
    rwa [heq] at h

/-- **Drain of the UDP socket.**  When the UDP branch is done with its readiness event, the waiting
datagrams have been drained exactly if none of them, except perhaps the last, is empty. -/
theorem drained_iff {fuel : ℕ} {s : RuruLoop σ υ} {e : EpollEvent} {con : RuruConnectionData}
    (live : s.cons[e.ptr]? = some (some con)) (udp : con.fd = s.udpfd_) (ready : e.failed = false)
    (short : ∀ d ∈ e.datagrams, d.2.length ≤ 4096) {r : Bool × RuruLoop σ υ}
    (h : s.epollEvent env fuel e = some r) :
    s.Drained e.datagrams r.2 ↔ ∀ d ∈ e.datagrams.dropLast, d.2 ≠ [] := by
  have hrecv : s.recvDatagrams env fuel e.datagrams = some r := by
    have hcon : (s.cons[e.ptr]?).join = some con := by rw [live]; rfl
    have hfail : ¬(e.epollErr || e.epollHup || !e.epollIn) = true := Bool.eq_false_iff.mp ready
    unfold epollEvent at h
    rw [hcon] at h
    dsimp only at h
    rwa [if_neg hfail, if_pos udp] at h
  rw [(drained_upToEmpty env short hrecv).iff_upToEmpty]
  exact upToEmpty_eq_iff _

/-- A readiness event of the UDP socket of `sampleLoop` with datagrams from its client. -/
def udpEvent (datagrams : List (List UInt8)) : EpollEvent :=
  { ptr := 0, datagrams := datagrams.map fun data => (⟨0x0100007F, 34835⟩, data) }

/-- Two records. -/
theorem two_records_drained : ∃ r, sampleLoop.epollEvent plainEnv 1 (udpEvent [[23, 1], [23, 2]]) =
    some r ∧ sampleLoop.Drained (udpEvent [[23, 1], [23, 2]]).datagrams r.2 := by
  have key : (sampleLoop.epollEvent plainEnv 1 (udpEvent [[23, 1], [23, 2]])).isSome = true := by
    decide +kernel
  obtain ⟨r, hr⟩ := Option.isSome_iff_exists.mp key
  have hlive : sampleLoop.cons[(udpEvent [[23, 1], [23, 2]]).ptr]? =
      some (some ({ fd := 3 } : RuruConnectionData)) := rfl
  exact ⟨r, hr, (drained_iff plainEnv hlive rfl rfl (by decide) hr).mpr (by decide)⟩

/-- A record behind an empty datagram stays in the socket. -/
theorem record_behind_empty_not_drained :
    ∃ r, sampleLoop.epollEvent plainEnv 1 (udpEvent [[23, 1], [], [23, 2]]) = some r ∧
      ¬sampleLoop.Drained (udpEvent [[23, 1], [], [23, 2]]).datagrams r.2 := by
  have key : (sampleLoop.epollEvent plainEnv 1 (udpEvent [[23, 1], [], [23, 2]])).map
      (fun r => (taken r.2.trace).length) = some 2 := by
    decide +kernel
  obtain ⟨r, hr, hlen⟩ := Option.map_eq_some_iff.mp key
  refine ⟨r, hr, fun hdrained => ?_⟩
  have hall := congrArg List.length hdrained.1
  rw [hlen, List.length_append, List.length_map] at hall
  simp [udpEvent] at hall

end RuruLoop

end Ruru
