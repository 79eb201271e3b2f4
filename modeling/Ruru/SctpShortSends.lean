import Ruru.SctpFifo

/-!
# Ruru.SctpShortSends — a short send loses bytes

`usrsctp_sendv` may take over a prefix of what it is given and return its length.  Both call sites
compare the result with 0 only, so a message that was taken over in part counts as sent.  The bytes
usrsctp accepted, followed by those in `client->cache`, are the bytes submitted exactly in the runs
in which no send was short.
-/

namespace Ruru

open Transport

variable {υ : Type} (u : Usrsctp υ)

/-- The bytes of some messages, one after the other. -/
def bytes (ms : List RuruSctpMessage) : List UInt8 := ms.flatMap (·.data)

/-- The bytes a `usrsctp_sendv` took over: as many as it returns. -/
def UsrsctpCall.acceptedBytes (c : UsrsctpCall) : List UInt8 :=
  match c.fn with
  | .sendv _ _ data _ r => data.take r.ret.toNat
  | _ => []

/-- The bytes usrsctp accepted, in order. -/
def acceptedBytes (calls : List UsrsctpCall) : List UInt8 := calls.flatMap (·.acceptedBytes)

/-- A `usrsctp_sendv` that returned fewer bytes than it was asked to send. -/
def UsrsctpCall.Short (c : UsrsctpCall) : Prop :=
  match c.fn with
  | .sendv _ _ data _ r => 0 ≤ r.ret ∧ r.ret < data.length
  | _ => False

instance (c : UsrsctpCall) : Decidable c.Short := by
  unfold UsrsctpCall.Short
  split <;> infer_instance

/-- The run `ops` from `t` loses no bytes: what usrsctp accepted and what waits is what was
submitted, and `SendUsrSctpData` does not return true after a short send. -/
structure KeepsBytes (t : Transport υ) (ops : List SctpOp) : Prop where
  bytes : acceptedBytes (t.run u ops).calls ++ bytes (cached (t.run u ops).cache) =
    bytes (survivors u t ops)
  returns : ∀ past msg rest, ops = past ++ .sendUsrSctpData (some msg) :: rest →
    ((t.run u past).sendUsrSctpData u (some msg)).1 = true →
    ∀ c ∈ ((t.run u past).sendUsrSctpData u (some msg)).2.calls.drop (t.run u past).calls.length,
      ¬ c.Short

/-! ### Accepted bytes and accepted messages -/

@[simp] theorem bytes_append (a b : List RuruSctpMessage) : bytes (a ++ b) = bytes a ++ bytes b :=
  List.flatMap_append

theorem accepted_cons (c : UsrsctpCall) (calls : List UsrsctpCall) :
    accepted (c :: calls) = c.accepted.toList ++ accepted calls := by
  unfold accepted
  rw [List.filterMap_cons]
  cases c.accepted <;> rfl

/-- One call takes over at most the message, and all of it unless it is short. -/
theorem UsrsctpCall.acceptedBytes_spec (c : UsrsctpCall) :
    c.acceptedBytes.length ≤ (bytes c.accepted.toList).length ∧
      (c.acceptedBytes = bytes c.accepted.toList ↔ ¬ c.Short) := by
  unfold UsrsctpCall.acceptedBytes UsrsctpCall.accepted UsrsctpCall.Short
  cases c.fn with
  | sendv site sock data info r =>
    by_cases hneg : r.ret < 0
    · have h0 : r.ret.toNat = 0 := by omega
      simp only [hneg, if_true, h0, List.take_zero, Option.toList_none]
      exact ⟨le_refl _, iff_of_true rfl (by omega)⟩
    · simp only [hneg, if_false, Option.toList_some, bytes, List.flatMap_cons, List.flatMap_nil,
        List.append_nil]
      refine ⟨List.length_take_le' _ _, ?_⟩
      rw [List.take_eq_self_iff]
      omega
  | _ => exact ⟨le_refl _, iff_of_true rfl id⟩

theorem length_acceptedBytes_le (calls : List UsrsctpCall) :
    (acceptedBytes calls).length ≤ (bytes (accepted calls)).length := by
  induction calls with
  | nil => exact le_refl _
  | cons c calls ih =>
    have hc := c.acceptedBytes_spec.1
    rw [accepted_cons, bytes_append, List.length_append]
    show (c.acceptedBytes ++ acceptedBytes calls).length ≤ _
    rw [List.length_append]
    omega

/-- usrsctp accepted every byte of the messages it accepted exactly when no send was short. -/
theorem acceptedBytes_eq_iff (calls : List UsrsctpCall) :
    acceptedBytes calls = bytes (accepted calls) ↔ ∀ c ∈ calls, ¬ c.Short := by
  induction calls with
  | nil => exact iff_of_true rfl (by simp)
  | cons c calls ih =>
    obtain ⟨hle, hc⟩ := c.acceptedBytes_spec
    have hrest := length_acceptedBytes_le calls
    rw [accepted_cons, bytes_append, List.forall_mem_cons, ← hc, ← ih]
    show c.acceptedBytes ++ acceptedBytes calls = _ ↔ _
    constructor
    · intro h
      have hlen : c.acceptedBytes.length = (bytes c.accepted.toList).length := by
        have h' := congrArg List.length h
        simp only [List.length_append] at h'
        omega
      exact List.append_inj h hlen
    · rintro ⟨h1, h2⟩
      rw [h1, h2]

/-! ### Runs -/

theorem run_append (t : Transport υ) (past rest : List SctpOp) :
    t.run u (past ++ rest) = (t.run u past).run u rest := List.foldl_append

/-- Where no direct send fails for good, every submitted message survives. -/
theorem survivors_eq_submitted (ops : List SctpOp) (hops : ∀ op ∈ ops, op.Sendable)
    (t : Transport υ) (hcr : t.crashed = false) (hw : ∀ d ∈ t.cache, d.Whole)
    (h : ∀ c ∈ (t.run u ops).calls, c.directFatal = false) :
    survivors u t ops = submitted ops := by
  induction ops generalizing t with
  | nil => rfl
  | cons op ops ih =>
    have hop := hops op (by simp)
    have hops' : ∀ x ∈ ops, x.Sendable := fun x hx => hops x (by simp [hx])
    obtain ⟨a, hA, -⟩ := step_spec u t op hop hcr hw
    obtain ⟨b, hB⟩ := run_spec u ops hops' (t.step u op) hA.crashed hA.whole
    rw [survivors, submittedBut_cons, submitted_cons]
    refine congrArg₂ _ ?_ (ih hops' (t.step u op) hA.crashed hA.whole h)
    cases op with
    | sendUsrSctpData sctpMsg =>
      obtain ⟨msg, rfl, -⟩ := hop
      have hkept : losesTo u (·.directFatal) t msg = false := by
        rw [losesTo, List.any_eq_false]
        intro c hc
        have hrun : c ∈ (t.run u (.sendUsrSctpData (some msg) :: ops)).calls := by
          show c ∈ ((t.step u _).run u ops).calls
          rw [hB.calls]
          exact List.mem_append_left _ (List.mem_of_mem_drop hc)
        simp [h c hrun]
      simp [submittedBut, submitted, hkept]
    | sendSctpCacheData => rfl
    | recvUsrSctpData data => rfl

/-- **Short sends.**  A run on a constructed `RuruSctp` loses no bytes if and only if every
`usrsctp_sendv` that did not fail returned the length it was given; and where no direct send failed
for good, the bytes in question are all that was submitted. -/
theorem keepsBytes_iff (junk : Bool) (usr : υ) (nextSock : Sock) (ops : List SctpOp)
    (hops : ∀ op ∈ ops, op.Sendable) :
    let s := construct u junk usr nextSock
    (KeepsBytes u s ops ↔ ∀ c ∈ (s.run u ops).calls, ¬ c.Short) ∧
      ((∀ c ∈ (s.run u ops).calls, c.directFatal = false) → survivors u s ops = submitted ops) := by
  intro s
  have hidle : Idle s := construct_idle u junk usr nextSock
  have hcr : s.crashed = false := hidle.crashed
  have hw : ∀ d ∈ s.cache, d.Whole := by simp [hidle.cache]
  have hfifo : accepted (s.run u ops).calls ++ cached (s.run u ops).cache = survivors u s ops :=
    (run_fifo u junk usr nextSock ops hops).1
  refine ⟨⟨fun hk => ?_, fun hno => ⟨?_, ?_⟩⟩, survivors_eq_submitted u ops hops s hcr hw⟩
  · rw [← acceptedBytes_eq_iff]
    have hb := hk.bytes
    rw [← hfifo, bytes_append] at hb
    exact List.append_cancel_right hb
  · rw [← hfifo, bytes_append, (acceptedBytes_eq_iff _).mpr hno]
  · intro past msg rest hsplit _ c hc
    -- the calls of a step are among those of the whole run
    have hpast : ∀ op ∈ past, op.Sendable := fun op hop => hops op (by simp [hsplit, hop])
    have hmsg := hops (.sendUsrSctpData (some msg)) (by simp [hsplit])
    have hrest : ∀ op ∈ rest, op.Sendable := fun op hop => hops op (by simp [hsplit, hop])
    obtain ⟨a, hA⟩ := run_spec u past hpast s hcr hw
    obtain ⟨b, hB, -⟩ := step_spec u (s.run u past) _ hmsg hA.crashed hA.whole
    obtain ⟨d, hD⟩ := run_spec u rest hrest _ hB.crashed hB.whole
    apply hno
    rw [hsplit, run_append]
    show c ∈ (((s.run u past).step u (.sendUsrSctpData (some msg))).run u rest).calls
    rw [hD.calls]
    refine List.mem_append_left _ (List.mem_of_mem_drop (i := (s.run u past).calls.length) ?_)
    rw [step_of_alive u hA.crashed]
    exact hc

/-- A message sent before the handshake and one after it, both in full. -/
theorem keepsBytes_iff_full_sends :
    let ops : List SctpOp := [.sendUsrSctpData (some ⟨[1], ⟨0, 51⟩⟩), .recvUsrSctpData (some [9]),
      .sendUsrSctpData (some ⟨[2, 2], ⟨1, 51⟩⟩)]
    let s := construct scripted true [⟨1, 0, 0⟩, ⟨2, 0, 0⟩] 0
    (KeepsBytes scripted s ops ↔ ∀ c ∈ (s.run scripted ops).calls, ¬ c.Short) ∧
      ((∀ c ∈ (s.run scripted ops).calls, c.directFatal = false) →
        survivors scripted s ops = submitted ops) :=
  keepsBytes_iff scripted true _ 0 _ (by
    intro op hop
    simp only [List.mem_cons, List.not_mem_nil, or_false] at hop
    rcases hop with rfl | rfl | rfl
    · exact ⟨_, rfl, by decide⟩
    · trivial
    · exact ⟨_, rfl, by decide⟩)

/-- usrsctp takes over one byte of two and says so: `SendUsrSctpData` returns true, and the other
byte is neither sent nor cached. -/
theorem short_send_loses_a_byte :
    let t := (construct scripted true [⟨1, 0, 0⟩] 0).run scripted [.recvUsrSctpData (some [9])]
    (t.sendUsrSctpData scripted (some ⟨[1, 2], ⟨0, 51⟩⟩)).1 = true ∧
      acceptedBytes (t.sendUsrSctpData scripted (some ⟨[1, 2], ⟨0, 51⟩⟩)).2.calls = [1] ∧
      (t.sendUsrSctpData scripted (some ⟨[1, 2], ⟨0, 51⟩⟩)).2.cache = [] ∧
      ¬ KeepsBytes scripted (construct scripted true [⟨1, 0, 0⟩] 0)
        [.recvUsrSctpData (some [9]), .sendUsrSctpData (some ⟨[1, 2], ⟨0, 51⟩⟩)] := by
  refine ⟨by decide, by decide, by decide, fun h => ?_⟩
  exact absurd h.bytes (by decide)

end Ruru
