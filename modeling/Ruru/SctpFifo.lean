import Ruru.Sctp

/-!
# Ruru.SctpFifo — outbound messages keep their order

Along every run of the member functions of a `RuruSctp`, what usrsctp has accepted followed by what
waits in `client->cache` is what was submitted, in order and once each, without the messages whose
own direct send failed for good.  What counts as "for good" is the `errno` that `perror` leaves, so
these are the messages `usrsctp_sendv` refused only as long as `perror` does not turn one kind of
`errno` into the other.  One spec lemma for the flush of the cache, one for each operation, then the
induction over the run.
-/

namespace Ruru

open Transport

variable {υ : Type} (u : Usrsctp υ)

/-- A call of a member function. -/
inductive SctpOp where
  | sendUsrSctpData (sctpMsg : Option RuruSctpMessage)
  | sendSctpCacheData
  | recvUsrSctpData (data : Option (List UInt8))

namespace Transport

/-- One call; a process that crashed makes none. -/
def step (t : Transport υ) (op : SctpOp) : Transport υ :=
  if t.crashed then t
  else match op with
    | .sendUsrSctpData sctpMsg => (t.sendUsrSctpData u sctpMsg).2
    | .sendSctpCacheData => (t.sendSctpCacheData u).2
    | .recvUsrSctpData data => t.recvUsrSctpData u data

/-- A run of calls. -/
def run (t : Transport υ) (ops : List SctpOp) : Transport υ := ops.foldl (step u) t

end Transport

/-- The message a successful `usrsctp_sendv` took over. -/
def UsrsctpCall.accepted (c : UsrsctpCall) : Option RuruSctpMessage :=
  match c.fn with
  | .sendv _ _ data info r =>
    if r.ret < 0 then none else some ⟨data, ⟨info.sndSid, ntohl info.sndPpid⟩⟩
  | _ => none

/-- The messages usrsctp accepted, in order. -/
def accepted (calls : List UsrsctpCall) : List RuruSctpMessage := calls.filterMap (·.accepted)

/-- The messages that wait in a cache. -/
def cached (cache : List RuruCacheData) : List RuruSctpMessage := cache.map fun d => ⟨d.data, d.param⟩

/-- A direct send of `SendUsrSctpData`. -/
def UsrsctpCall.direct (c : UsrsctpCall) : Bool :=
  match c.fn with
  | .sendv .direct _ _ _ _ => true
  | _ => false

/-- A direct send that failed for good: the errno behind the `perror` is not `EWOULDBLOCK` and not
`EAGAIN`. -/
def UsrsctpCall.directFatal (c : UsrsctpCall) : Bool :=
  match c.fn with
  | .sendv .direct _ _ _ r => r.ret < 0 && SendvResult.fatal r
  | _ => false

/-- `usrsctp_sendv` itself failed with an errno other than `EWOULDBLOCK` and `EAGAIN`. -/
def SendvResult.refused (r : SendvResult) : Bool := r.errno != EWOULDBLOCK && r.errno != EAGAIN

/-- A direct send that `usrsctp_sendv` refused. -/
def UsrsctpCall.directRefused (c : UsrsctpCall) : Bool :=
  match c.fn with
  | .sendv .direct _ _ _ r => r.ret < 0 && r.refused
  | _ => false

/-- After a direct send that failed, `perror` left `EWOULDBLOCK` or `EAGAIN` exactly if
`usrsctp_sendv` had. -/
def UsrsctpCall.ErrnoKept (c : UsrsctpCall) : Prop :=
  match c.fn with
  | .sendv .direct _ _ _ r => r.ret < 0 → SendvResult.fatal r = r.refused
  | _ => True

/-- The messages a run submits. -/
def submitted : List SctpOp → List RuruSctpMessage
  | .sendUsrSctpData (some msg) :: ops => msg :: submitted ops
  | _ :: ops => submitted ops
  | [] => []

/-- `SendUsrSctpData(msg)` called in state `t` makes a call that meets `lost`. -/
def losesTo (lost : UsrsctpCall → Bool) (t : Transport υ) (msg : RuruSctpMessage) : Bool :=
  ((t.step u (.sendUsrSctpData (some msg))).calls.drop t.calls.length).any lost

/-- The messages submitted in a run, without those whose `SendUsrSctpData` made a call that meets
`lost`. -/
def submittedBut (lost : UsrsctpCall → Bool) : Transport υ → List SctpOp → List RuruSctpMessage
  | _, [] => []
  | t, op :: ops =>
    (match op with
      | .sendUsrSctpData (some msg) => if losesTo u lost t msg then [] else [msg]
      | _ => []) ++ submittedBut lost (t.step u op) ops

/-- `SendUsrSctpData(msg)` called in state `t` sends `msg` itself and that send fails for good. -/
def lostDirectly (t : Transport υ) (msg : RuruSctpMessage) : Bool := losesTo u (·.directFatal) t msg

/-- The messages submitted in a run, without those whose own direct send failed for good. -/
def survivors (t : Transport υ) (ops : List SctpOp) : List RuruSctpMessage :=
  submittedBut u (·.directFatal) t ops

/-- The messages submitted in a run, without those whose own direct send `usrsctp_sendv` refused. -/
def owed (t : Transport υ) (ops : List SctpOp) : List RuruSctpMessage :=
  submittedBut u (·.directRefused) t ops

/-- After the run `ops` from `t`, the messages usrsctp accepted followed by those in the cache are
the messages the run owes to the peer, and each element of the cache holds a whole message. -/
def OutboundFifo (t : Transport υ) (ops : List SctpOp) : Prop :=
  accepted (t.run u ops).calls ++ cached (t.run u ops).cache = owed u t ops ∧
    ∀ d ∈ (t.run u ops).cache, d.length = d.data.length

/-! ### What a cache element sends -/

/-- The element holds a whole message. -/
def RuruCacheData.Whole (d : RuruCacheData) : Prop := d.length = d.data.length ∧ d.data.length < 2 ^ 31

theorem RuruCacheData.Whole.take {d : RuruCacheData} (h : d.Whole) :
    d.data.take (toSize d.length) = d.data := by
  obtain ⟨h1, h2⟩ := h
  rw [h1, toSize_natCast (by omega), List.take_length]

theorem whole_push {msg : RuruSctpMessage} (h : msg.data.length < 2 ^ 31) :
    RuruCacheData.Whole ⟨msg.param, msg.data, toInt32 msg.data.length⟩ :=
  ⟨toInt32_natCast h, h⟩

@[simp] theorem accepted_append (a b : List UsrsctpCall) :
    accepted (a ++ b) = accepted a ++ accepted b := List.filterMap_append

@[simp] theorem cached_append (a b : List RuruCacheData) :
    cached (a ++ b) = cached a ++ cached b := List.map_append

/-! ### Direct sends -/

/-- What is no direct send is lost in neither sense. -/
theorem UsrsctpCall.lost_of_not_direct {c : UsrsctpCall} (h : c.direct = false) :
    c.directFatal = false ∧ c.directRefused = false := by
  unfold UsrsctpCall.direct at h
  unfold UsrsctpCall.directFatal UsrsctpCall.directRefused
  split at h
  · exact absurd h (by decide)
  · exact ⟨rfl, rfl⟩

theorem UsrsctpCall.errnoKept_iff (c : UsrsctpCall) :
    c.ErrnoKept ↔ c.directFatal = c.directRefused := by
  unfold UsrsctpCall.ErrnoKept UsrsctpCall.directFatal UsrsctpCall.directRefused
  split
  · rename_i r _
    by_cases hneg : r.ret < 0
    · simp [hneg]
    · simp [hneg]
  · simp

/-- No call of a list without direct sends is lost. -/
theorem any_lost_of_not_direct {calls : List UsrsctpCall} (h : ∀ c ∈ calls, c.direct = false) :
    calls.any (·.directFatal) = false ∧ calls.any (·.directRefused) = false :=
  ⟨List.any_eq_false.mpr fun c hc => by simp [(UsrsctpCall.lost_of_not_direct (h c hc)).1],
    List.any_eq_false.mpr fun c hc => by simp [(UsrsctpCall.lost_of_not_direct (h c hc)).2]⟩

theorem errnoKept_of_not_direct {c : UsrsctpCall} (h : c.direct = false) : c.ErrnoKept := by
  obtain ⟨hfatal, hrefused⟩ := UsrsctpCall.lost_of_not_direct h
  rw [c.errnoKept_iff, hfatal, hrefused]

/-- Among calls with at most one direct send, one failed for good exactly if one was refused,
provided that `perror` kept the errno; and only then. -/
theorem any_directFatal_eq_iff {calls : List UsrsctpCall} (h : calls.countP (·.direct) ≤ 1) :
    calls.any (·.directFatal) = calls.any (·.directRefused) ↔ ∀ c ∈ calls, c.ErrnoKept := by
  induction calls with
  | nil => simp
  | cons c calls ih =>
    rw [List.any_cons, List.any_cons, List.forall_mem_cons]
    by_cases hc : c.direct = true
    · -- no other call is a direct send
      have hzero : calls.countP (·.direct) = 0 := by
        rw [List.countP_cons_of_pos hc] at h
        exact Nat.le_zero.mp (Nat.le_of_succ_le_succ h)
      have hrest : ∀ d ∈ calls, d.direct = false := fun d hd => by
        simpa using List.countP_eq_zero.mp hzero d hd
      rw [(any_lost_of_not_direct hrest).1, (any_lost_of_not_direct hrest).2, Bool.or_false,
        Bool.or_false, ← c.errnoKept_iff]
      exact ⟨fun hk => ⟨hk, fun d hd => errnoKept_of_not_direct (hrest d hd)⟩, And.left⟩
    · have hc' : c.direct = false := by simpa using hc
      rw [(UsrsctpCall.lost_of_not_direct hc').1, (UsrsctpCall.lost_of_not_direct hc').2,
        Bool.false_or, Bool.false_or]
      rw [List.countP_cons_of_neg hc] at h
      exact (ih h).trans ⟨fun hk => ⟨errnoKept_of_not_direct hc', hk⟩, And.right⟩

theorem countP_direct_eq_zero {calls : List UsrsctpCall} (h : ∀ c ∈ calls, c.direct = false) :
    calls.countP (·.direct) = 0 :=
  List.countP_eq_zero.mpr fun c hc => by simp [h c hc]

/-! ### The operations -/

/-- What an operation that finds the calls `calls` and the cached messages `wait` does: it makes the
calls `new`, after which the accepted messages followed by the cached ones have grown by `out`; it
leaves a cache of whole messages and does not crash. -/
structure Carries (calls : List UsrsctpCall) (wait : List RuruSctpMessage) (t' : Transport υ)
    (new : List UsrsctpCall) (out : List RuruSctpMessage) : Prop where
  calls : t'.calls = calls ++ new
  queue : accepted new ++ cached t'.cache = wait ++ out
  whole : ∀ d ∈ t'.cache, d.Whole
  crashed : t'.crashed = false

/-- The call that a send leaves in the history. -/
def sendvCall (t : Transport υ) (site : SendSite) (data : List UInt8) (p : SctpMsgParam) :
    UsrsctpCall :=
  ⟨.sendv site t.sock_ data (sndinfo p) (t.sendv u data (sndinfo p)).val,
    (t.sendv u data (sndinfo p)).callbacks⟩

/-- The call that giving up leaves in the history. -/
def closeCall (t : Transport υ) : UsrsctpCall := ⟨.close t.sock_, (u.close t.usr t.sock_).callbacks⟩

theorem calls_sent (t : Transport υ) (site : SendSite) (data : List UInt8) (p : SctpMsgParam) :
    (t.sent u site data (sndinfo p)).calls = t.calls ++ [sendvCall u t site data p] := rfl

theorem calls_giveUp (t : Transport υ) : (t.giveUp u).calls = t.calls ++ [closeCall u t] := rfl

@[simp] theorem accepted_sendvCall (t : Transport υ) (site : SendSite) (data : List UInt8)
    (p : SctpMsgParam) : accepted [sendvCall u t site data p] =
      if (t.sendv u data (sndinfo p)).val.ret < 0 then [] else [⟨data, p⟩] := by
  unfold accepted UsrsctpCall.accepted sendvCall sndinfo
  by_cases h : (t.sendv u data ⟨p.sid, htonl p.ppid⟩).val.ret < 0 <;> simp [h]

@[simp] theorem accepted_closeCall (t : Transport υ) : accepted [closeCall u t] = [] := rfl

/-- The flush: the calls it makes are sends from the cache, in order; after a success the cache is
empty and the handshake flag as before. -/
theorem flushCache_spec : ∀ (cache : List RuruCacheData) (t : Transport υ), t.crashed = false →
    (∀ d ∈ cache, d.Whole) → ∃ new, Carries t.calls (cached cache) (flushCache u cache t).2 new []
      ∧ (∀ c ∈ new, c.direct = false)
      ∧ ((flushCache u cache t).1 = true → (flushCache u cache t).2.cache = []
          ∧ (flushCache u cache t).2.bHandShakeDone = t.bHandShakeDone)
  | [], t, hcr, _ => by
    refine ⟨[], ⟨?_, rfl, ?_, hcr⟩, ?_, fun _ => ⟨rfl, rfl⟩⟩
    · simp [flushCache]
    · simp [flushCache]
    · simp
  | d :: rest, t, hcr, hw => by
    have hd : d.data.take (toSize d.length) = d.data := (hw d (by simp)).take
    simp only [flushCache, hd]
    by_cases hneg : (t.sendv u d.data (sndinfo d.param)).val.ret < 0
    · -- the element stays at the front, whatever the error
      rw [if_pos hneg]
      by_cases hf : SendvResult.fatal (t.sendv u d.data (sndinfo d.param)).val = true
      · rw [if_pos hf]
        refine ⟨[sendvCall u t .cache d.data d.param] ++
          [closeCall u (t.sent u .cache d.data (sndinfo d.param))], ⟨?_, ?_, hw, hcr⟩, ?_, by simp⟩
        · rw [← List.append_assoc, ← calls_sent]; rfl
        · rw [accepted_append, accepted_sendvCall, if_pos hneg, accepted_closeCall]; simp; rfl
        · simp [UsrsctpCall.direct, sendvCall, closeCall]
      · rw [if_neg hf]
        refine ⟨[sendvCall u t .cache d.data d.param], ⟨calls_sent u t _ _ _, ?_, hw, hcr⟩, ?_,
          by simp⟩
        · rw [accepted_sendvCall, if_pos hneg]; simp
        · simp [UsrsctpCall.direct, sendvCall]
    · rw [if_neg hneg]
      obtain ⟨new, hC, hnd, htrue⟩ := flushCache_spec rest (t.sent u .cache d.data (sndinfo d.param))
        hcr (fun x hx => hw x (by simp [hx]))
      refine ⟨[sendvCall u t .cache d.data d.param] ++ new, ⟨?_, ?_, hC.whole, hC.crashed⟩, ?_, htrue⟩
      · rw [hC.calls, ← List.append_assoc, ← calls_sent]
      · rw [accepted_append, List.append_assoc, hC.queue, accepted_sendvCall, if_neg hneg]
        simp [cached]
      · intro c hc
        rcases List.mem_append.mp hc with hc | hc
        · rw [List.mem_singleton.mp hc]; rfl
        · exact hnd c hc

theorem sendSctpCacheData_spec (t : Transport υ) (hcr : t.crashed = false)
    (hw : ∀ d ∈ t.cache, d.Whole) : ∃ new, Carries t.calls (cached t.cache) (t.sendSctpCacheData u).2 new []
      ∧ (∀ c ∈ new, c.direct = false)
      ∧ ((t.sendSctpCacheData u).1 = true → (t.sendSctpCacheData u).2.cache = []
          ∧ (t.sendSctpCacheData u).2.bHandShakeDone = true) := by
  unfold sendSctpCacheData
  by_cases hs : t.bHandShakeDone = true
  · rw [if_pos hs]
    obtain ⟨new, hC, hnd, htrue⟩ := flushCache_spec u t.cache t hcr hw
    exact ⟨new, hC, hnd, fun h => ⟨(htrue h).1, (htrue h).2.trans hs⟩⟩
  · rw [if_neg hs]
    exact ⟨[], ⟨by simp, by simp [accepted], hw, hcr⟩, by simp, by simp⟩

/-- Appending to the cache at the end of an operation. -/
theorem Carries.push {calls : List UsrsctpCall} {wait : List RuruSctpMessage} {t' : Transport υ}
    {new : List UsrsctpCall} (h : Carries calls wait t' new []) {msg : RuruSctpMessage}
    (hm : msg.data.length < 2 ^ 31) :
    Carries calls wait (t'.pushMsg2ClientCache (some msg)) new [msg] := by
  refine ⟨h.calls, ?_, ?_, h.crashed⟩
  · have hq : accepted new ++ cached t'.cache = wait := by simpa using h.queue
    simp only [pushMsg2ClientCache, cached_append, ← List.append_assoc, hq]
    rfl
  · intro d hd
    rcases List.mem_append.mp hd with hd | hd
    · exact h.whole d hd
    · rw [List.mem_singleton.mp hd]; exact whole_push hm

theorem sendUsrSctpData_spec (t : Transport υ) (hcr : t.crashed = false)
    (hw : ∀ d ∈ t.cache, d.Whole) {msg : RuruSctpMessage} (hm : msg.data.length < 2 ^ 31) :
    ∃ new, Carries t.calls (cached t.cache) (t.sendUsrSctpData u (some msg)).2 new
      (if new.any (·.directFatal) then [] else [msg]) ∧ new.countP (·.direct) ≤ 1 := by
  obtain ⟨new, hC, hnd, htrue⟩ := sendSctpCacheData_spec u t hcr hw
  have hnew : new.any (·.directFatal) = false := (any_lost_of_not_direct hnd).1
  have hnone : new.countP (·.direct) = 0 := countP_direct_eq_zero hnd
  unfold sendUsrSctpData
  by_cases h1 : (t.sendSctpCacheData u).1 = true
  · -- the cache is empty now, so the message goes behind everything sent before
    obtain ⟨hempty, hs⟩ := htrue h1
    simp only [if_pos h1, if_pos hs]
    generalize (t.sendSctpCacheData u).2 = f at hC hempty hs
    have hq : accepted new = cached t.cache := by simpa [hempty, cached] using hC.queue
    set c := sendvCall u f .direct msg.data msg.param with hc
    have hcalls : (f.sent u .direct msg.data (sndinfo msg.param)).calls = t.calls ++ (new ++ [c]) := by
      rw [calls_sent, hC.calls, List.append_assoc]
    have hone : (new ++ [c]).countP (·.direct) ≤ 1 := by
      rw [List.countP_append, hnone, Nat.zero_add]
      exact List.countP_le_length
    have hcf : c.directFatal = (decide ((f.sendv u msg.data (sndinfo msg.param)).val.ret < 0) &&
      SendvResult.fatal (f.sendv u msg.data (sndinfo msg.param)).val) := rfl
    by_cases hneg : (f.sendv u msg.data (sndinfo msg.param)).val.ret < 0
    · rw [if_pos hneg]
      have hacc : accepted (new ++ [c]) = cached t.cache := by
        rw [accepted_append, hq, hc, accepted_sendvCall, if_pos hneg, List.append_nil]
      by_cases hfat : SendvResult.fatal (f.sendv u msg.data (sndinfo msg.param)).val = true
      · -- the only loss: the message was neither accepted nor cached
        rw [if_pos hfat]
        refine ⟨new ++ [c] ++ [closeCall u (f.sent u .direct msg.data (sndinfo msg.param))], ?_, ?_⟩
        swap
        · rw [List.countP_append]
          exact hone
        rw [if_pos (by simp [hcf, hneg, hfat])]
        refine ⟨?_, ?_, hC.whole, hC.crashed⟩
        · rw [calls_giveUp, hcalls, List.append_assoc, List.append_assoc]
        · rw [accepted_append, hacc, accepted_closeCall]
          simp [giveUp, usrsctpClose, sent, answer, hempty, cached]
      · rw [if_neg hfat]
        have hC' : Carries t.calls (cached t.cache) (f.sent u .direct msg.data (sndinfo msg.param))
            (new ++ [c]) [] := by
          refine ⟨hcalls, ?_, hC.whole, hC.crashed⟩
          rw [hacc]
          simp [sent, answer, hempty, cached]
        have hfat' : (new ++ [c]).any (·.directFatal) = false := by simp [hnew, hcf, hfat]
        refine ⟨new ++ [c], ?_, hone⟩
        rw [hfat', if_neg (by simp)]
        exact hC'.push hm
    · rw [if_neg hneg]
      have hfat' : (new ++ [c]).any (·.directFatal) = false := by simp [hnew, hcf, hneg]
      refine ⟨new ++ [c], ?_, hone⟩
      rw [hfat', if_neg (by simp)]
      refine ⟨hcalls, ?_, hC.whole, hC.crashed⟩
      rw [accepted_append, hq, hc, accepted_sendvCall, if_neg hneg]
      simp [sent, answer, hempty, cached]
  · simp only [if_neg h1]
    refine ⟨new, ?_, hnone.trans_le (Nat.zero_le 1)⟩
    rw [hnew, if_neg (by simp)]
    exact hC.push hm

theorem recvUsrSctpData_spec (t : Transport υ) (hcr : t.crashed = false)
    (hw : ∀ d ∈ t.cache, d.Whole) (data : Option (List UInt8)) :
    ∃ new, Carries t.calls (cached t.cache) (t.recvUsrSctpData u data) new [] ∧
      ∀ c ∈ new, c.direct = false := by
  cases data with
  | none =>
    exact ⟨[], ⟨by simp [recvUsrSctpData], by simp [recvUsrSctpData, accepted], hw, hcr⟩, by simp⟩
  | some data =>
    simp only [recvUsrSctpData]
    by_cases hs : t.bHandShakeDone = true
    · rw [if_pos hs]
      exact ⟨[⟨.conninput data, _⟩], ⟨rfl, by simp [accepted, UsrsctpCall.accepted, answer], hw, hcr⟩,
        by simp [UsrsctpCall.direct]⟩
    · rw [if_neg hs]
      by_cases ha : (u.accept t.usr t.sock_).val = true
      · rw [if_pos ha]
        exact ⟨[⟨.accept t.sock_ (some t.nextSock), _⟩, ⟨.close t.sock_, _⟩, ⟨.conninput data, _⟩],
          ⟨by simp [usrsctpClose, answer]; exact ⟨rfl, rfl, rfl⟩,
            by simp [accepted, UsrsctpCall.accepted, usrsctpClose, answer], hw, hcr⟩,
          by simp [UsrsctpCall.direct]⟩
      · rw [if_neg ha]
        exact ⟨[⟨.accept t.sock_ none, _⟩, ⟨.conninput data, _⟩],
          ⟨by simp [answer]; exact ⟨rfl, rfl⟩,
            by simp [accepted, UsrsctpCall.accepted, answer], hw, hcr⟩,
          by simp [UsrsctpCall.direct]⟩

/-! ### Runs -/

/-- The argument of `SendUsrSctpData` is not null, and shorter than 2^31 bytes. -/
def SctpOp.Sendable : SctpOp → Prop
  | .sendUsrSctpData sctpMsg => ∃ msg, sctpMsg = some msg ∧ msg.data.length < 2 ^ 31
  | _ => True

theorem step_of_alive {t : Transport υ} (hcr : t.crashed = false) (op : SctpOp) :
    t.step u op = match op with
      | .sendUsrSctpData sctpMsg => (t.sendUsrSctpData u sctpMsg).2
      | .sendSctpCacheData => (t.sendSctpCacheData u).2
      | .recvUsrSctpData data => t.recvUsrSctpData u data := by
  unfold step
  rw [if_neg (by simp [hcr])]

theorem submitted_cons (op : SctpOp) (ops : List SctpOp) :
    submitted (op :: ops) = submitted [op] ++ submitted ops := by
  cases op with
  | sendUsrSctpData sctpMsg => cases sctpMsg <;> rfl
  | sendSctpCacheData => rfl
  | recvUsrSctpData data => rfl

/-- One call: it carries what it submits, and sends directly no more than that. -/
theorem step_spec (t : Transport υ) (op : SctpOp) (hop : op.Sendable) (hcr : t.crashed = false)
    (hw : ∀ d ∈ t.cache, d.Whole) :
    ∃ new, Carries t.calls (cached t.cache) (t.step u op) new (survivors u t [op]) ∧
      new.countP (·.direct) ≤ (submitted [op]).length := by
  have hstep := step_of_alive u hcr op
  cases op with
  | sendUsrSctpData sctpMsg =>
    obtain ⟨msg, rfl, hm⟩ := hop
    obtain ⟨new, hC, hone⟩ := sendUsrSctpData_spec u t hcr hw hm
    have hlost : losesTo u (·.directFatal) t msg = new.any (·.directFatal) := by
      rw [losesTo, hstep, hC.calls, List.drop_left]
    refine ⟨new, ?_, hone⟩
    rw [hstep]
    simpa only [survivors, submittedBut, hlost, List.append_nil] using hC
  | sendSctpCacheData =>
    obtain ⟨new, hC, hnd, -⟩ := sendSctpCacheData_spec u t hcr hw
    exact ⟨new, by rw [hstep]; exact hC, (countP_direct_eq_zero hnd).le⟩
  | recvUsrSctpData data =>
    obtain ⟨new, hC, hnd⟩ := recvUsrSctpData_spec u t hcr hw data
    exact ⟨new, by rw [hstep]; exact hC, (countP_direct_eq_zero hnd).le⟩

theorem submittedBut_cons (lost : UsrsctpCall → Bool) (t : Transport υ) (op : SctpOp)
    (ops : List SctpOp) : submittedBut u lost t (op :: ops) =
      submittedBut u lost t [op] ++ submittedBut u lost (t.step u op) ops := by
  simp [submittedBut]

theorem run_spec (ops : List SctpOp) (hops : ∀ op ∈ ops, op.Sendable) (t : Transport υ)
    (hcr : t.crashed = false) (hw : ∀ d ∈ t.cache, d.Whole) :
    ∃ new, Carries t.calls (cached t.cache) (t.run u ops) new (survivors u t ops) := by
  induction ops generalizing t with
  | nil => exact ⟨[], ⟨by simp [run], by simp [run, accepted, survivors, submittedBut], hw, hcr⟩⟩
  | cons op ops ih =>
    obtain ⟨a, hA, -⟩ := step_spec u t op (hops op (by simp)) hcr hw
    obtain ⟨b, hB⟩ := ih (fun x hx => hops x (by simp [hx])) (t.step u op) hA.crashed hA.whole
    refine ⟨a ++ b, ⟨?_, ?_, hB.whole, hB.crashed⟩⟩
    · rw [← List.append_assoc, ← hA.calls]; exact hB.calls
    · calc accepted (a ++ b) ++ cached (run u (t.step u op) ops).cache
        _ = accepted a ++ (accepted b ++ cached (run u (t.step u op) ops).cache) := by
          rw [accepted_append, List.append_assoc]
        _ = accepted a ++ cached (t.step u op).cache ++ survivors u (t.step u op) ops := by
          rw [hB.queue, List.append_assoc]
        _ = cached t.cache ++ (survivors u t [op] ++ survivors u (t.step u op) ops) := by
          rw [hA.queue, List.append_assoc]
        _ = cached t.cache ++ survivors u t (op :: ops) := by
          rw [survivors, survivors, survivors, ← submittedBut_cons]

/-- A call loses what it owes exactly if `perror` kept the errno of its direct send. -/
theorem survivors_eq_owed_iff (t : Transport υ) (op : SctpOp) {new : List UsrsctpCall}
    (hcalls : (t.step u op).calls = t.calls ++ new)
    (hone : new.countP (·.direct) ≤ (submitted [op]).length) :
    survivors u t [op] = owed u t [op] ↔ ∀ c ∈ new, c.ErrnoKept := by
  have hquiet (hsub : (submitted [op]).length = 0) : ∀ c ∈ new, c.ErrnoKept := fun c hc => by
    rw [hsub] at hone
    exact errnoKept_of_not_direct (by simpa using List.countP_eq_zero.mp (Nat.le_zero.mp hone) c hc)
  cases op with
  | sendUsrSctpData sctpMsg =>
    cases sctpMsg with
    | none => exact iff_of_true rfl (hquiet rfl)
    | some msg =>
      have hlost : ∀ lost, losesTo u lost t msg = new.any lost := fun lost => by
        rw [losesTo, hcalls, List.drop_left]
      rw [← any_directFatal_eq_iff hone]
      simp only [survivors, owed, submittedBut, hlost, List.append_nil]
      cases new.any (·.directFatal) <;> cases new.any (·.directRefused) <;> simp
  | sendSctpCacheData => exact iff_of_true rfl (hquiet rfl)
  | recvUsrSctpData data => exact iff_of_true rfl (hquiet rfl)

/-- Along a run, what survives is what is owed as long as `perror` keeps the errno. -/
theorem run_survivors_eq_owed_iff (ops : List SctpOp) (hops : ∀ op ∈ ops, op.Sendable)
    (t : Transport υ) (hcr : t.crashed = false) (hw : ∀ d ∈ t.cache, d.Whole) :
    (∀ past rest, ops = past ++ rest → survivors u t past = owed u t past) ↔
      ∀ c ∈ (t.run u ops).calls.drop t.calls.length, c.ErrnoKept := by
  induction ops generalizing t with
  | nil =>
    refine iff_of_true (fun past rest h => ?_) (by simp [run])
    obtain ⟨rfl, -⟩ := List.append_eq_nil_iff.mp h.symm
    rfl
  | cons op ops ih =>
    obtain ⟨a, hA, hone⟩ := step_spec u t op (hops op (by simp)) hcr hw
    have hops' : ∀ x ∈ ops, x.Sendable := fun x hx => hops x (by simp [hx])
    obtain ⟨b, hB⟩ := run_spec u ops hops' (t.step u op) hA.crashed hA.whole
    have hhead := survivors_eq_owed_iff u t op hA.calls hone
    have htail := ih hops' (t.step u op) hA.crashed hA.whole
    have hdrop : (t.run u (op :: ops)).calls.drop t.calls.length = a ++ b := by
      show ((t.step u op).run u ops).calls.drop _ = _
      rw [hB.calls, hA.calls, List.append_assoc, List.drop_left]
    have hdrop' : ((t.step u op).run u ops).calls.drop (t.step u op).calls.length = b := by
      rw [hB.calls, List.drop_left]
    have hsplit : ∀ past, (survivors u t (op :: past) = owed u t (op :: past)) =
        (survivors u t [op] ++ survivors u (t.step u op) past =
          owed u t [op] ++ owed u (t.step u op) past) := fun past => by
      rw [survivors, owed, submittedBut_cons, submittedBut_cons u (·.directRefused)]
      rfl
    rw [hdrop, List.forall_mem_append, ← hhead, ← hdrop', ← htail]
    constructor
    · intro h
      have h1 : survivors u t [op] = owed u t [op] := h [op] ops rfl
      refine ⟨h1, fun past rest hp => ?_⟩
      have h2 := h (op :: past) rest (by rw [hp]; rfl)
      rw [hsplit, h1] at h2
      exact List.append_cancel_left h2
    · rintro ⟨h1, h2⟩ past rest hp
      cases past with
      | nil => rfl
      | cons x past =>
        obtain ⟨rfl, hp'⟩ := List.cons_eq_cons.mp hp
        rw [hsplit, h1, h2 past rest hp']

/-! ### The constructor -/

/-- What the constructor calls. -/
def UsrsctpFn.isSetup : UsrsctpFn → Bool
  | .socket _ | .setNonBlocking .. | .bind .. | .listen .. | .close _ => true
  | _ => false

/-- Every call made so far is one of `p`. -/
def CallsIn (p : UsrsctpFn → Bool) (t : Transport υ) : Prop := ∀ c ∈ t.calls, p c.fn = true

theorem CallsIn.answer {α : Type} {p : UsrsctpFn → Bool} {t : Transport υ} (h : CallsIn p t)
    {fn : UsrsctpFn} {r : Ret υ α} (hfn : p fn = true) : CallsIn p (t.answer fn r) := by
  intro c hc
  rcases List.mem_append.mp hc with hc | hc
  · exact h c hc
  · rw [List.mem_singleton.mp hc]
    exact hfn

/-- Nothing but set up: nothing was sent, nothing waits and nothing has crashed. -/
structure Idle (t : Transport υ) : Prop where
  calls : CallsIn UsrsctpFn.isSetup t
  cache : t.cache = []
  crashed : t.crashed = false

theorem Idle.answer {α : Type} {t : Transport υ} (h : Idle t) (fn : UsrsctpFn) (r : Ret υ α)
    (hfn : fn.isSetup = true) : Idle (t.answer fn r) :=
  ⟨CallsIn.answer h.calls hfn, h.cache, h.crashed⟩

theorem Idle.closeSctpSocket {t : Transport υ} (h : Idle t) : Idle (t.closeSctpSocket u) := by
  have hclosed : Idle (t.usrsctpClose u t.sock_) := h.answer _ _ rfl
  unfold Transport.closeSctpSocket
  split_ifs
  · exact ⟨hclosed.calls, hclosed.cache, hclosed.crashed⟩
  · exact h

theorem Idle.configureSctpSocket {t : Transport υ} (h : Idle t) (s : Sock) :
    Idle (t.configureSctpSocket u s).2 := by
  unfold Transport.configureSctpSocket
  dsimp only
  split_ifs
  · exact h.answer _ _ rfl
  · exact (h.answer _ _ rfl).answer _ _ rfl
  · exact (h.answer _ _ rfl).answer _ _ rfl

/-- The last part of the constructor, after `ConfigureSctpSocket`. -/
theorem Idle.listen {c : Bool × Transport υ} (h : Idle c.2) (s : Sock) :
    let t := c.2.answer (.listen s (u.listen c.2.usr s).val) (u.listen c.2.usr s)
    Idle (if c.1 = true then
        if (u.listen c.2.usr s).val < 0 then t.closeSctpSocket u
        else { t with bHandShakeDone := false }
      else c.2.closeSctpSocket u) := by
  have hl : Idle (c.2.answer (.listen s (u.listen c.2.usr s).val) (u.listen c.2.usr s)) :=
    h.answer _ _ rfl
  dsimp only
  split_ifs
  · exact hl.closeSctpSocket u
  · exact ⟨hl.calls, hl.cache, hl.crashed⟩
  · exact h.closeSctpSocket u

/-- A freshly constructed transport has sent and cached nothing. -/
theorem construct_idle (junk : Bool) (usr : υ) (nextSock : Sock) :
    Idle (construct u junk usr nextSock) := by
  have h0 : Idle (⟨none, junk, [], usr, nextSock, [], false⟩ : Transport υ) :=
    ⟨fun c hc => absurd hc (by simp), rfl, rfl⟩
  unfold construct ruruSctp
  rw [if_pos rfl]
  by_cases hr : (u.socket usr).val = true
  · have h1 := h0.answer (.socket (some nextSock)) (u.socket usr) rfl
    dsimp only
    rw [if_pos hr]
    refine Idle.listen u (Idle.configureSctpSocket u ?_ nextSock) nextSock
    exact ⟨h1.calls, h1.cache, h1.crashed⟩
  · have h1 := h0.answer (.socket none) (u.socket usr) rfl
    dsimp only
    rw [if_neg hr]
    exact ⟨h1.calls, h1.cache, h1.crashed⟩

/-- Setting up sends nothing. -/
theorem Idle.not_sent {t : Transport υ} (h : Idle t) :
    accepted t.calls = [] ∧ ∀ c ∈ t.calls, c.direct = false := by
  refine ⟨List.filterMap_eq_nil_iff.mpr fun c hc => ?_, fun c hc => ?_⟩
  · have hsetup := h.calls c hc
    unfold UsrsctpCall.accepted
    split
    · rename_i hfn
      rw [hfn] at hsetup
      exact absurd hsetup (by simp [UsrsctpFn.isSetup])
    · rfl
  · have hsetup := h.calls c hc
    unfold UsrsctpCall.direct
    split
    · rename_i hfn
      rw [hfn] at hsetup
      exact absurd hsetup (by simp [UsrsctpFn.isSetup])
    · rfl

/-! ### The theorem -/

/-- After a run on a constructed `RuruSctp`, what usrsctp accepted and what waits is what survives. -/
theorem run_fifo (junk : Bool) (usr : υ) (nextSock : Sock) (ops : List SctpOp)
    (hops : ∀ op ∈ ops, op.Sendable) :
    let t := (construct u junk usr nextSock).run u ops
    accepted t.calls ++ cached t.cache = survivors u (construct u junk usr nextSock) ops ∧
      ∀ d ∈ t.cache, d.length = d.data.length := by
  have hidle := construct_idle u junk usr nextSock
  obtain ⟨new, hC⟩ := run_spec u ops hops (construct u junk usr nextSock) hidle.crashed
    (by simp [hidle.cache])
  refine ⟨?_, fun d hd => (hC.whole d hd).1⟩
  rw [hC.calls, accepted_append, hidle.not_sent.1, List.nil_append, hC.queue, hidle.cache]
  rfl

/-- **Outbound FIFO.**  Whatever `usrsctp_accept` and `usrsctp_sendv` answer, after every step of a
run on a constructed `RuruSctp` the messages usrsctp accepted followed by those in the cache are the
messages submitted, without those that `usrsctp_sendv` itself refused when they were sent directly:
if and only if in that run no `perror` behind a failed direct send turns `EWOULDBLOCK` or `EAGAIN`
into another errno, or another errno into one of them. -/
theorem outbound_fifo_iff (junk : Bool) (usr : υ) (nextSock : Sock) (ops : List SctpOp)
    (hops : ∀ op ∈ ops, op.Sendable) :
    let s := construct u junk usr nextSock
    (∀ past rest, ops = past ++ rest → OutboundFifo u s past) ↔
      ∀ c ∈ (s.run u ops).calls, c.ErrnoKept := by
  intro s
  have hidle : Idle s := construct_idle u junk usr nextSock
  have hw : ∀ d ∈ s.cache, d.Whole := by simp [hidle.cache]
  obtain ⟨new, hC⟩ := run_spec u ops hops s hidle.crashed hw
  have hfifo : ∀ past rest, ops = past ++ rest →
      (OutboundFifo u s past ↔ survivors u s past = owed u s past) := fun past rest hp => by
    obtain ⟨hq, hwhole⟩ := run_fifo u junk usr nextSock past
      (fun op hop => hops op (by rw [hp]; exact List.mem_append_left _ hop))
    rw [OutboundFifo, hq]
    exact ⟨And.left, fun h => ⟨h, hwhole⟩⟩
  have hkept : (∀ c ∈ (s.run u ops).calls, c.ErrnoKept) ↔
      ∀ c ∈ (s.run u ops).calls.drop s.calls.length, c.ErrnoKept := by
    rw [hC.calls, List.drop_left, List.forall_mem_append]
    exact ⟨And.right, fun h => ⟨fun c hc => errnoKept_of_not_direct (hidle.not_sent.2 c hc), h⟩⟩
  rw [hkept, ← run_survivors_eq_owed_iff u ops hops s hidle.crashed hw]
  exact forall₂_congr fun past rest => forall_congr' fun hp => hfifo past rest hp

/-- Three messages: one before the handshake, one that would block, one that is refused; `perror`
changes no errno. -/
theorem outbound_fifo_iff_blocked_and_refused :
    let ops : List SctpOp := [.sendUsrSctpData (some ⟨[1], ⟨0, 51⟩⟩), .recvUsrSctpData (some [9]),
      .sendUsrSctpData (some ⟨[2, 2], ⟨1, 51⟩⟩), .sendUsrSctpData (some ⟨[3], ⟨2, 53⟩⟩)]
    let s := construct scripted true
      [⟨1, 0, 0⟩, ⟨-1, EAGAIN, EAGAIN⟩, ⟨2, 0, 0⟩, ⟨-1, 104, 104⟩] 0
    (∀ past rest, ops = past ++ rest → OutboundFifo scripted s past) ↔
      ∀ c ∈ (s.run scripted ops).calls, c.ErrnoKept :=
  outbound_fifo_iff scripted true _ 0 _ (by
    intro op hop
    simp only [List.mem_cons, List.not_mem_nil, or_false] at hop
    rcases hop with rfl | rfl | rfl | rfl
    · exact ⟨_, rfl, by decide⟩
    · trivial
    · exact ⟨_, rfl, by decide⟩
    · exact ⟨_, rfl, by decide⟩)

/-- A send that would block, while `stderr` is not open for reading: `perror` leaves `EINVAL` (22),
and the message is neither accepted nor cached. -/
theorem would_block_lost_to_perror :
    let ops : List SctpOp := [.recvUsrSctpData (some [9]), .sendUsrSctpData (some ⟨[1], ⟨0, 51⟩⟩)]
    (∀ op ∈ ops, op.Sendable) ∧
      ¬ OutboundFifo scripted (construct scripted true [⟨-1, EAGAIN, 22⟩] 0) ops := by
  refine ⟨fun op hop => ?_, fun h => absurd h.1 (by decide)⟩
  simp only [List.mem_cons, List.not_mem_nil, or_false] at hop
  rcases hop with rfl | rfl
  · trivial
  · exact ⟨_, rfl, by decide⟩

end Ruru
