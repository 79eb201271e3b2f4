import Ruru.Lib.Lts
import Ruru.SctpFifo

/-!
# Ruru.SctpHandles — the life of the socket handles

`HandlesSound`: every handle given to `usrsctp_accept`, `usrsctp_sendv` or `usrsctp_close` came from
`usrsctp_socket` or `usrsctp_accept` and was not closed before.  The code keeps this in the phase
`Live`.  It is out of that phase in two ways: the constructor returned without a socket (`Unmade`),
or a send failed for good, which closes the socket but keeps its handle in `sock_` (`GivenUp`).
What a call may do in each phase gives the exact condition on a run.  After the first of the
constructor's returns, for a null client, every member is what its memory happened to hold.
-/

namespace Ruru

open Transport

variable {υ : Type} (u : Usrsctp υ)

namespace UsrsctpCall

/-- The handle passed to `usrsctp_accept`, `usrsctp_sendv` or `usrsctp_close`. -/
def passed (c : UsrsctpCall) : Option (Option Sock) :=
  match c.fn with
  | .accept sock _ => some sock
  | .sendv _ sock _ _ _ => some sock
  | .close sock => some sock
  | _ => none

/-- The handle a successful `usrsctp_socket` or `usrsctp_accept` returned. -/
def returned (c : UsrsctpCall) : Option Sock :=
  match c.fn with
  | .socket ret => ret
  | .accept _ ret => ret
  | _ => none

/-- The handle passed to `usrsctp_close`. -/
def closed (c : UsrsctpCall) : Option Sock :=
  match c.fn with
  | .close sock => sock
  | _ => none

/-- A send that failed for good: the errno behind the `perror` is not `EWOULDBLOCK` and not
`EAGAIN`. -/
def fatalSend (c : UsrsctpCall) : Bool :=
  match c.fn with
  | .sendv _ _ _ _ r => r.ret < 0 && SendvResult.fatal r
  | _ => false

end UsrsctpCall

/-- The handles returned in a history. -/
def returned (calls : List UsrsctpCall) : List Sock := calls.filterMap (·.returned)

/-- The handles closed in a history. -/
def closed (calls : List UsrsctpCall) : List Sock := calls.filterMap (·.closed)

/-- A send of the history failed for good. -/
def sendFailed (calls : List UsrsctpCall) : Bool := calls.any (·.fatalSend)

/-- The handle was returned and has not been closed. -/
def IsOpen (calls : List UsrsctpCall) (h : Option Sock) : Prop :=
  ∃ s, h = some s ∧ s ∈ returned calls ∧ s ∉ closed calls

/-- Every handle passed in the history was open at that point. -/
def HandlesSound (calls : List UsrsctpCall) : Prop :=
  ∀ before c after, calls = before ++ c :: after → ∀ h, c.passed = some h → IsOpen before h

/-- One call of a member function, as a relation. -/
def Transport.Step (t : Transport υ) (op : SctpOp) (t' : Transport υ) : Prop := t' = t.step u op

/-- `RuruSctp(cli)` on an object whose memory holds `sock_` and, as `bHandShakeDone`, `junk`.  After
the return for a null `cli` the uninitialised `client` leads to a cache that reads as `stray`; a new
client has none. -/
def constructOn (cli : Bool) (sock_ : Option Sock) (junk : Bool) (stray : List RuruCacheData)
    (usr : υ) (nextSock : Sock) : Transport υ :=
  ruruSctp u cli
    { sock_ := sock_, bHandShakeDone := junk, cache := if cli then [] else stray, usr := usr,
      nextSock := nextSock }

/-- A packet is handed in only after the handshake, or while there is a listening socket and no send
has failed for good; a message is sent only before the handshake or while there is a socket.  On an
object constructed for no client the cache is sent only before the handshake or while it is empty. -/
def HandleSafe (cli : Bool) (t : Transport υ) (op : SctpOp) : Prop :=
  t.crashed = true ∨
    match op with
    | .recvUsrSctpData (some _) =>
      t.bHandShakeDone = true ∨ (cli = true ∧ t.sock_.isSome ∧ sendFailed t.calls = false)
    | .sendUsrSctpData (some _) => t.bHandShakeDone = false ∨ (cli = true ∧ t.sock_.isSome)
    | .recvUsrSctpData none => True
    | .sendUsrSctpData none | .sendSctpCacheData =>
      t.bHandShakeDone = false ∨ cli = true ∨ t.cache = []

/-! ### Histories that grow by one call -/

theorem handlesSound_nil : HandlesSound [] := by
  intro before c after h
  simp at h

theorem handlesSound_snoc {calls : List UsrsctpCall} {c : UsrsctpCall} :
    HandlesSound (calls ++ [c]) ↔
      HandlesSound calls ∧ ∀ h, c.passed = some h → IsOpen calls h := by
  constructor
  · intro hs
    refine ⟨fun before d after hd h hp => hs before d (after ++ [c]) ?_ h hp,
      fun h hp => hs calls c [] rfl h hp⟩
    rw [hd, List.append_assoc, List.cons_append]
  · rintro ⟨hs, hc⟩ before d after hd h hp
    rcases List.eq_nil_or_concat after with rfl | ⟨after', x, rfl⟩
    · obtain ⟨rfl, he⟩ := List.append_inj' hd rfl
      obtain rfl : c = d := by simpa using he
      exact hc h hp
    · rw [List.concat_eq_append, ← List.cons_append, ← List.append_assoc] at hd
      exact hs before d after' (List.append_inj' hd rfl).1 h hp

@[simp] theorem returned_append (a b : List UsrsctpCall) :
    returned (a ++ b) = returned a ++ returned b := List.filterMap_append

@[simp] theorem returned_cons (c : UsrsctpCall) (b : List UsrsctpCall) :
    returned (c :: b) = c.returned.toList ++ returned b := by
  cases h : c.returned <;> simp [returned, h]

@[simp] theorem returned_nil : returned [] = [] := rfl

@[simp] theorem closed_append (a b : List UsrsctpCall) :
    closed (a ++ b) = closed a ++ closed b := List.filterMap_append

@[simp] theorem closed_cons (c : UsrsctpCall) (b : List UsrsctpCall) :
    closed (c :: b) = c.closed.toList ++ closed b := by
  cases h : c.closed <;> simp [closed, h]

@[simp] theorem closed_nil : closed [] = [] := rfl

@[simp] theorem sendFailed_append (a b : List UsrsctpCall) :
    sendFailed (a ++ b) = (sendFailed a || sendFailed b) := List.any_append

@[simp] theorem sendFailed_cons (c : UsrsctpCall) (b : List UsrsctpCall) :
    sendFailed (c :: b) = (c.fatalSend || sendFailed b) := List.any_cons

@[simp] theorem sendFailed_nil : sendFailed [] = false := rfl

theorem HandlesSound.of_prefix {a b : List UsrsctpCall} (h : HandlesSound b) (hp : a <+: b) :
    HandlesSound a := by
  obtain ⟨more, rfl⟩ := hp
  intro before c after hd
  exact h before c (after ++ more) (by rw [hd, List.append_assoc, List.cons_append])

/-- A handle passed while it is not open. -/
theorem not_handlesSound {calls : List UsrsctpCall} {c : UsrsctpCall} {h : Option Sock}
    (hp : c.passed = some h) (hn : ¬IsOpen calls h) (more : List UsrsctpCall) :
    ¬HandlesSound (calls ++ c :: more) := fun hs => hn (hs calls c more rfl h hp)

/-- In a sound history only returned handles were closed. -/
theorem HandlesSound.closed_subset {calls : List UsrsctpCall} (h : HandlesSound calls) {s : Sock}
    (hs : s ∈ closed calls) : s ∈ returned calls := by
  obtain ⟨c, hc, hcs⟩ := List.mem_filterMap.mp hs
  obtain ⟨before, after, rfl⟩ := List.append_of_mem hc
  have hp : c.passed = some (some s) := by
    unfold UsrsctpCall.closed at hcs
    unfold UsrsctpCall.passed
    split at hcs
    · rename_i heq; rw [heq, hcs]
    · exact absurd hcs (by simp)
  obtain ⟨s', he, hr, -⟩ := h before c after rfl (some s) hp
  obtain rfl : s = s' := by simpa using he
  simp only [returned, List.filterMap_append]
  exact List.mem_append_left _ hr

/-! ### The phases -/

/-- `sock_` holds an open handle, and no send has failed for good. -/
structure Live (t : Transport υ) : Prop where
  sound : HandlesSound t.calls
  isOpen : IsOpen t.calls t.sock_
  fresh : ∀ s ∈ returned t.calls, s < t.nextSock
  unfailed : sendFailed t.calls = false

/-- A send failed for good, and `sock_` still holds the handle closed then. -/
structure GivenUp (t : Transport υ) : Prop where
  sound : HandlesSound t.calls
  isClosed : ∃ s, t.sock_ = some s ∧ s ∈ closed t.calls
  unshaken : t.bHandShakeDone = false
  failed : sendFailed t.calls = true

/-- The constructor returned without a socket, and `sock_` holds no handle of usrsctp.
`bHandShakeDone` was not set then; as long as it reads true nothing is cached for a client. -/
structure Unmade (cli : Bool) (t : Transport υ) : Prop where
  sound : HandlesSound t.calls
  unopened : ∀ s, t.sock_ = some s → s ∉ returned t.calls
  null : cli = true → t.sock_ = none
  idle : cli = true → t.bHandShakeDone = true → t.cache = []

/-- The phases of a transport that got a socket. -/
def Opened (t : Transport υ) : Prop := Live t ∨ GivenUp t

/-- The phases of a transport whose history is sound. -/
def Phase (cli : Bool) (t : Transport υ) : Prop := (cli = true ∧ Opened t) ∨ Unmade cli t

theorem Phase.sound {cli : Bool} {t : Transport υ} (h : Phase cli t) : HandlesSound t.calls := by
  rcases h with ⟨-, h | h⟩ | h <;> exact h.sound

/-- A call that passes no handle but `sock_`, returns none, closes none and does not fail for good
leaves the transport live. -/
theorem Live.snoc {t t' : Transport υ} (h : Live t) (c : UsrsctpCall)
    (hcalls : t'.calls = t.calls ++ [c]) (hsock : t'.sock_ = t.sock_)
    (hnext : t'.nextSock = t.nextSock) (hp : ∀ x, c.passed = some x → x = t.sock_)
    (hr : c.returned = none) (hc : c.closed = none) (hf : c.fatalSend = false) : Live t' := by
  obtain ⟨s, hs, hret, hcl⟩ := h.isOpen
  refine ⟨?_, ⟨s, by rw [hsock, hs], ?_, ?_⟩, ?_, ?_⟩
  · rw [hcalls, handlesSound_snoc]
    exact ⟨h.sound, fun x hx => (hp x hx) ▸ h.isOpen⟩
  · simpa [hcalls, hr] using hret
  · simpa [hcalls, hc] using hcl
  · simpa [hcalls, hr, hnext] using h.fresh
  · simp [hcalls, h.unfailed, hf]

theorem Live.sent {t : Transport υ} (h : Live t) (site : SendSite) (data : List UInt8)
    (info : SctpSndinfo) (hr : ¬((t.sendv u data info).val.ret < 0 ∧
      SendvResult.fatal (t.sendv u data info).val = true)) : Live (t.sent u site data info) := by
  refine h.snoc _ rfl rfl rfl ?_ rfl rfl ?_
  · rintro x hx
    exact (Option.some.inj hx).symm
  · simpa [UsrsctpCall.fatalSend] using hr

/-- Giving up after a send that failed for good. -/
theorem Live.giveUp {t : Transport υ} (h : Live t) (site : SendSite) (data : List UInt8)
    (info : SctpSndinfo) (hr : (t.sendv u data info).val.ret < 0)
    (hf : SendvResult.fatal (t.sendv u data info).val = true) (cache : List RuruCacheData) :
    GivenUp ({ t.sent u site data info with cache := cache }.giveUp u) := by
  obtain ⟨s, hs, hret, hcl⟩ := h.isOpen
  refine ⟨?_, ⟨s, hs, ?_⟩, rfl, ?_⟩
  · rw [Transport.giveUp, usrsctpClose, answer, handlesSound_snoc, Transport.sent, answer,
      handlesSound_snoc]
    refine ⟨⟨h.sound, fun x hx => (Option.some.inj hx) ▸ h.isOpen⟩, fun x hx => ?_⟩
    obtain rfl := Option.some.inj hx
    exact ⟨s, hs, by simpa [UsrsctpCall.returned] using hret,
      by simpa [UsrsctpCall.closed] using hcl⟩
  · simp [Transport.giveUp, usrsctpClose, Transport.sent, answer, UsrsctpCall.closed, hs]
  · simp [Transport.giveUp, usrsctpClose, Transport.sent, answer, UsrsctpCall.fatalSend, hr, hf]

/-! ### The operations, phase by phase -/

theorem flushCache_live : ∀ (cache : List RuruCacheData) (t : Transport υ), Live t →
    Live (flushCache u cache t).2 ∨
      ((flushCache u cache t).1 = false ∧ GivenUp (flushCache u cache t).2)
  | [], t, h => Or.inl ⟨h.sound, h.isOpen, h.fresh, h.unfailed⟩
  | d :: rest, t, h => by
    simp only [flushCache]
    set data := d.data.take (toSize d.length)
    by_cases hneg : (t.sendv u data (sndinfo d.param)).val.ret < 0
    · rw [if_pos hneg]
      by_cases hf : SendvResult.fatal (t.sendv u data (sndinfo d.param)).val = true
      · rw [if_pos hf]
        exact Or.inr ⟨rfl, h.giveUp u .cache data (sndinfo d.param) hneg hf (d :: rest)⟩
      · rw [if_neg hf]
        have hl := h.sent u .cache data (sndinfo d.param) (fun hh => hf hh.2)
        exact Or.inl ⟨hl.sound, hl.isOpen, hl.fresh, hl.unfailed⟩
    · rw [if_neg hneg]
      exact flushCache_live rest _ (h.sent u .cache data (sndinfo d.param) fun hh => hneg hh.1)

theorem sendSctpCacheData_live {t : Transport υ} (h : Live t) :
    Live (t.sendSctpCacheData u).2 ∨
      ((t.sendSctpCacheData u).1 = false ∧ GivenUp (t.sendSctpCacheData u).2) := by
  unfold sendSctpCacheData
  by_cases hs : t.bHandShakeDone = true
  · rw [if_pos hs]; exact flushCache_live u t.cache t h
  · rw [if_neg hs]; exact Or.inl h

/-- The flush only adds to the calls. -/
theorem prefix_flushCache (cache : List RuruCacheData) (t : Transport υ) :
    t.calls <+: (flushCache u cache t).2.calls := by
  induction cache generalizing t with
  | nil => exact List.prefix_rfl
  | cons d rest ih =>
    have hsent : t.calls <+: (t.sent u .cache (d.data.take (toSize d.length)) (sndinfo d.param)).calls :=
      List.prefix_append _ _
    simp only [flushCache]
    split_ifs
    · exact hsent.trans (List.prefix_append _ _)
    · exact hsent
    · exact hsent.trans (ih _)

/-- Whatever follows the flush only adds to the calls. -/
theorem prefix_sendUsrSctpData (t : Transport υ) (m : Option RuruSctpMessage) :
    (t.sendSctpCacheData u).2.calls <+: (t.sendUsrSctpData u m).2.calls := by
  unfold Transport.sendUsrSctpData
  dsimp only
  by_cases hf : (t.sendSctpCacheData u).1 = true
  · rw [if_pos hf]
    cases m with
    | none => exact List.prefix_rfl
    | some msg =>
      have hsent : (t.sendSctpCacheData u).2.calls <+:
          ((t.sendSctpCacheData u).2.sent u .direct msg.data (sndinfo msg.param)).calls :=
        List.prefix_append _ _
      dsimp only
      split_ifs
      · exact hsent.trans (List.prefix_append _ _)
      · exact hsent
      · exact hsent
      · exact List.prefix_rfl
  · rw [if_neg hf]
    cases m <;> exact List.prefix_rfl

/-- A flush that has something to send uses `sock_`, whatever it holds. -/
theorem flushCache_sends {t : Transport υ} (hclosed : ¬IsOpen t.calls t.sock_) (d : RuruCacheData)
    (rest : List RuruCacheData) : ¬HandlesSound (flushCache u (d :: rest) t).2.calls := by
  set data := d.data.take (toSize d.length) with hdata
  have hsent : ¬HandlesSound (t.sent u .cache data (sndinfo d.param)).calls :=
    not_handlesSound rfl hclosed []
  intro hs
  refine hsent (hs.of_prefix ?_)
  simp only [flushCache, ← hdata]
  split_ifs
  · exact List.prefix_append _ _
  · exact List.prefix_rfl
  · exact prefix_flushCache u rest _

/-- Without a socket the flush goes wrong unless it has nothing to do. -/
theorem sendSctpCacheData_unmade {cli : Bool} {t : Transport υ} (h : Unmade cli t) :
    (t.sendSctpCacheData u = (t.bHandShakeDone, t) ∧
        (t.bHandShakeDone = false ∨ cli = true ∨ t.cache = [])) ∨
      (¬HandlesSound (t.sendSctpCacheData u).2.calls ∧ t.bHandShakeDone = true ∧ cli = false ∧
        t.cache ≠ []) := by
  unfold sendSctpCacheData
  by_cases hs : t.bHandShakeDone = true
  · rw [if_pos hs]
    cases hcache : t.cache with
    | nil =>
      refine Or.inl ⟨?_, Or.inr (Or.inr rfl)⟩
      have ht : { t with cache := [] } = t := by rw [← hcache]
      exact Prod.ext hs.symm ht
    | cons d rest =>
      have hcli : cli = false := by
        by_contra hcli
        have hnil := h.idle (by simpa using hcli) hs
        rw [hcache] at hnil
        exact absurd hnil (by simp)
      refine Or.inr ⟨flushCache_sends u ?_ d rest, hs, hcli, by simp⟩
      rintro ⟨s, hsock, hret, -⟩
      exact h.unopened s hsock hret
  · rw [if_neg hs]
    have hs' : t.bHandShakeDone = false := by simpa using hs
    exact Or.inl ⟨by rw [hs'], Or.inl hs'⟩

theorem sendSctpCacheData_givenUp {t : Transport υ} (h : GivenUp t) :
    t.sendSctpCacheData u = (false, t) := by
  unfold sendSctpCacheData
  rw [if_neg (by simp [h.unshaken])]

theorem Live.push {t : Transport υ} (h : Live t) (m : Option RuruSctpMessage) :
    Live (t.pushMsg2ClientCache m) := by
  cases m <;> exact ⟨h.sound, h.isOpen, h.fresh, h.unfailed⟩

theorem GivenUp.push {t : Transport υ} (h : GivenUp t) (m : Option RuruSctpMessage) :
    GivenUp (t.pushMsg2ClientCache m) := by
  cases m <;> exact ⟨h.sound, h.isClosed, h.unshaken, h.failed⟩

theorem Unmade.push {cli : Bool} {t : Transport υ} (h : Unmade cli t)
    (hs : t.bHandShakeDone = false) (m : Option RuruSctpMessage) :
    Unmade cli (t.pushMsg2ClientCache m) := by
  cases m <;>
    exact ⟨h.sound, h.unopened, h.null, fun _ hh => absurd (hs.symm.trans hh) (by decide)⟩

theorem Live.sendUsrSctpData {t : Transport υ} (h : Live t) (m : Option RuruSctpMessage) :
    Opened (t.sendUsrSctpData u m).2 := by
  unfold Transport.sendUsrSctpData
  by_cases hf : (t.sendSctpCacheData u).1 = true
  · have hl : Live (t.sendSctpCacheData u).2 := by
      rcases sendSctpCacheData_live u h with hl | ⟨hl, -⟩
      · exact hl
      · rw [hl] at hf; exact absurd hf (by decide)
    simp only [if_pos hf]
    generalize (t.sendSctpCacheData u).2 = t at hl
    cases m with
    | none => exact Or.inl hl
    | some msg =>
      by_cases hs : t.bHandShakeDone = true
      · simp only [if_pos hs]
        by_cases hneg : (t.sendv u msg.data (sndinfo msg.param)).val.ret < 0
        · rw [if_pos hneg]
          by_cases hfat : SendvResult.fatal (t.sendv u msg.data (sndinfo msg.param)).val = true
          · rw [if_pos hfat]
            exact Or.inr (hl.giveUp u .direct msg.data (sndinfo msg.param) hneg hfat _)
          · rw [if_neg hfat]
            exact Or.inl ((hl.sent u .direct _ _ fun hh => hfat hh.2).push (some msg))
        · rw [if_neg hneg]
          exact Or.inl (hl.sent u .direct _ _ fun hh => hneg hh.1)
      · simp only [if_neg hs]
        exact Or.inl hl
  · simp only [if_neg hf]
    rcases sendSctpCacheData_live u h with hl | ⟨-, hl⟩
    · exact Or.inl (hl.push m)
    · exact Or.inr (hl.push m)

theorem Live.conninput {t : Transport υ} (h : Live t) (data : List UInt8) :
    Live (t.answer (.conninput data) (u.conninput t.usr data)) :=
  h.snoc _ rfl rfl rfl (fun _ hx => by simp [UsrsctpCall.passed] at hx) rfl rfl rfl

/-- The accepted socket replaces the listening one, which is closed. -/
theorem Live.accepted {t : Transport υ} (h : Live t) (r : Ret υ Bool) :
    Live { ({ t.answer (.accept t.sock_ (some t.nextSock)) r with
        nextSock := t.nextSock + 1 }.usrsctpClose u t.sock_) with
      sock_ := some t.nextSock, bHandShakeDone := true } := by
  obtain ⟨s, hs, hret, hcl⟩ := h.isOpen
  have hlt : s < t.nextSock := h.fresh s hret
  have hnew : t.nextSock ∉ closed t.calls := fun hin =>
    absurd (h.fresh _ (h.sound.closed_subset hin)) (Nat.lt_irrefl _)
  refine ⟨?_, ⟨t.nextSock, rfl, ?_, ?_⟩, ?_, ?_⟩
  · rw [usrsctpClose, answer, answer, handlesSound_snoc, handlesSound_snoc]
    refine ⟨⟨h.sound, fun x hx => (Option.some.inj hx) ▸ h.isOpen⟩, fun x hx => ?_⟩
    obtain rfl := Option.some.inj hx
    exact ⟨s, hs, by simp [hret], by simpa [UsrsctpCall.closed] using hcl⟩
  · simp [usrsctpClose, answer, UsrsctpCall.returned]
  · have hne : t.nextSock ≠ s := Nat.ne_of_gt hlt
    simpa [usrsctpClose, answer, UsrsctpCall.closed, hs, hne] using hnew
  · intro x hx
    have hx' : x ∈ returned t.calls ∨ x = t.nextSock := by
      simpa [usrsctpClose, answer, UsrsctpCall.returned] using hx
    rcases hx' with hx' | rfl
    · exact Nat.lt_succ_of_lt (h.fresh x hx')
    · exact Nat.lt_succ_self _
  · simp [usrsctpClose, answer, UsrsctpCall.fatalSend, h.unfailed]

theorem Live.recvUsrSctpData {t : Transport υ} (h : Live t) (data : Option (List UInt8)) :
    Live (t.recvUsrSctpData u data) := by
  cases data with
  | none => exact h
  | some data =>
    simp only [Transport.recvUsrSctpData]
    by_cases hs : t.bHandShakeDone = true
    · rw [if_pos hs]; exact h.conninput u data
    · rw [if_neg hs]
      by_cases ha : (u.accept t.usr t.sock_).val = true
      · rw [if_pos ha]; exact (h.accepted u _).conninput u data
      · rw [if_neg ha]
        refine Live.conninput u ?_ data
        exact h.snoc _ rfl rfl rfl (fun x hx => (Option.some.inj hx).symm) rfl rfl rfl

theorem Live.step {t : Transport υ} (h : Live t) (hcr : t.crashed = false) (op : SctpOp) :
    Opened (t.step u op) ∧ HandleSafe true t op := by
  have hsock : t.sock_.isSome = true := by
    obtain ⟨s, hs, -⟩ := h.isOpen
    rw [hs]; rfl
  rw [step_of_alive u hcr]
  cases op with
  | sendUsrSctpData m =>
    refine ⟨h.sendUsrSctpData u m, Or.inr ?_⟩
    cases m with
    | none => exact Or.inr (Or.inl rfl)
    | some msg => exact Or.inr ⟨rfl, hsock⟩
  | sendSctpCacheData =>
    refine ⟨?_, Or.inr (Or.inr (Or.inl rfl))⟩
    rcases sendSctpCacheData_live u h with hl | ⟨-, hl⟩
    · exact Or.inl hl
    · exact Or.inr hl
  | recvUsrSctpData data =>
    refine ⟨Or.inl (h.recvUsrSctpData u data), Or.inr ?_⟩
    cases data with
    | none => trivial
    | some data => exact Or.inr ⟨rfl, hsock, h.unfailed⟩

/-- Before the handshake a packet makes the code accept on `sock_`, whatever it holds. -/
theorem recvUsrSctpData_accepts {t : Transport υ} (hs : t.bHandShakeDone = false)
    (data : List UInt8) (hclosed : ¬IsOpen t.calls t.sock_) :
    ¬HandlesSound (t.recvUsrSctpData u (some data)).calls := by
  simp only [Transport.recvUsrSctpData, hs]
  by_cases ha : (u.accept t.usr t.sock_).val = true
  · simp only [if_pos ha, Bool.false_eq_true, if_false, answer, usrsctpClose, List.append_assoc,
      List.cons_append, List.nil_append]
    exact not_handlesSound rfl hclosed _
  · simp only [if_neg ha, Bool.false_eq_true, if_false, answer, List.append_assoc,
      List.cons_append, List.nil_append]
    exact not_handlesSound rfl hclosed _

theorem GivenUp.step {t : Transport υ} (h : GivenUp t) (hcr : t.crashed = false) (op : SctpOp) :
    (Opened (t.step u op) ∧ HandleSafe true t op) ∨
      (¬HandlesSound (t.step u op).calls ∧ ¬HandleSafe true t op) := by
  rw [step_of_alive u hcr]
  cases op with
  | sendUsrSctpData m =>
    refine Or.inl ⟨Or.inr ?_, Or.inr ?_⟩
    · simp only [sendUsrSctpData, sendSctpCacheData_givenUp u h]
      exact h.push m
    · cases m with
      | none => exact Or.inl h.unshaken
      | some msg => exact Or.inl h.unshaken
  | sendSctpCacheData =>
    refine Or.inl ⟨Or.inr ?_, Or.inr (Or.inl h.unshaken)⟩
    rw [sendSctpCacheData_givenUp u h]
    exact h
  | recvUsrSctpData data =>
    cases data with
    | none => exact Or.inl ⟨Or.inr h, Or.inr trivial⟩
    | some data =>
      refine Or.inr ⟨recvUsrSctpData_accepts u h.unshaken data ?_, ?_⟩
      · rintro ⟨s, hs, -, hcl⟩
        obtain ⟨s', hs', hin⟩ := h.isClosed
        obtain rfl : s' = s := Option.some.inj (hs'.symm.trans hs)
        exact hcl hin
      · simp [HandleSafe, hcr, h.unshaken, h.failed]

/-- A message that is sent on an object without a socket. -/
theorem Unmade.sendUsrSctpData {cli : Bool} {t : Transport υ} (h : Unmade cli t)
    (hs : t.bHandShakeDone = true) (hflush : t.sendSctpCacheData u = (t.bHandShakeDone, t))
    (msg : RuruSctpMessage) : ¬HandlesSound (t.sendUsrSctpData u (some msg)).2.calls := by
  have hsent : ¬HandlesSound (t.sent u .direct msg.data (sndinfo msg.param)).calls := by
    refine not_handlesSound rfl ?_ []
    rintro ⟨s, hsock, hret, -⟩
    exact h.unopened s hsock hret
  intro hsound
  refine hsent (hsound.of_prefix ?_)
  simp only [Transport.sendUsrSctpData, hflush, if_pos hs]
  split_ifs
  · exact List.prefix_append _ _
  · exact List.prefix_rfl
  · exact List.prefix_rfl

theorem Unmade.step {cli : Bool} {t : Transport υ} (h : Unmade cli t) (hcr : t.crashed = false)
    (op : SctpOp) : (Unmade cli (t.step u op) ∧ HandleSafe cli t op) ∨
      (¬HandlesSound (t.step u op).calls ∧ ¬HandleSafe cli t op) := by
  rw [step_of_alive u hcr]
  have hmade : ¬(cli = true ∧ t.sock_.isSome = true) := by
    rintro ⟨hcli, hsome⟩
    rw [h.null hcli] at hsome
    exact absurd hsome (by simp)
  cases op with
  | sendUsrSctpData m =>
    rcases sendSctpCacheData_unmade u h with ⟨hflush, hsafe⟩ | ⟨hbad, hs, hcli, hcache⟩
    · by_cases hs : t.bHandShakeDone = true
      · cases m with
        | none =>
          refine Or.inl ⟨?_, Or.inr hsafe⟩
          simp only [Transport.sendUsrSctpData, hflush, if_pos hs]
          exact h
        | some msg =>
          -- the flag was never set, and the message is sent on what `sock_` holds
          refine Or.inr ⟨h.sendUsrSctpData u hs hflush msg, ?_⟩
          rintro (hc | hc | hc)
          · exact absurd (hcr.symm.trans hc) (by decide)
          · exact absurd (hs.symm.trans hc) (by decide)
          · exact hmade hc
      · have hs' : t.bHandShakeDone = false := by simpa using hs
        refine Or.inl ⟨?_, Or.inr ?_⟩
        · simp only [Transport.sendUsrSctpData, hflush, if_neg hs]
          exact h.push hs' m
        · cases m with
          | none => exact hsafe
          | some msg => exact Or.inl hs'
    · refine Or.inr ⟨fun hsound => hbad (hsound.of_prefix (prefix_sendUsrSctpData u t m)), ?_⟩
      cases m <;> simp [HandleSafe, hcr, hs, hcli, hcache]
  | sendSctpCacheData =>
    rcases sendSctpCacheData_unmade u h with ⟨hflush, hsafe⟩ | ⟨hbad, hs, hcli, hcache⟩
    · refine Or.inl ⟨?_, Or.inr hsafe⟩
      show Unmade cli (t.sendSctpCacheData u).2
      rw [hflush]
      exact h
    · exact Or.inr ⟨hbad, by simp [HandleSafe, hcr, hs, hcli, hcache]⟩
  | recvUsrSctpData data =>
    cases data with
    | none => exact Or.inl ⟨h, Or.inr trivial⟩
    | some data =>
      by_cases hs : t.bHandShakeDone = true
      · refine Or.inl ⟨?_, Or.inr (Or.inl hs)⟩
        simp only [recvUsrSctpData, if_pos hs]
        refine ⟨?_, ?_, h.null, h.idle⟩
        · rw [answer, handlesSound_snoc]
          exact ⟨h.sound, fun x hx => by simp [UsrsctpCall.passed] at hx⟩
        · simpa [answer, UsrsctpCall.returned] using h.unopened
      · have hs' : t.bHandShakeDone = false := by simpa using hs
        refine Or.inr ⟨recvUsrSctpData_accepts u hs' data ?_, ?_⟩
        · rintro ⟨s, hsock, hret, -⟩
          exact h.unopened s hsock hret
        · rintro (hc | hc | ⟨hcli, hsome, -⟩)
          · exact absurd (hcr.symm.trans hc) (by decide)
          · exact hs hc
          · exact hmade ⟨hcli, hsome⟩

/-- In every phase a call keeps the history sound exactly when it is safe, and then stays within
the phases. -/
theorem Phase.step {cli : Bool} {t : Transport υ} (h : Phase cli t) (op : SctpOp) :
    (HandlesSound (t.step u op).calls ↔ HandleSafe cli t op) ∧
      (HandlesSound (t.step u op).calls → Phase cli (t.step u op)) := by
  by_cases hcr : t.crashed = true
  · have hstep : t.step u op = t := by unfold Transport.step; rw [if_pos hcr]
    rw [hstep]
    exact ⟨⟨fun _ => Or.inl hcr, fun _ => h.sound⟩, fun _ => h⟩
  · have hcr' : t.crashed = false := by simpa using hcr
    have hcase : (Phase cli (t.step u op) ∧ HandleSafe cli t op) ∨
        (¬HandlesSound (t.step u op).calls ∧ ¬HandleSafe cli t op) := by
      rcases h with ⟨rfl, h | h⟩ | h
      · exact Or.inl ⟨Or.inl ⟨rfl, (h.step u hcr' op).1⟩, (h.step u hcr' op).2⟩
      · exact (h.step u hcr' op).imp_left (And.imp_left fun ho => Or.inl ⟨rfl, ho⟩)
      · exact (h.step u hcr' op).imp_left (And.imp_left Or.inr)
    rcases hcase with ⟨hp, hs⟩ | ⟨hp, hs⟩
    · exact ⟨⟨fun _ => hs, fun _ => hp.sound⟩, fun _ => hp⟩
    · exact ⟨⟨fun hh => absurd hh hp, fun hh => absurd hh hs⟩, fun hh => absurd hh hp⟩

/-! ### The constructor and whole runs -/

/-- Closing the listening socket of a failed constructor. -/
theorem Live.closeSctpSocket {t : Transport υ} (h : Live t) (hc : t.cache = []) (cli : Bool) :
    Unmade cli (t.closeSctpSocket u) := by
  obtain ⟨s, hs, -⟩ := id h.isOpen
  simp only [Transport.closeSctpSocket, hs, Option.isSome_some, if_true, usrsctpClose, answer]
  refine ⟨?_, fun x hx => absurd hx (by simp), fun _ => rfl, fun _ _ => hc⟩
  rw [handlesSound_snoc]
  exact ⟨h.sound, fun x hx => by rw [← Option.some.inj hx, ← hs]; exact h.isOpen⟩

/-- Configuring the socket passes it to no function that the lifecycle is about. -/
theorem Live.configureSctpSocket {t : Transport υ} (h : Live t) (s : Sock) :
    Live (t.configureSctpSocket u s).2 ∧ (t.configureSctpSocket u s).2.cache = t.cache := by
  have quiet : ∀ (t : Transport υ), Live t → ∀ fn (r : Ret υ ℤ),
      UsrsctpCall.passed ⟨fn, r.callbacks⟩ = none → UsrsctpCall.returned ⟨fn, r.callbacks⟩ = none →
      UsrsctpCall.closed ⟨fn, r.callbacks⟩ = none → UsrsctpCall.fatalSend ⟨fn, r.callbacks⟩ = false →
      Live (t.answer fn r) := fun t ht fn r hp hr hc hf =>
    ht.snoc _ rfl rfl rfl (fun x hx => by rw [hp] at hx; exact absurd hx (by simp)) hr hc hf
  unfold Transport.configureSctpSocket
  have h1 := quiet t h (.setNonBlocking s (u.setNonBlocking t.usr s).val) (u.setNonBlocking t.usr s)
    rfl rfl rfl rfl
  dsimp only
  split_ifs
  · exact ⟨h1, rfl⟩
  · exact ⟨quiet _ h1 (.bind s _) _ rfl rfl rfl rfl, rfl⟩
  · exact ⟨quiet _ h1 (.bind s _) _ rfl rfl rfl rfl, rfl⟩

/-- The last part of the constructor, after `ConfigureSctpSocket`. -/
theorem Live.listen {c : Bool × Transport υ} (h : Live c.2) (hc : c.2.cache = []) (s : Sock) :
    let t := c.2.answer (.listen s (u.listen c.2.usr s).val) (u.listen c.2.usr s)
    Phase true (if c.1 = true then
        if (u.listen c.2.usr s).val < 0 then t.closeSctpSocket u
        else { t with bHandShakeDone := false }
      else c.2.closeSctpSocket u) := by
  have hl : Live (c.2.answer (.listen s (u.listen c.2.usr s).val) (u.listen c.2.usr s)) :=
    h.snoc _ rfl rfl rfl (fun x hx => by simp [UsrsctpCall.passed] at hx) rfl rfl rfl
  dsimp only
  split_ifs
  · exact Or.inr (hl.closeSctpSocket u hc true)
  · exact Or.inl ⟨rfl, Or.inl ⟨hl.sound, hl.isOpen, hl.fresh, hl.unfailed⟩⟩
  · exact Or.inr (h.closeSctpSocket u hc true)

theorem constructOn_phase (cli : Bool) (sock_ : Option Sock) (junk : Bool)
    (stray : List RuruCacheData) (usr : υ) (nextSock : Sock) :
    Phase cli (constructOn u cli sock_ junk stray usr nextSock) := by
  unfold constructOn ruruSctp
  cases cli with
  | false =>
    -- no handle has been returned, so what `sock_` holds is none
    rw [if_neg (by decide)]
    exact Or.inr ⟨handlesSound_nil, fun s _ => by simp, fun h => absurd h (by decide),
      fun h => absurd h (by decide)⟩
  | true =>
    rw [if_pos rfl]
    by_cases hr : (u.socket usr).val = true
    · have h0 : Live (⟨some nextSock, junk, [], (u.socket usr).usr, nextSock + 1,
          [⟨.socket (some nextSock), (u.socket usr).callbacks⟩], false⟩ : Transport υ) := by
        refine ⟨?_, ⟨nextSock, rfl, by simp [UsrsctpCall.returned],
          by simp [UsrsctpCall.closed]⟩, ?_, rfl⟩
        · exact (@handlesSound_snoc [] _).mpr
            ⟨handlesSound_nil, fun x hx => by simp [UsrsctpCall.passed] at hx⟩
        · intro s hs
          have hs' : s = nextSock := by simpa [UsrsctpCall.returned] using hs
          rw [hs']
          exact Nat.lt_succ_self _
      obtain ⟨h1, hc⟩ := h0.configureSctpSocket u nextSock
      dsimp only
      rw [if_pos hr]
      exact h1.listen u hc nextSock
    · simp only [if_neg hr, answer, List.nil_append]
      refine Or.inr ⟨?_, fun s hs => absurd hs (by simp), fun _ => rfl, fun _ _ => rfl⟩
      exact (@handlesSound_snoc [] _).mpr
        ⟨handlesSound_nil, fun x hx => by simp [UsrsctpCall.passed] at hx⟩

/-- **Handle lifecycle.**  Whatever the constructor was given and found in its memory, and whatever
usrsctp and `perror` do, every handle passed in a run of member functions is open when it is passed,
exactly if every call of the run is `HandleSafe`. -/
theorem handles_sound_iff_safe (cli : Bool) (sock_ : Option Sock) (junk : Bool)
    (stray : List RuruCacheData) (usr : υ) (nextSock : Sock) (ops : List SctpOp) :
    Lts.Always (Transport.Step u) (fun t => HandlesSound t.calls)
        (constructOn u cli sock_ junk stray usr nextSock) ops ↔
      Lts.Each (Transport.Step u) (HandleSafe cli)
        (constructOn u cli sock_ junk stray usr nextSock) ops := by
  have h0 := constructOn_phase u cli sock_ junk stray usr nextSock
  refine Lts.always_iff_each (I := Phase cli) ?_ ?_ h0 h0.sound ops
  · rintro t op _ hp - rfl
    exact (hp.step u op).1
  · rintro t op _ hp - rfl
    exact (hp.step u op).2

/-- The peer's packet after a send that failed for good: `usrsctp_accept` gets the socket closed
then. -/
theorem handles_unsound_after_failed_send :
    ¬HandlesSound ((constructOn scripted true none false [] [⟨-1, 104, 104⟩] 0).run scripted
      [.recvUsrSctpData (some [9]), .sendUsrSctpData (some ⟨[1], {}⟩),
        .recvUsrSctpData (some [9])]).calls := by
  refine @not_handlesSound
    [⟨.socket (some 0), []⟩, ⟨.setNonBlocking 0 0, []⟩, ⟨.bind 0 0, []⟩, ⟨.listen 0 0, []⟩,
      ⟨.accept (some 0) (some 1), []⟩, ⟨.close (some 0), []⟩, ⟨.conninput [9], []⟩,
      ⟨.sendv .direct (some 1) [1] ⟨0, 0⟩ ⟨-1, 104, 104⟩, []⟩, ⟨.close (some 1), []⟩]
    ⟨.accept (some 1) (some 2), []⟩ (some 1) rfl ?_ [⟨.close (some 1), []⟩, ⟨.conninput [9], []⟩]
  rintro ⟨s, hs, -, hopen⟩
  obtain rfl := Option.some.inj hs
  exact hopen (by decide)

end Ruru
