import Ruru.PlainLibs
import Ruru.Serving

/-!
# Ruru.RequestOutcome — a registration is all or nothing

However its receive loop was left, `HttpRequestHandle` has passed at most one response to
`SocketWrite`; it has added one client exactly if that was the 200, and nothing else about the
clients, the queue and the arena has changed.
-/

namespace Ruru

/-- The text an effect passes to `SocketWrite`. -/
def Effect.response : Effect → Option String
  | .socketWrite _ text => some text
  | _ => none

/-- The responses among some effects, in order. -/
def responses (effs : List Effect) : List String := effs.filterMap (·.response)

@[simp] theorem responses_append (a b : List Effect) :
    responses (a ++ b) = responses a ++ responses b := List.filterMap_append

@[simp] theorem responses_usrsctp (i : ℕ) (calls : List UsrsctpCall) :
    responses (calls.map (Effect.usrsctp i)) = [] := by
  unfold responses
  rw [List.filterMap_map, List.filterMap_eq_nil_iff]
  exact fun call _ => rfl

namespace RuruLoop

variable {σ υ : Type} (env : Env σ υ)

/-- While the socket of a new client is made, usrsctp has no association it could call back for. -/
def QuietConstructor (s : RuruLoop σ υ) : Prop :=
  ∀ call ∈ (Transport.construct env.usrsctp (env.junk s.clientMgr_.length) s.usr s.nextSock).calls,
    call.callbacks = []

theorem usrsctpDone_of_quiet (s : RuruLoop σ υ) (i : ℕ) {t : Transport υ}
    (h : ∀ call ∈ t.calls, call.callbacks = []) : s.usrsctpDone env i t =
      { s with usr := t.usr, nextSock := t.nextSock,
               trace := s.trace ++ t.calls.map (Effect.usrsctp i) } := by
  have hnone : t.calls.flatMap UsrsctpCall.callbacks = [] := List.flatMap_eq_nil_iff.mpr h
  unfold usrsctpDone
  rw [hnone]
  rfl

/-- A registration adds one client, with the address and with the queue and the arena of the loop. -/
theorem registerClient_spec (s : RuruLoop σ υ) (h : s.QuietConstructor env) (address : RuruAddress) :
    ∃ (calls : List UsrsctpCall) (client : RuruClient σ), (s.registerClient env address).trace =
        s.trace ++ calls.map (Effect.usrsctp s.clientMgr_.length) ∧
      (s.registerClient env address).clientMgr_ = s.clientMgr_ ++ [client] ∧
      (s.registerClient env address).que_ = s.que_ ∧
      (s.registerClient env address).arena_ = s.arena_ ∧
      client.address = address ∧ client.que = some s.this ∧ client.arena = some s.this := by
  unfold registerClient
  dsimp only
  rw [s.usrsctpDone_of_quiet env s.clientMgr_.length h]
  exact ⟨_, _, rfl, rfl, rfl, rfl, rfl, rfl, rfl⟩

/-- **All or nothing.**  Whatever the reads of a connection delivered, when `HttpRequestHandle` has
returned there is at most one response; either it is the 200, and one client was appended with the
address `BodyParse` found and with the queue and the arena of this loop, or it is not, and the clients
are as before; the queue and the arena are as before in any case. -/
theorem registration_all_or_nothing (s s' : RuruLoop σ υ) (c : ConId) (con : RuruConnectionData)
    (reads : List ReadResult) (hquiet : s.QuietConstructor env)
    (h : s.httpRequestHandle env c con reads = some s') :
    (∃ effs, s'.trace = s.trace ++ effs ∧ (responses effs).length ≤ 1 ∧
      ((responses effs = [httpOk] ∧ ∃ client, s'.clientMgr_ = s.clientMgr_ ++ [client] ∧
          requestAddress env con reads = some client.address ∧
          client.que = some s.this ∧ client.arena = some s.this) ∨
        (httpOk ∉ responses effs ∧ s'.clientMgr_ = s.clientMgr_))) ∧
      s'.que_ = s.que_ ∧ s'.arena_ = s.arena_ := by
  obtain ⟨t, ht, rfl⟩ := answer_of_httpRequestHandle env h
  generalize requestAddress env con reads = address at ht
  cases ht with
  | silent =>
    refine ⟨⟨[.close con.fd, .deleteCon c], rfl, by simp [responses, Effect.response], Or.inr ?_⟩,
      rfl, rfl⟩
    exact ⟨by simp [responses, Effect.response], rfl⟩
  | badRequest =>
    have heffs : responses [.socketWrite con.fd HTTP_BAD_REQUEST, .close con.fd, .deleteCon c] =
        [HTTP_BAD_REQUEST] := rfl
    refine ⟨⟨[.socketWrite con.fd HTTP_BAD_REQUEST, .close con.fd, .deleteCon c], ?_, ?_, ?_⟩,
      rfl, rfl⟩
    · show s.trace ++ [_] ++ [_, _] = _
      rw [List.append_assoc]
      rfl
    · rw [heffs]
      exact le_refl 1
    · refine Or.inr ⟨?_, rfl⟩
      rw [heffs, List.mem_singleton]
      exact bad_request_ne_ok.symm
  | ok address =>
    obtain ⟨calls, client, htrace, hclients, hque, harena, haddress, hq, ha⟩ :=
      s.registerClient_spec env hquiet address
    refine ⟨⟨calls.map (Effect.usrsctp s.clientMgr_.length) ++
      [.registered s.clientMgr_.length address, .socketWrite con.fd httpOk, .close con.fd,
        .deleteCon c], ?_, ?_, Or.inl ⟨?_, client, hclients, ?_, hq, ha⟩⟩, hque, harena⟩
    · show (s.registerClient env address).trace ++ [_] ++ [_] ++ [_, _] = _
      rw [htrace]
      simp only [List.append_assoc]
      rfl
    · rw [responses_append, responses_usrsctp]
      exact le_refl 1
    · rw [responses_append, responses_usrsctp]
      rfl
    · rw [haddress]

/-- The sample request, in one piece. -/
theorem registration_of_sample_request :
    ∃ s', sampleLoop.httpRequestHandle plainEnv 2 ⟨5, fun _ => 0, 0⟩ [.bytes sampleRequest] = some s' ∧
      (∃ effs, s'.trace = sampleLoop.trace ++ effs ∧ (responses effs).length ≤ 1 ∧
        ((responses effs = [httpOk] ∧ ∃ client, s'.clientMgr_ = sampleLoop.clientMgr_ ++ [client] ∧
            requestAddress plainEnv ⟨5, fun _ => 0, 0⟩ [.bytes sampleRequest] = some client.address ∧
            client.que = some sampleLoop.this ∧ client.arena = some sampleLoop.this) ∨
          (httpOk ∉ responses effs ∧ s'.clientMgr_ = sampleLoop.clientMgr_))) ∧
        s'.que_ = sampleLoop.que_ ∧ s'.arena_ = sampleLoop.arena_ := by
  have hreturns : (sampleLoop.httpRequestHandle plainEnv 2 ⟨5, fun _ => 0, 0⟩
      [.bytes sampleRequest]).isSome = true := by decide +kernel
  obtain ⟨s', h⟩ := Option.isSome_iff_exists.mp hreturns
  have hquiet : sampleLoop.QuietConstructor plainEnv := by
    have hall : (Transport.construct plainEnv.usrsctp (plainEnv.junk sampleLoop.clientMgr_.length)
        sampleLoop.usr sampleLoop.nextSock).calls.all (·.callbacks.isEmpty) = true := by
      decide +kernel
    intro call hcall
    exact List.isEmpty_iff.mp (List.all_eq_true.mp hall call hcall)
  exact ⟨s', h, registration_all_or_nothing plainEnv sampleLoop s' 2 _ _ hquiet h⟩

end RuruLoop

end Ruru
