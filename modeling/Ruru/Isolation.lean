import Ruru.Delivery
import Ruru.Dispatch
import Ruru.Runs

/-!
# Ruru.Isolation — what one client can do to the messages of another

All clients of a loop share its arena and its queue, and the arena is reset only when the queue is
found empty.  What is queued for a client depends on the others in one way only: whether its messages
find room in the arena.
-/

namespace Ruru

open Memory Relation

variable {σ υ : Type} (env : Env σ υ)

/-- What happens at the queue and the arena: a call of `Loop`, an inbound message for a client of the
loop, or anything else. -/
inductive Act where
  | poll
  | message (client : ℕ) (data : Inbound) (rcv : SctpRcvinfo)
  | other

/-- A data event, with the bytes in its block. -/
structure QueuedData where
  bytes : List UInt8
  length : ℕ
  param : RuruDataParam

/-- The event for a message, when there is room for it. -/
def queuedData (data : Inbound) (rcv : SctpRcvinfo) : QueuedData :=
  ⟨data.1.take (toUint16 data.1.length), toUint16 data.1.length, RuruLoop.dataParam rcv⟩

namespace RuruLoop

/-- Client `i` is registered, and `AttachClientInfo` was called on it. -/
def Attached (s : RuruLoop σ υ) (i : ℕ) : Prop :=
  ∃ client, s.clientMgr_[i]? = some client ∧ client.que.isSome = true

/-- The arena has room for a message. -/
def HasRoom (s : RuruLoop σ υ) (data : Inbound) : Prop :=
  1 ≤ data.1.length ∧ s.arena_.pos + data.1.length ≤ s.arena_.capacity

instance (s : RuruLoop σ υ) (data : Inbound) : Decidable (s.HasRoom data) :=
  inferInstanceAs (Decidable (_ ∧ _))

/-- One act.  What is neither a call of `Loop` nor a message leaves the arena alone and queues no data
event. -/
inductive Acts : RuruLoop σ υ → Act → RuruLoop σ υ → Prop
  | poll (s : RuruLoop σ υ) : Acts s .poll (s.updateEvent {}).2.2
  | message {s : RuruLoop σ υ} {i : ℕ} (attached : s.Attached i) (data : Inbound)
      (rcv : SctpRcvinfo) : Acts s (.message i data rcv) (s.pushClientRecvData i data rcv)
  | other {s s' : RuruLoop σ υ} (new : List RuruEvent) (arena : s'.arena_ = s.arena_)
      (events : s'.pushedEvents = s.pushedEvents ++ new) (apart : ∀ e ∈ new, e.type ≠ .evtRecvClientData) :
      Acts s .other s'

/-! ### Every run is made of acts -/

/-- What client `b` has to do with an act: it is a call of `Loop`, or a message of that client. -/
def actFor (b : ℕ) : Act → Option (Option (Inbound × SctpRcvinfo))
  | .poll => some none
  | .message i data rcv => if i = b then some (some (data, rcv)) else none
  | .other => none

/-- The messages of client `b` in the order of arrival. -/
def messagesFor (b : ℕ) (acts : List Act) : List (Inbound × SctpRcvinfo) :=
  (acts.filterMap (actFor b)).reduceOption

theorem messagesFor_append (b : ℕ) (acts acts' : List Act) :
    messagesFor b (acts ++ acts') = messagesFor b acts ++ messagesFor b acts' := by
  rw [messagesFor, List.filterMap_append, List.reduceOption_append]
  rfl

/-- The messages for client `b` that usrsctp delivers in some callbacks. -/
def deliveredTo (b : ℕ) (cbs : List SctpCallback) : List (Inbound × SctpRcvinfo) :=
  cbs.filterMap fun
    | .inbound i data rcv => if i = b then some (data, rcv) else none
    | .outbound .. => none

/-- The callbacks made in the calls that some effects show. -/
def callbacksIn (es : List Effect) : List SctpCallback :=
  es.flatMap fun
    | .usrsctp _ call => call.callbacks
    | _ => []

theorem deliveredTo_append (b : ℕ) (cbs cbs' : List SctpCallback) :
    deliveredTo b (cbs ++ cbs') = deliveredTo b cbs ++ deliveredTo b cbs' := List.filterMap_append

theorem callbacksIn_append (es es' : List Effect) :
    callbacksIn (es ++ es') = callbacksIn es ++ callbacksIn es' := List.flatMap_append

theorem callbacksIn_eq_nil {es : List Effect} (h : ∀ e ∈ es, ∀ i call, e ≠ .usrsctp i call) :
    callbacksIn es = [] := by
  refine List.flatMap_eq_nil_iff.mpr fun e he => ?_
  cases e with
  | usrsctp i call => exact absurd rfl (h _ he i call)
  | _ => rfl

theorem callbacksIn_usrsctp (i : ℕ) (calls : List UsrsctpCall) :
    callbacksIn (calls.map (Effect.usrsctp i)) = calls.flatMap UsrsctpCall.callbacks := by
  rw [callbacksIn, List.flatMap_map]

/-- A callback does not call usrsctp. -/
theorem CallbackWork.callsNothing {s s' : RuruLoop σ υ} (h : CallbackWork s s') :
    ∃ es, s'.trace = s.trace ++ es ∧ callbacksIn es = [] := by
  obtain ⟨es, he, hes⟩ := h.effects
  refine ⟨es, he, callbacksIn_eq_nil fun e hmem i call heq => ?_⟩
  have hwork := hes e hmem
  rw [heq] at hwork
  exact absurd hwork (by simp [Effect.isCallbackWork])

/-- What the loop does besides is no message. -/
theorem Aside.acts {fixed : Bool} {s s' : RuruLoop σ υ} (h : Aside fixed s s') : Acts s .other s' :=
  .other [] h.1.arena (by rw [pushedEvents, h.pushed, List.append_nil, pushedEvents]) (by simp)

/-- A callback is one act: a message if it brings one for a client of the loop. -/
theorem acts_of_callback (s : RuruLoop σ υ) (cb : SctpCallback) : ∃ a, a ≠ .poll ∧
    Acts s a (s.callback env cb) ∧ ∀ b, s.Attached b → messagesFor b [a] = deliveredTo b [cb] := by
  cases cb with
  | inbound i data rcv =>
    by_cases hatt : s.Attached i
    · refine ⟨.message i data rcv, by simp, .message hatt data rcv, fun b _ => ?_⟩
      by_cases hib : i = b <;> simp [messagesFor, actFor, deliveredTo, hib, List.reduceOption]
    · have hsame : s.pushClientRecvData i data rcv = s := by
        unfold pushClientRecvData
        cases hi : s.clientMgr_[i]? with
        | none => rfl
        | some client => exact if_neg fun hq => hatt ⟨client, hi, hq⟩
      refine ⟨.other, by simp, ?_, fun b hb => ?_⟩
      · rw [show s.callback env (.inbound i data rcv) = s from hsame]
        exact (aside_refl s : Aside true s s).acts
      · have hib : i ≠ b := fun h => hatt (h ▸ hb)
        simp [messagesFor, actFor, deliveredTo, hib, List.reduceOption]
  | outbound addr data =>
    refine ⟨.other, by simp, ?_, fun b _ => rfl⟩
    show Acts s .other (s.onSctpOutboundPacket env addr data)
    unfold onSctpOutboundPacket
    by_cases hlen : data.length < sizeofSctpHeader
    · rw [if_pos hlen]
      exact (aside_refl s : Aside true s s).acts
    · rw [if_neg hlen]
      split
      · exact (aside_refl s : Aside true s s).acts
      · split_ifs
        · exact .other [{ type := .evtHeartBeat, client := some addr }] rfl
            (by simp [pushedEvents, pushed]) (by simp)
        · exact (aside_clientSendData env s addr data : Aside true s _).acts

/-- The clients that are attached stay so. -/
theorem Attached.of_ques {s s' : RuruLoop σ υ} {b : ℕ} (h : s.Attached b)
    (ques : s.clientMgr_.map (·.que) <+: s'.clientMgr_.map (·.que)) : s'.Attached b := by
  obtain ⟨client, hi, hq⟩ := h
  have hque : (s.clientMgr_.map (·.que))[b]? = some client.que := by rw [List.getElem?_map, hi]; rfl
  obtain ⟨more, hmore⟩ := ques
  have hque' : (s'.clientMgr_.map (·.que))[b]? = some client.que := by
    rw [← hmore, List.getElem?_append_left (List.getElem?_eq_some_iff.mp hque).1, hque]
  rw [List.getElem?_map] at hque'
  obtain ⟨client', hi', hq'⟩ := Option.map_eq_some_iff.mp hque'
  exact ⟨client', hi', by rw [hq']; exact hq⟩

theorem ques_of_statics {s s' : RuruLoop σ υ} (h : s'.statics = s.statics) :
    s.clientMgr_.map (·.que) <+: s'.clientMgr_.map (·.que) := by
  have hques : s'.clientMgr_.map (·.que) = s.clientMgr_.map (·.que) := by
    simpa [RuruLoop.statics, Function.comp_def, RuruClient.statics] using
      congrArg (List.map ClientStatics.que) h
  rw [hques]

theorem Apart.ques {fixed : Bool} {s s' : RuruLoop σ υ} (h : Apart fixed s s') :
    s.clientMgr_.map (·.que) <+: s'.clientMgr_.map (·.que) := by
  have hques : s'.clientMgr_.map (·.que) = s.clientMgr_.map (·.que) := by
    simpa [RuruLoop.seats, Function.comp_def, RuruClient.seat] using
      congrArg (List.map Prod.snd) h.seats
  rw [hques]

/-- The acts of some callbacks are the messages they bring. -/
theorem acts_of_callbacks (s : RuruLoop σ υ) (cbs : List SctpCallback) :
    ∃ acts, .poll ∉ acts ∧ Lts.Path Acts s acts (s.callbacks env cbs) ∧
      ∀ b, s.Attached b → messagesFor b acts = deliveredTo b cbs := by
  induction cbs generalizing s with
  | nil => exact ⟨[], List.not_mem_nil, rfl, fun _ _ => rfl⟩
  | cons cb cbs ih =>
    obtain ⟨a, ha, hact, hone⟩ := acts_of_callback env s cb
    obtain ⟨acts, hpoll, hpath, hrest⟩ := ih (s.callback env cb)
    refine ⟨a :: acts, ?_, ⟨_, hact, hpath⟩, fun b hb => ?_⟩
    · rw [List.mem_cons, not_or]
      exact ⟨fun h => ha h.symm, hpoll⟩
    · have hb' : (s.callback env cb).Attached b :=
        hb.of_ques (ques_of_statics (work_callback env s cb).statics)
      rw [← List.singleton_append, messagesFor_append, hone b hb, hrest b hb', ← deliveredTo_append]
      rfl

/-- The step lemma: the acts of an exchange are the messages that usrsctp delivers in it. -/
theorem acts_of_exchange {s s' : RuruLoop σ υ} (h : Exchange env false s s') :
    ∃ acts es, .poll ∉ acts ∧ Lts.Path Acts s acts s' ∧ s'.trace = s.trace ++ es ∧
      ∀ b, s.Attached b → s'.Attached b ∧ messagesFor b acts = deliveredTo b (callbacksIn es) := by
  cases h with
  | aside aside =>
    obtain ⟨apart, es, trace, plain⟩ := id aside
    have hnone : callbacksIn es = [] := callbacksIn_eq_nil fun e he i call heq => by
      have hp := plain e he
      rw [heq] at hp
      exact absurd hp (by simp [Effect.isAside])
    refine ⟨[.other], es, by simp, ⟨_, aside.acts, rfl⟩, trace, fun b hb => ⟨hb.of_ques apart.ques, ?_⟩⟩
    rw [hnone]
    rfl
  | @called t apart i calls trace =>
    obtain ⟨acts, hpoll, hpath, hall⟩ := acts_of_callbacks env t (calls.flatMap UsrsctpCall.callbacks)
    have hwork := work_callbacks env t (calls.flatMap UsrsctpCall.callbacks)
    obtain ⟨es, he, hnone⟩ := hwork.callsNothing
    have hstart : Acts s .other t := by
      refine .other [] apart.arena ?_ (by simp)
      rw [pushedEvents, pushedEvents, trace, pushed_append, pushed_eq_nil (isPlain_usrsctp i calls),
        List.append_nil, List.append_nil]
    refine ⟨.other :: acts, calls.map (Effect.usrsctp i) ++ es, by simpa using hpoll,
      ⟨_, hstart, hpath⟩, by rw [he, trace, List.append_assoc], fun b hb => ?_⟩
    have hb' : t.Attached b := hb.of_ques apart.ques
    refine ⟨hb'.of_ques (ques_of_statics hwork.statics), ?_⟩
    rw [callbacksIn_append, hnone, List.append_nil, callbacksIn_usrsctp, ← hall b hb']
    rfl
  | @scan i known =>
    have hact : Acts s .other (s.push (cacheWake i) none) :=
      .other [cacheWake i] rfl (by simp [pushedEvents, RuruLoop.push, pushed]) (by simp [cacheWake])
    exact ⟨[.other], [.push (cacheWake i) none], by simp, ⟨_, hact, rfl⟩, rfl, fun b hb => ⟨hb, rfl⟩⟩
  | @take i client known beat ring read =>
    have hact : Acts s .other (s.takeBeat i beat ring) :=
      .other [] rfl (by simp [pushedEvents, pushed, trace_takeBeat]) (by simp)
    refine ⟨[.other], _, by simp, ⟨_, hact, rfl⟩, trace_takeBeat .., fun b hb => ?_⟩
    refine ⟨hb.of_ques ?_, rfl⟩
    rw [show (s.takeBeat i beat ring).clientMgr_.map (·.que) = s.clientMgr_.map (·.que) from
      map_updateClient (·.que) s i fun c _ => rfl]
  | @enroll client empty size =>
    have hact : Acts s .other { s with
        clientMgr_ := s.clientMgr_ ++ [client]
        trace := s.trace ++ [.registered s.clientMgr_.length client.address] } :=
      .other [] rfl (by simp [pushedEvents, pushed]) (by simp)
    refine ⟨[.other], _, by simp, ⟨_, hact, rfl⟩, rfl, fun b hb => ⟨hb.of_ques ?_, rfl⟩⟩
    rw [List.map_append]
    exact List.prefix_append _ _

/-- The run lemma. -/
theorem acts_of_exchanges {s s' : RuruLoop σ υ} (h : Exchanges env false s s') :
    ∃ acts es, .poll ∉ acts ∧ Lts.Path Acts s acts s' ∧ s'.trace = s.trace ++ es ∧
      ∀ b, s.Attached b → s'.Attached b ∧ messagesFor b acts = deliveredTo b (callbacksIn es) := by
  induction h with
  | refl => exact ⟨[], [], List.not_mem_nil, rfl, (List.append_nil _).symm, fun b hb => ⟨hb, rfl⟩⟩
  | tail _ hlast ih =>
    obtain ⟨acts, es, hpoll, hpath, he, hall⟩ := ih
    obtain ⟨acts', es', hpoll', hpath', he', hall'⟩ := acts_of_exchange env hlast
    refine ⟨acts ++ acts', es ++ es', ?_, hpath.append hpath', by rw [he', he, List.append_assoc],
      fun b hb => ?_⟩
    · rw [List.mem_append, not_or]
      exact ⟨hpoll, hpoll'⟩
    · obtain ⟨hmid, hmsgs⟩ := hall b hb
      obtain ⟨hend, hmsgs'⟩ := hall' b hmid
      refine ⟨hend, ?_⟩
      rw [messagesFor_append, hmsgs, hmsgs', callbacksIn_append, deliveredTo_append]

end RuruLoop

/-- An input may be a callback, between the calls of the application. -/
def LoopInput.callbacks : LoopInput → List SctpCallback
  | .callback cb => [cb]
  | _ => []

namespace PolledLoop

open RuruLoop

/-- The acts of a step: a call of `Loop` begins with a poll, and there is no poll elsewhere. -/
def PollsOnce : LoopInput → List Act → Prop
  | .loop .., acts => ∃ rest, acts = .poll :: rest ∧ .poll ∉ rest
  | _, acts => .poll ∉ acts

/-- Every step of a loop is made of acts, and for a client that is registered its messages among them
are those that usrsctp delivers in the step. -/
theorem step_acts {st st' : PolledLoop σ υ} {input : LoopInput} (hs : Step env st input st') :
    ∃ acts, PollsOnce input acts ∧ Lts.Path Acts st.ruru acts st'.ruru ∧
      ∀ b, st.ruru.Attached b → messagesFor b acts = deliveredTo b (input.callbacks ++
        callbacksIn (st'.ruru.trace.drop st.ruru.trace.length)) := by
  have hsend : ∀ {s' : RuruLoop σ υ}, Exchanges env false st.ruru s' → ∃ acts, .poll ∉ acts ∧
      Lts.Path Acts st.ruru acts s' ∧ ∀ b, st.ruru.Attached b →
        messagesFor b acts = deliveredTo b (callbacksIn (s'.trace.drop st.ruru.trace.length)) := by
    intro s' hx
    obtain ⟨acts, es, hpoll, hpath, he, hall⟩ := acts_of_exchanges env hx
    refine ⟨acts, hpoll, hpath, fun b hb => ?_⟩
    rw [he, List.drop_left]
    exact (hall b hb).2
  cases input with
  | loop fuel evt batch =>
    obtain ⟨⟨haveData, evt', ruru⟩, hl, rfl⟩ := Option.map_eq_some_iff.mp hs
    rcases RuruLoop.loop_exchanges env hl with ⟨rest, hq, -, rfl⟩ | ⟨hq, -, hx⟩
    · refine ⟨[.poll], ⟨[], rfl, List.not_mem_nil⟩, ⟨_, .poll st.ruru, ?_⟩, fun b _ => ?_⟩
      · simp [Lts.Path, updateEvent, hq]
      · show [] = deliveredTo b (callbacksIn (st.ruru.trace.drop _))
        rw [List.drop_length]
        rfl
    · obtain ⟨acts, es, hpoll, hpath, he, hall⟩ := acts_of_exchanges env hx
      refine ⟨.poll :: acts, ⟨acts, rfl, hpoll⟩, ⟨_, .poll st.ruru, ?_⟩, fun b hb => ?_⟩
      · simpa [updateEvent, hq] using hpath
      · show messagesFor b acts = deliveredTo b (callbacksIn (ruru.trace.drop st.ruru.trace.length))
        rw [show ruru.trace = st.ruru.trace ++ es from he, List.drop_left]
        exact (hall b hb).2
  | callback cb =>
    cases hs
    obtain ⟨a, ha, hact, hone⟩ := acts_of_callback env st.ruru cb
    refine ⟨[a], ?_, ⟨_, hact, rfl⟩, fun b hb => ?_⟩
    · show .poll ∉ [a]
      rw [List.mem_singleton]
      exact fun h => ha h.symm
    · obtain ⟨es, he, hnone⟩ := (work_callback env st.ruru cb).callsNothing
      show messagesFor b [a] = deliveredTo b ([cb] ++ callbacksIn _)
      rw [hone b hb, he, List.drop_left, hnone, List.append_nil]
  | sendUsrSctpData client msg =>
    cases hs
    exact hsend (exchanges_sendUsrSctpData env st.ruru client msg)
  | sendSctpCacheData client =>
    cases hs
    exact hsend (exchanges_sendSctpCacheData env st.ruru client)
  | clientSendHeartBeatData client =>
    cases hs
    exact hsend (exchanges_clientSendHeartBeatData env st.ruru client)

end PolledLoop

/-! ### What is queued for a client -/

/-- For the messages of a client: which of them found room, and the data events queued. -/
structure Watch where
  rooms : List Bool := []
  seen : List QueuedData := []

namespace RuruLoop

/-- The data events that `s'` has queued for client `b` since `s`. -/
def queuedFor (b : ℕ) (s s' : RuruLoop σ υ) : List QueuedData :=
  ((s'.pushedEvents.drop s.pushedEvents.length).filter fun evt =>
    evt.type == .evtRecvClientData && evt.client == some b).map fun evt =>
      ⟨load s'.arena_.memory (evt.data.getD 0) evt.length, evt.length, evt.param⟩

/-- Whether a message of client `b` finds room. -/
def roomFor (b : ℕ) (s : RuruLoop σ υ) : Act → List Bool
  | .message i data _ => if i = b then [decide (s.HasRoom data)] else []
  | _ => []

/-- One act, watched for client `b`. -/
def Observes (b : ℕ) (o : RuruLoop σ υ × Watch) (a : Act) (o' : RuruLoop σ υ × Watch) : Prop :=
  Acts o.1 a o'.1 ∧ o'.2 = ⟨o.2.rooms ++ roomFor b o.1 a, o.2.seen ++ queuedFor b o.1 o'.1⟩

/-- The events for the messages that find room. -/
def select (messages : List (Inbound × SctpRcvinfo)) (rooms : List Bool) : List QueuedData :=
  (messages.zip rooms).filterMap fun x => if x.2 then some (queuedData x.1.1 x.1.2) else none

/-- Nothing is queued for `b` by an act that pushes no data event for it. -/
theorem queuedFor_eq_nil {b : ℕ} {s s' : RuruLoop σ υ} (new : List RuruEvent)
    (events : s'.pushedEvents = s.pushedEvents ++ new)
    (apart : ∀ e ∈ new, e.type ≠ .evtRecvClientData ∨ e.client ≠ some b) : queuedFor b s s' = [] := by
  rw [queuedFor, events, List.drop_left, List.map_eq_nil_iff, List.filter_eq_nil_iff]
  intro e he
  rcases apart e he with htype | hclient
  · simp [htype]
  · simp [hclient]

/-- A message that finds room. -/
theorem queuedFor_message {b i : ℕ} {s : RuruLoop σ υ} (hatt : s.Attached i) {data : Inbound}
    (hroom : s.HasRoom data) (rcv : SctpRcvinfo) :
    queuedFor b s (s.pushClientRecvData i data rcv) = if i = b then [queuedData data rcv] else [] := by
  obtain ⟨client, hi, hq⟩ := hatt
  obtain ⟨arena, -, -, -, he⟩ := pushClientRecvData_room hi hq hroom.1 hroom.2 rcv
  have hevents : (s.pushClientRecvData i data rcv).pushedEvents = s.pushedEvents ++
      [recvEvent i s.arena_.pos.toNat data rcv] := by
    rw [he]
    simp [pushedEvents, RuruLoop.push, pushed]
  by_cases hib : i = b
  · subst hib
    rw [queuedFor, hevents, List.drop_left, if_pos rfl]
    have hload : load (s.pushClientRecvData i data rcv).arena_.memory s.arena_.pos.toNat
        (toUint16 data.1.length) = data.1.take (toUint16 data.1.length) := by
      calc load (s.pushClientRecvData i data rcv).arena_.memory s.arena_.pos.toNat
            (toUint16 data.1.length)
        _ = (load (s.pushClientRecvData i data rcv).arena_.memory s.arena_.pos.toNat
            data.1.length).take (toUint16 data.1.length) := by
          rw [take_load, Nat.min_eq_left (toUint16_le _)]
        _ = data.1.take (toUint16 data.1.length) := by
          rw [he]
          exact congrArg _ (load_store _ _ _)
    simp [recvEvent, queuedData, hload]
  · rw [if_neg hib]
    refine queuedFor_eq_nil _ hevents fun e hmem => Or.inr ?_
    rw [List.mem_singleton.mp hmem]
    exact fun h => hib (Option.some.inj h)

/-- A message that finds no room changes nothing. -/
theorem pushClientRecvData_full {s : RuruLoop σ υ} {data : Inbound} (hroom : ¬s.HasRoom data) (i : ℕ)
    (rcv : SctpRcvinfo) : s.pushClientRecvData i data rcv = s := by
  rcases pushClientRecvData_cases s i data rcv with he | ⟨p, arena, -, ha, -⟩
  · exact he
  · rw [toInt32_natCast data.2] at ha
    exfalso
    by_cases h1 : 1 ≤ data.1.length
    · rcases s.arena_.arenaAlloc_cases h1 with ⟨hfail, -⟩ | ⟨a', -, -, -, -, hfits⟩
      · rw [hfail] at ha
        exact absurd (Prod.mk.inj ha).1 (by simp)
      · exact hroom ⟨h1, hfits⟩
    · rw [RuruArena.arenaAlloc, dif_pos (by omega)] at ha
      exact absurd (Prod.mk.inj ha).1 (by simp)

/-- One act: what is queued for `b` is what its message is when it finds room. -/
theorem queuedFor_acts {b : ℕ} {s s' : RuruLoop σ υ} {a : Act} (h : Acts s a s') :
    queuedFor b s s' = select (messagesFor b [a]) (roomFor b s a) ∧
      (roomFor b s a).length = (messagesFor b [a]).length := by
  cases h with
  | poll =>
    refine ⟨queuedFor_eq_nil [] ?_ (by simp), rfl⟩
    rw [List.append_nil]
    unfold updateEvent
    split <;> rfl
  | other new arena events apart =>
    exact ⟨queuedFor_eq_nil new events fun e he => Or.inl (apart e he), rfl⟩
  | @message i attached data rcv =>
    by_cases hroom : s.HasRoom data
    · rw [queuedFor_message attached hroom]
      by_cases hib : i = b <;> simp [select, messagesFor, actFor, roomFor, hib, hroom, List.reduceOption]
    · rw [pushClientRecvData_full hroom, queuedFor_eq_nil [] (List.append_nil _).symm (by simp)]
      by_cases hib : i = b <;> simp [select, messagesFor, actFor, roomFor, hib, hroom, List.reduceOption]

theorem select_append {ms ms' : List (Inbound × SctpRcvinfo)} {rooms rooms' : List Bool}
    (h : rooms.length = ms.length) :
    select (ms ++ ms') (rooms ++ rooms') = select ms rooms ++ select ms' rooms' := by
  rw [select, List.zip_append h.symm, List.filterMap_append]
  rfl

/-- **What is queued for a client** along a run: the events for those of its messages that found
room. -/
theorem seen_eq_select {b : ℕ} {o o' : RuruLoop σ υ × Watch} {acts : List Act}
    (h : Lts.Path (Observes b) o acts o') :
    ∃ rooms, o'.2.rooms = o.2.rooms ++ rooms ∧ rooms.length = (messagesFor b acts).length ∧
      o'.2.seen = o.2.seen ++ select (messagesFor b acts) rooms := by
  induction acts generalizing o with
  | nil =>
    rw [show o' = o from h]
    exact ⟨[], by simp, rfl, by simp [select]⟩
  | cons a acts ih =>
    obtain ⟨t, ⟨hact, ht⟩, hrest⟩ := h
    obtain ⟨rooms, hrooms, hlen, hseen⟩ := ih hrest
    obtain ⟨hqueued, hone⟩ := queuedFor_acts (b := b) hact
    have hmessages : messagesFor b (a :: acts) = messagesFor b [a] ++ messagesFor b acts := by
      rw [← List.singleton_append, messagesFor, List.filterMap_append, List.reduceOption_append]
      rfl
    refine ⟨roomFor b o.1 a ++ rooms, ?_, ?_, ?_⟩
    · rw [hrooms, ht, List.append_assoc]
    · rw [hmessages, List.length_append, List.length_append, hone, hlen]
    · rw [hseen, ht, hqueued, hmessages, select_append hone, ← List.append_assoc]

/-- Any sequence of acts can be watched. -/
theorem observes_of_acts {s s' : RuruLoop σ υ} {acts : List Act} (h : Lts.Path Acts s acts s') (b : ℕ)
    (w : Watch) : ∃ w', Lts.Path (Observes b) (s, w) acts (s', w') := by
  induction acts generalizing s w with
  | nil =>
    rw [show s' = s from h]
    exact ⟨w, rfl⟩
  | cons a acts ih =>
    obtain ⟨t, hact, hrest⟩ := h
    obtain ⟨w', hw'⟩ := ih hrest ⟨w.rooms ++ roomFor b s a, w.seen ++ queuedFor b s t⟩
    exact ⟨w', (t, _), ⟨hact, rfl⟩, hw'⟩

end RuruLoop

/-! ### Two runs -/

namespace PolledLoop

open RuruLoop

/-- A step of a loop with its acts, watched for client `b`. -/
def Watched (b : ℕ) (o : PolledLoop σ υ × Watch) (l : LoopInput × List Act)
    (o' : PolledLoop σ υ × Watch) : Prop :=
  Step env o.1 l.1 o'.1 ∧ PollsOnce l.1 l.2 ∧
    Lts.Path (Observes b) (o.1.ruru, o.2) l.2 (o'.1.ruru, o'.2)

/-- Every step can be watched, with the messages that usrsctp delivers to a registered client. -/
theorem exists_watched {st st' : PolledLoop σ υ} {input : LoopInput} (hs : Step env st input st')
    (b : ℕ) (w : Watch) : ∃ acts w', Watched env b (st, w) (input, acts) (st', w') ∧
      (st.ruru.Attached b → messagesFor b acts = deliveredTo b (input.callbacks ++
        callbacksIn (st'.ruru.trace.drop st.ruru.trace.length))) := by
  obtain ⟨acts, hpolls, hpath, hmessages⟩ := step_acts env hs
  obtain ⟨w', hw'⟩ := observes_of_acts hpath b w
  exact ⟨acts, w', ⟨hs, hpolls, hw'⟩, hmessages b⟩

/-- The calls of `Loop` and the inbound messages of client `b`, in order. -/
def sharedWith (b : ℕ) (run : List (LoopInput × List Act)) : List (Option (Inbound × SctpRcvinfo)) :=
  (run.flatMap (·.2)).filterMap (actFor b)

theorem path_observes {b : ℕ} {o o' : PolledLoop σ υ × Watch} {run : List (LoopInput × List Act)}
    (h : Lts.Path (Watched env b) o run o') :
    Lts.Path (Observes b) (o.1.ruru, o.2) (run.flatMap (·.2)) (o'.1.ruru, o'.2) := by
  induction run generalizing o with
  | nil =>
    rw [show o' = o from h]
    rfl
  | cons l run ih =>
    obtain ⟨t, ⟨-, -, hpath⟩, hrest⟩ := h
    exact hpath.append (ih hrest)

/-- **Isolation.**  Two runs of a loop with the same calls of `Loop` and the same messages of client
`b` at the same points, whatever else happens in them: in both, what is queued for `b` are the events
for those of its messages that found room, so it is the same if the same messages found room. -/
theorem same_queued_of_same_rooms (b : ℕ) (st : PolledLoop σ υ)
    {run₁ run₂ : List (LoopInput × List Act)} {o₁ o₂ : PolledLoop σ υ × Watch}
    (h₁ : Lts.Path (Watched env b) (st, {}) run₁ o₁) (h₂ : Lts.Path (Watched env b) (st, {}) run₂ o₂)
    (same : sharedWith b run₁ = sharedWith b run₂) :
    o₁.2.seen = select (sharedWith b run₁).reduceOption o₁.2.rooms ∧
      o₂.2.seen = select (sharedWith b run₁).reduceOption o₂.2.rooms ∧
      (o₁.2.rooms = o₂.2.rooms → o₁.2.seen = o₂.2.seen) := by
  have key : ∀ {run o}, Lts.Path (Watched env b) (st, {}) run o →
      o.2.seen = select (sharedWith b run).reduceOption o.2.rooms := by
    intro run o h
    obtain ⟨rooms, hrooms, -, hseen⟩ := seen_eq_select (path_observes env h)
    rw [show o.2.rooms = rooms from hrooms]
    exact hseen
  have hseen₂ := key h₂
  rw [← same] at hseen₂
  refine ⟨key h₁, hseen₂, fun hrooms => ?_⟩
  rw [key h₁, hseen₂, hrooms]

/-! ### A flood -/

/-- A loop with two registered clients. -/
def twoClients : PolledLoop PlainSsl (List SendvResult) where
  ruru := sampleLoop.registerClient plainEnv ⟨0x7F000002, 5000⟩

/-- An inbound message that comes in a callback. -/
def messageCallback (i : ℕ) (data : Inbound) : LoopInput × List Act :=
  (.callback (.inbound i data ⟨1, 0, 7⟩), [.message i data ⟨1, 0, 7⟩])

/-- The second client gets a message of one byte. -/
def quietRun : List (LoopInput × List Act) := [messageCallback 1 ⟨[7], by decide⟩]

/-- Before that the first one gets a message of three bytes. -/
def busyRun : List (LoopInput × List Act) := messageCallback 0 ⟨[1, 2, 3], by decide⟩ :: quietRun

/-- A message of 2^16 bytes. -/
def largeMessage : Inbound := ⟨List.replicate (2 ^ 16) 0, by rw [List.length_replicate]; norm_num⟩

/-- Before that the first one gets 16 large messages. -/
def floodRun : List (LoopInput × List Act) :=
  List.replicate 16 (messageCallback 0 largeMessage) ++ quietRun

/-- A loop, watched for client `b`, after such a message. -/
def afterMessage (b : ℕ) (o : PolledLoop PlainSsl (List SendvResult) × Watch) (i : ℕ)
    (data : Inbound) : PolledLoop PlainSsl (List SendvResult) × Watch :=
  ({ o.1 with ruru := o.1.ruru.pushClientRecvData i data ⟨1, 0, 7⟩ },
    ⟨o.2.rooms ++ roomFor b o.1.ruru (.message i data ⟨1, 0, 7⟩),
      o.2.seen ++ queuedFor b o.1.ruru (o.1.ruru.pushClientRecvData i data ⟨1, 0, 7⟩)⟩)

theorem watched_message (b : ℕ) {i : ℕ} (o : PolledLoop PlainSsl (List SendvResult) × Watch)
    (hatt : o.1.ruru.Attached i) (data : Inbound) :
    Watched plainEnv b o (messageCallback i data) (afterMessage b o i data) :=
  ⟨rfl, by simp [PollsOnce, messageCallback], _, ⟨.message hatt data _, rfl⟩, rfl⟩

theorem attached_twoClients {s : RuruLoop PlainSsl (List SendvResult)}
    (h : s.clientMgr_ = twoClients.ruru.clientMgr_) {i : ℕ} (hi : i < 2) : s.Attached i := by
  unfold Attached
  rw [h]
  rcases Nat.le_one_iff_eq_zero_or_eq_one.mp (Nat.le_of_lt_succ hi) with rfl | rfl
  · exact ⟨_, rfl, rfl⟩
  · exact ⟨_, rfl, rfl⟩

theorem clients_pushClientRecvData (s : RuruLoop σ υ) (i : ℕ) (data : Inbound) (rcv : SctpRcvinfo) :
    (s.pushClientRecvData i data rcv).clientMgr_ = s.clientMgr_ := by
  rcases pushClientRecvData_cases s i data rcv with he | ⟨p, arena, -, -, he⟩
  · rw [he]
  · rw [he]
    rfl

/-- With room for both, the second client's message is queued in both runs. -/
theorem busy_isolated : ∃ o₁ o₂,
    Lts.Path (Watched plainEnv 1) (twoClients, {}) quietRun o₁ ∧
      Lts.Path (Watched plainEnv 1) (twoClients, {}) busyRun o₂ ∧ o₁.2.seen = o₂.2.seen := by
  have hquiet : Lts.Path (Watched plainEnv 1) (twoClients, {}) quietRun
      (afterMessage 1 (twoClients, {}) 1 ⟨[7], by decide⟩) :=
    ⟨_, watched_message 1 (twoClients, {}) (attached_twoClients rfl Nat.one_lt_two) _, rfl⟩
  have hclients : (afterMessage 1 (twoClients, {}) 0 ⟨[1, 2, 3], by decide⟩).1.ruru.clientMgr_ =
      twoClients.ruru.clientMgr_ := clients_pushClientRecvData _ 0 _ _
  have hbusy : Lts.Path (Watched plainEnv 1) (twoClients, {}) busyRun
      (afterMessage 1 (afterMessage 1 (twoClients, {}) 0 ⟨[1, 2, 3], by decide⟩) 1
        ⟨[7], by decide⟩) :=
    ⟨_, watched_message 1 (twoClients, {}) (attached_twoClients rfl Nat.zero_lt_two) _,
      _, watched_message 1 _ (attached_twoClients hclients Nat.one_lt_two) _, rfl⟩
  exact ⟨_, _, hquiet, hbusy,
    (same_queued_of_same_rooms plainEnv 1 twoClients hquiet hbusy rfl).2.2 (by decide +kernel)⟩

/-- Large messages take up the arena, one after the other. -/
theorem path_flood (n : ℕ) (hn : n ≤ 16) : ∃ s : RuruLoop PlainSsl (List SendvResult),
    Lts.Path (Watched plainEnv 1) (twoClients, {}) (List.replicate n (messageCallback 0 largeMessage))
      ({ ruru := s }, {}) ∧ s.clientMgr_ = twoClients.ruru.clientMgr_ ∧
      s.arena_.pos = n * 2 ^ 16 ∧ s.arena_.capacity = 2 ^ 20 := by
  induction n with
  | zero => exact ⟨twoClients.ruru, rfl, rfl, rfl, rfl⟩
  | succ n ih =>
    obtain ⟨s, hpath, hclients, hpos, hcap⟩ := ih (by omega)
    have hatt : s.Attached 0 := attached_twoClients hclients Nat.zero_lt_two
    have hlen : largeMessage.1.length = 2 ^ 16 := List.length_replicate
    have hroom : s.HasRoom largeMessage := by
      refine ⟨by rw [hlen]; norm_num, ?_⟩
      rw [hlen, hpos, hcap]
      push_cast
      omega
    have hstep := watched_message 1 ({ ruru := s }, {}) hatt largeMessage
    rw [afterMessage, show queuedFor 1 s (s.pushClientRecvData 0 largeMessage ⟨1, 0, 7⟩) = [] from
      queuedFor_message hatt hroom _] at hstep
    obtain ⟨client, hi, hq⟩ := hatt
    obtain ⟨arena, -, hpos', hcap', he⟩ := pushClientRecvData_room hi hq hroom.1 hroom.2 ⟨1, 0, 7⟩
    refine ⟨s.pushClientRecvData 0 largeMessage ⟨1, 0, 7⟩, ?_, ?_, ?_, ?_⟩
    · rw [List.replicate_succ']
      exact hpath.append ⟨_, hstep, rfl⟩
    · exact (clients_pushClientRecvData s 0 _ _).trans hclients
    · rw [he, RuruLoop.push, RuruArena.memcpy, hpos', hpos, hlen]
      push_cast
      ring
    · rw [he]
      exact hcap'.trans hcap

/-- The second client's message is queued in the one run and lost in the other. -/
theorem flood_not_isolated : ∃ o₁ o₂,
    Lts.Path (Watched plainEnv 1) (twoClients, {}) quietRun o₁ ∧
      Lts.Path (Watched plainEnv 1) (twoClients, {}) floodRun o₂ ∧
      sharedWith 1 quietRun = sharedWith 1 floodRun ∧ o₁.2.seen ≠ o₂.2.seen := by
  obtain ⟨s, hpath, hclients, hpos, hcap⟩ := path_flood 16 le_rfl
  have hatt : twoClients.ruru.Attached 1 := attached_twoClients rfl Nat.one_lt_two
  have hatt' : s.Attached 1 := attached_twoClients hclients Nat.one_lt_two
  have hquiet := watched_message 1 (twoClients, {}) hatt ⟨[7], by decide⟩
  have hflood := watched_message 1 ({ ruru := s }, {}) hatt' ⟨[7], by decide⟩
  have hroom : twoClients.ruru.HasRoom ⟨[7], by decide⟩ := by decide
  have hlost : ¬s.HasRoom ⟨[7], by decide⟩ := by
    rintro ⟨-, hroom⟩
    rw [hpos, hcap] at hroom
    exact absurd hroom (by norm_num)
  have hnone : queuedFor 1 s (s.pushClientRecvData 1 ⟨[7], by decide⟩ ⟨1, 0, 7⟩) = [] := by
    rw [pushClientRecvData_full hlost]
    exact queuedFor_eq_nil [] (List.append_nil _).symm (by simp)
  refine ⟨_, _, ⟨_, hquiet, rfl⟩, hpath.append ⟨_, hflood, rfl⟩, rfl, ?_⟩
  rw [afterMessage, afterMessage, queuedFor_message hatt hroom, hnone]
  simp

end PolledLoop

end Ruru
