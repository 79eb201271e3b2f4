import Ruru.Moves
import Ruru.PlainLibs

/-!
# Ruru.Dispatch — which events the example server acts on

`InOrder`: the events acted on, followed by those still queued, are the events pushed.  `Loop` writes
`evt` only when it dequeues, so a turn breaks `InOrder` exactly when `Loop` reports data without
dequeuing while `evt` still holds an event.  When that happens is a matter of what the kernel and
the caches have at the beginning of the turn (`LoopHasNews`).
-/

namespace Ruru

open Relation

variable {σ υ : Type} (env : Env σ υ)

namespace RuruLoop

/-- The events pushed so far. -/
def pushedEvents (s : RuruLoop σ υ) : List RuruEvent := (pushed s.trace).map Prod.fst

/-- Moves only append to the queue, and what they append is pushed and no `EVT_None`. -/
theorem Moves.grown {fixed : Bool} {s0 s' : RuruLoop σ υ} (h : Moves fixed s0 s') :
    ∃ new, s'.que_ = s0.que_ ++ new ∧ s'.pushedEvents = s0.pushedEvents ++ new ∧
      ∀ e ∈ new, e.type ≠ .evtNone := by
  induction h with
  | refl => exact ⟨[], by simp, by simp, by simp⟩
  | @tail s1 s2 _ hm ih =>
    obtain ⟨new, hq, hp, hn⟩ := ih
    have hpush : ∀ (s : RuruLoop σ υ) evt origin, s.que_ = s1.que_ →
        pushed s.trace = pushed s1.trace →
        evt.type ≠ .evtNone → ∃ new, (s.push evt origin).que_ = s0.que_ ++ new ∧
          (s.push evt origin).pushedEvents = s0.pushedEvents ++ new ∧
          ∀ e ∈ new, e.type ≠ .evtNone := by
      intro s evt origin h1 h2 h3
      refine ⟨new ++ [evt], by rw [← List.append_assoc, ← hq, ← h1]; rfl, ?_, ?_⟩
      · rw [← List.append_assoc, ← hp, pushedEvents, pushedEvents, ← h2, push, pushed_append]
        simp [pushed]
      · intro e he
        rcases List.mem_append.mp he with he | he
        · exact hn e he
        · rw [List.mem_singleton.mp he]
          exact h3
    cases hm with
    | quiet que arena history beats rings sockets cons =>
      exact ⟨new, que.trans hq, by rw [pushedEvents, history]; exact hp, hn⟩
    | scan known => exact hpush s1 _ none rfl rfl (by simp)
    | @store i client known data =>
      refine hpush ((s1.note _).updateClient i _) _ none rfl ?_ (by simp)
      simp [note, updateClient, pushed]
    | take known read =>
      refine ⟨new, hq, ?_, hn⟩
      rw [← hp]
      simp [pushedEvents, pushed]
    | recv i data rcv =>
      rcases pushClientRecvData_cases s1 i data rcv with he | ⟨p, arena, -, -, he⟩
      · rw [he]
        exact ⟨new, hq, hp, hn⟩
      · rw [he]
        exact hpush { s1 with arena_ := arena.memcpy p data.1 } _ _ rfl rfl (by simp [recvEvent])

/-! ### When `Loop` reports data -/

/-- Serving the event makes `EpollWait` report data: it is no error, and if it is for the UDP socket
then the first datagram is not empty. -/
def EventHasNews (s : RuruLoop σ υ) (e : EpollEvent) : Prop :=
  ∃ con, (s.cons[e.ptr]?).join = some con ∧ (e.epollErr || e.epollHup || !e.epollIn) = false ∧
    (con.fd = s.udpfd_ → ∃ d rest, e.datagrams = d :: rest ∧ d.2 ≠ [])

/-- A scan is due and some client has cached data, or some event brings data. -/
def LoopHasNews (s : RuruLoop σ υ) (batch : EpollBatch) : Prop :=
  (s.count.tmod roll = 0 ∧ s.cachingClients ≠ []) ∨ ∃ e ∈ batch.events, s.EventHasNews e

theorem recvDatagrams_fst {fuel : ℕ} {s : RuruLoop σ υ} {ds : List (SockaddrIn × List UInt8)}
    {r : Bool × RuruLoop σ υ} (h : s.recvDatagrams env fuel ds = some r) :
    r.1 = true ↔ ∃ d rest, ds = d :: rest ∧ d.2 ≠ [] := by
  cases ds with
  | nil =>
    obtain rfl := Option.some.inj h
    simp
  | cons d ds =>
    unfold recvDatagrams at h
    dsimp only at h
    by_cases hd : d.2.take 4096 = []
    · rw [if_pos hd] at h
      obtain rfl := Option.some.inj h
      have hd' : d.2 = [] := by simpa using hd
      simp [hd']
    · rw [if_neg hd] at h
      split at h
      · exact absurd h (by simp)
      · obtain ⟨r', -, rfl⟩ := Option.map_eq_some_iff.mp h
        have hd' : d.2 ≠ [] := fun h0 => hd (by simp [h0])
        simp [hd']

theorem epollEvent_fst {fuel : ℕ} {s : RuruLoop σ υ} {e : EpollEvent} {r : Bool × RuruLoop σ υ}
    (h : s.epollEvent env fuel e = some r) : r.1 = true ↔ s.EventHasNews e := by
  unfold epollEvent at h
  cases hc : (s.cons[e.ptr]?).join with
  | none =>
    rw [hc] at h
    obtain rfl := Option.some.inj h
    simp [EventHasNews, hc]
  | some con =>
    rw [hc] at h
    dsimp only at h
    have key : s.EventHasNews e ↔ (e.epollErr || e.epollHup || !e.epollIn) = false ∧
        (con.fd = s.udpfd_ → ∃ d rest, e.datagrams = d :: rest ∧ d.2 ≠ []) := by
      simp [EventHasNews, hc]
    rw [key]
    by_cases herr : (e.epollErr || e.epollHup || !e.epollIn) = true
    · rw [if_pos herr] at h
      obtain rfl := Option.some.inj h
      simp [herr]
    · rw [if_neg herr] at h
      have herr' : (e.epollErr || e.epollHup || !e.epollIn) = false := by simpa using herr
      by_cases hudp : con.fd = s.udpfd_
      · rw [if_pos hudp] at h
        rw [recvDatagrams_fst env h]
        simp [herr', hudp]
      · rw [if_neg hudp] at h
        have htrue : r.1 = true := by
          by_cases htcp : con.fd = s.tcpfd_
          · rw [if_pos htcp] at h
            obtain rfl := Option.some.inj h
            rfl
          · rw [if_neg htcp] at h
            obtain ⟨s', -, rfl⟩ := Option.map_eq_some_iff.mp h
            rfl
        simp [htrue, herr', hudp]

/-- Serving an event leaves the records of the others alone. -/
def SameFor (p : ConId) (s s' : RuruLoop σ υ) : Prop :=
  s'.udpfd_ = s.udpfd_ ∧ s.cons.length ≤ s'.cons.length ∧
    ∀ q, q ≠ p → q < s.cons.length → s'.cons[q]? = s.cons[q]?

theorem SameFor.of_moves {p : ConId} {s s' : RuruLoop σ υ} (h : Moves true s s') : SameFor p s s' :=
  ⟨h.sockets.1, by rw [h.cons], fun q _ _ => by rw [h.cons]⟩

theorem SameFor.closeCon {p : ConId} {s s' : RuruLoop σ υ} (h : SameFor p s s') (fd : ℤ) :
    SameFor p s (s'.closeCon p fd) := by
  refine ⟨h.1, by simpa [RuruLoop.closeCon] using h.2.1, fun q hq hlt => ?_⟩
  rw [← h.2.2 q hq hlt]
  exact List.getElem?_set_ne (Ne.symm hq)

theorem SameFor.accepts {p : ConId} (as : List AcceptResult) {s s' : RuruLoop σ υ}
    (h : SameFor p s s') : SameFor p s (as.foldl acceptOne s') := by
  induction as generalizing s' with
  | nil => exact h
  | cons a as ih =>
    refine ih ?_
    have hgrow : ∃ more, (s'.acceptOne a).cons = s'.cons ++ more ∧
        (s'.acceptOne a).udpfd_ = s'.udpfd_ := by
      unfold acceptOne
      by_cases hnb : a.nonBlocking = true
      · simp only [if_pos hnb]
        split_ifs
        · exact ⟨_, rfl, rfl⟩
        · exact ⟨_, rfl, rfl⟩
      · simp only [if_neg hnb]
        exact ⟨[], by simp [note], rfl⟩
    obtain ⟨more, hcons, hudp⟩ := hgrow
    have hle : s'.cons.length ≤ (s'.acceptOne a).cons.length := by
      rw [hcons, List.length_append]
      exact Nat.le_add_right _ _
    refine ⟨hudp.trans h.1, h.2.1.trans hle, fun q hq hlt => ?_⟩
    rw [hcons, List.getElem?_append_left (Nat.lt_of_lt_of_le hlt h.2.1)]
    exact h.2.2 q hq hlt

theorem Serves.sameFor {fuel : ℕ} {s t : RuruLoop σ υ} {e : EpollEvent}
    (h : Serves env fuel s e t) : SameFor e.ptr s t := by
  have hrefl : SameFor e.ptr s s := SameFor.of_moves .refl
  cases h with
  | gone dead => exact hrefl
  | error live failed => exact hrefl.closeCon _
  | udp live sound fd drained => exact SameFor.of_moves ((exchanges_recvDatagrams env drained).moves env)
  | accept live sound udp fd => exact hrefl.accepts e.accepts
  | http live sound udp tcp answer => exact (SameFor.of_moves ((answer.exchanges env).moves env)).closeCon _

theorem EventHasNews.congr {p : ConId} {s s' : RuruLoop σ υ} (h : SameFor p s s') {e : EpollEvent}
    (hne : e.ptr ≠ p) (hlt : e.ptr < s.cons.length) : s'.EventHasNews e ↔ s.EventHasNews e := by
  unfold EventHasNews
  rw [h.1, h.2.2 e.ptr hne hlt]

/-- The events are about different records, so each is served with the record it had at first. -/
theorem epollEvents_fst {fuel : ℕ} {es : List EpollEvent} (hnd : (es.map (·.ptr)).Nodup)
    {s : RuruLoop σ υ} (hlive : ∀ e ∈ es, e.ptr < s.cons.length) {r : Bool × RuruLoop σ υ}
    (h : s.epollEvents env fuel es = some r) : r.1 = true ↔ ∃ e ∈ es, s.EventHasNews e := by
  induction es generalizing s r with
  | nil =>
    cases h
    simp
  | cons e es ih =>
    unfold epollEvents at h
    split at h
    · exact absurd h (by simp)
    · rename_i haveData s1 hs1
      obtain ⟨r', hr', rfl⟩ := Option.map_eq_some_iff.mp h
      have hsame : SameFor e.ptr s s1 := (serves_of_epollEvent env hs1).sameFor
      have hfst : haveData = true ↔ s.EventHasNews e := epollEvent_fst env hs1
      rw [List.map_cons, List.nodup_cons] at hnd
      have hlive1 : ∀ e' ∈ es, e'.ptr < s1.cons.length := fun e' he' =>
        Nat.lt_of_lt_of_le (hlive e' (by simp [he'])) hsame.2.1
      have hrest := ih hnd.2 hlive1 hr'
      have hcongr : (∃ e' ∈ es, s1.EventHasNews e') ↔ ∃ e' ∈ es, s.EventHasNews e' := by
        refine exists_congr fun e' => and_congr_right fun he' => ?_
        refine EventHasNews.congr hsame (fun heq => hnd.1 ?_) (hlive e' (by simp [he']))
        rw [← heq]
        exact List.mem_map_of_mem he'
      rw [Bool.or_eq_true, hfst, hrest, hcongr]
      simp

theorem epollWait_fst {fuel : ℕ} {s : RuruLoop σ υ} {batch : EpollBatch} {r : Bool × RuruLoop σ υ}
    (h : s.epollWait env fuel batch = some r) :
    r.1 = true ↔ ∃ e ∈ batch.events, s.EventHasNews e := by
  have hlive : ∀ e ∈ batch.events.filter (fun e => ((s.cons[e.ptr]?).join).isSome),
      e.ptr < s.cons.length := by
    intro e he
    have hsome := (List.mem_filter.mp he).2
    by_contra hge
    rw [List.getElem?_eq_none (Nat.le_of_not_lt hge)] at hsome
    simp at hsome
  rw [epollEvents_fst env ((List.filter_sublist.map _).nodup batch.nodup) hlive h]
  constructor
  · rintro ⟨e, he, hn⟩
    exact ⟨e, (List.mem_filter.mp he).1, hn⟩
  · rintro ⟨e, he, hn⟩
    refine ⟨e, List.mem_filter.mpr ⟨he, ?_⟩, hn⟩
    obtain ⟨con, hc, -⟩ := hn
    rw [hc]
    rfl

theorem scanClientCacheData_fst (s : RuruLoop σ υ) :
    s.scanClientCacheData.1 = true ↔ s.count.tmod roll = 0 ∧ s.cachingClients ≠ [] := by
  unfold scanClientCacheData
  by_cases hdue : s.count.tmod roll = 0
  · have hcc : ∀ c, ({ s with count := c } : RuruLoop σ υ).cachingClients = s.cachingClients :=
      fun _ => rfl
    simp [hdue, hcc]
  · simp [hdue]

/-- With an empty queue `Loop` returns true exactly when there is news. -/
theorem loop_news {fuel : ℕ} {s : RuruLoop σ υ} {evt : RuruEvent} {batch : EpollBatch}
    {haveData : Bool} {evt' : RuruEvent} {s' : RuruLoop σ υ} (hq : s.que_ = [])
    (h : s.loop env fuel evt batch = some (haveData, evt', s')) :
    haveData = true ↔ s.LoopHasNews batch := by
  rw [loop_of_nil env hq] at h
  obtain ⟨r, hr, he⟩ := Option.map_eq_some_iff.mp h
  obtain ⟨rfl, -⟩ := Prod.mk.inj he
  have hm : Moves true s.resetArena s.resetArena.scanClientCacheData.2 :=
    (exchanges_scanClientCacheData env _).moves env
  have hwait : r.1 = true ↔ ∃ e ∈ batch.events, s.EventHasNews e := by
    rw [epollWait_fst env hr]
    refine exists_congr fun e => and_congr_right fun _ => ?_
    unfold EventHasNews
    rw [hm.cons, hm.sockets.1]
    rfl
  rw [Bool.or_eq_true, hwait, scanClientCacheData_fst]
  rfl

end RuruLoop

/-! ### Runs of the example server -/

namespace EchoServer

/-- The events acted on, then those queued, are the events pushed. -/
def InOrder (st : EchoServer σ υ) : Prop := st.acted ++ st.ruru.que_ = st.ruru.pushedEvents

/-- No queued event is an `EVT_None`. -/
def QueueTyped (st : EchoServer σ υ) : Prop := ∀ e ∈ st.ruru.que_, e.type ≠ .evtNone

/-- A turn is safe if `evt` holds no event, or an event is queued, or there is no news. -/
def TurnSafe (st : EchoServer σ υ) : EchoInput → Prop
  | .callback _ => True
  | .turn _ batch => st.evt.type = .evtNone ∨ st.ruru.que_ ≠ [] ∨ ¬st.ruru.LoopHasNews batch

/-- Acting on an event that is at the front of what is left keeps the order, whatever is pushed
while the handler runs. -/
theorem inOrder_of_moves {acted : List RuruEvent} {s s' : RuruLoop σ υ}
    (hm : RuruLoop.Moves false s s') (h : acted ++ s.que_ = s.pushedEvents) :
    acted ++ s'.que_ = s'.pushedEvents := by
  obtain ⟨new, hq, hp, -⟩ := hm.grown
  rw [hq, hp, ← h, List.append_assoc]

theorem queueTyped_of_moves {s s' : RuruLoop σ υ} (hm : RuruLoop.Moves false s s')
    (h : ∀ e ∈ s.que_, e.type ≠ .evtNone) : ∀ e ∈ s'.que_, e.type ≠ .evtNone := by
  obtain ⟨new, hq, -, hn⟩ := hm.grown
  intro e he
  rw [hq] at he
  rcases List.mem_append.mp he with he | he
  · exact h e he
  · exact hn e he

theorem callback_inOrder {st : EchoServer σ υ} (h : InOrder st) (cb : SctpCallback) :
    InOrder { st with ruru := st.ruru.callback env cb } :=
  inOrder_of_moves (RuruLoop.moves_callback env st.ruru cb) h

/-- A turn that dequeues. -/
theorem dequeue_inOrder {st : EchoServer σ υ} (ht : QueueTyped st) (h : InOrder st)
    {evt : RuruEvent} {rest : List RuruEvent} (hq : st.ruru.que_ = evt :: rest) :
    InOrder (st.afterLoop env true evt { st.ruru with que_ := rest }) := by
  have htype : evt.type ≠ .evtNone := ht evt (by simp [hq])
  simp only [afterLoop, if_true, htype, if_false]
  refine inOrder_of_moves (RuruLoop.moves_handleEvent env _ evt) ?_
  have h' : st.acted ++ st.ruru.que_ = st.ruru.pushedEvents := h
  rw [hq] at h'
  simpa [RuruLoop.pushedEvents] using h'

/-- A turn that finds the queue empty: it keeps the order unless it acts on what `evt` still held. -/
theorem idle_inOrder {st : EchoServer σ υ} (h : InOrder st) {haveData : Bool}
    {ruru : RuruLoop σ υ} (hm : RuruLoop.Moves false st.ruru.resetArena ruru) :
    InOrder (st.afterLoop env haveData st.evt ruru) ↔
      st.evt.type = .evtNone ∨ haveData = false := by
  have hmid : st.acted ++ ruru.que_ = ruru.pushedEvents := inOrder_of_moves hm h
  cases haveData with
  | false => exact ⟨fun _ => Or.inr rfl, fun _ => hmid⟩
  | true =>
    by_cases htype : st.evt.type = .evtNone
    · refine ⟨fun _ => Or.inl htype, fun _ => ?_⟩
      simp only [InOrder, afterLoop, if_true, htype, List.append_nil]
      exact inOrder_of_moves (RuruLoop.moves_handleEvent env _ st.evt) hmid
    · -- one event more was acted on than can be accounted for
      refine ⟨fun hin => absurd hin ?_, fun hor => absurd hor (by simp [htype])⟩
      simp only [InOrder, afterLoop, if_true, htype, if_false]
      have hh : RuruLoop.Moves false ruru (ruru.handleEvent env st.evt) :=
        RuruLoop.moves_handleEvent env ruru st.evt
      obtain ⟨new, hque, hpushed, -⟩ := hh.grown
      intro hin
      have hlen := congrArg List.length hin
      have hlen' := congrArg List.length hmid
      simp only [hque, hpushed, List.length_append, List.length_singleton] at hlen hlen'
      omega

theorem step_inOrder {st st' : EchoServer σ υ} {input : EchoInput} (ht : QueueTyped st)
    (h : InOrder st) (hs : Step env st input st') : InOrder st' ↔ TurnSafe st input := by
  cases input with
  | callback cb =>
    obtain rfl := Option.some.inj hs
    exact ⟨fun _ => trivial, fun _ => callback_inOrder env h cb⟩
  | turn fuel batch =>
    obtain ⟨⟨haveData, evt, ruru⟩, hl, rfl⟩ := Option.map_eq_some_iff.mp hs
    rcases RuruLoop.loop_cases env hl with ⟨rest, hq, rfl, rfl⟩ | ⟨hq, rfl, hm⟩
    · refine ⟨fun _ => Or.inr (Or.inl (by simp [hq])), fun _ => dequeue_inOrder env ht h hq⟩
    · rw [idle_inOrder env h hm]
      have hnews := RuruLoop.loop_news env hq hl
      simp only [TurnSafe, hq, ← hnews]
      simp

theorem step_queueTyped {st st' : EchoServer σ υ} {input : EchoInput} (ht : QueueTyped st)
    (hs : Step env st input st') : QueueTyped st' := by
  cases input with
  | callback cb =>
    obtain rfl := Option.some.inj hs
    exact queueTyped_of_moves (RuruLoop.moves_callback env st.ruru cb) ht
  | turn fuel batch =>
    obtain ⟨⟨haveData, evt, ruru⟩, hl, rfl⟩ := Option.map_eq_some_iff.mp hs
    have hmid : ∀ e ∈ ruru.que_, e.type ≠ .evtNone := by
      rcases RuruLoop.loop_cases env hl with ⟨rest, hq, -, rfl⟩ | ⟨-, -, hm⟩
      · exact fun e he => ht e (by rw [hq]; exact List.mem_cons_of_mem _ he)
      · exact queueTyped_of_moves hm ht
    cases haveData with
    | false => exact hmid
    | true => exact queueTyped_of_moves (RuruLoop.moves_handleEvent env _ _) hmid

/-- **Exactly-once dispatch.**  From a constructed loop on, along any run of callbacks and turns,
every state is in order exactly if every turn of the run is safe. -/
theorem dispatch_inOrder_iff_safe (this : LoopId) (udpfd tcpfd : ℤ) (memory : ℕ → UInt8) (usr : υ)
    (nextSock : Sock) (count : ℤ) (inputs : List EchoInput) :
    let start : EchoServer σ υ :=
      { ruru := .constructed this udpfd tcpfd memory usr nextSock count }
    Lts.Always (Step env) InOrder start inputs ↔ Lts.Each (Step env) TurnSafe start inputs := by
  have h0 : InOrder ({ ruru := .constructed this udpfd tcpfd memory usr nextSock count } :
      EchoServer σ υ) := rfl
  refine Lts.always_iff_each (I := QueueTyped) ?_ ?_ ?_ h0 inputs
  · exact fun st input st' ht h hs => step_inOrder env ht h hs
  · exact fun st input st' ht _ hs _ => step_queueTyped env ht hs
  · exact fun e he => absurd he (by simp [RuruLoop.constructed])

/-- A registration, a message from its client, and then a turn that dequeues the message and one
that finds the queue empty but a connection to accept. -/
def repeatInputs : List EchoInput :=
  [.turn 0 acceptBatch, .turn 0 requestBatch,
    .callback (.inbound 0 ⟨ascii "hi", by decide⟩ ⟨1, 0, 7⟩),
    .turn 0 ⟨[], by decide⟩,
    .turn 0 ⟨[{ ptr := 1, accepts := [] }], by decide⟩]

/-- The message is echoed twice. -/
theorem dispatch_repeats_event :
    ¬Lts.Always (Step plainEnv) InOrder
      { ruru := .constructed 0 3 4 (fun _ => 0) [] 0 1 } repeatInputs := by
  intro h
  have key : ((repeatInputs.foldlM (step plainEnv)
      { ruru := .constructed 0 3 4 (fun _ => 0) [] 0 1 }).map fun st =>
        (st.acted.length, st.ruru.que_.length, st.ruru.pushedEvents.length)) = some (2, 0, 1) := by
    decide +kernel
  obtain ⟨st, hst, hlen⟩ := Option.map_eq_some_iff.mp key
  simp only [Prod.mk.injEq] at hlen
  have hin : InOrder st :=
    Lts.always_iff_prefix.mp h repeatInputs [] (by simp) st (Lts.path_iff_foldlM.mpr hst)
  have := congrArg List.length hin
  rw [List.length_append] at this
  omega

end EchoServer

end Ruru
