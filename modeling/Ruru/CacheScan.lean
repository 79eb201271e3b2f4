import Ruru.ClientWork
import Ruru.PlainLibs
import Ruru.Runs
import Ruru.Serving

/-!
# Ruru.CacheScan — the events that ask for a cache to be sent

Only the scan queues an `EVT_SendCacheData`, and it runs only when the queue is empty, so there is
never more than one of them for a client.  When the scan runs is a matter of one static counter,
which all loops of a process share: the n-th call of a process is due if n, wrapped to an `int32_t`,
is a multiple of 100.
-/

namespace Ruru

variable {σ υ : Type} (env : Env σ υ)

namespace RuruLoop

/-! ### Nothing else queues these events -/

theorem Answer.keeps {s t : RuruLoop σ υ} {fd : ℤ} {address : Option RuruAddress}
    (h : Answer env s fd address t) : t.cacheWakes = s.cacheWakes ∧ t.count = s.count := by
  cases h with
  | silent => exact ⟨rfl, rfl⟩
  | badRequest => exact ⟨rfl, rfl⟩
  | ok address =>
    obtain ⟨u, client, hu, -, he⟩ := registerClient_cases env s address
    rw [he]
    exact ⟨hu.wakes, hu.count⟩

theorem keeps_accepts (as : List AcceptResult) (s : RuruLoop σ υ) :
    (as.foldl acceptOne s).cacheWakes = s.cacheWakes ∧ (as.foldl acceptOne s).count = s.count := by
  induction as generalizing s with
  | nil => exact ⟨rfl, rfl⟩
  | cons a as ih =>
    have hone : (s.acceptOne a).cacheWakes = s.cacheWakes ∧ (s.acceptOne a).count = s.count := by
      unfold acceptOne
      dsimp only
      split_ifs <;> exact ⟨rfl, rfl⟩
    exact ⟨(ih _).1.trans hone.1, (ih _).2.trans hone.2⟩

theorem Serves.keeps {fuel : ℕ} {s s' : RuruLoop σ υ} {e : EpollEvent} (h : Serves env fuel s e s') :
    s'.cacheWakes = s.cacheWakes ∧ s'.count = s.count := by
  cases h with
  | gone dead => exact ⟨rfl, rfl⟩
  | error live failed => exact ⟨rfl, rfl⟩
  | udp live sound fd drained =>
    exact ⟨(work_recvDatagrams env drained).wakes, (work_recvDatagrams env drained).count⟩
  | accept live sound udp fd => exact keeps_accepts e.accepts s
  | http live sound udp tcp answer => exact answer.keeps

theorem epollWait_keeps {fuel : ℕ} {s : RuruLoop σ υ} {batch : EpollBatch} {r : Bool × RuruLoop σ υ}
    (h : s.epollWait env fuel batch = some r) :
    r.2.cacheWakes = s.cacheWakes ∧ r.2.count = s.count :=
  epollEvents_induction env (R := fun s t => t.cacheWakes = s.cacheWakes ∧ t.count = s.count)
    (fun _ => ⟨rfl, rfl⟩) (fun h1 h2 => ⟨h2.1.trans h1.1, h2.2.trans h1.2⟩)
    (fun _ _ _ _ hs => hs.keeps) h

end RuruLoop

/-! ### At most one event for a client -/

/-- No client has two `EVT_SendCacheData` events in the queue. -/
def RuruLoop.WakesUnique (s : RuruLoop σ υ) : Prop :=
  ∀ i, s.cacheWakes.countP (·.client == some i) ≤ 1

namespace RuruLoop

theorem WakesUnique.of_eq {s s' : RuruLoop σ υ} (h : s.WakesUnique)
    (heq : s'.cacheWakes = s.cacheWakes) : s'.WakesUnique := by
  intro i
  rw [heq]
  exact h i

theorem WakesUnique.dequeue {s : RuruLoop σ υ} (h : s.WakesUnique) {front : RuruEvent}
    {rest : List RuruEvent} (hq : s.que_ = front :: rest) :
    ({ s with que_ := rest } : RuruLoop σ υ).WakesUnique := by
  intro i
  have hsub : (rest.filter RuruEvent.isCacheWake).Sublist s.cacheWakes := by
    rw [cacheWakes, hq]
    exact (List.sublist_cons_self front rest).filter _
  exact (hsub.countP_le).trans (h i)

/-- With nothing queued, the scan makes one event for each client. -/
theorem wakesUnique_scan {s : RuruLoop σ υ} (hq : s.que_ = []) :
    s.scanClientCacheData.2.WakesUnique := by
  have hnodup : s.cachingClients.Nodup := List.nodup_range.filter _
  intro i
  have hwakes : ∀ is : List ℕ, (is.map cacheWake).filter RuruEvent.isCacheWake = is.map cacheWake :=
    fun is => List.filter_eq_self.mpr fun e he => by
      obtain ⟨j, -, rfl⟩ := List.mem_map.mp he
      rfl
  rw [cacheWakes, scanClientCacheData_snd]
  simp only [hq, List.nil_append, hwakes, List.countP_map]
  have hcount : ∀ is : List ℕ, is.countP ((fun evt : RuruEvent => evt.client == some i) ∘ cacheWake) =
      is.count i := by
    intro is
    rw [List.count]
    exact List.countP_congr fun j _ => by simp [cacheWake]
  rw [hcount]
  split_ifs
  · exact List.nodup_iff_count_le_one.mp hnodup i
  · simp

end RuruLoop

namespace PolledLoop

theorem step_wakesUnique {st st' : PolledLoop σ υ} {input : LoopInput} (h : st.ruru.WakesUnique)
    (hs : Step env st input st') : st'.ruru.WakesUnique := by
  cases input with
  | callback cb =>
    obtain rfl := Option.some.inj hs
    exact h.of_eq (RuruLoop.work_callback env st.ruru cb).wakes
  | sendUsrSctpData client msg =>
    obtain rfl := Option.some.inj hs
    exact h.of_eq (RuruLoop.work_sendUsrSctpData env st.ruru client msg).wakes
  | sendSctpCacheData client =>
    obtain rfl := Option.some.inj hs
    exact h.of_eq (RuruLoop.work_sendSctpCacheData env st.ruru client).wakes
  | clientSendHeartBeatData client =>
    obtain rfl := Option.some.inj hs
    exact h.of_eq (RuruLoop.work_clientSendHeartBeatData env st.ruru client).wakes
  | loop fuel evt batch =>
    obtain ⟨r, hl, rfl⟩ := Option.map_eq_some_iff.mp hs
    cases hq : st.ruru.que_ with
    | cons front rest =>
      rw [RuruLoop.loop_of_cons env hq] at hl
      cases hl
      exact h.dequeue hq
    | nil =>
      rw [RuruLoop.loop_of_nil env hq] at hl
      obtain ⟨r', hr', rfl⟩ := Option.map_eq_some_iff.mp hl
      have hscan : st.ruru.resetArena.scanClientCacheData.2.WakesUnique :=
        RuruLoop.wakesUnique_scan hq
      exact hscan.of_eq (RuruLoop.epollWait_keeps env hr').1

/-- **Cache events do not pile up.**  In every state of every run of a constructed loop the queue
holds at most one `EVT_SendCacheData` for each client. -/
theorem cache_wakes_unique (this : LoopId) (udpfd tcpfd : ℤ) (memory : ℕ → UInt8) (usr : υ)
    (nextSock : Sock) (count : ℤ) (inputs : List LoopInput) :
    Lts.Always (Step env) (fun st => st.ruru.WakesUnique)
      { ruru := .constructed this udpfd tcpfd memory usr nextSock count } inputs := by
  refine Lts.always_iff_prefix.mpr fun pre post _ st hpath => ?_
  refine Lts.Path.invariant (P := fun st => st.ruru.WakesUnique)
    (fun _ _ _ hs ht => step_wakesUnique env hs ht) hpath ?_
  exact fun i => Nat.zero_le 1

end PolledLoop

end Ruru
