import Ruru.CacheScan

/-!
# Ruru.ScanPeriod — how often the caches of a loop are scanned

The counter of `ScanClientCacheData` is a function-local static, so the loops of a process count
together, and how often a loop scans depends on how its calls lie between those of the others.  The
counter is the number of calls made so far, wrapped to an `int32_t`; among any 100 numbers in a row
one wraps to a multiple of 100.
-/

namespace Ruru

variable {σ υ : Type} (env : Env σ υ)

/-- A call of `ScanClientCacheData`: the loop it was made on, and that loop before it. -/
structure ScanCall (σ υ : Type) where
  loop : LoopId
  before : RuruLoop σ υ

/-- The call gets past the test of the counter, and queues an event for every client whose cache is
not empty. -/
def ScanCall.Performed (c : ScanCall σ υ) : Prop :=
  c.before.count.tmod RuruLoop.roll = 0 ∧
    c.before.scanClientCacheData.2.que_ =
      c.before.que_ ++ c.before.cachingClients.map RuruLoop.cacheWake

/-- The loops of a process with the statics they share, `count` and usrsctp, and the calls of
`ScanClientCacheData` so far. -/
structure Process (σ υ : Type) where
  loops : LoopId → PolledLoop σ υ
  count : ℤ
  usr : υ
  nextSock : Sock
  scans : List (ScanCall σ υ)

namespace Process

/-- A process before the first call, with any loops. -/
def started (loops : LoopId → PolledLoop σ υ) (usr : υ) (nextSock : Sock) : Process σ υ :=
  ⟨loops, 0, usr, nextSock, []⟩

/-- What runs in the loop `k`: it works on the shared statics. -/
def view (p : Process σ υ) (k : LoopId) : PolledLoop σ υ :=
  { p.loops k with ruru := { (p.loops k).ruru with
      count := p.count
      usr := p.usr
      nextSock := p.nextSock } }

/-- The calls of `ScanClientCacheData` that an input of the loop `k` makes: `Loop` calls it when it
finds the queue empty. -/
def scanCalls (k : LoopId) (st : PolledLoop σ υ) : LoopInput → List (ScanCall σ υ)
  | .loop .. => if st.ruru.que_ = [] then [⟨k, st.ruru.resetArena⟩] else []
  | _ => []

/-- Something happens to the loop `k`. -/
def step (p : Process σ υ) (input : LoopId × LoopInput) : Option (Process σ υ) :=
  ((p.view input.1).step env input.2).map fun st =>
    { loops := Function.update p.loops input.1 st
      count := st.ruru.count
      usr := st.ruru.usr
      nextSock := st.ruru.nextSock
      scans := p.scans ++ scanCalls input.1 (p.view input.1) input.2 }

/-- A step as a relation. -/
def Step (p : Process σ υ) (input : LoopId × LoopInput) (p' : Process σ υ) : Prop :=
  p.step env input = some p'

/-! ### The counter -/

/-- A step of a loop counts exactly its calls of `ScanClientCacheData`. -/
theorem count_step {st st' : PolledLoop σ υ} {input : LoopInput} (k : LoopId)
    (hs : PolledLoop.Step env st input st') : st'.ruru.count =
      if scanCalls k st input = [] then st.ruru.count else toInt32 (st.ruru.count + 1) := by
  cases input with
  | callback cb =>
    obtain rfl := Option.some.inj hs
    exact (RuruLoop.work_callback env st.ruru cb).count
  | sendUsrSctpData client msg =>
    obtain rfl := Option.some.inj hs
    exact (RuruLoop.work_sendUsrSctpData env st.ruru client msg).count
  | sendSctpCacheData client =>
    obtain rfl := Option.some.inj hs
    exact (RuruLoop.work_sendSctpCacheData env st.ruru client).count
  | clientSendHeartBeatData client =>
    obtain rfl := Option.some.inj hs
    exact (RuruLoop.work_clientSendHeartBeatData env st.ruru client).count
  | loop fuel evt batch =>
    obtain ⟨r, hl, rfl⟩ := Option.map_eq_some_iff.mp hs
    cases hq : st.ruru.que_ with
    | cons front rest =>
      rw [RuruLoop.loop_of_cons env hq] at hl
      cases hl
      simp [scanCalls, hq]
    | nil =>
      rw [RuruLoop.loop_of_nil env hq] at hl
      obtain ⟨r', hr', rfl⟩ := Option.map_eq_some_iff.mp hl
      have hwait := (RuruLoop.epollWait_keeps env hr').2
      rw [RuruLoop.scanClientCacheData_snd] at hwait
      simp only [scanCalls, hq, if_true, if_false, List.cons_ne_nil]
      exact hwait

/-- The counter is the number of calls, wrapped, and every call found it so. -/
structure Counted (p : Process σ υ) : Prop where
  count : p.count = toInt32 p.scans.length
  before : ∀ (j : ℕ) c, p.scans[j]? = some c → c.before.count = toInt32 j

theorem started_counted (loops : LoopId → PolledLoop σ υ) (usr : υ) (nextSock : Sock) :
    (started loops usr nextSock).Counted :=
  ⟨by simp [started, toInt32_of_lt], by simp [started]⟩

theorem step_counted {p p' : Process σ υ} {input : LoopId × LoopInput} (h : p.Counted)
    (hs : Step env p input p') : p'.Counted := by
  obtain ⟨st, hst, rfl⟩ := Option.map_eq_some_iff.mp hs
  obtain ⟨k, input⟩ := input
  have hcount := count_step env k hst
  have hview : (p.view k).ruru.count = p.count := rfl
  by_cases hscan : scanCalls k (p.view k) input = []
  · rw [if_pos hscan, hview] at hcount
    simp only [hscan, List.append_nil, hcount]
    exact ⟨h.count, h.before⟩
  · rw [if_neg hscan, hview, h.count, toInt32_succ] at hcount
    obtain ⟨c, hc, hbefore⟩ : ∃ c, scanCalls k (p.view k) input = [c] ∧ c.before.count = p.count := by
      cases input with
      | loop fuel evt batch =>
        simp only [scanCalls] at hscan ⊢
        split_ifs at hscan ⊢
        · exact ⟨_, rfl, rfl⟩
        · exact absurd rfl hscan
      | callback _ | sendUsrSctpData _ _ | sendSctpCacheData _ | clientSendHeartBeatData _ =>
        exact absurd rfl hscan
    constructor
    · simp [hcount, hc]
    · intro j d hd
      rw [hc] at hd
      rcases Nat.lt_trichotomy j p.scans.length with hj | hj | hj
      · rw [List.getElem?_append_left hj] at hd
        exact h.before j d hd
      · rw [hj, List.getElem?_concat_length] at hd
        obtain rfl := Option.some.inj hd
        rw [hbefore, h.count, hj]
      · rw [List.getElem?_eq_none (by simp; omega)] at hd
        exact absurd hd (by simp)

/-! ### Windows of 100 calls -/

/-- Among any 100 consecutive calls on one loop there is one that is performed. -/
def ScannedRegularly (p : Process σ υ) : Prop :=
  ∀ k pre window post, p.scans = pre ++ window ++ post →
    window.countP (·.loop == k) = 100 → ∃ c ∈ window, c.loop = k ∧ c.Performed

/-- Whenever a loop makes 100 calls in this order of calls, one of them has a number that wraps to a
multiple of 100. -/
def Interleaved (order : List LoopId) : Prop :=
  ∀ k pre window post, order = pre ++ window ++ post → window.count k = 100 →
    ∃ j : ℕ, window[j]? = some k ∧ 100 ∣ toInt32 (pre.length + j)

/-- The loops on which the calls were made. -/
def order (p : Process σ υ) : List LoopId := p.scans.map (·.loop)

theorem performed_iff (c : ScanCall σ υ) : c.Performed ↔ 100 ∣ c.before.count := by
  have hdue : c.before.count.tmod RuruLoop.roll = 0 ↔ 100 ∣ c.before.count :=
    Int.dvd_iff_tmod_eq_zero.symm
  refine ⟨fun h => hdue.mp h.1, fun h => ⟨hdue.mpr h, ?_⟩⟩
  rw [RuruLoop.scanClientCacheData_snd]
  simp only [hdue.mpr h, if_true]

/-- The performed calls of a part of the history, by their numbers. -/
theorem Counted.performed_in {p : Process σ υ} (h : p.Counted) {k : LoopId}
    {pre window post : List (ScanCall σ υ)} (hp : p.scans = pre ++ window ++ post) :
    (∃ c ∈ window, c.loop = k ∧ c.Performed) ↔
      ∃ j : ℕ, (window.map (·.loop))[j]? = some k ∧ 100 ∣ toInt32 (pre.length + j) := by
  have hat : ∀ (j : ℕ) c, window[j]? = some c → c.before.count = toInt32 (pre.length + j) := by
    intro j c hj
    have hlt : j < window.length := (List.getElem?_eq_some_iff.mp hj).1
    have hc : p.scans[pre.length + j]? = some c := by
      rw [hp, List.append_assoc, List.getElem?_append_right (by omega), Nat.add_sub_cancel_left,
        List.getElem?_append_left hlt, hj]
    have hcount := h.before _ c hc
    push_cast at hcount
    exact hcount
  constructor
  · rintro ⟨c, hc, hk, hperf⟩
    obtain ⟨j, hj⟩ := List.getElem?_of_mem hc
    refine ⟨j, by rw [List.getElem?_map, hj, Option.map_some, hk], ?_⟩
    rw [← hat j c hj]
    exact (performed_iff c).mp hperf
  · rintro ⟨j, hj, hdvd⟩
    rw [List.getElem?_map] at hj
    obtain ⟨c, hc, hk⟩ := Option.map_eq_some_iff.mp hj
    refine ⟨c, List.mem_of_getElem? hc, hk, (performed_iff c).mpr ?_⟩
    rw [hat j c hc]
    exact hdvd

theorem Counted.regularly_iff {p : Process σ υ} (h : p.Counted) :
    p.ScannedRegularly ↔ Interleaved p.order := by
  have hcount : ∀ (k : LoopId) (window : List (ScanCall σ υ)),
      (window.map (·.loop)).count k = window.countP (·.loop == k) := by
    intro k window
    rw [List.count, List.countP_map]
    rfl
  constructor
  · intro hreg k pre window post hp h100
    obtain ⟨front, post', hscans, hfront, rfl⟩ := List.map_eq_append_iff.mp hp
    obtain ⟨pre', window', rfl, rfl, rfl⟩ := List.map_eq_append_iff.mp hfront
    rw [hcount] at h100
    rw [List.length_map]
    exact (h.performed_in hscans).mp (hreg k pre' window' post' hscans h100)
  · intro hint k pre window post hp h100
    refine (h.performed_in hp).mpr ?_
    rw [← hcount] at h100
    have horder : p.order = pre.map (·.loop) ++ window.map (·.loop) ++ post.map (·.loop) := by
      rw [order, hp, List.map_append, List.map_append]
    have hex := hint k _ _ _ horder h100
    rwa [List.length_map] at hex

theorem toInt32_natCast_eq (n : ℕ) : toInt32 n =
    if n % 2 ^ 32 < 2 ^ 31 then ((n % 2 ^ 32 : ℕ) : ℤ) else ((n % 2 ^ 32 : ℕ) : ℤ) - 2 ^ 32 := by
  rw [toInt32_eq_bmod, Int.bmod]
  split_ifs <;> omega

/-- Among any 100 numbers in a row one wraps to a multiple of 100, also around 2^31 and 2^32. -/
theorem exists_dvd_toInt32 (n : ℕ) : ∃ j < 100, 100 ∣ toInt32 ((n + j : ℕ) : ℤ) := by
  -- the last multiple below 2^31 is 2147483600, and the first one behind the wrap 2147483696
  obtain ⟨r, hr⟩ : ∃ r, n % 2 ^ 32 = r := ⟨_, rfl⟩
  by_cases hlow : r ≤ 2147483600
  · refine ⟨(100 - r % 100) % 100, by omega, ?_⟩
    have hsum : (n + (100 - r % 100) % 100) % 2 ^ 32 = r + (100 - r % 100) % 100 := by omega
    rw [toInt32_natCast_eq, hsum, if_pos (by omega)]
    omega
  · by_cases hwrap : r < 2 ^ 31
    · refine ⟨2147483696 - r, by omega, ?_⟩
      have hsum : (n + (2147483696 - r)) % 2 ^ 32 = 2147483696 := by omega
      rw [toInt32_natCast_eq, hsum]
      norm_num
    · refine ⟨(2 ^ 32 - r) % 100, by omega, ?_⟩
      by_cases hzero : r + (2 ^ 32 - r) % 100 = 2 ^ 32
      · have hsum : (n + (2 ^ 32 - r) % 100) % 2 ^ 32 = 0 := by omega
        rw [toInt32_natCast_eq, hsum]
        norm_num
      · have hsum : (n + (2 ^ 32 - r) % 100) % 2 ^ 32 = r + (2 ^ 32 - r) % 100 := by omega
        rw [toInt32_natCast_eq, hsum, if_neg (by omega)]
        omega

/-- While one loop makes all the calls it is scanned regularly. -/
theorem interleaved_alone {order : List LoopId} {k : LoopId} (h : ∀ l ∈ order, l = k) :
    Interleaved order := by
  rintro l pre window post rfl h100
  have hwindow : window = List.replicate window.length k :=
    List.eq_replicate_iff.mpr ⟨rfl, fun m hm => h m (by simp [hm])⟩
  have hl : l ∈ window := List.count_pos_iff.mp (by omega)
  obtain rfl : l = k := h l (by simp [hl])
  obtain ⟨j, hj, hdvd⟩ := exists_dvd_toInt32 pre.length
  have hlen : j < window.length := by
    have := List.count_le_length (a := l) (l := window)
    omega
  refine ⟨j, ?_, by exact_mod_cast hdvd⟩
  rw [hwindow]
  simp [hlen]

/-- **Regular scans.**  In every state of every run of the loops of a process, each loop is scanned
at least once in every 100 of its calls exactly if the calls are interleaved so. -/
theorem scanned_regularly_iff (loops : LoopId → PolledLoop σ υ) (usr : υ) (nextSock : Sock)
    (inputs : List (LoopId × LoopInput)) :
    Lts.Always (Step env) (fun p => p.ScannedRegularly ↔ Interleaved p.order)
      (started loops usr nextSock) inputs := by
  refine Lts.always_iff_prefix.mpr fun pre post _ p hpath => ?_
  have hcounted : p.Counted := by
    refine Lts.Path.invariant (P := Counted) (fun _ _ _ hs ht => step_counted env hs ht) hpath ?_
    exact started_counted loops usr nextSock
  exact hcounted.regularly_iff

/-- Two loops with a client each; that of the second one has a cached message. -/
def twoLoops : Process PlainSsl (List SendvResult) :=
  started (fun k => { ruru := if k = 1
    then sampleLoop.updateClient 0 fun c => { c with cache := [⟨{}, ascii "hi", 2⟩] }
    else sampleLoop }) [] 0

/-- The two loops are polled in turn, a hundred times each. -/
def alternateCalls : List (LoopId × LoopInput) :=
  (List.range 200).map fun n => (n % 2, .loop 0 {} ⟨[], List.nodup_nil⟩)

/-- All calls of the second loop have odd numbers. -/
theorem alternate_calls_not_regular :
    ¬Lts.Always (Step plainEnv) ScannedRegularly twoLoops alternateCalls := by
  intro h
  have key : ((alternateCalls.foldlM (step plainEnv) twoLoops).map order) =
      some ((List.range 200).map (· % 2)) := by
    decide +kernel
  obtain ⟨p, hp, horder⟩ := Option.map_eq_some_iff.mp key
  have hpath : Lts.Path (Step plainEnv) twoLoops alternateCalls p := Lts.path_iff_foldlM.mpr hp
  have hcounted : p.Counted :=
    Lts.Path.invariant (P := Counted) (fun _ _ _ hs ht => step_counted plainEnv hs ht) hpath
      (started_counted _ _ _)
  have hreg := Lts.always_iff_prefix.mp h alternateCalls [] (by simp) p hpath
  obtain ⟨j, hj, hdvd⟩ := hcounted.regularly_iff.mp hreg 1 [] p.order [] (by simp)
    (by rw [horder]; decide +kernel)
  rw [horder, List.getElem?_map] at hj
  obtain ⟨n, hn, hodd⟩ := Option.map_eq_some_iff.mp hj
  obtain ⟨hlt, rfl⟩ := List.getElem?_eq_some_iff.mp hn
  rw [List.length_range] at hlt
  have hodd : j % 2 = 1 := by rwa [List.getElem_range] at hodd
  rw [List.length_nil, Nat.cast_zero, Int.zero_add, toInt32_natCast (by omega)] at hdvd
  omega

end Process

end Ruru
