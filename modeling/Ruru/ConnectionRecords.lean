import Ruru.Descriptors
import Ruru.Dispatch

/-!
# Ruru.ConnectionRecords — records and registered descriptors

Every registered descriptor is open and belongs to a live record, so the error branch and the HTTP
handler delete a record once and close a descriptor that is open.  The other way round it fails in one
place: an accepted descriptor that `epoll_ctl` refuses is closed while its record stays.
-/

namespace Ruru

open Ledger

variable {σ υ : Type} (env : Env σ υ)

/-- The descriptor with which a record was made that was not deleted since. -/
def recordFd (trace : List Effect) (c : ConId) : Option ℤ := table (conOps trace) c

/-! ### The tables after one effect -/

section Tables

variable (trace : List Effect) (e : Effect)

theorem fdOpen_concat (x : ℤ) : FdOpen (trace ++ [e]) x ↔
    match e with
    | .opened fd => x = fd ∨ FdOpen trace x
    | .close fd => x ≠ fd ∧ FdOpen trace x
    | _ => FdOpen trace x := by
  rw [FdOpen, fdOps, List.filterMap_append, table_append]
  cases e with
  | opened fd =>
    show (Op.enter fd ()).on _ x = some () ↔ _
    rw [on_enter]
    by_cases hx : x = fd <;> simp [FdOpen, fdOps, hx]
  | close fd =>
    show (Op.remove fd : Op ℤ Unit).on _ x = some () ↔ _
    rw [on_remove]
    by_cases hx : x = fd <;> simp [FdOpen, fdOps, hx]
  | _ => exact Iff.rfl

theorem registeredCon_concat (x : ℤ) : registeredCon (trace ++ [e]) x =
    match e with
    | .epollAdd c fd => if x = fd then some c else registeredCon trace x
    | .close fd => if x = fd then none else registeredCon trace x
    | _ => registeredCon trace x := by
  rw [registeredCon, epollOps, List.filterMap_append, table_append]
  cases e with
  | epollAdd c fd => exact on_enter _ fd c x
  | close fd => exact on_remove _ fd x
  | _ => rfl

theorem recordFd_concat (y : ConId) : recordFd (trace ++ [e]) y =
    match e with
    | .newCon c fd => if y = c then some fd else recordFd trace y
    | .deleteCon c => if y = c then none else recordFd trace y
    | _ => recordFd trace y := by
  rw [recordFd, conOps, List.filterMap_append, table_append]
  cases e with
  | newCon c fd => exact on_enter _ c fd y
  | deleteCon c => exact on_remove _ c y
  | _ => rfl

theorem closesOpen_concat : ClosesOpen (trace ++ [e]) ↔ ClosesOpen trace ∧
    ∀ fd, e = .close fd → FdOpen trace fd := by
  rw [ClosesOpen, fdOps, List.filterMap_append, respects_append]
  refine and_congr_right fun _ => ?_
  cases e with
  | close fd =>
    have hunit : (table (fdOps trace) fd).isSome = true ↔ table (fdOps trace) fd = some () := by
      cases table (fdOps trace) fd <;> simp
    simpa [RespectsFrom, RemovesHeld, FdOpen, fdOps] using hunit
  | opened fd => exact iff_of_true ⟨trivial, trivial⟩ fun x he => by cases he
  | _ => exact iff_of_true trivial fun x he => by cases he

theorem deletesLive_concat : DeletesLive (trace ++ [e]) ↔ DeletesLive trace ∧
    ∀ c, e = .deleteCon c → recordFd trace c ≠ none := by
  rw [DeletesLive, conOps, List.filterMap_append, respects_append]
  refine and_congr_right fun _ => ?_
  cases e with
  | deleteCon c =>
    simp [RespectsFrom, RemovesHeld, recordFd, conOps, Option.isSome_iff_ne_none]
  | newCon c fd => exact iff_of_true ⟨trivial, trivial⟩ fun y he => by cases he
  | _ => exact iff_of_true trivial fun y he => by cases he

end Tables

namespace RuruLoop

/-- The descriptor of a live record. -/
def liveFd (s : RuruLoop σ υ) (c : ConId) : Option ℤ := ((s.cons[c]?).join).map (·.fd)

/-- The live records are, one to one, the descriptors that are open and registered. -/
def Corresponds (s : RuruLoop σ υ) : Prop :=
  ∀ c fd, s.liveFd c = some fd ↔ registeredCon s.trace fd = some c ∧ FdOpen s.trace fd

/-- The history agrees with the records, every registered descriptor is open and belongs to a live
record, and nothing was closed or deleted that was not there. -/
structure Accounted (s : RuruLoop σ υ) : Prop where
  records : ∀ c, recordFd s.trace c = s.liveFd c
  registered : ∀ fd c, registeredCon s.trace fd = some c →
    s.liveFd c = some fd ∧ FdOpen s.trace fd
  closes : ClosesOpen s.trace
  deletes : DeletesLive s.trace

/-- Only a live record without a registration is left to go wrong. -/
theorem Accounted.corresponds_iff {s : RuruLoop σ υ} (h : s.Accounted) :
    s.Corresponds ↔ ∀ c fd, s.liveFd c = some fd → registeredCon s.trace fd = some c :=
  ⟨fun hs c fd hlive => ((hs c fd).mp hlive).1,
    fun hs c fd => ⟨fun hlive => ⟨hs c fd hlive, (h.registered fd c (hs c fd hlive)).2⟩,
      fun hreg => (h.registered fd c hreg.1).1⟩⟩

theorem liveFd_closeCon (s : RuruLoop σ υ) (c y : ConId) (fd : ℤ) :
    (s.closeCon c fd).liveFd y = if y = c then none else s.liveFd y := by
  unfold liveFd closeCon
  by_cases hy : y = c
  · subst hy
    by_cases hlt : y < s.cons.length <;> simp [hlt]
  · simp [hy, List.getElem?_set_ne (Ne.symm hy)]

/-! ### What touches records and descriptors -/

/-- Something that is not about descriptors; the close of a connection; an accepted descriptor. -/
inductive Touch where
  | calm
  | close (c : ConId) (fd : ℤ)
  | accept (a : AcceptResult)

/-- Only a registered descriptor is closed with its record, and the kernel gives accepted
descriptors numbers that are not open. -/
def Touches (s : RuruLoop σ υ) : Touch → RuruLoop σ υ → Prop
  | .calm, t => Calm s t
  | .close c fd, t => registeredCon s.trace fd = some c ∧ t = s.closeCon c fd
  | .accept a, t => ¬FdOpen s.trace a.cfd ∧ Accepted s a t

/-- An accepted descriptor that is made non-blocking is registered. -/
def Touch.Registers : Touch → Prop
  | .accept a => a.nonBlocking = true → a.added = true
  | _ => True

theorem Calm.tables {s t : RuruLoop σ υ} (h : Calm s t) :
    fdOps t.trace = fdOps s.trace ∧ epollOps t.trace = epollOps s.trace ∧
      conOps t.trace = conOps s.trace := by
  obtain ⟨es, he, hes⟩ := h.effects
  rw [he]
  exact ops_calm hes s.trace

theorem Accounted.calm {s t : RuruLoop σ υ} (h : s.Accounted) (hcalm : Calm s t) :
    t.Accounted ∧ (t.Corresponds ↔ s.Corresponds) := by
  obtain ⟨hfd, hepoll, hcon⟩ := hcalm.tables
  have hlive : ∀ c, t.liveFd c = s.liveFd c := fun c => by rw [liveFd, hcalm.cons, liveFd]
  constructor
  · constructor
    · intro c
      rw [recordFd, hcon, hlive]
      exact h.records c
    · intro fd c hreg
      rw [registeredCon, hepoll] at hreg
      rw [hlive, FdOpen, hfd]
      exact h.registered fd c hreg
    · rw [ClosesOpen, hfd]
      exact h.closes
    · rw [DeletesLive, hcon]
      exact h.deletes
  · unfold Corresponds registeredCon FdOpen
    simp only [hlive, hfd, hepoll]

theorem Accounted.close {s : RuruLoop σ υ} (h : s.Accounted) {c : ConId} {fd : ℤ}
    (hreg : registeredCon s.trace fd = some c) :
    (s.closeCon c fd).Accounted ∧ ((s.closeCon c fd).Corresponds ↔ s.Corresponds) := by
  obtain ⟨hlive, hopen⟩ := h.registered fd c hreg
  have htrace : (s.closeCon c fd).trace = s.trace ++ [Effect.close fd] ++ [Effect.deleteCon c] := by
    rw [List.append_assoc]
    rfl
  have hcon : ∀ x, registeredCon (s.closeCon c fd).trace x =
      if x = fd then none else registeredCon s.trace x := by
    intro x
    rw [htrace, registeredCon_concat, registeredCon_concat]
  have haccounted : (s.closeCon c fd).Accounted := by
    constructor
    · intro y
      rw [htrace, recordFd_concat, recordFd_concat, liveFd_closeCon, h.records]
    · intro x y hx
      rw [hcon] at hx
      split_ifs at hx with hne
      obtain ⟨hy, hxopen⟩ := h.registered x y hx
      have hyc : y ≠ c := by
        rintro rfl
        exact hne (Option.some.inj (hy.symm.trans hlive))
      rw [liveFd_closeCon, if_neg hyc, htrace, fdOpen_concat, fdOpen_concat]
      exact ⟨hy, hne, hxopen⟩
    · rw [htrace, closesOpen_concat, closesOpen_concat]
      simpa [h.closes] using hopen
    · rw [htrace, deletesLive_concat, deletesLive_concat]
      simp [h.deletes, recordFd_concat, h.records, hlive]
  refine ⟨haccounted, ?_⟩
  rw [haccounted.corresponds_iff, h.corresponds_iff]
  constructor
  · intro hs y x hy
    by_cases hyc : y = c
    · subst hyc
      rw [Option.some.inj (hy.symm.trans hlive)]
      exact hreg
    · have hx := hs y x (by rw [liveFd_closeCon, if_neg hyc, hy])
      rw [hcon] at hx
      split_ifs at hx
      exact hx
  · intro hs y x hy
    rw [liveFd_closeCon] at hy
    split_ifs at hy with hyc
    have hx := hs y x hy
    have hne : x ≠ fd := by
      rintro rfl
      exact hyc (Option.some.inj (hx.symm.trans hreg))
    rw [hcon, if_neg hne]
    exact hx

theorem liveFd_length (s : RuruLoop σ υ) : s.liveFd s.cons.length = none := by simp [liveFd]

theorem liveFd_newCon {s t : RuruLoop σ υ} {fd : ℤ}
    (hcons : t.cons = s.cons ++ [some ({ fd := fd } : RuruConnectionData)]) (y : ConId) :
    t.liveFd y = if y = s.cons.length then some fd else s.liveFd y := by
  rw [liveFd, hcons, liveFd]
  rcases Nat.lt_trichotomy y s.cons.length with hlt | rfl | hgt
  · rw [List.getElem?_append_left hlt, if_neg (Nat.ne_of_lt hlt)]
  · simp
  · have hbeyond : (s.cons ++ [some ({ fd := fd } : RuruConnectionData)]).length ≤ y := by
      simpa using hgt
    rw [if_neg (Nat.ne_of_gt hgt), List.getElem?_eq_none hbeyond,
      List.getElem?_eq_none (Nat.le_of_lt hgt)]

/-- A descriptor that is not open is not registered. -/
theorem Accounted.not_registered {s : RuruLoop σ υ} (h : s.Accounted) {fd : ℤ}
    (hclosed : ¬FdOpen s.trace fd) : registeredCon s.trace fd = none := by
  cases hreg : registeredCon s.trace fd with
  | none => rfl
  | some c => exact absurd (h.registered fd c hreg).2 hclosed

theorem Accounted.rejected {s t : RuruLoop σ υ} (h : s.Accounted) {fd : ℤ}
    (hclosed : ¬FdOpen s.trace fd) (hcons : t.cons = s.cons)
    (htrace : t.trace = s.trace ++ [Effect.opened fd] ++ [Effect.close fd]) :
    t.Accounted ∧ (t.Corresponds ↔ s.Corresponds) := by
  have hlive : ∀ c, t.liveFd c = s.liveFd c := fun c => by rw [liveFd, hcons, liveFd]
  have hopen : ∀ x, FdOpen t.trace x ↔ FdOpen s.trace x := by
    intro x
    rw [htrace, fdOpen_concat, fdOpen_concat]
    by_cases hx : x = fd
    · simp [hx, hclosed]
    · simp [hx]
  have hcon : ∀ x, registeredCon t.trace x = registeredCon s.trace x := by
    intro x
    rw [htrace, registeredCon_concat, registeredCon_concat]
    by_cases hx : x = fd
    · simp [hx, h.not_registered hclosed]
    · simp [hx]
  constructor
  · constructor
    · intro c
      rw [htrace, recordFd_concat, recordFd_concat, hlive]
      exact h.records c
    · intro x c hx
      rw [hlive, hopen]
      exact h.registered x c ((hcon x).symm.trans hx)
    · rw [htrace, closesOpen_concat, closesOpen_concat]
      simp [h.closes, fdOpen_concat]
    · rw [htrace, deletesLive_concat, deletesLive_concat]
      simp [h.deletes]
  · unfold Corresponds
    simp only [hlive, hopen, hcon]

theorem Accounted.added {s t : RuruLoop σ υ} (h : s.Accounted) {fd : ℤ}
    (hclosed : ¬FdOpen s.trace fd)
    (hcons : t.cons = s.cons ++ [some ({ fd := fd } : RuruConnectionData)])
    (htrace : t.trace = s.trace ++ [Effect.opened fd] ++ [Effect.newCon s.cons.length fd] ++
      [Effect.epollAdd s.cons.length fd]) :
    t.Accounted ∧ (t.Corresponds ↔ s.Corresponds) := by
  have hlive := liveFd_newCon hcons
  have hcon : ∀ x, registeredCon t.trace x =
      if x = fd then some s.cons.length else registeredCon s.trace x := by
    intro x
    rw [htrace, registeredCon_concat, registeredCon_concat, registeredCon_concat]
  have haccounted : t.Accounted := by
    constructor
    · intro c
      rw [htrace, recordFd_concat, recordFd_concat, recordFd_concat, hlive, h.records]
    · intro x c hx
      rw [hcon] at hx
      rw [hlive, htrace, fdOpen_concat, fdOpen_concat, fdOpen_concat]
      split_ifs at hx with hxfd
      · obtain rfl := Option.some.inj hx
        exact ⟨by rw [if_pos rfl, hxfd], Or.inl hxfd⟩
      · obtain ⟨hc, hxopen⟩ := h.registered x c hx
        have hold : c ≠ s.cons.length := by
          rintro rfl
          rw [liveFd_length] at hc
          exact absurd hc (by simp)
        exact ⟨by rw [if_neg hold, hc], Or.inr hxopen⟩
    · rw [htrace, closesOpen_concat, closesOpen_concat, closesOpen_concat]
      simp [h.closes]
    · rw [htrace, deletesLive_concat, deletesLive_concat, deletesLive_concat]
      simp [h.deletes]
  refine ⟨haccounted, ?_⟩
  rw [haccounted.corresponds_iff, h.corresponds_iff]
  constructor
  · intro ht c x hc
    have hold : c ≠ s.cons.length := by
      rintro rfl
      rw [liveFd_length] at hc
      exact absurd hc (by simp)
    have hx := ht c x (by rw [hlive, if_neg hold, hc])
    rw [hcon] at hx
    split_ifs at hx
    · exact absurd (Option.some.inj hx).symm hold
    · exact hx
  · intro hs c x hc
    rw [hlive] at hc
    rw [hcon]
    split_ifs at hc with hnew
    · rw [if_pos (Option.some.inj hc).symm, hnew]
    · have hx := hs c x hc
      have hne : x ≠ fd := by
        rintro rfl
        exact hclosed (h.registered x c hx).2
      rw [if_neg hne, hx]

/-- The record of a descriptor that was not registered stays without one. -/
theorem Accounted.notAdded {s t : RuruLoop σ υ} (h : s.Accounted) {fd : ℤ}
    (hclosed : ¬FdOpen s.trace fd)
    (hcons : t.cons = s.cons ++ [some ({ fd := fd } : RuruConnectionData)])
    (htrace : t.trace = s.trace ++ [Effect.opened fd] ++ [Effect.newCon s.cons.length fd] ++
      [Effect.close fd]) :
    t.Accounted ∧ ¬t.Corresponds := by
  have hlive := liveFd_newCon hcons
  have hcon : ∀ x, registeredCon t.trace x = registeredCon s.trace x := by
    intro x
    rw [htrace, registeredCon_concat, registeredCon_concat, registeredCon_concat]
    by_cases hx : x = fd
    · simp [hx, h.not_registered hclosed]
    · simp [hx]
  constructor
  · constructor
    · intro c
      rw [htrace, recordFd_concat, recordFd_concat, recordFd_concat, hlive, h.records]
    · intro x c hx
      rw [hcon] at hx
      obtain ⟨hc, hxopen⟩ := h.registered x c hx
      have hold : c ≠ s.cons.length := by
        rintro rfl
        rw [liveFd_length] at hc
        exact absurd hc (by simp)
      have hne : x ≠ fd := by
        rintro rfl
        exact hclosed hxopen
      rw [hlive, if_neg hold, htrace, fdOpen_concat, fdOpen_concat, fdOpen_concat]
      exact ⟨hc, hne, Or.inr hxopen⟩
    · have hopened : FdOpen (s.trace ++ [Effect.opened fd] ++ [Effect.newCon s.cons.length fd]) fd := by
        rw [fdOpen_concat, fdOpen_concat]
        exact Or.inl rfl
      rw [htrace, closesOpen_concat, closesOpen_concat, closesOpen_concat]
      simpa [h.closes] using hopened
    · rw [htrace, deletesLive_concat, deletesLive_concat, deletesLive_concat]
      simp [h.deletes]
  · intro ht
    have hreg := ((ht s.cons.length fd).mp (by rw [hlive, if_pos rfl])).1
    rw [hcon, h.not_registered hclosed] at hreg
    exact absurd hreg (by simp)

theorem Accounted.touches {s t : RuruLoop σ υ} (h : s.Accounted) {l : Touch} (ht : Touches s l t) :
    t.Accounted ∧ (t.Corresponds ↔ s.Corresponds ∧ l.Registers) := by
  cases l with
  | calm => simpa [Touch.Registers] using h.calm ht
  | close c fd =>
    obtain ⟨hreg, rfl⟩ := ht
    simpa [Touch.Registers] using h.close hreg
  | accept a =>
    obtain ⟨hclosed, haccepted⟩ := ht
    cases haccepted with
    | rejected blocking =>
      rw [and_iff_left (show (Touch.accept a).Registers by simp [Touch.Registers, blocking])]
      exact h.rejected hclosed rfl (by simp)
    | added nonBlocking added =>
      rw [and_iff_left (show (Touch.accept a).Registers from fun _ => added)]
      exact h.added hclosed rfl (by simp)
    | notAdded nonBlocking notAdded =>
      refine (h.notAdded hclosed rfl (by simp)).imp_right fun hnot => ?_
      simp [Touch.Registers, nonBlocking, notAdded, hnot]

/-- The sockets stay, and so does a live record with its registration. -/
structure Spares (q : ConId) (s t : RuruLoop σ υ) : Prop where
  sockets : t.udpfd_ = s.udpfd_ ∧ t.tcpfd_ = s.tcpfd_
  record : ∀ con, s.cons[q]? = some (some con) → t.cons[q]? = some (some con)
  registered : ∀ fd, registeredCon s.trace fd = some q → registeredCon t.trace fd = some q

theorem Spares.trans {q : ConId} {s t u : RuruLoop σ υ} (h : Spares q s t) (h' : Spares q t u) :
    Spares q s u :=
  ⟨⟨h'.sockets.1.trans h.sockets.1, h'.sockets.2.trans h.sockets.2⟩,
    fun con hcon => h'.record con (h.record con hcon),
    fun fd hreg => h'.registered fd (h.registered fd hreg)⟩

theorem Calm.spares {s t : RuruLoop σ υ} (h : Calm s t) (q : ConId) : Spares q s t := by
  refine ⟨h.sockets, fun con hcon => by rw [h.cons, hcon], fun fd hreg => ?_⟩
  rw [registeredCon, h.tables.2.1]
  exact hreg

theorem Accepted.spares {s t : RuruLoop σ υ} {a : AcceptResult} (h : Accepted s a t)
    (hacc : s.Accounted) (hclosed : ¬FdOpen s.trace a.cfd) (q : ConId) : Spares q s t := by
  have hne : ∀ fd, registeredCon s.trace fd = some q → fd ≠ a.cfd := by
    rintro fd hreg rfl
    exact hclosed (hacc.registered _ q hreg).2
  have hrecord : ∀ con, s.cons[q]? = some (some con) →
      (s.cons ++ [some ({ fd := a.cfd } : RuruConnectionData)])[q]? = some (some con) := by
    intro con hcon
    rw [List.getElem?_append_left (List.getElem?_eq_some_iff.mp hcon).1, hcon]
  cases h with
  | rejected blocking =>
    refine ⟨⟨rfl, rfl⟩, fun _ hcon => hcon, fun fd hreg => ?_⟩
    rw [List.append_cons, registeredCon_concat, registeredCon_concat]
    simp [hne fd hreg, hreg]
  | added nonBlocking added =>
    refine ⟨⟨rfl, rfl⟩, hrecord, fun fd hreg => ?_⟩
    rw [List.append_cons s.trace, List.append_cons (s.trace ++ _), registeredCon_concat,
      registeredCon_concat, registeredCon_concat]
    simp [hne fd hreg, hreg]
  | notAdded nonBlocking notAdded =>
    refine ⟨⟨rfl, rfl⟩, hrecord, fun fd hreg => ?_⟩
    rw [List.append_cons s.trace, List.append_cons (s.trace ++ _), registeredCon_concat,
      registeredCon_concat, registeredCon_concat]
    simp [hne fd hreg, hreg]

/-- Only the close of its connection does not spare a record. -/
theorem Touches.spares {s t : RuruLoop σ υ} {l : Touch} (ht : Touches s l t) (h : s.Accounted)
    {q : ConId} (hother : ∀ fd, l ≠ .close q fd) : Spares q s t := by
  cases l with
  | calm => exact Calm.spares ht q
  | accept a => exact ht.2.spares h ht.1 q
  | close c fd' =>
    obtain ⟨hreg', rfl⟩ := ht
    have hqc : q ≠ c := by
      rintro rfl
      exact hother fd' rfl
    refine ⟨⟨rfl, rfl⟩, fun con hcon => ?_, fun fd hreg => ?_⟩
    · rw [closeCon, List.getElem?_set_ne (Ne.symm hqc), hcon]
    · have hne : fd ≠ fd' := by
        rintro rfl
        exact hqc (Option.some.inj (hreg.symm.trans hreg'))
      rw [closeCon, List.append_cons, registeredCon_concat, registeredCon_concat]
      simp [hne, hreg]

/-! ### Several of them -/

theorem Accounted.path {s t : RuruLoop σ υ} (h : s.Accounted) {ls : List Touch}
    (hp : Lts.Path Touches s ls t) :
    t.Accounted ∧ (t.Corresponds ↔ s.Corresponds ∧ ∀ l ∈ ls, l.Registers) := by
  induction ls generalizing s with
  | nil =>
    obtain rfl : t = s := hp
    exact ⟨h, by simp⟩
  | cons l ls ih =>
    obtain ⟨u, hu, hrest⟩ := hp
    obtain ⟨hacc, hiff⟩ := h.touches hu
    obtain ⟨hacc', hiff'⟩ := ih hacc hrest
    refine ⟨hacc', ?_⟩
    rw [hiff', hiff, List.forall_mem_cons, and_assoc]

theorem spares_of_path {s t : RuruLoop σ υ} (h : s.Accounted) {ls : List Touch}
    (hp : Lts.Path Touches s ls t) {q : ConId} (hother : ∀ fd, .close q fd ∉ ls) : Spares q s t := by
  induction ls generalizing s with
  | nil =>
    obtain rfl : t = s := hp
    exact ⟨⟨rfl, rfl⟩, fun _ hcon => hcon, fun _ hreg => hreg⟩
  | cons l ls ih =>
    obtain ⟨u, hu, hrest⟩ := hp
    have hfirst : Spares q s u := hu.spares h fun fd hl => hother fd (by simp [hl])
    exact hfirst.trans (ih (h.touches hu).1 hrest fun fd hmem => hother fd (List.mem_cons_of_mem _ hmem))

/-! ### Events -/

/-- `epoll_wait` can report the record: a descriptor is registered with it. -/
def Reported (s : RuruLoop σ υ) (q : ConId) : Prop := ∃ fd, registeredCon s.trace fd = some q

/-- The connections that serving the event accepts. -/
def accepts (s : RuruLoop σ υ) (e : EpollEvent) : List AcceptResult :=
  match (s.cons[e.ptr]?).join with
  | none => []
  | some con => if e.failed ∨ con.fd = s.udpfd_ ∨ con.fd ≠ s.tcpfd_ then [] else e.accepts

/-- `epoll_ctl` registers every descriptor that serving the event accepts and makes non-blocking. -/
def AcceptsRegistered (s : RuruLoop σ υ) (e : EpollEvent) : Prop :=
  ∀ a ∈ s.accepts e, a.nonBlocking = true → a.added = true

/-- The record of a reported event is live, and its descriptor is the one registered. -/
theorem Accounted.reported {s : RuruLoop σ υ} (h : s.Accounted) {q : ConId} (hrep : s.Reported q) :
    ∃ con, s.cons[q]? = some (some con) ∧ registeredCon s.trace con.fd = some q := by
  obtain ⟨fd, hreg⟩ := hrep
  obtain ⟨con, hcon, rfl⟩ := Option.map_eq_some_iff.mp (h.registered fd q hreg).1
  exact ⟨con, Option.join_eq_some_iff.mp hcon, hreg⟩

/-- Serving an event touches only its own record. -/
theorem Serves.touches {fuel : ℕ} {s t : RuruLoop σ υ} {e : EpollEvent} (hs : Serves env fuel s e t)
    (h : s.Accounted) (hrep : s.Reported e.ptr) (hfree : OpensFree t.trace) :
    ∃ ls, Lts.Path Touches s ls t ∧ (∀ c fd, .close c fd ∈ ls → c = e.ptr) ∧
      ((∀ l ∈ ls, l.Registers) ↔ s.AcceptsRegistered e) := by
  obtain ⟨con, hcon, hreg⟩ := h.reported hrep
  cases hs with
  | gone dead =>
    rw [hcon] at dead
    exact absurd dead (by simp)
  | @error con' live failed =>
    obtain rfl := Option.some.inj (Option.some.inj (hcon.symm.trans live))
    refine ⟨[.close e.ptr con.fd], ⟨_, ⟨hreg, rfl⟩, rfl⟩, by simp, ?_⟩
    simp [AcceptsRegistered, accepts, live, failed, Touch.Registers]
  | udp live sound fd drained =>
    refine ⟨[.calm], ⟨_, (work_recvDatagrams env drained).calm, rfl⟩, by simp, ?_⟩
    simp [AcceptsRegistered, accepts, live, fd, Touch.Registers]
  | accept live sound udp fd =>
    refine ⟨e.accepts.map .accept, ?_, by simp, ?_⟩
    · exact (path_accepts hfree).map Touch.accept fun _ _ _ ha => ha
    · have haccepts : s.accepts e = e.accepts := by
        rw [accepts, live, Option.join_some]
        exact if_neg (by simp [sound, fd, fd ▸ udp])
      rw [AcceptsRegistered, haccepts]
      simp [Touch.Registers]
  | @http con' live sound udp tcp u answer =>
    obtain rfl := Option.some.inj (Option.some.inj (hcon.symm.trans live))
    have hcalm := answer.calm
    have hreg' : registeredCon u.trace con.fd = some e.ptr := (hcalm.spares e.ptr).registered _ hreg
    refine ⟨[.calm, .close e.ptr con.fd], ⟨_, hcalm, _, ⟨hreg', rfl⟩, rfl⟩, by simp, ?_⟩
    simp [AcceptsRegistered, accepts, live, tcp, Touch.Registers]

theorem Spares.acceptsRegistered {s t : RuruLoop σ υ} {e : EpollEvent} (h : Spares e.ptr s t)
    {con : RuruConnectionData} (hcon : s.cons[e.ptr]? = some (some con)) :
    t.AcceptsRegistered e ↔ s.AcceptsRegistered e := by
  unfold AcceptsRegistered accepts
  rw [hcon, h.record con hcon, h.sockets.1, h.sockets.2]

theorem Spares.reported {s t : RuruLoop σ υ} {q : ConId} (h : Spares q s t) (hrep : s.Reported q) :
    t.Reported q := by
  obtain ⟨fd, hreg⟩ := hrep
  exact ⟨fd, h.registered fd hreg⟩

/-- The loop over the events touches only the records of the events. -/
theorem touches_of_epollEvents {fuel : ℕ} {es : List EpollEvent} (hnodup : (es.map (·.ptr)).Nodup)
    {s : RuruLoop σ υ} (h : s.Accounted) (hrep : ∀ e ∈ es, s.Reported e.ptr)
    {r : Bool × RuruLoop σ υ} (hr : s.epollEvents env fuel es = some r)
    (hfree : OpensFree r.2.trace) :
    ∃ ls, Lts.Path Touches s ls r.2 ∧ (∀ c fd, .close c fd ∈ ls → c ∈ es.map (·.ptr)) ∧
      ((∀ l ∈ ls, l.Registers) ↔ ∀ e ∈ es, s.AcceptsRegistered e) := by
  induction es generalizing s r with
  | nil =>
    cases hr
    exact ⟨[], rfl, by simp, by simp⟩
  | cons e es ih =>
    rw [List.map_cons, List.nodup_cons] at hnodup
    unfold epollEvents at hr
    split at hr
    · exact absurd hr (by simp)
    · rename_i haveData t ht
      obtain ⟨r', hr', rfl⟩ := Option.map_eq_some_iff.mp hr
      obtain ⟨new, hnew⟩ := epollEvents_grows env hr'
      have hfree' : OpensFree t.trace := (hnew ▸ hfree : OpensFree (t.trace ++ new)).of_append
      obtain ⟨ls, hpath, hclose, hiff⟩ := (serves_of_epollEvent env ht).touches env h
        (hrep e List.mem_cons_self) hfree'
      have hacc : t.Accounted := (h.path hpath).1
      have hspares : ∀ e' ∈ es, Spares e'.ptr s t := by
        refine fun e' he' => spares_of_path h hpath fun fd hmem => hnodup.1 ?_
        rw [← hclose _ fd hmem]
        exact List.mem_map_of_mem he'
      have hrep' : ∀ e' ∈ es, t.Reported e'.ptr := fun e' he' =>
        (hspares e' he').reported (hrep e' (List.mem_cons_of_mem _ he'))
      obtain ⟨ls', hpath', hclose', hiff'⟩ := ih hnodup.2 hacc hrep' hr' hfree
      refine ⟨ls ++ ls', hpath.append hpath', fun c fd hmem => ?_, ?_⟩
      · rcases List.mem_append.mp hmem with hmem | hmem
        · simp [hclose c fd hmem]
        · exact List.mem_cons_of_mem _ (hclose' c fd hmem)
      · rw [List.forall_mem_append, hiff, hiff', List.forall_mem_cons]
        refine and_congr_right fun _ => forall₂_congr fun e' he' => ?_
        obtain ⟨con, hcon, -⟩ := h.reported (hrep e' (List.mem_cons_of_mem _ he'))
        exact (hspares e' he').acceptsRegistered hcon

theorem touches_of_epollWait {fuel : ℕ} {batch : EpollBatch} {s : RuruLoop σ υ} (h : s.Accounted)
    (hrep : ∀ e ∈ batch.events, s.Reported e.ptr) {r : Bool × RuruLoop σ υ}
    (hr : s.epollWait env fuel batch = some r) (hfree : OpensFree r.2.trace) :
    ∃ ls, Lts.Path Touches s ls r.2 ∧
      ((∀ l ∈ ls, l.Registers) ↔ ∀ e ∈ batch.events, s.AcceptsRegistered e) := by
  have hall : (batch.events.filter fun e => ((s.cons[e.ptr]?).join).isSome) = batch.events := by
    refine List.filter_eq_self.mpr fun e he => ?_
    obtain ⟨con, hcon, -⟩ := h.reported (hrep e he)
    rw [hcon]
    rfl
  rw [epollWait, hall] at hr
  obtain ⟨ls, hpath, -, hiff⟩ := touches_of_epollEvents env batch.nodup h hrep hr hfree
  exact ⟨ls, hpath, hiff⟩

/-- Every record that `epoll_wait` reports next is live when its event is served. -/
def ServesLive (s : RuruLoop σ υ) : Prop :=
  ∀ (fuel : ℕ) (batch : EpollBatch), (∀ e ∈ batch.events, s.Reported e.ptr) →
    ∀ pre e post, batch.events = pre ++ e :: post → ∀ r, s.epollEvents env fuel pre = some r →
      OpensFree r.2.trace → ∃ con, r.2.cons[e.ptr]? = some (some con)

theorem Accounted.servesLive {s : RuruLoop σ υ} (h : s.Accounted) : s.ServesLive env := by
  intro fuel batch hrep pre e post hevents r hr hfree
  have hnodup : ((pre ++ e :: post).map (·.ptr)).Nodup := hevents ▸ batch.nodup
  rw [List.map_append, List.map_cons] at hnodup
  rw [hevents] at hrep
  obtain ⟨ls, hpath, hclose, -⟩ := touches_of_epollEvents env hnodup.of_append_left h
    (fun e' he' => hrep e' (List.mem_append_left _ he')) hr hfree
  obtain ⟨con, hcon, -⟩ := h.reported (hrep e (by simp))
  have hspares : Spares e.ptr s r.2 := by
    refine spares_of_path h hpath fun fd hmem => ?_
    exact (List.nodup_append.mp hnodup).2.2 _ (hclose _ fd hmem) _ List.mem_cons_self rfl
  exact ⟨con, hspares.record con hcon⟩

end RuruLoop

end Ruru
