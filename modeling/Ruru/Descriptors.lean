import Ruru.ClientWork
import Ruru.Lib.Ledger
import Ruru.Serving

/-!
# Ruru.Descriptors — descriptors, registrations and connection records

Three tables kept by the history: the open descriptors, the registrations with `epfd_` (closing a
descriptor ends its registration), and the connection records.  Only the accept branch and the
closing of a connection touch them; the lemmas say how.
-/

namespace Ruru

open Ledger

variable {σ υ : Type} (env : Env σ υ)

/-- A descriptor is opened, closed or registered, or a record made or deleted. -/
def Effect.isDescriptor : Effect → Bool
  | .opened _ | .close _ | .newCon .. | .deleteCon _ | .epollAdd .. => true
  | _ => false

/-- The descriptors opened and closed. -/
def fdOps (trace : List Effect) : List (Op ℤ Unit) :=
  trace.filterMap fun
    | .opened fd => some (.enter fd ())
    | .close fd => some (.remove fd)
    | _ => none

/-- The registrations with `epfd_`: the record a descriptor is registered with. -/
def epollOps (trace : List Effect) : List (Op ℤ ConId) :=
  trace.filterMap fun
    | .epollAdd con fd => some (.enter fd con)
    | .close fd => some (.remove fd)
    | _ => none

/-- The records made and deleted, with their descriptors. -/
def conOps (trace : List Effect) : List (Op ConId ℤ) :=
  trace.filterMap fun
    | .newCon con fd => some (.enter con fd)
    | .deleteCon con => some (.remove con)
    | _ => none

def FdOpen (trace : List Effect) (fd : ℤ) : Prop := table (fdOps trace) fd = some ()

/-- The record with which a descriptor is registered. -/
def registeredCon (trace : List Effect) (fd : ℤ) : Option ConId := table (epollOps trace) fd

/-- The kernel gives a new descriptor a number that is not open. -/
def OpensFree (trace : List Effect) : Prop := Respects EntersFree (fdOps trace)

/-- No descriptor is closed that is not open. -/
def ClosesOpen (trace : List Effect) : Prop := Respects RemovesHeld (fdOps trace)

/-- No record is deleted that is not there. -/
def DeletesLive (trace : List Effect) : Prop := Respects RemovesHeld (conOps trace)

instance (trace : List Effect) : Decidable (OpensFree trace) :=
  inferInstanceAs (Decidable (Respects EntersFree (fdOps trace)))

theorem OpensFree.of_append {trace es : List Effect} (h : OpensFree (trace ++ es)) :
    OpensFree trace := by
  rw [OpensFree, fdOps, List.filterMap_append] at h
  exact Respects.of_append h

/-! ### What is left alone -/

/-- Effects that are not about descriptors do not show in the tables. -/
theorem ops_calm {es : List Effect} (h : ∀ e ∈ es, e.isDescriptor = false) (trace : List Effect) :
    fdOps (trace ++ es) = fdOps trace ∧ epollOps (trace ++ es) = epollOps trace ∧
      conOps (trace ++ es) = conOps trace := by
  have hnone : ∀ {β : Type} (f : Effect → Option β),
      (∀ e : Effect, e.isDescriptor = false → f e = none) →
      (trace ++ es).filterMap f = trace.filterMap f := by
    intro β f hf
    rw [List.filterMap_append, List.filterMap_eq_nil_iff.mpr fun e he => hf e (h e he),
      List.append_nil]
  refine ⟨hnone _ ?_, hnone _ ?_, hnone _ ?_⟩
  all_goals
    intro e he
    cases e <;> first | rfl | cases he

namespace RuruLoop

/-- Nothing happens to connection records and descriptors. -/
structure Calm (s t : RuruLoop σ υ) : Prop where
  cons : t.cons = s.cons
  sockets : t.udpfd_ = s.udpfd_ ∧ t.tcpfd_ = s.tcpfd_
  effects : ∃ es, t.trace = s.trace ++ es ∧ ∀ e ∈ es, e.isDescriptor = false

theorem UdpWork.calm {s t : RuruLoop σ υ} (h : UdpWork s t) : Calm s t := by
  obtain ⟨es, he, hes⟩ := h.effects
  refine ⟨h.cons, h.sockets, es, he, fun e hmem => ?_⟩
  have hwork := hes e hmem
  cases e <;> first | rfl | cases hwork

theorem Answer.calm {s t : RuruLoop σ υ} {fd : ℤ} {address : Option RuruAddress}
    (h : Answer env s fd address t) : Calm s t := by
  cases h with
  | silent => exact ⟨rfl, ⟨rfl, rfl⟩, [], by simp, by simp⟩
  | badRequest => exact ⟨rfl, ⟨rfl, rfl⟩, _, rfl, by simp [Effect.isDescriptor]⟩
  | ok address =>
    obtain ⟨u, client, hu, -, he⟩ := registerClient_cases env s address
    obtain ⟨es, htrace, hes⟩ := hu.udpWork.calm.effects
    rw [he]
    refine ⟨hu.cons, hu.sockets, es ++ [.registered s.clientMgr_.length address,
      .socketWrite fd httpOk], by simp [note, htrace], fun e hmem => ?_⟩
    rcases List.mem_append.mp hmem with hmem | hmem
    · exact hes e hmem
    · simp only [List.mem_cons, List.not_mem_nil, or_false] at hmem
      rcases hmem with rfl | rfl <;> rfl

/-! ### Accepting and closing -/

/-- What becomes of an accepted socket: closed again; or a record is made for it, and it is
registered, or closed while the record stays. -/
inductive Accepted (s : RuruLoop σ υ) (a : AcceptResult) : RuruLoop σ υ → Prop
  | rejected (blocking : a.nonBlocking = false) :
      Accepted s a { s with trace := s.trace ++ [.opened a.cfd, .close a.cfd] }
  | added (nonBlocking : a.nonBlocking = true) (added : a.added = true) :
      Accepted s a { s with
        cons := s.cons ++ [some { fd := a.cfd }]
        trace := s.trace ++ [.opened a.cfd, .newCon s.cons.length a.cfd,
          .epollAdd s.cons.length a.cfd] }
  | notAdded (nonBlocking : a.nonBlocking = true) (notAdded : a.added = false) :
      Accepted s a { s with
        cons := s.cons ++ [some { fd := a.cfd }]
        trace := s.trace ++ [.opened a.cfd, .newCon s.cons.length a.cfd, .close a.cfd] }

theorem acceptOne_accepted (s : RuruLoop σ υ) (a : AcceptResult) : Accepted s a (s.acceptOne a) := by
  unfold acceptOne
  by_cases hnb : a.nonBlocking = true
  · simp only [hnb, if_true, note]
    by_cases hadd : a.added = true
    · rw [if_pos hadd]
      simpa using Accepted.added hnb hadd
    · rw [if_neg hadd]
      simpa using Accepted.notAdded hnb (Bool.eq_false_iff.mpr hadd)
  · simp only [if_neg hnb, note]
    simpa using Accepted.rejected (Bool.eq_false_iff.mpr hnb)

/-- Effects are only added. -/
theorem Accepted.trace {s t : RuruLoop σ υ} {a : AcceptResult} (h : Accepted s a t) :
    ∃ es, t.trace = (s.trace ++ [.opened a.cfd]) ++ es := by
  cases h with
  | rejected blocking => exact ⟨[.close a.cfd], by simp⟩
  | added nonBlocking added => exact ⟨[.newCon s.cons.length a.cfd, .epollAdd s.cons.length a.cfd],
      by simp⟩
  | notAdded nonBlocking notAdded =>
    exact ⟨[.newCon s.cons.length a.cfd, .close a.cfd], by simp⟩

theorem accepts_trace (as : List AcceptResult) (s : RuruLoop σ υ) :
    ∃ es, (as.foldl acceptOne s).trace = s.trace ++ es := by
  induction as generalizing s with
  | nil => exact ⟨[], (List.append_nil _).symm⟩
  | cons a as ih =>
    obtain ⟨es, he⟩ := (acceptOne_accepted s a).trace
    obtain ⟨es', he'⟩ := ih (s.acceptOne a)
    exact ⟨[.opened a.cfd] ++ es ++ es', by rw [List.foldl_cons, he', he]; simp⟩

/-- An accepted descriptor has a number that was not open. -/
theorem not_fdOpen_of_opensFree {trace es : List Effect} {fd : ℤ}
    (h : OpensFree ((trace ++ [.opened fd]) ++ es)) : ¬FdOpen trace fd := by
  have hops : fdOps (trace ++ [.opened fd] ++ es) = (fdOps trace ++ [.enter fd ()]) ++ fdOps es := by
    simp [fdOps, List.filterMap_append]
  rw [OpensFree, hops] at h
  have hfree : table (fdOps trace) fd = none := (respects_append.mp h.of_append).2.1
  rw [FdOpen, hfree]
  simp

/-- An accepted descriptor, with a number that was not open. -/
def AcceptsNew (s : RuruLoop σ υ) (a : AcceptResult) (t : RuruLoop σ υ) : Prop :=
  ¬FdOpen s.trace a.cfd ∧ Accepted s a t

/-- The loop over `accept`. -/
theorem path_accepts {as : List AcceptResult} {s : RuruLoop σ υ}
    (hfree : OpensFree (as.foldl acceptOne s).trace) :
    Lts.Path AcceptsNew s as (as.foldl acceptOne s) := by
  induction as generalizing s with
  | nil => rfl
  | cons a as ih =>
    have haccepted := acceptOne_accepted s a
    obtain ⟨es, he⟩ := haccepted.trace
    obtain ⟨es', he'⟩ := accepts_trace as (s.acceptOne a)
    rw [List.foldl_cons] at hfree ⊢
    have hclosed : ¬FdOpen s.trace a.cfd := by
      rw [he', he, List.append_assoc] at hfree
      exact not_fdOpen_of_opensFree hfree
    exact ⟨s.acceptOne a, ⟨hclosed, haccepted⟩, ih hfree⟩

/-- Serving an event only adds effects. -/
theorem Serves.grows {fuel : ℕ} {s t : RuruLoop σ υ} {e : EpollEvent} (h : Serves env fuel s e t) :
    ∃ es, t.trace = s.trace ++ es := by
  cases h with
  | gone dead => exact ⟨[], (List.append_nil _).symm⟩
  | error live failed => exact ⟨_, rfl⟩
  | udp live sound fd drained =>
    obtain ⟨es, he, -⟩ := (work_recvDatagrams env drained).calm.effects
    exact ⟨es, he⟩
  | accept live sound udp fd => exact accepts_trace e.accepts s
  | http live sound udp tcp answer =>
    obtain ⟨es, he, -⟩ := answer.calm.effects
    exact ⟨es ++ [.close _, .deleteCon e.ptr], by rw [closeCon, he, List.append_assoc]⟩

theorem epollEvents_grows {fuel : ℕ} {s : RuruLoop σ υ} {es : List EpollEvent}
    {r : Bool × RuruLoop σ υ} (h : s.epollEvents env fuel es = some r) :
    ∃ new, r.2.trace = s.trace ++ new := by
  refine epollEvents_induction env (R := fun s t => ∃ new, t.trace = s.trace ++ new)
    (fun s => ⟨[], (List.append_nil _).symm⟩) ?_ (fun _ _ _ _ hs => hs.grows) h
  rintro s t u ⟨es, he⟩ ⟨es', he'⟩
  exact ⟨es ++ es', by rw [he', he, List.append_assoc]⟩

/-- The scan queues events. -/
theorem calm_scanClientCacheData (s : RuruLoop σ υ) : Calm s s.scanClientCacheData.2 := by
  rw [scanClientCacheData_snd]
  refine ⟨rfl, ⟨rfl, rfl⟩, _, rfl, fun e he => ?_⟩
  obtain ⟨i, -, rfl⟩ := List.mem_map.mp he
  rfl

end RuruLoop

end Ruru
