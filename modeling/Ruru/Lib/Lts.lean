import Mathlib.Data.List.Basic
import Mathlib.Tactic.Common

/-!
# Ruru.Lib.Lts — runs of a labelled transition relation

`Path R s as s'`: the labels `as` lead from `s` to `s'`.  `Always R P s as`: `P` holds in every
state met on the way.  `Each R C s as`: every step taken meets the condition `C` of the state
before it and its label.  Rules: composition, the invariant rule, and `always_iff_each`, which
turns "one step keeps `P` exactly when it meets `C`" into the same statement about runs.
-/

namespace Lts

variable {σ ι : Type*}

/-- `as` leads from `s` to `s'`. -/
def Path (R : σ → ι → σ → Prop) : σ → List ι → σ → Prop
  | s, [], s' => s' = s
  | s, a :: as, s' => ∃ t, R s a t ∧ Path R t as s'

/-- `P` holds in every state that a run over `as` from `s` meets, `s` included. -/
def Always (R : σ → ι → σ → Prop) (P : σ → Prop) : σ → List ι → Prop
  | s, [] => P s
  | s, a :: as => P s ∧ ∀ t, R s a t → Always R P t as

/-- Every step that a run over `as` from `s` takes meets `C`. -/
def Each (R : σ → ι → σ → Prop) (C : σ → ι → Prop) : σ → List ι → Prop
  | _, [] => True
  | s, a :: as => ∀ t, R s a t → C s a ∧ Each R C t as

variable {R : σ → ι → σ → Prop}

theorem Path.append {s t u : σ} {as bs : List ι} (h : Path R s as t) (h' : Path R t bs u) :
    Path R s (as ++ bs) u := by
  induction as generalizing s with
  | nil => rw [show t = s from h] at h'; exact h'
  | cons a as ih =>
    obtain ⟨r, h1, h2⟩ := h
    exact ⟨r, h1, ih h2⟩

/-- Steps that are steps of another relation under other labels. -/
theorem Path.map {κ : Type*} {R' : σ → κ → σ → Prop} (f : ι → κ)
    (hstep : ∀ s a t, R s a t → R' s (f a) t) {s t : σ} {as : List ι} (h : Path R s as t) :
    Path R' s (as.map f) t := by
  induction as generalizing s with
  | nil => exact h
  | cons a as ih =>
    obtain ⟨r, h1, h2⟩ := h
    exact ⟨r, hstep s a r h1, ih h2⟩

/-- A run of a function that may fail is its fold. -/
theorem path_iff_foldlM {f : σ → ι → Option σ} {s t : σ} {as : List ι} :
    Path (fun s a s' => f s a = some s') s as t ↔ as.foldlM f s = some t := by
  induction as generalizing s with
  | nil => exact ⟨fun h => congrArg some h.symm, fun h => (Option.some.inj h).symm⟩
  | cons a as ih =>
    rw [List.foldlM_cons, Option.bind_eq_bind, Option.bind_eq_some_iff]
    exact exists_congr fun r => and_congr_right fun _ => ih

/-- The invariant rule. -/
theorem Path.invariant {P : σ → Prop} (hstep : ∀ s a t, P s → R s a t → P t) {s t : σ}
    {as : List ι} (h : Path R s as t) (h0 : P s) : P t := by
  induction as generalizing s with
  | nil => rw [show t = s from h]; exact h0
  | cons a as ih =>
    obtain ⟨r, h1, h2⟩ := h
    exact ih h2 (hstep s a r h0 h1)

theorem Always.mono {P Q : σ → Prop} {s : σ} {as : List ι} (h : Always R P s as)
    (hPQ : ∀ s, P s → Q s) : Always R Q s as := by
  induction as generalizing s with
  | nil => exact hPQ s h
  | cons a as ih => exact ⟨hPQ s h.1, fun t ht => ih (h.2 t ht)⟩

/-- `Always` is `P` at the end of every prefix of the run. -/
theorem always_iff_prefix {P : σ → Prop} {s : σ} {as : List ι} :
    Always R P s as ↔ ∀ pre post, as = pre ++ post → ∀ t, Path R s pre t → P t := by
  induction as generalizing s with
  | nil =>
    constructor
    · intro h pre post hp t ht
      obtain ⟨rfl, -⟩ := List.append_eq_nil_iff.mp hp.symm
      rw [show t = s from ht]; exact h
    · intro h; exact h [] [] rfl s rfl
  | cons a as ih =>
    constructor
    · rintro ⟨h0, h⟩ pre post hp t ht
      cases pre with
      | nil => rw [show t = s from ht]; exact h0
      | cons b pre =>
        obtain ⟨rfl, rfl⟩ := List.cons_eq_cons.mp hp
        obtain ⟨r, h1, h2⟩ := ht
        exact ih.mp (h r h1) pre post rfl t h2
    · intro h
      refine ⟨h [] _ rfl s rfl, fun r h1 => ih.mpr fun pre post hp t ht => ?_⟩
      exact h (a :: pre) post (by rw [hp]; rfl) t ⟨r, h1, ht⟩

/-- A run of a deterministic relation goes through exactly if no step on the way is missing. -/
theorem exists_path_iff (det : ∀ s a t t', R s a t → R s a t' → t = t') {s : σ} {as : List ι} :
    (∃ t, Path R s as t) ↔
      ∀ pre a post, as = pre ++ a :: post → ∀ t, Path R s pre t → ∃ u, R t a u := by
  induction as generalizing s with
  | nil =>
    refine ⟨fun _ pre a post hp => ?_, fun _ => ⟨s, rfl⟩⟩
    exact absurd hp.symm (by simp)
  | cons b as ih =>
    constructor
    · rintro ⟨t, r, h1, h2⟩ pre a post hp s' hs'
      cases pre with
      | nil =>
        obtain ⟨rfl, -⟩ := List.cons_eq_cons.mp hp
        rw [show s' = s from hs']
        exact ⟨r, h1⟩
      | cons c pre =>
        obtain ⟨rfl, rfl⟩ := List.cons_eq_cons.mp hp
        obtain ⟨r', h3, h4⟩ := hs'
        obtain rfl := det s b r r' h1 h3
        exact ih.mp ⟨t, h2⟩ pre a post rfl s' h4
    · intro h
      obtain ⟨r, h1⟩ := h [] b as rfl s rfl
      obtain ⟨t, h2⟩ := ih.mpr fun pre a post hp s' hs' =>
        h (b :: pre) a post (by rw [hp]; rfl) s' ⟨r, h1, hs'⟩
      exact ⟨t, r, h1, h2⟩

/-- **Exactness of runs.**  Let the invariant `I` be kept by every step that keeps `P`.  If a step
from such a state ends in a `P`-state exactly when it meets `C`, then `P` holds all along a run
exactly when every step of the run meets `C`. -/
theorem always_iff_each {I P : σ → Prop} {C : σ → ι → Prop}
    (hstep : ∀ s a t, I s → P s → R s a t → (P t ↔ C s a))
    (hinv : ∀ s a t, I s → P s → R s a t → P t → I t) {s : σ} (hI : I s) (hP : P s)
    (as : List ι) : Always R P s as ↔ Each R C s as := by
  induction as generalizing s with
  | nil => exact ⟨fun _ => trivial, fun _ => hP⟩
  | cons a as ih =>
    constructor
    · rintro ⟨-, h⟩ t ht
      have hPt : P t := by
        cases as with
        | nil => exact h t ht
        | cons b bs => exact (h t ht).1
      exact ⟨(hstep s a t hI hP ht).mp hPt, (ih (hinv s a t hI hP ht hPt) hPt).mp (h t ht)⟩
    · intro h
      refine ⟨hP, fun t ht => ?_⟩
      obtain ⟨hC, hr⟩ := h t ht
      have hPt : P t := (hstep s a t hI hP ht).mpr hC
      exact (ih (hinv s a t hI hP ht hPt) hPt).mpr hr

end Lts
