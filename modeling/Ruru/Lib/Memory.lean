import Mathlib.Data.List.TakeWhile
import Mathlib.Tactic.Common

/-!
# Ruru.Lib.Memory — byte-addressed memory with block loads and stores

A memory is a function from offsets to cells.  `load m p n` is the block of `n` cells at `p`,
`store m p xs` overwrites the block at `p` with `xs`.  Rules: a load of what was just stored, a
load disjoint from a store, splitting loads and joining adjacent stores.
-/

namespace Memory

variable {α : Type*}

/-- The `n` cells of `m` starting at `p`. -/
def load (m : ℕ → α) (p n : ℕ) : List α := (List.range n).map fun i => m (p + i)

/-- `m` with the block at `p` overwritten by `xs`. -/
def store (m : ℕ → α) (p : ℕ) (xs : List α) : ℕ → α :=
  fun j => if p ≤ j then (xs[j - p]?).getD (m j) else m j

@[simp] theorem length_load (m : ℕ → α) (p n : ℕ) : (load m p n).length = n := by
  simp [load]

@[simp] theorem load_zero (m : ℕ → α) (p : ℕ) : load m p 0 = [] := rfl

@[simp] theorem store_nil (m : ℕ → α) (p : ℕ) : store m p [] = m := by
  funext j; simp [store]

theorem getElem?_load (m : ℕ → α) (p n i : ℕ) :
    (load m p n)[i]? = if i < n then some (m (p + i)) else none := by
  by_cases h : i < n
  · simp [load, h]
  · simp [load, h]

theorem load_add (m : ℕ → α) (p a b : ℕ) : load m p (a + b) = load m p a ++ load m (p + a) b := by
  simp [load, List.range_add, Nat.add_assoc, Function.comp_def]

theorem load_succ (m : ℕ → α) (p n : ℕ) : load m p (n + 1) = m p :: load m (p + 1) n := by
  rw [Nat.add_comm, load_add]
  rfl

theorem take_load (m : ℕ → α) (p n k : ℕ) : (load m p n).take k = load m p (min k n) := by
  apply List.ext_getElem?
  intro i
  rw [List.getElem?_take, getElem?_load, getElem?_load]
  split_ifs <;> first | rfl | omega

theorem drop_load (m : ℕ → α) (p n k : ℕ) : (load m p n).drop k = load m (p + k) (n - k) := by
  apply List.ext_getElem?
  intro i
  rw [List.getElem?_drop, getElem?_load, getElem?_load, Nat.add_assoc]
  split_ifs <;> first | rfl | omega

/-- Two memories that agree on a block load the same block. -/
theorem load_congr {m m' : ℕ → α} {p n : ℕ} (h : ∀ i < n, m (p + i) = m' (p + i)) :
    load m p n = load m' p n := by
  unfold load
  exact List.map_congr_left fun i hi => h i (List.mem_range.mp hi)

/-- Equal blocks have equal cells. -/
theorem eq_of_load_eq {m m' : ℕ → α} {p n i : ℕ} (h : load m p n = load m' p n) (hi : i < n) :
    m (p + i) = m' (p + i) := by
  have hcell := congrArg (·[i]?) h
  simp only [getElem?_load, if_pos hi] at hcell
  exact Option.some.inj hcell

/-- The cells up to the first that fails a test depend on nothing behind that one. -/
theorem takeWhile_load_congr {m m' : ℕ → α} {q : α → Bool} {p n : ℕ}
    (h : ∀ k < n, (∀ j < k, q (m (p + j)) = true) → m' (p + k) = m (p + k)) :
    (load m' p n).takeWhile q = (load m p n).takeWhile q := by
  induction n generalizing p with
  | zero => rfl
  | succ n ih =>
    have h0 : m' p = m p := h 0 (Nat.succ_pos n) fun j hj => absurd hj (Nat.not_lt_zero j)
    rw [load_succ, load_succ, List.takeWhile_cons, List.takeWhile_cons, h0]
    cases hq : q (m p) with
    | false => rfl
    | true =>
      have ih' := @ih (p + 1) fun k hk hpast => by
        have hnext := h (k + 1) (Nat.succ_lt_succ hk) fun j hj => by
          cases j with
          | zero => exact hq
          | succ j =>
            have hj' := hpast j (Nat.lt_of_succ_lt_succ hj)
            rwa [Nat.add_assoc, Nat.add_comm 1 j] at hj'
        rwa [Nat.add_comm k 1, ← Nat.add_assoc] at hnext
      simp only [if_true, ih']

/-- A cell that fails the test ends the search before the end of the block. -/
theorem takeWhile_load_of_stop {m : ℕ → α} {q : α → Bool} {p n k l : ℕ} (hk : k < l) (hl : l ≤ n)
    (hstop : q (m (p + k)) = false) : (load m p n).takeWhile q = (load m p l).takeWhile q := by
  obtain ⟨r, rfl⟩ := Nat.exists_eq_add_of_le hl
  have hmem : m (p + k) ∈ load m p l := List.mem_map.mpr ⟨k, List.mem_range.mpr hk, rfl⟩
  have hcut : ((load m p l).takeWhile q).length ≠ (load m p l).length := by
    intro hlen
    have hall := (List.takeWhile_prefix (l := load m p l) q).eq_of_length hlen
    have htrue := List.mem_takeWhile_imp (hall ▸ hmem)
    rw [hstop] at htrue
    exact absurd htrue (by simp)
  rw [load_add, List.takeWhile_append, if_neg hcut]

theorem store_of_lt {m : ℕ → α} {p j : ℕ} (xs : List α) (h : j < p) : store m p xs j = m j := by
  simp [store, Nat.not_le.mpr h]

theorem store_of_ge {m : ℕ → α} {p j : ℕ} {xs : List α} (h : p + xs.length ≤ j) :
    store m p xs j = m j := by
  unfold store
  rw [List.getElem?_eq_none (by omega)]
  simp

/-- What was stored is what is loaded. -/
@[simp] theorem load_store (m : ℕ → α) (p : ℕ) (xs : List α) :
    load (store m p xs) p xs.length = xs := by
  apply List.ext_getElem?
  intro i
  rw [getElem?_load]
  by_cases h : i < xs.length
  · simp [store, h]
  · simp [h]

/-- A store does not change a block disjoint from it. -/
theorem load_store_disjoint {m : ℕ → α} {p n q : ℕ} {xs : List α}
    (h : p + n ≤ q ∨ q + xs.length ≤ p) : load (store m q xs) p n = load m p n := by
  refine load_congr fun i hi => ?_
  rcases h with h | h
  · exact store_of_lt xs (by omega)
  · exact store_of_ge (by omega)

/-- Adjacent stores are one store. -/
theorem store_store (m : ℕ → α) (p : ℕ) (xs ys : List α) :
    store (store m p xs) (p + xs.length) ys = store m p (xs ++ ys) := by
  funext j
  by_cases h1 : j < p
  · rw [store_of_lt ys (by omega), store_of_lt xs h1, store_of_lt _ h1]
  by_cases h2 : j < p + xs.length
  · rw [store_of_lt ys h2]
    simp only [store, if_pos (Nat.not_lt.mp h1)]
    rw [List.getElem?_append_left (by omega)]
  · have h3 : p + xs.length ≤ j := Nat.not_lt.mp h2
    have h4 : j - p - xs.length = j - (p + xs.length) := by omega
    rw [show store m p (xs ++ ys) j = ((xs ++ ys)[j - p]?).getD (m j) by
      simp [store, Nat.not_lt.mp h1]]
    rw [List.getElem?_append_right (by omega), h4]
    unfold store
    rw [if_pos h3, if_pos (Nat.not_lt.mp h1), List.getElem?_eq_none (l := xs) (by omega)]
    rfl

/-- A block followed by what is stored right after it. -/
theorem load_store_append (m : ℕ → α) (p n : ℕ) (xs : List α) :
    load (store m (p + n) xs) p (n + xs.length) = load m p n ++ xs := by
  rw [load_add, load_store, load_store_disjoint (Or.inl (Nat.le_refl _))]

end Memory
