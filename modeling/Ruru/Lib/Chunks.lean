import Mathlib.Data.List.Basic
import Mathlib.Tactic.Common

/-!
# Ruru.Lib.Chunks — cutting a stream into chunks

`chunks n fuel xs` are the successive chunks of `n` elements of `xs`, the last of them what remains.
A stream that was put together from pieces is cut without hurting a piece exactly if no cut falls
strictly inside one.
-/

namespace Chunks

variable {α : Type*}

/-- The chunks of `n` elements of a list, `fuel` of them at most. -/
def chunks (n : ℕ) : ℕ → List α → List (List α)
  | 0, _ => []
  | fuel + 1, xs => if xs.isEmpty then [] else xs.take n :: chunks n fuel (xs.drop n)

/-- Every piece lies inside one block, when pieces and blocks make up the same stream. -/
def Inside (pieces blocks : List (List α)) : Prop :=
  ∀ before piece after, pieces = before ++ piece :: after →
    ∃ past block rest, blocks = past ++ block :: rest ∧
      past.flatten.length ≤ before.flatten.length ∧
      before.flatten.length + piece.length ≤ past.flatten.length + block.length

/-- No multiple of `n` falls strictly inside a piece of the stream. -/
def Aligned (n : ℕ) (pieces : List (List α)) : Prop :=
  ∀ before piece after, pieces = before ++ piece :: after → ∀ k,
    ¬(before.flatten.length < n * k ∧ n * k < before.flatten.length + piece.length)

theorem chunks_cons {n fuel : ℕ} {xs : List α} (h : xs ≠ []) :
    chunks n (fuel + 1) xs = xs.take n :: chunks n fuel (xs.drop n) := by
  rw [chunks, if_neg (by simpa using h)]

/-- The chunks make up the list. -/
theorem flatten_chunks {n : ℕ} (hn : 0 < n) {fuel : ℕ} {xs : List α} (hf : xs.length ≤ fuel) :
    (chunks n fuel xs).flatten = xs := by
  induction fuel generalizing xs with
  | zero => exact (List.length_eq_zero_iff.mp (by omega)).symm
  | succ fuel ih =>
    by_cases h : xs = []
    · subst h
      rfl
    · have hpos : 0 < xs.length := List.length_pos_iff.mpr h
      rw [chunks_cons h, List.flatten_cons, ih (by rw [List.length_drop]; omega),
        List.take_append_drop]

/-- Where a chunk starts, and which it is. -/
theorem chunks_eq_append {n fuel : ℕ} {xs chunk : List α} {past rest : List (List α)}
    (h : chunks n fuel xs = past ++ chunk :: rest) :
    past.flatten.length = n * past.length ∧ chunk = (xs.drop (n * past.length)).take n ∧
      n * past.length < xs.length := by
  induction fuel generalizing xs past with
  | zero => exact absurd h (by simp [chunks])
  | succ fuel ih =>
    by_cases hx : xs = []
    · subst hx
      exact absurd h (by simp [chunks])
    rw [chunks_cons hx] at h
    cases past with
    | nil =>
      obtain ⟨hchunk, -⟩ := List.cons_eq_cons.mp h
      have hpos : 0 < xs.length := List.length_pos_iff.mpr hx
      simpa using ⟨hchunk.symm, hpos⟩
    | cons first past =>
      obtain ⟨hfirst, htail⟩ := List.cons_eq_cons.mp h
      obtain ⟨hlen, hchunk, hin⟩ := ih htail
      rw [List.length_drop] at hin
      have hstart : n * (past.length + 1) = n + n * past.length := by rw [Nat.mul_succ, Nat.add_comm]
      refine ⟨?_, ?_, ?_⟩
      · rw [List.flatten_cons, List.length_append, hlen, ← hfirst, List.length_take,
          List.length_cons, hstart]
        omega
      · rw [hchunk, List.drop_drop, List.length_cons, hstart]
      · rw [List.length_cons, hstart]
        omega

/-- Every multiple of `n` in the list is the start of a chunk. -/
theorem exists_chunk {n fuel k : ℕ} {xs : List α} (hn : 0 < n) (hf : xs.length ≤ fuel)
    (hk : n * k < xs.length) :
    ∃ past chunk rest, chunks n fuel xs = past ++ chunk :: rest ∧ past.length = k := by
  induction k generalizing fuel xs with
  | zero =>
    have hx : xs ≠ [] := List.length_pos_iff.mp (by omega)
    obtain ⟨f, rfl⟩ := Nat.exists_eq_succ_of_ne_zero (n := fuel) (by
      have := List.length_pos_iff.mpr hx
      omega)
    exact ⟨[], _, _, chunks_cons hx, rfl⟩
  | succ k ih =>
    have hstart : n * (k + 1) = n + n * k := by rw [Nat.mul_succ, Nat.add_comm]
    have hx : xs ≠ [] := List.length_pos_iff.mp (by omega)
    obtain ⟨f, rfl⟩ := Nat.exists_eq_succ_of_ne_zero (n := fuel) (by omega)
    have hdrop : (xs.drop n).length = xs.length - n := List.length_drop
    obtain ⟨past, chunk, rest, hsplit, hlen⟩ := @ih f (xs.drop n) (by omega) (by omega)
    exact ⟨xs.take n :: past, chunk, rest, by rw [chunks_cons hx, hsplit]; rfl, by simp [hlen]⟩

/-- The pieces of a stream lie inside its chunks exactly if no cut falls strictly inside a piece. -/
theorem inside_chunks_iff {n fuel : ℕ} (hn : 0 < n) {pieces : List (List α)}
    (hne : ∀ p ∈ pieces, p ≠ []) (hf : pieces.flatten.length ≤ fuel) :
    Inside pieces (chunks n fuel pieces.flatten) ↔ Aligned n pieces := by
  constructor
  · intro h before piece after hsplit k ⟨hlow, hhigh⟩
    obtain ⟨past, block, rest, hblocks, hstart, hend⟩ := h before piece after hsplit
    obtain ⟨hlen, hblock, -⟩ := chunks_eq_append hblocks
    have hshort : block.length ≤ n := by
      rw [hblock]
      exact List.length_take_le n _
    have h1 : past.length < k := Nat.lt_of_mul_lt_mul_left (a := n) (by omega)
    have h2 : k < past.length + 1 := Nat.lt_of_mul_lt_mul_left (a := n) (by
      rw [Nat.mul_succ]
      omega)
    omega
  · intro h before piece after hsplit
    have hpiece : 0 < piece.length := List.length_pos_iff.mpr (hne piece (by simp [hsplit]))
    have htotal : before.flatten.length + piece.length ≤ pieces.flatten.length := by
      rw [hsplit, List.flatten_append, List.flatten_cons, List.length_append, List.length_append]
      omega
    -- the block that holds the first element of the piece
    set k := before.flatten.length / n with hk
    have hlow : n * k ≤ before.flatten.length := Nat.mul_div_le _ _
    have hhigh : before.flatten.length < n * (k + 1) := Nat.lt_mul_div_succ _ hn
    obtain ⟨past, block, rest, hblocks, hlen⟩ :=
      exists_chunk (k := k) hn hf (by omega)
    obtain ⟨hpast, hblock, -⟩ := chunks_eq_append hblocks
    have hcut := h before piece after hsplit (k + 1)
    rw [hlen] at hpast hblock
    rw [Nat.mul_succ] at hhigh hcut
    refine ⟨past, block, rest, hblocks, by omega, ?_⟩
    rw [hpast, hblock, List.length_take, List.length_drop]
    omega

end Chunks
