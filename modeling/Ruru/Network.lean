import Ruru.Libc

/-!
# Ruru.Network — `SocketWrite`

The loop of `SocketWrite` against any results of `write`.  The bytes taken over so far are always
those before `written`, and a request is always all the bytes behind it.
-/

namespace Ruru

/-- Conversion to `ssize_t`. -/
def toSsize (x : ℤ) : ℤ := (Int64.ofInt x).toInt

theorem toSsize_natCast {n : ℕ} (h : n < 2 ^ 63) : toSsize n = n :=
  Int64.toInt_ofInt_of_le (by omega) (by omega)

attribute [irreducible] toSsize

/-- A call of `write`: the bytes it is asked to write, and what it returns. -/
structure WriteCall where
  request : List UInt8
  ret : ℤ
deriving DecidableEq

/-- `write` fails, writes nothing, or writes a part of the request. -/
def WriteCall.Admissible (c : WriteCall) : Prop :=
  c.ret = -1 ∨ c.ret = 0 ∨ 1 ≤ c.ret ∧ c.ret ≤ c.request.length

instance (c : WriteCall) : Decidable c.Admissible := inferInstanceAs (Decidable (_ ∨ _))

/-- The bytes the descriptor accepted, in order. -/
def writtenBytes (calls : List WriteCall) : List UInt8 :=
  calls.flatMap fun c => c.request.take c.ret.toNat

/-- The loop of `SocketWrite(fd, buf, len)` from `written` on, with the results of its calls of
`write`: what it returns, if it does with these results, and the calls it makes. -/
def socketWriteFrom (buf : List UInt8) (written : ℤ) : List ℤ → Option ℤ × List WriteCall
  | [] => (if written = toSsize buf.length then some written else none, [])
  | r :: rs =>
    if written = toSsize buf.length then (some written, [])
    else
      let call : WriteCall :=
        ⟨(buf.drop written.toNat).take (toSize (toSsize buf.length - written)), r⟩
      if r = 0 then (some written, [call])
      else if r = -1 then (some (-1), [call])
      else
        ((socketWriteFrom buf (written + r) rs).1, call :: (socketWriteFrom buf (written + r) rs).2)

/-- `SocketWrite(fd, buf, len)`. -/
def socketWrite (buf : List UInt8) (results : List ℤ) : Option ℤ × List WriteCall :=
  socketWriteFrom buf 0 results

/-- How the loop ends that started at `written`. -/
structure Finished (buf : List UInt8) (written ret : ℤ) (calls : List WriteCall) : Prop where
  range : ret = -1 ∨ written ≤ ret ∧ ret ≤ buf.length
  bytes : 0 ≤ ret → writtenBytes calls = (buf.drop written.toNat).take (ret - written).toNat
  last : 0 ≤ ret → ret = buf.length ∨ ∃ c, calls.getLast? = some c ∧ c.ret = 0
  failed : ret = -1 ↔ ∃ c ∈ calls, c.ret = -1

theorem writtenBytes_cons (c : WriteCall) (calls : List WriteCall) :
    writtenBytes (c :: calls) = c.request.take c.ret.toNat ++ writtenBytes calls := rfl

/-- All bytes are written. -/
theorem Finished.all {buf : List UInt8} {written : ℤ} (h0 : 0 ≤ written)
    (h : written = buf.length) : Finished buf written written [] where
  range := Or.inr ⟨le_refl _, h.le⟩
  bytes _ := by rw [Int.sub_self]; rfl
  last _ := Or.inl h
  failed := iff_of_false (by omega) (by simp)

/-- `write` returned 0. -/
theorem Finished.zero {buf : List UInt8} {written : ℤ} (h0 : 0 ≤ written)
    (h1 : written ≤ buf.length) (request : List UInt8) :
    Finished buf written written [⟨request, 0⟩] where
  range := Or.inr ⟨le_refl _, h1⟩
  bytes _ := by rw [Int.sub_self, writtenBytes_cons]; rfl
  last _ := Or.inr ⟨_, rfl, rfl⟩
  failed := iff_of_false (by omega) (by simp)

/-- `write` failed. -/
theorem Finished.failure (buf : List UInt8) (written : ℤ) (request : List UInt8) :
    Finished buf written (-1) [⟨request, -1⟩] where
  range := Or.inl rfl
  bytes h := absurd h (by decide)
  last h := absurd h (by decide)
  failed := iff_of_true rfl (by simp)

/-- `write` wrote `k` bytes, and the loop went on behind them. -/
theorem Finished.cons {buf : List UInt8} {written ret : ℤ} {k : ℕ} {calls : List WriteCall}
    (h0 : 0 ≤ written) (hk : 0 < k) (h : Finished buf (written + k) ret calls) :
    Finished buf written ret (⟨buf.drop written.toNat, k⟩ :: calls) where
  range := by
    rcases h.range with hfail | ⟨hlow, hhigh⟩
    · exact Or.inl hfail
    · exact Or.inr ⟨by omega, hhigh⟩
  bytes hret := by
    have hlow : written + k ≤ ret := by
      rcases h.range with hfail | ⟨hlow, -⟩
      · omega
      · exact hlow
    have hstart : (written + k).toNat = written.toNat + k := by omega
    have hsplit : (ret - written).toNat = k + (ret - (written + k)).toNat := by omega
    rw [writtenBytes_cons, h.bytes hret, hstart, hsplit, List.take_add, List.drop_drop]
    rfl
  last hret := by
    rcases h.last hret with hall | ⟨c, hlast, hzero⟩
    · exact Or.inl hall
    · refine Or.inr ⟨c, ?_, hzero⟩
      rw [List.getLast?_cons, hlast]
      rfl
  failed := by
    rw [h.failed]
    have hne : (k : ℤ) ≠ -1 := by omega
    simp [hne]

section Loop

variable {buf : List UInt8} (hlen : buf.length < 2 ^ 63)

include hlen

/-- The loop from `written` on: what was accepted is a part of the bytes behind `written` from their
start, the loop ends as it should, and with enough results it ends. -/
theorem socketWriteFrom_spec (results : List ℤ) {written : ℤ} (h0 : 0 ≤ written)
    (h1 : written ≤ buf.length)
    (hadm : ∀ c ∈ (socketWriteFrom buf written results).2, c.Admissible) :
    writtenBytes (socketWriteFrom buf written results).2 <+: buf.drop written.toNat ∧
      (∀ ret, (socketWriteFrom buf written results).1 = some ret →
        Finished buf written ret (socketWriteFrom buf written results).2) ∧
      (buf.length ≤ written + results.length → (socketWriteFrom buf written results).1.isSome) := by
  have hsize : toSsize buf.length = buf.length := toSsize_natCast hlen
  induction results generalizing written with
  | nil =>
    rw [socketWriteFrom, hsize]
    refine ⟨List.nil_prefix, fun ret hret => ?_, fun henough => ?_⟩
    · split_ifs at hret with hall
      obtain rfl := Option.some.inj hret
      exact .all h0 hall
    · rw [if_pos (by simp at henough; omega)]
      rfl
  | cons r rs ih =>
    rw [socketWriteFrom, hsize] at hadm ⊢
    by_cases hall : written = buf.length
    · rw [if_pos hall]
      refine ⟨List.nil_prefix, fun ret hret => ?_, fun _ => rfl⟩
      obtain rfl := Option.some.inj hret
      exact .all h0 hall
    rw [if_neg hall] at hadm ⊢
    have hrequest : (buf.drop written.toNat).take (toSize (buf.length - written)) =
        buf.drop written.toNat := by
      refine List.take_of_length_le ?_
      rw [toSize_of_nonneg (by omega) (by omega), List.length_drop]
      omega
    simp only [hrequest] at hadm ⊢
    by_cases hzero : r = 0
    · subst hzero
      rw [if_pos rfl]
      refine ⟨List.nil_prefix, fun ret hret => ?_, fun _ => rfl⟩
      obtain rfl := Option.some.inj hret
      exact .zero h0 h1 _
    rw [if_neg hzero] at hadm ⊢
    by_cases hfail : r = -1
    · subst hfail
      rw [if_pos rfl]
      refine ⟨List.nil_prefix, fun ret hret => ?_, fun _ => rfl⟩
      obtain rfl := Option.some.inj hret
      exact .failure _ _ _
    rw [if_neg hfail] at hadm ⊢
    -- a part of the request was written
    obtain ⟨hcall, hrest⟩ := List.forall_mem_cons.mp hadm
    have hpart : 1 ≤ r ∧ r ≤ (buf.drop written.toNat).length := by
      rcases hcall with h | h | h
      · exact absurd h hfail
      · exact absurd h hzero
      · exact h
    rw [List.length_drop] at hpart
    obtain ⟨k, rfl⟩ : ∃ k : ℕ, r = k := ⟨r.toNat, by omega⟩
    have hfits : written + k ≤ buf.length := by omega
    have hstart : (written + k).toNat = written.toNat + k := by omega
    obtain ⟨hbytes, hends, henough⟩ := @ih (written + k) (by omega) hfits hrest
    refine ⟨?_, fun ret hret => .cons h0 (by omega) (hends ret hret), fun hroom => ?_⟩
    · rw [writtenBytes_cons]
      rw [hstart, ← List.drop_drop] at hbytes
      conv_rhs => rw [← List.take_append_drop k (buf.drop written.toNat)]
      exact (List.prefix_append_right_inj _).mpr hbytes
    · refine henough ?_
      rw [List.length_cons] at hroom
      push_cast at hroom
      omega

end Loop

/-- The calls of the loop get the results in order, one each. -/
theorem rets_socketWriteFrom (buf : List UInt8) (results : List ℤ) (written : ℤ) :
    (socketWriteFrom buf written results).2.map (·.ret) <+: results := by
  induction results generalizing written with
  | nil => exact List.nil_prefix
  | cons r rs ih =>
    rw [socketWriteFrom]
    split_ifs
    · exact List.nil_prefix
    · exact List.prefix_append [r] rs
    · exact List.prefix_append [r] rs
    · exact (List.prefix_cons_inj r).mpr (ih (written + r))

/-- Results behind the last call are not looked at. -/
theorem socketWriteFrom_append {buf : List UInt8} {written ret : ℤ} {results : List ℤ}
    (h : (socketWriteFrom buf written results).1 = some ret) (more : List ℤ) :
    socketWriteFrom buf written (results ++ more) = socketWriteFrom buf written results := by
  induction results generalizing written with
  | nil =>
    rw [socketWriteFrom] at h
    split_ifs at h with hall
    cases more with
    | nil => rfl
    | cons r rs => rw [List.nil_append, socketWriteFrom, socketWriteFrom, if_pos hall, if_pos hall]
  | cons r rs ih =>
    rw [List.cons_append, socketWriteFrom, socketWriteFrom]
    rw [socketWriteFrom] at h
    by_cases hall : written = toSsize buf.length
    · rw [if_pos hall, if_pos hall]
    rw [if_neg hall, if_neg hall]
    rw [if_neg hall] at h
    by_cases hzero : r = 0
    · rw [if_pos hzero, if_pos hzero]
    rw [if_neg hzero, if_neg hzero]
    rw [if_neg hzero] at h
    by_cases hfail : r = -1
    · rw [if_pos hfail, if_pos hfail]
    rw [if_neg hfail, if_neg hfail]
    rw [if_neg hfail] at h
    rw [ih h]

/-- The first `n` results. -/
def firstResults (results : ℕ → ℤ) (n : ℕ) : List ℤ := (List.range n).map results

theorem firstResults_add (results : ℕ → ℤ) (m n : ℕ) : firstResults results (m + n) =
    firstResults results m ++ firstResults (fun i => results (m + i)) n := by
  simp [firstResults, List.range_add, Function.comp_def]

/-- A prefix of the first results is as many of them as it is long. -/
theorem eq_firstResults_of_prefix {results : ℕ → ℤ} {l : List ℤ} {n : ℕ}
    (h : l <+: firstResults results n) : l = firstResults results l.length := by
  have hlen : l.length ≤ n := by simpa [firstResults] using h.length_le
  calc l
    _ = (firstResults results n).take l.length := List.prefix_iff_eq_take.mp h
    _ = firstResults results l.length := by
      rw [firstResults, firstResults, ← List.map_take, List.take_range, Nat.min_eq_left hlen]

/-- **`SocketWrite`.**  Whatever `write` returns, `SocketWrite` returns after at most `len` calls,
which get the results in order; the bytes accepted are a part of the buffer from its start; a result
`ret >= 0` says that they are the first `ret` bytes, and it is `len` or the last call returned 0; and
the result is -1 exactly if some call returned -1. -/
theorem socketWrite_spec (buf : List UInt8) (hlen : buf.length < 2 ^ 63) (results : ℕ → ℤ)
    (hadm : ∀ n, ∀ c ∈ (socketWrite buf (firstResults results n)).2, c.Admissible) :
    ∃ ret calls, (∀ n, buf.length ≤ n → socketWrite buf (firstResults results n) = (some ret, calls)) ∧
      calls.map (·.ret) = firstResults results calls.length ∧
      writtenBytes calls <+: buf ∧ (ret = -1 ∨ 0 ≤ ret) ∧
      (0 ≤ ret → ret ≤ buf.length ∧ writtenBytes calls = buf.take ret.toNat ∧
        (ret = buf.length ∨ ∃ c, calls.getLast? = some c ∧ c.ret = 0)) ∧
      (ret = -1 ↔ ∃ c ∈ calls, c.ret = -1) := by
  obtain ⟨hbytes, hends, henough⟩ := socketWriteFrom_spec hlen (firstResults results buf.length)
    (le_refl 0) (Int.natCast_nonneg _) (hadm buf.length)
  obtain ⟨ret, hret⟩ := Option.isSome_iff_exists.mp (henough (by simp [firstResults]))
  have hdone := hends ret hret
  refine ⟨ret, (socketWriteFrom buf 0 (firstResults results buf.length)).2, fun n hn => ?_, ?_, hbytes,
    ?_, fun h0 => ⟨?_, ?_, hdone.last h0⟩, hdone.failed⟩
  · obtain ⟨m, rfl⟩ := Nat.exists_eq_add_of_le hn
    rw [firstResults_add, socketWrite, socketWriteFrom_append hret]
    exact Prod.ext hret rfl
  · simpa using eq_firstResults_of_prefix (rets_socketWriteFrom buf (firstResults results buf.length) 0)
  · rcases hdone.range with hfail | ⟨hlow, -⟩
    · exact Or.inl hfail
    · exact Or.inr hlow
  · rcases hdone.range with hfail | ⟨-, hhigh⟩
    · omega
    · exact hhigh
  · simpa using hdone.bytes h0

/-- A short write, and a write that writes nothing. -/
theorem socketWrite_spec_short : let results : ℕ → ℤ := fun n => if n = 0 then 2 else 0
    ∃ ret calls, (∀ n, 3 ≤ n → socketWrite [1, 2, 3] (firstResults results n) = (some ret, calls)) ∧
      calls.map (·.ret) = firstResults results calls.length ∧
      writtenBytes calls <+: [1, 2, 3] ∧ (ret = -1 ∨ 0 ≤ ret) ∧
      (0 ≤ ret → ret ≤ (3 : ℕ) ∧ writtenBytes calls = [1, 2, 3].take ret.toNat ∧
        (ret = (3 : ℕ) ∨ ∃ c, calls.getLast? = some c ∧ c.ret = 0)) ∧
      (ret = -1 ↔ ∃ c ∈ calls, c.ret = -1) := by
  refine socketWrite_spec [1, 2, 3] (by decide) (fun n => if n = 0 then 2 else 0) fun n => ?_
  have htwo : socketWrite [1, 2, 3] [2, 0] = (some 2, [⟨[1, 2, 3], 2⟩, ⟨[3], 0⟩]) := by
    decide +kernel
  match n with
  | 0 => decide +kernel
  | 1 => decide +kernel
  | m + 2 =>
    have hend : (socketWriteFrom [1, 2, 3] 0 [2, 0]).1 = some 2 := congrArg Prod.fst htwo
    rw [Nat.add_comm, firstResults_add, socketWrite]
    show ∀ c ∈ (socketWriteFrom [1, 2, 3] 0 ([2, 0] ++ _)).2, c.Admissible
    rw [socketWriteFrom_append hend, ← socketWrite, htwo]
    decide

end Ruru
