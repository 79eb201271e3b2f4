import Mathlib

/-!
# Ruru.Libc — integer conversions and the libc functions the server calls

`int32_t` and `ssize_t` values are integers, `size_t` and the unsigned types naturals, with the
conversion written out wherever the source narrows or mixes them.  `atoi` is `(int) strtol` with a
64-bit `long`: leading white space, a sign, digits, saturation at the range of `long`.
-/

namespace Ruru

/-- Conversion to `int32_t`. -/
def toInt32 (x : ℤ) : ℤ := (Int32.ofInt x).toInt

/-- Conversion to `size_t`. -/
def toSize (x : ℤ) : ℕ := (x % 2 ^ 64).toNat

/-- Conversion to `uint16_t`. -/
def toUint16 (n : ℕ) : ℕ := n % 2 ^ 16

theorem toInt32_of_lt {x : ℤ} (h0 : -2 ^ 31 ≤ x) (h1 : x < 2 ^ 31) : toInt32 x = x := by
  unfold toInt32
  exact Int32.toInt_ofInt_of_le h0 h1

theorem toInt32_eq_bmod (x : ℤ) : toInt32 x = x.bmod (2 ^ 32) := Int32.toInt_ofInt

theorem toInt32_bounds (x : ℤ) : -2 ^ 31 ≤ toInt32 x ∧ toInt32 x < 2 ^ 31 := by
  rw [toInt32_eq_bmod, Int.bmod_def]
  split_ifs <;> omega

/-- An `int` comes back from its conversion to `size_t`. -/
theorem toInt32_toSize {x : ℤ} (h0 : -2 ^ 31 ≤ x) (h1 : x < 2 ^ 31) : toInt32 (toSize x) = x := by
  rw [toInt32_eq_bmod, Int.bmod_def]
  unfold toSize
  split_ifs <;> omega

theorem toSize_pos_iff {x : ℤ} (h0 : -2 ^ 31 ≤ x) (h1 : x < 2 ^ 31) : 0 < toSize x ↔ x ≠ 0 := by
  unfold toSize
  omega

/-- Counting on from a wrapped value is counting on from the value. -/
theorem toInt32_succ (x : ℤ) : toInt32 (toInt32 x + 1) = toInt32 (x + 1) := by
  simp only [toInt32_eq_bmod, Int.bmod_add_bmod]

theorem toInt32_natCast {n : ℕ} (h : n < 2 ^ 31) : toInt32 n = n :=
  toInt32_of_lt (by omega) (by omega)

theorem toSize_of_nonneg {x : ℤ} (h0 : 0 ≤ x) (h1 : x < 2 ^ 64) : toSize x = x.toNat := by
  unfold toSize
  rw [Int.emod_eq_of_lt h0 h1]

theorem toSize_natCast {n : ℕ} (h : n < 2 ^ 64) : toSize n = n := by
  rw [toSize_of_nonneg (by omega) (by omega), Int.toNat_natCast]

@[simp] theorem toSize_zero : toSize 0 = 0 := toSize_of_nonneg (le_refl 0) (by norm_num)

theorem toUint16_eq_iff (n : ℕ) : toUint16 n = n ↔ n < 2 ^ 16 := by
  unfold toUint16
  omega

theorem toUint16_le (n : ℕ) : toUint16 n ≤ n := Nat.mod_le n _

theorem toUint16_lt (n : ℕ) : toUint16 n < 2 ^ 16 := Nat.mod_lt n (by norm_num)

attribute [irreducible] toInt32 toSize toUint16

def EAGAIN : ℕ := 11
def EWOULDBLOCK : ℕ := 11

/-- The four bytes of a 32-bit value in the opposite order (the server runs little-endian). -/
def htonl (x : UInt32) : UInt32 :=
  .ofNat (x.toNat % 2 ^ 8 * 2 ^ 24 + x.toNat / 2 ^ 8 % 2 ^ 8 * 2 ^ 16 +
    x.toNat / 2 ^ 16 % 2 ^ 8 * 2 ^ 8 + x.toNat / 2 ^ 24)

/-- `ntohl` is the same exchange of bytes. -/
def ntohl (x : UInt32) : UInt32 := htonl x

theorem toNat_htonl {x : UInt32} {a b c d : ℕ} (ha : a < 2 ^ 8) (hb : b < 2 ^ 8) (hc : c < 2 ^ 8)
    (hd : d < 2 ^ 8) (hx : x.toNat = a + 2 ^ 8 * b + 2 ^ 16 * c + 2 ^ 24 * d) :
    (htonl x).toNat = d + 2 ^ 8 * c + 2 ^ 16 * b + 2 ^ 24 * a := by
  have h0 : x.toNat % 2 ^ 8 = a := by omega
  have h1 : x.toNat / 2 ^ 8 % 2 ^ 8 = b := by omega
  have h2 : x.toNat / 2 ^ 16 % 2 ^ 8 = c := by omega
  have h3 : x.toNat / 2 ^ 24 = d := by omega
  unfold htonl
  rw [h0, h1, h2, h3, UInt32.toNat_ofNat']
  omega

@[simp] theorem ntohl_htonl (x : UInt32) : ntohl (htonl x) = x := by
  have hlt := x.toNat_lt
  have hx : x.toNat = x.toNat % 2 ^ 8 + 2 ^ 8 * (x.toNat / 2 ^ 8 % 2 ^ 8) +
      2 ^ 16 * (x.toNat / 2 ^ 16 % 2 ^ 8) + 2 ^ 24 * (x.toNat / 2 ^ 24) := by omega
  have h0 : x.toNat % 2 ^ 8 < 2 ^ 8 := by omega
  have h1 : x.toNat / 2 ^ 8 % 2 ^ 8 < 2 ^ 8 := by omega
  have h2 : x.toNat / 2 ^ 16 % 2 ^ 8 < 2 ^ 8 := by omega
  have h3 : x.toNat / 2 ^ 24 < 2 ^ 8 := by omega
  have hy := toNat_htonl h0 h1 h2 h3 hx
  exact UInt32.toNat_inj.mp ((toNat_htonl h3 h2 h1 h0 hy).trans hx.symm)

/-- `isspace` in the C locale. -/
def isSpace (b : UInt8) : Bool := b = 32 || (9 ≤ b && b ≤ 13)

def isDigit (b : UInt8) : Bool := 48 ≤ b && b ≤ 57

def toLower (b : UInt8) : UInt8 := if 65 ≤ b ∧ b ≤ 90 then b + 32 else b

/-- The value of a run of decimal digits. -/
def decimal (ds : List UInt8) : ℕ := ds.foldl (fun n d => 10 * n + (d.toNat - 48)) 0

/-- The optional sign of a numeral: whether it is a minus, and what follows it. -/
def signOf : List UInt8 → Bool × List UInt8
  | b :: bs => if b = 45 then (true, bs) else if b = 43 then (false, bs) else (false, b :: bs)
  | [] => (false, [])

/-- `strtol(s, NULL, 10)`. -/
def strtol (s : List UInt8) : ℤ :=
  let t := signOf (s.dropWhile isSpace)
  let n : ℤ := decimal (t.2.takeWhile isDigit)
  if t.1 then max (-n) (-2 ^ 63) else min n (2 ^ 63 - 1)

/-- `atoi(s)`, where `s` is what stands at the pointer up to the end of the memory it points into;
the number ends before the first byte that is no digit, the terminating NUL at the latest. -/
def atoi (s : List UInt8) : ℤ := toInt32 (strtol s)

/-- A decimal numeral: one digit or more, and nothing else. -/
def Numeral (s : List UInt8) : Prop := s ≠ [] ∧ ∀ b ∈ s, isDigit b = true

instance (s : List UInt8) : Decidable (Numeral s) := inferInstanceAs (Decidable (_ ∧ _))

theorem isDigit_iff (b : UInt8) : isDigit b = true ↔ 48 ≤ b.toNat ∧ b.toNat ≤ 57 := by
  simp [isDigit, UInt8.le_iff_toNat_le]

/-- A numeral with something that is no digit behind it reads as its value, up to saturation. -/
theorem strtol_numeral {s : List UInt8} (hs : Numeral s) {b : UInt8} (hb : isDigit b = false)
    (rest : List UInt8) : strtol (s ++ b :: rest) = min (decimal s : ℤ) (2 ^ 63 - 1) := by
  obtain ⟨hne, hdigits⟩ := hs
  have hrun : (s ++ b :: rest).takeWhile isDigit = s := by
    rw [List.takeWhile_append_of_pos hdigits, List.takeWhile_cons, if_neg (by simp [hb]),
      List.append_nil]
  obtain ⟨d, ds, rfl⟩ := List.exists_cons_of_ne_nil hne
  obtain ⟨hlow, hhigh⟩ := (isDigit_iff d).mp (hdigits d (by simp))
  have hspace : isSpace d = false := by
    simp only [isSpace, UInt8.le_iff_toNat_le, Bool.or_eq_false_iff, decide_eq_false_iff_not,
      Bool.and_eq_false_iff]
    refine ⟨?_, Or.inr ?_⟩
    · rintro rfl
      exact absurd hlow (by decide)
    · show ¬ d.toNat ≤ 13
      omega
  have hminus : d ≠ 45 := by
    rintro rfl
    exact absurd hlow (by decide)
  have hplus : d ≠ 43 := by
    rintro rfl
    exact absurd hlow (by decide)
  have hsign : signOf (d :: ds ++ b :: rest) = (false, d :: ds ++ b :: rest) := by
    rw [List.cons_append, signOf, if_neg hminus, if_neg hplus]
  have hdrop : (d :: ds ++ b :: rest).dropWhile isSpace = d :: ds ++ b :: rest := by
    rw [List.cons_append, List.dropWhile_cons, if_neg (by simp [hspace])]
  simp only [strtol, hdrop, hsign, hrun, Bool.false_eq_true, if_false]

/-! ### `atoi` reads no further than the number -/

theorem signOf_append {s : List UInt8} (t : List UInt8) (h : s ≠ []) :
    signOf (s ++ t) = ((signOf s).1, (signOf s).2 ++ t) := by
  cases s with
  | nil => exact absurd rfl h
  | cons b bs => simp only [List.cons_append, signOf]; split_ifs <;> rfl

theorem takeWhile_append_of_last {p : UInt8 → Bool} {x : UInt8} (hx : p x = false)
    (s t : List UInt8) : (s ++ [x] ++ t).takeWhile p = (s ++ [x]).takeWhile p := by
  induction s with
  | nil => simp [hx]
  | cons b bs ih =>
    simp only [List.cons_append, List.takeWhile_cons, ih]

theorem dropWhile_append_of_ne_nil {p : UInt8 → Bool} {s : List UInt8} (t : List UInt8)
    (h : s.dropWhile p ≠ []) : (s ++ t).dropWhile p = s.dropWhile p ++ t := by
  induction s with
  | nil => simp at h
  | cons b bs ih =>
    simp only [List.cons_append, List.dropWhile_cons] at h ⊢
    cases hb : p b with
    | true => simp only [hb, if_true] at h ⊢; exact ih h
    | false => simp

/-- The text behind the sign still ends in `x`, unless it is empty. -/
theorem signOf_ends {x : UInt8} {s : List UInt8} (h : ∃ u, s = u ++ [x]) :
    (signOf s).2 = [] ∨ ∃ u, (signOf s).2 = u ++ [x] := by
  obtain ⟨u, rfl⟩ := h
  cases u with
  | nil =>
    simp only [List.nil_append, signOf]
    split_ifs
    · exact Or.inl rfl
    · exact Or.inl rfl
    · exact Or.inr ⟨[], rfl⟩
  | cons b bs =>
    right
    simp only [List.cons_append, signOf]
    split_ifs
    · exact ⟨bs, rfl⟩
    · exact ⟨bs, rfl⟩
    · exact ⟨b :: bs, rfl⟩

/-- If the text up to a byte that is no digit reads as a number other than 0, then whatever
follows that byte is not looked at. -/
theorem atoi_append {x : UInt8} (hx : isDigit x = false) (s t : List UInt8)
    (h : atoi (s ++ [x]) ≠ 0) : atoi (s ++ [x] ++ t) = atoi (s ++ [x]) := by
  have hne : (s ++ [x]).dropWhile isSpace ≠ [] := by
    intro h0
    exact h (by simp only [atoi, strtol, h0]; decide +kernel)
  have hend : ∃ u, (s ++ [x]).dropWhile isSpace = u ++ [x] := by
    obtain ⟨v, hv⟩ := List.dropWhile_suffix (l := s ++ [x]) isSpace
    rcases List.eq_nil_or_concat ((s ++ [x]).dropWhile isSpace) with h0 | ⟨u, y, hu⟩
    · exact absurd h0 hne
    · rw [List.concat_eq_append] at hu
      rw [hu, ← List.append_assoc] at hv
      obtain ⟨-, hy⟩ := List.append_inj' hv rfl
      exact ⟨u, by rw [hu, hy]⟩
  simp only [atoi, strtol, dropWhile_append_of_ne_nil t hne, signOf_append t hne]
  rcases signOf_ends hend with h0 | ⟨u, hu⟩
  · have h1 : atoi (s ++ [x]) = 0 := by
      simp only [atoi, strtol, h0]
      cases (signOf ((s ++ [x]).dropWhile isSpace)).1 <;> decide +kernel
    exact absurd h1 h
  · rw [hu, takeWhile_append_of_last hx]

end Ruru
