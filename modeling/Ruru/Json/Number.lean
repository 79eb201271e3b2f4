import Ruru.State

/-!
# Ruru.Json.Number — `strtod`

`strtod` as far as `parse_number` of cJSON uses it: on a text of digits, signs, points and exponent
letters.  It reads the longest numeral at the start of the text and rounds its value to the nearest
`double`, ties to even.
-/

namespace Ruru

/-! ### Rounding to a `double` -/

/-- The nearest integer, the even one of two. -/
def roundHalfEven (x : ℚ) : ℤ :=
  let below := ⌊x⌋
  if x - below < 1 / 2 then below
  else if 1 / 2 < x - below then below + 1
  else if below % 2 = 0 then below else below + 1

/-- The distance of neighbouring doubles around `x > 0`: 53 bits of precision, down to the subnormal
numbers. -/
def ulp (x : ℚ) : ℚ := 2 ^ (max (Int.log 2 x) (-1022) - 52)

/-- The `double` nearest to `x ≥ 0`, with a sign. -/
def toDouble (negative : Bool) (x : ℚ) : Double :=
  if x = 0 then .finite 0
  else
    let rounded := roundHalfEven (x / ulp x) * ulp x
    if 2 ^ (1024 : ℕ) ≤ rounded then .infinite negative
    else .finite (if negative then -rounded else rounded)

/-- An integer is its own rounding. -/
theorem roundHalfEven_intCast (n : ℤ) : roundHalfEven n = n := by
  unfold roundHalfEven
  rw [Int.floor_intCast]
  dsimp only
  rw [sub_self, if_pos (by norm_num)]

/-- Integers of up to 53 bits are doubles. -/
theorem toDouble_natCast {n : ℕ} (h : n < 2 ^ 53) (negative : Bool) :
    toDouble negative n = .finite (if negative then -n else n) := by
  by_cases h0 : n = 0
  · subst h0
    cases negative <;> simp [toDouble]
  have hpos : (0 : ℚ) < n := by exact_mod_cast Nat.pos_of_ne_zero h0
  have hlog : Int.log 2 (n : ℚ) < 53 := by
    have hlt : (n : ℚ) < (2 : ℕ) ^ (53 : ℤ) := by exact_mod_cast h
    exact (Int.lt_zpow_iff_log_lt (by norm_num) hpos).mp hlt
  -- the number is a multiple of its unit in the last place
  obtain ⟨k, hk⟩ : ∃ k : ℕ, max (Int.log 2 (n : ℚ)) (-1022) - 52 = -k :=
    ⟨(52 - max (Int.log 2 (n : ℚ)) (-1022)).toNat, by omega⟩
  have hulp : ulp n = (2 ^ k)⁻¹ := by
    rw [ulp, hk, zpow_neg, zpow_natCast]
  have hscaled : (n : ℚ) / ulp n = ((n * 2 ^ k : ℤ) : ℚ) := by
    rw [hulp, div_inv_eq_mul]
    push_cast
    rfl
  have hrounded : (roundHalfEven ((n : ℚ) / ulp n) : ℚ) * ulp n = n := by
    rw [hscaled, roundHalfEven_intCast, hulp]
    push_cast
    rw [mul_assoc, mul_inv_cancel₀ (by positivity), mul_one]
  have hsmall : ¬(2 : ℚ) ^ (1024 : ℕ) ≤ n := by
    rw [not_le]
    calc (n : ℚ) < 2 ^ (53 : ℕ) := by exact_mod_cast h
      _ ≤ 2 ^ (1024 : ℕ) := pow_le_pow_right₀ (by norm_num) (by norm_num)
  unfold toDouble
  rw [if_neg hpos.ne']
  simp only [hrounded, if_neg hsmall]

/-! ### Numerals -/

/-- An exponent at the start of a text: its value and its length, both 0 where there is none. -/
def exponentOf : List UInt8 → ℤ × ℕ
  | [] => (0, 0)
  | e :: s =>
    if e = 101 ∨ e = 69 then
      let sign := signOf s
      let ds := sign.2.takeWhile isDigit
      if ds = [] then (0, 0)
      else (if sign.1 then -decimal ds else decimal ds, 1 + (s.length - sign.2.length) + ds.length)
    else (0, 0)

/-- The digits behind a point, and the length of both. -/
def fractionOf : List UInt8 → List UInt8 × ℕ
  | [] => ([], 0)
  | p :: s => if p = 46 then (s.takeWhile isDigit, 1 + (s.takeWhile isDigit).length) else ([], 0)

/-- `strtod(s, &end)`: the value, and the number of bytes before `end`. -/
def strtod (s : List UInt8) : Double × ℕ :=
  let sign := signOf s
  let int := sign.2.takeWhile isDigit
  let frac := fractionOf (sign.2.drop int.length)
  if int = [] ∧ frac.1 = [] then (.finite 0, 0)
  else
    let exp := exponentOf (sign.2.drop (int.length + frac.2))
    (toDouble sign.1 (decimal (int ++ frac.1) * 10 ^ (exp.1 - frac.1.length)),
      s.length - sign.2.length + int.length + frac.2 + exp.2)

theorem length_signOf_le (s : List UInt8) : (signOf s).2.length ≤ s.length := by
  cases s with
  | nil => exact le_refl _
  | cons b bs =>
    rw [signOf]
    split_ifs <;> simp

theorem fractionOf_le (s : List UInt8) : (fractionOf s).2 ≤ s.length := by
  cases s with
  | nil => exact le_refl _
  | cons p s =>
    have := (List.takeWhile_prefix (l := s) isDigit).length_le
    rw [fractionOf]
    split_ifs
    · rw [List.length_cons]
      dsimp only
      omega
    · exact Nat.zero_le _

theorem exponentOf_le (s : List UInt8) : (exponentOf s).2 ≤ s.length := by
  cases s with
  | nil => exact le_refl _
  | cons e s =>
    have hsign := length_signOf_le s
    have := (List.takeWhile_prefix (l := (signOf s).2) isDigit).length_le
    rw [exponentOf]
    dsimp only
    split_ifs
    · exact Nat.zero_le _
    · rw [List.length_cons]
      dsimp only
      omega
    · rw [List.length_cons]
      dsimp only
      omega
    · exact Nat.zero_le _

/-- `end` does not lie behind the text. -/
theorem strtod_le (s : List UInt8) : (strtod s).2 ≤ s.length := by
  unfold strtod
  dsimp only
  split_ifs
  · exact Nat.zero_le _
  · have hsign := length_signOf_le s
    generalize hint : ((signOf s).2.takeWhile isDigit).length = k
    have hk := (List.takeWhile_prefix (l := (signOf s).2) isDigit).length_le
    have hfrac := fractionOf_le ((signOf s).2.drop k)
    generalize (fractionOf ((signOf s).2.drop k)).2 = m at hfrac ⊢
    have hexp := exponentOf_le ((signOf s).2.drop (k + m))
    rw [List.length_drop] at hfrac hexp
    omega

end Ruru
