import Ruru.Json.Parse

/-!
# Ruru.Json.Accepts — cJSON parses the texts of the grammar

`cJSON_Parse` returns the value of every text of the grammar of `Ruru.Lib.Json` that is nested at
most `CJSON_NESTING_LIMIT` deep and has no numeral of more than 63 bytes, whatever follows the text.
-/

namespace Ruru.CJson

open Json (Blank Chars Entry Hex4 Member Text)

theorem ok_bind {α β : Type} (a : α) (f : α → Except Fault β) : (Except.ok a >>= f) = f a := rfl

/-! ### UTF-8 -/

theorem ofNat_continuation (c : ℕ) :
    UInt8.ofNat ((c ||| 0x80) &&& 0xBF) = UInt8.ofNat (c % 0x40 + 0x80) := by
  have hbyte : ∀ r < 256, (r ||| 0x80) &&& 0xBF = r % 0x40 + 0x80 := by decide +kernel
  have hmod : ((c ||| 0x80) &&& 0xBF) % 2 ^ 8 = (c % 2 ^ 8 ||| 0x80) &&& 0xBF := by
    rw [Nat.and_mod_two_pow, Nat.or_mod_two_pow]
  have hsmall : (c ||| 0x80) &&& 0xBF < 2 ^ 8 := Nat.and_lt_two_pow _ (by norm_num)
  rw [← Nat.mod_eq_of_lt hsmall, hmod, hbyte (c % 2 ^ 8) (Nat.mod_lt _ (by norm_num))]
  congr 1
  omega

/-- The end of `utf16_literal_to_utf8` encodes every scalar value. -/
theorem encodeUtf8_eq {n : ℕ} (h : n < 0xD800 ∨ 0xE000 ≤ n ∧ n < 0x110000) :
    encodeUtf8 n = .ok (Json.utf8 n) := by
  have hlead2 : ∀ c < 32, (c ||| 0xC0) &&& 0xFF = c + 0xC0 := by decide
  have hlead3 : ∀ c < 16, (c ||| 0xE0) &&& 0xFF = c + 0xE0 := by decide
  have hlead4 : ∀ c < 8, (c ||| 0xF0) &&& 0xFF = c + 0xF0 := by decide
  have hlead1 : ∀ c < 128, c &&& 0x7F = c := by decide
  have hshift : ∀ m : ℕ, m >>> 6 = m / 64 := fun m => Nat.shiftRight_eq_div_pow m 6
  unfold encodeUtf8 Json.utf8 String.utf8EncodeChar
  rw [Json.val_charOfNat h]
  dsimp only
  split_ifs with h1 h2 h3 h4 h5 h6 h7 h8 <;> try omega
  · simp [utf8Bytes, continuationBytes, hlead1 n h1]
  · simp only [utf8Bytes, continuationBytes, hshift, ofNat_continuation, List.nil_append,
      Nat.one_lt_ofNat, if_true, Nat.reduceSub]
    rw [hlead2 _ (by omega), Nat.mod_eq_of_lt (show n / 64 < 32 by omega)]
  · simp only [utf8Bytes, continuationBytes, hshift, ofNat_continuation, List.nil_append,
      Nat.one_lt_ofNat, if_true, Nat.reduceSub, Nat.div_div_eq_div_mul, Nat.reduceMul]
    rw [hlead3 _ (by omega), Nat.mod_eq_of_lt (show n / 4096 < 16 by omega)]
    rfl
  · simp only [utf8Bytes, continuationBytes, hshift, ofNat_continuation, List.nil_append,
      Nat.one_lt_ofNat, if_true, Nat.reduceSub, Nat.div_div_eq_div_mul, Nat.reduceMul]
    rw [hlead4 _ (by omega), Nat.mod_eq_of_lt (show n / 262144 < 8 by omega)]
    rfl

/-! ### Hexadecimal digits -/

theorem hexDigit_eq_hexValue (b : UInt8) : hexDigit b = Json.hexValue b := by
  unfold hexDigit Json.hexValue
  split_ifs with h1 h2 h3
  · rfl
  · congr 1
    omega
  · congr 1
    omega
  · rfl

theorem parseHex4_of_hex4 {hex : List UInt8} {n : ℕ} (h : Hex4 hex n) : parseHex4 hex = n := by
  obtain ⟨ha, hb, hc, hd⟩ := h
  rw [← hexDigit_eq_hexValue] at ha hb hc hd
  simp [parseHex4, ha, hb, hc, hd, Nat.shiftLeft_eq]

/-! ### Strings -/

theorem byteAt_of_drop {content l : List UInt8} {p : ℕ} {c : UInt8} (h : content.drop p = c :: l) :
    byteAt content p = .ok c := by
  have hc : content[p]? = some c := by
    rw [← List.head?_drop, h]
    rfl
  rw [byteAt, hc]

theorem bytesAt_of_drop {content bs l : List UInt8} {p n : ℕ} (h : content.drop p = bs ++ l)
    (hn : bs.length = n) (hpos : 0 < n) : bytesAt content p n = .ok bs := by
  have hlen := congrArg List.length h
  rw [List.length_drop, List.length_append] at hlen
  unfold bytesAt
  rw [if_pos (by omega), h, ← hn, List.take_left]

theorem drop_add_of_drop (bs : List UInt8) {content l : List UInt8} {p n : ℕ}
    (h : content.drop p = bs ++ l)
    (hn : bs.length = n) : content.drop (p + n) = l := by
  rw [← List.drop_drop, h, ← hn, List.drop_left]

theorem store_of_le {size : ℕ} {output bytes : List UInt8}
    (h : output.length + bytes.length ≤ size) :
    store size output bytes = .ok (output ++ bytes) := if_pos h

theorem simpleEscape_eq_escapeValue (e : UInt8) : simpleEscape e = Json.escapeValue e := by
  revert e
  decide +kernel

/-- The first loop of `parse_string` goes through bytes that are no quote and no backslash. -/
theorem stringEnd_append {bs l : List UInt8} (h : ∀ b ∈ bs, b ≠ 34 ∧ b ≠ 92) :
    stringEnd (bs ++ l) = (stringEnd l).map fun r => (r.1 + bs.length, r.2) := by
  induction bs with
  | nil =>
    rw [List.nil_append]
    cases stringEnd l <;> rfl
  | cons b bs ih =>
    have hb := h b (List.mem_cons_self ..)
    rw [List.cons_append, stringEnd.eq_def]
    dsimp only
    rw [if_neg hb.1, if_neg hb.2, ih fun b' hb' => h b' (List.mem_cons_of_mem _ hb'),
      Option.map_map]
    cases stringEnd l with
    | none => rfl
    | some r =>
      simp only [Option.map_some, Function.comp_apply, List.length_cons]
      rw [Nat.add_assoc]

/-- It finds the end of a string, and what it counts is enough for the bytes of the string. -/
theorem stringEnd_chars {t s : List UInt8} (h : Chars t s) (rest : List UInt8) :
    ∃ k, stringEnd (t ++ 34 :: rest) = some (t.length, k) ∧ s.length + k ≤ t.length := by
  induction h with
  | nil => exact ⟨0, by rw [List.nil_append, stringEnd.eq_def]; rfl, le_refl _⟩
  | @plain b t s hlow hquote hbackslash h ih =>
    obtain ⟨k, hk, hle⟩ := ih
    refine ⟨k, ?_, by simp only [List.length_cons]; omega⟩
    rw [List.cons_append, stringEnd.eq_def]
    dsimp only
    rw [if_neg hquote, if_neg hbackslash, hk]
    rfl
  | @escape e c t s he h ih =>
    obtain ⟨k, hk, hle⟩ := ih
    refine ⟨k + 1, ?_, by simp only [List.length_cons]; omega⟩
    rw [List.cons_append, List.cons_append, stringEnd.eq_def]
    dsimp only
    rw [if_neg (by decide), if_pos rfl, hk]
    rfl
  | @scalar hex t s n hx hn h ih =>
    obtain ⟨k, hk, hle⟩ := ih
    have hlen := Json.length_utf8_le_three (n := n) (by have := hx.lt; omega)
    refine ⟨k + 1, ?_, by simp only [List.length_cons, List.length_append, hx.length]; omega⟩
    rw [List.cons_append, List.cons_append, stringEnd.eq_def]
    dsimp only
    rw [if_neg (by decide), if_pos rfl, List.append_assoc, stringEnd_append hx.plain, hk]
    simp only [Option.map_some, List.length_cons, List.length_append, hx.length]
    rw [Nat.add_comm 4 t.length]
  | @pair hex hex' t s n n' hx hn hx' hn' h ih =>
    obtain ⟨k, hk, hle⟩ := ih
    have hlen := Json.length_utf8_le (0x10000 + n * 0x400 + n')
    refine ⟨k + 2, ?_, by
      simp only [List.length_cons, List.length_append, hx.length, hx'.length]; omega⟩
    rw [List.cons_append, List.cons_append, stringEnd.eq_def]
    dsimp only
    rw [if_neg (by decide), if_pos rfl, List.append_assoc, stringEnd_append hx.plain,
      List.cons_append, List.cons_append, stringEnd.eq_def]
    dsimp only
    rw [if_neg (by decide), if_pos rfl, List.append_assoc, stringEnd_append hx'.plain, hk]
    simp only [Option.map_some, List.length_cons, List.length_append, hx.length, hx'.length]
    congr 2
    omega

theorem utf16LiteralToUtf8_scalar {content hex l : List UInt8} {p inputEnd n : ℕ}
    (hdrop : content.drop p = 92 :: 117 :: (hex ++ l)) (hin : p + 6 ≤ inputEnd) (hx : Hex4 hex n)
    (hn : n < 0xD800 ∨ 0xE000 ≤ n) :
    utf16LiteralToUtf8 content p inputEnd = .ok (6, Json.utf8 n) := by
  have hhex : bytesAt content (p + 2) 4 = .ok hex :=
    bytesAt_of_drop (drop_add_of_drop [92, 117] hdrop rfl) hx.length (by norm_num)
  unfold utf16LiteralToUtf8
  rw [if_neg (by omega), hhex, ok_bind]
  dsimp only
  rw [parseHex4_of_hex4 hx, if_neg (by omega), if_neg (by omega),
    encodeUtf8_eq (by have := hx.lt; omega)]
  rfl

theorem utf16LiteralToUtf8_pair {content hex hex' l : List UInt8} {p inputEnd n n' : ℕ}
    (hdrop : content.drop p = 92 :: 117 :: (hex ++ 92 :: 117 :: (hex' ++ l)))
    (hin : p + 12 ≤ inputEnd) (hx : Hex4 hex (0xD800 + n)) (hn : n < 0x400)
    (hx' : Hex4 hex' (0xDC00 + n')) (hn' : n' < 0x400) :
    utf16LiteralToUtf8 content p inputEnd = .ok (12, Json.utf8 (0x10000 + n * 0x400 + n')) := by
  have hhex : bytesAt content (p + 2) 4 = .ok hex :=
    bytesAt_of_drop (drop_add_of_drop [92, 117] hdrop rfl) hx.length (by norm_num)
  have hbehind : content.drop (p + 6) = 92 :: 117 :: (hex' ++ l) := by
    refine drop_add_of_drop (92 :: 117 :: hex) ?_ ?_
    · rw [hdrop]
      rfl
    · simp [hx.length]
  have hescape : bytesAt content (p + 6) 2 = .ok [92, 117] := 
    bytesAt_of_drop (l := hex' ++ l) hbehind rfl (by norm_num)
  have hhex' : bytesAt content (p + 8) 4 = .ok hex' :=
    bytesAt_of_drop (drop_add_of_drop [92, 117] (p := p + 6) hbehind rfl) hx'.length
      (by norm_num)
  -- ten bits of either half
  have hlow : ∀ m k, m < 0x400 → k % 0x400 = 0 → (k + m) &&& 0x3FF = m := by
    intro m k hm hk
    rw [show 0x3FF = 2 ^ 10 - 1 from rfl, Nat.and_two_pow_sub_one_eq_mod]
    omega
  have hcode : 0x10000 + (((0xD800 + n) &&& 0x3FF) <<< 10 ||| (0xDC00 + n') &&& 0x3FF) =
      0x10000 + n * 0x400 + n' := by
    rw [hlow n _ hn rfl, hlow n' _ hn' rfl, ← Nat.shiftLeft_add_eq_or_of_lt hn', Nat.shiftLeft_eq,
      Nat.add_assoc]
  unfold utf16LiteralToUtf8
  rw [if_neg (by omega), hhex, ok_bind]
  dsimp only
  rw [parseHex4_of_hex4 hx, if_neg (by omega), if_pos (by omega), if_neg (by omega), hescape,
    ok_bind, if_neg (by simp), hhex', ok_bind]
  rw [parseHex4_of_hex4 hx', if_neg (by omega), hcode, encodeUtf8_eq (by omega)]
  rfl

section Unescape

variable {content : List UInt8} {inputEnd size p : ℕ} {output : List UInt8}

theorem unescapeStep_plain {b : UInt8} {l : List UInt8} (hdrop : content.drop p = b :: l)
    (hb : b ≠ 92) (hsize : output.length + 1 ≤ size) :
    unescapeStep content inputEnd size p output = .ok (p + 1, output ++ [b]) := by
  unfold unescapeStep
  rw [byteAt_of_drop hdrop, ok_bind, if_pos hb, store_of_le hsize]
  rfl

theorem unescapeStep_escape {e c : UInt8} {l : List UInt8} (hdrop : content.drop p = 92 :: e :: l)
    (he : Json.escapeValue e = some c) (hsize : output.length + 1 ≤ size) :
    unescapeStep content inputEnd size p output = .ok (p + 2, output ++ [c]) := by
  have hnext : content.drop (p + 1) = e :: l := drop_add_of_drop [92] hdrop rfl
  unfold unescapeStep
  rw [byteAt_of_drop hdrop, ok_bind, if_neg (by simp), byteAt_of_drop hnext, ok_bind,
    simpleEscape_eq_escapeValue, he]
  dsimp only
  rw [store_of_le hsize]
  rfl

theorem unescapeStep_literal {l bytes : List UInt8} {k : ℕ}
    (hdrop : content.drop p = 92 :: 117 :: l)
    (hliteral : utf16LiteralToUtf8 content p inputEnd = .ok (k, bytes))
    (hsize : output.length + bytes.length ≤ size) :
    unescapeStep content inputEnd size p output = .ok (p + k, output ++ bytes) := by
  have hnext : content.drop (p + 1) = 117 :: l := drop_add_of_drop [92] hdrop rfl
  unfold unescapeStep
  rw [byteAt_of_drop hdrop, ok_bind, if_neg (by simp), byteAt_of_drop hnext, ok_bind,
    simpleEscape_eq_escapeValue, show Json.escapeValue 117 = none from rfl]
  dsimp only
  rw [if_pos rfl, hliteral, ok_bind, store_of_le hsize]
  rfl

theorem unescape_succ {fuel p' : ℕ} {output' : List UInt8} (hp : p < inputEnd)
    (hstep : unescapeStep content inputEnd size p output = .ok (p', output')) :
    unescape content inputEnd size (fuel + 1) p output =
      unescape content inputEnd size fuel p' output' := by
  rw [unescape, if_pos hp, hstep, ok_bind]

/-- The second loop of `parse_string` stores what the characters denote. -/
theorem unescape_chars {t s rest : List UInt8} {fuel : ℕ} (h : Chars t s)
    (hdrop : content.drop p = t ++ rest) (hend : inputEnd = p + t.length) (hfuel : t.length < fuel)
    (hsize : output.length + s.length < size) :
    unescape content inputEnd size fuel p output = .ok (output ++ s) := by
  induction h generalizing p output fuel with
  | nil =>
    obtain ⟨fuel, rfl⟩ : ∃ k, fuel = k + 1 := ⟨fuel - 1, by omega⟩
    rw [List.length_nil] at hend hsize
    rw [unescape, if_neg (by omega), store_of_le (by simpa using hsize), List.append_nil]
    rfl
  | @plain b t s hlow hquote hbackslash h ih =>
    rw [List.length_cons] at hend hsize hfuel
    obtain ⟨fuel, rfl⟩ : ∃ k, fuel = k + 1 := ⟨fuel - 1, by omega⟩
    have hnext : content.drop (p + 1) = t ++ rest := drop_add_of_drop [b] hdrop rfl
    rw [unescape_succ (by omega) (unescapeStep_plain hdrop hbackslash (by omega)),
      ih hnext (by omega) (by omega) (by rw [List.length_append, List.length_singleton]; omega)]
    simp
  | @escape e c t s he h ih =>
    rw [List.length_cons, List.length_cons] at hend hfuel
    rw [List.length_cons] at hsize
    obtain ⟨fuel, rfl⟩ : ∃ k, fuel = k + 1 := ⟨fuel - 1, by omega⟩
    have hnext : content.drop (p + 2) = t ++ rest := drop_add_of_drop [92, e] hdrop rfl
    rw [unescape_succ (by omega) (unescapeStep_escape hdrop he (by omega)),
      ih hnext (by omega) (by omega) (by rw [List.length_append, List.length_singleton]; omega)]
    simp
  | @scalar hex t s n hx hn h ih =>
    have hlen : (92 :: 117 :: hex).length = 6 := by simp [hx.length]
    simp only [List.length_cons, List.length_append, hx.length] at hend hfuel hsize
    obtain ⟨fuel, rfl⟩ : ∃ k, fuel = k + 1 := ⟨fuel - 1, by omega⟩
    have hliteral : utf16LiteralToUtf8 content p inputEnd = .ok (6, Json.utf8 n) := by
      refine utf16LiteralToUtf8_scalar (l := t ++ rest) ?_ (by omega) hx hn
      rw [hdrop]
      simp
    have hnext : content.drop (p + 6) = t ++ rest :=
      drop_add_of_drop (92 :: 117 :: hex) (by rw [hdrop]; simp) hlen
    rw [unescape_succ (by omega) (unescapeStep_literal hdrop hliteral (by omega)),
      ih hnext (by omega) (by omega) (by rw [List.length_append]; omega)]
    simp
  | @pair hex hex' t s n n' hx hn hx' hn' h ih =>
    have hlen : (92 :: 117 :: (hex ++ 92 :: 117 :: hex')).length = 12 := by
      simp [hx.length, hx'.length]
    simp only [List.length_cons, List.length_append, hx.length, hx'.length] at hend hfuel hsize
    obtain ⟨fuel, rfl⟩ : ∃ k, fuel = k + 1 := ⟨fuel - 1, by omega⟩
    have hliteral : utf16LiteralToUtf8 content p inputEnd =
        .ok (12, Json.utf8 (0x10000 + n * 0x400 + n')) := by
      refine utf16LiteralToUtf8_pair (l := t ++ rest) ?_ (by omega) hx hn hx' hn'
      rw [hdrop]
      simp
    have hnext : content.drop (p + 12) = t ++ rest :=
      drop_add_of_drop (92 :: 117 :: (hex ++ 92 :: 117 :: hex')) (by rw [hdrop]; simp) hlen
    rw [unescape_succ (by omega) (unescapeStep_literal hdrop hliteral (by omega)),
      ih hnext (by omega) (by omega) (by rw [List.length_append]; omega)]
    simp

end Unescape

/-! ### Where the buffer stands -/

namespace ParseBuffer

variable {b : ParseBuffer} {l bs : List UInt8} {c : UInt8}

/-- What the buffer holds from its offset on. -/
def remaining (b : ParseBuffer) : List UInt8 := b.content.drop b.offset

theorem remaining_advance (bs : List UInt8) (h : b.remaining = bs ++ l) : (b.advance bs.length).remaining = l :=
  drop_add_of_drop bs h rfl

theorem offset_lt (h : b.remaining = c :: l) : b.offset < b.content.length := by
  have := congrArg List.length h
  rw [remaining, List.length_drop, List.length_cons] at this
  omega

theorem startsWith_eq (h : b.remaining = c :: l) (c' : UInt8) : b.startsWith c' = (c == c') := by
  rw [startsWith, ← List.head?_drop]
  show (b.remaining.head? == some c') = _
  rw [h]
  rfl

theorem advance_advance (b : ParseBuffer) (m n : ℕ) : (b.advance m).advance n = b.advance (m + n) := by
  rw [advance, advance, advance, Nat.add_assoc]

/-- The blanks before something else are skipped. -/
theorem skipWhitespace_blank {ws : List UInt8} (h : b.remaining = ws ++ c :: l) (hws : Blank ws)
    (hc : 32 < c) : b.skipWhitespace = b.advance ws.length := by
  have hin : b.offset + ws.length < b.content.length := by
    have := congrArg List.length h
    rw [remaining, List.length_drop, List.length_append, List.length_cons] at this
    omega
  have htake : (b.content.drop b.offset).takeWhile (· ≤ 32) = ws := by
    show b.remaining.takeWhile _ = ws
    rw [h, List.takeWhile_append_of_pos, List.takeWhile_cons_of_neg, List.append_nil]
    · simpa using hc
    · intro w hw
      rcases hws w hw with rfl | rfl | rfl | rfl <;> decide
  unfold skipWhitespace
  rw [if_pos (by rw [canAccess]; simp; omega)]
  simp only [htake]
  rw [if_neg (by show b.offset + ws.length ≠ b.content.length; omega)]

end ParseBuffer

/-- `parse_string` at a string. -/
theorem parseString_chars {b : ParseBuffer} {t s rest : List UInt8} (h : Chars t s)
    (hb : b.remaining = 34 :: (t ++ 34 :: rest)) :
    parseString b = .ok (s, b.advance (t.length + 2)) := by
  obtain ⟨k, hk, hle⟩ := stringEnd_chars h rest
  have hnext : b.content.drop (b.offset + 1) = t ++ 34 :: rest :=
    drop_add_of_drop [34] hb rfl
  unfold parseString
  rw [byteAt_of_drop hb, ok_bind, if_neg (by simp), hnext, hk]
  dsimp only
  rw [unescape_chars h hnext rfl (Nat.lt_succ_self _) (by rw [List.length_nil]; omega), ok_bind]
  have hend : b.offset + 1 + t.length + 1 = b.offset + (t.length + 2) := by omega
  show Except.ok (s, ({ b with offset := b.offset + 1 + t.length + 1 } : ParseBuffer)) = _
  rw [hend]
  rfl

/-! ### Numbers -/

theorem isDigit_iff {b : UInt8} : isDigit b = true ↔ 48 ≤ b ∧ b ≤ 57 := by
  simp [isDigit]

theorem decimal_eq_digitsValue (ds : List UInt8) : decimal ds = Json.digitsValue ds := by
  induction ds using List.reverseRecOn with
  | nil => rfl
  | append_singleton ds d ih =>
    rw [Json.digitsValue_concat, ← ih, decimal, List.foldl_append]
    rfl

theorem takeWhile_digits {ds l : List UInt8} (hds : Json.Digits ds)
    (hl : ∀ c ∈ l.head?, isDigit c = false) : (ds ++ l).takeWhile isDigit = ds := by
  rw [List.takeWhile_append_of_pos fun d hd => isDigit_iff.mpr (hds d hd)]
  cases l with
  | nil => rw [List.takeWhile_nil, List.append_nil]
  | cons c l => rw [List.takeWhile_cons_of_neg (by simp [hl c rfl]), List.append_nil]

theorem exponentOf_text (e : Json.Exponent) : exponentOf e.text = (e.value, e.text.length) := by
  have hsign : signOf (e.sign ++ e.digits) = (decide (e.sign = [45]), e.digits) := by
    rcases e.sign_ok with h | h | h
    · obtain ⟨d, ds, hds⟩ := List.exists_cons_of_ne_nil e.digits_ne
      have hd := isDigit_iff.mpr (e.digits_ok d (by simp [hds]))
      have h45 : d ≠ 45 := by rintro rfl; exact absurd hd (by decide)
      have h43 : d ≠ 43 := by rintro rfl; exact absurd hd (by decide)
      simp [h, hds, signOf, h45, h43]
    · simp [h, signOf]
    · simp [h, signOf]
  have htake : e.digits.takeWhile isDigit = e.digits := by
    have := takeWhile_digits e.digits_ok (l := []) (by simp)
    rwa [List.append_nil] at this
  rw [Json.Exponent.text, exponentOf, if_pos e.letter_e, hsign]
  dsimp only
  rw [htake, if_neg e.digits_ne, decimal_eq_digitsValue, Json.Exponent.value]
  simp only [decide_eq_true_eq, List.length_cons, List.length_append]
  congr 1
  omega

theorem strtod_text (n : Json.Numeral) :
    strtod n.text = (toDouble n.negative n.magnitude, n.text.length) := by
  -- the text behind the sign, and behind the digits
  generalize hexp : (n.exponent.map Json.Exponent.text).getD [] = exp
  generalize hfrac : (if n.frac = [] then [] else 46 :: n.frac) = frac
  have htext : n.text = (if n.negative then [45] else []) ++ (n.int ++ (frac ++ exp)) := by
    rw [Json.Numeral.text, hexp, hfrac, List.append_assoc, List.append_assoc]
  have hsign : signOf n.text = (n.negative, n.int ++ (frac ++ exp)) := by
    rw [htext]
    cases n.negative with
    | true => rfl
    | false =>
      obtain ⟨d, ds, hds⟩ := List.exists_cons_of_ne_nil n.int_ne
      have hd := isDigit_iff.mpr (n.int_ok d (by simp [hds]))
      have h45 : d ≠ 45 := by rintro rfl; exact absurd hd (by decide)
      have h43 : d ≠ 43 := by rintro rfl; exact absurd hd (by decide)
      simp [hds, signOf, h45, h43]
  have hexphead : ∀ c ∈ exp.head?, c = 101 ∨ c = 69 := by
    intro c hc
    cases he : n.exponent with
    | none =>
      rw [he] at hexp
      subst hexp
      exact absurd hc (by simp)
    | some e =>
      rw [he] at hexp
      subst hexp
      obtain rfl : e.letter = c := by simpa [Json.Exponent.text] using hc
      exact e.letter_e
  have hexpnodigit : ∀ c ∈ exp.head?, isDigit c = false := by
    intro c hc
    rcases hexphead c hc with rfl | rfl <;> decide
  have hint : (n.int ++ (frac ++ exp)).takeWhile isDigit = n.int := by
    refine takeWhile_digits n.int_ok fun c hc => ?_
    by_cases h : n.frac = []
    · rw [if_pos h] at hfrac
      subst hfrac
      exact hexpnodigit c hc
    · rw [if_neg h] at hfrac
      subst hfrac
      obtain rfl : 46 = c := by simpa using hc
      decide
  have hfraction : fractionOf (frac ++ exp) = (n.frac, frac.length) := by
    by_cases h : n.frac = []
    · rw [if_pos h] at hfrac
      subst hfrac
      rw [List.nil_append, h]
      cases exp with
      | nil => rfl
      | cons c exp =>
        have hc : c ≠ 46 := by
          rintro rfl
          exact absurd (hexphead 46 rfl) (by decide)
        rw [fractionOf, if_neg hc]
        rfl
    · rw [if_neg h] at hfrac
      subst hfrac
      rw [List.cons_append, fractionOf, if_pos rfl, takeWhile_digits n.frac_ok hexpnodigit,
        List.length_cons, Nat.add_comm]
  have hexponent :
      exponentOf exp = ((n.exponent.map Json.Exponent.value).getD 0, exp.length) := by
    cases he : n.exponent with
    | none =>
      rw [he] at hexp
      subst hexp
      rfl
    | some e =>
      rw [he] at hexp
      subst hexp
      exact exponentOf_text e
  unfold strtod
  dsimp only
  rw [hsign]
  dsimp only
  rw [hint, if_neg fun h => n.int_ne h.1, List.drop_left, hfraction]
  dsimp only
  rw [← List.drop_drop, List.drop_left, List.drop_left, hexponent, decimal_eq_digitsValue]
  dsimp only
  rw [Json.Numeral.magnitude, htext]
  congr 1
  simp only [List.length_append]
  omega

/-- A numeral of at most 63 bytes, and the `double` nearest to its value. -/
def Number (t : List UInt8) (x : Double) : Prop :=
  ∃ n : Json.Numeral, t = n.text ∧ t.length ≤ 63 ∧ x = toDouble n.negative n.magnitude

/-- Every byte of a numeral is copied. -/
theorem numberBytes (n : Json.Numeral) : ∀ b ∈ n.text, isNumberByte b = true := by
  have hdigits : ∀ ds, Json.Digits ds → ∀ b ∈ ds, isNumberByte b = true := by
    intro ds hds b hb
    rw [isNumberByte, isDigit_iff.mpr (hds b hb)]
    rfl
  intro b hb
  rw [Json.Numeral.text] at hb
  rcases List.mem_append.mp hb with hb | hb
  · rcases List.mem_append.mp hb with hb | hb
    · rcases List.mem_append.mp hb with hb | hb
      · split_ifs at hb
        · obtain rfl := List.mem_singleton.mp hb
          decide
        · exact absurd hb (by simp)
      · exact hdigits _ n.int_ok b hb
    · split_ifs at hb
      · exact absurd hb (by simp)
      · rcases List.mem_cons.mp hb with rfl | hb
        · decide
        · exact hdigits _ n.frac_ok b hb
  · cases he : n.exponent with
    | none =>
      rw [he] at hb
      exact absurd hb (by simp)
    | some e =>
      rw [he] at hb
      rcases List.mem_cons.mp hb with rfl | hb
      · rcases e.letter_e with h | h <;> rw [h] <;> decide
      · rcases List.mem_append.mp hb with hb | hb
        · rcases e.sign_ok with h | h | h <;> rw [h] at hb
          · exact absurd hb (by simp)
          · obtain rfl := List.mem_singleton.mp hb
            decide
          · obtain rfl := List.mem_singleton.mp hb
            decide
        · exact hdigits _ e.digits_ok b hb

theorem number_5000 : Number [53, 48, 48, 48] (.finite 5000) := by
  refine ⟨⟨false, [53, 48, 48, 48], [], none, by unfold Json.Digits; decide +kernel, by decide, by decide,
    by simp [Json.Digits]⟩, by decide, by norm_num, ?_⟩
  have hvalue : Json.digitsValue ([53, 48, 48, 48] ++ []) = 5000 := by decide
  simp only [Json.Numeral.magnitude, hvalue, Option.map_none, Option.getD_none, List.length_nil,
    Nat.cast_zero, sub_zero, zpow_zero, mul_one]
  exact (toDouble_natCast (n := 5000) (by norm_num) false).symm

theorem numeral_head (n : Json.Numeral) : ∃ c l, n.text = c :: l ∧ (c = 45 ∨ isDigit c = true) := by
  obtain ⟨d, ds, hds⟩ := List.exists_cons_of_ne_nil n.int_ne
  rw [Json.Numeral.text, hds]
  cases n.negative with
  | true => exact ⟨45, _, rfl, Or.inl rfl⟩
  | false => exact ⟨d, _, rfl, Or.inr (isDigit_iff.mpr (n.int_ok d (by simp [hds])))⟩

/-- `parse_number` at a numeral that ends there. -/
theorem parseNumber_numeral {b : ParseBuffer} {t rest : List UInt8} {x : Double} (h : Number t x)
    (hb : b.remaining = t ++ rest) (hrest : ∀ c ∈ rest.head?, isNumberByte c = false) :
    parseNumber b = .ok (x, b.advance t.length) := by
  obtain ⟨n, rfl, hlen, rfl⟩ := h
  have htake : (b.remaining.take 63).takeWhile isNumberByte = n.text := by
    rw [hb, List.take_append, List.take_of_length_le hlen,
      List.takeWhile_append_of_pos (numberBytes n)]
    cases hr : rest.take (63 - n.text.length) with
    | nil => rw [List.takeWhile_nil, List.append_nil]
    | cons c l =>
      have hc : rest.head? = some c := by
        cases rest with
        | nil => exact absurd hr (by simp)
        | cons c' rest =>
          cases hk : 63 - n.text.length with
          | zero =>
            rw [hk] at hr
            exact absurd hr (by simp)
          | succ k =>
            rw [hk, List.take_succ_cons] at hr
            rw [(List.cons.inj hr).1]
            rfl
      rw [List.takeWhile_cons_of_neg (by simp [hrest c hc]), List.append_nil]
  have hpos : n.text.length ≠ 0 := by
    obtain ⟨c, l, htext, -⟩ := numeral_head n
    rw [htext]
    simp
  unfold parseNumber
  dsimp only
  rw [show (b.content.drop b.offset) = b.remaining from rfl, htake, strtod_text]
  exact if_neg hpos

/-! ### Arrays and objects -/

namespace ParseBuffer

variable {b : ParseBuffer} {t rest : List UInt8} {k : ℕ}

/-- Where the buffer stands tells how far it has come. -/
theorem advance_unique (h : b.remaining = t ++ rest) (hk : (b.advance k).remaining = rest)
    (hne : rest ≠ []) : k = t.length := by
  have hpos := List.length_pos_iff.mpr hne
  have hlen := congrArg List.length h
  have hlen' := congrArg List.length hk
  simp only [remaining, advance, List.length_drop, List.length_append] at hlen hlen'
  omega

end ParseBuffer

/-- A byte follows, and none that a numeral goes on with. -/
def Follow (rest : List UInt8) : Prop := rest ≠ [] ∧ ∀ c ∈ rest.head?, isNumberByte c = false

theorem Follow.cons {c : UInt8} (l : List UInt8) (hc : isNumberByte c = false) : Follow (c :: l) := by
  refine ⟨List.cons_ne_nil _ _, fun c' hc' => ?_⟩
  obtain rfl : c = c' := by simpa using hc'
  exact hc

theorem Follow.blank {ws l : List UInt8} (hws : Blank ws) (h : Follow l) : Follow (ws ++ l) := by
  cases ws with
  | nil => exact h
  | cons w ws =>
    refine Follow.cons _ ?_
    rcases hws w (List.mem_cons_self ..) with rfl | rfl | rfl | rfl <;> decide

section Items

variable {α : Type}

/-- The rest of a list behind one of its entries: `es` are the entries to come. -/
def behind (es : List (Entry α)) (tail : List UInt8) : List UInt8 :=
  match es with
  | [] => tail
  | e :: es => 44 :: (Json.listed (e :: es) ++ tail)

theorem listed_append (e : Entry α) (es : List (Entry α)) (tail : List UInt8) :
    Json.listed (e :: es) ++ tail = e.before ++ (e.text ++ (e.after ++ behind es tail)) := by
  cases es with
  | nil => simp [Json.listed_singleton, Entry.bytes, behind]
  | cons e' es => simp [Json.listed_cons_cons, Entry.bytes, behind]

variable {element : ParseBuffer → Except Fault (α × ParseBuffer)} {closing : UInt8} {depth : ℕ}

/-- `element` reads the entry `e` of an array or object that `closing` ends. -/
structure Reads (element : ParseBuffer → Except Fault (α × ParseBuffer)) (closing : UInt8)
    (depth : ℕ) (e : Entry α) : Prop where
  head : ∃ c l, e.text = c :: l ∧ 32 < c ∧ c ≠ closing
  parse : ∀ (b : ParseBuffer) (rest : List UInt8), b.depth = depth →
    b.remaining = e.text ++ rest → Follow rest → element b = .ok (e.value, b.advance e.text.length)

variable (hclosing : 32 < closing ∧ closing ≠ 44 ∧ isNumberByte closing = false)

include hclosing

theorem behind_head (es : List (Entry α)) (rest : List UInt8) :
    ∃ c l, behind es (closing :: rest) = c :: l ∧ 32 < c ∧ isNumberByte c = false := by
  cases es with
  | nil => exact ⟨closing, rest, rfl, hclosing.1, hclosing.2.2⟩
  | cons e es => exact ⟨44, _, rfl, by decide, by decide⟩

/-- A round of the loop: blanks, an entry, blanks. -/
theorem parseElements_round (items : List α) {e : Entry α} {es : List (Entry α)} {b : ParseBuffer}
    {ws rest : List UInt8} {fuel : ℕ} (he : Reads element closing depth e)
    (hdepth : b.depth = depth) (hws : Blank ws)
    (hb : (b.advance 1).remaining = ws ++ (e.text ++ (e.after ++ behind es (closing :: rest))))
    (hfuel : b.content.length ≤ b.offset + fuel) :
    ∃ k fuel', b.content.length ≤ (b.advance k).offset + fuel' ∧
      (b.advance k).remaining = behind es (closing :: rest) ∧
      parseElements element fuel b items =
        if (b.advance k).startsWith 44 then
          parseElements element fuel' (b.advance k) (items ++ [e.value])
        else .ok (items ++ [e.value], b.advance k) := by
  obtain ⟨c, l, htext, hc, -⟩ := he.head
  obtain ⟨c', l', hbehind, hc', hfollow⟩ := behind_head hclosing es rest
  have hb' := hb
  rw [htext, List.cons_append] at hb'
  have hin : b.offset + 1 < b.content.length := by
    have hlen := congrArg List.length hb'
    simp only [ParseBuffer.remaining, ParseBuffer.advance, List.length_drop, List.length_append,
      List.length_cons] at hlen
    omega
  obtain ⟨fuel, rfl⟩ : ∃ n, fuel = n + 1 := ⟨fuel - 1, by omega⟩
  have hskip : (b.advance 1).skipWhitespace = b.advance (1 + ws.length) := by
    rw [ParseBuffer.skipWhitespace_blank hb' hws hc, ParseBuffer.advance_advance]
  have hstand : (b.advance (1 + ws.length)).remaining =
      e.text ++ (e.after ++ behind es (closing :: rest)) := by
    rw [← ParseBuffer.advance_advance]
    exact ParseBuffer.remaining_advance _ hb
  have hparse := he.parse (b.advance (1 + ws.length)) _ hdepth hstand
    (Follow.blank e.after_blank (by rw [hbehind]; exact Follow.cons l' hfollow))
  have hbehind' := ParseBuffer.remaining_advance _ hstand
  rw [ParseBuffer.advance_advance] at hparse hbehind'
  have hskip' : (b.advance (1 + ws.length + e.text.length)).skipWhitespace =
      b.advance (1 + ws.length + e.text.length + e.after.length) := by
    rw [hbehind] at hbehind'
    rw [ParseBuffer.skipWhitespace_blank hbehind' e.after_blank hc', ParseBuffer.advance_advance]
  refine ⟨1 + ws.length + e.text.length + e.after.length, fuel, ?_, ?_, ?_⟩
  · simp only [ParseBuffer.advance]
    omega
  · rw [← ParseBuffer.advance_advance]
    exact ParseBuffer.remaining_advance _ hbehind'
  · rw [parseElements, hskip, hparse, ok_bind]
    dsimp only
    rw [hskip']

/-- The loop reads all entries and stops at the closing bracket. -/
theorem parseElements_listed (items : List α) {e : Entry α} {es : List (Entry α)} {b : ParseBuffer}
    {ws rest : List UInt8} {fuel : ℕ}
    (hreads : ∀ i ∈ e :: es, Reads element closing depth i) (hdepth : b.depth = depth)
    (hws : Blank ws)
    (hb : (b.advance 1).remaining = ws ++ (e.text ++ (e.after ++ behind es (closing :: rest))))
    (hfuel : b.content.length ≤ b.offset + fuel) :
    ∃ k, parseElements element fuel b items =
        .ok (items ++ (e :: es).map Entry.value, b.advance k) ∧
      (b.advance k).remaining = closing :: rest := by
  induction es generalizing e b ws items fuel with
  | nil =>
    obtain ⟨k, fuel', -, hstand, hround⟩ := parseElements_round hclosing items
      (hreads e (List.mem_cons_self ..)) hdepth hws hb hfuel
    refine ⟨k, ?_, hstand⟩
    rw [hround, ParseBuffer.startsWith_eq hstand, if_neg (by simpa using hclosing.2.1)]
    rfl
  | cons e' es ih =>
    obtain ⟨k, fuel', hfuel', hstand, hround⟩ := parseElements_round hclosing items
      (hreads e (List.mem_cons_self ..)) hdepth hws hb hfuel
    have hcomma : (b.advance k).startsWith 44 = true := by
      rw [ParseBuffer.startsWith_eq hstand]
      rfl
    have hnext : ((b.advance k).advance 1).remaining =
        e'.before ++ (e'.text ++ (e'.after ++ behind es (closing :: rest))) := by
      rw [← listed_append]
      exact ParseBuffer.remaining_advance [44] hstand
    obtain ⟨k', hrest, hend⟩ := ih (items ++ [e.value]) (b := b.advance k)
      (fun i hi => hreads i (List.mem_cons_of_mem _ hi)) hdepth e'.before_blank hnext hfuel'
    rw [ParseBuffer.advance_advance] at hrest hend
    refine ⟨k + k', ?_, hend⟩
    rw [hround, if_pos hcomma, hrest]
    simp

/-- From the opening bracket on: an empty array or object. -/
theorem parseItems_empty {b : ParseBuffer} {o : UInt8} {ws rest : List UInt8} (hws : Blank ws)
    (hb : b.remaining = o :: (ws ++ closing :: rest)) :
    parseItems element closing b =
      .ok ([], { b.advance (ws.length + 2) with depth := b.depth - 1 }) := by
  have hstand : (b.advance 1).remaining = ws ++ closing :: rest :=
    ParseBuffer.remaining_advance [o] hb
  have hskip : (b.advance 1).skipWhitespace = b.advance (1 + ws.length) := by
    rw [ParseBuffer.skipWhitespace_blank hstand hws hclosing.1, ParseBuffer.advance_advance]
  have hclose : (b.advance (1 + ws.length)).remaining = closing :: rest := by
    rw [← ParseBuffer.advance_advance]
    exact ParseBuffer.remaining_advance _ hstand
  unfold parseItems
  rw [hskip]
  dsimp only
  rw [ParseBuffer.startsWith_eq hclose, if_pos (by simp), ParseBuffer.advance_advance,
    show 1 + ws.length + 1 = ws.length + 2 by omega]
  rfl

/-- From the opening bracket on: entries, and the closing bracket. -/
theorem parseItems_listed {b : ParseBuffer} {o : UInt8} {rest : List UInt8} {e : Entry α}
    {es : List (Entry α)} (hreads : ∀ i ∈ e :: es, Reads element closing depth i)
    (hdepth : b.depth = depth)
    (hb : b.remaining = o :: (Json.listed (e :: es) ++ closing :: rest)) :
    ∃ k, parseItems element closing b =
        .ok ((e :: es).map Entry.value, { b.advance k with depth := b.depth - 1 }) ∧
      (b.advance k).remaining = rest := by
  obtain ⟨c, l, htext, hc, hne⟩ := (hreads e (List.mem_cons_self ..)).head
  have hopen : (b.advance 1).remaining = Json.listed (e :: es) ++ closing :: rest :=
    ParseBuffer.remaining_advance [o] hb
  rw [listed_append] at hopen
  have hopen' := hopen
  rw [htext, List.cons_append] at hopen'
  have hskip : (b.advance 1).skipWhitespace = b.advance (1 + e.before.length) := by
    rw [← ParseBuffer.advance_advance]
    exact ParseBuffer.skipWhitespace_blank hopen' e.before_blank hc
  have hstand := ParseBuffer.remaining_advance _ hopen'
  rw [ParseBuffer.advance_advance] at hstand
  have hfirst := ParseBuffer.remaining_advance _ hopen
  rw [ParseBuffer.advance_advance] at hfirst
  -- the loop starts a byte before the first entry
  have hback : (b.advance (1 + e.before.length)).retreat = b.advance e.before.length := by
    simp only [ParseBuffer.retreat, ParseBuffer.advance]
    congr 1
    omega
  have hfirst' : ((b.advance e.before.length).advance 1).remaining =
      [] ++ (e.text ++ (e.after ++ behind es (closing :: rest))) := by
    rw [ParseBuffer.advance_advance, Nat.add_comm]
    exact hfirst
  have hfuel : (b.advance e.before.length).content.length ≤
      (b.advance e.before.length).offset + b.content.length := Nat.le_add_left _ _
  obtain ⟨k, hloop, hend⟩ := parseElements_listed hclosing [] (b := b.advance e.before.length)
    hreads hdepth (by simp [Blank]) hfirst' hfuel
  rw [ParseBuffer.advance_advance] at hloop hend
  refine ⟨e.before.length + k + 1, ?_, ?_⟩
  · unfold parseItems
    rw [hskip]
    dsimp only
    rw [ParseBuffer.startsWith_eq hstand, if_neg (by simpa using hne), if_neg, hback]
    · show (parseElements element b.content.length _ [] >>= _) = _
      rw [hloop, ok_bind]
      dsimp only
      rw [ParseBuffer.startsWith_eq hend, if_pos (by simp), ParseBuffer.advance_advance,
        List.nil_append]
      rfl
    · have := ParseBuffer.offset_lt hstand
      simpa [ParseBuffer.canAccess] using this
  · rw [← ParseBuffer.advance_advance]
    exact ParseBuffer.remaining_advance [closing] hend

end Items

/-! ### Values -/

namespace ParseBuffer

variable {b : ParseBuffer} {text l : List UInt8} {c : UInt8}

theorem reads_self (h : b.remaining = text ++ l) (hne : text ≠ []) : b.reads text = true := by
  have hlen := congrArg List.length h
  have hpos := List.length_pos_iff.mpr hne
  rw [remaining, List.length_drop, List.length_append] at hlen
  have htake : (b.content.drop b.offset).take text.length = text := by
    rw [show b.content.drop b.offset = b.remaining from rfl, h, List.take_left]
  rw [reads, htake]
  simp
  omega

theorem reads_other (h : b.remaining = c :: l) {c' : UInt8} (hne : c ≠ c') (text : List UInt8) :
    b.reads (c' :: text) = false := by
  have htake : (b.content.drop b.offset).take (c' :: text).length ≠ c' :: text := by
    rw [show b.content.drop b.offset = b.remaining from rfl, h, List.length_cons, List.take_succ_cons]
    exact fun heq => hne (List.cons.inj heq).1
  rw [reads, beq_eq_false_iff_ne.mpr htake, Bool.and_false]

end ParseBuffer

theorem numeral_start : ∀ c : UInt8, (c = 45 ∨ isDigit c = true) →
    (32 < c ∧ c ≠ 93 ∧ c ≠ 125 ∧ c ≠ 0xEF) ∧ c ≠ 110 ∧ c ≠ 102 ∧ c ≠ 116 ∧ c ≠ 34 := by
  decide +kernel

/-- No value starts with a blank, a closing bracket or a byte order mark. -/
theorem text_head {d : ℕ} {t : List UInt8} {v : Json Double} (h : Text Number d t v) :
    ∃ c l, t = c :: l ∧ 32 < c ∧ c ≠ 93 ∧ c ≠ 125 ∧ c ≠ 0xEF := by
  cases h with
  | null => exact ⟨_, _, rfl, by decide, by decide, by decide, by decide⟩
  | false => exact ⟨_, _, rfl, by decide, by decide, by decide, by decide⟩
  | true => exact ⟨_, _, rfl, by decide, by decide, by decide, by decide⟩
  | string => exact ⟨_, _, rfl, by decide, by decide, by decide, by decide⟩
  | emptyArray => exact ⟨_, _, rfl, by decide, by decide, by decide, by decide⟩
  | array => exact ⟨_, _, rfl, by decide, by decide, by decide, by decide⟩
  | emptyObject => exact ⟨_, _, rfl, by decide, by decide, by decide, by decide⟩
  | object => exact ⟨_, _, rfl, by decide, by decide, by decide, by decide⟩
  | number h =>
    obtain ⟨n, rfl, -, -⟩ := h
    obtain ⟨c, l, htext, hc⟩ := numeral_head n
    exact ⟨c, l, htext, (numeral_start c hc).1⟩

section Brackets

variable {parse : ParseBuffer → Except Fault (Json Double × ParseBuffer)} {b : ParseBuffer}
  {rest : List UInt8}

theorem parseArray_empty {ws : List UInt8} (hdepth : b.depth < CJSON_NESTING_LIMIT)
    (hws : Blank ws) (hb : b.remaining = 91 :: (ws ++ 93 :: rest)) :
    parseArray parse b = .ok (.array [], b.advance (ws.length + 2)) := by
  unfold parseArray
  rw [if_neg (by omega)]
  dsimp only
  rw [byteAt_of_drop hb, ok_bind, if_neg (by simp),
    parseItems_empty (by decide) hws (b := { b with depth := b.depth + 1 }) hb]
  rfl

theorem parseArray_listed {e : Entry (Json Double)} {es : List (Entry (Json Double))}
    (hdepth : b.depth < CJSON_NESTING_LIMIT)
    (hreads : ∀ i ∈ e :: es, Reads parse 93 (b.depth + 1) i)
    (hb : b.remaining = 91 :: (Json.listed (e :: es) ++ 93 :: rest)) :
    ∃ k, parseArray parse b = .ok (.array ((e :: es).map Entry.value), b.advance k) ∧
      (b.advance k).remaining = rest := by
  obtain ⟨k, hitems, hend⟩ := parseItems_listed (by decide)
    (b := { b with depth := b.depth + 1 }) hreads rfl hb
  refine ⟨k, ?_, hend⟩
  unfold parseArray
  rw [if_neg (by omega)]
  dsimp only
  rw [byteAt_of_drop hb, ok_bind, if_neg (by simp), hitems]
  rfl

theorem parseObject_empty {ws : List UInt8} (hdepth : b.depth < CJSON_NESTING_LIMIT)
    (hws : Blank ws) (hb : b.remaining = 123 :: (ws ++ 125 :: rest)) :
    parseObject parse b = .ok (.object [], b.advance (ws.length + 2)) := by
  have hstart : ({ b with depth := b.depth + 1 } : ParseBuffer).startsWith 123 = true := by
    rw [ParseBuffer.startsWith_eq (b := { b with depth := b.depth + 1 }) hb]
    rfl
  unfold parseObject
  rw [if_neg (by omega)]
  dsimp only
  rw [hstart, if_neg (by simp), parseItems_empty (by decide) hws
    (b := { b with depth := b.depth + 1 }) hb]
  rfl

theorem parseObject_listed {e : Entry (List UInt8 × Json Double)}
    {es : List (Entry (List UInt8 × Json Double))} (hdepth : b.depth < CJSON_NESTING_LIMIT)
    (hreads : ∀ i ∈ e :: es, Reads (parseMember parse) 125 (b.depth + 1) i)
    (hb : b.remaining = 123 :: (Json.listed (e :: es) ++ 125 :: rest)) :
    ∃ k, parseObject parse b = .ok (.object ((e :: es).map Entry.value), b.advance k) ∧
      (b.advance k).remaining = rest := by
  obtain ⟨k, hitems, hend⟩ := parseItems_listed (by decide)
    (b := { b with depth := b.depth + 1 }) hreads rfl hb
  have hstart : ({ b with depth := b.depth + 1 } : ParseBuffer).startsWith 123 = true := by
    rw [ParseBuffer.startsWith_eq (b := { b with depth := b.depth + 1 }) hb]
    rfl
  refine ⟨k, ?_, hend⟩
  unfold parseObject
  rw [if_neg (by omega)]
  dsimp only
  rw [hstart, if_neg (by simp), hitems]
  rfl

/-- A member of an object is read if its value is. -/
theorem reads_member {m : Member Double} {depth : ℕ} (hitem : Reads parse 125 depth m.item) :
    Reads (parseMember parse) 125 depth m.entry := by
  refine ⟨⟨34, _, rfl, by decide, by decide⟩, fun b rest hdepth hb hfollow => ?_⟩
  obtain ⟨c, l, htext, hc, -⟩ := hitem.head
  have hname : b.remaining = 34 :: (m.nameText ++ 34 :: (m.after ++ 58 ::
      (m.item.before ++ (m.item.text ++ rest)))) := by
    rw [hb]
    simp [Member.entry]
  have hquoted : b.content.drop b.offset = (34 :: (m.nameText ++ [34])) ++ (m.after ++ 58 ::
      (m.item.before ++ (m.item.text ++ rest))) := by
    show b.remaining = _
    rw [hname]
    simp
  have hcolon : (b.advance (m.nameText.length + 2)).remaining = m.after ++ 58 ::
      (m.item.before ++ (m.item.text ++ rest)) :=
    drop_add_of_drop _ hquoted (by simp)
  have hskip := ParseBuffer.skipWhitespace_blank hcolon m.after_blank (by decide)
  have hat := ParseBuffer.remaining_advance _ hcolon
  rw [ParseBuffer.advance_advance] at hskip hat
  have hvalue : (b.advance (m.nameText.length + 2 + m.after.length + 1)).remaining =
      m.item.before ++ (m.item.text ++ rest) := by
    rw [← ParseBuffer.advance_advance]
    exact ParseBuffer.remaining_advance [58] hat
  have hskip' : (b.advance (m.nameText.length + 2 + m.after.length + 1)).skipWhitespace =
      b.advance (m.nameText.length + 2 + m.after.length + 1 + m.item.before.length) := by
    rw [htext] at hvalue
    rw [ParseBuffer.skipWhitespace_blank hvalue m.item.before_blank hc, ParseBuffer.advance_advance]
  have hread := ParseBuffer.remaining_advance _ hvalue
  rw [ParseBuffer.advance_advance] at hread
  have hparse := hitem.parse (b.advance _) rest hdepth hread hfollow
  unfold parseMember
  rw [parseString_chars m.name_ok hname, ok_bind]
  dsimp only
  rw [hskip, ParseBuffer.startsWith_eq hat, if_neg (by simp), ParseBuffer.advance_advance, hskip',
    hparse, ok_bind, ParseBuffer.advance_advance]
  -- the length of the text of the member
  have hlen : m.entry.text.length = m.nameText.length + 2 + m.after.length + 1 +
      m.item.before.length + m.item.text.length := by
    simp only [Member.entry, List.length_cons, List.length_append]
    omega
  rw [hlen]
  rfl

end Brackets

/-- `parse_value` at a byte that starts none of the three words. -/
theorem parseValue_other {b : ParseBuffer} {c : UInt8} {l : List UInt8} (fuel : ℕ)
    (hb : b.remaining = c :: l) (hn : c ≠ 110) (hf : c ≠ 102) (ht : c ≠ 116) :
    parseValue (fuel + 1) b =
      if c = 34 then do
        let r ← parseString b
        .ok (.string r.1, r.2)
      else if c = 45 ∨ isDigit c = true then do
        let r ← parseNumber b
        .ok (.number r.1, r.2)
      else if c = 91 then parseArray (parseValue fuel) b
      else if c = 123 then parseObject (parseValue fuel) b
      else .error .refused := by
  have hc : b.content[b.offset]? = some c := by
    rw [← List.head?_drop, show b.content.drop b.offset = b.remaining from rfl, hb]
    rfl
  rw [parseValue, nullText, falseText, trueText, ParseBuffer.reads_other hb hn,
    ParseBuffer.reads_other hb hf, ParseBuffer.reads_other hb ht]
  simp only [ParseBuffer.startsWith_eq hb, hc, Bool.false_eq_true, if_false, Option.any_some,
    beq_iff_eq, Bool.or_eq_true]

/-- `parse_value` at the text of a value. -/
theorem parseValue_text {d fuel : ℕ} {t rest : List UInt8} {v : Json Double} {b : ParseBuffer}
    (h : Text Number d t v) (hfuel : d < fuel) (hdepth : b.depth + d ≤ CJSON_NESTING_LIMIT)
    (hb : b.remaining = t ++ rest) (hne : rest ≠ [])
    (hnumber : (∃ x, v = .number x) → ∀ c ∈ rest.head?, isNumberByte c = false) :
    parseValue fuel b = .ok (v, b.advance t.length) := by
  induction h generalizing fuel b rest with
  | null =>
    obtain ⟨fuel, rfl⟩ : ∃ n, fuel = n + 1 := ⟨fuel - 1, by omega⟩
    rw [parseValue, nullText, ParseBuffer.reads_self hb (by simp), if_pos rfl]
    rfl
  | false =>
    obtain ⟨fuel, rfl⟩ : ∃ n, fuel = n + 1 := ⟨fuel - 1, by omega⟩
    rw [parseValue, nullText, falseText, ParseBuffer.reads_other hb (by decide),
      ParseBuffer.reads_self hb (by simp), if_neg (by simp), if_pos rfl]
    rfl
  | true =>
    obtain ⟨fuel, rfl⟩ : ∃ n, fuel = n + 1 := ⟨fuel - 1, by omega⟩
    rw [parseValue, nullText, falseText, trueText, ParseBuffer.reads_other hb (by decide),
      ParseBuffer.reads_other hb (by decide), ParseBuffer.reads_self hb (by simp),
      if_neg (by simp), if_neg (by simp), if_pos rfl]
    rfl
  | @number d t x h =>
    obtain ⟨fuel, rfl⟩ : ∃ n, fuel = n + 1 := ⟨fuel - 1, by omega⟩
    obtain ⟨n, htext, -, -⟩ := id h
    obtain ⟨c, l, hn, hc⟩ := numeral_head n
    have hb' : b.remaining = c :: (l ++ rest) := by rw [hb, htext, hn, List.cons_append]
    obtain ⟨-, h1, h2, h3, h4⟩ := numeral_start c hc
    rw [parseValue_other fuel hb' h1 h2 h3, if_neg h4, if_pos hc,
      parseNumber_numeral h hb (hnumber ⟨x, rfl⟩)]
    rfl
  | @string d t s h =>
    obtain ⟨fuel, rfl⟩ : ∃ n, fuel = n + 1 := ⟨fuel - 1, by omega⟩
    have hb' : b.remaining = 34 :: (t ++ 34 :: rest) := by
      rw [hb]
      simp
    rw [parseValue_other fuel hb' (by decide) (by decide) (by decide), if_pos rfl,
      parseString_chars h hb']
    simp [ok_bind]
  | @emptyArray d ws h =>
    obtain ⟨fuel, rfl⟩ : ∃ n, fuel = n + 1 := ⟨fuel - 1, by omega⟩
    have hb' : b.remaining = 91 :: (ws ++ 93 :: rest) := by
      rw [hb]
      simp
    rw [parseValue_other fuel hb' (by decide) (by decide) (by decide), if_neg (by decide),
      if_neg (by decide), if_pos rfl, parseArray_empty (by omega) h hb']
    simp
  | @array d e es h ih =>
    obtain ⟨fuel, rfl⟩ : ∃ n, fuel = n + 1 := ⟨fuel - 1, by omega⟩
    have hb' : b.remaining = 91 :: (Json.listed (e :: es) ++ 93 :: rest) := by
      rw [hb]
      simp
    have hreads : ∀ i ∈ e :: es, Reads (parseValue fuel) 93 (b.depth + 1) i := by
      intro i hi
      obtain ⟨c, l, htext, hc, hclose, -⟩ := text_head (h i hi)
      exact ⟨⟨c, l, htext, hc, hclose⟩, fun b' rest' hd' hb' hfollow =>
        ih i hi (by omega) (by omega) hb' hfollow.1 fun _ => hfollow.2⟩
    obtain ⟨k, hparse, hend⟩ := parseArray_listed (by omega) hreads hb'
    rw [parseValue_other fuel hb' (by decide) (by decide) (by decide), if_neg (by decide),
      if_neg (by decide), if_pos rfl, hparse, ParseBuffer.advance_unique hb hend hne]
  | @emptyObject d ws h =>
    obtain ⟨fuel, rfl⟩ : ∃ n, fuel = n + 1 := ⟨fuel - 1, by omega⟩
    have hb' : b.remaining = 123 :: (ws ++ 125 :: rest) := by
      rw [hb]
      simp
    rw [parseValue_other fuel hb' (by decide) (by decide) (by decide), if_neg (by decide),
      if_neg (by decide), if_neg (by decide), if_pos rfl, parseObject_empty (by omega) h hb']
    simp
  | @object d m ms h ih =>
    obtain ⟨fuel, rfl⟩ : ∃ n, fuel = n + 1 := ⟨fuel - 1, by omega⟩
    have hb' : b.remaining = 123 :: (Json.listed ((m :: ms).map Member.entry) ++ 125 :: rest) := by
      rw [hb]
      simp
    have hreads : ∀ i ∈ (m :: ms).map Member.entry,
        Reads (parseMember (parseValue fuel)) 125 (b.depth + 1) i := by
      intro i hi
      obtain ⟨m', hm', rfl⟩ := List.mem_map.mp hi
      obtain ⟨c, l, htext, hc, -, hclose, -⟩ := text_head (h m' hm')
      exact reads_member ⟨⟨c, l, htext, hc, hclose⟩, fun b' rest' hd' hb' hfollow =>
        ih m' hm' (by omega) (by omega) hb' hfollow.1 fun _ => hfollow.2⟩
    obtain ⟨k, hparse, hend⟩ := parseObject_listed (by omega) hreads hb'
    rw [parseValue_other fuel hb' (by decide) (by decide) (by decide), if_neg (by decide),
      if_neg (by decide), if_neg (by decide), if_pos rfl, hparse,
      ParseBuffer.advance_unique hb hend hne, ← List.map_cons, List.map_map]
    rfl

/-! ### The whole text -/

/-- `cJSON_Parse` returns the value of a text behind a byte order mark or none, whatever follows; only
behind a number there must be no byte that `parse_number` takes. -/
theorem cJsonParse_text {d : ℕ} {bom ws t rest : List UInt8} {v : Json Double}
    (hbom : bom = [] ∨ bom = [0xEF, 0xBB, 0xBF]) (hws : Blank ws) (h : Text Number d t v)
    (hd : d ≤ CJSON_NESTING_LIMIT)
    (hrest : (∃ x, v = .number x) → ∀ c ∈ rest.head?, isNumberByte c = false) :
    cJsonParse (bom ++ (ws ++ (t ++ rest))) = .ok v := by
  obtain ⟨c, l, htext, hc, -, -, hmark⟩ := text_head h
  have hcontent : bom ++ (ws ++ (t ++ rest)) ++ [0] = bom ++ (ws ++ (t ++ (rest ++ [0]))) := by
    simp only [List.append_assoc]
  generalize hb : ({ content := bom ++ (ws ++ (t ++ (rest ++ [0]))) } : ParseBuffer) = b
  have hstart : b.remaining = bom ++ (ws ++ (t ++ (rest ++ [0]))) := by
    rw [← hb]
    rfl
  have hskip : b.skipUtf8Bom = b.advance bom.length := by
    rcases hbom with rfl | rfl
    · -- no text starts like a byte order mark
      obtain ⟨c', l', hl', hne⟩ : ∃ c' l', b.remaining = c' :: l' ∧ c' ≠ 0xEF := by
        cases ws with
        | nil => exact ⟨c, _, by rw [hstart, htext]; rfl, hmark⟩
        | cons w ws =>
          refine ⟨w, _, hstart, ?_⟩
          rcases hws w (List.mem_cons_self ..) with rfl | rfl | rfl | rfl <;> decide
      rw [ParseBuffer.skipUtf8Bom, ParseBuffer.reads_other hl' hne, if_neg (by simp)]
      rfl
    · rw [ParseBuffer.skipUtf8Bom, ParseBuffer.reads_self hstart (by simp), if_pos]
      · rfl
      · refine ⟨?_, rfl⟩
        rw [← hb, htext]
        simp
        omega
  have hblank := ParseBuffer.remaining_advance _ hstart
  have hblank' := hblank
  rw [htext] at hblank'
  have hstand := ParseBuffer.remaining_advance _ hblank
  have hvalue := parseValue_text h (Nat.lt_succ_of_le hd)
    (b := (b.advance bom.length).advance ws.length) (by rw [← hb]; show 0 + d ≤ _; omega) hstand
    (by simp)
    (fun hv c hc => by
      cases rest with
      | nil =>
        obtain rfl : 0 = c := by simpa using hc
        decide
      | cons c' rest => exact hrest hv c hc)
  unfold cJsonParse parseWithLength
  rw [hcontent, hb]
  dsimp only
  rw [if_neg (by rw [htext]; simp), hskip, ParseBuffer.skipWhitespace_blank hblank' hws hc, hvalue]
  rfl

/-- A byte order mark, a blank, and `["\ud83d\ude00",5000]` with an exclamation mark behind it. -/
theorem cJsonParse_sample :
    cJsonParse ([0xEF, 0xBB, 0xBF] ++ ([32] ++ ([91, 34, 92, 117, 100, 56, 51, 100, 92, 117, 100, 101,
      48, 48, 34, 44, 53, 48, 48, 48, 93] ++ [33]))) =
        .ok (.array [.string [0xF0, 0x9F, 0x98, 0x80], .number (.finite 5000)]) := by
  have hblank : Blank [] := Json.blank_nil
  have hhigh : Hex4 [100, 56, 51, 100] (0xD800 + 0x3D) :=
    .mk (w := 13) (x := 8) (y := 3) (z := 13) rfl rfl rfl rfl
  have hlow : Hex4 [100, 101, 48, 48] (0xDC00 + 0x200) :=
    .mk (w := 13) (x := 14) (y := 0) (z := 0) rfl rfl rfl rfl
  have hchars : Chars [92, 117, 100, 56, 51, 100, 92, 117, 100, 101, 48, 48]
      [0xF0, 0x9F, 0x98, 0x80] :=
    .pair hhigh (by norm_num) hlow (by norm_num) .nil
  have h : Text Number 1 [91, 34, 92, 117, 100, 56, 51, 100, 92, 117, 100, 101, 48, 48, 34, 44, 53,
      48, 48, 48, 93] (.array [.string [0xF0, 0x9F, 0x98, 0x80], .number (.finite 5000)]) := by
    refine .array ⟨[], 34 :: ([92, 117, 100, 56, 51, 100, 92, 117, 100, 101, 48, 48] ++ [34]), [],
      .string [0xF0, 0x9F, 0x98, 0x80], hblank, hblank⟩
      [⟨[], [53, 48, 48, 48], [], .number (Double.finite 5000), hblank, hblank⟩] fun i hi => ?_
    simp only [List.mem_cons, List.not_mem_nil, or_false] at hi
    rcases hi with rfl | rfl
    · exact .string hchars
    · exact .number number_5000
  exact cJsonParse_text (Or.inr rfl) (by simp [Blank]) h (by unfold CJSON_NESTING_LIMIT; norm_num)
    (by simp)

end Ruru.CJson
