import Ruru.Json.Parse

/-!
# Ruru.Json.Bounds — cJSON stays inside its buffers

On a string with its NUL, `cJSON_Parse` reads inside the string, stores inside the memory it
allocates, and returns; what it returns is nested at most `CJSON_NESTING_LIMIT` deep.  The parser
stops at the NUL at the latest, since no byte it accepts is one.  The two loops of `parse_string` can
get out of step over a malformed `\u` sequence; the second is then at most one byte ahead of a
character of the first, and it never stores more than the first has counted.
-/

namespace Ruru.CJson

/-- The result is refused, or has the property `Q`. -/
def Safe {α : Type} (Q : α → Prop) : Except Fault α → Prop
  | .ok a => Q a
  | .error e => e = .refused

section Safe

variable {α β : Type} {Q : α → Prop} {R : β → Prop}

theorem Safe.refused : Safe Q (.error .refused) := rfl

theorem Safe.bind {x : Except Fault α} {f : α → Except Fault β} (hx : Safe Q x)
    (hf : ∀ a, Q a → Safe R (f a)) : Safe R (x >>= f) := by
  cases x with
  | ok a => exact hf a hx
  | error e => exact hx

theorem Safe.mono {Q' : α → Prop} {x : Except Fault α} (hx : Safe Q x) (h : ∀ a, Q a → Q' a) :
    Safe Q' x := by
  cases x with
  | ok a => exact h a hx
  | error e => exact hx

end Safe

theorem safe_byteAt {content : List UInt8} {i : ℕ} (h : i < content.length) :
    Safe (fun b => content[i]? = some b) (byteAt content i) := by
  unfold byteAt
  rw [List.getElem?_eq_getElem h]
  exact rfl

theorem safe_bytesAt {content : List UInt8} {i n : ℕ} (h : i + n ≤ content.length) :
    Safe (fun bs => bs = (content.drop i).take n) (bytesAt content i n) := by
  unfold bytesAt
  rw [if_pos h]
  exact rfl

theorem safe_store {size : ℕ} {output bytes : List UInt8}
    (h : output.length + bytes.length ≤ size) :
    Safe (fun out => out = output ++ bytes) (store size output bytes) := by
  unfold store
  rw [if_pos h]
  exact rfl

/-! ### The characters of a string -/

/-- The first loop of `parse_string` finds the closing quote `n` bytes ahead, behind `t` characters;
an escaped byte is one character with its backslash. -/
inductive Scanned : List UInt8 → ℕ → ℕ → Prop
  | done (rest : List UInt8) : Scanned (34 :: rest) 0 0
  | plain {b : UInt8} {rest : List UInt8} {n t : ℕ} (hq : b ≠ 34) (hb : b ≠ 92)
      (h : Scanned rest n t) : Scanned (b :: rest) (n + 1) (t + 1)
  | escape (c : UInt8) {rest : List UInt8} {n t : ℕ} (h : Scanned rest n t) :
      Scanned (92 :: c :: rest) (n + 2) (t + 1)

theorem scanned_of_stringEnd {l : List UInt8} {n k : ℕ} (h : stringEnd l = some (n, k)) :
    ∃ t, Scanned l n t ∧ n = t + k := by
  induction l using stringEnd.induct generalizing n k with
  | case1 => exact absurd h (by simp [stringEnd])
  | case2 rest =>
    rw [stringEnd.eq_def] at h
    obtain ⟨rfl, rfl⟩ : 0 = n ∧ 0 = k := by simpa using h
    exact ⟨0, .done rest, rfl⟩
  | case3 => exact absurd h (by simp [stringEnd])
  | case4 c rest hq ih =>
    rw [stringEnd.eq_def] at h
    obtain ⟨⟨n', k'⟩, hr, he⟩ := Option.map_eq_some_iff.mp h
    obtain ⟨rfl, rfl⟩ : n' + 2 = n ∧ k' + 1 = k := by simpa using he
    obtain ⟨t, ht, hn⟩ := ih hr
    exact ⟨t + 1, .escape c ht, by omega⟩
  | case5 b rest hq hb ih =>
    rw [stringEnd.eq_def] at h
    dsimp only at h
    rw [if_neg hq, if_neg hb] at h
    obtain ⟨⟨n', k'⟩, hr, he⟩ := Option.map_eq_some_iff.mp h
    obtain ⟨rfl, rfl⟩ : n' + 1 = n ∧ k' = k := by simpa using he
    obtain ⟨t, ht, hn⟩ := ih hr
    exact ⟨t + 1, .plain hq hb ht, by omega⟩

namespace Scanned

variable {l : List UInt8} {n t : ℕ}

/-- The closing quote is there. -/
theorem quote (h : Scanned l n t) : l[n]? = some 34 := by
  induction h with
  | done rest => rfl
  | plain _ _ _ ih => simpa using ih
  | escape c _ ih => simpa using ih

theorem pos (h : Scanned l n t) (hn : 0 < n) : 0 < t := by
  cases h with
  | done => exact absurd hn (lt_irrefl _)
  | plain | escape => exact Nat.succ_pos _

/-- A byte that is no backslash is a character of its own, unless it is the closing quote. -/
theorem plain_inv {b : UInt8} {rest : List UInt8} (h : Scanned (b :: rest) n t) (hb : b ≠ 92)
    (hn : b = 34 → 0 < n) : ∃ n' t', n = n' + 1 ∧ t = t' + 1 ∧ Scanned rest n' t' := by
  cases h with
  | done => exact absurd (hn rfl) (lt_irrefl _)
  | plain _ _ h => exact ⟨_, _, rfl, rfl, h⟩
  | escape => exact absurd rfl hb

theorem escape_inv {c : UInt8} {rest : List UInt8} (h : Scanned (92 :: c :: rest) n t) :
    ∃ n' t', n = n' + 2 ∧ t = t' + 1 ∧ Scanned rest n' t' := by
  cases h with
  | plain _ hb => exact absurd rfl hb
  | escape _ h => exact ⟨_, _, rfl, rfl, h⟩

/-- Some character ends at the position `j` or a byte before it. -/
theorem boundary (h : Scanned l n t) {j : ℕ} (hj : j ≤ n) :
    ∃ i t', (i = j ∨ i + 1 = j) ∧ Scanned (l.drop i) (n - i) t' ∧ t' ≤ t ∧ (0 < i → t' < t) := by
  induction h generalizing j with
  | done rest => exact ⟨0, 0, by omega, .done rest, le_refl _, fun h0 => absurd h0 (lt_irrefl _)⟩
  | @plain b rest n t hq hb h ih =>
    cases j with
    | zero => exact ⟨0, t + 1, Or.inl rfl, .plain hq hb h, le_refl _, fun h0 => absurd h0 (lt_irrefl _)⟩
    | succ j =>
      obtain ⟨i, t', hi, hs, hle, -⟩ := @ih j (by omega)
      refine ⟨i + 1, t', by omega, ?_, by omega, fun _ => by omega⟩
      rw [List.drop_succ_cons, Nat.add_sub_add_right]
      exact hs
  | @escape c rest n t h ih =>
    match j, hj with
    | 0, _ => exact ⟨0, t + 1, Or.inl rfl, .escape c h, le_refl _, fun h0 => absurd h0 (lt_irrefl _)⟩
    | 1, _ => exact ⟨0, t + 1, Or.inr rfl, .escape c h, le_refl _, fun h0 => absurd h0 (lt_irrefl _)⟩
    | j + 2, hj =>
      obtain ⟨i, t', hi, hs, hle, -⟩ := @ih j (by omega)
      refine ⟨i + 2, t', by omega, ?_, by omega, fun _ => by omega⟩
      rw [List.drop_succ_cons, List.drop_succ_cons, Nat.add_sub_add_right]
      exact hs

/-- Bytes that are neither quotes nor backslashes are characters. -/
theorem skip_plain {bs rest : List UInt8} (h : Scanned (bs ++ rest) n t)
    (hbs : ∀ b ∈ bs, b ≠ 34 ∧ b ≠ 92) :
    ∃ t', Scanned rest (n - bs.length) t' ∧ t = t' + bs.length ∧ bs.length ≤ n := by
  induction bs generalizing n t with
  | nil => exact ⟨t, h, rfl, Nat.zero_le _⟩
  | cons b bs ih =>
    obtain ⟨hq, hb⟩ := hbs b (by simp)
    obtain ⟨n', t', rfl, rfl, h'⟩ := h.plain_inv hb fun he => absurd he hq
    obtain ⟨t'', hs, ht, hn⟩ := ih h' fun x hx => hbs x (by simp [hx])
    refine ⟨t'', ?_, by rw [List.length_cons]; omega, by rw [List.length_cons]; omega⟩
    rw [List.length_cons, Nat.add_sub_add_right]
    exact hs

end Scanned

/-- At the offset `p` the second loop has stored `output`: the first loop had a character end at `p` or
a byte before it, and the characters behind that are enough for `total`. -/
def Room (content : List UInt8) (inputEnd total p : ℕ) (output : List UInt8) : Prop :=
  ∃ q t, (q = p ∨ q + 1 = p) ∧ q ≤ inputEnd ∧ Scanned (content.drop q) (inputEnd - q) t ∧
    output.length + t ≤ total

namespace Room

variable {content output : List UInt8} {inputEnd total p : ℕ}

/-- A byte is stored and at least two are passed, or a plain one. -/
theorem one (h : Room content inputEnd total p output) (hp : p < inputEnd) {w : ℕ}
    (hw : 2 ≤ w ∧ p + w ≤ inputEnd + 1 ∨ w = 1 ∧ ∃ c, content[p]? = some c ∧ c ≠ 92) (c : UInt8) :
    Room content inputEnd total (p + w) (output ++ [c]) := by
  obtain ⟨q, t, hq, hle, hs, hroom⟩ := h
  rw [Room, List.length_append, List.length_singleton]
  rcases hw with ⟨hw, hend⟩ | ⟨rfl, d, hd, hplain⟩
  · by_cases hover : p + w ≤ inputEnd
    · obtain ⟨i, t', hi, hs', -, hlt⟩ := hs.boundary (j := p + w - q) (by omega)
      rw [List.drop_drop] at hs'
      exact ⟨q + i, t', by omega, by omega, by rwa [Nat.sub_add_eq], by
        have := hlt (by omega)
        omega⟩
    · -- the byte behind the last backslash is the closing quote
      obtain ⟨i, t', hi, hs', hle', hlt⟩ := hs.boundary (j := inputEnd - q) (le_refl _)
      refine ⟨inputEnd, 0, by omega, le_refl _, ?_, ?_⟩
      · have hquote := hs.quote
        rw [List.getElem?_drop, Nat.add_sub_cancel' hle] at hquote
        obtain ⟨hlt', hget⟩ := List.getElem?_eq_some_iff.mp hquote
        rw [Nat.sub_self, List.drop_eq_getElem_cons hlt', hget]
        exact .done _
      · have hpos := hs.pos (by omega)
        omega
  · rcases hq with rfl | hq
    · -- a plain byte at the end of a character is the next character
      obtain ⟨hlt, hget⟩ := List.getElem?_eq_some_iff.mp hd
      rw [List.drop_eq_getElem_cons hlt, hget] at hs
      obtain ⟨n', t', hn, rfl, hs'⟩ := hs.plain_inv hplain fun _ => by omega
      obtain rfl : inputEnd - (q + 1) = n' := by omega
      exact ⟨q + 1, t', Or.inl rfl, by omega, hs', by omega⟩
    · obtain ⟨i, t', hi, hs', -, hlt⟩ := hs.boundary (j := p + 1 - q) (by omega)
      rw [List.drop_drop] at hs'
      exact ⟨q + i, t', by omega, by omega, by rwa [Nat.sub_add_eq], by
        have := hlt (by omega)
        omega⟩

/-- A `\u` sequence with four bytes that are no backslashes is five characters. -/
theorem literal (h : Room content inputEnd total p output) (hin : p < inputEnd)
    {bs rest : List UInt8}
    (hp : content.drop p = 92 :: 117 :: (bs ++ rest)) (hbs : ∀ b ∈ bs, b ≠ 34 ∧ b ≠ 92)
    (hlen : bs.length = 4) :
    ∃ t, p + 6 ≤ inputEnd ∧ Scanned (content.drop (p + 6)) (inputEnd - (p + 6)) t ∧
      output.length + t + 5 ≤ total := by
  have hrest : content.drop (p + 6) = rest := by
    have hsix : (92 :: 117 :: bs).length = 6 := by simp [hlen]
    calc content.drop (p + 6) = (content.drop p).drop 6 := (List.drop_drop ..).symm
      _ = ((92 :: 117 :: bs) ++ rest).drop (92 :: 117 :: bs).length := by rw [hp, hsix]; rfl
      _ = rest := List.drop_left ..
  have haligned : ∀ {t : ℕ}, p ≤ inputEnd → Scanned (content.drop p) (inputEnd - p) t →
      ∃ t', p + 6 ≤ inputEnd ∧ Scanned rest (inputEnd - (p + 6)) t' ∧ t = t' + 5 := by
    intro t hle hs
    rw [hp] at hs
    obtain ⟨n, t1, hn, rfl, hs1⟩ := hs.escape_inv
    obtain ⟨t2, hs2, rfl, hle'⟩ := hs1.skip_plain hbs
    have hn' : n - bs.length = inputEnd - (p + 6) := by omega
    exact ⟨t2, by omega, hn' ▸ hs2, by omega⟩
  obtain ⟨q, t, hq, hle, hs, hroom⟩ := h
  rw [hrest]
  rcases hq with rfl | hq
  · obtain ⟨t', hle', hs', rfl⟩ := haligned hle hs
    exact ⟨t', hle', hs', by omega⟩
  · have hlt : q < content.length := by
      by_contra hge
      rw [List.drop_eq_nil_of_le (by omega)] at hp
      exact absurd hp (by simp)
    have hdrop : content.drop q = content[q] :: content.drop p := by
      rw [← hq]
      exact List.drop_eq_getElem_cons hlt
    rw [hdrop] at hs
    by_cases hb : content[q] = 92
    · -- the backslash at `p` is the escaped byte of the character before
      rw [hb, hp] at hs
      obtain ⟨n, t1, hn, rfl, hs1⟩ := hs.escape_inv
      obtain ⟨m, t2, rfl, rfl, hs2⟩ := hs1.plain_inv (by decide) fun he => absurd he (by decide)
      obtain ⟨t3, hs3, rfl, hle'⟩ := hs2.skip_plain hbs
      have hm : m - bs.length = inputEnd - (p + 6) := by omega
      exact ⟨t3, by omega, hm ▸ hs3, by omega⟩
    · obtain ⟨n, t1, hn, rfl, hs1⟩ := hs.plain_inv hb fun _ => by omega
      obtain rfl : inputEnd - p = n := by omega
      obtain ⟨t', hle', hs', rfl⟩ := haligned hin.le hs1
      exact ⟨t', hle', hs', by omega⟩

end Room

/-! ### `utf16_literal_to_utf8` -/

/-- What is no hexadecimal digit makes the code 0. -/
theorem hexDigits_of_parseHex4 {bs : List UInt8} (h : parseHex4 bs ≠ 0) :
    ∀ b ∈ bs, b ≠ 34 ∧ b ≠ 92 := by
  have key : ∀ (bs : List UInt8) (acc : ℕ),
      (bs.foldlM (fun h b => (hexDigit b).map fun d => h <<< 4 + d) acc).isSome = true →
      ∀ b ∈ bs, (hexDigit b).isSome = true := by
    intro bs
    induction bs with
    | nil => exact fun _ _ b hb => absurd hb (by simp)
    | cons c cs ih =>
      intro acc hsome b hb
      rw [List.foldlM_cons] at hsome
      cases hc : hexDigit c with
      | none =>
        rw [hc] at hsome
        exact absurd hsome (by simp)
      | some d =>
        rw [hc] at hsome
        rcases List.mem_cons.mp hb with rfl | hb
        · rw [hc]
          rfl
        · exact ih _ hsome b hb
  have hsome : (bs.foldlM (fun h b => (hexDigit b).map fun d => h <<< 4 + d) 0).isSome = true := by
    unfold parseHex4 at h
    cases hf : bs.foldlM (fun h b => (hexDigit b).map fun d => h <<< 4 + d) 0 with
    | none =>
      rw [hf] at h
      exact absurd rfl h
    | some n => rfl
  intro b hb
  have hdigit := key bs 0 hsome b hb
  constructor
  · rintro rfl
    exact absurd hdigit (by decide)
  · rintro rfl
    exact absurd hdigit (by decide)

@[simp] theorem length_continuationBytes (n codepoint : ℕ) :
    (continuationBytes n codepoint).2.length = n := by
  induction n generalizing codepoint with
  | zero => rfl
  | succ n ih => simp [continuationBytes, ih]

theorem length_utf8Bytes (n mark codepoint : ℕ) : (utf8Bytes n mark codepoint).length = n - 1 + 1 := by
  simp [utf8Bytes]

theorem safe_encodeUtf8 (codepoint : ℕ) :
    Safe (fun bs => bs.length ≤ 4 ∧ (codepoint < 0x10000 → bs.length ≤ 3) ∧
      (codepoint = 0 → bs.length = 1)) (encodeUtf8 codepoint) := by
  unfold encodeUtf8
  split_ifs with h1 h2 h3 h4
  · simp [Safe, length_utf8Bytes]
  · simp only [Safe, length_utf8Bytes]
    omega
  · simp only [Safe, length_utf8Bytes]
    omega
  · simp only [Safe, length_utf8Bytes]
    omega
  · exact .refused

theorem parseHex4_lt {bs : List UInt8} (h : bs.length = 4) : parseHex4 bs < 0x10000 := by
  have hdigit : ∀ b d, hexDigit b = some d → d < 16 := by
    intro b d hd
    unfold hexDigit at hd
    split_ifs at hd with h1 h2 h3
    · obtain rfl := Option.some.inj hd
      have := UInt8.le_iff_toNat_le.mp h1.2
      simp at this
      omega
    · obtain rfl := Option.some.inj hd
      have := UInt8.le_iff_toNat_le.mp h2.2
      simp at this
      omega
    · obtain rfl := Option.some.inj hd
      have := UInt8.le_iff_toNat_le.mp h3.2
      simp at this
      omega
  have key : ∀ (bs : List UInt8) (acc n : ℕ),
      bs.foldlM (fun h b => (hexDigit b).map fun d => h <<< 4 + d) acc = some n →
      n < (acc + 1) * 16 ^ bs.length := by
    intro bs
    induction bs with
    | nil =>
      intro acc n hn
      obtain rfl := Option.some.inj hn
      simp
    | cons b bs ih =>
      intro acc n hn
      rw [List.foldlM_cons] at hn
      obtain ⟨acc', hacc, hn⟩ := Option.bind_eq_some_iff.mp hn
      obtain ⟨d, hd, rfl⟩ := Option.map_eq_some_iff.mp hacc
      have hlt := hdigit b d hd
      calc n < (acc <<< 4 + d + 1) * 16 ^ bs.length := ih _ _ hn
        _ ≤ ((acc + 1) * 16) * 16 ^ bs.length := by
          refine Nat.mul_le_mul_right _ ?_
          rw [Nat.shiftLeft_eq]
          omega
        _ = (acc + 1) * 16 ^ (b :: bs).length := by
          rw [List.length_cons, pow_succ', Nat.mul_assoc]
  unfold parseHex4
  cases hf : bs.foldlM (fun h b => (hexDigit b).map fun d => h <<< 4 + d) 0 with
  | none => decide
  | some n =>
    have := key bs 0 n hf
    rw [h] at this
    simpa using this

/-- A literal that is accepted: its length, and the room for what is stored. -/
theorem safe_utf16LiteralToUtf8 {content output : List UInt8} {inputEnd total p : ℕ}
    (hin : inputEnd ≤ content.length) (hp : p < inputEnd)
    (hesc : content[p]? = some 92) (hu : content[p + 1]? = some 117)
    (h : Room content inputEnd total p output) :
    Safe (fun r => 0 < r.1 ∧ Room content inputEnd total (p + r.1) (output ++ r.2))
      (utf16LiteralToUtf8 content p inputEnd) := by
  have hdrop : ∀ i b, content[i]? = some b → content.drop i = b :: content.drop (i + 1) := by
    intro i b hi
    obtain ⟨hlt, hget⟩ := List.getElem?_eq_some_iff.mp hi
    rw [List.drop_eq_getElem_cons hlt, hget]
  have hsplit : content.drop p =
      92 :: 117 :: ((content.drop (p + 2)).take 4 ++ content.drop (p + 6)) := by
    rw [hdrop p 92 hesc, hdrop (p + 1) 117 hu]
    congr 2
    rw [← List.drop_drop (l := content) (i := 4) (j := p + 2), List.take_append_drop]
  unfold utf16LiteralToUtf8
  by_cases h6 : inputEnd < p + 6
  · rw [if_pos h6]
    exact .refused
  rw [if_neg h6]
  have hfour : ((content.drop (p + 2)).take 4).length = 4 := by simp; omega
  refine (safe_bytesAt (by omega)).bind ?_
  rintro _ rfl
  generalize hfirst : parseHex4 ((content.drop (p + 2)).take 4) = firstCode
  dsimp only
  split_ifs with hlow hhigh h12
  · exact .refused
  · exact .refused
  · have hroom := h.literal hp hsplit (hexDigits_of_parseHex4 (by rw [hfirst]; omega)) hfour
    obtain ⟨t, hle, hs, hroom⟩ := hroom
    refine (safe_bytesAt (by omega)).bind ?_
    rintro _ rfl
    split_ifs with hescape
    · exact .refused
    refine (safe_bytesAt (by omega)).bind ?_
    rintro _ rfl
    generalize hsecond : parseHex4 ((content.drop (p + 8)).take 4) = secondCode
    split_ifs with hrange
    · exact .refused
    have height : ((content.drop (p + 8)).take 4).length = 4 := by simp; omega
    have hsplit' : content.drop (p + 6) =
        92 :: 117 :: ((content.drop (p + 8)).take 4 ++ content.drop (p + 12)) := by
      rw [← List.drop_drop (l := content) (i := 4) (j := p + 8), List.take_append_drop,
        ← List.drop_drop (l := content) (i := 2) (j := p + 6)]
      conv_lhs => rw [← List.take_append_drop 2 (content.drop (p + 6)), not_not.mp hescape]
      rfl
    -- the second literal, as if nothing had been stored for the first
    have hempty : Room content inputEnd t (p + 6) [] := ⟨p + 6, t, Or.inl rfl, hle, hs, by simp⟩
    obtain ⟨t', hle', hs', hroom'⟩ := hempty.literal (by omega) hsplit'
      (hexDigits_of_parseHex4 (by rw [hsecond]; omega)) height
    refine (safe_encodeUtf8 _).bind ?_
    rintro bs ⟨hbs, -, -⟩
    refine ⟨Nat.succ_pos _, p + 12, t', Or.inl rfl, hle', hs', ?_⟩
    rw [List.length_append]
    simp only [List.length_nil] at hroom'
    show output.length + bs.length + t' ≤ total
    omega
  · refine (safe_encodeUtf8 _).bind ?_
    rintro bs ⟨-, hbs, hzero⟩
    refine ⟨Nat.succ_pos _, ?_⟩
    by_cases h0 : firstCode = 0
    · obtain ⟨c, rfl⟩ := List.length_eq_one_iff.mp (hzero h0)
      exact h.one hp (Or.inl ⟨by norm_num, by omega⟩) c
    · obtain ⟨t, hle, hs, hroom⟩ := h.literal hp hsplit
        (hexDigits_of_parseHex4 (by rw [hfirst]; exact h0)) hfour
      have hlt := parseHex4_lt hfour
      rw [hfirst] at hlt
      have := hbs hlt
      refine ⟨p + 6, t, Or.inl rfl, hle, hs, ?_⟩
      show (output ++ bs).length + t ≤ total
      rw [List.length_append]
      omega

/-! ### `parse_string` -/

theorem Room.length_le {content output : List UInt8} {inputEnd total p : ℕ}
    (h : Room content inputEnd total p output) : output.length ≤ total := by
  obtain ⟨q, t, -, -, -, hroom⟩ := h
  omega

/-- Storing something for which there is room. -/
theorem safe_store_of_room {content output bytes : List UInt8} {inputEnd total size p : ℕ}
    (hsize : total < size) (h : Room content inputEnd total p (output ++ bytes)) :
    Safe (fun out => out = output ++ bytes) (store size output bytes) := by
  have := h.length_le
  rw [List.length_append] at this
  exact safe_store (by omega)

section Unescape

variable {content : List UInt8} {inputEnd total size : ℕ} (hin : inputEnd < content.length)
  (hsize : total < size)

include hin hsize

theorem safe_unescapeStep {p : ℕ} {output : List UInt8} (hp : p < inputEnd)
    (h : Room content inputEnd total p output) :
    Safe (fun r => p < r.1 ∧ Room content inputEnd total r.1 r.2)
      (unescapeStep content inputEnd size p output) := by
  unfold unescapeStep
  refine (safe_byteAt (by omega)).bind fun c hc => ?_
  split_ifs with hplain
  · have hroom := h.one hp (Or.inr ⟨rfl, c, hc, hplain⟩) c
    refine (safe_store_of_room hsize hroom).bind ?_
    rintro _ rfl
    exact ⟨Nat.lt_succ_self p, hroom⟩
  · obtain rfl : c = 92 := not_not.mp hplain
    refine (safe_byteAt (by omega)).bind fun e he => ?_
    split
    · rename_i d hd
      have hroom := h.one hp (Or.inl ⟨le_refl 2, by omega⟩) d
      refine (safe_store_of_room hsize hroom).bind ?_
      rintro _ rfl
      exact ⟨by dsimp only; omega, hroom⟩
    · split_ifs with hu
      · subst hu
        refine (safe_utf16LiteralToUtf8 hin.le hp hc he h).bind ?_
        rintro r ⟨hpos, hroom⟩
        refine (safe_store_of_room hsize hroom).bind ?_
        rintro _ rfl
        exact ⟨by dsimp only; omega, hroom⟩
      · exact .refused

/-- The second loop stays in step with the first. -/
theorem safe_unescape {fuel p : ℕ} {output : List UInt8} (hpos : 0 < fuel)
    (hfuel : inputEnd < p + fuel) (h : Room content inputEnd total p output) :
    Safe (fun _ => True) (unescape content inputEnd size fuel p output) := by
  induction fuel generalizing p output with
  | zero => exact absurd hpos (lt_irrefl 0)
  | succ fuel ih =>
    unfold unescape
    split_ifs with hp
    · refine (safe_unescapeStep hin hsize hp h).bind ?_
      rintro r ⟨hlt, hroom⟩
      exact ih (by omega) (by omega) hroom
    · have := h.length_le
      refine (safe_store (by simp; omega)).bind ?_
      exact fun _ _ => trivial

end Unescape

/-! ### The parser -/

namespace ParseBuffer

/-- The buffer ends in a NUL, and stands at one of its bytes. -/
structure Ready (b : ParseBuffer) : Prop where
  terminated : b.content.getLast? = some 0
  inside : b.offset < b.content.length

/-- What a function of the parser does to the buffer when it accepts something. -/
structure Proceeds (b b' : ParseBuffer) : Prop where
  content : b'.content = b.content
  depth : b'.depth = b.depth
  forward : b.offset < b'.offset
  ready : b'.Ready

variable {b b' b'' : ParseBuffer}

theorem Proceeds.trans (h : b.Proceeds b') (h' : b'.Proceeds b'') : b.Proceeds b'' where
  content := h'.content.trans h.content
  depth := h'.depth.trans h.depth
  forward := h.forward.trans h'.forward
  ready := h'.ready

/-- Only the last byte is a NUL that may not be passed. -/
theorem Ready.advance (h : b.Ready) {n : ℕ} (hn : 0 < n) {c : UInt8}
    (hc : b.content[b.offset + n - 1]? = some c) (h0 : c ≠ 0) : b.Proceeds (b.advance n) := by
  obtain ⟨hlt, hget⟩ := List.getElem?_eq_some_iff.mp hc
  refine ⟨rfl, rfl, ?_, h.terminated, ?_⟩
  · show b.offset < b.offset + n
    omega
  · show b.offset + n < b.content.length
    have hlast := h.terminated
    rw [List.getLast?_eq_getElem?] at hlast
    by_contra hge
    have hsame : b.offset + n - 1 = b.content.length - 1 := by omega
    rw [hsame, hlast] at hc
    exact h0 (Option.some.inj hc).symm

/-- Skipping white space never leaves the buffer. -/
theorem Ready.skipWhitespace (h : b.Ready) :
    b.skipWhitespace.content = b.content ∧ b.skipWhitespace.depth = b.depth ∧
      b.offset ≤ b.skipWhitespace.offset ∧ b.skipWhitespace.Ready := by
  have hblanks : ((b.content.drop b.offset).takeWhile (· ≤ 32)).length ≤
      b.content.length - b.offset := by
    rw [← List.length_drop]
    exact (List.takeWhile_prefix _).length_le
  have hin := h.inside
  unfold ParseBuffer.skipWhitespace
  rw [if_pos (by simpa [canAccess] using hin)]
  dsimp only
  split_ifs with hend
  · refine ⟨rfl, rfl, ?_, h.terminated, ?_⟩ <;>
    · simp only [retreat, ParseBuffer.advance] at hend ⊢
      omega
  · refine ⟨rfl, rfl, ?_, h.terminated, ?_⟩ <;>
    · simp only [ParseBuffer.advance] at hend ⊢
      omega

theorem Proceeds.skipWhitespace (h : b.Proceeds b') : b.Proceeds b'.skipWhitespace := by
  obtain ⟨hc, hd, hle, hr⟩ := h.ready.skipWhitespace
  exact ⟨hc.trans h.content, hd.trans h.depth, Nat.lt_of_lt_of_le h.forward hle, hr⟩

theorem Ready.of_startsWith (h : b.Ready) {c : UInt8} (hc : b.startsWith c = true) (h0 : c ≠ 0) :
    b.Proceeds (b.advance 1) :=
  h.advance Nat.one_pos (by simpa [startsWith] using hc) h0

theorem Ready.of_reads (h : b.Ready) {text : List UInt8} (ht : b.reads text = true)
    (hne : text ≠ []) (h0 : ∀ c ∈ text, c ≠ 0) : b.Proceeds (b.advance text.length) := by
  simp only [reads, Bool.and_eq_true, decide_eq_true_eq, beq_iff_eq] at ht
  obtain ⟨hle, htext⟩ := ht
  have hpos := List.length_pos_iff.mpr hne
  refine h.advance hpos (c := text.getLast hne) ?_ (h0 _ (List.getLast_mem hne))
  have hget : text[text.length - 1]? = some (text.getLast hne) := by
    rw [← List.getLast?_eq_getElem?, List.getLast?_eq_getLast_of_ne_nil hne]
  have hbuffer : ((b.content.drop b.offset).take text.length)[text.length - 1]? =
      b.content[b.offset + (text.length - 1)]? := by
    rw [List.getElem?_take_of_lt (by omega), List.getElem?_drop]
  rw [← hget, Nat.add_sub_assoc hpos, ← hbuffer, htext]

end ParseBuffer

open ParseBuffer

theorem safe_parseNumber {b : ParseBuffer} (h : b.Ready) :
    Safe (fun r => b.Proceeds r.2) (parseNumber b) := by
  unfold parseNumber
  dsimp only
  generalize htext : ((b.content.drop b.offset).take 63).takeWhile isNumberByte = text
  have hprefix : text <+: b.content.drop b.offset := by
    rw [← htext]
    exact (List.takeWhile_prefix _).trans (List.take_prefix _ _)
  split_ifs with h0
  · exact .refused
  · have hlt : (strtod text).2 - 1 < text.length := by
      have := strtod_le text
      omega
    have hbyte : isNumberByte text[(strtod text).2 - 1] = true := by
      refine List.mem_takeWhile_imp (l := (b.content.drop b.offset).take 63) ?_
      rw [htext]
      exact List.getElem_mem hlt
    obtain ⟨rest, hrest⟩ := hprefix
    have hget : (b.content.drop b.offset)[(strtod text).2 - 1]? = some text[(strtod text).2 - 1] := by
      rw [← hrest, List.getElem?_append_left hlt, List.getElem?_eq_getElem hlt]
    rw [List.getElem?_drop] at hget
    refine h.advance (Nat.pos_of_ne_zero h0) (c := text[(strtod text).2 - 1]) ?_ ?_
    · rw [← hget]
      congr 1
      omega
    · intro hzero
      rw [hzero] at hbyte
      exact absurd hbyte (by decide)

theorem safe_parseString {b : ParseBuffer} (h : b.Ready) :
    Safe (fun r => b.Proceeds r.2) (parseString b) := by
  unfold parseString
  refine (safe_byteAt h.inside).bind fun c hc => ?_
  split_ifs with hquote
  · exact .refused
  · split
    · exact .refused
    · rename_i n skippedBytes hend
      obtain ⟨t, hs, hn⟩ := scanned_of_stringEnd hend
      have hlast := hs.quote
      rw [List.getElem?_drop] at hlast
      have hinside := (List.getElem?_eq_some_iff.mp hlast).1
      have hroom : Room b.content (b.offset + 1 + n) t (b.offset + 1) [] := by
        refine ⟨b.offset + 1, t, Or.inl rfl, by omega, ?_, by simp⟩
        rwa [Nat.add_sub_cancel_left]
      refine (safe_unescape hinside (by omega) (Nat.succ_pos n) (by omega) hroom).bind ?_
      rintro output -
      have hproceeds := h.advance (n := n + 2) (Nat.succ_pos _) (c := 34)
        (by rw [← hlast]; congr 1; omega) (by decide)
      exact ⟨rfl, rfl, by simp only; omega, hproceeds.ready.terminated, by
        have := hproceeds.ready.inside
        simp only [ParseBuffer.advance] at this ⊢
        omega⟩

section Items

variable {α : Type} {element : ParseBuffer → Except Fault (α × ParseBuffer)} {P : α → Prop}
  {b : ParseBuffer}
  (helement : ∀ b', b'.content = b.content → b'.depth = b.depth → b'.Ready →
    Safe (fun r => P r.1 ∧ b'.Proceeds r.2) (element b'))

include helement

/-- Every round of the loop takes at least a byte. -/
theorem safe_parseElements {fuel : ℕ} {items : List α} (hfuel : b.content.length ≤ b.offset + fuel)
    (hitems : ∀ x ∈ items, P x) (hready : (b.advance 1).Ready) :
    Safe (fun r => (∀ x ∈ r.1, P x) ∧ b.Proceeds r.2) (parseElements element fuel b items) := by
  induction fuel generalizing b items with
  | zero =>
    have hin : b.offset + 1 < b.content.length := hready.inside
    omega
  | succ fuel ih =>
    unfold parseElements
    obtain ⟨hc, hd, hle, hr⟩ := hready.skipWhitespace
    refine (helement _ hc hd hr).bind ?_
    rintro ⟨x, b1⟩ ⟨hx, hp⟩
    have hb : b.Proceeds b1.skipWhitespace := by
      have hskip := hp.skipWhitespace
      exact ⟨hskip.content.trans hc, hskip.depth.trans hd,
        (Nat.lt_succ_self b.offset).trans (hle.trans_lt hskip.forward), hskip.ready⟩
    have hitems' : ∀ y ∈ items ++ [x], P y := by
      intro y hy
      rcases List.mem_append.mp hy with hy | hy
      · exact hitems y hy
      · rw [List.mem_singleton.mp hy]
        exact hx
    dsimp only
    split_ifs with hcomma
    · have hnext := ih (b := b1.skipWhitespace)
        (fun b' h1 h2 => helement b' (h1.trans hb.content) (h2.trans hb.depth))
        (by rw [hb.content]; have := hb.forward; omega) hitems'
        (hb.ready.of_startsWith hcomma (by decide)).ready
      exact hnext.mono fun r hr => ⟨hr.1, hb.trans hr.2⟩
    · exact ⟨hitems', hb⟩

theorem safe_parseItems {closing : UInt8} (hclosing : closing ≠ 0) (hready : (b.advance 1).Ready)
    (hdepth : 0 < b.depth) :
    Safe (fun r => (∀ x ∈ r.1, P x) ∧ r.2.content = b.content ∧ r.2.depth + 1 = b.depth ∧
      b.offset < r.2.offset ∧ r.2.Ready) (parseItems element closing b) := by
  unfold parseItems
  obtain ⟨hc, hd, hle, hr⟩ := hready.skipWhitespace
  generalize (b.advance 1).skipWhitespace = b1 at hc hd hle hr ⊢
  have hle' : b.offset + 1 ≤ b1.offset := hle
  have hd' : b1.depth = b.depth := hd
  dsimp only
  split_ifs with hclose haccess
  · have hp := hr.of_startsWith hclose hclosing
    refine ⟨by simp, hc, ?_, ?_, hp.ready.terminated, hp.ready.inside⟩
    · show b1.depth - 1 + 1 = b.depth
      omega
    · show b.offset < b1.offset + 1
      omega
  · exact .refused
  · have hback : b1.retreat.advance 1 = b1 := by
      have : b1.offset - 1 + 1 = b1.offset := by omega
      simp [retreat, ParseBuffer.advance, this]
    have hloop : Safe (fun r => (∀ x ∈ r.1, P x) ∧ b1.retreat.Proceeds r.2)
        (parseElements element b1.content.length b1.retreat []) :=
      safe_parseElements (b := b1.retreat)
        (fun b' h1 h2 => helement b' (h1.trans hc) (h2.trans hd)) (Nat.le_add_left _ _)
        (by simp) (by rw [hback]; exact hr)
    refine hloop.bind ?_
    rintro ⟨xs, b2⟩ ⟨hxs, hp⟩
    dsimp only
    split_ifs with hclose'
    · have hp' := hp.ready.of_startsWith hclose' hclosing
      have hforward : b1.offset - 1 < b2.offset := hp.forward
      have hdepth' : b2.depth = b1.depth := hp.depth
      refine ⟨hxs, hp.content.trans hc, ?_, ?_, hp'.ready.terminated, hp'.ready.inside⟩
      · show b2.depth - 1 + 1 = b.depth
        omega
      · show b.offset < b2.offset + 1
        omega
    · exact .refused

end Items

section Values

variable {parse : ParseBuffer → Except Fault (Json Double × ParseBuffer)} {b : ParseBuffer}
  (hparse : ∀ b' : ParseBuffer, b'.content = b.content → b'.depth = b.depth + 1 → b'.Ready →
    Safe (fun r => r.1.Within (CJSON_NESTING_LIMIT - b'.depth) ∧ b'.Proceeds r.2) (parse b'))

include hparse

theorem safe_parseArray (hready : b.Ready) (hopen : b.startsWith 91 = true) :
    Safe (fun r => r.1.Within (CJSON_NESTING_LIMIT - b.depth) ∧ b.Proceeds r.2)
      (parseArray parse b) := by
  unfold parseArray
  split_ifs with hlimit
  · exact .refused
  refine (safe_byteAt hready.inside).bind fun c hc => ?_
  split_ifs
  · exact .refused
  have hin := (hready.of_startsWith hopen (by decide)).ready
  refine (safe_parseItems (P := fun x => Json.Within (CJSON_NESTING_LIMIT - (b.depth + 1)) x)
    (b := { b with depth := b.depth + 1 }) ?_ (by decide) ⟨hin.terminated, hin.inside⟩
    (Nat.succ_pos _)).bind ?_
  · intro b' h1 h2 hr
    have hd : b'.depth = b.depth + 1 := h2
    refine (hparse b' h1 hd hr).mono fun r hr => ⟨?_, hr.2⟩
    rw [← hd]
    exact hr.1
  · rintro ⟨xs, b1⟩ ⟨hxs, hc1, hd1, hf1, hr1⟩
    have hsucc : CJSON_NESTING_LIMIT - b.depth = CJSON_NESTING_LIMIT - (b.depth + 1) + 1 := by
      omega
    exact ⟨hsucc ▸ .array hxs, hc1, by simpa using hd1, hf1, hr1⟩

theorem safe_parseMember {b' : ParseBuffer} (hc : b'.content = b.content)
    (hd : b'.depth = b.depth + 1) (hready : b'.Ready) :
    Safe (fun r => r.1.2.Within (CJSON_NESTING_LIMIT - (b.depth + 1)) ∧ b'.Proceeds r.2)
      (parseMember parse b') := by
  unfold parseMember
  refine (safe_parseString hready).bind ?_
  rintro ⟨name, b1⟩ hp1
  have hp2 := Proceeds.skipWhitespace hp1
  generalize b1.skipWhitespace = b2 at hp2 ⊢
  dsimp only
  cases hcolon : b2.startsWith 58 with
  | false => exact .refused
  | true =>
    have hp3 := hp2.trans (hp2.ready.of_startsWith hcolon (by decide))
    have hp4 := hp3.skipWhitespace
    refine (hparse _ (hp4.content.trans hc) (hp4.depth.trans hd) hp4.ready).bind ?_
    rintro ⟨value, b3⟩ ⟨hv, hp5⟩
    refine ⟨?_, hp4.trans hp5⟩
    rw [hp4.depth, hd] at hv
    exact hv

theorem safe_parseObject (hready : b.Ready) (hopen : b.startsWith 123 = true) :
    Safe (fun r => r.1.Within (CJSON_NESTING_LIMIT - b.depth) ∧ b.Proceeds r.2)
      (parseObject parse b) := by
  unfold parseObject
  split_ifs with hlimit
  · exact .refused
  dsimp only
  split_ifs
  · exact .refused
  have hin := (hready.of_startsWith hopen (by decide)).ready
  refine (safe_parseItems (P := fun m => Json.Within (CJSON_NESTING_LIMIT - (b.depth + 1)) m.2)
    (b := { b with depth := b.depth + 1 }) ?_ (by decide) ⟨hin.terminated, hin.inside⟩
    (Nat.succ_pos _)).bind ?_
  · exact fun b' h1 h2 hr => safe_parseMember hparse h1 h2 hr
  · rintro ⟨ms, b1⟩ ⟨hms, hc1, hd1, hf1, hr1⟩
    have hsucc : CJSON_NESTING_LIMIT - b.depth = CJSON_NESTING_LIMIT - (b.depth + 1) + 1 := by
      omega
    exact ⟨hsucc ▸ .object hms, hc1, by simpa using hd1, hf1, hr1⟩

end Values

/-- The nesting limit is reached before the recursion runs out of levels. -/
theorem safe_parseValue {fuel : ℕ} {b : ParseBuffer} (hready : b.Ready)
    (hdepth : b.depth ≤ CJSON_NESTING_LIMIT) (hfuel : CJSON_NESTING_LIMIT < fuel + b.depth) :
    Safe (fun r => r.1.Within (CJSON_NESTING_LIMIT - b.depth) ∧ b.Proceeds r.2)
      (parseValue fuel b) := by
  induction fuel generalizing b with
  | zero => omega
  | succ fuel ih =>
    have hnested : ∀ b' : ParseBuffer, b.depth < CJSON_NESTING_LIMIT → b'.content = b.content →
        b'.depth = b.depth + 1 → b'.Ready →
        Safe (fun r => r.1.Within (CJSON_NESTING_LIMIT - b'.depth) ∧ b'.Proceeds r.2)
          (parseValue fuel b') :=
      fun b' hlt _ hd hr => ih hr (by omega) (by omega)
    unfold parseValue
    split_ifs with hnull hfalse htrue hstring hnumber harray hobject
    · exact ⟨.null, hready.of_reads hnull (by simp [nullText]) (by simp [nullText])⟩
    · exact ⟨.bool false, hready.of_reads hfalse (by simp [falseText]) (by simp [falseText])⟩
    · exact ⟨.bool true, hready.of_reads htrue (by simp [trueText]) (by simp [trueText])⟩
    · refine (safe_parseString hready).bind ?_
      exact fun r hp => ⟨.string _, hp⟩
    · refine (safe_parseNumber hready).bind ?_
      exact fun r hp => ⟨.number _, hp⟩
    · by_cases hlt : b.depth < CJSON_NESTING_LIMIT
      · exact safe_parseArray (fun b' => hnested b' hlt) hready harray
      · unfold parseArray
        rw [if_pos (by omega)]
        exact .refused
    · by_cases hlt : b.depth < CJSON_NESTING_LIMIT
      · exact safe_parseObject (fun b' => hnested b' hlt) hready hobject
      · unfold parseObject
        rw [if_pos (by omega)]
        exact .refused
    · exact .refused

/-- **Memory safety of the JSON parser.**  On any string, followed by its NUL, `cJSON_Parse` neither
reads outside the string nor writes outside what it has allocated, all its loops and its recursion
end, and what it accepts is nested at most `CJSON_NESTING_LIMIT` deep. -/
theorem cJsonParse_safe (value : List UInt8) :
    cJsonParse value ≠ .error .memory ∧ cJsonParse value ≠ .error .fuel ∧
      ∀ item, cJsonParse value = .ok item → item.Within CJSON_NESTING_LIMIT := by
  have hstart : ({ content := value ++ [0] } : ParseBuffer).Ready := ⟨by simp, by simp⟩
  have hbom : ({ content := value ++ [0] } : ParseBuffer).skipUtf8Bom.Ready ∧
      ({ content := value ++ [0] } : ParseBuffer).skipUtf8Bom.depth = 0 := by
    unfold skipUtf8Bom
    split_ifs with hread
    · exact ⟨(hstart.of_reads hread.2 (by simp) (by simp)).ready, rfl⟩
    · exact ⟨hstart, rfl⟩
  obtain ⟨-, hd, -, hr⟩ := hbom.1.skipWhitespace
  rw [hbom.2] at hd
  have hsafe : Safe (fun item => item.Within CJSON_NESTING_LIMIT) (cJsonParse value) := by
    unfold cJsonParse parseWithLength
    rw [if_neg (by simp)]
    refine (safe_parseValue hr (by rw [hd]; exact Nat.zero_le _)
      (by rw [hd]; exact Nat.lt_succ_self _)).bind ?_
    rintro r ⟨hwithin, -⟩
    rw [hd] at hwithin
    exact hwithin
  cases hparse : cJsonParse value with
  | ok item =>
    rw [hparse] at hsafe
    refine ⟨nofun, nofun, fun item' he => ?_⟩
    obtain rfl := Except.ok.inj he
    exact hsafe
  | error e =>
    rw [hparse] at hsafe
    obtain rfl : e = .refused := hsafe
    exact ⟨nofun, nofun, nofun⟩

end Ruru.CJson
