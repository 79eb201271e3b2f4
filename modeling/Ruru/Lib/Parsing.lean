import Mathlib.Data.List.Basic
import Mathlib.Tactic.Common

/-!
# Ruru.Lib.Parsing — parsers over a growing input

A parser reads from a cursor (an offset and the tokens from it to the end of the input received so
far) and returns a value with the cursor behind it, or fails.  One failure, `eof`, means "the input
ended too early".  `Incremental eof p`: more input never changes a result of `p` other than `eof`;
the value is the same, only the rest grows.  `Advances p`: `p` moves forward over tokens that are
there.  Both are kept by sequencing, and hold of the primitives, so a parser written in `do` form
has them by following its text.  `EndsIn t p`: the last token `p` moves over is `t`.  `Ensures Q p`: a
postcondition.  `Yields buf Q p`: a postcondition of runs inside the input `buf`.  `FailsIn E p`: what
`p` can fail with.  `Reads G p`: `p` succeeds exactly on the texts of the grammar `G`.
-/

namespace Parsing

variable {τ ε α β : Type}

/-- A position in the input: its offset, and the tokens from it to the end received so far. -/
structure Cursor (τ : Type) where
  pos : ℕ
  rest : List τ

/-- The same position after more input has arrived. -/
def Cursor.feed (c : Cursor τ) (ys : List τ) : Cursor τ := ⟨c.pos, c.rest ++ ys⟩

/-- The cursor stands in the input `buf`. -/
def Cursor.In (c : Cursor τ) (buf : List τ) : Prop :=
  ∃ past, buf = past ++ c.rest ∧ c.pos = past.length

theorem Cursor.in_start (buf : List τ) : (⟨0, buf⟩ : Cursor τ).In buf := ⟨[], rfl, rfl⟩

/-- The tokens `us` lie between the cursors. -/
def Cursor.Over (c : Cursor τ) (us : List τ) (c' : Cursor τ) : Prop :=
  c.rest = us ++ c'.rest ∧ c'.pos = c.pos + us.length

theorem Cursor.over_nil {c c' : Cursor τ} : c.Over [] c' ↔ c = c' := by
  constructor
  · rintro ⟨hrest, hpos⟩
    obtain ⟨pos, rest⟩ := c
    obtain ⟨pos', rest'⟩ := c'
    obtain rfl : rest = rest' := by simpa using hrest
    obtain rfl : pos' = pos := by simpa using hpos
    rfl
  · rintro rfl
    exact ⟨rfl, rfl⟩

/-- A parser with failures `ε`. -/
def Parser (τ ε α : Type) : Type := Cursor τ → Except ε (α × Cursor τ)

namespace Parser

/-- Run the parser at a cursor. -/
def run (p : Parser τ ε α) (c : Cursor τ) : Except ε (α × Cursor τ) := p c

instance : Monad (Parser τ ε) where
  pure a := fun c => .ok (a, c)
  bind p q := fun c => match p c with
    | .error e => .error e
    | .ok (a, c') => q a c'

@[simp] theorem run_pure (a : α) (c : Cursor τ) : (pure a : Parser τ ε α).run c = .ok (a, c) := rfl

theorem run_bind (p : Parser τ ε α) (q : α → Parser τ ε β) (c : Cursor τ) :
    (p >>= q).run c = match p.run c with
      | .error e => .error e
      | .ok (a, c') => (q a).run c' := rfl

/-- What a sequence has done when it succeeds. -/
theorem run_bind_ok {p : Parser τ ε α} {q : α → Parser τ ε β} {c c' : Cursor τ} {b : β} :
    (p >>= q).run c = .ok (b, c') ↔
      ∃ a c₁, p.run c = .ok (a, c₁) ∧ (q a).run c₁ = .ok (b, c') := by
  rw [run_bind]
  cases p.run c with
  | error e => simp
  | ok r =>
    refine ⟨fun h => ⟨r.1, r.2, rfl, h⟩, ?_⟩
    rintro ⟨a, c₁, h, hq⟩
    obtain rfl : r = (a, c₁) := by simpa using h
    exact hq

/-- Fail with `e`. -/
def fail (e : ε) : Parser τ ε α := fun _ => .error e

/-- The token at the cursor, which stays where it is. -/
def peek (eof : ε) : Parser τ ε τ := fun c => match c.rest with
  | [] => .error eof
  | t :: _ => .ok (t, c)

/-- Step over the token at the cursor and return it. -/
def next (eof : ε) : Parser τ ε τ := fun c => match c.rest with
  | [] => .error eof
  | t :: ts => .ok (t, ⟨c.pos + 1, ts⟩)

/-- Go on only if at least `n` tokens have arrived. -/
def need (eof : ε) (n : ℕ) : Parser τ ε Unit := fun c =>
  if c.rest.length < n then .error eof else .ok ((), c)

@[simp] theorem run_fail (e : ε) (c : Cursor τ) : (fail e : Parser τ ε α).run c = .error e := rfl

@[simp] theorem run_next_nil (eof : ε) (pos : ℕ) :
    (next eof : Parser τ ε τ).run ⟨pos, []⟩ = .error eof := rfl

@[simp] theorem run_next_cons (eof : ε) (pos : ℕ) (t : τ) (ts : List τ) :
    (next eof : Parser τ ε τ).run ⟨pos, t :: ts⟩ = .ok (t, ⟨pos + 1, ts⟩) := rfl

/-- The offset of the cursor. -/
def offset : Parser τ ε ℕ := fun c => .ok (c.pos, c)

/-- The tokens before the first one that satisfies `stop`; a token that satisfies `bad` before it
is a failure `e`. -/
def scanList (eof e : ε) (stop bad : τ → Bool) : List τ → Except ε (List τ × List τ)
  | [] => .error eof
  | t :: ts =>
    if stop t then .ok ([], t :: ts)
    else if bad t then .error e
    else match scanList eof e stop bad ts with
      | .error e' => .error e'
      | .ok (us, ts') => .ok (t :: us, ts')

/-- `scanList` at the cursor. -/
def scan (eof e : ε) (stop bad : τ → Bool) : Parser τ ε (List τ) := fun c =>
  match scanList eof e stop bad c.rest with
  | .error e' => .error e'
  | .ok (us, ts) => .ok (us, ⟨c.pos + us.length, ts⟩)

/-- `eof` apart, the result does not change when more input arrives. -/
def Incremental (eof : ε) (p : Parser τ ε α) : Prop := ∀ (c : Cursor τ) (ys : List τ),
  p.run c = .error eof ∨ p.run (c.feed ys) = (p.run c).map fun r => (r.1, r.2.feed ys)

/-- The parser moves over tokens of its input. -/
def Advances (p : Parser τ ε α) : Prop := ∀ (c : Cursor τ) (a : α) (c' : Cursor τ),
  p.run c = .ok (a, c') → ∃ used, c.rest = used ++ c'.rest ∧ c'.pos = c.pos + used.length

/-- Every value of the parser satisfies `Q`, with the offset at which the parser stops. -/
def Ensures (Q : α → ℕ → Prop) (p : Parser τ ε α) : Prop := ∀ (c : Cursor τ) (a : α)
  (c' : Cursor τ), p.run c = .ok (a, c') → Q a c'.pos

/-- The last token the parser moves over is `t`. -/
def EndsIn (t : τ) (p : Parser τ ε α) : Prop := ∀ (c : Cursor τ) (a : α) (c' : Cursor τ),
  p.run c = .ok (a, c') → ∃ used, c.rest = used ++ t :: c'.rest ∧ c'.pos = c.pos + used.length + 1

/-- Every value of a run that starts inside `buf` satisfies `Q`. -/
def Yields (buf : List τ) (Q : α → Prop) (p : Parser τ ε α) : Prop := ∀ (c : Cursor τ) (a : α)
  (c' : Cursor τ), c.In buf → p.run c = .ok (a, c') → Q a

/-- Every failure of the parser satisfies `E`. -/
def FailsIn (E : ε → Prop) (p : Parser τ ε α) : Prop := ∀ (c : Cursor τ) (e : ε),
  p.run c = .error e → E e

/-- What a parser reads, as a relation: at the offset `pos`, the text `us` gives the value `a` in
front of `rest`. -/
abbrev Grammar (τ α : Type) : Type := ℕ → List τ → α → List τ → Prop

/-- The parser succeeds exactly on the texts of the grammar, with the values it gives them. -/
def Reads (G : Grammar τ α) (p : Parser τ ε α) : Prop := ∀ (c : Cursor τ) (a : α) (c' : Cursor τ),
  p.run c = .ok (a, c') ↔ ∃ us, c.Over us c' ∧ G c.pos us a c'.rest

/-! ### Sequencing -/

theorem Incremental.pure (eof : ε) (a : α) : Incremental eof (pure a : Parser τ ε α) :=
  fun _ _ => Or.inr rfl

theorem Incremental.bind {eof : ε} {p : Parser τ ε α} {q : α → Parser τ ε β}
    (hp : Incremental eof p) (hq : ∀ a, Incremental eof (q a)) : Incremental eof (p >>= q) := by
  intro c ys
  rw [run_bind, run_bind]
  rcases hp c ys with h | h
  · left; rw [h]
  · rw [h]
    cases hc : p.run c with
    | error e => exact Or.inr rfl
    | ok r => exact hq r.1 r.2 ys

theorem Incremental.ite {eof : ε} {P : Prop} [Decidable P] {p q : Parser τ ε α}
    (hp : Incremental eof p) (hq : Incremental eof q) : Incremental eof (if P then p else q) := by
  split_ifs
  · exact hp
  · exact hq

theorem Advances.pure (a : α) : Advances (Pure.pure a : Parser τ ε α) := by
  intro c b c' h
  obtain ⟨rfl, rfl⟩ : a = b ∧ c = c' := by simpa using h
  exact ⟨[], rfl, rfl⟩

theorem Advances.bind {p : Parser τ ε α} {q : α → Parser τ ε β} (hp : Advances p)
    (hq : ∀ a, Advances (q a)) : Advances (p >>= q) := by
  intro c b c' h
  obtain ⟨a, c₁, hc, h⟩ := run_bind_ok.mp h
  obtain ⟨us, h1, h2⟩ := hp c a c₁ hc
  obtain ⟨vs, h3, h4⟩ := hq a c₁ b c' h
  exact ⟨us ++ vs, by rw [h1, h3, List.append_assoc], by rw [h4, h2, List.length_append]; omega⟩

theorem Advances.pos_le {p : Parser τ ε α} (hp : Advances p) {c c' : Cursor τ} {a : α}
    (h : p.run c = .ok (a, c')) : c.pos ≤ c'.pos := by
  obtain ⟨used, -, hpos⟩ := hp c a c' h
  omega

/-- The cursor stays in the input. -/
theorem Advances.in {p : Parser τ ε α} (hp : Advances p) {c c' : Cursor τ} {a : α} {buf : List τ}
    (hin : c.In buf) (h : p.run c = .ok (a, c')) : c'.In buf := by
  obtain ⟨past, hbuf, hpos⟩ := hin
  obtain ⟨used, hrest, hpos'⟩ := hp c a c' h
  refine ⟨past ++ used, ?_, ?_⟩
  · rw [hbuf, hrest, List.append_assoc]
  · rw [hpos', hpos, List.length_append]

theorem Advances.ite {P : Prop} [Decidable P] {p q : Parser τ ε α} (hp : Advances p)
    (hq : Advances q) : Advances (if P then p else q) := by
  split_ifs
  · exact hp
  · exact hq

theorem EndsIn.bind {t : τ} {p : Parser τ ε α} {q : α → Parser τ ε β} (hp : Advances p)
    (hq : ∀ a, EndsIn t (q a)) : EndsIn t (p >>= q) := by
  intro c b c' h
  obtain ⟨a, c₁, hc, h⟩ := run_bind_ok.mp h
  obtain ⟨us, h1, h2⟩ := hp c a c₁ hc
  obtain ⟨vs, h3, h4⟩ := hq a c₁ b c' h
  exact ⟨us ++ vs, by rw [h1, h3, List.append_assoc], by rw [h4, h2, List.length_append]; omega⟩

theorem EndsIn.bind_pure {t : τ} {p : Parser τ ε α} {f : α → β} (hp : EndsIn t p) :
    EndsIn t (p >>= fun a => Pure.pure (f a)) := by
  intro c b c' h
  obtain ⟨a, c₁, hc, h⟩ := run_bind_ok.mp h
  obtain ⟨-, rfl⟩ : f a = b ∧ c₁ = c' := by simpa using h
  exact hp c a c₁ hc

theorem EndsIn.pos_lt {t : τ} {p : Parser τ ε α} (hp : EndsIn t p) {c c' : Cursor τ} {a : α}
    (h : p.run c = .ok (a, c')) : c.pos < c'.pos := by
  obtain ⟨used, -, hpos⟩ := hp c a c' h
  omega

theorem Ensures.bind {Q : β → ℕ → Prop} {p : Parser τ ε α} {q : α → Parser τ ε β}
    (hq : ∀ a, Ensures Q (q a)) : Ensures Q (p >>= q) := by
  intro c b c' h
  obtain ⟨a, c₁, -, h⟩ := run_bind_ok.mp h
  exact hq a c₁ b c' h

theorem Ensures.bind_pure {Q : α → ℕ → Prop} {p : Parser τ ε α} {f : α → β} {Q' : β → ℕ → Prop}
    (hp : Ensures Q p) (hf : ∀ a pos, Q a pos → Q' (f a) pos) :
    Ensures Q' (p >>= fun a => Pure.pure (f a)) := by
  intro c b c' h
  obtain ⟨a, c₁, hc, h⟩ := run_bind_ok.mp h
  obtain ⟨rfl, rfl⟩ : f a = b ∧ c₁ = c' := by simpa using h
  exact hf a c₁.pos (hp c a c₁ hc)

theorem Yields.bind {buf : List τ} {Q : β → Prop} {p : Parser τ ε α} {q : α → Parser τ ε β}
    (hp : Advances p) (hq : ∀ a, Yields buf Q (q a)) : Yields buf Q (p >>= q) := by
  intro c b c' hin h
  obtain ⟨a, c₁, hc, h⟩ := run_bind_ok.mp h
  exact hq a c₁ b c' (hp.in hin hc) h

theorem Yields.bind_pure {buf : List τ} {Q : α → Prop} {p : Parser τ ε α} {f : α → β}
    {Q' : β → Prop} (hp : Yields buf Q p) (hf : ∀ a, Q a → Q' (f a)) :
    Yields buf Q' (p >>= fun a => Pure.pure (f a)) := by
  intro c b c' hin h
  obtain ⟨a, c₁, hc, h⟩ := run_bind_ok.mp h
  obtain ⟨rfl, -⟩ : f a = b ∧ c₁ = c' := by simpa using h
  exact hf a (hp c a c₁ hin hc)

theorem FailsIn.pure (E : ε → Prop) (a : α) : FailsIn E (Pure.pure a : Parser τ ε α) := by
  intro c e h
  exact absurd h (by simp)

theorem FailsIn.bind {E : ε → Prop} {p : Parser τ ε α} {q : α → Parser τ ε β} (hp : FailsIn E p)
    (hq : ∀ a, FailsIn E (q a)) : FailsIn E (p >>= q) := by
  intro c e h
  rw [run_bind] at h
  cases hc : p.run c with
  | error e' =>
    rw [hc] at h
    cases h
    exact hp c e hc
  | ok r =>
    rw [hc] at h
    exact hq r.1 r.2 e h

theorem FailsIn.ite {E : ε → Prop} {P : Prop} [Decidable P] {p q : Parser τ ε α}
    (hp : FailsIn E p) (hq : FailsIn E q) : FailsIn E (if P then p else q) := by
  split_ifs
  · exact hp
  · exact hq

theorem EndsIn.ite {t : τ} {P : Prop} [Decidable P] {p q : Parser τ ε α} (hp : EndsIn t p)
    (hq : EndsIn t q) : EndsIn t (if P then p else q) := by
  split_ifs
  · exact hp
  · exact hq

/-! ### Primitives -/

theorem Incremental.fail (eof e : ε) : Incremental eof (fail e : Parser τ ε α) :=
  fun _ _ => Or.inr rfl

theorem Incremental.offset (eof : ε) : Incremental eof (offset : Parser τ ε ℕ) :=
  fun _ _ => Or.inr rfl

theorem Incremental.peek (eof : ε) : Incremental eof (peek eof : Parser τ ε τ) := by
  rintro ⟨pos, rest⟩ ys
  cases rest with
  | nil => exact Or.inl rfl
  | cons t ts => exact Or.inr rfl

theorem Incremental.next (eof : ε) : Incremental eof (next eof : Parser τ ε τ) := by
  rintro ⟨pos, rest⟩ ys
  cases rest with
  | nil => exact Or.inl rfl
  | cons t ts => exact Or.inr rfl

theorem Incremental.need (eof : ε) (n : ℕ) : Incremental eof (need eof n : Parser τ ε Unit) := by
  rintro ⟨pos, rest⟩ ys
  by_cases h : rest.length < n
  · exact Or.inl (if_pos h)
  · right
    have h' : ¬ (rest ++ ys).length < n := by rw [List.length_append]; omega
    simp only [run, Parser.need, Cursor.feed, if_neg h, Except.map]
    exact if_neg h'

theorem scanList_feed (eof e : ε) (stop bad : τ → Bool) (ts ys : List τ) :
    scanList eof e stop bad ts = .error eof ∨ scanList eof e stop bad (ts ++ ys) =
      (scanList eof e stop bad ts).map fun r => (r.1, r.2 ++ ys) := by
  induction ts with
  | nil => exact Or.inl rfl
  | cons t ts ih =>
    simp only [List.cons_append, scanList]
    by_cases hs : stop t
    · right; simp [hs, Except.map]
    by_cases hb : bad t
    · right; simp [hs, hb, Except.map]
    · simp only [hs, hb, Bool.false_eq_true, if_false]
      rcases ih with h | h
      · left; rw [h]
      · right
        rw [h]
        cases scanList eof e stop bad ts <;> rfl

theorem Incremental.scan (eof e : ε) (stop bad : τ → Bool) :
    Incremental eof (scan eof e stop bad) := by
  rintro ⟨pos, rest⟩ ys
  simp only [run, Parser.scan, Cursor.feed]
  rcases scanList_feed eof e stop bad rest ys with h | h
  · left; rw [h]
  · right
    rw [h]
    cases scanList eof e stop bad rest <;> rfl

theorem Advances.fail (e : ε) : Advances (Parser.fail e : Parser τ ε α) := by
  intro c a c' h
  exact absurd h (by simp [run, Parser.fail])

theorem EndsIn.fail (t : τ) (e : ε) : EndsIn t (Parser.fail e : Parser τ ε α) := by
  intro c a c' h
  exact absurd h (by simp [run, Parser.fail])

theorem Advances.offset : Advances (Parser.offset : Parser τ ε ℕ) := by
  intro c a c' h
  obtain ⟨-, rfl⟩ : c.pos = a ∧ c = c' := by simpa [run, Parser.offset] using h
  exact ⟨[], rfl, rfl⟩

theorem Advances.peek (eof : ε) : Advances (Parser.peek eof : Parser τ ε τ) := by
  rintro ⟨pos, rest⟩ a c' h
  cases rest with
  | nil => simp [run, Parser.peek] at h
  | cons t ts =>
    obtain ⟨-, rfl⟩ : t = a ∧ _ = c' := by simpa [run, Parser.peek] using h
    exact ⟨[], rfl, rfl⟩

theorem Advances.next (eof : ε) : Advances (Parser.next eof : Parser τ ε τ) := by
  rintro ⟨pos, rest⟩ a c' h
  cases rest with
  | nil => simp [run, Parser.next] at h
  | cons t ts =>
    obtain ⟨-, rfl⟩ : t = a ∧ _ = c' := by simpa [run, Parser.next] using h
    exact ⟨[t], rfl, rfl⟩

theorem Advances.need (eof : ε) (n : ℕ) : Advances (Parser.need eof n : Parser τ ε Unit) := by
  rintro c a c' h
  by_cases hn : c.rest.length < n
  · simp [run, Parser.need, hn] at h
  · obtain rfl : c = c' := by simpa [run, Parser.need, hn] using h
    exact ⟨[], rfl, rfl⟩

theorem scanList_cons (eof e : ε) (stop bad : τ → Bool) (t : τ) (ts : List τ) :
    scanList eof e stop bad (t :: ts) = if stop t then .ok ([], t :: ts) else if bad t then .error e
      else (scanList eof e stop bad ts).map fun r => (t :: r.1, r.2) := by
  rw [scanList]
  cases scanList eof e stop bad ts <;> rfl

/-- `scanList` passes tokens that neither stop it nor are bad. -/
theorem scanList_append {eof e : ε} {stop bad : τ → Bool} {us ts : List τ}
    (h : ∀ u ∈ us, stop u = false ∧ bad u = false) : scanList eof e stop bad (us ++ ts) =
      (scanList eof e stop bad ts).map fun r => (us ++ r.1, r.2) := by
  induction us with
  | nil => cases hr : scanList eof e stop bad ts <;> simp [hr, Except.map]
  | cons u us ih =>
    obtain ⟨hstop, hbad⟩ := h u List.mem_cons_self
    rw [List.cons_append, scanList_cons, ih fun u' hu' => h u' (List.mem_cons_of_mem _ hu')]
    simp only [hstop, hbad, Bool.false_eq_true, if_false]
    cases scanList eof e stop bad ts <;> rfl

/-- What `scanList` skips and leaves. -/
theorem scanList_ok {eof e : ε} {stop bad : τ → Bool} {ts us ts' : List τ}
    (h : scanList eof e stop bad ts = .ok (us, ts')) : ts = us ++ ts' := by
  induction ts generalizing us with
  | nil => simp [scanList] at h
  | cons t ts ih =>
    simp only [scanList] at h
    by_cases hs : stop t
    · obtain ⟨rfl, rfl⟩ : [] = us ∧ t :: ts = ts' := by simpa [hs] using h
      rfl
    by_cases hb : bad t
    · simp [hs, hb] at h
    · simp only [hs, hb, Bool.false_eq_true, if_false] at h
      cases hr : scanList eof e stop bad ts with
      | error e' => rw [hr] at h; simp at h
      | ok r =>
        rw [hr] at h
        obtain ⟨rfl, rfl⟩ : t :: r.1 = us ∧ r.2 = ts' := by simpa using h
        rw [ih hr]; rfl

/-- `scanList` stops at a token that satisfies `stop`. -/
theorem scanList_stops {eof e : ε} {stop bad : τ → Bool} {ts us ts' : List τ}
    (h : scanList eof e stop bad ts = .ok (us, ts')) : ∃ t rest, ts' = t :: rest ∧ stop t = true := by
  induction ts generalizing us with
  | nil => simp [scanList] at h
  | cons t ts ih =>
    simp only [scanList] at h
    by_cases hs : stop t
    · obtain ⟨-, rfl⟩ : [] = us ∧ t :: ts = ts' := by simpa [hs] using h
      exact ⟨t, ts, rfl, hs⟩
    by_cases hb : bad t
    · simp [hs, hb] at h
    · simp only [hs, hb, Bool.false_eq_true, if_false] at h
      cases hr : scanList eof e stop bad ts with
      | error e' => rw [hr] at h; simp at h
      | ok r =>
        rw [hr] at h
        obtain ⟨-, rfl⟩ : t :: r.1 = us ∧ r.2 = ts' := by simpa using h
        exact ih hr

theorem Advances.scan (eof e : ε) (stop bad : τ → Bool) :
    Advances (Parser.scan eof e stop bad) := by
  rintro c us c' h
  simp only [run, Parser.scan] at h
  cases hr : scanList eof e stop bad c.rest with
  | error e' => rw [hr] at h; simp at h
  | ok r =>
    rw [hr] at h
    obtain ⟨rfl, rfl⟩ : r.1 = us ∧ _ = c' := by simpa using h
    exact ⟨r.1, scanList_ok hr, rfl⟩

theorem FailsIn.fail {E : ε → Prop} {e : ε} (he : E e) :
    FailsIn E (Parser.fail e : Parser τ ε α) := by
  intro c e' h
  cases h
  exact he

theorem FailsIn.offset (E : ε → Prop) : FailsIn E (Parser.offset : Parser τ ε ℕ) := by
  intro c e h
  cases h

theorem FailsIn.peek {E : ε → Prop} {eof : ε} (he : E eof) :
    FailsIn E (Parser.peek eof : Parser τ ε τ) := by
  rintro ⟨pos, rest⟩ e h
  cases rest with
  | nil =>
    cases h
    exact he
  | cons t ts => cases h

theorem FailsIn.next {E : ε → Prop} {eof : ε} (he : E eof) :
    FailsIn E (Parser.next eof : Parser τ ε τ) := by
  rintro ⟨pos, rest⟩ e h
  cases rest with
  | nil =>
    cases h
    exact he
  | cons t ts => cases h

theorem FailsIn.need {E : ε → Prop} {eof : ε} (he : E eof) (n : ℕ) :
    FailsIn E (Parser.need eof n : Parser τ ε Unit) := by
  intro c e h
  by_cases hn : c.rest.length < n
  · obtain rfl : eof = e := by simpa [run, Parser.need, hn] using h
    exact he
  · simp [run, Parser.need, hn] at h

theorem scanList_fails {E : ε → Prop} {eof e : ε} (heof : E eof) (he : E e) {stop bad : τ → Bool}
    {ts : List τ} {e' : ε} (h : scanList eof e stop bad ts = .error e') : E e' := by
  induction ts with
  | nil =>
    cases h
    exact heof
  | cons t ts ih =>
    rw [scanList_cons] at h
    split_ifs at h
    · cases h
      exact he
    · cases hr : scanList eof e stop bad ts with
      | error e'' =>
        rw [hr] at h
        cases h
        exact ih hr
      | ok r =>
        rw [hr] at h
        cases h

theorem FailsIn.scan {E : ε → Prop} {eof e : ε} (heof : E eof) (he : E e) (stop bad : τ → Bool) :
    FailsIn E (Parser.scan eof e stop bad) := by
  intro c e' h
  simp only [run, Parser.scan] at h
  cases hr : scanList eof e stop bad c.rest with
  | error e'' =>
    rw [hr] at h
    cases h
    exact scanList_fails heof he hr
  | ok r =>
    rw [hr] at h
    cases h

/-- What `scan` skips, and the token it stops at. -/
theorem run_scan_ok {eof e : ε} {stop bad : τ → Bool} {c c' : Cursor τ} {us : List τ}
    (h : (scan eof e stop bad).run c = .ok (us, c')) :
    ∃ t rest, c.rest = us ++ t :: rest ∧ stop t = true := by
  simp only [run, scan] at h
  cases hr : scanList eof e stop bad c.rest with
  | error e' => rw [hr] at h; simp at h
  | ok r =>
    rw [hr] at h
    obtain ⟨rfl, -⟩ : r.1 = us ∧ _ = c' := by simpa using h
    obtain ⟨t, rest, hrest, ht⟩ := scanList_stops hr
    exact ⟨t, rest, by rw [scanList_ok hr, hrest], ht⟩

/-! ### Grammars -/

theorem Reads.congr {G H : Grammar τ α} {p : Parser τ ε α} (hp : Reads G p)
    (h : ∀ pos us a rest, G pos us a rest ↔ H pos us a rest) : Reads H p := by
  intro c a c'
  rw [hp c a c']
  exact exists_congr fun us => and_congr_right' (h c.pos us a c'.rest)

theorem Reads.pure (a : α) :
    Reads (fun _ us b _ => us = [] ∧ b = a) (Pure.pure a : Parser τ ε α) := by
  intro c b c'
  rw [run_pure, Except.ok.injEq, Prod.mk.injEq]
  constructor
  · rintro ⟨rfl, rfl⟩
    exact ⟨[], Cursor.over_nil.mpr rfl, rfl, rfl⟩
  · rintro ⟨us, hover, rfl, rfl⟩
    exact ⟨rfl, Cursor.over_nil.mp hover⟩

/-- One text behind the other. -/
theorem Reads.bind {G : Grammar τ α} {H : α → Grammar τ β} {p : Parser τ ε α}
    {q : α → Parser τ ε β} (hp : Reads G p) (hq : ∀ a, Reads (H a) (q a)) :
    Reads (fun pos us b rest => ∃ us₁ us₂ a, us = us₁ ++ us₂ ∧ G pos us₁ a (us₂ ++ rest) ∧
      H a (pos + us₁.length) us₂ b rest) (p >>= q) := by
  intro c b c'
  rw [run_bind_ok]
  constructor
  · rintro ⟨a, c₁, hc, h⟩
    obtain ⟨us₁, ⟨hrest₁, hpos₁⟩, hG⟩ := (hp c a c₁).mp hc
    obtain ⟨us₂, ⟨hrest₂, hpos₂⟩, hH⟩ := (hq a c₁ b c').mp h
    refine ⟨us₁ ++ us₂, ⟨?_, ?_⟩, us₁, us₂, a, rfl, ?_, ?_⟩
    · rw [hrest₁, hrest₂, List.append_assoc]
    · rw [hpos₂, hpos₁, List.length_append, Nat.add_assoc]
    · rwa [← hrest₂]
    · rwa [← hpos₁]
  · rintro ⟨us, ⟨hrest, hpos⟩, us₁, us₂, a, rfl, hG, hH⟩
    refine ⟨a, ⟨c.pos + us₁.length, us₂ ++ c'.rest⟩, (hp c a _).mpr ⟨us₁, ⟨?_, rfl⟩, hG⟩,
      (hq a _ b c').mpr ⟨us₂, ⟨rfl, ?_⟩, hH⟩⟩
    · rw [hrest, List.append_assoc]
    · rw [hpos, List.length_append, Nat.add_assoc]

theorem Reads.ite {G H : Grammar τ α} {P : Prop} [Decidable P] {p q : Parser τ ε α}
    (hp : Reads G p) (hq : Reads H q) :
    Reads (fun pos us a rest => if P then G pos us a rest else H pos us a rest)
      (if P then p else q) := by
  intro c a c'
  split_ifs
  · exact hp c a c'
  · exact hq c a c'

theorem Reads.fail (e : ε) :
    Reads (fun _ _ _ _ => False) (Parser.fail e : Parser τ ε α) := by
  intro c a c'
  simp

theorem Reads.offset :
    Reads (fun pos us a _ => us = [] ∧ a = pos) (Parser.offset : Parser τ ε ℕ) := by
  intro c a c'
  show Except.ok (c.pos, c) = Except.ok (a, c') ↔ _
  rw [Except.ok.injEq, Prod.mk.injEq]
  constructor
  · rintro ⟨rfl, rfl⟩
    exact ⟨[], Cursor.over_nil.mpr rfl, rfl, rfl⟩
  · rintro ⟨us, hover, rfl, rfl⟩
    exact ⟨rfl, Cursor.over_nil.mp hover⟩

theorem Reads.offset_bind {H : ℕ → Grammar τ β} {q : ℕ → Parser τ ε β}
    (hq : ∀ start, Reads (H start) (q start)) :
    Reads (fun pos us b rest => H pos pos us b rest) (Parser.offset >>= q) := by
  refine (Reads.bind Reads.offset hq).congr fun pos us b rest => ?_
  constructor
  · rintro ⟨us₁, us₂, start, rfl, ⟨rfl, rfl⟩, h⟩
    exact h
  · intro h
    exact ⟨[], us, pos, rfl, ⟨rfl, rfl⟩, h⟩

theorem Reads.map {G : Grammar τ α} {p : Parser τ ε α} (f : α → β) (hp : Reads G p) :
    Reads (fun pos us b rest => ∃ a, G pos us a rest ∧ b = f a)
      (p >>= fun a => Pure.pure (f a)) := by
  refine (Reads.bind hp fun a => Reads.pure (f a)).congr fun pos us b rest => ?_
  constructor
  · rintro ⟨us₁, us₂, a, rfl, hG, rfl, rfl⟩
    exact ⟨a, by simpa using hG, rfl⟩
  · rintro ⟨a, hG, rfl⟩
    exact ⟨us, [], a, (List.append_nil us).symm, hG, rfl, rfl⟩

theorem Reads.peek (eof : ε) :
    Reads (fun _ us a rest => us = [] ∧ ∃ ts, rest = a :: ts) (Parser.peek eof : Parser τ ε τ) := by
  rintro ⟨pos, rest⟩ a c'
  cases rest with
  | nil =>
    simp only [run, Parser.peek, reduceCtorEq, false_iff]
    rintro ⟨us, hover, rfl, ts, hts⟩
    obtain rfl := Cursor.over_nil.mp hover
    exact absurd hts (by simp)
  | cons t ts =>
    simp only [run, Parser.peek, Except.ok.injEq, Prod.mk.injEq]
    constructor
    · rintro ⟨rfl, rfl⟩
      exact ⟨[], Cursor.over_nil.mpr rfl, rfl, ts, rfl⟩
    · rintro ⟨us, hover, rfl, ts', hts⟩
      obtain rfl := Cursor.over_nil.mp hover
      exact ⟨(List.cons.inj hts).1, rfl⟩

/-- A look at the first token of the text, or of what follows an empty one. -/
theorem Reads.peek_bind {H : τ → Grammar τ β} {eof : ε} {q : τ → Parser τ ε β}
    (hq : ∀ t, Reads (H t) (q t)) :
    Reads (fun pos us b rest => ∃ t ts, us ++ rest = t :: ts ∧ H t pos us b rest)
      (Parser.peek eof >>= q) := by
  refine (Reads.bind (Reads.peek eof) hq).congr fun pos us b rest => ?_
  constructor
  · rintro ⟨us₁, us₂, t, rfl, ⟨rfl, ts, ht⟩, h⟩
    exact ⟨t, ts, ht, h⟩
  · rintro ⟨t, ts, ht, h⟩
    exact ⟨[], us, t, rfl, ⟨rfl, ts, ht⟩, h⟩

theorem Reads.next (eof : ε) :
    Reads (fun _ us a _ => us = [a]) (Parser.next eof : Parser τ ε τ) := by
  rintro ⟨pos, rest⟩ a ⟨pos', rest'⟩
  cases rest with
  | nil => simp [Cursor.Over]
  | cons t ts =>
    simp only [run_next_cons, Except.ok.injEq, Prod.mk.injEq, Cursor.mk.injEq]
    constructor
    · rintro ⟨rfl, rfl, rfl⟩
      exact ⟨[t], ⟨rfl, rfl⟩, rfl⟩
    · rintro ⟨us, ⟨hrest, hpos⟩, rfl⟩
      obtain ⟨rfl, rfl⟩ := List.cons.inj hrest
      exact ⟨rfl, hpos.symm, rfl⟩

theorem Reads.need (eof : ε) (n : ℕ) :
    Reads (fun _ us _ rest => us = [] ∧ n ≤ rest.length) (Parser.need eof n : Parser τ ε Unit) := by
  intro c a c'
  simp only [run, Parser.need]
  split_ifs with hn
  · simp only [false_iff]
    rintro ⟨us, hover, rfl, hle⟩
    obtain rfl := Cursor.over_nil.mp hover
    omega
  · simp only [Except.ok.injEq, Prod.mk.injEq, true_and]
    constructor
    · rintro rfl
      exact ⟨[], Cursor.over_nil.mpr rfl, rfl, by omega⟩
    · rintro ⟨us, hover, rfl, -⟩
      exact Cursor.over_nil.mp hover

/-- What `scanList` skips and leaves, and that this is all it needs. -/
theorem scanList_ok_iff {eof e : ε} {stop bad : τ → Bool} {ts us ts' : List τ} :
    scanList eof e stop bad ts = .ok (us, ts') ↔
      ts = us ++ ts' ∧ (∀ u ∈ us, stop u = false ∧ bad u = false) ∧
        ∃ t rest, ts' = t :: rest ∧ stop t = true := by
  constructor
  · intro h
    refine ⟨scanList_ok h, ?_, scanList_stops h⟩
    induction ts generalizing us with
    | nil => simp [scanList] at h
    | cons t ts ih =>
      rw [scanList_cons] at h
      split_ifs at h with hs hb
      · obtain ⟨rfl, -⟩ : [] = us ∧ t :: ts = ts' := by simpa using h
        simp
      · cases hr : scanList eof e stop bad ts with
        | error e' => rw [hr] at h; simp [Except.map] at h
        | ok r =>
          rw [hr] at h
          obtain ⟨rfl, rfl⟩ : t :: r.1 = us ∧ r.2 = ts' := by simpa [Except.map] using h
          intro u hu
          rcases List.mem_cons.mp hu with rfl | hu
          · exact ⟨by simpa using hs, by simpa using hb⟩
          · exact ih hr u hu
  · rintro ⟨rfl, hus, t, rest, rfl, ht⟩
    rw [scanList_append hus, scanList_cons, if_pos ht]
    simp [Except.map]

theorem Reads.scan (eof e : ε) (stop bad : τ → Bool) :
    Reads (fun _ us a rest => a = us ∧ (∀ u ∈ us, stop u = false ∧ bad u = false) ∧
      ∃ t ts, rest = t :: ts ∧ stop t = true) (Parser.scan eof e stop bad) := by
  intro c a c'
  have hrun : (Parser.scan eof e stop bad).run c = .ok (a, c') ↔
      scanList eof e stop bad c.rest = .ok (a, c'.rest) ∧ c'.pos = c.pos + a.length := by
    simp only [run, Parser.scan]
    cases hr : scanList eof e stop bad c.rest with
    | error e' => simp
    | ok r =>
      obtain ⟨pos', rest'⟩ := c'
      simp only [Except.ok.injEq, Prod.ext_iff, Cursor.mk.injEq]
      constructor
      · rintro ⟨rfl, rfl, rfl⟩
        exact ⟨⟨rfl, rfl⟩, rfl⟩
      · rintro ⟨⟨rfl, rfl⟩, rfl⟩
        exact ⟨rfl, rfl, rfl⟩
  rw [hrun, scanList_ok_iff]
  constructor
  · rintro ⟨⟨hrest, hus, hstop⟩, hpos⟩
    exact ⟨a, ⟨hrest, hpos⟩, rfl, hus, hstop⟩
  · rintro ⟨us, ⟨hrest, hpos⟩, rfl, hus, hstop⟩
    exact ⟨⟨hrest, hus, hstop⟩, hpos⟩

end Parser

end Parsing
