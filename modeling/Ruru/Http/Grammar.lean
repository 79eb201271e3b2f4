import Ruru.Http.PhrFacts

/-!
# Ruru.Http.Grammar — the texts that `phr_parse_request` accepts

A request is an optional empty line, a request line, header lines and a blank line, with LF or CR LF
at the end of each.  The structures below are the texts of that grammar; each says which bytes it is
and what the parser has to store for it.  `phr_parse_request` succeeds exactly when its buffer starts
with such a text, returns the length of the text and stores what the text says; a proper piece of a
text is partial.
-/

namespace Ruru.Http

open Parsing Parsing.Parser

/-! ### Texts -/

/-- CR LF or LF. -/
def LineEnd (us : List UInt8) : Prop := us = [CR, LF] ∨ us = [LF]

/-- The value of a header up to the end of its line, with the blanks behind it. -/
structure Value where
  text : List UInt8
  blanks : List UInt8
  eol : List UInt8
  text_ok : ∀ b ∈ text, isEolCtl b = false
  text_last : ∀ b ∈ text.getLast?, isBlank b = false
  blanks_ok : ∀ b ∈ blanks, isBlank b = true
  eol_ok : LineEnd eol

def Value.bytes (v : Value) : List UInt8 := v.text ++ v.blanks ++ v.eol

/-- `name: value`, with no blank before the colon. -/
structure Field where
  name : List UInt8
  blanks : List UInt8
  value : Value
  name_ne : name ≠ []
  name_ok : ∀ b ∈ name, isTokenChar b = true
  blanks_ok : ∀ b ∈ blanks, isBlank b = true
  value_ok : ∀ b ∈ value.bytes.head?, isBlank b = false

def Field.bytes (f : Field) : List UInt8 := f.name ++ 58 :: (f.blanks ++ f.value.bytes)

/-- A line that starts with a blank. -/
structure Continuation where
  value : Value
  value_ok : ∃ b ∈ value.bytes.head?, isBlank b = true

/-- A line between the request line and the blank line. -/
inductive HeaderText where
  | field (f : Field)
  | continuation (l : Continuation)

namespace HeaderText

def bytes : HeaderText → List UInt8
  | .field f => f.bytes
  | .continuation l => l.value.bytes

/-- What the parser stores for a line at the offset `pos`. -/
def header (pos : ℕ) : HeaderText → PhrHeader
  | .field f => ⟨some pos, f.name.length, pos + (f.name.length + 1 + f.blanks.length),
      f.value.text.length⟩
  | .continuation l => ⟨none, 0, pos, l.value.text.length⟩

def isField : HeaderText → Bool
  | .field _ => true
  | .continuation _ => false

/-- What the parser stores for lines from the offset `pos` on. -/
def headersAt (pos : ℕ) : List HeaderText → List PhrHeader
  | [] => []
  | l :: ls => l.header pos :: headersAt (pos + l.bytes.length) ls

end HeaderText

/-- A request up to its blank line. -/
structure RequestText where
  before : List UInt8
  method : List UInt8
  spaces : List UInt8
  path : List UInt8
  spaces' : List UInt8
  minorVersion : UInt8
  eol : List UInt8
  headers : List HeaderText
  last : List UInt8
  before_ok : before = [] ∨ LineEnd before
  method_ne : method ≠ []
  method_ok : ∀ b ∈ method, isTokenChar b = true
  spaces_ne : spaces ≠ []
  spaces_ok : ∀ b ∈ spaces, b = SP
  path_ne : path ≠ []
  path_ok : ∀ b ∈ path, b ≠ SP ∧ isCtl b = false
  spaces_ne' : spaces' ≠ []
  spaces_ok' : ∀ b ∈ spaces', b = SP
  minorVersion_ok : 48 ≤ minorVersion ∧ minorVersion ≤ 57
  eol_ok : LineEnd eol
  headers_ok : ∀ l ∈ headers.head?, l.isField = true
  last_ok : LineEnd last

/-- `HTTP/1.` -/
def httpVersion : List UInt8 := [72, 84, 84, 80, 47, 49, 46]

namespace RequestText

/-- The request line with its line end. -/
def line (t : RequestText) : List UInt8 :=
  t.method ++ t.spaces ++ t.path ++ t.spaces' ++ httpVersion ++ [t.minorVersion] ++ t.eol

def bytes (t : RequestText) : List UInt8 :=
  t.before ++ t.line ++ t.headers.flatMap HeaderText.bytes ++ t.last

/-- What the parser stores for a request at the offset `pos`. -/
def request (pos : ℕ) (t : RequestText) : PhrRequest where
  method := pos + t.before.length
  methodLen := t.method.length
  path := pos + (t.before ++ t.method ++ t.spaces).length
  pathLen := t.path.length
  minorVersion := t.minorVersion.toNat - 48
  headers := HeaderText.headersAt (pos + (t.before ++ t.line).length) t.headers

end RequestText

/-! ### Line ends and tokens -/

theorem failIf_reads (P : Prop) [Decidable P] :
    Reads (fun _ us _ _ => us = [] ∧ ¬P) (failIf P) := by
  refine (Reads.ite (Reads.fail _) (Reads.pure ())).congr fun pos us a rest => ?_
  by_cases hP : P <;> simp [hP]

theorem Reads.failIf_bind {β : Type} {G : Grammar UInt8 β} {q : Unit → Phr β} (P : Prop)
    [Decidable P] (hq : ∀ u, Reads G (q u)) :
    Reads (fun pos us b rest => ¬P ∧ G pos us b rest) (failIf P >>= q) := by
  refine (Reads.bind (failIf_reads P) hq).congr fun pos us b rest => ?_
  constructor
  · rintro ⟨us₁, us₂, _, rfl, ⟨rfl, hP⟩, h⟩
    exact ⟨hP, h⟩
  · rintro ⟨hP, h⟩
    exact ⟨[], us, (), rfl, ⟨rfl, hP⟩, h⟩

theorem expectChar_reads (ch : UInt8) : Reads (fun _ us _ _ => us = [ch]) (expectChar ch) := by
  refine (Reads.bind (Reads.next _) fun b => failIf_reads (b ≠ ch)).congr fun pos us a rest => ?_
  constructor
  · rintro ⟨us₁, us₂, b, rfl, rfl, rfl, hb⟩
    simpa using hb
  · rintro rfl
    exact ⟨[ch], [], ch, rfl, rfl, rfl, by simp⟩

theorem Reads.expectChar_bind {β : Type} {G : Grammar UInt8 β} {q : Unit → Phr β} (ch : UInt8)
    (hq : ∀ u, Reads G (q u)) : Reads (fun pos us b rest => ∃ us', us = ch :: us' ∧
      G (pos + 1) us' b rest) (expectChar ch >>= q) := by
  refine (Reads.bind (expectChar_reads ch) hq).congr fun pos us b rest => ?_
  constructor
  · rintro ⟨us₁, us₂, _, rfl, rfl, h⟩
    exact ⟨us₂, rfl, h⟩
  · rintro ⟨us', rfl, h⟩
    exact ⟨[ch], us', (), rfl, rfl, h⟩

theorem lineEnd_reads : Reads (fun _ us _ _ => LineEnd us) lineEnd := by
  refine (Reads.bind (Reads.next _) fun b =>
    Reads.ite (expectChar_reads LF) (failIf_reads (b ≠ LF))).congr fun pos us a rest => ?_
  constructor
  · rintro ⟨us₁, us₂, b, rfl, rfl, h⟩
    split_ifs at h with hb
    · rw [h, hb]
      exact Or.inl rfl
    · obtain ⟨rfl, hLF⟩ := h
      rw [not_not.mp hLF]
      exact Or.inr rfl
  · rintro (rfl | rfl)
    · exact ⟨[CR], [LF], CR, rfl, rfl, by simp⟩
    · exact ⟨[LF], [], LF, rfl, rfl, by simp [LF, CR]⟩

theorem LineEnd.head {us : List UInt8} (h : LineEnd us) :
    ∃ b bs, us = b :: bs ∧ (b = CR ∨ b = LF) := by
  rcases h with rfl | rfl
  · exact ⟨CR, [LF], rfl, Or.inl rfl⟩
  · exact ⟨LF, [], rfl, Or.inr rfl⟩

theorem LineEnd.ne_nil {us : List UInt8} (h : LineEnd us) : us ≠ [] := by
  obtain ⟨b, bs, rfl, -⟩ := h.head
  simp

theorem Value.bytes_ne (v : Value) : v.bytes ≠ [] := by
  simp [Value.bytes, v.eol_ok.ne_nil]

theorem parseToken_reads (ch : UInt8) : Reads (fun _ us a rest => a = us ∧
    (∀ u ∈ us, isTokenChar u = true ∧ u ≠ ch) ∧ ∃ ts, rest = ch :: ts) (parseToken ch) := by
  refine (Reads.scan _ _ _ _).congr fun pos us a rest => and_congr_right' (and_congr ?_ ?_)
  · refine forall₂_congr fun u _ => ?_
    simp only [beq_eq_false_iff_ne, Bool.not_eq_eq_eq_not, Bool.not_false]
    exact and_comm
  · simp

theorem advanceToken_reads : Reads (fun _ us a rest => a = us ∧
    (∀ u ∈ us, u ≠ SP ∧ isCtl u = false) ∧ ∃ ts, rest = SP :: ts) advanceToken := by
  refine (Reads.scan _ _ _ _).congr fun pos us a rest => and_congr_right' (and_congr ?_ ?_)
  · refine forall₂_congr fun u _ => ?_
    simp only [beq_eq_false_iff_ne]
  · simp

theorem skipSpaces_reads : Reads (fun _ us _ rest => (∃ b spaces, us = b :: spaces ∧
    ∀ s ∈ spaces, s = SP) ∧ ∃ t ts, rest = t :: ts ∧ t ≠ SP) skipSpaces := by
  refine (Reads.bind (Reads.next _) fun b => Reads.map (fun _ => ()) (Reads.scan _ _ _ _)).congr
    fun pos us a rest => ?_
  constructor
  · rintro ⟨_, _, b, rfl, rfl, spaces, ⟨rfl, hspaces, t, ts, rfl, ht⟩, -⟩
    refine ⟨⟨b, spaces, rfl, fun s hs => ?_⟩, t, ts, rfl, ?_⟩
    · simpa using (hspaces s hs).1
    · simpa using ht
  · rintro ⟨⟨b, spaces, rfl, hspaces⟩, t, ts, rfl, ht⟩
    refine ⟨[b], spaces, b, rfl, rfl, spaces, ⟨rfl, ?_, t, ts, rfl, ?_⟩, rfl⟩
    · intro s hs
      simp [hspaces s hs]
    · simpa using ht

theorem skipBlanks_reads : Reads (fun _ us _ rest => (∀ b ∈ us, isBlank b = true) ∧
    ∃ t ts, rest = t :: ts ∧ isBlank t = false) skipBlanks := by
  refine (Reads.map (fun _ => ()) (Reads.scan _ _ _ _)).congr fun pos us a rest => ?_
  constructor
  · rintro ⟨_, ⟨rfl, hblanks, t, ts, rfl, ht⟩, -⟩
    refine ⟨fun b hb => ?_, t, ts, rfl, ?_⟩
    · simpa using (hblanks b hb).1
    · simpa using ht
  · rintro ⟨hblanks, t, ts, rfl, ht⟩
    refine ⟨us, ⟨rfl, ?_, t, ts, rfl, ?_⟩, rfl⟩
    · intro b hb
      simp [hblanks b hb]
    · simp [ht]

/-! ### Values -/

theorem trimmedLen_append {text blanks : List UInt8} (hlast : ∀ b ∈ text.getLast?, isBlank b = false)
    (hblanks : ∀ b ∈ blanks, isBlank b = true) : trimmedLen (text ++ blanks) = text.length := by
  have hrev : ∀ b ∈ blanks.reverse, isBlank b = true := by simpa using hblanks
  rw [trimmedLen, List.reverse_append, List.dropWhile_append_of_pos hrev]
  cases hr : text.reverse with
  | nil =>
    have hnil : text = [] := List.reverse_eq_nil_iff.mp hr
    simp [hnil]
  | cons b bs =>
    have hb : text.getLast? = some b := by rw [List.getLast?_eq_head?_reverse, hr]; rfl
    have hlen : text.length = (b :: bs).length := by rw [← hr, List.length_reverse]
    rw [List.dropWhile_cons_of_neg (by simp [hlast b hb]), hlen]

/-- Every token is a text and blanks behind it. -/
theorem exists_trimmed (token : List UInt8) : ∃ text blanks, token = text ++ blanks ∧
    (∀ b ∈ text.getLast?, isBlank b = false) ∧ ∀ b ∈ blanks, isBlank b = true := by
  refine ⟨(token.reverse.dropWhile isBlank).reverse, (token.reverse.takeWhile isBlank).reverse,
    ?_, ?_, ?_⟩
  · rw [← List.reverse_append, List.takeWhile_append_dropWhile, List.reverse_reverse]
  · intro b hb
    rw [List.getLast?_reverse] at hb
    have := List.head?_dropWhile_not isBlank token.reverse
    rw [hb] at this
    simpa using this
  · intro b hb
    exact List.mem_takeWhile_imp (List.mem_reverse.mp hb)

theorem getTokenToEol_reads : Reads (fun pos us a _ => ∃ v : Value, us = v.bytes ∧
    a = (pos, v.text ++ v.blanks)) getTokenToEol := by
  refine (Reads.offset_bind fun start => Reads.bind (Reads.scan _ _ _ _) fun token =>
    Reads.map (fun _ => (start, token)) lineEnd_reads).congr fun pos us a rest => ?_
  constructor
  · rintro ⟨_, eol, token, rfl, ⟨rfl, htoken, -⟩, _, heol, rfl⟩
    obtain ⟨text, blanks, rfl, hlast, hblanks⟩ := exists_trimmed token
    refine ⟨⟨text, blanks, eol, ?_, hlast, hblanks, heol⟩, rfl, rfl⟩
    exact fun b hb => (htoken b (List.mem_append_left _ hb)).1
  · rintro ⟨v, rfl, rfl⟩
    obtain ⟨b, bs, heol, hb⟩ := v.eol_ok.head
    refine ⟨v.text ++ v.blanks, v.eol, v.text ++ v.blanks, rfl,
      ⟨rfl, ?_, b, bs ++ rest, by rw [heol]; rfl, ?_⟩, (), v.eol_ok, rfl⟩
    · intro u hu
      rcases List.mem_append.mp hu with hu | hu
      · exact ⟨v.text_ok u hu, rfl⟩
      · have hblank := v.blanks_ok u hu
        simp only [isBlank, Bool.or_eq_true, beq_iff_eq] at hblank
        rcases hblank with rfl | rfl <;> decide
    · rcases hb with rfl | rfl <;> decide

/-! ### Header lines -/

theorem Field.head (f : Field) : ∃ b bs, f.bytes = b :: bs ∧ isTokenChar b = true := by
  obtain ⟨b, bs, hname⟩ := List.exists_cons_of_ne_nil f.name_ne
  refine ⟨b, bs ++ 58 :: (f.blanks ++ f.value.bytes), by simp [Field.bytes, hname], ?_⟩
  exact f.name_ok b (by rw [hname]; exact List.mem_cons_self)

theorem headerName_reads (continuation : Bool) : Reads (fun pos us a rest =>
    if continuation = true then us = [] ∧ a = (none, 0)
    else ∃ name blanks, us = name ++ 58 :: blanks ∧ name ≠ [] ∧
      (∀ b ∈ name, isTokenChar b = true) ∧ (∀ b ∈ blanks, isBlank b = true) ∧
      (∃ t ts, rest = t :: ts ∧ isBlank t = false) ∧ a = (some pos, name.length))
    (headerName continuation) := by
  refine (Reads.ite (Reads.pure _) (Reads.offset_bind fun name =>
    Reads.bind (parseToken_reads 58) fun token => Reads.failIf_bind _ fun _ =>
    Reads.bind (Reads.next _) fun _ =>
    Reads.map (fun _ => (some name, token.length)) skipBlanks_reads)).congr fun pos us a rest => ?_
  by_cases hc : continuation = true
  · rw [if_pos hc, if_pos hc]
  rw [if_neg hc, if_neg hc]
  constructor
  · rintro ⟨_, _, token, rfl, ⟨rfl, htoken, ts, hcolon⟩, hlen, _, blanks, b, rfl, rfl, _,
      ⟨hblanks, hrest⟩, rfl⟩
    obtain rfl : b = 58 := (List.cons.inj hcolon).1
    exact ⟨token, blanks, rfl, fun h => hlen (by rw [h]; rfl), fun b hb => (htoken b hb).1,
      hblanks, hrest, rfl⟩
  · rintro ⟨name, blanks, rfl, hne, hname, hblanks, hrest, rfl⟩
    refine ⟨name, 58 :: blanks, name, rfl, ⟨rfl, fun b hb => ⟨hname b hb, ?_⟩, blanks ++ rest, rfl⟩,
      fun h => hne (List.length_eq_zero_iff.mp h), [58], blanks, 58, rfl, rfl, (),
      ⟨hblanks, hrest⟩, rfl⟩
    rintro rfl
    exact absurd (hname 58 hb) (by decide)

theorem headerLine_reads (continuation : Bool) : Reads (fun pos us a _ =>
    if continuation = true then ∃ v : Value, us = v.bytes ∧ a = ⟨none, 0, pos, v.text.length⟩
    else ∃ f : Field, us = f.bytes ∧ a = HeaderText.header pos (.field f))
    (headerLine continuation) := by
  refine (Reads.bind (headerName_reads continuation) fun name => Reads.map
    (fun value => (⟨name.1, name.2, value.1, trimmedLen value.2⟩ : PhrHeader))
    getTokenToEol_reads).congr fun pos us a rest => ?_
  by_cases hc : continuation = true
  · simp only [if_pos hc]
    constructor
    · rintro ⟨_, _, name, rfl, ⟨rfl, rfl⟩, value, ⟨v, rfl, rfl⟩, rfl⟩
      exact ⟨v, rfl, by rw [trimmedLen_append v.text_last v.blanks_ok]; rfl⟩
    · rintro ⟨v, rfl, rfl⟩
      exact ⟨[], v.bytes, (none, 0), rfl, ⟨rfl, rfl⟩, (pos, v.text ++ v.blanks), ⟨v, rfl, rfl⟩,
        by rw [trimmedLen_append v.text_last v.blanks_ok]⟩
  · simp only [if_neg hc]
    have hstart : ∀ name blanks : List UInt8,
        (name ++ 58 :: blanks).length = name.length + 1 + blanks.length := by
      intro name blanks
      rw [List.length_append, List.length_cons]
      omega
    constructor
    · rintro ⟨_, _, name, rfl, ⟨text, blanks, rfl, hne, hname, hblanks, ⟨t, ts, hrest, ht⟩, rfl⟩,
        value, ⟨v, rfl, rfl⟩, rfl⟩
      refine ⟨⟨text, blanks, v, hne, hname, hblanks, ?_⟩, by simp [Field.bytes], ?_⟩
      · intro b hb
        obtain ⟨bs, hv⟩ := List.head?_eq_some_iff.mp hb
        rw [hv] at hrest
        rw [(List.cons.inj hrest).1]
        exact ht
      · rw [hstart, trimmedLen_append v.text_last v.blanks_ok]
        rfl
    · rintro ⟨f, rfl, rfl⟩
      obtain ⟨b, bs, hv⟩ := List.exists_cons_of_ne_nil f.value.bytes_ne
      refine ⟨f.name ++ 58 :: f.blanks, f.value.bytes, (some pos, f.name.length),
        by simp [Field.bytes], ⟨f.name, f.blanks, rfl, f.name_ne, f.name_ok, f.blanks_ok,
        ⟨b, bs ++ rest, by rw [hv]; rfl, f.value_ok b (by rw [hv]; rfl)⟩, rfl⟩,
        (pos + (f.name ++ 58 :: f.blanks).length, f.value.text ++ f.value.blanks),
        ⟨f.value, rfl, rfl⟩, ?_⟩
      rw [hstart, trimmedLen_append f.value.text_last f.value.blanks_ok]
      rfl

theorem isTokenChar_start {b : UInt8} (h : isTokenChar b = true) :
    b ≠ CR ∧ b ≠ LF ∧ isBlank b = false := by
  refine ⟨?_, ?_, ?_⟩
  · rintro rfl
    exact absurd h (by decide)
  · rintro rfl
    exact absurd h (by decide)
  · simp only [isBlank, Bool.or_eq_false_iff, beq_eq_false_iff_ne]
    constructor
    · rintro rfl
      exact absurd h (by decide)
    · rintro rfl
      exact absurd h (by decide)

theorem isBlank_start {b : UInt8} (h : isBlank b = true) : b ≠ CR ∧ b ≠ LF := by
  simp only [isBlank, Bool.or_eq_true, beq_iff_eq] at h
  rcases h with rfl | rfl <;> decide

/-- The first byte of a line tells it from the blank line and a field from a continuation. -/
theorem HeaderText.head (l : HeaderText) :
    ∃ b bs, l.bytes = b :: bs ∧ ¬(b = CR ∨ b = LF) ∧ isBlank b = !l.isField := by
  cases l with
  | field f =>
    obtain ⟨b, bs, hbytes, hb⟩ := f.head
    obtain ⟨hCR, hLF, hblank⟩ := isTokenChar_start hb
    exact ⟨b, bs, hbytes, not_or.mpr ⟨hCR, hLF⟩, hblank⟩
  | continuation l =>
    obtain ⟨b, hb, hblank⟩ := l.value_ok
    obtain ⟨bs, hbytes⟩ := List.head?_eq_some_iff.mp hb
    obtain ⟨hCR, hLF⟩ := isBlank_start hblank
    exact ⟨b, bs, hbytes, not_or.mpr ⟨hCR, hLF⟩, hblank⟩

/-- The line at `b`, behind `headers`. -/
theorem line_iff {headers : List PhrHeader} {b : UInt8} {ts us rest : List UInt8} {pos : ℕ}
    {a : PhrHeader} (hb : us ++ rest = b :: ts) :
    (if (headers.length != 0 && isBlank b) = true
      then ∃ v : Value, us = v.bytes ∧ a = ⟨none, 0, pos, v.text.length⟩
      else ∃ f : Field, us = f.bytes ∧ a = HeaderText.header pos (.field f)) ↔
      ∃ l : HeaderText, us = l.bytes ∧ (headers = [] → l.isField = true) ∧ a = l.header pos := by
  constructor
  · intro h
    split_ifs at h with hc
    · obtain ⟨v, rfl, rfl⟩ := h
      obtain ⟨hne, hblank⟩ : headers ≠ [] ∧ isBlank b = true := by simpa using hc
      obtain ⟨c, cs, hv⟩ := List.exists_cons_of_ne_nil v.bytes_ne
      obtain rfl : c = b := by rw [hv] at hb; exact (List.cons.inj hb).1
      exact ⟨.continuation ⟨v, c, by rw [hv]; rfl, hblank⟩, rfl, fun h => absurd h hne, rfl⟩
    · obtain ⟨f, rfl, rfl⟩ := h
      exact ⟨.field f, rfl, fun _ => rfl, rfl⟩
  · rintro ⟨l, rfl, hfirst, rfl⟩
    obtain ⟨c, cs, hl, -, hblank⟩ := l.head
    obtain rfl : c = b := by rw [hl] at hb; exact (List.cons.inj hb).1
    cases l with
    | field f =>
      rw [if_neg (by simp [hblank, HeaderText.isField])]
      exact ⟨f, rfl, rfl⟩
    | continuation l =>
      have hne : headers ≠ [] := fun h => absurd (hfirst h) (by simp [HeaderText.isField])
      rw [if_pos (by simp [hblank, HeaderText.isField, hne])]
      exact ⟨l.value, rfl, rfl⟩

theorem blankLine_reads (headers : List PhrHeader) : Reads (fun _ us a _ => LineEnd us ∧ a = headers)
    (lineEnd >>= fun _ => (pure headers : Phr (List PhrHeader))) := by
  refine (Reads.map (fun _ => headers) lineEnd_reads).congr fun pos us a rest => ?_
  exact exists_const Unit

/-- Lines and the blank line behind them. -/
theorem parseHeaders_reads (room : ℕ) (headers : List PhrHeader) :
    Reads (fun pos us a _ => ∃ (ls : List HeaderText) (last : List UInt8),
      us = ls.flatMap HeaderText.bytes ++ last ∧ LineEnd last ∧ ls.length ≤ room ∧
      (headers = [] → ∀ l ∈ ls.head?, l.isField = true) ∧
      a = headers ++ HeaderText.headersAt pos ls) (parseHeaders room headers) := by
  induction room generalizing headers with
  | zero =>
    refine (Reads.peek_bind fun b => Reads.ite (P := b = CR ∨ b = LF) (blankLine_reads headers)
      (Reads.fail _)).congr fun pos us a rest => ?_
    constructor
    · rintro ⟨b, ts, -, h⟩
      split_ifs at h
      obtain ⟨heol, rfl⟩ := h
      exact ⟨[], us, rfl, heol, Nat.zero_le _, by simp, by simp [HeaderText.headersAt]⟩
    · rintro ⟨ls, last, rfl, heol, hlen, -, rfl⟩
      obtain rfl : ls = [] := List.length_eq_zero_iff.mp (Nat.le_zero.mp hlen)
      obtain ⟨b, bs, rfl, hb⟩ := heol.head
      refine ⟨b, bs ++ rest, rfl, ?_⟩
      rw [if_pos hb]
      exact ⟨heol, by simp [HeaderText.headersAt]⟩
  | succ room ih =>
    refine (Reads.peek_bind fun b => Reads.ite (P := b = CR ∨ b = LF) (blankLine_reads headers)
      (Reads.bind (headerLine_reads _) fun header => ih (headers ++ [header]))).congr
      fun pos us a rest => ?_
    constructor
    · rintro ⟨b, ts, hb, h⟩
      by_cases hend : b = CR ∨ b = LF
      · rw [if_pos hend] at h
        obtain ⟨heol, rfl⟩ := h
        exact ⟨[], us, rfl, heol, Nat.zero_le _, by simp, by simp [HeaderText.headersAt]⟩
      · rw [if_neg hend] at h
        obtain ⟨us₁, _, header, rfl, hline, ls, last, rfl, heol, hlen, -, rfl⟩ := h
        rw [List.append_assoc] at hb
        obtain ⟨l, rfl, hfirst, rfl⟩ := (line_iff hb).mp hline
        refine ⟨l :: ls, last, by simp, heol, Nat.succ_le_succ hlen, ?_, ?_⟩
        · intro hnil x hx
          obtain rfl : l = x := by simpa using hx
          exact hfirst hnil
        · simp [HeaderText.headersAt]
    · rintro ⟨ls, last, rfl, heol, hlen, hfirst, rfl⟩
      cases ls with
      | nil =>
        obtain ⟨b, bs, rfl, hb⟩ := heol.head
        refine ⟨b, bs ++ rest, rfl, ?_⟩
        rw [if_pos hb]
        exact ⟨heol, by simp [HeaderText.headersAt]⟩
      | cons l ls =>
        obtain ⟨b, bs, hl, hend, -⟩ := l.head
        have hat : l.bytes ++ (ls.flatMap HeaderText.bytes ++ last ++ rest) =
            b :: (bs ++ (ls.flatMap HeaderText.bytes ++ last ++ rest)) := by rw [hl]; rfl
        refine ⟨b, _, by rw [← hat]; simp, ?_⟩
        rw [if_neg hend]
        refine ⟨l.bytes, ls.flatMap HeaderText.bytes ++ last, l.header pos, by simp, ?_,
          ls, last, rfl, heol, Nat.le_of_succ_le_succ hlen, by simp, by simp [HeaderText.headersAt]⟩
        exact (line_iff hat).mpr ⟨l, rfl, fun hnil => hfirst hnil l rfl, rfl⟩

/-! ### Requests -/

theorem skipEmptyLine_reads : Reads (fun _ us _ rest => LineEnd us ∨
    us = [] ∧ ∃ b ts, rest = b :: ts ∧ b ≠ CR ∧ b ≠ LF) skipEmptyLine := by
  refine (Reads.peek_bind fun b => Reads.ite (P := b = CR ∨ b = LF) lineEnd_reads
    (Reads.pure ())).congr fun pos us a rest => ?_
  constructor
  · rintro ⟨b, ts, hb, h⟩
    split_ifs at h with hend
    · exact Or.inl h
    · obtain ⟨rfl, -⟩ := h
      exact Or.inr ⟨rfl, b, ts, hb, not_or.mp hend⟩
  · rintro (heol | ⟨rfl, b, ts, rfl, hb⟩)
    · obtain ⟨b, bs, rfl, hb⟩ := heol.head
      exact ⟨b, bs ++ rest, rfl, by rw [if_pos hb]; exact heol⟩
    · exact ⟨b, ts, rfl, by rw [if_neg (not_or.mpr hb)]; exact ⟨rfl, rfl⟩⟩

theorem parseInt_reads : Reads (fun _ us a _ => ∃ b : UInt8, us = [b] ∧ (48 ≤ b ∧ b ≤ 57) ∧
    a = b.toNat - 48) parseInt := by
  refine (Reads.bind (Reads.next _) fun b => Reads.failIf_bind (b < 48 ∨ 57 < b) fun _ =>
    Reads.pure (b.toNat - 48)).congr fun pos us a rest => ?_
  constructor
  · rintro ⟨_, _, b, rfl, rfl, hb, rfl, rfl⟩
    rw [not_or, UInt8.not_lt, UInt8.not_lt] at hb
    exact ⟨b, rfl, hb, rfl⟩
  · rintro ⟨b, rfl, hb, rfl⟩
    rw [← UInt8.not_lt, ← UInt8.not_lt, ← not_or] at hb
    exact ⟨[b], [], b, rfl, rfl, hb, rfl, rfl⟩

/-- One more byte than the version has to be there. -/
theorem parseHttpVersion_reads : Reads (fun _ us a rest => ∃ b : UInt8, us = httpVersion ++ [b] ∧
    (48 ≤ b ∧ b ≤ 57) ∧ a = b.toNat - 48 ∧ rest ≠ []) parseHttpVersion := by
  refine (Reads.bind (Reads.need _ 9) fun _ => Reads.expectChar_bind 72 fun _ =>
    Reads.expectChar_bind 84 fun _ => Reads.expectChar_bind 84 fun _ =>
    Reads.expectChar_bind 80 fun _ => Reads.expectChar_bind 47 fun _ =>
    Reads.expectChar_bind 49 fun _ => Reads.expectChar_bind 46 fun _ =>
    parseInt_reads).congr fun pos us a rest => ?_
  constructor
  · rintro ⟨_, _, _, rfl, ⟨rfl, hlen⟩, _, rfl, _, rfl, _, rfl, _, rfl, _, rfl, _, rfl, _, rfl,
      b, rfl, hb, rfl⟩
    refine ⟨b, rfl, hb, rfl, ?_⟩
    rintro rfl
    simp at hlen
  · rintro ⟨b, rfl, hb, rfl, hne⟩
    have hlen := List.length_pos_iff.mpr hne
    refine ⟨[], _, (), rfl, ⟨rfl, ?_⟩, _, rfl, _, rfl, _, rfl, _, rfl, _, rfl, _, rfl, _, rfl,
      b, rfl, hb, rfl⟩
    show 9 ≤ (httpVersion ++ [b] ++ rest).length
    simp only [httpVersion, List.length_append, List.length_cons, List.length_nil]
    omega

theorem spaces_cons {spaces : List UInt8} (hne : spaces ≠ []) (h : ∀ b ∈ spaces, b = SP) :
    ∃ ss, spaces = SP :: ss ∧ ∀ s ∈ ss, s = SP := by
  obtain ⟨b, ss, rfl⟩ := List.exists_cons_of_ne_nil hne
  obtain rfl : b = SP := h b List.mem_cons_self
  exact ⟨ss, rfl, fun s hs => h s (List.mem_cons_of_mem _ hs)⟩

theorem starts_with {us us' : List UInt8} {b : UInt8} (h : us = b :: us') (more rest : List UInt8) :
    ∃ ts, us ++ more ++ rest = b :: ts := ⟨us' ++ more ++ rest, by rw [h]; rfl⟩

/-- From the version on. -/
theorem versionAndHeaders_reads (method methodLen path pathLen maxHeaders : ℕ) :
    Reads (fun pos us a _ => ∃ (v : UInt8) (eol : List UInt8) (ls : List HeaderText)
      (last : List UInt8), us = httpVersion ++ [v] ++ eol ++ ls.flatMap HeaderText.bytes ++ last ∧
        (48 ≤ v ∧ v ≤ 57) ∧ LineEnd eol ∧ LineEnd last ∧ ls.length ≤ maxHeaders ∧
        (∀ l ∈ ls.head?, l.isField = true) ∧
        a = ⟨method, methodLen, path, pathLen, v.toNat - 48,
          HeaderText.headersAt (pos + (httpVersion ++ [v] ++ eol).length) ls⟩)
      (parseHttpVersion >>= fun minorVersion => lineEnd >>= fun _ =>
        parseHeaders maxHeaders [] >>= fun headers =>
          (pure ⟨method, methodLen, path, pathLen, minorVersion, headers⟩ : Phr PhrRequest)) := by
  refine (Reads.bind parseHttpVersion_reads fun minorVersion => Reads.bind lineEnd_reads fun _ =>
    Reads.map (fun headers => (⟨method, methodLen, path, pathLen, minorVersion, headers⟩ : PhrRequest))
      (parseHeaders_reads maxHeaders [])).congr fun pos us a rest => ?_
  constructor
  · rintro ⟨_, _, _, rfl, ⟨v, rfl, hv, rfl, -⟩, eol, _, _, rfl, heol, _,
      ⟨ls, last, rfl, hlast, hlen, hfirst, rfl⟩, rfl⟩
    refine ⟨v, eol, ls, last, by simp, hv, heol, hlast, hlen, hfirst rfl, ?_⟩
    simp only [List.length_append, List.nil_append, Nat.add_assoc]
  · rintro ⟨v, eol, ls, last, rfl, hv, heol, hlast, hlen, hfirst, rfl⟩
    refine ⟨httpVersion ++ [v], _, _, ?_, ⟨v, rfl, hv, rfl, ?_⟩, eol, _, (), rfl, heol, _,
      ⟨ls, last, rfl, hlast, hlen, fun _ => hfirst, rfl⟩, ?_⟩
    · simp only [List.append_assoc]
    · simp [heol.ne_nil]
    · simp only [List.length_append, List.nil_append, Nat.add_assoc]

theorem parseRequest_reads (maxHeaders : ℕ) : Reads (fun pos us a _ => ∃ t : RequestText,
    us = t.bytes ∧ t.headers.length ≤ maxHeaders ∧ a = t.request pos) (parseRequest maxHeaders) := by
  refine (Reads.bind skipEmptyLine_reads fun _ => Reads.offset_bind fun method =>
    Reads.bind (parseToken_reads SP) fun methodToken => Reads.bind skipSpaces_reads fun _ =>
    Reads.offset_bind fun path => Reads.bind advanceToken_reads fun pathToken =>
    Reads.bind skipSpaces_reads fun _ => Reads.failIf_bind _ fun _ =>
    versionAndHeaders_reads method methodToken.length path pathToken.length maxHeaders).congr
      fun pos us a rest => ?_
  constructor
  · rintro ⟨before, _, _, rfl, hbefore, _, _, methodToken, rfl, ⟨rfl, hmethod, _, hSP⟩,
      _, _, _, rfl, ⟨⟨b, spaces, rfl, hspaces⟩, -⟩, _, _, pathToken, rfl, ⟨rfl, hpath, _, hSP'⟩,
      _, _, _, rfl, ⟨⟨b', spaces', rfl, hspaces'⟩, -⟩, hne, v, eol, ls, last, rfl, hv, heol, hlast,
      hlen, hfirst, rfl⟩
    rw [not_or, List.length_eq_zero_iff, List.length_eq_zero_iff] at hne
    obtain rfl : b = SP := (List.cons.inj hSP).1
    obtain rfl : b' = SP := (List.cons.inj hSP').1
    refine ⟨⟨before, methodToken, SP :: spaces, pathToken, SP :: spaces', v, eol, ls, last, ?_,
      hne.1, fun u hu => (hmethod u hu).1, by simp, ?_, hne.2, hpath, by simp, ?_, hv, heol,
      hfirst, hlast⟩, ?_, hlen, ?_⟩
    · exact hbefore.elim Or.inr fun h => Or.inl h.1
    · simpa using hspaces
    · simpa using hspaces'
    · simp [RequestText.bytes, RequestText.line]
    · simp only [RequestText.request, RequestText.line, List.length_append, Nat.add_assoc]
  · rintro ⟨t, rfl, hlen, rfl⟩
    obtain ⟨m, ms, hm⟩ := List.exists_cons_of_ne_nil t.method_ne
    obtain ⟨p, ps, hp⟩ := List.exists_cons_of_ne_nil t.path_ne
    obtain ⟨ss, hs, hss⟩ := spaces_cons t.spaces_ne t.spaces_ok
    obtain ⟨ss', hs', hss'⟩ := spaces_cons t.spaces_ne' t.spaces_ok'
    have hmstart := isTokenChar_start (t.method_ok m (by simp [hm]))
    have hpstart := t.path_ok p (by simp [hp])
    refine ⟨t.before, _, (), ?_, ?_, t.method, _, _, rfl, ⟨rfl, ?_, ?_⟩, t.spaces, _, (), rfl,
      ⟨⟨SP, ss, hs, hss⟩, ?_⟩, t.path, _, _, rfl, ⟨rfl, t.path_ok, ?_⟩, t.spaces', _, (), rfl,
      ⟨⟨SP, ss', hs', hss'⟩, ?_⟩, ?_, t.minorVersion, t.eol, t.headers, t.last, rfl,
      t.minorVersion_ok, t.eol_ok, t.last_ok, hlen, t.headers_ok, ?_⟩
    · simp only [RequestText.bytes, RequestText.line, List.append_assoc]
    · obtain ⟨ts, hts⟩ := starts_with hm _ rest
      exact t.before_ok.elim (fun h => Or.inr ⟨h, m, ts, hts, hmstart.1, hmstart.2.1⟩) Or.inl
    · intro u hu
      refine ⟨t.method_ok u hu, ?_⟩
      rintro rfl
      exact absurd (t.method_ok SP hu) (by decide)
    · exact starts_with hs _ rest
    · obtain ⟨ts, hts⟩ := starts_with hp _ rest
      exact ⟨p, ts, hts, hpstart.1⟩
    · exact starts_with hs' _ rest
    · exact ⟨72, _, rfl, by decide⟩
    · simp [hm, hp]
    · simp only [RequestText.request, RequestText.line, List.length_append, Nat.add_assoc]

/-- `phr_parse_request` succeeds exactly if the buffer starts with a request of at most `maxHeaders`
header lines. -/
theorem phrParseRequest_ok_iff (buf : List UInt8) (maxHeaders pos : ℕ) (request : PhrRequest) :
    phrParseRequest buf maxHeaders 0 = .ok (pos, request) ↔
      ∃ t : RequestText, t.headers.length ≤ maxHeaders ∧ t.bytes <+: buf ∧
        pos = t.bytes.length ∧ request = t.request 0 := by
  constructor
  · intro h
    obtain ⟨c, hrun, rfl⟩ := run_of_phrParseRequest h
    obtain ⟨_, ⟨hbuf, hpos⟩, t, rfl, hlen, rfl⟩ := (parseRequest_reads maxHeaders _ _ _).mp hrun
    exact ⟨t, hlen, ⟨c.rest, hbuf.symm⟩, by simpa using hpos, rfl⟩
  · rintro ⟨t, hlen, ⟨rest, rfl⟩, rfl, rfl⟩
    have hrun : (parseRequest maxHeaders).run ⟨0, t.bytes ++ rest⟩ =
        .ok (t.request 0, ⟨t.bytes.length, rest⟩) :=
      (parseRequest_reads maxHeaders _ _ _).mpr
        ⟨t.bytes, ⟨rfl, (Nat.zero_add _).symm⟩, t, rfl, hlen, rfl⟩
    rw [phrParseRequest_zero, hrun]
    rfl

/-- **The accepted texts.**  On a buffer whose length is an `int`, `phr_parse_request` succeeds
exactly if the buffer starts with a request of at most `maxHeaders` header lines, and then the `int`
it returns is the length of the request and it stores what the request says; a proper piece of such
a request is partial. -/
theorem phrParseRequest_exact (buf : List UInt8) (hbuf : buf.length < 2 ^ 31) (maxHeaders : ℕ) :
    (∀ (ret : ℤ) request,
      (∃ pos : ℕ, phrParseRequest buf maxHeaders 0 = .ok (pos, request) ∧ toInt32 pos = ret) ↔
      ∃ t : RequestText, t.headers.length ≤ maxHeaders ∧ t.bytes <+: buf ∧
        ret = t.bytes.length ∧ request = t.request 0) ∧
    ∀ t : RequestText, t.headers.length ≤ maxHeaders → buf <+: t.bytes → buf ≠ t.bytes →
      phrParseRequest buf maxHeaders 0 = .error (-2) := by
  refine ⟨fun ret request => ?_, fun t hlen ⟨more, hmore⟩ hne => ?_⟩
  · constructor
    · rintro ⟨pos, hok, rfl⟩
      obtain ⟨t, hlen, hpre, rfl, hrequest⟩ := (phrParseRequest_ok_iff buf maxHeaders _ _).mp hok
      exact ⟨t, hlen, hpre, toInt32_natCast (hpre.length_le.trans_lt hbuf), hrequest⟩
    · rintro ⟨t, hlen, hpre, rfl, hrequest⟩
      refine ⟨t.bytes.length, ?_, toInt32_natCast (hpre.length_le.trans_lt hbuf)⟩
      exact (phrParseRequest_ok_iff buf maxHeaders _ _).mpr ⟨t, hlen, hpre, rfl, hrequest⟩
  · have hok : phrParseRequest (buf ++ more) maxHeaders 0 =
        .ok ((buf ++ more).length, t.request 0) := by
      rw [hmore]
      exact (phrParseRequest_ok_iff t.bytes _ _ _).mpr ⟨t, hlen, List.prefix_rfl, rfl, rfl⟩
    refine phrParseRequest_piece hok ?_
    rintro rfl
    exact hne (by rw [← hmore, List.append_nil])

/-- `GET / HTTP/1.1` and an empty line. -/
theorem phrParseRequest_exact_get : let buf : List UInt8 :=
      [71, 69, 84, 32, 47, 32, 72, 84, 84, 80, 47, 49, 46, 49, 13, 10, 13, 10]
    (∀ (ret : ℤ) request,
      (∃ pos : ℕ, phrParseRequest buf 100 0 = .ok (pos, request) ∧ toInt32 pos = ret) ↔
      ∃ t : RequestText, t.headers.length ≤ 100 ∧ t.bytes <+: buf ∧
        ret = t.bytes.length ∧ request = t.request 0) ∧
    ∀ t : RequestText, t.headers.length ≤ 100 → buf <+: t.bytes → buf ≠ t.bytes →
      phrParseRequest buf 100 0 = .error (-2) :=
  phrParseRequest_exact _ (by decide) 100

end Ruru.Http
