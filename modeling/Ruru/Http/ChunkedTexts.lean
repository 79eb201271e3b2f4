import Ruru.Http.Chunked

/-!
# Ruru.Http.ChunkedTexts — the texts of the chunked encoding

A chunk is the line with its size in hexadecimal, data of that size and a line end; the last size is
zero, and a trailer may follow.  Fed with such a text, in whatever pieces, the decoder gives the data
of the text and stops exactly at its end; it stops nowhere else.
-/

namespace Ruru.Http

open Memory

/-! ### Texts -/

/-- The number that digits behind the number `n` make of it. -/
def hexFrom (n : ℕ) (ds : List UInt8) : ℕ := ds.foldl (fun n b => n * 16 + (decodeHex b).getD 0) n

/-- The line that gives the size `n`, with an extension behind it. -/
structure SizeLine (n : ℕ) where
  digits : List UInt8
  ext : List UInt8
  digits_ne : digits ≠ []
  digits_le : digits.length ≤ 16
  digits_ok : ∀ b ∈ digits, decodeHex b ≠ none
  value : hexFrom 0 digits = n
  ext_start : ∀ b ∈ ext.head?, decodeHex b = none
  ext_ok : LF ∉ ext

def SizeLine.bytes {n : ℕ} (l : SizeLine n) : List UInt8 := l.digits ++ (l.ext ++ [LF])

/-- A chunk; any number of CRs may stand before the LF behind its data. -/
structure Chunk where
  data : List UInt8
  size : SizeLine data.length
  crs : ℕ
  data_ne : data ≠ []

def Chunk.bytes (c : Chunk) : List UInt8 :=
  c.size.bytes ++ (c.data ++ (List.replicate c.crs CR ++ [LF]))

/-- Lines that are not empty, and an empty one. -/
inductive Trailer : List UInt8 → Prop
  | last (crs : ℕ) : Trailer (List.replicate crs CR ++ [LF])
  | line {crs : ℕ} {b : UInt8} {us rest : List UInt8} (hCR : b ≠ CR) (hLF : b ≠ LF) (hus : LF ∉ us)
      (h : Trailer rest) : Trailer (List.replicate crs CR ++ b :: (us ++ LF :: rest))

/-- A text of the chunked encoding; the trailer belongs to it if the decoder is to consume it. -/
structure ChunkedText (consumeTrailer : Bool) where
  chunks : List Chunk
  last : SizeLine 0
  trailer : List UInt8
  trailer_ok : if consumeTrailer then Trailer trailer else trailer = []

namespace ChunkedText

variable {consumeTrailer : Bool}

def bytes (t : ChunkedText consumeTrailer) : List UInt8 :=
  t.chunks.flatMap Chunk.bytes ++ (t.last.bytes ++ t.trailer)

def data (t : ChunkedText consumeTrailer) : List UInt8 := t.chunks.flatMap (·.data)

end ChunkedText

/-! ### Decoding a text -/

/-- A decoder that is at the start of a chunk. -/
def atChunk (consumeTrailer : Bool) : PhrChunkedDecoder := ⟨0, consumeTrailer, 0, .inChunkSize⟩

theorem decodeHex_lt {b : UInt8} {x : ℕ} (h : decodeHex b = some x) : x < 16 := by
  unfold decodeHex at h
  simp only [UInt8.le_iff_toNat_le, UInt8.reduceToNat] at h
  split_ifs at h <;> cases h <;> omega

theorem byte_digit {ct : Bool} {n k x : ℕ} {b : UInt8} (hx : decodeHex b = some x)
    (hn : n < 16 ^ k) (hk : k < 16) : (⟨n, ct, k, .inChunkSize⟩ : PhrChunkedDecoder).byte b =
      .going ⟨n * 16 + x, ct, k + 1, .inChunkSize⟩ [] := by
  have hx16 := decodeHex_lt hx
  have hpow : 16 ^ (k + 1) ≤ 16 ^ 16 := Nat.pow_le_pow_right (by decide) hk
  have hlt : n * 16 + x < 2 ^ 64 := by
    rw [Nat.pow_succ] at hpow
    omega
  simp only [PhrChunkedDecoder.byte, hx, if_neg (Nat.ne_of_lt hk), PhrChunkedDecoder.digit,
    Nat.mod_eq_of_lt hlt]

/-- Digits of a size, in front of what follows them. -/
theorem decodeBytes_digits {ct : Bool} {n k : ℕ} (hn : n < 16 ^ k) {ds : List UInt8}
    (hds : ∀ b ∈ ds, decodeHex b ≠ none) (hk : k + ds.length ≤ 16) (rest : List UInt8) :
    decodeBytes ⟨n, ct, k, .inChunkSize⟩ (ds ++ rest) =
      decodeBytes ⟨hexFrom n ds, ct, k + ds.length, .inChunkSize⟩ rest := by
  induction ds generalizing n k with
  | nil => rfl
  | cons b ds ih =>
    obtain ⟨x, hx⟩ := Option.ne_none_iff_exists'.mp (hds b List.mem_cons_self)
    rw [List.length_cons] at hk
    have hstep : n * 16 + x < 16 ^ (k + 1) := by
      have := decodeHex_lt hx
      rw [Nat.pow_succ]
      omega
    have hfrom : hexFrom n (b :: ds) = hexFrom (n * 16 + x) ds := by
      rw [hexFrom, List.foldl_cons, hx]
      rfl
    have hlen : k + (b :: ds).length = k + 1 + ds.length := by rw [List.length_cons]; omega
    rw [List.cons_append, decodeBytes_going (byte_digit hx hn (by omega)), Decoded.behind_nil,
      ih hstep (fun b' hb' => hds b' (List.mem_cons_of_mem _ hb')) (by omega), hfrom, hlen]

/-- What the end of a size line leads to. -/
def afterSize (ct : Bool) (n : ℕ) (rest : List UInt8) : Decoded :=
  if n ≠ 0 then decodeBytes ⟨n, ct, 0, .inChunkData⟩ rest
  else if ct then decodeBytes ⟨0, ct, 0, .inTrailersLineHead⟩ rest
  else ⟨⟨0, ct, 0, .inChunkExt⟩, [], rest.length, rest⟩

theorem decodeBytes_ext_end {ct : Bool} {n : ℕ} {us : List UInt8} (hus : LF ∉ us)
    (rest : List UInt8) :
    decodeBytes ⟨n, ct, 0, .inChunkExt⟩ (us ++ LF :: rest) = afterSize ct n rest := by
  have hstay : ∀ b ∈ us, (⟨n, ct, 0, .inChunkExt⟩ : PhrChunkedDecoder).byte b =
      .going ⟨n, ct, 0, .inChunkExt⟩ [] := by
    intro b hb
    refine if_pos ?_
    rintro rfl
    exact hus hb
  rw [decodeBytes_stay hstay]
  have hbyte : (⟨n, ct, 0, .inChunkExt⟩ : PhrChunkedDecoder).byte LF =
      if n ≠ 0 then .going ⟨n, ct, 0, .inChunkData⟩ []
      else if ct then .going ⟨n, ct, 0, .inTrailersLineHead⟩ []
      else .done ⟨n, ct, 0, .inChunkExt⟩ := by
    simp [PhrChunkedDecoder.byte, PhrChunkedDecoder.ext]
  unfold afterSize
  by_cases hn : n = 0
  · subst hn
    cases ct with
    | true => rw [decodeBytes_going hbyte]; rfl
    | false => rw [decodeBytes_done hbyte]; rfl
  · rw [if_pos hn] at hbyte
    rw [if_pos hn, decodeBytes_going hbyte]
    rfl

/-- Behind the digits, the decoder is in the extension. -/
theorem decodeBytes_digits_end {ct : Bool} {n k : ℕ} (hk : k ≠ 0) {b : UInt8}
    (hb : decodeHex b = none) (bs : List UInt8) :
    decodeBytes ⟨n, ct, k, .inChunkSize⟩ (b :: bs) =
      decodeBytes ⟨n, ct, 0, .inChunkExt⟩ (b :: bs) := by
  have hsize : (⟨n, ct, k, .inChunkSize⟩ : PhrChunkedDecoder).byte b =
      (⟨n, ct, 0, .inChunkExt⟩ : PhrChunkedDecoder).ext b := by
    simp only [PhrChunkedDecoder.byte, hb, if_neg hk]
    rfl
  exact decodeBytes_ext hsize rfl bs

theorem decodeBytes_sizeLine {ct : Bool} {n : ℕ} (l : SizeLine n) (rest : List UInt8) :
    decodeBytes (atChunk ct) (l.bytes ++ rest) = afterSize ct n rest := by
  have hk : l.digits.length ≠ 0 := fun h => l.digits_ne (List.length_eq_zero_iff.mp h)
  have hdigits : decodeBytes (atChunk ct) (l.bytes ++ rest) =
      decodeBytes ⟨n, ct, l.digits.length, .inChunkSize⟩ (l.ext ++ LF :: rest) := by
    have h := @decodeBytes_digits ct 0 0 (by decide) l.digits l.digits_ok
      (by rw [Nat.zero_add]; exact l.digits_le) (l.ext ++ LF :: rest)
    rw [l.value, Nat.zero_add] at h
    rw [← h]
    simp [SizeLine.bytes, atChunk]
  rw [hdigits, ← decodeBytes_ext_end l.ext_ok rest]
  cases hext : l.ext with
  | nil => exact decodeBytes_digits_end hk (by decide) rest
  | cons b us => exact decodeBytes_digits_end hk (l.ext_start b (by rw [hext]; rfl)) _

theorem decodeBytes_crs {ct : Bool} (crs : ℕ) (rest : List UInt8) :
    decodeBytes ⟨0, ct, 0, .inChunkCrlf⟩ (List.replicate crs CR ++ LF :: rest) =
      decodeBytes (atChunk ct) rest := by
  have hLF : (⟨0, ct, 0, .inChunkCrlf⟩ : PhrChunkedDecoder).byte LF = .going (atChunk ct) [] := rfl
  rw [decodeBytes_stay fun b hb => by rw [List.eq_of_mem_replicate hb]; rfl]
  exact decodeBytes_going hLF rest

theorem decodeBytes_chunk {ct : Bool} (c : Chunk) (rest : List UInt8) :
    decodeBytes (atChunk ct) (c.bytes ++ rest) = (decodeBytes (atChunk ct) rest).behind c.data := by
  have hne : c.data.length ≠ 0 := fun h => c.data_ne (List.length_eq_zero_iff.mp h)
  have hbytes : c.bytes ++ rest =
      c.size.bytes ++ (c.data ++ (List.replicate c.crs CR ++ LF :: rest)) := by simp [Chunk.bytes]
  rw [hbytes, decodeBytes_sizeLine, afterSize, if_pos hne, decodeBytes_data rfl c.data_ne
    (le_refl _), PhrChunkedDecoder.took, if_pos rfl, decodeBytes_crs]

theorem decodeBytes_trailer {ct : Bool} {trailer : List UInt8} (h : Trailer trailer)
    (rest : List UInt8) : decodeBytes ⟨0, ct, 0, .inTrailersLineHead⟩ (trailer ++ rest) =
      ⟨⟨0, ct, 0, .inTrailersLineHead⟩, [], rest.length, rest⟩ := by
  induction h with
  | last crs =>
    rw [List.append_assoc, decodeBytes_stay fun b hb => by rw [List.eq_of_mem_replicate hb]; rfl]
    exact decodeBytes_done rfl rest
  | @line crs b us more hCR hLF hus h ih =>
    have hb : (⟨0, ct, 0, .inTrailersLineHead⟩ : PhrChunkedDecoder).byte b =
        .going ⟨0, ct, 0, .inTrailersLineMiddle⟩ [] := by
      simp only [PhrChunkedDecoder.byte, if_neg hCR, if_neg hLF]
    have hstay : ∀ u ∈ us, (⟨0, ct, 0, .inTrailersLineMiddle⟩ : PhrChunkedDecoder).byte u =
        .going ⟨0, ct, 0, .inTrailersLineMiddle⟩ [] := by
      intro u hu
      refine if_neg ?_
      rintro rfl
      exact hus hu
    rw [List.append_assoc, decodeBytes_stay fun b hb => by rw [List.eq_of_mem_replicate hb]; rfl,
      List.cons_append, decodeBytes_going hb, List.append_assoc, decodeBytes_stay hstay,
      List.cons_append, decodeBytes_going (b := LF) rfl]
    exact ih

theorem decodeBytes_text {ct : Bool} (t : ChunkedText ct) (rest : List UInt8) :
    ∃ d, decodeBytes (atChunk ct) (t.bytes ++ rest) = ⟨d, t.data, rest.length, rest⟩ := by
  have hlast : ∃ d, decodeBytes (atChunk ct) (t.last.bytes ++ (t.trailer ++ rest)) =
      ⟨d, [], rest.length, rest⟩ := by
    rw [decodeBytes_sizeLine, afterSize, if_neg (by simp)]
    have htrailer := t.trailer_ok
    cases ct with
    | true => exact ⟨_, decodeBytes_trailer htrailer rest⟩
    | false =>
      have hnil : t.trailer = [] := htrailer
      exact ⟨_, by rw [hnil]; rfl⟩
  obtain ⟨d, hlast⟩ := hlast
  refine ⟨d, ?_⟩
  have hbytes : t.bytes ++ rest =
      t.chunks.flatMap Chunk.bytes ++ (t.last.bytes ++ (t.trailer ++ rest)) := by
    simp [ChunkedText.bytes]
  rw [hbytes, ChunkedText.data]
  induction t.chunks with
  | nil => exact hlast
  | cons c cs ih =>
    rw [List.flatMap_cons, List.append_assoc, decodeBytes_chunk, ih]
    rfl

/-! ### Every end is that of a text -/

/-- The bytes bring the end, with this data before it and these bytes behind it. -/
def Ends (d : PhrChunkedDecoder) (bs data left : List UInt8) : Prop :=
  ∃ d', decodeBytes d bs = ⟨d', data, left.length, left⟩

section Ends

variable {d d' : PhrChunkedDecoder} {b : UInt8} {bs data left : List UInt8}

theorem not_ends_nil : ¬Ends d [] data left := by
  rintro ⟨e, h⟩
  have hret : (-2 : ℤ) = left.length := congrArg Decoded.ret h
  omega

theorem ends_going (hb : d.byte b = .going d' []) :
    Ends d (b :: bs) data left ↔ Ends d' bs data left := by
  unfold Ends
  rw [decodeBytes_going hb, Decoded.behind_nil]

theorem not_ends_invalid (hb : d.byte b = .invalid) : ¬Ends d (b :: bs) data left := by
  rintro ⟨e, h⟩
  rw [decodeBytes_invalid hb] at h
  have hret : (-1 : ℤ) = left.length := congrArg Decoded.ret h
  omega

theorem ends_done (hb : d.byte b = .done d') :
    Ends d (b :: bs) data left ↔ data = [] ∧ left = bs := by
  unfold Ends
  rw [decodeBytes_done hb]
  constructor
  · rintro ⟨e, h⟩
    exact ⟨(congrArg Decoded.data h).symm, (congrArg Decoded.left h).symm⟩
  · rintro ⟨rfl, rfl⟩
    exact ⟨d', rfl⟩

theorem Ends.unbehind {more : List UInt8}
    (h : ∃ e, (decodeBytes d bs).behind more = ⟨e, data, left.length, left⟩) :
    ∃ rest, data = more ++ rest ∧ Ends d bs rest left := by
  obtain ⟨e, h⟩ := h
  cases hr : decodeBytes d bs with
  | mk e' rest ret left' =>
    rw [hr] at h
    obtain ⟨rfl, rfl, rfl, rfl⟩ : e' = e ∧ more ++ rest = data ∧ ret = left.length ∧ left' = left := by
      simpa [Decoded.behind] using h
    exact ⟨rest, rfl, e', hr⟩

end Ends

variable {ct : Bool} {n k : ℕ} {input data left : List UInt8}

theorem digits_of_ends (hk : k ≤ 16) (h : Ends ⟨n, ct, k, .inChunkSize⟩ input data left) :
    ∃ ds b tail, input = ds ++ b :: tail ∧ (∀ d ∈ ds, decodeHex d ≠ none) ∧ decodeHex b = none ∧
      k + ds.length ≤ 16 ∧ k + ds.length ≠ 0 := by
  induction input generalizing n k with
  | nil => exact absurd h not_ends_nil
  | cons b bs ih =>
    cases hx : decodeHex b with
    | none =>
      refine ⟨[], b, bs, rfl, by simp, hx, hk, fun h0 => ?_⟩
      refine absurd h (not_ends_invalid ?_)
      simp only [PhrChunkedDecoder.byte, hx]
      exact if_pos h0
    | some x =>
      by_cases h16 : k = 16
      · refine absurd h (not_ends_invalid ?_)
        simp only [PhrChunkedDecoder.byte, hx]
        exact if_pos h16
      · have hb : (⟨n, ct, k, .inChunkSize⟩ : PhrChunkedDecoder).byte b =
            .going ⟨(n * 16 + x) % 2 ^ 64, ct, k + 1, .inChunkSize⟩ [] := by
          simp only [PhrChunkedDecoder.byte, hx]
          exact if_neg h16
        obtain ⟨ds, b', tail, rfl, hds, hb', hle, -⟩ := ih (by omega) ((ends_going hb).mp h)
        refine ⟨b :: ds, b', tail, rfl, fun d hd => ?_, hb', by rw [List.length_cons]; omega,
          by rw [List.length_cons]; omega⟩
        rcases List.mem_cons.mp hd with rfl | hd
        · rw [hx]
          simp
        · exact hds d hd

theorem ext_of_ends (h : Ends ⟨n, ct, 0, .inChunkExt⟩ input data left) :
    ∃ us rest, input = us ++ LF :: rest ∧ LF ∉ us := by
  induction input with
  | nil => exact absurd h not_ends_nil
  | cons b bs ih =>
    by_cases hb : b = LF
    · exact ⟨[], bs, by rw [hb]; rfl, by simp⟩
    · have hstay : (⟨n, ct, 0, .inChunkExt⟩ : PhrChunkedDecoder).byte b =
          .going ⟨n, ct, 0, .inChunkExt⟩ [] := if_pos hb
      obtain ⟨us, rest, rfl, hus⟩ := ih ((ends_going hstay).mp h)
      refine ⟨b :: us, rest, rfl, ?_⟩
      rw [List.mem_cons, not_or]
      exact ⟨Ne.symm hb, hus⟩

/-- The end needs a size line. -/
theorem sizeLine_of_ends (h : Ends (atChunk ct) input data left) :
    ∃ n, ∃ l : SizeLine n, ∃ rest, input = l.bytes ++ rest := by
  obtain ⟨ds, b, tail, rfl, hds, hb, hle, hne⟩ := digits_of_ends (Nat.zero_le 16) h
  rw [Nat.zero_add] at hle hne
  obtain ⟨e, h⟩ := h
  have hdigits := @decodeBytes_digits ct 0 0 (by decide) ds hds
    (by rw [Nat.zero_add]; exact hle) (b :: tail)
  rw [Nat.zero_add, decodeBytes_digits_end hne hb] at hdigits
  obtain ⟨us, rest, htail, hus⟩ := ext_of_ends ⟨e, hdigits.symm.trans h⟩
  have hstart : ∀ c ∈ us.head?, decodeHex c = none := by
    intro c hc
    obtain ⟨cs, rfl⟩ := List.head?_eq_some_iff.mp hc
    rw [← (List.cons.inj htail).1]
    exact hb
  refine ⟨hexFrom 0 ds, ⟨ds, us, fun h => hne (by rw [h]; rfl), hle, hds, rfl, hstart, hus⟩, rest, ?_⟩
  rw [htail]
  simp [SizeLine.bytes]

theorem data_of_ends (h : Ends ⟨n, ct, 0, .inChunkData⟩ input data left) :
    n ≤ input.length := by
  by_contra hlt
  by_cases hnil : input = []
  · rw [hnil] at h
    exact not_ends_nil h
  · have hdata := decodeBytes_data (d := ⟨n, ct, 0, .inChunkData⟩) rfl hnil
      (by show input.length ≤ n; omega) []
    rw [List.append_nil] at hdata
    obtain ⟨e, h⟩ := h
    rw [hdata] at h
    obtain ⟨rest, -, hend⟩ := Ends.unbehind ⟨e, h⟩
    exact not_ends_nil hend

theorem crs_of_ends (h : Ends ⟨0, ct, 0, .inChunkCrlf⟩ input data left) :
    ∃ crs rest, input = List.replicate crs CR ++ LF :: rest := by
  induction input with
  | nil => exact absurd h not_ends_nil
  | cons b bs ih =>
    by_cases hCR : b = CR
    · subst hCR
      have hstay : (⟨0, ct, 0, .inChunkCrlf⟩ : PhrChunkedDecoder).byte CR =
          .going ⟨0, ct, 0, .inChunkCrlf⟩ [] := rfl
      obtain ⟨crs, rest, rfl⟩ := ih ((ends_going hstay).mp h)
      exact ⟨crs + 1, rest, rfl⟩
    · by_cases hLF : b = LF
      · exact ⟨0, bs, by rw [hLF]; rfl⟩
      · refine absurd h (not_ends_invalid ?_)
        simp only [PhrChunkedDecoder.byte, if_neg hCR, if_neg hLF]

theorem Trailer.cr {us : List UInt8} (h : Trailer us) : Trailer (CR :: us) := by
  cases h with
  | last crs => exact .last (crs + 1)
  | @line crs b us rest hCR hLF hus h => exact @Trailer.line (crs + 1) b us rest hCR hLF hus h

theorem trailer_of_ends :
    (∀ {data left}, Ends ⟨0, ct, 0, .inTrailersLineHead⟩ input data left →
      ∃ us, Trailer us ∧ input = us ++ left ∧ data = []) ∧
    ∀ {data left}, Ends ⟨0, ct, 0, .inTrailersLineMiddle⟩ input data left →
      ∃ us rest, LF ∉ us ∧ Trailer rest ∧ input = us ++ LF :: (rest ++ left) ∧ data = [] := by
  induction input with
  | nil => exact ⟨fun h => absurd h not_ends_nil, fun h => absurd h not_ends_nil⟩
  | cons b bs ih =>
    constructor
    · intro data left h
      by_cases hCR : b = CR
      · subst hCR
        have hstay : (⟨0, ct, 0, .inTrailersLineHead⟩ : PhrChunkedDecoder).byte CR =
            .going ⟨0, ct, 0, .inTrailersLineHead⟩ [] := rfl
        obtain ⟨us, hus, rfl, hdata⟩ := ih.1 ((ends_going hstay).mp h)
        exact ⟨CR :: us, hus.cr, rfl, hdata⟩
      · by_cases hLF : b = LF
        · subst hLF
          have hdone : (⟨0, ct, 0, .inTrailersLineHead⟩ : PhrChunkedDecoder).byte LF =
              .done ⟨0, ct, 0, .inTrailersLineHead⟩ := rfl
          obtain ⟨hdata, rfl⟩ := (ends_done hdone).mp h
          exact ⟨[LF], .last 0, rfl, hdata⟩
        · have hb : (⟨0, ct, 0, .inTrailersLineHead⟩ : PhrChunkedDecoder).byte b =
              .going ⟨0, ct, 0, .inTrailersLineMiddle⟩ [] := by
            simp only [PhrChunkedDecoder.byte, if_neg hCR, if_neg hLF]
          obtain ⟨us, rest, hus, hrest, rfl, hdata⟩ := ih.2 ((ends_going hb).mp h)
          refine ⟨b :: (us ++ LF :: rest), @Trailer.line 0 b us rest hCR hLF hus hrest, ?_, hdata⟩
          simp
    · intro data left h
      by_cases hLF : b = LF
      · subst hLF
        have hb : (⟨0, ct, 0, .inTrailersLineMiddle⟩ : PhrChunkedDecoder).byte LF =
            .going ⟨0, ct, 0, .inTrailersLineHead⟩ [] := rfl
        obtain ⟨rest, hrest, rfl, hdata⟩ := ih.1 ((ends_going hb).mp h)
        exact ⟨[], rest, by simp, hrest, rfl, hdata⟩
      · have hb : (⟨0, ct, 0, .inTrailersLineMiddle⟩ : PhrChunkedDecoder).byte b =
            .going ⟨0, ct, 0, .inTrailersLineMiddle⟩ [] := if_neg hLF
        obtain ⟨us, rest, hus, hrest, rfl, hdata⟩ := ih.2 ((ends_going hb).mp h)
        refine ⟨b :: us, rest, ?_, hrest, rfl, hdata⟩
        rw [List.mem_cons, not_or]
        exact ⟨Ne.symm hLF, hus⟩

/-- The end comes behind a text. -/
theorem text_of_ends (h : Ends (atChunk ct) input data left) :
    ∃ t : ChunkedText ct, input = t.bytes ++ left ∧ data = t.data := by
  induction hlen : input.length using Nat.strong_induction_on generalizing input data with
  | _ m ih =>
    obtain ⟨n, l, rest, rfl⟩ := sizeLine_of_ends h
    obtain ⟨e, hend⟩ := h
    rw [decodeBytes_sizeLine, afterSize] at hend
    by_cases hn : n = 0
    · subst hn
      rw [if_neg (by simp)] at hend
      cases ct with
      | true =>
        obtain ⟨us, hus, rfl, rfl⟩ := trailer_of_ends.1 ⟨e, hend⟩
        exact ⟨⟨[], l, us, hus⟩, by simp [ChunkedText.bytes], rfl⟩
      | false =>
        have hdata : [] = data := congrArg Decoded.data hend
        have hleft : rest = left := congrArg Decoded.left hend
        exact ⟨⟨[], l, [], rfl⟩, by simp [ChunkedText.bytes, hleft], hdata.symm⟩
    · rw [if_pos hn] at hend
      have hle := data_of_ends ⟨e, hend⟩
      obtain ⟨us, tail, rfl, hus⟩ : ∃ us tail, rest = us ++ tail ∧ us.length = n :=
        ⟨rest.take n, rest.drop n, (List.take_append_drop n rest).symm, List.length_take_of_le hle⟩
      subst hus
      have hne : us ≠ [] := fun h0 => hn (by rw [h0]; rfl)
      rw [decodeBytes_data rfl hne (le_refl _), PhrChunkedDecoder.took, if_pos rfl] at hend
      obtain ⟨more, rfl, hcrlf⟩ := Ends.unbehind ⟨e, hend⟩
      obtain ⟨crs, rest', rfl⟩ := crs_of_ends hcrlf
      have hnext : Ends (atChunk ct) rest' more left := by
        obtain ⟨e', hcrlf⟩ := hcrlf
        exact ⟨e', by rw [← hcrlf]; exact (decodeBytes_crs crs rest').symm⟩
      obtain ⟨t, rfl, rfl⟩ := ih rest'.length (by rw [← hlen]; simp; omega) hnext rfl
      refine ⟨⟨⟨us, l, crs, hne⟩ :: t.chunks, t.last, t.trailer, t.trailer_ok⟩, ?_, ?_⟩
      · simp [ChunkedText.bytes, Chunk.bytes]
      · simp [ChunkedText.data]

/-! ### The calls -/

theorem atChunk_ok (ct : Bool) : (atChunk ct).Ok := fun h => absurd h (by simp [atChunk])

/-- A proper piece of a text is not the end, and its data is a piece of the data of the text. -/
theorem decodeBytes_piece {ct : Bool} {t : ChunkedText ct} {piece more : List UInt8}
    (h : piece ++ more = t.bytes) (hmore : more ≠ []) : ∃ d data,
      decodeBytes (atChunk ct) piece = ⟨d, data, -2, []⟩ ∧ data <+: t.data := by
  obtain ⟨e, htext⟩ := decodeBytes_text t []
  rw [List.append_nil, ← h] at htext
  rcases decodeBytes_cases (atChunk ct) piece with ⟨d, data, hp⟩ | ⟨d, data, left, hp⟩ |
    ⟨d, data, left, hp⟩
  · refine ⟨d, data, hp, ?_⟩
    rw [decodeBytes_append hp] at htext
    exact ⟨_, congrArg Decoded.data htext⟩
  · rw [decodeBytes_append_left hp (by decide)] at htext
    have hret := congrArg Decoded.ret htext
    simp at hret
  · rw [decodeBytes_append_left hp (by omega)] at htext
    have hleft : left ++ more = [] := congrArg Decoded.left htext
    exact absurd (List.append_eq_nil_iff.mp hleft).2 hmore

/-- **Decoding in calls.**  Whatever the buffers that the calls of `phr_decode_chunked` get, the calls
come to an end exactly where the bytes of a text do, with the data of this text and with the number of
bytes that are left of the last buffer; on a proper piece of a text they return -2 and give the data
that has come. -/
theorem decodeCalls_exact (consumeTrailer : Bool) (calls : List ((ℕ → UInt8) × ℕ)) :
    (∀ data left, decodeCalls (atChunk consumeTrailer) calls = ((left.length : ℤ), data, left) ↔
      ∃ t : ChunkedText consumeTrailer, t.data = data ∧ ∃ pre buf bufsz post,
        calls = pre ++ (buf, bufsz) :: post ∧ (arrived pre).length < t.bytes.length ∧
        arrived pre ++ load buf 0 bufsz = t.bytes ++ left) ∧
    ∀ t : ChunkedText consumeTrailer, arrived calls <+: t.bytes → arrived calls ≠ t.bytes →
      ∃ data, decodeCalls (atChunk consumeTrailer) calls = (-2, data, []) ∧ data <+: t.data := by
  refine ⟨fun data left => ?_, fun t ⟨more, hmore⟩ hne => ?_⟩
  · rw [decodeCalls_complete_iff (atChunk_ok consumeTrailer)]
    constructor
    · rintro ⟨pre, buf, bufsz, post, d', sofar, d'', hcalls, hpre, hlast⟩
      obtain ⟨t, hbytes, rfl⟩ := text_of_ends ⟨d'', hlast⟩
      refine ⟨t, rfl, pre, buf, bufsz, post, hcalls, ?_, hbytes⟩
      -- a text that had come before would have ended the calls
      by_contra hlen
      obtain ⟨rest, hrest⟩ : t.bytes <+: arrived pre :=
        List.prefix_of_prefix_length_le (List.prefix_append _ left) ⟨_, hbytes⟩ (Nat.not_lt.mp hlen)
      obtain ⟨e, htext⟩ := decodeBytes_text t rest
      rw [hrest, hpre] at htext
      have hret : (-2 : ℤ) = rest.length := congrArg Decoded.ret htext
      omega
    · rintro ⟨t, rfl, pre, buf, bufsz, post, hcalls, hlen, hbytes⟩
      obtain ⟨more, hmore⟩ : arrived pre <+: t.bytes :=
        List.prefix_of_prefix_length_le ⟨_, hbytes⟩ (List.prefix_append _ left) hlen.le
      have hne : more ≠ [] := by
        rintro rfl
        rw [← hmore, List.append_nil] at hlen
        exact Nat.lt_irrefl _ hlen
      obtain ⟨d, sofar, hpre, -⟩ := decodeBytes_piece hmore hne
      obtain ⟨e, htext⟩ := decodeBytes_text t left
      exact ⟨pre, buf, bufsz, post, d, sofar, e, hcalls, hpre, by rw [hbytes, htext]⟩
  · obtain ⟨d, data, hpiece, hdata⟩ := decodeBytes_piece hmore (by
      rintro rfl
      exact hne (by rw [← hmore, List.append_nil]))
    have happend := decodeCalls_append (atChunk_ok consumeTrailer) hpiece []
    rw [List.append_nil] at happend
    exact ⟨data, by rw [happend]; exact congrArg (fun x => ((-2 : ℤ), x, [])) (List.append_nil data),
      hdata⟩

end Ruru.Http
