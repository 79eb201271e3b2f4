import Ruru.Http.PhrParse
import Ruru.Lib.Memory

/-!
# Ruru.Http.Chunked — `phr_decode_chunked` of picohttpparser

The decoder of the chunked encoding works on a stream that arrives in pieces: each call rewrites its
buffer to the data found in it, and the decoder keeps the place in the stream between the calls.
`PhrChunkedDecoder.byte` is what one byte of the stream does to the decoder; a call does what its
bytes do one after the other, so the cut into pieces does not matter.  `ChunkedText` are the texts of
the encoding; the calls come to an end exactly behind such a text, with its data.
-/

namespace Ruru.Http

open Memory

/-! ### The function -/

/-- The states of the decoder. -/
inductive ChunkedState where
  | inChunkSize
  | inChunkExt
  | inChunkData
  | inChunkCrlf
  | inTrailersLineHead
  | inTrailersLineMiddle
deriving DecidableEq, Repr

/-- `struct phr_chunked_decoder`. -/
structure PhrChunkedDecoder where
  bytesLeftInChunk : ℕ
  consumeTrailer : Bool
  hexCount : ℕ
  state : ChunkedState
deriving DecidableEq, Repr

/-- `decode_hex`; `none` is -1. -/
def decodeHex (ch : UInt8) : Option ℕ :=
  if 48 ≤ ch ∧ ch ≤ 57 then some (ch.toNat - 48)
  else if 65 ≤ ch ∧ ch ≤ 70 then some (ch.toNat - 65 + 10)
  else if 97 ≤ ch ∧ ch ≤ 102 then some (ch.toNat - 97 + 10)
  else none

/-- `memmove(buf + dst, buf + src, n)`. -/
def memmove (buf : ℕ → UInt8) (dst src n : ℕ) : ℕ → UInt8 := store buf dst (load buf src n)

/-- `for (;; ++src)` over the `n` bytes at `src`, up to one that satisfies `stop`. -/
def scanBuf (stop : UInt8 → Bool) (buf : ℕ → UInt8) : ℕ → ℕ → Option ℕ
  | 0, _ => none
  | n + 1, src => if stop (buf src) then some src else scanBuf stop buf n (src + 1)

/-- The decoder, the buffer and the local variables of a call. -/
structure Decoding where
  decoder : PhrChunkedDecoder
  buf : ℕ → UInt8
  dst : ℕ
  src : ℕ

/-- How a `case` is left: for the `case` of the state it has set, or for one of the labels. -/
inductive Flow where
  | next (v : Decoding)
  | exit (ret : ℤ) (v : Decoding)
  | complete (v : Decoding)

def Decoding.goto (v : Decoding) (state : ChunkedState) : Decoding :=
  { v with decoder := { v.decoder with state := state } }

/-- One more digit of a chunk size. -/
def PhrChunkedDecoder.digit (d : PhrChunkedDecoder) (x : ℕ) : PhrChunkedDecoder :=
  { d with bytesLeftInChunk := (d.bytesLeftInChunk * 16 + x) % 2 ^ 64, hexCount := d.hexCount + 1 }

/-- `case CHUNKED_IN_CHUNK_SIZE`, with `n` bytes left. -/
def inChunkSize : ℕ → Decoding → Flow
  | 0, v => .exit (-2) v
  | n + 1, v =>
    match decodeHex (v.buf v.src) with
    | none =>
      if v.decoder.hexCount = 0 then .exit (-1) v
      else .next { v with decoder := { v.decoder with hexCount := 0, state := .inChunkExt } }
    | some x =>
      if v.decoder.hexCount = 16 then .exit (-1) v
      else inChunkSize n { v with decoder := v.decoder.digit x, src := v.src + 1 }

/-- `case CHUNKED_IN_CHUNK_EXT`. -/
def inChunkExt (bufsz : ℕ) (v : Decoding) : Flow :=
  match scanBuf (· == LF) v.buf (bufsz - v.src) v.src with
  | none => .exit (-2) { v with src := bufsz }
  | some src =>
    let v := { v with src := src + 1 }
    if v.decoder.bytesLeftInChunk = 0 then
      if v.decoder.consumeTrailer then .next (v.goto .inTrailersLineHead) else .complete v
    else .next (v.goto .inChunkData)

/-- `case CHUNKED_IN_CHUNK_DATA`. -/
def inChunkData (bufsz : ℕ) (v : Decoding) : Flow :=
  let avail := bufsz - v.src
  let left := v.decoder.bytesLeftInChunk
  if avail < left then
    .exit (-2) {
      decoder := { v.decoder with bytesLeftInChunk := left - avail }
      buf := if v.dst ≠ v.src then memmove v.buf v.dst v.src avail else v.buf
      dst := v.dst + avail
      src := v.src + avail }
  else
    .next {
      decoder := { v.decoder with bytesLeftInChunk := 0, state := .inChunkCrlf }
      buf := if v.dst ≠ v.src then memmove v.buf v.dst v.src left else v.buf
      dst := v.dst + left
      src := v.src + left }

/-- `case CHUNKED_IN_CHUNK_CRLF`. -/
def inChunkCrlf (bufsz : ℕ) (v : Decoding) : Flow :=
  match scanBuf (· != CR) v.buf (bufsz - v.src) v.src with
  | none => .exit (-2) { v with src := bufsz }
  | some src =>
    if v.buf src ≠ LF then .exit (-1) { v with src := src }
    else .next ({ v with src := src + 1 }.goto .inChunkSize)

/-- `case CHUNKED_IN_TRAILERS_LINE_HEAD`. -/
def inTrailersLineHead (bufsz : ℕ) (v : Decoding) : Flow :=
  match scanBuf (· != CR) v.buf (bufsz - v.src) v.src with
  | none => .exit (-2) { v with src := bufsz }
  | some src =>
    if v.buf src = LF then .complete { v with src := src + 1 }
    else .next ({ v with src := src + 1 }.goto .inTrailersLineMiddle)

/-- `case CHUNKED_IN_TRAILERS_LINE_MIDDLE`. -/
def inTrailersLineMiddle (bufsz : ℕ) (v : Decoding) : Flow :=
  match scanBuf (· == LF) v.buf (bufsz - v.src) v.src with
  | none => .exit (-2) { v with src := bufsz }
  | some src => .next ({ v with src := src + 1 }.goto .inTrailersLineHead)

/-- `switch (decoder->_state)`. -/
def decodeCase (bufsz : ℕ) (v : Decoding) : Flow :=
  match v.decoder.state with
  | .inChunkSize => inChunkSize (bufsz - v.src) v
  | .inChunkExt => inChunkExt bufsz v
  | .inChunkData => inChunkData bufsz v
  | .inChunkCrlf => inChunkCrlf bufsz v
  | .inTrailersLineHead => inTrailersLineHead bufsz v
  | .inTrailersLineMiddle => inTrailersLineMiddle bufsz v

/-! ### Termination -/

theorem scanBuf_some {stop : UInt8 → Bool} {buf : ℕ → UInt8} {n src i : ℕ}
    (h : scanBuf stop buf n src = some i) : src ≤ i ∧ i < src + n := by
  induction n generalizing src with
  | zero => exact absurd h (by simp [scanBuf])
  | succ n ih =>
    rw [scanBuf] at h
    split_ifs at h
    · obtain rfl : src = i := by simpa using h
      omega
    · have := ih h
      omega

/-- What goes down from `case` to `case`: the bytes left, and the states that may leave them to the
next one. -/
def Decoding.measure (bufsz : ℕ) (v : Decoding) : ℕ :=
  2 * (bufsz - v.src) + match v.decoder.state with
    | .inChunkSize | .inChunkData => 1
    | _ => 0

theorem inChunkSize_next {n : ℕ} {v v' : Decoding} (h : inChunkSize n v = .next v') :
    v'.decoder.state = .inChunkExt ∧ v.src ≤ v'.src := by
  induction n generalizing v with
  | zero => exact absurd h (by simp [inChunkSize])
  | succ n ih =>
    rw [inChunkSize] at h
    cases hx : decodeHex (v.buf v.src) with
    | none =>
      simp only [hx] at h
      split_ifs at h
      cases h
      exact ⟨rfl, le_refl _⟩
    | some x =>
      simp only [hx] at h
      split_ifs at h
      obtain ⟨hstate, hsrc⟩ := ih h
      exact ⟨hstate, (Nat.le_succ _).trans hsrc⟩

theorem decodeCase_decreases {bufsz : ℕ} {v v' : Decoding} (h : decodeCase bufsz v = .next v') :
    v'.measure bufsz < v.measure bufsz := by
  unfold decodeCase at h
  cases hs : v.decoder.state with
  | inChunkSize =>
    rw [hs] at h
    obtain ⟨hstate, hsrc⟩ := inChunkSize_next h
    simp only [Decoding.measure, hs, hstate]
    omega
  | inChunkExt =>
    simp only [hs, inChunkExt] at h
    split at h
    · cases h
    · next src hsrc =>
      have := scanBuf_some hsrc
      split_ifs at h <;> cases h <;> simp only [Decoding.measure, Decoding.goto, hs] <;> omega
  | inChunkData =>
    simp only [hs, inChunkData] at h
    split_ifs at h <;> cases h <;> simp only [Decoding.measure, hs] <;> omega
  | inChunkCrlf =>
    simp only [hs, inChunkCrlf] at h
    split at h
    · cases h
    · next src hsrc =>
      have := scanBuf_some hsrc
      split_ifs at h
      cases h
      simp only [Decoding.measure, Decoding.goto, hs]
      omega
  | inTrailersLineHead =>
    simp only [hs, inTrailersLineHead] at h
    split at h
    · cases h
    · next src hsrc =>
      have := scanBuf_some hsrc
      split_ifs at h
      cases h
      simp only [Decoding.measure, Decoding.goto, hs]
      omega
  | inTrailersLineMiddle =>
    simp only [hs, inTrailersLineMiddle] at h
    split at h
    · cases h
    · next src hsrc =>
      have := scanBuf_some hsrc
      cases h
      simp only [Decoding.measure, Decoding.goto, hs]
      omega

/-- `while (1)`, to the label `Exit`. -/
def decodeLoop (bufsz : ℕ) (v : Decoding) : ℤ × Decoding :=
  match _hcase : decodeCase bufsz v with
  | .next v' => decodeLoop bufsz v'
  | .exit ret v' => (ret, v')
  | .complete v' => (bufsz - v'.src, v')
termination_by v.measure bufsz
decreasing_by exact decodeCase_decreases _hcase

/-- `phr_decode_chunked`: what it returns, the decoder, the buffer and the new `*_bufsz`. -/
def phrDecodeChunked (decoder : PhrChunkedDecoder) (buf : ℕ → UInt8) (bufsz : ℕ) :
    ℤ × PhrChunkedDecoder × (ℕ → UInt8) × ℕ :=
  let (ret, v) := decodeLoop bufsz ⟨decoder, buf, 0, 0⟩
  (ret, v.decoder,
    if v.dst ≠ v.src then memmove v.buf v.dst v.src (bufsz - v.src) else v.buf, v.dst)

/-! ### One byte of the stream -/

/-- What a byte does: the decoder goes on, with what the byte adds to the data, or it is done. -/
inductive ByteStep where
  | going (d : PhrChunkedDecoder) (data : List UInt8)
  | invalid
  | done (d : PhrChunkedDecoder)

namespace PhrChunkedDecoder

/-- A byte behind the size of a chunk. -/
def ext (d : PhrChunkedDecoder) (b : UInt8) : ByteStep :=
  if b ≠ LF then .going { d with state := .inChunkExt } []
  else if d.bytesLeftInChunk ≠ 0 then .going { d with state := .inChunkData } []
  else if d.consumeTrailer then .going { d with state := .inTrailersLineHead } []
  else .done { d with state := .inChunkExt }

/-- The decoder behind `n` more bytes of data. -/
def took (d : PhrChunkedDecoder) (n : ℕ) : PhrChunkedDecoder :=
  if n = d.bytesLeftInChunk then { d with bytesLeftInChunk := 0, state := .inChunkCrlf }
  else { d with bytesLeftInChunk := d.bytesLeftInChunk - n }

/-- A byte of the stream. -/
def byte (d : PhrChunkedDecoder) (b : UInt8) : ByteStep :=
  match d.state with
  | .inChunkSize =>
    match decodeHex b with
    | none => if d.hexCount = 0 then .invalid else { d with hexCount := 0 }.ext b
    | some x => if d.hexCount = 16 then .invalid else .going (d.digit x) []
  | .inChunkExt => d.ext b
  | .inChunkData => .going (d.took 1) [b]
  | .inChunkCrlf =>
    if b = CR then .going d []
    else if b = LF then .going { d with state := .inChunkSize } []
    else .invalid
  | .inTrailersLineHead =>
    if b = CR then .going d []
    else if b = LF then .done d
    else .going { d with state := .inTrailersLineMiddle } []
  | .inTrailersLineMiddle =>
    if b = LF then .going { d with state := .inTrailersLineHead } [] else .going d []

end PhrChunkedDecoder

/-- What bytes of the stream lead to: the data in them, the return value and the bytes left. -/
structure Decoded where
  decoder : PhrChunkedDecoder
  data : List UInt8
  ret : ℤ
  left : List UInt8

/-- The result, with more data before it. -/
def Decoded.behind (data : List UInt8) (r : Decoded) : Decoded := { r with data := data ++ r.data }

/-- The bytes of a stream, one after the other. -/
def decodeBytes (d : PhrChunkedDecoder) : List UInt8 → Decoded
  | [] => ⟨d, [], -2, []⟩
  | b :: bs =>
    match d.byte b with
    | .going d' data => (decodeBytes d' bs).behind data
    | .invalid => ⟨d, [], -1, b :: bs⟩
    | .done d' => ⟨d', [], bs.length, bs⟩

@[simp] theorem Decoded.behind_nil (r : Decoded) : r.behind [] = r := rfl

theorem Decoded.behind_behind (r : Decoded) (as bs : List UInt8) :
    (r.behind bs).behind as = r.behind (as ++ bs) := by
  show ({ r with data := as ++ (bs ++ r.data) } : Decoded) = { r with data := as ++ bs ++ r.data }
  rw [List.append_assoc]

theorem decodeBytes_going {d d' : PhrChunkedDecoder} {b : UInt8} {data : List UInt8}
    (h : d.byte b = .going d' data) (bs : List UInt8) :
    decodeBytes d (b :: bs) = (decodeBytes d' bs).behind data := by
  rw [decodeBytes, h]

theorem decodeBytes_invalid {d : PhrChunkedDecoder} {b : UInt8} (h : d.byte b = .invalid)
    (bs : List UInt8) : decodeBytes d (b :: bs) = ⟨d, [], -1, b :: bs⟩ := by
  rw [decodeBytes, h]

theorem decodeBytes_done {d d' : PhrChunkedDecoder} {b : UInt8} (h : d.byte b = .done d')
    (bs : List UInt8) : decodeBytes d (b :: bs) = ⟨d', [], bs.length, bs⟩ := by
  rw [decodeBytes, h]

theorem PhrChunkedDecoder.state_eq {d : PhrChunkedDecoder} {state : ChunkedState}
    (h : d.state = state) : { d with state := state } = d := by
  rw [← h]

theorem PhrChunkedDecoder.ext_cases (d : PhrChunkedDecoder) (b : UInt8) :
    (∃ d', d.ext b = .going d' []) ∨ ∃ d', d.ext b = .done d' := by
  unfold PhrChunkedDecoder.ext
  split_ifs
  · exact Or.inl ⟨_, rfl⟩
  · exact Or.inl ⟨_, rfl⟩
  · exact Or.inl ⟨_, rfl⟩
  · exact Or.inr ⟨_, rfl⟩

/-- Two decoders that are both about to read an extension. -/
theorem decodeBytes_ext {d d' e : PhrChunkedDecoder} {b : UInt8} (h : d.byte b = e.ext b)
    (h' : d'.byte b = e.ext b) (bs : List UInt8) :
    decodeBytes d (b :: bs) = decodeBytes d' (b :: bs) := by
  rcases e.ext_cases b with ⟨e', he⟩ | ⟨e', he⟩
  · rw [decodeBytes_going (h.trans he), decodeBytes_going (h'.trans he)]
  · rw [decodeBytes_done (h.trans he), decodeBytes_done (h'.trans he)]

/-- Bytes that change nothing. -/
theorem decodeBytes_stay {d : PhrChunkedDecoder} {us : List UInt8}
    (h : ∀ b ∈ us, d.byte b = .going d []) (rest : List UInt8) :
    decodeBytes d (us ++ rest) = decodeBytes d rest := by
  induction us with
  | nil => rfl
  | cons b us ih =>
    rw [List.cons_append, decodeBytes_going (h b List.mem_cons_self), Decoded.behind_nil]
    exact ih fun b' hb' => h b' (List.mem_cons_of_mem _ hb')

/-- Data that does not go beyond its chunk. -/
theorem decodeBytes_data {d : PhrChunkedDecoder} (hd : d.state = .inChunkData) {us : List UInt8}
    (hne : us ≠ []) (hle : us.length ≤ d.bytesLeftInChunk) (rest : List UInt8) :
    decodeBytes d (us ++ rest) = (decodeBytes (d.took us.length) rest).behind us := by
  induction us generalizing d with
  | nil => exact absurd rfl hne
  | cons b us ih =>
    have hb : d.byte b = .going (d.took 1) [b] := by simp only [PhrChunkedDecoder.byte, hd]
    rw [List.cons_append, decodeBytes_going hb]
    rw [List.length_cons] at hle ⊢
    by_cases hus : us = []
    · subst hus
      rfl
    · have hpos : 0 < us.length := List.length_pos_iff.mpr hus
      have htook : d.took 1 = { d with bytesLeftInChunk := d.bytesLeftInChunk - 1 } :=
        if_neg (by omega)
      rw [htook, @ih { d with bytesLeftInChunk := d.bytesLeftInChunk - 1 } hd hus
        (by show us.length ≤ d.bytesLeftInChunk - 1; omega), Decoded.behind_behind]
      congr 2
      unfold PhrChunkedDecoder.took
      by_cases hall : us.length + 1 = d.bytesLeftInChunk
      · rw [if_pos hall, if_pos (by show us.length = d.bytesLeftInChunk - 1; omega)]
      · rw [if_neg hall, if_neg (by show us.length ≠ d.bytesLeftInChunk - 1; omega)]
        congr 1
        show d.bytesLeftInChunk - 1 - us.length = _
        omega

/-! ### A call -/

/-- The bytes a call has not looked at yet. -/
def Decoding.input (bufsz : ℕ) (v : Decoding) : List UInt8 := load v.buf v.src (bufsz - v.src)

/-- From `v` to `v'`, the call has put `data` behind the data it had, and nothing outside. -/
structure Decoding.Wrote (bufsz : ℕ) (v v' : Decoding) (data : List UInt8) : Prop where
  dst : v'.dst = v.dst + data.length
  out : load v'.buf 0 v'.dst = load v.buf 0 v.dst ++ data
  beyond : ∀ i, bufsz ≤ i → v'.buf i = v.buf i
  dst_le : v'.dst ≤ v'.src
  src_le : v'.src ≤ bufsz

/-- In a chunk there are bytes left. -/
def PhrChunkedDecoder.Ok (d : PhrChunkedDecoder) : Prop :=
  d.state = .inChunkData → d.bytesLeftInChunk ≠ 0

/-- A `case` has done what some of its bytes do. -/
def Flow.Follows (bufsz : ℕ) (v : Decoding) : Flow → Prop
  | .next v' => ∃ data, v.Wrote bufsz v' data ∧ v'.decoder.Ok ∧
      decodeBytes v.decoder (v.input bufsz) =
        (decodeBytes v'.decoder (v'.input bufsz)).behind data
  | .exit ret v' => ∃ data, v.Wrote bufsz v' data ∧
      decodeBytes v.decoder (v.input bufsz) = ⟨v'.decoder, data, ret, v'.input bufsz⟩
  | .complete v' => ∃ data, v.Wrote bufsz v' data ∧
      decodeBytes v.decoder (v.input bufsz) =
        ⟨v'.decoder, data, bufsz - v'.src, v'.input bufsz⟩

theorem input_end {bufsz : ℕ} {v : Decoding} (h : bufsz ≤ v.src) : v.input bufsz = [] := by
  rw [Decoding.input, Nat.sub_eq_zero_of_le h, load_zero]

theorem Decoding.wrote_nil {bufsz : ℕ} {v v' : Decoding} (hbuf : v'.buf = v.buf)
    (hdst : v'.dst = v.dst) (hle : v.dst ≤ v'.src) (hsrc : v'.src ≤ bufsz) :
    v.Wrote bufsz v' [] where
  dst := by rw [hdst]; rfl
  out := by rw [hbuf, hdst, List.append_nil]
  beyond := fun i _ => by rw [hbuf]
  dst_le := by rw [hdst]; exact hle
  src_le := hsrc

/-- What a scan finds: nothing, or the first byte that satisfies `stop`. -/
theorem scanBuf_cases (stop : UInt8 → Bool) (bufsz : ℕ) (v : Decoding) :
    (scanBuf stop v.buf (bufsz - v.src) v.src = none ∧ ∀ b ∈ v.input bufsz, stop b = false) ∨
      ∃ src us, scanBuf stop v.buf (bufsz - v.src) v.src = some src ∧ v.src ≤ src ∧ src < bufsz ∧
        (∀ b ∈ us, stop b = false) ∧ stop (v.buf src) = true ∧
        v.input bufsz = us ++ v.buf src :: load v.buf (src + 1) (bufsz - (src + 1)) := by
  obtain ⟨d, buf, dst, src⟩ := v
  show (scanBuf stop buf (bufsz - src) src = none ∧ ∀ b ∈ load buf src (bufsz - src), _) ∨ ∃ _ _,
    scanBuf stop buf (bufsz - src) src = _ ∧ _ ∧ _ ∧ _ ∧ _ ∧ load buf src (bufsz - src) = _
  generalize hn : bufsz - src = n
  induction n generalizing src with
  | zero => exact Or.inl ⟨rfl, by simp⟩
  | succ n ih =>
    rw [scanBuf, load_succ]
    by_cases hstop : stop (buf src) = true
    · have hrest : bufsz - (src + 1) = n := by omega
      rw [if_pos hstop]
      exact Or.inr ⟨src, [], rfl, le_refl _, by omega, by simp, hstop, by rw [hrest]; rfl⟩
    · rw [if_neg hstop]
      rcases ih (src + 1) (by omega) with ⟨hscan, hall⟩ | ⟨i, us, hscan, hle, hlt, hus, hi, heq⟩
      · refine Or.inl ⟨hscan, fun b hb => ?_⟩
        rcases List.mem_cons.mp hb with rfl | hb
        · simpa using hstop
        · exact hall b hb
      · refine Or.inr ⟨i, buf src :: us, hscan, Nat.le_of_succ_le hle, hlt, fun b hb => ?_, hi, by rw [heq]; rfl⟩
        rcases List.mem_cons.mp hb with rfl | hb
        · simpa using hstop
        · exact hus b hb

theorem Decoding.Wrote.trans {bufsz : ℕ} {v v' v'' : Decoding} {as bs : List UInt8}
    (h : v.Wrote bufsz v' as) (h' : v'.Wrote bufsz v'' bs) : v.Wrote bufsz v'' (as ++ bs) where
  dst := by rw [h'.dst, h.dst, List.length_append, Nat.add_assoc]
  out := by rw [h'.out, h.out, List.append_assoc]
  beyond := fun i hi => (h'.beyond i hi).trans (h.beyond i hi)
  dst_le := h'.dst_le
  src_le := h'.src_le

/-- What follows from a later place in a call follows from an earlier one. -/
theorem Flow.Follows.trans {bufsz : ℕ} {v v' : Decoding} {data : List UInt8}
    (hw : v.Wrote bufsz v' data) (heq : decodeBytes v.decoder (v.input bufsz) =
      (decodeBytes v'.decoder (v'.input bufsz)).behind data) {f : Flow}
    (h : f.Follows bufsz v') : f.Follows bufsz v := by
  cases f with
  | next v'' =>
    obtain ⟨more, hw', hok, heq'⟩ := h
    exact ⟨data ++ more, hw.trans hw', hok, by rw [heq, heq', Decoded.behind_behind]⟩
  | exit ret v'' =>
    obtain ⟨more, hw', heq'⟩ := h
    exact ⟨data ++ more, hw.trans hw', by rw [heq, heq']; rfl⟩
  | complete v'' =>
    obtain ⟨more, hw', heq'⟩ := h
    exact ⟨data ++ more, hw.trans hw', by rw [heq, heq']; rfl⟩

section Cases

variable {bufsz : ℕ} {v : Decoding} (hdst : v.dst ≤ v.src) (hsrc : v.src ≤ bufsz)

include hdst hsrc

theorem follows_inChunkSize (hs : v.decoder.state = .inChunkSize) :
    (inChunkSize (bufsz - v.src) v).Follows bufsz v := by
  generalize hn : bufsz - v.src = n
  induction n generalizing v with
  | zero =>
    have hinput : v.input bufsz = [] := by rw [Decoding.input, hn]; rfl
    exact ⟨[], Decoding.wrote_nil rfl rfl hdst hsrc, by rw [hinput]; rfl⟩
  | succ n ih =>
    have hinput : v.input bufsz = v.buf v.src :: load v.buf (v.src + 1) n := by
      rw [Decoding.input, hn, load_succ]
    rw [inChunkSize]
    cases hx : decodeHex (v.buf v.src) with
    | none =>
      have hbyte : v.decoder.byte (v.buf v.src) = if v.decoder.hexCount = 0 then .invalid
          else { v.decoder with hexCount := 0 }.ext (v.buf v.src) := by
        simp only [PhrChunkedDecoder.byte, hs, hx]
      by_cases h0 : v.decoder.hexCount = 0
      · rw [if_pos h0] at hbyte
        simp only [if_pos h0]
        refine ⟨[], Decoding.wrote_nil rfl rfl hdst hsrc, ?_⟩
        rw [hinput, decodeBytes_invalid hbyte]
      · rw [if_neg h0] at hbyte
        simp only [if_neg h0]
        refine ⟨[], Decoding.wrote_nil rfl rfl hdst hsrc, fun h => absurd h (by simp), ?_⟩
        show decodeBytes v.decoder (v.input bufsz) = (decodeBytes _ (v.input bufsz)).behind []
        rw [hinput, Decoded.behind_nil]
        exact decodeBytes_ext hbyte rfl _
    | some x =>
      have hbyte : v.decoder.byte (v.buf v.src) = if v.decoder.hexCount = 16 then .invalid
          else .going (v.decoder.digit x) [] := by
        simp only [PhrChunkedDecoder.byte, hs, hx]
      by_cases h16 : v.decoder.hexCount = 16
      · rw [if_pos h16] at hbyte
        simp only [if_pos h16]
        refine ⟨[], Decoding.wrote_nil rfl rfl hdst hsrc, ?_⟩
        rw [hinput, decodeBytes_invalid hbyte]
      · rw [if_neg h16] at hbyte
        simp only [if_neg h16]
        have hrest : bufsz - (v.src + 1) = n := by omega
        have hle : v.src + 1 ≤ bufsz := by omega
        have hw : v.Wrote bufsz { v with decoder := v.decoder.digit x, src := v.src + 1 } [] :=
          Decoding.wrote_nil rfl rfl (Nat.le_succ_of_le hdst) hle
        refine Flow.Follows.trans hw ?_ (ih (Nat.le_succ_of_le hdst) hle hs hrest)
        rw [hinput, decodeBytes_going hbyte, Decoding.input, hrest]

end Cases

section Bytes

variable {bufsz : ℕ} {v : Decoding} (hdst : v.dst ≤ v.src) (hlt : v.src < bufsz)

theorem input_cons (hlt : v.src < bufsz) :
    v.input bufsz = v.buf v.src :: load v.buf (v.src + 1) (bufsz - (v.src + 1)) := by
  have hn : bufsz - v.src = bufsz - (v.src + 1) + 1 := by omega
  rw [Decoding.input, hn, load_succ]

include hdst hlt

theorem follows_next {d : PhrChunkedDecoder} (hbyte : v.decoder.byte (v.buf v.src) = .going d [])
    (hok : d.Ok) : (Flow.next { v with decoder := d, src := v.src + 1 }).Follows bufsz v := by
  refine ⟨[], Decoding.wrote_nil rfl rfl (Nat.le_succ_of_le hdst) hlt, hok, ?_⟩
  rw [input_cons hlt, decodeBytes_going hbyte]
  rfl

theorem follows_complete {d : PhrChunkedDecoder}
    (hbyte : v.decoder.byte (v.buf v.src) = .done d) :
    (Flow.complete { v with decoder := d, src := v.src + 1 }).Follows bufsz v := by
  refine ⟨[], Decoding.wrote_nil rfl rfl (Nat.le_succ_of_le hdst) hlt, ?_⟩
  have hlen : ((bufsz - (v.src + 1) : ℕ) : ℤ) = bufsz - (v.src + 1 : ℕ) := Nat.cast_sub hlt
  rw [input_cons hlt, decodeBytes_done hbyte, length_load, hlen]
  rfl

theorem follows_invalid (hbyte : v.decoder.byte (v.buf v.src) = .invalid) :
    (Flow.exit (-1) v).Follows bufsz v := by
  refine ⟨[], Decoding.wrote_nil rfl rfl hdst hlt.le, ?_⟩
  rw [input_cons hlt, decodeBytes_invalid hbyte]

end Bytes

section Cases

variable {bufsz : ℕ} {v : Decoding} (hdst : v.dst ≤ v.src) (hsrc : v.src ≤ bufsz)

include hdst hsrc

/-- A scan over bytes that change nothing, and what is done at the byte it finds. -/
theorem follows_scan {stop : UInt8 → Bool} {found : ℕ → Flow}
    (hstay : ∀ b, stop b = false → v.decoder.byte b = .going v.decoder [])
    (hfound : ∀ src, v.dst ≤ src → src < bufsz → stop (v.buf src) = true →
      (found src).Follows bufsz { v with src := src }) :
    Flow.Follows bufsz v (match scanBuf stop v.buf (bufsz - v.src) v.src with
      | none => .exit (-2) { v with src := bufsz }
      | some src => found src) := by
  rcases scanBuf_cases stop bufsz v with ⟨hscan, hall⟩ | ⟨src, us, hscan, hle, hlt, hus, hstop, heq⟩
  · rw [hscan]
    refine ⟨[], Decoding.wrote_nil rfl rfl (hdst.trans hsrc) (le_refl _), ?_⟩
    have hstop := decodeBytes_stay (fun b hb => hstay b (hall b hb)) []
    rw [List.append_nil] at hstop
    rw [hstop]
    simp [decodeBytes, Decoding.input]
  · rw [hscan]
    have hw : v.Wrote bufsz { v with src := src } [] :=
      Decoding.wrote_nil rfl rfl (hdst.trans hle) hlt.le
    refine Flow.Follows.trans hw ?_ (hfound src (hdst.trans hle) hlt hstop)
    have hcons : ({ v with src := src } : Decoding).input bufsz =
        v.buf src :: load v.buf (src + 1) (bufsz - (src + 1)) := input_cons hlt
    rw [hcons, heq, decodeBytes_stay fun b hb => hstay b (hus b hb)]
    rfl

theorem follows_inChunkExt (hs : v.decoder.state = .inChunkExt) :
    (inChunkExt bufsz v).Follows bufsz v := by
  have hbyte : ∀ b, v.decoder.byte b = v.decoder.ext b := fun b => by
    simp only [PhrChunkedDecoder.byte, hs]
  refine follows_scan hdst hsrc (fun b hb => ?_) fun src hle hlt hstop => ?_
  · rw [hbyte, PhrChunkedDecoder.ext, if_pos (by simpa using hb), PhrChunkedDecoder.state_eq hs]
  · have hLF : v.buf src = LF := by simpa using hstop
    have hat : v.decoder.byte (v.buf src) = if v.decoder.bytesLeftInChunk ≠ 0 then _ else _ :=
      (hbyte _).trans (if_neg (not_not.mpr hLF))
    by_cases h0 : v.decoder.bytesLeftInChunk = 0
    · rw [if_neg (not_not.mpr h0)] at hat
      simp only [if_pos h0]
      by_cases htrailer : v.decoder.consumeTrailer = true
      · rw [if_pos htrailer] at hat
        rw [if_pos htrailer]
        exact follows_next hle hlt hat fun h => absurd h (by simp)
      · rw [if_neg htrailer, PhrChunkedDecoder.state_eq hs] at hat
        rw [if_neg htrailer]
        exact follows_complete hle hlt hat
    · rw [if_pos h0] at hat
      simp only [if_neg h0]
      exact follows_next hle hlt hat fun _ => h0

theorem follows_inChunkCrlf (hs : v.decoder.state = .inChunkCrlf) :
    (inChunkCrlf bufsz v).Follows bufsz v := by
  refine follows_scan hdst hsrc (fun b hb => ?_) fun src hle hlt hstop => ?_
  · obtain rfl : b = CR := by simpa using hb
    simp only [PhrChunkedDecoder.byte, hs, if_true]
  · have hCR : v.buf src ≠ CR := by simpa using hstop
    by_cases hLF : v.buf src = LF
    · rw [if_neg (not_not.mpr hLF)]
      refine follows_next hle hlt ?_ fun h => absurd h (by simp)
      simp only [PhrChunkedDecoder.byte, hs, if_neg hCR, if_pos hLF]
    · rw [if_pos hLF]
      refine follows_invalid hle hlt ?_
      simp only [PhrChunkedDecoder.byte, hs, if_neg hCR, if_neg hLF]

theorem follows_inTrailersLineHead (hs : v.decoder.state = .inTrailersLineHead) :
    (inTrailersLineHead bufsz v).Follows bufsz v := by
  refine follows_scan hdst hsrc (fun b hb => ?_) fun src hle hlt hstop => ?_
  · obtain rfl : b = CR := by simpa using hb
    simp only [PhrChunkedDecoder.byte, hs, if_true]
  · have hCR : v.buf src ≠ CR := by simpa using hstop
    by_cases hLF : v.buf src = LF
    · rw [if_pos hLF]
      refine follows_complete hle hlt ?_
      simp only [PhrChunkedDecoder.byte, hs, if_neg hCR, if_pos hLF]
    · rw [if_neg hLF]
      refine follows_next hle hlt ?_ fun h => absurd h (by simp)
      simp only [PhrChunkedDecoder.byte, hs, if_neg hCR, if_neg hLF]

theorem follows_inTrailersLineMiddle (hs : v.decoder.state = .inTrailersLineMiddle) :
    (inTrailersLineMiddle bufsz v).Follows bufsz v := by
  refine follows_scan hdst hsrc (fun b hb => ?_) fun src hle hlt hstop => ?_
  · have hLF : b ≠ LF := by simpa using hb
    simp only [PhrChunkedDecoder.byte, hs, if_neg hLF]
  · have hLF : v.buf src = LF := by simpa using hstop
    refine follows_next hle hlt ?_ fun h => absurd h (by simp)
    simp only [PhrChunkedDecoder.byte, hs, if_pos hLF]

omit hsrc in
/-- `n` bytes of data are moved to the data decoded before. -/
theorem wrote_data {n : ℕ} (hn : v.src + n ≤ bufsz) (d : PhrChunkedDecoder) :
    v.Wrote bufsz ⟨d, if v.dst ≠ v.src then memmove v.buf v.dst v.src n else v.buf, v.dst + n,
      v.src + n⟩ (load v.buf v.src n) := by
  have hlen : (load v.buf v.src n).length = n := length_load _ _ _
  refine ⟨by rw [hlen], ?_, ?_, Nat.add_le_add_right hdst n, hn⟩
  · show load (if v.dst ≠ v.src then memmove v.buf v.dst v.src n else v.buf) 0 (v.dst + n) = _
    split_ifs with heq
    · have happend := load_store_append v.buf 0 v.dst (load v.buf v.src n)
      rw [hlen, Nat.zero_add] at happend
      exact happend
    · rw [load_add, Nat.zero_add, not_not.mp heq]
  · intro i hi
    show (if v.dst ≠ v.src then memmove v.buf v.dst v.src n else v.buf) i = _
    split_ifs
    · exact store_of_ge (by rw [hlen]; omega)
    · rfl

omit hsrc in
/-- The move leaves the bytes alone that are still to be looked at. -/
theorem load_moved (n k : ℕ) :
    load (if v.dst ≠ v.src then memmove v.buf v.dst v.src n else v.buf) (v.src + n) k =
      load v.buf (v.src + n) k := by
  split_ifs
  · refine load_store_disjoint (Or.inr ?_)
    rw [length_load]
    omega
  · rfl

theorem follows_inChunkData (hs : v.decoder.state = .inChunkData) (hok : v.decoder.Ok) :
    (inChunkData bufsz v).Follows bufsz v := by
  have h0 : v.decoder.bytesLeftInChunk ≠ 0 := hok hs
  unfold inChunkData
  by_cases hshort : bufsz - v.src < v.decoder.bytesLeftInChunk
  · simp only [if_pos hshort]
    refine ⟨_, wrote_data hdst (by omega) _, ?_⟩
    have hlen : (v.input bufsz).length = bufsz - v.src := length_load _ _ _
    have hend : bufsz ≤ v.src + (bufsz - v.src) := by omega
    have hbytes : decodeBytes v.decoder (v.input bufsz) =
        ⟨{ v.decoder with bytesLeftInChunk := v.decoder.bytesLeftInChunk - (bufsz - v.src) },
          v.input bufsz, -2, []⟩ := by
      by_cases hempty : v.input bufsz = []
      · have h0 : bufsz - v.src = 0 := by rw [← hlen, hempty]; rfl
        rw [hempty, h0]
        rfl
      · have hdata := decodeBytes_data hs hempty (by omega) []
        rw [List.append_nil, hlen, PhrChunkedDecoder.took, if_neg (by omega)] at hdata
        rw [hdata]
        exact congrArg (fun data => (⟨_, data, -2, []⟩ : Decoded)) (List.append_nil _)
    rw [hbytes]
    exact congrArg (fun left => (⟨_, v.input bufsz, -2, left⟩ : Decoded)) (input_end hend).symm
  · simp only [if_neg hshort]
    refine ⟨_, wrote_data hdst (by omega) _, fun h => absurd h (by simp), ?_⟩
    have hsplit : bufsz - v.src = v.decoder.bytesLeftInChunk +
        (bufsz - (v.src + v.decoder.bytesLeftInChunk)) := by omega
    have hlen : (load v.buf v.src v.decoder.bytesLeftInChunk).length = v.decoder.bytesLeftInChunk :=
      length_load _ _ _
    have hinput : v.input bufsz = load v.buf v.src v.decoder.bytesLeftInChunk ++
        load v.buf (v.src + v.decoder.bytesLeftInChunk)
          (bufsz - (v.src + v.decoder.bytesLeftInChunk)) := by
      rw [Decoding.input, hsplit, load_add]
    rw [hinput, decodeBytes_data hs (by rw [← List.length_pos_iff, hlen]; omega) hlen.le, hlen,
      PhrChunkedDecoder.took, if_pos rfl]
    congr 2
    exact (load_moved hdst _ _).symm

theorem decodeCase_follows (hok : v.decoder.Ok) : (decodeCase bufsz v).Follows bufsz v := by
  unfold decodeCase
  cases hs : v.decoder.state with
  | inChunkSize => exact follows_inChunkSize hdst hsrc hs
  | inChunkExt => exact follows_inChunkExt hdst hsrc hs
  | inChunkData => exact follows_inChunkData hdst hsrc hs hok
  | inChunkCrlf => exact follows_inChunkCrlf hdst hsrc hs
  | inTrailersLineHead => exact follows_inTrailersLineHead hdst hsrc hs
  | inTrailersLineMiddle => exact follows_inTrailersLineMiddle hdst hsrc hs

end Cases

theorem decodeLoop_next {bufsz : ℕ} {v v' : Decoding} (h : decodeCase bufsz v = .next v') :
    decodeLoop bufsz v = decodeLoop bufsz v' := by
  rw [decodeLoop]
  split <;> simp_all

theorem decodeLoop_exit {bufsz : ℕ} {v v' : Decoding} {ret : ℤ}
    (h : decodeCase bufsz v = .exit ret v') : decodeLoop bufsz v = (ret, v') := by
  rw [decodeLoop]
  split <;> simp_all

theorem decodeLoop_complete {bufsz : ℕ} {v v' : Decoding} (h : decodeCase bufsz v = .complete v') :
    decodeLoop bufsz v = ((bufsz : ℤ) - v'.src, v') := by
  rw [decodeLoop]
  split <;> simp_all

/-- The loop does what the bytes do one after the other. -/
theorem decodeLoop_spec (bufsz : ℕ) (v : Decoding) (hdst : v.dst ≤ v.src) (hsrc : v.src ≤ bufsz)
    (hok : v.decoder.Ok) : ∃ data, v.Wrote bufsz (decodeLoop bufsz v).2 data ∧
      decodeBytes v.decoder (v.input bufsz) = ⟨(decodeLoop bufsz v).2.decoder, data,
        (decodeLoop bufsz v).1, (decodeLoop bufsz v).2.input bufsz⟩ := by
  induction v using decodeLoop.induct bufsz with
  | case1 v v' hcase ih =>
    have hf := decodeCase_follows hdst hsrc hok
    rw [hcase] at hf
    obtain ⟨data, hw, hok', heq⟩ := hf
    obtain ⟨more, hw', heq'⟩ := ih hw.dst_le hw.src_le hok'
    rw [decodeLoop_next hcase]
    exact ⟨data ++ more, hw.trans hw', by rw [heq, heq']; rfl⟩
  | case2 v ret v' hcase =>
    have hf := decodeCase_follows hdst hsrc hok
    rw [hcase] at hf
    rw [decodeLoop_exit hcase]
    exact hf
  | case3 v v' hcase =>
    have hf := decodeCase_follows hdst hsrc hok
    rw [hcase] at hf
    rw [decodeLoop_complete hcase]
    exact hf

/-- A call does what the bytes in its buffer do one after the other: its data stands at the start of
the buffer with the bytes left behind it, and nothing outside the buffer has changed. -/
theorem phrDecodeChunked_spec {d : PhrChunkedDecoder} (hok : d.Ok) (buf : ℕ → UInt8) (bufsz : ℕ) :
    ∃ buf' n, phrDecodeChunked d buf bufsz = ((decodeBytes d (load buf 0 bufsz)).ret,
        (decodeBytes d (load buf 0 bufsz)).decoder, buf', n) ∧
      load buf' 0 n = (decodeBytes d (load buf 0 bufsz)).data ∧
      load buf' n (decodeBytes d (load buf 0 bufsz)).left.length =
        (decodeBytes d (load buf 0 bufsz)).left ∧
      n + (decodeBytes d (load buf 0 bufsz)).left.length ≤ bufsz ∧
      ∀ i, bufsz ≤ i → buf' i = buf i := by
  obtain ⟨data, hw, heq⟩ := decodeLoop_spec bufsz ⟨d, buf, 0, 0⟩ (le_refl 0) (Nat.zero_le _) hok
  have hinput : (⟨d, buf, 0, 0⟩ : Decoding).input bufsz = load buf 0 bufsz := rfl
  rw [hinput] at heq
  unfold phrDecodeChunked
  generalize decodeLoop bufsz ⟨d, buf, 0, 0⟩ = r at hw heq
  obtain ⟨ret, v⟩ := r
  rw [heq]
  have hleft : (v.input bufsz).length = bufsz - v.src := length_load _ _ _
  have hout : load v.buf 0 v.dst = data := hw.out
  have hdst : v.dst ≤ v.src := hw.dst_le
  have hsrc : v.src ≤ bufsz := hw.src_le
  refine ⟨_, _, rfl, ?_, ?_, ?_, ?_⟩
  · show load (if v.dst ≠ v.src then _ else _) 0 v.dst = data
    split_ifs
    · rw [memmove, load_store_disjoint (Or.inl (by omega)), hout]
    · exact hout
  · show load (if v.dst ≠ v.src then _ else _) v.dst (v.input bufsz).length = v.input bufsz
    split_ifs with heq
    · exact load_store _ _ _
    · rw [hleft, not_not.mp heq]
      rfl
  · show v.dst + (v.input bufsz).length ≤ bufsz
    omega
  · intro i hi
    show (if v.dst ≠ v.src then memmove v.buf v.dst v.src (bufsz - v.src) else v.buf) i = buf i
    split_ifs
    · rw [memmove, store_of_ge (by rw [length_load]; omega)]
      exact hw.beyond i hi
    · exact hw.beyond i hi

/-! ### The stream -/

theorem decodeBytes_cases (d : PhrChunkedDecoder) (bs : List UInt8) :
    (∃ d' data, decodeBytes d bs = ⟨d', data, -2, []⟩) ∨
      (∃ d' data left, decodeBytes d bs = ⟨d', data, -1, left⟩) ∨
      ∃ d' data left, decodeBytes d bs = ⟨d', data, (left.length : ℕ), left⟩ := by
  induction bs generalizing d with
  | nil => exact Or.inl ⟨d, [], rfl⟩
  | cons b bs ih =>
    cases hb : d.byte b with
    | going d' data =>
      rw [decodeBytes_going hb]
      rcases ih d' with ⟨e, more, h⟩ | ⟨e, more, left, h⟩ | ⟨e, more, left, h⟩
      · exact Or.inl ⟨e, data ++ more, by rw [h]; rfl⟩
      · exact Or.inr (Or.inl ⟨e, data ++ more, left, by rw [h]; rfl⟩)
      · exact Or.inr (Or.inr ⟨e, data ++ more, left, by rw [h]; rfl⟩)
    | invalid => exact Or.inr (Or.inl ⟨d, [], b :: bs, decodeBytes_invalid hb bs⟩)
    | done d' => exact Or.inr (Or.inr ⟨d', [], bs, decodeBytes_done hb bs⟩)

/-- More bytes behind bytes that were not the end. -/
theorem decodeBytes_append {d d' : PhrChunkedDecoder} {as data : List UInt8}
    (h : decodeBytes d as = ⟨d', data, -2, []⟩) (bs : List UInt8) :
    decodeBytes d (as ++ bs) = (decodeBytes d' bs).behind data := by
  induction as generalizing d data with
  | nil =>
    cases h
    rfl
  | cons a as ih =>
    cases ha : d.byte a with
    | going e more =>
      rw [decodeBytes_going ha] at h
      rw [List.cons_append, decodeBytes_going ha]
      cases hr : decodeBytes e as with
      | mk e' rest ret left =>
        rw [hr] at h
        cases h
        rw [ih hr, Decoded.behind_behind]
    | invalid =>
      rw [decodeBytes_invalid ha] at h
      cases h
    | done e =>
      rw [decodeBytes_done ha] at h
      cases h

/-- What follows an error or the end is left. -/
theorem decodeBytes_append_left {d d' : PhrChunkedDecoder} {as data left : List UInt8} {ret : ℤ}
    (h : decodeBytes d as = ⟨d', data, ret, left⟩) (hret : ret ≠ -2) (bs : List UInt8) :
    decodeBytes d (as ++ bs) = ⟨d', data, if ret = -1 then -1 else ret + bs.length, left ++ bs⟩ := by
  induction as generalizing d data with
  | nil =>
    cases h
    exact absurd rfl hret
  | cons a as ih =>
    cases ha : d.byte a with
    | going e more =>
      rw [decodeBytes_going ha] at h
      rw [List.cons_append, decodeBytes_going ha]
      cases hr : decodeBytes e as with
      | mk e' rest ret' left' =>
        rw [hr] at h
        cases h
        rw [ih hr]
        rfl
    | invalid =>
      rw [decodeBytes_invalid ha] at h
      cases h
      rw [List.cons_append, decodeBytes_invalid ha, if_pos rfl]
    | done e =>
      rw [decodeBytes_done ha] at h
      cases h
      rw [List.cons_append, decodeBytes_done ha, if_neg (by omega), List.length_append]
      rfl

theorem PhrChunkedDecoder.byte_ok {d d' : PhrChunkedDecoder} {b : UInt8} {data : List UInt8}
    (hok : d.Ok) (h : d.byte b = .going d' data) : d'.Ok := by
  have hext : ∀ e : PhrChunkedDecoder, e.ext b = .going d' data → d'.Ok := by
    intro e he
    unfold PhrChunkedDecoder.ext at he
    split_ifs at he with h1 h2 h3
    · cases he
      exact fun hs => absurd hs (by simp)
    · cases he
      exact fun _ => h2
    · cases he
      exact fun hs => absurd hs (by simp)
  unfold PhrChunkedDecoder.byte at h
  cases hs : d.state with
  | inChunkSize =>
    simp only [hs] at h
    cases hx : decodeHex b with
    | none =>
      simp only [hx] at h
      split_ifs at h
      exact hext _ h
    | some x =>
      simp only [hx] at h
      split_ifs at h
      cases h
      exact fun hs' => absurd (hs.symm.trans hs') (by simp)
  | inChunkExt =>
    simp only [hs] at h
    exact hext _ h
  | inChunkData =>
    simp only [hs] at h
    cases h
    unfold PhrChunkedDecoder.took
    have h0 := hok hs
    split_ifs with h1
    · exact fun hs' => absurd hs' (by simp)
    · intro _
      show d.bytesLeftInChunk - 1 ≠ 0
      omega
  | inChunkCrlf =>
    simp only [hs] at h
    split_ifs at h <;> cases h
    · exact hok
    · exact fun hs' => absurd hs' (by simp)
  | inTrailersLineHead =>
    simp only [hs] at h
    split_ifs at h <;> cases h
    · exact hok
    · exact fun hs' => absurd hs' (by simp)
  | inTrailersLineMiddle =>
    simp only [hs] at h
    split_ifs at h <;> cases h
    · exact fun hs' => absurd hs' (by simp)
    · exact hok

theorem decodeBytes_ok {d d' : PhrChunkedDecoder} {bs data : List UInt8} (hok : d.Ok)
    (h : decodeBytes d bs = ⟨d', data, -2, []⟩) : d'.Ok := by
  induction bs generalizing d data with
  | nil =>
    cases h
    exact hok
  | cons b bs ih =>
    cases hb : d.byte b with
    | going e more =>
      rw [decodeBytes_going hb] at h
      cases hr : decodeBytes e bs with
      | mk e' rest ret left =>
        rw [hr] at h
        cases h
        exact ih (PhrChunkedDecoder.byte_ok hok hb) hr
    | invalid =>
      rw [decodeBytes_invalid hb] at h
      cases h
    | done e =>
      rw [decodeBytes_done hb] at h
      cases h

/-- The bytes in the buffers of some calls, in order. -/
def arrived (calls : List ((ℕ → UInt8) × ℕ)) : List UInt8 := calls.flatMap fun c => load c.1 0 c.2

/-- Calls with these buffers, up to the first that does not return -2: what it returned, the data of
all of them, and the bytes it left behind its own. -/
def decodeCalls (d : PhrChunkedDecoder) :
    List ((ℕ → UInt8) × ℕ) → ℤ × List UInt8 × List UInt8
  | [] => (-2, [], [])
  | (buf, bufsz) :: calls =>
    let (ret, d', buf', n) := phrDecodeChunked d buf bufsz
    if ret = -2 then
      let (ret, data, left) := decodeCalls d' calls
      (ret, load buf' 0 n ++ data, left)
    else (ret, load buf' 0 n, load buf' n ret.toNat)

/-- A call of which the bytes are not the end. -/
theorem decodeCalls_more {d d' : PhrChunkedDecoder} (hok : d.Ok) {buf : ℕ → UInt8} {bufsz : ℕ}
    {data : List UInt8} (h : decodeBytes d (load buf 0 bufsz) = ⟨d', data, -2, []⟩)
    (calls : List ((ℕ → UInt8) × ℕ)) : decodeCalls d ((buf, bufsz) :: calls) =
      ((decodeCalls d' calls).1, data ++ (decodeCalls d' calls).2.1,
        (decodeCalls d' calls).2.2) := by
  obtain ⟨buf', n, hcall, hdata, -⟩ := phrDecodeChunked_spec hok buf bufsz
  rw [h] at hcall hdata
  rw [decodeCalls, hcall]
  show (_, load buf' 0 n ++ _, _) = _
  rw [hdata]

/-- A call of which the bytes are the end, or an error. -/
theorem decodeCalls_last {d d' : PhrChunkedDecoder} (hok : d.Ok) {buf : ℕ → UInt8} {bufsz : ℕ}
    {data left : List UInt8} {ret : ℤ} (hret : ret ≠ -2)
    (h : decodeBytes d (load buf 0 bufsz) = ⟨d', data, ret, left⟩)
    (calls : List ((ℕ → UInt8) × ℕ)) :
    (decodeCalls d ((buf, bufsz) :: calls)).1 = ret ∧
      (decodeCalls d ((buf, bufsz) :: calls)).2.1 = data ∧
      (ret = left.length → (decodeCalls d ((buf, bufsz) :: calls)).2.2 = left) := by
  obtain ⟨buf', n, hcall, hdata, hleft, -⟩ := phrDecodeChunked_spec hok buf bufsz
  rw [h] at hcall hdata hleft
  rw [decodeCalls, hcall]
  simp only [if_neg hret, true_and]
  refine ⟨hdata, fun hlen => ?_⟩
  rw [hlen, Int.toNat_natCast]
  exact hleft

/-- Before bytes that are not the end there are none that are. -/
theorem decodeBytes_split {d d' : PhrChunkedDecoder} {as bs data : List UInt8}
    (h : decodeBytes d (as ++ bs) = ⟨d', data, -2, []⟩) : ∃ e more rest,
      decodeBytes d as = ⟨e, more, -2, []⟩ ∧ decodeBytes e bs = ⟨d', rest, -2, []⟩ ∧
      data = more ++ rest := by
  rcases decodeBytes_cases d as with ⟨e, more, has⟩ | ⟨e, more, left, has⟩ | ⟨e, more, left, has⟩
  · rw [decodeBytes_append has] at h
    cases hbs : decodeBytes e bs with
    | mk e' rest ret left =>
      rw [hbs] at h
      cases h
      exact ⟨e, more, rest, has, hbs, rfl⟩
  · rw [decodeBytes_append_left has (by decide)] at h
    cases h
  · rw [decodeBytes_append_left has (by omega), if_neg (by omega)] at h
    have hret := congrArg Decoded.ret h
    simp only at hret
    omega

/-- Calls that do not bring the end return -2, and hand on their data. -/
theorem decodeCalls_append {d d' : PhrChunkedDecoder} (hok : d.Ok)
    {pre : List ((ℕ → UInt8) × ℕ)} {data : List UInt8}
    (h : decodeBytes d (arrived pre) = ⟨d', data, -2, []⟩) (calls : List ((ℕ → UInt8) × ℕ)) :
    decodeCalls d (pre ++ calls) = ((decodeCalls d' calls).1, data ++ (decodeCalls d' calls).2.1,
      (decodeCalls d' calls).2.2) := by
  induction pre generalizing d data with
  | nil =>
    cases h
    rfl
  | cons c pre ih =>
    obtain ⟨e, more, rest, hc, hpre, rfl⟩ := @decodeBytes_split _ _ (load c.1 0 c.2) _ _ h
    rw [List.cons_append, decodeCalls_more hok hc, ih (decodeBytes_ok hok hc) hpre,
      List.append_assoc]

/-- The end comes with the bytes of some call, or it does not come. -/
theorem calls_cases (d : PhrChunkedDecoder) (calls : List ((ℕ → UInt8) × ℕ)) :
    (∃ d' data, decodeBytes d (arrived calls) = ⟨d', data, -2, []⟩) ∨
      ∃ pre buf bufsz post d' sofar d'' data ret left, calls = pre ++ (buf, bufsz) :: post ∧
        decodeBytes d (arrived pre) = ⟨d', sofar, -2, []⟩ ∧
        decodeBytes d' (load buf 0 bufsz) = ⟨d'', data, ret, left⟩ ∧ ret ≠ -2 := by
  induction calls generalizing d with
  | nil => exact Or.inl ⟨d, [], rfl⟩
  | cons c calls ih =>
    obtain ⟨buf, bufsz⟩ := c
    rcases decodeBytes_cases d (load buf 0 bufsz) with ⟨e, more, hc⟩ | ⟨e, more, left, hc⟩ |
      ⟨e, more, left, hc⟩
    · have hbehind : ∀ calls', decodeBytes d (arrived ((buf, bufsz) :: calls')) =
          (decodeBytes e (arrived calls')).behind more := fun calls' => decodeBytes_append hc _
      rcases ih e with ⟨d', data, h⟩ | ⟨pre, buf', bufsz', post, d', sofar, d'', data, ret, left, rfl,
        hpre, hlast, hret⟩
      · exact Or.inl ⟨d', more ++ data, by rw [hbehind, h]; rfl⟩
      · exact Or.inr ⟨(buf, bufsz) :: pre, buf', bufsz', post, d', more ++ sofar, d'', data, ret, left,
          rfl, by rw [hbehind, hpre]; rfl, hlast, hret⟩
    · exact Or.inr ⟨[], buf, bufsz, calls, d, [], e, more, -1, left, rfl, rfl, hc, by decide⟩
    · exact Or.inr ⟨[], buf, bufsz, calls, d, [], e, more, left.length, left, rfl, rfl, hc, by omega⟩

/-- The calls come to the end in the call that brings it. -/
theorem decodeCalls_complete_iff {d : PhrChunkedDecoder} (hok : d.Ok)
    {calls : List ((ℕ → UInt8) × ℕ)} {data left : List UInt8} :
    decodeCalls d calls = ((left.length : ℤ), data, left) ↔
      ∃ pre buf bufsz post d' sofar d'', calls = pre ++ (buf, bufsz) :: post ∧
        decodeBytes d (arrived pre) = ⟨d', sofar, -2, []⟩ ∧
        decodeBytes d (arrived pre ++ load buf 0 bufsz) = ⟨d'', data, left.length, left⟩ := by
  constructor
  · intro h
    rcases calls_cases d calls with ⟨d', more, hall⟩ | ⟨pre, buf, bufsz, post, d', sofar, d'', more,
      ret, rest, rfl, hpre, hlast, hret⟩
    · have happend := decodeCalls_append hok hall []
      rw [List.append_nil, h] at happend
      have hret : (left.length : ℤ) = -2 := congrArg Prod.fst happend
      omega
    · obtain ⟨h1, h2, h3⟩ := decodeCalls_last (decodeBytes_ok hok hpre) hret hlast post
      rw [decodeCalls_append hok hpre, Prod.mk.injEq, Prod.mk.injEq, h1, h2] at h
      obtain ⟨hlen, hdata, hleft⟩ := h
      refine ⟨pre, buf, bufsz, post, d', sofar, d'', rfl, hpre, ?_⟩
      rw [decodeBytes_append hpre, hlast, hlen, ← hdata]
      rcases decodeBytes_cases d' (load buf 0 bufsz) with ⟨e, x, hc⟩ | ⟨e, x, y, hc⟩ | ⟨e, x, y, hc⟩
      · rw [hc] at hlast
        cases hlast
        exact absurd rfl hret
      · rw [hc] at hlast
        cases hlast
        omega
      · rw [hc] at hlast
        have hrest : y = rest := congrArg Decoded.left hlast
        have hy : (y.length : ℤ) = ret := congrArg Decoded.ret hlast
        rw [h3 (by rw [← hy, hrest])] at hleft
        rw [hleft]
        rfl
  · rintro ⟨pre, buf, bufsz, post, d', sofar, d'', rfl, hpre, hlast⟩
    rw [decodeBytes_append hpre] at hlast
    cases hr : decodeBytes d' (load buf 0 bufsz) with
    | mk e more ret rest =>
      rw [hr] at hlast
      obtain ⟨rfl, hdata, hret, rfl⟩ : e = d'' ∧ sofar ++ more = data ∧ ret = left.length ∧
          rest = left := by simpa [Decoded.behind] using hlast
      obtain ⟨h1, h2, h3⟩ := decodeCalls_last (decodeBytes_ok hok hpre) (by omega) hr post
      rw [decodeCalls_append hok hpre, h1, h2, h3 hret, hdata, hret]

end Ruru.Http
