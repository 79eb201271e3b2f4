import Ruru.Http.Passes
import Ruru.Moves
import Ruru.PlainLibs

/-!
# Ruru.Http.Termination — when `HttpRequestHandle` gives control back

The receive loop is left only by closing the connection.  A read that would block takes one byte
off the buffer and goes round again; so on a connection with nothing more to read the loop is left
only if one of the shorter and shorter buffers, or one of those before, decides.
-/

namespace Ruru

open Memory Http

/-- How a stream ends: it is closed, or every further read fails, with `EAGAIN` if it would block. -/
inductive StreamEnd where
  | eof
  | fail (errno : ℕ)
deriving DecidableEq

/-- What `read` does from then on. -/
def StreamEnd.result : StreamEnd → ReadResult
  | .eof => .bytes []
  | .fail errno => .fail errno

/-- The chunks, and then `k` times the end. -/
def streamReads (chunks : List (List UInt8)) (last : StreamEnd) (k : ℕ) : List ReadResult :=
  chunks.map .bytes ++ List.replicate k last.result

/-- The parse after one of the chunks is decisive. -/
def DecidedByChunk (con : RuruConnectionData) (chunks : List (List UInt8)) : Prop :=
  ∃ pre chunk post, chunks = pre ++ chunk :: post ∧
    decisive (con.grown (pre ++ [chunk]).flatten) (con.length.toNat + pre.flatten.length) = true

/-- One of the parses after reads that would block, each of one byte less, is decisive. -/
def DecidedByShrinking (con : RuruConnectionData) : Prop :=
  ∃ k : ℕ, (k : ℤ) < con.length ∧ decisive { con with length := k } (k + 1) = true

/-! ### The chunks -/

theorem decidedByChunk_cons {con : RuruConnectionData} (h0 : 0 ≤ con.length) (c : List UInt8)
    (cs : List (List UInt8)) : DecidedByChunk con (c :: cs) ↔
      decisive (con.grown c) con.length.toNat = true ∨ DecidedByChunk (con.grown c) cs := by
  have hshift : ∀ (pre : List (List UInt8)) (x : List UInt8),
      (con.grown c).grown (pre ++ [x]).flatten = con.grown (c :: pre ++ [x]).flatten ∧
        (con.grown c).length.toNat + pre.flatten.length =
          con.length.toNat + (c :: pre).flatten.length := by
    intro pre x
    rw [con.grown_grown h0, con.length_grown, List.flatten_cons, List.length_append]
    refine ⟨by simp, by omega⟩
  constructor
  · rintro ⟨pre, x, post, hp, hd⟩
    cases pre with
    | nil =>
      obtain ⟨rfl, -⟩ := List.cons_eq_cons.mp hp
      left
      simpa using hd
    | cons c' pre =>
      obtain ⟨rfl, rfl⟩ := List.cons_eq_cons.mp hp
      right
      refine ⟨pre, x, post, rfl, ?_⟩
      rw [(hshift pre x).1, (hshift pre x).2]
      exact hd
  · rintro (hd | ⟨pre, x, post, rfl, hd⟩)
    · exact ⟨[], c, cs, rfl, by simpa using hd⟩
    · refine ⟨c :: pre, x, post, rfl, ?_⟩
      rw [(hshift pre x).1, (hshift pre x).2] at hd
      exact hd

/-- While the buffer has room, the chunks are left at a decisive parse or all read. -/
theorem httpLoop_chunks {con : RuruConnectionData} (h0 : 0 ≤ con.length)
    {chunks : List (List UInt8)} (hne : ∀ c ∈ chunks, c ≠ [])
    (hroom : con.length + chunks.flatten.length < HTTP_MAX_SIZE) :
    (DecidedByChunk con chunks ∧ (httpLoop con (chunks.map .bytes)).left = true) ∨
      (¬DecidedByChunk con chunks ∧
        httpLoop con (chunks.map .bytes) = .reading (con.grown chunks.flatten)) := by
  induction chunks generalizing con with
  | nil =>
    refine Or.inr ⟨?_, by simp [httpLoop]⟩
    rintro ⟨pre, x, post, hp, -⟩
    exact absurd hp.symm (by simp)
  | cons c cs ih =>
    rw [List.flatten_cons, List.length_append] at hroom
    have hpass : httpPass con (.bytes c) = httpParse (con.grown c) con.length.toNat :=
      httpPass_chunk h0 (by omega) (hne c (by simp)) (by omega)
    have h0' : 0 ≤ (con.grown c).length := by rw [con.length_grown]; omega
    rw [decidedByChunk_cons h0]
    rcases httpParse_cases h0' con.length.toNat with ⟨hd, hleft⟩ | ⟨hd, hreading⟩
    · left
      refine ⟨Or.inl hd, ?_⟩
      rw [← hpass] at hleft
      rw [List.map_cons, httpLoop_cons_of_left hleft]
      exact hleft
    · rw [← hpass] at hreading
      rw [List.map_cons, httpLoop_cons_of_reading hreading, List.flatten_cons,
        ← con.grown_grown h0]
      have hroom' : (con.grown c).length + cs.flatten.length < HTTP_MAX_SIZE := by
        rw [con.length_grown]
        omega
      simp only [hd, Bool.false_eq_true, false_or]
      exact ih h0' (fun x hx => hne x (by simp [hx])) hroom'

/-- With enough bytes to fill it, the buffer decides or the read after that returns 0. -/
theorem httpLoop_filled {con : RuruConnectionData} (h0 : 0 ≤ con.length)
    (h1 : con.length ≤ HTTP_MAX_SIZE) {chunks : List (List UInt8)} (hne : ∀ c ∈ chunks, c ≠ [])
    (hfull : HTTP_MAX_SIZE ≤ con.length + chunks.flatten.length) (r : ReadResult) :
    (httpLoop con (chunks.map .bytes ++ [r])).left = true := by
  have hmax : (HTTP_MAX_SIZE : ℤ) = 4096 := rfl
  have hmax' : HTTP_MAX_SIZE = 4096 := rfl
  induction chunks generalizing con with
  | nil =>
    have hpass : httpPass con r = .closed := httpPass_full (by simp at hfull; omega) r
    simp [hpass, HttpState.left]
  | cons c cs ih =>
    by_cases hlt : con.length = HTTP_MAX_SIZE
    · have hpass : (httpPass con (.bytes c)).left = true := by rw [httpPass_full hlt]; rfl
      rw [List.map_cons, List.cons_append, httpLoop_cons_of_left hpass]
      exact hpass
    · have hroom : con.length < HTTP_MAX_SIZE := by omega
      have hpass := httpPass_bytes h0 hroom (hne c (by simp))
      have hlen : (c.take con.readSize).length = min (4096 - con.length.toNat) c.length := by
        rw [List.length_take, con.readSize_eq h0 h1]
        rfl
      have h0' : 0 ≤ (con.grown (c.take con.readSize)).length := by
        rw [con.length_grown]
        omega
      rcases httpParse_cases h0' con.length.toNat with ⟨-, hleft⟩ | ⟨-, hreading⟩
      · rw [← hpass] at hleft
        rw [List.map_cons, List.cons_append, httpLoop_cons_of_left hleft]
        exact hleft
      · rw [← hpass] at hreading
        rw [List.map_cons, List.cons_append, httpLoop_cons_of_reading hreading]
        rw [List.flatten_cons, List.length_append] at hfull
        refine ih h0' ?_ (fun x hx => hne x (by simp [hx])) ?_
        · rw [con.length_grown]
          omega
        · rw [con.length_grown]
          omega

/-! ### The end of the stream -/

/-- A stream that ends or breaks is closed. -/
theorem httpPass_ended {con : RuruConnectionData} (h0 : 0 ≤ con.length)
    (h1 : con.length < HTTP_MAX_SIZE) {last : StreamEnd} (hlast : last ≠ .fail EAGAIN) :
    httpPass con last.result = .closed := by
  cases last with
  | eof => exact httpPass_eof h0 h1
  | fail errno => exact httpPass_error h0 h1 fun he => hlast (by rw [he])

/-- Reads that would block take the buffer back byte by byte. -/
theorem httpLoop_shrinking (n : ℕ) {con : RuruConnectionData} (hn : con.length = n)
    (h1 : con.length < HTTP_MAX_SIZE) :
    (∃ k, (httpLoop con (List.replicate k (.fail EAGAIN))).left = true) ↔
      DecidedByShrinking con := by
  induction n generalizing con with
  | zero =>
    -- the next read makes the length negative
    have hpass : httpPass con (.fail EAGAIN) = .undefined := by
      rw [httpPass_wouldBlock (by omega) h1]
      exact if_pos (by simp [hn])
    constructor
    · rintro ⟨_ | k, hk⟩
      · exact absurd hk (by simp [httpLoop, HttpState.left])
      · rw [List.replicate_succ] at hk
        simp [httpLoop, hpass, HttpState.left] at hk
    · rintro ⟨k, hk, -⟩
      omega
  | succ n ih =>
    have hpass : httpPass con (.fail EAGAIN) = httpParse { con with length := n } (n + 1) := by
      rw [httpPass_wouldBlock (by omega) h1, hn]
      congr 2
      omega
    have hlt : (n : ℤ) < HTTP_MAX_SIZE := by omega
    rcases @httpParse_cases { con with length := n } (Int.natCast_nonneg n) (n + 1) with
      ⟨hd, hleft⟩ | ⟨hd, hreading⟩
    · refine ⟨fun _ => ⟨n, by omega, hd⟩, fun _ => ⟨1, ?_⟩⟩
      rw [← hpass] at hleft
      rw [List.replicate_succ, httpLoop_cons_of_left hleft]
      exact hleft
    · rw [← hpass] at hreading
      have hrest := @ih { con with length := n } rfl hlt
      constructor
      · rintro ⟨_ | k, hk⟩
        · exact absurd hk (by simp [httpLoop, HttpState.left])
        · rw [List.replicate_succ, httpLoop_cons_of_reading hreading] at hk
          obtain ⟨j, hj, hdj⟩ := hrest.mp ⟨k, hk⟩
          exact ⟨j, by have : (j : ℤ) < n := hj; omega, hdj⟩
      · rintro ⟨j, hj, hdj⟩
        by_cases hjn : j = n
        · subst hjn
          exact absurd (hd.symm.trans hdj) (by simp)
        · obtain ⟨k, hk⟩ := hrest.mpr ⟨j, by show (j : ℤ) < n; omega, hdj⟩
          exact ⟨k + 1, by rw [List.replicate_succ, httpLoop_cons_of_reading hreading]; exact hk⟩

/-- When the loop is left. -/
theorem httpLoop_left_iff {con : RuruConnectionData} (h0 : 0 ≤ con.length)
    (h1 : con.length ≤ HTTP_MAX_SIZE) {chunks : List (List UInt8)} (hne : ∀ c ∈ chunks, c ≠ [])
    (last : StreamEnd) :
    (∃ k, (httpLoop con (streamReads chunks last k)).left = true) ↔
      last ≠ .fail EAGAIN ∨ HTTP_MAX_SIZE ≤ con.length + chunks.flatten.length ∨
        DecidedByChunk con chunks ∨ DecidedByShrinking (con.grown chunks.flatten) := by
  by_cases hfull : HTTP_MAX_SIZE ≤ con.length + chunks.flatten.length
  · refine ⟨fun _ => Or.inr (Or.inl hfull), fun _ => ⟨1, ?_⟩⟩
    exact httpLoop_filled h0 h1 hne hfull last.result
  have hroom : con.length + chunks.flatten.length < HTTP_MAX_SIZE := by omega
  rcases httpLoop_chunks h0 hne hroom with ⟨hd, hleft⟩ | ⟨hd, hreading⟩
  · refine ⟨fun _ => Or.inr (Or.inr (Or.inl hd)), fun _ => ⟨0, ?_⟩⟩
    rw [streamReads, httpLoop_append_of_left hleft]
    exact hleft
  · simp only [streamReads, httpLoop_append_of_reading hreading, hfull, hd, false_or]
    have h0' : 0 ≤ (con.grown chunks.flatten).length := by rw [con.length_grown]; omega
    by_cases hlast : last = .fail EAGAIN
    · subst hlast
      simp only [ne_eq, not_true, false_or]
      exact httpLoop_shrinking _ (Int.toNat_of_nonneg h0').symm hroom
    · refine ⟨fun _ => Or.inl hlast, fun _ => ⟨1, ?_⟩⟩
      have hpass := httpPass_ended h0' hroom hlast
      simp [hpass, HttpState.left]

/-! ### `HttpRequestHandle` -/

namespace RuruLoop

variable {σ υ : Type} (env : Env σ υ)

theorem cons_registerClient (s : RuruLoop σ υ) (address : RuruAddress) :
    (s.registerClient env address).cons = s.cons := by
  have hm : Moves true s (s.registerClient env address) := moves_registerClient env s address
  exact hm.cons

/-- A call returns exactly if it leaves its loop, and then it has deleted the record. -/
theorem httpRequestHandle_cases (s : RuruLoop σ υ) (c : ConId) (con : RuruConnectionData)
    (reads : List ReadResult) :
    ((httpLoop con reads).left = true ∧
      ∃ s', s.httpRequestHandle env c con reads = some s' ∧ s'.cons = s.cons.set c none) ∨
    ((httpLoop con reads).left = false ∧ s.httpRequestHandle env c con reads = none) := by
  unfold httpRequestHandle
  cases httpLoop con reads with
  | reading _ | parsing _ _ | undefined => exact Or.inr ⟨rfl, rfl⟩
  | closed | badRequest => exact Or.inl ⟨rfl, _, rfl, rfl⟩
  | body con' status n =>
    refine Or.inl ⟨rfl, _, rfl, ?_⟩
    cases bodyParse env con'.data status (toInt32 n) with
    | none => rfl
    | some address =>
      show (s.registerClient env address).cons.set c none = s.cons.set c none
      rw [cons_registerClient]

/-- `HttpRequestHandle` returns after finitely many reads, with the connection closed, or open with
its buffer unchanged if the last read would have blocked. -/
def GivesBack (s : RuruLoop σ υ) (c : ConId) (con : RuruConnectionData)
    (chunks : List (List UInt8)) (last : StreamEnd) : Prop :=
  ∃ k s', s.httpRequestHandle env c con (streamReads chunks last k) = some s' ∧
    (s'.cons = s.cons.set c none ∨ last = .fail EAGAIN ∧ s'.cons = s.cons)

theorem givesBack_iff_left {s : RuruLoop σ υ} {c : ConId} {con : RuruConnectionData}
    {chunks : List (List UInt8)} {last : StreamEnd} : s.GivesBack env c con chunks last ↔
      ∃ k, (httpLoop con (streamReads chunks last k)).left = true := by
  refine exists_congr fun k => ?_
  rcases s.httpRequestHandle_cases env c con (streamReads chunks last k) with
    ⟨hleft, s', hs', hdel⟩ | ⟨hleft, hs'⟩
  · exact ⟨fun _ => hleft, fun _ => ⟨s', hs', Or.inl hdel⟩⟩
  · rw [hleft, hs']
    simp

/-- **Termination.**  On a record in range, `HttpRequestHandle` gives control back exactly if the
stream ends or breaks, or brings enough bytes to fill the buffer, or else if one of its chunks
decides, or one of the buffers that reads that would block leave. -/
theorem givesBack_iff (s : RuruLoop σ υ) (c : ConId) {con : RuruConnectionData}
    (h0 : 0 ≤ con.length) (h1 : con.length ≤ HTTP_MAX_SIZE) {chunks : List (List UInt8)}
    (hne : ∀ chunk ∈ chunks, chunk ≠ []) (last : StreamEnd) :
    s.GivesBack env c con chunks last ↔
      last ≠ .fail EAGAIN ∨ HTTP_MAX_SIZE ≤ con.length + chunks.flatten.length ∨
        DecidedByChunk con chunks ∨ DecidedByShrinking (con.grown chunks.flatten) := by
  rw [givesBack_iff_left]
  exact httpLoop_left_iff h0 h1 hne last

/-- Three bytes and the end of the stream. -/
theorem givesBack_ended : sampleLoop.GivesBack plainEnv 2 { fd := 5 } [[71, 69, 84]] .eof :=
  (givesBack_iff plainEnv sampleLoop 2 (le_refl 0) (by decide) (by decide) .eof).mpr
    (Or.inl (by decide))

/-- The start of a request. -/
def requestLine : List UInt8 := ascii "GET / HTTP/1.1\r\n"

/-- The start of a request, and then nothing for ever. -/
theorem not_givesBack_waiting :
    ¬sampleLoop.GivesBack plainEnv 2 { fd := 5 } [requestLine] (.fail EAGAIN) := by
  rw [givesBack_iff_left, httpLoop_left_iff (le_refl 0) (by decide) (by decide)]
  rintro (hlast | hfull | ⟨pre, chunk, post, hp, hd⟩ | ⟨k, hk, hd⟩)
  · exact hlast rfl
  · exact absurd hfull (by decide +kernel)
  · have hfirst : decisive (({ fd := 5 } : RuruConnectionData).grown requestLine) 0 = false := by
      decide +kernel
    cases pre with
    | nil =>
      obtain ⟨rfl, -⟩ := List.cons_eq_cons.mp hp
      exact absurd (hfirst.symm.trans (by simpa using hd)) (by simp)
    | cons x pre => exact absurd (congrArg List.length hp) (by simp)
  · have hrest : ∀ k < 16, decisive { ({ fd := 5 } : RuruConnectionData).grown requestLine with
        length := (k : ℕ) } (k + 1) = false := by
      decide +kernel
    have hlen : (({ fd := 5 } : RuruConnectionData).grown [requestLine].flatten).length = 16 := by
      decide +kernel
    exact absurd ((hrest k (by omega)).symm.trans hd) (by simp)

end RuruLoop

end Ruru
