import Ruru.Http.Handler
import Ruru.Http.PhrFacts

/-!
# Ruru.Http.Passes — one round of the receive loop

What a `read` does to a record whose `length` is between 0 and 4096, when the parse that follows
leaves the loop, and how the loop goes over a list of results that is an append.
-/

namespace Ruru

open Memory Http

namespace RuruConnectionData

/-- The record after the bytes `bs` were read behind what it holds. -/
def grown (con : RuruConnectionData) (bs : List UInt8) : RuruConnectionData :=
  { con with data := store con.data con.length.toNat bs, length := con.length + bs.length }

@[simp] theorem grown_nil (con : RuruConnectionData) : con.grown [] = con := by
  simp [grown]

@[simp] theorem length_grown (con : RuruConnectionData) (bs : List UInt8) :
    (con.grown bs).length = con.length + bs.length := rfl

theorem grown_grown {con : RuruConnectionData} (h0 : 0 ≤ con.length) (as bs : List UInt8) :
    (con.grown as).grown bs = con.grown (as ++ bs) := by
  have hpos : (con.length + as.length).toNat = con.length.toNat + as.length := by omega
  have hlen : con.length + as.length + bs.length = con.length + ((as ++ bs).length : ℕ) := by
    rw [List.length_append]
    omega
  simp only [grown, hpos, hlen, store_store]

/-- The buffer holds what it held, and then the new bytes. -/
theorem load_grown {con : RuruConnectionData} (h0 : 0 ≤ con.length) (bs : List UInt8) :
    load (con.grown bs).data 0 (con.grown bs).length.toNat =
      load con.data 0 con.length.toNat ++ bs := by
  have hpos : (con.length + bs.length).toNat = con.length.toNat + bs.length := by omega
  have h := load_store_append con.data 0 con.length.toNat bs
  rw [Nat.zero_add] at h
  rw [length_grown, hpos]
  exact h

/-- A record that started empty holds what was read. -/
theorem holds_grown {con : RuruConnectionData} (hcon : con.length = 0) (bs : List UInt8) :
    (con.grown bs).length = bs.length ∧ load (con.grown bs).data 0 bs.length = bs := by
  have hlen : (con.grown bs).length = bs.length := by rw [length_grown, hcon, Int.zero_add]
  have hload := load_grown hcon.ge bs
  rw [hlen, Int.toNat_natCast, hcon] at hload
  exact ⟨hlen, hload⟩

theorem readSize_eq {con : RuruConnectionData} (h0 : 0 ≤ con.length)
    (h1 : con.length ≤ HTTP_MAX_SIZE) : con.readSize = HTTP_MAX_SIZE - con.length.toNat := by
  have hmax : (HTTP_MAX_SIZE : ℤ) = 4096 := rfl
  have hmax' : HTTP_MAX_SIZE = 4096 := rfl
  unfold readSize
  rw [toSize_of_nonneg (by omega) (by omega)]
  omega

end RuruConnectionData

/-! ### The two halves -/

section Halves

variable {con : RuruConnectionData} (h0 : 0 ≤ con.length) (h1 : con.length ≤ HTTP_MAX_SIZE)

include h0 h1

theorem httpRead_bytes {bs : List UInt8} (hgot : bs.take con.readSize ≠ []) :
    httpRead con (.bytes bs) =
      .parsing (con.grown (bs.take con.readSize)) con.length.toNat := by
  have hmax : (HTTP_MAX_SIZE : ℤ) = 4096 := rfl
  have hsize : con.readSize = HTTP_MAX_SIZE - con.length.toNat := con.readSize_eq h0 h1
  have hlen : (bs.take con.readSize).length ≤ 4096 := by
    rw [List.length_take, hsize]
    have hmax' : HTTP_MAX_SIZE = 4096 := rfl
    omega
  have hnarrow : toInt32 (con.length + (bs.take con.readSize).length) =
      con.length + (bs.take con.readSize).length := toInt32_of_lt (by omega) (by omega)
  have hlast : toSize con.length = con.length.toNat := toSize_of_nonneg h0 (by omega)
  unfold httpRead
  rw [if_neg (by omega)]
  simp only [ReadResult.got, if_neg hgot, hnarrow, hlast]
  rfl

theorem httpRead_nothing {bs : List UInt8} (hgot : bs.take con.readSize = []) :
    httpRead con (.bytes bs) = .closed := by
  unfold httpRead
  rw [if_neg (by omega)]
  exact if_pos hgot

theorem httpRead_error {errno : ℕ} (he : errno ≠ EAGAIN) :
    httpRead con (.fail errno) = .closed := by
  unfold httpRead
  rw [if_neg (by omega)]
  simp only [if_pos he]

/-- A read that would block is counted as -1 byte. -/
theorem httpRead_wouldBlock : httpRead con (.fail EAGAIN) =
    .parsing { con with length := con.length - 1 } con.length.toNat := by
  have hmax : (HTTP_MAX_SIZE : ℤ) = 4096 := rfl
  have hnarrow : toInt32 (con.length - 1) = con.length - 1 := toInt32_of_lt (by omega) (by omega)
  have hlast : toSize con.length = con.length.toNat := toSize_of_nonneg h0 (by omega)
  unfold httpRead
  rw [if_neg (by omega)]
  simp only [ne_eq, not_true, if_false, hnarrow, hlast]

end Halves

/-- The handler is about to close the connection. -/
def HttpState.left : HttpState → Bool
  | .closed | .badRequest | .body .. => true
  | _ => false

/-- The parse rejects what is in the buffer, finds the whole request there, or finds the buffer full
of a part of a request. -/
def decisive (con : RuruConnectionData) (lastLen : ℕ) : Bool :=
  match phrParseRequest (load con.data 0 con.length.toNat) maxHeaders lastLen with
  | .ok (status, request) =>
    let n := contentLength con.data request.headers
    0 < n && con.length == toInt32 (status + toInt32 n)
  | .error ret => ret == -1 || con.length == HTTP_MAX_SIZE

/-- A decisive parse leaves the loop, any other one goes on reading. -/
theorem httpParse_cases {con : RuruConnectionData} (h0 : 0 ≤ con.length) (lastLen : ℕ) :
    (decisive con lastLen = true ∧ (httpParse con lastLen).left = true) ∨
      (decisive con lastLen = false ∧ httpParse con lastLen = .reading con) := by
  unfold httpParse decisive
  rw [if_neg (by omega)]
  cases phrParseRequest (load con.data 0 con.length.toNat) maxHeaders lastLen with
  | ok r =>
    obtain ⟨status, request⟩ := r
    dsimp only
    by_cases hn : contentLength con.data request.headers > 0
    · by_cases hlen : con.length =
          toInt32 (status + toInt32 (contentLength con.data request.headers))
      · exact Or.inl ⟨by simp [hn, ← hlen], by simp [hn, ← hlen, HttpState.left]⟩
      · exact Or.inr ⟨by simp [hlen], by simp [hlen]⟩
    · exact Or.inr ⟨by simp [hn], by simp [hn]⟩
  | error ret =>
    dsimp only
    by_cases hret : ret = -1
    · exact Or.inl ⟨by simp [hret], by simp [hret, HttpState.left]⟩
    · by_cases hlen : con.length = HTTP_MAX_SIZE
      · exact Or.inl ⟨by simp [hlen], by simp [hret, hlen, HttpState.left]⟩
      · exact Or.inr ⟨by simp [hret, hlen], by simp [hret, hlen]⟩

/-- Behind a first parse the blank line is looked for first. -/
theorem httpParse_of_ne_zero {con : RuruConnectionData} (h0 : 0 ≤ con.length) {lastLen : ℕ}
    (hlast : lastLen ≠ 0) : httpParse con lastLen =
      match isComplete (load con.data 0 con.length.toNat) lastLen with
      | .ok () => httpParse con 0
      | .error ret =>
        if ret = -1 then .closed
        else if con.length = HTTP_MAX_SIZE then .badRequest
        else .reading con := by
  have hneg : ¬con.length < 0 := by omega
  unfold httpParse
  simp only [if_neg hneg, phrParseRequest_of_ne_zero hlast]
  cases isComplete (load con.data 0 con.length.toNat) lastLen <;> rfl

/-! ### A round -/

/-- With the buffer full, the read returns 0. -/
theorem httpPass_full {con : RuruConnectionData} (h : con.length = HTTP_MAX_SIZE) (r : ReadResult) :
    httpPass con r = .closed := by
  have h0 : 0 ≤ con.length := by rw [h]; exact Int.natCast_nonneg _
  have hsize : con.readSize = 0 := by
    rw [con.readSize_eq h0 h.le, h]
    rfl
  have hread : httpRead con (.bytes []) = .closed := httpRead_nothing h0 h.le List.take_nil
  simp only [httpPass, ReadResult.asked, if_pos hsize, hread]

section Round

variable {con : RuruConnectionData} (h0 : 0 ≤ con.length) (h1 : con.length < HTTP_MAX_SIZE)

include h0 h1

theorem readSize_pos : 0 < con.readSize := by
  rw [con.readSize_eq h0 h1.le]
  omega

theorem httpPass_bytes {bs : List UInt8} (hne : bs ≠ []) : httpPass con (.bytes bs) =
    httpParse (con.grown (bs.take con.readSize)) con.length.toNat := by
  have hpos : 0 < con.readSize := readSize_pos h0 h1
  have hgot : bs.take con.readSize ≠ [] := by
    intro h
    rcases List.take_eq_nil_iff.mp h with h | h
    · omega
    · exact hne h
  simp only [httpPass, ReadResult.asked, if_neg hpos.ne', httpRead_bytes h0 h1.le hgot]

/-- A chunk that fits. -/
theorem httpPass_chunk {bs : List UInt8} (hne : bs ≠ [])
    (hfits : con.length + bs.length ≤ HTTP_MAX_SIZE) :
    httpPass con (.bytes bs) = httpParse (con.grown bs) con.length.toNat := by
  have htake : bs.take con.readSize = bs := by
    refine List.take_of_length_le ?_
    rw [con.readSize_eq h0 h1.le]
    omega
  rw [httpPass_bytes h0 h1 hne, htake]

theorem httpPass_error {errno : ℕ} (he : errno ≠ EAGAIN) :
    httpPass con (.fail errno) = .closed := by
  have hpos : 0 < con.readSize := readSize_pos h0 h1
  simp only [httpPass, ReadResult.asked, if_neg hpos.ne', httpRead_error h0 h1.le he]

theorem httpPass_eof : httpPass con (.bytes []) = .closed := by
  have hread : httpRead con (.bytes []) = .closed := httpRead_nothing h0 h1.le List.take_nil
  simp only [httpPass, ReadResult.asked, ite_self, hread]

theorem httpPass_wouldBlock : httpPass con (.fail EAGAIN) =
    httpParse { con with length := con.length - 1 } con.length.toNat := by
  have hpos : 0 < con.readSize := readSize_pos h0 h1
  simp only [httpPass, ReadResult.asked, if_neg hpos.ne', httpRead_wouldBlock h0 h1.le]

end Round

/-! ### The loop -/

theorem httpLoop_cons_of_reading {con con' : RuruConnectionData} {r : ReadResult}
    (h : httpPass con r = .reading con') (rs : List ReadResult) :
    httpLoop con (r :: rs) = httpLoop con' rs := by
  simp only [httpLoop, h]

theorem httpLoop_cons_of_left {con : RuruConnectionData} {r : ReadResult}
    (h : (httpPass con r).left = true) (rs : List ReadResult) :
    httpLoop con (r :: rs) = httpPass con r := by
  unfold httpLoop
  cases hp : httpPass con r with
  | reading _ => rw [hp] at h; exact absurd h (by simp [HttpState.left])
  | _ => rfl

@[simp] theorem httpLoop_singleton (con : RuruConnectionData) (r : ReadResult) :
    httpLoop con [r] = httpPass con r := by
  unfold httpLoop
  cases httpPass con r <;> rfl

theorem httpLoop_append_of_reading {con con' : RuruConnectionData} {as : List ReadResult}
    (h : httpLoop con as = .reading con') (bs : List ReadResult) :
    httpLoop con (as ++ bs) = httpLoop con' bs := by
  induction as generalizing con with
  | nil =>
    obtain rfl : con = con' := by simpa [httpLoop] using h
    rfl
  | cons a as ih =>
    cases hp : httpPass con a with
    | reading c =>
      rw [httpLoop_cons_of_reading hp] at h
      rw [List.cons_append, httpLoop_cons_of_reading hp]
      exact ih h
    | _ => simp [httpLoop, hp] at h

theorem httpLoop_append_of_left {con : RuruConnectionData} {as : List ReadResult}
    (h : (httpLoop con as).left = true) (bs : List ReadResult) :
    httpLoop con (as ++ bs) = httpLoop con as := by
  induction as generalizing con with
  | nil => exact absurd h (by simp [httpLoop, HttpState.left])
  | cons a as ih =>
    cases hp : httpPass con a with
    | reading c =>
      rw [httpLoop_cons_of_reading hp] at h
      rw [List.cons_append, httpLoop_cons_of_reading hp, httpLoop_cons_of_reading hp]
      exact ih h
    | _ => simp [httpLoop, hp]

/-! ### The descriptor -/

/-- The descriptor of the record a state of the handler works on. -/
def HttpState.fd : HttpState → Option ℤ
  | .reading con | .parsing con _ | .body con _ _ => some con.fd
  | _ => none

theorem fd_httpRead {con : RuruConnectionData} {r : ReadResult} {fd : ℤ}
    (h : (httpRead con r).fd = some fd) : fd = con.fd := by
  unfold httpRead at h
  split_ifs at h
  · exact absurd h (by simp [HttpState.fd])
  · cases r with
    | bytes bs =>
      dsimp only at h
      split_ifs at h
      · exact absurd h (by simp [HttpState.fd])
      · exact (Option.some.inj h).symm
    | fail errno =>
      dsimp only at h
      split_ifs at h
      · exact absurd h (by simp [HttpState.fd])
      · exact (Option.some.inj h).symm

theorem fd_httpParse {con : RuruConnectionData} {lastLen : ℕ} {fd : ℤ}
    (h : (httpParse con lastLen).fd = some fd) : fd = con.fd := by
  unfold httpParse at h
  by_cases hneg : con.length < 0
  · rw [if_pos hneg] at h
    exact absurd h (by simp [HttpState.fd])
  rw [if_neg hneg] at h
  cases hp : phrParseRequest (load con.data 0 con.length.toNat) maxHeaders lastLen with
  | ok r =>
    obtain ⟨status, request⟩ := r
    rw [hp] at h
    dsimp only at h
    split_ifs at h <;> exact (Option.some.inj h).symm
  | error ret =>
    rw [hp] at h
    dsimp only at h
    split_ifs at h
    · exact absurd h (by simp [HttpState.fd])
    · exact absurd h (by simp [HttpState.fd])
    · exact (Option.some.inj h).symm

theorem fd_httpLoop {con : RuruConnectionData} {reads : List ReadResult} {fd : ℤ}
    (h : (httpLoop con reads).fd = some fd) : fd = con.fd := by
  induction reads generalizing con with
  | nil => exact (Option.some.inj h).symm
  | cons r rs ih =>
    have hpass : ∀ fd', (httpPass con r).fd = some fd' → fd' = con.fd := by
      intro fd' hfd'
      unfold httpPass at hfd'
      cases hread : httpRead con (r.asked con.readSize) with
      | parsing con' lastLen =>
        rw [hread] at hfd'
        have hcon' : con'.fd = con.fd := fd_httpRead (by rw [hread]; rfl)
        exact (fd_httpParse hfd').trans hcon'
      | reading _ | closed | badRequest | body _ _ _ | undefined =>
        rw [hread] at hfd'
        exact fd_httpRead (by rw [hread]; exact hfd')
    unfold httpLoop at h
    cases hp : httpPass con r with
    | reading con' =>
      rw [hp] at h
      exact (ih h).trans (hpass con'.fd (by rw [hp]; rfl))
    | parsing _ _ | closed | badRequest | body _ _ _ | undefined =>
      rw [hp] at h
      exact hpass fd (hp ▸ h)

end Ruru
