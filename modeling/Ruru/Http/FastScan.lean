import Ruru.Http.PhrFacts

/-!
# Ruru.Http.FastScan — the scans of picohttpparser as they are compiled

Without SSE4.2 the loop of `get_token_to_eol` is unrolled eight times; with it `findchar_fast` looks
at sixteen bytes at a time, in `parse_token` and `ADVANCE_TOKEN` too.  Both builds of
`phr_parse_request` return on every input what the plain loops return, and read inside the buffer
only: a read outside is a failure of its own here.
-/

namespace Ruru.Http

open Parsing Parsing.Parser

/-- The failure that stands for a read outside the buffer; `*ret` is never set to it. -/
def outside : ℤ := 0

/-- `IS_PRINTABLE_ASCII`, in `unsigned` arithmetic. -/
def isPrintableAscii (c : UInt8) : Bool := (c.toNat + 2 ^ 32 - 32) % 2 ^ 32 < 95

/-- The bytes a scan passed and those that follow, where it stands. -/
abbrev Passed := List UInt8 × List UInt8

/-! ### The unrolled loop -/

/-- Not printable, and either a control character other than HT or DEL. -/
def endsValue (b : UInt8) : Bool := !isPrintableAscii b && (b < 32 && b != HT || b == 127)

/-- `n` times `DOIT()`; the flag tells that it went to `NonPrintable`. -/
def doIt : ℕ → List UInt8 → Except ℤ (Passed × Bool)
  | 0, bs => .ok (([], bs), false)
  | _ + 1, [] => .error outside
  | n + 1, b :: bs =>
    if isPrintableAscii b then (doIt n bs).map fun r => ((b :: r.1.1, r.1.2), r.2)
    else .ok (([], b :: bs), true)

/-- `while (buf_end - buf >= 8)`, for at most `fuel` rounds, each of which passes a byte at least; the
flag tells that it went to `FOUND_CTL`. -/
def unrolled : ℕ → List UInt8 → Except ℤ (Passed × Bool)
  | 0, bs => if bs.length < 8 then .ok (([], bs), false) else .error outside
  | fuel + 1, bs =>
    if bs.length < 8 then .ok (([], bs), false)
    else match doIt 8 bs with
      | .error e => .error e
      | .ok ((us, rest), false) =>
        (unrolled fuel rest).map fun r => ((us ++ r.1.1, r.1.2), r.2)
      | .ok ((_, []), true) => .error outside
      | .ok ((us, b :: rest), true) =>
        if b < 32 && b != HT || b == 127 then .ok ((us, b :: rest), true)
        else (unrolled fuel rest).map fun r => ((us ++ b :: r.1.1, r.1.2), r.2)

/-! ### `findchar_fast` -/

/-- `_mm_loadu_si128`. -/
def loadu (bs : List UInt8) : Except ℤ (List UInt8) :=
  if bs.length < 16 then .error outside else .ok (bs.take 16)

/-- The byte lies in one of the ranges, each given by its two ends. -/
def inRanges : List UInt8 → UInt8 → Bool
  | lo :: hi :: ranges, b => lo ≤ b && b ≤ hi || inRanges ranges b
  | _, _ => false

/-- `_mm_cmpestri` with `_SIDD_LEAST_SIGNIFICANT | _SIDD_CMP_RANGES | _SIDD_UBYTE_OPS`: the index of
the first byte of `b16` that lies in one of the ranges, 16 if none does. -/
def cmpestri (ranges16 : List UInt8) (rangesSize : ℕ) (b16 : List UInt8) : ℕ :=
  b16.findIdx (inRanges (ranges16.take rangesSize))

/-- The loop of `findchar_fast`, when `left` is 16 times as much; the flag is `*found`. -/
def findcharLoop (ranges16 : List UInt8) (rangesSize : ℕ) : ℕ → List UInt8 →
    Except ℤ (Passed × Bool)
  | 0, buf => .ok (([], buf), false)
  | left + 1, buf =>
    match loadu buf with
    | .error e => .error e
    | .ok b16 =>
      let r := cmpestri ranges16 rangesSize b16
      if r ≠ 16 then .ok ((buf.take r, buf.drop r), true)
      else (findcharLoop ranges16 rangesSize left (buf.drop 16)).map fun q =>
        ((b16 ++ q.1.1, q.1.2), q.2)

/-- `findchar_fast` with SSE4.2. -/
def findcharFast (ranges : List UInt8) (rangesSize : ℕ) (buf : List UInt8) :
    Except ℤ (Passed × Bool) :=
  if 16 ≤ buf.length then
    match loadu ranges with
    | .error e => .error e
    | .ok ranges16 => findcharLoop ranges16 rangesSize (buf.length / 16) buf
  else .ok (([], buf), false)

/-- The ranges of `get_token_to_eol`, with the bytes that fill the array up. -/
def ranges1 : List UInt8 := [0, 8, 10, 31, 127, 127] ++ List.replicate 10 0

/-- The ranges of `ADVANCE_TOKEN`. -/
def ranges2 : List UInt8 := [0, 32, 127, 127] ++ List.replicate 12 0

/-- The ranges of `parse_token`. -/
def tokenRanges : List UInt8 :=
  [0, 32, 34, 34, 40, 41, 44, 44, 47, 47, 58, 64, 91, 93, 123, 255]

/-! ### The loops behind them -/

/-- `while (1)` of `parse_token` and `ADVANCE_TOKEN`, which looks for the end after every byte. -/
def tokenLoop (stop bad : UInt8 → Bool) : List UInt8 → Except ℤ Passed
  | [] => .error outside
  | b :: rest =>
    if stop b then .ok ([], b :: rest)
    else if bad b then .error (-1)
    else if rest = [] then .error (-2)
    else (tokenLoop stop bad rest).map fun r => (b :: r.1, r.2)

/-- `for (;; ++buf)` of `get_token_to_eol`. -/
def valueLoop : List UInt8 → Except ℤ Passed
  | [] => .error (-2)
  | b :: rest => if endsValue b then .ok ([], b :: rest)
    else (valueLoop rest).map fun r => (b :: r.1, r.2)

/-- A scan as a parser. -/
def scanning (scan : List UInt8 → Except ℤ Passed) : Phr (List UInt8) := fun c =>
  match scan c.rest with
  | .error e => .error e
  | .ok (us, rest) => .ok (us, ⟨c.pos + us.length, rest⟩)

/-- `if (!found) CHECK_EOF();` and the loop, where the fast scan stands. -/
def afterFast (loop : List UInt8 → Except ℤ Passed) : Except ℤ (Passed × Bool) → Except ℤ Passed
  | .error e => .error e
  | .ok ((us, rest), found) =>
    if found = false ∧ rest = [] then .error (-2)
    else (loop rest).map fun r => (us ++ r.1, r.2)

/-- `goto FOUND_CTL` or the loop, where the fast scan stands. -/
def toFoundCtl : Except ℤ (Passed × Bool) → Except ℤ Passed
  | .error e => .error e
  | .ok ((us, rest), true) => .ok (us, rest)
  | .ok ((us, rest), false) => (valueLoop rest).map fun r => (us ++ r.1, r.2)

/-- The scans that depend on the build: `parse_token`, `ADVANCE_TOKEN`, and `get_token_to_eol` up to
`FOUND_CTL`. -/
structure Scans where
  parseToken : UInt8 → Phr (List UInt8)
  advanceToken : Phr (List UInt8)
  toEol : Phr (List UInt8)

/-- The loop of `ADVANCE_TOKEN`. -/
def advanceLoop : List UInt8 → Except ℤ Passed :=
  tokenLoop (· == SP) fun b => !isPrintableAscii b && (b < 32 || b == 127)

/-- The scans built without SSE4.2, where `findchar_fast` does nothing. -/
def portableScans : Scans where
  parseToken nextChar := scanning fun buf =>
    afterFast (tokenLoop (· == nextChar) fun b => !isTokenChar b) (.ok (([], buf), false))
  advanceToken := scanning fun buf => afterFast advanceLoop (.ok (([], buf), false))
  toEol := scanning fun buf => toFoundCtl (unrolled buf.length buf)

/-- The scans built with SSE4.2. -/
def sseScans : Scans where
  parseToken nextChar := scanning fun buf =>
    afterFast (tokenLoop (· == nextChar) fun b => !isTokenChar b) (findcharFast tokenRanges 16 buf)
  advanceToken := scanning fun buf => afterFast advanceLoop (findcharFast ranges2 4 buf)
  toEol := scanning fun buf => toFoundCtl (findcharFast ranges1 6 buf)

/-! ### `phr_parse_request` with these scans -/

section With

variable (scans : Scans)

/-- `get_token_to_eol`. -/
def getTokenToEolWith : Phr (ℕ × List UInt8) := do
  let start ← offset
  let token ← scans.toEol
  let _ ← lineEnd
  pure (start, token)

/-- The name of a header line. -/
def headerNameWith (continuation : Bool) : Phr (Option ℕ × ℕ) :=
  if continuation = true then pure (none, 0)
  else do
    let name ← offset
    let token ← scans.parseToken 58
    let _ ← failIf (token.length = 0)
    let _ ← next (-2)
    let _ ← skipBlanks
    pure (some name, token.length)

/-- One header line of `parse_headers`. -/
def headerLineWith (continuation : Bool) : Phr PhrHeader := do
  let name ← headerNameWith scans continuation
  let value ← getTokenToEolWith scans
  pure ⟨name.1, name.2, value.1, trimmedLen value.2⟩

/-- `parse_headers`. -/
def parseHeadersWith : ℕ → List PhrHeader → Phr (List PhrHeader)
  | 0, headers => do
    let b ← peek (-2)
    if b = CR ∨ b = LF then lineEnd >>= fun _ => pure headers
    else fail (-1)
  | room + 1, headers => do
    let b ← peek (-2)
    if b = CR ∨ b = LF then lineEnd >>= fun _ => pure headers
    else do
      let header ← headerLineWith scans (headers.length != 0 && isBlank b)
      parseHeadersWith room (headers ++ [header])

/-- `parse_request`. -/
def parseRequestWith (maxHeaders : ℕ) : Phr PhrRequest := do
  let _ ← skipEmptyLine
  let method ← offset
  let methodToken ← scans.parseToken SP
  let _ ← skipSpaces
  let path ← offset
  let pathToken ← scans.advanceToken
  let _ ← skipSpaces
  let _ ← failIf (methodToken.length = 0 ∨ pathToken.length = 0)
  let minorVersion ← parseHttpVersion
  let _ ← lineEnd
  let headers ← parseHeadersWith scans maxHeaders []
  pure ⟨method, methodToken.length, path, pathToken.length, minorVersion, headers⟩

/-- `phr_parse_request`. -/
def phrParseRequestWith (buf : List UInt8) (maxHeaders lastLen : ℕ) :
    Except ℤ (ℕ × PhrRequest) :=
  match if lastLen ≠ 0 then isComplete buf lastLen else .ok () with
  | .error ret => .error ret
  | .ok () => match (parseRequestWith scans maxHeaders).run ⟨0, buf⟩ with
    | .error ret => .error ret
    | .ok (request, c) => .ok (c.pos, request)

end With

/-! ### The bytes the scans tell apart -/

/-- What holds of the 256 bytes holds of every byte. -/
theorem forall_byte {P : UInt8 → Prop} (h : ∀ n < 256, P (.ofNat n)) (b : UInt8) : P b := by
  have hb := h b.toNat b.toNat_lt
  rwa [UInt8.ofNat_toNat] at hb

theorem endsValue_eq (b : UInt8) : endsValue b = isEolCtl b :=
  forall_byte (P := fun b => endsValue b = isEolCtl b) (by decide +kernel) b

theorem not_isEolCtl_of_printable {b : UInt8} (h : isPrintableAscii b = true) : isEolCtl b = false :=
  forall_byte (P := fun b => isPrintableAscii b = true → isEolCtl b = false) (by decide +kernel) b h

/-- The test of the loop of `ADVANCE_TOKEN`. -/
theorem unprintableCtl_eq :
    (fun b : UInt8 => !isPrintableAscii b && (b < 32 || b == 127)) = isCtl :=
  funext (forall_byte (by decide +kernel))

theorem inRanges1 (b : UInt8) : inRanges (ranges1.take 6) b = isEolCtl b :=
  forall_byte (P := fun b => inRanges (ranges1.take 6) b = isEolCtl b) (by decide +kernel) b

/-- What `ADVANCE_TOKEN` skips is neither the end nor an error. -/
theorem inRanges2 {b : UInt8} (h : (!inRanges (ranges2.take 4) b) = true) :
    (b == SP) = false ∧ isCtl b = false :=
  forall_byte (P := fun b => (!inRanges (ranges2.take 4) b) = true → (b == SP) = false ∧
    isCtl b = false) (by decide +kernel) b h

/-- What `parse_token` skips is a token character, and neither a colon nor a space. -/
theorem inTokenRanges {b : UInt8} (h : (!inRanges (tokenRanges.take 16) b) = true) :
    isTokenChar b = true ∧ (b == 58) = false ∧ (b == SP) = false :=
  forall_byte (P := fun b => (!inRanges (tokenRanges.take 16) b) = true → isTokenChar b = true ∧
    (b == 58) = false ∧ (b == SP) = false) (by decide +kernel) b h

/-! ### What a fast scan has done -/

/-- The scan passed bytes that satisfy `skip`, and where it reports a find there is a byte that does
not. -/
def Passes (skip : UInt8 → Bool) (bs : List UInt8) (r : Except ℤ (Passed × Bool)) : Prop :=
  ∃ us rest found, r = .ok ((us, rest), found) ∧ bs = us ++ rest ∧ (∀ u ∈ us, skip u = true) ∧
    (found = true → ∃ b more, rest = b :: more ∧ skip b = false)

/-- Nothing was passed. -/
theorem passes_none (skip : UInt8 → Bool) (bs : List UInt8) :
    Passes skip bs (.ok (([], bs), false)) :=
  ⟨[], bs, false, rfl, rfl, by simp, by simp⟩

/-- Bytes that were passed before. -/
theorem Passes.after {skip : UInt8 → Bool} {us bs : List UInt8} {r : Except ℤ (Passed × Bool)}
    (hus : ∀ u ∈ us, skip u = true) (h : Passes skip bs r) :
    Passes skip (us ++ bs) (r.map fun q => ((us ++ q.1.1, q.1.2), q.2)) := by
  obtain ⟨vs, rest, found, rfl, rfl, hvs, hfound⟩ := h
  refine ⟨us ++ vs, rest, found, rfl, (List.append_assoc ..).symm, fun u hu => ?_, hfound⟩
  exact (List.mem_append.mp hu).elim (hus u) (hvs u)

theorem tokenLoop_cons (stop bad : UInt8 → Bool) (b : UInt8) (bs : List UInt8) :
    tokenLoop stop bad (b :: bs) = scanList (-2) (-1) stop bad (b :: bs) := by
  induction bs generalizing b with
  | nil =>
    rw [tokenLoop, scanList_cons, if_pos rfl]
    rfl
  | cons b' bs ih =>
    rw [tokenLoop, scanList_cons, ih b', if_neg (List.cons_ne_nil b' bs)]

/-- A token scan that starts behind a fast scan is the plain one. -/
theorem Passes.tokenLoop {skip stop bad : UInt8 → Bool} {bs : List UInt8}
    {r : Except ℤ (Passed × Bool)} (h : Passes skip bs r)
    (hskip : ∀ b, skip b = true → stop b = false ∧ bad b = false) :
    afterFast (Http.tokenLoop stop bad) r = scanList (-2) (-1) stop bad bs := by
  obtain ⟨us, rest, found, rfl, rfl, hus, hfound⟩ := h
  rw [scanList_append fun u hu => hskip u (hus u hu)]
  cases rest with
  | nil =>
    have hno : found = false := by
      cases found with
      | false => rfl
      | true =>
        obtain ⟨b, more, hnil, -⟩ := hfound rfl
        exact absurd hnil (by simp)
    rw [afterFast, if_pos ⟨hno, rfl⟩]
    rfl
  | cons b rest =>
    rw [afterFast, if_neg fun h => List.cons_ne_nil b rest h.2, tokenLoop_cons]

theorem valueLoop_eq (bs : List UInt8) :
    valueLoop bs = scanList (-2) (-1) isEolCtl (fun _ => false) bs := by
  induction bs with
  | nil => rfl
  | cons b bs ih =>
    rw [valueLoop, ih, scanList_cons, endsValue_eq]
    rfl

/-- A value scan that starts behind a fast scan is the plain one. -/
theorem Passes.valueLoop {bs : List UInt8} {r : Except ℤ (Passed × Bool)}
    (h : Passes (fun b => !isEolCtl b) bs r) :
    toFoundCtl r = scanList (-2) (-1) isEolCtl (fun _ => false) bs := by
  obtain ⟨us, rest, found, rfl, rfl, hus, hfound⟩ := h
  rw [scanList_append fun u hu => ⟨by simpa using hus u hu, rfl⟩]
  cases found with
  | false => rw [toFoundCtl, valueLoop_eq]
  | true =>
    obtain ⟨b, more, rfl, hb⟩ := hfound rfl
    have hctl : isEolCtl b = true := by simpa using hb
    rw [toFoundCtl, scanList_cons, if_pos hctl]
    simp [Except.map]

/-! ### The unrolled loop -/

/-- `DOIT()` passes printable bytes, all `n` of them unless it meets one that is not. -/
theorem doIt_cases {n : ℕ} {bs : List UInt8} (hlen : n ≤ bs.length) :
    ∃ us rest flag, doIt n bs = .ok ((us, rest), flag) ∧ bs = us ++ rest ∧
      (∀ u ∈ us, isPrintableAscii u = true) ∧ (flag = false → us.length = n) ∧
      (flag = true → ∃ b more, rest = b :: more ∧ isPrintableAscii b = false) := by
  induction n generalizing bs with
  | zero => exact ⟨[], bs, false, rfl, rfl, by simp, fun _ => rfl, by simp⟩
  | succ n ih =>
    cases bs with
    | nil => exact absurd hlen (by simp)
    | cons b bs =>
      by_cases hb : isPrintableAscii b = true
      · obtain ⟨us, rest, flag, hdo, rfl, hus, hall, hflag⟩ := ih (Nat.le_of_succ_le_succ hlen)
        refine ⟨b :: us, rest, flag, ?_, rfl, fun u hu => ?_, fun h => ?_, hflag⟩
        · rw [doIt, if_pos hb, hdo]
          rfl
        · rcases List.mem_cons.mp hu with rfl | hu
          · exact hb
          · exact hus u hu
        · rw [List.length_cons, hall h]
      · refine ⟨[], b :: bs, true, ?_, rfl, by simp, by simp, fun _ => ⟨b, bs, rfl, by simpa using hb⟩⟩
        rw [doIt, if_neg hb]

/-- The unrolled loop passes bytes of the value only, and it stays inside the buffer. -/
theorem unrolled_passes {fuel : ℕ} {bs : List UInt8} (hfuel : bs.length ≤ fuel) :
    Passes (fun b => !isEolCtl b) bs (unrolled fuel bs) := by
  induction fuel generalizing bs with
  | zero =>
    rw [unrolled, if_pos (by omega)]
    exact passes_none _ bs
  | succ fuel ih =>
    rw [unrolled]
    by_cases hshort : bs.length < 8
    · rw [if_pos hshort]
      exact passes_none _ bs
    · rw [if_neg hshort]
      obtain ⟨us, rest, flag, hdo, rfl, hus, hall, hflag⟩ := doIt_cases (Nat.le_of_not_lt hshort)
      have hskip : ∀ u ∈ us, (!isEolCtl u) = true := fun u hu => by
        simp [not_isEolCtl_of_printable (hus u hu)]
      rw [List.length_append] at hfuel
      rw [hdo]
      cases flag with
      | false =>
        have height := hall rfl
        exact (ih (by omega)).after hskip
      | true =>
        obtain ⟨b, more, rfl, -⟩ := hflag rfl
        rw [List.length_cons] at hfuel
        show Passes _ _ (if isEolCtl b = true then _ else _)
        by_cases hctl : isEolCtl b = true
        · rw [if_pos hctl]
          exact ⟨us, b :: more, true, rfl, rfl, hskip, fun _ => ⟨b, more, rfl, by simp [hctl]⟩⟩
        · rw [if_neg hctl]
          have hskip' : ∀ u ∈ us ++ [b], (!isEolCtl u) = true := by
            intro u hu
            rcases List.mem_append.mp hu with hu | hu
            · exact hskip u hu
            · rw [List.mem_singleton.mp hu]
              simpa using hctl
          have hrest : Passes _ more (unrolled fuel more) := ih (by omega)
          have hmore := hrest.after hskip'
          simpa only [List.append_assoc, List.singleton_append] using hmore

/-! ### `findchar_fast` -/

theorem findcharLoop_passes (ranges16 : List UInt8) (rangesSize : ℕ) {left : ℕ} {buf : List UInt8}
    (hleft : 16 * left ≤ buf.length) :
    Passes (fun b => !inRanges (ranges16.take rangesSize) b) buf
      (findcharLoop ranges16 rangesSize left buf) := by
  induction left generalizing buf with
  | zero => exact passes_none _ buf
  | succ left ih =>
    have hload : loadu buf = .ok (buf.take 16) := if_neg (by omega)
    have hlen : (buf.take 16).length = 16 := by
      rw [List.length_take]
      omega
    unfold findcharLoop
    rw [hload]
    dsimp only
    set p := inRanges (ranges16.take rangesSize) with hp
    have hr : cmpestri ranges16 rangesSize (buf.take 16) = (buf.take 16).findIdx p := rfl
    have hbefore : ∀ u ∈ (buf.take 16).take ((buf.take 16).findIdx p), (!p u) = true := by
      intro u hu
      obtain ⟨i, hi, rfl⟩ := List.mem_iff_getElem.mp hu
      rw [List.length_take] at hi
      rw [List.getElem_take]
      simpa using List.not_of_lt_findIdx (Nat.lt_of_lt_of_le hi (Nat.min_le_left _ _))
    by_cases hfound : cmpestri ranges16 rangesSize (buf.take 16) = 16
    · -- none of the sixteen bytes is in a range
      rw [if_neg (not_not_intro hfound)]
      rw [← hr, hfound, List.take_take, Nat.min_self] at hbefore
      have hleft' : 16 * left ≤ (buf.drop 16).length := by
        rw [List.length_drop]
        omega
      have hrest := (ih hleft').after hbefore
      rwa [List.take_append_drop] at hrest
    · rw [if_pos hfound]
      rw [hr] at hfound ⊢
      have hlt : (buf.take 16).findIdx p < (buf.take 16).length :=
        Nat.lt_of_le_of_ne List.findIdx_le_length (by rwa [hlen])
      generalize hi : (buf.take 16).findIdx p = i at hbefore hlt
      rw [hlen] at hlt
      have hget : p buf[i] = true := by
        have hlt' : (buf.take 16).findIdx p < (buf.take 16).length := by
          rw [hi, hlen]
          exact hlt
        have hthere : p (buf.take 16)[(buf.take 16).findIdx p] = true := List.findIdx_getElem
        simpa only [hi, List.getElem_take] using hthere
      rw [List.take_take, Nat.min_eq_left (Nat.le_of_lt hlt)] at hbefore
      refine ⟨buf.take i, buf.drop i, true, rfl, (List.take_append_drop i buf).symm, hbefore,
        fun _ => ⟨buf[i], buf.drop (i + 1), List.drop_eq_getElem_cons (by omega), by simp [hget]⟩⟩

/-- `findchar_fast` passes bytes outside its ranges, and it stays inside the buffer. -/
theorem findcharFast_passes {ranges : List UInt8} (hranges : ranges.length = 16) (rangesSize : ℕ)
    (buf : List UInt8) : Passes (fun b => !inRanges (ranges.take rangesSize) b) buf
      (findcharFast ranges rangesSize buf) := by
  have hload : loadu ranges = .ok ranges := by
    rw [loadu, if_neg (by omega), List.take_of_length_le (by omega)]
  unfold findcharFast
  split_ifs
  · rw [hload]
    exact findcharLoop_passes ranges rangesSize (Nat.mul_div_le _ _)
  · exact passes_none _ buf

/-! ### Both builds -/

/-- The scans do what the plain loops do, for the delimiters they are used with. -/
structure PlainScans (scans : Scans) : Prop where
  colon : scans.parseToken 58 = parseToken 58
  space : scans.parseToken SP = parseToken SP
  advanceToken : scans.advanceToken = advanceToken
  toEol : scans.toEol = scan (-2) (-1) isEolCtl (fun _ => false)

theorem scanning_eq {f : List UInt8 → Except ℤ Passed} {stop bad : UInt8 → Bool}
    (h : ∀ bs, f bs = scanList (-2) (-1) stop bad bs) : scanning f = scan (-2) (-1) stop bad := by
  funext c
  rw [scanning, h, scan]
  cases scanList (-2) (-1) stop bad c.rest <;> rfl

theorem plain_portableScans : PlainScans portableScans := by
  have htoken : ∀ nextChar bs, afterFast (tokenLoop (· == nextChar) fun b => !isTokenChar b)
      (.ok (([], bs), false)) = scanList (-2) (-1) (· == nextChar) (fun b => !isTokenChar b) bs := by
    intro nextChar bs
    exact (passes_none (fun _ => false) bs).tokenLoop (by simp)
  have hpath : ∀ bs, afterFast advanceLoop (.ok (([], bs), false)) =
      scanList (-2) (-1) (· == SP) isCtl bs := by
    intro bs
    rw [advanceLoop, unprintableCtl_eq]
    exact (passes_none (fun _ => false) bs).tokenLoop (by simp)
  have hvalue : ∀ bs : List UInt8, toFoundCtl (unrolled bs.length bs) =
      scanList (-2) (-1) isEolCtl (fun _ => false) bs := by
    intro bs
    exact (unrolled_passes le_rfl).valueLoop
  exact ⟨scanning_eq (htoken 58), scanning_eq (htoken SP), scanning_eq hpath, scanning_eq hvalue⟩

theorem plain_sseScans : PlainScans sseScans := by
  have htoken : ∀ nextChar, nextChar = 58 ∨ nextChar = SP → ∀ bs,
      afterFast (tokenLoop (· == nextChar) fun b => !isTokenChar b) (findcharFast tokenRanges 16 bs) =
        scanList (-2) (-1) (· == nextChar) (fun b => !isTokenChar b) bs := by
    intro nextChar hnext bs
    refine (findcharFast_passes rfl 16 bs).tokenLoop fun b hb => ?_
    obtain ⟨htoken, hcolon, hspace⟩ := inTokenRanges hb
    refine ⟨?_, by simp [htoken]⟩
    rcases hnext with rfl | rfl
    · exact hcolon
    · exact hspace
  have hpath : ∀ bs, afterFast advanceLoop (findcharFast ranges2 4 bs) =
      scanList (-2) (-1) (· == SP) isCtl bs := by
    intro bs
    rw [advanceLoop, unprintableCtl_eq]
    exact (findcharFast_passes rfl 4 bs).tokenLoop fun b hb => inRanges2 hb
  have hvalue : ∀ bs, toFoundCtl (findcharFast ranges1 6 bs) =
      scanList (-2) (-1) isEolCtl (fun _ => false) bs := by
    intro bs
    have hranges : ranges1.length = 16 := rfl
    have hpasses := findcharFast_passes hranges 6 bs
    simp only [inRanges1] at hpasses
    exact hpasses.valueLoop
  exact ⟨scanning_eq (htoken 58 (Or.inl rfl)), scanning_eq (htoken SP (Or.inr rfl)),
    scanning_eq hpath, scanning_eq hvalue⟩

section With

variable {scans : Scans} (h : PlainScans scans)

include h

theorem getTokenToEolWith_eq : getTokenToEolWith scans = getTokenToEol := by
  rw [getTokenToEolWith, h.toEol]
  rfl

theorem headerLineWith_eq (continuation : Bool) :
    headerLineWith scans continuation = headerLine continuation := by
  have hname : headerNameWith scans continuation = headerName continuation := by
    rw [headerNameWith, h.colon]
    rfl
  rw [headerLineWith, hname, getTokenToEolWith_eq h]
  rfl

theorem parseHeadersWith_eq (room : ℕ) (headers : List PhrHeader) :
    parseHeadersWith scans room headers = parseHeaders room headers := by
  induction room generalizing headers with
  | zero => rfl
  | succ room ih =>
    rw [parseHeadersWith, parseHeaders]
    simp only [headerLineWith_eq h, ih]

theorem parseRequestWith_eq (maxHeaders : ℕ) :
    parseRequestWith scans maxHeaders = parseRequest maxHeaders := by
  rw [parseRequestWith, h.space, h.advanceToken, parseHeadersWith_eq h]
  rfl

theorem phrParseRequestWith_eq (buf : List UInt8) (maxHeaders lastLen : ℕ) :
    phrParseRequestWith scans buf maxHeaders lastLen = phrParseRequest buf maxHeaders lastLen := by
  rw [phrParseRequestWith, parseRequestWith_eq h]
  rfl

end With

/-! ### What `phr_parse_request` fails with -/

/-- `*ret` is -1 or -2. -/
def IsRet (ret : ℤ) : Prop := ret = -1 ∨ ret = -2

theorem isRet_bad : IsRet (-1) := Or.inl rfl

theorem isRet_partial : IsRet (-2) := Or.inr rfl

theorem failIf_failsIn (P : Prop) [Decidable P] : FailsIn IsRet (failIf P) :=
  .ite (.fail isRet_bad) (.pure _ ())

theorem expectChar_failsIn (ch : UInt8) : FailsIn IsRet (expectChar ch) :=
  .bind (.next isRet_partial) fun _ => failIf_failsIn _

theorem scan_failsIn (stop bad : UInt8 → Bool) :
    FailsIn IsRet (scan (-2) (-1) stop bad : Phr (List UInt8)) := .scan isRet_partial isRet_bad stop bad

theorem lineEnd_failsIn : FailsIn IsRet lineEnd :=
  .bind (.next isRet_partial) fun _ => .ite (expectChar_failsIn LF) (failIf_failsIn _)

theorem skipSpaces_failsIn : FailsIn IsRet skipSpaces :=
  .bind (.next isRet_partial) fun _ => .bind (scan_failsIn _ _) fun _ => .pure _ ()

theorem parseHttpVersion_failsIn : FailsIn IsRet parseHttpVersion := by
  refine .bind (.need isRet_partial 9) fun _ => .bind (expectChar_failsIn 72) fun _ =>
    .bind (expectChar_failsIn 84) fun _ => .bind (expectChar_failsIn 84) fun _ =>
    .bind (expectChar_failsIn 80) fun _ => .bind (expectChar_failsIn 47) fun _ =>
    .bind (expectChar_failsIn 49) fun _ => .bind (expectChar_failsIn 46) fun _ => ?_
  exact .bind (.next isRet_partial) fun b => .bind (failIf_failsIn _) fun _ => .pure _ _

theorem headerLine_failsIn (continuation : Bool) : FailsIn IsRet (headerLine continuation) := by
  have hname : FailsIn IsRet (headerName continuation) := by
    refine .ite (.pure _ _) (.bind (.offset _) fun _ => .bind (scan_failsIn _ _) fun _ =>
      .bind (failIf_failsIn _) fun _ => .bind (.next isRet_partial) fun _ => ?_)
    exact .bind (.bind (scan_failsIn _ _) fun _ => .pure _ ()) fun _ => .pure _ _
  have hvalue : FailsIn IsRet getTokenToEol :=
    .bind (.offset _) fun _ => .bind (scan_failsIn _ _) fun _ => .bind lineEnd_failsIn fun _ =>
      .pure _ _
  exact .bind hname fun _ => .bind hvalue fun _ => .pure _ _

theorem parseHeaders_failsIn (room : ℕ) (headers : List PhrHeader) :
    FailsIn IsRet (parseHeaders room headers) := by
  have hblank : FailsIn IsRet (lineEnd >>= fun _ => pure headers) :=
    .bind lineEnd_failsIn fun _ => .pure _ _
  induction room generalizing headers with
  | zero => exact .bind (.peek isRet_partial) fun _ => .ite hblank (.fail isRet_bad)
  | succ room ih =>
    refine .bind (.peek isRet_partial) fun b => .ite hblank ?_
    refine .bind (headerLine_failsIn _) fun header => ih _ ?_
    exact .bind lineEnd_failsIn fun _ => .pure _ _

theorem parseRequest_failsIn (maxHeaders : ℕ) : FailsIn IsRet (parseRequest maxHeaders) := by
  have hempty : FailsIn IsRet skipEmptyLine :=
    .bind (.peek isRet_partial) fun _ => .ite lineEnd_failsIn (.pure _ ())
  refine .bind hempty fun _ => .bind (.offset _) fun _ => .bind (scan_failsIn _ _) fun _ =>
    .bind skipSpaces_failsIn fun _ => .bind (.offset _) fun _ => .bind (scan_failsIn _ _) fun _ =>
    .bind skipSpaces_failsIn fun _ => .bind (failIf_failsIn _) fun _ =>
    .bind parseHttpVersion_failsIn fun _ => .bind lineEnd_failsIn fun _ => ?_
  exact .bind (parseHeaders_failsIn maxHeaders []) fun _ => .pure _ _

theorem phrParseRequest_failsIn {buf : List UInt8} {maxHeaders lastLen : ℕ} {ret : ℤ}
    (h : phrParseRequest buf maxHeaders lastLen = .error ret) : IsRet ret := by
  unfold phrParseRequest at h
  split at h
  · rename_i ret' hcomplete
    cases h
    split_ifs at hcomplete
    rcases isComplete_cases buf lastLen with hok | hbad | hshort
    · rw [hok] at hcomplete
      cases hcomplete
    · rw [hbad] at hcomplete
      cases hcomplete
      exact isRet_bad
    · rw [hshort] at hcomplete
      cases hcomplete
      exact isRet_partial
  · split at h
    · rename_i ret' hrun
      cases h
      exact parseRequest_failsIn maxHeaders _ _ hrun
    · cases h

/-- **The compiled scans.**  The build with the unrolled loop and the one with SSE4.2 parse every
buffer as the plain loops do; in particular they never read outside it. -/
theorem compiled_scans_agree (buf : List UInt8) (maxHeaders lastLen : ℕ) :
    phrParseRequestWith portableScans buf maxHeaders lastLen = phrParseRequest buf maxHeaders lastLen ∧
      phrParseRequestWith sseScans buf maxHeaders lastLen = phrParseRequest buf maxHeaders lastLen ∧
      phrParseRequest buf maxHeaders lastLen ≠ .error outside := by
  refine ⟨phrParseRequestWith_eq plain_portableScans buf maxHeaders lastLen,
    phrParseRequestWith_eq plain_sseScans buf maxHeaders lastLen, ?_⟩
  intro h
  rcases phrParseRequest_failsIn h with hret | hret
  · exact absurd hret (by decide)
  · exact absurd hret (by decide)

end Ruru.Http
