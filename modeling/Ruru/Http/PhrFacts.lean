import Ruru.Http.PhrParse

/-!
# Ruru.Http.PhrFacts — what the request parser promises about a growing buffer

`parseRequest` is incremental: a result other than -2 does not change when more bytes arrive.  What
it consumes ends in LF.  Together: if a buffer `B` starts with a header of `h` bytes, every shorter
piece of the header parses as -2, and no piece of `B` parses as -1.
-/

namespace Ruru.Http

open Parsing Parsing.Parser

/-! ### Every piece is incremental and moves forward -/

theorem failIf_incremental (P : Prop) [Decidable P] : Incremental (-2) (failIf P) :=
  Incremental.ite (Incremental.fail _ _) (Incremental.pure _ _)

theorem failIf_advances (P : Prop) [Decidable P] : Advances (failIf P) :=
  Advances.ite (Advances.fail _) (Advances.pure _)

theorem expectChar_incremental (ch : UInt8) : Incremental (-2) (expectChar ch) :=
  (Incremental.next _).bind fun _ => failIf_incremental _

theorem expectChar_advances (ch : UInt8) : Advances (expectChar ch) :=
  (Advances.next _).bind fun _ => failIf_advances _

theorem skipSpaces_incremental : Incremental (-2) skipSpaces :=
  (Incremental.next _).bind fun _ => (Incremental.scan _ _ _ _).bind fun _ => Incremental.pure _ _

theorem skipSpaces_advances : Advances skipSpaces :=
  (Advances.next _).bind fun _ => (Advances.scan _ _ _ _).bind fun _ => Advances.pure _

theorem skipBlanks_incremental : Incremental (-2) skipBlanks :=
  (Incremental.scan _ _ _ _).bind fun _ => Incremental.pure _ _

theorem skipBlanks_advances : Advances skipBlanks :=
  (Advances.scan _ _ _ _).bind fun _ => Advances.pure _

theorem lineEnd_incremental : Incremental (-2) lineEnd :=
  (Incremental.next _).bind fun _ =>
    Incremental.ite (expectChar_incremental _) (failIf_incremental _)

theorem lineEnd_advances : Advances lineEnd :=
  (Advances.next _).bind fun _ => Advances.ite (expectChar_advances _) (failIf_advances _)

theorem getTokenToEol_incremental : Incremental (-2) getTokenToEol :=
  (Incremental.offset _).bind fun _ => (Incremental.scan _ _ _ _).bind fun _ =>
    lineEnd_incremental.bind fun _ => Incremental.pure _ _

theorem getTokenToEol_advances : Advances getTokenToEol :=
  Advances.offset.bind fun _ => (Advances.scan _ _ _ _).bind fun _ =>
    lineEnd_advances.bind fun _ => Advances.pure _

theorem parseInt_incremental : Incremental (-2) parseInt :=
  (Incremental.next _).bind fun _ => (failIf_incremental _).bind fun _ => Incremental.pure _ _

theorem parseInt_advances : Advances parseInt :=
  (Advances.next _).bind fun _ => (failIf_advances _).bind fun _ => Advances.pure _

theorem parseHttpVersion_incremental : Incremental (-2) parseHttpVersion :=
  (Incremental.need _ _).bind fun _ => (expectChar_incremental _).bind fun _ =>
    (expectChar_incremental _).bind fun _ => (expectChar_incremental _).bind fun _ =>
    (expectChar_incremental _).bind fun _ => (expectChar_incremental _).bind fun _ =>
    (expectChar_incremental _).bind fun _ => (expectChar_incremental _).bind fun _ =>
    parseInt_incremental

theorem parseHttpVersion_advances : Advances parseHttpVersion :=
  (Advances.need _ _).bind fun _ => (expectChar_advances _).bind fun _ =>
    (expectChar_advances _).bind fun _ => (expectChar_advances _).bind fun _ =>
    (expectChar_advances _).bind fun _ => (expectChar_advances _).bind fun _ =>
    (expectChar_advances _).bind fun _ => (expectChar_advances _).bind fun _ =>
    parseInt_advances

theorem headerName_incremental (b : Bool) : Incremental (-2) (headerName b) :=
  Incremental.ite (Incremental.pure _ _)
    ((Incremental.offset _).bind fun _ => (Incremental.scan _ _ _ _).bind fun _ =>
      (failIf_incremental _).bind fun _ => (Incremental.next _).bind fun _ =>
      skipBlanks_incremental.bind fun _ => Incremental.pure _ _)

theorem headerName_advances (b : Bool) : Advances (headerName b) :=
  Advances.ite (Advances.pure _)
    (Advances.offset.bind fun _ => (Advances.scan _ _ _ _).bind fun _ =>
      (failIf_advances _).bind fun _ => (Advances.next _).bind fun _ =>
      skipBlanks_advances.bind fun _ => Advances.pure _)

theorem headerLine_incremental (b : Bool) : Incremental (-2) (headerLine b) :=
  (headerName_incremental b).bind fun _ => getTokenToEol_incremental.bind fun _ =>
    Incremental.pure _ _

theorem headerLine_advances (b : Bool) : Advances (headerLine b) :=
  (headerName_advances b).bind fun _ => getTokenToEol_advances.bind fun _ => Advances.pure _

theorem parseHeaders_incremental (room : ℕ) (headers : List PhrHeader) :
    Incremental (-2) (parseHeaders room headers) := by
  induction room generalizing headers with
  | zero =>
    exact (Incremental.peek _).bind fun _ =>
      Incremental.ite (lineEnd_incremental.bind fun _ => Incremental.pure _ _)
        (Incremental.fail _ _)
  | succ room ih =>
    exact (Incremental.peek _).bind fun _ =>
      Incremental.ite (lineEnd_incremental.bind fun _ => Incremental.pure _ _)
        ((headerLine_incremental _).bind fun _ => ih _)

theorem skipEmptyLine_incremental : Incremental (-2) skipEmptyLine :=
  (Incremental.peek _).bind fun _ => Incremental.ite lineEnd_incremental (Incremental.pure _ _)

theorem skipEmptyLine_advances : Advances skipEmptyLine :=
  (Advances.peek _).bind fun _ => Advances.ite lineEnd_advances (Advances.pure _)

/-- More bytes do not change a result of `parse_request` other than -2. -/
theorem parseRequest_incremental (maxHeaders : ℕ) : Incremental (-2) (parseRequest maxHeaders) :=
  skipEmptyLine_incremental.bind fun _ => (Incremental.offset _).bind fun _ =>
    (Incremental.scan _ _ _ _).bind fun _ => skipSpaces_incremental.bind fun _ =>
    (Incremental.offset _).bind fun _ => (Incremental.scan _ _ _ _).bind fun _ =>
    skipSpaces_incremental.bind fun _ => (failIf_incremental _).bind fun _ =>
    parseHttpVersion_incremental.bind fun _ => lineEnd_incremental.bind fun _ =>
    (parseHeaders_incremental _ _).bind fun _ => Incremental.pure _ _

/-! ### The header ends in LF -/

theorem run_failIf (P : Prop) [Decidable P] (c : Cursor UInt8) :
    (failIf P).run c = if P then .error (-1) else .ok ((), c) := by
  unfold failIf
  split_ifs <;> rfl

theorem expectChar_endsIn (ch : UInt8) : EndsIn ch (expectChar ch) := by
  rintro ⟨pos, rest⟩ a c' h
  cases rest with
  | nil => simp [expectChar, run_bind] at h
  | cons b bs =>
    by_cases hb : b = ch
    · subst hb
      obtain rfl : _ = c' := by simpa [expectChar, run_bind, run_failIf] using h
      exact ⟨[], rfl, rfl⟩
    · simp [expectChar, run_bind, run_failIf, hb] at h

theorem lineEnd_endsIn : EndsIn LF lineEnd := by
  rintro ⟨pos, rest⟩ a c' h
  cases rest with
  | nil => simp [lineEnd, run_bind] at h
  | cons b bs =>
    by_cases hb : b = CR
    · obtain ⟨used, h1, h2⟩ := expectChar_endsIn LF ⟨pos + 1, bs⟩ a c'
        (by simpa [lineEnd, run_bind, hb] using h)
      exact ⟨b :: used, by rw [List.cons_append, ← h1],
        by simp only [List.length_cons] at h2 ⊢; omega⟩
    · by_cases hl : b = LF
      · subst hl
        obtain rfl : _ = c' := by simpa [lineEnd, run_bind, hb, run_failIf] using h
        exact ⟨[], rfl, rfl⟩
      · simp [lineEnd, run_bind, hb, hl, run_failIf] at h

theorem parseHeaders_endsIn (room : ℕ) (headers : List PhrHeader) :
    EndsIn LF (parseHeaders room headers) := by
  induction room generalizing headers with
  | zero =>
    exact EndsIn.bind (Advances.peek _) fun _ =>
      EndsIn.ite lineEnd_endsIn.bind_pure (EndsIn.fail _ _)
  | succ room ih =>
    exact EndsIn.bind (Advances.peek _) fun _ =>
      EndsIn.ite lineEnd_endsIn.bind_pure
        (EndsIn.bind (headerLine_advances _) fun _ => ih _)

/-- The last byte `parse_request` consumes is LF. -/
theorem parseRequest_endsIn (maxHeaders : ℕ) : EndsIn LF (parseRequest maxHeaders) :=
  EndsIn.bind skipEmptyLine_advances fun _ => EndsIn.bind Advances.offset fun _ =>
    EndsIn.bind (Advances.scan _ _ _ _) fun _ => EndsIn.bind skipSpaces_advances fun _ =>
    EndsIn.bind Advances.offset fun _ => EndsIn.bind (Advances.scan _ _ _ _) fun _ =>
    EndsIn.bind skipSpaces_advances fun _ => EndsIn.bind (failIf_advances _) fun _ =>
    EndsIn.bind parseHttpVersion_advances fun _ => EndsIn.bind lineEnd_advances fun _ =>
    (parseHeaders_endsIn _ _).bind_pure

/-! ### Names and values lie in the header -/

/-- The name of the header ends, and its value starts, before `pos`. -/
def PhrHeader.Within (h : PhrHeader) (pos : ℕ) : Prop :=
  (∀ name, h.name = some name → name + h.nameLen ≤ pos) ∧ h.value < pos

theorem PhrHeader.Within.mono {h : PhrHeader} {pos pos' : ℕ} (hw : h.Within pos)
    (hle : pos ≤ pos') : h.Within pos' :=
  ⟨fun name hn => (hw.1 name hn).trans hle, hw.2.trans_le hle⟩

theorem getTokenToEol_endsIn : EndsIn LF getTokenToEol :=
  EndsIn.bind Advances.offset fun _ => EndsIn.bind (Advances.scan _ _ _ _) fun _ =>
    lineEnd_endsIn.bind_pure

/-- A value starts where the parser is. -/
theorem getTokenToEol_start {c c' : Cursor UInt8} {value : ℕ × List UInt8}
    (h : getTokenToEol.run c = .ok (value, c')) : value.1 = c.pos := by
  obtain ⟨start, c₁, hoff, h⟩ := run_bind_ok.mp h
  obtain ⟨token, c₂, -, h⟩ := run_bind_ok.mp h
  obtain ⟨u, c₃, -, h⟩ := run_bind_ok.mp h
  obtain ⟨hstart, -⟩ : (start, token) = value ∧ c₃ = c' := by simpa using h
  obtain ⟨hpos, -⟩ : c.pos = start ∧ c = c₁ := by simpa [run, offset] using hoff
  rw [← hstart, ← hpos]

theorem parseToken_length {ch : UInt8} {c c' : Cursor UInt8} {token : List UInt8}
    (h : (parseToken ch).run c = .ok (token, c')) : c'.pos = c.pos + token.length := by
  simp only [parseToken, run, scan] at h
  cases hs : scanList (-2) (-1) (· == ch) (fun b => !isTokenChar b) c.rest with
  | error e => rw [hs] at h; exact absurd h (by simp)
  | ok r =>
    rw [hs] at h
    obtain ⟨rfl, rfl⟩ : r.1 = token ∧ _ = c' := by simpa using h
    rfl

theorem headerName_within {continuation : Bool} {c c' : Cursor UInt8} {name : Option ℕ × ℕ}
    (h : (headerName continuation).run c = .ok (name, c')) :
    ∀ start, name.1 = some start → start + name.2 ≤ c'.pos := by
  unfold headerName at h
  by_cases hc : continuation = true
  · rw [if_pos hc] at h
    obtain ⟨rfl, -⟩ : (none, 0) = name ∧ c = c' := by simpa using h
    exact fun _ hn => absurd hn (by simp)
  · rw [if_neg hc] at h
    obtain ⟨start, c₁, hoff, h⟩ := run_bind_ok.mp h
    obtain ⟨token, c₂, htok, h⟩ := run_bind_ok.mp h
    obtain ⟨u, c₃, hfail, h⟩ := run_bind_ok.mp h
    obtain ⟨b, c₄, hnext, h⟩ := run_bind_ok.mp h
    obtain ⟨v, c₅, hblank, h⟩ := run_bind_ok.mp h
    obtain ⟨rfl, rfl⟩ : (some start, token.length) = name ∧ c₅ = c' := by simpa using h
    obtain ⟨hstart, hc₁⟩ : c.pos = start ∧ c = c₁ := by simpa [run, offset] using hoff
    have h2 : c₂.pos = c₁.pos + token.length := parseToken_length htok
    have h3 : c₂.pos ≤ c₃.pos := (failIf_advances _).pos_le hfail
    have h4 : c₃.pos ≤ c₄.pos := (Advances.next _).pos_le hnext
    have h5 : c₄.pos ≤ c₅.pos := skipBlanks_advances.pos_le hblank
    intro start' hn
    obtain rfl : start = start' := Option.some.inj hn
    show start + token.length ≤ c₅.pos
    rw [hc₁] at hstart
    omega

theorem headerLine_within {continuation : Bool} {c c' : Cursor UInt8} {header : PhrHeader}
    (h : (headerLine continuation).run c = .ok (header, c')) : header.Within c'.pos := by
  obtain ⟨name, c₁, hname, h⟩ := run_bind_ok.mp h
  obtain ⟨value, c₂, hvalue, h⟩ := run_bind_ok.mp h
  obtain ⟨rfl, rfl⟩ : (⟨name.1, name.2, value.1, trimmedLen value.2⟩ : PhrHeader) = header ∧
      c₂ = c' := by simpa using h
  have hpos : c₁.pos < c₂.pos := getTokenToEol_endsIn.pos_lt hvalue
  refine ⟨fun start hn => (headerName_within hname start hn).trans hpos.le, ?_⟩
  show value.1 < c₂.pos
  rw [getTokenToEol_start hvalue]
  exact hpos

/-- At the blank line the headers are what they were. -/
theorem blankLine_within {headers hs : List PhrHeader} {pos : ℕ} {c c' : Cursor UInt8}
    (hin : ∀ x ∈ headers, x.Within pos) (hle : pos ≤ c.pos)
    (h : (lineEnd >>= fun _ => (pure headers : Phr (List PhrHeader))).run c = .ok (hs, c')) :
    ∀ x ∈ hs, x.Within c'.pos := by
  obtain ⟨u, c₁, hline, h⟩ := run_bind_ok.mp h
  obtain ⟨rfl, rfl⟩ : headers = hs ∧ c₁ = c' := by simpa using h
  have hpos : c.pos < c₁.pos := lineEnd_endsIn.pos_lt hline
  exact fun x hx => (hin x hx).mono (by omega)

theorem parseHeaders_within {room : ℕ} {headers hs : List PhrHeader} {c c' : Cursor UInt8}
    (h : (parseHeaders room headers).run c = .ok (hs, c'))
    (hin : ∀ x ∈ headers, x.Within c.pos) : ∀ x ∈ hs, x.Within c'.pos := by
  induction room generalizing headers c with
  | zero =>
    obtain ⟨b, c₁, hpeek, h⟩ := run_bind_ok.mp h
    have hle : c.pos ≤ c₁.pos := (Advances.peek _).pos_le hpeek
    split_ifs at h
    · exact blankLine_within hin hle h
    · exact absurd h (by simp)
  | succ room ih =>
    obtain ⟨b, c₁, hpeek, h⟩ := run_bind_ok.mp h
    have hle : c.pos ≤ c₁.pos := (Advances.peek _).pos_le hpeek
    split_ifs at h
    · exact blankLine_within hin hle h
    · obtain ⟨header, c₂, hline, h⟩ := run_bind_ok.mp h
      have hle' : c₁.pos ≤ c₂.pos := (headerLine_advances _).pos_le hline
      refine ih h fun x hx => ?_
      rcases List.mem_append.mp hx with hx | hx
      · exact (hin x hx).mono (by omega)
      · rw [List.mem_singleton.mp hx]
        exact headerLine_within hline

/-- The names and values of a request lie in what `parse_request` consumed. -/
theorem parseRequest_within (maxHeaders : ℕ) :
    Ensures (fun request pos => ∀ x ∈ request.headers, x.Within pos) (parseRequest maxHeaders) := by
  have hheaders : Ensures (fun hs pos => ∀ x ∈ hs, x.Within pos) (parseHeaders maxHeaders []) :=
    fun _ _ _ h => parseHeaders_within h (by simp)
  exact .bind fun _ => .bind fun _ => .bind fun _ => .bind fun _ => .bind fun _ => .bind fun _ =>
    .bind fun _ => .bind fun _ => .bind fun _ => .bind fun _ =>
    hheaders.bind_pure fun _ _ h => h

/-! ### What follows a value -/

/-- The byte behind the value of the header is a blank or ends the line. -/
def PhrHeader.Ended (buf : List UInt8) (h : PhrHeader) : Prop :=
  ∃ b, buf[h.value + h.valueLen]? = some b ∧ (isBlank b || isEolCtl b) = true

theorem trimmedLen_le (token : List UInt8) : trimmedLen token ≤ token.length := by
  have hlen : token.reverse.length = token.length := List.length_reverse
  unfold trimmedLen
  rw [← hlen]
  exact (List.dropWhile_suffix _).length_le

/-- Behind its trimmed length a token has a blank, or it ends there. -/
theorem blank_of_trimmed {token : List UInt8} (h : trimmedLen token < token.length) :
    ∃ b, token[trimmedLen token]? = some b ∧ isBlank b = true := by
  have hsplit : token.reverse.takeWhile isBlank ++ token.reverse.dropWhile isBlank = token.reverse :=
    List.takeWhile_append_dropWhile
  have htoken : token = (token.reverse.dropWhile isBlank).reverse ++
      (token.reverse.takeWhile isBlank).reverse := by
    rw [← List.reverse_append, hsplit, List.reverse_reverse]
  have hget : token[trimmedLen token]? = (token.reverse.takeWhile isBlank).reverse[0]? := by
    conv_lhs => rw [htoken]
    have hlen : trimmedLen ((token.reverse.dropWhile isBlank).reverse ++
        (token.reverse.takeWhile isBlank).reverse) =
          (token.reverse.dropWhile isBlank).reverse.length := by
      rw [← htoken, List.length_reverse]
      rfl
    rw [hlen, List.getElem?_append_right (Nat.le_refl _), Nat.sub_self]
  rw [List.getElem?_eq_getElem h] at hget ⊢
  refine ⟨_, rfl, List.mem_takeWhile_imp (List.mem_reverse.mp (List.mem_of_getElem? hget.symm))⟩

theorem getTokenToEol_ended {buf : List UInt8} {c c' : Cursor UInt8} {value : ℕ × List UInt8}
    (hin : c.In buf) (h : getTokenToEol.run c = .ok (value, c')) (name : Option ℕ) (nameLen : ℕ) :
    (⟨name, nameLen, value.1, trimmedLen value.2⟩ : PhrHeader).Ended buf := by
  obtain ⟨start, c₁, hoff, h⟩ := run_bind_ok.mp h
  obtain ⟨token, c₂, hscan, h⟩ := run_bind_ok.mp h
  obtain ⟨u, c₃, -, h⟩ := run_bind_ok.mp h
  obtain ⟨rfl, -⟩ : (start, token) = value ∧ c₃ = c' := by simpa using h
  obtain ⟨hstart, hc⟩ : c.pos = start ∧ c = c₁ := by simpa [run, offset] using hoff
  obtain ⟨past, hbuf, hpos⟩ := hin
  obtain ⟨t, rest, hrest, ht⟩ := run_scan_ok hscan
  have hat : ∀ i, buf[start + i]? = (token ++ t :: rest)[i]? := by
    intro i
    rw [hbuf, hc, hrest, List.getElem?_append_right (by omega)]
    congr 1
    omega
  show ∃ b, buf[start + trimmedLen token]? = some b ∧ _
  rw [hat]
  rcases (trimmedLen_le token).lt_or_eq with hlt | heq
  · obtain ⟨b, hb, hblank⟩ := blank_of_trimmed hlt
    exact ⟨b, by rw [List.getElem?_append_left hlt, hb], by rw [hblank]; rfl⟩
  · exact ⟨t, by rw [heq, List.getElem?_append_right (Nat.le_refl _), Nat.sub_self]; rfl,
      by rw [ht, Bool.or_true]⟩

theorem headerLine_ended (buf : List UInt8) (continuation : Bool) :
    Yields buf (PhrHeader.Ended buf) (headerLine continuation) := by
  refine Yields.bind (headerName_advances _) fun name => ?_
  intro c header c' hin h
  obtain ⟨value, c₁, hvalue, h⟩ := run_bind_ok.mp h
  obtain ⟨rfl, -⟩ : (⟨name.1, name.2, value.1, trimmedLen value.2⟩ : PhrHeader) = header ∧
      c₁ = c' := by simpa using h
  exact getTokenToEol_ended hin hvalue _ _

theorem blankLine_ended {buf : List UInt8} {headers : List PhrHeader}
    (hold : ∀ x ∈ headers, x.Ended buf) : Yields buf (fun hs => ∀ x ∈ hs, x.Ended buf)
      (lineEnd >>= fun _ => (pure headers : Phr (List PhrHeader))) := by
  refine Yields.bind lineEnd_advances fun _ c hs c' _ h => ?_
  obtain ⟨rfl, -⟩ : headers = hs ∧ c = c' := by simpa using h
  exact hold

theorem parseHeaders_ended {buf : List UInt8} {room : ℕ} {headers : List PhrHeader}
    (hold : ∀ x ∈ headers, x.Ended buf) :
    Yields buf (fun hs => ∀ x ∈ hs, x.Ended buf) (parseHeaders room headers) := by
  induction room generalizing headers with
  | zero =>
    refine Yields.bind (Advances.peek _) fun b c hs c' hin h => ?_
    split_ifs at h
    · exact blankLine_ended hold c hs c' hin h
    · exact absurd h (by simp)
  | succ room ih =>
    refine Yields.bind (Advances.peek _) fun b c hs c' hin h => ?_
    split_ifs at h
    · exact blankLine_ended hold c hs c' hin h
    · obtain ⟨header, c₁, hline, h⟩ := run_bind_ok.mp h
      have hnew : ∀ x ∈ headers ++ [header], x.Ended buf := by
        intro x hx
        rcases List.mem_append.mp hx with hx | hx
        · exact hold x hx
        · rw [List.mem_singleton.mp hx]
          exact headerLine_ended buf _ c header c₁ hin hline
      exact ih hnew c₁ hs c' ((headerLine_advances _).in hin hline) h

/-- No value of a request runs on into what follows it. -/
theorem parseRequest_ended (buf : List UInt8) (maxHeaders : ℕ) :
    Yields buf (fun request => ∀ x ∈ request.headers, x.Ended buf) (parseRequest maxHeaders) :=
  .bind skipEmptyLine_advances fun _ => .bind Advances.offset fun _ =>
    .bind (Advances.scan _ _ _ _) fun _ => .bind skipSpaces_advances fun _ =>
    .bind Advances.offset fun _ => .bind (Advances.scan _ _ _ _) fun _ =>
    .bind skipSpaces_advances fun _ => .bind (failIf_advances _) fun _ =>
    .bind parseHttpVersion_advances fun _ => .bind lineEnd_advances fun _ =>
    (parseHeaders_ended (by simp)).bind_pure fun _ h => h

/-! ### A header and its pieces -/

theorem phrParseRequest_zero (buf : List UInt8) (maxHeaders : ℕ) :
    phrParseRequest buf maxHeaders 0 =
      ((parseRequest maxHeaders).run ⟨0, buf⟩).map fun r => (r.2.pos, r.1) := by
  simp only [phrParseRequest, ne_eq, not_true, if_false]
  cases (parseRequest maxHeaders).run ⟨0, buf⟩ <;> rfl

/-- With `last_len` the blank line is looked for first. -/
theorem phrParseRequest_of_ne_zero {lastLen : ℕ} (h : lastLen ≠ 0) (buf : List UInt8)
    (maxHeaders : ℕ) : phrParseRequest buf maxHeaders lastLen =
      match isComplete buf lastLen with
      | .error ret => .error ret
      | .ok () => phrParseRequest buf maxHeaders 0 := by
  cases hc : isComplete buf lastLen with
  | error ret => simp [phrParseRequest, h, hc]
  | ok u => simp [phrParseRequest, h, hc]

/-- A success with `last_len` is a success without. -/
theorem phrParseRequest_zero_of_ok {buf : List UInt8} {maxHeaders lastLen : ℕ}
    {r : ℕ × PhrRequest} (h : phrParseRequest buf maxHeaders lastLen = .ok r) :
    phrParseRequest buf maxHeaders 0 = .ok r := by
  by_cases hlast : lastLen = 0
  · rwa [hlast] at h
  · rw [phrParseRequest_of_ne_zero hlast] at h
    cases hc : isComplete buf lastLen with
    | error ret => rw [hc] at h; exact absurd h (by simp)
    | ok u => rwa [hc] at h

/-- The run of the parser behind a success. -/
theorem run_of_phrParseRequest {buf : List UInt8} {maxHeaders lastLen status : ℕ}
    {request : PhrRequest} (h : phrParseRequest buf maxHeaders lastLen = .ok (status, request)) :
    ∃ c, (parseRequest maxHeaders).run ⟨0, buf⟩ = .ok (request, c) ∧ c.pos = status := by
  have h := phrParseRequest_zero_of_ok h
  rw [phrParseRequest_zero] at h
  cases hr : (parseRequest maxHeaders).run ⟨0, buf⟩ with
  | error e => rw [hr] at h; exact absurd h (by simp [Except.map])
  | ok r =>
    rw [hr] at h
    obtain ⟨hpos, hreq⟩ : r.2.pos = status ∧ r.1 = request := by simpa [Except.map] using h
    exact ⟨r.2, by rw [← hreq], hpos⟩

/-- A request that is accepted: how its parse ends. -/
theorem run_of_accepted {header : List UInt8} {maxHeaders : ℕ} {request : PhrRequest}
    (h : phrParseRequest header maxHeaders 0 = .ok (header.length, request)) :
    (parseRequest maxHeaders).run ⟨0, header⟩ = .ok (request, ⟨header.length, []⟩) := by
  obtain ⟨c', hr, hpos⟩ := run_of_phrParseRequest h
  obtain ⟨used, hused, hlen⟩ := parseRequest_endsIn maxHeaders ⟨0, header⟩ request c' hr
  have hrest : c'.rest = [] := by
    have hl := congrArg List.length hused
    simp only [List.length_append, List.length_cons] at hl
    exact List.length_eq_zero_iff.mp (by simp only at hlen; omega)
  rw [hr, show c' = ⟨header.length, []⟩ by rw [← hpos, ← hrest]]

/-- What follows an accepted header does not matter to its parse. -/
theorem phrParseRequest_append {header : List UInt8} {maxHeaders : ℕ} {request : PhrRequest}
    (h : phrParseRequest header maxHeaders 0 = .ok (header.length, request)) (more : List UInt8) :
    phrParseRequest (header ++ more) maxHeaders 0 = .ok (header.length, request) := by
  have hrun := run_of_accepted h
  rcases parseRequest_incremental maxHeaders ⟨0, header⟩ more with heof | hfeed
  · exact absurd (hrun.symm.trans heof) (by simp)
  · rw [hrun] at hfeed
    rw [phrParseRequest_zero]
    exact congrArg _ hfeed

/-- A proper piece of an accepted header is partial. -/
theorem phrParseRequest_piece {piece more : List UInt8} {maxHeaders : ℕ} {request : PhrRequest}
    (h : phrParseRequest (piece ++ more) maxHeaders 0 = .ok ((piece ++ more).length, request))
    (hmore : more ≠ []) : phrParseRequest piece maxHeaders 0 = .error (-2) := by
  have hrun := run_of_accepted h
  rw [phrParseRequest_zero]
  rcases parseRequest_incremental maxHeaders ⟨0, piece⟩ more with heof | hfeed
  · rw [heof]
    rfl
  · have hfeed' : (parseRequest maxHeaders).run ⟨0, piece ++ more⟩ =
        ((parseRequest maxHeaders).run ⟨0, piece⟩).map fun r => (r.1, r.2.feed more) := hfeed
    rw [hrun] at hfeed'
    cases hr : (parseRequest maxHeaders).run ⟨0, piece⟩ with
    | error e => rw [hr] at hfeed'; exact absurd hfeed' (by simp [Except.map])
    | ok r =>
      -- the piece would have to be consumed beyond its end
      rw [hr] at hfeed'
      obtain ⟨used, hused, hlen⟩ := parseRequest_endsIn maxHeaders ⟨0, piece⟩ r.1 r.2 hr
      have hpos : (piece ++ more).length = r.2.pos := by
        have := congrArg (fun e => e.map fun x => x.2.pos) hfeed'
        simpa [Except.map, Cursor.feed] using this
      have hl := congrArg List.length hused
      have hm : 0 < more.length := List.length_pos_iff.mpr hmore
      simp only [List.length_append, List.length_cons] at hl hpos hlen
      omega

theorem isCompleteLoop_cases (retCnt : ℕ) (bs : List UInt8) : isCompleteLoop retCnt bs = .ok () ∨
    isCompleteLoop retCnt bs = .error (-1) ∨ isCompleteLoop retCnt bs = .error (-2) := by
  fun_induction isCompleteLoop retCnt bs
  case case1 | case2 => exact Or.inr (Or.inr rfl)
  case case3 => exact Or.inr (Or.inl rfl)
  case case4 | case6 => exact Or.inl rfl
  case case5 ih | case7 ih | case8 ih => exact ih

/-- `is_complete` finds a blank line, or fails with -1 or with -2. -/
theorem isComplete_cases (buf : List UInt8) (lastLen : ℕ) : isComplete buf lastLen = .ok () ∨
    isComplete buf lastLen = .error (-1) ∨ isComplete buf lastLen = .error (-2) :=
  isCompleteLoop_cases 0 _

end Ruru.Http
