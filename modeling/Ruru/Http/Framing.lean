import Ruru.Http.PhrFacts
import Ruru.PlainLibs

/-!
# Ruru.Http.Framing — when the announced length lets a request through

The value of the first Content-Length goes through `atoi`, `size_t` and back to `int32_t`, and is
added to the length of the header.  `atoi` reads an integer off the front of the value, and the line
after it if the value is empty, and takes it modulo 2^32; so a value that is no numeral below 2^31
can announce exactly what is in the buffer, and one just below 2^31 makes the sum overflow.
-/

namespace Ruru

open Memory Http Parsing

/-- The text of a header's name, empty on a continuation line. -/
def Http.PhrHeader.nameText (data : ℕ → UInt8) (h : PhrHeader) : List UInt8 :=
  match h.name with
  | none => []
  | some name => load data name h.nameLen

/-- The value of a header. -/
def Http.PhrHeader.text (data : ℕ → UInt8) (h : PhrHeader) : List UInt8 :=
  load data h.value h.valueLen

/-- `h` is the first header with the name Content-Length, in any case. -/
def FirstContentLength (data : ℕ → UInt8) (headers : List PhrHeader) (h : PhrHeader) : Prop :=
  ∃ before after, headers = before ++ h :: after ∧
    (h.nameText data).map toLower = contentLengthName ∧
    ∀ x ∈ before, (x.nameText data).map toLower ≠ contentLengthName

/-- `atoi(headers[i].value)`. -/
def announced (data : ℕ → UInt8) (h : PhrHeader) : ℤ :=
  atoi (load data h.value (HTTP_MAX_SIZE - h.value))

/-- What follows a parse that found a header of `status` bytes is right: `BodyParse` is called
exactly if the value of the first Content-Length is a numeral that denotes the number of bytes
behind the header, one at least, and the sum `status + (int32_t)contentLength` is an `int32_t`. -/
structure FramingExact (con : RuruConnectionData) (lastLen status : ℕ) (request : PhrRequest) :
    Prop where
  body : (∃ n, httpParse con lastLen = .body con status n) ↔
    ∃ h, FirstContentLength con.data request.headers h ∧ Numeral (h.text con.data) ∧
      1 ≤ decimal (h.text con.data) ∧ con.length = status + decimal (h.text con.data)
  sum : 0 < contentLength con.data request.headers →
    -2 ^ 31 ≤ status + toInt32 (contentLength con.data request.headers) ∧
      status + toInt32 (contentLength con.data request.headers) < 2 ^ 31

/-! ### The header search -/

theorem isContentLength_iff (data : ℕ → UInt8) (h : PhrHeader) :
    isContentLength data h = true ↔ (h.nameText data).map toLower = contentLengthName := by
  unfold isContentLength PhrHeader.nameText
  cases h.name with
  | none => simp [contentLengthName]
  | some name =>
    simp only [Bool.and_eq_true, beq_iff_eq]
    constructor
    · rintro ⟨hlen, hname⟩
      rw [hlen, hname]
    · intro hname
      have hlen := congrArg List.length hname
      rw [List.length_map, length_load] at hlen
      exact ⟨hlen, by rw [← hlen, hname]⟩

theorem find_isContentLength (data : ℕ → UInt8) (headers : List PhrHeader) (h : PhrHeader) :
    headers.find? (isContentLength data) = some h ↔ FirstContentLength data headers h := by
  rw [List.find?_eq_some_iff_append, isContentLength_iff]
  constructor
  · rintro ⟨hname, before, after, rfl, hbefore⟩
    refine ⟨before, after, rfl, hname, fun x hx hx' => ?_⟩
    have hcode := (isContentLength_iff data x).mpr hx'
    exact absurd hcode (by simpa using hbefore x hx)
  · rintro ⟨before, after, rfl, hname, hbefore⟩
    refine ⟨hname, before, after, rfl, fun x hx => ?_⟩
    simpa using mt (isContentLength_iff data x).mp (hbefore x hx)

/-! ### The value in memory -/

section Parsed

variable {con : RuruConnectionData} {lastLen status : ℕ} {request : PhrRequest}
  (h0 : 0 ≤ con.length) (h1 : con.length ≤ HTTP_MAX_SIZE)
  (hphr : phrParseRequest (load con.data 0 con.length.toNat) maxHeaders lastLen =
    .ok (status, request))

include hphr in
/-- The header lies in the buffer. -/
theorem status_le : status ≤ con.length.toNat := by
  obtain ⟨c, hrun, rfl⟩ := run_of_phrParseRequest hphr
  obtain ⟨used, hused, hpos⟩ := parseRequest_endsIn maxHeaders _ _ _ hrun
  have hlen := congrArg List.length hused
  simp only [length_load, List.length_append, List.length_cons] at hlen
  simp only at hpos
  omega

include h1 hphr in
/-- Behind a value the memory goes on with something that is no digit. -/
theorem value_in_memory {h : PhrHeader} (hh : h ∈ request.headers) :
    ∃ b rest, load con.data h.value (HTTP_MAX_SIZE - h.value) = h.text con.data ++ b :: rest ∧
      isDigit b = false := by
  have hmax : (HTTP_MAX_SIZE : ℤ) = 4096 := rfl
  have hmax' : HTTP_MAX_SIZE = 4096 := rfl
  obtain ⟨c, hrun, -⟩ := run_of_phrParseRequest hphr
  obtain ⟨b, hb, hend⟩ := parseRequest_ended _ maxHeaders _ _ _ (Cursor.in_start _) hrun h hh
  rw [getElem?_load] at hb
  split_ifs at hb with hlt
  rw [Nat.zero_add] at hb
  obtain rfl : con.data (h.value + h.valueLen) = b := Option.some.inj hb
  refine ⟨con.data (h.value + h.valueLen), load con.data (h.value + h.valueLen + 1)
    (HTTP_MAX_SIZE - (h.value + h.valueLen + 1)), ?_, ?_⟩
  · have hsize : HTTP_MAX_SIZE - h.value =
        h.valueLen + (HTTP_MAX_SIZE - (h.value + h.valueLen + 1) + 1) := by omega
    rw [hsize, load_add, load_succ]
    rfl
  · by_contra hd
    have hdigit := (isDigit_iff _).mp (Bool.not_eq_false _ ▸ hd)
    generalize con.data (h.value + h.valueLen) = b at hend hdigit
    simp only [isBlank, isEolCtl, SP, HT, Bool.or_eq_true, beq_iff_eq, Bool.and_eq_true,
      decide_eq_true_eq, UInt8.lt_iff_toNat_lt] at hend
    rcases hend with (rfl | rfl) | ⟨hlt, -⟩ | rfl
    · exact absurd hdigit.1 (by decide)
    · exact absurd hdigit.1 (by decide)
    · have h32 : (32 : UInt8).toNat = 32 := rfl
      omega
    · exact absurd hdigit.2 (by decide)

include h1 hphr in
/-- A numeral below 2^31 is announced as what it denotes. -/
theorem announced_numeral {h : PhrHeader} (hh : h ∈ request.headers)
    (hnum : Numeral (h.text con.data)) (hlt : decimal (h.text con.data) < 2 ^ 31) :
    announced con.data h = decimal (h.text con.data) := by
  obtain ⟨b, rest, hmem, hb⟩ := value_in_memory h1 hphr hh
  unfold announced atoi
  rw [hmem, strtol_numeral hnum hb, min_eq_left (by omega), toInt32_natCast hlt]

end Parsed

theorem announced_bounds (data : ℕ → UInt8) (h : PhrHeader) :
    -2 ^ 31 ≤ announced data h ∧ announced data h < 2 ^ 31 := toInt32_bounds _

theorem contentLength_of_first {data : ℕ → UInt8} {headers : List PhrHeader} {h : PhrHeader}
    (hh : FirstContentLength data headers h) : contentLength data headers = toSize (announced data h) := by
  unfold contentLength contentLengthIn
  rw [(find_isContentLength data headers h).mpr hh]
  rfl

theorem FirstContentLength.mem {data : ℕ → UInt8} {headers : List PhrHeader} {h : PhrHeader}
    (hh : FirstContentLength data headers h) : h ∈ headers := by
  obtain ⟨before, after, rfl, -⟩ := hh
  simp

theorem FirstContentLength.unique {data : ℕ → UInt8} {headers : List PhrHeader} {h h' : PhrHeader}
    (hh : FirstContentLength data headers h) (hh' : FirstContentLength data headers h') : h = h' := by
  rw [← find_isContentLength] at hh hh'
  exact Option.some.inj (hh.symm.trans hh')

section Framing

variable {con : RuruConnectionData} {lastLen status : ℕ} {request : PhrRequest}
  (h0 : 0 ≤ con.length) (h1 : con.length ≤ HTTP_MAX_SIZE)
  (hphr : phrParseRequest (load con.data 0 con.length.toNat) maxHeaders lastLen =
    .ok (status, request))

include h0 h1 hphr

/-- The code goes on to `BodyParse` if what is announced is positive and all of it is there; an
overflow of the sum makes it negative, so it does no harm where the `int32_t` wraps. -/
theorem httpParse_body_iff : (∃ n, httpParse con lastLen = .body con status n) ↔
    ∃ h, FirstContentLength con.data request.headers h ∧ 1 ≤ announced con.data h ∧
      con.length = status + announced con.data h := by
  have hmax : (HTTP_MAX_SIZE : ℤ) = 4096 := rfl
  have hstatus := status_le hphr
  have hcode : httpParse con lastLen =
      if 0 < contentLength con.data request.headers then
        if con.length = toInt32 (status + toInt32 (contentLength con.data request.headers)) then
          .body con status (contentLength con.data request.headers)
        else .reading con
      else .reading con := by
    unfold httpParse
    rw [if_neg (by omega), hphr]
  rw [hcode]
  cases hf : request.headers.find? (isContentLength con.data) with
  | none =>
    have hzero : contentLength con.data request.headers = 0 := by
      unfold contentLength contentLengthIn
      rw [hf]
    rw [hzero, if_neg (lt_irrefl 0)]
    refine iff_of_false (by simp) ?_
    rintro ⟨h, hh, -⟩
    rw [← find_isContentLength, hf] at hh
    exact absurd hh (by simp)
  | some h =>
    have hh := (find_isContentLength _ _ _).mp hf
    obtain ⟨hlow, hhigh⟩ := announced_bounds con.data h
    have hback : toInt32 (contentLength con.data request.headers) = announced con.data h := by
      rw [contentLength_of_first hh, toInt32_toSize hlow hhigh]
    have hpos : 0 < contentLength con.data request.headers ↔ announced con.data h ≠ 0 := by
      rw [contentLength_of_first hh, toSize_pos_iff hlow hhigh]
    have hsum : con.length = toInt32 (status + announced con.data h) ↔
        con.length = status + announced con.data h := by
      by_cases hover : status + announced con.data h < 2 ^ 31
      · rw [toInt32_of_lt (by omega) hover]
      · have hwrap : toInt32 (status + announced con.data h) < 0 := by
          rw [toInt32_eq_bmod, Int.bmod_def]
          split_ifs <;> omega
        exact iff_of_false (by omega) (by omega)
    rw [hback]
    constructor
    · rintro ⟨n, hn⟩
      split_ifs at hn with hp hl
      have hlen := hsum.mp hl
      have hne := hpos.mp hp
      exact ⟨h, hh, by omega, hlen⟩
    · rintro ⟨h', hh', hone, hlen⟩
      obtain rfl := hh.unique hh'
      exact ⟨_, by rw [if_pos (hpos.mpr (by omega)), if_pos (hsum.mpr hlen)]⟩

/-- What `atoi` makes of the value of a header that is handled as it should. -/
theorem FramingExact.condition (hexact : FramingExact con lastLen status request) {h : PhrHeader}
    (hh : FirstContentLength con.data request.headers h) :
    status + announced con.data h < 2 ^ 31 ∧
      (con.length = status + announced con.data h → announced con.data h = 0 ∨
        Numeral (h.text con.data) ∧ decimal (h.text con.data) < 2 ^ 31) := by
  have hmax : (HTTP_MAX_SIZE : ℤ) = 4096 := rfl
  have hstatus := status_le hphr
  obtain ⟨hbody, hsum⟩ := hexact
  obtain ⟨hlow, hhigh⟩ := announced_bounds con.data h
  rw [contentLength_of_first hh, toSize_pos_iff hlow hhigh, toInt32_toSize hlow hhigh] at hsum
  by_cases hzero : announced con.data h = 0
  · exact ⟨by omega, fun _ => Or.inl hzero⟩
  · refine ⟨(hsum hzero).2, fun hlen => Or.inr ?_⟩
    have hone : 1 ≤ announced con.data h := by omega
    obtain ⟨h', hh', hnum, -, hlen'⟩ :=
      hbody.mp ((httpParse_body_iff h0 h1 hphr).mpr ⟨h, hh, hone, hlen⟩)
    obtain rfl := hh.unique hh'
    exact ⟨hnum, by omega⟩

end Framing

/-- **Framing.**  After a parse that found a header of `status` bytes the announced length is handled
as it should if and only if what `atoi` makes of the value of the first Content-Length, added to
`status`, stays below 2^31, and where that is the number of bytes in the buffer the value is a
numeral below 2^31. -/
theorem framingExact_iff (con : RuruConnectionData) (lastLen status : ℕ) (request : PhrRequest)
    (h0 : 0 ≤ con.length) (h1 : con.length ≤ HTTP_MAX_SIZE)
    (hphr : phrParseRequest (load con.data 0 con.length.toNat) maxHeaders lastLen =
      .ok (status, request)) :
    FramingExact con lastLen status request ↔
      ∀ h, FirstContentLength con.data request.headers h →
        status + announced con.data h < 2 ^ 31 ∧
        (con.length = status + announced con.data h → announced con.data h = 0 ∨
          Numeral (h.text con.data) ∧ decimal (h.text con.data) < 2 ^ 31) := by
  have hmax : (HTTP_MAX_SIZE : ℤ) = 4096 := rfl
  have hstatus := status_le hphr
  refine ⟨fun hexact h hh => hexact.condition h0 h1 hphr hh, fun hgood => ?_⟩
  refine ⟨(httpParse_body_iff h0 h1 hphr).trans ⟨?_, ?_⟩, fun hn => ?_⟩
  · rintro ⟨h, hh, hone, hlen⟩
    obtain ⟨-, hcase⟩ := hgood h hh
    rcases hcase hlen with hzero | ⟨hnum, hlt⟩
    · omega
    · have hval := announced_numeral h1 hphr hh.mem hnum hlt
      exact ⟨h, hh, hnum, by omega, by omega⟩
  · rintro ⟨h, hh, hnum, hone, hlen⟩
    have hval := announced_numeral h1 hphr hh.mem hnum (by omega)
    exact ⟨h, hh, by omega, by omega⟩
  · cases hf : request.headers.find? (isContentLength con.data) with
    | none =>
      unfold contentLength contentLengthIn at hn
      rw [hf] at hn
      exact absurd hn (lt_irrefl 0)
    | some h =>
      have hh := (find_isContentLength _ _ _).mp hf
      obtain ⟨hlow, hhigh⟩ := announced_bounds con.data h
      rw [contentLength_of_first hh, toInt32_toSize hlow hhigh]
      exact ⟨by omega, (hgood h hh).1⟩

/-- A connection whose buffer holds `text`. -/
def held (text : List UInt8) : RuruConnectionData := ⟨5, store (fun _ => 0) 0 text, text.length⟩

/-- A request with the text `value` as its Content-Length. -/
def requestWith (value body : String) : List UInt8 :=
  ascii ("POST / HTTP/1.1\r\nContent-Length: " ++ value ++ "\r\n\r\n" ++ body)

/-- A numeral, and as many bytes as it says. -/
theorem framingExact_of_two_bytes :
    FramingExact (held (requestWith "2" "ab")) 0 38
      ⟨0, 4, 5, 1, 1, [⟨some 17, 14, 33, 1⟩]⟩ := by
  refine (framingExact_iff _ _ _ _ (by decide) (by decide +kernel) (by decide +kernel)).mpr
    fun h hh => ?_
  rw [← find_isContentLength] at hh
  obtain rfl : ⟨some 17, 14, 33, 1⟩ = h := Option.some.inj (.trans (by decide +kernel) hh)
  have hval : announced (held (requestWith "2" "ab")).data ⟨some 17, 14, 33, 1⟩ = 2 := by
    decide +kernel
  rw [hval]
  exact ⟨by decide, fun _ => Or.inr (by decide +kernel)⟩

/-- What follows the digits is ignored, a numeral counts modulo 2^32, and the largest `int` makes the
sum overflow. -/
theorem odd_lengths :
    ¬ FramingExact (held (requestWith "2x" "ab")) 0 39
        ⟨0, 4, 5, 1, 1, [⟨some 17, 14, 33, 2⟩]⟩ ∧
      ¬ FramingExact (held (requestWith "4294967298" "ab")) 0 47
        ⟨0, 4, 5, 1, 1, [⟨some 17, 14, 33, 10⟩]⟩ ∧
      ¬ FramingExact (held (requestWith "2147483647" "ab")) 0 47
        ⟨0, 4, 5, 1, 1, [⟨some 17, 14, 33, 10⟩]⟩ := by
  refine ⟨fun hexact => ?_, fun hexact => ?_, fun hexact => ?_⟩
  · have hcase := (hexact.condition (by decide) (by decide +kernel) (by decide +kernel)
      ((find_isContentLength _ _ ⟨some 17, 14, 33, 2⟩).mp (by decide +kernel))).2
    exact absurd (hcase (by decide +kernel)) (by decide +kernel)
  · have hcase := (hexact.condition (by decide) (by decide +kernel) (by decide +kernel)
      ((find_isContentLength _ _ ⟨some 17, 14, 33, 10⟩).mp (by decide +kernel))).2
    exact absurd (hcase (by decide +kernel)) (by decide +kernel)
  · have hsum := (hexact.condition (by decide) (by decide +kernel) (by decide +kernel)
      ((find_isContentLength _ _ ⟨some 17, 14, 33, 10⟩).mp (by decide +kernel))).1
    exact absurd hsum (by decide +kernel)

end Ruru
