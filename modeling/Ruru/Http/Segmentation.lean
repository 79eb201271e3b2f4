import Ruru.Http.Passes
import Ruru.Moves
import Ruru.PlainLibs

/-!
# Ruru.Http.Segmentation — a registration request cut into pieces

A request that comes in one read is parsed from its start.  With every later read the parser first
looks for the blank line, from 3 bytes before the new bytes on; so a cut request is handled like the
whole one exactly if the last piece still shows the blank line and no piece shows a CR without LF.
-/

namespace Ruru

open Memory Http

/-- A registration request: a header that is accepted, and a body of the length the header announces
by itself; both fit the buffer. -/
structure CompleteRequest (header body : List UInt8) (request : PhrRequest) : Prop where
  accepted : phrParseRequest header maxHeaders 0 = .ok (header.length, request)
  announced : contentLengthIn header.length (store (fun _ => 0) 0 header) request.headers =
    body.length
  nonempty : body ≠ []
  fits : header.length + body.length ≤ HTTP_MAX_SIZE

/-- After some piece other than the first, what `is_complete` looks at shows a CR without LF. -/
def Rejected (chunks : List (List UInt8)) : Prop :=
  ∃ pre chunk post, chunks = pre ++ chunk :: post ∧ pre ≠ [] ∧
    isComplete (pre ++ [chunk]).flatten pre.flatten.length = .error (-1)

/-- After the last piece the blank line is looked for where it is, or not at all. -/
def BlankLineSeen (chunks : List (List UInt8)) : Prop :=
  chunks.length = 1 ∨ isComplete chunks.flatten chunks.dropLast.flatten.length = .ok ()

theorem not_rejected_nil : ¬Rejected [] := by
  rintro ⟨pre, chunk, post, hp, -⟩
  exact absurd hp.symm (by simp)

theorem rejected_concat (cs : List (List UInt8)) (c : List UInt8) : Rejected (cs ++ [c]) ↔
    Rejected cs ∨ (cs ≠ [] ∧ isComplete (cs ++ [c]).flatten cs.flatten.length = .error (-1)) := by
  constructor
  · rintro ⟨pre, chunk, post, hp, hpre, hr⟩
    rcases List.eq_nil_or_concat post with rfl | ⟨post, x, rfl⟩
    · obtain ⟨rfl, hx⟩ := List.append_inj' hp rfl
      obtain rfl : c = chunk := by simpa using hx
      exact Or.inr ⟨hpre, hr⟩
    · rw [List.concat_eq_append, ← List.cons_append, ← List.append_assoc] at hp
      obtain ⟨rfl, -⟩ := List.append_inj' hp rfl
      exact Or.inl ⟨pre, chunk, post, rfl, hpre, hr⟩
  · rintro (⟨pre, chunk, post, rfl, hpre, hr⟩ | ⟨hcs, hr⟩)
    · exact ⟨pre, chunk, post ++ [c], by simp, hpre, hr⟩
    · exact ⟨cs, c, [], rfl, hcs, hr⟩

namespace CompleteRequest

variable {header body : List UInt8} {request : PhrRequest} (h : CompleteRequest header body request)

include h

/-! ### What the parser sees -/

theorem ends_in_LF : ∃ text, header = text ++ [LF] := by
  obtain ⟨used, hused, -⟩ := parseRequest_endsIn maxHeaders _ _ _ (run_of_accepted h.accepted)
  exact ⟨used, hused⟩

/-- Whatever follows the header in memory, its Content-Length is the length of the body. -/
theorem contentLength_eq {m : ℕ → UInt8} (hm : load m 0 header.length = header) :
    contentLength m request.headers = body.length := by
  have hmz : load m 0 header.length = load (store (fun _ => 0) 0 header) 0 header.length := by
    rw [hm, load_store]
  have hcell : ∀ j < header.length, m j = store (fun _ => 0) 0 header j := by
    intro j hj
    have := eq_of_load_eq hmz hj
    rwa [Nat.zero_add] at this
  have hwithin : ∀ x ∈ request.headers, x.Within header.length :=
    parseRequest_within maxHeaders _ _ _ (run_of_accepted h.accepted)
  have hname : ∀ x ∈ request.headers,
      isContentLength m x = isContentLength (store (fun _ => 0) 0 header) x := by
    intro x hx
    unfold isContentLength
    cases hn : x.name with
    | none => rfl
    | some name =>
      by_cases hlen : x.nameLen = contentLengthName.length
      · have hle := (hwithin x hx).1 name hn
        have hload : load m name contentLengthName.length =
            load (store (fun _ => 0) 0 header) name contentLengthName.length :=
          load_congr fun i hi => hcell (name + i) (by omega)
        dsimp only
        rw [hload]
      · have hne : (x.nameLen == contentLengthName.length) = false := by simpa using hlen
        rw [hne]
        rfl
  have hfind : request.headers.find? (isContentLength m) =
      request.headers.find? (isContentLength (store (fun _ => 0) 0 header)) :=
    List.find?_congr hname
  have hann := h.announced
  unfold contentLength contentLengthIn at *
  rw [hfind]
  cases hf : request.headers.find? (isContentLength (store (fun _ => 0) 0 header)) with
  | none => rw [hf] at hann; exact hann
  | some x =>
    rw [hf] at hann
    dsimp only at hann ⊢
    have hval : x.value < header.length := (hwithin x (List.mem_of_find?_eq_some hf)).2
    obtain ⟨text, htext⟩ := h.ends_in_LF
    have hdrop : header.drop x.value = text.drop x.value ++ [LF] := by
      rw [htext] at hval ⊢
      rw [List.length_append, List.length_singleton] at hval
      exact List.drop_append_of_le_length (by omega)
    have hz : load (store (fun _ => 0) 0 header) x.value (header.length - x.value) =
        text.drop x.value ++ [LF] := by
      have := drop_load (store (fun _ => (0 : UInt8)) 0 header) 0 header.length x.value
      rw [load_store, Nat.zero_add] at this
      rw [← this, hdrop]
    have hmload : load m x.value (HTTP_MAX_SIZE - x.value) = text.drop x.value ++ [LF] ++
        load m header.length (HTTP_MAX_SIZE - header.length) := by
      have hsplit : HTTP_MAX_SIZE - x.value =
          (header.length - x.value) + (HTTP_MAX_SIZE - header.length) := by
        have := h.fits
        omega
      have hfirst := drop_load m 0 header.length x.value
      rw [hm, Nat.zero_add] at hfirst
      rw [hsplit, load_add, ← hfirst, hdrop]
      congr 2
      omega
    rw [hz] at hann
    have hne : atoi (text.drop x.value ++ [LF]) ≠ 0 := by
      intro h0
      rw [h0, toSize_zero] at hann
      exact h.nonempty (List.length_eq_zero_iff.mp hann.symm)
    rw [hmload, atoi_append (by decide) _ _ hne]
    exact hann

/-- The parse of a piece of the request, from its start. -/
theorem parse_piece {piece more : List UInt8} (hB : header ++ body = piece ++ more) :
    phrParseRequest piece maxHeaders 0 =
      if piece.length < header.length then .error (-2) else .ok (header.length, request) := by
  rcases List.append_eq_append_iff.mp hB with ⟨rest, hpiece, -⟩ | ⟨rest, hheader, -⟩
  · rw [hpiece, if_neg (by rw [List.length_append]; omega)]
    exact phrParseRequest_append h.accepted rest
  · by_cases hrest : rest = []
    · subst hrest
      rw [List.append_nil] at hheader
      rw [← hheader, if_neg (Nat.lt_irrefl _)]
      exact h.accepted
    · have hacc := h.accepted
      have hpos : 0 < rest.length := List.length_pos_iff.mpr hrest
      rw [hheader] at hacc ⊢
      rw [if_pos (by rw [List.length_append]; omega)]
      exact phrParseRequest_piece hacc hrest

/-- A first parse goes on reading until the request is complete. -/
theorem httpParse_first {piece more : List UInt8} (hB : header ++ body = piece ++ more)
    {con : RuruConnectionData} (hlen : con.length = piece.length)
    (hload : load con.data 0 piece.length = piece) :
    httpParse con 0 = if more = [] then .body con header.length body.length else .reading con := by
  have hmax : (HTTP_MAX_SIZE : ℤ) = 4096 := rfl
  have hmax' : HTTP_MAX_SIZE = 4096 := rfl
  have hfits := h.fits
  have htotal : header.length + body.length = piece.length + more.length := by
    rw [← List.length_append, hB, List.length_append]
  have hnat : con.length.toNat = piece.length := by omega
  unfold httpParse
  rw [if_neg (by omega), hnat, hload, h.parse_piece hB]
  by_cases hshort : piece.length < header.length
  · have hmore : more ≠ [] := by
      rintro rfl
      rw [List.length_nil] at htotal
      omega
    have hroom : con.length ≠ HTTP_MAX_SIZE := by omega
    rw [if_pos hshort, if_neg hmore]
    simp only [if_neg hroom]
    rfl
  · have hheader : load con.data 0 header.length = header := by
      have htake := take_load con.data 0 piece.length header.length
      rw [hload, Nat.min_eq_left (by omega)] at htake
      rw [← htake]
      have := congrArg (List.take header.length) hB
      rw [List.take_left, List.take_append_of_le_length (by omega)] at this
      exact this.symm
    have hbody : 0 < body.length := List.length_pos_iff.mpr h.nonempty
    have hn32 : toInt32 body.length = body.length := toInt32_natCast (by omega)
    have hsum : toInt32 (header.length + body.length) = header.length + body.length :=
      toInt32_of_lt (by omega) (by omega)
    rw [if_neg hshort]
    simp only [h.contentLength_eq hheader, gt_iff_lt, hbody, if_true, hn32, hsum]
    by_cases hmore : more = []
    · have hall : con.length = header.length + body.length := by
        rw [hmore, List.length_nil] at htotal
        omega
      rw [if_pos hmore, if_pos hall]
    · have hpos : 0 < more.length := List.length_pos_iff.mpr hmore
      rw [if_neg hmore, if_neg (by omega)]

/-! ### The loop -/

/-- The round that reads `c` behind the pieces `cs`. -/
theorem httpLoop_concat {con : RuruConnectionData} (hcon : con.length = 0)
    {cs : List (List UInt8)} {c more : List UInt8} (hc : c ≠ [])
    (hB : header ++ body = cs.flatten ++ (c ++ more))
    (hcs : httpLoop con (cs.map .bytes) = .reading (con.grown cs.flatten)) :
    httpLoop con ((cs ++ [c]).map .bytes) =
      httpParse (con.grown (cs ++ [c]).flatten) cs.flatten.length := by
  have hmax : (HTTP_MAX_SIZE : ℤ) = 4096 := rfl
  have hmax' : HTTP_MAX_SIZE = 4096 := rfl
  have hfits := h.fits
  have htotal : header.length + body.length = cs.flatten.length + (c.length + more.length) := by
    rw [← List.length_append, hB, List.length_append, List.length_append]
  have hpos : 0 < c.length := List.length_pos_iff.mpr hc
  have hlen : (con.grown cs.flatten).length = cs.flatten.length := by
    rw [con.length_grown, hcon, Int.zero_add]
  have h0 : 0 ≤ (con.grown cs.flatten).length := by omega
  have hround := httpPass_chunk h0 (by omega) hc (by omega)
  rw [List.map_append, httpLoop_append_of_reading hcs, List.map_singleton, httpLoop_singleton,
    hround, con.grown_grown hcon.ge, hlen, Int.toNat_natCast, List.flatten_append,
    List.flatten_singleton]

/-- The loop over a proper part of the request goes on, unless a piece is rejected. -/
theorem httpLoop_pieces {con : RuruConnectionData} (hcon : con.length = 0)
    {cs : List (List UInt8)} (hne : ∀ c ∈ cs, c ≠ []) {more : List UInt8}
    (hB : header ++ body = cs.flatten ++ more) (hmore : more ≠ []) :
    (Rejected cs ∧ httpLoop con (cs.map .bytes) = .closed) ∨
      (¬Rejected cs ∧ httpLoop con (cs.map .bytes) = .reading (con.grown cs.flatten)) := by
  have hmax : (HTTP_MAX_SIZE : ℤ) = 4096 := rfl
  have hmax' : HTTP_MAX_SIZE = 4096 := rfl
  have hfits := h.fits
  induction cs using List.reverseRecOn generalizing more with
  | nil => exact Or.inr ⟨not_rejected_nil, by simp [httpLoop]⟩
  | append_singleton cs c ih =>
    have hB' : header ++ body = cs.flatten ++ (c ++ more) := by
      rw [hB, List.flatten_append, List.flatten_singleton, List.append_assoc]
    have hc : c ≠ [] := hne c (by simp)
    rw [rejected_concat]
    rcases ih (fun x hx => hne x (by simp [hx])) hB' (by simp [hc]) with
      ⟨hrej, hclosed⟩ | ⟨hrej, hreading⟩
    · refine Or.inl ⟨Or.inl hrej, ?_⟩
      rw [List.map_append, httpLoop_append_of_left (by rw [hclosed]; rfl), hclosed]
    · rw [h.httpLoop_concat hcon hc hB' hreading]
      obtain ⟨hlen, hload⟩ := con.holds_grown hcon (cs ++ [c]).flatten
      have hfirst := h.httpParse_first hB hlen hload
      rw [if_neg hmore] at hfirst
      by_cases hcs : cs = []
      · subst hcs
        exact Or.inr ⟨by simp [not_rejected_nil], hfirst⟩
      · have hroom : (con.grown (cs ++ [c]).flatten).length ≠ HTTP_MAX_SIZE := by
          have htotal := congrArg List.length hB
          rw [List.length_append, List.length_append] at htotal
          have hpos : 0 < more.length := List.length_pos_iff.mpr hmore
          omega
        have hlast : cs.flatten.length ≠ 0 := by
          obtain ⟨x, xs, rfl⟩ := List.exists_cons_of_ne_nil hcs
          have hx : 0 < x.length := List.length_pos_iff.mpr (hne x (by simp))
          rw [List.flatten_cons, List.length_append]
          omega
        rw [httpParse_of_ne_zero (by omega) hlast, hlen, Int.toNat_natCast, hload, hfirst]
        rw [hlen] at hroom
        have hkept : isComplete (cs ++ [c]).flatten cs.flatten.length ≠ .error (-1) →
            ¬(Rejected cs ∨ (cs ≠ [] ∧
              isComplete (cs ++ [c]).flatten cs.flatten.length = .error (-1))) := by
          rintro hi (hr | ⟨-, hr⟩)
          · exact hrej hr
          · exact hi hr
        rcases isComplete_cases (cs ++ [c]).flatten cs.flatten.length with hi | hi | hi
        · exact Or.inr ⟨hkept (by rw [hi]; simp), by rw [hi]⟩
        · exact Or.inl ⟨Or.inr ⟨hcs, hi⟩, by rw [hi]; rfl⟩
        · refine Or.inr ⟨hkept (by rw [hi]; simp), ?_⟩
          rw [hi]
          exact (if_neg (by decide)).trans (if_neg hroom)

/-- The loop over all pieces. -/
theorem httpLoop_cut {con : RuruConnectionData} (hcon : con.length = 0)
    {chunks : List (List UInt8)} (hne : ∀ c ∈ chunks, c ≠ [])
    (hB : chunks.flatten = header ++ body) :
    (Rejected chunks ∧ httpLoop con (chunks.map .bytes) = .closed) ∨
      (¬Rejected chunks ∧ BlankLineSeen chunks ∧ httpLoop con (chunks.map .bytes) =
        .body (con.grown (header ++ body)) header.length body.length) ∨
      (¬Rejected chunks ∧ ¬BlankLineSeen chunks ∧ httpLoop con (chunks.map .bytes) =
        if (header ++ body).length = HTTP_MAX_SIZE then .badRequest
        else .reading (con.grown (header ++ body))) := by
  have hbody : 0 < body.length := List.length_pos_iff.mpr h.nonempty
  rcases List.eq_nil_or_concat chunks with rfl | ⟨cs, c, rfl⟩
  · have hlen := congrArg List.length hB
    rw [List.flatten_nil, List.length_nil, List.length_append] at hlen
    omega
  rw [List.concat_eq_append] at hne hB ⊢
  have hc : c ≠ [] := hne c (by simp)
  have hB' : header ++ body = cs.flatten ++ c := by
    rw [← hB, List.flatten_append, List.flatten_singleton]
  rw [rejected_concat]
  rcases h.httpLoop_pieces hcon (fun x hx => hne x (by simp [hx])) hB' hc with
    ⟨hrej, hclosed⟩ | ⟨hrej, hreading⟩
  · refine Or.inl ⟨Or.inl hrej, ?_⟩
    rw [List.map_append, httpLoop_append_of_left (by rw [hclosed]; rfl), hclosed]
  have hB'' : header ++ body = cs.flatten ++ (c ++ []) := by rw [List.append_nil, hB']
  rw [h.httpLoop_concat hcon hc hB'' hreading, hB]
  obtain ⟨hlen, hload⟩ := con.holds_grown hcon (header ++ body)
  have hfirst := h.httpParse_first (List.append_nil _).symm hlen hload
  rw [if_pos rfl] at hfirst
  have hseen : BlankLineSeen (cs ++ [c]) ↔
      cs = [] ∨ isComplete (header ++ body) cs.flatten.length = .ok () := by
    unfold BlankLineSeen
    rw [hB, List.dropLast_concat, List.length_append, List.length_singleton]
    refine or_congr_left ⟨fun hl => List.length_eq_zero_iff.mp (by omega), ?_⟩
    rintro rfl
    rfl
  rw [hseen]
  by_cases hcs : cs = []
  · subst hcs
    exact Or.inr (Or.inl ⟨by simp [not_rejected_nil], Or.inl rfl, hfirst⟩)
  have hlast : cs.flatten.length ≠ 0 := by
    obtain ⟨x, xs, rfl⟩ := List.exists_cons_of_ne_nil hcs
    have hx : 0 < x.length := List.length_pos_iff.mpr (hne x (by simp))
    rw [List.flatten_cons, List.length_append]
    omega
  rw [httpParse_of_ne_zero (by omega) hlast, hlen, Int.toNat_natCast, hload, hfirst]
  simp only [hrej, hcs, false_or, ne_eq, not_false_eq_true, true_and]
  rcases isComplete_cases (header ++ body) cs.flatten.length with hi | hi | hi
  · rw [hi]
    exact Or.inr (Or.inl ⟨by simp, rfl, rfl⟩)
  · rw [hi]
    exact Or.inl ⟨rfl, rfl⟩
  · rw [hi]
    refine Or.inr (Or.inr ⟨by simp, by simp, ?_⟩)
    simp only [Nat.cast_inj]
    rfl

end CompleteRequest

/-! ### `HttpRequestHandle` -/

namespace RuruLoop

variable {σ υ : Type} (env : Env σ υ)

theorem clients_registerClient (s : RuruLoop σ υ) (address : RuruAddress) :
    s.clientMgr_.length < (s.registerClient env address).clientMgr_.length := by
  have hm : Moves true s (s.usrsctpDone env s.clientMgr_.length
      (.construct env.usrsctp (env.junk s.clientMgr_.length) s.usr s.nextSock)) :=
    (exchanges_usrsctpDone env s _ _).moves env
  have hle := hm.clients_le
  simp only [registerClient, List.length_append, List.length_singleton]
  omega

/-- A 200 response shows in `clientMgr_`, a 400 response in the history. -/
theorem httpAnswer_ne_closeCon (s : RuruLoop σ υ) (c : ConId) (fd : ℤ)
    (address : Option RuruAddress) : s.httpAnswer env c fd address ≠ s.closeCon c fd := by
  intro h
  cases address with
  | none =>
    have hlen := congrArg (fun s => s.trace.length) h
    simp [httpAnswer, closeCon, note] at hlen
  | some address =>
    have hlen : (s.registerClient env address).clientMgr_.length = s.clientMgr_.length :=
      congrArg (fun s => s.clientMgr_.length) h
    have hlt := s.clients_registerClient env address
    omega

theorem httpAnswer_none_eq_iff (s : RuruLoop σ υ) (c : ConId) (fd : ℤ)
    (address : Option RuruAddress) :
    s.httpAnswer env c fd none = s.httpAnswer env c fd address ↔ address = none := by
  refine ⟨fun h => ?_, fun h => by rw [h]⟩
  cases address with
  | none => rfl
  | some address =>
    have hlen : s.clientMgr_.length = (s.registerClient env address).clientMgr_.length :=
      congrArg (fun s => s.clientMgr_.length) h
    have hlt := s.clients_registerClient env address
    omega

/-- **Segmentation.**  A complete request cut into non-empty pieces leads to the same response, the
same close and the same client as in one piece exactly if no piece is rejected and the blank line is
seen with the last one, or else the buffer is full and the body is rejected anyway. -/
theorem segmentation_iff (s : RuruLoop σ υ) (c : ConId) (fd : ℤ) (data : ℕ → UInt8)
    {header body : List UInt8} {request : PhrRequest} (h : CompleteRequest header body request)
    {chunks : List (List UInt8)} (hne : ∀ x ∈ chunks, x ≠ [])
    (hB : chunks.flatten = header ++ body) :
    s.httpRequestHandle env c ⟨fd, data, 0⟩ (chunks.map .bytes) =
        s.httpRequestHandle env c ⟨fd, data, 0⟩ [.bytes (header ++ body)] ↔
      ¬Rejected chunks ∧ (BlankLineSeen chunks ∨ (header ++ body).length = HTTP_MAX_SIZE ∧
        bodyParse env (store data 0 (header ++ body)) header.length body.length = none) := by
  have hmax : HTTP_MAX_SIZE = 4096 := rfl
  have hfits := h.fits
  have hn32 : toInt32 body.length = body.length := toInt32_natCast (by omega)
  have hpieces : ∀ x ∈ [header ++ body], x ≠ [] := by simp [h.nonempty]
  have hone : ¬Rejected [header ++ body] := by
    have := rejected_concat [] (header ++ body)
    simpa [not_rejected_nil] using this
  have hwhole : httpLoop ⟨fd, data, 0⟩ [.bytes (header ++ body)] = .body
      ((⟨fd, data, 0⟩ : RuruConnectionData).grown (header ++ body)) header.length body.length := by
    rcases @CompleteRequest.httpLoop_cut _ _ _ h ⟨fd, data, 0⟩ rfl [header ++ body] hpieces
      (by simp) with ⟨hr, -⟩ | ⟨-, -, hl⟩ | ⟨-, hs, -⟩
    · exact absurd hr hone
    · exact hl
    · exact absurd (Or.inl rfl) hs
  have hdata : ((⟨fd, data, 0⟩ : RuruConnectionData).grown (header ++ body)).data =
      store data 0 (header ++ body) := rfl
  unfold httpRequestHandle
  rw [hwhole]
  simp only [hdata, hn32]
  rcases @CompleteRequest.httpLoop_cut _ _ _ h ⟨fd, data, 0⟩ rfl chunks hne hB with
    ⟨hr, hl⟩ | ⟨hr, hs, hl⟩ | ⟨hr, hs, hl⟩
  · -- a rejected piece closes without a response
    rw [hl]
    refine ⟨fun heq => ?_, fun hc => absurd hr hc.1⟩
    exact absurd (Option.some.inj heq).symm (s.httpAnswer_ne_closeCon env c fd _)
  · rw [hl]
    simp only [hdata, hn32]
    exact ⟨fun _ => ⟨hr, Or.inl hs⟩, fun _ => trivial⟩
  · by_cases hfull : (header ++ body).length = HTTP_MAX_SIZE
    · rw [hl, if_pos hfull]
      have hanswer := s.httpAnswer_none_eq_iff env c fd
        (bodyParse env (store data 0 (header ++ body)) header.length body.length)
      simp only [hr, hs, hfull, not_false_eq_true, true_and, false_or]
      rw [← hanswer]
      exact ⟨fun heq => Option.some.inj heq, fun heq => congrArg some heq⟩
    · rw [hl, if_neg hfull]
      refine ⟨fun heq => absurd heq.symm (by simp), ?_⟩
      rintro ⟨-, hseen | ⟨hlen, -⟩⟩
      · exact absurd hseen hs
      · exact absurd hlen hfull

/-- The header and the body of `sampleRequest`. -/
def sampleHeader : List UInt8 := ascii "POST / HTTP/1.1\r\nContent-Length: 30\r\n\r\n"

theorem sampleRequest_complete :
    CompleteRequest sampleHeader sampleBody ⟨0, 4, 5, 1, 1, [⟨some 17, 14, 33, 2⟩]⟩ where
  accepted := by decide +kernel
  announced := by decide +kernel
  nonempty := by decide
  fits := by decide +kernel

/-- A cut right behind the header does no harm. -/
theorem cut_behind_header :
    sampleLoop.httpRequestHandle plainEnv 2 ⟨5, fun _ => 0, 0⟩
        ([sampleHeader, sampleBody].map .bytes) =
      sampleLoop.httpRequestHandle plainEnv 2 ⟨5, fun _ => 0, 0⟩
        [.bytes (sampleHeader ++ sampleBody)] := by
  refine (segmentation_iff plainEnv sampleLoop 2 5 (fun _ => 0) sampleRequest_complete
    (by decide) (by simp)).mpr ?_
  have hok : isComplete ([sampleHeader] ++ [sampleBody]).flatten [sampleHeader].flatten.length =
      .ok () := by
    decide +kernel
  have hfirst : ¬Rejected ([] ++ [sampleHeader]) := by
    rw [rejected_concat]
    simp [not_rejected_nil]
  refine ⟨?_, Or.inl (Or.inr hok)⟩
  show ¬Rejected ([sampleHeader] ++ [sampleBody])
  rw [rejected_concat, hok]
  rintro (hr | ⟨-, hr⟩)
  · exact hfirst hr
  · exact absurd hr (by simp)

/-- A cut one byte behind the header: the blank line is not found any more. -/
theorem cut_in_body_differs : ∃ request, CompleteRequest sampleHeader sampleBody request ∧
    ∃ chunks : List (List UInt8), (∀ x ∈ chunks, x ≠ []) ∧
    chunks.flatten = sampleHeader ++ sampleBody ∧
    sampleLoop.httpRequestHandle plainEnv 2 ⟨5, fun _ => 0, 0⟩ (chunks.map .bytes) ≠
      sampleLoop.httpRequestHandle plainEnv 2 ⟨5, fun _ => 0, 0⟩
        [.bytes (sampleHeader ++ sampleBody)] := by
  refine ⟨_, sampleRequest_complete, [sampleHeader ++ [123], sampleBody.tail], by decide,
    by decide +kernel, fun h => ?_⟩
  have hcut : (sampleLoop.httpRequestHandle plainEnv 2 ⟨5, fun _ => 0, 0⟩
      ([sampleHeader ++ [123], sampleBody.tail].map .bytes)).isSome = false := by
    decide +kernel
  have hwhole : (sampleLoop.httpRequestHandle plainEnv 2 ⟨5, fun _ => 0, 0⟩
      [.bytes (sampleHeader ++ sampleBody)]).isSome = true := by
    decide +kernel
  rw [h, hwhole] at hcut
  exact absurd hcut (by simp)

end RuruLoop

end Ruru
