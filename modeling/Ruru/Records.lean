import Ruru.DtlsTermination
import Ruru.Moves

/-!
# Ruru.Records — application data that stays inside the SSL object

A datagram may hold several records.  `SSL_read` takes all of them from the input BIO and returns one,
so the read loop, which asks the BIO only, ends while the others are held.  They are passed on with
the next datagram.  The loop leaves nothing behind exactly if every datagram holds one record.
-/

namespace Ruru

variable {σ υ ρ : Type}

/-- Reading application data on an established connection.  `held` are the payloads of the records kept
inside the SSL object, `Valid r data payloads` says that `data` are records of the connection with
these payloads.  A read returns the first record held; one that needs input takes everything pending
and keeps all records but the first. -/
structure Records {openssl : OpenSSL σ} (half : Receiving openssl ρ) where
  established : ρ → Bool
  held : ρ → List (List UInt8)
  Valid : ρ → List UInt8 → List (List UInt8) → Prop
  init_finished : ∀ ssl, openssl.isInitFinished ssl = established (half.view ssl)
  established_read : ∀ r inBio, established r = true → established (half.read r inBio).1 = true
  valid_ne_nil : ∀ r data payloads, Valid r data payloads → [] ∉ payloads
  read_held : ∀ ssl inBio p ps, held (half.view ssl) = p :: ps →
    (openssl.read ssl inBio).ret = p.length ∧ (openssl.read ssl inBio).buffer = p ∧
    (half.read (half.view ssl) inBio).2 = 0 ∧
    held (half.read (half.view ssl) inBio).1 = ps ∧
    ∀ data payloads, Valid (half.view ssl) data payloads →
      Valid (half.read (half.view ssl) inBio).1 data payloads
  read_input : ∀ ssl inBio p ps, held (half.view ssl) = [] → Valid (half.view ssl) inBio (p :: ps) →
    (openssl.read ssl inBio).ret = p.length ∧ (openssl.read ssl inBio).buffer = p ∧
    (half.read (half.view ssl) inBio).2 = inBio.length ∧
    held (half.read (half.view ssl) inBio).1 = ps

/-- A datagram with the payloads of its records. -/
structure Datagram where
  data : List UInt8
  payloads : List (List UInt8)

/-- The data of client `i` passed to `RecvUsrSctpData`. -/
def delivered (i : ℕ) (trace : List Effect) : List (List UInt8) :=
  trace.filterMap fun
    | .dtlsData j data => if j = i then some data else none
    | _ => none

theorem delivered_append (i : ℕ) (a b : List Effect) :
    delivered i (a ++ b) = delivered i a ++ delivered i b := List.filterMap_append

namespace RuruLoop

variable (env : Env σ υ) {half : Receiving env.openssl ρ} (records : Records half)

/-! ### Only the read loop delivers -/

theorem delivered_updateClient (s : RuruLoop σ υ) (i j : ℕ) (f : RuruClient σ → RuruClient σ) :
    delivered i (s.updateClient j f).trace = delivered i s.trace := rfl

theorem delivered_clientSendPendingDtls (s : RuruLoop σ υ) (i j : ℕ) :
    delivered i (s.clientSendPendingDtls j).trace = delivered i s.trace := by
  unfold clientSendPendingDtls
  split
  · rfl
  · simp [delivered, List.filterMap_append, updateClient]

theorem delivered_clientSendData (s : RuruLoop σ υ) (i j : ℕ) (data : List UInt8) :
    delivered i (s.clientSendData env j data).trace = delivered i s.trace := by
  unfold clientSendData
  split
  · rfl
  · dsimp only
    split_ifs
    · rw [delivered_clientSendPendingDtls, delivered_updateClient]
    · simp [delivered, note]

theorem delivered_callback (s : RuruLoop σ υ) (i : ℕ) (cb : SctpCallback) :
    delivered i (s.callback env cb).trace = delivered i s.trace := by
  cases cb with
  | inbound ulpInfo data rcv =>
    show delivered i (s.pushClientRecvData ulpInfo data rcv).trace = _
    rcases pushClientRecvData_cases s ulpInfo data rcv with he | ⟨p, arena, -, -, he⟩
    · rw [he]
    · rw [he]
      simp [delivered, RuruLoop.push]
  | outbound addr data =>
    show delivered i (s.onSctpOutboundPacket env addr data).trace = _
    unfold onSctpOutboundPacket
    by_cases hlen : data.length < sizeofSctpHeader
    · rw [if_pos hlen]
    · rw [if_neg hlen]
      split
      · rfl
      · split_ifs
        · simp [delivered]
        · exact delivered_clientSendData env s i addr data

theorem delivered_callbacks (cbs : List SctpCallback) (s : RuruLoop σ υ) (i : ℕ) :
    delivered i (s.callbacks env cbs).trace = delivered i s.trace := by
  induction cbs generalizing s with
  | nil => rfl
  | cons cb cbs ih =>
    calc delivered i (s.callbacks env (cb :: cbs)).trace
      _ = delivered i (s.callback env cb).trace := ih _
      _ = delivered i s.trace := delivered_callback env s i cb

theorem delivered_recvUsrSctpData (s : RuruLoop σ υ) (i j : ℕ) (data : List UInt8) :
    delivered i (s.recvUsrSctpData env j data).trace = delivered i s.trace := by
  unfold recvUsrSctpData
  split
  · rfl
  · rw [withTransport, usrsctpDone, delivered_callbacks]
    simp [delivered, updateClient]

/-- A read that returns a payload delivers it. -/
theorem delivered_dtlsRead {s : RuruLoop σ υ} {i : ℕ} {client : RuruClient σ}
    (hi : s.clientMgr_[i]? = some client) {p : List UInt8} (hp : p ≠ [])
    (hret : (env.openssl.read client.dtlsTransport.ssl client.dtlsTransport.inBio).ret = p.length)
    (hbuffer : (env.openssl.read client.dtlsTransport.ssl client.dtlsTransport.inBio).buffer = p) :
    delivered i (s.dtlsRead env i).trace = delivered i s.trace ++ [p] := by
  have hpos : 0 < p.length := List.length_pos_iff.mpr hp
  have hread : (env.openssl.read client.dtlsTransport.ssl client.dtlsTransport.inBio).ret > 0 := by
    rw [hret]
    exact_mod_cast hpos
  have hdata : (env.openssl.read client.dtlsTransport.ssl client.dtlsTransport.inBio).buffer.take
      (env.openssl.read client.dtlsTransport.ssl client.dtlsTransport.inBio).ret.toNat = p := by
    rw [hret, hbuffer, Int.toNat_natCast, List.take_length]
  unfold dtlsRead
  simp only [hi, if_pos hread, hdata]
  rw [delivered_recvUsrSctpData, note, delivered_append, delivered_updateClient]
  simp [delivered]

/-! ### The read loop -/

/-- The client whose reading side is known. -/
theorem client_of_readSide {s : RuruLoop σ υ} {i : ℕ} {r : ρ} {inBio : List UInt8}
    (h : s.readSide env half i = some (r, inBio)) : ∃ client, s.clientMgr_[i]? = some client ∧
      half.view client.dtlsTransport.ssl = r ∧ client.dtlsTransport.inBio = inBio := by
  obtain ⟨client, hi, he⟩ := Option.map_eq_some_iff.mp h
  exact ⟨client, hi, Prod.mk.inj he⟩

/-- A read with a record held delivers it and takes nothing. -/
theorem dtlsRead_held {s : RuruLoop σ υ} {i : ℕ} {r : ρ} {data p : List UInt8}
    {ps : List (List UInt8)} (hside : s.readSide env half i = some (r, data)) (hne : p ≠ [])
    (hheld : records.held r = p :: ps) :
    delivered i (s.dtlsRead env i).trace = delivered i s.trace ++ [p] ∧
      (s.dtlsRead env i).readSide env half i = some ((half.read r data).1, data) ∧
      records.held (half.read r data).1 = ps ∧
      ∀ bytes payloads, records.Valid r bytes payloads →
        records.Valid (half.read r data).1 bytes payloads := by
  obtain ⟨client, hi, rfl, rfl⟩ := client_of_readSide env hside
  obtain ⟨hret, hbuffer, hconsumed, hrest, hkeeps⟩ :=
    records.read_held _ client.dtlsTransport.inBio p ps hheld
  refine ⟨delivered_dtlsRead env hi hne hret hbuffer, ?_, hrest, hkeeps⟩
  rw [readSide_dtlsRead env half hside, hconsumed, List.drop_zero]

/-- A read with none held takes all that is pending and delivers the first record of it. -/
theorem dtlsRead_input {s : RuruLoop σ υ} {i : ℕ} {r : ρ} {data p : List UInt8}
    {ps : List (List UInt8)} (hside : s.readSide env half i = some (r, data))
    (hheld : records.held r = []) (hvalid : records.Valid r data (p :: ps)) :
    delivered i (s.dtlsRead env i).trace = delivered i s.trace ++ [p] ∧
      (s.dtlsRead env i).readSide env half i = some ((half.read r data).1, []) ∧
      records.held (half.read r data).1 = ps := by
  obtain ⟨client, hi, rfl, rfl⟩ := client_of_readSide env hside
  obtain ⟨hret, hbuffer, hconsumed, hrest⟩ := records.read_input _ _ p ps hheld hvalid
  have hne : p ≠ [] := fun h0 =>
    records.valid_ne_nil _ _ _ hvalid (by rw [h0]; exact List.mem_cons_self)
  refine ⟨delivered_dtlsRead env hi hne hret hbuffer, ?_, hrest⟩
  rw [readSide_dtlsRead env half hside, hconsumed, List.drop_length]

/-- The loop, on a BIO that holds records: the payloads held before are delivered, and then that of the
first record; the others are held now. -/
theorem dtlsReadLoop_delivers {s : RuruLoop σ υ} {i : ℕ} {r : ρ} {data p : List UInt8}
    {ps : List (List UInt8)} (hside : s.readSide env half i = some (r, data)) (hdata : data ≠ [])
    (hest : records.established r = true) (hvalid : records.Valid r data (p :: ps))
    (hheld : [] ∉ records.held r) :
    ∃ fuel s' r', s.dtlsReadLoop env fuel i = some s' ∧
      delivered i s'.trace = delivered i s.trace ++ (records.held r ++ [p]) ∧
      s'.readSide env half i = some (r', []) ∧ records.established r' = true ∧
      records.held r' = ps := by
  generalize hh : records.held r = hs at hheld ⊢
  induction hs generalizing s r with
  | nil =>
    obtain ⟨hdelivered, hnext, hrest⟩ := dtlsRead_input env records hside hh hvalid
    refine ⟨1, s.dtlsRead env i, _, ?_, hdelivered, hnext, records.established_read r data hest, hrest⟩
    have hpend : s.inPending i = true := by
      rw [inPending_of_readSide env half hside]
      simpa using hdata
    have hdone : (s.dtlsRead env i).inPending i = false := by
      rw [inPending_of_readSide env half hnext]
      rfl
    simp [dtlsReadLoop, hpend, hdone]
  | cons h hs ih =>
    rw [List.mem_cons, not_or] at hheld
    obtain ⟨hdelivered, hnext, hrest, hkeeps⟩ :=
      dtlsRead_held env records hside (Ne.symm hheld.1) hh
    obtain ⟨fuel, s', r', hs', hd, hlast⟩ := ih hnext (records.established_read r data hest)
      (hkeeps data _ hvalid) hrest hheld.2
    refine ⟨fuel + 1, s', r', ?_, ?_, hlast⟩
    · have hpend : s.inPending i = true := by
        rw [inPending_of_readSide env half hside]
        simpa using hdata
      simpa [dtlsReadLoop, hpend] using hs'
    · rw [hd, hdelivered]
      simp

/-! ### Sequences of datagrams -/

/-- The handshake of client `i` is done, nothing is pending, and the records held have payloads. -/
def Established (i : ℕ) (s : RuruLoop σ υ) : Prop :=
  ∃ r, s.readSide env half i = some (r, []) ∧ records.established r = true ∧ [] ∉ records.held r

/-- `data` is a datagram of valid records of client `i`, one or more, with these payloads. -/
def Carries (i : ℕ) (s : RuruLoop σ υ) (d : Datagram) : Prop :=
  ∃ r, s.readSide env half i = some (r, []) ∧ records.Valid r d.data d.payloads ∧
    d.payloads ≠ [] ∧ d.data ≠ [] ∧ d.data.length ≤ 4096

/-- What is held inside the SSL object of client `i`. -/
def heldRecords (i : ℕ) (s : RuruLoop σ υ) : List (List UInt8) :=
  ((s.readSide env half i).map fun side => records.held side.1).getD []

/-- One datagram: what was held and the first record of the datagram are delivered, and the others are
held. -/
theorem handled_delivers {s : RuruLoop σ υ} {i : ℕ} {d : Datagram}
    (hest : Established env records i s) (hd : Carries env records i s d) :
    ∃ p ps s', d.payloads = p :: ps ∧ Handled env i s d.data s' ∧
      delivered i s'.trace = delivered i s.trace ++ (heldRecords env records i s ++ [p]) ∧
      heldRecords env records i s' = ps ∧ Established env records i s' := by
  obtain ⟨r, hside, hest, hheld⟩ := hest
  obtain ⟨r', hside', hvalid, hsome, hdata, -⟩ := hd
  obtain rfl : r = r' := (Prod.mk.inj (Option.some.inj (hside.symm.trans hside'))).1
  obtain ⟨p, ps, hps⟩ := List.exists_cons_of_ne_nil hsome
  rw [hps] at hvalid
  obtain ⟨client, hi, hview, hbio⟩ := client_of_readSide env hside
  set t := (s.updateClient i fun c => { c with dtlsTransport :=
    { client.dtlsTransport with
      inBio := client.dtlsTransport.inBio ++ d.data
      bHandShakeDone := true } }).clientSendPendingDtls i with ht
  have hside_t : t.readSide env half i = some (r, d.data) := by
    rw [ht, readSide_clientSendPendingDtls]
    simp [readSide, updateClient, hi, hview, hbio]
  obtain ⟨fuel, s', r', hs', hdel, hside'', hest', hheld'⟩ :=
    dtlsReadLoop_delivers env records hside_t hdata hest hvalid hheld
  have hinit : env.openssl.isInitFinished client.dtlsTransport.ssl = true := by
    rw [records.init_finished, hview]
    exact hest
  refine ⟨p, ps, s', hps, ⟨fuel, ?_⟩, ?_, ?_, r', hside'', hest', ?_⟩
  · unfold handleDtlsPacket
    simp only [hi, hinit, if_true]
    exact hs'
  · rw [hdel, ht, delivered_clientSendPendingDtls, delivered_updateClient, heldRecords, hside]
    rfl
  · rw [heldRecords, hside'']
    exact hheld'
  · rw [hheld']
    exact fun hmem => records.valid_ne_nil _ _ _ hvalid (List.mem_cons_of_mem _ hmem)

/-- A loop and the payloads of the datagrams received so far. -/
structure Receiver (σ υ : Type) where
  ruru : RuruLoop σ υ
  payloads : List (List UInt8)

/-- Client `i` receives a datagram of valid records, and `HandleDtlsPacket` returns. -/
def Receives (i : ℕ) (st : Receiver σ υ) (d : Datagram) (st' : Receiver σ υ) : Prop :=
  Carries env records i st.ruru d ∧ Handled env i st.ruru d.data st'.ruru ∧
    st'.payloads = st.payloads ++ d.payloads

/-- Every payload received was passed to `RecvUsrSctpData`, in order and once, and none is held. -/
def AllDelivered (i : ℕ) (st : Receiver σ υ) : Prop :=
  delivered i st.ruru.trace = st.payloads ∧ heldRecords env records i st.ruru = []

theorem step_allDelivered {i : ℕ} {st st' : Receiver σ υ} {d : Datagram}
    (hest : Established env records i st.ruru) (h : AllDelivered env records i st)
    (hs : Receives env records i st d st') :
    AllDelivered env records i st' ↔ d.payloads.length = 1 := by
  obtain ⟨hd, hhandled, hpayloads⟩ := hs
  obtain ⟨p, ps, s', hps, hs', hdel, hheld, -⟩ := handled_delivers env records hest hd
  obtain rfl := Handled.unique env hhandled hs'
  rw [AllDelivered, hpayloads, hdel, hheld, h.1, h.2, hps, List.nil_append,
    List.append_cancel_left_eq, List.length_cons]
  constructor
  · rintro ⟨-, rfl⟩
    rfl
  · intro hlen
    obtain rfl : ps = [] := List.eq_nil_of_length_eq_zero (by omega)
    exact ⟨rfl, rfl⟩

theorem step_established {i : ℕ} {st st' : Receiver σ υ} {d : Datagram}
    (hest : Established env records i st.ruru) (hs : Receives env records i st d st') :
    Established env records i st'.ruru := by
  obtain ⟨hd, hhandled, -⟩ := hs
  obtain ⟨p, ps, s', -, hs', -, -, hest'⟩ := handled_delivers env records hest hd
  rwa [Handled.unique env hhandled hs']

/-- **Application data.**  From an established connection with nothing held on, `HandleDtlsPacket`
returns from every datagram of valid records; and all along a sequence of them it passes on all
payloads received so far exactly if every datagram holds one record. -/
theorem records_delivered_iff (i : ℕ) (s : RuruLoop σ υ) (established : Established env records i s)
    (none_held : heldRecords env records i s = []) (inputs : List Datagram) :
    let start : Receiver σ υ := ⟨s, delivered i s.trace⟩
    Lts.Always (Receives env records i)
        (fun st => ∀ d, Carries env records i st.ruru d → ∃ s', Handled env i st.ruru d.data s')
        start inputs ∧
      (Lts.Always (Receives env records i) (AllDelivered env records i) start inputs ↔
        Lts.Each (Receives env records i) (fun _ d => d.payloads.length = 1) start inputs) := by
  intro start
  constructor
  · refine Lts.always_iff_prefix.mpr fun pre post _ st hpath d hd => ?_
    have hest : Established env records i st.ruru :=
      hpath.invariant (P := fun st => Established env records i st.ruru)
        (fun _ _ _ hP hs => step_established env records hP hs) established
    obtain ⟨-, -, s', -, hs', -⟩ := handled_delivers env records hest hd
    exact ⟨s', hs'⟩
  · refine Lts.always_iff_each (I := fun st => Established env records i st.ruru) ?_ ?_ established
      ⟨rfl, none_held⟩ inputs
    · exact fun st d st' hest h hs => step_allDelivered env records hest h hs
    · exact fun st d st' hest _ hs _ => step_established env records hest hs

end RuruLoop

/-! ### A connection with records in the clear -/

/-- The payloads of the records in `bytes`; a record has a header of 13 bytes that ends with the length
of its payload. -/
def unpack : ℕ → List UInt8 → List (List UInt8)
  | 0, _ => []
  | fuel + 1, bytes =>
    let length := (bytes.getD 11 0).toNat * 256 + (bytes.getD 12 0).toNat
    let payload := (bytes.drop 13).take length
    if payload = [] then [] else payload :: unpack fuel (bytes.drop (13 + length))

theorem nil_notMem_unpack (fuel : ℕ) (bytes : List UInt8) : [] ∉ unpack fuel bytes := by
  induction fuel generalizing bytes with
  | zero => exact List.not_mem_nil
  | succ fuel ih =>
    unfold unpack
    dsimp only
    split_ifs with hnil
    · exact List.not_mem_nil
    · rw [List.mem_cons, not_or]
      exact ⟨Ne.symm hnil, ih _⟩

/-- An established connection; its state is the payloads held. -/
def clearSsl : OpenSSL (List (List UInt8)) where
  sslNew _ := []
  isInitFinished _ := true
  doHandshake ssl _ := { ret := 1, ssl := ssl }
  getError _ _ := 0
  read ssl inBio :=
    match ssl with
    | p :: ps => { ret := p.length, ssl := ps, buffer := p }
    | [] =>
      match unpack inBio.length inBio with
      | p :: ps => { ret := p.length, ssl := ps, consumed := inBio.length, buffer := p }
      | [] => { ret := -1, ssl := [], consumed := inBio.length }
  write ssl _ data := { ret := data.length, ssl := ssl, written := data }

def clearReceiving : Receiving clearSsl (List (List UInt8)) where
  view ssl := ssl
  read ssl inBio := ((clearSsl.read ssl inBio).ssl, (clearSsl.read ssl inBio).consumed)
  Closed _ := False
  held ssl := ssl.length
  view_read _ _ := rfl
  consumed_read _ _ := rfl
  view_write _ _ _ := rfl
  consumed_write _ _ _ := rfl
  closed_read _ _ h := h.elim
  open_read ssl inBio _ hne := by
    have hlen : 0 < inBio.length := List.length_pos_iff.mpr hne
    cases ssl with
    | cons p ps => exact Or.inr (Nat.lt_succ_self _)
    | nil =>
      left
      simp only [clearSsl]
      split <;> exact hlen

def clearRecords : Records clearReceiving where
  established _ := true
  held ssl := ssl
  Valid _ data payloads := payloads = unpack data.length data
  init_finished _ := rfl
  established_read _ _ h := h
  valid_ne_nil _ data payloads h := h ▸ nil_notMem_unpack _ data
  read_held ssl inBio p ps h := by
    obtain rfl : ssl = p :: ps := h
    exact ⟨rfl, rfl, rfl, rfl, fun _ _ hvalid => hvalid⟩
  read_input ssl inBio p ps h hvalid := by
    obtain rfl : ssl = [] := h
    simp [clearReceiving, clearSsl, ← hvalid]

def clearEnv : Env (List (List UInt8)) (List SendvResult) where
  openssl := clearSsl
  usrsctp := scripted
  cJsonParse := sampleJson
  inetAddr := sampleInetAddr
  junk _ := false
  ringMemory _ _ := ⟨[], 0, Nat.zero_le 1024⟩

/-- A loop with one client whose connection is established. -/
def clearLoop : RuruLoop (List (List UInt8)) (List SendvResult) :=
  (RuruLoop.constructed 0 3 4 (fun _ => 0) [] 0 1).registerClient clearEnv ⟨0x7F000001, 5000⟩

/-- An application-data record with a payload of one byte. -/
def oneByteRecord (seq payload : UInt8) : List UInt8 :=
  [23, 254, 253, 0, 1, 0, 0, 0, 0, 0, seq, 0, 1, payload]

namespace RuruLoop

theorem clearLoop_readSide : clearLoop.readSide clearEnv clearReceiving 0 = some ([], []) := by
  decide +kernel

/-- Two datagrams with a record each. -/
theorem single_records_delivered :
    Lts.Always (Receives clearEnv clearRecords 0) (AllDelivered clearEnv clearRecords 0)
      ⟨clearLoop, delivered 0 clearLoop.trace⟩
      [⟨oneByteRecord 1 97, [[97]]⟩, ⟨oneByteRecord 2 98, [[98]]⟩] := by
  have hest : Established clearEnv clearRecords 0 clearLoop :=
    ⟨[], clearLoop_readSide, rfl, List.not_mem_nil⟩
  have hnone : heldRecords clearEnv clearRecords 0 clearLoop = [] := by
    unfold heldRecords
    rw [clearLoop_readSide]
    rfl
  refine (records_delivered_iff clearEnv clearRecords 0 clearLoop hest hnone _).2.mpr ?_
  exact fun t _ => ⟨rfl, fun u _ => ⟨rfl, trivial⟩⟩

/-- A datagram with two records. -/
def twoRecords : Datagram := ⟨oneByteRecord 1 97 ++ oneByteRecord 2 98, [[97], [98]]⟩

theorem twoRecords_valid : clearRecords.Valid [] twoRecords.data twoRecords.payloads :=
  show twoRecords.payloads = unpack twoRecords.data.length twoRecords.data by decide +kernel

/-- The second record stays inside the SSL object. -/
theorem second_record_held :
    ¬Lts.Always (Receives clearEnv clearRecords 0) (AllDelivered clearEnv clearRecords 0)
      ⟨clearLoop, delivered 0 clearLoop.trace⟩ [twoRecords] := by
  intro h
  have key : (clearLoop.handleDtlsPacket clearEnv 1 0 twoRecords.data).map (fun s =>
      s.readSide clearEnv clearReceiving 0) = some (some ([[98]], [])) := by
    decide +kernel
  obtain ⟨t, ht, hside⟩ := Option.map_eq_some_iff.mp key
  have hcarries : Carries clearEnv clearRecords 0 clearLoop twoRecords :=
    ⟨[], clearLoop_readSide, twoRecords_valid, by decide, by decide, by decide⟩
  have hreceives : Receives clearEnv clearRecords 0 ⟨clearLoop, delivered 0 clearLoop.trace⟩ twoRecords
      ⟨t, delivered 0 clearLoop.trace ++ twoRecords.payloads⟩ := ⟨hcarries, ⟨1, ht⟩, rfl⟩
  have hdelivered := h.2 _ hreceives
  have hheld : heldRecords clearEnv clearRecords 0 t = [] := hdelivered.2
  unfold heldRecords at hheld
  rw [hside] at hheld
  exact absurd (show ([[98]] : List (List UInt8)) = [] from hheld) (by decide)

end RuruLoop

end Ruru
