import Ruru.Lib.Lts
import Ruru.PlainLibs

/-!
# Ruru.DtlsTermination — when `HandleDtlsPacket` returns

The read loop runs while the input BIO is not empty and does not look at failed reads.  A
connection that was closed takes nothing from its BIO any more, so the loop returns exactly if the
reads do not close the connection before the BIO is empty.
-/

namespace Ruru

/-- What the loop relies on: the receiving half of an SSL object, which `SSL_write` leaves alone.
After a close_notify or a fatal error the connection stays closed, and `SSL_read` takes nothing;
before, it takes bytes from the BIO or uses up some of those it holds. -/
structure Receiving {σ : Type} (openssl : OpenSSL σ) (ρ : Type) where
  view : σ → ρ
  read : ρ → List UInt8 → ρ × ℕ
  Closed : ρ → Prop
  held : ρ → ℕ
  view_read : ∀ ssl inBio, view (openssl.read ssl inBio).ssl = (read (view ssl) inBio).1
  consumed_read : ∀ ssl inBio, (openssl.read ssl inBio).consumed = (read (view ssl) inBio).2
  view_write : ∀ ssl inBio data, view (openssl.write ssl inBio data).ssl = view ssl
  consumed_write : ∀ ssl inBio data, (openssl.write ssl inBio data).consumed = 0
  closed_read : ∀ r inBio, Closed r → (read r inBio).2 = 0 ∧ Closed (read r inBio).1
  open_read : ∀ r inBio, ¬Closed r → inBio ≠ [] →
    0 < (read r inBio).2 ∨ held (read r inBio).1 < held r

namespace Receiving

variable {σ ρ : Type} {openssl : OpenSSL σ} (half : Receiving openssl ρ)

/-- Reading what is pending leaves the connection closed with some of it still pending. -/
inductive ClosesEarly : ρ → List UInt8 → Prop
  | closed {r : ρ} {inBio : List UInt8} (closed : half.Closed r) (pending : inBio ≠ []) :
      ClosesEarly r inBio
  | read {r : ρ} {inBio : List UInt8} (pending : inBio ≠ [])
      (rest : ClosesEarly (half.read r inBio).1 (inBio.drop (half.read r inBio).2)) :
      ClosesEarly r inBio

variable {half}

theorem ClosesEarly.pending {r : ρ} {inBio : List UInt8} (h : half.ClosesEarly r inBio) :
    inBio ≠ [] := by
  cases h with
  | closed _ pending => exact pending
  | read pending _ => exact pending

/-- A read does not help. -/
theorem ClosesEarly.after_read {r : ρ} {inBio : List UInt8} (h : half.ClosesEarly r inBio) :
    half.ClosesEarly (half.read r inBio).1 (inBio.drop (half.read r inBio).2) := by
  cases h with
  | closed closed pending =>
    obtain ⟨hconsumed, hclosed⟩ := half.closed_read r inBio closed
    rw [hconsumed]
    exact .closed hclosed pending
  | read _ rest => exact rest

end Receiving

namespace RuruLoop

variable {σ υ ρ : Type} (env : Env σ υ) (half : Receiving env.openssl ρ)

/-- The receiving half of the connection of client `i`, with what is pending. -/
def readSide (s : RuruLoop σ υ) (i : ℕ) : Option (ρ × List UInt8) :=
  (s.clientMgr_[i]?).map fun client => (half.view client.dtlsTransport.ssl, client.dtlsTransport.inBio)

/-! ### Only `SSL_read` changes the receiving half -/

theorem readSide_updateClient (s : RuruLoop σ υ) (i j : ℕ) {f : RuruClient σ → RuruClient σ}
    (hf : ∀ c, s.clientMgr_[j]? = some c → half.view (f c).dtlsTransport.ssl =
      half.view c.dtlsTransport.ssl ∧ (f c).dtlsTransport.inBio = c.dtlsTransport.inBio) :
    (s.updateClient j f).readSide env half i = s.readSide env half i := by
  simp only [readSide, updateClient, List.getElem?_modify]
  by_cases hij : j = i
  · subst hij
    cases hc : s.clientMgr_[j]? with
    | none => rfl
    | some c =>
      obtain ⟨hview, hbio⟩ := hf c hc
      simp [hview, hbio]
  · simp [hij]

theorem readSide_clientSendPendingDtls (s : RuruLoop σ υ) (i j : ℕ) :
    (s.clientSendPendingDtls j).readSide env half i = s.readSide env half i := by
  unfold clientSendPendingDtls
  split
  · rfl
  · exact readSide_updateClient env half s i j fun _ _ => ⟨rfl, rfl⟩

theorem readSide_clientSendData (s : RuruLoop σ υ) (i j : ℕ) (data : List UInt8) :
    (s.clientSendData env j data).readSide env half i = s.readSide env half i := by
  unfold clientSendData
  cases hj : s.clientMgr_[j]? with
  | none => rfl
  | some client =>
    dsimp only
    split_ifs
    · rw [readSide_clientSendPendingDtls]
      refine readSide_updateClient env half s i j fun c hc => ?_
      obtain rfl : client = c := Option.some.inj (hj.symm.trans hc)
      simp [RuruDtls.after, half.view_write, half.consumed_write]
    · rfl

theorem readSide_callback (s : RuruLoop σ υ) (i : ℕ) (cb : SctpCallback) :
    (s.callback env cb).readSide env half i = s.readSide env half i := by
  cases cb with
  | inbound ulpInfo data rcv =>
    show (s.pushClientRecvData ulpInfo data rcv).readSide env half i = _
    unfold pushClientRecvData
    split
    · rfl
    · split_ifs
      · split <;> rfl
      · rfl
  | outbound addr data =>
    show (s.onSctpOutboundPacket env addr data).readSide env half i = _
    unfold onSctpOutboundPacket
    by_cases hlen : data.length < sizeofSctpHeader
    · rw [if_pos hlen]
    · rw [if_neg hlen]
      cases s.clientMgr_[addr]? with
      | none => rfl
      | some client =>
        dsimp only
        split_ifs
        · exact readSide_updateClient env half (s.note _) i addr fun _ _ => ⟨rfl, rfl⟩
        · exact readSide_clientSendData env half s i addr data

theorem readSide_callbacks (s : RuruLoop σ υ) (i : ℕ) (cbs : List SctpCallback) :
    (s.callbacks env cbs).readSide env half i = s.readSide env half i := by
  induction cbs generalizing s with
  | nil => rfl
  | cons cb cbs ih =>
    calc (s.callbacks env (cb :: cbs)).readSide env half i
      _ = (s.callback env cb).readSide env half i := ih _
      _ = s.readSide env half i := readSide_callback env half s i cb

theorem readSide_recvUsrSctpData (s : RuruLoop σ υ) (i j : ℕ) (data : List UInt8) :
    (s.recvUsrSctpData env j data).readSide env half i = s.readSide env half i := by
  unfold recvUsrSctpData
  split
  · rfl
  · unfold withTransport usrsctpDone
    rw [readSide_callbacks]
    exact readSide_updateClient env half s i j fun _ _ => ⟨rfl, rfl⟩

theorem readSide_dtlsRead {s : RuruLoop σ υ} {i : ℕ} {r : ρ} {inBio : List UInt8}
    (h : s.readSide env half i = some (r, inBio)) :
    (s.dtlsRead env i).readSide env half i =
      some ((half.read r inBio).1, inBio.drop (half.read r inBio).2) := by
  obtain ⟨client, hi, he⟩ := Option.map_eq_some_iff.mp h
  obtain ⟨rfl, rfl⟩ := Prod.mk.inj he
  have hread : ∀ t : RuruLoop σ υ, t = s.updateClient i (fun c => { c with
      dtlsTransport := client.dtlsTransport.after
        (env.openssl.read client.dtlsTransport.ssl client.dtlsTransport.inBio) }) →
      t.readSide env half i = some ((half.read (half.view client.dtlsTransport.ssl)
        client.dtlsTransport.inBio).1, client.dtlsTransport.inBio.drop
          (half.read (half.view client.dtlsTransport.ssl) client.dtlsTransport.inBio).2) := by
    rintro t rfl
    simp [readSide, updateClient, hi, RuruDtls.after, half.view_read, half.consumed_read]
  unfold dtlsRead
  rw [hi]
  dsimp only
  split_ifs
  · rw [readSide_recvUsrSctpData]
    exact hread (s.updateClient i _) rfl
  · exact hread _ rfl

theorem inPending_of_readSide {s : RuruLoop σ υ} {i : ℕ} {r : ρ} {inBio : List UInt8}
    (h : s.readSide env half i = some (r, inBio)) : s.inPending i = !inBio.isEmpty := by
  obtain ⟨client, hi, he⟩ := Option.map_eq_some_iff.mp h
  obtain ⟨-, rfl⟩ := Prod.mk.inj he
  simp [inPending, hi]

/-! ### The loop -/

theorem dtlsReadLoop_closesEarly {fuel : ℕ} {s : RuruLoop σ υ} {i : ℕ} {r : ρ}
    {inBio : List UInt8} (h : s.readSide env half i = some (r, inBio))
    (hearly : half.ClosesEarly r inBio) : s.dtlsReadLoop env fuel i = none := by
  have hpend : s.inPending i = true := by
    rw [inPending_of_readSide env half h]
    simpa using hearly.pending
  induction fuel generalizing s r inBio with
  | zero => simp [dtlsReadLoop, hpend]
  | succ fuel ih =>
    have hnext := readSide_dtlsRead env half h
    have hearly' := hearly.after_read
    have hpend' : (s.dtlsRead env i).inPending i = true := by
      rw [inPending_of_readSide env half hnext]
      simpa using hearly'.pending
    simp only [dtlsReadLoop, hpend, if_true]
    exact ih hnext hearly' hpend'

/-- While the connection is open every round shortens what is pending or held. -/
theorem dtlsReadLoop_returns {s : RuruLoop σ υ} {i : ℕ} {r : ρ} {inBio : List UInt8}
    (h : s.readSide env half i = some (r, inBio)) (hearly : ¬half.ClosesEarly r inBio) :
    ∃ fuel s', s.dtlsReadLoop env fuel i = some s' := by
  by_cases hb : inBio = []
  · refine ⟨0, s, ?_⟩
    have hpend : s.inPending i = false := by
      rw [inPending_of_readSide env half h, hb]
      rfl
    simp [dtlsReadLoop, hpend]
  · have hopen : ¬half.Closed r := fun hc => hearly (.closed hc hb)
    have hprog := half.open_read r inBio hopen hb
    have hlen : 0 < inBio.length := List.length_pos_iff.mpr hb
    have hdrop : (inBio.drop (half.read r inBio).2).length =
        inBio.length - (half.read r inBio).2 := List.length_drop
    obtain ⟨fuel, s', hs'⟩ := dtlsReadLoop_returns (readSide_dtlsRead env half h)
      fun hc => hearly (.read hb hc)
    have hpend : s.inPending i = true := by
      rw [inPending_of_readSide env half h]
      simpa using hb
    exact ⟨fuel + 1, s', by simp only [dtlsReadLoop, hpend, if_true]; exact hs'⟩
termination_by (inBio.length, half.held r)
decreasing_by
  rcases hprog with hp | hp
  · exact Prod.Lex.left _ _ (by omega)
  · by_cases h0 : (half.read r inBio).2 = 0
    · rw [h0, List.drop_zero]
      exact Prod.Lex.right _ hp
    · exact Prod.Lex.left _ _ (by omega)

theorem dtlsReadLoop_mono {a b : ℕ} {s s' : RuruLoop σ υ} {i : ℕ} (hab : a ≤ b)
    (h : s.dtlsReadLoop env a i = some s') : s.dtlsReadLoop env b i = some s' := by
  induction a generalizing s b with
  | zero =>
    unfold dtlsReadLoop at h
    split_ifs at h with hpend
    obtain rfl := Option.some.inj h
    cases b <;> simp [dtlsReadLoop, hpend]
  | succ a ih =>
    obtain ⟨b, rfl⟩ : ∃ c, b = c + 1 := ⟨b - 1, by omega⟩
    unfold dtlsReadLoop at h ⊢
    split_ifs at h ⊢
    · exact ih (by omega) h
    · exact h

/-! ### `HandleDtlsPacket` -/

/-- `HandleDtlsPacket` returns, and leaves `s'`. -/
def Handled (i : ℕ) (s : RuruLoop σ υ) (data : List UInt8) (s' : RuruLoop σ υ) : Prop :=
  ∃ fuel, s.handleDtlsPacket env fuel i data = some s'

/-- The handshake with client `i` is done, and the datagram, behind what is pending, closes the
connection before the input BIO is empty; so does any datagram once the connection is closed. -/
def Hangs (i : ℕ) (s : RuruLoop σ υ) (data : List UInt8) : Prop :=
  ∃ client, s.clientMgr_[i]? = some client ∧
    env.openssl.isInitFinished client.dtlsTransport.ssl = true ∧
    half.ClosesEarly (half.view client.dtlsTransport.ssl) (client.dtlsTransport.inBio ++ data)

theorem handleDtlsPacket_mono {a b : ℕ} {s s' : RuruLoop σ υ} {i : ℕ} {data : List UInt8}
    (hab : a ≤ b) (h : s.handleDtlsPacket env a i data = some s') :
    s.handleDtlsPacket env b i data = some s' := by
  unfold handleDtlsPacket at h ⊢
  split at h
  · exact h
  · dsimp only at h ⊢
    split_ifs at h ⊢
    · exact dtlsReadLoop_mono env hab h
    all_goals exact h

/-- However many rounds are allowed, the result is the same. -/
theorem Handled.unique {i : ℕ} {s t t' : RuruLoop σ υ} {data : List UInt8}
    (h : Handled env i s data t) (h' : Handled env i s data t') : t = t' := by
  obtain ⟨a, ha⟩ := h
  obtain ⟨b, hb⟩ := h'
  have ha' := handleDtlsPacket_mono env (Nat.le_max_left a b) ha
  have hb' := handleDtlsPacket_mono env (Nat.le_max_right a b) hb
  exact Option.some.inj (ha'.symm.trans hb')

/-- **One datagram.** -/
theorem handled_iff (i : ℕ) (s : RuruLoop σ υ) (data : List UInt8) :
    (∃ s', Handled env i s data s') ↔ ¬Hangs env half i s data := by
  unfold Handled Hangs handleDtlsPacket
  cases hi : s.clientMgr_[i]? with
  | none => simp
  | some client =>
    dsimp only
    by_cases hinit : env.openssl.isInitFinished client.dtlsTransport.ssl = true
    · simp only [hinit, if_true]
      have hside : ((s.updateClient i fun c => { c with dtlsTransport :=
          { client.dtlsTransport with
            inBio := client.dtlsTransport.inBio ++ data
            bHandShakeDone := true } }).clientSendPendingDtls i).readSide env half i =
          some (half.view client.dtlsTransport.ssl, client.dtlsTransport.inBio ++ data) := by
        rw [readSide_clientSendPendingDtls]
        simp [readSide, updateClient, hi]
      constructor
      · rintro ⟨s', fuel, hs'⟩ ⟨client', hi', -, hearly⟩
        obtain rfl := Option.some.inj hi'
        rw [dtlsReadLoop_closesEarly env half hside hearly] at hs'
        exact absurd hs' (by simp)
      · intro hnot
        obtain ⟨fuel, s', hs'⟩ := dtlsReadLoop_returns env half hside
          fun hearly => hnot ⟨client, rfl, hinit, hearly⟩
        exact ⟨s', fuel, hs'⟩
    · -- a handshake still going on takes one call
      refine ⟨fun _ => ?_, fun _ => ?_⟩
      · rintro ⟨client', hi', hinit', -⟩
        obtain rfl := Option.some.inj hi'
        exact hinit hinit'
      · rw [exists_comm]
        refine ⟨0, ?_⟩
        rw [if_neg hinit]
        split_ifs
        · exact ⟨_, rfl⟩
        · exact ⟨_, rfl⟩
        · exact ⟨_, rfl⟩

/-- **Termination of DTLS packet handling.**  From any state of a loop, all datagrams of a sequence
are handled exactly if none of them meets a connection on which it hangs. -/
theorem datagrams_handled_iff (i : ℕ) (s : RuruLoop σ υ) (datagrams : List (List UInt8)) :
    (∃ s', Lts.Path (Handled env i) s datagrams s') ↔
      ∀ pre data post, datagrams = pre ++ data :: post → ∀ t, Lts.Path (Handled env i) s pre t →
        ¬Hangs env half i t data := by
  have hdet : ∀ s data t t', Handled env i s data t → Handled env i s data t' → t = t' :=
    fun _ _ _ _ => Handled.unique env
  rw [Lts.exists_path_iff hdet]
  simp only [handled_iff env half]

end RuruLoop

/-! ### A connection of `plainSsl` -/

/-- `plainSsl` takes everything at once while it is open. -/
def plainReceiving : Receiving plainSsl PlainSsl where
  view ssl := ssl
  read ssl inBio := ((plainSsl.read ssl inBio).ssl, (plainSsl.read ssl inBio).consumed)
  Closed ssl := ssl.closed = true
  held _ := 0
  view_read _ _ := rfl
  consumed_read _ _ := rfl
  view_write _ _ _ := rfl
  consumed_write _ _ _ := rfl
  closed_read ssl inBio h := by simp [plainSsl, h]
  open_read ssl inBio h hne := by
    left
    have hlen : 0 < inBio.length := List.length_pos_iff.mpr hne
    rw [Bool.not_eq_true] at h
    simp only [plainSsl, h, Bool.false_eq_true, if_false]
    split_ifs
    · exact hlen
    · exact hlen

namespace RuruLoop

/-- An open connection is not hung on. -/
theorem not_hangs_of_open {s : RuruLoop PlainSsl (List SendvResult)} {inBio data : List UInt8}
    (h : s.readSide plainEnv plainReceiving 0 = some (⟨false⟩, inBio)) :
    ¬Hangs plainEnv plainReceiving 0 s data := by
  rintro ⟨client, hi, -, hearly⟩
  have hside : s.readSide plainEnv plainReceiving 0 =
      some (client.dtlsTransport.ssl, client.dtlsTransport.inBio) := by
    simp [readSide, hi, plainReceiving]
  obtain ⟨hssl, -⟩ := Prod.mk.inj (Option.some.inj (hside.symm.trans h))
  have hview : plainReceiving.view client.dtlsTransport.ssl = ⟨false⟩ := hssl
  rw [hview] at hearly
  cases hearly with
  | closed closed pending => exact absurd (show false = true from closed) (by decide)
  | read pending rest =>
    refine rest.pending ?_
    simp only [plainReceiving, plainSsl, Bool.false_eq_true, if_false]
    split_ifs <;> exact List.drop_length

/-- A data record on an open connection. -/
theorem data_record_handled :
    ∃ s', Lts.Path (Handled plainEnv 0) sampleLoop [[23, 1, 2]] s' := by
  refine (datagrams_handled_iff plainEnv plainReceiving 0 sampleLoop [[23, 1, 2]]).mpr ?_
  intro pre data post hp t ht
  obtain rfl : pre = [] := by
    cases pre with
    | nil => rfl
    | cons c pre => exact absurd (congrArg List.length hp) (by simp)
  rw [show t = sampleLoop from ht]
  have hside : sampleLoop.readSide plainEnv plainReceiving 0 = some (⟨false⟩, []) := by
    decide +kernel
  exact not_hangs_of_open hside

/-- A close_notify, and then a data record: the second datagram is never done. -/
theorem datagram_after_close_notify_hangs :
    ¬∃ s', Lts.Path (Handled plainEnv 0) sampleLoop [[alertType], [23, 1, 2]] s' := by
  rintro ⟨s', t, ht, u, hu, -⟩
  have key : (sampleLoop.handleDtlsPacket plainEnv 1 0 [alertType]).map (fun s =>
      s.readSide plainEnv plainReceiving 0) = some (some (⟨true⟩, [])) := by
    decide +kernel
  obtain ⟨t', ht', hside⟩ := Option.map_eq_some_iff.mp key
  obtain rfl := Handled.unique plainEnv ht ⟨1, ht'⟩
  obtain ⟨client, hi, he⟩ := Option.map_eq_some_iff.mp hside
  obtain ⟨hssl, hbio⟩ := Prod.mk.inj he
  refine (handled_iff plainEnv plainReceiving 0 t [23, 1, 2]).mp ⟨u, hu⟩ ⟨client, hi, rfl, ?_⟩
  rw [hssl, hbio]
  exact .closed rfl (by decide)

end RuruLoop

end Ruru
