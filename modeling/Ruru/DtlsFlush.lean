import Ruru.Lib.Chunks
import Ruru.PlainLibs

/-!
# Ruru.DtlsFlush — DTLS records and the datagrams they go out in

OpenSSL writes whole records into `outBio`, which forgets where they end.  `ClientSendPendingDtls`
cuts what is pending at the multiples of its buffer, 4096 bytes; so a record comes through in one
datagram exactly if no such multiple falls strictly inside it.
-/

namespace Ruru

open Chunks

/-- The datagrams among some effects. -/
def Effect.datagram : Effect → Option (List UInt8)
  | .sendto _ _ data => some data
  | _ => none

namespace RuruLoop

variable {σ υ : Type}

/-- The payloads `ClientSendPendingDtls` passes to `sendto`, in order. -/
def flushed (s : RuruLoop σ υ) (i : ℕ) : List (List UInt8) :=
  ((s.clientSendPendingDtls i).trace.drop s.trace.length).filterMap (·.datagram)

/-- The reads of the flush loop cut what is pending at the size of its buffer. -/
theorem bioReads_eq_chunks (fuel : ℕ) (pending : List UInt8) :
    bioReads fuel pending = chunks 4096 fuel pending := by
  induction fuel generalizing pending with
  | zero => rfl
  | succ fuel ih =>
    rw [bioReads, chunks, ih]
    by_cases h : pending = []
    · rw [if_pos h, if_pos (by simp [h])]
    · rw [if_neg h, if_neg (by simpa using h)]

theorem flushed_eq (s : RuruLoop σ υ) {i : ℕ} {client : RuruClient σ}
    (hclient : s.clientMgr_[i]? = some client) : s.flushed i =
      chunks 4096 client.dtlsTransport.outBio.length client.dtlsTransport.outBio := by
  have htrace : (s.clientSendPendingDtls i).trace = s.trace ++
      (bioReads client.dtlsTransport.outBio.length client.dtlsTransport.outBio).map
        fun buffer => .sendto client.udpfd_ client.address buffer := by
    unfold clientSendPendingDtls
    rw [hclient]
    rfl
  unfold flushed
  rw [htrace, List.drop_left, List.filterMap_map, bioReads_eq_chunks]
  exact List.filterMap_some

/-- **Records and datagrams.**  What `ClientSendPendingDtls` sends is the pending records in order,
and every record lies inside one datagram if and only if no multiple of 4096 bytes falls strictly
inside a record. -/
theorem records_in_datagrams_iff (s : RuruLoop σ υ) (i : ℕ) (client : RuruClient σ)
    (hclient : s.clientMgr_[i]? = some client) (records : List (List UInt8))
    (hpending : client.dtlsTransport.outBio = records.flatten)
    (hrecords : ∀ r ∈ records, 0 < r.length ∧ r.length ≤ 1400) :
    (s.flushed i).flatten = records.flatten ∧
      (Inside records (s.flushed i) ↔ Aligned 4096 records) := by
  rw [s.flushed_eq hclient, hpending]
  refine ⟨flatten_chunks (by decide) (le_refl _), inside_chunks_iff (by decide) ?_ (le_refl _)⟩
  intro r hr
  exact List.length_pos_iff.mp (hrecords r hr).1

/-- A loop with one client that has `records` pending. -/
def pendingLoop (records : List (List UInt8)) : RuruLoop PlainSsl (List SendvResult) :=
  sampleLoop.updateClient 0 fun c =>
    { c with dtlsTransport := { c.dtlsTransport with outBio := records.flatten } }

/-- Two small records go out together. -/
theorem two_records_in_datagrams :
    let records : List (List UInt8) := [[1, 2], [3]]
    ((pendingLoop records).flushed 0).flatten = records.flatten ∧
      (Inside records ((pendingLoop records).flushed 0) ↔ Aligned 4096 records) :=
  records_in_datagrams_iff (pendingLoop [[1, 2], [3]]) 0 _ rfl [[1, 2], [3]] rfl (by decide)

/-- Three records of 1400 bytes: the last is cut after 1296 bytes. -/
theorem third_record_is_split :
    let record : List UInt8 := List.replicate 1400 22
    ¬ Inside [record, record, record] ((pendingLoop [record, record, record]).flushed 0) := by
  intro record h
  have hlen : record.length = 1400 := List.length_replicate
  have hne : record ≠ [] := List.length_pos_iff.mp (by omega)
  rw [(pendingLoop [record, record, record]).flushed_eq rfl] at h
  have hcut := (inside_chunks_iff (by decide) (by simp [hne]) (le_refl _)).mp h [record, record]
    record [] rfl 1
  apply hcut
  simp [hlen]

end RuruLoop

end Ruru
