import Ruru.Moves
import Ruru.PlainLibs

/-!
# Ruru.Delivery — the length of an inbound message on its way to the echo

`size_t` to `int32_t` in `ArenaAlloc`, `uint16_t` in the event, `size_t` again in the message that
is echoed.  The first and the last step keep every length that fits the arena; the middle one keeps
it below 2^16 only.
-/

namespace Ruru

open Memory Relation

variable {σ υ : Type} (env : Env σ υ)

namespace RuruLoop

/-- Until the arena is reset, its used part does not change. -/
theorem Moves.memory {fixed : Bool} {s s' : RuruLoop σ υ} (h : Moves fixed s s') :
    s.arena_.pos ≤ s'.arena_.pos ∧ ∀ p n : ℕ, (p + n : ℤ) ≤ s.arena_.pos →
      load s'.arena_.memory p n = load s.arena_.memory p n := by
  induction h with
  | refl => exact ⟨le_rfl, fun _ _ _ => rfl⟩
  | @tail s1 s2 _ hm ih =>
    cases hm with
    | quiet que arena history beats rings sockets cons => rw [arena]; exact ih
    | scan known => exact ih
    | store known data => exact ih
    | take known read => exact ih
    | recv i data rcv =>
      rcases pushClientRecvData_cases s1 i data rcv with he | ⟨p, arena, -, ha, he⟩
      · rw [he]
        exact ih
      · rw [he]
        obtain ⟨hp, hpos, hmem⟩ := RuruArena.arenaAlloc_some ha
        refine ⟨ih.1.trans hpos, fun q n hq => ?_⟩
        rw [← ih.2 q n hq]
        have := ih.1
        rw [RuruLoop.push, RuruArena.memcpy, hmem]
        exact load_store_disjoint (Or.inl (by omega))

/-- Exactly one event is pushed for the message; it is a data event of its length whose block holds
it, and until the arena is reset the echo made of the event is the whole message. -/
def DeliveredWhole (s : RuruLoop σ υ) (i : ℕ) (data : Inbound) (rcv : SctpRcvinfo) : Prop :=
  ∃ evt p, (s.callback env (.inbound i data rcv)).que_ = s.que_ ++ [evt] ∧
    evt.type = .evtRecvClientData ∧ evt.client = some i ∧ evt.data = some p ∧
    evt.length = data.1.length ∧
    load (s.callback env (.inbound i data rcv)).arena_.memory p data.1.length = data.1 ∧
    ∀ s', Moves false (s.callback env (.inbound i data rcv)) s' →
      (s'.echoMessage evt).data = data.1

/-- What is pushed for a message that fits the arena. -/
theorem pushClientRecvData_room {s : RuruLoop σ υ} {i : ℕ} {client : RuruClient σ}
    (hi : s.clientMgr_[i]? = some client) (hq : client.que.isSome = true) {data : Inbound}
    (h1 : 1 ≤ data.1.length) (hroom : s.arena_.pos + data.1.length ≤ s.arena_.capacity)
    (rcv : SctpRcvinfo) : ∃ arena : RuruArena, arena.memory = s.arena_.memory ∧
      arena.pos = s.arena_.pos + data.1.length ∧ arena.capacity = s.arena_.capacity ∧
      s.pushClientRecvData i data rcv =
        { s with arena_ := arena.memcpy s.arena_.pos.toNat data.1 }.push
          (recvEvent i s.arena_.pos.toNat data rcv) (some (data, rcv)) := by
  rcases s.arena_.arenaAlloc_cases h1 with ⟨-, hfull⟩ | ⟨arena, ha, hmem, hpos, hcap, -⟩
  · omega
  · refine ⟨arena, hmem, hpos, hcap, ?_⟩
    rw [← toInt32_natCast data.2] at ha
    simp only [pushClientRecvData, hi, if_pos hq, ha]
    rfl

/-- The length of the one event pushed is the narrowed one. -/
theorem DeliveredWhole.length {s : RuruLoop σ υ} {i : ℕ} {data : Inbound} {rcv : SctpRcvinfo}
    (h : s.DeliveredWhole env i data rcv) : toUint16 data.1.length = data.1.length := by
  obtain ⟨evt, p, hque, -, -, -, hlen, -⟩ := h
  rcases pushClientRecvData_cases s i data rcv with he | ⟨q, arena, -, -, he⟩
  · rw [callback, he] at hque
    exact absurd hque (by simp)
  · rw [callback, he] at hque
    have hevt : recvEvent i q data rcv = evt := by simpa [RuruLoop.push] using hque
    calc toUint16 data.1.length
      _ = evt.length := by rw [← hevt]; rfl
      _ = data.1.length := hlen

/-- **Delivery of whole messages.**  A message for a registered client that fits the arena is
delivered whole exactly if it is shorter than 2^16 bytes. -/
theorem deliveredWhole_iff {s : RuruLoop σ υ} {i : ℕ} {client : RuruClient σ}
    (hi : s.clientMgr_[i]? = some client) (hq : client.que.isSome = true) (data : Inbound)
    (h1 : 1 ≤ data.1.length) (hroom : s.arena_.pos + data.1.length ≤ s.arena_.capacity)
    (rcv : SctpRcvinfo) : s.DeliveredWhole env i data rcv ↔ data.1.length < 2 ^ 16 := by
  refine ⟨fun h => (toUint16_eq_iff _).mp (h.length env), fun hlt => ?_⟩
  obtain ⟨arena, hmem, hpos, -, he⟩ := pushClientRecvData_room hi hq h1 hroom rcv
  have hlen : toUint16 data.1.length = data.1.length := (toUint16_eq_iff _).mpr hlt
  have hcopy : load (s.callback env (.inbound i data rcv)).arena_.memory s.arena_.pos.toNat
      data.1.length = data.1 := by
    rw [callback, he]
    exact load_store _ _ _
  refine ⟨recvEvent i s.arena_.pos.toNat data rcv, s.arena_.pos.toNat, ?_, rfl, rfl, rfl, hlen,
    hcopy, fun s' hm => ?_⟩
  · rw [callback, he]
    rfl
  · -- the block lies below `pos`, so it is as it was copied
    have hbelow : (s.arena_.pos.toNat + data.1.length : ℤ) ≤
        (s.callback env (.inbound i data rcv)).arena_.pos := by
      have := s.arena_.pos_nonneg
      rw [callback, he, RuruLoop.push, RuruArena.memcpy, hpos]
      omega
    calc (s'.echoMessage (recvEvent i s.arena_.pos.toNat data rcv)).data
      _ = load s'.arena_.memory s.arena_.pos.toNat data.1.length := by
        simp only [echoMessage, recvEvent, hlen]
      _ = data.1 := by rw [hm.memory.2 _ _ hbelow, hcopy]

/-- A message of three bytes. -/
theorem deliveredWhole_short :
    sampleLoop.DeliveredWhole plainEnv 0 ⟨[1, 2, 3], by decide⟩ ⟨1, 0, 7⟩ ↔ 3 < 2 ^ 16 :=
  @deliveredWhole_iff _ _ plainEnv sampleLoop 0 (sampleLoop.clientMgr_.head (by decide)) rfl rfl
    ⟨[1, 2, 3], by decide⟩ (by decide) (by decide) ⟨1, 0, 7⟩

/-- A message of 2^16 bytes fits the arena and is not delivered whole: its event has length 0. -/
theorem not_deliveredWhole_long : ∃ data : Inbound, 1 ≤ data.1.length ∧
    sampleLoop.arena_.pos + data.1.length ≤ sampleLoop.arena_.capacity ∧
    ¬sampleLoop.DeliveredWhole plainEnv 0 data ⟨1, 0, 7⟩ := by
  have hlen : (List.replicate (2 ^ 16) (0 : UInt8)).length = 2 ^ 16 := List.length_replicate
  refine ⟨⟨List.replicate (2 ^ 16) 0, by rw [hlen]; norm_num⟩, ?_, ?_, fun h => ?_⟩
  · rw [hlen]
    norm_num
  · rw [hlen]
    decide
  · have hlt := (toUint16_eq_iff _).mp (h.length plainEnv)
    rw [hlen] at hlt
    exact absurd hlt (by norm_num)

end RuruLoop

end Ruru
