import Ruru.Http.Passes
import Ruru.Lib.Lts

/-!
# Ruru.Http.ReceiveBuffer — the receive buffer at every read and every parse

A run of `HttpRequestHandle` is a sequence of reads and parses.  The buffer is sound before each of
them exactly if no read of the run would have blocked.  Every call that returns deletes the record,
so there is no second call on a connection.
-/

namespace Ruru

open Memory

/-- Where a handler is, and all bytes read on its connection so far. -/
structure HttpRun where
  state : HttpState
  received : List UInt8

/-- A `read` with its result, or a call of `phr_parse_request`. -/
inductive HttpAction where
  | read (r : ReadResult)
  | parse
deriving DecidableEq

/-- `con->length` is in range, and so many bytes of `data` are what was received. -/
structure BufferHolds (con : RuruConnectionData) (received : List UInt8) : Prop where
  nonneg : 0 ≤ con.length
  le : con.length ≤ HTTP_MAX_SIZE
  holds : load con.data 0 con.length.toNat = received

namespace HttpRun

def step (run : HttpRun) : HttpAction → Option HttpRun
  | .read r => match run.state with
    | .reading con => some ⟨httpRead con r, run.received ++ r.got con.readSize⟩
    | _ => none
  | .parse => match run.state with
    | .parsing con lastLen => some ⟨httpParse con lastLen, run.received⟩
    | _ => none

/-- A step as a relation. -/
def Step (run : HttpRun) (a : HttpAction) (run' : HttpRun) : Prop := run.step a = some run'

/-- A new record. -/
def fresh (fd : ℤ) (data : ℕ → UInt8) : HttpRun := ⟨.reading ⟨fd, data, 0⟩, []⟩

/-- At a read: the buffer holds what was received, and the read is asked for the rest of `data`.  At
a parse: the buffer holds what was received, and `lastLen` is at most the length passed with it. -/
def Sound (run : HttpRun) : Prop :=
  match run.state with
  | .reading con => BufferHolds con run.received ∧ (con.readSize : ℤ) = HTTP_MAX_SIZE - con.length
  | .parsing con lastLen => BufferHolds con run.received ∧ lastLen ≤ toSize con.length
  | .undefined => False
  | .closed | .badRequest | .body .. => True

theorem sound_of_left {run : HttpRun} (h : run.state.left = true) : run.Sound := by
  unfold Sound
  cases hs : run.state <;> simp_all [HttpState.left]

theorem sound_reading {con : RuruConnectionData} {received : List UInt8}
    (h : BufferHolds con received) : Sound ⟨.reading con, received⟩ := by
  refine ⟨h, ?_⟩
  have hmax : (HTTP_MAX_SIZE : ℤ) = 4096 := rfl
  have hmax' : HTTP_MAX_SIZE = 4096 := rfl
  have hle := h.le
  have h0 := h.nonneg
  rw [con.readSize_eq h0 hle]
  omega

/-! ### One step -/

/-- A read keeps the buffer sound unless it would have blocked. -/
theorem sound_read {con : RuruConnectionData} {received : List UInt8}
    (h : BufferHolds con received) (r : ReadResult) :
    Sound ⟨httpRead con r, received ++ r.got con.readSize⟩ ↔ r ≠ .fail EAGAIN := by
  have hmax : (HTTP_MAX_SIZE : ℤ) = 4096 := rfl
  have hmax' : HTTP_MAX_SIZE = 4096 := rfl
  have h0 := h.nonneg
  have h1 := h.le
  cases r with
  | fail errno =>
    by_cases he : errno = EAGAIN
    · subst he
      rw [httpRead_wouldBlock h0 h1]
      refine ⟨fun hs => ?_, fun hne => absurd rfl hne⟩
      -- `lastLen` is one more than the new length
      obtain ⟨hbuf, hlast⟩ := hs
      have hnonneg : 0 ≤ con.length - 1 := hbuf.nonneg
      have hlast' : con.length.toNat ≤ toSize (con.length - 1) := hlast
      rw [toSize_of_nonneg hnonneg (by omega)] at hlast'
      omega
    · rw [httpRead_error h0 h1 he]
      exact ⟨fun _ hf => he (by simpa using hf), fun _ => trivial⟩
  | bytes bs =>
    refine ⟨fun _ => by simp, fun _ => ?_⟩
    by_cases hgot : bs.take con.readSize = []
    · rw [httpRead_nothing h0 h1 hgot]
      trivial
    · rw [httpRead_bytes h0 h1 hgot]
      have hlen : (bs.take con.readSize).length ≤ 4096 - con.length.toNat := by
        rw [List.length_take, con.readSize_eq h0 h1]
        omega
      refine ⟨⟨?_, ?_, ?_⟩, ?_⟩
      · rw [con.length_grown]
        omega
      · rw [con.length_grown]
        omega
      · rw [con.load_grown h0, h.holds]
        rfl
      · rw [con.length_grown, toSize_of_nonneg (by omega) (by omega)]
        omega

/-- A parse leaves the buffer alone. -/
theorem sound_parse {con : RuruConnectionData} {received : List UInt8}
    (h : BufferHolds con received) (lastLen : ℕ) : Sound ⟨httpParse con lastLen, received⟩ := by
  rcases httpParse_cases h.nonneg lastLen with ⟨-, hleft⟩ | ⟨-, hreading⟩
  · exact sound_of_left hleft
  · rw [hreading]
    exact sound_reading h

theorem step_sound {run run' : HttpRun} {a : HttpAction} (h : run.Sound) (hs : Step run a run') :
    run'.Sound ↔ a ≠ .read (.fail EAGAIN) := by
  obtain ⟨state, received⟩ := run
  cases a with
  | read r =>
    cases state with
    | reading con =>
      obtain rfl := Option.some.inj hs
      rw [sound_read h.1 r]
      simp
    | _ => exact absurd hs (by simp [Step, step])
  | parse =>
    cases state with
    | parsing con lastLen =>
      obtain rfl := Option.some.inj hs
      exact ⟨fun _ => by simp, fun _ => sound_parse h.1 lastLen⟩
    | _ => exact absurd hs (by simp [Step, step])

/-! ### Runs -/

/-- The handler's loop is such a run. -/
theorem path_httpLoop (con : RuruConnectionData) (received : List UInt8) (reads : List ReadResult) :
    ∃ actions received',
      Lts.Path Step ⟨.reading con, received⟩ actions ⟨httpLoop con reads, received'⟩ := by
  induction reads generalizing con received with
  | nil => exact ⟨[], received, rfl⟩
  | cons r rs ih =>
    have hread : Step ⟨.reading con, received⟩ (.read (r.asked con.readSize))
        ⟨httpRead con (r.asked con.readSize),
          received ++ (r.asked con.readSize).got con.readSize⟩ := rfl
    unfold httpLoop httpPass
    cases hr : httpRead con (r.asked con.readSize) with
    | parsing con' lastLen =>
      rw [hr] at hread
      have hparse : Step ⟨.parsing con' lastLen,
          received ++ (r.asked con.readSize).got con.readSize⟩ .parse
          ⟨httpParse con' lastLen, received ++ (r.asked con.readSize).got con.readSize⟩ := rfl
      dsimp only
      cases hp : httpParse con' lastLen with
      | reading con'' =>
        rw [hp] at hparse
        obtain ⟨actions, received', hpath⟩ := ih con''
          (received ++ (r.asked con.readSize).got con.readSize)
        exact ⟨_ :: _ :: actions, received', _, hread, _, hparse, hpath⟩
      | _ =>
        rw [hp] at hparse
        exact ⟨[_, _], _, _, hread, _, hparse, rfl⟩
    | reading con' =>
      rw [hr] at hread
      obtain ⟨actions, received', hpath⟩ := ih con'
        (received ++ (r.asked con.readSize).got con.readSize)
      exact ⟨_ :: actions, received', _, hread, hpath⟩
    | _ =>
      rw [hr] at hread
      exact ⟨[_], _, _, hread, rfl⟩

/-- **The receive buffer.**  Along any run over a new record the buffer is sound in every state
exactly if no read of the run would have blocked. -/
theorem buffer_sound_iff (fd : ℤ) (data : ℕ → UInt8) (actions : List HttpAction) :
    Lts.Always Step Sound (fresh fd data) actions ↔
      Lts.Each Step (fun _ a => a ≠ .read (.fail EAGAIN)) (fresh fd data) actions := by
  have hfresh : (fresh fd data).Sound := sound_reading ⟨le_refl 0, by simp, rfl⟩
  refine Lts.always_iff_each (I := fun _ => True) ?_ ?_ trivial hfresh actions
  · exact fun run a run' _ h hs => step_sound h hs
  · exact fun _ _ _ _ _ _ _ => trivial

/-- What a parse is about to be given: `con->length` and `lastLen`. -/
def parseArgs (run : HttpRun) : Option (ℤ × ℕ) :=
  match run.state with
  | .parsing con lastLen => some (con.length, lastLen)
  | _ => none

/-- A byte, and then a read that would block: the parser is given `lastLen` 1 with length 0. -/
theorem buffer_unsound_after_wouldBlock :
    ¬Lts.Always Step Sound (fresh 5 fun _ => 0)
      [.read (.bytes [71]), .parse, .read (.fail EAGAIN)] := by
  intro h
  have key : ([.read (.bytes [71]), .parse, .read (.fail EAGAIN)].foldlM step
      (fresh 5 fun _ => 0)).map parseArgs = some (some (0, 1)) := by
    decide +kernel
  obtain ⟨run, hrun, hargs⟩ := Option.map_eq_some_iff.mp key
  have hsound : run.Sound :=
    Lts.always_iff_prefix.mp h _ [] (by simp) run (Lts.path_iff_foldlM.mpr hrun)
  unfold parseArgs at hargs
  unfold Sound at hsound
  cases hs : run.state with
  | parsing con lastLen =>
    rw [hs] at hargs hsound
    obtain ⟨hlen, hlast⟩ := Prod.mk.inj (Option.some.inj hargs)
    have hle : lastLen ≤ toSize con.length := hsound.2
    rw [hlen, hlast, toSize_of_nonneg (le_refl 0) (by norm_num)] at hle
    exact absurd hle (by decide)
  | _ => rw [hs] at hargs; exact absurd hargs (by simp)

end HttpRun

end Ruru
