import Ruru.PlainLibs

/-!
# Ruru.Http.BodyParse — which registrations `BodyParse` accepts, and what it reads

`BodyParse` gets a counted body but hands it to `cJSON_Parse`, which measures it with `strlen`; it
does not look at what `inet_addr` says of the address, and it stores `valueint` in a `uint16_t`.  It
does what it should exactly for the bodies that hold a NUL and whose address and port, where there
are both, are an address and a port.
-/

namespace Ruru

open Memory

/-- What `inet_addr` returns for a string that is no address, and for 255.255.255.255. -/
def INADDR_NONE : UInt32 := 0xFFFFFFFF

/-! ### What is read -/

/-- `BodyParse(data + p, length, ..)` inspects the byte `k` of the body: `strlen` goes on up to the
first NUL, and the parser stays within what `strlen` has measured. -/
def BodyInspects (data : ℕ → UInt8) (p : ℕ) (length : ℤ) (k : ℕ) : Prop :=
  0 ≤ length ∧ ∀ j < k, data (p + j) ≠ 0

/-- The text in the first `length` bytes at `data + p`: cJSON stops at a NUL. -/
def bodyText (data : ℕ → UInt8) (p : ℕ) (length : ℤ) : List UInt8 :=
  (load data p length.toNat).takeWhile (· != 0)

section Reads

variable {σ υ : Type} (env : Env σ υ) {size p : ℕ} {data : ℕ → UInt8} {length : ℤ}

/-- `BodyParse` depends on the bytes it inspects only. -/
theorem bodyParseIn_congr {data' : ℕ → UInt8}
    (h : ∀ k, BodyInspects data p length k → data' (p + k) = data (p + k)) :
    bodyParseIn env size data' p length = bodyParseIn env size data p length := by
  unfold bodyParseIn
  by_cases hneg : length < 0
  · rw [if_pos hneg, if_pos hneg]
  · have htext : cString size data' p = cString size data p := by
      apply takeWhile_load_congr
      intro k _ hpast
      exact h k ⟨by omega, fun j hj => by simpa using hpast j hj⟩
    rw [if_neg hneg, if_neg hneg, htext]

/-- It stays inside the body exactly if there is a NUL in the body. -/
theorem bodyInspects_lt_iff (h0 : 0 ≤ length) :
    (∀ k, BodyInspects data p length k → k < length.toNat) ↔
      ∃ k < length.toNat, data (p + k) = 0 := by
  constructor
  · intro h
    by_contra hno
    push Not at hno
    exact absurd (h length.toNat ⟨h0, hno⟩) (lt_irrefl _)
  · rintro ⟨k, hk, hnul⟩ i ⟨-, hpast⟩
    by_contra hi
    exact hpast k (by omega) hnul

/-- A NUL in the body ends the string that cJSON is given. -/
theorem cString_eq_bodyText (hfits : p + length.toNat ≤ size)
    (hnul : ∃ k < length.toNat, data (p + k) = 0) :
    cString size data p = bodyText data p length := by
  obtain ⟨k, hk, h0⟩ := hnul
  exact takeWhile_load_of_stop hk (by omega) (by simp [h0])

end Reads

/-! ### What is accepted -/

/-- `v` is the first member of the object `root` whose name is `name`, in any case. -/
def CJson.First (root : CJson) (name : List UInt8) (v : CJson) : Prop :=
  ∃ before key after, root = .object (before ++ (key, v) :: after) ∧
    key.map toLower = name.map toLower ∧ ∀ m ∈ before, m.1.map toLower ≠ name.map toLower

/-- `root` is a well-formed registration of `address`: its `"ip"` is the text of an IPv4 address and
its `"port"` an integer that fits 16 bits.  `inetAton` gives addresses in network byte order. -/
structure CJson.Registers (inetAton : List UInt8 → Option UInt32) (root : CJson)
    (address : RuruAddress) : Prop where
  ip : ∃ ip inAddr, root.First ipName (.string ip) ∧ inetAton ip = some inAddr ∧
    address.host = ntohl inAddr
  port : root.First portName (.number (.finite address.port.toNat))

theorem CJson.getObjectItem_eq_some_iff (root : CJson) (name : List UInt8) (v : CJson) :
    root.getObjectItem name = some v ↔ root.First name v := by
  cases root with
  | object members =>
    simp only [getObjectItem, Option.map_eq_some_iff, List.find?_eq_some_iff_append]
    constructor
    · rintro ⟨⟨key, w⟩, ⟨hkey, before, after, rfl, hbefore⟩, rfl⟩
      exact ⟨before, key, after, rfl, by simpa using hkey, fun m hm => by simpa using hbefore m hm⟩
    · rintro ⟨before, key, after, hroot, hkey, hbefore⟩
      cases hroot
      exact ⟨(key, v), ⟨by simpa using hkey, before, after, rfl, fun m hm => by
        simpa using hbefore m hm⟩, rfl⟩
  | string _ | number _ | other =>
    refine iff_of_false (by simp [getObjectItem]) ?_
    rintro ⟨before, key, after, hroot, -⟩
    cases hroot

theorem CJson.getObjectItem_cons (key : List UInt8) (v : CJson) (members : List (List UInt8 × CJson))
    (name : List UInt8) : (CJson.object ((key, v) :: members)).getObjectItem name =
      if key.map toLower = name.map toLower then some v
      else (CJson.object members).getObjectItem name := by
  unfold getObjectItem
  by_cases h : key.map toLower = name.map toLower <;> simp [h]

/-- A port in the range of 16 bits comes through both conversions. -/
theorem ofInt_valueint {n : ℕ} (h : n < 2 ^ 16) :
    (UInt16.ofInt (Double.finite n).valueint).toNat = n := by
  have hmax : ¬((INT_MAX : ℤ) : ℚ) ≤ (n : ℚ) := by
    rw [not_le]
    have hlt : (n : ℤ) < INT_MAX := by unfold INT_MAX; omega
    exact_mod_cast hlt
  have hmin : ¬(n : ℚ) ≤ ((INT_MIN : ℤ) : ℚ) := by
    rw [not_le]
    have hlt : INT_MIN < (n : ℤ) := by unfold INT_MIN; omega
    exact_mod_cast hlt
  have hval : (Double.finite n).valueint = n := by
    unfold Double.valueint
    simp only [if_neg hmax, if_neg hmin, Rat.num_natCast, Rat.den_natCast]
    exact Int.tdiv_one _
  rw [hval, UInt16.ofInt, UInt16.toNat_ofNat']
  omega

section Accepts

variable {σ υ : Type} (env : Env σ υ) (inetAton : List UInt8 → Option UInt32)

/-- What `BodyParse` accepts: an object with a string and a number. -/
theorem bodyParseIn_eq_some_iff {size p : ℕ} {data : ℕ → UInt8} {length : ℤ} (h0 : 0 ≤ length)
    (address : RuruAddress) :
    bodyParseIn env size data p length = some address ↔
      ∃ root ip port, env.cJsonParse (cString size data p) = some root ∧
        root.First ipName (.string ip) ∧ root.First portName (.number port) ∧
        address = ⟨ntohl (env.inetAddr ip), .ofInt port.valueint⟩ := by
  unfold bodyParseIn
  rw [if_neg (by omega)]
  simp only [← CJson.getObjectItem_eq_some_iff]
  cases env.cJsonParse (cString size data p) with
  | none => simp
  | some root =>
    dsimp only
    constructor
    · intro h
      split at h
      · rename_i ip port hip hport
        exact ⟨root, ip, port, rfl, hip, hport, (Option.some.inj h).symm⟩
      · exact absurd h (by simp)
    · rintro ⟨_, ip, port, ⟨⟩, hip, hport, rfl⟩
      rw [hip, hport]

/-- `BodyParse(data + p, length, address)` does what it should. -/
structure BodyParseExact (size : ℕ) (data : ℕ → UInt8) (p : ℕ) (length : ℤ) : Prop where
  inside : ∀ k, BodyInspects data p length k → k < length.toNat
  depends : ∀ data', (∀ k < length.toNat, data' (p + k) = data (p + k)) →
    bodyParseIn env size data' p length = bodyParseIn env size data p length
  accepts : ∀ address, bodyParseIn env size data p length = some address ↔
    ∃ root, env.cJsonParse (bodyText data p length) = some root ∧ root.Registers inetAton address

/-- **Registrations.**  `BodyParse` reads only its body and accepts exactly the well-formed
registrations if and only if there is a NUL in the body, and the address and the port, where the body
is an object with a string for the one and a number for the other, are an address and a port. -/
theorem bodyParseExact_iff
    (hinet : ∀ s, env.inetAddr s = (inetAton s).getD INADDR_NONE)
    (size : ℕ) (data : ℕ → UInt8) (p : ℕ) (length : ℤ) (h0 : 0 ≤ length)
    (hfits : p + length.toNat ≤ size) :
    BodyParseExact env inetAton size data p length ↔
      (∃ k < length.toNat, data (p + k) = 0) ∧
      ∀ root ip port, env.cJsonParse (bodyText data p length) = some root →
        root.First ipName (.string ip) → root.First portName (.number port) →
        (inetAton ip).isSome ∧ ∃ n : ℕ, n < 2 ^ 16 ∧ port = .finite n := by
  rw [← bodyInspects_lt_iff h0]
  constructor
  · rintro ⟨hin, -, hacc⟩
    refine ⟨hin, fun root ip port hroot hip hport => ?_⟩
    have htext := cString_eq_bodyText hfits ((bodyInspects_lt_iff h0).mp hin)
    have haccepted := (bodyParseIn_eq_some_iff env h0 _).mpr
      ⟨root, ip, port, by rw [htext]; exact hroot, hip, hport, rfl⟩
    obtain ⟨root', hroot', ⟨ip', inAddr, hip', hinAddr, -⟩, hport'⟩ := (hacc _).mp haccepted
    obtain rfl : root = root' := Option.some.inj (hroot.symm.trans hroot')
    rw [← CJson.getObjectItem_eq_some_iff] at hip hport hip' hport'
    rw [hip] at hip'
    rw [hport] at hport'
    cases hip'
    refine ⟨by rw [hinAddr]; rfl, (UInt16.ofInt port.valueint).toNat, UInt16.toNat_lt _, ?_⟩
    injection hport' with hnumber
    injection hnumber
  · rintro ⟨hin, hgood⟩
    have hnul := (bodyInspects_lt_iff h0).mp hin
    have htext := cString_eq_bodyText hfits hnul
    refine ⟨hin, fun data' hsame => bodyParseIn_congr env fun k hk => hsame k (hin k hk), ?_⟩
    intro address
    rw [bodyParseIn_eq_some_iff env h0, htext]
    constructor
    · rintro ⟨root, ip, port, hroot, hip, hport, rfl⟩
      obtain ⟨hvalid, n, hn, rfl⟩ := hgood root ip port hroot hip hport
      obtain ⟨inAddr, hinAddr⟩ := Option.isSome_iff_exists.mp hvalid
      refine ⟨root, hroot, ⟨ip, inAddr, hip, hinAddr, ?_⟩, ?_⟩
      · show ntohl (env.inetAddr ip) = ntohl inAddr
        rw [hinet, hinAddr]
        rfl
      · show root.First portName (.number (.finite (UInt16.ofInt _).toNat))
        rw [ofInt_valueint hn]
        exact hport
    · rintro ⟨root, hroot, ⟨ip, inAddr, hip, hinAddr, hhost⟩, hport⟩
      refine ⟨root, ip, _, hroot, hip, hport, ?_⟩
      obtain ⟨host, port⟩ := address
      have hport16 : UInt16.ofInt (Double.finite port.toNat).valueint = port :=
        UInt16.toNat_inj.mp (ofInt_valueint port.toNat_lt)
      rw [hinet, hinAddr, hport16]
      exact congrArg (RuruAddress.mk · port) hhost

end Accepts

/-! ### Two bodies -/

/-- `inet_aton` on the address of `sampleBody`; no address elsewhere. -/
def sampleInetAton (text : List UInt8) : Option UInt32 :=
  if text = ascii "127.0.0.1" then some 0x0100007F else none

theorem sampleInetAddr_eq (text : List UInt8) :
    sampleInetAddr text = (sampleInetAton text).getD INADDR_NONE := by
  unfold sampleInetAddr sampleInetAton
  split_ifs <;> rfl

/-- A buffer that holds `body` and then zeros. -/
def buffered (body : List UInt8) : ℕ → UInt8 := store (fun _ => 0) 0 body

/-- The body of a registration of the address `x`, which is none, with the port 70000. -/
def strayBody : List UInt8 := ascii "\x7b\"ip\":\"x\",\"port\":70000\x7d"

/-- What cJSON makes of `strayBody`. -/
def strayJson : CJson :=
  .object [(ascii "ip", .string (ascii "x")), (ascii "port", .number (.finite 70000))]

def strayEnv : Env PlainSsl (List SendvResult) :=
  { plainEnv with cJsonParse := fun text => if text = strayBody then some strayJson else none }

/-- The sample body with a NUL behind it that counts as part of it. -/
theorem bodyParseExact_with_nul :
    BodyParseExact plainEnv sampleInetAton HTTP_MAX_SIZE (buffered sampleBody) 0 31 := by
  refine (bodyParseExact_iff plainEnv sampleInetAton sampleInetAddr_eq _ _ _ _ (by decide)
    (by decide)).mpr ⟨⟨30, by decide, by decide +kernel⟩, fun root ip port hroot hip hport => ?_⟩
  have htext : bodyText (buffered sampleBody) 0 31 = sampleBody := by decide +kernel
  have hjson : plainEnv.cJsonParse sampleBody = some (.object
      [(ascii "ip", .string (ascii "127.0.0.1")), (ascii "port", .number (.finite 5000))]) := by
    show sampleJson sampleBody = _
    rw [sampleJson, if_pos rfl]
  rw [htext, hjson] at hroot
  cases hroot
  rw [← CJson.getObjectItem_eq_some_iff, CJson.getObjectItem_cons, if_pos (by decide)] at hip
  rw [← CJson.getObjectItem_eq_some_iff, CJson.getObjectItem_cons, if_neg (by decide),
    CJson.getObjectItem_cons, if_pos (by decide)] at hport
  cases hip
  cases hport
  exact ⟨by decide, 5000, by decide, rfl⟩

/-- A body that ends where it should is read beyond its end; and an address that is none is
registered as 255.255.255.255, with the port modulo 2^16. -/
theorem stray_registration :
    ¬ BodyParseExact plainEnv sampleInetAton HTTP_MAX_SIZE (buffered sampleBody) 0 30 ∧
    bodyParseIn strayEnv HTTP_MAX_SIZE (buffered strayBody) 0 24 = some ⟨0xFFFFFFFF, 4464⟩ ∧
    ¬ BodyParseExact strayEnv sampleInetAton HTTP_MAX_SIZE (buffered strayBody) 0 24 := by
  have hstray : bodyParseIn strayEnv HTTP_MAX_SIZE (buffered strayBody) 0 24 =
      some ⟨0xFFFFFFFF, 4464⟩ := by decide +kernel
  refine ⟨fun h => ?_, hstray, fun h => ?_⟩
  · have hread : BodyInspects (buffered sampleBody) 0 30 30 := ⟨by decide, by decide +kernel⟩
    exact absurd (h.inside 30 hread) (by decide)
  · obtain ⟨root, hroot, ⟨ip, inAddr, hip, hinAddr, -⟩, -⟩ := (h.accepts _).mp hstray
    have htext : bodyText (buffered strayBody) 0 24 = strayBody := by decide +kernel
    have hjson : strayEnv.cJsonParse strayBody = some strayJson := by
      show (if strayBody = strayBody then some strayJson else none) = _
      rw [if_pos rfl]
    rw [htext, hjson] at hroot
    cases hroot
    rw [← CJson.getObjectItem_eq_some_iff, strayJson, CJson.getObjectItem_cons,
      if_pos (by decide)] at hip
    cases hip
    have hnone : sampleInetAton (ascii "x") = none := by decide
    rw [hnone] at hinAddr
    exact absurd hinAddr (by simp)

end Ruru
