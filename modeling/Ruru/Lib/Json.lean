import Mathlib.Data.List.Basic
import Mathlib.Data.Nat.Digits.Defs
import Mathlib.Data.Rat.Defs
import Mathlib.Tactic.Common

/-!
# Ruru.Lib.Json — JSON values and the texts that denote them

A grammar of JSON, on bytes.  `Text Number d t v`: the text `t` denotes the value `v`, whose arrays
and objects are nested at most `d` deep.  `Number t x` says that the numeral `t` denotes `x`, so that
the grammar does not fix what numbers are; `Numeral` is what such a numeral looks like.  A string
denotes bytes: an escape `\u` is that of a scalar value or one of a pair of surrogates, and there are
no escapes of a surrogate alone.
-/

/-- A JSON value with numbers in `N`; a string is the list of its bytes in UTF-8. -/
inductive Json (N : Type) where
  | null
  | bool (b : Bool)
  | number (x : N)
  | string (s : List UInt8)
  | array (xs : List (Json N))
  | object (ms : List (List UInt8 × Json N))

namespace Json

variable {N : Type}

/-- Arrays and objects are nested at most `d` deep. -/
inductive Within : ℕ → Json N → Prop
  | null {d : ℕ} : Within d .null
  | bool {d : ℕ} (b : Bool) : Within d (.bool b)
  | number {d : ℕ} (x : N) : Within d (.number x)
  | string {d : ℕ} (s : List UInt8) : Within d (.string s)
  | array {d : ℕ} {xs : List (Json N)} (h : ∀ x ∈ xs, Within d x) : Within (d + 1) (.array xs)
  | object {d : ℕ} {ms : List (List UInt8 × Json N)} (h : ∀ m ∈ ms, Within d m.2) :
    Within (d + 1) (.object ms)

/-! ### Blanks and numerals -/

/-- Spaces, tabs and ends of lines. -/
def Blank (ws : List UInt8) : Prop := ∀ b ∈ ws, b = 32 ∨ b = 9 ∨ b = 10 ∨ b = 13

theorem blank_nil : Blank [] := fun b h => absurd h (by simp)

/-- A run of decimal digits. -/
def Digits (ds : List UInt8) : Prop := ∀ d ∈ ds, 48 ≤ d ∧ d ≤ 57

/-- The number a run of digits denotes. -/
def digitsValue (ds : List UInt8) : ℕ := Nat.ofDigits 10 (ds.reverse.map fun d => d.toNat - 48)

/-- The exponent of a numeral. -/
structure Exponent where
  letter : UInt8
  sign : List UInt8
  digits : List UInt8
  letter_e : letter = 101 ∨ letter = 69
  sign_ok : sign = [] ∨ sign = [43] ∨ sign = [45]
  digits_ok : Digits digits
  digits_ne : digits ≠ []

def Exponent.text (e : Exponent) : List UInt8 := e.letter :: (e.sign ++ e.digits)

def Exponent.value (e : Exponent) : ℤ :=
  if e.sign = [45] then -digitsValue e.digits else digitsValue e.digits

/-- A numeral; `frac` is empty where there is no point. -/
structure Numeral where
  negative : Bool
  int : List UInt8
  frac : List UInt8
  exponent : Option Exponent
  int_ok : Digits int
  int_ne : int ≠ []
  int_zero : int.head? = some 48 → int = [48]
  frac_ok : Digits frac

namespace Numeral

def text (n : Numeral) : List UInt8 :=
  (if n.negative then [45] else []) ++ n.int ++ (if n.frac = [] then [] else 46 :: n.frac) ++
    (n.exponent.map Exponent.text).getD []

/-- The value of a numeral without its sign. -/
def magnitude (n : Numeral) : ℚ :=
  digitsValue (n.int ++ n.frac) * 10 ^ ((n.exponent.map Exponent.value).getD 0 - n.frac.length)

end Numeral

/-! ### Strings -/

/-- The value of a hexadecimal digit. -/
def hexValue (b : UInt8) : Option ℕ :=
  if 48 ≤ b ∧ b ≤ 57 then some (b.toNat - 48)
  else if 65 ≤ b ∧ b ≤ 70 then some (b.toNat - 55)
  else if 97 ≤ b ∧ b ≤ 102 then some (b.toNat - 87)
  else none

/-- Four hexadecimal digits and the number they denote. -/
inductive Hex4 : List UInt8 → ℕ → Prop
  | mk {a b c d : UInt8} {w x y z : ℕ} (ha : hexValue a = some w) (hb : hexValue b = some x)
      (hc : hexValue c = some y) (hd : hexValue d = some z) :
      Hex4 [a, b, c, d] (((w * 16 + x) * 16 + y) * 16 + z)

/-- The byte an escape sequence of two bytes denotes. -/
def escapeValue (e : UInt8) : Option UInt8 :=
  match e.toNat with
  | 34 => some 34
  | 92 => some 92
  | 47 => some 47
  | 98 => some 8
  | 102 => some 12
  | 110 => some 10
  | 114 => some 13
  | 116 => some 9
  | _ => none

/-- A character in UTF-8. -/
def utf8 (n : ℕ) : List UInt8 := String.utf8EncodeChar (Char.ofNat n)

/-- What may stand between the quotes of a string, and the bytes it denotes. -/
inductive Chars : List UInt8 → List UInt8 → Prop
  | nil : Chars [] []
  | plain {b : UInt8} {t s : List UInt8} (hlow : 32 ≤ b) (hquote : b ≠ 34) (hbackslash : b ≠ 92)
      (h : Chars t s) : Chars (b :: t) (b :: s)
  | escape {e c : UInt8} {t s : List UInt8} (he : escapeValue e = some c) (h : Chars t s) :
      Chars (92 :: e :: t) (c :: s)
  | scalar {hex t s : List UInt8} {n : ℕ} (hx : Hex4 hex n) (hn : n < 0xD800 ∨ 0xE000 ≤ n)
      (h : Chars t s) : Chars (92 :: 117 :: (hex ++ t)) (utf8 n ++ s)
  | pair {hex hex' t s : List UInt8} {n n' : ℕ} (hx : Hex4 hex (0xD800 + n)) (hn : n < 0x400)
      (hx' : Hex4 hex' (0xDC00 + n')) (hn' : n' < 0x400) (h : Chars t s) :
      Chars (92 :: 117 :: (hex ++ 92 :: 117 :: (hex' ++ t))) (utf8 (0x10000 + n * 0x400 + n') ++ s)

/-! ### Values -/

/-- Something between blanks, in a list. -/
structure Entry (α : Type) where
  before : List UInt8
  text : List UInt8
  after : List UInt8
  value : α
  before_blank : Blank before
  after_blank : Blank after

def Entry.bytes {α : Type} (e : Entry α) : List UInt8 := e.before ++ (e.text ++ e.after)

/-- The entries of a list, with commas between them. -/
def listed {α : Type} (es : List (Entry α)) : List UInt8 := [44].intercalate (es.map Entry.bytes)

/-- A member of an object: a name, a colon and a value. -/
structure Member (N : Type) where
  before : List UInt8
  nameText : List UInt8
  name : List UInt8
  after : List UInt8
  item : Entry (Json N)
  before_blank : Blank before
  name_ok : Chars nameText name
  after_blank : Blank after

/-- A member as an entry of its object. -/
def Member.entry (m : Member N) : Entry (List UInt8 × Json N) where
  before := m.before
  text := 34 :: (m.nameText ++ 34 :: (m.after ++ 58 :: (m.item.before ++ m.item.text)))
  after := m.item.after
  value := (m.name, m.item.value)
  before_blank := m.before_blank
  after_blank := m.item.after_blank

inductive Text (Number : List UInt8 → N → Prop) : ℕ → List UInt8 → Json N → Prop
  | null {d : ℕ} : Text Number d [110, 117, 108, 108] .null
  | false {d : ℕ} : Text Number d [102, 97, 108, 115, 101] (.bool false)
  | true {d : ℕ} : Text Number d [116, 114, 117, 101] (.bool true)
  | number {d : ℕ} {t : List UInt8} {x : N} (h : Number t x) : Text Number d t (.number x)
  | string {d : ℕ} {t s : List UInt8} (h : Chars t s) : Text Number d (34 :: (t ++ [34])) (.string s)
  | emptyArray {d : ℕ} {ws : List UInt8} (h : Blank ws) :
      Text Number (d + 1) (91 :: (ws ++ [93])) (.array [])
  | array {d : ℕ} (e : Entry (Json N)) (es : List (Entry (Json N)))
      (h : ∀ i ∈ e :: es, Text Number d i.text i.value) :
      Text Number (d + 1) (91 :: (listed (e :: es) ++ [93])) (.array ((e :: es).map Entry.value))
  | emptyObject {d : ℕ} {ws : List UInt8} (h : Blank ws) :
      Text Number (d + 1) (123 :: (ws ++ [125])) (.object [])
  | object {d : ℕ} (m : Member N) (ms : List (Member N))
      (h : ∀ i ∈ m :: ms, Text Number d i.item.text i.item.value) :
      Text Number (d + 1) (123 :: (listed ((m :: ms).map Member.entry) ++ [125]))
        (.object ((m :: ms).map fun i => i.entry.value))

/-! ### Lemmas on strings -/

theorem val_charOfNat {n : ℕ} (h : n < 0xD800 ∨ 0xE000 ≤ n ∧ n < 0x110000) :
    (Char.ofNat n).val.toNat = n := by
  have hvalid : n.isValidChar := by
    rcases h with h | ⟨h1, h2⟩
    · exact Or.inl h
    · exact Or.inr ⟨by omega, h2⟩
  rw [Char.ofNat, dif_pos hvalid]
  rfl

theorem length_utf8_le (n : ℕ) : (utf8 n).length ≤ 4 := by
  unfold utf8 String.utf8EncodeChar
  dsimp only
  split_ifs <;> simp

theorem length_utf8_le_three {n : ℕ} (h : n < 0xD800 ∨ 0xE000 ≤ n ∧ n < 0x10000) :
    (utf8 n).length ≤ 3 := by
  unfold utf8 String.utf8EncodeChar
  rw [val_charOfNat (by omega)]
  dsimp only
  split_ifs with h1 h2 h3
  · simp
  · simp
  · simp
  · omega

namespace Hex4

variable {hex : List UInt8} {n : ℕ}

theorem length (h : Hex4 hex n) : hex.length = 4 := by
  obtain ⟨ha, hb, hc, hd⟩ := h
  rfl

theorem lt (h : Hex4 hex n) : n < 0x10000 := by
  have hdigit : ∀ b d, hexValue b = some d → d < 16 := by
    intro b d hd
    unfold hexValue at hd
    split_ifs at hd with h1 h2 h3
    · obtain rfl := Option.some.inj hd
      have := UInt8.le_iff_toNat_le.mp h1.2
      simp at this
      omega
    · obtain rfl := Option.some.inj hd
      have := UInt8.le_iff_toNat_le.mp h2.2
      simp at this
      omega
    · obtain rfl := Option.some.inj hd
      have := UInt8.le_iff_toNat_le.mp h3.2
      simp at this
      omega
  obtain ⟨ha, hb, hc, hd⟩ := h
  have := hdigit _ _ ha
  have := hdigit _ _ hb
  have := hdigit _ _ hc
  have := hdigit _ _ hd
  omega

/-- No hexadecimal digit ends a string or escapes the byte behind it. -/
theorem plain (h : Hex4 hex n) : ∀ b ∈ hex, b ≠ 34 ∧ b ≠ 92 := by
  have hdigit : ∀ b d, hexValue b = some d → b ≠ 34 ∧ b ≠ 92 := by
    intro b d hd
    constructor
    · rintro rfl
      simp [hexValue] at hd
    · rintro rfl
      simp [hexValue] at hd
  obtain ⟨ha, hb, hc, hd⟩ := h
  intro b hb'
  simp only [List.mem_cons, List.not_mem_nil, or_false] at hb'
  rcases hb' with rfl | rfl | rfl | rfl
  · exact hdigit _ _ ha
  · exact hdigit _ _ hb
  · exact hdigit _ _ hc
  · exact hdigit _ _ hd

end Hex4

/-! ### Lemmas on values -/

theorem digitsValue_concat (ds : List UInt8) (d : UInt8) :
    digitsValue (ds ++ [d]) = 10 * digitsValue ds + (d.toNat - 48) := by
  rw [digitsValue, List.reverse_append, List.map_append, List.reverse_singleton, List.map_singleton,
    List.singleton_append, Nat.ofDigits_cons, digitsValue]
  omega

theorem listed_singleton {α : Type} (e : Entry α) : listed [e] = e.bytes := by
  simp [listed]

theorem listed_cons_cons {α : Type} (e e' : Entry α) (es : List (Entry α)) :
    listed (e :: e' :: es) = e.bytes ++ 44 :: listed (e' :: es) := by
  simp [listed]

end Json
