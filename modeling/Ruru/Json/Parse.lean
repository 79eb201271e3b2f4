import Ruru.Json.Number
import Ruru.Lib.Json

/-!
# Ruru.Json.Parse — the parser of cJSON

`cJSON_Parse` on a `parse_buffer` whose every access is checked: a read outside the buffer or a write
outside the memory allocated for a string is the fault `memory`, a text that is not accepted the
fault `refused`.  A loop that takes more rounds than it may is the fault `fuel`.
-/

namespace Ruru.CJson

/-- Why a function of the parser does not succeed. -/
inductive Fault where
  | refused
  | memory
  | fuel
deriving DecidableEq

def CJSON_NESTING_LIMIT : ℕ := 1000

/-! ### The buffer -/

/-- `parse_buffer`; its `length` is the length of `content`. -/
structure ParseBuffer where
  content : List UInt8
  offset : ℕ := 0
  depth : ℕ := 0

/-- A byte of the buffer. -/
def byteAt (content : List UInt8) (i : ℕ) : Except Fault UInt8 :=
  match content[i]? with
  | some b => .ok b
  | none => .error .memory

/-- Some bytes of the buffer. -/
def bytesAt (content : List UInt8) (i n : ℕ) : Except Fault (List UInt8) :=
  if i + n ≤ content.length then .ok ((content.drop i).take n) else .error .memory

namespace ParseBuffer

/-- `can_access_at_index(buffer, 0)`. -/
def canAccess (b : ParseBuffer) : Bool := b.offset < b.content.length

/-- `can_access_at_index(buffer, 0) && buffer_at_offset(buffer)[0] == c`. -/
def startsWith (b : ParseBuffer) (c : UInt8) : Bool := b.content[b.offset]? == some c

/-- `can_read(buffer, n) && strncmp(buffer_at_offset(buffer), text, n) == 0`, for a text of `n`
bytes. -/
def reads (b : ParseBuffer) (text : List UInt8) : Bool :=
  b.offset + text.length ≤ b.content.length && (b.content.drop b.offset).take text.length == text

/-- `buffer->offset += n`. -/
def advance (b : ParseBuffer) (n : ℕ) : ParseBuffer := { b with offset := b.offset + n }

/-- `buffer->offset--`. -/
def retreat (b : ParseBuffer) : ParseBuffer := { b with offset := b.offset - 1 }

/-- `buffer_skip_whitespace`: it stops at the last byte of the buffer. -/
def skipWhitespace (b : ParseBuffer) : ParseBuffer :=
  if b.canAccess then
    let blanks := (b.content.drop b.offset).takeWhile (· ≤ 32)
    let b := b.advance blanks.length
    if b.offset = b.content.length then b.retreat else b
  else b

/-- `skip_utf8_bom`, at the start of the buffer. -/
def skipUtf8Bom (b : ParseBuffer) : ParseBuffer :=
  if b.offset + 4 < b.content.length ∧ b.reads [0xEF, 0xBB, 0xBF] then b.advance 3 else b

end ParseBuffer

/-! ### Numbers -/

/-- The bytes `parse_number` copies. -/
def isNumberByte (b : UInt8) : Bool :=
  isDigit b || b == 43 || b == 45 || b == 101 || b == 69 || b == 46

/-- `parse_number`: at most 63 bytes are copied and handed to `strtod`. -/
def parseNumber (b : ParseBuffer) : Except Fault (Double × ParseBuffer) :=
  let text := ((b.content.drop b.offset).take 63).takeWhile isNumberByte
  let number := strtod text
  if number.2 = 0 then .error .refused else .ok (number.1, b.advance number.2)

/-! ### Strings -/

/-- A hexadecimal digit. -/
def hexDigit (b : UInt8) : Option ℕ :=
  if 48 ≤ b ∧ b ≤ 57 then some (b.toNat - 48)
  else if 65 ≤ b ∧ b ≤ 70 then some (10 + b.toNat - 65)
  else if 97 ≤ b ∧ b ≤ 102 then some (10 + b.toNat - 97)
  else none

/-- `parse_hex4` of four bytes; 0 if one of them is no digit. -/
def parseHex4 (input : List UInt8) : ℕ :=
  (input.foldlM (fun h b => (hexDigit b).map fun d => h <<< 4 + d) 0).getD 0

/-- The bytes that the loop of `utf16_literal_to_utf8` stores from position `n` down to 1, and what is
left of the code point. -/
def continuationBytes : ℕ → ℕ → ℕ × List UInt8
  | 0, codepoint => (codepoint, [])
  | n + 1, codepoint =>
    let r := continuationBytes n (codepoint >>> 6)
    (r.1, r.2 ++ [.ofNat ((codepoint ||| 0x80) &&& 0xBF)])

/-- The code point in `utf8Length` bytes. -/
def utf8Bytes (utf8Length firstByteMark codepoint : ℕ) : List UInt8 :=
  let r := continuationBytes (utf8Length - 1) codepoint
  .ofNat (if 1 < utf8Length then (r.1 ||| firstByteMark) &&& 0xFF else r.1 &&& 0x7F) :: r.2

/-- The end of `utf16_literal_to_utf8`: the code point in UTF-8. -/
def encodeUtf8 (codepoint : ℕ) : Except Fault (List UInt8) :=
  if codepoint < 0x80 then .ok (utf8Bytes 1 0 codepoint)
  else if codepoint < 0x800 then .ok (utf8Bytes 2 0xC0 codepoint)
  else if codepoint < 0x10000 then .ok (utf8Bytes 3 0xE0 codepoint)
  else if codepoint ≤ 0x10FFFF then .ok (utf8Bytes 4 0xF0 codepoint)
  else .error .refused

/-- `utf16_literal_to_utf8` at the offset `p`: `sequence_length`, and what is stored. -/
def utf16LiteralToUtf8 (content : List UInt8) (p inputEnd : ℕ) : Except Fault (ℕ × List UInt8) := do
  if inputEnd < p + 6 then .error .refused
  else
    let firstCode := parseHex4 (← bytesAt content (p + 2) 4)
    if 0xDC00 ≤ firstCode ∧ firstCode ≤ 0xDFFF then .error .refused
    else if 0xD800 ≤ firstCode ∧ firstCode ≤ 0xDBFF then
      if inputEnd < p + 12 then .error .refused
      else
        let escape ← bytesAt content (p + 6) 2
        if escape ≠ [92, 117] then .error .refused
        else
          let secondCode := parseHex4 (← bytesAt content (p + 8) 4)
          if secondCode < 0xDC00 ∨ 0xDFFF < secondCode then .error .refused
          else
            let utf8 ← encodeUtf8 (0x10000 + ((firstCode &&& 0x3FF) <<< 10 ||| secondCode &&& 0x3FF))
            .ok (12, utf8)
    else
      let utf8 ← encodeUtf8 firstCode
      .ok (6, utf8)

/-- The first loop of `parse_string`, on what follows the quote: how far it is to the closing quote,
and `skipped_bytes`. -/
def stringEnd : List UInt8 → Option (ℕ × ℕ)
  | [] => none
  | b :: rest =>
    if b = 34 then some (0, 0)
    else if b = 92 then
      match rest with
      | [] => none
      | _ :: rest => (stringEnd rest).map fun r => (r.1 + 2, r.2 + 1)
    else (stringEnd rest).map fun r => (r.1 + 1, r.2)

/-- The escape sequences of two bytes. -/
def simpleEscape (b : UInt8) : Option UInt8 :=
  if b = 98 then some 8
  else if b = 102 then some 12
  else if b = 110 then some 10
  else if b = 114 then some 13
  else if b = 116 then some 9
  else if b = 34 ∨ b = 92 ∨ b = 47 then some b
  else none

/-- Storing `bytes` behind `output`, in a memory of `size` bytes. -/
def store (size : ℕ) (output bytes : List UInt8) : Except Fault (List UInt8) :=
  if output.length + bytes.length ≤ size then .ok (output ++ bytes) else .error .memory

/-- A round of the second loop of `parse_string`: the offset and the output afterwards. -/
def unescapeStep (content : List UInt8) (inputEnd size p : ℕ) (output : List UInt8) :
    Except Fault (ℕ × List UInt8) := do
  let c ← byteAt content p
  if c ≠ 92 then
    let output ← store size output [c]
    .ok (p + 1, output)
  else
    let e ← byteAt content (p + 1)
    match simpleEscape e with
    | some d =>
      let output ← store size output [d]
      .ok (p + 2, output)
    | none =>
      if e = 117 then
        let r ← utf16LiteralToUtf8 content p inputEnd
        let output ← store size output r.2
        .ok (p + r.1, output)
      else .error .refused

/-- The second loop of `parse_string`, and the NUL behind the output. -/
def unescape (content : List UInt8) (inputEnd size : ℕ) :
    ℕ → ℕ → List UInt8 → Except Fault (List UInt8)
  | 0, _, _ => .error .fuel
  | fuel + 1, p, output =>
    if p < inputEnd then do
      let r ← unescapeStep content inputEnd size p output
      unescape content inputEnd size fuel r.1 r.2
    else do
      let _ ← store size output [0]
      .ok output

/-- `parse_string`: the bytes of `valuestring` before the final NUL. -/
def parseString (b : ParseBuffer) : Except Fault (List UInt8 × ParseBuffer) := do
  let c ← byteAt b.content b.offset
  if c ≠ 34 then .error .refused
  else
    match stringEnd (b.content.drop (b.offset + 1)) with
    | none => .error .refused
    | some (n, skippedBytes) =>
      let inputEnd := b.offset + 1 + n
      let allocationLength := inputEnd - b.offset - skippedBytes
      let output ← unescape b.content inputEnd (allocationLength + 1) (n + 1) (b.offset + 1) []
      .ok (output, { b with offset := inputEnd + 1 })

/-! ### Arrays and objects -/

section Items

variable {α : Type} (element : ParseBuffer → Except Fault (α × ParseBuffer))

/-- The loop over the elements behind the byte the buffer stands at, which is the opening bracket or
a comma. -/
def parseElements : ℕ → ParseBuffer → List α → Except Fault (List α × ParseBuffer)
  | 0, _, _ => .error .fuel
  | fuel + 1, b, items => do
    let r ← element (b.advance 1).skipWhitespace
    let b := r.2.skipWhitespace
    if b.startsWith 44 then parseElements fuel b (items ++ [r.1]) else .ok (items ++ [r.1], b)

/-- What `parse_array` and `parse_object` do from the opening bracket on. -/
def parseItems (closing : UInt8) (b : ParseBuffer) : Except Fault (List α × ParseBuffer) := do
  let b := (b.advance 1).skipWhitespace
  if b.startsWith closing then .ok ([], { b.advance 1 with depth := b.depth - 1 })
  else if !b.canAccess then .error .refused
  else
    let r ← parseElements element b.content.length b.retreat []
    let b := r.2
    if b.startsWith closing then .ok (r.1, { b.advance 1 with depth := b.depth - 1 })
    else .error .refused

end Items

section Values

variable (parseValue : ParseBuffer → Except Fault (Json Double × ParseBuffer))

/-- `parse_array`. -/
def parseArray (b : ParseBuffer) : Except Fault (Json Double × ParseBuffer) := do
  if CJSON_NESTING_LIMIT ≤ b.depth then .error .refused
  else
    let b := { b with depth := b.depth + 1 }
    let c ← byteAt b.content b.offset
    if c ≠ 91 then .error .refused
    else
      let r ← parseItems parseValue 93 b
      .ok (.array r.1, r.2)

/-- The body of the loop of `parse_object`: the name of a child, a colon and its value. -/
def parseMember (b : ParseBuffer) : Except Fault ((List UInt8 × Json Double) × ParseBuffer) := do
  let name ← parseString b
  let b := name.2.skipWhitespace
  if !b.startsWith 58 then .error .refused
  else
    let value ← parseValue (b.advance 1).skipWhitespace
    .ok ((name.1, value.1), value.2)

/-- `parse_object`. -/
def parseObject (b : ParseBuffer) : Except Fault (Json Double × ParseBuffer) := do
  if CJSON_NESTING_LIMIT ≤ b.depth then .error .refused
  else
    let b := { b with depth := b.depth + 1 }
    if !b.startsWith 123 then .error .refused
    else
      let r ← parseItems (parseMember parseValue) 125 b
      .ok (.object r.1, r.2)

end Values

/-! ### Values -/

def nullText : List UInt8 := [110, 117, 108, 108]
def falseText : List UInt8 := [102, 97, 108, 115, 101]
def trueText : List UInt8 := [116, 114, 117, 101]

/-- `parse_value`, for values nested at most `fuel` deep. -/
def parseValue : ℕ → ParseBuffer → Except Fault (Json Double × ParseBuffer)
  | 0, _ => .error .fuel
  | fuel + 1, b =>
    if b.reads nullText then .ok (.null, b.advance 4)
    else if b.reads falseText then .ok (.bool false, b.advance 5)
    else if b.reads trueText then .ok (.bool true, b.advance 4)
    else if b.startsWith 34 then do
      let r ← parseString b
      .ok (.string r.1, r.2)
    else if b.startsWith 45 || (b.content[b.offset]?).any isDigit then do
      let r ← parseNumber b
      .ok (.number r.1, r.2)
    else if b.startsWith 91 then parseArray (parseValue fuel) b
    else if b.startsWith 123 then parseObject (parseValue fuel) b
    else .error .refused

/-- `cJSON_ParseWithLengthOpts(value, buffer_length, NULL, 0)`. -/
def parseWithLength (content : List UInt8) : Except Fault (Json Double) := do
  let b : ParseBuffer := { content := content }
  if content = [] then .error .refused
  else
    let r ← parseValue (CJSON_NESTING_LIMIT + 1) b.skipUtf8Bom.skipWhitespace
    .ok r.1

/-- `cJSON_Parse` of a string, which is followed by its NUL. -/
def cJsonParse (value : List UInt8) : Except Fault (Json Double) := parseWithLength (value ++ [0])

attribute [irreducible] CJSON_NESTING_LIMIT

end Ruru.CJson
