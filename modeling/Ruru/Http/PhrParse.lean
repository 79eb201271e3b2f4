import Ruru.Lib.Parsing
import Ruru.Libc

/-!
# Ruru.Http.PhrParse — `phr_parse_request` of picohttpparser

The parser of `picohttpparser.c`, function by function.  A pointer into the request is its offset;
`*ret = -2` (the request is partial) is the `eof` failure of `Parsing.Parser`, `*ret = -1` the
other one.  The vectorised scans of the source (`findchar_fast`, the unrolled loop of
`get_token_to_eol`) skip only bytes the plain loops skip, so the plain loops are the model.
-/

namespace Ruru.Http

open Parsing Parsing.Parser

/-- A parser over the bytes of a request; the error is what `*ret` is set to. -/
abbrev Phr (α : Type) := Parser UInt8 ℤ α

def LF : UInt8 := 10
def CR : UInt8 := 13
def SP : UInt8 := 32
def HT : UInt8 := 9

/-- `struct phr_header`; `name` is NULL on a continuation line. -/
structure PhrHeader where
  name : Option ℕ
  nameLen : ℕ
  value : ℕ
  valueLen : ℕ
deriving DecidableEq, Repr

/-- What `phr_parse_request` returns and stores through its out-parameters. -/
structure PhrRequest where
  method : ℕ
  methodLen : ℕ
  path : ℕ
  pathLen : ℕ
  minorVersion : ℕ
  headers : List PhrHeader
deriving DecidableEq, Repr

/-- `token_char_map`, its first 128 entries; the others are 0. -/
def tokenCharMap : List ℕ :=
  [0, 0, 0, 0, 0, 0, 0, 0, 0, 0, 0, 0, 0, 0, 0, 0, 0, 0, 0, 0, 0, 0, 0, 0, 0, 0, 0, 0, 0, 0, 0, 0,
   0, 1, 0, 1, 1, 1, 1, 1, 0, 0, 1, 1, 0, 1, 1, 0, 1, 1, 1, 1, 1, 1, 1, 1, 1, 1, 0, 0, 0, 0, 0, 0,
   0, 1, 1, 1, 1, 1, 1, 1, 1, 1, 1, 1, 1, 1, 1, 1, 1, 1, 1, 1, 1, 1, 1, 1, 1, 1, 1, 0, 0, 0, 1, 1,
   1, 1, 1, 1, 1, 1, 1, 1, 1, 1, 1, 1, 1, 1, 1, 1, 1, 1, 1, 1, 1, 1, 1, 1, 1, 1, 1, 0, 1, 0, 1, 0]

def isTokenChar (b : UInt8) : Bool := tokenCharMap.getD b.toNat 0 == 1

/-- A control character other than HT, or DEL: what ends a header value. -/
def isEolCtl (b : UInt8) : Bool := (b < 32 && b != HT) || b == 127

/-- A control character or DEL: what `ADVANCE_TOKEN` rejects. -/
def isCtl (b : UInt8) : Bool := b < 32 || b == 127

def isBlank (b : UInt8) : Bool := b == SP || b == HT

/-- `*ret = -1; return NULL` under a condition. -/
def failIf (P : Prop) [Decidable P] : Phr Unit := if P then fail (-1) else pure ()

/-- `EXPECT_CHAR`. -/
def expectChar (ch : UInt8) : Phr Unit := do
  let b ← next (-2)
  failIf (b ≠ ch)

/-- `parse_token`: the bytes before `nextChar`, all of them token characters. -/
def parseToken (nextChar : UInt8) : Phr (List UInt8) :=
  scan (-2) (-1) (· == nextChar) (fun b => !isTokenChar b)

/-- `ADVANCE_TOKEN`: the bytes before the next space. -/
def advanceToken : Phr (List UInt8) := scan (-2) (-1) (· == SP) isCtl

/-- `do { ++buf; CHECK_EOF(); } while (*buf == ' ')`. -/
def skipSpaces : Phr Unit := do
  let _ ← next (-2)
  let _ ← scan (-2) (-1) (· != SP) (fun _ => false)

/-- The loop over the blanks between `:` and the value. -/
def skipBlanks : Phr Unit := do
  let _ ← scan (-2) (-1) (fun b => !isBlank b) (fun _ => false)

/-- The line end after a value or after the request line: CR LF or LF. -/
def lineEnd : Phr Unit := do
  let b ← next (-2)
  if b = CR then expectChar LF else failIf (b ≠ LF)

/-- `get_token_to_eol`: where the token starts and its bytes. -/
def getTokenToEol : Phr (ℕ × List UInt8) := do
  let start ← offset
  let token ← scan (-2) (-1) isEolCtl (fun _ => false)
  let _ ← lineEnd
  pure (start, token)

/-- The length of a value without its trailing blanks. -/
def trimmedLen (token : List UInt8) : ℕ := (token.reverse.dropWhile isBlank).length

/-- `PARSE_INT(minor_version, 1)`. -/
def parseInt : Phr ℕ := do
  let b ← next (-2)
  let _ ← failIf (b < 48 ∨ 57 < b)
  pure (b.toNat - 48)

/-- `parse_http_version`. -/
def parseHttpVersion : Phr ℕ := do
  let _ ← need (-2) 9
  let _ ← expectChar 72
  let _ ← expectChar 84
  let _ ← expectChar 84
  let _ ← expectChar 80
  let _ ← expectChar 47
  let _ ← expectChar 49
  let _ ← expectChar 46
  parseInt

/-- The name of a header line: NULL on a continuation line. -/
def headerName (continuation : Bool) : Phr (Option ℕ × ℕ) :=
  if continuation = true then pure (none, 0)
  else do
    let name ← offset
    let token ← parseToken 58
    let _ ← failIf (token.length = 0)
    let _ ← next (-2)
    let _ ← skipBlanks
    pure (some name, token.length)

/-- One header line of `parse_headers`. -/
def headerLine (continuation : Bool) : Phr PhrHeader := do
  let name ← headerName continuation
  let value ← getTokenToEol
  pure ⟨name.1, name.2, value.1, trimmedLen value.2⟩

/-- `parse_headers`, with room for `room` more headers behind `headers`. -/
def parseHeaders : ℕ → List PhrHeader → Phr (List PhrHeader)
  | 0, headers => do
    let b ← peek (-2)
    if b = CR ∨ b = LF then lineEnd >>= fun _ => pure headers
    else fail (-1)
  | room + 1, headers => do
    let b ← peek (-2)
    if b = CR ∨ b = LF then lineEnd >>= fun _ => pure headers
    else do
      let header ← headerLine (headers.length != 0 && isBlank b)
      parseHeaders room (headers ++ [header])

/-- The empty line that may precede the request line. -/
def skipEmptyLine : Phr Unit := do
  let b ← peek (-2)
  if b = CR ∨ b = LF then lineEnd else pure ()

/-- `parse_request`. -/
def parseRequest (maxHeaders : ℕ) : Phr PhrRequest := do
  let _ ← skipEmptyLine
  let method ← offset
  let methodToken ← parseToken SP
  let _ ← skipSpaces
  let path ← offset
  let pathToken ← advanceToken
  let _ ← skipSpaces
  let _ ← failIf (methodToken.length = 0 ∨ pathToken.length = 0)
  let minorVersion ← parseHttpVersion
  let _ ← lineEnd
  let headers ← parseHeaders maxHeaders []
  pure ⟨method, methodToken.length, path, pathToken.length, minorVersion, headers⟩

/-- The loop of `is_complete`, with `retCnt` line ends seen in a row. -/
def isCompleteLoop (retCnt : ℕ) : List UInt8 → Except ℤ Unit
  | [] => .error (-2)
  | b :: rest =>
    if b = CR then
      match rest with
      | [] => .error (-2)
      | b' :: rest' =>
        if b' ≠ LF then .error (-1)
        else if retCnt + 1 = 2 then .ok ()
        else isCompleteLoop (retCnt + 1) rest'
    else if b = LF then
      if retCnt + 1 = 2 then .ok () else isCompleteLoop (retCnt + 1) rest
    else isCompleteLoop 0 rest

/-- `is_complete`: a blank line in `buf` from `lastLen - 3` on. -/
def isComplete (buf : List UInt8) (lastLen : ℕ) : Except ℤ Unit :=
  isCompleteLoop 0 (if lastLen < 3 then buf else buf.drop (lastLen - 3))

/-- `phr_parse_request`: the number of bytes consumed with the request, or -1 or -2. -/
def phrParseRequest (buf : List UInt8) (maxHeaders lastLen : ℕ) : Except ℤ (ℕ × PhrRequest) :=
  match if lastLen ≠ 0 then isComplete buf lastLen else .ok () with
  | .error ret => .error ret
  | .ok () => match (parseRequest maxHeaders).run ⟨0, buf⟩ with
    | .error ret => .error ret
    | .ok (request, c) => .ok (c.pos, request)

end Ruru.Http
