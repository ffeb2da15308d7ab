import LibReactor.Http
import LibReactor.Incremental
import Mathlib.Data.List.DropRight

/-!
# The request parser

`picohttpparser.c` as far as `phr_parse_request` calls it, with and without its SSE4.2
code. The memory is the input with some bytes behind it, and reading behind these is a
fault. Positions count from `buf_start`.
-/

namespace LibReactor.Phr

open Incremental

/-- Why a parser returns `NULL`: `*ret` is -1 or -2, or the parser does not return at all. -/
inductive Stop
  | invalid
  | incomplete
  | fault (f : Fault)
  deriving DecidableEq, Repr

structure Head where
  method : Data
  path : Data
  minorVersion : ℤ
  headers : List HttpField
  deriving DecidableEq, Repr

def Head.init : Head := ⟨.null, .null, -1, []⟩

abbrev Parse (α : Type) := Reader UInt8 Head Stop α

abbrev del : UInt8 := 127

def checkEof : Parse Unit := .checkEnd .incomplete

def deref : Parse UInt8 := .current (.fault .outside)

def incr : Parse Unit := .advance (.fault .outside)

def invalid {α : Type} : Parse α := .fail .invalid

def expectCharNoCheck (ch : UInt8) : Parse Unit := do
  let c ← deref
  if c ≠ ch then invalid else incr

def expectChar (ch : UInt8) : Parse Unit := do
  checkEof
  expectCharNoCheck ch

def isPrintableAscii (c : UInt8) : Bool := c.toUInt32 - 32 < 95

def tokenCharMap : List UInt8 :=
  [0, 0, 0, 0, 0, 0, 0, 0, 0, 0, 0, 0, 0, 0, 0, 0, 0, 0, 0, 0, 0, 0, 0, 0, 0, 0, 0, 0, 0, 0, 0, 0,
   0, 1, 0, 1, 1, 1, 1, 1, 0, 0, 1, 1, 0, 1, 1, 0, 1, 1, 1, 1, 1, 1, 1, 1, 1, 1, 0, 0, 0, 0, 0, 0,
   0, 1, 1, 1, 1, 1, 1, 1, 1, 1, 1, 1, 1, 1, 1, 1, 1, 1, 1, 1, 1, 1, 1, 1, 1, 1, 1, 0, 0, 0, 1, 1,
   1, 1, 1, 1, 1, 1, 1, 1, 1, 1, 1, 1, 1, 1, 1, 1, 1, 1, 1, 1, 1, 1, 1, 1, 1, 1, 1, 0, 1, 0, 1, 0] ++
  List.replicate 128 0

def isTokenChar (c : UInt8) : Bool := tokenCharMap.getD c.toNat 0 != 0

/-! ## Searching 16 bytes at a time -/

/-- `_mm_cmpestri` of 16 bytes with ranges: the first byte in a range, or 16. -/
def cmpestri (ranges : List (UInt8 × UInt8)) (b16 : Bytes) : ℕ :=
  (b16.findIdx? (fun c => ranges.any (fun r => r.1 ≤ c && c ≤ r.2))).getD 16

def findcharBlocks (ranges : List (UInt8 × UInt8)) (out : Head) :
    (left : ℕ) → ℕ → Bytes → Result UInt8 Head Stop Bool
  | 0, i, p => .ok false ⟨i, p, out⟩
  | left + 1, i, p =>
    let r := cmpestri ranges (p.take 16)
    if r ≠ 16 then .ok true ⟨i + r, p.drop r, out⟩
    else findcharBlocks ranges out left (i + 16) (p.drop 16)

/-- `findchar_fast`: whether it found a byte in the ranges -/
def findcharFast (sse : Bool) (ranges : List (UInt8 × UInt8)) : Parse Bool :=
  ⟨fun e s =>
    if sse ∧ e + 16 ≤ s.rest.length then
      findcharBlocks ranges s.out ((s.rest.length - e) / 16) s.offset s.rest
    else .ok false s⟩

def searchThen (sse : Bool) (ranges : List (UInt8 × UInt8)) (loop : Parse Unit) : Parse Unit := do
  let found ← findcharFast sse ranges
  if !found then
    checkEof
    loop
  else
    loop

/-! ## Tokens -/

def advanceTokenLoop : Parse Unit :=
  .scan (some .incomplete) (.fault .outside) .invalid (fun c => c == space)
    (fun c => !isPrintableAscii c && (c < 32 || c == del))

def ranges2 : List (UInt8 × UInt8) := [(0, 32), (127, 127)]

def advanceToken (sse : Bool) : Parse Data := do
  let tokStart ← .offset
  searchThen sse ranges2 advanceTokenLoop
  let buf ← .offset
  return ⟨tokStart, buf - tokStart⟩

/-- `do { ++buf; } while (*buf == ' ')` -/
def skipSpaces : Parse Unit := do
  incr
  .scan none (.fault .outside) .invalid (fun c => c != space) (fun _ => false)

def isCtl (c : UInt8) : Bool := (c < 32 && c != tab) || c == del

/-- The loop of `get_token_to_eol` that takes 8 bytes at a time, with `k` bytes of the block to go:
whether it goes to `FOUND_CTL`. -/
def tokenBlocks (e : ℕ) (out : Head) : (k : ℕ) → ℕ → Bytes → Result UInt8 Head Stop Bool
  | 0, i, [] => .ok false ⟨i, [], out⟩
  | _ + 1, i, [] => .error (.fault .outside) ⟨i, [], out⟩
  | 0, i, c :: p =>
    if (c :: p).length < e + 8 then .ok false ⟨i, c :: p, out⟩
    else if isPrintableAscii c then tokenBlocks e out 7 (i + 1) p
    else if isCtl c then .ok true ⟨i, c :: p, out⟩
    else tokenBlocks e out 0 (i + 1) p
  | k + 1, i, c :: p =>
    if isPrintableAscii c then tokenBlocks e out k (i + 1) p
    else if isCtl c then .ok true ⟨i, c :: p, out⟩
    else tokenBlocks e out 0 (i + 1) p

def valueRanges : List (UInt8 × UInt8) := [(0, 8), (10, 31), (127, 127)]

/-- `get_token_to_eol` up to `FOUND_CTL` -/
def findCtl (sse : Bool) : Parse Unit := do
  let found ← if sse then findcharFast sse valueRanges
    else ⟨fun e s => tokenBlocks e s.out 0 s.offset s.rest⟩
  if found then
    return
  else
    checkEof
    .scan (some .incomplete) (.fault .outside) .invalid
      (fun c => !isPrintableAscii c && isCtl c) (fun _ => false)

/-- A line end; at any other byte the parser goes on with `otherwise`. -/
def lineEnd (otherwise : Parse Unit) : Parse Unit := do
  let c ← deref
  if c = cr then
    incr
    expectChar lf
  else if c = lf then
    incr
  else
    otherwise

/-- `get_token_to_eol`: where the token ends -/
def getTokenToEol (sse : Bool) : Parse ℕ := do
  findCtl sse
  let buf ← .offset
  lineEnd invalid
  return buf

/-! ## The request line and the header fields -/

def parseHttpVersion : Parse ℤ := do
  .require .incomplete 9
  expectCharNoCheck (ch 'H')
  expectCharNoCheck (ch 'T')
  expectCharNoCheck (ch 'T')
  expectCharNoCheck (ch 'P')
  expectCharNoCheck (ch '/')
  expectCharNoCheck (ch '1')
  expectCharNoCheck (ch '.')
  let c ← deref
  if c < ch '0' ∨ ch '9' < c then
    invalid
  else
    incr
    return (c.toNat : ℤ) - 48

def isBlank (c : UInt8) : Bool := c == space || c == tab

def nameRanges : List (UInt8 × UInt8) :=
  [(0, 32), (34, 34), (40, 41), (44, 44), (47, 47), (58, 64), (91, 93), (123, 255)]

def parseNameLoop : Parse Unit :=
  .scan (some .incomplete) (.fault .outside) .invalid (fun c => c == ch ':')
    (fun c => !isTokenChar c)

def skipBlanks : Parse Unit :=
  .scan (some .incomplete) (.fault .outside) .invalid (fun c => !isBlank c) (fun _ => false)

def parseName (sse : Bool) : Parse Data := do
  let name ← .offset
  searchThen sse nameRanges parseNameLoop
  let buf ← .offset
  if buf - name = 0 then
    invalid
  else
    incr
    checkEof
    skipBlanks
    return ⟨name, buf - name⟩

/-- The value of a header, without the blanks at its end, behind its `name`. -/
def parseValue (sse : Bool) (name : Data) : Parse Unit := do
  let value ← .offset
  let (token, valueEnd) ← .span (getTokenToEol sse)
  let size := ((token.take (valueEnd - value)).rdropWhile isBlank).length
  .store (fun out => { out with headers := out.headers ++ [⟨name, ⟨value, size⟩⟩] })

/-- The body of the loop of `parse_headers`: one line with a header, or with more of the value of
the one before. -/
def parseHeader (sse : Bool) : Parse Unit := do
  let c ← deref
  let first ← .stored (fun out => out.headers.isEmpty)
  if ¬ (first = false ∧ isBlank c) then
    let name ← parseName sse
    parseValue sse name
  else
    parseValue sse .null

/-- `parse_headers` with `max_headers - *num_headers` headers to go -/
def parseHeaders (sse : Bool) : ℕ → Parse Unit
  | 0 => do
    checkEof
    lineEnd invalid
  | room + 1 => do
    checkEof
    lineEnd (do
      parseHeader sse
      parseHeaders sse room)

/-- The method and the path of a request line, with the spaces behind them. -/
def parseTargets (sse : Bool) : Parse Unit := do
  let method ← advanceToken sse
  .store (fun out => { out with method := method })
  skipSpaces
  let path ← advanceToken sse
  .store (fun out => { out with path := path })
  skipSpaces

/-- The part of `parse_request` behind the path's spaces. -/
def afterTargets (sse : Bool) (maxHeaders : ℕ) : Parse Unit := do
  let empty ← .stored (fun out => decide (out.method.size = 0 ∨ out.path.size = 0))
  if empty then
    invalid
  else
    let minor ← parseHttpVersion
    .store (fun out => { out with minorVersion := minor })
    lineEnd invalid
    parseHeaders sse maxHeaders

def parseRequest (sse : Bool) (maxHeaders : ℕ) : Parse Unit := do
  checkEof
  lineEnd (pure ())
  parseTargets sse
  afterTargets sse maxHeaders

/-! ## Complete requests -/

/-- The loop of `is_complete`: `cnt` line ends in a row, `afterCr` behind a carriage return. -/
def isCompleteFrom {σ : Type} (e : ℕ) (out : σ) : (cnt : ℕ) → (afterCr : Bool) → ℕ → Bytes →
    Result UInt8 σ Stop Unit
  | _, _, i, [] => .error (if e = 0 then .incomplete else .fault .outside) ⟨i, [], out⟩
  | cnt, afterCr, i, c :: p =>
    if (c :: p).length = e then .error .incomplete ⟨i, c :: p, out⟩
    else if afterCr ∧ c ≠ lf then .error .invalid ⟨i, c :: p, out⟩
    else if c = lf then
      if cnt + 1 = 2 then .ok () ⟨i + 1, p, out⟩ else isCompleteFrom e out (cnt + 1) false (i + 1) p
    else if c = cr then isCompleteFrom e out cnt true (i + 1) p
    else isCompleteFrom e out 0 false (i + 1) p

def isComplete {σ : Type} (e lastLen : ℕ) (s : Cursor UInt8 σ) : Result UInt8 σ Stop Unit :=
  let k := if lastLen < 3 then 0 else lastLen - 3
  if s.rest.length < k then .error (.fault .outside) s
  else isCompleteFrom e s.out 0 false (s.offset + k) (s.rest.drop k)

/-- `(int) n` of a 64-bit value -/
def cint (n : ℕ) : ℤ := Int.bmod n (2 ^ 32)

def returned {σ : Type} : Result UInt8 σ Stop Unit → Except Fault (ℤ × σ)
  | .ok _ t => .ok (cint t.offset, t.out)
  | .error .invalid t => .ok (-1, t.out)
  | .error .incomplete t => .ok (-2, t.out)
  | .error (.fault f) _ => .error f

/-- `phr_parse_request` on an input with the memory `behind` it. -/
def phrParseRequest (sse : Bool) (input behind : Bytes) (numHeaders lastLen : ℕ) :
    Except Fault (ℤ × Head) :=
  let s : Cursor UInt8 Head := ⟨0, input ++ behind, .init⟩
  match (if lastLen ≠ 0 then isComplete behind.length lastLen s else .ok () s) with
  | .ok _ _ => returned ((parseRequest sse numHeaders).run behind.length s)
  | .error r t => returned (.error r t)

end LibReactor.Phr
