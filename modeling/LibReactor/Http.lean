import LibReactor.Loop
import LibReactor.Stream
import Mathlib.Data.Int.Notation

/-!
# HTTP requests

`http.c` from the input buffer to a request. The header parser is a parameter:
it reports a header's length, its request line and its fields, for the number
of fields the caller has room for. All pointers into the input count from the
first unread byte.
-/

namespace LibReactor

/-- `data_t`: the bytes `[base, base + size)` of the unread input -/
structure Data where
  base : ℕ
  size : ℕ
  deriving DecidableEq, Repr

namespace Data

def null : Data := ⟨0, 0⟩

def bytes (d : Data) (input : Bytes) : Bytes := (input.drop d.base).take d.size

def equal (d : Data) (input literal : Bytes) : Bool :=
  d.size == literal.length && d.bytes input == literal

def equalCase (d : Data) (input literal : Bytes) : Bool :=
  d.size == literal.length && LibReactor.equalCase (d.bytes input) literal

/-- `data_offset` the other way round: the data of a pointer that was moved by `n`. -/
def shift (d : Data) (n : ℕ) : Data := ⟨n + d.base, d.size⟩

end Data

structure HttpField where
  name : Data
  value : Data
  deriving DecidableEq, Repr

/-- What `phr_parse_request` returns and stores. -/
structure Parsed where
  ret : ℤ
  method : Data
  target : Data
  fields : List HttpField
  deriving DecidableEq, Repr

abbrev Parser := Bytes → Parsed

structure Request where
  method : Data
  target : Data
  /-- `none` is `data_null()` -/
  body : Option Data
  fields : List HttpField
  deriving DecidableEq, Repr

/-- `(ssize_t) n` of a 64-bit value -/
def ssize (n : ℕ) : ℤ := Int.bmod n (2 ^ 64)

def usize (n : ℤ) : ℕ := (n % 2 ^ 64).toNat

theorem ssize_of_lt {n : ℕ} (h : n < 2 ^ 63) : ssize n = n := by
  unfold ssize
  rw [Int.bmod_def]
  omega

/-! ## Chunks -/

/-- `p[-1]` -/
def behind (start p : Bytes) : UInt8 := (start[start.length - p.length - 1]?).getD nul

/-- `http_chunk_size` from the test of the line's last byte on. -/
def httpChunkSizeEnd (start digits p : Bytes) : Except Fault (ℤ × ℕ) := do
  let c ← peek p
  if c ≠ lf then
    return (-1, 0)
  let size := strtoul 16 digits
  if size = 2 ^ 64 - 1 then
    return (-1, size)
  return ((start.length - p.tail.length : ℕ), size)

def httpChunkSize (input : Bytes) : Except Fault (ℤ × ℕ) := do
  if lf ∉ input then
    return (0, 0)
  let digits ← skipWhile isblank input
  let p ← skipWhile isxdigit digits
  if p.length = digits.length then
    return (-1, 0)
  let p ← skipWhile isblank p
  let c ← peek p
  if c = ch ';' then
    let p ← skipWhile (fun c => c != lf) p
    if behind input p ≠ cr then
      return (-1, 0)
    httpChunkSizeEnd input digits p
  else if c ≠ cr then
    return (-1, 0)
  else
    httpChunkSizeEnd input digits p.tail

def httpChunk (input : Bytes) : Except Fault (ℤ × Data) := do
  let (n, chunkSize) ← httpChunkSize input
  if n ≤ 0 then
    return (n, .null)
  let n := n.toNat
  if input.length < n + 2 then
    return (0, .null)
  if input.length - n - 2 < chunkSize then
    return (0, .null)
  return (ssize (chunkSize + n + 2), ⟨n, chunkSize⟩)

/-- One turn of the loop that looks for the last chunk. -/
def dechunkScan (input : Bytes) (offset : ℕ) : Except Fault (ℤ ⊕ ℕ) := do
  let (n, chunk) ← httpChunk (input.drop offset)
  if n ≤ 0 then
    return .inl n
  let offset := usize (offset + n)
  return if chunk.size = 0 then .inl (ssize offset) else .inr offset

structure Dechunk where
  input : Bytes
  offset : ℕ
  chunk : Data
  dechunked : Data
  deriving DecidableEq, Repr

def dechunkMove (d : Dechunk) : Except Fault (Dechunk ⊕ Dechunk) := do
  let (n, c) ← httpChunk (d.input.drop d.offset)
  let chunk := if 0 < n then c.shift d.offset else d.chunk
  let d := {
    input := memmove d.input (d.dechunked.base + d.dechunked.size) chunk.base chunk.size
    offset := usize (d.offset + n)
    chunk := chunk
    dechunked := ⟨d.dechunked.base, d.dechunked.size + chunk.size⟩ }
  return if chunk.size = 0 then .inl d else .inr d

/-- `http_dechunk`, with the input as it leaves it. -/
def httpDechunk (input : Bytes) : Except Fault (ℤ × Data × Bytes) := do
  let n ← Loop.within .hang (dechunkScan input) (input.length + 1) 0
  if n ≤ 0 then
    return (n, .null, input)
  let d ← Loop.within .hang dechunkMove (input.length + 1) ⟨input, 0, .null, .null⟩
  return (ssize d.offset, d.dechunked, d.input)

/-! ## Requests -/

def httpFieldLookup (input : Bytes) (fields : List HttpField) (name : Bytes) : Data :=
  match fields.find? (fun f => f.name.equalCase input name) with
  | some f => f.value
  | none => .null

namespace Stream

def overwrite (s : Stream) (n : ℕ) (rest : Bytes) : Stream :=
  { s with input := { s.input with data := s.input.data.take (s.inputConsumed + n) ++ rest } }

end Stream

/-- `http_read_request`: its result, and the request and the stream as it leaves them. -/
def httpReadRequest (phr : Parser) (stream : Stream) (request : Request) :
    Except Fault (ℤ × Request × Stream) := do
  let input := stream.unread
  if input = [] then
    return (0, request, stream)
  let parsed := phr input
  let request :=
    { request with method := parsed.method, target := parsed.target, fields := parsed.fields }
  if parsed.ret ≤ 0 then
    return (if parsed.ret = -1 then -1 else 0, request, stream)
  let n := parsed.ret.toNat
  let request := { request with body := none }
  if request.method.equal input (str "GET") then
    return (1, request, stream.consume n)
  let encoding := httpFieldLookup input request.fields (str "Transfer-Encoding")
  let length := httpFieldLookup input request.fields (str "Content-Length")
  if length.size ≠ 0 then
    if encoding.size ≠ 0 then
      return (-1, request, stream)
    let size := strtoul 10 (input.drop length.base)
    if input.length < (n + size) % 2 ^ 64 then
      return (0, request, stream)
    return (1, { request with body := some ⟨n, size⟩ }, stream.consume ((n + size) % 2 ^ 64))
  if encoding.size ≠ 0 then
    if ¬ encoding.equalCase input (str "Chunked") then
      return (-1, request, stream)
    let (size, body, rest) ← httpDechunk (input.drop n)
    let stream := stream.overwrite n rest
    if size ≤ 0 then
      return (size, request, stream)
    return (1, { request with body := some (body.shift n) }, stream.consume (usize (n + size)))
  return (1, request, stream.consume n)

end LibReactor
