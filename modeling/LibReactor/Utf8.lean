import LibReactor.Loop
import LibReactor.Memory

/-!
# Strings

The UTF-8 and escape functions of `string.c`. Pointers are the bytes from them on,
and a buffer is the bytes appended to it.
-/

namespace LibReactor

def stateAccept : ℕ := 0

def stateReject : ℕ := 12

/-- The byte classes and the transitions of the decoder's automaton. -/
def utf8d : List ℕ := [
  0,  0,  0,  0,  0,  0,  0,  0,  0,  0,  0,  0,  0,  0,  0,  0,  0,  0,  0,  0,  0,  0,  0,  0,  0,  0,  0,  0,
  0,  0,  0,  0,  0,  0,  0,  0,  0,  0,  0,  0,  0,  0,  0,  0,  0,  0,  0,  0,  0,  0,  0,  0,  0,  0,  0,  0,
  0,  0,  0,  0,  0,  0,  0,  0,  0,  0,  0,  0,  0,  0,  0,  0,  0,  0,  0,  0,  0,  0,  0,  0,  0,  0,  0,  0,
  0,  0,  0,  0,  0,  0,  0,  0,  0,  0,  0,  0,  0,  0,  0,  0,  0,  0,  0,  0,  0,  0,  0,  0,  0,  0,  0,  0,
  0,  0,  0,  0,  0,  0,  0,  0,  0,  0,  0,  0,  0,  0,  0,  0,  1,  1,  1,  1,  1,  1,  1,  1,  1,  1,  1,  1,
  1,  1,  1,  1,  9,  9,  9,  9,  9,  9,  9,  9,  9,  9,  9,  9,  9,  9,  9,  9,  7,  7,  7,  7,  7,  7,  7,  7,
  7,  7,  7,  7,  7,  7,  7,  7,  7,  7,  7,  7,  7,  7,  7,  7,  7,  7,  7,  7,  7,  7,  7,  7,  8,  8,  2,  2,
  2,  2,  2,  2,  2,  2,  2,  2,  2,  2,  2,  2,  2,  2,  2,  2,  2,  2,  2,  2,  2,  2,  2,  2,  2,  2,  2,  2,
  10, 3,  3,  3,  3,  3,  3,  3,  3,  3,  3,  3,  3,  4,  3,  3,  11, 6,  6,  6,  5,  8,  8,  8,  8,  8,  8,  8,
  8,  8,  8,  8,  0,  12, 24, 36, 60, 96, 84, 12, 12, 12, 48, 72, 12, 12, 12, 12, 12, 12, 12, 12, 12, 12, 12, 12,
  12, 0,  12, 12, 12, 12, 12, 0,  12, 0,  12, 12, 12, 24, 12, 12, 12, 12, 12, 24, 12, 24, 12, 12, 12, 12, 12, 12,
  12, 12, 12, 24, 12, 12, 12, 12, 12, 24, 12, 12, 12, 12, 12, 12, 12, 24, 12, 12, 12, 12, 12, 12, 12, 12, 12, 36,
  12, 36, 12, 12, 12, 36, 12, 12, 12, 12, 12, 36, 12, 36, 12, 12, 12, 36, 12, 12, 12, 12, 12, 12, 12, 12, 12, 12]

/-- `string_utf8_decode_code`: the next state and the next code -/
def stringUtf8DecodeCode (state code : ℕ) (byte : UInt8) : ℕ × ℕ :=
  let type := utf8d.getD byte.toNat 0
  (utf8d.getD (256 + state + type) 0,
    if state ≠ stateAccept then (byte.toNat &&& 0x3f) ||| (code <<< 6)
    else (0xff >>> type) &&& byte.toNat)

/-- The loop of `string_utf8_get` with `n` bytes to go to the end it is given. -/
def utf8GetLoop (state code : ℕ) : ℕ → Bytes → Except Fault (ℕ × Bytes)
  | 0, p => .ok (code, p)
  | _ + 1, [] => .error .outside
  | n + 1, c :: p =>
    let (state, code) := stringUtf8DecodeCode state code c
    if state = stateAccept then .ok (code, p)
    else if state = stateReject ∨ n = 0 then .ok (0xfffd, p)
    else utf8GetLoop state code n p

/-- `string_utf8_get(p, p + n, &p)` -/
def stringUtf8Get (p : Bytes) (n : ℕ) : Except Fault (ℕ × Bytes) := utf8GetLoop stateAccept 0 n p

def utf8LengthTurn : Bytes × ℕ → Except Fault (ℕ ⊕ (Bytes × ℕ))
  | ([], length) => .ok (.inl length)
  | (c :: p, length) => do
    let (_, q) ← stringUtf8Get (c :: p) (p.length + 1)
    return .inr (q, length + 1)

def stringUtf8Length (s : Bytes) : Except Fault ℕ :=
  Loop.within .hang utf8LengthTurn (s.length + 1) (s, 0)

def stringUtf8Regular (c : UInt8) : Bool :=
  !(c == quote) && !(c == backslash) && !(c < 0x20) && !(0x80 ≤ c)

def byte (n : ℕ) : UInt8 := UInt8.ofNat n

def stringUtf8Put (code : ℕ) : Bytes :=
  if code < 0x80 then [byte code]
  else if code < 0x800 then [byte (0xc0 ||| (code >>> 6)), byte (0x80 ||| (code &&& 0x3f))]
  else if code < 0x10000 then
    [byte (0xe0 ||| (code >>> 12)), byte (0x80 ||| ((code >>> 6) &&& 0x3f)),
      byte (0x80 ||| (code &&& 0x3f))]
  else
    [byte (0xf0 ||| (code >>> 18)), byte (0x80 ||| ((code >>> 12) &&& 0x3f)),
      byte (0x80 ||| ((code >>> 6) &&& 0x3f)), byte (0x80 ||| (code &&& 0x3f))]

/-- `string_utf8_get_encoded_basic`, whose tests read no further than the first that fails. -/
def stringUtf8GetEncodedBasic (p : Bytes) : Except Fault (ℕ × Bytes) := do
  if (← peek p) ≠ backslash then
    return (0, p)
  if (← peek (p.drop 1)) ≠ ch 'u' then
    return (0, p)
  let a ← peek (p.drop 2)
  if !isxdigit a then
    return (0, p)
  let b ← peek (p.drop 3)
  if !isxdigit b then
    return (0, p)
  let c ← peek (p.drop 4)
  if !isxdigit c then
    return (0, p)
  let d ← peek (p.drop 5)
  if !isxdigit d then
    return (0, p)
  return (digitValue a <<< 12 ||| digitValue b <<< 8 ||| digitValue c <<< 4 ||| digitValue d,
    p.drop 6)

def stringUtf8GetEncoded (p : Bytes) : Except Fault (ℕ × Bytes) := do
  let (w1, q) ← stringUtf8GetEncodedBasic p
  if q.length < p.length then
    if 0xdc00 ≤ w1 ∧ w1 < 0xe000 then
      return (0, p)
    if 0xd800 ≤ w1 ∧ w1 < 0xdc00 then
      let (w2, q) ← stringUtf8GetEncodedBasic q
      if 0xdc00 ≤ w2 ∧ w2 < 0xe000 then
        return (0x10000 ||| ((w1 &&& 0x3ff) <<< 10) ||| (w2 &&& 0x3ff), q)
      return (0, p)
    return (w1, q)
  return (0, q)

def hexDigit (n : ℕ) : UInt8 := (str "0123456789abcdef").getD n 0

def stringUtf8PutEncodedBasic (code : ℕ) : Bytes :=
  [backslash, ch 'u', hexDigit (code >>> 12), hexDigit ((code >>> 8) &&& 0x0f),
    hexDigit ((code >>> 4) &&& 0x0f), hexDigit (code &&& 0x0f)]

def stringUtf8PutEncoded (code : ℕ) : Bytes :=
  if 0x10000 ≤ code then
    let code := code - 0x10000
    stringUtf8PutEncodedBasic (0xd800 ||| (code >>> 10)) ++
      stringUtf8PutEncodedBasic (0xdc00 ||| (code &&& 0x3ff))
  else stringUtf8PutEncodedBasic code

def upTo (p q : Bytes) : Bytes := p.take (p.length - q.length)

theorem upTo_append (w r : Bytes) : upTo (w ++ r) r = w := by
  simp [upTo]

/-- The escapes `string_utf8_encode` writes for bytes below 0x80 that are not regular. -/
def escapeByte (c : UInt8) : Bytes :=
  if c = quote then [backslash, quote]
  else if c = backslash then [backslash, backslash]
  else if c = 12 then [backslash, ch 'f']
  else if c = lf then [backslash, ch 'n']
  else if c = cr then [backslash, ch 'r']
  else if c = tab then [backslash, ch 't']
  else stringUtf8PutEncodedBasic c.toNat

def encodeTurn (ascii : Bool) : Bytes × Bytes → Except Fault (Bytes ⊕ (Bytes × Bytes))
  | ([], buffer) => .ok (.inl buffer)
  | (c :: p, buffer) => do
    if stringUtf8Regular c then
      return .inr (p.dropWhile stringUtf8Regular, buffer ++ c :: p.takeWhile stringUtf8Regular)
    if 0x80 ≤ c then
      let (code, q) ← stringUtf8Get (c :: p) (p.length + 1)
      return .inr (q, buffer ++ if ascii then stringUtf8PutEncoded code else stringUtf8Put code)
    return .inr (p, buffer ++ escapeByte c)

def stringUtf8Encode (s : Bytes) (ascii : Bool) : Except Fault Bytes :=
  Loop.within .hang (encodeTurn ascii) (s.length + 1) (s, [])

def unescapeByte (c : UInt8) : Option UInt8 :=
  if c = quote then some quote
  else if c = backslash then some backslash
  else if c = ch '/' then some (ch '/')
  else if c = ch 'b' then some 8
  else if c = ch 'f' then some 12
  else if c = ch 'n' then some lf
  else if c = ch 'r' then some cr
  else if c = ch 't' then some tab
  else none

/-- The body of the loop in `string_utf8_decode`: the new pointer and the bytes appended. -/
def decodeStep (p : Bytes) : Except Fault (Bytes × Bytes) := do
  let c ← peek p
  if stringUtf8Regular c then
    let q ← skipWhile stringUtf8Regular p.tail
    return (q, upTo p q)
  if 0x80 ≤ c then
    let (code, q) ← stringUtf8Get p 4
    return (q, stringUtf8Put code)
  if c = backslash then
    let e ← peek p.tail
    if e = ch 'u' then
      let (code, q) ← stringUtf8GetEncoded p
      return (q, stringUtf8Put code)
    match unescapeByte e with
    | some b => return (p.drop 2, [b])
    | none => return (p, [])
  return (p, [])

/-- One turn of `string_utf8_decode`, which leaves when the pointer has not moved. -/
def decodeTurn : Bytes × Bytes → Except Fault ((Bytes × Bytes) ⊕ (Bytes × Bytes))
  | (p, buffer) => do
    let (q, appended) ← decodeStep p
    return if q.length = p.length then .inl (buffer ++ appended, q) else .inr (q, buffer ++ appended)

/-- `string_utf8_decode`: the string and the end -/
def stringUtf8Decode (p : Bytes) : Except Fault (Bytes × Bytes) :=
  Loop.within .hang decodeTurn (p.length + 1) (p, [])

end LibReactor
