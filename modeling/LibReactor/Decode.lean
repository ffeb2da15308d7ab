import LibReactor.Utf8
import LibReactor.Value

/-!
# The JSON decoder

`value_decode` with its stack of partly built values. `live` counts the heap
objects that have been made and not been released. What `strtold` makes of a
numeral, its value and whether it is out of range, is a parameter.
-/

namespace LibReactor

variable {L : Type}

/-! ## strtold -/

def skipSign : Bytes → Bytes
  | c :: p => if c = ch '-' ∨ c = ch '+' then p else c :: p
  | [] => []

def startsWith (P : UInt8 → Bool) : Bytes → Bool
  | c :: _ => P c
  | [] => false

def fractionEnd (digit : UInt8 → Bool) : Bytes → Bytes
  | c :: p => if c = ch '.' then p.dropWhile digit else c :: p
  | [] => []

/-- The end of an exponent, which counts only when it has a digit. -/
def exponentEnd (marker : UInt8 → Bool) : Bytes → Bytes
  | c :: p =>
    if marker c && startsWith isdigit (skipSign p) then (skipSign p).dropWhile isdigit else c :: p
  | [] => []

def floatEnd (digit marker : UInt8 → Bool) (p : Bytes) : Bytes :=
  exponentEnd marker (fractionEnd digit (p.dropWhile digit))

def isHexMarker (c : UInt8) : Bool := c == ch 'x' || c == ch 'X'

/-- The number after the sign: a hexadecimal one has a digit after its prefix. -/
def unsignedEnd : Bytes → Bytes
  | a :: b :: p =>
    if a = ch '0' ∧ isHexMarker b ∧
        (startsWith isxdigit p ∨ (p.head? = some (ch '.') ∧ startsWith isxdigit p.tail)) then
      floatEnd isxdigit (fun c => c == ch 'p' || c == ch 'P') p
    else floatEnd isdigit (fun c => c == ch 'e' || c == ch 'E') (a :: b :: p)
  | p => floatEnd isdigit (fun c => c == ch 'e' || c == ch 'E') p

/-- The end of the text that `strtold` takes, if it starts with a digit after an optional sign. -/
def strtoldEnd (p : Bytes) : Bytes := unsignedEnd (skipSign p)

/-! ## Literals, numbers and strings -/

def isWhitespace (c : UInt8) : Bool := c == space || c == lf || c == cr || c == tab

def valueDecodeWhitespace (p : Bytes) : Except Fault Bytes := skipWhile isWhitespace p

/-- `strncmp(p, literal, strlen(literal)) == 0` -/
def matchLiteral : Bytes → Bytes → Except Fault Bool
  | [], _ => .ok true
  | c :: literal, p => do
    let d ← peek p
    if d = c then matchLiteral literal p.tail else return false

def valueDecodeNull (p : Bytes) : Except Fault (Value L × Bytes) := do
  if ← matchLiteral (str "null") p then
    return (.null, p.drop 4)
  return (.undefined, p)

def valueDecodeBool (p : Bytes) : Except Fault (Value L × Bytes) := do
  if ← matchLiteral (str "true") p then
    return (.bool true, p.drop 4)
  if ← matchLiteral (str "false") p then
    return (.bool false, p.drop 5)
  return (.undefined, p)

def valueSkipDigits (p : Bytes) : Except Fault (Option Bytes) := do
  if !isdigit (← peek p) then
    return none
  return some (← skipWhile isdigit p.tail)

def skipInteger (p : Bytes) : Except Fault (Option Bytes) := do
  if (← peek p) = ch '0' then
    if isdigit (← peek p.tail) then
      return none
  valueSkipDigits p

def skipFraction (p : Bytes) : Except Fault (Option Bytes) := do
  if (← peek p) = ch '.' then
    valueSkipDigits p.tail
  else return some p

def skipExponent (p : Bytes) : Except Fault (Option Bytes) := do
  let c ← peek p
  if c = ch 'e' ∨ c = ch 'E' then
    let d ← peek p.tail
    skipInteger (if d = ch '-' ∨ d = ch '+' then p.tail.tail else p.tail)
  else return some p

/-- The end of the numeral that `value_decode_number` checks for. -/
def skipNumber (p : Bytes) : Except Fault (Option Bytes) := do
  let c ← peek p
  match ← skipInteger (if c = ch '-' then p.tail else p) with
  | none => return none
  | some p =>
    match ← skipFraction p with
    | none => return none
    | some p => skipExponent p

/-- `value_decode_number`; `strtold` gives the value of a numeral and whether it is out of range. -/
def valueDecodeNumber (strtold : Bytes → L × Bool) (p : Bytes) :
    Except Fault (Value L × Bytes) := do
  match ← skipNumber p with
  | none => return (.undefined, p)
  | some q =>
    let e := strtoldEnd p
    let (n, range) := strtold (upTo p e)
    return (if e.length = q.length ∧ range = false then .number n else .undefined, e)

def valueDecodeString (p : Bytes) : Except Fault (Value L × Bytes) := do
  let (s, q) ← stringUtf8Decode p.tail
  if (← peek q) ≠ quote then
    return (.undefined, p)
  return (.string s, q.tail)

/-! ## The loop -/

inductive DecodeState
  | valueStart
  | valueEnd
  | null
  | bool
  | number
  | string
  | arrayFirst
  | arrayRest
  | arrayEmpty
  | arrayEnd
  | objectFirst
  | objectMap
  | objectRest
  | objectEmpty
  | objectEnd
  | reduce
  | accept
  | reject
  deriving DecidableEq, Repr

/-- The variables of `value_decode`; the stack has its back at the head. -/
structure Decoder (L : Type) where
  state : DecodeState
  p : Bytes
  stack : List (Value L)
  value : Value L
  live : ℤ

/-- What `value_decode` returns, with the end when it sets it. -/
structure Decoded (L : Type) where
  value : Value L
  endAt : Option Bytes
  live : ℤ

/-- `*(value_t **) vector_back(&stack)` -/
def vectorBack : List (Value L) → Except Fault (Value L)
  | v :: _ => .ok v
  | [] => .error .outside

def valueStartState (c : UInt8) : DecodeState :=
  if c = ch 'n' then .null
  else if c = ch 't' ∨ c = ch 'f' then .bool
  else if isdigit c ∨ c = ch '-' then .number
  else if c = quote then .string
  else if c = ch '[' then .arrayFirst
  else if c = ch ']' then .arrayEmpty
  else if c = ch '{' then .objectFirst
  else if c = ch '}' then .objectEmpty
  else .reject

def Value.arrayAppendRelease : Value L → Value L → Value L
  | .array vs, v => .array (vs ++ [v])
  | a, _ => a

section Turn

variable (hashData : Bytes → UInt64) (strtold : Bytes → L × Bool)

/-- The states that read a literal, a number or a string. -/
def decodeScalar (read : Bytes → Except Fault (Value L × Bytes)) (d : Decoder L) :
    Except Fault (Decoder L) := do
  let (v, p) ← read d.p
  return { d with state := .valueEnd, p, value := v, live := d.live + v.objects }

/-- `STATE_ARRAY_FIRST` and `STATE_OBJECT_FIRST` -/
def decodeOpen (parent : Value L) (d : Decoder L) : Decoder L :=
  { d with
    state := .valueStart
    p := d.p.tail
    stack := parent :: d.stack
    live := d.live + parent.objects }

/-- `STATE_ARRAY_REST` and `STATE_OBJECT_REST` -/
def decodeRest (close : UInt8) (closed : DecodeState) (d : Decoder L) :
    Except Fault (Decoder L) := do
  let c ← peek d.p
  if c = ch ',' then
    return { d with state := .valueStart, p := d.p.tail }
  return { d with state := if c = close then closed else .reject }

/-- `STATE_ARRAY_EMPTY` and `STATE_OBJECT_EMPTY` -/
def decodeEmpty (empty : Value L → Bool) (closed : DecodeState) (d : Decoder L) : Decoder L :=
  match d.stack with
  | [] => { d with state := .reject }
  | parent :: _ => { d with state := if empty parent then closed else .reject }

/-- `STATE_ARRAY_END` and `STATE_OBJECT_END` -/
def decodeClose (d : Decoder L) : Except Fault (Decoder L) := do
  let parent ← vectorBack d.stack
  return { d with state := .valueEnd, p := d.p.tail, stack := d.stack.tail, value := parent }

def decodeReduce (d : Decoder L) : Except Fault (Decoder L) := do
  let parent ← vectorBack d.stack
  if parent.isArray then
    return { d with
      state := .arrayRest
      stack := parent.arrayAppendRelease d.value :: d.stack.tail
      value := .undefined }
  if parent.isObject && d.value.isString then
    return { d with state := .objectMap, stack := d.value :: d.stack, value := .undefined }
  if parent.isString then
    let key := parent
    let stack := d.stack.tail
    let parent ← vectorBack stack
    let (parent, released) ← parent.objectSetRelease hashData key.stringGet d.value
    return { d with
      state := .objectRest
      stack := parent :: stack.tail
      value := .undefined
      live := d.live - Value.objectsEntries released - key.objects }
  return { d with state := .reject }

/-- One turn of the loop in `value_decode`, after the white space. -/
def decodeState (d : Decoder L) : Except Fault (Decoded L ⊕ Decoder L) :=
  match d.state with
  | .valueStart => do
    let c ← peek d.p
    return .inr { d with state := valueStartState c }
  | .valueEnd =>
    return .inr { d with
      state :=
        if d.value.isUndefined then .reject else if d.stack.isEmpty then .accept else .reduce }
  | .null => .inr <$> decodeScalar valueDecodeNull d
  | .bool => .inr <$> decodeScalar valueDecodeBool d
  | .number => .inr <$> decodeScalar (valueDecodeNumber strtold) d
  | .string => .inr <$> decodeScalar valueDecodeString d
  | .arrayFirst => return .inr (decodeOpen (.array []) d)
  | .arrayRest => .inr <$> decodeRest (ch ']') .arrayEnd d
  | .arrayEmpty =>
    return .inr (decodeEmpty (fun v => v.isArray && v.arrayLength == 0) .arrayEnd d)
  | .arrayEnd => .inr <$> decodeClose d
  | .objectFirst => do
    let parent ← Value.newObject hashData
    return .inr (decodeOpen parent d)
  | .objectMap => do
    let c ← peek d.p
    return .inr
      (if c = ch ':' then { d with state := .valueStart, p := d.p.tail }
      else { d with state := .reject })
  | .objectRest => .inr <$> decodeRest (ch '}') .objectEnd d
  | .objectEmpty =>
    return .inr (decodeEmpty (fun v => v.isObject && v.objectSize == 0) .objectEnd d)
  | .objectEnd => .inr <$> decodeClose d
  | .reduce => .inr <$> decodeReduce hashData d
  | .accept => return .inl ⟨d.value, some d.p, d.live - Value.objectsList d.stack⟩
  | .reject =>
    return .inl ⟨.undefined, none, d.live - Value.objectsList d.stack - d.value.objects⟩

def valueDecodeTurn (d : Decoder L) : Except Fault (Decoded L ⊕ Decoder L) := do
  let p ← valueDecodeWhitespace d.p
  decodeState hashData strtold { d with p }

def valueDecode (p : Bytes) : Except Fault (Decoded L) :=
  Loop.within .hang (valueDecodeTurn hashData strtold) (8 * p.length + 8)
    ⟨.valueStart, p, [], .undefined, 0⟩

end Turn

end LibReactor
