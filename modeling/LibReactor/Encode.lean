import LibReactor.Utf8
import LibReactor.Value

/-!
# The JSON encoder

`value_encode` as a machine on a stack of arrays and objects that are being written.
How a number is printed is a parameter. A buffer is the bytes appended to it.
-/

namespace LibReactor

variable {L : Type}

/-- `context_t`: what is being written, and the keys if it is an object -/
structure Context (L : Type) where
  value : Value L
  keys : Option (Value L)
  index : ℕ

/-- `enum state` in `encode.c` -/
inductive EncodeState
  | valueStart
  | valueEnd
  | null
  | bool
  | number
  | string
  | arrayFirst
  | arrayRest
  | objectFirst
  | objectRest
  | accept
  | reject
  deriving DecidableEq, Repr

structure EncodeOptions where
  pretty : Bool
  ascii : Bool
  deriving DecidableEq, Repr

/-- The variables of `value_buffer_encode`; the back of the stack comes first. -/
structure Encoder (L : Type) where
  state : EncodeState
  value : Value L
  stack : List (Context L)
  buffer : Bytes

def contextBack : List (Context L) → Except Fault (Context L)
  | [] => .error .outside
  | context :: _ => .ok context

def newline (pretty : Bool) (depth : ℕ) : Bytes :=
  if pretty then lf :: List.replicate (depth * 2) (ch ' ') else []

def encodeStartState : Value L → EncodeState
  | .null => .null
  | .bool _ => .bool
  | .number _ => .number
  | .string _ => .string
  | .object _ => .objectFirst
  | .array _ => .arrayFirst
  | .undefined => .reject
  | .foreign => .reject

section Turn

variable (hashData : Bytes → UInt64) (print : L → Bytes) (options : EncodeOptions)

def encodeString (s : Bytes) : Except Fault Bytes := do
  return quote :: ((← stringUtf8Encode s options.ascii) ++ [quote])

def encodeClose (close : UInt8) (context : Context L) (e : Encoder L) : Encoder L :=
  let stack := e.stack.tail
  { e with
    state := .valueEnd
    stack := stack
    buffer := e.buffer ++
      ((if context.index ≠ 0 then newline options.pretty stack.length else []) ++ [close]) }

def encodeSeparator (context : Context L) (e : Encoder L) : Bytes :=
  (if context.index ≠ 0 then [ch ','] else []) ++ newline options.pretty e.stack.length

def encodeArrayRest (e : Encoder L) : Except Fault (Encoder L) := do
  let context ← contextBack e.stack
  if context.index = context.value.arrayLength then
    return encodeClose options (ch ']') context e
  let value ← context.value.arrayGet context.index
  return { e with
    state := .valueStart
    value := value
    stack := { context with index := context.index + 1 } :: e.stack.tail
    buffer := e.buffer ++ encodeSeparator options context e }

def encodeObjectRest (e : Encoder L) : Except Fault (Encoder L) := do
  let context ← contextBack e.stack
  let keys := context.keys.getD .undefined
  if context.index = keys.arrayLength then
    return encodeClose options (ch '}') context e
  let key := (← keys.arrayGet context.index).stringGet
  let text ← encodeString options key
  let value ← context.value.objectGet hashData key
  return { e with
    state := .valueStart
    value := value
    stack := { context with index := context.index + 1 } :: e.stack.tail
    buffer := e.buffer ++ (encodeSeparator options context e ++
      (text ++ (ch ':' :: if options.pretty then [ch ' '] else []))) }

def encodeValueTurn (e : Encoder L) : Except Fault ((Bool × Bytes) ⊕ Encoder L) :=
  match e.state with
  | .valueStart => return .inr { e with state := encodeStartState e.value }
  | .valueEnd =>
    match e.stack with
    | [] => return .inr { e with state := .accept }
    | context :: _ =>
      return .inr { e with state := if context.keys.isSome then .objectRest else .arrayRest }
  | .null => return .inr { e with state := .valueEnd, buffer := e.buffer ++ str "null" }
  | .bool =>
    match e.value with
    | .bool true => return .inr { e with state := .valueEnd, buffer := e.buffer ++ str "true" }
    | _ => return .inr { e with state := .valueEnd, buffer := e.buffer ++ str "false" }
  | .number =>
    match e.value with
    | .number n => return .inr { e with state := .valueEnd, buffer := e.buffer ++ print n }
    | _ => return .inr { e with state := .valueEnd }
  | .string => do
    let text ← encodeString options e.value.stringGet
    return .inr { e with state := .valueEnd, buffer := e.buffer ++ text }
  | .arrayFirst =>
    return .inr { e with
      state := .arrayRest
      stack := ⟨e.value, none, 0⟩ :: e.stack
      buffer := e.buffer ++ [ch '['] }
  | .arrayRest => .inr <$> encodeArrayRest options e
  | .objectFirst =>
    return .inr { e with
      state := .objectRest
      stack := ⟨e.value, some e.value.objectKeys, 0⟩ :: e.stack
      buffer := e.buffer ++ [ch '{'] }
  | .objectRest => .inr <$> encodeObjectRest hashData options e
  | .accept => return .inl (true, e.buffer)
  | .reject => return .inl (false, e.buffer)

end Turn

namespace Value

mutual

def turns : Value L → ℕ
  | undefined => 3
  | null => 3
  | bool _ => 3
  | number _ => 3
  | string _ => 3
  | array vs => 4 + turnsList vs
  | object m => 4 + turnsMap m
  | foreign => 3

def turnsList : List (Value L) → ℕ
  | [] => 0
  | v :: vs => 2 + turns v + turnsList vs

def turnsMap : Map (Option Bytes × Value L) → ℕ
  | ⟨es, _⟩ => turnsEntries es

def turnsEntries : List (Option Bytes × Value L) → ℕ
  | [] => 0
  | e :: es => turnsEntry e + turnsEntries es

def turnsEntry : Option Bytes × Value L → ℕ
  | (none, _) => 0
  | (some _, v) => 2 + turns v

end

end Value

/-- `value_buffer_encode`: its result and the bytes it appends -/
def valueBufferEncode (hashData : Bytes → UInt64) (print : L → Bytes) (value : Value L)
    (options : EncodeOptions) : Except Fault (Bool × Bytes) :=
  Loop.within .hang (encodeValueTurn hashData print options) (value.turns + 2)
    ⟨.valueStart, value, [], []⟩

/-- `value_encode`; `none` is `string_null()`. A terminator follows the string in memory. -/
def valueEncode (hashData : Bytes → UInt64) (print : L → Bytes) (value : Value L)
    (options : EncodeOptions) : Except Fault (Option Bytes) := do
  let (status, buffer) ← valueBufferEncode hashData print value options
  if !status then
    return none
  let buffer := buffer ++ [nul]
  return some (buffer.take (buffer.length - 1))

end LibReactor
