import LibReactor.Memory
import LibReactor.Transition
import Mathlib.Logic.Function.Basic

/-!
# Reference counts

The heap of `value.c`: values with their counts, arrays and objects with references to
other values. A freed value stays behind as a gap, so that a use of it is a fault. The
members of an object are the list that its hash map represents.
-/

namespace LibReactor

/-- `value_t *`: `value_undefined()`, `value_null()`, or a value on the heap -/
inductive Ref
  | undefined
  | null
  | heap (a : ℕ)
  deriving DecidableEq, Repr

inductive Content
  | leaf
  | array (elements : List Ref)
  | object (members : List (Bytes × Ref))
  deriving DecidableEq

namespace Content

def refs : Content → List Ref
  | leaf => []
  | array elements => elements
  | object members => members.map Prod.snd

end Content

/-- `value_header_t` and what is behind it -/
structure Cell where
  ref : ℕ
  content : Content
  deriving DecidableEq

/-- The values that were created, `none` where one is freed, and the order of the frees. -/
structure Heap where
  cells : List (Option Cell)
  destroyed : List ℕ
  deriving DecidableEq

namespace Heap

/-- `value_header` and a use of what it points to -/
def cell (h : Heap) (a : ℕ) : Except Fault Cell :=
  match h.cells[a]? with
  | some (some c) => .ok c
  | _ => .error .outside

def store (h : Heap) (a : ℕ) (c : Cell) : Heap := { h with cells := h.cells.set a (some c) }

def free (h : Heap) (a : ℕ) : Except Fault Heap := do
  let _ ← h.cell a
  return { cells := h.cells.set a none, destroyed := h.destroyed ++ [a] }

def contentAt (h : Heap) : Ref → Except Fault Content
  | .heap a => Cell.content <$> h.cell a
  | _ => .ok .leaf

def valueCreate (h : Heap) (content : Content) : Heap :=
  { h with cells := h.cells ++ [some ⟨1, content⟩] }

/-- `value_hold`; the count of `value_null()` is 0 -/
def valueHold (h : Heap) : Ref → Except Fault Heap
  | .heap a => do
    let c ← h.cell a
    if c.ref ≠ 0 then
      return h.store a { c with ref := c.ref + 1 }
    return h
  | _ => .ok h

/-- `value_release`, nested so many times at most -/
def valueReleaseNested : ℕ → Heap → Ref → Except Fault Heap
  | 0, _, _ => .error .hang
  | depth + 1, h, .heap a => do
    let c ← h.cell a
    if c.ref = 0 then
      return h
    let h := h.store a { c with ref := c.ref - 1 }
    if c.ref - 1 ≠ 0 then
      return h
    let h ← c.content.refs.foldlM (valueReleaseNested depth) h
    h.free a
  | _, h, _ => .ok h

def valueRelease (h : Heap) (r : Ref) : Except Fault Heap :=
  valueReleaseNested (h.cells.length + 1) h r

def valueArrayAppend (h : Heap) (array element : Ref) : Except Fault Heap := do
  match array, ← h.contentAt array with
  | .heap a, .array _ => do
    let h ← h.valueHold element
    let c ← h.cell a
    match c.content with
    | .array elements => return h.store a { c with content := .array (elements ++ [element]) }
    | _ => return h
  | _, _ => return h

def valueArrayAppendRelease (h : Heap) (array element : Ref) : Except Fault Heap := do
  let h ← h.valueArrayAppend array element
  h.valueRelease element

def valueArrayRemove (h : Heap) (array : Ref) (index : ℕ) : Except Fault Heap := do
  match array, ← h.contentAt array with
  | .heap a, .array elements =>
    match elements[index]? with
    | none => .error .outside
    | some element => do
      let h ← h.valueRelease element
      let c ← h.cell a
      match c.content with
      | .array elements => return h.store a { c with content := .array (elements.eraseIdx index) }
      | _ => return h
  | _, _ => return h

def valueObjectDelete (h : Heap) (object : Ref) (key : Bytes) : Except Fault Heap := do
  match object, ← h.contentAt object with
  | .heap a, .object members =>
    match members.find? (fun m => m.1 = key) with
    | none => return h
    | some member => do
      let h ← h.valueRelease member.2
      let c ← h.cell a
      match c.content with
      | .object members =>
        return h.store a { c with content := .object (members.eraseP (fun m => m.1 = key)) }
      | _ => return h
  | _, _ => return h

def valueObjectSet (h : Heap) (object : Ref) (key : Bytes) (value : Ref) : Except Fault Heap := do
  match object, ← h.contentAt object with
  | .heap a, .object _ => do
    let h ← h.valueObjectDelete object key
    let h ← h.valueHold value
    let c ← h.cell a
    match c.content with
    | .object members => return h.store a { c with content := .object (members ++ [(key, value)]) }
    | _ => return h
  | _, _ => return h

def valueObjectSetRelease (h : Heap) (object : Ref) (key : Bytes) (value : Ref) :
    Except Fault Heap := do
  let h ← h.valueObjectSet object key value
  h.valueRelease value

end Heap

/-! ## The client -/

/-- The heap, how often the client holds each value, and whether a call has gone wrong. -/
structure Values where
  heap : Heap
  holds : ℕ → ℕ
  failed : Bool

inductive ValuesLabel
  /-- `value_bool`, `value_number`, `value_string` and the like -/
  | newLeaf
  | newArray
  | newObject
  | hold (r : Ref)
  | release (r : Ref)
  | arrayAppend (array element : Ref)
  | arrayAppendRelease (array element : Ref)
  | arrayRemove (array : Ref) (index : ℕ)
  | objectSet (object : Ref) (key : Bytes) (value : Ref)
  | objectSetRelease (object : Ref) (key : Bytes) (value : Ref)
  | objectDelete (object : Ref) (key : Bytes)

namespace Values

def empty : Values := ⟨⟨[], []⟩, fun _ => 0, false⟩

def live (w : Values) : Ref → Bool
  | .heap a =>
    match w.heap.cells[a]? with
    | some (some c) => c.ref ≠ 0
    | _ => false
  | _ => true

def held (w : Values) : Ref → Bool
  | .heap a => w.holds a ≠ 0
  | _ => true

def hold (w : Values) : Ref → ℕ → ℕ
  | .heap a => Function.update w.holds a (w.holds a + 1)
  | _ => w.holds

def giveUp (w : Values) : Ref → ℕ → ℕ
  | .heap a => Function.update w.holds a (w.holds a - 1)
  | _ => w.holds

def after (w : Values) (holds : ℕ → ℕ) : Except Fault Heap → Values
  | .ok h => ⟨h, holds, false⟩
  | .error _ => { w with failed := true }

def create (w : Values) (content : Content) : Values :=
  w.after (w.hold (.heap w.heap.cells.length)) (.ok (w.heap.valueCreate content))

/-- Whether an array has an element with the index; other values have no elements to remove. -/
def inRange (w : Values) (array : Ref) (index : ℕ) : Bool :=
  match w.heap.contentAt array with
  | .ok (.array elements) => index < elements.length
  | _ => true

def step (w : Values) (l : ValuesLabel) : Option Values :=
  if w.failed then none
  else
    match l with
    | .newLeaf => some (w.create .leaf)
    | .newArray => some (w.create (.array []))
    | .newObject => some (w.create (.object []))
    | .hold r => if w.live r then some (w.after (w.hold r) (w.heap.valueHold r)) else none
    | .release r => if w.held r then some (w.after (w.giveUp r) (w.heap.valueRelease r)) else none
    | .arrayAppend array element =>
      if w.live array ∧ w.live element then
        some (w.after w.holds (w.heap.valueArrayAppend array element)) else none
    | .arrayAppendRelease array element =>
      if w.live array ∧ w.held element then
        some (w.after (w.giveUp element) (w.heap.valueArrayAppendRelease array element)) else none
    | .arrayRemove array index =>
      if w.live array ∧ w.inRange array index then
        some (w.after w.holds (w.heap.valueArrayRemove array index)) else none
    | .objectSet object key value =>
      if w.live object ∧ w.live value then
        some (w.after w.holds (w.heap.valueObjectSet object key value)) else none
    | .objectSetRelease object key value =>
      if w.live object ∧ w.held value then
        some (w.after (w.giveUp value) (w.heap.valueObjectSetRelease object key value)) else none
    | .objectDelete object key =>
      if w.live object then
        some (w.after w.holds (w.heap.valueObjectDelete object key)) else none

end Values

end LibReactor
