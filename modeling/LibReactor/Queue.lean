import LibReactor.Memory
import LibReactor.Transition
import Mathlib.Algebra.Order.Ring.Int
import Mathlib.Logic.Function.Basic

/-!
# Queues

Producers and consumers on the pipe of a `queue_t`. A write of at most `PIPE_BUF` bytes
enters the pipe as a whole, a larger one in portions between which other bytes may come,
and it may end after any of them. A read takes some of the bytes that are there. What is
read or written is as long as the submission entry says, whose length has 32 bits.
-/

namespace LibReactor

def pipeBuf : ℕ := 4096

/-- `MAX_RW_COUNT`, the most bytes that one read or write moves -/
def maxRwCount : ℕ := 2 ^ 31 - 4096

def eintr : ℤ := 4

/-- A size as the `len` of a submission entry, a `__u32` -/
def sqeLen (size : ℕ) : ℕ := size % 2 ^ 32

def batchBytes (elementSize batchSize : ℕ) : ℕ := elementSize * batchSize % 2 ^ 64

/-- A write in flight and how much of it has entered the pipe. -/
structure PipeWrite where
  size : ℕ
  accepted : ℕ
  deriving DecidableEq, Repr

structure Producer where
  output : Bytes
  outputOffset : ℕ
  outputQueued : Bytes
  write : Option PipeWrite
  deriving DecidableEq

/-- A read: none, in flight, or done with its bytes at the start of the input buffer. -/
inductive PipeRead
  | none
  | armed
  | filled (n : ℕ)
  deriving DecidableEq

structure Consumer where
  inputSize : ℕ
  /-- the bytes that reads have put into the input buffer -/
  input : Bytes
  read : PipeRead
  /-- `offset` and `result` in the loop of `queue_consumer_read`, while the user is called -/
  loop : Option (ℕ × ℕ)
  deriving DecidableEq

section Functions

variable (elementSize : ℕ)

def producerUpdate (p : Producer) : Producer :=
  if p.write.isSome then p
  else
    let p := if p.outputOffset = p.output.length then
      { p with output := p.outputQueued, outputOffset := 0, outputQueued := [] } else p
    if p.output = [] then p
    else
      let sizeMax := (elementSize * 128) % 2 ^ 64
      let size := p.output.length - p.outputOffset
      let size := if sizeMax < size then sizeMax else size
      { p with write := some ⟨sqeLen size, 0⟩ }

def producerPush (element : Bytes) (p : Producer) : Producer :=
  producerUpdate elementSize { p with outputQueued := p.outputQueued ++ element }

/-- `queue_producer_write`; `none` if its assertion fails -/
def producerWrite (result : ℤ) (p : Producer) : Option Producer :=
  let p := { p with write := none }
  if result = -eintr then some (producerUpdate elementSize p)
  else if 0 < result ∧ result % elementSize = 0 then
    some (producerUpdate elementSize { p with outputOffset := p.outputOffset + result.toNat })
  else none

def consumerUpdate (c : Consumer) : Consumer :=
  match c.read with
  | .none => { c with read := .armed }
  | _ => c

/-- A turn of the loop of `queue_consumer_read`: an element for the user, or the end. -/
def consumerTurn (offset result : ℕ) (c : Consumer) : Consumer × List Bytes :=
  if offset < result then
    ({ c with loop := some (offset + elementSize, result) },
      [(c.input.drop offset).take elementSize])
  else (consumerUpdate { c with loop := none }, [])

/-- `queue_consumer_read` up to its first call of the user; `none` if its assertion fails -/
def consumerRead (result : ℤ) (c : Consumer) : Option (Consumer × List Bytes) :=
  let c := { c with read := .none }
  if result = -eintr then some (consumerUpdate c, [])
  else if 0 < result ∧ result % elementSize = 0 then
    some (consumerTurn elementSize 0 result.toNat c)
  else none

end Functions

structure Queue where
  elementSize : ℕ
  pipe : Bytes
  producer : ℕ → Producer
  consumer : ℕ → Consumer
  /-- the elements that were pushed to each producer -/
  pushed : ℕ → List Bytes
  /-- the elements that each consumer has given to its user -/
  popped : ℕ → List Bytes
  /-- whether an assertion has failed -/
  failed : Bool

inductive QueueLabel
  | push (i : ℕ) (element : Bytes)
  /-- `queue_consumer_pop`, also from inside the user's callback -/
  | pop (j : ℕ)
  /-- `n` bytes of a write enter the pipe -/
  | accept (i n : ℕ)
  /-- `queue_producer_write` with the bytes that were accepted -/
  | wrote (i : ℕ)
  | writeInterrupted (i : ℕ)
  /-- a read takes `n` bytes out of the pipe -/
  | fill (j n : ℕ)
  /-- `queue_consumer_read` with the bytes that were taken -/
  | deliver (j : ℕ)
  /-- the user returns to the loop of `queue_consumer_read` -/
  | next (j : ℕ)
  | readInterrupted (j : ℕ)

namespace Queue

def opened (elementSize : ℕ) (batchSize : ℕ → ℕ) : Queue where
  elementSize := elementSize
  pipe := []
  producer _ := ⟨[], 0, [], none⟩
  consumer j := ⟨batchBytes elementSize (batchSize j), [], .none, none⟩
  pushed _ := []
  popped _ := []
  failed := false

def setProducer (q : Queue) (i : ℕ) (p : Producer) : Queue :=
  { q with producer := Function.update q.producer i p }

def setConsumer (q : Queue) (j : ℕ) (c : Consumer) : Queue :=
  { q with consumer := Function.update q.consumer j c }

/-- The portions in which the pipe takes a write. -/
def accepts (w : PipeWrite) (n : ℕ) : Bool :=
  if w.size ≤ pipeBuf then w.accepted = 0 ∧ n = w.size
  else 0 < n ∧ w.accepted + n ≤ min w.size maxRwCount

def returns (size available n : ℕ) : Bool :=
  if size = 0 then n = 0 else 0 < n ∧ n ≤ min size maxRwCount ∧ n ≤ available

def completeWrite (q : Queue) (i : ℕ) (result : ℤ) : Queue :=
  match producerWrite q.elementSize result (q.producer i) with
  | none => { q with failed := true }
  | some p => q.setProducer i p

def give (q : Queue) (j : ℕ) (x : Consumer × List Bytes) : Queue :=
  { q.setConsumer j x.1 with popped := Function.update q.popped j (q.popped j ++ x.2) }

def completeRead (q : Queue) (j : ℕ) (result : ℤ) : Queue :=
  match consumerRead q.elementSize result (q.consumer j) with
  | none => { q with failed := true }
  | some x => q.give j x

/-- A step; an assertion that has failed ends the run. -/
def step (q : Queue) (l : QueueLabel) : Option Queue :=
  if q.failed then none
  else
    match l with
    | .push i element =>
      if element.length = q.elementSize then
        some { q.setProducer i (producerPush q.elementSize element (q.producer i)) with
          pushed := Function.update q.pushed i (q.pushed i ++ [element]) }
      else none
    | .pop j => some (q.setConsumer j (consumerUpdate (q.consumer j)))
    | .accept i n => do
      let p := q.producer i
      let w ← p.write
      if accepts w n then
        some { q.setProducer i { p with write := some { w with accepted := w.accepted + n } } with
          pipe := q.pipe ++ (p.output.drop (p.outputOffset + w.accepted)).take n }
      else none
    | .wrote i => do
      let w ← (q.producer i).write
      if w.accepted ≠ 0 ∨ w.size = 0 then some (q.completeWrite i w.accepted) else none
    | .writeInterrupted i => do
      let w ← (q.producer i).write
      if w.accepted = 0 then some (q.completeWrite i (-eintr)) else none
    | .fill j n =>
      let c := q.consumer j
      if c.read = .armed ∧ returns (sqeLen c.inputSize) q.pipe.length n then
        some { q.setConsumer j
            { c with read := .filled n, input := q.pipe.take n ++ c.input.drop n } with
          pipe := q.pipe.drop n }
      else none
    | .deliver j =>
      let c := q.consumer j
      match c.read, c.loop with
      | .filled n, none => some (q.completeRead j n)
      | _, _ => none
    | .next j => (q.consumer j).loop.map fun (offset, result) =>
        q.give j (consumerTurn q.elementSize offset result (q.consumer j))
    | .readInterrupted j =>
      let c := q.consumer j
      if c.read = .armed ∧ c.loop = none then some (q.completeRead j (-eintr)) else none

end Queue

end LibReactor
