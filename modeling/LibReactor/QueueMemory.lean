import LibReactor.HeapBuffer
import LibReactor.Queue

/-!
# The memory of queue producers and consumers

`queue_producer_t` and `queue_consumer_t` with the blocks of their buffers and the operations on
them. Each world runs the calls of the program, those of a consumer also from inside its
callback, and the completions in any order.
-/

namespace LibReactor

structure QueueEnds where
  readFd : ℤ
  writeFd : ℤ
  elementSize : ℕ
  deriving DecidableEq

/-- `queue_producer_t`; the `queue` is NULL while it is closed. -/
structure HeapProducer where
  queue : Option QueueEnds
  output : HeapBuffer
  outputOffset : ℕ
  outputQueued : HeapBuffer
  write : Option Id

namespace HeapProducer

def construct : HeapProducer := ⟨none, .construct, 0, .construct, none⟩

def swap (p : HeapProducer) : HeapProducer :=
  if p.outputOffset = p.output.buffer.size then
    { p with output := p.outputQueued, outputOffset := 0, outputQueued := p.output.clear }
  else p

/-- `queue_producer_update` of a producer on a queue -/
def update (p : HeapProducer) (q : QueueEnds) (m : BufferMemory) : HeapProducer × BufferMemory :=
  if p.write.isSome then (p, m)
  else
    let p := p.swap
    if p.output.buffer.size = 0 then (p, m)
    else
      let sizeMax := q.elementSize * 128
      let size := p.output.buffer.size - p.outputOffset
      let size := if sizeMax < size then sizeMax else size
      let data := (p.output.buffer.data.drop p.outputOffset).take size
      let (id, m) := m.submit (.write q.writeFd data 0) .write p.output.base
      ({ p with write := some id }, m)

def push (moves : ℕ → ℕ → Bool) (p : HeapProducer) (q : QueueEnds) (element : Bytes)
    (m : BufferMemory) : HeapProducer × BufferMemory :=
  let (outputQueued, heap) := p.outputQueued.append moves element m.heap
  { p with outputQueued := outputQueued }.update q { m with heap := heap }

/-- `queue_producer_write`; `none` if its assertion fails -/
def written (p : HeapProducer) (q : QueueEnds) (result : ℤ) (m : BufferMemory) :
    Option (HeapProducer × BufferMemory) :=
  let p := { p with write := none }
  if result = -eintr then some (p.update q m)
  else if 0 < result ∧ result % q.elementSize = 0 then
    some ({ p with outputOffset := p.outputOffset + result.toNat }.update q m)
  else none

/-- `queue_producer_close`. The buffers that it destructs keep their pointers. -/
def close (p : HeapProducer) (m : BufferMemory) : HeapProducer × BufferMemory :=
  match p.queue with
  | none => (p, m)
  | some _ =>
    let p := { p with queue := none }
    let (p, m) := match p.write with
      | some id =>
        ({ p with write := none, output := .construct }, m.cancel id p.output.base)
      | none => (p, m)
    (p, { m with heap := p.outputQueued.destruct (p.output.destruct m.heap) })

end HeapProducer

structure ProducerMemory where
  producer : HeapProducer
  memory : BufferMemory
  /-- whether it has been opened -/
  opened : Bool
  /-- the object is destructed -/
  gone : Bool

inductive ProducerCall
  /-- `queue_producer_open` -/
  | open (q : QueueEnds)
  | push (element : Bytes)
  | close
  | destruct
  /-- the reactor calls the user of a slot -/
  | call (slot : ℕ) (result : ℤ)
  | other (l : OtherLabel)

def ProducerCall.opens : ProducerCall → Bool
  | .open .. => true
  | _ => false

namespace ProducerMemory

variable (moves : ℕ → ℕ → Bool)

def construct : ProducerMemory := ⟨.construct, .construct, false, false⟩

def call (w : ProducerMemory) (slot : ℕ) (result : ℤ) : BufferUser → Option ProducerMemory
  | .write => do
    let q ← w.producer.queue
    let (p, m) ← w.producer.written q result (w.memory.take slot)
    return { w with producer := p, memory := m.freeUser slot }
  | .release base => some { w with memory := w.memory.releaseSlot slot base }
  | _ => some { w with memory := w.memory.callSlot slot }

def step (w : ProducerMemory) : ProducerCall → Option ProducerMemory
  | .open q =>
    if w.gone = false ∧ w.producer.queue = none then
      some { w with producer := { w.producer with queue := some q }, opened := true }
    else none
  | .push element =>
    match w.gone, w.producer.queue with
    | false, some q =>
      let (p, m) := w.producer.push moves q element w.memory
      some { w with producer := p, memory := m }
    | _, _ => none
  | .close =>
    if w.gone = false then
      let (p, m) := w.producer.close w.memory
      some { w with producer := p, memory := m }
    else none
  | .destruct =>
    if w.gone = false then
      let (p, m) := w.producer.close w.memory
      some { w with producer := p, memory := m, gone := true }
    else none
  | .call slot result =>
    if slot ∈ w.memory.reactor.pending then
      (w.memory.reactor.users slot).bind (w.call slot result)
    else none
  | .other l => (w.memory.otherStep l).map fun m => { w with memory := m }

/-- An object that was opened is not opened again. -/
def NotReopened (w : ProducerMemory) (l : ProducerCall) : Prop := l.opens = true → w.opened = false

instance (w : ProducerMemory) (l : ProducerCall) : Decidable (w.NotReopened l) :=
  inferInstanceAs (Decidable (_ → _))

end ProducerMemory

structure HeapConsumer where
  queue : Option QueueEnds
  input : HeapBuffer
  read : Option Id
  /-- whether `consumer->abort` points to the flag of a `queue_consumer_read` -/
  abort : Bool

namespace HeapConsumer

def construct : HeapConsumer := ⟨none, .construct, none, false⟩

def update (c : HeapConsumer) (q : QueueEnds) (m : BufferMemory) : HeapConsumer × BufferMemory :=
  if c.read.isSome then (c, m)
  else
    let (id, m) := m.submit (.read q.readFd c.input.buffer.size 0) .read c.input.base
    ({ c with read := some id }, m)

/-- `queue_consumer_open`, where `memory` is what the new input buffer holds -/
def openQueue (moves : ℕ → ℕ → Bool) (c : HeapConsumer) (q : QueueEnds) (batchSize : ℕ)
    (memory : ℕ → UInt8) (m : BufferMemory) : HeapConsumer × BufferMemory :=
  let size := q.elementSize * batchSize
  let (input, heap) := c.input.resize moves size ((List.range size).map memory) m.heap
  ({ c with queue := some q, input := input }, { m with heap := heap })

/-- `queue_consumer_close`; the flag of a running `queue_consumer_read` is the world's -/
def close (c : HeapConsumer) (m : BufferMemory) : HeapConsumer × BufferMemory :=
  match c.queue with
  | none => (c, m)
  | some _ =>
    let c := { c with queue := none }
    match c.read with
    | some id => ({ c with read := none, input := .construct }, m.cancel id c.input.base)
    | none => (c, m)

end HeapConsumer

structure ConsumerMemory where
  consumer : HeapConsumer
  memory : BufferMemory
  /-- the slot of the `queue_consumer_read` that is in its call of the user, and how many elements
  it has still to give -/
  reading : Option (ℕ × ℕ)
  /-- its flag `abort` -/
  aborted : Bool
  /-- how many elements were given to the user -/
  pops : ℕ
  /-- whether it has been opened -/
  opened : Bool
  /-- the object is destructed -/
  gone : Bool

inductive ConsumerCall
  /-- `queue_consumer_open` -/
  | open (q : QueueEnds) (batchSize : ℕ) (memory : ℕ → UInt8)
  | pop
  | close
  | destruct
  /-- the reactor calls the user of a slot -/
  | call (slot : ℕ) (result : ℤ)
  /-- the user returns to `queue_consumer_read` -/
  | return
  | other (l : OtherLabel)

def ConsumerCall.opens : ConsumerCall → Bool
  | .open .. => true
  | _ => false

namespace ConsumerMemory

variable (moves : ℕ → ℕ → Bool)

def construct : ConsumerMemory := ⟨.construct, .construct, none, false, 0, false, false⟩

def abortRead (w : ConsumerMemory) : ConsumerMemory :=
  if w.consumer.queue.isSome ∧ w.consumer.abort then { w with aborted := true } else w

def give (w : ConsumerMemory) (slot rest : ℕ) : ConsumerMemory :=
  { w with
    consumer := { w.consumer with abort := true }
    reading := some (slot, rest)
    pops := w.pops + 1 }

/-- `queue_consumer_update` at the end of `queue_consumer_read` -/
def finishRead (w : ConsumerMemory) (slot : ℕ) : Option ConsumerMemory :=
  w.consumer.queue.map fun q =>
    let (c, m) := w.consumer.update q w.memory
    { w with consumer := c, memory := m.freeUser slot, reading := none }

def call (w : ConsumerMemory) (slot : ℕ) (result : ℤ) : BufferUser → Option ConsumerMemory
  | .read => do
    let q ← w.consumer.queue
    let w := { w with
      consumer := { w.consumer with read := none }
      memory := w.memory.take slot
      aborted := false }
    if result = -eintr then w.finishRead slot
    else if 0 < result ∧ result % q.elementSize = 0 then
      return w.give slot (result.toNat / q.elementSize - 1)
    else none
  | .release base => some { w with memory := w.memory.releaseSlot slot base }
  | _ => some { w with memory := w.memory.callSlot slot }

def step (w : ConsumerMemory) : ConsumerCall → Option ConsumerMemory
  | .open q batchSize memory =>
    if w.gone = false ∧ w.consumer.queue = none then
      let (c, m) := w.consumer.openQueue moves q batchSize memory w.memory
      some { w with consumer := c, memory := m, opened := true }
    else none
  | .pop =>
    match w.gone, w.consumer.queue with
    | false, some q =>
      let (c, m) := w.consumer.update q w.memory
      some { w with consumer := c, memory := m }
    | _, _ => none
  | .close =>
    if w.gone = false then
      let (c, m) := w.consumer.close w.memory
      some { w.abortRead with consumer := c, memory := m }
    else none
  | .destruct =>
    if w.gone = false then
      let (c, m) := w.consumer.close w.memory
      some { w.abortRead with
        consumer := c
        memory := { m with heap := c.input.destruct m.heap }
        gone := true }
    else none
  | .call slot result =>
    if w.reading = none ∧ slot ∈ w.memory.reactor.pending then
      (w.memory.reactor.users slot).bind (w.call slot result)
    else none
  | .return =>
    match w.reading with
    | some (slot, rest) =>
      if w.aborted then some { w with memory := w.memory.freeUser slot, reading := none }
      else
        let w := { w with consumer := { w.consumer with abort := false } }
        match rest with
        | rest + 1 => some (w.give slot rest)
        | 0 => w.finishRead slot
    | none => none
  | .other l => (w.memory.otherStep l).map fun m => { w with memory := m }

def NotReopened (w : ConsumerMemory) (l : ConsumerCall) : Prop := l.opens = true → w.opened = false

instance (w : ConsumerMemory) (l : ConsumerCall) : Decidable (w.NotReopened l) :=
  inferInstanceAs (Decidable (_ → _))

end ConsumerMemory

end LibReactor
