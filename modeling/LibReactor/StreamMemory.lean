import LibReactor.HeapBuffer
import LibReactor.StreamOutput

/-!
# The memory of streams

`stream_t` with the blocks of its buffers and the operations on them. The world runs the calls of
the program, those from inside a callback too, and the completions in any order.
-/

namespace LibReactor

/-- `stream_t` with its three buffers in memory -/
structure HeapStream where
  fd : ℤ
  type : StreamType
  flags : ℕ
  /-- whether `stream->abort` points to the flag of a running `stream_recv` -/
  abort : Bool
  read : Option Id
  inputOffset : ℕ
  input : HeapBuffer
  inputConsumed : ℕ
  write : Option Id
  outputOffset : ℕ
  outputPartial : ℕ
  outputWriting : HeapBuffer
  outputWaiting : HeapBuffer
  outputFlushed : ℕ

namespace HeapStream

variable (moves : ℕ → ℕ → Bool)

def construct : HeapStream where
  fd := -1
  type := .socket
  flags := 0
  abort := false
  read := none
  inputOffset := 0
  input := .construct
  inputConsumed := 0
  write := none
  outputOffset := 0
  outputPartial := 0
  outputWriting := .construct
  outputWaiting := .construct
  outputFlushed := 0

def isOpen (s : HeapStream) : Bool := 0 ≤ s.fd

/-- The start of `stream_input`: the consumed bytes are erased. -/
def eraseConsumed (s : HeapStream) : HeapStream :=
  if s.inputConsumed = 0 then s
  else { s with input := s.input.erase s.inputConsumed, inputConsumed := 0 }

def streamInput (s : HeapStream) (m : BufferMemory) : HeapStream × BufferMemory :=
  let s := s.eraseConsumed
  let (input, heap) := s.input.reserve moves (s.input.buffer.size + Stream.blockSize) m.heap
  let op := match s.type with
    | .socket => Op.recv s.fd Stream.blockSize
    | .file => Op.read s.fd Stream.blockSize s.inputOffset
  let (id, m) := BufferMemory.submit { m with heap := heap } op .read input.base
  ({ s with input := input, read := some id }, m)

def streamOutput (s : HeapStream) (m : BufferMemory) : HeapStream × BufferMemory :=
  let data := s.outputWriting.buffer.data.drop s.outputPartial
  let op := match s.type with
    | .socket => Op.send s.fd data
    | .file => Op.write s.fd data s.outputOffset
  let (id, m) := m.submit op .write s.outputWriting.base
  ({ s with write := some id }, m)

def switchOutput (s : HeapStream) (h : Allocator) : HeapStream × Allocator :=
  let rest := s.outputWaiting.buffer.data.drop s.outputFlushed
  let (writing, h) := s.outputWriting.clear.append moves rest h
  let (waiting, h) := s.outputWaiting.resize moves s.outputFlushed [] h
  ({ s with
    outputPartial := 0
    outputWriting := waiting
    outputWaiting := writing
    outputFlushed := 0 }, h)

def streamUpdate (s : HeapStream) (m : BufferMemory) : HeapStream × BufferMemory :=
  if ¬ s.isOpen ∨ s.write.isSome then (s, m)
  else if s.outputPartial ≠ 0 then s.streamOutput m
  else if s.outputFlushed ≠ 0 then
    let (s, heap) := s.switchOutput moves m.heap
    s.streamOutput { m with heap := heap }
  -- `!stream->flags & STREAM_WRITE_ONLY` negates first: it asks for no flag at all
  else if s.read.isNone ∧ s.flags = 0 then s.streamInput moves m
  else (s, m)

def streamOpen (s : HeapStream) (fd : ℤ) (flags : ℕ) (type : StreamType) (m : BufferMemory) :
    HeapStream × BufferMemory :=
  { s with fd := fd, flags := flags, type := type }.streamUpdate moves m

def streamWrite (s : HeapStream) (d : Bytes) (h : Allocator) : HeapStream × Allocator :=
  let (waiting, h) := s.outputWaiting.append moves d h
  ({ s with outputWaiting := waiting }, h)

def streamConsume (s : HeapStream) (size : ℕ) : HeapStream :=
  { s with inputConsumed := s.inputConsumed + size }

def streamFlush (s : HeapStream) (m : BufferMemory) : HeapStream × BufferMemory :=
  { s with outputFlushed := s.outputWaiting.buffer.size }.streamUpdate moves m

def closeRead (s : HeapStream) (m : BufferMemory) : HeapStream × BufferMemory :=
  match s.read with
  | some id => ({ s with read := none, input := .construct }, m.cancel id s.input.base)
  | none => (s, m)

def closeWrite (s : HeapStream) (m : BufferMemory) : HeapStream × BufferMemory :=
  match s.write with
  | some id => ({ s with write := none, outputWriting := .construct },
      m.cancel id s.outputWriting.base)
  | none => (s, m)

def streamClose (s : HeapStream) (m : BufferMemory) : HeapStream × BufferMemory :=
  let (s, m) := s.closeRead m
  let (s, m) := s.closeWrite m
  if 0 ≤ s.fd then ({ s with fd := -1 }, m.submitNoop (.close s.fd)) else (s, m)

/-- `stream_destruct` after its call of `stream_close` -/
def destructBuffers (s : HeapStream) (h : Allocator) : Allocator :=
  s.outputWaiting.destruct (s.outputWriting.destruct (s.input.destruct h))

def recvBegin (s : HeapStream) (received : Bytes) (h : Allocator) : HeapStream × Allocator :=
  let (input, h) := s.input.resize moves (s.input.buffer.size + received.length) received h
  ({ s with
    read := none
    inputOffset := s.inputOffset + received.length
    input := input
    abort := true }, h)

def recvEnd (s : HeapStream) (m : BufferMemory) : HeapStream × BufferMemory :=
  { s with abort := false }.streamUpdate moves m

def sendDone (s : HeapStream) (result : ℕ) (m : BufferMemory) : HeapStream × BufferMemory :=
  let sent := s.outputPartial + result
  { s with
    write := none
    outputOffset := s.outputOffset + result
    outputPartial := if sent = s.outputWriting.buffer.size then 0 else sent }.streamUpdate moves m

end HeapStream

structure StreamMemory where
  stream : HeapStream
  memory : BufferMemory
  /-- the slot of the handler that is in its call of the user, and whether that is a `stream_recv`
  with bytes to read -/
  running : Option (ℕ × Bool)
  /-- its flag `abort` -/
  aborted : Bool
  /-- the events that the user was called with -/
  events : List StreamEvent
  /-- whether it has been opened -/
  opened : Bool
  /-- the object is destructed -/
  gone : Bool

inductive StreamCall
  /-- `stream_open` with `STREAM_WRITE_ONLY`, or with no flag -/
  | open (fd : ℕ) (writeOnly : Bool) (type : StreamType)
  | write (d : Bytes)
  /-- `stream_consume` of bytes that were read -/
  | consume (size : ℕ)
  | flush
  | close
  | destruct
  /-- the reactor calls the user of a slot, for a read with the bytes that the kernel stored -/
  | call (slot : ℕ) (result : ℤ) (received : Bytes)
  /-- the user returns to the handler -/
  | return
  | other (l : OtherLabel)

def StreamCall.opens : StreamCall → Bool
  | .open .. => true
  | _ => false

namespace StreamMemory

variable (moves : ℕ → ℕ → Bool)

def construct : StreamMemory := ⟨.construct, .construct, none, false, [], false, false⟩

def offered (w : StreamMemory) (slot : ℕ) : Bytes :=
  ((w.memory.reactor.ring.find? fun entry => entry.1 == slot).bind fun entry =>
    entry.2.output).getD []

def notify (w : StreamMemory) (slot : ℕ) (reading : Bool) (event : StreamEvent) : StreamMemory :=
  { w with running := some (slot, reading), events := w.events ++ [event] }

/-- `stream_recv` until it calls the user -/
def streamRecv (w : StreamMemory) (slot : ℕ) (result : ℤ) (received : Bytes) :
    Option StreamMemory :=
  let m := w.memory.take slot
  if result ≤ 0 then
    let s := { w.stream with read := none }
    some ({ w with stream := s, memory := m }.notify slot false (Stream.recvEvent result))
  else if result = received.length ∧ received.length ≤ Stream.blockSize then
    let (s, heap) := w.stream.recvBegin moves received m.heap
    let m := { m with heap := heap }
    some ({ w with stream := s, memory := m, aborted := false }.notify slot true .read)
  else none

/-- `stream_send`, an error until it calls the user -/
def streamSend (w : StreamMemory) (slot : ℕ) (result : ℤ) : Option StreamMemory :=
  let m := w.memory.take slot
  if result ≤ 0 then
    let s := { w.stream with write := none }
    some ({ w with stream := s, memory := m }.notify slot false (.error (-result)))
  else if result.toNat ≤ (w.offered slot).length then
    let (s, m) := w.stream.sendDone moves result.toNat m
    some { w with stream := s, memory := m.freeUser slot }
  else none

def call (w : StreamMemory) (slot : ℕ) (result : ℤ) (received : Bytes) :
    BufferUser → Option StreamMemory
  | .read => w.streamRecv moves slot result received
  | .write => w.streamSend moves slot result
  | .release base => some { w with memory := w.memory.releaseSlot slot base }
  | _ => some { w with memory := w.memory.callSlot slot }

def step (w : StreamMemory) : StreamCall → Option StreamMemory
  | .open fd writeOnly type =>
    if w.gone = false ∧ w.stream.isOpen = false then
      let flags := if writeOnly then Stream.writeOnly else 0
      let (s, m) := w.stream.streamOpen moves fd flags type w.memory
      some { w with stream := s, memory := m, opened := true }
    else none
  | .write d =>
    if w.gone = false then
      let (s, heap) := w.stream.streamWrite moves d w.memory.heap
      some { w with stream := s, memory := { w.memory with heap := heap } }
    else none
  | .consume size =>
    if w.gone = false ∧ w.stream.inputConsumed + size ≤ w.stream.input.buffer.size then
      some { w with stream := w.stream.streamConsume size }
    else none
  | .flush =>
    if w.gone = false then
      let (s, m) := w.stream.streamFlush moves w.memory
      some { w with stream := s, memory := m }
    else none
  | .close =>
    if w.gone = false then
      let (s, m) := w.stream.streamClose w.memory
      some { w with stream := s, memory := m }
    else none
  | .destruct =>
    if w.gone = false then
      let (s, m) := w.stream.streamClose w.memory
      some { w with
        stream := s
        memory := { m with heap := s.destructBuffers m.heap }
        aborted := w.aborted || s.abort
        gone := true }
    else none
  | .call slot result received =>
    if w.running = none ∧ slot ∈ w.memory.reactor.pending then
      (w.memory.reactor.users slot).bind (w.call moves slot result received)
    else none
  | .return =>
    match w.running with
    | some (slot, reading) =>
      if reading ∧ w.aborted = false then
        let (s, m) := w.stream.recvEnd moves w.memory
        some { w with stream := s, memory := m.freeUser slot, running := none }
      else some { w with memory := w.memory.freeUser slot, running := none }
    | none => none
  | .other l => (w.memory.otherStep l).map fun m => { w with memory := m }

variable {moves} in
/-- A callback returns: `stream_receive` looks at the stream again unless the stream is gone. -/
theorem step_return {w w' : StreamMemory} (hstep : w.step moves .return = some w') :
    ∃ slot reading, w.running = some (slot, reading) ∧
      ((reading = true ∧ w.aborted = false ∧ w' = { w with
          stream := (w.stream.recvEnd moves w.memory).1
          memory := (w.stream.recvEnd moves w.memory).2.freeUser slot
          running := none }) ∨
        (¬(reading = true ∧ w.aborted = false) ∧
          w' = { w with memory := w.memory.freeUser slot, running := none })) := by
  cases hrunning : w.running with
  | none => simp only [step, hrunning, reduceCtorEq] at hstep
  | some x =>
    obtain ⟨slot, reading⟩ := x
    dsimp only [step] at hstep
    rw [hrunning] at hstep
    dsimp only at hstep
    refine ⟨slot, reading, rfl, ?_⟩
    split_ifs at hstep with hguard
    · exact .inl ⟨hguard.1, hguard.2, (Option.some.inj hstep).symm⟩
    · exact .inr ⟨hguard, (Option.some.inj hstep).symm⟩

def NotReopened (w : StreamMemory) (l : StreamCall) : Prop := l.opens = true → w.opened = false

instance (w : StreamMemory) (l : StreamCall) : Decidable (w.NotReopened l) :=
  inferInstanceAs (Decidable (_ → _))

end StreamMemory

end LibReactor
