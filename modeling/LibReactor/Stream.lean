import LibReactor.Buffer
import LibReactor.Reactor

/-!
# Streams

`stream_t` with its input and output buffers and its two operations in flight.
Functions that submit or cancel operations take the reactor along. What
`stream_recv` does before and after its call of the user is split there.
-/

namespace LibReactor

inductive StreamType
  | socket
  | file
  deriving DecidableEq, Repr

/-- The event types of a stream's user; an error carries its code. -/
inductive StreamEvent
  | error (code : ℤ)
  | read
  | close
  deriving DecidableEq, Repr

/-- The callbacks a stream leaves with the reactor, with the stream as their state. -/
structure StreamUsers (κ : Type*) where
  noop : κ
  recv : κ
  send : κ
  /-- `stream_release_buffer` with a buffer's base -/
  releaseBuffer : κ

structure Stream where
  fd : ℤ
  type : StreamType
  flags : ℕ
  /-- whether `stream->abort` points to the flag of a running `stream_recv` -/
  abort : Bool
  read : Option Id
  inputOffset : ℕ
  input : Buffer
  inputConsumed : ℕ
  write : Option Id
  outputOffset : ℕ
  outputPartial : ℕ
  outputWriting : Buffer
  outputWaiting : Buffer
  outputFlushed : ℕ
  deriving DecidableEq, Repr

namespace Stream

def blockSize : ℕ := 16384

def writeOnly : ℕ := 1

variable {κ : Type*} (users : StreamUsers κ)

def construct : Stream where
  fd := -1
  type := .socket
  flags := 0
  abort := false
  read := none
  inputOffset := 0
  input := .construct
  inputConsumed := 0
  write := none
  outputOffset := 0
  outputPartial := 0
  outputWriting := .construct
  outputWaiting := .construct
  outputFlushed := 0

def isOpen (s : Stream) : Bool := 0 ≤ s.fd

/-- `stream_read`: the input that is not consumed yet -/
def unread (s : Stream) : Bytes := s.input.data.drop s.inputConsumed

def consume (s : Stream) (size : ℕ) : Stream := { s with inputConsumed := s.inputConsumed + size }

def allocate (s : Stream) (size : ℕ) (memory : ℕ → UInt8) : ℕ × Stream :=
  let (p, b) := s.outputWaiting.allocate size memory
  (p, { s with outputWaiting := b })

/-- `stream_write`, and `stream_allocate` with the bytes then stored there -/
def writeData (s : Stream) (d : Bytes) : Stream :=
  { s with outputWaiting := s.outputWaiting.append d }

/-- What `stream_input` does to the input buffer before it arms the next read. -/
def inputPrepare (s : Stream) : Stream :=
  let s := if s.inputConsumed = 0 then s
    else { s with input := s.input.erase 0 s.inputConsumed, inputConsumed := 0 }
  { s with input := s.input.reserve (s.input.size + blockSize) }

def streamInput (s : Stream) (r : Reactor κ) : Stream × Reactor κ :=
  let s := s.inputPrepare
  let op := match s.type with
    | .socket => Op.recv s.fd blockSize
    | .file => Op.read s.fd blockSize s.inputOffset
  let (id, r) := r.submit op users.recv
  ({ s with read := some id }, r)

def streamOutput (s : Stream) (r : Reactor κ) : Stream × Reactor κ :=
  let data := s.outputWriting.data.drop s.outputPartial
  let op := match s.type with
    | .socket => Op.send s.fd data
    | .file => Op.write s.fd data s.outputOffset
  let (id, r) := r.submit op users.send
  ({ s with write := some id }, r)

/-- The flushed bytes become the block being written, the others keep waiting. -/
def switchOutput (s : Stream) : Stream :=
  { s with
    outputPartial := 0
    outputWriting := s.outputWaiting.resize s.outputFlushed []
    outputWaiting := s.outputWriting.clear.append (s.outputWaiting.data.drop s.outputFlushed)
    outputFlushed := 0 }

def streamUpdate (s : Stream) (r : Reactor κ) : Stream × Reactor κ :=
  if ¬ s.isOpen ∨ s.write.isSome then (s, r)
  else if s.outputPartial ≠ 0 then streamOutput users s r
  else if s.outputFlushed ≠ 0 then streamOutput users s.switchOutput r
  -- `!stream->flags & STREAM_WRITE_ONLY` negates first: it asks for no flag at all
  else if s.read.isNone ∧ s.flags = 0 then streamInput users s r
  else (s, r)

/-- `stream_open`; `type` is what `fstat` finds -/
def streamOpen (s : Stream) (fd : ℤ) (flags : ℕ) (type : StreamType) (r : Reactor κ) :
    Stream × Reactor κ :=
  streamUpdate users { s with fd := fd, flags := flags, type := type } r

def streamClose (s : Stream) (r : Reactor κ) : Stream × Reactor κ :=
  let (s, r) := match s.read with
    | some id => ({ s with read := none, input := .construct },
        r.reactorCancel users.noop id users.releaseBuffer)
    | none => (s, r)
  let (s, r) := match s.write with
    | some id => ({ s with write := none, outputWriting := .construct },
        r.reactorCancel users.noop id users.releaseBuffer)
    | none => (s, r)
  if 0 ≤ s.fd then ({ s with fd := -1 }, (r.submit (.close s.fd) users.noop).2) else (s, r)

def streamFlush (s : Stream) (r : Reactor κ) : Stream × Reactor κ :=
  streamUpdate users { s with outputFlushed := s.outputWaiting.size } r

/-- `stream_recv` before it calls the user, for the bytes the kernel stored. -/
def recvBegin (s : Stream) (received : Bytes) : Stream :=
  { s with
    read := none
    inputOffset := s.inputOffset + received.length
    input := s.input.resize (s.input.size + received.length) received
    abort := true }

/-- `stream_recv` after its call of the user, when the stream still exists. -/
def recvEnd (s : Stream) (r : Reactor κ) : Stream × Reactor κ :=
  streamUpdate users { s with abort := false } r

/-- `stream_recv` on a result that is not positive. -/
def recvEvent (result : ℤ) : StreamEvent := if result = 0 then .close else .error (-result)

/-- `stream_send` on a positive result. -/
def sendDone (s : Stream) (result : ℕ) (r : Reactor κ) : Stream × Reactor κ :=
  let sent := s.outputPartial + result
  streamUpdate users
    { s with
      write := none
      outputOffset := s.outputOffset + result
      outputPartial := if sent = s.outputWriting.size then 0 else sent } r

@[simp] theorem data_recvBegin (s : Stream) (received : Bytes) :
    (s.recvBegin received).input.data = s.input.data ++ received := by
  have h : s.input.size + received.length = (s.input.data ++ received).length := by
    simp [Buffer.size]
  simp only [recvBegin, Buffer.data_resize, h, List.take_length]

/-- Arming a read drops the consumed bytes only. -/
@[simp] theorem unread_inputPrepare (s : Stream) : s.inputPrepare.unread = s.unread := by
  unfold inputPrepare unread
  dsimp only
  split_ifs with h <;> simp [h]

@[simp] theorem inputConsumed_inputPrepare (s : Stream) : s.inputPrepare.inputConsumed = 0 := by
  unfold inputPrepare
  dsimp only
  split_ifs with h
  · exact h
  · rfl

theorem inputPrepare_eq (s : Stream) :
    ∃ input, s.inputPrepare = { s with input := input, inputConsumed := 0 } := by
  refine ⟨s.inputPrepare.input, ?_⟩
  have hconsumed := inputConsumed_inputPrepare s
  unfold inputPrepare at hconsumed ⊢
  dsimp only at hconsumed ⊢
  split_ifs at hconsumed ⊢
  · rw [hconsumed]
  · rfl

theorem unread_recvBegin (s : Stream) (received : Bytes)
    (h : s.inputConsumed ≤ s.input.size) :
    (s.recvBegin received).unread = s.unread ++ received := by
  show (s.recvBegin received).input.data.drop s.inputConsumed = _
  rw [data_recvBegin, List.drop_append_of_le_length h]
  rfl

end Stream

end LibReactor
