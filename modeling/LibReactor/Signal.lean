import LibReactor.Reactor
import LibReactor.Transition

/-!
# Signals

`signal_t` with its eventfd and the read that waits for it. A world runs the calls of the
program, also from inside the signal's callback, and the completions in any order. The flags
that `signal_open` asks for are what the last read has left in the counter, and it goes on
without a file descriptor where `eventfd` fails.
-/

namespace LibReactor

/-- What the reactor calls: `signal_read` has the `signal_t` as its state. -/
inductive SignalUser
  | noop
  | read
  | other (n : ℕ)
  deriving DecidableEq, Repr

namespace SignalUser

def refers : SignalUser → Bool
  | read => true
  | _ => false

end SignalUser

structure Signal where
  fd : ℤ
  read : Option Id
  counter : ℕ
  /-- whether `signal->abort` points to the flag of a `signal_read` -/
  abort : Bool

namespace Signal

def counterSize : ℕ := 8

def construct : Signal where
  fd := -1
  read := none
  counter := 0
  abort := false

def arm (s : Signal) (r : Reactor SignalUser) : Signal × Reactor SignalUser :=
  let (id, r) := r.submit (.read s.fd counterSize 0) .read
  ({ s with read := some id }, r)

/-- `EFD_SEMAPHORE`, `EFD_NONBLOCK` and `EFD_CLOEXEC` -/
def eventfdFlags : ℕ := 0x80801

/-- Whether `eventfd(0, counter)` can return `fd`. Flags that it does not know are an error, and
it fails where no file descriptor is left. -/
def eventfdReturns (counter : ℕ) (fd : ℤ) : Bool :=
  fd = -1 ∨ 0 ≤ fd ∧ (counter % 2 ^ 32) ||| eventfdFlags = eventfdFlags

/-- `signal_open`, where `eventfd` returns `fd` -/
def signalOpen (s : Signal) (fd : ℤ) (r : Reactor SignalUser) : Signal × Reactor SignalUser :=
  { s with fd := fd }.arm r

def signalSend (s : Signal) (r : Reactor SignalUser) : Reactor SignalUser :=
  (r.submit (.write s.fd (1 :: List.replicate 7 0) 0) .noop).2

/-- `signal_close`; the flag of a running `signal_read` is the world's -/
def signalClose (s : Signal) (r : Reactor SignalUser) : Signal × Reactor SignalUser :=
  if s.fd = -1 then (s, r)
  else
    let r : Reactor SignalUser := match s.read with
      | some id => r.reactorCancel .noop id .noop
      | none => r
    ({ s with fd := -1 }, (r.submit (.close s.fd) .noop).2)

end Signal

structure SignalWorld where
  signal : Signal
  reactor : Reactor SignalUser
  /-- the slot of the `signal_read` that is in its call of the user -/
  reading : Option ℕ
  /-- its flag `abort` -/
  aborted : Bool
  /-- whether the assertion of `signal_read` has failed -/
  failed : Bool

inductive SignalLabel
  /-- `signal_open` -/
  | open (fd : ℤ)
  | send
  /-- `signal_close` and `signal_destruct` -/
  | close
  /-- the reactor calls the user of a slot; a read has stored the counter -/
  | call (slot : ℕ) (counter : ℕ)
  /-- a read has ended without the counter -/
  | callFails (slot : ℕ)
  /-- the user returns to `signal_read` -/
  | return
  | otherNext (n : ℕ)
  | otherSubmit (op : Op) (n : ℕ)
  | otherCancel (id : Id) (n : ℕ)

namespace SignalWorld

def construct : SignalWorld := ⟨.construct, .construct, none, false, false⟩

/-- The read of a slot was given -1 as its file descriptor. -/
def lost (w : SignalWorld) (slot : ℕ) : Bool :=
  (slot, .read (-1) Signal.counterSize 0) ∈ w.reactor.ring

def abortRead (w : SignalWorld) : SignalWorld :=
  if w.signal.fd ≠ -1 ∧ w.signal.abort then { w with aborted := true } else w

def call (w : SignalWorld) (slot counter : ℕ) : SignalUser → SignalWorld
  | .read =>
    { w with
      signal := { w.signal with read := none, counter := counter, abort := true }
      reactor := w.reactor.take slot
      reading := some slot
      aborted := false }
  | _ => { w with reactor := (w.reactor.take slot).freeUser slot }

/-- A step; an assertion that has failed ends the run. -/
def step (w : SignalWorld) (l : SignalLabel) : Option SignalWorld :=
  if w.failed then none
  else
    match l with
    | .open fd =>
      if w.signal.fd = -1 ∧ Signal.eventfdReturns w.signal.counter fd then
        let (s, r) := w.signal.signalOpen fd w.reactor
        some { w with signal := s, reactor := r }
      else none
    | .send => some { w with reactor := w.signal.signalSend w.reactor }
    | .close =>
      let (s, r) := w.signal.signalClose w.reactor
      some { w.abortRead with signal := s, reactor := r }
    | .call slot counter =>
      if w.reading = none ∧ slot ∈ w.reactor.pending then
        (w.reactor.users slot).bind fun user =>
          if user = .read ∧ w.lost slot then none else some (w.call slot counter user)
      else none
    | .callFails slot =>
      if w.reading = none ∧ slot ∈ w.reactor.pending ∧ w.reactor.users slot = some .read then
        some { w with failed := true }
      else none
    | .return =>
      match w.reading with
      | some slot =>
        if w.aborted then some { w with reactor := w.reactor.freeUser slot, reading := none }
        else
          let (s, r) := { w.signal with abort := false }.arm w.reactor
          some { w with signal := s, reactor := r.freeUser slot, reading := none }
      | none => none
    | .otherNext n => some { w with reactor := (w.reactor.reactorNext (.other n)).2 }
    | .otherSubmit op n => some { w with reactor := (w.reactor.submit op (.other n)).2 }
    | .otherCancel id n =>
      match w.reactor.users id.slot with
      | some (.other _) => some { w with reactor := w.reactor.reactorCancel .noop id (.other n) }
      | _ => none

/-- No callback that is still to come has the signal as its state. -/
def Released (w : SignalWorld) : Prop := ∀ s u, w.reactor.Holds s u → u.refers = false

end SignalWorld

end LibReactor
