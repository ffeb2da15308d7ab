import LibReactor.ReadRequest
import LibReactor.Transition

/-!
# Sessions of the server

`server.c` for one session, from the event of its first byte to `list_erase`. A
run of `server_session_read` stops at its call of the handler, which may answer
there or in any later callback of its own. Each event of the reactor, each turn
of the loop and each call of the handler is a step, in any order the reactor
allows; `touched` records that the server used a session it had freed.
-/

namespace LibReactor

inductive ServerUser
  | noop
  /-- `stream_recv` with the session's stream -/
  | recv
  /-- `stream_send` with the session's stream -/
  | send
  | releaseBuffer
  /-- `server_session_next` with the session -/
  | next
  | other (n : ℕ)
  deriving DecidableEq, Repr

namespace ServerUser

def stream : StreamUsers ServerUser := ⟨.noop, .recv, .send, .releaseBuffer⟩

def refers : ServerUser → Bool
  | .recv | .send | .next => true
  | _ => false

end ServerUser

structure Session where
  request : Request
  stream : Stream
  /-- `SERVER_SESSION_READY` -/
  ready : Bool
  /-- `SERVER_SESSION_PROCESSING` -/
  processing : Bool
  /-- whether `session->abort` points to the flag of a running `server_session_read` -/
  abort : Bool
  next : Option Id
  deriving DecidableEq, Repr

/-- A call of `server_session_read`, with its flag `abort` and that of its caller. -/
structure Reading where
  slot : ℕ
  /-- whether `stream_recv` has called it, and not `server_session_next` -/
  recv : Bool
  recvAbort : Bool
  readAbort : Bool
  deriving DecidableEq, Repr

inductive Place
  | outside
  /-- in a callback of the user's own -/
  | user (slot : ℕ)
  /-- at the head of the loop in `server_session_read` -/
  | loop (c : Reading)
  /-- in the handler's callback for a request -/
  | handler (c : Reading)
  deriving DecidableEq, Repr

namespace Place

def held : Place → List ℕ
  | .outside => []
  | .user slot => [slot]
  | .loop c | .handler c => [c.slot]

def free : Place → Bool
  | .loop _ => false
  | _ => true

/-- `*session->abort = true` -/
def abortRead : Place → Place
  | .loop c => .loop { c with readAbort := true }
  | .handler c => .handler { c with readAbort := true }
  | p => p

/-- `*stream->abort = true` -/
def abortRecv : Place → Place
  | .loop c => .loop { c with recvAbort := true }
  | .handler c => .handler { c with recvAbort := true }
  | p => p

end Place

structure ServerWorld where
  /-- `none` before the session is created and once it is freed -/
  session : Option Session
  reactor : Reactor ServerUser
  place : Place
  touched : Bool
  /-- how often `list_erase` has freed the session -/
  frees : ℕ
  /-- all bytes received -/
  input : Bytes
  /-- the requests the handler was called with -/
  requests : List Contents
  /-- the requests the user has answered -/
  answered : List ℕ
  /-- the responses appended to the output, each with the request it answers -/
  responses : List (ℕ × Bytes)

inductive ServerLabel
  /-- `server_create_session` -/
  | accept (fd : ℤ) (type : StreamType)
  /-- `stream_recv` on a positive result -/
  | recv (slot : ℕ) (received : Bytes)
  /-- `stream_recv` on any other result -/
  | recvEnd (slot : ℕ) (result : ℤ)
  /-- `stream_send` -/
  | send (slot : ℕ) (result : ℤ)
  /-- `server_session_next` -/
  | next (slot : ℕ)
  /-- the reactor calls a callback that does not belong to the session -/
  | call (slot : ℕ)
  /-- one turn of the loop in `server_session_read` -/
  | turn
  /-- the handler, or the user's callback, returns -/
  | leave
  /-- `server_respond`, whose response has the bytes `d` -/
  | respond (k : ℕ) (d : Bytes)
  /-- `server_disconnect` -/
  | disconnect (k : ℕ)
  /-- `server_respond` and at once `server_disconnect` -/
  | respondDisconnect (k : ℕ) (d : Bytes)
  | otherNext (n : ℕ)
  | otherSubmit (op : Op) (n : ℕ)
  | otherCancel (id : Id) (n : ℕ)

namespace ServerWorld

def construct : ServerWorld where
  session := none
  reactor := .construct
  place := .outside
  touched := false
  frees := 0
  input := []
  requests := []
  answered := []
  responses := []

def serverCreateSession (w : ServerWorld) (fd : ℤ) (type : StreamType) : ServerWorld :=
  let (stream, r) := Stream.construct.streamOpen ServerUser.stream fd 0 type w.reactor
  { w with
    session := some ⟨⟨.null, .null, none, []⟩, stream, true, false, false, none⟩, reactor := r }

def serverSessionClose (w : ServerWorld) (s : Session) : ServerWorld :=
  let (stream, r) := s.stream.streamClose ServerUser.stream w.reactor
  let place := if s.abort then w.place.abortRead else w.place
  let r := match s.next with
    | some id => r.reactorCancel .noop id .noop
    | none => r
  if s.ready then
    -- `stream_destruct` closes once more and sets the flag of a running `stream_recv`
    { w with
      session := none
      reactor := (stream.streamClose ServerUser.stream r).2
      place := if stream.abort then place.abortRecv else place
      frees := w.frees + 1 }
  else
    { w with
      session := some { s with stream := stream, next := none }, reactor := r, place := place }

/-- The reactor calls the stream, which reports its end to `server_session_stream`. -/
def closeEvent (w : ServerWorld) (slot : ℕ) (s : Session) : ServerWorld :=
  let w := { w with reactor := w.reactor.take slot }.serverSessionClose s
  { w with reactor := w.reactor.freeUser slot }

/-- The server goes on with a session. -/
def use (w : ServerWorld) (f : Session → Option ServerWorld) : Option ServerWorld :=
  match w.session with
  | some s => f s
  | none => some { w with touched := true }

/-- `server_session_read` has returned to its caller, which returns too. -/
def returnRead (w : ServerWorld) (c : Reading) : Option ServerWorld :=
  if c.recv ∧ ¬ c.recvAbort then
    w.use fun s =>
      let (stream, r) := s.stream.recvEnd ServerUser.stream w.reactor
      some { w with
        session := some { s with stream := stream }
        reactor := r.freeUser c.slot
        place := .outside }
  else some { w with reactor := w.reactor.freeUser c.slot, place := .outside }

def flushRead (w : ServerWorld) (c : Reading) (s : Session) : Option ServerWorld :=
  let (stream, r) := s.stream.streamFlush ServerUser.stream w.reactor
  { w with session := some { s with stream := stream }, reactor := r }.returnRead c

/-- One turn of the loop in `server_session_read` -/
def turn (phr : Parser) (w : ServerWorld) (c : Reading) (s : Session) : Option ServerWorld :=
  if s.ready then
    match httpReadRequest phr s.stream s.request with
    | .error _ => none
    | .ok (n, q, stream) =>
      let t := { s with request := q, stream := stream }
      if n = -1 then
        let w := w.serverSessionClose t
        match w.place with
        | .loop c => w.returnRead c
        | _ => none
      else if n = 0 then w.flushRead c t
      else
        some { w with
          session := some { t with ready := false, processing := true, abort := true }
          place := .handler c
          requests := w.requests ++ [q.contents (stream.input.data.drop s.stream.inputConsumed)] }
  else w.flushRead c s

def serverRespond (w : ServerWorld) (d : Bytes) (s : Session) : ServerWorld :=
  let s := { s with ready := true }
  if s.stream.isOpen then
    let s := { s with stream := s.stream.writeData d }
    if s.processing then { w with session := some s }
    else
      let (stream, r) := s.stream.streamFlush ServerUser.stream w.reactor
      let (id, r) := r.reactorNext .next
      { w with session := some { s with stream := stream, next := some id }, reactor := r }
  else w.serverSessionClose s

def serverDisconnect (w : ServerWorld) (s : Session) : ServerWorld :=
  w.serverSessionClose { s with ready := true }

def Calls (w : ServerWorld) (slot : ℕ) (u : ServerUser) : Prop :=
  w.place = .outside ∧ slot ∈ w.reactor.pending ∧ w.reactor.users slot = some u

instance (w : ServerWorld) (slot : ℕ) (u : ServerUser) : Decidable (w.Calls slot u) :=
  inferInstanceAs (Decidable (_ ∧ _ ∧ _))

def Answers (w : ServerWorld) (k : ℕ) : Prop :=
  w.place.free ∧ k < w.requests.length ∧ k ∉ w.answered

instance (w : ServerWorld) (k : ℕ) : Decidable (w.Answers k) :=
  inferInstanceAs (Decidable (_ ∧ _ ∧ _))

/-- The user answers a request, by a response or without one. -/
def answer (w : ServerWorld) (k : ℕ) (d : Option Bytes) : ServerWorld :=
  { w with
    answered := w.answered ++ [k]
    responses := match w.session, d with
      | some s, some d => if s.stream.isOpen then w.responses ++ [(k, d)] else w.responses
      | _, _ => w.responses }

/-- A step of a server that has not used a freed session. -/
def act (phr : Parser) (w : ServerWorld) : ServerLabel → Option ServerWorld
  | .accept fd type =>
    if w.place.free ∧ w.session = none ∧ w.frees = 0 ∧ 0 ≤ fd then
      some (w.serverCreateSession fd type)
    else none
  | .recv slot received =>
    if w.Calls slot .recv ∧ received ≠ [] then
      w.use fun s =>
        -- no buffer is larger
        if s.stream.input.size + received.length < 2 ^ 63 then
          some { w with
            session := some { s with stream := s.stream.recvBegin received }
            reactor := w.reactor.take slot
            place := .loop ⟨slot, true, false, false⟩
            input := w.input ++ received }
        else none
    else none
  | .recvEnd slot result =>
    if w.Calls slot .recv ∧ result ≤ 0 then
      w.use fun s => some (w.closeEvent slot { s with stream := { s.stream with read := none } })
    else none
  | .send slot result =>
    if w.Calls slot .send then
      w.use fun s =>
        if 0 < result then
          let (stream, r) := s.stream.sendDone ServerUser.stream result.toNat (w.reactor.take slot)
          some { w with session := some { s with stream := stream }, reactor := r.freeUser slot }
        else some (w.closeEvent slot { s with stream := { s.stream with write := none } })
    else none
  | .next slot =>
    if w.Calls slot .next then
      w.use fun s =>
        some { w with
          session := some { s with next := none }
          reactor := w.reactor.take slot
          place := .loop ⟨slot, false, false, false⟩ }
    else none
  | .call slot =>
    if w.place = .outside ∧ slot ∈ w.reactor.pending then
      match w.reactor.users slot with
      | some (.other _) => some { w with reactor := w.reactor.take slot, place := .user slot }
      | some .noop | some .releaseBuffer =>
        some { w with reactor := (w.reactor.take slot).freeUser slot }
      | _ => none
    else none
  | .turn =>
    match w.place with
    | .loop c => w.use (w.turn phr c)
    | _ => none
  | .leave =>
    match w.place with
    | .handler c =>
      if c.readAbort then w.returnRead c
      else w.use fun s =>
        some { w with
          session := some { s with abort := false, processing := false }, place := .loop c }
    | .user slot => some { w with reactor := w.reactor.freeUser slot, place := .outside }
    | _ => none
  | .respond k d =>
    if w.Answers k then
      (w.answer k (some d)).use fun s => some ((w.answer k (some d)).serverRespond d s)
    else none
  | .disconnect k =>
    if w.Answers k then (w.answer k none).use fun s => some ((w.answer k none).serverDisconnect s)
    else none
  | .respondDisconnect k d =>
    if w.Answers k then
      (w.answer k (some d)).use fun s =>
        let w := (w.answer k (some d)).serverRespond d s
        w.use fun s => some (w.serverDisconnect s)
    else none
  | .otherNext n =>
    if w.place.free then some { w with reactor := (w.reactor.reactorNext (.other n)).2 } else none
  | .otherSubmit op n =>
    if w.place.free then some { w with reactor := (w.reactor.submit op (.other n)).2 } else none
  | .otherCancel id n =>
    if w.place.free then
      match w.reactor.users id.slot with
      | some (.other _) => some { w with reactor := w.reactor.reactorCancel .noop id (.other n) }
      | _ => none
    else none

def step (phr : Parser) (w : ServerWorld) (l : ServerLabel) : Option ServerWorld :=
  if w.touched then none else w.act phr l

/-- A step with a parser of its own: each call of `http_read_request` finds other bytes behind the
input. -/
def stepEach (w : ServerWorld) (l : Parser × ServerLabel) : Option ServerWorld := w.step l.1 l.2

end ServerWorld

end LibReactor
