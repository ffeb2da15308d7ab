import LibReactor.Queue

/-!
# Flows

The nodes of a group share a thread, and a message from one to another is a call. A message
to a node of another group goes through the queue of that node, as a pointer, and `NULL`
there says that a producer signs off. A module's functions are called in any order that the
threads allow, and may send and exit in turn for the nodes they have been given.
-/

namespace LibReactor

def pointerSize : ℕ := 8

/-- `NULL` as an element of a queue -/
def nullMessage : Bytes := List.replicate pointerSize 0

/-- Which functions a `flow_table_t` has. -/
structure FlowTable where
  create : Bool
  receive : Bool
  destroy : Bool

/-- The nodes and the edges that `flow_node` and `flow_connect` have made, in this order. -/
structure FlowGraph where
  nodes : ℕ
  group : ℕ → ℕ
  table : ℕ → FlowTable
  edges : ℕ
  source : ℕ → ℕ
  target : ℕ → ℕ
  connected : ∀ k < edges, source k < nodes ∧ target k < nodes

namespace FlowGraph

variable (G : FlowGraph)

def direct (k : ℕ) : Bool := G.group (G.source k) = G.group (G.target k)

def directEdges (i : ℕ) : List ℕ :=
  (List.range G.edges).filter fun k => G.source k = i ∧ G.direct k

def queuedEdges (i : ℕ) : List ℕ :=
  (List.range G.edges).filter fun k => G.source k = i ∧ !G.direct k

/-- The edges for which `flow_node_connect` has counted a source of the consumer. -/
def sourceEdges (j : ℕ) : List ℕ :=
  (List.range G.edges).filter fun k => G.target k = j ∧ !G.direct k

end FlowGraph

/-- Whether a `queue_consumer_t` has its queue: not yet, now, or no more. -/
inductive FlowConsumer
  | unopened
  | opened
  | closed
  deriving DecidableEq

structure FlowInbox where
  queue : Queue
  consumer : FlowConsumer
  consumerSources : ℕ

/-- The part of a `flow_node_t` that its own thread changes. -/
structure FlowNode where
  started : Bool
  /-- whether `flow_node_start` has opened the producers of the edges -/
  opened : Bool
  /-- whether a function of the module has been given the node -/
  known : Bool

/-- What a thread is in: a function of a module for a node or one of its event callbacks,
`flow_node_send` with the direct edges that are left, or `queue_consumer_read`. -/
inductive FlowFrame
  | create (i : ℕ)
  | receive (i : ℕ)
  | destroy (i : ℕ)
  | event
  | send (i : ℕ) (message : Bytes) (edges : List ℕ)
  | read (j : ℕ)
  deriving DecidableEq

/-- The calls of a module's functions, and where `flow_node_start` has got past `create`. -/
inductive FlowCall
  | create (i : ℕ)
  | created (i : ℕ)
  | receive (i : ℕ)
  | destroy (i : ℕ)
  deriving DecidableEq

inductive FlowMessage
  /-- `flow_send` of a node is called -/
  | send (i : ℕ) (message : Bytes)
  /-- it has pushed the message on the queued edges -/
  | sent (i : ℕ) (message : Bytes)
  /-- the `receive` of a node is called, over a direct edge or for an element of its queue -/
  | receive (j : ℕ) (message : Bytes) (edge : Option ℕ)
  deriving DecidableEq

inductive FlowPhase
  | starting
  | looping
  | stopping
  deriving DecidableEq

inductive FlowFailure
  /-- an element is pushed to a producer without a queue -/
  | unopenedProducer
  | assertion
  deriving DecidableEq

structure FlowState where
  node : ℕ → FlowNode
  inbox : ℕ → FlowInbox
  phase : ℕ → FlowPhase
  /-- what the thread of each group is in, the innermost call first -/
  stack : ℕ → List FlowFrame
  log : List FlowCall
  messages : List FlowMessage
  /-- the nodes that have called `flow_exit` -/
  exited : ℕ → Bool
  failure : Option FlowFailure

inductive FlowLabel
  | start (i : ℕ)
  | enterLoop (g : ℕ)
  /-- an event of a module's own -/
  | event (g : ℕ)
  /-- the function of a module that runs returns -/
  | ret (g : ℕ)
  | send (i : ℕ) (message : Bytes)
  | exit (i : ℕ)
  /-- `flow_node_send` or `queue_consumer_read` goes on -/
  | next (g : ℕ)
  | read (j : ℕ)
  | leaveLoop (g : ℕ)
  | stop (i : ℕ)
  /-- a read of a node's queue takes `n` bytes out of the pipe -/
  | fill (j n : ℕ)
  /-- any other step of a node's queue -/
  | queue (j : ℕ) (l : QueueLabel)

namespace FlowInbox

def openConsumer (b : FlowInbox) : Option FlowInbox :=
  if b.consumerSources ≠ 0 then
    (b.queue.step (.pop 0)).map fun q => { b with queue := q, consumer := .opened }
  else some b

def handled (b : FlowInbox) : List Bytes := b.queue.popped 0

def signOff (b : FlowInbox) : FlowInbox :=
  let b := { b with consumerSources := b.consumerSources - 1 }
  if b.consumerSources = 0 then { b with consumer := .closed } else b

end FlowInbox

namespace FlowState

def setNode (i : ℕ) (n : FlowNode) (s : FlowState) : FlowState :=
  { s with node := Function.update s.node i n }

def setInbox (j : ℕ) (b : FlowInbox) (s : FlowState) : FlowState :=
  { s with inbox := Function.update s.inbox j b }

def setPhase (g : ℕ) (p : FlowPhase) (s : FlowState) : FlowState :=
  { s with phase := Function.update s.phase g p }

def setStack (g : ℕ) (fs : List FlowFrame) (s : FlowState) : FlowState :=
  { s with stack := Function.update s.stack g fs }

def pushFrame (g : ℕ) (f : FlowFrame) (s : FlowState) : FlowState :=
  s.setStack g (f :: s.stack g)

def record (c : FlowCall) (s : FlowState) : FlowState := { s with log := s.log ++ [c] }

def note (m : FlowMessage) (s : FlowState) : FlowState := { s with messages := s.messages ++ [m] }

def fail (f : FlowFailure) (s : FlowState) : FlowState := { s with failure := some f }

/-- The thread of a group is in `reactor_loop` and in no callback. -/
def idle (g : ℕ) (s : FlowState) : Bool := s.phase g = .looping ∧ s.stack g = []

end FlowState

namespace FlowGraph

variable (G : FlowGraph)

def flowNodeReceive (i : ℕ) (message : Bytes) (edge : Option ℕ) (s : FlowState) : FlowState :=
  if (G.table i).receive then
    (((s.setNode i { s.node i with known := true }).record (.receive i)).note
      (.receive i message edge)).pushFrame (G.group i) (.receive i)
  else s

def flowNodeConsumer (j : ℕ) (message : Bytes) (s : FlowState) : FlowState :=
  if message ≠ nullMessage then G.flowNodeReceive j message none s
  else s.setInbox j (s.inbox j).signOff

/-- A turn of the loop of `queue_consumer_read`, which has brought the queue into a new state: an
element for `flow_node_consumer`, or the end. -/
def consumerTurn (g j : ℕ) (rest : List FlowFrame) (q : Queue) (s : FlowState) : FlowState :=
  let element := (q.popped 0)[(s.inbox j).handled.length]?
  let s := s.setInbox j { s.inbox j with queue := q }
  match element with
  | some message => G.flowNodeConsumer j message (s.setStack g (.read j :: rest))
  | none => s.setStack g rest

/-- `flow_node_start` up to the return of `create` -/
def flowNodeStart (i : ℕ) (s : FlowState) : Option FlowState :=
  (s.inbox i).openConsumer.map fun b =>
    let s := s.setInbox i b
    let n := { s.node i with opened := true }
    if (G.table i).create then
      ((s.setNode i { n with known := true }).record (.create i)).pushFrame (G.group i) (.create i)
    else (s.setNode i { n with started := true }).record (.created i)

def flowNodeStop (i : ℕ) (s : FlowState) : FlowState :=
  if (s.node i).started = false then s
  else
    let s := s.setNode i { s.node i with started := false }
    if (G.table i).destroy then (s.record (.destroy i)).pushFrame (G.group i) (.destroy i) else s

def pushEdge (message : Bytes) (s : FlowState) (k : ℕ) : Option FlowState :=
  ((s.inbox (G.target k)).queue.step (.push k message)).map fun q =>
    s.setInbox (G.target k) { s.inbox (G.target k) with queue := q }

def pushEdges (i : ℕ) (message : Bytes) (s : FlowState) : Option FlowState :=
  if G.queuedEdges i ≠ [] ∧ (s.node i).opened = false then some (s.fail .unopenedProducer)
  else (G.queuedEdges i).foldlM (G.pushEdge message) s

def flowExit (i : ℕ) (s : FlowState) : Option FlowState :=
  (G.pushEdges i nullMessage s).map fun s =>
    if s.failure.isSome then s
    else G.flowNodeStop i { s with exited := Function.update s.exited i true }

/-- A function of a module runs in the thread of a node that a module has been given. -/
def callable (i : ℕ) (s : FlowState) : Bool :=
  (s.node i).known && match s.stack (G.group i) with
    | .create _ :: _ | .receive _ :: _ | .destroy _ :: _ | .event :: _ => true
    | _ => false

/-- The steps of a queue besides `fill`: whole elements enter the pipe at any time, the
callbacks of its producers and of its consumer come when their threads wait for events. -/
def asynchronous (j : ℕ) (s : FlowState) : QueueLabel → Bool
  | .accept _ n => pointerSize ∣ n
  | .wrote k => s.idle (G.group (G.source k))
  | .writeInterrupted k => s.idle (G.group (G.source k))
  | .readInterrupted c => c = 0 ∧ (s.inbox j).consumer = .opened ∧ s.idle (G.group j)
  | _ => false

/-- The state after the innermost `flow_node_send` or `queue_consumer_read` has gone on. -/
def next (g : ℕ) (s : FlowState) : Option FlowState :=
  match s.stack g with
  | .send i message (k :: ks) :: rest =>
    some (G.flowNodeReceive (G.target k) message (some k)
      (s.setStack g (.send i message ks :: rest)))
  | .send i message [] :: rest =>
    (G.pushEdges i message s).map fun s =>
      if s.failure.isSome then s else (s.note (.sent i message)).setStack g rest
  | .read j :: rest =>
    -- `abort`
    if (s.inbox j).consumer = .closed then some (s.setStack g rest)
    else ((s.inbox j).queue.step (.next 0)).map fun q => G.consumerTurn g j rest q s
  | _ => none

def step (s : FlowState) (l : FlowLabel) : Option FlowState :=
  if s.failure.isSome then none
  else
    match l with
    | .start i =>
      if i < G.nodes ∧ s.phase (G.group i) = .starting ∧ s.stack (G.group i) = [] ∧
          (s.node i).opened = false then G.flowNodeStart i s else none
    | .enterLoop g =>
      if s.phase g = .starting ∧ s.stack g = [] ∧
          ∀ i < G.nodes, G.group i = g → (s.node i).opened = true then
        some (s.setPhase g .looping)
      else none
    | .event g => if s.idle g then some (s.pushFrame g .event) else none
    | .ret g =>
      match s.stack g with
      | .create i :: rest =>
        some (((s.setNode i { s.node i with started := true }).record (.created i)).setStack g rest)
      | .receive _ :: rest | .destroy _ :: rest | .event :: rest => some (s.setStack g rest)
      | _ => none
    | .send i message =>
      if G.callable i s ∧ message.length = pointerSize then
        some ((s.note (.send i message)).pushFrame (G.group i)
          (.send i message (G.directEdges i)))
      else none
    | .exit i => if G.callable i s then G.flowExit i s else none
    | .next g => G.next g s
    | .read j =>
      if j < G.nodes ∧ s.idle (G.group j) ∧ (s.inbox j).consumer = .opened then
        ((s.inbox j).queue.step (.deliver 0)).map fun q =>
          if q.failed then s.fail .assertion else G.consumerTurn (G.group j) j [] q s
      else none
    | .leaveLoop g => if s.idle g then some (s.setPhase g .stopping) else none
    | .stop i =>
      if i < G.nodes ∧ s.phase (G.group i) = .stopping ∧ s.stack (G.group i) = [] then
        some (G.flowNodeStop i s)
      else none
    | .fill j n =>
      let b := s.inbox j
      if b.consumer = .opened ∧ 0 < n ∧ pointerSize ∣ n then
        (b.queue.step (.fill 0 n)).map fun q => s.setInbox j { b with queue := q }
      else none
    | .queue j l =>
      if G.asynchronous j s l then
        ((s.inbox j).queue.step l).map fun q => s.setInbox j { s.inbox j with queue := q }
      else none

def initial : FlowState where
  node _ := ⟨false, false, false⟩
  inbox j := ⟨Queue.opened pointerSize (fun _ => 256), .unopened, (G.sourceEdges j).length⟩
  phase _ := .starting
  stack _ := []
  log := []
  messages := []
  exited _ := false
  failure := none

end FlowGraph

end LibReactor
