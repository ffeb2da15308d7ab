import LibReactor.Memory
import LibReactor.Transition
import Mathlib.Logic.Function.Basic

/-!
# Network tasks

The tasks of `network_resolve`, `network_accept` and `network_connect`, the cache of address
lists and the lookups that fill it. A thread goes through its calls in small steps, between
which worker threads may store results; the program runs in callbacks and between events.
Freed tasks keep their contents, and a use of one is a failure.
-/

namespace LibReactor

/-- The callback and state of a `reactor_user_t`: the program's, or `network_accept_resolve` or
`network_connect_resolve` with the task that has asked for the address. -/
inductive NetworkUser
  | program
  | accept (t : ℕ)
  | connect (t : ℕ)
  deriving DecidableEq

inductive NetworkType
  | resolve
  | accept
  | connect
  deriving DecidableEq

/-- `network_resolve_task_t`, `network_accept_task_t` and `network_connect_task_t` -/
structure NetworkTask where
  type : NetworkType
  user : NetworkUser
  host : Option Bytes
  /-- whether `next` is the id of a call to come -/
  next : Bool
  resolve : Option ℕ
  fd : Option ℕ
  /-- whether `accept` or `connect` is the id of an operation in flight -/
  op : Bool
  deriving DecidableEq

def nullHost : Bytes := [60, 110, 117, 108, 108, 62]

def NetworkTask.key (task : NetworkTask) : Bytes := task.host.getD nullHost

/-- A copy of the user of a resolve task. -/
structure NetworkRequest where
  task : ℕ
  user : NetworkUser
  deriving DecidableEq

structure NetworkCache where
  expire : ℕ
  ai : Option ℕ
  /-- the lookup in flight -/
  async : Option ℕ
  deriving DecidableEq

/-- A call of `getaddrinfo` in a worker thread. -/
structure NetworkLookup where
  key : Bytes
  /-- what it has stored, once it has -/
  result : Option (Option ℕ)
  /-- whether `REACTOR_RETURN` has come -/
  returned : Bool
  deriving DecidableEq

inductive NetworkEvent
  | error
  | resolve (ai : Option ℕ)
  | accept (fd : ℕ)
  | acceptBind (fd : ℕ)
  | connect (fd : Option ℕ)
  deriving DecidableEq

/-- The events after which a task has ended. -/
def NetworkEvent.terminal : NetworkEvent → Bool
  | .error | .resolve _ | .connect _ => true
  | .accept _ | .acceptBind _ => false

inductive NetworkSource
  | numeric
  | cached
  | lookup (n : ℕ)
  deriving DecidableEq

/-- A call with `NETWORK_RESOLVE`. -/
structure NetworkReply where
  task : ℕ
  source : NetworkSource
  ai : Option ℕ
  /-- whether the list has not been freed -/
  live : Bool
  deriving DecidableEq

/-- What the thread is in, or has to do next. -/
inductive NetworkFrame
  /-- a callback of the program -/
  | called (t : ℕ) (event : NetworkEvent)
  /-- `reactor_call` with `NETWORK_RESOLVE` -/
  | resolved (request : NetworkRequest) (source : NetworkSource) (ai : Option ℕ)
  /-- the requests that are left to `network_resolve_task_async` -/
  | deliver (lookup : ℕ) (requests : List NetworkRequest)
  /-- `freeaddrinfo` -/
  | freeAddress (ai : Option ℕ)
  /-- `network_resolve_task_done` -/
  | resolveDone (t : ℕ)
  /-- the rest of `network_error` -/
  | errorCancel (t : ℕ)
  /-- the rest of `network_connect_task_callback` -/
  | connectDone (t : ℕ)
  deriving DecidableEq

inductive NetworkCall
  | call (t : ℕ) (event : NetworkEvent)
  | cancel (t : ℕ)
  deriving DecidableEq

/-- How far `socket` and `bind` get. -/
inductive SocketResult
  | noSocket
  | noBind
  | ready
  deriving DecidableEq

structure Network where
  /-- `reactor_now()` -/
  now : ℕ
  cacheExpiration : ℕ
  /-- the number of tasks that have been made -/
  tasks : ℕ
  task : ℕ → NetworkTask
  freed : List ℕ
  cache : Bytes → Option NetworkCache
  /-- the `requests` of the cache entries, with the keys of these -/
  requests : List (Bytes × NetworkRequest)
  lookups : List NetworkLookup
  /-- the number of address lists that have been made -/
  lists : ℕ
  freedLists : List ℕ
  /-- the number of descriptors that have been opened -/
  fds : ℕ
  closed : List ℕ
  stack : List NetworkFrame
  /-- the tasks whose ids the program no longer holds -/
  released : List ℕ
  log : List NetworkCall
  replies : List NetworkReply
  /-- whether a freed task has been used -/
  failed : Bool

inductive NetworkLabel
  | resolve (host : Option Bytes)
  | accept (host : Option Bytes)
  | acceptSocket
  | connect (host : Option Bytes)
  | cancel (t : ℕ)
  /-- the call of `network_resolve_task_next`, and whether a numeric host has an address -/
  | next (t : ℕ) (found : Bool)
  /-- a worker's `getaddrinfo` ends -/
  | store (lookup : ℕ) (found : Bool)
  /-- `REACTOR_RETURN` -/
  | asyncReturn (lookup : ℕ)
  /-- the operation of a task completes -/
  | complete (t : ℕ) (success : Bool)
  /-- the program's callback returns -/
  | return
  /-- the thread goes on; `socket` is for the addresses that it gets to -/
  | go (socket : SocketResult)
  | time (now : ℕ)
  /-- `network_expire` -/
  | expire (time : ℕ)
  deriving DecidableEq

namespace Network

def setTask (t : ℕ) (task : NetworkTask) (s : Network) : Network :=
  { s with task := Function.update s.task t task }

def setCache (key : Bytes) (c : NetworkCache) (s : Network) : Network :=
  { s with cache := Function.update s.cache key (some c) }

def push (f : NetworkFrame) (s : Network) : Network := { s with stack := f :: s.stack }

def call (t : ℕ) (event : NetworkEvent) (s : Network) : Network :=
  { s with stack := .called t event :: s.stack, log := s.log ++ [.call t event] }

def access (t : ℕ) (f : Network → Network) (s : Network) : Network :=
  if t ∈ s.freed then { s with failed := true } else f s

def erase (t : ℕ) (s : Network) : Network := { s with freed := s.freed ++ [t] }

def freeaddrinfo : Option ℕ → Network → Network
  | none, s => s
  | some a, s => { s with freedLists := s.freedLists ++ [a] }

def close : Option ℕ → Network → Network
  | none, s => s
  | some fd, s => { s with closed := s.closed ++ [fd] }

def getaddrinfo (found : Bool) (s : Network) : Option ℕ × Network :=
  if found then (some s.lists, { s with lists := s.lists + 1 }) else (none, s)

def networkTask (task : NetworkTask) (s : Network) : Network :=
  { s with tasks := s.tasks + 1, task := Function.update s.task s.tasks task }

/-! ## The end of a task -/

def networkResolveTaskDone (t : ℕ) : Network → Network :=
  access t fun s => (s.setTask t { s.task t with next := false }).erase t

/-- The body of `network_accept_task_done` and `network_connect_task_done`; the task that is
cancelled is a resolve task. -/
def networkTaskDone (t : ℕ) : Network → Network :=
  access t fun s =>
    let s := match (s.task t).resolve with
      | none => s
      | some r => s.networkResolveTaskDone r
    if s.failed then s
    else (((s.close (s.task t).fd).setTask t { s.task t with op := false })).erase t

def networkAcceptTaskDone (t : ℕ) : Network → Network := networkTaskDone t

def networkConnectTaskDone (t : ℕ) : Network → Network := networkTaskDone t

def networkCancel (t : ℕ) : Network → Network :=
  access t fun s =>
    match (s.task t).type with
    | .resolve => s.networkResolveTaskDone t
    | .accept => s.networkAcceptTaskDone t
    | .connect => s.networkConnectTaskDone t

/-- `network_error` up to the return of the callback -/
def networkError (t : ℕ) : Network → Network :=
  access t fun s => (s.push (.errorCancel t)).call t .error

/-! ## Sockets -/

def openSocket (t : ℕ) (s : Network) : Network :=
  { s.setTask t { s.task t with fd := some s.fds } with fds := s.fds + 1 }

/-- The operation of a task: `reactor_accept` or `reactor_connect`. -/
def arm (t : ℕ) (s : Network) : Network := s.setTask t { s.task t with op := true }

def networkAcceptTaskAccept (t : ℕ) : Network → Network := arm t

def networkAcceptTaskSocket (t : ℕ) (socket : SocketResult) (s : Network) : Network :=
  match socket with
  | .noSocket => s.networkError t
  | .noBind => (s.openSocket t).networkError t
  | .ready => ((s.openSocket t).networkAcceptTaskAccept t).call t (.acceptBind s.fds)

def networkConnectTaskSocket (t : ℕ) (socket : SocketResult) (s : Network) : Network :=
  if socket = .noSocket then s.networkError t else (s.openSocket t).arm t

def networkAcceptResolve (t : ℕ) (ai : Option ℕ) (socket : SocketResult) : Network → Network :=
  access t fun s =>
    let s := s.setTask t { s.task t with resolve := none }
    if ai = none then s.networkError t else s.networkAcceptTaskSocket t socket

def networkConnectResolve (t : ℕ) (ai : Option ℕ) (socket : SocketResult) : Network → Network :=
  access t fun s =>
    let s := s.setTask t { s.task t with resolve := none }
    if ai = none then s.networkError t else s.networkConnectTaskSocket t socket

/-- `network_accept_task_callback`; an operation that succeeds has made a descriptor. -/
def networkAcceptTaskCallback (t : ℕ) (success : Bool) : Network → Network :=
  access t fun s =>
    let s := s.setTask t { s.task t with op := false }
    if success then
      { (s.networkAcceptTaskAccept t).call t (.accept s.fds) with fds := s.fds + 1 }
    else s.networkError t

def networkConnectTaskCallback (t : ℕ) (success : Bool) : Network → Network :=
  access t fun s =>
    let s := s.setTask t { s.task t with op := false }
    if success then (s.push (.connectDone t)).call t (.connect (s.task t).fd)
    else s.networkError t

def complete (t : ℕ) (success : Bool) (s : Network) : Network :=
  if (s.task t).type = .connect then s.networkConnectTaskCallback t success
  else s.networkAcceptTaskCallback t success

/-! ## Resolving -/

/-- `network_resolve_task_is_numeric`, with the signed `char` -/
def networkResolveTaskIsNumeric : Option Bytes → Bool
  | none => false
  | some name => name.all fun b => b < 65 ∨ 128 ≤ b

def reply (r : NetworkRequest) (source : NetworkSource) (ai : Option ℕ) (socket : SocketResult)
    (s : Network) : Network :=
  let s : Network := { s with
    replies := s.replies ++ [⟨r.task, source, ai, ai.all fun a => a ∉ s.freedLists⟩] }
  match r.user with
  | .program => s.call r.task (.resolve ai)
  | .accept t => s.networkAcceptResolve t ai socket
  | .connect t => s.networkConnectResolve t ai socket

/-- `network_resolve_task_next` where the request is queued -/
def enqueue (t : ℕ) (key : Bytes) (c : NetworkCache) (s : Network) : Network :=
  let s := s.freeaddrinfo c.ai
  let c := if c.ai = none then c else { c with ai := none, expire := 0 }
  let s : Network := { s with requests := s.requests ++ [(key, ⟨t, (s.task t).user⟩)] }
  let s : Network := if c.async = none then
      { s.setCache key { c with async := some s.lookups.length } with
        lookups := s.lookups ++ [⟨key, none, false⟩] }
    else s.setCache key c
  s.networkResolveTaskDone t

def networkResolveTaskNext (t : ℕ) (found : Bool) : Network → Network :=
  access t fun s =>
    let s := s.setTask t { s.task t with next := false }
    let request : NetworkRequest := ⟨t, (s.task t).user⟩
    if networkResolveTaskIsNumeric (s.task t).host then
      let (ai, s) := s.getaddrinfo found
      ((s.push (.resolveDone t)).push (.freeAddress ai)).push (.resolved request .numeric ai)
    else
      let key := (s.task t).key
      let c := (s.cache key).getD ⟨0, none, none⟩
      if c.ai ≠ none ∧ s.now < c.expire then
        (s.push (.resolveDone t)).push (.resolved request .cached c.ai)
      else s.enqueue t key c

/-- `network_resolve_task_async` in the worker; a lookup that fails stores nothing. -/
def store (n : ℕ) (lookup : NetworkLookup) (found : Bool) (s : Network) : Network :=
  let (ai, s) := s.getaddrinfo found
  let s := { s with lookups := s.lookups.set n { lookup with result := some ai } }
  match s.cache lookup.key with
  | some c => if found then s.setCache lookup.key { c with ai := ai } else s
  | none => s

/-- `network_resolve_task_async` with `REACTOR_RETURN`, up to the first request -/
def asyncReturn (n : ℕ) (lookup : NetworkLookup) (s : Network) : Network :=
  let due := s.requests.filter fun x => x.1 = lookup.key
  let s := { s with
    lookups := s.lookups.set n { lookup with returned := true }
    requests := s.requests.filter fun x => x.1 ≠ lookup.key
    stack := .deliver n (due.map Prod.snd) :: s.stack }
  match s.cache lookup.key with
  | some c =>
    s.setCache lookup.key
      { c with async := none, expire := (s.now + s.cacheExpiration) % 2 ^ 64 }
  | none => s

def cached (n : ℕ) (s : Network) : Option ℕ :=
  (s.lookups[n]?.bind fun lookup => s.cache lookup.key).bind NetworkCache.ai

/-! ## The interface -/

def networkResolve (user : NetworkUser) (host : Option Bytes) : Network → Network :=
  networkTask ⟨.resolve, user, host, true, none, none, false⟩

def networkAccept (host : Option Bytes) (s : Network) : Network :=
  (s.networkTask ⟨.accept, .program, none, false, some (s.tasks + 1), none, false⟩).networkResolve
    (.accept s.tasks) host

/-- `network_accept_socket`, with a descriptor that the program has opened -/
def networkAcceptSocket (s : Network) : Network :=
  { networkAcceptTaskAccept s.tasks
      (s.networkTask ⟨.accept, .program, none, false, none, some s.fds, false⟩) with
    fds := s.fds + 1 }

def networkConnect (host : Option Bytes) (s : Network) : Network :=
  (s.networkTask ⟨.connect, .program, none, false, some (s.tasks + 1), none, false⟩).networkResolve
    (.connect s.tasks) host

def mayCall (s : Network) : Bool :=
  match s.stack with
  | [] | .called _ _ :: _ => true
  | _ => false

def holds (t : ℕ) (s : Network) : Bool :=
  t < s.tasks ∧ (s.task t).user = .program ∧ t ∉ s.released

def go (socket : SocketResult) (s : Network) : Option Network :=
  match s.stack with
  | .resolved r source ai :: rest => some ({ s with stack := rest }.reply r source ai socket)
  | .deliver n (r :: rs) :: rest =>
    some { s with stack := .resolved r (.lookup n) (s.cached n) :: .deliver n rs :: rest }
  | .deliver _ [] :: rest => some { s with stack := rest }
  | .freeAddress ai :: rest => some ({ s with stack := rest }.freeaddrinfo ai)
  | .resolveDone t :: rest => some ({ s with stack := rest }.networkResolveTaskDone t)
  | .errorCancel t :: rest => some ({ s with stack := rest }.networkCancel t)
  | .connectDone t :: rest =>
    some (access t (fun s =>
      (s.setTask t { s.task t with fd := none }).networkConnectTaskDone t) { s with stack := rest })
  | _ => none

/-- A step; the use of a freed task ends the run. -/
def step (s : Network) (l : NetworkLabel) : Option Network :=
  if s.failed then none
  else
    match l with
    | .resolve host => if s.mayCall then some (s.networkResolve .program host) else none
    | .accept host => if s.mayCall then some (s.networkAccept host) else none
    | .acceptSocket => if s.mayCall then some s.networkAcceptSocket else none
    | .connect host => if s.mayCall then some (s.networkConnect host) else none
    | .cancel t =>
      if s.mayCall ∧ s.holds t then
        some ({ s with
          log := s.log ++ [NetworkCall.cancel t]
          released := s.released ++ [t] }.networkCancel t)
      else none
    | .next t found =>
      if s.stack = [] ∧ (s.task t).next then some (s.networkResolveTaskNext t found) else none
    | .store n found =>
      match s.lookups[n]? with
      | some lookup => if lookup.result = none then some (s.store n lookup found) else none
      | none => none
    | .asyncReturn n =>
      match s.lookups[n]? with
      | some lookup =>
        if s.stack = [] ∧ lookup.result ≠ none ∧ lookup.returned = false then
          some (s.asyncReturn n lookup)
        else none
      | none => none
    | .complete t success =>
      if s.stack = [] ∧ (s.task t).op then some (s.complete t success) else none
    | .return =>
      match s.stack with
      | .called t event :: rest =>
        some { s with
          stack := rest
          released := if event.terminal then s.released ++ [t] else s.released }
      | _ => none
    | .go socket => s.go socket
    | .time now => some { s with now := now }
    | .expire time => if s.mayCall then some { s with cacheExpiration := time } else none

def construct (cacheExpiration : ℕ) : Network where
  now := 0
  cacheExpiration := cacheExpiration
  tasks := 0
  task _ := ⟨.resolve, .program, none, false, none, none, false⟩
  freed := []
  cache _ := none
  requests := []
  lookups := []
  lists := 0
  freedLists := []
  fds := 0
  closed := []
  stack := []
  released := []
  log := []
  replies := []
  failed := false

end Network

end LibReactor
