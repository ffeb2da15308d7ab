import LibReactor.Reactor
import LibReactor.Transition

/-!
# File notifications

`notify_t` with the inotify instance that it watches. The maps are the functions that they
represent; their values are entries, which stand for the pointers to them. A world runs the
calls of the program, also from inside the object's event callback, the completions of the
read and the ends of watches in any order.
-/

namespace LibReactor

/-- What the reactor calls: two callbacks have the `notify_t` as their state. -/
inductive NotifyUser
  | noop
  /-- `notify_read` -/
  | read
  /-- `notify_next` -/
  | next
  /-- a callback of another object -/
  | other (n : ℕ)
  deriving DecidableEq, Repr

namespace NotifyUser

def refers : NotifyUser → Bool
  | read | next => true
  | _ => false

end NotifyUser

structure NotifyEntry where
  address : ℕ
  id : ℤ
  path : Bytes
  deriving DecidableEq

/-- The watches of an inotify instance: the file and its descriptor. -/
structure Inotify where
  watches : List (ℕ × ℤ)

namespace Inotify

def ids (k : Inotify) : List ℤ := k.watches.map Prod.snd

/-- `inotify_add_watch` on a path that leads to the file, if to any; `fresh` is for a new watch -/
def addWatch (k : Inotify) (inode : Option ℕ) (fresh : ℤ) : ℤ × Inotify :=
  match inode with
  | none => (-1, k)
  | some i =>
    match k.watches.find? (fun w => w.1 = i) with
    | some w => (w.2, k)
    | none => (fresh, ⟨k.watches ++ [(i, fresh)]⟩)

def drop (k : Inotify) (id : ℤ) : Inotify := ⟨k.watches.filter (fun w => w.2 ≠ id)⟩

def rmWatch (k : Inotify) (id : ℤ) : Option Inotify := if id ∈ k.ids then some (k.drop id) else none

end Inotify

/-- `map_insert` keeps what the key has. -/
def insertNew {α β : Type} [DecidableEq α] (m : α → Option β) (key : α) (value : β) :
    α → Option β :=
  if (m key).isSome then m else Function.update m key (some value)

structure Notify where
  fd : ℤ
  read : Option Id
  next : Option Id
  entries : List NotifyEntry
  ids : ℤ → Option NotifyEntry
  paths : Bytes → Option NotifyEntry
  /-- whether `notify->abort` points to the flag of a `notify_read` -/
  abort : Bool
  /-- how many entries there have been -/
  allocated : ℕ

namespace Notify

def construct : Notify where
  fd := -1
  read := none
  next := none
  entries := []
  ids _ := none
  paths _ := none
  abort := false
  allocated := 0

def bufferSize : ℕ := 4096

def notifyUpdate (n : Notify) (r : Reactor NotifyUser) : Notify × Reactor NotifyUser :=
  match n.read with
  | some id =>
    if n.entries = [] then ({ n with read := none }, r.reactorCancel .noop id .noop) else (n, r)
  | none =>
    if n.entries = [] then (n, r)
    else
      let (id, r) := r.submit (.read n.fd bufferSize 0) .read
      ({ n with read := some id }, r)

def notifyNext (n : Notify) (r : Reactor NotifyUser) : Notify × Reactor NotifyUser :=
  notifyUpdate { n with next := none } r

structure Tables where
  notify : Notify
  inotify : Inotify
  reactor : Reactor NotifyUser

/-- `notify_remove_entry`; `none` if its assertion fails or the entry is freed -/
def notifyRemoveEntry (t : Tables) (e : NotifyEntry) : Option Tables :=
  if e ∉ t.notify.entries then none
  else do
    let inotify ← t.inotify.rmWatch e.id
    let n := { t.notify with
      ids := Function.update t.notify.ids e.id none
      paths := Function.update t.notify.paths e.path none
      entries := t.notify.entries.erase e }
    match n.next with
    | some _ => return ⟨n, inotify, t.reactor⟩
    | none =>
      let (id, r) := t.reactor.reactorNext .next
      return ⟨{ n with next := some id }, inotify, r⟩

/-- `notify_add`, when the path leads to the file -/
def notifyAdd (t : Tables) (path : Bytes) (inode : Option ℕ) (fresh : ℤ) : ℤ × Tables :=
  match t.notify.paths path with
  | some e => (e.id, t)
  | none =>
    let (id, inotify) :=
      if t.notify.fd = -1 then (-1, t.inotify) else t.inotify.addWatch inode fresh
    if id = -1 then (id, { t with inotify := inotify })
    else
      let e : NotifyEntry := ⟨t.notify.allocated, id, path⟩
      let n := { t.notify with
        allocated := t.notify.allocated + 1
        entries := t.notify.entries ++ [e]
        ids := insertNew t.notify.ids id e
        paths := insertNew t.notify.paths path e }
      let (n, r) := n.notifyUpdate t.reactor
      (id, ⟨n, inotify, r⟩)

def notifyRemovePath (t : Tables) (path : Bytes) : Option (Bool × Tables) :=
  match t.notify.paths path with
  | none => some (false, t)
  | some e => (notifyRemoveEntry t e).map fun t => (true, t)

def notifyRemoveId (t : Tables) (id : ℤ) : Option (Bool × Tables) :=
  match t.notify.ids id with
  | none => some (false, t)
  | some e => (notifyRemoveEntry t e).map fun t => (true, t)

/-- The loop of `notify_close` over the front of the list. -/
def removeEntries : ℕ → Tables → Option Tables
  | 0, t => some t
  | n + 1, t =>
    match t.notify.entries with
    | [] => some t
    | e :: _ => (notifyRemoveEntry t e).bind (removeEntries n)

def cancelNext (t : Tables) : Tables :=
  match t.notify.next with
  | some id =>
    { t with
      notify := { t.notify with next := none }
      reactor := t.reactor.reactorCancel .noop id .noop }
  | none => t

/-- `notify_close`; the flag of a running `notify_read` is the world's -/
def notifyClose (t : Tables) : Option Tables :=
  if t.notify.fd = -1 then some t
  else do
    let t ← removeEntries t.notify.entries.length (cancelNext t)
    let (_, r) := t.reactor.submit (.close t.notify.fd) .noop
    return { t with notify := { t.notify with fd := -1 }, reactor := r }

def notifyDestruct (t : Tables) : Option Tables :=
  (notifyClose t).map fun t =>
    { t with
      notify := { t.notify with entries := [], ids := fun _ => none, paths := fun _ => none } }

end Notify

/-! ## The world -/

structure NotifyWorld extends Notify.Tables where
  /-- the slot of the `notify_read` that is running, and the events it has still to handle -/
  reading : Option (ℕ × List ℤ)
  /-- whether it is in its call of the user -/
  calling : Bool
  /-- its flag `abort` -/
  aborted : Bool
  /-- the object is destructed -/
  gone : Bool
  /-- an assertion has failed -/
  failed : Bool

inductive NotifyLabel
  /-- `notify_open` -/
  | open (fd : ℤ)
  | add (path : Bytes) (inode : Option ℕ) (fresh : ℤ)
  | removePath (path : Bytes)
  | removeId (id : ℤ)
  | close
  | destruct
  /-- a file is gone and with it its watch -/
  | drop (id : ℤ)
  /-- the reactor calls the user of a slot; a read has these watches' events -/
  | call (slot : ℕ) (events : List ℤ)
  /-- `notify_read` takes its next event -/
  | event
  /-- the user returns to `notify_read` -/
  | return
  /-- `notify_read` after its last event -/
  | finish
  | otherNext (n : ℕ)
  | otherSubmit (op : Op) (n : ℕ)
  | otherCancel (id : Id) (n : ℕ)

namespace NotifyWorld

def construct : NotifyWorld where
  notify := .construct
  inotify := ⟨[]⟩
  reactor := .construct
  reading := none
  calling := false
  aborted := false
  gone := false
  failed := false

def mayCall (w : NotifyWorld) : Bool := !w.failed && !w.gone && (w.reading.isNone || w.calling)

def after (w : NotifyWorld) : Option Notify.Tables → NotifyWorld
  | some t => { w with toTables := t }
  | none => { w with failed := true }

def abortRead (w : NotifyWorld) : NotifyWorld :=
  if w.notify.fd ≠ -1 ∧ w.notify.abort then { w with aborted := true } else w

def finishRead (w : NotifyWorld) (slot : ℕ) (t : Notify.Tables) : NotifyWorld :=
  { w with
    toTables := { t with reactor := t.reactor.freeUser slot }
    reading := none
    calling := false }

def call (w : NotifyWorld) (slot : ℕ) (events : List ℤ) : NotifyUser → NotifyWorld
  | .read =>
    { w with
      notify := { w.notify with read := none, abort := true }
      reactor := w.reactor.take slot
      reading := some (slot, events)
      calling := false
      aborted := false }
  | .next =>
    let (n, r) := w.notify.notifyNext (w.reactor.take slot)
    { w with notify := n, reactor := r.freeUser slot }
  | _ => { w with reactor := (w.reactor.take slot).freeUser slot }

def step (w : NotifyWorld) : NotifyLabel → Option NotifyWorld
  | .open fd =>
    if w.mayCall ∧ w.notify.fd = -1 ∧ 0 ≤ fd then
      some { w with notify := { w.notify with fd := fd }, inotify := ⟨[]⟩ }
    else none
  | .add path inode fresh =>
    if w.mayCall ∧ 0 < fresh ∧ fresh ∉ w.inotify.ids then
      some (w.after (some (Notify.notifyAdd w.toTables path inode fresh).2))
    else none
  | .removePath path =>
    if w.mayCall then some (w.after ((Notify.notifyRemovePath w.toTables path).map Prod.snd))
    else none
  | .removeId id =>
    if w.mayCall then some (w.after ((Notify.notifyRemoveId w.toTables id).map Prod.snd))
    else none
  | .close => if w.mayCall then some (w.abortRead.after (Notify.notifyClose w.toTables)) else none
  | .destruct =>
    if w.mayCall then
      some { w.abortRead.after (Notify.notifyDestruct w.toTables) with gone := true }
    else none
  | .drop id => some { w with inotify := w.inotify.drop id }
  | .call slot events =>
    if w.failed = false ∧ w.reading = none ∧ slot ∈ w.reactor.pending then
      match w.reactor.users slot with
      | none => none
      | some user => if w.gone && user.refers then none else some (w.call slot events user)
    else none
  | .event =>
    match w.failed || w.gone, w.calling, w.reading with
    | false, false, some (slot, event :: events) =>
      some { w with
        reading := some (slot, events)
        calling := (w.notify.ids event).isSome }
    | _, _, _ => none
  | .return =>
    match w.failed, w.calling, w.reading with
    | false, true, some (slot, _) =>
      if w.aborted then some (w.finishRead slot w.toTables) else some { w with calling := false }
    | _, _, _ => none
  | .finish =>
    match w.failed || w.gone, w.calling, w.reading with
    | false, false, some (slot, []) =>
      let (n, r) := { w.notify with abort := false }.notifyUpdate w.reactor
      some (w.finishRead slot { w.toTables with notify := n, reactor := r })
    | _, _, _ => none
  | .otherNext n => some { w with reactor := (w.reactor.reactorNext (.other n)).2 }
  | .otherSubmit op n => some { w with reactor := (w.reactor.submit op (.other n)).2 }
  | .otherCancel id n =>
    match w.reactor.users id.slot with
    | some (.other _) => some { w with reactor := w.reactor.reactorCancel .noop id (.other n) }
    | _ => none

/-- No callback that is still to come has the object as its state. -/
def Released (w : NotifyWorld) : Prop := ∀ s u, w.reactor.Holds s u → u.refers = false

end NotifyWorld

end LibReactor
