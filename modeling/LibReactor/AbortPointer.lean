import LibReactor.Closing
import LibReactor.CancelledBuffers

/-!
# The abort pointers

`signal_read`, `notify_read` and `queue_consumer_read` leave a pointer to a flag of their own in
the object while they call the user, for the close function to set. They take it back when they
are done, but not when they find the flag set and return at once.
-/

namespace LibReactor

open Transition

/-! ## Signals -/

def SignalLabel.returns : SignalLabel → Bool
  | .return => true
  | _ => false

namespace SignalWorld

/-- The flag that `signal->abort` points to is that of a running `signal_read`. -/
def PointerActive (w : SignalWorld) : Prop := w.signal.abort = true → w.reading ≠ none

/-- No callback returns in which the object was closed. -/
def Unaborted (w : SignalWorld) (l : SignalLabel) : Prop := l.returns = true → w.aborted = false

instance (w : SignalWorld) (l : SignalLabel) : Decidable (w.Unaborted l) :=
  inferInstanceAs (Decidable (_ → _))

variable {w w' : SignalWorld}

theorem pointerActive_construct : construct.PointerActive := by
  intro habort
  cases habort

theorem PointerActive.step {l : SignalLabel} (h : w.PointerActive) (hok : w.Unaborted l)
    (hstep : w.step l = some w') : w'.PointerActive := by
  cases step_cases hstep with
  | close =>
    intro habort
    rw [show SignalWorld.signal _ = (w.signal.signalClose w.reactor).1 from rfl,
      signal_signalClose] at habort
    change w.abortRead.reading ≠ none
    rw [reading_abortRead]
    exact h habort
  | @call slot counter user hreading hslot hfound =>
    cases user with
    | read => exact fun _ => nofun
    | noop | other n => exact h
  | abort hreading haborted =>
    rw [hok rfl] at haborted
    cases haborted
  | «return» => exact nofun
  | «open» | send | callFails | otherNext | otherSubmit | otherCancel => exact h

/-- A return leaves no stale pointer exactly if the object was not closed in the callback. -/
theorem pointerActive_return (h : Tracked w) (hstep : w.step .return = some w') :
    w'.PointerActive ↔ w.aborted = false := by
  cases step_cases hstep with
  | abort hreading haborted =>
    have hflag := h.abort (by rw [hreading]; exact Option.some_ne_none _)
    rw [haborted]
    exact ⟨fun hactive => absurd rfl (hactive hflag), fun h => by cases h⟩
  | «return» hreading haborted => exact ⟨fun _ => haborted, fun _ habort => by cases habort⟩

end SignalWorld

/-! ## File notifications -/

namespace Notify

variable {t t' : Tables}

theorem abort_removeEntry {e : NotifyEntry} (hrun : notifyRemoveEntry t e = some t') :
    t'.notify.abort = t.notify.abort := by
  unfold notifyRemoveEntry at hrun
  split_ifs at hrun
  obtain ⟨inotify, -, hrun⟩ := Option.bind_eq_some_iff.mp hrun
  dsimp only at hrun
  split at hrun
  · obtain rfl := Option.some.inj hrun
    rfl
  · obtain rfl := Option.some.inj hrun
    rfl

theorem abort_removeEntries {n : ℕ} (hrun : removeEntries n t = some t') :
    t'.notify.abort = t.notify.abort := by
  induction n generalizing t with
  | zero =>
    obtain rfl := Option.some.inj hrun
    rfl
  | succ n ih =>
    rw [removeEntries] at hrun
    split at hrun
    · obtain rfl := Option.some.inj hrun
      rfl
    · obtain ⟨t₁, hremove, hrun⟩ := Option.bind_eq_some_iff.mp hrun
      exact (ih hrun).trans (abort_removeEntry hremove)

theorem abort_notifyClose (hrun : notifyClose t = some t') :
    t'.notify.abort = t.notify.abort := by
  have hcancel : (cancelNext t).notify.abort = t.notify.abort := by
    unfold cancelNext
    split <;> rfl
  unfold notifyClose at hrun
  split_ifs at hrun
  · obtain rfl := Option.some.inj hrun
    rfl
  · obtain ⟨t₁, hremove, hrun⟩ := Option.bind_eq_some_iff.mp hrun
    obtain rfl := Option.some.inj hrun
    exact (abort_removeEntries hremove).trans hcancel

theorem abort_notifyUpdate (n : Notify) (r : Reactor NotifyUser) :
    (n.notifyUpdate r).1.abort = n.abort := by
  rw [fields_notifyUpdate]

theorem abort_notifyAdd (t : Tables) (path : Bytes) (inode : Option ℕ) (fresh : ℤ) :
    (notifyAdd t path inode fresh).2.notify.abort = t.notify.abort := by
  unfold notifyAdd
  cases t.notify.paths path with
  | some e => rfl
  | none =>
    dsimp only
    split_ifs
    · rfl
    · exact abort_notifyUpdate _ _
    · rfl
    · exact abort_notifyUpdate _ _

theorem abort_removePath {path : Bytes} {b : Bool} (hrun : notifyRemovePath t path = some (b, t')) :
    t'.notify.abort = t.notify.abort := by
  unfold notifyRemovePath at hrun
  split at hrun
  · cases hrun
    rfl
  · obtain ⟨t₁, hremove, hrun⟩ := Option.map_eq_some_iff.mp hrun
    cases hrun
    exact abort_removeEntry hremove

theorem abort_removeId {id : ℤ} {b : Bool} (hrun : notifyRemoveId t id = some (b, t')) :
    t'.notify.abort = t.notify.abort := by
  unfold notifyRemoveId at hrun
  split at hrun
  · cases hrun
    rfl
  · obtain ⟨t₁, hremove, hrun⟩ := Option.map_eq_some_iff.mp hrun
    cases hrun
    exact abort_removeEntry hremove

end Notify

def NotifyLabel.returns : NotifyLabel → Bool
  | .return => true
  | _ => false

namespace NotifyWorld

def PointerActive (w : NotifyWorld) : Prop :=
  w.gone = false → w.notify.abort = true → w.reading ≠ none

def Unaborted (w : NotifyWorld) (l : NotifyLabel) : Prop :=
  l.returns = true → w.gone = false → w.aborted = false

instance (w : NotifyWorld) (l : NotifyLabel) : Decidable (w.Unaborted l) :=
  inferInstanceAs (Decidable (_ → _ → _))

structure Pointed (w : NotifyWorld) : Prop where
  active : w.PointerActive
  flag : w.reading ≠ none → w.notify.abort = true

variable {w w' : NotifyWorld}

theorem Pointed.after (h : w.Pointed) {t : Option Notify.Tables}
    (habort : ∀ t', t = some t' → t'.notify.abort = w.notify.abort) : (w.after t).Pointed := by
  cases t with
  | none => exact ⟨h.active, h.flag⟩
  | some t =>
    have heq := habort t rfl
    constructor
    · intro hgone hset
      exact h.active hgone (heq.symm.trans hset)
    · intro hreading
      exact heq.trans (h.flag hreading)

theorem Pointed.abortRead (h : w.Pointed) : w.abortRead.Pointed := by
  unfold NotifyWorld.abortRead
  split_ifs
  · exact ⟨h.active, h.flag⟩
  · exact h

theorem notify_abortRead (w : NotifyWorld) : w.abortRead.notify = w.notify := by
  unfold abortRead
  split_ifs <;> rfl

theorem Pointed.call (h : w.Pointed) {slot : ℕ} {events : List ℤ} (user : NotifyUser) :
    (w.call slot events user).Pointed := by
  cases user with
  | read => exact ⟨fun _ _ => nofun, fun _ => rfl⟩
  | next =>
    have habort := Notify.abort_notifyUpdate { w.notify with next := none } (w.reactor.take slot)
    constructor
    · intro hgone hset
      exact h.active hgone (habort.symm.trans hset)
    · intro hreading
      exact habort.trans (h.flag hreading)
  | noop => exact ⟨h.active, h.flag⟩
  | other n => exact ⟨h.active, h.flag⟩

theorem pointed_construct : construct.Pointed := ⟨nofun, fun hreading => absurd rfl hreading⟩

theorem Pointed.step {l : NotifyLabel} (h : w.Pointed) (hok : w.Unaborted l)
    (hstep : w.step l = some w') : w'.Pointed := by
  cases l with
  | «open» fd =>
    rw [NotifyWorld.step] at hstep
    split_ifs at hstep
    obtain rfl := Option.some.inj hstep
    exact ⟨h.active, h.flag⟩
  | add path inode fresh =>
    rw [NotifyWorld.step] at hstep
    split_ifs at hstep
    obtain rfl := Option.some.inj hstep
    apply h.after
    intro t' ht'
    obtain rfl := Option.some.inj ht'
    exact Notify.abort_notifyAdd _ _ _ _
  | removePath path =>
    rw [NotifyWorld.step] at hstep
    split_ifs at hstep
    obtain rfl := Option.some.inj hstep
    apply h.after
    intro t' ht'
    obtain ⟨⟨b, t₁⟩, hremove, rfl⟩ := Option.map_eq_some_iff.mp ht'
    exact Notify.abort_removePath hremove
  | removeId id =>
    rw [NotifyWorld.step] at hstep
    split_ifs at hstep
    obtain rfl := Option.some.inj hstep
    apply h.after
    intro t' ht'
    obtain ⟨⟨b, t₁⟩, hremove, rfl⟩ := Option.map_eq_some_iff.mp ht'
    exact Notify.abort_removeId hremove
  | close =>
    rw [NotifyWorld.step] at hstep
    split_ifs at hstep
    obtain rfl := Option.some.inj hstep
    apply h.abortRead.after
    intro t' ht'
    rw [notify_abortRead]
    exact Notify.abort_notifyClose ht'
  | destruct =>
    rw [NotifyWorld.step] at hstep
    split_ifs at hstep
    obtain rfl := Option.some.inj hstep
    have hafter : (w.abortRead.after (Notify.notifyDestruct w.toTables)).Pointed := by
      apply h.abortRead.after
      intro t' ht'
      obtain ⟨t₁, hclose, rfl⟩ := Option.map_eq_some_iff.mp ht'
      have hclosed : t₁.notify.abort = w.notify.abort := Notify.abort_notifyClose hclose
      rw [notify_abortRead]
      exact hclosed
    exact ⟨(by rintro ⟨⟩), hafter.flag⟩
  | drop id =>
    obtain rfl := Option.some.inj hstep
    exact ⟨h.active, h.flag⟩
  | call slot events =>
    rw [NotifyWorld.step] at hstep
    split_ifs at hstep
    cases huser : w.reactor.users slot with
    | none =>
      rw [huser] at hstep
      cases hstep
    | some user =>
      rw [huser] at hstep
      dsimp only at hstep
      split_ifs at hstep
      obtain rfl := Option.some.inj hstep
      exact h.call user
  | event =>
    dsimp only [NotifyWorld.step] at hstep
    split at hstep
    · next slot event events _ _ hreading =>
      obtain rfl := Option.some.inj hstep
      exact ⟨(by rintro _ _ ⟨⟩), fun _ => h.flag (by rw [hreading]; exact Option.some_ne_none _)⟩
    · cases hstep
  | «return» =>
    dsimp only [NotifyWorld.step] at hstep
    split at hstep
    · split_ifs at hstep with haborted
      · obtain rfl := Option.some.inj hstep
        refine ⟨fun hgone => ?_, fun hreading => absurd rfl hreading⟩
        rw [hok rfl hgone] at haborted
        cases haborted
      · obtain rfl := Option.some.inj hstep
        exact ⟨h.active, h.flag⟩
    · cases hstep
  | finish =>
    dsimp only [NotifyWorld.step] at hstep
    split at hstep
    · obtain rfl := Option.some.inj hstep
      refine ⟨fun _ hset => ?_, fun hreading => absurd rfl hreading⟩
      rw [show (NotifyWorld.finishRead w _ _).notify.abort =
        ({ w.notify with abort := false }.notifyUpdate w.reactor).1.abort from rfl,
        Notify.abort_notifyUpdate] at hset
      cases hset
    · cases hstep
  | otherNext n =>
    obtain rfl := Option.some.inj hstep
    exact ⟨h.active, h.flag⟩
  | otherSubmit op n =>
    obtain rfl := Option.some.inj hstep
    exact ⟨h.active, h.flag⟩
  | otherCancel id n =>
    dsimp only [NotifyWorld.step] at hstep
    split at hstep
    · obtain rfl := Option.some.inj hstep
      exact ⟨h.active, h.flag⟩
    · cases hstep

theorem pointerActive_return (h : w.Pointed) (hgone : w.gone = false)
    (hstep : w.step .return = some w') : w'.PointerActive ↔ w.aborted = false := by
  dsimp only [NotifyWorld.step] at hstep
  split at hstep
  · next slot events _ _ hreading =>
    have hflag := h.flag (by rw [hreading]; exact nofun)
    split_ifs at hstep with haborted
    · obtain rfl := Option.some.inj hstep
      rw [haborted]
      exact ⟨fun hactive => absurd rfl (hactive hgone hflag), nofun⟩
    · obtain rfl := Option.some.inj hstep
      exact ⟨fun _ => by simpa using haborted, fun _ => h.active⟩
  · cases hstep

end NotifyWorld

/-! ## Queue consumers -/

def ConsumerCall.returns : ConsumerCall → Bool
  | .return => true
  | _ => false

namespace ConsumerMemory

def PointerActive (w : ConsumerMemory) : Prop :=
  w.gone = false → w.consumer.abort = true → w.reading ≠ none

def Unaborted (w : ConsumerMemory) (l : ConsumerCall) : Prop :=
  l.returns = true → w.gone = false → w.aborted = false

instance (w : ConsumerMemory) (l : ConsumerCall) : Decidable (w.Unaborted l) :=
  inferInstanceAs (Decidable (_ → _ → _))

variable {moves : ℕ → ℕ → Bool} {w w' : ConsumerMemory}

theorem pointerActive_construct : construct.PointerActive := by
  intro _ habort
  cases habort

theorem abort_close (c : HeapConsumer) (m : BufferMemory) : (c.close m).1.abort = c.abort := by
  unfold HeapConsumer.close
  cases c.queue with
  | none => rfl
  | some q =>
    dsimp only
    cases c.read <;> rfl

theorem reading_abortRead (w : ConsumerMemory) : w.abortRead.reading = w.reading := by
  rw [abortRead_eq]

theorem abort_finishRead {slot : ℕ} (hfinish : w.finishRead slot = some w') :
    w'.consumer.abort = w.consumer.abort := by
  obtain ⟨q, -, rfl⟩ := Option.map_eq_some_iff.mp hfinish
  exact (HeapConsumer.queue_update _ _ _).2

theorem PointerActive.call (h : w.PointerActive) (hreading : w.reading = none) {slot : ℕ}
    {result : ℤ} {user : BufferUser} (hcall : w.call slot result user = some w') :
    w'.PointerActive := by
  cases user with
  | read =>
    obtain ⟨q, hqueue, hcall⟩ := Option.bind_eq_some_iff.mp hcall
    dsimp only at hcall
    split_ifs at hcall
    · intro hgone habort
      have hset : w.consumer.abort = true := (abort_finishRead hcall).symm.trans habort
      obtain ⟨q', -, rfl⟩ := Option.map_eq_some_iff.mp hcall
      exact absurd hreading (h hgone hset)
    · obtain rfl := Option.some.inj hcall
      exact fun _ _ => nofun
  | noop | write | release base | other n =>
    obtain rfl := Option.some.inj hcall
    exact h

theorem PointerActive.step {l : ConsumerCall} (h : w.PointerActive) (hok : w.Unaborted l)
    (hstep : ConsumerMemory.step moves w l = some w') : w'.PointerActive := by
  cases l with
  | «open» q batchSize memory =>
    dsimp only [ConsumerMemory.step] at hstep
    split_ifs at hstep
    obtain rfl := Option.some.inj hstep
    exact h
  | pop =>
    dsimp only [ConsumerMemory.step] at hstep
    split at hstep
    · next q _ _ =>
      obtain rfl := Option.some.inj hstep
      intro hgone habort
      exact h hgone ((HeapConsumer.queue_update w.consumer q w.memory).2.symm.trans habort)
    · cases hstep
  | close =>
    dsimp only [ConsumerMemory.step] at hstep
    split_ifs at hstep with hguard
    obtain rfl := Option.some.inj hstep
    intro _ habort
    change w.abortRead.reading ≠ none
    rw [reading_abortRead]
    exact h hguard ((abort_close w.consumer w.memory).symm.trans habort)
  | destruct =>
    dsimp only [ConsumerMemory.step] at hstep
    split_ifs at hstep
    obtain rfl := Option.some.inj hstep
    rintro ⟨⟩
  | call slot result =>
    dsimp only [ConsumerMemory.step] at hstep
    split_ifs at hstep with hguard
    obtain ⟨user, huser, hcall⟩ := Option.bind_eq_some_iff.mp hstep
    exact h.call hguard.1 hcall
  | «return» =>
    cases hreading : w.reading with
    | none => simp only [ConsumerMemory.step, hreading, reduceCtorEq] at hstep
    | some x =>
      obtain ⟨slot, rest⟩ := x
      dsimp only [ConsumerMemory.step] at hstep
      rw [hreading] at hstep
      dsimp only at hstep
      split_ifs at hstep with haborted
      · obtain rfl := Option.some.inj hstep
        intro hgone
        rw [hok rfl hgone] at haborted
        cases haborted
      · cases rest with
        | zero =>
          intro _ habort
          cases (abort_finishRead hstep).symm.trans habort
        | succ rest =>
          obtain rfl := Option.some.inj hstep
          exact fun _ _ h => by cases h
  | other l =>
    obtain ⟨m, -, rfl⟩ := Option.map_eq_some_iff.mp hstep
    exact h

theorem pointerActive_return (hw : w.Owning) (hgone : w.gone = false)
    (hstep : ConsumerMemory.step moves w .return = some w') :
    w'.PointerActive ↔ w.aborted = false := by
  cases hreading : w.reading with
  | none => simp only [ConsumerMemory.step, hreading, reduceCtorEq] at hstep
  | some x =>
    obtain ⟨slot, rest⟩ := x
    have hflag := hw.flag (by rw [hreading]; rfl)
    dsimp only [ConsumerMemory.step] at hstep
    rw [hreading] at hstep
    dsimp only at hstep
    split_ifs at hstep with haborted
    · obtain rfl := Option.some.inj hstep
      rw [haborted]
      exact ⟨fun hactive => absurd rfl (hactive hgone hflag), fun h => by cases h⟩
    · have hfalse : w.aborted = false := by simpa using haborted
      refine ⟨fun _ => hfalse, fun _ => ?_⟩
      cases rest with
      | zero =>
        intro _ habort
        cases (abort_finishRead hstep).symm.trans habort
      | succ rest =>
        obtain rfl := Option.some.inj hstep
        exact fun _ _ h => by cases h

end ConsumerMemory

/-- As long as no callback returns in which its object was closed, the abort pointers of signals,
of notification objects and of queue consumers are those of running handlers. A return keeps that
exactly if the object was not closed in the callback. -/
theorem abortPointer_active {moves : ℕ → ℕ → Bool} {s : SignalWorld} {n : NotifyWorld}
    {c : ConsumerMemory}
    (hs : Reach SignalWorld.step SignalWorld.Unaborted .construct s)
    (hn : Reach NotifyWorld.step NotifyWorld.Unaborted .construct n)
    (hc : Reach (ConsumerMemory.step moves) ConsumerMemory.Unaborted .construct c) :
    (s.PointerActive ∧ n.PointerActive ∧ c.PointerActive) ∧
    (∀ s', s.step .return = some s' → (s'.PointerActive ↔ s.aborted = false)) ∧
    (n.gone = false → ∀ n', n.step .return = some n' →
      (n'.PointerActive ↔ n.aborted = false)) ∧
    (c.gone = false → ∀ c', c.step moves .return = some c' →
      (c'.PointerActive ↔ c.aborted = false)) := by
  have hsignal : s.PointerActive :=
    hs.invariant SignalWorld.pointerActive_construct fun _ _ _ h hok hstep => h.step hok hstep
  have hnotify : n.Pointed := hn.invariant NotifyWorld.pointed_construct
    fun _ _ _ h hok hstep => h.step hok hstep
  have hconsumer : c.PointerActive := hc.invariant ConsumerMemory.pointerActive_construct
    fun _ _ _ h hok hstep => h.step hok hstep
  have htracked : s.Tracked := SignalWorld.tracked_of_reach (hs.mono fun _ _ _ => trivial)
  have howning : c.Owning := hc.invariant ConsumerMemory.owning_construct
    fun _ _ _ hw _ hstep => hw.step hstep
  exact ⟨⟨hsignal, hnotify.active, hconsumer⟩,
    fun _ hstep => SignalWorld.pointerActive_return htracked hstep,
    fun hgone _ hstep => NotifyWorld.pointerActive_return hnotify hgone hstep,
    fun hgone _ hstep => ConsumerMemory.pointerActive_return howning hgone hstep⟩

/-- Objects in their callbacks, still open. -/
theorem abortPointer_active_calling :
    ∃ s n c, exec (guarded SignalWorld.step SignalWorld.Unaborted) .construct
        [.open 3, .call 127 1] = some s ∧
      exec (guarded NotifyWorld.step NotifyWorld.Unaborted) .construct
        [.open 3, .add (str "/") (some 0) 1, .call 127 [1], .event] = some n ∧
      exec (guarded (ConsumerMemory.step fun _ _ => false) ConsumerMemory.Unaborted) .construct
        [.open ⟨3, 4, 1⟩ 8 (fun _ => 0), .pop, .call 127 1] = some c ∧
      (s.PointerActive ∧ n.PointerActive ∧ c.PointerActive) ∧
      (∀ s', s.step .return = some s' → (s'.PointerActive ↔ s.aborted = false)) ∧
      (n.gone = false → ∀ n', n.step .return = some n' →
        (n'.PointerActive ↔ n.aborted = false)) ∧
      (c.gone = false → ∀ c', c.step (fun _ _ => false) .return = some c' →
        (c'.PointerActive ↔ c.aborted = false)) := by
  obtain ⟨s, hs⟩ := Option.isSome_iff_exists.mp (show (exec
    (guarded SignalWorld.step SignalWorld.Unaborted) .construct
    [.open 3, .call 127 1]).isSome = true from rfl)
  obtain ⟨n, hn⟩ := Option.isSome_iff_exists.mp (show (exec
    (guarded NotifyWorld.step NotifyWorld.Unaborted) .construct
    [.open 3, .add (str "/") (some 0) 1, .call 127 [1], .event]).isSome = true from rfl)
  obtain ⟨c, hc⟩ := Option.isSome_iff_exists.mp (show (exec
    (guarded (ConsumerMemory.step fun _ _ => false) ConsumerMemory.Unaborted) .construct
    [.open ⟨3, 4, 1⟩ 8 (fun _ => 0), .pop, .call 127 1]).isSome = true from rfl)
  exact ⟨s, n, c, hs, hn, hc, abortPointer_active (.of_guarded hs) (.of_guarded hn)
    (.of_guarded hc)⟩

/-- Objects that are closed in their callbacks and opened again: the next close writes through a
pointer into the frame of a handler that has returned. -/
theorem abortPointer_stale :
    (¬∀ s, Reach SignalWorld.step (fun _ _ => True) .construct s → s.signal.fd ≠ -1 →
      s.signal.abort = true → s.reading ≠ none) ∧
    (¬∀ n, Reach NotifyWorld.step (fun _ _ => True) .construct n → n.notify.fd ≠ -1 →
      n.notify.abort = true → n.reading ≠ none) ∧
    ¬∀ c, Reach (ConsumerMemory.step fun _ _ => false) (fun _ _ => True) .construct c →
      c.consumer.queue ≠ none → c.consumer.abort = true → c.reading ≠ none := by
  refine ⟨fun hall => ?_, fun hall => ?_, fun hall => ?_⟩
  · have hrun : (exec SignalWorld.step .construct
        [.open 3, .call 127 1, .close, .return, .open 4]).any fun s =>
        s.signal.fd ≠ -1 ∧ s.signal.abort = true ∧ s.reading = none := by decide
    obtain ⟨s, hexec, hs⟩ := (Option.any_eq_true _ _).mp hrun
    obtain ⟨hfd, habort, hreading⟩ := of_decide_eq_true hs
    exact hall s (.of_exec (fun _ _ => trivial) hexec) hfd habort hreading
  · have hrun : (exec NotifyWorld.step .construct [.open 3, .add (str "/") (some 0) 1,
        .call 127 [1], .event, .close, .return, .open 4]).any fun n =>
        n.notify.fd ≠ -1 ∧ n.notify.abort = true ∧ n.reading = none := by decide
    obtain ⟨n, hexec, hn⟩ := (Option.any_eq_true _ _).mp hrun
    obtain ⟨hfd, habort, hreading⟩ := of_decide_eq_true hn
    exact hall n (.of_exec (fun _ _ => trivial) hexec) hfd habort hreading
  · have hrun : (exec (ConsumerMemory.step fun _ _ => false) .construct
        [.open ⟨3, 4, 1⟩ 8 (fun _ => 0), .pop, .call 127 1, .close, .return,
          .open ⟨3, 4, 1⟩ 8 (fun _ => 0)]).any fun c =>
        c.consumer.queue ≠ none ∧ c.consumer.abort = true ∧ c.reading = none := by decide
    obtain ⟨c, hexec, hc⟩ := (Option.any_eq_true _ _).mp hrun
    obtain ⟨hqueue, habort, hreading⟩ := of_decide_eq_true hc
    exact hall c (.of_exec (fun _ _ => trivial) hexec) hqueue habort hreading

end LibReactor
