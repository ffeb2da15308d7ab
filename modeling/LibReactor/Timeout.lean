import LibReactor.Reactor
import LibReactor.Transition

/-!
# Timers

`timeout_t` with the kernel timer that it waits for. A world runs the calls of the program, also
from inside a callback, and the completions in any order, and keeps a log of the settings and of
the alerts that the user was given.
-/

namespace LibReactor

/-- What the reactor calls: `timeout_timeout` has the `timeout_t` as its state. -/
inductive TimeoutUser
  | noop
  | timeout
  | other (n : ℕ)
  deriving DecidableEq, Repr

def timeoutFlags : ℕ := 1 ||| 8

structure Timeout where
  time : UInt64
  delay : UInt64
  timeout : Option Id
  tv : UInt64 × UInt64

namespace Timeout

def construct : Timeout := ⟨0, 0, none, (0, 0)⟩

def timespec (time : UInt64) : UInt64 × UInt64 := (time / 1000000000, time % 1000000000)

def entry (time : UInt64) : Op :=
  .timeout (timespec time).1.toNat (timespec time).2.toNat 0 timeoutFlags

def timeoutSubmit (t : Timeout) (r : Reactor TimeoutUser) : Timeout × Reactor TimeoutUser :=
  let (id, r) := r.submit (entry t.time) .timeout
  ({ t with tv := timespec t.time, timeout := some id }, r)

/-- `timeout_timeout` up to its call of the user -/
def timeoutTimeout (t : Timeout) (r : Reactor TimeoutUser) : Timeout × Reactor TimeoutUser :=
  let t := { t with timeout := none }
  if t.delay ≠ 0 then { t with time := t.time + t.delay }.timeoutSubmit r else (t, r)

def timeoutClear (t : Timeout) (r : Reactor TimeoutUser) : Timeout × Reactor TimeoutUser :=
  match t.timeout with
  | some id => ({ t with timeout := none }, r.reactorCancel .noop id .noop)
  | none => (t, r)

def timeoutSet (t : Timeout) (time delay : UInt64) (r : Reactor TimeoutUser) :
    Timeout × Reactor TimeoutUser :=
  let (t, r) := t.timeoutClear r
  { t with time := time, delay := delay }.timeoutSubmit r

def timeoutDestruct (t : Timeout) (r : Reactor TimeoutUser) : Timeout × Reactor TimeoutUser :=
  t.timeoutClear r

end Timeout

/-- The settings of a timer and the alerts with the times that they report. -/
inductive TimeoutEvent
  | set (time delay : UInt64)
  | clear
  | alert (time : UInt64)
  deriving DecidableEq

structure TimeoutWorld where
  timeout : Timeout
  reactor : Reactor TimeoutUser
  /-- the slot whose callback is running -/
  running : Option ℕ
  log : List TimeoutEvent

inductive TimeoutLabel
  | set (time delay : UInt64)
  | clear
  | destruct
  /-- the reactor calls the user of a slot -/
  | call (slot : ℕ)
  | return
  | otherNext (n : ℕ)
  | otherSubmit (op : Op) (n : ℕ)
  | otherCancel (id : Id) (n : ℕ)

namespace TimeoutWorld

open Transition

def construct : TimeoutWorld := ⟨.construct, .construct, none, []⟩

def call (w : TimeoutWorld) (slot : ℕ) : TimeoutUser → TimeoutWorld
  | .timeout =>
    let (t, r) := w.timeout.timeoutTimeout (w.reactor.take slot)
    ⟨t, r, some slot, w.log ++ [.alert w.timeout.time]⟩
  | .noop | .other _ => { w with reactor := w.reactor.take slot, running := some slot }

def step (w : TimeoutWorld) : TimeoutLabel → Option TimeoutWorld
  | .set time delay =>
    let (t, r) := w.timeout.timeoutSet time delay w.reactor
    some { w with timeout := t, reactor := r, log := w.log ++ [.set time delay] }
  | .clear =>
    let (t, r) := w.timeout.timeoutClear w.reactor
    some { w with timeout := t, reactor := r, log := w.log ++ [.clear] }
  | .destruct =>
    let (t, r) := w.timeout.timeoutDestruct w.reactor
    some { w with timeout := t, reactor := r, log := w.log ++ [.clear] }
  | .call slot =>
    if w.running = none ∧ slot ∈ w.reactor.pending then (w.reactor.users slot).map (w.call slot)
    else none
  | .return =>
    w.running.map fun slot => { w with reactor := w.reactor.freeUser slot, running := none }
  | .otherNext n => some { w with reactor := (w.reactor.reactorNext (.other n)).2 }
  | .otherSubmit op n => some { w with reactor := (w.reactor.submit op (.other n)).2 }
  | .otherCancel id n =>
    match w.reactor.users id.slot with
    | some (.other _) => some { w with reactor := w.reactor.reactorCancel .noop id (.other n) }
    | _ => none

end TimeoutWorld

/-! ## The alert that is due -/

/-- The time of the next alert and the delay of those after it. -/
def dueStep : Option (UInt64 × UInt64) → TimeoutEvent → Option (UInt64 × UInt64)
  | _, .set time delay => some (time, delay)
  | _, .clear => none
  | some (time, delay), .alert _ => if delay = 0 then none else some (time + delay, delay)
  | none, .alert _ => none

def due (log : List TimeoutEvent) : Option (UInt64 × UInt64) := log.foldl dueStep none

/-- Every alert of a log was due when it was given. -/
def AlertsDue (log : List TimeoutEvent) : Prop :=
  ∀ pre time post, log = pre ++ .alert time :: post → ∃ delay, due pre = some (time, delay)

section Log

variable {log pre post : List TimeoutEvent} {alerts : List UInt64} {time delay : UInt64}

theorem due_concat (e : TimeoutEvent) : due (log ++ [e]) = dueStep (due log) e := by
  rw [due, List.foldl_append]
  rfl

theorem AlertsDue.concat (h : AlertsDue log) {e : TimeoutEvent}
    (he : ∀ time, e = .alert time → ∃ delay, due log = some (time, delay)) :
    AlertsDue (log ++ [e]) := by
  intro pre time post heq
  rcases List.eq_nil_or_concat post with rfl | ⟨post, e', rfl⟩
  · obtain ⟨rfl, hlast⟩ := List.append_inj' heq rfl
    exact he time (List.cons.inj hlast).1
  · rw [List.concat_eq_append, ← List.cons_append, ← List.append_assoc] at heq
    exact h pre time post (List.append_inj' heq rfl).1

theorem AlertsDue.no_alert (h : AlertsDue log) (hdue : due pre = none)
    (heq : log = pre ++ (alerts.map .alert ++ post)) : alerts = [] := by
  cases alerts with
  | nil => rfl
  | cons a alerts =>
    obtain ⟨delay, hpre⟩ := h pre a _ heq
    rw [hdue] at hpre
    cases hpre

/-- The alerts that follow are apart by the delay. -/
theorem AlertsDue.times (h : AlertsDue log) (hdue : due pre = some (time, delay))
    (heq : log = pre ++ (alerts.map .alert ++ post)) :
    (∀ k (hk : k < alerts.length), alerts[k].toNat = (time.toNat + k * delay.toNat) % 2 ^ 64) ∧
      (delay = 0 → alerts.length ≤ 1) := by
  induction alerts generalizing pre time with
  | nil => exact ⟨fun k hk => absurd hk (Nat.not_lt_zero k), fun _ => Nat.zero_le 1⟩
  | cons a alerts ih =>
    obtain ⟨delay', hpre⟩ := h pre a _ heq
    rw [hdue] at hpre
    obtain ⟨rfl, -⟩ := Prod.mk.inj (Option.some.inj hpre)
    have heq' : log = (pre ++ [.alert time]) ++ (alerts.map .alert ++ post) := by
      rw [heq, List.append_assoc]
      rfl
    have hdue' : due (pre ++ [.alert time]) =
        if delay = 0 then none else some (time + delay, delay) := by
      rw [due_concat, hdue]
      rfl
    have hfirst : time.toNat = (time.toNat + 0 * delay.toNat) % 2 ^ 64 := by
      rw [Nat.zero_mul, Nat.add_zero, Nat.mod_eq_of_lt time.toNat_lt]
    by_cases hzero : delay = 0
    · rw [if_pos hzero] at hdue'
      obtain rfl := h.no_alert hdue' heq'
      refine ⟨fun k hk => ?_, fun _ => Nat.le_refl 1⟩
      obtain rfl : k = 0 := Nat.lt_one_iff.mp hk
      exact hfirst
    · rw [if_neg hzero] at hdue'
      obtain ⟨htimes, -⟩ := ih hdue' heq'
      refine ⟨fun k hk => ?_, fun h => absurd h hzero⟩
      cases k with
      | zero => exact hfirst
      | succ k =>
        have hk' := htimes k (Nat.lt_of_succ_lt_succ hk)
        rw [List.getElem_cons_succ, hk', UInt64.toNat_add, Nat.mod_add_mod, Nat.succ_mul]
        congr 1
        omega

end Log

/-! ## What every run keeps -/

/-- The timer of the kernel is the one that the field names, and it is set for what is due. -/
structure TimerArmed (t : Timeout) (r : Reactor TimeoutUser) (due : Option (UInt64 × UInt64)) :
    Prop where
  tracks : r.Tracks .timeout t.timeout false
  entry : ∀ id, t.timeout = some id → (id.slot, Timeout.entry t.time) ∈ r.ring
  due : due = t.timeout.map fun _ => (t.time, t.delay)

section Armed

variable {t : Timeout} {r r' : Reactor TimeoutUser} {d : Option (UInt64 × UInt64)}
  {held : List ℕ}

theorem TimerArmed.frame (h : TimerArmed t r d)
    (hholds : ∀ s, r'.Holds s .timeout ↔ r.Holds s .timeout)
    (hring : ∀ s op, r.Holds s .timeout → (s, op) ∈ r.ring → (s, op) ∈ r'.ring) :
    TimerArmed t r' d := by
  refine ⟨h.tracks.congr hholds, fun id hid => ?_, h.due⟩
  have htracks := h.tracks
  rw [hid] at htracks
  exact hring _ _ htracks.holds_slot (h.entry id hid)

theorem ring_reactorNext (r : Reactor TimeoutUser) (user : TimeoutUser) :
    (r.reactorNext user).2.ring = r.ring := by
  obtain ⟨slot, rest, -, heq⟩ := r.allocUser_eq user
  have hring : r.poolRefill.ring = r.ring := by
    unfold Reactor.poolRefill
    split_ifs <;> rfl
  simp only [Reactor.reactorNext, heq, hring]

theorem mem_ring_submit {x : ℕ × Op} (hx : x ∈ r.ring) (op : Op) (user : TimeoutUser) :
    x ∈ (r.submit op user).2.ring := by
  rw [Reactor.ring_submit]
  exact List.mem_append_left _ hx

theorem mem_ring_reactorCancel {x : ℕ × Op} (hx : x ∈ r.ring) (id : Id) (user : TimeoutUser) :
    x ∈ (r.reactorCancel .noop id user).ring := by
  rw [Reactor.reactorCancel_eq]
  split_ifs
  · exact hx
  · exact mem_ring_submit (r := r.redirect id.slot user) hx _ _

theorem TimerArmed.timeoutSubmit (hwf : r.WellFormed held) (hnone : r.Tracks .timeout none false) :
    TimerArmed (t.timeoutSubmit r).1 (t.timeoutSubmit r).2 (some (t.time, t.delay)) := by
  refine ⟨hnone.submit hwf _, ?_, rfl⟩
  rintro id ⟨⟩
  show _ ∈ (r.submit (Timeout.entry t.time) .timeout).2.ring
  rw [Reactor.ring_submit]
  exact List.mem_append_right _ (List.mem_singleton_self _)

theorem wellFormed_timeoutClear (hwf : r.WellFormed held) :
    (t.timeoutClear r).2.WellFormed held := by
  unfold Timeout.timeoutClear
  split
  · exact hwf.reactorCancel _ _ _
  · exact hwf

/-- After `timeout_clear` no timer is left that is not cancelled. -/
theorem TimerArmed.timeoutClear (h : TimerArmed t r d) (hwf : r.WellFormed held) :
    (t.timeoutClear r).1.timeout = none ∧
      TimerArmed (t.timeoutClear r).1 (t.timeoutClear r).2 none := by
  unfold Timeout.timeoutClear
  split
  · next id hid =>
    have htracks := h.tracks
    rw [hid] at htracks
    exact ⟨rfl, htracks.cancel hwf nofun nofun, nofun, rfl⟩
  · next hid =>
    refine ⟨hid, h.tracks, h.entry, ?_⟩
    rw [hid]
    rfl

end Armed

namespace TimeoutWorld

open Transition

variable {w w' : TimeoutWorld}

structure Timed (w : TimeoutWorld) : Prop where
  wellFormed : w.reactor.WellFormed w.running.toList
  armed : TimerArmed w.timeout w.reactor (due w.log)
  log : AlertsDue w.log

theorem timed_construct : construct.Timed :=
  ⟨Reactor.wellFormed_construct, ⟨Reactor.tracks_construct, nofun, rfl⟩, fun pre _ _ heq => by
    have hlen := congrArg List.length heq
    simp [construct] at hlen⟩

theorem Timed.set (h : Timed w) (time delay : UInt64) :
    Timed { w with
      timeout := (w.timeout.timeoutSet time delay w.reactor).1
      reactor := (w.timeout.timeoutSet time delay w.reactor).2
      log := w.log ++ [.set time delay] } := by
  obtain ⟨hfield, hcleared⟩ := h.armed.timeoutClear h.wellFormed
  have hwf := wellFormed_timeoutClear (t := w.timeout) h.wellFormed
  have hnone := hcleared.tracks
  rw [hfield] at hnone
  refine ⟨hwf.submit _ _, ?_, h.log.concat nofun⟩
  have harmed := TimerArmed.timeoutSubmit (t := { (w.timeout.timeoutClear w.reactor).1 with
    time := time, delay := delay }) hwf hnone
  rwa [due_concat]

theorem Timed.clear (h : Timed w) :
    Timed { w with
      timeout := (w.timeout.timeoutClear w.reactor).1
      reactor := (w.timeout.timeoutClear w.reactor).2
      log := w.log ++ [.clear] } := by
  refine ⟨wellFormed_timeoutClear h.wellFormed, ?_, h.log.concat nofun⟩
  have harmed := (h.armed.timeoutClear h.wellFormed).2
  rwa [due_concat]

theorem Timed.frame (h : Timed w) {r : Reactor TimeoutUser} {running : Option ℕ}
    (hwf : r.WellFormed running.toList)
    (hholds : ∀ s, r.Holds s .timeout ↔ w.reactor.Holds s .timeout)
    (hring : ∀ s op, w.reactor.Holds s .timeout → (s, op) ∈ w.reactor.ring → (s, op) ∈ r.ring) :
    Timed { w with reactor := r, running := running } :=
  ⟨hwf, h.armed.frame hholds hring, h.log⟩

/-- The completion of the timer: the alert is the one that is due, and the next one is armed. -/
theorem Timed.callTimeout (h : Timed w) (hrunning : w.running = none) {slot : ℕ}
    (hslot : w.reactor.Holds slot .timeout) : Timed (w.call slot .timeout) := by
  have hwf := h.wellFormed
  rw [hrunning] at hwf
  have htake := hwf.take hslot.1
  have hfield := (h.armed.tracks.holds slot).mp hslot
  have hdue : due w.log = some (w.timeout.time, w.timeout.delay) := by
    rw [h.armed.due, hfield]
    rfl
  have hnone : (w.reactor.take slot).Tracks .timeout none false := h.armed.tracks.take hwf hslot
  have hlog : AlertsDue (w.log ++ [.alert w.timeout.time]) := by
    refine h.log.concat ?_
    rintro time ⟨⟩
    exact ⟨_, hdue⟩
  have hdue' : due (w.log ++ [.alert w.timeout.time]) = if w.timeout.delay = 0 then none
      else some (w.timeout.time + w.timeout.delay, w.timeout.delay) := by
    rw [due_concat, hdue]
    rfl
  by_cases hdelay : w.timeout.delay = 0
  · rw [if_pos hdelay] at hdue'
    have hstep : w.timeout.timeoutTimeout (w.reactor.take slot) =
        ({ w.timeout with timeout := none }, w.reactor.take slot) := by
      rw [Timeout.timeoutTimeout]
      exact if_neg fun hne => hne hdelay
    refine ⟨?_, ?_, hlog⟩
    · simp only [call, hstep]
      exact htake
    · simp only [call, hstep, hdue']
      exact ⟨hnone, nofun, rfl⟩
  · rw [if_neg hdelay] at hdue'
    have hstep : w.timeout.timeoutTimeout (w.reactor.take slot) =
        { w.timeout with timeout := none, time := w.timeout.time + w.timeout.delay }.timeoutSubmit
          (w.reactor.take slot) := by
      rw [Timeout.timeoutTimeout]
      exact if_pos hdelay
    refine ⟨?_, ?_, hlog⟩
    · simp only [call, hstep]
      exact htake.submit _ _
    · simp only [call, hstep, hdue']
      exact TimerArmed.timeoutSubmit (t := { w.timeout with
        timeout := none, time := w.timeout.time + w.timeout.delay }) htake hnone

theorem Timed.callOther (h : Timed w) (hrunning : w.running = none) {slot : ℕ}
    {user : TimeoutUser} (hslot : w.reactor.Holds slot user) (huser : user ≠ .timeout) :
    Timed { w with reactor := w.reactor.take slot, running := some slot } := by
  have hwf := h.wellFormed
  rw [hrunning] at hwf
  have hne : ∀ s, w.reactor.Holds s .timeout → s ≠ slot := by
    rintro s hs rfl
    exact huser (hslot.unique hs)
  refine h.frame (hwf.take hslot.1) (fun s => ?_) fun s op hs hmem => ?_
  · rw [hwf.holds_take hslot.1]
    exact and_iff_right_of_imp (hne s)
  · exact (Reactor.mem_eraseP_of_nodup hwf.nodup_ring slot _).mpr ⟨hmem, hne s hs⟩

/-- The step lemma. -/
theorem Timed.of_step (h : Timed w) {l : TimeoutLabel} (hstep : w.step l = some w') :
    Timed w' := by
  cases l with
  | set time delay => exact Option.some.inj hstep ▸ h.set time delay
  | clear => exact Option.some.inj hstep ▸ h.clear
  | destruct => exact Option.some.inj hstep ▸ h.clear
  | call slot =>
    obtain ⟨⟨hrunning, hpending⟩, hstep⟩ := Option.ite_none_right_eq_some.mp hstep
    obtain ⟨user, huser, rfl⟩ := Option.map_eq_some_iff.mp hstep
    cases user with
    | timeout => exact h.callTimeout hrunning ⟨hpending, huser⟩
    | noop => exact h.callOther hrunning ⟨hpending, huser⟩ nofun
    | other n => exact h.callOther hrunning ⟨hpending, huser⟩ nofun
  | «return» =>
    obtain ⟨slot, hrunning, rfl⟩ := Option.map_eq_some_iff.mp hstep
    have hwf := h.wellFormed
    rw [hrunning] at hwf
    exact h.frame hwf.freeUser (fun s => hwf.holds_freeUser s _) fun _ _ _ hmem => hmem
  | otherNext n =>
    refine Option.some.inj hstep ▸ h.frame (h.wellFormed.reactorNext _) (fun s => ?_)
      fun s op _ hmem => (ring_reactorNext w.reactor _).symm ▸ hmem
    rw [h.wellFormed.holds_reactorNext]
    exact or_iff_right fun hs => nomatch hs.2
  | otherSubmit op n =>
    refine Option.some.inj hstep ▸ h.frame (h.wellFormed.submit _ op) (fun s => ?_)
      fun s _ _ hmem => mem_ring_submit hmem _ _
    rw [h.wellFormed.holds_submit]
    exact or_iff_right fun hs => nomatch hs.2
  | otherCancel id n =>
    dsimp only [step] at hstep
    split at hstep
    · next m hid =>
      refine Option.some.inj hstep ▸ h.frame (h.wellFormed.reactorCancel _ _ id) (fun s => ?_)
        fun s _ _ hmem => mem_ring_reactorCancel hmem _ _
      have hiff := h.wellFormed.holds_reactorCancel_iff (s := s) (u := .timeout) .noop (.other n) id
        nofun nofun
      rw [hiff]
      refine and_iff_right_of_imp fun hs heq => ?_
      rw [heq] at hs
      cases hs.2.symm.trans hid
    · cases hstep

theorem Timed.of_reach (h : Reach step (fun _ _ => True) construct w) : Timed w :=
  h.invariant timed_construct fun _ _ _ hw _ hstep => hw.of_step hstep

/-- In every state there is at most one timer that is not cancelled, the one the field names, and
it is set for `time`. The alerts after `timeout_set` report its time and then the times that are
apart by its delay, without a delay there is one at most, and after `timeout_clear`, as in the
beginning, there is none. -/
theorem timeout_follows_settings (h : Reach step (fun _ _ => True) construct w) :
    (∀ s, w.reactor.Holds s .timeout ↔ w.timeout.timeout = some ⟨s, false⟩) ∧
    (∀ id, w.timeout.timeout = some id →
      (id.slot, Timeout.entry w.timeout.time) ∈ w.reactor.ring) ∧
    (∀ pre time delay, ∀ alerts : List UInt64,
      pre ++ .set time delay :: alerts.map .alert <+: w.log →
      (∀ k (hk : k < alerts.length),
        alerts[k].toNat = (time.toNat + k * delay.toNat) % 2 ^ 64) ∧
      (delay = 0 → alerts.length ≤ 1)) ∧
    (∀ pre, ∀ alerts : List UInt64,
      pre ++ .clear :: alerts.map .alert <+: w.log → alerts = []) ∧
    (∀ alerts : List UInt64, alerts.map .alert <+: w.log → alerts = []) := by
  have hw := Timed.of_reach h
  refine ⟨hw.armed.tracks.holds, hw.armed.entry, ?_, ?_, ?_⟩
  · rintro pre time delay alerts ⟨post, heq⟩
    have hlog : w.log = pre ++ [.set time delay] ++ (alerts.map .alert ++ post) := by
      rw [← heq, List.append_assoc, List.append_assoc]
      rfl
    exact hw.log.times (due_concat _) hlog
  · rintro pre alerts ⟨post, heq⟩
    have hlog : w.log = pre ++ [.clear] ++ (alerts.map .alert ++ post) := by
      rw [← heq, List.append_assoc, List.append_assoc]
      rfl
    exact hw.log.no_alert (due_concat _) hlog
  · rintro alerts ⟨post, heq⟩
    have hlog : w.log = [] ++ (alerts.map .alert ++ post) := heq.symm
    exact hw.log.no_alert rfl hlog

/-- A periodic timer that is set again in its second alert, with the completion of the timer that
this cancels still to come. -/
theorem timeout_follows_settings_again :
    ∃ w, exec step construct [.set 5 10, .call 127, .return, .call 126, .set 100 0, .return,
      .call 127, .return, .call 124] = some w ∧
    (∀ s, w.reactor.Holds s .timeout ↔ w.timeout.timeout = some ⟨s, false⟩) ∧
    (∀ id, w.timeout.timeout = some id →
      (id.slot, Timeout.entry w.timeout.time) ∈ w.reactor.ring) ∧
    (∀ pre time delay, ∀ alerts : List UInt64,
      pre ++ .set time delay :: alerts.map .alert <+: w.log →
      (∀ k (hk : k < alerts.length),
        alerts[k].toNat = (time.toNat + k * delay.toNat) % 2 ^ 64) ∧
      (delay = 0 → alerts.length ≤ 1)) ∧
    (∀ pre, ∀ alerts : List UInt64,
      pre ++ .clear :: alerts.map .alert <+: w.log → alerts = []) ∧
    (∀ alerts : List UInt64, alerts.map .alert <+: w.log → alerts = []) := by
  have hrun : (exec step construct [.set 5 10, .call 127, .return, .call 126, .set 100 0, .return,
      .call 127, .return, .call 124]).isSome = true := by decide
  obtain ⟨w, hw⟩ := Option.isSome_iff_exists.mp hrun
  exact ⟨w, hw, timeout_follows_settings (Reach.of_exec (fun _ _ => trivial) hw)⟩

end TimeoutWorld

end LibReactor
