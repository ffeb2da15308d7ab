import LibReactor.Reactor
import LibReactor.Transition

/-!
# The event loop

`reactor_loop_once` as a transition system: the pass over the next callbacks, the pass over
the completions that the kernel posts in any order, and the calls of the program in between.
The tickets number the calls of `reactor_next` and the submitted entries; they and the logs
record the run and decide nothing.
-/

namespace LibReactor

/-- A call of `reactor_next` or a submitted entry, with the callback that it has now. -/
structure Ticket (κ : Type*) where
  slot : ℕ
  /-- the pass in which it was made -/
  pass : ℕ
  user : κ

structure Call (κ : Type*) where
  isNext : Bool
  ticket : ℕ
  slot : ℕ
  pass : ℕ
  user : κ

inductive Phase
  /-- between two passes, where `reactor_loop` looks at the pool -/
  | outside
  | nexts
  /-- over the completions; `blocking` until the first one of a call that waits -/
  | ring (blocking : Bool)
  deriving DecidableEq

/-- What `reactor_loop_once` does after the next callbacks; without any it waits. -/
def Reactor.afterNexts {κ : Type*} (r : Reactor κ) : Phase :=
  let nextWaiting := r.next.length
  if nextWaiting < r.poolSize then .ring (nextWaiting = 0) else .outside

structure EventLoop (κ : Type*) where
  reactor : Reactor κ
  phase : Phase
  /-- the slot whose callback is running -/
  running : Option ℕ
  pass : ℕ
  /-- the ticket that each slot stands for -/
  owner : ℕ → ℕ
  /-- the tickets of `reactor_next` and those of the ring -/
  tickets : Bool → List (Ticket κ)
  calls : List (Call κ)
  freed : List ℕ

inductive LoopLabel (κ : Type*)
  | next (user : κ)
  | submit (op : Op) (user : κ)
  | cancel (isNext : Bool) (ticket : ℕ) (user : κ)
  | loopOnce
  | callNext
  | enterRing
  | complete (slot : ℕ)
  | leaveRing
  | return
  deriving DecidableEq

namespace EventLoop

open Transition

variable {κ : Type*} (noop : κ)

def construct : EventLoop κ where
  reactor := .construct
  phase := .outside
  running := none
  pass := 0
  owner _ := 0
  tickets _ := []
  calls := []
  freed := []

/-- The slots with a call to come, next callbacks in the order of the calls. -/
def queue (e : EventLoop κ) : Bool → List ℕ
  | true => e.reactor.current ++ e.reactor.next
  | false => e.reactor.ring.map Prod.fst

def outstanding (e : EventLoop κ) (isNext : Bool) : List ℕ := (e.queue isNext).map e.owner

def called (e : EventLoop κ) (isNext : Bool) : List ℕ :=
  (e.calls.filter (fun c => c.isNext = isNext)).map Call.ticket

def mayCall (e : EventLoop κ) : Bool := e.running.isSome || e.phase = .outside

def issue (e : EventLoop κ) (isNext : Bool) (slot : ℕ) (user : κ) (r : Reactor κ) : EventLoop κ :=
  { e with
    reactor := r
    owner := Function.update e.owner slot (e.tickets isNext).length
    tickets := Function.update e.tickets isNext (e.tickets isNext ++ [⟨slot, e.pass, user⟩]) }

def next (e : EventLoop κ) (user : κ) : EventLoop κ :=
  let (id, r) := e.reactor.reactorNext user
  e.issue true id.slot user r

def submit (e : EventLoop κ) (op : Op) (user : κ) : EventLoop κ :=
  let (id, r) := e.reactor.submit op user
  e.issue false id.slot user r

/-- `reactor_cancel` on the ticket's id; for a ring operation it submits an entry of its own. -/
def cancel (e : EventLoop κ) (isNext : Bool) (ticket : ℕ) (tk : Ticket κ) (user : κ) :
    EventLoop κ :=
  let r := e.reactor.reactorCancel noop ⟨tk.slot, isNext⟩ user
  let e := { e with
    tickets := Function.update e.tickets isNext
      ((e.tickets isNext).set ticket { tk with user := user }) }
  if isNext then { e with reactor := r }
  else e.issue false ((r.ring.getLast?.map Prod.fst).getD 0) noop r

def enter (e : EventLoop κ) (isNext : Bool) (slot : ℕ) (r : Reactor κ) (user : κ) : EventLoop κ :=
  { e with
    reactor := r
    running := some slot
    calls := e.calls ++ [⟨isNext, e.owner slot, slot, e.pass, user⟩] }

def call (e : EventLoop κ) (isNext : Bool) (slot : ℕ) (r : Reactor κ) : Option (EventLoop κ) :=
  (r.users slot).map (e.enter isNext slot r)

def step (e : EventLoop κ) : LoopLabel κ → Option (EventLoop κ)
  | .next user => if e.mayCall then some (e.next user) else none
  | .submit op user => if e.mayCall then some (e.submit op user) else none
  | .cancel isNext ticket user =>
    if e.mayCall ∧ ticket ∈ e.outstanding isNext then
      (e.tickets isNext)[ticket]?.map fun tk => e.cancel noop isNext ticket tk user
    else none
  | .loopOnce =>
    if e.phase = .outside then
      some { e with
        phase := .nexts
        pass := e.pass + 1
        reactor := if e.reactor.next = [] then e.reactor else e.reactor.swapNext }
    else none
  | .callNext =>
    match e.phase, e.running, e.reactor.current with
    | .nexts, none, slot :: _ => e.call true slot e.reactor.takeCurrent
    | _, _, _ => none
  | .enterRing =>
    match e.phase, e.running, e.reactor.current with
    | .nexts, none, [] =>
      some { e with phase := e.reactor.afterNexts }
    | _, _, _ => none
  | .complete slot =>
    match e.phase, e.running with
    | .ring _, none =>
      if slot ∈ e.queue false then
        { e with phase := .ring false }.call false slot (e.reactor.takeRing slot)
      else none
    | _, _ => none
  | .leaveRing =>
    match e.phase, e.running with
    | .ring false, none => some { e with phase := .outside }
    | _, _ => none
  | .return =>
    e.running.map fun slot =>
      { e with
        reactor := e.reactor.freeUser slot
        running := none
        freed := e.freed ++ [slot] }

/-- The condition on which `reactor_loop` returns. -/
def Returns (e : EventLoop κ) : Prop := e.phase = .outside ∧ e.reactor.poolSize = 0

structure Delivering (e : EventLoop κ) : Prop where
  wellFormed : e.reactor.WellFormed e.running.toList
  allocated : e.reactor.allocated = e.reactor.pending.length + e.running.toList.length
  order : e.called true ++ e.outstanding true = List.range (e.tickets true).length
  ring : (e.called false ++ e.outstanding false).Perm (List.range (e.tickets false).length)
  queued : ∀ isNext, ∀ s ∈ e.queue isNext, ∃ tk, (e.tickets isNext)[e.owner s]? = some tk ∧
    tk.slot = s ∧ e.reactor.users s = some tk.user
  calls : ∀ c ∈ e.calls, ∃ tk, (e.tickets c.isNext)[c.ticket]? = some tk ∧
    tk.slot = c.slot ∧ tk.user = c.user ∧ (c.isNext = true → c.pass = tk.pass + 1)
  nextPass : ∀ s ∈ e.reactor.next, ∀ tk, (e.tickets true)[e.owner s]? = some tk → tk.pass = e.pass
  currentPass : ∀ s ∈ e.reactor.current, ∀ tk, (e.tickets true)[e.owner s]? = some tk →
    tk.pass + 1 = e.pass
  freed : e.calls.map Call.slot = e.freed ++ e.running.toList
  outside : e.phase = .outside → e.running = none
  current : e.phase ≠ .nexts → e.reactor.current = []
  blocking : e.phase = .ring true → e.running = none ∧ e.reactor.ring ≠ []

theorem delivering_construct : (construct : EventLoop κ).Delivering where
  wellFormed := Reactor.wellFormed_construct
  allocated := rfl
  order := rfl
  ring := .refl _
  queued isNext s hs := by cases isNext <;> cases hs
  calls := nofun
  nextPass := nofun
  currentPass := nofun
  freed := rfl
  outside _ := rfl
  current _ := rfl
  blocking := nofun

variable {e e' : EventLoop κ} {r : Reactor κ}

theorem mem_pending_of_queue {isNext : Bool} {s : ℕ} (hs : s ∈ e.queue isNext) :
    s ∈ e.reactor.pending := by
  unfold Reactor.pending
  cases isNext with
  | true =>
    rw [queue, List.mem_append] at hs
    exact List.mem_append_left _ (List.mem_append.mpr hs.symm)
  | false => exact List.mem_append_right _ hs

/-! ## Submitting -/

structure Queued (r r' : Reactor κ) (held : List ℕ) (isNext : Bool) (slot : ℕ) (user : κ) :
    Prop where
  fresh : slot ∉ held ++ r.pending
  wellFormed : r'.WellFormed held
  allocated : r'.allocated = r.allocated + 1
  users : r'.users = Function.update r.users slot (some user)
  current : r'.current = r.current
  next : r'.next = r.next ++ if isNext then [slot] else []
  ring : r'.ring.map Prod.fst = r.ring.map Prod.fst ++ if isNext then [] else [slot]

theorem queued_reactorNext {held : List ℕ} (h : r.WellFormed held) (user : κ) :
    Queued r (r.reactorNext user).2 held true (r.reactorNext user).1.slot user := by
  have hfresh := (h.allocUser user).1
  have hwf := h.reactorNext user
  obtain ⟨slot, rest, hfree, heq⟩ := r.allocUser_eq user
  have hrefill : r.poolRefill.next = r.next ∧ r.poolRefill.current = r.current ∧
      r.poolRefill.ring = r.ring := by
    unfold Reactor.poolRefill
    split_ifs <;> exact ⟨rfl, rfl, rfl⟩
  obtain ⟨hnext, hcurrent, hring⟩ := hrefill
  refine ⟨?_, hwf, ?_, ?_, ?_, ?_, ?_⟩
  · exact hfresh
  · simp only [Reactor.reactorNext, heq]
  · simp only [Reactor.reactorNext, heq]
  · simp only [Reactor.reactorNext, heq, hcurrent]
  · simp only [Reactor.reactorNext, heq, hnext, if_true]
  · simp only [Reactor.reactorNext, heq, hring, if_true, List.append_nil]

theorem queued_submit {held : List ℕ} (h : r.WellFormed held) (op : Op) (user : κ) :
    Queued r (r.submit op user).2 held false (r.submit op user).1.slot user := by
  have hfresh := (h.allocUser user).1
  have hwf := h.submit user op
  have hring := r.ring_submit user op
  obtain ⟨slot, rest, hfree, heq⟩ := r.allocUser_eq user
  have hrefill : r.poolRefill.next = r.next ∧ r.poolRefill.current = r.current := by
    unfold Reactor.poolRefill
    split_ifs <;> exact ⟨rfl, rfl⟩
  obtain ⟨hnext, hcurrent⟩ := hrefill
  refine ⟨hfresh, hwf, ?_, ?_, ?_, ?_, ?_⟩
  · simp only [Reactor.submit, heq]
  · simp only [Reactor.submit, heq]
  · simp only [Reactor.submit, heq, hcurrent]
  · simp only [Reactor.submit, heq, hnext, Bool.false_eq_true, if_false, List.append_nil]
  · rw [hring]
    simp only [List.map_append, List.map_cons, List.map_nil, Bool.false_eq_true, if_false]

section Issue

variable {isNext : Bool} {slot : ℕ} {user : κ}
  (hq : Queued e.reactor r e.running.toList isNext slot user)

include hq

theorem queue_issue (kind : Bool) :
    (e.issue isNext slot user r).queue kind =
      e.queue kind ++ if kind = isNext then [slot] else [] := by
  cases kind with
  | true =>
    simp only [queue, issue, hq.current, hq.next, eq_comm (a := true), List.append_assoc]
  | false =>
    simp only [queue, issue, hq.ring]
    cases isNext <;> simp

theorem owner_issue {s : ℕ} (hs : s ∈ e.reactor.pending) :
    (e.issue isNext slot user r).owner s = e.owner s := by
  have hne : s ≠ slot := by
    rintro rfl
    exact hq.fresh (List.mem_append_right _ hs)
  exact Function.update_of_ne hne _ _

theorem outstanding_issue (kind : Bool) :
    (e.issue isNext slot user r).outstanding kind =
      e.outstanding kind ++ if kind = isNext then [(e.tickets isNext).length] else [] := by
  have hold : (e.queue kind).map (e.issue isNext slot user r).owner = e.outstanding kind :=
    List.map_congr_left fun s hs => owner_issue hq (mem_pending_of_queue hs)
  rw [outstanding, queue_issue hq, List.map_append, hold]
  congr 1
  split_ifs
  · simp only [List.map_cons, List.map_nil, issue, Function.update_self]
  · rfl

theorem users_issue {s : ℕ} (hs : s ∈ e.reactor.pending) : r.users s = e.reactor.users s := by
  have hne : s ≠ slot := by
    rintro rfl
    exact hq.fresh (List.mem_append_right _ hs)
  rw [hq.users, Function.update_of_ne hne]

end Issue

theorem length_tickets_issue (isNext kind : Bool) (slot : ℕ) (user : κ) :
    ((e.issue isNext slot user r).tickets kind).length =
      (e.tickets kind).length + if kind = isNext then 1 else 0 := by
  simp only [issue, Function.update_apply]
  split_ifs with hkind
  · rw [hkind, List.length_append]
    rfl
  · rfl

/-- An issued ticket is not touched by the next one. -/
theorem tickets_issue {isNext : Bool} {slot : ℕ} {user : κ} {kind : Bool} {t : ℕ} {tk : Ticket κ}
    (ht : (e.tickets kind)[t]? = some tk) :
    ((e.issue isNext slot user r).tickets kind)[t]? = some tk := by
  obtain ⟨hlt, -⟩ := List.getElem?_eq_some_iff.mp ht
  simp only [issue, Function.update_apply]
  split_ifs with hkind
  · rw [← hkind, List.getElem?_append_left hlt, ht]
  · exact ht

theorem length_pending (r : Reactor κ) :
    r.pending.length = r.next.length + r.current.length + (r.ring.map Prod.fst).length := by
  rw [Reactor.pending, List.length_append, List.length_append]

theorem Delivering.issue (H : e.Delivering) {isNext : Bool} {slot : ℕ} {user : κ}
    (hq : Queued e.reactor r e.running.toList isNext slot user) (hcall : e.mayCall) :
    (e.issue isNext slot user r).Delivering := by
  have hlast : ((e.issue isNext slot user r).tickets isNext)[(e.tickets isNext).length]? =
      some ⟨slot, e.pass, user⟩ := by
    simp only [EventLoop.issue, Function.update_self, List.getElem?_concat_length]
  have hself : (e.issue isNext slot user r).owner slot = (e.tickets isNext).length :=
    Function.update_self _ _ _
  refine {
    wellFormed := hq.wellFormed
    allocated := ?_
    order := ?_
    ring := ?_
    queued := fun kind s hs => ?_
    calls := fun c hc => ?_
    nextPass := fun s hs tk htk => ?_
    currentPass := fun s hs tk htk => ?_
    freed := H.freed
    outside := H.outside
    current := fun hphase => hq.current.trans (H.current hphase)
    blocking := fun hphase => ?_ }
  · have := H.allocated
    have hold := length_pending e.reactor
    have hnew := length_pending r
    rw [hq.next, hq.current, hq.ring, List.length_append, List.length_append] at hnew
    show r.allocated = r.pending.length + e.running.toList.length
    rw [hq.allocated]
    cases isNext <;>
      simp only [Bool.false_eq_true, if_false, if_true, List.length_nil, List.length_cons]
        at hnew <;>
      omega
  · rw [outstanding_issue hq, length_tickets_issue, ← List.append_assoc]
    show e.called true ++ e.outstanding true ++ _ = _
    rw [H.order]
    split_ifs with hkind
    · rw [List.range_succ, hkind]
    · rw [List.append_nil, Nat.add_zero]
  · rw [outstanding_issue hq, length_tickets_issue, ← List.append_assoc]
    show (e.called false ++ e.outstanding false ++ _).Perm _
    split_ifs with hkind
    · rw [List.range_succ, hkind]
      exact (hkind ▸ H.ring).append_right _
    · rw [List.append_nil, Nat.add_zero]
      exact H.ring
  · rw [queue_issue hq, List.mem_append] at hs
    rcases hs with hs | hs
    · obtain ⟨tk, htk, hslot, huser⟩ := H.queued kind s hs
      have hpending := mem_pending_of_queue hs
      refine ⟨tk, ?_, hslot, (users_issue hq hpending).trans huser⟩
      rw [owner_issue hq hpending]
      exact tickets_issue htk
    · split_ifs at hs with hkind
      · rw [List.mem_singleton] at hs
        subst hs hkind
        refine ⟨⟨s, e.pass, user⟩, ?_, rfl, ?_⟩
        · rw [hself, hlast]
        · show r.users s = _
          rw [hq.users, Function.update_self]
      · cases hs
  · obtain ⟨tk, htk, hcall⟩ := H.calls c hc
    exact ⟨tk, tickets_issue htk, hcall⟩
  · rw [show (e.issue isNext slot user r).reactor.next = r.next from rfl, hq.next,
      List.mem_append] at hs
    rcases hs with hs | hs
    · have hmem : s ∈ e.queue true := List.mem_append_right _ hs
      obtain ⟨tk', htk', -⟩ := H.queued true s hmem
      rw [owner_issue hq (mem_pending_of_queue hmem), tickets_issue htk'] at htk
      exact H.nextPass s hs tk (htk'.trans htk)
    · split_ifs at hs with hkind
      · rw [List.mem_singleton] at hs
        subst hs hkind
        rw [hself, hlast] at htk
        cases htk
        rfl
      · cases hs
  · rw [show (e.issue isNext slot user r).reactor.current = r.current from rfl, hq.current] at hs
    have hmem : s ∈ e.queue true := List.mem_append_left _ hs
    obtain ⟨tk', htk', -⟩ := H.queued true s hmem
    rw [owner_issue hq (mem_pending_of_queue hmem), tickets_issue htk'] at htk
    exact H.currentPass s hs tk (htk'.trans htk)
  · have hnone := (H.blocking hphase).1
    rw [mayCall, hnone, show e.phase = .ring true from hphase] at hcall
    cases hcall

theorem Delivering.next (H : e.Delivering) (user : κ) (hcall : e.mayCall) :
    (e.next user).Delivering :=
  H.issue (queued_reactorNext H.wellFormed user) hcall

theorem Delivering.submit (H : e.Delivering) (op : Op) (user : κ) (hcall : e.mayCall) :
    (e.submit op user).Delivering :=
  H.issue (queued_submit H.wellFormed op user) hcall

/-! ## Cancelling -/

/-- No ticket is called twice, and none that was called has a call to come. -/
theorem Delivering.nodup (H : e.Delivering) (isNext : Bool) :
    (e.called isNext ++ e.outstanding isNext).Nodup := by
  cases isNext with
  | true =>
    rw [H.order]
    exact List.nodup_range
  | false => exact H.ring.nodup_iff.mpr List.nodup_range

theorem Delivering.not_mem_called (H : e.Delivering) {isNext : Bool} {t : ℕ}
    (ht : t ∈ e.outstanding isNext) : t ∉ e.called isNext :=
  fun hcalled => (List.nodup_append.mp (H.nodup isNext)).2.2 t hcalled t ht rfl

theorem mem_called {c : Call κ} (hc : c ∈ e.calls) : c.ticket ∈ e.called c.isNext :=
  List.mem_map_of_mem (List.mem_filter.mpr ⟨hc, by simp⟩)

/-- A slot stands for one ticket. -/
theorem Delivering.owner_unique (H : e.Delivering) {kind isNext : Bool} {t : ℕ} {tk : Ticket κ}
    (hs : tk.slot ∈ e.queue kind) (ht : t ∈ e.outstanding isNext)
    (htk : (e.tickets isNext)[t]? = some tk) : kind = isNext ∧ e.owner tk.slot = t := by
  obtain ⟨s, hs', rfl⟩ := List.mem_map.mp ht
  obtain ⟨tk', htk', hslot, -⟩ := H.queued isNext s hs'
  rw [htk] at htk'
  obtain rfl : tk = tk' := Option.some.inj htk'
  rw [hslot] at hs ⊢
  refine ⟨?_, rfl⟩
  have hnodup := H.wellFormed.nodup
  rw [List.nodup_append, List.nodup_append] at hnodup
  have hdisjoint := (List.nodup_append.mp hnodup.1.2.1).2.2
  have hmem : ∀ s, s ∈ e.queue true → s ∈ e.reactor.next ++ e.reactor.current := by
    intro s hs
    rw [queue, List.mem_append] at hs
    exact List.mem_append.mpr hs.symm
  cases kind <;> cases isNext
  · rfl
  · exact absurd rfl (hdisjoint s (hmem s hs') s hs)
  · exact absurd rfl (hdisjoint s (hmem s hs) s hs')
  · rfl

def redirect (e : EventLoop κ) (isNext : Bool) (t : ℕ) (tk : Ticket κ) (user : κ) : EventLoop κ :=
  { e with
    reactor := e.reactor.redirect tk.slot user
    tickets := Function.update e.tickets isNext
      ((e.tickets isNext).set t { tk with user := user }) }

section Redirect

variable {isNext : Bool} {t : ℕ} {tk : Ticket κ} {user : κ}
  (htk : (e.tickets isNext)[t]? = some tk)

include htk

theorem tickets_redirect (kind : Bool) (t' : ℕ) :
    ((e.redirect isNext t tk user).tickets kind)[t']? =
      if kind = isNext ∧ t' = t then some { tk with user := user }
      else (e.tickets kind)[t']? := by
  obtain ⟨hlt, -⟩ := List.getElem?_eq_some_iff.mp htk
  simp only [redirect, Function.update_apply]
  by_cases hkind : kind = isNext
  · rw [if_pos hkind, List.getElem?_set, hkind]
    by_cases ht : t' = t
    · rw [if_pos ht.symm, if_pos hlt, if_pos ⟨rfl, ht⟩]
    · rw [if_neg (Ne.symm ht), if_neg (fun h => ht h.2)]
  · rw [if_neg hkind, if_neg (fun h => hkind h.1)]

theorem exists_ticket_redirect {kind : Bool} {t' : ℕ} {tk' : Ticket κ}
    (h : ((e.redirect isNext t tk user).tickets kind)[t']? = some tk') :
    ∃ tk₀, (e.tickets kind)[t']? = some tk₀ ∧ tk₀.slot = tk'.slot ∧ tk₀.pass = tk'.pass := by
  rw [tickets_redirect htk] at h
  split_ifs at h with hkind
  · cases h
    exact ⟨tk, hkind.1 ▸ hkind.2 ▸ htk, rfl, rfl⟩
  · exact ⟨tk', h, rfl, rfl⟩

theorem Delivering.redirect (H : e.Delivering) (ht : t ∈ e.outstanding isNext) :
    (e.redirect isNext t tk user).Delivering := by
  have hcalled := H.not_mem_called ht
  have hlength : ∀ kind, ((e.redirect isNext t tk user).tickets kind).length =
      (e.tickets kind).length := by
    intro kind
    simp only [EventLoop.redirect, Function.update_apply]
    split_ifs with hkind
    · rw [List.length_set, hkind]
    · rfl
  refine {
    wellFormed := H.wellFormed.redirect user tk.slot
    allocated := H.allocated
    order := (hlength true).symm ▸ H.order
    ring := (hlength false).symm ▸ H.ring
    queued := fun kind s hs => ?_
    calls := fun c hc => ?_
    nextPass := fun s hs tk' htk' => ?_
    currentPass := fun s hs tk' htk' => ?_
    freed := H.freed
    outside := H.outside
    current := H.current
    blocking := H.blocking }
  · -- the slot of a ticket with a call to come is its own
    obtain ⟨tk', htk', hslot, huser⟩ := H.queued kind s hs
    rw [tickets_redirect htk]
    show ∃ tk₁ : Ticket κ, (if kind = isNext ∧ e.owner s = t then some { tk with user := user }
      else (e.tickets kind)[e.owner s]?) = some tk₁ ∧ tk₁.slot = s ∧
      Function.update e.reactor.users tk.slot ((e.reactor.users tk.slot).map fun _ => user) s =
        some tk₁.user
    by_cases hkind : kind = isNext ∧ e.owner s = t
    · rw [if_pos hkind]
      rw [hkind.1, hkind.2, htk] at htk'
      obtain rfl : tk = tk' := Option.some.inj htk'
      refine ⟨_, rfl, hslot, ?_⟩
      rw [hslot, Function.update_self, huser]
      rfl
    · rw [if_neg hkind]
      refine ⟨tk', htk', hslot, ?_⟩
      have hne : s ≠ tk.slot := by
        rintro rfl
        refine hkind (H.owner_unique hs ht htk)
      rw [Function.update_of_ne hne, huser]
  · obtain ⟨tk', htk', hcall⟩ := H.calls c hc
    refine ⟨tk', ?_, hcall⟩
    rw [tickets_redirect htk, if_neg, htk']
    rintro ⟨hkind, hticket⟩
    exact hcalled (hkind ▸ hticket ▸ mem_called hc)
  · obtain ⟨tk₀, htk₀, -, hpass⟩ := exists_ticket_redirect htk htk'
    exact hpass ▸ H.nextPass s hs tk₀ htk₀
  · obtain ⟨tk₀, htk₀, -, hpass⟩ := exists_ticket_redirect htk htk'
    exact hpass ▸ H.currentPass s hs tk₀ htk₀

end Redirect

theorem Delivering.cancel (H : e.Delivering) {isNext : Bool} {t : ℕ} {tk : Ticket κ}
    (htk : (e.tickets isNext)[t]? = some tk) (ht : t ∈ e.outstanding isNext) (user : κ)
    (hcall : e.mayCall) : (e.cancel noop isNext t tk user).Delivering := by
  have hredirect : (e.redirect isNext t tk user).Delivering := H.redirect htk ht
  cases isNext with
  | true => exact hredirect
  | false =>
    have hq := queued_submit hredirect.wellFormed (.asyncCancel tk.slot) noop
    have hlast : ((((e.redirect false t tk user).reactor.submit (.asyncCancel tk.slot) noop).2.ring
        ).getLast?.map Prod.fst).getD 0 =
        ((e.redirect false t tk user).reactor.submit (.asyncCancel tk.slot) noop).1.slot := by
      rw [Reactor.ring_submit, List.getLast?_concat]
      rfl
    have hissue := hredirect.issue hq hcall
    rw [← hlast] at hissue
    exact hissue

/-! ## Calling -/

theorem called_enter (isNext kind : Bool) (slot : ℕ) (r : Reactor κ) (user : κ) :
    (e.enter isNext slot r user).called kind =
      e.called kind ++ if isNext = kind then [e.owner slot] else [] := by
  unfold called enter
  rw [List.filter_append, List.map_append]
  congr 1
  by_cases hkind : isNext = kind
  · simp [hkind]
  · simp [hkind]

structure Taken (r r' : Reactor κ) (isNext : Bool) (slot : ℕ) : Prop where
  users : r'.users = r.users
  free : r'.free = r.free
  slots : r'.slots = r.slots
  allocated : r'.allocated = r.allocated
  pending : r.pending.Perm (slot :: r'.pending)
  next : r'.next = r.next
  current : r.current = (if isNext then [slot] else []) ++ r'.current
  ring : (r.ring.map Prod.fst).Perm ((if isNext then [] else [slot]) ++ r'.ring.map Prod.fst)

theorem taken_takeCurrent {slot : ℕ} {rest : List ℕ} (hcurrent : r.current = slot :: rest) :
    Taken r r.takeCurrent true slot := by
  refine ⟨rfl, rfl, rfl, rfl, Reactor.pending_takeCurrent hcurrent, rfl, ?_, .refl _⟩
  rw [Reactor.takeCurrent, hcurrent]
  rfl

theorem taken_takeRing {slot : ℕ} (hmem : slot ∈ r.ring.map Prod.fst) :
    Taken r (r.takeRing slot) false slot := by
  obtain ⟨⟨slot', op⟩, hring, rfl⟩ := List.mem_map.mp hmem
  refine ⟨rfl, rfl, rfl, rfl, Reactor.pending_takeRing hring, rfl, rfl, ?_⟩
  obtain ⟨a, l₁, l₂, -, ha, heq, herase⟩ :=
    List.exists_of_eraseP hring (p := fun entry => entry.1 == slot') (by simp)
  have ha' : a.1 = slot' := by simpa using ha
  rw [Reactor.takeRing, herase, heq, List.map_append, List.map_append, List.map_cons, ha']
  exact List.perm_middle

/-- `reactor_loop_once` calls the user of a slot that it has taken. -/
theorem Delivering.call (H : e.Delivering) {isNext : Bool} {slot : ℕ}
    (htaken : Taken e.reactor r isNext slot) (hrunning : e.running = none)
    (hnexts : isNext = false → e.phase ≠ .nexts) :
    ∃ e', { e with phase := if isNext then .nexts else .ring false }.call isNext slot r = some e' ∧
      e'.Delivering := by
  have hmem : slot ∈ e.queue isNext := by
    cases isNext with
    | true => exact List.mem_append_left _ (htaken.current ▸ List.mem_cons_self)
    | false => exact htaken.ring.mem_iff.mpr List.mem_cons_self
  obtain ⟨tk, htk, hslot, huser⟩ := H.queued isNext slot hmem
  have hwf := H.wellFormed.hold htaken.pending htaken.users htaken.free htaken.slots
  rw [hrunning] at hwf
  have hcurrent : ∀ s ∈ r.current, s ∈ e.reactor.current := fun s hs =>
    htaken.current ▸ List.mem_append_right _ hs
  refine ⟨{ e with phase := if isNext then .nexts else .ring false }.enter isNext slot r tk.user,
    by rw [EventLoop.call, htaken.users, huser]; rfl, {
    wellFormed := hwf
    allocated := ?_
    order := ?_
    ring := ?_
    queued := fun kind s hs => ?_
    calls := fun c hc => ?_
    nextPass := fun s hs => H.nextPass s (htaken.next ▸ hs)
    currentPass := fun s hs => H.currentPass s (hcurrent s hs)
    freed := ?_
    outside := fun h => ?_
    current := fun h => ?_
    blocking := fun h => ?_ }⟩
  · have hlength := htaken.pending.length_eq
    have := H.allocated
    rw [hrunning] at this
    show r.allocated = r.pending.length + 1
    rw [List.length_cons] at hlength
    rw [htaken.allocated, this, hlength]
    rfl
  · have horder := H.order
    rw [outstanding, queue, htaken.current, List.append_assoc, List.map_append,
      ← List.append_assoc] at horder
    refine Eq.trans ?_ horder
    rw [called_enter]
    show e.called true ++ _ ++ (r.current ++ r.next).map e.owner = _
    rw [htaken.next]
    congr 2
    cases isNext <;> rfl
  · refine List.Perm.trans ?_ H.ring
    rw [called_enter]
    show (e.called false ++ _ ++ (r.ring.map Prod.fst).map e.owner).Perm _
    rw [List.append_assoc]
    refine List.Perm.append_left _ ?_
    refine List.Perm.trans ?_ (htaken.ring.symm.map e.owner)
    rw [List.map_append]
    cases isNext <;> exact .refl _
  · have hold : s ∈ e.queue kind := by
      cases kind with
      | true =>
        rcases List.mem_append.mp hs with hs | hs
        · exact List.mem_append_left _ (hcurrent s hs)
        · exact List.mem_append_right _ (htaken.next ▸ hs)
      | false => exact htaken.ring.mem_iff.mpr (List.mem_append_right _ hs)
    obtain ⟨tk', htk', hslot', huser'⟩ := H.queued kind s hold
    exact ⟨tk', htk', hslot', htaken.users ▸ huser'⟩
  · rcases List.mem_append.mp hc with hc | hc
    · exact H.calls c hc
    · rw [List.mem_singleton.mp hc]
      refine ⟨tk, htk, hslot, rfl, fun hnext => ?_⟩
      have hnext : isNext = true := hnext
      subst hnext
      exact (H.currentPass slot (htaken.current ▸ List.mem_cons_self) tk htk).symm
  · have hfreed := H.freed
    rw [hrunning] at hfreed
    show (e.calls ++ [_]).map Call.slot = e.freed ++ [slot]
    rw [List.map_append, hfreed, List.append_assoc]
    rfl
  · cases isNext <;> cases h
  · cases isNext with
    | true => exact absurd rfl h
    | false =>
      have hempty := H.current (hnexts rfl)
      rw [htaken.current] at hempty
      exact hempty
  · cases isNext <;> cases h

theorem Delivering.callNext (H : e.Delivering) {slot : ℕ} {rest : List ℕ}
    (hphase : e.phase = .nexts) (hrunning : e.running = none)
    (hcurrent : e.reactor.current = slot :: rest) :
    ∃ e', e.call true slot e.reactor.takeCurrent = some e' ∧ e'.Delivering := by
  obtain ⟨e', hcall, H'⟩ := H.call (taken_takeCurrent hcurrent) hrunning nofun
  refine ⟨e', ?_, H'⟩
  rw [← hcall, if_pos rfl, ← hphase]

theorem Delivering.complete (H : e.Delivering) {slot : ℕ} (hphase : e.phase ≠ .nexts)
    (hrunning : e.running = none) (hslot : slot ∈ e.queue false) :
    ∃ e', { e with phase := .ring false }.call false slot (e.reactor.takeRing slot) = some e' ∧
      e'.Delivering :=
  H.call (taken_takeRing hslot) hrunning fun _ => hphase

/-- A callback returns and its slot goes back to the pool. -/
theorem Delivering.return (H : e.Delivering) {slot : ℕ} (hrunning : e.running = some slot) :
    { e with
      reactor := e.reactor.freeUser slot
      running := none
      freed := e.freed ++ [slot] }.Delivering := by
  have hwf := H.wellFormed
  have hallocated := H.allocated
  have hfreed := H.freed
  rw [hrunning] at hwf hallocated hfreed
  refine { H with
    wellFormed := hwf.freeUser
    allocated := ?_
    queued := fun kind s hs => ?_
    freed := ?_
    outside := fun _ => rfl
    blocking := fun hphase => ?_ }
  · show e.reactor.allocated - 1 = e.reactor.pending.length + 0
    rw [hallocated]
    rfl
  · obtain ⟨tk, htk, hslot, huser⟩ := H.queued kind s hs
    refine ⟨tk, htk, hslot, ?_⟩
    have hne : s ≠ slot := by
      rintro rfl
      exact hwf.not_mem_pending (mem_pending_of_queue hs)
    show Function.update e.reactor.users slot none s = _
    rw [Function.update_of_ne hne, huser]
  · rw [hfreed]
    exact (List.append_nil _).symm
  · have := (H.blocking hphase).1
    rw [hrunning] at this
    cases this

/-! ## Passes -/

/-- `reactor_loop_once` begins: the scheduled callbacks become those of the pass. -/
theorem Delivering.loopOnce (H : e.Delivering) (hphase : e.phase = .outside) :
    { e with
      phase := .nexts
      pass := e.pass + 1
      reactor := if e.reactor.next = [] then e.reactor else e.reactor.swapNext }.Delivering := by
  have hcurrent := H.current (by rw [hphase]; exact nofun)
  have hrunning := H.outside hphase
  have hswap : (if e.reactor.next = [] then e.reactor else e.reactor.swapNext) =
      e.reactor.swapNext := by
    split_ifs with hnext
    · exact (Reactor.swapNext_of_empty hcurrent hnext).symm
    · rfl
  rw [hswap]
  have hqueue : ∀ kind, { e with
      phase := .nexts
      pass := e.pass + 1
      reactor := e.reactor.swapNext }.queue kind = e.queue kind := by
    intro kind
    cases kind with
    | true =>
      rw [queue, queue, hcurrent, List.nil_append]
      exact List.append_nil _
    | false => rfl
  have houtstanding : ∀ kind, { e with
      phase := .nexts
      pass := e.pass + 1
      reactor := e.reactor.swapNext }.outstanding kind = e.outstanding kind := by
    intro kind
    rw [outstanding, hqueue]
    rfl
  refine { H with
    wellFormed := H.wellFormed.swapNext hcurrent
    allocated := ?_
    order := ?_
    ring := ?_
    queued := fun kind s hs => H.queued kind s (hqueue kind ▸ hs)
    nextPass := nofun
    currentPass := fun s hs tk htk => congrArg (· + 1) (H.nextPass s hs tk htk)
    outside := nofun
    current := fun h => absurd rfl h
    blocking := nofun }
  · rw [Reactor.pending_swapNext hcurrent]
    exact H.allocated
  · rw [houtstanding]
    exact H.order
  · rw [houtstanding]
    exact H.ring

/-- The pass over the scheduled callbacks is over. -/
theorem Delivering.enterRing (H : e.Delivering) (hrunning : e.running = none)
    (hcurrent : e.reactor.current = []) :
    { e with phase := e.reactor.afterNexts }.Delivering := by
  refine { H with
    outside := fun _ => hrunning
    current := fun _ => hcurrent
    blocking := fun hphase => ⟨hrunning, fun hring => ?_⟩ }
  have hlength := length_pending e.reactor
  have hallocated := H.allocated
  rw [hrunning, hlength, hcurrent, show e.reactor.ring = [] from hring] at hallocated
  simp only [List.length_nil, List.map_nil, Option.toList_none, Nat.add_zero] at hallocated
  have hpool : e.reactor.poolSize = e.reactor.allocated := rfl
  simp only [Reactor.afterNexts] at hphase
  rw [if_neg (by omega)] at hphase
  cases hphase

theorem Delivering.leaveRing (H : e.Delivering) (hrunning : e.running = none)
    (hphase : e.phase ≠ .nexts) : { e with phase := .outside }.Delivering :=
  { H with
    outside := fun _ => hrunning
    current := fun _ => H.current hphase
    blocking := nofun }

/-- Every move keeps the state in order. -/
theorem Delivering.step (H : e.Delivering) {l : LoopLabel κ} (hstep : e.step noop l = some e') :
    e'.Delivering := by
  cases l with
  | next user =>
    rw [EventLoop.step] at hstep
    split_ifs at hstep with hcall
    exact Option.some.inj hstep ▸ H.next user hcall
  | submit op user =>
    rw [EventLoop.step] at hstep
    split_ifs at hstep with hcall
    exact Option.some.inj hstep ▸ H.submit op user hcall
  | cancel isNext ticket user =>
    rw [EventLoop.step] at hstep
    split_ifs at hstep with hcall
    obtain ⟨tk, htk, rfl⟩ := Option.map_eq_some_iff.mp hstep
    exact H.cancel noop htk hcall.2 user hcall.1
  | loopOnce =>
    rw [EventLoop.step] at hstep
    by_cases hphase : e.phase = .outside
    · rw [if_pos hphase] at hstep
      exact Option.some.inj hstep ▸ H.loopOnce hphase
    · rw [if_neg hphase] at hstep
      cases hstep
  | callNext =>
    dsimp only [EventLoop.step] at hstep
    split at hstep
    · next slot rest hphase hrunning hcurrent =>
      obtain ⟨e₁, hcall, H₁⟩ := H.callNext hphase hrunning hcurrent
      rw [hcall] at hstep
      exact Option.some.inj hstep ▸ H₁
    · cases hstep
  | enterRing =>
    dsimp only [EventLoop.step] at hstep
    split at hstep
    · next hphase hrunning hcurrent =>
      exact Option.some.inj hstep ▸ H.enterRing hrunning hcurrent
    · cases hstep
  | complete slot =>
    dsimp only [EventLoop.step] at hstep
    split at hstep
    · next blocking hphase hrunning =>
      split_ifs at hstep with hslot
      obtain ⟨e₁, hcall, H₁⟩ := H.complete (by rw [hphase]; exact nofun) hrunning hslot
      rw [hcall] at hstep
      exact Option.some.inj hstep ▸ H₁
    · cases hstep
  | leaveRing =>
    dsimp only [EventLoop.step] at hstep
    split at hstep
    · next hphase hrunning =>
      exact Option.some.inj hstep ▸ H.leaveRing hrunning (by rw [hphase]; exact nofun)
    · cases hstep
  | «return» =>
    obtain ⟨slot, hrunning, rfl⟩ := Option.map_eq_some_iff.mp hstep
    exact H.return hrunning

/-! ## Exactly once -/

def LoopLabel.isOwn : LoopLabel κ → Bool
  | .next _ | .submit _ _ | .cancel _ _ _ => false
  | _ => true

/-- What holds throughout a run of the loop. -/
structure ExactlyOnce (e : EventLoop κ) : Prop where
  /-- every ticket has either been called, once, or has a call to come -/
  once : ∀ isNext, (e.called isNext ++ e.outstanding isNext).Perm
    (List.range (e.tickets isNext).length)
  /-- the next callbacks are called in the order of their tickets -/
  order : e.called true ++ e.outstanding true = List.range (e.tickets true).length
  /-- every call is of the callback that the ticket has had since its last cancellation, a next
  callback in the pass after the one that scheduled it -/
  calls : ∀ c ∈ e.calls, ∃ tk, (e.tickets c.isNext)[c.ticket]? = some tk ∧
    tk.slot = c.slot ∧ tk.user = c.user ∧ (c.isNext = true → c.pass = tk.pass + 1)
  /-- between two passes every next callback of an earlier pass has been called -/
  prompt : e.phase = .outside → ∀ t tk, (e.tickets true)[t]? = some tk → tk.pass < e.pass →
    t ∈ e.called true
  /-- the slots are freed in the order of the calls, each after its callback -/
  freed : e.calls.map Call.slot = e.freed ++ e.running.toList
  /-- no two operations share a slot, and none has a slot that the pool holds -/
  exclusive : (e.running.toList ++ e.queue true ++ e.queue false ++ e.reactor.free).Nodup
  poolSize : e.reactor.poolSize =
    (e.outstanding true).length + (e.outstanding false).length + e.running.toList.length
  /-- `reactor_loop` returns exactly when nothing is outstanding -/
  returns : e.phase = .outside →
    (e.Returns ↔ e.outstanding true = [] ∧ e.outstanding false = [])
  finished : e.Returns → ∀ isNext, (e.called isNext).Perm (List.range (e.tickets isNext).length)
  /-- it waits for the kernel only when that has a completion to post -/
  waits : e.phase = .ring true → e.outstanding false ≠ []

theorem Delivering.prompt (H : e.Delivering) (hphase : e.phase = .outside) {t : ℕ} {tk : Ticket κ}
    (htk : (e.tickets true)[t]? = some tk) (hpass : tk.pass < e.pass) : t ∈ e.called true := by
  obtain ⟨hlt, -⟩ := List.getElem?_eq_some_iff.mp htk
  have hmem : t ∈ e.called true ++ e.outstanding true := by
    rw [H.order]
    exact List.mem_range.mpr hlt
  refine (List.mem_append.mp hmem).resolve_right fun hout => ?_
  obtain ⟨s, hs, rfl⟩ := List.mem_map.mp hout
  rw [queue, H.current (by rw [hphase]; exact nofun), List.nil_append] at hs
  have := H.nextPass s hs tk htk
  omega

theorem Delivering.exactlyOnce (H : e.Delivering) : e.ExactlyOnce := by
  have hperm : e.reactor.pending.Perm (e.queue true ++ e.queue false) := by
    unfold Reactor.pending queue
    exact List.perm_append_comm.append_right _
  have hlength : e.reactor.pending.length =
      (e.outstanding true).length + (e.outstanding false).length := by
    rw [hperm.length_eq, List.length_append, outstanding, outstanding, List.length_map,
      List.length_map]
  have hallocated := H.allocated
  rw [hlength] at hallocated
  have honce : ∀ isNext, (e.called isNext ++ e.outstanding isNext).Perm
      (List.range (e.tickets isNext).length) := by
    intro isNext
    cases isNext with
    | true => exact .of_eq H.order
    | false => exact H.ring
  have hreturns : e.phase = .outside →
      (e.Returns ↔ e.outstanding true = [] ∧ e.outstanding false = []) := by
    intro hphase
    rw [H.outside hphase, Option.toList_none, List.length_nil] at hallocated
    show e.phase = .outside ∧ e.reactor.allocated = 0 ↔ _
    rw [hallocated, ← List.length_eq_zero_iff, ← List.length_eq_zero_iff]
    constructor
    · rintro ⟨-, hzero⟩
      omega
    · rintro ⟨hnexts, hring⟩
      exact ⟨hphase, by omega⟩
  refine ⟨honce, H.order, H.calls, fun hphase t tk => H.prompt hphase, H.freed, ?_,
    hallocated, hreturns, fun hfinished isNext => ?_, fun hphase hempty => ?_⟩
  · rw [List.append_assoc e.running.toList]
    exact ((hperm.append_left _).append_right _).nodup_iff.mp H.wellFormed.nodup
  · obtain ⟨hnexts, hring⟩ := (hreturns hfinished.1).mp hfinished
    have hperm := honce isNext
    cases isNext with
    | true => rwa [hnexts, List.append_nil] at hperm
    | false => rwa [hring, List.append_nil] at hperm
  · refine (H.blocking hphase).2 ?_
    rwa [outstanding, List.map_eq_nil_iff, queue, List.map_eq_nil_iff] at hempty

/-- The loop never stops short: until it returns it has a move, if only to take a completion. -/
theorem Delivering.progress (H : e.Delivering) :
    e.Returns ∨ ∃ l e', LoopLabel.isOwn l ∧ e.step noop l = some e' := by
  cases hrunning : e.running with
  | some slot => exact .inr ⟨.return, _, rfl, by rw [EventLoop.step, hrunning]; rfl⟩
  | none =>
    cases hphase : e.phase with
    | outside => exact .inr ⟨.loopOnce, _, rfl, by rw [EventLoop.step, if_pos hphase]⟩
    | nexts =>
      cases hcurrent : e.reactor.current with
      | nil =>
        refine .inr ⟨.enterRing, { e with phase := e.reactor.afterNexts }, rfl, ?_⟩
        simp only [EventLoop.step, hphase, hrunning, hcurrent]
      | cons slot rest =>
        obtain ⟨e', hcall, -⟩ := H.callNext hphase hrunning hcurrent
        refine .inr ⟨.callNext, e', rfl, ?_⟩
        simp only [EventLoop.step, hphase, hrunning, hcurrent, hcall]
    | ring blocking =>
      cases hring : e.queue false with
      | nil =>
        cases blocking with
        | true => exact absurd (List.map_eq_nil_iff.mp hring) (H.blocking hphase).2
        | false =>
          refine .inr ⟨.leaveRing, { e with phase := .outside }, rfl, ?_⟩
          simp only [EventLoop.step, hphase, hrunning]
      | cons slot rest =>
        have hslot : slot ∈ e.queue false := hring ▸ List.mem_cons_self
        obtain ⟨e', hcall, -⟩ := H.complete (by rw [hphase]; exact nofun) hrunning hslot
        refine .inr ⟨.complete slot, e', rfl, ?_⟩
        dsimp only [EventLoop.step]
        split
        · rw [if_pos hslot, hcall]
        · next h => exact absurd hrunning (h blocking hphase)

theorem delivering_of_reach (h : Reach (step noop) (fun _ _ => True) construct e) :
    e.Delivering :=
  h.invariant delivering_construct fun _ _ _ H _ hstep => H.step noop hstep

theorem user_of_step {isNext : Bool} {t : ℕ} {tk : Ticket κ}
    (htk : (e.tickets isNext)[t]? = some tk) {l : LoopLabel κ}
    (hl : ∀ user, l ≠ .cancel isNext t user) (hstep : e.step noop l = some e') :
    (e'.tickets isNext)[t]? = some tk := by
  cases l with
  | next user =>
    rw [EventLoop.step] at hstep
    split_ifs at hstep
    exact Option.some.inj hstep ▸ tickets_issue htk
  | submit op user =>
    rw [EventLoop.step] at hstep
    split_ifs at hstep
    exact Option.some.inj hstep ▸ tickets_issue htk
  | cancel kind t' user =>
    rw [EventLoop.step] at hstep
    split_ifs at hstep
    obtain ⟨tk', htk', rfl⟩ := Option.map_eq_some_iff.mp hstep
    have hne : ¬(isNext = kind ∧ t = t') := fun h => hl user (by rw [h.1, h.2])
    have hredirect : ((e.redirect kind t' tk' user).tickets isNext)[t]? = some tk := by
      rw [tickets_redirect htk', if_neg hne, htk]
    cases kind with
    | true => exact hredirect
    | false => exact tickets_issue hredirect
  | loopOnce =>
    rw [EventLoop.step, Option.ite_none_right_eq_some] at hstep
    exact Option.some.inj hstep.2 ▸ htk
  | callNext =>
    dsimp only [EventLoop.step] at hstep
    split at hstep
    · obtain ⟨user, -, rfl⟩ := Option.map_eq_some_iff.mp hstep
      exact htk
    · cases hstep
  | enterRing =>
    dsimp only [EventLoop.step] at hstep
    split at hstep
    · exact Option.some.inj hstep ▸ htk
    · cases hstep
  | complete slot =>
    dsimp only [EventLoop.step] at hstep
    split at hstep
    · split_ifs at hstep
      obtain ⟨user, -, rfl⟩ := Option.map_eq_some_iff.mp hstep
      exact htk
    · cases hstep
  | leaveRing =>
    dsimp only [EventLoop.step] at hstep
    split at hstep
    · exact Option.some.inj hstep ▸ htk
    · cases hstep
  | «return» =>
    obtain ⟨slot, -, rfl⟩ := Option.map_eq_some_iff.mp hstep
    exact htk

theorem user_of_cancel {isNext : Bool} {t : ℕ} {user : κ}
    (hstep : e.step noop (.cancel isNext t user) = some e') :
    ∃ tk : Ticket κ, (e'.tickets isNext)[t]? = some tk ∧ tk.user = user := by
  rw [EventLoop.step] at hstep
  split_ifs at hstep
  obtain ⟨tk, htk, rfl⟩ := Option.map_eq_some_iff.mp hstep
  have hredirect : ((e.redirect isNext t tk user).tickets isNext)[t]? =
      some { tk with user := user } := by
    rw [tickets_redirect htk, if_pos ⟨rfl, rfl⟩]
  cases isNext with
  | true => exact ⟨_, hredirect, rfl⟩
  | false => exact ⟨_, tickets_issue hredirect, rfl⟩

/-- In every run of the loop each operation is called exactly once, with the callback of its last
cancellation if there was one, and the loop goes on exactly until nothing is outstanding. -/
theorem reactorLoop_exactlyOnce :
    (∀ e : EventLoop κ, Reach (step noop) (fun _ _ => True) construct e → e.ExactlyOnce ∧
      (e.Returns ∨ ∃ l e', LoopLabel.isOwn l ∧ e.step noop l = some e')) ∧
    ∀ (e e₁ e₂ : EventLoop κ) (isNext : Bool) (t : ℕ) (user : κ),
      Reach (step noop) (fun _ _ => True) construct e →
      e.step noop (.cancel isNext t user) = some e₁ →
      Reach (step noop) (fun _ l => ∀ user', l ≠ .cancel isNext t user') e₁ e₂ →
      t ∉ e.called isNext ∧
        ∀ c ∈ e₂.calls, c.isNext = isNext → c.ticket = t → c.user = user := by
  refine ⟨fun e h => ?_, fun e e₁ e₂ isNext t user h hstep h₂ => ⟨?_, ?_⟩⟩
  · have H := delivering_of_reach noop h
    exact ⟨H.exactlyOnce, H.progress noop⟩
  · have H := delivering_of_reach noop h
    rw [EventLoop.step] at hstep
    split_ifs at hstep with hcall
    exact H.not_mem_called hcall.2
  · rintro c hc rfl rfl
    have H₂ := delivering_of_reach noop
      ((h.step trivial hstep).trans (h₂.mono fun _ _ _ => trivial))
    obtain ⟨tk, htk, huser⟩ := user_of_cancel noop hstep
    have hkept := h₂.invariant (I := fun e => (e.tickets c.isNext)[c.ticket]? = some tk) htk
      fun _ _ _ htk hl hstep => user_of_step noop htk hl hstep
    obtain ⟨tk', htk', -, huser', -⟩ := H₂.calls c hc
    rw [hkept] at htk'
    obtain rfl : tk = tk' := Option.some.inj htk'
    exact huser'.symm.trans huser

/-- A scheduled callback is replaced, and the pass after calls what replaced it. -/
example : (exec (step 0) construct [.next 1, .cancel true 0 2, .loopOnce, .callNext, .return]).map
    (fun e => e.calls.map Call.user) = some [2] := rfl

end EventLoop

end LibReactor
