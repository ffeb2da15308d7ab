import LibReactor.Transition
import LibReactor.Wraparound
import Mathlib.Data.Int.Notation

/-!
# The completion ring

`reactor_ring_cqe` gives the slot of an entry back to the kernel before `reactor_loop_once` has
read the entry, and the kernel may fill any slot that it has at any time. The fields are read one
after the other, the last one behind the callback.
-/

namespace LibReactor

/-- A completion, with its number in the order in which the kernel has posted them. -/
structure Completion where
  serial : ℕ
  userData : ℕ
  res : ℤ
  /-- `IORING_CQE_F_NOTIF` -/
  notif : Bool
  /-- `IORING_CQE_F_MORE` -/
  more : Bool
  deriving DecidableEq

structure Handled where
  taken : Completion
  user : Completion
  notif : Completion
  /-- the result, unless there is no call -/
  res : Option Completion
  more : Completion
  deriving DecidableEq

structure Handled.Whole (h : Handled) : Prop where
  user : h.user = h.taken
  notif : h.notif = h.taken
  res : ∀ x ∈ h.res, x = h.taken
  more : h.more = h.taken

inductive CqePhase
  | idle
  | taken (slot : UInt32) (c : Completion)
  | loaded (slot : UInt32) (c user : Completion)
  | checked (slot : UInt32) (c user notif : Completion)
  | called (slot : UInt32) (c user notif : Completion) (res : Option Completion)

structure CompletionRing where
  size : RingSize
  cqHead : UInt32
  cqTail : UInt32
  cqe : UInt32 → Completion
  posted : ℕ
  phase : CqePhase
  handled : List Handled
  freed : List ℕ

inductive CompletionLabel
  /-- the kernel fills a slot -/
  | post (userData : ℕ) (res : ℤ) (notif more : Bool)
  /-- `reactor_ring_cqe` -/
  | cqe
  /-- `user = (reactor_user_t *) cqe->user_data` -/
  | load
  /-- the test of `IORING_CQE_F_NOTIF` -/
  | check
  /-- `reactor_call` up to the return of the callback -/
  | call
  /-- the test of `IORING_CQE_F_MORE` -/
  | test

namespace CompletionRing

open Transition

def construct (size : RingSize) (counter : UInt32) (cqe : UInt32 → Completion) :
    CompletionRing where
  size := size
  cqHead := counter
  cqTail := counter
  cqe := cqe
  posted := 0
  phase := .idle
  handled := []
  freed := []

/-- The number of slots that the kernel has filled and the program has not given back. -/
def count (s : CompletionRing) : ℕ := (s.cqTail - s.cqHead).toNat

def post (userData : ℕ) (res : ℤ) (notif more : Bool) (s : CompletionRing) : CompletionRing :=
  { s with
    cqTail := s.cqTail + 1
    cqe := Function.update s.cqe (s.size.slot s.cqTail) ⟨s.posted, userData, res, notif, more⟩
    posted := s.posted + 1 }

/-- `reactor_ring_cqe`; without an entry the loop is left and comes again later. -/
def reactorRingCqe (s : CompletionRing) : CompletionRing :=
  if s.cqHead = s.cqTail then s
  else
    let slot := s.size.slot s.cqHead
    { s with cqHead := s.cqHead + 1, phase := .taken slot (s.cqe slot) }

def step (s : CompletionRing) : CompletionLabel → Option CompletionRing
  | .post userData res notif more =>
    if s.count < s.size.slots then some (s.post userData res notif more) else none
  | .cqe =>
    match s.phase with
    | .idle => some s.reactorRingCqe
    | _ => none
  | .load =>
    match s.phase with
    | .taken slot c => some { s with phase := .loaded slot c (s.cqe slot) }
    | _ => none
  | .check =>
    match s.phase with
    | .loaded slot c user => some { s with phase := .checked slot c user (s.cqe slot) }
    | _ => none
  | .call =>
    match s.phase with
    | .checked slot c user notif =>
      some { s with
        phase := .called slot c user notif (if notif.notif then none else some (s.cqe slot)) }
    | _ => none
  | .test =>
    match s.phase with
    | .called slot c user notif res =>
      some { s with
        phase := .idle
        handled := s.handled ++ [⟨c, user, notif, res, s.cqe slot⟩]
        freed := if (s.cqe slot).more then s.freed else s.freed ++ [user.userData] }
    | _ => none

def entry (s : CompletionRing) : Option (UInt32 × Completion × List Completion) :=
  match s.phase with
  | .idle => none
  | .taken slot c => some (slot, c, [])
  | .loaded slot c user => some (slot, c, [user])
  | .checked slot c user notif => some (slot, c, [user, notif])
  | .called slot c user notif res => some (slot, c, [user, notif] ++ res.toList)

/-- The completions between the counters are numbered one after the other, and the entry in hand
is the one before them. It is as it was taken until the ring is full again. -/
structure Numbered (s : CompletionRing) : Prop where
  count_le : s.count ≤ s.size.slots
  serial : ∀ i < s.count,
    (s.cqe (s.size.slot (s.cqHead + UInt32.ofNat i))).serial + s.count = s.posted + i
  taken : ∀ slot c read, s.entry = some (slot, c, read) →
    slot = s.size.slot (s.cqHead - 1) ∧ c.serial + s.count + 1 = s.posted ∧
      (s.count < s.size.slots → s.cqe slot = c ∧ ∀ x ∈ read, x = c)

/-- The ring is not full again when `IORING_CQE_F_MORE` is tested. -/
def roomy (s : CompletionRing) : CompletionLabel → Bool
  | .test => s.count < s.size.slots
  | _ => true

variable {s s' : CompletionRing} {slot : UInt32} {c : Completion} {reads : List Completion}

theorem numbered_construct (size : RingSize) (counter : UInt32) (cqe : UInt32 → Completion) :
    Numbered (construct size counter cqe) := by
  have hcount : (construct size counter cqe).count = 0 := by
    rw [count, construct, UInt32.sub_self]
    rfl
  refine ⟨by rw [hcount]; exact Nat.zero_le _, fun i hi => ?_, fun slot c reads hentry => ?_⟩
  · rw [hcount] at hi
    exact absurd hi (Nat.not_lt_zero i)
  · cases hentry

theorem Numbered.slot_last (h : s.Numbered) (hentry : s.entry = some (slot, c, reads)) {n : ℕ}
    (hn : s.size.slots = n + 1) : slot = s.size.slot (s.cqHead + UInt32.ofNat n) := by
  rw [(h.taken slot c reads hentry).1, ← RingSize.slot_add_slots (s.cqHead - 1), hn,
    UInt32.ofNat_add]
  congr 1
  grind

/-- The entry in hand has been filled anew exactly when the ring is full again. -/
theorem Numbered.cqe_eq_iff (h : s.Numbered) (hentry : s.entry = some (slot, c, reads)) :
    s.cqe slot = c ↔ s.count < s.size.slots := by
  obtain ⟨-, hserial, hwhole⟩ := h.taken slot c reads hentry
  refine ⟨fun heq => Nat.lt_of_le_of_ne h.count_le fun hfull => ?_, fun hlt => (hwhole hlt).1⟩
  obtain ⟨n, hn⟩ : ∃ n, s.size.slots = n + 1 := ⟨_, (Nat.sub_add_cancel RingSize.slots_pos).symm⟩
  have hlast := h.serial n (by omega)
  rw [← h.slot_last hentry hn, heq] at hlast
  omega

/-! ## Steps -/

theorem Numbered.post (h : s.Numbered) (hroom : s.count < s.size.slots) (userData : ℕ) (res : ℤ)
    (notif more : Bool) : (s.post userData res notif more).Numbered := by
  have htail := RingSize.tail_eq (rfl : _ = s.count)
  have hcount : (s.post userData res notif more).count = s.count + 1 :=
    RingSize.count_add rfl (by have hlt := s.size.slots_lt; omega)
  have hself : (s.post userData res notif more).cqe (s.size.slot s.cqTail) =
      ⟨s.posted, userData, res, notif, more⟩ := Function.update_self ..
  have hother : ∀ slot, slot ≠ s.size.slot s.cqTail →
      (s.post userData res notif more).cqe slot = s.cqe slot :=
    fun slot hne => Function.update_of_ne hne ..
  refine ⟨hcount ▸ hroom, fun i hi => ?_, fun slot c reads hentry => ?_⟩
  · rw [hcount] at hi ⊢
    show ((s.post userData res notif more).cqe
      (s.size.slot (s.cqHead + UInt32.ofNat i))).serial + _ = s.posted + 1 + i
    by_cases hlast : i = s.count
    · rw [hlast, ← htail, hself]
      dsimp only
      omega
    · rw [hother]
      · have hserial := h.serial i (by omega)
        omega
      · rw [htail]
        exact fun heq => hlast (RingSize.slot_injective (by omega) (by omega) heq)
  · obtain ⟨hslot, hserial, hwhole⟩ := h.taken slot c reads hentry
    rw [hcount]
    refine ⟨hslot, ?_, fun hlt => ⟨?_, (hwhole hroom).2⟩⟩
    · show _ = s.posted + 1
      omega
    · -- the slot that is filled is `count + 1` behind the one in hand
      have hhand : s.cqHead - 1 + UInt32.ofNat 0 = s.cqHead - 1 := UInt32.add_zero _
      have hfilled : s.cqHead - 1 + UInt32.ofNat (s.count + 1) = s.cqTail := by
        rw [UInt32.ofNat_add, htail]
        grind
      rw [hother, (hwhole hroom).1]
      rw [hslot, ← hhand, ← hfilled]
      exact fun heq => nomatch RingSize.slot_injective RingSize.slots_pos (by exact hlt) heq

theorem Numbered.read (h : s.Numbered) (hentry : s.entry = some (slot, c, reads))
    {phase : CqePhase} {more : List Completion} (hmore : ∀ x ∈ more, x = s.cqe slot)
    (hphase : entry { s with phase := phase } = some (slot, c, reads ++ more)) :
    Numbered { s with phase := phase } := by
  obtain ⟨hslot, hserial, hwhole⟩ := h.taken slot c reads hentry
  refine ⟨h.count_le, h.serial, fun slot' c' reads' hentry' => ?_⟩
  obtain ⟨rfl, rfl, rfl⟩ : slot = slot' ∧ c = c' ∧ reads ++ more = reads' := by
    simpa using hphase.symm.trans hentry'
  refine ⟨hslot, hserial, fun hlt => ⟨(hwhole hlt).1, fun x hx => ?_⟩⟩
  rcases List.mem_append.mp hx with hx | hx
  · exact (hwhole hlt).2 x hx
  · exact (hmore x hx).trans (hwhole hlt).1

theorem Numbered.reactorRingCqe (h : s.Numbered) : s.reactorRingCqe.Numbered := by
  rw [CompletionRing.reactorRingCqe]
  split
  next => exact h
  next hne =>
    obtain ⟨n, hn⟩ : ∃ n, s.count = n + 1 := by
      refine Nat.exists_eq_add_one_of_ne_zero fun hzero => hne ?_
      have htail := RingSize.tail_eq (rfl : _ = s.count)
      rw [hzero] at htail
      exact htail.symm ▸ (UInt32.add_zero _).symm
    have hcount : count { s with
        cqHead := s.cqHead + 1
        phase := .taken (s.size.slot s.cqHead) (s.cqe (s.size.slot s.cqHead)) } = n :=
      RingSize.count_take hn
    have hadd : ∀ i, s.cqHead + 1 + UInt32.ofNat i = s.cqHead + UInt32.ofNat (i + 1) := fun i => by
      rw [UInt32.ofNat_add]
      grind
    have hle := h.count_le
    refine ⟨?_, fun i hi => ?_, fun slot c reads hentry => ?_⟩
    · rw [hcount]
      rw [hn] at hle
      exact Nat.le_of_succ_le hle
    · rw [hcount] at hi ⊢
      dsimp only
      have hserial := h.serial (i + 1) (by omega)
      rw [hadd]
      omega
    · obtain ⟨rfl, rfl, rfl⟩ : s.size.slot s.cqHead = slot ∧ s.cqe (s.size.slot s.cqHead) = c ∧
          [] = reads := by simpa [entry] using hentry
      rw [hcount]
      have hserial := h.serial 0 (by omega)
      have hzero : s.cqHead + UInt32.ofNat 0 = s.cqHead := UInt32.add_zero _
      rw [hzero] at hserial
      refine ⟨?_, ?_, fun _ => ⟨rfl, nofun⟩⟩
      · dsimp only
        congr 1
        grind
      · dsimp only
        omega

theorem Numbered.step (h : s.Numbered) {label : CompletionLabel}
    (hstep : CompletionRing.step s label = some s') : s'.Numbered := by
  unfold CompletionRing.step at hstep
  cases label with
  | post userData res notif more =>
    obtain ⟨hroom, rfl⟩ := Option.ite_some_none_eq_some.mp hstep
    exact h.post hroom userData res notif more
  | cqe =>
    dsimp only at hstep
    split at hstep
    next =>
      obtain rfl := Option.some.inj hstep
      exact h.reactorRingCqe
    next => cases hstep
  | load =>
    dsimp only at hstep
    split at hstep
    next slot c hphase =>
      obtain rfl := Option.some.inj hstep
      have hentry : s.entry = some (slot, c, []) := by rw [entry, hphase]
      exact h.read hentry (List.forall_mem_singleton.mpr rfl) rfl
    next => cases hstep
  | check =>
    dsimp only at hstep
    split at hstep
    next slot c user hphase =>
      obtain rfl := Option.some.inj hstep
      have hentry : s.entry = some (slot, c, [user]) := by rw [entry, hphase]
      exact h.read hentry (List.forall_mem_singleton.mpr rfl) rfl
    next => cases hstep
  | call =>
    dsimp only at hstep
    split at hstep
    next slot c user notif hphase =>
      obtain rfl := Option.some.inj hstep
      have hentry : s.entry = some (slot, c, [user, notif]) := by rw [entry, hphase]
      refine h.read hentry (fun x hx => ?_) rfl
      split at hx
      · cases hx
      · exact List.mem_singleton.mp hx
    next => cases hstep
  | test =>
    dsimp only at hstep
    split at hstep
    next =>
      obtain rfl := Option.some.inj hstep
      exact ⟨h.count_le, h.serial, nofun⟩
    next => cases hstep

structure Exact (s : CompletionRing) : Prop where
  whole : ∀ x ∈ s.handled, x.Whole
  freed : s.freed = (s.handled.filter fun x => !x.taken.more).map fun x => x.taken.userData

theorem exact_construct (size : RingSize) (counter : UInt32) (cqe : UInt32 → Completion) :
    Exact (construct size counter cqe) where
  whole _ hx := absurd hx List.not_mem_nil
  freed := rfl

theorem Exact.step (h : s.Numbered) (hexact : s.Exact) {label : CompletionLabel}
    (hroomy : s.roomy label = true) (hstep : CompletionRing.step s label = some s') :
    s'.Exact := by
  unfold CompletionRing.step at hstep
  cases label with
  | post userData res notif more =>
    obtain ⟨-, rfl⟩ := Option.ite_some_none_eq_some.mp hstep
    exact ⟨hexact.whole, hexact.freed⟩
  | cqe =>
    dsimp only at hstep
    split at hstep
    next =>
      obtain rfl := Option.some.inj hstep
      rw [CompletionRing.reactorRingCqe]
      split
      · exact hexact
      · exact ⟨hexact.whole, hexact.freed⟩
    next => cases hstep
  | load | check | call =>
    dsimp only at hstep
    split at hstep
    next =>
      obtain rfl := Option.some.inj hstep
      exact ⟨hexact.whole, hexact.freed⟩
    next => cases hstep
  | test =>
    dsimp only at hstep
    split at hstep
    next slot c user notif res hphase =>
      obtain rfl := Option.some.inj hstep
      have hentry : s.entry = some (slot, c, [user, notif] ++ res.toList) := by
        rw [entry, hphase]
      have hroom : s.count < s.size.slots := of_decide_eq_true hroomy
      obtain ⟨hcqe, hreads⟩ := (h.taken _ _ _ hentry).2.2 hroom
      have huser : user = c := hreads user (by simp)
      have hnotif : notif = c := hreads notif (by simp)
      have hres : ∀ x ∈ res, x = c := fun x hx => hreads x (by simp [Option.mem_def.mp hx])
      refine ⟨fun x hx => ?_, ?_⟩
      · rcases List.mem_append.mp hx with hx | hx
        · exact hexact.whole x hx
        · obtain rfl := List.mem_singleton.mp hx
          exact ⟨huser, hnotif, hres, hcqe⟩
      · dsimp only
        rw [hcqe, huser, hexact.freed, List.filter_append, List.map_append]
        cases hmore : c.more with
        | true => simp [hmore]
        | false => simp [hmore]
    next => cases hstep

/-- In every run in which the ring is not full again when `IORING_CQE_F_MORE` is tested, all
fields of an entry come from the completion that was taken, and the slots that are freed are those
of the last completions. -/
theorem reactorLoopOnce_cqe {size : RingSize} {counter : UInt32} {cqe : UInt32 → Completion}
    (h : Reach step (fun s l => s.roomy l = true) (construct size counter cqe) s) :
    (∀ x ∈ s.handled, x.Whole) ∧
      s.freed = (s.handled.filter fun x => !x.taken.more).map fun x => x.taken.userData := by
  have hinv : s.Numbered ∧ s.Exact := by
    refine h.invariant (I := fun s => s.Numbered ∧ s.Exact)
      ⟨numbered_construct size counter cqe, exact_construct size counter cqe⟩
      fun s l s' hs hok hstep => ?_
    exact ⟨hs.1.step hstep, hs.2.step hs.1 hok hstep⟩
  exact ⟨hinv.2.whole, hinv.2.freed⟩

/-- A ring of two slots across the end of the counters: one completion more comes during the
first callback. -/
theorem reactorLoopOnce_cqe_wrapping : ∃ s,
    exec (guarded step fun s l => s.roomy l = true)
      (construct ⟨1, by decide⟩ 4294967295 fun _ => ⟨0, 0, 0, false, false⟩)
      [.post 5 1 false true, .cqe, .load, .check, .call, .post 6 2 false false, .test,
        .cqe, .load, .check, .call, .test] = some s ∧ (∀ x ∈ s.handled, x.Whole) ∧
      s.freed = (s.handled.filter fun x => !x.taken.more).map fun x => x.taken.userData := by
  obtain ⟨s, hs⟩ := Option.isSome_iff_exists.mp (show (exec
    (guarded step fun s l => s.roomy l = true)
    (construct ⟨1, by decide⟩ 4294967295 fun _ => ⟨0, 0, 0, false, false⟩)
    [.post 5 1 false true, .cqe, .load, .check, .call, .post 6 2 false false, .test,
      .cqe, .load, .check, .call, .test]).isSome = true by decide)
  exact ⟨s, hs, reactorLoopOnce_cqe (.of_guarded hs)⟩

/-! ## A full ring -/

theorem exists_posted (size : RingSize) (counter : UInt32) (cqe : UInt32 → Completion) (n : ℕ)
    (hn : n ≤ size.slots) : ∃ s, Reach step (fun _ _ => True) (construct size counter cqe) s ∧
      s.size = size ∧ s.count = n ∧ s.phase = .idle ∧ s.handled = [] ∧ s.freed = [] ∧
      ∀ i < n, (s.cqe (size.slot (s.cqHead + UInt32.ofNat i))).userData = 1 ∧
        (s.cqe (size.slot (s.cqHead + UInt32.ofNat i))).more = true := by
  induction n with
  | zero => exact ⟨_, .init, rfl, by rw [count, construct, UInt32.sub_self]; rfl, rfl, rfl, rfl,
      fun i hi => absurd hi (Nat.not_lt_zero i)⟩
  | succ n ih =>
    obtain ⟨s, hreach, hsize, hcount, hidle, hhandled, hfreed, hmore⟩ := ih (by omega)
    have hroom : s.count < s.size.slots := by
      rw [hcount, hsize]
      omega
    have htail := RingSize.tail_eq (hcount : (s.cqTail - s.cqHead).toNat = n)
    refine ⟨s.post 1 0 false true, .step hreach trivial (l := .post 1 0 false true) (if_pos hroom),
      hsize, ?_, hidle, hhandled, hfreed, fun i hi => ?_⟩
    · exact RingSize.count_add hcount (by have hlt := size.slots_lt; omega)
    · rw [CompletionRing.post, hsize]
      dsimp only
      by_cases hlast : i = n
      · rw [hlast, ← htail, Function.update_self]
        exact ⟨rfl, rfl⟩
      · rw [Function.update_of_ne]
        · exact hmore i (by omega)
        · rw [htail]
          exact fun heq => hlast (RingSize.slot_injective (by omega) (by omega) heq)

theorem reach_called {size : RingSize} {counter : UInt32} {cqe : UInt32 → Completion}
    (h : Reach step (fun _ _ => True) (construct size counter cqe) s) (hidle : s.phase = .idle)
    (hne : s.cqHead ≠ s.cqTail) (hslot : slot = s.size.slot s.cqHead) (hc : c = s.cqe slot) :
    Reach step (fun _ _ => True) (construct size counter cqe) { s with
      cqHead := s.cqHead + 1
      phase := .called slot c c c (if c.notif then none else some c) } := by
  subst hc
  have htaken : step s .cqe = some { s with
      cqHead := s.cqHead + 1
      phase := .taken slot (s.cqe slot) } := by
    rw [step, hidle]
    dsimp only
    rw [CompletionRing.reactorRingCqe, if_neg hne, hslot]
  have hload := (h.step (l := .cqe) trivial htaken).step (l := .load) trivial rfl
  have hcheck := hload.step (l := .check) trivial rfl
  exact hcheck.step (l := .call) trivial rfl

/-- In the ring of the reactor a slot with more completions to come is freed: the callback for its
completion runs while the kernel posts the last completion of another slot. -/
theorem reactorLoopOnce_mixes : ∃ s, Reach step (fun _ _ => True)
    (construct ⟨13, by decide⟩ 0 fun _ => ⟨0, 0, 0, false, false⟩) s ∧
      ∃ x ∈ s.handled, x.taken.userData = 1 ∧ x.taken.more = true ∧ x.more.userData = 2 ∧
        s.freed = [1] := by
  obtain ⟨s, hreach, hsize, hcount, hidle, hhandled, hfreed, hmore⟩ :=
    exists_posted ⟨13, by decide⟩ 0 (fun _ => ⟨0, 0, 0, false, false⟩) (2 ^ 13) (Nat.le_refl _)
  obtain ⟨c, hc⟩ : ∃ c, c = s.cqe (s.size.slot s.cqHead) := ⟨_, rfl⟩
  have hfirst : c.userData = 1 ∧ c.more = true := by
    have hzero : s.cqHead + UInt32.ofNat 0 = s.cqHead := UInt32.add_zero _
    have hfirst := hmore 0 (by decide)
    rwa [hzero, ← hsize, ← hc] at hfirst
  have hne : s.cqHead ≠ s.cqTail := by
    intro heq
    rw [count, heq, UInt32.sub_self] at hcount
    cases hcount
  obtain ⟨mid, hmid⟩ : ∃ mid : CompletionRing, mid = { s with
      cqHead := s.cqHead + 1
      phase := .called (s.size.slot s.cqHead) c c c (if c.notif then none else some c) } := ⟨_, rfl⟩
  have hcalled := reach_called hreach hidle hne rfl hc
  rw [← hmid] at hcalled
  have hroom : mid.count = 2 ^ 13 - 1 := by
    rw [hmid]
    exact RingSize.count_take hcount
  have hnumbered : mid.Numbered := hcalled.invariant (numbered_construct _ _ _)
    fun _ _ _ h _ hstep => h.step hstep
  -- the kernel fills the slot that is in hand
  have hslot : mid.size.slot mid.cqTail = s.size.slot s.cqHead := by
    have htail := RingSize.tail_eq (hroom : (mid.cqTail - mid.cqHead).toNat = 2 ^ 13 - 1)
    have hslots : mid.size.slots = 2 ^ 13 - 1 + 1 := by
      rw [hmid, hsize]
      rfl
    have hentry : mid.entry = some (s.size.slot s.cqHead, c,
        [c, c] ++ (if c.notif then none else some c).toList) := by
      rw [hmid]
      rfl
    rw [htail, hnumbered.slot_last hentry hslots]
  obtain ⟨after, hafter⟩ : ∃ after, after = mid.post 2 0 false false := ⟨_, rfl⟩
  have hpost : step mid (.post 2 0 false false) = some after := by
    rw [hafter]
    refine if_pos ?_
    rw [hroom, hmid, hsize]
    decide
  have hfilled : after.cqe (s.size.slot s.cqHead) = ⟨mid.posted, 2, 0, false, false⟩ := by
    rw [hafter, ← hslot]
    exact Function.update_self ..
  have hphase : after.phase = .called (s.size.slot s.cqHead) c c c
      (if c.notif then none else some c) := by
    rw [hafter, hmid]
    rfl
  have htest : step after .test = some { after with
      phase := .idle
      handled := [⟨c, c, c, if c.notif then none else some c, ⟨mid.posted, 2, 0, false, false⟩⟩]
      freed := [1] } := by
    have hhandled' : after.handled = [] := by rw [hafter, hmid, ← hhandled]; rfl
    have hfreed' : after.freed = [] := by rw [hafter, hmid, ← hfreed]; rfl
    rw [step, hphase]
    dsimp only
    rw [hfilled, hhandled', hfreed', hfirst.1]
    rfl
  have hreach' := (hcalled.step (l := .post 2 0 false false) trivial hpost).step trivial htest
  exact ⟨_, hreach', _, List.mem_singleton_self _, hfirst.1, hfirst.2, rfl, rfl⟩

end CompletionRing

end LibReactor
