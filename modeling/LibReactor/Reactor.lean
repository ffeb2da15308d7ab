import LibReactor.Memory
import Mathlib.Logic.Function.Basic
import Mathlib.Data.Int.Notation
import Mathlib.Data.List.Nodup

/-!
# The reactor: user slots, next callbacks and ring operations

A user slot of the pool holds a callback with its state, here one value of `κ`.
`reactor_next` queues a slot, an io_uring operation leaves one with the kernel,
and `reactor_cancel` rewrites the slot. The slots that still have a call to
come are `pending`; the invariant keeps them distinct and apart from the pool's
free vector, so that rewriting or freeing one never touches another.
-/

namespace LibReactor

/-- `reactor_t`: a user slot, tagged when it does not belong to an io_uring operation. -/
structure Id where
  slot : ℕ
  notIoUring : Bool
  deriving DecidableEq, Repr

inductive Op
  | recv (fd : ℤ) (size : ℕ)
  | read (fd : ℤ) (size offset : ℕ)
  | send (fd : ℤ) (data : Bytes)
  | write (fd : ℤ) (data : Bytes) (offset : ℕ)
  | accept (fd : ℤ)
  | connect (fd : ℤ)
  | close (fd : ℤ)
  | asyncCancel (slot : ℕ)
  | timeout (seconds nanoseconds count flags : ℕ)
  deriving DecidableEq, Repr

structure Reactor (κ : Type*) where
  /-- what each slot of the pool in use holds -/
  users : ℕ → Option κ
  /-- the pool's free vector, its back first -/
  free : List ℕ
  /-- the slots the pool's chunks hold -/
  slots : ℕ
  /-- `pool->allocated` -/
  allocated : ℕ
  /-- `reactor.next_current` -/
  next : List ℕ
  /-- what `reactor_loop_once` has still to call of the vector it took -/
  current : List ℕ
  /-- the entries whose completion is still to come -/
  ring : List (ℕ × Op)

namespace Reactor

variable {κ : Type*}

def poolChunkSize : ℕ := 128

def construct : Reactor κ where
  users _ := none
  free := []
  slots := 0
  allocated := 0
  next := []
  current := []
  ring := []

/-- The free vector once `pool_malloc` has made sure that it is not empty. -/
def poolRefill (r : Reactor κ) : Reactor κ :=
  if r.free = [] then
    { r with
      free := ((List.range poolChunkSize).map (fun i => r.slots + i)).reverse
      slots := r.slots + poolChunkSize }
  else r

def poolMalloc (r : Reactor κ) : ℕ × Reactor κ :=
  let r := r.poolRefill
  (r.free.headD 0, { r with free := r.free.tail, allocated := r.allocated + 1 })

def poolSize (r : Reactor κ) : ℕ := r.allocated

def allocUser (r : Reactor κ) (user : κ) : ℕ × Reactor κ :=
  let (slot, r) := r.poolMalloc
  (slot, { r with users := Function.update r.users slot (some user) })

/-- `reactor_free_user` -/
def freeUser (r : Reactor κ) (slot : ℕ) : Reactor κ :=
  { r with
    users := Function.update r.users slot none
    free := slot :: r.free
    allocated := r.allocated - 1 }

def reactorNext (r : Reactor κ) (user : κ) : Id × Reactor κ :=
  let (slot, r) := r.allocUser user
  (⟨slot, true⟩, { r with next := r.next ++ [slot] })

/-- The functions that fill in a submission queue entry: `reactor_recv`, `reactor_send`, ... -/
def submit (r : Reactor κ) (op : Op) (user : κ) : Id × Reactor κ :=
  let (slot, r) := r.allocUser user
  (⟨slot, false⟩, { r with ring := r.ring ++ [(slot, op)] })

/-- `reactor_cancel`. A slot that is free is written before it is handed out again. -/
def reactorCancel (noop : κ) (r : Reactor κ) (id : Id) (user : κ) : Reactor κ :=
  let r := { r with users := Function.update r.users id.slot ((r.users id.slot).map fun _ => user) }
  if id.notIoUring then r else (r.submit (.asyncCancel id.slot) noop).2

/-- The start of `reactor_loop_once`: the vectors are swapped. -/
def swapNext (r : Reactor κ) : Reactor κ := { r with current := r.next, next := [] }

/-- `reactor_loop_once` takes the next slot of the vector it runs. -/
def takeCurrent (r : Reactor κ) : Reactor κ := { r with current := r.current.tail }

/-- The kernel posts the slot's completion and `reactor_ring_cqe` takes it. -/
def takeRing (r : Reactor κ) (slot : ℕ) : Reactor κ :=
  { r with ring := r.ring.eraseP (fun entry => entry.1 == slot) }

def take (r : Reactor κ) (slot : ℕ) : Reactor κ :=
  { r with
    next := r.next.erase slot
    current := r.current.erase slot
    ring := r.ring.eraseP (fun entry => entry.1 == slot) }

def pending (r : Reactor κ) : List ℕ := r.next ++ r.current ++ r.ring.map Prod.fst

def Holds (r : Reactor κ) (slot : ℕ) (user : κ) : Prop :=
  slot ∈ r.pending ∧ r.users slot = some user

/-- A slot has one user. -/
theorem Holds.unique {r : Reactor κ} {slot : ℕ} {user user' : κ} (h : r.Holds slot user)
    (h' : r.Holds slot user') : user = user' :=
  Option.some.inj (h.2.symm.trans h'.2)

/-- The slots in use are the pending ones and the `held` ones, whose callback is running. -/
structure WellFormed (r : Reactor κ) (held : List ℕ) : Prop where
  nodup : (held ++ r.pending ++ r.free).Nodup
  inUse : ∀ s ∈ held ++ r.pending, (r.users s).isSome
  below : ∀ s ∈ held ++ r.pending ++ r.free, s < r.slots

@[simp] theorem pending_construct : (construct : Reactor κ).pending = [] := rfl

theorem wellFormed_construct : (construct : Reactor κ).WellFormed [] := by
  constructor <;> simp [construct, pending]

@[simp] theorem pending_poolRefill (r : Reactor κ) : r.poolRefill.pending = r.pending := by
  unfold poolRefill
  split_ifs <;> rfl

@[simp] theorem users_poolRefill (r : Reactor κ) : r.poolRefill.users = r.users := by
  unfold poolRefill
  split_ifs <;> rfl

theorem poolRefill_free_ne_nil (r : Reactor κ) : r.poolRefill.free ≠ [] := by
  unfold poolRefill
  split_ifs with h
  · simp only [ne_eq, List.reverse_eq_nil_iff, List.map_eq_nil_iff, List.range_eq_nil]
    decide
  · exact h

variable {r : Reactor κ} {held : List ℕ}

theorem WellFormed.poolRefill (h : r.WellFormed held) : r.poolRefill.WellFormed held := by
  unfold Reactor.poolRefill
  split_ifs with hfree
  · have hnodup := h.nodup
    have hbelow := h.below
    rw [hfree, List.append_nil] at hnodup hbelow
    refine ⟨?_, h.inUse, ?_⟩
    · rw [List.nodup_append]
      refine ⟨hnodup, ?_, ?_⟩
      · rw [List.nodup_reverse]
        exact List.nodup_range.map (fun a b hab => by simpa using hab)
      · rintro a ha b hb rfl
        have hlt := hbelow a ha
        simp only [List.mem_reverse, List.mem_map, List.mem_range] at hb
        obtain ⟨i, -, hi⟩ := hb
        omega
    · intro s hs
      show s < r.slots + poolChunkSize
      rcases List.mem_append.mp hs with hs | hs
      · have hlt := hbelow s hs
        omega
      · simp only [List.mem_reverse, List.mem_map, List.mem_range] at hs
        obtain ⟨i, hi, rfl⟩ := hs
        omega
  · exact h

/-- `reactor_alloc_user` takes the back of the refilled free vector. -/
theorem allocUser_eq (r : Reactor κ) (user : κ) :
    ∃ slot rest, r.poolRefill.free = slot :: rest ∧
      r.allocUser user = (slot, { r.poolRefill with
        free := rest, users := Function.update r.users slot (some user),
        allocated := r.allocated + 1 }) := by
  obtain ⟨slot, rest, hfree⟩ := List.exists_cons_of_ne_nil r.poolRefill_free_ne_nil
  have hallocated : r.poolRefill.allocated = r.allocated := by
    unfold poolRefill
    split_ifs <;> rfl
  exact ⟨slot, rest, hfree, by simp [allocUser, poolMalloc, hfree, hallocated]⟩

@[simp] theorem pending_allocUser (user : κ) : (r.allocUser user).2.pending = r.pending := by
  obtain ⟨slot, rest, -, heq⟩ := r.allocUser_eq user
  rw [heq]
  exact pending_poolRefill r

theorem users_allocUser (user : κ) :
    (r.allocUser user).2.users = Function.update r.users (r.allocUser user).1 (some user) := by
  obtain ⟨slot, rest, -, heq⟩ := r.allocUser_eq user
  rw [heq]

/-- What `reactor_alloc_user` hands out is in nobody's hands. -/
theorem WellFormed.allocUser (h : r.WellFormed held) (user : κ) :
    (r.allocUser user).1 ∉ held ++ r.pending ∧
      (r.allocUser user).2.WellFormed ((r.allocUser user).1 :: held) := by
  have hr := h.poolRefill
  have hpending := pending_allocUser (r := r) user
  have husers := users_allocUser (r := r) user
  obtain ⟨slot, rest, hfree, heq⟩ := r.allocUser_eq user
  have hperm : (held ++ r.pending ++ slot :: rest).Perm (slot :: (held ++ r.pending ++ rest)) :=
    List.perm_middle
  have hnodup : (slot :: (held ++ r.pending ++ rest)).Nodup := by
    rw [← hperm.nodup_iff, ← hfree, ← pending_poolRefill r]
    exact hr.nodup
  have hnotin : slot ∉ held ++ r.pending := fun hmem =>
    (List.nodup_cons.mp hnodup).1 (List.mem_append_left _ hmem)
  rw [heq] at hpending husers ⊢
  refine ⟨hnotin, ?_, ?_, ?_⟩
  · rwa [hpending]
  · intro s hs
    rw [husers]
    by_cases hsl : s = slot
    · simp [hsl]
    · rw [hpending, List.cons_append, List.mem_cons] at hs
      rw [Function.update_of_ne hsl]
      exact h.inUse s (hs.resolve_left hsl)
  · intro s hs
    rw [hpending] at hs
    apply hr.below
    rw [pending_poolRefill, hfree]
    exact hperm.mem_iff.mpr hs

theorem WellFormed.release_held {r' : Reactor κ} {slot : ℕ} (h : r.WellFormed (slot :: held))
    (hpending : r'.pending.Perm (slot :: r.pending)) (husers : r'.users = r.users)
    (hfree : r'.free = r.free) (hslots : r'.slots = r.slots) : r'.WellFormed held := by
  have hperm : (held ++ r'.pending).Perm (slot :: held ++ r.pending) :=
    (hpending.append_left held).trans List.perm_middle
  refine ⟨?_, ?_, ?_⟩
  · rw [hfree, (hperm.append_right r.free).nodup_iff]
    exact h.nodup
  · intro s hs
    rw [husers]
    exact h.inUse s (hperm.mem_iff.mp hs)
  · intro s hs
    rw [hslots]
    rw [hfree] at hs
    exact h.below s ((hperm.append_right r.free).mem_iff.mp hs)

section Queues

variable (h : r.WellFormed held) (user : κ)

theorem pending_reactorNext :
    (r.reactorNext user).2.pending.Perm ((r.allocUser user).1 :: (r.allocUser user).2.pending) := by
  have : (r.reactorNext user).2.pending = (r.allocUser user).2.next ++
      (r.allocUser user).1 :: ((r.allocUser user).2.current ++
        (r.allocUser user).2.ring.map Prod.fst) := by
    simp [reactorNext, pending]
  rw [this, pending, List.append_assoc]
  exact List.perm_middle

theorem ring_submit (op : Op) :
    (r.submit op user).2.ring = r.ring ++ [((r.submit op user).1.slot, op)] := by
  obtain ⟨slot, rest, -, heq⟩ := r.allocUser_eq user
  have hring : r.poolRefill.ring = r.ring := by
    unfold Reactor.poolRefill
    split_ifs <;> rfl
  simp only [submit, heq, hring]

theorem ring_reactorNext : (r.reactorNext user).2.ring = r.ring := by
  obtain ⟨slot, rest, -, heq⟩ := r.allocUser_eq user
  have hring : r.poolRefill.ring = r.ring := by
    unfold Reactor.poolRefill
    split_ifs <;> rfl
  simp only [reactorNext, heq, hring]

theorem pending_submit (op : Op) :
    (r.submit op user).2.pending.Perm ((r.allocUser user).1 :: (r.allocUser user).2.pending) := by
  have : (r.submit op user).2.pending =
      (r.allocUser user).2.pending ++ [(r.allocUser user).1] := by
    simp [submit, pending]
  rw [this]
  exact List.perm_append_singleton _ _

include h

theorem WellFormed.reactorNext : (r.reactorNext user).2.WellFormed held :=
  (h.allocUser user).2.release_held (pending_reactorNext user) rfl rfl rfl

theorem WellFormed.submit (op : Op) : (r.submit op user).2.WellFormed held :=
  (h.allocUser user).2.release_held (pending_submit user op) rfl rfl rfl

/-- The calls to come after queueing a fresh slot are the old ones and the new one. -/
theorem WellFormed.holds_of_fresh {r' : Reactor κ}
    (hpending : r'.pending.Perm ((r.allocUser user).1 :: (r.allocUser user).2.pending))
    (husers : r'.users = (r.allocUser user).2.users) (s : ℕ) (u : κ) :
    r'.Holds s u ↔ (s = (r.allocUser user).1 ∧ u = user) ∨ r.Holds s u := by
  have hfresh := (h.allocUser user).1
  rw [pending_allocUser] at hpending
  unfold Holds
  rw [hpending.mem_iff, husers, users_allocUser, List.mem_cons]
  by_cases hs : s = (r.allocUser user).1
  · have hnot : (r.allocUser user).1 ∉ r.pending := fun hm =>
      hfresh (List.mem_append_right _ hm)
    subst hs
    simp [hnot, eq_comm]
  · simp [hs]

theorem WellFormed.holds_reactorNext (s : ℕ) (u : κ) :
    (r.reactorNext user).2.Holds s u ↔
      (s = (r.reactorNext user).1.slot ∧ u = user) ∨ r.Holds s u :=
  h.holds_of_fresh user (pending_reactorNext user) rfl s u

theorem WellFormed.holds_submit (op : Op) (s : ℕ) (u : κ) :
    (r.submit op user).2.Holds s u ↔
      (s = (r.submit op user).1.slot ∧ u = user) ∨ r.Holds s u :=
  h.holds_of_fresh user (pending_submit user op) rfl s u

end Queues

/-! ## Taking, freeing and cancelling -/

theorem WellFormed.hold {r' : Reactor κ} {slot : ℕ} (h : r.WellFormed held)
    (hpending : r.pending.Perm (slot :: r'.pending)) (husers : r'.users = r.users)
    (hfree : r'.free = r.free) (hslots : r'.slots = r.slots) :
    r'.WellFormed (slot :: held) := by
  have hperm : (slot :: held ++ r'.pending).Perm (held ++ r.pending) :=
    List.perm_middle.symm.trans (hpending.symm.append_left held)
  refine ⟨?_, ?_, ?_⟩
  · rw [hfree, (hperm.append_right r.free).nodup_iff]
    exact h.nodup
  · intro s hs
    rw [husers]
    exact h.inUse s (hperm.mem_iff.mp hs)
  · intro s hs
    rw [hslots]
    rw [hfree] at hs
    exact h.below s ((hperm.append_right r.free).mem_iff.mp hs)

theorem WellFormed.not_mem_pending {slot : ℕ} (h : r.WellFormed (slot :: held)) :
    slot ∉ r.pending := by
  intro hmem
  have hnodup := h.nodup
  rw [List.cons_append, List.cons_append, List.nodup_cons] at hnodup
  exact hnodup.1 (List.mem_append_left _ (List.mem_append_right _ hmem))

theorem WellFormed.holds_of_take {r' : Reactor κ} {slot : ℕ} (h : r.WellFormed held)
    (hpending : r.pending.Perm (slot :: r'.pending)) (husers : r'.users = r.users)
    (hfree : r'.free = r.free) (hslots : r'.slots = r.slots) (s : ℕ) (u : κ) :
    r'.Holds s u ↔ s ≠ slot ∧ r.Holds s u := by
  have hnot := (h.hold hpending husers hfree hslots).not_mem_pending
  unfold Holds
  rw [husers, hpending.mem_iff, List.mem_cons]
  by_cases hs : s = slot
  · subst hs
    simp [hnot]
  · simp [hs]

theorem swapNext_of_empty (hcur : r.current = []) (hnext : r.next = []) : r.swapNext = r := by
  cases r
  subst hcur hnext
  rfl

theorem pending_swapNext (hcur : r.current = []) : r.swapNext.pending = r.pending := by
  simp [swapNext, pending, hcur]

theorem WellFormed.swapNext (h : r.WellFormed held) (hcur : r.current = []) :
    r.swapNext.WellFormed held := by
  have hp := pending_swapNext hcur
  refine ⟨?_, ?_, ?_⟩
  · rw [hp]
    exact h.nodup
  · rw [hp]
    exact h.inUse
  · rw [hp]
    exact h.below

theorem pending_takeCurrent {slot : ℕ} {rest : List ℕ} (hcur : r.current = slot :: rest) :
    r.pending.Perm (slot :: r.takeCurrent.pending) := by
  have : r.pending = r.next ++ slot :: (rest ++ r.ring.map Prod.fst) := by simp [pending, hcur]
  rw [this, takeCurrent, pending, hcur, List.append_assoc]
  exact List.perm_middle

theorem pending_takeRing {slot : ℕ} {op : Op} (hring : (slot, op) ∈ r.ring) :
    r.pending.Perm (slot :: (r.takeRing slot).pending) := by
  obtain ⟨a, l₁, l₂, -, ha, heq, herase⟩ :=
    List.exists_of_eraseP hring (p := fun entry => entry.1 == slot) (by simp)
  have ha' : a.1 = slot := by simpa using ha
  have hp : r.pending = (r.next ++ r.current ++ l₁.map Prod.fst) ++ slot :: l₂.map Prod.fst := by
    simp [pending, heq, ha']
  have hp' : (r.takeRing slot).pending =
      (r.next ++ r.current ++ l₁.map Prod.fst) ++ l₂.map Prod.fst := by
    simp [pending, takeRing, herase]
  rw [hp, hp']
  exact List.perm_middle

theorem map_eraseP_ring (ring : List (ℕ × Op)) (slot : ℕ) :
    (ring.eraseP (fun entry => entry.1 == slot)).map Prod.fst = (ring.map Prod.fst).erase slot := by
  induction ring with
  | nil => rfl
  | cons a ring ih =>
    rw [List.map_cons, List.erase_cons, List.eraseP_cons]
    cases a.1 == slot with
    | true => rfl
    | false => simp [ih]

theorem WellFormed.pending_take (h : r.WellFormed held) {slot : ℕ} (hslot : slot ∈ r.pending) :
    r.pending.Perm (slot :: (r.take slot).pending) := by
  have hnodup : r.pending.Nodup := (List.nodup_append.mp (List.nodup_append.mp h.nodup).1).2.1
  have herase : (r.take slot).pending = r.pending.erase slot := by
    have hparts := hnodup
    unfold pending at hparts ⊢
    rw [List.nodup_append, List.nodup_append] at hparts
    obtain ⟨⟨hnext, hcurrent, -⟩, hring, -⟩ := hparts
    have hall : (r.next ++ r.current ++ r.ring.map Prod.fst).Nodup := hnodup
    rw [hall.erase_eq_filter, List.filter_append, List.filter_append, ← hnext.erase_eq_filter,
      ← hcurrent.erase_eq_filter, ← hring.erase_eq_filter, ← map_eraseP_ring]
    rfl
  rw [herase]
  exact List.perm_cons_erase hslot

theorem WellFormed.take (h : r.WellFormed held) {slot : ℕ} (hslot : slot ∈ r.pending) :
    (r.take slot).WellFormed (slot :: held) :=
  h.hold (h.pending_take hslot) rfl rfl rfl

theorem WellFormed.holds_take (h : r.WellFormed held) {slot : ℕ} (hslot : slot ∈ r.pending)
    (s : ℕ) (u : κ) : (r.take slot).Holds s u ↔ s ≠ slot ∧ r.Holds s u :=
  h.holds_of_take (h.pending_take hslot) rfl rfl rfl s u

theorem WellFormed.nodup_ring (h : r.WellFormed held) : (r.ring.map Prod.fst).Nodup := by
  have hnodup := h.nodup
  rw [List.nodup_append, List.nodup_append] at hnodup
  exact (List.nodup_append.mp hnodup.1.2.1).2.1

theorem mem_eraseP_of_nodup {ring : List (ℕ × Op)} (h : (ring.map Prod.fst).Nodup) (slot : ℕ)
    (x : ℕ × Op) : x ∈ ring.eraseP (fun entry => entry.1 == slot) ↔ x ∈ ring ∧ x.1 ≠ slot := by
  induction ring with
  | nil => simp
  | cons a ring ih =>
    rw [List.map_cons, List.nodup_cons] at h
    have hnotin : ∀ y ∈ ring, y.1 ≠ a.1 := by
      intro y hy heq
      exact h.1 (heq ▸ List.mem_map_of_mem hy)
    by_cases ha : a.1 = slot
    · rw [List.eraseP_cons_of_pos (by simpa using ha), List.mem_cons]
      constructor
      · exact fun hx => ⟨.inr hx, ha ▸ hnotin x hx⟩
      · rintro ⟨rfl | hx, hne⟩
        · exact absurd ha hne
        · exact hx
    · rw [List.eraseP_cons_of_neg (by simpa using ha), List.mem_cons, List.mem_cons, ih h.2]
      constructor
      · rintro (rfl | ⟨hx, hne⟩)
        · exact ⟨.inl rfl, ha⟩
        · exact ⟨.inr hx, hne⟩
      · rintro ⟨rfl | hx, hne⟩
        · exact .inl rfl
        · exact .inr ⟨hx, hne⟩

theorem WellFormed.mem_takeRing (h : r.WellFormed held) {slot : ℕ} {x : ℕ × Op} :
    x ∈ (r.takeRing slot).ring ↔ x ∈ r.ring ∧ x.1 ≠ slot :=
  mem_eraseP_of_nodup h.nodup_ring slot x

theorem WellFormed.entry_unique (h : r.WellFormed held) {slot : ℕ} {op op' : Op}
    (hop : (slot, op) ∈ r.ring) (hop' : (slot, op') ∈ r.ring) : op = op' :=
  congrArg Prod.snd (List.inj_on_of_nodup_map h.nodup_ring hop hop' rfl)

theorem WellFormed.freeUser {slot : ℕ} (h : r.WellFormed (slot :: held)) :
    (r.freeUser slot).WellFormed held := by
  have hperm : (held ++ r.pending ++ slot :: r.free).Perm (slot :: held ++ r.pending ++ r.free) :=
    List.perm_middle
  have hnodup := hperm.nodup_iff.mpr h.nodup
  refine ⟨hnodup, ?_, fun s hs => h.below s (hperm.mem_iff.mp hs)⟩
  intro s hs
  have hne : s ≠ slot := by
    rintro rfl
    exact (List.nodup_cons.mp (hperm.nodup_iff.mp hnodup)).1 (List.mem_append_left _ hs)
  show ((Function.update r.users slot none) s).isSome
  rw [Function.update_of_ne hne]
  exact h.inUse s (List.mem_cons_of_mem _ hs)

theorem WellFormed.holds_freeUser {slot : ℕ} (h : r.WellFormed (slot :: held)) (s : ℕ) (u : κ) :
    (r.freeUser slot).Holds s u ↔ r.Holds s u := by
  have hnot := h.not_mem_pending
  show s ∈ r.pending ∧ Function.update r.users slot none s = some u ↔ _
  by_cases hs : s = slot
  · subst hs
    simp [hnot, Holds]
  · simp [hs, Holds]

section Cancel

variable (noop user : κ) (id : Id)

/-- `*user = reactor_user_define(callback, state)` in `reactor_cancel` -/
def redirect (r : Reactor κ) (slot : ℕ) (user : κ) : Reactor κ :=
  { r with users := Function.update r.users slot ((r.users slot).map fun _ => user) }

theorem reactorCancel_eq (r : Reactor κ) :
    r.reactorCancel noop id user =
      if id.notIoUring then r.redirect id.slot user
      else ((r.redirect id.slot user).submit (.asyncCancel id.slot) noop).2 := rfl

theorem mem_ring_reactorCancel {x : ℕ × Op} (hx : x ∈ r.ring) :
    x ∈ (r.reactorCancel noop id user).ring := by
  rw [reactorCancel_eq]
  split_ifs
  · exact hx
  · rw [ring_submit]
    exact List.mem_append_left _ hx

theorem WellFormed.redirect (h : r.WellFormed held) (slot : ℕ) :
    (r.redirect slot user).WellFormed held := by
  refine ⟨h.nodup, ?_, h.below⟩
  intro s hs
  have husers := h.inUse s hs
  by_cases hsl : s = slot
  · subst hsl
    simpa [Reactor.redirect] using husers
  · simpa [Reactor.redirect, Function.update_of_ne hsl] using husers

theorem WellFormed.holds_redirect (h : r.WellFormed held) (slot s : ℕ) (u : κ) :
    (r.redirect slot user).Holds s u ↔
      (s = slot ∧ s ∈ r.pending ∧ u = user) ∨ (s ≠ slot ∧ r.Holds s u) := by
  show s ∈ r.pending ∧
    Function.update r.users slot ((r.users slot).map fun _ => user) s = some u ↔ _
  by_cases hs : s = slot
  · subst hs
    have husers : s ∈ r.pending → (r.users s).isSome := fun hm =>
      h.inUse s (List.mem_append_right _ hm)
    constructor
    · rintro ⟨hm, hu⟩
      obtain ⟨v, hv⟩ := Option.isSome_iff_exists.mp (husers hm)
      exact .inl ⟨rfl, hm, by simpa [hv, eq_comm] using hu⟩
    · rintro (⟨-, hm, rfl⟩ | ⟨hne, -⟩)
      · obtain ⟨v, hv⟩ := Option.isSome_iff_exists.mp (husers hm)
        exact ⟨hm, by simp [hv]⟩
      · exact absurd rfl hne
  · simp [hs, Holds]

theorem WellFormed.reactorCancel (h : r.WellFormed held) :
    (r.reactorCancel noop id user).WellFormed held := by
  rw [reactorCancel_eq]
  split_ifs
  · exact h.redirect user id.slot
  · exact (h.redirect user id.slot).submit noop _

/-- After `reactor_cancel` the slot calls `user`; otherwise at most a call of `noop` is new. -/
theorem WellFormed.holds_reactorCancel (h : r.WellFormed held) {s : ℕ} {u : κ}
    (hs : (r.reactorCancel noop id user).Holds s u) :
    u = user ∨ u = noop ∨ (s ≠ id.slot ∧ r.Holds s u) := by
  have hr := h.redirect user id.slot
  have hold : (r.redirect id.slot user).Holds s u → u = user ∨ (s ≠ id.slot ∧ r.Holds s u) := by
    intro h'
    rcases (h.holds_redirect user id.slot s u).mp h' with ⟨-, -, rfl⟩ | hkept
    · exact .inl rfl
    · exact .inr hkept
  rw [reactorCancel_eq] at hs
  split_ifs at hs
  · rcases hold hs with hu | hkept
    · exact .inl hu
    · exact .inr (.inr hkept)
  · rcases (hr.holds_submit noop _ s u).mp hs with ⟨-, rfl⟩ | h'
    · exact .inr (.inl rfl)
    · rcases hold h' with hu | hkept
      · exact .inl hu
      · exact .inr (.inr hkept)

/-- `reactor_cancel` leaves every other slot's call as it was. -/
theorem WellFormed.reactorCancel_holds (h : r.WellFormed held) {s : ℕ} {u : κ}
    (hne : s ≠ id.slot) (hs : r.Holds s u) : (r.reactorCancel noop id user).Holds s u := by
  have hkept := (h.holds_redirect user id.slot s u).mpr (.inr ⟨hne, hs⟩)
  rw [reactorCancel_eq]
  split_ifs
  · exact hkept
  · exact ((h.redirect user id.slot).holds_submit noop _ s u).mpr (.inr hkept)

/-- A callback other than the two that `reactor_cancel` writes is only lost to the slot. -/
theorem WellFormed.holds_reactorCancel_iff (h : r.WellFormed held) {s : ℕ} {u : κ}
    (hnoop : u ≠ noop) (huser : u ≠ user) :
    (r.reactorCancel noop id user).Holds s u ↔ s ≠ id.slot ∧ r.Holds s u := by
  constructor
  · intro hs
    rcases h.holds_reactorCancel noop user id hs with hu | hu | hkept
    · exact absurd hu huser
    · exact absurd hu hnoop
    · exact hkept
  · rintro ⟨hne, hs⟩
    exact h.reactorCancel_holds noop user id hne hs

end Cancel

/-! ## The id of a callback -/

section Tracks

/-- An object's id field: the one slot that will call `user`, or 0 if there is none. -/
structure Tracks (r : Reactor κ) (user : κ) (field : Option Id) (tag : Bool) : Prop where
  tagged : ∀ id, field = some id → id.notIoUring = tag
  holds : ∀ s, r.Holds s user ↔ field = some ⟨s, tag⟩

variable {user other noop : κ} {field : Option Id} {tag : Bool}

theorem tracks_construct : (construct : Reactor κ).Tracks user none tag := by
  refine ⟨nofun, fun s => ?_⟩
  simp [Holds]

theorem Tracks.not_holds (h : r.Tracks user none tag) (s : ℕ) : ¬r.Holds s user := by
  rw [h.holds s]
  exact nofun

theorem Tracks.holds_slot {id : Id} (h : r.Tracks user (some id) tag) : r.Holds id.slot user := by
  rw [h.holds, ← h.tagged id rfl]

theorem Tracks.none_iff (h : r.Tracks user field tag) : (∀ s, ¬r.Holds s user) ↔ field = none := by
  constructor
  · intro hnone
    cases hfield : field with
    | none => rfl
    | some id =>
      rw [hfield] at h
      exact absurd h.holds_slot (hnone id.slot)
  · rintro rfl s
    exact h.not_holds s

theorem tracks_none (hnone : ∀ s, ¬r.Holds s user) : r.Tracks user none tag :=
  ⟨nofun, fun s => ⟨fun hs => absurd hs (hnone s), nofun⟩⟩

theorem Tracks.congr {r' : Reactor κ} (h : r.Tracks user field tag)
    (hholds : ∀ s, r'.Holds s user ↔ r.Holds s user) : r'.Tracks user field tag :=
  ⟨h.tagged, fun s => (hholds s).trans (h.holds s)⟩

theorem Tracks.reactorNext (hwf : r.WellFormed held) (h : r.Tracks user none true) :
    (r.reactorNext user).2.Tracks user (some (r.reactorNext user).1) true := by
  refine ⟨fun id hid => ?_, fun s => ?_⟩
  · rw [← Option.some.inj hid]
    rfl
  · rw [hwf.holds_reactorNext]
    constructor
    · rintro (⟨rfl, -⟩ | hs)
      · rfl
      · exact absurd hs (h.not_holds s)
    · intro hid
      exact .inl ⟨(congrArg Id.slot (Option.some.inj hid)).symm, rfl⟩

theorem Tracks.reactorNext_other (hwf : r.WellFormed held) (h : r.Tracks user field tag)
    (other : κ) (hne : user ≠ other) : (r.reactorNext other).2.Tracks user field tag := by
  refine h.congr fun s => ?_
  rw [hwf.holds_reactorNext]
  exact or_iff_right fun hs => hne hs.2

theorem Tracks.submit (hwf : r.WellFormed held) (h : r.Tracks user none false) (op : Op) :
    (r.submit op user).2.Tracks user (some (r.submit op user).1) false := by
  refine ⟨fun id hid => ?_, fun s => ?_⟩
  · rw [← Option.some.inj hid]
    rfl
  · rw [hwf.holds_submit]
    constructor
    · rintro (⟨rfl, -⟩ | hs)
      · rfl
      · exact absurd hs (h.not_holds s)
    · intro hid
      exact .inl ⟨(congrArg Id.slot (Option.some.inj hid)).symm, rfl⟩

theorem Tracks.submit_other (hwf : r.WellFormed held) (h : r.Tracks user field tag) (op : Op)
    (other : κ) (hne : user ≠ other) : (r.submit op other).2.Tracks user field tag := by
  refine h.congr fun s => ?_
  rw [hwf.holds_submit]
  exact or_iff_right fun hs => hne hs.2

theorem Tracks.cancel (hwf : r.WellFormed held) {id : Id} (h : r.Tracks user (some id) tag)
    (hnoop : user ≠ noop) (hne : user ≠ other) :
    (r.reactorCancel noop id other).Tracks user none tag := by
  refine tracks_none fun s hs => ?_
  rw [hwf.holds_reactorCancel_iff noop other id hnoop hne, h.holds s] at hs
  exact hs.1 (congrArg Id.slot (Option.some.inj hs.2)).symm

theorem Tracks.cancel_other (hwf : r.WellFormed held) {id : Id} (h : r.Tracks user field tag)
    (hnoop : user ≠ noop) (hne : user ≠ other) (hslot : ¬r.Holds id.slot user) :
    (r.reactorCancel noop id other).Tracks user field tag := by
  refine h.congr fun s => ?_
  rw [hwf.holds_reactorCancel_iff noop other id hnoop hne]
  refine and_iff_right_of_imp fun hs heq => ?_
  rw [heq] at hs
  exact hslot hs

theorem Tracks.take (hwf : r.WellFormed held) {slot : ℕ} (h : r.Tracks user field tag)
    (hslot : r.Holds slot user) : (r.take slot).Tracks user none tag := by
  refine tracks_none fun s hs => ?_
  rw [hwf.holds_take hslot.1, h.holds s, (h.holds slot).mp hslot] at hs
  exact hs.1 (congrArg Id.slot (Option.some.inj hs.2)).symm

theorem Tracks.take_other (hwf : r.WellFormed held) {slot : ℕ} (h : r.Tracks user field tag)
    (hmem : slot ∈ r.pending) (hslot : ¬r.Holds slot user) :
    (r.take slot).Tracks user field tag := by
  refine h.congr fun s => ?_
  rw [hwf.holds_take hmem]
  refine and_iff_right_of_imp fun hs heq => ?_
  rw [heq] at hs
  exact hslot hs

theorem Tracks.freeUser {slot : ℕ} (hwf : r.WellFormed (slot :: held))
    (h : r.Tracks user field tag) : (r.freeUser slot).Tracks user field tag :=
  h.congr fun s => hwf.holds_freeUser s user

end Tracks

end Reactor

end LibReactor
