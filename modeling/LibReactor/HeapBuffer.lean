import LibReactor.Buffer
import LibReactor.Allocator
import LibReactor.Reactor

/-!
# Buffers in memory

`buffer_t` as the block that it owns with its sizes, and the buffers that are given to the kernel.
A cancelled operation keeps its buffer: `reactor_cancel` leaves the block with the slot, whose
callback frees it.
-/

namespace LibReactor

structure HeapBuffer where
  base : Option ℕ
  buffer : Buffer

namespace HeapBuffer

variable (moves : ℕ → ℕ → Bool)

def construct : HeapBuffer := ⟨none, .construct⟩

/-- `buffer_reserve`; `moves` tells which calls of `realloc`, of a block and a size, move it -/
def reserve (b : HeapBuffer) (capacity : ℕ) (h : Allocator) : HeapBuffer × Allocator :=
  if b.buffer.capacity < capacity then
    let (p, h) := h.realloc (b.base.any fun p => moves p (Buffer.bufferRoundup capacity)) b.base
    (⟨some p, b.buffer.reserve capacity⟩, h)
  else (b, h)

def resize (b : HeapBuffer) (size : ℕ) (tail : Bytes) (h : Allocator) : HeapBuffer × Allocator :=
  let (reserved, h) := b.reserve moves size h
  (⟨reserved.base, b.buffer.resize size tail⟩, h)

def append (b : HeapBuffer) (d : Bytes) (h : Allocator) : HeapBuffer × Allocator :=
  let (reserved, h) := b.reserve moves (b.buffer.size + d.length) h
  (⟨reserved.base, b.buffer.append d⟩, h)

/-- `buffer_erase` at the start -/
def erase (b : HeapBuffer) (size : ℕ) : HeapBuffer := { b with buffer := b.buffer.erase 0 size }

def clear (b : HeapBuffer) : HeapBuffer := { b with buffer := b.buffer.clear }

def destruct (b : HeapBuffer) (h : Allocator) : Allocator := h.free b.base

def Keeps (h : Allocator) (b : HeapBuffer) (x : HeapBuffer × Allocator) : Prop :=
  ∀ owned, h.Accounts (b.base.toList ++ owned) → x.2.Accounts (x.1.base.toList ++ owned)

variable {h : Allocator} {b : HeapBuffer}

theorem keeps_reserve (capacity : ℕ) : Keeps h b (b.reserve moves capacity h) := by
  intro owned ha
  unfold reserve
  split_ifs
  · exact ha.realloc _
  · exact ha

theorem keeps_resize (size : ℕ) (tail : Bytes) : Keeps h b (b.resize moves size tail h) :=
  keeps_reserve moves size

theorem keeps_append (d : Bytes) : Keeps h b (b.append moves d h) :=
  keeps_reserve moves _

theorem buffer_reserve (capacity : ℕ) :
    (b.reserve moves capacity h).1.buffer = b.buffer.reserve capacity := by
  unfold reserve
  split_ifs with hgrow
  · rfl
  · exact (if_neg hgrow).symm

end HeapBuffer

/-- The callbacks of an object with buffers: its read and its write, and `stream_release_buffer`
or `queue_cancel` with the block that it frees. -/
inductive BufferUser
  | noop
  | read
  | write
  | release (base : Option ℕ)
  | other (n : ℕ)
  deriving DecidableEq

namespace BufferUser

def releases : BufferUser → Option ℕ
  | release base => base
  | _ => none

def refers : BufferUser → Bool
  | read | write | release _ => true
  | _ => false

end BufferUser

namespace Reactor

/-- The blocks that the callbacks to come will free. -/
def released (r : Reactor BufferUser) : List ℕ :=
  r.pending.filterMap fun s => (r.users s).bind BufferUser.releases

variable {r r' : Reactor BufferUser} {held : List ℕ}

theorem released_congr (hpending : r'.pending = r.pending)
    (husers : ∀ s ∈ r.pending, r'.users s = r.users s) : r'.released = r.released := by
  unfold released
  rw [hpending]
  exact List.filterMap_congr fun s hs => by rw [husers s hs]

theorem WellFormed.released_fresh (h : r.WellFormed held) (user : BufferUser)
    (hpending : r'.pending.Perm ((r.allocUser user).1 :: (r.allocUser user).2.pending))
    (husers : r'.users = (r.allocUser user).2.users) :
    r'.released.Perm (user.releases.toList ++ r.released) := by
  have hfresh : (r.allocUser user).1 ∉ r.pending := fun hmem =>
    (h.allocUser user).1 (List.mem_append_right _ hmem)
  rw [pending_allocUser] at hpending
  refine (hpending.filterMap _).trans (List.Perm.of_eq ?_)
  have hrest : r.pending.filterMap (fun s => (r'.users s).bind BufferUser.releases) =
      r.released := by
    refine List.filterMap_congr fun s hs => ?_
    rw [husers, users_allocUser, Function.update_of_ne (by rintro rfl; exact hfresh hs)]
  have hslot : r'.users (r.allocUser user).1 = some user := by
    rw [husers, users_allocUser, Function.update_self]
  rw [List.filterMap_cons, hrest, hslot, Option.bind_some]
  cases user.releases <;> rfl

theorem WellFormed.released_submit (h : r.WellFormed held) (op : Op) {user : BufferUser}
    (huser : user.releases = none) : (r.submit op user).2.released.Perm r.released := by
  have hperm := h.released_fresh user (pending_submit user op) rfl
  rwa [huser] at hperm

theorem WellFormed.released_reactorNext (h : r.WellFormed held) {user : BufferUser}
    (huser : user.releases = none) : (r.reactorNext user).2.released.Perm r.released := by
  have hperm := h.released_fresh user (pending_reactorNext user) rfl
  rwa [huser] at hperm

theorem WellFormed.released_take (h : r.WellFormed held) {slot : ℕ} {user : BufferUser}
    (hslot : r.Holds slot user) :
    r.released.Perm (user.releases.toList ++ (r.take slot).released) := by
  refine ((h.pending_take hslot.1).filterMap _).trans (List.Perm.of_eq ?_)
  rw [List.filterMap_cons, hslot.2, Option.bind_some]
  cases user.releases <;> rfl

theorem WellFormed.released_freeUser {slot : ℕ} (h : r.WellFormed (slot :: held)) :
    (r.freeUser slot).released = r.released := by
  refine released_congr rfl fun s hs => Function.update_of_ne ?_ _ _
  rintro rfl
  exact h.not_mem_pending hs

theorem WellFormed.released_redirect (h : r.WellFormed held) {slot : ℕ} {user user' : BufferUser}
    (hslot : r.Holds slot user) (huser : user.releases = none) :
    (r.redirect slot user').released.Perm (user'.releases.toList ++ r.released) := by
  have hwf := h.redirect user' slot
  have hholds : (r.redirect slot user').Holds slot user' :=
    (h.holds_redirect user' slot slot user').mpr (.inl ⟨rfl, hslot.1, rfl⟩)
  have hnew := hwf.released_take hholds
  have hold := h.released_take hslot
  rw [huser] at hold
  have hsame : ((r.redirect slot user').take slot).released = (r.take slot).released := by
    refine released_congr rfl fun s hs => Function.update_of_ne ?_ _ _
    rintro rfl
    exact (h.take hslot.1).not_mem_pending hs
  rw [hsame] at hnew
  exact hnew.trans (hold.symm.append_left _)

theorem WellFormed.released_reactorCancel (h : r.WellFormed held) (id : Id)
    {user user' : BufferUser} (hslot : r.users id.slot = some user) (huser : user.releases = none)
    (huser' : user'.releases = none) :
    (r.reactorCancel .noop id user').released.Perm r.released := by
  have hredirect : (r.redirect id.slot user').released.Perm r.released := by
    by_cases hmem : id.slot ∈ r.pending
    · have hperm : (r.redirect id.slot user').released.Perm
          (user'.releases.toList ++ r.released) := h.released_redirect ⟨hmem, hslot⟩ huser
      rwa [huser'] at hperm
    · refine List.Perm.of_eq (released_congr rfl fun s hs => Function.update_of_ne ?_ _ _)
      rintro rfl
      exact hmem hs
  rw [reactorCancel_eq]
  split_ifs
  · exact hredirect
  · exact ((h.redirect user' id.slot).released_submit _ rfl).trans hredirect

end Reactor

/-- The heap, the ring, and the block that the operation of a slot reads or writes. -/
structure BufferMemory where
  heap : Allocator
  reactor : Reactor BufferUser
  uses : ℕ → Option ℕ

inductive OtherLabel
  | next (n : ℕ)
  | submit (op : Op) (n : ℕ)
  | cancel (id : Id) (n : ℕ)

namespace BufferMemory

def construct : BufferMemory := ⟨.empty, .construct, fun _ => none⟩

def submit (m : BufferMemory) (op : Op) (user : BufferUser) (base : Option ℕ) :
    Id × BufferMemory :=
  let (id, r) := m.reactor.submit op user
  (id, { m with reactor := r, uses := Function.update m.uses id.slot base })

/-- `reactor_cancel`, which gives the block of a buffer to the slot. -/
def cancel (m : BufferMemory) (id : Id) (base : Option ℕ) : BufferMemory :=
  { m with reactor := m.reactor.reactorCancel .noop id (.release base) }

def submitNoop (m : BufferMemory) (op : Op) : BufferMemory :=
  { m with reactor := (m.reactor.submit op .noop).2 }

def take (m : BufferMemory) (slot : ℕ) : BufferMemory := { m with reactor := m.reactor.take slot }

def freeUser (m : BufferMemory) (slot : ℕ) : BufferMemory :=
  { m with reactor := m.reactor.freeUser slot }

/-- `stream_release_buffer` and `queue_cancel`: the callback of a cancelled operation -/
def releaseSlot (m : BufferMemory) (slot : ℕ) (base : Option ℕ) : BufferMemory :=
  let m := m.take slot
  { m with heap := m.heap.free base }.freeUser slot

def callSlot (m : BufferMemory) (slot : ℕ) : BufferMemory := (m.take slot).freeUser slot

def otherStep (m : BufferMemory) : OtherLabel → Option BufferMemory
  | .next n => some { m with reactor := (m.reactor.reactorNext (.other n)).2 }
  | .submit op n => some { m with reactor := (m.reactor.submit op (.other n)).2 }
  | .cancel id n =>
    match m.reactor.users id.slot with
    | some (.other _) => some { m with reactor := m.reactor.reactorCancel .noop id (.other n) }
    | _ => none

/-- The kernel has the block for an operation whose completion is to come. -/
def InFlight (m : BufferMemory) (slot b : ℕ) : Prop :=
  m.uses slot = some b ∧ ∃ user : BufferUser, user.refers = true ∧ m.reactor.Holds slot user

/-- The heap accounts for the blocks of the object and of its cancelled operations, which name
the block that they were given. -/
structure Accounted (m : BufferMemory) (held owned : List ℕ) : Prop where
  wellFormed : m.reactor.WellFormed held
  accounts : m.heap.Accounts (owned ++ m.reactor.released)
  cancelled : ∀ s base, m.reactor.Holds s (.release base) → m.uses s = base

structure Uses (m : BufferMemory) (user : BufferUser) (field : Option Id) (base : Option ℕ) :
    Prop where
  tracks : m.reactor.Tracks user field false
  uses : ∀ id, field = some id → m.uses id.slot = base

structure Quiet (m m' : BufferMemory) : Prop where
  heap : m'.heap = m.heap
  uses : m'.uses = m.uses
  holds : ∀ s user, user.refers = true → (m'.reactor.Holds s user ↔ m.reactor.Holds s user)
  released : m'.reactor.released.Perm m.reactor.released

variable {m m' : BufferMemory} {held owned owned' : List ℕ} {user user' : BufferUser}
  {field : Option Id} {base base' : Option ℕ}

theorem accounted_construct : construct.Accounted [] [] :=
  ⟨Reactor.wellFormed_construct, Allocator.accounts_empty, fun _ _ h => nomatch h.1⟩

theorem Accounted.of_perm (h : m.Accounted held owned) (hperm : owned.Perm owned') :
    m.Accounted held owned' :=
  ⟨h.wellFormed, h.accounts.of_perm (hperm.append_right _), h.cancelled⟩

theorem Accounted.setHeap (h : m.Accounted held owned) {heap : Allocator}
    (hheap : ∀ rest, m.heap.Accounts (owned ++ rest) → heap.Accounts (owned' ++ rest)) :
    Accounted { m with heap := heap } held owned' :=
  ⟨h.wellFormed, hheap _ h.accounts, h.cancelled⟩

theorem uses_none (h : m.Uses user none base) : m.Uses user none base' := ⟨h.tracks, nofun⟩

theorem uses_construct : construct.Uses user none base := ⟨Reactor.tracks_construct, nofun⟩

section Quiet

theorem Accounted.quiet {held' : List ℕ} (h : m.Accounted held owned) (hq : m.Quiet m')
    (hwf : m'.reactor.WellFormed held') : m'.Accounted held' owned := by
  refine ⟨hwf, ?_, fun s base hs => ?_⟩
  · rw [hq.heap]
    exact h.accounts.of_perm (hq.released.symm.append_left owned)
  · rw [hq.uses]
    exact h.cancelled s base ((hq.holds s _ rfl).mp hs)

theorem Uses.quiet (h : m.Uses user field base) (hq : m.Quiet m') (huser : user.refers = true) :
    m'.Uses user field base :=
  ⟨h.tracks.congr fun s => hq.holds s user huser, fun id hid => hq.uses ▸ h.uses id hid⟩

theorem quiet_submitNoop (hwf : m.reactor.WellFormed held) (op : Op) :
    m.Quiet (m.submitNoop op) := by
  refine ⟨rfl, rfl, fun s user huser => ?_, hwf.released_submit op rfl⟩
  show (m.reactor.submit op .noop).2.Holds s user ↔ _
  rw [hwf.holds_submit]
  refine or_iff_right fun hs => ?_
  rw [hs.2] at huser
  cases huser

theorem quiet_freeUser {slot : ℕ} (hwf : m.reactor.WellFormed (slot :: held)) :
    m.Quiet (m.freeUser slot) :=
  ⟨rfl, rfl, fun s user _ => hwf.holds_freeUser s user, List.Perm.of_eq hwf.released_freeUser⟩

theorem quiet_take (hwf : m.reactor.WellFormed held) {slot : ℕ}
    (hslot : m.reactor.Holds slot user) (huser : user.refers = false) :
    m.Quiet (m.take slot) := by
  refine ⟨rfl, rfl, fun s user' huser' => ?_, ?_⟩
  · show (m.reactor.take slot).Holds s user' ↔ _
    rw [hwf.holds_take hslot.1]
    refine and_iff_right_of_imp ?_
    rintro hs rfl
    rw [hslot.unique hs, huser'] at huser
    cases huser
  · have hperm := hwf.released_take hslot
    have hnone : user.releases = none := by
      cases user with
      | release base => cases huser
      | noop | read | write | other n => rfl
    rw [hnone] at hperm
    exact hperm.symm

theorem otherStep_spec (hwf : m.reactor.WellFormed held) {l : OtherLabel}
    (hstep : m.otherStep l = some m') : m'.reactor.WellFormed held ∧ m.Quiet m' := by
  have hne : ∀ {n : ℕ} {user : BufferUser}, user.refers = true → user ≠ .other n := by
    rintro n _ huser rfl
    cases huser
  cases l with
  | next n =>
    obtain rfl := Option.some.inj hstep
    refine ⟨hwf.reactorNext _, rfl, rfl, fun s user huser => ?_, hwf.released_reactorNext rfl⟩
    show (m.reactor.reactorNext (.other n)).2.Holds s user ↔ _
    rw [hwf.holds_reactorNext]
    exact or_iff_right fun hs => hne huser hs.2
  | submit op n =>
    obtain rfl := Option.some.inj hstep
    refine ⟨hwf.submit _ _, rfl, rfl, fun s user huser => ?_, hwf.released_submit op rfl⟩
    show (m.reactor.submit op (.other n)).2.Holds s user ↔ _
    rw [hwf.holds_submit]
    exact or_iff_right fun hs => hne huser hs.2
  | cancel id n =>
    dsimp only [otherStep] at hstep
    split at hstep
    · next k hid =>
      obtain rfl := Option.some.inj hstep
      refine ⟨hwf.reactorCancel _ _ id, rfl, rfl, fun s user huser => ?_,
        hwf.released_reactorCancel id hid rfl rfl⟩
      have hnoop : user ≠ .noop := by
        rintro rfl
        cases huser
      have hiff := hwf.holds_reactorCancel_iff (s := s) .noop (.other n) id hnoop (hne huser)
      show (m.reactor.reactorCancel .noop id (.other n)).Holds s user ↔ _
      rw [hiff]
      refine and_iff_right_of_imp fun hs heq => ?_
      rw [heq] at hs
      exact hne huser (Option.some.inj (hs.2.symm.trans hid))
    · cases hstep

end Quiet

section Operations

theorem Accounted.submit (h : m.Accounted held owned) (op : Op) (hnone : user.releases = none)
    (hrelease : ∀ base, user ≠ .release base) (base : Option ℕ) :
    (m.submit op user base).2.Accounted held owned := by
  have hwf := h.wellFormed
  refine ⟨hwf.submit user op, ?_, fun s base' hs => ?_⟩
  · exact h.accounts.of_perm ((hwf.released_submit op hnone).symm.append_left owned)
  · rcases (hwf.holds_submit user op s (.release base')).mp hs with ⟨-, heq⟩ | hs
    · exact absurd heq.symm (hrelease base')
    · rw [← h.cancelled s base' hs]
      refine Function.update_of_ne ?_ _ _
      rintro rfl
      exact (hwf.allocUser user).1 (List.mem_append_right held hs.1)

theorem Uses.submit (hwf : m.reactor.WellFormed held) (h : m.Uses user none base) (op : Op)
    (base' : Option ℕ) :
    (m.submit op user base').2.Uses user (some (m.submit op user base').1) base' :=
  ⟨h.tracks.submit hwf op, by
    rintro id ⟨⟩
    exact Function.update_self ..⟩

theorem Uses.submit_other (hwf : m.reactor.WellFormed held) (h : m.Uses user field base)
    (op : Op) (hne : user ≠ user') (base' : Option ℕ) :
    (m.submit op user' base').2.Uses user field base := by
  refine ⟨h.tracks.submit_other hwf op user' hne, fun id hid => ?_⟩
  rw [← h.uses id hid]
  refine Function.update_of_ne ?_ _ _
  have htracks := h.tracks
  rw [hid] at htracks
  intro heq
  have hmem := htracks.holds_slot.1
  rw [show id.slot = (m.reactor.allocUser user').1 from heq] at hmem
  exact (hwf.allocUser user').1 (List.mem_append_right held hmem)

/-- The block of an operation that is cancelled goes to its slot. -/
theorem Accounted.cancel {id : Id} (h : m.Accounted held (base.toList ++ owned))
    (huses : m.Uses user (some id) base) (hnone : user.releases = none) :
    (m.cancel id base).Accounted held owned := by
  have hwf := h.wellFormed
  have hslot := huses.tracks.holds_slot
  have htag := huses.tracks.tagged id rfl
  have hredirect := hwf.redirect (.release base) id.slot
  have hcancel : m.reactor.reactorCancel .noop id (.release base) =
      ((m.reactor.redirect id.slot (.release base)).submit (.asyncCancel id.slot) .noop).2 := by
    rw [Reactor.reactorCancel_eq, htag]
    rfl
  refine ⟨hwf.reactorCancel _ _ id, ?_, fun s base' hs => ?_⟩
  · show m.heap.Accounts (owned ++ (m.reactor.reactorCancel .noop id (.release base)).released)
    rw [hcancel]
    refine h.accounts.of_perm ?_
    refine List.Perm.trans ?_ ((hredirect.released_submit _ rfl).symm.append_left owned)
    refine List.Perm.trans ?_ ((hwf.released_redirect hslot hnone).symm.append_left owned)
    rw [List.append_assoc]
    exact List.perm_append_comm_assoc ..
  · have hs' : (m.reactor.reactorCancel .noop id (.release base)).Holds s (.release base') := hs
    rw [hcancel, hredirect.holds_submit, hwf.holds_redirect] at hs'
    rcases hs' with ⟨-, heq⟩ | ⟨rfl, -, heq⟩ | ⟨-, hs'⟩
    · cases heq
    · cases heq
      exact huses.uses id rfl
    · exact h.cancelled s base' hs'

theorem Uses.cancel {id : Id} (hwf : m.reactor.WellFormed held) (h : m.Uses user (some id) base)
    (huser : user ≠ .noop) (hrelease : ∀ base, user ≠ .release base) (base' : Option ℕ) :
    (m.cancel id base').Uses user none base :=
  ⟨h.tracks.cancel hwf huser (hrelease base'), nofun⟩

theorem Uses.cancel_other {id : Id} (hwf : m.reactor.WellFormed held)
    (h : m.Uses user field base) (h' : m.Uses user' (some id) base')
    (hne : user' ≠ user) (huser : user ≠ .noop) (hrelease : ∀ base, user ≠ .release base) :
    (m.cancel id base').Uses user field base := by
  refine ⟨h.tracks.cancel_other hwf huser (hrelease base') fun hs => hne ?_, h.uses⟩
  exact h'.tracks.holds_slot.unique hs

/-- The completion of an operation is taken. -/
theorem Accounted.take (h : m.Accounted held owned) {slot : ℕ}
    (hslot : m.reactor.Holds slot user) (hnone : user.releases = none) :
    (m.take slot).Accounted (slot :: held) owned := by
  have hwf := h.wellFormed
  have hperm := hwf.released_take hslot
  rw [hnone] at hperm
  refine ⟨hwf.take hslot.1, h.accounts.of_perm (hperm.append_left owned), fun s base hs => ?_⟩
  exact h.cancelled s base ((hwf.holds_take hslot.1 s _).mp hs).2

theorem Uses.take (hwf : m.reactor.WellFormed held) {slot : ℕ} (h : m.Uses user field base)
    (hslot : m.reactor.Holds slot user) : (m.take slot).Uses user none base :=
  ⟨h.tracks.take hwf hslot, nofun⟩

theorem Uses.take_other (hwf : m.reactor.WellFormed held) {slot : ℕ} (h : m.Uses user field base)
    (hslot : m.reactor.Holds slot user') (hne : user ≠ user') :
    (m.take slot).Uses user field base := by
  refine ⟨h.tracks.take_other hwf hslot.1 fun hs => hne ?_, h.uses⟩
  exact hs.unique hslot

/-- The callback of a cancelled operation frees the block. -/
theorem Accounted.release (h : m.Accounted held owned) {slot : ℕ}
    (hslot : m.reactor.Holds slot (.release base)) :
    Accounted { m.take slot with heap := m.heap.free base } (slot :: held) owned := by
  have hwf := h.wellFormed
  have hperm : m.reactor.released.Perm (base.toList ++ (m.reactor.take slot).released) :=
    hwf.released_take hslot
  refine ⟨hwf.take hslot.1, Allocator.Accounts.free (h.accounts.of_perm ?_), fun s base hs => ?_⟩
  · exact (hperm.append_left owned).trans (List.perm_append_comm_assoc ..)
  · exact h.cancelled s base ((hwf.holds_take hslot.1 s _).mp hs).2

theorem Accounted.freeUser {slot : ℕ} (h : m.Accounted (slot :: held) owned) :
    (m.freeUser slot).Accounted held owned :=
  h.quiet (quiet_freeUser h.wellFormed) h.wellFormed.freeUser

end Operations

/-- A block that the kernel has is not freed. -/
theorem Accounted.not_freed (h : m.Accounted held owned) {read write : Option Id}
    {readBase writeBase : Option ℕ} (hread : m.Uses .read read readBase)
    (hwrite : m.Uses .write write writeBase)
    (howned : ∀ b, readBase = some b ∨ writeBase = some b → b ∈ owned) {slot b : ℕ}
    (hflight : m.InFlight slot b) : b ∉ m.heap.freed := by
  obtain ⟨huses, user, huser, hslot⟩ := hflight
  refine h.accounts.not_freed ?_
  cases user with
  | noop => cases huser
  | other n => cases huser
  | read =>
    rw [hread.uses _ ((hread.tracks.holds slot).mp hslot)] at huses
    exact List.mem_append_left _ (howned b (.inl huses))
  | write =>
    rw [hwrite.uses _ ((hwrite.tracks.holds slot).mp hslot)] at huses
    exact List.mem_append_left _ (howned b (.inr huses))
  | release base =>
    rw [h.cancelled slot base hslot] at huses
    refine List.mem_append_right _ (List.mem_filterMap.mpr ⟨slot, hslot.1, ?_⟩)
    rw [hslot.2]
    exact huses

end BufferMemory

end LibReactor
