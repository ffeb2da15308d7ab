import LibReactor.QueueMemory

/-!
# Buffers of cancelled operations

A block that was given to the kernel stays allocated until the completion of its operation, and
every block is freed once: by the object, or by the slot of the operation that was cancelled.
-/

namespace LibReactor

open Transition

namespace BufferMemory

/-- No block is freed twice, and none that the kernel has is freed. -/
structure FreedOnce (m : BufferMemory) : Prop where
  once : m.heap.freed.Nodup
  inFlight : ∀ slot b, m.InFlight slot b → b ∉ m.heap.freed

/-- Every block is freed, or the kernel has it. -/
def Settled (m : BufferMemory) : Prop :=
  ∀ b < m.heap.next, b ∈ m.heap.freed ∨ ∃ slot, m.InFlight slot b

structure Idle (m : BufferMemory) (held : List ℕ) : Prop where
  accounted : m.Accounted held []
  read : m.Uses .read none none
  write : m.Uses .write none none

variable {m m' : BufferMemory} {held owned : List ℕ}

theorem idle_construct : construct.Idle [] := ⟨accounted_construct, uses_construct, uses_construct⟩

theorem Accounted.freedOnce (h : m.Accounted held owned) {read write : Option Id}
    {readBase writeBase : Option ℕ} (hread : m.Uses .read read readBase)
    (hwrite : m.Uses .write write writeBase)
    (howned : ∀ b, readBase = some b ∨ writeBase = some b → b ∈ owned) : m.FreedOnce :=
  ⟨(List.nodup_append.mp h.accounts.nodup).1, fun _ _ hb => h.not_freed hread hwrite howned hb⟩

theorem Idle.freedOnce (h : m.Idle held) : m.FreedOnce :=
  h.accounted.freedOnce h.read h.write (by simp)

theorem Idle.settled (h : m.Idle held) : m.Settled := by
  intro b hb
  have hmem := h.accounted.accounts.mem_iff.mpr (List.mem_range.mpr hb)
  rcases List.mem_append.mp hmem with hfreed | hreleased
  · exact .inl hfreed
  · obtain ⟨slot, hslot, hreleases⟩ := List.mem_filterMap.mp hreleased
    obtain ⟨user, huser, hbase⟩ := Option.bind_eq_some_iff.mp hreleases
    cases user with
    | release base =>
      obtain rfl : base = some b := hbase
      have hholds : m.reactor.Holds slot (.release (some b)) := ⟨hslot, huser⟩
      exact .inr ⟨slot, h.accounted.cancelled slot _ hholds, _, rfl, hholds⟩
    | noop | read | write | other n => cases hbase

theorem Idle.quiet {held' : List ℕ} (h : m.Idle held) (hq : m.Quiet m')
    (hwf : m'.reactor.WellFormed held') : m'.Idle held' :=
  ⟨h.accounted.quiet hq hwf, h.read.quiet hq rfl, h.write.quiet hq rfl⟩

theorem Uses.setHeap {user : BufferUser} {field : Option Id} {base : Option ℕ}
    (h : m.Uses user field base) (heap : Allocator) :
    BufferMemory.Uses { m with heap := heap } user field base := ⟨h.tracks, h.uses⟩

theorem Accounted.releaseSlot (h : m.Accounted held owned) {slot : ℕ} {base : Option ℕ}
    (hslot : m.reactor.Holds slot (.release base)) :
    (m.releaseSlot slot base).Accounted held owned := (h.release hslot).freeUser

theorem Uses.releaseSlot {user : BufferUser} {field : Option Id} {base base' : Option ℕ}
    (hwf : m.reactor.WellFormed held) (h : m.Uses user field base) {slot : ℕ}
    (hslot : m.reactor.Holds slot (.release base')) (hne : user ≠ .release base')
    (huser : user.refers = true) : (m.releaseSlot slot base').Uses user field base := by
  have htake := h.take_other hwf hslot hne
  exact (htake.setHeap _).quiet (quiet_freeUser (hwf.take hslot.1)) huser

theorem Idle.freeUser {slot : ℕ} (h : m.Idle (slot :: held)) : (m.freeUser slot).Idle held :=
  h.quiet (quiet_freeUser h.accounted.wellFormed) h.accounted.wellFormed.freeUser

theorem Idle.releaseSlot (h : m.Idle held) {slot : ℕ} {base : Option ℕ}
    (hslot : m.reactor.Holds slot (.release base)) : (m.releaseSlot slot base).Idle held :=
  ⟨h.accounted.releaseSlot hslot,
    h.read.releaseSlot h.accounted.wellFormed hslot BufferUser.noConfusion rfl,
    h.write.releaseSlot h.accounted.wellFormed hslot BufferUser.noConfusion rfl⟩

theorem quiet_callSlot (hwf : m.reactor.WellFormed held) {slot : ℕ} {user : BufferUser}
    (hslot : m.reactor.Holds slot user) (huser : user.refers = false) :
    m.Quiet (m.callSlot slot) ∧ (m.callSlot slot).reactor.WellFormed held := by
  have htake := quiet_take hwf hslot huser
  have hfree := quiet_freeUser (m := m.take slot) (hwf.take hslot.1)
  exact ⟨⟨hfree.heap.trans htake.heap, hfree.uses.trans htake.uses,
    fun s user hs => (hfree.holds s user hs).trans (htake.holds s user hs),
    hfree.released.trans htake.released⟩, (hwf.take hslot.1).freeUser⟩

end BufferMemory

/-! ## Producers -/

namespace HeapProducer

variable {p : HeapProducer} {m m' : BufferMemory} {held : List ℕ} {q : QueueEnds}

structure Tracked (p : HeapProducer) (m : BufferMemory) (held : List ℕ) : Prop where
  accounted : m.Accounted held (p.output.base.toList ++ p.outputQueued.base.toList)
  write : m.Uses .write p.write p.output.base
  read : m.Uses .read none none

theorem Tracked.quiet {held' : List ℕ} (h : p.Tracked m held) (hq : m.Quiet m')
    (hwf : m'.reactor.WellFormed held') : p.Tracked m' held' :=
  ⟨h.accounted.quiet hq hwf, h.write.quiet hq rfl, h.read.quiet hq rfl⟩

theorem Tracked.swap (h : p.Tracked m held) (hwrite : p.write = none) : p.swap.Tracked m held := by
  unfold HeapProducer.swap
  split_ifs
  · refine ⟨h.accounted.of_perm List.perm_append_comm, ?_, h.read⟩
    have huses := h.write
    rw [hwrite] at huses
    exact hwrite ▸ BufferMemory.uses_none huses
  · exact h

theorem queue_swap (p : HeapProducer) : p.swap.queue = p.queue ∧ p.swap.write = p.write := by
  unfold HeapProducer.swap
  split_ifs <;> exact ⟨rfl, rfl⟩

theorem queue_update (p : HeapProducer) (q : QueueEnds) (m : BufferMemory) :
    (p.update q m).1.queue = p.queue := by
  unfold update
  dsimp only
  split_ifs
  · rfl
  all_goals exact (queue_swap p).1

theorem Tracked.update (h : p.Tracked m held) :
    (p.update q m).1.Tracked (p.update q m).2 held := by
  unfold HeapProducer.update
  by_cases hwrite : p.write.isSome = true
  · rw [if_pos hwrite]
    exact h
  · have hnone : p.write = none := by simpa using hwrite
    have hswap := h.swap hnone
    have hnone' := (queue_swap p).2.trans hnone
    rw [if_neg hwrite]
    dsimp only
    split_ifs
    · exact hswap
    all_goals
      have huses := hswap.write
      have hwf := hswap.accounted.wellFormed
      rw [hnone'] at huses
      exact ⟨hswap.accounted.submit _ rfl (fun _ => BufferUser.noConfusion) _, huses.submit hwf _ _,
        hswap.read.submit_other hwf _ BufferUser.noConfusion _⟩

theorem Tracked.push (h : p.Tracked m held) (moves : ℕ → ℕ → Bool) (element : Bytes) :
    (p.push moves q element m).1.Tracked (p.push moves q element m).2 held := by
  have happend : HeapProducer.Tracked
      { p with outputQueued := (p.outputQueued.append moves element m.heap).1 }
      { m with heap := (p.outputQueued.append moves element m.heap).2 } held := by
    refine ⟨h.accounted.setHeap fun rest ha => ?_, h.write.setHeap _, h.read.setHeap _⟩
    rw [List.append_assoc] at ha ⊢
    exact (HeapBuffer.keeps_append _ element _
      (ha.of_perm (List.perm_append_comm_assoc ..))).of_perm
      (List.perm_append_comm_assoc ..)
  exact happend.update

theorem Tracked.freeUser {slot : ℕ} (h : p.Tracked m (slot :: held)) :
    p.Tracked (m.freeUser slot) held :=
  h.quiet (BufferMemory.quiet_freeUser h.accounted.wellFormed) h.accounted.wellFormed.freeUser

theorem Tracked.written (h : p.Tracked m held) {slot : ℕ} (hslot : m.reactor.Holds slot .write)
    {result : ℤ} {x : HeapProducer × BufferMemory}
    (hwritten : p.written q result (m.take slot) = some x) : x.1.Tracked x.2 (slot :: held) := by
  have hwf := h.accounted.wellFormed
  have htaken : ∀ offset, HeapProducer.Tracked { p with write := none, outputOffset := offset }
      (m.take slot) (slot :: held) := fun offset =>
    ⟨h.accounted.take hslot rfl, h.write.take hwf hslot,
      h.read.take_other hwf hslot BufferUser.noConfusion⟩
  unfold HeapProducer.written at hwritten
  dsimp only at hwritten
  split_ifs at hwritten
  · obtain rfl := Option.some.inj hwritten
    exact (htaken _).update
  · obtain rfl := Option.some.inj hwritten
    exact (htaken _).update

theorem queue_written {result : ℤ} {x : HeapProducer × BufferMemory}
    (hwritten : p.written q result m = some x) : x.1.queue = p.queue := by
  unfold written at hwritten
  dsimp only at hwritten
  split_ifs at hwritten
  all_goals
    obtain rfl := Option.some.inj hwritten
    exact queue_update _ _ _

theorem Tracked.releaseSlot (h : p.Tracked m held) {slot : ℕ} {base : Option ℕ}
    (hslot : m.reactor.Holds slot (.release base)) : p.Tracked (m.releaseSlot slot base) held :=
  ⟨h.accounted.releaseSlot hslot,
    h.write.releaseSlot h.accounted.wellFormed hslot BufferUser.noConfusion rfl,
    h.read.releaseSlot h.accounted.wellFormed hslot BufferUser.noConfusion rfl⟩

/-- After `queue_producer_close` the producer has nothing left. -/
theorem Tracked.close (h : p.Tracked m held) (hqueue : p.queue = some q) :
    (p.close m).2.Idle held ∧ (p.close m).1.queue = none := by
  unfold HeapProducer.close
  rw [hqueue]
  dsimp only
  have hwf := h.accounted.wellFormed
  have huses := h.write
  cases hwrite : p.write with
  | none =>
    rw [hwrite] at huses
    refine ⟨⟨h.accounted.setHeap fun rest ha => ?_, h.read.setHeap _,
      (BufferMemory.uses_none huses).setHeap _⟩, rfl⟩
    rw [List.append_assoc] at ha
    exact ha.free.free
  | some id =>
    rw [hwrite] at huses
    have hcancel := h.accounted.cancel huses rfl
    have hwrite' := huses.cancel hwf BufferUser.noConfusion (fun _ => BufferUser.noConfusion)
      p.output.base
    have hread := h.read.cancel_other hwf huses BufferUser.noConfusion BufferUser.noConfusion
      (fun _ => BufferUser.noConfusion)
    exact ⟨⟨hcancel.setHeap fun rest ha => ha.free, hread.setHeap _,
      (BufferMemory.uses_none hwrite').setHeap _⟩, rfl⟩

end HeapProducer

namespace ProducerMemory

/-- The invariant: an open producer owns its two buffers, a closed one has nothing left. -/
structure Owning (w : ProducerMemory) : Prop where
  tracked : ∀ q, w.producer.queue = some q → w.producer.Tracked w.memory []
  idle : w.producer.queue = none → w.memory.Idle []
  fresh : w.opened = false → w.producer = .construct
  gone : w.gone = true → w.producer.queue = none

variable {moves : ℕ → ℕ → Bool} {w w' : ProducerMemory}

theorem owning_construct : construct.Owning :=
  ⟨nofun, fun _ => BufferMemory.idle_construct, fun _ => rfl, nofun⟩

theorem Owning.opened (hw : w.Owning) {q : QueueEnds} (hqueue : w.producer.queue = some q)
    {p : HeapProducer} {m : BufferMemory} (htracked : p.Tracked m []) (hp : p.queue = some q) :
    Owning { w with producer := p, memory := m } := by
  refine ⟨fun _ _ => htracked, fun hnone => ?_, fun hopened => ?_, fun hgone => ?_⟩
  · rw [hp] at hnone
    cases hnone
  · rw [hw.fresh hopened] at hqueue
    cases hqueue
  · rw [hw.gone hgone] at hqueue
    cases hqueue

theorem Owning.memory (hw : w.Owning) {m : BufferMemory}
    (htracked : w.producer.Tracked w.memory [] → w.producer.Tracked m [])
    (hidle : w.memory.Idle [] → m.Idle []) : Owning { w with memory := m } :=
  ⟨fun q hq => htracked (hw.tracked q hq), fun hq => hidle (hw.idle hq), hw.fresh, hw.gone⟩

theorem Owning.quiet (hw : w.Owning) {m : BufferMemory} (hq : w.memory.Quiet m)
    (hwf : m.reactor.WellFormed []) : Owning { w with memory := m } :=
  hw.memory (fun h => h.quiet hq hwf) (fun h => h.quiet hq hwf)

theorem Owning.wellFormed (hw : w.Owning) : w.memory.reactor.WellFormed [] := by
  cases hqueue : w.producer.queue with
  | none => exact (hw.idle hqueue).accounted.wellFormed
  | some q => exact (hw.tracked q hqueue).accounted.wellFormed

theorem Owning.read (hw : w.Owning) : w.memory.Uses .read none none := by
  cases hqueue : w.producer.queue with
  | none => exact (hw.idle hqueue).read
  | some q => exact BufferMemory.uses_none (hw.tracked q hqueue).read

theorem Owning.close (hw : w.Owning) {gone : Bool} : Owning { w with
    producer := (w.producer.close w.memory).1
    memory := (w.producer.close w.memory).2
    gone := gone } := by
  cases hqueue : w.producer.queue with
  | none =>
    have hclose : w.producer.close w.memory = (w.producer, w.memory) := by
      simp only [HeapProducer.close, hqueue]
    rw [hclose]
    exact ⟨hw.tracked, hw.idle, hw.fresh, fun _ => hqueue⟩
  | some q =>
    obtain ⟨hidle, hnone⟩ := (hw.tracked q hqueue).close hqueue
    refine ⟨fun q' hq' => ?_, fun _ => hidle, fun hopened => ?_, fun _ => hnone⟩
    · rw [show (w.producer.close w.memory).1.queue = some q' from hq'] at hnone
      cases hnone
    · rw [hw.fresh hopened] at hqueue
      cases hqueue

theorem Owning.call (hw : w.Owning) {slot : ℕ} {user : BufferUser} {result : ℤ}
    (hslot : w.memory.reactor.Holds slot user) (hcall : w.call slot result user = some w') :
    w'.Owning := by
  have hquiet : user.refers = false → Owning { w with memory := w.memory.callSlot slot } :=
    fun huser =>
      hw.quiet (BufferMemory.quiet_callSlot hw.wellFormed hslot huser).1
        (BufferMemory.quiet_callSlot hw.wellFormed hslot huser).2
  cases user with
  | write =>
    obtain ⟨q, hqueue, hcall⟩ := Option.bind_eq_some_iff.mp hcall
    obtain ⟨x, hwritten, hcall⟩ := Option.bind_eq_some_iff.mp hcall
    obtain rfl := Option.some.inj hcall
    have htracked := (hw.tracked q hqueue).written hslot hwritten
    exact hw.opened hqueue htracked.freeUser ((HeapProducer.queue_written hwritten).trans hqueue)
  | release base =>
    obtain rfl := Option.some.inj hcall
    exact hw.memory (fun h => h.releaseSlot hslot) (fun h => h.releaseSlot hslot)
  | read => exact absurd hslot (hw.read.tracks.not_holds slot)
  | noop | other n =>
    obtain rfl := Option.some.inj hcall
    exact hquiet rfl

/-- The step lemma. -/
theorem Owning.step {l : ProducerCall} (hw : w.Owning) (hok : NotReopened w l)
    (hstep : ProducerMemory.step moves w l = some w') : w'.Owning := by
  cases l with
  | «open» q =>
    dsimp only [ProducerMemory.step] at hstep
    split_ifs at hstep with hguard
    obtain rfl := Option.some.inj hstep
    have hidle := hw.idle hguard.2
    have hfresh := hw.fresh (hok rfl)
    refine ⟨fun _ _ => ⟨?_, ?_, hidle.read⟩, nofun, nofun, fun hgone => ?_⟩
    · rw [hfresh]
      exact hidle.accounted
    · rw [hfresh]
      exact hidle.write
    · rw [hguard.1] at hgone
      cases hgone
  | push element =>
    dsimp only [ProducerMemory.step] at hstep
    split at hstep
    · next q _ hqueue =>
      obtain rfl := Option.some.inj hstep
      exact hw.opened hqueue ((hw.tracked q hqueue).push moves element)
        ((HeapProducer.queue_update _ _ _).trans hqueue)
    · cases hstep
  | close =>
    dsimp only [ProducerMemory.step] at hstep
    split_ifs at hstep with hguard
    obtain rfl := Option.some.inj hstep
    exact hw.close
  | destruct =>
    dsimp only [ProducerMemory.step] at hstep
    split_ifs at hstep with hguard
    obtain rfl := Option.some.inj hstep
    exact hw.close
  | call slot result =>
    dsimp only [ProducerMemory.step] at hstep
    split_ifs at hstep with hguard
    obtain ⟨user, huser, hcall⟩ := Option.bind_eq_some_iff.mp hstep
    exact hw.call ⟨hguard, huser⟩ hcall
  | other l =>
    obtain ⟨m, hother, hstep⟩ := Option.map_eq_some_iff.mp hstep
    obtain rfl := hstep
    have hspec := BufferMemory.otherStep_spec hw.wellFormed hother
    exact hw.quiet hspec.2 hspec.1

end ProducerMemory

/-! ## Consumers -/

namespace HeapConsumer

variable {c : HeapConsumer} {m m' : BufferMemory} {held : List ℕ} {q : QueueEnds}

structure Tracked (c : HeapConsumer) (m : BufferMemory) (held : List ℕ) : Prop where
  accounted : m.Accounted held c.input.base.toList
  read : m.Uses .read c.read c.input.base
  write : m.Uses .write none none

theorem Tracked.quiet {held' : List ℕ} (h : c.Tracked m held) (hq : m.Quiet m')
    (hwf : m'.reactor.WellFormed held') : c.Tracked m' held' :=
  ⟨h.accounted.quiet hq hwf, h.read.quiet hq rfl, h.write.quiet hq rfl⟩

theorem Tracked.freeUser {slot : ℕ} (h : c.Tracked m (slot :: held)) :
    c.Tracked (m.freeUser slot) held :=
  h.quiet (BufferMemory.quiet_freeUser h.accounted.wellFormed) h.accounted.wellFormed.freeUser

theorem Tracked.releaseSlot (h : c.Tracked m held) {slot : ℕ} {base : Option ℕ}
    (hslot : m.reactor.Holds slot (.release base)) : c.Tracked (m.releaseSlot slot base) held :=
  ⟨h.accounted.releaseSlot hslot,
    h.read.releaseSlot h.accounted.wellFormed hslot BufferUser.noConfusion rfl,
    h.write.releaseSlot h.accounted.wellFormed hslot BufferUser.noConfusion rfl⟩

theorem queue_update (c : HeapConsumer) (q : QueueEnds) (m : BufferMemory) :
    (c.update q m).1.queue = c.queue ∧ (c.update q m).1.abort = c.abort := by
  unfold update
  split_ifs
  · exact ⟨rfl, rfl⟩
  · exact ⟨rfl, rfl⟩

theorem Tracked.update (h : c.Tracked m held) :
    (c.update q m).1.Tracked (c.update q m).2 held := by
  unfold HeapConsumer.update
  by_cases hread : c.read.isSome = true
  · rw [if_pos hread]
    exact h
  · have hnone : c.read = none := by simpa using hread
    have huses := h.read
    have hwf := h.accounted.wellFormed
    rw [hnone] at huses
    rw [if_neg hread]
    exact ⟨h.accounted.submit _ rfl (fun _ => BufferUser.noConfusion) _, huses.submit hwf _ _,
      h.write.submit_other hwf _ BufferUser.noConfusion _⟩

theorem Tracked.take (h : c.Tracked m held) {slot : ℕ} (hslot : m.reactor.Holds slot .read) :
    HeapConsumer.Tracked { c with read := none } (m.take slot) (slot :: held) :=
  ⟨h.accounted.take hslot rfl, h.read.take h.accounted.wellFormed hslot,
    h.write.take_other h.accounted.wellFormed hslot BufferUser.noConfusion⟩

theorem Tracked.openQueue (h : c.Tracked m held) (hread : c.read = none) (moves : ℕ → ℕ → Bool)
    (batchSize : ℕ) (memory : ℕ → UInt8) :
    (c.openQueue moves q batchSize memory m).1.Tracked
      (c.openQueue moves q batchSize memory m).2 held := by
  have huses := h.read
  rw [hread] at huses
  refine ⟨h.accounted.setHeap fun rest ha => ?_, ?_, h.write.setHeap _⟩
  · exact HeapBuffer.keeps_resize _ _ _ rest ha
  · show BufferMemory.Uses _ .read c.read _
    rw [hread]
    exact (BufferMemory.uses_none huses).setHeap _

/-- `queue_consumer_close` gives the input buffer to the operation that it cancels. -/
theorem Tracked.close (h : c.Tracked m held) (hclosed : c.queue = none → c.read = none) :
    (c.close m).1.Tracked (c.close m).2 held ∧ (c.close m).1.queue = none ∧
      (c.close m).1.read = none ∧ (c.close m).1.abort = c.abort := by
  unfold HeapConsumer.close
  cases hqueue : c.queue with
  | none => exact ⟨h, hqueue, hclosed hqueue, rfl⟩
  | some q =>
    dsimp only
    have hwf := h.accounted.wellFormed
    have huses := h.read
    cases hread : c.read with
    | none =>
      rw [hread] at huses
      exact ⟨⟨h.accounted, huses, h.write⟩, rfl, rfl, rfl⟩
    | some id =>
      rw [hread] at huses
      have haccounted : m.Accounted held (c.input.base.toList ++ []) :=
        h.accounted.of_perm (by rw [List.append_nil])
      have hread' := huses.cancel hwf BufferUser.noConfusion (fun _ => BufferUser.noConfusion)
        c.input.base
      have hwrite := h.write.cancel_other hwf huses BufferUser.noConfusion BufferUser.noConfusion
        (fun _ => BufferUser.noConfusion)
      exact ⟨⟨haccounted.cancel huses rfl, BufferMemory.uses_none hread', hwrite⟩, rfl, rfl, rfl⟩

end HeapConsumer

namespace ConsumerMemory

def held (w : ConsumerMemory) : List ℕ := (w.reading.map Prod.fst).toList

/-- The invariant: a consumer owns its input buffer until it is destructed, and closing it in its
callback aborts that. -/
structure Owning (w : ConsumerMemory) : Prop where
  tracked : w.gone = false → w.consumer.Tracked w.memory w.held
  idle : w.gone = true → w.memory.Idle w.held
  closed : w.consumer.queue = none → w.consumer.read = none
  gone : w.gone = true → w.consumer.queue = none
  flag : w.reading.isSome → w.consumer.abort = true
  aborted : w.reading.isSome → w.consumer.queue = none → w.aborted = true

variable {moves : ℕ → ℕ → Bool} {w w' : ConsumerMemory} {q : QueueEnds}

theorem owning_construct : construct.Owning where
  tracked _ := ⟨BufferMemory.accounted_construct, BufferMemory.uses_construct,
    BufferMemory.uses_construct⟩
  idle := nofun
  closed _ := rfl
  gone := nofun
  flag := nofun
  aborted := nofun

theorem Owning.not_gone (hw : w.Owning) (hqueue : w.consumer.queue = some q) : w.gone = false := by
  by_contra hgone
  rw [hw.gone (Bool.eq_true_of_not_eq_false hgone)] at hqueue
  cases hqueue

theorem Owning.wellFormed (hw : w.Owning) : w.memory.reactor.WellFormed w.held := by
  cases hgone : w.gone with
  | false => exact (hw.tracked hgone).accounted.wellFormed
  | true => exact (hw.idle hgone).accounted.wellFormed

theorem Owning.memory (hw : w.Owning) {m : BufferMemory}
    (htracked : w.consumer.Tracked w.memory w.held → w.consumer.Tracked m w.held)
    (hidle : w.memory.Idle w.held → m.Idle w.held) : Owning { w with memory := m } :=
  ⟨fun hg => htracked (hw.tracked hg), fun hg => hidle (hw.idle hg), hw.closed, hw.gone, hw.flag,
    hw.aborted⟩

theorem Owning.quiet (hw : w.Owning) {m : BufferMemory} (hq : w.memory.Quiet m)
    (hwf : m.reactor.WellFormed w.held) : Owning { w with memory := m } :=
  hw.memory (fun h => h.quiet hq hwf) (fun h => h.quiet hq hwf)

theorem owning_open (hgone : w.gone = false) (hqueue : w.consumer.queue = some q)
    (htracked : w.consumer.Tracked w.memory []) (hreading : w.reading = none) : w.Owning where
  tracked _ := by
    rw [held, hreading]
    exact htracked
  idle hg := by
    rw [hgone] at hg
    cases hg
  closed hnone := by
    rw [hqueue] at hnone
    cases hnone
  gone hg := by
    rw [hgone] at hg
    cases hg
  flag hr := by
    rw [hreading] at hr
    cases hr
  aborted hr := by
    rw [hreading] at hr
    cases hr

theorem owning_give (hgone : w.gone = false) (hqueue : w.consumer.queue = some q) {slot : ℕ}
    (htracked : w.consumer.Tracked w.memory [slot]) (rest : ℕ) : (w.give slot rest).Owning where
  tracked _ := ⟨htracked.accounted, htracked.read, htracked.write⟩
  idle hg := by
    rw [show w.gone = true from hg] at hgone
    cases hgone
  closed hnone := by
    rw [show w.consumer.queue = none from hnone] at hqueue
    cases hqueue
  gone hg := by
    rw [show w.gone = true from hg] at hgone
    cases hgone
  flag _ := rfl
  aborted _ hnone := by
    rw [show w.consumer.queue = none from hnone] at hqueue
    cases hqueue

theorem owning_finishRead {slot : ℕ} (hgone : w.gone = false)
    (htracked : w.consumer.Tracked w.memory [slot]) (hfinish : w.finishRead slot = some w') :
    w'.Owning := by
  obtain ⟨q, hqueue, hfinish⟩ := Option.map_eq_some_iff.mp hfinish
  obtain rfl := hfinish
  exact owning_open hgone ((HeapConsumer.queue_update _ _ _).1.trans hqueue)
    htracked.update.freeUser rfl

theorem Owning.call (hw : w.Owning) (hreading : w.reading = none) {slot : ℕ} {user : BufferUser}
    {result : ℤ} (hslot : w.memory.reactor.Holds slot user)
    (hcall : w.call slot result user = some w') : w'.Owning := by
  have hquiet : user.refers = false → Owning { w with memory := w.memory.callSlot slot } :=
    fun huser =>
      hw.quiet (BufferMemory.quiet_callSlot hw.wellFormed hslot huser).1
        (BufferMemory.quiet_callSlot hw.wellFormed hslot huser).2
  cases user with
  | read =>
    obtain ⟨q, hqueue, hcall⟩ := Option.bind_eq_some_iff.mp hcall
    have hgone := hw.not_gone hqueue
    have htracked := hw.tracked hgone
    rw [held, hreading] at htracked
    have htaken := htracked.take hslot
    dsimp only at hcall
    split_ifs at hcall
    · exact owning_finishRead (w := { w with
        consumer := { w.consumer with read := none }
        memory := w.memory.take slot
        aborted := false }) hgone htaken hcall
    · obtain rfl := Option.some.inj hcall
      exact owning_give (w := { w with
        consumer := { w.consumer with read := none }
        memory := w.memory.take slot
        aborted := false }) hgone hqueue htaken _
  | write =>
    cases hgone : w.gone with
    | false => exact absurd hslot ((hw.tracked hgone).write.tracks.not_holds slot)
    | true => exact absurd hslot ((hw.idle hgone).write.tracks.not_holds slot)
  | release base =>
    obtain rfl := Option.some.inj hcall
    exact hw.memory (fun h => h.releaseSlot hslot) (fun h => h.releaseSlot hslot)
  | noop | other n =>
    obtain rfl := Option.some.inj hcall
    exact hquiet rfl

theorem Owning.abortRead (hw : w.Owning) (hreading : w.reading.isSome) :
    w.abortRead.aborted = true := by
  unfold ConsumerMemory.abortRead
  split_ifs with hguard
  · rfl
  · refine hw.aborted hreading ?_
    rw [hw.flag hreading, and_iff_left rfl] at hguard
    simpa using hguard

theorem abortRead_eq (w : ConsumerMemory) :
    w.abortRead = { w with aborted := w.abortRead.aborted } := by
  unfold ConsumerMemory.abortRead
  split_ifs <;> rfl

theorem Owning.close (hw : w.Owning) (hgone : w.gone = false) : Owning { w.abortRead with
    consumer := (w.consumer.close w.memory).1
    memory := (w.consumer.close w.memory).2 } := by
  obtain ⟨htracked, hqueue, hread, habort⟩ := (hw.tracked hgone).close hw.closed
  have habortRead := hw.abortRead
  rw [abortRead_eq]
  refine ⟨fun _ => htracked, fun hg => ?_, fun _ => hread, fun _ => hqueue, fun hr => ?_,
    fun hr _ => habortRead hr⟩
  · rw [show w.gone = true from hg] at hgone
    cases hgone
  · exact habort.trans (hw.flag hr)

/-- The destructor frees what `queue_consumer_close` leaves to it. -/
theorem Owning.destruct (hw : w.Owning) (hgone : w.gone = false) : Owning { w.abortRead with
    consumer := (w.consumer.close w.memory).1
    memory := { (w.consumer.close w.memory).2 with
      heap := (w.consumer.close w.memory).1.input.destruct (w.consumer.close w.memory).2.heap }
    gone := true } := by
  obtain ⟨htracked, hqueue, hread, habort⟩ := (hw.tracked hgone).close hw.closed
  have habortRead := hw.abortRead
  have huses := htracked.read
  rw [hread] at huses
  rw [abortRead_eq]
  refine ⟨nofun, fun _ => ⟨htracked.accounted.setHeap fun rest ha => ha.free,
    (BufferMemory.uses_none huses).setHeap _, htracked.write.setHeap _⟩, fun _ => hread,
    fun _ => hqueue, fun hr => habort.trans (hw.flag hr), fun hr _ => habortRead hr⟩

theorem Owning.return (hw : w.Owning) {slot rest : ℕ} (hreading : w.reading = some (slot, rest))
    (hstep : ConsumerMemory.step moves w .return = some w') : w'.Owning := by
  have hheld : w.held = [slot] := by rw [held, hreading]; rfl
  dsimp only [ConsumerMemory.step] at hstep
  rw [hreading] at hstep
  dsimp only at hstep
  split_ifs at hstep with habort
  · obtain rfl := Option.some.inj hstep
    refine ⟨fun hg => ?_, fun hg => ?_, hw.closed, hw.gone, nofun, nofun⟩
    · have htracked := hw.tracked hg
      rw [hheld] at htracked
      exact htracked.freeUser
    · have hidle := hw.idle hg
      rw [hheld] at hidle
      exact hidle.freeUser
  · obtain ⟨q, hqueue⟩ : ∃ q, w.consumer.queue = some q := by
      cases hqueue : w.consumer.queue with
      | none => exact absurd (hw.aborted (by rw [hreading]; rfl) hqueue) habort
      | some q => exact ⟨q, rfl⟩
    have hgone := hw.not_gone hqueue
    have htracked := hw.tracked hgone
    rw [hheld] at htracked
    have htracked' : HeapConsumer.Tracked { w.consumer with abort := false } w.memory [slot] :=
      ⟨htracked.accounted, htracked.read, htracked.write⟩
    cases rest with
    | zero => exact owning_finishRead (w := { w with
        consumer := { w.consumer with abort := false }
        reading := some (slot, 0) }) hgone htracked' hstep
    | succ rest =>
      obtain rfl := Option.some.inj hstep
      exact owning_give (w := { w with
        consumer := { w.consumer with abort := false }
        reading := some (slot, rest + 1) }) hgone hqueue htracked' rest

/-- The step lemma. -/
theorem Owning.step {l : ConsumerCall} (hw : w.Owning)
    (hstep : ConsumerMemory.step moves w l = some w') : w'.Owning := by
  cases l with
  | «open» q batchSize memory =>
    dsimp only [ConsumerMemory.step] at hstep
    split_ifs at hstep with hguard
    obtain rfl := Option.some.inj hstep
    have htracked := (hw.tracked hguard.1).openQueue (q := q) (hw.closed hguard.2) moves batchSize
      memory
    refine ⟨fun _ => htracked, fun hg => ?_, nofun, fun hg => ?_, hw.flag, fun _ => nofun⟩
    · rw [hguard.1] at hg
      cases hg
    · rw [hguard.1] at hg
      cases hg
  | pop =>
    dsimp only [ConsumerMemory.step] at hstep
    split at hstep
    · next q hgone hqueue =>
      obtain rfl := Option.some.inj hstep
      have hupdate := HeapConsumer.queue_update w.consumer q w.memory
      have hqueue' := hupdate.1.trans hqueue
      refine ⟨fun hg => (hw.tracked hg).update, fun hg => ?_, fun hnone => ?_, fun hg => ?_,
        fun hr => hupdate.2.trans (hw.flag hr), fun _ hnone => ?_⟩
      · rw [hgone] at hg
        cases hg
      · rw [hqueue'] at hnone
        cases hnone
      · rw [hgone] at hg
        cases hg
      · rw [hqueue'] at hnone
        cases hnone
    · cases hstep
  | close =>
    dsimp only [ConsumerMemory.step] at hstep
    split_ifs at hstep with hguard
    obtain rfl := Option.some.inj hstep
    exact hw.close hguard
  | destruct =>
    dsimp only [ConsumerMemory.step] at hstep
    split_ifs at hstep with hguard
    obtain rfl := Option.some.inj hstep
    exact hw.destruct hguard
  | call slot result =>
    dsimp only [ConsumerMemory.step] at hstep
    split_ifs at hstep with hguard
    obtain ⟨user, huser, hcall⟩ := Option.bind_eq_some_iff.mp hstep
    exact hw.call hguard.1 ⟨hguard.2, huser⟩ hcall
  | «return» =>
    cases hreading : w.reading with
    | none => simp only [ConsumerMemory.step, hreading, reduceCtorEq] at hstep
    | some x =>
      obtain ⟨slot, rest⟩ := x
      exact hw.return hreading hstep
  | other l =>
    obtain ⟨m, hother, hstep⟩ := Option.map_eq_some_iff.mp hstep
    obtain rfl := hstep
    have hspec := BufferMemory.otherStep_spec hw.wellFormed hother
    exact hw.quiet hspec.2 hspec.1

end ConsumerMemory

end LibReactor
