import LibReactor.StreamBuffers

/-!
# The lifetime of buffers given to the kernel

What every run of a stream, of a queue producer and of a queue consumer does with the blocks of
its buffers, and when the user hears nothing more.
-/

namespace LibReactor

open Transition

namespace StreamMemory

variable {moves : ℕ → ℕ → Bool} {w w' : StreamMemory}

def Ended (w : StreamMemory) : Prop :=
  w.stream.isOpen = false ∧ (w.opened = true ∨ w.gone = true)

theorem Owning.freedOnce (hw : w.Owning) : w.memory.FreedOnce := by
  cases hgone : w.gone with
  | false =>
    have htracked := hw.tracked hgone
    refine htracked.accounted.freedOnce htracked.read htracked.write fun b hb => ?_
    simp only [HeapStream.blocks, List.mem_append, Option.mem_toList]
    rcases hb with hb | hb
    · exact .inl hb
    · exact .inr (.inl hb)
  | true => exact (hw.idle hgone).freedOnce

theorem Owning.ended_step {l : StreamCall} (hw : w.Owning) (hended : w.Ended)
    (hok : NotReopened w l) (hstep : StreamMemory.step moves w l = some w') :
    w'.Ended ∧ w'.events = w.events := by
  obtain ⟨hopen, hsince⟩ := hended
  cases l with
  | «open» fd writeOnly type =>
    obtain ⟨hguard, hstep⟩ := Option.ite_none_right_eq_some.mp hstep
    rw [hok rfl, hguard.1] at hsince
    rcases hsince with hsince | hsince <;> cases hsince
  | write d =>
    dsimp only [StreamMemory.step] at hstep
    split_ifs at hstep with hguard
    obtain rfl := Option.some.inj hstep
    exact ⟨⟨hopen, hsince⟩, rfl⟩
  | consume size =>
    dsimp only [StreamMemory.step] at hstep
    split_ifs at hstep with hguard
    obtain rfl := Option.some.inj hstep
    exact ⟨⟨hopen, hsince⟩, rfl⟩
  | flush =>
    dsimp only [StreamMemory.step] at hstep
    split_ifs at hstep with hguard
    obtain rfl := Option.some.inj hstep
    exact ⟨⟨(HeapStream.isOpen_streamUpdate _ _).trans hopen, hsince⟩, rfl⟩
  | close =>
    dsimp only [StreamMemory.step] at hstep
    split_ifs at hstep with hguard
    obtain rfl := Option.some.inj hstep
    exact ⟨⟨(hw.tracked hguard).streamClose.2.1, hsince⟩, rfl⟩
  | destruct =>
    dsimp only [StreamMemory.step] at hstep
    split_ifs at hstep with hguard
    obtain rfl := Option.some.inj hstep
    exact ⟨⟨(hw.tracked hguard).streamClose.2.1, .inr rfl⟩, rfl⟩
  | call slot result received =>
    obtain ⟨hguard, hstep⟩ := Option.ite_none_right_eq_some.mp hstep
    obtain ⟨user, huser, hcall⟩ := Option.bind_eq_some_iff.mp hstep
    cases user with
    | read => exact absurd ⟨hguard.2, huser⟩ (hw.not_holds_read hopen slot)
    | write => exact absurd ⟨hguard.2, huser⟩ (hw.not_holds_write hopen slot)
    | noop | release base | other n =>
      obtain rfl := Option.some.inj hcall
      exact ⟨⟨hopen, hsince⟩, rfl⟩
  | «return» =>
    obtain ⟨slot, reading, -, ⟨-, -, rfl⟩ | ⟨-, rfl⟩⟩ := StreamMemory.step_return hstep
    · exact ⟨⟨(HeapStream.isOpen_streamUpdate _ _).trans hopen, hsince⟩, rfl⟩
    · exact ⟨⟨hopen, hsince⟩, rfl⟩
  | other l =>
    obtain ⟨m, -, hstep⟩ := Option.map_eq_some_iff.mp hstep
    obtain rfl := hstep
    exact ⟨⟨hopen, hsince⟩, rfl⟩

theorem heap_streamClose (s : HeapStream) (m : BufferMemory) :
    (s.streamClose m).2.heap = m.heap := by
  have hread : (s.closeRead m).2.heap = m.heap := by
    unfold HeapStream.closeRead
    cases s.read <;> rfl
  have hwrite : ∀ (s : HeapStream) (m : BufferMemory), (s.closeWrite m).2.heap = m.heap := by
    intro s m
    unfold HeapStream.closeWrite
    cases s.write <;> rfl
  unfold HeapStream.streamClose
  dsimp only
  split_ifs
  · exact (hwrite _ _).trans hread
  · exact (hwrite _ _).trans hread

structure Lifetime (moves : ℕ → ℕ → Bool) (w : StreamMemory) : Prop where
  freedOnce : w.memory.FreedOnce
  destructed : w.gone = true → w.memory.Settled
  closing : ∀ w', w.step moves .close = some w' → w'.memory.heap = w.memory.heap
  completion : ∀ slot base result received w', w.memory.reactor.Holds slot (.release base) →
    w.step moves (.call slot result received) = some w' →
    w'.memory.heap = w.memory.heap.free base
  silent : w.Ended → ∀ w', Reach (step moves) NotReopened w w' → w'.events = w.events

theorem Owning.lifetime (hw : w.Owning) : w.Lifetime moves where
  freedOnce := hw.freedOnce
  destructed hgone := (hw.idle hgone).settled
  closing w' hstep := by
    obtain ⟨-, hstep⟩ := Option.ite_none_right_eq_some.mp hstep
    obtain rfl := Option.some.inj hstep
    exact heap_streamClose w.stream w.memory
  completion slot base result received w' hslot hstep := by
    obtain ⟨-, hstep⟩ := Option.ite_none_right_eq_some.mp hstep
    obtain ⟨user, huser, hcall⟩ := Option.bind_eq_some_iff.mp hstep
    obtain rfl := Option.some.inj (hslot.2.symm.trans huser)
    obtain rfl := Option.some.inj hcall
    rfl
  silent hended w' hreach := by
    have hrun := hreach.invariant (I := fun w' => w'.Owning ∧ w'.Ended ∧ w'.events = w.events)
      ⟨hw, hended, rfl⟩ fun w₁ l w₂ hi hok hstep => by
        obtain ⟨hended', hevents⟩ := hi.1.ended_step hi.2.1 hok hstep
        exact ⟨hi.1.step hstep, hended', hevents.trans hi.2.2⟩
    exact hrun.2.2

end StreamMemory

namespace ProducerMemory

variable {moves : ℕ → ℕ → Bool} {w w' : ProducerMemory}

theorem Owning.freedOnce (hw : w.Owning) : w.memory.FreedOnce := by
  cases hqueue : w.producer.queue with
  | none => exact (hw.idle hqueue).freedOnce
  | some q =>
    have htracked := hw.tracked q hqueue
    refine htracked.accounted.freedOnce htracked.read htracked.write fun b hb => ?_
    simp only [List.mem_append, Option.mem_toList]
    rcases hb with hb | hb
    · cases hb
    · exact .inl hb

structure Lifetime (moves : ℕ → ℕ → Bool) (w : ProducerMemory) : Prop where
  freedOnce : w.memory.FreedOnce
  destructed : w.gone = true → w.producer.queue = none
  closed : w.producer.queue = none → w.memory.Settled
  completion : ∀ slot base result w', w.memory.reactor.Holds slot (.release base) →
    w.step moves (.call slot result) = some w' → w'.memory.heap = w.memory.heap.free base
  silent : w.producer.queue = none → ∀ slot, ¬w.memory.reactor.Holds slot .write

theorem Owning.lifetime (hw : w.Owning) : w.Lifetime moves where
  freedOnce := hw.freedOnce
  destructed := hw.gone
  closed hqueue := (hw.idle hqueue).settled
  completion slot base result w' hslot hstep := by
    obtain ⟨-, hstep⟩ := Option.ite_none_right_eq_some.mp hstep
    obtain ⟨user, huser, hcall⟩ := Option.bind_eq_some_iff.mp hstep
    obtain rfl := Option.some.inj (hslot.2.symm.trans huser)
    obtain rfl := Option.some.inj hcall
    rfl
  silent hqueue slot := (hw.idle hqueue).write.tracks.not_holds slot

end ProducerMemory

namespace ConsumerMemory

variable {moves : ℕ → ℕ → Bool} {w w' : ConsumerMemory}

def Ended (w : ConsumerMemory) : Prop :=
  w.consumer.queue = none ∧ (w.opened = true ∨ w.gone = true)

theorem Owning.freedOnce (hw : w.Owning) : w.memory.FreedOnce := by
  cases hgone : w.gone with
  | false =>
    have htracked := hw.tracked hgone
    refine htracked.accounted.freedOnce htracked.read htracked.write fun b hb => ?_
    simp only [Option.mem_toList]
    rcases hb with hb | hb
    · exact hb
    · cases hb
  | true => exact (hw.idle hgone).freedOnce

theorem fields_abortRead (w : ConsumerMemory) :
    w.abortRead.pops = w.pops ∧ w.abortRead.opened = w.opened := by
  rw [abortRead_eq]
  exact ⟨rfl, rfl⟩

theorem Owning.ended_step {l : ConsumerCall} (hw : w.Owning) (hended : w.Ended)
    (hok : NotReopened w l) (hstep : ConsumerMemory.step moves w l = some w') :
    w'.Ended ∧ w'.pops = w.pops := by
  obtain ⟨hqueue, hsince⟩ := hended
  obtain ⟨hpops, hopened⟩ := fields_abortRead w
  cases l with
  | «open» q batchSize memory =>
    obtain ⟨hguard, hstep⟩ := Option.ite_none_right_eq_some.mp hstep
    rw [hok rfl, hguard.1] at hsince
    rcases hsince with hsince | hsince <;> cases hsince
  | pop =>
    dsimp only [ConsumerMemory.step] at hstep
    rw [hqueue] at hstep
    split at hstep
    · next hnone =>
      cases hnone
    · cases hstep
  | close =>
    dsimp only [ConsumerMemory.step] at hstep
    split_ifs at hstep with hguard
    obtain rfl := Option.some.inj hstep
    refine ⟨⟨((hw.tracked hguard).close hw.closed).2.1, ?_⟩, hpops⟩
    rcases hsince with hsince | hsince
    · exact .inl (hopened.trans hsince)
    · rw [hguard] at hsince
      cases hsince
  | destruct =>
    dsimp only [ConsumerMemory.step] at hstep
    split_ifs at hstep with hguard
    obtain rfl := Option.some.inj hstep
    exact ⟨⟨((hw.tracked hguard).close hw.closed).2.1, .inr rfl⟩, hpops⟩
  | call slot result =>
    obtain ⟨hguard, hstep⟩ := Option.ite_none_right_eq_some.mp hstep
    obtain ⟨user, huser, hcall⟩ := Option.bind_eq_some_iff.mp hstep
    cases user with
    | read =>
      obtain ⟨q, hsome, -⟩ := Option.bind_eq_some_iff.mp hcall
      rw [hqueue] at hsome
      cases hsome
    | noop | write | release base | other n =>
      obtain rfl := Option.some.inj hcall
      exact ⟨⟨hqueue, hsince⟩, rfl⟩
  | «return» =>
    cases hreading : w.reading with
    | none => simp only [ConsumerMemory.step, hreading, reduceCtorEq] at hstep
    | some x =>
      obtain ⟨slot, rest⟩ := x
      have habort := hw.aborted (by rw [hreading]; rfl) hqueue
      simp only [ConsumerMemory.step, hreading, habort, if_true] at hstep
      obtain rfl := Option.some.inj hstep
      exact ⟨⟨hqueue, hsince⟩, rfl⟩
  | other l =>
    obtain ⟨m, -, hstep⟩ := Option.map_eq_some_iff.mp hstep
    obtain rfl := hstep
    exact ⟨⟨hqueue, hsince⟩, rfl⟩

structure Lifetime (moves : ℕ → ℕ → Bool) (w : ConsumerMemory) : Prop where
  freedOnce : w.memory.FreedOnce
  destructed : w.gone = true → w.memory.Settled
  closing : ∀ w', w.step moves .close = some w' → w'.memory.heap = w.memory.heap
  completion : ∀ slot base result w', w.memory.reactor.Holds slot (.release base) →
    w.step moves (.call slot result) = some w' → w'.memory.heap = w.memory.heap.free base
  silent : w.Ended → ∀ w', Reach (step moves) NotReopened w w' → w'.pops = w.pops

theorem Owning.lifetime (hw : w.Owning) : w.Lifetime moves where
  freedOnce := hw.freedOnce
  destructed hgone := (hw.idle hgone).settled
  closing w' hstep := by
    obtain ⟨-, hstep⟩ := Option.ite_none_right_eq_some.mp hstep
    obtain rfl := Option.some.inj hstep
    show (w.consumer.close w.memory).2.heap = w.memory.heap
    unfold HeapConsumer.close
    cases w.consumer.queue with
    | none => rfl
    | some q => cases w.consumer.read <;> rfl
  completion slot base result w' hslot hstep := by
    obtain ⟨-, hstep⟩ := Option.ite_none_right_eq_some.mp hstep
    obtain ⟨user, huser, hcall⟩ := Option.bind_eq_some_iff.mp hstep
    obtain rfl := Option.some.inj (hslot.2.symm.trans huser)
    obtain rfl := Option.some.inj hcall
    rfl
  silent hended w' hreach := by
    have hrun := hreach.invariant (I := fun w' => w'.Owning ∧ w'.Ended ∧ w'.pops = w.pops)
      ⟨hw, hended, rfl⟩ fun w₁ l w₂ hi hok hstep => by
        obtain ⟨hended', hpops⟩ := hi.1.ended_step hi.2.1 hok hstep
        exact ⟨hi.1.step hstep, hended', hpops.trans hi.2.2⟩
    exact hrun.2.2

end ConsumerMemory

/-- The blocks that were given to the kernel are freed once, when their operation is complete, the
others once as well: those of a stream or a consumer by the destructor, those of a producer by the
first `queue_producer_close`. The user of a closed object hears nothing more. -/
theorem cancelledBuffers_freedOnce {moves : ℕ → ℕ → Bool} {s : StreamMemory} {p : ProducerMemory}
    {c : ConsumerMemory}
    (hs : Reach (StreamMemory.step moves) StreamMemory.NotReopened .construct s)
    (hp : Reach (ProducerMemory.step moves) ProducerMemory.NotReopened .construct p)
    (hc : Reach (ConsumerMemory.step moves) ConsumerMemory.NotReopened .construct c) :
    s.Lifetime moves ∧ p.Lifetime moves ∧ c.Lifetime moves := by
  have hs' : s.Owning := hs.invariant StreamMemory.owning_construct
    fun _ _ _ hw _ hstep => hw.step hstep
  have hp' : p.Owning := hp.invariant ProducerMemory.owning_construct
    fun _ _ _ hw hok hstep => hw.step hok hstep
  have hc' : c.Owning := hc.invariant ConsumerMemory.owning_construct
    fun _ _ _ hw _ hstep => hw.step hstep
  exact ⟨hs'.lifetime, hp'.lifetime, hc'.lifetime⟩

/-- Objects that are closed with their operations in flight, the consumer in its callback. -/
theorem cancelledBuffers_freedOnce_inFlight :
    ∃ s p c, exec (guarded (StreamMemory.step fun _ _ => false) StreamMemory.NotReopened) .construct
        [.open 3 false .socket, .write (str "a"), .flush, .close, .destruct] = some s ∧
      exec (guarded (ProducerMemory.step fun _ _ => false) ProducerMemory.NotReopened) .construct
        [.open ⟨3, 4, 1⟩, .push (str "a"), .push (str "b"), .destruct] = some p ∧
      exec (guarded (ConsumerMemory.step fun _ _ => false) ConsumerMemory.NotReopened) .construct
        [.open ⟨3, 4, 1⟩ 8 (fun _ => 0), .pop, .call 127 2, .pop, .close, .return, .destruct] =
        some c ∧
      s.Lifetime (fun _ _ => false) ∧ p.Lifetime (fun _ _ => false) ∧
      c.Lifetime (fun _ _ => false) := by
  obtain ⟨s, hs⟩ := Option.isSome_iff_exists.mp (show (exec
    (guarded (StreamMemory.step fun _ _ => false) StreamMemory.NotReopened) .construct
    [.open 3 false .socket, .write (str "a"), .flush, .close, .destruct]).isSome = true from rfl)
  obtain ⟨p, hp⟩ := Option.isSome_iff_exists.mp (show (exec
    (guarded (ProducerMemory.step fun _ _ => false) ProducerMemory.NotReopened) .construct
    [.open ⟨3, 4, 1⟩, .push (str "a"), .push (str "b"), .destruct]).isSome = true from rfl)
  obtain ⟨c, hc⟩ := Option.isSome_iff_exists.mp (show (exec
    (guarded (ConsumerMemory.step fun _ _ => false) ConsumerMemory.NotReopened) .construct
    [.open ⟨3, 4, 1⟩ 8 (fun _ => 0), .pop, .call 127 2, .pop, .close, .return,
      .destruct]).isSome = true from rfl)
  exact ⟨s, p, c, hs, hp, hc, cancelledBuffers_freedOnce (.of_guarded hs) (.of_guarded hp)
    (.of_guarded hc)⟩

/-- A producer frees a buffer that the kernel never had before its destructor is called. -/
theorem cancelledBuffers_producerClose :
    ¬ ∀ p : ProducerMemory, Reach (ProducerMemory.step fun _ _ => false) ProducerMemory.NotReopened
        .construct p → p.gone = false → ∀ b ∈ p.memory.heap.freed, ∃ slot,
        p.memory.uses slot = some b := by
  intro hclaim
  obtain ⟨p, hp⟩ := Option.isSome_iff_exists.mp (show (exec
    (guarded (ProducerMemory.step fun _ _ => false) ProducerMemory.NotReopened) .construct
    [.open ⟨3, 4, 1⟩, .push (str "a"), .push (str "b"), .close]).isSome = true from rfl)
  have hstate : (exec (guarded (ProducerMemory.step fun _ _ => false) ProducerMemory.NotReopened)
      .construct [.open ⟨3, 4, 1⟩, .push (str "a"), .push (str "b"), .close]).map
      (fun p => (p.gone, p.memory.heap.freed, p.memory.uses)) =
      some (false, [1], Function.update (fun _ => none) 127 (some 0)) := rfl
  rw [hp, Option.map_some, Option.some.injEq, Prod.mk.injEq, Prod.mk.injEq] at hstate
  obtain ⟨hgone, hfreed, huses⟩ := hstate
  obtain ⟨slot, hslot⟩ := hclaim p (.of_guarded hp) hgone 1 (by rw [hfreed]; exact .head _)
  rw [huses, Function.update_apply] at hslot
  split_ifs at hslot
  cases hslot

end LibReactor
