import LibReactor.StreamReady

/-!
# Streams between events

A stream that is open for reading always has an operation in flight when no handler runs, and
while the kernel has one of its buffers nothing touches that.
-/

namespace LibReactor

open Transition

theorem BufferMemory.not_holds_freeUser (m : BufferMemory) (slot : ℕ) (user : BufferUser) :
    ¬(m.freeUser slot).reactor.Holds slot user := by
  intro hslot
  have hnone : (m.freeUser slot).reactor.users slot = none := Function.update_self ..
  rw [hslot.2] at hnone
  cases hnone

namespace HeapStream

variable {moves : ℕ → ℕ → Bool} {s : HeapStream} {m : BufferMemory}

def Room (s : HeapStream) : Prop :=
  s.read.isSome → s.input.buffer.size + Stream.blockSize ≤ s.input.buffer.capacity

theorem input_streamUpdate (hread : s.read.isSome) :
    (s.streamUpdate moves m).1.input = s.input ∧ (s.streamUpdate moves m).1.read = s.read := by
  unfold streamUpdate
  split_ifs with hidle hblock hflushed hnone
  · exact ⟨rfl, rfl⟩
  · exact ⟨rfl, rfl⟩
  · exact ⟨rfl, rfl⟩
  · rw [Option.isSome_iff_ne_none, ne_eq, ← Option.isNone_iff_eq_none] at hread
    exact absurd hnone.1 hread
  · exact ⟨rfl, rfl⟩

/-- While a write is in flight `stream_update` does nothing. -/
theorem streamUpdate_writing (hwrite : s.write.isSome) : s.streamUpdate moves m = (s, m) := by
  unfold streamUpdate
  rw [if_pos (.inr hwrite)]

theorem flags_streamUpdate (s : HeapStream) (m : BufferMemory) :
    (s.streamUpdate moves m).1.flags = s.flags := by
  have heraseConsumed : s.eraseConsumed.flags = s.flags := by
    unfold eraseConsumed
    split_ifs <;> rfl
  unfold streamUpdate
  split_ifs
  · rfl
  · rfl
  · rfl
  · exact heraseConsumed
  · rfl

theorem size_eraseConsumed (s : HeapStream) :
    s.eraseConsumed.input.buffer.size ≤ s.input.buffer.size := by
  unfold eraseConsumed
  split_ifs
  · exact Nat.le_refl _
  · show (s.input.buffer.erase 0 s.inputConsumed).data.length ≤ s.input.buffer.data.length
    rw [Buffer.data_erase_zero, List.length_drop]
    exact Nat.sub_le _ _

/-- `stream_input` reserves the room, as far as there are blocks of that size. -/
theorem room_streamInput (hsize : s.input.buffer.size + Stream.blockSize ≤ 2 ^ 63) :
    (s.streamInput moves m).1.Room := by
  intro _
  have hle := size_eraseConsumed s
  have hpos : 0 < Stream.blockSize := by decide
  show ((s.eraseConsumed.input.reserve moves
      (s.eraseConsumed.input.buffer.size + Stream.blockSize) m.heap).1.buffer).size +
      Stream.blockSize ≤ ((s.eraseConsumed.input.reserve moves
      (s.eraseConsumed.input.buffer.size + Stream.blockSize) m.heap).1.buffer).capacity
  rw [HeapBuffer.buffer_reserve, Buffer.size_reserve]
  unfold Buffer.reserve
  split_ifs with hgrow
  · exact le_roundup (by omega) (by omega)
  · exact Nat.le_of_not_lt hgrow

theorem room_streamUpdate (h : s.Room)
    (hsize : s.input.buffer.size + Stream.blockSize ≤ 2 ^ 63) :
    (s.streamUpdate moves m).1.Room := by
  unfold streamUpdate
  split_ifs
  · exact h
  · exact h
  · exact h
  · exact room_streamInput hsize
  · exact h

/-- An open stream without the write-only flag has an operation in flight after
`stream_update`. -/
theorem busy_streamUpdate (hopen : s.isOpen = true) (hflags : s.flags = 0) :
    (s.streamUpdate moves m).1.read.isSome ∨ (s.streamUpdate moves m).1.write.isSome := by
  unfold streamUpdate
  split_ifs with hidle hblock hflushed hread
  · exact .inr (hidle.resolve_left (fun hnot => hnot hopen))
  · exact .inr rfl
  · exact .inr rfl
  · exact .inl rfl
  · left
    rw [Option.isSome_iff_ne_none]
    intro hnone
    exact hread ⟨Option.isNone_iff_eq_none.mpr hnone, hflags⟩

end HeapStream

namespace StreamMemory

variable {moves : ℕ → ℕ → Bool} {w w' : StreamMemory}

structure Keeps (w w' : StreamMemory) : Prop where
  writing : ∀ slot, w.memory.reactor.Holds slot .write → w'.memory.reactor.Holds slot .write →
    w'.stream.outputWriting = w.stream.outputWriting
  input : ∀ slot, w.memory.reactor.Holds slot .read → w'.memory.reactor.Holds slot .read →
    w'.stream.input = w.stream.input

theorem keeps_update (hw : w.Owning) {s : HeapStream} (hs : w'.stream = (s.streamUpdate moves
    w.memory).1) (hread : s.read = w.stream.read) (hwrite : s.write = w.stream.write)
    (hinput : s.input = w.stream.input) (hwriting : s.outputWriting = w.stream.outputWriting) :
    w.Keeps w' := by
  constructor
  · intro slot hslot _
    have hsome : s.write.isSome := by
      rw [hwrite, hw.write_of_holds hslot]
      rfl
    rw [hs, HeapStream.streamUpdate_writing hsome]
    exact hwriting
  · intro slot hslot _
    have hsome : s.read.isSome := by
      rw [hread, hw.read_of_holds hslot]
      rfl
    rw [hs, (HeapStream.input_streamUpdate hsome).1]
    exact hinput

theorem keeps_of_eq (hwriting : w'.stream.outputWriting = w.stream.outputWriting)
    (hinput : w'.stream.input = w.stream.input) : w.Keeps w' :=
  ⟨fun _ _ _ => hwriting, fun _ _ _ => hinput⟩

theorem Owning.keeps_closed (hw' : w'.Owning) (hopen : w'.stream.isOpen = false) : w.Keeps w' :=
  ⟨fun slot _ hslot => absurd hslot (hw'.not_holds_write hopen slot),
    fun slot _ hslot => absurd hslot (hw'.not_holds_read hopen slot)⟩

theorem Owning.keeps_call (hw : w.Owning) (hw' : w'.Owning) {slot : ℕ} {user : BufferUser}
    {result : ℤ} {received : Bytes} (hslot : w.memory.reactor.Holds slot user)
    (hcall : w.call moves slot result received user = some w') : w.Keeps w' := by
  cases user with
  | read =>
    have hread : w'.stream.read = none ∧ w'.stream.outputWriting = w.stream.outputWriting := by
      dsimp only [StreamMemory.call] at hcall
      unfold StreamMemory.streamRecv at hcall
      dsimp only at hcall
      split_ifs at hcall
      · obtain rfl := Option.some.inj hcall
        exact ⟨rfl, rfl⟩
      · obtain rfl := Option.some.inj hcall
        exact ⟨rfl, rfl⟩
    refine ⟨fun _ _ _ => hread.2, fun slot' _ hslot' => ?_⟩
    rw [hw'.read_of_holds hslot'] at hread
    cases hread.1
  | write =>
    dsimp only [StreamMemory.call] at hcall
    unfold StreamMemory.streamSend at hcall
    dsimp only at hcall
    split_ifs at hcall
    · obtain rfl := Option.some.inj hcall
      refine ⟨fun slot' _ hslot' => ?_, fun _ _ _ => rfl⟩
      have hwrite := hw'.write_of_holds hslot'
      cases hwrite
    · obtain rfl := Option.some.inj hcall
      constructor
      · intro slot' hold hnew
        -- the slot of the write that is complete is free again
        obtain rfl : slot' = slot := by
          have hwrite := (hw.write_of_holds hold).symm.trans (hw.write_of_holds hslot)
          exact congrArg Id.slot (Option.some.inj hwrite)
        exact absurd hnew (BufferMemory.not_holds_freeUser _ _ _)
      · intro slot' hold _
        exact (HeapStream.input_streamUpdate (s := { w.stream with
          write := none
          outputOffset := w.stream.outputOffset + result.toNat
          outputPartial := if w.stream.outputPartial + result.toNat =
            w.stream.outputWriting.buffer.size then 0
            else w.stream.outputPartial + result.toNat })
          (by rw [hw.read_of_holds hold]; rfl)).1
  | noop | release base | other n =>
    obtain rfl := Option.some.inj hcall
    exact keeps_of_eq rfl rfl

/-- No call touches a buffer that the kernel has before and after it. -/
theorem Owning.keeps_step {l : StreamCall} (hw : w.Owning)
    (hstep : StreamMemory.step moves w l = some w') : w.Keeps w' := by
  have hw' := hw.step hstep
  cases l with
  | «open» fd writeOnly type =>
    obtain ⟨hguard, hstep⟩ := Option.ite_none_right_eq_some.mp hstep
    exact ⟨fun slot hslot _ => absurd hslot (hw.not_holds_write hguard.2 slot),
      fun slot hslot _ => absurd hslot (hw.not_holds_read hguard.2 slot)⟩
  | write d =>
    dsimp only [StreamMemory.step] at hstep
    split_ifs at hstep with hguard
    obtain rfl := Option.some.inj hstep
    exact keeps_of_eq rfl rfl
  | consume size =>
    dsimp only [StreamMemory.step] at hstep
    split_ifs at hstep with hguard
    obtain rfl := Option.some.inj hstep
    exact keeps_of_eq rfl rfl
  | flush =>
    dsimp only [StreamMemory.step] at hstep
    split_ifs at hstep with hguard
    obtain rfl := Option.some.inj hstep
    exact keeps_update hw rfl rfl rfl rfl rfl
  | close =>
    dsimp only [StreamMemory.step] at hstep
    split_ifs at hstep with hguard
    obtain rfl := Option.some.inj hstep
    exact hw'.keeps_closed (hw.tracked hguard).streamClose.2.1
  | destruct =>
    dsimp only [StreamMemory.step] at hstep
    split_ifs at hstep with hguard
    obtain rfl := Option.some.inj hstep
    exact hw'.keeps_closed (hw.tracked hguard).streamClose.2.1
  | call slot result received =>
    obtain ⟨hguard, hstep⟩ := Option.ite_none_right_eq_some.mp hstep
    obtain ⟨user, huser, hcall⟩ := Option.bind_eq_some_iff.mp hstep
    exact hw.keeps_call hw' ⟨hguard.2, huser⟩ hcall
  | «return» =>
    obtain ⟨slot, reading, -, ⟨-, -, rfl⟩ | ⟨-, rfl⟩⟩ := StreamMemory.step_return hstep
    · exact keeps_update hw rfl rfl rfl rfl rfl
    · exact keeps_of_eq rfl rfl
  | other l =>
    obtain ⟨m, -, hstep⟩ := Option.map_eq_some_iff.mp hstep
    obtain rfl := hstep
    exact keeps_of_eq rfl rfl

/-- There are blocks of the size that the next read asks for; `realloc` gives out none that is
larger than half of the address space. -/
def Allocatable (w : StreamMemory) : Prop :=
  w.stream.input.buffer.size + Stream.blockSize ≤ 2 ^ 63

instance (w : StreamMemory) : Decidable w.Allocatable := inferInstanceAs (Decidable (_ ≤ _))

/-- The invariant: an open stream waits for the kernel, unless its user was told of an error. -/
structure Live (w : StreamMemory) : Prop extends Steady w where
  flags : w.stream.flags = 0 ∨ w.stream.flags = Stream.writeOnly
  room : w.stream.Room
  failed : ∀ slot, w.running = some (slot, false) → ∃ e ∈ w.events, e ≠ .read
  destructed : w.aborted = true → ∀ slot, w.running = some (slot, true) → w.gone = true
  busy : w.stream.isOpen = true → w.stream.flags = 0 → (∀ e ∈ w.events, e = .read) →
    w.running = none → w.stream.read.isSome ∨ w.stream.write.isSome

theorem live_construct : construct.Live where
  toSteady := steady_construct
  flags := .inl rfl
  room := nofun
  failed := nofun
  destructed := nofun
  busy := nofun

theorem Live.same (hw : w.Live) (hsteady : w'.Steady) (hrunning : w'.running = w.running)
    (hevents : w'.events = w.events) (haborted : w'.aborted = w.aborted) (hgone : w'.gone = w.gone)
    (hflags : w'.stream.flags = w.stream.flags) (hopen : w'.stream.isOpen = w.stream.isOpen)
    (hread : w'.stream.read = w.stream.read) (hinput : w'.stream.input = w.stream.input)
    (hwrite : w'.stream.write = w.stream.write) : w'.Live where
  toSteady := hsteady
  flags := hflags ▸ hw.flags
  room := by
    intro hsome
    rw [hread] at hsome
    rw [hinput]
    exact hw.room hsome
  failed := by
    rw [hrunning, hevents]
    exact hw.failed
  destructed := by
    rw [haborted, hrunning, hgone]
    exact hw.destructed
  busy := by
    rw [hopen, hflags, hevents, hrunning, hread, hwrite]
    exact hw.busy

theorem live_update {s : HeapStream} {m : BufferMemory} (hsteady : w'.Steady)
    (hs : w'.stream = (s.streamUpdate moves m).1)
    (hflags : s.flags = 0 ∨ s.flags = Stream.writeOnly)
    (hroom : s.Room) (hsize : s.input.buffer.size + Stream.blockSize ≤ 2 ^ 63)
    (hfailed : ∀ slot, w'.running = some (slot, false) → ∃ e ∈ w'.events, e ≠ .read)
    (hdestructed : w'.aborted = true → ∀ slot, w'.running = some (slot, true) → w'.gone = true) :
    w'.Live where
  toSteady := hsteady
  flags := by
    rw [hs, HeapStream.flags_streamUpdate]
    exact hflags
  room := by
    rw [hs]
    exact HeapStream.room_streamUpdate hroom hsize
  failed := hfailed
  destructed := hdestructed
  busy hopen hzero _ _ := by
    rw [hs] at hopen hzero ⊢
    rw [HeapStream.isOpen_streamUpdate] at hopen
    rw [HeapStream.flags_streamUpdate] at hzero
    exact HeapStream.busy_streamUpdate hopen hzero

theorem live_notify {slot : ℕ} {reading : Bool} {event : StreamEvent}
    (hsteady : (w.notify slot reading event).Steady)
    (hflags : w.stream.flags = 0 ∨ w.stream.flags = Stream.writeOnly) (hroom : w.stream.Room)
    (hevent : reading = false → event ≠ .read) (haborted : reading = true → w.aborted = false) :
    (w.notify slot reading event).Live where
  toSteady := hsteady
  flags := hflags
  room := hroom
  failed slot' hrunning := by
    obtain ⟨-, rfl⟩ := Prod.mk.inj (Option.some.inj hrunning)
    exact ⟨event, List.mem_append_right _ (.head _), hevent rfl⟩
  destructed habort slot' hrunning := by
    obtain ⟨-, rfl⟩ := Prod.mk.inj (Option.some.inj hrunning)
    rw [show w.aborted = true from habort] at haborted
    cases haborted rfl
  busy := nofun

theorem Live.call (hw : w.Live) (hrunning : w.running = none) (hsize : w.Allocatable) {slot : ℕ}
    {user : BufferUser} {result : ℤ} {received : Bytes}
    (hslot : w.memory.reactor.Holds slot user)
    (hcall : w.call moves slot result received user = some w') : w'.Live := by
  have hsteady := hw.toSteady.call hrunning hslot hcall
  cases user with
  | read =>
    dsimp only [StreamMemory.call] at hcall
    unfold StreamMemory.streamRecv at hcall
    dsimp only at hcall
    split_ifs at hcall with hresult
    · obtain rfl := Option.some.inj hcall
      refine live_notify hsteady hw.flags nofun (fun _ => ?_) nofun
      unfold Stream.recvEvent
      split_ifs <;> nofun
    · obtain rfl := Option.some.inj hcall
      exact live_notify hsteady hw.flags nofun nofun fun _ => rfl
  | write =>
    dsimp only [StreamMemory.call] at hcall
    unfold StreamMemory.streamSend at hcall
    dsimp only at hcall
    split_ifs at hcall
    · obtain rfl := Option.some.inj hcall
      exact live_notify hsteady hw.flags hw.room (fun _ => nofun) nofun
    · obtain rfl := Option.some.inj hcall
      exact live_update hsteady rfl hw.flags hw.room hsize hw.failed hw.destructed
  | noop | release base | other n =>
    obtain rfl := Option.some.inj hcall
    exact hw.same hsteady rfl rfl rfl rfl rfl rfl rfl rfl rfl

theorem live_closed (hsteady : w.Steady) (hopen : w.stream.isOpen = false)
    (hflags : w.stream.flags = 0 ∨ w.stream.flags = Stream.writeOnly)
    (hfailed : ∀ slot, w.running = some (slot, false) → ∃ e ∈ w.events, e ≠ .read)
    (hdestructed : w.aborted = true → ∀ slot, w.running = some (slot, true) → w.gone = true) :
    w.Live where
  toSteady := hsteady
  flags := hflags
  room hsome := by
    rw [(hsteady.closed hopen).1] at hsome
    cases hsome
  failed := hfailed
  destructed := hdestructed
  busy hnot := by
    rw [hopen] at hnot
    cases hnot

theorem flags_streamClose (s : HeapStream) (m : BufferMemory) :
    (s.streamClose m).1.flags = s.flags := by
  have hread : (s.closeRead m).1.flags = s.flags := by
    unfold HeapStream.closeRead
    cases s.read <;> rfl
  have hwrite : ∀ (s : HeapStream) (m : BufferMemory), (s.closeWrite m).1.flags = s.flags := by
    intro s m
    unfold HeapStream.closeWrite
    cases s.write <;> rfl
  unfold HeapStream.streamClose
  dsimp only
  split_ifs
  · exact (hwrite _ _).trans hread
  · exact (hwrite _ _).trans hread

/-- The user returns to the handler. -/
theorem Live.return (hw : w.Live) (hsize : w.Allocatable) (hsteady : w'.Steady)
    (hstep : StreamMemory.step moves w .return = some w') : w'.Live := by
  obtain ⟨slot, reading, hrunning, ⟨-, -, rfl⟩ | ⟨hguard, rfl⟩⟩ := StreamMemory.step_return hstep
  · exact live_update hsteady rfl hw.flags hw.room hsize nofun nofun
  · refine ⟨hsteady, hw.flags, hw.room, nofun, nofun, fun hopen _ hevents _ => ?_⟩
    cases reading with
    | false =>
      obtain ⟨e, hmem, hne⟩ := hw.failed slot hrunning
      exact absurd (hevents e hmem) hne
    | true =>
      have habort : w.aborted = true := by simpa using hguard
      have hclosed := hw.gone (hw.destructed habort slot hrunning)
      rw [show w.stream.isOpen = true from hopen] at hclosed
      cases hclosed

/-- The step lemma. -/
theorem Live.step {l : StreamCall} (hw : w.Live) (hok : w.Reopenable l) (hsize : w.Allocatable)
    (hstep : StreamMemory.step moves w l = some w') : w'.Live := by
  have hsteady := hw.toSteady.step hok hstep
  cases l with
  | «open» fd writeOnly type =>
    obtain ⟨hguard, hstep⟩ := Option.ite_none_right_eq_some.mp hstep
    obtain rfl := Option.some.inj hstep
    refine live_update hsteady rfl ?_ ?_ hsize hw.failed hw.destructed
    · cases writeOnly with
      | false => exact .inl rfl
      | true => exact .inr rfl
    · intro hsome
      rw [show _ = w.stream.read from rfl, (hw.closed hguard.2).1] at hsome
      cases hsome
  | write d =>
    dsimp only [StreamMemory.step] at hstep
    split_ifs at hstep with hguard
    obtain rfl := Option.some.inj hstep
    exact hw.same hsteady rfl rfl rfl rfl rfl rfl rfl rfl rfl
  | consume size =>
    dsimp only [StreamMemory.step] at hstep
    split_ifs at hstep with hguard
    obtain rfl := Option.some.inj hstep
    exact hw.same hsteady rfl rfl rfl rfl rfl rfl rfl rfl rfl
  | flush =>
    dsimp only [StreamMemory.step] at hstep
    split_ifs at hstep with hguard
    obtain rfl := Option.some.inj hstep
    exact live_update hsteady rfl hw.flags hw.room hsize hw.failed hw.destructed
  | close =>
    dsimp only [StreamMemory.step] at hstep
    split_ifs at hstep with hguard
    obtain rfl := Option.some.inj hstep
    refine live_closed hsteady (hw.tracked hguard).streamClose.2.1 ?_ hw.failed hw.destructed
    rw [flags_streamClose]
    exact hw.flags
  | destruct =>
    dsimp only [StreamMemory.step] at hstep
    split_ifs at hstep with hguard
    obtain rfl := Option.some.inj hstep
    refine live_closed hsteady (hw.tracked hguard).streamClose.2.1 ?_ hw.failed fun _ _ _ => rfl
    rw [flags_streamClose]
    exact hw.flags
  | call slot result received =>
    obtain ⟨hguard, hstep⟩ := Option.ite_none_right_eq_some.mp hstep
    obtain ⟨user, huser, hcall⟩ := Option.bind_eq_some_iff.mp hstep
    exact hw.call hguard.1 hsize ⟨hguard.2, huser⟩ hcall
  | «return» => exact hw.return hsize hsteady hstep
  | other l =>
    obtain ⟨m, -, hstep⟩ := Option.map_eq_some_iff.mp hstep
    obtain rfl := hstep
    exact hw.same hsteady rfl rfl rfl rfl rfl rfl rfl rfl rfl

/-- In every run of a stream at most one read and one write are in flight. Between events, as long
as the stream is open without the write-only flag and its user has heard of no error and no end, at
least one of them is. The block that is being written stays as it is, so does the input while it is
read to, and that has room for a whole block. -/
theorem stream_neverStalls (h : Reach (step moves) (fun w l => w.Reopenable l ∧ w.Allocatable)
    construct w) :
    (∀ slot slot', w.memory.reactor.Holds slot .read → w.memory.reactor.Holds slot' .read →
      slot = slot') ∧
    (∀ slot slot', w.memory.reactor.Holds slot .write → w.memory.reactor.Holds slot' .write →
      slot = slot') ∧
    (w.running = none → w.stream.isOpen = true → w.stream.flags &&& Stream.writeOnly = 0 →
      (∀ e ∈ w.events, e = .read) →
      ∃ slot, w.memory.reactor.Holds slot .read ∨ w.memory.reactor.Holds slot .write) ∧
    (∀ slot, w.memory.reactor.Holds slot .read →
      w.stream.input.buffer.size + Stream.blockSize ≤ w.stream.input.buffer.capacity) ∧
    ∀ l w', step moves w l = some w' → w.Keeps w' := by
  have hw : w.Live := h.invariant live_construct
    fun _ _ _ hw hok hstep => hw.step hok.1 hok.2 hstep
  refine ⟨?_, ?_, ?_, ?_, fun l w' hstep => hw.keeps_step hstep⟩
  · intro slot slot' hslot hslot'
    have heq := (hw.read_of_holds hslot).symm.trans (hw.read_of_holds hslot')
    exact congrArg Id.slot (Option.some.inj heq)
  · intro slot slot' hslot hslot'
    have heq := (hw.write_of_holds hslot).symm.trans (hw.write_of_holds hslot')
    exact congrArg Id.slot (Option.some.inj heq)
  · intro hrunning hopen hflags hevents
    have hzero : w.stream.flags = 0 := by
      rcases hw.flags with hzero | hone
      · exact hzero
      · rw [hone] at hflags
        cases hflags
    have htracked := hw.tracked (hw.not_gone hopen)
    rcases hw.busy hopen hzero hevents hrunning with hsome | hsome
    · obtain ⟨id, hid⟩ := Option.isSome_iff_exists.mp hsome
      have hread := htracked.read
      rw [hid] at hread
      exact ⟨id.slot, .inl hread.tracks.holds_slot⟩
    · obtain ⟨id, hid⟩ := Option.isSome_iff_exists.mp hsome
      have hwrite := htracked.write
      rw [hid] at hwrite
      exact ⟨id.slot, .inr hwrite.tracks.holds_slot⟩
  · intro slot hslot
    apply hw.room
    rw [hw.read_of_holds hslot]
    rfl

/-- A stream that is flushed in the callback for its first bytes, with the write complete. -/
theorem stream_neverStalls_flushInside :
    ∃ w, exec (guarded (step fun _ _ => false) fun w l => w.Reopenable l ∧ w.Allocatable) construct
        [.open 3 false .socket, .call 127 2 (str "ab"), .consume 2, .write (str "c"), .flush,
          .return, .call 126 1 []] = some w ∧
      ∃ slot, w.memory.reactor.Holds slot .read ∨ w.memory.reactor.Holds slot .write := by
  obtain ⟨w, hw⟩ := Option.isSome_iff_exists.mp (show (exec
    (guarded (step fun _ _ => false) fun w l => w.Reopenable l ∧ w.Allocatable) construct
    [.open 3 false .socket, .call 127 2 (str "ab"), .consume 2, .write (str "c"), .flush,
      .return, .call 126 1 []]).isSome = true from rfl)
  have hstate : (exec
      (guarded (step fun _ _ => false) fun w l => w.Reopenable l ∧ w.Allocatable) construct
      [.open 3 false .socket, .call 127 2 (str "ab"), .consume 2, .write (str "c"), .flush,
        .return, .call 126 1 []]).map
      (fun w => (w.running, w.stream.isOpen, w.stream.flags, w.events)) =
      some (none, true, 0, [.read]) := rfl
  rw [hw, Option.map_some, Option.some.injEq, Prod.mk.injEq, Prod.mk.injEq, Prod.mk.injEq]
    at hstate
  obtain ⟨hrunning, hopen, hflags, hevents⟩ := hstate
  refine ⟨w, hw, (stream_neverStalls (.of_guarded hw)).2.2.1 hrunning hopen ?_ ?_⟩
  · rw [hflags]
    rfl
  · rw [hevents]
    exact List.forall_mem_singleton.mpr rfl

end StreamMemory

end LibReactor
