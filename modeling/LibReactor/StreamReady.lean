import LibReactor.StreamBuffers

/-!
# What an open stream has given to the kernel

The write of a stream offers the rest of the block that is being written, and its offsets stay
within its buffers.
-/

namespace LibReactor

open Transition

namespace BufferMemory

def Offers (m : BufferMemory) (slot : ℕ) (data : Bytes) : Prop :=
  ∃ op, (slot, op) ∈ m.reactor.ring ∧ op.output = some data

variable {m m' : BufferMemory} {held : List ℕ} {slot slot' : ℕ} {data : Bytes}

theorem Offers.submit (h : m.Offers slot data) (op : Op) (user : BufferUser) (base : Option ℕ) :
    (m.submit op user base).2.Offers slot data := by
  obtain ⟨op', hmem, hop⟩ := h
  refine ⟨op', ?_, hop⟩
  show (slot, op') ∈ (m.reactor.submit op user).2.ring
  rw [Reactor.ring_submit]
  exact List.mem_append_left _ hmem

theorem offers_submit (op : Op) (user : BufferUser) (base : Option ℕ)
    (hop : op.output = some data) :
    (m.submit op user base).2.Offers (m.submit op user base).1.slot data := by
  refine ⟨op, ?_, hop⟩
  show _ ∈ (m.reactor.submit op user).2.ring
  rw [Reactor.ring_submit]
  exact List.mem_append_right _ (.head _)

theorem Offers.take (hwf : m.reactor.WellFormed held) (h : m.Offers slot data)
    (hne : slot ≠ slot') : (m.take slot').Offers slot data := by
  obtain ⟨op, hmem, hop⟩ := h
  exact ⟨op, hwf.mem_takeRing.mpr ⟨hmem, hne⟩, hop⟩

theorem Offers.otherStep {l : OtherLabel} (h : m.Offers slot data)
    (hstep : m.otherStep l = some m') : m'.Offers slot data := by
  obtain ⟨op, hmem, hop⟩ := h
  refine ⟨op, ?_, hop⟩
  cases l with
  | next n =>
    cases hstep
    show _ ∈ (m.reactor.poolRefill.ring)
    unfold Reactor.poolRefill
    split_ifs <;> exact hmem
  | submit op' n =>
    cases hstep
    show _ ∈ (m.reactor.submit op' (.other n)).2.ring
    rw [Reactor.ring_submit]
    exact List.mem_append_left _ hmem
  | cancel id n =>
    dsimp only [BufferMemory.otherStep] at hstep
    split at hstep
    · cases hstep
      show _ ∈ (m.reactor.reactorCancel .noop id (.other n)).ring
      rw [Reactor.reactorCancel_eq]
      split_ifs
      · exact hmem
      · rw [Reactor.ring_submit]
        exact List.mem_append_left _ hmem
    · cases hstep

end BufferMemory

namespace HeapStream

variable {moves : ℕ → ℕ → Bool} {s : HeapStream} {m : BufferMemory}

/-- The offsets are within the buffers. `stream_close` leaves them behind when it gives a buffer
away. -/
def InRange (s : HeapStream) : Prop :=
  s.inputConsumed ≤ s.input.buffer.size ∧
    (s.outputPartial = 0 ∨ s.outputPartial < s.outputWriting.buffer.size)

instance (s : HeapStream) : Decidable s.InRange := inferInstanceAs (Decidable (_ ∧ _))

def rest (s : HeapStream) : Bytes := s.outputWriting.buffer.data.drop s.outputPartial

/-- An open stream whose write, if there is one, offers the rest of the block. -/
structure Ready (s : HeapStream) (m : BufferMemory) : Prop where
  inRange : s.InRange
  offers : ∀ id, s.write = some id → s.rest ≠ [] ∧ m.Offers id.slot s.rest

theorem rest_ne_nil (h : s.outputPartial < s.outputWriting.buffer.size) : s.rest ≠ [] := by
  intro hnil
  have hlength := congrArg List.length hnil
  rw [rest, List.length_drop, List.length_nil] at hlength
  have hlt : s.outputPartial < s.outputWriting.buffer.data.length := h
  omega

/-- Only the output of a stream and its write matter to what it offers. -/
theorem Ready.congr (h : s.Ready m) {s' : HeapStream} {m' : BufferMemory}
    (hinput : s'.inputConsumed ≤ s'.input.buffer.size) (hpart : s'.outputPartial = s.outputPartial)
    (hwriting : s'.outputWriting = s.outputWriting) (hwrite : s'.write = s.write)
    (hoffers : ∀ id, s.write = some id → m.Offers id.slot s.rest → m'.Offers id.slot s.rest) :
    s'.Ready m' := by
  have hrest : s'.rest = s.rest := by rw [rest, rest, hpart, hwriting]
  constructor
  · exact ⟨hinput, by rw [hpart, hwriting]; exact h.inRange.2⟩
  · intro id hid
    rw [hwrite] at hid
    rw [hrest]
    exact ⟨(h.offers id hid).1, hoffers id hid (h.offers id hid).2⟩

theorem Ready.setHeap (h : s.Ready m) (heap : Allocator) : s.Ready { m with heap := heap } :=
  ⟨h.inRange, h.offers⟩

theorem inputConsumed_eraseConsumed (s : HeapStream) : s.eraseConsumed.inputConsumed = 0 := by
  unfold eraseConsumed
  split_ifs with hconsumed
  · exact hconsumed
  · rfl

theorem output_eraseConsumed (s : HeapStream) :
    s.eraseConsumed.outputPartial = s.outputPartial ∧
      s.eraseConsumed.outputWriting = s.outputWriting ∧ s.eraseConsumed.write = s.write ∧
      s.eraseConsumed.outputWaiting = s.outputWaiting ∧
      s.eraseConsumed.outputFlushed = s.outputFlushed := by
  unfold eraseConsumed
  split_ifs <;> exact ⟨rfl, rfl, rfl, rfl, rfl⟩

theorem Ready.streamInput (h : s.Ready m) :
    (s.streamInput moves m).1.Ready (s.streamInput moves m).2 := by
  obtain ⟨hpart, hwriting, hwrite, -⟩ := output_eraseConsumed s
  apply h.congr
  · show s.eraseConsumed.inputConsumed ≤ _
    rw [inputConsumed_eraseConsumed]
    exact Nat.zero_le _
  · exact hpart
  · exact hwriting
  · exact hwrite
  · intro id _ hoffers
    have hoffers' : BufferMemory.Offers { m with
        heap := (s.eraseConsumed.input.reserve moves
          (s.eraseConsumed.input.buffer.size + Stream.blockSize) m.heap).2 } id.slot s.rest :=
      hoffers
    exact hoffers'.submit _ _ _

theorem Ready.streamOutput (h : s.Ready m)
    (hblock : s.outputPartial < s.outputWriting.buffer.size) :
    (s.streamOutput m).1.Ready (s.streamOutput m).2 := by
  constructor
  · exact h.inRange
  · rintro id ⟨⟩
    refine ⟨rest_ne_nil (s := s) hblock, BufferMemory.offers_submit _ _ _ ?_⟩
    cases s.type <;> rfl

variable (moves) in
/-- The flushed bytes are a block that is not written yet. -/
theorem Ready.switchOutput (h : s.Ready m) (hwrite : s.write = none) (heap : Allocator) :
    (s.switchOutput moves heap).1.Ready m := by
  constructor
  · exact ⟨h.inRange.1, .inl rfl⟩
  · intro id hid
    rw [show (s.switchOutput moves heap).1.write = s.write from rfl, hwrite] at hid
    cases hid

theorem rest_switchOutput (s : HeapStream) (heap : Allocator) :
    (s.switchOutput moves heap).1.rest =
      s.outputWaiting.buffer.data.take s.outputFlushed := by
  show ((s.outputWaiting.buffer.resize s.outputFlushed []).data).drop 0 = _
  rw [Buffer.data_resize, List.append_nil, List.drop_zero]

theorem block_switchOutput (hle : s.outputFlushed ≤ s.outputWaiting.buffer.size)
    (hflushed : s.outputFlushed ≠ 0) (heap : Allocator) :
    (s.switchOutput moves heap).1.outputPartial <
      (s.switchOutput moves heap).1.outputWriting.buffer.size := by
  show 0 < ((s.outputWaiting.buffer.resize s.outputFlushed []).data).length
  rw [Buffer.data_resize, List.append_nil, List.length_take]
  have hle' : s.outputFlushed ≤ s.outputWaiting.buffer.data.length := hle
  omega

theorem Ready.streamUpdate (h : s.Ready m)
    (hle : s.outputFlushed ≤ s.outputWaiting.buffer.size) :
    (s.streamUpdate moves m).1.Ready (s.streamUpdate moves m).2 := by
  unfold HeapStream.streamUpdate
  by_cases hidle : ¬ s.isOpen ∨ s.write.isSome
  · rw [if_pos hidle]
    exact h
  · rw [if_neg hidle]
    have hwrite : s.write = none := by simpa using (not_or.mp hidle).2
    split_ifs with hblock hflushed hread
    · exact h.streamOutput (h.inRange.2.resolve_left hblock)
    · have hswitch := h.switchOutput moves hwrite m.heap
      exact (hswitch.setHeap _).streamOutput (block_switchOutput hle hflushed m.heap)
    · exact h.streamInput
    · exact h

theorem flushed_streamUpdate (hle : s.outputFlushed ≤ s.outputWaiting.buffer.size) :
    (s.streamUpdate moves m).1.outputFlushed ≤
      (s.streamUpdate moves m).1.outputWaiting.buffer.size := by
  obtain ⟨-, -, -, hwaiting, hflushed⟩ := output_eraseConsumed s
  unfold streamUpdate
  split_ifs
  · exact hle
  · exact hle
  · exact Nat.zero_le _
  · show s.eraseConsumed.outputFlushed ≤ s.eraseConsumed.outputWaiting.buffer.size
    rw [hwaiting, hflushed]
    exact hle
  · exact hle

theorem output_streamClose (s : HeapStream) (m : BufferMemory) :
    (s.streamClose m).1.outputWaiting = s.outputWaiting ∧
      (s.streamClose m).1.outputFlushed = s.outputFlushed := by
  have hread : (s.closeRead m).1.outputWaiting = s.outputWaiting ∧
      (s.closeRead m).1.outputFlushed = s.outputFlushed := by
    unfold closeRead
    cases s.read <;> exact ⟨rfl, rfl⟩
  have hwrite : ∀ (s : HeapStream) (m : BufferMemory),
      (s.closeWrite m).1.outputWaiting = s.outputWaiting ∧
        (s.closeWrite m).1.outputFlushed = s.outputFlushed := by
    intro s m
    unfold closeWrite
    cases s.write <;> exact ⟨rfl, rfl⟩
  obtain ⟨hwaiting, hflushed⟩ := hwrite (s.closeRead m).1 (s.closeRead m).2
  unfold streamClose
  dsimp only
  split_ifs
  · exact ⟨hwaiting.trans hread.1, hflushed.trans hread.2⟩
  · exact ⟨hwaiting.trans hread.1, hflushed.trans hread.2⟩

theorem streamClose_closed (hopen : s.isOpen = false) (hread : s.read = none)
    (hwrite : s.write = none) : s.streamClose m = (s, m) := by
  have hfd : ¬ 0 ≤ s.fd := by simpa [isOpen] using hopen
  have hcloseRead : s.closeRead m = (s, m) := by
    unfold closeRead
    rw [hread]
  have hcloseWrite : s.closeWrite m = (s, m) := by
    unfold closeWrite
    rw [hwrite]
  unfold streamClose
  simp only [hcloseRead, hcloseWrite, if_neg hfd]

theorem isOpen_sendDone (s : HeapStream) (n : ℕ) (m : BufferMemory) :
    (s.sendDone moves n m).1.isOpen = s.isOpen := isOpen_streamUpdate _ _

/-- `stream_send` on a positive result, for bytes that were offered. -/
theorem ready_sendDone (moves : ℕ → ℕ → Bool) (hrange : s.InRange) (hrest : s.rest ≠ [])
    (hle : s.outputFlushed ≤ s.outputWaiting.buffer.size) {n : ℕ} (hn : n ≤ s.rest.length) :
    (s.sendDone moves n m).1.Ready (s.sendDone moves n m).2 := by
  have hlt : s.outputPartial < s.outputWriting.buffer.size := by
    by_contra hge
    exact hrest (List.drop_eq_nil_of_le (Nat.le_of_not_lt hge))
  have hlength : s.rest.length = s.outputWriting.buffer.size - s.outputPartial := List.length_drop
  rw [hlength] at hn
  apply Ready.streamUpdate
  · constructor
    · refine ⟨hrange.1, ?_⟩
      by_cases hall : s.outputPartial + n = s.outputWriting.buffer.size
      · rw [if_pos hall]
        exact .inl rfl
      · rw [if_neg hall]
        have hsum : s.outputPartial + n < s.outputWriting.buffer.size := by omega
        exact .inr hsum
    · intro id' hid'
      cases hid'
  · exact hle

end HeapStream

namespace StreamMemory

variable {moves : ℕ → ℕ → Bool} {w w' : StreamMemory}

/-- A stream that was closed is opened again only if its offsets are within its buffers. -/
def Reopenable (w : StreamMemory) (l : StreamCall) : Prop :=
  l.opens = true → w.opened = true → w.stream.InRange

instance (w : StreamMemory) (l : StreamCall) : Decidable (w.Reopenable l) :=
  inferInstanceAs (Decidable (_ → _ → _))

/-- The invariant: what an open stream has given to the kernel is the rest of its block. -/
structure Steady (w : StreamMemory) : Prop extends Owning w where
  fresh : w.opened = false → w.stream.isOpen = false ∧ w.stream.InRange
  flushed : w.stream.outputFlushed ≤ w.stream.outputWaiting.buffer.size
  ready : w.stream.isOpen = true → w.stream.Ready w.memory

theorem steady_construct : construct.Steady where
  toOwning := owning_construct
  fresh _ := ⟨rfl, Nat.zero_le _, .inl rfl⟩
  flushed := Nat.zero_le _
  ready := nofun

theorem Steady.offered (hw : w.Steady) {id : Id} (hwrite : w.stream.write = some id) :
    w.offered id.slot = w.stream.rest := by
  obtain ⟨-, op, hmem, hop⟩ := (hw.ready (hw.isOpen_of_write hwrite)).offers id hwrite
  have hfind : (w.memory.reactor.ring.find? fun entry => entry.1 == id.slot).isSome := by
    rw [List.find?_isSome]
    exact ⟨_, hmem, beq_self_eq_true _⟩
  obtain ⟨⟨slot, op'⟩, hfind⟩ := Option.isSome_iff_exists.mp hfind
  obtain rfl : slot = id.slot := by simpa using List.find?_some hfind
  obtain rfl := hw.wellFormed.entry_unique hmem (List.mem_of_find?_eq_some hfind)
  rw [StreamMemory.offered, hfind, Option.bind_some, hop, Option.getD_some]

theorem Steady.memory (hw : w.Steady) {m : BufferMemory} (howning : Owning { w with memory := m })
    (hoffers : ∀ id, w.stream.write = some id → w.memory.Offers id.slot w.stream.rest →
      m.Offers id.slot w.stream.rest) : Steady { w with memory := m } where
  toOwning := howning
  fresh := hw.fresh
  flushed := hw.flushed
  ready hopen := (hw.ready hopen).congr (hw.ready hopen).inRange.1 rfl rfl rfl hoffers

theorem Owning.write_ne (hw : w.Owning) {id : Id} (hwrite : w.stream.write = some id) {slot : ℕ}
    {user : BufferUser} (hslot : w.memory.reactor.Holds slot user) (huser : user ≠ .write) :
    id.slot ≠ slot := by
  rintro rfl
  have huses := (hw.tracked (hw.not_gone (hw.isOpen_of_write hwrite))).write
  rw [hwrite] at huses
  exact huser (hslot.unique huses.tracks.holds_slot)

theorem Steady.offers_take (hw : w.Steady) {slot : ℕ} {user : BufferUser}
    (hslot : w.memory.reactor.Holds slot user) (huser : user ≠ .write) (id : Id)
    (hwrite : w.stream.write = some id) (hoffers : w.memory.Offers id.slot w.stream.rest) :
    (w.memory.take slot).Offers id.slot w.stream.rest :=
  hoffers.take hw.wellFormed (hw.write_ne hwrite hslot huser)

theorem Steady.streamRecv (hw : w.Steady) (hrunning : w.running = none) {slot : ℕ} {result : ℤ}
    {received : Bytes} (hslot : w.memory.reactor.Holds slot .read)
    (hcall : w.streamRecv moves slot result received = some w') : w'.Steady := by
  have howning := hw.toOwning.streamRecv hrunning hslot hcall
  have hoffers := hw.offers_take hslot BufferUser.noConfusion
  have hopened : ¬ w.opened = false := fun hopened =>
    hw.not_holds_read (hw.fresh hopened).1 slot hslot
  unfold StreamMemory.streamRecv at hcall
  dsimp only at hcall
  split_ifs at hcall
  · cases hcall
    refine ⟨howning, fun hnot => absurd hnot hopened, hw.flushed, fun hopen => ?_⟩
    have hready := hw.ready hopen
    exact hready.congr hready.inRange.1 rfl rfl rfl hoffers
  · cases hcall
    refine ⟨howning, fun hnot => absurd hnot hopened, hw.flushed, fun hopen => ?_⟩
    have hready := hw.ready hopen
    refine hready.congr ?_ rfl rfl rfl hoffers
    have hconsumed := hready.inRange.1
    show w.stream.inputConsumed ≤ ((w.stream.input.buffer.resize
      (w.stream.input.buffer.size + received.length) received).data).length
    rw [Buffer.data_resize, List.length_take, List.length_append]
    exact hconsumed.trans (le_min (Nat.le_add_right _ _) (Nat.le_add_right _ _))

theorem Steady.streamSend (hw : w.Steady) (hrunning : w.running = none) {slot : ℕ} {result : ℤ}
    (hslot : w.memory.reactor.Holds slot .write)
    (hcall : w.streamSend moves slot result = some w') : w'.Steady := by
  have howning := hw.toOwning.streamSend hrunning hslot hcall
  have hopened : ¬ w.opened = false := fun hopened =>
    hw.not_holds_write (hw.fresh hopened).1 slot hslot
  have hid := ((hw.tracked (hw.not_gone_of_write hslot)).write.tracks.holds slot).mp hslot
  unfold StreamMemory.streamSend at hcall
  dsimp only at hcall
  split_ifs at hcall with hresult hlength
  · cases hcall
    exact ⟨howning, fun hnot => absurd hnot hopened, hw.flushed, fun hopen =>
      ⟨(hw.ready hopen).inRange, nofun⟩⟩
  · cases hcall
    rw [hw.offered hid] at hlength
    refine ⟨howning, fun hnot => absurd hnot hopened, ?_, fun hopen => ?_⟩
    · exact HeapStream.flushed_streamUpdate (s := { w.stream with
        write := none
        outputOffset := w.stream.outputOffset + result.toNat
        outputPartial := if w.stream.outputPartial + result.toNat =
          w.stream.outputWriting.buffer.size then 0
          else w.stream.outputPartial + result.toNat }) hw.flushed
    · have hopen' : w.stream.isOpen = true := (HeapStream.isOpen_sendDone _ _ _).symm.trans hopen
      have hready := hw.ready hopen'
      have hdone := HeapStream.ready_sendDone (m := w.memory.take slot) moves hready.inRange
        (hready.offers _ hid).1 hw.flushed hlength
      exact ⟨hdone.inRange, hdone.offers⟩

/-- The reactor calls the user of a slot. -/
theorem Steady.call (hw : w.Steady) (hrunning : w.running = none) {slot : ℕ} {user : BufferUser}
    {result : ℤ} {received : Bytes} (hslot : w.memory.reactor.Holds slot user)
    (hcall : w.call moves slot result received user = some w') : w'.Steady := by
  have howning := hw.toOwning.call hrunning hslot hcall
  cases user with
  | read => exact hw.streamRecv hrunning hslot hcall
  | write => exact hw.streamSend hrunning hslot hcall
  | noop =>
    cases hcall
    exact hw.memory howning (hw.offers_take hslot BufferUser.noConfusion)
  | release base =>
    cases hcall
    exact hw.memory howning (hw.offers_take hslot BufferUser.noConfusion)
  | other n =>
    cases hcall
    exact hw.memory howning (hw.offers_take hslot BufferUser.noConfusion)

theorem steady_update {s : HeapStream} {m : BufferMemory} (howning : Owning { w with
      stream := (s.streamUpdate moves w.memory).1
      memory := m })
    (hmemory : m.reactor.ring = (s.streamUpdate moves w.memory).2.reactor.ring)
    (hfresh : w.opened = false → s.isOpen = false ∧ s.InRange)
    (hflushed : s.outputFlushed ≤ s.outputWaiting.buffer.size)
    (hready : s.isOpen = true → s.Ready w.memory) : Steady { w with
      stream := (s.streamUpdate moves w.memory).1
      memory := m } where
  toOwning := howning
  fresh hopened := by
    obtain ⟨hopen, hrange⟩ := hfresh hopened
    rw [HeapStream.streamUpdate_closed hopen]
    exact ⟨hopen, hrange⟩
  flushed := HeapStream.flushed_streamUpdate hflushed
  ready hopen := by
    have hopen' := (HeapStream.isOpen_streamUpdate _ _).symm.trans hopen
    have hupdate : (s.streamUpdate moves w.memory).1.Ready (s.streamUpdate moves w.memory).2 :=
      (hready hopen').streamUpdate hflushed
    refine ⟨hupdate.inRange, fun id hid => ⟨(hupdate.offers id hid).1, ?_⟩⟩
    obtain ⟨op, hmem, hop⟩ := (hupdate.offers id hid).2
    exact ⟨op, hmemory ▸ hmem, hop⟩

theorem Steady.streamClose (hw : w.Steady) (hgone : w.gone = false) (howning : w'.Owning)
    (hstream : w'.stream = (w.stream.streamClose w.memory).1) (hopened : w'.opened = w.opened) :
    w'.Steady where
  toOwning := howning
  fresh hnot := by
    obtain ⟨hopen, hrange⟩ := hw.fresh (hopened.symm.trans hnot)
    obtain ⟨hread, hwrite⟩ := hw.closed hopen
    rw [hstream, HeapStream.streamClose_closed hopen hread hwrite]
    exact ⟨hopen, hrange⟩
  flushed := by
    obtain ⟨hwaiting, hflushed⟩ := HeapStream.output_streamClose w.stream w.memory
    rw [hstream, hwaiting, hflushed]
    exact hw.flushed
  ready hopen := by
    rw [hstream, (hw.tracked hgone).streamClose.2.1] at hopen
    cases hopen

/-- The step lemma. -/
theorem Steady.step {l : StreamCall} (hw : w.Steady) (hok : w.Reopenable l)
    (hstep : StreamMemory.step moves w l = some w') : w'.Steady := by
  have howning := hw.toOwning.step hstep
  cases l with
  | «open» fd writeOnly type =>
    obtain ⟨hguard, hstep⟩ := Option.ite_none_right_eq_some.mp hstep
    cases hstep
    have hrange : w.stream.InRange := by
      cases hopened : w.opened with
      | false => exact (hw.fresh hopened).2
      | true => exact hok rfl hopened
    refine steady_update (w := { w with opened := true }) howning rfl nofun hw.flushed fun _ => ?_
    constructor
    · exact hrange
    · intro id hid
      rw [show _ = w.stream.write from rfl, (hw.closed hguard.2).2] at hid
      cases hid
  | write d =>
    dsimp only [StreamMemory.step] at hstep
    split_ifs at hstep with hguard
    obtain rfl := Option.some.inj hstep
    refine ⟨howning, hw.fresh, ?_, fun hopen => ?_⟩
    · have hflushed := hw.flushed
      show w.stream.outputFlushed ≤ (w.stream.outputWaiting.buffer.append d).data.length
      rw [Buffer.data_append, List.length_append]
      exact hflushed.trans (Nat.le_add_right _ _)
    · exact ⟨(hw.ready hopen).inRange, (hw.ready hopen).offers⟩
  | consume size =>
    dsimp only [StreamMemory.step] at hstep
    split_ifs at hstep with hguard
    obtain rfl := Option.some.inj hstep
    refine ⟨howning, fun hopened => ?_, hw.flushed, fun hopen => ?_⟩
    · obtain ⟨hopen, hrange⟩ := hw.fresh hopened
      exact ⟨hopen, hguard.2, hrange.2⟩
    · exact ⟨⟨hguard.2, (hw.ready hopen).inRange.2⟩, (hw.ready hopen).offers⟩
  | flush =>
    dsimp only [StreamMemory.step] at hstep
    split_ifs at hstep with hguard
    obtain rfl := Option.some.inj hstep
    exact steady_update howning rfl hw.fresh (Nat.le_refl _) fun hopen =>
      ⟨(hw.ready hopen).inRange, (hw.ready hopen).offers⟩
  | close =>
    dsimp only [StreamMemory.step] at hstep
    split_ifs at hstep with hguard
    obtain rfl := Option.some.inj hstep
    exact hw.streamClose hguard howning rfl rfl
  | destruct =>
    dsimp only [StreamMemory.step] at hstep
    split_ifs at hstep with hguard
    obtain rfl := Option.some.inj hstep
    exact hw.streamClose hguard howning rfl rfl
  | call slot result received =>
    obtain ⟨hguard, hstep⟩ := Option.ite_none_right_eq_some.mp hstep
    obtain ⟨user, huser, hcall⟩ := Option.bind_eq_some_iff.mp hstep
    exact hw.call hguard.1 ⟨hguard.2, huser⟩ hcall
  | «return» =>
    obtain ⟨slot, reading, -, ⟨-, -, rfl⟩ | ⟨-, rfl⟩⟩ := StreamMemory.step_return hstep
    · exact steady_update (w := { w with running := none }) howning rfl hw.fresh hw.flushed
        fun hopen => ⟨(hw.ready hopen).inRange, (hw.ready hopen).offers⟩
    · exact ⟨howning, hw.fresh, hw.flushed, fun hopen =>
        ⟨(hw.ready hopen).inRange, (hw.ready hopen).offers⟩⟩
  | other l =>
    obtain ⟨m, hother, hstep⟩ := Option.map_eq_some_iff.mp hstep
    cases hstep
    exact hw.memory howning fun id _ hoffers => hoffers.otherStep hother

end StreamMemory

end LibReactor
