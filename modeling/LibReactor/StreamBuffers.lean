import LibReactor.CancelledBuffers
import LibReactor.StreamMemory

/-!
# Who owns the buffers of a stream

A stream owns the blocks of its three buffers. The kernel may have that of `input` for a read and
that of `output_writing` for a write, and a cancelled operation takes it along.
-/

namespace LibReactor

open Transition

namespace HeapStream

variable {moves : ℕ → ℕ → Bool} {s : HeapStream} {m m' : BufferMemory} {held : List ℕ}

def blocks (s : HeapStream) : List ℕ :=
  s.input.base.toList ++ (s.outputWriting.base.toList ++ s.outputWaiting.base.toList)

structure Tracked (s : HeapStream) (m : BufferMemory) (held : List ℕ) : Prop where
  accounted : m.Accounted held s.blocks
  read : m.Uses .read s.read s.input.base
  write : m.Uses .write s.write s.outputWriting.base

theorem Tracked.quiet {held' : List ℕ} (h : s.Tracked m held) (hq : m.Quiet m')
    (hwf : m'.reactor.WellFormed held') : s.Tracked m' held' :=
  ⟨h.accounted.quiet hq hwf, h.read.quiet hq rfl, h.write.quiet hq rfl⟩

theorem Tracked.freeUser {slot : ℕ} (h : s.Tracked m (slot :: held)) :
    s.Tracked (m.freeUser slot) held :=
  h.quiet (BufferMemory.quiet_freeUser h.accounted.wellFormed) h.accounted.wellFormed.freeUser

theorem Tracked.releaseSlot (h : s.Tracked m held) {slot : ℕ} {base : Option ℕ}
    (hslot : m.reactor.Holds slot (.release base)) : s.Tracked (m.releaseSlot slot base) held :=
  ⟨h.accounted.releaseSlot hslot,
    h.read.releaseSlot h.accounted.wellFormed hslot BufferUser.noConfusion rfl,
    h.write.releaseSlot h.accounted.wellFormed hslot BufferUser.noConfusion rfl⟩

theorem Tracked.takeRead (h : s.Tracked m held) {slot : ℕ} (hslot : m.reactor.Holds slot .read) :
    HeapStream.Tracked { s with read := none } (m.take slot) (slot :: held) :=
  ⟨h.accounted.take hslot rfl, h.read.take h.accounted.wellFormed hslot,
    h.write.take_other h.accounted.wellFormed hslot BufferUser.noConfusion⟩

theorem Tracked.takeWrite (h : s.Tracked m held) {slot : ℕ} (hslot : m.reactor.Holds slot .write) :
    HeapStream.Tracked { s with write := none } (m.take slot) (slot :: held) :=
  ⟨h.accounted.take hslot rfl, h.read.take_other h.accounted.wellFormed hslot
    BufferUser.noConfusion, h.write.take h.accounted.wellFormed hslot⟩

theorem Tracked.setInput (h : s.Tracked m held) (hread : s.read = none)
    {x : HeapBuffer × Allocator} (hkeeps : HeapBuffer.Keeps m.heap s.input x) :
    HeapStream.Tracked { s with input := x.1 } { m with heap := x.2 } held := by
  have huses := h.read
  rw [hread] at huses
  refine ⟨h.accounted.setHeap fun rest ha => ?_, ?_, h.write.setHeap _⟩
  · rw [blocks, List.append_assoc] at ha ⊢
    exact hkeeps _ ha
  · show BufferMemory.Uses _ .read s.read x.1.base
    rw [hread]
    exact (BufferMemory.uses_none huses).setHeap _

theorem Tracked.setWaiting (h : s.Tracked m held) {x : HeapBuffer × Allocator}
    (hkeeps : HeapBuffer.Keeps m.heap s.outputWaiting x) :
    HeapStream.Tracked { s with outputWaiting := x.1 } { m with heap := x.2 } held := by
  refine ⟨h.accounted.setHeap fun rest ha => ?_, h.read.setHeap _, h.write.setHeap _⟩
  have hperm : ∀ a b c : List ℕ, (a ++ (b ++ c) ++ rest).Perm (c ++ (a ++ (b ++ rest))) :=
    fun a b c => by
      rw [List.append_assoc, List.append_assoc]
      exact (List.Perm.append_left a (List.perm_append_comm_assoc b c rest)).trans
        (List.perm_append_comm_assoc a c _)
  exact (hkeeps _ (ha.of_perm (hperm _ _ _))).of_perm (hperm _ _ _).symm

theorem Tracked.setWriting (h : s.Tracked m held) (hwrite : s.write = none)
    {x : HeapBuffer × Allocator} (hkeeps : HeapBuffer.Keeps m.heap s.outputWriting x) :
    HeapStream.Tracked { s with outputWriting := x.1 } { m with heap := x.2 } held := by
  have huses := h.write
  rw [hwrite] at huses
  refine ⟨h.accounted.setHeap fun rest ha => ?_, h.read.setHeap _, ?_⟩
  · have hperm : ∀ a b c : List ℕ, (a ++ (b ++ c) ++ rest).Perm (b ++ (a ++ (c ++ rest))) :=
      fun a b c => by
        rw [List.append_assoc, List.append_assoc]
        exact List.perm_append_comm_assoc a b _
    exact (hkeeps _ (ha.of_perm (hperm _ _ _))).of_perm (hperm _ _ _).symm
  · show BufferMemory.Uses _ .write s.write x.1.base
    rw [hwrite]
    exact (BufferMemory.uses_none huses).setHeap _

theorem Tracked.eraseConsumed (h : s.Tracked m held) : s.eraseConsumed.Tracked m held := by
  unfold HeapStream.eraseConsumed
  split_ifs
  · exact h
  · exact ⟨h.accounted, h.read, h.write⟩

theorem read_eraseConsumed (s : HeapStream) : s.eraseConsumed.read = s.read := by
  unfold eraseConsumed
  split_ifs <;> rfl

theorem Tracked.streamInput (h : s.Tracked m held) (hread : s.read = none) :
    (s.streamInput moves m).1.Tracked (s.streamInput moves m).2 held := by
  have hnone := (read_eraseConsumed s).trans hread
  have hreserve := h.eraseConsumed.setInput hnone (HeapBuffer.keeps_reserve moves
    (s.eraseConsumed.input.buffer.size + Stream.blockSize))
  have huses := hreserve.read
  rw [hnone] at huses
  have hwf := hreserve.accounted.wellFormed
  exact ⟨hreserve.accounted.submit _ rfl (fun _ => BufferUser.noConfusion) _,
    huses.submit hwf _ _, hreserve.write.submit_other hwf _ BufferUser.noConfusion _⟩

theorem Tracked.streamOutput (h : s.Tracked m held) (hwrite : s.write = none) :
    (s.streamOutput m).1.Tracked (s.streamOutput m).2 held := by
  have huses := h.write
  rw [hwrite] at huses
  have hwf := h.accounted.wellFormed
  exact ⟨h.accounted.submit _ rfl (fun _ => BufferUser.noConfusion) _,
    h.read.submit_other hwf _ BufferUser.noConfusion _, huses.submit hwf _ _⟩

theorem Tracked.switchOutput (h : s.Tracked m held) (hwrite : s.write = none) :
    (s.switchOutput moves m.heap).1.Tracked { m with heap := (s.switchOutput moves m.heap).2 }
      held := by
  have happend := (h.setWriting hwrite (x := s.outputWriting.clear.append moves
    (s.outputWaiting.buffer.data.drop s.outputFlushed) m.heap)
    (HeapBuffer.keeps_append (b := s.outputWriting.clear) _ _)).setWaiting
    (HeapBuffer.keeps_resize moves s.outputFlushed [])
  have huses := happend.write
  refine ⟨happend.accounted.of_perm (List.perm_append_comm.append_left _), happend.read, ?_⟩
  show BufferMemory.Uses _ .write s.write _
  rw [show ({ s with
    outputWriting := (s.outputWriting.clear.append moves
      (s.outputWaiting.buffer.data.drop s.outputFlushed) m.heap).1 } : HeapStream).write =
    none from hwrite] at huses
  rw [hwrite]
  exact BufferMemory.uses_none huses

theorem Tracked.streamUpdate (h : s.Tracked m held) :
    (s.streamUpdate moves m).1.Tracked (s.streamUpdate moves m).2 held := by
  unfold HeapStream.streamUpdate
  by_cases hidle : ¬ s.isOpen ∨ s.write.isSome
  · rw [if_pos hidle]
    exact h
  · rw [if_neg hidle]
    have hwrite : s.write = none := by simpa using (not_or.mp hidle).2
    split_ifs with hpartial hflushed hread
    · exact h.streamOutput hwrite
    · exact (h.switchOutput hwrite).streamOutput hwrite
    · exact h.streamInput (Option.isNone_iff_eq_none.mp hread.1)
    · exact h

theorem Tracked.closeRead (h : s.Tracked m held) :
    (s.closeRead m).1.Tracked (s.closeRead m).2 held ∧ (s.closeRead m).1.read = none := by
  unfold HeapStream.closeRead
  cases hread : s.read with
  | none => exact ⟨h, hread⟩
  | some id =>
    have hwf := h.accounted.wellFormed
    have huses := h.read
    rw [hread] at huses
    have hread' := huses.cancel hwf BufferUser.noConfusion (fun _ => BufferUser.noConfusion)
      s.input.base
    have hwrite := h.write.cancel_other hwf huses BufferUser.noConfusion BufferUser.noConfusion
      (fun _ => BufferUser.noConfusion)
    exact ⟨⟨h.accounted.cancel huses rfl, BufferMemory.uses_none hread', hwrite⟩, rfl⟩

theorem Tracked.closeWrite (h : s.Tracked m held) :
    (s.closeWrite m).1.Tracked (s.closeWrite m).2 held ∧ (s.closeWrite m).1.write = none := by
  unfold HeapStream.closeWrite
  cases hwrite : s.write with
  | none => exact ⟨h, hwrite⟩
  | some id =>
    have hwf := h.accounted.wellFormed
    have huses := h.write
    rw [hwrite] at huses
    have hwrite' := huses.cancel hwf BufferUser.noConfusion (fun _ => BufferUser.noConfusion)
      s.outputWriting.base
    have hread := h.read.cancel_other hwf huses BufferUser.noConfusion BufferUser.noConfusion
      (fun _ => BufferUser.noConfusion)
    have haccounted := h.accounted.of_perm (List.perm_append_comm_assoc ..)
    exact ⟨⟨haccounted.cancel huses rfl, hread, BufferMemory.uses_none hwrite'⟩, rfl⟩

theorem fields_closeWrite (s : HeapStream) (m : BufferMemory) :
    (s.closeWrite m).1.fd = s.fd ∧ (s.closeWrite m).1.read = s.read ∧
      (s.closeWrite m).1.abort = s.abort := by
  unfold closeWrite
  cases s.write <;> exact ⟨rfl, rfl, rfl⟩

theorem fields_closeRead (s : HeapStream) (m : BufferMemory) :
    (s.closeRead m).1.fd = s.fd ∧ (s.closeRead m).1.abort = s.abort := by
  unfold closeRead
  cases s.read <;> exact ⟨rfl, rfl⟩

/-- A stream that is closed keeps the buffers that the kernel does not have. -/
theorem Tracked.streamClose (h : s.Tracked m held) :
    (s.streamClose m).1.Tracked (s.streamClose m).2 held ∧
      (s.streamClose m).1.isOpen = false ∧ (s.streamClose m).1.read = none ∧
      (s.streamClose m).1.write = none ∧ (s.streamClose m).1.abort = s.abort := by
  obtain ⟨hread, hnone⟩ := h.closeRead
  obtain ⟨hwrite, hnone'⟩ := hread.closeWrite
  obtain ⟨hfd, hread', habort⟩ := fields_closeWrite (s.closeRead m).1 (s.closeRead m).2
  have habort' := habort.trans (fields_closeRead s m).2
  have hnone := hread'.trans hnone
  unfold HeapStream.streamClose
  dsimp only
  split_ifs with hopen
  · have hwf := hwrite.accounted.wellFormed
    have hquiet := BufferMemory.quiet_submitNoop hwf
      (.close ((s.closeRead m).1.closeWrite (s.closeRead m).2).1.fd)
    have hquiet' := hwrite.quiet hquiet (hwf.submit _ _)
    exact ⟨⟨hquiet'.accounted, hquiet'.read, hquiet'.write⟩, rfl, hnone, hnone', habort'⟩
  · exact ⟨hwrite, by simpa [isOpen] using hopen, hnone, hnone', habort'⟩

/-- `stream_destruct` frees the buffers that `stream_close` leaves to it. -/
theorem Tracked.destructBuffers (h : s.Tracked m held) (hread : s.read = none)
    (hwrite : s.write = none) :
    BufferMemory.Idle { m with heap := s.destructBuffers m.heap } held := by
  have huses := h.read
  have huses' := h.write
  rw [hread] at huses
  rw [hwrite] at huses'
  refine ⟨h.accounted.setHeap fun rest ha => ?_, (BufferMemory.uses_none huses).setHeap _,
    (BufferMemory.uses_none huses').setHeap _⟩
  rw [blocks, List.append_assoc, List.append_assoc] at ha
  exact ha.free.free.free

theorem fields_streamUpdate (s : HeapStream) (m : BufferMemory) :
    (s.streamUpdate moves m).1.fd = s.fd ∧ (s.streamUpdate moves m).1.abort = s.abort := by
  have heraseConsumed : s.eraseConsumed.fd = s.fd ∧ s.eraseConsumed.abort = s.abort := by
    unfold eraseConsumed
    split_ifs <;> exact ⟨rfl, rfl⟩
  unfold streamUpdate
  split_ifs
  · exact ⟨rfl, rfl⟩
  · exact ⟨rfl, rfl⟩
  · exact ⟨rfl, rfl⟩
  · exact heraseConsumed
  · exact ⟨rfl, rfl⟩

theorem isOpen_streamUpdate (s : HeapStream) (m : BufferMemory) :
    (s.streamUpdate moves m).1.isOpen = s.isOpen := by
  rw [isOpen, (fields_streamUpdate s m).1]
  rfl

theorem streamUpdate_closed (hopen : s.isOpen = false) : s.streamUpdate moves m = (s, m) := by
  unfold streamUpdate
  rw [if_pos (.inl (by rw [hopen]; exact Bool.false_ne_true))]

/-- `stream_update` leaves a closed stream without operations. -/
theorem closed_streamUpdate (hclosed : s.isOpen = false → s.read = none ∧ s.write = none)
    (hopen : (s.streamUpdate moves m).1.isOpen = false) :
    (s.streamUpdate moves m).1.read = none ∧ (s.streamUpdate moves m).1.write = none := by
  have hopen' : s.isOpen = false := (isOpen_streamUpdate s m).symm.trans hopen
  rw [streamUpdate_closed hopen']
  exact hclosed hopen'

end HeapStream

namespace StreamMemory

def held (w : StreamMemory) : List ℕ := (w.running.map Prod.fst).toList

/-- The invariant: a stream owns its buffers until it is destructed, a closed one has no operation,
and the end of a `stream_recv` whose stream is destructed is aborted. -/
structure Owning (w : StreamMemory) : Prop where
  tracked : w.gone = false → w.stream.Tracked w.memory w.held
  idle : w.gone = true → w.memory.Idle w.held
  closed : w.stream.isOpen = false → w.stream.read = none ∧ w.stream.write = none
  gone : w.gone = true → w.stream.isOpen = false
  flag : ∀ slot, w.running = some (slot, true) → w.stream.abort = true
  aborted : ∀ slot, w.running = some (slot, true) → w.gone = true → w.aborted = true

variable {moves : ℕ → ℕ → Bool} {w w' : StreamMemory}

theorem owning_construct : construct.Owning where
  tracked _ := ⟨BufferMemory.accounted_construct, BufferMemory.uses_construct,
    BufferMemory.uses_construct⟩
  idle := nofun
  closed _ := ⟨rfl, rfl⟩
  gone := nofun
  flag := nofun
  aborted := nofun

theorem Owning.wellFormed (hw : w.Owning) : w.memory.reactor.WellFormed w.held := by
  cases hgone : w.gone with
  | false => exact (hw.tracked hgone).accounted.wellFormed
  | true => exact (hw.idle hgone).accounted.wellFormed

theorem Owning.memory (hw : w.Owning) {m : BufferMemory}
    (htracked : w.stream.Tracked w.memory w.held → w.stream.Tracked m w.held)
    (hidle : w.memory.Idle w.held → m.Idle w.held) : Owning { w with memory := m } :=
  ⟨fun hg => htracked (hw.tracked hg), fun hg => hidle (hw.idle hg), hw.closed, hw.gone, hw.flag,
    hw.aborted⟩

theorem Owning.quiet (hw : w.Owning) {m : BufferMemory} (hq : w.memory.Quiet m)
    (hwf : m.reactor.WellFormed w.held) : Owning { w with memory := m } :=
  hw.memory (fun h => h.quiet hq hwf) (fun h => h.quiet hq hwf)

theorem owning_of_tracked (hgone : w.gone = false) (htracked : w.stream.Tracked w.memory w.held)
    (hclosed : w.stream.isOpen = false → w.stream.read = none ∧ w.stream.write = none)
    (hflag : ∀ slot, w.running = some (slot, true) → w.stream.abort = true) : w.Owning where
  tracked _ := htracked
  idle hg := by
    rw [hgone] at hg
    cases hg
  closed := hclosed
  gone hg := by
    rw [hgone] at hg
    cases hg
  flag := hflag
  aborted _ _ hg := by
    rw [hgone] at hg
    cases hg

theorem Owning.not_gone (hw : w.Owning) (hopen : w.stream.isOpen = true) : w.gone = false := by
  by_contra hgone
  rw [hw.gone (Bool.eq_true_of_not_eq_false hgone)] at hopen
  cases hopen

theorem Owning.isOpen_of_write (hw : w.Owning) {id : Id} (hwrite : w.stream.write = some id) :
    w.stream.isOpen = true := by
  by_contra hopen
  rw [(hw.closed (Bool.eq_false_of_not_eq_true hopen)).2] at hwrite
  cases hwrite

theorem Owning.not_gone_of_read (hw : w.Owning) {slot : ℕ}
    (hslot : w.memory.reactor.Holds slot .read) : w.gone = false := by
  by_contra hgone
  exact (hw.idle (Bool.eq_true_of_not_eq_false hgone)).read.tracks.not_holds slot hslot

theorem Owning.not_gone_of_write (hw : w.Owning) {slot : ℕ}
    (hslot : w.memory.reactor.Holds slot .write) : w.gone = false := by
  by_contra hgone
  exact (hw.idle (Bool.eq_true_of_not_eq_false hgone)).write.tracks.not_holds slot hslot

theorem Owning.read_of_holds (hw : w.Owning) {slot : ℕ}
    (hslot : w.memory.reactor.Holds slot .read) : w.stream.read = some ⟨slot, false⟩ :=
  ((hw.tracked (hw.not_gone_of_read hslot)).read.tracks.holds slot).mp hslot

theorem Owning.write_of_holds (hw : w.Owning) {slot : ℕ}
    (hslot : w.memory.reactor.Holds slot .write) : w.stream.write = some ⟨slot, false⟩ :=
  ((hw.tracked (hw.not_gone_of_write hslot)).write.tracks.holds slot).mp hslot

theorem Owning.not_holds_read (hw : w.Owning) (hopen : w.stream.isOpen = false) (slot : ℕ) :
    ¬w.memory.reactor.Holds slot .read := by
  intro hslot
  have huses := (hw.tracked (hw.not_gone_of_read hslot)).read
  rw [(hw.closed hopen).1] at huses
  exact huses.tracks.not_holds slot hslot

theorem Owning.not_holds_write (hw : w.Owning) (hopen : w.stream.isOpen = false) (slot : ℕ) :
    ¬w.memory.reactor.Holds slot .write := by
  intro hslot
  have huses := (hw.tracked (hw.not_gone_of_write hslot)).write
  rw [(hw.closed hopen).2] at huses
  exact huses.tracks.not_holds slot hslot

theorem Owning.streamRecv (hw : w.Owning) (hrunning : w.running = none) {slot : ℕ} {result : ℤ}
    {received : Bytes} (hslot : w.memory.reactor.Holds slot .read)
    (hcall : w.streamRecv moves slot result received = some w') : w'.Owning := by
  have hgone := hw.not_gone_of_read hslot
  have htracked := hw.tracked hgone
  rw [held, hrunning] at htracked
  have htaken := htracked.takeRead hslot
  unfold StreamMemory.streamRecv at hcall
  dsimp only at hcall
  split_ifs at hcall
  · obtain rfl := Option.some.inj hcall
    exact owning_of_tracked hgone htaken (fun hopen => ⟨rfl, (hw.closed hopen).2⟩) nofun
  · obtain rfl := Option.some.inj hcall
    have hinput := htaken.setInput rfl (HeapBuffer.keeps_resize moves
      (w.stream.input.buffer.size + received.length) received)
    refine owning_of_tracked hgone ⟨hinput.accounted, hinput.read, hinput.write⟩
      (fun hopen => ⟨rfl, (hw.closed hopen).2⟩) fun _ _ => rfl

theorem Owning.streamSend (hw : w.Owning) (hrunning : w.running = none) {slot : ℕ} {result : ℤ}
    (hslot : w.memory.reactor.Holds slot .write)
    (hcall : w.streamSend moves slot result = some w') : w'.Owning := by
  have hgone := hw.not_gone_of_write hslot
  have htracked := hw.tracked hgone
  rw [held, hrunning] at htracked
  have htaken := htracked.takeWrite hslot
  unfold StreamMemory.streamSend at hcall
  dsimp only at hcall
  split_ifs at hcall
  · obtain rfl := Option.some.inj hcall
    exact owning_of_tracked hgone htaken (fun hopen => ⟨(hw.closed hopen).1, rfl⟩) nofun
  · obtain rfl := Option.some.inj hcall
    refine owning_of_tracked hgone ?_ ?_ fun slot hslot => ?_
    · rw [held, hrunning]
      refine HeapStream.Tracked.freeUser (HeapStream.Tracked.streamUpdate ?_)
      exact ⟨htaken.accounted, htaken.read, htaken.write⟩
    · exact HeapStream.closed_streamUpdate fun hopen => ⟨(hw.closed hopen).1, rfl⟩
    · rw [hrunning] at hslot
      cases hslot

theorem Owning.call (hw : w.Owning) (hrunning : w.running = none) {slot : ℕ} {user : BufferUser}
    {result : ℤ} {received : Bytes} (hslot : w.memory.reactor.Holds slot user)
    (hcall : w.call moves slot result received user = some w') : w'.Owning := by
  have hquiet : user.refers = false → Owning { w with memory := w.memory.callSlot slot } :=
    fun huser =>
      hw.quiet (BufferMemory.quiet_callSlot hw.wellFormed hslot huser).1
        (BufferMemory.quiet_callSlot hw.wellFormed hslot huser).2
  cases user with
  | read => exact hw.streamRecv hrunning hslot hcall
  | write => exact hw.streamSend hrunning hslot hcall
  | release base =>
    obtain rfl := Option.some.inj hcall
    exact hw.memory (fun h => h.releaseSlot hslot) (fun h => h.releaseSlot hslot)
  | noop | other n =>
    obtain rfl := Option.some.inj hcall
    exact hquiet rfl

theorem Owning.return (hw : w.Owning)
    (hstep : StreamMemory.step moves w .return = some w') : w'.Owning := by
  obtain ⟨slot, reading, hrunning, hcases⟩ := step_return hstep
  have hheld : w.held = [slot] := by rw [held, hrunning]; rfl
  rcases hcases with ⟨hreading, habort, rfl⟩ | ⟨-, rfl⟩
  · have hgone : w.gone = false := by
      by_contra hgone
      rw [hreading] at hrunning
      rw [hw.aborted slot hrunning (Bool.eq_true_of_not_eq_false hgone)] at habort
      cases habort
    have htracked := hw.tracked hgone
    rw [hheld] at htracked
    refine owning_of_tracked hgone ?_ (HeapStream.closed_streamUpdate hw.closed) nofun
    refine HeapStream.Tracked.freeUser (HeapStream.Tracked.streamUpdate ?_)
    exact ⟨htracked.accounted, htracked.read, htracked.write⟩
  · refine ⟨fun hg => ?_, fun hg => ?_, hw.closed, hw.gone, nofun, nofun⟩
    · have htracked := hw.tracked hg
      rw [hheld] at htracked
      exact htracked.freeUser
    · have hidle := hw.idle hg
      rw [hheld] at hidle
      exact hidle.freeUser

theorem Owning.update (hw : w.Owning) (hgone : w.gone = false) {s : HeapStream} {opened : Bool}
    (htracked : s.Tracked w.memory w.held)
    (hclosed : s.isOpen = false → s.read = none ∧ s.write = none)
    (habort : s.abort = w.stream.abort) : Owning { w with
      stream := (s.streamUpdate moves w.memory).1
      memory := (s.streamUpdate moves w.memory).2
      opened := opened } :=
  owning_of_tracked hgone htracked.streamUpdate (HeapStream.closed_streamUpdate hclosed)
    fun slot hslot =>
      ((HeapStream.fields_streamUpdate s _).2.trans habort).trans (hw.flag slot hslot)

/-- The step lemma. -/
theorem Owning.step {l : StreamCall} (hw : w.Owning)
    (hstep : StreamMemory.step moves w l = some w') : w'.Owning := by
  cases l with
  | «open» fd writeOnly type =>
    obtain ⟨hguard, hstep⟩ := Option.ite_none_right_eq_some.mp hstep
    obtain rfl := Option.some.inj hstep
    have htracked := hw.tracked hguard.1
    obtain ⟨hread, hwrite⟩ := hw.closed hguard.2
    exact hw.update hguard.1 ⟨htracked.accounted, htracked.read, htracked.write⟩
      (fun _ => ⟨hread, hwrite⟩) rfl
  | write d =>
    dsimp only [StreamMemory.step] at hstep
    split_ifs at hstep with hguard
    obtain rfl := Option.some.inj hstep
    exact owning_of_tracked hguard ((hw.tracked hguard).setWaiting (HeapBuffer.keeps_append _ _))
      hw.closed hw.flag
  | consume size =>
    dsimp only [StreamMemory.step] at hstep
    split_ifs at hstep with hguard
    obtain rfl := Option.some.inj hstep
    have htracked := hw.tracked hguard.1
    exact owning_of_tracked hguard.1 ⟨htracked.accounted, htracked.read, htracked.write⟩
      hw.closed hw.flag
  | flush =>
    dsimp only [StreamMemory.step] at hstep
    split_ifs at hstep with hguard
    obtain rfl := Option.some.inj hstep
    have htracked := hw.tracked hguard
    exact hw.update hguard ⟨htracked.accounted, htracked.read, htracked.write⟩ hw.closed rfl
  | close =>
    dsimp only [StreamMemory.step] at hstep
    split_ifs at hstep with hguard
    obtain rfl := Option.some.inj hstep
    obtain ⟨htracked, -, hread, hwrite, habort⟩ := (hw.tracked hguard).streamClose
    exact owning_of_tracked hguard htracked (fun _ => ⟨hread, hwrite⟩)
      fun slot hslot => habort.trans (hw.flag slot hslot)
  | destruct =>
    dsimp only [StreamMemory.step] at hstep
    split_ifs at hstep with hguard
    obtain rfl := Option.some.inj hstep
    obtain ⟨htracked, hopen, hread, hwrite, habort⟩ := (hw.tracked hguard).streamClose
    refine ⟨nofun, fun _ => htracked.destructBuffers hread hwrite, fun _ => ⟨hread, hwrite⟩,
      fun _ => hopen, fun slot hslot => habort.trans (hw.flag slot hslot), fun slot hslot _ => ?_⟩
    show (w.aborted || (w.stream.streamClose w.memory).1.abort) = true
    rw [habort, hw.flag slot hslot, Bool.or_true]
  | call slot result received =>
    dsimp only [StreamMemory.step] at hstep
    split_ifs at hstep with hguard
    obtain ⟨user, huser, hcall⟩ := Option.bind_eq_some_iff.mp hstep
    exact hw.call hguard.1 ⟨hguard.2, huser⟩ hcall
  | «return» => exact hw.return hstep
  | other l =>
    obtain ⟨m, hother, hstep⟩ := Option.map_eq_some_iff.mp hstep
    obtain rfl := hstep
    have hspec := BufferMemory.otherStep_spec hw.wellFormed hother
    exact hw.quiet hspec.2 hspec.1

end StreamMemory

end LibReactor
