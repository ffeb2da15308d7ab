import LibReactor.Stream
import LibReactor.Transition

/-!
# The output of a stream

The bytes of a stream's output on their way: acknowledged, offered to the kernel,
or waiting. A run writes, flushes and receives in any order while the kernel
acknowledges any part of what it has been offered.
-/

namespace LibReactor

open Transition

variable {κ : Type}

def Op.output : Op → Option Bytes
  | .send _ data => some data
  | .write _ data _ => some data
  | _ => none

structure Channel (κ : Type) where
  stream : Stream
  reactor : Reactor κ
  /-- the slot of the `stream_recv` that is running -/
  running : Option ℕ
  written : Bytes
  /-- how many of the bytes written a flush has covered -/
  flushed : ℕ
  acked : Bytes

inductive ChannelLabel
  /-- `stream_write`, or `stream_allocate` with the bytes then stored there -/
  | write (d : Bytes)
  | flush
  /-- `stream_send` on a positive result -/
  | acknowledge (n : ℕ)
  /-- `stream_recv` on a positive result, up to its call of the user -/
  | receive (received : Bytes)
  /-- the user's return to `stream_recv` -/
  | received

namespace Channel

def offered (c : Channel κ) (slot : ℕ) : Option Bytes :=
  (c.reactor.ring.find? (fun entry => entry.1 == slot)).bind (fun entry => entry.2.output)

variable (users : StreamUsers κ)

def step (c : Channel κ) : ChannelLabel → Option (Channel κ)
  | .write d => some { c with stream := c.stream.writeData d, written := c.written ++ d }
  | .flush =>
    let (s, r) := c.stream.streamFlush users c.reactor
    some { c with stream := s, reactor := r, flushed := c.written.length }
  | .acknowledge n => do
    let id ← c.stream.write
    let data ← c.offered id.slot
    if c.running.isSome ∨ n = 0 ∨ data.length < n then none
    else
      let (s, r) := c.stream.sendDone users n (c.reactor.takeRing id.slot)
      some { c with stream := s, reactor := r.freeUser id.slot, acked := c.acked ++ data.take n }
  | .receive received => do
    let id ← c.stream.read
    if c.running.isSome ∨ received = [] then none
    else some { c with
      stream := c.stream.recvBegin received
      reactor := c.reactor.takeRing id.slot
      running := some id.slot }
  | .received => do
    let slot ← c.running
    let (s, r) := c.stream.recvEnd users c.reactor
    some { c with stream := s, reactor := r.freeUser slot, running := none }

def opened (fd : ℕ) (flags : ℕ) (type : StreamType) : Channel κ :=
  let (s, r) := Stream.construct.streamOpen users fd flags type .construct
  ⟨s, r, none, [], 0, []⟩

end Channel

namespace Stream

def unacknowledged (s : Stream) : Bytes :=
  if s.write.isSome ∨ s.outputPartial ≠ 0 then s.outputWriting.data.drop s.outputPartial else []

end Stream

namespace Channel

/-- The bytes written are those acknowledged, the rest of the block, and those waiting. -/
structure Balanced (c : Channel κ) (rest : Bytes) : Prop where
  wellFormed : c.reactor.WellFormed c.running.toList
  isOpen : c.stream.isOpen = true
  block : c.stream.outputPartial ≠ 0 → c.stream.outputPartial < c.stream.outputWriting.size
  conserved : c.acked ++ (rest ++ c.stream.outputWaiting.data) = c.written
  covered : c.acked.length + rest.length + c.stream.outputFlushed = c.flushed
  flushed : c.stream.outputFlushed ≤ c.stream.outputWaiting.size
  reading : ∀ id, c.stream.read = some id → ∃ op, (id.slot, op) ∈ c.reactor.ring ∧ op.output = none

/-- The invariant: the kernel has been offered the rest of the block, and nothing else. -/
structure Conserved (c : Channel κ) : Prop extends Balanced c c.stream.unacknowledged where
  idle : c.stream.write = none → c.stream.outputPartial = 0 ∧ c.stream.outputFlushed = 0
  armed : ∀ id, c.stream.write = some id → c.stream.unacknowledged ≠ [] ∧
    ∃ op, (id.slot, op) ∈ c.reactor.ring ∧ op.output = some c.stream.unacknowledged
  alone : ∀ slot op data, (slot, op) ∈ c.reactor.ring → op.output = some data →
    ∃ id, c.stream.write = some id ∧ id.slot = slot

def Silent (r : Reactor κ) : Prop := ∀ slot op, (slot, op) ∈ r.ring → op.output = none

def update (c : Channel κ) (x : Stream × Reactor κ) : Channel κ :=
  { c with stream := x.1, reactor := x.2 }

variable {users : StreamUsers κ} {c : Channel κ} {rest : Bytes}

/-- Sending the rest of the block. -/
theorem Balanced.streamOutput (h : c.Balanced rest) (hsilent : Silent c.reactor)
    (hrest : rest = c.stream.outputWriting.data.drop c.stream.outputPartial) (hne : rest ≠ []) :
    (c.update (Stream.streamOutput users c.stream c.reactor)).Conserved := by
  obtain ⟨op, hop, heq⟩ : ∃ op : Op, op.output = some rest ∧
      Stream.streamOutput users c.stream c.reactor =
        ({ c.stream with write := some (c.reactor.submit op users.send).1 },
          (c.reactor.submit op users.send).2) := by
    rw [hrest]
    cases htype : c.stream.type with
    | socket =>
      refine ⟨.send c.stream.fd (c.stream.outputWriting.data.drop c.stream.outputPartial), rfl, ?_⟩
      simp only [Stream.streamOutput, htype]
    | file =>
      refine ⟨.write c.stream.fd (c.stream.outputWriting.data.drop c.stream.outputPartial)
        c.stream.outputOffset, rfl, ?_⟩
      simp only [Stream.streamOutput, htype]
  have hunack : ∀ id, Stream.unacknowledged { c.stream with write := some id } = rest :=
    fun id => (if_pos (.inl rfl)).trans hrest.symm
  have hmem : ∀ {entry}, entry ∈ (c.reactor.submit op users.send).2.ring ↔
      entry ∈ c.reactor.ring ∨ entry = ((c.reactor.submit op users.send).1.slot, op) := by
    intro entry
    rw [Reactor.ring_submit, List.mem_append, List.mem_singleton]
  rw [heq]
  refine ⟨⟨h.wellFormed.submit users.send op, h.isOpen, h.block, ?_, ?_, h.flushed, ?_⟩, nofun,
    ?_, ?_⟩
  · simp only [update, hunack]
    exact h.conserved
  · simp only [update, hunack]
    exact h.covered
  · intro id hid
    obtain ⟨op', hmem', hop'⟩ := h.reading id hid
    exact ⟨op', hmem.mpr (.inl hmem'), hop'⟩
  · rintro id ⟨⟩
    simp only [update, hunack]
    exact ⟨hne, op, hmem.mpr (.inr rfl), hop⟩
  · intro slot op' data hmem' hop'
    rcases hmem.mp hmem' with hold | hnew
    · rw [hsilent slot op' hold] at hop'
      cases hop'
    · cases hnew
      exact ⟨_, rfl, rfl⟩

/-- What has been flushed becomes the block. -/
theorem Balanced.switchOutput (h : c.Balanced []) :
    (c.update (c.stream.switchOutput, c.reactor)).Balanced
      (c.stream.outputWaiting.data.take c.stream.outputFlushed) := by
  have hle : c.stream.outputFlushed ≤ c.stream.outputWaiting.data.length := h.flushed
  refine ⟨h.wellFormed, h.isOpen, fun hne => absurd rfl hne, ?_, ?_, Nat.zero_le _, h.reading⟩
  · simp only [update, Stream.switchOutput, Buffer.data_append, Buffer.data_clear, List.nil_append,
      List.take_append_drop]
    exact h.conserved
  · have hcovered := h.covered
    simp only [List.length_nil] at hcovered
    simp only [update, Stream.switchOutput, List.length_take]
    omega

variable (users) in
/-- Arming a read. -/
theorem Balanced.streamInput (h : c.Balanced rest) (hsilent : Silent c.reactor) :
    (c.update (Stream.streamInput users c.stream c.reactor)).Balanced rest ∧
      Silent (c.update (Stream.streamInput users c.stream c.reactor)).reactor ∧
      ∃ read input, (c.update (Stream.streamInput users c.stream c.reactor)).stream =
        { c.stream with read := read, input := input, inputConsumed := 0 } := by
  obtain ⟨input, hprepare⟩ := Stream.inputPrepare_eq c.stream
  obtain ⟨op, hop, heq⟩ : ∃ op : Op, op.output = none ∧
      Stream.streamInput users c.stream c.reactor =
        ({ c.stream with
          read := some (c.reactor.submit op users.recv).1, input := input, inputConsumed := 0 },
          (c.reactor.submit op users.recv).2) := by
    cases htype : c.stream.type with
    | socket =>
      refine ⟨.recv c.stream.fd Stream.blockSize, rfl, ?_⟩
      simp only [Stream.streamInput, hprepare, htype]
    | file =>
      refine ⟨.read c.stream.fd Stream.blockSize c.stream.inputOffset, rfl, ?_⟩
      simp only [Stream.streamInput, hprepare, htype]
  have hmem : ∀ {entry}, entry ∈ (c.reactor.submit op users.recv).2.ring ↔
      entry ∈ c.reactor.ring ∨ entry = ((c.reactor.submit op users.recv).1.slot, op) := by
    intro entry
    rw [Reactor.ring_submit, List.mem_append, List.mem_singleton]
  rw [heq]
  refine ⟨⟨h.wellFormed.submit users.recv op, h.isOpen, h.block, h.conserved, h.covered, h.flushed,
    ?_⟩, ?_, _, _, rfl⟩
  · rintro id ⟨⟩
    exact ⟨op, hmem.mpr (.inr rfl), hop⟩
  · intro slot op' hmem'
    rcases hmem.mp hmem' with hold | hnew
    · exact hsilent slot op' hold
    · cases hnew
      exact hop

variable (users) in
/-- The step lemma of `stream_update`, on a stream without a write in flight. -/
theorem Balanced.streamUpdate (h : c.Balanced c.stream.unacknowledged)
    (hsilent : Silent c.reactor) (hwrite : c.stream.write = none) :
    (c.update (Stream.streamUpdate users c.stream c.reactor)).Conserved := by
  have hopen := h.isOpen
  have hunack : c.stream.unacknowledged = if c.stream.outputPartial ≠ 0 then
      c.stream.outputWriting.data.drop c.stream.outputPartial else [] := by
    simp [Stream.unacknowledged, hwrite]
  simp only [Stream.streamUpdate, hopen, hwrite, not_true_eq_false, Option.isSome_none,
    Bool.false_eq_true, or_self, if_false]
  by_cases hpart : c.stream.outputPartial = 0
  · rw [if_neg (not_not.mpr hpart)] at hunack ⊢
    rw [hunack] at h
    by_cases hflushed : c.stream.outputFlushed = 0
    · rw [if_neg (not_not.mpr hflushed)]
      split_ifs with hread
      · obtain ⟨hbalanced, hsilent', read, input, heq⟩ := h.streamInput users hsilent
        have hunack' :
            (c.update (Stream.streamInput users c.stream c.reactor)).stream.unacknowledged
            = [] := by
          rw [heq]
          exact hunack
        refine ⟨hunack' ▸ hbalanced, fun _ => ?_, fun id hid => ?_, fun slot op data hmem hop => ?_⟩
        · rw [heq]
          exact ⟨hpart, hflushed⟩
        · rw [heq, hwrite] at hid
          cases hid
        · rw [hsilent' slot op hmem] at hop
          cases hop
      · refine ⟨hunack.symm ▸ h, fun _ => ⟨hpart, hflushed⟩, fun id hid => ?_,
          fun slot op data hmem hop => ?_⟩
        · simp [update, hwrite] at hid
        · rw [hsilent slot op hmem] at hop
          cases hop
    · rw [if_pos hflushed]
      have hle : c.stream.outputFlushed ≤ c.stream.outputWaiting.data.length := h.flushed
      refine h.switchOutput.streamOutput hsilent ?_ ?_
      · simp only [update, Stream.switchOutput, Buffer.data_resize, List.append_nil, List.drop_zero]
      · intro hnil
        have hlength := congrArg List.length hnil
        rw [List.length_take, List.length_nil] at hlength
        omega
  · rw [if_pos hpart] at hunack ⊢
    have hblock : c.stream.outputPartial < c.stream.outputWriting.data.length := h.block hpart
    refine h.streamOutput hsilent hunack fun hnil => ?_
    have hlength := congrArg List.length (hunack.symm.trans hnil)
    rw [List.length_drop, List.length_nil] at hlength
    omega

/-! ## Steps -/

theorem Conserved.silent (h : c.Conserved) (hwrite : c.stream.write = none) :
    Silent c.reactor := by
  intro slot op hmem
  cases hop : op.output with
  | none => rfl
  | some data =>
    obtain ⟨id, hid, -⟩ := h.alone slot op data hmem hop
    rw [hwrite] at hid
    cases hid

theorem Balanced.length (h : c.Balanced rest) :
    c.acked.length + rest.length + c.stream.outputWaiting.size = c.written.length := by
  rw [← h.conserved, List.length_append, List.length_append, Nat.add_assoc]
  rfl

theorem Conserved.writeData (h : c.Conserved) (d : Bytes) :
    Conserved { c with stream := c.stream.writeData d, written := c.written ++ d } := by
  refine ⟨⟨h.wellFormed, h.isOpen, h.block, ?_, h.covered, ?_, h.reading⟩, h.idle, h.armed, h.alone⟩
  · simp only [Stream.writeData, Buffer.data_append, ← h.conserved, List.append_assoc]
    rfl
  · have hle := h.flushed
    simp only [Stream.writeData, Buffer.size, Buffer.data_append, List.length_append] at hle ⊢
    omega

theorem Conserved.streamFlush (h : c.Conserved) : Conserved { c with
    stream := (c.stream.streamFlush users c.reactor).1
    reactor := (c.stream.streamFlush users c.reactor).2
    flushed := c.written.length } := by
  have hlength := h.length
  have hbalanced : Balanced { c with
      stream := { c.stream with outputFlushed := c.stream.outputWaiting.size }
      flushed := c.written.length } c.stream.unacknowledged :=
    ⟨h.wellFormed, h.isOpen, h.block, h.conserved, hlength, Nat.le_refl _, h.reading⟩
  cases hwrite : c.stream.write with
  | none => exact hbalanced.streamUpdate users (h.silent hwrite) hwrite
  | some id =>
    have heq : c.stream.streamFlush users c.reactor =
        ({ c.stream with outputFlushed := c.stream.outputWaiting.size }, c.reactor) := by
      simp [Stream.streamFlush, Stream.streamUpdate, hwrite]
    rw [heq]
    exact ⟨hbalanced, fun hnone => by simp [hwrite] at hnone, h.armed, h.alone⟩

theorem Conserved.freeUser (h : c.Conserved) {slot : ℕ} (hrunning : c.running = some slot) :
    Conserved { c with reactor := c.reactor.freeUser slot, running := none } := by
  have hwellFormed := h.wellFormed
  rw [hrunning] at hwellFormed
  exact ⟨⟨hwellFormed.freeUser, h.isOpen, h.block, h.conserved, h.covered, h.flushed, h.reading⟩,
    h.idle, h.armed, h.alone⟩

theorem Conserved.offered_eq (h : c.Conserved) {id : Id} (hwrite : c.stream.write = some id)
    {data : Bytes} (hdata : c.offered id.slot = some data) : data = c.stream.unacknowledged := by
  obtain ⟨-, op, hmem, hop⟩ := h.armed id hwrite
  obtain ⟨⟨slot, op'⟩, hfind, hop'⟩ := Option.bind_eq_some_iff.mp hdata
  obtain rfl : slot = id.slot := by simpa using List.find?_some hfind
  obtain rfl := h.wellFormed.entry_unique hmem (List.mem_of_find?_eq_some hfind)
  exact Option.some.inj (hop'.symm.trans hop)

theorem Conserved.sendDone (h : c.Conserved) {id : Id} (hwrite : c.stream.write = some id)
    (hrunning : c.running = none) {n : ℕ} (hn : n ≠ 0) (hle : n ≤ c.stream.unacknowledged.length) :
    Conserved { c with
      stream := (c.stream.sendDone users n (c.reactor.takeRing id.slot)).1
      reactor := (c.stream.sendDone users n (c.reactor.takeRing id.slot)).2
      running := some id.slot
      acked := c.acked ++ c.stream.unacknowledged.take n } := by
  obtain ⟨-, op, hmem, hop⟩ := h.armed id hwrite
  have hunack : c.stream.unacknowledged =
      c.stream.outputWriting.data.drop c.stream.outputPartial := if_pos (.inl (by simp [hwrite]))
  have hlength : c.stream.unacknowledged.length =
      c.stream.outputWriting.data.length - c.stream.outputPartial := by
    rw [hunack, List.length_drop]
  have hheld := h.wellFormed.hold (Reactor.pending_takeRing hmem) rfl rfl rfl
  rw [hrunning] at hheld
  have hcovered := h.covered
  have hsilent : Silent (c.reactor.takeRing id.slot) := by
    intro slot op' hmem'
    obtain ⟨hold, hne⟩ := h.wellFormed.mem_takeRing.mp hmem'
    cases hop' : op'.output with
    | none => rfl
    | some data =>
      obtain ⟨id', hid', hslot⟩ := h.alone slot op' data hold hop'
      rw [hwrite] at hid'
      cases hid'
      exact absurd hslot.symm hne
  obtain ⟨sent, hsent⟩ : ∃ sent, sent = c.stream.outputPartial + n := ⟨_, rfl⟩
  obtain ⟨s, hs⟩ : ∃ s, s = { c.stream with
      write := none
      outputOffset := c.stream.outputOffset + n
      outputPartial := if sent = c.stream.outputWriting.size then 0 else sent } := ⟨_, rfl⟩
  have hrest : s.unacknowledged = c.stream.unacknowledged.drop n := by
    rw [hunack, List.drop_drop, hs, Stream.unacknowledged, hsent]
    dsimp only
    split_ifs with hend hne hne
    · simp at hne
    · rw [hend, Buffer.size, List.drop_length]
    · rfl
    · simp only [Option.isSome_none, Bool.false_eq_true, false_or] at hne
      omega
  have hbalanced : Balanced { c with
      stream := s, reactor := c.reactor.takeRing id.slot, running := some id.slot,
      acked := c.acked ++ c.stream.unacknowledged.take n } s.unacknowledged := by
    rw [hrest]
    refine ⟨hheld, ?_, fun hne => ?_, ?_, ?_, ?_, ?_⟩
    · rw [hs]
      exact h.isOpen
    · rw [hs] at hne ⊢
      dsimp only at hne ⊢
      split_ifs at hne ⊢ with hend
      · exact absurd rfl hne
      · simp only [Buffer.size] at hend ⊢
        omega
    · rw [hs, List.append_assoc, ← List.append_assoc (List.take n _), List.take_append_drop]
      exact h.conserved
    · rw [hs, List.length_append, List.length_take, List.length_drop]
      dsimp only at hcovered ⊢
      omega
    · rw [hs]
      exact h.flushed
    · intro id' hid'
      rw [hs] at hid'
      obtain ⟨op', hmem', hop'⟩ := h.reading id' hid'
      refine ⟨op', h.wellFormed.mem_takeRing.mpr ⟨hmem', fun hslot => ?_⟩, hop'⟩
      dsimp only at hslot
      rw [hslot] at hmem'
      rw [h.wellFormed.entry_unique hmem' hmem, hop] at hop'
      cases hop'
  have hwrite' : s.write = none := by rw [hs]
  have hupdate := hbalanced.streamUpdate users hsilent hwrite'
  rw [hs, hsent] at hupdate
  exact hupdate

theorem Conserved.recvBegin (h : c.Conserved) {id : Id} (hread : c.stream.read = some id)
    (hrunning : c.running = none) (received : Bytes) : Conserved { c with
      stream := c.stream.recvBegin received
      reactor := c.reactor.takeRing id.slot
      running := some id.slot } := by
  obtain ⟨op, hmem, hop⟩ := h.reading id hread
  have hheld := h.wellFormed.hold (Reactor.pending_takeRing hmem) rfl rfl rfl
  rw [hrunning] at hheld
  refine ⟨⟨hheld, h.isOpen, h.block, h.conserved, h.covered, h.flushed, nofun⟩, h.idle, ?_, ?_⟩
  · intro id' hid'
    obtain ⟨hne, op', hmem', hop'⟩ := h.armed id' hid'
    refine ⟨hne, op', h.wellFormed.mem_takeRing.mpr ⟨hmem', fun hslot => ?_⟩, hop'⟩
    dsimp only at hslot
    rw [hslot] at hmem'
    rw [h.wellFormed.entry_unique hmem' hmem, hop] at hop'
    cases hop'
  · intro slot op' data hmem'
    exact h.alone slot op' data (h.wellFormed.mem_takeRing.mp hmem').1

theorem Conserved.recvEnd (h : c.Conserved) :
    (c.update (c.stream.recvEnd users c.reactor)).Conserved := by
  cases hwrite : c.stream.write with
  | none =>
    have hbalanced : Balanced { c with stream := { c.stream with abort := false } }
        c.stream.unacknowledged :=
      ⟨h.wellFormed, h.isOpen, h.block, h.conserved, h.covered, h.flushed, h.reading⟩
    exact hbalanced.streamUpdate users (h.silent hwrite) hwrite
  | some id =>
    have heq : c.stream.recvEnd users c.reactor =
        ({ c.stream with abort := false }, c.reactor) := by
      simp [Stream.recvEnd, Stream.streamUpdate, hwrite]
    rw [heq]
    exact ⟨⟨h.wellFormed, h.isOpen, h.block, h.conserved, h.covered, h.flushed, h.reading⟩,
      h.idle, h.armed, h.alone⟩

theorem step_acknowledge {n : ℕ} {c' : Channel κ}
    (h : Channel.step users c (.acknowledge n) = some c') :
    ∃ id data, c.stream.write = some id ∧ c.offered id.slot = some data ∧ c.running = none ∧
      n ≠ 0 ∧ n ≤ data.length ∧ c' = { c with
        stream := (c.stream.sendDone users n (c.reactor.takeRing id.slot)).1
        reactor := (c.stream.sendDone users n (c.reactor.takeRing id.slot)).2.freeUser id.slot
        running := none
        acked := c.acked ++ data.take n } := by
  cases hwrite : c.stream.write with
  | none => simp [Channel.step, hwrite] at h
  | some id =>
    cases hdata : c.offered id.slot with
    | none => simp [Channel.step, hwrite, hdata] at h
    | some data =>
      simp only [Channel.step, hwrite, hdata, Option.bind_eq_bind, Option.bind_some] at h
      split_ifs at h with hguard
      simp only [not_or, Bool.not_eq_true, Option.isSome_eq_false_iff, Option.isNone_iff_eq_none,
        not_lt] at hguard
      obtain ⟨hrunning, hn, hle⟩ := hguard
      refine ⟨id, data, rfl, hdata, hrunning, hn, hle, ?_⟩
      rw [← Option.some.inj h, ← hrunning]

/-- The step lemma. -/
theorem Conserved.step {l : ChannelLabel} {c' : Channel κ} (h : c.Conserved)
    (hstep : Channel.step users c l = some c') : c'.Conserved := by
  cases l with
  | write d =>
    cases hstep
    exact h.writeData d
  | flush =>
    cases hstep
    exact h.streamFlush
  | acknowledge n =>
    obtain ⟨id, data, hwrite, hdata, hrunning, hn, hle, rfl⟩ := step_acknowledge hstep
    obtain rfl := h.offered_eq hwrite hdata
    exact (h.sendDone hwrite hrunning hn hle).freeUser rfl
  | receive received =>
    obtain ⟨id, hread, hstep⟩ := Option.bind_eq_some_iff.mp hstep
    split_ifs at hstep with hguard
    cases hstep
    simp only [not_or, Bool.not_eq_true, Option.isSome_eq_false_iff,
      Option.isNone_iff_eq_none] at hguard
    exact h.recvBegin hread hguard.1 received
  | received =>
    obtain ⟨slot, hrunning, hstep⟩ := Option.bind_eq_some_iff.mp hstep
    cases hstep
    exact h.recvEnd.freeUser hrunning

theorem conserved_opened (users : StreamUsers κ) (fd flags : ℕ) (type : StreamType) :
    (opened users fd flags type).Conserved := by
  have hbalanced : Balanced (κ := κ)
      ⟨{ Stream.construct with fd := fd, flags := flags, type := type },
      .construct, none, [], 0, []⟩ [] := by
    refine ⟨Reactor.wellFormed_construct, ?_, fun hne => absurd rfl hne, rfl, rfl, Nat.zero_le _,
      nofun⟩
    simp [Stream.isOpen]
  exact hbalanced.streamUpdate users nofun rfl

end Channel

/-- In every run of an open stream the output is a queue: what is acknowledged, what is in flight
and what waits are the bytes written, the kernel is offered flushed bytes only, and without a
write in flight all flushed bytes are acknowledged. -/
theorem streamOutput_conserved (users : StreamUsers κ) (fd flags : ℕ) (type : StreamType)
    {c : Channel κ}
    (h : Reach (Channel.step users) (fun _ _ => True) (Channel.opened users fd flags type) c) :
    c.acked ++ (if c.stream.write.isSome
      then c.stream.outputWriting.data.drop c.stream.outputPartial
      else []) ++ c.stream.outputWaiting.data = c.written ∧
    (∀ slot op data, (slot, op) ∈ c.reactor.ring → op.output = some data →
      c.acked ++ data <+: c.written.take c.flushed) ∧
    (c.stream.write = none → c.acked = c.written.take c.flushed) := by
  have hc : c.Conserved := h.invariant (Channel.conserved_opened users fd flags type)
    (fun _ _ _ hi _ hstep => hi.step hstep)
  have hconserved := hc.conserved
  have hcovered := hc.covered
  have hprefix : c.acked ++ c.stream.unacknowledged <+: c.written.take c.flushed := by
    rw [← hconserved, ← List.append_assoc]
    refine List.prefix_take_iff.mpr ⟨List.prefix_append _ _, ?_⟩
    rw [List.length_append]
    omega
  have hunack : c.stream.unacknowledged = if c.stream.write.isSome then
      c.stream.outputWriting.data.drop c.stream.outputPartial else [] := by
    cases hwrite : c.stream.write with
    | none => simp [Stream.unacknowledged, hwrite, (hc.idle hwrite).1]
    | some id => simp [Stream.unacknowledged, hwrite]
  refine ⟨?_, ?_, fun hwrite => ?_⟩
  · rw [← hunack, List.append_assoc]
    exact hconserved
  · intro slot op data hmem hop
    obtain ⟨id, hwrite, rfl⟩ := hc.alone slot op data hmem hop
    obtain ⟨-, op', hmem', hop'⟩ := hc.armed id hwrite
    obtain rfl := hc.wellFormed.entry_unique hmem hmem'
    rw [hop'] at hop
    cases hop
    exact hprefix
  · have hnil : c.stream.unacknowledged = [] := by
      rw [hunack, hwrite]
      rfl
    have hidle := (hc.idle hwrite).2
    rw [hnil, List.nil_append] at hconserved
    rw [hnil, List.length_nil, hidle] at hcovered
    rw [← hconserved, ← hcovered]
    simp

/-- A run in which the kernel takes half of a block while more is written. -/
theorem streamOutput_conserved_partialSend :
    ∃ c, exec (Channel.step (⟨0, 1, 2, 3⟩ : StreamUsers ℕ))
        (Channel.opened ⟨0, 1, 2, 3⟩ 3 0 .socket)
        [.write (str "ab"), .flush, .write (str "c"), .acknowledge 1] = some c ∧
      c.acked = str "a" ∧
      c.acked ++ (if c.stream.write.isSome then
        c.stream.outputWriting.data.drop c.stream.outputPartial else []) ++
        c.stream.outputWaiting.data = c.written ∧
      (∀ slot op data, (slot, op) ∈ c.reactor.ring → op.output = some data →
        c.acked ++ data <+: c.written.take c.flushed) ∧
      (c.stream.write = none → c.acked = c.written.take c.flushed) := by
  obtain ⟨c, hc⟩ := Option.isSome_iff_exists.mp
    (show (exec (Channel.step (⟨0, 1, 2, 3⟩ : StreamUsers ℕ))
      (Channel.opened ⟨0, 1, 2, 3⟩ 3 0 .socket)
      [.write (str "ab"), .flush, .write (str "c"), .acknowledge 1]).isSome = true from rfl)
  refine ⟨c, hc, ?_, streamOutput_conserved _ 3 0 .socket (.of_exec (fun _ _ => trivial) hc)⟩
  have hacked : (exec (Channel.step (⟨0, 1, 2, 3⟩ : StreamUsers ℕ))
      (Channel.opened ⟨0, 1, 2, 3⟩ 3 0 .socket)
      [.write (str "ab"), .flush, .write (str "c"), .acknowledge 1]).map Channel.acked =
        some (str "a") := rfl
  rw [hc] at hacked
  exact Option.some.inj hacked

end LibReactor
