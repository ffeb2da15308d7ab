import LibReactor.Stream

/-!
# The callbacks of a stream

The fields `read` and `write` name the callbacks that have the stream as their state.
`stream_update` starts at most one operation, and `stream_close` cancels both; every other
callback stays as it was.
-/

namespace LibReactor

variable {κ : Type*}

namespace Reactor

variable {r : Reactor κ} {held : List ℕ} {user other noop : κ} {field field' : Option Id}
  {tag tag' : Bool}

def cancelField (noop other : κ) (r : Reactor κ) : Option Id → Reactor κ
  | some id => r.reactorCancel noop id other
  | none => r

theorem WellFormed.cancelField (h : r.WellFormed held) :
    (r.cancelField noop other field).WellFormed held := by
  cases field with
  | some id => exact h.reactorCancel noop other id
  | none => exact h

theorem Tracks.cancelField (hwf : r.WellFormed held) (h : r.Tracks user field tag)
    (hnoop : user ≠ noop) (hother : user ≠ other) :
    (r.cancelField noop other field).Tracks user none tag := by
  cases field with
  | some id => exact h.cancel hwf hnoop hother
  | none => exact h

theorem Tracks.not_holds_of_ne {id : Id} (h : r.Tracks user (some id) tag) (hne : user ≠ other) :
    ¬r.Holds id.slot other := by
  intro hholds
  exact hne (h.holds_slot.unique hholds)

theorem Tracks.take_of_ne {slot : ℕ} (hwf : r.WellFormed held) (h : r.Tracks user field tag)
    (hslot : r.Holds slot other) (hne : user ≠ other) : (r.take slot).Tracks user field tag :=
  h.take_other hwf hslot.1 fun hholds => hne (hholds.unique hslot)

theorem Tracks.cancelField_other {user' : κ} (hwf : r.WellFormed held)
    (h : r.Tracks user field tag) (h' : r.Tracks user' field' tag') (hne : user' ≠ user)
    (hnoop : user ≠ noop) (hother : user ≠ other) :
    (r.cancelField noop other field').Tracks user field tag := by
  cases field' with
  | some id => exact h.cancel_other hwf hnoop hother (h'.not_holds_of_ne hne)
  | none => exact h

end Reactor

structure StreamUsers.Distinct (users : StreamUsers κ) : Prop where
  recv_send : users.recv ≠ users.send
  recv_noop : users.recv ≠ users.noop
  recv_release : users.recv ≠ users.releaseBuffer
  send_noop : users.send ≠ users.noop
  send_release : users.send ≠ users.releaseBuffer

/-- A callback that no function of the stream writes. -/
structure StreamUsers.Apart (users : StreamUsers κ) (user : κ) : Prop where
  noop : user ≠ users.noop
  recv : user ≠ users.recv
  send : user ≠ users.send
  release : user ≠ users.releaseBuffer

namespace Stream

variable {users : StreamUsers κ} {s : Stream} {r : Reactor κ} {held : List ℕ}

/-- What `stream_update` may do: nothing, or start one operation. -/
inductive Updates (users : StreamUsers κ) (s : Stream) (r : Reactor κ) : Stream × Reactor κ → Prop
  | same : Updates users s r (s, r)
  | output (op : Op) : s.write = none → Updates users s r
      ({ s with write := some (r.submit op users.send).1 }, (r.submit op users.send).2)
  | switch (op : Op) : s.write = none → Updates users s r
      ({ s.switchOutput with write := some (r.submit op users.send).1 },
        (r.submit op users.send).2)
  | input (op : Op) : s.read = none → Updates users s r
      ({ s.inputPrepare with read := some (r.submit op users.recv).1 },
        (r.submit op users.recv).2)

theorem streamOutput_eq (users : StreamUsers κ) (s : Stream) (r : Reactor κ) :
    ∃ op : Op, streamOutput users s r =
      ({ s with write := some (r.submit op users.send).1 }, (r.submit op users.send).2) := by
  cases htype : s.type with
  | socket =>
    exact ⟨.send s.fd (s.outputWriting.data.drop s.outputPartial), by
      simp only [streamOutput, htype]⟩
  | file =>
    exact ⟨.write s.fd (s.outputWriting.data.drop s.outputPartial) s.outputOffset, by
      simp only [streamOutput, htype]⟩

theorem updates_streamUpdate (users : StreamUsers κ) (s : Stream) (r : Reactor κ) :
    Updates users s r (streamUpdate users s r) := by
  unfold streamUpdate
  by_cases hbusy : ¬ s.isOpen = true ∨ s.write.isSome = true
  · rw [if_pos hbusy]
    exact .same
  rw [if_neg hbusy]
  have hwrite : s.write = none := by
    cases hid : s.write with
    | none => rfl
    | some id => simp [hid] at hbusy
  by_cases hpartial : s.outputPartial ≠ 0
  · rw [if_pos hpartial]
    obtain ⟨op, hop⟩ := streamOutput_eq users s r
    rw [hop]
    exact .output op hwrite
  rw [if_neg hpartial]
  by_cases hflushed : s.outputFlushed ≠ 0
  · rw [if_pos hflushed]
    obtain ⟨op, hop⟩ := streamOutput_eq users s.switchOutput r
    rw [hop]
    exact .switch op hwrite
  rw [if_neg hflushed]
  by_cases hidle : s.read.isNone = true ∧ s.flags = 0
  · rw [if_pos hidle]
    exact .input _ (Option.isNone_iff_eq_none.mp hidle.1)
  · rw [if_neg hidle]
    exact .same

structure Tracked (users : StreamUsers κ) (s : Stream) (r : Reactor κ) (held : List ℕ) : Prop where
  wellFormed : r.WellFormed held
  read : r.Tracks users.recv s.read false
  write : r.Tracks users.send s.write false

theorem Tracked.streamUpdate (hu : users.Distinct) (h : s.Tracked users r held) :
    (streamUpdate users s r).1.Tracked users (streamUpdate users s r).2 held := by
  obtain ⟨hwf, hread, hwrite⟩ := h
  have hupdates := updates_streamUpdate users s r
  generalize Stream.streamUpdate users s r = x at hupdates ⊢
  cases hupdates with
  | same => exact ⟨hwf, hread, hwrite⟩
  | output op hnone | switch op hnone =>
    rw [hnone] at hwrite
    exact ⟨hwf.submit _ op, hread.submit_other hwf op _ hu.recv_send, hwrite.submit hwf op⟩
  | input op hnone =>
    rw [hnone] at hread
    obtain ⟨input, hprepare⟩ := inputPrepare_eq s
    have hsame : s.inputPrepare.write = s.write := by rw [hprepare]
    refine ⟨hwf.submit _ op, hread.submit hwf op, ?_⟩
    dsimp only
    rw [hsame]
    exact hwrite.submit_other hwf op _ hu.recv_send.symm

theorem Tracked.recvEnd (hu : users.Distinct) (h : s.Tracked users r held) :
    (recvEnd users s r).1.Tracked users (recvEnd users s r).2 held :=
  Tracked.streamUpdate hu (s := { s with abort := false }) ⟨h.wellFormed, h.read, h.write⟩

theorem frame_streamUpdate (s : Stream) (r : Reactor κ) :
    (s.streamUpdate users r).1.abort = s.abort ∧ (s.streamUpdate users r).1.fd = s.fd := by
  have hupdates := updates_streamUpdate users s r
  generalize Stream.streamUpdate users s r = x at hupdates ⊢
  cases hupdates with
  | same | output | switch => exact ⟨rfl, rfl⟩
  | input op =>
    obtain ⟨input, hprepare⟩ := inputPrepare_eq s
    rw [hprepare]
    exact ⟨rfl, rfl⟩

theorem isOpen_streamUpdate (s : Stream) (r : Reactor κ) :
    (s.streamUpdate users r).1.isOpen = s.isOpen := by
  unfold isOpen
  rw [(frame_streamUpdate s r).2]

theorem wellFormed_streamUpdate (h : r.WellFormed held) :
    (Stream.streamUpdate users s r).2.WellFormed held := by
  have hupdates := updates_streamUpdate users s r
  generalize Stream.streamUpdate users s r = x at hupdates ⊢
  cases hupdates with
  | same => exact h
  | output op | switch op | input op => exact h.submit _ op

theorem tracks_streamUpdate {user : κ} {field : Option Id} {tag : Bool} (hwf : r.WellFormed held)
    (hu : users.Apart user) (h : r.Tracks user field tag) :
    (streamUpdate users s r).2.Tracks user field tag := by
  have hupdates := updates_streamUpdate users s r
  generalize Stream.streamUpdate users s r = x at hupdates ⊢
  cases hupdates with
  | same => exact h
  | output op | switch op => exact h.submit_other hwf op _ hu.send
  | input op => exact h.submit_other hwf op _ hu.recv

theorem holds_streamUpdate {slot : ℕ} {user : κ} (hwf : r.WellFormed held)
    (h : r.Holds slot user) : (streamUpdate users s r).2.Holds slot user := by
  have hupdates := updates_streamUpdate users s r
  generalize Stream.streamUpdate users s r = x at hupdates ⊢
  cases hupdates with
  | same => exact h
  | output op | switch op | input op => exact (hwf.holds_submit _ op _ _).mpr (.inr h)

/-! ## Buffers -/

def Buffered (s : Stream) : Prop :=
  s.inputConsumed ≤ s.input.data.length ∧ s.input.data.length < 2 ^ 63

def Covered (s : Stream) : Prop := s.outputFlushed = s.outputWaiting.size

theorem unread_streamUpdate (s : Stream) (r : Reactor κ) :
    (streamUpdate users s r).1.unread = s.unread := by
  have hupdates := updates_streamUpdate users s r
  generalize Stream.streamUpdate users s r = x at hupdates ⊢
  cases hupdates with
  | same | output | switch => rfl
  | input => exact unread_inputPrepare s

theorem length_inputPrepare (s : Stream) :
    s.inputPrepare.input.data.length ≤ s.input.data.length := by
  unfold inputPrepare
  dsimp only
  split_ifs <;> simp

theorem Buffered.streamUpdate (h : s.Buffered) (r : Reactor κ) :
    (Stream.streamUpdate users s r).1.Buffered := by
  have hupdates := updates_streamUpdate users s r
  generalize Stream.streamUpdate users s r = x at hupdates ⊢
  cases hupdates with
  | same | output | switch => exact h
  | input =>
    have hlength := length_inputPrepare s
    have hconsumed := inputConsumed_inputPrepare s
    have hsize := h.2
    exact ⟨hconsumed ▸ Nat.zero_le _, hlength.trans_lt hsize⟩

theorem Covered.streamUpdate (h : s.Covered) (r : Reactor κ) :
    (Stream.streamUpdate users s r).1.Covered := by
  have hupdates := updates_streamUpdate users s r
  generalize Stream.streamUpdate users s r = x at hupdates ⊢
  cases hupdates with
  | same | output => exact h
  | switch =>
    have hflushed : s.outputFlushed = s.outputWaiting.data.length := h
    show 0 = (s.outputWriting.clear.append (s.outputWaiting.data.drop s.outputFlushed)).size
    rw [Buffer.size, Buffer.data_append, hflushed, List.drop_length, Buffer.data_clear]
    rfl
  | input =>
    obtain ⟨input, hprepare⟩ := inputPrepare_eq s
    rw [hprepare]
    exact h

/-- The bytes of the send buffer and those that wait behind them. -/
def outgoing (s : Stream) : Bytes := s.outputWriting.data ++ s.outputWaiting.data

/-- What `stream_update` takes from the waiting bytes is the next block of the send buffer. -/
theorem suffix_streamUpdate (s : Stream) (r : Reactor κ) :
    (Stream.streamUpdate users s r).1.outgoing <:+ s.outgoing := by
  have hupdates := updates_streamUpdate users s r
  generalize Stream.streamUpdate users s r = x at hupdates ⊢
  cases hupdates with
  | same | output => exact List.suffix_refl _
  | switch =>
    show (s.outputWaiting.resize s.outputFlushed []).data ++
      (s.outputWriting.clear.append (s.outputWaiting.data.drop s.outputFlushed)).data <:+ _
    rw [Buffer.data_resize, Buffer.data_append, Buffer.data_clear, List.append_nil, List.nil_append,
      List.take_append_drop]
    exact List.suffix_append _ _
  | input =>
    obtain ⟨input, hprepare⟩ := inputPrepare_eq s
    rw [hprepare]
    exact List.suffix_refl _

/-! ## Closing -/

/-- `stream_close` cancels what the fields name, and closes the descriptor. -/
theorem streamClose_snd (s : Stream) (r : Reactor κ) :
    (streamClose users s r).2 =
      if 0 ≤ s.fd then
        (((r.cancelField users.noop users.releaseBuffer s.read).cancelField users.noop
          users.releaseBuffer s.write).submit (.close s.fd) users.noop).2
      else (r.cancelField users.noop users.releaseBuffer s.read).cancelField users.noop
        users.releaseBuffer s.write := by
  obtain ⟨fd, type, flags, abort, read, inputOffset, input, inputConsumed, write, outputOffset,
    outputPartial, outputWriting, outputWaiting, outputFlushed⟩ := s
  cases read <;> cases write <;> unfold streamClose <;> dsimp only [Reactor.cancelField] <;>
    split_ifs <;> rfl

theorem streamClose_fst (users : StreamUsers κ) (s : Stream) (r : Reactor κ) :
    ∃ input outputWriting fd, fd < 0 ∧ (streamClose users s r).1 =
      { s with
        read := none
        write := none
        input := input
        outputWriting := outputWriting
        fd := fd } := by
  obtain ⟨fd, type, flags, abort, read, inputOffset, input, inputConsumed, write, outputOffset,
    outputPartial, outputWriting, outputWaiting, outputFlushed⟩ := s
  by_cases hfd : 0 ≤ fd
  · cases read <;> cases write <;> unfold streamClose <;> dsimp only <;> rw [if_pos hfd] <;>
      exact ⟨_, _, -1, by omega, rfl⟩
  · cases read <;> cases write <;> unfold streamClose <;> dsimp only <;> rw [if_neg hfd] <;>
      exact ⟨_, _, fd, by omega, rfl⟩

theorem wellFormed_streamClose (h : r.WellFormed held) :
    (Stream.streamClose users s r).2.WellFormed held := by
  rw [streamClose_snd]
  split_ifs
  · exact h.cancelField.cancelField.submit _ _
  · exact h.cancelField.cancelField

theorem Tracked.cancelled (hu : users.Distinct) (h : s.Tracked users r held) :
    { s with read := none, write := none : Stream }.Tracked users
      ((r.cancelField users.noop users.releaseBuffer s.read).cancelField users.noop
        users.releaseBuffer s.write) held := by
  obtain ⟨hwf, hread, hwrite⟩ := h
  have hwf' : (r.cancelField users.noop users.releaseBuffer s.read).WellFormed held :=
    hwf.cancelField
  have hread' := hread.cancelField hwf hu.recv_noop hu.recv_release
  have hwrite' := hwrite.cancelField_other hwf hread hu.recv_send hu.send_noop hu.send_release
  exact ⟨hwf'.cancelField, hread'.cancelField_other hwf' hwrite' hu.recv_send.symm hu.recv_noop
    hu.recv_release, hwrite'.cancelField hwf' hu.send_noop hu.send_release⟩

theorem Tracked.streamClose (hu : users.Distinct) (h : s.Tracked users r held) :
    (streamClose users s r).1.Tracked users (streamClose users s r).2 held := by
  obtain ⟨hwf, hread, hwrite⟩ := h.cancelled hu
  obtain ⟨input, outputWriting, fd, -, heq⟩ := streamClose_fst users s r
  rw [heq, streamClose_snd]
  split_ifs with hfd
  · exact ⟨hwf.submit _ _, hread.submit_other hwf _ _ hu.recv_noop,
      hwrite.submit_other hwf _ _ hu.send_noop⟩
  · exact ⟨hwf, hread, hwrite⟩

/-- Closing leaves no callback of the stream. -/
theorem Tracked.streamClose_none (hu : users.Distinct) (h : s.Tracked users r held) :
    (Stream.streamClose users s r).2.Tracks users.recv none false ∧
      (Stream.streamClose users s r).2.Tracks users.send none false := by
  have hclosed := h.streamClose hu
  obtain ⟨input, outputWriting, fd, -, heq⟩ := streamClose_fst users s r
  rw [heq] at hclosed
  exact ⟨hclosed.read, hclosed.write⟩

/-- A callback of another object is not cancelled. -/
theorem Tracked.tracks_streamClose {user : κ} {field : Option Id} {tag : Bool}
    (hu : users.Distinct) (h : s.Tracked users r held) (hapart : users.Apart user)
    (huser : r.Tracks user field tag) :
    (Stream.streamClose users s r).2.Tracks user field tag := by
  have hwf' : (r.cancelField users.noop users.releaseBuffer s.read).WellFormed held :=
    h.wellFormed.cancelField
  have hwrite' := h.write.cancelField_other h.wellFormed h.read hu.recv_send hu.send_noop
    hu.send_release
  have huser' := huser.cancelField_other h.wellFormed h.read hapart.recv.symm hapart.noop
    hapart.release
  have hkept := huser'.cancelField_other hwf' hwrite' hapart.send.symm hapart.noop hapart.release
  rw [streamClose_snd]
  split_ifs with hfd
  · exact hkept.submit_other (h.cancelled hu).wellFormed _ _ hapart.noop
  · exact hkept

end Stream

end LibReactor
