import LibReactor.StreamReady

/-!
# A send that fails

`stream_send` reports an error and forgets the write. The block is sent again only if a part of it
was acknowledged before, because only then `output_partial` tells of it.
-/

namespace LibReactor

open Transition

namespace HeapStream

variable {moves : ℕ → ℕ → Bool} {s : HeapStream} {m : BufferMemory}

def output (s : HeapStream) : Bytes :=
  (if s.write.isSome ∨ s.outputPartial ≠ 0 then s.rest else []) ++ s.outputWaiting.buffer.data

theorem output_failed (s : HeapStream) : HeapStream.output { s with write := none } =
    (if s.outputPartial ≠ 0 then s.rest else []) ++ s.outputWaiting.buffer.data := by
  change (if (none : Option Id).isSome ∨ s.outputPartial ≠ 0 then s.rest else []) ++
    s.outputWaiting.buffer.data = _
  simp only [Option.isSome_none, Bool.false_eq_true, false_or]

/-- `stream_update` loses and reorders nothing that the stream knows of. -/
theorem output_streamUpdate (s : HeapStream) (m : BufferMemory) :
    (s.streamUpdate moves m).1.output = s.output := by
  unfold streamUpdate
  by_cases hidle : ¬ s.isOpen ∨ s.write.isSome
  · rw [if_pos hidle]
  · rw [if_neg hidle]
    have hwrite : s.write = none := by simpa using (not_or.mp hidle).2
    split_ifs with hblock hflushed hread
    · change (if _ ∨ _ then s.rest else []) ++ s.outputWaiting.buffer.data = s.output
      rw [if_pos (.inl rfl), output, if_pos (.inr hblock)]
    · have hrest : (s.switchOutput moves m.heap).1.rest = _ := rest_switchOutput s m.heap
      change (if _ ∨ _ then (s.switchOutput moves m.heap).1.rest else []) ++
        (s.outputWriting.buffer.clear.append
          (s.outputWaiting.buffer.data.drop s.outputFlushed)).data = s.output
      have hnone : ¬ (s.write.isSome ∨ s.outputPartial ≠ 0) := by
        rw [hwrite]
        simpa using hblock
      rw [if_pos (.inl rfl), hrest, Buffer.data_append, Buffer.data_clear, List.nil_append,
        List.take_append_drop, output, if_neg hnone, List.nil_append]
    · obtain ⟨hpart, hwriting, hwrite', hwaiting, -⟩ := output_eraseConsumed s
      change (if s.eraseConsumed.write.isSome ∨ s.eraseConsumed.outputPartial ≠ 0 then
        s.eraseConsumed.outputWriting.buffer.data.drop s.eraseConsumed.outputPartial else []) ++
        s.eraseConsumed.outputWaiting.buffer.data = s.output
      rw [hpart, hwriting, hwrite', hwaiting]
      rfl
    · rfl

theorem write_streamUpdate (hopen : s.isOpen = true) (hflushed : s.outputFlushed ≠ 0) :
    (s.streamUpdate moves m).1.write.isSome := by
  unfold streamUpdate
  split_ifs with hidle
  · exact hidle.resolve_left fun hnot => hnot hopen
  · rfl
  · rfl

end HeapStream

def StreamCall.stays : StreamCall → Bool
  | .open .. | .close | .destruct => false
  | _ => true

def StreamCall.written : StreamCall → Bytes
  | .write d => d
  | _ => []

namespace StreamMemory

variable {moves : ℕ → ℕ → Bool} {w w' : StreamMemory}

/-- No write is in flight before the step, and the stream is kept. -/
def Unsent (w : StreamMemory) (l : StreamCall) : Prop := w.stream.write = none ∧ l.stays = true

instance (w : StreamMemory) (l : StreamCall) : Decidable (w.Unsent l) :=
  inferInstanceAs (Decidable (_ ∧ _))

theorem Unsent.reopenable {l : StreamCall} (h : w.Unsent l) : w.Reopenable l := by
  intro hopens
  cases l with
  | «open» fd writeOnly type => cases h.2
  | _ => cases hopens

/-- A step before the next write is started adds what the user writes in it. -/
theorem Steady.output_step {l : StreamCall} (hw : w.Steady) (hok : w.Unsent l)
    (hstep : StreamMemory.step moves w l = some w') :
    w'.stream.output = w.stream.output ++ l.written ∧ w'.stream.isOpen = w.stream.isOpen := by
  obtain ⟨hwrite, hstays⟩ := hok
  cases l with
  | «open» fd writeOnly type => cases hstays
  | close => cases hstays
  | destruct => cases hstays
  | write d =>
    dsimp only [StreamMemory.step] at hstep
    split_ifs at hstep with hguard
    obtain rfl := Option.some.inj hstep
    refine ⟨?_, rfl⟩
    change (if w.stream.write.isSome ∨ w.stream.outputPartial ≠ 0 then w.stream.rest else []) ++
      (w.stream.outputWaiting.buffer.append d).data = _
    rw [Buffer.data_append, ← List.append_assoc]
    rfl
  | consume size =>
    dsimp only [StreamMemory.step] at hstep
    split_ifs at hstep with hguard
    obtain rfl := Option.some.inj hstep
    exact ⟨(List.append_nil _).symm, rfl⟩
  | flush =>
    dsimp only [StreamMemory.step] at hstep
    split_ifs at hstep with hguard
    obtain rfl := Option.some.inj hstep
    exact ⟨(HeapStream.output_streamUpdate _ _).trans (List.append_nil _).symm,
      HeapStream.isOpen_streamUpdate _ _⟩
  | call slot result received =>
    dsimp only [StreamMemory.step] at hstep
    split_ifs at hstep with hguard
    obtain ⟨user, huser, hcall⟩ := Option.bind_eq_some_iff.mp hstep
    cases user with
    | read =>
      dsimp only [StreamMemory.call] at hcall
      unfold StreamMemory.streamRecv at hcall
      dsimp only at hcall
      split_ifs at hcall
      · obtain rfl := Option.some.inj hcall
        exact ⟨(List.append_nil _).symm, rfl⟩
      · obtain rfl := Option.some.inj hcall
        exact ⟨(List.append_nil _).symm, rfl⟩
    | write =>
      have hsome := hw.write_of_holds ⟨hguard.2, huser⟩
      rw [hwrite] at hsome
      cases hsome
    | noop | release base | other n =>
      obtain rfl := Option.some.inj hcall
      exact ⟨(List.append_nil _).symm, rfl⟩
  | «return» =>
    obtain ⟨slot, reading, -, ⟨-, -, rfl⟩ | ⟨-, rfl⟩⟩ := StreamMemory.step_return hstep
    · exact ⟨(HeapStream.output_streamUpdate _ _).trans (List.append_nil _).symm,
        HeapStream.isOpen_streamUpdate _ _⟩
    · exact ⟨(List.append_nil _).symm, rfl⟩
  | other l =>
    obtain ⟨m, -, hstep⟩ := Option.map_eq_some_iff.mp hstep
    obtain rfl := hstep
    exact ⟨(List.append_nil _).symm, rfl⟩

theorem Steady.output_run {ls : List StreamCall} (hw : w.Steady)
    (hrun : exec (guarded (StreamMemory.step moves) Unsent) w ls = some w') :
    w'.Steady ∧ w'.stream.output = w.stream.output ++ ls.flatMap StreamCall.written ∧
      w'.stream.isOpen = w.stream.isOpen := by
  induction ls generalizing w with
  | nil =>
    obtain rfl := Option.some.inj hrun
    exact ⟨hw, (List.append_nil _).symm, rfl⟩
  | cons l ls ih =>
    obtain ⟨w₁, hstep, hrun⟩ := Option.bind_eq_some_iff.mp hrun
    rw [guarded, Option.ite_none_right_eq_some] at hstep
    obtain ⟨hok, hstep⟩ := hstep
    obtain ⟨houtput, hopen⟩ := hw.output_step hok hstep
    obtain ⟨hw', houtput', hopen'⟩ := ih (hw.step hok.reopenable hstep) hrun
    refine ⟨hw', ?_, hopen'.trans hopen⟩
    rw [houtput', houtput, List.flatMap_cons, List.append_assoc]

/-- `stream_flush` starts a write when there are bytes to send. -/
theorem Steady.flush_writes (hw : w.Steady) (hopen : w.stream.isOpen = true)
    (hwaiting : w.stream.outputWaiting.buffer.data ≠ []) :
    ∃ w' id, StreamMemory.step moves w .flush = some w' ∧ w'.stream.write = some id := by
  have hsize : w.stream.outputWaiting.buffer.size ≠ 0 := fun hzero =>
    hwaiting (List.length_eq_zero_iff.mp hzero)
  have hsome : (w.stream.streamFlush moves w.memory).1.write.isSome :=
    HeapStream.write_streamUpdate hopen hsize
  obtain ⟨id, hid⟩ := Option.isSome_iff_exists.mp hsome
  exact ⟨_, id, if_pos (hw.not_gone hopen), hid⟩

/-- After a send that failed the next bytes that the kernel is offered, with those that wait behind
them, are the bytes that were not acknowledged and all that is written after them exactly if a part
of the block had been acknowledged. The user hears of the error, and a flush offers what is written
after it. -/
theorem streamSend_failed (h : Reach (step moves) Reopenable construct w) {id : Id}
    (hwrite : w.stream.write = some id) (hrunning : w.running = none) {result : ℤ}
    (hresult : result ≤ 0) :
    ∃ w₁, step moves w (.call id.slot result []) = some w₁ ∧
      w₁.events = w.events ++ [.error (-result)] ∧
      ∀ ls w₂, exec (guarded (step moves) Unsent) w₁ ls = some w₂ →
        (∀ id', w₂.stream.write = some id' →
          (w₂.offered id'.slot ++ w₂.stream.outputWaiting.buffer.data =
            w.stream.rest ++ w.stream.outputWaiting.buffer.data ++
              ls.flatMap StreamCall.written ↔ w.stream.outputPartial ≠ 0)) ∧
        (w₂.stream.write = none → w₂.stream.outputWaiting.buffer.data ≠ [] →
          ∃ w₃ id', step moves w₂ .flush = some w₃ ∧ w₃.stream.write = some id') := by
  have hw : w.Steady := h.invariant steady_construct fun _ _ _ hw hok hstep => hw.step hok hstep
  have hopen := hw.isOpen_of_write hwrite
  have huses := (hw.tracked (hw.not_gone hopen)).write
  rw [hwrite] at huses
  have hslot := huses.tracks.holds_slot
  obtain ⟨w₁, hw₁⟩ : ∃ w₁ : StreamMemory, w₁ = StreamMemory.notify { w with
      stream := { w.stream with write := none }
      memory := w.memory.take id.slot } id.slot false (.error (-result)) := ⟨_, rfl⟩
  have hstep : step moves w (.call id.slot result []) = some w₁ := by
    have hcall : w.call moves id.slot result [] .write = some w₁ := by
      rw [hw₁]
      exact if_pos hresult
    dsimp only [step]
    rw [if_pos ⟨hrunning, hslot.1⟩, hslot.2, Option.bind_some, hcall]
  have hfailed : w₁.stream.output =
      (if w.stream.outputPartial ≠ 0 then w.stream.rest else []) ++
        w.stream.outputWaiting.buffer.data := by
    rw [hw₁]
    exact HeapStream.output_failed w.stream
  refine ⟨w₁, hstep, by rw [hw₁]; rfl, fun ls w₂ hrun => ?_⟩
  have hsteady := hw.step (l := .call id.slot result []) nofun hstep
  obtain ⟨hw₂, houtput, hopen₂⟩ := hsteady.output_run hrun
  have hopen₁ : w₁.stream.isOpen = true := by
    rw [hw₁]
    exact hopen
  refine ⟨fun id' hwrite' => ?_, fun _ => hw₂.flush_writes (hopen₂.trans hopen₁)⟩
  rw [hw₂.offered hwrite']
  rw [HeapStream.output, if_pos (.inl (by rw [hwrite']; rfl)), hfailed] at houtput
  rw [houtput]
  constructor
  · intro heq hblock
    rw [if_neg (not_not.mpr hblock), List.nil_append] at heq
    have hlength := congrArg List.length heq
    have hrest := List.length_pos_iff.mpr ((hw.ready hopen).offers id hwrite).1
    simp only [List.length_append] at hlength
    omega
  · intro hblock
    rw [if_pos hblock]

/-- The second half of a block fails, and is sent again. -/
theorem streamSend_failed_secondHalf :
    ∃ w, exec (guarded (step fun _ _ => false) Reopenable) construct
        [.open 3 true .socket, .write (str "ab"), .flush, .call 127 1 []] = some w ∧
      ∃ w₁, step (fun _ _ => false) w (.call 126 (-104) []) = some w₁ ∧
        w₁.events = w.events ++ [.error 104] ∧
        ∀ ls w₂, exec (guarded (step fun _ _ => false) Unsent) w₁ ls = some w₂ →
          (∀ id', w₂.stream.write = some id' →
            (w₂.offered id'.slot ++ w₂.stream.outputWaiting.buffer.data =
              w.stream.rest ++ w.stream.outputWaiting.buffer.data ++
                ls.flatMap StreamCall.written ↔ w.stream.outputPartial ≠ 0)) ∧
          (w₂.stream.write = none → w₂.stream.outputWaiting.buffer.data ≠ [] →
            ∃ w₃ id', step (fun _ _ => false) w₂ .flush = some w₃ ∧
              w₃.stream.write = some id') := by
  obtain ⟨w, hw⟩ := Option.isSome_iff_exists.mp (show (exec
    (guarded (step fun _ _ => false) Reopenable) construct
    [.open 3 true .socket, .write (str "ab"), .flush, .call 127 1 []]).isSome = true from rfl)
  have hstate : (exec (guarded (step fun _ _ => false) Reopenable) construct
      [.open 3 true .socket, .write (str "ab"), .flush, .call 127 1 []]).map
      (fun w => (w.stream.write, w.running)) = some (some ⟨126, false⟩, none) := rfl
  rw [hw, Option.map_some, Option.some.injEq, Prod.mk.injEq] at hstate
  exact ⟨w, hw, streamSend_failed (.of_guarded hw) hstate.1 hstate.2 (by decide)⟩

/-- The first send of a block fails: the block is lost, what is written next is sent first. -/
theorem streamSend_loses_block :
    ¬ ∀ w : StreamMemory, Reach (step fun _ _ => false) Reopenable construct w →
        ∀ id result w₁ ls w₂ id', w.stream.write = some id → w.running = none → result ≤ 0 →
          step (fun _ _ => false) w (.call id.slot result []) = some w₁ →
          exec (guarded (step fun _ _ => false) Unsent) w₁ ls = some w₂ →
          w₂.stream.write = some id' → (w₂.offered id'.slot).head? = w.stream.rest.head? := by
  intro hclaim
  obtain ⟨w, hw⟩ := Option.isSome_iff_exists.mp (show (exec
    (guarded (step fun _ _ => false) Reopenable) construct
    [.open 3 true .socket, .write (str "ab"), .flush]).isSome = true from rfl)
  have hstate : (exec (guarded (step fun _ _ => false) Reopenable) construct
      [.open 3 true .socket, .write (str "ab"), .flush]).map
      (fun w => (w.stream.write, w.running, w.stream.rest.head?)) =
      some (some ⟨127, false⟩, none, some 0x61) := rfl
  have hafter : ((exec (guarded (step fun _ _ => false) Reopenable) construct
      [.open 3 true .socket, .write (str "ab"), .flush]).bind fun w =>
      (step (fun _ _ => false) w (.call 127 (-104) [])).bind fun w₁ =>
      (exec (guarded (step fun _ _ => false) Unsent) w₁ [.write (str "c"), .flush]).map
        fun w₂ => (w₂.stream.write, (w₂.offered 126).head?)) =
      some (some ⟨126, false⟩, some 0x63) := rfl
  rw [hw, Option.map_some, Option.some.injEq, Prod.mk.injEq, Prod.mk.injEq] at hstate
  rw [hw, Option.bind_some] at hafter
  obtain ⟨w₁, hstep, hafter⟩ := Option.bind_eq_some_iff.mp hafter
  obtain ⟨w₂, hrun, hafter⟩ := Option.map_eq_some_iff.mp hafter
  obtain ⟨hwrite, hoffered⟩ := Prod.mk.inj hafter
  have hhead := hclaim w (.of_guarded hw) ⟨127, false⟩ (-104) w₁ _ w₂ ⟨126, false⟩ hstate.1
    hstate.2.1 (by decide) hstep hrun hwrite
  rw [hoffered, hstate.2.2] at hhead
  cases hhead

end StreamMemory

end LibReactor
