import LibReactor.ServerSteps

/-!
# The responses of a session

Whatever the request parser makes of the input, a session with an open stream answers its requests
in their order, and what it holds for output is the end of its responses.
-/

namespace LibReactor

open Transition

namespace ServerWorld

variable {phr : Parser} {w w' : ServerWorld} {s : Session}

structure Replied (answered : List ℕ) (responses : List (ℕ × Bytes)) (t : Stream) : Prop where
  tagged : responses.map Prod.fst = answered
  output : t.outgoing <:+ (responses.map Prod.snd).flatten

theorem closed_serverSessionClose :
    (∀ s', (w.serverSessionClose s).session = some s' → s'.stream.isOpen = false) ∧
      ((w.serverSessionClose s).session = none → (w.serverSessionClose s).frees ≠ 0) := by
  cases hready : s.ready with
  | true =>
    rw [serverSessionClose_ready hready]
    exact ⟨fun _ hs => absurd hs (Option.some_ne_none _).symm, fun _ => Nat.succ_ne_zero _⟩
  | false =>
    obtain ⟨t, ht, -, -, -, heq⟩ := serverSessionClose_busy (w := w) hready
    rw [heq]
    refine ⟨fun s' hs' => ?_, fun hnone => absurd hnone (Option.some_ne_none _)⟩
    rw [← Option.some.inj hs']
    exact ht

section FlushReturn

variable {c : Reading} {t : Stream} {r : Reactor ServerUser}

theorem isOpen_flushReturn : (flushReturn c t r).1.isOpen = t.isOpen := by
  have hflushed : (t.streamFlush ServerUser.stream r).1.isOpen = t.isOpen :=
    Stream.isOpen_streamUpdate _ _
  unfold flushReturn
  dsimp only
  split_ifs
  · exact (Stream.isOpen_streamUpdate _ _).trans hflushed
  · exact hflushed

end FlushReturn

section Replied

variable {answered : List ℕ} {responses : List (ℕ × Bytes)} {t : Stream}

theorem Replied.streamUpdate (h : Replied answered responses t) (r : Reactor ServerUser) :
    Replied answered responses (t.streamUpdate ServerUser.stream r).1 :=
  ⟨h.tagged, (t.suffix_streamUpdate r).trans h.output⟩

theorem Replied.congr (h : Replied answered responses t) {t' : Stream}
    (hwriting : t'.outputWriting = t.outputWriting)
    (hwaiting : t'.outputWaiting = t.outputWaiting) : Replied answered responses t' := by
  refine ⟨h.tagged, ?_⟩
  unfold Stream.outgoing
  rw [hwriting, hwaiting]
  exact h.output

theorem Replied.writeData (h : Replied answered responses t) (k : ℕ) (d : Bytes) :
    Replied (answered ++ [k]) (responses ++ [(k, d)]) (t.writeData d) := by
  obtain ⟨htagged, u, hu⟩ := h
  refine ⟨?_, u, ?_⟩
  · rw [List.map_append, htagged]
    rfl
  · rw [List.map_append, List.flatten_append, ← hu]
    simp only [Stream.outgoing, Stream.writeData, Buffer.data_append, List.append_assoc,
      List.map_cons, List.map_nil, List.flatten_cons, List.flatten_nil, List.append_nil]

theorem Replied.sendDone (h : Replied answered responses t) (n : ℕ) (r : Reactor ServerUser) :
    Replied answered responses (t.sendDone ServerUser.stream n r).1 := by
  have hdone : Replied answered responses { t with
      write := none
      outputOffset := t.outputOffset + n
      outputPartial :=
        if t.outputPartial + n = t.outputWriting.size then 0 else t.outputPartial + n } :=
    h.congr rfl rfl
  exact hdone.streamUpdate r

theorem Replied.flushReturn (h : Replied answered responses t) (c : Reading)
    (r : Reactor ServerUser) : Replied answered responses (flushReturn c t r).1 := by
  have hflush : Replied answered responses { t with outputFlushed := t.outputWaiting.size } :=
    h.congr rfl rfl
  have hflushed := hflush.streamUpdate r
  have hreturn : Replied answered responses
      { (t.streamFlush ServerUser.stream r).1 with abort := false } := hflushed.congr rfl rfl
  unfold ServerWorld.flushReturn
  dsimp only
  split_ifs
  · exact hreturn.streamUpdate _
  · exact hflushed

end Replied

structure Answering (w : ServerWorld) : Prop where
  fresh : w.session = none → w.frees = 0 → w.input = [] ∧ w.requests = [] ∧ w.responses = []
  replied : ∀ s, w.session = some s → s.stream.isOpen = true →
    Replied w.answered w.responses s.stream

theorem answering_some (hs : w.session = some s) (hreplied : s.stream.isOpen = true →
    Replied w.answered w.responses s.stream) : w.Answering := by
  refine ⟨fun hnone => absurd (hs.symm.trans hnone) (Option.some_ne_none s), fun s' hs' => ?_⟩
  rw [← Option.some.inj (hs.symm.trans hs')]
  exact hreplied

theorem answering_closed (hsession : ∀ s, w.session = some s → s.stream.isOpen = false)
    (hfrees : w.session = none → w.frees ≠ 0) : w.Answering := by
  refine ⟨fun hs hzero => absurd hzero (hfrees hs), fun s hs hopen => ?_⟩
  rw [hsession s hs] at hopen
  cases hopen

theorem answering_serverSessionClose : (w.serverSessionClose s).Answering :=
  answering_closed closed_serverSessionClose.1 closed_serverSessionClose.2

theorem answering_closeEvent {slot : ℕ} : (w.closeEvent slot s).Answering :=
  have hclosed := closed_serverSessionClose
    (w := { w with reactor := w.reactor.take slot }) (s := s)
  answering_closed hclosed.1 hclosed.2

theorem responses_answer {k : ℕ} {d : Bytes} (hs : w.session = some s)
    (hopen : s.stream.isOpen = true) :
    (w.answer k (some d)).responses = w.responses ++ [(k, d)] := by
  simp only [ServerWorld.answer, hs, hopen, if_true]

theorem Answering.serverRespond (h : w.Answering) {k : ℕ} {d : Bytes} (hs : w.session = some s) :
    ((w.answer k (some d)).serverRespond d s).Answering := by
  cases hopen : s.stream.isOpen with
  | false =>
    rw [serverRespond_closed hopen]
    exact answering_serverSessionClose
  | true =>
    have hwritten := (h.replied s hs hopen).writeData k d
    rw [← responses_answer hs hopen] at hwritten
    cases hprocessing : s.processing with
    | true =>
      rw [serverRespond_processing hopen hprocessing]
      exact answering_some rfl fun _ => hwritten
    | false =>
      rw [serverRespond_deferred hopen hprocessing]
      have hflush : Replied (w.answered ++ [k]) (w.answer k (some d)).responses
          { s.stream.writeData d with
            outputFlushed := (s.stream.writeData d).outputWaiting.size } :=
        hwritten.congr rfl rfl
      exact answering_some rfl fun _ => hflush.streamUpdate w.reactor

/-- The step lemma. -/
theorem Answering.step (hsteady : w.Steady) (h : w.Answering) {l : ServerLabel}
    (hacts : Acts phr w l w') : w'.Answering := by
  cases hacts with
  | accept fd type hfree hs hfrees hfd =>
    obtain ⟨-, hrequests, hresponses⟩ := h.fresh hs hfrees
    have hcount := (hsteady.freed hs).2.2
    rw [hrequests] at hcount
    have hanswered : w.answered = [] := List.length_eq_zero_iff.mp hcount.symm
    have hnew : Replied w.answered w.responses
        { Stream.construct with fd := fd, flags := 0, type := type } := by
      rw [hresponses, hanswered]
      exact ⟨rfl, List.nil_suffix⟩
    have hsession : (w.serverCreateSession fd type).session = some ⟨⟨.null, .null, none, []⟩,
        (Stream.construct.streamOpen ServerUser.stream fd 0 type w.reactor).1, true, false, false,
        none⟩ := rfl
    exact answering_some hsession fun _ => hnew.streamUpdate w.reactor
  | touch | user | drop | userLeave | otherNext | otherSubmit | otherCancel =>
    exact ⟨h.fresh, h.replied⟩
  | recv slot received s hcalls hne hs hlen =>
    exact answering_some rfl fun hopen => (h.replied s hs hopen).congr rfl rfl
  | recvEnd | sendError => exact answering_closeEvent
  | send slot result s hcalls hs =>
    have hdone : (s.stream.sendDone ServerUser.stream result.toNat (w.reactor.take slot)).1.isOpen =
        s.stream.isOpen := (Stream.isOpen_streamUpdate _ _).trans rfl
    refine answering_some rfl fun hopen => ?_
    exact (h.replied s hs (hdone.symm.trans hopen)).sendDone _ _
  | next slot s hcalls hs => exact answering_some rfl fun hopen => h.replied s hs hopen
  | reject c s q t hplace hs hready hcall =>
    exact answering_closed (fun _ hs => absurd hs (Option.some_ne_none _).symm)
      (fun _ => Nat.succ_ne_zero _)
  | flush c s q t hplace hs hcall =>
    have hframe : t = { s.stream with input := t.input, inputConsumed := t.inputConsumed } := by
      rcases hcall with ⟨-, rfl⟩ | ⟨-, hcall⟩
      · rfl
      · exact httpReadRequest_frame hcall
    refine answering_some rfl fun hopen => ?_
    have hopen' : s.stream.isOpen = true := by
      rw [← hopen]
      refine Eq.trans ?_ isOpen_flushReturn.symm
      rw [hframe]
      rfl
    have hread : Replied w.answered w.responses t := by
      rw [hframe]
      exact (h.replied s hs hopen').congr rfl rfl
    exact hread.flushReturn c w.reactor
  | request c s n q t hplace hs hready hn hn' hcall =>
    refine answering_some rfl fun hopen => ?_
    dsimp only at hopen ⊢
    rw [httpReadRequest_frame hcall] at hopen ⊢
    exact (h.replied s hs hopen).congr rfl rfl
  | leave c s hplace hs => exact answering_some rfl fun hopen => h.replied s hs hopen
  | abort c hplace hs =>
    have hfreed := (hsteady.freed hs).1
    rw [hplace] at hfreed
    refine answering_closed (fun s hs' => absurd (hs.symm.trans hs') (Option.some_ne_none s).symm)
      fun _ => ?_
    show w.frees ≠ 0
    rw [hfreed.1]
    exact Nat.one_ne_zero
  | respond k d s hanswers hs => exact h.serverRespond hs
  | disconnect | respondDisconnect => exact answering_serverSessionClose
  | respondTouch k d s hanswers hs hs' =>
    have H := h.serverRespond hs (k := k) (d := d)
    exact ⟨H.fresh, H.replied⟩

theorem answering_construct : construct.Answering :=
  ⟨fun _ _ => ⟨rfl, rfl, rfl⟩, fun _ hs => absurd hs (Option.some_ne_none _).symm⟩

end ServerWorld

end LibReactor
