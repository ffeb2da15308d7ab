import LibReactor.Server
import LibReactor.StreamCallbacks

/-!
# What a step of the server does

The flags of a session follow the place of the program, and a session that is freed inside its
handler leaves both `abort` flags set. With these a step is one of the cases of `Acts`.
-/

namespace LibReactor

theorem ServerUser.distinct_stream : ServerUser.stream.Distinct :=
  ⟨nofun, nofun, nofun, nofun, nofun⟩

theorem ServerUser.apart_next : ServerUser.stream.Apart .next := ⟨nofun, nofun, nofun, nofun⟩

def Session.Flags (s : Session) : Place → Prop
  | .outside | .user _ => s.abort = false ∧ s.processing = false ∧ s.stream.abort = false
  | .loop c => s.abort = false ∧ s.processing = false ∧ s.stream.abort = c.recv ∧
      c.readAbort = false ∧ c.recvAbort = false
  | .handler c => s.abort = true ∧ s.processing = true ∧ s.stream.abort = c.recv ∧
      c.readAbort = false ∧ c.recvAbort = false

/-- The flags of the running calls where there is no session, or no longer one. -/
def Place.Freed (frees : ℕ) : Place → Prop
  | .outside | .user _ => True
  | .loop _ => False
  | .handler c => frees = 1 ∧ c.readAbort = true ∧ c.recvAbort = c.recv

theorem Session.Flags.congr {s s' : Session} {p : Place} (h : s.Flags p)
    (habort : s'.abort = s.abort) (hprocessing : s'.processing = s.processing)
    (hrecv : s'.stream.abort = s.stream.abort) :
    s'.Flags p := by
  cases p <;> simp only [Session.Flags, habort, hprocessing, hrecv] at h ⊢ <;> exact h

theorem Place.held_abortRead (p : Place) : p.abortRead.held = p.held := by
  cases p <;> rfl

theorem Place.held_abortRecv (p : Place) : p.abortRecv.held = p.held := by
  cases p <;> rfl

def Session.closeReactor (s : Session) (r : Reactor ServerUser) : Reactor ServerUser :=
  let x := s.stream.streamClose ServerUser.stream r
  let r := x.2.cancelField .noop .noop s.next
  if s.ready then (x.1.streamClose ServerUser.stream r).2 else r

namespace ServerWorld

variable {phr : Parser} {w w' : ServerWorld} {s : Session} {held : List ℕ}

structure Flagged (w : ServerWorld) : Prop where
  alive : ∀ s, w.session = some s → s.Flags w.place ∧ w.frees = 0 ∧
    w.requests.length = w.answered.length + (if s.ready then 0 else 1)
  freed : w.session = none → w.place.Freed w.frees ∧ w.frees ≤ 1 ∧
    w.requests.length = w.answered.length
  answered : w.answered = List.range w.answered.length

structure Steady (w : ServerWorld) : Prop extends Flagged w where
  wellFormed : w.reactor.WellFormed w.place.held

/-! ## Closing -/

theorem wellFormed_closeReactor {r : Reactor ServerUser} (h : r.WellFormed held) :
    (s.closeReactor r).WellFormed held := by
  unfold Session.closeReactor
  dsimp only
  split_ifs
  · exact Stream.wellFormed_streamClose (Stream.wellFormed_streamClose h).cancelField
  · exact (Stream.wellFormed_streamClose h).cancelField

theorem serverSessionClose_ready (hready : s.ready = true) :
    w.serverSessionClose s = { w with
      session := none
      reactor := s.closeReactor w.reactor
      place := (fun p : Place => if s.stream.abort then p.abortRecv else p)
        (if s.abort then w.place.abortRead else w.place)
      frees := w.frees + 1 } := by
  obtain ⟨input, outputWriting, fd, -, heq⟩ :=
    Stream.streamClose_fst ServerUser.stream s.stream w.reactor
  have habort : (s.stream.streamClose ServerUser.stream w.reactor).1.abort = s.stream.abort := by
    rw [heq]
  unfold serverSessionClose Session.closeReactor
  dsimp only
  rw [if_pos hready, if_pos hready, habort]
  cases s.next <;> rfl

theorem serverSessionClose_busy (hready : s.ready = false) :
    ∃ t : Stream, t.isOpen = false ∧ t.abort = s.stream.abort ∧ t.read = none ∧ t.write = none ∧
      w.serverSessionClose s = { w with
        session := some { s with stream := t, next := none }
        reactor := s.closeReactor w.reactor
        place := if s.abort then w.place.abortRead else w.place } := by
  obtain ⟨input, outputWriting, fd, hfd, heq⟩ :=
    Stream.streamClose_fst ServerUser.stream s.stream w.reactor
  refine ⟨(s.stream.streamClose ServerUser.stream w.reactor).1, ?_, ?_, ?_, ?_, ?_⟩
  · rw [heq]
    simp [Stream.isOpen, hfd]
  · rw [heq]
  · rw [heq]
  · rw [heq]
  · unfold serverSessionClose Session.closeReactor
    dsimp only
    rw [hready]
    cases s.next <;> rfl

@[simp] theorem reactor_serverSessionClose :
    (w.serverSessionClose s).reactor = s.closeReactor w.reactor := by
  cases hready : s.ready with
  | true => rw [serverSessionClose_ready hready]
  | false =>
    obtain ⟨t, -, -, -, -, heq⟩ := serverSessionClose_busy (w := w) hready
    rw [heq]

/-! ## The cases of a step -/

/-- The stream once `server_session_read` has flushed it and its caller has returned. -/
def flushReturn (c : Reading) (t : Stream) (r : Reactor ServerUser) : Stream × Reactor ServerUser :=
  let x := t.streamFlush ServerUser.stream r
  if c.recv then x.1.recvEnd ServerUser.stream x.2 else x

theorem wellFormed_flushReturn {c : Reading} {t : Stream} {r : Reactor ServerUser}
    (h : r.WellFormed held) : (flushReturn c t r).2.WellFormed held := by
  have hflushed : (t.streamFlush ServerUser.stream r).2.WellFormed held :=
    Stream.wellFormed_streamUpdate h
  unfold flushReturn
  dsimp only
  split_ifs
  · exact Stream.wellFormed_streamUpdate hflushed
  · exact hflushed

theorem abort_flushReturn {c : Reading} {t : Stream} {r : Reactor ServerUser}
    (h : t.abort = c.recv) : (flushReturn c t r).1.abort = false := by
  unfold flushReturn
  dsimp only
  split_ifs with hrecv
  · exact (Stream.frame_streamUpdate _ _).1
  · exact (Stream.frame_streamUpdate _ _).1.trans (h.trans (Bool.eq_false_iff.mpr hrecv))

/-- A step that would go on with the session in a callback of its own. -/
def Uses (w : ServerWorld) : ServerLabel → Prop
  | .recv slot _ | .recvEnd slot _ => w.Calls slot .recv
  | .send slot _ => w.Calls slot .send
  | .next slot => w.Calls slot .next
  | _ => False

inductive Acts (phr : Parser) (w : ServerWorld) : ServerLabel → ServerWorld → Prop
  | accept (fd : ℤ) (type : StreamType) : w.place.free → w.session = none → w.frees = 0 →
      0 ≤ fd → Acts phr w (.accept fd type) (w.serverCreateSession fd type)
  | touch (l : ServerLabel) : w.session = none → w.Uses l →
      Acts phr w l { w with touched := true }
  | recv (slot : ℕ) (received : Bytes) (s : Session) : w.Calls slot .recv → received ≠ [] →
      w.session = some s → s.stream.input.size + received.length < 2 ^ 63 →
      Acts phr w (.recv slot received) { w with
        session := some { s with stream := s.stream.recvBegin received }
        reactor := w.reactor.take slot
        place := .loop ⟨slot, true, false, false⟩
        input := w.input ++ received }
  | recvEnd (slot : ℕ) (result : ℤ) (s : Session) : w.Calls slot .recv → w.session = some s →
      Acts phr w (.recvEnd slot result)
        (w.closeEvent slot { s with stream := { s.stream with read := none } })
  | send (slot : ℕ) (result : ℤ) (s : Session) : w.Calls slot .send → w.session = some s →
      Acts phr w (.send slot result) { w with
        session := some { s with stream :=
          (s.stream.sendDone ServerUser.stream result.toNat (w.reactor.take slot)).1 }
        reactor := (s.stream.sendDone ServerUser.stream result.toNat
          (w.reactor.take slot)).2.freeUser slot }
  | sendError (slot : ℕ) (result : ℤ) (s : Session) : w.Calls slot .send → w.session = some s →
      Acts phr w (.send slot result)
        (w.closeEvent slot { s with stream := { s.stream with write := none } })
  | next (slot : ℕ) (s : Session) : w.Calls slot .next → w.session = some s →
      Acts phr w (.next slot) { w with
        session := some { s with next := none }
        reactor := w.reactor.take slot
        place := .loop ⟨slot, false, false, false⟩ }
  | user (slot n : ℕ) : w.Calls slot (.other n) →
      Acts phr w (.call slot) { w with reactor := w.reactor.take slot, place := .user slot }
  | drop (slot : ℕ) (u : ServerUser) : w.Calls slot u → u.refers = false →
      Acts phr w (.call slot) { w with reactor := (w.reactor.take slot).freeUser slot }
  | reject (c : Reading) (s : Session) (q : Request) (t : Stream) : w.place = .loop c →
      w.session = some s → s.ready = true →
      httpReadRequest phr s.stream s.request = .ok (-1, q, t) →
      Acts phr w .turn { w with
        session := none
        reactor := ({ s with request := q, stream := t }.closeReactor w.reactor).freeUser c.slot
        place := .outside
        frees := w.frees + 1 }
  | flush (c : Reading) (s : Session) (q : Request) (t : Stream) : w.place = .loop c →
      w.session = some s → s.ready = false ∧ t = s.stream ∨
        s.ready = true ∧ httpReadRequest phr s.stream s.request = .ok (0, q, t) →
      Acts phr w .turn { w with
        session := some { s with request := q, stream := (flushReturn c t w.reactor).1 }
        reactor := (flushReturn c t w.reactor).2.freeUser c.slot
        place := .outside }
  | request (c : Reading) (s : Session) (n : ℤ) (q : Request) (t : Stream) : w.place = .loop c →
      w.session = some s → s.ready = true → n ≠ -1 → n ≠ 0 →
      httpReadRequest phr s.stream s.request = .ok (n, q, t) →
      Acts phr w .turn { w with
        session := some { s with
          request := q
          stream := t
          ready := false
          processing := true
          abort := true }
        place := .handler c
        requests := w.requests ++ [q.contents (t.input.data.drop s.stream.inputConsumed)] }
  | leave (c : Reading) (s : Session) : w.place = .handler c → w.session = some s →
      Acts phr w .leave
        { w with session := some { s with abort := false, processing := false }, place := .loop c }
  | abort (c : Reading) : w.place = .handler c → w.session = none →
      Acts phr w .leave { w with reactor := w.reactor.freeUser c.slot, place := .outside }
  | userLeave (slot : ℕ) : w.place = .user slot →
      Acts phr w .leave { w with reactor := w.reactor.freeUser slot, place := .outside }
  | respond (k : ℕ) (d : Bytes) (s : Session) : w.Answers k → w.session = some s →
      Acts phr w (.respond k d) ((w.answer k (some d)).serverRespond d s)
  | disconnect (k : ℕ) (s : Session) : w.Answers k → w.session = some s →
      Acts phr w (.disconnect k) ((w.answer k none).serverDisconnect s)
  | respondDisconnect (k : ℕ) (d : Bytes) (s s' : Session) : w.Answers k → w.session = some s →
      ((w.answer k (some d)).serverRespond d s).session = some s' →
      Acts phr w (.respondDisconnect k d)
        (((w.answer k (some d)).serverRespond d s).serverDisconnect s')
  | respondTouch (k : ℕ) (d : Bytes) (s : Session) : w.Answers k → w.session = some s →
      ((w.answer k (some d)).serverRespond d s).session = none →
      Acts phr w (.respondDisconnect k d)
        { (w.answer k (some d)).serverRespond d s with touched := true }
  | otherNext (n : ℕ) : w.place.free →
      Acts phr w (.otherNext n) { w with reactor := (w.reactor.reactorNext (.other n)).2 }
  | otherSubmit (op : Op) (n : ℕ) : w.place.free →
      Acts phr w (.otherSubmit op n) { w with reactor := (w.reactor.submit op (.other n)).2 }
  | otherCancel (id : Id) (n m : ℕ) : w.place.free → w.reactor.users id.slot = some (.other m) →
      Acts phr w (.otherCancel id n)
        { w with reactor := w.reactor.reactorCancel .noop id (.other n) }

theorem use_cases {f : Session → Option ServerWorld} (h : w.use f = some w') :
    (∃ s, w.session = some s ∧ f s = some w') ∨
      (w.session = none ∧ w' = { w with touched := true }) := by
  unfold use at h
  cases hs : w.session with
  | some s =>
    rw [hs] at h
    exact .inl ⟨s, rfl, h⟩
  | none =>
    rw [hs] at h
    exact .inr ⟨rfl, (Option.some.inj h).symm⟩

theorem returnRead_alive {c : Reading} (hs : w.session = some s) (hflag : c.recvAbort = false) :
    w.returnRead c = some { w with
      session := some { s with stream :=
        (if c.recv then s.stream.recvEnd ServerUser.stream w.reactor else (s.stream, w.reactor)).1 }
      reactor := (if c.recv then s.stream.recvEnd ServerUser.stream w.reactor
        else (s.stream, w.reactor)).2.freeUser c.slot
      place := .outside } := by
  unfold returnRead use
  rw [hs, hflag]
  cases c.recv with
  | true => rfl
  | false =>
    simp only [Bool.false_eq_true, false_and, if_false, ← hs]

theorem returnRead_freed {c : Reading} (hflag : c.recvAbort = c.recv) :
    w.returnRead c = some { w with reactor := w.reactor.freeUser c.slot, place := .outside } := by
  unfold returnRead
  rw [hflag]
  exact if_neg (fun h => h.2 h.1)

theorem rejectRead_eq {c : Reading} (hplace : w.place = .loop c) (hready : s.ready = true)
    (habort : s.abort = false) (hrecv : s.stream.abort = c.recv) (hflag : c.recvAbort = false) :
    (match (w.serverSessionClose s).place with
      | .loop c => (w.serverSessionClose s).returnRead c
      | _ => none) = some { w with
        session := none
        reactor := (s.closeReactor w.reactor).freeUser c.slot
        place := .outside
        frees := w.frees + 1 } := by
  rw [serverSessionClose_ready hready, habort, hrecv, hplace]
  cases hc : c.recv with
  | true => exact returnRead_freed hc.symm
  | false => exact returnRead_freed (hflag.trans hc.symm)

theorem flushRead_eq {c : Reading} (hflag : c.recvAbort = false) :
    w.flushRead c s = some { w with
      session := some { s with stream := (flushReturn c s.stream w.reactor).1 }
      reactor := (flushReturn c s.stream w.reactor).2.freeUser c.slot
      place := .outside } := by
  unfold flushRead
  dsimp only
  rw [returnRead_alive rfl hflag]
  unfold flushReturn
  cases c.recv <;> rfl

theorem Steady.acts_turn (h : w.Steady) (hstep : w.act phr .turn = some w') :
    Acts phr w .turn w' := by
  unfold act at hstep
  cases hplace : w.place with
  | outside | user | handler => simp [hplace] at hstep
  | loop c =>
    simp only [hplace] at hstep
    rcases use_cases hstep with ⟨s, hs, hstep⟩ | ⟨hs, -⟩
    · have hflags := (h.alive s hs).1
      rw [hplace] at hflags
      obtain ⟨habort, -, hrecv, -, hflag⟩ := hflags
      unfold turn at hstep
      by_cases hready : s.ready = true
      · rw [if_pos hready] at hstep
        split at hstep
        · cases hstep
        next n q t hcall =>
          have hframe := httpReadRequest_frame hcall
          split_ifs at hstep with herror hnone
          · have habort' : t.abort = c.recv := by
              rw [hframe]
              exact hrecv
            rw [herror] at hcall
            have hreject := rejectRead_eq (s := { s with request := q, stream := t }) hplace hready
              habort habort' hflag
            cases hreject.symm.trans hstep
            exact .reject c s q t hplace hs hready hcall
          · rw [flushRead_eq hflag] at hstep
            cases hstep
            rw [hnone] at hcall
            exact .flush c s q t hplace hs (.inr ⟨hready, hcall⟩)
          · cases hstep
            exact .request c s n q t hplace hs hready herror hnone hcall
      · rw [if_neg hready, flushRead_eq hflag] at hstep
        cases hstep
        exact .flush c s s.request s.stream hplace hs (.inl ⟨Bool.eq_false_iff.mpr hready, rfl⟩)
    · have hfreed := (h.freed hs).1
      rw [hplace] at hfreed
      exact hfreed.elim

theorem Steady.acts_leave (h : w.Steady) (hstep : w.act phr .leave = some w') :
    Acts phr w .leave w' := by
  unfold act at hstep
  cases hplace : w.place with
  | outside | loop => simp [hplace] at hstep
  | user slot =>
    simp only [hplace] at hstep
    cases hstep
    exact .userLeave slot hplace
  | handler c =>
    simp only [hplace] at hstep
    cases hs : w.session with
    | none =>
      have hfreed := (h.freed hs).1
      rw [hplace] at hfreed
      rw [if_pos hfreed.2.1, returnRead_freed hfreed.2.2] at hstep
      cases hstep
      exact .abort c hplace hs
    | some s =>
      have hflags := (h.alive s hs).1
      rw [hplace] at hflags
      obtain ⟨-, -, -, hflag, -⟩ := hflags
      rw [hflag, if_neg Bool.false_ne_true, use, hs] at hstep
      cases hstep
      exact .leave c s hplace hs

/-- Only the last request can be without an answer, and only while its session exists. -/
theorem Steady.answers (h : w.Steady) {k : ℕ} (hanswers : w.Answers k) :
    ∃ s, w.session = some s ∧ s.ready = false ∧ k = w.answered.length := by
  obtain ⟨-, hlt, hnot⟩ := hanswers
  rw [h.answered, List.mem_range] at hnot
  cases hs : w.session with
  | none =>
    have hcount := (h.freed hs).2.2
    omega
  | some s =>
    have hcount := (h.alive s hs).2.2
    cases hready : s.ready with
    | true =>
      rw [hready, if_pos rfl] at hcount
      omega
    | false =>
      rw [hready, if_neg Bool.false_ne_true] at hcount
      exact ⟨s, rfl, hready, by omega⟩

theorem Steady.session_ne_none (h : w.Steady) {k : ℕ} (hanswers : w.Answers k) :
    w.session ≠ none := by
  obtain ⟨s, hs, -⟩ := h.answers hanswers
  rw [hs]
  exact nofun

/-- The inversion lemma: a step is one of the cases. -/
theorem Steady.acts (h : w.Steady) {l : ServerLabel} (hstep : w.act phr l = some w') :
    Acts phr w l w' := by
  cases l with
  | turn => exact h.acts_turn hstep
  | leave => exact h.acts_leave hstep
  | accept fd type =>
    dsimp only [act] at hstep
    split_ifs at hstep with hguard
    cases hstep
    exact .accept fd type hguard.1 hguard.2.1 hguard.2.2.1 hguard.2.2.2
  | recv slot received =>
    dsimp only [act] at hstep
    split_ifs at hstep with hguard
    rcases use_cases hstep with ⟨s, hs, hstep⟩ | ⟨hs, rfl⟩
    · split_ifs at hstep with hlen
      cases hstep
      exact .recv slot received s hguard.1 hguard.2 hs hlen
    · exact .touch _ hs hguard.1
  | recvEnd slot result =>
    dsimp only [act] at hstep
    split_ifs at hstep with hguard
    rcases use_cases hstep with ⟨s, hs, hstep⟩ | ⟨hs, rfl⟩
    · cases hstep
      exact .recvEnd slot result s hguard.1 hs
    · exact .touch _ hs hguard.1
  | send slot result =>
    dsimp only [act] at hstep
    obtain ⟨hguard, hstep⟩ := Option.ite_none_right_eq_some.mp hstep
    rcases use_cases hstep with ⟨s, hs, hstep⟩ | ⟨hs, rfl⟩
    · split_ifs at hstep
      · cases hstep
        exact .send slot result s hguard hs
      · cases hstep
        exact .sendError slot result s hguard hs
    · exact .touch _ hs hguard
  | next slot =>
    dsimp only [act] at hstep
    split_ifs at hstep with hguard
    rcases use_cases hstep with ⟨s, hs, hstep⟩ | ⟨hs, rfl⟩
    · cases hstep
      exact .next slot s hguard hs
    · exact .touch _ hs hguard
  | call slot =>
    dsimp only [act] at hstep
    split_ifs at hstep with hguard
    split at hstep
    next n huser =>
      cases hstep
      exact .user slot n ⟨hguard.1, hguard.2, huser⟩
    next huser =>
      cases hstep
      exact .drop slot .noop ⟨hguard.1, hguard.2, huser⟩ rfl
    next huser =>
      cases hstep
      exact .drop slot .releaseBuffer ⟨hguard.1, hguard.2, huser⟩ rfl
    next => cases hstep
  | respond k d =>
    dsimp only [act] at hstep
    split_ifs at hstep with hanswers
    rcases use_cases hstep with ⟨s, hs, hstep⟩ | ⟨hs, rfl⟩
    · cases hstep
      exact .respond k d s hanswers hs
    · exact absurd hs (h.session_ne_none hanswers)
  | disconnect k =>
    dsimp only [act] at hstep
    split_ifs at hstep with hanswers
    rcases use_cases hstep with ⟨s, hs, hstep⟩ | ⟨hs, rfl⟩
    · cases hstep
      exact .disconnect k s hanswers hs
    · exact absurd hs (h.session_ne_none hanswers)
  | respondDisconnect k d =>
    dsimp only [act] at hstep
    split_ifs at hstep with hanswers
    rcases use_cases hstep with ⟨s, hs, hstep⟩ | ⟨hs, rfl⟩
    · rcases use_cases hstep with ⟨s', hs', hstep⟩ | ⟨hs', rfl⟩
      · cases hstep
        exact .respondDisconnect k d s s' hanswers hs hs'
      · exact .respondTouch k d s hanswers hs hs'
    · exact absurd hs (h.session_ne_none hanswers)
  | otherNext n =>
    dsimp only [act] at hstep
    split_ifs at hstep with hfree
    cases hstep
    exact .otherNext n hfree
  | otherSubmit op n =>
    dsimp only [act] at hstep
    split_ifs at hstep with hfree
    cases hstep
    exact .otherSubmit op n hfree
  | otherCancel id n =>
    dsimp only [act] at hstep
    split_ifs at hstep with hfree
    split at hstep
    next m huser =>
      cases hstep
      exact .otherCancel id n m hfree huser
    next => cases hstep

/-! ## The invariant -/

theorem held_serverSessionClose : (w.serverSessionClose s).place.held = w.place.held := by
  unfold serverSessionClose
  dsimp only
  split_ifs <;> simp only [Place.held_abortRead, Place.held_abortRecv]

theorem wellFormed_serverSessionClose (h : w.reactor.WellFormed held) :
    (w.serverSessionClose s).reactor.WellFormed held := by
  rw [reactor_serverSessionClose]
  exact wellFormed_closeReactor h

/-- Closing outside the loop of `server_session_read`. -/
theorem flagged_serverSessionClose (hfree : w.place.free) (hflags : s.Flags w.place)
    (hbusy : s.ready = false → w.place = .outside) (hfrees : w.frees = 0)
    (hcount : w.requests.length = w.answered.length + (if s.ready then 0 else 1))
    (hanswered : w.answered = List.range w.answered.length) :
    (w.serverSessionClose s).Flagged := by
  cases hready : s.ready with
  | true =>
    rw [serverSessionClose_ready hready]
    rw [hready, if_pos rfl, Nat.add_zero] at hcount
    refine ⟨fun _ hnone => absurd hnone (Option.some_ne_none _).symm,
      fun _ => ⟨?_, by rw [hfrees], hcount⟩, hanswered⟩
    cases hplace : w.place with
    | loop c => simp [hplace, Place.free] at hfree
    | outside | user slot =>
      rw [hplace] at hflags
      obtain ⟨habort, -, hrecv⟩ := hflags
      simp only [habort, hrecv, Bool.false_eq_true, if_false]
      trivial
    | handler c =>
      rw [hplace] at hflags
      obtain ⟨habort, -, hrecv, -, hflag⟩ := hflags
      simp only [habort, hrecv, if_true]
      cases hc : c.recv with
      | true => exact ⟨by rw [hfrees], rfl, hc.symm⟩
      | false => exact ⟨by rw [hfrees], rfl, hflag.trans hc.symm⟩
  | false =>
    obtain ⟨t, -, habort, -, -, heq⟩ := serverSessionClose_busy (w := w) hready
    rw [heq]
    rw [hready] at hcount
    rw [hbusy hready] at hflags ⊢
    refine ⟨fun s' hs' => ?_, fun hnone => absurd hnone (Option.some_ne_none _), hanswered⟩
    obtain rfl := Option.some.inj hs'
    obtain ⟨hread, hprocessing, hrecv⟩ := hflags
    have hplace : (if s.abort then Place.outside.abortRead else .outside) = .outside := by
      rw [hread]
      rfl
    dsimp only
    rw [hplace, hready]
    exact ⟨⟨hread, hprocessing, habort.trans hrecv⟩, hfrees, hcount⟩

/-! ## Answers -/

theorem serverRespond_closed {d : Bytes} (hopen : s.stream.isOpen = false) :
    w.serverRespond d s = w.serverSessionClose { s with ready := true } := by
  unfold serverRespond
  exact if_neg (by rw [hopen]; exact Bool.false_ne_true)

theorem serverRespond_processing {d : Bytes} (hopen : s.stream.isOpen = true)
    (hprocessing : s.processing = true) :
    w.serverRespond d s =
      { w with session := some { s with ready := true, stream := s.stream.writeData d } } := by
  unfold serverRespond
  dsimp only
  rw [if_pos hopen, if_pos hprocessing]

theorem serverRespond_deferred {d : Bytes} (hopen : s.stream.isOpen = true)
    (hprocessing : s.processing = false) :
    w.serverRespond d s = { w with
      session := some { s with
        ready := true
        stream := ((s.stream.writeData d).streamFlush ServerUser.stream w.reactor).1
        next := some (((s.stream.writeData d).streamFlush ServerUser.stream
          w.reactor).2.reactorNext .next).1 }
      reactor := (((s.stream.writeData d).streamFlush ServerUser.stream
        w.reactor).2.reactorNext .next).2 } := by
  unfold serverRespond
  dsimp only
  rw [if_pos hopen, hprocessing, if_neg Bool.false_ne_true]

theorem Steady.answer (h : w.Steady) {k : ℕ} (hanswers : w.Answers k) (d : Option Bytes) :
    (w.answer k d).answered = List.range (w.answer k d).answered.length ∧
      w.requests.length = (w.answer k d).answered.length := by
  obtain ⟨s, hs, hready, rfl⟩ := h.answers hanswers
  have hcount := (h.alive s hs).2.2
  rw [hready, if_neg Bool.false_ne_true] at hcount
  have hlength : (w.answer w.answered.length d).answered.length = w.answered.length + 1 := by
    simp [ServerWorld.answer]
  refine ⟨?_, hcount.trans hlength.symm⟩
  rw [hlength, List.range_succ, ← h.answered]
  rfl

theorem flagged_serverRespond {d : Bytes} (hfree : w.place.free)
    (hflags : s.Flags w.place) (hfrees : w.frees = 0)
    (hcount : w.requests.length = w.answered.length)
    (hanswered : w.answered = List.range w.answered.length) :
    (w.serverRespond d s).Flagged := by
  cases hopen : s.stream.isOpen with
  | false =>
    rw [serverRespond_closed hopen]
    exact flagged_serverSessionClose hfree (hflags.congr rfl rfl rfl) nofun hfrees hcount hanswered
  | true =>
    cases hprocessing : s.processing with
    | true =>
      rw [serverRespond_processing hopen hprocessing]
      refine ⟨fun s' hs' => ?_, fun hnone => absurd hnone (Option.some_ne_none _), hanswered⟩
      obtain rfl := Option.some.inj hs'
      exact ⟨hflags.congr rfl rfl rfl, hfrees, hcount⟩
    | false =>
      rw [serverRespond_deferred hopen hprocessing]
      refine ⟨fun s' hs' => ?_, fun hnone => absurd hnone (Option.some_ne_none _), hanswered⟩
      obtain rfl := Option.some.inj hs'
      exact ⟨hflags.congr rfl rfl (Stream.frame_streamUpdate _ _).1, hfrees, hcount⟩

theorem wellFormed_serverRespond {d : Bytes} (h : w.reactor.WellFormed held) :
    (w.serverRespond d s).reactor.WellFormed held := by
  cases hopen : s.stream.isOpen with
  | false =>
    rw [serverRespond_closed hopen]
    exact wellFormed_serverSessionClose h
  | true =>
    cases hprocessing : s.processing with
    | true =>
      rw [serverRespond_processing hopen hprocessing]
      exact h
    | false =>
      rw [serverRespond_deferred hopen hprocessing]
      exact (Stream.wellFormed_streamUpdate h).reactorNext _

theorem place_serverRespond {d : Bytes} {s' : Session}
    (hs' : (w.serverRespond d s).session = some s') :
    (w.serverRespond d s).place = w.place := by
  cases hopen : s.stream.isOpen with
  | false =>
    rw [serverRespond_closed hopen, serverSessionClose_ready rfl] at hs'
    cases hs'
  | true =>
    cases hprocessing : s.processing with
    | true => rw [serverRespond_processing hopen hprocessing]
    | false => rw [serverRespond_deferred hopen hprocessing]

theorem held_serverRespond {d : Bytes} : (w.serverRespond d s).place.held = w.place.held := by
  cases hopen : s.stream.isOpen with
  | false =>
    rw [serverRespond_closed hopen]
    exact held_serverSessionClose
  | true =>
    cases hprocessing : s.processing with
    | true => rw [serverRespond_processing hopen hprocessing]
    | false => rw [serverRespond_deferred hopen hprocessing]

theorem counters_serverRespond {d : Bytes} : (w.serverRespond d s).requests = w.requests ∧
    (w.serverRespond d s).answered = w.answered := by
  cases hopen : s.stream.isOpen with
  | false =>
    rw [serverRespond_closed hopen, serverSessionClose_ready rfl]
    exact ⟨rfl, rfl⟩
  | true =>
    cases hprocessing : s.processing with
    | true =>
      rw [serverRespond_processing hopen hprocessing]
      exact ⟨rfl, rfl⟩
    | false =>
      rw [serverRespond_deferred hopen hprocessing]
      exact ⟨rfl, rfl⟩

theorem Steady.respond (h : w.Steady) {k : ℕ} (hanswers : w.Answers k) (hs : w.session = some s)
    (d : Bytes) : ((w.answer k (some d)).serverRespond d s).Flagged ∧
      ((w.answer k (some d)).serverRespond d s).requests.length =
        ((w.answer k (some d)).serverRespond d s).answered.length := by
  obtain ⟨hflags, hfrees, -⟩ := h.alive s hs
  obtain ⟨hanswered, hcount⟩ := h.answer hanswers (some d)
  obtain ⟨hrequests, hlog⟩ := counters_serverRespond (w := w.answer k (some d)) (s := s) (d := d)
  refine ⟨flagged_serverRespond hanswers.1 hflags hfrees hcount hanswered, ?_⟩
  rw [hrequests, hlog]
  exact hcount

/-! ## Every step -/

theorem Calls.take {slot : ℕ} {u : ServerUser} (hcalls : w.Calls slot u) (h : w.Steady) :
    (w.reactor.take slot).WellFormed [slot] := by
  have hwf := h.wellFormed
  rw [hcalls.1] at hwf
  exact hwf.take hcalls.2.1

theorem Steady.closeEvent (h : w.Steady) {slot : ℕ} {u : ServerUser} (hcalls : w.Calls slot u)
    (hs : w.session = some s) {t : Stream} (ht : t.abort = s.stream.abort) :
    (w.closeEvent slot { s with stream := t }).Steady := by
  obtain ⟨hflags, hfrees, hcount⟩ := h.alive s hs
  have hflagged := flagged_serverSessionClose (w := { w with reactor := w.reactor.take slot })
    (s := { s with stream := t }) (by rw [hcalls.1]; rfl) (hflags.congr rfl rfl ht)
    (fun _ => hcalls.1) hfrees hcount h.answered
  refine ⟨⟨hflagged.alive, hflagged.freed, hflagged.answered⟩, ?_⟩
  have hwf : (w.closeEvent slot { s with stream := t }).reactor.WellFormed [] :=
    (wellFormed_serverSessionClose (hcalls.take h)).freeUser
  have hheld : (w.closeEvent slot { s with stream := t }).place.held = [] := by
    refine (held_serverSessionClose (w := { w with reactor := w.reactor.take slot })).trans ?_
    rw [hcalls.1]
    rfl
  rw [hheld]
  exact hwf

theorem Flagged.update (h : w.Flagged) (hs : w.session = some s) {s' : Session}
    {r : Reactor ServerUser}
    (habort : s'.abort = s.abort) (hprocessing : s'.processing = s.processing)
    (hready : s'.ready = s.ready) (hrecv : s'.stream.abort = s.stream.abort) :
    Flagged { w with session := some s', reactor := r } := by
  obtain ⟨hflags, hfrees, hcount⟩ := h.alive s hs
  refine ⟨fun s'' hs'' => ?_, fun hnone => absurd hnone (Option.some_ne_none _), h.answered⟩
  obtain rfl := Option.some.inj hs''
  rw [← hready] at hcount
  exact ⟨hflags.congr habort hprocessing hrecv, hfrees, hcount⟩

theorem Steady.accept (h : w.Steady) (hfree : w.place.free = true) (hs : w.session = none)
    (hfrees : w.frees = 0) (fd : ℤ) (type : StreamType) :
    (w.serverCreateSession fd type).Steady := by
  obtain ⟨hfreed, -, hcount⟩ := h.freed hs
  refine ⟨⟨fun s' hs' => ?_, fun hnone => absurd hnone (Option.some_ne_none _), h.answered⟩,
    Stream.wellFormed_streamUpdate h.wellFormed⟩
  obtain rfl := Option.some.inj hs'
  refine ⟨?_, hfrees, hcount⟩
  have hnew :
      (Stream.construct.streamOpen ServerUser.stream fd 0 type w.reactor).1.abort = false :=
    (Stream.frame_streamUpdate _ _).1
  show Session.Flags _ w.place
  cases hplace : w.place with
  | outside | user slot => exact ⟨rfl, rfl, hnew⟩
  | loop c => simp [hplace, Place.free] at hfree
  | handler c =>
    rw [hplace, hfrees] at hfreed
    exact absurd hfreed.1 Nat.zero_ne_one

theorem Steady.respondDisconnect (h : w.Steady) {k : ℕ} {d : Bytes} {s s' : Session}
    (hanswers : w.Answers k) (hs : w.session = some s)
    (hs' : ((w.answer k (some d)).serverRespond d s).session = some s') :
    (((w.answer k (some d)).serverRespond d s).serverDisconnect s').Steady := by
  obtain ⟨H, hcount⟩ := h.respond hanswers hs d
  obtain ⟨hflags, hfrees, -⟩ := H.alive s' hs'
  have hfree : ((w.answer k (some d)).serverRespond d s).place.free = true := by
    rw [place_serverRespond hs']
    exact hanswers.1
  refine ⟨flagged_serverSessionClose hfree (hflags.congr rfl rfl rfl) nofun hfrees hcount
    H.answered, ?_⟩
  rw [serverDisconnect, held_serverSessionClose, held_serverRespond]
  exact wellFormed_serverSessionClose (wellFormed_serverRespond h.wellFormed)

/-- The step lemma. -/
theorem Steady.step (h : w.Steady) {l : ServerLabel} (hacts : Acts phr w l w') : w'.Steady := by
  have hwf := h.wellFormed
  cases hacts with
  | accept fd type hfree hs hfrees hfd => exact h.accept hfree hs hfrees fd type
  | touch l hs huse =>
    exact ⟨⟨h.alive, h.freed, h.answered⟩, hwf⟩
  | recv slot received s hcalls hne hs hlen =>
    obtain ⟨hflags, hfrees, hcount⟩ := h.alive s hs
    rw [hcalls.1] at hflags
    refine ⟨⟨fun s' hs' => ?_, fun hnone => absurd hnone (Option.some_ne_none _), h.answered⟩,
      hcalls.take h⟩
    obtain rfl := Option.some.inj hs'
    exact ⟨⟨hflags.1, hflags.2.1, rfl, rfl, rfl⟩, hfrees, hcount⟩
  | recvEnd slot result s hcalls hs => exact h.closeEvent hcalls hs rfl
  | sendError slot result s hcalls hs => exact h.closeEvent hcalls hs rfl
  | send slot result s hcalls hs =>
    refine ⟨h.toFlagged.update hs rfl rfl rfl (Stream.frame_streamUpdate _ _).1, ?_⟩
    have hheld : w.place.held = [] := by
      rw [hcalls.1]
      rfl
    show Reactor.WellFormed _ w.place.held
    rw [hheld]
    exact (Stream.wellFormed_streamUpdate (hcalls.take h)).freeUser
  | next slot s hcalls hs =>
    obtain ⟨hflags, hfrees, hcount⟩ := h.alive s hs
    rw [hcalls.1] at hflags
    refine ⟨⟨fun s' hs' => ?_, fun hnone => absurd hnone (Option.some_ne_none _), h.answered⟩,
      hcalls.take h⟩
    obtain rfl := Option.some.inj hs'
    exact ⟨⟨hflags.1, hflags.2.1, hflags.2.2, rfl, rfl⟩, hfrees, hcount⟩
  | user slot n hcalls =>
    refine ⟨⟨fun s hs => ?_, fun hnone => ?_, h.answered⟩, hcalls.take h⟩
    · have halive := h.alive s hs
      rw [hcalls.1] at halive
      exact halive
    · exact ⟨trivial, (h.freed hnone).2⟩
  | drop slot u hcalls hrefers =>
    refine ⟨⟨h.alive, h.freed, h.answered⟩, ?_⟩
    have htake := (hcalls.take h).freeUser
    rw [← show w.place.held = [] by rw [hcalls.1]; rfl] at htake
    exact htake
  | reject c s q t hplace hs hready hcall =>
    obtain ⟨-, hfrees, hcount⟩ := h.alive s hs
    rw [hready, if_pos rfl] at hcount
    rw [hplace] at hwf
    exact ⟨⟨fun _ hnone => absurd hnone (Option.some_ne_none _).symm,
      fun _ => ⟨trivial, by rw [hfrees], hcount⟩, h.answered⟩,
      (wellFormed_closeReactor hwf).freeUser⟩
  | flush c s q t hplace hs hcall =>
    obtain ⟨hflags, hfrees, hcount⟩ := h.alive s hs
    rw [hplace] at hwf hflags
    refine ⟨⟨fun s' hs' => ?_, fun hnone => absurd hnone (Option.some_ne_none _), h.answered⟩,
      (wellFormed_flushReturn hwf).freeUser⟩
    obtain rfl := Option.some.inj hs'
    have hrecv : t.abort = c.recv := by
      rcases hcall with ⟨-, rfl⟩ | ⟨-, hcall⟩
      · exact hflags.2.2.1
      · rw [httpReadRequest_frame hcall]
        exact hflags.2.2.1
    exact ⟨⟨hflags.1, hflags.2.1, abort_flushReturn hrecv⟩, hfrees, hcount⟩
  | request c s n q t hplace hs hready hn hn' hcall =>
    obtain ⟨hflags, hfrees, hcount⟩ := h.alive s hs
    rw [hplace] at hwf hflags
    rw [hready, if_pos rfl] at hcount
    refine ⟨⟨fun s' hs' => ?_, fun hnone => absurd hnone (Option.some_ne_none _), h.answered⟩, hwf⟩
    obtain rfl := Option.some.inj hs'
    refine ⟨⟨rfl, rfl, ?_, hflags.2.2.2⟩, hfrees, ?_⟩
    · rw [httpReadRequest_frame hcall]
      exact hflags.2.2.1
    · rw [List.length_append, hcount]
      rfl
  | leave c s hplace hs =>
    obtain ⟨hflags, hfrees, hcount⟩ := h.alive s hs
    rw [hplace] at hwf hflags
    refine ⟨⟨fun s' hs' => ?_, fun hnone => absurd hnone (Option.some_ne_none _), h.answered⟩, hwf⟩
    obtain rfl := Option.some.inj hs'
    exact ⟨⟨rfl, rfl, hflags.2.2⟩, hfrees, hcount⟩
  | abort c hplace hs =>
    rw [hplace] at hwf
    refine ⟨⟨fun s hs' => absurd (hs.symm.trans hs') (Option.some_ne_none s).symm,
      fun _ => ⟨trivial, (h.freed hs).2⟩, h.answered⟩, hwf.freeUser⟩
  | userLeave slot hplace =>
    rw [hplace] at hwf
    refine ⟨⟨fun s hs => ?_, fun hnone => ⟨trivial, (h.freed hnone).2⟩, h.answered⟩, hwf.freeUser⟩
    have halive := h.alive s hs
    rw [hplace] at halive
    exact halive
  | respond k d s hanswers hs =>
    refine ⟨(h.respond hanswers hs d).1, ?_⟩
    rw [held_serverRespond]
    exact wellFormed_serverRespond hwf
  | disconnect k s hanswers hs =>
    obtain ⟨hflags, hfrees, -⟩ := h.alive s hs
    obtain ⟨hanswered, hcount⟩ := h.answer hanswers none
    refine ⟨flagged_serverSessionClose hanswers.1 (hflags.congr rfl rfl rfl) nofun hfrees hcount
      hanswered, ?_⟩
    rw [serverDisconnect, held_serverSessionClose]
    exact wellFormed_serverSessionClose hwf
  | respondDisconnect k d s s' hanswers hs hs' => exact h.respondDisconnect hanswers hs hs'
  | respondTouch k d s hanswers hs hs' =>
    have H := (h.respond hanswers hs d).1
    refine ⟨⟨H.alive, H.freed, H.answered⟩, ?_⟩
    dsimp only
    rw [held_serverRespond]
    exact wellFormed_serverRespond hwf
  | otherNext n hfree => exact ⟨⟨h.alive, h.freed, h.answered⟩, hwf.reactorNext _⟩
  | otherSubmit op n hfree => exact ⟨⟨h.alive, h.freed, h.answered⟩, hwf.submit _ op⟩
  | otherCancel id n m hfree huser =>
    exact ⟨⟨h.alive, h.freed, h.answered⟩, hwf.reactorCancel _ _ id⟩

theorem steady_construct : construct.Steady :=
  ⟨⟨fun _ hnone => absurd hnone (Option.some_ne_none _).symm,
    fun _ => ⟨trivial, Nat.zero_le _, rfl⟩,
    rfl⟩, Reactor.wellFormed_construct⟩

theorem act_of_step {l : ServerLabel} (hstep : w.step phr l = some w') :
    w.touched = false ∧ w.act phr l = some w' := by
  unfold ServerWorld.step at hstep
  split_ifs at hstep with htouched
  exact ⟨Bool.eq_false_iff.mpr htouched, hstep⟩

end ServerWorld

end LibReactor
