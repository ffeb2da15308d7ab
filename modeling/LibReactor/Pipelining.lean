import LibReactor.Replies
import LibReactor.Segmentation

/-!
# Pipelined requests

A session with an open stream hands the requests of its input to the handler in their order, one
at a time. A request that is complete when the answer to the one before comes late gets no further
receive event: the `server_session_next` of that answer is still to come.
-/

namespace LibReactor

open Framing Transition

/-- The first requests of `w` and where they end. Each is the frame that the bytes of `w` received
by then have behind the one before. -/
inductive Delivered (phr : Parser) (w : Bytes) : ℕ → List Contents → Prop
  | none : Delivered phr w 0 []
  | next {offset m n : ℕ} {cs : List Contents} {c : Contents} : Delivered phr w offset cs →
      m ≤ w.length → httpNext phr ((w.take m).drop offset) = .complete n c →
      Delivered phr w (offset + n) (cs ++ [c])

section Delivered

variable {phr : Parser} {w x : Bytes} {offset : ℕ} {cs : List Contents}

/-- More input does not change what has been delivered. -/
theorem Delivered.append (h : Delivered phr w offset cs) : Delivered phr (w ++ x) offset cs := by
  induction h with
  | none => exact .none
  | next _ hm hnext ih =>
    refine ih.next (hm.trans (by rw [List.length_append]; omega)) ?_
    rw [List.take_append_of_le_length hm]
    exact hnext

/-- For a header parser whose decisions are final, what has been delivered are the first requests of
the whole input. -/
theorem Delivered.frames (hphr : PrefixStable phr) (hw : w.length < 2 ^ 63)
    (hvalue : ∀ b, Reached (httpNext phr) w b → 0 < (phr b).ret → ((phr b).length b).size ≠ 0 →
      (phr b).contentLength b < 2 ^ 62)
    (h : Delivered phr w offset cs) : Reached (httpNext phr) w (w.drop offset) ∧
      ∀ rs v, Frames (httpNext phr) (w.drop offset) rs v →
        Frames (httpNext phr) w (cs ++ rs) v := by
  have hstable := stable_httpNext hphr hw hvalue
  induction h with
  | none => exact ⟨.start, fun rs v hrest => hrest⟩
  | @next offset m n cs c _ hm hnext ih =>
    obtain ⟨hreached, hframes⟩ := ih
    obtain ⟨x, hsplit⟩ : ∃ x, w.drop offset = (w.take m).drop offset ++ x :=
      ⟨_, by rw [← List.drop_append, List.take_append_drop]⟩
    have hwithin : Within (httpNext phr) w ((w.take m).drop offset ++ x) := by
      rw [← hsplit]
      exact ⟨[], by simpa using hreached⟩
    have hlong : httpNext phr (w.drop offset) = .complete n c := by
      rw [hsplit]
      exact hstable.complete _ _ n c hwithin hnext
    rw [← List.drop_drop]
    refine ⟨hreached.next hlong, fun rs v hrest => ?_⟩
    rw [List.append_assoc]
    exact hframes _ v (.complete hlong hrest)

end Delivered

/-- No function of the server is running, nor its handler. -/
def Place.between : Place → Bool
  | .outside | .user _ => true
  | _ => false

namespace ServerWorld

variable {phr : Parser} {w w' : ServerWorld} {s : Session}

structure Served (phr : Parser) (input : Bytes) (requests : List Contents) (t : Stream) : Prop where
  buffered : t.Buffered
  delivered : ∃ offset, offset ≤ input.length ∧ Delivered phr input offset requests ∧
    t.unread = input.drop offset

/-- What holds of a session between events: its responses are flushed, and a request that it is
ready for has a `server_session_next` to come. -/
structure Idle (phr : Parser) (r : Reactor ServerUser) (s : Session) : Prop where
  covered : s.stream.Covered
  scheduled : s.ready = true → (∃ n c, httpNext phr s.stream.unread = .complete n c) →
    ∃ slot, r.Holds slot .next

structure Pipelined (phr : Parser) (w : ServerWorld) : Prop where
  fresh : w.session = none → w.frees = 0 → w.input = [] ∧ w.requests = []
  served : ∀ s, w.session = some s → s.stream.isOpen = true →
    Served phr w.input w.requests s.stream
  idle : ∀ s, w.session = some s → s.stream.isOpen = true → w.place.between = true →
    Idle phr w.reactor s

/-- A session that has been closed. -/
theorem pipelined_closed (hsession : ∀ s, w.session = some s → s.stream.isOpen = false)
    (hfrees : w.session = none → w.frees ≠ 0) : w.Pipelined phr := by
  have hclosed : ∀ s, w.session = some s → s.stream.isOpen = true → False := by
    intro s hs hopen
    rw [hsession s hs] at hopen
    cases hopen
  exact ⟨fun hs hzero => absurd hzero (hfrees hs), fun s hs hopen => (hclosed s hs hopen).elim,
    fun s hs hopen => (hclosed s hs hopen).elim⟩

theorem pipelined_serverSessionClose : (w.serverSessionClose s).Pipelined phr :=
  pipelined_closed closed_serverSessionClose.1 closed_serverSessionClose.2

theorem pipelined_closeEvent {slot : ℕ} : (w.closeEvent slot s).Pipelined phr :=
  have hclosed := closed_serverSessionClose
    (w := { w with reactor := w.reactor.take slot }) (s := s)
  pipelined_closed hclosed.1 hclosed.2

theorem pipelined_some (hs : w.session = some s) (hserved : s.stream.isOpen = true →
      Served phr w.input w.requests s.stream)
    (hidle : s.stream.isOpen = true → w.place.between = true → Idle phr w.reactor s) :
    w.Pipelined phr := by
  refine ⟨fun hnone => absurd (hs.symm.trans hnone) (Option.some_ne_none s), fun s' hs' => ?_,
    fun s' hs' => ?_⟩
  · rw [← Option.some.inj (hs.symm.trans hs')]
    exact hserved
  · rw [← Option.some.inj (hs.symm.trans hs')]
    exact hidle

section Served

variable {input : Bytes} {requests : List Contents} {t : Stream}

theorem Served.streamUpdate (h : Served phr input requests t) (r : Reactor ServerUser) :
    Served phr input requests (t.streamUpdate ServerUser.stream r).1 := by
  obtain ⟨hbuffered, offset, hle, hdelivered, hunread⟩ := h
  exact ⟨hbuffered.streamUpdate r, offset, hle, hdelivered, (t.unread_streamUpdate r).trans hunread⟩

theorem Served.congr (h : Served phr input requests t) {t' : Stream}
    (hinput : t'.input = t.input) (hconsumed : t'.inputConsumed = t.inputConsumed) :
    Served phr input requests t' := by
  have hunread : t'.unread = t.unread := by
    unfold Stream.unread
    rw [hinput, hconsumed]
  obtain ⟨hbuffered, hdelivered⟩ := h
  refine ⟨?_, ?_⟩
  · unfold Stream.Buffered
    rw [hinput, hconsumed]
    exact hbuffered
  · rw [hunread]
    exact hdelivered

theorem Served.recvBegin (h : Served phr input requests t) {received : Bytes}
    (hlen : t.input.size + received.length < 2 ^ 63) :
    Served phr (input ++ received) requests (t.recvBegin received) := by
  obtain ⟨hbuffered, offset, hle, hdelivered, hunread⟩ := h
  refine ⟨⟨?_, ?_⟩, offset, ?_, hdelivered.append, ?_⟩
  · rw [Stream.data_recvBegin, List.length_append]
    exact hbuffered.1.trans (Nat.le_add_right _ _)
  · rw [Stream.data_recvBegin, List.length_append]
    exact hlen
  · rw [List.length_append]
    exact hle.trans (Nat.le_add_right _ _)
  · rw [Stream.unread_recvBegin t received hbuffered.1, hunread, List.drop_append_of_le_length hle]

/-- A call that finds a request finds the next one of the input. -/
theorem Served.read {phr' : Parser} (hfollows : Follows phr phr' t.unread)
    (h : Served phr input requests t) {n : ℤ} (hn : n ≠ -1) (hn' : n ≠ 0) {q q' : Request}
    {t' : Stream} (hcall : httpReadRequest phr' t q = .ok (n, q', t')) :
    Served phr input (requests ++ [q'.contents (t'.input.data.drop t.inputConsumed)]) t' := by
  obtain ⟨hbuffered, offset, hle, hdelivered, hunread⟩ := h
  have hlength : t.unread.length = t.input.data.length - t.inputConsumed := List.length_drop
  have hlen : t.unread.length < 2 ^ 63 := by
    have hsize := hbuffered.2
    omega
  rcases httpReadRequest_next hbuffered.1 hlen hfollows.length q with
    ⟨-, q₁, hcall₁⟩ | ⟨-, q₁, hcall₁⟩ | ⟨m, c, q₁, t₁, hnext', hcall₁, hconsumes⟩
  · cases hcall.symm.trans hcall₁
    exact absurd rfl hn'
  · cases hcall.symm.trans hcall₁
    exact absurd rfl hn
  · cases hcall.symm.trans hcall₁
    have hm := (httpNext_within hlen hfollows.length hnext').1
    have hnext := hfollows.complete hnext'
    have hconsumed := hconsumes.consumed
    have hsize := hconsumes.size
    have hbound := hbuffered.1
    refine ⟨⟨by omega, hsize ▸ hbuffered.2⟩, offset + m, ?_, ?_, ?_⟩
    · rw [hunread, List.length_drop] at hm
      omega
    · rw [hconsumes.contents]
      refine hdelivered.next (Nat.le_refl _) ?_
      rw [List.take_length, ← hunread]
      exact hnext
    · rw [hconsumes.unread, hunread, List.drop_drop]

end Served

theorem read_none {phr' : Parser} {t t' : Stream} (hfollows : Follows phr phr' t.unread)
    (hbuffered : t.Buffered) {q q' : Request}
    (hcall : httpReadRequest phr' t q = .ok (0, q', t')) :
    t' = t ∧ httpNext phr t.unread = .incomplete := by
  have hlength : t.unread.length = t.input.data.length - t.inputConsumed := List.length_drop
  have hsize := hbuffered.2
  rcases httpReadRequest_next hbuffered.1 (by omega) hfollows.length q with
    ⟨hnext, q₁, hcall₁⟩ | ⟨-, q₁, hcall₁⟩ | ⟨m, c, q₁, t₁, -, hcall₁, -⟩
  · cases hcall.symm.trans hcall₁
    exact ⟨rfl, hfollows.incomplete hnext⟩
  · cases hcall.symm.trans hcall₁
  · cases hcall.symm.trans hcall₁

section FlushReturn

variable {c : Reading} {t : Stream} {r : Reactor ServerUser}

theorem unread_flushReturn : (flushReturn c t r).1.unread = t.unread := by
  have hflushed : (t.streamFlush ServerUser.stream r).1.unread = t.unread :=
    Stream.unread_streamUpdate _ _
  unfold flushReturn
  dsimp only
  split_ifs
  · exact (Stream.unread_streamUpdate _ _).trans hflushed
  · exact hflushed

theorem covered_flushReturn : (flushReturn c t r).1.Covered := by
  have hcovered : Stream.Covered { t with outputFlushed := t.outputWaiting.size } := rfl
  have hflushed : (t.streamFlush ServerUser.stream r).1.Covered := hcovered.streamUpdate r
  unfold flushReturn
  dsimp only
  split_ifs
  · exact Stream.Covered.streamUpdate (s := { (t.streamFlush ServerUser.stream r).1 with
      abort := false }) hflushed _
  · exact hflushed

theorem Served.flushReturn {input : Bytes} {requests : List Contents}
    (h : Served phr input requests t) : Served phr input requests (flushReturn c t r).1 := by
  have hflush : Served phr input requests { t with outputFlushed := t.outputWaiting.size } :=
    h.congr rfl rfl
  have hflushed := hflush.streamUpdate r
  have hreturn : Served phr input requests
      { (t.streamFlush ServerUser.stream r).1 with abort := false } := hflushed.congr rfl rfl
  unfold ServerWorld.flushReturn
  dsimp only
  split_ifs
  · exact hreturn.streamUpdate _
  · exact hflushed

end FlushReturn

theorem Idle.mono {r r' : Reactor ServerUser} (h : Idle phr r s)
    (hnext : ∀ slot, r.Holds slot .next → r'.Holds slot .next) : Idle phr r' s := by
  refine ⟨h.covered, fun hready hcomplete => ?_⟩
  obtain ⟨slot, hholds⟩ := h.scheduled hready hcomplete
  exact ⟨slot, hnext slot hholds⟩

theorem Calls.take_next {slot : ℕ} {u : ServerUser} (hcalls : w.Calls slot u) (hsteady : w.Steady)
    (hu : u ≠ .next) {slot' : ℕ} (h : w.reactor.Holds slot' .next) :
    (w.reactor.take slot).Holds slot' .next := by
  refine (hsteady.wellFormed.holds_take hcalls.2.1 slot' .next).mpr ⟨?_, h⟩
  rintro rfl
  exact hu (Reactor.Holds.unique hcalls.2 h)

theorem Pipelined.serverRespond (h : w.Pipelined phr) (hsteady : w.Steady) {k : ℕ} {d : Bytes}
    (hs : w.session = some s) :
    ((w.answer k (some d)).serverRespond d s).Pipelined phr := by
  obtain ⟨hflags, -, -⟩ := hsteady.alive s hs
  cases hopen : s.stream.isOpen with
  | false =>
    rw [serverRespond_closed hopen]
    exact pipelined_serverSessionClose
  | true =>
    have hwritten : Served phr w.input w.requests (s.stream.writeData d) :=
      (h.served s hs hopen).congr rfl rfl
    cases hprocessing : s.processing with
    | true =>
      rw [serverRespond_processing hopen hprocessing]
      refine pipelined_some rfl (fun _ => hwritten) fun _ hbetween => ?_
      have hplace : w.place.between = true := hbetween
      cases hp : w.place with
      | outside | user slot =>
        rw [hp] at hflags
        rw [hflags.2.1] at hprocessing
        cases hprocessing
      | loop c | handler c =>
        rw [hp] at hplace
        cases hplace
    | false =>
      rw [serverRespond_deferred hopen hprocessing]
      have hflush : Served phr w.input w.requests { s.stream.writeData d with
          outputFlushed := (s.stream.writeData d).outputWaiting.size } := hwritten.congr rfl rfl
      have hcovered : Stream.Covered { s.stream.writeData d with
        outputFlushed := (s.stream.writeData d).outputWaiting.size } := rfl
      have hwf : ((s.stream.writeData d).streamFlush ServerUser.stream w.reactor).2.WellFormed
          w.place.held := Stream.wellFormed_streamUpdate hsteady.wellFormed
      exact pipelined_some rfl (fun _ => hflush.streamUpdate w.reactor) fun _ _ =>
        ⟨hcovered.streamUpdate w.reactor, fun _ _ =>
          ⟨_, (hwf.holds_reactorNext .next _ _).mpr (.inl ⟨rfl, rfl⟩)⟩⟩

theorem Pipelined.accept (h : w.Pipelined phr) (hs : w.session = none)
    (hfrees : w.frees = 0) (fd : ℤ) (type : StreamType) :
    (w.serverCreateSession fd type).Pipelined phr := by
  obtain ⟨hinput, hrequests⟩ := h.fresh hs hfrees
  have hserved : Served phr w.input w.requests
      { Stream.construct with fd := fd, flags := 0, type := type } := by
    refine ⟨⟨Nat.le_refl _, Nat.two_pow_pos 63⟩, 0, Nat.zero_le _, ?_, ?_⟩
    · rw [hrequests]
      exact .none
    · rw [hinput]
      rfl
  have hnew : Stream.Covered { Stream.construct with fd := fd, flags := 0, type := type } := rfl
  have hsession : (w.serverCreateSession fd type).session = some ⟨⟨.null, .null, none, []⟩,
      (Stream.construct.streamOpen ServerUser.stream fd 0 type w.reactor).1, true, false, false,
      none⟩ := rfl
  refine pipelined_some hsession (fun _ => hserved.streamUpdate w.reactor) fun _ _ =>
    ⟨hnew.streamUpdate w.reactor, fun _ hcomplete => ?_⟩
  have hempty :
      (Stream.construct.streamOpen ServerUser.stream fd 0 type w.reactor).1.unread = [] :=
    Stream.unread_streamUpdate _ _
  obtain ⟨n, c, hnext⟩ := hcomplete
  rw [hempty, httpNext_nil] at hnext
  cases hnext

theorem Pipelined.send (h : w.Pipelined phr) (hsteady : w.Steady) {slot : ℕ} (n : ℕ)
    (hcalls : w.Calls slot .send) (hs : w.session = some s) :
    Pipelined phr { w with
      session := some { s with stream :=
        (s.stream.sendDone ServerUser.stream n (w.reactor.take slot)).1 }
      reactor :=
        (s.stream.sendDone ServerUser.stream n (w.reactor.take slot)).2.freeUser slot } := by
  obtain ⟨t, ht⟩ : ∃ t : Stream, t = { s.stream with
      write := none
      outputOffset := s.stream.outputOffset + n
      outputPartial :=
        if s.stream.outputPartial + n = s.stream.outputWriting.size then 0
        else s.stream.outputPartial + n } := ⟨_, rfl⟩
  have hdone : s.stream.sendDone ServerUser.stream n (w.reactor.take slot) =
      t.streamUpdate ServerUser.stream (w.reactor.take slot) := by
    rw [ht]
    rfl
  have hopen : ∀ r, (t.streamUpdate ServerUser.stream r).1.isOpen = s.stream.isOpen := by
    intro r
    rw [Stream.isOpen_streamUpdate, ht]
    rfl
  rw [hdone]
  refine pipelined_some rfl (fun hopen' => ?_) fun hopen' hbetween => ?_
  · rw [hopen] at hopen'
    exact ((h.served s hs hopen').congr (by rw [ht]) (by rw [ht])).streamUpdate _
  · rw [hopen] at hopen'
    have hidle := h.idle s hs hopen' hbetween
    have hcovered : t.Covered := by
      rw [ht]
      exact hidle.covered
    refine ⟨hcovered.streamUpdate _, fun hready hcomplete => ?_⟩
    dsimp only at hcomplete
    rw [Stream.unread_streamUpdate, ht] at hcomplete
    obtain ⟨slot', hholds⟩ := hidle.scheduled hready hcomplete
    have htake := hcalls.take hsteady
    exact ⟨slot', ((Stream.wellFormed_streamUpdate htake).holds_freeUser _ _).mpr
      (Stream.holds_streamUpdate htake (hcalls.take_next hsteady nofun hholds))⟩

section Calls

variable {phr' : Parser} (hfollows : ∀ s, w.session = some s → s.stream.isOpen = true →
  Follows phr phr' s.stream.unread)
include hfollows

/-- `server_session_read` has found no request, and returns. -/
theorem Pipelined.flush (h : w.Pipelined phr) {c : Reading} {q : Request} {t : Stream}
    (hs : w.session = some s) (hcall : s.ready = false ∧ t = s.stream ∨
      s.ready = true ∧ httpReadRequest phr' s.stream s.request = .ok (0, q, t)) :
    Pipelined phr { w with
      session := some { s with request := q, stream := (flushReturn c t w.reactor).1 }
      reactor := (flushReturn c t w.reactor).2.freeUser c.slot
      place := .outside } := by
  have hframe : t = { s.stream with input := t.input, inputConsumed := t.inputConsumed } := by
    rcases hcall with ⟨-, rfl⟩ | ⟨-, hcall⟩
    · rfl
    · exact httpReadRequest_frame hcall
  have hopen : (flushReturn c t w.reactor).1.isOpen = s.stream.isOpen := by
    rw [isOpen_flushReturn, hframe]
    rfl
  have hsame : s.stream.isOpen = true → t = s.stream ∧
      (s.ready = true → httpNext phr s.stream.unread = .incomplete) := by
    intro hopen'
    rcases hcall with ⟨hbusy, rfl⟩ | ⟨-, hcall⟩
    · exact ⟨rfl, fun hready => absurd (hbusy.symm.trans hready) Bool.false_ne_true⟩
    · obtain ⟨heq, hnone⟩ :=
        read_none (hfollows s hs hopen') (h.served s hs hopen').buffered hcall
      exact ⟨heq, fun _ => hnone⟩
  refine pipelined_some rfl (fun hopen' => ?_) fun hopen' _ => ?_
  · dsimp only at hopen'
    rw [hopen] at hopen'
    rw [(hsame hopen').1]
    exact (h.served s hs hopen').flushReturn
  · dsimp only at hopen'
    rw [hopen] at hopen'
    obtain ⟨rfl, hnone⟩ := hsame hopen'
    refine ⟨covered_flushReturn, fun hready hcomplete => ?_⟩
    obtain ⟨n, r, hnext⟩ := hcomplete
    dsimp only at hready hnext
    rw [unread_flushReturn, hnone hready] at hnext
    cases hnext

/-- The step lemma: calls that follow the parser `phr` serve the requests that it finds. -/
theorem Pipelined.step (hsteady : w.Steady) (h : w.Pipelined phr) {l : ServerLabel}
    (hacts : Acts phr' w l w') : w'.Pipelined phr := by
  have hwf := hsteady.wellFormed
  cases hacts with
  | accept fd type hfree hs hfrees hfd => exact h.accept hs hfrees fd type
  | touch l hs huse => exact ⟨h.fresh, h.served, h.idle⟩
  | recv slot received s hcalls hne hs hlen =>
    exact pipelined_some rfl (fun hopen => (h.served s hs hopen).recvBegin hlen)
      fun _ hbetween => absurd hbetween Bool.false_ne_true
  | recvEnd slot result s hcalls hs => exact pipelined_closeEvent
  | sendError slot result s hcalls hs => exact pipelined_closeEvent
  | send slot result s hcalls hs => exact h.send hsteady result.toNat hcalls hs
  | next slot s hcalls hs =>
    exact pipelined_some rfl (fun hopen => h.served s hs hopen)
      fun _ hbetween => absurd hbetween Bool.false_ne_true
  | user slot n hcalls =>
    refine ⟨h.fresh, h.served, fun s hs hopen _ => ?_⟩
    exact (h.idle s hs hopen (by rw [hcalls.1]; rfl)).mono fun _ hholds =>
      hcalls.take_next hsteady nofun hholds
  | drop slot u hcalls hrefers =>
    refine ⟨h.fresh, h.served, fun s hs hopen hbetween => ?_⟩
    have hne : u ≠ .next := by
      rintro rfl
      cases hrefers
    exact (h.idle s hs hopen hbetween).mono fun _ hholds =>
      ((hcalls.take hsteady).holds_freeUser _ _).mpr (hcalls.take_next hsteady hne hholds)
  | reject c s q t hplace hs hready hcall =>
    exact pipelined_closed (fun _ hs => absurd hs (Option.some_ne_none _).symm)
      (fun _ => Nat.succ_ne_zero _)
  | flush c s q t hplace hs hcall => exact h.flush hfollows hs hcall
  | request c s n q t hplace hs hready hn hn' hcall =>
    refine pipelined_some rfl (fun hopen => ?_) fun _ hbetween => absurd hbetween Bool.false_ne_true
    have hopen' : s.stream.isOpen = true := by
      dsimp only at hopen
      rw [httpReadRequest_frame hcall] at hopen
      exact hopen
    exact (h.served s hs hopen').read (hfollows s hs hopen') hn hn' hcall
  | leave c s hplace hs =>
    exact pipelined_some rfl (fun hopen => h.served s hs hopen)
      fun _ hbetween => absurd hbetween Bool.false_ne_true
  | abort c hplace hs =>
    have hfreed := (hsteady.freed hs).1
    rw [hplace] at hfreed
    refine pipelined_closed (fun s hs' => absurd (hs.symm.trans hs') (Option.some_ne_none s).symm)
      fun _ => ?_
    show w.frees ≠ 0
    rw [hfreed.1]
    exact Nat.one_ne_zero
  | userLeave slot hplace =>
    rw [hplace] at hwf
    refine ⟨h.fresh, h.served, fun s hs hopen _ => ?_⟩
    exact (h.idle s hs hopen (by rw [hplace]; rfl)).mono fun _ hholds =>
      (hwf.holds_freeUser _ _).mpr hholds
  | respond k d s hanswers hs => exact h.serverRespond hsteady hs
  | disconnect k s hanswers hs => exact pipelined_serverSessionClose
  | respondDisconnect k d s s' hanswers hs hs' => exact pipelined_serverSessionClose
  | respondTouch k d s hanswers hs hs' =>
    have H := h.serverRespond hsteady hs (k := k) (d := d)
    exact ⟨H.fresh, H.served, H.idle⟩
  | otherNext n hfree =>
    refine ⟨h.fresh, h.served, fun s hs hopen hbetween => ?_⟩
    exact (h.idle s hs hopen hbetween).mono fun _ hholds =>
      (hwf.holds_reactorNext _ _ _).mpr (.inr hholds)
  | otherSubmit op n hfree =>
    refine ⟨h.fresh, h.served, fun s hs hopen hbetween => ?_⟩
    exact (h.idle s hs hopen hbetween).mono fun _ hholds =>
      (hwf.holds_submit _ op _ _).mpr (.inr hholds)
  | otherCancel id n m hfree huser =>
    refine ⟨h.fresh, h.served, fun s hs hopen hbetween => ?_⟩
    refine (h.idle s hs hopen hbetween).mono fun slot hholds =>
      hwf.reactorCancel_holds _ _ id ?_ hholds
    rintro rfl
    cases Option.some.inj (hholds.2.symm.trans huser)

end Calls

/-- No run stops in the loop of `server_session_read`: a call of `http_read_request` returns. -/
theorem Pipelined.turn_isSome (hphr : PrefixStable phr) (hsteady : w.Steady) (h : w.Pipelined phr)
    {c : Reading} (hplace : w.place = .loop c) (hs : w.session = some s)
    (hopen : s.stream.isOpen = true) : (w.act phr .turn).isSome = true := by
  have hbuffered := (h.served s hs hopen).buffered
  have hlength : s.stream.unread.length = s.stream.input.data.length - s.stream.inputConsumed :=
    List.length_drop
  have hsize := hbuffered.2
  have hflags := (hsteady.alive s hs).1
  rw [hplace] at hflags
  obtain ⟨habort, -, hrecv, -, hflag⟩ := hflags
  have hcall : ∃ n q t, httpReadRequest phr s.stream s.request = .ok (n, q, t) := by
    rcases httpReadRequest_next hbuffered.1 (by omega) (hphr.length _) s.request with
      ⟨-, q, hcall⟩ | ⟨-, q, hcall⟩ | ⟨n, r, q, t, -, hcall, -⟩
    · exact ⟨_, _, _, hcall⟩
    · exact ⟨_, _, _, hcall⟩
    · exact ⟨_, _, _, hcall⟩
  obtain ⟨n, q, t, hcall⟩ := hcall
  have hframe := httpReadRequest_frame hcall
  simp only [act, hplace, use, hs, turn]
  by_cases hready : s.ready = true
  · rw [if_pos hready, hcall]
    dsimp only
    split_ifs with herror hnone
    · have habort' : t.abort = c.recv := by
        rw [hframe]
        exact hrecv
      have hreject := rejectRead_eq (s := { s with request := q, stream := t }) hplace hready habort
        habort' hflag
      exact (congrArg Option.isSome hreject).trans rfl
    · rw [flushRead_eq hflag]
      rfl
    · rfl
  · rw [if_neg hready, flushRead_eq hflag]
    rfl

theorem pipelined_construct : construct.Pipelined phr :=
  ⟨fun _ _ => ⟨rfl, rfl⟩, fun _ hs => absurd hs (Option.some_ne_none _).symm,
    fun _ hs => absurd hs (Option.some_ne_none _).symm⟩

end ServerWorld

open ServerWorld in
/-- In every run, as long as the stream is open: the requests delivered are the first ones of the
input, in order, and at most the last is unanswered; the responses are those to the first requests,
in order, and what the stream holds for output ends them; between events all of it is flushed, and
a session that is ready and has a complete request has `server_session_next` scheduled. -/
theorem session_pipelining {phr : Parser} (hphr : PrefixStable phr) {w : ServerWorld}
    (h : Reach (ServerWorld.step phr) (fun _ _ => True) .construct w) {s : Session}
    (hs : w.session = some s) (hopen : s.stream.isOpen = true) :
    (∃ offset, Delivered phr w.input offset w.requests ∧ s.stream.unread = w.input.drop offset) ∧
    (w.input.length < 2 ^ 63 → (∀ b, Reached (httpNext phr) w.input b → 0 < (phr b).ret →
        ((phr b).length b).size ≠ 0 → (phr b).contentLength b < 2 ^ 62) →
      ∀ rs v, Frames (httpNext phr) s.stream.unread rs v →
        Frames (httpNext phr) w.input (w.requests ++ rs) v) ∧
    w.requests.length = w.responses.length + (if s.ready then 0 else 1) ∧
    w.responses.map Prod.fst = List.range w.responses.length ∧
    s.stream.outgoing <:+ (w.responses.map Prod.snd).flatten ∧
    (w.place.between = true → s.stream.outputFlushed = s.stream.outputWaiting.size ∧
      (s.ready = true → (∃ n c, httpNext phr s.stream.unread = .complete n c) →
        ∃ slot, w.reactor.Holds slot .next)) := by
  obtain ⟨hsteady, hanswering, hpipelined⟩ := h.invariant
    (I := fun w => w.Steady ∧ w.Answering ∧ w.Pipelined phr)
    ⟨steady_construct, answering_construct, pipelined_construct⟩ fun w l w' H _ hstep =>
      have hacts := H.1.acts (act_of_step hstep).2
      ⟨H.1.step hacts, H.2.1.step H.1 hacts,
        H.2.2.step (fun _ _ _ => .refl hphr _) H.1 hacts⟩
  have hserved := hpipelined.served s hs hopen
  have hreplied := hanswering.replied s hs hopen
  have hcount := (hsteady.alive s hs).2.2
  have hlength : w.answered.length = w.responses.length := by
    rw [← hreplied.tagged, List.length_map]
  obtain ⟨offset, -, hdelivered, hunread⟩ := hserved.delivered
  refine ⟨⟨offset, hdelivered, hunread⟩, fun hlen hvalue => ?_, ?_, ?_, hreplied.output,
    fun hbetween => ?_⟩
  · rw [hunread]
    exact (hdelivered.frames hphr hlen hvalue).2
  · rw [← hlength]
    exact hcount
  · rw [hreplied.tagged, ← hlength]
    exact hsteady.answered
  · have hidle := hpipelined.idle s hs hopen hbetween
    exact ⟨hidle.covered, hidle.scheduled⟩

/-- Two requests come at once and the first is answered late: the second waits for
`server_session_next`. -/
theorem session_pipelining_twoRequests :
    ∃ (w : ServerWorld) (s : Session) (slot : ℕ), w.session = some s ∧ w.requests.length = 1 ∧
      s.ready = true ∧ (∃ n c, httpNext getParser s.stream.unread = .complete n c) ∧
      w.reactor.Holds slot .next := by
  have hrun : (exec (ServerWorld.step getParser) .construct
      [.accept 3 .socket, .recv 127 (getHeader ++ getHeader), .turn, .otherSubmit (.read 5 8 0) 0,
        .leave, .turn, .call 126, .respond 0 (str "ok")]).any (fun w =>
      w.requests.length = 1 ∧ w.place.between = true ∧ w.session.any (fun s =>
        s.ready = true ∧ s.stream.isOpen = true ∧ httpNext getParser s.stream.unread ≠ .incomplete ∧
          httpNext getParser s.stream.unread ≠ .error)) := by
    decide
  obtain ⟨w, hexec, hw⟩ := (Option.any_eq_true _ _).mp hrun
  obtain ⟨hone, hbetween, hsession⟩ := of_decide_eq_true hw
  obtain ⟨s, hs, hdecide⟩ := (Option.any_eq_true _ _).mp hsession
  obtain ⟨hready, hopen, hincomplete, herror⟩ := of_decide_eq_true hdecide
  have hcomplete : ∃ n c, httpNext getParser s.stream.unread = .complete n c := by
    cases hnext : httpNext getParser s.stream.unread with
    | incomplete => exact absurd hnext hincomplete
    | error => exact absurd hnext herror
    | complete n c => exact ⟨n, c, rfl⟩
  obtain ⟨-, -, -, -, -, hidle⟩ := session_pipelining prefixStable_getParser
    (.of_exec (fun _ _ => trivial) hexec) hs hopen
  obtain ⟨slot, hslot⟩ := (hidle hbetween).2 hready hcomplete
  exact ⟨w, s, slot, hs, hone, hready, hcomplete, hslot⟩

end LibReactor
