import LibReactor.Segmentation
import LibReactor.ServerSteps

/-!
# The lifetime of a session

As long as no answer finds a `server_session_next` scheduled, and `server_disconnect` does not
follow a response to a closed stream, the session's fields name all callbacks that have it or its
stream as their state. It is then freed once, and nothing that is still to come uses it.
-/

namespace LibReactor

open Transition

structure Session.Tracked (s : Session) (r : Reactor ServerUser) (held : List ℕ) : Prop where
  stream : s.stream.Tracked ServerUser.stream r held
  next : r.Tracks .next s.next true

structure Cleared (r : Reactor ServerUser) : Prop where
  recv : r.Tracks .recv none false
  send : r.Tracks .send none false
  next : r.Tracks .next none true

section Reactor

variable {s : Session} {r : Reactor ServerUser} {held : List ℕ} {slot : ℕ}

theorem Cleared.not_holds (h : Cleared r) {u : ServerUser} (hu : u.refers = true) (slot : ℕ) :
    ¬r.Holds slot u := by
  cases u with
  | recv => exact h.recv.not_holds slot
  | send => exact h.send.not_holds slot
  | next => exact h.next.not_holds slot
  | noop | releaseBuffer | other => cases hu

theorem Session.Tracked.cleared (h : s.Tracked r held) : Cleared (s.closeReactor r) := by
  have hu := ServerUser.distinct_stream
  have hclosed := h.stream.streamClose hu
  have hnext := h.stream.tracks_streamClose hu ServerUser.apart_next h.next
  have hwf := hclosed.wellFormed
  have hcancelled : (s.stream.streamClose ServerUser.stream r).1.Tracked ServerUser.stream
      ((s.stream.streamClose ServerUser.stream r).2.cancelField .noop .noop s.next) held :=
    ⟨hwf.cancelField, hclosed.read.cancelField_other hwf hnext nofun nofun nofun,
      hclosed.write.cancelField_other hwf hnext nofun nofun nofun⟩
  have hnone : ((s.stream.streamClose ServerUser.stream r).2.cancelField .noop .noop
      s.next).Tracks .next none true := hnext.cancelField hwf nofun nofun
  obtain ⟨input, outputWriting, fd, -, heq⟩ :=
    Stream.streamClose_fst ServerUser.stream s.stream r
  unfold Session.closeReactor
  dsimp only
  split_ifs
  · obtain ⟨hrecv, hsend⟩ := hcancelled.streamClose_none hu
    exact ⟨hrecv, hsend, hcancelled.tracks_streamClose hu ServerUser.apart_next hnone⟩
  · rw [heq] at hcancelled
    exact ⟨hcancelled.read, hcancelled.write, hnone⟩

theorem Cleared.take (h : Cleared r) (hwf : r.WellFormed held) {u : ServerUser}
    (hslot : r.Holds slot u) : Cleared (r.take slot) := by
  have hne : ∀ v : ServerUser, v.refers = true → v ≠ u := by
    rintro v hv rfl
    exact h.not_holds hv slot hslot
  exact ⟨h.recv.take_of_ne hwf hslot (hne _ rfl), h.send.take_of_ne hwf hslot (hne _ rfl),
    h.next.take_of_ne hwf hslot (hne _ rfl)⟩

theorem Cleared.freeUser (h : Cleared r) (hwf : r.WellFormed (slot :: held)) :
    Cleared (r.freeUser slot) :=
  ⟨h.recv.freeUser hwf, h.send.freeUser hwf, h.next.freeUser hwf⟩

theorem Session.Tracked.take_recv (h : s.Tracked r held) (hslot : r.Holds slot .recv) :
    { s with stream := { s.stream with read := none } : Session }.Tracked (r.take slot)
      (slot :: held) := by
  obtain ⟨⟨hwf, hread, hwrite⟩, hnext⟩ := h
  exact ⟨⟨hwf.take hslot.1, hread.take hwf hslot, hwrite.take_of_ne hwf hslot nofun⟩,
    hnext.take_of_ne hwf hslot nofun⟩

theorem Session.Tracked.take_send (h : s.Tracked r held) (hslot : r.Holds slot .send) :
    { s with stream := { s.stream with write := none } : Session }.Tracked (r.take slot)
      (slot :: held) := by
  obtain ⟨⟨hwf, hread, hwrite⟩, hnext⟩ := h
  exact ⟨⟨hwf.take hslot.1, hread.take_of_ne hwf hslot nofun, hwrite.take hwf hslot⟩,
    hnext.take_of_ne hwf hslot nofun⟩

theorem Session.Tracked.take_next (h : s.Tracked r held) (hslot : r.Holds slot .next) :
    { s with next := none }.Tracked (r.take slot) (slot :: held) := by
  obtain ⟨⟨hwf, hread, hwrite⟩, hnext⟩ := h
  exact ⟨⟨hwf.take hslot.1, hread.take_of_ne hwf hslot nofun,
    hwrite.take_of_ne hwf hslot nofun⟩, hnext.take hwf hslot⟩

theorem Session.Tracked.take_other (h : s.Tracked r held) {u : ServerUser} (hslot : r.Holds slot u)
    (hrefers : u.refers = false) : s.Tracked (r.take slot) (slot :: held) := by
  have hne : ∀ v : ServerUser, v.refers = true → v ≠ u := by
    rintro v hv rfl
    rw [hrefers] at hv
    cases hv
  obtain ⟨⟨hwf, hread, hwrite⟩, hnext⟩ := h
  exact ⟨⟨hwf.take hslot.1, hread.take_of_ne hwf hslot (hne _ rfl),
    hwrite.take_of_ne hwf hslot (hne _ rfl)⟩, hnext.take_of_ne hwf hslot (hne _ rfl)⟩

theorem Session.Tracked.freeUser (h : s.Tracked r (slot :: held)) :
    s.Tracked (r.freeUser slot) held := by
  obtain ⟨⟨hwf, hread, hwrite⟩, hnext⟩ := h
  exact ⟨⟨hwf.freeUser, hread.freeUser hwf, hwrite.freeUser hwf⟩, hnext.freeUser hwf⟩

section Other

variable (op : Op) (n : ℕ) (id : Id)

theorem Session.Tracked.otherNext (h : s.Tracked r held) :
    s.Tracked (r.reactorNext (.other n)).2 held := by
  obtain ⟨⟨hwf, hread, hwrite⟩, hnext⟩ := h
  exact ⟨⟨hwf.reactorNext _, hread.reactorNext_other hwf _ nofun,
    hwrite.reactorNext_other hwf _ nofun⟩, hnext.reactorNext_other hwf _ nofun⟩

theorem Cleared.otherNext (h : Cleared r) (hwf : r.WellFormed held) :
    Cleared (r.reactorNext (.other n)).2 :=
  ⟨h.recv.reactorNext_other hwf _ nofun, h.send.reactorNext_other hwf _ nofun,
    h.next.reactorNext_other hwf _ nofun⟩

theorem Session.Tracked.otherSubmit (h : s.Tracked r held) :
    s.Tracked (r.submit op (.other n)).2 held := by
  obtain ⟨⟨hwf, hread, hwrite⟩, hnext⟩ := h
  exact ⟨⟨hwf.submit _ op, hread.submit_other hwf op _ nofun,
    hwrite.submit_other hwf op _ nofun⟩, hnext.submit_other hwf op _ nofun⟩

theorem Cleared.otherSubmit (h : Cleared r) (hwf : r.WellFormed held) :
    Cleared (r.submit op (.other n)).2 :=
  ⟨h.recv.submit_other hwf op _ nofun, h.send.submit_other hwf op _ nofun,
    h.next.submit_other hwf op _ nofun⟩

variable {id} (hid : ∀ u : ServerUser, u.refers = true → ¬r.Holds id.slot u)
include hid

theorem Session.Tracked.otherCancel (h : s.Tracked r held) :
    s.Tracked (r.reactorCancel .noop id (.other n)) held := by
  obtain ⟨⟨hwf, hread, hwrite⟩, hnext⟩ := h
  exact ⟨⟨hwf.reactorCancel _ _ id, hread.cancel_other hwf nofun nofun (hid _ rfl),
    hwrite.cancel_other hwf nofun nofun (hid _ rfl)⟩,
    hnext.cancel_other hwf nofun nofun (hid _ rfl)⟩

theorem Cleared.otherCancel (h : Cleared r) (hwf : r.WellFormed held) :
    Cleared (r.reactorCancel .noop id (.other n)) :=
  ⟨h.recv.cancel_other hwf nofun nofun (hid _ rfl),
    h.send.cancel_other hwf nofun nofun (hid _ rfl),
    h.next.cancel_other hwf nofun nofun (hid _ rfl)⟩

end Other

theorem Session.Tracked.streamUpdate (h : s.Tracked r held) {t : Stream}
    (hread : t.read = s.stream.read) (hwrite : t.write = s.stream.write) :
    { s with stream := (t.streamUpdate ServerUser.stream r).1 }.Tracked
      (t.streamUpdate ServerUser.stream r).2 held := by
  obtain ⟨⟨hwf, htread, htwrite⟩, hnext⟩ := h
  rw [← hread] at htread
  rw [← hwrite] at htwrite
  exact ⟨Stream.Tracked.streamUpdate ServerUser.distinct_stream ⟨hwf, htread, htwrite⟩,
    Stream.tracks_streamUpdate hwf ServerUser.apart_next hnext⟩

theorem Session.Tracked.flushReturn {c : Reading} {t : Stream} (h : s.Tracked r held)
    (hread : t.read = s.stream.read) (hwrite : t.write = s.stream.write) :
    { s with stream := (ServerWorld.flushReturn c t r).1 }.Tracked
      (ServerWorld.flushReturn c t r).2 held := by
  have hflushed :=
    h.streamUpdate (t := { t with outputFlushed := t.outputWaiting.size }) hread hwrite
  unfold ServerWorld.flushReturn
  dsimp only
  split_ifs
  · exact hflushed.streamUpdate (t := { (t.streamFlush ServerUser.stream r).1 with abort := false })
      rfl rfl
  · exact hflushed

end Reactor

namespace ServerWorld

variable {phr : Parser} {w w' : ServerWorld} {s : Session} {held : List ℕ}

structure TrackedIn (w : ServerWorld) (held : List ℕ) : Prop where
  untouched : w.touched = false
  alive : ∀ s, w.session = some s → s.Tracked w.reactor held
  freed : w.session = none → Cleared w.reactor

def Tracked (w : ServerWorld) : Prop := w.TrackedIn w.place.held

/-- No answer finds a `server_session_next` scheduled, and a response that is followed by
`server_disconnect` finds the stream open. -/
def Prompt (w : ServerWorld) : ServerLabel → Prop
  | .respond _ _ => ∀ s ∈ w.session, s.stream.isOpen = true → s.processing = true ∨ s.next = none
  | .respondDisconnect _ _ =>
    ∀ s ∈ w.session, s.stream.isOpen = true ∧ (s.processing = true ∨ s.next = none)
  | _ => True

instance (w : ServerWorld) (l : ServerLabel) : Decidable (w.Prompt l) := by
  cases l <;> unfold Prompt <;> infer_instance

theorem tracked_construct : construct.Tracked :=
  ⟨rfl, fun _ hnone => absurd hnone (Option.some_ne_none _).symm,
    fun _ => ⟨Reactor.tracks_construct, Reactor.tracks_construct, Reactor.tracks_construct⟩⟩

theorem Calls.holds {slot : ℕ} {u : ServerUser} (hcalls : w.Calls slot u) :
    w.reactor.Holds slot u := hcalls.2

theorem trackedIn_some (htouched : w.touched = false) (hs : w.session = some s)
    (h : s.Tracked w.reactor held) : w.TrackedIn held := by
  refine ⟨htouched, fun s' hs' => ?_, fun hnone => ?_⟩
  · obtain rfl := Option.some.inj (hs.symm.trans hs')
    exact h
  · exact absurd (hs.symm.trans hnone) (Option.some_ne_none s)

theorem trackedIn_none (htouched : w.touched = false) (h : Cleared w.reactor)
    (hs : w.session = none) : w.TrackedIn held :=
  ⟨htouched, fun s hs' => absurd (hs.symm.trans hs') (Option.some_ne_none s).symm, fun _ => h⟩

/-- A session that is closed, and freed if it was ready. -/
theorem trackedIn_serverSessionClose (htouched : w.touched = false)
    (h : s.Tracked w.reactor held) : (w.serverSessionClose s).TrackedIn held := by
  have hcleared := h.cleared
  have hwf := wellFormed_closeReactor (s := s) h.stream.wellFormed
  cases hready : s.ready with
  | true =>
    rw [serverSessionClose_ready hready]
    exact trackedIn_none htouched hcleared rfl
  | false =>
    obtain ⟨t, -, -, hread, hwrite, heq⟩ := serverSessionClose_busy (w := w) hready
    rw [heq]
    obtain ⟨hrecv, hsend, hnext⟩ := hcleared
    refine trackedIn_some htouched rfl ⟨⟨hwf, ?_, ?_⟩, hnext⟩
    · dsimp only
      rw [hread]
      exact hrecv
    · dsimp only
      rw [hwrite]
      exact hsend

theorem tracked_closeEvent {slot : ℕ} (hplace : w.place = .outside) (htouched : w.touched = false)
    (h : s.Tracked (w.reactor.take slot) [slot]) : (w.closeEvent slot s).Tracked := by
  have hclosed := trackedIn_serverSessionClose (w := { w with reactor := w.reactor.take slot })
    htouched h
  have hwf := wellFormed_serverSessionClose
    (w := { w with reactor := w.reactor.take slot }) (s := s)
    h.stream.wellFormed
  have hheld : (w.closeEvent slot s).place.held = [] := by
    refine (held_serverSessionClose (w := { w with reactor := w.reactor.take slot })).trans ?_
    rw [hplace]
    rfl
  unfold Tracked
  rw [hheld]
  exact ⟨hclosed.untouched, fun s' hs' => (hclosed.alive s' hs').freeUser,
    fun hs' => (hclosed.freed hs').freeUser hwf⟩

/-- A response that finds no `server_session_next` scheduled. -/
theorem trackedIn_serverRespond {d : Bytes} (htouched : w.touched = false)
    (h : s.Tracked w.reactor held)
    (hprompt : s.stream.isOpen = true → s.processing = true ∨ s.next = none) :
    (w.serverRespond d s).TrackedIn held := by
  cases hopen : s.stream.isOpen with
  | false =>
    rw [serverRespond_closed hopen]
    exact trackedIn_serverSessionClose htouched ⟨h.stream, h.next⟩
  | true =>
    cases hprocessing : s.processing with
    | true =>
      rw [serverRespond_processing hopen hprocessing]
      exact trackedIn_some htouched rfl
        ⟨⟨h.stream.wellFormed, h.stream.read, h.stream.write⟩, h.next⟩
    | false =>
      have hnone : s.next = none := by
        rcases hprompt hopen with hprompt | hprompt
        · rw [hprocessing] at hprompt
          cases hprompt
        · exact hprompt
      rw [serverRespond_deferred hopen hprocessing]
      have hflushed := h.streamUpdate (t := { s.stream.writeData d with
        outputFlushed := (s.stream.writeData d).outputWaiting.size }) rfl rfl
      obtain ⟨⟨hwf, hread, hwrite⟩, hnext⟩ := hflushed
      dsimp only at hnext
      rw [hnone] at hnext
      exact trackedIn_some htouched rfl ⟨⟨hwf.reactorNext _, hread.reactorNext_other hwf _ nofun,
        hwrite.reactorNext_other hwf _ nofun⟩, hnext.reactorNext hwf⟩

theorem Tracked.accept (h : w.Tracked) (hsteady : w.Steady) (hs : w.session = none) (fd : ℤ)
    (type : StreamType) : (w.serverCreateSession fd type).Tracked := by
  obtain ⟨hrecv, hsend, hnext⟩ := h.freed hs
  have hnew : Session.Tracked
      ⟨⟨.null, .null, none, []⟩, .construct, true, false, false, none⟩ w.reactor w.place.held :=
    ⟨⟨hsteady.wellFormed, hrecv, hsend⟩, hnext⟩
  exact trackedIn_some h.untouched rfl (hnew.streamUpdate
    (t := { Stream.construct with fd := fd, flags := 0, type := type }) rfl rfl)

theorem Tracked.send (h : w.Tracked) {slot : ℕ} (n : ℕ) (hcalls : w.Calls slot .send)
    (hs : w.session = some s) : Tracked { w with
      session := some { s with stream :=
        (s.stream.sendDone ServerUser.stream n (w.reactor.take slot)).1 }
      reactor :=
        (s.stream.sendDone ServerUser.stream n (w.reactor.take slot)).2.freeUser slot } := by
  have htracked := h.alive s hs
  rw [hcalls.1] at htracked
  have hupdated := (htracked.take_send hcalls.holds).streamUpdate
    (t := { s.stream with
      write := none
      outputOffset := s.stream.outputOffset + n
      outputPartial :=
        if s.stream.outputPartial + n = s.stream.outputWriting.size then 0
        else s.stream.outputPartial + n }) rfl rfl
  have hheld : w.place.held = [] := by
    rw [hcalls.1]
    rfl
  show TrackedIn _ w.place.held
  rw [hheld]
  exact trackedIn_some h.untouched rfl hupdated.freeUser

theorem Tracked.flush (h : w.Tracked) {c : Reading} {q : Request} {t : Stream}
    (hplace : w.place = .loop c) (hs : w.session = some s)
    (hframe : t = { s.stream with input := t.input, inputConsumed := t.inputConsumed }) :
    Tracked { w with
      session := some { s with request := q, stream := (flushReturn c t w.reactor).1 }
      reactor := (flushReturn c t w.reactor).2.freeUser c.slot
      place := .outside } := by
  have htracked := h.alive s hs
  rw [hplace] at htracked
  have hread : t.read = s.stream.read := by rw [hframe]
  have hwrite : t.write = s.stream.write := by rw [hframe]
  have hreturned := (htracked.flushReturn (c := c) hread hwrite).freeUser
  exact trackedIn_some h.untouched rfl ⟨hreturned.stream, hreturned.next⟩

/-- The step lemma. -/
theorem Tracked.step (hsteady : w.Steady) (h : w.Tracked) {l : ServerLabel} (hprompt : w.Prompt l)
    (hacts : Acts phr w l w') : w'.Tracked := by
  have hwf := hsteady.wellFormed
  have htouched := h.untouched
  cases hacts with
  | accept fd type hfree hs hfrees hfd => exact h.accept hsteady hs fd type
  | touch l hs huse =>
    have hcleared := h.freed hs
    cases l with
    | recv | recvEnd | send | next => exact absurd huse.2 (hcleared.not_holds rfl _)
    | accept | call | turn | leave | respond | disconnect | respondDisconnect | otherNext
    | otherSubmit | otherCancel => exact huse.elim
  | recv slot received s hcalls hne hs hlen =>
    have htracked := h.alive s hs
    rw [hcalls.1] at htracked
    have htake := htracked.take_recv hcalls.holds
    exact trackedIn_some htouched rfl
      ⟨⟨htake.stream.wellFormed, htake.stream.read, htake.stream.write⟩, htake.next⟩
  | recvEnd slot result s hcalls hs =>
    have htracked := h.alive s hs
    rw [hcalls.1] at htracked
    exact tracked_closeEvent hcalls.1 htouched (htracked.take_recv hcalls.holds)
  | sendError slot result s hcalls hs =>
    have htracked := h.alive s hs
    rw [hcalls.1] at htracked
    exact tracked_closeEvent hcalls.1 htouched (htracked.take_send hcalls.holds)
  | send slot result s hcalls hs => exact h.send result.toNat hcalls hs
  | next slot s hcalls hs =>
    have htracked := h.alive s hs
    rw [hcalls.1] at htracked
    exact trackedIn_some htouched rfl (htracked.take_next hcalls.holds)
  | user slot n hcalls =>
    rw [Tracked, hcalls.1] at h
    rw [hcalls.1] at hwf
    exact ⟨htouched, fun s hs => (h.alive s hs).take_other hcalls.holds rfl,
      fun hs => (h.freed hs).take hwf hcalls.holds⟩
  | drop slot u hcalls hrefers =>
    have hheld : w.place.held = [] := by
      rw [hcalls.1]
      rfl
    show TrackedIn _ w.place.held
    rw [Tracked, hheld] at h
    rw [hheld] at hwf ⊢
    exact ⟨htouched, fun s hs => ((h.alive s hs).take_other hcalls.holds hrefers).freeUser,
      fun hs => ((h.freed hs).take hwf hcalls.holds).freeUser (hcalls.take hsteady)⟩
  | reject c s q t hplace hs hready hcall =>
    have htracked := h.alive s hs
    rw [hplace] at htracked hwf
    have hframe := httpReadRequest_frame hcall
    have hclosed : Session.Tracked { s with request := q, stream := t } w.reactor [c.slot] := by
      rw [hframe]
      exact ⟨⟨hwf, htracked.stream.read, htracked.stream.write⟩, htracked.next⟩
    exact trackedIn_none htouched (hclosed.cleared.freeUser (wellFormed_closeReactor hwf)) rfl
  | flush c s q t hplace hs hcall =>
    refine h.flush hplace hs ?_
    rcases hcall with ⟨-, rfl⟩ | ⟨-, hcall⟩
    · rfl
    · exact httpReadRequest_frame hcall
  | request c s n q t hplace hs hready hn hn' hcall =>
    have htracked := h.alive s hs
    rw [hplace] at htracked hwf
    refine trackedIn_some htouched rfl ?_
    rw [httpReadRequest_frame hcall]
    exact ⟨⟨hwf, htracked.stream.read, htracked.stream.write⟩, htracked.next⟩
  | leave c s hplace hs =>
    have htracked := h.alive s hs
    rw [hplace] at htracked
    exact trackedIn_some htouched rfl ⟨htracked.stream, htracked.next⟩
  | abort c hplace hs =>
    rw [hplace] at hwf
    exact trackedIn_none htouched ((h.freed hs).freeUser hwf) hs
  | userLeave slot hplace =>
    rw [Tracked, hplace] at h
    rw [hplace] at hwf
    exact ⟨htouched, fun s hs => (h.alive s hs).freeUser, fun hs => (h.freed hs).freeUser hwf⟩
  | respond k d s hanswers hs =>
    show TrackedIn _ _
    rw [held_serverRespond]
    exact trackedIn_serverRespond htouched (h.alive s hs) (hprompt s hs)
  | disconnect k s hanswers hs =>
    have htracked := h.alive s hs
    show TrackedIn _ _
    rw [serverDisconnect, held_serverSessionClose]
    exact trackedIn_serverSessionClose htouched ⟨htracked.stream, htracked.next⟩
  | respondDisconnect k d s s' hanswers hs hs' =>
    have H := trackedIn_serverRespond (w := w.answer k (some d)) (d := d) htouched (h.alive s hs)
      (fun _ => (hprompt s hs).2)
    have htracked := H.alive s' hs'
    show TrackedIn _ _
    rw [serverDisconnect, held_serverSessionClose, held_serverRespond]
    exact trackedIn_serverSessionClose H.untouched ⟨htracked.stream, htracked.next⟩
  | respondTouch k d s hanswers hs hs' =>
    have hopen := (hprompt s hs).1
    exfalso
    cases hprocessing : s.processing with
    | true =>
      rw [serverRespond_processing hopen hprocessing] at hs'
      exact Option.some_ne_none _ hs'
    | false =>
      rw [serverRespond_deferred hopen hprocessing] at hs'
      exact Option.some_ne_none _ hs'
  | otherNext n hfree =>
    exact ⟨htouched, fun s hs => (h.alive s hs).otherNext n,
      fun hs => (h.freed hs).otherNext n hwf⟩
  | otherSubmit op n hfree =>
    exact ⟨htouched, fun s hs => (h.alive s hs).otherSubmit op n,
      fun hs => (h.freed hs).otherSubmit op n hwf⟩
  | otherCancel id n m hfree huser =>
    have hid : ∀ u : ServerUser, u.refers = true → ¬w.reactor.Holds id.slot u := by
      intro u hu hholds
      cases Option.some.inj (hholds.2.symm.trans huser)
      cases hu
    exact ⟨htouched, fun s hs => (h.alive s hs).otherCancel n hid,
      fun hs => (h.freed hs).otherCancel n hid hwf⟩

/-- The session is freed at most once, was not used afterwards, and no callback that is still to
come has it or its stream as its state once it is freed. -/
def Safe (w : ServerWorld) : Prop :=
  w.touched = false ∧ w.frees ≤ 1 ∧
    (w.session = none → ∀ slot u, w.reactor.Holds slot u → u.refers = false)

end ServerWorld

open ServerWorld in
/-- In every run whose answers are prompt the session's lifetime is safe. -/
theorem session_lifetime (phr : Parser) {w : ServerWorld}
    (h : Reach (ServerWorld.step phr) Prompt .construct w) : w.Safe := by
  obtain ⟨hsteady, htracked⟩ := h.invariant (I := fun w => w.Steady ∧ w.Tracked)
    ⟨steady_construct, tracked_construct⟩ fun w l w' H hprompt hstep =>
      have hacts := H.1.acts (act_of_step hstep).2
      ⟨H.1.step hacts, H.2.step H.1 hprompt hacts⟩
  refine ⟨htracked.untouched, ?_, fun hs slot u hholds => ?_⟩
  · cases hs : w.session with
    | none => exact (hsteady.freed hs).2.1
    | some s =>
      rw [(hsteady.alive s hs).2.1]
      exact Nat.zero_le 1
  · cases hrefers : u.refers with
    | false => rfl
    | true => exact absurd hholds ((htracked.freed hs).not_holds hrefers slot)

/-- A response that waits for another event, after which the peer closes. -/
theorem session_lifetime_deferred :
    ∃ w : ServerWorld, w.frees = 1 ∧ w.Safe := by
  have hrun : (exec (guarded (ServerWorld.step getParser) ServerWorld.Prompt) .construct
      [.accept 3 .socket, .recv 127 getHeader, .turn, .otherSubmit (.read 5 8 0) 0, .leave, .turn,
        .call 126, .respond 0 (str "ok"), .leave, .next 124, .turn, .recvEnd 125 0]).any
      (fun w => w.frees = 1) := by
    decide
  obtain ⟨w, hexec, hw⟩ := (Option.any_eq_true _ _).mp hrun
  exact ⟨w, of_decide_eq_true hw, session_lifetime getParser (.of_guarded hexec)⟩

/-- The peer closes before a response that is followed by `server_disconnect`. -/
theorem session_lifetime_peerClose :
    ¬∀ (phr : Parser) (w : ServerWorld),
      Reach (ServerWorld.step phr) (fun _ _ => True) .construct w → w.Safe := by
  intro hall
  have hrun : (exec (ServerWorld.step getParser) .construct
      [.accept 3 .socket, .recv 127 getHeader, .turn, .otherSubmit (.read 5 8 0) 0, .leave, .turn,
        .recvEnd 125 0, .call 126, .respondDisconnect 0 (str "ok")]).any
      (fun w => w.touched = true) := by
    decide
  obtain ⟨w, hexec, hw⟩ := (Option.any_eq_true _ _).mp hrun
  have hsafe := (hall getParser w (.of_exec (fun _ _ => trivial) hexec)).1
  rw [of_decide_eq_true hw] at hsafe
  cases hsafe

/-! Two responses also come before the first `server_session_next`: it reads a third request,
whose answer frees the session while the second `server_session_next` is scheduled. -/

example : (exec (ServerWorld.step getParser) .construct
    [.accept 3 .socket, .recv 127 getHeader, .turn, .otherSubmit (.read 5 8 0) 0,
      .otherSubmit (.read 6 8 0) 1, .leave, .turn, .call 126, .respond 0 (str "ok"), .leave,
      .recv 124 (getHeader ++ getHeader), .turn, .leave, .turn, .call 125, .respond 1 (str "ok"),
      .leave, .next 123, .turn, .disconnect 2, .leave, .next 124]).any
    (fun w => w.touched = true) := by
  decide

end LibReactor
