import LibReactor.Pipelining
import LibReactor.ReadAnswers
import LibReactor.ReadMessages

/-!
# Messages through the server

What a client writes reaches the handler message by message, and what the handler answers reaches
the client answer by answer, whatever the completions, the handler and the other users of the
reactor do in between.
-/

namespace LibReactor.Phr

open Framing Transition

section Frames

variable {sse : Bool} {ms : List Message} {p w : Bytes}

/-- What has been delivered of written messages, and what remains. -/
theorem delivered_written (hp : httpNext (headerParser sse) p = .incomplete)
    (hw : w = written ms ++ p) (hlen : w.length < 2 ^ 63) (hfit : Fits sse w) {offset : ℕ}
    {cs : List Contents} (h : Delivered (headerParser sse) w offset cs) :
    cs = (ms.take cs.length).map Message.contents ∧ cs.length ≤ ms.length ∧
      w.drop offset = written (ms.drop cs.length) ++ p := by
  obtain ⟨hreached, hframes⟩ := h.frames (prefixStable_headerParser sse) hlen
    fun b hb => (hfit b hb).2
  subst hw
  obtain ⟨ms', ⟨done, rfl⟩, hdrop⟩ := reached_written hp hlen hreached
  have hrest : Frames (httpNext (headerParser sse)) (written ms' ++ p)
      (ms'.map Message.contents) (.waiting p) := by
    refine frames_written hp ?_
    have hle := hreached.length_le
    rw [hdrop] at hle
    omega
  rw [← hdrop] at hrest
  obtain ⟨hcontents, -⟩ := (hframes _ _ hrest).unique (frames_written hp hlen)
  rw [List.map_append] at hcontents
  obtain rfl : cs = done.map Message.contents := List.append_cancel_right hcontents
  rw [List.length_map, List.take_left, List.drop_left, List.length_append]
  exact ⟨rfl, Nat.le_add_right _ _, hdrop⟩

end Frames

section Runs

variable {sse : Bool} {phr : Parser} {w w' : ServerWorld} {s : Session} {l : ServerLabel}

theorem input_serverSessionClose : (w.serverSessionClose s).input = w.input := by
  cases hready : s.ready with
  | true => rw [ServerWorld.serverSessionClose_ready hready]
  | false =>
    obtain ⟨t, -, -, -, -, heq⟩ := ServerWorld.serverSessionClose_busy (w := w) hready
    rw [heq]

theorem input_serverRespond {d : Bytes} : (w.serverRespond d s).input = w.input := by
  cases hopen : s.stream.isOpen with
  | false =>
    rw [ServerWorld.serverRespond_closed hopen]
    exact input_serverSessionClose
  | true =>
    cases hprocessing : s.processing with
    | true => rw [ServerWorld.serverRespond_processing hopen hprocessing]
    | false => rw [ServerWorld.serverRespond_deferred hopen hprocessing]

theorem input_answer {k : ℕ} {d : Option Bytes} : (w.answer k d).input = w.input := rfl

theorem input_closeEvent {slot : ℕ} : (w.closeEvent slot s).input = w.input :=
  (input_serverSessionClose (w := { w with reactor := w.reactor.take slot }) (s := s) :)

theorem input_acts (hacts : ServerWorld.Acts phr w l w') : ∃ y, w'.input = w.input ++ y := by
  have hsame : w'.input = w.input → ∃ y, w'.input = w.input ++ y :=
    fun h => ⟨[], h.trans (List.append_nil _).symm⟩
  cases hacts with
  | recv slot received => exact ⟨received, rfl⟩
  | recvEnd | sendError => exact hsame input_closeEvent
  | disconnect k s => exact hsame (input_serverSessionClose.trans input_answer)
  | respond k d s => exact hsame (input_serverRespond.trans input_answer)
  | respondTouch k d s =>
    have hrespond : ((w.answer k (some d)).serverRespond d s).input = w.input :=
      input_serverRespond.trans input_answer
    exact hsame hrespond
  | respondDisconnect k d s s' =>
    have hrespond : ((w.answer k (some d)).serverRespond d s).input = w.input :=
      input_serverRespond.trans input_answer
    exact hsame (input_serverSessionClose.trans hrespond)
  | _ => exact hsame rfl

/-- As long as the input fits, the calls follow `headerParser`. -/
theorem pipelined_step (hsteady : w.Steady)
    (h : Fits sse w.input → w.input.length < 2 ^ 63 → w.Pipelined (headerParser sse))
    (hcalls : Calls sse phr) (hacts : ServerWorld.Acts phr w l w') (hfit : Fits sse w'.input)
    (hlen : w'.input.length < 2 ^ 63) : w'.Pipelined (headerParser sse) := by
  obtain ⟨y, hy⟩ := input_acts hacts
  rw [hy] at hfit hlen
  have hfit' := hfit.of_append hlen
  rw [List.length_append] at hlen
  have hpipelined := h hfit' (by omega)
  refine hpipelined.step (fun s hs hopen => ?_) hsteady hacts
  obtain ⟨offset, -, hdelivered, hunread⟩ := (hpipelined.served s hs hopen).delivered
  have hreached := (hdelivered.frames (prefixStable_headerParser sse) (by omega)
    fun b hb => (hfit' b hb).2).1
  rw [← hunread] at hreached
  exact hcalls.follows (hfit' _ hreached).1

end Runs

open ServerWorld in
/-- In every run of the server, while the stream is open and a client has written the messages `ms`
and the part `p` of another: the requests delivered are the first ones of `ms` as they were written,
the others and `p` are unread; the responses are those to the first of them in order, at most the
last is outstanding; and between events, with a session that is ready, the next message has
`server_session_next` scheduled. -/
theorem session_messages (sse : Bool) {w : ServerWorld}
    (h : Reach ServerWorld.stepEach (fun _ l => Calls sse l.1) .construct w) {s : Session}
    (hs : w.session = some s) (hopen : s.stream.isOpen = true) {ms : List Message} {m : Message}
    {p x : Bytes} (hp : p ++ x = m.bytes) (hx : x ≠ [])
    (hlong : (written ms ++ m.bytes).length < 2 ^ 63) (hinput : w.input = written ms ++ p) :
    ∃ k ≤ ms.length, w.requests = (ms.take k).map Message.contents ∧
      s.stream.unread = written (ms.drop k) ++ p ∧
      k = w.responses.length + (if s.ready then 0 else 1) ∧
      w.responses.map Prod.fst = List.range w.responses.length ∧
      s.stream.outgoing <:+ (w.responses.map Prod.snd).flatten ∧
      (w.place.between = true → s.ready = true → k < ms.length →
        ∃ slot, w.reactor.Holds slot .next) := by
  obtain ⟨hsteady, hanswering, hpipelined⟩ := h.invariant
    (I := fun w => w.Steady ∧ w.Answering ∧
      (Fits sse w.input → w.input.length < 2 ^ 63 → w.Pipelined (headerParser sse)))
    ⟨steady_construct, answering_construct, fun _ _ => pipelined_construct⟩
    fun w l w' H hcalls hstep =>
      have hacts := H.1.acts (act_of_step hstep).2
      ⟨H.1.step hacts, H.2.1.step H.1 hacts, pipelined_step H.1 H.2.2 hcalls hacts⟩
  have hfit : Fits sse w.input := hinput ▸ fits_written hp hx hlong
  rw [← hp, List.length_append, List.length_append] at hlong
  have hpartial : httpNext (headerParser sse) p = .incomplete :=
    httpNext_partial sse hp hx (by rw [← hp, List.length_append]; omega)
  have hlen : w.input.length < 2 ^ 63 := by
    rw [hinput, List.length_append]
    omega
  have hpipelined := hpipelined hfit hlen
  have hserved := hpipelined.served s hs hopen
  have hreplied := hanswering.replied s hs hopen
  have hcount := (hsteady.alive s hs).2.2
  have hlength : w.answered.length = w.responses.length := by
    rw [← hreplied.tagged, List.length_map]
  obtain ⟨offset, -, hdelivered, hunread⟩ := hserved.delivered
  obtain ⟨hrequests, hle, hrest⟩ := delivered_written hpartial hinput hlen hfit hdelivered
  refine ⟨w.requests.length, hle, hrequests, hunread.trans hrest, ?_, ?_, hreplied.output,
    fun hbetween hready hmore => ?_⟩
  · rw [← hlength]
    exact hcount
  · rw [hreplied.tagged, ← hlength]
    exact hsteady.answered
  · refine (hpipelined.idle s hs hopen hbetween).scheduled hready ?_
    rw [hunread, hrest, List.drop_eq_getElem_cons hmore, written_cons]
    refine ⟨_, _, httpNext_message sse _ _ ?_⟩
    rw [← written_cons, ← List.drop_eq_getElem_cons hmore, ← hrest, List.length_drop]
    omega

theorem reach_lineParser {w : ServerWorld}
    (h : Reach (ServerWorld.step lineParser) (fun _ _ => True) .construct w) :
    Reach ServerWorld.stepEach (fun _ l => Calls true l.1) .construct w := by
  induction h with
  | init => exact .init
  | @step w w' l _ _ hstep ih => exact .step (l := (lineParser, l)) ih calls_lineParser hstep

/-- Two messages and a part of a third come at once, and the first is answered late. -/
theorem session_messages_two : ∃ (w : ServerWorld) (s : Session) (slot : ℕ),
    w.session = some s ∧ w.requests = [getMessage.contents] ∧
      s.stream.unread = postMessage.bytes ++ str "PO" ∧ w.reactor.Holds slot .next := by
  have hrun : (exec (ServerWorld.step lineParser) .construct
      [.accept 3 .socket, .recv 127 (written [getMessage, postMessage] ++ str "PO"), .turn,
        .otherSubmit (.read 5 8 0) 0, .leave, .turn, .call 126, .respond 0 (str "ok")]).any
      (fun w => w.requests.length = 1 ∧ w.place.between = true ∧
        w.input = written [getMessage, postMessage] ++ str "PO" ∧
        w.session.any (fun s => s.ready = true ∧ s.stream.isOpen = true)) := by
    decide
  obtain ⟨w, hexec, hw⟩ := (Option.any_eq_true _ _).mp hrun
  obtain ⟨hone, hbetween, hinput, hsession⟩ := of_decide_eq_true hw
  obtain ⟨s, hs, hdecide⟩ := (Option.any_eq_true _ _).mp hsession
  obtain ⟨hready, hopen⟩ := of_decide_eq_true hdecide
  obtain ⟨k, hk, hrequests, hunread, -, -, -, hnext⟩ := session_messages true
    (reach_lineParser (.of_exec (fun _ _ => trivial) hexec)) hs hopen (m := postMessage)
    (x := postMessage.bytes.drop 2) (by decide) (by decide) (by decide) hinput
  obtain rfl : k = 1 := by
    have hlength := congrArg List.length hrequests
    rw [hone, List.length_map, List.length_take] at hlength
    simp only [List.length_cons, List.length_nil] at hk hlength
    omega
  obtain ⟨slot, hslot⟩ := hnext hbetween hready (by decide)
  refine ⟨w, s, slot, hs, hrequests, ?_, hslot⟩
  rw [hunread]
  decide

/-! ## The way back -/

section Answers

variable {room : ℕ} {as : List Answer}

theorem flatten_writes {rs : List (ℕ × Bytes)} (h : List.Forall₂ (fun r a => a.Writes r.2) rs as)
    (has : ∀ a ∈ as, a.Fits room) : (rs.map Prod.snd).flatten = answersText as := by
  induction h with
  | nil => rfl
  | @cons r a rs as hwrites _ ih =>
    have htext := hwrites.eq_text (has a List.mem_cons_self)
    have hcons : answersText (a :: as) = a.text ++ answersText as := List.flatMap_cons
    rw [List.map_cons, List.flatten_cons, htext, hcons,
      ih fun a' ha' => has a' (List.mem_cons_of_mem a ha')]

open ServerWorld in
/-- In every run of the server, whatever its request parser makes of the input, whose responses are
what `http_write_response` writes for the answers `as`, while the stream is open: the answers are
those to the first requests in order, the output still held is the end of what was written, and
whatever part of this a client has received reads as the first answers and a part of the next, of
which nothing is left once all has been received. -/
theorem session_answers {w : ServerWorld}
    (h : Reach ServerWorld.stepEach (fun _ _ => True) .construct w) {s : Session}
    (hs : w.session = some s) (hopen : s.stream.isOpen = true) (has : ∀ a ∈ as, a.Fits room)
    (hanswers : List.Forall₂ (fun r a => a.Writes r.2) w.responses as) (sse : Bool)
    (behind : Bytes → Bytes) (hbehind : ∀ b, (behind b).all (fun c => c == space) = false) :
    w.responses.map Prod.fst = List.range as.length ∧ as.length ≤ w.requests.length ∧
      s.stream.outgoing <:+ (w.responses.map Prod.snd).flatten ∧
      ∀ b y, b ++ y = (w.responses.map Prod.snd).flatten → ∃ k ≤ as.length, ∃ q,
        Frames (replyNext sse room behind) b ((as.take k).map Answer.contents) (.waiting q) ∧
          (y = [] → k = as.length ∧ q = []) := by
  obtain ⟨hsteady, hanswering⟩ := h.invariant (I := fun w => w.Steady ∧ w.Answering)
    ⟨steady_construct, answering_construct⟩ fun w l w' H _ hstep =>
      have hacts := H.1.acts (act_of_step hstep).2
      ⟨H.1.step hacts, H.2.step H.1 hacts⟩
  have hreplied := hanswering.replied s hs hopen
  have hcount := (hsteady.alive s hs).2.2
  have hlength : w.answered.length = as.length := by
    rw [← hreplied.tagged, List.length_map, hanswers.length_eq]
  refine ⟨?_, ?_, hreplied.output, fun b y hb => ?_⟩
  · rw [hreplied.tagged, ← hlength]
    exact hsteady.answered
  · rw [← hlength]
    omega
  · rw [flatten_writes hanswers has] at hb
    obtain ⟨k, hk, q, rfl, hnext, hend⟩ := exists_arrived sse hbehind has hb
    exact ⟨k, hk, q, frames_answers sse (fun a ha => has a (List.mem_of_mem_take ha)) hnext, hend⟩

end Answers

theorem writes_helloAnswer : helloAnswer.Writes helloAnswer.text := by
  obtain ⟨p, hcall⟩ := helloAnswer.httpWriteResponse_text (fun _ => 0) (fun _ => 0) .construct
    (by decide +kernel)
  exact ⟨_, _, .construct, _, p, Nat.two_pow_pos 62, hcall, Buffer.data_append ..⟩

/-- A response is given in the handler, and a client has received it. -/
theorem session_answers_hello : ∃ (w : ServerWorld) (s : Session), w.session = some s ∧
    s.stream.outgoing <:+ helloAnswer.text ∧
      Frames (replyNext true 16 fun _ => [nul]) helloAnswer.text [helloAnswer.contents]
        (.waiting []) := by
  have hrun : (exec (ServerWorld.step lineParser) .construct
      [.accept 3 .socket, .recv 127 (written [getMessage] ++ str "PO"), .turn,
        .respond 0 helloAnswer.text, .leave, .turn]).any
      (fun w => w.responses = [(0, helloAnswer.text)] ∧
        w.session.any (fun s => s.stream.isOpen = true)) := by
    decide +kernel
  obtain ⟨w, hexec, hw⟩ := (Option.any_eq_true _ _).mp hrun
  obtain ⟨hresponses, hsession⟩ := of_decide_eq_true hw
  obtain ⟨s, hs, hdecide⟩ := (Option.any_eq_true _ _).mp hsession
  have hfits : ∀ a ∈ [helloAnswer], a.Fits 16 := by
    intro a ha
    rw [List.mem_singleton.mp ha]
    exact ⟨by decide, by decide +kernel⟩
  have hwrites : List.Forall₂ (fun r a => Answer.Writes a r.2) w.responses [helloAnswer] := by
    rw [hresponses]
    exact .cons writes_helloAnswer .nil
  have htext : (w.responses.map Prod.snd).flatten = helloAnswer.text := by
    rw [hresponses]
    exact List.append_nil _
  obtain ⟨-, -, houtgoing, hread⟩ := session_answers
    ((reach_lineParser (.of_exec (fun _ _ => trivial) hexec)).mono fun _ _ _ => trivial) hs
    (of_decide_eq_true hdecide) hfits hwrites true (fun _ => [nul]) fun _ => rfl
  rw [htext] at houtgoing hread
  obtain ⟨k, -, q, hframes, hend⟩ := hread helloAnswer.text [] (List.append_nil _)
  obtain ⟨rfl, rfl⟩ := hend rfl
  exact ⟨w, s, hs, houtgoing, hframes⟩

end LibReactor.Phr
