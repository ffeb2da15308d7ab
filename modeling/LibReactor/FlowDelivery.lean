import LibReactor.FlowSteps

/-!
# Signing off

A consumer counts the producers that have signed off and closes at the last one. Where each
node exits once, outside of its calls of `flow_send` and after all of them, and no message is
`NULL`, the elements in the queue of a node are streams with one marker each, at the end, so
that the last marker a consumer sees is the last element of the queue.
-/

namespace LibReactor

/-! ## Messages -/

namespace FlowState

def sends (i : ℕ) (s : FlowState) : List Bytes :=
  s.messages.filterMap fun
    | .send i' message => if i' = i then some message else none
    | _ => none

/-- Those of them that were pushed on the queued edges, in this order. -/
def sent (i : ℕ) (s : FlowState) : List Bytes :=
  s.messages.filterMap fun
    | .sent i' message => if i' = i then some message else none
    | _ => none

/-- The messages that `receive` of a node was called with for elements of its queue. -/
def received (j : ℕ) (s : FlowState) : List Bytes :=
  s.messages.filterMap fun
    | .receive j' message none => if j' = j then some message else none
    | _ => none

end FlowState

def FlowInbox.batch (b : FlowInbox) : List Bytes := b.queue.held 0

namespace FlowGraph

open Transition

variable {G : FlowGraph} {s s' : FlowState} {l : FlowLabel} {j : ℕ} {b : FlowInbox}

def pending (i : ℕ) (fs : List FlowFrame) : List Bytes :=
  fs.filterMap fun
    | .send i' message _ => if i' = i then some message else none
    | _ => none

def exitsOnce (G : FlowGraph) (s : FlowState) : FlowLabel → Bool
  | .exit i => G.queuedEdges i = [] ∨ s.exited i = false
  | _ => true

def sendsBefore (G : FlowGraph) (s : FlowState) : FlowLabel → Bool
  | .send i _ => G.queuedEdges i = [] ∨ s.exited i = false
  | _ => true

def exitsOutside (G : FlowGraph) (s : FlowState) : FlowLabel → Bool
  | .exit i => G.queuedEdges i = [] ∨ pending i (s.stack (G.group i)) = []
  | _ => true

def sendsValues (G : FlowGraph) (s : FlowState) : FlowLabel → Bool
  | .next g =>
    match s.stack g with
    | .send i message [] :: _ => G.queuedEdges i = [] ∨ message ≠ nullMessage
    | _ => true
  | _ => true

/-- The messages that `flow_node_consumer` of a node has passed on are, for each queued edge to the
node, what the source has pushed there, in this order, and this is what `flow_send` of the source
was called with; `receive` has been called with each of them. -/
def ReceivesAll (G : FlowGraph) (s : FlowState) (j : ℕ) : Prop :=
  ∃ received : List (ℕ × Bytes),
    received.map Prod.snd = (s.inbox j).handled.filter (· ≠ nullMessage) ∧
    ((G.table j).receive = true → s.received j = received.map Prod.snd) ∧
    (∀ x ∈ received, x.1 ∈ G.sourceEdges j) ∧
    ∀ k ∈ G.sourceEdges j, part k received = s.sent (G.source k) ∧
      (part k received).Perm (s.sends (G.source k))

/-! ## Calls in progress -/

theorem pending_setStack (s : FlowState) (i g g' : ℕ) (fs : List FlowFrame) :
    pending i ((s.setStack g fs).stack g') =
      if g' = g then pending i fs else pending i (s.stack g') := by
  have hstack : (s.setStack g fs).stack g' = if g' = g then fs else s.stack g' :=
    Function.update_apply ..
  rw [hstack]
  split_ifs <;> rfl

theorem pending_same {g : ℕ} {fs : List FlowFrame}
    (h : ∀ i, pending i fs = pending i (s.stack g)) (i g' : ℕ) :
    pending i ((s.setStack g fs).stack g') = pending i (s.stack g') := by
  rw [pending_setStack]
  split_ifs with hg
  · rw [hg, h]
  · rfl

theorem pending_pushFrame (s : FlowState) (g : ℕ) {f : FlowFrame}
    (hf : ∀ i message ks, f ≠ .send i message ks) (i g' : ℕ) :
    pending i ((s.pushFrame g f).stack g') = pending i (s.stack g') := by
  refine pending_same (fun i => ?_) i g'
  cases f with
  | send i' message ks => exact absurd rfl (hf i' message ks)
  | _ => rfl

/-- Each call of `flow_send` has pushed its message or is in progress, in the thread of the
node, and none is in progress after `flow_exit`. -/
structure Sending (G : FlowGraph) (s : FlowState) : Prop where
  calls : ∀ i, (s.sends i).Perm (s.sent i ++ pending i (s.stack (G.group i)))
  placed : ∀ i g, g ≠ G.group i → pending i (s.stack g) = []
  exited : ∀ i, G.queuedEdges i ≠ [] → s.exited i = true → pending i (s.stack (G.group i)) = []

theorem sending_initial (G : FlowGraph) : G.Sending G.initial :=
  ⟨fun _ => .refl _, fun _ _ _ => rfl, fun _ _ hexited => by cases hexited⟩

theorem Sending.same (h : G.Sending s) (hsends : ∀ i, s'.sends i = s.sends i)
    (hsent : ∀ i, s'.sent i = s.sent i)
    (hpending : ∀ i g, pending i (s'.stack g) = pending i (s.stack g))
    (hexited : s'.exited = s.exited) : G.Sending s' where
  calls i := by
    rw [hsends, hsent, hpending]
    exact h.calls i
  placed i g hg := (hpending i g).trans (h.placed i g hg)
  exited i hqueued hi := (hpending i _).trans (h.exited i hqueued (hexited ▸ hi))

theorem Sending.setStack (h : G.Sending s) {g : ℕ} {fs : List FlowFrame}
    (hfs : ∀ i, pending i fs = pending i (s.stack g)) : G.Sending (s.setStack g fs) :=
  h.same (fun _ => rfl) (fun _ => rfl) (pending_same hfs) rfl

theorem Sending.enter (h : G.Sending s) {g : ℕ} {f : FlowFrame}
    (hf : ∀ i message ks, f ≠ .send i message ks) : G.Sending (s.pushFrame g f) :=
  h.same (fun _ => rfl) (fun _ => rfl) (pending_pushFrame s g hf) rfl

theorem Sending.leave (h : G.Sending s) {g : ℕ} {f : FlowFrame} {rest : List FlowFrame}
    (hstack : s.stack g = f :: rest) (hf : ∀ i message ks, f ≠ .send i message ks) :
    G.Sending (s.setStack g rest) := by
  refine h.setStack fun i => ?_
  rw [hstack]
  cases f with
  | send i' message ks => exact absurd rfl (hf i' message ks)
  | _ => rfl

theorem sends_append {ms : List FlowMessage} (h : s'.messages = s.messages ++ ms)
    (hms : ∀ m ∈ ms, ∃ i message edge, m = .receive i message edge) (i : ℕ) :
    s'.sends i = s.sends i ∧ s'.sent i = s.sent i := by
  unfold FlowState.sends FlowState.sent
  rw [h, List.filterMap_append, List.filterMap_append]
  constructor <;>
    refine (congrArg _ (List.filterMap_eq_nil_iff.mpr fun m hm => ?_)).trans (List.append_nil _) <;>
    obtain ⟨i', message, edge, rfl⟩ := hms m hm <;> rfl

theorem Sending.flowNodeReceive (h : G.Sending s) (i : ℕ) (message : Bytes) (edge : Option ℕ) :
    G.Sending (G.flowNodeReceive i message edge s) := by
  have hmessages := sends_append (G.flowNodeReceive_messages i message edge s) (by
    intro m hm
    split_ifs at hm
    · exact ⟨i, message, edge, List.mem_singleton.mp hm⟩
    · cases hm)
  refine h.same (fun i' => (hmessages i').1) (fun i' => (hmessages i').2) (fun i' g => ?_)
    (flowNodeReceive_same i message edge s).2.1
  unfold LibReactor.FlowGraph.flowNodeReceive
  split_ifs
  · exact pending_pushFrame s (G.group i) (by simp) i' g
  · rfl

theorem Sending.flowNodeStop (h : G.Sending s) (i : ℕ) : G.Sending (G.flowNodeStop i s) := by
  obtain ⟨-, hexited, -, hmessages⟩ := G.flowNodeStop_same i s
  refine h.same (fun i' => ?_) (fun i' => ?_) (fun i' g => ?_) hexited
  · rw [FlowState.sends, hmessages]
    rfl
  · rw [FlowState.sent, hmessages]
    rfl
  · unfold LibReactor.FlowGraph.flowNodeStop
    split_ifs
    · rfl
    · exact pending_pushFrame s (G.group i) (by simp) i' g
    · rfl

theorem Turn.pending_eq {g : ℕ} {rest : List FlowFrame} {q : Queue}
    (h : G.Turn s l g j rest q) (i : ℕ) : pending i rest = pending i (s.stack g) := by
  cases h with
  | read hj hidle hopened hq =>
    rw [(of_decide_eq_true hidle).2]
  | next hstack hclosed hq =>
    rw [hstack]
    rfl

theorem pending_innermost {g i : ℕ} {message : Bytes} {ks : List ℕ} {rest : List FlowFrame}
    (hstack : s.stack g = .send i message ks :: rest) (i' : ℕ) :
    pending i' (s.stack g) = (if i = i' then [message] else []) ++ pending i' rest := by
  rw [hstack]
  by_cases hi : i = i' <;> simp [pending, hi]

theorem messages_note_send (s : FlowState) (i : ℕ) (message : Bytes) (i' : ℕ) :
    (s.note (.send i message)).sends i' = s.sends i' ++ (if i = i' then [message] else []) ∧
      (s.note (.send i message)).sent i' = s.sent i' := by
  by_cases hi : i = i' <;> simp [FlowState.sends, FlowState.sent, FlowState.note, hi]

theorem messages_note_sent (s : FlowState) (i : ℕ) (message : Bytes) (i' : ℕ) :
    (s.note (.sent i message)).sends i' = s.sends i' ∧
      (s.note (.sent i message)).sent i' = s.sent i' ++ if i = i' then [message] else [] := by
  by_cases hi : i = i' <;> simp [FlowState.sends, FlowState.sent, FlowState.note, hi]

theorem Sending.send (h : G.Sending s) {i : ℕ} {message : Bytes}
    (hbefore : G.queuedEdges i = [] ∨ s.exited i = false) :
    G.Sending ((s.note (.send i message)).pushFrame (G.group i)
      (.send i message (G.directEdges i))) := by
  have hpending : ∀ i' g, pending i' (((s.note (.send i message)).pushFrame (G.group i)
      (.send i message (G.directEdges i))).stack g) =
      if g = G.group i then (if i = i' then [message] else []) ++ pending i' (s.stack g)
      else pending i' (s.stack g) := by
    intro i' g
    refine (pending_setStack (s.note (.send i message)) i' (G.group i) g _).trans ?_
    split_ifs with hg hi
    · rw [hg, hi]
      simp [pending, FlowState.note]
    · rw [hg]
      simp [pending, FlowState.note, hi]
    · rfl
  refine ⟨fun i' => ?_, fun i' g hg => ?_, fun i' hqueued hexited => ?_⟩
  · have hmessages := messages_note_send s i message i'
    have hcalls : (s.sends i' ++ if i = i' then [message] else []).Perm
        (s.sent i' ++ if G.group i' = G.group i then
          (if i = i' then [message] else []) ++ pending i' (s.stack (G.group i'))
          else pending i' (s.stack (G.group i'))) := by
      by_cases hi : i = i'
      · rw [hi, if_pos rfl, if_pos rfl]
        refine ((h.calls i').append_right [message]).trans ?_
        rw [List.append_assoc]
        exact List.perm_append_comm.append_left _
      · rw [if_neg hi, List.append_nil, List.nil_append, ite_self]
        exact h.calls i'
    rw [hpending]
    exact (List.Perm.of_eq hmessages.1).trans
      (hcalls.trans (.append_right _ (.of_eq hmessages.2.symm)))
  · rw [hpending, h.placed i' g hg]
    split_ifs with hgroup hi
    · exact absurd (hi ▸ hgroup) hg
    · rfl
    · rfl
  · have hne : i ≠ i' := by
      rintro rfl
      rcases hbefore with hnil | hrunning
      · exact hqueued hnil
      · exact absurd (hrunning.symm.trans hexited) Bool.false_ne_true
    rw [hpending, h.exited i' hqueued hexited, if_neg hne]
    split_ifs <;> rfl

/-- A call of `flow_send` comes to the queued edges. -/
theorem Sending.push (h : G.Sending s) {g i : ℕ} {message : Bytes} {rest : List FlowFrame}
    (hstack : s.stack g = .send i message [] :: rest) :
    G.Sending ((s.note (.sent i message)).setStack g rest) := by
  have hinnermost := pending_innermost hstack
  have hgroup : g = G.group i := by
    by_contra hg
    have hnil := h.placed i g hg
    rw [hinnermost, if_pos rfl] at hnil
    cases hnil
  subst hgroup
  have hpending : ∀ i' g, pending i' (((s.note (.sent i message)).setStack (G.group i) rest).stack
      g) = if g = G.group i then pending i' rest else pending i' (s.stack g) :=
    fun i' g => pending_setStack (s.note (.sent i message)) i' (G.group i) g rest
  have hrest : ∀ i', pending i' (s.stack (G.group i)) = [] → pending i' rest = [] := by
    intro i' hnil
    rw [hinnermost] at hnil
    exact (List.append_eq_nil_iff.mp hnil).2
  refine ⟨fun i' => ?_, fun i' g hg => ?_, fun i' hqueued hexited => ?_⟩
  · have hmessages := messages_note_sent s i message i'
    have hcalls : (s.sends i').Perm ((s.sent i' ++ if i = i' then [message] else []) ++
        if G.group i' = G.group i then pending i' rest
          else pending i' (s.stack (G.group i'))) := by
      refine (h.calls i').trans (.of_eq ?_)
      split_ifs with hi hg hg
      · rw [hg, hinnermost, if_pos hi, List.append_assoc]
      · exact absurd (hi ▸ rfl) hg
      · rw [hg, hinnermost, if_neg hi, List.nil_append, List.append_nil]
      · rw [List.append_nil]
    rw [hpending]
    exact (List.Perm.of_eq hmessages.1).trans
      (hcalls.trans (.append_right _ (.of_eq hmessages.2.symm)))
  · rw [hpending]
    split_ifs with hgroup
    · exact hrest i' (h.placed i' (G.group i) (hgroup ▸ hg))
    · exact h.placed i' g hg
  · rw [hpending]
    split_ifs with hgroup
    · exact hrest i' (hgroup ▸ h.exited i' hqueued hexited)
    · exact h.exited i' hqueued hexited

/-- `flow_exit` is called outside of the calls of `flow_send`. -/
theorem Sending.exit (h : G.Sending s) {i : ℕ} {inbox : ℕ → FlowInbox}
    (houtside : G.queuedEdges i = [] ∨ pending i (s.stack (G.group i)) = []) :
    G.Sending { s with inbox := inbox, exited := Function.update s.exited i true } := by
  refine ⟨h.calls, h.placed, fun i' hqueued hexited => ?_⟩
  by_cases hi : i' = i
  · subst hi
    exact houtside.resolve_left hqueued
  · refine h.exited i' hqueued (Eq.trans ?_ hexited)
    exact (Function.update_of_ne hi ..).symm

/-- The step lemma for the calls of `flow_send` -/
theorem Sending.step (h : G.Sending s) (hbefore : G.sendsBefore s l = true)
    (houtside : G.exitsOutside s l = true) (hstep : G.step s l = some s') : G.Sending s' := by
  have hsame : ∀ {s' : FlowState}, s'.messages = s.messages → s'.exited = s.exited →
      (∀ i g, pending i (s'.stack g) = pending i (s.stack g)) → G.Sending s' := by
    intro s' hmessages hexited hpending
    refine h.same (fun i => ?_) (fun i => ?_) hpending hexited
    · rw [FlowState.sends, hmessages]
      rfl
    · rw [FlowState.sent, hmessages]
      rfl
  cases step_cases hstep with
  | create hi hphase hstack hopened hb =>
    exact hsame rfl rfl (pending_pushFrame s _ (by simp))
  | event hidle => exact h.enter (by simp)
  | created hstack =>
    refine hsame rfl rfl fun i g' => pending_same (s := s) (fun i => ?_) i g'
    rw [hstack]
    rfl
  | returned hstack hf =>
    refine h.leave hstack fun i message ks => ?_
    rcases hf with ⟨i', rfl⟩ | ⟨i', rfl⟩ | rfl <;> simp
  | send hcallable hmessage => exact h.send (by simpa [sendsBefore] using hbefore)
  | exit hcallable hopened hpushed =>
    exact (h.exit (by simpa [exitsOutside] using houtside)).flowNodeStop _
  | call hstack =>
    refine (h.setStack fun i => ?_).flowNodeReceive _ _ _
    rw [hstack]
    rfl
  | push hstack hopened hpushed =>
    exact (h.push hstack).same (fun _ => rfl) (fun _ => rfl) (fun _ _ => rfl) rfl
  | abort hstack hclosed => exact h.leave hstack (by simp)
  | message hturn hpopped hmessage =>
    refine Sending.flowNodeReceive ?_ _ _ _
    exact hsame rfl rfl (pending_same hturn.pending_eq)
  | signOff hturn hpopped => exact hsame rfl rfl (pending_same hturn.pending_eq)
  | finish hturn hpopped => exact hsame rfl rfl (pending_same hturn.pending_eq)
  | stop hi hphase hstack => exact h.flowNodeStop _
  | start | enterLoop | exitFailed | pushFailed | readFailed | leaveLoop | fill | queue =>
    exact hsame rfl rfl fun _ _ => rfl

/-! ## The consumer of a node -/

structure Counts (G : FlowGraph) (j : ℕ) (b : FlowInbox) : Prop where
  reach : Reach Queue.step Queue.SoleReader (Queue.opened pointerSize fun _ => 256) b.queue
  edges : ∀ k, k ∉ G.sourceEdges j → b.queue.pushed k = []
  sources : b.consumerSources + b.handled.count nullMessage = (G.sourceEdges j).length
  unopened : b.consumer = .unopened → (b.queue.consumer 0).loop = none
  opened : b.consumer = .opened → b.consumerSources ≠ 0
  closed : b.consumer = .closed → b.consumerSources = 0

theorem Counts.readBy (h : G.Counts j b) : b.queue.ReadBy pointerSize fun _ => 256 :=
  Queue.readBy_of_reach (by decide) h.reach

theorem Counts.setQueue (h : G.Counts j b) {q : Queue}
    (hreach : Reach Queue.step Queue.SoleReader b.queue q) (hpopped : q.popped = b.queue.popped)
    (hloop : (q.consumer 0).loop = (b.queue.consumer 0).loop)
    (hedges : ∀ k, k ∉ G.sourceEdges j → q.pushed k = []) :
    G.Counts j { b with queue := q } where
  reach := h.reach.trans hreach
  edges := hedges
  sources := by
    rw [FlowInbox.handled, hpopped]
    exact h.sources
  unopened hunopened := hloop.trans (h.unopened hunopened)
  opened := h.opened
  closed := h.closed

theorem Counts.queueStep (h : G.Counts j b) {l : QueueLabel} {q : Queue}
    (hq : b.queue.step l = some q) (hsole : b.queue.SoleReader l) (hpush : ∀ k d, l ≠ .push k d)
    (hdeliver : ∀ i, l ≠ .deliver i) (hnext : ∀ i, l ≠ .next i) :
    G.Counts j { b with queue := q } := by
  obtain ⟨hpopped, hloop⟩ := Queue.popped_step hdeliver hnext hq
  refine h.setQueue (.step .init hsole hq) hpopped (hloop 0) fun k hk => ?_
  rw [(Queue.step_same hq).2 hpush]
  exact h.edges k hk

theorem Counts.openConsumer (h : G.Counts j b) (hunopened : b.consumer = .unopened)
    {b' : FlowInbox} (hb : b.openConsumer = some b') : G.Counts j b' := by
  rcases openConsumer_cases hb with ⟨-, rfl⟩ | ⟨hsources, q, hq, rfl⟩
  · exact h
  · have hcounts := h.queueStep hq (h.unopened hunopened) (by simp) (by simp) (by simp)
    exact { hcounts with
      unopened := fun hnot => by cases hnot
      opened := fun _ => hsources
      closed := fun hnot => by cases hnot }

theorem Counts.fill (h : G.Counts j b) {n : ℕ} {q : Queue} (hn : 0 < n) (hdvd : pointerSize ∣ n)
    (hq : b.queue.step (.fill 0 n) = some q) : G.Counts j { b with queue := q } := by
  have hsize : b.queue.elementSize = pointerSize := h.readBy.configured.elementSize
  refine h.queueStep hq ⟨rfl, hn, ?_⟩ (by simp) (by simp) (by simp)
  rw [hsize]
  exact hdvd

/-- The node is given its next element, or the loop ends. -/
theorem Turn.spec {g : ℕ} {rest : List FlowFrame} {q : Queue} (hturn : G.Turn s l g j rest q)
    (h : G.Counts j (s.inbox j)) : (s.inbox j).consumer = .opened ∧
      Reach Queue.step Queue.SoleReader (s.inbox j).queue q ∧
      q.pushed = (s.inbox j).queue.pushed := by
  cases hturn with
  | read hj hidle hopened hq =>
    exact ⟨hopened, .step (l := .deliver 0) .init trivial hq, (Queue.step_same hq).2 (by simp)⟩
  | next hstack hclosed hq =>
    refine ⟨?_, .step (l := .next 0) .init trivial hq, (Queue.step_same hq).2 (by simp)⟩
    obtain ⟨offset, result, hloop, -⟩ := Queue.step_next hq
    cases hconsumer : (s.inbox j).consumer with
    | opened => rfl
    | closed => exact absurd hconsumer hclosed
    | unopened =>
      rw [h.unopened hconsumer] at hloop
      cases hloop

theorem Counts.turn (h : G.Counts j b) (hopened : b.consumer = .opened) {q : Queue}
    (hreach : Reach Queue.step Queue.SoleReader b.queue q)
    (hpushed : q.pushed = b.queue.pushed)
    (hhandled : (q.popped 0).count nullMessage = b.handled.count nullMessage) :
    G.Counts j { b with queue := q } where
  reach := h.reach.trans hreach
  edges k hk := by
    rw [hpushed]
    exact h.edges k hk
  sources := (congrArg (b.consumerSources + ·) hhandled).trans h.sources
  unopened hnot := by
    rw [hopened] at hnot
    cases hnot
  opened := h.opened
  closed := h.closed

/-- A source signs off, and the last one closes the consumer. -/
theorem Counts.signOff (h : G.Counts j b) (hopened : b.consumer = .opened) {q : Queue}
    (hreach : Reach Queue.step Queue.SoleReader b.queue q)
    (hpushed : q.pushed = b.queue.pushed) (hpopped : q.popped 0 = b.handled ++ [nullMessage]) :
    G.Counts j ({ b with queue := q } : FlowInbox).signOff := by
  have hpos : b.consumerSources ≠ 0 := h.opened hopened
  have hedges : ∀ k, k ∉ G.sourceEdges j → q.pushed k = [] := by
    rw [hpushed]
    exact h.edges
  have hsources : b.consumerSources - 1 + (q.popped 0).count nullMessage =
      (G.sourceEdges j).length := by
    rw [hpopped, List.count_append, List.count_singleton_self]
    have hall := h.sources
    omega
  unfold FlowInbox.signOff
  dsimp only
  split_ifs with hlast
  · exact ⟨h.reach.trans hreach, hedges, hsources, nofun, nofun, fun _ => hlast⟩
  · refine ⟨h.reach.trans hreach, hedges, hsources, ?_, fun _ => hlast, ?_⟩
    · intro hnot
      rw [hopened] at hnot
      cases hnot
    · intro hnot
      rw [hopened] at hnot
      cases hnot

/-- The elements that have been pushed are streams, and the markers have been counted. -/
theorem Counts.complete (h : G.Counts j b) (hclosed : b.consumer = .closed)
    (hmarked : ∀ k, Marked nullMessage (b.queue.pushed k)) :
    b.batch = [] ∧ ∃ drawn : List (ℕ × Bytes), drawn.map Prod.snd = b.handled ∧
      (∀ x ∈ drawn, x.1 ∈ G.sourceEdges j) ∧
      ∀ k ∈ G.sourceEdges j, part k drawn = b.queue.pushed k ∧ nullMessage ∈ b.queue.pushed k := by
  obtain ⟨drawn, hdrawn, htaken⟩ := h.readBy.drawn
  obtain ⟨front, rest, rfl, hfront, hrest⟩ := List.map_eq_append_iff.mp htaken
  have hK : ∀ k, k ∉ (G.sourceEdges j).toFinset → b.queue.pushed k = [] :=
    fun k hk => h.edges k fun hmem => hk (List.mem_toFinset.mpr hmem)
  have hcard : (G.sourceEdges j).toFinset.card = (G.sourceEdges j).length :=
    List.toFinset_card_of_nodup (List.nodup_range.filter _)
  have hcount : (front.map Prod.snd).count nullMessage = (G.sourceEdges j).toFinset.card := by
    have hsources := h.sources
    rw [h.closed hclosed, Nat.zero_add] at hsources
    rw [hfront, hcard]
    exact hsources
  obtain ⟨hnil, hall⟩ := hdrawn.complete hmarked hK hcount
  refine ⟨?_, front, hfront, fun x hx => ?_, fun k hk => hall k (List.mem_toFinset.mpr hk)⟩
  · rw [FlowInbox.batch, ← hrest, hnil, List.map_nil]
  · exact List.mem_toFinset.mp (hdrawn.left.mem_index hK hx)

theorem counts_initial (G : FlowGraph) (j : ℕ) : G.Counts j (G.initial.inbox j) where
  reach := .init
  edges _ _ := rfl
  sources := rfl
  unopened _ := rfl
  opened := nofun
  closed := nofun

theorem openConsumer_same {b' : FlowInbox} (hb : b.openConsumer = some b') :
    b'.queue.pushed = b.queue.pushed ∧ b'.handled = b.handled := by
  rcases openConsumer_cases hb with ⟨-, rfl⟩ | ⟨-, q, hq, rfl⟩
  · exact ⟨rfl, rfl⟩
  · refine ⟨(Queue.step_same hq).2 (by simp), ?_⟩
    exact congrFun (Queue.popped_step (by simp) (by simp) hq).1 0

theorem signOff_same (b : FlowInbox) : b.signOff.queue = b.queue ∧
    (b.signOff.consumer = .opened → b.consumer = .opened) := by
  unfold FlowInbox.signOff
  dsimp only
  split_ifs
  · exact ⟨rfl, nofun⟩
  · exact ⟨rfl, id⟩

/-- The steps of a queue that come by themselves push nothing and give nothing to the consumer. -/
theorem asynchronous_cases (h : G.Counts j (s.inbox j)) {l : QueueLabel}
    (hl : G.asynchronous j s l = true) : (s.inbox j).queue.SoleReader l ∧
      (∀ k d, l ≠ .push k d) ∧ (∀ i, l ≠ .deliver i) ∧ ∀ i, l ≠ .next i := by
  cases l with
  | accept k n =>
    have hsize : (s.inbox j).queue.elementSize = pointerSize :=
      h.readBy.configured.elementSize
    have hdvd : pointerSize ∣ n := of_decide_eq_true hl
    rw [← hsize] at hdvd
    exact ⟨hdvd, by simp, by simp, by simp⟩
  | wrote k => exact ⟨trivial, by simp, by simp, by simp⟩
  | writeInterrupted k => exact ⟨trivial, by simp, by simp, by simp⟩
  | readInterrupted i => exact ⟨trivial, by simp, by simp, by simp⟩
  | push | pop | fill | deliver | next => cases hl

/-! ## The queues of all nodes -/

variable {inbox inbox' : ℕ → FlowInbox} {exited : ℕ → Bool}

theorem Pushed.counts {i : ℕ} {message : Bytes} (h : ∀ j, G.Counts j (inbox j))
    (hpushed : G.Pushed (G.queuedEdges i) message inbox inbox') (j : ℕ) :
    G.Counts j (inbox' j) := by
  rw [hpushed.same j]
  refine (h j).setQueue (hpushed.reach j) (hpushed.popped j) ?_ fun k hk => ?_
  · rw [hpushed.consumer j]
  · have hnone : ¬(k ∈ G.queuedEdges i ∧ G.target k = j) := by
      rintro ⟨hmem, htarget⟩
      obtain ⟨hlt, -, hdirect⟩ := mem_queuedEdges.mp hmem
      exact hk (mem_sourceEdges.mpr ⟨hlt, htarget, hdirect⟩)
    rw [hpushed.pushed, (h j).edges k hk, if_neg hnone]
    rfl

structure Counted (G : FlowGraph) (s : FlowState) : Prop where
  counts : ∀ j, G.Counts j (s.inbox j)
  unopened : ∀ j, (s.node j).opened = false → (s.inbox j).consumer = .unopened

inductive InboxCase (G : FlowGraph) (s : FlowState) (l : FlowLabel) (s' : FlowState) : Prop
  | change (j : ℕ) (b : FlowInbox) (hcounts : G.Counts j b)
      (hpushed : b.queue.pushed = (s.inbox j).queue.pushed)
      (hinbox : s'.inbox = Function.update s.inbox j b) (hexited : s'.exited = s.exited)
      (hsent : ∀ i, s'.sent i = s.sent i)
  | send (g i : ℕ) (message : Bytes) (rest : List FlowFrame) (hl : l = .next g)
      (hstack : s.stack g = .send i message [] :: rest)
      (hpushed : G.Pushed (G.queuedEdges i) message s.inbox s'.inbox)
      (hexited : s'.exited = s.exited)
      (hsent : ∀ i', s'.sent i' = s.sent i' ++ if i = i' then [message] else [])
  | exit (i : ℕ) (hl : l = .exit i)
      (hpushed : G.Pushed (G.queuedEdges i) nullMessage s.inbox s'.inbox)
      (hexited : s'.exited = Function.update s.exited i true)
      (hsent : ∀ i', s'.sent i' = s.sent i')

theorem sent_flowNodeReceive (s : FlowState) (j : ℕ) (message : Bytes) (edge : Option ℕ)
    (i : ℕ) : (G.flowNodeReceive j message edge s).sent i = s.sent i := by
  refine (sends_append (G.flowNodeReceive_messages j message edge s) ?_ i).2
  intro m hm
  split_ifs at hm
  · exact ⟨j, message, edge, List.mem_singleton.mp hm⟩
  · cases hm

theorem sent_flowNodeStop (s : FlowState) (j i : ℕ) :
    (G.flowNodeStop j s).sent i = s.sent i := by
  rw [FlowState.sent, (flowNodeStop_same j s).2.2.2]
  rfl

theorem inbox_cases (h : G.Counted s) (hstep : G.step s l = some s') : G.InboxCase s l s' := by
  have hsame : s'.inbox = s.inbox → s'.exited = s.exited → (∀ i, s'.sent i = s.sent i) →
      G.InboxCase s l s' := by
    intro hinbox hexited hsent
    refine .change 0 (s.inbox 0) (h.counts 0) rfl ?_ hexited hsent
    rw [hinbox, Function.update_eq_self]
  cases step_cases hstep with
  | @create i b hi hphase hstack hopened hb =>
    exact .change _ _ ((h.counts i).openConsumer (h.unopened i hopened) hb)
      (openConsumer_same hb).1 rfl rfl fun _ => rfl
  | @start i b hi hphase hstack hopened hb =>
    exact .change _ _ ((h.counts i).openConsumer (h.unopened i hopened) hb)
      (openConsumer_same hb).1 rfl rfl fun _ => rfl
  | send hcallable hmessage =>
    exact hsame rfl rfl fun i' => (messages_note_send s _ _ i').2
  | exit hcallable hopened hpushed =>
    refine .exit _ rfl ?_ (flowNodeStop_same _ _).2.1 (sent_flowNodeStop _ _)
    rw [(flowNodeStop_same _ _).1]
    exact hpushed
  | call hstack =>
    exact hsame (flowNodeReceive_same _ _ _ _).1 (flowNodeReceive_same _ _ _ _).2.1
      (sent_flowNodeReceive _ _ _ _)
  | push hstack hopened hpushed =>
    exact .send _ _ _ _ rfl hstack hpushed rfl fun i' => (messages_note_sent s _ _ i').2
  | @message l g j rest q message hturn hpopped hmessage =>
    obtain ⟨hopened, hreach, hpushed⟩ := hturn.spec (h.counts j)
    refine .change _ _ ((h.counts j).turn hopened hreach hpushed ?_) hpushed
      (flowNodeReceive_same _ _ _ _).1 (flowNodeReceive_same _ _ _ _).2.1
      (sent_flowNodeReceive _ _ _ _)
    rw [hpopped, List.count_append, List.count_singleton]
    simp [hmessage]
  | @signOff l g j rest q hturn hpopped =>
    obtain ⟨hopened, hreach, hpushed⟩ := hturn.spec (h.counts j)
    refine .change _ _ ((h.counts j).signOff hopened hreach hpushed hpopped) ?_ rfl rfl fun _ => rfl
    rw [(signOff_same _).1]
    exact hpushed
  | @finish l g j rest q hturn hpopped =>
    obtain ⟨hopened, hreach, hpushed⟩ := hturn.spec (h.counts j)
    exact .change _ _ ((h.counts j).turn hopened hreach hpushed (by rw [hpopped])) hpushed rfl rfl
      fun _ => rfl
  | stop hi hphase hstack =>
    exact hsame (flowNodeStop_same _ _).1 (flowNodeStop_same _ _).2.1 (sent_flowNodeStop _ _)
  | @fill j n q hopened hn hdvd hq =>
    exact .change _ _ ((h.counts j).fill hn hdvd hq) ((Queue.step_same hq).2 (by simp)) rfl rfl
      fun _ => rfl
  | @queue j l q hl hq =>
    obtain ⟨hsole, hpush, hdeliver, hnext⟩ := asynchronous_cases (h.counts j) hl
    exact .change _ _ ((h.counts j).queueStep hq hsole hpush hdeliver hnext)
      ((Queue.step_same hq).2 hpush) rfl rfl fun _ => rfl
  | enterLoop | event | created | returned | exitFailed | pushFailed | abort | readFailed
  | leaveLoop => exact hsame rfl rfl fun _ => rfl

theorem node_setNode {i i' : ℕ} {n : FlowNode} :
    (s.setNode i n).node i' = if i' = i then n else s.node i' :=
  Function.update_apply ..

theorem opened_flowNodeReceive (i : ℕ) (message : Bytes) (edge : Option ℕ) (s : FlowState)
    (i' : ℕ) : ((G.flowNodeReceive i message edge s).node i').opened = (s.node i').opened := by
  unfold flowNodeReceive
  split_ifs
  · change ((s.setNode i _).node i').opened = _
    rw [node_setNode]
    split_ifs with hi
    · rw [hi]
    · rfl
  · rfl

theorem opened_flowNodeStop (i : ℕ) (s : FlowState) (i' : ℕ) :
    ((G.flowNodeStop i s).node i').opened = (s.node i').opened := by
  have hset : ((s.setNode i { s.node i with started := false }).node i').opened =
      (s.node i').opened := by
    rw [node_setNode]
    split_ifs with hi
    · rw [hi]
    · rfl
  unfold flowNodeStop
  split_ifs
  · rfl
  · exact hset
  · exact hset

theorem Counted.unopened_step (h : G.Counted s) (hstep : G.step s l = some s') (j : ℕ)
    (hj : (s'.node j).opened = false) : (s'.inbox j).consumer = .unopened := by
  have hkeep : (s'.node j).opened = (s.node j).opened →
      (s'.inbox j).consumer = (s.inbox j).consumer → (s'.inbox j).consumer = .unopened :=
    fun hopened hconsumer => hconsumer.trans (h.unopened j (hopened.symm.trans hj))
  have hupdate : ∀ {i : ℕ} {b : FlowInbox}, (j = i → b.consumer = (s.inbox i).consumer) →
      (Function.update s.inbox i b j).consumer = (s.inbox j).consumer := by
    intro i b hb
    rw [Function.update_apply]
    split_ifs with hi
    · rw [hb hi, hi]
    · rfl
  have hstart : ∀ {i : ℕ} {n : FlowNode}, n.opened = true →
      s'.node = Function.update s.node i n → j ≠ i ∧ (s'.node j).opened = (s.node j).opened := by
    intro i n hn hnode
    by_cases hi : j = i
    · rw [hnode, hi, Function.update_self, hn] at hj
      cases hj
    · exact ⟨hi, by rw [hnode, Function.update_of_ne hi]⟩
  cases step_cases hstep with
  | create hi hphase hstack hopened hb =>
    obtain ⟨hne, hnode⟩ := hstart rfl rfl
    exact hkeep hnode (hupdate fun hi => absurd hi hne)
  | start hi hphase hstack hopened hb =>
    obtain ⟨hne, hnode⟩ := hstart rfl rfl
    exact hkeep hnode (hupdate fun hi => absurd hi hne)
  | @created g i rest hstack =>
    refine hkeep ?_ rfl
    change ((s.setNode i { s.node i with started := true }).node j).opened = _
    rw [node_setNode]
    split_ifs with hi
    · rw [hi]
    · rfl
  | exit hcallable hopened hpushed =>
    refine hkeep (opened_flowNodeStop _ _ j) ?_
    rw [(flowNodeStop_same _ _).1]
    exact (congrArg FlowInbox.consumer (hpushed.same j)).trans rfl
  | call hstack =>
    refine hkeep (opened_flowNodeReceive _ _ _ _ j) ?_
    rw [(flowNodeReceive_same _ _ _ _).1]
    rfl
  | push hstack hopened hpushed =>
    exact hkeep rfl ((congrArg FlowInbox.consumer (hpushed.same j)).trans rfl)
  | message hturn hpopped hmessage =>
    refine hkeep (opened_flowNodeReceive _ _ _ _ j) ?_
    rw [(flowNodeReceive_same _ _ _ _).1]
    exact hupdate fun _ => rfl
  | @signOff l g j' rest q hturn hpopped =>
    have hopened := (hturn.spec (h.counts j')).1
    refine hkeep rfl (hupdate fun hi => ?_)
    rw [← hi, h.unopened j hj] at hopened
    cases hopened
  | finish hturn hpopped => exact hkeep rfl (hupdate fun _ => rfl)
  | stop hi hphase hstack =>
    refine hkeep (opened_flowNodeStop _ _ j) ?_
    rw [(flowNodeStop_same _ _).1]
  | fill hopened hn hdvd hq => exact hkeep rfl (hupdate fun _ => rfl)
  | queue hl hq => exact hkeep rfl (hupdate fun _ => rfl)
  | enterLoop | event | returned | send | exitFailed | pushFailed | abort | readFailed
  | leaveLoop => exact hkeep rfl rfl

/-- The step lemma for the consumers -/
theorem Counted.step (h : G.Counted s) (hstep : G.step s l = some s') : G.Counted s' := by
  refine ⟨fun j => ?_, h.unopened_step hstep⟩
  cases inbox_cases h hstep with
  | change j' b hcounts _ hinbox _ _ =>
    rw [hinbox, Function.update_apply]
    split_ifs with hj
    · exact hj ▸ hcounts
    · exact h.counts j
  | send _ _ _ _ _ _ hpushed _ _ => exact hpushed.counts h.counts j
  | exit _ _ hpushed _ _ => exact hpushed.counts h.counts j

theorem counted_initial (G : FlowGraph) : G.Counted G.initial :=
  ⟨counts_initial G, fun _ _ => rfl⟩

/-! ## The queued edges -/

def Signed (exited : Bool) (sent pushed : List Bytes) : Prop :=
  nullMessage ∉ sent ∧ pushed = sent ++ if exited then [nullMessage] else []

theorem Signed.marked {exited : Bool} {sent pushed : List Bytes} (h : Signed exited sent pushed) :
    Marked nullMessage pushed := by
  obtain ⟨hsent, rfl⟩ := h
  cases exited with
  | true => exact .concat hsent
  | false => exact .of_not_mem (by simpa using hsent)

theorem Signed.send {sent pushed : List Bytes} (h : Signed false sent pushed) {message : Bytes}
    (hmessage : message ≠ nullMessage) :
    Signed false (sent ++ [message]) (pushed ++ [message]) := by
  obtain ⟨hsent, rfl⟩ := h
  refine ⟨fun hmem => ?_, by simp⟩
  rcases List.mem_append.mp hmem with hmem | hmem
  · exact hsent hmem
  · exact hmessage (List.mem_singleton.mp hmem).symm

theorem Signed.exit {sent pushed : List Bytes} (h : Signed false sent pushed) :
    Signed true sent (pushed ++ [nullMessage]) := by
  obtain ⟨hsent, rfl⟩ := h
  exact ⟨hsent, by simp⟩

def Signs (G : FlowGraph) (s : FlowState) : Prop :=
  ∀ k < G.edges, G.direct k = false →
    Signed (s.exited (G.source k)) (s.sent (G.source k)) ((s.inbox (G.target k)).queue.pushed k)

theorem Signs.send (h : G.Signs s) {i : ℕ} {message : Bytes}
    (hpushed : G.Pushed (G.queuedEdges i) message s.inbox s'.inbox)
    (hexited : s'.exited = s.exited)
    (hsent : ∀ i', s'.sent i' = s.sent i' ++ if i = i' then [message] else [])
    (hrunning : G.queuedEdges i = [] ∨ s.exited i = false)
    (hmessage : G.queuedEdges i = [] ∨ message ≠ nullMessage) : G.Signs s' := by
  intro k hk hdirect
  have hsigned := h k hk hdirect
  rw [hpushed.pushed, hexited, hsent]
  by_cases hsource : i = G.source k
  · have hmem : k ∈ G.queuedEdges i := mem_queuedEdges.mpr ⟨hk, hsource.symm, hdirect⟩
    have hne : G.queuedEdges i ≠ [] := List.ne_nil_of_mem hmem
    rw [← hsource, hrunning.resolve_left hne] at hsigned ⊢
    rw [if_pos rfl, if_pos ⟨hmem, rfl⟩]
    exact hsigned.send (hmessage.resolve_left hne)
  · have hnone : ¬(k ∈ G.queuedEdges i ∧ G.target k = G.target k) :=
      fun hmem => hsource (mem_queuedEdges.mp hmem.1).2.1.symm
    rw [if_neg hnone, if_neg hsource, List.append_nil, List.append_nil]
    exact hsigned

theorem Signs.exit (h : G.Signs s) {i : ℕ}
    (hpushed : G.Pushed (G.queuedEdges i) nullMessage s.inbox s'.inbox)
    (hexited : s'.exited = Function.update s.exited i true)
    (hsent : ∀ i', s'.sent i' = s.sent i')
    (hrunning : G.queuedEdges i = [] ∨ s.exited i = false) : G.Signs s' := by
  intro k hk hdirect
  have hsigned := h k hk hdirect
  rw [hpushed.pushed, hexited, hsent, Function.update_apply]
  by_cases hsource : G.source k = i
  · have hmem : k ∈ G.queuedEdges i := mem_queuedEdges.mpr ⟨hk, hsource, hdirect⟩
    rw [hsource, hrunning.resolve_left (List.ne_nil_of_mem hmem)] at hsigned
    rw [if_pos hsource, if_pos ⟨hmem, rfl⟩, hsource]
    exact hsigned.exit
  · have hnone : ¬(k ∈ G.queuedEdges i ∧ G.target k = G.target k) :=
      fun hmem => hsource (mem_queuedEdges.mp hmem.1).2.1
    rw [if_neg hsource, if_neg hnone, List.append_nil]
    exact hsigned

/-- A call of `flow_send` that comes to the queued edges is of a node that has not exited. -/
theorem Sending.running (h : G.Sending s) {g i : ℕ} {message : Bytes} {ks : List ℕ}
    {rest : List FlowFrame} (hstack : s.stack g = .send i message ks :: rest) :
    G.queuedEdges i = [] ∨ s.exited i = false := by
  have hpending := pending_innermost hstack i
  rw [if_pos rfl] at hpending
  have hgroup : g = G.group i := by
    by_contra hg
    rw [h.placed i g hg] at hpending
    cases hpending
  by_cases hqueued : G.queuedEdges i = []
  · exact .inl hqueued
  · refine .inr (Bool.eq_false_of_not_eq_true fun hexited => ?_)
    rw [hgroup, h.exited i hqueued hexited] at hpending
    cases hpending

/-- The step lemma for the edges -/
theorem Signs.step (h : G.Signs s) (hcounted : G.Counted s) (hsending : G.Sending s)
    (honce : G.exitsOnce s l = true) (hvalues : G.sendsValues s l = true)
    (hstep : G.step s l = some s') : G.Signs s' := by
  cases inbox_cases hcounted hstep with
  | change j b _ hpushed hinbox hexited hsent =>
    intro k hk hdirect
    have hsigned := h k hk hdirect
    rw [hexited, hsent, hinbox, Function.update_apply]
    split_ifs with hj
    · rw [hpushed, ← hj]
      exact hsigned
    · exact hsigned
  | send g i message rest hl hstack hpushed hexited hsent =>
    subst hl
    refine h.send hpushed hexited hsent (hsending.running hstack) ?_
    simpa [sendsValues, hstack] using hvalues
  | exit i hl hpushed hexited hsent =>
    subst hl
    exact h.exit hpushed hexited hsent (by simpa [exitsOnce] using honce)

/-! ## Calls of `receive` -/

theorem received_flowNodeReceive (s : FlowState) (i : ℕ) (message : Bytes) (edge : Option ℕ)
    (j : ℕ) : (G.flowNodeReceive i message edge s).received j = s.received j ++
      if (G.table i).receive = true ∧ edge = none ∧ i = j then [message] else [] := by
  rw [FlowState.received, flowNodeReceive_messages, List.filterMap_append]
  refine congrArg (s.received j ++ ·) ?_
  cases (G.table i).receive with
  | false => simp
  | true =>
    cases edge with
    | none => by_cases hi : i = j <;> simp [hi]
    | some k => simp

def Heard (G : FlowGraph) (s : FlowState) : Prop :=
  ∀ j, (G.table j).receive = true →
    s.received j = (s.inbox j).handled.filter (· ≠ nullMessage)

theorem Heard.same (h : G.Heard s) (hreceived : ∀ j, s'.received j = s.received j)
    (hhandled : ∀ j, (s'.inbox j).handled.filter (· ≠ nullMessage) =
      (s.inbox j).handled.filter (· ≠ nullMessage)) : G.Heard s' := by
  intro j hreceive
  rw [hreceived, hhandled]
  exact h j hreceive

theorem handled_setInbox {b : FlowInbox}
    (hb : b.handled.filter (· ≠ nullMessage) = (s.inbox j).handled.filter (· ≠ nullMessage))
    (j' : ℕ) : ((s.setInbox j b).inbox j').handled.filter (· ≠ nullMessage) =
      (s.inbox j').handled.filter (· ≠ nullMessage) := by
  have hinbox : (s.setInbox j b).inbox j' = if j' = j then b else s.inbox j' :=
    Function.update_apply ..
  rw [hinbox]
  split_ifs with hj
  · rw [hj, hb]
  · rfl

theorem Pushed.handled {ks : List ℕ} {message : Bytes} (h : G.Pushed ks message inbox inbox')
    (j : ℕ) : (inbox' j).handled = (inbox j).handled :=
  congrFun (h.popped j) 0

/-- The step lemma for the calls of `receive` -/
theorem Heard.step (h : G.Heard s) (hcounted : G.Counted s) (hstep : G.step s l = some s') :
    G.Heard s' := by
  cases step_cases hstep with
  | create hi hphase hstack hopened hb =>
    exact h.same (fun _ => rfl) (handled_setInbox (by rw [(openConsumer_same hb).2]))
  | start hi hphase hstack hopened hb =>
    exact h.same (fun _ => rfl) (handled_setInbox (by rw [(openConsumer_same hb).2]))
  | send hcallable hmessage =>
    refine h.same (fun j => ?_) fun _ => rfl
    simp [FlowState.received, FlowState.pushFrame, FlowState.setStack, FlowState.note]
  | exit hcallable hopened hpushed =>
    refine h.same (fun j => ?_) fun j => ?_
    · rw [FlowState.received, (flowNodeStop_same _ _).2.2.2]
      rfl
    · rw [(flowNodeStop_same _ _).1]
      exact congrArg (List.filter _) (hpushed.handled j)
  | call hstack =>
    refine h.same (fun j => ?_) fun j => ?_
    · rw [received_flowNodeReceive, if_neg (by simp), List.append_nil]
      rfl
    · rw [(flowNodeReceive_same _ _ _ _).1]
      rfl
  | push hstack hopened hpushed =>
    refine h.same (fun j => ?_) fun j => congrArg (List.filter _) (hpushed.handled j)
    simp [FlowState.received, FlowState.setStack, FlowState.note]
  | @message l g j rest q message hturn hpopped hmessage =>
    intro j' hreceive
    have hreceived := h j' hreceive
    have hinbox : (s.setInbox j { s.inbox j with queue := q }).inbox j' =
        if j' = j then { s.inbox j with queue := q } else s.inbox j' := Function.update_apply ..
    rw [received_flowNodeReceive, (flowNodeReceive_same _ _ _ _).1]
    refine (congrArg (· ++ _) hreceived).trans (Eq.trans ?_
      (congrArg (fun b => b.handled.filter (· ≠ nullMessage)) hinbox.symm))
    by_cases hj : j' = j
    · subst hj
      rw [if_pos ⟨hreceive, rfl, rfl⟩, if_pos rfl, FlowInbox.handled, FlowInbox.handled, hpopped,
        List.filter_append]
      simp [hmessage, FlowInbox.handled]
    · rw [if_neg (fun hmem => hj hmem.2.2.symm), if_neg hj, List.append_nil]
  | @signOff l g j rest q hturn hpopped =>
    refine h.same (fun _ => rfl) (handled_setInbox ?_)
    rw [FlowInbox.handled, (signOff_same _).1, hpopped, List.filter_append]
    simp
  | finish hturn hpopped =>
    exact h.same (fun _ => rfl) (handled_setInbox (congrArg (List.filter _) hpopped))
  | stop hi hphase hstack =>
    refine h.same (fun j => ?_) fun j => ?_
    · rw [FlowState.received, (flowNodeStop_same _ _).2.2.2]
      rfl
    · rw [(flowNodeStop_same _ _).1]
  | fill hopened hn hdvd hq =>
    refine h.same (fun _ => rfl) (handled_setInbox (congrArg (List.filter _) ?_))
    exact congrFun (Queue.popped_step (by simp) (by simp) hq).1 0
  | @queue j l q hl hq =>
    obtain ⟨-, -, hdeliver, hnext⟩ := asynchronous_cases (hcounted.counts j) hl
    refine h.same (fun _ => rfl) (handled_setInbox (congrArg (List.filter _) ?_))
    exact congrFun (Queue.popped_step hdeliver hnext hq).1 0
  | enterLoop | event | created | returned | exitFailed | pushFailed | abort | readFailed
  | leaveLoop => exact h.same (fun _ => rfl) fun _ => rfl

/-! ## Runs -/

theorem part_filter_ne {k : ℕ} {drawn : List (ℕ × Bytes)} {messages : List Bytes}
    (hmessages : nullMessage ∉ messages) (hpart : part k drawn = messages ++ [nullMessage]) :
    part k (drawn.filter fun x => x.2 ≠ nullMessage) = messages := by
  have hcomm : part k (drawn.filter fun x => x.2 ≠ nullMessage) =
      (part k drawn).filter (· ≠ nullMessage) := by
    rw [part, part, List.filter_map, List.filter_comm]
    rfl
  rw [hcomm, hpart, List.filter_append]
  have hall : messages.filter (· ≠ nullMessage) = messages :=
    List.filter_eq_self.mpr fun m hm => decide_eq_true fun heq => hmessages (heq ▸ hm)
  rw [hall]
  simp

structure Flowing (G : FlowGraph) (s : FlowState) : Prop where
  counted : G.Counted s
  sending : G.Sending s
  signs : G.Signs s
  heard : G.Heard s

theorem flowing_initial (G : FlowGraph) : G.Flowing G.initial :=
  ⟨counted_initial G, sending_initial G, fun _ _ _ => ⟨List.not_mem_nil, rfl⟩, fun _ _ => rfl⟩

theorem Flowing.receivesAll (h : G.Flowing s) (hclosed : (s.inbox j).consumer = .closed) :
    G.ReceivesAll s j ∧ (s.inbox j).batch = [] ∧
      ∀ k ∈ G.sourceEdges j, s.exited (G.source k) = true := by
  have hcounts := h.counted.counts j
  have hsigned : ∀ k ∈ G.sourceEdges j, Signed (s.exited (G.source k)) (s.sent (G.source k))
      ((s.inbox j).queue.pushed k) := by
    intro k hk
    obtain ⟨hlt, rfl, hdirect⟩ := mem_sourceEdges.mp hk
    exact h.signs k hlt hdirect
  have hmarked : ∀ k, Marked nullMessage ((s.inbox j).queue.pushed k) := by
    intro k
    by_cases hk : k ∈ G.sourceEdges j
    · exact (hsigned k hk).marked
    · rw [hcounts.edges k hk]
      exact .of_not_mem List.not_mem_nil
  obtain ⟨hbatch, drawn, hhandled, hindex, hall⟩ := hcounts.complete hclosed hmarked
  have hexited : ∀ k ∈ G.sourceEdges j, s.exited (G.source k) = true := by
    intro k hk
    obtain ⟨hsent, hpushed⟩ := hsigned k hk
    refine Bool.eq_true_of_not_eq_false fun hrunning => ?_
    have hmem := (hall k hk).2
    rw [hpushed, hrunning] at hmem
    exact absurd hmem (by simpa using hsent)
  have hpart : ∀ k ∈ G.sourceEdges j,
      part k (drawn.filter fun x => x.2 ≠ nullMessage) = s.sent (G.source k) := by
    intro k hk
    obtain ⟨hsent, hpushed⟩ := hsigned k hk
    rw [hexited k hk, if_pos rfl] at hpushed
    exact part_filter_ne hsent ((hall k hk).1.trans hpushed)
  have hmap : (drawn.filter fun x => x.2 ≠ nullMessage).map Prod.snd =
      (s.inbox j).handled.filter (· ≠ nullMessage) := by
    rw [← hhandled, List.filter_map]
    rfl
  refine ⟨⟨drawn.filter fun x => x.2 ≠ nullMessage, hmap, fun hreceive => ?_, fun x hx => ?_,
    fun k hk => ⟨hpart k hk, ?_⟩⟩, hbatch, hexited⟩
  · rw [h.heard j hreceive, hmap]
  · exact hindex x (List.mem_of_mem_filter hx)
  · obtain ⟨hlt, -, hdirect⟩ := mem_sourceEdges.mp hk
    have hqueued : G.queuedEdges (G.source k) ≠ [] :=
      List.ne_nil_of_mem (mem_queuedEdges.mpr ⟨hlt, rfl, hdirect⟩)
    have hcalls := h.sending.calls (G.source k)
    rw [h.sending.exited _ hqueued (hexited k hk), List.append_nil] at hcalls
    rw [hpart k hk]
    exact hcalls.symm

/-- The steps of a run in which each source signs off once, after its messages. -/
def signsOff (G : FlowGraph) (s : FlowState) (l : FlowLabel) : Bool :=
  G.exitsOnce s l && G.sendsBefore s l && G.exitsOutside s l && G.sendsValues s l

/-- A closed consumer has received every message once, in the order of each edge, and all its
sources have exited. -/
theorem flow_signOff (G : FlowGraph) {s : FlowState} {j : ℕ}
    (h : Reach G.step (fun s l => G.signsOff s l = true) G.initial s)
    (hclosed : (s.inbox j).consumer = .closed) :
    G.ReceivesAll s j ∧ (s.inbox j).batch = [] ∧
      ∀ k ∈ G.sourceEdges j, s.exited (G.source k) = true := by
  have hflowing : G.Flowing s := by
    refine h.invariant (flowing_initial G) ?_
    rintro s l s' ⟨hcounted, hsending, hsigns, hheard⟩ hl hstep
    simp only [signsOff, Bool.and_eq_true] at hl
    obtain ⟨⟨⟨honce, hbefore⟩, houtside⟩, hvalues⟩ := hl
    exact ⟨hcounted.step hstep, hsending.step hbefore houtside hstep,
      hsigns.step hcounted hsending honce hvalues hstep, hheard.step hcounted hstep⟩
  exact hflowing.receivesAll hclosed

def pair : FlowGraph where
  nodes := 2
  group := id
  table i := ⟨i = 0, true, false⟩
  edges := 2
  source _ := 0
  target k := k
  connected _ hk := ⟨Nat.zero_lt_two, hk⟩

def aMessage : Bytes := List.replicate pointerSize 1

/-- A message and the sign-off in one batch. -/
theorem flow_signOff_pair : ∃ s, (s.inbox 1).consumer = .closed ∧
    s.received 1 = [aMessage] ∧ pair.ReceivesAll s 1 := by
  have hrun : (exec (guarded pair.step fun s l => pair.signsOff s l = true) pair.initial
      [.start 1, .enterLoop 1, .start 0, .send 0 aMessage, .next 0, .ret 0, .next 0, .exit 0,
        .ret 0, .enterLoop 0, .queue 1 (.accept 1 8), .queue 1 (.wrote 1), .queue 1 (.accept 1 8),
        .fill 1 16, .read 1, .ret 1, .next 1]).any (fun s =>
          (s.inbox 1).consumer = .closed ∧ s.received 1 = [aMessage]) = true := by
    decide
  obtain ⟨s, hs, hclosed⟩ := (Option.any_eq_true _ _).mp hrun
  obtain ⟨hclosed, hreceived⟩ := of_decide_eq_true hclosed
  exact ⟨s, hclosed, hreceived, (flow_signOff pair (Reach.of_guarded hs) hclosed).1⟩

theorem ReceivesAll.mem_handled (h : G.ReceivesAll s j) {k : ℕ} (hk : k ∈ G.sourceEdges j)
    {message : Bytes} (hmem : message ∈ s.sends (G.source k)) :
    message ∈ (s.inbox j).handled := by
  obtain ⟨received, hreceived, -, -, hsent⟩ := h
  have hpart : message ∈ part k received := (hsent k hk).2.mem_iff.mpr hmem
  obtain ⟨x, hx, rfl⟩ := List.mem_map.mp hpart
  have hhandled : x.2 ∈ (s.inbox j).handled.filter (· ≠ nullMessage) := by
    rw [← hreceived]
    exact List.mem_map_of_mem (List.mem_of_mem_filter hx)
  exact List.mem_of_mem_filter hhandled

/-- A run of the two nodes in which the consumer closes before it gets a message. -/
theorem not_receivesAll_pair {ok : FlowGraph → FlowState → FlowLabel → Bool} (ls : List FlowLabel)
    (h : (exec (guarded pair.step fun s l => ok pair s l = true) pair.initial ls).any (fun s =>
      (s.inbox 1).consumer = .closed ∧ aMessage ∈ s.sends 0 ∧
        aMessage ∉ (s.inbox 1).handled) = true) :
    ¬∀ (G : FlowGraph) (s : FlowState) (j : ℕ),
      Reach G.step (fun s l => ok G s l = true) G.initial s →
        (s.inbox j).consumer = .closed → G.ReceivesAll s j := by
  intro hall
  obtain ⟨s, hs, hlost⟩ := (Option.any_eq_true _ _).mp h
  obtain ⟨hclosed, hsends, hhandled⟩ := of_decide_eq_true hlost
  have hmem : 1 ∈ pair.sourceEdges 1 := by decide
  exact hhandled ((hall pair s 1 (Reach.of_guarded hs) hclosed).mem_handled hmem hsends)

/-- `value_undefined()` is sent before a message, or a node exits in a call that its own message
on its way to the queued edges has led to. -/
theorem flow_signOff_lost :
    (¬∀ (G : FlowGraph) (s : FlowState) (j : ℕ), Reach G.step (fun s l =>
        (G.exitsOnce s l && G.sendsBefore s l && G.exitsOutside s l) = true) G.initial s →
      (s.inbox j).consumer = .closed → G.ReceivesAll s j) ∧
    ¬∀ (G : FlowGraph) (s : FlowState) (j : ℕ), Reach G.step (fun s l =>
        (G.exitsOnce s l && G.sendsBefore s l && G.sendsValues s l) = true) G.initial s →
      (s.inbox j).consumer = .closed → G.ReceivesAll s j := by
  constructor
  · refine not_receivesAll_pair [.start 1, .enterLoop 1, .start 0, .send 0 nullMessage, .next 0,
      .ret 0, .next 0, .send 0 aMessage, .next 0, .ret 0, .next 0, .exit 0,
      .queue 1 (.accept 1 8), .fill 1 8, .read 1] ?_
    decide
  · refine not_receivesAll_pair [.start 1, .enterLoop 1, .start 0, .send 0 aMessage, .next 0,
      .exit 0, .ret 0, .next 0, .queue 1 (.accept 1 8), .fill 1 8, .read 1] ?_
    decide

end FlowGraph

end LibReactor
