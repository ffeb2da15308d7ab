import LibReactor.Flow
import LibReactor.QueueReader

/-!
# The steps of a flow

What each step can do, with the pushes of `flow_node_send` and `flow_exit` as one change of
the queues.
-/

namespace LibReactor.FlowGraph

open Transition

variable {G : FlowGraph} {s s' : FlowState} {l : FlowLabel} {i j : ℕ} {message : Bytes}

theorem mem_queuedEdges {k : ℕ} :
    k ∈ G.queuedEdges i ↔ k < G.edges ∧ G.source k = i ∧ G.direct k = false := by
  simp [queuedEdges]

theorem mem_directEdges {k : ℕ} :
    k ∈ G.directEdges i ↔ k < G.edges ∧ G.source k = i ∧ G.direct k = true := by
  simp [directEdges]

theorem mem_sourceEdges {k : ℕ} :
    k ∈ G.sourceEdges j ↔ k < G.edges ∧ G.target k = j ∧ G.direct k = false := by
  simp [sourceEdges]

/-! ## Pushes -/

structure Pushed (G : FlowGraph) (ks : List ℕ) (message : Bytes) (inbox inbox' : ℕ → FlowInbox) :
    Prop where
  same : ∀ j, inbox' j = { inbox j with queue := (inbox' j).queue }
  reach : ∀ j, Reach Queue.step Queue.SoleReader (inbox j).queue (inbox' j).queue
  consumer : ∀ j, (inbox' j).queue.consumer = (inbox j).queue.consumer
  popped : ∀ j, (inbox' j).queue.popped = (inbox j).queue.popped
  pushed : ∀ j k, (inbox' j).queue.pushed k =
    (inbox j).queue.pushed k ++ if k ∈ ks ∧ G.target k = j then [message] else []

theorem Pushed.nil (inbox : ℕ → FlowInbox) : G.Pushed [] message inbox inbox where
  same _ := rfl
  reach _ := .init
  consumer _ := rfl
  popped _ := rfl
  pushed _ _ := by simp

theorem Pushed.edge {k : ℕ} (h : G.pushEdge message s k = some s') :
    s' = { s with inbox := s'.inbox } ∧ G.Pushed [k] message s.inbox s'.inbox := by
  obtain ⟨q, hq, rfl⟩ := Option.map_eq_some_iff.mp h
  have hinbox : ∀ j, (s.setInbox (G.target k) { s.inbox (G.target k) with queue := q }).inbox j =
      if j = G.target k then { s.inbox (G.target k) with queue := q } else s.inbox j :=
    fun j => Function.update_apply ..
  obtain ⟨-, hpush⟩ := Queue.step_push hq
  have hconsumer : q.consumer = (s.inbox (G.target k)).queue.consumer := by
    rw [hpush]
    rfl
  have hpopped : q.popped = (s.inbox (G.target k)).queue.popped := by
    rw [hpush]
    rfl
  refine ⟨rfl, ⟨fun j => ?_, fun j => ?_, fun j => ?_, fun j => ?_, fun j k' => ?_⟩⟩
  · rw [hinbox]
    split_ifs with hj
    · rw [hj]
    · rfl
  · rw [hinbox]
    split_ifs with hj
    · rw [hj]
      exact .step (l := .push k message) .init trivial hq
    · exact .init
  · rw [hinbox]
    split_ifs with hj
    · rw [hj]
      exact hconsumer
    · rfl
  · rw [hinbox]
    split_ifs with hj
    · rw [hj]
      exact hpopped
    · rfl
  · simp only [hinbox, List.mem_singleton]
    split_ifs with hj hk hk
    · rw [hj]
      exact (Queue.pushed_push hq k').trans (by rw [if_pos hk.1])
    · have hne : k' ≠ k := fun heq => hk ⟨heq, heq ▸ hj.symm⟩
      rw [hj]
      exact (Queue.pushed_push hq k').trans (by rw [if_neg hne])
    · exact absurd (hk.1 ▸ hk.2.symm) hj
    · rw [List.append_nil]

theorem Pushed.cons {k : ℕ} {ks : List ℕ} {inbox inbox₁ inbox' : ℕ → FlowInbox} (hk : k ∉ ks)
    (h : G.Pushed [k] message inbox inbox₁) (h' : G.Pushed ks message inbox₁ inbox') :
    G.Pushed (k :: ks) message inbox inbox' where
  same j := by rw [h'.same j, h.same j]
  reach j := (h.reach j).trans (h'.reach j)
  consumer j := (h'.consumer j).trans (h.consumer j)
  popped j := (h'.popped j).trans (h.popped j)
  pushed j k' := by
    rw [h'.pushed, h.pushed, List.append_assoc]
    by_cases heq : k' = k
    · subst heq
      simp [hk]
    · simp [heq]

theorem Pushed.of_foldlM {ks : List ℕ} (hks : ks.Nodup)
    (h : ks.foldlM (G.pushEdge message) s = some s') :
    s' = { s with inbox := s'.inbox } ∧ G.Pushed ks message s.inbox s'.inbox := by
  induction ks generalizing s with
  | nil =>
    cases h
    exact ⟨rfl, .nil _⟩
  | cons k ks ih =>
    rw [List.foldlM_cons] at h
    obtain ⟨s₁, hedge, hrest⟩ := Option.bind_eq_some_iff.mp h
    obtain ⟨hk, hks⟩ := List.nodup_cons.mp hks
    obtain ⟨hs₁, hpushed⟩ := Pushed.edge hedge
    obtain ⟨hs', hpushed'⟩ := ih hks hrest
    refine ⟨?_, hpushed.cons hk hpushed'⟩
    rw [hs', hs₁]

/-- Either a producer has no queue or the message is pushed on all queued edges. -/
theorem pushEdges_cases (h : G.pushEdges i message s = some s') :
    (G.queuedEdges i ≠ [] ∧ (s.node i).opened = false ∧ s' = s.fail .unopenedProducer) ∨
    ((G.queuedEdges i ≠ [] → (s.node i).opened = true) ∧ ∃ inbox,
      s' = { s with inbox := inbox } ∧ G.Pushed (G.queuedEdges i) message s.inbox inbox) := by
  unfold pushEdges at h
  split_ifs at h with hopened
  · exact .inl ⟨hopened.1, hopened.2, (Option.some.inj h).symm⟩
  · have hnodup : (G.queuedEdges i).Nodup := List.nodup_range.filter _
    refine .inr ⟨fun hne => ?_, s'.inbox, Pushed.of_foldlM hnodup h⟩
    exact Bool.eq_true_of_not_eq_false fun hfalse => hopened ⟨hne, hfalse⟩

/-! ## One step -/

theorem openConsumer_cases {b b' : FlowInbox} (h : b.openConsumer = some b') :
    (b.consumerSources = 0 ∧ b' = b) ∨ (b.consumerSources ≠ 0 ∧
      ∃ q, b.queue.step (.pop 0) = some q ∧ b' = { b with queue := q, consumer := .opened }) := by
  unfold FlowInbox.openConsumer at h
  split_ifs at h with hsources
  · obtain ⟨q, hq, rfl⟩ := Option.map_eq_some_iff.mp h
    exact .inr ⟨hsources, q, hq, rfl⟩
  · exact .inl ⟨not_not.mp hsources, (Option.some.inj h).symm⟩

inductive Turn (G : FlowGraph) (s : FlowState) :
    FlowLabel → ℕ → ℕ → List FlowFrame → Queue → Prop
  | read {j : ℕ} {q : Queue} (hj : j < G.nodes) (hidle : s.idle (G.group j) = true)
      (hopened : (s.inbox j).consumer = .opened)
      (hq : (s.inbox j).queue.step (.deliver 0) = some q) : Turn G s (.read j) (G.group j) j [] q
  | next {g j : ℕ} {rest : List FlowFrame} {q : Queue} (hstack : s.stack g = .read j :: rest)
      (hclosed : (s.inbox j).consumer ≠ .closed)
      (hq : (s.inbox j).queue.step (.next 0) = some q) : Turn G s (.next g) g j rest q

inductive Case (G : FlowGraph) (s : FlowState) : FlowLabel → FlowState → Prop
  | create {i : ℕ} {b : FlowInbox} (hi : i < G.nodes)
      (hphase : s.phase (G.group i) = .starting) (hstack : s.stack (G.group i) = [])
      (hopened : (s.node i).opened = false) (hb : (s.inbox i).openConsumer = some b) :
      Case G s (.start i) ((((s.setInbox i b).setNode i
        { s.node i with opened := true, known := true }).record (.create i)).pushFrame (G.group i)
          (.create i))
  | start {i : ℕ} {b : FlowInbox} (hi : i < G.nodes)
      (hphase : s.phase (G.group i) = .starting) (hstack : s.stack (G.group i) = [])
      (hopened : (s.node i).opened = false) (hb : (s.inbox i).openConsumer = some b) :
      Case G s (.start i) (((s.setInbox i b).setNode i
        { s.node i with opened := true, started := true }).record (.created i))
  | enterLoop {g : ℕ} (hphase : s.phase g = .starting) (hstack : s.stack g = [])
      (hall : ∀ i < G.nodes, G.group i = g → (s.node i).opened = true) :
      Case G s (.enterLoop g) (s.setPhase g .looping)
  | event {g : ℕ} (hidle : s.idle g = true) : Case G s (.event g) (s.pushFrame g .event)
  | created {g i : ℕ} {rest : List FlowFrame} (hstack : s.stack g = .create i :: rest) :
      Case G s (.ret g) (((s.setNode i { s.node i with started := true }).record
        (.created i)).setStack g rest)
  | returned {g : ℕ} {f : FlowFrame} {rest : List FlowFrame} (hstack : s.stack g = f :: rest)
      (hf : (∃ i, f = .receive i) ∨ (∃ i, f = .destroy i) ∨ f = .event) :
      Case G s (.ret g) (s.setStack g rest)
  | send {i : ℕ} {message : Bytes} (hcallable : G.callable i s = true)
      (hmessage : message.length = pointerSize) : Case G s (.send i message)
        ((s.note (.send i message)).pushFrame (G.group i) (.send i message (G.directEdges i)))
  | exit {i : ℕ} {inbox : ℕ → FlowInbox} (hcallable : G.callable i s = true)
      (hopened : G.queuedEdges i ≠ [] → (s.node i).opened = true)
      (hpushed : G.Pushed (G.queuedEdges i) nullMessage s.inbox inbox) :
      Case G s (.exit i) (G.flowNodeStop i
        { s with inbox := inbox, exited := Function.update s.exited i true })
  | exitFailed {i : ℕ} (hcallable : G.callable i s = true) (hqueued : G.queuedEdges i ≠ [])
      (hopened : (s.node i).opened = false) : Case G s (.exit i) (s.fail .unopenedProducer)
  | call {g i k : ℕ} {message : Bytes} {ks : List ℕ} {rest : List FlowFrame}
      (hstack : s.stack g = .send i message (k :: ks) :: rest) :
      Case G s (.next g)
        (G.flowNodeReceive (G.target k) message (some k)
          (s.setStack g (.send i message ks :: rest)))
  | push {g i : ℕ} {message : Bytes} {rest : List FlowFrame} {inbox : ℕ → FlowInbox}
      (hstack : s.stack g = .send i message [] :: rest)
      (hopened : G.queuedEdges i ≠ [] → (s.node i).opened = true)
      (hpushed : G.Pushed (G.queuedEdges i) message s.inbox inbox) :
      Case G s (.next g) { (s.note (.sent i message)).setStack g rest with inbox := inbox }
  | pushFailed {g i : ℕ} {message : Bytes} {rest : List FlowFrame}
      (hstack : s.stack g = .send i message [] :: rest) (hqueued : G.queuedEdges i ≠ [])
      (hopened : (s.node i).opened = false) : Case G s (.next g) (s.fail .unopenedProducer)
  | abort {g j : ℕ} {rest : List FlowFrame} (hstack : s.stack g = .read j :: rest)
      (hclosed : (s.inbox j).consumer = .closed) : Case G s (.next g) (s.setStack g rest)
  | message {l : FlowLabel} {g j : ℕ} {rest : List FlowFrame} {q : Queue} {message : Bytes}
      (hturn : G.Turn s l g j rest q) (hpopped : q.popped 0 = (s.inbox j).handled ++ [message])
      (hmessage : message ≠ nullMessage) :
      Case G s l (G.flowNodeReceive j message none
        ((s.setInbox j { s.inbox j with queue := q }).setStack g (.read j :: rest)))
  | signOff {l : FlowLabel} {g j : ℕ} {rest : List FlowFrame} {q : Queue}
      (hturn : G.Turn s l g j rest q)
      (hpopped : q.popped 0 = (s.inbox j).handled ++ [nullMessage]) :
      Case G s l ((s.setInbox j ({ s.inbox j with queue := q } : FlowInbox).signOff).setStack g
        (.read j :: rest))
  | finish {l : FlowLabel} {g j : ℕ} {rest : List FlowFrame} {q : Queue}
      (hturn : G.Turn s l g j rest q) (hpopped : q.popped 0 = (s.inbox j).handled) :
      Case G s l ((s.setInbox j { s.inbox j with queue := q }).setStack g rest)
  | readFailed {j : ℕ} : Case G s (.read j) (s.fail .assertion)
  | leaveLoop {g : ℕ} (hidle : s.idle g = true) : Case G s (.leaveLoop g) (s.setPhase g .stopping)
  | stop {i : ℕ} (hi : i < G.nodes) (hphase : s.phase (G.group i) = .stopping)
      (hstack : s.stack (G.group i) = []) : Case G s (.stop i) (G.flowNodeStop i s)
  | fill {j n : ℕ} {q : Queue} (hopened : (s.inbox j).consumer = .opened) (hn : 0 < n)
      (hdvd : pointerSize ∣ n) (hq : (s.inbox j).queue.step (.fill 0 n) = some q) :
      Case G s (.fill j n) (s.setInbox j { s.inbox j with queue := q })
  | queue {j : ℕ} {l : QueueLabel} {q : Queue} (hl : G.asynchronous j s l = true)
      (hq : (s.inbox j).queue.step l = some q) :
      Case G s (.queue j l) (s.setInbox j { s.inbox j with queue := q })

theorem flowNodeStart_cases (h : G.flowNodeStart i s = some s') :
    ∃ b, (s.inbox i).openConsumer = some b ∧
      ((s' = (((s.setInbox i b).setNode i
        { s.node i with opened := true, known := true }).record (.create i)).pushFrame (G.group i)
          (.create i)) ∨
      (s' = ((s.setInbox i b).setNode i
        { s.node i with opened := true, started := true }).record (.created i))) := by
  obtain ⟨b, hb, rfl⟩ := Option.map_eq_some_iff.mp h
  refine ⟨b, hb, ?_⟩
  dsimp only
  split_ifs
  · exact .inl rfl
  · exact .inr rfl

theorem flowExit_cases (hcallable : G.callable i s = true) (h : G.flowExit i s = some s')
    (hfailure : s.failure = none) : G.Case s (.exit i) s' := by
  obtain ⟨s₁, hpush, rfl⟩ := Option.map_eq_some_iff.mp h
  rcases pushEdges_cases hpush with ⟨hqueued, hopened, rfl⟩ | ⟨hopened, inbox, rfl, hpushed⟩
  · exact .exitFailed hcallable hqueued hopened
  · have hrunning : ¬s.failure.isSome = true := by
      rw [hfailure]
      exact Bool.false_ne_true
    dsimp only
    rw [if_neg hrunning]
    exact .exit hcallable hopened hpushed

theorem setInbox_setStack_signOff (s : FlowState) (g j : ℕ) (fs : List FlowFrame)
    (b : FlowInbox) : ((s.setInbox j b).setStack g fs).setInbox j
      (((s.setInbox j b).setStack g fs).inbox j).signOff =
        (s.setInbox j b.signOff).setStack g fs := by
  have hself : ((s.setInbox j b).setStack g fs).inbox j = b := Function.update_self ..
  rw [hself]
  exact congrArg (fun inbox => ({ (s.setStack g fs) with inbox := inbox } : FlowState))
    (Function.update_idem ..)

theorem consumerTurn_cases {g : ℕ} {rest : List FlowFrame} {q : Queue}
    (hturn : G.Turn s l g j rest q) : G.Case s l (G.consumerTurn g j rest q s) := by
  have hq : (∃ d, q.popped 0 = (s.inbox j).handled ++ [d]) ∨
      q.popped 0 = (s.inbox j).handled := by
    cases hturn with
    | read hj hidle hopened hq => exact (Queue.popped_turn (.inl rfl) hq).imp_right And.left
    | next hstack hclosed hq => exact (Queue.popped_turn (.inr rfl) hq).imp_right And.left
  unfold consumerTurn
  dsimp only
  rcases hq with ⟨message, hpopped⟩ | hpopped
  · have helement : (q.popped 0)[(s.inbox j).handled.length]? = some message := by
      rw [hpopped, List.getElem?_concat_length]
    rw [helement]
    dsimp only
    unfold flowNodeConsumer
    split_ifs with hmessage
    · exact .message hturn hpopped hmessage
    · obtain rfl := not_not.mp hmessage
      rw [setInbox_setStack_signOff]
      exact .signOff hturn hpopped
  · have helement : (q.popped 0)[(s.inbox j).handled.length]? = none := by
      rw [hpopped, List.getElem?_eq_none (Nat.le_refl _)]
    rw [helement]
    exact .finish hturn hpopped

theorem next_cases {g : ℕ} (h : G.next g s = some s') (hfailure : s.failure = none) :
    G.Case s (.next g) s' := by
  unfold next at h
  split at h
  · rename_i hstack
    obtain rfl := Option.some.inj h
    exact .call hstack
  · rename_i hstack
    obtain ⟨s₁, hpush, rfl⟩ := Option.map_eq_some_iff.mp h
    rcases pushEdges_cases hpush with ⟨hqueued, hopened, rfl⟩ | ⟨hopened, inbox, rfl, hpushed⟩
    · exact .pushFailed hstack hqueued hopened
    · have hrunning : ¬s.failure.isSome = true := by
        rw [hfailure]
        exact Bool.false_ne_true
      dsimp only
      rw [if_neg hrunning]
      exact .push hstack hopened hpushed
  · rename_i j rest hstack
    split_ifs at h with hclosed
    · obtain rfl := Option.some.inj h
      exact .abort hstack hclosed
    · obtain ⟨q, hq, rfl⟩ := Option.map_eq_some_iff.mp h
      exact consumerTurn_cases (.next hstack hclosed hq)
  · cases h

theorem not_failed (h : G.step s l = some s') : s.failure = none := by
  cases hfailure : s.failure with
  | none => rfl
  | some f =>
    unfold step at h
    rw [hfailure] at h
    cases h

/-- Every step goes in one of these ways. -/
theorem step_cases (h : G.step s l = some s') : G.Case s l s' := by
  have hfailure := not_failed h
  unfold step at h
  rw [hfailure] at h
  rw [if_neg (show ¬(none : Option FlowFailure).isSome = true from Bool.false_ne_true)] at h
  cases l with
  | start i =>
    dsimp only at h
    split_ifs at h with hstart
    obtain ⟨hi, hphase, hstack, hopened⟩ := hstart
    obtain ⟨b, hb, rfl | rfl⟩ := flowNodeStart_cases h
    · exact .create hi hphase hstack hopened hb
    · exact .start hi hphase hstack hopened hb
  | enterLoop g =>
    dsimp only at h
    split_ifs at h with hloop
    obtain rfl := Option.some.inj h
    exact .enterLoop hloop.1 hloop.2.1 hloop.2.2
  | event g =>
    dsimp only at h
    split_ifs at h with hidle
    obtain rfl := Option.some.inj h
    exact .event hidle
  | ret g =>
    dsimp only at h
    split at h
    · rename_i hstack
      obtain rfl := Option.some.inj h
      exact .created hstack
    · rename_i hstack
      obtain rfl := Option.some.inj h
      exact .returned hstack (.inl ⟨_, rfl⟩)
    · rename_i hstack
      obtain rfl := Option.some.inj h
      exact .returned hstack (.inr (.inl ⟨_, rfl⟩))
    · rename_i hstack
      obtain rfl := Option.some.inj h
      exact .returned hstack (.inr (.inr rfl))
    · cases h
  | send i message =>
    dsimp only at h
    split_ifs at h with hsend
    obtain rfl := Option.some.inj h
    exact .send hsend.1 hsend.2
  | exit i =>
    dsimp only at h
    split_ifs at h with hcallable
    exact flowExit_cases hcallable h hfailure
  | next g => exact next_cases h hfailure
  | read j =>
    dsimp only at h
    split_ifs at h with hread
    obtain ⟨q, hq, rfl⟩ := Option.map_eq_some_iff.mp h
    split_ifs
    · exact .readFailed
    · exact consumerTurn_cases (.read hread.1 hread.2.1 hread.2.2 hq)
  | leaveLoop g =>
    dsimp only at h
    split_ifs at h with hidle
    obtain rfl := Option.some.inj h
    exact .leaveLoop hidle
  | stop i =>
    dsimp only at h
    split_ifs at h with hstop
    obtain rfl := Option.some.inj h
    exact .stop hstop.1 hstop.2.1 hstop.2.2
  | fill j n =>
    dsimp only at h
    split_ifs at h with hfill
    obtain ⟨q, hq, rfl⟩ := Option.map_eq_some_iff.mp h
    exact .fill hfill.1 hfill.2.1 hfill.2.2 hq
  | queue j l =>
    dsimp only at h
    split_ifs at h with hl
    obtain ⟨q, hq, rfl⟩ := Option.map_eq_some_iff.mp h
    exact .queue hl hq

theorem flowNodeReceive_same (i : ℕ) (message : Bytes) (edge : Option ℕ) (s : FlowState) :
    (G.flowNodeReceive i message edge s).inbox = s.inbox ∧
      (G.flowNodeReceive i message edge s).exited = s.exited ∧
      (G.flowNodeReceive i message edge s).failure = s.failure := by
  unfold flowNodeReceive
  split_ifs <;> exact ⟨rfl, rfl, rfl⟩

theorem flowNodeReceive_messages (i : ℕ) (message : Bytes) (edge : Option ℕ) (s : FlowState) :
    (G.flowNodeReceive i message edge s).messages =
      s.messages ++ if (G.table i).receive then [.receive i message edge] else [] := by
  unfold flowNodeReceive
  split_ifs
  · rfl
  · exact (List.append_nil _).symm

theorem flowNodeStop_same (i : ℕ) (s : FlowState) :
    (G.flowNodeStop i s).inbox = s.inbox ∧ (G.flowNodeStop i s).exited = s.exited ∧
      (G.flowNodeStop i s).failure = s.failure ∧
      (G.flowNodeStop i s).messages = s.messages := by
  unfold flowNodeStop
  split_ifs <;> exact ⟨rfl, rfl, rfl, rfl⟩

end LibReactor.FlowGraph
