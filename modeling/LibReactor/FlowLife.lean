import LibReactor.FlowDelivery

/-!
# The life of a node

A message finds its receiver alive where a node sends to nodes of its group only while they
live, and exits only when nothing is on its way to it. Then `receive` is called between
`create` and `destroy`, and no message meets a producer without a queue.
-/

namespace LibReactor.FlowGraph

open Transition

variable {G : FlowGraph} {s s' : FlowState} {l : FlowLabel}

/-! ## When a message may be sent -/

def alive (i : ℕ) (log : List FlowCall) : Bool := .created i ∈ log ∧ .destroy i ∉ log

def reads (G : FlowGraph) (j : ℕ) (s : FlowState) : Bool :=
  (s.inbox j).consumer = .opened ∧ s.phase (G.group j) ≠ .stopping

def drained (G : FlowGraph) (j : ℕ) (b : FlowInbox) : Bool :=
  ∑ k ∈ (G.sourceEdges j).toFinset, (b.queue.pushed k).countP (· ≠ nullMessage) =
    b.handled.countP (· ≠ nullMessage)

def calls (G : FlowGraph) (i : ℕ) : FlowFrame → Bool
  | .send _ _ ks => ks.any fun k => G.target k = i
  | _ => false

/-- A node sends while the targets in its group are alive, and its message comes to a queue while
the target is alive or reads no more. A node exits when no call to it and no message in its
queue is left. -/
def timely (G : FlowGraph) (s : FlowState) : FlowLabel → Bool
  | .send i _ => ∀ k ∈ G.directEdges i, (G.table (G.target k)).receive → alive (G.target k) s.log
  | .next g =>
    match s.stack g with
    | .send i message [] :: _ => ∀ k ∈ G.queuedEdges i, (G.table (G.target k)).receive →
        message ≠ nullMessage → .destroy (G.target k) ∈ s.log → ¬G.reads (G.target k) s
    | _ => true
  | .exit i => (s.node i).started → (G.table i).destroy → (G.table i).receive →
      (∀ f ∈ s.stack (G.group i), ¬G.calls i f) ∧ (G.reads i s → G.drained i (s.inbox i))
  | _ => true

/-- Each `receive` of a node comes after its `create` has returned and not after its `destroy`. -/
def Orderly (log : List FlowCall) : Prop :=
  ∀ before i after, log = before ++ .receive i :: after →
    .created i ∈ before ∧ .destroy i ∉ before

theorem alive_iff {i : ℕ} {log : List FlowCall} :
    alive i log = true ↔ .created i ∈ log ∧ .destroy i ∉ log := by
  simp [alive]

theorem alive_record {i : ℕ} {log : List FlowCall} {c : FlowCall} (h : alive i log = true)
    (hc : c ≠ .destroy i) : alive i (log ++ [c]) = true := by
  obtain ⟨hcreated, hdestroy⟩ := alive_iff.mp h
  refine alive_iff.mpr ⟨List.mem_append_left _ hcreated, fun hmem => ?_⟩
  rcases List.mem_append.mp hmem with hmem | hmem
  · exact hdestroy hmem
  · exact hc (List.mem_singleton.mp hmem).symm

theorem Orderly.record {log : List FlowCall} (h : Orderly log) {c : FlowCall}
    (hc : ∀ i, c = .receive i → alive i log = true) : Orderly (log ++ [c]) := by
  intro before i after hsplit
  rcases split_concat hsplit with ⟨rfl, hlast, -⟩ | ⟨after', hlog⟩
  · exact alive_iff.mp (hc i hlast)
  · exact h before i after' hlog

/-! ## Frames -/

theorem mem_setStack {g g' : ℕ} {fs : List FlowFrame} {f : FlowFrame} :
    f ∈ (s.setStack g fs).stack g' ↔ if g' = g then f ∈ fs else f ∈ s.stack g' := by
  have hstack : (s.setStack g fs).stack g' = if g' = g then fs else s.stack g' :=
    Function.update_apply ..
  rw [hstack]
  split_ifs <;> rfl

theorem mem_pushFrame {g g' : ℕ} {f f' : FlowFrame} :
    f ∈ (s.pushFrame g f').stack g' ↔ (g' = g ∧ f = f') ∨ f ∈ s.stack g' := by
  rw [FlowState.pushFrame, mem_setStack]
  split_ifs with hg
  · rw [List.mem_cons, hg]
    simp
  · simp [hg]

theorem mem_innermost {g : ℕ} {f : FlowFrame} {rest : List FlowFrame}
    (hstack : s.stack g = f :: rest) : f ∈ s.stack g := by
  rw [hstack]
  exact List.mem_cons_self ..

theorem mem_pop {g g' : ℕ} {f f' : FlowFrame} {rest : List FlowFrame}
    (hstack : s.stack g = f' :: rest) (h : f ∈ (s.setStack g rest).stack g') : f ∈ s.stack g' := by
  rw [mem_setStack] at h
  split_ifs at h with hg
  · rw [hg, hstack]
    exact List.mem_cons_of_mem f' h
  · exact h

theorem mem_of_ne {g g' : ℕ} {f f' : FlowFrame} {rest : List FlowFrame}
    (hstack : s.stack g = f' :: rest) (hne : f ≠ f') (h : f ∈ s.stack g') :
    f ∈ (s.setStack g rest).stack g' := by
  rw [mem_setStack]
  split_ifs with hg
  · rw [hg, hstack] at h
    exact (List.mem_cons.mp h).resolve_left hne
  · exact h

theorem Turn.mem_iff {g g' j : ℕ} {rest : List FlowFrame} {q : Queue} {f : FlowFrame}
    (h : G.Turn s l g j rest q) (hf : f ≠ .read j) :
    (f ∈ (s.setStack g (.read j :: rest)).stack g' ↔ f ∈ s.stack g') ∧
      (f ∈ (s.setStack g rest).stack g' ↔ f ∈ s.stack g') := by
  have hrest : f ∈ rest ↔ f ∈ s.stack g := by
    cases h with
    | read hj hidle hopened hq => rw [(of_decide_eq_true hidle).2]
    | next hstack hclosed hq => simp [hstack, hf]
  rw [mem_setStack, mem_setStack]
  split_ifs with hg
  · rw [List.mem_cons, or_iff_right hf, hrest, hg]
    exact ⟨Iff.rfl, Iff.rfl⟩
  · exact ⟨Iff.rfl, Iff.rfl⟩

/-! ## Starting -/

structure Booted (G : FlowGraph) (s : FlowState) : Prop where
  known : ∀ i, (s.node i).known = true → (s.node i).opened = true
  started : ∀ i, (s.node i).started = true → .created i ∈ s.log
  destroyed : ∀ i, .destroy i ∈ s.log → .created i ∈ s.log
  created : ∀ i, .created i ∈ s.log → (s.node i).opened = true
  creating : ∀ g i, .create i ∈ s.stack g → (s.node i).opened = true
  opened : ∀ i, (s.node i).opened = true → .created i ∈ s.log ∨ .create i ∈ s.stack (G.group i)
  phase : ∀ g, s.phase g ≠ .starting → ∀ i < G.nodes, G.group i = g → .created i ∈ s.log

theorem booted_initial (G : FlowGraph) : G.Booted G.initial where
  known _ h := by cases h
  started _ h := by cases h
  destroyed _ h := by cases h
  created _ h := by cases h
  creating _ _ h := by cases h
  opened _ h := by cases h
  phase _ h := absurd rfl h

theorem Booted.congr (h : G.Booted s)
    (hknown : ∀ i, (s'.node i).known = true → (s.node i).opened = true)
    (hstarted : ∀ i, (s'.node i).started = true → (s.node i).started = true)
    (hopened : ∀ i, (s'.node i).opened = (s.node i).opened)
    (hcreated : ∀ i, .created i ∈ s'.log ↔ .created i ∈ s.log)
    (hdestroyed : ∀ i, .destroy i ∈ s'.log → .created i ∈ s.log) (hphase : s'.phase = s.phase)
    (hstack : ∀ g i, .create i ∈ s'.stack g ↔ .create i ∈ s.stack g) : G.Booted s' where
  known i hi := (hopened i).trans (hknown i hi)
  started i hi := (hcreated i).mpr (h.started i (hstarted i hi))
  destroyed i hi := (hcreated i).mpr (hdestroyed i hi)
  created i hi := (hopened i).trans (h.created i ((hcreated i).mp hi))
  creating g i hi := (hopened i).trans (h.creating g i ((hstack g i).mp hi))
  opened i hi := by
    rw [hcreated, hstack]
    exact h.opened i ((hopened i).symm.trans hi)
  phase g hg i hi hgroup := by
    rw [hphase] at hg
    exact (hcreated i).mpr (h.phase g hg i hi hgroup)

theorem Booted.same (h : G.Booted s) (hnode : s'.node = s.node) (hlog : s'.log = s.log)
    (hphase : s'.phase = s.phase)
    (hstack : ∀ g i, .create i ∈ s'.stack g ↔ .create i ∈ s.stack g) : G.Booted s' :=
  h.congr (hnode ▸ h.known) (fun i hi => by rwa [hnode] at hi) (fun i => by rw [hnode])
    (fun i => by rw [hlog]) (hlog ▸ h.destroyed) hphase hstack

theorem Booted.pop (h : G.Booted s) {g : ℕ} {f : FlowFrame} {rest : List FlowFrame}
    (hstack : s.stack g = f :: rest) (hf : ∀ i, f ≠ .create i) : G.Booted (s.setStack g rest) :=
  h.same rfl rfl rfl fun _ i => ⟨mem_pop hstack, mem_of_ne hstack (hf i).symm⟩

theorem Booted.push (h : G.Booted s) {g : ℕ} {f : FlowFrame} (hf : ∀ i, f ≠ .create i) :
    G.Booted (s.pushFrame g f) :=
  h.same rfl rfl rfl fun _ i =>
    ⟨fun hmem => (mem_pushFrame.mp hmem).resolve_left fun heq => hf i heq.2.symm,
      fun hmem => mem_pushFrame.mpr (.inr hmem)⟩

theorem Booted.flowNodeReceive (h : G.Booted s) {i : ℕ} {message : Bytes} {edge : Option ℕ}
    (hopened : (G.table i).receive = true → (s.node i).opened = true) :
    G.Booted (G.flowNodeReceive i message edge s) := by
  unfold LibReactor.FlowGraph.flowNodeReceive
  split_ifs with hreceive
  · refine Booted.push ?_ (by simp)
    refine h.congr (fun i' hi => ?_) (fun i' hi => ?_) (fun i' => ?_) (fun i' => ?_)
      (fun i' hi => ?_) rfl fun _ _ => Iff.rfl
    · change ((s.setNode i _).node i').known = true at hi
      rw [node_setNode] at hi
      split_ifs at hi with heq
      · exact heq ▸ hopened hreceive
      · exact h.known i' hi
    · change ((s.setNode i _).node i').started = true at hi
      rw [node_setNode] at hi
      split_ifs at hi with heq
      · exact heq ▸ hi
      · exact hi
    · change ((s.setNode i _).node i').opened = _
      rw [node_setNode]
      split_ifs with heq
      · rw [heq]
      · rfl
    · simp [FlowState.record, FlowState.note, FlowState.setNode]
    · refine h.destroyed i' ?_
      simpa [FlowState.record, FlowState.note, FlowState.setNode] using hi
  · exact h

theorem Booted.flowNodeStop (h : G.Booted s) (i : ℕ) : G.Booted (G.flowNodeStop i s) := by
  have hstopped : G.Booted (s.setNode i { s.node i with started := false }) := by
    refine h.congr (fun i' hi => ?_) (fun i' hi => ?_) (fun i' => ?_) (fun _ => Iff.rfl)
      h.destroyed rfl fun _ _ => Iff.rfl
    · rw [node_setNode] at hi
      split_ifs at hi with heq
      · exact heq ▸ h.known i hi
      · exact h.known i' hi
    · rw [node_setNode] at hi
      split_ifs at hi
      exact hi
    · rw [node_setNode]
      split_ifs with heq
      · rw [heq]
      · rfl
  unfold LibReactor.FlowGraph.flowNodeStop
  split_ifs with hstarted hdestroy
  · exact h
  · refine Booted.push ?_ (by simp)
    refine hstopped.congr hstopped.known (fun _ => id) (fun _ => rfl) (fun i' => ?_)
      (fun i' hi => ?_) rfl fun _ _ => Iff.rfl
    · simp [FlowState.record]
    · rcases List.mem_append.mp hi with hi | hi
      · exact hstopped.destroyed i' hi
      · obtain rfl : i' = i := by simpa using hi
        exact h.started i' (Bool.eq_true_of_not_eq_false hstarted)
  · exact hstopped

theorem Booted.boot (h : G.Booted s) {i : ℕ} {n : FlowNode}
    (hnode : s'.node = Function.update s.node i n) (hn : n.opened = true)
    (hstarted : n.started = true → .created i ∈ s'.log)
    (hmono : ∀ i', .created i' ∈ s.log → .created i' ∈ s'.log)
    (hcreated : ∀ i', i' ≠ i → .created i' ∈ s'.log → .created i' ∈ s.log)
    (hdestroyed : ∀ i', .destroy i' ∈ s'.log → .destroy i' ∈ s.log) (hphase : s'.phase = s.phase)
    (hstack : ∀ g i', i' ≠ i → (.create i' ∈ s'.stack g ↔ .create i' ∈ s.stack g))
    (hopened : .created i ∈ s'.log ∨ .create i ∈ s'.stack (G.group i)) : G.Booted s' := by
  have hself : s'.node i = n := by rw [hnode, Function.update_self]
  have hother : ∀ i', i' ≠ i → s'.node i' = s.node i' := fun i' hi => by
    rw [hnode, Function.update_of_ne hi]
  refine ⟨fun i' hi' => ?_, fun i' hi' => ?_, fun i' hi' => ?_, fun i' hi' => ?_,
    fun g i' hi' => ?_, fun i' hi' => ?_, fun g hg i' hi' hgroup => ?_⟩
  · by_cases hi : i' = i
    · rw [hi, hself, hn]
    · rw [hother i' hi] at hi' ⊢
      exact h.known i' hi'
  · by_cases hi : i' = i
    · rw [hi, hself] at hi'
      exact hi ▸ hstarted hi'
    · rw [hother i' hi] at hi'
      exact hmono i' (h.started i' hi')
  · exact hmono i' (h.destroyed i' (hdestroyed i' hi'))
  · by_cases hi : i' = i
    · rw [hi, hself, hn]
    · rw [hother i' hi]
      exact h.created i' (hcreated i' hi hi')
  · by_cases hi : i' = i
    · rw [hi, hself, hn]
    · rw [hother i' hi]
      exact h.creating g i' ((hstack g i' hi).mp hi')
  · by_cases hi : i' = i
    · exact hi ▸ hopened
    · rw [hother i' hi] at hi'
      exact (h.opened i' hi').imp (hmono i') (hstack _ i' hi).mpr
  · rw [hphase] at hg
    exact hmono i' (h.phase g hg i' hi' hgroup)

theorem mem_record {c c' : FlowCall} : c ∈ (s.record c').log ↔ c ∈ s.log ∨ c = c' := by
  simp [FlowState.record]

theorem mem_of_record {c c' : FlowCall} (h : c ∈ (s.record c').log) (hne : c ≠ c') : c ∈ s.log :=
  (mem_record.mp h).resolve_right hne

/-- The step lemma for starting -/
theorem Booted.step (h : G.Booted s)
    (hcalled : ∀ g i message k ks, .send i message (k :: ks) ∈ s.stack g →
      (G.table (G.target k)).receive = true → .created (G.target k) ∈ s.log)
    (hturn : ∀ {g j rest q}, G.Turn s l g j rest q → .created j ∈ s.log)
    (hstep : G.step s l = some s') : G.Booted s' := by
  cases step_cases hstep with
  | @create i b hi hphase hstack hopened hb =>
    refine h.boot rfl rfl (fun hi => mem_record.mpr (.inl (h.started i hi)))
      (fun i' hi' => mem_record.mpr (.inl hi')) (fun i' _ hi' => ?_) (fun i' hi' => ?_) rfl
      (fun g i' hne => ?_) (.inr (mem_pushFrame.mpr (.inl ⟨rfl, rfl⟩)))
    · exact mem_of_record hi' (by simp)
    · exact mem_of_record hi' (by simp)
    · refine ⟨fun hmem => (mem_pushFrame.mp hmem).resolve_left ?_,
        fun hmem => mem_pushFrame.mpr (.inr hmem)⟩
      rintro ⟨-, heq⟩
      exact hne (FlowFrame.create.inj heq)
  | @start i b hi hphase hstack hopened hb =>
    refine h.boot rfl rfl (fun _ => mem_record.mpr (.inr rfl))
      (fun i' hi' => mem_record.mpr (.inl hi')) (fun i' hne hi' => ?_) (fun i' hi' => ?_) rfl
      (fun _ _ _ => Iff.rfl) (.inl (mem_record.mpr (.inr rfl)))
    · exact mem_of_record hi' fun heq => hne (FlowCall.created.inj heq)
    · exact mem_of_record hi' (by simp)
  | @enterLoop g hphase hstack hall =>
    refine ⟨h.known, h.started, h.destroyed, h.created, h.creating, h.opened, ?_⟩
    intro g' hg' i hi hgroup
    change Function.update s.phase g .looping g' ≠ .starting at hg'
    rw [Function.update_apply] at hg'
    split_ifs at hg' with heq
    · rcases h.opened i (hall i hi (hgroup.trans heq)) with hcreated | hcreating
      · exact hcreated
      · rw [hgroup, heq, hstack] at hcreating
        cases hcreating
    · exact h.phase g' hg' i hi hgroup
  | event hidle => exact h.push (by simp)
  | @created g i rest hstack =>
    have hopened : (s.node i).opened = true :=
      h.creating g i (mem_innermost hstack)
    refine h.boot rfl hopened (fun _ => mem_record.mpr (.inr rfl))
      (fun i' hi' => mem_record.mpr (.inl hi')) (fun i' hne hi' => ?_) (fun i' hi' => ?_) rfl
      (fun g' i' hne => ?_) (.inl (mem_record.mpr (.inr rfl)))
    · exact mem_of_record hi' fun heq => hne (FlowCall.created.inj heq)
    · exact mem_of_record hi' (by simp)
    · refine ⟨fun hmem => mem_pop (s := s) hstack hmem, fun hmem => ?_⟩
      exact mem_of_ne (s := s) hstack (fun heq => hne (FlowFrame.create.inj heq)) hmem
  | returned hstack hf =>
    refine h.pop hstack fun i => ?_
    rcases hf with ⟨i', rfl⟩ | ⟨i', rfl⟩ | rfl <;> simp
  | @send i message hcallable hmessage =>
    have hnote : G.Booted (s.note (.send i message)) := h.same rfl rfl rfl fun _ _ => Iff.rfl
    exact hnote.push (by simp)
  | exit hcallable hopened hpushed =>
    refine Booted.flowNodeStop ?_ _
    exact h.same rfl rfl rfl fun _ _ => Iff.rfl
  | @call g i k message ks rest hstack =>
    have hmem := mem_innermost hstack
    have hsame : G.Booted (s.setStack g (.send i message ks :: rest)) := by
      refine h.same rfl rfl rfl fun g' i' => ?_
      rw [mem_setStack]
      split_ifs with hg
      · rw [hg, hstack]
        simp
      · rfl
    exact hsame.flowNodeReceive fun hreceive => h.created _ (hcalled g i message k ks hmem hreceive)
  | push hstack hopened hpushed =>
    exact (h.pop hstack (by simp)).same rfl rfl rfl fun _ _ => Iff.rfl
  | abort hstack hclosed => exact h.pop hstack (by simp)
  | @message l g j rest q message ht hpopped hmessage =>
    have hsame : G.Booted ((s.setInbox j { s.inbox j with queue := q }).setStack g
        (.read j :: rest)) := h.same rfl rfl rfl fun _ _ => (ht.mem_iff (by simp)).1
    exact hsame.flowNodeReceive fun _ => h.created j (hturn ht)
  | signOff ht hpopped => exact h.same rfl rfl rfl fun _ _ => (ht.mem_iff (by simp)).1
  | finish ht hpopped => exact h.same rfl rfl rfl fun _ _ => (ht.mem_iff (by simp)).2
  | @leaveLoop g hidle =>
    refine ⟨h.known, h.started, h.destroyed, h.created, h.creating, h.opened, ?_⟩
    intro g' hg' i hi hgroup
    refine h.phase g' (fun hphase => ?_) i hi hgroup
    change Function.update s.phase g .stopping g' ≠ .starting at hg'
    rw [Function.update_apply] at hg'
    split_ifs at hg' with heq
    · have hlooping := (of_decide_eq_true hidle).1
      rw [← heq, hphase] at hlooping
      cases hlooping
    · exact hg' hphase
  | stop hi hphase hstack => exact h.flowNodeStop _
  | exitFailed | pushFailed | readFailed | fill | queue =>
    exact h.same rfl rfl rfl fun _ _ => Iff.rfl

/-! ## Calls in progress -/

/-- A thread is in `flow_node_send` only for a node whose producers are open, with targets that
are alive, and in `queue_consumer_read` only for a node of its group in its loop. -/
structure Calling (G : FlowGraph) (s : FlowState) : Prop where
  sender : ∀ g i message ks, .send i message ks ∈ s.stack g → (s.node i).opened = true
  target : ∀ g i message ks, .send i message ks ∈ s.stack g → ∀ k ∈ ks,
    g = G.group (G.target k) ∧
      ((G.table (G.target k)).receive = true → alive (G.target k) s.log = true)
  reader : ∀ g j, .read j ∈ s.stack g → g = G.group j ∧ j < G.nodes ∧ s.phase g = .looping

theorem calling_initial (G : FlowGraph) : G.Calling G.initial where
  sender _ _ _ _ h := by cases h
  target _ _ _ _ h := by cases h
  reader _ _ h := by cases h

theorem Calling.congr (h : G.Calling s)
    (hopened : ∀ i, (s.node i).opened = true → (s'.node i).opened = true)
    (hsend : ∀ g i message ks, .send i message ks ∈ s'.stack g → .send i message ks ∈ s.stack g)
    (hread : ∀ g j, .read j ∈ s'.stack g → .read j ∈ s.stack g)
    (halive : ∀ i message ks, ∀ k ∈ ks, .send i message ks ∈ s.stack (G.group (G.target k)) →
      (G.table (G.target k)).receive = true → alive (G.target k) s.log = true →
        alive (G.target k) s'.log = true)
    (hphase : ∀ g j, .read j ∈ s.stack g → s.phase g = .looping → s'.phase g = .looping) :
    G.Calling s' where
  sender g i message ks hmem := hopened i (h.sender g i message ks (hsend g i message ks hmem))
  target g i message ks hmem k hk := by
    obtain ⟨rfl, htarget⟩ := h.target g i message ks (hsend g i message ks hmem) k hk
    exact ⟨rfl, fun hreceive => halive i message ks k hk (hsend _ i message ks hmem) hreceive
      (htarget hreceive)⟩
  reader g j hmem := by
    obtain ⟨hg, hj, hlooping⟩ := h.reader g j (hread g j hmem)
    exact ⟨hg, hj, hphase g j (hread g j hmem) hlooping⟩

theorem Calling.same (h : G.Calling s) (hnode : s'.node = s.node) (hlog : s'.log = s.log)
    (hphase : s'.phase = s.phase)
    (hsend : ∀ g i message ks, .send i message ks ∈ s'.stack g → .send i message ks ∈ s.stack g)
    (hread : ∀ g j, .read j ∈ s'.stack g → .read j ∈ s.stack g) : G.Calling s' :=
  h.congr (fun i hi => by rwa [hnode]) hsend hread (fun _ _ _ _ _ _ _ halive => by rwa [hlog])
    fun _ _ _ hlooping => by rwa [hphase]

theorem Calling.sameStack (h : G.Calling s) (hnode : s'.node = s.node) (hlog : s'.log = s.log)
    (hphase : s'.phase = s.phase) (hstack : s'.stack = s.stack) : G.Calling s' :=
  h.same hnode hlog hphase (fun _ _ _ _ hmem => by rwa [hstack] at hmem)
    fun _ _ hmem => by rwa [hstack] at hmem

theorem Calling.pop (h : G.Calling s) {g : ℕ} {f : FlowFrame} {rest : List FlowFrame}
    (hstack : s.stack g = f :: rest) : G.Calling (s.setStack g rest) :=
  h.same rfl rfl rfl (fun _ _ _ _ => mem_pop hstack) fun _ _ => mem_pop hstack

theorem Calling.push (h : G.Calling s) {g : ℕ} {f : FlowFrame}
    (hsend : ∀ i message ks, f ≠ .send i message ks) (hread : ∀ j, f ≠ .read j) :
    G.Calling (s.pushFrame g f) :=
  h.same rfl rfl rfl
    (fun _ i message ks hmem =>
      (mem_pushFrame.mp hmem).resolve_left fun heq => hsend i message ks heq.2.symm)
    fun _ j hmem => (mem_pushFrame.mp hmem).resolve_left fun heq => hread j heq.2.symm

theorem Calling.record (h : G.Calling s) {c : FlowCall} (hc : ∀ i, c ≠ .destroy i) :
    G.Calling (s.record c) :=
  h.congr (fun _ => id) (fun _ _ _ _ => id) (fun _ _ => id)
    (fun _ _ _ _ _ _ _ halive => alive_record halive (hc _)) fun _ _ _ => id

theorem Calling.setNode (h : G.Calling s) {i : ℕ} {n : FlowNode}
    (hn : (s.node i).opened = true → n.opened = true) : G.Calling (s.setNode i n) := by
  refine h.congr (fun i' hi => ?_) (fun _ _ _ _ => id) (fun _ _ => id)
    (fun _ _ _ _ _ _ _ => id) fun _ _ _ => id
  rw [node_setNode]
  split_ifs with heq
  · exact hn (heq ▸ hi)
  · exact hi

theorem Calling.flowNodeReceive (h : G.Calling s) (i : ℕ) (message : Bytes)
    (edge : Option ℕ) : G.Calling (G.flowNodeReceive i message edge s) := by
  unfold LibReactor.FlowGraph.flowNodeReceive
  split_ifs
  · have hrecord := (h.setNode (i := i) (n := { s.node i with known := true }) id).record
      (c := .receive i) (by simp)
    refine Calling.push ?_ (by simp) (by simp)
    exact hrecord.sameStack rfl rfl rfl rfl
  · exact h

theorem Calling.advance (h : G.Calling s) {g i k : ℕ} {message : Bytes} {ks : List ℕ}
    {rest : List FlowFrame} (hstack : s.stack g = .send i message (k :: ks) :: rest) :
    G.Calling (s.setStack g (.send i message ks :: rest)) := by
  have hmem := mem_innermost hstack
  have hpop := h.pop hstack
  have hcases : ∀ g' f, f ∈ (s.setStack g (.send i message ks :: rest)).stack g' →
      (g' = g ∧ f = .send i message ks) ∨ f ∈ (s.setStack g rest).stack g' := by
    intro g' f hf
    rw [mem_setStack] at hf ⊢
    split_ifs at hf ⊢ with hg
    · exact (List.mem_cons.mp hf).imp (fun heq => ⟨hg, heq⟩) id
    · exact .inr hf
  refine ⟨fun g' i' message' ks' hf => ?_, fun g' i' message' ks' hf => ?_, fun g' j hf => ?_⟩
  · rcases hcases g' _ hf with ⟨rfl, heq⟩ | hf
    · obtain ⟨rfl, rfl, rfl⟩ := FlowFrame.send.inj heq
      exact h.sender _ _ _ _ hmem
    · exact hpop.sender _ _ _ _ hf
  · rcases hcases g' _ hf with ⟨rfl, heq⟩ | hf
    · obtain ⟨rfl, rfl, rfl⟩ := FlowFrame.send.inj heq
      exact fun k' hk' => h.target _ _ _ _ hmem k' (List.mem_cons_of_mem k hk')
    · exact hpop.target _ _ _ _ hf
  · exact hpop.reader g' j ((hcases g' _ hf).resolve_left fun heq => by cases heq.2)

theorem Calling.flowNodeStop (h : G.Calling s) {i : ℕ}
    (hcalls : (s.node i).started = true → (G.table i).destroy = true →
      (G.table i).receive = true → ∀ f ∈ s.stack (G.group i), G.calls i f = false) :
    G.Calling (G.flowNodeStop i s) := by
  unfold LibReactor.FlowGraph.flowNodeStop
  split_ifs with hstarted hdestroy
  · exact h
  · refine Calling.push ?_ (by simp) (by simp)
    have hstopped := h.setNode (i := i) (n := { s.node i with started := false }) id
    refine hstopped.congr (fun _ => id) (fun _ _ _ _ => id) (fun _ _ => id) ?_ fun _ _ _ => id
    intro i' message ks k hk hmem hreceive halive
    refine alive_record halive fun heq => ?_
    obtain rfl := FlowCall.destroy.inj heq
    have hnone := hcalls (Bool.eq_true_of_not_eq_false hstarted) hdestroy hreceive _ hmem
    rw [calls, List.any_eq_false] at hnone
    exact hnone k hk (decide_eq_true rfl)
  · exact h.setNode id

theorem Calling.turn (h : G.Calling s) {g j : ℕ} {rest : List FlowFrame} {q : Queue}
    (hturn : G.Turn s l g j rest q) : g = G.group j ∧ j < G.nodes ∧ s.phase g = .looping := by
  cases hturn with
  | read hj hidle hopened hq => exact ⟨rfl, hj, (of_decide_eq_true hidle).1⟩
  | next hstack hclosed hq => exact h.reader g j (mem_innermost hstack)

theorem Calling.read (h : G.Calling s) {g j : ℕ} {rest : List FlowFrame} {q : Queue}
    (hturn : G.Turn s l g j rest q) : G.Calling (s.setStack g (.read j :: rest)) := by
  refine ⟨fun g' i message ks hf => ?_, fun g' i message ks hf => ?_, fun g' j' hf => ?_⟩
  · exact h.sender g' i message ks ((hturn.mem_iff (by simp)).1.mp hf)
  · exact h.target g' i message ks ((hturn.mem_iff (by simp)).1.mp hf)
  · by_cases hj : j' = j
    · subst hj
      by_cases hg : g' = g
      · subst hg
        exact h.turn hturn
      · rw [mem_setStack, if_neg hg] at hf
        exact h.reader g' j' hf
    · exact h.reader g' j' ((hturn.mem_iff (by simpa using hj)).1.mp hf)

theorem Calling.finish (h : G.Calling s) {g j : ℕ} {rest : List FlowFrame} {q : Queue}
    (hturn : G.Turn s l g j rest q) : G.Calling (s.setStack g rest) := by
  cases hturn with
  | read hj hidle hopened hq =>
    refine h.same rfl rfl rfl (fun g' i message ks hf => ?_) fun g' j' hf => ?_
    · rw [mem_setStack] at hf
      split_ifs at hf
      · cases hf
      · exact hf
    · rw [mem_setStack] at hf
      split_ifs at hf
      · cases hf
      · exact hf
  | next hstack hclosed hq => exact h.pop hstack

/-- The step lemma for calls -/
theorem Calling.step (h : G.Calling s) (hbooted : G.Booted s) (hl : G.timely s l = true)
    (hstep : G.step s l = some s') : G.Calling s' := by
  cases step_cases hstep with
  | @create i b hi hphase hstack hopened hb =>
    have hsame : G.Calling (s.setInbox i b) := h.sameStack rfl rfl rfl rfl
    exact ((hsame.setNode fun _ => rfl).record (by simp)).push (by simp) (by simp)
  | @start i b hi hphase hstack hopened hb =>
    have hsame : G.Calling (s.setInbox i b) := h.sameStack rfl rfl rfl rfl
    exact (hsame.setNode fun _ => rfl).record (by simp)
  | @enterLoop g hphase hstack hall =>
    refine h.congr (fun _ => id) (fun _ _ _ _ => id) (fun _ _ => id) (fun _ _ _ _ _ _ _ => id) ?_
    intro g' j _ hlooping
    refine (Function.update_apply ..).trans ?_
    split_ifs
    · rfl
    · exact hlooping
  | event hidle => exact h.push (by simp) (by simp)
  | @created g i rest hstack =>
    have hsame := (h.setNode (i := i) (n := { s.node i with started := true }) id).record
      (c := .created i) (by simp)
    exact hsame.pop hstack
  | returned hstack hf => exact h.pop hstack
  | @send i message hcallable hmessage =>
    have hopened : (s.node i).opened = true :=
      hbooted.known i (Bool.and_eq_true_iff.mp hcallable).1
    refine ⟨fun g i' message' ks hf => ?_, fun g i' message' ks hf k hk => ?_, fun g j hf => ?_⟩
    · rcases mem_pushFrame.mp hf with ⟨-, heq⟩ | hf
      · obtain ⟨rfl, rfl, rfl⟩ := FlowFrame.send.inj heq
        exact hopened
      · exact h.sender _ _ _ _ hf
    · rcases mem_pushFrame.mp hf with ⟨rfl, heq⟩ | hf
      · obtain ⟨rfl, rfl, rfl⟩ := FlowFrame.send.inj heq
        obtain ⟨-, rfl, hdirect⟩ := mem_directEdges.mp hk
        exact ⟨of_decide_eq_true hdirect, of_decide_eq_true hl k hk⟩
      · exact h.target _ _ _ _ hf k hk
    · exact h.reader g j ((mem_pushFrame.mp hf).resolve_left fun heq => by cases heq.2)
  | @exit i inbox hcallable hopened hpushed =>
    have hsame : G.Calling { s with inbox := inbox, exited := Function.update s.exited i true } :=
      h.sameStack rfl rfl rfl rfl
    refine hsame.flowNodeStop fun hstarted hdestroy hreceive f hf => ?_
    have hcalls := (of_decide_eq_true hl hstarted hdestroy hreceive).1 f hf
    exact Bool.eq_false_of_not_eq_true hcalls
  | call hstack => exact (h.advance hstack).flowNodeReceive _ _ _
  | push hstack hopened hpushed =>
    exact (h.pop hstack).sameStack rfl rfl rfl rfl
  | abort hstack hclosed => exact h.pop hstack
  | message ht hpopped hmessage =>
    refine Calling.flowNodeReceive ?_ _ _ _
    exact (h.read ht).sameStack rfl rfl rfl rfl
  | signOff ht hpopped => exact (h.read ht).sameStack rfl rfl rfl rfl
  | finish ht hpopped => exact (h.finish ht).sameStack rfl rfl rfl rfl
  | @leaveLoop g hidle =>
    refine h.congr (fun _ => id) (fun _ _ _ _ => id) (fun _ _ => id) (fun _ _ _ _ _ _ _ => id) ?_
    intro g' j hf hlooping
    have hne : g' ≠ g := by
      rintro rfl
      rw [(of_decide_eq_true hidle).2] at hf
      cases hf
    exact (Function.update_of_ne hne ..).trans hlooping
  | @stop i hi hphase hstack =>
    refine h.flowNodeStop fun _ _ _ f hf => ?_
    rw [hstack] at hf
    cases hf
  | exitFailed | pushFailed | readFailed | fill | queue =>
    exact h.sameStack rfl rfl rfl rfl

/-! ## Messages on their way -/

variable {j : ℕ} {b b' : FlowInbox}

theorem drained_congr
    (hpushed : ∀ k ∈ G.sourceEdges j, (b'.queue.pushed k).countP (· ≠ nullMessage) =
      (b.queue.pushed k).countP (· ≠ nullMessage))
    (hhandled : b'.handled.countP (· ≠ nullMessage) = b.handled.countP (· ≠ nullMessage))
    (h : G.drained j b = true) : G.drained j b' = true := by
  refine decide_eq_true ?_
  rw [hhandled, Finset.sum_congr rfl fun k hk => hpushed k (List.mem_toFinset.mp hk)]
  exact of_decide_eq_true h

theorem Pushed.drained {ks : List ℕ} {message : Bytes} {inbox inbox' : ℕ → FlowInbox}
    (hpushed : G.Pushed ks message inbox inbox')
    (hnull : ∀ k ∈ ks, G.target k = j → message = nullMessage)
    (h : G.drained j (inbox j) = true) : G.drained j (inbox' j) = true := by
  refine drained_congr (fun k _ => ?_) ?_ h
  · rw [hpushed.pushed]
    split_ifs with hmem
    · rw [List.countP_append, hnull k hmem.1 hmem.2]
      simp
    · rw [List.append_nil]
  · rw [hpushed.handled j]

theorem Counts.not_drained (h : G.Counts j (s.inbox j)) {g : ℕ} {rest : List FlowFrame} {q : Queue}
    {message : Bytes} (hturn : G.Turn s l g j rest q)
    (hpopped : q.popped 0 = (s.inbox j).handled ++ [message]) (hmessage : message ≠ nullMessage) :
    G.drained j (s.inbox j) = false := by
  obtain ⟨-, hreach, hpushed⟩ := hturn.spec h
  obtain ⟨drawn, hdrawn, htaken⟩ :=
    (Queue.readBy_of_reach (by decide) (h.reach.trans hreach)).drawn
  rw [hpushed] at hdrawn
  have hle := hdrawn.countP_le (K := (G.sourceEdges j).toFinset)
    (fun k hk => h.edges k fun hmem => hk (List.mem_toFinset.mpr hmem)) (· ≠ nullMessage)
  rw [htaken, Queue.taken, hpopped, List.countP_append, List.countP_append,
    List.countP_cons_of_pos (by simpa using hmessage)] at hle
  refine decide_eq_false fun heq => ?_
  rw [heq] at hle
  omega

def Quiet (G : FlowGraph) (s : FlowState) : Prop :=
  ∀ j, .destroy j ∈ s.log → (G.table j).receive = true → G.reads j s = true →
    G.drained j (s.inbox j) = true

theorem reads_iff {j : ℕ} : G.reads j s = true ↔
    (s.inbox j).consumer = .opened ∧ s.phase (G.group j) ≠ .stopping := by
  simp [reads]

theorem Quiet.same (h : G.Quiet s) (hlog : ∀ j, .destroy j ∈ s'.log → .destroy j ∈ s.log)
    (hinbox : s'.inbox = s.inbox) (hphase : ∀ g, s'.phase g ≠ .stopping → s.phase g ≠ .stopping) :
    G.Quiet s' := by
  intro j hj hreceive hreads
  rw [reads_iff, hinbox] at hreads
  rw [hinbox]
  exact h j (hlog j hj) hreceive (reads_iff.mpr ⟨hreads.1, hphase _ hreads.2⟩)

theorem Quiet.setInbox (h : G.Quiet s) (hlog : ∀ j, .destroy j ∈ s'.log → .destroy j ∈ s.log)
    (hphase : s'.phase = s.phase) (hinbox : s'.inbox = Function.update s.inbox j b)
    (hb : .destroy j ∈ s.log → (G.table j).receive = true → s.phase (G.group j) ≠ .stopping →
      b.consumer = .opened → (s.inbox j).consumer = .opened ∧
        (G.drained j (s.inbox j) = true → G.drained j b = true)) : G.Quiet s' := by
  intro j' hj' hreceive hreads
  obtain ⟨hopened, hstopping⟩ := reads_iff.mp hreads
  rw [hphase] at hstopping
  by_cases hj : j' = j
  · subst hj
    rw [hinbox, Function.update_self] at hopened ⊢
    obtain ⟨hopened, hdrained⟩ := hb (hlog _ hj') hreceive hstopping hopened
    exact hdrained (h _ (hlog _ hj') hreceive (reads_iff.mpr ⟨hopened, hstopping⟩))
  · rw [hinbox, Function.update_of_ne hj] at hopened ⊢
    exact h j' (hlog j' hj') hreceive (reads_iff.mpr ⟨hopened, hstopping⟩)

theorem Quiet.flowNodeReceive (h : G.Quiet s) (i : ℕ) (message : Bytes) (edge : Option ℕ) :
    G.Quiet (G.flowNodeReceive i message edge s) := by
  unfold LibReactor.FlowGraph.flowNodeReceive
  split_ifs
  · exact h.same (fun j hj => mem_of_record (s := s) hj (by simp)) rfl fun _ => id
  · exact h

theorem Quiet.flowNodeStop (h : G.Quiet s) {i : ℕ}
    (hdrained : (s.node i).started = true → (G.table i).destroy = true →
      (G.table i).receive = true → G.reads i s = true → G.drained i (s.inbox i) = true) :
    G.Quiet (G.flowNodeStop i s) := by
  unfold LibReactor.FlowGraph.flowNodeStop
  split_ifs with hstarted hdestroy
  · exact h
  · intro j hj hreceive hreads
    rcases (mem_record (s := s)).mp hj with hj | heq
    · exact h j hj hreceive hreads
    · obtain rfl := FlowCall.destroy.inj heq
      exact hdrained (Bool.eq_true_of_not_eq_false hstarted) hdestroy hreceive hreads
  · exact h

theorem Quiet.push (h : G.Quiet s) {i : ℕ} {message : Bytes} {inbox : ℕ → FlowInbox}
    (hlog : s'.log = s.log) (hphase : s'.phase = s.phase) (hinbox : s'.inbox = inbox)
    (hpushed : G.Pushed (G.queuedEdges i) message s.inbox inbox)
    (hquiet : ∀ k ∈ G.queuedEdges i, (G.table (G.target k)).receive = true →
      message ≠ nullMessage → .destroy (G.target k) ∈ s.log → G.reads (G.target k) s = false) :
    G.Quiet s' := by
  intro j hj hreceive hreads
  rw [hlog] at hj
  obtain ⟨hopened, hstopping⟩ := reads_iff.mp hreads
  rw [hphase] at hstopping
  rw [hinbox, hpushed.same j] at hopened
  rw [hinbox]
  have hreads' : G.reads j s = true := reads_iff.mpr ⟨hopened, hstopping⟩
  refine hpushed.drained ?_ (h j hj hreceive hreads')
  rintro k hk rfl
  by_contra hmessage
  have hfalse := hquiet k hk hreceive hmessage hj
  rw [hreads'] at hfalse
  cases hfalse

/-- The step lemma for messages on their way -/
theorem Quiet.step (h : G.Quiet s) (hbooted : G.Booted s) (hcounted : G.Counted s)
    (hl : G.timely s l = true) (hstep : G.step s l = some s') : G.Quiet s' := by
  have hnew : ∀ i, (s.node i).opened = false → .destroy i ∉ s.log := by
    intro i hopened hmem
    rw [hbooted.created i (hbooted.destroyed i hmem)] at hopened
    cases hopened
  cases step_cases hstep with
  | @create i b hi hphase hstack hopened hb =>
    refine h.setInbox (fun j hj => ?_) rfl rfl fun hdestroy => absurd hdestroy (hnew i hopened)
    exact mem_of_record (s := s) hj (by simp)
  | @start i b hi hphase hstack hopened hb =>
    refine h.setInbox (fun j hj => ?_) rfl rfl fun hdestroy => absurd hdestroy (hnew i hopened)
    exact mem_of_record (s := s) hj (by simp)
  | @enterLoop g hphase hstack hall =>
    refine h.same (fun _ => id) rfl fun g' hg' => ?_
    by_cases heq : g' = g
    · rw [heq, hphase]
      simp
    · exact fun hstopping => hg' ((Function.update_of_ne heq ..).trans hstopping)
  | @created g i rest hstack =>
    refine h.same (fun j hj => ?_) rfl fun _ => id
    exact mem_of_record (s := s) hj (by simp)
  | @exit i inbox hcallable hopened hpushed =>
    have hsame : G.Quiet { s with inbox := inbox, exited := Function.update s.exited i true } :=
      h.push rfl rfl rfl hpushed fun _ _ _ hnull => absurd rfl hnull
    refine hsame.flowNodeStop fun hstarted hdestroy hreceive hreads => ?_
    obtain ⟨hread, hstopping⟩ := reads_iff.mp hreads
    change (inbox i).consumer = .opened at hread
    rw [hpushed.same i] at hread
    have hdrained := (of_decide_eq_true hl hstarted hdestroy hreceive).2
      (reads_iff.mpr ⟨hread, hstopping⟩)
    exact hpushed.drained (fun _ _ _ => rfl) hdrained
  | @call g i k message ks rest hstack =>
    have hsame : G.Quiet (s.setStack g (.send i message ks :: rest)) :=
      h.same (fun _ => id) rfl fun _ => id
    exact hsame.flowNodeReceive _ _ _
  | @push g i message rest inbox hstack hopened hpushed =>
    have hl' : (decide (∀ k ∈ G.queuedEdges i, (G.table (G.target k)).receive = true →
        message ≠ nullMessage → .destroy (G.target k) ∈ s.log →
          ¬G.reads (G.target k) s = true)) = true := by
      simpa only [timely, hstack] using hl
    exact h.push rfl rfl rfl hpushed fun k hk hreceive hmessage hdestroy =>
      Bool.eq_false_of_not_eq_true (of_decide_eq_true hl' k hk hreceive hmessage hdestroy)
  | @message l g j rest q message ht hpopped hmessage =>
    have hhandled : G.Quiet ((s.setInbox j { s.inbox j with queue := q }).setStack g
        (.read j :: rest)) := by
      refine h.setInbox (fun _ => id) rfl rfl fun _ _ _ hopened => ⟨hopened, fun hdrained => ?_⟩
      rw [(hcounted.counts j).not_drained ht hpopped hmessage] at hdrained
      cases hdrained
    exact hhandled.flowNodeReceive _ _ _
  | @signOff l g j rest q ht hpopped =>
    obtain ⟨hopened, -, hpushed⟩ := ht.spec (hcounted.counts j)
    have hqueue := (signOff_same { s.inbox j with queue := q }).1
    refine h.setInbox (fun _ => id) rfl rfl fun _ _ _ _ =>
      ⟨hopened, drained_congr (fun k _ => ?_) ?_⟩
    · rw [hqueue, hpushed]
    · rw [FlowInbox.handled, hqueue, hpopped, List.countP_append]
      simp
  | @finish l g j rest q ht hpopped =>
    obtain ⟨hopened, -, hpushed⟩ := ht.spec (hcounted.counts j)
    refine h.setInbox (fun _ => id) rfl rfl fun _ _ _ _ =>
      ⟨hopened, drained_congr (fun k _ => by rw [hpushed]) ?_⟩
    exact congrArg (List.countP _) hpopped
  | @leaveLoop g hidle =>
    refine h.same (fun _ => id) rfl fun g' hg' hstopping => ?_
    by_cases heq : g' = g
    · rw [heq] at hg'
      exact hg' (Function.update_self ..)
    · exact hg' ((Function.update_of_ne heq ..).trans hstopping)
  | @stop i hi hphase hstack =>
    exact h.flowNodeStop fun _ _ _ hreads => absurd hphase (reads_iff.mp hreads).2
  | @fill j n q hopened hn hdvd hq =>
    have hhandled := congrFun (Queue.popped_step (by simp) (by simp) hq).1 0
    refine h.setInbox (fun _ => id) rfl rfl fun _ _ _ hopened =>
      ⟨hopened, drained_congr (fun k _ => ?_) (congrArg (List.countP _) hhandled)⟩
    rw [(Queue.step_same hq).2 (by simp)]
  | @queue j l q hl' hq =>
    obtain ⟨-, hpush, hdeliver, hnext⟩ := asynchronous_cases (hcounted.counts j) hl'
    have hhandled := congrFun (Queue.popped_step hdeliver hnext hq).1 0
    refine h.setInbox (fun _ => id) rfl rfl fun _ _ _ hopened =>
      ⟨hopened, drained_congr (fun k _ => ?_) (congrArg (List.countP _) hhandled)⟩
    rw [(Queue.step_same hq).2 hpush]
  | event | returned | send | exitFailed | pushFailed | abort | readFailed =>
    exact h.same (fun _ => id) rfl fun _ => id

/-! ## Runs -/

theorem Orderly.flowNodeReceive {i : ℕ} {message : Bytes} {edge : Option ℕ} (h : Orderly s.log)
    (halive : (G.table i).receive = true → alive i s.log = true) :
    Orderly (G.flowNodeReceive i message edge s).log := by
  unfold LibReactor.FlowGraph.flowNodeReceive
  split_ifs with hreceive
  · refine Orderly.record h fun i' heq => ?_
    obtain rfl := FlowCall.receive.inj heq
    exact halive hreceive
  · exact h

theorem Orderly.flowNodeStop {i : ℕ} (h : Orderly s.log) : Orderly (G.flowNodeStop i s).log := by
  unfold LibReactor.FlowGraph.flowNodeStop
  split_ifs
  · exact h
  · exact Orderly.record h (by simp)
  · exact h

structure Living (G : FlowGraph) (s : FlowState) : Prop where
  booted : G.Booted s
  calling : G.Calling s
  counted : G.Counted s
  quiet : G.Quiet s
  orderly : Orderly s.log
  failure : s.failure ≠ some .unopenedProducer

theorem Living.created (h : G.Living s) {g j : ℕ} {rest : List FlowFrame} {q : Queue}
    (hturn : G.Turn s l g j rest q) : .created j ∈ s.log ∧ s.phase (G.group j) ≠ .stopping := by
  obtain ⟨rfl, hj, hphase⟩ := h.calling.turn hturn
  refine ⟨h.booted.phase _ ?_ j hj rfl, ?_⟩
  · rw [hphase]
    simp
  · rw [hphase]
    simp

/-- A node that is given a message from its queue is alive. -/
theorem Living.alive_of_message (h : G.Living s) {g j : ℕ} {rest : List FlowFrame} {q : Queue}
    {message : Bytes} (hturn : G.Turn s l g j rest q)
    (hpopped : q.popped 0 = (s.inbox j).handled ++ [message]) (hmessage : message ≠ nullMessage)
    (hreceive : (G.table j).receive = true) : alive j s.log = true := by
  obtain ⟨hcreated, hphase⟩ := h.created hturn
  refine alive_iff.mpr ⟨hcreated, fun hdestroy => ?_⟩
  have hopened := (hturn.spec (h.counted.counts j)).1
  have hdrained := h.quiet j hdestroy hreceive (reads_iff.mpr ⟨hopened, hphase⟩)
  rw [(h.counted.counts j).not_drained hturn hpopped hmessage] at hdrained
  cases hdrained

theorem Living.orderly_step (h : G.Living s) (hstep : G.step s l = some s') :
    Orderly s'.log := by
  cases step_cases hstep with
  | create => exact h.orderly.record (by simp)
  | start => exact h.orderly.record (by simp)
  | created => exact h.orderly.record (by simp)
  | exit => exact Orderly.flowNodeStop h.orderly
  | @call g i k message ks rest hstack =>
    refine Orderly.flowNodeReceive h.orderly fun hreceive => ?_
    have hmem := mem_innermost hstack
    exact (h.calling.target g i message _ hmem k (List.mem_cons_self ..)).2 hreceive
  | message ht hpopped hmessage =>
    refine Orderly.flowNodeReceive h.orderly fun hreceive => ?_
    exact h.alive_of_message ht hpopped hmessage hreceive
  | stop => exact Orderly.flowNodeStop h.orderly
  | enterLoop | event | returned | send | exitFailed | push | pushFailed | abort | signOff
  | finish | readFailed | leaveLoop | fill | queue => exact h.orderly

/-- A producer that is pushed to is open. -/
theorem Living.failure_step (h : G.Living s) (hstep : G.step s l = some s') :
    s'.failure ≠ some .unopenedProducer := by
  cases step_cases hstep with
  | @exitFailed i hcallable hqueued hopened =>
    rw [h.booted.known i (Bool.and_eq_true_iff.mp hcallable).1] at hopened
    cases hopened
  | @pushFailed g i message rest hstack hqueued hopened =>
    have hmem := mem_innermost hstack
    rw [h.calling.sender g i message [] hmem] at hopened
    cases hopened
  | readFailed => simp [FlowState.fail]
  | exit =>
    rw [(flowNodeStop_same _ _).2.2.1]
    exact h.failure
  | stop =>
    rw [(flowNodeStop_same _ _).2.2.1]
    exact h.failure
  | call =>
    rw [(flowNodeReceive_same _ _ _ _).2.2]
    exact h.failure
  | message =>
    rw [(flowNodeReceive_same _ _ _ _).2.2]
    exact h.failure
  | create | start | created | enterLoop | event | returned | send | push | abort | signOff
  | finish | leaveLoop | fill | queue => exact h.failure

/-- The step lemma -/
theorem Living.step (h : G.Living s) (hl : G.timely s l = true) (hstep : G.step s l = some s') :
    G.Living s' where
  booted := by
    refine h.booted.step (fun g i message k ks hmem hreceive => ?_)
      (fun hturn => (h.created hturn).1) hstep
    have halive := (h.calling.target g i message _ hmem k (List.mem_cons_self ..)).2 hreceive
    exact (alive_iff.mp halive).1
  calling := h.calling.step h.booted hl hstep
  counted := h.counted.step hstep
  quiet := h.quiet.step h.booted h.counted hl hstep
  orderly := h.orderly_step hstep
  failure := h.failure_step hstep

/-- In every timely run `receive` is called between `create` and `destroy`, and no message is
pushed to a producer that has not been opened. -/
theorem flow_lifeCycle (G : FlowGraph) {s : FlowState}
    (h : Reach G.step (fun s l => G.timely s l = true) G.initial s) :
    Orderly s.log ∧ s.failure ≠ some .unopenedProducer := by
  have hliving : G.Living s := by
    refine h.invariant ?_ fun _ _ _ ih hl hstep => ih.step hl hstep
    refine ⟨booted_initial G, calling_initial G, counted_initial G, fun _ hj => ?_, ?_, nofun⟩
    · cases hj
    · intro before i after hsplit
      exact absurd hsplit.symm (by simp [initial])
  exact ⟨hliving.orderly, hliving.failure⟩

def chain : FlowGraph where
  nodes := 3
  group i := i / 2
  table _ := ⟨true, true, true⟩
  edges := 2
  source k := k
  target k := k + 1
  connected k hk := ⟨by omega, by omega⟩

/-- A message goes down the chain while the nodes live, and its first node exits. -/
theorem flow_lifeCycle_chain : ∃ s : FlowState, .receive 1 ∈ s.log ∧ .receive 2 ∈ s.log ∧
    .destroy 0 ∈ s.log ∧ Orderly s.log := by
  have hrun : (exec (guarded chain.step fun s l => chain.timely s l = true) chain.initial
      [.start 0, .ret 0, .start 1, .ret 0, .enterLoop 0, .start 2, .ret 1, .enterLoop 1, .event 0,
        .send 0 aMessage, .next 0, .send 1 aMessage, .next 0, .ret 0, .next 0, .exit 0,
        .queue 2 (.accept 1 8), .fill 2 8, .read 2]).any (fun s =>
          .receive 1 ∈ s.log ∧ .receive 2 ∈ s.log ∧ .destroy 0 ∈ s.log) = true := by
    decide
  obtain ⟨s, hs, hlog⟩ := (Option.any_eq_true _ _).mp hrun
  obtain ⟨hreceive, hreceive', hdestroy⟩ := of_decide_eq_true hlog
  exact ⟨s, hreceive, hreceive', hdestroy, (flow_lifeCycle chain (Reach.of_guarded hs)).1⟩

/-- The first node of the chain sends from its `create`, before the second has been started, and
that one sends in turn. -/
theorem flow_lifeCycle_broken :
    (¬∀ (G : FlowGraph) (s : FlowState), Reach G.step (fun _ _ => True) G.initial s →
      Orderly s.log) ∧
    ¬∀ (G : FlowGraph) (s : FlowState), Reach G.step (fun _ _ => True) G.initial s →
      s.failure ≠ some .unopenedProducer := by
  have hrun : (exec chain.step chain.initial [.start 0, .send 0 aMessage, .next 0,
      .send 1 aMessage, .next 0]).any (fun s => s.log = [.create 0, .receive 1] ∧
        s.failure = some .unopenedProducer) = true := by
    decide
  obtain ⟨s, hs, hlog⟩ := (Option.any_eq_true _ _).mp hrun
  obtain ⟨hlog, hfailure⟩ := of_decide_eq_true hlog
  have hreach : Reach chain.step (fun _ _ => True) chain.initial s :=
    Reach.of_exec (fun _ _ => trivial) hs
  refine ⟨fun hall => ?_, fun hall => hall chain s hreach hfailure⟩
  have horderly := hall chain s hreach [.create 0] 1 [] hlog
  exact absurd horderly.1 (by decide)

end LibReactor.FlowGraph
