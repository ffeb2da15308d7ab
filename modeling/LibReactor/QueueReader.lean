import LibReactor.MarkedStreams
import LibReactor.QueueDelivery

/-!
# Queues with one reader

What a consumer takes out of the pipe is what it has given to its user and what its input
buffer still has. With one reader this sequence is drawn from the elements pushed to the
producers.
-/

namespace LibReactor.Queue

open Transition

variable {q q' : Queue} {l : QueueLabel}

def taken (q : Queue) (j : ℕ) : List Bytes := q.popped j ++ q.held j

/-! ## What a step adds -/

theorem taken_give {j : ℕ} {x : Consumer × List Bytes}
    (hheld : x.2 ++ x.1.held q.elementSize = q.held j) (i : ℕ) :
    (q.give j x).taken i = q.taken i := by
  refine (congrArg (Function.update q.popped j (q.popped j ++ x.2) i ++ ·)
    (held_setConsumer q j x.1 i)).trans ?_
  rw [Function.update_apply, taken]
  split_ifs with hi
  · rw [hi, List.append_assoc, hheld]
  · rfl

theorem taken_completeWrite (k : ℕ) (result : ℤ) (i : ℕ) :
    (q.completeWrite k result).taken i = q.taken i := by
  unfold completeWrite
  cases producerWrite q.elementSize result (q.producer k) with
  | none => rfl
  | some p => rfl

theorem taken_step (hwhole : ∀ j, (q.consumer j).Whole q.elementSize)
    (hl : ∀ j n, l ≠ .fill j n) (hstep : q.step l = some q') (i : ℕ) : q'.taken i = q.taken i := by
  cases l with
  | push k d =>
    obtain ⟨-, rfl⟩ := step_push hstep
    rfl
  | pop j =>
    rw [step_pop hstep, ← give_nil]
    exact taken_give (x := (consumerUpdate (q.consumer j), [])) (hwhole j).update.2 i
  | accept k n =>
    obtain ⟨w, -, -, -, rfl⟩ := step_accept hstep
    rfl
  | wrote k =>
    obtain ⟨w, -, -, rfl⟩ := step_wrote hstep
    exact taken_completeWrite k _ i
  | writeInterrupted k =>
    obtain ⟨w, -, -, rfl⟩ := step_writeInterrupted hstep
    exact taken_completeWrite k _ i
  | fill j n => exact absurd rfl (hl j n)
  | deliver j =>
    obtain ⟨n, hread, -, rfl⟩ := step_deliver hstep
    obtain ⟨x, hx, -, hheld⟩ := (hwhole j).read hread
    rw [completeRead, hx]
    exact taken_give hheld i
  | next j =>
    obtain ⟨offset, result, hloop, rfl⟩ := step_next hstep
    exact taken_give ((hwhole j).turn hloop).2 i
  | readInterrupted j =>
    obtain ⟨hread, -, rfl⟩ := step_readInterrupted hstep
    rw [completeRead, (hwhole j).interrupted hread]
    exact taken_give rfl i

theorem taken_fill {j n i : ℕ} (hi : i ≠ j) (hstep : q.step (.fill j n) = some q') :
    q'.taken i = q.taken i := by
  obtain ⟨-, -, rfl⟩ := step_fill hstep
  refine congrArg (q.popped i ++ ·) ((held_setConsumer q j _ i).trans ?_)
  rw [if_neg hi]

theorem loop_consumerUpdate (c : Consumer) : (consumerUpdate c).loop = c.loop := by
  unfold consumerUpdate
  split <;> rfl

theorem loop_setConsumer {j : ℕ} {c : Consumer} (hc : c.loop = (q.consumer j).loop) (j' : ℕ) :
    ((q.setConsumer j c).consumer j').loop = (q.consumer j').loop := by
  rw [consumer_setConsumer]
  split_ifs with hj
  · rw [hj, hc]
  · rfl

/-- Only the loop of `queue_consumer_read` gives elements to the user. -/
theorem popped_step (hdeliver : ∀ j, l ≠ .deliver j) (hnext : ∀ j, l ≠ .next j)
    (hstep : q.step l = some q') :
    q'.popped = q.popped ∧ ∀ j, (q'.consumer j).loop = (q.consumer j).loop := by
  have hcompleteWrite : ∀ k result, (q.completeWrite k result).popped = q.popped ∧
      (q.completeWrite k result).consumer = q.consumer := by
    intro k result
    unfold completeWrite
    cases producerWrite q.elementSize result (q.producer k) with
    | none => exact ⟨rfl, rfl⟩
    | some p => exact ⟨rfl, rfl⟩
  cases l with
  | push k d =>
    obtain ⟨-, rfl⟩ := step_push hstep
    exact ⟨rfl, fun _ => rfl⟩
  | pop j =>
    rw [step_pop hstep]
    exact ⟨rfl, loop_setConsumer (loop_consumerUpdate _)⟩
  | accept k n =>
    obtain ⟨w, -, -, -, rfl⟩ := step_accept hstep
    exact ⟨rfl, fun _ => rfl⟩
  | wrote k =>
    obtain ⟨w, -, -, rfl⟩ := step_wrote hstep
    obtain ⟨hpopped, hconsumer⟩ := hcompleteWrite k w.accepted
    exact ⟨hpopped, fun _ => by rw [hconsumer]⟩
  | writeInterrupted k =>
    obtain ⟨w, -, -, rfl⟩ := step_writeInterrupted hstep
    obtain ⟨hpopped, hconsumer⟩ := hcompleteWrite k (-eintr)
    exact ⟨hpopped, fun _ => by rw [hconsumer]⟩
  | fill j n =>
    obtain ⟨-, -, rfl⟩ := step_fill hstep
    exact ⟨rfl, loop_setConsumer (j := j) (c := { q.consumer j with
      read := .filled n, input := q.pipe.take n ++ (q.consumer j).input.drop n }) rfl⟩
  | deliver j => exact absurd rfl (hdeliver j)
  | next j => exact absurd rfl (hnext j)
  | readInterrupted j =>
    obtain ⟨-, -, rfl⟩ := step_readInterrupted hstep
    unfold completeRead consumerRead
    rw [if_pos rfl]
    dsimp only
    rw [give_nil]
    exact ⟨rfl, loop_setConsumer (loop_consumerUpdate _)⟩

theorem popped_give (j : ℕ) (x : Consumer × List Bytes) :
    (q.give j x).popped j = q.popped j ++ x.2 := Function.update_self ..

theorem consumerTurn_cases (E offset result : ℕ) (c : Consumer) :
    (∃ d, (consumerTurn E offset result c).2 = [d]) ∨
      (consumerTurn E offset result c).2 = [] ∧
        (consumerTurn E offset result c).1.loop = none := by
  unfold consumerTurn
  split_ifs
  · exact .inl ⟨_, rfl⟩
  · refine .inr ⟨rfl, ?_⟩
    rcases Consumer.consumerUpdate_cases { c with loop := none } with ⟨-, hsame⟩ | ⟨-, harmed⟩
    · rw [hsame]
    · rw [harmed]

theorem popped_turn {j : ℕ} (hl : l = .deliver j ∨ l = .next j) (hstep : q.step l = some q') :
    (∃ d, q'.popped j = q.popped j ++ [d]) ∨
      q'.popped j = q.popped j ∧ (q'.consumer j).loop = none := by
  have hturn : ∀ E offset result c, q' = q.give j (consumerTurn E offset result c) →
      (∃ d, q'.popped j = q.popped j ++ [d]) ∨
        q'.popped j = q.popped j ∧ (q'.consumer j).loop = none := by
    rintro E offset result c rfl
    rw [popped_give]
    rcases consumerTurn_cases E offset result c with ⟨d, hd⟩ | ⟨hnil, hloop⟩
    · exact .inl ⟨d, by rw [hd]⟩
    · refine .inr ⟨by rw [hnil, List.append_nil], ?_⟩
      exact (congrArg Consumer.loop (Function.update_self ..)).trans hloop
  rcases hl with rfl | rfl
  · obtain ⟨n, hread, hloop, rfl⟩ := step_deliver hstep
    have hne : ¬(n : ℤ) = -eintr := by
      unfold eintr
      omega
    unfold completeRead consumerRead at hturn ⊢
    rw [if_neg hne] at hturn ⊢
    split_ifs at hturn ⊢
    · exact hturn _ _ _ _ rfl
    · exact .inr ⟨rfl, hloop⟩
  · obtain ⟨offset, result, -, rfl⟩ := step_next hstep
    exact hturn _ _ _ _ rfl

/-! ## Runs -/

/-- Whole elements enter and leave the pipe, these go to one consumer, and none pops inside its
batch. -/
def SoleReader (q : Queue) : QueueLabel → Prop
  | .accept _ n => q.elementSize ∣ n
  | .fill j n => j = 0 ∧ 0 < n ∧ q.elementSize ∣ n
  | .pop j => (q.consumer j).loop = none
  | _ => True

/-- No read is in flight while the user is given a batch. -/
def Calm (q : Queue) : Prop := ∀ j, (q.consumer j).loop ≠ none → (q.consumer j).read = .none

theorem Calm.setConsumer (h : q.Calm) {j : ℕ} {c : Consumer} (hc : c.loop ≠ none → c.read = .none) :
    (q.setConsumer j c).Calm := by
  intro j'
  rw [consumer_setConsumer]
  split_ifs
  · exact hc
  · exact h j'

theorem Calm.turn {E offset result : ℕ} {c : Consumer} (hread : c.read = .none) :
    (consumerTurn E offset result c).1.loop ≠ none →
      (consumerTurn E offset result c).1.read = .none := by
  unfold consumerTurn
  split_ifs
  · exact fun _ => hread
  · intro hloop
    rw [loop_consumerUpdate] at hloop
    exact absurd rfl hloop

theorem Calm.completeRead (h : q.Calm) {j : ℕ} {result : ℤ} (hloop : (q.consumer j).loop = none) :
    (q.completeRead j result).Calm := by
  unfold Queue.completeRead
  cases hread : consumerRead q.elementSize result (q.consumer j) with
  | none => exact h
  | some x =>
    refine h.setConsumer ?_
    unfold consumerRead at hread
    dsimp only at hread
    split_ifs at hread
    · cases hread
      intro hloop'
      rw [loop_consumerUpdate] at hloop'
      exact absurd hloop hloop'
    · cases hread
      exact Calm.turn rfl

theorem Calm.step (h : q.Calm) (hl : q.SoleReader l) (hstep : q.step l = some q') : q'.Calm := by
  cases l with
  | push k d =>
    obtain ⟨-, rfl⟩ := step_push hstep
    exact h
  | pop j =>
    rw [step_pop hstep]
    refine h.setConsumer fun hloop => ?_
    rw [loop_consumerUpdate] at hloop
    exact absurd hl hloop
  | accept k n =>
    obtain ⟨w, -, -, -, rfl⟩ := step_accept hstep
    exact h
  | wrote k =>
    obtain ⟨w, -, -, rfl⟩ := step_wrote hstep
    unfold completeWrite
    cases producerWrite q.elementSize w.accepted (q.producer k) <;> exact h
  | writeInterrupted k =>
    obtain ⟨w, -, -, rfl⟩ := step_writeInterrupted hstep
    unfold completeWrite
    cases producerWrite q.elementSize (-eintr) (q.producer k) <;> exact h
  | fill j n =>
    obtain ⟨harmed, -, rfl⟩ := step_fill hstep
    refine h.setConsumer (j := j) (c := { q.consumer j with
      read := .filled n, input := q.pipe.take n ++ (q.consumer j).input.drop n }) fun hloop => ?_
    rw [h j hloop] at harmed
    cases harmed
  | deliver j =>
    obtain ⟨n, -, hloop, rfl⟩ := step_deliver hstep
    exact h.completeRead hloop
  | next j =>
    obtain ⟨offset, result, hloop, rfl⟩ := step_next hstep
    exact h.setConsumer (Calm.turn (h j (by rw [hloop]; exact Option.some_ne_none _)))
  | readInterrupted j =>
    obtain ⟨-, hloop, rfl⟩ := step_readInterrupted hstep
    exact h.completeRead hloop

variable {elementSize : ℕ} {batchSize : ℕ → ℕ}

structure ReadBy (elementSize : ℕ) (batchSize : ℕ → ℕ) (q : Queue) : Prop where
  underway : ∃ taken inPipe unsent, q.Underway taken inPipe unsent
  configured : q.Configured elementSize batchSize
  calm : q.Calm
  other : ∀ j, j ≠ 0 → q.taken j = []

theorem ReadBy.whole (h : q.ReadBy elementSize batchSize) (j : ℕ) :
    (q.consumer j).Whole q.elementSize := by
  obtain ⟨_, _, _, hunderway⟩ := h.underway
  exact hunderway.consumers j

/-- Its steps are aligned, where 128 elements have less than 2^32 bytes. -/
theorem ReadBy.aligned (h : q.ReadBy elementSize batchSize) (hsmall : elementSize * 128 < 2 ^ 32)
    (hl : q.SoleReader l) (hstep : q.step l = some q') : q.Aligned l := by
  obtain ⟨_, _, _, hunderway⟩ := h.underway
  cases l with
  | accept k n => exact hl
  | wrote k =>
    intro w hw
    refine Nat.ne_of_gt ((hunderway.fits k).size w hw ?_).1
    rw [h.configured.elementSize]
    exact hsmall
  | fill j n =>
    obtain ⟨harmed, -, -⟩ := step_fill hstep
    refine ⟨hl.2.1, hl.2.2, ?_⟩
    have hloop : (q.consumer j).loop = none := by
      by_contra hloop
      rw [h.calm j hloop] at harmed
      cases harmed
    rw [Consumer.given, hloop]
  | _ => trivial

theorem ReadBy.step (h : q.ReadBy elementSize batchSize) (hsmall : elementSize * 128 < 2 ^ 32)
    (hl : q.SoleReader l) (hstep : q.step l = some q') : q'.ReadBy elementSize batchSize := by
  obtain ⟨_, _, _, hunderway⟩ := h.underway
  refine ⟨hunderway.step (h.aligned hsmall hl hstep) hstep, h.configured.step hstep,
    h.calm.step hl hstep, fun j hj => Eq.trans ?_ (h.other j hj)⟩
  by_cases hfill : ∃ i n, l = .fill i n
  · obtain ⟨i, n, rfl⟩ := hfill
    obtain ⟨rfl, -⟩ := hl
    exact taken_fill hj hstep
  · exact taken_step h.whole (fun i n hi => hfill ⟨i, n, hi⟩) hstep j

/-- The run lemma of a queue with one reader. -/
theorem readBy_of_reach (hsmall : elementSize * 128 < 2 ^ 32)
    (h : Reach step SoleReader (opened elementSize batchSize) q) :
    q.ReadBy elementSize batchSize := by
  refine h.invariant ?_ fun _ _ _ ih hl hstep => ih.step hsmall hl hstep
  refine ⟨⟨_, _, _, underway_opened elementSize batchSize⟩, ⟨rfl, fun _ => rfl⟩,
    fun _ hloop => absurd rfl hloop, fun j _ => ?_⟩
  exact (List.nil_append _).trans
    ((Consumer.held_of_read fun _ hread => by cases hread).trans elementsOf_nil)

/-- What the reader takes is drawn from what the producers are given. -/
theorem ReadBy.drawn (h : q.ReadBy elementSize batchSize) :
    ∃ drawn : List (ℕ × Bytes), Drawn q.pushed drawn ∧ drawn.map Prod.snd = q.taken 0 := by
  obtain ⟨_, _, _, hunderway⟩ := h.underway
  obtain ⟨-, taken, hpushed, htaken⟩ := hunderway.delivers
  have hreader : ∀ x ∈ taken, x.1 = 0 := by
    intro x hx
    by_contra hne
    have hnil := (htaken x.1).trans (h.other x.1 hne)
    have hmem : x.2.2 ∈ (taken.filter fun y => y.1 = x.1).map fun y => y.2.2 :=
      List.mem_map.mpr ⟨x, List.mem_filter.mpr ⟨hx, decide_eq_true rfl⟩, rfl⟩
    rw [hnil] at hmem
    cases hmem
  refine ⟨taken.map Prod.snd, fun i => ?_, ?_⟩
  · have hpart : part i (taken.map Prod.snd) =
        (taken.filter fun x => x.2.1 = i).map fun x => x.2.2 := by
      rw [part, List.filter_map, List.map_map]
      rfl
    rw [hpart]
    exact hpushed i
  · have hall : taken.filter (fun x => x.1 = 0) = taken :=
      List.filter_eq_self.mpr fun x hx => decide_eq_true (hreader x hx)
    have hzero := htaken 0
    rw [hall] at hzero
    rw [List.map_map]
    exact hzero

theorem pushed_push {k : ℕ} {d : Bytes} (hstep : q.step (.push k d) = some q') (i : ℕ) :
    q'.pushed i = q.pushed i ++ if i = k then [d] else [] := by
  obtain ⟨-, rfl⟩ := step_push hstep
  refine (Function.update_apply ..).trans ?_
  split_ifs with hi
  · rw [hi]
  · rw [List.append_nil]

end LibReactor.Queue
