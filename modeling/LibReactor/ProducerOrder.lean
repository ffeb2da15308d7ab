import LibReactor.QueueDelivery

/-!
# The order in which a producer writes

An open producer with pushes and with writes that are interrupted or take any number of whole
elements. What was acknowledged, the rest of the output and the queued output are the elements
that were pushed, and something that is not acknowledged is being written. The length that is
written is of whole elements as long as 128 of them have less than 2^32 bytes.
-/

namespace LibReactor

open Transition

/-- A producer, the elements that were pushed to it, and the bytes that the kernel took. -/
structure ProducerRun where
  producer : Producer
  pushed : List Bytes
  acknowledged : Bytes

inductive ProducerLabel
  | push (element : Bytes)
  | interrupted
  /-- a write that takes `n` elements -/
  | wrote (n : ℕ)

namespace ProducerRun

def opened : ProducerRun := ⟨⟨[], 0, [], none⟩, [], []⟩

def step (elementSize : ℕ) (r : ProducerRun) : ProducerLabel → Option ProducerRun
  | .push element =>
    if element.length = elementSize then
      some ⟨producerPush elementSize element r.producer, r.pushed ++ [element], r.acknowledged⟩
    else none
  | .interrupted => do
    let _ ← r.producer.write
    let p ← producerWrite elementSize (-eintr) r.producer
    return { r with producer := p }
  | .wrote n => do
    let w ← r.producer.write
    if 0 < n ∧ n * elementSize ≤ w.size then
      let p ← producerWrite elementSize (n * elementSize) r.producer
      return { r with producer := p
                      acknowledged := r.acknowledged ++
                        (r.producer.output.drop r.producer.outputOffset).take (n * elementSize) }
    else none

end ProducerRun

namespace Producer

variable {E : ℕ} {p : Producer}

def unacknowledged (p : Producer) : Bytes := p.output.drop p.outputOffset ++ p.outputQueued

structure Busy (elementSize : ℕ) (p : Producer) : Prop where
  size : p.write.isSome = true → 0 < elementSize
  busy : p.unacknowledged ≠ [] → p.write.isSome = true

theorem producerUpdate_of_write (h : p.write.isSome = true) : producerUpdate E p = p :=
  if_pos h

theorem exists_elements {size : ℕ} (hpos : 0 < size) (hdvd : E ∣ size) (hmax : size ≤ E * 128) :
    ∃ n, 0 < n ∧ n ≤ 128 ∧ size = n * E := by
  obtain ⟨n, rfl⟩ := hdvd
  have hn : 0 < n := Nat.pos_of_mul_pos_left hpos
  have hE : 0 < E := Nat.pos_of_mul_pos_right hpos
  exact ⟨n, hn, Nat.le_of_mul_le_mul_left hmax hE, Nat.mul_comm E n⟩

/-- With no write in flight `queue_producer_update` arms one, or there is nothing to write. -/
theorem producerUpdate_idle (h : p.Fits E) (hnone : p.write = none) :
    (producerUpdate E p).unacknowledged = p.unacknowledged ∧ (producerUpdate E p).Fits E ∧
      (producerUpdate E p).Busy E := by
  obtain ⟨-, hfits⟩ := h.producerUpdate
  suffices harms : (producerUpdate E p).unacknowledged = p.unacknowledged ∧
      (producerUpdate E p).Busy E from ⟨harms.1, hfits, harms.2⟩
  unfold producerUpdate
  rw [if_neg (by simp [hnone])]
  by_cases hend : p.outputOffset = p.output.length
  · have hrest : p.unacknowledged = p.outputQueued := by
      rw [unacknowledged, hend, List.drop_length, List.nil_append]
    rw [if_pos hend]
    by_cases hempty : p.outputQueued = []
    · rw [if_pos hempty, hrest, hempty]
      refine ⟨rfl, fun hsome => ?_, fun hne => absurd rfl hne⟩
      rw [hnone] at hsome
      cases hsome
    · rw [if_neg hempty, hrest]
      have hpos : 0 < p.outputQueued.length := List.length_pos_iff.mpr hempty
      exact ⟨List.append_nil _, fun _ => Nat.pos_of_dvd_of_pos h.whole.2.2 hpos, fun _ => rfl⟩
  · have hlt : p.outputOffset < p.output.length := Nat.lt_of_le_of_ne h.offset hend
    have hpos : 0 < p.output.length := Nat.zero_lt_of_lt hlt
    rw [if_neg hend, if_neg (List.ne_nil_of_length_pos hpos)]
    exact ⟨rfl, fun _ => Nat.pos_of_dvd_of_pos h.whole.2.1 hpos, fun _ => rfl⟩

theorem producerPush_of_write (h : p.write.isSome = true) (d : Bytes) :
    producerPush E d p = { p with outputQueued := p.outputQueued ++ d } :=
  producerUpdate_of_write h

theorem Busy.push (h : p.Fits E) (hbusy : p.Busy E) {d : Bytes} (hd : d.length = E) :
    (producerPush E d p).unacknowledged = p.unacknowledged ++ d ∧ (producerPush E d p).Fits E ∧
      (producerPush E d p).Busy E := by
  obtain ⟨-, hfits⟩ := h.producerPush hd
  have happend : ({ p with outputQueued := p.outputQueued ++ d } : Producer).unacknowledged =
      p.unacknowledged ++ d := (List.append_assoc ..).symm
  by_cases hwrite : p.write.isSome = true
  · rw [producerPush_of_write hwrite] at hfits ⊢
    exact ⟨happend, hfits, hbusy.size, fun _ => hwrite⟩
  · have hnone : p.write = none := by simpa using hwrite
    have hqueued : E ∣ (p.outputQueued ++ d).length := by
      rw [List.length_append, hd]
      exact Nat.dvd_add h.whole.2.2 (Nat.dvd_refl E)
    obtain ⟨hsame, -, hbusy'⟩ := producerUpdate_idle (E := E)
      (p := { p with outputQueued := p.outputQueued ++ d })
      ⟨h.offset, ⟨h.whole.1, h.whole.2.1, hqueued⟩, h.write, h.size⟩ hnone
    exact ⟨hsame.trans happend, hfits, hbusy'⟩

/-- A write is interrupted and written again. -/
theorem producerWrite_interrupted (h : p.Fits E) :
    ∃ p', producerWrite E (-eintr) p = some p' ∧ p'.unacknowledged = p.unacknowledged ∧
      p'.Fits E ∧ p'.Busy E :=
  ⟨_, by rw [producerWrite, if_pos rfl], producerUpdate_idle (p := { p with write := none })
    ⟨h.offset, h.whole, nofun, nofun⟩ rfl⟩

theorem producerWrite_eq (hE : 0 < E) {n : ℕ} (hn : 0 < n) (p : Producer) :
    producerWrite E (n * E) p = some (producerUpdate E
      ⟨p.output, p.outputOffset + n * E, p.outputQueued, none⟩) := by
  have hpos : 0 < n * E := Nat.mul_pos hn hE
  have hcast : ((n : ℤ) * E) = (n * E : ℕ) := (Nat.cast_mul n E).symm
  have hne : ¬((n * E : ℕ) : ℤ) = -eintr := by
    unfold eintr
    omega
  have hmod : ((n * E : ℕ) : ℤ) % E = 0 := by
    rw [← Int.natCast_mod, Nat.mul_mod_left]
    rfl
  rw [producerWrite, hcast, if_neg hne, if_pos ⟨by omega, hmod⟩, Int.toNat_natCast]

/-- A write takes some of the elements that were offered. -/
theorem producerWrite_elements (h : p.Fits E) (hbusy : p.Busy E) {w : PipeWrite}
    (hw : p.write = some w) {n : ℕ} (hn : 0 < n) (hle : n * E ≤ w.size) :
    ∃ p', producerWrite E (n * E) p = some p' ∧
      (p.output.drop p.outputOffset).take (n * E) ++ p'.unacknowledged = p.unacknowledged ∧
      p'.Fits E ∧ p'.Busy E := by
  have hE : 0 < E := hbusy.size (by rw [hw]; rfl)
  have hfits : (⟨p.output, p.outputOffset + n * E, p.outputQueued, none⟩ : Producer).Fits E := by
    have hlength := (h.write w hw).1
    refine ⟨?_, ⟨Nat.dvd_add h.whole.1 (Nat.dvd_mul_left E n), h.whole.2⟩, nofun, nofun⟩
    dsimp only
    omega
  obtain ⟨hsame, hfits', hbusy⟩ := producerUpdate_idle hfits rfl
  refine ⟨_, producerWrite_eq hE hn p, ?_, hfits', hbusy⟩
  rw [hsame, unacknowledged, unacknowledged, ← List.append_assoc, ← List.drop_drop,
    List.take_append_drop]

end Producer

namespace ProducerRun

variable {E : ℕ} {r r' : ProducerRun}

structure Ordered (elementSize : ℕ) (r : ProducerRun) : Prop where
  fits : r.producer.Fits elementSize
  busy : r.producer.Busy elementSize
  order : r.acknowledged ++ r.producer.unacknowledged = r.pushed.flatten

theorem ordered_opened : opened.Ordered E :=
  ⟨⟨Nat.le_refl 0, ⟨Nat.dvd_zero E, Nat.dvd_zero E, Nat.dvd_zero E⟩, nofun, nofun⟩,
    ⟨nofun, fun h => absurd rfl h⟩, rfl⟩

theorem Ordered.of_step {l : ProducerLabel} (h : r.Ordered E) (hstep : step E r l = some r') :
    r'.Ordered E := by
  cases l with
  | push element =>
    obtain ⟨hlength, hstep⟩ := Option.ite_none_right_eq_some.mp hstep
    obtain rfl := Option.some.inj hstep
    obtain ⟨happend, hfits, hbusy⟩ := Producer.Busy.push h.fits h.busy hlength
    refine ⟨hfits, hbusy, ?_⟩
    rw [happend, ← List.append_assoc, h.order, List.flatten_append, List.flatten_singleton]
  | interrupted =>
    obtain ⟨p', hwrite, hsame, hfits, hbusy⟩ := Producer.producerWrite_interrupted h.fits
    simp only [step, hwrite] at hstep
    obtain ⟨w, -, hstep⟩ := Option.bind_eq_some_iff.mp hstep
    obtain rfl := Option.some.inj hstep
    exact ⟨hfits, hbusy, (congrArg (r.acknowledged ++ ·) hsame).trans h.order⟩
  | wrote n =>
    obtain ⟨w, hw, hstep⟩ := Option.bind_eq_some_iff.mp hstep
    obtain ⟨⟨hn, hle⟩, hstep⟩ := Option.ite_none_right_eq_some.mp hstep
    obtain ⟨p', hwrite, hsplit, hfits, hbusy⟩ :=
      Producer.producerWrite_elements h.fits h.busy hw hn hle
    rw [hwrite] at hstep
    obtain rfl := Option.some.inj hstep
    refine ⟨hfits, hbusy, ?_⟩
    rw [List.append_assoc, hsplit, h.order]

theorem Ordered.of_reach (h : Reach (step E) (fun _ _ => True) opened r) : r.Ordered E :=
  h.invariant ordered_opened fun _ _ _ hr _ hstep => hr.of_step hstep

/-- What was acknowledged and what was not are the elements that were pushed, a write in flight
starts at the first byte that is not acknowledged, no push changes it, one is in flight while there
is something to write, and no assertion fails. -/
structure InOrder (elementSize : ℕ) (r : ProducerRun) : Prop where
  order : r.acknowledged ++ r.producer.output.drop r.producer.outputOffset ++
    r.producer.outputQueued = r.pushed.flatten
  first : ∀ w, r.producer.write = some w →
    r.producer.outputOffset + w.size ≤ r.producer.output.length ∧
    (r.producer.output.drop r.producer.outputOffset).take w.size =
      (r.pushed.flatten.drop r.acknowledged.length).take w.size
  unmodified : ∀ element r', r.producer.write.isSome = true →
    step elementSize r (.push element) = some r' → r'.producer.output = r.producer.output ∧
      r'.producer.outputOffset = r.producer.outputOffset ∧ r'.producer.write = r.producer.write
  busy : r.acknowledged.length < r.pushed.flatten.length → r.producer.write.isSome = true
  accepted : ∀ w, r.producer.write = some w → (step elementSize r .interrupted).isSome = true ∧
    ∀ n, 0 < n → n * elementSize ≤ w.size → (step elementSize r (.wrote n)).isSome = true

def OffersElements (elementSize : ℕ) (r : ProducerRun) : Prop :=
  ∀ w, r.producer.write = some w → 0 < w.size ∧
    ∃ n, 0 < n ∧ n ≤ 128 ∧ w.size = n * elementSize

theorem Ordered.inOrder (h : r.Ordered E) : r.InOrder E := by
  refine ⟨?_, fun w hw => ⟨(h.fits.write w hw).1, ?_⟩, fun element r' hwrite hstep => ?_,
    fun hlt => ?_, fun w hw => ⟨?_, fun n hn hle => ?_⟩⟩
  · rw [List.append_assoc]
    exact h.order
  · have hlength : w.size ≤ (r.producer.output.drop r.producer.outputOffset).length := by
      have := (h.fits.write w hw).1
      rw [List.length_drop]
      omega
    rw [← h.order, List.drop_left, Producer.unacknowledged,
      List.take_append_of_le_length hlength]
  · obtain ⟨-, hstep⟩ := Option.ite_none_right_eq_some.mp hstep
    obtain rfl := Option.some.inj hstep
    rw [Producer.producerPush_of_write hwrite]
    exact ⟨rfl, rfl, rfl⟩
  · refine h.busy.busy fun hnil => ?_
    rw [← h.order, hnil, List.append_nil] at hlt
    exact Nat.lt_irrefl _ hlt
  · obtain ⟨p', hwrite, -⟩ := Producer.producerWrite_interrupted h.fits
    simp only [step, hw, hwrite]
    rfl
  · obtain ⟨p', hwrite, -⟩ := Producer.producerWrite_elements h.fits h.busy hw hn hle
    simp only [step, hw, hwrite]
    rw [Option.bind_eq_bind, Option.bind_some, if_pos ⟨hn, hle⟩]
    rfl

theorem Ordered.offersElements (h : r.Ordered E) (hsmall : E * 128 < 2 ^ 32) :
    r.OffersElements E := fun w hw =>
  have ⟨hpos, hdvd, hle⟩ := h.fits.size w hw hsmall
  ⟨hpos, Producer.exists_elements hpos hdvd hle⟩

/-! ## Elements of 2^25 bytes or more -/

theorem reach_queued (hE : 0 < E) (k : ℕ) : Reach (step E) (fun _ _ => True) opened
    ⟨⟨List.replicate E 0, 0, (List.replicate k (List.replicate E 0)).flatten,
      some ⟨Queue.firstLen E, 0⟩⟩, List.replicate (k + 1) (List.replicate E 0), []⟩ := by
  have hlength : (List.replicate E (0 : UInt8)).length = E := List.length_replicate
  induction k with
  | zero =>
    refine .step (l := .push (List.replicate E 0)) .init trivial ?_
    rw [step, if_pos hlength]
    dsimp only [opened]
    rw [Queue.producerPush_first hlength hE]
    rfl
  | succ k ih =>
    refine .step (l := .push (List.replicate E 0)) ih trivial ?_
    rw [step, if_pos hlength]
    dsimp only
    rw [Producer.producerPush_of_write rfl, List.replicate_succ' (n := k + 1),
      List.replicate_succ' (n := k), List.flatten_append, List.flatten_singleton]

theorem reach_offered (hE : 0 < E) (hlt : E < 2 ^ 32) {k : ℕ} (hk : 0 < k) (hmax : k ≤ 128) :
    ∃ r, Reach (step E) (fun _ _ => True) opened r ∧
      r.producer.write = some ⟨sqeLen (k * E), 0⟩ := by
  have hmaxSize : (E * 128) % 2 ^ 64 = E * 128 := Nat.mod_eq_of_lt (by omega)
  have hfirst : Queue.firstLen E = E := by
    rw [Queue.firstLen, hmaxSize, if_neg (by omega), sqeLen, Nat.mod_eq_of_lt hlt]
  have hqueued : ((List.replicate k (List.replicate E (0 : UInt8))).flatten).length = k * E := by
    simp
  have hne : (List.replicate k (List.replicate E (0 : UInt8))).flatten ≠ [] :=
    List.ne_nil_of_length_pos (by rw [hqueued]; exact Nat.mul_pos hk hE)
  have hle : k * E ≤ E * 128 := by
    rw [Nat.mul_comm k]
    exact Nat.mul_le_mul_left E hmax
  have hupdate : producerUpdate E ⟨List.replicate E 0, 0 + 1 * E,
      (List.replicate k (List.replicate E 0)).flatten, none⟩ =
      ⟨(List.replicate k (List.replicate E 0)).flatten, 0, [], some ⟨sqeLen (k * E), 0⟩⟩ := by
    simp only [producerUpdate, Option.isSome_none, Bool.false_eq_true, if_false,
      List.length_replicate, Nat.one_mul, Nat.zero_add, if_true, hne, hqueued, hmaxSize,
      Nat.sub_zero, if_neg (Nat.not_lt.mpr hle)]
  have hwrite := Producer.producerWrite_eq hE Nat.one_pos ⟨List.replicate E 0, 0,
    (List.replicate k (List.replicate E 0)).flatten, some ⟨E, 0⟩⟩
  rw [hupdate] at hwrite
  have hqueue := reach_queued hE k
  rw [hfirst] at hqueue
  have hstep : step E ⟨⟨List.replicate E 0, 0, (List.replicate k (List.replicate E 0)).flatten,
      some ⟨E, 0⟩⟩, List.replicate (k + 1) (List.replicate E 0), []⟩ (.wrote 1) =
      some ⟨⟨(List.replicate k (List.replicate E 0)).flatten, 0, [], some ⟨sqeLen (k * E), 0⟩⟩,
        List.replicate (k + 1) (List.replicate E 0), (List.replicate E 0).take (1 * E)⟩ := by
    simp only [step, Option.bind_eq_bind, Option.bind_some, hwrite]
    rw [if_pos ⟨Nat.one_pos, Nat.le_of_eq (Nat.one_mul E)⟩]
    rfl
  exact ⟨_, .step hqueue trivial hstep, rfl⟩

/-- The length of the entry is not that of whole elements: it is less than that of one. -/
theorem not_offersElements (hlarge : 2 ^ 32 ≤ E * 128) :
    ∃ r, Reach (step E) (fun _ _ => True) opened r ∧ ¬r.OffersElements E := by
  have hE : 0 < E := by omega
  have hpart : ∀ {size : ℕ}, size < E → ¬∃ n, 0 < n ∧ n ≤ 128 ∧ size = n * E := by
    rintro size hlt ⟨n, hn, -, rfl⟩
    exact absurd (Nat.le_mul_of_pos_left E hn) (Nat.not_le.mpr hlt)
  rcases Nat.lt_or_ge E (2 ^ 32) with hlt | hge
  · -- the least number of elements with 2^32 bytes or more
    obtain ⟨k, hk⟩ : ∃ k, k = (2 ^ 32 + E - 1) / E := ⟨_, rfl⟩
    have hdiv := Nat.div_add_mod (2 ^ 32 + E - 1) E
    have hmod := Nat.mod_lt (2 ^ 32 + E - 1) hE
    rw [← hk, Nat.mul_comm] at hdiv
    have hmax : k ≤ 128 := by
      rw [hk]
      refine Nat.le_of_lt_succ ((Nat.div_lt_iff_lt_mul hE).mpr ?_)
      omega
    have hpos : 0 < k := by
      refine Nat.pos_of_ne_zero fun hzero => ?_
      rw [hzero] at hdiv
      omega
    obtain ⟨r, hr, hwrite⟩ := reach_offered hE hlt hpos hmax
    refine ⟨r, hr, fun hoffers => hpart ?_ (hoffers _ hwrite).2⟩
    dsimp only [sqeLen]
    omega
  · refine ⟨_, reach_queued hE 0, fun hoffers => hpart ?_ (hoffers _ rfl).2⟩
    exact Nat.lt_of_lt_of_le (Nat.mod_lt _ (by decide)) hge

end ProducerRun

end LibReactor
