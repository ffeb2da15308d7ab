import LibReactor.Queue

/-!
# Delivery of whole elements

Where every portion of a write and every count of a read is whole elements, the
assertions hold and the elements that are taken out of the pipe are one sequence: for
each producer the first elements pushed to it, for each consumer those it has given to
its user and those in its input buffer.
-/

namespace LibReactor

open Transition

/-! ## Blocks of one length -/

def elementsOf (elementSize : ℕ) (d : Bytes) : List Bytes :=
  (List.range (d.length / elementSize)).map fun n => (d.drop (n * elementSize)).take elementSize

section Blocks

variable {α : Type} {E : ℕ} {l : List (List α)}

theorem flatten_take_blocks (hl : ∀ d ∈ l, d.length = E) (m : ℕ) :
    (l.take m).flatten = l.flatten.take (m * E) ∧ (l.drop m).flatten = l.flatten.drop (m * E) := by
  induction m generalizing l with
  | zero => simp
  | succ m ih =>
    cases l with
    | nil => simp
    | cons d l =>
      obtain ⟨htake, hdrop⟩ := ih fun x hx => hl x (List.mem_cons_of_mem d hx)
      have hd : d.length = E := hl d (by simp)
      have hlength : (m + 1) * E = d.length + m * E := by rw [hd, Nat.succ_mul, Nat.add_comm]
      rw [List.take_succ_cons, List.flatten_cons, List.flatten_cons, List.drop_succ_cons, hlength,
        List.take_length_add_append, List.drop_length_add_append, htake, hdrop]
      exact ⟨rfl, rfl⟩

theorem length_flatten_blocks (hl : ∀ d ∈ l, d.length = E) : l.flatten.length = l.length * E := by
  induction l with
  | nil => simp
  | cons d l ih =>
    rw [List.flatten_cons, List.length_append, ih fun x hx => hl x (List.mem_cons_of_mem d hx),
      hl d (by simp), List.length_cons, Nat.succ_mul, Nat.add_comm]

theorem elementsOf_flatten {l : List Bytes} (hE : 0 < E) (hl : ∀ d ∈ l, d.length = E) :
    elementsOf E l.flatten = l := by
  rw [elementsOf, length_flatten_blocks hl, Nat.mul_div_cancel _ hE]
  refine List.ext_getElem? fun n => ?_
  rw [List.getElem?_map]
  by_cases hn : n < l.length
  · have hdrop := (flatten_take_blocks hl n).2
    have hget : l.drop n = l[n] :: l.drop (n + 1) := List.drop_eq_getElem_cons hn
    have hd : l[n].length = E := hl _ (List.getElem_mem hn)
    rw [List.getElem?_eq_getElem hn, List.getElem?_range hn, Option.map_some, ← hdrop, hget,
      List.flatten_cons, ← hd, List.take_left]
  · have hrange : (List.range l.length)[n]? = none :=
      List.getElem?_eq_none (by rw [List.length_range]; omega)
    rw [hrange, List.getElem?_eq_none (by omega), Option.map_none]

theorem elementsOf_nil : elementsOf E [] = [] := by
  rw [elementsOf, List.length_nil, Nat.zero_div]
  rfl

theorem elementsOf_cons {d : Bytes} (hE : 0 < E) (hd : E ≤ d.length) :
    elementsOf E d = d.take E :: elementsOf E (d.drop E) := by
  have hlength : d.length / E = (d.drop E).length / E + 1 := by
    rw [List.length_drop, Nat.div_eq_sub_div hE hd]
  rw [elementsOf, elementsOf, hlength, List.range_succ_eq_map, List.map_cons, List.map_map,
    Nat.zero_mul, List.drop_zero]
  refine congrArg (d.take E :: ·) (List.map_congr_left fun n _ => ?_)
  rw [Function.comp_apply, List.drop_drop, Nat.succ_mul, Nat.add_comm]

end Blocks

/-! ## Producers -/

theorem sqeLen_le (n : ℕ) : sqeLen n ≤ n := Nat.mod_le n _

theorem sqeLen_batchBytes_one (n : ℕ) : sqeLen (batchBytes 1 n) = n % 2 ^ 32 := by
  rw [sqeLen, batchBytes, Nat.one_mul]
  exact Nat.mod_mod_of_dvd n (by decide)

namespace Producer

variable {E : ℕ} {p : Producer}

def rest (p : Producer) : Bytes :=
  p.output.drop (p.outputOffset + (p.write.map PipeWrite.accepted).getD 0) ++ p.outputQueued

/-- The output is whole elements and so is what was accepted of the write in flight, which lies in
it; the write itself is whole elements where the length of an entry has room for 128 of them. -/
structure Fits (elementSize : ℕ) (p : Producer) : Prop where
  offset : p.outputOffset ≤ p.output.length
  whole : elementSize ∣ p.outputOffset ∧ elementSize ∣ p.output.length ∧
    elementSize ∣ p.outputQueued.length
  write : ∀ w, p.write = some w → p.outputOffset + w.size ≤ p.output.length ∧
    w.accepted ≤ w.size ∧ elementSize ∣ w.accepted
  size : ∀ w, p.write = some w → elementSize * 128 < 2 ^ 32 →
    0 < w.size ∧ elementSize ∣ w.size ∧ w.size ≤ elementSize * 128

/-- The write that `queue_producer_update` arms. -/
theorem Fits.arm (h : p.Fits E) (hlt : p.outputOffset < p.output.length) :
    ({ p with write := some ⟨sqeLen (if (E * 128) % 2 ^ 64 < p.output.length - p.outputOffset then
      (E * 128) % 2 ^ 64 else p.output.length - p.outputOffset), 0⟩ } : Producer).Fits E := by
  have hrest : E ∣ p.output.length - p.outputOffset := Nat.dvd_sub h.whole.2.1 h.whole.1
  have hpos : 0 < p.output.length - p.outputOffset := Nat.sub_pos_of_lt hlt
  have hE : 0 < E := Nat.pos_of_dvd_of_pos hrest hpos
  refine ⟨h.offset, h.whole, ?_, ?_⟩
  · rintro w ⟨⟩
    refine ⟨?_, Nat.zero_le _, Nat.dvd_zero _⟩
    have hle := sqeLen_le (if (E * 128) % 2 ^ 64 < p.output.length - p.outputOffset then
      (E * 128) % 2 ^ 64 else p.output.length - p.outputOffset)
    dsimp only
    split_ifs at hle ⊢ <;> omega
  · rintro w ⟨⟩ hsmall
    have hmax : (E * 128) % 2 ^ 64 = E * 128 := Nat.mod_eq_of_lt (by omega)
    dsimp only
    rw [hmax]
    split_ifs with hlong
    · rw [sqeLen, Nat.mod_eq_of_lt hsmall]
      exact ⟨Nat.mul_pos hE (by omega), Nat.dvd_mul_right E 128, Nat.le_refl _⟩
    · rw [sqeLen, Nat.mod_eq_of_lt (by omega)]
      exact ⟨hpos, hrest, by omega⟩

theorem Fits.producerUpdate (h : p.Fits E) :
    (producerUpdate E p).rest = p.rest ∧ (producerUpdate E p).Fits E := by
  unfold LibReactor.producerUpdate
  by_cases hwrite : p.write.isSome = true
  · rw [if_pos hwrite]
    exact ⟨rfl, h⟩
  · rw [if_neg hwrite]
    have hnone : p.write = none := by simpa using hwrite
    have hswap : ∀ p' : Producer, p' = (if p.outputOffset = p.output.length then
        { p with output := p.outputQueued, outputOffset := 0, outputQueued := [] } else p) →
        p'.rest = p.rest ∧ p'.Fits E ∧ p'.write = none ∧
          (p'.output ≠ [] → p'.outputOffset < p'.output.length) := by
      rintro p' rfl
      split_ifs with hend
      · refine ⟨?_, ⟨Nat.zero_le _, ⟨Nat.dvd_zero _, h.whole.2.2, Nat.dvd_zero _⟩, ?_, ?_⟩, hnone,
          List.length_pos_iff.mpr⟩
        · simp [rest, hnone, hend]
        · exact fun w hw => absurd hw (by simp [hnone])
        · exact fun w hw => absurd hw (by simp [hnone])
      · exact ⟨rfl, h, hnone, fun _ => Nat.lt_of_le_of_ne h.offset hend⟩
    obtain ⟨hrest, hfits, hnone', hlt⟩ := hswap _ rfl
    dsimp only
    by_cases hempty : (if p.outputOffset = p.output.length then
        { p with output := p.outputQueued, outputOffset := 0, outputQueued := [] }
        else p).output = []
    · rw [if_pos hempty]
      exact ⟨hrest, hfits⟩
    · rw [if_neg hempty]
      refine ⟨Eq.trans ?_ hrest, hfits.arm (hlt hempty)⟩
      rw [rest, rest, hnone']
      rfl

theorem Fits.producerPush (h : p.Fits E) {d : Bytes} (hd : d.length = E) :
    (producerPush E d p).rest = p.rest ++ d ∧ (producerPush E d p).Fits E := by
  have hqueued : E ∣ (p.outputQueued ++ d).length := by
    rw [List.length_append, hd]
    exact Nat.dvd_add h.whole.2.2 (Nat.dvd_refl E)
  have hfits : ({ p with outputQueued := p.outputQueued ++ d } : Producer).Fits E :=
    ⟨h.offset, ⟨h.whole.1, h.whole.2.1, hqueued⟩, h.write, h.size⟩
  obtain ⟨hrest, hfits'⟩ := hfits.producerUpdate
  refine ⟨hrest.trans ?_, hfits'⟩
  rw [rest, rest, List.append_assoc]

theorem Fits.accept (h : p.Fits E) {w : PipeWrite} (hw : p.write = some w) {n : ℕ}
    (hn : w.accepted + n ≤ w.size) (hdvd : E ∣ n) :
    ({ p with write := some { w with accepted := w.accepted + n } } : Producer).Fits E ∧
      (p.output.drop (p.outputOffset + w.accepted)).take n = p.rest.take n ∧
      ({ p with write := some { w with accepted := w.accepted + n } } : Producer).rest =
        p.rest.drop n := by
  obtain ⟨hsize, -, haccepted⟩ := h.write w hw
  have hrest : p.rest = p.output.drop (p.outputOffset + w.accepted) ++ p.outputQueued := by
    rw [rest, hw]
    rfl
  have hlength : n ≤ (p.output.drop (p.outputOffset + w.accepted)).length := by
    rw [List.length_drop]
    omega
  refine ⟨⟨h.offset, h.whole, ?_, ?_⟩, ?_, ?_⟩
  · rintro w' ⟨⟩
    exact ⟨hsize, hn, Nat.dvd_add haccepted hdvd⟩
  · rintro w' ⟨⟩
    exact h.size w hw
  · rw [hrest, List.take_append_of_le_length hlength]
  · rw [hrest, List.drop_append_of_le_length hlength, List.drop_drop, rest]
    rw [Option.map_some, Option.getD_some, Nat.add_assoc]

/-- `queue_producer_write` takes a count of whole elements, and an interrupted write. -/
theorem Fits.producerWrite (h : p.Fits E) {w : PipeWrite} (hw : p.write = some w) {result : ℤ}
    (hresult : result = w.accepted ∧ w.accepted ≠ 0 ∨ result = -eintr ∧ w.accepted = 0) :
    ∃ p', producerWrite E result p = some p' ∧ p'.rest = p.rest ∧ p'.Fits E := by
  obtain ⟨hsize, hle, haccepted⟩ := h.write w hw
  have hdone : ∀ offset ≤ p.output.length, E ∣ offset →
      (⟨p.output, offset, p.outputQueued, none⟩ : Producer).Fits E :=
    fun offset hoffset hdvd => ⟨hoffset, ⟨hdvd, h.whole.2⟩, nofun, nofun⟩
  have hrest : p.rest = p.output.drop (p.outputOffset + w.accepted) ++ p.outputQueued := by
    rw [rest, hw]
    rfl
  rcases hresult with ⟨rfl, hpos⟩ | ⟨rfl, hzero⟩
  · obtain ⟨hrest', hfits⟩ := (hdone (p.outputOffset + w.accepted) (by omega)
      (Nat.dvd_add h.whole.1 haccepted)).producerUpdate
    have hmod : (w.accepted : ℤ) % E = 0 := by
      rw [← Int.natCast_mod, Nat.mod_eq_zero_of_dvd haccepted]
      rfl
    refine ⟨_, ?_, hrest'.trans ?_, hfits⟩
    · have hne : ¬(w.accepted : ℤ) = -eintr := by
        unfold eintr
        omega
      rw [LibReactor.producerWrite, if_neg hne, if_pos ⟨by omega, hmod⟩, Int.toNat_natCast]
    · rw [hrest]
      rfl
  · obtain ⟨hrest', hfits⟩ := (hdone p.outputOffset h.offset h.whole.1).producerUpdate
    refine ⟨_, ?_, hrest'.trans ?_, hfits⟩
    · rw [LibReactor.producerWrite, if_pos rfl]
    · rw [hrest, hzero]
      rfl

end Producer

/-! ## Consumers -/

namespace Consumer

variable {E : ℕ} {c : Consumer}

/-- The bytes of the batch that the loop of `queue_consumer_read` has still to give. -/
def batch (c : Consumer) : Bytes :=
  match c.loop with
  | some (offset, result) => (c.input.take result).drop offset
  | none => []

def arrived (c : Consumer) : Bytes :=
  match c.read with
  | .filled n => c.input.take n
  | _ => []

/-- The elements in the input buffer that have not been given to the user. -/
def held (elementSize : ℕ) (c : Consumer) : List Bytes :=
  elementsOf elementSize c.batch ++ elementsOf elementSize c.arrived

def given (c : Consumer) : Bool :=
  match c.loop with
  | some (offset, result) => result ≤ offset
  | none => true

structure Whole (elementSize : ℕ) (c : Consumer) : Prop where
  filled : ∀ n, c.read = .filled n → 0 < n ∧ elementSize ∣ n ∧ n ≤ c.input.length
  loop : ∀ offset result, c.loop = some (offset, result) →
    offset ≤ result ∧ elementSize ∣ offset ∧ elementSize ∣ result ∧ result ≤ c.input.length
  apart : ∀ n, c.read = .filled n → c.given = true

theorem arrived_of_read (h : ∀ n, c.read ≠ .filled n) : c.arrived = [] := by
  unfold arrived
  split
  · rename_i n hread
    exact absurd hread (h n)
  · rfl

theorem batch_of_given (h : c.given = true) : c.batch = [] := by
  unfold batch
  cases hloop : c.loop with
  | none => rfl
  | some x =>
    rw [given, hloop] at h
    refine List.drop_eq_nil_iff.mpr ?_
    rw [List.length_take]
    exact Nat.le_trans (Nat.min_le_left _ _) (of_decide_eq_true h)

theorem Whole.held_of_filled (h : c.Whole E) {n : ℕ} (hread : c.read = .filled n) :
    c.held E = elementsOf E (c.input.take n) := by
  rw [held, batch_of_given (h.apart n hread), arrived, hread, elementsOf_nil, List.nil_append]

theorem held_of_read (h : ∀ n, c.read ≠ .filled n) : c.held E = elementsOf E c.batch := by
  rw [held, arrived_of_read h, elementsOf_nil, List.append_nil]

theorem held_of_armed (hread : c.read = .armed) (hgiven : c.given = true) : c.held E = [] := by
  rw [held_of_read (fun n hn => by rw [hread] at hn; cases hn), batch_of_given hgiven,
    elementsOf_nil]

theorem consumerUpdate_eq (h : c.read ≠ .none) : consumerUpdate c = c := by
  unfold consumerUpdate
  split
  · rename_i hnone
    exact absurd hnone h
  · rfl

theorem consumerUpdate_none (h : c.read = .none) :
    consumerUpdate c = { c with read := .armed } := by
  rw [consumerUpdate, h]

theorem consumerUpdate_cases (c : Consumer) : (c.read ≠ .none ∧ consumerUpdate c = c) ∨
    (c.read = .none ∧ consumerUpdate c = { c with read := .armed }) := by
  by_cases h : c.read = .none
  · exact .inr ⟨h, consumerUpdate_none h⟩
  · exact .inl ⟨h, consumerUpdate_eq h⟩

theorem Whole.update (h : c.Whole E) :
    (consumerUpdate c).Whole E ∧ (consumerUpdate c).held E = c.held E := by
  rcases consumerUpdate_cases c with ⟨-, hsame⟩ | ⟨hread, harmed⟩
  · rw [hsame]
    exact ⟨h, rfl⟩
  · rw [harmed]
    refine ⟨⟨nofun, h.loop, nofun⟩, ?_⟩
    rw [held_of_read (c := c) (fun n hn => by rw [hread] at hn; cases hn)]
    exact held_of_read nofun

theorem Whole.batch_cons (h : c.Whole E) {offset result : ℕ}
    (hloop : c.loop = some (offset, result)) (hlt : offset < result) :
    offset + E ≤ result ∧ elementsOf E c.batch =
      (c.input.drop offset).take E :: elementsOf E ((c.input.take result).drop (offset + E)) := by
  obtain ⟨hle, hoffset, hresult, hlength⟩ := h.loop offset result hloop
  have hdvd : E ∣ result - offset := Nat.dvd_sub hresult hoffset
  have hE : 0 < E := Nat.pos_of_dvd_of_pos hdvd (by omega)
  have hnext : E ≤ result - offset := Nat.le_of_dvd (by omega) hdvd
  refine ⟨by omega, ?_⟩
  have hbatch : c.batch = (c.input.take result).drop offset := by
    rw [batch, hloop]
  have hfirst : E ≤ c.batch.length := by
    rw [hbatch, List.length_drop, List.length_take]
    omega
  rw [elementsOf_cons hE hfirst, hbatch, List.drop_drop, List.drop_take, List.take_take,
    Nat.min_eq_left hnext]

/-- A turn of the loop gives the first element of the batch to the user, or the batch is empty. -/
theorem Whole.turn (h : c.Whole E) {offset result : ℕ} (hloop : c.loop = some (offset, result)) :
    (consumerTurn E offset result c).1.Whole E ∧
      (consumerTurn E offset result c).2 ++ (consumerTurn E offset result c).1.held E =
        c.held E := by
  obtain ⟨hle, hoffset, hresult, hlength⟩ := h.loop offset result hloop
  unfold consumerTurn
  split_ifs with hlt
  · have hread : ∀ n, c.read ≠ .filled n := by
      intro n hn
      have hgiven := h.apart n hn
      rw [given, hloop] at hgiven
      have : result ≤ offset := of_decide_eq_true hgiven
      omega
    obtain ⟨hnext, hfirst⟩ := h.batch_cons hloop hlt
    refine ⟨⟨fun n hn => absurd hn (hread n), ?_, fun n hn => absurd hn (hread n)⟩, ?_⟩
    · rintro o r ⟨⟩
      exact ⟨hnext, Nat.dvd_add hoffset (Nat.dvd_refl E), hresult, hlength⟩
    · rw [held_of_read hread, hfirst]
      exact congrArg ([(c.input.drop offset).take E] ++ ·)
        (held_of_read (c := { c with loop := some (offset + E, result) }) hread)
  · have hend : ({ c with loop := none } : Consumer).Whole E :=
      ⟨h.filled, nofun, fun _ _ => rfl⟩
    obtain ⟨hwhole, hheld⟩ := hend.update
    have hgiven : c.given = true := by
      rw [given, hloop]
      exact decide_eq_true (Nat.not_lt.mp hlt)
    refine ⟨hwhole, ?_⟩
    rw [List.nil_append, hheld, held, held, batch_of_given hgiven]
    rfl

/-- `queue_consumer_read` takes whole elements and gives the first of them to the user. -/
theorem Whole.read (h : c.Whole E) {n : ℕ} (hread : c.read = .filled n) :
    ∃ x, consumerRead E n c = some x ∧ x.1.Whole E ∧ x.2 ++ x.1.held E = c.held E := by
  obtain ⟨hpos, hdvd, hlength⟩ := h.filled n hread
  have hne : ¬(n : ℤ) = -eintr := by
    unfold eintr
    omega
  have hmod : (n : ℤ) % E = 0 := by
    rw [← Int.natCast_mod, Nat.mod_eq_zero_of_dvd hdvd]
    rfl
  have hstart : ({ c with read := .none, loop := some (0, n) } : Consumer).Whole E := by
    refine ⟨nofun, ?_, nofun⟩
    rintro o r ⟨⟩
    exact ⟨Nat.zero_le n, Nat.dvd_zero E, hdvd, hlength⟩
  obtain ⟨hwhole, hheld⟩ := hstart.turn rfl
  have hsame : consumerTurn E 0 n { c with read := .none, loop := some (0, n) } =
      consumerTurn E 0 n { c with read := .none } := by
    simp only [consumerTurn, if_pos hpos]
  rw [hsame] at hwhole hheld
  refine ⟨_, ?_, hwhole, hheld.trans ?_⟩
  · rw [consumerRead, if_neg hne, if_pos ⟨by omega, hmod⟩, Int.toNat_natCast]
  · rw [h.held_of_filled hread]
    exact held_of_read (c := { c with read := .none, loop := some (0, n) }) nofun

theorem Whole.interrupted (h : c.Whole E) (hread : c.read = .armed) :
    consumerRead E (-eintr) c = some (c, []) := by
  rw [consumerRead, if_pos rfl, consumerUpdate_none rfl]
  refine congrArg some (Prod.ext ?_ rfl)
  cases c
  exact congrArg (fun r => Consumer.mk _ _ r _) hread.symm

/-- A read puts bytes into the buffer of a consumer that has nothing left to give. -/
theorem Whole.fill (h : c.Whole E) (hgiven : c.given = true) {d : Bytes} (hpos : 0 < d.length)
    (hdvd : E ∣ d.length) :
    ({ c with read := .filled d.length, input := d ++ c.input.drop d.length } : Consumer).Whole E ∧
      ({ c with read := .filled d.length, input := d ++ c.input.drop d.length } : Consumer).held E =
        elementsOf E d := by
  have hwhole : ({ c with
      read := .filled d.length, input := d ++ c.input.drop d.length } : Consumer).Whole E := by
    refine ⟨?_, fun o r hloop => ?_, fun _ _ => hgiven⟩
    · rintro n ⟨⟩
      refine ⟨hpos, hdvd, ?_⟩
      rw [List.length_append]
      omega
    · obtain ⟨hle, hoffset, hresult, hlength⟩ := h.loop o r hloop
      refine ⟨hle, hoffset, hresult, ?_⟩
      rw [List.length_append, List.length_drop]
      omega
  refine ⟨hwhole, ?_⟩
  rw [hwhole.held_of_filled rfl, List.take_left]

end Consumer

/-! ## The elements on their way -/

namespace Queue

def held (q : Queue) (j : ℕ) : List Bytes := (q.consumer j).held q.elementSize

/-- What has been taken from the pipe is one sequence of consumers, producers and elements:
for each producer the first of the elements pushed to it, for each consumer those that it has
given to its user and those it holds. -/
def Delivers (q : Queue) : Prop :=
  q.failed = false ∧ ∃ taken : List (ℕ × ℕ × Bytes),
    (∀ i, (taken.filter (fun x => x.2.1 = i)).map (fun x => x.2.2) <+: q.pushed i) ∧
    ∀ j, (taken.filter (fun x => x.1 = j)).map (fun x => x.2.2) = q.popped j ++ q.held j

/-- A read puts bytes into the input buffer only when its batch has been given to the user. -/
def undisturbed (q : Queue) : QueueLabel → Bool
  | .fill j _ => (q.consumer j).given
  | _ => true

/-- Whole elements enter and leave the pipe, no transfer is empty, and no batch is disturbed. -/
def Aligned (q : Queue) : QueueLabel → Prop
  | .accept _ n => q.elementSize ∣ n
  | .wrote i => ∀ w, (q.producer i).write = some w → w.size ≠ 0
  | .fill j n => 0 < n ∧ q.elementSize ∣ n ∧ (q.consumer j).given = true
  | _ => True

structure Underway (q : Queue) (taken : List (ℕ × ℕ × Bytes)) (inPipe : List (ℕ × Bytes))
    (unsent : ℕ → List Bytes) : Prop where
  running : q.failed = false
  whole : ∀ i, ∀ d ∈ q.pushed i, d.length = q.elementSize
  fits : ∀ i, (q.producer i).Fits q.elementSize
  rest : ∀ i, (q.producer i).rest = (unsent i).flatten
  pipe : q.pipe = (inPipe.map Prod.snd).flatten
  order : ∀ i, (taken.filter (fun x => x.2.1 = i)).map (fun x => x.2.2) ++
    ((inPipe.filter (fun x => x.1 = i)).map Prod.snd ++ unsent i) = q.pushed i
  got : ∀ j, (taken.filter (fun x => x.1 = j)).map (fun x => x.2.2) = q.popped j ++ q.held j
  consumers : ∀ j, (q.consumer j).Whole q.elementSize

variable {q q' : Queue} {taken : List (ℕ × ℕ × Bytes)} {inPipe : List (ℕ × Bytes)}
  {unsent : ℕ → List Bytes}

theorem Underway.delivers (h : q.Underway taken inPipe unsent) : q.Delivers :=
  ⟨h.running, taken, fun i => ⟨_, h.order i⟩, h.got⟩

theorem Underway.unsent_length (h : q.Underway taken inPipe unsent) (i : ℕ) :
    ∀ d ∈ unsent i, d.length = q.elementSize := fun d hd => by
  refine h.whole i d ?_
  rw [← h.order i]
  exact List.mem_append_right _ (List.mem_append_right _ hd)

theorem Underway.inPipe_length (h : q.Underway taken inPipe unsent) :
    ∀ d ∈ inPipe.map Prod.snd, d.length = q.elementSize := by
  intro d hd
  obtain ⟨⟨i, d⟩, hx, rfl⟩ := List.mem_map.mp hd
  refine h.whole i d ?_
  rw [← h.order i]
  refine List.mem_append_right _ (List.mem_append_left _ (List.mem_map.mpr ⟨(i, d), ?_, rfl⟩))
  exact List.mem_filter.mpr ⟨hx, by simp⟩

theorem Underway.setProducer (h : q.Underway taken inPipe unsent) {i : ℕ} {p : Producer}
    (hrest : p.rest = (q.producer i).rest) (hfits : p.Fits q.elementSize) :
    (q.setProducer i p).Underway taken inPipe unsent := by
  have hproducer : ∀ i', (q.setProducer i p).producer i' = if i' = i then p else q.producer i' :=
    fun i' => Function.update_apply ..
  refine { h with fits := fun i' => ?_, rest := fun i' => ?_ }
  · rw [hproducer]
    split_ifs
    · exact hfits
    · exact h.fits i'
  · rw [hproducer]
    split_ifs with hi
    · rw [hrest, hi, h.rest i]
    · exact h.rest i'

theorem consumer_setConsumer (q : Queue) (j : ℕ) (c : Consumer) (j' : ℕ) :
    (q.setConsumer j c).consumer j' = if j' = j then c else q.consumer j' :=
  Function.update_apply ..

theorem held_setConsumer (q : Queue) (j : ℕ) (c : Consumer) (j' : ℕ) :
    (q.setConsumer j c).held j' = if j' = j then c.held q.elementSize else q.held j' := by
  unfold held
  rw [consumer_setConsumer]
  split_ifs <;> rfl

theorem Underway.give (h : q.Underway taken inPipe unsent) {j : ℕ} {x : Consumer × List Bytes}
    (hwhole : x.1.Whole q.elementSize) (hheld : x.2 ++ x.1.held q.elementSize = q.held j) :
    (q.give j x).Underway taken inPipe unsent := by
  refine { h with got := fun j' => ?_, consumers := fun j' => ?_ }
  · refine (h.got j').trans (Eq.symm ?_)
    refine (congrArg (Function.update q.popped j (q.popped j ++ x.2) j' ++ ·)
      (held_setConsumer q j x.1 j')).trans ?_
    rw [Function.update_apply]
    split_ifs with hj
    · rw [hj, List.append_assoc, hheld]
    · rfl
  · show (Function.update q.consumer j x.1 j').Whole q.elementSize
    rw [Function.update_apply]
    split_ifs
    · exact hwhole
    · exact h.consumers j'

theorem give_nil (q : Queue) (j : ℕ) (c : Consumer) : q.give j (c, []) = q.setConsumer j c := by
  rw [give, List.append_nil, Function.update_eq_self]
  rfl

theorem Underway.setConsumer (h : q.Underway taken inPipe unsent) {j : ℕ} {c : Consumer}
    (hwhole : c.Whole q.elementSize) (hheld : c.held q.elementSize = q.held j) :
    (q.setConsumer j c).Underway taken inPipe unsent := by
  rw [← give_nil]
  exact h.give hwhole hheld

/-! ## One step -/

theorem not_failed {l : QueueLabel} (hstep : q.step l = some q') : q.failed = false := by
  cases hfailed : q.failed with
  | false => rfl
  | true =>
    unfold Queue.step at hstep
    rw [if_pos hfailed] at hstep
    cases hstep

theorem step_push {i : ℕ} {d : Bytes} (hstep : q.step (.push i d) = some q') :
    d.length = q.elementSize ∧
      q' = { q.setProducer i (producerPush q.elementSize d (q.producer i)) with
        pushed := Function.update q.pushed i (q.pushed i ++ [d]) } := by
  simp only [Queue.step, not_failed hstep, Bool.false_eq_true, if_false] at hstep
  split_ifs at hstep with hd
  exact ⟨hd, (Option.some.inj hstep).symm⟩

theorem step_pop {j : ℕ} (hstep : q.step (.pop j) = some q') :
    q' = q.setConsumer j (consumerUpdate (q.consumer j)) := by
  simp only [Queue.step, not_failed hstep, Bool.false_eq_true, if_false] at hstep
  exact (Option.some.inj hstep).symm

theorem step_accept {i n : ℕ} (hstep : q.step (.accept i n) = some q') :
    ∃ w, (q.producer i).write = some w ∧ w.accepted + n ≤ w.size ∧
      (w.size ≤ pipeBuf → n = w.size) ∧ q' = { q.setProducer i
          { q.producer i with write := some { w with accepted := w.accepted + n } } with
        pipe := q.pipe ++ ((q.producer i).output.drop
          ((q.producer i).outputOffset + w.accepted)).take n } := by
  simp only [Queue.step, not_failed hstep, Bool.false_eq_true, if_false] at hstep
  cases hw : (q.producer i).write with
  | none => simp [hw] at hstep
  | some w =>
    simp only [hw, Option.bind_eq_bind, Option.bind_some] at hstep
    split_ifs at hstep with haccepts
    refine ⟨w, rfl, ?_, ?_, (Option.some.inj hstep).symm⟩
    · unfold accepts at haccepts
      split_ifs at haccepts
      · simp only [decide_eq_true_eq] at haccepts
        omega
      · simp only [decide_eq_true_eq] at haccepts
        exact Nat.le_trans haccepts.2 (Nat.min_le_left _ _)
    · intro hsize
      unfold accepts at haccepts
      rw [if_pos hsize, decide_eq_true_eq] at haccepts
      exact haccepts.2

theorem step_wrote {i : ℕ} (hstep : q.step (.wrote i) = some q') :
    ∃ w, (q.producer i).write = some w ∧ (w.accepted ≠ 0 ∨ w.size = 0) ∧
      q' = q.completeWrite i w.accepted := by
  simp only [Queue.step, not_failed hstep, Bool.false_eq_true, if_false] at hstep
  cases hw : (q.producer i).write with
  | none => simp [hw] at hstep
  | some w =>
    simp only [hw, Option.bind_eq_bind, Option.bind_some] at hstep
    split_ifs at hstep with haccepted
    exact ⟨w, rfl, haccepted, (Option.some.inj hstep).symm⟩

theorem step_writeInterrupted {i : ℕ} (hstep : q.step (.writeInterrupted i) = some q') :
    ∃ w, (q.producer i).write = some w ∧ w.accepted = 0 ∧ q' = q.completeWrite i (-eintr) := by
  simp only [Queue.step, not_failed hstep, Bool.false_eq_true, if_false] at hstep
  cases hw : (q.producer i).write with
  | none => simp [hw] at hstep
  | some w =>
    simp only [hw, Option.bind_eq_bind, Option.bind_some] at hstep
    split_ifs at hstep with haccepted
    exact ⟨w, rfl, haccepted, (Option.some.inj hstep).symm⟩

theorem step_fill {j n : ℕ} (hstep : q.step (.fill j n) = some q') :
    (q.consumer j).read = .armed ∧
      returns (sqeLen (q.consumer j).inputSize) q.pipe.length n = true ∧
      q' = { q.setConsumer j { q.consumer j with
          read := .filled n, input := q.pipe.take n ++ (q.consumer j).input.drop n } with
        pipe := q.pipe.drop n } := by
  simp only [Queue.step, not_failed hstep, Bool.false_eq_true, if_false] at hstep
  split_ifs at hstep with hread
  exact ⟨hread.1, hread.2, (Option.some.inj hstep).symm⟩

theorem step_deliver {j : ℕ} (hstep : q.step (.deliver j) = some q') :
    ∃ n, (q.consumer j).read = .filled n ∧ (q.consumer j).loop = none ∧
      q' = q.completeRead j n := by
  simp only [Queue.step, not_failed hstep, Bool.false_eq_true, if_false] at hstep
  split at hstep
  · rename_i n hread hloop
    exact ⟨n, hread, hloop, (Option.some.inj hstep).symm⟩
  · cases hstep

theorem step_next {j : ℕ} (hstep : q.step (.next j) = some q') :
    ∃ offset result, (q.consumer j).loop = some (offset, result) ∧
      q' = q.give j (consumerTurn q.elementSize offset result (q.consumer j)) := by
  simp only [Queue.step, not_failed hstep, Bool.false_eq_true, if_false] at hstep
  obtain ⟨x, hloop, rfl⟩ := Option.map_eq_some_iff.mp hstep
  exact ⟨x.1, x.2, hloop, rfl⟩

theorem step_readInterrupted {j : ℕ} (hstep : q.step (.readInterrupted j) = some q') :
    (q.consumer j).read = .armed ∧ (q.consumer j).loop = none ∧
      q' = q.completeRead j (-eintr) := by
  simp only [Queue.step, not_failed hstep, Bool.false_eq_true, if_false] at hstep
  split_ifs at hstep with hread
  exact ⟨hread.1, hread.2, (Option.some.inj hstep).symm⟩

theorem Underway.push (h : q.Underway taken inPipe unsent) (i : ℕ) {d : Bytes}
    (hd : d.length = q.elementSize) :
    ({ q.setProducer i (producerPush q.elementSize d (q.producer i)) with
      pushed := Function.update q.pushed i (q.pushed i ++ [d]) } : Queue).Underway taken inPipe
        (Function.update unsent i (unsent i ++ [d])) := by
  obtain ⟨hrest, hfits⟩ := (h.fits i).producerPush hd
  have hproducer : ∀ i',
      (q.setProducer i (producerPush q.elementSize d (q.producer i))).producer i' =
      if i' = i then producerPush q.elementSize d (q.producer i) else q.producer i' :=
    fun i' => Function.update_apply ..
  refine { h with
    whole := fun i' => ?_
    fits := fun i' => ?_
    rest := fun i' => ?_
    order := fun i' => ?_ }
  · dsimp only
    rw [Function.update_apply]
    split_ifs with hi
    · intro x hx
      rcases List.mem_append.mp hx with hx | hx
      · exact h.whole i x hx
      · rw [List.mem_singleton.mp hx]
        exact hd
    · exact h.whole i'
  · rw [hproducer]
    split_ifs
    · exact hfits
    · exact h.fits i'
  · rw [hproducer, Function.update_apply]
    split_ifs with hi
    · rw [hrest, h.rest i, List.flatten_append, List.flatten_singleton]
    · exact h.rest i'
  · dsimp only
    rw [Function.update_apply, Function.update_apply]
    split_ifs with hi
    · rw [hi, ← h.order i, List.append_assoc, List.append_assoc]
    · exact h.order i'

theorem Underway.accept (h : q.Underway taken inPipe unsent) {i n : ℕ} {w : PipeWrite}
    (hw : (q.producer i).write = some w) (hn : w.accepted + n ≤ w.size)
    (hdvd : q.elementSize ∣ n) :
    ∃ inPipe' unsent', ({ q.setProducer i
        { q.producer i with write := some { w with accepted := w.accepted + n } } with
      pipe := q.pipe ++ ((q.producer i).output.drop
        ((q.producer i).outputOffset + w.accepted)).take n } : Queue).Underway taken inPipe'
          unsent' := by
  obtain ⟨hfits, hbytes, hrest⟩ := (h.fits i).accept hw hn hdvd
  obtain ⟨m, hm⟩ := hdvd
  rw [Nat.mul_comm] at hm
  obtain ⟨htake, hdrop⟩ := flatten_take_blocks (h.unsent_length i) m
  rw [← hm] at htake hdrop
  refine ⟨inPipe ++ ((unsent i).take m).map (fun d => (i, d)),
    Function.update unsent i ((unsent i).drop m), ?_⟩
  have hproducer : ∀ i', (q.setProducer i
      { q.producer i with write := some { w with accepted := w.accepted + n } }).producer i' =
      if i' = i then { q.producer i with write := some { w with accepted := w.accepted + n } }
      else q.producer i' := fun i' => Function.update_apply ..
  refine { h with
    fits := fun i' => ?_
    rest := fun i' => ?_
    pipe := ?_
    order := fun i' => ?_ }
  · rw [hproducer]
    split_ifs
    · exact hfits
    · exact h.fits i'
  · rw [hproducer, Function.update_apply]
    split_ifs
    · rw [hrest, h.rest i, hdrop]
    · exact h.rest i'
  · rw [hbytes, h.pipe, h.rest i, ← htake, List.map_append, List.flatten_append, List.map_map,
      Function.comp_def, List.map_id']
  · refine Eq.trans ?_ (h.order i')
    rw [Function.update_apply, List.filter_append, List.map_append]
    split_ifs with hi
    · subst hi
      have hself : (((unsent i').take m).map (fun d => (i', d))).filter (fun x => x.1 = i') =
          ((unsent i').take m).map (fun d => (i', d)) := by
        refine List.filter_eq_self.mpr fun x hx => ?_
        obtain ⟨d, -, rfl⟩ := List.mem_map.mp hx
        simp
      rw [hself, List.map_map, Function.comp_def, List.map_id', List.append_assoc,
        List.take_append_drop]
    · have hnil : (((unsent i).take m).map (fun d => (i, d))).filter (fun x => x.1 = i') = [] := by
        refine List.filter_eq_nil_iff.mpr fun x hx => ?_
        obtain ⟨d, -, rfl⟩ := List.mem_map.mp hx
        simpa using fun heq => hi heq.symm
      rw [hnil, List.map_nil, List.append_nil]

theorem Underway.completeWrite (h : q.Underway taken inPipe unsent) {i : ℕ} {w : PipeWrite}
    (hw : (q.producer i).write = some w) {result : ℤ}
    (hresult : result = w.accepted ∧ w.accepted ≠ 0 ∨ result = -eintr ∧ w.accepted = 0) :
    (q.completeWrite i result).Underway taken inPipe unsent := by
  obtain ⟨p, hp, hrest, hfits⟩ := (h.fits i).producerWrite hw hresult
  rw [Queue.completeWrite, hp]
  exact h.setProducer hrest hfits

theorem Underway.fill (h : q.Underway taken inPipe unsent) {j n : ℕ}
    (hread : (q.consumer j).read = .armed) (hgiven : (q.consumer j).given = true) (hpos : 0 < n)
    (hdvd : q.elementSize ∣ n) (hn : n ≤ q.pipe.length) :
    ∃ taken' inPipe', ({ q.setConsumer j { q.consumer j with
        read := .filled n, input := q.pipe.take n ++ (q.consumer j).input.drop n } with
      pipe := q.pipe.drop n } : Queue).Underway taken' inPipe' unsent := by
  have hE : 0 < q.elementSize := Nat.pos_of_dvd_of_pos hdvd hpos
  have hlength : (q.pipe.take n).length = n := by
    rw [List.length_take, Nat.min_eq_left hn]
  obtain ⟨hwhole, hfilled⟩ := (h.consumers j).fill hgiven (d := q.pipe.take n)
    (by rw [hlength]; exact hpos) (by rw [hlength]; exact hdvd)
  rw [hlength] at hwhole hfilled
  obtain ⟨m, hm⟩ := hdvd
  rw [Nat.mul_comm] at hm
  obtain ⟨htake, hdrop⟩ := flatten_take_blocks h.inPipe_length m
  rw [← hm, ← h.pipe] at htake hdrop
  rw [← List.map_take] at htake
  rw [← List.map_drop] at hdrop
  have hheld : elementsOf q.elementSize (q.pipe.take n) = (inPipe.take m).map Prod.snd := by
    rw [← htake]
    refine elementsOf_flatten hE fun d hd => h.inPipe_length d ?_
    rw [List.map_take] at hd
    exact List.mem_of_mem_take hd
  have hidle : q.held j = [] := Consumer.held_of_armed hread hgiven
  refine ⟨taken ++ (inPipe.take m).map (fun x => (j, x)), inPipe.drop m, ?_⟩
  refine { h with
    pipe := hdrop.symm
    order := fun i => ?_
    got := fun j' => ?_
    consumers := fun j' => ?_ }
  · refine Eq.trans ?_ (h.order i)
    have hsplit : (inPipe.filter (fun x => x.1 = i)).map Prod.snd =
        ((inPipe.take m).filter (fun x => x.1 = i)).map Prod.snd ++
          ((inPipe.drop m).filter (fun x => x.1 = i)).map Prod.snd := by
      rw [← List.map_append, ← List.filter_append, List.take_append_drop]
    have hfront : (((inPipe.take m).map (fun x => (j, x))).filter (fun x => x.2.1 = i)).map
        (fun x => x.2.2) = ((inPipe.take m).filter (fun x => x.1 = i)).map Prod.snd := by
      rw [List.filter_map, List.map_map]
      rfl
    rw [hsplit, List.filter_append, List.map_append, hfront, List.append_assoc, List.append_assoc]
  · refine Eq.trans ?_ (congrArg (q.popped j' ++ ·) (held_setConsumer q j _ j').symm)
    have hfront : (((inPipe.take m).map (fun x => (j, x))).filter (fun x => x.1 = j')).map
        (fun x => x.2.2) = if j' = j then (inPipe.take m).map Prod.snd else [] := by
      rw [List.filter_map, List.map_map]
      split_ifs with hj
      · rw [List.filter_eq_self.mpr (fun x _ => by simp [hj])]
        rfl
      · rw [List.filter_eq_nil_iff.mpr (fun x _ => by simpa using fun heq => hj heq.symm)]
        rfl
    rw [List.filter_append, List.map_append, hfront, h.got j']
    split_ifs with hj
    · rw [hj, hidle, List.append_nil, hfilled, hheld]
    · rw [List.append_nil]
  · refine (congrArg (Consumer.Whole q.elementSize) (consumer_setConsumer q j _ j')).mpr ?_
    split_ifs
    · exact hwhole
    · exact h.consumers j'

theorem Underway.completeRead (h : q.Underway taken inPipe unsent) {j n : ℕ}
    (hread : (q.consumer j).read = .filled n) :
    (q.completeRead j n).Underway taken inPipe unsent := by
  obtain ⟨x, hx, hwhole, hheld⟩ := (h.consumers j).read hread
  rw [Queue.completeRead, hx]
  exact h.give hwhole hheld

theorem completeRead_interrupted (h : q.Underway taken inPipe unsent) {j : ℕ}
    (hread : (q.consumer j).read = .armed) : q.completeRead j (-eintr) = q := by
  rw [Queue.completeRead, (h.consumers j).interrupted hread]
  dsimp only
  rw [give_nil, Queue.setConsumer, Function.update_eq_self]

theorem Underway.pop (h : q.Underway taken inPipe unsent) (j : ℕ) :
    (q.setConsumer j (consumerUpdate (q.consumer j))).Underway taken inPipe unsent := by
  obtain ⟨hwhole, hheld⟩ := (h.consumers j).update
  exact h.setConsumer hwhole hheld

theorem Underway.next (h : q.Underway taken inPipe unsent) {j offset result : ℕ}
    (hloop : (q.consumer j).loop = some (offset, result)) :
    (q.give j (consumerTurn q.elementSize offset result (q.consumer j))).Underway taken inPipe
      unsent := by
  obtain ⟨hwhole, hheld⟩ := (h.consumers j).turn hloop
  exact h.give hwhole hheld

theorem le_of_returns {size available n : ℕ} (h : returns size available n = true) (hpos : 0 < n) :
    n ≤ min size maxRwCount ∧ n ≤ available := by
  unfold returns at h
  split_ifs at h
  · simp only [decide_eq_true_eq] at h
    omega
  · simp only [decide_eq_true_eq] at h
    exact h.2

/-- The step lemma: an aligned step keeps the invariant. -/
theorem Underway.step (h : q.Underway taken inPipe unsent) {l : QueueLabel} (hok : q.Aligned l)
    (hstep : q.step l = some q') :
    ∃ taken' inPipe' unsent', q'.Underway taken' inPipe' unsent' := by
  cases l with
  | push i d =>
    obtain ⟨hd, rfl⟩ := step_push hstep
    exact ⟨_, _, _, h.push i hd⟩
  | pop j =>
    rw [step_pop hstep]
    exact ⟨_, _, _, h.pop j⟩
  | accept i n =>
    obtain ⟨w, hw, hn, -, rfl⟩ := step_accept hstep
    obtain ⟨inPipe', unsent', h'⟩ := h.accept hw hn hok
    exact ⟨_, _, _, h'⟩
  | wrote i =>
    obtain ⟨w, hw, haccepted, rfl⟩ := step_wrote hstep
    have hpos : w.accepted ≠ 0 := haccepted.resolve_right (hok w hw)
    exact ⟨_, _, _, h.completeWrite hw (.inl ⟨rfl, hpos⟩)⟩
  | writeInterrupted i =>
    obtain ⟨w, hw, haccepted, rfl⟩ := step_writeInterrupted hstep
    exact ⟨_, _, _, h.completeWrite hw (.inr ⟨rfl, haccepted⟩)⟩
  | fill j n =>
    obtain ⟨hread, hreturns, rfl⟩ := step_fill hstep
    obtain ⟨hpos, hdvd, hgiven⟩ := hok
    obtain ⟨taken', inPipe', h'⟩ := h.fill hread hgiven hpos hdvd (le_of_returns hreturns hpos).2
    exact ⟨_, _, _, h'⟩
  | deliver j =>
    obtain ⟨n, hread, -, rfl⟩ := step_deliver hstep
    exact ⟨_, _, _, h.completeRead hread⟩
  | next j =>
    obtain ⟨offset, result, hloop, rfl⟩ := step_next hstep
    exact ⟨_, _, _, h.next hloop⟩
  | readInterrupted j =>
    obtain ⟨hread, -, rfl⟩ := step_readInterrupted hstep
    rw [completeRead_interrupted h hread]
    exact ⟨_, _, _, h⟩

theorem underway_opened (elementSize : ℕ) (batchSize : ℕ → ℕ) :
    (opened elementSize batchSize).Underway [] [] (fun _ => []) where
  running := rfl
  whole _ _ hd := by cases hd
  fits _ := ⟨Nat.le_refl _, ⟨Nat.dvd_zero _, Nat.dvd_zero _, Nat.dvd_zero _⟩, nofun, nofun⟩
  rest _ := rfl
  pipe := rfl
  order _ := rfl
  got _ := ((Consumer.held_of_read fun _ h => by cases h).trans elementsOf_nil).symm
  consumers _ := ⟨nofun, nofun, fun _ _ => rfl⟩

/-! ## Whole runs -/

structure Configured (size : ℕ) (batchSize : ℕ → ℕ) (q : Queue) : Prop where
  elementSize : q.elementSize = size
  inputSize : ∀ j, (q.consumer j).inputSize = batchBytes size (batchSize j)

section Runs

variable {elementSize : ℕ} {batchSize : ℕ → ℕ}

inductive ConsumerCase (E : ℕ) (c : Consumer) : Consumer → Prop
  | same : ConsumerCase E c c
  | update : ConsumerCase E c (consumerUpdate c)
  | fill {n available : ℕ} (d : Bytes)
      (hreturns : returns (sqeLen c.inputSize) available n = true) :
      ConsumerCase E c { c with read := .filled n, input := d }
  | read {n : ℕ} {x : Consumer × List Bytes} (hread : c.read = .filled n)
      (hx : consumerRead E n c = some x) : ConsumerCase E c x.1
  | interrupted {x : Consumer × List Bytes} (hx : consumerRead E (-eintr) c = some x) :
      ConsumerCase E c x.1
  | turn {offset result : ℕ} (hloop : c.loop = some (offset, result)) :
      ConsumerCase E c (consumerTurn E offset result c).1

theorem ConsumerCase.setConsumer {E j : ℕ} {c : Consumer}
    (h : ConsumerCase E (q.consumer j) c) (j' : ℕ) :
    ConsumerCase E (q.consumer j') ((q.setConsumer j c).consumer j') := by
  rw [consumer_setConsumer]
  split_ifs with hj
  · rw [hj]
    exact h
  · exact .same

theorem consumerCase_completeWrite (i : ℕ) (result : ℤ) (j : ℕ) :
    ConsumerCase q.elementSize (q.consumer j) ((q.completeWrite i result).consumer j) := by
  unfold Queue.completeWrite
  cases producerWrite q.elementSize result (q.producer i) with
  | none => exact .same
  | some p => exact .same

theorem consumerCase_completeRead {j : ℕ} {result : ℤ} (h : ∀ x,
      consumerRead q.elementSize result (q.consumer j) = some x →
        ConsumerCase q.elementSize (q.consumer j) x.1) (j' : ℕ) :
    ConsumerCase q.elementSize (q.consumer j') ((q.completeRead j result).consumer j') := by
  unfold Queue.completeRead
  cases hread : consumerRead q.elementSize result (q.consumer j) with
  | none => exact .same
  | some x => exact (h x hread).setConsumer j'

theorem consumer_cases {l : QueueLabel} (hstep : q.step l = some q') (j : ℕ) :
    ConsumerCase q.elementSize (q.consumer j) (q'.consumer j) := by
  cases l with
  | push i d =>
    obtain ⟨-, rfl⟩ := step_push hstep
    exact .same
  | pop j' =>
    rw [step_pop hstep]
    exact ConsumerCase.update.setConsumer j
  | accept i n =>
    obtain ⟨w, -, -, -, rfl⟩ := step_accept hstep
    exact .same
  | wrote i =>
    obtain ⟨w, -, -, rfl⟩ := step_wrote hstep
    exact consumerCase_completeWrite i _ j
  | writeInterrupted i =>
    obtain ⟨w, -, -, rfl⟩ := step_writeInterrupted hstep
    exact consumerCase_completeWrite i _ j
  | fill j' n =>
    obtain ⟨-, hreturns, rfl⟩ := step_fill hstep
    exact (ConsumerCase.fill _ hreturns).setConsumer j
  | deliver j' =>
    obtain ⟨n, hread, -, rfl⟩ := step_deliver hstep
    exact consumerCase_completeRead (fun x hx => .read hread hx) j
  | next j' =>
    obtain ⟨offset, result, hloop, rfl⟩ := step_next hstep
    exact (ConsumerCase.turn hloop).setConsumer j
  | readInterrupted j' =>
    obtain ⟨-, -, rfl⟩ := step_readInterrupted hstep
    exact consumerCase_completeRead (fun x hx => .interrupted hx) j

theorem completeWrite_same (i : ℕ) (result : ℤ) :
    (q.completeWrite i result).elementSize = q.elementSize ∧
      (q.completeWrite i result).pushed = q.pushed := by
  unfold Queue.completeWrite
  cases producerWrite q.elementSize result (q.producer i) with
  | none => exact ⟨rfl, rfl⟩
  | some p => exact ⟨rfl, rfl⟩

theorem completeRead_same (j : ℕ) (result : ℤ) :
    (q.completeRead j result).elementSize = q.elementSize ∧
      (q.completeRead j result).pushed = q.pushed := by
  unfold Queue.completeRead
  cases consumerRead q.elementSize result (q.consumer j) with
  | none => exact ⟨rfl, rfl⟩
  | some x => exact ⟨rfl, rfl⟩

theorem step_same {l : QueueLabel} (hstep : q.step l = some q') :
    q'.elementSize = q.elementSize ∧ ((∀ i d, l ≠ .push i d) → q'.pushed = q.pushed) := by
  cases l with
  | push i d =>
    obtain ⟨-, rfl⟩ := step_push hstep
    exact ⟨rfl, fun hpush => absurd rfl (hpush i d)⟩
  | pop j =>
    rw [step_pop hstep]
    exact ⟨rfl, fun _ => rfl⟩
  | accept i n =>
    obtain ⟨w, -, -, -, rfl⟩ := step_accept hstep
    exact ⟨rfl, fun _ => rfl⟩
  | wrote i =>
    obtain ⟨w, -, -, rfl⟩ := step_wrote hstep
    exact ⟨(completeWrite_same i _).1, fun _ => (completeWrite_same i _).2⟩
  | writeInterrupted i =>
    obtain ⟨w, -, -, rfl⟩ := step_writeInterrupted hstep
    exact ⟨(completeWrite_same i _).1, fun _ => (completeWrite_same i _).2⟩
  | fill j n =>
    obtain ⟨-, -, rfl⟩ := step_fill hstep
    exact ⟨rfl, fun _ => rfl⟩
  | deliver j =>
    obtain ⟨n, -, -, rfl⟩ := step_deliver hstep
    exact ⟨(completeRead_same j _).1, fun _ => (completeRead_same j _).2⟩
  | next j =>
    obtain ⟨offset, result, -, rfl⟩ := step_next hstep
    exact ⟨rfl, fun _ => rfl⟩
  | readInterrupted j =>
    obtain ⟨-, -, rfl⟩ := step_readInterrupted hstep
    exact ⟨(completeRead_same j _).1, fun _ => (completeRead_same j _).2⟩

theorem inputSize_consumerUpdate (c : Consumer) : (consumerUpdate c).inputSize = c.inputSize := by
  unfold consumerUpdate
  split <;> rfl

theorem inputSize_consumerTurn (E offset result : ℕ) (c : Consumer) :
    (consumerTurn E offset result c).1.inputSize = c.inputSize := by
  unfold consumerTurn
  split_ifs
  · rfl
  · exact inputSize_consumerUpdate _

theorem inputSize_consumerRead {E : ℕ} {result : ℤ} {c : Consumer} {x : Consumer × List Bytes}
    (h : consumerRead E result c = some x) : x.1.inputSize = c.inputSize := by
  unfold consumerRead at h
  dsimp only at h
  split_ifs at h
  · cases h
    exact inputSize_consumerUpdate _
  · cases h
    exact inputSize_consumerTurn _ _ _ _

theorem Configured.step (h : q.Configured elementSize batchSize) {l : QueueLabel}
    (hstep : q.step l = some q') : q'.Configured elementSize batchSize := by
  refine ⟨(step_same hstep).1.trans h.elementSize, fun j => ?_⟩
  rw [← h.inputSize j]
  have hcase := consumer_cases hstep j
  generalize q'.consumer j = c at hcase ⊢
  cases hcase with
  | same => rfl
  | update => exact inputSize_consumerUpdate _
  | fill => rfl
  | read _ hx => exact inputSize_consumerRead hx
  | interrupted hx => exact inputSize_consumerRead hx
  | turn => exact inputSize_consumerTurn _ _ _ _

/-- The invariant of the runs whose steps are aligned, because of it or on their own. -/
theorem underway_of_aligned {ok : Queue → QueueLabel → Prop}
    (hok : ∀ q l q' taken inPipe unsent, q.Underway taken inPipe unsent →
      q.Configured elementSize batchSize → ok q l → q.step l = some q' → q.Aligned l)
    (h : Reach Queue.step ok (opened elementSize batchSize) q) :
    (∃ taken inPipe unsent, q.Underway taken inPipe unsent) ∧
      q.Configured elementSize batchSize := by
  refine h.invariant (I := fun q => (∃ taken inPipe unsent, q.Underway taken inPipe unsent) ∧
    q.Configured elementSize batchSize) ?_ ?_
  · exact ⟨⟨_, _, _, underway_opened elementSize batchSize⟩, rfl, fun _ => rfl⟩
  · rintro q l q' ⟨⟨taken, inPipe, unsent, hunderway⟩, hconfigured⟩ hl hstep
    exact ⟨hunderway.step (hok _ _ _ _ _ _ hunderway hconfigured hl hstep) hstep,
      hconfigured.step hstep⟩

theorem delivers_of_aligned {ok : Queue → QueueLabel → Prop}
    (hok : ∀ q l q' taken inPipe unsent, q.Underway taken inPipe unsent →
      q.Configured elementSize batchSize → ok q l → q.step l = some q' → q.Aligned l)
    (h : Reach Queue.step ok (opened elementSize batchSize) q) : q.Delivers := by
  obtain ⟨⟨_, _, _, hunderway⟩, -⟩ := underway_of_aligned hok h
  exact hunderway.delivers

/-! ## Reads that take what is there -/

/-- A read takes all that is there, up to its size, and disturbs no batch. -/
def Greedy (q : Queue) : QueueLabel → Prop
  | .fill j n => 0 < n ∧ n = min (min (sqeLen (q.consumer j).inputSize) maxRwCount) q.pipe.length ∧
      (q.consumer j).given = true
  | _ => True

theorem Underway.greedy_aligned (h : q.Underway taken inPipe unsent)
    (hconfigured : q.Configured elementSize batchSize) (hsmall : elementSize * 128 ≤ pipeBuf)
    (hbatch : ∀ j, elementSize * batchSize j ≤ maxRwCount)
    {l : QueueLabel} (hl : q.Greedy l) (hstep : q.step l = some q') : q.Aligned l := by
  have hE := hconfigured.elementSize
  have hsize : ∀ i w, (q.producer i).write = some w →
      0 < w.size ∧ q.elementSize ∣ w.size ∧ w.size ≤ q.elementSize * 128 := by
    intro i w hw
    refine (h.fits i).size w hw ?_
    unfold pipeBuf at hsmall
    rw [hE]
    omega
  cases l with
  | accept i n =>
    obtain ⟨w, hw, -, hwhole, -⟩ := step_accept hstep
    obtain ⟨-, hdvd, hle⟩ := hsize i w hw
    have hn : n = w.size := hwhole (Nat.le_trans hle (by rw [hE]; exact hsmall))
    rw [hn]
    exact hdvd
  | wrote i => exact fun w hw => Nat.ne_of_gt (hsize i w hw).1
  | fill j n =>
    obtain ⟨hpos, hn, hgiven⟩ := hl
    have hpipe : q.elementSize ∣ q.pipe.length := by
      rw [h.pipe, length_flatten_blocks h.inPipe_length]
      exact Nat.dvd_mul_left _ _
    have hinput : min (sqeLen (q.consumer j).inputSize) maxRwCount = elementSize * batchSize j := by
      have hle := hbatch j
      unfold maxRwCount at hle ⊢
      rw [hconfigured.inputSize j, sqeLen, batchBytes]
      omega
    refine ⟨hpos, ?_, hgiven⟩
    rw [hn, hinput]
    rcases Nat.le_total (elementSize * batchSize j) q.pipe.length with hle | hle
    · rw [Nat.min_eq_left hle, hE]
      exact Nat.dvd_mul_right _ _
    · rwa [Nat.min_eq_right hle]
  | _ => trivial

/-! ## Runs that fail -/

def Fails (elementSize : ℕ) (batchSize : ℕ → ℕ) (ls : List QueueLabel) : Prop :=
  (exec (guarded Queue.step fun q l => q.undisturbed l = true) (opened elementSize batchSize)
    ls).map Queue.failed = some true

theorem Fails.not_delivers {ls : List QueueLabel} (h : Fails elementSize batchSize ls) :
    ∃ q, Reach Queue.step (fun q l => q.undisturbed l = true) (opened elementSize batchSize) q ∧
      ¬q.Delivers := by
  obtain ⟨q, hq, hfailed⟩ := Option.map_eq_some_iff.mp h
  refine ⟨q, Reach.of_guarded hq, fun hdelivers => ?_⟩
  rw [hdelivers.1] at hfailed
  cases hfailed

/-- A read of no bytes fails the assertion of `queue_consumer_read`. -/
theorem emptyRead_fails {j : ℕ} (hzero : sqeLen (batchBytes elementSize (batchSize j)) = 0) :
    Fails elementSize batchSize [.pop j, .fill j 0, .deliver j] := by
  simp [Fails, guarded, undisturbed, Consumer.given, exec, Queue.step, opened, Queue.setConsumer,
    consumerUpdate, returns, hzero, Queue.completeRead, consumerRead, eintr]

def firstLen (elementSize : ℕ) : ℕ :=
  sqeLen (if (elementSize * 128) % 2 ^ 64 < elementSize then (elementSize * 128) % 2 ^ 64
    else elementSize)

theorem firstLen_le (elementSize : ℕ) : firstLen elementSize ≤ elementSize := by
  refine Nat.le_trans (sqeLen_le _) ?_
  split_ifs <;> omega

theorem producerPush_first {d : Bytes} (hd : d.length = elementSize) (hpos : 0 < elementSize) :
    producerPush elementSize d ⟨[], 0, [], none⟩ =
      ⟨d, 0, [], some ⟨firstLen elementSize, 0⟩⟩ := by
  have hne : d ≠ [] := by
    rintro rfl
    rw [List.length_nil] at hd
    omega
  simp [producerPush, producerUpdate, hd, hne, firstLen]

/-- A write of no bytes fails the assertion of `queue_producer_write`. -/
theorem emptyWrite_fails (hpos : 0 < elementSize) (hzero : firstLen elementSize = 0) :
    Fails elementSize batchSize [.push 0 (List.replicate elementSize 0), .wrote 0] := by
  have hpush := producerPush_first (List.length_replicate : (List.replicate elementSize
    (0 : UInt8)).length = elementSize) hpos
  simp [Fails, guarded, undisturbed, exec, Queue.step, opened, Queue.setProducer, hpush, hzero,
    Queue.completeWrite, producerWrite, eintr]

/-- A write of which the pipe takes `PIPE_BUF` bytes fails it where an element has more. -/
theorem partialWrite_fails (hsize : pipeBuf < firstLen elementSize) :
    Fails elementSize batchSize [.push 0 (List.replicate elementSize 0), .accept 0 pipeBuf,
      .wrote 0] := by
  have hle := firstLen_le elementSize
  unfold pipeBuf at hsize ⊢
  have hpush := producerPush_first (List.length_replicate : (List.replicate elementSize
    (0 : UInt8)).length = elementSize) (by omega)
  have haccepts : accepts ⟨firstLen elementSize, 0⟩ 4096 = true := by
    rw [accepts, pipeBuf, if_neg (Nat.not_le.mpr hsize)]
    unfold maxRwCount
    simp
    omega
  have hmod : ¬(4096 : ℤ) % elementSize = 0 := by
    rw [Int.emod_eq_of_lt (by omega) (by omega)]
    omega
  have hwrite : ∀ p, producerWrite elementSize 4096 p = none := by
    intro p
    rw [producerWrite, if_neg (by decide), if_neg (fun h => hmod h.2)]
  simp [Fails, guarded, undisturbed, exec, Queue.step, opened, Queue.setProducer, hpush,
    haccepts, Queue.completeWrite, hwrite]

/-- A read of one byte fails that of `queue_consumer_read` where an element has more. -/
theorem partialRead_fails (hsize : 2 ≤ elementSize) (hlen : firstLen elementSize ≠ 0)
    (hbatch : sqeLen (batchBytes elementSize (batchSize 0)) ≠ 0) :
    Fails elementSize batchSize [.push 0 (List.replicate elementSize 0),
      .accept 0 (if firstLen elementSize ≤ pipeBuf then firstLen elementSize else 1), .pop 0,
      .fill 0 1, .deliver 0] := by
  have hpush := producerPush_first (List.length_replicate : (List.replicate elementSize
    (0 : UInt8)).length = elementSize) (by omega)
  have hle := firstLen_le elementSize
  generalize hn : (if firstLen elementSize ≤ pipeBuf then firstLen elementSize else 1) = n
  have hpos : 0 < n ∧ n ≤ elementSize := by
    rw [← hn]
    split_ifs <;> omega
  have haccepts : accepts ⟨firstLen elementSize, 0⟩ n = true := by
    rw [← hn, accepts]
    unfold maxRwCount
    dsimp only
    split_ifs
    · simp
    · simp
      omega
  have hreturns : returns (sqeLen (batchBytes elementSize (batchSize 0))) n 1 = true := by
    rw [returns, if_neg hbatch]
    unfold maxRwCount
    simp
    omega
  have hmod : ¬(1 : ℤ) % elementSize = 0 := by
    rw [Int.emod_eq_of_lt (by omega) (by omega)]
    omega
  have hread : ∀ c, consumerRead elementSize 1 c = none := by
    intro c
    rw [consumerRead, if_neg (by decide), if_neg (fun h => hmod h.2)]
  have hmin : min n elementSize = n := by omega
  simp [Fails, guarded, undisturbed, Consumer.given, exec, Queue.step, opened, Queue.setProducer,
    Queue.setConsumer, hpush, haccepts, consumerUpdate, hreturns, Queue.completeRead, hread, hmin]

def reading (batchSize : ℕ → ℕ) (j : ℕ) (pipe : Bytes) (c : Consumer) (pushed popped : List Bytes) :
    Queue :=
  { opened 1 batchSize with
    pipe := pipe
    consumer := Function.update (opened 1 batchSize).consumer j c
    pushed := Function.update (fun _ => []) 0 pushed
    popped := Function.update (fun _ => []) j popped }

section PopsInside

variable {j : ℕ} {pipe : Bytes} {c : Consumer} {pushed popped : List Bytes}

theorem reach_byte (b : UInt8) : Reach Queue.step (fun _ _ => True)
    (reading batchSize j pipe c pushed popped)
    (reading batchSize j (pipe ++ [b]) c (pushed ++ [[b]]) popped) := by
  have hrun : exec Queue.step (reading batchSize j pipe c pushed popped)
      [.push 0 [b], .accept 0 1, .wrote 0] =
      some (reading batchSize j (pipe ++ [b]) c (pushed ++ [[b]]) popped) := by
    simp [exec, Queue.step, reading, opened, Queue.setProducer, producerPush, producerUpdate,
      sqeLen, accepts, pipeBuf, Queue.completeWrite, producerWrite, eintr]
  exact Reach.of_exec (fun _ _ => trivial) hrun

theorem consumer_reading : (reading batchSize j pipe c pushed popped).consumer j = c :=
  Function.update_self ..

theorem pop_reading : (reading batchSize j pipe c pushed popped).step (.pop j) =
    some (reading batchSize j pipe (consumerUpdate c) pushed popped) := by
  simp [Queue.step, reading, opened, Queue.setConsumer]

theorem fill_reading {n : ℕ} (harmed : c.read = .armed)
    (hreturns : returns (sqeLen c.inputSize) pipe.length n = true) :
    (reading batchSize j pipe c pushed popped).step (.fill j n) =
      some (reading batchSize j (pipe.drop n)
        { c with read := .filled n, input := pipe.take n ++ c.input.drop n } pushed popped) := by
  simp [Queue.step, reading, opened, Queue.setConsumer, harmed, hreturns]

theorem deliver_reading {n : ℕ} {x : Consumer × List Bytes} (hread : c.read = .filled n)
    (hloop : c.loop = none) (hx : consumerRead 1 n c = some x) :
    (reading batchSize j pipe c pushed popped).step (.deliver j) =
      some (reading batchSize j pipe x.1 pushed (popped ++ x.2)) := by
  simp [Queue.step, reading, opened, Queue.completeRead, hread, hloop, hx, Queue.give,
    Queue.setConsumer]

theorem next_reading (offset result : ℕ) (hloop : c.loop = some (offset, result)) :
    (reading batchSize j pipe c pushed popped).step (.next j) =
      some (reading batchSize j pipe (consumerTurn 1 offset result c).1 pushed
        (popped ++ (consumerTurn 1 offset result c).2)) := by
  simp [Queue.step, reading, opened, hloop, Queue.give, Queue.setConsumer]

/-- A consumer calls `queue_consumer_pop` for the first of two bytes: the second one is lost, and
the last one is given to the user before its turn. -/
theorem reach_popsInside (htwo : 2 ≤ sqeLen (batchBytes 1 (batchSize j))) :
    Reach Queue.step (fun _ _ => True) (opened 1 batchSize)
      (reading batchSize j [] ⟨batchBytes 1 (batchSize j), [2, 3], .filled 2, some (2, 2)⟩
        [[0], [1], [2], [3]] [[0], [3]]) := by
  have hreturns : returns (sqeLen (batchBytes 1 (batchSize j))) 2 2 = true := by
    rw [returns, if_neg (by omega)]
    unfold maxRwCount
    simp
    omega
  have hstart : opened 1 batchSize =
      reading batchSize j [] ⟨batchBytes 1 (batchSize j), [], .none, none⟩ [] [] := by
    simp [reading, opened]
  have hwritten : Reach Queue.step (fun _ _ => True) (opened 1 batchSize) (reading batchSize j
      [0, 1] ⟨batchBytes 1 (batchSize j), [], .none, none⟩ [[0], [1]] []) := by
    rw [hstart]
    exact (reach_byte 0).trans (reach_byte 1)
  have hread : Reach Queue.step (fun _ _ => True) (opened 1 batchSize) (reading batchSize j []
      ⟨batchBytes 1 (batchSize j), [0, 1], .filled 2, none⟩ [[0], [1]] []) :=
    (hwritten.step trivial pop_reading).step trivial (fill_reading (n := 2) rfl hreturns)
  have hpopped : Reach Queue.step (fun _ _ => True) (opened 1 batchSize) (reading batchSize j []
      ⟨batchBytes 1 (batchSize j), [0, 1], .armed, some (1, 2)⟩ [[0], [1]] [[0]]) :=
    (hread.step trivial (deliver_reading rfl rfl rfl)).step trivial pop_reading
  have hrefilled : Reach Queue.step (fun _ _ => True) (opened 1 batchSize) (reading batchSize j []
      ⟨batchBytes 1 (batchSize j), [2, 3], .filled 2, some (1, 2)⟩ [[0], [1], [2], [3]] [[0]]) :=
    ((hpopped.trans (reach_byte 2)).trans (reach_byte 3)).step trivial
      (fill_reading (n := 2) rfl hreturns)
  exact hrefilled.step trivial (next_reading 1 2 rfl)

theorem not_delivers_popsInside (htwo : 2 ≤ sqeLen (batchBytes 1 (batchSize j))) :
    ∃ q, Reach Queue.step (fun _ _ => True) (opened 1 batchSize) q ∧ ¬q.Delivers := by
  refine ⟨_, reach_popsInside htwo, ?_⟩
  rintro ⟨-, taken, hpushed, htaken⟩
  have hproducer : ∀ x ∈ taken, x.2.1 = 0 := by
    intro x hx
    by_contra hne
    have hmem : x.2.2 ∈ (taken.filter fun y => y.2.1 = x.2.1).map fun y => y.2.2 :=
      List.mem_map.mpr ⟨x, List.mem_filter.mpr ⟨hx, decide_eq_true rfl⟩, rfl⟩
    have hpushed := (hpushed x.2.1).subset hmem
    dsimp only [reading] at hpushed
    rw [Function.update_of_ne hne] at hpushed
    cases hpushed
  have hall : taken.filter (fun x => x.2.1 = 0) = taken :=
    List.filter_eq_self.mpr fun x hx => decide_eq_true (hproducer x hx)
  have hpushed := hpushed 0
  rw [hall] at hpushed
  have htaken : (taken.filter (fun x => x.1 = j)).map (fun x => x.2.2) =
      [[0], [3], [2], [3]] := by
    refine (htaken j).trans ?_
    rw [held, consumer_reading]
    simp only [reading, opened, Function.update_self, Consumer.held, Consumer.batch,
      Consumer.arrived]
    rfl
  have hlast := (((List.filter_sublist (p := fun x => x.1 = j) (l := taken)).map
    (fun x => x.2.2)).trans hpushed.sublist).count_le [3]
  rw [htaken] at hlast
  have hlast : ([[0], [3], [2], [3]] : List Bytes).count [3] ≤
      ([[0], [1], [2], [3]] : List Bytes).count [3] := hlast
  exact absurd hlast (by decide)

end PopsInside

/-! ## Buffers of one byte -/

structure Single (c : Consumer) : Prop where
  filled : ∀ n, c.read = .filled n → n ≤ 1
  given : c.given = true

theorem Single.update {c : Consumer} (h : Single c) : Single (consumerUpdate c) := by
  rcases Consumer.consumerUpdate_cases c with ⟨-, hsame⟩ | ⟨-, harmed⟩
  · rw [hsame]
    exact h
  · rw [harmed]
    exact ⟨nofun, h.given⟩

theorem Single.turn {c : Consumer} {offset result : ℕ} (h : ∀ n, c.read = .filled n → n ≤ 1)
    (hle : result ≤ offset + 1) : Single (consumerTurn 1 offset result c).1 := by
  unfold consumerTurn
  split_ifs
  · exact ⟨h, decide_eq_true hle⟩
  · exact Single.update ⟨h, rfl⟩

theorem Single.read {c : Consumer} (h : Single c) {result : ℤ} (hresult : result ≤ 1)
    {x : Consumer × List Bytes} (hx : consumerRead 1 result c = some x) : Single x.1 := by
  unfold consumerRead at hx
  dsimp only at hx
  split_ifs at hx
  · cases hx
    exact Single.update (c := { c with read := .none }) ⟨nofun, h.given⟩
  · cases hx
    exact Single.turn (c := { c with read := .none }) nofun (by omega)

theorem Single.step {E : ℕ} {c c' : Consumer} (h : Single c) (hE : E = 1)
    (hsize : sqeLen c.inputSize = 1) (hcase : ConsumerCase E c c') : Single c' := by
  subst hE
  cases hcase with
  | same => exact h
  | update => exact h.update
  | @fill n available d hreturns =>
    refine ⟨fun n hn => ?_, h.given⟩
    cases hn
    rw [returns, hsize, if_neg (by decide), decide_eq_true_eq] at hreturns
    exact Nat.le_trans hreturns.2.1 (Nat.min_le_left _ _)
  | @read n x hread hx => exact h.read (by have := h.filled n hread; omega) hx
  | interrupted hx => exact h.read (by decide) hx
  | @turn offset result hloop =>
    have hgiven := h.given
    rw [Consumer.given, hloop] at hgiven
    exact Single.turn h.filled (Nat.le_succ_of_le (of_decide_eq_true hgiven))

/-- A step of a queue of single bytes that disturbs no batch is aligned. -/
theorem Underway.single_aligned (h : q.Underway taken inPipe unsent)
    (hconfigured : q.Configured 1 batchSize) (hbatch : ∀ j, batchSize j % 2 ^ 32 ≠ 0)
    {l : QueueLabel} (hl : q.undisturbed l = true) (hstep : q.step l = some q') :
    q.Aligned l := by
  have hone : ∀ n, q.elementSize ∣ n := fun n => by
    rw [hconfigured.elementSize]
    exact Nat.one_dvd n
  cases l with
  | accept i n => exact hone n
  | wrote i =>
    intro w hw
    refine Nat.ne_of_gt ((h.fits i).size w hw ?_).1
    rw [hconfigured.elementSize]
    decide
  | fill j n =>
    obtain ⟨-, hreturns, -⟩ := step_fill hstep
    have hsize : sqeLen (q.consumer j).inputSize ≠ 0 := by
      rw [hconfigured.inputSize j, sqeLen_batchBytes_one]
      exact hbatch j
    rw [returns, if_neg hsize, decide_eq_true_eq] at hreturns
    exact ⟨hreturns.1, hone n, hl⟩
  | _ => trivial

theorem delivers_of_single (hbatch : ∀ j, batchSize j % 2 ^ 32 = 1)
    (h : Reach Queue.step (fun _ _ => True) (opened 1 batchSize) q) : q.Delivers := by
  have hinvariant : ((∃ taken inPipe unsent, q.Underway taken inPipe unsent) ∧
      q.Configured 1 batchSize) ∧ ∀ j, Single (q.consumer j) := by
    refine h.invariant (I := fun q => ((∃ taken inPipe unsent, q.Underway taken inPipe unsent) ∧
      q.Configured 1 batchSize) ∧ ∀ j, Single (q.consumer j)) ?_ ?_
    · exact ⟨⟨⟨_, _, _, underway_opened 1 batchSize⟩, rfl, fun _ => rfl⟩, fun _ => ⟨nofun, rfl⟩⟩
    · rintro q l q' ⟨⟨⟨taken, inPipe, unsent, hunderway⟩, hconfigured⟩, hsingle⟩ - hstep
      have hundisturbed : q.undisturbed l = true := by
        cases l with
        | fill j n => exact (hsingle j).given
        | _ => rfl
      have haligned := hunderway.single_aligned hconfigured
        (fun j hzero => by rw [hbatch j] at hzero; cases hzero) hundisturbed hstep
      refine ⟨⟨hunderway.step haligned hstep, hconfigured.step hstep⟩, fun j => ?_⟩
      refine (hsingle j).step hconfigured.elementSize ?_ (consumer_cases hstep j)
      rw [hconfigured.inputSize j, sqeLen_batchBytes_one]
      exact hbatch j
  obtain ⟨⟨⟨_, _, _, hunderway⟩, -⟩, -⟩ := hinvariant
  exact hunderway.delivers

end Runs

/-- The queue delivers in every run exactly when its elements are single bytes and each read is of
one; without a pop inside a batch, when they are single bytes and no read is empty. It delivers in
the runs in which whole elements enter and leave the pipe and no batch is disturbed, and these are
all in which a read takes what is there if 128 elements fit into `PIPE_BUF`. -/
theorem queue_delivers_iff (elementSize : ℕ) (batchSize : ℕ → ℕ) :
    ((∀ q, Reach step (fun _ _ => True) (opened elementSize batchSize) q → q.Delivers) ↔
      elementSize = 1 ∧ ∀ j, batchSize j % 2 ^ 32 = 1) ∧
    ((∀ q, Reach step (fun q l => q.undisturbed l = true) (opened elementSize batchSize) q →
        q.Delivers) ↔
      elementSize = 1 ∧ ∀ j, batchSize j % 2 ^ 32 ≠ 0) ∧
    (∀ q, Reach step Aligned (opened elementSize batchSize) q → q.Delivers) ∧
    (elementSize * 128 ≤ pipeBuf → (∀ j, elementSize * batchSize j ≤ maxRwCount) →
      ∀ q, Reach step Greedy (opened elementSize batchSize) q → q.Delivers) := by
  have hundisturbed : (∀ q, Reach step (fun q l => q.undisturbed l = true)
      (opened elementSize batchSize) q → q.Delivers) →
      elementSize = 1 ∧ ∀ j, batchSize j % 2 ^ 32 ≠ 0 := by
    intro h
    have hfails : ∀ ls, ¬Fails elementSize batchSize ls := fun ls hls =>
      have ⟨q, hq, hnot⟩ := hls.not_delivers
      hnot (h q hq)
    have hread : ∀ j, sqeLen (batchBytes elementSize (batchSize j)) ≠ 0 :=
      fun j hzero => hfails _ (emptyRead_fails hzero)
    have hpos : elementSize ≠ 0 := by
      rintro rfl
      refine hread 0 ?_
      rw [batchBytes, Nat.zero_mul]
      rfl
    have hone : elementSize = 1 := by
      by_contra hne
      have hwrite : firstLen elementSize ≠ 0 :=
        fun hzero => hfails _ (emptyWrite_fails (by omega) hzero)
      exact hfails _ (partialRead_fails (by omega) hwrite (hread 0))
    refine ⟨hone, fun j hzero => hread j ?_⟩
    rw [hone, sqeLen_batchBytes_one, hzero]
  refine ⟨⟨fun h => ?_, ?_⟩, ⟨hundisturbed, ?_⟩, fun q hq => ?_, fun hsmall hbatch q hq => ?_⟩
  · obtain ⟨rfl, hbatch⟩ := hundisturbed fun q hq => h q (hq.mono fun _ _ _ => trivial)
    refine ⟨rfl, fun j => ?_⟩
    by_contra hne
    have htwo : 2 ≤ sqeLen (batchBytes 1 (batchSize j)) := by
      have hpos := hbatch j
      rw [sqeLen_batchBytes_one]
      omega
    obtain ⟨q, hq, hnot⟩ := not_delivers_popsInside htwo
    exact hnot (h q hq)
  · rintro ⟨rfl, hbatch⟩ q hq
    exact delivers_of_single hbatch hq
  · rintro ⟨rfl, hbatch⟩ q hq
    refine delivers_of_aligned (fun q l q' _ _ _ hunderway hconfigured hl hstep => ?_) hq
    exact hunderway.single_aligned hconfigured hbatch hl hstep
  · exact delivers_of_aligned (fun _ _ _ _ _ _ _ _ hok _ => hok) hq
  · exact delivers_of_aligned
      (fun _ _ _ _ _ _ hunderway hconfigured hl hstep =>
        hunderway.greedy_aligned hconfigured hsmall hbatch hl hstep) hq

/-- One element of 4097 bytes, of which the pipe accepts 4096. -/
theorem queue_partialWrite : ∃ q, Reach step (fun _ _ => True) (opened 4097 (fun _ => 1)) q ∧
    ¬q.Delivers := by
  have hlarge : pipeBuf < firstLen 4097 := by decide
  obtain ⟨q, hq, hnot⟩ := (partialWrite_fails hlarge).not_delivers
  exact ⟨q, hq.mono fun _ _ _ => trivial, hnot⟩

end Queue

end LibReactor
