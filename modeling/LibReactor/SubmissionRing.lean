import LibReactor.Wraparound

/-!
# The submission ring

`reactor_ring_sqe`, `reactor_ring_flush` and `reactor_ring_update` on counters that wrap round.
The kernel takes every entry between the counters when it is entered, in their order and through
`sq_array`.
-/

namespace LibReactor

structure SubmissionRing (ε : Type*) where
  /-- `size`, with `sq_mask` -/
  size : RingSize
  sqHead : UInt32
  sqTail : UInt32
  sqArray : UInt32 → UInt32
  sqe : UInt32 → ε
  /-- the entries that the kernel has taken -/
  submitted : List ε

/-- A call on the ring; every call of `reactor_ring_sqe` fills in the entry that it gets. -/
inductive SubmissionCall (ε : Type*)
  | sqe (entry : ε)
  | flush
  | update

def SubmissionCall.entry {ε : Type*} : SubmissionCall ε → Option ε
  | .sqe entry => some entry
  | .flush | .update => none

namespace SubmissionRing

variable {ε : Type*}

def toSubmit (r : SubmissionRing ε) : UInt32 := r.sqTail - r.sqHead

/-- `io_uring_enter` -/
def enter (toSubmit : UInt32) (r : SubmissionRing ε) : SubmissionRing ε :=
  { r with
    sqHead := r.sqHead + toSubmit
    submitted := r.submitted ++
      r.size.queued (fun i => r.sqe (r.sqArray i)) r.sqHead toSubmit.toNat }

def reactorRingFlush (r : SubmissionRing ε) : SubmissionRing ε :=
  if r.toSubmit.toNat = r.size.slots then r.enter r.toSubmit else r

def reactorRingSqe (r : SubmissionRing ε) : UInt32 × SubmissionRing ε :=
  let r := r.reactorRingFlush
  let i := r.size.slot r.sqTail
  (i, { r with sqTail := r.sqTail + 1, sqArray := Function.update r.sqArray i i })

def reactorRingUpdate (r : SubmissionRing ε) : SubmissionRing ε := r.enter r.toSubmit

def fill (entry : ε) (r : SubmissionRing ε) : SubmissionRing ε :=
  let (i, r) := r.reactorRingSqe
  { r with sqe := Function.update r.sqe i entry }

def step (r : SubmissionRing ε) : SubmissionCall ε → SubmissionRing ε
  | .sqe entry => r.fill entry
  | .flush => r.reactorRingFlush
  | .update => r.reactorRingUpdate

def queue (r : SubmissionRing ε) : List ε :=
  r.size.queued (fun i => r.sqe (r.sqArray i)) r.sqHead r.toSubmit.toNat

/-- The counters are anywhere, and the slots between them are listed in `sq_array`. -/
structure Valid (r : SubmissionRing ε) : Prop where
  count : r.toSubmit.toNat ≤ r.size.slots
  array : ∀ i < r.toSubmit.toNat,
    r.sqArray (r.size.slot (r.sqHead + UInt32.ofNat i)) = r.size.slot (r.sqHead + UInt32.ofNat i)

variable {r : SubmissionRing ε}

theorem toSubmit_enter : (r.enter r.toSubmit).toSubmit = 0 := by
  rw [toSubmit, enter, toSubmit]
  grind

/-- The kernel takes the queue. -/
theorem valid_enter (r : SubmissionRing ε) : (r.enter r.toSubmit).Valid ∧
    (r.enter r.toSubmit).submitted ++ (r.enter r.toSubmit).queue = r.submitted ++ r.queue := by
  refine ⟨⟨?_, fun i hi => ?_⟩, ?_⟩
  · rw [toSubmit_enter]
    exact Nat.zero_le _
  · rw [toSubmit_enter] at hi
    exact absurd hi (Nat.not_lt_zero i)
  · rw [queue, toSubmit_enter]
    exact List.append_nil _

theorem reactorRingFlush_size : r.reactorRingFlush.size = r.size := by
  rw [reactorRingFlush]
  split <;> rfl

/-- After a flush there is room for an entry. -/
theorem Valid.reactorRingFlush (h : r.Valid) : r.reactorRingFlush.Valid ∧
    r.reactorRingFlush.toSubmit.toNat < r.size.slots ∧
    r.reactorRingFlush.submitted ++ r.reactorRingFlush.queue = r.submitted ++ r.queue := by
  rw [SubmissionRing.reactorRingFlush]
  split
  next hfull =>
    refine ⟨r.valid_enter.1, ?_, r.valid_enter.2⟩
    rw [toSubmit_enter]
    exact RingSize.slots_pos
  next hroom => exact ⟨h, Nat.lt_of_le_of_ne h.count hroom, rfl⟩

/-- An entry is put behind the queue. -/
theorem Valid.fill (h : r.Valid) (entry : ε) : (r.fill entry).Valid ∧
    (r.fill entry).submitted ++ (r.fill entry).queue = r.submitted ++ r.queue ++ [entry] := by
  obtain ⟨hvalid, hroom, hqueue⟩ := h.reactorRingFlush
  obtain ⟨f, hf⟩ : ∃ f, f = r.reactorRingFlush := ⟨_, rfl⟩
  rw [← hf] at hvalid hroom hqueue
  have hsize : f.size = r.size := by rw [hf, reactorRingFlush_size]
  rw [← hsize] at hroom
  have hfill : r.fill entry = { f with
      sqTail := f.sqTail + 1
      sqArray := Function.update f.sqArray (f.size.slot f.sqTail) (f.size.slot f.sqTail)
      sqe := Function.update f.sqe (f.size.slot f.sqTail) entry } := by
    rw [hf]
    rfl
  obtain ⟨n, hn⟩ : ∃ n, f.toSubmit.toNat = n := ⟨_, rfl⟩
  have htail : f.sqTail = f.sqHead + UInt32.ofNat n := RingSize.tail_eq hn
  have hcount : (f.sqTail + 1 - f.sqHead).toNat = n + 1 :=
    RingSize.count_add hn (by have hlt := f.size.slots_lt; omega)
  have hapart : ∀ i < n, f.size.slot (f.sqHead + UInt32.ofNat i) ≠ f.size.slot f.sqTail := by
    intro i hi heq
    rw [htail] at heq
    exact Nat.ne_of_lt hi (RingSize.slot_injective (by omega) (by omega) heq)
  rw [hfill]
  refine ⟨⟨?_, fun i hi => ?_⟩, ?_⟩
  · exact Nat.le_trans (Nat.le_of_eq hcount) (by dsimp only; omega)
  · rw [toSubmit, hcount] at hi
    by_cases hlast : i = n
    · rw [hlast, ← htail]
      exact Function.update_self ..
    · have hold := hvalid.array i (by omega)
      exact (Function.update_of_ne (hapart i (by omega)) ..).trans hold
  · rw [queue, toSubmit, hcount, RingSize.queued_succ, ← htail, ← hqueue, queue, hn]
    dsimp only
    rw [Function.update_self, Function.update_self, List.append_assoc]
    congr 2
    refine RingSize.queued_congr _ fun i hi => ?_
    rw [Function.update_of_ne (hapart i hi), hvalid.array i (by omega),
      Function.update_of_ne (hapart i hi)]

/-! ## Runs -/

theorem fill_size (entry : ε) (r : SubmissionRing ε) : (r.fill entry).size = r.size :=
  reactorRingFlush_size

/-- The step lemma. -/
theorem Valid.step (h : r.Valid) (call : SubmissionCall ε) :
    (r.step call).Valid ∧ (r.step call).size = r.size ∧
      (r.step call).submitted ++ (r.step call).queue =
        r.submitted ++ r.queue ++ call.entry.toList := by
  cases call with
  | sqe entry => exact ⟨(h.fill entry).1, fill_size entry r, (h.fill entry).2⟩
  | flush =>
    refine ⟨h.reactorRingFlush.1, reactorRingFlush_size, ?_⟩
    rw [SubmissionCall.entry, Option.toList_none, List.append_nil]
    exact h.reactorRingFlush.2.2
  | update =>
    refine ⟨r.valid_enter.1, rfl, ?_⟩
    rw [SubmissionCall.entry, Option.toList_none, List.append_nil]
    exact r.valid_enter.2

/-- The run lemma. -/
theorem Valid.run (h : r.Valid) (calls : List (SubmissionCall ε)) :
    (calls.foldl SubmissionRing.step r).Valid ∧
      (calls.foldl SubmissionRing.step r).size = r.size ∧
      (calls.foldl SubmissionRing.step r).submitted ++
          (calls.foldl SubmissionRing.step r).queue =
        r.submitted ++ r.queue ++ calls.filterMap SubmissionCall.entry := by
  induction calls generalizing r with
  | nil => exact ⟨h, rfl, (List.append_nil _).symm⟩
  | cons call calls ih =>
    obtain ⟨hvalid, hsize, hqueue⟩ := h.step call
    obtain ⟨hvalid', hsize', hqueue'⟩ := ih hvalid
    refine ⟨hvalid', hsize'.trans hsize, hqueue'.trans ?_⟩
    rw [hqueue, List.append_assoc, List.filterMap_cons]
    cases call.entry <;> rfl

/-- In every run the counters are at most the size apart, no slot is handed out whose entry the
kernel has not taken, and the kernel takes the entries in the order of their slots, each once. -/
theorem run_submits (h : r.Valid) (calls : List (SubmissionCall ε)) {s : SubmissionRing ε}
    (hs : s = calls.foldl SubmissionRing.step r) :
    (s.sqTail - s.sqHead).toNat ≤ r.size.slots ∧
    (∀ i < s.reactorRingFlush.toSubmit.toNat,
      s.size.slot (s.reactorRingFlush.sqHead + UInt32.ofNat i) ≠ s.reactorRingSqe.1) ∧
    s.submitted ++ s.queue = r.submitted ++ r.queue ++ calls.filterMap SubmissionCall.entry ∧
    s.reactorRingUpdate.submitted =
      r.submitted ++ r.queue ++ calls.filterMap SubmissionCall.entry := by
  obtain ⟨hvalid, hsize, hqueue⟩ := h.run calls
  rw [← hs] at hvalid hsize hqueue
  refine ⟨hsize ▸ hvalid.count, fun i hi heq => ?_, hqueue, hqueue⟩
  obtain ⟨-, hroom, -⟩ := hvalid.reactorRingFlush
  have htail := RingSize.tail_eq (rfl : _ = s.reactorRingFlush.toSubmit.toNat)
  rw [reactorRingSqe, reactorRingFlush_size, htail] at heq
  exact Nat.ne_of_lt hi (RingSize.slot_injective (Nat.lt_trans hi hroom) hroom heq)

/-- A ring with an entry whose counters are about to wrap round. -/
theorem run_submits_wrapping :
    (reactorRingUpdate ([SubmissionCall.sqe 8, .sqe 9].foldl step
      ⟨⟨1, by decide⟩, 4294967294, 4294967295, id, fun _ => 7, []⟩)).submitted = [7, 8, 9] :=
  (run_submits ⟨by decide, fun _ _ => rfl⟩ [.sqe 8, .sqe 9] rfl).2.2.2

end SubmissionRing

end LibReactor
