import LibReactor.Reactor
import LibReactor.Transition
import Mathlib.Data.List.GetD
import Mathlib.Data.List.Nodup
import Mathlib.Data.List.Perm.Subperm

/-!
# The object pool

`pool_malloc` takes objects from the back of a vector of free slots, which it refills with the
slots of a new chunk. The chunks are blocks that `calloc` keeps apart, and the pool keeps the slots
apart: each is on the free vector once or in use.
-/

namespace LibReactor

def Apart (size a b : ℕ) : Prop := a + size ≤ b ∨ b + size ≤ a

instance (size a b : ℕ) : Decidable (Apart size a b) := inferInstanceAs (Decidable (_ ∨ _))

theorem Apart.symm {size a b : ℕ} (h : Apart size a b) : Apart size b a := Or.symm h

theorem Apart.ne {size a b : ℕ} (hsize : 0 < size) (h : Apart size a b) : a ≠ b := by
  unfold Apart at h
  omega

structure Pool where
  size : ℕ
  /-- `size` is the size of a type. -/
  size_pos : 0 < size
  allocated : UInt64
  /-- the addresses of the chunks -/
  chunks : List ℕ
  /-- the free vector of pointers -/
  free : List ℕ

namespace Pool

def poolChunkSize : ℕ := 128

def construct (size : ℕ) (hsize : 0 < size) : Pool := ⟨size, hsize, 0, [], []⟩

def poolSize (p : Pool) : UInt64 := p.allocated

def chunkSlots (size chunk : ℕ) : List ℕ := (List.range poolChunkSize).map fun i => chunk + i * size

/-- `pool_malloc`, with the address of a new chunk -/
def poolMalloc (chunk : ℕ) (p : Pool) : ℕ × Pool :=
  let p := if p.free.length = 0 then
      { p with
        chunks := p.chunks ++ [chunk]
        free := (List.range poolChunkSize).foldl
          (fun free i => free ++ [chunk + i * p.size]) p.free }
    else p
  (p.free.getLastD 0,
    { p with free := p.free.dropLast, allocated := p.allocated + 1 })

def poolFree (object : ℕ) (p : Pool) : Pool :=
  { p with free := p.free ++ [object], allocated := p.allocated - 1 }

/-- What `calloc` gives for a chunk: a block of the address space apart from the other chunks. -/
def Fresh (p : Pool) (chunk : ℕ) : Prop :=
  0 < chunk ∧ chunk + poolChunkSize * p.size ≤ 2 ^ 64 ∧
    ∀ c ∈ p.chunks, Apart (poolChunkSize * p.size) c chunk

instance (p : Pool) (chunk : ℕ) : Decidable (p.Fresh chunk) := inferInstanceAs (Decidable (_ ∧ _))

def slots (size : ℕ) (chunks : List ℕ) : List ℕ := chunks.flatMap (chunkSlots size)

end Pool

structure PoolUse where
  pool : Pool
  inUse : List ℕ

inductive PoolCall
  | malloc (chunk : ℕ)
  | free (object : ℕ)

namespace PoolUse

open Transition

def step (s : PoolUse) : PoolCall → Option PoolUse
  | .malloc chunk =>
    if s.pool.free = [] → s.pool.Fresh chunk then
      some ⟨(s.pool.poolMalloc chunk).2, (s.pool.poolMalloc chunk).1 :: s.inUse⟩
    else none
  | .free object =>
    if object ∈ s.inUse then some ⟨s.pool.poolFree object, s.inUse.erase object⟩ else none

end PoolUse

/-! ## Slots -/

namespace Pool

variable {p : Pool} {chunk : ℕ}

theorem mem_chunkSlots {size a : ℕ} :
    a ∈ chunkSlots size chunk ↔ ∃ i < poolChunkSize, a = chunk + i * size := by
  simp only [chunkSlots, List.mem_map, List.mem_range, eq_comm]

theorem chunkSlots_bounds {size a : ℕ} (h : a ∈ chunkSlots size chunk) :
    chunk ≤ a ∧ a + size ≤ chunk + poolChunkSize * size := by
  obtain ⟨i, hi, rfl⟩ := mem_chunkSlots.mp h
  have hmul : (i + 1) * size ≤ poolChunkSize * size := Nat.mul_le_mul_right size hi
  rw [Nat.succ_mul] at hmul
  omega

theorem chunkSlots_apart (size chunk : ℕ) : (chunkSlots size chunk).Pairwise (Apart size) := by
  rw [chunkSlots, List.pairwise_map]
  refine List.pairwise_lt_range.imp fun {i j} hij => .inl ?_
  have hmul : (i + 1) * size ≤ j * size := Nat.mul_le_mul_right size hij
  rw [Nat.succ_mul] at hmul
  omega

/-- The loop that fills the free vector. -/
theorem refill_eq (size : ℕ) (free : List ℕ) (n : ℕ) :
    (List.range n).foldl (fun free i => free ++ [chunk + i * size]) free =
      free ++ (List.range n).map fun i => chunk + i * size := by
  induction n with
  | zero => exact (List.append_nil free).symm
  | succ n ih =>
    rw [List.range_succ, List.foldl_append, ih, List.map_append, ← List.append_assoc]
    rfl

structure Placed (size : ℕ) (chunks : List ℕ) : Prop where
  within : ∀ c ∈ chunks, 0 < c ∧ c + poolChunkSize * size ≤ 2 ^ 64
  apart : chunks.Pairwise (Apart (poolChunkSize * size))

variable {size : ℕ} {chunks : List ℕ}

theorem Placed.slots_apart (h : Placed size chunks) :
    (slots size chunks).Pairwise (Apart size) := by
  rw [slots, List.pairwise_flatMap]
  refine ⟨fun c _ => chunkSlots_apart size c, h.apart.imp fun {c d} hcd a ha b hb => ?_⟩
  have hbounds := chunkSlots_bounds ha
  have hbounds' := chunkSlots_bounds hb
  unfold Apart at hcd ⊢
  omega

theorem Placed.slots_within (h : Placed size chunks) (hsize : 0 < size) {a : ℕ}
    (ha : a ∈ slots size chunks) : 0 < a ∧ a < 2 ^ 64 := by
  obtain ⟨c, hc, hslot⟩ := List.mem_flatMap.mp ha
  have hbounds := chunkSlots_bounds hslot
  have hwithin := h.within c hc
  omega

/-! ## Calls -/

theorem poolMalloc_refill (hempty : p.free = []) (chunk : ℕ) : p.poolMalloc chunk =
    ((chunkSlots p.size chunk).getLastD 0, { p with
      chunks := p.chunks ++ [chunk]
      free := (chunkSlots p.size chunk).dropLast
      allocated := p.allocated + 1 }) := by
  rw [poolMalloc, if_pos (by rw [hempty]; rfl)]
  dsimp only
  rw [refill_eq, hempty, List.nil_append]
  rfl

theorem poolMalloc_pop (hne : p.free ≠ []) (chunk : ℕ) : p.poolMalloc chunk =
    (p.free.getLastD 0, { p with free := p.free.dropLast, allocated := p.allocated + 1 }) := by
  rw [poolMalloc, if_neg fun hzero => hne (List.length_eq_zero_iff.mp hzero)]

/-- An object is taken from the back of the free vector, which is refilled where it is empty. -/
theorem poolMalloc_eq (chunk : ℕ) (p : Pool) : ∃ chunks free object,
    p.poolMalloc chunk =
      (object, { p with chunks := chunks, free := free, allocated := p.allocated + 1 }) ∧
    ((p.free = [] ∧ chunks = p.chunks ++ [chunk] ∧
        free ++ [object] = chunkSlots p.size chunk) ∨
      (chunks = p.chunks ∧ free ++ [object] = p.free)) := by
  have hlast : ∀ free : List ℕ, free ≠ [] → free.dropLast ++ [free.getLastD 0] = free := by
    intro free hne
    rw [List.getLastD_eq_getLast?, List.getLast?_eq_some_getLast hne, Option.getD_some]
    exact List.dropLast_append_getLast hne
  by_cases hempty : p.free = []
  · have hslots : chunkSlots p.size chunk ≠ [] := by
      simp [chunkSlots, poolChunkSize]
    exact ⟨_, _, _, poolMalloc_refill hempty chunk, .inl ⟨hempty, rfl, hlast _ hslots⟩⟩
  · exact ⟨_, _, _, poolMalloc_pop hempty chunk, .inr ⟨rfl, hlast _ hempty⟩⟩

end Pool

namespace PoolUse

open Transition Pool

/-- The slots of the chunks are the objects in use and those on the free vector. -/
structure Partition (s : PoolUse) : Prop where
  placed : Placed s.pool.size s.pool.chunks
  perm : (s.inUse ++ s.pool.free).Perm (slots s.pool.size s.pool.chunks)
  allocated : s.pool.allocated = UInt64.ofNat s.inUse.length

variable {s s' : PoolUse}

theorem Partition.apart (h : s.Partition) :
    (s.inUse ++ s.pool.free).Pairwise (Apart s.pool.size) :=
  (h.perm.pairwise_iff fun {_ _} hab => hab.symm).mpr h.placed.slots_apart

theorem Partition.nodup (h : s.Partition) : (s.inUse ++ s.pool.free).Nodup :=
  h.apart.imp fun {_ _} hab => hab.ne s.pool.size_pos

/-- The objects in use are fewer than a counter of 64 bits holds. -/
theorem Partition.length_lt (h : s.Partition) : s.inUse.length < 2 ^ 64 := by
  have hwithin : ∀ a ∈ s.inUse, 0 < a ∧ a < 2 ^ 64 := fun a ha =>
    h.placed.slots_within s.pool.size_pos (h.perm.mem_iff.mp (List.mem_append_left _ ha))
  have hnodup : (0 :: s.inUse).Nodup :=
    List.nodup_cons.mpr ⟨fun hzero => Nat.lt_irrefl 0 (hwithin 0 hzero).1,
      (List.nodup_append'.mp h.nodup).1⟩
  have hpos : 0 < 2 ^ 64 := Nat.two_pow_pos 64
  generalize 2 ^ 64 = n at hwithin hpos ⊢
  have hsubset : 0 :: s.inUse ⊆ List.range n := fun a ha => by
    rcases List.mem_cons.mp ha with rfl | ha
    · exact List.mem_range.mpr hpos
    · exact List.mem_range.mpr (hwithin a ha).2
  have hle := (hnodup.subperm hsubset).length_le
  rwa [List.length_cons, List.length_range] at hle

theorem Partition.malloc (h : s.Partition) {chunk : ℕ}
    (hfresh : s.pool.free = [] → s.pool.Fresh chunk) :
    Partition ⟨(s.pool.poolMalloc chunk).2, (s.pool.poolMalloc chunk).1 :: s.inUse⟩ := by
  obtain ⟨chunks, free, object, heq, hcases⟩ := poolMalloc_eq chunk s.pool
  have hallocated : s.pool.allocated + 1 = UInt64.ofNat (s.inUse.length + 1) := by
    rw [h.allocated, UInt64.ofNat_add]
    rfl
  have hmove : (object :: s.inUse ++ free).Perm (s.inUse ++ (free ++ [object])) := by
    rw [← List.append_assoc]
    exact (List.perm_append_singleton object _).symm
  rw [heq]
  rcases hcases with ⟨hempty, hchunks, hfree⟩ | ⟨hchunks, hfree⟩
  · obtain ⟨hpos, hle, hapart⟩ := hfresh hempty
    have hperm := h.perm
    rw [hempty, List.append_nil] at hperm
    refine ⟨⟨fun c hc => ?_, ?_⟩, ?_, hallocated⟩
    · rw [hchunks] at hc
      rcases List.mem_append.mp hc with hc | hc
      · exact h.placed.within c hc
      · exact List.mem_singleton.mp hc ▸ ⟨hpos, hle⟩
    · rw [hchunks]
      refine List.pairwise_append.mpr ⟨h.placed.apart, List.pairwise_singleton _ _, ?_⟩
      exact fun c hc d hd => List.mem_singleton.mp hd ▸ hapart c hc
    · refine hmove.trans ?_
      rw [hfree, slots, hchunks, List.flatMap_append, List.flatMap_singleton]
      exact hperm.append_right _
  · refine ⟨⟨hchunks ▸ h.placed.within, hchunks ▸ h.placed.apart⟩, ?_, hallocated⟩
    rw [slots, hchunks]
    refine hmove.trans ?_
    rw [hfree]
    exact h.perm

theorem Partition.free (h : s.Partition) {object : ℕ} (hmem : object ∈ s.inUse) :
    Partition ⟨s.pool.poolFree object, s.inUse.erase object⟩ := by
  have hlength : s.inUse.length = (s.inUse.erase object).length + 1 := by
    rw [List.length_erase_of_mem hmem, Nat.sub_add_cancel (List.length_pos_of_mem hmem)]
  rw [poolFree]
  refine ⟨⟨h.placed.within, h.placed.apart⟩, ?_, ?_⟩
  · have hback : (s.inUse.erase object ++ (s.pool.free ++ [object])).Perm
        (s.inUse ++ s.pool.free) := by
      rw [← List.append_assoc]
      refine (List.perm_append_singleton object _).trans ?_
      exact ((List.perm_cons_erase hmem).symm).append_right _
    exact hback.trans h.perm
  · dsimp only
    rw [h.allocated, hlength, UInt64.ofNat_add]
    grind

/-- The step lemma. -/
theorem Partition.step (h : s.Partition) {call : PoolCall}
    (hstep : PoolUse.step s call = some s') : s'.Partition := by
  unfold PoolUse.step at hstep
  cases call with
  | malloc chunk =>
    obtain ⟨hfresh, rfl⟩ := Option.ite_some_none_eq_some.mp hstep
    exact h.malloc hfresh
  | free object =>
    obtain ⟨hmem, rfl⟩ := Option.ite_some_none_eq_some.mp hstep
    exact h.free hmem

theorem partition_construct (size : ℕ) (hsize : 0 < size) :
    Partition ⟨construct size hsize, []⟩ where
  placed := ⟨nofun, List.Pairwise.nil⟩
  perm := .refl _
  allocated := rfl

/-- In every run the objects in use are slots of the chunks that do not overlap and are not on the
free vector, every other slot is on the free vector once, and `pool_size` counts the objects. -/
theorem pool_exclusive {size : ℕ} {hsize : 0 < size}
    (h : Reach step (fun _ _ => True) ⟨construct size hsize, []⟩ s) :
    s.inUse.Pairwise (Apart s.pool.size) ∧
    (∀ a ∈ s.inUse, a ∉ s.pool.free ∧ ∃ c ∈ s.pool.chunks, ∃ i < poolChunkSize,
      a = c + i * s.pool.size) ∧
    (∀ c ∈ s.pool.chunks, ∀ i < poolChunkSize, (s.inUse ++ s.pool.free).count
      (c + i * s.pool.size) = 1) ∧
    s.pool.poolSize.toNat = s.inUse.length := by
  have hpartition : s.Partition := h.invariant (partition_construct size hsize)
    fun _ _ _ h _ hstep => h.step hstep
  have hnodup := hpartition.nodup
  refine ⟨(List.pairwise_append.mp hpartition.apart).1, fun a ha => ⟨?_, ?_⟩,
    fun c hc i hi => ?_, ?_⟩
  · exact fun hfree => List.disjoint_of_nodup_append hnodup ha hfree
  · have hslot := hpartition.perm.mem_iff.mp (List.mem_append_left _ ha)
    obtain ⟨c, hc, hslot⟩ := List.mem_flatMap.mp hslot
    exact ⟨c, hc, mem_chunkSlots.mp hslot⟩
  · refine List.count_eq_one_of_mem hnodup (hpartition.perm.mem_iff.mpr ?_)
    exact List.mem_flatMap.mpr ⟨c, hc, mem_chunkSlots.mpr ⟨i, hi, rfl⟩⟩
  · rw [poolSize, hpartition.allocated]
    exact UInt64.toNat_ofNat_of_lt' hpartition.length_lt

set_option maxRecDepth 4096 in
/-- Two objects of a pool, the first one freed. -/
theorem pool_exclusive_two : ∃ s,
    exec step ⟨construct 16 (by decide), []⟩ [.malloc 4096, .malloc 0, .free 6128] = some s ∧
      s.pool.poolSize.toNat = s.inUse.length := by
  obtain ⟨s, hs⟩ := Option.isSome_iff_exists.mp (show (exec step ⟨construct 16 (by decide), []⟩
    [.malloc 4096, .malloc 0, .free 6128]).isSome = true by decide)
  exact ⟨s, hs, (pool_exclusive (.of_exec (fun _ _ => trivial) hs)).2.2.2⟩

end PoolUse

/-! ## The numbered slots of the reactor -/

namespace Pool

variable {κ : Type*} {p : Pool} {r : Reactor κ}

def slotAddress (size : ℕ) (chunks : List ℕ) (n : ℕ) : ℕ :=
  chunks.getD (n / poolChunkSize) 0 + n % poolChunkSize * size

/-- The reactor's slots are those of the pool, with the back of the free vector first. -/
structure Numbers (p : Pool) (r : Reactor κ) : Prop where
  slots : r.slots = poolChunkSize * p.chunks.length
  below : ∀ n ∈ r.free, n < r.slots
  free : p.free = (r.free.map (slotAddress p.size p.chunks)).reverse
  allocated : p.allocated = UInt64.ofNat r.allocated

theorem slotAddress_append {size n chunk : ℕ} {chunks : List ℕ}
    (hn : n < poolChunkSize * chunks.length) :
    slotAddress size (chunks ++ [chunk]) n = slotAddress size chunks n := by
  have hlt : n / poolChunkSize < chunks.length := Nat.div_lt_of_lt_mul hn
  rw [slotAddress, slotAddress, List.getD_append _ _ _ _ hlt]

theorem slotAddress_last {size i chunk : ℕ} {chunks : List ℕ} (hi : i < poolChunkSize) :
    slotAddress size (chunks ++ [chunk]) (poolChunkSize * chunks.length + i) =
      chunk + i * size := by
  have hdiv : (poolChunkSize * chunks.length + i) / poolChunkSize = chunks.length := by
    rw [Nat.mul_add_div (by decide), Nat.div_eq_of_lt hi, Nat.add_zero]
  have hmod : (poolChunkSize * chunks.length + i) % poolChunkSize = i := by
    rw [Nat.mul_add_mod, Nat.mod_eq_of_lt hi]
  rw [slotAddress, hdiv, hmod, List.getD_append_right _ _ _ _ (Nat.le_refl _), Nat.sub_self]
  rfl

theorem Numbers.refill (h : p.Numbers r) (hempty : r.free = []) (chunk : ℕ) :
    chunkSlots p.size chunk =
      (r.poolRefill.free.map (slotAddress p.size (p.chunks ++ [chunk]))).reverse := by
  rw [Reactor.poolRefill, if_pos hempty, List.map_reverse, List.reverse_reverse, List.map_map,
    chunkSlots]
  refine List.map_congr_left fun i hi => ?_
  rw [Function.comp_apply, h.slots]
  exact (slotAddress_last (List.mem_range.mp hi)).symm

/-- `pool_malloc` hands out the slot whose number the reactor gets, and the other numbers stand for
the addresses that they had. -/
theorem Numbers.poolMalloc (h : p.Numbers r) (chunk : ℕ) :
    (p.poolMalloc chunk).1 = slotAddress p.size (p.poolMalloc chunk).2.chunks r.poolMalloc.1 ∧
      (p.poolMalloc chunk).2.Numbers r.poolMalloc.2 ∧ ∀ n < r.slots,
        slotAddress p.size (p.poolMalloc chunk).2.chunks n = slotAddress p.size p.chunks n := by
  obtain ⟨slot, rest, hfree⟩ := List.exists_cons_of_ne_nil r.poolRefill_free_ne_nil
  have hallocated : p.allocated + 1 = UInt64.ofNat (r.allocated + 1) := by
    rw [h.allocated, UInt64.ofNat_add]
    rfl
  have hreactor : r.poolMalloc = (slot, { r.poolRefill with
      free := rest
      allocated := r.poolRefill.allocated + 1 }) := by
    rw [Reactor.poolMalloc]
    dsimp only
    rw [hfree]
    rfl
  by_cases hempty : r.free = []
  · have hrefill := h.refill hempty chunk
    rw [hfree, List.map_cons, List.reverse_cons] at hrefill
    have hpool : p.free = [] := by rw [h.free, hempty]; rfl
    have hrange : r.poolRefill = { r with
        free := slot :: rest
        slots := r.slots + poolChunkSize } := by
      rw [← hfree, Reactor.poolRefill, if_pos hempty]
      rfl
    have hbelow : ∀ n ∈ slot :: rest, n < r.slots + poolChunkSize := by
      intro n hn
      rw [← hfree, Reactor.poolRefill, if_pos hempty] at hn
      obtain ⟨i, hi, rfl⟩ := List.mem_map.mp (List.mem_reverse.mp hn)
      exact Nat.add_lt_add_left (List.mem_range.mp hi) r.slots
    rw [poolMalloc_refill hpool, hreactor, hrange, hrefill, List.getLastD_concat,
      List.dropLast_concat]
    refine ⟨rfl, ⟨?_, fun n hn => hbelow n (List.mem_cons_of_mem _ hn), rfl, hallocated⟩,
      fun n hn => slotAddress_append (h.slots ▸ hn)⟩
    dsimp only
    rw [List.length_append, List.length_singleton, Nat.mul_succ, h.slots]
  · have hsame : r.poolRefill = r := by rw [Reactor.poolRefill, if_neg hempty]
    rw [hsame] at hfree hreactor
    have hpool : p.free = (rest.map (slotAddress p.size p.chunks)).reverse ++
        [slotAddress p.size p.chunks slot] := by
      rw [h.free, hfree, List.map_cons, List.reverse_cons]
    have hne : p.free ≠ [] := by
      rw [hpool]
      exact List.concat_ne_nil _ _
    rw [poolMalloc_pop hne, hreactor, hpool, List.getLastD_concat, List.dropLast_concat]
    have hbelow : ∀ n ∈ rest, n < r.slots := fun n hn =>
      h.below n (hfree ▸ List.mem_cons_of_mem _ hn)
    exact ⟨rfl, ⟨h.slots, hbelow, rfl, hallocated⟩, fun _ _ => rfl⟩

theorem Numbers.poolFree (h : p.Numbers r) {n : ℕ} (hn : n < r.slots) (hpos : 0 < r.allocated) :
    (p.poolFree (slotAddress p.size p.chunks n)).Numbers (r.freeUser n) := by
  refine ⟨h.slots, fun m hm => ?_, ?_, ?_⟩
  · rcases List.mem_cons.mp hm with rfl | hm
    · exact hn
    · exact h.below m hm
  · rw [Pool.poolFree, h.free, Reactor.freeUser, List.map_cons, List.reverse_cons]
  · obtain ⟨k, hk⟩ := Nat.exists_eq_add_one_of_ne_zero (Nat.ne_of_gt hpos)
    rw [Pool.poolFree, h.allocated, Reactor.freeUser]
    dsimp only
    rw [hk, Nat.add_sub_cancel, UInt64.ofNat_add]
    grind

end Pool

end LibReactor
