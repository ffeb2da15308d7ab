import Mathlib.Data.List.Range
import Mathlib.Data.Nat.ModEq
import Mathlib.Logic.Function.Basic
import Mathlib.Tactic.Common

/-!
# Counters that wrap round

A ring has a power of two of slots and two 32-bit counters that only go up. The counters select
their slots through a mask, and their difference is the number of slots between them.
-/

namespace LibReactor

structure RingSize where
  order : ℕ
  order_lt : order < 32

namespace RingSize

variable {α : Type*} {k : RingSize} {head tail : UInt32} {i j n : ℕ}

def slots (k : RingSize) : ℕ := 2 ^ k.order

def mask (k : RingSize) : UInt32 := UInt32.ofNat (2 ^ k.order - 1)

def slot (k : RingSize) (counter : UInt32) : UInt32 := counter &&& k.mask

def queued (k : RingSize) (content : UInt32 → α) (head : UInt32) (n : ℕ) : List α :=
  (List.range n).map fun i => content (k.slot (head + UInt32.ofNat i))

/-! ## Slots -/

theorem slots_pos : 0 < k.slots := Nat.two_pow_pos _

theorem slots_lt : k.slots < 2 ^ 32 := Nat.pow_lt_pow_right (by decide) k.order_lt

theorem toNat_slot (counter : UInt32) : (k.slot counter).toNat = counter.toNat % k.slots := by
  have hmask : k.mask.toNat = 2 ^ k.order - 1 := by
    have hlt : 2 ^ k.order - 1 < 2 ^ 32 := Nat.lt_of_le_of_lt (Nat.sub_le _ _) k.slots_lt
    rw [mask, UInt32.toNat_ofNat']
    exact Nat.mod_eq_of_lt hlt
  rw [slot, UInt32.toNat_and, hmask, Nat.and_two_pow_sub_one_eq_mod, slots]

theorem toNat_slot_add (head : UInt32) (i : ℕ) :
    (k.slot (head + UInt32.ofNat i)).toNat = (head.toNat + i) % k.slots := by
  have hdvd : k.slots ∣ 2 ^ 32 := Nat.pow_dvd_pow 2 (Nat.le_of_lt k.order_lt)
  rw [toNat_slot, UInt32.toNat_add, UInt32.toNat_ofNat', Nat.mod_mod_of_dvd _ hdvd,
    Nat.add_mod, Nat.mod_mod_of_dvd _ hdvd, ← Nat.add_mod]

theorem slot_injective (hi : i < k.slots) (hj : j < k.slots)
    (h : k.slot (head + UInt32.ofNat i) = k.slot (head + UInt32.ofNat j)) : i = j := by
  have hmod := congrArg UInt32.toNat h
  rw [toNat_slot_add, toNat_slot_add] at hmod
  have hcancel : i ≡ j [MOD k.slots] := Nat.ModEq.add_left_cancel' head.toNat hmod
  rwa [Nat.ModEq, Nat.mod_eq_of_lt hi, Nat.mod_eq_of_lt hj] at hcancel

theorem slot_add_slots (head : UInt32) : k.slot (head + UInt32.ofNat k.slots) = k.slot head := by
  apply UInt32.toNat_inj.mp
  rw [toNat_slot_add, Nat.add_mod_right, toNat_slot]

/-! ## Counting -/

theorem tail_eq (h : (tail - head).toNat = n) : tail = head + UInt32.ofNat n := by
  rw [← h, UInt32.ofNat_toNat]
  grind

theorem count_add (h : (tail - head).toNat = n) (hn : n + 1 < 2 ^ 32) :
    (tail + 1 - head).toNat = n + 1 := by
  have hsub : tail + 1 - head = tail - head + 1 := by grind
  rw [hsub, UInt32.toNat_add, h, UInt32.toNat_one, Nat.mod_eq_of_lt hn]

theorem count_take (h : (tail - head).toNat = n + 1) : (tail - (head + 1)).toNat = n := by
  have hlt := (tail - head).toNat_lt
  have hsub : tail - head = tail - (head + 1) + 1 := by grind
  rw [hsub, UInt32.toNat_add, UInt32.toNat_one] at h
  rw [hsub, UInt32.toNat_add, UInt32.toNat_one] at hlt
  have hlt' := (tail - (head + 1)).toNat_lt
  omega

/-! ## What is queued -/

variable (content : UInt32 → α)

theorem queued_succ : k.queued content head (n + 1) =
    k.queued content head n ++ [content (k.slot (head + UInt32.ofNat n))] := by
  rw [queued, List.range_succ, List.map_append]
  rfl

theorem queued_congr {content' : UInt32 → α}
    (h : ∀ i < n, content' (k.slot (head + UInt32.ofNat i)) =
      content (k.slot (head + UInt32.ofNat i))) :
    k.queued content' head n = k.queued content head n :=
  List.map_congr_left fun i hi => h i (List.mem_range.mp hi)

end RingSize

end LibReactor
