import Mathlib.Data.Nat.Bitwise
import Mathlib.Data.Nat.Size
import Mathlib.Tactic.Common

/-!
# Rounding up to a power of two

Or-ing a word with its own shifts by 1, 2, 4, ..., 32 sets every bit below its
highest one. `roundup` is that computation on 64-bit words, with the decrement
before it and the increment after it.
-/

namespace LibReactor

def Smeared (w n m : ℕ) : Prop := ∀ i, m.testBit i = true ↔ ∃ j < w, n.testBit (i + j) = true

theorem smeared_one (n : ℕ) : Smeared 1 n n := by
  intro i
  constructor
  · exact fun h => ⟨0, by omega, h⟩
  · rintro ⟨j, hj, h⟩
    obtain rfl : j = 0 := by omega
    exact h

theorem Smeared.or_shift {w n m : ℕ} (h : Smeared w n m) : Smeared (w + w) n (m ||| m >>> w) := by
  intro i
  rw [Nat.testBit_or, Nat.testBit_shiftRight, Bool.or_eq_true, h i, h (w + i)]
  constructor
  · rintro (⟨j, hj, hb⟩ | ⟨j, hj, hb⟩)
    · exact ⟨j, by omega, hb⟩
    · exact ⟨w + j, by omega, by rwa [show i + (w + j) = w + i + j by omega]⟩
  · rintro ⟨j, hj, hb⟩
    by_cases hjw : j < w
    · exact .inl ⟨j, hjw, hb⟩
    · exact .inr ⟨j - w, by omega, by rwa [show w + i + (j - w) = i + j by omega]⟩

/-- A word smeared over all its positions has exactly the bits below its size. -/
theorem Smeared.eq_two_pow_sub_one {w n m : ℕ} (h : Smeared w n m) (hn : n < 2 ^ w) :
    m = 2 ^ n.size - 1 := by
  apply Nat.eq_of_testBit_eq
  intro i
  rw [Nat.testBit_two_pow_sub_one, Bool.eq_iff_iff, h i, decide_eq_true_iff]
  constructor
  · rintro ⟨j, -, hb⟩
    have hge : 2 ^ (i + j) ≤ n := Nat.ge_two_pow_of_testBit hb
    have hlt : i + j < n.size := Nat.lt_size.mpr hge
    omega
  · intro hi
    have hpos : n ≠ 0 := by
      rintro rfl
      simp at hi
    have hsize : n.size = n.log2 + 1 := by
      have h1 : n.log2 < n.size := Nat.lt_size.mpr (Nat.log2_self_le hpos)
      have h2 : n.size ≤ n.log2 + 1 := Nat.size_le.mpr Nat.lt_log2_self
      omega
    have hlog : n.log2 < w := (Nat.log2_lt hpos).mpr hn
    refine ⟨n.log2 - i, by omega, ?_⟩
    rw [show i + (n.log2 - i) = n.log2 by omega]
    exact Nat.testBit_log2 hpos

def orShift (w s : ℕ) : ℕ := s ||| s >>> w

/-- `buffer_roundup` and `map_roundup`, on `size_t` -/
def roundup (s : ℕ) : ℕ :=
  let s := (s + 2 ^ 64 - 1) % 2 ^ 64
  let s := orShift 1 s
  let s := orShift 2 s
  let s := orShift 4 s
  let s := orShift 8 s
  let s := orShift 16 s
  let s := orShift 32 s
  (s + 1) % 2 ^ 64

theorem orShift_all (s : ℕ) (hs : s < 2 ^ 64) :
    orShift 32 (orShift 16 (orShift 8 (orShift 4 (orShift 2 (orShift 1 s))))) =
      2 ^ s.size - 1 := by
  have h := (smeared_one s).or_shift.or_shift.or_shift.or_shift.or_shift.or_shift
  exact h.eq_two_pow_sub_one hs

theorem roundup_eq {s : ℕ} (hpos : 0 < s) (hs : s ≤ 2 ^ 63) : roundup s = 2 ^ (s - 1).size := by
  have hdec : (s + 2 ^ 64 - 1) % 2 ^ 64 = s - 1 := by omega
  have hsize : (s - 1).size ≤ 63 := Nat.size_le.mpr (by omega)
  have hle : 2 ^ (s - 1).size ≤ 2 ^ 63 := Nat.pow_le_pow_right (by omega) hsize
  have hone : 0 < 2 ^ (s - 1).size := Nat.two_pow_pos _
  unfold roundup
  dsimp only
  rw [hdec, orShift_all _ (by omega)]
  omega

theorem le_roundup {s : ℕ} (hpos : 0 < s) (hs : s ≤ 2 ^ 63) : s ≤ roundup s := by
  rw [roundup_eq hpos hs]
  have h : s - 1 < 2 ^ (s - 1).size := Nat.lt_size_self _
  omega

theorem roundup_le {s : ℕ} (hpos : 0 < s) (hs : s ≤ 2 ^ 63) : roundup s ≤ 2 ^ 63 := by
  rw [roundup_eq hpos hs]
  exact Nat.pow_le_pow_right (by omega) (Nat.size_le.mpr (by omega))

end LibReactor
