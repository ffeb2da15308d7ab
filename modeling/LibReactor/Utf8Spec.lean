import LibReactor.Utf8
import Mathlib.Data.Nat.Bitwise
import Mathlib.Tactic.IntervalCases

/-!
# Well-formed UTF-8

`utf8` is the encoding of a Unicode scalar value. `string_utf8_put` appends it and
`string_utf8_get` takes it back; a string of encoded scalar values is well formed.
-/

namespace LibReactor

def Scalar (c : ℕ) : Prop := c < 0xd800 ∨ (0xe000 ≤ c ∧ c < 0x110000)

instance (c : ℕ) : Decidable (Scalar c) :=
  inferInstanceAs (Decidable (c < 0xd800 ∨ (0xe000 ≤ c ∧ c < 0x110000)))

def utf8 (c : ℕ) : Bytes :=
  if c < 0x80 then [byte c]
  else if c < 0x800 then [byte (0xc0 + c / 64), byte (0x80 + c % 64)]
  else if c < 0x10000 then
    [byte (0xe0 + c / 4096), byte (0x80 + c / 64 % 64), byte (0x80 + c % 64)]
  else
    [byte (0xf0 + c / 262144), byte (0x80 + c / 4096 % 64), byte (0x80 + c / 64 % 64),
      byte (0x80 + c % 64)]

theorem utf8_length_le (c : ℕ) : (utf8 c).length ≤ 4 := by
  unfold utf8
  split_ifs <;> simp

def WellFormed (s : Bytes) : Prop := ∃ cs : List ℕ, (∀ c ∈ cs, Scalar c) ∧ s = cs.flatMap utf8

theorem toNat_byte {n : ℕ} (h : n < 256) : (byte n).toNat = n := by
  rw [byte, UInt8.toNat_ofNat']
  exact Nat.mod_eq_of_lt h

/-! ## Writing -/

theorem or_lead {k : ℕ} : (k < 32 → 0xc0 ||| k = 0xc0 + k) ∧ (k < 16 → 0xe0 ||| k = 0xe0 + k) ∧
    (k < 8 → 0xf0 ||| k = 0xf0 + k) := by
  refine ⟨fun h => ?_, fun h => ?_, fun h => ?_⟩ <;> interval_cases k <;> rfl

theorem or_tail {k : ℕ} (h : k < 64) : 0x80 ||| k = 0x80 + k := by
  interval_cases k <;> rfl

theorem and_3f (n : ℕ) : n &&& 0x3f = n % 64 := Nat.and_two_pow_sub_one_eq_mod n 6

theorem stringUtf8Put_eq {c : ℕ} (h : c < 0x110000) : stringUtf8Put c = utf8 c := by
  have h6 : c >>> 6 = c / 64 := Nat.shiftRight_eq_div_pow c 6
  have h12 : c >>> 12 = c / 4096 := Nat.shiftRight_eq_div_pow c 12
  have h18 : c >>> 18 = c / 262144 := Nat.shiftRight_eq_div_pow c 18
  have htail : ∀ k, 0x80 ||| (k % 64) = 0x80 + k % 64 := fun k => or_tail (Nat.mod_lt k (by decide))
  unfold stringUtf8Put utf8
  simp only [h6, h12, h18, and_3f, htail]
  split_ifs with h1 h2 h3
  · rfl
  · rw [or_lead.1 (by omega)]
  · rw [or_lead.2.1 (by omega)]
  · rw [or_lead.2.2 (by omega)]

/-! ## Reading -/

theorem class_tail {m : ℕ} (h : m < 64) :
    utf8d.getD (0x80 + m) 0 = if m < 16 then 1 else if m < 32 then 9 else 7 := by
  interval_cases m <;> rfl

theorem class_two {k : ℕ} (h : k < 32) (h' : 2 ≤ k) : utf8d.getD (0xc0 + k) 0 = 2 := by
  interval_cases k <;> rfl

theorem class_three {k : ℕ} (h : k < 16) :
    utf8d.getD (0xe0 + k) 0 = if k = 0 then 10 else if k = 13 then 4 else 3 := by
  interval_cases k <;> rfl

theorem class_four {k : ℕ} (h : k < 5) :
    utf8d.getD (0xf0 + k) 0 = if k = 0 then 11 else if k = 4 then 5 else 6 := by
  interval_cases k <;> rfl

theorem decodeCode_tail {state code m : ℕ} (hs : state ≠ 0) (hm : m < 64) :
    stringUtf8DecodeCode state code (byte (0x80 + m)) =
      (utf8d.getD (256 + state + if m < 16 then 1 else if m < 32 then 9 else 7) 0,
        code * 64 + m) := by
  have hor : (0x80 + m) &&& 0x3f ||| code <<< 6 = code * 64 + m := by
    rw [and_3f, show (0x80 + m) % 64 = m by omega, Nat.lor_comm,
      ← Nat.shiftLeft_add_eq_or_of_lt (by omega : m < 2 ^ 6), Nat.shiftLeft_eq]
  simp only [stringUtf8DecodeCode, toNat_byte (by omega : 0x80 + m < 256), class_tail hm,
    stateAccept, ne_eq, hs, not_false_eq_true, if_true, hor]

theorem utf8GetLoop_accept {state code n : ℕ} {c : UInt8} {code' : ℕ}
    (h : stringUtf8DecodeCode state code c = (0, code')) (p : Bytes) :
    utf8GetLoop state code (n + 1) (c :: p) = .ok (code', p) := by
  simp [utf8GetLoop, h, stateAccept]

theorem utf8GetLoop_next {state code n : ℕ} {c : UInt8} {state' code' : ℕ}
    (h : stringUtf8DecodeCode state code c = (state', code')) (haccept : state' ≠ 0)
    (hreject : state' ≠ 12) (p : Bytes) :
    utf8GetLoop state code (n + 2) (c :: p) = utf8GetLoop state' code' (n + 1) p := by
  simp [utf8GetLoop, h, stateAccept, stateReject, haccept, hreject]

theorem decodeCode_two {k : ℕ} (h : k < 32) (h' : 2 ≤ k) :
    stringUtf8DecodeCode 0 0 (byte (0xc0 + k)) = (24, k) := by
  have hand : (0xff >>> 2) &&& (0xc0 + k) = k := by
    rw [show 0xff >>> 2 = 0x3f by rfl, Nat.land_comm, and_3f]
    omega
  simp only [stringUtf8DecodeCode, toNat_byte (by omega : 0xc0 + k < 256), class_two h h',
    stateAccept, ne_eq, not_true_eq_false, if_false, hand]
  rfl

theorem decodeCode_three {k : ℕ} (h : k < 16) :
    stringUtf8DecodeCode 0 0 (byte (0xe0 + k)) =
      (if k = 0 then 48 else if k = 13 then 60 else 36, k) := by
  simp only [stringUtf8DecodeCode, toNat_byte (by omega : 0xe0 + k < 256), class_three h]
  interval_cases k <;> rfl

theorem decodeCode_four {k : ℕ} (h : k < 5) :
    stringUtf8DecodeCode 0 0 (byte (0xf0 + k)) =
      (if k = 0 then 72 else if k = 4 then 96 else 84, k) := by
  simp only [stringUtf8DecodeCode, toNat_byte (by omega : 0xf0 + k < 256), class_four h]
  interval_cases k <;> rfl

/-- The last continuation byte, from the state that waits for one. -/
theorem utf8GetLoop_last (code n : ℕ) {m : ℕ} (hm : m < 64) (p : Bytes) :
    utf8GetLoop 24 code (n + 1) (byte (0x80 + m) :: p) = .ok (code * 64 + m, p) := by
  refine utf8GetLoop_accept ?_ p
  rw [decodeCode_tail (by decide) hm]
  split_ifs <;> rfl

/-- A continuation byte that leads from one waiting state to the next. -/
theorem utf8GetLoop_tail {state state' : ℕ} (code n : ℕ) {m : ℕ} (hs : state ≠ 0) (hm : m < 64)
    (h : utf8d.getD (256 + state + if m < 16 then 1 else if m < 32 then 9 else 7) 0 = state')
    (haccept : state' ≠ 0) (hreject : state' ≠ 12) (p : Bytes) :
    utf8GetLoop state code (n + 2) (byte (0x80 + m) :: p) =
      utf8GetLoop state' (code * 64 + m) (n + 1) p := by
  refine utf8GetLoop_next ?_ haccept hreject p
  rw [decodeCode_tail hs hm, h]

/-- The second byte of three: the lead byte restricts it where the encoding would be too long or
a surrogate. -/
theorem second_of_three {k m : ℕ} (hm : m < 64) (h0 : k = 0 → 32 ≤ m) (h13 : k = 13 → m < 32) :
    utf8d.getD (256 + (if k = 0 then 48 else if k = 13 then 60 else 36) +
      if m < 16 then 1 else if m < 32 then 9 else 7) 0 = 24 := by
  split_ifs <;> first | rfl | omega

/-- The second byte of four: the lead byte restricts it where the encoding would be too long or
past the last code point. -/
theorem second_of_four {k m : ℕ} (hm : m < 64) (h0 : k = 0 → 16 ≤ m) (h4 : k = 4 → m < 16) :
    utf8d.getD (256 + (if k = 0 then 72 else if k = 4 then 96 else 84) +
      if m < 16 then 1 else if m < 32 then 9 else 7) 0 = 36 := by
  split_ifs <;> first | rfl | omega

theorem third_of_four {m : ℕ} :
    utf8d.getD (256 + 36 + if m < 16 then 1 else if m < 32 then 9 else 7) 0 = 24 := by
  split_ifs <;> rfl

theorem stringUtf8Get_utf8 {c : ℕ} (hc : Scalar c) (h : 0x80 ≤ c) {n : ℕ}
    (hn : (utf8 c).length ≤ n) (p : Bytes) : stringUtf8Get (utf8 c ++ p) n = .ok (c, p) := by
  have hmod : ∀ k, k % 64 < 64 := fun k => Nat.mod_lt k (by decide)
  unfold Scalar at hc
  unfold utf8 at hn ⊢
  rw [if_neg (by omega)] at hn ⊢
  by_cases h2 : c < 0x800
  · rw [if_pos h2] at hn ⊢
    obtain ⟨n, rfl⟩ : ∃ m, n = m + 2 := ⟨n - 2, by simp at hn; omega⟩
    have hlead := decodeCode_two (k := c / 64) (by omega) (by omega)
    simp only [List.cons_append, List.nil_append]
    rw [stringUtf8Get, stateAccept, utf8GetLoop_next hlead (by decide) (by decide),
      utf8GetLoop_last _ _ (hmod c), Nat.div_add_mod' c 64]
  rw [if_neg h2] at hn ⊢
  by_cases h3 : c < 0x10000
  · rw [if_pos h3] at hn ⊢
    obtain ⟨n, rfl⟩ : ∃ m, n = m + 3 := ⟨n - 3, by simp at hn; omega⟩
    have hlead := decodeCode_three (k := c / 4096) (by omega)
    have hsecond := second_of_three (k := c / 4096) (hmod (c / 64)) (by omega) (by omega)
    simp only [List.cons_append, List.nil_append]
    rw [stringUtf8Get, stateAccept, utf8GetLoop_next hlead (by split_ifs <;> decide)
      (by split_ifs <;> decide), utf8GetLoop_tail _ _ (by split_ifs <;> decide) (hmod (c / 64))
      hsecond (by decide) (by decide), utf8GetLoop_last _ _ (hmod c)]
    congr 2
    omega
  · rw [if_neg h3] at hn ⊢
    obtain ⟨n, rfl⟩ : ∃ m, n = m + 4 := ⟨n - 4, by simp at hn; omega⟩
    have hlead := decodeCode_four (k := c / 262144) (by omega)
    have hsecond := second_of_four (k := c / 262144) (hmod (c / 4096)) (by omega) (by omega)
    simp only [List.cons_append, List.nil_append]
    rw [stringUtf8Get, stateAccept, utf8GetLoop_next hlead (by split_ifs <;> decide)
      (by split_ifs <;> decide), utf8GetLoop_tail _ _ (by split_ifs <;> decide) (hmod (c / 4096))
      hsecond (by decide) (by decide), utf8GetLoop_tail _ _ (by decide) (hmod (c / 64))
      third_of_four (by decide) (by decide), utf8GetLoop_last _ _ (hmod c)]
    congr 2
    omega

end LibReactor
