import LibReactor.Mapi

/-!
# Hashes

`hash_data` hashes data of up to 64 bytes by their size; longer data go block by block through a
loop, and their last 64 bytes are hashed once more. `hash_uint64` mixes the bits of an integer by
steps that can be undone.
-/

namespace LibReactor

namespace Hash

def k0 : UInt64 := 0xc3a5c85c97cb3127

def k1 : UInt64 := 0xb492b66fbe98f273

def k2 : UInt64 := 0x9ae16a3b2f90404f

/-- The integer of the `n` bytes at `i`, the least significant first. -/
def word (n : ℕ) (s : Bytes) (i : ℕ) : UInt64 :=
  ((s.drop i).take n).foldr (fun c v => v <<< 8 ||| c.toUInt64) 0

def fetch (n : ℕ) (s : Bytes) (i : ℕ) : Except Fault UInt64 :=
  if i + n ≤ s.length then .ok (word n s i) else .error .outside

def fetch32 (s : Bytes) (i : ℕ) : Except Fault UInt64 := fetch 4 s i

def fetch64 (s : Bytes) (i : ℕ) : Except Fault UInt64 := fetch 8 s i

def shiftMix (v : UInt64) : UInt64 := v ^^^ (v >>> 47)

def rotate64 (v : UInt64) (shift : UInt64) : UInt64 := (v >>> shift) ||| (v <<< (64 - shift))

def hashLen16 (u v mul : UInt64) : UInt64 :=
  let a := (u ^^^ v) * mul
  let a := a ^^^ (a >>> 47)
  let b := (v ^^^ a) * mul
  let b := b ^^^ (b >>> 47)
  b * mul

def mulOf (len : ℕ) : UInt64 := k2 + UInt64.ofNat len * 2

def hashLen0To16 (s : Bytes) (len : ℕ) : Except Fault UInt64 := do
  if 8 ≤ len then
    let mul := mulOf len
    let a := (← fetch64 s 0) + k2
    let b ← fetch64 s (len - 8)
    let c := rotate64 b 37 * mul + a
    let d := (rotate64 a 25 + b) * mul
    return hashLen16 c d mul
  if 4 ≤ len then
    let mul := mulOf len
    let a ← fetch32 s 0
    return hashLen16 (UInt64.ofNat len + (a <<< 3)) (← fetch32 s (len - 4)) mul
  if 0 < len then
    let a ← fetch 1 s 0
    let b ← fetch 1 s (len >>> 1)
    let c ← fetch 1 s (len - 1)
    let y : UInt32 := a.toUInt32 + (b.toUInt32 <<< 8)
    let z : UInt32 := (UInt64.ofNat len).toUInt32 + (c.toUInt32 <<< 2)
    return shiftMix (y.toUInt64 * k2 ^^^ z.toUInt64 * k0) * k2
  return k2

def hashLen17To32 (s : Bytes) (len : ℕ) : Except Fault UInt64 := do
  let mul := mulOf len
  let a := (← fetch64 s 0) * k1
  let b ← fetch64 s 8
  let c := (← fetch64 s (len - 8)) * mul
  let d := (← fetch64 s (len - 16)) * k2
  return hashLen16 (rotate64 (a + b) 43 + rotate64 c 30 + d) (a + rotate64 (b + k2) 18 + c) mul

def hashLen33To64 (s : Bytes) (len : ℕ) : Except Fault UInt64 := do
  let mul := mulOf len
  let a := (← fetch64 s 0) * k2
  let b ← fetch64 s 8
  let c := (← fetch64 s (len - 8)) * mul
  let d := (← fetch64 s (len - 16)) * k2
  let y := rotate64 (a + b) 43 + rotate64 c 30 + d
  let z := hashLen16 y (a + rotate64 (b + k2) 18 + c) mul
  let e := (← fetch64 s 16) * mul
  let f ← fetch64 s 24
  let g := (y + (← fetch64 s (len - 32))) * mul
  let h := (z + (← fetch64 s (len - 24))) * mul
  return hashLen16 (rotate64 (e + f) 43 + rotate64 g 30 + h) (e + rotate64 (f + a) 18 + g) mul

def weakHashLen32 (w x y z a b : UInt64) : UInt64 × UInt64 :=
  let a := a + w
  let b := rotate64 (b + a + z) 21
  let c := a
  let a := a + x
  let a := a + y
  let b := b + rotate64 a 44
  (a + z, b + c)

/-- `weak_hash_len_32_with_seeds` on the 32 bytes at `i` -/
def weakHashLen32WithSeeds (s : Bytes) (i : ℕ) (a b : UInt64) : Except Fault (UInt64 × UInt64) := do
  return weakHashLen32 (← fetch64 s i) (← fetch64 s (i + 8)) (← fetch64 s (i + 16))
    (← fetch64 s (i + 24)) a b

structure Lanes where
  x : UInt64
  y : UInt64
  z : UInt64
  v : UInt64 × UInt64
  w : UInt64 × UInt64

def Lanes.swap (t : Lanes) : Lanes :=
  let z := t.z ^^^ t.x
  let x := z ^^^ t.x
  let z := z ^^^ x
  { t with z := z, x := x }

/-- The body of the loop, on the 64 bytes at `i` -/
def block (s : Bytes) (i : ℕ) (t : Lanes) : Except Fault Lanes := do
  let x := rotate64 (t.x + t.y + t.v.1 + (← fetch64 s (i + 8))) 37 * k1
  let y := rotate64 (t.y + t.v.2 + (← fetch64 s (i + 48))) 42 * k1
  let x := x ^^^ t.w.2
  let y := y + (t.v.1 + (← fetch64 s (i + 40)))
  let z := rotate64 (t.z + t.w.1) 33 * k1
  let v ← weakHashLen32WithSeeds s i (t.v.2 * k1) (x + t.w.1)
  let w ← weakHashLen32WithSeeds s (i + 32) (z + t.w.2) (y + (← fetch64 s (i + 16)))
  return Lanes.swap ⟨x, y, z, v, w⟩

def blockTurn (s : Bytes) (last : ℕ) (t : ℕ × Lanes) : Except Fault (Lanes ⊕ ℕ × Lanes) := do
  let lanes ← block s t.1 t.2
  return if t.1 + 64 = last then .inl lanes else .inr (t.1 + 64, lanes)

/-- What follows the loop, on the last 64 bytes, which are at `i` -/
def finish (s : Bytes) (len i : ℕ) (t : Lanes) : Except Fault UInt64 := do
  let mul := k1 + ((t.z &&& 0xff) <<< 1)
  let w₁ := t.w.1 + UInt64.ofNat ((len - 1) &&& 63)
  let v₁ := t.v.1 + w₁
  let w₁ := w₁ + v₁
  let x := rotate64 (t.x + t.y + v₁ + (← fetch64 s (i + 8))) 37 * mul
  let y := rotate64 (t.y + t.v.2 + (← fetch64 s (i + 48))) 42 * mul
  let x := x ^^^ (t.w.2 * 9)
  let y := y + (v₁ * 9 + (← fetch64 s (i + 40)))
  let z := rotate64 (t.z + w₁) 33 * mul
  let v ← weakHashLen32WithSeeds s i (t.v.2 * mul) (x + w₁)
  let w ← weakHashLen32WithSeeds s (i + 32) (z + t.w.2) (y + (← fetch64 s (i + 16)))
  let t := Lanes.swap ⟨x, y, z, v, w⟩
  return hashLen16 (hashLen16 t.v.1 t.w.1 mul + shiftMix t.y * k0 + t.z)
    (hashLen16 t.v.2 t.w.2 mul + t.x) mul

def cfarmhash (s : Bytes) (len : ℕ) : Except Fault UInt64 := do
  if len ≤ 16 then
    hashLen0To16 s len
  else if len ≤ 32 then
    hashLen17To32 s len
  else if len ≤ 64 then
    hashLen33To64 s len
  else
    let seed : UInt64 := 81
    let y := seed * k1 + 113
    let z := shiftMix (y * k2 + 113) * k2
    let x := seed * k2 + (← fetch64 s 0)
    let last := ((len - 1) / 64) * 64
    let last64 := last + ((len - 1) &&& 63) - 63
    let lanes ← Loop.within .hang (blockTurn s last) (len + 1) (0, ⟨x, y, z, (0, 0), (0, 0)⟩)
    finish s len last64 lanes

end Hash

def hashData (data : Bytes) : Except Fault UInt64 := Hash.cfarmhash data data.length

namespace Hash

/-! ## All reads lie in the data -/

section Reads

variable {s : Bytes} {i n len : ℕ}

theorem fetch_of_le (h : i + n ≤ s.length) : fetch n s i = .ok (word n s i) := if_pos h

theorem hashLen0To16_ok (hlen : len = s.length) : ∃ h, hashLen0To16 s len = .ok h := by
  have hhalf : len >>> 1 = len / 2 := Nat.shiftRight_one len
  unfold hashLen0To16
  by_cases h8 : 8 ≤ len
  · rw [if_pos h8]
    simp (disch := omega) only [fetch64, fetch_of_le, ok_bind]
    exact ⟨_, rfl⟩
  rw [if_neg h8]
  by_cases h4 : 4 ≤ len
  · simp (disch := omega) only [if_pos h4, fetch32, fetch_of_le, ok_bind]
    exact ⟨_, rfl⟩
  by_cases h0 : 0 < len
  · simp (disch := omega) only [if_neg h4, if_pos h0, hhalf, fetch_of_le, ok_bind]
    exact ⟨_, rfl⟩
  · simp only [if_neg h4, if_neg h0]
    exact ⟨_, rfl⟩

theorem hashLen17To32_ok (hlen : len = s.length) (h : 16 < len) :
    ∃ h, hashLen17To32 s len = .ok h := by
  simp (disch := omega) only [hashLen17To32, fetch64, fetch_of_le, ok_bind]
  exact ⟨_, rfl⟩

theorem hashLen33To64_ok (hlen : len = s.length) (h : 32 < len) :
    ∃ h, hashLen33To64 s len = .ok h := by
  simp (disch := omega) only [hashLen33To64, fetch64, fetch_of_le, ok_bind]
  exact ⟨_, rfl⟩

theorem weakHashLen32WithSeeds_eq (h : i + 32 ≤ s.length) (a b : UInt64) :
    weakHashLen32WithSeeds s i a b = .ok (weakHashLen32 (word 8 s i) (word 8 s (i + 8))
      (word 8 s (i + 16)) (word 8 s (i + 24)) a b) := by
  simp (disch := omega) only [weakHashLen32WithSeeds, fetch64, fetch_of_le, ok_bind, pure_eq_ok]

theorem block_ok (h : i + 64 ≤ s.length) (t : Lanes) : ∃ t', block s i t = .ok t' := by
  simp (disch := omega) only [block, fetch64, fetch_of_le, weakHashLen32WithSeeds_eq, ok_bind]
  exact ⟨_, rfl⟩

theorem finish_ok (h : i + 64 ≤ s.length) (len : ℕ) (t : Lanes) :
    ∃ h, finish s len i t = .ok h := by
  simp (disch := omega) only [finish, fetch64, fetch_of_le, weakHashLen32WithSeeds_eq, ok_bind]
  exact ⟨_, rfl⟩

/-- The loop goes over whole blocks and ends at the last one. -/
theorem loop_ok {last : ℕ} (hpos : 0 < last) (hblocks : last % 64 = 0) (hlast : last ≤ s.length)
    {fuel : ℕ} (hfuel : last < fuel) (t : Lanes) :
    ∃ t', Loop.within .hang (blockTurn s last) fuel (0, t) = .ok t' := by
  apply Loop.within_variant (blockTurn s last)
    (I := fun u : ℕ × Lanes => u.1 % 64 = 0 ∧ u.1 < last) (μ := fun u => last - u.1)
    (Q := fun r => ∃ t', r = .ok t')
  · rintro ⟨i, t⟩ ⟨hi, hlt⟩
    obtain ⟨t', hblock⟩ := block_ok (i := i) (show i + 64 ≤ s.length by omega) t
    have hturn : blockTurn s last (i, t) =
        .ok (if i + 64 = last then .inl t' else .inr (i + 64, t')) := by
      rw [blockTurn, hblock, ok_bind]
      rfl
    unfold Loop.TurnSpec
    rw [hturn]
    by_cases hend : i + 64 = last
    · rw [if_pos hend]
      exact ⟨t', rfl⟩
    · rw [if_neg hend]
      exact ⟨⟨by simp only; omega, by simp only; omega⟩, by simp only; omega⟩
  · exact ⟨rfl, hpos⟩
  · exact hfuel

end Reads

end Hash

/-- Data of any size are hashed without a read outside them. -/
theorem hashData_inside (data : Bytes) : ∃ h, hashData data = .ok h := by
  unfold hashData Hash.cfarmhash
  have hand : (data.length - 1) &&& 63 = (data.length - 1) % 64 :=
    Nat.and_two_pow_sub_one_eq_mod _ 6
  by_cases h16 : data.length ≤ 16
  · rw [if_pos h16]
    exact Hash.hashLen0To16_ok rfl
  by_cases h32 : data.length ≤ 32
  · rw [if_neg h16, if_pos h32]
    exact Hash.hashLen17To32_ok rfl (by omega)
  by_cases h64 : data.length ≤ 64
  · rw [if_neg h16, if_neg h32, if_pos h64]
    exact Hash.hashLen33To64_ok rfl (by omega)
  have hfetch : Hash.fetch64 data 0 = .ok (Hash.word 8 data 0) := Hash.fetch_of_le (by omega)
  have hlast : 0 < (data.length - 1) / 64 * 64 ∧ (data.length - 1) / 64 * 64 % 64 = 0 ∧
      (data.length - 1) / 64 * 64 ≤ data.length := by omega
  simp only [if_neg h16, if_neg h32, if_neg h64, hfetch, ok_bind, hand]
  obtain ⟨t, ht⟩ := Hash.loop_ok hlast.1 hlast.2.1 hlast.2.2 (Nat.lt_succ_of_le hlast.2.2) _
  rw [ht, ok_bind]
  exact Hash.finish_ok (by omega) _ t

/-! ## Integers -/

theorem xor_shift_xor (v : UInt64) : (v ^^^ (v >>> 33)) ^^^ ((v ^^^ (v >>> 33)) >>> 33) = v := by
  have hshift : v.toBitVec >>> 33 >>> 33 = 0#64 := by
    rw [← BitVec.shiftRight_add]
    exact BitVec.ushiftRight_eq_zero (by decide)
  have hsteps : (v.toBitVec ^^^ v.toBitVec >>> 33) ^^^
      ((v.toBitVec ^^^ v.toBitVec >>> 33) >>> 33) = v.toBitVec := by
    rw [BitVec.ushiftRight_xor_distrib, hshift, BitVec.xor_zero, BitVec.xor_assoc, BitVec.xor_self,
      BitVec.xor_zero]
  exact UInt64.eq_of_toBitVec_eq hsteps

theorem mul_mul_of_mul_eq_one {a b : UInt64} (h : a * b = 1) (v : UInt64) : v * a * b = v := by
  rw [UInt64.mul_assoc, h, UInt64.mul_one]

def unhashUint64 (v : UInt64) : UInt64 :=
  let v := v ^^^ (v >>> 33)
  let v := v * 0x9cb4b2f8129337db
  let v := v ^^^ (v >>> 33)
  let v := v * 0x4f74430c22a54005
  v ^^^ (v >>> 33)

theorem unhashUint64_hashUint64 (v : UInt64) : unhashUint64 (hashUint64 v) = v := by
  have h₁ := mul_mul_of_mul_eq_one (a := 0xff51afd7ed558ccd) (b := 0x4f74430c22a54005) rfl
  have h₂ := mul_mul_of_mul_eq_one (a := 0xc4ceb9fe1a85ec53) (b := 0x9cb4b2f8129337db) rfl
  simp only [unhashUint64, hashUint64, xor_shift_xor, h₁, h₂]

theorem hashUint64_unhashUint64 (v : UInt64) : hashUint64 (unhashUint64 v) = v := by
  have h₁ := mul_mul_of_mul_eq_one (a := 0x4f74430c22a54005) (b := 0xff51afd7ed558ccd) rfl
  have h₂ := mul_mul_of_mul_eq_one (a := 0x9cb4b2f8129337db) (b := 0xc4ceb9fe1a85ec53) rfl
  simp only [unhashUint64, hashUint64, xor_shift_xor, h₁, h₂]

/-- Different integers have different hashes, and every integer is the hash of one. -/
theorem hashUint64_bijective : Function.Bijective hashUint64 :=
  ⟨Function.LeftInverse.injective unhashUint64_hashUint64,
    Function.RightInverse.surjective hashUint64_unhashUint64⟩

end LibReactor
