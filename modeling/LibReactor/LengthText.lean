import LibReactor.Loop
import LibReactor.PrintNumber

/-!
# The decimal text of a length

`http_u32_len` counts the decimal digits of a 32-bit number from its highest bit and a
table of powers of ten. `http_u32_sprint` stores the digits from the last one to the
first, two at a time. The text is the decimal numeral for every 32-bit number.
-/

namespace LibReactor

structure Region where
  memory : Bytes
  pointer : ℕ
  deriving DecidableEq, Repr

namespace Region

/-- `memcpy(p, d, n); p += n` -/
def push (r : Region) (d : Bytes) : Except Fault Region :=
  if r.pointer + d.length ≤ r.memory.length then
    .ok ⟨write r.memory r.pointer d, r.pointer + d.length⟩
  else .error .outside

/-- `*--p = c` -/
def pushBack (r : Region) (c : UInt8) : Except Fault Region :=
  if 0 < r.pointer ∧ r.pointer ≤ r.memory.length then
    .ok ⟨write r.memory (r.pointer - 1) [c], r.pointer - 1⟩
  else .error .outside

end Region

/-- `__builtin_clz` on a word that is not zero -/
def clz (n : ℕ) : ℕ := 31 - Nat.log2 n

def pow10 : List ℕ :=
  [0, 10, 100, 1000, 10000, 100000, 1000000, 10000000, 100000000, 1000000000]

def httpU32Len (n : ℕ) : ℕ :=
  let t := ((32 - clz (n ||| 1)) * 1233) >>> 12
  t - (if n < pow10.getD t 0 then 1 else 0) + 1

def digits : Bytes :=
  str "0001020304050607080910111213141516171819" ++
  str "2021222324252627282930313233343536373839" ++
  str "4041424344454647484950515253545556575859" ++
  str "6061626364656667686970717273747576777879" ++
  str "8081828384858687888990919293949596979899"

def httpU32SprintTurn (s : ℕ × Region) : Except Fault (Region ⊕ (ℕ × Region)) := do
  let (n, string) := s
  if 100 ≤ n then
    let i := (n % 100) <<< 1
    let string ← string.pushBack (digits.getD (i + 1) nul)
    let string ← string.pushBack (digits.getD i nul)
    return .inr (n / 100, string)
  if n < 10 then
    let string ← string.pushBack (byte n + ch '0')
    return .inl string
  else
    let i := n <<< 1
    let string ← string.pushBack (digits.getD (i + 1) nul)
    let string ← string.pushBack (digits.getD i nul)
    return .inl string

/-- `http_u32_sprint`, which stores the digits in front of the pointer -/
def httpU32Sprint (n : ℕ) (string : Region) : Except Fault Region :=
  Loop.within .hang httpU32SprintTurn (n + 1) (n, string)

/-! ## The number of digits -/

theorem or_one_div_two (n : ℕ) : (n ||| 1) / 2 = n / 2 := by
  have hshift : (n ||| 1) >>> 1 = n >>> 1 ||| 1 >>> 1 := Nat.shiftRight_or_distrib
  simpa [Nat.shiftRight_eq_div_pow] using hshift

/-- The highest bit of a number that is not zero, as `http_u32_len` finds it. -/
theorem log2_or_one {n b : ℕ} (hn : n ≠ 0) (hb : Nat.log2 (n ||| 1) = b) :
    2 ^ b ≤ n ∧ n < 2 ^ (b + 1) := by
  have hhalf := or_one_div_two n
  have hle : n ≤ n ||| 1 := Nat.left_le_or
  have hne : n ||| 1 ≠ 0 := by omega
  have hlow := Nat.log2_self_le hne
  have hhigh : n ||| 1 < 2 ^ (Nat.log2 (n ||| 1) + 1) := Nat.lt_log2_self
  rw [hb] at hlow hhigh
  refine ⟨?_, by omega⟩
  cases b with
  | zero => omega
  | succ b =>
    rw [Nat.pow_succ] at hlow ⊢
    omega

/-- The approximation of the number of digits is one too large or exact, and the table decides. -/
theorem pow10_table : ∀ b < 32, ∃ t, ((b + 1) * 1233) >>> 12 = t ∧
    (pow10.getD t 0 = if t = 0 then 0 else 10 ^ t) ∧ 10 ^ (t - 1) ≤ 2 ^ b ∧
    2 ^ (b + 1) ≤ 10 ^ (t + 1) := by
  intro b hb
  refine ⟨_, rfl, ?_⟩
  interval_cases b <;> decide

/-- `http_u32_len` counts the digits. -/
theorem httpU32Len_eq {n : ℕ} (hn : n < 2 ^ 32) : httpU32Len n = (decimal n).length := by
  by_cases h0 : n = 0
  · subst h0
    decide
  obtain ⟨b, hb⟩ : ∃ b, Nat.log2 (n ||| 1) = b := ⟨_, rfl⟩
  obtain ⟨hlow, hhigh⟩ := log2_or_one h0 hb
  have hb32 : b < 32 := by
    have hpow : 2 ^ b < 2 ^ 32 := Nat.lt_of_le_of_lt hlow hn
    exact (Nat.pow_lt_pow_iff_right (by decide)).mp hpow
  obtain ⟨t, ht, htable, hten, hten'⟩ := pow10_table b hb32
  have hclz : 32 - clz (n ||| 1) = b + 1 := by
    rw [clz, hb]
    omega
  rw [length_decimal h0, httpU32Len, hclz]
  simp only [ht]
  rw [htable]
  by_cases htzero : t = 0
  · subst htzero
    have hlog : Nat.log 10 n = 0 := Nat.log_of_lt (by omega)
    simp [hlog]
  · rw [if_neg htzero]
    by_cases hless : n < 10 ^ t
    · have hlog : Nat.log 10 n = t - 1 := by
        refine Nat.log_eq_of_pow_le_of_lt_pow (by omega) ?_
        rwa [Nat.sub_add_cancel (by omega)]
      rw [if_pos hless, hlog]
    · have hlog : Nat.log 10 n = t :=
        Nat.log_eq_of_pow_le_of_lt_pow (by omega) (by omega)
      rw [if_neg hless, hlog, Nat.sub_zero]

/-! ## The digits -/

set_option maxRecDepth 16384 in
theorem digits_getD {k : ℕ} (hk : k < 100) : digits.getD (k <<< 1) nul = byte (48 + k / 10) ∧
    digits.getD (k <<< 1 + 1) nul = byte (48 + k % 10) := by
  have hall : ∀ i < 200, digits.getD (0 + i) nul =
      byte (48 + if i % 2 = 0 then i / 2 / 10 else i / 2 % 10) := fun i hi =>
    getD_of_zipIdx (P := fun i c => c = byte (48 + if i % 2 = 0 then i / 2 / 10 else i / 2 % 10))
      (by decide) hi (by decide)
  have htens := hall (2 * k) (by omega)
  have hones := hall (2 * k + 1) (by omega)
  have hdouble : k <<< 1 = 2 * k := by omega
  rw [Nat.zero_add, if_pos (by omega), Nat.mul_div_cancel_left k Nat.two_pos] at htens
  rw [Nat.zero_add, if_neg (by omega), show (2 * k + 1) / 2 = k by omega] at hones
  exact hdouble ▸ ⟨htens, hones⟩

theorem decimal_append_digit {n : ℕ} (hn : 10 ≤ n) :
    decimal n = decimal (n / 10) ++ [byte (48 + n % 10)] := by
  rw [decimal, decimal, if_neg (by omega), if_neg (by omega),
    Nat.digits_def' (by decide) (by omega), List.reverse_cons, List.map_append]
  rfl

theorem decimal_of_lt {n : ℕ} (hn : n < 10) : decimal n = [byte (48 + n)] := by
  interval_cases n <;> decide

theorem numeral_append_digit (base : ℕ) (ds : Bytes) (c : UInt8) :
    numeral base (ds ++ [c]) = numeral base ds * base + digitValue c := by
  rw [numeral, numeral, List.foldl_append, List.foldl_cons, List.foldl_nil]

theorem numeral_decimal (n : ℕ) : numeral 10 (decimal n) = n := by
  have hvalue : ∀ d < 10, digitValue (byte (48 + d)) = d := by
    intro d hd
    interval_cases d <;> decide
  induction n using Nat.strong_induction_on with
  | _ n ih =>
    by_cases hn : n < 10
    · rw [decimal_of_lt hn, ← List.nil_append [byte (48 + n)], numeral_append_digit, hvalue n hn]
      exact Nat.zero_add n
    · rw [decimal_append_digit (by omega), numeral_append_digit, ih (n / 10) (by omega),
        hvalue _ (by omega)]
      omega

theorem decimal_injective {m n : ℕ} (h : decimal m = decimal n) : m = n := by
  rw [← numeral_decimal m, h, numeral_decimal]

theorem decimal_two {n : ℕ} (h : 10 ≤ n) (hn : n < 100) :
    decimal n = [byte (48 + n / 10), byte (48 + n % 10)] := by
  rw [decimal_append_digit h, decimal_of_lt (by omega)]
  rfl

theorem decimal_append_two {n : ℕ} (hn : 100 ≤ n) :
    decimal n = decimal (n / 100) ++ [byte (48 + n % 100 / 10), byte (48 + n % 100 % 10)] := by
  have hten : n / 10 / 10 = n / 100 := by omega
  have htens : n / 10 % 10 = n % 100 / 10 := by omega
  have hones : n % 10 = n % 100 % 10 := by omega
  rw [decimal_append_digit (by omega), decimal_append_digit (by omega), hten, htens, hones,
    List.append_assoc]
  rfl

theorem write_front {m a b : Bytes} {k : ℕ} (h : k + a.length ≤ m.length) :
    write (write m (k + a.length) b) k a = write m k (a ++ b) := by
  have htake : (write m (k + a.length) b).take k = m.take k := by
    rw [write, List.take_append_of_le_length (by rw [List.length_take]; omega), List.take_take]
    congr 1
    omega
  have hdrop : (write m (k + a.length) b).drop (k + a.length) =
      b ++ m.drop (k + a.length + b.length) := by
    have hlen : (m.take (k + a.length)).length = k + a.length := List.length_take_of_le h
    rw [write, List.drop_append_of_le_length (by omega), List.drop_eq_nil_of_le (by omega),
      List.nil_append]
  rw [write, htake, hdrop, write, List.length_append]
  simp only [List.append_assoc, Nat.add_assoc]

namespace Region

theorem pushBack_eq {r : Region} {c : UInt8} (hpos : 0 < r.pointer)
    (hle : r.pointer ≤ r.memory.length) :
    r.pushBack c = .ok ⟨write r.memory (r.pointer - 1) [c], r.pointer - 1⟩ := if_pos ⟨hpos, hle⟩

theorem pushBack_two {r : Region} {c d : UInt8} (hpos : 2 ≤ r.pointer)
    (hle : r.pointer ≤ r.memory.length) :
    (r.pushBack d >>= fun r => r.pushBack c) =
      .ok ⟨write r.memory (r.pointer - 2) [c, d], r.pointer - 2⟩ := by
  rw [pushBack_eq (by omega) hle, ok_bind, pushBack_eq (by simp only; omega) (by
    simp only
    rw [length_write (by simp only [List.length_singleton]; omega)]
    omega)]
  have hwrite := write_front (a := [c]) (b := [d]) (m := r.memory) (k := r.pointer - 2)
    (by simp only [List.length_singleton]; omega)
  rw [List.length_singleton, (by omega : r.pointer - 2 + 1 = r.pointer - 1)] at hwrite
  rw [(by omega : r.pointer - 1 - 1 = r.pointer - 2), hwrite]
  rfl

end Region

/-- `http_u32_sprint` stores the decimal numeral in front of the pointer. -/
theorem run_httpU32Sprint (n : ℕ) {r : Region} (hlen : (decimal n).length ≤ r.pointer)
    (hle : r.pointer ≤ r.memory.length) (fuel : ℕ) (hfuel : n < fuel) :
    Loop.run httpU32SprintTurn fuel (n, r) =
      some (.ok ⟨write r.memory (r.pointer - (decimal n).length) (decimal n),
        r.pointer - (decimal n).length⟩) := by
  induction n using Nat.strong_induction_on generalizing r fuel with
  | _ n ih =>
    obtain ⟨fuel, rfl⟩ : ∃ m, fuel = m + 1 := ⟨fuel - 1, by omega⟩
    by_cases hbig : 100 ≤ n
    · have hdecimal := decimal_append_two hbig
      obtain ⟨htens, hones⟩ := digits_getD (k := n % 100) (by omega)
      rw [hdecimal, List.length_append, List.length_cons, List.length_singleton] at hlen ⊢
      have hnext : httpU32SprintTurn (n, r) = .ok (.inr (n / 100,
          ⟨write r.memory (r.pointer - 2) [byte (48 + n % 100 / 10), byte (48 + n % 100 % 10)],
            r.pointer - 2⟩)) := by
        simp only [httpU32SprintTurn, if_pos hbig, htens, hones, pure_eq_ok]
        rw [← bind_assoc, Region.pushBack_two (by omega) hle, ok_bind]
      have hmemory : (write r.memory (r.pointer - 2) [byte (48 + n % 100 / 10),
          byte (48 + n % 100 % 10)]).length = r.memory.length :=
        length_write (by simp only [List.length_cons, List.length_nil]; omega)
      rw [Loop.run_succ_next _ hnext, ih (n / 100) (by omega) (by simp only; omega)
        (by simp only [hmemory]; omega) fuel (by omega)]
      have hfront := write_front (m := r.memory) (a := decimal (n / 100))
        (b := [byte (48 + n % 100 / 10), byte (48 + n % 100 % 10)])
        (k := r.pointer - 2 - (decimal (n / 100)).length) (by omega)
      rw [Nat.sub_add_cancel (by omega)] at hfront
      have hpointer : r.pointer - ((decimal (n / 100)).length + (0 + 1 + 1)) =
          r.pointer - 2 - (decimal (n / 100)).length := by omega
      simp only [hfront, hpointer]
    · refine Loop.run_succ_done _ ?_ fuel
      by_cases hone : n < 10
      · have hdigit : byte n + ch '0' = byte (48 + n) := by
          interval_cases n <;> decide
        rw [decimal_of_lt hone, List.length_singleton] at hlen ⊢
        simp only [httpU32SprintTurn, if_neg hbig, if_pos hone, hdigit, pure_eq_ok]
        rw [Region.pushBack_eq (by omega) hle, ok_bind]
      · obtain ⟨htens, hones⟩ := digits_getD (k := n) (by omega)
        have hdecimal := decimal_two (by omega) (by omega : n < 100)
        rw [hdecimal, List.length_cons, List.length_singleton] at hlen ⊢
        simp only [httpU32SprintTurn, if_neg hbig, if_neg hone, htens, hones, pure_eq_ok]
        rw [← bind_assoc, Region.pushBack_two (by omega) hle, ok_bind]

theorem httpU32Sprint_eq (n : ℕ) {r : Region} (hlen : (decimal n).length ≤ r.pointer)
    (hle : r.pointer ≤ r.memory.length) :
    httpU32Sprint n r = .ok ⟨write r.memory (r.pointer - (decimal n).length) (decimal n),
      r.pointer - (decimal n).length⟩ := by
  rw [httpU32Sprint, Loop.within, run_httpU32Sprint n hlen hle (n + 1) (by omega)]
  rfl

/-- For every 32-bit number the digits are counted right, and the bytes in front of the pointer
that are stored are the decimal numeral. -/
theorem httpU32Sprint_decimal (n : UInt32) :
    httpU32Len n.toNat = (decimal n.toNat).length ∧
    (∀ c ∈ decimal n.toNat, isdigit c = true) ∧ numeral 10 (decimal n.toNat) = n.toNat ∧
    (n ≠ 0 → (decimal n.toNat).head? ≠ some (ch '0')) ∧
    ∀ r : Region, httpU32Len n.toNat ≤ r.pointer → r.pointer ≤ r.memory.length →
      httpU32Sprint n.toNat r = .ok
        ⟨r.memory.take (r.pointer - httpU32Len n.toNat) ++ (decimal n.toNat ++
          r.memory.drop r.pointer), r.pointer - httpU32Len n.toNat⟩ := by
  have hlen : httpU32Len n.toNat = (decimal n.toNat).length := httpU32Len_eq n.toNat_lt
  refine ⟨hlen, isdigit_decimal _, numeral_decimal _, fun hn => head_decimal fun h0 => ?_,
    fun r hroom hle => ?_⟩
  · exact hn (UInt32.toNat_inj.mp h0)
  · rw [hlen] at hroom ⊢
    rw [httpU32Sprint_eq _ hroom hle, write, Nat.sub_add_cancel hroom]

theorem httpU32Sprint_decimal_largest :
    httpU32Sprint 4294967295 ⟨str "..........,", 10⟩ = .ok ⟨str "4294967295,", 0⟩ :=
  (httpU32Sprint_decimal 4294967295).2.2.2.2 ⟨str "..........,", 10⟩ (by decide) (by decide)

end LibReactor
