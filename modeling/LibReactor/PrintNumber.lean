import LibReactor.JsonNumber
import Mathlib.Algebra.Order.Floor.Semiring
import Mathlib.Data.Int.Log
import Mathlib.Data.List.DropRight
import Mathlib.Data.Nat.Digits.Lemmas
import Mathlib.Data.Rat.Floor

/-!
# Numbers in JSON texts

`value_buffer_encode_number` prints with `%.32Lg`: 32 significant digits without the
zeros behind them, with an exponent of at least two digits where it is below -4 or
above 31. The decoder has no exponents with a leading zero.
-/

namespace LibReactor

/-! ## Decimal numerals -/

def decimal (n : ℕ) : Bytes :=
  if n = 0 then [ch '0'] else (Nat.digits 10 n).reverse.map (fun d => byte (48 + d))

theorem byte_digit {d : ℕ} (h : d < 10) :
    isdigit (byte (48 + d)) = true ∧ (byte (48 + d) = ch '0' → d = 0) := by
  interval_cases d <;> decide

theorem isdigit_decimal (n : ℕ) : ∀ c ∈ decimal n, isdigit c = true := by
  intro c hc
  unfold decimal at hc
  split_ifs at hc
  · rw [List.mem_singleton.mp hc]
    rfl
  · obtain ⟨d, hd, rfl⟩ := List.mem_map.mp hc
    exact (byte_digit (Nat.digits_lt_base (by decide) (List.mem_reverse.mp hd))).1

theorem length_decimal {n : ℕ} (hn : n ≠ 0) : (decimal n).length = Nat.log 10 n + 1 := by
  rw [decimal, if_neg hn, List.length_map, List.length_reverse,
    Nat.length_digits 10 n (by decide) hn]

theorem length_decimal_le {n k : ℕ} (hn : n < 10 ^ k) (hk : k ≠ 0) : (decimal n).length ≤ k := by
  by_cases h0 : n = 0
  · rw [decimal, if_pos h0, List.length_singleton]
    exact Nat.one_le_iff_ne_zero.mpr hk
  · rw [length_decimal h0]
    exact Nat.log_lt_of_lt_pow h0 hn

theorem decimal_ne_nil (n : ℕ) : decimal n ≠ [] := by
  by_cases h0 : n = 0
  · simp [decimal, h0]
  · have hlength := length_decimal h0
    intro hnil
    rw [hnil, List.length_nil] at hlength
    omega

theorem head_decimal {n : ℕ} (hn : n ≠ 0) : (decimal n).head? ≠ some (ch '0') := by
  rw [decimal, if_neg hn, List.head?_map, List.head?_reverse,
    List.getLast?_eq_some_getLast (Nat.digits_ne_nil_iff_ne_zero.mpr hn)]
  intro h
  have hlast := Nat.getLast_digit_ne_zero 10 hn
  have hlt := Nat.digits_lt_base (b := 10) (by decide)
    (List.getLast_mem (Nat.digits_ne_nil_iff_ne_zero.mpr hn))
  exact hlast ((byte_digit hlt).2 (Option.some.inj h))

theorem intText_decimal (n : ℕ) : IntText (decimal n) := by
  refine ⟨⟨decimal_ne_nil n, isdigit_decimal n⟩, fun hhead => ?_⟩
  by_cases h0 : n = 0
  · rw [decimal, if_pos h0]
  · exact absurd hhead (head_decimal h0)

/-! ## %.32Lg -/

/-- The finite values of an 80-bit `long double`. -/
structure LongDouble where
  negative : Bool
  mantissa : ℕ
  exponent : ℤ
  mantissa_lt : mantissa < 2 ^ 64
  exponent_ge : -16445 ≤ exponent
  exponent_le : exponent ≤ 16320

def LongDouble.magnitude (x : LongDouble) : ℚ := x.mantissa * 2 ^ x.exponent

def roundHalfEven (r : ℚ) : ℤ :=
  let n := ⌊r⌋
  if r - n < 1 / 2 then n
  else if 1 / 2 < r - n then n + 1
  else if n % 2 = 0 then n else n + 1

/-- The 32 significant digits of a value, as a number, and its decimal exponent. -/
def significant (q : ℚ) : ℕ × ℤ :=
  if q = 0 then (0, 0)
  else
    let k := Int.log 10 q
    let n := (roundHalfEven (q / 10 ^ (k - 31))).toNat
    if n = 10 ^ 32 then (10 ^ 31, k + 1) else (n, k)

/-- The exponent that decides between the notations. -/
def LongDouble.decimalExponent (x : LongDouble) : ℤ := (significant x.magnitude).2

def significantDigits (n : ℕ) : Bytes := if n = 0 then List.replicate 32 (ch '0') else decimal n

/-- A fraction without its trailing zeros, and without its point if nothing is left. -/
def fraction (ds : Bytes) : Bytes :=
  let ds := ds.rdropWhile (· == ch '0')
  if ds = [] then [] else ch '.' :: ds

def fixedText (x : ℤ) (ds : Bytes) : Bytes :=
  if 0 ≤ x then ds.take (x.toNat + 1) ++ fraction (ds.drop (x.toNat + 1))
  else ch '0' :: fraction (List.replicate (-x - 1).toNat (ch '0') ++ ds)

def exponentText (x : ℤ) (ds : Bytes) : Bytes :=
  ds.take 1 ++ (fraction (ds.drop 1) ++ (ch 'e' :: (if x < 0 then ch '-' else ch '+') ::
    (if x.natAbs < 10 then ch '0' :: decimal x.natAbs else decimal x.natAbs)))

/-- `snprintf(str, sizeof str, "%.32Lg", x)` with `sizeof str` 64 -/
def LongDouble.print (x : LongDouble) : Bytes :=
  let (n, e) := significant x.magnitude
  let ds := significantDigits n
  let text := if -4 ≤ e ∧ e < 32 then fixedText e ds else exponentText e ds
  ((if x.negative then [ch '-'] else []) ++ text).take 63

/-! ## The digits -/

theorem roundHalfEven_bounds (r : ℚ) : ⌊r⌋ ≤ roundHalfEven r ∧ roundHalfEven r ≤ ⌊r⌋ + 1 := by
  unfold roundHalfEven
  dsimp only
  split_ifs <;> omega

theorem significant_spec {q : ℚ} (hq : 0 < q) :
    (10 ^ 31 ≤ (significant q).1 ∧ (significant q).1 < 10 ^ 32) ∧
      (Int.log 10 q ≤ (significant q).2 ∧ (significant q).2 ≤ Int.log 10 q + 1) := by
  have hle : (10 : ℚ) ^ Int.log 10 q ≤ q := by
    exact_mod_cast Int.zpow_log_le_self (b := 10) (by decide) hq
  have hlt : q < (10 : ℚ) ^ (Int.log 10 q + 1) := by
    exact_mod_cast Int.lt_zpow_succ_log_self (b := 10) (by decide) q
  unfold significant
  rw [if_neg hq.ne']
  dsimp only
  generalize Int.log 10 q = k at hle hlt ⊢
  have hpos : (0 : ℚ) < 10 ^ (k - 31) := zpow_pos (by norm_num) _
  have hlow : (10 : ℚ) ^ 31 ≤ q / 10 ^ (k - 31) := by
    rw [le_div_iff₀ hpos, ← zpow_natCast, ← zpow_add₀ (by norm_num)]
    simpa using hle
  have hhigh : q / 10 ^ (k - 31) < (10 : ℚ) ^ 32 := by
    rw [div_lt_iff₀ hpos, ← zpow_natCast, ← zpow_add₀ (by norm_num)]
    have hexp : ((32 : ℕ) : ℤ) + (k - 31) = k + 1 := by omega
    rwa [hexp]
  have hfloor : (10 : ℤ) ^ 31 ≤ ⌊q / 10 ^ (k - 31)⌋ := Int.le_floor.mpr (by exact_mod_cast hlow)
  have hfloor' : ⌊q / 10 ^ (k - 31)⌋ < (10 : ℤ) ^ 32 := Int.floor_lt.mpr (by exact_mod_cast hhigh)
  have hround := roundHalfEven_bounds (q / 10 ^ (k - 31))
  split_ifs with hcarry
  · refine ⟨⟨Nat.le_refl _, ?_⟩, ?_, ?_⟩ <;> dsimp only <;> omega
  · refine ⟨⟨?_, ?_⟩, ?_, ?_⟩ <;> dsimp only <;> omega

theorem LongDouble.significantDigits_spec (x : LongDouble) :
    ∃ d ds, significantDigits (significant x.magnitude).1 = d :: ds ∧ ds.length = 31 ∧
      (∀ c ∈ d :: ds, isdigit c = true) ∧ (d = ch '0' → x.decimalExponent = 0) := by
  by_cases h0 : x.magnitude = 0
  · have hsignificant : significant x.magnitude = (0, 0) := if_pos h0
    refine ⟨ch '0', List.replicate 31 (ch '0'), by rw [hsignificant]; rfl, by simp, ?_, ?_⟩
    · intro c hc
      obtain rfl : c = ch '0' := (List.mem_cons.mp hc).elim id List.eq_of_mem_replicate
      rfl
    · intro _
      rw [LongDouble.decimalExponent, hsignificant]
  · have hnonneg : 0 ≤ x.magnitude :=
      mul_nonneg (Nat.cast_nonneg _) (zpow_nonneg (by norm_num) _)
    obtain ⟨⟨hlow, hhigh⟩, -⟩ := significant_spec (lt_of_le_of_ne hnonneg (Ne.symm h0))
    generalize (significant x.magnitude).1 = n at hlow hhigh
    have hn : n ≠ 0 := by omega
    have hlength : (decimal n).length = 32 := by
      rw [length_decimal hn, Nat.log_eq_of_pow_le_of_lt_pow hlow hhigh]
    rw [significantDigits, if_neg hn]
    have hdigits := isdigit_decimal n
    have hhead := head_decimal hn
    cases hd : decimal n with
    | nil => exact absurd hd (decimal_ne_nil n)
    | cons d ds =>
      rw [hd] at hlength hdigits hhead
      refine ⟨d, ds, rfl, by simpa using hlength, hdigits, fun hzero => ?_⟩
      rw [hzero] at hhead
      exact absurd rfl hhead

/-! ## The text -/

theorem fraction_spec (ds : Bytes) (hds : ∀ c ∈ ds, isdigit c = true) :
    FracText (fraction ds) ∧ (fraction ds).length ≤ ds.length + 1 := by
  have hstart := List.rdropWhile_prefix (fun c => c == ch '0') ds
  unfold fraction
  dsimp only
  split_ifs with hnil
  · exact ⟨.inl rfl, Nat.zero_le _⟩
  · refine ⟨.inr ⟨_, rfl, hnil, fun c hc => hds c (hstart.subset hc)⟩, ?_⟩
    exact Nat.succ_le_succ hstart.length_le

/-- A text of the fixed notation is a number of the grammar. -/
theorem fixedText_spec {x : ℤ} {d : UInt8} {ds : Bytes} (hx : -4 ≤ x) (hx' : x < 32)
    (hlength : ds.length = 31) (hdigits : ∀ c ∈ d :: ds, isdigit c = true)
    (hzero : d = ch '0' → x = 0) :
    (∃ int frac, fixedText x (d :: ds) = int ++ frac ∧ IntText int ∧ FracText frac) ∧
      (fixedText x (d :: ds)).length ≤ 40 := by
  unfold fixedText
  split_ifs with hpos
  · obtain ⟨hfrac, hle⟩ := fraction_spec ((d :: ds).drop (x.toNat + 1))
      (fun c hc => hdigits c (List.mem_of_mem_drop hc))
    refine ⟨⟨_, _, rfl, ⟨⟨by simp, fun c hc => hdigits c (List.mem_of_mem_take hc)⟩, ?_⟩,
      hfrac⟩, ?_⟩
    · intro hhead
      have hd : d = ch '0' := by simpa using hhead
      rw [hzero hd, hd]
      rfl
    · simp only [List.length_append, List.length_take, List.length_drop, List.length_cons,
        hlength] at hle ⊢
      omega
  · obtain ⟨hfrac, hle⟩ := fraction_spec (List.replicate (-x - 1).toNat (ch '0') ++ d :: ds)
      (fun c hc => by
        rcases List.mem_append.mp hc with hc | hc
        · rw [List.eq_of_mem_replicate hc]
          rfl
        · exact hdigits c hc)
    refine ⟨⟨[ch '0'], _, rfl, intText_decimal 0, hfrac⟩, ?_⟩
    simp only [List.length_append, List.length_replicate, List.length_cons, hlength] at hle ⊢
    omega

def exponentDigits (k : ℕ) : Bytes := if k < 10 then ch '0' :: decimal k else decimal k

theorem exponentText_spec {x : ℤ} {d : UInt8} {ds : Bytes} (hx : x.natAbs < 10000)
    (hlength : ds.length = 31) (hdigits : ∀ c ∈ d :: ds, isdigit c = true) (hd : d ≠ ch '0') :
    ∃ frac sign, exponentText x (d :: ds) =
        [d] ++ (frac ++ ch 'e' :: sign :: exponentDigits x.natAbs) ∧
      IntText [d] ∧ FracText frac ∧ (sign = ch '-' ∨ sign = ch '+') ∧
      (exponentText x (d :: ds)).length ≤ 40 := by
  obtain ⟨hfrac, hle⟩ := fraction_spec ds (fun c hc => hdigits c (by simp [hc]))
  have hsign : (if x < 0 then ch '-' else ch '+') = ch '-' ∨
      (if x < 0 then ch '-' else ch '+') = ch '+' := by
    split_ifs <;> simp
  refine ⟨fraction ds, _, rfl, ⟨⟨by simp, fun c hc => hdigits c (by simp_all)⟩, fun h => ?_⟩, hfrac,
    hsign, ?_⟩
  · exact absurd (by simpa using h) hd
  · have hdecimal := length_decimal_le (k := 4) hx (by decide)
    have hexponent : (exponentDigits x.natAbs).length ≤ 5 := by
      unfold exponentDigits
      split_ifs
      · rw [List.length_cons]
        omega
      · omega
    have heq : (exponentText x (d :: ds)).length =
        1 + ((fraction ds).length + ((exponentDigits x.natAbs).length + 2)) := by
      simp only [exponentText, exponentDigits, List.length_append, List.length_cons,
        List.take_succ_cons, List.take_zero, List.length_nil, List.drop_succ_cons,
        List.drop_zero]
    omega

theorem two_zpow_le (k : ℕ) : (2 : ℚ) ^ (2 * k : ℤ) ≤ 10 ^ (k : ℤ) := by
  rw [zpow_mul, zpow_natCast, zpow_natCast]
  exact pow_le_pow_left₀ (by norm_num) (by norm_num) k

theorem zpow_neg_le (k : ℕ) : (10 : ℚ) ^ (-k : ℤ) ≤ 2 ^ (-(2 * k) : ℤ) := by
  rw [zpow_neg, zpow_neg]
  exact inv_anti₀ (zpow_pos (by norm_num) _) (two_zpow_le k)

theorem LongDouble.natAbs_decimalExponent (x : LongDouble) : x.decimalExponent.natAbs < 10000 := by
  by_cases h0 : x.magnitude = 0
  · have hzero : x.decimalExponent = 0 := by rw [LongDouble.decimalExponent, significant, if_pos h0]
    rw [hzero]
    decide
  have hmantissa : x.mantissa ≠ 0 := by
    intro hzero
    simp [LongDouble.magnitude, hzero] at h0
  have hone : (1 : ℚ) ≤ x.mantissa := by exact_mod_cast Nat.one_le_iff_ne_zero.mpr hmantissa
  have htwo : (0 : ℚ) < 2 ^ x.exponent := zpow_pos (by norm_num) _
  have hpos : 0 < x.magnitude := mul_pos (by linarith) htwo
  have hlow : (10 : ℚ) ^ (-(8223 : ℕ) : ℤ) ≤ x.magnitude := by
    calc (10 : ℚ) ^ (-(8223 : ℕ) : ℤ) ≤ 2 ^ (-(2 * (8223 : ℕ)) : ℤ) := zpow_neg_le 8223
      _ ≤ 2 ^ x.exponent := zpow_le_zpow_right₀ (by norm_num) (by have := x.exponent_ge; omega)
      _ ≤ x.magnitude := le_mul_of_one_le_left htwo.le hone
  have hhigh : x.magnitude < (10 : ℚ) ^ ((8192 : ℕ) : ℤ) := by
    have hlt : (x.mantissa : ℚ) < 2 ^ (64 : ℤ) := by exact_mod_cast x.mantissa_lt
    calc x.magnitude < 2 ^ (64 : ℤ) * 2 ^ x.exponent := mul_lt_mul_of_pos_right hlt htwo
      _ = 2 ^ (64 + x.exponent) := (zpow_add₀ (by norm_num) _ _).symm
      _ ≤ 2 ^ (2 * (8192 : ℕ) : ℤ) :=
        zpow_le_zpow_right₀ (by norm_num) (by have := x.exponent_le; omega)
      _ ≤ 10 ^ ((8192 : ℕ) : ℤ) := two_zpow_le 8192
  have hlog := (Int.zpow_le_iff_le_log (b := 10) (by decide) hpos).mp hlow
  have hlog' := (Int.lt_zpow_iff_log_lt (b := 10) (by decide) hpos).mp hhigh
  have hspec := (significant_spec hpos).2
  unfold LongDouble.decimalExponent
  omega

/-- The parts of the text that is printed, which fits the buffer. -/
theorem LongDouble.print_parts (x : LongDouble) :
    ∃ minus int frac exp, x.print = minus ++ (int ++ (frac ++ exp)) ∧
      (minus = [] ∨ minus = [ch '-']) ∧ IntText int ∧ FracText frac ∧
      ((-4 ≤ x.decimalExponent ∧ x.decimalExponent < 32) ∧ exp = [] ∨
        ¬ (-4 ≤ x.decimalExponent ∧ x.decimalExponent < 32) ∧
        ∃ sign, (sign = ch '-' ∨ sign = ch '+') ∧
          exp = ch 'e' :: sign :: exponentDigits x.decimalExponent.natAbs) := by
  obtain ⟨d, ds, hds, hlength, hdigits, hzero⟩ := x.significantDigits_spec
  obtain ⟨minus, hminus⟩ : ∃ minus, minus = if x.negative then [ch '-'] else [] := ⟨_, rfl⟩
  have hsign : minus = [] ∨ minus = [ch '-'] := by
    rw [hminus]
    split_ifs <;> simp
  have hminuslen : minus.length ≤ 1 := by
    rcases hsign with rfl | rfl <;> decide
  have hfits : ∀ {text : Bytes}, text.length ≤ 40 → (minus ++ text).take 63 = minus ++ text := by
    intro text htext
    apply List.take_of_length_le
    rw [List.length_append]
    omega
  have hprint : x.print = (minus ++ (if -4 ≤ x.decimalExponent ∧ x.decimalExponent < 32 then
      fixedText x.decimalExponent (d :: ds)
      else exponentText x.decimalExponent (d :: ds))).take 63 := by
    rw [hminus, ← hds]
    rfl
  rw [hprint]
  split_ifs with hfixed
  · obtain ⟨⟨int, frac, heq, hint, hfrac⟩, hle⟩ :=
      fixedText_spec hfixed.1 hfixed.2 hlength hdigits hzero
    refine ⟨minus, int, frac, [], ?_, hsign, hint, hfrac, .inl ⟨hfixed, rfl⟩⟩
    rw [hfits hle, heq, List.append_nil]
  · have hd : d ≠ ch '0' := by
      intro hd
      rw [hzero hd] at hfixed
      exact hfixed (by decide)
    obtain ⟨frac, sign, heq, hint, hfrac, hsign', hle⟩ :=
      exponentText_spec x.natAbs_decimalExponent hlength hdigits hd
    refine ⟨minus, [d], frac, _, ?_, hsign, hint, hfrac, .inr ⟨hfixed, sign, hsign', rfl⟩⟩
    rw [hfits hle, heq]

/-! ## Which texts the decoder takes -/

theorem mem_significand {minus int frac : Bytes} (hminus : minus = [] ∨ minus = [ch '-'])
    (hint : IntText int) (hfrac : FracText frac) :
    ∀ c ∈ minus ++ (int ++ frac), isdigit c = true ∨ c = ch '-' ∨ c = ch '.' := by
  intro c hc
  rcases List.mem_append.mp hc with hc | hc
  · rcases hminus with rfl | rfl
    · cases hc
    · exact .inr (.inl (List.mem_singleton.mp hc))
  rcases List.mem_append.mp hc with hc | hc
  · exact .inl (hint.1.2 c hc)
  · rcases hfrac with rfl | ⟨ds, rfl, hds⟩
    · cases hc
    · rcases List.mem_cons.mp hc with rfl | hc
      · exact .inr (.inr rfl)
      · exact .inl (hds.2 c hc)

theorem not_marker {c : UInt8} (h : isdigit c = true ∨ c = ch '-' ∨ c = ch '.') :
    c ≠ ch 'e' ∧ c ≠ ch 'E' ∧ c ≠ nul := by
  refine ⟨?_, ?_, ?_⟩ <;> rintro rfl <;> simp only [show isdigit (ch 'e') = false from rfl,
    show isdigit (ch 'E') = false from rfl, show isdigit nul = false from rfl] at h <;>
    revert h <;> decide

/-- The first marker of a number starts its exponent. -/
theorem NumberText.exp {a b : Bytes} (ha : ∀ c ∈ a, c ≠ ch 'e' ∧ c ≠ ch 'E')
    (h : NumberText (a ++ ch 'e' :: b)) : ExpText (ch 'e' :: b) := by
  obtain ⟨minus, int, frac, exp, heq, hminus, hint, hfrac, hexp⟩ := h
  have hparts : ∀ c ∈ minus ++ (int ++ frac), c ≠ ch 'e' ∧ c ≠ ch 'E' := fun c hc =>
    (not_marker (mem_significand hminus hint hfrac c hc)).imp_right And.left
  have hassoc : a ++ ch 'e' :: b = (minus ++ (int ++ frac)) ++ exp := by simpa using heq
  rcases hexp with rfl | ⟨e, sign, ds, rfl, he, hsign, hds⟩
  · have hmem : ch 'e' ∈ (minus ++ (int ++ frac)) ++ [] := hassoc ▸ by simp
    rw [List.append_nil] at hmem
    exact absurd rfl (hparts _ hmem).1
  · have hspan : ∀ {u v : Bytes} {m : UInt8}, (∀ c ∈ u, c ≠ ch 'e' ∧ c ≠ ch 'E') →
        (m = ch 'e' ∨ m = ch 'E') →
        (u ++ m :: v).takeWhile (fun c => !(c == ch 'e') && !(c == ch 'E')) = u := by
      intro u v m hu hm
      rw [List.takeWhile_append_of_pos fun c hc => by simpa using hu c hc,
        List.takeWhile_cons_of_neg (by rcases hm with rfl | rfl <;> decide), List.append_nil]
    have hstart := hspan (v := b) ha (.inl rfl)
    rw [hassoc, List.cons_append, hspan hparts he] at hstart
    rw [← hstart] at hassoc
    rw [List.append_cancel_left hassoc]
    exact .inr ⟨e, sign, ds, rfl, he, hsign, hds⟩

/-- An exponent of one digit is printed with a zero in front, which the grammar excludes. -/
theorem not_expText_of_zero {sign : UInt8} (hsign : sign = ch '-' ∨ sign = ch '+') (k : ℕ) :
    ¬ ExpText (ch 'e' :: sign :: ch '0' :: decimal k) := by
  rintro (h | ⟨e, sign', ds, heq, -, hsign', hds⟩)
  · cases h
  have hzero : ¬ IntText (ch '0' :: decimal k) := by
    intro h
    exact decimal_ne_nil k (List.cons.inj (h.2 rfl)).2
  rcases hsign' with rfl | rfl | rfl
  · obtain ⟨-, rfl⟩ := List.cons.inj heq
    have hdigit := hds.1.2 sign (by simp)
    rcases hsign with rfl | rfl <;> cases hdigit
  · obtain ⟨-, heq⟩ := List.cons.inj heq
    obtain ⟨-, rfl⟩ := List.cons.inj heq
    exact hzero hds
  · obtain ⟨-, heq⟩ := List.cons.inj heq
    obtain ⟨-, rfl⟩ := List.cons.inj heq
    exact hzero hds

namespace LongDouble

variable (x : LongDouble)

theorem numberText_print_iff :
    NumberText x.print ↔ ¬ (-9 ≤ x.decimalExponent ∧ x.decimalExponent ≤ -5) := by
  obtain ⟨minus, int, frac, exp, heq, hminus, hint, hfrac, hexp⟩ := x.print_parts
  rw [heq]
  rcases hexp with ⟨hfixed, rfl⟩ | ⟨hfixed, sign, hsign, rfl⟩
  · exact iff_of_true ⟨minus, int, frac, [], rfl, hminus, hint, hfrac, .inl rfl⟩ (by omega)
  unfold exponentDigits
  split_ifs with hsmall
  · refine iff_of_false (fun h => ?_) (by omega)
    exact not_expText_of_zero hsign _ (NumberText.exp (a := minus ++ (int ++ frac))
      (fun c hc => (not_marker (mem_significand hminus hint hfrac c hc)).imp_right And.left)
      (by simpa using h))
  · refine iff_of_true ⟨minus, int, frac, _, rfl, hminus, hint, hfrac, .inr ?_⟩ (by omega)
    exact ⟨ch 'e', [sign], _, rfl, .inl rfl, by rcases hsign with rfl | rfl <;> simp,
      intText_decimal _⟩

theorem nul_notMem_print : nul ∉ x.print := by
  obtain ⟨minus, int, frac, exp, heq, hminus, hint, hfrac, hexp⟩ := x.print_parts
  have hdecimal : ∀ k, nul ∉ decimal k := fun k hmem => by
    cases isdigit_decimal k nul hmem
  have hexpnul : nul ∉ exp := by
    rcases hexp with ⟨-, rfl⟩ | ⟨-, sign, hsign, rfl⟩
    · simp
    · have hdigits : nul ∉ exponentDigits x.decimalExponent.natAbs := by
        unfold exponentDigits
        split_ifs
        · rw [List.mem_cons]
          exact fun h => h.elim (by decide) (hdecimal _)
        · exact hdecimal _
      rcases hsign with rfl | rfl
      · rw [List.mem_cons, List.mem_cons]
        exact fun h => h.elim (by decide) fun h => h.elim (by decide) hdigits
      · rw [List.mem_cons, List.mem_cons]
        exact fun h => h.elim (by decide) fun h => h.elim (by decide) hdigits
  have hassoc : x.print = (minus ++ (int ++ frac)) ++ exp := by simpa using heq
  rw [hassoc, List.mem_append]
  rintro (hmem | hmem)
  · exact (not_marker (mem_significand hminus hint hfrac nul hmem)).2.2 rfl
  · exact hexpnul hmem

end LongDouble

/-- The decoder takes a number in full exactly when its decimal exponent is not between -9 and
-5, where the exponent is printed with a leading zero. -/
theorem valueDecodeNumber_print_iff {L : Type} (strtold : Bytes → L × Bool) (x : LongDouble)
    (hrange : (strtold x.print).2 = false) :
    valueDecodeNumber strtold (x.print ++ [nul]) = .ok (.number (strtold x.print).1, [nul]) ↔
      ¬ (-9 ≤ x.decimalExponent ∧ x.decimalExponent ≤ -5) := by
  rw [← x.numberText_print_iff]
  constructor
  · intro h
    obtain ⟨w, hw, hnumber, -⟩ := valueDecodeNumber_sound ⟨x.print, rfl, x.nul_notMem_print⟩ h rfl
    rwa [List.append_cancel_right hw]
  · exact fun h => valueDecodeNumber_complete strtold h hrange (by decide) []

/-- 2^-17 is printed as 7.62939453125e-06, of which the decoder takes nothing. -/
theorem valueDecodeNumber_print_small :
    LongDouble.print ⟨false, 1, -17, by decide, by decide, by decide⟩ =
        str "7.62939453125e-06" ∧
      ¬ ∀ (x : LongDouble) (strtold : Bytes → ℕ × Bool), (strtold x.print).2 = false →
        valueDecodeNumber strtold (x.print ++ [nul]) =
          .ok (.number (strtold x.print).1, [nul]) := by
  have hprint : LongDouble.print ⟨false, 1, -17, by decide, by decide, by decide⟩ =
      str "7.62939453125e-06" := by
    decide +kernel
  refine ⟨hprint, fun h => ?_⟩
  have heq := h ⟨false, 1, -17, by decide, by decide, by decide⟩ (fun _ => (0, false)) rfl
  rw [hprint] at heq
  cases heq

/-- A number in fixed notation. -/
theorem valueDecodeNumber_print_iff_quarter :
    valueDecodeNumber (fun _ => ((0 : ℕ), false))
        (LongDouble.print ⟨true, 5, -2, by decide, by decide, by decide⟩ ++ [nul]) =
        .ok (.number 0, [nul]) ↔
      ¬ (-9 ≤ LongDouble.decimalExponent ⟨true, 5, -2, by decide, by decide, by decide⟩ ∧
        LongDouble.decimalExponent ⟨true, 5, -2, by decide, by decide, by decide⟩ ≤ -5) :=
  valueDecodeNumber_print_iff (fun _ => (0, false)) _ rfl

end LibReactor
