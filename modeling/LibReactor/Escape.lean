import LibReactor.JsonString
import Mathlib.Data.List.TakeWhile

/-!
# Escaping a string and reading it back

`string_utf8_encode` writes a text for each character of a well-formed string, and
`string_utf8_decode` reads the texts one after the other. In UTF-8 mode it reads the
characters back. In ASCII mode it loses a bit of those in every second plane.
-/

namespace LibReactor

def encodeChar (ascii : Bool) (c : ℕ) : Bytes :=
  if c < 0x80 then if stringUtf8Regular (byte c) then [byte c] else escapeByte (byte c)
  else if ascii then stringUtf8PutEncoded c else stringUtf8Put c

/-! ## Writing -/

section Writing

variable {cs : List ℕ} (hcs : ∀ c ∈ cs, Scalar c)

def regularCode (c : ℕ) : Bool := c < 0x80 && stringUtf8Regular (byte c)

theorem encodeChar_regular (ascii : Bool) {c : ℕ} (h : regularCode c = true) :
    encodeChar ascii c = utf8 c := by
  simp only [regularCode, Bool.and_eq_true, decide_eq_true_eq] at h
  rw [encodeChar, if_pos h.1, if_pos h.2, utf8_ascii h.1]

/-- A byte that starts a character is regular when the character is. -/
theorem utf8_cons {c : ℕ} (hc : Scalar c) :
    ∃ x u, utf8 c = x :: u ∧ stringUtf8Regular x = regularCode c ∧
      (regularCode c = true → u = []) := by
  by_cases hascii : c < 0x80
  · exact ⟨byte c, [], utf8_ascii hascii, by simp [regularCode, hascii], fun _ => rfl⟩
  · obtain ⟨x, u, hx, hlead, -⟩ := utf8_multi hc (by omega)
    have hcode : regularCode c = false := by simp [regularCode, hascii]
    exact ⟨x, u, hx, by simp [stringUtf8Regular, hlead, hcode], fun h => by simp [hcode] at h⟩

include hcs

theorem span_regular : (cs.flatMap utf8).takeWhile stringUtf8Regular =
      (cs.takeWhile regularCode).flatMap utf8 ∧
    (cs.flatMap utf8).dropWhile stringUtf8Regular = (cs.dropWhile regularCode).flatMap utf8 := by
  induction cs with
  | nil => exact ⟨rfl, rfl⟩
  | cons c cs ih =>
    have ih := ih fun x hx => hcs x (List.mem_cons_of_mem c hx)
    obtain ⟨x, u, hx, hregular, hu⟩ := utf8_cons (hcs c (by simp))
    cases hcode : regularCode c with
    | true =>
      rw [hcode] at hregular
      rw [List.flatMap_cons, hx, hu hcode, List.cons_append, List.nil_append,
        List.takeWhile_cons_of_pos hregular, List.dropWhile_cons_of_pos hregular,
        List.takeWhile_cons_of_pos hcode, List.dropWhile_cons_of_pos hcode, List.flatMap_cons,
        hx, hu hcode, ih.1, ih.2]
      exact ⟨rfl, rfl⟩
    | false =>
      rw [hcode] at hregular
      have hnot : ¬ stringUtf8Regular x = true := by simp [hregular]
      have hnot' : ¬ regularCode c = true := by simp [hcode]
      rw [List.flatMap_cons, hx, List.cons_append, List.takeWhile_cons_of_neg hnot,
        List.dropWhile_cons_of_neg hnot, List.takeWhile_cons_of_neg hnot',
        List.dropWhile_cons_of_neg hnot', List.flatMap_cons, hx]
      exact ⟨rfl, rfl⟩

omit hcs in
theorem flatMap_regular (ascii : Bool) : (cs.takeWhile regularCode).flatMap utf8 =
    (cs.takeWhile regularCode).flatMap (encodeChar ascii) := by
  have hall : ∀ c ∈ cs.takeWhile regularCode, utf8 c = encodeChar ascii c :=
    fun c hc => (encodeChar_regular ascii (List.mem_takeWhile_imp hc)).symm
  rw [List.flatMap_def, List.flatMap_def, List.map_congr_left hall]

/-- A turn of `string_utf8_encode` writes some characters. -/
theorem encodeTurn_chars (ascii : Bool) (hne : cs ≠ []) (buffer : Bytes) :
    ∃ rs cs', cs = rs ++ cs' ∧ rs ≠ [] ∧ encodeTurn ascii (cs.flatMap utf8, buffer) =
      .ok (.inr (cs'.flatMap utf8, buffer ++ rs.flatMap (encodeChar ascii))) := by
  obtain ⟨c, cs, rfl⟩ := List.exists_cons_of_ne_nil hne
  have hc := hcs c (by simp)
  have hcs' : ∀ x ∈ cs, Scalar x := fun x hx => hcs x (List.mem_cons_of_mem c hx)
  obtain ⟨x, u, hx, hregular, hu⟩ := utf8_cons hc
  cases hcode : regularCode c with
  | true =>
    rw [hcode] at hregular
    refine ⟨c :: cs.takeWhile regularCode, cs.dropWhile regularCode, ?_, by simp, ?_⟩
    · rw [List.cons_append, List.takeWhile_append_dropWhile]
    · rw [List.flatMap_cons, hx, hu hcode, List.cons_append, List.nil_append]
      simp only [encodeTurn, hregular, if_true, pure_eq_ok, (span_regular hcs').1,
        (span_regular hcs').2]
      rw [List.flatMap_cons, encodeChar_regular ascii hcode, hx, hu hcode,
        flatMap_regular ascii]
      rfl
  | false =>
    refine ⟨[c], cs, rfl, by simp, ?_⟩
    rw [hcode] at hregular
    rw [List.flatMap_singleton, List.flatMap_cons]
    by_cases hascii : c < 0x80
    · have hlead : ¬ 0x80 ≤ byte c := by
        rw [UInt8.le_iff_toNat_le, toNat_byte (by omega)]
        exact Nat.not_le.mpr hascii
      have hbyte : stringUtf8Regular (byte c) = false := by
        simpa [regularCode, hascii] using hcode
      rw [utf8_ascii hascii, List.cons_append, List.nil_append]
      simp only [encodeTurn, hbyte, Bool.false_eq_true, if_false, if_neg hlead, pure_eq_ok,
        encodeChar, if_pos hascii]
    · obtain ⟨y, v, hy, hlead, -⟩ := utf8_multi hc (by omega)
      have hget := stringUtf8Get_utf8 hc (by omega) (n := (utf8 c ++ cs.flatMap utf8).length)
        (by rw [List.length_append]; omega) (cs.flatMap utf8)
      obtain ⟨rfl, rfl⟩ := List.cons.inj (hx.symm.trans hy)
      rw [hx, List.cons_append, List.length_cons] at hget
      rw [hx, List.cons_append]
      simp only [encodeTurn, hregular, Bool.false_eq_true, if_false, if_pos hlead, hget, ok_bind,
        pure_eq_ok, encodeChar, if_neg hascii]

/-- `string_utf8_encode` writes the texts of the characters of a well-formed string. -/
theorem stringUtf8Encode_chars (ascii : Bool) :
    stringUtf8Encode (cs.flatMap utf8) ascii = .ok (cs.flatMap (encodeChar ascii)) := by
  refine Loop.within_variant (encodeTurn ascii)
    (I := fun x => ∃ rest, (∀ c ∈ rest, Scalar c) ∧ x.1 = rest.flatMap utf8 ∧
      x.2 ++ rest.flatMap (encodeChar ascii) = cs.flatMap (encodeChar ascii))
    (μ := fun x => x.1.length) (Q := fun r => r = .ok (cs.flatMap (encodeChar ascii))) ?_ .hang
    ⟨cs, hcs, rfl, rfl⟩ (Nat.lt_succ_self _)
  rintro ⟨p, buffer⟩ ⟨rest, hrest, hp, hbuffer⟩
  dsimp only at hp hbuffer
  subst hp
  unfold Loop.TurnSpec
  by_cases hne : rest = []
  · subst hne
    rw [List.flatMap_nil, List.append_nil] at hbuffer
    exact congrArg _ hbuffer
  · obtain ⟨rs, rest', rfl, hrs, hturn⟩ := encodeTurn_chars hrest ascii hne buffer
    rw [hturn]
    refine ⟨⟨rest', fun c hc => hrest c (List.mem_append_right _ hc), rfl, ?_⟩, ?_⟩
    · rw [List.append_assoc, ← List.flatMap_append]
      exact hbuffer
    · obtain ⟨r, rs, rfl⟩ := List.exists_cons_of_ne_nil hrs
      have hpos := List.length_pos_iff.mpr (utf8_ne_nil r)
      simp only [List.cons_append, List.flatMap_cons, List.flatMap_append, List.length_append]
      omega

end Writing

/-! ## Reading `\u` escapes -/

theorem hexDigit_value {n : ℕ} (h : n < 16) :
    isxdigit (hexDigit n) = true ∧ digitValue (hexDigit n) = n := by
  interval_cases n <;> decide

theorem and_mask (n k : ℕ) : n &&& (2 ^ k - 1) = n % 2 ^ k := Nat.and_two_pow_sub_one_eq_mod n k

/-- Four hexadecimal digits write a 16-bit code. -/
theorem stringUtf8PutEncodedBasic_digits {code : ℕ} (h : code < 0x10000) :
    ∃ a b c d, isxdigit a = true ∧ isxdigit b = true ∧ isxdigit c = true ∧ isxdigit d = true ∧
      hexCode a b c d = code ∧
      stringUtf8PutEncodedBasic code = [backslash, ch 'u', a, b, c, d] := by
  have h12 : code >>> 12 = code / 4096 := Nat.shiftRight_eq_div_pow code 12
  have h8 : (code >>> 8) &&& 0x0f = code / 256 % 16 := by
    rw [Nat.shiftRight_eq_div_pow]
    exact and_mask _ 4
  have h4 : (code >>> 4) &&& 0x0f = code / 16 % 16 := by
    rw [Nat.shiftRight_eq_div_pow]
    exact and_mask _ 4
  have h0 : code &&& 0x0f = code % 16 := and_mask _ 4
  obtain ⟨ha, hva⟩ := hexDigit_value (show code / 4096 < 16 by omega)
  obtain ⟨hb, hvb⟩ := hexDigit_value (show code / 256 % 16 < 16 by omega)
  obtain ⟨hc, hvc⟩ := hexDigit_value (show code / 16 % 16 < 16 by omega)
  obtain ⟨hd, hvd⟩ := hexDigit_value (show code % 16 < 16 by omega)
  refine ⟨_, _, _, _, ha, hb, hc, hd, ?_, by rw [stringUtf8PutEncodedBasic, h12, h8, h4, h0]⟩
  rw [hexCode, hva, hvb, hvc, hvd, Nat.or_assoc, Nat.or_assoc,
    ← Nat.shiftLeft_add_eq_or_of_lt (show code % 16 < 2 ^ 4 by omega)]
  have hlow : (code / 16 % 16) <<< 4 + code % 16 < 2 ^ 8 := by
    rw [Nat.shiftLeft_eq]
    omega
  rw [← Nat.shiftLeft_add_eq_or_of_lt hlow]
  have hmid : (code / 256 % 16) <<< 8 + ((code / 16 % 16) <<< 4 + code % 16) < 2 ^ 12 := by
    simp only [Nat.shiftLeft_eq]
    omega
  rw [← Nat.shiftLeft_add_eq_or_of_lt hmid]
  simp only [Nat.shiftLeft_eq]
  omega

/-- The character `string_utf8_get_encoded` makes of an escaped one. -/
def recovered (c : ℕ) : ℕ := if c < 0x10000 then c else 0x10000 ||| (c - 0x10000)

def OddPlane (c : ℕ) : Prop := 0x10000 ≤ c → c / 0x10000 % 2 = 1

theorem or_bit16 {q m : ℕ} (hq : q < 16) (hm : m < 2 ^ 16) :
    0x10000 ||| (q * 0x10000 + m) =
      if q % 2 = 0 then (q + 1) * 0x10000 + m else q * 0x10000 + m := by
  have hplane : ∀ q < 16, 1 ||| q = if q % 2 = 0 then q + 1 else q := by decide
  have hone : 1 <<< 16 = 0x10000 := rfl
  have hshift : q <<< 16 = q * 0x10000 := Nat.shiftLeft_eq q 16
  calc 0x10000 ||| (q * 0x10000 + m) = 1 <<< 16 ||| (q <<< 16 + m) := by rw [hone, hshift]
    _ = (1 ||| q) <<< 16 + m := by
      rw [Nat.shiftLeft_add_eq_or_of_lt hm, ← Nat.or_assoc, ← Nat.shiftLeft_or_distrib,
        ← Nat.shiftLeft_add_eq_or_of_lt hm]
    _ = _ := by
      rw [hplane q hq, Nat.shiftLeft_eq]
      split_ifs <;> rfl

/-- Recombining a pair sets the bit of the plane that splitting has not always cleared. -/
theorem recovered_eq {c : ℕ} (hc : Scalar c) :
    recovered c = if c < 0x10000 ∨ c / 0x10000 % 2 = 1 then c else c - 0x10000 := by
  unfold Scalar at hc
  unfold recovered
  by_cases hbmp : c < 0x10000
  · rw [if_pos hbmp, if_pos (.inl hbmp)]
  · rw [if_neg hbmp]
    have hx : c - 0x10000 = (c / 0x10000 - 1) * 0x10000 + c % 0x10000 := by omega
    have hor := or_bit16 (q := c / 0x10000 - 1) (m := c % 0x10000) (by omega)
      (Nat.mod_lt c (by decide))
    rw [← hx] at hor
    rw [hor]
    split_ifs <;> omega

theorem recovered_eq_self_iff {c : ℕ} (hc : Scalar c) : recovered c = c ↔ OddPlane c := by
  rw [recovered_eq hc]
  unfold OddPlane
  split_ifs with h <;> omega

theorem scalar_recovered {c : ℕ} (hc : Scalar c) : Scalar (recovered c) := by
  rw [recovered_eq hc]
  unfold Scalar at hc ⊢
  split_ifs <;> omega

theorem or_surrogate {base k : ℕ} (hbase : base % 1024 = 0) (hk : k < 1024) :
    base ||| k = base + k ∧ (base + k) &&& 0x3ff = k := by
  have hshift : base = (base / 1024) <<< 10 := by
    rw [Nat.shiftLeft_eq]
    omega
  constructor
  · conv_lhs => rw [hshift]
    rw [← Nat.shiftLeft_add_eq_or_of_lt hk, ← hshift]
  · have hmask : (base + k) &&& 0x3ff = (base + k) % 1024 := and_mask _ 10
    omega

/-- `string_utf8_get_encoded` on what `string_utf8_put_encoded` writes -/
theorem stringUtf8GetEncoded_put {c : ℕ} (hc : Scalar c) :
    ∃ w, stringUtf8PutEncoded c = backslash :: ch 'u' :: w ∧
      ∀ q, stringUtf8GetEncoded (backslash :: ch 'u' :: (w ++ q)) = .ok (recovered c, q) := by
  unfold Scalar at hc
  by_cases hbmp : c < 0x10000
  · obtain ⟨x, y, z, u, hx, hy, hz, hu, hcode, heq⟩ := stringUtf8PutEncodedBasic_digits hbmp
    refine ⟨[x, y, z, u], by rw [stringUtf8PutEncoded, if_neg (by omega), heq], fun q => ?_⟩
    rw [recovered, if_pos hbmp, ← hcode]
    exact stringUtf8GetEncoded_unicode hx hy hz hu (by omega) q
  · obtain ⟨x, hx⟩ : ∃ x, c - 0x10000 = x := ⟨_, rfl⟩
    have hhigh : x >>> 10 < 1024 := by
      rw [Nat.shiftRight_eq_div_pow]
      omega
    have hmod : x &&& 0x3ff = x % 1024 := and_mask x 10
    have hlow : x &&& 0x3ff < 1024 := by omega
    obtain ⟨hor, hmask⟩ := or_surrogate (show 0xd800 % 1024 = 0 from rfl) hhigh
    obtain ⟨hor', hmask'⟩ := or_surrogate (show 0xdc00 % 1024 = 0 from rfl) hlow
    obtain ⟨a, b, d, e, ha, hb, hd, he, hcode, heq⟩ :=
      stringUtf8PutEncodedBasic_digits (show 0xd800 + x >>> 10 < 0x10000 by omega)
    obtain ⟨a', b', d', e', ha', hb', hd', he', hcode', heq'⟩ :=
      stringUtf8PutEncodedBasic_digits (show 0xdc00 + (x &&& 0x3ff) < 0x10000 by omega)
    refine ⟨[a, b, d, e, backslash, ch 'u', a', b', d', e'], ?_, fun q => ?_⟩
    · simp only [stringUtf8PutEncoded, if_pos (Nat.not_lt.mp hbmp), hx, hor, hor', heq, heq',
        List.cons_append, List.nil_append]
    · rw [stringUtf8GetEncoded_surrogates ha hb hd he ha' hb' hd' he' (by omega) (by omega)
        (by omega) (by omega), hcode, hcode', hmask, hmask', recovered, if_neg hbmp, hx,
        Nat.or_assoc]
      have hjoin : (x >>> 10) <<< 10 ||| (x &&& 0x3ff) = x := by
        rw [← Nat.shiftLeft_add_eq_or_of_lt hlow, hmod, Nat.shiftLeft_eq, Nat.shiftRight_eq_div_pow]
        omega
      rw [hjoin]

/-! ## Reading the texts of characters -/

theorem escapeByte_reads {c : ℕ} (hc : c < 0x80) :
    CharText (escapeByte (byte c)) ∧ CharReads (escapeByte (byte c)) [byte c] := by
  have htoNat := toNat_byte (n := c) (by omega)
  have hletter : ∀ {e b : UInt8}, unescapeByte e = some b →
      CharText [backslash, e] ∧ CharReads [backslash, e] [b] :=
    fun hb => ⟨.escape (unescapeByte_isSome.mp ⟨_, hb⟩), charReads_escape hb⟩
  unfold escapeByte
  split_ifs with hquote hbackslash hff hlf hcr htab
  · rw [hquote]
    exact hletter rfl
  · rw [hbackslash]
    exact hletter rfl
  · rw [hff]
    exact hletter rfl
  · rw [hlf]
    exact hletter rfl
  · rw [hcr]
    exact hletter rfl
  · rw [htab]
    exact hletter rfl
  · rw [htoNat]
    obtain ⟨x, y, z, u, hx, hy, hz, hu, hcode, heq⟩ :=
      stringUtf8PutEncodedBasic_digits (show c < 0x10000 by omega)
    have hreads := charReads_encoded (w := [x, y, z, u])
      (stringUtf8GetEncoded_unicode hx hy hz hu (by omega))
    rw [heq]
    refine ⟨.unicode hx hy hz hu (by omega), ?_⟩
    rwa [hcode, stringUtf8Put_eq (by omega), utf8_ascii hc] at hreads

def readChar (ascii : Bool) (c : ℕ) : ℕ := if ascii then recovered c else c

theorem readChar_ascii (ascii : Bool) {c : ℕ} (hc : c < 0x80) : readChar ascii c = c := by
  have hself : recovered c = c := if_pos (by omega)
  rw [readChar, hself, ite_self]

theorem stringUtf8Put_scalar {c : ℕ} (hc : Scalar c) : stringUtf8Put c = utf8 c := by
  apply stringUtf8Put_eq
  unfold Scalar at hc
  omega

theorem encodeChar_reads (ascii : Bool) {c : ℕ} (hc : Scalar c) :
    encodeChar ascii c ≠ [] ∧ CharReads (encodeChar ascii c) (utf8 (readChar ascii c)) := by
  by_cases hascii : c < 0x80
  · rw [readChar_ascii ascii hascii, encodeChar, if_pos hascii, utf8_ascii hascii]
    cases hregular : stringUtf8Regular (byte c) with
    | true =>
      rw [if_pos rfl]
      exact ⟨List.cons_ne_nil _ _, charReads_regular hregular⟩
    | false =>
      obtain ⟨htext, hreads⟩ := escapeByte_reads hascii
      rw [if_neg Bool.false_ne_true]
      exact ⟨htext.ne_nil, hreads⟩
  · rw [encodeChar, if_neg hascii]
    cases ascii with
    | true =>
      obtain ⟨w, hw, hget⟩ := stringUtf8GetEncoded_put hc
      have hreads := charReads_encoded hget
      rw [stringUtf8Put_scalar (scalar_recovered hc), ← hw] at hreads
      rw [if_pos rfl, readChar, if_pos rfl]
      exact ⟨by rw [hw]; exact List.cons_ne_nil _ _, hreads⟩
    | false =>
      rw [if_neg Bool.false_ne_true, stringUtf8Put_scalar hc, readChar, if_neg Bool.false_ne_true]
      exact ⟨utf8_ne_nil c, charReads_multi hc (by omega)⟩

/-- What `string_utf8_encode` writes is read back character by character. -/
theorem stringUtf8Decode_encodeChar (ascii : Bool) {cs : List ℕ} (hcs : ∀ c ∈ cs, Scalar c)
    (t : Bytes) : stringUtf8Decode (cs.flatMap (encodeChar ascii) ++ quote :: t) =
      .ok (cs.flatMap (fun c => utf8 (readChar ascii c)), quote :: t) := by
  have htexts : ∀ x ∈ cs.map fun c => (encodeChar ascii c, utf8 (readChar ascii c)),
      x.1 ≠ [] ∧ CharReads x.1 x.2 := by
    intro x hx
    obtain ⟨c, hc, rfl⟩ := List.mem_map.mp hx
    exact encodeChar_reads ascii (hcs c hc)
  have hreads := stringUtf8Decode_reads htexts t
  rw [List.flatMap_map, List.flatMap_map] at hreads
  exact hreads

theorem utf8_recovered {c : ℕ} (hc : Scalar c) :
    (utf8 (recovered c)).length = (utf8 c).length ∧
      (utf8 (recovered c) = utf8 c ↔ OddPlane c) := by
  by_cases hbmp : c < 0x10000
  · have hself : recovered c = c := if_pos hbmp
    have hplane := (recovered_eq_self_iff hc).mp hself
    rw [hself]
    exact ⟨rfl, iff_of_true rfl hplane⟩
  · have hr := scalar_recovered hc
    have hlarge : 0x10000 ≤ recovered c := by
      rw [recovered, if_neg hbmp]
      exact Nat.left_le_or
    have hlength : ∀ {x}, 0x10000 ≤ x → (utf8 x).length = 4 := by
      intro x hx
      rw [utf8, if_neg (by omega), if_neg (by omega), if_neg (by omega)]
      rfl
    refine ⟨(hlength hlarge).trans (hlength (by omega)).symm, fun heq => ?_, fun hplane => ?_⟩
    · have hget := stringUtf8Get_utf8 hc (by omega) (Nat.le_refl _) []
      have hget' := stringUtf8Get_utf8 hr (by omega) (Nat.le_refl _) []
      rw [heq, hget] at hget'
      exact (recovered_eq_self_iff hc).mp (Prod.mk.inj (Except.ok.inj hget')).1.symm
    · rw [(recovered_eq_self_iff hc).mpr hplane]

theorem flatMap_recovered_iff {cs : List ℕ} (hcs : ∀ c ∈ cs, Scalar c) :
    cs.flatMap (fun c => utf8 (recovered c)) = cs.flatMap utf8 ↔ ∀ c ∈ cs, OddPlane c := by
  induction cs with
  | nil => simp
  | cons c cs ih =>
    obtain ⟨hlength, hiff⟩ := utf8_recovered (hcs c (by simp))
    have ih := ih fun x hx => hcs x (List.mem_cons_of_mem c hx)
    rw [List.flatMap_cons, List.flatMap_cons, List.forall_mem_cons, ← hiff, ← ih]
    constructor
    · exact fun h => List.append_inj h hlength
    · exact fun h => by rw [h.1, h.2]

/-- In ASCII mode a string is read back exactly when its characters beyond U+FFFF lie in planes of
an odd number, and so is a character from its escape or surrogate pair. -/
theorem stringUtf8_ascii_iff {cs : List ℕ} (hcs : ∀ c ∈ cs, Scalar c) (t : Bytes) :
    ((do stringUtf8Decode ((← stringUtf8Encode (cs.flatMap utf8) true) ++ quote :: t)) =
        .ok (cs.flatMap utf8, quote :: t) ↔ ∀ c ∈ cs, OddPlane c) ∧
      ∀ c, Scalar c → (stringUtf8GetEncoded (stringUtf8PutEncoded c ++ t) = .ok (c, t) ↔
        OddPlane c) := by
  constructor
  · rw [stringUtf8Encode_chars hcs, ok_bind, stringUtf8Decode_encodeChar true hcs,
      ← flatMap_recovered_iff hcs]
    simp [readChar]
  · intro c hc
    obtain ⟨w, hw, hget⟩ := stringUtf8GetEncoded_put hc
    rw [hw, List.cons_append, List.cons_append, hget, ← recovered_eq_self_iff hc]
    simp

/-- U+10000 and an accented letter. -/
theorem stringUtf8_ascii_iff_plane1 :
    ((do stringUtf8Decode ((← stringUtf8Encode ([0xe9, 0x10000].flatMap utf8) true) ++ [quote])) =
        .ok ([0xe9, 0x10000].flatMap utf8, [quote]) ↔ ∀ c ∈ [0xe9, 0x10000], OddPlane c) ∧
      ∀ c, Scalar c → (stringUtf8GetEncoded (stringUtf8PutEncoded c ++ []) = .ok (c, []) ↔
        OddPlane c) :=
  stringUtf8_ascii_iff (by decide) []

/-- U+20000 is read back as U+10000. -/
theorem stringUtf8_ascii_plane2 :
    stringUtf8GetEncoded (stringUtf8PutEncoded 0x20000 ++ [quote]) = .ok (0x10000, [quote]) ∧
      ¬ ∀ s, WellFormed s →
        (do stringUtf8Decode ((← stringUtf8Encode s true) ++ [quote])) = .ok (s, [quote]) := by
  refine ⟨by rfl, fun h => ?_⟩
  have heq := h (utf8 0x20000) ⟨[0x20000], by decide, rfl⟩
  have hread : (do stringUtf8Decode ((← stringUtf8Encode (utf8 0x20000) true) ++ [quote])) =
      .ok (utf8 0x10000, [quote]) := by rfl
  rw [hread] at heq
  exact absurd (Prod.mk.inj (Except.ok.inj heq)).1 (by decide)

end LibReactor
