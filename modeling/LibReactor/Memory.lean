import Mathlib.Algebra.Ring.Nat
import Mathlib.Data.List.Basic
import Mathlib.Tactic.Common

/-!
# Bytes, pointers and the C library's character functions

A pointer into an object is the list of the object's bytes from the pointer on,
so `p + 1` is the tail and reading `*p` of the empty list is a read outside the
object. Characters are read in the C locale.
-/

namespace LibReactor

abbrev Bytes := List UInt8

/-- The ways a modelled function can fail to return. -/
inductive Fault
  /-- an access outside the object -/
  | outside
  /-- a loop that does not end -/
  | hang
  deriving DecidableEq, Repr

@[simp] theorem ok_bind {ε α β : Type} (a : α) (f : α → Except ε β) :
    (Except.ok a >>= f) = f a := rfl

@[simp] theorem error_bind {ε α β : Type} (e : ε) (f : α → Except ε β) :
    (Except.error e >>= f) = .error e := rfl

theorem bind_eq_ok {ε α β : Type} {x : Except ε α} {f : α → Except ε β} {b : β} :
    (x >>= f) = .ok b ↔ ∃ a, x = .ok a ∧ f a = .ok b := by
  cases x with
  | error e => simp
  | ok a => simp

@[simp] theorem pure_eq_ok {ε α : Type} (a : α) : (pure a : Except ε α) = .ok a := rfl

def ch (c : Char) : UInt8 := c.toUInt8

def str (s : String) : Bytes := s.toList.map ch

abbrev nul : UInt8 := 0
abbrev tab : UInt8 := 9
abbrev lf : UInt8 := 10
abbrev cr : UInt8 := 13
abbrev space : UInt8 := 32
abbrev quote : UInt8 := 34
abbrev backslash : UInt8 := 92

def peek : Bytes → Except Fault UInt8
  | [] => .error .outside
  | c :: _ => .ok c

@[simp] theorem peek_cons (c : UInt8) (p : Bytes) : peek (c :: p) = .ok c := rfl

/-- `while (P(*p)) p++;` -/
def skipWhile (P : UInt8 → Bool) : Bytes → Except Fault Bytes
  | [] => .error .outside
  | c :: p => if P c then skipWhile P p else .ok (c :: p)

theorem skipWhile_of_not {P : UInt8 → Bool} {c : UInt8} (h : P c = false) (p : Bytes) :
    skipWhile P (c :: p) = .ok (c :: p) := by
  simp [skipWhile, h]

/-- The loop passes over bytes that satisfy the test and stops at one that does not. -/
theorem skipWhile_eq_ok {P : UInt8 → Bool} {p q : Bytes} :
    skipWhile P p = .ok q ↔
      ∃ w c t, p = w ++ c :: t ∧ (∀ x ∈ w, P x = true) ∧ P c = false ∧ q = c :: t := by
  induction p with
  | nil => simp [skipWhile]
  | cons a p ih =>
    by_cases ha : P a
    · simp only [skipWhile, ha, if_true, ih]
      constructor
      · rintro ⟨w, c, t, rfl, hw, hc, rfl⟩
        exact ⟨a :: w, c, t, rfl, by simpa [ha] using hw, hc, rfl⟩
      · rintro ⟨w, c, t, hp, hw, hc, rfl⟩
        cases w with
        | nil =>
          obtain ⟨rfl, -⟩ := List.cons.inj hp
          simp [ha] at hc
        | cons b w =>
          obtain ⟨rfl, rfl⟩ := List.cons.inj hp
          exact ⟨w, c, t, rfl, fun x hx => hw x (by simp [hx]), hc, rfl⟩
    · have ha' : P a = false := by simpa using ha
      rw [skipWhile_of_not ha']
      constructor
      · intro h
        exact ⟨[], a, p, rfl, by simp, ha', (Except.ok.inj h).symm⟩
      · rintro ⟨w, c, t, hp, hw, hc, rfl⟩
        cases w with
        | nil => rw [hp]; rfl
        | cons b w =>
          obtain ⟨rfl, -⟩ := List.cons.inj hp
          exact absurd (hw a (by simp)) ha

theorem skipWhile_append {P : UInt8 → Bool} {w : Bytes} (hw : ∀ x ∈ w, P x = true) (q : Bytes) :
    skipWhile P (w ++ q) = skipWhile P q := by
  induction w with
  | nil => rfl
  | cons a w ih =>
    rw [List.cons_append, skipWhile, if_pos (hw a (by simp))]
    exact ih (fun x hx => hw x (by simp [hx]))

/-- A longer object does not change where the loop stops. -/
theorem skipWhile_extend {P : UInt8 → Bool} {p q : Bytes} (h : skipWhile P p = .ok q) (r : Bytes) :
    skipWhile P (p ++ r) = .ok (q ++ r) := by
  obtain ⟨w, c, t, rfl, hw, hc, rfl⟩ := skipWhile_eq_ok.mp h
  rw [List.append_assoc, skipWhile_append hw]
  exact skipWhile_of_not hc _

theorem skipWhile_ok_of_mem {P : UInt8 → Bool} {c : UInt8} {p : Bytes} (hc : c ∈ p)
    (hP : P c = false) : ∃ q, skipWhile P p = .ok q := by
  induction p with
  | nil => simp at hc
  | cons a p ih =>
    by_cases ha : P a
    · obtain ⟨q, hq⟩ := ih (by
        rcases List.mem_cons.mp hc with rfl | h
        · simp [ha] at hP
        · exact h)
      exact ⟨q, by simp [skipWhile, ha, hq]⟩
    · exact ⟨a :: p, skipWhile_of_not (by simpa using ha) p⟩

theorem skipWhile_spec {P : UInt8 → Bool} {c : UInt8} {p : Bytes} (hc : c ∈ p)
    (hP : P c = false) :
    ∃ w a t, p = w ++ a :: t ∧ (∀ x ∈ w, P x = true) ∧ P a = false ∧ c ∈ a :: t ∧
      ∀ r, skipWhile P (p ++ r) = .ok (a :: t ++ r) := by
  obtain ⟨q, hq⟩ := skipWhile_ok_of_mem hc hP
  obtain ⟨w, a, t, rfl, hw, ha, rfl⟩ := skipWhile_eq_ok.mp hq
  refine ⟨w, a, t, rfl, hw, ha, ?_, fun r => skipWhile_extend hq r⟩
  rcases List.mem_append.mp hc with h | h
  · rw [hw c h] at hP
    cases hP
  · exact h

/-! ## Stores -/

def write (m : Bytes) (k : ℕ) (b : Bytes) : Bytes := m.take k ++ (b ++ m.drop (k + b.length))

def memmove (m : Bytes) (dst src n : ℕ) : Bytes := write m dst ((m.drop src).take n)

@[simp] theorem write_nil (m : Bytes) (k : ℕ) : write m k [] = m := by
  simp [write]

theorem length_write {m b : Bytes} {k : ℕ} (h : k + b.length ≤ m.length) :
    (write m k b).length = m.length := by
  simp only [write, List.length_append, List.length_take, List.length_drop]
  omega

theorem take_write {m b : Bytes} {k : ℕ} (h : k ≤ m.length) :
    (write m k b).take (k + b.length) = m.take k ++ b := by
  have hlen : (m.take k ++ b).length = k + b.length := by
    rw [List.length_append, List.length_take_of_le h]
  rw [write, ← List.append_assoc, List.take_append_of_le_length (Nat.le_of_eq hlen.symm)]
  exact List.take_of_length_le (Nat.le_of_eq hlen)

theorem drop_write {m b : Bytes} {k j : ℕ} (h : k ≤ m.length) (hj : k + b.length ≤ j) :
    (write m k b).drop j = m.drop j := by
  have hlen : (m.take k ++ b).length = k + b.length := by
    rw [List.length_append, List.length_take_of_le h]
  rw [write, ← List.append_assoc, List.drop_append, List.drop_eq_nil_of_le (by omega), hlen,
    List.drop_drop, List.nil_append]
  congr 1
  omega

theorem write_append {m b : Bytes} {k : ℕ} (h : k + b.length ≤ m.length) (x : Bytes) :
    write (m ++ x) k b = write m k b ++ x := by
  rw [write, write, List.take_append_of_le_length (by omega), List.drop_append_of_le_length h]
  simp only [List.append_assoc]

theorem write_zero_drop (m b : Bytes) (k : ℕ) : m.take k ++ write (m.drop k) 0 b = write m k b := by
  simp only [write, List.take_zero, List.nil_append, Nat.zero_add, List.drop_drop]

theorem write_write {m a b : Bytes} {k : ℕ} (h : k ≤ m.length) :
    write (write m k a) (k + a.length) b = write m k (a ++ b) := by
  rw [write, take_write h, drop_write h (by omega)]
  simp [write, Nat.add_assoc]

/-! ## Tables -/

/-- What holds of the entries of a part of a table holds of what is read there. -/
theorem getD_of_zipIdx {α : Type} {l : List α} {d : α} {P : ℕ → α → Prop} {k n i : ℕ}
    (hn : k + n ≤ l.length) (hi : i < n) (h : ∀ e ∈ ((l.drop k).take n).zipIdx, P e.2 e.1) :
    P i (l.getD (k + i) d) := by
  have hlt : k + i < l.length := by omega
  have hget : l.getD (k + i) d = l[k + i] := by
    rw [List.getD, List.getElem?_eq_getElem hlt, Option.getD_some]
  refine hget ▸ h (l[k + i], i) (List.mem_zipIdx_iff_getElem?.mpr ?_)
  rw [List.getElem?_take_of_lt hi, List.getElem?_drop, List.getElem?_eq_getElem hlt]

/-! ## ctype.h -/

def isblank (c : UInt8) : Bool := c == space || c == tab

/-- space, `\t`, `\n`, `\v`, `\f` and `\r` -/
def isspace (c : UInt8) : Bool := c == space || (9 ≤ c && c ≤ 13)

def isdigit (c : UInt8) : Bool := 48 ≤ c && c ≤ 57

def isxdigit (c : UInt8) : Bool := isdigit c || (65 ≤ c && c ≤ 70) || (97 ≤ c && c ≤ 102)

def toupper (c : UInt8) : UInt8 := if 97 ≤ c && c ≤ 122 then c - 32 else c

/-- The value of a digit or letter, as `strtoul` reads them. -/
def digitValue (c : UInt8) : ℕ :=
  if isdigit c then c.toNat - 48
  else if 65 ≤ c && c ≤ 90 then c.toNat - 55
  else if 97 ≤ c && c ≤ 122 then c.toNat - 87
  else 36

/-! ## strtoul and strtoull -/

/-- The longest run of digits of the base. It also ends where the object does. -/
def digitsOf (base : ℕ) (p : Bytes) : Bytes := p.takeWhile (fun c => digitValue c < base)

def numeral (base : ℕ) (ds : Bytes) : ℕ := ds.foldl (fun n c => n * base + digitValue c) 0

/-- The optional `0x` of base 16, which counts only before a hexadecimal digit. -/
def skipHexPrefix (base : ℕ) : Bytes → Bytes
  | a :: b :: c :: p =>
    if base = 16 ∧ a = ch '0' ∧ (b = ch 'x' ∨ b = ch 'X') ∧ isxdigit c then c :: p
    else a :: b :: c :: p
  | p => p

/-- What follows the sign: a negative numeral wraps round, one that does not fit saturates. -/
def strtoulUnsigned (base : ℕ) (negative : Bool) (p : Bytes) : ℕ :=
  let n := numeral base (digitsOf base (skipHexPrefix base p))
  if 2 ^ 64 ≤ n then 2 ^ 64 - 1 else if negative then (2 ^ 64 - n) % 2 ^ 64 else n

def strtoulSigned (base : ℕ) : Bytes → ℕ
  | c :: p =>
    if c = ch '-' then strtoulUnsigned base true p
    else if c = ch '+' then strtoulUnsigned base false p
    else strtoulUnsigned base false (c :: p)
  | [] => strtoulUnsigned base false []

/-- `strtoul(p, NULL, base)`, and `strtoull` on a machine where both are 64 bits wide. -/
def strtoul (base : ℕ) (p : Bytes) : ℕ := strtoulSigned base (p.dropWhile isspace)

theorem strtoulUnsigned_lt (base : ℕ) (negative : Bool) (p : Bytes) :
    strtoulUnsigned base negative p < 2 ^ 64 := by
  unfold strtoulUnsigned
  dsimp only
  split_ifs <;> omega

theorem strtoul_lt (base : ℕ) (p : Bytes) : strtoul base p < 2 ^ 64 := by
  unfold strtoul
  cases p.dropWhile isspace with
  | nil => exact strtoulUnsigned_lt base false []
  | cons c q =>
    simp only [strtoulSigned]
    split_ifs <;> exact strtoulUnsigned_lt _ _ _

theorem digitValue_lt_of_isxdigit {c : UInt8} (h : isxdigit c = true) : digitValue c < 16 := by
  simp only [isxdigit, isdigit, Bool.or_eq_true, Bool.and_eq_true, decide_eq_true_eq,
    UInt8.le_iff_toNat_le, UInt8.reduceToNat] at h
  simp only [digitValue, isdigit, Bool.and_eq_true, decide_eq_true_eq, UInt8.le_iff_toNat_le,
    UInt8.reduceToNat]
  split_ifs <;> omega

theorem isspace_of_isxdigit {c : UInt8} (h : isxdigit c = true) :
    isspace c = false ∧ c ≠ ch '-' ∧ c ≠ ch '+' ∧ c ≠ ch 'x' ∧ c ≠ ch 'X' := by
  have hch : (ch '-').toNat = 45 ∧ (ch '+').toNat = 43 ∧ (ch 'x').toNat = 120 ∧
      (ch 'X').toNat = 88 := by decide
  simp only [isxdigit, isdigit, Bool.or_eq_true, Bool.and_eq_true, decide_eq_true_eq,
    UInt8.le_iff_toNat_le, UInt8.reduceToNat] at h
  simp only [isspace, space, Bool.or_eq_false_iff, beq_eq_false_iff_ne, ne_eq,
    Bool.and_eq_false_iff, decide_eq_false_iff_not, UInt8.le_iff_toNat_le, ← UInt8.toNat_inj,
    UInt8.reduceToNat, hch]
  omega

theorem not_digit_of_isspace {c : UInt8} (h : isspace c = true) :
    digitValue c = 36 ∧ c ≠ ch 'x' ∧ c ≠ ch 'X' := by
  have hcases : c = 32 ∨ c = 9 ∨ c = 10 ∨ c = 11 ∨ c = 12 ∨ c = 13 := by
    simp only [isspace, space, Bool.or_eq_true, beq_iff_eq, Bool.and_eq_true, decide_eq_true_eq,
      UInt8.le_iff_toNat_le, ← UInt8.toNat_inj, UInt8.reduceToNat] at h ⊢
    omega
  rcases hcases with rfl | rfl | rfl | rfl | rfl | rfl <;> decide

theorem skipHexPrefix_stop {base : ℕ} {c : UInt8} (hc : base ≤ digitValue c) (hx : c ≠ ch 'x')
    (hX : c ≠ ch 'X') (u : Bytes) :
    ∃ v, ∀ t, skipHexPrefix base (u ++ c :: t) = v ++ c :: t := by
  have hxdigit : base = 16 → isxdigit c = false := by
    rintro rfl
    by_contra h
    have := digitValue_lt_of_isxdigit (by simpa using h)
    omega
  have hzero : base = 16 → c ≠ ch '0' := by
    rintro rfl rfl
    exact absurd hc (by decide)
  match u with
  | [] =>
    refine ⟨[], fun t => ?_⟩
    match t with
    | [] => rfl
    | [_] => rfl
    | _ :: _ :: _ => exact if_neg (fun h => hzero h.1 h.2.1)
  | [a] =>
    refine ⟨[a], fun t => ?_⟩
    match t with
    | [] => rfl
    | _ :: _ => exact if_neg (fun h => h.2.2.1.elim hx hX)
  | [a, b] =>
    exact ⟨[a, b], fun t => if_neg (fun h => by simp [hxdigit h.1] at h)⟩
  | a :: b :: d :: u =>
    by_cases h : base = 16 ∧ a = ch '0' ∧ (b = ch 'x' ∨ b = ch 'X') ∧ isxdigit d = true
    · exact ⟨d :: u, fun t => if_pos h⟩
    · exact ⟨a :: b :: d :: u, fun t => if_neg h⟩

theorem strtoulUnsigned_stop {base : ℕ} {c : UInt8} (hc : base ≤ digitValue c)
    (hx : c ≠ ch 'x') (hX : c ≠ ch 'X') (negative : Bool) (u t t' : Bytes) :
    strtoulUnsigned base negative (u ++ c :: t) = strtoulUnsigned base negative (u ++ c :: t') := by
  obtain ⟨v, hv⟩ := skipHexPrefix_stop hc hx hX u
  have hdigits : ∀ t, digitsOf base (v ++ c :: t) = digitsOf base v := by
    intro t
    unfold digitsOf
    rw [List.takeWhile_append]
    split_ifs with h
    · rw [List.takeWhile_cons_of_neg (by simpa using hc), List.append_nil]
      exact ((List.takeWhile_prefix _).eq_of_length h).symm
    · rfl
  unfold strtoulUnsigned
  rw [hv t, hv t', hdigits t, hdigits t']

/-- The value of a numeral does not depend on what follows the byte that ends it. -/
theorem strtoul_stop {base : ℕ} {a c : UInt8} (ha : isspace a = false)
    (hc : base ≤ digitValue c) (hx : c ≠ ch 'x') (hX : c ≠ ch 'X') (u t t' : Bytes) :
    strtoul base (a :: u ++ c :: t) = strtoul base (a :: u ++ c :: t') := by
  unfold strtoul
  rw [List.cons_append, List.cons_append, List.dropWhile_cons_of_neg (by simp [ha]),
    List.dropWhile_cons_of_neg (by simp [ha])]
  simp only [strtoulSigned]
  split_ifs
  · exact strtoulUnsigned_stop hc hx hX true u t t'
  · exact strtoulUnsigned_stop hc hx hX false u t t'
  · exact strtoulUnsigned_stop hc hx hX false (a :: u) t t'

/-- Digits have no prefix in front of them. -/
theorem skipHexPrefix_digits {base : ℕ} {ds : Bytes} {c : UInt8}
    (hds : ∀ x ∈ ds, isxdigit x = true) (hc : base ≤ digitValue c) (hx : c ≠ ch 'x')
    (hX : c ≠ ch 'X') (t : Bytes) : skipHexPrefix base (ds ++ c :: t) = ds ++ c :: t := by
  match ds with
  | [] =>
    obtain ⟨v, hv⟩ := skipHexPrefix_stop hc hx hX []
    have hnil := hv []
    have hvnil : v = [] := by
      have := congrArg List.length hnil
      simp only [List.nil_append, skipHexPrefix, List.length_cons, List.length_nil,
        List.length_append] at this
      exact List.length_eq_zero_iff.mp (by omega)
    rw [hv t, hvnil]
  | [a] =>
    match t with
    | [] => rfl
    | _ :: _ => exact if_neg (fun h => h.2.2.1.elim hx hX)
  | a :: b :: ds =>
    have hb := isspace_of_isxdigit (hds b (by simp))
    match ds with
    | [] => exact if_neg (fun h => h.2.2.1.elim hb.2.2.2.1 hb.2.2.2.2)
    | _ :: _ => exact if_neg (fun h => h.2.2.1.elim hb.2.2.2.1 hb.2.2.2.2)

/-- The value of digits of the base up to a byte that is none: it saturates. -/
theorem strtoul_digits {base : ℕ} {ds : Bytes} {c : UInt8} (hne : ds ≠ [])
    (hds : ∀ x ∈ ds, isxdigit x = true ∧ digitValue x < base) (hc : base ≤ digitValue c)
    (hx : c ≠ ch 'x') (hX : c ≠ ch 'X') (t : Bytes) :
    strtoul base (ds ++ c :: t) =
      if 2 ^ 64 ≤ numeral base ds then 2 ^ 64 - 1 else numeral base ds := by
  have hdigits : digitsOf base (ds ++ c :: t) = ds := by
    rw [digitsOf, List.takeWhile_append_of_pos (fun x hmem => by simpa using (hds x hmem).2),
      List.takeWhile_cons_of_neg (by simpa using hc), List.append_nil]
  have hprefix := skipHexPrefix_digits (fun x hmem => (hds x hmem).1) hc hx hX t
  obtain ⟨a, u, rfl⟩ := List.exists_cons_of_ne_nil hne
  obtain ⟨hspace, hminus, hplus, -⟩ := isspace_of_isxdigit (hds a (by simp)).1
  unfold strtoul
  rw [List.cons_append, List.dropWhile_cons_of_neg (by simp [hspace])]
  simp only [strtoulSigned, if_neg hminus, if_neg hplus]
  rw [← List.cons_append]
  simp only [strtoulUnsigned, hprefix, hdigits, Bool.false_eq_true, if_false]

/-! ## data_equal -/

/-- `memcasecmp(a, b, n) == 0` on two objects of the same size -/
def equalCase (a b : Bytes) : Bool := a.map toupper == b.map toupper

end LibReactor
