import LibReactor.Decode
import LibReactor.Object
import LibReactor.Terminated
import Mathlib.Data.List.TakeWhile

/-!
# The JSON decoder stays inside its input

On a terminated string that breaks off no multi-byte sequence `value_decode`
returns, with an end inside the string and with no other values left than the one
it returns. The invariant of its loop says what may be on the stack, what the heap
objects belong to and, for the sizes of the objects on the stack, that every member
took four bytes of the input.
-/

namespace LibReactor

variable {L : Type}

/-! ## The scanners -/

section Scanners

variable {p q : Bytes}

theorem Terminated.peek (h : Terminated p) : ∃ c t, p = c :: t ∧ LibReactor.peek p = .ok c := by
  obtain ⟨c, t, rfl⟩ := h.exists_cons
  exact ⟨c, t, rfl, rfl⟩

theorem dropWhile_inside {P : UInt8 → Bool} (h : Terminated p) (hP : P nul = false) :
    Inside p (p.dropWhile P) := by
  obtain ⟨s, rfl, -⟩ := h
  refine ⟨fun hnil => ?_, List.dropWhile_suffix P⟩
  have := List.dropWhile_eq_nil_iff.mp hnil nul (by simp)
  rw [hP] at this
  cases this

theorem skipSign_inside (h : Terminated p) : Inside p (skipSign p) := by
  obtain ⟨c, t, rfl⟩ := h.exists_cons
  rw [skipSign]
  split_ifs with hc
  · exact h.tail (by rcases hc with rfl | rfl <;> decide)
  · exact Inside.refl h.ne_nil

theorem fractionEnd_inside {digit : UInt8 → Bool} (h : Terminated p) (hdigit : digit nul = false) :
    Inside p (fractionEnd digit p) := by
  obtain ⟨c, t, rfl⟩ := h.exists_cons
  rw [fractionEnd]
  split_ifs with hc
  · have ht := h.tail (c := c) (by rw [hc]; decide)
    exact ht.trans (dropWhile_inside (h.inside ht) hdigit)
  · exact Inside.refl h.ne_nil

theorem exponentEnd_inside {marker : UInt8 → Bool} (h : Terminated p)
    (hmarker : marker nul = false) :
    Inside p (exponentEnd marker p) := by
  obtain ⟨c, t, rfl⟩ := h.exists_cons
  rw [exponentEnd]
  split_ifs with hc
  · have ht := h.tail (c := c) (by
      rintro rfl
      simp [hmarker] at hc)
    have hsign := ht.trans (skipSign_inside (h.inside ht))
    exact hsign.trans (dropWhile_inside (h.inside hsign) (by decide))
  · exact Inside.refl h.ne_nil

theorem floatEnd_inside {digit marker : UInt8 → Bool} (h : Terminated p)
    (hdigit : digit nul = false) (hmarker : marker nul = false) :
    Inside p (floatEnd digit marker p) := by
  have h₁ := dropWhile_inside h hdigit
  have h₂ := h₁.trans (fractionEnd_inside (h.inside h₁) hdigit)
  exact h₂.trans (exponentEnd_inside (h.inside h₂) hmarker)

theorem strtoldEnd_inside (h : Terminated p) : Inside p (strtoldEnd p) := by
  have hsign := skipSign_inside h
  have hend : ∀ q, Terminated q → Inside q (unsignedEnd q) := by
    intro q hq
    unfold unsignedEnd
    split
    · rename_i a b t
      split_ifs with hhex
      · have h₁ := hq.tail (c := a) (by rw [hhex.1]; decide)
        have h₂ := h₁.trans ((hq.inside h₁).tail (c := b) (by
          rintro rfl
          exact absurd hhex.2.1 (by decide)))
        exact h₂.trans (floatEnd_inside (hq.inside h₂) (by decide) (by decide))
      · exact floatEnd_inside hq (by decide) (by decide)
    · exact floatEnd_inside hq (by decide) (by decide)
  exact hsign.trans (hend _ (h.inside hsign))

/-- A scanner that stops inside the string, `n` bytes on at the least, if it succeeds. -/
def Skips (n : ℕ) (p : Bytes) (r : Except Fault (Option Bytes)) : Prop :=
  ∃ o, r = .ok o ∧ ∀ q, o = some q → Inside p q ∧ q.length + n ≤ p.length

theorem Skips.none (n : ℕ) (p : Bytes) : Skips n p (.ok none) :=
  ⟨_, rfl, fun _ h => by cases h⟩

theorem Skips.some (h : Inside p q) {n : ℕ} (hlen : q.length + n ≤ p.length) :
    Skips n p (.ok (some q)) :=
  ⟨_, rfl, fun r hr => by obtain rfl := Option.some.inj hr; exact ⟨h, hlen⟩⟩

theorem Skips.behind {n : ℕ} {r : Except Fault (Option Bytes)} (h : Skips n q r)
    (hq : Inside p q) : Skips n p r := by
  obtain ⟨o, rfl, ho⟩ := h
  refine ⟨o, rfl, fun e he => ?_⟩
  have := ho e he
  have := hq.length_le
  exact ⟨hq.trans (ho e he).1, by omega⟩

theorem Skips.weaken {n m : ℕ} {r : Except Fault (Option Bytes)} (h : Skips n p r) (hm : m ≤ n) :
    Skips m p r := by
  obtain ⟨o, rfl, ho⟩ := h
  exact ⟨o, rfl, fun e he => ⟨(ho e he).1, by have := (ho e he).2; omega⟩⟩

theorem isdigit_ne_nul {c : UInt8} (h : isdigit c = true) : c ≠ nul := by
  rintro rfl
  exact absurd h (by decide)

theorem valueSkipDigits_skips (h : Terminated p) : Skips 1 p (valueSkipDigits p) := by
  obtain ⟨c, t, rfl⟩ := h.exists_cons
  simp only [valueSkipDigits, peek_cons, ok_bind, List.tail_cons, pure_eq_ok]
  cases hc : isdigit c with
  | false => exact Skips.none 1 _
  | true =>
    have ht := h.tail (isdigit_ne_nul hc)
    obtain ⟨q, hskip, hq⟩ := skipWhile_inside (P := isdigit) (h.inside ht) (by decide)
    rw [hskip]
    exact Skips.some (ht.trans hq) (by simpa using hq.length_le)

theorem skipInteger_skips (h : Terminated p) : Skips 1 p (skipInteger p) := by
  have hdigits := valueSkipDigits_skips h
  obtain ⟨c, t, rfl⟩ := h.exists_cons
  simp only [skipInteger, peek_cons, ok_bind, List.tail_cons, pure_eq_ok]
  split_ifs with hc
  · obtain ⟨d, u, rfl⟩ := List.exists_cons_of_ne_nil (h.tail (c := c) (by rw [hc]; decide)).1
    simp only [peek_cons, ok_bind]
    split_ifs
    · exact Skips.none 1 _
    · exact hdigits
  · exact hdigits

theorem skipFraction_skips (h : Terminated p) : Skips 0 p (skipFraction p) := by
  obtain ⟨c, t, rfl⟩ := h.exists_cons
  simp only [skipFraction, peek_cons, ok_bind, List.tail_cons, pure_eq_ok]
  split_ifs with hc
  · have ht := h.tail (c := c) (by rw [hc]; decide)
    exact ((valueSkipDigits_skips (h.inside ht)).behind ht).weaken (Nat.zero_le 1)
  · exact Skips.some (Inside.refl h.ne_nil) (Nat.le_refl _)

theorem skipExponent_skips (h : Terminated p) : Skips 0 p (skipExponent p) := by
  obtain ⟨c, t, rfl⟩ := h.exists_cons
  simp only [skipExponent, peek_cons, ok_bind, List.tail_cons, pure_eq_ok]
  split_ifs with hc
  · have ht := h.tail (c := c) (by rcases hc with rfl | rfl <;> decide)
    obtain ⟨d, u, rfl⟩ := List.exists_cons_of_ne_nil ht.1
    simp only [peek_cons, ok_bind, List.tail_cons]
    split_ifs with hd
    · have hu := ht.trans ((h.inside ht).tail (c := d) (by rcases hd with rfl | rfl <;> decide))
      exact ((skipInteger_skips (h.inside hu)).behind hu).weaken (Nat.zero_le 1)
    · exact ((skipInteger_skips (h.inside ht)).behind ht).weaken (Nat.zero_le 1)
  · exact Skips.some (Inside.refl h.ne_nil) (Nat.le_refl _)

theorem skipNumber_skips (h : Terminated p) : Skips 1 p (skipNumber p) := by
  obtain ⟨c, t, rfl⟩ := h.exists_cons
  simp only [skipNumber, peek_cons, ok_bind, List.tail_cons, pure_eq_ok]
  have hsign : Inside (c :: t) (if c = ch '-' then t else c :: t) := by
    split_ifs with hc
    · exact h.tail (by rw [hc]; decide)
    · exact Inside.refl h.ne_nil
  obtain ⟨o₁, h₁, ho₁⟩ := (skipInteger_skips (h.inside hsign)).behind hsign
  rw [h₁, ok_bind]
  cases o₁ with
  | none => exact Skips.none 1 _
  | some q₁ =>
    obtain ⟨hq₁, hlen₁⟩ := ho₁ q₁ rfl
    obtain ⟨o₂, h₂, ho₂⟩ := skipFraction_skips (h.inside hq₁)
    simp only [h₂, ok_bind]
    cases o₂ with
    | none => exact Skips.none 1 _
    | some q₂ =>
      obtain ⟨hq₂, hlen₂⟩ := ho₂ q₂ rfl
      obtain ⟨o₃, h₃, ho₃⟩ := skipExponent_skips ((h.inside hq₁).inside hq₂)
      refine ⟨o₃, h₃, fun q hq => ?_⟩
      obtain ⟨hq₃, hlen₃⟩ := ho₃ q hq
      exact ⟨hq₁.trans (hq₂.trans hq₃), by omega⟩

/-- `strncmp` stops at the terminator. -/
theorem matchLiteral_inside (h : Terminated p) (literal : Bytes) (hnul : nul ∉ literal) :
    ∃ b, matchLiteral literal p = .ok b ∧
      (b = true → p = literal ++ p.drop literal.length ∧ Inside p (p.drop literal.length)) := by
  induction literal generalizing p with
  | nil => exact ⟨true, rfl, fun _ => ⟨rfl, Inside.refl h.ne_nil⟩⟩
  | cons a literal ih =>
    rw [List.mem_cons, not_or] at hnul
    obtain ⟨c, t, rfl⟩ := h.exists_cons
    simp only [matchLiteral, peek_cons, ok_bind, List.tail_cons, pure_eq_ok]
    split_ifs with hc
    · subst hc
      have ht := h.tail (Ne.symm hnul.1)
      obtain ⟨b, hmatch, hb⟩ := ih (h.inside ht) hnul.2
      refine ⟨b, hmatch, fun htrue => ?_⟩
      obtain ⟨heq, hin⟩ := hb htrue
      exact ⟨by simpa using heq, ht.trans hin⟩
    · exact ⟨false, rfl, fun h => by cases h⟩

end Scanners

/-! ## The values -/

namespace Value

def weight : Value L → ℕ
  | undefined => 0
  | string _ => 2
  | object m => 4 * m.mapSize + 1
  | _ => 1

/-- A key on the stack took a colon too. -/
def frameWeight (v : Value L) : ℕ := v.weight + if v.isString then 1 else 0

@[simp] theorem weight_undefined : (undefined : Value L).weight = 0 := rfl

@[simp] theorem weight_string (s : Bytes) : (string s : Value L).weight = 2 := rfl

@[simp] theorem frameWeight_string (s : Bytes) : (string s : Value L).frameWeight = 3 := rfl

@[simp] theorem frameWeight_array (vs : List (Value L)) : (array vs).frameWeight = 1 := rfl

@[simp] theorem frameWeight_object (m : Map (Entry L)) :
    (object m).frameWeight = 4 * m.mapSize + 1 := rfl

theorem weight_le_frameWeight (v : Value L) : v.weight ≤ v.frameWeight := Nat.le_add_right _ _

theorem weight_pos {v : Value L} (h : v.isUndefined = false) : 0 < v.weight := by
  cases v <;> simp_all [weight, isUndefined]

end Value

def ReadsInside (p : Bytes) (r : Except Fault (Value L × Bytes)) : Prop :=
  ∃ v q, r = .ok (v, q) ∧ Inside p q ∧ q.length + v.weight ≤ p.length

section Readers

variable {p : Bytes}

theorem ReadsInside.undefined (h : p ≠ []) :
    ReadsInside p (.ok ((.undefined : Value L), p)) :=
  ⟨_, _, rfl, Inside.refl h, Nat.le_refl _⟩

theorem ReadsInside.literal {literal : Bytes} {v : Value L}
    (h : p = literal ++ p.drop literal.length ∧ Inside p (p.drop literal.length))
    (hweight : v.weight ≤ literal.length) : ReadsInside p (.ok (v, p.drop literal.length)) := by
  refine ⟨_, _, rfl, h.2, ?_⟩
  have hlen := congrArg List.length h.1
  rw [List.length_append] at hlen
  omega

theorem valueDecodeNull_inside (h : Terminated p) :
    ReadsInside p (valueDecodeNull p : Except Fault (Value L × Bytes)) := by
  obtain ⟨b, hmatch, hb⟩ := matchLiteral_inside h (str "null") (by decide)
  simp only [valueDecodeNull, hmatch, ok_bind, pure_eq_ok]
  cases b with
  | false => exact ReadsInside.undefined h.ne_nil
  | true => exact ReadsInside.literal (hb rfl) (by change 1 ≤ 4; decide)

theorem valueDecodeBool_inside (h : Terminated p) :
    ReadsInside p (valueDecodeBool p : Except Fault (Value L × Bytes)) := by
  obtain ⟨b, hmatch, hb⟩ := matchLiteral_inside h (str "true") (by decide)
  obtain ⟨b', hmatch', hb'⟩ := matchLiteral_inside h (str "false") (by decide)
  simp only [valueDecodeBool, hmatch, hmatch', ok_bind, pure_eq_ok]
  cases b with
  | true => exact ReadsInside.literal (hb rfl) (by change 1 ≤ 4; decide)
  | false =>
    cases b' with
    | false => exact ReadsInside.undefined h.ne_nil
    | true => exact ReadsInside.literal (hb' rfl) (by change 1 ≤ 5; decide)

theorem valueDecodeNumber_inside (strtold : Bytes → L × Bool) (h : Terminated p) :
    ReadsInside p (valueDecodeNumber strtold p) := by
  obtain ⟨o, hskip, ho⟩ := skipNumber_skips h
  simp only [valueDecodeNumber, hskip, ok_bind, pure_eq_ok]
  cases o with
  | none => exact ReadsInside.undefined h.ne_nil
  | some q =>
    refine ⟨_, _, rfl, strtoldEnd_inside h, ?_⟩
    have hlen := (ho q rfl).2
    have := (strtoldEnd_inside h).length_le
    split_ifs with hnumber
    · simp only [Value.weight]
      omega
    · simp only [Value.weight]
      omega

theorem valueDecodeString_inside {t : Bytes} (h : Safe (quote :: t)) :
    ReadsInside (quote :: t) (valueDecodeString (quote :: t) : Except Fault (Value L × Bytes)) := by
  have ht := h.terminated.tail (c := quote) (by decide)
  obtain ⟨s, e, hdecode, he⟩ := stringUtf8Decode_inside (h.inside ht)
  have hterm := (h.terminated.inside ht).inside he
  obtain ⟨c, u, rfl⟩ := hterm.exists_cons
  simp only [valueDecodeString, List.tail_cons, hdecode, ok_bind, peek_cons, pure_eq_ok]
  split_ifs with hc
  · exact ReadsInside.undefined h.terminated.ne_nil
  · have hu := hterm.tail (c := c) (by rw [not_not.mp hc]; decide)
    have := he.length_le
    exact ⟨_, _, rfl, ht.trans (he.trans hu), by
      simp only [Value.weight, List.length_cons] at this ⊢
      omega⟩

end Readers

/-! ## The loop -/

section Invariant

variable (hashData : Bytes → UInt64)

/-- The stack holds arrays and objects, and on top of an object possibly a key. -/
inductive Framed : List (Value L) → Prop
  | nil : Framed []
  | array (vs : List (Value L)) {stack : List (Value L)} : Framed stack →
      Framed (.array vs :: stack)
  | object {m : Map (Entry L)} {ms : List (Bytes × Value L)} {stack : List (Value L)} :
      Holds hashData m ms → Framed stack → Framed (.object m :: stack)
  | key (key : Bytes) {m : Map (Entry L)} {stack : List (Value L)} :
      Framed (.object m :: stack) → Framed (.string key :: .object m :: stack)

def selector : DecodeState → Option UInt8
  | .string => some quote
  | .arrayFirst => some (ch '[')
  | .arrayEmpty | .arrayEnd => some (ch ']')
  | .objectFirst => some (ch '{')
  | .objectEmpty | .objectEnd => some (ch '}')
  | _ => none

def holdsValue : DecodeState → Bool
  | .valueEnd | .reduce | .accept | .reject => true
  | _ => false

def needsBack : DecodeState → Bool
  | .arrayRest | .arrayEnd | .objectRest | .objectEnd | .reduce => true
  | _ => false

/-- The colon that a key on the stack counts is not read yet, or never will be. -/
def colonOwed : DecodeState → ℕ
  | .objectMap | .reject => 1
  | _ => 0

def rank : DecodeState → ℕ
  | .valueStart => 7
  | .null | .bool | .number | .string | .arrayFirst | .objectFirst => 6
  | .valueEnd => 5
  | .reduce => 4
  | .arrayRest | .arrayEmpty | .objectMap | .objectRest | .objectEmpty => 3
  | .arrayEnd | .objectEnd => 2
  | .accept => 1
  | .reject => 0

theorem rank_valueStart : rank .valueStart = 7 := rfl

theorem rank_valueEnd : rank .valueEnd = 5 := rfl

theorem rank_reject : rank .reject = 0 := rfl

theorem colonOwed_valueStart : colonOwed .valueStart = 0 := rfl

def Decoder.measure (d : Decoder L) : ℕ := 8 * d.p.length + rank d.state

structure Sane (text : Bytes) (d : Decoder L) : Prop where
  inside : Inside text d.p
  selected : ∀ c, selector d.state = some c → d.p.head? = some c
  framed : Framed hashData d.stack
  back : needsBack d.state = true → d.stack ≠ []
  reduces : d.state = .reduce → d.value.isUndefined = false
  idle : holdsValue d.state = false → d.value = .undefined
  ledger : d.live = Value.objectsList d.stack + d.value.objects
  weight : (d.stack.map Value.frameWeight).sum + d.value.weight + d.p.length ≤
    text.length + colonOwed d.state

/-- What `value_decode` returns: an end inside the string, and no heap objects but its value's. -/
structure Contained (text : Bytes) (r : Decoded L) : Prop where
  endAt : ∀ e, r.endAt = some e → Inside text e
  ledger : r.live = r.value.objects

def Proceeds (text : Bytes) (d : Decoder L) (r : Except Fault (Decoder L)) : Prop :=
  ∃ d', r = .ok d' ∧ Sane hashData text d' ∧ d'.measure < d.measure

end Invariant

section Turn

variable {hashData : Bytes → UInt64} {text : Bytes} {d : Decoder L}

/-- White space is skipped, and where a character has been selected there is none. -/
theorem Sane.whitespace (h : Sane hashData text d) (htext : Terminated text) :
    ∃ p, valueDecodeWhitespace d.p = .ok p ∧ Sane hashData text { d with p } ∧
      p.length ≤ d.p.length := by
  obtain ⟨p, hskip, hp⟩ := skipWhile_inside (P := isWhitespace) (htext.inside h.inside) (by decide)
  have hlen := hp.length_le
  refine ⟨p, hskip, ⟨h.inside.trans hp, fun c hc => ?_, h.framed, h.back, h.reduces,
    h.idle, h.ledger, ?_⟩, hlen⟩
  · have hhead := h.selected c hc
    obtain ⟨t, ht⟩ : ∃ t, d.p = c :: t := by
      cases hdp : d.p with
      | nil => simp [hdp] at hhead
      | cons a t =>
        rw [hdp, List.head?_cons] at hhead
        exact ⟨t, by rw [Option.some.inj hhead]⟩
    have hno : isWhitespace c = false := by
      revert hc
      cases d.state <;> simp only [selector, Option.some.injEq, reduceCtorEq, false_implies] <;>
        rintro rfl <;> decide
    rw [ht, skipWhile_of_not hno] at hskip
    rw [← Except.ok.inj hskip]
    rfl
  · have := h.weight
    dsimp only
    omega

/-- In a state that has selected a character the string goes on behind it. -/
theorem Sane.behind (h : Sane hashData text d) (htext : Terminated text) {c : UInt8}
    (hc : selector d.state = some c) (hnul : c ≠ nul) :
    ∃ t, d.p = c :: t ∧ Inside text t := by
  have hhead := h.selected c hc
  cases hp : d.p with
  | nil => simp [hp] at hhead
  | cons a t =>
    rw [hp, List.head?_cons] at hhead
    obtain rfl := Option.some.inj hhead
    have hin := h.inside
    rw [hp] at hin
    exact ⟨t, rfl, hin.trans ((htext.inside hin).tail hnul)⟩

theorem decodeScalar_proceeds (h : Sane hashData text d)
    {read : Bytes → Except Fault (Value L × Bytes)}
    (hread : ReadsInside d.p (read d.p)) (hidle : holdsValue d.state = false)
    (hcolon : colonOwed d.state = 0) (hrank : rank d.state = 6) :
    Proceeds hashData text d (decodeScalar read d) := by
  obtain ⟨v, q, hok, hq, hlen⟩ := hread
  have hvalue := h.idle hidle
  have hledger := h.ledger
  have hweight := h.weight
  rw [hvalue] at hledger hweight
  simp only [Value.objects, Value.weight, hcolon] at hledger hweight
  refine ⟨{ d with state := .valueEnd, p := q, value := v, live := d.live + v.objects }, ?_,
    ⟨h.inside.trans hq, by rintro _ ⟨⟩, h.framed, by rintro ⟨⟩, by rintro ⟨⟩, by rintro ⟨⟩,
      ?_, ?_⟩, ?_⟩
  · simp only [decodeScalar, hok, ok_bind, pure_eq_ok]
  · dsimp only
    omega
  · dsimp only [colonOwed]
    omega
  · simp only [Decoder.measure, hrank, rank_valueEnd]
    omega

theorem decodeOpen_proceeds (h : Sane hashData text d) (htext : Terminated text) {c : UInt8}
    (hc : selector d.state = some c) (hnul : c ≠ nul) (hidle : holdsValue d.state = false)
    (hcolon : colonOwed d.state = 0) (hrank : rank d.state = 6) {parent : Value L}
    (hframed : Framed hashData (parent :: d.stack)) (hweight : parent.frameWeight = 1) :
    Proceeds hashData text d (.ok (decodeOpen parent d)) := by
  obtain ⟨t, hp, ht⟩ := h.behind htext hc hnul
  have hvalue := h.idle hidle
  have hledger := h.ledger
  have hweight' := h.weight
  rw [hvalue] at hledger hweight'
  rw [hp, List.length_cons] at hweight'
  refine ⟨_, rfl, ⟨?_, nofun, hframed, nofun, nofun, fun _ => hvalue, ?_, ?_⟩, ?_⟩
  · simpa [decodeOpen, hp] using ht
  · simp only [decodeOpen, Value.objectsList, hvalue, Value.objects] at hledger ⊢
    omega
  · simp only [decodeOpen, hp, List.tail_cons, List.map_cons, List.sum_cons, hweight, hvalue,
      colonOwed_valueStart, hcolon, Value.weight] at hweight' ⊢
    omega
  · simp only [Decoder.measure, decodeOpen, hp, List.tail_cons, List.length_cons, hrank,
      rank_valueStart]
    omega

theorem Sane.goto (h : Sane hashData text d) {state : DecodeState}
    (hselected : ∀ c, selector state = some c → d.p.head? = some c)
    (hback : needsBack state = true → d.stack ≠ [])
    (hreduces : state = .reduce → d.value.isUndefined = false)
    (hidle : holdsValue state = false → d.value = .undefined)
    (hcolon : colonOwed d.state ≤ colonOwed state) : Sane hashData text { d with state } :=
  ⟨h.inside, hselected, h.framed, hback, hreduces, hidle, h.ledger, Nat.le_trans h.weight (by
    dsimp only
    omega)⟩

theorem Sane.reject (h : Sane hashData text d) (hrank : 0 < rank d.state)
    (hcolon : colonOwed d.state ≤ 1) :
    Proceeds hashData text d (.ok { d with state := .reject }) := by
  refine ⟨_, rfl, h.goto nofun nofun nofun nofun
    hcolon, ?_⟩
  simp only [Decoder.measure, rank_reject]
  omega

theorem decodeRest_proceeds (h : Sane hashData text d) (htext : Terminated text)
    {close : UInt8} {closed : DecodeState} (hclosed : selector closed = some close)
    (hrank : rank d.state = 3) (hrank' : rank closed = 2)
    (hback : needsBack d.state = true) (hidle : holdsValue d.state = false)
    (hcolon : colonOwed d.state = 0) :
    Proceeds hashData text d (decodeRest close closed d) := by
  obtain ⟨c, t, hp, hpeek⟩ := (htext.inside h.inside).peek
  simp only [decodeRest, hpeek, ok_bind, pure_eq_ok]
  by_cases hcomma : c = ch ','
  · rw [if_pos hcomma, hp, List.tail_cons]
    have hin := h.inside
    rw [hp] at hin
    have ht := hin.trans ((htext.inside hin).tail (c := c) (by rw [hcomma]; decide))
    have hweight := h.weight
    rw [hp, List.length_cons] at hweight
    refine ⟨_, rfl, ⟨ht, nofun, h.framed, nofun, nofun, fun _ => h.idle hidle, h.ledger, ?_⟩, ?_⟩
    · dsimp only [colonOwed]
      omega
    · simp only [Decoder.measure, hp, List.length_cons, hrank, rank_valueStart]
      omega
  · rw [if_neg hcomma]
    by_cases hclose : c = close
    · rw [if_pos hclose]
      refine ⟨_, rfl, h.goto (fun c' hc' => ?_) (fun _ => h.back hback)
        (fun hr => by simp [hr, rank] at hrank') (fun _ => h.idle hidle) (by omega), ?_⟩
      · rw [hclosed] at hc'
        rw [hp, hclose, ← Option.some.inj hc']
        rfl
      · simp only [Decoder.measure, hrank, hrank']
        omega
    · rw [if_neg hclose]
      exact h.reject (by omega) (by omega)

theorem decodeEmpty_proceeds (h : Sane hashData text d) {empty : Value L → Bool}
    {closed : DecodeState} (hselector : selector closed = selector d.state)
    (hrank : rank d.state = 3) (hrank' : rank closed = 2) (hidle : holdsValue d.state = false)
    (hcolon : colonOwed d.state = 0) :
    Proceeds hashData text d (.ok (decodeEmpty empty closed d)) := by
  have hreject := h.reject (by omega) (by omega)
  cases hstack : d.stack with
  | nil =>
    have heq : decodeEmpty empty closed d = { d with state := .reject } := by
      simp only [decodeEmpty, hstack]
    rwa [heq]
  | cons parent stack =>
    have heq : decodeEmpty empty closed d =
        { d with state := if empty parent then closed else .reject } := by
      simp only [decodeEmpty, hstack]
    rw [heq]
    split_ifs
    · refine ⟨_, rfl, h.goto (fun c hc => h.selected c (hselector ▸ hc))
        (fun _ => by simp [hstack]) (fun hr => by simp [hr, rank] at hrank')
        (fun _ => h.idle hidle) (by omega), ?_⟩
      simp only [Decoder.measure, hrank, hrank']
      omega
    · exact hreject

theorem Framed.tail {v : Value L} {stack : List (Value L)} (h : Framed hashData (v :: stack)) :
    Framed hashData stack := by
  cases h with
  | array vs h => exact h
  | object hm h => exact h
  | key key h => exact h

theorem decodeClose_proceeds (h : Sane hashData text d) (htext : Terminated text) {c : UInt8}
    (hc : selector d.state = some c) (hnul : c ≠ nul) (hback : needsBack d.state = true)
    (hidle : holdsValue d.state = false) (hcolon : colonOwed d.state = 0) :
    Proceeds hashData text d (decodeClose d) := by
  obtain ⟨t, hp, ht⟩ := h.behind htext hc hnul
  obtain ⟨parent, stack, hstack⟩ := List.exists_cons_of_ne_nil (h.back hback)
  have hvalue := h.idle hidle
  have hframed := h.framed
  have hledger := h.ledger
  have hweight := h.weight
  rw [hvalue] at hledger hweight
  rw [hp, List.length_cons] at hweight
  rw [hstack] at hframed hledger hweight
  simp only [Value.objectsList, Value.objects, Value.weight_undefined, List.map_cons,
    List.sum_cons, hcolon] at hledger hweight
  have hparent := parent.weight_le_frameWeight
  refine ⟨{ d with state := .valueEnd, p := t, stack, value := parent }, ?_,
    ⟨ht, by rintro _ ⟨⟩, hframed.tail, by rintro ⟨⟩, by rintro ⟨⟩, by rintro ⟨⟩, ?_, ?_⟩, ?_⟩
  · simp only [decodeClose, hstack, vectorBack, ok_bind, hp, List.tail_cons, pure_eq_ok]
  · dsimp only
    omega
  · dsimp only [colonOwed]
    omega
  · simp only [Decoder.measure, hp, List.length_cons, rank_valueEnd]
    omega

theorem Sane.room (h : Sane hashData text d) (htext : Terminated text)
    (hlen : text.length ≤ 2 ^ 64) (hstate : d.state = .reduce) {key : Bytes} {m : Map (Entry L)}
    {stack : List (Value L)} (hstack : d.stack = .string key :: .object m :: stack) :
    ∃ ms, Holds hashData m ms ∧ ms.length < 2 ^ 62 := by
  have hframed := h.framed
  have hweight := h.weight
  have hpos := List.length_pos_iff.mpr (htext.inside h.inside).ne_nil
  rw [hstack] at hframed hweight
  rw [hstate, show colonOwed .reduce = 0 from rfl] at hweight
  cases hframed with
  | key _ hframed =>
    cases hframed with
    | object hm _ =>
      have hsize := hm.size
      simp only [List.map_cons, List.sum_cons, Value.frameWeight_object, Value.frameWeight_string,
        Value.objectSize] at hweight hsize
      exact ⟨_, hm, by omega⟩

theorem decodeReduce_proceeds (h : Sane hashData text d) (htext : Terminated text)
    (hlen : text.length ≤ 2 ^ 64) (hstate : d.state = .reduce) :
    Proceeds hashData text d (decodeReduce hashData d) := by
  have hreject := h.reject (by rw [hstate]; decide) (by rw [hstate]; decide)
  have hframed := h.framed
  have hledger := h.ledger
  have hweight := h.weight
  have hvalue := Value.weight_pos (h.reduces hstate)
  have hmeasure : ∀ d' : Decoder L, d'.p = d.p → rank d'.state = 3 → d'.measure < d.measure := by
    intro d' hp hrank
    have hreduce : rank d.state = 4 := by rw [hstate]; rfl
    simp only [Decoder.measure, hp, hrank, hreduce]
    omega
  rw [hstate, show colonOwed .reduce = 0 from rfl] at hweight
  cases hstack : d.stack with
  | nil => exact absurd hstack (h.back (by rw [hstate]; rfl))
  | cons parent stack =>
    rw [hstack] at hframed hledger hweight
    cases hframed with
    | array vs hframed =>
      refine ⟨{ d with
        state := .arrayRest, stack := .array (vs ++ [d.value]) :: stack, value := .undefined },
        ?_, ⟨h.inside, by rintro _ ⟨⟩, hframed.array _, fun _ => by simp, by rintro ⟨⟩,
          fun _ => rfl, ?_, ?_⟩,
        hmeasure _ rfl rfl⟩
      · simp only [decodeReduce, hstack, vectorBack, ok_bind, Value.isArray, if_true, pure_eq_ok,
          Value.arrayAppendRelease, List.tail_cons]
      · simp only [Value.objectsList, Value.objects, Value.objectsList_eq, List.map_append,
          List.sum_append, List.map_cons, List.map_nil, List.sum_cons, List.sum_nil] at hledger ⊢
        omega
      · simp only [List.map_cons, List.sum_cons, Value.frameWeight_array, Value.weight_undefined,
          colonOwed] at hweight ⊢
        omega
    | object hm hframed =>
      rename_i m ms
      cases hstring : d.value.isString with
      | false =>
        have heq : decodeReduce hashData d = .ok { d with state := .reject } := by
          simp only [decodeReduce, hstack, vectorBack, ok_bind, hstring, Bool.and_false,
            Bool.false_eq_true, if_false, pure_eq_ok]
          rfl
        rwa [heq]
      | true =>
        obtain ⟨key, hkey⟩ : ∃ key, d.value = .string key := by
          cases hv : d.value <;> simp_all [Value.isString]
        rw [hkey] at hledger hweight
        refine ⟨{ d with
          state := .objectMap, stack := .string key :: .object m :: stack, value := .undefined },
          ?_, ⟨h.inside, by rintro _ ⟨⟩, (hframed.object hm).key key,
            by rintro ⟨⟩, by rintro ⟨⟩, fun _ => rfl, ?_, ?_⟩,
          hmeasure _ rfl rfl⟩
        · simp only [decodeReduce, hstack, vectorBack, ok_bind, Value.isArray, Value.isObject,
            hkey, Value.isString, Bool.false_eq_true, Bool.and_true, if_false, if_true, pure_eq_ok]
        · simp only [Value.objectsList, Value.objects] at hledger ⊢
          omega
        · simp only [List.map_cons, List.sum_cons, Value.frameWeight_object, Value.weight_string,
            Value.frameWeight_string, Value.weight_undefined, colonOwed] at hweight ⊢
          omega
    | key key hframed =>
      rename_i m stack
      cases hframed with
      | object _ hframed =>
        obtain ⟨ms, hm, hms⟩ := h.room htext hlen hstate hstack
        have hsize := hm.size
        simp only [List.map_cons, List.sum_cons, Value.frameWeight_object,
          Value.frameWeight_string, Value.objectSize] at hweight hsize
        obtain ⟨m', released, hset, hm', hobjects⟩ := hm.objectSetRelease hms key d.value
        refine ⟨{ d with
          state := .objectRest, stack := .object m' :: stack, value := .undefined,
          live := d.live - Value.objectsEntries released - 1 }, ?_,
          ⟨h.inside, by rintro _ ⟨⟩, hframed.object hm', fun _ => by simp,
            by rintro ⟨⟩, fun _ => rfl, ?_, ?_⟩,
          hmeasure _ rfl rfl⟩
        · simp only [decodeReduce, hstack, vectorBack, ok_bind, Value.isArray, Value.isObject,
            Value.isString, Value.stringGet, hset, Bool.false_eq_true, Bool.false_and, if_false,
            if_true, pure_eq_ok, List.tail_cons, Value.objects]
          rfl
        · simp only [Value.objectsList] at hledger ⊢
          have hkeyObjects : (Value.string key : Value L).objects = 1 := rfl
          have hundefined : (Value.undefined : Value L).objects = 0 := rfl
          omega
        · have hsize' := hm'.size
          have := length_setMember_le ms key d.value
          simp only [List.map_cons, List.sum_cons, Value.frameWeight_object,
            Value.weight_undefined, colonOwed, Value.objectSize] at hsize' ⊢
          omega

theorem selector_valueStartState {c c' : UInt8} (h : selector (valueStartState c) = some c') :
    c = c' := by
  unfold valueStartState at h
  split_ifs at h <;> cases h <;> assumption

theorem needsBack_valueStartState (c : UInt8) : needsBack (valueStartState c) = false := by
  unfold valueStartState
  split_ifs <;> rfl

theorem rank_valueStartState (c : UInt8) : rank (valueStartState c) ≤ 6 := by
  unfold valueStartState
  split_ifs <;> decide

theorem valueStart_proceeds (h : Sane hashData text d) (htext : Terminated text)
    (hstate : d.state = .valueStart) :
    ∃ c t, d.p = c :: t ∧
      Proceeds hashData text d (.ok { d with state := valueStartState c }) := by
  obtain ⟨c, t, hp⟩ := (htext.inside h.inside).exists_cons
  have hidle := h.idle (by rw [hstate]; rfl)
  have hback := needsBack_valueStartState c
  refine ⟨c, t, hp, _, rfl, h.goto (fun c' hc' => ?_) (fun hb => ?_) (fun hr => ?_)
    (fun _ => hidle) (by rw [hstate]; exact Nat.zero_le _), ?_⟩
  · rw [hp, List.head?_cons, selector_valueStartState hc']
  · exact absurd hb (hback ▸ Bool.false_ne_true)
  · rw [hr] at hback
    cases hback
  · have hrank := rank_valueStartState c
    have hstart : rank d.state = 7 := by rw [hstate]; rfl
    simp only [Decoder.measure]
    omega

theorem valueEnd_proceeds (h : Sane hashData text d) (hstate : d.state = .valueEnd) :
    Proceeds hashData text d (.ok { d with
      state :=
        if d.value.isUndefined then .reject
        else if d.stack.isEmpty then .accept else .reduce }) := by
  have hrank : rank d.state = 5 := by rw [hstate]; rfl
  have hcolon : colonOwed d.state = 0 := by rw [hstate]; rfl
  split_ifs with hvalue hstack
  · exact h.reject (by omega) (by omega)
  · refine ⟨_, rfl, h.goto nofun nofun nofun nofun (by omega), ?_⟩
    simp only [Decoder.measure, hrank]
    exact Nat.add_lt_add_left (by decide) _
  · refine ⟨_, rfl, h.goto nofun (fun _ hnil => hstack (by rw [hnil]; rfl))
      (fun _ => by simpa using hvalue) nofun (by omega), ?_⟩
    simp only [Decoder.measure, hrank]
    exact Nat.add_lt_add_left (by decide) _

theorem objectMap_proceeds (h : Sane hashData text d) (htext : Terminated text)
    (hstate : d.state = .objectMap) :
    ∃ c t, d.p = c :: t ∧ Proceeds hashData text d (.ok
      (if c = ch ':' then { d with state := .valueStart, p := d.p.tail }
      else { d with state := .reject })) := by
  have hrank : rank d.state = 3 := by rw [hstate]; rfl
  have hcolon : colonOwed d.state = 1 := by rw [hstate]; rfl
  obtain ⟨c, t, hp⟩ := (htext.inside h.inside).exists_cons
  refine ⟨c, t, hp, ?_⟩
  split_ifs with hc
  · have hin := h.inside
    have hweight := h.weight
    rw [hp] at hin hweight
    rw [List.length_cons] at hweight
    have ht := hin.trans ((htext.inside hin).tail (c := c) (by rw [hc]; decide))
    rw [hp, List.tail_cons]
    refine ⟨_, rfl, ⟨ht, nofun, h.framed, nofun, nofun,
      fun _ => h.idle (by rw [hstate]; rfl), h.ledger, ?_⟩, ?_⟩
    · dsimp only [colonOwed]
      omega
    · simp only [Decoder.measure, hp, List.length_cons, hrank, rank_valueStart]
      omega
  · exact h.reject (by omega) (by omega)

/-- What one turn of the loop does. -/
theorem decodeState_spec (strtold : Bytes → L × Bool) (h : Sane hashData text d)
    (htext : Safe text) (hlen : text.length ≤ 2 ^ 64) :
    (∃ d', decodeState hashData strtold d = .ok (.inr d') ∧ Sane hashData text d' ∧
      d'.measure < d.measure) ∨
    (∃ r, decodeState hashData strtold d = .ok (.inl r) ∧ Contained text r) := by
  have hterm := htext.terminated
  have hp := hterm.inside h.inside
  have hproceeds : ∀ {r : Except Fault (Decoder L)}, Proceeds hashData text d r →
      ∃ d', .inr <$> r = (.ok (.inr d') : Except Fault (Decoded L ⊕ Decoder L)) ∧
        Sane hashData text d' ∧ d'.measure < d.measure := by
    rintro _ ⟨d', rfl, hd'⟩
    exact ⟨d', rfl, hd'⟩
  cases hstate : d.state with
  | valueStart =>
    obtain ⟨c, t, hp, d', heq, hd'⟩ := valueStart_proceeds h hterm hstate
    refine .inl ⟨d', ?_, hd'⟩
    simp only [decodeState, hstate, hp, peek_cons, ok_bind, pure_eq_ok]
    rw [← hp, Except.ok.inj heq]
  | valueEnd =>
    obtain ⟨d', heq, hd'⟩ := valueEnd_proceeds h hstate
    refine .inl ⟨d', ?_, hd'⟩
    simp only [decodeState, hstate, pure_eq_ok]
    rw [Except.ok.inj heq]
  | null =>
    simp only [decodeState, hstate]
    exact .inl (hproceeds (decodeScalar_proceeds h (valueDecodeNull_inside hp)
      (by rw [hstate]; rfl) (by rw [hstate]; rfl) (by rw [hstate]; rfl)))
  | bool =>
    simp only [decodeState, hstate]
    exact .inl (hproceeds (decodeScalar_proceeds h (valueDecodeBool_inside hp)
      (by rw [hstate]; rfl) (by rw [hstate]; rfl) (by rw [hstate]; rfl)))
  | number =>
    simp only [decodeState, hstate]
    exact .inl (hproceeds (decodeScalar_proceeds h (valueDecodeNumber_inside strtold hp)
      (by rw [hstate]; rfl) (by rw [hstate]; rfl) (by rw [hstate]; rfl)))
  | string =>
    simp only [decodeState, hstate]
    obtain ⟨t, hquote, -⟩ := h.behind hterm (c := quote) (by rw [hstate]; rfl) (by decide)
    have hsafe := htext.inside h.inside
    rw [hquote] at hsafe
    exact .inl (hproceeds (decodeScalar_proceeds h
      (by rw [hquote]; exact valueDecodeString_inside hsafe)
      (by rw [hstate]; rfl) (by rw [hstate]; rfl) (by rw [hstate]; rfl)))
  | arrayFirst =>
    simp only [decodeState, hstate]
    exact .inl (hproceeds (decodeOpen_proceeds h hterm (c := ch '[') (by rw [hstate]; rfl)
      (by decide) (by rw [hstate]; rfl) (by rw [hstate]; rfl) (by rw [hstate]; rfl)
      (h.framed.array []) rfl))
  | arrayRest =>
    simp only [decodeState, hstate]
    exact .inl (hproceeds (decodeRest_proceeds h hterm rfl (by rw [hstate]; rfl) rfl
      (by rw [hstate]; rfl) (by rw [hstate]; rfl) (by rw [hstate]; rfl)))
  | arrayEmpty =>
    simp only [decodeState, hstate]
    exact .inl (hproceeds (decodeEmpty_proceeds h (by rw [hstate]; rfl) (by rw [hstate]; rfl) rfl
      (by rw [hstate]; rfl) (by rw [hstate]; rfl)))
  | arrayEnd =>
    simp only [decodeState, hstate]
    exact .inl (hproceeds (decodeClose_proceeds h hterm (c := ch ']') (by rw [hstate]; rfl)
      (by decide) (by rw [hstate]; rfl) (by rw [hstate]; rfl) (by rw [hstate]; rfl)))
  | objectFirst =>
    obtain ⟨m, hnew, hm⟩ := holds_newObject (L := L) hashData
    simp only [decodeState, hstate, hnew, ok_bind]
    exact .inl (hproceeds (decodeOpen_proceeds h hterm (c := ch '{') (by rw [hstate]; rfl)
      (by decide) (by rw [hstate]; rfl) (by rw [hstate]; rfl) (by rw [hstate]; rfl)
      (h.framed.object hm) (by rw [Value.frameWeight_object, ← Value.objectSize, hm.size]; rfl)))
  | objectMap =>
    obtain ⟨c, t, hp, d', heq, hd'⟩ := objectMap_proceeds h hterm hstate
    refine .inl ⟨d', ?_, hd'⟩
    simp only [decodeState, hstate, hp, peek_cons, ok_bind, pure_eq_ok]
    rw [← hp, Except.ok.inj heq]
  | objectRest =>
    simp only [decodeState, hstate]
    exact .inl (hproceeds (decodeRest_proceeds h hterm rfl (by rw [hstate]; rfl) rfl
      (by rw [hstate]; rfl) (by rw [hstate]; rfl) (by rw [hstate]; rfl)))
  | objectEmpty =>
    simp only [decodeState, hstate]
    exact .inl (hproceeds (decodeEmpty_proceeds h (by rw [hstate]; rfl) (by rw [hstate]; rfl) rfl
      (by rw [hstate]; rfl) (by rw [hstate]; rfl)))
  | objectEnd =>
    simp only [decodeState, hstate]
    exact .inl (hproceeds (decodeClose_proceeds h hterm (c := ch '}') (by rw [hstate]; rfl)
      (by decide) (by rw [hstate]; rfl) (by rw [hstate]; rfl) (by rw [hstate]; rfl)))
  | reduce =>
    simp only [decodeState, hstate]
    exact .inl (hproceeds (decodeReduce_proceeds h hterm hlen hstate))
  | accept =>
    refine .inr ⟨_, by simp only [decodeState, hstate]; rfl, ?_, ?_⟩
    · rintro e he
      exact Option.some.inj he ▸ h.inside
    · have := h.ledger
      dsimp only
      omega
  | reject =>
    refine .inr ⟨⟨.undefined, none, d.live - Value.objectsList d.stack - d.value.objects⟩,
      by simp only [decodeState, hstate]; rfl, by rintro _ ⟨⟩, ?_⟩
    have hledger := h.ledger
    have hundefined : (Value.undefined : Value L).objects = 0 := rfl
    dsimp only
    omega

end Turn

theorem sane_start (hashData : Bytes → UInt64) {text : Bytes} (h : Terminated text) :
    Sane (L := L) hashData text ⟨.valueStart, text, [], .undefined, 0⟩ :=
  ⟨Inside.refl h.ne_nil, nofun, .nil, nofun, nofun, fun _ => rfl, rfl, Nat.le_of_eq (by
    simp [colonOwed])⟩

/-- `value_decode` returns on a string that breaks off no multi-byte sequence. -/
theorem valueDecode_contained (hashData : Bytes → UInt64) (strtold : Bytes → L × Bool)
    {text : Bytes} (h : Safe text) (hlen : text.length ≤ 2 ^ 64) :
    ∃ r, valueDecode hashData strtold text = .ok r ∧ Contained text r := by
  refine Loop.within_variant (valueDecodeTurn hashData strtold) (I := Sane hashData text)
    (μ := Decoder.measure) (Q := fun r => ∃ a, r = .ok a ∧ Contained text a) ?_ .hang
    (sane_start hashData h.terminated) (Nat.lt_succ_self _)
  intro d hd
  obtain ⟨p, hskip, hd', hp⟩ := hd.whitespace h.terminated
  simp only [Loop.TurnSpec, valueDecodeTurn, hskip, ok_bind]
  rcases decodeState_spec strtold hd' h hlen with ⟨d', heq, hsane, hmeasure⟩ | ⟨r, heq, hr⟩
  · rw [heq]
    refine ⟨hsane, Nat.lt_of_lt_of_le hmeasure ?_⟩
    simp only [Decoder.measure]
    omega
  · rw [heq]
    exact ⟨r, rfl, hr⟩

/-- `value_decode`, and `string_utf8_decode` at any position, examine no byte behind the terminator
and report no end behind it. -/
def StaysInside (hashData : Bytes → UInt64) (strtold : Bytes → L × Bool) (text : Bytes) : Prop :=
  (∃ r, valueDecode hashData strtold text = .ok r ∧ ∀ e, r.endAt = some e → Inside text e) ∧
    ∀ p, Inside text p → ∃ s e, stringUtf8Decode p = .ok (s, e) ∧ Inside text e

/-- The decoders stay inside exactly the strings that break off no multi-byte sequence. -/
theorem staysInside_iff_whole (hashData : Bytes → UInt64) (strtold : Bytes → L × Bool) (s : Bytes)
    (hnul : nul ∉ s) (hlen : s.length < 2 ^ 64) :
    StaysInside hashData strtold (s ++ [nul]) ↔ Whole s := by
  constructor
  · rintro ⟨-, hstring⟩ u ⟨w, rfl⟩
    by_contra hmid
    obtain ⟨b, e, hdecode, -⟩ := hstring (u ++ [nul])
      ⟨by simp, by rw [List.append_assoc]; exact List.suffix_append w _⟩
    rw [stringUtf8Decode_past (by simpa using hmid)] at hdecode
    cases hdecode
  · intro hwhole
    have hsafe : Safe (s ++ [nul]) := ⟨s, rfl, hnul, hwhole⟩
    obtain ⟨r, hdecode, hr⟩ := valueDecode_contained hashData strtold hsafe
      (by rw [List.length_append, List.length_singleton]; exact hlen)
    refine ⟨⟨r, hdecode, hr.endAt⟩, fun p hp => ?_⟩
    obtain ⟨b, e, hstring, he⟩ := stringUtf8Decode_inside (hsafe.inside hp)
    exact ⟨b, e, hstring, hp.trans he⟩

/-- A string without multi-byte sequences. -/
theorem staysInside_iff_whole_null :
    StaysInside (fun _ => 0) (fun _ => ((0 : ℕ), false)) (str "[null]" ++ [nul]) ↔
      Whole (str "[null]") :=
  staysInside_iff_whole _ _ _ (by decide) (by decide)

/-- A string that ends after the first byte of a sequence of two. -/
theorem not_staysInside_truncated :
    nul ∉ [quote, 0xc2] ∧
      valueDecode (fun _ => 0) (fun _ => ((0 : ℕ), false)) ([quote, 0xc2] ++ [nul]) =
        .error .outside ∧
      stringUtf8Decode [0xc2, nul] = .error .outside ∧
      ¬ StaysInside (fun _ => 0) (fun _ => ((0 : ℕ), false)) ([quote, 0xc2] ++ [nul]) := by
  have hstring : stringUtf8Decode [0xc2, nul] = .error .outside := by rfl
  refine ⟨by decide, by rfl, hstring, ?_⟩
  rintro ⟨-, hall⟩
  obtain ⟨b, e, hdecode, -⟩ := hall [0xc2, nul] ⟨by simp, ⟨[quote], rfl⟩⟩
  rw [hstring] at hdecode
  cases hdecode

end LibReactor
