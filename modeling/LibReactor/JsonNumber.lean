import LibReactor.DecodeSafety
import LibReactor.Json
import Mathlib.Data.List.TakeWhile

/-!
# Numbers in JSON texts

The scanner of `value_decode_number` takes a numeral of the grammar, and a numeral
that is followed by a byte that no numeral goes on with is what it takes. There
`strtold` ends too.
-/

namespace LibReactor

variable {L : Type} {p q : Bytes}

/-! ## What the scanner takes -/

theorem valueSkipDigits_sound (h : valueSkipDigits p = .ok (some q)) :
    ∃ w, p = w ++ q ∧ DigitsText w := by
  cases p with
  | nil => cases h
  | cons c t =>
    simp only [valueSkipDigits, peek_cons, ok_bind, List.tail_cons, pure_eq_ok] at h
    cases hc : isdigit c with
    | false => simp [hc] at h
    | true =>
      rw [hc] at h
      cases hskip : skipWhile isdigit t with
      | error e => simp [hskip] at h
      | ok r =>
        simp only [hskip, Bool.not_true, Bool.false_eq_true, if_false, ok_bind, Except.ok.injEq,
          Option.some.injEq] at h
        subst h
        obtain ⟨w, a, u, rfl, hw, -, rfl⟩ := skipWhile_eq_ok.mp hskip
        refine ⟨c :: w, rfl, by simp, fun x hx => ?_⟩
        rcases List.mem_cons.mp hx with rfl | hx
        · exact hc
        · exact hw x hx

theorem skipInteger_sound (h : skipInteger p = .ok (some q)) : ∃ w, p = w ++ q ∧ IntText w := by
  cases p with
  | nil => cases h
  | cons c t =>
    simp only [skipInteger, peek_cons, ok_bind, List.tail_cons] at h
    split_ifs at h with hc
    · cases t with
      | nil => cases h
      | cons d u =>
        simp only [peek_cons, ok_bind] at h
        split_ifs at h with hd
        · cases h
        · obtain ⟨w, hw, hdigits⟩ := valueSkipDigits_sound h
          refine ⟨w, hw, hdigits, fun _ => ?_⟩
          obtain ⟨a, v, rfl⟩ := List.exists_cons_of_ne_nil hdigits.1
          obtain ⟨ha, htail⟩ := List.cons.inj hw
          cases v with
          | nil => rw [← ha, hc]
          | cons b v =>
            rw [(List.cons.inj htail).1] at hd
            exact absurd (hdigits.2 b (by simp)) hd
    · obtain ⟨w, hw, hdigits⟩ := valueSkipDigits_sound h
      refine ⟨w, hw, hdigits, fun hhead => ?_⟩
      obtain ⟨a, v, rfl⟩ := List.exists_cons_of_ne_nil hdigits.1
      rw [List.head?_cons, ← (List.cons.inj hw).1] at hhead
      exact absurd (Option.some.inj hhead) hc

theorem skipFraction_sound (h : skipFraction p = .ok (some q)) :
    ∃ w, p = w ++ q ∧ FracText w := by
  cases p with
  | nil => cases h
  | cons c t =>
    simp only [skipFraction, peek_cons, ok_bind, List.tail_cons, pure_eq_ok] at h
    split_ifs at h with hc
    · obtain ⟨w, rfl, hdigits⟩ := valueSkipDigits_sound h
      exact ⟨c :: w, rfl, .inr ⟨w, by rw [hc], hdigits⟩⟩
    · cases h
      exact ⟨[], rfl, .inl rfl⟩

theorem skipExponent_sound (h : skipExponent p = .ok (some q)) :
    ∃ w, p = w ++ q ∧ ExpText w := by
  cases p with
  | nil => cases h
  | cons c t =>
    simp only [skipExponent, peek_cons, ok_bind, List.tail_cons, pure_eq_ok] at h
    split_ifs at h with hc
    · cases t with
      | nil => cases h
      | cons d u =>
        simp only [peek_cons, ok_bind, List.tail_cons] at h
        obtain ⟨w, hw, hint⟩ := skipInteger_sound h
        split_ifs at hw with hd
        · refine ⟨c :: d :: w, by rw [hw]; rfl, .inr ⟨c, [d], w, rfl, hc, ?_, hint⟩⟩
          rcases hd with rfl | rfl
          · exact .inr (.inl rfl)
          · exact .inr (.inr rfl)
        · exact ⟨c :: w, by rw [hw]; rfl, .inr ⟨c, [], w, rfl, hc, .inl rfl, hint⟩⟩
    · cases h
      exact ⟨[], rfl, .inl rfl⟩

theorem skipNumber_sound (h : skipNumber p = .ok (some q)) : ∃ w, p = w ++ q ∧ NumberText w := by
  cases p with
  | nil => cases h
  | cons c t =>
    simp only [skipNumber, peek_cons, ok_bind, List.tail_cons] at h
    cases h₁ : skipInteger (if c = ch '-' then t else c :: t) with
    | error e => simp [h₁] at h
    | ok o₁ =>
      rw [h₁, ok_bind] at h
      cases o₁ with
      | none => cases h
      | some q₁ =>
        dsimp only at h
        cases h₂ : skipFraction q₁ with
        | error e => simp [h₂] at h
        | ok o₂ =>
          rw [h₂, ok_bind] at h
          cases o₂ with
          | none => cases h
          | some q₂ =>
            obtain ⟨int, hint, hint'⟩ := skipInteger_sound h₁
            obtain ⟨frac, rfl, hfrac⟩ := skipFraction_sound h₂
            obtain ⟨exp, rfl, hexp⟩ := skipExponent_sound h
            split_ifs at hint with hc
            · refine ⟨c :: (int ++ (frac ++ exp)), by rw [hint]; simp, [c], int, frac, exp, rfl,
                .inr (by rw [hc]), hint', hfrac, hexp⟩
            · exact ⟨int ++ (frac ++ exp), by rw [hint]; simp, [], int, frac, exp, rfl, .inl rfl,
                hint', hfrac, hexp⟩

/-! ## What follows a numeral -/

def endsNumber (c : UInt8) : Bool :=
  !(isdigit c) && !(c == ch '.') && !(c == ch 'e') && !(c == ch 'E') && !(isHexMarker c)

def EndsDigits (r : Bytes) : Prop := ∃ c t, r = c :: t ∧ isdigit c = false ∧ isHexMarker c = false

theorem DigitsText.exists_cons {w : Bytes} (h : DigitsText w) :
    ∃ d ds, w = d :: ds ∧ isdigit d = true ∧ ∀ c ∈ ds, isdigit c = true := by
  obtain ⟨d, ds, rfl⟩ := List.exists_cons_of_ne_nil h.1
  exact ⟨d, ds, rfl, h.2 d (by simp), fun c hc => h.2 c (by simp [hc])⟩

theorem EndsDigits.exp {exp : Bytes} (h : ExpText exp) {c : UInt8} (hc : endsNumber c = true)
    (t : Bytes) : EndsDigits (exp ++ c :: t) ∧ (exp ++ c :: t).head? ≠ some (ch '.') := by
  simp only [endsNumber, Bool.and_eq_true, Bool.not_eq_true', beq_eq_false_iff_ne] at hc
  obtain ⟨⟨⟨⟨hdigit, hpoint⟩, -⟩, -⟩, hhex⟩ := hc
  rcases h with rfl | ⟨e, sign, ds, rfl, he, -, -⟩
  · exact ⟨⟨c, t, rfl, hdigit, hhex⟩, by simpa using hpoint⟩
  · rcases he with rfl | rfl
    · exact ⟨⟨_, _, rfl, by decide, by decide⟩, nofun⟩
    · exact ⟨⟨_, _, rfl, by decide, by decide⟩, nofun⟩

theorem EndsDigits.frac {frac r : Bytes} (h : FracText frac) (hr : EndsDigits r) :
    EndsDigits (frac ++ r) := by
  rcases h with rfl | ⟨ds, rfl, -⟩
  · exact hr
  · exact ⟨_, _, rfl, by decide, by decide⟩

/-! ## The scanner takes a numeral -/

theorem valueSkipDigits_complete {w r : Bytes} (hw : DigitsText w) (hr : EndsDigits r) :
    valueSkipDigits (w ++ r) = .ok (some r) := by
  obtain ⟨d, ds, rfl, hd, hds⟩ := hw.exists_cons
  obtain ⟨c, t, rfl, hc, -⟩ := hr
  simp only [List.cons_append, valueSkipDigits, peek_cons, ok_bind, List.tail_cons, pure_eq_ok,
    hd, Bool.not_true, Bool.false_eq_true, if_false]
  rw [skipWhile_append hds, skipWhile_of_not hc]
  rfl

theorem skipInteger_complete {w r : Bytes} (hw : IntText w) (hr : EndsDigits r) :
    skipInteger (w ++ r) = .ok (some r) := by
  have hdigits := valueSkipDigits_complete hw.1 hr
  obtain ⟨d, ds, rfl, -, -⟩ := hw.1.exists_cons
  simp only [List.cons_append, skipInteger, peek_cons, ok_bind, List.tail_cons] at hdigits ⊢
  split_ifs with hzero
  · have hds := (List.cons.inj (hw.2 (by rw [hzero]; rfl))).2
    subst hds
    obtain ⟨c, t, rfl, hc, -⟩ := hr
    simp only [List.nil_append, peek_cons, ok_bind, hc, Bool.false_eq_true, if_false]
    exact hdigits
  · exact hdigits

theorem skipFraction_complete {w r : Bytes} (hw : FracText w) (hr : EndsDigits r)
    (hpoint : r.head? ≠ some (ch '.')) : skipFraction (w ++ r) = .ok (some r) := by
  rcases hw with rfl | ⟨ds, rfl, hds⟩
  · obtain ⟨c, t, rfl, -, -⟩ := hr
    have hc : c ≠ ch '.' := by simpa using hpoint
    simp only [List.nil_append, skipFraction, peek_cons, ok_bind, if_neg hc, pure_eq_ok]
  · simp only [List.cons_append, skipFraction, peek_cons, ok_bind, if_true, List.tail_cons]
    exact valueSkipDigits_complete hds hr

theorem skipExponent_complete {w : Bytes} (hw : ExpText w) {c : UInt8}
    (hc : endsNumber c = true) (t : Bytes) :
    skipExponent (w ++ c :: t) = .ok (some (c :: t)) := by
  have hr := (EndsDigits.exp (.inl rfl) hc t).1
  simp only [endsNumber, Bool.and_eq_true, Bool.not_eq_true', beq_eq_false_iff_ne] at hc
  rcases hw with rfl | ⟨e, sign, ds, rfl, he, hsign, hds⟩
  · simp only [List.nil_append, skipExponent, peek_cons, ok_bind, hc.1.1.2, hc.1.2, or_self,
      if_false, pure_eq_ok]
  · have hint := skipInteger_complete hds hr
    simp only [List.cons_append, List.append_assoc, skipExponent, peek_cons, ok_bind, if_pos he,
      List.tail_cons]
    rcases hsign with rfl | rfl | rfl
    · obtain ⟨d, u, rfl, hd, -⟩ := hds.1.exists_cons
      have hno : ¬ (d = ch '-' ∨ d = ch '+') := by
        rintro (rfl | rfl)
        · exact absurd hd (by decide)
        · exact absurd hd (by decide)
      simp only [List.nil_append, List.cons_append, peek_cons, ok_bind, if_neg hno] at hint ⊢
      exact hint
    · simp only [List.cons_append, List.nil_append, peek_cons, ok_bind, true_or, if_true,
        List.tail_cons]
      exact hint
    · simp only [List.cons_append, List.nil_append, peek_cons, ok_bind, or_true, if_true,
        List.tail_cons]
      exact hint

theorem skipNumber_complete {w : Bytes} (hw : NumberText w) {c : UInt8}
    (hc : endsNumber c = true) (t : Bytes) :
    skipNumber (w ++ c :: t) = .ok (some (c :: t)) := by
  obtain ⟨minus, int, frac, exp, rfl, hminus, hint, hfrac, hexp⟩ := hw
  obtain ⟨hr, hpoint⟩ := EndsDigits.exp hexp hc t
  have h₁ := skipInteger_complete hint (EndsDigits.frac hfrac hr)
  have h₂ := skipFraction_complete hfrac hr hpoint
  have h₃ := skipExponent_complete hexp hc t
  simp only [List.append_assoc]
  rcases hminus with rfl | rfl
  · obtain ⟨d, ds, rfl, hd, -⟩ := hint.1.exists_cons
    have hno : d ≠ ch '-' := by
      rintro rfl
      exact absurd hd (by decide)
    simp only [List.nil_append, List.cons_append, skipNumber, peek_cons, ok_bind, if_neg hno,
      List.tail_cons] at h₁ ⊢
    simp only [h₁, ok_bind, h₂, h₃]
  · simp only [List.cons_append, List.nil_append, skipNumber, peek_cons, ok_bind, if_true,
      List.tail_cons, h₁, h₂, h₃]

/-! ## strtold ends with the numeral -/

theorem dropWhile_digits {w r : Bytes} (hw : ∀ c ∈ w, isdigit c = true) (hr : EndsDigits r) :
    (w ++ r).dropWhile isdigit = r := by
  obtain ⟨c, t, rfl, hc, -⟩ := hr
  rw [List.dropWhile_append_of_pos hw, List.dropWhile_cons_of_neg (by simp [hc])]

theorem exponentEnd_complete {w : Bytes} (hw : ExpText w) {c : UInt8} (hc : endsNumber c = true)
    (t : Bytes) :
    exponentEnd (fun c => c == ch 'e' || c == ch 'E') (w ++ c :: t) = c :: t := by
  have hr := (EndsDigits.exp (.inl rfl) hc t).1
  simp only [endsNumber, Bool.and_eq_true, Bool.not_eq_true', beq_eq_false_iff_ne] at hc
  rcases hw with rfl | ⟨e, sign, ds, rfl, he, hsign, hds⟩
  · simp [exponentEnd, hc.1.1.2, hc.1.2]
  · have hdrop := dropWhile_digits hds.1.2 hr
    obtain ⟨d, u, rfl, hd, -⟩ := hds.1.exists_cons
    have hskip : skipSign (sign ++ (d :: u ++ c :: t)) = d :: u ++ c :: t := by
      have hno : ¬ (d = ch '-' ∨ d = ch '+') := by
        rintro (rfl | rfl)
        · exact absurd hd (by decide)
        · exact absurd hd (by decide)
      rcases hsign with rfl | rfl | rfl
      · simp [skipSign, hno]
      · simp [skipSign]
      · simp [skipSign]
    have hmarker : (e == ch 'e' || e == ch 'E') = true := by
      rcases he with rfl | rfl <;> decide
    simp only [List.cons_append, List.append_assoc, List.nil_append] at hskip hdrop ⊢
    rw [exponentEnd, hskip, hmarker, startsWith, hd, hdrop]
    rfl

theorem floatEnd_complete {int frac exp : Bytes} (hint : DigitsText int) (hfrac : FracText frac)
    (hexp : ExpText exp) {c : UInt8} (hc : endsNumber c = true) (t : Bytes) :
    floatEnd isdigit (fun c => c == ch 'e' || c == ch 'E') (int ++ (frac ++ (exp ++ c :: t))) =
      c :: t := by
  obtain ⟨hr, hpoint⟩ := EndsDigits.exp hexp hc t
  have hfraction : fractionEnd isdigit (frac ++ (exp ++ c :: t)) = exp ++ c :: t := by
    rcases hfrac with rfl | ⟨ds, rfl, hds⟩
    · obtain ⟨a, u, heq, -, -⟩ := hr
      rw [List.nil_append, heq, fractionEnd, if_neg]
      intro ha
      rw [heq, ha] at hpoint
      exact hpoint rfl
    · rw [List.cons_append, fractionEnd, if_pos rfl, dropWhile_digits hds.2 hr]
  rw [floatEnd, dropWhile_digits hint.2 (EndsDigits.frac hfrac hr), hfraction,
    exponentEnd_complete hexp hc]

/-- A leading zero is not the start of a hexadecimal prefix. -/
theorem unsignedEnd_complete {int r : Bytes} (hint : IntText int) (hr : EndsDigits r) :
    unsignedEnd (int ++ r) = floatEnd isdigit (fun c => c == ch 'e' || c == ch 'E') (int ++ r) := by
  obtain ⟨d, ds, rfl, hd, hds⟩ := hint.1.exists_cons
  obtain ⟨c, t, rfl, -, hhex⟩ := hr
  cases ds with
  | nil =>
    simp only [List.cons_append, List.nil_append, unsignedEnd]
    rw [if_neg (by simp [hhex])]
  | cons b ds =>
    have hno : d ≠ ch '0' := by
      intro hzero
      have := hint.2 (by rw [hzero]; rfl)
      simp at this
    simp only [List.cons_append, unsignedEnd]
    rw [if_neg (by simp [hno])]

theorem strtoldEnd_complete {w : Bytes} (hw : NumberText w) {c : UInt8}
    (hc : endsNumber c = true) (t : Bytes) : strtoldEnd (w ++ c :: t) = c :: t := by
  obtain ⟨minus, int, frac, exp, rfl, hminus, hint, hfrac, hexp⟩ := hw
  have hr := EndsDigits.frac hfrac (EndsDigits.exp hexp hc t).1
  have hskip : skipSign (minus ++ (int ++ (frac ++ (exp ++ c :: t)))) =
      int ++ (frac ++ (exp ++ c :: t)) := by
    rcases hminus with rfl | rfl
    · obtain ⟨d, ds, rfl, hd, -⟩ := hint.1.exists_cons
      have hno : ¬ (d = ch '-' ∨ d = ch '+') := by
        rintro (rfl | rfl)
        · exact absurd hd (by decide)
        · exact absurd hd (by decide)
      simp [skipSign, hno]
    · simp [skipSign]
  simp only [List.append_assoc]
  rw [strtoldEnd, hskip, unsignedEnd_complete hint hr, floatEnd_complete hint.1 hfrac hexp hc]

/-! ## value_decode_number -/

theorem valueDecodeNumber_complete (strtold : Bytes → L × Bool) {w : Bytes} (hw : NumberText w)
    (hrange : (strtold w).2 = false) {c : UInt8} (hc : endsNumber c = true) (t : Bytes) :
    valueDecodeNumber strtold (w ++ c :: t) = .ok (.number (strtold w).1, c :: t) := by
  simp only [valueDecodeNumber, skipNumber_complete hw hc, ok_bind, strtoldEnd_complete hw hc,
    upTo_append, hrange, and_self, if_true, pure_eq_ok]

theorem valueDecodeNumber_sound {strtold : Bytes → L × Bool} {v : Value L} (hp : Terminated p)
    (h : valueDecodeNumber strtold p = .ok (v, q)) (hv : v.isUndefined = false) :
    ∃ w, p = w ++ q ∧ NumberText w ∧ (strtold w).2 = false ∧ v = .number (strtold w).1 := by
  unfold valueDecodeNumber at h
  cases hskip : skipNumber p with
  | error e => simp [hskip] at h
  | ok o =>
    rw [hskip, ok_bind] at h
    cases o with
    | none =>
      obtain ⟨rfl, rfl⟩ := Prod.mk.inj (Except.ok.inj h)
      cases hv
    | some r =>
      obtain ⟨hvalue, hend⟩ := Prod.mk.inj (Except.ok.inj h)
      obtain ⟨w, hw, hnumber⟩ := skipNumber_sound hskip
      split_ifs at hvalue with hok
      · have hsuffix : strtoldEnd p <:+ p := (strtoldEnd_inside hp).2
        have hr : r <:+ p := ⟨w, hw.symm⟩
        have heq : strtoldEnd p = r :=
          (List.suffix_of_suffix_length_le hsuffix hr (Nat.le_of_eq hok.1)).eq_of_length hok.1
        have hup : upTo p (strtoldEnd p) = w := by
          rw [heq, hw, upTo_append]
        rw [hup] at hok hvalue
        rw [← hend, heq]
        exact ⟨w, hw, hnumber, hok.2, hvalue.symm⟩
      · rw [← hvalue] at hv
        cases hv

end LibReactor
