import LibReactor.Utf8

/-!
# Scanners of terminated strings

A scanner stays inside a string when it stops at the terminator at the latest.
All scanners of `string.c` do so on their own, except that `string_utf8_get` is
given a window of four bytes: it takes the terminator with a multi-byte sequence
that the string breaks off.
-/

namespace LibReactor

def Terminated (p : Bytes) : Prop := ∃ s, p = s ++ [nul] ∧ nul ∉ s

def Inside (p q : Bytes) : Prop := q ≠ [] ∧ q <:+ p

/-- The bytes lead the decoder from a state into the middle of a sequence. -/
def midSequence : ℕ → Bytes → Bool
  | state, [] => state ≠ stateAccept
  | state, c :: u =>
    let state := (stringUtf8DecodeCode state 0 c).1
    state ≠ stateAccept && state ≠ stateReject && midSequence state u

/-- No suffix of the string is a multi-byte sequence that breaks off. -/
def Whole (s : Bytes) : Prop := ∀ u, u <:+ s → midSequence stateAccept u = false

def Safe (p : Bytes) : Prop := ∃ s, p = s ++ [nul] ∧ nul ∉ s ∧ Whole s

section Pointers

variable {p q r : Bytes}

theorem Terminated.ne_nil (h : Terminated p) : p ≠ [] := by
  obtain ⟨s, rfl, -⟩ := h
  simp

theorem Terminated.exists_cons (h : Terminated p) : ∃ c t, p = c :: t :=
  List.exists_cons_of_ne_nil h.ne_nil

theorem Safe.terminated (h : Safe p) : Terminated p := by
  obtain ⟨s, rfl, hnul, -⟩ := h
  exact ⟨s, rfl, hnul⟩

theorem Inside.refl (h : p ≠ []) : Inside p p := ⟨h, List.suffix_refl p⟩

theorem Inside.trans (h : Inside p q) (h' : Inside q r) : Inside p r :=
  ⟨h'.1, h'.2.trans h.2⟩

theorem Inside.length_le (h : Inside p q) : q.length ≤ p.length := h.2.length_le

theorem Inside.eq_append {s : Bytes} (h : Inside (s ++ [nul]) q) :
    ∃ u, q = u ++ [nul] ∧ u <:+ s := by
  obtain ⟨w, hw⟩ := h.2
  obtain ⟨u, a, rfl⟩ := (List.eq_nil_or_concat' q).resolve_left h.1
  rw [← List.append_assoc] at hw
  obtain ⟨rfl, hnul⟩ := List.append_inj' hw rfl
  obtain rfl := List.cons.inj hnul |>.1
  exact ⟨u, rfl, List.suffix_append w u⟩

theorem Terminated.inside (h : Terminated p) (hq : Inside p q) : Terminated q := by
  obtain ⟨s, rfl, hnul⟩ := h
  obtain ⟨u, rfl, hu⟩ := hq.eq_append
  exact ⟨u, rfl, fun hmem => hnul (hu.subset hmem)⟩

theorem Safe.inside (h : Safe p) (hq : Inside p q) : Safe q := by
  obtain ⟨s, rfl, hnul, hwhole⟩ := h
  obtain ⟨u, rfl, hu⟩ := hq.eq_append
  exact ⟨u, rfl, fun hmem => hnul (hu.subset hmem), fun v hv => hwhole v (hv.trans hu)⟩

theorem Terminated.tail {c : UInt8} {t : Bytes} (h : Terminated (c :: t)) (hc : c ≠ nul) :
    Inside (c :: t) t := by
  obtain ⟨s, hs, hnul⟩ := h
  cases s with
  | nil => exact absurd (List.cons.inj hs).1 hc
  | cons a s =>
    obtain ⟨rfl, rfl⟩ := List.cons.inj hs
    exact ⟨by simp, List.suffix_cons _ _⟩

theorem skipWhile_inside {P : UInt8 → Bool} (h : Terminated p) (hP : P nul = false) :
    ∃ q, skipWhile P p = .ok q ∧ Inside p q := by
  obtain ⟨s, rfl, hnul⟩ := h
  obtain ⟨w, a, t, heq, hw, ha, hmem, hskip⟩ := skipWhile_spec (P := P) (c := nul)
    (p := s ++ [nul]) (by simp) hP
  refine ⟨a :: t, by simpa using hskip [], by simp, ?_⟩
  rw [heq]
  exact List.suffix_append w (a :: t)

end Pointers

/-! ## Multi-byte sequences -/

/-- The most bytes that are missing in a state in the middle of a sequence. -/
def missing (state : ℕ) : ℕ :=
  if state = 24 then 1 else if state = 36 ∨ state = 48 ∨ state = 60 then 2 else 3

def midStates : List ℕ := [24, 36, 48, 60, 72, 84, 96]

theorem one_le_missing (state : ℕ) : 1 ≤ missing state := by
  unfold missing
  split_ifs <;> decide

theorem missing_le_three (state : ℕ) : missing state ≤ 3 := by
  unfold missing
  split_ifs <;> decide

set_option maxRecDepth 16384 in
theorem byteClass_all {P : ℕ → ℕ → Prop}
    (h : ∀ e ∈ ((utf8d.drop 0).take 256).zipIdx, P e.2 e.1) (c : UInt8) :
    P c.toNat (utf8d.getD c.toNat 0) := by
  have hentry :=
    getD_of_zipIdx (l := utf8d) (k := 0) (d := 0) (by decide) (UInt8.toNat_lt c) h
  rwa [Nat.zero_add] at hentry

theorem midStates_div {state k : ℕ} (h : state ∈ midStates) (hk : k < 12) :
    state + k < 108 ∧ (state + k) / 12 * 12 = state ∧ (state + k) % 12 = k := by
  simp only [midStates, List.mem_cons, List.not_mem_nil, or_false] at h
  omega

set_option maxRecDepth 16384 in
theorem nextState_all {P : ℕ → ℕ → ℕ → Prop}
    (h : ∀ e ∈ ((utf8d.drop 256).take 108).zipIdx, e.2 / 12 * 12 ∈ midStates →
      P (e.2 / 12 * 12) (e.2 % 12) e.1)
    {state k : ℕ} (hstate : state ∈ midStates) (hk : k < 12) :
    P state k (utf8d.getD (256 + state + k) 0) := by
  obtain ⟨hlt, hrow, hcolumn⟩ := midStates_div hstate hk
  have hentry := getD_of_zipIdx (l := utf8d) (k := 256) (d := 0)
    (P := fun i next => i / 12 * 12 ∈ midStates → P (i / 12 * 12) (i % 12) next)
    (by decide) hlt h
  rw [hrow, hcolumn, ← Nat.add_assoc] at hentry
  exact hentry hstate

set_option maxRecDepth 16384 in
theorem byteClass_lt (c : UInt8) : utf8d.getD c.toNat 0 < 12 :=
  byteClass_all (P := fun _ k => k < 12) (by decide) c

theorem decodeCode_fst (state code : ℕ) (c : UInt8) :
    (stringUtf8DecodeCode state code c).1 = utf8d.getD (256 + state + utf8d.getD c.toNat 0) 0 := rfl

set_option maxRecDepth 16384 in
/-- A byte completes a sequence, breaks it, or leaves fewer bytes missing. -/
theorem decodeCode_next {state : ℕ} (h : state ∈ midStates) (code : ℕ) (c : UInt8) :
    (stringUtf8DecodeCode state code c).1 = stateAccept ∨
    (stringUtf8DecodeCode state code c).1 = stateReject ∨
    ((stringUtf8DecodeCode state code c).1 ∈ midStates ∧
      missing (stringUtf8DecodeCode state code c).1 < missing state) := by
  rw [decodeCode_fst]
  exact nextState_all (P := fun state _ next => next = stateAccept ∨ next = stateReject ∨
    (next ∈ midStates ∧ missing next < missing state)) (by decide) h (byteClass_lt c)

theorem decodeCode_first (code : ℕ) (c : UInt8) :
    (stringUtf8DecodeCode stateAccept code c).1 = stateAccept ∨
    (stringUtf8DecodeCode stateAccept code c).1 = stateReject ∨
    (stringUtf8DecodeCode stateAccept code c).1 ∈ midStates := by
  have hall : ∀ k ∈ List.range 12,
      utf8d.getD (256 + stateAccept + k) 0 = stateAccept ∨
      utf8d.getD (256 + stateAccept + k) 0 = stateReject ∨
      utf8d.getD (256 + stateAccept + k) 0 ∈ midStates := by decide
  rw [decodeCode_fst]
  exact hall _ (List.mem_range.mpr (byteClass_lt c))

theorem decodeCode_nul {state : ℕ} (h : state ∈ midStates) (code : ℕ) :
    (stringUtf8DecodeCode state code nul).1 = stateReject := by
  have hall : ∀ state ∈ midStates, utf8d.getD (256 + state + 0) 0 = stateReject := by decide
  exact hall state h

/-- A sequence that the string does not break off ends before the terminator. -/
theorem utf8GetLoop_inside {state : ℕ} (code n : ℕ) {s : Bytes} (hmid : midSequence state s = false)
    (hs : state = stateAccept → s ≠ []) :
    ∃ code' w u, utf8GetLoop state code (n + 1) (s ++ [nul]) = .ok (code', u ++ [nul]) ∧
      s = w ++ u ∧ w ≠ [] := by
  induction s generalizing state code n with
  | nil =>
    have hstate : state = stateAccept := by simpa [midSequence] using hmid
    exact absurd rfl (hs hstate)
  | cons c s ih =>
    have hstate' : (stringUtf8DecodeCode state code c).1 = (stringUtf8DecodeCode state 0 c).1 := rfl
    simp only [midSequence, ← hstate'] at hmid
    obtain ⟨state', code', hstep⟩ : ∃ a b, stringUtf8DecodeCode state code c = (a, b) := ⟨_, _, rfl⟩
    simp only [hstep] at hmid
    simp only [List.cons_append, utf8GetLoop, hstep]
    split_ifs with haccept hreject
    · exact ⟨code', [c], s, rfl, rfl, by simp⟩
    · exact ⟨_, [c], s, rfl, rfl, by simp⟩
    · rw [not_or] at hreject
      obtain ⟨n, rfl⟩ : ∃ m, n = m + 1 := ⟨n - 1, by omega⟩
      have hmid' : midSequence state' s = false := by
        simpa [haccept, hreject.1] using hmid
      obtain ⟨code'', w, u, hloop, rfl, -⟩ := ih code' n hmid' (fun h => absurd h haccept)
      exact ⟨code'', c :: w, u, hloop, rfl, by simp⟩

/-- The window reaches past the terminator of a sequence that breaks off. -/
theorem utf8GetLoop_past {state code n : ℕ} {s : Bytes} (hstate : state ∈ midStates)
    (hmid : midSequence state s = true) (hn : missing state ≤ n) :
    utf8GetLoop state code n (s ++ [nul]) = .ok (0xfffd, []) := by
  induction s generalizing state code n with
  | nil =>
    obtain ⟨n, rfl⟩ : ∃ m, n = m + 1 := ⟨n - 1, by unfold missing at hn; split_ifs at hn <;> omega⟩
    have hreject := decodeCode_nul hstate code
    obtain ⟨state', code', hstep⟩ : ∃ a b, stringUtf8DecodeCode state code nul = (a, b) :=
      ⟨_, _, rfl⟩
    simp only [hstep] at hreject
    subst hreject
    simp [utf8GetLoop, hstep, stateReject, stateAccept]
  | cons c s ih =>
    have hstate' : (stringUtf8DecodeCode state code c).1 = (stringUtf8DecodeCode state 0 c).1 := rfl
    simp only [midSequence, ← hstate', Bool.and_eq_true, decide_eq_true_eq, ne_eq] at hmid
    have hnext := decodeCode_next hstate code c
    obtain ⟨state', code', hstep⟩ : ∃ a b, stringUtf8DecodeCode state code c = (a, b) := ⟨_, _, rfl⟩
    simp only [hstep] at hmid hnext
    obtain ⟨hmem, hlt⟩ := (hnext.resolve_left hmid.1.1).resolve_left hmid.1.2
    have hpos := one_le_missing state'
    obtain ⟨n, rfl⟩ : ∃ m, n = m + 1 := ⟨n - 1, by omega⟩
    simp only [List.cons_append, utf8GetLoop, hstep, if_neg hmid.1.1]
    rw [if_neg (by omega)]
    exact ih hmem hmid.2 (by omega)

theorem stringUtf8Get_inside {p : Bytes} (h : Safe p) (hp : p ≠ [nul]) (n : ℕ) :
    ∃ code q, stringUtf8Get p (n + 1) = .ok (code, q) ∧ Inside p q ∧ q.length < p.length := by
  obtain ⟨s, rfl, -, hwhole⟩ := h
  have hs : s ≠ [] := by
    rintro rfl
    exact hp rfl
  obtain ⟨code, w, u, hloop, rfl, hw⟩ := utf8GetLoop_inside 0 n
    (hwhole s (List.suffix_refl s)) (fun _ => hs)
  refine ⟨code, u ++ [nul], hloop, ⟨by simp, ?_⟩, ?_⟩
  · rw [List.append_assoc]
    exact List.suffix_append w (u ++ [nul])
  · have := List.length_pos_iff.mpr hw
    simp only [List.length_append]
    omega

theorem stringUtf8Get_past {s : Bytes} (h : midSequence stateAccept s = true) :
    stringUtf8Get (s ++ [nul]) 4 = .ok (0xfffd, []) := by
  cases s with
  | nil => simp [midSequence] at h
  | cons c s =>
    simp only [midSequence, Bool.and_eq_true, decide_eq_true_eq, ne_eq] at h
    have hfirst := decodeCode_first 0 c
    obtain ⟨state, code, hstep⟩ : ∃ a b, stringUtf8DecodeCode stateAccept 0 c = (a, b) :=
      ⟨_, _, rfl⟩
    simp only [hstep] at h hfirst
    have hmem := (hfirst.resolve_left h.1.1).resolve_left h.1.2
    simp only [stringUtf8Get, List.cons_append, utf8GetLoop, hstep, if_neg h.1.1]
    rw [if_neg (by simp [h.1.2])]
    exact utf8GetLoop_past hmem h.2 (by unfold missing; split_ifs <;> omega)

/-! ## Strings -/

def hexCode (a b c d : UInt8) : ℕ :=
  digitValue a <<< 12 ||| digitValue b <<< 8 ||| digitValue c <<< 4 ||| digitValue d

theorem stringUtf8GetEncodedBasic_digits {a b c d : UInt8} (ha : isxdigit a = true)
    (hb : isxdigit b = true) (hc : isxdigit c = true) (hd : isxdigit d = true) (q : Bytes) :
    stringUtf8GetEncodedBasic (backslash :: ch 'u' :: a :: b :: c :: d :: q) =
      .ok (hexCode a b c d, q) := by
  simp [stringUtf8GetEncodedBasic, ha, hb, hc, hd, hexCode]

theorem isxdigit_ne_nul {c : UInt8} (h : isxdigit c = true) : c ≠ nul := by
  rintro rfl
  revert h
  decide

/-- The digits are read one by one, so no byte past the terminator is. -/
theorem stringUtf8GetEncodedBasic_cases {p : Bytes} (h : Terminated p) :
    stringUtf8GetEncodedBasic p = .ok (0, p) ∨
    ∃ a b c d q, p = backslash :: ch 'u' :: a :: b :: c :: d :: q ∧ isxdigit a = true ∧
      isxdigit b = true ∧ isxdigit c = true ∧ isxdigit d = true ∧ Inside p q := by
  have hnext : ∀ {c : UInt8} {t : Bytes}, Inside p (c :: t) → c ≠ nul →
      ∃ c' t', t = c' :: t' ∧ Inside p (c' :: t') := by
    intro c t hin hc
    have htail := hin.trans ((h.inside hin).tail hc)
    obtain ⟨c', t', rfl⟩ := List.exists_cons_of_ne_nil htail.1
    exact ⟨c', t', rfl, htail⟩
  obtain ⟨c₀, t₀, hp⟩ := h.exists_cons
  have hin₀ : Inside p (c₀ :: t₀) := hp ▸ Inside.refl h.ne_nil
  by_cases h₀ : c₀ = backslash
  swap
  · exact .inl (by simp [stringUtf8GetEncodedBasic, hp, h₀])
  obtain ⟨c₁, t₁, rfl, hin₁⟩ := hnext hin₀ (by rw [h₀]; decide)
  by_cases h₁ : c₁ = ch 'u'
  swap
  · exact .inl (by simp [stringUtf8GetEncodedBasic, hp, h₀, h₁])
  obtain ⟨a, t₂, rfl, hin₂⟩ := hnext hin₁ (by rw [h₁]; decide)
  by_cases ha : isxdigit a = true
  swap
  · exact .inl (by simp [stringUtf8GetEncodedBasic, hp, h₀, h₁, ha])
  obtain ⟨b, t₃, rfl, hin₃⟩ := hnext hin₂ (isxdigit_ne_nul ha)
  by_cases hb : isxdigit b = true
  swap
  · exact .inl (by simp [stringUtf8GetEncodedBasic, hp, h₀, h₁, hb])
  obtain ⟨c, t₄, rfl, hin₄⟩ := hnext hin₃ (isxdigit_ne_nul hb)
  by_cases hc : isxdigit c = true
  swap
  · exact .inl (by simp [stringUtf8GetEncodedBasic, hp, h₀, h₁, hc])
  obtain ⟨d, t₅, rfl, hin₅⟩ := hnext hin₄ (isxdigit_ne_nul hc)
  by_cases hd : isxdigit d = true
  swap
  · exact .inl (by simp [stringUtf8GetEncodedBasic, hp, h₀, h₁, hd])
  have hq := hin₅.trans ((h.inside hin₅).tail (isxdigit_ne_nul hd))
  exact .inr ⟨a, b, c, d, t₅, by rw [hp, h₀, h₁], ha, hb, hc, hd, hq⟩

theorem stringUtf8GetEncodedBasic_inside {p : Bytes} (h : Terminated p) :
    ∃ code q, stringUtf8GetEncodedBasic p = .ok (code, q) ∧ Inside p q := by
  rcases stringUtf8GetEncodedBasic_cases h with heq | ⟨a, b, c, d, q, rfl, ha, hb, hc, hd, hq⟩
  · exact ⟨0, p, heq, Inside.refl h.ne_nil⟩
  · exact ⟨_, q, stringUtf8GetEncodedBasic_digits ha hb hc hd q, hq⟩

theorem stringUtf8GetEncoded_inside {p : Bytes} (h : Terminated p) :
    ∃ code q, stringUtf8GetEncoded p = .ok (code, q) ∧ Inside p q := by
  obtain ⟨w1, q, hbasic, hq⟩ := stringUtf8GetEncodedBasic_inside h
  obtain ⟨w2, r, hbasic', hr⟩ := stringUtf8GetEncodedBasic_inside (h.inside hq)
  have hp := Inside.refl h.ne_nil
  simp only [stringUtf8GetEncoded, hbasic, ok_bind, hbasic', pure_eq_ok]
  split_ifs
  · exact ⟨_, _, rfl, hp⟩
  · exact ⟨_, _, rfl, hq.trans hr⟩
  · exact ⟨_, _, rfl, hp⟩
  · exact ⟨_, _, rfl, hq⟩
  · exact ⟨_, _, rfl, hq⟩

theorem stringUtf8Regular_nul : stringUtf8Regular nul = false := by decide

/-- The body of the loop in `string_utf8_decode` stays inside the string. -/
theorem decodeStep_inside {p : Bytes} (h : Safe p) :
    ∃ q b, decodeStep p = .ok (q, b) ∧ Inside p q := by
  have hp := Inside.refl h.terminated.ne_nil
  obtain ⟨c, t, rfl⟩ := h.terminated.exists_cons
  simp only [decodeStep, peek_cons, ok_bind, List.tail_cons, pure_eq_ok]
  by_cases hregular : stringUtf8Regular c = true
  · rw [if_pos hregular]
    have ht := h.terminated.tail (c := c) (by
      rintro rfl
      exact absurd hregular (by decide))
    obtain ⟨q, hskip, hq⟩ := skipWhile_inside (h.terminated.inside ht) stringUtf8Regular_nul
    rw [hskip]
    exact ⟨_, _, rfl, ht.trans hq⟩
  rw [if_neg hregular]
  by_cases hmulti : 0x80 ≤ c
  · rw [if_pos hmulti]
    obtain ⟨code, q, hget, hq, -⟩ := stringUtf8Get_inside h (by
      rintro heq
      obtain rfl := (List.cons.inj heq).1
      exact absurd hmulti (by decide)) 3
    rw [hget]
    exact ⟨_, _, rfl, hq⟩
  rw [if_neg hmulti]
  by_cases hescape : c = backslash
  · subst hescape
    rw [if_pos rfl]
    have ht := h.terminated.tail (c := backslash) (by decide)
    obtain ⟨e, u, rfl⟩ := List.exists_cons_of_ne_nil ht.1
    rw [peek_cons, ok_bind]
    by_cases hu : e = ch 'u'
    · rw [if_pos hu]
      obtain ⟨code, q, hget, hq⟩ := stringUtf8GetEncoded_inside h.terminated
      rw [hget]
      exact ⟨_, _, rfl, hq⟩
    · rw [if_neg hu]
      cases hunescape : unescapeByte e with
      | none => exact ⟨_, _, rfl, hp⟩
      | some b =>
        have hu' := (h.terminated.inside ht).tail (c := e) (by
          rintro rfl
          have hnul : unescapeByte nul = none := by decide
          rw [hnul] at hunescape
          cases hunescape)
        exact ⟨_, _, rfl, ht.trans hu'⟩
  · rw [if_neg hescape]
    exact ⟨_, _, rfl, hp⟩

/-- `string_utf8_decode` stays inside a string that breaks off no sequence. -/
theorem stringUtf8Decode_inside {p : Bytes} (h : Safe p) :
    ∃ s e, stringUtf8Decode p = .ok (s, e) ∧ Inside p e := by
  refine Loop.within_variant decodeTurn (I := fun d => Inside p d.1) (μ := fun d => d.1.length)
    (Q := fun r => ∃ s e, r = .ok (s, e) ∧ Inside p e) ?_ .hang
    (Inside.refl h.terminated.ne_nil) (Nat.lt_succ_self _)
  rintro ⟨q, buffer⟩ hq
  obtain ⟨q', b, hstep, hq'⟩ := decodeStep_inside (h.inside hq)
  simp only [Loop.TurnSpec, decodeTurn, hstep, ok_bind, pure_eq_ok]
  by_cases hlen : q'.length = q.length
  · rw [if_pos hlen]
    exact ⟨_, _, rfl, hq.trans hq'⟩
  · rw [if_neg hlen]
    exact ⟨hq.trans hq', Nat.lt_of_le_of_ne hq'.length_le hlen⟩

set_option maxRecDepth 16384 in
theorem decodeCode_ascii {c : UInt8} (h : ¬ 0x80 ≤ c) (code : ℕ) :
    (stringUtf8DecodeCode stateAccept code c).1 = stateAccept := by
  have hlt : c.toNat < 128 := by
    simpa [UInt8.le_iff_toNat_le] using h
  rw [decodeCode_fst, byteClass_all (P := fun n k => n < 128 → k = 0) (by decide) c hlt]
  rfl

/-- A sequence that breaks off takes `string_utf8_decode` past the terminator. -/
theorem stringUtf8Decode_past {s : Bytes} (h : midSequence stateAccept s = true) :
    stringUtf8Decode (s ++ [nul]) = .error .outside := by
  cases s with
  | nil => simp [midSequence] at h
  | cons c s =>
    have hmulti : 0x80 ≤ c := by
      by_contra hlt
      simp [midSequence, decodeCode_ascii hlt] at h
    have hregular : stringUtf8Regular c = false := by
      simp [stringUtf8Regular, hmulti]
    have hstep : decodeStep (c :: s ++ [nul]) = .ok ([], stringUtf8Put 0xfffd) := by
      simp only [decodeStep, List.cons_append, peek_cons, ok_bind, hregular, Bool.false_eq_true,
        if_false, if_pos hmulti]
      rw [← List.cons_append, stringUtf8Get_past h]
      rfl
    have hturn : decodeTurn (c :: s ++ [nul], []) = .ok (.inr ([], stringUtf8Put 0xfffd)) := by
      simp only [decodeTurn, hstep, ok_bind, pure_eq_ok]
      rfl
    have hlast : decodeTurn ([], stringUtf8Put 0xfffd) = .error .outside := rfl
    rw [stringUtf8Decode, Loop.within, Loop.run_succ_next _ hturn]
    simp only [List.cons_append, List.length_cons]
    rw [Loop.run_succ_error _ hlast]
    rfl

end LibReactor
