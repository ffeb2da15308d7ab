import LibReactor.StringValid

/-!
# Reading UTF-8

The state and the code in the middle of a sequence tell which bytes have been read. So the code
that `string_utf8_get` accepts is that of the bytes it has taken, and from bytes that start
with no character it takes U+FFFD.
-/

namespace LibReactor

def partialBytes (state code : ℕ) : Bytes :=
  if state = 24 then
    if code < 0x20 then [byte (0xc0 + code)]
    else if code < 0x400 then [byte (0xe0 + code / 64), byte (0x80 + code % 64)]
    else [byte (0xf0 + code / 4096), byte (0x80 + code / 64 % 64), byte (0x80 + code % 64)]
  else if state = 36 then
    if code < 0x10 then [byte (0xe0 + code)]
    else [byte (0xf0 + code / 64), byte (0x80 + code % 64)]
  else if state = 48 ∨ state = 60 then [byte (0xe0 + code)]
  else [byte (0xf0 + code)]

section Partial

variable {state code m : ℕ}

theorem partialBytes_one {k : ℕ} (h : k < 0x20) : partialBytes 24 k = [byte (0xc0 + k)] := by
  rw [partialBytes, if_pos rfl, if_pos h]

theorem partialBytes_two {k : ℕ} (h : 0x20 ≤ k) (h' : k < 0x400) :
    partialBytes 24 k = [byte (0xe0 + k / 64), byte (0x80 + k % 64)] := by
  rw [partialBytes, if_pos rfl, if_neg (Nat.not_lt.mpr h), if_pos h']

theorem partialBytes_three {k : ℕ} (h : 0x400 ≤ k) : partialBytes 24 k =
    [byte (0xf0 + k / 4096), byte (0x80 + k / 64 % 64), byte (0x80 + k % 64)] := by
  rw [partialBytes, if_pos rfl, if_neg (by omega), if_neg (Nat.not_lt.mpr h)]

theorem partialBytes_lead {k : ℕ} (h : k < 0x10) : partialBytes 36 k = [byte (0xe0 + k)] := by
  rw [partialBytes, if_neg (by decide), if_pos rfl, if_pos h]

theorem partialBytes_second {k : ℕ} (h : 0x10 ≤ k) :
    partialBytes 36 k = [byte (0xf0 + k / 64), byte (0x80 + k % 64)] := by
  rw [partialBytes, if_neg (by decide), if_pos rfl, if_neg (Nat.not_lt.mpr h)]

theorem partialBytes_last (h : PartialCode 24 code) (hm : m < 64) :
    partialBytes 24 code ++ [byte (0x80 + m)] = utf8 (code * 64 + m) := by
  have hdiv : (code * 64 + m) / 64 = code := by omega
  have hmod : (code * 64 + m) % 64 = m := by omega
  have hcode : 2 ≤ code := by
    unfold PartialCode at h
    omega
  unfold utf8
  rw [if_neg (by omega), hdiv, hmod]
  by_cases h2 : code < 0x20
  · rw [partialBytes_one h2, if_pos (by omega)]
    rfl
  rw [if_neg (by omega), show (code * 64 + m) / 4096 = code / 64 by omega]
  by_cases h3 : code < 0x400
  · rw [partialBytes_two (by omega) h3, if_pos (by omega)]
    rfl
  · rw [partialBytes_three (by omega), if_neg (by omega),
      show (code * 64 + m) / 262144 = code / 4096 by omega]
    rfl

theorem partialBytes_tail (h : PartialCode state code) (hm : m < 64) {state' code' : ℕ}
    (hstep : stringUtf8DecodeCode state code (byte (0x80 + m)) = (state', code'))
    (h' : PartialCode state' code') :
    partialBytes state' code' = partialBytes state code ++ [byte (0x80 + m)] := by
  have hdiv : (code * 64 + m) / 64 = code := by omega
  have hmod : (code * 64 + m) % 64 = m := by omega
  have hne : state ≠ 0 := by
    unfold PartialCode at h
    omega
  have hne' := h'.state_ne
  rw [decodeCode_tail hne hm, nextState_tail h.midStates hm, Prod.mk.injEq] at hstep
  obtain ⟨hstate, rfl⟩ := hstep
  have hend : ∀ {a}, partialBytes state code = [a] →
      [a, byte (0x80 + m)] = partialBytes state code ++ [byte (0x80 + m)] := fun h => by rw [h]; rfl
  rcases h with ⟨rfl, h⟩ | ⟨rfl, h⟩ | ⟨rfl, rfl⟩ | ⟨rfl, rfl⟩ | ⟨rfl, rfl⟩ | ⟨rfl, h⟩ | ⟨rfl, rfl⟩
  · exact absurd hstate.symm hne'.1
  · obtain rfl : state' = 24 := hstate.symm
    by_cases h16 : code < 0x10
    · rw [partialBytes_two (by omega) (by omega), hdiv, hmod]
      exact hend (partialBytes_lead h16)
    · rw [partialBytes_three (by omega), hdiv, hmod, partialBytes_second (Nat.not_lt.mp h16),
        show (code * 64 + m) / 4096 = code / 64 by omega]
      rfl
  · by_cases h32 : m < 32
    · exact absurd (by simpa [h32] using hstate.symm) hne'.2
    · obtain rfl : state' = 24 := by simpa [h32] using hstate.symm
      rw [partialBytes_two (by omega) (by omega), hdiv, hmod]
      exact hend rfl
  · by_cases h32 : m < 32
    · obtain rfl : state' = 24 := by simpa [h32] using hstate.symm
      rw [partialBytes_two (by omega) (by omega), hdiv, hmod]
      exact hend rfl
    · exact absurd (by simpa [h32] using hstate.symm) hne'.2
  · by_cases h16 : m < 16
    · exact absurd (by simpa [h16] using hstate.symm) hne'.2
    · obtain rfl : state' = 36 := by simpa [h16] using hstate.symm
      rw [partialBytes_second (by omega), hdiv, hmod]
      exact hend rfl
  · obtain rfl : state' = 36 := hstate.symm
    rw [partialBytes_second (by omega), hdiv, hmod]
    exact hend rfl
  · by_cases h16 : m < 16
    · obtain rfl : state' = 36 := by simpa [h16] using hstate.symm
      rw [partialBytes_second (by omega), hdiv, hmod]
      exact hend rfl
    · exact absurd (by simpa [h16] using hstate.symm) hne'.2

set_option maxRecDepth 16384 in
theorem partialBytes_first {c : UInt8} (h : 0x80 ≤ c) {state code : ℕ}
    (hstep : stringUtf8DecodeCode stateAccept 0 c = (state, code))
    (hreading : PartialCode state code) : partialBytes state code = [c] := by
  have hc := byteClass_all (P := fun n k => 0x80 ≤ n →
    PartialCode (utf8d.getD (256 + stateAccept + k) 0) ((0xff >>> k) &&& n) →
    partialBytes (utf8d.getD (256 + stateAccept + k) 0) ((0xff >>> k) &&& n) = [byte n])
    (by decide) c (UInt8.le_iff_toNat_le.mp h)
  obtain ⟨rfl, rfl⟩ := Prod.mk.inj hstep.symm
  rw [byte_toNat] at hc
  exact hc hreading

end Partial

/-! ## What is taken -/

/-- The code of a character that `w` is the encoding of, or the replacement of bytes that are no
character. -/
def CodeOf (w : Bytes) (code : ℕ) : Prop := (Scalar code ∧ w = utf8 code) ∨ code = 0xfffd

/-- From the middle of a sequence the loop takes a character or a replacement. -/
theorem utf8GetLoop_partial {state code n : ℕ} {p : Bytes} (h : PartialCode state code)
    (hn : n < p.length) : ∃ code' w q, p = w ++ q ∧ w ≠ [] ∧ w.length ≤ n + 1 ∧
      w.length ≤ missing state ∧ utf8GetLoop state code (n + 1) p = .ok (code', q) ∧
      CodeOf (partialBytes state code ++ w) code' := by
  induction p generalizing state code n with
  | nil => exact absurd hn (Nat.not_lt_zero n)
  | cons c p ih =>
    obtain ⟨state', code', hstep⟩ : ∃ a b, stringUtf8DecodeCode state code c = (a, b) := ⟨_, _, rfl⟩
    have hpos := one_le_missing state
    have hreject : state' = stateReject ∨ (state' ≠ stateAccept ∧ n = 0) →
        ∃ code'' w q, c :: p = w ++ q ∧ w ≠ [] ∧ w.length ≤ n + 1 ∧ w.length ≤ missing state ∧
          utf8GetLoop state code (n + 1) (c :: p) = .ok (code'', q) ∧
          CodeOf (partialBytes state code ++ w) code'' := by
      intro hor
      refine ⟨0xfffd, [c], p, rfl, List.cons_ne_nil _ _, Nat.succ_le_succ (Nat.zero_le n), hpos,
        ?_, .inr rfl⟩
      simp only [utf8GetLoop, hstep]
      rcases hor with rfl | ⟨hne, rfl⟩
      · rw [if_neg (by decide), if_pos (.inl rfl)]
      · rw [if_neg hne, if_pos (.inr rfl)]
    by_cases htail : c.toNat < 0x80 ∨ 0xc0 ≤ c.toNat
    · have hnoTail : (stringUtf8DecodeCode state code c).1 = stateReject :=
        decodeCode_noTail h.midStates htail
      rw [hstep] at hnoTail
      exact hreject (.inl hnoTail)
    obtain ⟨m, hm, rfl⟩ : ∃ m, m < 64 ∧ c = byte (0x80 + m) := by
      refine ⟨c.toNat - 0x80, by omega, ?_⟩
      rw [show 0x80 + (c.toNat - 0x80) = c.toNat by omega, byte_toNat]
    rcases decodeCode_partial h hm hstep with ⟨haccept, hscalar, -⟩ | hstate | hpartial
    · have hstate : state = 24 ∧ code' = code * 64 + m := by
        have hne : state ≠ 0 := by
          unfold PartialCode at h
          omega
        rw [decodeCode_tail hne hm, nextState_tail h.midStates hm, Prod.mk.injEq, haccept] at hstep
        refine ⟨?_, hstep.2.symm⟩
        by_contra h24
        have hfirst := hstep.1
        rw [if_neg h24] at hfirst
        revert hfirst
        split_ifs <;> decide
      obtain ⟨rfl, rfl⟩ := hstate
      refine ⟨_, [byte (0x80 + m)], p, rfl, List.cons_ne_nil _ _, Nat.succ_le_succ (Nat.zero_le n),
        hpos, ?_, .inl ⟨hscalar, partialBytes_last h hm⟩⟩
      simp only [utf8GetLoop, hstep]
      rw [if_pos haccept]
    · exact hreject (.inl hstate)
    · have hne := hpartial.state_ne
      by_cases hn0 : n = 0
      · exact hreject (.inr ⟨hne.1, hn0⟩)
      obtain ⟨k, rfl⟩ := Nat.exists_eq_succ_of_ne_zero hn0
      obtain ⟨code'', w, q, hp, hw, hle, hmissing, hloop, hcode⟩ :=
        ih hpartial (Nat.lt_of_succ_lt_succ hn)
      have hless := h.missing_lt hstep hpartial
      refine ⟨code'', byte (0x80 + m) :: w, q, by rw [hp]; rfl, List.cons_ne_nil _ _,
        Nat.succ_le_succ hle, Nat.lt_of_le_of_lt hmissing hless, ?_, ?_⟩
      · rw [← hloop]
        simp only [utf8GetLoop, hstep]
        rw [if_neg hne.1, if_neg (not_or_intro hne.2 hn0)]
      · rw [partialBytes_tail h hm hstep hpartial, List.append_assoc] at hcode
        exact hcode

set_option maxRecDepth 16384 in
/-- A byte below 0x80 is the encoding of its own code. -/
theorem stringUtf8Get_ascii {c : UInt8} (h : c < 0x80) (p : Bytes) (n : ℕ) :
    stringUtf8Get (c :: p) (n + 1) = .ok (c.toNat, p) := by
  have hcode := byteClass_all (P := fun n k => n < 0x80 → (0xff >>> k) &&& n = n) (by decide) c
    (UInt8.lt_iff_toNat_lt.mp h)
  exact utf8GetLoop_accept (Prod.ext (decodeCode_ascii (UInt8.not_le.mpr h) 0) hcode) p

/-- Every scalar value is read back from its encoding. -/
theorem stringUtf8Get_scalar {c : ℕ} (hc : Scalar c) {n : ℕ} (hn : (utf8 c).length ≤ n)
    (p : Bytes) : stringUtf8Get (utf8 c ++ p) n = .ok (c, p) := by
  by_cases hascii : c < 0x80
  · rw [utf8_ascii hascii] at hn ⊢
    obtain ⟨k, rfl⟩ : ∃ k, n = k + 1 := ⟨n - 1, (Nat.sub_add_cancel hn).symm⟩
    have hlt : byte c < 0x80 := by
      rw [UInt8.lt_iff_toNat_lt, toNat_byte (by omega)]
      exact hascii
    have hget := stringUtf8Get_ascii hlt p k
    rwa [toNat_byte (by omega)] at hget
  · exact stringUtf8Get_utf8 hc (Nat.not_lt.mp hascii) hn p

/-- From any bytes `string_utf8_get` takes a character or a replacement. -/
theorem stringUtf8Get_codeOf {p : Bytes} {n : ℕ} (hn : 0 < n) (hle : n ≤ p.length) :
    ∃ code w q, p = w ++ q ∧ w ≠ [] ∧ w.length ≤ n ∧ w.length ≤ 4 ∧
      stringUtf8Get p n = .ok (code, q) ∧ CodeOf w code := by
  obtain ⟨c, p, rfl⟩ := List.exists_cons_of_length_pos (Nat.lt_of_lt_of_le hn hle)
  obtain ⟨k, rfl⟩ : ∃ k, n = k + 1 := ⟨n - 1, (Nat.sub_add_cancel hn).symm⟩
  have hone : [c].length ≤ k + 1 := Nat.succ_le_succ (Nat.zero_le k)
  have hfour : [c].length ≤ 4 := Nat.succ_le_succ (Nat.zero_le 3)
  by_cases hascii : c < 0x80
  · have hlt : c.toNat < 0x80 := UInt8.lt_iff_toNat_lt.mp hascii
    refine ⟨c.toNat, [c], p, rfl, List.cons_ne_nil _ _, hone, hfour,
      stringUtf8Get_ascii hascii p k, .inl ⟨.inl (by omega), ?_⟩⟩
    rw [utf8_ascii hlt, byte_toNat]
  have hc : 0x80 ≤ c := UInt8.not_lt.mp hascii
  have hlead := decodeCode_lead hc
  obtain ⟨state, code, hstep⟩ : ∃ a b, stringUtf8DecodeCode stateAccept 0 c = (a, b) := ⟨_, _, rfl⟩
  simp only [hstep] at hlead
  have hreplaced : state = stateReject ∨ (state ≠ stateAccept ∧ k = 0) →
      ∃ code' w q, c :: p = w ++ q ∧ w ≠ [] ∧ w.length ≤ k + 1 ∧ w.length ≤ 4 ∧
        stringUtf8Get (c :: p) (k + 1) = .ok (code', q) ∧ CodeOf w code' := by
    intro hor
    refine ⟨0xfffd, [c], p, rfl, List.cons_ne_nil _ _, hone, hfour, ?_, .inr rfl⟩
    simp only [stringUtf8Get, utf8GetLoop, hstep]
    rcases hor with rfl | ⟨hne, rfl⟩
    · rw [if_neg (by decide), if_pos (.inl rfl)]
    · rw [if_neg hne, if_pos (.inr rfl)]
  rcases hlead with hreject | hpartial
  · exact hreplaced (.inl hreject)
  · have hne := hpartial.state_ne
    by_cases hk : k = 0
    · exact hreplaced (.inr ⟨hne.1, hk⟩)
    obtain ⟨k, rfl⟩ := Nat.exists_eq_succ_of_ne_zero hk
    obtain ⟨code', w, q, hp, hw, hlen, hmissing, hloop, hcode⟩ :=
      utf8GetLoop_partial hpartial (Nat.le_of_succ_le_succ hle)
    have hthree := missing_le_three state
    refine ⟨code', c :: w, q, by rw [hp]; rfl, List.cons_ne_nil _ _, Nat.succ_le_succ hlen,
      Nat.succ_le_succ (Nat.le_trans hmissing hthree), ?_, ?_⟩
    · rw [← hloop]
      simp only [stringUtf8Get, utf8GetLoop, hstep]
      rw [if_neg hne.1, if_neg (not_or_intro hne.2 hk)]
    · rwa [partialBytes_first hc hstep hpartial] at hcode

/-! ## Lengths -/

/-- `string_utf8_length` counts the characters of a string. -/
theorem stringUtf8Length_chars {cs : List ℕ} (hcs : ∀ c ∈ cs, Scalar c) :
    stringUtf8Length (cs.flatMap utf8) = .ok cs.length := by
  refine Loop.within_variant utf8LengthTurn
    (I := fun x => ∃ rest, (∀ c ∈ rest, Scalar c) ∧ x.1 = rest.flatMap utf8 ∧
      x.2 + rest.length = cs.length)
    (μ := fun x => x.1.length) (Q := fun r => r = .ok cs.length) ?_ .hang
    ⟨cs, hcs, rfl, Nat.zero_add _⟩ (Nat.lt_succ_self _)
  rintro ⟨p, length⟩ ⟨rest, hrest, hp, hlength⟩
  dsimp only at hp hlength
  subst hp
  unfold Loop.TurnSpec
  cases rest with
  | nil => exact congrArg _ hlength
  | cons c rest =>
    have hget := stringUtf8Get_scalar (hrest c (by simp))
      (n := (utf8 c ++ rest.flatMap utf8).length) (by simp) (rest.flatMap utf8)
    obtain ⟨x, u, hx, -⟩ := utf8_cons (hrest c (by simp))
    rw [hx, List.cons_append, List.length_cons] at hget
    rw [List.flatMap_cons, hx, List.cons_append]
    simp only [utf8LengthTurn, hget, ok_bind, pure_eq_ok]
    refine ⟨⟨rest, fun y hy => hrest y (List.mem_cons_of_mem c hy), rfl, ?_⟩, ?_⟩
    · rw [← hlength, List.length_cons]
      omega
    · rw [List.length_cons, List.length_append]
      omega

/-- `string_utf8_get` gives the character that the range starts with, and U+FFFD where it starts
with none; it takes back what `string_utf8_put` has written. -/
theorem stringUtf8Get_decodes {p : Bytes} {n : ℕ} (hn : 0 < n) (hle : n ≤ p.length) {c : ℕ}
    (hc : Scalar c) (q : Bytes) {cs : List ℕ} (hcs : ∀ c ∈ cs, Scalar c) :
    (∃ code k, stringUtf8Get p n = .ok (code, p.drop k) ∧ 1 ≤ k ∧ k ≤ 4 ∧ k ≤ n ∧
      (∀ c, Scalar c → utf8 c <+: p.take n → code = c ∧ p.take k = utf8 c) ∧
      ((∀ c, Scalar c → ¬ utf8 c <+: p.take n) → code = 0xfffd)) ∧
    stringUtf8Get (stringUtf8Put c ++ q) (stringUtf8Put c ++ q).length = .ok (c, q) ∧
    stringUtf8Length (cs.flatMap stringUtf8Put) = .ok cs.length := by
  refine ⟨?_, ?_, ?_⟩
  · obtain ⟨code, w, q, rfl, hw, hlen, hfour, hget, hcode⟩ := stringUtf8Get_codeOf hn hle
    refine ⟨code, w.length, by rw [hget, List.drop_left], List.length_pos_iff.mpr hw, hfour, hlen,
      fun c hc hprefix => ?_, fun hnone => ?_⟩
    · obtain ⟨r, hr⟩ := hprefix
      have hsplit : w ++ q = utf8 c ++ (r ++ (w ++ q).drop n) := by
        rw [← List.append_assoc, hr, List.take_append_drop]
      have hn' : (utf8 c).length ≤ n := by
        have hlength := congrArg List.length hr
        rw [List.length_append, List.length_take] at hlength
        omega
      have hread := stringUtf8Get_scalar hc hn' (r ++ (w ++ q).drop n)
      rw [← hsplit, hget] at hread
      obtain ⟨rfl, hq⟩ := Prod.mk.inj (Except.ok.inj hread)
      rw [← hq] at hsplit
      rw [List.take_left]
      exact ⟨rfl, List.append_cancel_right hsplit⟩
    · refine hcode.resolve_left fun hscalar => hnone code hscalar.1 ?_
      rw [← hscalar.2]
      exact List.prefix_take_iff.mpr ⟨List.prefix_append w q, hlen⟩
  · rw [stringUtf8Put_scalar hc]
    refine stringUtf8Get_scalar hc ?_ q
    rw [List.length_append]
    exact Nat.le_add_right _ _
  · have hput : cs.flatMap stringUtf8Put = cs.flatMap utf8 := by
      rw [List.flatMap_def, List.flatMap_def,
        List.map_congr_left fun c hc => stringUtf8Put_scalar (hcs c hc)]
    rw [hput]
    exact stringUtf8Length_chars hcs

/-- The euro sign before a letter, and both in a string. -/
theorem stringUtf8Get_decodes_euro :
    (∃ code k, stringUtf8Get [0xe2, 0x82, 0xac, 0x41] 4 =
        .ok (code, List.drop k [0xe2, 0x82, 0xac, 0x41]) ∧ 1 ≤ k ∧ k ≤ 4 ∧ k ≤ 4 ∧
      (∀ c, Scalar c → utf8 c <+: List.take 4 [0xe2, 0x82, 0xac, 0x41] →
        code = c ∧ List.take k [0xe2, 0x82, 0xac, 0x41] = utf8 c) ∧
      ((∀ c, Scalar c → ¬ utf8 c <+: List.take 4 [0xe2, 0x82, 0xac, 0x41]) → code = 0xfffd)) ∧
    stringUtf8Get (stringUtf8Put 0x20ac ++ [0x41]) (stringUtf8Put 0x20ac ++ [0x41]).length =
      .ok (0x20ac, [0x41]) ∧
    stringUtf8Length ([0x41, 0x20ac].flatMap stringUtf8Put) = .ok 2 :=
  stringUtf8Get_decodes (by decide) (by decide) (by decide) [0x41] (by decide)

end LibReactor
