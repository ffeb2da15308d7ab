import LibReactor.Escape

/-!
# Valid strings from any bytes

From any bytes `string_utf8_get` takes the code of a scalar value, with U+FFFD in place of what
is no character. So `string_utf8_encode` writes characters of the grammar for any bytes
whatsoever, and what `string_utf8_decode` makes of a string that it stays inside is well formed.
-/

namespace LibReactor

def Yields {α : Type} (P : α → Prop) (x : Except Fault α) : Prop :=
  x = .error .outside ∨ ∃ a, x = .ok a ∧ P a

section Yields

variable {α β : Type} {P : α → Prop} {Q : β → Prop}

theorem Yields.ok {a : α} (h : P a) : Yields P (.ok a) := .inr ⟨a, rfl, h⟩

theorem Yields.bind {x : Except Fault α} (h : Yields P x) {f : α → Except Fault β}
    (hf : ∀ a, P a → Yields Q (f a)) : Yields Q (x >>= f) := by
  rcases h with rfl | ⟨a, rfl, ha⟩
  · exact .inl rfl
  · exact hf a ha

theorem Yields.imp {P' : α → Prop} {x : Except Fault α} (h : Yields P x)
    (hP : ∀ a, P a → P' a) : Yields P' x := by
  rcases h with rfl | ⟨a, rfl, ha⟩
  · exact .inl rfl
  · exact .ok (hP a ha)

theorem Yields.of_ok {x : Except Fault α} (h : Yields P x) {a : α} (hx : x = .ok a) : P a := by
  rcases h with rfl | ⟨b, rfl, hb⟩
  · cases hx
  · exact Except.ok.inj hx ▸ hb

end Yields

/-! ## Reading a code from any bytes -/

/-- The codes in the middle of a sequence, by the state. -/
def PartialCode (state code : ℕ) : Prop :=
  (state = 24 ∧ 2 ≤ code ∧ code < 0x4400 ∧ (code < 0x360 ∨ 0x380 ≤ code)) ∨
  (state = 36 ∧ 1 ≤ code ∧ code < 0x110 ∧ code ≠ 13) ∨
  (state = 48 ∧ code = 0) ∨ (state = 60 ∧ code = 13) ∨ (state = 72 ∧ code = 0) ∨
  (state = 84 ∧ 1 ≤ code ∧ code < 4) ∨ (state = 96 ∧ code = 4)

instance (state code : ℕ) : Decidable (PartialCode state code) := by
  unfold PartialCode
  infer_instance

theorem PartialCode.midStates {state code : ℕ} (h : PartialCode state code) :
    state ∈ midStates := by
  unfold PartialCode at h
  simp only [LibReactor.midStates, List.mem_cons, List.not_mem_nil, or_false]
  omega

theorem PartialCode.state_ne {state code : ℕ} (h : PartialCode state code) :
    state ≠ stateAccept ∧ state ≠ stateReject := by
  have hmid := h.midStates
  constructor <;> rintro rfl <;> revert hmid <;> decide

set_option maxRecDepth 16384 in
theorem decodeCode_lead {c : UInt8} (h : 0x80 ≤ c) :
    (stringUtf8DecodeCode stateAccept 0 c).1 = stateReject ∨
      PartialCode (stringUtf8DecodeCode stateAccept 0 c).1
        (stringUtf8DecodeCode stateAccept 0 c).2 := by
  have hc := byteClass_all
    (P := fun n k => 0x80 ≤ n → utf8d.getD (256 + stateAccept + k) 0 = stateReject ∨
      PartialCode (utf8d.getD (256 + stateAccept + k) 0) ((0xff >>> k) &&& n))
    (by decide) c
  exact hc (UInt8.le_iff_toNat_le.mp h)

set_option maxRecDepth 16384 in
/-- In the middle of a sequence a byte that is no continuation byte is rejected. -/
theorem decodeCode_noTail {state code : ℕ} {c : UInt8} (hstate : state ∈ midStates)
    (h : c.toNat < 0x80 ∨ 0xc0 ≤ c.toNat) :
    (stringUtf8DecodeCode state code c).1 = stateReject := by
  have hclass := byteClass_all
    (P := fun n k => n < 0x80 ∨ 0xc0 ≤ n → k ∈ [0, 2, 3, 4, 5, 6, 8, 10, 11]) (by decide) c
  rw [decodeCode_fst]
  exact nextState_all (P := fun _ k next => k ∈ [0, 2, 3, 4, 5, 6, 8, 10, 11] → next = stateReject)
    (by decide) hstate (byteClass_lt c) (hclass h)

set_option maxRecDepth 16384 in
theorem nextState_tail {state m : ℕ} (hstate : state ∈ midStates) (hm : m < 64) :
    utf8d.getD (256 + state + if m < 16 then 1 else if m < 32 then 9 else 7) 0 =
      if state = 24 then stateAccept else if state = 36 then 24
      else if state = 48 then if m < 32 then stateReject else 24
      else if state = 60 then if m < 32 then 24 else stateReject
      else if state = 72 then if m < 16 then stateReject else 36
      else if state = 84 then 36
      else if m < 16 then 36 else stateReject := by
  have hall {k : ℕ} (hk : k < 12) := nextState_all (P := fun state k next =>
    k = 1 ∨ k = 9 ∨ k = 7 → next =
      if state = 24 then stateAccept else if state = 36 then 24
      else if state = 48 then if k ≠ 7 then stateReject else 24
      else if state = 60 then if k ≠ 7 then 24 else stateReject
      else if state = 72 then if k = 1 then stateReject else 36
      else if state = 84 then 36
      else if k = 1 then 36 else stateReject) (by decide) hstate hk
  by_cases h16 : m < 16
  · simpa [h16, show m < 32 by omega] using hall (by decide : 1 < 12) (.inl rfl)
  · by_cases h32 : m < 32
    · simpa [h16, h32] using hall (by decide : 9 < 12) (.inr (.inl rfl))
    · simpa [h16, h32] using hall (by decide : 7 < 12) (.inr (.inr rfl))

/-- A continuation byte completes a scalar value, is rejected, or leads on. -/
theorem decodeCode_partial {state code m : ℕ} (h : PartialCode state code) (hm : m < 64)
    {state' code' : ℕ}
    (hstep : stringUtf8DecodeCode state code (byte (0x80 + m)) = (state', code')) :
    (state' = stateAccept ∧ Scalar code' ∧ 0x80 ≤ code') ∨ state' = stateReject ∨
      PartialCode state' code' := by
  have hne : state ≠ 0 := by
    unfold PartialCode at h
    omega
  rw [decodeCode_tail hne hm, nextState_tail h.midStates hm, Prod.mk.injEq] at hstep
  obtain ⟨hstate, rfl⟩ := hstep
  have haccept : state' = stateAccept → 0x80 ≤ code * 64 + m → code * 64 + m < 0x110000 →
      (code * 64 + m < 0xd800 ∨ 0xe000 ≤ code * 64 + m) →
      (state' = stateAccept ∧ Scalar (code * 64 + m) ∧ 0x80 ≤ code * 64 + m) ∨
        state' = stateReject ∨ PartialCode state' (code * 64 + m) := by
    intro hstate' hmulti hlt hscalar
    exact .inl ⟨hstate', hscalar.imp_right fun hle => ⟨hle, hlt⟩, hmulti⟩
  have hlast : state' = 24 → 2 ≤ code * 64 + m → code * 64 + m < 0x4400 →
      (code * 64 + m < 0x360 ∨ 0x380 ≤ code * 64 + m) → PartialCode state' (code * 64 + m) :=
    fun hstate' h2 hlt hgap => .inl ⟨hstate', h2, hlt, hgap⟩
  have htwo : state' = 36 → 14 ≤ code * 64 + m → code * 64 + m < 0x110 →
      PartialCode state' (code * 64 + m) :=
    fun hstate' h14 hlt => .inr (.inl ⟨hstate', by omega, hlt, by omega⟩)
  rcases h with ⟨rfl, h⟩ | ⟨rfl, h⟩ | ⟨rfl, rfl⟩ | ⟨rfl, rfl⟩ | ⟨rfl, rfl⟩ | ⟨rfl, h⟩ | ⟨rfl, rfl⟩
  · exact haccept hstate.symm (by omega) (by omega) (by omega)
  · exact .inr (.inr (hlast hstate.symm (by omega) (by omega) (by omega)))
  · by_cases h32 : m < 32
    · exact .inr (.inl (by simpa [h32] using hstate.symm))
    · exact .inr (.inr (hlast (by simpa [h32] using hstate.symm) (by omega) (by omega) (by omega)))
  · by_cases h32 : m < 32
    · exact .inr (.inr (hlast (by simpa [h32] using hstate.symm) (by omega) (by omega) (by omega)))
    · exact .inr (.inl (by simpa [h32] using hstate.symm))
  · by_cases h16 : m < 16
    · exact .inr (.inl (by simpa [h16] using hstate.symm))
    · exact .inr (.inr (htwo (by simpa [h16] using hstate.symm) (by omega) (by omega)))
  · exact .inr (.inr (htwo hstate.symm (by omega) (by omega)))
  · by_cases h16 : m < 16
    · exact .inr (.inr (htwo (by simpa [h16] using hstate.symm) (by omega) (by omega)))
    · exact .inr (.inl (by simpa [h16] using hstate.symm))

/-- Any byte completes a scalar value, is rejected, or leads on. -/
theorem decodeCode_cases {state code : ℕ} {c : UInt8} (h : PartialCode state code)
    {state' code' : ℕ} (hstep : stringUtf8DecodeCode state code c = (state', code')) :
    (state' = stateAccept ∧ Scalar code' ∧ 0x80 ≤ code') ∨ state' = stateReject ∨
      PartialCode state' code' := by
  by_cases htail : c.toNat < 0x80 ∨ 0xc0 ≤ c.toNat
  · have hreject : (stringUtf8DecodeCode state code c).1 = stateReject :=
      decodeCode_noTail h.midStates htail
    rw [hstep] at hreject
    exact .inr (.inl hreject)
  · have hc : c = byte (0x80 + (c.toNat - 0x80)) := by
      rw [show 0x80 + (c.toNat - 0x80) = c.toNat by omega, byte_toNat]
    rw [hc] at hstep
    exact decodeCode_partial h (by omega) hstep

theorem PartialCode.missing_lt {state code : ℕ} {c : UInt8} (h : PartialCode state code)
    {state' code' : ℕ} (hstep : stringUtf8DecodeCode state code c = (state', code'))
    (h' : PartialCode state' code') : missing state' < missing state := by
  have hnext := decodeCode_next h.midStates code c
  rw [hstep] at hnext
  exact ((hnext.resolve_left h'.state_ne.1).resolve_left h'.state_ne.2).2

def TakenCode (p : Bytes) (r : ℕ × Bytes) : Prop :=
  Scalar r.1 ∧ 0x80 ≤ r.1 ∧ r.2.length ≤ p.length

theorem TakenCode.replacement (p : Bytes) : TakenCode p (0xfffd, p) :=
  ⟨show Scalar 0xfffd by decide, show 0x80 ≤ 0xfffd by decide, Nat.le_refl _⟩

theorem TakenCode.cons {p : Bytes} {r : ℕ × Bytes} (h : TakenCode p r) (c : UInt8) :
    TakenCode (c :: p) r :=
  ⟨h.1, h.2.1, Nat.le_succ_of_le h.2.2⟩

/-- From any bytes the loop takes a scalar value, if it stays inside the object. -/
theorem utf8GetLoop_taken {state code n : ℕ} {p : Bytes} (h : PartialCode state code) :
    Yields (TakenCode p) (utf8GetLoop state code (n + 1) p) := by
  induction p generalizing state code n with
  | nil => exact .inl rfl
  | cons c p ih =>
    obtain ⟨state', code', hstep⟩ : ∃ a b, stringUtf8DecodeCode state code c = (a, b) := ⟨_, _, rfl⟩
    simp only [utf8GetLoop, hstep]
    rcases decodeCode_cases h hstep with ⟨haccept, hscalar, hmulti⟩ | hreject | hpartial
    · rw [if_pos haccept]
      exact .ok ⟨hscalar, hmulti, Nat.le_succ _⟩
    · rw [if_neg (by rw [hreject]; decide), if_pos (.inl hreject)]
      exact .ok ((TakenCode.replacement p).cons c)
    · have hne := hpartial.state_ne
      rw [if_neg hne.1]
      by_cases hn : n = 0
      · rw [if_pos (.inr hn)]
        exact .ok ((TakenCode.replacement p).cons c)
      · rw [if_neg (not_or_intro hne.2 hn)]
        obtain ⟨k, rfl⟩ := Nat.exists_eq_succ_of_ne_zero hn
        exact (ih hpartial).imp fun r hr => hr.cons c

theorem stringUtf8Get_taken {c : UInt8} (h : 0x80 ≤ c) (p : Bytes) (n : ℕ) :
    Yields (TakenCode p) (stringUtf8Get (c :: p) (n + 1)) := by
  have hlead := decodeCode_lead h
  obtain ⟨state, code, hstep⟩ : ∃ a b, stringUtf8DecodeCode stateAccept 0 c = (a, b) := ⟨_, _, rfl⟩
  simp only [hstep] at hlead
  simp only [stringUtf8Get, utf8GetLoop, hstep]
  rcases hlead with hreject | hpartial
  · rw [if_neg (by rw [hreject]; decide), if_pos (.inl hreject)]
    exact .ok (.replacement p)
  · have hne := hpartial.state_ne
    rw [if_neg hne.1]
    by_cases hn : n = 0
    · rw [if_pos (.inr hn)]
      exact .ok (.replacement p)
    · rw [if_neg (not_or_intro hne.2 hn)]
      obtain ⟨k, rfl⟩ := Nat.exists_eq_succ_of_ne_zero hn
      exact utf8GetLoop_taken hpartial

/-- The loop stays inside an object of the bytes it may read. -/
theorem utf8GetLoop_ok {state code n : ℕ} {p : Bytes} (h : n ≤ p.length) :
    ∃ r, utf8GetLoop state code n p = .ok r := by
  induction p generalizing state code n with
  | nil =>
    obtain rfl := Nat.le_zero.mp h
    exact ⟨_, rfl⟩
  | cons c p ih =>
    cases n with
    | zero => exact ⟨_, rfl⟩
    | succ n =>
      simp only [utf8GetLoop]
      split_ifs
      · exact ⟨_, rfl⟩
      · exact ⟨_, rfl⟩
      · exact ih (Nat.le_of_succ_le_succ h)

/-! ## Writing -/

theorem CharText.regular {x : UInt8} (h : stringUtf8Regular x = true) : CharText [x] := by
  obtain ⟨hascii, h20, hquote, hbackslash⟩ := unescaped_of_regular h
  have hx := CharText.unescaped (c := x.toNat) (.inl (by omega)) h20 hquote hbackslash
  rwa [utf8_ascii hascii, byte_toNat] at hx

theorem charText_putEncoded {c : ℕ} (hc : Scalar c) : CharText (stringUtf8PutEncoded c) := by
  unfold Scalar at hc
  by_cases hbmp : c < 0x10000
  · obtain ⟨x, y, z, u, hx, hy, hz, hu, hcode, heq⟩ := stringUtf8PutEncodedBasic_digits hbmp
    rw [stringUtf8PutEncoded, if_neg (by omega), heq]
    exact .unicode hx hy hz hu (by omega)
  · have hhigh : (c - 0x10000) >>> 10 < 1024 := by
      rw [Nat.shiftRight_eq_div_pow]
      omega
    have hlow : (c - 0x10000) &&& 0x3ff < 1024 := by
      rw [show (c - 0x10000) &&& 0x3ff = (c - 0x10000) % 1024 from and_mask _ 10]
      omega
    obtain ⟨hor, -⟩ := or_surrogate (show 0xd800 % 1024 = 0 from rfl) hhigh
    obtain ⟨hor', -⟩ := or_surrogate (show 0xdc00 % 1024 = 0 from rfl) hlow
    obtain ⟨a, b, d, e, ha, hb, hd, he, hcode, heq⟩ :=
      stringUtf8PutEncodedBasic_digits (show 0xd800 + (c - 0x10000) >>> 10 < 0x10000 by omega)
    obtain ⟨a', b', d', e', ha', hb', hd', he', hcode', heq'⟩ :=
      stringUtf8PutEncodedBasic_digits (show 0xdc00 + ((c - 0x10000) &&& 0x3ff) < 0x10000 by omega)
    simp only [stringUtf8PutEncoded, if_pos (Nat.not_lt.mp hbmp), hor, hor', heq, heq',
      List.cons_append, List.nil_append]
    exact .surrogates ha hb hd he ha' hb' hd' he' (by omega) (by omega) (by omega) (by omega)

theorem isxdigit_lt {c : UInt8} (h : isxdigit c = true) : c < 0x80 :=
  UInt8.not_le.mp (isxdigit_ascii h)

/-- A character of the grammar is ASCII unless it stands for itself. -/
theorem CharText.ascii {w : Bytes} (h : CharText w) :
    (∃ c, Scalar c ∧ 0x80 ≤ c ∧ w = utf8 c) ∨ ∀ x ∈ w, x < 0x80 := by
  have hbackslash : backslash < 0x80 := by decide
  have hu : ch 'u' < 0x80 := by decide
  cases h with
  | @unescaped c hc h20 hquote hbackslash =>
    by_cases hascii : c < 0x80
    · refine .inr fun x hx => ?_
      rw [utf8_ascii hascii, List.mem_singleton] at hx
      rw [hx, UInt8.lt_iff_toNat_lt, toNat_byte (by omega)]
      exact hascii
    · exact .inl ⟨c, hc, by omega, rfl⟩
  | @escape e he =>
    have hall : ∀ x ∈ str "\"\\/bfnrt", x < 0x80 := by decide +kernel
    refine .inr ?_
    simp only [List.forall_mem_cons]
    exact ⟨hbackslash, hall e he, List.forall_mem_nil _⟩
  | unicode ha hb hc hd =>
    refine .inr ?_
    simp only [List.forall_mem_cons]
    exact ⟨hbackslash, hu, isxdigit_lt ha, isxdigit_lt hb, isxdigit_lt hc, isxdigit_lt hd,
      List.forall_mem_nil _⟩
  | surrogates ha hb hc hd ha' hb' hc' hd' =>
    refine .inr ?_
    simp only [List.forall_mem_cons]
    exact ⟨hbackslash, hu, isxdigit_lt ha, isxdigit_lt hb, isxdigit_lt hc, isxdigit_lt hd,
      hbackslash, hu, isxdigit_lt ha', isxdigit_lt hb', isxdigit_lt hc', isxdigit_lt hd',
      List.forall_mem_nil _⟩

theorem CharText.escape_ascii {w : Bytes} (h : CharText w) (hw : ∃ v, w = backslash :: v) :
    ∀ x ∈ w, x < 0x80 := by
  refine h.ascii.resolve_left ?_
  rintro ⟨c, hc, hmulti, rfl⟩
  obtain ⟨v, hv⟩ := hw
  obtain ⟨x, u, hx, hlead, -⟩ := utf8_multi hc hmulti
  rw [hx] at hv
  rw [(List.cons.inj hv).1] at hlead
  exact absurd hlead (by decide)

theorem WellFormed.of_ascii {s : Bytes} (h : ∀ x ∈ s, x < 0x80) : WellFormed s := by
  induction s with
  | nil => exact .nil
  | cons x s ih =>
    obtain ⟨hx, hs⟩ := List.forall_mem_cons.mp h
    have hlt : x.toNat < 0x80 := UInt8.lt_iff_toNat_lt.mp hx
    have hcons := WellFormed.cons (c := x.toNat) (.inl (by omega)) (ih hs)
    rwa [utf8_ascii hlt, byte_toNat] at hcons

theorem WellFormed.append {s t : Bytes} (hs : WellFormed s) (ht : WellFormed t) :
    WellFormed (s ++ t) := by
  obtain ⟨cs, hcs, rfl⟩ := hs
  obtain ⟨ds, hds, rfl⟩ := ht
  refine ⟨cs ++ ds, fun c hc => ?_, List.flatMap_append.symm⟩
  exact (List.mem_append.mp hc).elim (hcs c) (hds c)

theorem WellFormed.utf8 {c : ℕ} (hc : Scalar c) : WellFormed (utf8 c) :=
  ⟨[c], by simpa using hc, by simp⟩

theorem CharText.wellFormed {w : Bytes} (h : CharText w) : WellFormed w := by
  rcases h.ascii with ⟨c, hc, -, rfl⟩ | hascii
  · exact .utf8 hc
  · exact .of_ascii hascii

theorem WellFormed.chars {chars : List Bytes} (h : ∀ w ∈ chars, CharText w) :
    WellFormed chars.flatten := by
  induction chars with
  | nil => exact .nil
  | cons w chars ih =>
    obtain ⟨hw, hchars⟩ := List.forall_mem_cons.mp h
    exact hw.wellFormed.append (ih hchars)

/-- Characters of the grammar, in ASCII mode of ASCII bytes. -/
def Valid (ascii : Bool) (b : Bytes) : Prop :=
  ∃ chars : List Bytes, b = chars.flatten ∧
    ∀ w ∈ chars, CharText w ∧ (ascii = true → ∀ x ∈ w, x < 0x80)

theorem Valid.nil (ascii : Bool) : Valid ascii [] := ⟨[], rfl, by simp⟩

theorem Valid.append {ascii : Bool} {a b : Bytes} (ha : Valid ascii a) (hb : Valid ascii b) :
    Valid ascii (a ++ b) := by
  obtain ⟨chars, rfl, hchars⟩ := ha
  obtain ⟨chars', rfl, hchars'⟩ := hb
  refine ⟨chars ++ chars', by simp, fun w hw => ?_⟩
  exact (List.mem_append.mp hw).elim (hchars w) (hchars' w)

theorem Valid.char {ascii : Bool} {w : Bytes} (hw : CharText w)
    (h : ascii = true → ∀ x ∈ w, x < 0x80) : Valid ascii w :=
  ⟨[w], by simp, by simpa using ⟨hw, h⟩⟩

theorem Valid.regular (ascii : Bool) {w : Bytes} (h : ∀ x ∈ w, stringUtf8Regular x = true) :
    Valid ascii w := by
  induction w with
  | nil => exact .nil ascii
  | cons x w ih =>
    obtain ⟨hx, hw⟩ := List.forall_mem_cons.mp h
    have hlt : x < 0x80 := UInt8.lt_iff_toNat_lt.mpr (unescaped_of_regular hx).1
    exact Valid.append (.char (.regular hx) fun _ y hy => List.mem_singleton.mp hy ▸ hlt) (ih hw)

theorem valid_escapeByte (ascii : Bool) {c : UInt8} (h : ¬ 0x80 ≤ c) :
    Valid ascii (escapeByte c) := by
  have hlt : c.toNat < 0x80 := by
    simpa [UInt8.le_iff_toNat_le] using h
  have hreads := (escapeByte_reads hlt).1
  rw [byte_toNat] at hreads
  refine .char hreads fun _ => hreads.escape_ascii ?_
  unfold escapeByte stringUtf8PutEncodedBasic
  split_ifs <;> exact ⟨_, rfl⟩

/-- A turn of `string_utf8_encode` on any bytes -/
theorem encodeTurn_valid (ascii : Bool) (c : UInt8) (p buffer : Bytes) :
    ∃ q b, encodeTurn ascii (c :: p, buffer) = .ok (.inr (q, buffer ++ b)) ∧ Valid ascii b ∧
      q.length < (c :: p).length := by
  by_cases hregular : stringUtf8Regular c = true
  · refine ⟨p.dropWhile stringUtf8Regular, c :: p.takeWhile stringUtf8Regular, by
      simp only [encodeTurn, if_pos hregular, pure_eq_ok], ?_, ?_⟩
    · refine .regular ascii fun x hx => ?_
      rcases List.mem_cons.mp hx with rfl | hx
      · exact hregular
      · exact List.mem_takeWhile_imp hx
    · exact Nat.lt_succ_of_le (List.length_dropWhile_le _ _)
  by_cases hmulti : 0x80 ≤ c
  · obtain ⟨⟨code, q⟩, hget⟩ : ∃ r, stringUtf8Get (c :: p) (p.length + 1) = .ok r :=
      utf8GetLoop_ok (Nat.le_refl _)
    obtain ⟨hscalar, hcode, hlen⟩ := (stringUtf8Get_taken hmulti p p.length).of_ok hget
    refine ⟨q, if ascii then stringUtf8PutEncoded code else stringUtf8Put code, by
      simp only [encodeTurn, hget, ok_bind, if_pos hmulti, pure_eq_ok]
      rw [if_neg hregular], ?_, Nat.lt_succ_of_le hlen⟩
    cases ascii with
    | false =>
      rw [if_neg Bool.false_ne_true, stringUtf8Put_scalar hscalar]
      exact .char (.unescaped hscalar (by omega) (by omega) (by omega)) (by simp)
    | true =>
      rw [if_pos rfl]
      have htext := charText_putEncoded hscalar
      refine .char htext fun _ => htext.escape_ascii ?_
      unfold stringUtf8PutEncoded stringUtf8PutEncodedBasic
      split_ifs <;> exact ⟨_, rfl⟩
  · refine ⟨p, escapeByte c, by
      simp only [encodeTurn, if_neg hmulti, pure_eq_ok]
      rw [if_neg hregular], valid_escapeByte ascii hmulti, Nat.lt_succ_self _⟩

/-- Whatever the bytes, `string_utf8_encode` writes characters of the grammar. -/
theorem stringUtf8Encode_chars_any (s : Bytes) (ascii : Bool) :
    ∃ b, stringUtf8Encode s ascii = .ok b ∧ Valid ascii b := by
  refine Loop.within_variant (encodeTurn ascii) (I := fun x => Valid ascii x.2)
    (μ := fun x => x.1.length) (Q := fun r => ∃ b, r = .ok b ∧ Valid ascii b) ?_ .hang
    (Valid.nil ascii) (Nat.lt_succ_self _)
  rintro ⟨p, buffer⟩ hbuffer
  unfold Loop.TurnSpec
  cases p with
  | nil => exact ⟨buffer, rfl, hbuffer⟩
  | cons c p =>
    obtain ⟨q, b, hturn, hb, hlen⟩ := encodeTurn_valid ascii c p buffer
    rw [hturn]
    exact ⟨Valid.append hbuffer hb, hlen⟩

/-! ## Reading -/

theorem hexCode_lt {a b c d : UInt8} (ha : isxdigit a = true) (hb : isxdigit b = true)
    (hc : isxdigit c = true) (hd : isxdigit d = true) : hexCode a b c d < 0x10000 := by
  have hshift : ∀ {x : UInt8} (k : ℕ), isxdigit x = true → k ≤ 12 →
      digitValue x <<< k < 2 ^ 16 := by
    intro x k hx hk
    have hlt := digitValue_lt_of_isxdigit hx
    rw [Nat.shiftLeft_eq]
    calc digitValue x * 2 ^ k < 2 ^ 4 * 2 ^ k := by
          exact Nat.mul_lt_mul_of_pos_right hlt (Nat.two_pow_pos k)
      _ = 2 ^ (4 + k) := (Nat.pow_add 2 4 k).symm
      _ ≤ 2 ^ 16 := Nat.pow_le_pow_right (by decide) (by omega)
  have hlast := hshift 0 hd (by decide)
  rw [Nat.shiftLeft_zero] at hlast
  unfold hexCode
  exact Nat.or_lt_two_pow (Nat.or_lt_two_pow (Nat.or_lt_two_pow (hshift 12 ha (by decide))
    (hshift 8 hb (by decide))) (hshift 4 hc (by decide))) hlast

def surrogatePair (high low : ℕ) : ℕ := 0x10000 + (high - 0xd800) * 0x400 + (low - 0xdc00)

theorem scalar_surrogatePair {high low : ℕ} (h : 0xd800 ≤ high) (h' : high < 0xdc00)
    (hl : 0xdc00 ≤ low) (hl' : low < 0xe000) : Scalar (surrogatePair high low) := by
  unfold Scalar surrogatePair
  omega

/-- Recombining with a bitwise or keeps a bit of the plane. -/
theorem or_surrogates {high low : ℕ} (h : 0xd800 ≤ high) (h' : high < 0xdc00)
    (hl : 0xdc00 ≤ low) (hl' : low < 0xe000) :
    0x10000 ||| ((high &&& 0x3ff) <<< 10) ||| (low &&& 0x3ff) =
      recovered (surrogatePair high low) := by
  have hhigh : high &&& 0x3ff = high - 0xd800 := by
    rw [show high &&& 0x3ff = high % 1024 from and_mask _ 10]
    omega
  have hlow : low &&& 0x3ff = low - 0xdc00 := by
    rw [show low &&& 0x3ff = low % 1024 from and_mask _ 10]
    omega
  have hlt : low - 0xdc00 < 2 ^ 10 := by omega
  have hpair : surrogatePair high low - 0x10000 = (high - 0xd800) * 2 ^ 10 + (low - 0xdc00) := by
    unfold surrogatePair
    omega
  rw [recovered, if_neg (by unfold surrogatePair; omega), hhigh, hlow, Nat.or_assoc,
    ← Nat.shiftLeft_add_eq_or_of_lt hlt, Nat.shiftLeft_eq, hpair]

theorem peek_yields (p : Bytes) : Yields (fun c => ∃ t, p = c :: t) (peek p) := by
  cases p with
  | nil => exact .inl rfl
  | cons c t => exact .ok ⟨t, rfl⟩

theorem skipWhile_yields (P : UInt8 → Bool) (p : Bytes) :
    Yields (fun q => skipWhile P p = .ok q) (skipWhile P p) := by
  induction p with
  | nil => exact .inl rfl
  | cons c p ih =>
    rw [skipWhile]
    split_ifs
    · exact ih
    · exact .ok rfl

theorem stringUtf8GetEncodedBasic_yields (p : Bytes) :
    Yields (fun r => (r.1 < 0x10000 ∧ r.2.length < p.length) ∨ r = (0, p))
      (stringUtf8GetEncodedBasic p) := by
  have hstop : Yields (fun r => (r.1 < 0x10000 ∧ r.2.length < p.length) ∨ r = (0, p))
      (.ok (0, p)) := .ok (.inr rfl)
  unfold stringUtf8GetEncodedBasic
  simp only [pure_eq_ok, Bool.not_eq_true', ite_not]
  refine (peek_yields p).bind fun c hc => ?_
  split_ifs
  swap
  · exact hstop
  refine (peek_yields _).bind fun c₁ _ => ?_
  split_ifs
  swap
  · exact hstop
  refine (peek_yields _).bind fun a _ => ?_
  split_ifs with ha
  · exact hstop
  refine (peek_yields _).bind fun b _ => ?_
  split_ifs with hb
  · exact hstop
  refine (peek_yields _).bind fun c₄ _ => ?_
  split_ifs with hc₄
  · exact hstop
  refine (peek_yields _).bind fun d _ => ?_
  split_ifs with hd
  · exact hstop
  obtain ⟨t, rfl⟩ := hc
  rw [Bool.not_eq_false] at ha hb hc₄ hd
  refine .ok (.inl ⟨hexCode_lt ha hb hc₄ hd, ?_⟩)
  rw [List.length_drop, List.length_cons]
  omega

/-- A `\u` escape, a pair of them or an escape that is not taken stands for a scalar value. -/
theorem stringUtf8GetEncoded_yields (p : Bytes) :
    Yields (fun r => Scalar r.1 ∧ r.2.length ≤ p.length) (stringUtf8GetEncoded p) := by
  have hzero : Scalar 0 := by decide
  refine (stringUtf8GetEncodedBasic_yields p).bind fun r hr => ?_
  obtain ⟨w1, q⟩ := r
  have hq : q.length ≤ p.length := by
    rcases hr with hr | hr
    · exact hr.2.le
    · rw [(Prod.mk.inj hr).2]
  by_cases hlt : q.length < p.length
  swap
  · simp only [if_neg hlt]
    exact .ok ⟨hzero, hq⟩
  have hw1 : w1 < 0x10000 := by
    rcases hr with hr | hr
    · exact hr.1
    · rw [(Prod.mk.inj hr).2] at hlt
      exact absurd hlt (lt_irrefl _)
  simp only [if_pos hlt]
  split_ifs with hlow hhigh
  · exact .ok ⟨hzero, Nat.le_refl _⟩
  · refine (stringUtf8GetEncodedBasic_yields q).bind fun r' hr' => ?_
    obtain ⟨w2, q'⟩ := r'
    have hq' : q'.length ≤ q.length := by
      rcases hr' with hr' | hr'
      · exact hr'.2.le
      · rw [(Prod.mk.inj hr').2]
    dsimp only
    split_ifs with hpair
    · have hcode := scalar_recovered (scalar_surrogatePair hhigh.1 hhigh.2 hpair.1 hpair.2)
      rw [← or_surrogates hhigh.1 hhigh.2 hpair.1 hpair.2] at hcode
      exact .ok ⟨hcode, hq'.trans hq⟩
    · exact .ok ⟨hzero, Nat.le_refl _⟩
  · refine .ok ⟨?_, hq⟩
    unfold Scalar
    omega

theorem unescapeByte_lt {e b : UInt8} (h : unescapeByte e = some b) : b < 0x80 := by
  unfold unescapeByte at h
  split_ifs at h <;> cases h <;> decide

theorem wellFormed_regular {w : Bytes} (h : ∀ x ∈ w, stringUtf8Regular x = true) : WellFormed w :=
  .of_ascii fun x hx => UInt8.lt_iff_toNat_lt.mpr (unescaped_of_regular (h x hx)).1

theorem decodeStep_yields (p : Bytes) :
    Yields (fun r => r.1.length ≤ p.length ∧ WellFormed r.2) (decodeStep p) := by
  refine (peek_yields p).bind fun c hc => ?_
  obtain ⟨t, rfl⟩ := hc
  have hstay : Yields (fun r => r.1.length ≤ (c :: t).length ∧ WellFormed r.2)
      (.ok (c :: t, [])) := .ok ⟨Nat.le_refl _, .nil⟩
  split_ifs with hregular hmulti hescape
  · rw [List.tail_cons]
    refine (skipWhile_yields stringUtf8Regular t).bind fun q hq => ?_
    obtain ⟨w, a, u, rfl, hw, -, rfl⟩ := skipWhile_eq_ok.mp hq
    have hup : upTo (c :: (w ++ a :: u)) (a :: u) = c :: w := upTo_append (c :: w) (a :: u)
    refine .ok ⟨?_, ?_⟩
    · simp only [List.length_cons, List.length_append]
      omega
    · rw [hup]
      exact wellFormed_regular (List.forall_mem_cons.mpr ⟨hregular, hw⟩)
  · refine (stringUtf8Get_taken hmulti t 3).bind fun r hr => .ok ⟨?_, ?_⟩
    · exact Nat.le_succ_of_le hr.2.2
    · rw [stringUtf8Put_scalar hr.1]
      exact .utf8 hr.1
  · refine (peek_yields _).bind fun e he => ?_
    split_ifs
    · refine (stringUtf8GetEncoded_yields (c :: t)).bind fun r hr => .ok ⟨hr.2, ?_⟩
      rw [stringUtf8Put_scalar hr.1]
      exact .utf8 hr.1
    · cases hb : unescapeByte e with
      | none => exact hstay
      | some b =>
        refine .ok ⟨?_, .of_ascii fun x hx => List.mem_singleton.mp hx ▸ unescapeByte_lt hb⟩
        rw [List.length_drop]
        omega
  · exact hstay

/-- `string_utf8_decode` makes a well-formed string of any bytes that it stays inside. -/
theorem stringUtf8Decode_yields (p : Bytes) :
    Yields (fun r => WellFormed r.1) (stringUtf8Decode p) := by
  refine Loop.within_variant decodeTurn (I := fun x => WellFormed x.2) (μ := fun x => x.1.length)
    (Q := Yields fun r => WellFormed r.1) ?_ .hang WellFormed.nil (Nat.lt_succ_self _)
  rintro ⟨q, buffer⟩ hbuffer
  rcases decodeStep_yields q with hstep | ⟨⟨q', b⟩, hstep, hlen, hb⟩
  · simp only [Loop.TurnSpec, decodeTurn, hstep, error_bind]
    exact .inl rfl
  · simp only [Loop.TurnSpec, decodeTurn, hstep, ok_bind, pure_eq_ok]
    split_ifs with hstop
    · exact .ok (hbuffer.append hb)
    · exact ⟨hbuffer.append hb, Nat.lt_of_le_of_ne hlen hstop⟩

/-- Encoded strings are valid: whatever the bytes, `string_utf8_encode` writes characters of the
grammar, which in ASCII mode are ASCII. `string_utf8_decode` makes a well-formed string of the
bytes that it stays inside. -/
theorem stringUtf8_valid (s : Bytes) (ascii : Bool) (p : Bytes) :
    (∃ chars : List Bytes, stringUtf8Encode s ascii = .ok chars.flatten ∧
      (∀ w ∈ chars, CharText w) ∧ WellFormed chars.flatten ∧
      (ascii = true → ∀ x ∈ chars.flatten, x < 0x80)) ∧
    (stringUtf8Decode p = .error .outside ∨
      ∃ b e, stringUtf8Decode p = .ok (b, e) ∧ WellFormed b) := by
  constructor
  · obtain ⟨b, hb, chars, rfl, hchars⟩ := stringUtf8Encode_chars_any s ascii
    refine ⟨chars, hb, fun w hw => (hchars w hw).1, .chars fun w hw => (hchars w hw).1,
      fun hascii x hx => ?_⟩
    obtain ⟨w, hw, hxw⟩ := List.mem_flatten.mp hx
    exact (hchars w hw).2 hascii x hxw
  · rcases stringUtf8Decode_yields p with houtside | ⟨r, hr, hwell⟩
    · exact .inl houtside
    · exact .inr ⟨r.1, r.2, hr, hwell⟩

/-- A sequence that another byte breaks off, a control byte and a sequence that the end breaks
off. -/
example : stringUtf8Encode [0xe2, 0x82, 0xff, 0x01, 0xc3] false =
    .ok (utf8 0xfffd ++ str "\\u0001" ++ utf8 0xfffd) := by
  decide

end LibReactor
