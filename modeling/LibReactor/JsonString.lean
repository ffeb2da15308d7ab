import LibReactor.Json

/-!
# Strings in JSON texts

`string_utf8_decode` takes the characters of the grammar one after the other, with
runs of regular bytes at once, and a `\u` escape leads behind one of them or nowhere.
-/

namespace LibReactor

/-! ## Well-formed strings -/

theorem utf8_ascii {c : ℕ} (h : c < 0x80) : utf8 c = [byte c] := if_pos h

theorem byte_toNat (x : UInt8) : byte x.toNat = x := UInt8.ofNat_toNat

theorem utf8_multi {c : ℕ} (hc : Scalar c) (h : 0x80 ≤ c) :
    ∃ x u, utf8 c = x :: u ∧ 0x80 ≤ x ∧ ∀ y ∈ u, ∃ m < 64, y = byte (0x80 + m) := by
  have hmod : ∀ k, k % 64 < 64 := fun k => Nat.mod_lt k (by decide)
  have hlead : ∀ k, 0x80 ≤ k → k < 256 → 0x80 ≤ byte k := by
    intro k hk hk'
    rw [UInt8.le_iff_toNat_le, toNat_byte hk']
    exact hk
  unfold Scalar at hc
  unfold utf8
  rw [if_neg (by omega)]
  split_ifs with h2 h3
  · exact ⟨_, _, rfl, hlead _ (by omega) (by omega), by
      simpa using ⟨_, hmod c, rfl⟩⟩
  · refine ⟨_, _, rfl, hlead _ (by omega) (by omega), fun y hy => ?_⟩
    rcases List.mem_cons.mp hy with rfl | hy
    · exact ⟨_, hmod _, rfl⟩
    · exact ⟨_, hmod _, List.mem_singleton.mp hy⟩
  · refine ⟨_, _, rfl, hlead _ (by omega) (by omega), fun y hy => ?_⟩
    rcases List.mem_cons.mp hy with rfl | hy
    · exact ⟨_, hmod _, rfl⟩
    rcases List.mem_cons.mp hy with rfl | hy
    · exact ⟨_, hmod _, rfl⟩
    · exact ⟨_, hmod _, List.mem_singleton.mp hy⟩

theorem continuation_ge {m : ℕ} (h : m < 64) : 0x80 ≤ byte (0x80 + m) := by
  rw [UInt8.le_iff_toNat_le, toNat_byte (by omega)]
  exact Nat.le_add_right _ _

theorem WellFormed.nil : WellFormed [] := ⟨[], by simp, rfl⟩

theorem WellFormed.cons {c : ℕ} {s : Bytes} (hc : Scalar c) (hs : WellFormed s) :
    WellFormed (utf8 c ++ s) := by
  obtain ⟨cs, hcs, rfl⟩ := hs
  refine ⟨c :: cs, fun x hx => ?_, rfl⟩
  rcases List.mem_cons.mp hx with rfl | hx
  · exact hc
  · exact hcs x hx

theorem WellFormed.cases {s : Bytes} (h : WellFormed s) :
    s = [] ∨ ∃ c u, Scalar c ∧ WellFormed u ∧ s = utf8 c ++ u := by
  obtain ⟨cs, hcs, rfl⟩ := h
  cases cs with
  | nil => exact .inl rfl
  | cons c cs =>
    exact .inr ⟨c, cs.flatMap utf8, hcs c (by simp), ⟨cs, fun x hx => hcs x (by simp [hx]), rfl⟩,
      rfl⟩

theorem WellFormed.behind {a b : Bytes} {x : UInt8} (h : WellFormed (a ++ x :: b))
    (hx : ¬ 0x80 ≤ x) : WellFormed b := by
  obtain ⟨cs, hcs, heq⟩ := h
  induction cs generalizing a with
  | nil => simp at heq
  | cons c cs ih =>
    have hrest : WellFormed (cs.flatMap utf8) := ⟨cs, fun y hy => hcs y (by simp [hy]), rfl⟩
    have hcs' := fun y hy => hcs y (List.mem_cons_of_mem c hy)
    rw [List.flatMap_cons] at heq
    rcases List.append_eq_append_iff.mp heq with ⟨u, hu, hxb⟩ | ⟨u, rfl, hu⟩
    · cases u with
      | nil => exact ih hcs' (a := []) hxb
      | cons y u =>
        obtain ⟨rfl, rfl⟩ := List.cons.inj hxb
        have hmem : x ∈ utf8 c := by simp [hu]
        by_cases hc : c < 0x80
        · rw [utf8_ascii hc] at hu
          cases a with
          | nil =>
            obtain ⟨-, hnil⟩ := List.cons.inj hu
            rw [← hnil]
            exact hrest
          | cons z a => simp at hu
        · obtain ⟨z, w, hz, hlead, htail⟩ := utf8_multi (hcs c (by simp)) (by omega)
          rw [hz] at hmem
          rcases List.mem_cons.mp hmem with rfl | hmem
          · exact absurd hlead hx
          · obtain ⟨m, hm, rfl⟩ := htail x hmem
            exact absurd (continuation_ge hm) hx
    · exact ih hcs' hu.symm

theorem midSequence_continuation {m : ℕ} (h : m < 64) (u : Bytes) :
    midSequence stateAccept (byte (0x80 + m) :: u) = false := by
  have hreject : (stringUtf8DecodeCode stateAccept 0 (byte (0x80 + m))).1 = stateReject := by
    rw [decodeCode_fst, toNat_byte (by omega), class_tail h]
    split_ifs <;> rfl
  simp [midSequence, hreject]

/-- A well-formed string breaks off no sequence. -/
theorem WellFormed.whole {s : Bytes} (h : WellFormed s) : Whole s := by
  obtain ⟨cs, hcs, rfl⟩ := h
  induction cs with
  | nil =>
    intro u hu
    obtain rfl := List.suffix_nil.mp hu
    rfl
  | cons c cs ih =>
    have hc := hcs c (by simp)
    have ih := ih (fun x hx => hcs x (List.mem_cons_of_mem c hx))
    rintro u ⟨v, hv⟩
    rw [List.flatMap_cons] at hv
    rcases List.append_eq_append_iff.mp hv with ⟨w, hw, rfl⟩ | ⟨w, rfl, hu⟩
    · cases w with
      | nil => exact ih _ (List.suffix_refl _)
      | cons y w =>
        by_cases hascii : c < 0x80
        · rw [utf8_ascii hascii] at hw
          have hy : y = byte c := by
            cases v with
            | nil => exact (List.cons.inj hw).1.symm
            | cons z v => simp at hw
          have hlt : ¬ 0x80 ≤ y := by
            rw [hy, UInt8.le_iff_toNat_le, toNat_byte (by omega)]
            exact Nat.not_le.mpr hascii
          simp [midSequence, decodeCode_ascii hlt]
        · obtain ⟨z, t, hz, -, htail⟩ := utf8_multi hc (by omega)
          cases v with
          | nil =>
            rw [List.nil_append] at hw
            rw [← hw]
            by_contra hmid
            have hpast := stringUtf8Get_past (s := utf8 c ++ cs.flatMap utf8) (by simpa using hmid)
            rw [List.append_assoc,
              stringUtf8Get_utf8 hc (by omega) (utf8_length_le c)] at hpast
            have := (Prod.mk.inj (Except.ok.inj hpast)).2
            simp at this
          | cons a v =>
            rw [hz] at hw
            obtain ⟨-, rfl⟩ := List.cons.inj hw
            obtain ⟨m, hm, rfl⟩ := htail y (by simp)
            exact midSequence_continuation hm _
    · exact ih _ ⟨w, hu.symm⟩

/-! ## Characters -/

theorem unescapeByte_isSome {e : UInt8} :
    (∃ b, unescapeByte e = some b) ↔ e ∈ str "\"\\/bfnrt" := by
  have hmem : e ∈ str "\"\\/bfnrt" ↔ e = quote ∨ e = backslash ∨ e = ch '/' ∨ e = ch 'b' ∨
      e = ch 'f' ∨ e = ch 'n' ∨ e = ch 'r' ∨ e = ch 't' := by
    change e ∈ [quote, backslash, ch '/', ch 'b', ch 'f', ch 'n', ch 'r', ch 't'] ↔ _
    simp only [List.mem_cons, List.not_mem_nil, or_false]
  rw [hmem]
  unfold unescapeByte
  split_ifs <;> simp_all

theorem regular_of_unescaped {c : ℕ} (hc : c < 0x80) (h20 : 0x20 ≤ c) (hquote : c ≠ 0x22)
    (hbackslash : c ≠ 0x5c) : stringUtf8Regular (byte c) = true := by
  have htoNat := toNat_byte (n := c) (by omega)
  simp only [stringUtf8Regular, Bool.and_eq_true, Bool.not_eq_true', beq_eq_false_iff_ne,
    decide_eq_false_iff_not, UInt8.le_iff_toNat_le, UInt8.lt_iff_toNat_lt, ne_eq,
    ← UInt8.toNat_inj, htoNat, quote, backslash, UInt8.reduceToNat]
  omega

theorem unescaped_of_regular {x : UInt8} (h : stringUtf8Regular x = true) :
    x.toNat < 0x80 ∧ 0x20 ≤ x.toNat ∧ x.toNat ≠ 0x22 ∧ x.toNat ≠ 0x5c := by
  simp only [stringUtf8Regular, Bool.and_eq_true, Bool.not_eq_true', beq_eq_false_iff_ne,
    decide_eq_false_iff_not, UInt8.le_iff_toNat_le, UInt8.lt_iff_toNat_lt, ne_eq,
    ← UInt8.toNat_inj, quote, backslash, UInt8.reduceToNat] at h
  omega

/-- The turn at a regular byte: the run goes to the same place from the byte behind it. -/
theorem decodeTurn_regular {x : UInt8} {p : Bytes} (hx : stringUtf8Regular x = true)
    (hp : ∃ q, skipWhile stringUtf8Regular p = .ok q) (buffer : Bytes) :
    decodeTurn (x :: p, buffer) = .ok (.inr (p, buffer ++ [x])) ∨
      ∃ d, decodeTurn (x :: p, buffer) = .ok (.inr d) ∧
        decodeTurn (p, buffer ++ [x]) = .ok (.inr d) := by
  obtain ⟨q, hq⟩ := hp
  obtain ⟨w, a, t, rfl, hw, ha, rfl⟩ := skipWhile_eq_ok.mp hq
  have hfirst : decodeTurn (x :: (w ++ a :: t), buffer) =
      .ok (.inr (a :: t, buffer ++ (x :: w))) := by
    have hup : upTo (x :: (w ++ a :: t)) (a :: t) = x :: w := upTo_append (x :: w) (a :: t)
    have hlen : (a :: t).length ≠ (x :: (w ++ a :: t)).length := by
      simp only [List.length_cons, List.length_append]
      omega
    simp only [decodeTurn, decodeStep, peek_cons, ok_bind, if_pos hx, List.tail_cons, hq,
      pure_eq_ok, if_neg hlen, hup]
  cases w with
  | nil => exact .inl hfirst
  | cons y w =>
    refine .inr ⟨_, hfirst, ?_⟩
    have hy := hw y (by simp)
    have hskip : skipWhile stringUtf8Regular (w ++ a :: t) = .ok (a :: t) := by
      rw [skipWhile_append fun z hz => hw z (by simp [hz]), skipWhile_of_not ha]
    have hup : upTo (y :: (w ++ a :: t)) (a :: t) = y :: w := upTo_append (y :: w) (a :: t)
    have hlen : (a :: t).length ≠ (y :: (w ++ a :: t)).length := by
      simp only [List.length_cons, List.length_append]
      omega
    simp only [List.cons_append, decodeTurn, decodeStep, peek_cons, ok_bind, if_pos hy,
      List.tail_cons, hskip, pure_eq_ok, if_neg hlen, hup, List.append_assoc, List.nil_append]

theorem decodeTurn_multi {c : ℕ} (hc : Scalar c) (h : 0x80 ≤ c) (p buffer : Bytes) :
    decodeTurn (utf8 c ++ p, buffer) = .ok (.inr (p, buffer ++ utf8 c)) := by
  have hget := stringUtf8Get_utf8 hc h (utf8_length_le c) p
  have hlt : c < 0x110000 := by
    unfold Scalar at hc
    omega
  obtain ⟨x, u, hx, hlead, -⟩ := utf8_multi hc h
  have hregular : stringUtf8Regular x = false := by
    simp [stringUtf8Regular, hlead]
  have hne : p.length ≠ (utf8 c ++ p).length := by
    rw [hx]
    simp only [List.length_cons, List.length_append]
    omega
  have hstep : decodeStep (utf8 c ++ p) = .ok (p, utf8 c) := by
    rw [hx, List.cons_append] at hget ⊢
    simp only [decodeStep, peek_cons, ok_bind, hregular, Bool.false_eq_true, if_false,
      if_pos hlead, hget, pure_eq_ok, stringUtf8Put_eq hlt, hx]
  simp only [decodeTurn, hstep, ok_bind, if_neg hne, pure_eq_ok]

theorem decodeTurn_escape {e b : UInt8} (h : unescapeByte e = some b) (p buffer : Bytes) :
    decodeTurn (backslash :: e :: p, buffer) = .ok (.inr (p, buffer ++ [b])) := by
  have hu : e ≠ ch 'u' := by
    rintro rfl
    have hnone : unescapeByte (ch 'u') = none := by decide
    rw [hnone] at h
    cases h
  have hlen : p.length ≠ (backslash :: e :: p).length := by
    simp only [List.length_cons]
    omega
  have hregular : stringUtf8Regular backslash = false := by decide
  have hlead : ¬ 0x80 ≤ backslash := by decide
  simp only [decodeTurn, decodeStep, peek_cons, ok_bind, hregular, Bool.false_eq_true, if_false,
    if_neg hlead, if_true, List.tail_cons, if_neg hu, h, List.drop_succ_cons, List.drop_zero,
    pure_eq_ok, if_neg hlen]

theorem decodeTurn_noEscape {e : UInt8} (hu : e ≠ ch 'u') (h : unescapeByte e = none)
    (p buffer : Bytes) :
    decodeTurn (backslash :: e :: p, buffer) = .ok (.inl (buffer, backslash :: e :: p)) := by
  have hregular : stringUtf8Regular backslash = false := by decide
  have hlead : ¬ 0x80 ≤ backslash := by decide
  simp only [decodeTurn, decodeStep, peek_cons, ok_bind, hregular, Bool.false_eq_true, if_false,
    if_neg hlead, if_true, List.tail_cons, if_neg hu, h, pure_eq_ok, List.append_nil]

/-- The turn at a `\u` escape. -/
theorem decodeTurn_encoded {p q : Bytes} (buffer : Bytes) {code : ℕ}
    (h : stringUtf8GetEncoded (backslash :: ch 'u' :: p) = .ok (code, q)) :
    decodeTurn (backslash :: ch 'u' :: p, buffer) =
      .ok (if q.length = (backslash :: ch 'u' :: p).length then
        .inl (buffer ++ stringUtf8Put code, q) else .inr (q, buffer ++ stringUtf8Put code)) := by
  have hregular : stringUtf8Regular backslash = false := by decide
  have hlead : ¬ 0x80 ≤ backslash := by decide
  simp only [decodeTurn, decodeStep, peek_cons, ok_bind, hregular, Bool.false_eq_true, if_false,
    if_neg hlead, if_true, List.tail_cons, h, pure_eq_ok]

/-- The turn at a byte that ends the string. -/
theorem decodeTurn_end {x : UInt8} (hregular : stringUtf8Regular x = false) (hlead : ¬ 0x80 ≤ x)
    (hx : x ≠ backslash) (p buffer : Bytes) :
    decodeTurn (x :: p, buffer) = .ok (.inl (buffer, x :: p)) := by
  simp only [decodeTurn, decodeStep, peek_cons, ok_bind, hregular, Bool.false_eq_true, if_false,
    if_neg hlead, if_neg hx, pure_eq_ok, if_true, List.append_nil]

/-! ## Escapes -/

section Escapes

variable {a b c d : UInt8} (ha : isxdigit a = true) (hb : isxdigit b = true)
  (hc : isxdigit c = true) (hd : isxdigit d = true)

include ha hb hc hd

theorem stringUtf8GetEncoded_unicode (h : hexCode a b c d < 0xd800 ∨ 0xe000 ≤ hexCode a b c d)
    (q : Bytes) : stringUtf8GetEncoded (backslash :: ch 'u' :: a :: b :: c :: d :: q) =
      .ok (hexCode a b c d, q) := by
  have hlen : q.length < (backslash :: ch 'u' :: a :: b :: c :: d :: q).length := by
    simp only [List.length_cons]
    omega
  simp only [stringUtf8GetEncoded, stringUtf8GetEncodedBasic_digits ha hb hc hd, ok_bind,
    if_pos hlen, pure_eq_ok]
  rw [if_neg (by omega), if_neg (by omega)]

theorem stringUtf8GetEncoded_high (hlow : 0xd800 ≤ hexCode a b c d)
    (hhigh : hexCode a b c d < 0xdc00) {p q : Bytes} {w2 : ℕ}
    (h : stringUtf8GetEncodedBasic p = .ok (w2, q)) :
    stringUtf8GetEncoded (backslash :: ch 'u' :: a :: b :: c :: d :: p) =
      .ok (if 0xdc00 ≤ w2 ∧ w2 < 0xe000 then
        (0x10000 ||| ((hexCode a b c d &&& 0x3ff) <<< 10) ||| (w2 &&& 0x3ff), q)
      else (0, backslash :: ch 'u' :: a :: b :: c :: d :: p)) := by
  have hlen : p.length < (backslash :: ch 'u' :: a :: b :: c :: d :: p).length := by
    simp only [List.length_cons]
    omega
  simp only [stringUtf8GetEncoded, stringUtf8GetEncodedBasic_digits ha hb hc hd, ok_bind,
    if_pos hlen, pure_eq_ok, h]
  rw [if_neg (by omega), if_pos ⟨hlow, hhigh⟩]
  split_ifs <;> rfl

theorem stringUtf8GetEncoded_surrogates {a' b' c' d' : UInt8} (ha' : isxdigit a' = true)
    (hb' : isxdigit b' = true) (hc' : isxdigit c' = true) (hd' : isxdigit d' = true)
    (hlow : 0xd800 ≤ hexCode a b c d) (hhigh : hexCode a b c d < 0xdc00)
    (hlow' : 0xdc00 ≤ hexCode a' b' c' d') (hhigh' : hexCode a' b' c' d' < 0xe000) (q : Bytes) :
    stringUtf8GetEncoded
        (backslash :: ch 'u' :: ([a, b, c, d, backslash, ch 'u', a', b', c', d'] ++ q)) =
      .ok (0x10000 ||| ((hexCode a b c d &&& 0x3ff) <<< 10) ||| (hexCode a' b' c' d' &&& 0x3ff),
        q) := by
  have hget := stringUtf8GetEncoded_high ha hb hc hd hlow hhigh
    (stringUtf8GetEncodedBasic_digits ha' hb' hc' hd' q)
  rw [if_pos ⟨hlow', hhigh'⟩] at hget
  exact hget

theorem stringUtf8GetEncoded_low (hlow : 0xdc00 ≤ hexCode a b c d)
    (hhigh : hexCode a b c d < 0xe000) (p : Bytes) :
    stringUtf8GetEncoded (backslash :: ch 'u' :: a :: b :: c :: d :: p) =
      .ok (0, backslash :: ch 'u' :: a :: b :: c :: d :: p) := by
  have hlen : p.length < (backslash :: ch 'u' :: a :: b :: c :: d :: p).length := by
    simp only [List.length_cons]
    omega
  simp only [stringUtf8GetEncoded, stringUtf8GetEncodedBasic_digits ha hb hc hd, ok_bind,
    if_pos hlen, pure_eq_ok, if_pos (And.intro hlow hhigh)]

end Escapes

/-! ## The decoder takes the characters of the grammar -/

def CharReads (w b : Bytes) : Prop := ∀ fuel rest buffer r, quote ∈ rest →
  Loop.run decodeTurn fuel (rest, buffer ++ b) = some r →
  Loop.run decodeTurn (fuel + 1) (w ++ rest, buffer) = some r

theorem charReads_regular {x : UInt8} (hx : stringUtf8Regular x = true) : CharReads [x] [x] := by
  intro fuel rest buffer r hmem hrun
  rcases decodeTurn_regular hx
    (skipWhile_ok_of_mem hmem (by decide : stringUtf8Regular quote = false)) buffer
    with hturn | ⟨e, hturn, hturn'⟩
  · exact (Loop.run_succ_next _ hturn fuel).trans hrun
  · cases fuel with
    | zero => simp at hrun
    | succ fuel =>
      rw [Loop.run_succ_next _ hturn'] at hrun
      refine Loop.run_mono decodeTurn (Nat.le_succ (fuel + 1)) ?_
      exact (Loop.run_succ_next _ hturn fuel).trans hrun

theorem charReads_multi {c : ℕ} (hc : Scalar c) (h : 0x80 ≤ c) : CharReads (utf8 c) (utf8 c) :=
  fun fuel rest buffer _ _ hrun =>
    (Loop.run_succ_next _ (decodeTurn_multi hc h rest buffer) fuel).trans hrun

theorem charReads_escape {e b : UInt8} (h : unescapeByte e = some b) :
    CharReads [backslash, e] [b] :=
  fun fuel rest buffer _ _ hrun =>
    (Loop.run_succ_next _ (decodeTurn_escape h rest buffer) fuel).trans hrun

/-- A text of `\u` escapes is read as the character it stands for. -/
theorem charReads_encoded {w : Bytes} {code : ℕ}
    (h : ∀ rest, stringUtf8GetEncoded (backslash :: ch 'u' :: (w ++ rest)) = .ok (code, rest)) :
    CharReads (backslash :: ch 'u' :: w) (stringUtf8Put code) := by
  intro fuel rest buffer r _ hrun
  have hturn := decodeTurn_encoded buffer (h rest)
  rw [if_neg (by simp only [List.length_cons, List.length_append]; omega)] at hturn
  exact (Loop.run_succ_next _ hturn fuel).trans hrun

theorem CharText.reads {w : Bytes} (h : CharText w) : ∃ b, CharReads w b := by
  cases h with
  | @unescaped c hc h20 hquote hbackslash =>
    by_cases hascii : c < 0x80
    · rw [utf8_ascii hascii]
      exact ⟨_, charReads_regular (regular_of_unescaped hascii h20 hquote hbackslash)⟩
    · exact ⟨_, charReads_multi hc (by omega)⟩
  | escape he =>
    obtain ⟨b, hb⟩ := unescapeByte_isSome.mpr he
    exact ⟨_, charReads_escape hb⟩
  | unicode ha hb hc hd hcode =>
    exact ⟨_, charReads_encoded (stringUtf8GetEncoded_unicode ha hb hc hd hcode)⟩
  | surrogates ha hb hc hd ha' hb' hc' hd' hlow hhigh hlow' hhigh' =>
    exact ⟨_, charReads_encoded
      (stringUtf8GetEncoded_surrogates ha hb hc hd ha' hb' hc' hd' hlow hhigh hlow' hhigh')⟩

theorem utf8_ne_nil (c : ℕ) : utf8 c ≠ [] := by
  unfold utf8
  split_ifs <;> simp

theorem CharText.ne_nil {w : Bytes} (h : CharText w) : w ≠ [] := by
  cases h with
  | unescaped => exact utf8_ne_nil _
  | escape => simp
  | unicode => simp
  | surrogates => simp

theorem quote_ends (p buffer : Bytes) :
    decodeTurn (quote :: p, buffer) = .ok (.inl (buffer, quote :: p)) :=
  decodeTurn_end (by decide) (by decide) (by decide) p buffer

/-- Texts that the decoder reads are read one after the other up to a quotation mark. -/
theorem stringUtf8Decode_reads {texts : List (Bytes × Bytes)}
    (h : ∀ x ∈ texts, x.1 ≠ [] ∧ CharReads x.1 x.2) (t : Bytes) :
    stringUtf8Decode (texts.flatMap Prod.fst ++ quote :: t) =
      .ok (texts.flatMap Prod.snd, quote :: t) := by
  have hrun : ∀ buffer, Loop.run decodeTurn (texts.length + 1)
      (texts.flatMap Prod.fst ++ quote :: t, buffer) =
        some (.ok (buffer ++ texts.flatMap Prod.snd, quote :: t)) := by
    induction texts with
    | nil =>
      intro buffer
      have hdone := Loop.run_succ_done _ (quote_ends t buffer) 0
      simpa using hdone
    | cons x texts ih =>
      intro buffer
      have ih := ih (fun y hy => h y (List.mem_cons_of_mem x hy)) (buffer ++ x.2)
      rw [List.flatMap_cons, List.append_assoc, List.length_cons, List.flatMap_cons,
        ← List.append_assoc buffer]
      exact (h x (by simp)).2 _ _ _ _ (by simp) ih
  have hlength : texts.length ≤ (texts.flatMap Prod.fst).length := by
    clear hrun
    induction texts with
    | nil => exact Nat.le_refl 0
    | cons x texts ih =>
      have hx := List.length_pos_iff.mpr (h x (by simp)).1
      have := ih fun y hy => h y (List.mem_cons_of_mem x hy)
      simp only [List.length_cons, List.flatMap_cons, List.length_append]
      omega
  have hfuel : texts.length + 1 ≤ (texts.flatMap Prod.fst ++ quote :: t).length + 1 := by
    rw [List.length_append]
    omega
  rw [stringUtf8Decode, Loop.within, Loop.run_mono decodeTurn hfuel (hrun [])]
  rfl

/-- The characters before a quotation mark are decoded in one way whatever comes behind it. -/
theorem stringUtf8Decode_chars {chars : List Bytes} (h : ∀ w ∈ chars, CharText w) :
    ∃ b, ∀ t, stringUtf8Decode (chars.flatten ++ quote :: t) = .ok (b, quote :: t) := by
  obtain ⟨texts, htexts, rfl⟩ : ∃ texts : List (Bytes × Bytes),
      (∀ x ∈ texts, x.1 ≠ [] ∧ CharReads x.1 x.2) ∧ chars = texts.map Prod.fst := by
    induction chars with
    | nil => exact ⟨[], by simp, rfl⟩
    | cons w chars ih =>
      obtain ⟨texts, htexts, rfl⟩ := ih fun x hx => h x (List.mem_cons_of_mem w hx)
      obtain ⟨b, hb⟩ := (h w (by simp)).reads
      refine ⟨(w, b) :: texts, fun x hx => ?_, rfl⟩
      rcases List.mem_cons.mp hx with rfl | hx
      · exact ⟨(h w (by simp)).ne_nil, hb⟩
      · exact htexts x hx
  refine ⟨texts.flatMap Prod.snd, fun t => ?_⟩
  rw [← List.flatMap_def]
  exact stringUtf8Decode_reads htexts t

theorem StringText.decode {w b : Bytes} (h : StringText w b) (t : Bytes) :
    stringUtf8Decode ((w ++ t).tail) = .ok (b, quote :: t) ∧ ∃ u, w = quote :: u := by
  obtain ⟨chars, hchars, rfl, hdecode⟩ := h
  obtain ⟨b', hb'⟩ := stringUtf8Decode_chars hchars
  have hb := hdecode.symm.trans (hb' [])
  obtain rfl := (Prod.mk.inj (Except.ok.inj hb)).1
  refine ⟨?_, _, rfl⟩
  simpa using hb' t

/-! ## The decoder takes nothing else -/

theorem isxdigit_ascii {c : UInt8} (h : isxdigit c = true) : ¬ 0x80 ≤ c := by
  intro hc
  simp only [isxdigit, isdigit, Bool.or_eq_true, Bool.and_eq_true, decide_eq_true_eq,
    UInt8.le_iff_toNat_le, UInt8.reduceToNat] at h hc
  omega

def Rest (p q : Bytes) : Prop :=
  ∃ chars : List Bytes, (∀ w ∈ chars, CharText w) ∧ p = chars.flatten ++ q

theorem StringText.of_rest {p b t : Bytes} (h : Rest p (quote :: t))
    (hdecode : stringUtf8Decode p = .ok (b, quote :: t)) :
    ∃ w, quote :: p = w ++ t ∧ StringText w b := by
  obtain ⟨chars, hchars, rfl⟩ := h
  obtain ⟨b', hb'⟩ := stringUtf8Decode_chars hchars
  have hb := hdecode.symm.trans (hb' t)
  obtain rfl := (Prod.mk.inj (Except.ok.inj hb)).1
  exact ⟨quote :: (chars.flatten ++ [quote]), by simp, chars, hchars, rfl, hb' []⟩

/-- The digits of an escape in a terminated string, and what is behind them. -/
theorem stringUtf8GetEncodedBasic_sound {s : Bytes} (hs : WellFormed s) (hnul : nul ∉ s) :
    stringUtf8GetEncodedBasic (s ++ [nul]) = .ok (0, s ++ [nul]) ∨
    ∃ a b c d u, s = backslash :: ch 'u' :: a :: b :: c :: d :: u ∧ isxdigit a = true ∧
      isxdigit b = true ∧ isxdigit c = true ∧ isxdigit d = true ∧ WellFormed u ∧ nul ∉ u := by
  rcases stringUtf8GetEncodedBasic_cases ⟨s, rfl, hnul⟩ with
    heq | ⟨a, b, c, d, q, hp, ha, hb, hc, hd, hin⟩
  · exact .inl heq
  · obtain ⟨u, rfl, -⟩ := hin.eq_append
    have hs' : s = backslash :: ch 'u' :: a :: b :: c :: d :: u := by
      have hcancel : s ++ [nul] = backslash :: ch 'u' :: a :: b :: c :: d :: u ++ [nul] := by
        simpa using hp
      exact List.append_cancel_right hcancel
    refine .inr ⟨a, b, c, d, u, hs', ha, hb, hc, hd, ?_, fun hmem => hnul (by simp [hs', hmem])⟩
    rw [hs'] at hs
    exact WellFormed.behind (a := [backslash, ch 'u', a, b, c]) hs (isxdigit_ascii hd)

/-- Where a `\u` escape leads: behind a character of the grammar, or nowhere. -/
theorem stringUtf8GetEncoded_sound {s : Bytes} (hs : WellFormed s) (hnul : nul ∉ s) {code : ℕ}
    {q : Bytes} (h : stringUtf8GetEncoded (s ++ [nul]) = .ok (code, q)) :
    (code = 0 ∧ q = s ++ [nul]) ∨
      ∃ w u, CharText w ∧ s = w ++ u ∧ q = u ++ [nul] ∧ WellFormed u := by
  have hnowhere : ∀ {x : ℕ × Bytes}, Except.ok (0, s ++ [nul]) = (.ok x : Except Fault _) →
      x = (code, q) → code = 0 ∧ q = s ++ [nul] := by
    rintro x hx rfl
    exact ⟨(Prod.mk.inj (Except.ok.inj hx)).1.symm, (Prod.mk.inj (Except.ok.inj hx)).2.symm⟩
  rcases stringUtf8GetEncodedBasic_sound hs hnul with
    heq | ⟨a, b, c, d, u, rfl, ha, hb, hc, hd, hu, hnul'⟩
  · simp only [stringUtf8GetEncoded, heq, ok_bind, lt_irrefl, if_false, pure_eq_ok] at h
    exact .inl (hnowhere h rfl)
  · simp only [List.cons_append] at h
    by_cases hlow : hexCode a b c d < 0xd800 ∨ 0xe000 ≤ hexCode a b c d
    · rw [stringUtf8GetEncoded_unicode ha hb hc hd hlow] at h
      exact .inr ⟨_, u, .unicode ha hb hc hd hlow, rfl, (Prod.mk.inj (Except.ok.inj h)).2.symm, hu⟩
    rw [not_or, Nat.not_lt, Nat.not_le] at hlow
    by_cases hhigh : hexCode a b c d < 0xdc00
    · rcases stringUtf8GetEncodedBasic_sound hu hnul' with
        heq | ⟨a', b', c', d', v, rfl, ha', hb', hc', hd', hv, -⟩
      · rw [stringUtf8GetEncoded_high ha hb hc hd hlow.1 hhigh heq, if_neg (by omega)] at h
        exact .inl (hnowhere h rfl)
      · simp only [List.cons_append] at h
        rw [stringUtf8GetEncoded_high ha hb hc hd hlow.1 hhigh
          (stringUtf8GetEncodedBasic_digits ha' hb' hc' hd' (v ++ [nul]))] at h
        split_ifs at h with hpair
        · exact .inr ⟨_, v, .surrogates ha hb hc hd ha' hb' hc' hd' hlow.1 hhigh hpair.1 hpair.2,
            rfl, (Prod.mk.inj (Except.ok.inj h)).2.symm, hv⟩
        · exact .inl (hnowhere h rfl)
    · rw [stringUtf8GetEncoded_low ha hb hc hd (by omega) hlow.2] at h
      exact .inl (hnowhere h rfl)

end LibReactor
