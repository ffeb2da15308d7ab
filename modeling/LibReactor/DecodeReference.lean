import LibReactor.StringValid

/-!
# The reference decoding of a string

A string is decoded by copying its characters and replacing its escapes, up to the first
quotation mark, control byte or backslash that begins no escape. `string_utf8_decode` stops
there, but it appends a zero byte for a `\u` that begins no escape, and it combines two
surrogates with a bitwise or.
-/

namespace LibReactor

def escapeValue (e : UInt8) : UInt8 :=
  if e = ch 'b' then 8
  else if e = ch 'f' then 12
  else if e = ch 'n' then 10
  else if e = ch 'r' then 13
  else if e = ch 't' then 9
  else e

/-- The bytes a character of the grammar stands for, when `pair` is the code of two surrogates. -/
def charValue (pair : ℕ → ℕ → ℕ) (w : Bytes) : Bytes :=
  if w.head? = some backslash then
    match w.tail with
    | [e] => [escapeValue e]
    | [_, a, b, c, d] => utf8 (hexCode a b c d)
    | [_, a, b, c, d, _, _, a', b', c', d'] => utf8 (pair (hexCode a b c d) (hexCode a' b' c' d'))
    | _ => []
  else w

/-- The first quotation mark, control byte, terminator or backslash that begins no escape. -/
def StringEnd (e : Bytes) : Prop :=
  ∃ x t, e = x :: t ∧ (x = quote ∨ x < 0x20 ∨ (x = backslash ∧ ∀ w, CharText w → ¬ w <+: e))

def ReferenceDecoding (p b e : Bytes) : Prop :=
  ∃ chars : List Bytes, (∀ w ∈ chars, CharText w) ∧ p = chars.flatten ++ e ∧ StringEnd e ∧
    b = chars.flatMap (charValue surrogatePair)

/-- A surrogate pair of a character in a plane of an even number. -/
def EvenPair (w : Bytes) : Prop :=
  ∃ a b c d a' b' c' d', w = [backslash, ch 'u', a, b, c, d, backslash, ch 'u', a', b', c', d'] ∧
    surrogatePair (hexCode a b c d) (hexCode a' b' c' d') / 0x10000 % 2 = 0

/-! ## Characters of the grammar at the front of a string -/

theorem charText_utf8 {c : ℕ} (hc : Scalar c) (h : 0x80 ≤ c) : CharText (utf8 c) :=
  .unescaped hc (by omega) (by omega) (by omega)

theorem CharText.head {w : Bytes} (h : CharText w) :
    ∃ x u, w = x :: u ∧ x ≠ quote ∧ ¬ x < 0x20 ∧ (stringUtf8Regular x = true → u = []) := by
  have hescape : ∀ u : Bytes, ∃ x v, backslash :: u = x :: v ∧ x ≠ quote ∧ ¬ x < 0x20 ∧
      (stringUtf8Regular x = true → v = []) := fun u =>
    ⟨backslash, u, rfl, by decide, by decide, fun hregular => absurd hregular (by decide)⟩
  cases h with
  | @unescaped c hc h20 hquote hbackslash =>
    by_cases hascii : c < 0x80
    · have hregular := unescaped_of_regular (regular_of_unescaped hascii h20 hquote hbackslash)
      refine ⟨byte c, [], utf8_ascii hascii, ?_, ?_, fun _ => rfl⟩
      · rintro heq
        exact hregular.2.2.1 (by rw [heq]; rfl)
      · rw [UInt8.lt_iff_toNat_lt]
        exact Nat.not_lt.mpr hregular.2.1
    · obtain ⟨x, u, hx, hlead, -⟩ := utf8_multi hc (by omega)
      rw [UInt8.le_iff_toNat_le] at hlead
      refine ⟨x, u, hx, ?_, ?_, fun hregular => ?_⟩
      · rintro rfl
        exact absurd hlead (by decide)
      · rw [UInt8.lt_iff_toNat_lt]
        exact Nat.not_lt.mpr (Nat.le_trans (by decide) hlead)
      · have hlt := (unescaped_of_regular hregular).1
        exact absurd hlead (Nat.not_le.mpr hlt)
  | escape => exact hescape _
  | unicode => exact hescape _
  | surrogates => exact hescape _

theorem CharText.nul_not_mem {w : Bytes} (h : CharText w) : nul ∉ w := by
  intro hmem
  have hu : nul ≠ ch 'u' := by decide
  have hbackslash : nul ≠ backslash := by decide
  have hdigit : ∀ {x}, isxdigit x = true → nul ≠ x := fun hx => (isxdigit_ne_nul hx).symm
  cases h with
  | @unescaped c hc h20 hquote _ =>
    by_cases hascii : c < 0x80
    · rw [utf8_ascii hascii, List.mem_singleton] at hmem
      have htoNat := toNat_byte (n := c) (by omega)
      rw [← hmem] at htoNat
      have hzero : nul.toNat = 0 := rfl
      omega
    · obtain ⟨x, u, hx, hlead, htail⟩ := utf8_multi hc (by omega)
      rw [hx] at hmem
      rcases List.mem_cons.mp hmem with rfl | hmem
      · exact absurd hlead (by decide)
      · obtain ⟨m, hm, heq⟩ := htail nul hmem
        have hge := continuation_ge hm
        rw [← heq] at hge
        exact absurd hge (by decide)
  | @escape e he =>
    have hall : nul ∉ str "\"\\/bfnrt" := by decide
    simp only [List.mem_cons, List.not_mem_nil, or_false] at hmem
    rcases hmem with hmem | rfl
    · exact hbackslash hmem
    · exact hall he
  | unicode ha hb hc hd =>
    simp only [List.mem_cons, List.not_mem_nil, or_false, hbackslash, hu, hdigit ha, hdigit hb,
      hdigit hc, hdigit hd] at hmem
  | surrogates ha hb hc hd ha' hb' hc' hd' =>
    simp only [List.mem_cons, List.not_mem_nil, or_false, hbackslash, hu, hdigit ha, hdigit hb,
      hdigit hc, hdigit hd, hdigit ha', hdigit hb', hdigit hc', hdigit hd'] at hmem

/-- How `string_utf8_get_encoded` combines two surrogates. -/
def orPair (w1 w2 : ℕ) : ℕ := 0x10000 ||| ((w1 &&& 0x3ff) <<< 10) ||| (w2 &&& 0x3ff)

theorem orPair_eq {high low : ℕ} (h : 0xd800 ≤ high) (h' : high < 0xdc00) (hl : 0xdc00 ≤ low)
    (hl' : low < 0xe000) : orPair high low = recovered (surrogatePair high low) :=
  or_surrogates h h' hl hl'

theorem charValue_copied (pair : ℕ → ℕ → ℕ) {x : UInt8} (h : x ≠ backslash) (u : Bytes) :
    charValue pair (x :: u) = x :: u := by
  rw [charValue, if_neg (by simpa using h)]

theorem charValue_utf8 (pair : ℕ → ℕ → ℕ) {c : ℕ} (hc : Scalar c) (h : 0x80 ≤ c) :
    charValue pair (utf8 c) = utf8 c := by
  obtain ⟨x, u, hx, hlead, -⟩ := utf8_multi hc h
  rw [hx]
  refine charValue_copied pair ?_ u
  rintro rfl
  exact absurd hlead (by decide)

theorem charValue_escape (pair : ℕ → ℕ → ℕ) (e : UInt8) :
    charValue pair [backslash, e] = [escapeValue e] := by
  simp only [charValue, List.head?_cons, if_true, List.tail_cons]

theorem charValue_unicode (pair : ℕ → ℕ → ℕ) (u a b c d : UInt8) :
    charValue pair [backslash, u, a, b, c, d] = utf8 (hexCode a b c d) := by
  simp only [charValue, List.head?_cons, if_true, List.tail_cons]

theorem charValue_surrogates (pair : ℕ → ℕ → ℕ) (u a b c d v u' a' b' c' d' : UInt8) :
    charValue pair [backslash, u, a, b, c, d, v, u', a', b', c', d'] =
      utf8 (pair (hexCode a b c d) (hexCode a' b' c' d')) := by
  simp only [charValue, List.head?_cons, if_true, List.tail_cons]

theorem unescapeByte_value {e : UInt8} (h : e ∈ str "\"\\/bfnrt") :
    unescapeByte e = some (escapeValue e) := by
  have hall : ∀ e ∈ str "\"\\/bfnrt", unescapeByte e = some (escapeValue e) := by decide +kernel
  exact hall e h

theorem CharText.turn {w : Bytes} (h : CharText w)
    (hw : ∀ x u, w = x :: u → stringUtf8Regular x = false) (rest buffer : Bytes) :
    decodeTurn (w ++ rest, buffer) = .ok (.inr (rest, buffer ++ charValue orPair w)) := by
  have hencoded : ∀ {v : Bytes} {code : ℕ}, Scalar code →
      stringUtf8GetEncoded (backslash :: ch 'u' :: (v ++ rest)) = .ok (code, rest) →
      decodeTurn (backslash :: ch 'u' :: v ++ rest, buffer) =
        .ok (.inr (rest, buffer ++ utf8 code)) := by
    intro v code hcode hget
    have hturn := decodeTurn_encoded buffer hget
    rwa [if_neg (by simp only [List.length_cons, List.length_append]; omega),
      stringUtf8Put_scalar hcode] at hturn
  cases h with
  | @unescaped c hc h20 hquote hbackslash =>
    by_cases hascii : c < 0x80
    · have hregular := hw _ _ (utf8_ascii hascii)
      rw [regular_of_unescaped hascii h20 hquote hbackslash] at hregular
      cases hregular
    · rw [charValue_utf8 orPair hc (by omega)]
      exact decodeTurn_multi hc (by omega) rest buffer
  | @escape e he => exact decodeTurn_escape (unescapeByte_value he) rest buffer
  | unicode ha hb hc hd hcode =>
    have hlt := hexCode_lt ha hb hc hd
    refine hencoded ?_ (stringUtf8GetEncoded_unicode ha hb hc hd hcode rest)
    unfold Scalar
    omega
  | surrogates ha hb hc hd ha' hb' hc' hd' hlow hhigh hlow' hhigh' =>
    refine hencoded ?_
      (stringUtf8GetEncoded_surrogates ha hb hc hd ha' hb' hc' hd' hlow hhigh hlow' hhigh' rest)
    rw [orPair_eq hlow hhigh hlow' hhigh']
    exact scalar_recovered (scalar_surrogatePair hlow hhigh hlow' hhigh')

/-- At most one character of the grammar is at the front of a string. -/
theorem CharText.unique {w w' r r' : Bytes} (h : CharText w) (h' : CharText w')
    (heq : w ++ r = w' ++ r') : w = w' := by
  obtain ⟨x, u, rfl, -, -, hu⟩ := h.head
  obtain ⟨x', u', rfl, -, -, hu'⟩ := h'.head
  obtain ⟨rfl, htail⟩ := List.cons.inj heq
  cases hregular : stringUtf8Regular x with
  | true => rw [hu hregular, hu' hregular]
  | false =>
    have hfalse : ∀ {v : Bytes}, ∀ y t, x :: v = y :: t → stringUtf8Regular y = false :=
      fun y t hyt => (List.cons.inj hyt).1 ▸ hregular
    have hturn := h.turn hfalse r []
    rw [heq, h'.turn hfalse r' []] at hturn
    have hr := (Prod.mk.inj (Sum.inr.inj (Except.ok.inj hturn))).1
    rw [hr] at heq
    exact List.append_cancel_right heq

theorem StringEnd.no_char {e w : Bytes} (h : StringEnd e) (hw : CharText w) : ¬ w <+: e := by
  rintro ⟨r, rfl⟩
  obtain ⟨x, u, rfl, hquote, hcontrol, -⟩ := hw.head
  obtain ⟨y, t, heq, hstop⟩ := h
  obtain ⟨rfl, -⟩ := List.cons.inj heq
  rcases hstop with hstop | hstop | ⟨-, hstop⟩
  · exact hquote hstop
  · exact hcontrol hstop
  · exact hstop _ hw (List.prefix_append _ _)

/-- The characters before the first stop are unique. -/
theorem stringEnd_unique {chars chars' : List Bytes} {e e' : Bytes} (h : ∀ w ∈ chars, CharText w)
    (h' : ∀ w ∈ chars', CharText w) (he : StringEnd e) (he' : StringEnd e')
    (heq : chars.flatten ++ e = chars'.flatten ++ e') : chars = chars' ∧ e = e' := by
  induction chars generalizing chars' with
  | nil =>
    cases chars' with
    | nil => exact ⟨rfl, heq⟩
    | cons w' chars' =>
      refine absurd ?_ (he.no_char (h' w' (by simp)))
      rw [List.flatten_nil, List.nil_append] at heq
      rw [heq, List.flatten_cons, List.append_assoc]
      exact List.prefix_append _ _
  | cons w chars ih =>
    cases chars' with
    | nil =>
      refine absurd ?_ (he'.no_char (h w (by simp)))
      rw [List.flatten_nil, List.nil_append] at heq
      rw [← heq, List.flatten_cons, List.append_assoc]
      exact List.prefix_append _ _
    | cons w' chars' =>
      rw [List.flatten_cons, List.flatten_cons, List.append_assoc, List.append_assoc] at heq
      obtain rfl := (h w (by simp)).unique (h' w' (by simp)) heq
      obtain ⟨rfl, he⟩ := ih (fun x hx => h x (by simp [hx])) (fun x hx => h' x (by simp [hx]))
        (List.append_cancel_left heq)
      exact ⟨rfl, he⟩

/-! ## Where the decoder stops -/

/-- The byte the decoder appends at a `\u` where it stops. -/
def stopValue (e : Bytes) : Bytes := if [backslash, ch 'u'].isPrefixOf e then [nul] else []

theorem multi_of_lead {c : ℕ} {x : UInt8} {t u : Bytes} (h : x :: t = utf8 c ++ u)
    (hx : 0x80 ≤ x) : 0x80 ≤ c := by
  by_contra hlt
  rw [utf8_ascii (by omega)] at h
  rw [(List.cons.inj h).1, UInt8.le_iff_toNat_le, toNat_byte (by omega)] at hx
  exact hlt hx

/-- Behind a character of the grammar a well-formed string is well formed. -/
theorem WellFormed.behind_char {w u : Bytes} (h : WellFormed (w ++ u)) (hw : CharText w) :
    WellFormed u := by
  rcases hw.ascii with ⟨c, hc, hmulti, rfl⟩ | hascii
  · obtain ⟨x, v, hx, hlead, -⟩ := utf8_multi hc hmulti
    obtain ⟨c', u', hc', hu', heq⟩ := h.cases.resolve_left (by simp [hx])
    have hmulti' : 0x80 ≤ c' := by
      rw [hx, List.cons_append] at heq
      exact multi_of_lead heq hlead
    have hget := stringUtf8Get_utf8 hc hmulti (utf8_length_le c) u
    rw [heq, stringUtf8Get_utf8 hc' hmulti' (utf8_length_le c') u'] at hget
    rwa [← (Prod.mk.inj (Except.ok.inj hget)).2]
  · obtain ⟨v, y, rfl⟩ := (List.eq_nil_or_concat' w).resolve_left hw.ne_nil
    rw [List.append_assoc] at h
    exact h.behind (UInt8.not_le.mpr (hascii y (by simp)))

/-- Where no character of the grammar is at the front the decoder stops. -/
theorem decodeTurn_stops {s : Bytes} (hs : WellFormed s) (hnul : nul ∉ s)
    (h : ∀ w, CharText w → ¬ w <+: s ++ [nul]) (buffer : Bytes) :
    decodeTurn (s ++ [nul], buffer) =
        .ok (.inl (buffer ++ stopValue (s ++ [nul]), s ++ [nul])) ∧ StringEnd (s ++ [nul]) := by
  have hno : ∀ {w u : Bytes}, CharText w → s ≠ w ++ u := by
    rintro w u hw rfl
    refine h w hw ?_
    rw [List.append_assoc]
    exact List.prefix_append _ _
  cases s with
  | nil =>
    have hstop : stopValue ([] ++ [nul]) = [] := by decide
    rw [hstop, List.append_nil]
    exact ⟨decodeTurn_end (by decide) (by decide) (by decide) [] buffer, nul, [], rfl,
      .inr (.inl (by decide))⟩
  | cons x s =>
    have hregular : stringUtf8Regular x = false := by
      by_contra hregular
      exact hno (u := s) (.regular (by simpa using hregular)) rfl
    have hlead : ¬ 0x80 ≤ x := by
      intro hlead
      obtain ⟨c, u, hc, -, hcu⟩ := hs.cases.resolve_left (by simp)
      exact hno (charText_utf8 hc (multi_of_lead hcu hlead)) hcu
    by_cases hescape : x = backslash
    swap
    · have hstop : stopValue (x :: s ++ [nul]) = [] := by
        simp [stopValue, Ne.symm hescape]
      have hend : x = quote ∨ x < 0x20 := or_iff_not_imp_left.mpr (by
        simpa [stringUtf8Regular, hescape, hlead] using hregular)
      rw [hstop, List.append_nil]
      exact ⟨decodeTurn_end hregular hlead hescape _ buffer, x, s ++ [nul], rfl,
        hend.imp_right .inl⟩
    subst hescape
    refine ⟨?_, backslash, s ++ [nul], rfl, .inr (.inr ⟨rfl, h⟩)⟩
    cases s with
    | nil =>
      have hstop : stopValue [backslash, nul] = [] := by decide
      rw [List.singleton_append, hstop, List.append_nil]
      exact decodeTurn_noEscape (by decide) (by decide) [] buffer
    | cons e s =>
      by_cases hu : e = ch 'u'
      · subst hu
        obtain ⟨code, q, hget, -⟩ := stringUtf8GetEncoded_inside ⟨_, rfl, hnul⟩
        rcases stringUtf8GetEncoded_sound hs hnul hget with ⟨rfl, rfl⟩ | ⟨w, u, hw, hwu, -⟩
        · have hturn := decodeTurn_encoded (p := s ++ [nul]) buffer hget
          rw [if_pos (by simp)] at hturn
          have hstop : stopValue (backslash :: ch 'u' :: s ++ [nul]) = stringUtf8Put 0 := by
            simp [stopValue, stringUtf8Put, byte]
          rw [hstop]
          exact hturn
        · exact absurd hwu (hno hw)
      · have hstop : stopValue (backslash :: e :: s ++ [nul]) = [] := by
          simp [stopValue, Ne.symm hu]
        rw [hstop, List.append_nil]
        cases hunescape : unescapeByte e with
        | none => exact decodeTurn_noEscape hu hunescape _ buffer
        | some y =>
          have hw := CharText.escape (unescapeByte_isSome.mp ⟨y, hunescape⟩)
          exact absurd rfl (hno (u := s) hw)

/-- What the decoder makes of a well-formed string: the characters before the first stop, with its
own value of a surrogate pair, and the byte it appends there. -/
theorem decode_run {s : Bytes} (hs : WellFormed s) (hnul : nul ∉ s) {fuel : ℕ}
    {buffer b e : Bytes}
    (h : Loop.run decodeTurn fuel (s ++ [nul], buffer) = some (.ok (b, e))) :
    ∃ chars : List Bytes, (∀ w ∈ chars, CharText w) ∧
      s ++ [nul] = chars.flatten ++ e ∧ StringEnd e ∧
      b = buffer ++ chars.flatMap (charValue orPair) ++ stopValue e := by
  induction hn : s.length using Nat.strongRecOn generalizing s fuel buffer with
  | ind n ih =>
    have hbehind : ∀ {w u : Bytes} {fuel : ℕ}, CharText w → s = w ++ u →
        Loop.run decodeTurn fuel (u ++ [nul], buffer ++ charValue orPair w) = some (.ok (b, e)) →
        ∃ chars : List Bytes, (∀ w ∈ chars, CharText w) ∧ s ++ [nul] = chars.flatten ++ e ∧
          StringEnd e ∧ b = buffer ++ chars.flatMap (charValue orPair) ++ stopValue e := by
      rintro w u fuel hw rfl hrun
      have hlen := List.length_pos_iff.mpr hw.ne_nil
      rw [List.length_append] at hn
      obtain ⟨chars, hchars, hsplit, hstops, rfl⟩ := ih u.length (by omega)
        (hs.behind_char hw) (fun hmem => hnul (List.mem_append_right w hmem)) hrun rfl
      refine ⟨w :: chars, List.forall_mem_cons.mpr ⟨hw, hchars⟩, ?_, hstops, ?_⟩
      · rw [List.append_assoc, hsplit, List.flatten_cons, List.append_assoc]
      · rw [List.flatMap_cons, ← List.append_assoc]
    cases fuel with
    | zero => simp at h
    | succ fuel =>
      by_cases hchar : ∃ w, CharText w ∧ w <+: s ++ [nul]
      swap
      · obtain ⟨hturn, hstops⟩ :=
          decodeTurn_stops hs hnul (fun w hw hprefix => hchar ⟨w, hw, hprefix⟩) buffer
        rw [Loop.run_succ_done _ hturn] at h
        obtain ⟨rfl, rfl⟩ := Prod.mk.inj (Except.ok.inj (Option.some.inj h))
        exact ⟨[], by simp, by simp, hstops, by simp⟩
      obtain ⟨w, hw, r, hr⟩ := hchar
      obtain ⟨u, rfl, rfl⟩ : ∃ u, s = w ++ u ∧ r = u ++ [nul] := by
        rcases List.append_eq_append_iff.mp hr with ⟨u, rfl, rfl⟩ | ⟨u, rfl, hu⟩
        · exact ⟨u, rfl, rfl⟩
        · cases u with
          | nil => exact ⟨[], by simp, by simpa using hu.symm⟩
          | cons y u =>
            obtain ⟨rfl, -⟩ := List.cons.inj hu
            exact absurd (by simp) hw.nul_not_mem
      rw [List.append_assoc] at h
      by_cases hregular : ∀ x v, w = x :: v → stringUtf8Regular x = false
      · rw [Loop.run_succ_next _ (hw.turn hregular (u ++ [nul]) buffer)] at h
        exact hbehind hw rfl h
      obtain ⟨x, v, rfl, -, -, hv⟩ := hw.head
      have hx : stringUtf8Regular x = true := by
        by_contra hx
        exact hregular fun y t hyt => (List.cons.inj hyt).1 ▸ eq_false_of_ne_true hx
      obtain rfl := hv hx
      have hcopied : charValue orPair [x] = [x] := by
        refine charValue_copied orPair ?_ []
        rintro rfl
        exact absurd hx (by decide)
      rw [List.singleton_append] at h
      rcases decodeTurn_regular hx (skipWhile_ok_of_mem (c := nul) (p := u ++ [nul]) (by simp)
        (by decide)) buffer with hturn | ⟨d, hturn, hturn'⟩
      · rw [Loop.run_succ_next _ hturn, ← hcopied] at h
        exact hbehind hw rfl h
      · rw [Loop.run_succ_next _ hturn, ← Loop.run_succ_next _ hturn', ← hcopied] at h
        exact hbehind hw rfl h

/-- `string_utf8_decode` stops at the first stop of a well-formed string. -/
theorem stringUtf8Decode_stops {s : Bytes} (hs : WellFormed s) (hnul : nul ∉ s) :
    ∃ (chars : List Bytes) (e : Bytes), (∀ w ∈ chars, CharText w) ∧
      s ++ [nul] = chars.flatten ++ e ∧ StringEnd e ∧ stringUtf8Decode (s ++ [nul]) =
        .ok (chars.flatMap (charValue orPair) ++ stopValue e, e) := by
  obtain ⟨b, e, hdecode, -⟩ := stringUtf8Decode_inside ⟨s, rfl, hnul, hs.whole⟩
  obtain ⟨chars, hchars, hsplit, hstops, rfl⟩ :=
    decode_run hs hnul ((Loop.within_eq_ok decodeTurn).mp hdecode)
  exact ⟨chars, e, hchars, hsplit, hstops, hdecode⟩

/-- What `string_utf8_decode` takes in front of a quotation mark is a string of the grammar. -/
theorem StringText.of_decode {s b t : Bytes} (hs : WellFormed s) (hnul : nul ∉ s)
    (h : stringUtf8Decode (s ++ [nul]) = .ok (b, quote :: t)) :
    ∃ w, quote :: (s ++ [nul]) = w ++ t ∧ StringText w b := by
  obtain ⟨chars, hchars, hsplit, -⟩ := decode_run hs hnul ((Loop.within_eq_ok decodeTurn).mp h)
  exact StringText.of_rest ⟨chars, hchars, hsplit⟩ h

/-! ## The decoder against the reference -/

theorem charValue_orPair {w : Bytes} (h : CharText w) :
    (charValue orPair w).length = (charValue surrogatePair w).length ∧
      (charValue orPair w = charValue surrogatePair w ↔ ¬ EvenPair w) := by
  have hsame : ∀ {v : Bytes}, charValue orPair w = v → charValue surrogatePair w = v →
      (∀ a b c d a' b' c' d',
        w ≠ [backslash, ch 'u', a, b, c, d, backslash, ch 'u', a', b', c', d']) →
      (charValue orPair w).length = (charValue surrogatePair w).length ∧
        (charValue orPair w = charValue surrogatePair w ↔ ¬ EvenPair w) := by
    rintro v hor hpair hne
    rw [hor, hpair]
    refine ⟨rfl, iff_of_true rfl ?_⟩
    rintro ⟨a, b, c, d, a', b', c', d', heq, -⟩
    exact hne a b c d a' b' c' d' heq
  cases h with
  | @unescaped c hc h20 hquote hbackslash =>
    obtain ⟨x, u, hx, hcopied⟩ : ∃ x u, utf8 c = x :: u ∧ x ≠ backslash := by
      by_cases hascii : c < 0x80
      · refine ⟨byte c, [], utf8_ascii hascii, fun heq => hbackslash ?_⟩
        rw [← toNat_byte (n := c) (by omega), heq]
        rfl
      · obtain ⟨x, u, hx, hlead, -⟩ := utf8_multi hc (by omega)
        refine ⟨x, u, hx, ?_⟩
        rintro rfl
        exact absurd hlead (by decide)
    rw [hx] at hsame ⊢
    refine hsame (charValue_copied _ hcopied u) (charValue_copied _ hcopied u) ?_
    intro a b c d a' b' c' d' heq
    exact hcopied (List.cons.inj heq).1
  | escape => exact hsame (charValue_escape _ _) (charValue_escape _ _) (by simp)
  | unicode =>
    exact hsame (charValue_unicode _ _ _ _ _ _) (charValue_unicode _ _ _ _ _ _) (by simp)
  | @surrogates a b c d a' b' c' d' ha hb hc hd ha' hb' hc' hd' hlow hhigh hlow' hhigh' =>
    have hpair := orPair_eq hlow hhigh hlow' hhigh'
    have hscalar := scalar_surrogatePair hlow hhigh hlow' hhigh'
    obtain ⟨hlength, hiff⟩ := utf8_recovered hscalar
    have hge : 0x10000 ≤ surrogatePair (hexCode a b c d) (hexCode a' b' c' d') := by
      unfold surrogatePair
      omega
    rw [charValue_surrogates, charValue_surrogates, hpair]
    refine ⟨hlength, hiff.trans ⟨?_, fun h _ => ?_⟩⟩
    · rintro hodd ⟨x, y, z, u, x', y', z', u', heq, heven⟩
      simp only [List.cons.injEq, and_true, true_and] at heq
      obtain ⟨rfl, rfl, rfl, rfl, rfl, rfl, rfl, rfl⟩ := heq
      have hone := hodd hge
      omega
    · by_contra hne
      exact h ⟨a, b, c, d, a', b', c', d', rfl, by omega⟩

theorem flatMap_charValue_iff {chars : List Bytes} (h : ∀ w ∈ chars, CharText w) :
    (chars.flatMap (charValue orPair)).length = (chars.flatMap (charValue surrogatePair)).length ∧
      (chars.flatMap (charValue orPair) = chars.flatMap (charValue surrogatePair) ↔
        ∀ w ∈ chars, ¬ EvenPair w) := by
  induction chars with
  | nil => simp
  | cons w chars ih =>
    obtain ⟨hw, hchars⟩ := List.forall_mem_cons.mp h
    obtain ⟨hlength, hiff⟩ := charValue_orPair hw
    obtain ⟨hlengths, hiffs⟩ := ih hchars
    rw [List.flatMap_cons, List.flatMap_cons, List.length_append, List.length_append, hlength,
      hlengths, List.forall_mem_cons, ← hiff, ← hiffs]
    refine ⟨rfl, fun heq => List.append_inj heq hlength, fun heq => ?_⟩
    rw [heq.1, heq.2]

/-- `string_utf8_decode` makes the reference decoding of a string exactly when no surrogate pair
before the first stop is of a character in a plane of an even number, and no `\u` is there. -/
theorem stringUtf8Decode_reference_iff {s : Bytes} (hs : WellFormed s) (hnul : nul ∉ s) :
    (∃ b e, stringUtf8Decode (s ++ [nul]) = .ok (b, e)) ∧
    ((∀ b e, stringUtf8Decode (s ++ [nul]) = .ok (b, e) → ReferenceDecoding (s ++ [nul]) b e) ↔
      ∃ (chars : List Bytes) (e : Bytes), (∀ w ∈ chars, CharText w ∧ ¬ EvenPair w) ∧
        s ++ [nul] = chars.flatten ++ e ∧ StringEnd e ∧ ¬ [backslash, ch 'u'] <+: e) := by
  obtain ⟨chars, e, hchars, hsplit, hstops, hdecode⟩ := stringUtf8Decode_stops hs hnul
  obtain ⟨hlength, hiff⟩ := flatMap_charValue_iff hchars
  refine ⟨⟨_, _, hdecode⟩, fun h => ?_, ?_⟩
  · obtain ⟨chars', hchars', hsplit', -, hb⟩ := h _ _ hdecode
    obtain ⟨rfl, -⟩ := stringEnd_unique hchars hchars' hstops hstops (hsplit.symm.trans hsplit')
    have hnil : stopValue e = [] := by
      have hlen := congrArg List.length hb
      rw [List.length_append] at hlen
      exact List.length_eq_zero_iff.mp (by omega)
    rw [hnil, List.append_nil, hiff] at hb
    refine ⟨chars, e, fun w hw => ⟨hchars w hw, hb w hw⟩, hsplit, hstops, fun hprefix => ?_⟩
    rw [stopValue, if_pos (List.isPrefixOf_iff_prefix.mpr hprefix)] at hnil
    cases hnil
  · rintro ⟨chars', e', hchars', hsplit', hstops', hprefix⟩ b e'' hdecode'
    obtain ⟨rfl, rfl⟩ := stringEnd_unique hchars (fun w hw => (hchars' w hw).1) hstops hstops'
      (hsplit.symm.trans hsplit')
    have hnil : stopValue e = [] := by
      rw [stopValue, if_neg (fun h => hprefix (List.isPrefixOf_iff_prefix.mp h))]
    rw [hnil, List.append_nil, hiff.mpr fun w hw => (hchars' w hw).2] at hdecode
    obtain ⟨rfl, rfl⟩ := Prod.mk.inj (Except.ok.inj (hdecode'.symm.trans hdecode))
    exact ⟨chars, hchars, hsplit, hstops, rfl⟩

/-- A letter and a surrogate pair of U+1F600. -/
theorem stringUtf8Decode_reference_plane1 :
    (∃ b e, stringUtf8Decode (str "a\\ud83d\\ude00\"" ++ [nul]) = .ok (b, e)) ∧
    ((∀ b e, stringUtf8Decode (str "a\\ud83d\\ude00\"" ++ [nul]) = .ok (b, e) →
        ReferenceDecoding (str "a\\ud83d\\ude00\"" ++ [nul]) b e) ↔
      ∃ (chars : List Bytes) (e : Bytes), (∀ w ∈ chars, CharText w ∧ ¬ EvenPair w) ∧
        str "a\\ud83d\\ude00\"" ++ [nul] = chars.flatten ++ e ∧ StringEnd e ∧
        ¬ [backslash, ch 'u'] <+: e) :=
  stringUtf8Decode_reference_iff (.of_ascii (by decide +kernel)) (by decide)

/-- Two digits behind a `\u` contribute a zero byte. -/
theorem stringUtf8Decode_badEscape :
    stringUtf8Decode (str "\\u12\"" ++ [nul]) = .ok ([nul], str "\\u12\"" ++ [nul]) ∧
    ¬ ∀ s, WellFormed s → nul ∉ s →
      ∀ b e, stringUtf8Decode (s ++ [nul]) = .ok (b, e) → ReferenceDecoding (s ++ [nul]) b e := by
  have hdecode : stringUtf8Decode (str "\\u12\"" ++ [nul]) =
      .ok ([nul], str "\\u12\"" ++ [nul]) := by decide
  refine ⟨hdecode, fun h => ?_⟩
  obtain ⟨chars, hchars, hsplit, -, hb⟩ :=
    h _ (.of_ascii (by decide +kernel)) (by decide) _ _ hdecode
  cases chars with
  | nil => cases hb
  | cons w chars =>
    have hlen := congrArg List.length hsplit
    have hpos := List.length_pos_iff.mpr (hchars w (by simp)).ne_nil
    simp only [List.flatten_cons, List.length_append] at hlen
    omega

end LibReactor
