import LibReactor.Utf8Reading

/-!
# Sequences that are broken off

Where a byte breaks off a multi-byte sequence, `string_utf8_get` takes this byte too. The scan
below follows the decoder from one character to the next; the ASCII bytes that it meets in the
middle of a sequence are those that are lost.
-/

namespace LibReactor

/-- The decoder's state behind a byte; it starts again behind one that it rejects. -/
def scanStep (state : ℕ) (c : UInt8) : ℕ :=
  let state := (stringUtf8DecodeCode state 0 c).1
  if state = stateReject then stateAccept else state

def scanState (s : Bytes) : ℕ := s.foldl scanStep stateAccept

def keptBytes : ℕ → Bytes → Bytes
  | _, [] => []
  | state, c :: s => (if c < 0x80 ∧ state = stateAccept then [c] else []) ++
      keptBytes (scanStep state c) s

def keepsAll : ℕ → Bytes → Bool
  | _, [] => true
  | state, c :: s => (0x80 ≤ c || state = stateAccept) && keepsAll (scanStep state c) s

/-- The bytes start a multi-byte character and do not end it. -/
def BreaksOff (x : Bytes) : Prop := x ≠ [] ∧ ∃ c t, Scalar c ∧ utf8 c = x ++ t ∧ t ≠ []

def StartsCharacter (y : Bytes) : Prop := ∃ c r, Scalar c ∧ y = utf8 c ++ r

/-- A character of a JSON string, or bytes that are not ASCII behind which the scan is not in the
middle of a sequence. -/
def WholeText (w : Bytes) : Prop :=
  CharText w ∨ ((∀ c ∈ w, 0x80 ≤ c) ∧ scanState w = stateAccept)

def asciiChars : Bytes → Bytes → Bytes
  | _, [] => []
  | [], c :: t =>
    if c = backslash then asciiChars [c] t
    else (if c < 0x80 then [c] else []) ++ asciiChars [] t
  | [x], c :: t =>
    if c = ch 'u' then asciiChars [x, c] t else (unescapeByte c).toList ++ asciiChars [] t
  | [_, _, a, b, d], c :: t =>
    (if hexCode a b d c < 0x80 then [byte (hexCode a b d c)] else []) ++ asciiChars [] t
  | escape, c :: t => asciiChars (escape ++ [c]) t

/-! ## The scan -/

theorem scanStep_eq {state code : ℕ} {c : UInt8} {state' code' : ℕ}
    (h : stringUtf8DecodeCode state code c = (state', code')) :
    scanStep state c = if state' = stateReject then stateAccept else state' := by
  have hfst : (stringUtf8DecodeCode state 0 c).1 = state' := congrArg Prod.fst h
  rw [scanStep, hfst]

theorem scanStep_ascii {c : UInt8} (h : c < 0x80) : scanStep stateAccept c = stateAccept := by
  rw [scanStep, decodeCode_ascii (UInt8.not_le.mpr h) 0]
  rfl

theorem keptBytes_append_ascii {w : Bytes} (hw : ∀ c ∈ w, c < 0x80) (s : Bytes) :
    keptBytes stateAccept (w ++ s) = w ++ keptBytes stateAccept s := by
  induction w with
  | nil => rfl
  | cons c w ih =>
    have hc := hw c (List.mem_cons_self ..)
    rw [List.cons_append, keptBytes, if_pos ⟨hc, rfl⟩, scanStep_ascii hc,
      ih fun x hx => hw x (List.mem_cons_of_mem c hx)]
    rfl

theorem keptBytes_sublist (state : ℕ) (s : Bytes) :
    (keptBytes state s).Sublist (s.filter (· < 0x80)) := by
  induction s generalizing state with
  | nil => exact List.Sublist.refl _
  | cons c s ih =>
    rw [keptBytes]
    by_cases hc : c < 0x80
    · rw [List.filter_cons_of_pos (by simpa using hc)]
      by_cases hstate : state = stateAccept
      · rw [if_pos ⟨hc, hstate⟩]
        exact (ih _).cons_cons c
      · rw [if_neg fun h => hstate h.2]
        exact (ih _).cons c
    · rw [List.filter_cons_of_neg (by simpa using hc), if_neg fun h => hc h.1]
      exact ih _

theorem keptBytes_eq_iff (state : ℕ) (s : Bytes) :
    keptBytes state s = s.filter (· < 0x80) ↔ keepsAll state s = true := by
  induction s generalizing state with
  | nil => exact ⟨fun _ => rfl, fun _ => rfl⟩
  | cons c s ih =>
    rw [keptBytes, keepsAll, Bool.and_eq_true, ← ih]
    by_cases hc : c < 0x80
    · have hnot : ¬ 0x80 ≤ c := UInt8.not_le.mpr hc
      rw [List.filter_cons_of_pos (by simpa using hc)]
      by_cases hstate : state = stateAccept
      · rw [if_pos ⟨hc, hstate⟩]
        simp [hstate]
      · rw [if_neg fun h => hstate h.2]
        refine ⟨fun heq => ?_, fun h => ?_⟩
        · have hlen := (keptBytes_sublist (scanStep state c) s).length_le
          have hlen' := congrArg List.length heq
          rw [List.nil_append, List.length_cons] at hlen'
          omega
        · simp [hnot, hstate] at h
    · rw [List.filter_cons_of_neg (by simpa using hc), if_neg fun h => hc h.1]
      simp [UInt8.not_lt.mp hc]

/-- What `string_utf8_get` takes, from a byte that is not ASCII or in the middle of a sequence,
keeps no ASCII byte. -/
theorem utf8GetLoop_kept {state code : ℕ} {p : Bytes}
    (hstate : state = stateAccept → ∀ c ∈ p.head?, 0x80 ≤ c) {code' : ℕ} {q : Bytes}
    (h : utf8GetLoop state code p.length p = .ok (code', q)) :
    keptBytes state p = keptBytes stateAccept q := by
  induction p generalizing state code with
  | nil =>
    obtain rfl := (Prod.mk.inj (Except.ok.inj h)).2
    rfl
  | cons c p ih =>
    obtain ⟨next, code₁, hstep⟩ : ∃ a b, stringUtf8DecodeCode state code c = (a, b) := ⟨_, _, rfl⟩
    rw [keptBytes, if_neg fun hand => UInt8.not_lt.mpr (hstate hand.2 c rfl) hand.1,
      scanStep_eq hstep, List.nil_append]
    simp only [List.length_cons, utf8GetLoop, hstep] at h
    by_cases haccept : next = stateAccept
    · rw [if_pos haccept] at h
      obtain rfl := (Prod.mk.inj (Except.ok.inj h)).2
      rw [haccept, if_neg (by decide)]
    rw [if_neg haccept] at h
    by_cases hreject : next = stateReject
    · rw [if_pos (.inl hreject)] at h
      obtain rfl := (Prod.mk.inj (Except.ok.inj h)).2
      rw [if_pos hreject]
    rw [if_neg hreject]
    by_cases hp : p.length = 0
    · rw [if_pos (.inr hp)] at h
      obtain rfl := (Prod.mk.inj (Except.ok.inj h)).2
      rw [List.length_eq_zero_iff.mp hp]
      rfl
    · rw [if_neg (not_or_intro hreject hp)] at h
      exact ih (fun h => absurd h haccept) h

/-! ## Encoding -/

theorem asciiChars_escape {e b : UInt8} (h : unescapeByte e = some b) (t : Bytes) :
    asciiChars [] (backslash :: e :: t) = b :: asciiChars [] t := by
  have hu : e ≠ ch 'u' := by
    rintro rfl
    have hnone : unescapeByte (ch 'u') = none := by decide
    rw [hnone] at h
    cases h
  rw [asciiChars, if_pos rfl, asciiChars, if_neg hu, h]
  rfl

theorem asciiChars_basic {code : ℕ} (h : code < 0x10000) (t : Bytes) :
    asciiChars [] (stringUtf8PutEncodedBasic code ++ t) =
      (if code < 0x80 then [byte code] else []) ++ asciiChars [] t := by
  obtain ⟨a, b, c, d, -, -, -, -, hcode, hput⟩ := stringUtf8PutEncodedBasic_digits h
  rw [hput, ← hcode]
  simp only [List.cons_append, List.nil_append, asciiChars, if_true]

theorem utf8_high {c : ℕ} (hc : Scalar c) (h : 0x80 ≤ c) : ∀ b ∈ utf8 c, 0x80 ≤ b := by
  obtain ⟨x, u, hx, hlead, htail⟩ := utf8_multi hc h
  intro b hb
  rcases List.mem_cons.mp (hx ▸ hb) with rfl | hb
  · exact hlead
  · obtain ⟨m, hm, rfl⟩ := htail b hb
    rw [UInt8.le_iff_toNat_le, toNat_byte (by omega)]
    exact Nat.le_add_right _ _

theorem asciiChars_high {w : Bytes} (hw : ∀ c ∈ w, 0x80 ≤ c) (t : Bytes) :
    asciiChars [] (w ++ t) = asciiChars [] t := by
  induction w with
  | nil => rfl
  | cons c w ih =>
    have hc := hw c (List.mem_cons_self ..)
    have hbackslash : c ≠ backslash := by
      rintro rfl
      exact absurd hc (by decide)
    rw [List.cons_append, asciiChars, if_neg hbackslash, if_neg (UInt8.not_lt.mpr hc),
      ih fun x hx => hw x (List.mem_cons_of_mem c hx)]
    rfl

theorem asciiChars_escapeByte {c : UInt8} (h : c < 0x80) (t : Bytes) :
    asciiChars [] (escapeByte c ++ t) = c :: asciiChars [] t := by
  have hlt : c.toNat < 0x80 := UInt8.lt_iff_toNat_lt.mp h
  unfold escapeByte
  split_ifs with hquote hbackslash hff hlf hcr htab
  · rw [hquote]
    exact asciiChars_escape rfl t
  · rw [hbackslash]
    exact asciiChars_escape rfl t
  · rw [hff]
    exact asciiChars_escape rfl t
  · rw [hlf]
    exact asciiChars_escape rfl t
  · rw [hcr]
    exact asciiChars_escape rfl t
  · rw [htab]
    exact asciiChars_escape rfl t
  · rw [asciiChars_basic (by omega), if_pos hlt, byte_toNat]
    rfl

/-- The text of a character has that character if it is ASCII, and no ASCII character else. -/
theorem asciiChars_encodeChar (ascii : Bool) {c : ℕ} (hc : Scalar c) (t : Bytes) :
    asciiChars [] (encodeChar ascii c ++ t) =
      (if c < 0x80 then [byte c] else []) ++ asciiChars [] t := by
  unfold encodeChar
  by_cases h : c < 0x80
  · rw [if_pos h, if_pos h]
    have hbyte : byte c < 0x80 := by
      rw [UInt8.lt_iff_toNat_lt, toNat_byte (by omega)]
      exact h
    split_ifs with hregular
    · have hbackslash : byte c ≠ backslash := by
        intro heq
        rw [heq] at hregular
        revert hregular
        decide
      rw [List.cons_append, List.nil_append, asciiChars, if_neg hbackslash, if_pos hbyte]
    · exact asciiChars_escapeByte hbyte t
  rw [if_neg h, if_neg h]
  cases ascii with
  | true =>
    rw [if_pos rfl, stringUtf8PutEncoded]
    unfold Scalar at hc
    by_cases hpair : 0x10000 ≤ c
    · have hhigh := or_surrogate (k := (c - 0x10000) >>> 10) (show 0xd800 % 1024 = 0 from rfl)
        (by rw [Nat.shiftRight_eq_div_pow]; omega)
      have hlow := or_surrogate (k := (c - 0x10000) &&& 0x3ff)
        (show 0xdc00 % 1024 = 0 from rfl)
        (Nat.lt_of_le_of_lt Nat.and_le_right (by decide))
      have hlt : (c - 0x10000) >>> 10 < 1024 := by
        rw [Nat.shiftRight_eq_div_pow]
        omega
      have hlt' : (c - 0x10000) &&& 0x3ff < 1024 := Nat.lt_of_le_of_lt Nat.and_le_right (by decide)
      rw [if_pos hpair]
      dsimp only
      rw [hhigh.1, hlow.1, List.append_assoc, asciiChars_basic (by omega), if_neg (by omega),
        asciiChars_basic (by omega), if_neg (by omega)]
      rfl
    · rw [if_neg hpair, asciiChars_basic (by omega), if_neg h]
  | false =>
    rw [if_neg (by decide), stringUtf8Put_scalar hc]
    exact asciiChars_high (utf8_high hc (Nat.not_lt.mp h)) t

theorem asciiChars_encoded (ascii : Bool) {cs : List ℕ} (hcs : ∀ c ∈ cs, Scalar c) :
    asciiChars [] (cs.flatMap (encodeChar ascii)) = (cs.filter (· < 0x80)).map byte := by
  induction cs with
  | nil => rfl
  | cons c cs ih =>
    rw [List.flatMap_cons, asciiChars_encodeChar ascii (hcs c (List.mem_cons_self ..)),
      ih fun x hx => hcs x (List.mem_cons_of_mem c hx)]
    by_cases h : c < 0x80
    · rw [if_pos h, List.filter_cons_of_pos (by simpa using h)]
      rfl
    · rw [if_neg h, List.filter_cons_of_neg (by simpa using h)]
      rfl

theorem flatMap_encodeChar_regular (ascii : Bool) {w : Bytes}
    (hw : ∀ x ∈ w, stringUtf8Regular x = true) :
    (w.map UInt8.toNat).flatMap (encodeChar ascii) = w ∧
      ((w.map UInt8.toNat).filter (· < 0x80)).map byte = w := by
  induction w with
  | nil => exact ⟨rfl, rfl⟩
  | cons c w ih =>
    obtain ⟨hflat, hfilter⟩ := ih fun x hx => hw x (List.mem_cons_of_mem c hx)
    have hc := hw c (List.mem_cons_self ..)
    have hlt := (unescaped_of_regular hc).1
    constructor
    · rw [List.map_cons, List.flatMap_cons, hflat, encodeChar, if_pos hlt, byte_toNat, if_pos hc]
      rfl
    · rw [List.map_cons, List.filter_cons_of_pos (by simpa using hlt), List.map_cons, hfilter,
        byte_toNat]

/-- A turn of `string_utf8_encode` writes some characters, with the ASCII bytes that are kept. -/
theorem encodeTurn_kept (ascii : Bool) (c : UInt8) (p buffer : Bytes) :
    ∃ q, ∃ cs : List ℕ, encodeTurn ascii (c :: p, buffer) =
        .ok (.inr (q, buffer ++ cs.flatMap (encodeChar ascii))) ∧ (∀ x ∈ cs, Scalar x) ∧
      (cs.filter (· < 0x80)).map byte ++ keptBytes stateAccept q =
        keptBytes stateAccept (c :: p) ∧ q.length < (c :: p).length := by
  by_cases hregular : stringUtf8Regular c = true
  · have hw : ∀ x ∈ c :: p.takeWhile stringUtf8Regular, stringUtf8Regular x = true :=
      List.forall_mem_cons.mpr ⟨hregular, fun x hx => List.mem_takeWhile_imp hx⟩
    have hascii : ∀ x ∈ c :: p.takeWhile stringUtf8Regular, x < 0x80 := fun x hx =>
      UInt8.lt_iff_toNat_lt.mpr (unescaped_of_regular (hw x hx)).1
    obtain ⟨hflat, hfilter⟩ := flatMap_encodeChar_regular ascii hw
    refine ⟨p.dropWhile stringUtf8Regular, (c :: p.takeWhile stringUtf8Regular).map UInt8.toNat,
      ?_, fun x hx => ?_, ?_, ?_⟩
    · rw [hflat]
      simp only [encodeTurn, hregular, if_true, pure_eq_ok]
    · obtain ⟨b, hb, rfl⟩ := List.mem_map.mp hx
      have hlt := UInt8.lt_iff_toNat_lt.mp (hascii b hb)
      exact .inl (Nat.lt_trans hlt (by decide))
    · rw [hfilter, ← keptBytes_append_ascii hascii, List.cons_append,
        List.takeWhile_append_dropWhile]
    · exact Nat.lt_succ_of_le (List.dropWhile_sublist _).length_le
  by_cases hmulti : 0x80 ≤ c
  · obtain ⟨⟨code, q⟩, hget⟩ :
        ∃ r, utf8GetLoop stateAccept 0 (c :: p).length (c :: p) = .ok r :=
      utf8GetLoop_ok (Nat.le_refl _)
    have htaken := (stringUtf8Get_taken hmulti p p.length).of_ok hget
    have hnot : ¬ code < 0x80 := Nat.not_lt.mpr htaken.2.1
    refine ⟨q, [code], ?_, ?_, ?_, Nat.lt_succ_of_le htaken.2.2⟩
    · rw [List.length_cons] at hget
      simp only [encodeTurn, if_neg hregular, if_pos hmulti, stringUtf8Get, hget, ok_bind,
        pure_eq_ok, List.flatMap_singleton, encodeChar, if_neg hnot]
    · intro x hx
      rw [List.mem_singleton.mp hx]
      exact htaken.1
    · rw [List.filter_cons_of_neg (by simpa using htaken.2.1)]
      have hhead : ∀ x ∈ (c :: p).head?, 0x80 ≤ x := fun x hx => Option.some.inj hx ▸ hmulti
      exact (utf8GetLoop_kept (fun _ => hhead) hget).symm
  · have hascii : c < 0x80 := UInt8.not_le.mp hmulti
    have hlt : c.toNat < 0x80 := UInt8.lt_iff_toNat_lt.mp hascii
    refine ⟨p, [c.toNat], ?_, ?_, ?_, Nat.lt_succ_self _⟩
    · simp only [encodeTurn, if_neg hregular, if_neg hmulti, pure_eq_ok, List.flatMap_singleton,
        encodeChar, if_pos hlt, byte_toNat]
    · intro x hx
      rw [List.mem_singleton.mp hx]
      exact .inl (Nat.lt_trans hlt (by decide))
    · rw [List.filter_cons_of_pos (by simpa using hlt), List.map_cons, byte_toNat, keptBytes,
        if_pos ⟨hascii, rfl⟩, scanStep_ascii hascii]
      rfl

/-- `string_utf8_encode` writes characters, whose ASCII ones are the bytes that are kept. -/
theorem stringUtf8Encode_kept (s : Bytes) (ascii : Bool) :
    ∃ out, stringUtf8Encode s ascii = .ok out ∧ asciiChars [] out = keptBytes stateAccept s := by
  have hrun : ∃ cs : List ℕ, (∀ c ∈ cs, Scalar c) ∧
      stringUtf8Encode s ascii = .ok (cs.flatMap (encodeChar ascii)) ∧
      (cs.filter (· < 0x80)).map byte = keptBytes stateAccept s := by
    refine Loop.within_variant (encodeTurn ascii)
      (I := fun x => ∃ cs, (∀ c ∈ cs, Scalar c) ∧ x.2 = cs.flatMap (encodeChar ascii) ∧
        (cs.filter (· < 0x80)).map byte ++ keptBytes stateAccept x.1 = keptBytes stateAccept s)
      (μ := fun x => x.1.length)
      (Q := fun r => ∃ cs : List ℕ, (∀ c ∈ cs, Scalar c) ∧
        r = .ok (cs.flatMap (encodeChar ascii)) ∧
          (cs.filter (· < 0x80)).map byte = keptBytes stateAccept s) ?_ .hang
      ⟨[], nofun, rfl, rfl⟩ (Nat.lt_succ_self _)
    rintro ⟨p, buffer⟩ ⟨cs, hcs, hbuffer, hkept⟩
    dsimp only at hbuffer hkept
    unfold Loop.TurnSpec
    cases p with
    | nil =>
      rw [keptBytes, List.append_nil] at hkept
      exact ⟨cs, hcs, by rw [hbuffer], hkept⟩
    | cons c p =>
      obtain ⟨q, cs', hturn, hcs', hkept', hlen⟩ := encodeTurn_kept ascii c p buffer
      rw [hturn]
      refine ⟨⟨cs ++ cs', fun x hx => ?_, ?_, ?_⟩, hlen⟩
      · exact (List.mem_append.mp hx).elim (hcs x) (hcs' x)
      · rw [hbuffer, List.flatMap_append]
      · rw [List.filter_append, List.map_append, List.append_assoc, hkept', hkept]
  obtain ⟨cs, hcs, hencode, hkept⟩ := hrun
  exact ⟨_, hencode, (asciiChars_encoded ascii hcs).trans hkept⟩

/-! ## Sequences between quotation marks -/

/-- From the middle of a sequence some bytes are taken off the ones that follow, whatever comes
behind them, or all of them are the start of one sequence. -/
theorem utf8GetLoop_scan {state code : ℕ} {w : Bytes} (h : PartialCode state code) :
    (∃ v w' code', w = v ++ w' ∧ v ≠ [] ∧ v.length ≤ missing state ∧
      w.foldl scanStep state = w'.foldl scanStep stateAccept ∧
      ∀ n, v.length ≤ n → ∀ r, utf8GetLoop state code n (v ++ r) = .ok (code', r)) ∨
    (w.length < missing state ∧ w.foldl scanStep state ≠ stateAccept ∧
      ∀ c : UInt8, c.toNat < 0x80 ∨ 0xc0 ≤ c.toNat → ∀ n, w.length < n → ∀ r,
        utf8GetLoop state code n (w ++ c :: r) = .ok (0xfffd, r)) := by
  induction w generalizing state code with
  | nil =>
    refine .inr ⟨one_le_missing state, h.state_ne.1, fun c hc n hn r => ?_⟩
    obtain ⟨k, rfl⟩ : ∃ k, n = k + 1 := ⟨n - 1, (Nat.sub_add_cancel hn).symm⟩
    obtain ⟨state', code', hstep⟩ : ∃ a b, stringUtf8DecodeCode state code c = (a, b) := ⟨_, _, rfl⟩
    have hreject : (stringUtf8DecodeCode state code c).1 = stateReject :=
      decodeCode_noTail h.midStates hc
    rw [hstep] at hreject
    dsimp only at hreject
    simp only [List.nil_append, utf8GetLoop, hstep]
    rw [if_neg (by rw [hreject]; decide), if_pos (.inl hreject)]
  | cons c w ih =>
    obtain ⟨state', code', hstep⟩ : ∃ a b, stringUtf8DecodeCode state code c = (a, b) := ⟨_, _, rfl⟩
    have hfold : (c :: w).foldl scanStep state =
        w.foldl scanStep (if state' = stateReject then stateAccept else state') := by
      rw [List.foldl_cons, scanStep_eq hstep]
    rcases decodeCode_cases h hstep with ⟨haccept, -⟩ | hreject | hpartial
    · refine .inl ⟨[c], w, code', rfl, List.cons_ne_nil _ _, one_le_missing state, ?_,
        fun n hn r => ?_⟩
      · rw [hfold, if_neg (by rw [haccept]; decide), haccept]
      · obtain ⟨k, rfl⟩ : ∃ k, n = k + 1 := ⟨n - 1, (Nat.sub_add_cancel hn).symm⟩
        simp only [List.cons_append, List.nil_append, utf8GetLoop, hstep]
        rw [if_pos haccept]
    · refine .inl ⟨[c], w, 0xfffd, rfl, List.cons_ne_nil _ _, one_le_missing state, ?_,
        fun n hn r => ?_⟩
      · rw [hfold, if_pos hreject]
      · obtain ⟨k, rfl⟩ : ∃ k, n = k + 1 := ⟨n - 1, (Nat.sub_add_cancel hn).symm⟩
        simp only [List.cons_append, List.nil_append, utf8GetLoop, hstep]
        rw [if_neg (by rw [hreject]; decide), if_pos (.inl hreject)]
    · have hne := hpartial.state_ne
      have hless := h.missing_lt hstep hpartial
      have hloop : ∀ k u, k ≠ 0 → utf8GetLoop state code (k + 1) (c :: u) =
          utf8GetLoop state' code' k u := by
        intro k u hk
        simp only [utf8GetLoop, hstep]
        rw [if_neg hne.1, if_neg (not_or_intro hne.2 hk)]
      rw [if_neg hne.2] at hfold
      rcases ih hpartial with ⟨v, w', code'', rfl, hv, hlen, hscan, htaken⟩ | ⟨hlen, hscan, htaken⟩
      · refine .inl ⟨c :: v, w', code'', rfl, List.cons_ne_nil _ _, Nat.lt_of_le_of_lt hlen hless,
          hfold.trans hscan, fun n hn r => ?_⟩
        obtain ⟨k, rfl⟩ : ∃ k, n = k + 1 := ⟨n - 1, by rw [List.length_cons] at hn; omega⟩
        have hk : v.length ≤ k := Nat.le_of_succ_le_succ hn
        have hpos := List.length_pos_iff.mpr hv
        rw [List.cons_append, hloop k _ (by omega)]
        exact htaken k hk r
      · refine .inr ⟨Nat.lt_of_le_of_lt (Nat.succ_le_of_lt hlen) hless, hfold ▸ hscan,
          fun x hx n hn r => ?_⟩
        obtain ⟨k, rfl⟩ : ∃ k, n = k + 1 := ⟨n - 1, by rw [List.length_cons] at hn; omega⟩
        have hk : w.length < k := Nat.lt_of_succ_lt_succ hn
        rw [List.cons_append, hloop k _ (by omega)]
        exact htaken x hx k hk r

theorem stringUtf8Get_scan {w : Bytes} (hne : w ≠ []) (hw : ∀ c ∈ w, 0x80 ≤ c) :
    (∃ v w' code, w = v ++ w' ∧ v ≠ [] ∧ v.length ≤ 4 ∧ scanState w = scanState w' ∧
      ∀ n, v.length ≤ n → ∀ r, stringUtf8Get (v ++ r) n = .ok (code, r)) ∨
    (w.length < 4 ∧ scanState w ≠ stateAccept ∧
      ∀ c : UInt8, c.toNat < 0x80 ∨ 0xc0 ≤ c.toNat → ∀ n, w.length < n → ∀ r,
        stringUtf8Get (w ++ c :: r) n = .ok (0xfffd, r)) := by
  obtain ⟨c, w, rfl⟩ := List.exists_cons_of_ne_nil hne
  have hlead := decodeCode_lead (hw c (List.mem_cons_self ..))
  obtain ⟨state, code, hstep⟩ : ∃ a b, stringUtf8DecodeCode stateAccept 0 c = (a, b) := ⟨_, _, rfl⟩
  simp only [hstep] at hlead
  have hfold : scanState (c :: w) =
      w.foldl scanStep (if state = stateReject then stateAccept else state) := by
    rw [scanState, List.foldl_cons, scanStep_eq hstep]
  rcases hlead with hreject | hpartial
  · refine .inl ⟨[c], w, 0xfffd, rfl, List.cons_ne_nil _ _, by simp, ?_, fun n hn r => ?_⟩
    · rw [hfold, if_pos hreject]
      rfl
    · obtain ⟨k, rfl⟩ : ∃ k, n = k + 1 := ⟨n - 1, (Nat.sub_add_cancel hn).symm⟩
      simp only [List.cons_append, List.nil_append, stringUtf8Get, utf8GetLoop, hstep]
      rw [if_neg (by rw [hreject]; decide), if_pos (.inl hreject)]
  · have hne := hpartial.state_ne
    have hthree := missing_le_three state
    have hloop : ∀ k u, k ≠ 0 → stringUtf8Get (c :: u) (k + 1) = utf8GetLoop state code k u := by
      intro k u hk
      simp only [stringUtf8Get, utf8GetLoop, hstep]
      rw [if_neg hne.1, if_neg (not_or_intro hne.2 hk)]
    rw [if_neg hne.2] at hfold
    rcases utf8GetLoop_scan (w := w) hpartial with
      ⟨v, w', code', rfl, hv, hlen, hscan, htaken⟩ | ⟨hlen, hscan, htaken⟩
    · refine .inl ⟨c :: v, w', code', rfl, List.cons_ne_nil _ _,
        Nat.succ_le_succ (Nat.le_trans hlen hthree), hfold.trans hscan, fun n hn r => ?_⟩
      obtain ⟨k, rfl⟩ : ∃ k, n = k + 1 := ⟨n - 1, by rw [List.length_cons] at hn; omega⟩
      have hk : v.length ≤ k := Nat.le_of_succ_le_succ hn
      have hpos := List.length_pos_iff.mpr hv
      rw [List.cons_append, hloop k _ (by omega)]
      exact htaken k hk r
    · refine .inr ⟨Nat.succ_lt_succ (Nat.lt_of_lt_of_le hlen hthree), hfold ▸ hscan,
        fun x hx n hn r => ?_⟩
      obtain ⟨k, rfl⟩ : ∃ k, n = k + 1 := ⟨n - 1, by rw [List.length_cons] at hn; omega⟩
      have hk : w.length < k := Nat.lt_of_succ_lt_succ hn
      rw [List.cons_append, hloop k _ (by omega)]
      exact htaken x hx k hk r

theorem decodeTurn_get {c : UInt8} (hc : 0x80 ≤ c) {p : Bytes} {code : ℕ} {q : Bytes}
    (hget : stringUtf8Get (c :: p) 4 = .ok (code, q)) (hlen : q.length < (c :: p).length)
    (buffer : Bytes) :
    decodeTurn (c :: p, buffer) = .ok (.inr (q, buffer ++ stringUtf8Put code)) := by
  have hregular : stringUtf8Regular c = false := by simp [stringUtf8Regular, hc]
  have hstep : decodeStep (c :: p) = .ok (q, stringUtf8Put code) := by
    simp only [decodeStep, peek, ok_bind, hregular, Bool.false_eq_true, if_false, if_pos hc, hget,
      pure_eq_ok]
  simp only [decodeTurn, hstep, ok_bind, pure_eq_ok, if_neg (Nat.ne_of_lt hlen)]

theorem run_decodeTurn (p buffer : Bytes) :
    ∃ r, Loop.run decodeTurn (p.length + 1) (p, buffer) = some r ∧
      ∀ b q, r = .ok (b, q) → q.length ≤ p.length := by
  refine Loop.run_variant decodeTurn (I := fun x => x.1.length ≤ p.length)
    (μ := fun x => x.1.length) (Q := fun r => ∀ b q, r = .ok (b, q) → q.length ≤ p.length) ?_
    (Nat.le_refl _) (Nat.lt_succ_self _)
  rintro ⟨q, buffer⟩ hq
  rcases decodeStep_yields q with hstep | ⟨⟨q', b⟩, hstep, hlen, -⟩
  · simp only [Loop.TurnSpec, decodeTurn, hstep, error_bind]
    rintro _ _ ⟨⟩
  · simp only [Loop.TurnSpec, decodeTurn, hstep, ok_bind, pure_eq_ok]
    split_ifs with hstop
    · rintro _ _ ⟨⟩
      exact Nat.le_trans hlen hq
    · exact ⟨Nat.le_trans hlen hq, Nat.lt_of_le_of_ne hlen hstop⟩

/-- Texts that the decoder reads are read on the way to what follows them. -/
theorem stringUtf8Decode_texts {texts : List (Bytes × Bytes)}
    (h : ∀ x ∈ texts, CharReads x.1 x.2) {p : Bytes} (hp : quote ∈ p) {fuel : ℕ}
    {r : Except Fault (Bytes × Bytes)}
    (hrun : Loop.run decodeTurn fuel (p, texts.flatMap Prod.snd) = some r) :
    stringUtf8Decode (texts.flatMap Prod.fst ++ p) = r := by
  have hchain : ∀ buffer, Loop.run decodeTurn fuel (p, buffer ++ texts.flatMap Prod.snd) = some r →
      Loop.run decodeTurn (fuel + texts.length) (texts.flatMap Prod.fst ++ p, buffer) = some r := by
    clear hrun
    induction texts with
    | nil =>
      intro buffer hrun
      simpa using hrun
    | cons x texts ih =>
      intro buffer hrun
      rw [List.flatMap_cons, ← List.append_assoc] at hrun
      have ih := ih (fun y hy => h y (List.mem_cons_of_mem x hy)) _ hrun
      rw [List.flatMap_cons, List.append_assoc, List.length_cons, ← Nat.add_assoc]
      exact h x (List.mem_cons_self ..) _ _ _ _ (List.mem_append_right _ hp) ih
  obtain ⟨r', hr', -⟩ := run_decodeTurn (texts.flatMap Prod.fst ++ p) []
  rw [stringUtf8Decode, Loop.within, hr', Loop.run_unique decodeTurn hr' (hchain [] hrun)]
  rfl

/-- Bytes that are not ASCII are texts, and the start of one more sequence where the scan ends in
the middle of it. -/
theorem exists_texts {w : Bytes} (hw : ∀ c ∈ w, 0x80 ≤ c) :
    ∃ (texts : List (Bytes × Bytes)) (last : Bytes), (∀ x ∈ texts, CharReads x.1 x.2) ∧
      w = texts.flatMap Prod.fst ++ last ∧ (last = [] ↔ scanState w = stateAccept) ∧
      (last ≠ [] → ∀ c : UInt8, c.toNat < 0x80 ∨ 0xc0 ≤ c.toNat → ∀ r,
        stringUtf8Get (last ++ c :: r) 4 = .ok (0xfffd, r)) := by
  induction hn : w.length using Nat.strong_induction_on generalizing w with
  | _ n ih =>
    by_cases hne : w = []
    · subst hne
      exact ⟨[], [], nofun, rfl, ⟨fun _ => rfl, fun _ => rfl⟩, fun h => absurd rfl h⟩
    rcases stringUtf8Get_scan hne hw with ⟨v, w', code, rfl, hv, hfour, hscan, htaken⟩ |
      ⟨hlen, hscan, htaken⟩
    · have hpos := List.length_pos_iff.mpr hv
      obtain ⟨texts, last, htexts, rfl, hlast, hbroken⟩ := ih w'.length
        (by rw [← hn, List.length_append]; omega)
        (fun c hc => hw c (List.mem_append_right v hc)) rfl
      obtain ⟨c, u, rfl⟩ := List.exists_cons_of_ne_nil hv
      refine ⟨(c :: u, stringUtf8Put code) :: texts, last, fun x hx => ?_, ?_, hscan ▸ hlast,
        hbroken⟩
      · rcases List.mem_cons.mp hx with rfl | hx
        · intro fuel rest buffer r _ hrun
          have hlen : rest.length < (c :: (u ++ rest)).length := by
            simp only [List.length_cons, List.length_append]
            omega
          have hturn := decodeTurn_get (hw c (List.mem_cons_self ..)) (htaken 4 hfour rest) hlen
            buffer
          exact (Loop.run_succ_next _ hturn fuel).trans hrun
        · exact htexts x hx
      · rw [List.flatMap_cons, List.append_assoc]
    · exact ⟨[], w, nofun, rfl, ⟨fun h => absurd h hne, fun h => absurd h hscan⟩,
        fun _ c hc r => htaken c hc 4 hlen r⟩

theorem WholeText.exists_texts {w : Bytes} (h : WholeText w) :
    ∃ texts : List (Bytes × Bytes), (∀ x ∈ texts, CharReads x.1 x.2) ∧
      w = texts.flatMap Prod.fst := by
  rcases h with hchar | ⟨hw, hscan⟩
  · obtain ⟨b, hb⟩ := hchar.reads
    refine ⟨[(w, b)], fun x hx => ?_, by rw [List.flatMap_singleton]⟩
    obtain rfl := List.mem_singleton.mp hx
    exact hb
  · obtain ⟨texts, last, htexts, hsplit, hlast, -⟩ := LibReactor.exists_texts hw
    rw [hlast.mpr hscan, List.append_nil] at hsplit
    exact ⟨texts, htexts, hsplit⟩

theorem exists_texts_flatten {chars : List Bytes} (h : ∀ w ∈ chars, WholeText w) :
    ∃ texts : List (Bytes × Bytes), (∀ x ∈ texts, CharReads x.1 x.2) ∧
      chars.flatten = texts.flatMap Prod.fst := by
  induction chars with
  | nil => exact ⟨[], nofun, rfl⟩
  | cons w chars ih =>
    obtain ⟨texts, htexts, hflat⟩ := ih fun x hx => h x (List.mem_cons_of_mem w hx)
    obtain ⟨first, hfirst, hw⟩ := (h w (List.mem_cons_self ..)).exists_texts
    refine ⟨first ++ texts, fun x hx => ?_, ?_⟩
    · exact (List.mem_append.mp hx).elim (hfirst x) (htexts x)
    · rw [List.flatten_cons, hflat, hw, List.flatMap_append]

/-- A quotation mark behind bytes that are not ASCII ends the string when the scan does not end in
the middle of a sequence; in the middle of one it is taken with it. -/
theorem stringUtf8Decode_ends_iff {chars : List Bytes} (hchars : ∀ w ∈ chars, WholeText w)
    {w : Bytes} (hw : ∀ c ∈ w, 0x80 ≤ c) (rest : Bytes) :
    (∃ buffer, stringUtf8Decode (chars.flatten ++ (w ++ quote :: rest)) =
      .ok (buffer, quote :: rest)) ↔ scanState w = stateAccept := by
  obtain ⟨texts₁, htexts₁, hflat⟩ := exists_texts_flatten hchars
  obtain ⟨texts₂, last, htexts₂, rfl, hlast, hbroken⟩ := exists_texts hw
  have htexts : ∀ x ∈ texts₁ ++ texts₂, CharReads x.1 x.2 := fun x hx =>
    (List.mem_append.mp hx).elim (htexts₁ x) (htexts₂ x)
  have hsplit : chars.flatten ++ (texts₂.flatMap Prod.fst ++ last ++ quote :: rest) =
      (texts₁ ++ texts₂).flatMap Prod.fst ++ (last ++ quote :: rest) := by
    rw [hflat, List.flatMap_append, List.append_assoc, List.append_assoc]
  have hmem : quote ∈ last ++ quote :: rest :=
    List.mem_append_right _ (List.mem_cons_self ..)
  rw [hsplit, ← hlast]
  constructor
  · rintro ⟨buffer, hdecode⟩
    by_contra hne
    obtain ⟨c, u, rfl⟩ := List.exists_cons_of_ne_nil hne
    have hc : 0x80 ≤ c := hw c (List.mem_append_right _ (List.mem_cons_self ..))
    have hlen : rest.length < (c :: (u ++ quote :: rest)).length := by
      simp only [List.length_cons, List.length_append]
      omega
    have hturn := decodeTurn_get hc (hbroken hne quote (.inl (by decide)) rest) hlen
      ((texts₁ ++ texts₂).flatMap Prod.snd)
    obtain ⟨r, hr, hle⟩ := run_decodeTurn rest
      ((texts₁ ++ texts₂).flatMap Prod.snd ++ stringUtf8Put 0xfffd)
    have hrun := (Loop.run_succ_next _ hturn _).trans hr
    rw [stringUtf8Decode_texts htexts hmem hrun] at hdecode
    have hlen := hle buffer (quote :: rest) hdecode
    rw [List.length_cons] at hlen
    omega
  · rintro rfl
    exact ⟨_, stringUtf8Decode_texts htexts hmem
      (Loop.run_succ_done _ (quote_ends rest ((texts₁ ++ texts₂).flatMap Prod.snd)) 0)⟩

/-! ## What is swallowed -/

theorem StartsCharacter.first {y : Bytes} (h : StartsCharacter y) :
    ∃ c r, y = c :: r ∧ (c.toNat < 0x80 ∨ 0xc0 ≤ c.toNat) := by
  obtain ⟨c, r, hc, rfl⟩ := h
  unfold utf8
  split_ifs with h₁ h₂ h₃
  · exact ⟨_, _, rfl, .inl (by rw [toNat_byte (by omega)]; exact h₁)⟩
  · exact ⟨_, _, rfl, .inr (by rw [toNat_byte (by omega)]; omega)⟩
  · exact ⟨_, _, rfl, .inr (by rw [toNat_byte (by omega)]; omega)⟩
  · have hlt : c < 0x110000 := by
      unfold Scalar at hc
      omega
    exact ⟨_, _, rfl, .inr (by rw [toNat_byte (by omega)]; omega)⟩

theorem BreaksOff.high {x : Bytes} (h : BreaksOff x) : ∀ b ∈ x, 0x80 ≤ b := by
  obtain ⟨hne, c, t, hc, hsplit, ht⟩ := h
  intro b hb
  by_cases hascii : c < 0x80
  · rw [utf8_ascii hascii] at hsplit
    have hlen := congrArg List.length hsplit
    have hx := List.length_pos_iff.mpr hne
    have ht := List.length_pos_iff.mpr ht
    rw [List.length_append, List.length_singleton] at hlen
    omega
  · exact utf8_high hc (Nat.not_lt.mp hascii) b (hsplit ▸ List.mem_append_left t hb)

/-- A sequence that is broken off takes the byte behind it. -/
theorem BreaksOff.get {x : Bytes} (h : BreaksOff x) {c : UInt8}
    (hc : c.toNat < 0x80 ∨ 0xc0 ≤ c.toNat) {n : ℕ} (hn : x.length < n) (r : Bytes) :
    stringUtf8Get (x ++ c :: r) n = .ok (0xfffd, r) := by
  rcases stringUtf8Get_scan h.1 h.high with ⟨v, w', code, rfl, hv, hfour, -, htaken⟩ |
    ⟨-, -, htaken⟩
  · obtain ⟨-, a, t, ha, hsplit, ht⟩ := h
    have hget := stringUtf8Get_scalar ha (utf8_length_le a) []
    rw [hsplit, List.append_nil, List.append_assoc, htaken 4 hfour] at hget
    have hnil := (Prod.mk.inj (Except.ok.inj hget)).2
    exact absurd (List.append_eq_nil_iff.mp hnil).2 ht
  · exact htaken c hc n hn r

/-- Where a multi-byte sequence is broken off by the start of a character, `string_utf8_get`
always takes a byte of it. What is encoded has the ASCII bytes of the input, and a quotation mark
ends what is decoded, when they do not come in the middle of a sequence. -/
theorem stringUtf8Get_swallows {x y : Bytes} (hx : BreaksOff x) (hy : StartsCharacter y)
    (s : Bytes) (ascii : Bool) {chars : List Bytes} (hchars : ∀ w ∈ chars, WholeText w)
    {w : Bytes} (hw : ∀ c ∈ w, 0x80 ≤ c) (rest : Bytes) :
    ¬ (∃ code q, stringUtf8Get (x ++ y) (x ++ y).length = .ok (code, q) ∧ y <:+ q) ∧
    ((∃ out, stringUtf8Encode s ascii = .ok out ∧ asciiChars [] out = s.filter (· < 0x80)) ↔
      keepsAll stateAccept s = true) ∧
    ((∃ buffer, stringUtf8Decode (chars.flatten ++ (w ++ quote :: rest)) =
      .ok (buffer, quote :: rest)) ↔ scanState w = stateAccept) := by
  refine ⟨?_, ?_, stringUtf8Decode_ends_iff hchars hw rest⟩
  · rintro ⟨code, q, hget, hsuffix⟩
    obtain ⟨c, r, rfl, hc⟩ := hy.first
    have hlen : x.length < (x ++ c :: r).length := by
      rw [List.length_append, List.length_cons]
      omega
    rw [hx.get hc hlen r] at hget
    obtain rfl := (Prod.mk.inj (Except.ok.inj hget)).2
    have hle := hsuffix.length_le
    rw [List.length_cons] at hle
    omega
  · obtain ⟨out, hencode, hkept⟩ := stringUtf8Encode_kept s ascii
    rw [← keptBytes_eq_iff, ← hkept]
    constructor
    · rintro ⟨out', hencode', hout⟩
      rw [hencode] at hencode'
      obtain rfl := Except.ok.inj hencode'
      exact hout
    · intro hout
      exact ⟨out, hencode, hout⟩

theorem stringUtf8Get_swallows_quote :
    ¬ (∃ code q, stringUtf8Get ([0xe4] ++ [quote]) 2 = .ok (code, q) ∧ [quote] <:+ q) ∧
    ((∃ out, stringUtf8Encode [0xe4, quote] false = .ok out ∧
      asciiChars [] out = [0xe4, quote].filter (· < 0x80)) ↔
      keepsAll stateAccept [0xe4, quote] = true) ∧
    ((∃ buffer, stringUtf8Decode (List.flatten [] ++ ([0xff] ++ quote :: [0])) =
      .ok (buffer, quote :: [0])) ↔ scanState [0xff] = stateAccept) :=
  stringUtf8Get_swallows ⟨by decide, 0x4e00, [0xb8, 0x80], by decide, by decide, by decide⟩
    ⟨0x22, [], by decide, by decide⟩ [0xe4, quote] false
    (fun _ h => absurd h List.not_mem_nil) (List.forall_mem_singleton.mpr (by decide)) [0]

theorem stringUtf8Get_loses_quote :
    BreaksOff [0xe4] ∧ StartsCharacter (quote :: [0x41]) ∧
    stringUtf8Get ([0xe4] ++ quote :: [0x41]) 3 = .ok (0xfffd, [0x41]) ∧
    ¬ quote :: [0x41] <:+ [0x41] ∧
    stringUtf8Encode ([0xe4] ++ quote :: [0x41]) false = .ok [0xef, 0xbf, 0xbd, 0x41] ∧
    asciiChars [] [0xef, 0xbf, 0xbd, 0x41] ≠ [quote, 0x41] ∧
    stringUtf8Decode ([0xe4, quote, 0x41] ++ quote :: [0]) =
      .ok ([0xef, 0xbf, 0xbd, 0x41], quote :: [0]) :=
  ⟨⟨by decide, 0x4e00, [0xb8, 0x80], by decide, by decide, by decide⟩,
    ⟨0x22, [0x41], by decide, by decide⟩, by decide, by decide, by decide,
    by decide,
    by decide⟩

end LibReactor
