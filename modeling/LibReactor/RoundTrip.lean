import LibReactor.Canonical
import LibReactor.JsonComplete
import LibReactor.JsonSound
import LibReactor.Escape
import LibReactor.PrintNumber

/-!
# The JSON round trip

In UTF-8 mode the encoder writes a text of the grammar that stands for the value it is
given, so that the decoder makes an equal value of it.
-/

namespace LibReactor

variable {L : Type}

/-! ## Texts of the grammar -/

def Textual (w : Bytes) : Prop := WellFormed w ∧ nul ∉ w

theorem Textual.append {a b : Bytes} (ha : Textual a) (hb : Textual b) : Textual (a ++ b) := by
  refine ⟨ha.1.append hb.1, fun hmem => ?_⟩
  rcases List.mem_append.mp hmem with hmem | hmem
  · exact ha.2 hmem
  · exact hb.2 hmem

theorem textual_ascii {w : Bytes} (h : ∀ c ∈ w, c.toNat < 0x80 ∧ c ≠ nul) : Textual w :=
  ⟨.of_ascii fun c hc => UInt8.lt_iff_toNat_lt.mpr (h c hc).1, fun hmem => (h nul hmem).2 rfl⟩

theorem Textual.cons {x : UInt8} {w : Bytes} (hx : x.toNat < 0x80) (hnul : x ≠ nul)
    (hw : Textual w) : Textual (x :: w) :=
  Textual.append (a := [x]) (textual_ascii fun c hc => by
    rw [List.mem_singleton.mp hc]
    exact ⟨hx, hnul⟩) hw

theorem Textual.flatten {ws : List Bytes} (h : ∀ w ∈ ws, Textual w) : Textual ws.flatten := by
  induction ws with
  | nil => exact textual_ascii (by simp)
  | cons w ws ih =>
    rw [List.flatten_cons]
    exact (h w (by simp)).append (ih fun x hx => h x (List.mem_cons_of_mem w hx))

theorem isdigit_plain {c : UInt8} (h : isdigit c = true) : c.toNat < 0x80 ∧ c ≠ nul := by
  have hx : isxdigit c = true := by
    rw [isxdigit, h]
    rfl
  exact ⟨UInt8.lt_iff_toNat_lt.mp (isxdigit_lt hx), isxdigit_ne_nul hx⟩

theorem Blank.textual {w : Bytes} (h : Blank w) : Textual w :=
  textual_ascii fun c hc => by
    rcases isWhitespace_cases (h c hc) with rfl | rfl | rfl | rfl <;> exact ⟨by decide, by decide⟩

theorem DigitsText.textual {w : Bytes} (h : DigitsText w) : Textual w :=
  textual_ascii fun c hc => isdigit_plain (h.2 c hc)

theorem NumberText.textual {w : Bytes} (h : NumberText w) : Textual w := by
  obtain ⟨minus, int, frac, exp, rfl, hminus, hint, hfrac, hexp⟩ := h
  have hnil : Textual [] := textual_ascii (by simp)
  refine .append ?_ (.append hint.1.textual (.append ?_ ?_))
  · rcases hminus with rfl | rfl
    · exact hnil
    · exact .cons (by decide) (by decide) hnil
  · rcases hfrac with rfl | ⟨ds, rfl, hds⟩
    · exact hnil
    · exact .cons (by decide) (by decide) hds.textual
  · rcases hexp with rfl | ⟨e, sign, ds, rfl, he, hsign, hds⟩
    · exact hnil
    · have hmark : e.toNat < 0x80 ∧ e ≠ nul := by
        rcases he with rfl | rfl <;> exact ⟨by decide, by decide⟩
      rw [List.cons_append]
      refine .cons hmark.1 hmark.2 (.append ?_ hds.1.textual)
      rcases hsign with rfl | rfl | rfl
      · exact hnil
      · exact .cons (by decide) (by decide) hnil
      · exact .cons (by decide) (by decide) hnil

theorem CharText.textual {w : Bytes} (h : CharText w) : Textual w :=
  ⟨h.wellFormed, h.nul_not_mem⟩

theorem StringText.textual {w b : Bytes} (h : StringText w b) : Textual w := by
  obtain ⟨chars, hchars, rfl, -⟩ := h
  refine .cons (by decide) (by decide) (.append (.flatten fun c hc => (hchars c hc).textual) ?_)
  exact .cons (by decide) (by decide) (textual_ascii (by simp))

section Grammar

variable {strtold : Bytes → L × Bool}

theorem Textual.bracket {w : Bytes} {opened closed : UInt8} (hw : Textual w)
    (ho : opened.toNat < 0x80 ∧ opened ≠ nul) (hc : closed.toNat < 0x80 ∧ closed ≠ nul) :
    Textual (opened :: (w ++ [closed])) :=
  .cons ho.1 ho.2 (hw.append (.cons hc.1 hc.2 (textual_ascii (by simp))))

theorem Textual.comma {w w' : Bytes} (hw : Textual w) (hw' : Textual w') :
    Textual (w ++ ch ',' :: w') :=
  hw.append (.cons (by decide) (by decide) hw')

mutual

theorem JsonValue.textual : {w : Bytes} → {t : Tree L} → JsonValue strtold w t → Textual w
  | _, _, .null => textual_ascii (by decide +kernel)
  | _, _, .boolTrue => textual_ascii (by decide +kernel)
  | _, _, .boolFalse => textual_ascii (by decide +kernel)
  | _, _, .number h _ => h.textual
  | _, _, .string h => h.textual
  | _, _, .emptyArray h => h.textual.bracket (by decide) (by decide)
  | _, _, .array h => (JsonElements.textual h).bracket (by decide) (by decide)
  | _, _, .emptyObject h => h.textual.bracket (by decide) (by decide)
  | _, _, .object h => (JsonMembers.textual h).bracket (by decide) (by decide)

theorem JsonElement.textual : {w : Bytes} → {t : Tree L} → JsonElement strtold w t → Textual w
  | _, _, .mk ha h hb => ha.textual.append ((JsonValue.textual h).append hb.textual)

theorem JsonElements.textual : {w : Bytes} → {ts : List (Tree L)} → JsonElements strtold w ts →
    Textual w
  | _, _, .one h => JsonElement.textual h
  | _, _, .more h h' => (JsonElements.textual h).comma (JsonElement.textual h')

theorem JsonMember.textual : {w : Bytes} → {m : Bytes × Tree L} → JsonMember strtold w m →
    Textual w
  | _, _, .mk ha hk hb h => ha.textual.append (hk.textual.append
      (hb.textual.append (.cons (by decide) (by decide) (JsonElement.textual h))))

theorem JsonMembers.textual : {w : Bytes} → {ms : List (Bytes × Tree L)} →
    JsonMembers strtold w ms → Textual w
  | _, _, .one h => JsonMember.textual h
  | _, _, .more h h' => (JsonMembers.textual h).comma (JsonMember.textual h')

end

end Grammar

/-! ## Strings and numbers -/

theorem encodeChar_charText {c : ℕ} (hc : Scalar c) : CharText (encodeChar false c) := by
  rw [encodeChar]
  by_cases hascii : c < 0x80
  · rw [if_pos hascii]
    cases hregular : stringUtf8Regular (byte c) with
    | true =>
      rw [if_pos rfl, ← utf8_ascii hascii]
      obtain ⟨-, h20, hquote, hbackslash⟩ := unescaped_of_regular hregular
      rw [toNat_byte (by omega)] at h20 hquote hbackslash
      exact .unescaped hc h20 hquote hbackslash
    | false =>
      rw [if_neg Bool.false_ne_true]
      exact (escapeByte_reads hascii).1
  · rw [if_neg hascii, if_neg Bool.false_ne_true, stringUtf8Put_scalar hc]
    exact .unescaped hc (by omega) (by omega) (by omega)

/-- `value_buffer_encode_string` writes a string of the grammar for a well-formed string. -/
theorem stringText_quotedText {s : Bytes} (hs : WellFormed s) :
    StringText (quotedText false s) s := by
  obtain ⟨cs, hcs, rfl⟩ := hs
  have hquoted : quotedText false (cs.flatMap utf8) =
      quote :: (cs.flatMap (encodeChar false) ++ [quote]) := by
    simp only [quotedText, stringUtf8Encode_chars hcs, Except.toOption, Option.getD_some]
  have hdecode := stringUtf8Decode_encodeChar false hcs []
  have hread : cs.flatMap (fun c => utf8 (readChar false c)) = cs.flatMap utf8 := rfl
  rw [hread] at hdecode
  refine ⟨cs.map (encodeChar false), fun w hw => ?_, ?_, ?_⟩
  · obtain ⟨c, hc, rfl⟩ := List.mem_map.mp hw
    exact encodeChar_charText (hcs c hc)
  · rw [hquoted, List.flatMap_def]
  · rw [← List.flatMap_def]
    exact hdecode

def decimalInt (z : ℤ) : Bytes :=
  (if z < 0 then [ch '-'] else []) ++ decimal z.natAbs

theorem numberText_decimalInt (z : ℤ) : NumberText (decimalInt z) := by
  refine ⟨if z < 0 then [ch '-'] else [], decimal z.natAbs, [], [], ?_, ?_,
    intText_decimal _, .inl rfl, .inl rfl⟩
  · rw [decimalInt, List.append_nil, List.append_nil]
  · split_ifs
    · exact .inr rfl
    · exact .inl rfl

/-! ## The text of a tree is a derivation of it -/

section Derivation

variable {strtold : Bytes → L × Bool}

theorem JsonElements.cons {w : Bytes} {t : Tree L} (h : JsonElement strtold w t) :
    {w' : Bytes} → {ts : List (Tree L)} → JsonElements strtold w' ts →
    JsonElements strtold (w ++ ch ',' :: w') (t :: ts)
  | _, _, .one h' => .more (.one h) h'
  | _, _, .more h' h'' => by
    have hmore := JsonElements.more (JsonElements.cons h h') h''
    rw [List.append_assoc, List.cons_append] at hmore
    exact hmore

theorem JsonMembers.cons {w : Bytes} {m : Bytes × Tree L} (h : JsonMember strtold w m) :
    {w' : Bytes} → {ms : List (Bytes × Tree L)} → JsonMembers strtold w' ms →
    JsonMembers strtold (w ++ ch ',' :: w') (m :: ms)
  | _, _, .one h' => .more (.one h) h'
  | _, _, .more h' h'' => by
    have hmore := JsonMembers.more (JsonMembers.cons h h') h''
    rw [List.append_assoc, List.cons_append] at hmore
    exact hmore

/-- Items that have texts are written with commas between them. -/
theorem joinItems_derives {α : Type} (separator : Bytes) (One : Bytes → α → Prop)
    (All : Bytes → List α → Prop) (f : α → Bytes × Option Bytes)
    (hone : ∀ {w a}, One w a → All w [a])
    (hcons : ∀ {w a w' as}, One w a → All w' as → All (w ++ ch ',' :: w') (a :: as)) {as : List α}
    (hne : as ≠ [])
    (hitem : ∀ a ∈ as, ∃ w, (f a).2 = some w ∧ One (separator ++ ((f a).1 ++ w)) a) :
    ∃ body, joinItems separator true (as.map f) = some body ∧ All body as := by
  induction as with
  | nil => exact absurd rfl hne
  | cons a as ih =>
    obtain ⟨w, hw, ha⟩ := hitem a (by simp)
    by_cases hrest : as = []
    · subst hrest
      refine ⟨separator ++ ((f a).1 ++ w), ?_, hone ha⟩
      simp [joinItems, hw]
    · obtain ⟨body, hbody, hall⟩ := ih hrest fun x hx => hitem x (List.mem_cons_of_mem a hx)
      have hfalse : joinItems separator false (as.map f) = some (ch ',' :: body) := by
        obtain ⟨b, bs, rfl⟩ := List.exists_cons_of_ne_nil hrest
        rw [List.map_cons, joinItems] at hbody ⊢
        cases htext : (f b).2 with
        | none => simp [htext] at hbody
        | some v =>
          cases hjoin : joinItems separator false (bs.map f) with
          | none => simp [htext, hjoin] at hbody
          | some rest =>
            simp only [htext, hjoin, Option.bind_eq_bind, Option.bind_some, Option.pure_def,
              if_true, Bool.false_eq_true, if_false, List.nil_append, Option.some.injEq] at hbody ⊢
            rw [hbody]
            rfl
      refine ⟨(separator ++ ((f a).1 ++ w)) ++ ch ',' :: body, ?_, hcons ha hall⟩
      simp [joinItems, hw, hfalse]

theorem blank_newline (pretty : Bool) (depth : ℕ) : Blank (newline pretty depth) := by
  intro c hc
  unfold newline at hc
  split_ifs at hc
  · rcases List.mem_cons.mp hc with rfl | hc
    · decide
    · rw [(List.mem_replicate.mp hc).2]
      decide
  · cases hc

/-- A tree of integers below 2^63, well-formed strings and keys, arrays and objects. -/
inductive Plain (ofInt : ℤ → L) : Tree L → Prop
  | null : Plain ofInt .null
  | bool (b : Bool) : Plain ofInt (.bool b)
  | number {z : ℤ} : z.natAbs < 2 ^ 63 → Plain ofInt (.number (ofInt z))
  | string {s : Bytes} : WellFormed s → Plain ofInt (.string s)
  | array {ts : List (Tree L)} : (∀ t ∈ ts, Plain ofInt t) → Plain ofInt (.array ts)
  | object {ms : List (Bytes × Tree L)} : (∀ m ∈ ms, WellFormed m.1) →
      (∀ m ∈ ms, Plain ofInt m.2) → Plain ofInt (.object ms)

variable {ofInt : ℤ → L} {print : L → Bytes} {pretty : Bool}

theorem jsonMember_of_text {key w : Bytes} {t : Tree L} (depth : ℕ) (hkey : WellFormed key)
    (hw : JsonValue strtold w t) : JsonMember strtold
      (newline pretty depth ++ (keyText ⟨pretty, false⟩ key ++ w)) (key, t) := by
  have hblank : Blank (if pretty then [ch ' '] else []) := by
    intro c hc
    split_ifs at hc
    · rw [List.mem_singleton.mp hc]
      decide
    · cases hc
  have hmember := JsonMember.mk (blank_newline pretty depth) (stringText_quotedText hkey)
    (b := []) (by simp [Blank]) (JsonElement.mk hblank hw (b := []) (by simp [Blank]))
  simpa only [keyText, List.append_assoc, List.cons_append, List.nil_append,
    List.append_nil] using hmember

variable (hprint : ∀ z : ℤ, z.natAbs < 2 ^ 63 → print (ofInt z) = decimalInt z)
  (hstrtold : ∀ z : ℤ, z.natAbs < 2 ^ 63 → strtold (decimalInt z) = (ofInt z, false))

include hprint hstrtold

/-- In UTF-8 mode the text of a tree derives the tree. -/
theorem Plain.text {t : Tree L} (h : Plain ofInt t) :
    ∀ depth, ∃ w, t.text print ⟨pretty, false⟩ depth = some w ∧ JsonValue strtold w t := by
  induction h with
  | null => exact fun depth => ⟨_, rfl, .null⟩
  | bool b =>
    intro depth
    cases b
    · exact ⟨_, rfl, .boolFalse⟩
    · exact ⟨_, rfl, .boolTrue⟩
  | @number z hz =>
    intro depth
    have hvalue : (strtold (decimalInt z)).2 = false →
        JsonValue strtold (decimalInt z) (.number (strtold (decimalInt z)).1) :=
      .number (numberText_decimalInt z)
    rw [hstrtold z hz] at hvalue
    exact ⟨_, congrArg some (hprint z hz), hvalue rfl⟩
  | string hs => exact fun depth => ⟨_, rfl, .string (stringText_quotedText hs)⟩
  | @array ts _ ih =>
    intro depth
    by_cases hne : ts = []
    · subst hne
      exact ⟨[ch '[', ch ']'], rfl, .emptyArray (w := []) (by simp [Blank])⟩
    · have hitem : ∀ t ∈ ts, ∃ w, t.text print ⟨pretty, false⟩ (depth + 1) = some w ∧
          JsonElement strtold (newline pretty (depth + 1) ++ ([] ++ w)) t := by
        intro t ht
        obtain ⟨w, hw, hvalue⟩ := ih t ht (depth + 1)
        have helement := JsonElement.mk (blank_newline pretty (depth + 1)) hvalue (b := [])
          (by simp [Blank])
        rw [List.append_nil] at helement
        exact ⟨w, hw, helement⟩
      obtain ⟨body, hbody, helements⟩ := joinItems_derives
        (newline pretty (depth + 1)) (JsonElement strtold) (JsonElements strtold)
        (fun t => ([], t.text print ⟨pretty, false⟩ (depth + 1))) JsonElements.one
        (fun h h' => JsonElements.cons h h') hne hitem
      have hvalue := JsonValue.array (helements.blank (blank_newline pretty depth))
      rw [List.append_assoc] at hvalue
      refine ⟨_, ?_, hvalue⟩
      have hmap : ts.map (fun t => (([] : Bytes), t.text print ⟨pretty, false⟩ (depth + 1))) ≠ [] :=
        fun h => hne (List.map_eq_nil_iff.mp h)
      rw [Tree.text, Tree.textList_eq, bracketText, hbody, if_neg hmap, Option.map_some]
  | @object ms hkeys _ ih =>
    intro depth
    by_cases hne : ms = []
    · subst hne
      exact ⟨[ch '{', ch '}'], rfl, .emptyObject (w := []) (by simp [Blank])⟩
    · have hitem : ∀ m ∈ ms, ∃ w, m.2.text print ⟨pretty, false⟩ (depth + 1) = some w ∧
          JsonMember strtold (newline pretty (depth + 1) ++ (keyText ⟨pretty, false⟩ m.1 ++ w))
            m := by
        intro m hm
        obtain ⟨w, hw, hvalue⟩ := ih m hm (depth + 1)
        exact ⟨w, hw, jsonMember_of_text (depth + 1) (hkeys m hm) hvalue⟩
      obtain ⟨body, hbody, hmembers⟩ := joinItems_derives
        (newline pretty (depth + 1)) (JsonMember strtold) (JsonMembers strtold)
        (fun m => (keyText ⟨pretty, false⟩ m.1, m.2.text print ⟨pretty, false⟩ (depth + 1)))
        JsonMembers.one (fun h h' => JsonMembers.cons h h') hne hitem
      have hvalue := JsonValue.object (hmembers.blank (blank_newline pretty depth))
      rw [List.append_assoc] at hvalue
      refine ⟨_, ?_, hvalue⟩
      have hmap : ms.map (fun m => (keyText ⟨pretty, false⟩ m.1,
          m.2.text print ⟨pretty, false⟩ (depth + 1))) ≠ [] :=
        fun h => hne (List.map_eq_nil_iff.mp h)
      rw [Tree.text, Tree.textMembers_eq, bracketText, hbody, if_neg hmap, Option.map_some]

omit hprint hstrtold in
theorem Tree.Increasing.resolve {t : Tree L} (h : t.Increasing) : t.resolve = t := by
  induction h with
  | @array ts _ ih =>
    rw [Tree.resolve, Tree.resolveList_eq, List.map_congr_left ih, List.map_id']
  | @object ms hkeys _ ih =>
    have hmembers : Tree.resolveMembers ms = ms := by
      rw [Tree.resolveMembers_eq, List.map_congr_left (fun m hm => by rw [ih m hm]), List.map_id']
    have hnodup : (ms.map Prod.fst).Nodup := hkeys.imp fun hlt heq => by
      rw [heq] at hlt
      exact List.lt_irrefl _ hlt
    have hsorted : sortMembers ms = ms := by
      refine List.mergeSort_of_pairwise ?_
      rw [List.pairwise_map] at hkeys
      exact hkeys.imp fun hlt => decide_eq_true (keysCompare_of_lt hlt)
    rw [Tree.resolve, hmembers, Tree.lastWins_of_nodup hnodup, hsorted]
  | _ => rfl

/-- In UTF-8 mode a value of integers, well-formed strings and keys, arrays and objects is
encoded, and the decoder makes an equal value of the text. -/
theorem valueDecode_valueEncode (hashData : Bytes → UInt64) {v : Value L} (hv : Built hashData v)
    (hplain : Plain ofInt v.tree) :
    ∃ s, valueEncode hashData print v ⟨pretty, false⟩ = .ok (some s) ∧ (s.length < 2 ^ 64 →
      ∃ r, valueDecode hashData strtold (s ++ [nul]) = .ok r ∧ r.value.tree = v.tree ∧
        r.endAt = some [nul]) := by
  obtain ⟨s, hs, hvalue⟩ : ∃ w, v.tree.text print ⟨pretty, false⟩ 0 = some w ∧
      JsonValue strtold w v.tree := hplain.text hprint hstrtold 0
  have hencode : valueEncode hashData print v ⟨pretty, false⟩ =
      .ok (v.tree.text print ⟨pretty, false⟩ 0) := hv.consistent.valueEncode
  have helement := JsonElement.mk (a := []) (by simp [Blank]) hvalue (b := []) (by simp [Blank])
  rw [List.append_nil, List.nil_append] at helement
  refine ⟨s, by rw [hencode, hs], fun hlen => ?_⟩
  obtain ⟨r, hdecode, htree, -, hend, -⟩ := helement.decode hashData helement.textual.1
    helement.textual.2 hlen
  exact ⟨r, hdecode, htree.trans hv.consistent.increasing.resolve, hend⟩

end Derivation

/-! An array in an object, with a negative number and a NUL. -/

def natOf (w : Bytes) : ℕ := w.foldl (fun n c => 10 * n + (c.toNat - 48)) 0

def intOf (w : Bytes) : ℤ := if w.head? = some (ch '-') then -natOf w.tail else natOf w

theorem natOf_decimal (n : ℕ) : natOf (decimal n) = n := by
  by_cases h0 : n = 0
  · subst h0
    rfl
  · rw [natOf, decimal, if_neg h0, List.foldl_map, List.foldl_reverse]
    have hdigits := Nat.ofDigits_digits 10 n
    rw [Nat.ofDigits_eq_foldr] at hdigits
    refine Eq.trans (List.foldr_ext _ _ 0 fun d hd m => ?_) hdigits
    have hlt := Nat.digits_lt_base (by decide : 1 < 10) hd
    rw [toNat_byte (by omega), Nat.cast_id]
    omega

theorem intOf_decimalInt (z : ℤ) : intOf (decimalInt z) = z := by
  by_cases hz : z < 0
  · have htext : decimalInt z = ch '-' :: decimal z.natAbs := by
      rw [decimalInt, if_pos hz, List.singleton_append]
    have hvalue : intOf (decimalInt z) = -(z.natAbs : ℤ) := by
      rw [htext, intOf, List.head?_cons, if_pos rfl, List.tail_cons, natOf_decimal]
    omega
  · have htext : decimalInt z = decimal z.natAbs := by
      rw [decimalInt, if_neg hz, List.nil_append]
    have hhead : (decimal z.natAbs).head? ≠ some (ch '-') := by
      intro hhead
      have hdigit := isdigit_decimal z.natAbs _ (List.mem_of_mem_head? hhead)
      exact absurd hdigit (by decide)
    have hvalue : intOf (decimalInt z) = (z.natAbs : ℤ) := by
      rw [htext, intOf, if_neg hhead, natOf_decimal]
    omega

theorem valueDecode_valueEncode_array :
    let v := firstSlots [(some (str "a"), .array [.number (-7), .string [0]])]
    ∃ s, valueEncode (fun _ => 0) decimalInt v ⟨true, false⟩ = .ok (some s) ∧ (s.length < 2 ^ 64 →
      ∃ r, valueDecode (fun _ => 0) (fun w => (intOf w, false)) (s ++ [nul]) = .ok r ∧
        r.value.tree = v.tree ∧ r.endAt = some [nul]) := by
  have hempty : Built (fun _ => 0) (firstSlots (L := ℤ) []) := .newObject rfl
  have hnul : WellFormed [nul] := ⟨[0], by simp [Scalar], rfl⟩
  have hkey : WellFormed (str "a") := ⟨[0x61], by simp [Scalar], by decide⟩
  have harray : Built (fun _ => 0) (.array [.number (-7 : ℤ), .string [nul]]) := by
    refine .array fun v hv => ?_
    simp only [List.mem_cons, List.not_mem_nil, or_false] at hv
    rcases hv with rfl | rfl
    · exact .number _
    · exact .string _
  have hplain : Plain id (.array [.number (-7 : ℤ), .string [nul]]) := by
    refine .array fun t ht => ?_
    simp only [List.mem_cons, List.not_mem_nil, or_false] at ht
    rcases ht with rfl | rfl
    · exact .number (z := -7) (by decide)
    · exact .string hnul
  have htree : (firstSlots [(some (str "a"), .array [.number (-7 : ℤ), .string [nul]])]).tree =
      .object [(str "a", .array [.number (-7), .string [nul]])] := by
    have hentries : Value.treeEntries ((some (str "a"), .array [.number (-7 : ℤ), .string [nul]]) ::
        List.replicate 7 (none, .undefined)) =
      [(str "a", .array [.number (-7), .string [nul]])] := rfl
    exact congrArg Tree.object ((congrArg sortMembers hentries).trans (List.mergeSort_singleton _))
  refine valueDecode_valueEncode (fun z _ => rfl)
    (fun z _ => congrArg (·, false) (intOf_decimalInt z)) (fun _ => 0)
    (built_firstSlots hempty (by decide) (str "a") harray rfl) ?_
  rw [htree]
  refine .object (fun m hm => ?_) fun m hm => ?_
  · rw [List.mem_singleton.mp hm]
    exact hkey
  · rw [List.mem_singleton.mp hm]
    exact hplain

end LibReactor
