import LibReactor.JsonNumber
import LibReactor.JsonString

/-!
# The JSON decoder accepts the grammar

A value of the grammar takes the decoder from `STATE_VALUE_START` to
`STATE_VALUE_END` with the value in hand, whatever is on the stack. The elements of
an array and the members of an object are collected in the value on top of it.
-/

namespace LibReactor

variable {L : Type}

/-! ## Tokens -/

def isDelimiter (c : UInt8) : Bool :=
  isWhitespace c || c == ch ',' || c == ch ']' || c == ch '}' || c == nul

def Delimited (r : Bytes) : Prop := ∃ c t, r = c :: t ∧ isDelimiter c = true

theorem isDelimiter_cases {c : UInt8} (h : isDelimiter c = true) :
    c = space ∨ c = lf ∨ c = cr ∨ c = tab ∨ c = ch ',' ∨ c = ch ']' ∨ c = ch '}' ∨ c = nul := by
  simp only [isDelimiter, isWhitespace, Bool.or_eq_true, beq_iff_eq] at h
  tauto

theorem endsNumber_of_isDelimiter {c : UInt8} (h : isDelimiter c = true) :
    endsNumber c = true := by
  rcases isDelimiter_cases h with rfl | rfl | rfl | rfl | rfl | rfl | rfl | rfl <;> decide

theorem Delimited.blank {b r : Bytes} (hb : Blank b) (hr : Delimited r) : Delimited (b ++ r) := by
  cases b with
  | nil => exact hr
  | cons c b => exact ⟨c, b ++ r, rfl, by simp [isDelimiter, hb c (by simp)]⟩

theorem matchLiteral_append (w r : Bytes) : matchLiteral w (w ++ r) = .ok true := by
  induction w with
  | nil => rfl
  | cons c w ih => simpa [matchLiteral] using ih

theorem NumberText.head {w : Bytes} (h : NumberText w) :
    ∃ c u, w = c :: u ∧ (isdigit c = true ∨ c = ch '-') := by
  obtain ⟨minus, int, frac, exp, rfl, hminus, hint, -, -⟩ := h
  obtain ⟨d, ds, rfl, hd, -⟩ := hint.1.exists_cons
  rcases hminus with rfl | rfl
  · exact ⟨d, _, rfl, .inl hd⟩
  · exact ⟨_, _, rfl, .inr rfl⟩

theorem isWhitespace_cases {c : UInt8} (h : isWhitespace c = true) :
    c = space ∨ c = lf ∨ c = cr ∨ c = tab := by
  simpa [isWhitespace, or_assoc] using h

theorem isWhitespace_number {c : UInt8} (h : isdigit c = true ∨ c = ch '-') :
    isWhitespace c = false := by
  by_contra hws
  rcases isWhitespace_cases (by simpa using hws) with rfl | rfl | rfl | rfl <;>
    exact absurd h (by decide)

theorem JsonValue.head {strtold : Bytes → L × Bool} {w : Bytes} {t : Tree L}
    (h : JsonValue strtold w t) : ∃ c u, w = c :: u ∧ isWhitespace c = false := by
  cases h with
  | null => exact ⟨_, _, rfl, by decide⟩
  | boolTrue => exact ⟨_, _, rfl, by decide⟩
  | boolFalse => exact ⟨_, _, rfl, by decide⟩
  | number hw =>
    obtain ⟨c, u, rfl, hc⟩ := hw.head
    exact ⟨c, u, rfl, isWhitespace_number hc⟩
  | string hw =>
    obtain ⟨-, u, rfl⟩ := hw.decode []
    exact ⟨_, u, rfl, by decide⟩
  | emptyArray => exact ⟨_, _, rfl, by decide⟩
  | array => exact ⟨_, _, rfl, by decide⟩
  | emptyObject => exact ⟨_, _, rfl, by decide⟩
  | object => exact ⟨_, _, rfl, by decide⟩

/-! ## Turns -/

section Turns

variable {hashData : Bytes → UInt64} {strtold : Bytes → L × Bool}

theorem valueDecodeTurn_blank {b : Bytes} (hb : Blank b) {c : UInt8}
    (hc : isWhitespace c = false) (state : DecodeState) (t : Bytes) (stack : List (Value L))
    (v : Value L) (l : ℤ) :
    valueDecodeTurn hashData strtold ⟨state, b ++ c :: t, stack, v, l⟩ =
      decodeState hashData strtold ⟨state, c :: t, stack, v, l⟩ := by
  have hskip : valueDecodeWhitespace (b ++ c :: t) = .ok (c :: t) := by
    rw [valueDecodeWhitespace, skipWhile_append hb, skipWhile_of_not hc]
  simp only [valueDecodeTurn, hskip, ok_bind]

variable (hashData strtold)

/-- The turns of the decoder lead from one state to another. -/
abbrev Decodes (d d' : Decoder L) : Prop := Loop.Leads (valueDecodeTurn hashData strtold) d d'

variable {hashData strtold}

theorem Decodes.blank {b : Bytes} (hb : Blank b) {c : UInt8} (hc : isWhitespace c = false)
    {state : DecodeState} {t : Bytes} {stack : List (Value L)} {v : Value L} {l : ℤ}
    {d d' : Decoder L}
    (hstep : decodeState hashData strtold ⟨state, c :: t, stack, v, l⟩ = .ok (.inr d))
    (h : Decodes hashData strtold d d') :
    Decodes hashData strtold ⟨state, b ++ c :: t, stack, v, l⟩ d' :=
  .head ((valueDecodeTurn_blank hb hc state t stack v l).trans hstep) h

theorem Decodes.token {c : UInt8} (hc : isWhitespace c = false) {state : DecodeState} {t : Bytes}
    {stack : List (Value L)} {v : Value L} {l : ℤ} {d d' : Decoder L}
    (hstep : decodeState hashData strtold ⟨state, c :: t, stack, v, l⟩ = .ok (.inr d))
    (h : Decodes hashData strtold d d') :
    Decodes hashData strtold ⟨state, c :: t, stack, v, l⟩ d' :=
  Decodes.blank (b := []) nofun hc hstep h

theorem Decodes.start {c : UInt8} (hc : isWhitespace c = false) {t : Bytes}
    {stack : List (Value L)} {v : Value L} {l : ℤ} {d' : Decoder L}
    (h : Decodes hashData strtold ⟨valueStartState c, c :: t, stack, v, l⟩ d') :
    Decodes hashData strtold ⟨.valueStart, c :: t, stack, v, l⟩ d' :=
  Decodes.token hc rfl h

theorem Decodes.reduce {b : Bytes} (hb : Blank b) {c : UInt8} (hc : isWhitespace c = false)
    {t : Bytes} {parent : Value L} {stack : List (Value L)} {v : Value L} {l : ℤ}
    {d d' : Decoder L} (hv : v.isUndefined = false)
    (hstep : decodeReduce hashData ⟨.reduce, c :: t, parent :: stack, v, l⟩ = .ok d)
    (h : Decodes hashData strtold d d') :
    Decodes hashData strtold ⟨.valueEnd, b ++ c :: t, parent :: stack, v, l⟩ d' := by
  refine Decodes.blank hb hc (d := ⟨.reduce, c :: t, parent :: stack, v, l⟩) ?_
    (Decodes.token hc ?_ h)
  · simp only [decodeState, hv, Bool.false_eq_true, if_false, List.isEmpty_cons, pure_eq_ok]
  · simp only [decodeState, hstep]
    rfl

end Turns

/-! ## Productions -/

section Productions

variable {hashData : Bytes → UInt64} {strtold : Bytes → L × Bool}

def Closed (r : Bytes) : Prop :=
  ∃ c t, r = c :: t ∧ isDelimiter c = true ∧ isWhitespace c = false

theorem Closed.delimited {r : Bytes} (h : Closed r) : Delimited r := by
  obtain ⟨c, t, rfl, hc, -⟩ := h
  exact ⟨c, t, rfl, hc⟩

variable (hashData strtold)

/-- A text that takes the decoder from `STATE_VALUE_START` to `STATE_VALUE_END`. -/
def ReadsValue (w : Bytes) (t : Tree L) : Prop :=
  ∀ r stack l, Delimited r → t.width ≤ 2 ^ 62 → ∃ v l',
    Decodes hashData strtold ⟨.valueStart, w ++ r, stack, .undefined, l⟩
      ⟨.valueEnd, r, stack, v, l'⟩ ∧ v.tree = t.resolve ∧ v.isUndefined = false

def ReadsElement (w : Bytes) (t : Tree L) : Prop :=
  ∀ r stack l, Closed r → t.width ≤ 2 ^ 62 → ∃ v l' b, Blank b ∧
    Decodes hashData strtold ⟨.valueStart, w ++ r, stack, .undefined, l⟩
      ⟨.valueEnd, b ++ r, stack, v, l'⟩ ∧ v.tree = t.resolve ∧ v.isUndefined = false

def ReadsElements (w : Bytes) (ts : List (Tree L)) : Prop :=
  ∀ r stack l, Closed r → (∀ t ∈ ts, t.width ≤ 2 ^ 62) → ∃ vs l',
    Decodes hashData strtold ⟨.valueStart, w ++ r, .array [] :: stack, .undefined, l⟩
      ⟨.arrayRest, r, .array vs :: stack, .undefined, l'⟩ ∧
    vs.map Value.tree = ts.map Tree.resolve

def ReadsMember (w : Bytes) (x : Bytes × Tree L) : Prop :=
  ∀ r stack l m ms, Closed r → x.2.width ≤ 2 ^ 62 → Holds hashData m ms → ms.length < 2 ^ 62 →
    ∃ m' v l',
      Decodes hashData strtold ⟨.valueStart, w ++ r, .object m :: stack, .undefined, l⟩
        ⟨.objectRest, r, .object m' :: stack, .undefined, l'⟩ ∧
      Holds hashData m' (setMember ms x.1 v) ∧ v.tree = x.2.resolve

def ReadsMembers (w : Bytes) (xs : List (Bytes × Tree L)) : Prop :=
  ∀ r stack l m, Closed r → (∀ x ∈ xs, x.2.width ≤ 2 ^ 62) → xs.length ≤ 2 ^ 62 →
    Holds hashData m [] → ∃ m' ms l',
      Decodes hashData strtold ⟨.valueStart, w ++ r, .object m :: stack, .undefined, l⟩
        ⟨.objectRest, r, .object m' :: stack, .undefined, l'⟩ ∧
      Holds hashData m' ms ∧
      ms.map (fun x => (x.1, x.2.tree)) = Tree.lastWins (Tree.resolveMembers xs)

variable {hashData strtold}

theorem ReadsValue.scalar {w : Bytes} {t : Tree L} {c : UInt8} {u : Bytes} (hw : w = c :: u)
    (hc : isWhitespace c = false) (read : Bytes → Except Fault (Value L × Bytes)) {v : Value L}
    (hstate : ∀ d : Decoder L, d.state = valueStartState c →
      decodeState hashData strtold d = .inr <$> decodeScalar read d)
    (hread : ∀ r, Delimited r → read (w ++ r) = .ok (v, r)) (hv : v.tree = t.resolve)
    (hdefined : v.isUndefined = false) : ReadsValue hashData strtold w t := by
  intro r stack l hr _
  refine ⟨v, l + v.objects, ?_, hv, hdefined⟩
  have hread := hread r hr
  rw [hw, List.cons_append] at hread ⊢
  refine Decodes.start hc (Decodes.token hc ?_ (.refl _))
  rw [hstate _ rfl]
  simp only [decodeScalar, hread, ok_bind, pure_eq_ok]
  rfl

theorem readsValue_null : ReadsValue hashData strtold (str "null") (.null : Tree L) := by
  refine .scalar (v := .null) rfl (by decide) valueDecodeNull ?_ (fun r _ => ?_) rfl rfl
  · rintro ⟨_, p, stack, v, l⟩ rfl
    rfl
  · simp only [valueDecodeNull, matchLiteral_append, ok_bind, if_true, pure_eq_ok]
    rfl

theorem readsValue_boolTrue : ReadsValue hashData strtold (str "true") (.bool true : Tree L) := by
  refine .scalar (v := .bool true) rfl (by decide) valueDecodeBool ?_ (fun r _ => ?_)
    rfl rfl
  · rintro ⟨_, p, stack, v, l⟩ rfl
    rfl
  · simp only [valueDecodeBool, matchLiteral_append, ok_bind, if_true, pure_eq_ok]
    rfl

theorem readsValue_boolFalse :
    ReadsValue hashData strtold (str "false") (.bool false : Tree L) := by
  refine .scalar (v := .bool false) rfl (by decide) valueDecodeBool ?_ (fun r _ => ?_)
    rfl rfl
  · rintro ⟨_, p, stack, v, l⟩ rfl
    rfl
  · have hother : matchLiteral (str "true") (str "false" ++ r) = .ok false := rfl
    simp only [valueDecodeBool, matchLiteral_append, hother, ok_bind, Bool.false_eq_true,
      if_false, if_true, pure_eq_ok]
    rfl

theorem readsValue_number {w : Bytes} (hw : NumberText w) (hrange : (strtold w).2 = false) :
    ReadsValue hashData strtold w (.number (strtold w).1) := by
  obtain ⟨c, u, hcu, hc⟩ := hw.head
  have hstate : valueStartState c = .number := by
    have hno : c ≠ ch 'n' ∧ ¬ (c = ch 't' ∨ c = ch 'f') := by
      refine ⟨?_, ?_⟩
      · rintro rfl
        exact absurd hc (by decide)
      · rintro (rfl | rfl)
        · exact absurd hc (by decide)
        · exact absurd hc (by decide)
    rw [valueStartState, if_neg hno.1, if_neg hno.2, if_pos hc]
  refine .scalar (v := .number (strtold w).1) hcu (isWhitespace_number hc)
    (valueDecodeNumber strtold) ?_ (fun r hr => ?_) rfl rfl
  · rintro ⟨_, p, stack, v, l⟩ hd
    rw [hstate] at hd
    cases hd
    rfl
  · obtain ⟨d, t, rfl, hd⟩ := hr
    exact valueDecodeNumber_complete strtold hw hrange (endsNumber_of_isDelimiter hd) t

theorem valueDecodeString_complete {w b : Bytes} (hw : StringText w b) (r : Bytes) :
    valueDecodeString (w ++ r) = (.ok (.string b, r) : Except Fault (Value L × Bytes)) := by
  simp only [valueDecodeString, (hw.decode r).1, ok_bind, peek_cons, ne_eq, not_true_eq_false,
    if_false, List.tail_cons, pure_eq_ok]

theorem readsValue_string {w b : Bytes} (hw : StringText w b) :
    ReadsValue hashData strtold w (.string b : Tree L) := by
  obtain ⟨-, u, hu⟩ := hw.decode []
  refine .scalar (v := .string b) hu (by decide) valueDecodeString ?_
    (fun r _ => valueDecodeString_complete hw r) rfl rfl
  rintro ⟨_, p, stack, v, l⟩ rfl
  rfl

theorem readsValue_emptyArray {w : Bytes} (hw : Blank w) :
    ReadsValue hashData strtold (ch '[' :: (w ++ [ch ']'])) (.array [] : Tree L) := by
  intro r stack l _ _
  refine ⟨.array [], l + 1, ?_, rfl, rfl⟩
  rw [List.cons_append, List.append_assoc]
  refine Decodes.start (by decide) (Decodes.token (by decide) rfl ?_)
  exact Decodes.blank hw (by decide) rfl
    (Decodes.token (by decide) rfl (Decodes.token (by decide) rfl (.refl _)))

theorem readsValue_emptyObject {w : Bytes} (hw : Blank w) :
    ReadsValue hashData strtold (ch '{' :: (w ++ [ch '}'])) (.object [] : Tree L) := by
  intro r stack l _ _
  obtain ⟨m, hnew, hm⟩ := holds_newObject (L := L) hashData
  refine ⟨.object m, l + (Value.object m).objects, ?_, ?_, rfl⟩
  · rw [List.cons_append, List.append_assoc]
    refine Decodes.start (by decide) (Decodes.token (by decide)
      (d := ⟨.valueStart, w ++ ([ch '}'] ++ r), .object m :: stack, .undefined,
        l + (Value.object m).objects⟩) ?_ ?_)
    · simp only [decodeState, valueStartState, hnew]
      rfl
    refine Decodes.blank hw (by decide)
      (d := ⟨.objectEmpty, ch '}' :: r, .object m :: stack, .undefined,
        l + (Value.object m).objects⟩) rfl (Decodes.token (by decide) ?_
        (d := ⟨.objectEnd, ch '}' :: r, .object m :: stack, .undefined,
          l + (Value.object m).objects⟩) (Decodes.token (by decide) rfl (.refl _)))
    · have hsize : (Value.object m).objectSize = 0 := hm.size
      simp only [decodeState, decodeEmpty, Value.isObject, hsize, beq_self_eq_true, Bool.and_true,
        if_true, pure_eq_ok]
  · rw [hm.tree]
    rfl

theorem closed_of {c : UInt8} (h : isDelimiter c = true) (h' : isWhitespace c = false)
    (t : Bytes) : Closed (c :: t) :=
  ⟨c, t, rfl, h, h'⟩

theorem readsElement {a w b : Bytes} {t : Tree L} (ha : Blank a) (hw : JsonValue strtold w t)
    (hread : ReadsValue hashData strtold w t) (hb : Blank b) :
    ReadsElement hashData strtold (a ++ (w ++ b)) t := by
  intro r stack l hr hwidth
  obtain ⟨v, l', hleads, htree, hdefined⟩ := hread (b ++ r) stack l (hr.delimited.blank hb) hwidth
  refine ⟨v, l', b, hb, ?_, htree, hdefined⟩
  obtain ⟨c, u, rfl, hc⟩ := hw.head
  simp only [List.append_assoc, List.cons_append] at hleads ⊢
  refine hleads.congr ?_ (by simp)
  rw [valueDecodeTurn_blank ha hc]
  exact (valueDecodeTurn_blank (b := []) nofun hc _ _ _ _ _).symm

/-- One element more for the array on top of the stack. -/
theorem ReadsElement.append {w : Bytes} {t : Tree L} (h : ReadsElement hashData strtold w t)
    {r : Bytes} (hr : Closed r) (hwidth : t.width ≤ 2 ^ 62) (vs stack : List (Value L)) (l : ℤ) :
    ∃ v l', Decodes hashData strtold ⟨.valueStart, w ++ r, .array vs :: stack, .undefined, l⟩
      ⟨.arrayRest, r, .array (vs ++ [v]) :: stack, .undefined, l'⟩ ∧ v.tree = t.resolve := by
  obtain ⟨v, l', b, hb, hleads, htree, hdefined⟩ := h r (.array vs :: stack) l hr hwidth
  obtain ⟨c, u, rfl, -, hc⟩ := hr
  exact ⟨v, l', hleads.trans (Decodes.reduce hb hc hdefined rfl (.refl _)), htree⟩

theorem readsElements_one {w : Bytes} {t : Tree L} (h : ReadsElement hashData strtold w t) :
    ReadsElements hashData strtold w [t] := by
  intro r stack l hr hwidth
  obtain ⟨v, l', hleads, htree⟩ := h.append hr (hwidth t (by simp)) [] stack l
  exact ⟨[v], l', hleads, by rw [List.map_singleton, htree, List.map_singleton]⟩

theorem readsElements_more {w w' : Bytes} {ts : List (Tree L)} {t : Tree L}
    (h : ReadsElements hashData strtold w ts) (h' : ReadsElement hashData strtold w' t) :
    ReadsElements hashData strtold (w ++ ch ',' :: w') (ts ++ [t]) := by
  intro r stack l hr hwidth
  obtain ⟨vs, l₁, hleads, htree⟩ := h (ch ',' :: (w' ++ r)) stack l
    (closed_of (by decide) (by decide) _) (fun x hx => hwidth x (by simp [hx]))
  obtain ⟨v, l₂, hleads', htree'⟩ := h'.append hr (hwidth t (by simp)) vs stack l₁
  refine ⟨vs ++ [v], l₂, ?_, ?_⟩
  · rw [List.append_assoc]
    exact hleads.trans (Decodes.token (by decide) rfl hleads')
  · rw [List.map_append, List.map_append, htree, List.map_singleton, List.map_singleton, htree']

theorem readsValue_array {w : Bytes} {ts : List (Tree L)}
    (h : ReadsElements hashData strtold w ts) :
    ReadsValue hashData strtold (ch '[' :: (w ++ [ch ']'])) (.array ts) := by
  intro r stack l _ hwidth
  obtain ⟨vs, l', hleads, htree⟩ := h (ch ']' :: r) stack (l + 1)
    (closed_of (by decide) (by decide) _) (Tree.widthList_le.mp hwidth)
  refine ⟨.array vs, l', ?_, ?_, rfl⟩
  · rw [List.cons_append, List.append_assoc]
    refine Decodes.start (by decide) (Decodes.token (by decide) rfl (hleads.trans ?_))
    exact Decodes.token (by decide) rfl (Decodes.token (by decide) rfl (.refl _))
  · rw [Value.tree, Tree.resolve, Value.treeList_eq, htree, Tree.resolveList_eq]

theorem readsMember {a k b w key : Bytes} {t : Tree L} (ha : Blank a) (hk : StringText k key)
    (hb : Blank b) (h : ReadsElement hashData strtold w t) :
    ReadsMember hashData strtold (a ++ (k ++ (b ++ ch ':' :: w))) (key, t) := by
  intro r stack l m ms hr hwidth hm hlen
  obtain ⟨v, l', b', hb', hleads, htree, hdefined⟩ :=
    h r (.string key :: .object m :: stack) (l + 1) hr hwidth
  obtain ⟨m', released, hset, hm', -⟩ := hm.objectSetRelease hlen key v
  obtain ⟨-, u, hu⟩ := hk.decode []
  have hread := valueDecodeString_complete (L := L) hk (b ++ ch ':' :: (w ++ r))
  rw [hu] at hread ⊢
  refine ⟨m', v, l' - Value.objectsEntries released - 1, ?_, hm', htree⟩
  simp only [List.append_assoc, List.cons_append] at hread ⊢
  refine Decodes.blank ha (by decide) rfl (Decodes.token (by decide)
    (d := ⟨.valueEnd, b ++ ch ':' :: (w ++ r), .object m :: stack, .string key, l + 1⟩) ?_ ?_)
  · change Except.map _ (decodeScalar valueDecodeString _) = _
    simp only [decodeScalar, hread, ok_bind, pure_eq_ok]
    rfl
  · refine Decodes.reduce hb (by decide) rfl rfl (Decodes.token (by decide) rfl (hleads.trans ?_))
    obtain ⟨c, x, rfl, -, hc⟩ := hr
    refine Decodes.reduce hb' hc hdefined ?_ (.refl _)
    simp only [decodeReduce, vectorBack, ok_bind, Value.isArray, Value.isObject, Value.isString,
      Value.stringGet, hset, Bool.false_eq_true, Bool.false_and, if_false, if_true, pure_eq_ok,
      List.tail_cons, Value.objects]
    rfl

theorem readsMembers_one {w : Bytes} {x : Bytes × Tree L} (h : ReadsMember hashData strtold w x) :
    ReadsMembers hashData strtold w [x] := by
  intro r stack l m hr hwidth _ hm
  obtain ⟨m', v, l', hleads, hm', htree⟩ := h r stack l m [] hr (hwidth x (by simp)) hm
    (Nat.two_pow_pos 62)
  refine ⟨m', setMember [] x.1 v, l', hleads, hm', ?_⟩
  rw [map_setMember, htree, Tree.resolveMembers_eq]
  rfl

theorem readsMembers_more {w w' : Bytes} {xs : List (Bytes × Tree L)} {x : Bytes × Tree L}
    (h : ReadsMembers hashData strtold w xs) (h' : ReadsMember hashData strtold w' x) :
    ReadsMembers hashData strtold (w ++ ch ',' :: w') (xs ++ [x]) := by
  intro r stack l m hr hwidth hlen hm
  rw [List.length_append, List.length_singleton] at hlen
  obtain ⟨m₁, ms, l₁, hleads, hm₁, htree⟩ := h (ch ',' :: (w' ++ r)) stack l m
    (closed_of (by decide) (by decide) _) (fun y hy => hwidth y (by simp [hy])) (by omega) hm
  have hms : ms.length < 2 ^ 62 := by
    have hlen' := congrArg List.length htree
    have hwins := Tree.length_lastWins_le (Tree.resolveMembers xs)
    rw [List.length_map] at hlen'
    rw [Tree.resolveMembers_eq, List.length_map] at hwins
    rw [Tree.resolveMembers_eq] at hlen'
    omega
  obtain ⟨m₂, v, l₂, hleads', hm₂, htree'⟩ :=
    h' r stack l₁ m₁ ms hr (hwidth x (by simp)) hm₁ hms
  refine ⟨m₂, setMember ms x.1 v, l₂, ?_, hm₂, ?_⟩
  · rw [List.append_assoc]
    exact hleads.trans (Decodes.token (by decide) rfl hleads')
  · rw [map_setMember, htree, htree', Tree.resolveMembers_eq, Tree.resolveMembers_eq,
      List.map_append, List.map_singleton, Tree.lastWins_append]

theorem readsValue_object {w : Bytes} {xs : List (Bytes × Tree L)}
    (h : ReadsMembers hashData strtold w xs) :
    ReadsValue hashData strtold (ch '{' :: (w ++ [ch '}'])) (.object xs) := by
  intro r stack l _ hwidth
  rw [Tree.width, Nat.max_le] at hwidth
  obtain ⟨m, hnew, hm⟩ := holds_newObject (L := L) hashData
  obtain ⟨m', ms, l', hleads, hm', htree⟩ := h (ch '}' :: r) stack (l + (Value.object m).objects) m
    (closed_of (by decide) (by decide) _) (Tree.widthMembers_le.mp hwidth.2) hwidth.1 hm
  refine ⟨.object m', l', ?_, ?_, rfl⟩
  · rw [List.cons_append, List.append_assoc]
    refine Decodes.start (by decide) (Decodes.token (by decide)
      (d := ⟨.valueStart, w ++ ([ch '}'] ++ r), .object m :: stack, .undefined,
        l + (Value.object m).objects⟩) ?_ (hleads.trans ?_))
    · simp only [decodeState, valueStartState, hnew]
      rfl
    · exact Decodes.token (by decide) rfl (Decodes.token (by decide) rfl (.refl _))
  · rw [hm'.tree, htree, Tree.resolve]

end Productions

/-! ## Derivations -/

section Derivations

variable (hashData : Bytes → UInt64) {strtold : Bytes → L × Bool}

mutual

theorem JsonValue.reads : {w : Bytes} → {t : Tree L} → JsonValue strtold w t →
    ReadsValue hashData strtold w t
  | _, _, .null => readsValue_null
  | _, _, .boolTrue => readsValue_boolTrue
  | _, _, .boolFalse => readsValue_boolFalse
  | _, _, .number hw hrange => readsValue_number hw hrange
  | _, _, .string hw => readsValue_string hw
  | _, _, .emptyArray hw => readsValue_emptyArray hw
  | _, _, .array h => readsValue_array (JsonElements.reads h)
  | _, _, .emptyObject hw => readsValue_emptyObject hw
  | _, _, .object h => readsValue_object (JsonMembers.reads h)

theorem JsonElement.reads : {w : Bytes} → {t : Tree L} → JsonElement strtold w t →
    ReadsElement hashData strtold w t
  | _, _, .mk ha h hb => readsElement ha h (JsonValue.reads h) hb

theorem JsonElements.reads : {w : Bytes} → {ts : List (Tree L)} → JsonElements strtold w ts →
    ReadsElements hashData strtold w ts
  | _, _, .one h => readsElements_one (JsonElement.reads h)
  | _, _, .more h h' => readsElements_more (JsonElements.reads h) (JsonElement.reads h')

theorem JsonMember.reads : {w : Bytes} → {m : Bytes × Tree L} → JsonMember strtold w m →
    ReadsMember hashData strtold w m
  | _, _, .mk ha hk hb h => readsMember ha hk hb (JsonElement.reads h)

theorem JsonMembers.reads : {w : Bytes} → {ms : List (Bytes × Tree L)} →
    JsonMembers strtold w ms → ReadsMembers hashData strtold w ms
  | _, _, .one h => readsMembers_one (JsonMember.reads h)
  | _, _, .more h h' => readsMembers_more (JsonMembers.reads h) (JsonMember.reads h')

end

end Derivations

/-! ## The size of a text -/

section Size

variable {strtold : Bytes → L × Bool}

theorem JsonElement.length_pos {w : Bytes} {t : Tree L} (h : JsonElement strtold w t) :
    1 ≤ w.length := by
  obtain ⟨-, hw, -⟩ := h
  obtain ⟨c, u, rfl, -⟩ := hw.head
  simp only [List.length_append, List.length_cons]
  omega

theorem StringText.length {w b : Bytes} (h : StringText w b) : 2 ≤ w.length := by
  obtain ⟨chars, -, rfl, -⟩ := h
  simp

mutual

theorem JsonValue.width_le : {w : Bytes} → {t : Tree L} → JsonValue strtold w t →
    4 * t.width ≤ w.length
  | _, _, .null => Nat.zero_le _
  | _, _, .boolTrue => Nat.zero_le _
  | _, _, .boolFalse => Nat.zero_le _
  | _, _, .number _ _ => Nat.zero_le _
  | _, _, .string _ => Nat.zero_le _
  | _, _, .emptyArray _ => Nat.zero_le _
  | _, _, .array h => by
    have := JsonElements.width_le h
    simp only [Tree.width, List.length_cons, List.length_append]
    omega
  | _, _, .emptyObject _ => Nat.zero_le _
  | _, _, .object h => by
    have := JsonMembers.width_le h
    simp only [Tree.width, List.length_cons, List.length_append]
    omega

theorem JsonElement.width_le : {w : Bytes} → {t : Tree L} → JsonElement strtold w t →
    4 * t.width ≤ w.length
  | _, _, .mk _ h _ => by
    have := JsonValue.width_le h
    simp only [List.length_append]
    omega

theorem JsonElements.width_le : {w : Bytes} → {ts : List (Tree L)} → JsonElements strtold w ts →
    4 * Tree.widthList ts ≤ w.length
  | _, _, .one h => by
    have := JsonElement.width_le h
    simp only [Tree.widthList]
    omega
  | _, _, .more h h' => by
    have := JsonElements.width_le h
    have := JsonElement.width_le h'
    rw [Tree.widthList_append]
    simp only [List.length_append, List.length_cons]
    omega

theorem JsonMember.width_le : {w : Bytes} → {m : Bytes × Tree L} → JsonMember strtold w m →
    4 * m.2.width ≤ w.length ∧ 4 ≤ w.length
  | _, _, .mk _ hk _ h => by
    have := JsonElement.width_le h
    have := h.length_pos
    have := hk.length
    simp only [List.length_append, List.length_cons]
    omega

theorem JsonMembers.width_le : {w : Bytes} → {ms : List (Bytes × Tree L)} →
    JsonMembers strtold w ms → 4 * max ms.length (Tree.widthMembers ms) ≤ w.length
  | _, _, .one h => by
    have := JsonMember.width_le h
    simp only [List.length_singleton, Tree.widthMembers_singleton]
    omega
  | _, _, .more h h' => by
    have := JsonMembers.width_le h
    have := JsonMember.width_le h'
    rw [Tree.widthMembers_append]
    simp only [List.length_append, List.length_cons, List.length_nil]
    omega

end

end Size

/-- The decoder takes a text of the grammar and returns the value of its tree. -/
theorem JsonElement.decode (hashData : Bytes → UInt64) {strtold : Bytes → L × Bool} {s : Bytes}
    {t : Tree L} (h : JsonElement strtold s t) (hs : WellFormed s) (hnul : nul ∉ s)
    (hlen : s.length < 2 ^ 64) :
    ∃ r, valueDecode hashData strtold (s ++ [nul]) = .ok r ∧ r.value.tree = t.resolve ∧
      r.value.isUndefined = false ∧ r.endAt = some [nul] ∧ r.live = r.value.objects := by
  have hwidth : t.width ≤ 2 ^ 62 := by
    have := h.width_le
    omega
  obtain ⟨r, hdecode, hr⟩ := valueDecode_contained hashData strtold ⟨s, rfl, hnul, hs.whole⟩
    (by rw [List.length_append, List.length_singleton]; exact hlen)
  obtain ⟨v, l, b, hb, hleads, htree, hdefined⟩ := h.reads hashData [nul] [] 0
    (closed_of (by decide) (by decide) []) hwidth
  have haccept : Decodes hashData strtold ⟨.valueEnd, b ++ [nul], [], v, l⟩
      ⟨.accept, [nul], [], v, l⟩ := by
    refine Decodes.blank hb (by decide) ?_ (.refl _)
    simp only [decodeState, hdefined, Bool.false_eq_true, if_false, List.isEmpty_nil, if_true,
      pure_eq_ok]
  have hr' : r = ⟨v, some [nul], l - Value.objectsList ([] : List (Value L))⟩ :=
    (hleads.trans haccept).within_eq rfl hdecode
  refine ⟨r, hdecode, ?_, ?_, ?_, hr.ledger⟩
  · rw [hr']
    exact htree
  · rw [hr']
    exact hdefined
  · rw [hr']

end LibReactor
