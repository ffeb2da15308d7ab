import LibReactor.JsonComplete
import LibReactor.DecodeReference

/-!
# The JSON decoder accepts nothing else

The invariant of the loop relates the state and the stack to the text that has been
read: every array and object on the stack was opened in it, and what was read since
then is a list of elements or members. That an array or an object has none is what
its length and its size say.
-/

namespace LibReactor

variable {L : Type}

/-! ## White space behind a derivation -/

theorem Blank.append {a b : Bytes} (ha : Blank a) (hb : Blank b) : Blank (a ++ b) := by
  intro c hc
  rcases List.mem_append.mp hc with hc | hc
  · exact ha c hc
  · exact hb c hc

section Blanks

variable {strtold : Bytes → L × Bool} {b : Bytes} (hb : Blank b)

include hb

theorem JsonElement.blank {w : Bytes} {t : Tree L} (h : JsonElement strtold w t) :
    JsonElement strtold (w ++ b) t := by
  obtain ⟨ha, hw, hb'⟩ := h
  simp only [List.append_assoc]
  exact .mk ha hw (hb'.append hb)

theorem JsonElements.blank {w : Bytes} {ts : List (Tree L)} (h : JsonElements strtold w ts) :
    JsonElements strtold (w ++ b) ts := by
  cases h with
  | one h => exact .one (h.blank hb)
  | more h h' =>
    rw [List.append_assoc, List.cons_append]
    exact .more h (h'.blank hb)

theorem JsonMember.blank {w : Bytes} {m : Bytes × Tree L} (h : JsonMember strtold w m) :
    JsonMember strtold (w ++ b) m := by
  obtain ⟨ha, hk, hb', h⟩ := h
  simp only [List.append_assoc, List.cons_append]
  exact .mk ha hk hb' (h.blank hb)

theorem JsonMembers.blank {w : Bytes} {ms : List (Bytes × Tree L)} (h : JsonMembers strtold w ms) :
    JsonMembers strtold (w ++ b) ms := by
  cases h with
  | one h => exact .one (h.blank hb)
  | more h h' =>
    rw [List.append_assoc, List.cons_append]
    exact .more h (h'.blank hb)

end Blanks

/-! ## The text that has been read -/

section Invariant

variable (strtold : Bytes → L × Bool)

/-- The text opens the arrays and objects on the stack, and a value comes next. -/
inductive Opened : List (Value L) → Bytes → Prop
  | root {b : Bytes} : Blank b → Opened [] b
  | array (vs : List (Value L)) {stack : List (Value L)} {c b : Bytes} : Opened stack c →
      Blank b → Opened (.array vs :: stack) (c ++ ch '[' :: b)
  | element {vs stack : List (Value L)} {c w b : Bytes} {ts : List (Tree L)} : Opened stack c →
      JsonElements strtold w ts → Blank b → vs ≠ [] →
      Opened (.array vs :: stack) (c ++ ch '[' :: (w ++ ch ',' :: b))
  | object (m : Map (Entry L)) {stack : List (Value L)} {c b : Bytes} : Opened stack c →
      Blank b → Opened (.object m :: stack) (c ++ ch '{' :: b)
  | member {m : Map (Entry L)} {stack : List (Value L)} {c w b : Bytes}
      {ms : List (Bytes × Tree L)} : Opened stack c → JsonMembers strtold w ms → Blank b →
      m.mapSize ≠ 0 → Opened (.object m :: stack) (c ++ ch '{' :: (w ++ ch ',' :: b))
  | key {m : Map (Entry L)} {stack : List (Value L)} {c k a b key : Bytes} :
      Opened (.object m :: stack) c → StringText k key → Blank a → Blank b →
      Opened (.string key :: .object m :: stack) (c ++ (k ++ (a ++ ch ':' :: b)))

def Held (stack : List (Value L)) (v : Value L) (c : Bytes) : Prop :=
  ∃ c' w b t, c = c' ++ (w ++ b) ∧ Opened strtold stack c' ∧ JsonValue strtold w t ∧ Blank b ∧
    ∀ key, v = .string key → StringText w key

/-- Elements have been read for the array on top of the stack, or nothing if that is allowed. -/
def ReadArray (empty : Prop) (stack : List (Value L)) (c : Bytes) : Prop :=
  ∃ vs stack' c' w, stack = .array vs :: stack' ∧ c = c' ++ ch '[' :: w ∧
    Opened strtold stack' c' ∧ (empty ∧ Blank w ∨ vs ≠ [] ∧ ∃ ts, JsonElements strtold w ts)

def ReadObject (empty : Prop) (stack : List (Value L)) (c : Bytes) : Prop :=
  ∃ m stack' c' w, stack = .object m :: stack' ∧ c = c' ++ ch '{' :: w ∧
    Opened strtold stack' c' ∧
    (empty ∧ Blank w ∨ m.mapSize ≠ 0 ∧ ∃ ms, JsonMembers strtold w ms)

def ReadKey (stack : List (Value L)) (c : Bytes) : Prop :=
  ∃ key m stack' c' k a, stack = .string key :: .object m :: stack' ∧ c = c' ++ (k ++ a) ∧
    Opened strtold (.object m :: stack') c' ∧ StringText k key ∧ Blank a

def Position (stack : List (Value L)) (v : Value L) (c : Bytes) : DecodeState → Prop
  | .valueEnd | .reduce => v.isUndefined = true ∨ Held strtold stack v c
  | .accept => stack = [] ∧ Held strtold stack v c
  | .arrayRest => ReadArray strtold False stack c
  | .arrayEnd => ReadArray strtold True stack c
  | .objectMap => ReadKey strtold stack c
  | .objectRest => ReadObject strtold False stack c
  | .objectEnd => ReadObject strtold True stack c
  | .reject => True
  | _ => Opened strtold stack c

end Invariant

section Steps

variable {strtold : Bytes → L × Bool} {stack : List (Value L)} {v : Value L} {b c : Bytes}

theorem Opened.blank (h : Opened strtold stack c) (hb : Blank b) :
    Opened strtold stack (c ++ b) := by
  cases h with
  | root h => exact .root (h.append hb)
  | array vs h h' =>
    rw [List.append_assoc, List.cons_append]
    exact .array vs h (h'.append hb)
  | element h hw h' hvs =>
    simp only [List.append_assoc, List.cons_append]
    exact .element h hw (h'.append hb) hvs
  | object m h h' =>
    rw [List.append_assoc, List.cons_append]
    exact .object m h (h'.append hb)
  | member h hw h' hm =>
    simp only [List.append_assoc, List.cons_append]
    exact .member h hw (h'.append hb) hm
  | key h hk ha h' =>
    simp only [List.append_assoc, List.cons_append]
    exact .key h hk ha (h'.append hb)

theorem Held.blank (h : Held strtold stack v c) (hb : Blank b) :
    Held strtold stack v (c ++ b) := by
  obtain ⟨c', w, b', t, rfl, hopened, hw, hb', hkey⟩ := h
  exact ⟨c', w, b' ++ b, t, by simp, hopened, hw, hb'.append hb, hkey⟩

theorem ReadArray.blank {empty : Prop} (h : ReadArray strtold empty stack c) (hb : Blank b) :
    ReadArray strtold empty stack (c ++ b) := by
  obtain ⟨vs, stack', c', w, rfl, rfl, hopened, hw⟩ := h
  refine ⟨vs, stack', c', w ++ b, rfl, by simp, hopened, ?_⟩
  rcases hw with ⟨hempty, hw⟩ | ⟨hvs, ts, hw⟩
  · exact .inl ⟨hempty, hw.append hb⟩
  · exact .inr ⟨hvs, ts, hw.blank hb⟩

theorem ReadObject.blank {empty : Prop} (h : ReadObject strtold empty stack c) (hb : Blank b) :
    ReadObject strtold empty stack (c ++ b) := by
  obtain ⟨m, stack', c', w, rfl, rfl, hopened, hw⟩ := h
  refine ⟨m, stack', c', w ++ b, rfl, by simp, hopened, ?_⟩
  rcases hw with ⟨hempty, hw⟩ | ⟨hm, ms, hw⟩
  · exact .inl ⟨hempty, hw.append hb⟩
  · exact .inr ⟨hm, ms, hw.blank hb⟩

theorem ReadKey.blank (h : ReadKey strtold stack c) (hb : Blank b) :
    ReadKey strtold stack (c ++ b) := by
  obtain ⟨key, m, stack', c', k, a, rfl, rfl, hopened, hk, ha⟩ := h
  exact ⟨key, m, stack', c', k, a ++ b, rfl, by simp, hopened, hk, ha.append hb⟩

theorem Position.blank {state : DecodeState} (h : Position strtold stack v c state)
    (hb : Blank b) : Position strtold stack v (c ++ b) state := by
  cases state with
  | valueEnd => exact h.imp_right fun h => h.blank hb
  | reduce => exact h.imp_right fun h => h.blank hb
  | accept => exact ⟨h.1, h.2.blank hb⟩
  | arrayRest => exact ReadArray.blank h hb
  | arrayEnd => exact ReadArray.blank h hb
  | objectMap => exact ReadKey.blank h hb
  | objectRest => exact ReadObject.blank h hb
  | objectEnd => exact ReadObject.blank h hb
  | reject => trivial
  | _ => exact Opened.blank h hb

/-- A value becomes an element of the array on top of the stack. -/
theorem Held.element {vs : List (Value L)} (h : Held strtold (.array vs :: stack) v c) :
    ReadArray strtold False (.array (vs ++ [v]) :: stack) c := by
  obtain ⟨c', w, b, t, rfl, hopened, hw, hb, -⟩ := h
  cases hopened with
  | @array _ _ c₀ a h ha =>
    exact ⟨_, stack, c₀, a ++ (w ++ b), rfl, by simp, h, .inr ⟨by simp, _, .one (.mk ha hw hb)⟩⟩
  | @element _ _ c₀ w₀ a ts h hts ha hvs =>
    exact ⟨_, stack, c₀, w₀ ++ ch ',' :: (a ++ (w ++ b)), rfl, by simp, h,
      .inr ⟨by simp, _, .more hts (.mk ha hw hb)⟩⟩

/-- A string becomes a key of the object on top of the stack. -/
theorem Held.key {m : Map (Entry L)} {key : Bytes}
    (h : Held strtold (.object m :: stack) (.string key) c) :
    ReadKey strtold (.string key :: .object m :: stack) c := by
  obtain ⟨c', w, b, t, rfl, hopened, -, hb, hkey⟩ := h
  exact ⟨key, m, stack, c', w, b, rfl, rfl, hopened, hkey key rfl, hb⟩

/-- A value becomes a member of the object below the key. -/
theorem Held.member {m m' : Map (Entry L)} {key : Bytes}
    (h : Held strtold (.string key :: .object m :: stack) v c) (hm : m'.mapSize ≠ 0) :
    ReadObject strtold False (.object m' :: stack) c := by
  obtain ⟨c', w, b, t, rfl, hopened, hw, hb, -⟩ := h
  cases hopened with
  | @key _ _ c₁ k a a' _ h hk ha ha' =>
    have hmember : ∀ a₀, Blank a₀ → JsonMember strtold
        (a₀ ++ (k ++ (a ++ ch ':' :: (a' ++ (w ++ b))))) (key, t) :=
      fun a₀ ha₀ => .mk ha₀ hk ha (.mk ha' hw hb)
    cases h with
    | @object _ _ c₀ a₀ h ha₀ =>
      exact ⟨m', stack, c₀, a₀ ++ (k ++ (a ++ ch ':' :: (a' ++ (w ++ b)))), rfl, by simp, h,
        .inr ⟨hm, _, .one (hmember a₀ ha₀)⟩⟩
    | @member _ _ c₀ w₀ a₀ ms h hms ha₀ _ =>
      exact ⟨m', stack, c₀, w₀ ++ ch ',' :: (a₀ ++ (k ++ (a ++ ch ':' :: (a' ++ (w ++ b))))),
        rfl, by simp, h, .inr ⟨hm, _, .more hms (hmember a₀ ha₀)⟩⟩

/-- An array that ends is a value. -/
theorem ReadArray.close {parent : Value L}
    (h : ReadArray strtold True (parent :: stack) c) :
    Held strtold stack parent (c ++ [ch ']']) := by
  obtain ⟨vs, stack', c', w, hstack, rfl, hopened, hw⟩ := h
  obtain ⟨rfl, rfl⟩ := List.cons.inj hstack
  rcases hw with ⟨-, hw⟩ | ⟨-, ts, hw⟩
  · exact ⟨c', _, [], _, by simp, hopened, .emptyArray hw, nofun, nofun⟩
  · exact ⟨c', _, [], _, by simp, hopened, .array hw, nofun, nofun⟩

theorem ReadObject.close {parent : Value L}
    (h : ReadObject strtold True (parent :: stack) c) :
    Held strtold stack parent (c ++ [ch '}']) := by
  obtain ⟨m, stack', c', w, hstack, rfl, hopened, hw⟩ := h
  obtain ⟨rfl, rfl⟩ := List.cons.inj hstack
  rcases hw with ⟨-, hw⟩ | ⟨-, ms, hw⟩
  · exact ⟨c', _, [], _, by simp, hopened, .emptyObject hw, nofun, nofun⟩
  · exact ⟨c', _, [], _, by simp, hopened, .object hw, nofun, nofun⟩

theorem ReadArray.weaken (h : ReadArray strtold False stack c) :
    ReadArray strtold True stack c := by
  obtain ⟨vs, stack', c', w, rfl, rfl, hopened, hw⟩ := h
  exact ⟨vs, stack', c', w, rfl, rfl, hopened, hw.imp_left fun h => h.1.elim⟩

theorem ReadObject.weaken (h : ReadObject strtold False stack c) :
    ReadObject strtold True stack c := by
  obtain ⟨m, stack', c', w, rfl, rfl, hopened, hw⟩ := h
  exact ⟨m, stack', c', w, rfl, rfl, hopened, hw.imp_left fun h => h.1.elim⟩

/-- A comma behind an element. -/
theorem ReadArray.comma (h : ReadArray strtold False stack c) :
    Opened strtold stack (c ++ [ch ',']) := by
  obtain ⟨vs, stack', c', w, rfl, rfl, hopened, hw⟩ := h
  obtain ⟨hvs, ts, hw⟩ := hw.resolve_left fun h => h.1.elim
  rw [List.append_assoc, List.cons_append]
  exact .element hopened hw nofun hvs

theorem ReadObject.comma (h : ReadObject strtold False stack c) :
    Opened strtold stack (c ++ [ch ',']) := by
  obtain ⟨m, stack', c', w, rfl, rfl, hopened, hw⟩ := h
  obtain ⟨hm, ms, hw⟩ := hw.resolve_left fun h => h.1.elim
  rw [List.append_assoc, List.cons_append]
  exact .member hopened hw nofun hm

theorem ReadKey.colon (h : ReadKey strtold stack c) : Opened strtold stack (c ++ [ch ':']) := by
  obtain ⟨key, m, stack', c', k, a, rfl, rfl, hopened, hk, ha⟩ := h
  have heq : c' ++ (k ++ a) ++ [ch ':'] = c' ++ (k ++ (a ++ ch ':' :: [])) := by simp
  rw [heq]
  exact .key hopened hk ha nofun

theorem Opened.emptyArray {vs : List (Value L)} (h : Opened strtold (.array vs :: stack) c)
    (hvs : vs = []) : ReadArray strtold True (.array vs :: stack) c := by
  cases h with
  | array _ h hb => exact ⟨_, _, _, _, rfl, rfl, h, .inl ⟨trivial, hb⟩⟩
  | element _ _ _ hne => exact absurd hvs hne

theorem Opened.emptyObject {m : Map (Entry L)} (h : Opened strtold (.object m :: stack) c)
    (hm : m.mapSize = 0) : ReadObject strtold True (.object m :: stack) c := by
  cases h with
  | object _ h hb => exact ⟨_, _, _, _, rfl, rfl, h, .inl ⟨trivial, hb⟩⟩
  | member _ _ _ hne => exact absurd hm hne

end Steps

/-! ## Turns -/

section Turns

variable {hashData : Bytes → UInt64} {strtold : Bytes → L × Bool} {s : Bytes} {d d' : Decoder L}

variable (strtold) in
def Decoder.At (text : Bytes) (d : Decoder L) : Prop :=
  ∃ c, text = c ++ d.p ∧ Position strtold d.stack d.value c d.state

theorem of_map_inr {r : Except Fault (Decoder L)}
    (h : (.inr <$> r : Except Fault (Decoded L ⊕ Decoder L)) = .ok (.inr d')) : r = .ok d' := by
  cases r with
  | error e => cases h
  | ok a => cases h; rfl

theorem scalar_at {p c : Bytes} {stack : List (Value L)} {l : ℤ} {state : DecodeState}
    {read : Bytes → Except Fault (Value L × Bytes)}
    (hopened : Opened strtold stack c)
    (hread : ∀ v q, read p = .ok (v, q) → v.isUndefined = true ∧ (∃ w, p = w ++ q) ∨
      ∃ w t, p = w ++ q ∧ JsonValue strtold w t ∧ ∀ key, v = .string key → StringText w key)
    (h : decodeScalar read ⟨state, p, stack, .undefined, l⟩ = .ok d') :
    d'.At strtold (c ++ p) := by
  cases hr : read p with
  | error e => simp [decodeScalar, hr] at h
  | ok x =>
    obtain ⟨v, q⟩ := x
    simp only [decodeScalar, hr, ok_bind, pure_eq_ok, Except.ok.injEq] at h
    subst h
    rcases hread v q hr with ⟨hv, w, rfl⟩ | ⟨w, t, rfl, hw, hkey⟩
    · exact ⟨c ++ w, by simp, .inl hv⟩
    · exact ⟨c ++ w, by simp, .inr ⟨c, w, [], t, by simp, hopened, hw, List.forall_mem_nil _, hkey⟩⟩

theorem valueDecodeNull_at {p : Bytes} (hp : Terminated p) {v : Value L} {q : Bytes}
    (h : valueDecodeNull p = .ok (v, q)) : v.isUndefined = true ∧ (∃ w, p = w ++ q) ∨
      ∃ w t, p = w ++ q ∧ JsonValue strtold w t ∧ ∀ key, v = .string key → StringText w key := by
  obtain ⟨b, hmatch, hb⟩ := matchLiteral_inside hp (str "null") (by decide)
  simp only [valueDecodeNull, hmatch, ok_bind, pure_eq_ok] at h
  cases b with
  | false =>
    cases h
    exact .inl ⟨rfl, [], rfl⟩
  | true =>
    cases h
    exact .inr ⟨_, _, (hb rfl).1, .null, fun _ h => by cases h⟩

theorem valueDecodeBool_at {p : Bytes} (hp : Terminated p) {v : Value L} {q : Bytes}
    (h : valueDecodeBool p = .ok (v, q)) : v.isUndefined = true ∧ (∃ w, p = w ++ q) ∨
      ∃ w t, p = w ++ q ∧ JsonValue strtold w t ∧ ∀ key, v = .string key → StringText w key := by
  obtain ⟨b, hmatch, hb⟩ := matchLiteral_inside hp (str "true") (by decide)
  obtain ⟨b', hmatch', hb'⟩ := matchLiteral_inside hp (str "false") (by decide)
  simp only [valueDecodeBool, hmatch, hmatch', ok_bind, pure_eq_ok] at h
  cases b with
  | true =>
    cases h
    exact .inr ⟨_, _, (hb rfl).1, .boolTrue, fun _ h => by cases h⟩
  | false =>
    cases b' with
    | false =>
      cases h
      exact .inl ⟨rfl, [], rfl⟩
    | true =>
      cases h
      exact .inr ⟨_, _, (hb' rfl).1, .boolFalse, fun _ h => by cases h⟩

theorem valueDecodeNumber_at {p : Bytes} (hp : Terminated p) {v : Value L} {q : Bytes}
    (h : valueDecodeNumber strtold p = .ok (v, q)) : v.isUndefined = true ∧ (∃ w, p = w ++ q) ∨
      ∃ w t, p = w ++ q ∧ JsonValue strtold w t ∧ ∀ key, v = .string key → StringText w key := by
  cases hv : v.isUndefined with
  | true =>
    obtain ⟨v', q', hread, hq, -⟩ := valueDecodeNumber_inside strtold hp
    rw [hread] at h
    cases h
    obtain ⟨w, hw⟩ := hq.2
    exact .inl ⟨rfl, w, hw.symm⟩
  | false =>
    obtain ⟨w, rfl, hw, hrange, rfl⟩ := valueDecodeNumber_sound hp h hv
    exact .inr ⟨w, _, rfl, .number hw hrange, nofun⟩

theorem valueDecodeString_at {s : Bytes} (hs : WellFormed s) (hnul : nul ∉ s) {v : Value L}
    {q : Bytes} (h : valueDecodeString (quote :: (s ++ [nul])) = .ok (v, q)) :
    v.isUndefined = true ∧ (∃ w, quote :: (s ++ [nul]) = w ++ q) ∨
      ∃ w t, quote :: (s ++ [nul]) = w ++ q ∧ JsonValue strtold w t ∧
        ∀ key, v = .string key → StringText w key := by
  obtain ⟨b, e, hdecode, he⟩ := stringUtf8Decode_inside ⟨s, rfl, hnul, hs.whole⟩
  obtain ⟨x, u, rfl⟩ := List.exists_cons_of_ne_nil he.1
  simp only [valueDecodeString, List.tail_cons, hdecode, ok_bind, peek_cons, pure_eq_ok] at h
  split_ifs at h with hx
  · cases h
    exact .inl ⟨rfl, [], rfl⟩
  · cases h
    obtain rfl := not_not.mp hx
    obtain ⟨w, hw, htext⟩ := StringText.of_decode hs hnul hdecode
    refine .inr ⟨w, _, hw, .string htext, ?_⟩
    rintro key ⟨⟩
    exact htext

theorem decodeRest_at {p c : Bytes} {stack : List (Value L)} {v : Value L} {l : ℤ}
    {state closed : DecodeState} {close : UInt8}
    (hcomma : Opened strtold stack (c ++ [ch ',']))
    (hclosed : Position strtold stack v c closed)
    (h : decodeRest close closed ⟨state, p, stack, v, l⟩ = .ok d') : d'.At strtold (c ++ p) := by
  cases p with
  | nil => cases h
  | cons x p =>
    simp only [decodeRest, peek_cons, ok_bind, List.tail_cons, pure_eq_ok] at h
    split_ifs at h with hx hclose
    · cases h
      rw [hx]
      exact ⟨c ++ [ch ','], by simp, hcomma⟩
    · cases h
      exact ⟨c, rfl, hclosed⟩
    · cases h
      exact ⟨c, rfl, trivial⟩

theorem decodeReduce_at {p c : Bytes} {stack : List (Value L)} {v : Value L} {l : ℤ}
    (hsane : Sane hashData (s ++ [nul]) ⟨.reduce, p, stack, v, l⟩) (hnul : nul ∉ s)
    (hlen : s.length < 2 ^ 64) (hpos : Position strtold stack v c .reduce)
    (h : decodeReduce hashData ⟨.reduce, p, stack, v, l⟩ = .ok d') : d'.At strtold (c ++ p) := by
  have hheld : Held strtold stack v c := by
    refine hpos.resolve_left fun hv => ?_
    have hdefined := hsane.reduces rfl
    dsimp only at hdefined
    rw [hv] at hdefined
    cases hdefined
  have hframed := hsane.framed
  cases hframed with
  | nil => cases h
  | array vs hframed =>
    cases h
    exact ⟨c, rfl, hheld.element⟩
  | object hm hframed =>
    cases v with
    | string key =>
      cases h
      exact ⟨c, rfl, hheld.key⟩
    | _ =>
      cases h
      exact ⟨c, rfl, trivial⟩
  | key key hframed =>
    obtain ⟨ms, hm, hms⟩ := hsane.room ⟨s, rfl, hnul⟩
      (by rw [List.length_append, List.length_singleton]; exact hlen) rfl rfl
    obtain ⟨m', released, hset, hm', -⟩ := hm.objectSetRelease hms key v
    simp only [decodeReduce, vectorBack, ok_bind, Value.isArray, Value.isObject, Value.isString,
      Value.stringGet, hset, Bool.false_eq_true, Bool.false_and, if_false, if_true, pure_eq_ok,
      List.tail_cons] at h
    cases h
    refine ⟨c, rfl, hheld.member ?_⟩
    have hsize : m'.mapSize = (setMember ms key v).length := hm'.size
    rw [hsize, setMember, List.length_append]
    exact Nat.succ_ne_zero _

/-- The step lemma: a turn keeps what has been read in accord with the state and the stack. -/
theorem decodeState_at (hs : WellFormed s) (hnul : nul ∉ s) (hlen : s.length < 2 ^ 64)
    (hsane : Sane hashData (s ++ [nul]) d) (hat : d.At strtold (s ++ [nul]))
    (h : decodeState hashData strtold d = .ok (.inr d')) : d'.At strtold (s ++ [nul]) := by
  have hterm : Terminated (s ++ [nul]) := ⟨s, rfl, hnul⟩
  have hp := hterm.inside hsane.inside
  obtain ⟨state, p, stack, v, l⟩ := d
  obtain ⟨c, hc, hpos⟩ := hat
  dsimp only at hc hpos hp
  have hidle : holdsValue state = false → v = .undefined := hsane.idle
  rw [hc]
  cases state with
  | valueStart =>
    obtain ⟨x, t, rfl⟩ := hp.exists_cons
    cases h
    refine ⟨c, rfl, ?_⟩
    dsimp only
    unfold valueStartState
    split_ifs
    all_goals first | exact hpos | trivial
  | valueEnd =>
    cases h
    refine ⟨c, rfl, ?_⟩
    dsimp only
    cases hv : v.isUndefined with
    | true => trivial
    | false =>
      have hheld : Held strtold stack v c := hpos.resolve_left (by simp [hv])
      cases stack with
      | nil => exact ⟨rfl, hheld⟩
      | cons parent stack => exact .inr hheld
  | null =>
    obtain rfl := hidle rfl
    exact scalar_at hpos (fun v q => valueDecodeNull_at hp) (of_map_inr h)
  | bool =>
    obtain rfl := hidle rfl
    exact scalar_at hpos (fun v q => valueDecodeBool_at hp) (of_map_inr h)
  | number =>
    obtain rfl := hidle rfl
    exact scalar_at hpos (fun v q => valueDecodeNumber_at hp) (of_map_inr h)
  | string =>
    obtain rfl := hidle rfl
    obtain ⟨t, ht, hin⟩ := hsane.behind hterm (c := quote) rfl (by decide)
    obtain ⟨u, rfl, -⟩ := hin.eq_append
    dsimp only at ht
    subst ht
    have hu : s = c ++ quote :: u := by
      have hcancel : s ++ [nul] = (c ++ quote :: u) ++ [nul] := by simpa using hc
      exact List.append_cancel_right hcancel
    exact scalar_at hpos (fun v q => valueDecodeString_at
      (WellFormed.behind (hu ▸ hs) (by decide)) (fun hmem => hnul (by simp [hu, hmem])))
      (of_map_inr h)
  | arrayFirst =>
    obtain ⟨t, rfl, -⟩ := hsane.behind hterm (c := ch '[') rfl (by decide)
    cases h
    exact ⟨c ++ [ch '['], by simp [decodeOpen], Opened.array [] hpos nofun⟩
  | arrayRest =>
    have hend : Position strtold stack v c .arrayEnd := ReadArray.weaken hpos
    exact decodeRest_at (ReadArray.comma hpos) hend (of_map_inr h)
  | arrayEmpty =>
    cases h
    cases stack with
    | nil => exact ⟨c, rfl, trivial⟩
    | cons parent stack =>
      refine ⟨c, rfl, ?_⟩
      dsimp only [decodeEmpty]
      split_ifs with hempty
      · cases parent with
        | array vs =>
          exact Opened.emptyArray hpos (by simpa [Value.isArray, Value.arrayLength] using hempty)
        | _ => simp [Value.isArray] at hempty
      · trivial
  | arrayEnd =>
    obtain ⟨t, rfl, -⟩ := hsane.behind hterm (c := ch ']') rfl (by decide)
    cases stack with
    | nil => cases h
    | cons parent stack =>
      cases h
      exact ⟨c ++ [ch ']'], by simp, .inr (ReadArray.close hpos)⟩
  | objectFirst =>
    obtain ⟨t, rfl, -⟩ := hsane.behind hterm (c := ch '{') rfl (by decide)
    obtain ⟨m, hnew, -⟩ := holds_newObject (L := L) hashData
    simp only [decodeState, hnew, ok_bind] at h
    cases h
    exact ⟨c ++ [ch '{'], by simp [decodeOpen], Opened.object m hpos nofun⟩
  | objectMap =>
    obtain ⟨x, t, rfl⟩ := hp.exists_cons
    simp only [decodeState, peek_cons, ok_bind, pure_eq_ok] at h
    split_ifs at h with hx
    · cases h
      rw [hx]
      exact ⟨c ++ [ch ':'], by simp, ReadKey.colon hpos⟩
    · cases h
      exact ⟨c, rfl, trivial⟩
  | objectRest =>
    have hend : Position strtold stack v c .objectEnd := ReadObject.weaken hpos
    exact decodeRest_at (ReadObject.comma hpos) hend (of_map_inr h)
  | objectEmpty =>
    cases h
    cases stack with
    | nil => exact ⟨c, rfl, trivial⟩
    | cons parent stack =>
      refine ⟨c, rfl, ?_⟩
      dsimp only [decodeEmpty]
      split_ifs with hempty
      · cases parent with
        | object m =>
          exact Opened.emptyObject hpos (by simpa [Value.isObject, Value.objectSize] using hempty)
        | _ => simp [Value.isObject] at hempty
      · trivial
  | objectEnd =>
    obtain ⟨t, rfl, -⟩ := hsane.behind hterm (c := ch '}') rfl (by decide)
    cases stack with
    | nil => cases h
    | cons parent stack =>
      cases h
      exact ⟨c ++ [ch '}'], by simp, .inr (ReadObject.close hpos)⟩
  | reduce => exact decodeReduce_at hsane hnul hlen hpos (of_map_inr h)
  | accept => cases h
  | reject => cases h

theorem Decoder.At.whitespace {p : Bytes} {text : Bytes} (h : d.At strtold text)
    (hskip : valueDecodeWhitespace d.p = .ok p) : Decoder.At strtold text { d with p } := by
  obtain ⟨c, hc, hpos⟩ := h
  obtain ⟨w, a, t, hp, hw, -, rfl⟩ := skipWhile_eq_ok.mp hskip
  exact ⟨c ++ w, by rw [hc, hp, List.append_assoc], hpos.blank hw⟩

/-- What the loop returns: nothing, or the text of the grammar in front of the end. -/
def Recognised (strtold : Bytes → L × Bool) (text : Bytes) (r : Decoded L) : Prop :=
  r.value.isUndefined = false → ∀ e, r.endAt = some e → ∃ w t, text = w ++ e ∧
    JsonElement strtold w t

theorem of_map_inl {r : Except Fault (Decoder L)} {a : Decoded L} :
    (.inr <$> r : Except Fault (Decoded L ⊕ Decoder L)) ≠ .ok (.inl a) := by
  cases r with
  | error e => nofun
  | ok d => nofun

/-- The loop leaves in two states. -/
theorem decodeState_inl {r : Decoded L} (h : decodeState hashData strtold d = .ok (.inl r)) :
    d.state = .accept ∧ r.endAt = some d.p ∨ d.state = .reject ∧ r.value = .undefined := by
  obtain ⟨state, p, stack, v, l⟩ := d
  cases state with
  | accept =>
    cases h
    exact .inl ⟨rfl, rfl⟩
  | reject =>
    cases h
    exact .inr ⟨rfl, rfl⟩
  | valueStart | objectMap =>
    cases p with
    | nil => cases h
    | cons x p => cases h
  | objectFirst =>
    obtain ⟨m, hnew, -⟩ := holds_newObject (L := L) hashData
    simp only [decodeState, hnew, ok_bind] at h
    cases h
  | valueEnd | arrayFirst | arrayEmpty | objectEmpty => cases h
  | _ => exact absurd h of_map_inl

theorem decodeState_parsed {text : Bytes} (hat : d.At strtold text) {r : Decoded L}
    (h : decodeState hashData strtold d = .ok (.inl r)) : Recognised strtold text r := by
  intro hdefined e he
  rcases decodeState_inl h with ⟨hstate, hend⟩ | ⟨-, hvalue⟩
  · obtain ⟨c, hc, hpos⟩ := hat
    rw [hstate] at hpos
    obtain ⟨hstack, c', w, b, t, rfl, hopened, hw, hb, -⟩ := hpos
    rw [hstack] at hopened
    cases hopened with
    | root ha =>
      rw [hend] at he
      cases he
      exact ⟨_, t, hc, .mk ha hw hb⟩
  · rw [hvalue] at hdefined
    cases hdefined

/-- The decoder takes no text outside the grammar. -/
theorem JsonElement.of_decode (hs : WellFormed s) (hnul : nul ∉ s) (hlen : s.length < 2 ^ 64)
    {r : Decoded L} (h : valueDecode hashData strtold (s ++ [nul]) = .ok r) :
    Recognised strtold (s ++ [nul]) r := by
  have hterm : Terminated (s ++ [nul]) := ⟨s, rfl, hnul⟩
  have hsafe : Safe (s ++ [nul]) := ⟨s, rfl, hnul, hs.whole⟩
  have hlen' : (s ++ [nul]).length ≤ 2 ^ 64 := by
    rw [List.length_append, List.length_singleton]
    exact hlen
  have hturn : ∀ d, Sane hashData (s ++ [nul]) d → d.At strtold (s ++ [nul]) →
      ∃ p, valueDecodeTurn hashData strtold d = decodeState hashData strtold { d with p } ∧
        Sane hashData (s ++ [nul]) { d with p } ∧ Decoder.At strtold (s ++ [nul]) { d with p } := by
    intro d hd hat
    obtain ⟨p, hskip, hd', -⟩ := hd.whitespace hterm
    refine ⟨p, ?_, hd', hat.whitespace hskip⟩
    simp only [valueDecodeTurn, hskip, ok_bind]
  have hrun := Loop.run_invariant (valueDecodeTurn hashData strtold)
    (I := fun d => Sane hashData (s ++ [nul]) d ∧ d.At strtold (s ++ [nul]))
    (Q := fun r => ∀ a, r = .ok a → Recognised strtold (s ++ [nul]) a)
    (fun d e _ _ a h => by cases h)
    ?_ ?_ ⟨sane_start hashData hterm, [], rfl, Opened.root (List.forall_mem_nil _)⟩
    ((Loop.within_eq_ok _).mp h)
  · exact hrun r rfl
  · rintro d a ⟨hd, hat⟩ hdone a' ⟨⟩
    obtain ⟨p, heq, -, hat'⟩ := hturn d hd hat
    exact decodeState_parsed hat' (heq ▸ hdone)
  · rintro d d' ⟨hd, hat⟩ hnext
    obtain ⟨p, heq, hd', hat'⟩ := hturn d hd hat
    rw [heq] at hnext
    refine ⟨?_, decodeState_at hs hnul hlen hd' hat' hnext⟩
    rcases decodeState_spec strtold hd' hsafe hlen' with ⟨d'', hstep, hsane, -⟩ | ⟨r, hstep, -⟩
    · rw [hstep] at hnext
      cases hnext
      exact hsane
    · rw [hstep] at hnext
      cases hnext

/-- The decoder takes exactly the texts of the grammar, up to the end, and returns the value of
their tree. All that it has made on the way and does not return has been released. -/
theorem valueDecode_accepts_iff (hashData : Bytes → UInt64) (strtold : Bytes → L × Bool)
    (s : Bytes) (hs : WellFormed s) (hnul : nul ∉ s) (hlen : s.length < 2 ^ 64) :
    ∃ r, valueDecode hashData strtold (s ++ [nul]) = .ok r ∧
      ((r.value.isUndefined = false ∧ r.endAt = some [nul]) ↔ ∃ t, JsonElement strtold s t) ∧
      (∀ t, JsonElement strtold s t → r.value.tree = t.resolve) ∧ r.live = r.value.objects := by
  obtain ⟨r, hdecode, hr⟩ := valueDecode_contained hashData strtold ⟨s, rfl, hnul, hs.whole⟩
    (by rw [List.length_append, List.length_singleton]; exact hlen)
  have hcomplete : ∀ t, JsonElement strtold s t → r.value.tree = t.resolve ∧
      r.value.isUndefined = false ∧ r.endAt = some [nul] := by
    intro t ht
    obtain ⟨r', hdecode', htree, hdefined, hend, -⟩ := ht.decode hashData hs hnul hlen
    rw [hdecode] at hdecode'
    cases hdecode'
    exact ⟨htree, hdefined, hend⟩
  refine ⟨r, hdecode, ⟨?_, ?_⟩, fun t ht => (hcomplete t ht).1, hr.ledger⟩
  · rintro ⟨hdefined, hend⟩
    obtain ⟨w, t, hw, ht⟩ := JsonElement.of_decode hs hnul hlen hdecode hdefined [nul] hend
    exact ⟨t, List.append_cancel_right hw ▸ ht⟩
  · rintro ⟨t, ht⟩
    exact (hcomplete t ht).2

/-- The decoder on an array of one `null`. -/
theorem valueDecode_accepts_iff_null :
    ∃ r, valueDecode (fun _ => 0) (fun _ => ((0 : ℕ), false)) (str "[null]" ++ [nul]) = .ok r ∧
      ((r.value.isUndefined = false ∧ r.endAt = some [nul]) ↔
        ∃ t, JsonElement (fun _ => ((0 : ℕ), false)) (str "[null]") t) ∧
      (∀ t, JsonElement (fun _ => ((0 : ℕ), false)) (str "[null]") t → r.value.tree = t.resolve) ∧
      r.live = r.value.objects :=
  valueDecode_accepts_iff _ _ (str "[null]")
    ⟨(str "[null]").map UInt8.toNat, by decide, by decide⟩ (by decide) (by decide)

end Turns

end LibReactor
