import LibReactor.Canonical
import LibReactor.JsonComplete
import LibReactor.PrintNumber
import Mathlib.Data.List.Forall2
import Mathlib.Data.Option.Basic

/-!
# What the encoder accepts, and its two layouts

The encoder fails for a value from which an undefined or a foreign value can be reached,
and for no other. Without the white space outside its strings, the text of the pretty
mode is the text of the compact mode.
-/

namespace LibReactor

variable {L : Type}

/-! ## The values that are accepted -/

namespace Value

inductive Reaches : Value L → Value L → Prop
  | refl (v : Value L) : Reaches v v
  | element {vs : List (Value L)} {v w : Value L} : v ∈ vs → Reaches v w → Reaches (array vs) w
  | member {m : Map (Entry L)} {key : Bytes} {v w : Value L} : (some key, v) ∈ m.elements →
      Reaches v w → Reaches (object m) w

/-- No value that can be reached is undefined or foreign. -/
def Encodable (v : Value L) : Prop := ∀ w, Reaches v w → w ≠ undefined ∧ w ≠ foreign

theorem encodable_array {vs : List (Value L)} :
    (array vs).Encodable ↔ ∀ v ∈ vs, v.Encodable := by
  constructor
  · exact fun h v hv w hw => h w (.element hv hw)
  · intro h w hw
    cases hw with
    | refl => exact ⟨by simp, by simp⟩
    | element hv hw => exact h _ hv w hw

end Value

theorem Holds.encodable {hashData : Bytes → UInt64} {m : Map (Entry L)}
    {ms : List (Bytes × Value L)} (h : Holds hashData m ms) :
    (Value.object m).Encodable ↔ ∀ x ∈ ms, x.2.Encodable := by
  constructor
  · exact fun hm x hx w hw => hm w (.member ((h.mem_elements x.1 x.2).mpr hx) hw)
  · intro hms w hw
    cases hw with
    | refl => exact ⟨by simp, by simp⟩
    | @member _ key v _ hv hw => exact hms _ ((h.mem_elements key v).mp hv) w hw

theorem joinItems_isSome (separator : Bytes) (first : Bool) (items : List (Bytes × Option Bytes)) :
    (joinItems separator first items).isSome ↔ ∀ x ∈ items, x.2.isSome := by
  induction items generalizing first with
  | nil => simp [joinItems]
  | cons x items ih =>
    obtain ⟨start, text⟩ := x
    rw [List.forall_mem_cons, ← ih false]
    cases text with
    | none => simp [joinItems]
    | some w => cases h : joinItems separator false items <;> simp [joinItems, h]

theorem bracketText_isSome (pretty : Bool) (depth : ℕ) (opened closed : UInt8)
    (items : List (Bytes × Option Bytes)) :
    (bracketText pretty depth opened closed items).isSome ↔ ∀ x ∈ items, x.2.isSome := by
  rw [bracketText, Option.isSome_map, joinItems_isSome]

/-- A value has a text exactly when no undefined and no foreign value can be reached. -/
theorem Consistent.text_isSome {hashData : Bytes → UInt64} {v : Value L}
    (h : Consistent hashData v) (print : L → Bytes) (options : EncodeOptions) (depth : ℕ) :
    (v.tree.text print options depth).isSome ↔ v.Encodable := by
  have hleaf : ∀ {v : Value L}, (∀ w, v.Reaches w → w = v) → v ≠ .undefined → v ≠ .foreign →
      v.Encodable := by
    intro v hv hundefined hforeign w hw
    rw [hv w hw]
    exact ⟨hundefined, hforeign⟩
  induction h generalizing depth with
  | undefined => exact iff_of_false (by simp [Value.tree, Tree.text]) fun h => (h _ (.refl _)).1 rfl
  | null => exact iff_of_true rfl (hleaf (fun w hw => by cases hw; rfl) (by simp) (by simp))
  | bool b => exact iff_of_true rfl (hleaf (fun w hw => by cases hw; rfl) (by simp) (by simp))
  | number n => exact iff_of_true rfl (hleaf (fun w hw => by cases hw; rfl) (by simp) (by simp))
  | string s => exact iff_of_true rfl (hleaf (fun w hw => by cases hw; rfl) (by simp) (by simp))
  | @array vs _ ih =>
    rw [Value.tree, Tree.text, bracketText_isSome, Tree.textList_eq, Value.treeList_eq,
      Value.encodable_array]
    simp only [List.map_map, List.mem_map, Function.comp, forall_exists_index, and_imp,
      forall_apply_eq_imp_iff₂]
    exact forall₂_congr fun v hv => ih v hv (depth + 1)
  | @object m ms hm _ ih =>
    rw [hm.sorted_tree, Tree.text, bracketText_isSome, Tree.textMembers_eq, hm.encodable]
    simp only [List.map_map, List.mem_map, Function.comp, forall_exists_index, and_imp,
      forall_apply_eq_imp_iff₂, sortMembers, List.mem_mergeSort]
    exact forall₂_congr fun x hx => ih x hx (depth + 1)
  | foreign => exact iff_of_false (by simp [Value.tree, Tree.text]) fun h => (h _ (.refl _)).2 rfl

theorem Consistent.text_of_encode {hashData : Bytes → UInt64} {v : Value L}
    (h : Consistent hashData v) {print : L → Bytes} {options : EncodeOptions} {w : Bytes}
    (hencode : valueBufferEncode hashData print v options = .ok (true, w)) :
    v.tree.text print options 0 = some w := by
  have htext := h.bufferEncode print options
  cases heq : v.tree.text print options 0 with
  | none =>
    rw [heq] at htext
    obtain ⟨buffer, hbuffer⟩ := htext
    cases hbuffer.symm.trans hencode
  | some w' =>
    rw [heq] at htext
    rw [(Prod.mk.inj (Except.ok.inj (htext.symm.trans hencode))).2]

/-! ## White space outside the strings -/

/-- Where a byte of a text is; behind a backslash of a string a quotation mark does not end it. -/
inductive TextPlace
  | outside
  | inside
  | escaped
  deriving DecidableEq, Repr

def stripBlanks : TextPlace → Bytes → Bytes
  | _, [] => []
  | .outside, c :: w =>
    if c = quote then c :: stripBlanks .inside w
    else if isWhitespace c then stripBlanks .outside w
    else c :: stripBlanks .outside w
  | .inside, c :: w =>
    if c = quote then c :: stripBlanks .outside w
    else if c = backslash then c :: stripBlanks .escaped w
    else c :: stripBlanks .inside w
  | .escaped, c :: w => c :: stripBlanks .inside w

/-- The second text is the first without its white space, whatever comes behind. -/
def Strips (p c : Bytes) : Prop :=
  ∀ r, stripBlanks .outside (p ++ r) = c ++ stripBlanks .outside r

theorem Strips.nil : Strips [] [] := fun _ => rfl

theorem Strips.append {p p' c c' : Bytes} (h : Strips p c) (h' : Strips p' c') :
    Strips (p ++ p') (c ++ c') := fun r => by
  rw [List.append_assoc, h, h', List.append_assoc]

theorem Strips.eq {p c : Bytes} (h : Strips p c) : stripBlanks .outside p = c := by
  have hnil := h []
  simpa [stripBlanks] using hnil

/-- A byte of the text that is neither a quotation mark nor white space. -/
def Solid (c : UInt8) : Prop := c ≠ quote ∧ isWhitespace c = false

instance (c : UInt8) : Decidable (Solid c) := inferInstanceAs (Decidable (_ ∧ _))

theorem strips_solid {w : Bytes} (h : ∀ c ∈ w, Solid c) : Strips w w := by
  intro r
  induction w with
  | nil => rfl
  | cons c w ih =>
    obtain ⟨hc, hw⟩ := List.forall_mem_cons.mp h
    rw [List.cons_append, stripBlanks, if_neg hc.1, if_neg (by simp [hc.2]), ih hw,
      List.cons_append]

theorem strips_blank {w : Bytes} (h : Blank w) : Strips w [] := by
  intro r
  induction w with
  | nil => rfl
  | cons c w ih =>
    obtain ⟨hc, hw⟩ := List.forall_mem_cons.mp h
    have hquote : c ≠ quote := by
      rintro rfl
      exact absurd hc (by decide)
    rw [List.cons_append, stripBlanks, if_neg hquote, if_pos hc]
    exact ih hw

theorem strips_newline (pretty : Bool) (depth : ℕ) : Strips (newline pretty depth) [] := by
  apply strips_blank
  intro c hc
  unfold newline at hc
  split_ifs at hc
  · rcases List.mem_cons.mp hc with rfl | hc
    · rfl
    · rw [List.eq_of_mem_replicate hc]
      rfl
  · cases hc

/-! ## Strings -/

theorem stripBlanks_copied {w : Bytes} (h : ∀ c ∈ w, c ≠ quote ∧ c ≠ backslash) (r : Bytes) :
    stripBlanks .inside (w ++ r) = w ++ stripBlanks .inside r := by
  induction w with
  | nil => rfl
  | cons c w ih =>
    obtain ⟨hc, hw⟩ := List.forall_mem_cons.mp h
    rw [List.cons_append, stripBlanks, if_neg hc.1, if_neg hc.2, ih hw, List.cons_append]

theorem stripBlanks_escape (e : UInt8) {w : Bytes} (h : ∀ c ∈ w, c ≠ quote ∧ c ≠ backslash)
    (r : Bytes) : stripBlanks .inside (backslash :: e :: w ++ r) =
      backslash :: e :: w ++ stripBlanks .inside r := by
  have hquote : backslash ≠ quote := by decide
  simp only [List.cons_append, stripBlanks, if_neg hquote, if_true, stripBlanks_copied h]

theorem isxdigit_copied {c : UInt8} (h : isxdigit c = true) : c ≠ quote ∧ c ≠ backslash := by
  constructor <;> rintro rfl <;> revert h <;> decide

/-- A character of the grammar stays in its string. -/
theorem CharText.stripBlanks {w : Bytes} (h : CharText w) (r : Bytes) :
    stripBlanks .inside (w ++ r) = w ++ stripBlanks .inside r := by
  cases h with
  | @unescaped c hc h20 hquote hbackslash =>
    refine stripBlanks_copied (fun x hx => ?_) r
    by_cases hascii : c < 0x80
    · rw [utf8_ascii hascii, List.mem_singleton] at hx
      have htoNat := toNat_byte (n := c) (by omega)
      rw [← hx] at htoNat
      constructor
      · rintro rfl
        exact hquote htoNat.symm
      · rintro rfl
        exact hbackslash htoNat.symm
    · obtain ⟨y, u, hy, hlead, htail⟩ := utf8_multi hc (by omega)
      have hge : 0x80 ≤ x := by
        rw [hy] at hx
        rcases List.mem_cons.mp hx with rfl | hx
        · exact hlead
        · obtain ⟨m, hm, rfl⟩ := htail x hx
          exact continuation_ge hm
      constructor <;> rintro rfl <;> revert hge <;> decide
  | escape => exact stripBlanks_escape _ (by simp) r
  | unicode ha hb hc hd =>
    refine stripBlanks_escape _ ?_ r
    simp only [List.forall_mem_cons]
    exact ⟨isxdigit_copied ha, isxdigit_copied hb, isxdigit_copied hc, isxdigit_copied hd,
      List.forall_mem_nil _⟩
  | surrogates ha hb hc hd ha' hb' hc' hd' =>
    have hsecond := stripBlanks_escape (ch 'u') (w := [_, _, _, _]) (List.forall_mem_cons.mpr
      ⟨isxdigit_copied ha', List.forall_mem_cons.mpr ⟨isxdigit_copied hb', List.forall_mem_cons.mpr
      ⟨isxdigit_copied hc', List.forall_mem_cons.mpr ⟨isxdigit_copied hd',
        List.forall_mem_nil _⟩⟩⟩⟩) r
    have hfirst := stripBlanks_escape (ch 'u') (w := [_, _, _, _]) (List.forall_mem_cons.mpr
      ⟨isxdigit_copied ha, List.forall_mem_cons.mpr ⟨isxdigit_copied hb, List.forall_mem_cons.mpr
      ⟨isxdigit_copied hc, List.forall_mem_cons.mpr ⟨isxdigit_copied hd, List.forall_mem_nil _⟩⟩⟩⟩)
    simp only [List.cons_append, List.nil_append] at hfirst hsecond ⊢
    rw [hfirst, hsecond]

theorem strips_quotedText (ascii : Bool) (s : Bytes) :
    Strips (quotedText ascii s) (quotedText ascii s) := by
  obtain ⟨b, hb, chars, rfl, hchars⟩ := stringUtf8Encode_chars_any s ascii
  intro r
  have hinside : stripBlanks .inside (chars.flatten ++ quote :: r) =
      chars.flatten ++ quote :: stripBlanks .outside r := by
    clear hb
    induction chars with
    | nil => simp [stripBlanks]
    | cons w chars ih =>
      obtain ⟨hw, hchars⟩ := List.forall_mem_cons.mp hchars
      rw [List.flatten_cons, List.append_assoc, hw.1.stripBlanks, ih hchars, List.append_assoc]
  simp only [quotedText, hb, Except.toOption, Option.getD_some, List.cons_append, List.append_assoc,
    List.nil_append, stripBlanks, if_true, hinside]

/-! ## The two layouts of a tree -/

theorem joinItems_strips {separator separator' : Bytes} (hseparator : Strips separator separator')
    (first : Bool) {items items' : List (Bytes × Option Bytes)}
    (h : List.Forall₂ (fun x y => Strips x.1 y.1 ∧ Option.Rel Strips x.2 y.2) items items') :
    Option.Rel Strips (joinItems separator first items) (joinItems separator' first items') := by
  induction h generalizing first with
  | nil => exact .some .nil
  | @cons x y items items' hxy _ ih =>
    obtain ⟨start, text⟩ := x
    obtain ⟨start', text'⟩ := y
    obtain ⟨hstart, htext⟩ := hxy
    dsimp only at hstart htext
    have hcomma : Strips (if first then [] else [ch ',']) (if first then [] else [ch ',']) := by
      cases first
      · exact strips_solid (by decide +kernel)
      · exact .nil
    cases htext with
    | none => exact .none
    | some htext =>
      have hrest := ih false
      simp only [joinItems, Option.bind_eq_bind, Option.bind_some]
      generalize joinItems separator false items = rest at hrest ⊢
      generalize joinItems separator' false items' = rest' at hrest ⊢
      cases hrest with
      | none => exact .none
      | some hrest =>
        exact .some (hcomma.append (hseparator.append (hstart.append (htext.append hrest))))

theorem bracketText_strips {opened closed : UInt8} (hopened : Solid opened) (hclosed : Solid closed)
    (depth depth' : ℕ) {items items' : List (Bytes × Option Bytes)}
    (h : List.Forall₂ (fun x y => Strips x.1 y.1 ∧ Option.Rel Strips x.2 y.2) items items') :
    Option.Rel Strips (bracketText true depth opened closed items)
      (bracketText false depth' opened closed items') := by
  have hbody : Option.Rel Strips (joinItems (newline true (depth + 1)) true items)
      (joinItems (newline false (depth' + 1)) true items') :=
    joinItems_strips (strips_newline true (depth + 1)) true h
  have hopen : Strips [opened] [opened] := strips_solid (by simpa using hopened)
  have hclose : Strips [closed] [closed] := strips_solid (by simpa using hclosed)
  have hend : Strips (if items = [] then [] else newline true depth)
      (if items' = [] then [] else newline false depth') := by
    cases h with
    | nil => exact .nil
    | cons _ _ => exact strips_newline true depth
  unfold bracketText
  generalize joinItems (newline true (depth + 1)) true items = body at hbody ⊢
  generalize joinItems (newline false (depth' + 1)) true items' = body' at hbody ⊢
  cases hbody with
  | none => exact .none
  | some hbody => exact .some (hopen.append (hbody.append (hend.append hclose)))

theorem keyText_strips (ascii : Bool) (key : Bytes) :
    Strips (keyText ⟨true, ascii⟩ key) (keyText ⟨false, ascii⟩ key) := by
  have hcolon : Strips [ch ':'] [ch ':'] := strips_solid (by decide +kernel)
  have hspace : Strips [ch ' '] [] :=
    strips_blank (show ∀ c ∈ [ch ' '], isWhitespace c = true by decide +kernel)
  exact (strips_quotedText ascii key).append (hcolon.append hspace)

section Print

variable {print : L → Bytes} (hprint : ∀ n, ∀ c ∈ print n, Solid c)

include hprint

/-- The pretty text of a tree is its compact text with white space outside the strings. -/
theorem Tree.Increasing.strips (ascii : Bool) {t : Tree L} (h : t.Increasing) :
    ∀ depth depth', Option.Rel Strips (t.text print ⟨true, ascii⟩ depth)
      (t.text print ⟨false, ascii⟩ depth') := by
  induction h with
  | undefined => exact fun _ _ => .none
  | null => exact fun _ _ => .some (strips_solid (by decide +kernel))
  | bool b =>
    intro _ _
    refine .some (strips_solid ?_)
    cases b <;> decide +kernel
  | number n => exact fun _ _ => .some (strips_solid (hprint n))
  | string s => exact fun _ _ => .some (strips_quotedText ascii s)
  | @array ts _ ih =>
    intro depth depth'
    rw [Tree.text, Tree.text, Tree.textList_eq, Tree.textList_eq]
    refine bracketText_strips (by decide) (by decide) depth depth' ?_
    rw [List.forall₂_map_left_iff, List.forall₂_map_right_iff, List.forall₂_same]
    exact fun t ht => ⟨.nil, ih t ht _ _⟩
  | @object ms _ _ ih =>
    intro depth depth'
    rw [Tree.text, Tree.text, Tree.textMembers_eq, Tree.textMembers_eq]
    refine bracketText_strips (by decide) (by decide) depth depth' ?_
    rw [List.forall₂_map_left_iff, List.forall₂_map_right_iff, List.forall₂_same]
    exact fun m hm => ⟨keyText_strips ascii m.1, ih m hm _ _⟩

/-- The encoder is the recursive printer: `value_buffer_encode` succeeds exactly when no undefined
and no foreign value can be reached, and then it appends the text of the tree, whose keys are in
order. Without the white space outside its strings the pretty text is the compact text. -/
theorem valueBufferEncode_text (hashData : Bytes → UInt64) (options : EncodeOptions) {v : Value L}
    (hv : Built hashData v) :
    (∃ status buffer, valueBufferEncode hashData print v options = .ok (status, buffer) ∧
      (status = true ↔ v.Encodable) ∧
      (status = true → v.tree.text print options 0 = some buffer)) ∧
    v.tree.Increasing ∧
    ∀ pretty compact,
      valueBufferEncode hashData print v ⟨true, options.ascii⟩ = .ok (true, pretty) →
      valueBufferEncode hashData print v ⟨false, options.ascii⟩ = .ok (true, compact) →
      stripBlanks .outside pretty = compact := by
  have hincreasing := hv.consistent.increasing
  refine ⟨?_, hincreasing, fun pretty compact hpretty hcompact => ?_⟩
  · have hsome := hv.consistent.text_isSome print options 0
    have hencode := hv.consistent.bufferEncode print options
    cases htext : v.tree.text print options 0 with
    | none =>
      rw [htext] at hsome hencode
      obtain ⟨buffer, hbuffer⟩ := hencode
      exact ⟨false, buffer, hbuffer, by simpa using hsome, by simp⟩
    | some w =>
      rw [htext] at hsome hencode
      exact ⟨true, w, hencode, by simpa using hsome, fun _ => rfl⟩
  · have hstrips := hincreasing.strips hprint options.ascii 0 0
    rw [hv.consistent.text_of_encode hpretty, hv.consistent.text_of_encode hcompact] at hstrips
    cases hstrips with
    | some hstrips => exact hstrips.eq

end Print

/-- Two levels of containers in pretty mode, one of them empty. -/
example : Tree.text (fun _ : Unit => str "7") ⟨true, false⟩ 0
    (.array [.number (), .object [(str "a", .array [])]]) =
      some (str "[\n  7,\n  \x7b\n    \"a\": []\n  \x7d\n]") := by
  decide

theorem solid_digit {c : UInt8} (h : isdigit c = true) : Solid c := by
  refine ⟨?_, isWhitespace_number (.inl h)⟩
  rintro rfl
  exact absurd h (by decide)

/-- An array of a number and an object, when numbers are printed as decimals. -/
theorem valueBufferEncode_text_array :
    (∃ status buffer, valueBufferEncode (fun _ => 0) decimal
        (.array [.number 7, .string (str "a b")]) ⟨true, false⟩ = .ok (status, buffer) ∧
      (status = true ↔ (Value.array [.number 7, .string (str "a b")]).Encodable) ∧
      (status = true → (Value.array [.number 7, .string (str "a b")]).tree.text decimal
        ⟨true, false⟩ 0 = some buffer)) ∧
    (Value.array [.number 7, .string (str "a b")]).tree.Increasing ∧
    ∀ pretty compact,
      valueBufferEncode (fun _ => 0) decimal (.array [.number 7, .string (str "a b")])
        ⟨true, false⟩ = .ok (true, pretty) →
      valueBufferEncode (fun _ => 0) decimal (.array [.number 7, .string (str "a b")])
        ⟨false, false⟩ = .ok (true, compact) →
      stripBlanks .outside pretty = compact :=
  valueBufferEncode_text
    (fun n c hc => solid_digit (isdigit_decimal n c hc)) (fun _ => 0) ⟨true, false⟩
    (.array fun v hv => by
      rcases List.mem_cons.mp hv with rfl | hv
      · exact .number 7
      · rw [List.mem_singleton.mp hv]
        exact .string _)

end LibReactor
