import LibReactor.Encode
import LibReactor.Object
import LibReactor.StringValid

/-!
# What the encoder writes

`Tree.text` writes a tree by recursion, with the members of every object in the order
of their keys. The machine writes this text for every value that says the tree, and
fails where the tree has no text.
-/

namespace LibReactor

variable {L : Type}

/-! ## Escaping -/

def quotedText (ascii : Bool) (s : Bytes) : Bytes :=
  quote :: (((stringUtf8Encode s ascii).toOption.getD []) ++ [quote])

theorem encodeString_eq (options : EncodeOptions) (s : Bytes) :
    encodeString options s = .ok (quotedText options.ascii s) := by
  obtain ⟨w, hw, -⟩ := stringUtf8Encode_chars_any s options.ascii
  simp only [encodeString, hw, ok_bind, pure_eq_ok, quotedText, Except.toOption, Option.getD_some]

/-! ## The text of a tree -/

def joinItems (separator : Bytes) : Bool → List (Bytes × Option Bytes) → Option Bytes
  | _, [] => some []
  | first, (start, text) :: items => do
    let w ← text
    let rest ← joinItems separator false items
    return (if first then [] else [ch ',']) ++ (separator ++ (start ++ (w ++ rest)))

def bracketText (pretty : Bool) (depth : ℕ) (opened closed : UInt8)
    (items : List (Bytes × Option Bytes)) : Option Bytes :=
  (joinItems (newline pretty (depth + 1)) true items).map fun body =>
    opened :: (body ++ ((if items = [] then [] else newline pretty depth) ++ [closed]))

def keyText (options : EncodeOptions) (key : Bytes) : Bytes :=
  quotedText options.ascii key ++ (ch ':' :: if options.pretty then [ch ' '] else [])

namespace Tree

section Text

variable (print : L → Bytes) (options : EncodeOptions)

mutual

def text (depth : ℕ) : Tree L → Option Bytes
  | undefined => none
  | null => some (str "null")
  | bool b => some (if b then str "true" else str "false")
  | number n => some (print n)
  | string s => some (quotedText options.ascii s)
  | array ts => bracketText options.pretty depth (ch '[') (ch ']') (textList (depth + 1) ts)
  | object ms => bracketText options.pretty depth (ch '{') (ch '}') (textMembers (depth + 1) ms)

def textList (depth : ℕ) : List (Tree L) → List (Bytes × Option Bytes)
  | [] => []
  | t :: ts => ([], text depth t) :: textList depth ts

def textMembers (depth : ℕ) : List (Bytes × Tree L) → List (Bytes × Option Bytes)
  | [] => []
  | m :: ms => textMember depth m :: textMembers depth ms

def textMember (depth : ℕ) : Bytes × Tree L → Bytes × Option Bytes
  | (key, t) => (keyText options key, text depth t)

end

theorem textList_eq (depth : ℕ) (ts : List (Tree L)) :
    textList print options depth ts = ts.map (fun t => ([], t.text print options depth)) := by
  induction ts with
  | nil => rfl
  | cons t ts ih => rw [textList, ih, List.map_cons]

theorem textMembers_eq (depth : ℕ) (ms : List (Bytes × Tree L)) :
    textMembers print options depth ms =
      ms.map (fun m => (keyText options m.1, m.2.text print options depth)) := by
  induction ms with
  | nil => rfl
  | cons m ms ih => rw [textMembers, ih, List.map_cons, textMember]

end Text

end Tree

/-! ## Values whose objects hold their members -/

inductive Consistent (hashData : Bytes → UInt64) : Value L → Prop
  | undefined : Consistent hashData .undefined
  | null : Consistent hashData .null
  | bool (b : Bool) : Consistent hashData (.bool b)
  | number (n : L) : Consistent hashData (.number n)
  | string (s : Bytes) : Consistent hashData (.string s)
  | array {vs : List (Value L)} : (∀ v ∈ vs, Consistent hashData v) →
      Consistent hashData (.array vs)
  | object {m : Map (Entry L)} {ms : List (Bytes × Value L)} : Holds hashData m ms →
      (∀ x ∈ ms, Consistent hashData x.2) → Consistent hashData (.object m)
  | foreign : Consistent hashData .foreign

/-! ## The turns of a value -/

namespace Value

theorem turnsList_eq (vs : List (Value L)) :
    turnsList vs = (vs.map (fun v => 2 + v.turns)).sum := by
  induction vs with
  | nil => rfl
  | cons v vs ih => rw [turnsList, ih, List.map_cons, List.sum_cons]

theorem turnsEntries_eq (es : List (Entry L)) : turnsEntries es = (es.map turnsEntry).sum := by
  induction es with
  | nil => rfl
  | cons e es ih => rw [turnsEntries, ih, List.map_cons, List.sum_cons]

end Value

section Holds

variable {hashData : Bytes → UInt64} {m : Map (Entry L)} {ms : List (Bytes × Value L)}

theorem Holds.turns (h : Holds hashData m ms) : (Value.object m).turns =
    4 + ((sortMembers ms).map (fun x => 2 + x.2.turns)).sum := by
  have hsum := h.sum (f := Value.turnsEntry) (fun v => rfl)
  have hperm := (List.mergeSort_perm ms (fun a b => keysCompare a.1 b.1 ≤ 0)).map
    (fun x => 2 + x.2.turns)
  obtain ⟨es, count⟩ := m
  rw [Value.turns, Value.turnsMap, Value.turnsEntries_eq, hsum, sortMembers, hperm.sum_nat]
  rfl

theorem Holds.sorted_tree (h : Holds hashData m ms) : (Value.object m).tree =
    .object ((sortMembers ms).map (fun x => (x.1, x.2.tree))) := by
  rw [h.tree, map_sortMembers]

end Holds

/-! ## The machine writes the text -/

section Machine

variable (hashData : Bytes → UInt64) (print : L → Bytes) (options : EncodeOptions)

/-- Within the turns the machine has written the text and is at the end of a value
with this stack, or it has failed for want of a text. -/
def Writes (turns : ℕ) (e : Encoder L) (stack : List (Context L)) (text : Option Bytes) : Prop :=
  ∃ n ≤ turns, ∃ e', Loop.Takes (encodeValueTurn hashData print options) n e e' ∧
    match text with
    | some w => e'.state = .valueEnd ∧ e'.stack = stack ∧ e'.buffer = e.buffer ++ w
    | none => e'.state = .reject

variable {hashData print options}

theorem Writes.turn {turns : ℕ} {e e' : Encoder L} {stack : List (Context L)} {text : Option Bytes}
    {w : Bytes} (hstep : encodeValueTurn hashData print options e = .ok (.inr e'))
    (hbuffer : e'.buffer = e.buffer ++ w) (h : Writes hashData print options turns e' stack text) :
    Writes hashData print options (1 + turns) e stack (text.map (w ++ ·)) := by
  obtain ⟨n, hn, e'', htakes, hend⟩ := h
  refine ⟨1 + n, by omega, e'', (Loop.Takes.one hstep).trans htakes, ?_⟩
  cases text with
  | none => exact hend
  | some v =>
    obtain ⟨hstate, hstack, hbuffer'⟩ := hend
    refine ⟨hstate, hstack, ?_⟩
    rw [hbuffer', hbuffer, List.append_assoc]

theorem Writes.skip {turns : ℕ} {e e' : Encoder L} {stack : List (Context L)} {text : Option Bytes}
    (hstep : encodeValueTurn hashData print options e = .ok (.inr e'))
    (hbuffer : e'.buffer = e.buffer) (h : Writes hashData print options turns e' stack text) :
    Writes hashData print options (1 + turns) e stack text := by
  have hturn := Writes.turn (w := []) hstep (by rw [hbuffer, List.append_nil]) h
  cases text <;> exact hturn

theorem Writes.last {e e' : Encoder L} {w : Bytes}
    (hstep : encodeValueTurn hashData print options e = .ok (.inr e'))
    (hstate : e'.state = .valueEnd) (hbuffer : e'.buffer = e.buffer ++ w) :
    Writes hashData print options 1 e e'.stack (some w) :=
  ⟨1, Nat.le_refl 1, e', Loop.Takes.one hstep, hstate, rfl, hbuffer⟩

theorem Writes.append {turns turns' : ℕ} {e : Encoder L} {stack stack' : List (Context L)}
    {text text' : Option Bytes} (h : Writes hashData print options turns e stack text)
    (h' : ∀ v buffer,
      Writes hashData print options turns' ⟨.valueEnd, v, stack, buffer⟩ stack' text') :
    Writes hashData print options (turns + turns') e stack'
      (text.bind fun w => text'.map (w ++ ·)) := by
  obtain ⟨n, hn, e', htakes, hend⟩ := h
  cases text with
  | none => exact ⟨n, by omega, e', htakes, hend⟩
  | some w =>
    obtain ⟨hstate, hstack, hbuffer⟩ := hend
    obtain ⟨state, v, stack₁, buffer⟩ := e'
    simp only at hstate hstack hbuffer
    subst hstate hstack hbuffer
    obtain ⟨n', hn', e'', htakes', hend'⟩ := h' v (e.buffer ++ w)
    refine ⟨n + n', by omega, e'', htakes.trans htakes', ?_⟩
    cases text' with
    | none => exact hend'
    | some w' =>
      obtain ⟨hstate', hstack', hbuffer'⟩ := hend'
      exact ⟨hstate', hstack', by rw [hbuffer', List.append_assoc]⟩

/-- The loop over the elements or the members of a value: a turn for the start of each,
its value, and a turn back to the loop. -/
theorem writes_items (hashData : Bytes → UInt64) (print : L → Bytes) (options : EncodeOptions)
    (state : EncodeState) (closed : UInt8) (context : ℕ → Context L) (stack : List (Context L))
    (items : List (Bytes × Value L))
    (hback : ∀ i, (if (context i).keys.isSome then .objectRest else .arrayRest) = state)
    (hstart : ∀ i x, items[i]? = some x → ∀ v buffer,
      encodeValueTurn hashData print options ⟨state, v, context i :: stack, buffer⟩ =
        .ok (.inr ⟨.valueStart, x.2, context (i + 1) :: stack,
          buffer ++ ((if i ≠ 0 then [ch ','] else []) ++
            (newline options.pretty (stack.length + 1) ++ x.1))⟩))
    (hclose : ∀ v buffer, encodeValueTurn hashData print options
        ⟨state, v, context items.length :: stack, buffer⟩ =
      .ok (.inr ⟨.valueEnd, v, stack, buffer ++
        ((if items.length ≠ 0 then newline options.pretty stack.length else []) ++ [closed])⟩))
    (hvalue : ∀ x ∈ items, ∀ stack buffer, Writes hashData print options x.2.turns
      ⟨.valueStart, x.2, stack, buffer⟩ stack (x.2.tree.text print options stack.length))
    (front rest : List (Bytes × Value L)) (hitems : items = front ++ rest) (v : Value L)
    (buffer : Bytes) :
    Writes hashData print options (1 + (rest.map (fun x => 2 + x.2.turns)).sum)
      ⟨state, v, context front.length :: stack, buffer⟩ stack
      ((joinItems (newline options.pretty (stack.length + 1)) front.isEmpty
        (rest.map (fun x => (x.1, x.2.tree.text print options (stack.length + 1))))).map
          (· ++ ((if items = [] then [] else newline options.pretty stack.length) ++
            [closed]))) := by
  induction rest generalizing front v buffer with
  | nil =>
    have hlength : front.length = items.length := by rw [hitems, List.append_nil]
    rw [hlength]
    have hempty : (if items.length ≠ 0 then newline options.pretty stack.length else []) =
        if items = [] then [] else newline options.pretty stack.length := by
      cases items <;> simp
    have hlast := Writes.last (hclose v buffer) rfl rfl
    rw [hempty] at hlast
    exact hlast
  | cons x rest ih =>
    have hx : items[front.length]? = some x := by
      rw [hitems, List.getElem?_append_right (Nat.le_refl _), Nat.sub_self, List.getElem?_cons_zero]
    have hmem : x ∈ items := List.mem_of_getElem? hx
    have hfront : (front ++ [x]).length = front.length + 1 := by simp
    have hloop := ih (front ++ [x]) (by rw [hitems, List.append_assoc]; rfl)
    have hreturn : ∀ v buffer, Writes hashData print options
        (1 + (1 + (rest.map (fun x => 2 + x.2.turns)).sum))
        ⟨.valueEnd, v, context (front.length + 1) :: stack, buffer⟩ stack
        ((joinItems (newline options.pretty (stack.length + 1)) false
          (rest.map (fun x => (x.1, x.2.tree.text print options (stack.length + 1))))).map
          (· ++ ((if items = [] then [] else newline options.pretty stack.length) ++
            [closed]))) := by
      intro v buffer
      have hnext := hloop v buffer
      rw [hfront] at hnext
      have hfalse : (front ++ [x]).isEmpty = false := by simp
      rw [hfalse] at hnext
      have hstep : encodeValueTurn hashData print options
          ⟨.valueEnd, v, context (front.length + 1) :: stack, buffer⟩ =
          .ok (.inr ⟨state, v, context (front.length + 1) :: stack, buffer⟩) := by
        simp only [encodeValueTurn, hback, pure_eq_ok]
      exact Writes.skip hstep rfl hnext
    have hwhole := Writes.turn (hstart front.length x hx v buffer) rfl
      ((hvalue x hmem (context (front.length + 1) :: stack) _).append hreturn)
    have hturns : 1 + (x.2.turns + (1 + (1 + (rest.map (fun x => 2 + x.2.turns)).sum))) =
        1 + ((x :: rest).map (fun x => 2 + x.2.turns)).sum := by
      rw [List.map_cons, List.sum_cons]
      omega
    rw [hturns] at hwhole
    have hcomma : (if front.length ≠ 0 then [ch ','] else []) =
        if front.isEmpty then [] else [ch ','] := by
      cases front <;> simp
    rw [hcomma] at hwhole
    convert hwhole using 1
    rw [List.map_cons, joinItems, List.length_cons]
    cases x.2.tree.text print options (stack.length + 1) with
    | none => rfl
    | some w =>
      cases joinItems (newline options.pretty (stack.length + 1)) false
          (rest.map (fun x => (x.1, x.2.tree.text print options (stack.length + 1)))) with
      | none => rfl
      | some w' => simp

theorem writes_scalar {v : Value L} {stack : List (Context L)} {buffer w : Bytes}
    (hstep : encodeValueTurn hashData print options ⟨encodeStartState v, v, stack, buffer⟩ =
      .ok (.inr ⟨.valueEnd, v, stack, buffer ++ w⟩)) :
    Writes hashData print options 3 ⟨.valueStart, v, stack, buffer⟩ stack (some w) := by
  have hstart : encodeValueTurn hashData print options ⟨.valueStart, v, stack, buffer⟩ =
      .ok (.inr ⟨encodeStartState v, v, stack, buffer⟩) := rfl
  obtain ⟨n, hn, hend⟩ := Writes.skip hstart rfl (Writes.last hstep rfl rfl)
  exact ⟨n, by omega, hend⟩

/-- An array or an object: its bracket and the loop over its items. -/
theorem writes_bracket {v : Value L} {state : EncodeState} (opened : UInt8) {closed : UInt8}
    {context : ℕ → Context L} {items : List (Bytes × Value L)} {stack : List (Context L)}
    (buffer : Bytes)
    (hopen : encodeValueTurn hashData print options ⟨encodeStartState v, v, stack, buffer⟩ =
      .ok (.inr ⟨state, v, context 0 :: stack, buffer ++ [opened]⟩))
    (hturns : v.turns = 4 + (items.map (fun x => 2 + x.2.turns)).sum)
    (hitems : ∀ v buffer, Writes hashData print options
      (1 + (items.map (fun x => 2 + x.2.turns)).sum) ⟨state, v, context 0 :: stack, buffer⟩ stack
      ((joinItems (newline options.pretty (stack.length + 1)) true
        (items.map (fun x => (x.1, x.2.tree.text print options (stack.length + 1))))).map
          (· ++ ((if items = [] then [] else newline options.pretty stack.length) ++ [closed])))) :
    Writes hashData print options v.turns ⟨.valueStart, v, stack, buffer⟩ stack
      (bracketText options.pretty stack.length opened closed
        (items.map (fun x => (x.1, x.2.tree.text print options (stack.length + 1))))) := by
  have hstart : encodeValueTurn hashData print options ⟨.valueStart, v, stack, buffer⟩ =
      .ok (.inr ⟨encodeStartState v, v, stack, buffer⟩) := rfl
  obtain ⟨n, hn, e', htakes, hend⟩ := Writes.skip hstart rfl (Writes.turn hopen rfl (hitems v _))
  refine ⟨n, by omega, e', htakes, ?_⟩
  have hnil : (items.map fun x => (x.1, x.2.tree.text print options (stack.length + 1))) = [] ↔
      items = [] := List.map_eq_nil_iff
  simp only [bracketText, hnil]
  cases hjoin : joinItems (newline options.pretty (stack.length + 1)) true
      (items.map (fun x => (x.1, x.2.tree.text print options (stack.length + 1)))) with
  | none =>
    rw [hjoin] at hend
    exact hend
  | some body =>
    rw [hjoin] at hend
    exact hend

theorem encodeValueTurn_arrayRest {vs : List (Value L)} {i : ℕ} {x : Value L}
    (hx : vs[i]? = some x) (v : Value L) (stack : List (Context L)) (buffer : Bytes) :
    encodeValueTurn hashData print options ⟨.arrayRest, v, ⟨.array vs, none, i⟩ :: stack, buffer⟩ =
      .ok (.inr ⟨.valueStart, x, ⟨.array vs, none, i + 1⟩ :: stack, buffer ++
        ((if i ≠ 0 then [ch ','] else []) ++ newline options.pretty (stack.length + 1))⟩) := by
  have hlt : i ≠ vs.length := by
    obtain ⟨hlt, -⟩ := List.getElem?_eq_some_iff.mp hx
    omega
  simp only [encodeValueTurn, encodeArrayRest, contextBack, ok_bind, Value.arrayLength, if_neg hlt,
    Value.arrayGet, hx, pure_eq_ok, Except.map_ok, encodeSeparator, List.length_cons,
    List.tail_cons]

theorem encodeValueTurn_arrayClose (vs : List (Value L)) (v : Value L) (stack : List (Context L))
    (buffer : Bytes) : encodeValueTurn hashData print options
        ⟨.arrayRest, v, ⟨.array vs, none, vs.length⟩ :: stack, buffer⟩ =
      .ok (.inr ⟨.valueEnd, v, stack, buffer ++
        ((if vs.length ≠ 0 then newline options.pretty stack.length else []) ++ [ch ']'])⟩) := by
  simp only [encodeValueTurn, encodeArrayRest, contextBack, ok_bind, Value.arrayLength, if_true,
    pure_eq_ok, Except.map_ok, encodeClose, List.tail_cons]

section Object

variable {m : Map (Entry L)} {ms : List (Bytes × Value L)}

theorem encodeValueTurn_objectRest (hm : Holds hashData m ms) {i : ℕ} {x : Bytes × Value L}
    (hx : (sortMembers ms)[i]? = some x) (v : Value L) (stack : List (Context L))
    (buffer : Bytes) : encodeValueTurn hashData print options
        ⟨.objectRest, v, ⟨.object m, some (Value.object m).objectKeys, i⟩ :: stack, buffer⟩ =
      .ok (.inr ⟨.valueStart, x.2,
        ⟨.object m, some (Value.object m).objectKeys, i + 1⟩ :: stack, buffer ++
        ((if i ≠ 0 then [ch ','] else []) ++
          (newline options.pretty (stack.length + 1) ++ keyText options x.1))⟩) := by
  have hlt : i ≠ (sortMembers ms).length := by
    obtain ⟨hlt, -⟩ := List.getElem?_eq_some_iff.mp hx
    omega
  have hget : (Value.object m).objectGet hashData x.1 = .ok x.2 :=
    hm.objectGet (List.mem_mergeSort.mp (List.mem_of_getElem? hx))
  have hkey : ((sortMembers ms).map fun x => (Value.string x.1 : Value L))[i]? =
      some (.string x.1) := by
    rw [List.getElem?_map, hx]
    rfl
  simp only [encodeValueTurn, encodeObjectRest, contextBack, ok_bind, Option.getD_some,
    hm.objectKeys, Value.arrayLength, List.length_map, if_neg hlt, Value.arrayGet, hkey,
    Value.stringGet, encodeString_eq, hget, pure_eq_ok, Except.map_ok, encodeSeparator,
    List.length_cons, List.tail_cons, keyText, List.append_assoc]

theorem encodeValueTurn_objectClose (hm : Holds hashData m ms) (v : Value L)
    (stack : List (Context L)) (buffer : Bytes) : encodeValueTurn hashData print options
        ⟨.objectRest, v, ⟨.object m, some (Value.object m).objectKeys, (sortMembers ms).length⟩ ::
          stack, buffer⟩ =
      .ok (.inr ⟨.valueEnd, v, stack, buffer ++
        ((if (sortMembers ms).length ≠ 0 then newline options.pretty stack.length else []) ++
          [ch '}'])⟩) := by
  simp only [encodeValueTurn, encodeObjectRest, contextBack, ok_bind, Option.getD_some,
    hm.objectKeys, Value.arrayLength, List.length_map, if_true, pure_eq_ok, Except.map_ok,
    encodeClose, List.tail_cons]

end Object

/-- The encoder writes the text of what the value says. -/
theorem Consistent.writes {v : Value L} (h : Consistent hashData v) :
    ∀ stack buffer, Writes hashData print options v.turns ⟨.valueStart, v, stack, buffer⟩ stack
      (v.tree.text print options stack.length) := by
  induction h with
  | undefined =>
    intro stack buffer
    exact ⟨1, by simp only [Value.turns]; omega, _, Loop.Takes.one rfl, rfl⟩
  | null => exact fun stack buffer => writes_scalar rfl
  | bool b =>
    intro stack buffer
    cases b <;> exact writes_scalar rfl
  | number n => exact fun stack buffer => writes_scalar rfl
  | string s =>
    intro stack buffer
    refine writes_scalar ?_
    simp only [encodeStartState, encodeValueTurn, Value.stringGet, encodeString_eq, ok_bind,
      pure_eq_ok]
  | @array vs _ ih =>
    intro stack buffer
    let items : List (Bytes × Value L) := vs.map fun v => ([], v)
    have hget : ∀ (i : ℕ) x, items[i]? = some x → vs[i]? = some x.2 ∧ x.1 = [] := by
      intro i x hx
      rw [List.getElem?_map, Option.map_eq_some_iff] at hx
      obtain ⟨w, hw, rfl⟩ := hx
      exact ⟨hw, rfl⟩
    have hlength : items.length = vs.length := List.length_map _
    have hloop := writes_items hashData print options .arrayRest (ch ']')
      (fun i => ⟨.array vs, none, i⟩) stack items (fun i => rfl)
      (fun i x hx v buffer => by
        obtain ⟨hx', hnil⟩ := hget i x hx
        rw [encodeValueTurn_arrayRest hx', hnil, List.append_nil])
      (fun v buffer => by rw [hlength, encodeValueTurn_arrayClose])
      (fun x hx => by
        obtain ⟨w, hw, rfl⟩ := List.mem_map.mp hx
        exact ih w hw)
      [] items rfl
    have hturns : (Value.array vs).turns = 4 + (items.map (fun x => 2 + x.2.turns)).sum := by
      rw [Value.turns, Value.turnsList_eq, List.map_map]
      rfl
    have hwrites := writes_bracket (ch '[') buffer rfl hturns hloop
    rw [Value.tree, Tree.text, Tree.textList_eq, Value.treeList_eq, List.map_map]
    rw [List.map_map] at hwrites
    exact hwrites
  | @object m ms hm _ ih =>
    intro stack buffer
    let items : List (Bytes × Value L) :=
      (sortMembers ms).map fun x => (keyText options x.1, x.2)
    have hlength : items.length = (sortMembers ms).length := List.length_map _
    have hloop := writes_items hashData print options .objectRest (ch '}')
      (fun i => ⟨.object m, some (Value.object m).objectKeys, i⟩) stack items (fun i => rfl)
      (fun i x hx v buffer => by
        rw [List.getElem?_map, Option.map_eq_some_iff] at hx
        obtain ⟨w, hw, rfl⟩ := hx
        exact encodeValueTurn_objectRest hm hw v stack buffer)
      (fun v buffer => by rw [hlength, encodeValueTurn_objectClose hm])
      (fun x hx => by
        obtain ⟨w, hw, rfl⟩ := List.mem_map.mp hx
        exact ih w (List.mem_mergeSort.mp hw))
      [] items rfl
    have hturns : (Value.object m).turns = 4 + (items.map (fun x => 2 + x.2.turns)).sum := by
      rw [hm.turns, List.map_map]
      rfl
    have hwrites := writes_bracket (ch '{') buffer rfl hturns hloop
    rw [hm.sorted_tree, Tree.text, Tree.textMembers_eq, List.map_map]
    rw [List.map_map] at hwrites
    exact hwrites
  | foreign =>
    intro stack buffer
    exact ⟨1, by simp only [Value.turns]; omega, _, Loop.Takes.one rfl, rfl⟩

variable (print options) in
/-- `value_buffer_encode` appends the text of what the value says, and fails if it has none. -/
theorem Consistent.bufferEncode {v : Value L} (h : Consistent hashData v) :
    match v.tree.text print options 0 with
    | some w => valueBufferEncode hashData print v options = .ok (true, w)
    | none => ∃ buffer, valueBufferEncode hashData print v options = .ok (false, buffer) := by
  obtain ⟨n, hn, e', htakes, hend⟩ :
      Writes hashData print options v.turns ⟨.valueStart, v, [], []⟩ []
        (v.tree.text print options 0) :=
    h.writes [] []
  cases htext : v.tree.text print options 0 with
  | none =>
    rw [htext] at hend
    have hreject : encodeValueTurn hashData print options e' = .ok (.inl (false, e'.buffer)) := by
      simp only [encodeValueTurn, hend, pure_eq_ok]
    have hrun := htakes.run_done hreject (show n < v.turns + 2 by omega)
    exact ⟨e'.buffer, by rw [valueBufferEncode, Loop.within, hrun, Option.getD_some]⟩
  | some w =>
    rw [htext] at hend
    obtain ⟨hstate, hstack, hbuffer⟩ := hend
    have haccept : encodeValueTurn hashData print options e' =
        .ok (.inr { e' with state := .accept }) := by
      simp only [encodeValueTurn, hstate, hstack, pure_eq_ok]
    have hdone : encodeValueTurn hashData print options { e' with state := .accept } =
      .ok (.inl (true, e'.buffer)) := rfl
    have hrun := (htakes.trans (Loop.Takes.one haccept)).run_done hdone
      (show n + 1 < v.turns + 2 by omega)
    rw [List.nil_append] at hbuffer
    show valueBufferEncode hashData print v options = .ok (true, w)
    rw [valueBufferEncode, Loop.within, hrun, Option.getD_some, hbuffer]

/-- `value_encode` returns the text of what the value says, and `string_null()` if it
has none. -/
theorem Consistent.valueEncode {v : Value L} (h : Consistent hashData v) :
    valueEncode hashData print v options = .ok (v.tree.text print options 0) := by
  have hbuffer := h.bufferEncode print options
  cases htext : v.tree.text print options 0 with
  | none =>
    rw [htext] at hbuffer
    obtain ⟨buffer, hbuffer⟩ := hbuffer
    simp only [LibReactor.valueEncode, hbuffer, ok_bind, pure_eq_ok, Bool.not_false, if_true]
  | some w =>
    rw [htext] at hbuffer
    dsimp only at hbuffer
    simp only [LibReactor.valueEncode, hbuffer, ok_bind, pure_eq_ok, Bool.not_true,
      Bool.false_eq_true, if_false, List.length_append, List.length_singleton,
      Nat.add_sub_cancel, List.take_left]

end Machine

end LibReactor
