import LibReactor.MapRefinement

/-!
# Who releases the elements of a map

The elements given to a map and the elements that its functions hand to `release`, over a run of
calls: at every point those released and those stored are together those that were given.
-/

namespace LibReactor

open LinearProbing

variable {ε : Type}

def MapCall.given : MapCall ε → List ε
  | .insert e => [e]
  | .reserve _ | .erase _ | .clear => []

namespace Map

/-- A map with the elements that were given to it and those that it released. -/
structure Ledger (ε : Type) where
  map : Map ε
  inserted : List ε
  released : List ε

/-- A call with an element that is not empty and a table that can be allocated. -/
def Fits (ops : MapOps ε) (m : Map ε) : MapCall ε → Prop
  | .reserve size => size ≤ 2 ^ 62
  | .insert e => ops.Full e ∧ m.elementsCount < 2 ^ 62
  | .erase _ | .clear => True

inductive Reaches (ops : MapOps ε) : Ledger ε → Prop
  | construct {m : Map ε} : mapConstruct ops = .ok m → Reaches ops ⟨m, [], []⟩
  | call {s : Ledger ε} {c : MapCall ε} {m : Map ε} {released : List ε} : Reaches ops s →
      Fits ops s.map c → s.map.call ops c = .ok (m, released) →
      Reaches ops ⟨m, c.given ++ s.inserted, s.released ++ released⟩

section Release

variable {ops : MapOps ε} {m : Map ε} {l : List ε}

/-- `map_erase` releases an element that the map holds, or changes nothing. -/
theorem Represents.mapErase_any (hops : ops.Lawful) (h : Represents ops m l) (e : ε) :
    ∃ m' released l', Map.mapErase ops m e = .ok (m', released) ∧ Represents ops m' l' ∧
      (released ++ l').Perm l := by
  obtain ⟨i, -, hfind, -, -⟩ := h.run_findTurn_stop e
  cases hx : slots ops m.elements i with
  | none =>
    refine ⟨m, [], l, ?_, h, List.Perm.refl _⟩
    rw [Map.mapErase, hfind, ok_bind, hx]
    rfl
  | some x =>
    rw [hx] at hfind
    obtain ⟨m', herase, hm'⟩ := h.mapErase_slot hops hfind hx (List.Perm.refl _)
    exact ⟨m', [x], _, herase, hm', (stored_clear hx hops.set_none).symm.trans h.perm⟩

/-- The step lemma: what a call gives to the map is stored or released. -/
theorem Represents.call_given (hops : ops.Lawful) (h : Represents ops m l) {c : MapCall ε}
    (hc : Fits ops m c) :
    ∃ m' released l', m.call ops c = .ok (m', released) ∧ Represents ops m' l' ∧
      (released ++ l').Perm (c.given ++ l) := by
  cases c with
  | reserve size =>
    obtain ⟨m', hreserve, hm'⟩ := h.mapReserve hops hc
    exact ⟨m', [], l, by rw [Map.call, hreserve]; rfl, hm', List.Perm.refl _⟩
  | insert e =>
    obtain ⟨hfull, hcount⟩ := hc
    obtain ⟨m', hinsert, hm'⟩ := h.mapInsert hops hfull (h.count ▸ hcount)
    refine ⟨m', _, _, hinsert, hm', ?_⟩
    cases hany : l.any (fun x => ops.equal x (some e)) with
    | true =>
      rw [insertEntry, if_pos hany]
      exact List.Perm.refl _
    | false =>
      rw [insertEntry, hany]
      exact List.perm_append_singleton e l
  | erase e => exact h.mapErase_any hops e
  | clear =>
    obtain ⟨m', released, hclear, hm', hperm⟩ := h.mapClear hops
    exact ⟨m', released, [], hclear, hm', by rwa [List.append_nil]⟩

theorem Reaches.represents (hops : ops.Lawful) {s : Ledger ε} (h : Reaches ops s) :
    ∃ l, Represents ops s.map l ∧ (s.released ++ l).Perm s.inserted := by
  induction h with
  | construct hm =>
    obtain ⟨m, hconstruct, hrep⟩ := represents_mapConstruct hops
    obtain rfl := Except.ok.inj (hm.symm.trans hconstruct)
    exact ⟨[], hrep, List.Perm.refl _⟩
  | @call s c m released _ hc hcall ih =>
    obtain ⟨l, hrep, hperm⟩ := ih
    obtain ⟨m', released', l', hcall', hrep', hperm'⟩ := hrep.call_given hops hc
    obtain ⟨rfl, rfl⟩ := Prod.mk.inj (Except.ok.inj (hcall.symm.trans hcall'))
    refine ⟨l', hrep', ?_⟩
    calc (s.released ++ released ++ l').Perm (s.released ++ (released ++ l')) :=
          List.Perm.of_eq (List.append_assoc ..)
      _ |>.Perm (s.released ++ (c.given ++ l)) := hperm'.append_left _
      _ |>.Perm (c.given ++ (s.released ++ l)) := List.perm_append_comm_assoc ..
      _ |>.Perm (c.given ++ s.inserted) := hperm.append_left _

end Release

/-- A duplicate is rejected, and of two elements that collide the first one is erased. -/
theorem reaches_collision : Reaches numberOps
    ⟨⟨[0, 0, 0, 0, 0, 0, 0, 65543], 1⟩, [65543, 65543, 7], [65543, 7]⟩ := by
  have hnew : Reaches numberOps ⟨⟨List.replicate 8 0, 0⟩, [], []⟩ := .construct rfl
  have hfirst := hnew.call (c := .insert 7) (m := ⟨[0, 0, 0, 0, 0, 0, 0, 7], 1⟩)
    ⟨rfl, by decide⟩ rfl
  have hsecond := hfirst.call (c := .insert 65543) (m := ⟨[65543, 0, 0, 0, 0, 0, 0, 7], 2⟩)
    ⟨rfl, by decide⟩ rfl
  have hduplicate := hsecond.call (c := .insert 65543) (m := ⟨[65543, 0, 0, 0, 0, 0, 0, 7], 2⟩)
    ⟨rfl, by decide⟩ rfl
  exact hduplicate.call (c := .erase 7) (m := ⟨[0, 0, 0, 0, 0, 0, 0, 65543], 1⟩) trivial rfl

end Map

end LibReactor
