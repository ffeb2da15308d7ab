import LibReactor.LinearProbing
import LibReactor.Map

/-!
# The invariant of the hash map

A map represents a list of elements with different keys: its slots hold them, each
reachable by linear probing from the slot its hash selects, and at least half of
the slots are empty. Every function of the map keeps this invariant.
-/

namespace LibReactor

open LinearProbing

variable {ε : Type}

namespace MapOps

def Full (ops : MapOps ε) (e : ε) : Prop := ops.equal e none = false

/-- The comparison is an equivalence on elements that are not empty, which the hash respects,
and `set` copies an element or empties it. -/
structure Lawful (ops : MapOps ε) : Prop where
  refl : ∀ a, ops.Full a → ops.equal a (some a) = true
  symm : ∀ a b, ops.Full a → ops.Full b → ops.equal a (some b) = true →
    ops.equal b (some a) = true
  trans : ∀ a b c, ops.Full a → ops.Full b → ops.Full c → ops.equal a (some b) = true →
    ops.equal b (some c) = true → ops.equal a (some c) = true
  hash : ∀ a b, ops.Full a → ops.Full b → ops.equal a (some b) = true → ops.hash a = ops.hash b
  set_some : ∀ e, ops.set (some e) = e
  set_none : ops.equal (ops.set none) none = true

end MapOps

namespace Map

variable (ops : MapOps ε)

def slots (l : List ε) (i : ℕ) : Option ε := (l[i]?).filter (fun e => !ops.equal e none)

def home (c : ℕ) (e : ε) : ℕ := (ops.hash e).toNat % c

def stored (l : List ε) : List ε := l.filter (fun e => !ops.equal e none)

section Slots

variable {ops} {l : List ε} {i : ℕ} {x y : ε}

theorem slots_eq_some : slots ops l i = some x ↔ l[i]? = some x ∧ ops.Full x := by
  simp [slots, Option.filter_eq_some_iff, MapOps.Full]

theorem slots_eq_none (h : l[i]? = some x) : slots ops l i = none ↔ ops.equal x none = true := by
  simp [slots, h]

theorem lt_of_slots (h : slots ops l i = some x) : i < l.length :=
  (List.getElem?_eq_some_iff.mp (slots_eq_some.mp h).1).1

theorem mem_stored : x ∈ stored ops l ↔ ∃ i, slots ops l i = some x := by
  constructor
  · intro h
    obtain ⟨hmem, hfull⟩ := List.mem_filter.mp h
    obtain ⟨i, hi⟩ := List.mem_iff_getElem?.mp hmem
    exact ⟨i, slots_eq_some.mpr ⟨hi, by simpa [MapOps.Full] using hfull⟩⟩
  · rintro ⟨i, hi⟩
    obtain ⟨hget, hfull⟩ := slots_eq_some.mp hi
    exact List.mem_filter.mpr ⟨List.mem_of_getElem? hget, by simpa [MapOps.Full] using hfull⟩

theorem slots_set_full (hi : i < l.length) (hy : ops.Full y) :
    slots ops (l.set i y) = Function.update (slots ops l) i (some y) := by
  funext k
  by_cases hk : k = i
  · subst hk
    rw [Function.update_self, slots_eq_some]
    exact ⟨List.getElem?_set_self hi, hy⟩
  · rw [Function.update_of_ne hk, slots, List.getElem?_set_ne (Ne.symm hk)]
    rfl

theorem slots_set_empty (hi : i < l.length) (hy : ops.equal y none = true) :
    slots ops (l.set i y) = Function.update (slots ops l) i none := by
  funext k
  by_cases hk : k = i
  · subst hk
    rw [Function.update_self]
    exact (slots_eq_none (List.getElem?_set_self hi)).mpr hy
  · rw [Function.update_of_ne hk, slots, List.getElem?_set_ne (Ne.symm hk)]
    rfl

theorem exists_split (h : l[i]? = some x) : ∃ pre post, l = pre ++ x :: post ∧ pre.length = i := by
  obtain ⟨hi, rfl⟩ := List.getElem?_eq_some_iff.mp h
  exact ⟨l.take i, l.drop (i + 1), by simp, by simp; omega⟩

/-- Filling an empty slot adds its element. -/
theorem stored_set (hx : l[i]? = some x) (hempty : ops.equal x none = true) (hy : ops.Full y) :
    (stored ops (l.set i y)).Perm (y :: stored ops l) := by
  obtain ⟨pre, post, rfl, rfl⟩ := exists_split hx
  have hy' : ops.equal y none = false := hy
  simp [stored, hempty, hy', List.perm_middle]

/-- Emptying a slot takes its element away. -/
theorem stored_clear (hx : slots ops l i = some x) (hy : ops.equal y none = true) :
    (stored ops l).Perm (x :: stored ops (l.set i y)) := by
  obtain ⟨hget, hfull⟩ := slots_eq_some.mp hx
  obtain ⟨pre, post, rfl, rfl⟩ := exists_split hget
  have hfull' : ops.equal x none = false := hfull
  simp [stored, hy, hfull', List.perm_middle]

end Slots

/-- The map holds the elements of a list, one for each key. -/
structure Represents (m : Map ε) (l : List ε) : Prop where
  capacity : ∃ k, m.elements.length = 2 ^ k
  room : 2 * m.elementsCount ≤ m.elements.length
  count : m.elementsCount = l.length
  reachable : Reachable m.elements.length (home ops m.elements.length) (slots ops m.elements)
  distinct : ∀ i j a b, slots ops m.elements i = some a → slots ops m.elements j = some b →
    ops.equal a (some b) = true → i = j
  perm : (stored ops m.elements).Perm l

theorem represents_nil (hops : ops.Lawful) (k : ℕ) :
    Represents ops ⟨List.replicate (2 ^ k) (ops.set none), 0⟩ [] := by
  have hslots : slots ops (List.replicate (2 ^ k) (ops.set none)) = fun _ => none := by
    funext i
    simp [slots, List.getElem?_replicate, hops.set_none]
  refine ⟨⟨k, by simp⟩, by simp, rfl, ?_, ?_, ?_⟩
  · rw [hslots]
    exact reachable_none _ _
  · intro i j a b ha
    rw [hslots] at ha
    cases ha
  · simp [stored, hops.set_none]

section Represents

variable {ops} {m : Map ε} {l : List ε} (h : Represents ops m l)
include h

theorem Represents.pos : 0 < m.elements.length := by
  obtain ⟨k, hk⟩ := h.capacity
  rw [hk]
  exact Nat.two_pow_pos k

theorem Represents.home_lt (e : ε) : home ops m.elements.length e < m.elements.length :=
  Nat.mod_lt _ h.pos

theorem Represents.mask (i : ℕ) : i &&& (m.elementsCapacity - 1) = i % m.elements.length := by
  obtain ⟨k, hk⟩ := h.capacity
  rw [elementsCapacity, hk, Nat.and_two_pow_sub_one_eq_mod]

theorem Represents.length_stored : (stored ops m.elements).length = m.elementsCount := by
  rw [h.perm.length_eq, h.count]

theorem Represents.exists_empty : ∃ i < m.elements.length, slots ops m.elements i = none := by
  by_contra hno
  have hall : ∀ x ∈ m.elements, (!ops.equal x none) = true := by
    intro x hx
    obtain ⟨i, hi⟩ := List.mem_iff_getElem?.mp hx
    have hlt := (List.getElem?_eq_some_iff.mp hi).1
    by_contra hempty
    exact hno ⟨i, hlt, (slots_eq_none hi).mpr (by simpa using hempty)⟩
  have hlen := h.length_stored
  rw [stored, List.filter_eq_self.mpr hall] at hlen
  have := h.pos
  have := h.room
  omega

theorem Represents.mem_iff (x : ε) : x ∈ l ↔ ∃ i, slots ops m.elements i = some x := by
  rw [← h.perm.mem_iff, mem_stored]

end Represents

/-! ## Searching -/

def Stops (m : Map ε) (e : ε) (i : ℕ) : Prop :=
  slots ops m.elements i = none ∨
    ∃ x, slots ops m.elements i = some x ∧ ops.equal x (some e) = true

/-- The slot a search finds: it holds the element with the key of `e`, or there is none and the
slot is the first empty one from the home of `e`. -/
def Found (m : Map ε) (l : List ε) (e : ε) (i : ℕ) : Prop :=
  (∃ x ∈ l, slots ops m.elements i = some x ∧ ops.equal x (some e) = true) ∨
  (slots ops m.elements i = none ∧ (∀ x ∈ l, ops.equal x (some e) = false) ∧
    ∀ k < m.elements.length, slots ops m.elements k = none →
      dist m.elements.length (home ops m.elements.length e) i ≤
        dist m.elements.length (home ops m.elements.length e) k)

section Search

variable {ops} {m : Map ε} {l : List ε} {e x : ε} {i : ℕ}

theorem stops_iff (hx : m.elements[i]? = some x) :
    Stops ops m e i ↔ (ops.equal x none || ops.equal x (some e)) = true := by
  rw [Bool.or_eq_true, Stops, slots_eq_none hx]
  constructor
  · rintro (hnone | ⟨y, hy, heq⟩)
    · exact .inl hnone
    · obtain rfl := Option.some.inj ((slots_eq_some.mp hy).1.symm.trans hx)
      exact .inr heq
  · rintro (hnone | heq)
    · exact .inl hnone
    · by_cases hnone : ops.equal x none = true
      · exact .inl hnone
      · exact .inr ⟨x, slots_eq_some.mpr ⟨hx, by simpa [MapOps.Full] using hnone⟩, heq⟩

theorem element_eq (h : i < m.elements.length) :
    ∃ x, m.elements[i]? = some x ∧ m.element i = .ok x :=
  ⟨m.elements[i], List.getElem?_eq_getElem h, by simp [element, h]⟩

theorem Represents.found (hops : ops.Lawful) (h : Represents ops m l) (he : ops.Full e)
    (hi : i < m.elements.length) (hstop : Stops ops m e i)
    (hfirst : ∀ k < m.elements.length, Stops ops m e k →
      dist m.elements.length (home ops m.elements.length e) i ≤
        dist m.elements.length (home ops m.elements.length e) k) : Found ops m l e i := by
  rcases hstop with hnone | ⟨x, hx, heq⟩
  · refine .inr ⟨hnone, fun x hx => ?_, fun k hk hempty => hfirst k hk (.inl hempty)⟩
    by_contra heq
    have heq' : ops.equal x (some e) = true := by simpa using heq
    obtain ⟨s, hs⟩ := (h.mem_iff x).mp hx
    have hlt := lt_of_slots hs
    have hhome : home ops m.elements.length x = home ops m.elements.length e := by
      rw [home, home, hops.hash x e (slots_eq_some.mp hs).2 he heq']
    have hreach := h.reachable s i x hlt hi hs hnone
    have := hfirst s hlt (.inr ⟨x, hs, heq'⟩)
    rw [hhome] at hreach
    omega
  · exact .inl ⟨x, (h.mem_iff x).mpr ⟨i, hx⟩, hx, heq⟩

/-- A loop that stops where the search stops ends at the first such slot. -/
theorem Represents.run_stop (h : Represents ops m l) {ρ : Type}
    {turn : ℕ → Except Fault (ρ ⊕ ℕ)} {result : ℕ → ρ}
    (hdone : ∀ i, Stops ops m e (i % m.elements.length) →
      turn i = .ok (.inl (result (i % m.elements.length))))
    (hnext : ∀ i, ¬ Stops ops m e (i % m.elements.length) →
      turn i = .ok (.inr (i % m.elements.length + 1))) :
    ∃ i < m.elements.length, Loop.within .hang turn (m.elementsCapacity + 1) (ops.hash e).toNat =
      .ok (result i) ∧ Stops ops m e i ∧ ∀ k < m.elements.length, Stops ops m e k →
        dist m.elements.length (home ops m.elements.length e) i ≤
          dist m.elements.length (home ops m.elements.length e) k := by
  obtain ⟨s, hs, hempty⟩ := h.exists_empty
  obtain ⟨i, hi, hrun, hstop, hfirst⟩ := run_probe hdone hnext hs (.inl hempty)
    (ops.hash e).toNat (Nat.lt_succ_self _)
  refine ⟨i, hi, ?_, hstop, hfirst⟩
  rw [Loop.within, elementsCapacity, hrun]
  rfl

theorem Represents.mapAt_stop (h : Represents ops m l) (e : ε) :
    ∃ i < m.elements.length, mapAt ops m e = .ok i ∧ Stops ops m e i ∧
      ∀ k < m.elements.length, Stops ops m e k →
        dist m.elements.length (home ops m.elements.length e) i ≤
          dist m.elements.length (home ops m.elements.length e) k := by
  refine h.run_stop (fun i hstop => ?_) (fun i hstop => ?_)
  · obtain ⟨x, hget, helement⟩ := element_eq (m := m) (Nat.mod_lt i h.pos)
    simp only [atTurn, h.mask, helement, ok_bind, (stops_iff hget).mp hstop, if_true, pure_eq_ok]
  · obtain ⟨x, hget, helement⟩ := element_eq (m := m) (Nat.mod_lt i h.pos)
    rw [stops_iff hget] at hstop
    simp only [atTurn, h.mask, helement, ok_bind, if_neg hstop, pure_eq_ok]

theorem Represents.mapAt (hops : ops.Lawful) (h : Represents ops m l) (he : ops.Full e) :
    ∃ i < m.elements.length, mapAt ops m e = .ok i ∧ Found ops m l e i := by
  obtain ⟨i, hi, hat, hstop, hfirst⟩ := h.mapAt_stop e
  exact ⟨i, hi, hat, h.found hops he hi hstop hfirst⟩

theorem Represents.run_findTurn_stop (h : Represents ops m l) (e : ε) :
    ∃ i < m.elements.length,
      Loop.within .hang (findTurn ops m e) (m.elementsCapacity + 1) (ops.hash e).toNat =
        .ok (if (slots ops m.elements i).isSome then some i else none) ∧ Stops ops m e i ∧
      ∀ k < m.elements.length, Stops ops m e k →
        dist m.elements.length (home ops m.elements.length e) i ≤
          dist m.elements.length (home ops m.elements.length e) k := by
  refine h.run_stop (fun i hstop => ?_) (fun i hstop => ?_)
  · obtain ⟨x, hget, helement⟩ := element_eq (m := m) (Nat.mod_lt i h.pos)
    by_cases hnone : ops.equal x none = true
    · have hslot := (slots_eq_none hget).mpr hnone
      simp only [findTurn, h.mask, helement, ok_bind, if_pos hnone, hslot, pure_eq_ok]
      rfl
    · have hslot : slots ops m.elements (i % m.elements.length) = some x :=
        slots_eq_some.mpr ⟨hget, by simpa [MapOps.Full] using hnone⟩
      have heq : ops.equal x (some e) = true := by
        simpa [hnone] using (stops_iff hget).mp hstop
      simp only [findTurn, h.mask, helement, ok_bind, if_neg hnone, heq, if_true, hslot, pure_eq_ok]
      rfl
  · obtain ⟨x, hget, helement⟩ := element_eq (m := m) (Nat.mod_lt i h.pos)
    rw [stops_iff hget, Bool.or_eq_true, not_or] at hstop
    simp only [findTurn, h.mask, helement, ok_bind, if_neg hstop.1, if_neg hstop.2, pure_eq_ok]

theorem Represents.run_findTurn (hops : ops.Lawful) (h : Represents ops m l) (he : ops.Full e) :
    ∃ i < m.elements.length,
      Loop.within .hang (findTurn ops m e) (m.elementsCapacity + 1) (ops.hash e).toNat =
        .ok (if (slots ops m.elements i).isSome then some i else none) ∧ Found ops m l e i := by
  obtain ⟨i, hi, hfind, hstop, hfirst⟩ := h.run_findTurn_stop e
  exact ⟨i, hi, hfind, h.found hops he hi hstop hfirst⟩

end Search

end Map

end LibReactor
