import LibReactor.MapInvariant
import Mathlib.Data.List.Find

/-!
# The hash map refines a finite map

Insertion adds an element whose key is new, erasing takes out the element with a
key, and a rehash keeps all elements; with `Represents` as the simulation relation
every sequence of calls on the hash map follows the calls on the finite map.
-/

namespace LibReactor

open LinearProbing

variable {ε : Type}

namespace Map

variable (ops : MapOps ε)

def insertEntry (l : List ε) (e : ε) : List ε :=
  if l.any (fun x => ops.equal x (some e)) then l else l ++ [e]

def eraseEntry (l : List ε) (e : ε) : List ε := l.filter (fun x => !ops.equal x (some e))

section Insert

variable {ops} {m : Map ε} {l : List ε} {e : ε}

/-- An element with a new key is put into the first empty slot from its home. -/
theorem Represents.put (hops : ops.Lawful) (h : Represents ops m l) (he : ops.Full e)
    (hroom : 2 * (m.elementsCount + 1) ≤ m.elements.length) {i : ℕ} (hi : i < m.elements.length)
    (hempty : slots ops m.elements i = none) (hnew : ∀ x ∈ l, ops.equal x (some e) = false)
    (hfirst : ∀ k < m.elements.length, slots ops m.elements k = none →
      dist m.elements.length (home ops m.elements.length e) i ≤
        dist m.elements.length (home ops m.elements.length e) k) :
    Represents ops ⟨m.elements.set i e, m.elementsCount + 1⟩ (l ++ [e]) := by
  obtain ⟨x, hx, -⟩ := element_eq (m := m) hi
  have hslots : slots ops (m.elements.set i e) = _ := slots_set_full hi he
  refine ⟨by simpa using h.capacity, by simpa using hroom, by simp [h.count], ?_, ?_, ?_⟩
  · rw [hslots, List.length_set]
    exact h.reachable.put (h.home_lt e) hi hfirst
  · intro j k a b ha hb hab
    rw [hslots] at ha hb
    by_cases hj : j = i <;> by_cases hk : k = i
    · rw [hj, hk]
    · subst hj
      rw [Function.update_self] at ha
      rw [Function.update_of_ne hk] at hb
      obtain rfl := Option.some.inj ha
      have hmem := (h.mem_iff b).mpr ⟨k, hb⟩
      have := hops.symm e b he (slots_eq_some.mp hb).2 hab
      rw [hnew b hmem] at this
      cases this
    · subst hk
      rw [Function.update_self] at hb
      rw [Function.update_of_ne hj] at ha
      obtain rfl := Option.some.inj hb
      rw [hnew a ((h.mem_iff a).mpr ⟨j, ha⟩)] at hab
      cases hab
    · rw [Function.update_of_ne hj] at ha
      rw [Function.update_of_ne hk] at hb
      exact h.distinct j k a b ha hb hab
  · have hstored := stored_set hx ((slots_eq_none hx).mp hempty) he
    exact hstored.trans ((h.perm.cons e).trans (List.perm_append_singleton e l).symm)

/-- An insertion into a map with room, which keeps the capacity. -/
def InsertsInto (ops : MapOps ε) (insert : Map ε → ε → Except Fault (Map ε × List ε)) : Prop :=
  ∀ m l e, Represents ops m l → ops.Full e → 2 * (m.elementsCount + 1) ≤ m.elements.length →
    ∃ m', insert m e = .ok (m', if l.any (fun x => ops.equal x (some e)) then [e] else []) ∧
      Represents ops m' (insertEntry ops l e) ∧ m'.elements.length = m.elements.length

theorem Represents.insert_reserved (hops : ops.Lawful) (h : Represents ops m l) (he : ops.Full e)
    (hroom : 2 * (m.elementsCount + 1) ≤ m.elements.length) :
    ∃ m', (do
      let i ← Map.mapAt ops m e
      let test ← m.element i
      if ops.equal test none then
        return (⟨m.elements.set i (ops.set (some e)), m.elementsCount + 1⟩, [])
      return (m, [e]) : Except Fault (Map ε × List ε)) =
        .ok (m', if l.any (fun x => ops.equal x (some e)) then [e] else []) ∧
      Represents ops m' (insertEntry ops l e) ∧ m'.elements.length = m.elements.length := by
  obtain ⟨i, hi, hat, hfound⟩ := h.mapAt hops he
  obtain ⟨x, hget, helement⟩ := element_eq (m := m) hi
  simp only [hat, ok_bind, helement, pure_eq_ok, hops.set_some]
  rcases hfound with ⟨y, hy, hslot, heq⟩ | ⟨hslot, hnew, hfirst⟩
  · obtain ⟨hget', hfull⟩ := slots_eq_some.mp hslot
    obtain rfl := Option.some.inj (hget'.symm.trans hget)
    have hany : l.any (fun x => ops.equal x (some e)) = true := List.any_eq_true.mpr ⟨y, hy, heq⟩
    have hfull' : ops.equal y none = false := hfull
    refine ⟨m, ?_, ?_, rfl⟩
    · rw [hany, hfull']
      rfl
    · rwa [insertEntry, if_pos hany]
  · have hany : l.any (fun x => ops.equal x (some e)) = false :=
      List.any_eq_false.mpr fun x hx => by simp [hnew x hx]
    refine ⟨⟨m.elements.set i e, m.elementsCount + 1⟩, ?_, ?_, List.length_set ..⟩
    · rw [hany, if_pos ((slots_eq_none hget).mp hslot)]
      rfl
    · rw [insertEntry, hany]
      exact h.put hops he hroom hi hslot hnew hfirst

theorem mapReserveWith_of_room (insert : Map ε → ε → Except Fault (Map ε × List ε)) {n : ℕ}
    (h : 2 * n ≤ m.elements.length) : mapReserveWith ops insert m n = .ok m := by
  have hmod : n * 2 % 2 ^ 64 ≤ n * 2 := Nat.mod_le _ _
  exact if_neg (by rw [elementsCapacity]; omega)

theorem insertsInto_mapInsertNested (hops : ops.Lawful) (depth : ℕ) :
    InsertsInto ops (mapInsertNested ops (depth + 1)) := by
  intro m l e h he hroom
  rw [mapInsertNested, mapReserveWith_of_room _ hroom, ok_bind]
  exact h.insert_reserved hops he hroom

theorem foldlM_insert {insert : Map ε → ε → Except Fault (Map ε × List ε)}
    (hinsert : InsertsInto ops insert) (pre rest : List ε)
    (hpairwise : (pre ++ rest).Pairwise
      (fun a b => ops.Full a → ops.Full b → ops.equal a (some b) = false))
    (h : Represents ops m (stored ops pre))
    (hroom : 2 * (stored ops (pre ++ rest)).length ≤ m.elements.length) :
    ∃ m', rest.foldlM (fun new e => if ops.equal e none then .ok new
        else Prod.fst <$> insert new e) m = .ok m' ∧
      Represents ops m' (stored ops (pre ++ rest)) ∧ m'.elements.length = m.elements.length := by
  induction rest generalizing pre m with
  | nil => exact ⟨m, rfl, by simpa using h, rfl⟩
  | cons e rest ih =>
    have happend : pre ++ e :: rest = pre ++ [e] ++ rest := by simp
    rw [happend] at hpairwise hroom ⊢
    by_cases hempty : ops.equal e none = true
    · have hpre : stored ops (pre ++ [e]) = stored ops pre := by simp [stored, hempty]
      rw [List.foldlM_cons, if_pos hempty]
      exact ih _ hpairwise (hpre ▸ h) hroom
    · have hfull : ops.Full e := by simpa [MapOps.Full] using hempty
      have hpre : stored ops (pre ++ [e]) = stored ops pre ++ [e] := by simp [stored, hempty]
      have hnew : (stored ops pre).any (fun x => ops.equal x (some e)) = false := by
        refine List.any_eq_false.mpr fun x hx => ?_
        obtain ⟨hmem, hx⟩ := List.mem_filter.mp hx
        rw [List.append_assoc] at hpairwise
        simp [(List.pairwise_append.mp hpairwise).2.2 x hmem e (by simp)
          (by simpa [MapOps.Full] using hx) hfull]
      have hcount : m.elementsCount + 1 ≤ (stored ops (pre ++ [e] ++ rest)).length := by
        rw [stored, List.filter_append, List.length_append]
        change _ ≤ (stored ops (pre ++ [e])).length + _
        rw [hpre, h.count, List.length_append, List.length_singleton]
        omega
      obtain ⟨m', hcall, hm', hlen⟩ := hinsert m _ e h hfull (by omega)
      rw [insertEntry, hnew] at hm'
      rw [List.foldlM_cons, if_neg hempty, hcall]
      obtain ⟨m'', hfold, hm'', hlen'⟩ := ih _ hpairwise (by rw [hpre]; exact hm')
        (by rw [hlen]; exact hroom)
      exact ⟨m'', hfold, hm'', hlen'.trans hlen⟩

theorem Represents.pairwise (h : Represents ops m l) : m.elements.Pairwise
    (fun a b => ops.Full a → ops.Full b → ops.equal a (some b) = false) := by
  rw [List.pairwise_iff_getElem]
  intro i j hi hj hij ha hb
  by_contra heq
  have := h.distinct i j _ _ (slots_eq_some.mpr ⟨List.getElem?_eq_getElem hi, ha⟩)
    (slots_eq_some.mpr ⟨List.getElem?_eq_getElem hj, hb⟩) (by simpa using heq)
  omega

theorem Represents.of_perm (h : Represents ops m l) {l' : List ε} (hl : l.Perm l') :
    Represents ops m l' :=
  ⟨h.capacity, h.room, h.count.trans hl.length_eq, h.reachable, h.distinct, h.perm.trans hl⟩

/-- After `map_reserve` the map has room for the elements asked for. -/
theorem Represents.mapReserveWith (hops : ops.Lawful)
    {insert : Map ε → ε → Except Fault (Map ε × List ε)} (hinsert : InsertsInto ops insert)
    (h : Represents ops m l) {n : ℕ} (hn : n ≤ 2 ^ 62) :
    ∃ m', mapReserveWith ops insert m n = .ok m' ∧ Represents ops m' l ∧
      2 * n ≤ m'.elements.length := by
  have hmod : n * 2 % 2 ^ 64 = n * 2 := Nat.mod_eq_of_lt (by omega)
  by_cases hroom : m.elements.length < n * 2
  · have hle := le_roundup (s := n * 2) (by omega) (by omega)
    have hpow := roundup_eq (s := n * 2) (by omega) (by omega)
    have hpow' : ∃ k, roundup (n * 2) = 2 ^ k := ⟨_, hpow⟩
    obtain ⟨k, hk⟩ := hpow'
    have hstart : Represents ops ⟨List.replicate (roundup (n * 2)) (ops.set none), 0⟩ [] := by
      rw [hk]
      exact represents_nil ops hops k
    have hlen := h.length_stored
    have := h.room
    obtain ⟨m', hfold, hm', hlen'⟩ := foldlM_insert hinsert [] m.elements
      h.pairwise hstart (by
        rw [List.nil_append, hlen, List.length_replicate]
        omega)
    rw [List.nil_append] at hm'
    refine ⟨m', ?_, hm'.of_perm h.perm, ?_⟩
    · rw [Map.mapReserveWith]
      simp only [hmod, elementsCapacity, if_pos hroom]
      exact hfold
    · rw [hlen', List.length_replicate]
      omega
  · exact ⟨m, mapReserveWith_of_room insert (by omega), h, by omega⟩

theorem Represents.mapReserve (hops : ops.Lawful) (h : Represents ops m l) {n : ℕ}
    (hn : n ≤ 2 ^ 62) : ∃ m', mapReserve ops m n = .ok m' ∧ Represents ops m' l := by
  obtain ⟨m', hreserve, hm', -⟩ :=
    h.mapReserveWith hops (insertsInto_mapInsertNested hops 0) hn
  exact ⟨m', hreserve, hm'⟩

theorem Represents.mapInsert (hops : ops.Lawful) (h : Represents ops m l) (he : ops.Full e)
    (hl : l.length < 2 ^ 62) :
    ∃ m', mapInsert ops m e =
        .ok (m', if l.any (fun x => ops.equal x (some e)) then [e] else []) ∧
      Represents ops m' (insertEntry ops l e) := by
  have hcount := h.count
  obtain ⟨m₁, hreserve, hm₁, hroom⟩ :=
    h.mapReserveWith hops (insertsInto_mapInsertNested hops 0) (n := m.elementsCount + 1) (by omega)
  obtain ⟨m₂, hcall, hm₂, -⟩ := hm₁.insert_reserved hops he
    (by rw [hm₁.count, ← hcount]; exact hroom)
  refine ⟨m₂, ?_, hm₂⟩
  rw [Map.mapInsert, mapInsertNested, hreserve, ok_bind]
  exact hcall

theorem represents_mapConstruct (hops : ops.Lawful) :
    ∃ m, mapConstruct ops = .ok m ∧ Represents ops m [] := by
  refine ⟨_, rfl, ?_⟩
  have hroundup : roundup elementsCapacityMin = 2 ^ 3 := by decide
  rw [hroundup]
  exact represents_nil ops hops 3

end Insert

/-! ## Erasing -/

/-- The second loop of `map_erase`: the slot `i` is the hole, and without it the slots hold `l`. -/
structure Shifting (c count : ℕ) (l : List ε) (s : Shift ε) : Prop where
  length : s.map.elements.length = c
  count : s.map.elementsCount = count
  hi : s.i < c
  hj : s.j < c
  stale : slots ops s.map.elements s.i ≠ none
  hole : Hole c (home ops c) (Function.update (slots ops s.map.elements) s.i none) s.i s.j
  distinct : ∀ p q a b, Function.update (slots ops s.map.elements) s.i none p = some a →
    Function.update (slots ops s.map.elements) s.i none q = some b →
    ops.equal a (some b) = true → p = q
  perm : (stored ops (s.map.elements.set s.i (ops.set none))).Perm l
  ahead : ∀ k < c, slots ops s.map.elements k = none → dist c s.i s.j < dist c s.i k

section Erase

variable {ops} {c count : ℕ} {l : List ε} {s : Shift ε}

theorem Shifting.next_ne (h : Shifting ops c count l s) (hlt : dist c s.i s.j + 1 < c) :
    next c s.j ≠ s.i := by
  intro heq
  have := dist_next h.hi h.hj hlt
  rw [heq, dist_self] at this
  omega

theorem Shifting.keep (h : Shifting ops c count l s) (hlt : dist c s.i s.j + 1 < c) {x : ε}
    (hx : slots ops s.map.elements (next c s.j) = some x)
    (hkeep : ¬ dist c (home ops c x) s.i < dist c (home ops c x) (next c s.j)) :
    Shifting ops c count l ⟨s.i, next c s.j, s.map⟩ := by
  have hc : 0 < c := Nat.zero_lt_of_lt hlt
  refine ⟨h.length, h.count, h.hi, next_lt h.hj, h.stale, ?_, h.distinct, h.perm, ?_⟩
  · refine h.hole.keep (fun y => Nat.mod_lt _ hc) h.hi h.hj hlt ?_ hkeep
    rw [Function.update_of_ne (h.next_ne hlt)]
    exact hx
  · intro k hk hempty
    have hahead := h.ahead k hk hempty
    have hne : dist c s.i (next c s.j) ≠ dist c s.i k := by
      intro heq
      rw [dist_inj (next_lt h.hj) hk h.hi heq, hempty] at hx
      cases hx
    have hnext := dist_next h.hi h.hj hlt
    simp only at hne ⊢
    omega

theorem Shifting.move (hops : ops.Lawful) (h : Shifting ops c count l s)
    (hlt : dist c s.i s.j + 1 < c) {x : ε}
    (hx : slots ops s.map.elements (next c s.j) = some x)
    (hmove : dist c (home ops c x) s.i < dist c (home ops c x) (next c s.j)) :
    Shifting ops c count l ⟨next c s.j, next c s.j,
      { s.map with elements := s.map.elements.set s.i x }⟩ := by
  have hj := next_lt h.hj
  have hne := h.next_ne hlt
  have hfull := (slots_eq_some.mp hx).2
  have hilen : s.i < s.map.elements.length := h.length ▸ h.hi
  have hjlen : next c s.j < s.map.elements.length := h.length ▸ hj
  have hslots : slots ops (s.map.elements.set s.i x) = _ := slots_set_full hilen hfull
  generalize hnext : next c s.j = j at *
  refine ⟨(List.length_set ..).trans h.length, h.count, hj, hj, ?_, ?_, ?_, ?_, ?_⟩
  · rw [hslots, Function.update_of_ne hne, hx]
    simp
  · have hhole := h.hole.move h.hi hj (x := x) (by rw [Function.update_of_ne hne]; exact hx) hmove
    rw [Function.update_idem] at hhole
    simp only [hslots]
    exact hhole
  · have hback : ∀ p a, Function.update (Function.update (slots ops s.map.elements) s.i (some x)) j
        none p = some a → Function.update (slots ops s.map.elements) s.i none
          (if p = s.i then j else p) = some a ∧ p ≠ j := by
      intro p a hp
      have hpj : p ≠ j := by
        rintro rfl
        simp at hp
      rw [Function.update_of_ne hpj] at hp
      refine ⟨?_, hpj⟩
      by_cases hpi : p = s.i
      · rw [if_pos hpi, Function.update_of_ne hne, hx]
        rwa [hpi, Function.update_self] at hp
      · rw [if_neg hpi, Function.update_of_ne hpi]
        rwa [Function.update_of_ne hpi] at hp
    simp only [hslots]
    intro p q a b hp hq hab
    obtain ⟨hp', hpj⟩ := hback p a hp
    obtain ⟨hq', hqj⟩ := hback q b hq
    have heq := h.distinct _ _ a b hp' hq' hab
    split_ifs at heq with hpi hqi hqi
    · rw [hpi, hqi]
    · exact absurd heq.symm hqj
    · exact absurd heq hpj
    · exact heq
  · have hclear : (stored ops (s.map.elements.set s.i (ops.set none))).Perm
        (x :: stored ops ((s.map.elements.set s.i (ops.set none)).set j (ops.set none))) := by
      refine stored_clear ?_ hops.set_none
      rw [slots_set_empty hilen hops.set_none, Function.update_of_ne hne, hx]
    have hset : (stored ops
        (((s.map.elements.set s.i (ops.set none)).set j (ops.set none)).set s.i x)).Perm
        (x :: stored ops ((s.map.elements.set s.i (ops.set none)).set j (ops.set none))) := by
      refine stored_set ?_ hops.set_none hfull
      rw [List.getElem?_set_ne hne, List.getElem?_set_self hilen]
    have hcomm : ((s.map.elements.set s.i (ops.set none)).set j (ops.set none)).set s.i x =
        (s.map.elements.set s.i x).set j (ops.set none) := by
      rw [List.set_comm _ _ hne, List.set_set]
    rw [hcomm] at hset
    exact hset.trans (hclear.symm.trans h.perm)
  · intro k hk hempty
    simp only [hslots] at hempty
    have hki : k ≠ s.i := by
      rintro rfl
      simp at hempty
    rw [Function.update_of_ne hki] at hempty
    have hkj : k ≠ j := by
      rintro rfl
      rw [hx] at hempty
      cases hempty
    have hzero : dist c j k ≠ dist c j j := fun heq => hkj (dist_inj hk hj hj heq)
    rw [dist_self] at hzero
    show dist c j j < dist c j k
    rw [dist_self]
    omega

/-- The end of the loop: the hole is closed. -/
theorem Shifting.close (hops : ops.Lawful) (h : Shifting ops c count l s) {k : ℕ}
    (hc : c = 2 ^ k) (hroom : 2 * count ≤ c) (hl : count = l.length)
    (hlt : dist c s.i s.j + 1 < c) (hempty : slots ops s.map.elements (next c s.j) = none) :
    Represents ops { s.map with elements := s.map.elements.set s.i (ops.set none) } l := by
  have hpos : 0 < c := Nat.zero_lt_of_lt hlt
  have hilen : s.i < s.map.elements.length := h.length ▸ h.hi
  have hslots := slots_set_empty hilen hops.set_none
  have hne := h.next_ne hlt
  refine ⟨⟨k, ?_⟩, ?_, h.count.trans hl, ?_, ?_, h.perm⟩
  · rw [List.length_set, h.length, hc]
  · rw [List.length_set, h.length, h.count]
    exact hroom
  · simp only [hslots, List.length_set, h.length]
    refine h.hole.close (fun y => Nat.mod_lt _ hpos) h.hi h.hj hlt ?_ hne
    rw [Function.update_of_ne hne]
    exact hempty
  · simp only [hslots]
    exact h.distinct

/-- The loop closes the hole: an empty slot lies ahead. -/
theorem Shifting.run (hops : ops.Lawful) (h : Shifting ops c count l s) {k : ℕ} (hc : c = 2 ^ k)
    (hroom : 2 * count ≤ c) (hl : count = l.length) {e : ℕ} (he : e < c)
    (hempty : slots ops s.map.elements e = none) :
    ∃ i m, Loop.within .hang (shiftTurn ops) (c + 1) s = .ok (i, m) ∧
      Represents ops { m with elements := m.elements.set i (ops.set none) } l := by
  have hturn : ∀ s : Shift ε, Shifting ops c count l s ∧ slots ops s.map.elements e = none →
      Loop.TurnSpec (shiftTurn ops)
        (fun s => Shifting ops c count l s ∧ slots ops s.map.elements e = none)
        (fun s => dist c s.j e)
        (fun r => ∃ i m, r = .ok (i, m) ∧
          Represents ops { m with elements := m.elements.set i (ops.set none) } l) s := by
    rintro s ⟨h, hempty⟩
    have hahead := h.ahead e he hempty
    have hlt : dist c s.i s.j + 1 < c := by
      have := dist_lt h.hi he
      omega
    have hje : s.j ≠ e := by
      rintro heq
      rw [heq] at hahead
      omega
    have hstep := dist_next_left h.hj he hje
    have hmask : ∀ i, i &&& (s.map.elementsCapacity - 1) = i % c := by
      intro i
      rw [elementsCapacity, h.length, hc, Nat.and_two_pow_sub_one_eq_mod]
    obtain ⟨x, hget, helement⟩ := element_eq (m := s.map) (i := next c s.j)
      (by rw [h.length]; exact next_lt h.hj)
    unfold Loop.TurnSpec
    simp only [shiftTurn, hmask, add_one_mod h.hj, helement, ok_bind, pure_eq_ok]
    by_cases hnone : ops.equal x none = true
    · rw [if_pos hnone]
      exact ⟨s.i, s.map, rfl, h.close hops hc hroom hl hlt ((slots_eq_none hget).mpr hnone)⟩
    · have hx : slots ops s.map.elements (next c s.j) = some x :=
        slots_eq_some.mpr ⟨hget, by simpa [MapOps.Full] using hnone⟩
      have hhome : home ops c x < c := Nat.mod_lt _ (Nat.zero_lt_of_lt hlt)
      have htest := dist_lt_iff hhome (next_lt h.hj) h.hi
      have hne := h.next_ne hlt
      rw [if_neg hnone]
      by_cases hmove : dist c (home ops c x) s.i < dist c (home ops c x) (next c s.j)
      · rw [home] at htest hmove
        rw [if_pos (htest.mp hmove), hops.set_some]
        refine ⟨⟨h.move hops hlt hx hmove, ?_⟩, by simp only; omega⟩
        have hei : e ≠ s.i := fun heq => h.stale (heq ▸ hempty)
        rw [slots_set_full (h.length ▸ h.hi) (slots_eq_some.mp hx).2, Function.update_of_ne hei]
        exact hempty
      · rw [home] at htest hmove
        rw [if_neg (fun hcond => hmove (htest.mpr hcond))]
        exact ⟨⟨h.keep hlt hx hmove, hempty⟩, by simp only; omega⟩
  have hfuel : dist c s.j e < c + 1 := by
    have := dist_lt h.hj he
    omega
  obtain ⟨i, m, hrun, hm⟩ := Loop.within_variant (shiftTurn ops) hturn .hang ⟨h, hempty⟩ hfuel
  exact ⟨i, m, hrun, hm⟩

end Erase

section Calls

variable {ops} {m : Map ε} {l : List ε} {e : ε}

theorem eraseEntry_of_not_mem (h : ∀ x ∈ l, ops.equal x (some e) = false) :
    eraseEntry ops l e = l := by
  refine List.filter_eq_self.mpr fun x hx => ?_
  rw [h x hx]
  rfl

theorem Represents.not_equal_of_erased (hops : ops.Lawful) (h : Represents ops m l)
    (he : ops.Full e) {i : ℕ} {x y : ε} (hx : slots ops m.elements i = some x)
    (heq : ops.equal x (some e) = true) (hy : y ∈ stored ops (m.elements.set i (ops.set none))) :
    ops.equal y (some e) = false := by
  have hfull := (slots_eq_some.mp hx).2
  obtain ⟨j, hj⟩ := mem_stored.mp hy
  rw [slots_set_empty (lt_of_slots hx) hops.set_none] at hj
  have hji : j ≠ i := by
    rintro rfl
    simp at hj
  rw [Function.update_of_ne hji] at hj
  by_contra hye
  have hyfull := (slots_eq_some.mp hj).2
  have hxy := hops.trans y e x hyfull he hfull (by simpa using hye)
    (hops.symm x e hfull he heq)
  exact hji (h.distinct j i y x hj hx hxy)

theorem Represents.perm_eraseEntry (hops : ops.Lawful) (h : Represents ops m l) (he : ops.Full e)
    {i : ℕ} {x : ε} (hx : slots ops m.elements i = some x) (heq : ops.equal x (some e) = true) :
    (stored ops (m.elements.set i (ops.set none))).Perm (eraseEntry ops l e) ∧
      l.filter (fun y => ops.equal y (some e)) = [x] := by
  have hrest := fun y hy => h.not_equal_of_erased (y := y) hops he hx heq hy
  have hperm := (stored_clear hx hops.set_none).symm.trans h.perm
  constructor
  · have hfilter := hperm.filter (fun y => !ops.equal y (some e))
    rwa [List.filter_cons_of_neg (by simp [heq]),
      List.filter_eq_self.mpr (fun y hy => by simp [hrest y hy])] at hfilter
  · have hfilter := hperm.filter (fun y => ops.equal y (some e))
    rw [List.filter_cons_of_pos (by simpa using heq),
      List.filter_eq_nil_iff.mpr (fun y hy => by simp [hrest y hy])] at hfilter
    exact List.perm_singleton.mp hfilter.symm

theorem Represents.shifting (h : Represents ops m l) {i : ℕ} {x : ε}
    (hx : slots ops m.elements i = some x) {l' : List ε}
    (hperm : (stored ops (m.elements.set i (ops.set none))).Perm l') :
    Shifting ops m.elements.length (m.elementsCount - 1) l'
      ⟨i, i, { m with elementsCount := m.elementsCount - 1 }⟩ := by
  have hi := lt_of_slots hx
  refine ⟨rfl, rfl, hi, hi, by simp [hx], h.reachable.hole hi, ?_, hperm, ?_⟩
  · intro p q a b hp hq hab
    have hpi : p ≠ i := by
      rintro rfl
      simp at hp
    have hqi : q ≠ i := by
      rintro rfl
      simp at hq
    simp only [Function.update_of_ne hpi, Function.update_of_ne hqi] at hp hq
    exact h.distinct p q a b hp hq hab
  · intro k hk hempty
    have hki : dist m.elements.length i k ≠ dist m.elements.length i i := by
      intro heq
      rw [dist_inj hk hi hi heq, hx] at hempty
      cases hempty
    rw [dist_self] at hki
    show dist m.elements.length i i < dist m.elements.length i k
    rw [dist_self]
    omega

/-- Erasing the element of a slot leaves the others. -/
theorem Represents.mapErase_slot (hops : ops.Lawful) (h : Represents ops m l) {i : ℕ}
    (hfind : Loop.within .hang (findTurn ops m e) (m.elementsCapacity + 1) (ops.hash e).toNat =
      .ok (some i)) {x : ε} (hx : slots ops m.elements i = some x) {l' : List ε}
    (hperm : (stored ops (m.elements.set i (ops.set none))).Perm l') :
    ∃ m', mapErase ops m e = .ok (m', [x]) ∧ Represents ops m' l' := by
  obtain ⟨k, hk⟩ := h.capacity
  obtain ⟨empty, hempty, hslot⟩ := h.exists_empty
  have hcount : m.elementsCount - 1 = l'.length := by
    have h₁ := (stored_clear hx hops.set_none).length_eq
    have h₂ := hperm.length_eq
    have h₃ := h.length_stored
    rw [List.length_cons] at h₁
    omega
  have hroom := h.room
  obtain ⟨j, m', hshift, hm'⟩ := (h.shifting hx hperm).run hops hk (by omega) hcount hempty hslot
  refine ⟨_, ?_, hm'⟩
  have helement : m.element i = .ok x := by
    simp [element, (slots_eq_some.mp hx).1]
  rw [Map.mapErase, hfind, ok_bind]
  simp only [helement, ok_bind]
  rw [elementsCapacity, hshift, ok_bind]
  rfl

theorem Represents.mapErase (hops : ops.Lawful) (h : Represents ops m l) (he : ops.Full e) :
    ∃ m', mapErase ops m e = .ok (m', l.filter (fun x => ops.equal x (some e))) ∧
      Represents ops m' (eraseEntry ops l e) := by
  obtain ⟨i, hi, hfind, hfound⟩ := h.run_findTurn hops he
  rcases hfound with ⟨x, hxl, hx, heq⟩ | ⟨hnone, hnew, -⟩
  · obtain ⟨hperm, hreleased⟩ := h.perm_eraseEntry hops he hx heq
    rw [hx] at hfind
    rw [hreleased]
    exact h.mapErase_slot hops hfind hx hperm
  · have hreleased : l.filter (fun x => ops.equal x (some e)) = [] :=
      List.filter_eq_nil_iff.mpr fun x hx => by simp [hnew x hx]
    refine ⟨m, ?_, by rwa [eraseEntry_of_not_mem hnew]⟩
    rw [Map.mapErase, hfind, ok_bind, hnone, hreleased]
    rfl

theorem Represents.mapClear (hops : ops.Lawful) (h : Represents ops m l) :
    ∃ m' released, mapClear ops m = .ok (m', released) ∧ Represents ops m' [] ∧
      released.Perm l := by
  obtain ⟨m', hconstruct, hm'⟩ := represents_mapConstruct hops
  exact ⟨m', stored ops m.elements, by rw [Map.mapClear, hconstruct]; rfl, hm', h.perm⟩

end Calls

/-! ## Sequences of calls -/

def callEntries (l : List ε) : MapCall ε → List ε
  | .reserve _ => l
  | .insert e => insertEntry ops l e
  | .erase e => eraseEntry ops l e
  | .clear => []

/-- A call on elements that are not empty and with sizes below 2^62. -/
def Allowed (l : List ε) : MapCall ε → Prop
  | .reserve size => size < 2 ^ 62
  | .insert e => ops.Full e ∧ l.length < 2 ^ 62
  | .erase e => ops.Full e
  | .clear => True

def AllAllowed : List ε → List (MapCall ε) → Prop
  | _, [] => True
  | l, c :: cs => Allowed ops l c ∧ AllAllowed (callEntries ops l c) cs

def firstInsertedStep (e : ε) (s : Option ε) : MapCall ε → Option ε
  | .reserve _ => s
  | .insert x => if s.isNone && ops.equal x (some e) then some x else s
  | .erase x => if ops.equal x (some e) then none else s
  | .clear => none

/-- The element first inserted with the key of `e` since that key was last erased or cleared. -/
def firstInserted (e : ε) (cs : List (MapCall ε)) : Option ε :=
  cs.foldl (firstInsertedStep ops e) none

/-- A slot that holds the given element, or is empty if there is none. -/
def SlotHolds (x : ε) : Option ε → Prop
  | some y => x = y
  | none => ops.equal x none = true

/-- The state of a hash map that its callers can rely on. -/
structure Sound (m : Map ε) : Prop where
  capacity : ∃ k, m.elementsCapacity = 2 ^ k
  halfEmpty : m.elementsCapacity ≤ 2 * m.elements.countP (fun e => ops.equal e none)
  count : m.elementsCount = m.elements.countP (fun e => !ops.equal e none)
  distinct : ∀ (i j : ℕ) (a b : ε), m.elements[i]? = some a → m.elements[j]? = some b →
    ops.Full a → ops.Full b → ops.equal a (some b) = true → i = j

section Calls

variable {ops} {m : Map ε} {l : List ε} {e : ε}

theorem Represents.sound (h : Represents ops m l) : Sound ops m where
  capacity := h.capacity
  halfEmpty := by
    have hlen := h.length_stored
    have hroom := h.room
    have hsum := List.length_eq_countP_add_countP (fun e => ops.equal e none) (l := m.elements)
    rw [stored, ← List.countP_eq_length_filter] at hlen
    simp only [Bool.not_eq_true, Bool.decide_eq_false] at hsum
    rw [elementsCapacity]
    omega
  count := by rw [List.countP_eq_length_filter, ← h.length_stored, stored]
  distinct := fun i j a b ha hb hfa hfb =>
    h.distinct i j a b (slots_eq_some.mpr ⟨ha, hfa⟩) (slots_eq_some.mpr ⟨hb, hfb⟩)

theorem Represents.call (hops : ops.Lawful) (h : Represents ops m l) {c : MapCall ε}
    (hc : Allowed ops l c) :
    ∃ m' released, m.call ops c = .ok (m', released) ∧ Represents ops m' (callEntries ops l c) := by
  cases c with
  | reserve size =>
    obtain ⟨m', hcall, hm'⟩ := h.mapReserve hops (Nat.le_of_lt hc)
    exact ⟨m', [], by rw [Map.call, hcall]; rfl, hm'⟩
  | insert e =>
    obtain ⟨m', hcall, hm'⟩ := h.mapInsert hops hc.1 hc.2
    exact ⟨m', _, hcall, hm'⟩
  | erase e =>
    obtain ⟨m', hcall, hm'⟩ := h.mapErase hops hc
    exact ⟨m', _, hcall, hm'⟩
  | clear =>
    obtain ⟨m', released, hcall, hm', -⟩ := h.mapClear hops
    exact ⟨m', released, hcall, hm'⟩

/-- The run lemma: the calls follow the calls on the finite map. -/
theorem Represents.calls (hops : ops.Lawful) {cs : List (MapCall ε)} (h : Represents ops m l)
    (hcs : AllAllowed ops l cs) :
    ∃ m', m.calls ops cs = .ok m' ∧ Represents ops m' (cs.foldl (callEntries ops) l) := by
  induction cs generalizing m l with
  | nil => exact ⟨m, rfl, h⟩
  | cons c cs ih =>
    obtain ⟨m₁, released, hcall, hm₁⟩ := h.call hops hcs.1
    obtain ⟨m', hcalls, hm'⟩ := ih hm₁ hcs.2
    exact ⟨m', by rw [Map.calls, hcall]; exact hcalls, hm'⟩

/-- The element with the key of `e` after a call. -/
theorem find?_callEntries (hops : ops.Lawful) (hl : ∀ x ∈ l, ops.Full x) (he : ops.Full e)
    {c : MapCall ε} (hc : Allowed ops l c) :
    (callEntries ops l c).find? (fun x => ops.equal x (some e)) =
      firstInsertedStep ops e (l.find? (fun x => ops.equal x (some e))) c := by
  cases c with
  | reserve size => rfl
  | clear => rfl
  | insert x =>
    have hx : ops.Full x := hc.1
    simp only [callEntries, firstInsertedStep, insertEntry]
    cases hfind : l.find? (fun y => ops.equal y (some e)) with
    | some y =>
      simp only [Option.isNone_some, Bool.false_and, Bool.false_eq_true, if_false]
      split_ifs
      · exact hfind
      · rw [List.find?_append, hfind]
        rfl
    | none =>
      by_cases hxe : ops.equal x (some e) = true
      · have hnew : l.any (fun y => ops.equal y (some x)) = false := by
          refine List.any_eq_false.mpr fun y hy hyx => ?_
          have := List.find?_eq_none.mp hfind y hy
          exact this (hops.trans y x e (hl y hy) hx he hyx hxe)
        simp [hnew, hfind, hxe]
      · split_ifs with hany hcond hcond
        · simp [hxe] at hcond
        · exact hfind
        · simp [hxe] at hcond
        · rw [List.find?_append, hfind]
          simp [hxe]
  | erase x =>
    have hx : ops.Full x := hc
    simp only [callEntries, firstInsertedStep, eraseEntry, List.find?_filter]
    by_cases hxe : ops.equal x (some e) = true
    · rw [if_pos hxe, List.find?_eq_none]
      intro y hy hkeep
      simp only [Bool.not_eq_true', decide_eq_true_eq] at hkeep
      have := hops.trans y e x (hl y hy) he hx hkeep.2 (hops.symm x e hx he hxe)
      rw [hkeep.1] at this
      cases this
    · rw [if_neg hxe]
      refine List.find?_congr fun y hy => ?_
      cases hye : ops.equal y (some e) with
      | false => simp
      | true =>
        have hyx : ops.equal y (some x) = false := by
          by_contra hyx
          have hxy := hops.symm y x (hl y hy) hx (by simpa using hyx)
          exact hxe (hops.trans x y e hx (hl y hy) he hxy hye)
        simp [hyx]

theorem Represents.full_of_mem (h : Represents ops m l) {x : ε} (hx : x ∈ l) : ops.Full x := by
  obtain ⟨i, hi⟩ := (h.mem_iff x).mp hx
  exact (slots_eq_some.mp hi).2

theorem Represents.find?_calls (hops : ops.Lawful) {cs : List (MapCall ε)}
    (h : Represents ops m l) (hcs : AllAllowed ops l cs) (he : ops.Full e) :
    (cs.foldl (callEntries ops) l).find? (fun x => ops.equal x (some e)) =
      cs.foldl (firstInsertedStep ops e) (l.find? (fun x => ops.equal x (some e))) := by
  induction cs generalizing m l with
  | nil => rfl
  | cons c cs ih =>
    obtain ⟨m₁, released, -, hm₁⟩ := h.call hops hcs.1
    rw [List.foldl_cons, List.foldl_cons, ih hm₁ hcs.2,
      find?_callEntries hops (fun x hx => h.full_of_mem hx) he hcs.1]

/-- `map_at` finds the element of the finite map with the key of `e`. -/
theorem Represents.mapAt_find? (hops : ops.Lawful) (h : Represents ops m l) (he : ops.Full e) :
    ∃ i x, Map.mapAt ops m e = .ok i ∧ m.element i = .ok x ∧
      SlotHolds ops x (l.find? (fun x => ops.equal x (some e))) := by
  obtain ⟨i, hi, hat, hfound⟩ := h.mapAt hops he
  obtain ⟨x, hget, helement⟩ := element_eq (m := m) hi
  refine ⟨i, x, hat, helement, ?_⟩
  rcases hfound with ⟨y, hy, hslot, heq⟩ | ⟨hslot, hnew, -⟩
  · obtain ⟨hget', hfull⟩ := slots_eq_some.mp hslot
    obtain rfl := Option.some.inj (hget.symm.trans hget')
    cases hfind : l.find? (fun x => ops.equal x (some e)) with
    | none => exact absurd heq (List.find?_eq_none.mp hfind x hy)
    | some z =>
      have hz := List.mem_of_find?_eq_some hfind
      have hze : ops.equal z (some e) = true := by simpa using List.find?_some hfind
      obtain ⟨j, hj⟩ := (h.mem_iff z).mp hz
      have hzfull := h.full_of_mem hz
      have hij := h.distinct i j x z hslot hj
        (hops.trans x e z hfull he hzfull heq (hops.symm z e hzfull he hze))
      subst hij
      exact Option.some.inj (hslot.symm.trans hj)
  · rw [List.find?_eq_none.mpr fun x hx => by simp [hnew x hx]]
    exact (slots_eq_none hget).mp hslot

end Calls

def numberOps : MapOps UInt32 where
  hash := fun x => x.toUInt64
  equal := fun a b => a == b.getD 0
  set := fun x => x.getD 0

theorem lawful_numberOps : numberOps.Lawful where
  refl := by simp [numberOps]
  symm := by
    intro a b _ _ h
    simp only [numberOps, Option.getD_some, beq_iff_eq] at h ⊢
    exact h.symm
  trans := by
    intro a b c _ _ _ h h'
    simp only [numberOps, Option.getD_some, beq_iff_eq] at h h' ⊢
    exact h.trans h'
  hash := by
    intro a b _ _ h
    simp only [numberOps, Option.getD_some, beq_iff_eq] at h
    rw [h]
  set_some := fun _ => rfl
  set_none := rfl

end Map

end LibReactor
