import LibReactor.EncodeTree

/-!
# Canonical output

What the encoder writes does not depend on how the objects were built. Two values agree
when their objects have the same members, wherever the slots are; values that agree have
one text, in which the keys of every object increase.
-/

namespace LibReactor

variable {L : Type}

/-! ## Values that were built -/

def updateSlots (f : Entry L → Value L) (m : Map (Entry L)) : Map (Entry L) :=
  ⟨m.elements.map (fun e => (e.1, f e)), m.elementsCount⟩

/-- A value that some history of calls built. A member may have changed in its slot
after it was put there. -/
inductive Built (hashData : Bytes → UInt64) : Value L → Prop
  | undefined : Built hashData .undefined
  | null : Built hashData .null
  | bool (b : Bool) : Built hashData (.bool b)
  | number (n : L) : Built hashData (.number n)
  | string (s : Bytes) : Built hashData (.string s)
  | array {vs : List (Value L)} : (∀ v ∈ vs, Built hashData v) → Built hashData (.array vs)
  | newObject {v : Value L} : Value.newObject hashData = .ok v → Built hashData v
  | set {v w v' : Value L} {key : Bytes} {released : List (Entry L)} : Built hashData v →
      Built hashData w → v.objectSize < 2 ^ 62 →
      v.objectSetRelease hashData key w = .ok (v', released) → Built hashData v'
  | delete {v v' : Value L} {key : Bytes} {released : List (Entry L)} : Built hashData v →
      v.objectDelete hashData key = .ok (v', released) → Built hashData v'
  | update {m : Map (Entry L)} {f : Entry L → Value L} : Built hashData (.object m) →
      (∀ e ∈ m.elements, Built hashData (f e)) → Built hashData (.object (updateSlots f m))
  | foreign : Built hashData .foreign

section Holds

variable {hashData : Bytes → UInt64} {m : Map (Entry L)} {ms : List (Bytes × Value L)}

theorem slots_updateSlots (f : Entry L → Value L) (l : List (Entry L)) (i : ℕ) :
    Map.slots (mapdOps hashData) (l.map (fun e => (e.1, f e))) i =
      (Map.slots (mapdOps hashData) l i).map (fun e => (e.1, f e)) := by
  rw [Map.slots, Map.slots, List.getElem?_map]
  cases l[i]? with
  | none => rfl
  | some e =>
    obtain ⟨key, v⟩ := e
    cases key <;> rfl

theorem stored_updateSlots (f : Entry L → Value L) (l : List (Entry L)) :
    Map.stored (mapdOps hashData) (l.map (fun e => (e.1, f e))) =
      (Map.stored (mapdOps hashData) l).map (fun e => (e.1, f e)) := by
  rw [Map.stored, Map.stored, List.filter_map]
  rfl

/-- Where a member lies depends on its key alone. -/
theorem Holds.update (h : Holds hashData m ms) (f : Entry L → Value L) :
    Holds hashData (updateSlots f m) (ms.map (fun x => (x.1, f (entryOf x)))) := by
  have hlength : (updateSlots f m).elements.length = m.elements.length := List.length_map _
  have hslots : ∀ i x, Map.slots (mapdOps hashData) (updateSlots f m).elements i = some x →
      ∃ e, Map.slots (mapdOps hashData) m.elements i = some e ∧ x = (e.1, f e) := by
    intro i x hx
    rw [updateSlots, slots_updateSlots, Option.map_eq_some_iff] at hx
    obtain ⟨e, he, rfl⟩ := hx
    exact ⟨e, he, rfl⟩
  constructor
  · rw [hlength]
    exact h.capacity
  · rw [hlength]
    exact h.room
  · rw [updateSlots, h.count, List.length_map, List.length_map, List.length_map]
  · intro s i x hs hi hsx hempty
    rw [hlength] at hs hi ⊢
    obtain ⟨e, he, rfl⟩ := hslots s x hsx
    rw [updateSlots, slots_updateSlots, Option.map_eq_none_iff] at hempty
    exact h.reachable s i e hs hi he hempty
  · intro i j a b ha hb hequal
    obtain ⟨e, he, rfl⟩ := hslots i a ha
    obtain ⟨e', he', rfl⟩ := hslots j b hb
    exact h.distinct i j e e' he he' hequal
  · rw [updateSlots, stored_updateSlots, List.map_map]
    have hperm := h.perm.map (fun e : Entry L => (e.1, f e))
    rw [List.map_map] at hperm
    exact hperm

end Holds

theorem objectDelete_other {hashData : Bytes → UInt64} {v : Value L} (h : v.isObject = false)
    (key : Bytes) : v.objectDelete hashData key = .ok (v, []) := by
  cases v <;> first | rfl | cases h

theorem objectSetRelease_other {hashData : Bytes → UInt64} {v : Value L} (h : v.isObject = false)
    (key : Bytes) (w : Value L) :
    v.objectSetRelease hashData key w = .ok (v, [(some key, w)]) := by
  simp only [Value.objectSetRelease, objectDelete_other h, ok_bind]
  cases v <;> first | rfl | cases h

theorem Consistent.members {hashData : Bytes → UInt64} {v : Value L} (h : Consistent hashData v)
    (hobject : v.isObject = true) : ∃ m ms, v = .object m ∧ Holds hashData m ms ∧
      ∀ x ∈ ms, Consistent hashData x.2 := by
  cases h with
  | object hm hms => exact ⟨_, _, rfl, hm, hms⟩
  | _ => cases hobject

/-- Every history leaves hash maps of the members. -/
theorem Built.consistent {hashData : Bytes → UInt64} {v : Value L} (h : Built hashData v) :
    Consistent hashData v := by
  induction h with
  | undefined => exact .undefined
  | null => exact .null
  | bool b => exact .bool b
  | number n => exact .number n
  | string s => exact .string s
  | array _ ih => exact .array ih
  | newObject hnew =>
    obtain ⟨m, hm, hholds⟩ := holds_newObject (L := L) hashData
    cases hm.symm.trans hnew
    exact .object hholds (fun x hx => by cases hx)
  | @set v w v' key released _ _ hsize hset ihv ihw =>
    cases hobject : v.isObject with
    | false =>
      cases (objectSetRelease_other hobject key w).symm.trans hset
      exact ihv
    | true =>
      obtain ⟨m, ms, rfl, hm, hms⟩ := ihv.members hobject
      rw [hm.size] at hsize
      obtain ⟨m', released', hset', hm', -⟩ := hm.objectSetRelease hsize key w
      cases hset'.symm.trans hset
      refine .object hm' fun x hx => ?_
      rcases List.mem_append.mp hx with hx | hx
      · exact hms x (List.mem_filter.mp hx).1
      · rw [List.mem_singleton.mp hx]
        exact ihw
  | @delete v v' key released _ hdelete ih =>
    cases hobject : v.isObject with
    | false =>
      cases (objectDelete_other hobject key).symm.trans hdelete
      exact ih
    | true =>
      obtain ⟨m, ms, rfl, hm, hms⟩ := ih.members hobject
      obtain ⟨m', hdelete', hm'⟩ := hm.objectDelete key
      cases hdelete'.symm.trans hdelete
      exact .object hm' fun x hx => hms x (List.mem_filter.mp hx).1
  | @update m f _ _ ihm ihf =>
    obtain ⟨m', ms, heq, hm, hms⟩ := ihm.members rfl
    cases heq
    refine .object (hm.update f) fun x hx => ?_
    obtain ⟨y, hy, rfl⟩ := List.mem_map.mp hx
    have hmem : entryOf y ∈ Map.stored (mapdOps hashData) m.elements :=
      hm.perm.mem_iff.mpr (List.mem_map_of_mem hy)
    exact ihf _ (List.mem_filter.mp hmem).1
  | foreign => exact .foreign

/-! ## Values with the same content -/

namespace Value

def member (m : Map (Entry L)) (key : Bytes) : Option (Value L) :=
  (m.elements.find? (fun e => e.1 = some key)).map Prod.snd

/-- Two values with the same content: an object is the values of its keys. -/
inductive Agree : Value L → Value L → Prop
  | undefined : Agree undefined undefined
  | null : Agree null null
  | bool (b : Bool) : Agree (bool b) (bool b)
  | number (n : L) : Agree (number n) (number n)
  | string (s : Bytes) : Agree (string s) (string s)
  | array {vs vs' : List (Value L)} : vs.length = vs'.length →
      (∀ (i : ℕ) v v', vs[i]? = some v → vs'[i]? = some v' → Agree v v') →
      Agree (array vs) (array vs')
  | object {m m' : Map (Entry L)} : (∀ key, member m key = none ↔ member m' key = none) →
      (∀ key v v', member m key = some v → member m' key = some v' → Agree v v') →
      Agree (object m) (object m')
  | foreign : Agree foreign foreign

end Value

theorem Holds.mem_elements {hashData : Bytes → UInt64} {m : Map (Entry L)}
    {ms : List (Bytes × Value L)} (h : Holds hashData m ms) (key : Bytes) (v : Value L) :
    (some key, v) ∈ m.elements ↔ (key, v) ∈ ms := by
  have hfull : (some key, v) ∈ Map.stored (mapdOps hashData) m.elements ↔
      (some key, v) ∈ m.elements := by
    rw [Map.stored, List.mem_filter]
    simp [mapdOps]
  rw [← hfull, h.perm.mem_iff, List.mem_map]
  constructor
  · rintro ⟨x, hx, heq⟩
    cases heq
    exact hx
  · exact fun hv => ⟨_, hv, rfl⟩

theorem Holds.member {hashData : Bytes → UInt64} {m : Map (Entry L)} {ms : List (Bytes × Value L)}
    (h : Holds hashData m ms) (key : Bytes) (v : Value L) :
    Value.member m key = some v ↔ (key, v) ∈ ms := by
  have hmem : ∀ w, (some key, w) ∈ m.elements ↔ (key, w) ∈ ms := h.mem_elements key
  rw [Value.member, Option.map_eq_some_iff]
  constructor
  · rintro ⟨⟨key', w⟩, hfind, rfl⟩
    have hkey : key' = some key := by simpa using List.find?_some hfind
    subst hkey
    exact (hmem w).mp (List.mem_of_find?_eq_some hfind)
  · intro hv
    have hfound : (m.elements.find? (fun e => e.1 = some key)).isSome := by
      rw [List.find?_isSome]
      exact ⟨_, (hmem v).mpr hv, by simp⟩
    obtain ⟨⟨key', w⟩, hfind⟩ := Option.isSome_iff_exists.mp hfound
    have hkey : key' = some key := by simpa using List.find?_some hfind
    subst hkey
    have hw : (key, w) ∈ ms := (hmem w).mp (List.mem_of_find?_eq_some hfind)
    have heq := List.inj_on_of_nodup_map h.nodup hw hv rfl
    exact ⟨_, hfind, congrArg Prod.snd heq⟩

/-- Values with the same content say the same. -/
theorem Value.Agree.tree_eq {hashData : Bytes → UInt64} {v v' : Value L} (h : Agree v v')
    (hv : Consistent hashData v) (hv' : Consistent hashData v') : v.tree = v'.tree := by
  induction h with
  | @array vs vs' hlength _ ih =>
    cases hv with
    | array hvs =>
    cases hv' with
    | array hvs' =>
    rw [Value.tree, Value.tree, Value.treeList_eq, Value.treeList_eq]
    refine congrArg Tree.array (List.ext_getElem? fun i => ?_)
    rw [List.getElem?_map, List.getElem?_map]
    by_cases hi : i < vs.length
    · have hw := List.getElem?_eq_getElem hi
      have hw' := List.getElem?_eq_getElem (hlength ▸ hi)
      rw [hw, hw', Option.map_some, Option.map_some,
        ih i _ _ hw hw' (hvs _ (List.getElem_mem hi)) (hvs' _ (List.getElem_mem _))]
    · rw [List.getElem?_eq_none (by omega), List.getElem?_eq_none (by omega)]
  | @object m m' hkeys _ ih =>
    obtain ⟨_, ms, heq, hm, hms⟩ := hv.members rfl
    cases heq
    obtain ⟨_, ms', heq, hm', hms'⟩ := hv'.members rfl
    cases heq
    rw [hm.tree, hm'.tree]
    have hnodup : ∀ {ms : List (Bytes × Value L)}, (ms.map Prod.fst).Nodup →
        ((ms.map (fun x => (x.1, x.2.tree))).map Prod.fst).Nodup := by
      intro ms h
      rw [List.map_map]
      exact h
    have hle : ∀ {m m' : Map (Entry L)} {ms ms' : List (Bytes × Value L)}, Holds hashData m ms →
        Holds hashData m' ms' → (∀ key, Value.member m' key = none → Value.member m key = none) →
        (∀ key v v', Value.member m key = some v → Value.member m' key = some v' →
          v.tree = v'.tree) →
        ∀ x, x ∈ ms.map (fun x => (x.1, x.2.tree)) → x ∈ ms'.map (fun x => (x.1, x.2.tree)) := by
      intro m m' ms ms' hm hm' hnone htree x hx
      obtain ⟨⟨key, v⟩, hv, rfl⟩ := List.mem_map.mp hx
      have hmember := (hm.member key v).mpr hv
      cases hmember' : Value.member m' key with
      | none =>
        rw [hnone key hmember'] at hmember
        cases hmember
      | some v' =>
        refine List.mem_map.mpr ⟨(key, v'), (hm'.member key v').mp hmember', ?_⟩
        rw [htree key v v' hmember hmember']
    have htree : ∀ key v v', Value.member m key = some v → Value.member m' key = some v' →
        v.tree = v'.tree := fun key v v' hv hv' =>
      ih key v v' hv hv' (hms _ ((hm.member key v).mp hv)) (hms' _ ((hm'.member key v').mp hv'))
    refine congrArg Tree.object (sortMembers_eq_of_perm ?_ (hnodup hm.nodup))
    refine (List.perm_ext_iff_of_nodup (hnodup hm.nodup).of_map (hnodup hm'.nodup).of_map).mpr
      fun x => ⟨?_, ?_⟩
    · exact hle hm hm' (fun key => (hkeys key).mpr) htree x
    · exact hle hm' hm (fun key => (hkeys key).mp)
        (fun key v v' hv hv' => (htree key v' v hv' hv).symm) x
  | _ => rfl

/-! ## The order of the keys -/

/-- `value_object_keys_compare` on different keys is the order byte by byte. -/
theorem lt_of_keysCompare {a b : Bytes} (h : keysCompare a b ≤ 0) (hne : a ≠ b) : a < b := by
  induction a generalizing b with
  | nil =>
    cases b with
    | nil => exact absurd rfl hne
    | cons d b => exact List.nil_lt_cons d b
  | cons c a ih =>
    cases b with
    | nil => simp [keysCompare_cons_nil] at h
    | cons d b =>
      rw [keysCompare_cons_cons] at h
      rw [List.cons_lt_cons_iff]
      by_cases hcd : c = d
      · subst hcd
        rw [if_pos rfl] at h
        exact .inr ⟨rfl, ih h fun hab => hne (by rw [hab])⟩
      · rw [if_neg hcd] at h
        have hnat : c.toNat ≠ d.toNat := fun heq => hcd (UInt8.toNat_inj.mp heq)
        exact .inl (UInt8.lt_iff_toNat_lt.mpr (by omega))

theorem keysCompare_of_lt {a b : Bytes} (h : a < b) : keysCompare a b ≤ 0 := by
  rcases keysCompare_total a b with hle | hle
  · exact hle
  · have hne : b ≠ a := by
      rintro rfl
      exact List.lt_irrefl _ h
    exact absurd (lt_of_keysCompare hle hne) (List.lt_asymm h)

inductive Tree.Increasing : Tree L → Prop
  | undefined : Increasing .undefined
  | null : Increasing .null
  | bool (b : Bool) : Increasing (.bool b)
  | number (n : L) : Increasing (.number n)
  | string (s : Bytes) : Increasing (.string s)
  | array {ts : List (Tree L)} : (∀ t ∈ ts, Increasing t) → Increasing (.array ts)
  | object {ms : List (Bytes × Tree L)} : (ms.map Prod.fst).Pairwise (· < ·) →
      (∀ m ∈ ms, Increasing m.2) → Increasing (.object ms)

theorem Consistent.increasing {hashData : Bytes → UInt64} {v : Value L}
    (h : Consistent hashData v) : v.tree.Increasing := by
  induction h with
  | undefined => exact .undefined
  | null => exact .null
  | bool b => exact .bool b
  | number n => exact .number n
  | string s => exact .string s
  | @array vs _ ih =>
    rw [Value.tree, Value.treeList_eq]
    refine .array fun t ht => ?_
    obtain ⟨v, hv, rfl⟩ := List.mem_map.mp ht
    exact ih v hv
  | @object m ms hm _ ih =>
    rw [hm.sorted_tree]
    have hnodup : ((sortMembers ms).map Prod.fst).Nodup :=
      ((List.mergeSort_perm ms _).map Prod.fst).nodup_iff.mpr hm.nodup
    refine .object ?_ fun x hx => ?_
    · rw [List.map_map, List.pairwise_map]
      rw [List.Nodup, List.pairwise_map] at hnodup
      exact ((pairwise_sortMembers ms).and hnodup).imp fun hab => lt_of_keysCompare hab.1 hab.2
    · obtain ⟨y, hy, rfl⟩ := List.mem_map.mp hx
      exact ih y (List.mem_mergeSort.mp hy)
  | foreign => exact .undefined

/-- The encoder writes one text for values with the same content, whatever calls built
them: the text of their tree, in which the keys of every object increase. -/
theorem valueEncode_canonical (hashData : Bytes → UInt64) (print : L → Bytes)
    (options : EncodeOptions) {v v' : Value L} (hv : Built hashData v) (hv' : Built hashData v')
    (hagree : v.Agree v') :
    valueEncode hashData print v options = valueEncode hashData print v' options ∧
      valueEncode hashData print v options = .ok (v.tree.text print options 0) ∧
      v.tree.Increasing := by
  have htext : valueEncode hashData print v options = .ok (v.tree.text print options 0) :=
    hv.consistent.valueEncode
  have htext' : valueEncode hashData print v' options = .ok (v'.tree.text print options 0) :=
    hv'.consistent.valueEncode
  refine ⟨?_, htext, hv.consistent.increasing⟩
  rw [htext, htext', hagree.tree_eq hv.consistent hv'.consistent]

/-! Two members whose keys have one hash, put in two orders. -/

def firstSlots (es : List (Entry L)) : Value L :=
  .object ⟨es ++ List.replicate (8 - es.length) (none, .undefined), es.length⟩

theorem built_firstSlots {es es' : List (Entry L)} (h : Built (fun _ => 0) (firstSlots es))
    (hlength : es.length < 8) (key : Bytes) {w : Value L} (hw : Built (fun _ => 0) w)
    (hset : (firstSlots es).objectSetRelease (fun _ => 0) key w = .ok (firstSlots es', [])) :
    Built (fun _ => 0) (firstSlots es') :=
  .set h hw (Nat.lt_trans hlength (by decide)) hset

theorem member_pair (a b : Bytes) (v w : Value Unit) (key : Bytes) :
    Value.member ⟨(some a, v) :: (some b, w) :: List.replicate 6 (none, .undefined), 2⟩ key =
      if a = key then some v else if b = key then some w else none := by
  simp only [Value.member, List.find?_cons, Option.some.injEq]
  by_cases ha : a = key
  · simp only [ha, decide_true, if_true, Option.map_some]
  · by_cases hb : b = key
    · simp only [ha, hb, decide_true, decide_false, if_true, if_false, Option.map_some]
    · simp [ha, hb]

theorem agree_swapped :
    (firstSlots (L := Unit) [(some (str "a"), .null), (some (str "b"), .bool true)]).Agree
    (firstSlots [(some (str "b"), .bool true), (some (str "a"), .null)]) := by
  have hne : str "a" ≠ str "b" := by decide
  have hmember : ∀ key, Value.member
      ⟨(some (str "b"), .bool true) :: (some (str "a"), .null) ::
        List.replicate 6 (none, .undefined), 2⟩ key =
      if str "a" = key then some (.null : Value Unit)
      else if str "b" = key then some (.bool true) else none := by
    intro key
    rw [member_pair]
    by_cases ha : str "a" = key
    · rw [if_neg (fun hb => hne (ha.trans hb.symm)), if_pos ha, if_pos ha]
    · rw [if_neg ha, if_neg ha]
  refine .object (fun key => ?_) fun key v v' hv hv' => ?_
  · exact iff_of_eq (congrArg (· = none) ((member_pair _ _ _ _ key).trans (hmember key).symm))
  · rw [show v' = v from
      Option.some.inj
        (hv'.symm.trans ((hmember key).trans ((member_pair _ _ _ _ key).symm.trans hv)))]
    have hcase := (member_pair _ _ _ _ key).symm.trans hv
    split_ifs at hcase <;> cases hcase
    · exact .null
    · exact .bool true

theorem valueEncode_canonical_swapped :
    let v := firstSlots (L := Unit) [(some (str "a"), .null), (some (str "b"), .bool true)]
    let v' := firstSlots (L := Unit) [(some (str "b"), .bool true), (some (str "a"), .null)]
    valueEncode (fun _ => 0) (fun _ => []) v ⟨false, false⟩ =
        valueEncode (fun _ => 0) (fun _ => []) v' ⟨false, false⟩ ∧
      valueEncode (fun _ => 0) (fun _ => []) v ⟨false, false⟩ =
        .ok (v.tree.text (fun _ => []) ⟨false, false⟩ 0) ∧ v.tree.Increasing := by
  have hempty : Built (fun _ => 0) (firstSlots (L := Unit) []) := .newObject rfl
  have ha : Built (fun _ => 0) (firstSlots (L := Unit) [(some (str "a"), .null)]) :=
    built_firstSlots hempty (by decide) (str "a") .null rfl
  have hb : Built (fun _ => 0) (firstSlots (L := Unit) [(some (str "b"), .bool true)]) :=
    built_firstSlots hempty (by decide) (str "b") (.bool true) rfl
  exact valueEncode_canonical _ _ _
    (built_firstSlots ha (by simp) (str "b") (.bool true) rfl)
    (built_firstSlots hb (by simp) (str "a") .null rfl) agree_swapped

end LibReactor
