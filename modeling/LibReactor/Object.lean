import LibReactor.MapRefinement
import LibReactor.Value
import Mathlib.Data.List.Induction
import Mathlib.Data.List.Sort

/-!
# Objects

The members of an object as the hash map holds them. Setting a member moves its
key to the end, `value_object_get` finds the member with a key and
`value_object_keys` lists the keys in order.
-/

namespace LibReactor

variable {L : Type}

/-! ## The order of the keys -/

theorem keysCompare_nil (b : Bytes) : keysCompare [] b = -1 := by
  simp [keysCompare, memcmp]

theorem keysCompare_cons_nil (c : UInt8) (a : Bytes) : keysCompare (c :: a) [] = 1 := by
  simp [keysCompare, memcmp]

theorem keysCompare_cons_cons (c d : UInt8) (a b : Bytes) :
    keysCompare (c :: a) (d :: b) = if c = d then keysCompare a b else c.toNat - d.toNat := by
  simp only [keysCompare, List.length_cons, ← Nat.succ_eq_add_one, Nat.succ_min_succ,
    List.take_succ_cons, memcmp, Nat.succ_lt_succ_iff]
  by_cases h : c = d
  · simp only [h, if_true]
  · have hne : (c.toNat : ℤ) - d.toNat ≠ 0 := by
      intro heq
      exact h (UInt8.toNat_inj.mp (by omega))
    simp only [if_neg h, if_pos hne]

theorem keysCompare_trans {a b c : Bytes} (hab : keysCompare a b ≤ 0) (hbc : keysCompare b c ≤ 0) :
    keysCompare a c ≤ 0 := by
  induction a generalizing b c with
  | nil => simp [keysCompare_nil]
  | cons x a ih =>
    cases b with
    | nil => simp [keysCompare_cons_nil] at hab
    | cons y b =>
      cases c with
      | nil => simp [keysCompare_cons_nil] at hbc
      | cons z c =>
        rw [keysCompare_cons_cons] at hab hbc ⊢
        have hxy := @UInt8.toNat_inj x y
        have hyz := @UInt8.toNat_inj y z
        have hxz := @UInt8.toNat_inj x z
        by_cases h : x = z
        · rw [if_pos h]
          subst h
          by_cases h' : x = y
          · subst h'
            rw [if_pos rfl] at hab hbc
            exact ih hab hbc
          · rw [if_neg h'] at hab
            rw [if_neg (Ne.symm h')] at hbc
            exact absurd (hxy.mp (by omega)) h'
        · rw [if_neg h]
          split_ifs at hab hbc with h₁ h₂ h₂
          · exact absurd (h₁.trans h₂) h
          · rw [h₁]
            exact hbc
          · rw [← h₂]
            exact hab
          · omega

theorem keysCompare_total (a b : Bytes) : keysCompare a b ≤ 0 ∨ keysCompare b a ≤ 0 := by
  induction a generalizing b with
  | nil => simp [keysCompare_nil]
  | cons x a ih =>
    cases b with
    | nil => simp [keysCompare_nil]
    | cons y b =>
      rw [keysCompare_cons_cons, keysCompare_cons_cons]
      by_cases h : x = y
      · subst h
        simpa using ih b
      · rw [if_neg h, if_neg (Ne.symm h)]
        omega

theorem keysCompare_antisymm {a b : Bytes} (hab : keysCompare a b ≤ 0)
    (hba : keysCompare b a ≤ 0) : a = b := by
  induction a generalizing b with
  | nil =>
    cases b with
    | nil => rfl
    | cons y b => simp [keysCompare_cons_nil] at hba
  | cons x a ih =>
    cases b with
    | nil => simp [keysCompare_cons_nil] at hab
    | cons y b =>
      rw [keysCompare_cons_cons] at hab hba
      by_cases h : x = y
      · subst h
        rw [if_pos rfl] at hab hba
        rw [ih hab hba]
      · rw [if_neg h] at hab
        rw [if_neg (Ne.symm h)] at hba
        exact absurd (UInt8.toNat_inj.mp (by omega)) h

section Sorting

variable {α : Type}

theorem pairwise_mergeSort_keys (f : α → Bytes) (l : List α) :
    (l.mergeSort (fun a b => keysCompare (f a) (f b) ≤ 0)).Pairwise
      (fun a b => keysCompare (f a) (f b) ≤ 0) := by
  have hsorted : (l.mergeSort (fun a b => keysCompare (f a) (f b) ≤ 0)).Pairwise
      (fun a b => decide (keysCompare (f a) (f b) ≤ 0) = true) := List.pairwise_mergeSort
    (fun a b c hab hbc => by
      simp only [decide_eq_true_eq] at hab hbc ⊢
      exact keysCompare_trans hab hbc)
    (fun a b => by
      simp only [Bool.or_eq_true, decide_eq_true_eq]
      exact keysCompare_total (f a) (f b)) l
  exact hsorted.imp fun h => by simpa using h

theorem pairwise_sortMembers (l : List (Bytes × α)) :
    (sortMembers l).Pairwise (fun a b => keysCompare a.1 b.1 ≤ 0) :=
  pairwise_mergeSort_keys Prod.fst l

/-- Members with different keys are in one order only. -/
theorem sortMembers_eq_of_perm {l l' : List (Bytes × α)} (hperm : l.Perm l')
    (hnodup : (l.map Prod.fst).Nodup) : sortMembers l = sortMembers l' := by
  have hsort : (sortMembers l).Perm (sortMembers l') :=
    ((List.mergeSort_perm l _).trans hperm).trans (List.mergeSort_perm l' _).symm
  refine hsort.eq_of_pairwise (fun a b ha hb hab hba => ?_) (pairwise_sortMembers l)
    (pairwise_sortMembers l')
  have hkey := keysCompare_antisymm hab hba
  have ha' : a ∈ l := List.mem_mergeSort.mp ha
  have hb' : b ∈ l := hperm.mem_iff.mpr (List.mem_mergeSort.mp hb)
  exact List.inj_on_of_nodup_map hnodup ha' hb' hkey

theorem map_sortMembers {β : Type} (f : α → β) (l : List (Bytes × α)) :
    (sortMembers l).map (fun x => (x.1, f x.2)) = sortMembers (l.map (fun x => (x.1, f x.2))) :=
  List.map_mergeSort (fun _ _ _ _ => rfl)

/-- `value_object_keys` sorts the keys as `sortMembers` sorts the members. -/
theorem sortKeys_eq_of_perm {keys : List Bytes} {l : List (Bytes × α)}
    (hperm : keys.Perm (l.map Prod.fst)) :
    keys.mergeSort (fun a b => keysCompare a b ≤ 0) = (sortMembers l).map Prod.fst := by
  have hmap : (sortMembers l).map Prod.fst =
      (l.map Prod.fst).mergeSort (fun a b => keysCompare a b ≤ 0) :=
    List.map_mergeSort (fun _ _ _ _ => rfl)
  rw [hmap]
  exact List.Perm.eq_of_pairwise (fun a b _ _ hab hba => keysCompare_antisymm hab hba)
    (pairwise_mergeSort_keys id keys) (pairwise_mergeSort_keys id _)
    (((List.mergeSort_perm _ _).trans hperm).trans (List.mergeSort_perm _ _).symm)

end Sorting

/-! ## Setting members -/

section Members

variable {α β : Type}

/-- The members after a key is set: it moves to the end. -/
def setMember (l : List (Bytes × α)) (key : Bytes) (x : α) : List (Bytes × α) :=
  l.filter (fun m => m.1 ≠ key) ++ [(key, x)]

theorem map_setMember (f : α → β) (l : List (Bytes × α)) (key : Bytes) (x : α) :
    (setMember l key x).map (fun m => (m.1, f m.2)) =
      setMember (l.map (fun m => (m.1, f m.2))) key (f x) := by
  simp only [setMember, List.map_append, List.map_cons, List.map_nil, List.filter_map]
  rfl

theorem Tree.lastWins_append (l : List (Bytes × α)) (key : Bytes) (x : α) :
    lastWins (l ++ [(key, x)]) = setMember (lastWins l) key x := by
  simp only [lastWins, List.foldl_append, List.foldl_cons, List.foldl_nil, setMember]

theorem length_setMember_le (l : List (Bytes × α)) (key : Bytes) (x : α) :
    (setMember l key x).length ≤ l.length + 1 := by
  rw [setMember, List.length_append, List.length_singleton]
  exact Nat.succ_le_succ (List.length_filter_le _ l)

theorem Tree.length_lastWins_le (l : List (Bytes × α)) : (lastWins l).length ≤ l.length := by
  induction l using List.reverseRecOn with
  | nil => exact Nat.le_refl 0
  | append_singleton l m ih =>
    rw [lastWins_append, List.length_append, List.length_singleton]
    exact Nat.le_trans (length_setMember_le _ _ _) (Nat.succ_le_succ ih)

theorem Tree.lastWins_of_nodup {l : List (Bytes × α)} (h : (l.map Prod.fst).Nodup) :
    lastWins l = l := by
  induction l using List.reverseRecOn with
  | nil => rfl
  | append_singleton l m ih =>
    rw [List.map_append, List.nodup_append] at h
    obtain ⟨hl, -, hdisjoint⟩ := h
    rw [lastWins_append, ih hl, setMember, List.filter_eq_self.mpr]
    intro x hx
    have := hdisjoint x.1 (List.mem_map_of_mem hx) m.1 (by simp)
    simpa using this

end Members

namespace Tree

theorem resolveList_eq (ts : List (Tree L)) : resolveList ts = ts.map resolve := by
  induction ts with
  | nil => rfl
  | cons t ts ih => rw [resolveList, ih, List.map_cons]

theorem resolveMembers_eq (ms : List (Bytes × Tree L)) :
    resolveMembers ms = ms.map (fun m => (m.1, m.2.resolve)) := by
  induction ms with
  | nil => rfl
  | cons m ms ih => rw [resolveMembers, ih, List.map_cons, resolveMember]

theorem widthList_le {ts : List (Tree L)} {n : ℕ} :
    widthList ts ≤ n ↔ ∀ t ∈ ts, t.width ≤ n := by
  induction ts with
  | nil => simp [widthList]
  | cons t ts ih => simp [widthList, ih]

theorem widthMembers_le {ms : List (Bytes × Tree L)} {n : ℕ} :
    widthMembers ms ≤ n ↔ ∀ m ∈ ms, m.2.width ≤ n := by
  induction ms with
  | nil => simp [widthMembers]
  | cons m ms ih =>
    obtain ⟨key, t⟩ := m
    simp [widthMembers, widthMember, ih]

theorem widthList_append (ts : List (Tree L)) (t : Tree L) :
    widthList (ts ++ [t]) = max (widthList ts) t.width := by
  induction ts with
  | nil => simp [widthList]
  | cons a ts ih => rw [List.cons_append, widthList, ih, widthList, Nat.max_assoc]

theorem widthMembers_singleton (m : Bytes × Tree L) : widthMembers [m] = m.2.width := by
  obtain ⟨key, t⟩ := m
  simp [widthMembers, widthMember]

theorem widthMembers_append (ms : List (Bytes × Tree L)) (m : Bytes × Tree L) :
    widthMembers (ms ++ [m]) = max (widthMembers ms) m.2.width := by
  induction ms with
  | nil => rw [List.nil_append, widthMembers_singleton, widthMembers, Nat.zero_max]
  | cons a ms ih => rw [List.cons_append, widthMembers, ih, widthMembers, Nat.max_assoc]

end Tree

/-! ## The map of an object -/

theorem mapdOps_full {hashData : Bytes → UInt64} {e : Entry L} :
    (mapdOps hashData).Full e ↔ ∃ key, e.1 = some key := by
  obtain ⟨key, v⟩ := e
  cases key <;> simp [MapOps.Full, mapdOps]

theorem lawful_mapdOps (hashData : Bytes → UInt64) : (mapdOps (L := L) hashData).Lawful where
  refl a _ := by simp [mapdOps]
  symm a b _ _ h := by
    simp only [mapdOps, beq_iff_eq] at h ⊢
    exact h.symm
  trans a b c _ _ _ h h' := by
    simp only [mapdOps, beq_iff_eq] at h h' ⊢
    exact h.trans h'
  hash a b _ _ h := by
    simp only [mapdOps, beq_iff_eq] at h ⊢
    rw [h]
  set_some _ := rfl
  set_none := rfl

def entryOf (x : Bytes × Value L) : Entry L := (some x.1, x.2)

def Holds (hashData : Bytes → UInt64) (m : Map (Entry L)) (ms : List (Bytes × Value L)) : Prop :=
  Map.Represents (mapdOps hashData) m (ms.map entryOf)

namespace Value

theorem objectsList_eq (vs : List (Value L)) : objectsList vs = (vs.map objects).sum := by
  induction vs with
  | nil => rfl
  | cons v vs ih => rw [objectsList, ih, List.map_cons, List.sum_cons]

theorem treeList_eq (vs : List (Value L)) : treeList vs = vs.map tree := by
  induction vs with
  | nil => rfl
  | cons v vs ih => rw [treeList, ih, List.map_cons]

theorem objectsEntries_eq (es : List (Entry L)) :
    objectsEntries es = (es.map objectsEntry).sum := by
  induction es with
  | nil => rfl
  | cons e es ih => rw [objectsEntries, ih, List.map_cons, List.sum_cons]

theorem treeEntries_eq (es : List (Entry L)) : treeEntries es = es.flatMap treeEntry := by
  induction es with
  | nil => rfl
  | cons e es ih => rw [treeEntries, ih, List.flatMap_cons]

theorem treeEntries_stored (hashData : Bytes → UInt64) (es : List (Entry L)) :
    treeEntries (Map.stored (mapdOps hashData) es) = treeEntries es := by
  induction es with
  | nil => rfl
  | cons e es ih =>
    obtain ⟨key, v⟩ := e
    cases key with
    | none =>
      have hstored : Map.stored (mapdOps hashData) ((none, v) :: es) =
          Map.stored (mapdOps hashData) es := rfl
      rw [hstored, ih, treeEntries, treeEntry]
      rfl
    | some key =>
      have hstored : Map.stored (mapdOps hashData) ((some key, v) :: es) =
          (some key, v) :: Map.stored (mapdOps hashData) es := rfl
      rw [hstored, treeEntries, treeEntries, ih]

theorem sum_stored (hashData : Bytes → UInt64) {f : Entry L → ℕ} (hf : ∀ v, f (none, v) = 0)
    (es : List (Entry L)) : ((Map.stored (mapdOps hashData) es).map f).sum = (es.map f).sum := by
  induction es with
  | nil => rfl
  | cons e es ih =>
    obtain ⟨key, v⟩ := e
    cases key with
    | none =>
      have hstored : Map.stored (mapdOps hashData) ((none, v) :: es) =
          Map.stored (mapdOps hashData) es := rfl
      rw [hstored, ih, List.map_cons, List.sum_cons, hf, Nat.zero_add]
    | some key =>
      have hstored : Map.stored (mapdOps hashData) ((some key, v) :: es) =
          (some key, v) :: Map.stored (mapdOps hashData) es := rfl
      rw [hstored, List.map_cons, List.sum_cons, ih, List.map_cons, List.sum_cons]

theorem objectsEntries_entryOf (ms : List (Bytes × Value L)) :
    objectsEntries (ms.map entryOf) = (ms.map (fun x => objects x.2)).sum := by
  rw [objectsEntries_eq, List.map_map]
  rfl

theorem treeEntries_entryOf (ms : List (Bytes × Value L)) :
    treeEntries (ms.map entryOf) = ms.map (fun x => (x.1, tree x.2)) := by
  induction ms with
  | nil => rfl
  | cons x ms ih =>
    rw [List.map_cons, treeEntries, ih]
    rfl

end Value

section Holds

variable {hashData : Bytes → UInt64} {m : Map (Entry L)} {ms : List (Bytes × Value L)}

theorem map_fst_entryOf (ms : List (Bytes × Value L)) :
    (ms.map entryOf).filterMap Prod.fst = ms.map Prod.fst := by
  rw [List.filterMap_map, ← List.filterMap_eq_map]
  rfl

/-- The members of an object have different keys. -/
theorem Holds.nodup (h : Holds hashData m ms) : (ms.map Prod.fst).Nodup := by
  have hpairwise : (Map.stored (mapdOps hashData) m.elements).Pairwise
      (fun a b => a.1 ≠ b.1) := by
    refine (h.pairwise.filter _).imp_of_mem fun {a b} ha hb hab heq => ?_
    have hfull : ∀ x ∈ Map.stored (mapdOps hashData) m.elements, (mapdOps hashData).Full x :=
      fun x hx => by simpa [MapOps.Full] using (List.mem_filter.mp hx).2
    have := hab (hfull a ha) (hfull b hb)
    simp [mapdOps, heq] at this
  have hperm := (h.perm.pairwise_iff (fun {a b} hab => Ne.symm hab)).mp hpairwise
  rw [List.pairwise_map] at hperm
  rw [List.Nodup, List.pairwise_map]
  exact hperm.imp fun hab heq => hab (congrArg some heq)

/-- A sum over the slots is a sum over the members. -/
theorem Holds.sum (h : Holds hashData m ms) {f : Entry L → ℕ} (hf : ∀ v, f (none, v) = 0) :
    (m.elements.map f).sum = (ms.map (fun x => f (entryOf x))).sum := by
  rw [← Value.sum_stored hashData hf, (h.perm.map f).sum_nat, List.map_map]
  rfl

theorem Holds.objects (h : Holds hashData m ms) :
    (Value.object m).objects = 1 + (ms.map (fun x => x.2.objects)).sum := by
  have hsum := h.sum (f := Value.objectsEntry) (fun v => rfl)
  obtain ⟨es, count⟩ := m
  rw [Value.objects, Value.objectsMap, Value.objectsEntries_eq, hsum]
  rfl

theorem Holds.tree (h : Holds hashData m ms) :
    (Value.object m).tree = .object (sortMembers (ms.map (fun x => (x.1, x.2.tree)))) := by
  obtain ⟨es, count⟩ := m
  have hperm : (Value.treeEntries es).Perm (ms.map (fun x => (x.1, x.2.tree))) := by
    rw [← Value.treeEntries_stored hashData es, ← Value.treeEntries_entryOf,
      Value.treeEntries_eq, Value.treeEntries_eq]
    exact h.perm.flatMap_right _
  rw [Value.tree, Value.treeMap, ← sortMembers_eq_of_perm hperm.symm]
  rw [List.map_map]
  exact h.nodup

theorem Holds.size (h : Holds hashData m ms) : (Value.object m).objectSize = ms.length := by
  rw [Value.objectSize, Map.mapSize, h.count, List.length_map]

theorem holds_newObject (hashData : Bytes → UInt64) :
    ∃ m, Value.newObject (L := L) hashData = .ok (.object m) ∧ Holds hashData m [] := by
  obtain ⟨m, hnew, hm⟩ := Map.represents_mapConstruct (lawful_mapdOps (L := L) hashData)
  exact ⟨m, by rw [Value.newObject, hnew]; rfl, hm⟩

theorem eraseEntry_entryOf (ms : List (Bytes × Value L)) (key : Bytes) (v : Value L) :
    Map.eraseEntry (mapdOps hashData) (ms.map entryOf) (some key, v) =
      (ms.filter (fun x => x.1 ≠ key)).map entryOf := by
  rw [Map.eraseEntry, List.filter_map]
  refine congrArg _ (List.filter_congr fun x _ => ?_)
  rw [Bool.eq_iff_iff]
  simp [entryOf, mapdOps]

theorem filter_entryOf (ms : List (Bytes × Value L)) (key : Bytes) (v : Value L) :
    (ms.map entryOf).filter (fun x => (mapdOps hashData).equal x (some (some key, v))) =
      (ms.filter (fun x => x.1 = key)).map entryOf := by
  rw [List.filter_map]
  refine congrArg _ (List.filter_congr fun x _ => ?_)
  rw [Bool.eq_iff_iff]
  simp [entryOf, mapdOps]

/-- The members with a key and the others. -/
theorem sum_filter_add {α : Type} (f : Bytes × α → ℕ) (key : Bytes) (l : List (Bytes × α)) :
    ((l.filter (fun x => x.1 ≠ key)).map f).sum + ((l.filter (fun x => x.1 = key)).map f).sum =
      (l.map f).sum := by
  induction l with
  | nil => rfl
  | cons x l ih =>
    by_cases hx : x.1 = key
    · rw [List.filter_cons_of_neg (by simpa using hx), List.filter_cons_of_pos (by simpa using hx)]
      simp only [List.map_cons, List.sum_cons]
      omega
    · rw [List.filter_cons_of_pos (by simpa using hx), List.filter_cons_of_neg (by simpa using hx)]
      simp only [List.map_cons, List.sum_cons]
      omega

/-- `value_object_delete` takes the member out and releases it. -/
theorem Holds.objectDelete (h : Holds hashData m ms) (key : Bytes) :
    ∃ m', (Value.object m).objectDelete hashData key =
        .ok (.object m', (ms.filter (fun x => x.1 = key)).map entryOf) ∧
      Holds hashData m' (ms.filter (fun x => x.1 ≠ key)) := by
  obtain ⟨m', herase, hm'⟩ := Map.Represents.mapErase (lawful_mapdOps (L := L) hashData) h
    (mapdOps_full (e := (some key, .undefined)).mpr ⟨key, rfl⟩)
  rw [eraseEntry_entryOf] at hm'
  rw [filter_entryOf] at herase
  exact ⟨m', by simp only [Value.objectDelete, herase, ok_bind, pure_eq_ok], hm'⟩

/-- `value_object_set_release` sets the member and releases the value it replaces. -/
theorem Holds.objectSetRelease (h : Holds hashData m ms) (hlen : ms.length < 2 ^ 62)
    (key : Bytes) (v : Value L) :
    ∃ m' released, (Value.object m).objectSetRelease hashData key v = .ok (.object m', released) ∧
      Holds hashData m' (setMember ms key v) ∧
      (Value.object m').objects + Value.objectsEntries released =
        (Value.object m).objects + v.objects := by
  obtain ⟨m₁, hdelete, hm₁⟩ := h.objectDelete key
  have hlen₁ : ((ms.filter (fun x => x.1 ≠ key)).map entryOf).length < 2 ^ 62 := by
    have := List.length_filter_le (fun x => decide (x.1 ≠ key)) ms
    rw [List.length_map]
    omega
  have hnew : ((ms.filter (fun x => x.1 ≠ key)).map entryOf).any
      (fun x => (mapdOps hashData).equal x (some (some key, v))) = false := by
    rw [List.any_eq_false]
    intro x hx
    obtain ⟨y, hy, rfl⟩ := List.mem_map.mp hx
    simpa [entryOf, mapdOps] using (List.mem_filter.mp hy).2
  obtain ⟨m', hinsert, hm'⟩ := Map.Represents.mapInsert (lawful_mapdOps (L := L) hashData) hm₁
    (mapdOps_full (e := (some key, v)).mpr ⟨key, rfl⟩) hlen₁
  have hholds : Holds hashData m' (setMember ms key v) := by
    rw [Map.insertEntry, hnew] at hm'
    rw [Holds, setMember, List.map_append]
    exact hm'
  rw [hnew] at hinsert
  refine ⟨m', (ms.filter (fun x => x.1 = key)).map entryOf ++ [], ?_, hholds, ?_⟩
  · simp only [Value.objectSetRelease, hdelete, ok_bind, hinsert, pure_eq_ok]
    rfl
  · rw [hholds.objects, h.objects, setMember]
    simp only [List.append_nil, List.map_append, List.sum_append,
      List.map_cons, List.map_nil, List.sum_cons, List.sum_nil, Value.objectsEntries_entryOf]
    have := sum_filter_add (fun x : Bytes × Value L => x.2.objects) key ms
    omega

theorem Holds.objectGet (h : Holds hashData m ms) {key : Bytes} {v : Value L}
    (hx : (key, v) ∈ ms) : (Value.object m).objectGet hashData key = .ok v := by
  obtain ⟨i, x, hat, helement, hslot⟩ := Map.Represents.mapAt_find? (lawful_mapdOps hashData) h
    (mapdOps_full (e := (some key, .undefined)).mpr ⟨key, rfl⟩)
  have hfind : (ms.map entryOf).find?
      (fun x => (mapdOps hashData).equal x (some (some key, .undefined))) = some (some key, v) := by
    cases hfind : (ms.map entryOf).find?
        (fun x => (mapdOps hashData).equal x (some (some key, .undefined))) with
    | none =>
      have := List.find?_eq_none.mp hfind (entryOf (key, v)) (List.mem_map_of_mem hx)
      simp [entryOf, mapdOps] at this
    | some y =>
      obtain ⟨⟨key', w⟩, hz, rfl⟩ := List.mem_map.mp (List.mem_of_find?_eq_some hfind)
      have hkey : key' = key := by
        simpa [entryOf, mapdOps] using List.find?_some hfind
      subst hkey
      have := List.inj_on_of_nodup_map h.nodup hz hx rfl
      rw [this]
      rfl
  rw [hfind] at hslot
  simp only [Value.objectGet, hat, ok_bind, helement, pure_eq_ok]
  exact congrArg (fun e : Entry L => Except.ok e.2) hslot

theorem Holds.objectKeys (h : Holds hashData m ms) :
    (Value.object m).objectKeys =
      .array ((sortMembers ms).map (fun x => Value.string x.1)) := by
  have hstored : ∀ es : List (Entry L), es.filterMap Prod.fst =
      (Map.stored (mapdOps hashData) es).filterMap Prod.fst := by
    intro es
    rw [Map.stored, List.filterMap_filter]
    refine List.filterMap_congr fun e _ => ?_
    obtain ⟨key, v⟩ := e
    cases key <;> rfl
  have hperm : (m.elements.filterMap Prod.fst).Perm (ms.map Prod.fst) := by
    rw [hstored, ← map_fst_entryOf]
    exact h.perm.filterMap _
  rw [Value.objectKeys, sortKeys_eq_of_perm hperm, List.map_map]
  rfl

end Holds

end LibReactor
