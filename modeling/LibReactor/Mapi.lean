import LibReactor.MapRefinement
import Mathlib.Data.Finset.Card

/-!
# The map of integers

`mapi_t` is the hash map on entries of a key and a value. The key 0 marks the slots that are
empty. Without an entry of this key the map follows a function from the keys to the values first
inserted for them.
-/

namespace LibReactor

def hashUint64 (v : UInt64) : UInt64 :=
  let v := v ^^^ (v >>> 33)
  let v := v * 0xff51afd7ed558ccd
  let v := v ^^^ (v >>> 33)
  let v := v * 0xc4ceb9fe1a85ec53
  v ^^^ (v >>> 33)

structure MapiEntry where
  key : UInt64
  value : UInt64
  deriving DecidableEq, Repr

def mapiOps : MapOps MapiEntry where
  hash e := hashUint64 e.key
  equal a b := match b with
    | some b => a.key == b.key
    | none => a.key == 0
  set b := b.getD ⟨0, 0⟩

inductive MapiCall
  | insert (key value : UInt64)
  | erase (key : UInt64)
  | reserve (size : ℕ)
  | clear
  deriving DecidableEq, Repr

section Functions

variable (m : Map MapiEntry)

def mapiConstruct : Except Fault (Map MapiEntry) := Map.mapConstruct mapiOps

def mapiSize : ℕ := m.mapSize

def mapiReserve (size : ℕ) : Except Fault (Map MapiEntry) := Map.mapReserve mapiOps m size

def mapiAt (key : UInt64) : Except Fault UInt64 := do
  let i ← Map.mapAt mapiOps m ⟨key, 0⟩
  let e ← m.element i
  return e.value

def mapiInsert (key value : UInt64) : Except Fault (Map MapiEntry × List MapiEntry) :=
  Map.mapInsert mapiOps m ⟨key, value⟩

def mapiErase (key : UInt64) : Except Fault (Map MapiEntry × List MapiEntry) :=
  Map.mapErase mapiOps m ⟨key, 0⟩

def mapiClear : Except Fault (Map MapiEntry × List MapiEntry) := Map.mapClear mapiOps m

def mapiCall : MapiCall → Except Fault (Map MapiEntry)
  | .insert key value => Prod.fst <$> mapiInsert m key value
  | .erase key => Prod.fst <$> mapiErase m key
  | .reserve size => mapiReserve m size
  | .clear => Prod.fst <$> mapiClear m

end Functions

def mapiCalls (cs : List MapiCall) : Except Fault (Map MapiEntry) := do
  let m ← mapiConstruct
  cs.foldlM mapiCall m

def MapiCall.onMap : MapiCall → MapCall MapiEntry
  | .insert key value => .insert ⟨key, value⟩
  | .erase key => .erase ⟨key, 0⟩
  | .reserve size => .reserve size
  | .clear => .clear

/-! ## What the map is for -/

def valueStep (k : UInt64) (v : Option UInt64) : MapiCall → Option UInt64
  | .insert key value => if v.isNone && key == k then some value else v
  | .erase key => if key = k then none else v
  | .reserve _ => v
  | .clear => none

/-- The value first inserted for a key since it was last erased. -/
def firstValue (k : UInt64) (cs : List MapiCall) : Option UInt64 := cs.foldl (valueStep k) none

def keysStep (keys : Finset UInt64) : MapiCall → Finset UInt64
  | .insert key _ => insert key keys
  | .erase key => keys.erase key
  | .reserve _ => keys
  | .clear => ∅

def presentKeys (cs : List MapiCall) : Finset UInt64 := cs.foldl keysStep ∅

/-- A call that does not insert the key 0, with a table that can be allocated. -/
def MapiCall.Fits (keys : Finset UInt64) : MapiCall → Prop
  | .insert key _ => key ≠ 0 ∧ keys.card < 2 ^ 62
  | .reserve size => size < 2 ^ 62
  | .erase _ | .clear => True

def AllFit : Finset UInt64 → List MapiCall → Prop
  | _, [] => True
  | keys, c :: cs => c.Fits keys ∧ AllFit (keysStep keys c) cs

/-! ## Empty slots -/

namespace Map

variable {ε : Type} {ops : MapOps ε} {m : Map ε}

/-- The slots that are empty hold nothing else. -/
def Clean (ops : MapOps ε) (m : Map ε) : Prop :=
  ∀ x ∈ m.elements, ops.equal x none = true → x = ops.set none

theorem clean_replicate (n count : ℕ) : Clean ops ⟨List.replicate n (ops.set none), count⟩ :=
  fun _ hx _ => List.eq_of_mem_replicate hx

theorem Clean.set (h : Clean ops m) {y : ε} (hy : ops.equal y none = true → y = ops.set none)
    (i count : ℕ) : Clean ops ⟨m.elements.set i y, count⟩ := by
  intro x hx hempty
  rcases List.mem_or_eq_of_mem_set hx with hx | rfl
  · exact h x hx hempty
  · exact hy hempty

theorem Clean.set_full (h : Clean ops m) {y : ε} (hy : ops.Full y) (i count : ℕ) :
    Clean ops ⟨m.elements.set i y, count⟩ := by
  refine h.set (fun hempty => ?_) i count
  rw [MapOps.Full] at hy
  rw [hy] at hempty
  cases hempty

def KeepsClean (ops : MapOps ε) (insert : Map ε → ε → Except Fault (Map ε × List ε)) : Prop :=
  ∀ m e r, Clean ops m → ops.Full e → insert m e = .ok r → Clean ops r.1

theorem Clean.foldlM {insert : Map ε → ε → Except Fault (Map ε × List ε)}
    (hinsert : KeepsClean ops insert) {l : List ε} (h : Clean ops m) {m' : Map ε}
    (hfold : l.foldlM (fun new e => if ops.equal e none then .ok new
      else Prod.fst <$> insert new e) m = .ok m') : Clean ops m' := by
  induction l generalizing m with
  | nil => exact Except.ok.inj hfold ▸ h
  | cons e l ih =>
    rw [List.foldlM_cons, bind_eq_ok] at hfold
    obtain ⟨m₁, hcall, hfold⟩ := hfold
    refine ih ?_ hfold
    split_ifs at hcall with hempty
    · exact Except.ok.inj hcall ▸ h
    · rw [map_eq_pure_bind, bind_eq_ok] at hcall
      obtain ⟨r, hr, hm⟩ := hcall
      exact Except.ok.inj hm ▸ hinsert m e r h (by simpa [MapOps.Full] using hempty) hr

theorem Clean.mapReserveWith {insert : Map ε → ε → Except Fault (Map ε × List ε)}
    (hinsert : KeepsClean ops insert) (h : Clean ops m) {size : ℕ} {m' : Map ε}
    (hreserve : mapReserveWith ops insert m size = .ok m') : Clean ops m' := by
  unfold Map.mapReserveWith at hreserve
  simp only at hreserve
  split_ifs at hreserve with hgrow
  · exact (clean_replicate _ _).foldlM hinsert hreserve
  · exact Except.ok.inj hreserve ▸ h

theorem keepsClean_mapInsertNested (hops : ops.Lawful) (depth : ℕ) :
    KeepsClean ops (mapInsertNested ops depth) := by
  induction depth with
  | zero => exact nofun
  | succ depth ih =>
    intro m e r h he hinsert
    simp only [mapInsertNested, bind_eq_ok, hops.set_some] at hinsert
    obtain ⟨m₁, hreserve, i, -, test, -, hinsert⟩ := hinsert
    have h₁ := h.mapReserveWith ih hreserve
    split_ifs at hinsert with hempty
    · exact Except.ok.inj hinsert ▸ h₁.set_full he i _
    · exact Except.ok.inj hinsert ▸ h₁

/-- What the second loop of `map_erase` moves is not empty. -/
theorem Clean.shiftTurn (hops : ops.Lawful) {s s' : Shift ε} (h : Clean ops s.map)
    (hturn : shiftTurn ops s = .ok (.inr s')) : Clean ops s'.map := by
  simp only [Map.shiftTurn, bind_eq_ok, hops.set_some] at hturn
  obtain ⟨x, -, hturn⟩ := hturn
  split_ifs at hturn with hempty hmove
  · cases hturn
  · obtain rfl := Sum.inr.inj (Except.ok.inj hturn)
    exact h.set_full (by simpa [MapOps.Full] using hempty) _ _
  · obtain rfl := Sum.inr.inj (Except.ok.inj hturn)
    exact h

theorem shiftTurn_done {s : Shift ε} {t : ℕ × Map ε}
    (hturn : shiftTurn ops s = .ok (.inl t)) : t.2 = s.map := by
  simp only [Map.shiftTurn, bind_eq_ok] at hturn
  obtain ⟨x, -, hturn⟩ := hturn
  split_ifs at hturn
  · obtain rfl := Sum.inl.inj (Except.ok.inj hturn)
    rfl
  · cases hturn
  · cases hturn

theorem Clean.mapErase (hops : ops.Lawful) (h : Clean ops m) {e : ε} {r : Map ε × List ε}
    (herase : mapErase ops m e = .ok r) : Clean ops r.1 := by
  rw [Map.mapErase, bind_eq_ok] at herase
  obtain ⟨found, -, herase⟩ := herase
  cases found with
  | none => exact Except.ok.inj herase ▸ h
  | some i =>
    simp only [bind_eq_ok] at herase
    obtain ⟨test, -, t, hshift, hr⟩ := herase
    have ht : Clean ops t.2 := by
      refine Loop.run_invariant (Map.shiftTurn ops) (I := fun s => Clean ops s.map)
        (Q := fun r => ∀ t, r = .ok t → Clean ops t.2) (fun _ _ _ _ _ h => by cases h) ?_ ?_ h
        ((Loop.within_eq_ok _).mp hshift) t rfl
      · rintro s _ hs hturn t ⟨⟩
        exact shiftTurn_done hturn ▸ hs
      · exact fun s s' hs hturn => hs.shiftTurn hops hturn
    exact Except.ok.inj hr ▸ ht.set (fun _ => rfl) _ _

theorem Clean.mapClear {r : Map ε × List ε} (hclear : mapClear ops m = .ok r) :
    Clean ops r.1 := by
  rw [Map.mapClear, bind_eq_ok] at hclear
  obtain ⟨new, hconstruct, hr⟩ := hclear
  obtain rfl : ⟨List.replicate 8 (ops.set none), 0⟩ = new := Except.ok.inj hconstruct
  exact Except.ok.inj hr ▸ clean_replicate _ _

end Map

/-! ## Runs without the key 0 -/

theorem mapiOps_full {e : MapiEntry} : mapiOps.Full e ↔ e.key ≠ 0 := by
  simp [MapOps.Full, mapiOps]

theorem mapiOps_equal (a b : MapiEntry) : mapiOps.equal a (some b) = (a.key == b.key) := rfl

theorem lawful_mapiOps : mapiOps.Lawful where
  refl a _ := by simp [mapiOps_equal]
  symm a b _ _ h := by
    rw [mapiOps_equal, beq_iff_eq] at h ⊢
    exact h.symm
  trans a b c _ _ _ h h' := by
    rw [mapiOps_equal, beq_iff_eq] at h h' ⊢
    exact h.trans h'
  hash a b _ _ h := by
    rw [mapiOps_equal, beq_iff_eq] at h
    simp only [mapiOps, h]
  set_some _ := rfl
  set_none := rfl

theorem mapiCall_eq (m : Map MapiEntry) (c : MapiCall) :
    mapiCall m c = Prod.fst <$> m.call mapiOps c.onMap := by
  cases c with
  | reserve size =>
    rw [mapiCall, mapiReserve, MapiCall.onMap, Map.call]
    cases Map.mapReserve mapiOps m size <;> rfl
  | insert key value => rfl
  | erase key => rfl
  | clear => rfl

open Map

theorem Map.Clean.call {m : Map MapiEntry} (h : Clean mapiOps m) {keys : Finset UInt64}
    {c : MapiCall} (hc : c.Fits keys) {r : Map MapiEntry × List MapiEntry}
    (hcall : m.call mapiOps c.onMap = .ok r) : Clean mapiOps r.1 := by
  cases c with
  | insert key value =>
    exact keepsClean_mapInsertNested lawful_mapiOps 2 m _ r h (mapiOps_full.mpr hc.1) hcall
  | erase key => exact h.mapErase lawful_mapiOps hcall
  | reserve size =>
    simp only [MapiCall.onMap, Map.call, bind_eq_ok] at hcall
    obtain ⟨m', hreserve, hr⟩ := hcall
    exact Except.ok.inj hr ▸
      h.mapReserveWith (keepsClean_mapInsertNested lawful_mapiOps 1) hreserve
  | clear => exact Clean.mapClear hcall

section Entries

variable {m : Map MapiEntry} {l : List MapiEntry}

theorem entry_key_ne (h : Represents mapiOps m l) {e : MapiEntry} (he : e ∈ l) : e.key ≠ 0 :=
  mapiOps_full.mp (h.full_of_mem he)

theorem nodup_keys (h : Represents mapiOps m l) : (l.map MapiEntry.key).Nodup := by
  have hstored : ((stored mapiOps m.elements).map MapiEntry.key).Nodup := by
    rw [List.Nodup, List.pairwise_map]
    refine (h.pairwise.filter _).imp_of_mem fun {a b} ha hb hab => ?_
    have hfull : ∀ x ∈ stored mapiOps m.elements, mapiOps.Full x := fun x hx => by
      simpa [MapOps.Full] using (List.mem_filter.mp hx).2
    have hne := hab (hfull a ha) (hfull b hb)
    rwa [mapiOps_equal, beq_eq_false_iff_ne] at hne
  exact (h.perm.map _).nodup_iff.mp hstored

/-- A search for the key 0 stops at an empty slot. -/
theorem mapErase_zero (h : Represents mapiOps m l) (value : UInt64) :
    mapErase mapiOps m ⟨0, value⟩ = .ok (m, []) := by
  obtain ⟨i, -, hfind, hstop, -⟩ := h.run_findTurn_stop ⟨0, value⟩
  rcases hstop with hnone | ⟨x, hx, heq⟩
  · rw [Map.mapErase, hfind, ok_bind, hnone]
    rfl
  · exact absurd (beq_iff_eq.mp heq) (mapiOps_full.mp (slots_eq_some.mp hx).2)

end Entries

structure MapiHolds (m : Map MapiEntry) (l : List MapiEntry) (v : UInt64 → Option UInt64)
    (keys : Finset UInt64) : Prop where
  represents : Represents mapiOps m l
  clean : Clean mapiOps m
  value : ∀ k, (l.find? (fun e => mapiOps.equal e (some ⟨k, 0⟩))).map MapiEntry.value = v k
  keys : (l.map MapiEntry.key).toFinset = keys

section Holds

variable {m : Map MapiEntry} {l : List MapiEntry} {v : UInt64 → Option UInt64}
  {keys : Finset UInt64} (h : MapiHolds m l v keys)
include h

theorem MapiHolds.size : mapiSize m = keys.card := by
  rw [mapiSize, mapSize, h.represents.count, ← h.keys,
    List.toFinset_card_of_nodup (nodup_keys h.represents), List.length_map]

theorem MapiHolds.value_zero : v 0 = none := by
  rw [← h.value 0, Option.map_eq_none_iff, List.find?_eq_none]
  intro e he
  rw [mapiOps_equal, beq_iff_eq]
  exact entry_key_ne h.represents he

theorem MapiHolds.zero_not_mem : (0 : UInt64) ∉ keys := by
  rw [← h.keys, List.mem_toFinset, List.mem_map]
  rintro ⟨e, he, hkey⟩
  exact entry_key_ne h.represents he hkey

theorem MapiHolds.mapiAt (k : UInt64) : mapiAt m k = .ok ((v k).getD 0) := by
  by_cases hk : k = 0
  · subst hk
    obtain ⟨i, hi, hat, hstop, -⟩ := h.represents.mapAt_stop ⟨0, 0⟩
    obtain ⟨x, hget, helement⟩ := element_eq (m := m) hi
    have hempty : mapiOps.equal x none = true := by
      rw [stops_iff hget, Bool.or_eq_true] at hstop
      exact hstop.elim id id
    rw [LibReactor.mapiAt, hat, ok_bind, helement, ok_bind, h.value_zero,
      h.clean x (List.mem_of_getElem? hget) hempty]
    rfl
  · obtain ⟨i, x, hat, helement, hslot⟩ :=
      h.represents.mapAt_find? lawful_mapiOps (e := ⟨k, 0⟩) (mapiOps_full.mpr hk)
    rw [LibReactor.mapiAt, hat, ok_bind, helement, ok_bind, ← h.value k, pure_eq_ok]
    cases hfind : l.find? (fun e => mapiOps.equal e (some ⟨k, 0⟩)) with
    | some y =>
      rw [hfind] at hslot
      obtain rfl : x = y := hslot
      rfl
    | none =>
      rw [hfind] at hslot
      have hmem : x ∈ m.elements := by
        unfold Map.element at helement
        cases hget : m.elements[i]? with
        | none =>
          rw [hget] at helement
          cases helement
        | some y =>
          rw [hget] at helement
          exact Except.ok.inj helement ▸ List.mem_of_getElem? hget
      rw [h.clean x hmem hslot]
      rfl

theorem MapiHolds.allowed {c : MapiCall} (hc : c.Fits keys) (hzero : c ≠ .erase 0) :
    Allowed mapiOps l c.onMap := by
  cases c with
  | insert key value =>
    refine ⟨mapiOps_full.mpr hc.1, ?_⟩
    have hsize : m.elementsCount = keys.card := h.size
    rw [← h.represents.count, hsize]
    exact hc.2
  | erase key =>
    refine mapiOps_full.mpr ?_
    rintro rfl
    exact hzero rfl
  | reserve size => exact hc
  | clear => trivial

theorem MapiHolds.find?_callEntries {m' : Map MapiEntry} {c : MapiCall} (hc : c.Fits keys)
    (hzero : c ≠ .erase 0) (hm' : Represents mapiOps m' (callEntries mapiOps l c.onMap))
    (k : UInt64) :
    ((callEntries mapiOps l c.onMap).find? (fun e => mapiOps.equal e (some ⟨k, 0⟩))).map
      MapiEntry.value = valueStep k (v k) c := by
  by_cases hk : k = 0
  · subst hk
    have hnone : (callEntries mapiOps l c.onMap).find?
        (fun e => mapiOps.equal e (some ⟨0, 0⟩)) = none := by
      rw [List.find?_eq_none]
      intro e he
      rw [mapiOps_equal, beq_iff_eq]
      exact entry_key_ne hm' he
    rw [hnone, h.value_zero]
    cases c with
    | insert key value => simp [valueStep, hc.1]
    | erase key => simp [valueStep]
    | reserve size => rfl
    | clear => rfl
  · rw [Map.find?_callEntries lawful_mapiOps (fun x hx => h.represents.full_of_mem hx)
      (mapiOps_full.mpr hk) (h.allowed hc hzero), ← h.value k]
    generalize l.find? (fun e => mapiOps.equal e (some ⟨k, 0⟩)) = s
    cases c with
    | insert key value =>
      rw [valueStep, Option.isNone_map]
      change Option.map MapiEntry.value (if (s.isNone && key == k) = true then some _ else s) = _
      by_cases hnew : (s.isNone && key == k) = true
      · rw [if_pos hnew, if_pos hnew]
        rfl
      · rw [if_neg hnew, if_neg hnew]
    | erase key =>
      simp only [MapiCall.onMap, firstInsertedStep, valueStep, mapiOps_equal,
        beq_iff_eq]
      split_ifs <;> rfl
    | reserve size => rfl
    | clear => rfl

theorem MapiHolds.keys_callEntries (c : MapiCall) :
    ((callEntries mapiOps l c.onMap).map MapiEntry.key).toFinset = keysStep keys c := by
  rw [← h.keys]
  cases c with
  | insert key value =>
    simp only [MapiCall.onMap, callEntries, insertEntry, keysStep]
    split_ifs with hany
    · obtain ⟨e, he, heq⟩ := List.any_eq_true.mp hany
      rw [mapiOps_equal, beq_iff_eq] at heq
      refine (Finset.insert_eq_self.mpr ?_).symm
      rw [List.mem_toFinset]
      exact List.mem_map.mpr ⟨e, he, heq⟩
    · ext k
      simp
  | erase key =>
    ext k
    simp only [MapiCall.onMap, callEntries, eraseEntry, keysStep, List.mem_toFinset,
      List.mem_map, List.mem_filter, Finset.mem_erase, mapiOps_equal, Bool.not_eq_true',
      beq_eq_false_iff_ne]
    constructor
    · rintro ⟨e, ⟨he, hne⟩, rfl⟩
      exact ⟨hne, e, he, rfl⟩
    · rintro ⟨hne, e, he, rfl⟩
      exact ⟨e, ⟨he, hne⟩, rfl⟩
  | reserve size => rfl
  | clear => rfl

/-- The step lemma. -/
theorem MapiHolds.call {c : MapiCall} (hc : c.Fits keys) :
    ∃ m' l', mapiCall m c = .ok m' ∧
      MapiHolds m' l' (fun k => valueStep k (v k) c) (keysStep keys c) := by
  by_cases hzero : c = .erase 0
  · subst hzero
    refine ⟨m, l, by rw [mapiCall, mapiErase, mapErase_zero h.represents]; rfl, h.represents,
      h.clean, fun k => ?_, ?_⟩
    · rw [h.value, valueStep]
      split_ifs with hk
      · exact hk ▸ h.value_zero
      · rfl
    · rw [h.keys, keysStep, Finset.erase_eq_of_notMem h.zero_not_mem]
  · obtain ⟨m', released, hcall, hm'⟩ := h.represents.call lawful_mapiOps (h.allowed hc hzero)
    exact ⟨m', _, by rw [mapiCall_eq, hcall]; rfl, hm', h.clean.call hc hcall,
      h.find?_callEntries hc hzero hm', h.keys_callEntries c⟩

end Holds

theorem MapiHolds.foldlM {m : Map MapiEntry} {l : List MapiEntry} {v : UInt64 → Option UInt64}
    {keys : Finset UInt64} (h : MapiHolds m l v keys) {cs : List MapiCall} (hcs : AllFit keys cs) :
    ∃ m' l', cs.foldlM mapiCall m = .ok m' ∧
      MapiHolds m' l' (fun k => cs.foldl (valueStep k) (v k)) (cs.foldl keysStep keys) := by
  induction cs generalizing m l v keys with
  | nil => exact ⟨m, l, rfl, h⟩
  | cons c cs ih =>
    obtain ⟨m₁, l₁, hcall, h₁⟩ := h.call hcs.1
    obtain ⟨m', l', hfold, h'⟩ := ih h₁ hcs.2
    exact ⟨m', l', by rw [List.foldlM_cons, hcall]; exact hfold, h'⟩

theorem mapiHolds_nil :
    ∃ m, mapiConstruct = .ok m ∧ MapiHolds m [] (fun _ => none) ∅ := by
  obtain ⟨m, hconstruct, hm⟩ := represents_mapConstruct lawful_mapiOps
  refine ⟨m, hconstruct, hm, ?_, fun _ => rfl, rfl⟩
  obtain rfl : ⟨List.replicate 8 ⟨0, 0⟩, 0⟩ = m := Except.ok.inj hconstruct
  exact clean_replicate _ _

end LibReactor
