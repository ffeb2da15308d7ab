import LibReactor.Hash

/-!
# The maps of strings and of data

`maps_t` and `mapd_t` are the hash map on entries of a key and a value. A slot with NULL for its
key is empty. Both follow a function from the contents of the keys to the values first inserted
for them.
-/

namespace LibReactor

/-- `maps_entry_t` and `mapd_entry_t`, with `none` for a key that is NULL -/
structure KeyEntry (κ : Type) where
  key : Option κ
  value : UInt64
  deriving DecidableEq, Repr

/-- The hash of a key, and the comparison of two keys: it decides whether they are the same. -/
structure KeyFunctions (κ : Type) [DecidableEq κ] where
  hash : Option κ → UInt64
  equal : Option κ → Option κ → Bool
  equal_some : ∀ a b, equal (some a) (some b) = decide (a = b)

inductive KeyCall (κ : Type)
  | insert (key : κ) (value : UInt64)
  | erase (key : κ)
  | reserve (size : ℕ)
  | clear
  deriving DecidableEq, Repr

def KeyCall.map {κ ν : Type} (g : κ → ν) : KeyCall κ → KeyCall ν
  | .insert key value => .insert (g key) value
  | .erase key => .erase (g key)
  | .reserve size => .reserve size
  | .clear => .clear

namespace KeyMap

section Functions

variable {κ : Type} [DecidableEq κ] (f : KeyFunctions κ) (m : Map (KeyEntry κ))

def ops : MapOps (KeyEntry κ) where
  hash e := f.hash e.key
  equal a b := match b with
    | some b => f.equal a.key b.key
    | none => a.key.isNone
  set b := b.getD ⟨none, 0⟩

def construct : Except Fault (Map (KeyEntry κ)) := Map.mapConstruct (ops f)

def size : ℕ := m.mapSize

def reserve (size : ℕ) : Except Fault (Map (KeyEntry κ)) := Map.mapReserve (ops f) m size

def lookup (key : Option κ) : Except Fault UInt64 := do
  let i ← Map.mapAt (ops f) m ⟨key, 0⟩
  let e ← m.element i
  return e.value

def insert (key : Option κ) (value : UInt64) :
    Except Fault (Map (KeyEntry κ) × List (KeyEntry κ)) :=
  Map.mapInsert (ops f) m ⟨key, value⟩

def erase (key : Option κ) : Except Fault (Map (KeyEntry κ) × List (KeyEntry κ)) :=
  Map.mapErase (ops f) m ⟨key, 0⟩

def clear : Except Fault (Map (KeyEntry κ) × List (KeyEntry κ)) := Map.mapClear (ops f) m

def call : KeyCall (Option κ) → Except Fault (Map (KeyEntry κ))
  | .insert key value => Prod.fst <$> insert f m key value
  | .erase key => Prod.fst <$> erase f m key
  | .reserve size => reserve f m size
  | .clear => Prod.fst <$> clear f m

def calls (cs : List (KeyCall (Option κ))) : Except Fault (Map (KeyEntry κ)) := do
  let m ← construct f
  cs.foldlM (call f) m

def onMap : KeyCall (Option κ) → MapCall (KeyEntry κ)
  | .insert key value => .insert ⟨key, value⟩
  | .erase key => .erase ⟨key, 0⟩
  | .reserve size => .reserve size
  | .clear => .clear

end Functions

/-! ## What the maps are for -/

section Abstract

variable {κ : Type} [DecidableEq κ]

def valueStep (k : κ) (v : Option UInt64) : KeyCall κ → Option UInt64
  | .insert key value => if v.isNone && decide (key = k) then some value else v
  | .erase key => if key = k then none else v
  | .reserve _ => v
  | .clear => none

/-- The value first inserted for a key since it was last erased. -/
def firstValue (k : κ) (cs : List (KeyCall κ)) : Option UInt64 := cs.foldl (valueStep k) none

def keysStep (keys : Finset κ) : KeyCall κ → Finset κ
  | .insert key _ => Insert.insert key keys
  | .erase key => keys.erase key
  | .reserve _ => keys
  | .clear => ∅

def presentKeys (cs : List (KeyCall κ)) : Finset κ := cs.foldl keysStep ∅

def Fits (keys : Finset κ) : KeyCall κ → Prop
  | .insert _ _ => keys.card < 2 ^ 62
  | .reserve size => size < 2 ^ 62
  | .erase _ | .clear => True

instance (keys : Finset κ) : (c : KeyCall κ) → Decidable (Fits keys c)
  | .insert _ _ => inferInstanceAs (Decidable (keys.card < 2 ^ 62))
  | .reserve size => inferInstanceAs (Decidable (size < 2 ^ 62))
  | .erase _ | .clear => inferInstanceAs (Decidable True)

def AllFit : Finset κ → List (KeyCall κ) → Prop
  | _, [] => True
  | keys, c :: cs => Fits keys c ∧ AllFit (keysStep keys c) cs

end Abstract

/-! ## Runs -/

section Runs

variable {κ : Type} [DecidableEq κ] {f : KeyFunctions κ} {m : Map (KeyEntry κ)}
  {l : List (KeyEntry κ)}

open Map

theorem full_iff {e : KeyEntry κ} : (ops f).Full e ↔ ∃ k, e.key = some k := by
  rw [MapOps.Full, ← Option.isSome_iff_exists]
  show e.key.isNone = false ↔ _
  rw [← Option.not_isSome, Bool.not_eq_false']

theorem equal_iff {a b : KeyEntry κ} {k : κ} (ha : (ops f).Full a) (hb : b.key = some k) :
    (ops f).equal a (some b) = true ↔ a.key = some k := by
  obtain ⟨k', hk'⟩ := full_iff.mp ha
  show f.equal a.key b.key = true ↔ _
  rw [hk', hb, f.equal_some, decide_eq_true_iff, Option.some.injEq]

theorem lawful_ops (f : KeyFunctions κ) : (ops f).Lawful where
  refl a ha := by
    obtain ⟨k, hk⟩ := full_iff.mp ha
    exact (equal_iff ha hk).mpr hk
  symm a b ha hb h := by
    obtain ⟨k, hk⟩ := full_iff.mp hb
    exact (equal_iff hb ((equal_iff ha hk).mp h)).mpr hk
  trans a b c ha hb hc h h' := by
    obtain ⟨k, hk⟩ := full_iff.mp hc
    exact (equal_iff ha hk).mpr ((equal_iff ha ((equal_iff hb hk).mp h')).mp h)
  hash a b ha hb h := by
    obtain ⟨k, hk⟩ := full_iff.mp hb
    show f.hash a.key = f.hash b.key
    rw [(equal_iff ha hk).mp h, hk]
  set_some _ := rfl
  set_none := rfl

theorem full_entry (k : κ) (value : UInt64) : (ops f).Full ⟨some k, value⟩ := full_iff.mpr ⟨k, rfl⟩

theorem nodup_keys (h : Represents (ops f) m l) : (l.map KeyEntry.key).Nodup := by
  have hstored : ((stored (ops f) m.elements).map KeyEntry.key).Nodup := by
    rw [List.Nodup, List.pairwise_map]
    refine (h.pairwise.filter _).imp_of_mem fun {a b} ha hb hab => ?_
    have hfull : ∀ x ∈ stored (ops f) m.elements, (ops f).Full x := fun x hx => by
      simpa [MapOps.Full] using (List.mem_filter.mp hx).2
    obtain ⟨k, hk⟩ := full_iff.mp (hfull b hb)
    intro hkey
    have hne := hab (hfull a ha) (hfull b hb)
    rw [(equal_iff (hfull a ha) hk).mpr (hkey.trans hk)] at hne
    cases hne
  exact (h.perm.map _).nodup_iff.mp hstored

/-- The map holds an entry for each key that is present, with the value first inserted for it,
and nothing in its other slots. -/
structure Holds (f : KeyFunctions κ) (m : Map (KeyEntry κ)) (l : List (KeyEntry κ))
    (v : κ → Option UInt64) (keys : Finset κ) : Prop where
  represents : Represents (ops f) m l
  clean : Clean (ops f) m
  value : ∀ k, (l.find? (fun e => (ops f).equal e (some ⟨some k, 0⟩))).map KeyEntry.value = v k
  keys : (l.map KeyEntry.key).toFinset = keys.image some

variable {v : κ → Option UInt64} {keys : Finset κ} (h : Holds f m l v keys)
include h

theorem Holds.size : size m = keys.card := by
  rw [KeyMap.size, mapSize, h.represents.count, ← List.length_map (f := KeyEntry.key),
    ← List.toFinset_card_of_nodup (nodup_keys h.represents), h.keys,
    Finset.card_image_of_injective _ (Option.some_injective κ)]

theorem Holds.lookup (k : κ) : lookup f m (some k) = .ok ((v k).getD 0) := by
  obtain ⟨i, x, hat, helement, hslot⟩ :=
    h.represents.mapAt_find? (lawful_ops f) (full_entry k 0)
  rw [KeyMap.lookup, hat, ok_bind, helement, ok_bind, ← h.value k, pure_eq_ok]
  cases hfind : l.find? (fun e => (ops f).equal e (some ⟨some k, 0⟩)) with
  | some y =>
    rw [hfind] at hslot
    obtain rfl : x = y := hslot
    rfl
  | none =>
    rw [hfind] at hslot
    have hmem : x ∈ m.elements := by
      unfold Map.element at helement
      cases hget : m.elements[i]? with
      | none =>
        rw [hget] at helement
        cases helement
      | some y =>
        rw [hget] at helement
        exact Except.ok.inj helement ▸ List.mem_of_getElem? hget
    rw [h.clean x hmem hslot]
    rfl

theorem Holds.allowed {c : KeyCall κ} (hc : Fits keys c) :
    Allowed (ops f) l (onMap (c.map some)) := by
  cases c with
  | insert key value =>
    have hsize : m.elementsCount = keys.card := h.size
    refine ⟨full_entry key value, ?_⟩
    rw [← h.represents.count, hsize]
    exact hc
  | erase key => exact full_entry key 0
  | reserve size => exact hc
  | clear => trivial

theorem Holds.value_callEntries {c : KeyCall κ} (hc : Fits keys c) (k : κ) :
    ((callEntries (ops f) l (onMap (c.map some))).find?
      (fun e => (ops f).equal e (some ⟨some k, 0⟩))).map KeyEntry.value =
        valueStep k (v k) c := by
  rw [find?_callEntries (lawful_ops f) (fun x hx => h.represents.full_of_mem hx)
    (full_entry k 0) (h.allowed hc), ← h.value k]
  generalize l.find? (fun e => (ops f).equal e (some ⟨some k, 0⟩)) = s
  have hequal : ∀ key value, (ops f).equal ⟨some key, value⟩ (some ⟨some k, 0⟩) =
      decide (key = k) := fun key value => f.equal_some key k
  cases c with
  | insert key value =>
    simp only [KeyCall.map, onMap, firstInsertedStep, valueStep, hequal, Option.isNone_map]
    split_ifs <;> rfl
  | erase key =>
    simp only [KeyCall.map, onMap, firstInsertedStep, valueStep, hequal, decide_eq_true_iff]
    split_ifs <;> rfl
  | reserve size => rfl
  | clear => rfl

theorem Holds.keys_callEntries (c : KeyCall κ) :
    ((callEntries (ops f) l (onMap (c.map some))).map KeyEntry.key).toFinset =
      (keysStep keys c).image some := by
  have hmem : ∀ k, some k ∈ l.map KeyEntry.key ↔ k ∈ keys := by
    intro k
    rw [← List.mem_toFinset, h.keys, Finset.mem_image]
    constructor
    · rintro ⟨k', hk', heq⟩
      exact Option.some.inj heq ▸ hk'
    · intro hk
      exact ⟨k, hk, rfl⟩
  cases c with
  | insert key value =>
    simp only [KeyCall.map, onMap, callEntries, insertEntry, keysStep]
    split_ifs with hany
    · obtain ⟨e, he, heq⟩ := List.any_eq_true.mp hany
      have hkey : e.key = some key := (equal_iff (h.represents.full_of_mem he) rfl).mp heq
      have hpresent : key ∈ keys := (hmem key).mp (List.mem_map.mpr ⟨e, he, hkey⟩)
      rw [Finset.insert_eq_self.mpr hpresent, h.keys]
    · rw [List.map_append, List.toFinset_append, h.keys, Finset.image_insert, Finset.insert_eq,
        Finset.union_comm]
      rfl
  | erase key =>
    apply Finset.ext
    intro o
    simp only [KeyCall.map, onMap, callEntries, eraseEntry, keysStep, List.mem_toFinset,
      List.mem_map, List.mem_filter, Finset.mem_image, Finset.mem_erase, Bool.not_eq_true']
    constructor
    · rintro ⟨e, ⟨he, hne⟩, rfl⟩
      have hfull := h.represents.full_of_mem he
      obtain ⟨k, hk⟩ := full_iff.mp hfull
      refine ⟨k, ⟨?_, (hmem k).mp (List.mem_map.mpr ⟨e, he, hk⟩)⟩, hk.symm⟩
      rintro rfl
      rw [(equal_iff hfull rfl).mpr hk] at hne
      cases hne
    · rintro ⟨k, ⟨hne, hk⟩, rfl⟩
      obtain ⟨e, he, hkey⟩ := List.mem_map.mp ((hmem k).mpr hk)
      refine ⟨e, ⟨he, ?_⟩, hkey⟩
      rw [Bool.eq_false_iff]
      intro heq
      exact hne (Option.some.inj (hkey.symm.trans
        ((equal_iff (h.represents.full_of_mem he) rfl).mp heq)))
  | reserve size => exact h.keys
  | clear => rfl

omit h in
theorem clean_call (hm : Clean (ops f) m) {c : KeyCall κ}
    {r : Map (KeyEntry κ) × List (KeyEntry κ)}
    (hcall : m.call (ops f) (onMap (c.map some)) = .ok r) :
    Clean (ops f) r.1 := by
  cases c with
  | insert key value =>
    exact keepsClean_mapInsertNested (lawful_ops f) 2 m _ r hm (full_entry key value) hcall
  | erase key => exact hm.mapErase (lawful_ops f) hcall
  | reserve size =>
    simp only [KeyCall.map, onMap, Map.call, bind_eq_ok] at hcall
    obtain ⟨m', hreserve, hr⟩ := hcall
    exact Except.ok.inj hr ▸
      hm.mapReserveWith (keepsClean_mapInsertNested (lawful_ops f) 1) hreserve
  | clear => exact Clean.mapClear hcall

omit h in
theorem call_eq (c : KeyCall (Option κ)) :
    call f m c = Prod.fst <$> m.call (ops f) (onMap c) := by
  cases c with
  | reserve size =>
    rw [KeyMap.call, reserve, onMap, Map.call]
    cases Map.mapReserve (ops f) m size <;> rfl
  | insert key value => rfl
  | erase key => rfl
  | clear => rfl

/-- The step lemma. -/
theorem Holds.call {c : KeyCall κ} (hc : Fits keys c) : ∃ m' l',
    call f m (c.map some) = .ok m' ∧
      Holds f m' l' (fun k => valueStep k (v k) c) (keysStep keys c) := by
  obtain ⟨m', released, hcall, hm'⟩ := h.represents.call (lawful_ops f) (h.allowed hc)
  refine ⟨m', _, ?_, hm', clean_call h.clean hcall, h.value_callEntries hc, h.keys_callEntries c⟩
  rw [call_eq, hcall]
  rfl

/-- The run lemma. -/
theorem Holds.foldlM {cs : List (KeyCall κ)} (hcs : AllFit keys cs) :
    ∃ m' l', (cs.map (KeyCall.map some)).foldlM (KeyMap.call f) m = .ok m' ∧
      Holds f m' l' (fun k => cs.foldl (valueStep k) (v k)) (cs.foldl keysStep keys) := by
  induction cs generalizing m l v keys with
  | nil => exact ⟨m, l, rfl, h⟩
  | cons c cs ih =>
    obtain ⟨m₁, l₁, hcall, h₁⟩ := h.call hcs.1
    obtain ⟨m', l', hfold, h'⟩ := ih h₁ hcs.2
    refine ⟨m', l', ?_, h'⟩
    rw [List.map_cons, List.foldlM_cons, hcall]
    exact hfold

omit h in
theorem holds_nil (f : KeyFunctions κ) :
    ∃ m, construct f = .ok m ∧ Holds f m [] (fun _ => none) ∅ := by
  obtain ⟨m, hconstruct, hm⟩ := represents_mapConstruct (lawful_ops f)
  refine ⟨m, hconstruct, hm, ?_, fun _ => rfl, rfl⟩
  obtain rfl : ⟨List.replicate 8 ⟨none, 0⟩, 0⟩ = m := Except.ok.inj hconstruct
  exact clean_replicate _ _

end Runs

end KeyMap

/-! ## Strings -/

/-- The bytes of a string up to the one that ends it -/
def CString : Type := { s : Bytes // nul ∉ s }

instance : DecidableEq CString := inferInstanceAs (DecidableEq { s : Bytes // nul ∉ s })

def keyA : CString := ⟨[97], fun h => by cases List.mem_singleton.mp h⟩

def keyEmpty : CString := ⟨[], List.not_mem_nil⟩

def hashOf (data : Bytes) : UInt64 :=
  match hashData data with
  | .ok h => h
  | .error _ => 0

/-- The functions of `maps.c`. The comparison with `strcmp` and the hash are not defined for NULL:
what they return there is a parameter. -/
def mapsFunctions (hashNull : UInt64) (equalNull : Option CString → Option CString → Bool) :
    KeyFunctions CString where
  hash
    | some s => hashOf s.1
    | none => hashNull
  equal
    | some a, some b => decide (a = b)
    | a, b => equalNull a b
  equal_some _ _ := rfl

section Maps

variable (hashNull : UInt64) (equalNull : Option CString → Option CString → Bool)
  (m : Map (KeyEntry CString))

def mapsConstruct : Except Fault (Map (KeyEntry CString)) :=
  KeyMap.construct (mapsFunctions hashNull equalNull)

def mapsSize : ℕ := KeyMap.size m

def mapsReserve (size : ℕ) : Except Fault (Map (KeyEntry CString)) :=
  KeyMap.reserve (mapsFunctions hashNull equalNull) m size

def mapsAt (key : CString) : Except Fault UInt64 :=
  KeyMap.lookup (mapsFunctions hashNull equalNull) m (some key)

def mapsInsert (key : CString) (value : UInt64) :
    Except Fault (Map (KeyEntry CString) × List (KeyEntry CString)) :=
  KeyMap.insert (mapsFunctions hashNull equalNull) m (some key) value

def mapsErase (key : CString) : Except Fault (Map (KeyEntry CString) × List (KeyEntry CString)) :=
  KeyMap.erase (mapsFunctions hashNull equalNull) m (some key)

def mapsClear : Except Fault (Map (KeyEntry CString) × List (KeyEntry CString)) :=
  KeyMap.clear (mapsFunctions hashNull equalNull) m

def mapsCalls (cs : List (KeyCall CString)) : Except Fault (Map (KeyEntry CString)) :=
  KeyMap.calls (mapsFunctions hashNull equalNull) (cs.map (KeyCall.map some))

end Maps

/-! ## Data -/

/-- The data of a key, none for `data_null()` -/
def dataContents (key : Option Bytes) : Bytes := key.getD []

def dataEqual (a b : Option Bytes) : Bool :=
  (dataContents a).length == (dataContents b).length && dataContents a == dataContents b

def mapdFunctions : KeyFunctions Bytes where
  hash k := hashOf (dataContents k)
  equal := dataEqual
  equal_some a b := by
    by_cases h : a = b
    · simp [dataEqual, dataContents, h]
    · simp [dataEqual, dataContents, h]

section Mapd

variable (m : Map (KeyEntry Bytes))

def mapdConstruct : Except Fault (Map (KeyEntry Bytes)) := KeyMap.construct mapdFunctions

def mapdSize : ℕ := KeyMap.size m

def mapdReserve (size : ℕ) : Except Fault (Map (KeyEntry Bytes)) :=
  KeyMap.reserve mapdFunctions m size

def mapdAt (key : Option Bytes) : Except Fault UInt64 := KeyMap.lookup mapdFunctions m key

def mapdInsert (key : Option Bytes) (value : UInt64) :
    Except Fault (Map (KeyEntry Bytes) × List (KeyEntry Bytes)) :=
  KeyMap.insert mapdFunctions m key value

def mapdErase (key : Option Bytes) :
    Except Fault (Map (KeyEntry Bytes) × List (KeyEntry Bytes)) :=
  KeyMap.erase mapdFunctions m key

def mapdClear : Except Fault (Map (KeyEntry Bytes) × List (KeyEntry Bytes)) :=
  KeyMap.clear mapdFunctions m

def mapdCalls (cs : List (KeyCall (Option Bytes))) : Except Fault (Map (KeyEntry Bytes)) :=
  KeyMap.calls mapdFunctions cs

end Mapd

namespace KeyMap

open Map

/-- A slot whose key has no base is empty, so `data_null()` may only be inserted where the empty
data are present. -/
def DataFits (keys : Finset Bytes) (c : KeyCall (Option Bytes)) : Prop :=
  Fits keys (c.map dataContents) ∧ ∀ value, c = .insert none value → [] ∈ keys

def AllDataFit : Finset Bytes → List (KeyCall (Option Bytes)) → Prop
  | _, [] => True
  | keys, c :: cs => DataFits keys c ∧ AllDataFit (keysStep keys (c.map dataContents)) cs

section Like

variable {ε : Type} {ops : MapOps ε} {m m' : Map ε} {a b : ε}

theorem mapAt_like (hhash : ops.hash a = ops.hash b)
    (hequal : ∀ x, ops.equal x (some a) = ops.equal x (some b)) :
    Map.mapAt ops m a = Map.mapAt ops m b := by
  have hturn : atTurn ops m a = atTurn ops m b := by
    funext i
    simp only [atTurn, hequal]
  rw [Map.mapAt, Map.mapAt, hturn, hhash]

theorem mapErase_like (hhash : ops.hash a = ops.hash b)
    (hequal : ∀ x, ops.equal x (some a) = ops.equal x (some b)) :
    Map.mapErase ops m a = Map.mapErase ops m b := by
  have hturn : findTurn ops m a = findTurn ops m b := by
    funext i
    simp only [findTurn, hequal]
  rw [Map.mapErase, Map.mapErase, hturn, hhash]

/-- An element that is released was not put into the map. -/
theorem mapInsert_like (hhash : ops.hash a = ops.hash b)
    (hequal : ∀ x, ops.equal x (some a) = ops.equal x (some b))
    (ha : Map.mapInsert ops m a = .ok (m', [a])) : Map.mapInsert ops m b = .ok (m', [b]) := by
  rw [Map.mapInsert, mapInsertNested, bind_eq_ok] at ha ⊢
  obtain ⟨m₁, hreserve, ha⟩ := ha
  refine ⟨m₁, hreserve, ?_⟩
  rw [bind_eq_ok] at ha ⊢
  obtain ⟨i, hat, ha⟩ := ha
  refine ⟨i, mapAt_like hhash hequal ▸ hat, ?_⟩
  rw [bind_eq_ok] at ha ⊢
  obtain ⟨x, helement, ha⟩ := ha
  refine ⟨x, helement, ?_⟩
  split_ifs at ha ⊢ with hempty
  · cases ha
  · obtain ⟨rfl, -⟩ := Prod.mk.inj (Except.ok.inj ha)
    rfl

end Like

section Runs

variable {m : Map (KeyEntry Bytes)} {l : List (KeyEntry Bytes)} {v : Bytes → Option UInt64}
  {keys : Finset Bytes}

theorem equal_contents (key : Option Bytes) (value : UInt64) (x : KeyEntry Bytes) :
    (ops mapdFunctions).equal x (some ⟨some (dataContents key), value⟩) =
      (ops mapdFunctions).equal x (some ⟨key, value⟩) := rfl

theorem hash_contents (key : Option Bytes) (value : UInt64) :
    (ops mapdFunctions).hash ⟨some (dataContents key), value⟩ =
      (ops mapdFunctions).hash ⟨key, value⟩ := rfl

theorem lookup_contents (key : Option Bytes) :
    KeyMap.lookup mapdFunctions m (some (dataContents key)) = mapdAt m key := by
  rw [mapdAt, KeyMap.lookup, KeyMap.lookup, mapAt_like (hash_contents key 0) (equal_contents key 0)]

theorem Holds.call_contents (h : Holds mapdFunctions m l v keys) {c : KeyCall (Option Bytes)}
    (hc : DataFits keys c) :
    KeyMap.call mapdFunctions m ((c.map dataContents).map some) =
      KeyMap.call mapdFunctions m c := by
  cases c with
  | insert key value =>
    cases key with
    | some key => rfl
    | none =>
      have hempty : some [] ∈ l.map KeyEntry.key := by
        rw [← List.mem_toFinset, h.keys]
        exact Finset.mem_image_of_mem some (hc.2 value rfl)
      obtain ⟨e, he, hkey⟩ := List.mem_map.mp hempty
      have hany : l.any (fun x => (ops mapdFunctions).equal x (some ⟨some [], value⟩)) = true :=
        List.any_eq_true.mpr ⟨e, he, (equal_iff (h.represents.full_of_mem he) rfl).mpr hkey⟩
      have hcount : l.length < 2 ^ 62 := by
        have hsize : m.elementsCount = keys.card := h.size
        rw [← h.represents.count, hsize]
        exact hc.1
      obtain ⟨m', hinsert, -⟩ := h.represents.mapInsert (lawful_ops mapdFunctions)
        (full_entry [] value) hcount
      rw [hany, if_pos rfl] at hinsert
      have hnull := mapInsert_like (hash_contents none value) (equal_contents none value) hinsert
      show Prod.fst <$> Map.mapInsert _ m ⟨some [], value⟩ =
        Prod.fst <$> Map.mapInsert _ m ⟨none, value⟩
      rw [hinsert, hnull]
      rfl
  | erase key =>
    show Prod.fst <$> Map.mapErase _ m _ = Prod.fst <$> Map.mapErase _ m _
    rw [mapErase_like (hash_contents key 0) (equal_contents key 0)]
  | reserve size => rfl
  | clear => rfl

theorem Holds.foldlM_contents (h : Holds mapdFunctions m l v keys)
    {cs : List (KeyCall (Option Bytes))} (hcs : AllDataFit keys cs) :
    ∃ m' l', cs.foldlM (KeyMap.call mapdFunctions) m = .ok m' ∧
      Holds mapdFunctions m' l'
        (fun k => (cs.map (KeyCall.map dataContents)).foldl (valueStep k) (v k))
        ((cs.map (KeyCall.map dataContents)).foldl keysStep keys) := by
  induction cs generalizing m l v keys with
  | nil => exact ⟨m, l, rfl, h⟩
  | cons c cs ih =>
    obtain ⟨m₁, l₁, hcall, h₁⟩ := h.call hcs.1.1
    rw [h.call_contents hcs.1] at hcall
    obtain ⟨m', l', hfold, h'⟩ := ih h₁ hcs.2
    refine ⟨m', l', ?_, h'⟩
    rw [List.foldlM_cons, hcall]
    exact hfold

end Runs

end KeyMap

/-- Where the empty data are absent, `data_null()` is inserted each time, replaces the value there
and cannot be erased. -/
example : ∃ m, mapdCalls [.insert none 5, .insert none 6, .erase none] = .ok m ∧
    mapdAt m none = .ok 6 ∧ mapdSize m = 2 :=
  ⟨_, rfl, rfl, rfl⟩

end LibReactor
