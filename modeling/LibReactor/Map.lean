import LibReactor.Loop
import LibReactor.Memory
import LibReactor.Roundup

/-!
# The hash map

`map_t` with open addressing. Its users supply a hash, a comparison that also
recognises an empty element, and a copy that also empties one. The elements that
a function hands to `release` are part of its result.
-/

namespace LibReactor

/-- `map_hash_t`, `map_equal_t` and `map_set_t`, with `none` for NULL -/
structure MapOps (ε : Type) where
  hash : ε → UInt64
  equal : ε → Option ε → Bool
  set : Option ε → ε

structure Map (ε : Type) where
  elements : List ε
  elementsCount : ℕ
  deriving DecidableEq, Repr

namespace Map

variable {ε : Type} (ops : MapOps ε)

def elementsCapacityMin : ℕ := 8

def null : Map ε := ⟨[], 0⟩

def elementsCapacity (m : Map ε) : ℕ := m.elements.length

def element (m : Map ε) (position : ℕ) : Except Fault ε :=
  match m.elements[position]? with
  | some e => .ok e
  | none => .error .outside

def releaseAll (m : Map ε) : List ε := m.elements.filter (fun e => !ops.equal e none)

def mapSize (m : Map ε) : ℕ := m.elementsCount

def atTurn (m : Map ε) (e : ε) (i : ℕ) : Except Fault (ℕ ⊕ ℕ) := do
  let i := i &&& (m.elementsCapacity - 1)
  let test ← m.element i
  return if ops.equal test none || ops.equal test (some e) then .inl i else .inr (i + 1)

/-- `map_at`: the position of the element it returns -/
def mapAt (m : Map ε) (e : ε) : Except Fault ℕ :=
  Loop.within .hang (atTurn ops m e) (m.elementsCapacity + 1) (ops.hash e).toNat

def mapRehash (insert : Map ε → ε → Except Fault (Map ε × List ε)) (m : Map ε) (size : ℕ) :
    Except Fault (Map ε) :=
  m.elements.foldlM
    (fun new e => if ops.equal e none then .ok new else Prod.fst <$> insert new e)
    ⟨List.replicate (roundup size) (ops.set none), 0⟩

/-- `map_reserve` with a `map_insert` for its rehash -/
def mapReserveWith (insert : Map ε → ε → Except Fault (Map ε × List ε)) (m : Map ε) (size : ℕ) :
    Except Fault (Map ε) :=
  let size := size * 2 % 2 ^ 64
  if m.elementsCapacity < size then mapRehash ops insert m size else .ok m

/-- `map_insert` calls itself through `map_rehash`; the calls may nest up to a depth. -/
def mapInsertNested : ℕ → Map ε → ε → Except Fault (Map ε × List ε)
  | 0, _, _ => .error .hang
  | depth + 1, m, e => do
    let m ← mapReserveWith ops (mapInsertNested depth) m (m.elementsCount + 1)
    let i ← mapAt ops m e
    let test ← m.element i
    if ops.equal test none then
      return (⟨m.elements.set i (ops.set (some e)), m.elementsCount + 1⟩, [])
    return (m, [e])

/-- `map_insert`. The insertions of a rehash find room, so two calls nest at most. -/
def mapInsert (m : Map ε) (e : ε) : Except Fault (Map ε × List ε) := mapInsertNested ops 2 m e

def mapReserve (m : Map ε) (size : ℕ) : Except Fault (Map ε) :=
  mapReserveWith ops (mapInsertNested ops 1) m size

def mapConstruct : Except Fault (Map ε) :=
  mapRehash ops (mapInsertNested ops 1) null elementsCapacityMin

/-- One turn of the first loop in `map_erase`: nothing to erase, or the position to erase. -/
def findTurn (m : Map ε) (e : ε) (i : ℕ) : Except Fault (Option ℕ ⊕ ℕ) := do
  let i := i &&& (m.elementsCapacity - 1)
  let test ← m.element i
  if ops.equal test none then
    return .inl none
  return if ops.equal test (some e) then .inl (some i) else .inr (i + 1)

/-- The hole `i` and the position `j` of the second loop in `map_erase`. -/
structure Shift (ε : Type) where
  i : ℕ
  j : ℕ
  map : Map ε

def shiftTurn (s : Shift ε) : Except Fault ((ℕ × Map ε) ⊕ Shift ε) := do
  let i := s.i
  let j := (s.j + 1) &&& (s.map.elementsCapacity - 1)
  let x ← s.map.element j
  if ops.equal x none then
    return .inl (i, s.map)
  let k := (ops.hash x).toNat &&& (s.map.elementsCapacity - 1)
  if (i < j ∧ (k ≤ i ∨ k > j)) ∨ (i > j ∧ (k ≤ i ∧ k > j)) then
    return .inr ⟨j, j, { s.map with elements := s.map.elements.set i (ops.set (some x)) }⟩
  return .inr ⟨i, j, s.map⟩

def mapErase (m : Map ε) (e : ε) : Except Fault (Map ε × List ε) := do
  let found ← Loop.within .hang (findTurn ops m e) (m.elementsCapacity + 1) (ops.hash e).toNat
  match found with
  | none => return (m, [])
  | some i =>
    let test ← m.element i
    let m := { m with elementsCount := m.elementsCount - 1 }
    let (i, m) ← Loop.within .hang (shiftTurn ops) (m.elementsCapacity + 1) ⟨i, i, m⟩
    return ({ m with elements := m.elements.set i (ops.set none) }, [test])

def mapDestruct (m : Map ε) : List ε := releaseAll ops m

def mapClear (m : Map ε) : Except Fault (Map ε × List ε) := do
  let new ← mapConstruct ops
  return (new, releaseAll ops m)

end Map

inductive MapCall (ε : Type)
  | reserve (size : ℕ)
  | insert (e : ε)
  | erase (e : ε)
  | clear
  deriving DecidableEq, Repr

namespace Map

variable {ε : Type} (ops : MapOps ε)

def call (m : Map ε) : MapCall ε → Except Fault (Map ε × List ε)
  | .reserve size => do return (← mapReserve ops m size, [])
  | .insert e => mapInsert ops m e
  | .erase e => mapErase ops m e
  | .clear => mapClear ops m

def calls (m : Map ε) : List (MapCall ε) → Except Fault (Map ε)
  | [] => .ok m
  | c :: cs => do
    let (m, _) ← m.call ops c
    calls m cs

end Map

end LibReactor
