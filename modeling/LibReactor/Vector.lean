import LibReactor.BufferMemory

/-!
# Vectors

`vector_t` is a buffer of objects of one size. Its positions count objects, those
of the buffer count bytes. A release function gets the address of an object that
is about to leave the vector; what it finds there is kept with the address.
-/

namespace LibReactor

/-! ## Objects of one size -/

section Blocks

variable {α : Type*} {k : ℕ} {xs : List (List α)}

theorem length_flatten_eq (h : ∀ x ∈ xs, x.length = k) : xs.flatten.length = xs.length * k := by
  induction xs with
  | nil => rw [List.flatten_nil, List.length_nil, List.length_nil, Nat.zero_mul]
  | cons x xs ih =>
    rw [List.flatten_cons, List.length_append, h x List.mem_cons_self,
      ih fun y hy => h y (List.mem_cons_of_mem _ hy), List.length_cons, Nat.succ_mul,
      Nat.add_comm]

theorem take_flatten_eq (h : ∀ x ∈ xs, x.length = k) (i : ℕ) :
    xs.flatten.take (i * k) = (xs.take i).flatten := by
  induction xs generalizing i with
  | nil => rw [List.take_nil, List.flatten_nil, List.take_nil]
  | cons x xs ih =>
    cases i with
    | zero => rw [Nat.zero_mul, List.take_zero, List.take_zero, List.flatten_nil]
    | succ i =>
      have hx := h x List.mem_cons_self
      rw [List.flatten_cons, List.take_succ_cons, List.flatten_cons, Nat.succ_mul, Nat.add_comm,
        ← hx, List.take_length_add_append, hx, ih fun y hy => h y (List.mem_cons_of_mem _ hy)]

theorem drop_flatten_eq (h : ∀ x ∈ xs, x.length = k) (i : ℕ) :
    xs.flatten.drop (i * k) = (xs.drop i).flatten := by
  induction xs generalizing i with
  | nil => rw [List.drop_nil, List.flatten_nil, List.drop_nil]
  | cons x xs ih =>
    cases i with
    | zero => rw [Nat.zero_mul, List.drop_zero, List.drop_zero]
    | succ i =>
      have hx := h x List.mem_cons_self
      rw [List.flatten_cons, List.drop_succ_cons, Nat.succ_mul, Nat.add_comm, ← hx,
        List.drop_length_add_append, hx, ih fun y hy => h y (List.mem_cons_of_mem _ hy)]

/-- Blocks between two places of a sequence of blocks. -/
theorem replace_flatten (h : ∀ x ∈ xs, x.length = k) (i j : ℕ) (ys : List (List α)) :
    xs.flatten.take (i * k) ++ ys.flatten ++ xs.flatten.drop (j * k) =
      (xs.take i ++ ys ++ xs.drop j).flatten := by
  rw [take_flatten_eq h, drop_flatten_eq h, List.flatten_append, List.flatten_append]

end Blocks

/-! ## The functions of vector.c -/

structure RawVector where
  buffer : RawBuffer
  objectSize : ℕ
  objectSize_pos : 0 < objectSize

/-- The calls of a release function: where the object was and what it was. -/
abbrev Releases := List (ℕ × Bytes)

namespace RawVector

def construct (objectSize : ℕ) (hpos : 0 < objectSize) : RawVector := ⟨.construct, objectSize, hpos⟩

def vectorSize (v : RawVector) : ℕ := v.buffer.size / v.objectSize

/-- `vector_at`, from the base of the buffer -/
def vectorAt (v : RawVector) (position : ℕ) : ℕ := sizeMul position v.objectSize

def release (v : RawVector) (position : ℕ) : Except Fault (ℕ × Bytes) :=
  let p := v.vectorAt position
  if p + v.objectSize ≤ v.buffer.memory.length then
    .ok (p, (v.buffer.memory.drop p).take v.objectSize)
  else .error .outside

/-- The objects at the positions are released in turn, unless `release` is `NULL`. -/
def releaseEach (v : RawVector) (positions : List ℕ) (release : Bool) : Except Fault Releases :=
  if release then positions.mapM v.release else .ok []

def onBuffer (v : RawVector) (b : Except Fault RawBuffer) : Except Fault RawVector := do
  return { v with buffer := ← b }

def reserve (v : RawVector) (capacity : ℕ) (fresh : ℕ → UInt8) : RawVector :=
  { v with buffer := v.buffer.reserve (sizeMul capacity v.objectSize) fresh }

def shrinkToFit (v : RawVector) (fresh : ℕ → UInt8) : RawVector :=
  { v with buffer := v.buffer.compact fresh }

def insert (v : RawVector) (position : ℕ) (object : Bytes) (fresh : ℕ → UInt8) :
    Except Fault RawVector :=
  v.onBuffer (v.buffer.insert (sizeMul position v.objectSize) object fresh)

/-- `vector_insert_range`, of the bytes from `first` to `last` -/
def insertRange (v : RawVector) (position : ℕ) (bytes : Bytes) (fresh : ℕ → UInt8) :
    Except Fault RawVector :=
  v.onBuffer (v.buffer.insert (sizeMul position v.objectSize) bytes fresh)

def insertFill (v : RawVector) (position count : ℕ) (object : Bytes) (fresh : ℕ → UInt8) :
    Except Fault RawVector :=
  v.onBuffer (v.buffer.insertFill (sizeMul position v.objectSize) count object fresh)

def pushBack (v : RawVector) (object : Bytes) (fresh : ℕ → UInt8) : Except Fault RawVector :=
  v.onBuffer (v.buffer.insert v.buffer.size object fresh)

def erase (v : RawVector) (position : ℕ) (release : Bool) (fresh : ℕ → UInt8) :
    Except Fault (Releases × RawVector) := do
  let released ← v.releaseEach [position] release
  let v ← v.onBuffer (v.buffer.erase (sizeMul position v.objectSize) v.objectSize fresh)
  return (released, v)

def eraseRange (v : RawVector) (first last : ℕ) (release : Bool) (fresh : ℕ → UInt8) :
    Except Fault (Releases × RawVector) := do
  let released ← v.releaseEach (List.range' first (last - first)) release
  let v ← v.onBuffer (v.buffer.erase (sizeMul first v.objectSize)
    (sizeMul (sizeSub last first) v.objectSize) fresh)
  return (released, v)

def popBack (v : RawVector) (release : Bool) (fresh : ℕ → UInt8) :
    Except Fault (Releases × RawVector) :=
  v.erase (sizeSub v.vectorSize 1) release fresh

def clear (v : RawVector) (release : Bool) (fresh : ℕ → UInt8) :
    Except Fault (Releases × RawVector) := do
  let (released, v) ← v.eraseRange 0 v.vectorSize release fresh
  return (released, { v with buffer := v.buffer.clear fresh })

end RawVector

/-! ## Histories -/

/-- The calls of `vector.c` on one vector; `release` tells whether there is a release function. -/
inductive VectorCall
  | reserve (capacity : ℕ)
  | shrinkToFit
  | insert (position : ℕ) (object : Bytes)
  | insertRange (position : ℕ) (objects : List Bytes)
  | insertFill (position count : ℕ) (object : Bytes)
  | pushBack (object : Bytes)
  | erase (position : ℕ) (release : Bool)
  | eraseRange (first last : ℕ) (release : Bool)
  | popBack (release : Bool)
  | clear (release : Bool)

namespace VectorCall

def apply (xs : List Bytes) : VectorCall → List Bytes
  | .reserve _ => xs
  | .shrinkToFit => xs
  | .insert position object => xs.take position ++ [object] ++ xs.drop position
  | .insertRange position objects => xs.take position ++ objects ++ xs.drop position
  | .insertFill position count object =>
    xs.take position ++ List.replicate count object ++ xs.drop position
  | .pushBack object => xs ++ [object]
  | .erase position _ => xs.take position ++ xs.drop (position + 1)
  | .eraseRange first last _ => xs.take first ++ xs.drop last
  | .popBack _ => xs.dropLast
  | .clear _ => []

def objectsAt (k : ℕ) (xs : List Bytes) (first last : ℕ) (release : Bool) : Releases :=
  if release then
    (((xs.drop first).take (last - first)).zipIdx first).map fun (x, i) => (i * k, x)
  else []

def releases (k : ℕ) (xs : List Bytes) : VectorCall → Releases
  | .erase position release => objectsAt k xs position (position + 1) release
  | .eraseRange first last release => objectsAt k xs first last release
  | .popBack release => objectsAt k xs (xs.length - 1) xs.length release
  | .clear release => objectsAt k xs 0 xs.length release
  | _ => []

/-- Positions are in range, objects are of the size that the vector is for, and sizes stay below
`2 ^ 63`. -/
def Allowed (k : ℕ) (xs : List Bytes) : VectorCall → Prop
  | .reserve capacity => capacity * k < 2 ^ 63
  | .shrinkToFit => True
  | .insert position object =>
    position ≤ xs.length ∧ object.length = k ∧ (xs.length + 1) * k < 2 ^ 63
  | .insertRange position objects => position ≤ xs.length ∧ (∀ x ∈ objects, x.length = k) ∧
    (xs.length + objects.length) * k < 2 ^ 63
  | .insertFill position count object =>
    position ≤ xs.length ∧ object.length = k ∧ (xs.length + count) * k < 2 ^ 63
  | .pushBack object => object.length = k ∧ (xs.length + 1) * k < 2 ^ 63
  | .erase position _ => position < xs.length
  | .eraseRange first last _ => first ≤ last ∧ last ≤ xs.length
  | .popBack _ => xs ≠ []
  | .clear _ => True

instance (k : ℕ) (xs : List Bytes) : (call : VectorCall) → Decidable (Allowed k xs call)
  | .reserve _ => inferInstanceAs (Decidable (_ < _))
  | .shrinkToFit => inferInstanceAs (Decidable True)
  | .insert _ _ => inferInstanceAs (Decidable (_ ∧ _ ∧ _))
  | .insertRange _ _ => inferInstanceAs (Decidable (_ ∧ (∀ x ∈ _, _) ∧ _))
  | .insertFill _ _ _ => inferInstanceAs (Decidable (_ ∧ _ ∧ _))
  | .pushBack _ => inferInstanceAs (Decidable (_ ∧ _))
  | .erase _ _ => inferInstanceAs (Decidable (_ < _))
  | .eraseRange _ _ _ => inferInstanceAs (Decidable (_ ∧ _))
  | .popBack _ => inferInstanceAs (Decidable (¬_))
  | .clear _ => inferInstanceAs (Decidable True)

def AllowedAll (k : ℕ) (xs : List Bytes) : List VectorCall → Prop
  | [] => True
  | call :: calls => Allowed k xs call ∧ AllowedAll k (apply xs call) calls

def releasesAll (k : ℕ) (xs : List Bytes) : List VectorCall → Releases
  | [] => []
  | call :: calls => releases k xs call ++ releasesAll k (apply xs call) calls

end VectorCall

namespace RawVector

def perform (fresh : ℕ → UInt8) (v : RawVector) : VectorCall → Except Fault (Releases × RawVector)
  | .reserve capacity => .ok ([], v.reserve capacity fresh)
  | .shrinkToFit => .ok ([], v.shrinkToFit fresh)
  | .insert position object => return ([], ← v.insert position object fresh)
  | .insertRange position objects => return ([], ← v.insertRange position objects.flatten fresh)
  | .insertFill position count object => return ([], ← v.insertFill position count object fresh)
  | .pushBack object => return ([], ← v.pushBack object fresh)
  | .erase position release => v.erase position release fresh
  | .eraseRange first last release => v.eraseRange first last release fresh
  | .popBack release => v.popBack release fresh
  | .clear release => v.clear release fresh

/-- A history, where the `n`-th call finds the bytes `fresh n` in new memory. -/
def performAll (fresh : ℕ → ℕ → UInt8) :
    RawVector → List VectorCall → Except Fault (Releases × RawVector)
  | v, [] => .ok ([], v)
  | v, call :: calls => do
    let (released, v) ← v.perform (fresh 0) call
    let (released', v) ← performAll (fun n => fresh (n + 1)) v calls
    return (released ++ released', v)

end RawVector

/-! ## Vectors as sequences of objects -/

namespace RawVector

structure Holds (v : RawVector) (xs : List Bytes) : Prop where
  buffer : v.buffer.Valid
  contents : v.buffer.contents = xs.flatten
  objects : ∀ x ∈ xs, x.length = v.objectSize

variable {v : RawVector} {xs ys : List Bytes} {i j : ℕ}

theorem holds_construct (k : ℕ) (hpos : 0 < k) : (construct k hpos).Holds [] :=
  ⟨RawBuffer.valid_construct, rfl, nofun⟩

namespace Holds

theorem size (h : v.Holds xs) : v.buffer.size = xs.length * v.objectSize := by
  rw [← h.buffer.length_contents, h.contents, length_flatten_eq h.objects]

theorem bound (h : v.Holds xs) : xs.length * v.objectSize ≤ 2 ^ 63 := by
  rw [← h.size]
  exact Nat.le_trans h.buffer.size h.buffer.bound

theorem length_le (h : v.Holds xs) : xs.length ≤ 2 ^ 63 :=
  Nat.le_trans (Nat.le_mul_of_pos_right _ v.objectSize_pos) h.bound

theorem vectorSize (h : v.Holds xs) : v.vectorSize = xs.length := by
  rw [RawVector.vectorSize, h.size, Nat.mul_div_cancel _ v.objectSize_pos]

theorem mul_le (h : v.Holds xs) (hi : i ≤ xs.length) : i * v.objectSize ≤ v.buffer.size := by
  rw [h.size]
  exact Nat.mul_le_mul_right _ hi

/-- The product of a position and the object size does not wrap round. -/
theorem sizeMul_eq (h : v.Holds xs) (hi : i ≤ xs.length) :
    sizeMul i v.objectSize = i * v.objectSize := by
  have hle := h.mul_le hi
  have hsize := h.size
  have hbound := h.bound
  exact LibReactor.sizeMul_eq (by omega)

/-- The release function finds the object that is at the position. -/
theorem release (h : v.Holds xs) (hi : i < xs.length) :
    v.release i = .ok (i * v.objectSize, xs.getD i []) := by
  have hle := h.mul_le (Nat.succ_le_of_lt hi)
  rw [Nat.succ_mul] at hle
  have hmemory := h.buffer.memory
  have hsize := h.buffer.size
  have hobject : (v.buffer.memory.drop (i * v.objectSize)).take v.objectSize = xs.getD i [] := by
    have hcontents : (v.buffer.contents.drop (i * v.objectSize)).take (1 * v.objectSize) =
        ((xs.drop i).take 1).flatten := by
      rw [h.contents, drop_flatten_eq h.objects, take_flatten_eq]
      exact fun x hx => h.objects x (List.mem_of_mem_drop hx)
    have hroom : v.objectSize ≤ v.buffer.size - i * v.objectSize := by omega
    rw [RawBuffer.contents, List.drop_take, Nat.one_mul, List.take_take,
      Nat.min_eq_left hroom, List.drop_eq_getElem_cons hi] at hcontents
    rw [hcontents, List.getD_eq_getElem _ _ hi]
    exact List.append_nil _
  rw [RawVector.release, vectorAt, h.sizeMul_eq (Nat.le_of_lt hi), if_pos (by omega), hobject]

theorem releaseEach (h : v.Holds xs) {positions : List ℕ} (hlt : ∀ i ∈ positions, i < xs.length) :
    positions.mapM v.release =
      .ok (positions.map fun i => (i * v.objectSize, xs.getD i [])) := by
  induction positions with
  | nil => rfl
  | cons i positions ih =>
    rw [List.mapM_cons, h.release (hlt i List.mem_cons_self), ok_bind,
      ih fun j hj => hlt j (List.mem_cons_of_mem _ hj)]
    rfl

theorem releaseRange (h : v.Holds xs) (hle : j ≤ xs.length) (release : Bool) :
    v.releaseEach (List.range' i (j - i)) release =
      .ok (VectorCall.objectsAt v.objectSize xs i j release) := by
  cases release with
  | false => rfl
  | true =>
    have hlt : ∀ n ∈ List.range' i (j - i), n < xs.length := by
      intro n hn
      have hrange := List.mem_range'_1.mp hn
      omega
    have hobjects : (List.range' i (j - i)).map (fun n => (n * v.objectSize, xs.getD n [])) =
        (((xs.drop i).take (j - i)).zipIdx i).map fun (x, n) => (n * v.objectSize, x) := by
      refine List.ext_getElem ?_ fun n hn hn' => ?_
      · rw [List.length_map, List.length_range', List.length_map, List.length_zipIdx,
          List.length_take, List.length_drop]
        omega
      · rw [List.length_map, List.length_range'] at hn
        have hn'' : i + n < xs.length := by omega
        simp only [List.getElem_map, List.getElem_range', List.getElem_zipIdx, List.getElem_take,
          List.getElem_drop, Nat.one_mul, List.getD_eq_getElem _ _ hn'']
    rw [RawVector.releaseEach, if_pos rfl, h.releaseEach hlt, hobjects]
    rfl

theorem replace (h : v.Holds xs) (hys : ∀ y ∈ ys, y.length = v.objectSize) {b : RawBuffer}
    (hb : b.Valid) (hcontents : b.contents = v.buffer.contents.take (i * v.objectSize) ++
      ys.flatten ++ v.buffer.contents.drop (j * v.objectSize)) :
    RawVector.Holds { v with buffer := b } (xs.take i ++ ys ++ xs.drop j) := by
  refine ⟨hb, ?_, fun x hx => ?_⟩
  · rw [hcontents, h.contents, replace_flatten h.objects]
  · rcases List.mem_append.mp hx with hx | hx
    · rcases List.mem_append.mp hx with hx | hx
      · exact h.objects x (List.mem_of_mem_take hx)
      · exact hys x hx
    · exact h.objects x (List.mem_of_mem_drop hx)

theorem onBuffer {b : Except Fault RawBuffer} {b' : RawBuffer} (hb : b = .ok b') :
    v.onBuffer b = .ok { v with buffer := b' } := by
  rw [hb]
  rfl

theorem insert (h : v.Holds xs) (hys : ∀ y ∈ ys, y.length = v.objectSize)
    {b : RawBuffer} (hb : b.Valid) {d : Bytes} (hd : d = ys.flatten)
    (hbuffer : b.toBuffer = v.buffer.toBuffer.insert (i * v.objectSize) d) :
    RawVector.Holds { v with buffer := b } (xs.take i ++ ys ++ xs.drop i) := by
  refine h.replace hys hb ((congrArg Buffer.data hbuffer).trans ?_)
  rw [Buffer.data_insert, hd]
  rfl

theorem size_flatten (h : v.Holds xs) (hys : ∀ y ∈ ys, y.length = v.objectSize)
    (hsize : (xs.length + ys.length) * v.objectSize < 2 ^ 63) :
    v.buffer.size + ys.flatten.length < 2 ^ 63 := by
  rw [h.size, length_flatten_eq hys, ← Nat.add_mul]
  exact hsize

/-- The objects between two positions are released and taken out. -/
theorem eraseRange (h : v.Holds xs) (hij : i ≤ j) (hj : j ≤ xs.length) (release : Bool)
    (fresh : ℕ → UInt8) : ∃ v', v.eraseRange i j release fresh =
      .ok (VectorCall.objectsAt v.objectSize xs i j release, v') ∧
        v'.objectSize = v.objectSize ∧ v'.Holds (xs.take i ++ xs.drop j) := by
  have hle := h.mul_le hj
  have hsum : i * v.objectSize + (j - i) * v.objectSize = j * v.objectSize := by
    rw [← Nat.add_mul, Nat.add_sub_cancel' hij]
  have hlength := h.length_le
  have hsub : sizeSub j i = j - i := sizeSub_eq (by omega) hij
  have hfits : i * v.objectSize + (j - i) * v.objectSize ≤ v.buffer.size := by omega
  obtain ⟨b, herase, hb, hbuffer⟩ := h.buffer.erase hfits fresh
  refine ⟨{ v with buffer := b }, ?_, rfl, ?_⟩
  · rw [RawVector.eraseRange, h.releaseRange hj, ok_bind, h.sizeMul_eq (by omega), hsub,
      h.sizeMul_eq (by omega), onBuffer herase]
    rfl
  · have hcontents : b.contents = v.buffer.contents.take (i * v.objectSize) ++ [].flatten ++
        v.buffer.contents.drop (j * v.objectSize) := by
      rw [List.flatten_nil, List.append_nil, ← hsum]
      exact congrArg Buffer.data hbuffer
    have hnone : ∀ y ∈ ([] : List Bytes), y.length = v.objectSize := nofun
    have hholds := h.replace hnone hb hcontents
    rwa [List.append_nil] at hholds

/-- `vector_erase` is `vector_erase_range` of one object. -/
theorem erase_eq (h : v.Holds xs) (hi : i < xs.length) (release : Bool) (fresh : ℕ → UInt8) :
    v.erase i release fresh = v.eraseRange i (i + 1) release fresh := by
  have hlength := h.length_le
  have hone : sizeSub (i + 1) i = 1 := by
    rw [sizeSub_eq (by omega) (Nat.le_add_right i 1), Nat.add_sub_cancel_left]
  have hsize : sizeMul 1 v.objectSize = v.objectSize := by
    rw [h.sizeMul_eq (by omega), Nat.one_mul]
  rw [RawVector.erase, RawVector.eraseRange, hone, hsize, Nat.add_sub_cancel_left]
  rfl

theorem erase (h : v.Holds xs) (hi : i < xs.length) (release : Bool) (fresh : ℕ → UInt8) :
    ∃ v', v.erase i release fresh =
      .ok (VectorCall.objectsAt v.objectSize xs i (i + 1) release, v') ∧
        v'.objectSize = v.objectSize ∧ v'.Holds (xs.take i ++ xs.drop (i + 1)) := by
  rw [h.erase_eq hi]
  exact h.eraseRange (Nat.le_succ i) (Nat.succ_le_of_lt hi) release fresh

theorem popBack (h : v.Holds xs) (hne : xs ≠ []) (release : Bool) (fresh : ℕ → UInt8) :
    ∃ v', v.popBack release fresh =
      .ok (VectorCall.objectsAt v.objectSize xs (xs.length - 1) xs.length release, v') ∧
        v'.objectSize = v.objectSize ∧ v'.Holds xs.dropLast := by
  have hpos : 0 < xs.length := List.length_pos_of_ne_nil hne
  have hlength := h.length_le
  have hlast : sizeSub v.vectorSize 1 = xs.length - 1 := by
    rw [h.vectorSize, sizeSub_eq (by omega) hpos]
  have herase := h.erase (i := xs.length - 1) (by omega) release fresh
  rw [Nat.sub_add_cancel hpos, List.drop_length, List.append_nil, ← List.dropLast_eq_take]
    at herase
  rw [RawVector.popBack, hlast]
  exact herase

theorem clear (h : v.Holds xs) (release : Bool) (fresh : ℕ → UInt8) :
    ∃ v', v.clear release fresh =
      .ok (VectorCall.objectsAt v.objectSize xs 0 xs.length release, v') ∧
        v'.objectSize = v.objectSize ∧ v'.Holds [] := by
  obtain ⟨v₁, herase, hsize, hv₁⟩ :=
    h.eraseRange (Nat.zero_le xs.length) (Nat.le_refl _) release fresh
  obtain ⟨hvalid, hbuffer⟩ := hv₁.buffer.resize (Nat.zero_le _) fresh
  refine ⟨{ v₁ with buffer := v₁.buffer.clear fresh }, ?_, hsize, hvalid, ?_, nofun⟩
  · rw [RawVector.clear, h.vectorSize, herase]
    rfl
  · refine (congrArg Buffer.data hbuffer).trans ?_
    rw [Buffer.data_resize]
    rfl

/-- The step lemma. -/
theorem perform (h : v.Holds xs) {call : VectorCall} (hallowed : call.Allowed v.objectSize xs)
    (fresh : ℕ → UInt8) : ∃ v', v.perform fresh call =
      .ok (call.releases v.objectSize xs, v') ∧ v'.objectSize = v.objectSize ∧
        v'.Holds (call.apply xs) := by
  have hpos : ∀ {i}, i ≤ xs.length → i * v.objectSize ≤ v.buffer.size := h.mul_le
  cases call with
  | reserve capacity =>
    have hcapacity : capacity * v.objectSize < 2 ^ 63 := hallowed
    obtain ⟨hvalid, hbuffer, -⟩ := h.buffer.reserve (Nat.le_of_lt hcapacity) fresh
    refine ⟨{ v with buffer := v.buffer.reserve (capacity * v.objectSize) fresh }, ?_, rfl,
      hvalid, ?_, h.objects⟩
    · rw [RawVector.perform, RawVector.reserve, LibReactor.sizeMul_eq (by omega)]
      rfl
    · exact ((congrArg Buffer.data hbuffer).trans (Buffer.data_reserve _ _)).trans h.contents
  | shrinkToFit =>
    obtain ⟨hvalid, hbuffer⟩ := h.buffer.compact fresh
    refine ⟨_, rfl, rfl, hvalid, ?_, h.objects⟩
    exact ((congrArg Buffer.data hbuffer).trans (Buffer.data_compact _)).trans h.contents
  | insert position object =>
    obtain ⟨hposition, hobject, hsize⟩ := hallowed
    have hys : ∀ y ∈ [object], y.length = v.objectSize := fun y hy =>
      List.mem_singleton.mp hy ▸ hobject
    have htotal := h.size_flatten hys hsize
    rw [List.flatten_singleton] at htotal
    obtain ⟨b, hinsert, hb, hbuffer⟩ := h.buffer.insert (hpos hposition) htotal fresh
    refine ⟨{ v with buffer := b }, ?_, rfl, h.insert hys hb (List.flatten_singleton).symm hbuffer⟩
    rw [RawVector.perform, RawVector.insert, h.sizeMul_eq hposition, onBuffer hinsert]
    rfl
  | insertRange position objects =>
    obtain ⟨hposition, hys, hsize⟩ := hallowed
    obtain ⟨b, hinsert, hb, hbuffer⟩ :=
      h.buffer.insert (hpos hposition) (h.size_flatten hys hsize) fresh
    refine ⟨{ v with buffer := b }, ?_, rfl, h.insert hys hb rfl hbuffer⟩
    rw [RawVector.perform, RawVector.insertRange, h.sizeMul_eq hposition, onBuffer hinsert]
    rfl
  | insertFill position count object =>
    obtain ⟨hposition, hobject, hsize⟩ := hallowed
    have hys : ∀ y ∈ List.replicate count object, y.length = v.objectSize := fun y hy =>
      (List.eq_of_mem_replicate hy) ▸ hobject
    have htotal := h.size_flatten hys (by rwa [List.length_replicate])
    rw [RawBuffer.length_replicate_flatten] at htotal
    obtain ⟨b, hinsert, hb, hbuffer⟩ := h.buffer.insertFill (hpos hposition) htotal fresh
    refine ⟨{ v with buffer := b }, ?_, rfl, h.insert hys hb rfl hbuffer⟩
    rw [RawVector.perform, RawVector.insertFill, h.sizeMul_eq hposition, onBuffer hinsert]
    rfl
  | pushBack object =>
    obtain ⟨hobject, hsize⟩ := hallowed
    have hys : ∀ y ∈ [object], y.length = v.objectSize := fun y hy =>
      List.mem_singleton.mp hy ▸ hobject
    have htotal := h.size_flatten hys hsize
    rw [List.flatten_singleton] at htotal
    obtain ⟨b, hinsert, hb, hbuffer⟩ := h.buffer.insert (Nat.le_refl _) htotal fresh
    have hholds := h.insert (i := xs.length) hys hb (List.flatten_singleton).symm
      (by rw [← h.size]; exact hbuffer)
    rw [List.take_length, List.drop_length, List.append_nil] at hholds
    refine ⟨{ v with buffer := b }, ?_, rfl, hholds⟩
    rw [RawVector.perform, RawVector.pushBack, onBuffer hinsert]
    rfl
  | erase position release => exact h.erase hallowed release fresh
  | eraseRange first last release => exact h.eraseRange hallowed.1 hallowed.2 release fresh
  | popBack release => exact h.popBack hallowed release fresh
  | clear release => exact h.clear release fresh

/-- The run lemma. -/
theorem performAll {calls : List VectorCall} (h : v.Holds xs)
    (hallowed : VectorCall.AllowedAll v.objectSize xs calls) (fresh : ℕ → ℕ → UInt8) :
    ∃ v', v.performAll fresh calls =
      .ok (VectorCall.releasesAll v.objectSize xs calls, v') ∧
        v'.Holds (calls.foldl VectorCall.apply xs) := by
  induction calls generalizing v xs fresh with
  | nil => exact ⟨v, rfl, h⟩
  | cons call calls ih =>
    obtain ⟨v₁, hcall, hsize, hv₁⟩ := h.perform hallowed.1 (fresh 0)
    have hrest := hallowed.2
    rw [← hsize] at hrest
    obtain ⟨v', hcalls, hv'⟩ := ih hv₁ hrest fun n => fresh (n + 1)
    refine ⟨v', ?_, hv'⟩
    rw [RawVector.performAll, hcall, ok_bind]
    dsimp only
    rw [hcalls, hsize]
    rfl

end Holds

end RawVector

/-- Every history of calls with positions in range and sizes below `2 ^ 63` does to the contents of
a buffer what the operations on lists do, and its size never exceeds its capacity, which is that of
its block. Every such history of a vector leaves the objects that the operations on lists leave, and
passes to the release function, as they are, exactly the objects that it takes out. -/
theorem buffers_and_vectors :
    (∀ (calls : List BufferCall) (fresh : ℕ → ℕ → UInt8), BufferCall.AllowedAll [] calls →
      ∃ b, RawBuffer.construct.performAll fresh calls = .ok b ∧
        b.contents = calls.foldl BufferCall.apply [] ∧ b.size = b.contents.length ∧
        b.size ≤ b.capacity ∧ b.memory.length = b.capacity) ∧
    ∀ (k : ℕ) (hk : 0 < k) (calls : List VectorCall) (fresh : ℕ → ℕ → UInt8),
      VectorCall.AllowedAll k [] calls →
      ∃ v, (RawVector.construct k hk).performAll fresh calls =
          .ok (VectorCall.releasesAll k [] calls, v) ∧
        v.buffer.contents = (calls.foldl VectorCall.apply []).flatten ∧
        v.vectorSize = (calls.foldl VectorCall.apply []).length ∧
        v.buffer.size ≤ v.buffer.capacity := by
  constructor
  · intro calls fresh hallowed
    obtain ⟨b, hrun, hvalid, hcontents⟩ :=
      RawBuffer.valid_construct.performAll hallowed fresh
    exact ⟨b, hrun, hcontents, hvalid.length_contents.symm, hvalid.size, hvalid.memory⟩
  · intro k hk calls fresh hallowed
    obtain ⟨v, hrun, hv⟩ := (RawVector.holds_construct k hk).performAll hallowed fresh
    exact ⟨v, hrun, hv.contents, hv.vectorSize, hv.buffer.size⟩

/-- A buffer of bytes, and a vector of pairs of bytes that are released. -/
theorem buffers_and_vectors_pairs :
    (∃ b, RawBuffer.construct.performAll (fun _ _ => 7)
        [.insert 0 [1, 2, 3], .insertFill 1 2 [9], .erase 0 1, .reserve 100, .compact,
          .resize 3] = .ok b ∧ b.contents = [9, 9, 2]) ∧
    ∃ v, (RawVector.construct 2 (by decide)).performAll (fun _ _ => 7)
        [.pushBack [1, 2], .insertFill 0 2 [3, 4], .erase 1 true, .popBack true, .clear true] =
      .ok ([(2, [3, 4]), (2, [1, 2]), (0, [3, 4])], v) := by
  obtain ⟨b, hrun, hcontents, -⟩ := buffers_and_vectors.1
    [.insert 0 [1, 2, 3], .insertFill 1 2 [9], .erase 0 1, .reserve 100, .compact, .resize 3]
    (fun _ _ => 7)
    ⟨by decide, by decide, by decide, by decide, by decide, by decide, trivial⟩
  obtain ⟨v, hrun', -⟩ := buffers_and_vectors.2 2 (by decide)
    [.pushBack [1, 2], .insertFill 0 2 [3, 4], .erase 1 true, .popBack true, .clear true]
    (fun _ _ => 7) ⟨by decide, by decide, by decide, by decide, by decide, trivial⟩
  exact ⟨⟨b, hrun, hcontents⟩, v, hrun'⟩

end LibReactor
