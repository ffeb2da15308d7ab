import LibReactor.Buffer

/-!
# Buffers as bytes in memory

`buffer_t` with the bytes of its block, as long as its capacity, of which the
first ones are its contents. Functions of `buffer.c` move bytes inside the block
and reallocate it; on the contents they are the operations on lists that
`Buffer` describes.
-/

namespace LibReactor

/-! ## size_t -/

def sizeAdd (a b : ℕ) : ℕ := (a + b) % 2 ^ 64

def sizeSub (a b : ℕ) : ℕ := (a + 2 ^ 64 - b) % 2 ^ 64

def sizeMul (a b : ℕ) : ℕ := a * b % 2 ^ 64

theorem sizeAdd_eq {a b : ℕ} (h : a + b < 2 ^ 64) : sizeAdd a b = a + b := Nat.mod_eq_of_lt h

theorem sizeMul_eq {a b : ℕ} (h : a * b < 2 ^ 64) : sizeMul a b = a * b := Nat.mod_eq_of_lt h

theorem sizeSub_eq {a b : ℕ} (ha : a < 2 ^ 64) (hle : b ≤ a) : sizeSub a b = a - b := by
  unfold sizeSub
  omega

/-! ## The functions of buffer.c -/

/-- What `realloc` leaves of a block: behind the bytes that it keeps come those of `fresh`. -/
def realloc (m : Bytes) (n : ℕ) (fresh : ℕ → UInt8) : Bytes :=
  m.take n ++ (List.range (n - m.length)).map fresh

/-- `buffer_t`, with the block at the base of its data -/
structure RawBuffer where
  memory : Bytes
  size : ℕ
  capacity : ℕ

namespace RawBuffer

def construct : RawBuffer := ⟨[], 0, 0⟩

def move (b : RawBuffer) (dst src n : ℕ) : Except Fault RawBuffer :=
  if dst + n ≤ b.memory.length ∧ src + n ≤ b.memory.length then
    .ok { b with memory := memmove b.memory dst src n }
  else .error .outside

def copy (b : RawBuffer) (pos : ℕ) (d : Bytes) : Except Fault RawBuffer :=
  if pos + d.length ≤ b.memory.length then .ok { b with memory := write b.memory pos d }
  else .error .outside

def reserve (b : RawBuffer) (capacity : ℕ) (fresh : ℕ → UInt8) : RawBuffer :=
  if b.capacity < capacity then
    let capacity := Buffer.bufferRoundup capacity
    ⟨realloc b.memory capacity fresh, b.size, capacity⟩
  else b

def resize (b : RawBuffer) (size : ℕ) (fresh : ℕ → UInt8) : RawBuffer :=
  let b := if b.capacity < size then b.reserve size fresh else b
  { b with size := size }

def compact (b : RawBuffer) (fresh : ℕ → UInt8) : RawBuffer :=
  let size := b.size
  if size < b.capacity then
    let b := if size ≠ 0 then { b with memory := realloc b.memory size fresh, size := size }
      else { b with memory := [], size := 0 }
    { b with capacity := size }
  else b

/-- `if (pos < buffer_size(buffer)) memmove(...)`: the bytes behind `pos` move up by `size`. -/
def moveUp (b : RawBuffer) (pos size : ℕ) : Except Fault RawBuffer :=
  if pos < b.size then b.move (sizeAdd pos size) pos (sizeSub b.size pos) else .ok b

/-- `buffer_insert` and `buffer_insert_fill`: the bytes behind `pos` move up by `size`, `store`
fills the place, and the buffer grows. -/
def insertWith (b : RawBuffer) (pos size : ℕ) (store : RawBuffer → Except Fault RawBuffer)
    (fresh : ℕ → UInt8) : Except Fault RawBuffer := do
  let b := b.reserve (sizeAdd b.size size) fresh
  let b ← b.moveUp pos size
  let b ← store b
  return b.resize (sizeAdd b.size size) fresh

def insert (b : RawBuffer) (pos : ℕ) (d : Bytes) (fresh : ℕ → UInt8) : Except Fault RawBuffer :=
  b.insertWith pos d.length (fun b => b.copy pos d) fresh

def fill (b : RawBuffer) (pos count : ℕ) (d : Bytes) : Except Fault RawBuffer :=
  (List.range count).foldlM (fun b i => b.copy (sizeAdd pos (sizeMul i d.length)) d) b

def insertFill (b : RawBuffer) (pos count : ℕ) (d : Bytes) (fresh : ℕ → UInt8) :
    Except Fault RawBuffer :=
  b.insertWith pos (sizeMul count d.length) (fun b => b.fill pos count d) fresh

def append (b : RawBuffer) (d : Bytes) (fresh : ℕ → UInt8) : Except Fault RawBuffer :=
  b.insert b.size d fresh

def erase (b : RawBuffer) (position size : ℕ) (fresh : ℕ → UInt8) : Except Fault RawBuffer := do
  let b ← b.move position (sizeAdd position size) (sizeSub (sizeSub b.size position) size)
  return b.resize (sizeSub b.size size) fresh

def clear (b : RawBuffer) (fresh : ℕ → UInt8) : RawBuffer := b.resize 0 fresh

def contents (b : RawBuffer) : Bytes := b.memory.take b.size

end RawBuffer

attribute [ext] Buffer

namespace Buffer

def compact (b : Buffer) : Buffer :=
  if b.size < b.capacity then { b with capacity := b.size } else b

def insertFill (b : Buffer) (pos count : ℕ) (d : Bytes) : Buffer :=
  b.insert pos (List.replicate count d).flatten

theorem data_insert (b : Buffer) (pos : ℕ) (d : Bytes) :
    (b.insert pos d).data = b.data.take pos ++ d ++ b.data.drop pos := by
  rw [insert]
  dsimp only
  rw [data_reserve]

@[simp] theorem data_compact (b : Buffer) : b.compact.data = b.data := by
  unfold compact
  split_ifs <;> rfl

end Buffer

/-! ## Bytes in a block -/

section Block

variable {m d : Bytes} {n pos size : ℕ}

theorem length_realloc (m : Bytes) (n : ℕ) (fresh : ℕ → UInt8) :
    (realloc m n fresh).length = n := by
  rw [realloc, List.length_append, List.length_take, List.length_map, List.length_range]
  omega

theorem take_realloc (hle : size ≤ m.length) (hle' : size ≤ n) (fresh : ℕ → UInt8) :
    (realloc m n fresh).take size = m.take size := by
  have hlength : size ≤ (m.take n).length := by
    rw [List.length_take]
    omega
  rw [realloc, List.take_append_of_le_length hlength, List.take_take, Nat.min_eq_left hle']

theorem take_insert (hpos : pos ≤ size) (hle : size + d.length ≤ m.length) :
    (write (memmove m (pos + d.length) pos (size - pos)) pos d).take (size + d.length) =
      (m.take size).take pos ++ d ++ (m.take size).drop pos := by
  have hmoved : ((m.drop pos).take (size - pos)).length = size - pos := by
    rw [List.length_take, List.length_drop]
    omega
  have htake : (memmove m (pos + d.length) pos (size - pos)).take pos = m.take pos := by
    rw [memmove, write, List.take_append_of_le_length (by rw [List.length_take]; omega),
      List.take_take, Nat.min_eq_left (Nat.le_add_right _ _)]
  have hdrop : (memmove m (pos + d.length) pos (size - pos)).drop (pos + d.length) =
      (m.drop pos).take (size - pos) ++ m.drop (pos + d.length + (size - pos)) := by
    have hlength : (m.take (pos + d.length)).length = pos + d.length := by
      rw [List.length_take]
      omega
    rw [memmove, write, List.drop_left' hlength, hmoved]
  rw [write, htake, hdrop, List.take_take, Nat.min_eq_left hpos, List.drop_take]
  rw [← List.append_assoc, ← List.append_assoc]
  refine List.take_left' ?_
  rw [List.length_append, List.length_append, hmoved, List.length_take]
  omega

theorem take_erase (hle : pos + n ≤ size) (hsize : size ≤ m.length) :
    (memmove m pos (pos + n) (size - pos - n)).take (size - n) =
      (m.take size).take pos ++ (m.take size).drop (pos + n) := by
  have hmoved : ((m.drop (pos + n)).take (size - pos - n)).length = size - pos - n := by
    rw [List.length_take, List.length_drop]
    omega
  have hlength : size - n = pos + ((m.drop (pos + n)).take (size - pos - n)).length := by
    omega
  rw [memmove, hlength, take_write (by omega), List.take_take, Nat.min_eq_left (by omega),
    List.drop_take, Nat.sub_sub]

theorem length_memmove {dst src : ℕ} (hdst : dst + n ≤ m.length) :
    (memmove m dst src n).length = m.length := by
  refine length_write ?_
  rw [List.length_take]
  omega

end Block

/-! ## Refinement -/

namespace RawBuffer

def toBuffer (b : RawBuffer) : Buffer := ⟨b.contents, b.capacity⟩

structure Valid (b : RawBuffer) : Prop where
  memory : b.memory.length = b.capacity
  size : b.size ≤ b.capacity
  bound : b.capacity ≤ 2 ^ 63

variable {b : RawBuffer} {pos size count n : ℕ} {d : Bytes}

theorem valid_construct : construct.Valid := ⟨rfl, Nat.le_refl 0, Nat.zero_le _⟩

theorem resize_within (hn : n ≤ b.capacity) (fresh : ℕ → UInt8) :
    b.resize n fresh = { b with size := n } := by
  rw [RawBuffer.resize, if_neg (Nat.not_lt.mpr hn)]

theorem copy_eq (hroom : pos + d.length ≤ b.memory.length) :
    b.copy pos d = .ok { b with memory := write b.memory pos d } := if_pos hroom

theorem length_replicate_flatten (count : ℕ) (d : Bytes) :
    (List.replicate count d).flatten.length = count * d.length := by
  rw [List.length_flatten, List.map_replicate, List.sum_replicate_nat]

theorem fill_eq (hroom : pos + count * d.length ≤ b.memory.length)
    (hbound : b.memory.length ≤ 2 ^ 63) : b.fill pos count d =
      .ok { b with memory := write b.memory pos (List.replicate count d).flatten } := by
  induction count with
  | zero =>
    rw [List.replicate_zero, List.flatten_nil, write_nil]
    rfl
  | succ count ih =>
    have hmul : (count + 1) * d.length = count * d.length + d.length := Nat.succ_mul _ _
    have hlength := length_replicate_flatten count d
    have hwritten : (write b.memory pos (List.replicate count d).flatten).length =
        b.memory.length := length_write (by omega)
    rw [fill] at ih ⊢
    rw [List.range_succ, List.foldlM_append, ih (by omega), ok_bind, List.foldlM_cons,
      sizeMul_eq (by omega), sizeAdd_eq (by omega), copy_eq (by dsimp only; omega), ok_bind,
      List.foldlM_nil, List.replicate_succ', List.flatten_append, List.flatten_singleton]
    dsimp only
    rw [← hlength, write_write (by omega)]
    rfl

namespace Valid

theorem length_contents (h : b.Valid) : b.contents.length = b.size := by
  rw [contents, List.length_take, h.memory]
  exact Nat.min_eq_left h.size

theorem size_toBuffer (h : b.Valid) : b.toBuffer.size = b.size := h.length_contents

/-- `buffer_reserve` keeps the contents and makes room. -/
theorem reserve (h : b.Valid) (hn : n ≤ 2 ^ 63) (fresh : ℕ → UInt8) :
    (b.reserve n fresh).Valid ∧ (b.reserve n fresh).toBuffer = b.toBuffer.reserve n ∧
      (b.reserve n fresh).size = b.size ∧ n ≤ (b.reserve n fresh).capacity := by
  unfold RawBuffer.reserve
  split_ifs with hgrow
  · have hpos : 0 < n := Nat.lt_of_le_of_lt (Nat.zero_le _) hgrow
    have hle : n ≤ Buffer.bufferRoundup n := le_roundup hpos hn
    have hsize : b.size ≤ Buffer.bufferRoundup n :=
      Nat.le_trans h.size (Nat.le_trans (Nat.le_of_lt hgrow) hle)
    have hsize' : b.size ≤ b.memory.length := Nat.le_trans h.size (Nat.le_of_eq h.memory.symm)
    refine ⟨⟨length_realloc _ _ _, hsize, roundup_le hpos hn⟩, ?_, rfl, hle⟩
    rw [toBuffer, contents, take_realloc hsize' hsize]
    exact (if_pos hgrow).symm
  · exact ⟨h, (if_neg hgrow).symm, rfl, Nat.le_of_not_lt hgrow⟩

/-- `buffer_resize` takes the bytes behind the contents where it grows the buffer. -/
theorem resize (h : b.Valid) (hn : n ≤ 2 ^ 63) (fresh : ℕ → UInt8) :
    (b.resize n fresh).Valid ∧ (b.resize n fresh).toBuffer =
      b.toBuffer.resize n ((b.reserve n fresh).memory.drop b.size) := by
  obtain ⟨hvalid, hbuffer, hsize, hle⟩ := h.reserve hn fresh
  have hresize : b.resize n fresh = { b.reserve n fresh with size := n } := by
    unfold RawBuffer.resize
    dsimp only
    split_ifs with hgrow
    · rfl
    · rw [RawBuffer.reserve, if_neg hgrow]
  rw [hresize]
  refine ⟨⟨hvalid.memory, hle, hvalid.bound⟩, Buffer.ext ?_ ?_⟩
  · have hdata : b.toBuffer.data = (b.reserve n fresh).memory.take b.size := by
      rw [← hsize]
      exact (Buffer.data_reserve b.toBuffer n ▸ congrArg Buffer.data hbuffer).symm
    rw [Buffer.data_resize, hdata, List.take_append_drop]
    rfl
  · rw [Buffer.capacity_resize, ← hbuffer]
    rfl

/-- `buffer_compact` keeps the contents and frees the room behind them. -/
theorem compact (h : b.Valid) (fresh : ℕ → UInt8) :
    (b.compact fresh).Valid ∧ (b.compact fresh).toBuffer = b.toBuffer.compact := by
  have hsize : b.size ≤ b.memory.length := Nat.le_trans h.size (Nat.le_of_eq h.memory.symm)
  have hbuffer : b.toBuffer.compact =
      if b.size < b.capacity then ⟨b.contents, b.size⟩ else b.toBuffer := by
    rw [Buffer.compact, h.size_toBuffer]
    rfl
  rw [hbuffer]
  unfold RawBuffer.compact
  dsimp only
  split_ifs with hroom hzero
  · refine ⟨⟨length_realloc _ _ _, Nat.le_refl _, Nat.le_trans h.size h.bound⟩, ?_⟩
    rw [toBuffer, contents, take_realloc hsize (Nat.le_refl _)]
    rfl
  · have hzero : b.size = 0 := Classical.not_not.mp hzero
    rw [contents, hzero]
    exact ⟨⟨rfl, Nat.le_refl 0, Nat.zero_le _⟩, rfl⟩
  · exact ⟨h, rfl⟩

theorem moveUp (h : b.Valid) (hpos : pos ≤ b.size) (hroom : b.size + n ≤ b.capacity) :
    b.moveUp pos n =
      .ok { b with memory := memmove b.memory (pos + n) pos (b.size - pos) } := by
  have hbound := h.bound
  have hmemory := h.memory
  unfold RawBuffer.moveUp
  split_ifs with hlt
  · rw [sizeAdd_eq (by omega), sizeSub_eq (by omega) hpos, move, if_pos (by omega)]
  · have hzero : b.size - pos = 0 := by omega
    rw [hzero, memmove, List.take_zero, write_nil]

theorem stored (h : b.Valid) (hpos : pos ≤ b.size) (hroom : b.size + d.length ≤ b.capacity) :
    (RawBuffer.mk (write (memmove b.memory (pos + d.length) pos (b.size - pos)) pos d)
        (b.size + d.length) b.capacity).Valid ∧
      (RawBuffer.mk (write (memmove b.memory (pos + d.length) pos (b.size - pos)) pos d)
        (b.size + d.length) b.capacity).contents =
        b.contents.take pos ++ d ++ b.contents.drop pos := by
  have hmemory := h.memory
  have hmoved : (memmove b.memory (pos + d.length) pos (b.size - pos)).length =
      b.memory.length := length_memmove (by omega)
  refine ⟨⟨?_, hroom, h.bound⟩, take_insert hpos (by omega)⟩
  rw [length_write (by omega), hmoved, hmemory]

/-- What `buffer_insert` and `buffer_insert_fill` share: `store` leaves the bytes `d` at `pos`. -/
theorem insertWith (h : b.Valid) (hpos : pos ≤ b.size) (hsize : b.size + d.length < 2 ^ 63)
    (fresh : ℕ → UInt8) {store : RawBuffer → Except Fault RawBuffer}
    (hstore : ∀ b : RawBuffer, pos + d.length ≤ b.memory.length → b.memory.length ≤ 2 ^ 63 →
      store b = .ok { b with memory := write b.memory pos d }) :
    ∃ b', b.insertWith pos d.length store fresh = .ok b' ∧ b'.Valid ∧
      b'.toBuffer = b.toBuffer.insert pos d := by
  obtain ⟨hvalid, hbuffer, hkept, hroom⟩ := h.reserve (Nat.le_of_lt hsize) fresh
  rw [RawBuffer.insertWith, sizeAdd_eq (by omega)]
  have hcapacity := congrArg Buffer.capacity hbuffer
  have hdata := (congrArg Buffer.data hbuffer).trans (Buffer.data_reserve _ _)
  generalize b.reserve (b.size + d.length) fresh = reserved at *
  rw [← hkept] at hpos hroom hsize
  have hmemory := hvalid.memory
  have hbound := hvalid.bound
  obtain ⟨hstored, hcontents⟩ := hvalid.stored hpos hroom
  have hmoved : (memmove reserved.memory (pos + d.length) pos (reserved.size - pos)).length =
      reserved.memory.length := length_memmove (by omega)
  refine ⟨_, ?_, hstored, Buffer.ext ?_ ?_⟩
  · rw [hvalid.moveUp hpos hroom, ok_bind, hstore _ (by dsimp only; omega) (by dsimp only; omega),
      ok_bind]
    dsimp only
    rw [sizeAdd_eq (by omega), resize_within (by dsimp only; omega)]
    rfl
  · rw [Buffer.data_insert, ← hdata]
    exact hcontents
  · rw [← h.size_toBuffer] at hcapacity
    exact hcapacity

theorem insert (h : b.Valid) (hpos : pos ≤ b.size) (hsize : b.size + d.length < 2 ^ 63)
    (fresh : ℕ → UInt8) : ∃ b', b.insert pos d fresh = .ok b' ∧ b'.Valid ∧
      b'.toBuffer = b.toBuffer.insert pos d :=
  h.insertWith hpos hsize fresh fun _ hroom _ => copy_eq hroom

theorem append (h : b.Valid) (hsize : b.size + d.length < 2 ^ 63) (fresh : ℕ → UInt8) :
    ∃ b', b.append d fresh = .ok b' ∧ b'.Valid ∧ b'.toBuffer = b.toBuffer.append d := by
  obtain ⟨b', hinsert, hvalid, hbuffer⟩ := h.insert (Nat.le_refl _) hsize fresh
  refine ⟨b', hinsert, hvalid, hbuffer.trans ?_⟩
  rw [Buffer.append, h.size_toBuffer]

theorem insertFill (h : b.Valid) (hpos : pos ≤ b.size)
    (hsize : b.size + count * d.length < 2 ^ 63) (fresh : ℕ → UInt8) :
    ∃ b', b.insertFill pos count d fresh = .ok b' ∧ b'.Valid ∧
      b'.toBuffer = b.toBuffer.insertFill pos count d := by
  have hlength := length_replicate_flatten count d
  rw [RawBuffer.insertFill, sizeMul_eq (by omega), ← hlength]
  refine h.insertWith hpos (by omega) fresh fun b hroom hbound => fill_eq ?_ hbound
  rwa [← hlength]

theorem erase (h : b.Valid) (hle : pos + n ≤ b.size) (fresh : ℕ → UInt8) :
    ∃ b', b.erase pos n fresh = .ok b' ∧ b'.Valid ∧ b'.toBuffer = b.toBuffer.erase pos n := by
  have hmemory := h.memory
  have hbound := h.bound
  have hsize := h.size
  have hmove : b.move pos (pos + n) (b.size - pos - n) =
      .ok { b with memory := memmove b.memory pos (pos + n) (b.size - pos - n) } :=
    if_pos (by omega)
  have hmoved : (memmove b.memory pos (pos + n) (b.size - pos - n)).length = b.memory.length :=
    length_memmove (by omega)
  refine ⟨⟨memmove b.memory pos (pos + n) (b.size - pos - n), b.size - n, b.capacity⟩, ?_,
    ⟨hmoved.trans hmemory, by dsimp only; omega, hbound⟩, ?_⟩
  · rw [RawBuffer.erase, sizeAdd_eq (by omega), sizeSub_eq (by omega) (by omega : pos ≤ b.size),
      sizeSub_eq (by omega) (by omega), hmove, ok_bind]
    dsimp only
    rw [sizeSub_eq (by omega) (by omega), resize_within (by dsimp only; omega)]
    rfl
  · rw [toBuffer, contents, take_erase hle (by omega)]
    rfl

end Valid

end RawBuffer

/-! ## Histories -/

inductive BufferCall
  | reserve (capacity : ℕ)
  | resize (size : ℕ)
  | compact
  | insert (pos : ℕ) (d : Bytes)
  | insertFill (pos count : ℕ) (d : Bytes)
  | erase (position size : ℕ)

namespace BufferCall

def apply (xs : Bytes) : BufferCall → Bytes
  | .reserve _ => xs
  | .resize size => xs.take size
  | .compact => xs
  | .insert pos d => xs.take pos ++ d ++ xs.drop pos
  | .insertFill pos count d => xs.take pos ++ (List.replicate count d).flatten ++ xs.drop pos
  | .erase position size => xs.take position ++ xs.drop (position + size)

/-- Positions are in range, buffers are resized to shrink, and sizes stay below `2 ^ 63`. -/
def Allowed (xs : Bytes) : BufferCall → Prop
  | .reserve capacity => capacity < 2 ^ 63
  | .resize size => size ≤ xs.length
  | .compact => True
  | .insert pos d => pos ≤ xs.length ∧ xs.length + d.length < 2 ^ 63
  | .insertFill pos count d => pos ≤ xs.length ∧ xs.length + count * d.length < 2 ^ 63
  | .erase position size => position + size ≤ xs.length

instance (xs : Bytes) : (call : BufferCall) → Decidable (Allowed xs call)
  | .reserve _ => inferInstanceAs (Decidable (_ < _))
  | .resize _ => inferInstanceAs (Decidable (_ ≤ _))
  | .compact => inferInstanceAs (Decidable True)
  | .insert _ _ => inferInstanceAs (Decidable (_ ∧ _))
  | .insertFill _ _ _ => inferInstanceAs (Decidable (_ ∧ _))
  | .erase _ _ => inferInstanceAs (Decidable (_ ≤ _))

def AllowedAll (xs : Bytes) : List BufferCall → Prop
  | [] => True
  | call :: calls => Allowed xs call ∧ AllowedAll (apply xs call) calls

end BufferCall

namespace RawBuffer

/-- A call, with the bytes that a reallocated block holds behind those that it keeps. -/
def perform (fresh : ℕ → UInt8) (b : RawBuffer) : BufferCall → Except Fault RawBuffer
  | .reserve capacity => .ok (b.reserve capacity fresh)
  | .resize size => .ok (b.resize size fresh)
  | .compact => .ok (b.compact fresh)
  | .insert pos d => b.insert pos d fresh
  | .insertFill pos count d => b.insertFill pos count d fresh
  | .erase position size => b.erase position size fresh

/-- A history, where the `n`-th call finds the bytes `fresh n` in new memory. -/
def performAll (fresh : ℕ → ℕ → UInt8) : RawBuffer → List BufferCall → Except Fault RawBuffer
  | b, [] => .ok b
  | b, call :: calls => do
    let b ← b.perform (fresh 0) call
    performAll (fun n => fresh (n + 1)) b calls

variable {b : RawBuffer}

/-- The step lemma: a call accesses no byte outside of the block. -/
theorem Valid.perform (h : b.Valid) {call : BufferCall} (hallowed : call.Allowed b.contents)
    (fresh : ℕ → UInt8) : ∃ b', b.perform fresh call = .ok b' ∧ b'.Valid ∧
      b'.contents = call.apply b.contents := by
  have hbound := h.bound
  have hsize := h.size
  have hlength := h.length_contents
  cases call with
  | reserve capacity =>
    obtain ⟨hvalid, hbuffer, -⟩ := h.reserve (Nat.le_of_lt hallowed) fresh
    exact ⟨_, rfl, hvalid, (congrArg Buffer.data hbuffer).trans (Buffer.data_reserve _ _)⟩
  | resize size =>
    have hle : size ≤ b.contents.length := hallowed
    obtain ⟨hvalid, hbuffer⟩ := h.resize (n := size) (by omega) fresh
    refine ⟨_, rfl, hvalid, (congrArg Buffer.data hbuffer).trans ?_⟩
    rw [Buffer.data_resize]
    exact List.take_append_of_le_length hle
  | compact =>
    obtain ⟨hvalid, hbuffer⟩ := h.compact fresh
    exact ⟨_, rfl, hvalid, (congrArg Buffer.data hbuffer).trans (Buffer.data_compact _)⟩
  | insert pos d =>
    obtain ⟨hpos, htotal⟩ := hallowed
    rw [hlength] at hpos htotal
    obtain ⟨b', hinsert, hvalid, hbuffer⟩ := h.insert hpos htotal fresh
    exact ⟨b', hinsert, hvalid, (congrArg Buffer.data hbuffer).trans (Buffer.data_insert _ _ _)⟩
  | insertFill pos count d =>
    obtain ⟨hpos, htotal⟩ := hallowed
    rw [hlength] at hpos htotal
    obtain ⟨b', hinsert, hvalid, hbuffer⟩ := h.insertFill hpos htotal fresh
    exact ⟨b', hinsert, hvalid, (congrArg Buffer.data hbuffer).trans (Buffer.data_insert _ _ _)⟩
  | erase position size =>
    have hle : position + size ≤ b.contents.length := hallowed
    rw [hlength] at hle
    obtain ⟨b', herase, hvalid, hbuffer⟩ := h.erase hle fresh
    exact ⟨b', herase, hvalid, congrArg Buffer.data hbuffer⟩

theorem Valid.performAll {calls : List BufferCall} (h : b.Valid)
    (hallowed : BufferCall.AllowedAll b.contents calls) (fresh : ℕ → ℕ → UInt8) :
    ∃ b', b.performAll fresh calls = .ok b' ∧ b'.Valid ∧
      b'.contents = calls.foldl BufferCall.apply b.contents := by
  induction calls generalizing b fresh with
  | nil => exact ⟨b, rfl, h, rfl⟩
  | cons call calls ih =>
    obtain ⟨b₁, hcall, hvalid, hcontents⟩ := h.perform hallowed.1 (fresh 0)
    have hrest := hallowed.2
    rw [← hcontents] at hrest
    obtain ⟨b', hcalls, hvalid', hcontents'⟩ := ih hvalid hrest fun n => fresh (n + 1)
    refine ⟨b', ?_, hvalid', ?_⟩
    · rw [RawBuffer.performAll, hcall, ok_bind, hcalls]
    · rw [hcontents', hcontents]
      rfl

end RawBuffer

end LibReactor
