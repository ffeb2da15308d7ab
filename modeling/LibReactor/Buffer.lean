import LibReactor.Memory
import LibReactor.Roundup

/-!
# Growable buffers

`buffer_t` as its contents and its capacity. A resize that grows the buffer
takes the bytes that were stored behind its contents before the call.
-/

namespace LibReactor

structure Buffer where
  data : Bytes
  capacity : ℕ
  deriving DecidableEq, Repr

namespace Buffer

def construct : Buffer := ⟨[], 0⟩

def size (b : Buffer) : ℕ := b.data.length

def bufferRoundup (size : ℕ) : ℕ := roundup size

def reserve (b : Buffer) (capacity : ℕ) : Buffer :=
  if b.capacity < capacity then { b with capacity := bufferRoundup capacity } else b

/-- `buffer_resize`, where `tail` is what memory holds behind the contents -/
def resize (b : Buffer) (size : ℕ) (tail : Bytes) : Buffer :=
  let b := if b.capacity < size then b.reserve size else b
  { b with data := (b.data ++ tail).take size }

/-- `buffer_allocate`, where `memory` is what memory holds behind the contents: the place of the
new bytes, and the buffer -/
def allocate (b : Buffer) (dataSize : ℕ) (memory : ℕ → UInt8) : ℕ × Buffer :=
  (b.size, b.resize ((b.size + dataSize) % 2 ^ 64) ((List.range dataSize).map memory))

def insert (b : Buffer) (pos : ℕ) (d : Bytes) : Buffer :=
  let b := b.reserve (b.size + d.length)
  { b with data := b.data.take pos ++ d ++ b.data.drop pos }

def append (b : Buffer) (d : Bytes) : Buffer := b.insert b.size d

def erase (b : Buffer) (position size : ℕ) : Buffer :=
  { b with data := b.data.take position ++ b.data.drop (position + size) }

def clear (b : Buffer) : Buffer := b.resize 0 []

@[simp] theorem data_reserve (b : Buffer) (n : ℕ) : (b.reserve n).data = b.data := by
  unfold reserve
  split_ifs <;> rfl

@[simp] theorem size_reserve (b : Buffer) (n : ℕ) : (b.reserve n).size = b.size := by
  simp [size]

@[simp] theorem data_resize (b : Buffer) (n : ℕ) (tail : Bytes) :
    (b.resize n tail).data = (b.data ++ tail).take n := by
  unfold resize
  dsimp only
  split_ifs <;> simp

@[simp] theorem data_append (b : Buffer) (d : Bytes) : (b.append d).data = b.data ++ d := by
  simp [append, insert, size]

theorem capacity_resize (b : Buffer) (n : ℕ) (tail : Bytes) :
    (b.resize n tail).capacity = (b.reserve n).capacity := by
  unfold resize
  dsimp only
  split_ifs with h
  · rfl
  · rw [reserve, if_neg h]

theorem capacity_append (b : Buffer) (d : Bytes) :
    (b.append d).capacity = (b.reserve (b.size + d.length)).capacity := rfl

@[simp] theorem data_erase_zero (b : Buffer) (n : ℕ) : (b.erase 0 n).data = b.data.drop n := by
  simp [erase]

@[simp] theorem data_clear (b : Buffer) : b.clear.data = [] := by
  simp [clear]

end Buffer

end LibReactor
