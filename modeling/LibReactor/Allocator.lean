import Mathlib.Data.List.Range
import Mathlib.Data.List.Perm.Basic
import Mathlib.Data.List.Nodup

/-!
# Blocks of memory

An allocator that hands out numbered blocks and keeps the list of those that were given back. It
accounts for the blocks of its users when every block that it handed out is given back, once, or
is one of theirs, and not both.
-/

namespace LibReactor

structure Allocator where
  /-- how many blocks were handed out -/
  next : ℕ
  /-- the blocks that were given back, the last one first -/
  freed : List ℕ

namespace Allocator

def empty : Allocator := ⟨0, []⟩

def malloc (h : Allocator) : ℕ × Allocator := (h.next, { h with next := h.next + 1 })

def free (h : Allocator) : Option ℕ → Allocator
  | some b => { h with freed := b :: h.freed }
  | none => h

/-- `realloc`: a block may grow where it is or move. -/
def realloc (moves : Bool) (h : Allocator) : Option ℕ → ℕ × Allocator
  | some b => if moves then (h.next, ⟨h.next + 1, b :: h.freed⟩) else (b, h)
  | none => h.malloc

/-- What was given back and what the users own are the blocks that were handed out. -/
def Accounts (h : Allocator) (owned : List ℕ) : Prop := (h.freed ++ owned).Perm (List.range h.next)

variable {h : Allocator} {owned owned' : List ℕ}

theorem accounts_empty : empty.Accounts [] := .refl _

theorem Accounts.of_perm (ha : h.Accounts owned) (hperm : owned.Perm owned') :
    h.Accounts owned' :=
  (hperm.append_left h.freed).symm.trans ha

theorem Accounts.nodup (ha : h.Accounts owned) : (h.freed ++ owned).Nodup :=
  ha.nodup_iff.mpr List.nodup_range

theorem Accounts.not_freed (ha : h.Accounts owned) {b : ℕ} (hb : b ∈ owned) : b ∉ h.freed :=
  fun hfreed => (List.disjoint_of_nodup_append ha.nodup) hfreed hb

theorem Accounts.malloc (ha : h.Accounts owned) : h.malloc.2.Accounts (h.malloc.1 :: owned) := by
  have hrange : (List.range (h.next + 1)).Perm (h.next :: List.range h.next) := by
    rw [List.range_succ]
    exact List.perm_append_singleton _ _
  exact List.perm_middle.trans ((ha.cons h.next).trans hrange.symm)

theorem Accounts.free {b : Option ℕ} (ha : h.Accounts (b.toList ++ owned)) :
    (h.free b).Accounts owned := by
  cases b with
  | none => exact ha
  | some b => exact List.perm_middle.symm.trans ha

theorem Accounts.realloc {base : Option ℕ} (ha : h.Accounts (base.toList ++ owned))
    (moves : Bool) : (h.realloc moves base).2.Accounts ((h.realloc moves base).1 :: owned) := by
  cases base with
  | none => exact ha.malloc
  | some b =>
    cases moves with
    | false => exact ha
    | true => exact (Accounts.free (b := some b) ha).malloc

end Allocator

end LibReactor
