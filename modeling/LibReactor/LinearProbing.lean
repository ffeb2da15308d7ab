import LibReactor.Loop
import Mathlib.Logic.Function.Basic

/-!
# Linear probing on a circle

A table of `c` slots keeps every element reachable from its home slot: no empty
slot lies on the way. A search from a home slot finds the first slot that stops it.
An element is put into the first empty slot from its home. When one is taken out,
a hole moves through the elements behind it until it can be closed.
-/

namespace LibReactor.LinearProbing

def dist (c a b : ℕ) : ℕ := if a ≤ b then b - a else b + c - a

def next (c i : ℕ) : ℕ := if i + 1 < c then i + 1 else 0

section Circle

variable {c a b i : ℕ}

theorem dist_lt (ha : a < c) (hb : b < c) : dist c a b < c := by
  unfold dist
  split_ifs <;> omega

@[simp] theorem dist_self (c a : ℕ) : dist c a a = 0 := by
  simp [dist]

theorem next_lt (h : i < c) : next c i < c := by
  unfold next
  split_ifs <;> omega

theorem add_one_mod (h : i < c) : (i + 1) % c = next c i := by
  unfold next
  split_ifs with hlt
  · exact Nat.mod_eq_of_lt hlt
  · have : i + 1 = c := by omega
    rw [this, Nat.mod_self]

theorem dist_inj (ha : a < c) (hb : b < c) (hi : i < c) (h : dist c i a = dist c i b) : a = b := by
  unfold dist at h
  split_ifs at h <;> omega

theorem dist_next (ha : a < c) (hi : i < c) (h : dist c a i + 1 < c) :
    dist c a (next c i) = dist c a i + 1 := by
  unfold dist next at *
  split_ifs at * <;> omega

theorem dist_next_left (hi : i < c) (hb : b < c) (h : i ≠ b) :
    dist c (next c i) b + 1 = dist c i b := by
  unfold dist next at *
  split_ifs at * <;> omega

/-- The interval test of a backward shift: slot `i` lies on the way from `a` to `b`. -/
theorem dist_lt_iff (ha : a < c) (hb : b < c) (hi : i < c) :
    dist c a i < dist c a b ↔ (i < b ∧ (a ≤ i ∨ a > b)) ∨ (i > b ∧ a ≤ i ∧ a > b) := by
  unfold dist
  split_ifs <;> omega

end Circle

/-- A search that passes the slots in order returns the first one that stops it. -/
theorem run_probe {ε ρ : Type*} {c : ℕ} {turn : ℕ → Except ε (ρ ⊕ ℕ)} {stop : ℕ → Prop}
    {result : ℕ → ρ} (hdone : ∀ i, stop (i % c) → turn i = .ok (.inl (result (i % c))))
    (hnext : ∀ i, ¬ stop (i % c) → turn i = .ok (.inr (i % c + 1)))
    {m : ℕ} (hm : m < c) (hstop : stop m) (i : ℕ) {fuel : ℕ} (hfuel : c < fuel) :
    ∃ r < c, Loop.run turn fuel i = some (.ok (result r)) ∧ stop r ∧
      ∀ k < c, stop k → dist c (i % c) r ≤ dist c (i % c) k := by
  have hc : 0 < c := by omega
  have hstart : i % c < c := Nat.mod_lt i hc
  generalize hh : i % c = h at hstart
  have hturn : ∀ i, (dist c h (i % c) ≤ dist c h m ∧
      ∀ k < c, stop k → dist c h (i % c) ≤ dist c h k) →
      Loop.TurnSpec turn
        (fun i => dist c h (i % c) ≤ dist c h m ∧ ∀ k < c, stop k → dist c h (i % c) ≤ dist c h k)
        (fun i => dist c h m - dist c h (i % c))
        (fun r => ∃ s < c, r = .ok (result s) ∧ stop s ∧ ∀ k < c, stop k →
          dist c h s ≤ dist c h k) i := by
    rintro i ⟨hle, hfirst⟩
    have hslot : i % c < c := Nat.mod_lt i hc
    unfold Loop.TurnSpec
    by_cases hi : stop (i % c)
    · rw [hdone i hi]
      exact ⟨_, hslot, rfl, hi, hfirst⟩
    · rw [hnext i hi]
      have hlt : ∀ k < c, stop k → dist c h (i % c) < dist c h k := by
        intro k hk hsk
        refine Nat.lt_of_le_of_ne (hfirst k hk hsk) fun heq => hi ?_
        rwa [dist_inj hslot hk hstart heq]
      have hm' := hlt m hm hstop
      have hstep := dist_next hstart hslot (by have := dist_lt hstart hm; omega)
      simp only [add_one_mod hslot, hstep]
      exact ⟨⟨hm', fun k hk hsk => hlt k hk hsk⟩, by omega⟩
  have hvariant : dist c h m - dist c h (i % c) < fuel := by
    have := dist_lt hstart hm
    omega
  obtain ⟨_, hr, s, hs, rfl, hpost⟩ := Loop.run_variant turn hturn
    (by simp only [hh, dist_self]; exact ⟨Nat.zero_le _, fun _ _ _ => Nat.zero_le _⟩) hvariant
  exact ⟨s, hs, hr, hpost⟩

section Table

variable {α : Type*} (c : ℕ) (home : α → ℕ)

/-- No empty slot lies on the way from an element's home to the element. -/
def Reachable (T : ℕ → Option α) : Prop :=
  ∀ s m x, s < c → m < c → T s = some x → T m = none → dist c (home x) s < dist c (home x) m

/-- A table with a hole at `i`, whose elements up to slot `j` stay reachable with the hole. -/
structure Hole (T : ℕ → Option α) (i j : ℕ) : Prop where
  hole : T i = none
  other : ∀ s m x, s < c → m < c → T s = some x → T m = none → m ≠ i →
    dist c (home x) s < dist c (home x) m
  scanned : ∀ s x, s < c → T s = some x → dist c i s ≤ dist c i j →
    dist c (home x) s < dist c (home x) i

variable {c home} {T : ℕ → Option α} {i j : ℕ} {x : α}

theorem reachable_none (c : ℕ) (home : α → ℕ) : Reachable c home (fun _ => none) := by
  intro s m x _ _ h
  cases h

/-- An element is put into the first empty slot from its home. -/
theorem Reachable.put (h : Reachable c home T) (hx : home x < c) (hi : i < c)
    (hfirst : ∀ m < c, T m = none → dist c (home x) i ≤ dist c (home x) m) :
    Reachable c home (Function.update T i (some x)) := by
  intro s m y hs hm hsy hmy
  have hmi : m ≠ i := by
    rintro rfl
    simp at hmy
  rw [Function.update_of_ne hmi] at hmy
  by_cases hsi : s = i
  · subst hsi
    rw [Function.update_self] at hsy
    obtain rfl := Option.some.inj hsy
    exact Nat.lt_of_le_of_ne (hfirst m hm hmy) fun heq => hmi (dist_inj hi hm hx heq).symm
  · rw [Function.update_of_ne hsi] at hsy
    exact h s m y hs hm hsy hmy

theorem Reachable.hole (h : Reachable c home T) (hi : i < c) :
    Hole c home (Function.update T i none) i i where
  hole := Function.update_self ..
  other := by
    intro s m y hs hm hsy hmy hmi
    have hsi : s ≠ i := by
      rintro rfl
      simp at hsy
    rw [Function.update_of_ne hsi] at hsy
    rw [Function.update_of_ne hmi] at hmy
    exact h s m y hs hm hsy hmy
  scanned := by
    intro s y hs hsy hle
    rw [dist_self, Nat.le_zero] at hle
    have hsi : s = i := dist_inj hs hi hi (by rw [hle, dist_self])
    subst hsi
    simp at hsy

/-- The element behind the hole stays where it is if its home lies behind the hole too. -/
theorem Hole.keep (h : Hole c home T i j) (hhome : ∀ x, home x < c) (hi : i < c) (hj : j < c)
    (hlt : dist c i j + 1 < c) (hx : T (next c j) = some x)
    (hkeep : ¬ dist c (home x) i < dist c (home x) (next c j)) :
    Hole c home T i (next c j) where
  hole := h.hole
  other := h.other
  scanned := by
    intro s y hs hsy hle
    rw [dist_next hi hj hlt] at hle
    by_cases hsj : s = next c j
    · subst hsj
      obtain rfl := Option.some.inj (hx.symm.trans hsy)
      refine Nat.lt_of_le_of_ne (Nat.not_lt.mp hkeep) fun heq => ?_
      have := dist_inj hs hi (hhome x) heq
      rw [this, h.hole] at hx
      cases hx
    · refine h.scanned s y hs hsy ?_
      have hne : dist c i s ≠ dist c i j + 1 := by
        rw [← dist_next hi hj hlt]
        exact fun heq => hsj (dist_inj hs (next_lt hj) hi heq)
      omega

/-- An element behind the hole fills it and leaves the next hole. -/
theorem Hole.move {p : ℕ} (h : Hole c home T i p) (hi : i < c) (hj : j < c)
    (hx : T j = some x) (hmove : dist c (home x) i < dist c (home x) j) :
    Hole c home (Function.update (Function.update T i (some x)) j none) j j where
  hole := Function.update_self ..
  other := by
    intro s m y hs hm hsy hmy hmj
    have hsj : s ≠ j := by
      rintro rfl
      simp at hsy
    rw [Function.update_of_ne hsj] at hsy
    rw [Function.update_of_ne hmj] at hmy
    have hmi : m ≠ i := by
      rintro rfl
      simp at hmy
    rw [Function.update_of_ne hmi] at hmy
    by_cases hsi : s = i
    · subst hsi
      rw [Function.update_self] at hsy
      obtain rfl := Option.some.inj hsy
      exact Nat.lt_trans hmove (h.other j m x hj hm hx hmy hmi)
    · rw [Function.update_of_ne hsi] at hsy
      exact h.other s m y hs hm hsy hmy hmi
  scanned := by
    intro s y hs hsy hle
    rw [dist_self, Nat.le_zero] at hle
    have hsj : s = j := dist_inj hs hj hj (by rw [hle, dist_self])
    subst hsj
    simp at hsy

/-- An empty slot ends the search: the hole can be closed. -/
theorem Hole.close (h : Hole c home T i j) (hhome : ∀ x, home x < c) (hi : i < c) (hj : j < c)
    (hlt : dist c i j + 1 < c) (hempty : T (next c j) = none) (hne : next c j ≠ i) :
    Reachable c home T := by
  intro s m y hs hm hsy hmy
  by_cases hmi : m = i
  · subst hmi
    by_cases hle : dist c m s ≤ dist c m j
    · exact h.scanned s y hs hsy hle
    · have hend := h.other s (next c j) y hs (next_lt hj) hsy hempty hne
      have hnext := dist_next hm hj hlt
      have hsj : s ≠ next c j := by
        rintro rfl
        rw [hempty] at hsy
        cases hsy
      have hsm : s ≠ m := by
        rintro rfl
        rw [h.hole] at hsy
        cases hsy
      have hstep : dist c m s ≠ dist c m (next c j) := fun heq =>
        hsj (dist_inj hs (next_lt hj) hm heq)
      have := hhome y
      have := next_lt hj
      generalize next c j = e at *
      unfold dist at *
      split_ifs at * <;> omega
  · exact h.other s m y hs hm hsy hmy hmi

end Table

end LibReactor.LinearProbing
