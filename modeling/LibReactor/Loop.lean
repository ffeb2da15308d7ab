import Mathlib.Logic.Relation
import Mathlib.Tactic.Common

/-!
# Loops that leave by a result

A `while (1)` loop is a turn on a state: it leaves with a result on the left or
goes round again on the right, and it may fail. `run` gives it a bounded number
of turns. The rules below bound the turns by a variant, carry an invariant
through a finished run, and turn a chain of turns into a finished run.
-/

namespace LibReactor.Loop

variable {σ α ε : Type*}

/-- The loop's result after at most `fuel` turns, if it has left by then. -/
def run (turn : σ → Except ε (α ⊕ σ)) : ℕ → σ → Option (Except ε α)
  | 0, _ => none
  | fuel + 1, s =>
    match turn s with
    | .error e => some (.error e)
    | .ok (.inl a) => some (.ok a)
    | .ok (.inr s') => run turn fuel s'

/-- A loop whose turns are bounded in advance; going past the bound is `e`. -/
def within (e : ε) (turn : σ → Except ε (α ⊕ σ)) (fuel : ℕ) (s : σ) : Except ε α :=
  (run turn fuel s).getD (.error e)

section Run

variable (turn : σ → Except ε (α ⊕ σ))

theorem within_eq_ok {e : ε} {fuel : ℕ} {s : σ} {a : α} :
    within e turn fuel s = .ok a ↔ run turn fuel s = some (.ok a) := by
  unfold within
  cases run turn fuel s with
  | none => simp
  | some r => simp

@[simp] theorem run_zero (s : σ) : run turn 0 s = none := rfl

theorem run_succ_error {s : σ} {e : ε} (h : turn s = .error e) (fuel : ℕ) :
    run turn (fuel + 1) s = some (.error e) := by
  simp only [run, h]

theorem run_succ_done {s : σ} {a : α} (h : turn s = .ok (.inl a)) (fuel : ℕ) :
    run turn (fuel + 1) s = some (.ok a) := by
  simp only [run, h]

theorem run_succ_next {s s' : σ} (h : turn s = .ok (.inr s')) (fuel : ℕ) :
    run turn (fuel + 1) s = run turn fuel s' := by
  simp only [run, h]

/-- More turns do not change the result of a loop that has left. -/
theorem run_mono {fuel fuel' : ℕ} (hle : fuel ≤ fuel') {s : σ} {r : Except ε α}
    (h : run turn fuel s = some r) : run turn fuel' s = some r := by
  induction fuel generalizing fuel' s with
  | zero => simp at h
  | succ fuel ih =>
    obtain ⟨m, rfl⟩ : ∃ m, fuel' = m + 1 := ⟨fuel' - 1, by omega⟩
    cases ht : turn s with
    | error e => rwa [run_succ_error turn ht] at h ⊢
    | ok t =>
      cases t with
      | inl a => rwa [run_succ_done turn ht] at h ⊢
      | inr s' =>
        rw [run_succ_next turn ht] at h ⊢
        exact ih (by omega) h

theorem run_unique {fuel fuel' : ℕ} {s : σ} {r r' : Except ε α}
    (h : run turn fuel s = some r) (h' : run turn fuel' s = some r') : r = r' := by
  rcases Nat.le_total fuel fuel' with hle | hle
  · exact Option.some.inj ((run_mono turn hle h).symm.trans h')
  · exact Option.some.inj (h.symm.trans (run_mono turn hle h'))

/-- One turn keeps the invariant and decreases the variant, or leaves with a
result that satisfies the postcondition. -/
def TurnSpec (I : σ → Prop) (μ : σ → ℕ) (Q : Except ε α → Prop) (s : σ) : Prop :=
  match turn s with
  | .error e => Q (.error e)
  | .ok (.inl a) => Q (.ok a)
  | .ok (.inr s') => I s' ∧ μ s' < μ s

/-- The rule of total correctness: the variant bounds the turns. -/
theorem run_variant {I : σ → Prop} {μ : σ → ℕ} {Q : Except ε α → Prop}
    (hturn : ∀ s, I s → TurnSpec turn I μ Q s) {fuel : ℕ} {s : σ} (hs : I s)
    (hfuel : μ s < fuel) : ∃ r, run turn fuel s = some r ∧ Q r := by
  induction fuel generalizing s with
  | zero => omega
  | succ fuel ih =>
    have hspec := hturn s hs
    unfold TurnSpec at hspec
    cases ht : turn s with
    | error e =>
      rw [ht] at hspec
      exact ⟨_, run_succ_error turn ht fuel, hspec⟩
    | ok t =>
      rw [ht] at hspec
      cases t with
      | inl a => exact ⟨_, run_succ_done turn ht fuel, hspec⟩
      | inr s' =>
        obtain ⟨r, hr, hq⟩ := ih hspec.1 (by omega)
        exact ⟨r, (run_succ_next turn ht fuel).trans hr, hq⟩

/-- The rule of total correctness for a bounded loop. -/
theorem within_variant {I : σ → Prop} {μ : σ → ℕ} {Q : Except ε α → Prop}
    (hturn : ∀ s, I s → TurnSpec turn I μ Q s) (e : ε) {fuel : ℕ} {s : σ} (hs : I s)
    (hfuel : μ s < fuel) : Q (within e turn fuel s) := by
  obtain ⟨r, hr, hq⟩ := run_variant turn hturn hs hfuel
  rwa [within, hr]

/-- The rule of partial correctness: a finished run ends in the postcondition. -/
theorem run_invariant {I : σ → Prop} {Q : Except ε α → Prop}
    (herror : ∀ s e, I s → turn s = .error e → Q (.error e))
    (hdone : ∀ s a, I s → turn s = .ok (.inl a) → Q (.ok a))
    (hnext : ∀ s s', I s → turn s = .ok (.inr s') → I s') {fuel : ℕ} {s : σ}
    {r : Except ε α} (hs : I s) (h : run turn fuel s = some r) : Q r := by
  induction fuel generalizing s with
  | zero => simp at h
  | succ fuel ih =>
    cases ht : turn s with
    | error e =>
      rw [run_succ_error turn ht] at h
      exact Option.some.inj h ▸ herror s e hs ht
    | ok t =>
      cases t with
      | inl a =>
        rw [run_succ_done turn ht] at h
        exact Option.some.inj h ▸ hdone s a hs ht
      | inr s' =>
        rw [run_succ_next turn ht] at h
        exact ih (hnext s s' hs ht) h

def Leads (s s' : σ) : Prop := Relation.ReflTransGen (fun a b => turn a = .ok (.inr b)) s s'

variable {turn}

theorem Leads.refl (s : σ) : Leads turn s s := Relation.ReflTransGen.refl

theorem Leads.trans {s₁ s₂ s₃ : σ} (h : Leads turn s₁ s₂) (h' : Leads turn s₂ s₃) :
    Leads turn s₁ s₃ := Relation.ReflTransGen.trans h h'

theorem Leads.head {s s₁ s₂ : σ} (h : turn s = .ok (.inr s₁)) (h' : Leads turn s₁ s₂) :
    Leads turn s s₂ := Relation.ReflTransGen.head h h'

theorem Leads.congr {s₁ s₂ s : σ} (hturn : turn s₁ = turn s₂) (h : Leads turn s₂ s)
    (hne : s₂ ≠ s) : Leads turn s₁ s := by
  rcases Relation.ReflTransGen.cases_head h with heq | ⟨s₃, hstep, hrest⟩
  · exact absurd heq hne
  · exact Relation.ReflTransGen.head (hturn.trans hstep) hrest

/-- A chain of turns whose last state leaves is a finished run for all enough fuel. -/
theorem Leads.run_eq {s s' : σ} (h : Leads turn s s') {a : α} (hdone : turn s' = .ok (.inl a)) :
    ∃ N, ∀ fuel ≥ N, run turn fuel s = some (.ok a) := by
  induction h using Relation.ReflTransGen.head_induction_on with
  | refl => exact ⟨1, fun fuel hf => run_mono turn hf (run_succ_done turn hdone 0)⟩
  | head hstep _ ih =>
    obtain ⟨N, hN⟩ := ih
    refine ⟨N + 1, fun fuel hf => ?_⟩
    obtain ⟨m, rfl⟩ : ∃ m, fuel = m + 1 := ⟨fuel - 1, by omega⟩
    rw [run_succ_next turn hstep]
    exact hN m (by omega)

/-- Where a chain of turns leaves is what the bounded loop returns, if it returns. -/
theorem Leads.within_eq {s s' : σ} (h : Leads turn s s') {a : α} (hdone : turn s' = .ok (.inl a))
    {e : ε} {fuel : ℕ} {r : α} (hwithin : within e turn fuel s = .ok r) : r = a := by
  obtain ⟨N, hN⟩ := h.run_eq hdone
  have heq := run_unique turn ((within_eq_ok turn).mp hwithin) (hN N (Nat.le_refl N))
  exact Except.ok.inj heq

variable (turn) in
def Takes (n : ℕ) (s s' : σ) : Prop := ∀ fuel, run turn (n + fuel) s = run turn fuel s'

theorem Takes.refl (s : σ) : Takes turn 0 s s := fun fuel => by rw [Nat.zero_add]

theorem Takes.trans {n m : ℕ} {s₁ s₂ s₃ : σ} (h : Takes turn n s₁ s₂) (h' : Takes turn m s₂ s₃) :
    Takes turn (n + m) s₁ s₃ := fun fuel => by rw [Nat.add_assoc, h, h']

theorem Takes.one {s s' : σ} (h : turn s = .ok (.inr s')) : Takes turn 1 s s' :=
  fun fuel => by rw [Nat.add_comm, run_succ_next turn h]

theorem Takes.run_done {n : ℕ} {s s' : σ} (h : Takes turn n s s') {a : α}
    (hdone : turn s' = .ok (.inl a)) {fuel : ℕ} (hfuel : n < fuel) :
    run turn fuel s = some (.ok a) :=
  run_mono turn hfuel ((h 1).trans (run_succ_done turn hdone 0))

end Run

end LibReactor.Loop
