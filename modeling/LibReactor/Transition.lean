import Mathlib.Tactic.Common

/-!
# Executable transition systems

A step function gives the next state of an enabled label and `none` otherwise.
`exec` replays a list of labels. `Reach` collects the states of all runs whose
steps meet a side condition; a property that holds initially and is kept by
every such step holds throughout.
-/

namespace LibReactor.Transition

variable {σ ι : Type*}

def exec (step : σ → ι → Option σ) : σ → List ι → Option σ
  | s, [] => some s
  | s, l :: ls => (step s l).bind (fun s' => exec step s' ls)

/-- States of the runs from `s₀` in which every step meets `ok` in the state it starts from. -/
inductive Reach (step : σ → ι → Option σ) (ok : σ → ι → Prop) (s₀ : σ) : σ → Prop
  | init : Reach step ok s₀ s₀
  | step {s s' : σ} {l : ι} : Reach step ok s₀ s → ok s l → step s l = some s' →
      Reach step ok s₀ s'

variable {step : σ → ι → Option σ} {ok ok' : σ → ι → Prop} {s₀ s s' : σ}

/-- An invariant of every allowed step holds in every state of every allowed run. -/
theorem Reach.invariant {I : σ → Prop} (hinit : I s₀)
    (hstep : ∀ s l s', I s → ok s l → step s l = some s' → I s')
    (h : Reach step ok s₀ s) : I s := by
  induction h with
  | init => exact hinit
  | step _ hok hs ih => exact hstep _ _ _ ih hok hs

theorem Reach.mono (hle : ∀ s l, ok s l → ok' s l) (h : Reach step ok s₀ s) :
    Reach step ok' s₀ s := by
  induction h with
  | init => exact .init
  | step _ hok hs ih => exact .step ih (hle _ _ hok) hs

theorem Reach.trans (h : Reach step ok s₀ s) (h' : Reach step ok s s') :
    Reach step ok s₀ s' := by
  induction h' with
  | init => exact h
  | step _ hok hs ih => exact .step ih hok hs

/-- A replayed run whose steps are all allowed ends in a reachable state. -/
theorem Reach.of_exec {ls : List ι} (hok : ∀ s l, ok s l) (h : exec step s₀ ls = some s) :
    Reach step ok s₀ s := by
  induction ls generalizing s₀ with
  | nil => exact Option.some.inj h ▸ .init
  | cons l ls ih =>
    cases hs : step s₀ l with
    | none => simp [exec, hs] at h
    | some s₁ =>
      rw [exec, hs] at h
      exact Reach.trans (.step .init (hok _ _) hs) (ih h)

theorem exec_concat {ls : List ι} {l : ι} (h : exec step s₀ ls = some s)
    (hs : step s l = some s') : exec step s₀ (ls ++ [l]) = some s' := by
  induction ls generalizing s₀ with
  | nil =>
    cases h
    simp [exec, hs]
  | cons l₁ ls ih =>
    obtain ⟨s₁, h₁, h⟩ := Option.bind_eq_some_iff.mp h
    rw [List.cons_append, exec, h₁]
    exact ih h

/-- A step that is only taken where the side condition is met. -/
def guarded (step : σ → ι → Option σ) (ok : σ → ι → Prop) [∀ s l, Decidable (ok s l)] (s : σ)
    (l : ι) : Option σ :=
  if ok s l then step s l else none

theorem Reach.of_guarded [∀ s l, Decidable (ok s l)] {ls : List ι}
    (h : exec (guarded step ok) s₀ ls = some s) : Reach step ok s₀ s := by
  have hreach : Reach (guarded step ok) (fun _ _ => True) s₀ s :=
    .of_exec (fun _ _ => trivial) h
  refine hreach.invariant (I := fun s => Reach step ok s₀ s) .init fun s l s' ih _ hs => ?_
  rw [guarded, Option.ite_none_right_eq_some] at hs
  exact .step ih hs.1 hs.2

end LibReactor.Transition
