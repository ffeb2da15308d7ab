import Mathlib.Data.List.Basic
import Mathlib.Tactic.Common

/-!
# Framing of an input that arrives in pieces

`next` looks for one frame at the start of the input. Where its complete frames
and its errors do not change when more input arrives, the frames of an input are
the same however it is cut: `Feed` is the run over the pieces and `Frames` the
run over the whole.
-/

namespace LibReactor.Framing

variable {β ρ : Type*}

inductive Frame (ρ : Type*)
  | incomplete
  | error
  | complete (n : ℕ) (r : ρ)
  deriving DecidableEq, Repr

/-- The end of a run: an error, or the input that waits for more. -/
inductive Verdict (β : Type*)
  | error
  | waiting (rest : List β)
  deriving DecidableEq, Repr

/-- `next` on the inputs of a domain: what it decides is final. -/
structure Stable (next : List β → Frame ρ) (D : List β → Prop) : Prop where
  take : ∀ b x, D (b ++ x) → D b
  drop : ∀ b n r, D b → next b = .complete n r → D (b.drop n)
  bounds : ∀ b n r, D b → next b = .complete n r → 0 < n ∧ n ≤ b.length
  complete : ∀ b x n r, D (b ++ x) → next b = .complete n r → next (b ++ x) = .complete n r
  error : ∀ b x, D (b ++ x) → next b = .error → next (b ++ x) = .error

/-- The frames of an input up to an error or to a frame that is not complete. -/
inductive Frames (next : List β → Frame ρ) : List β → List ρ → Verdict β → Prop
  | incomplete {b} : next b = .incomplete → Frames next b [] (.waiting b)
  | error {b} : next b = .error → Frames next b [] .error
  | complete {b n r rs v} : next b = .complete n r → Frames next (b.drop n) rs v →
      Frames next b (r :: rs) v

inductive Reached (next : List β → Frame ρ) (w : List β) : List β → Prop
  | start : Reached next w w
  | next {b n r} : Reached next w b → next b = .complete n r → Reached next w (b.drop n)

/-- The run over the pieces of an input: each is added to what the last run left. -/
inductive Feed (next : List β → Frame ρ) : List β → List (List β) → List ρ → Verdict β → Prop
  | nil {b} : Feed next b [] [] (.waiting b)
  | error {b c cs rs} : Frames next (b ++ c) rs .error → Feed next b (c :: cs) rs .error
  | waiting {b c cs rs b' rs' v} : Frames next (b ++ c) rs (.waiting b') →
      Feed next b' cs rs' v → Feed next b (c :: cs) (rs ++ rs') v

variable {next : List β → Frame ρ} {D : List β → Prop}

theorem Frames.unique {b : List β} {rs rs' : List ρ} {v v' : Verdict β}
    (h : Frames next b rs v) (h' : Frames next b rs' v') : rs = rs' ∧ v = v' := by
  induction h generalizing rs' with
  | incomplete hb => cases h' <;> simp_all
  | error hb => cases h' <;> simp_all
  | @complete b n r rs v hb _ ih =>
    cases h' with
    | incomplete hb' => simp [hb] at hb'
    | error hb' => simp [hb] at hb'
    | complete hb' hrest =>
      obtain ⟨rfl, rfl⟩ := Frame.complete.inj (hb.symm.trans hb')
      obtain ⟨rfl, rfl⟩ := ih hrest
      exact ⟨rfl, rfl⟩

/-- Every input in the domain has its frames. -/
theorem Stable.exists_frames (hstable : Stable next D) {b : List β} (hb : D b) :
    ∃ rs v, Frames next b rs v := by
  induction hl : b.length using Nat.strongRecOn generalizing b with
  | _ l ih =>
    cases hnext : next b with
    | incomplete => exact ⟨[], .waiting b, .incomplete hnext⟩
    | error => exact ⟨[], .error, .error hnext⟩
    | complete n r =>
      have hbounds := hstable.bounds b n r hb hnext
      obtain ⟨rs, v, hrest⟩ := ih (b.drop n).length (by rw [List.length_drop]; omega)
        (hstable.drop b n r hb hnext) rfl
      exact ⟨r :: rs, v, .complete hnext hrest⟩

theorem Frames.next_eq_incomplete {b b' : List β} {rs : List ρ}
    (h : Frames next b rs (.waiting b')) : next b' = .incomplete := by
  generalize hv : Verdict.waiting b' = v at h
  induction h with
  | incomplete hb =>
    cases hv
    exact hb
  | error => cases hv
  | complete _ _ ih => exact ih hv

/-- The frames of a longer input begin with those of the shorter one. -/
theorem Stable.frames_append (hstable : Stable next D) {b b' x : List β} {rs rs' : List ρ}
    {v : Verdict β} (hD : D (b ++ x)) (h : Frames next b rs (.waiting b'))
    (h' : Frames next (b' ++ x) rs' v) : Frames next (b ++ x) (rs ++ rs') v := by
  generalize hv : Verdict.waiting b' = v' at h
  induction h with
  | incomplete =>
    cases hv
    exact h'
  | error => cases hv
  | @complete b n r rs v' hb hrest ih =>
    have hle := (hstable.bounds b n r (hstable.take b x hD) hb).2
    have hlong := hstable.complete b x n r hD hb
    have hdrop : (b ++ x).drop n = b.drop n ++ x := List.drop_append_of_le_length hle
    refine .complete hlong ?_
    rw [hdrop]
    exact ih (hdrop ▸ hstable.drop (b ++ x) n r hD hlong) hv

theorem Stable.frames_error_append (hstable : Stable next D) {b x : List β} {rs : List ρ}
    (hD : D (b ++ x)) (h : Frames next b rs .error) : Frames next (b ++ x) rs .error := by
  generalize hv : Verdict.error = v at h
  induction h with
  | incomplete => cases hv
  | error hb => exact .error (hstable.error _ x hD hb)
  | @complete b n r rs v hb hrest ih =>
    have hle := (hstable.bounds b n r (hstable.take b x hD) hb).2
    have hlong := hstable.complete b x n r hD hb
    have hdrop : (b ++ x).drop n = b.drop n ++ x := List.drop_append_of_le_length hle
    refine .complete hlong ?_
    rw [hdrop]
    exact ih (hdrop ▸ hstable.drop (b ++ x) n r hD hlong) hv

/-- What remains after the frames of an input is in the domain with every extension. -/
theorem Stable.frames_rest (hstable : Stable next D) {b b' x : List β} {rs : List ρ}
    (hD : D (b ++ x)) (h : Frames next b rs (.waiting b')) : D (b' ++ x) := by
  generalize hv : Verdict.waiting b' = v at h
  induction h with
  | incomplete =>
    cases hv
    exact hD
  | error => cases hv
  | @complete b n r rs v hb hrest ih =>
    have hle := (hstable.bounds b n r (hstable.take b x hD) hb).2
    have hlong := hstable.complete b x n r hD hb
    have hdrop : (b ++ x).drop n = b.drop n ++ x := List.drop_append_of_le_length hle
    exact ih (hdrop ▸ hstable.drop (b ++ x) n r hD hlong) hv

/-- A run over pieces finds the frames of the whole input. -/
theorem Stable.frames_of_feed (hstable : Stable next D) {b : List β} {cs : List (List β)}
    {rs : List ρ} {v : Verdict β} (hD : D (b ++ cs.flatten)) (hb : next b = .incomplete)
    (h : Feed next b cs rs v) : Frames next (b ++ cs.flatten) rs v := by
  induction h with
  | nil => simpa using Frames.incomplete hb
  | @error b c cs rs hframes =>
    rw [List.flatten_cons, ← List.append_assoc] at hD ⊢
    exact hstable.frames_error_append hD hframes
  | @waiting b c cs rs b' rs' v hframes _ ih =>
    rw [List.flatten_cons, ← List.append_assoc] at hD ⊢
    exact hstable.frames_append hD hframes
      (ih (hstable.frames_rest hD hframes) hframes.next_eq_incomplete)

theorem Feed.next_eq_incomplete {b b' : List β} {cs : List (List β)} {rs : List ρ}
    (h : Feed next b cs rs (.waiting b')) (hb : next b = .incomplete) : next b' = .incomplete := by
  generalize hv : Verdict.waiting b' = v at h
  induction h with
  | nil =>
    cases hv
    exact hb
  | error => cases hv
  | waiting hframes _ ih => exact ih hframes.next_eq_incomplete hv

theorem Stable.exists_feed (hstable : Stable next D) {b : List β} {cs : List (List β)}
    (hD : D (b ++ cs.flatten)) : ∃ rs v, Feed next b cs rs v := by
  induction cs generalizing b with
  | nil => exact ⟨[], .waiting b, .nil⟩
  | cons c cs ih =>
    rw [List.flatten_cons, ← List.append_assoc] at hD
    obtain ⟨rs, v, hframes⟩ := hstable.exists_frames (hstable.take _ _ hD)
    cases v with
    | error => exact ⟨rs, .error, .error hframes⟩
    | waiting b' =>
      obtain ⟨rs', v, hfeed⟩ := ih (hstable.frames_rest hD hframes)
      exact ⟨rs ++ rs', v, .waiting hframes hfeed⟩

def Within (next : List β → Frame ρ) (w b : List β) : Prop := ∃ x, Reached next w (b ++ x)

theorem Reached.length_le {w b : List β} (h : Reached next w b) : b.length ≤ w.length := by
  induction h with
  | start => exact Nat.le_refl _
  | next _ _ ih =>
    rw [List.length_drop]
    omega

theorem Reached.trans {w b b' : List β} (h : Reached next w b) (h' : Reached next b b') :
    Reached next w b' := by
  induction h' with
  | start => exact h
  | next _ hnext ih => exact ih.next hnext

theorem Within.length_le {w b : List β} (h : Within next w b) : b.length ≤ w.length := by
  obtain ⟨x, hx⟩ := h
  have := hx.length_le
  rw [List.length_append] at this
  omega

theorem Reached.append {u y b : List β} (hstable : Stable next (Within next (u ++ y)))
    (h : Reached next u b) : Reached next (u ++ y) (b ++ y) := by
  induction h with
  | start => exact .start
  | @next b n r _ hnext ih =>
    have hb : Within next (u ++ y) (b ++ y) := ⟨[], by rwa [List.append_nil]⟩
    have hle := (hstable.bounds b n r (hstable.take b y hb) hnext).2
    rw [← List.drop_append_of_le_length hle]
    exact ih.next (hstable.complete b y n r hb hnext)

theorem Within.self (w : List β) : Within next w w := ⟨[], by simpa using Reached.start⟩

end LibReactor.Framing
