import Mathlib.Data.List.Basic
import Mathlib.Tactic.Common

/-!
# Readers of an input that grows

A reader goes from left to right over a memory of which the last `e` elements lie
behind the end of its input. `Settled` says that what it decides on the input alone
holds whatever lies behind the input, and that its results and its final errors also
hold when more input arrives. Compositions of settled readers are settled.
-/

namespace LibReactor.Incremental

variable {β σ ε α γ : Type}

/-- The memory from the position `offset` of the input on, and what has been stored. -/
structure Cursor (β σ : Type) where
  offset : ℕ
  rest : List β
  out : σ

namespace Cursor

def extend (s : Cursor β σ) (x : List β) : Cursor β σ := { s with rest := s.rest ++ x }

@[simp] theorem extend_nil (s : Cursor β σ) : s.extend [] = s := by
  simp [extend]

@[simp] theorem extend_offset (s : Cursor β σ) (x : List β) : (s.extend x).offset = s.offset := rfl

@[simp] theorem extend_rest (s : Cursor β σ) (x : List β) : (s.extend x).rest = s.rest ++ x := rfl

@[simp] theorem extend_out (s : Cursor β σ) (x : List β) : (s.extend x).out = s.out := rfl

structure Moves (s : Cursor β σ) (w : List β) (s' : Cursor β σ) : Prop where
  rest : s.rest = w ++ s'.rest
  offset : s'.offset = s.offset + w.length
  out : s'.out = s.out

theorem Moves.refl (s : Cursor β σ) : s.Moves [] s := ⟨rfl, rfl, rfl⟩

theorem Moves.trans {s t u : Cursor β σ} {v w : List β} (h : s.Moves v t) (h' : t.Moves w u) :
    s.Moves (v ++ w) u where
  rest := by rw [h.rest, h'.rest, List.append_assoc]
  offset := by rw [h'.offset, h.offset, List.length_append, Nat.add_assoc]
  out := h'.out.trans h.out

theorem Moves.eq {s t u : Cursor β σ} {w : List β} (h : s.Moves w t) (h' : s.Moves w u) :
    t = u := by
  have hrest := List.append_cancel_left (h.rest.symm.trans h'.rest)
  have hoffset := h.offset.trans h'.offset.symm
  have hout := h.out.trans h'.out.symm
  cases t
  cases u
  simp_all

theorem Moves.split {s t : Cursor β σ} {w : List β} (h : s.Moves w t) (u v : List β)
    (hw : w = u ++ v) : ∃ m, s.Moves u m ∧ m.Moves v t := by
  subst hw
  refine ⟨⟨s.offset + u.length, v ++ t.rest, s.out⟩, ⟨?_, rfl, rfl⟩, ⟨rfl, ?_, h.out⟩⟩
  · rw [h.rest, List.append_assoc]
  · rw [h.offset, List.length_append, Nat.add_assoc]

end Cursor

/-- The result of a reader; an error keeps what has been stored. -/
inductive Result (β σ ε α : Type)
  | ok (a : α) (s : Cursor β σ)
  | error (r : ε) (s : Cursor β σ)

/-- A reader of the memory at a cursor, of which the last `e` elements lie behind the input. -/
structure Reader (β σ ε α : Type) where
  run : (e : ℕ) → Cursor β σ → Result β σ ε α

namespace Reader

theorem ext {m m' : Reader β σ ε α} (h : ∀ e s, m.run e s = m'.run e s) : m = m' := by
  cases m
  cases m'
  exact congrArg _ (funext fun e => funext fun s => h e s)

protected def bind (m : Reader β σ ε α) (f : α → Reader β σ ε γ) : Reader β σ ε γ :=
  ⟨fun e s => match m.run e s with
    | .ok a s' => (f a).run e s'
    | .error r s' => .error r s'⟩

instance : Monad (Reader β σ ε) where
  pure a := ⟨fun _ s => .ok a s⟩
  bind := Reader.bind

instance : LawfulMonad (Reader β σ ε) := LawfulMonad.mk' _
  (fun m => ext fun e s => by
    show (Reader.bind m fun a => pure a).run e s = m.run e s
    simp only [Reader.bind]
    cases m.run e s <;> rfl)
  (fun _ _ => rfl)
  (fun m f g => ext fun e s => by
    show (Reader.bind (Reader.bind m f) g).run e s = (Reader.bind m fun a => f a >>= g).run e s
    simp only [Reader.bind]
    cases m.run e s <;> rfl)

/-! ## Readers -/

/-- `if (p == end) return short` -/
def checkEnd (short : ε) : Reader β σ ε Unit :=
  ⟨fun e s => if s.rest.length = e then .error short s else .ok () s⟩

/-- `if (end - p < n) return short` -/
def require (short : ε) (n : ℕ) : Reader β σ ε Unit :=
  ⟨fun e s => if s.rest.length < e + n then .error short s else .ok () s⟩

/-- `*p`, with `outside` behind the memory -/
def current (outside : ε) : Reader β σ ε β :=
  ⟨fun _ s => match s.rest with
    | [] => .error outside s
    | c :: _ => .ok c s⟩

def advance (outside : ε) : Reader β σ ε Unit :=
  ⟨fun _ s => match s.rest with
    | [] => .error outside s
    | _ :: p => .ok () ⟨s.offset + 1, p, s.out⟩⟩

def store (f : σ → σ) : Reader β σ ε Unit :=
  ⟨fun _ s => .ok () { s with out := f s.out }⟩

def offset : Reader β σ ε ℕ := ⟨fun _ s => .ok s.offset s⟩

def span (m : Reader β σ ε α) : Reader β σ ε (List β × α) :=
  ⟨fun e s => match m.run e s with
    | .ok a s' => .ok (s.rest.take (s'.offset - s.offset), a) s'
    | .error r s' => .error r s'⟩

def stored (f : σ → α) : Reader β σ ε α := ⟨fun _ s => .ok (f s.out) s⟩

def part {τ : Type} (get : τ → σ) (set : τ → σ → τ) (m : Reader β σ ε α) : Reader β τ ε α :=
  ⟨fun e s => match m.run e ⟨s.offset, s.rest, get s.out⟩ with
    | .ok a t => .ok a ⟨t.offset, t.rest, set s.out t.out⟩
    | .error r t => .error r ⟨t.offset, t.rest, set s.out t.out⟩⟩

def fail (e : ε) : Reader β σ ε α := ⟨fun _ s => .error e s⟩

/-- `while (1) { if (stop(*p)) break; if (bad(*p)) return invalid; ++p; }` from the position `i`
on, with a check of the end behind `++p` if there is a `short` -/
def scanFrom (short : Option ε) (outside invalid : ε) (stop bad : β → Bool) (e : ℕ) (out : σ) :
    ℕ → List β → Result β σ ε Unit
  | i, [] => .error outside ⟨i, [], out⟩
  | i, c :: p =>
    if stop c then .ok () ⟨i, c :: p, out⟩
    else if bad c then .error invalid ⟨i, c :: p, out⟩
    else match if p.length = e then short else none with
      | some r => .error r ⟨i + 1, p, out⟩
      | none => scanFrom short outside invalid stop bad e out (i + 1) p

def scan (short : Option ε) (outside invalid : ε) (stop bad : β → Bool) :
    Reader β σ ε Unit :=
  ⟨fun e s => scanFrom short outside invalid stop bad e s.out s.offset s.rest⟩

/-! ## Runs -/

section Runs

variable {e : ℕ} {s s' : Cursor β σ} {m : Reader β σ ε α} {f : α → Reader β σ ε γ}

theorem bind_of_ok {a : α} (h : m.run e s = .ok a s') : (m >>= f).run e s = (f a).run e s' := by
  show (Reader.bind m f).run e s = _
  simp only [Reader.bind, h]

theorem bind_of_error {r : ε} (h : m.run e s = .error r s') : (m >>= f).run e s = .error r s' := by
  show (Reader.bind m f).run e s = _
  simp only [Reader.bind, h]

theorem bind_congr {m' : Reader β σ ε α} {t : Cursor β σ} (h : m.run e s = m'.run e t) :
    (m >>= f).run e s = (m' >>= f).run e t := by
  show (Reader.bind m f).run e s = (Reader.bind m' f).run e t
  simp only [Reader.bind, h]

theorem bind_eq_ok {c : γ} {s'' : Cursor β σ} :
    (m >>= f).run e s = .ok c s'' ↔ ∃ a s', m.run e s = .ok a s' ∧ (f a).run e s' = .ok c s'' := by
  cases h : m.run e s with
  | ok a s' => simp [bind_of_ok h]
  | error r s' => simp [bind_of_error h]

theorem bind_eq_error {r : ε} {s'' : Cursor β σ} :
    (m >>= f).run e s = .error r s'' ↔
      m.run e s = .error r s'' ∨ ∃ a s', m.run e s = .ok a s' ∧ (f a).run e s' = .error r s'' := by
  cases h : m.run e s with
  | ok a s' => simp [bind_of_ok h]
  | error r s' => simp [bind_of_error h]

theorem pure_eq_ok {a b : α} : (pure a : Reader β σ ε α).run e s = .ok b s' ↔ a = b ∧ s = s' :=
  ⟨fun h => by cases h; exact ⟨rfl, rfl⟩, fun ⟨h, h'⟩ => by subst h; subst h'; rfl⟩

theorem span_eq_ok {w : List β × α} :
    (span m).run e s = .ok w s' ↔
      m.run e s = .ok w.2 s' ∧ w.1 = s.rest.take (s'.offset - s.offset) := by
  obtain ⟨v, a⟩ := w
  cases h : m.run e s with
  | ok a' t =>
    simp only [span, h, Result.ok.injEq, Prod.mk.injEq]
    constructor
    · rintro ⟨⟨rfl, rfl⟩, rfl⟩
      exact ⟨⟨rfl, rfl⟩, rfl⟩
    · rintro ⟨⟨rfl, rfl⟩, rfl⟩
      exact ⟨⟨rfl, rfl⟩, rfl⟩
  | error r t => simp [span, h]

theorem span_eq_error {r : ε} : (span m).run e s = .error r s' ↔ m.run e s = .error r s' := by
  cases h : m.run e s with
  | ok a t => simp [span, h]
  | error r t => simp [span, h]

variable {τ : Type} {get : τ → σ} {set : τ → σ → τ} {p p' : Cursor β τ}

theorem part_eq_ok {a : α} : (part get set m).run e p = .ok a p' ↔
    ∃ t, m.run e ⟨p.offset, p.rest, get p.out⟩ = .ok a t ∧
      p' = ⟨t.offset, t.rest, set p.out t.out⟩ := by
  cases h : m.run e ⟨p.offset, p.rest, get p.out⟩ with
  | ok b t =>
    simp only [part, h, Result.ok.injEq]
    constructor
    · rintro ⟨rfl, rfl⟩
      exact ⟨t, ⟨rfl, rfl⟩, rfl⟩
    · rintro ⟨t, ⟨rfl, rfl⟩, rfl⟩
      exact ⟨rfl, rfl⟩
  | error r t => simp [part, h]

theorem part_eq_error {r : ε} : (part get set m).run e p = .error r p' ↔
    ∃ t, m.run e ⟨p.offset, p.rest, get p.out⟩ = .error r t ∧
      p' = ⟨t.offset, t.rest, set p.out t.out⟩ := by
  cases h : m.run e ⟨p.offset, p.rest, get p.out⟩ with
  | ok b t => simp [part, h]
  | error r t =>
    simp only [part, h, Result.error.injEq]
    constructor
    · rintro ⟨rfl, rfl⟩
      exact ⟨t, ⟨rfl, rfl⟩, rfl⟩
    · rintro ⟨t, ⟨rfl, rfl⟩, rfl⟩
      exact ⟨rfl, rfl⟩

end Runs

@[simp] theorem offset_run (e : ℕ) (s : Cursor β σ) :
    (offset : Reader β σ ε ℕ).run e s = .ok s.offset s := rfl

@[simp] theorem stored_run (f : σ → α) (e : ℕ) (s : Cursor β σ) :
    (stored f : Reader β σ ε α).run e s = .ok (f s.out) s := rfl

@[simp] theorem store_run (f : σ → σ) (e : ℕ) (s : Cursor β σ) :
    (store f : Reader β σ ε Unit).run e s = .ok () { s with out := f s.out } := rfl

@[simp] theorem pure_run (a : α) (e : ℕ) (s : Cursor β σ) :
    (pure a : Reader β σ ε α).run e s = .ok a s := rfl

@[simp] theorem fail_run (r : ε) (e : ℕ) (s : Cursor β σ) :
    (fail r : Reader β σ ε α).run e s = .error r s := rfl

/-! ## What successful readers pass over -/

section Passed

variable {s s' : Cursor β σ} {r : ε}

theorem checkEnd_eq_ok {u : Unit} :
    (checkEnd r : Reader β σ ε Unit).run 0 s = .ok u s' ↔ s.rest ≠ [] ∧ s = s' := by
  unfold checkEnd
  by_cases h : s.rest = []
  · simp [h]
  · have hlen : s.rest.length ≠ 0 := fun h0 => h (List.length_eq_zero_iff.mp h0)
    simp [h, hlen]

theorem require_eq_ok {n : ℕ} {u : Unit} :
    (require r n : Reader β σ ε Unit).run 0 s = .ok u s' ↔ n ≤ s.rest.length ∧ s = s' := by
  unfold require
  simp only [Nat.zero_add]
  by_cases h : s.rest.length < n
  · simp only [if_pos h, reduceCtorEq, false_iff, not_and]
    omega
  · simp only [if_neg h, Result.ok.injEq, true_and, iff_and_self]
    omega

theorem current_eq_ok {e : ℕ} {c : β} :
    (current r : Reader β σ ε β).run e s = .ok c s' ↔ (∃ p, s.rest = c :: p) ∧ s = s' := by
  obtain ⟨i, p, out⟩ := s
  cases p with
  | nil => simp [current]
  | cons a p => simp [current]

theorem advance_eq_ok {e : ℕ} {u : Unit} :
    (advance r : Reader β σ ε Unit).run e s = .ok u s' ↔ ∃ c, s.Moves [c] s' := by
  obtain ⟨i, p, out⟩ := s
  cases p with
  | nil =>
    constructor
    · intro h
      cases h
    · rintro ⟨c, h⟩
      cases h.rest
  | cons a p =>
    constructor
    · intro h
      cases h
      exact ⟨a, ⟨rfl, rfl, rfl⟩⟩
    · rintro ⟨c, h⟩
      obtain ⟨rfl, hp⟩ := List.cons.inj h.rest
      have hmoves : Cursor.Moves ⟨i, a :: p, out⟩ [a] ⟨i + 1, p, out⟩ := ⟨rfl, rfl, rfl⟩
      rw [h.eq hmoves]
      rfl

theorem Moves.cons_iff {i : ℕ} {c : β} {p : List β} {out : σ} {w : List β} :
    Cursor.Moves ⟨i, c :: p, out⟩ (c :: w) s' ↔ Cursor.Moves ⟨i + 1, p, out⟩ w s' := by
  constructor
  · intro h
    exact ⟨(List.cons.inj h.rest).2, by have := h.offset; simp at this ⊢; omega, h.out⟩
  · intro h
    exact ⟨congrArg (c :: ·) h.rest, by have := h.offset; simp at this ⊢; omega, h.out⟩

theorem scan_stop {q : Option ε} {v : ε} {stop bad : β → Bool} {e : ℕ} {c : β}
    (h : stop c = true) (i : ℕ) (p : List β) (out : σ) :
    (scan q r v stop bad : Reader β σ ε Unit).run e ⟨i, c :: p, out⟩ = .ok () ⟨i, c :: p, out⟩ :=
  if_pos h

theorem scan_bad {q : Option ε} {v : ε} {stop bad : β → Bool} {e : ℕ} {c : β}
    (h : stop c = false) (h' : bad c = true) (i : ℕ) (p : List β) (out : σ) :
    (scan q r v stop bad : Reader β σ ε Unit).run e ⟨i, c :: p, out⟩ =
      .error v ⟨i, c :: p, out⟩ := by
  simp [scan, scanFrom, h, h']

theorem scan_end {q v : ε} {stop bad : β → Bool} {e : ℕ} {c : β} (h : stop c = false)
    (h' : bad c = false) {p : List β} (hp : p.length = e) (i : ℕ) (out : σ) :
    (scan (some q) r v stop bad : Reader β σ ε Unit).run e ⟨i, c :: p, out⟩ =
      .error q ⟨i + 1, p, out⟩ := by
  simp [scan, scanFrom, h, h', hp]

theorem scan_next {q : Option ε} {v : ε} {stop bad : β → Bool} {e : ℕ} {c : β} {p : List β}
    (h : stop c = false) (h' : bad c = false) (hp : q = none ∨ p.length ≠ e) (i : ℕ) (out : σ) :
    (scan q r v stop bad : Reader β σ ε Unit).run e ⟨i, c :: p, out⟩ =
      (scan q r v stop bad).run e ⟨i + 1, p, out⟩ := by
  obtain rfl | hp := hp <;> simp [scan, scanFrom, *]

theorem scan_eq_ok {q : Option ε} {v : ε} {stop bad : β → Bool} {u : Unit} :
    (scan q r v stop bad : Reader β σ ε Unit).run 0 s = .ok u s' ↔
      ∃ w c p, s.Moves w s' ∧ s'.rest = c :: p ∧ stop c = true ∧
        ∀ x ∈ w, stop x = false ∧ bad x = false := by
  obtain ⟨i, p, out⟩ := s
  induction p generalizing i with
  | nil =>
    constructor
    · intro h
      cases h
    · rintro ⟨w, c, p, h, hp, -⟩
      have := h.rest
      simp [hp] at this
  | cons a p ih =>
    cases hstop : stop a with
    | true =>
      rw [scan_stop hstop]
      constructor
      · intro h
        cases h
        exact ⟨[], a, p, .refl _, rfl, hstop, by simp⟩
      · rintro ⟨w, c, q, h, hq, -, hw⟩
        cases w with
        | nil => exact congrArg _ ((Cursor.Moves.refl _).eq h)
        | cons b w =>
          obtain ⟨rfl, -⟩ := List.cons.inj h.rest
          simp [(hw a (by simp)).1] at hstop
    | false =>
      have hcons : ∀ {w : List β} {c : β} {q : List β}, Cursor.Moves ⟨i, a :: p, out⟩ w s' →
          s'.rest = c :: q → stop c = true → ∃ w', w = a :: w' := by
        intro w c q h hq hc
        cases w with
        | nil =>
          obtain ⟨rfl, -⟩ := List.cons.inj (h.rest.trans hq)
          simp [hc] at hstop
        | cons b w =>
          obtain ⟨rfl, -⟩ := List.cons.inj h.rest
          exact ⟨w, rfl⟩
      cases hbad : bad a with
      | true =>
        rw [scan_bad hstop hbad]
        constructor
        · intro h
          cases h
        · rintro ⟨w, c, q, h, hq, hc, hw⟩
          obtain ⟨w, rfl⟩ := hcons h hq hc
          simp [(hw a (by simp)).2] at hbad
      | false =>
        have hnext : (scan q r v stop bad : Reader β σ ε Unit).run 0 ⟨i, a :: p, out⟩ = .ok u s' ↔
            (scan q r v stop bad : Reader β σ ε Unit).run 0 ⟨i + 1, p, out⟩ = .ok u s' := by
          by_cases hp : q = none ∨ p.length ≠ 0
          · rw [scan_next hstop hbad hp]
          · obtain ⟨q, rfl⟩ : ∃ q', q = some q' := Option.ne_none_iff_exists'.mp (by tauto)
            have hnil : p = [] := by simpa using hp
            subst hnil
            have hend := scan_end (r := r) (q := q) (v := v) hstop hbad (p := []) rfl i out
            rw [List.length_nil] at hend
            rw [hend]
            constructor <;> · intro h; cases h
        rw [hnext]
        constructor
        · intro h
          obtain ⟨w, c, q, hmoves, hq, hc, hw⟩ := (ih (i + 1)).mp h
          refine ⟨a :: w, c, q, Moves.cons_iff.mpr hmoves, hq, hc, ?_⟩
          simpa [hstop, hbad] using hw
        · rintro ⟨w, c, q, h, hq, hc, hw⟩
          obtain ⟨w, rfl⟩ := hcons h hq hc
          exact (ih (i + 1)).mpr ⟨w, c, q, Moves.cons_iff.mp h, hq, hc,
            fun x hx => hw x (by simp [hx])⟩

/-- A scan without a check of the end passes over what neither stops it nor is bad. -/
theorem scan_pass {stop bad : β → Bool} {w : List β}
    (h : ∀ x ∈ w, stop x = false ∧ bad x = false) (q : List β) (e i : ℕ) (out : σ) (v : ε) :
    (scan none r v stop bad : Reader β σ ε Unit).run e ⟨i, w ++ q, out⟩ =
      (scan none r v stop bad).run e ⟨i + w.length, q, out⟩ := by
  induction w generalizing i with
  | nil => rfl
  | cons a w ih =>
    have ha := h a (by simp)
    rw [List.cons_append, scan_next ha.1 ha.2 (.inl rfl),
      ih (fun x hx => h x (by simp [hx])), List.length_cons, Nat.add_right_comm, Nat.add_assoc]

theorem scan_over {stop : β → Bool} {w : List β} (h : ∀ x ∈ w, stop x = false) (q : List β)
    (e i : ℕ) (out : σ) (v : ε) :
    (scan none r v stop (fun _ => false) : Reader β σ ε Unit).run e ⟨i, w ++ q, out⟩ =
      (scan none r v stop (fun _ => false)).run e ⟨i + w.length, q, out⟩ :=
  scan_pass (fun x hx => ⟨h x hx, rfl⟩) q e i out v

theorem scan_outside {stop : β → Bool} {p : List β} (h : ∀ x ∈ p, stop x = false) (e i : ℕ)
    (out : σ) (v : ε) :
    (scan none r v stop (fun _ => false) : Reader β σ ε Unit).run e ⟨i, p, out⟩ =
      .error r ⟨i + p.length, [], out⟩ := by
  have hover := scan_over (r := r) h [] e i out v
  rwa [List.append_nil] at hover

theorem scan_append {stop : β → Bool} {w : List β} (h : ∀ x ∈ w, stop x = false) {c : β}
    (hc : stop c = true) (p : List β) (e i : ℕ) (out : σ) (v : ε) :
    (scan none r v stop (fun _ => false) : Reader β σ ε Unit).run e ⟨i, w ++ c :: p, out⟩ =
      .ok () ⟨i + w.length, c :: p, out⟩ := by
  rw [scan_over h, scan_stop hc]

theorem scan_error {stop : β → Bool} {p : List β} {e i : ℕ} {out : σ} {v r' : ε}
    (h : (scan none r v stop (fun _ => false) : Reader β σ ε Unit).run e ⟨i, p, out⟩ =
      .error r' s') : ∀ x ∈ p, stop x = false := by
  induction p generalizing i with
  | nil => simp
  | cons a p ih =>
    cases ha : stop a with
    | true => cases (scan_stop ha i p out).symm.trans h
    | false =>
      rw [scan_next ha rfl (.inl rfl)] at h
      intro x hx
      rcases List.mem_cons.mp hx with rfl | hx
      · exact ha
      · exact ih h x hx

def seek (short outside invalid : ε) (stop bad : β → Bool) : Reader β σ ε Unit := do
  checkEnd short
  scan (some short) outside invalid stop bad

theorem checkEnd_of_eq {e : ℕ} (h : s.rest.length = e) :
    (checkEnd r : Reader β σ ε Unit).run e s = .error r s := if_pos h

theorem checkEnd_of_ne {e : ℕ} (h : s.rest.length ≠ e) :
    (checkEnd r : Reader β σ ε Unit).run e s = .ok () s := if_neg h

theorem seek_past {o v : ε} {stop bad : β → Bool} {e : ℕ} {p : List β} (h : p.length < e) (i : ℕ)
    (out : σ) : (seek r o v stop bad : Reader β σ ε Unit).run e ⟨i, p, out⟩ =
      (scan none o v stop bad).run e ⟨i, p, out⟩ := by
  have hcheck := checkEnd_of_ne (r := r) (s := ⟨i, p, out⟩) (Nat.ne_of_lt h)
  refine (bind_of_ok hcheck).trans ?_
  clear hcheck
  induction p generalizing i with
  | nil => rfl
  | cons c p ih =>
    rw [List.length_cons] at h
    have hp : p.length ≠ e := by omega
    by_cases hstop : stop c = true
    · rw [scan_stop hstop, scan_stop hstop]
    by_cases hbad : bad c = true
    · rw [scan_bad (by simpa using hstop) hbad, scan_bad (by simpa using hstop) hbad]
    · have hc : stop c = false ∧ bad c = false := by simpa using And.intro hstop hbad
      rw [scan_next hc.1 hc.2 (.inr hp), scan_next hc.1 hc.2 (.inl rfl)]
      exact ih (by omega) (i + 1)

theorem seek_cons {o v : ε} {stop bad : β → Bool} {e : ℕ} {c : β} {p : List β}
    (h : p.length + 1 ≠ e) (i : ℕ) (out : σ) :
    (seek r o v stop bad : Reader β σ ε Unit).run e ⟨i, c :: p, out⟩ =
      (scan (some r) o v stop bad).run e ⟨i, c :: p, out⟩ :=
  bind_of_ok (checkEnd_of_ne h)

/-- Elements that neither stop the scan nor are bad can be passed over. -/
theorem seek_append {o v : ε} {stop bad : β → Bool} {e : ℕ} {w q : List β}
    (hw : ∀ x ∈ w, stop x = false ∧ bad x = false) (hq : e ≤ q.length) (i : ℕ) (out : σ) :
    (seek r o v stop bad : Reader β σ ε Unit).run e ⟨i, w ++ q, out⟩ =
      (seek r o v stop bad).run e ⟨i + w.length, q, out⟩ := by
  induction w generalizing i with
  | nil => rfl
  | cons a w ih =>
    have ha := hw a (by simp)
    have hlen : (w ++ q).length + 1 ≠ e := by
      rw [List.length_append]
      omega
    have hrest := ih (fun x hx => hw x (by simp [hx])) (i + 1)
    rw [List.cons_append, seek_cons hlen, List.length_cons, Nat.add_comm w.length, ← Nat.add_assoc,
      ← hrest]
    by_cases hend : (w ++ q).length = e
    · rw [scan_end ha.1 ha.2 hend]
      exact (bind_of_error (checkEnd_of_eq hend)).symm
    · have hcheck := checkEnd_of_ne (r := r) (s := ⟨i + 1, w ++ q, out⟩) hend
      rw [scan_next ha.1 ha.2 (.inr hend), seek, bind_of_ok hcheck]

theorem seek_stop {o v : ε} {stop bad : β → Bool} {e : ℕ} {c : β} {p : List β}
    (hc : stop c = true) (h : e < (c :: p).length) (i : ℕ) (out : σ) :
    (seek r o v stop bad : Reader β σ ε Unit).run e ⟨i, c :: p, out⟩ = .ok () ⟨i, c :: p, out⟩ := by
  rw [List.length_cons] at h
  rw [seek_cons (by omega), scan_stop hc]

theorem seek_eq_ok {o v : ε} {stop bad : β → Bool} {u : Unit} :
    (seek r o v stop bad : Reader β σ ε Unit).run 0 s = .ok u s' ↔
      ∃ w c p, s.Moves w s' ∧ s'.rest = c :: p ∧ stop c = true ∧
        ∀ x ∈ w, stop x = false ∧ bad x = false := by
  unfold seek
  rw [bind_eq_ok]
  constructor
  · rintro ⟨_, t, hcheck, hscan⟩
    obtain ⟨-, rfl⟩ := checkEnd_eq_ok.mp hcheck
    exact scan_eq_ok.mp hscan
  · rintro ⟨w, c, p, h, hp, hrest⟩
    refine ⟨(), s, checkEnd_eq_ok.mpr ⟨?_, rfl⟩, scan_eq_ok.mpr ⟨w, c, p, h, hp, hrest⟩⟩
    rw [h.rest, hp]
    simp

end Passed

/-! ## Settled readers -/

def extendResult : Result β σ ε α → List β → Result β σ ε α
  | .ok a s, x => .ok a (s.extend x)
  | .error r s, x => .error r (s.extend x)

@[simp] theorem extendResult_nil (res : Result β σ ε α) :
    extendResult res [] = res := by
  cases res <;> simp [extendResult]

/-- What a reader does with an input alone: its results and its final errors hold for every longer
input and whatever lies behind, and that the input is too short holds whatever lies behind. -/
structure Settled (final short : ε → Prop) (m : Reader β σ ε α) : Prop where
  ok : ∀ {s a s'}, m.run 0 s = .ok a s' →
    ∀ x b, m.run b.length (s.extend (x ++ b)) = .ok a (s'.extend (x ++ b))
  final : ∀ {s r s'}, m.run 0 s = .error r s' → final r →
    ∀ x b, m.run b.length (s.extend (x ++ b)) = .error r (s'.extend (x ++ b))
  short : ∀ {s r s'}, m.run 0 s = .error r s' → short r →
    ∀ b, m.run b.length (s.extend b) = .error r (s'.extend b)

namespace Settled

variable {final short : ε → Prop} {m : Reader β σ ε α}

/-- The answer of a reader to the input at a cursor: one that holds whatever follows, one that asks
for more input, or an access outside the memory. -/
inductive Answers (final short : ε → Prop) (m : Reader β σ ε α) (s : Cursor β σ) : Prop
  | decided : (∀ x b, m.run b.length (s.extend (x ++ b)) = extendResult (m.run 0 s) (x ++ b)) →
      Answers final short m s
  | short {r : ε} (s' : Cursor β σ) : ¬ final r →
      (∀ b, m.run b.length (s.extend b) = .error r (s'.extend b)) → Answers final short m s
  | outside {r : ε} {s' : Cursor β σ} : ¬ final r → ¬ short r → m.run 0 s = .error r s' →
      Answers final short m s

theorem Answers.of_result {s : Cursor β σ} {y : Result β σ ε α}
    (h : ∀ x b, m.run b.length (s.extend (x ++ b)) = extendResult y (x ++ b)) :
    Answers final short m s := by
  apply Answers.decided
  intro x b
  have h₀ : m.run 0 s = y := by simpa using h [] []
  rw [h, h₀]

theorem Answers.of_eq {s t : Cursor β σ} (h : Answers final short m t)
    (heq : ∀ x b, m.run b.length (s.extend (x ++ b)) = m.run b.length (t.extend (x ++ b))) :
    Answers final short m s := by
  have h₀ : m.run 0 s = m.run 0 t := by simpa using heq [] []
  cases h with
  | decided hd =>
    apply Answers.decided
    intro x b
    rw [heq, hd, h₀]
  | short t' hr hs =>
    apply Answers.short t' hr
    intro b
    exact (heq [] b).trans (hs b)
  | outside hr hr' ho => exact .outside hr hr' (h₀.trans ho)

theorem of_answers (h : ∀ s, Answers final short m s) : Settled final short m where
  ok {s a s'} hm x b := by
    cases h s with
    | decided hd => rw [hd, hm]; rfl
    | short t' hr hs => cases (hs []).symm.trans (s.extend_nil.symm ▸ hm)
    | outside _ _ ho => cases ho.symm.trans hm
  final {s r s'} hm hr x b := by
    cases h s with
    | decided hd => rw [hd, hm]; rfl
    | short t' hnot hs =>
      cases (hs []).symm.trans (s.extend_nil.symm ▸ hm)
      exact absurd hr hnot
    | outside hnot _ ho =>
      cases ho.symm.trans hm
      exact absurd hr hnot
  short {s r s'} hm hr b := by
    cases h s with
    | decided hd =>
      have hb := hd [] b
      rw [hm] at hb
      exact hb
    | short t' hnot hs =>
      have hnil := (hs []).symm.trans (s.extend_nil.symm ▸ hm)
      rw [Cursor.extend_nil] at hnil
      cases hnil
      exact hs b
    | outside _ hnot ho =>
      cases ho.symm.trans hm
      exact absurd hr hnot

theorem of_extend (h : ∀ e s x, m.run e (Cursor.extend s x) = extendResult (m.run 0 s) x) :
    Settled final short m :=
  of_answers fun _ => .decided fun _ _ => h _ _ _

protected theorem pure (a : α) : Settled final short (pure a : Reader β σ ε α) :=
  of_extend fun _ _ _ => rfl

theorem fail (r : ε) : Settled final short (Reader.fail r : Reader β σ ε α) :=
  of_extend fun _ _ _ => rfl

theorem store (f : σ → σ) : Settled final short (Reader.store f : Reader β σ ε Unit) :=
  of_extend fun _ _ _ => rfl

theorem stored (f : σ → α) : Settled final short (Reader.stored f : Reader β σ ε α) :=
  of_extend fun _ _ _ => rfl

theorem offset : Settled final short (Reader.offset : Reader β σ ε ℕ) :=
  of_extend fun _ _ _ => rfl

protected theorem bind {f : α → Reader β σ ε γ} (hm : Settled final short m)
    (hf : ∀ a, Settled final short (f a)) : Settled final short (m >>= f) where
  ok h x b := by
    obtain ⟨a, s', ha, hc⟩ := bind_eq_ok.mp h
    rw [bind_of_ok (hm.ok ha x b), (hf a).ok hc x b]
  final h hr x b := by
    obtain ha | ⟨a, s', ha, hc⟩ := bind_eq_error.mp h
    · rw [bind_of_error (hm.final ha hr x b)]
    · rw [bind_of_ok (hm.ok ha x b), (hf a).final hc hr x b]
  short h hr b := by
    obtain ha | ⟨a, s', ha, hc⟩ := bind_eq_error.mp h
    · rw [bind_of_error (hm.short ha hr b)]
    · have hok := hm.ok ha [] b
      rw [List.nil_append] at hok
      rw [bind_of_ok hok, (hf a).short hc hr b]

theorem ite {c : Prop} [Decidable c] {m' : Reader β σ ε α} (hm : Settled final short m)
    (hm' : Settled final short m') : Settled final short (if c then m else m') := by
  split
  · exact hm
  · exact hm'

theorem of_guard {r : ε} (hfinal : ¬ final r) {P : ℕ → ℕ → Prop} [∀ e n, Decidable (P e n)]
    (hpos : ∀ e n, P 0 n → P e (n + e)) (hneg : ∀ e n k, ¬ P 0 n → ¬ P e (n + (k + e))) :
    Settled final short
      (⟨fun e s => if P e s.rest.length then .error r s else .ok () s⟩ : Reader β σ ε Unit) := by
  apply of_answers
  intro s
  by_cases hn : P 0 s.rest.length
  · apply Answers.short s hfinal
    intro b
    have := hpos b.length s.rest.length hn
    simp only [Cursor.extend_rest, List.length_append, if_pos this]
  · apply Answers.decided
    intro x b
    have := hneg b.length s.rest.length x.length hn
    simp only [Cursor.extend_rest, List.length_append, if_neg this, if_neg hn]
    rfl

theorem require {r : ε} (hfinal : ¬ final r) (n : ℕ) :
    Settled final short (Reader.require r n : Reader β σ ε Unit) := by
  apply of_guard hfinal (P := fun e k => k < e + n)
  · intro e k h
    omega
  · intro e k j h
    omega

theorem checkEnd {r : ε} (hfinal : ¬ final r) :
    Settled final short (Reader.checkEnd r : Reader β σ ε Unit) := by
  apply of_guard hfinal (P := fun e k => k = e)
  · intro e k h
    omega
  · intro e k j h
    omega

theorem current {r : ε} (hfinal : ¬ final r) (hshort : ¬ short r) :
    Settled final short (Reader.current r : Reader β σ ε β) := by
  apply of_answers
  rintro ⟨i, p, out⟩
  cases p with
  | nil => exact .outside hfinal hshort rfl
  | cons c p => exact .decided fun _ _ => rfl

theorem advance {r : ε} (hfinal : ¬ final r) (hshort : ¬ short r) :
    Settled final short (Reader.advance r : Reader β σ ε Unit) := by
  apply of_answers
  rintro ⟨i, p, out⟩
  cases p with
  | nil => exact .outside hfinal hshort rfl
  | cons c p => exact .decided fun _ _ => rfl

theorem scan {q : Option ε} {r : ε} (hq : ∀ r, q = some r → ¬ final r) (hr : ¬ final r)
    (hr' : ¬ short r) (v : ε) (stop bad : β → Bool) :
    Settled final short (Reader.scan q r v stop bad : Reader β σ ε Unit) := by
  apply of_answers
  rintro ⟨i, p, out⟩
  induction p generalizing i with
  | nil => exact .outside hr hr' rfl
  | cons c p ih =>
    cases hstop : stop c with
    | true => exact .of_result (y := .ok () ⟨i, c :: p, out⟩) fun _ _ => scan_stop hstop i _ out
    | false =>
      cases hbad : bad c with
      | true =>
        exact .of_result (y := .error v ⟨i, c :: p, out⟩) fun _ _ =>
          scan_bad hstop hbad i _ out
      | false =>
        by_cases hend : q ≠ none ∧ p = []
        · obtain ⟨hne, rfl⟩ := hend
          obtain ⟨q, rfl⟩ := Option.ne_none_iff_exists'.mp hne
          exact .short ⟨i + 1, [], out⟩ (hq q rfl) fun _ => scan_end hstop hbad rfl i out
        · apply (ih (i + 1)).of_eq
          intro x b
          apply scan_next hstop hbad
          by_cases hnone : q = none
          · exact .inl hnone
          · have hp : p ≠ [] := fun hp => hend ⟨hnone, hp⟩
            have := List.length_pos_iff.mpr hp
            right
            show (p ++ (x ++ b)).length ≠ b.length
            rw [List.length_append, List.length_append]
            omega

theorem span (hm : Settled final short m)
    (hmoves : ∀ {s a s'}, m.run 0 s = .ok a s' → ∃ w, s.Moves w s') :
    Settled final short (Reader.span m) where
  ok {s a s'} h x b := by
    obtain ⟨hc, ha⟩ := span_eq_ok.mp h
    obtain ⟨w, hw⟩ := hmoves hc
    have hlen : s'.offset - s.offset = w.length := by
      rw [hw.offset]
      omega
    apply span_eq_ok.mpr
    refine ⟨hm.ok hc x b, ha.trans ?_⟩
    simp only [Cursor.extend_offset, Cursor.extend_rest, hlen, hw.rest, List.append_assoc,
      List.take_left]
  final h hr x b := span_eq_error.mpr (hm.final (span_eq_error.mp h) hr x b)
  short h hr b := span_eq_error.mpr (hm.short (span_eq_error.mp h) hr b)

theorem part {τ : Type} {get : τ → σ} {set : τ → σ → τ} (hm : Settled final short m) :
    Settled final short (Reader.part get set m) where
  ok h x b := by
    obtain ⟨t, ht, rfl⟩ := part_eq_ok.mp h
    exact part_eq_ok.mpr ⟨_, hm.ok ht x b, rfl⟩
  final h hr x b := by
    obtain ⟨t, ht, rfl⟩ := part_eq_error.mp h
    exact part_eq_error.mpr ⟨_, hm.final ht hr x b, rfl⟩
  short h hr b := by
    obtain ⟨t, ht, rfl⟩ := part_eq_error.mp h
    exact part_eq_error.mpr ⟨_, hm.short ht hr b, rfl⟩

end Settled

/-! ## Readers go forward -/

def Shrinks (m : Reader β σ ε α) : Prop :=
  ∀ e s a s', m.run e s = .ok a s' → s'.rest.length ≤ s.rest.length

namespace Shrinks

variable {m : Reader β σ ε α}

protected theorem bind {f : α → Reader β σ ε γ} (hm : Shrinks m) (hf : ∀ a, Shrinks (f a)) :
    Shrinks (m >>= f) := by
  intro e s c t h
  obtain ⟨a, s', ha, hc⟩ := bind_eq_ok.mp h
  exact Nat.le_trans (hf a e s' c t hc) (hm e s a s' ha)

theorem of_stay (h : ∀ e s a s', m.run e s = .ok a s' → s'.rest = s.rest) : Shrinks m :=
  fun e s a s' ha => Nat.le_of_eq (congrArg List.length (h e s a s' ha))

theorem checkEnd (r : ε) : Shrinks (Reader.checkEnd r : Reader β σ ε Unit) := by
  apply of_stay
  intro e s _ s' h
  unfold Reader.checkEnd at h
  simp only at h
  split_ifs at h
  cases h
  rfl

theorem advance (r : ε) : Shrinks (Reader.advance r : Reader β σ ε Unit) := by
  rintro e s u s' h
  obtain ⟨c, hc⟩ := advance_eq_ok.mp h
  rw [hc.rest, List.length_append]
  exact Nat.le_add_left _ _

theorem scan (q : Option ε) (r v : ε) (stop bad : β → Bool) :
    Shrinks (Reader.scan q r v stop bad : Reader β σ ε Unit) := by
  rintro e ⟨i, p, out⟩ u s' h
  induction p generalizing i with
  | nil => cases h
  | cons c p ih =>
    cases hstop : stop c with
    | true =>
      cases (scan_stop hstop i p out).symm.trans h
      exact Nat.le_refl _
    | false =>
      cases hbad : bad c with
      | true => cases (scan_bad hstop hbad i p out).symm.trans h
      | false =>
        by_cases hp : q = none ∨ p.length ≠ e
        · rw [scan_next hstop hbad hp] at h
          exact Nat.le_trans (ih (i + 1) h) (Nat.le_succ _)
        · obtain ⟨hne, hend⟩ := not_or.mp hp
          obtain ⟨q, rfl⟩ := Option.ne_none_iff_exists'.mp hne
          cases (scan_end hstop hbad (not_not.mp hend) i out).symm.trans h

end Shrinks

/-! ## Errors of a reader -/

/-- On an input alone, from a cursor in `P` the reader ends in `Q` or with an error in `E`. -/
def Ensures (P : Cursor β σ → Prop) (m : Reader β σ ε α) (Q : α → Cursor β σ → Prop)
    (E : ε → Prop) : Prop :=
  ∀ s, P s → (∀ a s', m.run 0 s = .ok a s' → Q a s') ∧ ∀ r s', m.run 0 s = .error r s' → E r

namespace Ensures

variable {P : Cursor β σ → Prop} {m : Reader β σ ε α} {Q : α → Cursor β σ → Prop} {E : ε → Prop}

protected theorem bind {f : α → Reader β σ ε γ} {R : γ → Cursor β σ → Prop}
    (hm : Ensures P m Q E) (hf : ∀ a, Ensures (Q a) (f a) R E) : Ensures P (m >>= f) R E := by
  intro s hs
  obtain ⟨hok, herror⟩ := hm s hs
  constructor
  · intro c t h
    obtain ⟨a, s', ha, hc⟩ := bind_eq_ok.mp h
    exact (hf a s' (hok a s' ha)).1 c t hc
  · intro r t h
    rcases bind_eq_error.mp h with ha | ⟨a, s', ha, hc⟩
    · exact herror r t ha
    · exact (hf a s' (hok a s' ha)).2 r t hc

theorem weaken {P' : Cursor β σ → Prop} {Q' : α → Cursor β σ → Prop} (h : Ensures P m Q E)
    (hP : ∀ s, P' s → P s) (hQ : ∀ a s, Q a s → Q' a s) : Ensures P' m Q' E :=
  fun s hs => ⟨fun a s' ha => hQ a s' ((h s (hP s hs)).1 a s' ha), (h s (hP s hs)).2⟩

theorem ite {c : Prop} [Decidable c] {m' : Reader β σ ε α} (h : c → Ensures P m Q E)
    (h' : ¬ c → Ensures P m' Q E) : Ensures P (if c then m else m') Q E := by
  split
  · exact h ‹_›
  · exact h' ‹_›

theorem of_ok (h : ∀ s, P s → ∃ a s', m.run 0 s = .ok a s' ∧ Q a s') : Ensures P m Q E := by
  intro s hs
  obtain ⟨a, s', ha, hq⟩ := h s hs
  constructor
  · intro b t hb
    cases ha.symm.trans hb
    exact hq
  · intro r t hr
    cases ha.symm.trans hr

theorem part {τ : Type} {get : τ → σ} {set : τ → σ → τ} {P Q : List β → Prop}
    (h : Ensures (fun s => P s.rest) m (fun _ s => Q s.rest) E) :
    Ensures (fun s => P s.rest) (Reader.part get set m) (fun _ s => Q s.rest) E := by
  intro s hs
  obtain ⟨hok, herror⟩ := h ⟨s.offset, s.rest, get s.out⟩ hs
  constructor
  · intro a s' ha
    obtain ⟨t, ht, rfl⟩ := part_eq_ok.mp ha
    exact hok a t ht
  · intro r s' hr
    obtain ⟨t, ht, rfl⟩ := part_eq_error.mp hr
    exact herror r t ht

theorem fail {r : ε} (h : E r) : Ensures P (Reader.fail r : Reader β σ ε α) Q E := by
  intro s _
  constructor
  · intro a s' ha
    cases ha
  · intro r' s' hr
    cases hr
    exact h

theorem checkEnd {r : ε} (h : E r) :
    Ensures P (Reader.checkEnd r : Reader β σ ε Unit) (fun _ s => P s ∧ s.rest ≠ []) E := by
  intro s hs
  constructor
  · intro _ s' hok
    obtain ⟨hne, rfl⟩ := checkEnd_eq_ok.mp hok
    exact ⟨hs, hne⟩
  · intro r' s' herror
    unfold Reader.checkEnd at herror
    simp only at herror
    split_ifs at herror
    cases herror
    exact h

theorem require {r : ε} (h : E r) (n : ℕ) :
    Ensures P (Reader.require r n : Reader β σ ε Unit) (fun _ s => P s ∧ n ≤ s.rest.length) E := by
  intro s hs
  constructor
  · intro _ s' hok
    obtain ⟨hn, rfl⟩ := require_eq_ok.mp hok
    exact ⟨hs, hn⟩
  · intro r' s' herror
    unfold Reader.require at herror
    simp only at herror
    split_ifs at herror
    cases herror
    exact h

theorem current {r : ε} (h : ∀ s, P s → s.rest ≠ []) :
    Ensures P (Reader.current r : Reader β σ ε β) (fun c s => P s ∧ ∃ p, s.rest = c :: p) E := by
  apply of_ok
  intro s hs
  obtain ⟨c, p, hp⟩ := List.exists_cons_of_ne_nil (h s hs)
  exact ⟨c, s, current_eq_ok.mpr ⟨⟨p, hp⟩, rfl⟩, hs, p, hp⟩

theorem advance {r : ε} (n : ℕ) :
    Ensures (fun s => n + 1 ≤ s.rest.length) (Reader.advance r : Reader β σ ε Unit)
      (fun _ s => n ≤ s.rest.length) E := by
  apply of_ok
  rintro ⟨i, p, out⟩ hs
  obtain ⟨c, p, rfl⟩ := List.exists_cons_of_ne_nil (List.length_pos_iff.mp (Nat.zero_lt_of_lt hs))
  exact ⟨(), ⟨i + 1, p, out⟩, rfl, Nat.le_of_succ_le_succ hs⟩

theorem scan {r o v : ε} (hr : E r) (hv : E v) (stop bad : β → Bool) :
    Ensures (fun s => s.rest ≠ []) (Reader.scan (some r) o v stop bad : Reader β σ ε Unit)
      (fun _ s => ∃ c p, s.rest = c :: p ∧ stop c = true) E := by
  rintro ⟨i, p, out⟩ hs
  constructor
  · intro _ s' hok
    obtain ⟨w, c, q, -, hq, hc, -⟩ := scan_eq_ok.mp hok
    exact ⟨c, q, hq, hc⟩
  · intro r' s' herror
    induction p generalizing i with
    | nil => exact absurd rfl hs
    | cons c p ih =>
      cases hstop : stop c with
      | true => cases (scan_stop hstop i p out).symm.trans herror
      | false =>
        cases hbad : bad c with
        | true =>
          cases (scan_bad hstop hbad i p out).symm.trans herror
          exact hv
        | false =>
          by_cases hp : p.length = 0
          · cases (scan_end hstop hbad hp i out).symm.trans herror
            exact hr
          · rw [scan_next hstop hbad (.inr hp)] at herror
            exact ih (i + 1) (fun h => hp (by rw [show p = [] from h]; rfl)) herror

end Ensures

end Reader

end LibReactor.Incremental
