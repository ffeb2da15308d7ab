import LibReactor.RequestHead

/-!
# What the parser decides on

The parts of the parser are settled readers: what they decide on the input alone holds
whatever lies behind it, and their results and errors are final. All of them but the
loops over spaces stay in the input.
-/

namespace LibReactor.Phr

open Incremental

/-! ## The parser decides on its input -/

def Final (r : Stop) : Prop := r = .invalid

def Short (r : Stop) : Prop := r = .incomplete

abbrev Settles {α : Type} (m : Parse α) : Prop := Reader.Settled Final Short m

theorem settles_checkEof : Settles checkEof := .checkEnd (by rintro ⟨⟩)

theorem settles_deref : Settles deref := .current (by rintro ⟨⟩) (by rintro ⟨⟩)

theorem settles_incr : Settles incr := .advance (by rintro ⟨⟩) (by rintro ⟨⟩)

theorem settles_scan {q : Option Stop} (hq : ∀ r, q = some r → ¬ Final r) (stop bad : UInt8 → Bool) :
    Settles (.scan q (.fault .outside) .invalid stop bad) :=
  .scan hq (by rintro ⟨⟩) (by rintro ⟨⟩) _ _ _

theorem settles_seek (stop bad : UInt8 → Bool) :
    Settles (.seek .incomplete (.fault .outside) .invalid stop bad) :=
  settles_checkEof.bind fun _ => settles_scan (by rintro _ ⟨⟩ ⟨⟩) stop bad

theorem settles_expectCharNoCheck (c : UInt8) : Settles (expectCharNoCheck c) :=
  settles_deref.bind fun _ => .ite (.fail _) settles_incr

theorem settles_expectChar (c : UInt8) : Settles (expectChar c) :=
  settles_checkEof.bind fun _ => settles_expectCharNoCheck c

theorem settles_lineEnd {k : Parse Unit} (h : Settles k) : Settles (lineEnd k) :=
  settles_deref.bind fun _ =>
    .ite (settles_incr.bind fun _ => settles_expectChar lf) (.ite settles_incr h)

theorem settles_advanceToken (sse : Bool) : Settles (advanceToken sse) := by
  unfold advanceToken
  rw [searchThen_space]
  apply Reader.Settled.bind (.offset)
  intro start
  apply Reader.Settled.bind (settles_seek _ _)
  intro _
  apply Reader.Settled.bind (.offset)
  intro stop
  exact .pure _

theorem settles_skipSpaces : Settles skipSpaces :=
  settles_incr.bind fun _ => settles_scan (by rintro _ ⟨⟩) _ _

theorem settles_parseTargets (sse : Bool) : Settles (parseTargets sse) := by
  apply Reader.Settled.bind (settles_advanceToken sse)
  intro method
  apply Reader.Settled.bind (.store _)
  intro _
  apply Reader.Settled.bind settles_skipSpaces
  intro _
  apply Reader.Settled.bind (settles_advanceToken sse)
  intro path
  apply Reader.Settled.bind (.store _)
  intro _
  exact settles_skipSpaces

theorem settles_parseHttpVersion : Settles parseHttpVersion := by
  have hchar : ∀ {α : Type} (c : UInt8) {k : Parse α}, Settles k →
      Settles (expectCharNoCheck c >>= fun _ => k) := fun c _ hk =>
    (settles_expectCharNoCheck c).bind fun _ => hk
  apply Reader.Settled.bind (.require (by rintro ⟨⟩) 9)
  intro _
  iterate 7 apply hchar
  apply settles_deref.bind
  intro c
  exact .ite (.fail _) (settles_incr.bind fun _ => .pure _)

theorem settles_parseName (sse : Bool) : Settles (parseName sse) := by
  unfold parseName
  rw [searchThen_colon]
  apply Reader.Settled.bind (.offset)
  intro name
  apply Reader.Settled.bind (settles_seek _ _)
  intro _
  apply Reader.Settled.bind (.offset)
  intro buf
  apply Reader.Settled.ite (.fail _)
  apply settles_incr.bind
  intro _
  apply settles_checkEof.bind
  intro _
  apply Reader.Settled.bind (settles_scan (by rintro _ ⟨⟩ ⟨⟩) _ _)
  intro _
  exact .pure _

theorem settles_getTokenToEol (sse : Bool) : Settles (getTokenToEol sse) := by
  unfold getTokenToEol
  rw [findCtl_eq]
  apply Reader.Settled.bind (settles_seek _ _)
  intro _
  apply Reader.Settled.bind (.offset)
  intro buf
  apply Reader.Settled.bind (settles_lineEnd (.fail _))
  intro _
  exact .pure _

theorem settles_parseValue (sse : Bool) (name : Data) : Settles (parseValue sse name) := by
  apply Reader.Settled.bind (.offset)
  intro value
  apply Reader.Settled.bind
  · apply (settles_getTokenToEol sse).span
    intro s k s' h
    obtain ⟨w, l, hmoves, -⟩ := getTokenToEol_eq_ok.mp h
    exact ⟨_, hmoves⟩
  · intro token
    exact .store _

theorem settles_parseHeader (sse : Bool) : Settles (parseHeader sse) := by
  apply settles_deref.bind
  intro c
  apply Reader.Settled.bind (.stored _)
  intro first
  apply Reader.Settled.ite
  · exact (settles_parseName sse).bind fun name => settles_parseValue sse name
  · exact settles_parseValue sse .null

theorem settles_parseHeaders (sse : Bool) (room : ℕ) : Settles (parseHeaders sse room) := by
  induction room with
  | zero => exact settles_checkEof.bind fun _ => settles_lineEnd (.fail _)
  | succ room ih =>
    apply settles_checkEof.bind
    intro _
    apply settles_lineEnd
    exact (settles_parseHeader sse).bind fun _ => ih

theorem settles_afterTargets (sse : Bool) (maxHeaders : ℕ) :
    Settles (afterTargets sse maxHeaders) := by
  apply Reader.Settled.bind (.stored _)
  intro empty
  apply Reader.Settled.ite (.fail _)
  apply settles_parseHttpVersion.bind
  intro minor
  apply Reader.Settled.bind (.store _)
  intro _
  apply (settles_lineEnd (.fail _)).bind
  intro _
  exact settles_parseHeaders sse maxHeaders

theorem settles_parseRequest (sse : Bool) (maxHeaders : ℕ) :
    Settles (parseRequest sse maxHeaders) := by
  apply settles_checkEof.bind
  intro _
  apply (settles_lineEnd (.pure _)).bind
  intro _
  apply (settles_parseTargets sse).bind
  intro _
  exact settles_afterTargets sse maxHeaders

/-! ## Staying in the input -/

/-- The parser has returned without an access outside the memory. -/
def Inside (r : Stop) : Prop := ∀ f, r ≠ .fault f

abbrev Stays {α : Type} (P : Cursor UInt8 Head → Prop) (m : Parse α)
    (Q : α → Cursor UInt8 Head → Prop) : Prop := Reader.Ensures P m Q Inside

def Nonempty (s : Cursor UInt8 Head) : Prop := s.rest ≠ []

def Anywhere (_ : Cursor UInt8 Head) : Prop := True

theorem inside_invalid : Inside .invalid := by rintro _ ⟨⟩

theorem inside_incomplete : Inside .incomplete := by rintro _ ⟨⟩

theorem stays_checkEof : Stays Anywhere checkEof (fun _ => Nonempty) :=
  (Reader.Ensures.checkEnd inside_incomplete).weaken (fun _ h => h) (fun _ _ h => h.2)

theorem stays_seek (stop bad : UInt8 → Bool) :
    Stays Anywhere (.seek .incomplete (.fault .outside) .invalid stop bad) (fun _ => Nonempty) := by
  apply stays_checkEof.bind
  intro _
  apply (Reader.Ensures.scan inside_incomplete inside_invalid stop bad).weaken (fun _ h => h)
  rintro _ s ⟨c, p, hp, -⟩ hnil
  rw [hnil] at hp
  cases hp

theorem stays_expectCharNoCheck (c : UInt8) (n : ℕ) :
    Stays (fun s => n + 1 ≤ s.rest.length) (expectCharNoCheck c)
      (fun _ s => n ≤ s.rest.length) := by
  apply Reader.Ensures.bind (Reader.Ensures.current _)
  · intro a
    apply Reader.Ensures.ite
    · intro _
      exact .fail inside_invalid
    · intro _
      exact (Reader.Ensures.advance n).weaken (fun s h => h.1) (fun _ _ h => h)
  · intro s hs hnil
    rw [hnil] at hs
    simp at hs

theorem stays_expectChar (c : UInt8) : Stays Anywhere (expectChar c) (fun _ => Anywhere) := by
  apply stays_checkEof.bind
  intro _
  apply (stays_expectCharNoCheck c 0).weaken
  · intro s hs
    exact List.length_pos_iff.mpr hs
  · intro _ _ _
    trivial

theorem stays_incr : Stays Nonempty incr (fun _ => Anywhere) :=
  (Reader.Ensures.advance 0).weaken (fun _ h => List.length_pos_iff.mpr h) (fun _ _ _ => trivial)

theorem stays_lineEnd {k : Parse Unit} (h : Stays Nonempty k (fun _ => Anywhere)) :
    Stays Nonempty (lineEnd k) (fun _ => Anywhere) := by
  apply Reader.Ensures.bind (Reader.Ensures.current fun _ h => h)
  intro c
  apply Reader.Ensures.ite
  · intro _
    apply Reader.Ensures.bind (stays_incr.weaken (fun _ h => h.1) (fun _ _ h => h))
    intro _
    exact stays_expectChar lf
  · intro _
    apply Reader.Ensures.ite
    · intro _
      exact stays_incr.weaken (fun _ h => h.1) (fun _ _ h => h)
    · intro _
      exact h.weaken (fun _ h => h.1) (fun _ _ h => h)

theorem stays_invalid {α : Type} {P : Cursor UInt8 Head → Prop}
    {Q : α → Cursor UInt8 Head → Prop} : Stays P (invalid : Parse α) Q := .fail inside_invalid

theorem stays_advanceToken (sse : Bool) :
    Stays Anywhere (advanceToken sse) (fun _ => Anywhere) := by
  unfold advanceToken
  rw [searchThen_space]
  apply Reader.Ensures.bind (Q := fun _ => Anywhere) (.of_ok fun s _ => ⟨_, s, rfl, trivial⟩)
  intro start
  apply Reader.Ensures.bind (stays_seek _ _)
  intro _
  exact .of_ok fun s _ => ⟨_, s, rfl, trivial⟩

theorem stays_parseHttpVersion : Stays Anywhere parseHttpVersion (fun _ => Nonempty) := by
  have hword : Stays Anywhere parseHttpVersion (fun _ => Anywhere) := by
    have hchar : ∀ (n : ℕ) (c : UInt8) {k : Parse ℤ},
        Stays (fun s => n ≤ s.rest.length) k (fun _ => Anywhere) →
        Stays (fun s => n + 1 ≤ s.rest.length) (expectCharNoCheck c >>= fun _ => k)
          (fun _ => Anywhere) := fun n c _ hk => (stays_expectCharNoCheck c n).bind fun _ => hk
    apply Reader.Ensures.bind
      ((Reader.Ensures.require inside_incomplete 9).weaken (fun _ h => h) (fun _ _ h => h.2))
    intro _
    iterate 7 apply hchar
    apply Reader.Ensures.bind (Reader.Ensures.current _)
    · intro c
      apply Reader.Ensures.ite
      · intro _
        exact stays_invalid
      · intro _
        apply Reader.Ensures.bind (stays_incr.weaken _ (fun _ _ h => h))
        · intro _
          exact .of_ok fun s _ => ⟨_, s, rfl, trivial⟩
        · rintro s ⟨-, p, hp⟩ hnil
          rw [hp] at hnil
          cases hnil
    · intro s hs hnil
      rw [hnil] at hs
      simp at hs
  intro s hs
  refine ⟨fun v s' h => ?_, (hword s hs).2⟩
  obtain ⟨n, -, -, hne, -⟩ := parseHttpVersion_eq_ok.mp h
  exact hne

theorem stays_parseName (sse : Bool) : Stays Anywhere (parseName sse) (fun _ => Nonempty) := by
  have hname : Stays Anywhere (parseName sse) (fun _ => Anywhere) := by
    unfold parseName
    rw [searchThen_colon]
    apply Reader.Ensures.bind (Q := fun _ => Anywhere) (.of_ok fun s _ => ⟨_, s, rfl, trivial⟩)
    intro name
    apply Reader.Ensures.bind (stays_seek _ _)
    intro _
    apply Reader.Ensures.bind (Q := fun _ => Nonempty) (.of_ok fun s hs => ⟨_, s, rfl, hs⟩)
    intro buf
    apply Reader.Ensures.ite
    · intro _
      exact stays_invalid
    · intro _
      apply stays_incr.bind
      intro _
      apply stays_checkEof.bind
      intro _
      apply Reader.Ensures.bind (Reader.Ensures.scan inside_incomplete inside_invalid _ _)
      intro _
      exact .of_ok fun s _ => ⟨_, s, rfl, trivial⟩
  intro s hs
  refine ⟨fun d s' h hnil => ?_, (hname s hs).2⟩
  obtain ⟨n, b, c, p, -, -, -, -, hp, -⟩ := parseName_eq_ok.mp h
  rw [hp] at hnil
  cases hnil

theorem stays_getTokenToEol (sse : Bool) :
    Stays Anywhere (getTokenToEol sse) (fun _ => Anywhere) := by
  unfold getTokenToEol
  rw [findCtl_eq]
  apply Reader.Ensures.bind (stays_seek _ _)
  intro _
  apply Reader.Ensures.bind (Q := fun _ => Nonempty) (.of_ok fun s hs => ⟨_, s, rfl, hs⟩)
  intro buf
  apply Reader.Ensures.bind (stays_lineEnd stays_invalid)
  intro _
  exact .of_ok fun s _ => ⟨_, s, rfl, trivial⟩

theorem stays_parseValue (sse : Bool) (name : Data) :
    Stays Anywhere (parseValue sse name) (fun _ => Anywhere) := by
  apply Reader.Ensures.bind (Q := fun _ => Anywhere) (.of_ok fun s _ => ⟨_, s, rfl, trivial⟩)
  intro value
  apply Reader.Ensures.bind (Q := fun _ => Anywhere)
  · intro s hs
    refine ⟨fun _ _ _ => trivial, fun r s' h => ?_⟩
    exact (stays_getTokenToEol sse s hs).2 r s' (Reader.span_eq_error.mp h)
  · intro token
    exact .of_ok fun s _ => ⟨_, _, rfl, trivial⟩

theorem stays_parseHeader (sse : Bool) :
    Stays Nonempty (parseHeader sse) (fun _ => Anywhere) := by
  apply Reader.Ensures.bind (Reader.Ensures.current fun _ h => h)
  intro c
  apply Reader.Ensures.bind (Q := fun _ => Anywhere) (.of_ok fun s _ => ⟨_, s, rfl, trivial⟩)
  intro first
  apply Reader.Ensures.ite
  · intro _
    apply (stays_parseName sse).bind
    intro name
    exact (stays_parseValue sse name).weaken (fun _ _ => trivial) (fun _ _ h => h)
  · intro _
    exact stays_parseValue sse .null

theorem stays_parseHeaders (sse : Bool) (room : ℕ) :
    Stays Anywhere (parseHeaders sse room) (fun _ => Anywhere) := by
  induction room with
  | zero => exact stays_checkEof.bind fun _ => stays_lineEnd stays_invalid
  | succ room ih =>
    apply stays_checkEof.bind
    intro _
    apply stays_lineEnd
    exact (stays_parseHeader sse).bind fun _ => ih

theorem stays_afterTargets (sse : Bool) (maxHeaders : ℕ) :
    Stays Anywhere (afterTargets sse maxHeaders) (fun _ => Anywhere) := by
  apply Reader.Ensures.bind (Q := fun _ => Anywhere) (.of_ok fun s _ => ⟨_, s, rfl, trivial⟩)
  intro empty
  apply Reader.Ensures.ite
  · intro _
    exact stays_invalid
  · intro _
    apply stays_parseHttpVersion.bind
    intro minor
    apply Reader.Ensures.bind (Q := fun _ => Nonempty)
    · exact .of_ok fun s hs => ⟨(), _, Reader.store_run _ _ _, hs⟩
    intro _
    apply (stays_lineEnd stays_invalid).bind
    intro _
    exact stays_parseHeaders sse maxHeaders

end LibReactor.Phr
