import LibReactor.PicohttpparserBlocks

/-!
# The requests the parser accepts

`RequestHead` is the syntax of a request line with its header fields, down to the choice
of line ends and the blanks. The parser accepts exactly the inputs that begin with such
a head, and what it stores are the places of the head's parts.
-/

namespace LibReactor.Phr

open Incremental

/-! ## Syntax -/

inductive LineEnd
  | lf
  | crlf
  deriving DecidableEq, Repr

def LineEnd.bytes : LineEnd → Bytes
  | .lf => [10]
  | .crlf => [cr, 10]

def isTargetByte (c : UInt8) : Bool := 32 < c && c != del

/-- A line of the header: a name, a colon and a text, or more text of the field before. -/
structure FieldLine where
  /-- the name, and the blanks behind the colon -/
  name : Option (Bytes × Bytes)
  text : Bytes
  lineEnd : LineEnd
  name_ne : ∀ n b, name = some (n, b) → n ≠ []
  name_bytes : ∀ n b, name = some (n, b) → ∀ c ∈ n, isTokenChar c = true
  name_blanks : ∀ n b, name = some (n, b) → ∀ c ∈ b, isBlank c = true
  text_bytes : ∀ c ∈ text, isCtl c = false
  text_first : name ≠ none → ∀ c ∈ text.head?, isBlank c = false
  text_blank : name = none → ∃ c ∈ text.head?, isBlank c = true

namespace FieldLine

def lead (f : FieldLine) : Bytes :=
  match f.name with
  | some (n, b) => n ++ ch ':' :: b
  | none => []

def bytes (f : FieldLine) : Bytes := f.lead ++ (f.text ++ f.lineEnd.bytes)

def value (f : FieldLine) : Bytes := f.text.rdropWhile isBlank

/-- The places of a line's parts when it begins at the position `i`. -/
def field (f : FieldLine) (i : ℕ) : HttpField where
  name := match f.name with
    | some (n, _) => ⟨i, n.length⟩
    | none => .null
  value := ⟨i + f.lead.length, f.value.length⟩

def fields : ℕ → List FieldLine → List HttpField
  | _, [] => []
  | i, f :: fs => f.field i :: fields (i + f.bytes.length) fs

end FieldLine

structure RequestHead (maxHeaders : ℕ) where
  /-- what may lie between two requests -/
  emptyLine : Option LineEnd
  method : Bytes
  /-- the spaces behind the method and the path, less one -/
  spaces : ℕ × ℕ
  path : Bytes
  minorVersion : ℕ
  lineEnd : LineEnd
  headers : List FieldLine
  last : LineEnd
  method_ne : method ≠ []
  method_bytes : ∀ c ∈ method, isTargetByte c = true
  path_ne : path ≠ []
  path_bytes : ∀ c ∈ path, isTargetByte c = true
  minorVersion_lt : minorVersion < 10
  headers_le : headers.length ≤ maxHeaders
  headers_first : ∀ f ∈ headers.head?, f.name ≠ none

namespace RequestHead

variable {maxHeaders : ℕ} (h : RequestHead maxHeaders)

def emptyBytes : Bytes := (h.emptyLine.map LineEnd.bytes).getD []

def spaces₁ : Bytes := List.replicate (h.spaces.1 + 1) space

def spaces₂ : Bytes := List.replicate (h.spaces.2 + 1) space

def version : Bytes := str "HTTP/1." ++ [48 + UInt8.ofNat h.minorVersion]

def requestLine : Bytes :=
  h.emptyBytes ++ h.method ++ h.spaces₁ ++ h.path ++ h.spaces₂ ++ h.version ++ h.lineEnd.bytes

def bytes : Bytes := h.requestLine ++ h.headers.flatMap FieldLine.bytes ++ h.last.bytes

def places : Head where
  method := ⟨h.emptyBytes.length, h.method.length⟩
  path := ⟨(h.emptyBytes ++ h.method ++ h.spaces₁).length, h.path.length⟩
  minorVersion := h.minorVersion
  headers := FieldLine.fields h.requestLine.length h.headers

end RequestHead

/-! ## What the parts of the parser pass over -/

section Passed

variable {s s' : Cursor UInt8 Head}

theorem expectCharNoCheck_eq_ok {e : ℕ} {c : UInt8} {u : Unit} :
    (expectCharNoCheck c).run e s = .ok u s' ↔ s.Moves [c] s' := by
  unfold expectCharNoCheck deref incr invalid
  rw [Reader.bind_eq_ok]
  constructor
  · rintro ⟨a, t, ha, hrest⟩
    obtain ⟨⟨p, hp⟩, rfl⟩ := Reader.current_eq_ok.mp ha
    split_ifs at hrest with hne
    · cases hrest
    · obtain ⟨b, hb⟩ := Reader.advance_eq_ok.mp hrest
      have := hb.rest
      rw [hp] at this
      obtain ⟨rfl, -⟩ := List.cons.inj this
      rwa [not_not.mp hne] at hb
  · intro h
    refine ⟨c, s, Reader.current_eq_ok.mpr ⟨⟨s'.rest, h.rest⟩, rfl⟩, ?_⟩
    rw [if_neg (by simp)]
    exact Reader.advance_eq_ok.mpr ⟨c, h⟩

theorem expectChar_eq_ok {c : UInt8} {u : Unit} :
    (expectChar c).run 0 s = .ok u s' ↔ s.Moves [c] s' := by
  unfold expectChar checkEof
  rw [Reader.bind_eq_ok]
  constructor
  · rintro ⟨a, t, ha, hrest⟩
    obtain ⟨-, rfl⟩ := Reader.checkEnd_eq_ok.mp ha
    exact expectCharNoCheck_eq_ok.mp hrest
  · intro h
    refine ⟨(), s, Reader.checkEnd_eq_ok.mpr ⟨?_, rfl⟩, expectCharNoCheck_eq_ok.mpr h⟩
    rw [h.rest]
    simp

theorem lineEnd_eq_ok {k : Parse Unit} {u : Unit} :
    (lineEnd k).run 0 s = .ok u s' ↔ (∃ l : LineEnd, s.Moves l.bytes s') ∨
      ∃ c p, s.rest = c :: p ∧ c ≠ cr ∧ c ≠ lf ∧ k.run 0 s = .ok u s' := by
  unfold lineEnd deref incr
  rw [Reader.bind_eq_ok]
  constructor
  · rintro ⟨c, t, hc, hrest⟩
    obtain ⟨⟨p, hp⟩, rfl⟩ := Reader.current_eq_ok.mp hc
    split_ifs at hrest with hcr hlf
    · obtain ⟨_, t, hadvance, hexpect⟩ := Reader.bind_eq_ok.mp hrest
      obtain ⟨b, hb⟩ := Reader.advance_eq_ok.mp hadvance
      have hfirst := hb.rest
      rw [hp] at hfirst
      obtain ⟨rfl, -⟩ := List.cons.inj hfirst
      subst hcr
      exact .inl ⟨.crlf, hb.trans (expectChar_eq_ok.mp hexpect)⟩
    · obtain ⟨b, hb⟩ := Reader.advance_eq_ok.mp hrest
      have hfirst := hb.rest
      rw [hp] at hfirst
      obtain ⟨rfl, -⟩ := List.cons.inj hfirst
      subst hlf
      exact .inl ⟨.lf, hb⟩
    · exact .inr ⟨c, p, hp, hcr, hlf, hrest⟩
  · rintro (⟨l, hl⟩ | ⟨c, p, hp, hcr, hlf, hk⟩)
    · cases l with
      | lf =>
        refine ⟨lf, s, Reader.current_eq_ok.mpr ⟨⟨_, hl.rest⟩, rfl⟩, ?_⟩
        rw [if_neg (by decide), if_pos rfl]
        exact Reader.advance_eq_ok.mpr ⟨lf, hl⟩
      | crlf =>
        refine ⟨cr, s, Reader.current_eq_ok.mpr ⟨⟨_, hl.rest⟩, rfl⟩, ?_⟩
        rw [if_pos rfl]
        obtain ⟨t, ht, ht'⟩ := hl.split [cr] [lf] rfl
        exact Reader.bind_eq_ok.mpr ⟨(), t, Reader.advance_eq_ok.mpr ⟨cr, ht⟩,
          expectChar_eq_ok.mpr ht'⟩
    · refine ⟨c, s, Reader.current_eq_ok.mpr ⟨⟨p, hp⟩, rfl⟩, ?_⟩
      rwa [if_neg hcr, if_neg hlf]

theorem isTargetByte_iff (c : UInt8) : isTargetByte c = true ↔
    (c == space) = false ∧ (!isPrintableAscii c && (c < 32 || c == del)) = false := by
  rw [isCtl_token]
  simp only [isTargetByte, Bool.and_eq_true, decide_eq_true_eq, bne_iff_ne, ne_eq,
    beq_eq_false_iff_ne, decide_eq_false_iff_not, UInt8.lt_iff_toNat_lt, UInt8.ext_iff, space, del,
    UInt8.reduceToNat]
  omega

theorem advanceToken_eq_ok {sse : Bool} {d : Data} :
    (advanceToken sse).run 0 s = .ok d s' ↔ ∃ w p, s.Moves w s' ∧ s'.rest = space :: p ∧
      (∀ c ∈ w, isTargetByte c = true) ∧ d = ⟨s.offset, w.length⟩ := by
  unfold advanceToken
  rw [searchThen_space, Reader.bind_of_ok (Reader.offset_run 0 s), Reader.bind_eq_ok]
  constructor
  · rintro ⟨_, t, hseek, hrest⟩
    obtain ⟨w, c, p, hw, hp, hc, hbytes⟩ := Reader.seek_eq_ok.mp hseek
    rw [Reader.bind_of_ok (Reader.offset_run 0 t)] at hrest
    obtain ⟨rfl, rfl⟩ := Reader.pure_eq_ok.mp hrest
    rw [beq_iff_eq] at hc
    subst hc
    refine ⟨w, p, hw, hp, fun c hc => (isTargetByte_iff c).mpr (hbytes c hc), ?_⟩
    rw [hw.offset, Nat.add_sub_cancel_left]
  · rintro ⟨w, p, hw, hp, hbytes, rfl⟩
    refine ⟨(), s', Reader.seek_eq_ok.mpr ⟨w, space, p, hw, hp, rfl,
      fun c hc => (isTargetByte_iff c).mp (hbytes c hc)⟩, ?_⟩
    rw [Reader.bind_of_ok (Reader.offset_run 0 s'), hw.offset, Nat.add_sub_cancel_left]
    rfl

theorem skipSpaces_eq_ok {u : Unit} : skipSpaces.run 0 s = .ok u s' ↔
    ∃ a n c p, s.Moves (a :: List.replicate n space) s' ∧ s'.rest = c :: p ∧ c ≠ space := by
  unfold skipSpaces incr
  rw [Reader.bind_eq_ok]
  constructor
  · rintro ⟨_, t, hadvance, hscan⟩
    obtain ⟨a, ha⟩ := Reader.advance_eq_ok.mp hadvance
    obtain ⟨w, c, p, hw, hp, hc, hbytes⟩ := Reader.scan_eq_ok.mp hscan
    have hspaces : w = List.replicate w.length space :=
      List.eq_replicate_of_mem fun x hx => by simpa using (hbytes x hx).1
    refine ⟨a, w.length, c, p, ?_, hp, by simpa using hc⟩
    rw [← hspaces]
    exact ha.trans hw
  · rintro ⟨a, n, c, p, h, hp, hc⟩
    obtain ⟨t, ha, hw⟩ := h.split [a] (List.replicate n space) rfl
    refine ⟨(), t, Reader.advance_eq_ok.mpr ⟨a, ha⟩, Reader.scan_eq_ok.mpr
      ⟨_, c, p, hw, hp, by simpa using hc, fun x hx => ?_⟩⟩
    rw [List.eq_of_mem_replicate hx]
    exact ⟨rfl, rfl⟩

theorem expectChars_eq_ok {α : Type} {e : ℕ} {a : α} {c : UInt8} {k : Parse α} :
    (expectCharNoCheck c >>= fun _ => k).run e s = .ok a s' ↔
      ∃ t, s.Moves [c] t ∧ k.run e t = .ok a s' := by
  rw [Reader.bind_eq_ok]
  constructor
  · rintro ⟨_, t, ht, hk⟩
    exact ⟨t, expectCharNoCheck_eq_ok.mp ht, hk⟩
  · rintro ⟨t, ht, hk⟩
    exact ⟨(), t, expectCharNoCheck_eq_ok.mpr ht, hk⟩

/-- The minor version behind `HTTP/1.` -/
theorem digit_eq_ok {v : ℤ} :
    (deref >>= fun c => if c < ch '0' ∨ ch '9' < c then invalid
      else incr >>= fun _ => pure ((c.toNat : ℤ) - 48) : Parse ℤ).run 0 s = .ok v s' ↔
    ∃ n < 10, s.Moves [48 + UInt8.ofNat n] s' ∧ v = n := by
  have hdigit : ∀ n < 10, ¬ (48 + UInt8.ofNat n < ch '0' ∨ ch '9' < 48 + UInt8.ofNat n) ∧
      ((48 + UInt8.ofNat n).toNat : ℤ) - 48 = n := by decide
  unfold deref incr invalid
  rw [Reader.bind_eq_ok]
  constructor
  · rintro ⟨c, t, hc, hrest⟩
    obtain ⟨⟨p, hp⟩, rfl⟩ := Reader.current_eq_ok.mp hc
    split_ifs at hrest with hbad
    · cases hrest
    obtain ⟨_, t, hadvance, hpure⟩ := Reader.bind_eq_ok.mp hrest
    obtain ⟨rfl, rfl⟩ := Reader.pure_eq_ok.mp hpure
    obtain ⟨b, hb⟩ := Reader.advance_eq_ok.mp hadvance
    have hfirst := hb.rest
    rw [hp] at hfirst
    obtain ⟨rfl, -⟩ := List.cons.inj hfirst
    simp only [not_or, UInt8.lt_iff_toNat_lt, not_lt] at hbad
    have hlow : 48 ≤ c.toNat := hbad.1
    have hhigh : c.toNat ≤ 57 := hbad.2
    have hc : c = 48 + UInt8.ofNat (c.toNat - 48) := by
      apply UInt8.toNat_inj.mp
      have h48 : (48 : UInt8).toNat = 48 := rfl
      rw [UInt8.toNat_add, UInt8.toNat_ofNat', h48]
      omega
    exact ⟨c.toNat - 48, by omega, hc ▸ hb, by omega⟩
  · rintro ⟨n, hn, h, rfl⟩
    obtain ⟨hgood, hvalue⟩ := hdigit n hn
    refine ⟨48 + UInt8.ofNat n, s, Reader.current_eq_ok.mpr ⟨⟨_, h.rest⟩, rfl⟩, ?_⟩
    rw [if_neg hgood, Reader.bind_of_ok (Reader.advance_eq_ok (u := ()).mpr ⟨_, h⟩), hvalue]
    rfl

theorem parseHttpVersion_eq_ok {v : ℤ} : parseHttpVersion.run 0 s = .ok v s' ↔
    ∃ n < 10, s.Moves (str "HTTP/1." ++ [48 + UInt8.ofNat n]) s' ∧ s'.rest ≠ [] ∧ v = n := by
  unfold parseHttpVersion
  rw [Reader.bind_eq_ok]
  simp only [expectChars_eq_ok, digit_eq_ok]
  constructor
  · rintro ⟨_, t, hrequire, t₁, h₁, t₂, h₂, t₃, h₃, t₄, h₄, t₅, h₅, t₆, h₆, t₇, h₇, n, hn, h₈, rfl⟩
    obtain ⟨hlen, rfl⟩ := Reader.require_eq_ok.mp hrequire
    have hmoves := h₁.trans (h₂.trans (h₃.trans (h₄.trans (h₅.trans (h₆.trans (h₇.trans h₈))))))
    refine ⟨n, hn, hmoves, ?_, rfl⟩
    intro hnil
    rw [hmoves.rest, hnil] at hlen
    simp at hlen
  · rintro ⟨n, hn, h, hne, rfl⟩
    have hlen : 9 ≤ s.rest.length := by
      have := List.length_pos_iff.mpr hne
      rw [h.rest]
      simp only [str, List.length_append, List.length_map, List.length_cons, List.length_nil,
        String.reduceToList]
      omega
    obtain ⟨t₁, h₁, h⟩ := h.split [ch 'H'] _ rfl
    obtain ⟨t₂, h₂, h⟩ := h.split [ch 'T'] _ rfl
    obtain ⟨t₃, h₃, h⟩ := h.split [ch 'T'] _ rfl
    obtain ⟨t₄, h₄, h⟩ := h.split [ch 'P'] _ rfl
    obtain ⟨t₅, h₅, h⟩ := h.split [ch '/'] _ rfl
    obtain ⟨t₆, h₆, h⟩ := h.split [ch '1'] _ rfl
    obtain ⟨t₇, h₇, h⟩ := h.split [ch '.'] _ rfl
    exact ⟨(), s, Reader.require_eq_ok.mpr ⟨hlen, rfl⟩, t₁, h₁, t₂, h₂, t₃, h₃, t₄, h₄, t₅, h₅, t₆,
      h₆, t₇, h₇, n, hn, h, rfl⟩

theorem skipBlanks_eq_ok {u : Unit} : skipBlanks.run 0 s = .ok u s' ↔
    ∃ b c p, s.Moves b s' ∧ s'.rest = c :: p ∧ isBlank c = false ∧ ∀ x ∈ b, isBlank x = true := by
  unfold skipBlanks
  rw [Reader.scan_eq_ok]
  simp

theorem parseName_eq_ok {sse : Bool} {d : Data} : (parseName sse).run 0 s = .ok d s' ↔
    ∃ n b c p, s.Moves (n ++ ch ':' :: b) s' ∧ n ≠ [] ∧ (∀ c ∈ n, isTokenChar c = true) ∧
      (∀ c ∈ b, isBlank c = true) ∧ s'.rest = c :: p ∧ isBlank c = false ∧
      d = ⟨s.offset, n.length⟩ := by
  have hcolon : isTokenChar (ch ':') = false := by decide
  unfold parseName incr checkEof
  rw [searchThen_colon, Reader.bind_of_ok (Reader.offset_run 0 s), Reader.bind_eq_ok]
  constructor
  · rintro ⟨_, t, hseek, hrest⟩
    obtain ⟨n, c, p, hn, hp, hc, hbytes⟩ := Reader.seek_eq_ok.mp hseek
    rw [Reader.bind_of_ok (Reader.offset_run 0 t), hn.offset, Nat.add_sub_cancel_left] at hrest
    split_ifs at hrest with hempty
    · cases hrest
    rw [beq_iff_eq] at hc
    subst hc
    obtain ⟨_, t₁, hadvance, hrest⟩ := Reader.bind_eq_ok.mp hrest
    obtain ⟨a, ha⟩ := Reader.advance_eq_ok.mp hadvance
    have hfirst := ha.rest
    rw [hp] at hfirst
    obtain ⟨rfl, -⟩ := List.cons.inj hfirst
    obtain ⟨_, t₂, hcheck, hrest⟩ := Reader.bind_eq_ok.mp hrest
    obtain ⟨-, rfl⟩ := Reader.checkEnd_eq_ok.mp hcheck
    obtain ⟨_, t₃, hscan, hpure⟩ := Reader.bind_eq_ok.mp hrest
    obtain ⟨b, c, q, hb, hq, hc, hblanks⟩ := skipBlanks_eq_ok.mp hscan
    obtain ⟨rfl, rfl⟩ := Reader.pure_eq_ok.mp hpure
    refine ⟨n, b, c, q, hn.trans (ha.trans hb), ?_, fun x hx => by simpa using (hbytes x hx).2,
      hblanks, hq, hc, rfl⟩
    rintro rfl
    exact hempty rfl
  · rintro ⟨n, b, c, p, h, hne, hn, hb, hp, hc, rfl⟩
    obtain ⟨t, hname, h⟩ := h.split n (ch ':' :: b) rfl
    obtain ⟨t₁, hadvance, h⟩ := h.split [ch ':'] b rfl
    have hname_bytes : ∀ x ∈ n, (x == ch ':') = false ∧ (!isTokenChar x) = false := by
      intro x hx
      have hx := hn x hx
      refine ⟨beq_eq_false_iff_ne.mpr ?_, by simp [hx]⟩
      rintro rfl
      rw [hcolon] at hx
      cases hx
    refine ⟨(), t, Reader.seek_eq_ok.mpr ⟨n, _, _, hname, hadvance.rest, by simp, hname_bytes⟩, ?_⟩
    have hlen : n.length ≠ 0 := fun h0 => hne (List.length_eq_zero_iff.mp h0)
    rw [Reader.bind_of_ok (Reader.offset_run 0 t), hname.offset, Nat.add_sub_cancel_left,
      if_neg hlen, Reader.bind_of_ok (Reader.advance_eq_ok (u := ()).mpr ⟨_, hadvance⟩)]
    have hne₁ : t₁.rest ≠ [] := by
      rw [h.rest, hp]
      simp
    rw [Reader.bind_of_ok (Reader.checkEnd_eq_ok (u := ()).mpr ⟨hne₁, rfl⟩),
      Reader.bind_of_ok (skipBlanks_eq_ok (u := ()).mpr ⟨b, c, p, h, hp, hc, hb⟩)]
    rfl

theorem invalid_ne_ok {α : Type} {e : ℕ} {a : α} : (invalid : Parse α).run e s ≠ .ok a s' := by
  intro h
  cases h

theorem LineEnd.bytes_eq_cons (l : LineEnd) : ∃ c p, l.bytes = c :: p ∧ isCtl c = true := by
  cases l with
  | lf => exact ⟨10, [], rfl, by decide⟩
  | crlf => exact ⟨cr, [10], rfl, by decide⟩

theorem getTokenToEol_eq_ok {sse : Bool} {k : ℕ} : (getTokenToEol sse).run 0 s = .ok k s' ↔
    ∃ w, ∃ l : LineEnd, s.Moves (w ++ l.bytes) s' ∧ (∀ c ∈ w, isCtl c = false) ∧
      k = s.offset + w.length := by
  unfold getTokenToEol
  rw [findCtl_eq, Reader.bind_eq_ok]
  constructor
  · rintro ⟨_, t, hseek, hrest⟩
    obtain ⟨w, c, p, hw, hp, -, hbytes⟩ := Reader.seek_eq_ok.mp hseek
    rw [Reader.bind_of_ok (Reader.offset_run 0 t)] at hrest
    obtain ⟨_, t', hend, hpure⟩ := Reader.bind_eq_ok.mp hrest
    obtain ⟨rfl, rfl⟩ := Reader.pure_eq_ok.mp hpure
    rcases lineEnd_eq_ok.mp hend with ⟨l, hl⟩ | ⟨_, _, _, _, _, hinvalid⟩
    · exact ⟨w, l, hw.trans hl, fun x hx => (isCtl_value x).symm.trans (hbytes x hx).1, hw.offset⟩
    · exact absurd hinvalid invalid_ne_ok
  · rintro ⟨w, l, h, hbytes, rfl⟩
    obtain ⟨t, hw, hl⟩ := h.split w l.bytes rfl
    obtain ⟨c, p, hp, hc⟩ := l.bytes_eq_cons
    have hrest : t.rest = c :: (p ++ s'.rest) := by
      rw [hl.rest, hp]
      rfl
    have hseek : seekCtl.run 0 s = .ok () t := Reader.seek_eq_ok.mpr
      ⟨w, c, _, hw, hrest, (isCtl_value c).trans hc,
        fun x hx => ⟨(isCtl_value x).trans (hbytes x hx), rfl⟩⟩
    refine ⟨(), t, hseek, ?_⟩
    rw [Reader.bind_of_ok (Reader.offset_run 0 t),
      Reader.bind_of_ok (lineEnd_eq_ok (u := ()).mpr (.inl ⟨l, hl⟩)), hw.offset]
    rfl

/-! ## Header lines -/

theorem isBlank_not_ctl {c : UInt8} (h : isBlank c = true) : isCtl c = false := by
  rcases (Bool.or_eq_true _ _).mp h with h | h
  · rw [beq_iff_eq] at h
    subst h
    decide
  · rw [beq_iff_eq] at h
    subst h
    decide

theorem span_token {sse : Bool} {t : Bytes × ℕ} :
    (Reader.span (getTokenToEol sse)).run 0 s = .ok t s' ↔
      ∃ w, ∃ l : LineEnd, s.Moves (w ++ l.bytes) s' ∧ (∀ c ∈ w, isCtl c = false) ∧
        t = (w ++ l.bytes, s.offset + w.length) := by
  rw [Reader.span_eq_ok, getTokenToEol_eq_ok]
  obtain ⟨x, k⟩ := t
  constructor
  · rintro ⟨⟨w, l, h, hw, hk⟩, hx⟩
    refine ⟨w, l, h, hw, ?_⟩
    simp only at hk hx
    rw [hx, hk, h.offset, h.rest, Nat.add_sub_cancel_left, List.take_left]
  · rintro ⟨w, l, h, hw, ht⟩
    obtain ⟨rfl, rfl⟩ := Prod.mk.inj ht
    refine ⟨⟨w, l, h, hw, rfl⟩, ?_⟩
    rw [h.offset, h.rest, Nat.add_sub_cancel_left, List.take_left]

def Stores (s : Cursor UInt8 Head) (w : Bytes) (out : Head) (s' : Cursor UInt8 Head) : Prop :=
  s.rest = w ++ s'.rest ∧ s'.offset = s.offset + w.length ∧ s'.out = out

theorem parseValue_eq_ok {sse : Bool} {name : Data} {u : Unit} :
    (parseValue sse name).run 0 s = .ok u s' ↔
      ∃ w, ∃ l : LineEnd, (∀ c ∈ w, isCtl c = false) ∧
        Stores s (w ++ l.bytes) { s.out with headers := s.out.headers ++
          [⟨name, ⟨s.offset, (w.rdropWhile isBlank).length⟩⟩] } s' := by
  unfold parseValue
  rw [Reader.bind_of_ok (Reader.offset_run 0 s), Reader.bind_eq_ok]
  constructor
  · rintro ⟨t, m, ht, hstore⟩
    obtain ⟨w, l, h, hw, rfl⟩ := span_token.mp ht
    rw [Reader.store_run] at hstore
    cases hstore
    refine ⟨w, l, hw, h.rest, h.offset, ?_⟩
    rw [Nat.add_sub_cancel_left, List.take_left, h.out]
  · rintro ⟨w, l, hw, hrest, hoffset, hout⟩
    have hmoves : s.Moves (w ++ l.bytes) ⟨s'.offset, s'.rest, s.out⟩ := ⟨hrest, hoffset, rfl⟩
    refine ⟨_, _, span_token.mpr ⟨w, l, hmoves, hw, rfl⟩, ?_⟩
    obtain ⟨i, p, out⟩ := s'
    rw [Reader.store_run, Nat.add_sub_cancel_left, List.take_left]
    simp only at hout
    rw [hout]

theorem isTokenChar_not_blank {c : UInt8} (h : isTokenChar c = true) :
    isBlank c = false ∧ c ≠ cr ∧ c ≠ lf := by
  have hblank : ∀ b, isTokenChar b = false → b ≠ c := by
    rintro b hb rfl
    rw [h] at hb
    cases hb
  have hspace := hblank space (by decide)
  have htab := hblank tab (by decide)
  have hcr := hblank cr (by decide)
  have hlf := hblank lf (by decide)
  simp [isBlank, hspace.symm, htab.symm, hcr.symm, hlf.symm]

theorem parseHeader_eq_ok {sse : Bool} {u : Unit} : (parseHeader sse).run 0 s = .ok u s' ↔
    ∃ f : FieldLine, (s.out.headers = [] → f.name ≠ none) ∧
      Stores s f.bytes { s.out with headers := s.out.headers ++ [f.field s.offset] } s' := by
  unfold parseHeader deref
  rw [Reader.bind_eq_ok]
  constructor
  · rintro ⟨c, t, hc, hrest⟩
    obtain ⟨⟨p, hp⟩, rfl⟩ := Reader.current_eq_ok.mp hc
    rw [Reader.bind_of_ok (Reader.stored_run _ 0 s)] at hrest
    split_ifs at hrest with hname
    · -- more text of the field before
      obtain ⟨w, l, hw, hstores⟩ := parseValue_eq_ok.mp hrest
      have hfirst : ∃ a ∈ w.head?, isBlank a = true := by
        have hline := hp.symm.trans hstores.1
        cases w with
        | nil =>
          obtain ⟨a, q, hl, ha⟩ := l.bytes_eq_cons
          rw [hl] at hline
          obtain ⟨rfl, -⟩ := List.cons.inj hline
          rw [isBlank_not_ctl hname.2] at ha
          cases ha
        | cons a w =>
          obtain ⟨rfl, -⟩ := List.cons.inj hline
          exact ⟨c, rfl, hname.2⟩
      refine ⟨⟨none, w, l, by rintro _ _ ⟨⟩, by rintro _ _ ⟨⟩, by rintro _ _ ⟨⟩, hw,
        fun hne => absurd rfl hne, fun _ => hfirst⟩, ?_, hstores⟩
      intro hnil
      simp [hnil] at hname
    · obtain ⟨d, t, hd, hvalue⟩ := Reader.bind_eq_ok.mp hrest
      obtain ⟨n, b, a, q, h, hne, hn, hb, hq, ha, rfl⟩ := parseName_eq_ok.mp hd
      obtain ⟨w, l, hw, hstores⟩ := parseValue_eq_ok.mp hvalue
      have hfirst : ∀ x ∈ w.head?, isBlank x = false := by
        have hline := hq.symm.trans hstores.1
        cases w with
        | nil => simp
        | cons x w =>
          obtain ⟨rfl, -⟩ := List.cons.inj hline
          rintro y ⟨⟩
          exact ha
      refine ⟨⟨some (n, b), w, l, by rintro _ _ ⟨⟩; exact hne, by rintro _ _ ⟨⟩; exact hn,
        by rintro _ _ ⟨⟩; exact hb, hw, fun _ => hfirst, by rintro ⟨⟩⟩, by rintro - ⟨⟩, ?_, ?_, ?_⟩
      · show s.rest = (n ++ ch ':' :: b) ++ (w ++ l.bytes) ++ s'.rest
        rw [h.rest, hstores.1]
        simp only [List.append_assoc]
      · show s'.offset = s.offset + ((n ++ ch ':' :: b) ++ (w ++ l.bytes)).length
        rw [hstores.2.1, h.offset]
        simp only [List.length_append]
        omega
      · rw [hstores.2.2, h.out, h.offset]
        rfl
  · rintro ⟨⟨name, w, l, hne, hn, hb, hw, hfirst, hmore⟩, hheaders, hrest, hoffset, hout⟩
    cases name with
    | none =>
      obtain ⟨c, hc, hblank⟩ := hmore rfl
      obtain ⟨v, rfl⟩ : ∃ v, w = c :: v := List.head?_eq_some_iff.mp hc
      refine ⟨c, s, Reader.current_eq_ok.mpr ⟨⟨v ++ l.bytes ++ s'.rest, hrest⟩, rfl⟩, ?_⟩
      rw [Reader.bind_of_ok (Reader.stored_run _ 0 s), if_neg]
      · exact parseValue_eq_ok.mpr ⟨_, l, hw, hrest, hoffset, hout⟩
      · simp only [hblank, and_true, not_not, List.isEmpty_eq_false_iff]
        exact fun hnil => hheaders hnil rfl
    | some nb =>
      obtain ⟨n, b⟩ := nb
      have hne := hne n b rfl
      have hn := hn n b rfl
      obtain ⟨c, m, rfl⟩ := List.exists_cons_of_ne_nil hne
      have hfirstByte := (isTokenChar_not_blank (hn c (by simp))).1
      refine ⟨c, s, Reader.current_eq_ok.mpr ⟨⟨m ++ ch ':' :: b ++ (w ++ l.bytes) ++ s'.rest,
        hrest⟩, rfl⟩, ?_⟩
      rw [Reader.bind_of_ok (Reader.stored_run _ 0 s), if_pos (by simp [hfirstByte])]
      let t : Cursor UInt8 Head := ⟨s.offset + (c :: m ++ ch ':' :: b).length,
        w ++ l.bytes ++ s'.rest, s.out⟩
      have hmoves : s.Moves (c :: m ++ ch ':' :: b) t := by
        refine ⟨?_, rfl, rfl⟩
        rw [hrest]
        exact List.append_assoc _ _ _
      obtain ⟨a, q, hq, ha⟩ : ∃ a q, t.rest = a :: q ∧ isBlank a = false := by
        cases w with
        | nil =>
          obtain ⟨a, q, hl, ha⟩ := l.bytes_eq_cons
          refine ⟨a, q ++ s'.rest, by simp [t, hl], ?_⟩
          by_contra hblank
          rw [isBlank_not_ctl (by simpa using hblank)] at ha
          cases ha
        | cons a w => exact ⟨a, _, rfl, hfirst (by rintro ⟨⟩) a rfl⟩
      rw [Reader.bind_of_ok (parseName_eq_ok.mpr ⟨_, b, a, q, hmoves, hne, hn, hb _ b rfl, hq, ha,
        rfl⟩)]
      refine parseValue_eq_ok.mpr ⟨w, l, hw, rfl, ?_, hout⟩
      rw [hoffset, Nat.add_assoc, ← List.length_append]
      rfl

theorem FieldLine.bytes_eq_cons (f : FieldLine) :
    ∃ c p, f.bytes = c :: p ∧ c ≠ cr ∧ c ≠ lf := by
  obtain ⟨name, w, l, hne, hn, hb, hw, hfirst, hmore⟩ := f
  cases name with
  | none =>
    obtain ⟨c, hc, hblank⟩ := hmore rfl
    obtain ⟨v, rfl⟩ : ∃ v, w = c :: v := List.head?_eq_some_iff.mp hc
    have hctl := isBlank_not_ctl hblank
    refine ⟨c, _, rfl, ?_, ?_⟩
    · rintro rfl
      revert hctl
      decide
    · rintro rfl
      revert hctl
      decide
  | some nb =>
    obtain ⟨n, b⟩ := nb
    obtain ⟨c, m, rfl⟩ := List.exists_cons_of_ne_nil (hne n b rfl)
    exact ⟨c, _, rfl, (isTokenChar_not_blank (hn _ b rfl c (by simp))).2⟩

theorem checkEof_lineEnd_eq_ok {k : Parse Unit} {u : Unit} :
    (do checkEof; lineEnd k : Parse Unit).run 0 s = .ok u s' ↔ (lineEnd k).run 0 s = .ok u s' := by
  unfold checkEof
  rw [Reader.bind_eq_ok]
  constructor
  · rintro ⟨_, t, hcheck, hrest⟩
    obtain ⟨-, rfl⟩ := Reader.checkEnd_eq_ok.mp hcheck
    exact hrest
  · intro h
    refine ⟨(), s, Reader.checkEnd_eq_ok.mpr ⟨?_, rfl⟩, h⟩
    rcases lineEnd_eq_ok.mp h with ⟨l, hl⟩ | ⟨c, p, hp, -⟩
    · obtain ⟨c, p, hp, -⟩ := l.bytes_eq_cons
      rw [hl.rest, hp]
      simp
    · rw [hp]
      simp

def Lines (s : Cursor UInt8 Head) (room : ℕ) (s' : Cursor UInt8 Head) : Prop :=
  ∃ fs : List FieldLine, ∃ l : LineEnd, fs.length ≤ room ∧
    (s.out.headers = [] → ∀ f ∈ fs.head?, f.name ≠ none) ∧
    Stores s (fs.flatMap FieldLine.bytes ++ l.bytes)
      { s.out with headers := s.out.headers ++ FieldLine.fields s.offset fs } s'

theorem Lines.nil {l : LineEnd} (h : s.Moves l.bytes s') (room : ℕ) : Lines s room s' := by
  refine ⟨[], l, Nat.zero_le room, by simp, h.rest, h.offset, ?_⟩
  rw [h.out]
  simp [FieldLine.fields]

theorem Lines.cons {t : Cursor UInt8 Head} {f : FieldLine} {room : ℕ}
    (hfirst : s.out.headers = [] → f.name ≠ none)
    (hf : Stores s f.bytes { s.out with headers := s.out.headers ++ [f.field s.offset] } t)
    (h : Lines t room s') : Lines s (room + 1) s' := by
  obtain ⟨fs, l, hlen, -, hrest, hoffset, hout⟩ := h
  refine ⟨f :: fs, l, Nat.succ_le_succ hlen, fun hnil => ?_, ?_, ?_, ?_⟩
  · rintro _ ⟨⟩
    exact hfirst hnil
  · rw [hf.1, hrest]
    simp only [List.flatMap_cons, List.append_assoc]
  · rw [hoffset, hf.2.1]
    simp only [List.flatMap_cons, List.length_append]
    omega
  · rw [hout, hf.2.2, hf.2.1]
    simp only [FieldLine.fields, List.append_assoc, List.singleton_append]

theorem parseHeaders_eq_ok {sse : Bool} {room : ℕ} {u : Unit} :
    (parseHeaders sse room).run 0 s = .ok u s' ↔ Lines s room s' := by
  induction room generalizing s with
  | zero =>
    rw [parseHeaders, checkEof_lineEnd_eq_ok, lineEnd_eq_ok]
    constructor
    · rintro (⟨l, hl⟩ | ⟨_, _, _, _, _, hinvalid⟩)
      · exact .nil hl 0
      · exact absurd hinvalid invalid_ne_ok
    · rintro ⟨fs, l, hlen, -, hrest, hoffset, hout⟩
      obtain rfl := List.length_eq_zero_iff.mp (Nat.le_zero.mp hlen)
      refine .inl ⟨l, hrest, hoffset, ?_⟩
      rw [hout]
      simp [FieldLine.fields]
  | succ room ih =>
    rw [parseHeaders, checkEof_lineEnd_eq_ok, lineEnd_eq_ok]
    constructor
    · rintro (⟨l, hl⟩ | ⟨c, p, hp, -, -, hrest⟩)
      · exact .nil hl _
      · obtain ⟨_, t, hheader, hrest⟩ := Reader.bind_eq_ok.mp hrest
        obtain ⟨f, hfirst, hf⟩ := parseHeader_eq_ok.mp hheader
        exact .cons hfirst hf (ih.mp hrest)
    · rintro ⟨fs, l, hlen, hfirst, hrest, hoffset, hout⟩
      cases fs with
      | nil =>
        refine .inl ⟨l, hrest, hoffset, ?_⟩
        rw [hout]
        simp [FieldLine.fields]
      | cons f fs =>
        obtain ⟨c, p, hc, hcr, hlf⟩ := f.bytes_eq_cons
        let t : Cursor UInt8 Head := ⟨s.offset + f.bytes.length,
          fs.flatMap FieldLine.bytes ++ l.bytes ++ s'.rest,
          { s.out with headers := s.out.headers ++ [f.field s.offset] }⟩
        have hsplit : s.rest = f.bytes ++ t.rest := by
          rw [hrest]
          simp only [t, List.flatMap_cons, List.append_assoc]
        have hheader : (parseHeader sse).run 0 s = .ok () t := parseHeader_eq_ok.mpr
          ⟨f, fun hnil => hfirst hnil f rfl, hsplit, rfl, rfl⟩
        right
        refine ⟨c, p ++ t.rest, by rw [hsplit, hc, List.cons_append], hcr, hlf, ?_⟩
        rw [Reader.bind_of_ok hheader]
        refine ih.mpr ⟨fs, l, Nat.le_of_succ_le_succ hlen, fun hnil => ?_, rfl, ?_, ?_⟩
        · simp [t] at hnil
        · rw [hoffset]
          simp only [t, List.flatMap_cons, List.length_append]
          omega
        · rw [hout]
          simp only [t, FieldLine.fields, List.append_assoc, List.singleton_append]

theorem isTargetByte_ne {c : UInt8} (h : isTargetByte c = true) : c ≠ cr ∧ c ≠ lf ∧ c ≠ space := by
  have hne : ∀ b, isTargetByte b = false → c ≠ b := by
    rintro b hb rfl
    rw [h] at hb
    cases hb
  exact ⟨hne cr (by decide), hne lf (by decide), hne space (by decide)⟩

/-- The empty line that may lie before a request. -/
theorem emptyLine_eq_ok {u : Unit} :
    (lineEnd (pure ())).run 0 s = .ok u s' ↔
      ∃ l : Option LineEnd, s.Moves ((l.map LineEnd.bytes).getD []) s' ∧
        (l = none → ∃ c p, s'.rest = c :: p ∧ c ≠ cr ∧ c ≠ lf) := by
  rw [lineEnd_eq_ok]
  constructor
  · rintro (⟨l, hl⟩ | ⟨c, p, hp, hcr, hlf, hpure⟩)
    · exact ⟨some l, hl, by rintro ⟨⟩⟩
    · obtain ⟨-, rfl⟩ := Reader.pure_eq_ok.mp hpure
      exact ⟨none, .refl s, fun _ => ⟨c, p, hp, hcr, hlf⟩⟩
  · rintro ⟨l, hl, hnone⟩
    cases l with
    | some l => exact .inl ⟨l, hl⟩
    | none =>
      obtain ⟨c, p, hp, hcr, hlf⟩ := hnone rfl
      obtain rfl := (Cursor.Moves.refl s).eq hl
      exact .inr ⟨c, p, hp, hcr, hlf, rfl⟩

theorem parseTargets_eq_ok {sse : Bool} {u : Unit} : (parseTargets sse).run 0 s = .ok u s' ↔
    ∃ m n w k c p, (∀ b ∈ m, isTargetByte b = true) ∧ (∀ b ∈ w, isTargetByte b = true) ∧
      w ≠ [] ∧ s'.rest = c :: p ∧ c ≠ space ∧
      Stores s (m ++ List.replicate (n + 1) space ++ w ++ List.replicate (k + 1) space)
        { s.out with
          method := ⟨s.offset, m.length⟩
          path := ⟨s.offset + (m ++ List.replicate (n + 1) space).length, w.length⟩ } s' := by
  unfold parseTargets
  rw [Reader.bind_eq_ok]
  constructor
  · rintro ⟨d, t₁, hmethod, hrest⟩
    obtain ⟨m, q, hm, hspace, hmbytes, rfl⟩ := advanceToken_eq_ok.mp hmethod
    rw [Reader.bind_of_ok (Reader.store_run _ 0 t₁)] at hrest
    obtain ⟨_, t₂, hskip, hrest⟩ := Reader.bind_eq_ok.mp hrest
    obtain ⟨a, n, c, q₂, ha, hc, hne⟩ := skipSpaces_eq_ok.mp hskip
    obtain ⟨d, t₃, hpath, hrest⟩ := Reader.bind_eq_ok.mp hrest
    obtain ⟨w, q₃, hw, hspace', hwbytes, rfl⟩ := advanceToken_eq_ok.mp hpath
    rw [Reader.bind_of_ok (Reader.store_run _ 0 t₃)] at hrest
    obtain ⟨b, k, c', q₄, hb, hc', hne'⟩ := skipSpaces_eq_ok.mp hrest
    obtain ⟨rfl, -⟩ := List.cons.inj (hspace.symm.trans ha.rest)
    obtain ⟨rfl, -⟩ := List.cons.inj (hspace'.symm.trans hb.rest)
    have hwne : w ≠ [] := by
      rintro rfl
      have := hw.rest
      rw [hc, hspace'] at this
      exact hne (List.cons.inj this).1
    refine ⟨m, n, w, k, c', q₄, hmbytes, hwbytes, hwne, hc', hne', ?_, ?_, ?_⟩
    · have h₁ := hm.rest
      have h₂ : t₁.rest = _ := ha.rest
      have h₃ : t₃.rest = _ := hb.rest
      rw [h₁, h₂, hw.rest, h₃]
      simp only [List.replicate_succ, List.append_assoc]
    · have h₂ : t₂.offset = t₁.offset + _ := ha.offset
      have h₄ : s'.offset = t₃.offset + _ := hb.offset
      rw [h₄, hw.offset, h₂, hm.offset]
      simp only [List.length_append, List.length_cons, List.length_replicate]
      omega
    · have h₂ : t₂.offset = t₁.offset + _ := ha.offset
      rw [hb.out, hw.out, ha.out, hm.out, h₂, hm.offset]
      simp only [List.length_append, List.length_cons, List.length_replicate, Nat.add_assoc]
  · rintro ⟨m, n, w, k, c, p, hm, hw, hne, hp, hc, hrest, hoffset, hout⟩
    let out : Head := { s.out with method := ⟨s.offset, m.length⟩ }
    let t₁ : Cursor UInt8 Head := ⟨s.offset + m.length,
      List.replicate (n + 1) space ++ (w ++ (List.replicate (k + 1) space ++ s'.rest)), s.out⟩
    let t₂ : Cursor UInt8 Head := ⟨t₁.offset + (List.replicate (n + 1) space).length,
      w ++ (List.replicate (k + 1) space ++ s'.rest), out⟩
    let t₃ : Cursor UInt8 Head := ⟨t₂.offset + w.length,
      List.replicate (k + 1) space ++ s'.rest, out⟩
    have h₁ : s.Moves m t₁ := ⟨by rw [hrest]; simp only [t₁, List.append_assoc], rfl, rfl⟩
    have hmethod : (advanceToken sse).run 0 s = .ok ⟨s.offset, m.length⟩ t₁ :=
      advanceToken_eq_ok.mpr ⟨m, _, h₁, rfl, hm, rfl⟩
    obtain ⟨b, v, rfl⟩ := List.exists_cons_of_ne_nil hne
    have hskip : skipSpaces.run 0 ⟨t₁.offset, t₁.rest, out⟩ = .ok () t₂ := skipSpaces_eq_ok.mpr
      ⟨space, n, b, _, ⟨rfl, rfl, rfl⟩, rfl, (isTargetByte_ne (hw b (by simp))).2.2⟩
    have h₃ : t₂.Moves (b :: v) t₃ := ⟨rfl, rfl, rfl⟩
    have hpath : (advanceToken sse).run 0 t₂ = .ok ⟨t₂.offset, (b :: v).length⟩ t₃ :=
      advanceToken_eq_ok.mpr ⟨b :: v, _, h₃, rfl, hw, rfl⟩
    refine ⟨_, t₁, hmethod, ?_⟩
    rw [Reader.bind_of_ok (Reader.store_run _ 0 t₁), Reader.bind_of_ok hskip,
      Reader.bind_of_ok hpath, Reader.bind_of_ok (Reader.store_run _ 0 t₃)]
    refine skipSpaces_eq_ok.mpr ⟨space, k, c, p, ⟨rfl, ?_, ?_⟩, hp, hc⟩
    · rw [hoffset]
      simp only [t₁, t₂, t₃, List.length_append, List.length_replicate, List.length_cons]
      omega
    · rw [hout]
      simp only [t₁, t₂, t₃, out, List.length_append, List.length_replicate, Nat.add_assoc]

/-- The parser accepts the inputs that begin with a head, and stores the places of its parts. -/
theorem parseRequest_eq_ok {sse : Bool} {maxHeaders : ℕ} {input : Bytes} {u : Unit} :
    (parseRequest sse maxHeaders).run 0 ⟨0, input, .init⟩ = .ok u s' ↔
      ∃ h : RequestHead maxHeaders, Stores ⟨0, input, .init⟩ h.bytes h.places s' := by
  unfold parseRequest afterTargets checkEof
  rw [Reader.bind_eq_ok]
  constructor
  · rintro ⟨_, t, hcheck, hrest⟩
    obtain ⟨-, rfl⟩ := Reader.checkEnd_eq_ok.mp hcheck
    obtain ⟨_, t₁, hempty, hrest⟩ := Reader.bind_eq_ok.mp hrest
    obtain ⟨l, hl, -⟩ := emptyLine_eq_ok.mp hempty
    obtain ⟨_, t₂, htargets, hrest⟩ := Reader.bind_eq_ok.mp hrest
    obtain ⟨m, n, w, k, c, p, hm, hw, hwne, hp, hc, h₂, hoffset₂, hout₂⟩ :=
      parseTargets_eq_ok.mp htargets
    rw [Reader.bind_of_ok (Reader.stored_run _ 0 t₂)] at hrest
    split_ifs at hrest with hne
    · exact absurd hrest invalid_ne_ok
    have hmne : m ≠ [] := by
      rintro rfl
      simp [hout₂] at hne
    obtain ⟨_, t₃, hversion, hrest⟩ := Reader.bind_eq_ok.mp hrest
    obtain ⟨v, hv, h₃, -, rfl⟩ := parseHttpVersion_eq_ok.mp hversion
    rw [Reader.bind_of_ok (Reader.store_run _ 0 t₃)] at hrest
    obtain ⟨_, t₄, hend, hheaders⟩ := Reader.bind_eq_ok.mp hrest
    obtain ⟨e, h₄⟩ := (lineEnd_eq_ok.mp hend).resolve_right
      fun ⟨_, _, _, _, _, hinvalid⟩ => invalid_ne_ok hinvalid
    obtain ⟨fs, last, hlen, hfirst, h₅, hoffset₅, hout₅⟩ := parseHeaders_eq_ok.mp hheaders
    have hrest₄ : t₃.rest = e.bytes ++ t₄.rest := h₄.rest
    have hoffset₄ : t₄.offset = t₃.offset + e.bytes.length := h₄.offset
    have hout₄ : t₄.out = { t₂.out with minorVersion := v } := by
      rw [h₄.out, h₃.out]
    have hheaders₄ : t₄.out.headers = [] := by
      rw [hout₄, hout₂, hl.out]
      rfl
    refine ⟨⟨l, m, (n, k), w, v, e, fs, last, hmne, hm, hwne, hw, hv, hlen, hfirst hheaders₄⟩,
      ?_, ?_, ?_⟩
    · rw [hl.rest, h₂, h₃.rest, hrest₄, h₅]
      simp only [RequestHead.bytes, RequestHead.requestLine, RequestHead.emptyBytes,
        RequestHead.spaces₁, RequestHead.spaces₂, RequestHead.version, List.append_assoc]
    · rw [hoffset₅, hoffset₄, h₃.offset, hoffset₂, hl.offset]
      simp only [RequestHead.bytes, RequestHead.requestLine, RequestHead.emptyBytes,
        RequestHead.spaces₁, RequestHead.spaces₂, RequestHead.version, List.length_append]
      omega
    · rw [hout₅, hheaders₄, hoffset₄, h₃.offset, hoffset₂, hout₄, hout₂, hl.offset]
      simp only [RequestHead.places, RequestHead.requestLine, RequestHead.emptyBytes,
        RequestHead.spaces₁, RequestHead.spaces₂, RequestHead.version, List.length_append,
        List.nil_append, Nat.zero_add, Nat.add_assoc]
  · rintro ⟨h, hrest, hoffset, hout⟩
    let tail : Bytes := h.headers.flatMap FieldLine.bytes ++ (h.last.bytes ++ s'.rest)
    let out₂ : Head := { Head.init with method := h.places.method, path := h.places.path }
    let t₁ : Cursor UInt8 Head := ⟨h.emptyBytes.length,
      h.method ++ (h.spaces₁ ++ (h.path ++ (h.spaces₂ ++ (h.version ++ (h.lineEnd.bytes ++ tail))))),
      .init⟩
    let t₂ : Cursor UInt8 Head := ⟨(h.emptyBytes ++ h.method ++ h.spaces₁ ++ h.path ++
      h.spaces₂).length, h.version ++ (h.lineEnd.bytes ++ tail), out₂⟩
    let t₃ : Cursor UInt8 Head := ⟨t₂.offset + h.version.length, h.lineEnd.bytes ++ tail, out₂⟩
    let t₄ : Cursor UInt8 Head := ⟨h.requestLine.length, tail,
      { out₂ with minorVersion := h.minorVersion }⟩
    have h₁ : Cursor.Moves ⟨0, input, .init⟩ h.emptyBytes t₁ := by
      refine ⟨hrest.trans ?_, (Nat.zero_add _).symm, rfl⟩
      simp only [t₁, tail, RequestHead.bytes, RequestHead.requestLine, List.append_assoc]
    have hempty : (lineEnd (pure ())).run 0 ⟨0, input, .init⟩ = .ok () t₁ := by
      refine emptyLine_eq_ok.mpr ⟨h.emptyLine, h₁, fun _ => ?_⟩
      obtain ⟨c, m, hm⟩ := List.exists_cons_of_ne_nil h.method_ne
      have hc := isTargetByte_ne (h.method_bytes c (by rw [hm]; simp))
      exact ⟨c, _, by simp only [t₁, hm, List.cons_append]; rfl, hc.1, hc.2.1⟩
    have htargets : (parseTargets sse).run 0 t₁ = .ok () t₂ := by
      refine parseTargets_eq_ok.mpr ⟨h.method, h.spaces.1, h.path, h.spaces.2, ch 'H',
        str "TTP/1." ++ [48 + UInt8.ofNat h.minorVersion] ++ (h.lineEnd.bytes ++ tail),
        h.method_bytes, h.path_bytes, h.path_ne, rfl, by decide, ?_, ?_, ?_⟩
      · simp only [t₁, t₂, RequestHead.spaces₁, RequestHead.spaces₂, List.append_assoc]
      · simp only [t₁, t₂, RequestHead.spaces₁, RequestHead.spaces₂, List.length_append]
        omega
      · simp only [t₁, t₂, out₂, RequestHead.places, RequestHead.spaces₁, List.length_append]
        simp only [Nat.add_assoc]
    have hversion : parseHttpVersion.run 0 t₂ = .ok h.minorVersion t₃ := by
      refine parseHttpVersion_eq_ok.mpr ⟨h.minorVersion, h.minorVersion_lt, ⟨rfl, rfl, rfl⟩, ?_, rfl⟩
      obtain ⟨c, p, hp, -⟩ := h.lineEnd.bytes_eq_cons
      simp [t₃, hp]
    have hend : (lineEnd invalid).run 0
        ⟨t₃.offset, t₃.rest, { out₂ with minorVersion := h.minorVersion }⟩ = .ok () t₄ := by
      refine lineEnd_eq_ok.mpr (.inl ⟨h.lineEnd, rfl, ?_, rfl⟩)
      simp only [t₄, t₃, t₂, RequestHead.requestLine, List.length_append]
    have hheaders : (parseHeaders sse maxHeaders).run 0 t₄ = .ok u s' := by
      refine parseHeaders_eq_ok.mpr ⟨h.headers, h.last, h.headers_le, fun _ => h.headers_first,
        ?_, ?_, ?_⟩
      · simp only [t₄, tail, List.append_assoc]
      · rw [hoffset]
        simp only [t₄, RequestHead.bytes, List.length_append]
        omega
      · rw [hout]
        rfl
    have hne : ¬ (decide (t₂.out.method.size = 0 ∨ t₂.out.path.size = 0) = true) := by
      have hm := List.length_pos_iff.mpr h.method_ne
      have hp := List.length_pos_iff.mpr h.path_ne
      intro hdecide
      rcases of_decide_eq_true hdecide with hzero | hzero
      · have hzero : h.method.length = 0 := hzero
        omega
      · have hzero : h.path.length = 0 := hzero
        omega
    have hinput : Cursor.rest ⟨0, input, Head.init⟩ ≠ [] := by
      obtain ⟨c, m, hm⟩ := List.exists_cons_of_ne_nil h.method_ne
      rw [h₁.rest]
      simp [t₁, hm]
    refine ⟨(), _, Reader.checkEnd_eq_ok.mpr ⟨hinput, rfl⟩, ?_⟩
    rw [Reader.bind_of_ok hempty, Reader.bind_of_ok htargets,
      Reader.bind_of_ok (Reader.stored_run _ 0 t₂), if_neg hne, Reader.bind_of_ok hversion,
      Reader.bind_of_ok (Reader.store_run _ 0 t₃)]
    exact (Reader.bind_of_ok hend).trans hheaders

end Passed

end LibReactor.Phr
