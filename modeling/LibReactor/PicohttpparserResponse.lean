import LibReactor.PicohttpparserEnd

/-!
# The response parser

`phr_parse_response` takes the version and the fields from the parts that requests have
too, and a status and a message of its own. It accepts exactly the inputs that begin with
the head of a response.
-/

namespace LibReactor.Phr

open Incremental

structure Reply where
  minorVersion : ℤ
  status : ℤ
  msg : Data
  headers : List HttpField
  deriving DecidableEq, Repr

def Reply.init : Reply := ⟨-1, 0, .null, []⟩

abbrev ParseReply (α : Type) := Reader UInt8 Reply Stop α

def Reply.head (out : Reply) : Head := { Head.init with headers := out.headers }

/-- A call of a function that stores header fields or nothing. -/
def onFields {α : Type} (m : Parse α) : ParseReply α :=
  .part Reply.head (fun out head => { out with headers := head.headers }) m

def parseInt (mul : ℤ) : Parse ℤ := do
  let c ← deref
  if c < ch '0' ∨ ch '9' < c then
    invalid
  else
    incr
    return mul * ((c.toNat : ℤ) - 48)

/-- `PARSE_INT_3` -/
def parseStatus : ParseReply Unit := do
  let hundreds ← onFields (parseInt 100)
  .store (fun out => { out with status := hundreds })
  let tens ← onFields (parseInt 10)
  .store (fun out => { out with status := out.status + tens })
  let ones ← onFields (parseInt 1)
  .store (fun out => { out with status := out.status + ones })

/-- The message of a response: what follows the status without the spaces before it. -/
def parseMessage (sse : Bool) : ParseReply Unit := do
  let msg ← .offset
  let (token, msgEnd) ← onFields (.span (getTokenToEol sse))
  .store (fun out => { out with msg := ⟨msg, msgEnd - msg⟩ })
  if msgEnd - msg = 0 then
    return
  else if token.head? = some space then
    let k := (token.takeWhile (fun c => c == space)).length
    .store (fun out => { out with msg := ⟨msg + k, msgEnd - msg - k⟩ })
  else
    .fail .invalid

def afterVersion (sse : Bool) (maxHeaders : ℕ) : ParseReply Unit := do
  let c ← onFields deref
  if c ≠ space then
    .fail .invalid
  else
    onFields skipSpaces
    .require .incomplete 4
    parseStatus
    parseMessage sse
    onFields (parseHeaders sse maxHeaders)

def parseResponse (sse : Bool) (maxHeaders : ℕ) : ParseReply Unit := do
  let minor ← onFields parseHttpVersion
  .store (fun out => { out with minorVersion := minor })
  afterVersion sse maxHeaders

/-- `phr_parse_response` on an input with the memory `behind` it. -/
def phrParseResponse (sse : Bool) (input behind : Bytes) (numHeaders lastLen : ℕ) :
    Except Fault (ℤ × Reply) :=
  let s : Cursor UInt8 Reply := ⟨0, input ++ behind, .init⟩
  match (if lastLen ≠ 0 then isComplete behind.length lastLen s else .ok () s) with
  | .ok _ _ => returned ((parseResponse sse numHeaders).run behind.length s)
  | .error r t => returned (.error r t)

/-! ## Syntax -/

structure ResponseHead (maxHeaders : ℕ) where
  minorVersion : ℕ
  /-- the spaces behind the version, less one -/
  spaces : ℕ
  status : ℕ
  /-- the spaces before the message -/
  gap : ℕ
  message : Bytes
  lineEnd : LineEnd
  headers : List FieldLine
  last : LineEnd
  minorVersion_lt : minorVersion < 10
  status_lt : status < 1000
  gap_pos : message ≠ [] → 0 < gap
  message_bytes : ∀ c ∈ message, isCtl c = false
  message_first : ∀ c ∈ message.head?, c ≠ space
  headers_le : headers.length ≤ maxHeaders
  headers_first : ∀ f ∈ headers.head?, f.name ≠ none

theorem one_lt_ten : 1 < 10 := by decide

theorem noHeaders_first : ∀ f ∈ ([] : List FieldLine).head?, f.name ≠ none := by simp

def versionBytes (minorVersion : ℕ) : Bytes := str "HTTP/1." ++ [48 + UInt8.ofNat minorVersion]

def digit (n : ℕ) : UInt8 := 48 + UInt8.ofNat n

def statusBytes (status : ℕ) : Bytes :=
  [digit (status / 100), digit (status / 10 % 10), digit (status % 10)]

namespace ResponseHead

variable {maxHeaders : ℕ} (h : ResponseHead maxHeaders)

def beforeMessage : Bytes :=
  versionBytes h.minorVersion ++ List.replicate (h.spaces + 1) space ++ statusBytes h.status ++
    List.replicate h.gap space

def statusLine : Bytes := h.beforeMessage ++ h.message ++ h.lineEnd.bytes

def bytes : Bytes := h.statusLine ++ h.headers.flatMap FieldLine.bytes ++ h.last.bytes

def places : Reply where
  minorVersion := h.minorVersion
  status := h.status
  msg := ⟨h.beforeMessage.length, h.message.length⟩
  headers := FieldLine.fields h.statusLine.length h.headers

end ResponseHead

/-! ## What the parts pass over -/

section Passed

variable {s s' : Cursor UInt8 Reply} {α : Type}

theorem onFields_eq_ok {m : Parse α} {a : α} {R : ℕ → Bytes → Bytes → Prop}
    (hm : ∀ c t : Cursor UInt8 Head, m.run 0 c = .ok a t ↔ ∃ w, c.Moves w t ∧ R c.offset w t.rest) :
    (onFields m).run 0 s = .ok a s' ↔ ∃ w, s.Moves w s' ∧ R s.offset w s'.rest := by
  unfold onFields
  rw [Reader.part_eq_ok]
  constructor
  · rintro ⟨t, ht, rfl⟩
    obtain ⟨w, hw, hr⟩ := (hm _ t).mp ht
    refine ⟨w, ⟨hw.rest, hw.offset, ?_⟩, hr⟩
    rw [hw.out]
    rfl
  · rintro ⟨w, hw, hr⟩
    refine ⟨⟨s'.offset, s'.rest, s.out.head⟩, (hm _ _).mpr ⟨w, ⟨hw.rest, hw.offset, rfl⟩, hr⟩, ?_⟩
    obtain ⟨i, p, out⟩ := s'
    obtain rfl : out = s.out := hw.out
    rfl

theorem parseInt_eq (mul : ℤ) : parseInt mul =
    (deref >>= fun c => if c < ch '0' ∨ ch '9' < c then invalid
      else incr >>= fun _ => pure ((c.toNat : ℤ) - 48)) >>= fun v => pure (mul * v) := by
  apply Reader.ext
  rintro e ⟨i, p, out⟩
  cases p with
  | nil => rfl
  | cons c p =>
    have hderef : (deref : Parse UInt8).run e ⟨i, c :: p, out⟩ = .ok c ⟨i, c :: p, out⟩ := rfl
    unfold parseInt
    rw [Reader.bind_of_ok hderef]
    by_cases hbad : c < ch '0' ∨ ch '9' < c
    · have herror : (deref >>= fun c => if c < ch '0' ∨ ch '9' < c then invalid
          else incr >>= fun _ => pure ((c.toNat : ℤ) - 48) : Parse ℤ).run e ⟨i, c :: p, out⟩ =
          .error .invalid ⟨i, c :: p, out⟩ := by
        rw [Reader.bind_of_ok hderef, if_pos hbad]
        rfl
      rw [if_pos hbad, Reader.bind_of_error herror]
      rfl
    · have hok : (deref >>= fun c => if c < ch '0' ∨ ch '9' < c then invalid
          else incr >>= fun _ => pure ((c.toNat : ℤ) - 48) : Parse ℤ).run e ⟨i, c :: p, out⟩ =
          .ok ((c.toNat : ℤ) - 48) ⟨i + 1, p, out⟩ := by
        rw [Reader.bind_of_ok hderef, if_neg hbad]
        rfl
      rw [if_neg hbad, Reader.bind_of_ok hok]
      rfl

theorem parseInt_eq_ok {mul v : ℤ} {c t : Cursor UInt8 Head} : (parseInt mul).run 0 c = .ok v t ↔
    ∃ w, c.Moves w t ∧ ∃ n < 10, w = [digit n] ∧ v = mul * n := by
  rw [parseInt_eq, Reader.bind_eq_ok]
  constructor
  · rintro ⟨d, t', hd, hpure⟩
    obtain ⟨n, hn, h, rfl⟩ := digit_eq_ok.mp hd
    obtain ⟨rfl, rfl⟩ := Reader.pure_eq_ok.mp hpure
    exact ⟨_, h, n, hn, rfl, rfl⟩
  · rintro ⟨_, h, n, hn, rfl, rfl⟩
    exact ⟨n, t, digit_eq_ok.mpr ⟨n, hn, h, rfl⟩, rfl⟩

def Leaves (s : Cursor UInt8 Reply) (w : Bytes) (out : Reply) (s' : Cursor UInt8 Reply) : Prop :=
  s.rest = w ++ s'.rest ∧ s'.offset = s.offset + w.length ∧ s'.out = out

theorem Leaves.trans {t : Cursor UInt8 Reply} {v w : Bytes} {out out' : Reply}
    (h : Leaves s v out t) (h' : Leaves t w out' s') : Leaves s (v ++ w) out' s' := by
  refine ⟨?_, ?_, h'.2.2⟩
  · rw [h.1, h'.1, List.append_assoc]
  · rw [h'.2.1, h.2.1, List.length_append, Nat.add_assoc]

theorem Leaves.split {v w : Bytes} {out : Reply} (h : Leaves s (v ++ w) out s') (out' : Reply) :
    ∃ t, Leaves s v out' t ∧ Leaves t w out s' := by
  refine ⟨⟨s.offset + v.length, w ++ s'.rest, out'⟩, ⟨?_, rfl, rfl⟩, rfl, ?_, h.2.2⟩
  · rw [h.1, List.append_assoc]
  · rw [h.2.1, List.length_append, Nat.add_assoc]

theorem moves_iff_leaves {w : Bytes} : s.Moves w s' ↔ Leaves s w s.out s' :=
  ⟨fun h => ⟨h.rest, h.offset, h.out⟩, fun h => ⟨h.1, h.2.1, h.2.2⟩⟩

theorem digits_of_lt {a b c : ℕ} (ha : a < 10) (hb : b < 10) (hc : c < 10) :
    100 * a + 10 * b + c < 1000 ∧
      statusBytes (100 * a + 10 * b + c) = [digit a] ++ [digit b] ++ [digit c] := by
  have h₁ : (100 * a + 10 * b + c) / 100 = a := by omega
  have h₂ : (100 * a + 10 * b + c) / 10 % 10 = b := by omega
  have h₃ : (100 * a + 10 * b + c) % 10 = c := by omega
  rw [statusBytes, h₁, h₂, h₃]
  exact ⟨by omega, rfl⟩

theorem storeInt_eq_ok {mul : ℤ} {f : ℤ → Reply → Reply} {u : Unit} :
    (onFields (parseInt mul) >>= fun v => Reader.store (f v)).run 0 s = .ok u s' ↔
      ∃ n < 10, Leaves s [digit n] (f (mul * n) s.out) s' := by
  rw [Reader.bind_eq_ok]
  constructor
  · rintro ⟨v, t, ht, hstore⟩
    obtain ⟨_, h, n, hn, rfl, rfl⟩ := (onFields_eq_ok (R := fun _ w _ =>
      ∃ n < 10, w = [digit n] ∧ v = mul * n) fun _ _ => parseInt_eq_ok).mp ht
    rw [Reader.store_run] at hstore
    cases hstore
    exact ⟨n, hn, h.rest, h.offset, by rw [h.out]⟩
  · rintro ⟨n, hn, hrest, hoffset, hout⟩
    have hmoves : s.Moves [digit n] ⟨s'.offset, s'.rest, s.out⟩ := ⟨hrest, hoffset, rfl⟩
    refine ⟨mul * n, _, (onFields_eq_ok (R := fun _ w _ => ∃ k < 10, w = [digit k] ∧
      mul * (n : ℤ) = mul * k) fun _ _ => parseInt_eq_ok).mpr ⟨_, hmoves, n, hn, rfl, rfl⟩, ?_⟩
    obtain ⟨i, p, out⟩ := s'
    obtain rfl : out = _ := hout
    rfl

theorem parseStatus_eq : parseStatus =
    (onFields (parseInt 100) >>= fun v => Reader.store (fun out => { out with status := v })) >>=
      fun _ => (onFields (parseInt 10) >>= fun v =>
        Reader.store (fun out => { out with status := out.status + v })) >>=
      fun _ => onFields (parseInt 1) >>= fun v =>
        Reader.store (fun out => { out with status := out.status + v }) := by
  simp only [parseStatus, bind_assoc]

theorem parseStatus_eq_ok {u : Unit} : parseStatus.run 0 s = .ok u s' ↔
    ∃ n < 1000, Leaves s (statusBytes n) { s.out with status := n } s' := by
  rw [parseStatus_eq, Reader.bind_eq_ok]
  constructor
  · rintro ⟨_, t₁, h₁, hrest⟩
    obtain ⟨_, t₂, h₂, h₃⟩ := Reader.bind_eq_ok.mp hrest
    obtain ⟨a, ha, h₁⟩ := storeInt_eq_ok.mp h₁
    obtain ⟨b, hb, h₂⟩ := storeInt_eq_ok.mp h₂
    obtain ⟨c, hc, h₃⟩ := storeInt_eq_ok.mp h₃
    obtain ⟨hlt, hbytes⟩ := digits_of_lt ha hb hc
    refine ⟨_, hlt, ?_⟩
    have h := (h₁.trans h₂).trans h₃
    rw [h₂.2.2, h₁.2.2, ← hbytes] at h
    simpa using h
  · rintro ⟨n, hn, h⟩
    have hbytes : statusBytes n =
        [digit (n / 100)] ++ ([digit (n / 10 % 10)] ++ [digit (n % 10)]) := rfl
    rw [hbytes] at h
    obtain ⟨t₁, h₁, h⟩ := h.split { s.out with status := 100 * ((n / 100 : ℕ) : ℤ) }
    obtain ⟨t₂, h₂, h₃⟩ := h.split { t₁.out with status := t₁.out.status + 10 * (n / 10 % 10 : ℕ) }
    refine ⟨(), t₁, storeInt_eq_ok.mpr ⟨n / 100, by omega, h₁⟩, Reader.bind_eq_ok.mpr ⟨(), t₂,
      storeInt_eq_ok.mpr ⟨n / 10 % 10, by omega, h₂⟩, storeInt_eq_ok.mpr ⟨n % 10, by omega, ?_⟩⟩⟩
    refine ⟨h₃.1, h₃.2.1, h₃.2.2.trans ?_⟩
    have hn : 100 * ((n / 100 : ℕ) : ℤ) + 10 * (n / 10 % 10 : ℕ) + 1 * (n % 10 : ℕ) = n := by omega
    rw [h₂.2.2, h₁.2.2]
    simp only [hn]

/-! ## The message -/

theorem takeWhile_spaces (g : ℕ) {m : Bytes} (hm : ∀ c ∈ m.head?, c ≠ space) (l : LineEnd) :
    ((List.replicate g space ++ m ++ l.bytes).takeWhile (fun c => c == space)).length = g := by
  have hrest : (m ++ l.bytes).takeWhile (fun c => c == space) = [] := by
    cases m with
    | nil => cases l <;> rfl
    | cons c m => exact List.takeWhile_cons_of_neg (by simpa using hm c rfl)
  rw [List.append_assoc, List.takeWhile_append_of_pos (by simp), hrest, List.append_nil,
    List.length_replicate]

theorem head_spaces (g : ℕ) {m : Bytes} (hm : ∀ c ∈ m.head?, c ≠ space) (l : LineEnd) :
    (List.replicate g space ++ m ++ l.bytes).head? = some space ↔ 0 < g := by
  cases g with
  | zero =>
    cases m with
    | nil => cases l <;> decide
    | cons c m => simpa using hm c rfl
  | succ g => simp [List.replicate_succ]

theorem parseMessage_eq_ok {sse : Bool} {u : Unit} : (parseMessage sse).run 0 s = .ok u s' ↔
    ∃ g m, ∃ l : LineEnd, (m ≠ [] → 0 < g) ∧ (∀ c ∈ m, isCtl c = false) ∧
      (∀ c ∈ m.head?, c ≠ space) ∧ Leaves s (List.replicate g space ++ m ++ l.bytes)
        { s.out with msg := ⟨s.offset + g, m.length⟩ } s' := by
  have htoken : ∀ {t : Bytes × ℕ} {s₁ : Cursor UInt8 Reply},
      (onFields (.span (getTokenToEol sse))).run 0 s = .ok t s₁ ↔ ∃ x, s.Moves x s₁ ∧
        ∃ w, ∃ l : LineEnd, x = w ++ l.bytes ∧ (∀ c ∈ w, isCtl c = false) ∧
          t = (w ++ l.bytes, s.offset + w.length) := by
    intro t s₁
    apply onFields_eq_ok (R := fun i x _ => ∃ w, ∃ l : LineEnd, x = w ++ l.bytes ∧
      (∀ c ∈ w, isCtl c = false) ∧ t = (w ++ l.bytes, i + w.length))
    intro c t
    rw [span_token]
    constructor
    · rintro ⟨w, l, h, hw, ht⟩
      exact ⟨_, h, w, l, rfl, hw, ht⟩
    · rintro ⟨_, h, w, l, rfl, hw, ht⟩
      exact ⟨w, l, h, hw, ht⟩
  unfold parseMessage
  rw [Reader.bind_of_ok (Reader.offset_run 0 s), Reader.bind_eq_ok]
  constructor
  · rintro ⟨t, s₁, ht, hrest⟩
    obtain ⟨_, h, w, l, rfl, hw, rfl⟩ := htoken.mp ht
    obtain ⟨g, m, rfl, hm⟩ := exists_spaces w
    have hsize : s.offset + (List.replicate g space ++ m).length - s.offset = g + m.length := by
      rw [Nat.add_sub_cancel_left, List.length_append, List.length_replicate]
    rw [Reader.bind_of_ok (Reader.store_run _ 0 s₁)] at hrest
    simp only [hsize, takeWhile_spaces g hm l] at hrest
    simp only [head_spaces g hm l] at hrest
    have hbytes : ∀ c ∈ m, isCtl c = false := fun c hc => hw c (List.mem_append_right _ hc)
    have hs' : (m ≠ [] → 0 < g) ∧
        s' = ⟨s₁.offset, s₁.rest, { s₁.out with msg := ⟨s.offset + g, m.length⟩ }⟩ := by
      split_ifs at hrest with hempty hg
      · obtain ⟨rfl, hnil⟩ : g = 0 ∧ m.length = 0 := by omega
        obtain rfl := List.length_eq_zero_iff.mp hnil
        cases hrest
        exact ⟨fun hne => absurd rfl hne, rfl⟩
      · rw [Reader.store_run, Nat.add_sub_cancel_left] at hrest
        cases hrest
        exact ⟨fun _ => hg, rfl⟩
      · cases hrest
    obtain ⟨hg, rfl⟩ := hs'
    exact ⟨g, m, l, hg, hbytes, hm, h.rest, h.offset, by rw [h.out]⟩
  · rintro ⟨g, m, l, hg, hbytes, hm, hrest, hoffset, hout⟩
    have hmoves : s.Moves (List.replicate g space ++ m ++ l.bytes) ⟨s'.offset, s'.rest, s.out⟩ :=
      ⟨hrest, hoffset, rfl⟩
    have hw : ∀ c ∈ List.replicate g space ++ m, isCtl c = false := by
      intro c hc
      rcases List.mem_append.mp hc with hc | hc
      · rw [List.eq_of_mem_replicate hc]
        decide
      · exact hbytes c hc
    have hsize : s.offset + (List.replicate g space ++ m).length - s.offset = g + m.length := by
      rw [Nat.add_sub_cancel_left, List.length_append, List.length_replicate]
    refine ⟨_, _, htoken.mpr ⟨_, hmoves, _, l, rfl, hw, rfl⟩, ?_⟩
    rw [Reader.bind_of_ok (Reader.store_run _ 0 _)]
    simp only [hsize, takeWhile_spaces g hm l, head_spaces g hm l]
    obtain ⟨i, p, out⟩ := s'
    obtain rfl : out = _ := hout
    by_cases hpos : 0 < g
    · rw [if_neg (by omega), if_pos hpos, Nat.add_sub_cancel_left]
      rfl
    · obtain rfl : g = 0 := by omega
      obtain rfl : m = [] := by
        by_contra hne
        exact hpos (hg hne)
      rfl

/-! ## The response -/

theorem onFields_parseHeaders_eq_ok {sse : Bool} {room : ℕ} {u : Unit} :
    (onFields (parseHeaders sse room)).run 0 s = .ok u s' ↔
      ∃ fs : List FieldLine, ∃ l : LineEnd, fs.length ≤ room ∧
        (s.out.headers = [] → ∀ f ∈ fs.head?, f.name ≠ none) ∧
        Leaves s (fs.flatMap FieldLine.bytes ++ l.bytes)
          { s.out with headers := s.out.headers ++ FieldLine.fields s.offset fs } s' := by
  unfold onFields
  rw [Reader.part_eq_ok]
  constructor
  · rintro ⟨t, ht, rfl⟩
    obtain ⟨fs, l, hlen, hfirst, hrest, hoffset, hout⟩ := parseHeaders_eq_ok.mp ht
    refine ⟨fs, l, hlen, hfirst, hrest, hoffset, ?_⟩
    rw [hout]
    rfl
  · rintro ⟨fs, l, hlen, hfirst, hrest, hoffset, hout⟩
    refine ⟨⟨s'.offset, s'.rest, { s.out.head with
      headers := s.out.headers ++ FieldLine.fields s.offset fs }⟩, parseHeaders_eq_ok.mpr
      ⟨fs, l, hlen, hfirst, hrest, hoffset, rfl⟩, ?_⟩
    obtain ⟨i, p, out⟩ := s'
    obtain rfl : out = _ := hout
    rfl

theorem onFields_deref_eq_ok {c : UInt8} :
    (onFields deref).run 0 s = .ok c s' ↔ (∃ p, s.rest = c :: p) ∧ s = s' := by
  unfold onFields deref
  rw [Reader.part_eq_ok]
  constructor
  · rintro ⟨t, ht, rfl⟩
    obtain ⟨hp, rfl⟩ := Reader.current_eq_ok.mp ht
    exact ⟨hp, rfl⟩
  · rintro ⟨hp, rfl⟩
    exact ⟨_, Reader.current_eq_ok.mpr ⟨hp, rfl⟩, rfl⟩

theorem onFields_skipSpaces_eq_ok {u : Unit} : (onFields skipSpaces).run 0 s = .ok u s' ↔
    ∃ w, s.Moves w s' ∧ ∃ a n c p, w = a :: List.replicate n space ∧ s'.rest = c :: p ∧
      c ≠ space := by
  apply onFields_eq_ok (R := fun _ w q => ∃ a n c p, w = a :: List.replicate n space ∧
    q = c :: p ∧ c ≠ space)
  intro c t
  rw [skipSpaces_eq_ok]
  constructor
  · rintro ⟨a, n, c, p, h, hp, hc⟩
    exact ⟨_, h, a, n, c, p, rfl, hp, hc⟩
  · rintro ⟨_, h, a, n, c, p, rfl, hp, hc⟩
    exact ⟨a, n, c, p, h, hp, hc⟩

theorem onFields_parseHttpVersion_eq_ok {v : ℤ} :
    (onFields parseHttpVersion).run 0 s = .ok v s' ↔ ∃ w, s.Moves w s' ∧
      ∃ n < 10, w = versionBytes n ∧ s'.rest ≠ [] ∧ v = n := by
  apply onFields_eq_ok (R := fun _ w q => ∃ n < 10, w = versionBytes n ∧ q ≠ [] ∧ v = (n : ℤ))
  intro c t
  rw [parseHttpVersion_eq_ok]
  constructor
  · rintro ⟨n, hn, h, hne, hv⟩
    exact ⟨_, h, n, hn, rfl, hne, hv⟩
  · rintro ⟨_, h, n, hn, rfl, hne, hv⟩
    exact ⟨n, hn, h, hne, hv⟩

theorem digit_ne_space (n : ℕ) (hn : n < 10) : digit n ≠ space := by
  have hall : ∀ n < 10, digit n ≠ space := by decide
  exact hall n hn

theorem afterVersion_eq_ok {sse : Bool} {maxHeaders : ℕ} {u : Unit} (hnil : s.out.headers = []) :
    (afterVersion sse maxHeaders).run 0 s = .ok u s' ↔
      ∃ h : ResponseHead maxHeaders, Leaves s (List.replicate (h.spaces + 1) space ++
          (statusBytes h.status ++ ((List.replicate h.gap space ++ h.message ++ h.lineEnd.bytes) ++
            (h.headers.flatMap FieldLine.bytes ++ h.last.bytes))))
        { s.out with
          status := h.status
          msg := ⟨s.offset + (List.replicate (h.spaces + 1) space).length +
            (statusBytes h.status).length + h.gap, h.message.length⟩
          headers := FieldLine.fields (s.offset + (List.replicate (h.spaces + 1) space).length +
            (statusBytes h.status).length +
            (List.replicate h.gap space ++ h.message ++ h.lineEnd.bytes).length)
              h.headers } s' := by
  unfold afterVersion
  rw [Reader.bind_eq_ok]
  constructor
  · rintro ⟨c, _, hderef, hrest⟩
    obtain ⟨⟨p, hp⟩, rfl⟩ := onFields_deref_eq_ok.mp hderef
    split_ifs at hrest with hc
    · cases hrest
    rw [not_not] at hc
    subst hc
    obtain ⟨_, t₂, hspaces, hrest⟩ := Reader.bind_eq_ok.mp hrest
    obtain ⟨_, h₂, a, n, -, -, rfl, -, -⟩ := onFields_skipSpaces_eq_ok.mp hspaces
    obtain ⟨rfl, -⟩ := List.cons.inj (hp.symm.trans h₂.rest)
    obtain ⟨_, _, hrequire, hrest⟩ := Reader.bind_eq_ok.mp hrest
    obtain ⟨-, rfl⟩ := Reader.require_eq_ok.mp hrequire
    obtain ⟨_, t₃, hstatus, hrest⟩ := Reader.bind_eq_ok.mp hrest
    obtain ⟨status, hlt, h₃⟩ := parseStatus_eq_ok.mp hstatus
    obtain ⟨_, t₄, hmessage, hheaders⟩ := Reader.bind_eq_ok.mp hrest
    obtain ⟨g, m, l, hg, hm, hfirst, h₄⟩ := parseMessage_eq_ok.mp hmessage
    obtain ⟨fs, last, hlen, hhead, h₅⟩ := onFields_parseHeaders_eq_ok.mp hheaders
    have h₂ := moves_iff_leaves.mp h₂
    have hheaders₄ : t₄.out.headers = [] := by
      rw [h₄.2.2, h₃.2.2, h₂.2.2]
      exact hnil
    refine ⟨⟨0, n, status, g, m, l, fs, last, by decide, hlt, hg, hm, hfirst, hlen,
      hhead hheaders₄⟩, ?_⟩
    have h := h₂.trans (h₃.trans (h₄.trans h₅))
    rwa [hheaders₄, List.nil_append, h₄.2.2, h₄.2.1, h₃.2.2, h₃.2.1, h₂.2.2, h₂.2.1] at h
  · rintro ⟨h, hleaves⟩
    obtain ⟨t₂, h₂, hleaves⟩ := hleaves.split s.out
    obtain ⟨t₃, h₃, hleaves⟩ := hleaves.split { t₂.out with status := h.status }
    obtain ⟨t₄, h₄, h₅⟩ := hleaves.split
      { t₃.out with msg := ⟨t₃.offset + h.gap, h.message.length⟩ }
    have hfirst : ∃ p, t₂.rest = digit (h.status / 100) :: p ∧ 3 ≤ p.length := by
      obtain ⟨c, p, hp, -⟩ := h.lineEnd.bytes_eq_cons
      refine ⟨[digit (h.status / 10 % 10), digit (h.status % 10)] ++ t₃.rest, h₃.1, ?_⟩
      rw [h₄.1, hp]
      simp only [List.length_append, List.length_cons]
      omega
    obtain ⟨p, hp, hlen⟩ := hfirst
    have hderef : (onFields deref).run 0 s = .ok space s :=
      onFields_deref_eq_ok.mpr ⟨⟨_, h₂.1⟩, rfl⟩
    have hspaces : (onFields skipSpaces).run 0 s = .ok () t₂ :=
      onFields_skipSpaces_eq_ok.mpr ⟨_, moves_iff_leaves.mpr h₂, space, h.spaces, _, p, rfl, hp,
        digit_ne_space _ (by have := h.status_lt; omega)⟩
    have hrequire : (Reader.require .incomplete 4 : ParseReply Unit).run 0 t₂ = .ok () t₂ :=
      Reader.require_eq_ok.mpr ⟨by rw [hp, List.length_cons]; omega, rfl⟩
    have hstatus : parseStatus.run 0 t₂ = .ok () t₃ :=
      parseStatus_eq_ok.mpr ⟨h.status, h.status_lt, h₃⟩
    have hmessage : (parseMessage sse).run 0 t₃ = .ok () t₄ := parseMessage_eq_ok.mpr
      ⟨h.gap, h.message, h.lineEnd, h.gap_pos, h.message_bytes, h.message_first, h₄⟩
    refine ⟨space, s, hderef, ?_⟩
    rw [if_neg (by simp), Reader.bind_of_ok hspaces, Reader.bind_of_ok hrequire,
      Reader.bind_of_ok hstatus, Reader.bind_of_ok hmessage]
    refine onFields_parseHeaders_eq_ok.mpr
      ⟨h.headers, h.last, h.headers_le, fun _ => h.headers_first, h₅.1, h₅.2.1, ?_⟩
    rw [h₅.2.2, h₄.2.2, h₄.2.1, h₃.2.2, h₃.2.1, h₂.2.2, h₂.2.1, hnil]
    rfl

/-- The parser accepts the inputs that begin with a head, and stores the places of its parts. -/
theorem parseResponse_eq_ok {sse : Bool} {maxHeaders : ℕ} {input : Bytes} {u : Unit} :
    (parseResponse sse maxHeaders).run 0 ⟨0, input, .init⟩ = .ok u s' ↔
      ∃ h : ResponseHead maxHeaders, Leaves ⟨0, input, .init⟩ h.bytes h.places s' := by
  have hbytes : ∀ h : ResponseHead maxHeaders, h.bytes = versionBytes h.minorVersion ++
      (List.replicate (h.spaces + 1) space ++ (statusBytes h.status ++
        ((List.replicate h.gap space ++ h.message ++ h.lineEnd.bytes) ++
          (h.headers.flatMap FieldLine.bytes ++ h.last.bytes)))) := by
    intro h
    simp only [ResponseHead.bytes, ResponseHead.statusLine, ResponseHead.beforeMessage,
      List.append_assoc]
  unfold parseResponse
  rw [Reader.bind_eq_ok]
  constructor
  · rintro ⟨_, t, hversion, hrest⟩
    obtain ⟨_, h₁, v, hv, rfl, -, rfl⟩ := onFields_parseHttpVersion_eq_ok.mp hversion
    rw [Reader.bind_of_ok (Reader.store_run _ 0 t)] at hrest
    have h₁ : Leaves ⟨0, input, .init⟩ (versionBytes v) { Reply.init with minorVersion := v }
        { t with out := { t.out with minorVersion := v } } :=
      ⟨h₁.rest, h₁.offset, by rw [h₁.out]⟩
    obtain ⟨h, h₂⟩ := (afterVersion_eq_ok (by rw [h₁.2.2]; rfl)).mp hrest
    refine ⟨{ h with minorVersion := v, minorVersion_lt := hv }, ?_⟩
    have hall := h₁.trans h₂
    rw [h₁.2.2, h₁.2.1] at hall
    refine ⟨hall.1.trans ?_, hall.2.1.trans ?_, hall.2.2.trans ?_⟩
    · rw [hbytes]
    · rw [hbytes]
    · simp only [ResponseHead.places, ResponseHead.statusLine, ResponseHead.beforeMessage,
        List.length_append, List.length_replicate, Nat.zero_add, Nat.add_assoc]
  · rintro ⟨h, hleaves⟩
    rw [hbytes] at hleaves
    obtain ⟨t, h₁, h₂⟩ := hleaves.split .init
    have hne : t.rest ≠ [] := by
      rw [h₂.1]
      simp [List.replicate_succ]
    refine ⟨h.minorVersion, t, onFields_parseHttpVersion_eq_ok.mpr ⟨_, moves_iff_leaves.mpr h₁,
      h.minorVersion, h.minorVersion_lt, rfl, hne, rfl⟩, ?_⟩
    rw [Reader.bind_of_ok (Reader.store_run _ 0 t)]
    refine (afterVersion_eq_ok (by rw [h₁.2.2]; rfl)).mpr ⟨h, h₂.1, h₂.2.1, h₂.2.2.trans ?_⟩
    rw [h₁.2.2]
    simp only [h₁.2.1, ResponseHead.places, ResponseHead.statusLine, ResponseHead.beforeMessage,
      List.length_append, List.length_replicate, Nat.zero_add, Nat.add_assoc]

end Passed

/-! ## What the parser decides on -/

abbrev SettlesReply {α : Type} (m : ParseReply α) : Prop := Reader.Settled Final Short m

abbrev StaysReply {α : Type} (P : Bytes → Prop) (m : ParseReply α) (Q : Bytes → Prop) : Prop :=
  Reader.Ensures (fun s => P s.rest) m (fun _ s => Q s.rest) Inside

theorem settles_parseInt (mul : ℤ) : Settles (parseInt mul) := by
  apply settles_deref.bind
  intro c
  exact .ite (.fail _) (settles_incr.bind fun _ => .pure _)

theorem settles_parseStatus : SettlesReply parseStatus := by
  rw [parseStatus_eq]
  apply ((settles_parseInt 100).part.bind fun _ => .store _).bind
  intro _
  apply ((settles_parseInt 10).part.bind fun _ => .store _).bind
  intro _
  exact (settles_parseInt 1).part.bind fun _ => .store _

theorem settles_token (sse : Bool) : Settles (.span (getTokenToEol sse)) := by
  apply (settles_getTokenToEol sse).span
  intro s a s' h
  obtain ⟨w, l, hw, -⟩ := getTokenToEol_eq_ok.mp h
  exact ⟨_, hw⟩

theorem settles_parseMessage (sse : Bool) : SettlesReply (parseMessage sse) := by
  apply Reader.Settled.offset.bind
  intro msg
  apply (settles_token sse).part.bind
  intro token
  apply (Reader.Settled.store _).bind
  intro _
  exact .ite (.pure _) (.ite (.store _) (.fail _))

theorem settles_afterVersion (sse : Bool) (maxHeaders : ℕ) :
    SettlesReply (afterVersion sse maxHeaders) := by
  apply settles_deref.part.bind
  intro c
  apply Reader.Settled.ite (.fail _)
  apply settles_skipSpaces.part.bind
  intro _
  apply (Reader.Settled.require (by rintro ⟨⟩) 4).bind
  intro _
  apply settles_parseStatus.bind
  intro _
  apply (settles_parseMessage sse).bind
  intro _
  exact (settles_parseHeaders sse maxHeaders).part

theorem settles_parseResponse (sse : Bool) (maxHeaders : ℕ) :
    SettlesReply (parseResponse sse maxHeaders) := by
  apply settles_parseHttpVersion.part.bind
  intro minor
  apply (Reader.Settled.store _).bind
  intro _
  exact settles_afterVersion sse maxHeaders

theorem stays_storeInt (mul : ℤ) (f : ℤ → Reply → Reply) (n : ℕ) :
    StaysReply (fun p => n + 1 ≤ p.length)
      (onFields (parseInt mul) >>= fun v => Reader.store (f v)) (fun p => n ≤ p.length) := by
  apply Reader.Ensures.bind (Q := fun _ s => n ≤ s.rest.length)
  · apply Reader.Ensures.part (P := fun p => n + 1 ≤ p.length) (Q := fun p => n ≤ p.length)
    apply Reader.Ensures.bind (Reader.Ensures.current _)
    · intro c
      apply Reader.Ensures.ite
      · intro _
        exact stays_invalid
      · intro _
        apply Reader.Ensures.bind ((Reader.Ensures.advance n).weaken (fun s h => h.1)
          (fun _ _ h => h))
        intro _
        exact .of_ok fun s hs => ⟨_, s, rfl, hs⟩
    · intro s hs hnil
      rw [hnil] at hs
      simp at hs
  · intro v
    exact .of_ok fun s hs => ⟨(), _, Reader.store_run _ _ _, hs⟩

theorem stays_parseStatus :
    StaysReply (fun p => 3 ≤ p.length) parseStatus (fun _ => True) := by
  rw [parseStatus_eq]
  apply (stays_storeInt 100 _ 2).bind
  intro _
  apply (stays_storeInt 10 _ 1).bind
  intro _
  exact (stays_storeInt 1 _ 0).weaken (fun _ h => h) (fun _ _ _ => trivial)

theorem stays_parseMessage (sse : Bool) :
    StaysReply (fun _ => True) (parseMessage sse) (fun _ => True) := by
  apply Reader.Ensures.bind (Q := fun _ _ => True) (.of_ok fun s _ => ⟨_, s, rfl, trivial⟩)
  intro msg
  apply Reader.Ensures.bind (Q := fun _ _ => True)
  · apply Reader.Ensures.part (P := fun _ => True) (Q := fun _ => True)
    intro s hs
    refine ⟨fun _ _ _ => trivial, fun r s' h => ?_⟩
    exact (stays_getTokenToEol sse s hs).2 r s' (Reader.span_eq_error.mp h)
  intro token
  apply Reader.Ensures.bind (Q := fun _ _ => True)
  · exact .of_ok fun s _ => ⟨(), _, Reader.store_run _ _ _, trivial⟩
  intro _
  apply Reader.Ensures.ite
  · intro _
    exact .of_ok fun s _ => ⟨(), s, rfl, trivial⟩
  · intro _
    apply Reader.Ensures.ite
    · intro _
      exact .of_ok fun s _ => ⟨(), _, Reader.store_run _ _ _, trivial⟩
    · intro _
      exact .fail inside_invalid

def VersionOpen (input : Bytes) : Prop :=
  ∃ v < 10, ∃ n, input = versionBytes v ++ List.replicate (n + 1) space

section Open

variable {sse : Bool} {maxHeaders : ℕ}

theorem phrParseResponse_eq (input behind : Bytes) :
    phrParseResponse sse input behind maxHeaders 0 =
      returned ((parseResponse sse maxHeaders).run behind.length ⟨0, input ++ behind, .init⟩) := rfl

theorem afterVersion_fault {s t : Cursor UInt8 Reply} {f : Fault} (hne : s.rest ≠ [])
    (h : (afterVersion sse maxHeaders).run 0 s = .error (.fault f) t) :
    ∃ n, s.rest = List.replicate (n + 1) space := by
  unfold afterVersion at h
  obtain ⟨c, p, hp⟩ := List.exists_cons_of_ne_nil hne
  rw [Reader.bind_of_ok (onFields_deref_eq_ok.mpr ⟨⟨p, hp⟩, rfl⟩)] at h
  split_ifs at h with hc
  · cases h
  rw [not_not] at hc
  subst hc
  rcases Reader.bind_eq_error.mp h with hspaces | ⟨_, s₁, -, hrest⟩
  · obtain ⟨t, ht, -⟩ := Reader.part_eq_error.mp hspaces
    rw [hp] at ht ⊢
    exact ⟨p.length, skipSpaces_error ht⟩
  · have hstays : StaysReply (fun _ => True) (do
        .require .incomplete 4
        parseStatus
        parseMessage sse
        onFields (parseHeaders sse maxHeaders) : ParseReply Unit) (fun _ => True) := by
      apply Reader.Ensures.bind (Q := fun _ s => 3 ≤ s.rest.length)
        ((Reader.Ensures.require inside_incomplete 4).weaken (fun _ h => h)
          (fun _ _ h => Nat.le_of_succ_le h.2))
      intro _
      apply stays_parseStatus.bind
      intro _
      apply (stays_parseMessage sse).bind
      intro _
      exact .part (P := fun _ => True) (Q := fun _ => True) (stays_parseHeaders sse maxHeaders)
    exact absurd rfl ((hstays s₁ trivial).2 _ _ hrest f)

/-- On its input alone the parser leaves it exactly in the spaces behind the version. -/
theorem parseResponse_fault {input : Bytes} {f : Fault} {t : Cursor UInt8 Reply}
    (h : (parseResponse sse maxHeaders).run 0 ⟨0, input, .init⟩ = .error (.fault f) t) :
    VersionOpen input := by
  rcases Reader.bind_eq_error.mp h with hversion | ⟨_, s, hversion, h⟩
  · have hstays : StaysReply (fun _ => True) (onFields parseHttpVersion) (fun p => p ≠ []) :=
      .part (P := fun _ => True) (Q := fun p => p ≠ []) stays_parseHttpVersion
    exact absurd rfl ((hstays _ trivial).2 _ _ hversion f)
  · obtain ⟨_, hmoves, v, hv, rfl, hne, -⟩ := onFields_parseHttpVersion_eq_ok.mp hversion
    rw [Reader.bind_of_ok (Reader.store_run _ 0 s)] at h
    obtain ⟨n, hn⟩ := afterVersion_fault (by exact hne) h
    exact ⟨v, hv, n, hmoves.rest.trans (congrArg _ hn)⟩

def versionReply (v : ℕ) : Reply := { Reply.init with minorVersion := v }

theorem parseResponse_open {v : ℕ} (hv : v < 10) (n : ℕ) (b : Bytes) :
    (parseResponse sse maxHeaders).run b.length
        ⟨0, versionBytes v ++ List.replicate (n + 1) space ++ b, .init⟩ =
      (onFields skipSpaces >>= fun _ => do
        .require .incomplete 4
        parseStatus
        parseMessage sse
        onFields (parseHeaders sse maxHeaders)).run b.length
          ⟨(versionBytes v).length, List.replicate (n + 1) space ++ b, versionReply v⟩ := by
  have hversion : (onFields parseHttpVersion).run 0
      ⟨0, versionBytes v ++ List.replicate (n + 1) space, .init⟩ =
      .ok (v : ℤ) ⟨(versionBytes v).length, List.replicate (n + 1) space, .init⟩ := by
    refine onFields_parseHttpVersion_eq_ok.mpr
      ⟨_, ⟨rfl, (Nat.zero_add _).symm, rfl⟩, v, hv, rfl, ?_, rfl⟩
    simp [List.replicate_succ]
  have hext := settles_parseHttpVersion.part.ok hversion [] b
  unfold parseResponse
  refine (Reader.bind_of_ok hext).trans ?_
  rw [Reader.bind_of_ok (Reader.store_run _ _ _)]
  unfold afterVersion
  have hderef : (onFields deref).run b.length
      ⟨(versionBytes v).length, List.replicate (n + 1) space ++ b, versionReply v⟩ =
      .ok space ⟨(versionBytes v).length, List.replicate (n + 1) space ++ b, versionReply v⟩ := rfl
  refine (Reader.bind_of_ok hderef).trans ?_
  rw [if_neg (by simp)]

theorem phrParseResponse_open {v : ℕ} (hv : v < 10) (n : ℕ) (b : Bytes) :
    phrParseResponse sse (versionBytes v ++ List.replicate (n + 1) space) b maxHeaders 0 =
      if b.all (fun c => c == space) then .error .outside else .ok (-2, versionReply v) := by
  have hspaces : ∀ g, List.replicate (n + 1) space ++ List.replicate g space =
      List.replicate (n + g + 1) space := by
    intro g
    rw [List.replicate_append_replicate, Nat.add_right_comm]
  rw [phrParseResponse_eq, parseResponse_open hv]
  obtain ⟨g, m, rfl, hm⟩ := exists_spaces b
  cases m with
  | nil =>
    have herror : ∀ e, (onFields skipSpaces).run e ⟨(versionBytes v).length,
        List.replicate (n + g + 1) space, versionReply v⟩ = .error (.fault .outside)
        ⟨(versionBytes v).length + (n + g + 1), [], versionReply v⟩ :=
      fun e => Reader.part_eq_error.mpr ⟨_, skipSpaces_outside (n + g) e _ _, rfl⟩
    have hall : (List.replicate g space ++ []).all (fun c => c == space) = true := by simp
    rw [if_pos hall, List.append_nil, hspaces, Reader.bind_of_error (herror _)]
    rfl
  | cons c p =>
    have hc : c ≠ space := hm c rfl
    have hok : ∀ e, (onFields skipSpaces).run e ⟨(versionBytes v).length,
        List.replicate (n + g + 1) space ++ c :: p, versionReply v⟩ = .ok ()
        ⟨(versionBytes v).length + (n + g + 1), c :: p, versionReply v⟩ :=
      fun e => Reader.part_eq_ok.mpr ⟨_, skipSpaces_run hc (n + g) p e _ _, rfl⟩
    have hshort : (Reader.require .incomplete 4 : ParseReply Unit).run
        (List.replicate g space ++ c :: p).length
        ⟨(versionBytes v).length + (n + g + 1), c :: p, versionReply v⟩ = .error .incomplete
        ⟨(versionBytes v).length + (n + g + 1), c :: p, versionReply v⟩ := by
      apply if_pos
      show (c :: p).length < _
      rw [List.length_append]
      omega
    have hall : ¬ (List.replicate g space ++ c :: p).all (fun c => c == space) = true := by
      intro hall
      exact hc (by simpa using List.all_eq_true.mp hall c (by simp))
    rw [if_neg hall, ← List.append_assoc, hspaces, Reader.bind_of_ok (hok _),
      Reader.bind_of_error hshort]
    rfl

theorem parseResponse_closed {input : Bytes} (h : ¬ VersionOpen input) (behind : Bytes) :
    phrParseResponse sse input behind maxHeaders 0 =
      phrParseResponse sse input [] maxHeaders 0 := by
  have hsettled := settles_parseResponse sse maxHeaders
  have hextend : (parseResponse sse maxHeaders).run behind.length ⟨0, input ++ behind, .init⟩ =
      Reader.extendResult ((parseResponse sse maxHeaders).run 0 ⟨0, input, .init⟩) behind := by
    cases hrun : (parseResponse sse maxHeaders).run 0 ⟨0, input, .init⟩ with
    | ok u t => exact hsettled.ok hrun [] behind
    | error r t =>
      cases r with
      | invalid => exact hsettled.final hrun rfl [] behind
      | incomplete => exact hsettled.short hrun rfl behind
      | fault f => exact absurd (parseResponse_fault hrun) h
  rw [phrParseResponse_eq, phrParseResponse_eq, hextend, returned_extendResult, List.append_nil]
  rfl

theorem parseResponse_inside (sse : Bool) (maxHeaders : ℕ) {input : Bytes}
    (h : ¬ VersionOpen input) : ∃ r, phrParseResponse sse input [] maxHeaders 0 = .ok r := by
  rw [phrParseResponse_eq, List.append_nil]
  cases hrun : (parseResponse sse maxHeaders).run 0 ⟨0, input, .init⟩ with
  | ok u t => exact ⟨_, rfl⟩
  | error r t =>
    cases r with
    | invalid => exact ⟨_, rfl⟩
    | incomplete => exact ⟨_, rfl⟩
    | fault f => exact absurd (parseResponse_fault hrun) h

theorem ResponseHead.length_pos (h : ResponseHead maxHeaders) : 0 < h.bytes.length := by
  have hdigits : (statusBytes h.status).length = 3 := rfl
  simp only [ResponseHead.bytes, ResponseHead.statusLine, ResponseHead.beforeMessage,
    List.length_append, hdigits]
  omega

theorem parseResponse_bytes (h : ResponseHead maxHeaders) (rest : Bytes) :
    (parseResponse sse maxHeaders).run 0 ⟨0, h.bytes ++ rest, .init⟩ =
      .ok () ⟨h.bytes.length, rest, h.places⟩ :=
  parseResponse_eq_ok.mpr ⟨h, rfl, (Nat.zero_add _).symm, rfl⟩

/-- The head of a response is found where it stands. -/
theorem phrParseResponse_bytes (h : ResponseHead maxHeaders) (hlen : h.bytes.length < 2 ^ 31)
    (rest behind : Bytes) : phrParseResponse sse (h.bytes ++ rest) behind maxHeaders 0 =
      .ok (h.bytes.length, h.places) := by
  have hext := (settles_parseResponse sse maxHeaders).ok (parseResponse_bytes h rest) [] behind
  simp only [Cursor.extend, List.nil_append] at hext
  rw [phrParseResponse_eq, hext, returned, cint_of_lt hlen]

/-- A head that is cut off is waited for. -/
theorem phrParseResponse_partial (sse : Bool) {h : ResponseHead maxHeaders} {p x : Bytes}
    (hp : p ++ x = h.bytes) (hx : x ≠ []) {behind : Bytes}
    (hbehind : behind.all (fun c => c == space) = false) :
    ∃ reply, phrParseResponse sse p behind maxHeaders 0 = .ok (-2, reply) := by
  by_cases hopen : VersionOpen p
  · obtain ⟨v, hv, n, rfl⟩ := hopen
    refine ⟨versionReply v, ?_⟩
    rw [phrParseResponse_open hv, hbehind]
    rfl
  rw [parseResponse_closed hopen, phrParseResponse_eq, List.append_nil]
  have hsettled := settles_parseResponse sse maxHeaders
  have hwhole : (parseResponse sse maxHeaders).run 0 ⟨0, p ++ x, .init⟩ =
      .ok () ⟨h.bytes.length, [], h.places⟩ := by
    have hnil : p ++ x = h.bytes ++ [] := hp.trans (List.append_nil _).symm
    rw [hnil, parseResponse_bytes]
  cases hrun : (parseResponse sse maxHeaders).run 0 ⟨0, p, .init⟩ with
  | ok u t =>
    -- a head inside the part would leave the rest of the whole
    have hext := hsettled.ok hrun x []
    simp only [Cursor.extend, List.append_nil, List.length_nil] at hext
    have hrest : [] = t.rest ++ x :=
      congrArg Cursor.rest (Result.ok.inj (hwhole.symm.trans hext)).2
    exact absurd (List.append_eq_nil_iff.mp hrest.symm).2 hx
  | error r t =>
    cases r with
    | invalid =>
      have hext := hsettled.final hrun rfl x []
      simp only [Cursor.extend, List.append_nil, List.length_nil] at hext
      cases hwhole.symm.trans hext
    | incomplete => exact ⟨_, rfl⟩
    | fault f => exact absurd (parseResponse_fault hrun) hopen

end Open

/-- With `last_len` 0 the parser looks at its input only, and returns the same whatever lies behind
it, unless the input ends in the spaces behind the version. There it reads on to the end of the
spaces: it leaves a memory that ends before them, and asks for more input otherwise. -/
theorem phrParseResponse_behind (sse : Bool) (maxHeaders : ℕ) :
    (∀ input, ¬ VersionOpen input →
      ∃ r, ∀ behind, phrParseResponse sse input behind maxHeaders 0 = .ok r) ∧
    ∀ v < 10, ∀ n behind,
      phrParseResponse sse (versionBytes v ++ List.replicate (n + 1) space) behind maxHeaders 0 =
        if behind.all (fun c => c == space) then .error .outside else .ok (-2, versionReply v) := by
  refine ⟨fun input hopen => ?_, fun v hv n behind => phrParseResponse_open hv n behind⟩
  obtain ⟨r, hr⟩ := parseResponse_inside sse maxHeaders hopen
  exact ⟨r, fun behind => (parseResponse_closed hopen behind).trans hr⟩

/-- With `last_len` 0, on inputs below 2^31 bytes the parser accepts exactly those that begin with a
response's head, returns the head's length and stores the places of its parts, whatever lies behind
the input. -/
theorem phrParseResponse_head (sse : Bool) {input : Bytes} (hlen : input.length < 2 ^ 31)
    (behind : Bytes) (maxHeaders : ℕ) (r : ℤ) (reply : Reply) :
    (phrParseResponse sse input behind maxHeaders 0 = .ok (r, reply) ∧ 0 < r) ↔
      ∃ (h : ResponseHead maxHeaders) (rest : Bytes), input = h.bytes ++ rest ∧
        r = h.bytes.length ∧ reply = h.places := by
  constructor
  · rintro ⟨hrun, hpos⟩
    by_cases hopen : VersionOpen input
    · obtain ⟨v, hv, n, rfl⟩ := hopen
      rw [phrParseResponse_open hv] at hrun
      split_ifs at hrun
      obtain ⟨rfl, -⟩ := Prod.mk.inj (Except.ok.inj hrun)
      omega
    rw [parseResponse_closed hopen, phrParseResponse_eq, List.append_nil] at hrun
    obtain ⟨t, ht, hr, hreply⟩ := returned_pos hrun hpos
    obtain ⟨h, hrest, hoffset, hout⟩ := parseResponse_eq_ok.mp ht
    have hrest : input = h.bytes ++ t.rest := hrest
    have hoffset : t.offset = h.bytes.length := hoffset.trans (Nat.zero_add _)
    refine ⟨h, t.rest, hrest, ?_, hreply.trans hout⟩
    rw [hrest, List.length_append] at hlen
    rw [hr, hoffset, cint_of_lt (by omega)]
  · rintro ⟨h, rest, rfl, rfl, rfl⟩
    rw [List.length_append] at hlen
    exact ⟨phrParseResponse_bytes h (by omega) rest behind, by have := h.length_pos; omega⟩

def notFoundHead : ResponseHead 4 where
  minorVersion := 1
  spaces := 0
  status := 404
  gap := 1
  message := str "Not Found"
  lineEnd := .crlf
  headers := []
  last := .crlf
  minorVersion_lt := one_lt_ten
  status_lt := by decide
  gap_pos := fun _ => Nat.one_pos
  message_bytes c hc := by
    have hall : (str "Not Found").all (fun c => !isCtl c) = true := rfl
    simpa using List.all_eq_true.mp hall c hc
  message_first := by
    rintro _ ⟨⟩
    decide
  headers_le := Nat.zero_le 4
  headers_first := noHeaders_first

theorem phrParseResponse_head_notFound :
    phrParseResponse false (notFoundHead.bytes ++ str "body") (str "HTTP") 4 0 =
      .ok (26, ⟨1, 404, ⟨13, 9⟩, []⟩) :=
  ((phrParseResponse_head false (by decide) (str "HTTP") 4 26 notFoundHead.places).mpr
    ⟨notFoundHead, str "body", rfl, by decide, rfl⟩).1

end LibReactor.Phr
