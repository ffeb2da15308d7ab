import LibReactor.ReadRequest

/-!
# The Content-Length field

`http_read_request` hands the field's value to `strtoull`, which passes over blanks,
takes a sign, stops at the first byte that is no digit and saturates; the sum with the
header's length wraps round. The body has the size that the field says when the field
is a decimal numeral and the sum fits.
-/

namespace LibReactor

def Decimal (v : Bytes) : Prop := v ≠ [] ∧ ∀ c ∈ v, isdigit c = true

/-- What is assumed of a field that the parser reports: a blank or the line's end follows its
value. -/
def ValueEnds (input : Bytes) (d : Data) : Prop :=
  ∃ c t, input.drop (d.base + d.size) = c :: t ∧ isspace c = true

theorem isxdigit_of_isdigit {c : UInt8} (h : isdigit c = true) :
    isxdigit c = true ∧ digitValue c < 10 := by
  refine ⟨by simp [isxdigit, h], ?_⟩
  simp only [digitValue, h, if_true]
  simp only [isdigit, Bool.and_eq_true, decide_eq_true_eq, UInt8.le_iff_toNat_le,
    UInt8.reduceToNat] at h
  omega

namespace ValueEnds

variable {input : Bytes} {d : Data}

theorem lt_length (h : ValueEnds input d) : d.base + d.size < input.length := by
  obtain ⟨c, t, hdrop, -⟩ := h
  have := congrArg List.length hdrop
  simp only [List.length_drop, List.length_cons] at this
  omega

theorem length_bytes (h : ValueEnds input d) : (d.bytes input).length = d.size := by
  have := h.lt_length
  rw [Data.bytes, List.length_take, List.length_drop]
  omega

/-- `strtoull` reads a decimal numeral to its end, and no further. -/
theorem strtoul_eq (h : ValueEnds input d) (hdecimal : Decimal (d.bytes input)) :
    strtoul 10 (input.drop d.base) =
      if 2 ^ 64 ≤ numeral 10 (d.bytes input) then 2 ^ 64 - 1 else numeral 10 (d.bytes input) := by
  obtain ⟨c, t, hdrop, hspace⟩ := h
  obtain ⟨hvalue, hx, hX⟩ := not_digit_of_isspace hspace
  have hsplit : input.drop d.base = d.bytes input ++ c :: t := by
    rw [← hdrop, ← List.drop_drop, Data.bytes, List.take_append_drop]
  rw [hsplit]
  exact strtoul_digits hdecimal.1 (fun x hmem => isxdigit_of_isdigit (hdecimal.2 x hmem))
    (by omega) hx hX t

end ValueEnds

section Field

variable (phr : Parser) (stream : Stream) (request : Request) (value : Bytes)

/-- The value of the field decides: a decimal numeral is the size of the body behind the header,
and any other value is an error that consumes nothing. -/
def LengthIsDecimal : Prop :=
  ∃ ret q s, httpReadRequest phr stream request = .ok (ret, q, s) ∧
    (ret = 1 → Decimal value ∧
      q.body = some ⟨(phr stream.unread).ret.toNat, numeral 10 value⟩ ∧
      (phr stream.unread).ret.toNat + numeral 10 value ≤ stream.unread.length ∧
      s = stream.consume ((phr stream.unread).ret.toNat + numeral 10 value)) ∧
    (¬ Decimal value → ret = -1 ∧ s = stream)

/-- The value is a decimal numeral whose sum with the header's length is below `2 ^ 64`, or the
request also has a Transfer-Encoding, which for an empty value has to be malformed. -/
def LengthFits : Prop :=
  let p := phr stream.unread
  let n := p.ret.toNat
  ((p.encoding stream.unread).size = 0 ∧ Decimal value ∧ n + numeral 10 value < 2 ^ 64) ∨
    ((p.encoding stream.unread).size ≠ 0 ∧
      (value ≠ [] ∨ chunkedFrame p stream.unread n = .error))

end Field

section Iff

variable {phr : Parser} {stream : Stream} {request : Request} {value : Bytes} {ret : ℤ}
  {q : Request} {s : Stream}

theorem lengthIsDecimal_of_error (h : httpReadRequest phr stream request = .ok (-1, q, stream)) :
    LengthIsDecimal phr stream request value :=
  ⟨-1, q, stream, h, by omega, fun _ => ⟨rfl, rfl⟩⟩

theorem not_lengthIsDecimal (h : httpReadRequest phr stream request = .ok (ret, q, s))
    (hret : ret ≠ -1) (hvalue : ¬ Decimal value) : ¬ LengthIsDecimal phr stream request value := by
  rintro ⟨ret', q', s', hcall, -, herror⟩
  obtain ⟨rfl, -⟩ := Prod.mk.inj (Except.ok.inj (h.symm.trans hcall))
  exact hret (herror hvalue).1

/-- A decimal numeral: the check passes what wraps round below the header's length. -/
theorem lengthIsDecimal_of_decimal {p : Parsed} {n size : ℕ} (hn : (phr stream.unread).ret = n)
    (hlen : stream.unread.length < 2 ^ 63) (hle : n ≤ stream.unread.length)
    (hdecimal : Decimal value)
    (hsize : size = if 2 ^ 64 ≤ numeral 10 value then 2 ^ 64 - 1 else numeral 10 value)
    (hcall : httpReadRequest phr stream request =
      if stream.unread.length < (n + size) % 2 ^ 64 then .ok (0, p.request none, stream)
      else .ok (1, p.request (some ⟨n, size⟩), stream.consume ((n + size) % 2 ^ 64)))
    (hpos : 0 < n) :
    LengthIsDecimal phr stream request value ↔ n + numeral 10 value < 2 ^ 64 := by
  constructor
  · rintro ⟨ret, q, s, hok, hone, -⟩
    by_contra hfits
    have hwraps : (n + size) % 2 ^ 64 < n := by
      rw [hsize]
      split_ifs <;> omega
    rw [if_neg (by omega)] at hcall
    obtain ⟨rfl, -⟩ := Prod.mk.inj (Except.ok.inj (hok.symm.trans hcall))
    obtain ⟨-, -, hinside, -⟩ := hone rfl
    rw [hn, Int.toNat_natCast] at hinside
    omega
  · intro hfits
    rw [if_neg (by omega)] at hsize
    subst hsize
    rw [Nat.mod_eq_of_lt hfits] at hcall
    by_cases hshort : stream.unread.length < n + numeral 10 value
    · rw [if_pos hshort] at hcall
      exact ⟨0, _, _, hcall, by omega, fun h => absurd hdecimal h⟩
    · rw [if_neg hshort] at hcall
      refine ⟨1, _, _, hcall, fun _ => ⟨hdecimal, ?_, ?_, ?_⟩, fun h => absurd hdecimal h⟩
      · rw [hn, Int.toNat_natCast]
        rfl
      · rw [hn, Int.toNat_natCast]
        omega
      · rw [hn, Int.toNat_natCast]

/-- An empty value counts as no value, so the Transfer-Encoding decides. -/
theorem lengthIsDecimal_of_empty {p : Parsed} {n : ℕ} (hlen : stream.unread.length < 2 ^ 63)
    (hcall : httpReadRequest phr stream request =
      if ¬ (p.encoding stream.unread).equalCase stream.unread (str "Chunked") then
        .ok (-1, p.request none, stream)
      else do
        let (size, body, rest) ← httpDechunk (stream.unread.drop n)
        if size ≤ 0 then .ok (size, p.request none, stream.overwrite n rest)
        else .ok (1, p.request (some (body.shift n)),
          (stream.overwrite n rest).consume (usize (n + size)))) :
    LengthIsDecimal phr stream request [] ↔ chunkedFrame p stream.unread n = .error := by
  have hdecimal : ¬ Decimal [] := fun h => h.1 rfl
  have hdrop : (stream.unread.drop n).length < 2 ^ 63 := by
    rw [List.length_drop]
    omega
  obtain ⟨k, body, hscan⟩ := Scan.exists_scan hdrop
  rw [chunkedFrame_eq hlen hscan]
  by_cases hchunked : (p.encoding stream.unread).equalCase stream.unread (str "Chunked") = true
  · rw [if_neg (not_not.mpr hchunked)] at hcall ⊢
    rw [httpDechunk_eq hdrop hscan] at hcall
    rcases hscan.result hdrop with rfl | rfl | ⟨hk, -, -⟩
    · exact iff_of_false (not_lengthIsDecimal hcall (by decide) hdecimal) (by simp)
    · simp only [Int.reduceNeg, Int.neg_nonpos_iff, Int.reduceLE, if_true, ok_bind,
        Stream.overwrite_self] at hcall
      exact iff_of_true (lengthIsDecimal_of_error hcall) (by simp)
    · simp only [if_neg (by omega : ¬ k ≤ 0), ok_bind] at hcall
      refine iff_of_false (not_lengthIsDecimal hcall (by decide) hdecimal) ?_
      rw [if_neg (by omega), if_neg (by omega)]
      simp
  · rw [if_pos hchunked] at hcall ⊢
    exact iff_of_true (lengthIsDecimal_of_error hcall) rfl

/-- The field's value is taken as a decimal number exactly when it is one and the sum fits. -/
theorem httpReadRequest_contentLength_iff {f : HttpField} (hlen : stream.unread.length < 2 ^ 63)
    (hpos : 0 < (phr stream.unread).ret) (hle : (phr stream.unread).ret ≤ stream.unread.length)
    (hmethod : (phr stream.unread).isGet stream.unread = false)
    (hfield : (phr stream.unread).fields.find?
      (fun f => f.name.equalCase stream.unread (str "Content-Length")) = some f)
    (hends : f.value.size ≠ 0 → ValueEnds stream.unread f.value) :
    LengthIsDecimal phr stream request (f.value.bytes stream.unread) ↔
      LengthFits phr stream (f.value.bytes stream.unread) := by
  generalize hp : phr stream.unread = p at *
  obtain ⟨n, hret⟩ : ∃ n : ℕ, p.ret = n := ⟨p.ret.toNat, by omega⟩
  have hinput : stream.unread ≠ [] := by
    intro h
    rw [h] at hle
    simp only [List.length_nil] at hle
    omega
  have hlength : p.length stream.unread = f.value := by
    simp only [Parsed.length, httpFieldLookup, hfield]
  have hcall := httpReadRequest_complete hinput hp hret (by omega) request
  rw [if_neg (by simp [hmethod]), hlength] at hcall
  simp only [LengthFits, hp, hret, Int.toNat_natCast]
  by_cases hsize : f.value.size ≠ 0
  · have hends := hends hsize
    have hvalue : f.value.bytes stream.unread ≠ [] := by
      intro hnil
      have := hends.length_bytes
      rw [hnil] at this
      exact hsize this.symm
    rw [if_pos hsize] at hcall
    by_cases hencoding : (p.encoding stream.unread).size = 0
    · rw [if_neg (not_not.mpr hencoding)] at hcall
      by_cases hdecimal : Decimal (f.value.bytes stream.unread)
      · have hcontent := hends.strtoul_eq hdecimal
        rw [← congrArg Data.base hlength] at hcontent
        rw [lengthIsDecimal_of_decimal (hp ▸ hret) hlen (by omega) hdecimal hcontent hcall
          (by omega)]
        simp [hencoding, hdecimal]
      · have hnot : ¬ LengthIsDecimal phr stream request (f.value.bytes stream.unread) := by
          split_ifs at hcall with hshort
          · exact not_lengthIsDecimal hcall (by decide) hdecimal
          · exact not_lengthIsDecimal hcall (by decide) hdecimal
        exact iff_of_false hnot (by simp [hencoding, hdecimal])
    · rw [if_pos hencoding] at hcall
      exact iff_of_true (lengthIsDecimal_of_error hcall) (.inr ⟨hencoding, .inl hvalue⟩)
  · have hvalue : f.value.bytes stream.unread = [] := by
      rw [Data.bytes, not_not.mp hsize, List.take_zero]
    have hdecimal : ¬ Decimal [] := fun h => h.1 rfl
    rw [if_neg hsize] at hcall
    rw [hvalue]
    by_cases hencoding : (p.encoding stream.unread).size = 0
    · rw [if_neg (not_not.mpr hencoding)] at hcall
      exact iff_of_false (not_lengthIsDecimal hcall (by decide) hdecimal)
        (by simp [hencoding, hdecimal])
    · rw [if_pos hencoding] at hcall
      rw [lengthIsDecimal_of_empty hlen hcall]
      simp [hencoding]

end Iff

def hexLength : Stream :=
  { Stream.construct with
    input := ⟨str "POST / HTTP/1.1\r\nContent-Length: 0x10\r\n\r\nGET ", 16384⟩ }

def hexLengthHeader : Parsed := ⟨41, ⟨0, 4⟩, ⟨5, 1⟩, [⟨⟨17, 14⟩, ⟨33, 4⟩⟩]⟩

theorem not_decimal_hexLength : ¬ Decimal ((⟨33, 4⟩ : Data).bytes hexLength.unread) := by
  intro h
  have := h.2 (ch 'x') (by decide)
  exact absurd this (by decide)

theorem httpReadRequest_contentLength_hexLength :
    ¬ LengthIsDecimal (fun _ => hexLengthHeader) hexLength ⟨.null, .null, none, []⟩
      ((⟨33, 4⟩ : Data).bytes hexLength.unread) := by
  have hfield : hexLengthHeader.fields.find?
      (fun f => f.name.equalCase hexLength.unread (str "Content-Length")) =
      some ⟨⟨17, 14⟩, ⟨33, 4⟩⟩ := by decide
  have hends : ValueEnds hexLength.unread ⟨33, 4⟩ := ⟨cr, str "\n\r\nGET ", by decide, by decide⟩
  intro hlength
  have hfits : LengthFits (fun _ => hexLengthHeader) hexLength
      ((⟨33, 4⟩ : Data).bytes hexLength.unread) :=
    (@httpReadRequest_contentLength_iff (fun _ => hexLengthHeader) hexLength _ ⟨⟨17, 14⟩, ⟨33, 4⟩⟩
      (by decide) (by decide) (by decide) (by decide) hfield (fun _ => hends)).mp hlength
  rcases hfits with ⟨-, h, -⟩ | ⟨h, -⟩
  · exact not_decimal_hexLength h
  · exact h (by decide)

/-- The numeral ends at its `x`, and the request is read with an empty body. -/
theorem httpReadRequest_hexLength : ¬ ∀ (phr : Parser) (stream : Stream) (request : Request)
    (f : HttpField), stream.unread.length < 2 ^ 63 → 0 < (phr stream.unread).ret →
    (phr stream.unread).ret ≤ stream.unread.length →
    (phr stream.unread).isGet stream.unread = false →
    (phr stream.unread).fields.find?
      (fun f => f.name.equalCase stream.unread (str "Content-Length")) = some f →
    (f.value.size ≠ 0 → ValueEnds stream.unread f.value) →
    LengthIsDecimal phr stream request (f.value.bytes stream.unread) := by
  intro h
  have hends : ValueEnds hexLength.unread ⟨33, 4⟩ := ⟨cr, str "\n\r\nGET ", by decide, by decide⟩
  have hdecimal := h (fun _ => hexLengthHeader) hexLength ⟨.null, .null, none, []⟩
    ⟨⟨17, 14⟩, ⟨33, 4⟩⟩ (by decide) (by decide) (by decide) (by decide) (by decide)
    (fun _ => hends)
  have heval : httpReadRequest (fun _ => hexLengthHeader) hexLength ⟨.null, .null, none, []⟩ =
      .ok (1, hexLengthHeader.request (some ⟨41, 0⟩), hexLength.consume 41) := by
    rfl
  exact not_lengthIsDecimal heval (by decide) not_decimal_hexLength hdecimal

end LibReactor
