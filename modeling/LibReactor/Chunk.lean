import LibReactor.Http

/-!
# Chunked bodies

What `http_chunk` reports is final as soon as it is not zero: bytes that arrive
later do not change it. `Scan` follows the chunks of an input to the last one;
`http_dechunk` returns what the scan finds, and it moves the chunks together only
when the scan has found all of them.
-/

namespace LibReactor

theorem behind_append {start p : Bytes} (h : start ≠ []) (x : Bytes) :
    behind (start ++ x) (p ++ x) = behind start p := by
  have hlen := List.length_pos_iff.mpr h
  have hindex : (start ++ x).length - (p ++ x).length - 1 = start.length - p.length - 1 := by
    simp only [List.length_append]
    omega
  unfold behind
  rw [hindex, List.getElem?_append_left (by omega)]

/-- The last test of a chunk's line, for a numeral that ends in the given part of the input. -/
theorem httpChunkSizeEnd_spec (start digits p u : Bytes) (hstart : start = u ++ p) (hlf : lf ∈ p)
    (hsize : ∀ x, strtoul 16 (digits ++ x) = strtoul 16 digits) :
    ∃ (n : ℤ) (k : ℕ), (n = -1 ∨ 0 < n ∧ n ≤ start.length) ∧
      ∀ x, httpChunkSizeEnd (start ++ x) (digits ++ x) (p ++ x) = .ok (n, k) := by
  obtain ⟨c, t, rfl⟩ : ∃ c t, p = c :: t := by
    cases p with
    | nil => simp at hlf
    | cons c t => exact ⟨c, t, rfl⟩
  by_cases hc : c = lf
  · by_cases hmax : strtoul 16 digits = 2 ^ 64 - 1
    · refine ⟨-1, strtoul 16 digits, .inl rfl, fun x => ?_⟩
      simp [httpChunkSizeEnd, hsize, hmax, hc]
    · refine ⟨(start.length - t.length : ℕ), strtoul 16 digits, .inr ?_, fun x => ?_⟩
      · rw [hstart]
        simp only [List.length_append, List.length_cons]
        omega
      · have hlen : (start ++ x).length - (t ++ x).length = start.length - t.length := by
          simp only [List.length_append]
          omega
        simp only [httpChunkSizeEnd, List.cons_append, peek_cons, ok_bind, hc, ne_eq,
          not_true_eq_false, if_false, hsize, hmax, List.tail_cons, hlen, pure_eq_ok]
  · refine ⟨-1, 0, .inl rfl, fun x => ?_⟩
    simp [httpChunkSizeEnd, hc]

theorem strtoul_chunkSize {w v t : Bytes} {c : UInt8} (hne : w ≠ [])
    (hw : ∀ x ∈ w, isxdigit x = true) (hv : ∀ x ∈ v, isblank x = true)
    (hc : c = ch ';' ∨ c = cr) :
    strtoul 16 (w ++ (v ++ c :: t)) =
      if 2 ^ 64 ≤ numeral 16 w then 2 ^ 64 - 1 else numeral 16 w := by
  have hdigits : ∀ x ∈ w, isxdigit x = true ∧ digitValue x < 16 :=
    fun x hx => ⟨hw x hx, digitValue_lt_of_isxdigit (hw x hx)⟩
  cases v with
  | nil =>
    have hstop : 16 ≤ digitValue c ∧ c ≠ ch 'x' ∧ c ≠ ch 'X' := by
      rcases hc with rfl | rfl <;> decide
    exact strtoul_digits hne hdigits hstop.1 hstop.2.1 hstop.2.2 t
  | cons d v =>
    have hblank : d = space ∨ d = tab := by simpa [isblank] using hv d (by simp)
    have hstop : 16 ≤ digitValue d ∧ d ≠ ch 'x' ∧ d ≠ ch 'X' := by
      rcases hblank with rfl | rfl <;> decide
    exact strtoul_digits hne hdigits hstop.1 hstop.2.1 hstop.2.2 (v ++ c :: t)

/-- The blanks, digits and blanks at the start of a line, and what its result then depends on. -/
theorem httpChunkSize_parts {input : Bytes} (h : lf ∈ input) :
    ∃ w₁ w₂ w₃ c r, input = w₁ ++ (w₂ ++ (w₃ ++ c :: r)) ∧ (∀ x ∈ w₁, isblank x = true) ∧
      (∀ x ∈ w₂, isxdigit x = true) ∧ (∀ x ∈ w₃, isblank x = true) ∧ lf ∈ c :: r ∧
      ∀ x, httpChunkSize (input ++ x) =
        if w₂ = [] then .ok (-1, 0)
        else if c = ch ';' then do
          let p ← skipWhile (fun c => c != lf) (c :: r ++ x)
          if behind (input ++ x) p ≠ cr then .ok (-1, 0)
            else httpChunkSizeEnd (input ++ x) (w₂ ++ (w₃ ++ c :: r) ++ x) p
        else if c ≠ cr then .ok (-1, 0)
        else httpChunkSizeEnd (input ++ x) (w₂ ++ (w₃ ++ c :: r) ++ x) (r ++ x) := by
  obtain ⟨w₁, a, t, hinput, hw₁, -, hmem₁, hskip₁⟩ := skipWhile_spec (P := isblank) h (by decide)
  obtain ⟨w₂, b, s, hdigits, hw₂, -, hmem₂, hskip₂⟩ :=
    skipWhile_spec (P := isxdigit) hmem₁ (by decide)
  obtain ⟨w₃, c, r, hp, hw₃, -, hmem₃, hskip₃⟩ :=
    skipWhile_spec (P := isblank) hmem₂ (by decide)
  have hmem : ∀ x, lf ∈ input ++ x := fun x => List.mem_append_left x h
  have hlen : ∀ x, (b :: s ++ x).length = (a :: t ++ x).length ↔ w₂ = [] := by
    intro x
    have := congrArg List.length hdigits
    rw [← List.length_eq_zero_iff]
    simp only [List.length_append, List.length_cons] at this ⊢
    omega
  refine ⟨w₁, w₂, w₃, c, r, by rw [hinput, hdigits, hp], hw₁, hw₂, hw₃, hmem₃, fun x => ?_⟩
  simp only [httpChunkSize, hmem x, not_true_eq_false, if_false, hskip₁ x, ok_bind, hskip₂ x,
    hlen x, hskip₃ x, pure_eq_ok]
  rw [hdigits, hp]
  rfl

/-- A chunk's line that is complete is read inside the input, and the same with any bytes after
it. -/
theorem httpChunkSize_spec {input : Bytes} (h : lf ∈ input) :
    ∃ (n : ℤ) (k : ℕ), (n = -1 ∨ 0 < n ∧ n ≤ input.length) ∧
      ∀ x, httpChunkSize (input ++ x) = .ok (n, k) := by
  obtain ⟨w₁, w₂, w₃, c, r, hinput, -, hw₂, hw₃, hmem, hline⟩ := httpChunkSize_parts h
  have hne : input ≠ [] := List.ne_nil_of_mem h
  by_cases hempty : w₂ = []
  · exact ⟨-1, 0, .inl rfl, fun x => by rw [hline x, if_pos hempty]⟩
  have hsize : c = ch ';' ∨ c = cr → ∀ x,
      strtoul 16 (w₂ ++ (w₃ ++ c :: r) ++ x) = strtoul 16 (w₂ ++ (w₃ ++ c :: r)) := by
    intro hend x
    rw [List.append_assoc, List.append_assoc, List.cons_append,
      strtoul_chunkSize hempty hw₂ hw₃ hend, strtoul_chunkSize hempty hw₂ hw₃ hend]
  by_cases hsemi : c = ch ';'
  · obtain ⟨w₄, d, q, hq, -, hd, hmem₄, hskip₄⟩ :=
      skipWhile_spec (P := fun c => c != lf) hmem (by decide)
    by_cases hbehind : behind input (d :: q) = cr
    · obtain ⟨n, k, hn, hend⟩ := httpChunkSizeEnd_spec input (w₂ ++ (w₃ ++ c :: r)) (d :: q)
        (w₁ ++ w₂ ++ w₃ ++ w₄) (by rw [hinput, hq]; simp) hmem₄ (hsize (.inl hsemi))
      refine ⟨n, k, hn, fun x => ?_⟩
      rw [hline x, if_neg hempty, if_pos hsemi, hskip₄ x]
      simp only [ok_bind, behind_append hne, hbehind, ne_eq,
        not_true_eq_false, if_false]
      exact hend x
    · refine ⟨-1, 0, .inl rfl, fun x => ?_⟩
      rw [hline x, if_neg hempty, if_pos hsemi, hskip₄ x]
      simp only [ok_bind, behind_append hne]
      exact if_pos hbehind
  · by_cases hcr : c = cr
    · have hmem₅ : lf ∈ r := by
        rcases List.mem_cons.mp hmem with hlf | hlf
        · rw [hcr] at hlf
          exact absurd hlf (by decide)
        · exact hlf
      obtain ⟨n, k, hn, hend⟩ := httpChunkSizeEnd_spec input (w₂ ++ (w₃ ++ c :: r)) r
        (w₁ ++ w₂ ++ w₃ ++ [c]) (by rw [hinput]; simp) hmem₅ (hsize (.inr hcr))
      refine ⟨n, k, hn, fun x => ?_⟩
      rw [hline x, if_neg hempty, if_neg hsemi, if_neg (not_not.mpr hcr)]
      exact hend x
    · exact ⟨-1, 0, .inl rfl, fun x => by
        rw [hline x, if_neg hempty, if_neg hsemi, if_pos hcr]⟩

theorem httpChunkSize_of_not_mem {input : Bytes} (h : lf ∉ input) :
    httpChunkSize input = .ok (0, 0) := if_pos h

/-- What `http_chunk` returns: a chunk lies behind its line and before its line end. -/
def ChunkResult (input : Bytes) (n : ℤ) (chunk : Data) : Prop :=
  n = 0 ∨ n = -1 ∨
    (0 < n ∧ n ≤ input.length ∧ 0 < chunk.base ∧ (chunk.base + chunk.size + 2 : ℕ) = n)

theorem httpChunk_spec {input : Bytes} (hlen : input.length < 2 ^ 63) :
    ∃ n chunk, httpChunk input = .ok (n, chunk) ∧ ChunkResult input n chunk ∧
      (n ≠ 0 → ∀ x, (input ++ x).length < 2 ^ 63 → httpChunk (input ++ x) = .ok (n, chunk)) := by
  by_cases hlf : lf ∈ input
  · obtain ⟨n, k, hn, hsize⟩ := httpChunkSize_spec hlf
    have hsize₀ : httpChunkSize input = .ok (n, k) := by simpa using hsize []
    rcases hn with rfl | ⟨hpos, hle⟩
    · refine ⟨-1, .null, ?_, .inr (.inl rfl), fun _ x _ => ?_⟩
      · simp [httpChunk, hsize₀]
      · simp [httpChunk, hsize x]
    · obtain ⟨m, rfl⟩ : ∃ m : ℕ, n = m := ⟨n.toNat, by omega⟩
      have hstep : ∀ x, httpChunk (input ++ x) =
          if (input ++ x).length < m + 2 then .ok (0, .null)
          else if (input ++ x).length - m - 2 < k then .ok (0, .null)
          else .ok (ssize (k + m + 2), ⟨m, k⟩) := by
        intro x
        simp only [httpChunk, hsize x, ok_bind, if_neg (by omega : ¬ (m : ℤ) ≤ 0),
          Int.toNat_natCast, pure_eq_ok]
      by_cases hshort : input.length < m + 2 ∨ input.length - m - 2 < k
      · refine ⟨0, .null, ?_, .inl rfl, fun h => absurd rfl h⟩
        have := hstep []
        rw [List.append_nil] at this
        rw [this]
        rcases hshort with hshort | hshort
        · exact if_pos hshort
        · exact ite_eq_left_iff.mpr fun _ => if_pos hshort
      · refine ⟨(k + m + 2 : ℕ), ⟨m, k⟩, ?_, .inr (.inr ⟨?_, ?_, ?_, ?_⟩), fun _ x hx => ?_⟩
        · have := hstep []
          rw [List.append_nil] at this
          rw [this, if_neg (by omega), if_neg (by omega), ssize_of_lt (by omega)]
        · omega
        · omega
        · exact_mod_cast hpos
        · simp only
          omega
        · rw [hstep x]
          simp only [List.length_append] at hx ⊢
          rw [if_neg (by omega), if_neg (by omega), ssize_of_lt (by omega)]
  · refine ⟨0, .null, ?_, .inl rfl, fun h => absurd rfl h⟩
    simp [httpChunk, httpChunkSize_of_not_mem hlf]

/-- The chunks of an input up to the last one: the result of the search, which is the length
of all the chunks if it is positive, and the body they hold. -/
inductive Scan : Bytes → ℤ → Bytes → Prop
  | stop {input n chunk} : httpChunk input = .ok (n, chunk) → n ≤ 0 → Scan input n []
  | last {input n chunk} : httpChunk input = .ok (n, chunk) → 0 < n → chunk.size = 0 →
      Scan input n []
  | more {input n chunk m body} : httpChunk input = .ok (n, chunk) → 0 < n → chunk.size ≠ 0 →
      Scan (input.drop n.toNat) m body →
      Scan input (if m ≤ 0 then m else n + m) (chunk.bytes input ++ body)

namespace Scan

variable {input : Bytes} {n : ℤ} {body : Bytes}

theorem exists_scan (hlen : input.length < 2 ^ 63) : ∃ n body, Scan input n body := by
  induction hl : input.length using Nat.strong_induction_on generalizing input with
  | _ l ih =>
    obtain ⟨n, chunk, hchunk, hresult, -⟩ := httpChunk_spec hlen
    by_cases hn : n ≤ 0
    · exact ⟨n, [], .stop hchunk hn⟩
    by_cases hsize : chunk.size = 0
    · exact ⟨n, [], .last hchunk (by omega) hsize⟩
    have hpos : 0 < input.length := by
      rcases hresult with rfl | rfl | ⟨_, hle, _⟩ <;> omega
    have hdrop : (input.drop n.toNat).length < l := by
      rw [List.length_drop]
      omega
    obtain ⟨m, body, hscan⟩ := ih _ hdrop (by omega) rfl
    exact ⟨_, _, .more hchunk (by omega) hsize hscan⟩

theorem unique {n' : ℤ} {body' : Bytes} (h : Scan input n body) (h' : Scan input n' body') :
    n = n' ∧ body = body' := by
  induction h generalizing n' body' with
  | stop hchunk hn =>
    cases h' with
    | stop hchunk' _ => exact ⟨congrArg Prod.fst (Except.ok.inj (hchunk.symm.trans hchunk')), rfl⟩
    | last hchunk' hn' _ =>
      obtain ⟨rfl, -⟩ := Prod.mk.inj (Except.ok.inj (hchunk.symm.trans hchunk'))
      omega
    | more hchunk' hn' _ _ =>
      obtain ⟨rfl, -⟩ := Prod.mk.inj (Except.ok.inj (hchunk.symm.trans hchunk'))
      omega
  | last hchunk hn hsize =>
    cases h' with
    | stop hchunk' hn' =>
      obtain ⟨rfl, -⟩ := Prod.mk.inj (Except.ok.inj (hchunk.symm.trans hchunk'))
      omega
    | last hchunk' _ _ => exact ⟨congrArg Prod.fst (Except.ok.inj (hchunk.symm.trans hchunk')), rfl⟩
    | more hchunk' _ hsize' _ =>
      obtain ⟨-, rfl⟩ := Prod.mk.inj (Except.ok.inj (hchunk.symm.trans hchunk'))
      exact absurd hsize hsize'
  | more hchunk hn hsize _ ih =>
    cases h' with
    | stop hchunk' hn' =>
      obtain ⟨rfl, -⟩ := Prod.mk.inj (Except.ok.inj (hchunk.symm.trans hchunk'))
      omega
    | last hchunk' _ hsize' =>
      obtain ⟨-, rfl⟩ := Prod.mk.inj (Except.ok.inj (hchunk.symm.trans hchunk'))
      exact absurd hsize' hsize
    | more hchunk' _ _ hrest =>
      obtain ⟨rfl, rfl⟩ := Prod.mk.inj (Except.ok.inj (hchunk.symm.trans hchunk'))
      obtain ⟨rfl, rfl⟩ := ih hrest
      exact ⟨rfl, rfl⟩

theorem result (h : Scan input n body) (hlen : input.length < 2 ^ 63) :
    n = 0 ∨ n = -1 ∨ (0 < n ∧ n ≤ input.length ∧ body.length < n) := by
  induction h with
  | @stop input n chunk hchunk hn =>
    obtain ⟨n', chunk', hchunk', hresult, -⟩ := httpChunk_spec hlen
    obtain ⟨rfl, rfl⟩ := Prod.mk.inj (Except.ok.inj (hchunk.symm.trans hchunk'))
    rcases hresult with rfl | rfl | ⟨hpos, _⟩
    · exact .inl rfl
    · exact .inr (.inl rfl)
    · omega
  | @last input n chunk hchunk hn hsize =>
    obtain ⟨n', chunk', hchunk', hresult, -⟩ := httpChunk_spec hlen
    obtain ⟨rfl, rfl⟩ := Prod.mk.inj (Except.ok.inj (hchunk.symm.trans hchunk'))
    rcases hresult with rfl | rfl | ⟨hpos, hle, _⟩
    · omega
    · omega
    · exact .inr (.inr ⟨hpos, hle, by simpa using hpos⟩)
  | @more input n chunk m body hchunk hn hsize hscan ih =>
    obtain ⟨n', chunk', hchunk', hresult, -⟩ := httpChunk_spec hlen
    obtain ⟨rfl, rfl⟩ := Prod.mk.inj (Except.ok.inj (hchunk.symm.trans hchunk'))
    have hih := ih (by rw [List.length_drop]; omega)
    rw [List.length_drop] at hih
    by_cases hm : m ≤ 0
    · rw [if_pos hm]
      rcases hih with rfl | rfl | ⟨hpos, _⟩
      · exact .inl rfl
      · exact .inr (.inl rfl)
      · omega
    · rw [if_neg hm]
      have hbytes : (chunk.bytes input).length ≤ chunk.size := by
        rw [Data.bytes, List.length_take]
        omega
      rcases hresult with rfl | rfl | ⟨hpos, hle, hbase, hend⟩
      · omega
      · omega
      · rcases hih with rfl | rfl | ⟨hmpos, hmle, hbody⟩
        · omega
        · omega
        · refine .inr (.inr ⟨by omega, by omega, ?_⟩)
          rw [List.length_append]
          omega

/-- Bytes that arrive later do not change a result that is not zero. -/
theorem append (h : Scan input n body) (hn : n ≠ 0) {x : Bytes}
    (hlen : (input ++ x).length < 2 ^ 63) : Scan (input ++ x) n body := by
  have hlen₀ : ∀ {b : Bytes}, (b ++ x).length < 2 ^ 63 → b.length < 2 ^ 63 := by
    intro b hb
    rw [List.length_append] at hb
    omega
  induction h with
  | @stop input n chunk hchunk hle =>
    obtain ⟨n', chunk', hchunk', -, hstable⟩ := httpChunk_spec (hlen₀ hlen)
    obtain ⟨rfl, rfl⟩ := Prod.mk.inj (Except.ok.inj (hchunk.symm.trans hchunk'))
    exact .stop (hstable hn x hlen) hle
  | @last input n chunk hchunk hpos hsize =>
    obtain ⟨n', chunk', hchunk', -, hstable⟩ := httpChunk_spec (hlen₀ hlen)
    obtain ⟨rfl, rfl⟩ := Prod.mk.inj (Except.ok.inj (hchunk.symm.trans hchunk'))
    exact .last (hstable hn x hlen) hpos hsize
  | @more input n chunk m body hchunk hpos hsize hscan ih =>
    obtain ⟨n', chunk', hchunk', hresult, hstable⟩ := httpChunk_spec (hlen₀ hlen)
    obtain ⟨rfl, rfl⟩ := Prod.mk.inj (Except.ok.inj (hchunk.symm.trans hchunk'))
    have hdata : n.toNat ≤ input.length ∧ chunk.base + chunk.size ≤ input.length := by
      rcases hresult with rfl | rfl | ⟨_, hle, _, hend⟩ <;> omega
    have hdrop : (input ++ x).drop n.toNat = input.drop n.toNat ++ x :=
      List.drop_append_of_le_length hdata.1
    have hbytes : chunk.bytes (input ++ x) = chunk.bytes input := by
      unfold Data.bytes
      rw [List.drop_append_of_le_length (by omega), List.take_append_of_le_length]
      rw [List.length_drop]
      omega
    have hm : m ≠ 0 := by
      rintro rfl
      exact hn (if_pos (Int.le_refl 0))
    have hmore := ih hm (by
      rw [← hdrop, List.length_drop]
      omega)
    rw [← hdrop] at hmore
    have := Scan.more (hstable (by omega) x hlen) hpos hsize hmore
    rwa [hbytes] at this

end Scan

/-! ## The two loops of http_dechunk -/

/-- The first loop finds what the scan finds. -/
theorem run_dechunkScan {input : Bytes} (hlen : input.length < 2 ^ 63) {b : Bytes} {n : ℤ}
    {body : Bytes} (h : Scan b n body) (offset fuel : ℕ) (hoffset : offset ≤ input.length)
    (hb : input.drop offset = b) (hfuel : input.length - offset < fuel) :
    Loop.run (dechunkScan input) fuel offset = some (.ok (if n ≤ 0 then n else offset + n)) := by
  induction h generalizing offset fuel with
  | @stop b n chunk hchunk hn =>
    obtain ⟨fuel, rfl⟩ : ∃ m, fuel = m + 1 := ⟨fuel - 1, by omega⟩
    rw [if_pos hn]
    refine Loop.run_succ_done _ ?_ fuel
    simp only [dechunkScan, hb, hchunk, ok_bind, if_pos hn, pure_eq_ok]
  | @last b n chunk hchunk hn hsize =>
    obtain ⟨fuel, rfl⟩ : ∃ m, fuel = m + 1 := ⟨fuel - 1, by omega⟩
    have hscan := (Scan.last hchunk hn hsize).result (by
      rw [← hb, List.length_drop]
      omega)
    rw [← hb, List.length_drop] at hscan
    have husize : usize (offset + n) = offset + n.toNat := by
      unfold usize
      omega
    rw [if_neg (by omega)]
    refine Loop.run_succ_done _ ?_ fuel
    simp only [dechunkScan, hb, hchunk, ok_bind, if_neg (by omega : ¬ n ≤ 0), husize, hsize,
      if_true, pure_eq_ok]
    rw [ssize_of_lt (by omega)]
    congr 2
    omega
  | @more b n chunk m body hchunk hn hsize hscan ih =>
    obtain ⟨fuel, rfl⟩ : ∃ m, fuel = m + 1 := ⟨fuel - 1, by omega⟩
    have hblen : b.length = input.length - offset := by rw [← hb, List.length_drop]
    have hblen₀ : b.length < 2 ^ 63 := by omega
    obtain ⟨n', chunk', hchunk', hresult, -⟩ := httpChunk_spec hblen₀
    obtain ⟨rfl, rfl⟩ := Prod.mk.inj (Except.ok.inj (hchunk.symm.trans hchunk'))
    have hle : n ≤ input.length - offset := by
      rcases hresult with rfl | rfl | ⟨_, hle, _⟩ <;> omega
    have husize : usize (offset + n) = offset + n.toNat := by
      unfold usize
      omega
    have hnext : dechunkScan input offset = .ok (.inr (offset + n.toNat)) := by
      simp only [dechunkScan, hb, hchunk, ok_bind, if_neg (by omega : ¬ n ≤ 0), husize, hsize,
        if_false, pure_eq_ok]
    rw [Loop.run_succ_next _ hnext, ih _ fuel (by omega) (by rw [← hb, List.drop_drop]) (by omega)]
    congr 2
    split_ifs <;> omega

/-- The second loop gathers the body in front. -/
theorem run_dechunkMove {b : Bytes} {n : ℤ} {body : Bytes} (h : Scan b n body) (hn : 0 < n)
    (d : Dechunk) (fuel : ℕ) (hlen : d.input.length < 2 ^ 63) (hoffset : d.offset ≤ d.input.length)
    (hb : d.input.drop d.offset = b) (hsize : d.dechunked.base + d.dechunked.size ≤ d.offset)
    (hfuel : d.input.length - d.offset < fuel) :
    ∃ chunk, Loop.run dechunkMove fuel d = some (.ok
      { input := write d.input (d.dechunked.base + d.dechunked.size) body
        offset := d.offset + n.toNat
        chunk := chunk
        dechunked := ⟨d.dechunked.base, d.dechunked.size + body.length⟩ }) := by
  induction h generalizing d fuel with
  | stop => omega
  | @last b n chunk hchunk _ hempty =>
    obtain ⟨fuel, rfl⟩ : ∃ m, fuel = m + 1 := ⟨fuel - 1, by omega⟩
    have hscan := (Scan.last hchunk hn hempty).result (by
      rw [← hb, List.length_drop]
      omega)
    rw [← hb, List.length_drop] at hscan
    have husize : usize (d.offset + n) = d.offset + n.toNat := by
      unfold usize
      omega
    refine ⟨chunk.shift d.offset, Loop.run_succ_done _ ?_ fuel⟩
    simp [dechunkMove, hb, hchunk, hn, husize, Data.shift, hempty, memmove]
  | @more b n chunk m body hchunk hpos hmore hscan ih =>
    obtain ⟨fuel, rfl⟩ : ∃ m, fuel = m + 1 := ⟨fuel - 1, by omega⟩
    have hblen : b.length = d.input.length - d.offset := by rw [← hb, List.length_drop]
    have hblen₀ : b.length < 2 ^ 63 := by omega
    obtain ⟨n', chunk', hchunk', hresult, -⟩ := httpChunk_spec hblen₀
    obtain ⟨rfl, rfl⟩ := Prod.mk.inj (Except.ok.inj (hchunk.symm.trans hchunk'))
    have hdata : n ≤ b.length ∧ (chunk.base + chunk.size + 2 : ℕ) = n := by
      rcases hresult with rfl | rfl | ⟨_, hle, _, hend⟩ <;> omega
    have hm : 0 < m := by
      by_contra hm
      rw [if_pos (by omega)] at hn
      omega
    have husize : usize (d.offset + n) = d.offset + n.toNat := by
      unfold usize
      omega
    have hbytes : chunk.bytes b = (d.input.drop (d.offset + chunk.base)).take chunk.size := by
      rw [Data.bytes, ← hb, List.drop_drop]
    have hbyteslen : (chunk.bytes b).length = chunk.size := by
      rw [Data.bytes, List.length_take, List.length_drop]
      omega
    generalize hk : d.dechunked.base + d.dechunked.size = k at *
    have hwritelen : (write d.input k (chunk.bytes b)).length = d.input.length :=
      length_write (by omega)
    have hnext : dechunkMove d = .ok (.inr
        { input := write d.input k (chunk.bytes b)
          offset := d.offset + n.toNat
          chunk := chunk.shift d.offset
          dechunked := ⟨d.dechunked.base, d.dechunked.size + chunk.size⟩ }) := by
      simp only [dechunkMove, hb, hchunk, ok_bind, if_pos hpos, husize, Data.shift, memmove, hk,
        hbytes, if_neg hmore, pure_eq_ok]
    obtain ⟨last, hrun⟩ := ih hm
        { input := write d.input k (chunk.bytes b)
          offset := d.offset + n.toNat
          chunk := chunk.shift d.offset
          dechunked := ⟨d.dechunked.base, d.dechunked.size + chunk.size⟩ } fuel
      (by simp only [hwritelen]; omega) (by simp only [hwritelen]; omega)
      (by
        simp only
        rw [drop_write (by omega) (by omega), ← List.drop_drop, hb])
      (by simp only; omega) (by simp only [hwritelen]; omega)
    refine ⟨last, ?_⟩
    rw [Loop.run_succ_next _ hnext, hrun]
    have hwrite : write (write d.input k (chunk.bytes b))
        (d.dechunked.base + (d.dechunked.size + chunk.size)) body =
        write d.input k (chunk.bytes b ++ body) := by
      rw [← write_write (by omega), hbyteslen, ← hk, Nat.add_assoc]
    have htotal : d.offset + (n.toNat + m.toNat) = d.offset + (n + m).toNat := by omega
    simp only [hwrite, if_neg (by omega : ¬ m ≤ 0), List.length_append, hbyteslen, Nat.add_assoc,
      htotal]

/-- `http_dechunk` returns what the scan finds and writes nothing unless the scan is complete. -/
theorem httpDechunk_eq {input : Bytes} (hlen : input.length < 2 ^ 63) {n : ℤ} {body : Bytes}
    (h : Scan input n body) :
    httpDechunk input = .ok (if n ≤ 0 then (n, .null, input)
      else (n, ⟨0, body.length⟩, write input 0 body)) := by
  have hscan := run_dechunkScan hlen h 0 (input.length + 1) (Nat.zero_le _) rfl (by omega)
  have hfirst : Loop.within .hang (dechunkScan input) (input.length + 1) 0 = .ok n := by
    rw [Loop.within, hscan]
    by_cases hn : n ≤ 0 <;> simp [hn]
  by_cases hn : n ≤ 0
  · simp only [httpDechunk, hfirst, ok_bind, if_pos hn, pure_eq_ok]
  · obtain ⟨chunk, hmove⟩ := run_dechunkMove h (by omega) ⟨input, 0, .null, .null⟩
      (input.length + 1) hlen (Nat.zero_le _) rfl le_rfl (by simp only; omega)
    have hsecond : Loop.within .hang dechunkMove (input.length + 1) ⟨input, 0, .null, .null⟩ =
        .ok ⟨write input 0 body, n.toNat, chunk, ⟨0, body.length⟩⟩ := by
      rw [Loop.within, hmove]
      simp [Data.null]
    have hresult := h.result hlen
    simp only [httpDechunk, hfirst, hsecond, ok_bind, if_neg hn, pure_eq_ok]
    rw [ssize_of_lt (by omega)]
    congr 2
    omega

end LibReactor
