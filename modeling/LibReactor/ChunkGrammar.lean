import LibReactor.Chunk

/-!
# The chunked grammar

A chunk is a line with the size of its data in hexadecimal digits, the data, and two
bytes that end it; a body is a sequence of chunks up to an empty one. `http_dechunk`
accepts these sequences and no others, but it takes any two bytes for a chunk's end.
-/

namespace LibReactor

def ChunkLine (line : Bytes) (size : ℕ) : Prop :=
  ∃ before digits after extension,
    line = before ++ (digits ++ (after ++ (extension ++ [cr, lf]))) ∧
    (∀ x ∈ before, isblank x = true) ∧ digits ≠ [] ∧ (∀ x ∈ digits, isxdigit x = true) ∧
    (∀ x ∈ after, isblank x = true) ∧
    (extension = [] ∨ ∃ u, extension = ch ';' :: u ∧ lf ∉ u) ∧ size = numeral 16 digits

inductive ChunkSequence : List Bytes → Bytes → Bytes → Prop
  | last {line e} : ChunkLine line 0 → e.length = 2 → ChunkSequence [e] (line ++ e) []
  | more {line data e ends text body} : ChunkLine line data.length → data ≠ [] → e.length = 2 →
      ChunkSequence ends text body →
      ChunkSequence (e :: ends) (line ++ (data ++ (e ++ text))) (data ++ body)

/-! ## A chunk's line -/

theorem behind_last (w p : Bytes) (a : UInt8) : behind (w ++ a :: p) p = a := by
  have hindex : (w ++ a :: p).length - p.length - 1 = w.length := by
    simp only [List.length_append, List.length_cons]
    omega
  rw [behind, hindex]
  simp

theorem httpChunkSizeEnd_pos {start digits p : Bytes} {n : ℤ} {k : ℕ}
    (h : httpChunkSizeEnd start digits p = .ok (n, k)) (hn : 0 < n) :
    ∃ q, p = lf :: q ∧ n = (start.length - q.length : ℕ) ∧ k = strtoul 16 digits ∧
      k ≠ 2 ^ 64 - 1 := by
  cases p with
  | nil => cases h
  | cons c q =>
    simp only [httpChunkSizeEnd, peek_cons, ok_bind, List.tail_cons, pure_eq_ok] at h
    by_cases hc : c = lf
    · rw [if_neg (not_not.mpr hc)] at h
      by_cases hmax : strtoul 16 digits = 2 ^ 64 - 1
      · rw [if_pos hmax] at h
        obtain ⟨rfl, -⟩ := Prod.mk.inj (Except.ok.inj h)
        omega
      · rw [if_neg hmax] at h
        obtain ⟨rfl, rfl⟩ := Prod.mk.inj (Except.ok.inj h)
        exact ⟨q, by rw [hc], rfl, rfl, hmax⟩
    · rw [if_pos hc] at h
      obtain ⟨rfl, -⟩ := Prod.mk.inj (Except.ok.inj h)
      omega

theorem chunkSize_value {w v t : Bytes} {c : UInt8} {k : ℕ} (hne : w ≠ [])
    (hw : ∀ x ∈ w, isxdigit x = true) (hv : ∀ x ∈ v, isblank x = true)
    (hc : c = ch ';' ∨ c = cr) (hk : k = strtoul 16 (w ++ (v ++ c :: t)))
    (hmax : k ≠ 2 ^ 64 - 1) : k = numeral 16 w := by
  rw [strtoul_chunkSize hne hw hv hc] at hk
  split_ifs at hk with hbig
  · exact absurd hk hmax
  · exact hk

theorem chunkLine_of_httpChunkSize {input : Bytes} {n : ℤ} {k : ℕ}
    (h : httpChunkSize input = .ok (n, k)) (hn : 0 < n) :
    ∃ line rest, input = line ++ rest ∧ n = line.length ∧ ChunkLine line k := by
  have hlf : lf ∈ input := by
    by_contra hlf
    rw [httpChunkSize_of_not_mem hlf] at h
    obtain ⟨rfl, -⟩ := Prod.mk.inj (Except.ok.inj h)
    omega
  obtain ⟨w₁, w₂, w₃, c, r, hinput, hw₁, hw₂, hw₃, hmem, hline⟩ := httpChunkSize_parts hlf
  have hline := hline []
  simp only [List.append_nil] at hline
  rw [h] at hline
  have hminus : ∀ {k' : ℕ}, ¬ (Except.ok (n, k) : Except Fault (ℤ × ℕ)) = .ok (-1, k') := by
    intro k' heq
    obtain ⟨rfl, -⟩ := Prod.mk.inj (Except.ok.inj heq)
    omega
  by_cases hempty : w₂ = []
  · rw [if_pos hempty] at hline
    exact absurd hline hminus
  rw [if_neg hempty] at hline
  by_cases hsemi : c = ch ';'
  · obtain ⟨w₄, d, q, hq, hw₄, hd, -, hskip⟩ :=
      skipWhile_spec (P := fun c => c != lf) hmem (by decide)
    have hskip := hskip []
    simp only [List.append_nil] at hskip
    rw [if_pos hsemi, hskip] at hline
    simp only [ok_bind] at hline
    by_cases hbehind : behind input (d :: q) = cr
    · rw [if_neg (not_not.mpr hbehind)] at hline
      obtain ⟨q', hq', hlen, hsize, hmax⟩ := httpChunkSizeEnd_pos hline.symm hn
      obtain ⟨rfl, rfl⟩ := List.cons.inj hq'
      -- the extension has a first byte, so the CR before the line's end is inside it
      obtain ⟨u, rfl⟩ : ∃ u, w₄ = ch ';' :: u ++ [cr] := by
        cases w₄ with
        | nil =>
          obtain ⟨rfl, -⟩ := List.cons.inj hq
          exact absurd hsemi (by decide)
        | cons a u =>
          obtain ⟨rfl, -⟩ := List.cons.inj hq
          rcases List.eq_nil_or_concat u with rfl | ⟨u, b, rfl⟩
          · have hlast := behind_last (w₁ ++ (w₂ ++ w₃)) (lf :: q) c
            have heq : w₁ ++ (w₂ ++ w₃) ++ c :: lf :: q = input := by
              rw [hinput, hq]
              simp
            rw [heq, hbehind] at hlast
            exact absurd (hlast.trans hsemi) (by decide)
          · have hlast := behind_last (w₁ ++ (w₂ ++ (w₃ ++ c :: u))) (lf :: q) b
            have heq : w₁ ++ (w₂ ++ (w₃ ++ c :: u)) ++ b :: lf :: q = input := by
              rw [hinput, hq]
              simp
            rw [heq, hbehind] at hlast
            exact ⟨u, by rw [hsemi, ← hlast, List.concat_eq_append, List.cons_append]⟩
      have hu : lf ∉ u := by
        intro hmem
        have := hw₄ lf (by simp [hmem])
        simp at this
      refine ⟨w₁ ++ (w₂ ++ (w₃ ++ (ch ';' :: u ++ [cr, lf]))), q, by rw [hinput, hq]; simp, ?_,
        w₁, w₂, w₃, ch ';' :: u, rfl, hw₁, hempty, hw₂, hw₃, .inr ⟨u, rfl, hu⟩,
        chunkSize_value hempty hw₂ hw₃ (.inl hsemi) hsize hmax⟩
      rw [hlen, hinput, hq]
      simp only [List.length_append, List.length_cons, List.length_nil]
      omega
    · rw [if_pos hbehind] at hline
      exact absurd hline hminus
  · rw [if_neg hsemi] at hline
    by_cases hcr : c = cr
    · rw [if_neg (not_not.mpr hcr)] at hline
      obtain ⟨q, rfl, hlen, hsize, hmax⟩ := httpChunkSizeEnd_pos hline.symm hn
      refine ⟨w₁ ++ (w₂ ++ (w₃ ++ ([] ++ [cr, lf]))), q, by rw [hinput, hcr]; simp, ?_,
        w₁, w₂, w₃, [], rfl, hw₁, hempty, hw₂, hw₃, .inl rfl,
        chunkSize_value hempty hw₂ hw₃ (.inr hcr) hsize hmax⟩
      rw [hlen, hinput]
      simp only [List.length_append, List.length_cons, List.length_nil]
      omega
    · rw [if_pos hcr] at hline
      exact absurd hline hminus

/-- A chunk's line is accepted with its size, whatever follows it. -/
theorem httpChunkSize_of_chunkLine {line : Bytes} {k : ℕ} (h : ChunkLine line k)
    (hk : k < 2 ^ 64 - 1) (rest : Bytes) :
    httpChunkSize (line ++ rest) = .ok (line.length, k) := by
  obtain ⟨w₁, w₂, w₃, extension, rfl, hw₁, hne, hw₂, hw₃, hextension, rfl⟩ := h
  obtain ⟨a, v, rfl⟩ := List.exists_cons_of_ne_nil hne
  have ha : isblank a = false := by
    have := (isspace_of_isxdigit (hw₂ a (by simp))).1
    simp only [isspace, Bool.or_eq_false_iff, beq_eq_false_iff_ne] at this
    simp only [isblank, Bool.or_eq_false_iff, beq_eq_false_iff_ne]
    refine ⟨this.1, ?_⟩
    rintro rfl
    exact absurd this.2 (by decide)
  obtain ⟨c, r, hc, htail⟩ : ∃ c r, (c = ch ';' ∨ c = cr) ∧
      extension ++ [cr, lf] ++ rest = c :: r := by
    rcases hextension with rfl | ⟨u, rfl, -⟩
    · exact ⟨cr, lf :: rest, .inr rfl, rfl⟩
    · exact ⟨ch ';', u ++ [cr, lf] ++ rest, .inl rfl, by simp⟩
  have hcstop : isblank c = false ∧ isxdigit c = false := by
    rcases hc with rfl | rfl <;> decide
  generalize hwhole : w₁ ++ (a :: v ++ (w₃ ++ (extension ++ [cr, lf]))) ++ rest = input
  have hinput : input = w₁ ++ (a :: v ++ (w₃ ++ c :: r)) := by
    rw [← hwhole, ← htail]
    simp only [List.append_assoc]
  have hlf : lf ∈ input := by
    rw [← hwhole]
    simp
  have hskip₁ : skipWhile isblank input = .ok (a :: v ++ (w₃ ++ c :: r)) := by
    rw [hinput, skipWhile_append hw₁]
    exact skipWhile_of_not ha _
  have hskip₂ : skipWhile isxdigit (a :: v ++ (w₃ ++ c :: r)) = .ok (w₃ ++ c :: r) := by
    rw [skipWhile_append hw₂]
    cases w₃ with
    | nil => exact skipWhile_of_not hcstop.2 _
    | cons d w₃ =>
      refine skipWhile_of_not ?_ _
      have hd : d = space ∨ d = tab := by simpa [isblank] using hw₃ d (by simp)
      rcases hd with rfl | rfl <;> decide
  have hskip₃ : skipWhile isblank (w₃ ++ c :: r) = .ok (c :: r) := by
    rw [skipWhile_append hw₃]
    exact skipWhile_of_not hcstop.1 _
  have hlength : ¬ (w₃ ++ c :: r).length = (a :: v ++ (w₃ ++ c :: r)).length := by
    simp only [List.length_append, List.length_cons]
    omega
  have hend : ∀ p, p = lf :: rest →
      httpChunkSizeEnd input (a :: v ++ (w₃ ++ c :: r)) p =
        .ok ((input.length - rest.length : ℕ), numeral 16 (a :: v)) := by
    rintro p rfl
    have hsize : strtoul 16 (a :: v ++ (w₃ ++ c :: r)) = numeral 16 (a :: v) := by
      rw [strtoul_chunkSize hne hw₂ hw₃ hc, if_neg (by omega)]
    simp only [httpChunkSizeEnd, peek_cons, ok_bind, ne_eq, not_true_eq_false, if_false, hsize,
      if_neg (by omega : ¬ numeral 16 (a :: v) = 2 ^ 64 - 1), List.tail_cons, pure_eq_ok]
  have hcount : input.length - rest.length =
      (w₁ ++ (a :: v ++ (w₃ ++ (extension ++ [cr, lf])))).length := by
    rw [← hwhole, List.length_append]
    omega
  rw [hcount] at hend
  simp only [httpChunkSize, hlf, not_true_eq_false, if_false, hskip₁, hskip₂, hskip₃, ok_bind,
    if_neg hlength, peek_cons, pure_eq_ok]
  rcases hextension with rfl | ⟨u, rfl, hu⟩
  · obtain ⟨rfl, rfl⟩ := List.cons.inj htail
    rw [if_neg (by decide), if_neg (by decide)]
    exact hend _ rfl
  · obtain ⟨hsemi, -⟩ := List.cons.inj htail
    have hsplit : c :: r = ch ';' :: u ++ [cr] ++ lf :: rest := by
      rw [← htail]
      simp
    have hskip₄ : skipWhile (fun c => c != lf) (c :: r) = .ok (lf :: rest) := by
      have hpass : ∀ x ∈ ch ';' :: u ++ [cr], (x != lf) = true := by
        intro x hx
        simp only [List.mem_append, List.mem_cons, List.not_mem_nil, or_false] at hx
        rcases hx with (rfl | hx) | rfl
        · decide
        · simpa using fun heq : x = lf => hu (heq ▸ hx)
        · decide
      rw [hsplit, skipWhile_append hpass]
      exact skipWhile_of_not (by decide) _
    have hbehind : behind input (lf :: rest) = cr := by
      have hcr : input = w₁ ++ (a :: v ++ (w₃ ++ ch ';' :: u)) ++ cr :: lf :: rest := by
        rw [hinput, hsplit]
        simp
      rw [hcr]
      exact behind_last _ _ _
    rw [if_pos hsemi.symm, hskip₄, ok_bind, hbehind, if_neg (not_not.mpr rfl)]
    exact hend _ rfl

/-! ## Chunks and sequences of chunks -/

/-- A chunk that is found is a line, the data of its size, and two bytes. -/
theorem chunk_of_httpChunk {input : Bytes} {n : ℤ} {chunk : Data}
    (hlen : input.length < 2 ^ 63) (h : httpChunk input = .ok (n, chunk)) (hn : 0 < n) :
    ∃ line data e rest, input = line ++ (data ++ (e ++ rest)) ∧ ChunkLine line data.length ∧
      e.length = 2 ∧ n = (line ++ (data ++ e)).length ∧ chunk = ⟨line.length, data.length⟩ := by
  cases hsize : httpChunkSize input with
  | error e => simp [httpChunk, hsize] at h
  | ok r =>
    obtain ⟨m, k⟩ := r
    simp only [httpChunk, hsize, ok_bind, pure_eq_ok] at h
    by_cases hm : m ≤ 0
    · rw [if_pos hm] at h
      obtain ⟨rfl, -⟩ := Prod.mk.inj (Except.ok.inj h)
      omega
    rw [if_neg hm] at h
    obtain ⟨line, rest, rfl, rfl, hline⟩ := chunkLine_of_httpChunkSize hsize (by omega)
    simp only [Int.toNat_natCast, List.length_append] at h hlen
    split_ifs at h with hshort hsmall
    · obtain ⟨rfl, -⟩ := Prod.mk.inj (Except.ok.inj h)
      omega
    · obtain ⟨rfl, -⟩ := Prod.mk.inj (Except.ok.inj h)
      omega
    · obtain ⟨rfl, rfl⟩ := Prod.mk.inj (Except.ok.inj h)
      rw [ssize_of_lt (by omega)]
      have hdata : (rest.take k).length = k := by
        rw [List.length_take]
        omega
      have hend : ((rest.drop k).take 2).length = 2 := by
        rw [List.length_take, List.length_drop]
        omega
      refine ⟨line, rest.take k, (rest.drop k).take 2, (rest.drop k).drop 2, ?_, ?_, hend, ?_, ?_⟩
      · rw [List.take_append_drop, List.take_append_drop]
      · rwa [hdata]
      · rw [List.length_append, List.length_append, hdata, hend]
        omega
      · rw [hdata]

theorem httpChunk_of_chunk {line data e : Bytes} (hline : ChunkLine line data.length)
    (he : e.length = 2) {rest : Bytes} (hlen : (line ++ (data ++ (e ++ rest))).length < 2 ^ 63) :
    httpChunk (line ++ (data ++ (e ++ rest))) =
      .ok ((line ++ (data ++ e)).length, ⟨line.length, data.length⟩) := by
  simp only [List.length_append] at hlen
  have hpos : 0 < line.length := by
    obtain ⟨_, _, _, _, rfl, -⟩ := hline
    simp only [List.length_append, List.length_cons]
    omega
  simp only [httpChunk, httpChunkSize_of_chunkLine hline (by omega), ok_bind,
    if_neg (by omega : ¬ (line.length : ℤ) ≤ 0), Int.toNat_natCast, List.length_append, pure_eq_ok]
  rw [if_neg (by omega), if_neg (by omega), ssize_of_lt (by omega)]
  congr 2
  omega

theorem ChunkSequence.of_scan {input body : Bytes} {n : ℤ} (hlen : input.length < 2 ^ 63)
    (h : Scan input n body) (hn : 0 < n) :
    ∃ ends text rest, input = text ++ rest ∧ n = text.length ∧ ChunkSequence ends text body := by
  induction h with
  | stop _ hstop => omega
  | last hchunk hpos hsize =>
    obtain ⟨line, data, e, rest, rfl, hline, he, rfl, rfl⟩ := chunk_of_httpChunk hlen hchunk hpos
    obtain rfl : data = [] := List.length_eq_zero_iff.mp hsize
    exact ⟨[e], line ++ e, rest, by simp, by simp, .last hline he⟩
  | @more input n chunk m body hchunk hpos hsize hrest ih =>
    obtain ⟨line, data, e, rest, rfl, hline, he, rfl, rfl⟩ := chunk_of_httpChunk hlen hchunk hpos
    have hm : 0 < m := by
      by_contra hm
      rw [if_pos (by omega)] at hn
      exact hm hn
    have hdrop : (line ++ (data ++ (e ++ rest))).drop
        (((line ++ (data ++ e)).length : ℕ) : ℤ).toNat = rest := by
      have hsplit : line ++ (data ++ (e ++ rest)) = line ++ (data ++ e) ++ rest := by simp
      rw [Int.toNat_natCast, hsplit, List.drop_left]
    have hbytes : Data.bytes ⟨line.length, data.length⟩ (line ++ (data ++ (e ++ rest))) = data := by
      simp only [Data.bytes]
      rw [List.drop_left, List.take_left]
    rw [hdrop] at ih
    obtain ⟨ends, text, rest', rfl, rfl, hsequence⟩ := ih (by
      simp only [List.length_append] at hlen ⊢
      omega) hm
    refine ⟨e :: ends, line ++ (data ++ (e ++ text)), rest', by simp, ?_, ?_⟩
    · rw [if_neg (by omega)]
      simp only [List.length_append]
      omega
    · rw [hbytes]
      exact .more hline (fun hnil => hsize (by simp [hnil])) he hsequence

theorem ChunkSequence.scan {ends : List Bytes} {text body : Bytes}
    (h : ChunkSequence ends text body) (rest : Bytes) (hlen : (text ++ rest).length < 2 ^ 63) :
    Scan (text ++ rest) text.length body ∧ 0 < text.length := by
  induction h with
  | @last line e hline he =>
    have hchunk := httpChunk_of_chunk (show ChunkLine line ([] : Bytes).length from hline) he
      (show (line ++ ([] ++ (e ++ rest))).length < 2 ^ 63 by simpa using hlen)
    rw [List.nil_append, ← List.append_assoc] at hchunk
    have hpos : 0 < (line ++ e).length := by
      rw [List.length_append]
      omega
    exact ⟨.last hchunk (by exact_mod_cast hpos) rfl, hpos⟩
  | @more line data e ends text body hline hdata he _ ih =>
    have hsplit : line ++ (data ++ (e ++ text)) ++ rest =
      line ++ (data ++ (e ++ (text ++ rest))) := by
      simp
    rw [hsplit] at hlen ⊢
    obtain ⟨ih, hpos⟩ := ih (by
      simp only [List.length_append] at hlen ⊢
      omega)
    have hchunk := httpChunk_of_chunk hline he hlen
    have hdrop : (line ++ (data ++ (e ++ (text ++ rest)))).drop
        (((line ++ (data ++ e)).length : ℕ) : ℤ).toNat = text ++ rest := by
      have hsplit : line ++ (data ++ (e ++ (text ++ rest))) =
          line ++ (data ++ e) ++ (text ++ rest) := by simp
      rw [Int.toNat_natCast, hsplit, List.drop_left]
    have hbytes : Data.bytes ⟨line.length, data.length⟩
        (line ++ (data ++ (e ++ (text ++ rest)))) = data := by
      simp only [Data.bytes]
      rw [List.drop_left, List.take_left]
    have hn : (0 : ℤ) < (line ++ (data ++ e)).length := by
      simp only [List.length_append]
      omega
    have hmore := Scan.more hchunk hn (fun hzero => hdata (List.length_eq_zero_iff.mp hzero))
      (hdrop.symm ▸ ih)
    rw [if_neg (by omega), hbytes] at hmore
    refine ⟨?_, by simp only [List.length_append]; omega⟩
    have hlength : ((line ++ (data ++ e)).length : ℤ) + text.length =
        ((line ++ (data ++ (e ++ text))).length : ℕ) := by
      simp only [List.length_append]
      omega
    rw [← hlength]
    exact hmore

/-! ## The chunks' ends -/

/-- What is accepted is a sequence of chunks that all end in CR LF, and no other sequence is. -/
def FollowsGrammar (input : Bytes) : Prop :=
  ∀ n dechunked rest, httpDechunk input = .ok (n, dechunked, rest) →
    (0 < n → ∃ ends body, ChunkSequence ends (input.take n.toNat) body ∧
      ∀ e ∈ ends, e = [cr, lf]) ∧
    ∀ ends text body, text <+: input → ChunkSequence ends text body →
      (∃ e ∈ ends, e ≠ [cr, lf]) → ¬ 0 < n

/-- `http_dechunk` keeps to the grammar exactly when the input does not start with a sequence of
chunks one of which ends in two bytes other than CR LF. -/
theorem httpDechunk_grammar_iff {input : Bytes} (hlen : input.length < 2 ^ 63) :
    FollowsGrammar input ↔ ∀ ends text body, text <+: input → ChunkSequence ends text body →
      ∀ e ∈ ends, e = [cr, lf] := by
  constructor
  · intro h ends text body hprefix hsequence
    obtain ⟨rest, rfl⟩ := hprefix
    obtain ⟨hscan, hpos⟩ := hsequence.scan rest hlen
    have hcall := httpDechunk_eq hlen hscan
    rw [if_neg (by omega)] at hcall
    by_contra hbad
    push Not at hbad
    exact (h _ _ _ hcall).2 ends text body (List.prefix_append _ _) hsequence hbad (by omega)
  · intro h n dechunked rest hcall
    refine ⟨fun hn => ?_, fun ends text body hprefix hsequence hbad => ?_⟩
    · obtain ⟨m, body, hscan⟩ := Scan.exists_scan hlen
      have hm : m = n := by
        rw [httpDechunk_eq hlen hscan] at hcall
        split_ifs at hcall with hle
        · exact congrArg Prod.fst (Except.ok.inj hcall)
        · exact congrArg Prod.fst (Except.ok.inj hcall)
      subst hm
      obtain ⟨ends, text, tail, rfl, rfl, hsequence⟩ := ChunkSequence.of_scan hlen hscan hn
      rw [Int.toNat_natCast, List.take_left]
      exact ⟨ends, body, hsequence, h ends text body (List.prefix_append _ _) hsequence⟩
    · obtain ⟨e, he, hne⟩ := hbad
      exact absurd (h ends text body hprefix hsequence e he) hne

def strayEnd : Bytes := str "5\r\nhelloXX0\r\n\r\n"

theorem strayEnd_sequence : ChunkSequence [str "XX", [cr, lf]] strayEnd (str "hello") := by
  have hfive : ChunkLine (str "5\r\n") (str "hello").length :=
    ⟨[], str "5", [], [], by decide, by simp, by decide, by decide +kernel, by simp, .inl rfl,
      by decide⟩
  have hzero : ChunkLine (str "0\r\n") 0 :=
    ⟨[], str "0", [], [], by decide, by simp, by decide, by decide +kernel, by simp, .inl rfl,
      by decide⟩
  have hsequence := ChunkSequence.more hfive (by decide) (show (str "XX").length = 2 by decide)
    (.last hzero (show [cr, lf].length = 2 from rfl))
  have htext : str "5\r\n" ++ (str "hello" ++ (str "XX" ++ (str "0\r\n" ++ [cr, lf]))) =
      strayEnd := by decide
  rwa [htext, List.append_nil] at hsequence

theorem httpDechunk_grammar_strayEnd : ¬ FollowsGrammar strayEnd := by
  rw [httpDechunk_grammar_iff (show strayEnd.length < 2 ^ 63 by decide)]
  intro h
  have := h _ _ _ (List.prefix_refl _) strayEnd_sequence (str "XX") (by simp)
  exact absurd this (by decide)

/-- The two stray bytes are passed over, and the body is complete. -/
theorem httpDechunk_strayEnd : ¬ ∀ input : Bytes, input.length < 2 ^ 63 → FollowsGrammar input := by
  intro h
  have hlen : strayEnd.length < 2 ^ 63 := by decide
  have hscan := (strayEnd_sequence.scan [] (by simpa using hlen)).1
  rw [List.append_nil] at hscan
  have hcall := httpDechunk_eq hlen hscan
  rw [if_neg (by decide)] at hcall
  exact (h strayEnd hlen _ _ _ hcall).2 _ _ _ (List.prefix_refl _) strayEnd_sequence
    ⟨str "XX", by simp, by decide⟩ (by decide)

end LibReactor
