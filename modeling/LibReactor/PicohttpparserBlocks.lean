import LibReactor.Picohttpparser

/-!
# Searching in blocks

The SSE4.2 search of 16 bytes at a time and the search of 8 bytes at a time find what
the search of one byte at a time finds, so the parsers of both builds agree on every
memory.
-/

namespace LibReactor.Phr

open Incremental

/-! ## Classes of bytes -/

theorem isPrintableAscii_eq (c : UInt8) :
    isPrintableAscii c = decide (32 ≤ c.toNat ∧ c.toNat < 127) := by
  have hc := c.toNat_lt
  unfold isPrintableAscii
  apply decide_eq_decide.mpr
  rw [UInt32.lt_iff_toNat_lt, UInt32.toNat_sub]
  simp only [UInt8.toNat_toUInt32, UInt32.reduceToNat]
  omega

/-- The bytes `ADVANCE_TOKEN` rejects. -/
theorem isCtl_token (c : UInt8) : (!isPrintableAscii c && (c < 32 || c == del)) =
    decide (c.toNat < 32 ∨ c.toNat = 127) := by
  rw [isPrintableAscii_eq, Bool.eq_iff_iff]
  simp only [Bool.and_eq_true, Bool.not_eq_true', decide_eq_false_iff_not, Bool.or_eq_true,
    decide_eq_true_eq, beq_iff_eq, UInt8.lt_iff_toNat_lt, UInt8.ext_iff, del, UInt8.reduceToNat]
  omega

theorem isCtl_eq (c : UInt8) :
    isCtl c = decide ((c.toNat < 32 ∧ c.toNat ≠ 9) ∨ c.toNat = 127) := by
  unfold isCtl
  rw [Bool.eq_iff_iff]
  simp [UInt8.lt_iff_toNat_lt, UInt8.ext_iff, tab, del]

/-- `get_token_to_eol` tests control characters behind a test that all of them pass. -/
theorem isCtl_value (c : UInt8) : (!isPrintableAscii c && isCtl c) = isCtl c := by
  rw [isPrintableAscii_eq, isCtl_eq, Bool.eq_iff_iff]
  simp only [Bool.and_eq_true, Bool.not_eq_true', decide_eq_false_iff_not, decide_eq_true_eq]
  omega

set_option maxRecDepth 4096 in
theorem isTokenChar_all {P : ℕ → UInt8 → Prop}
    (h : ∀ e ∈ ((tokenCharMap.drop 0).take 256).zipIdx, P e.2 e.1) (c : UInt8) :
    P c.toNat (tokenCharMap.getD c.toNat 0) := by
  have hentry :=
    getD_of_zipIdx (l := tokenCharMap) (k := 0) (d := 0) (by decide) (UInt8.toNat_lt c) h
  rwa [Nat.zero_add] at hentry

/-! ## Blocks -/

def inRanges (ranges : List (UInt8 × UInt8)) (c : UInt8) : Bool :=
  ranges.any (fun r => r.1 ≤ c && c ≤ r.2)

/-- A search in blocks passes over bytes outside the ranges: to a byte in the ranges, or to less
than 16 bytes before the end. -/
theorem findcharBlocks_eq (ranges : List (UInt8 × UInt8)) (out : Head) {e : ℕ} (left : ℕ)
    {p : Bytes} (h : e + 16 * left ≤ p.length) (i : ℕ) :
    ∃ w q, p = w ++ q ∧ (∀ x ∈ w, inRanges ranges x = false) ∧
      ((findcharBlocks ranges out left i p = .ok false ⟨i + w.length, q, out⟩ ∧ e ≤ q.length) ∨
        ∃ c t, q = c :: t ∧ inRanges ranges c = true ∧ e < q.length ∧
          findcharBlocks ranges out left i p = .ok true ⟨i + w.length, q, out⟩) := by
  induction left generalizing i p with
  | zero => exact ⟨[], p, rfl, by simp, .inl ⟨rfl, by omega⟩⟩
  | succ left ih =>
    have hlen : (p.take 16).length = 16 := by
      rw [List.length_take]
      omega
    cases hfind : (p.take 16).findIdx? (inRanges ranges) with
    | none =>
      have hr : cmpestri ranges (p.take 16) = 16 := by
        show ((p.take 16).findIdx? (inRanges ranges)).getD 16 = 16
        rw [hfind]
        rfl
      have hdrop : e + 16 * left ≤ (p.drop 16).length := by
        rw [List.length_drop]
        omega
      obtain ⟨w, q, hp, hw, hend⟩ := ih hdrop (i + 16)
      refine ⟨p.take 16 ++ w, q, ?_, ?_, ?_⟩
      · rw [List.append_assoc, ← hp, List.take_append_drop]
      · intro x hx
        rcases List.mem_append.mp hx with hx | hx
        · exact List.findIdx?_eq_none_iff.mp hfind x hx
        · exact hw x hx
      · have hoffset : i + (p.take 16 ++ w).length = i + 16 + w.length := by
          rw [List.length_append, hlen, Nat.add_assoc]
        simp only [findcharBlocks, hr, ne_eq, not_true_eq_false, if_false, hoffset]
        exact hend
    | some r =>
      have hr : cmpestri ranges (p.take 16) = r := by
        show ((p.take 16).findIdx? (inRanges ranges)).getD 16 = r
        rw [hfind]
        rfl
      obtain ⟨hlt, hin, hbefore⟩ := List.findIdx?_eq_some_iff_getElem.mp hfind
      have hr16 : r ≠ 16 := by omega
      have hrp : r < p.length := by omega
      have htake : p.take r = (p.take 16).take r := by
        rw [List.take_take, Nat.min_eq_left (by omega)]
      refine ⟨p.take r, p.drop r, (List.take_append_drop r p).symm, ?_, .inr ?_⟩
      · intro x hx
        rw [htake] at hx
        obtain ⟨j, hj, rfl⟩ := List.getElem_of_mem hx
        rw [List.getElem_take]
        rw [List.length_take] at hj
        simpa using hbefore j (by omega)
      · refine ⟨p[r], p.drop (r + 1), List.drop_eq_getElem_cons hrp, ?_, ?_, ?_⟩
        · rwa [List.getElem_take] at hin
        · rw [List.length_drop]
          omega
        · rw [List.length_take_of_le (by omega)]
          simp only [findcharBlocks, hr, ne_eq, hr16, not_false_eq_true, if_true]

/-- A search in blocks before a scan that stops or fails only in the ranges. -/
theorem searchThen_scan {ranges : List (UInt8 × UInt8)} {stop bad : UInt8 → Bool}
    (h : ∀ c, inRanges ranges c = false → stop c = false ∧ bad c = false) (sse : Bool) :
    searchThen sse ranges (.scan (some .incomplete) (.fault .outside) .invalid stop bad) =
      .seek .incomplete (.fault .outside) .invalid stop bad := by
  apply Reader.ext
  rintro e ⟨i, p, out⟩
  unfold searchThen
  by_cases hsse : sse = true ∧ e + 16 ≤ p.length
  · obtain ⟨w, q, rfl, hw, hend⟩ := findcharBlocks_eq ranges out (e := e)
      ((p.length - e) / 16) (p := p) (by omega) i
    rcases hend with ⟨hfind, hq⟩ | ⟨c, t, rfl, hc, hq, hfind⟩
    · have hfast : (findcharFast sse ranges).run e ⟨i, w ++ q, out⟩ =
          .ok false ⟨i + w.length, q, out⟩ := (if_pos hsse).trans hfind
      rw [Reader.bind_of_ok hfast, Reader.seek_append (fun x hx => h x (hw x hx)) hq]
      rfl
    · have hfast : (findcharFast sse ranges).run e ⟨i, w ++ c :: t, out⟩ =
          .ok true ⟨i + w.length, c :: t, out⟩ := (if_pos hsse).trans hfind
      rw [Reader.bind_of_ok hfast, Reader.seek_append (fun x hx => h x (hw x hx)) (by omega)]
      rw [List.length_cons] at hq
      exact (Reader.seek_cons (by omega) _ out).symm
  · have hfast : (findcharFast sse ranges).run e ⟨i, p, out⟩ = .ok false ⟨i, p, out⟩ := if_neg hsse
    rw [Reader.bind_of_ok hfast]
    rfl

def seekSpace : Parse Unit :=
  .seek .incomplete (.fault .outside) .invalid (fun c => c == space)
    (fun c => !isPrintableAscii c && (c < 32 || c == del))

def seekColon : Parse Unit :=
  .seek .incomplete (.fault .outside) .invalid (fun c => c == ch ':') (fun c => !isTokenChar c)

def seekCtl : Parse Unit :=
  .seek .incomplete (.fault .outside) .invalid (fun c => !isPrintableAscii c && isCtl c)
    (fun _ => false)

theorem inRanges_eq_false {ranges : List (UInt8 × UInt8)} {c : UInt8}
    (h : inRanges ranges c = false) :
    ∀ r ∈ ranges, c.toNat < r.1.toNat ∨ r.2.toNat < c.toNat := by
  intro r hr
  have hc := List.any_eq_false.mp h r hr
  rw [Bool.and_eq_true, decide_eq_true_iff, decide_eq_true_iff, UInt8.le_iff_toNat_le,
    UInt8.le_iff_toNat_le] at hc
  omega

theorem searchThen_space (sse : Bool) : searchThen sse ranges2 advanceTokenLoop = seekSpace := by
  apply searchThen_scan
  intro c hc
  have hrange := inRanges_eq_false hc
  simp only [ranges2, List.mem_cons, List.not_mem_nil, or_false, forall_eq_or_imp, forall_eq,
    UInt8.reduceToNat] at hrange
  rw [isCtl_token]
  simp only [beq_eq_false_iff_ne, ne_eq, UInt8.ext_iff, space, UInt8.reduceToNat,
    decide_eq_false_iff_not]
  omega

set_option maxRecDepth 4096 in
theorem isTokenChar_of_range {c : UInt8} (h : inRanges nameRanges c = false) :
    isTokenChar c = true := by
  have hentry := isTokenChar_all (P := fun n k =>
    nameRanges.all (fun r => decide (n < r.1.toNat ∨ r.2.toNat < n)) = true → k ≠ 0) (by decide) c
  have hrange := inRanges_eq_false h
  exact bne_iff_ne.mpr (hentry (List.all_eq_true.mpr fun r hr => decide_eq_true (hrange r hr)))

theorem searchThen_colon (sse : Bool) : searchThen sse nameRanges parseNameLoop = seekColon := by
  apply searchThen_scan
  intro c hc
  have hcolon := inRanges_eq_false hc (58, 64) (by decide)
  refine ⟨?_, by simp [isTokenChar_of_range hc]⟩
  apply beq_eq_false_iff_ne.mpr
  rintro rfl
  revert hcolon
  decide

/-- The search of 8 bytes at a time passes over bytes that are not control characters. -/
theorem tokenBlocks_eq {e : ℕ} (out : Head) {k : ℕ} {p : Bytes} (h : e + k ≤ p.length) (i : ℕ) :
    ∃ w q, p = w ++ q ∧ (∀ x ∈ w, isCtl x = false) ∧
      ((tokenBlocks e out k i p = .ok false ⟨i + w.length, q, out⟩ ∧ e ≤ q.length) ∨
        ∃ c t, q = c :: t ∧ isCtl c = true ∧ e < q.length ∧
          tokenBlocks e out k i p = .ok true ⟨i + w.length, q, out⟩) := by
  induction p generalizing k i with
  | nil =>
    cases k with
    | zero => exact ⟨[], [], rfl, by simp, .inl ⟨rfl, h⟩⟩
    | succ k => simp at h
  | cons c p ih =>
    rw [List.length_cons] at h
    by_cases hshort : k = 0 ∧ (c :: p).length < e + 8
    · obtain ⟨rfl, hlt⟩ := hshort
      exact ⟨[], c :: p, rfl, by simp, .inl ⟨if_pos hlt, h⟩⟩
    have hlen : k = 0 → e + 8 ≤ p.length + 1 := by
      intro hk
      by_contra hlt
      exact hshort ⟨hk, by rw [List.length_cons]; omega⟩
    have hblock : tokenBlocks e out k i (c :: p) =
        if isPrintableAscii c then tokenBlocks e out (if k = 0 then 7 else k - 1) (i + 1) p
        else if isCtl c then .ok true ⟨i, c :: p, out⟩
        else tokenBlocks e out 0 (i + 1) p := by
      cases k with
      | zero => exact if_neg fun hlt => hshort ⟨rfl, hlt⟩
      | succ k => rfl
    -- the byte is passed over, with `j` bytes of the block to go
    have hpass : ∀ j, e + j ≤ p.length → isCtl c = false →
        tokenBlocks e out k i (c :: p) = tokenBlocks e out j (i + 1) p →
        ∃ w q, c :: p = w ++ q ∧ (∀ x ∈ w, isCtl x = false) ∧
          ((tokenBlocks e out k i (c :: p) = .ok false ⟨i + w.length, q, out⟩ ∧ e ≤ q.length) ∨
            ∃ c' t, q = c' :: t ∧ isCtl c' = true ∧ e < q.length ∧
              tokenBlocks e out k i (c :: p) = .ok true ⟨i + w.length, q, out⟩) := by
      intro j hj hc hstep
      obtain ⟨w, q, rfl, hw, hend⟩ := ih hj (i + 1)
      refine ⟨c :: w, q, rfl, by simpa [hc] using hw, ?_⟩
      rw [hstep, List.length_cons, Nat.add_comm w.length, ← Nat.add_assoc]
      exact hend
    cases hprint : isPrintableAscii c with
    | true =>
      have hc : isCtl c = false := by
        rw [isPrintableAscii_eq, decide_eq_true_iff] at hprint
        rw [isCtl_eq, decide_eq_false_iff_not]
        omega
      apply hpass (if k = 0 then 7 else k - 1)
      · split_ifs
        · omega
        · omega
      · exact hc
      · rw [hblock, if_pos hprint]
    | false =>
      have hnot : ¬ isPrintableAscii c = true := by simp [hprint]
      cases hc : isCtl c with
      | true =>
        refine ⟨[], c :: p, rfl, by simp, .inr ⟨c, p, rfl, hc, ?_, ?_⟩⟩
        · rw [List.length_cons]
          omega
        · rw [hblock, if_neg hnot, if_pos hc]
          rfl
      | false =>
        apply hpass 0 _ hc
        · rw [hblock, if_neg hnot, if_neg (by simp [hc])]
        · omega

theorem seekCtl_append {e : ℕ} {w q : Bytes} (hw : ∀ x ∈ w, isCtl x = false) (hq : e ≤ q.length)
    (i : ℕ) (out : Head) :
    seekCtl.run e ⟨i, w ++ q, out⟩ = seekCtl.run e ⟨i + w.length, q, out⟩ := by
  apply Reader.seek_append _ hq
  intro x hx
  exact ⟨(isCtl_value x).trans (hw x hx), rfl⟩

theorem inRanges_value (c : UInt8) : inRanges valueRanges c = isCtl c := by
  rw [isCtl_eq, Bool.eq_iff_iff]
  simp only [inRanges, valueRanges, List.any_cons, List.any_nil, Bool.or_false, Bool.or_eq_true,
    Bool.and_eq_true, decide_eq_true_eq, UInt8.le_iff_toNat_le, UInt8.reduceToNat]
  omega

/-- Where a search in blocks ends, the search of one byte at a time ends or goes on. -/
theorem seekCtl_of_found {m : Parse Bool} {e i : ℕ} {p w q : Bytes} {out : Head} (hp : p = w ++ q)
    (hw : ∀ x ∈ w, isCtl x = false)
    (h : (m.run e ⟨i, p, out⟩ = .ok false ⟨i + w.length, q, out⟩ ∧ e ≤ q.length) ∨
      ∃ c t, q = c :: t ∧ isCtl c = true ∧ e < q.length ∧
        m.run e ⟨i, p, out⟩ = .ok true ⟨i + w.length, q, out⟩) :
    (m >>= fun found => if found then pure () else seekCtl).run e ⟨i, p, out⟩ =
      seekCtl.run e ⟨i, p, out⟩ := by
  subst hp
  rcases h with ⟨hrun, hq⟩ | ⟨c, t, rfl, hc, hq, hrun⟩
  · rw [Reader.bind_of_ok hrun, seekCtl_append hw hq]
    rfl
  · rw [Reader.bind_of_ok hrun, seekCtl_append hw (by omega)]
    symm
    apply Reader.seek_stop _ hq
    exact (isCtl_value c).trans hc

/-- Both builds search for the end of a value as the search of one byte at a time does. -/
theorem findCtl_eq (sse : Bool) : findCtl sse = seekCtl := by
  apply Reader.ext
  rintro e ⟨i, p, out⟩
  cases sse with
  | true =>
    by_cases hlen : e + 16 ≤ p.length
    · have hfast : (findcharFast true valueRanges).run e ⟨i, p, out⟩ =
          findcharBlocks valueRanges out ((p.length - e) / 16) i p := if_pos ⟨rfl, hlen⟩
      obtain ⟨w, q, hp, hw, hend⟩ := findcharBlocks_eq valueRanges out (e := e)
        ((p.length - e) / 16) (p := p) (by omega) i
      simp only [inRanges_value, ← hfast] at hw hend
      exact seekCtl_of_found hp hw hend
    · have hfast : (findcharFast true valueRanges).run e ⟨i, p, out⟩ = .ok false ⟨i, p, out⟩ :=
        if_neg fun h => hlen h.2
      exact Reader.bind_of_ok hfast
  | false =>
    by_cases hlen : e ≤ p.length
    · obtain ⟨w, q, hp, hw, hend⟩ := tokenBlocks_eq (e := e) (k := 0) out hlen i
      exact seekCtl_of_found (m := ⟨fun e s => tokenBlocks e s.out 0 s.offset s.rest⟩) hp hw hend
    · have hshort : Reader.run (⟨fun e s => tokenBlocks e s.out 0 s.offset s.rest⟩ : Parse Bool) e
          ⟨i, p, out⟩ = .ok false ⟨i, p, out⟩ := by
        cases p with
        | nil => rfl
        | cons c p => exact if_pos (by omega)
      exact Reader.bind_of_ok hshort

/-! ## Both builds -/

theorem getTokenToEol_sse : getTokenToEol true = getTokenToEol false := by
  unfold getTokenToEol
  rw [findCtl_eq, findCtl_eq]

theorem advanceToken_sse : advanceToken true = advanceToken false := by
  unfold advanceToken
  rw [searchThen_space, searchThen_space]

theorem parseName_sse : parseName true = parseName false := by
  unfold parseName
  rw [searchThen_colon, searchThen_colon]

theorem parseHeaders_sse (room : ℕ) : parseHeaders true room = parseHeaders false room := by
  induction room with
  | zero => rfl
  | succ room ih =>
    unfold parseHeaders parseHeader parseValue
    rw [getTokenToEol_sse, parseName_sse, ih]

theorem parseRequest_sse (maxHeaders : ℕ) :
    parseRequest true maxHeaders = parseRequest false maxHeaders := by
  unfold parseRequest parseTargets afterTargets
  rw [advanceToken_sse, parseHeaders_sse]

/-- The build with SSE4.2 and the plain build return and store the same for every memory, also
where they read behind the input. -/
theorem phrParseRequest_builds (input behind : Bytes) (numHeaders lastLen : ℕ) :
    phrParseRequest true input behind numHeaders lastLen =
      phrParseRequest false input behind numHeaders lastLen := by
  unfold phrParseRequest
  rw [parseRequest_sse]

end LibReactor.Phr
