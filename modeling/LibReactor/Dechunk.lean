import LibReactor.Chunk

/-!
# Dechunking in place

`http_dechunk` passes over the chunks twice. The first pass only looks for the last
chunk. The second one moves the chunks to the front of the input it still reads the
lines of: it writes at or before the place it reads from, so the lines that follow
are as they were.
-/

namespace LibReactor

open Loop

/-- A complete sequence of chunks as `http_chunk` reports them: its length, and the data of
each chunk. Only the last chunk is empty. -/
inductive Chunks : Bytes → ℕ → List Bytes → Prop
  | last {input n chunk} : httpChunk input = .ok (n, chunk) → 0 < n → chunk.size = 0 →
      Chunks input n.toNat []
  | more {input n chunk m data} : httpChunk input = .ok (n, chunk) → 0 < n → chunk.size ≠ 0 →
      Chunks (input.drop n.toNat) m data → Chunks input (n.toNat + m) (chunk.bytes input :: data)

namespace Chunks

variable {input : Bytes} {m : ℕ} {data : List Bytes}

theorem pos (h : Chunks input m data) : 0 < m := by
  induction h with
  | last _ hn _ => omega
  | more _ hn _ _ _ => omega

theorem scan (h : Chunks input m data) : Scan input m data.flatten := by
  induction h with
  | @last input n chunk hchunk hn hsize =>
    rw [Int.toNat_of_nonneg (by omega)]
    exact .last hchunk hn hsize
  | @more input n chunk m data hchunk hn hsize hrest ih =>
    have hm := hrest.pos
    have hmore := Scan.more hchunk hn hsize ih
    rw [if_neg (by omega)] at hmore
    have hcast : ((n.toNat + m : ℕ) : ℤ) = n + m := by omega
    rw [hcast, List.flatten_cons]
    exact hmore

theorem of_scan {n : ℤ} {body : Bytes} (h : Scan input n body) (hn : 0 < n) :
    ∃ data, Chunks input n.toNat data ∧ data.flatten = body := by
  induction h with
  | stop _ hstop => omega
  | last hchunk hpos hsize => exact ⟨[], .last hchunk hpos hsize, rfl⟩
  | @more input n chunk m body hchunk hpos hsize hrest ih =>
    have hm : 0 < m := by
      by_contra hm
      rw [if_pos (by omega)] at hn
      exact hm hn
    obtain ⟨data, hdata, rfl⟩ := ih hm
    refine ⟨chunk.bytes input :: data, ?_, rfl⟩
    rw [if_neg (by omega), Int.toNat_add (by omega) (by omega)]
    exact .more hchunk hpos hsize hdata

end Chunks

/-! ## The second pass -/

/-- The bytes a turn of the second pass reads and writes: the chunk lies in the input, and its
place lies at or before it. -/
def MoveInside (d : Dechunk) : Prop :=
  ∃ n chunk, httpChunk (d.input.drop d.offset) = .ok (n, chunk) ∧ 0 < n ∧
    d.offset + chunk.base + chunk.size ≤ d.input.length ∧
    d.dechunked.base + d.dechunked.size ≤ d.offset + chunk.base

/-- The chunks that are still to be moved are intact, and they lie behind the body. -/
structure Moving (input : Bytes) (d : Dechunk) : Prop where
  length : d.input.length = input.length
  offset : d.offset ≤ input.length
  behind : d.dechunked.base + d.dechunked.size ≤ d.offset
  chunks : ∃ m data, Chunks (d.input.drop d.offset) m data

namespace Moving

variable {input : Bytes} {d : Dechunk}

theorem inside (h : Moving input d) (hlen : input.length < 2 ^ 63) : MoveInside d := by
  obtain ⟨m, data, hchunks⟩ := h.chunks
  have hrest : (d.input.drop d.offset).length < 2 ^ 63 := by
    rw [List.length_drop, h.length]
    omega
  obtain ⟨n, chunk, hchunk, hresult, -⟩ := httpChunk_spec hrest
  have hpos : 0 < n := by
    cases hchunks with
    | last hchunk' hpos _ =>
      obtain ⟨rfl, -⟩ := Prod.mk.inj (Except.ok.inj (hchunk.symm.trans hchunk'))
      exact hpos
    | more hchunk' hpos _ _ =>
      obtain ⟨rfl, -⟩ := Prod.mk.inj (Except.ok.inj (hchunk.symm.trans hchunk'))
      exact hpos
  have hoffset := h.offset
  have hbehind := h.behind
  have hlength := h.length
  rcases hresult with rfl | rfl | ⟨-, hle, -, hend⟩
  · omega
  · omega
  · rw [List.length_drop] at hle
    exact ⟨n, chunk, hchunk, hpos, by omega, by omega⟩

theorem turn (h : Moving input d) (hlen : input.length < 2 ^ 63) {d' : Dechunk}
    (hturn : dechunkMove d = .ok (.inr d')) : Moving input d' := by
  obtain ⟨n, chunk, hchunk, hpos, hinside, hplace⟩ := h.inside hlen
  have hrest : (d.input.drop d.offset).length < 2 ^ 63 := by
    rw [List.length_drop, h.length]
    omega
  obtain ⟨n', chunk', hchunk', hresult, -⟩ := httpChunk_spec hrest
  obtain ⟨rfl, rfl⟩ := Prod.mk.inj (Except.ok.inj (hchunk.symm.trans hchunk'))
  have hend : n ≤ input.length - d.offset ∧ (chunk.base + chunk.size + 2 : ℕ) = n := by
    have hlength := h.length
    rw [ChunkResult, List.length_drop] at hresult
    rcases hresult with rfl | rfl | ⟨_, hle, _, hend⟩ <;> omega
  have husize : usize (d.offset + n) = d.offset + n.toNat := by
    unfold usize
    omega
  have hlength := h.length
  have hoffset := h.offset
  have hbehind := h.behind
  have hmoved : ((d.input.drop (d.offset + chunk.base)).take chunk.size).length = chunk.size := by
    rw [List.length_take, List.length_drop]
    omega
  obtain ⟨m, data, hchunks⟩ := h.chunks
  cases hchunks with
  | last hlast _ hsize =>
    obtain ⟨rfl, rfl⟩ := Prod.mk.inj (Except.ok.inj (hchunk.symm.trans hlast))
    simp [dechunkMove, hchunk, hpos, Data.shift, hsize] at hturn
  | more hmore _ hsize hchunks =>
    obtain ⟨rfl, rfl⟩ := Prod.mk.inj (Except.ok.inj (hchunk.symm.trans hmore))
    simp only [dechunkMove, hchunk, ok_bind, if_pos hpos, husize, Data.shift, memmove,
      if_neg hsize, pure_eq_ok, Except.ok.injEq, Sum.inr.injEq] at hturn
    subst hturn
    have hdrop : (write d.input (d.dechunked.base + d.dechunked.size)
        ((d.input.drop (d.offset + chunk.base)).take chunk.size)).drop (d.offset + n.toNat) =
        (d.input.drop d.offset).drop n.toNat := by
      rw [drop_write (by omega) (by omega), List.drop_drop]
    refine ⟨?_, by simp only; omega, by simp only; omega, _, _, hdrop ▸ hchunks⟩
    simp only
    rw [length_write (by omega), hlength]

theorem of_leads (h : Moving input d) (hlen : input.length < 2 ^ 63) {d' : Dechunk}
    (hleads : Leads dechunkMove d d') : Moving input d' := by
  induction hleads with
  | refl => exact h
  | tail _ hturn ih => exact ih.turn hlen hturn

end Moving

/-- `http_dechunk` ends and reads only the input. A complete sequence of chunks gives its length
and the chunks' data, gathered at the start of the input, with the bytes behind the sequence as
they were; any other input is left as it was. -/
theorem httpDechunk_inPlace {input : Bytes} (hlen : input.length < 2 ^ 63) :
    (∃ n dechunked rest, httpDechunk input = .ok (n, dechunked, rest) ∧
      (∀ m data, Chunks input m data → n = m ∧ dechunked.base = 0 ∧
        dechunked.bytes rest = data.flatten ∧ rest.drop m = input.drop m ∧
        rest.length = input.length) ∧
      (n = 0 ∨ n = -1 ∨ ∃ data, Chunks input n.toNat data) ∧
      (n = 0 ∨ n = -1 → rest = input)) ∧
    (∀ d, (∃ m data, Chunks input m data) → Leads dechunkMove ⟨input, 0, .null, .null⟩ d →
      MoveInside d) ∧
    ∀ b x, lf ∈ b → httpChunkSize (b ++ x) = httpChunkSize b := by
  refine ⟨?_, ?_, ?_⟩
  · obtain ⟨n, body, hscan⟩ := Scan.exists_scan hlen
    have hcall := httpDechunk_eq hlen hscan
    have hresult := hscan.result hlen
    have hcomplete : ∀ m data, Chunks input m data → n = m ∧ body = data.flatten :=
      fun m data hchunks => hscan.unique hchunks.scan
    by_cases hn : n ≤ 0
    · rw [if_pos hn] at hcall
      refine ⟨n, .null, input, hcall, fun m data hchunks => ?_, ?_, fun _ => rfl⟩
      · have hpos := hchunks.pos
        obtain ⟨rfl, -⟩ := hcomplete m data hchunks
        omega
      · rcases hresult with hzero | hminus | ⟨hpos, -, -⟩
        · exact .inl hzero
        · exact .inr (.inl hminus)
        · omega
    · rw [if_neg hn] at hcall
      refine ⟨n, _, _, hcall, fun m data hchunks => ?_, .inr (.inr ?_), fun h => by omega⟩
      · obtain ⟨rfl, rfl⟩ := hcomplete m data hchunks
        have hbody : data.flatten.length < m ∧ m ≤ input.length := by omega
        have hfront : (write input 0 data.flatten).take (0 + data.flatten.length) =
            input.take 0 ++ data.flatten := take_write (Nat.zero_le _)
        rw [Nat.zero_add, List.take_zero, List.nil_append] at hfront
        exact ⟨rfl, rfl, hfront, drop_write (Nat.zero_le _) (by omega), length_write (by omega)⟩
      · obtain ⟨data, hchunks, -⟩ := Chunks.of_scan hscan (by omega)
        exact ⟨data, hchunks⟩
  · rintro d ⟨m, data, hchunks⟩ hleads
    have hstart : Moving input ⟨input, 0, .null, .null⟩ :=
      ⟨rfl, Nat.zero_le _, Nat.le_refl _, m, data, hchunks⟩
    exact (hstart.of_leads hlen hleads).inside hlen
  · intro b x hlf
    obtain ⟨n, k, -, hsize⟩ := httpChunkSize_spec hlf
    have hself := hsize []
    rw [List.append_nil] at hself
    rw [hsize x, hself]

def helloChunks : Bytes := str "5\r\nhello\r\n0\r\n\r\nGET"

theorem httpDechunk_inPlace_hello : ∃ dechunked rest,
    httpDechunk helloChunks = .ok (15, dechunked, rest) ∧ dechunked.base = 0 ∧
      dechunked.bytes rest = str "hello" ∧ rest.drop 15 = str "GET" := by
  have hfirst : httpChunk helloChunks = .ok (10, ⟨3, 5⟩) := by decide +kernel
  have hlast : httpChunk (helloChunks.drop (10 : ℤ).toNat) = .ok (5, ⟨3, 0⟩) := by
    decide +kernel
  have hchunks : Chunks helloChunks 15 [str "hello"] :=
    .more hfirst (by decide) (by decide) (.last hlast (by decide) rfl)
  obtain ⟨⟨n, dechunked, rest, hcall, hcomplete, -⟩, -⟩ :=
    httpDechunk_inPlace (show helloChunks.length < 2 ^ 63 by decide)
  obtain ⟨rfl, hbase, hbytes, hdrop, -⟩ := hcomplete 15 _ hchunks
  exact ⟨dechunked, rest, hcall, hbase, hbytes, hdrop⟩

end LibReactor
