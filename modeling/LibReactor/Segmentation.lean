import LibReactor.ReadRequest

/-!
# Segmentation of the input

The requests a session reads do not depend on how the peer's bytes are split into
receive completions. The header parser is assumed to be final about errors and
complete headers; the chunk scanner and the length check are then final too, so the
requests are the frames of the whole input.
-/

namespace LibReactor

open Framing

def Parsed.slices (p : Parsed) : List Data :=
  p.method :: p.target :: p.fields.flatMap (fun f => [f.name, f.value])

/-- What is assumed of `phr_parse_request`: errors and complete headers are final, the header
lies in the input and its parts lie in the header, and the value of a named field does not
begin with white space but is followed by white space. -/
structure PrefixStable (phr : Parser) : Prop where
  error : ∀ b x, (phr b).ret = -1 → (phr (b ++ x)).ret = -1
  complete : ∀ b x, 0 < (phr b).ret → phr (b ++ x) = phr b
  length : ∀ b, (phr b).ret ≤ b.length
  slices : ∀ b, 0 < (phr b).ret → ∀ d ∈ (phr b).slices, ((d.base + d.size : ℕ) : ℤ) ≤ (phr b).ret
  value : ∀ b, 0 < (phr b).ret → ∀ f ∈ (phr b).fields, f.name.size ≠ 0 → f.value.size ≠ 0 →
    ∃ a u c t, b.drop f.value.base = a :: u ++ c :: t ∧ isspace a = false ∧ isspace c = true

/-! ## Parts of a longer input -/

theorem Data.bytes_append {d : Data} {b : Bytes} (h : d.base + d.size ≤ b.length) (x : Bytes) :
    d.bytes (b ++ x) = d.bytes b := by
  unfold Data.bytes
  rw [List.drop_append_of_le_length (by omega), List.take_append_of_le_length]
  rw [List.length_drop]
  omega

theorem Data.equal_append {d : Data} {b : Bytes} (h : d.base + d.size ≤ b.length) (x l : Bytes) :
    d.equal (b ++ x) l = d.equal b l := by
  unfold Data.equal
  rw [Data.bytes_append h]

theorem Data.equalCase_append {d : Data} {b : Bytes} (h : d.base + d.size ≤ b.length)
    (x l : Bytes) : d.equalCase (b ++ x) l = d.equalCase b l := by
  unfold Data.equalCase
  rw [Data.bytes_append h]

theorem httpFieldLookup_append {fields : List HttpField} {b : Bytes}
    (h : ∀ f ∈ fields, f.name.base + f.name.size ≤ b.length) (x name : Bytes) :
    httpFieldLookup (b ++ x) fields name = httpFieldLookup b fields name := by
  induction fields with
  | nil => rfl
  | cons f fields ih =>
    have hf := Data.equalCase_append (h f (by simp)) x name
    have hrest := ih (fun g hg => h g (by simp [hg]))
    unfold httpFieldLookup at hrest ⊢
    simp only [List.find?_cons, hf]
    cases f.name.equalCase b name with
    | true => rfl
    | false => exact hrest

/-- A field that is found is one of the fields, and it has a name if the name looked for is not
empty. -/
theorem httpFieldLookup_mem {input name : Bytes} {fields : List HttpField} (hname : name ≠ [])
    (h : (httpFieldLookup input fields name).size ≠ 0) :
    ∃ f ∈ fields, f.name.size ≠ 0 ∧ f.value = httpFieldLookup input fields name := by
  unfold httpFieldLookup at h ⊢
  cases hfind : fields.find? (fun f => f.name.equalCase input name) with
  | none => simp [hfind, Data.null] at h
  | some f =>
    have hsize : f.name.size = name.length := by
      have := List.find?_some hfind
      simp only [Data.equalCase, Bool.and_eq_true, beq_iff_eq] at this
      exact this.1
    exact ⟨f, List.mem_of_find?_eq_some hfind, by
      rw [hsize]
      exact fun h0 => hname (List.length_eq_zero_iff.mp h0), rfl⟩

theorem Request.contents_append {q : Request} {b : Bytes}
    (hmethod : q.method.base + q.method.size ≤ b.length)
    (htarget : q.target.base + q.target.size ≤ b.length)
    (hbody : ∀ d, q.body = some d → d.base + d.size ≤ b.length)
    (hfields : ∀ f ∈ q.fields, f.name.base + f.name.size ≤ b.length ∧
      f.value.base + f.value.size ≤ b.length) (x : Bytes) :
    q.contents (b ++ x) = q.contents b := by
  have hmap : q.body.map (fun d => d.bytes (b ++ x)) = q.body.map (fun d => d.bytes b) := by
    cases h : q.body with
    | none => rfl
    | some d => simp [Data.bytes_append (hbody d h)]
  have hlist : q.fields.map (fun f => (f.name.bytes (b ++ x), f.value.bytes (b ++ x))) =
      q.fields.map (fun f => (f.name.bytes b, f.value.bytes b)) := by
    refine List.map_congr_left fun f hf => ?_
    rw [Data.bytes_append (hfields f hf).1, Data.bytes_append (hfields f hf).2]
  unfold Request.contents
  rw [Data.bytes_append hmethod, Data.bytes_append htarget, hmap, hlist]

section Header

variable {phr : Parser} (hphr : PrefixStable phr) {b : Bytes} (hpos : 0 < (phr b).ret)
include hphr hpos

theorem PrefixStable.field_le {f : HttpField} (hf : f ∈ (phr b).fields) :
    f.name.base + f.name.size ≤ (phr b).ret.toNat ∧
      f.value.base + f.value.size ≤ (phr b).ret.toNat := by
  have hname : f.name ∈ (phr b).slices := by
    simp only [Parsed.slices, List.mem_cons, List.mem_flatMap]
    exact .inr (.inr ⟨f, hf, by simp⟩)
  have hvalue : f.value ∈ (phr b).slices := by
    simp only [Parsed.slices, List.mem_cons, List.mem_flatMap]
    exact .inr (.inr ⟨f, hf, by simp⟩)
  have := hphr.slices b hpos _ hname
  have := hphr.slices b hpos _ hvalue
  omega

theorem PrefixStable.line_le : (phr b).method.base + (phr b).method.size ≤ (phr b).ret.toNat ∧
    (phr b).target.base + (phr b).target.size ≤ (phr b).ret.toNat := by
  have := hphr.slices b hpos (phr b).method (by simp [Parsed.slices])
  have := hphr.slices b hpos (phr b).target (by simp [Parsed.slices])
  omega

theorem PrefixStable.isGet_append (x : Bytes) : (phr b).isGet (b ++ x) = (phr b).isGet b := by
  have := hphr.line_le hpos
  have := hphr.length b
  exact Data.equal_append (by omega) x _

theorem PrefixStable.lookup_append (x name : Bytes) :
    httpFieldLookup (b ++ x) (phr b).fields name = httpFieldLookup b (phr b).fields name := by
  refine httpFieldLookup_append (fun f hf => ?_) x name
  have := hphr.field_le hpos hf
  have := hphr.length b
  omega

theorem PrefixStable.encoding_append (x : Bytes) :
    (phr b).encoding (b ++ x) = (phr b).encoding b := hphr.lookup_append hpos x _

theorem PrefixStable.length_append (x : Bytes) :
    (phr b).length (b ++ x) = (phr b).length b := hphr.lookup_append hpos x _

theorem PrefixStable.lookup_le {name : Bytes} (hname : name ≠ [])
    (h : (httpFieldLookup b (phr b).fields name).size ≠ 0) :
    (httpFieldLookup b (phr b).fields name).base + (httpFieldLookup b (phr b).fields name).size ≤
      (phr b).ret.toNat := by
  obtain ⟨f, hf, -, hvalue⟩ := httpFieldLookup_mem hname h
  rw [← hvalue]
  exact (hphr.field_le hpos hf).2

/-- The number in the Content-Length field ends inside the header. -/
theorem PrefixStable.contentLength_append (h : ((phr b).length b).size ≠ 0) (x : Bytes) :
    (phr b).contentLength (b ++ x) = (phr b).contentLength b := by
  obtain ⟨f, hf, hname, hvalue⟩ := httpFieldLookup_mem (by decide) h
  have hsize : f.value.size ≠ 0 := by rwa [hvalue]
  obtain ⟨a, u, c, t, hdrop, ha, hc⟩ := hphr.value b hpos f hf hname hsize
  obtain ⟨hdigit, hx, hX⟩ := not_digit_of_isspace hc
  have := hphr.field_le hpos hf
  have := hphr.length b
  unfold Parsed.contentLength
  rw [hphr.length_append hpos, Parsed.length, ← hvalue, List.drop_append_of_le_length (by omega),
    hdrop, List.append_assoc]
  exact strtoul_stop ha (by omega) hx hX u (t ++ x) t

end Header

/-! ## Frames of a longer input -/

section Next

variable {phr : Parser} (hphr : PrefixStable phr) {b : Bytes}
include hphr

theorem PrefixStable.contents_append (hpos : 0 < (phr b).ret) (body : Option Data)
    (hbody : ∀ d, body = some d → d.base + d.size ≤ b.length) (x : Bytes) :
    ((phr b).request body).contents (b ++ x) = ((phr b).request body).contents b := by
  have hlen := hphr.length b
  have hline := hphr.line_le hpos
  refine Request.contents_append ?_ ?_ hbody (fun f hf => ?_) x
  · exact hline.1.trans (by omega)
  · exact hline.2.trans (by omega)
  · have := hphr.field_le hpos hf
    omega

theorem PrefixStable.lengthFrame_append (hpos : 0 < (phr b).ret)
    (hlength : ((phr b).length b).size ≠ 0) (hvalue : (phr b).contentLength b < 2 ^ 62) {x : Bytes}
    (hlen : (b ++ x).length < 2 ^ 63)
    (h : lengthFrame (phr b) b (phr b).ret.toNat ≠ .incomplete) :
    lengthFrame (phr b) (b ++ x) (phr b).ret.toNat = lengthFrame (phr b) b (phr b).ret.toNat := by
  have hret := hphr.length b
  rw [List.length_append] at hlen
  unfold lengthFrame at h ⊢
  rw [hphr.encoding_append hpos, hphr.contentLength_append hpos hlength]
  by_cases hencoding : ((phr b).encoding b).size ≠ 0
  · rw [if_pos hencoding, if_pos hencoding]
  rw [if_neg hencoding] at h ⊢
  rw [if_neg hencoding]
  by_cases hshort : b.length < ((phr b).ret.toNat + (phr b).contentLength b) % 2 ^ 64
  · exact absurd (if_pos hshort) h
  rw [if_neg hshort, if_neg (by rw [List.length_append]; omega), hphr.contents_append hpos]
  intro d hd
  cases hd
  simp only
  omega

theorem PrefixStable.chunkedFrame_append (hpos : 0 < (phr b).ret)
    (hencoding : ((phr b).encoding b).size ≠ 0) {x : Bytes} (hlen : (b ++ x).length < 2 ^ 63)
    (h : chunkedFrame (phr b) b (phr b).ret.toNat ≠ .incomplete) :
    chunkedFrame (phr b) (b ++ x) (phr b).ret.toNat = chunkedFrame (phr b) b (phr b).ret.toNat := by
  have hret := hphr.length b
  have hle := hphr.lookup_le hpos (by decide) hencoding
  have hlen₀ : b.length < 2 ^ 63 := by
    rw [List.length_append] at hlen
    omega
  have hdrop : (b ++ x).drop (phr b).ret.toNat = b.drop (phr b).ret.toNat ++ x :=
    List.drop_append_of_le_length (by omega)
  have hheader : (b.drop (phr b).ret.toNat).length < 2 ^ 63 := by
    rw [List.length_drop]
    omega
  obtain ⟨k, body, hscan⟩ := Scan.exists_scan hheader
  have hcase : ((phr b).encoding (b ++ x)).equalCase (b ++ x) (str "Chunked") =
      ((phr b).encoding b).equalCase b (str "Chunked") := by
    rw [hphr.encoding_append hpos]
    exact Data.equalCase_append (hle.trans (by omega)) x _
  have hshort := chunkedFrame_eq (p := phr b) hlen₀ hscan
  rw [hshort] at h ⊢
  by_cases hchunked : ((phr b).encoding b).equalCase b (str "Chunked") = true
  · have hk : k ≠ 0 := by
      rintro rfl
      simp [hchunked] at h
    have hscan' : Scan ((b ++ x).drop (phr b).ret.toNat) k body := by
      rw [hdrop]
      exact hscan.append hk (by rw [← hdrop, List.length_drop]; omega)
    have hbody := hscan.result hheader
    rw [List.length_drop] at hbody
    rw [chunkedFrame_eq hlen hscan', hcase]
    by_cases hneg : k < 0
    · simp only [hneg, if_true]
    · have hcontents : ((phr b).request (some ⟨(phr b).ret.toNat, body.length⟩)).contents
          (write (b ++ x) (phr b).ret.toNat body) =
          ((phr b).request (some ⟨(phr b).ret.toNat, body.length⟩)).contents
            (write b (phr b).ret.toNat body) := by
        have hwrite : (write b (phr b).ret.toNat body).length = b.length :=
          length_write (by omega)
        have hline := hphr.line_le hpos
        rw [write_append (by omega)]
        refine Request.contents_append ?_ ?_ (fun d hd => ?_) (fun f hf => ?_) x
        · exact hline.1.trans (by omega)
        · exact hline.2.trans (by omega)
        · cases hd
          simp only
          omega
        · have := hphr.field_le hpos hf
          omega
      rw [hcontents]
  · unfold chunkedFrame
    rw [hcase, if_pos hchunked, if_pos hchunked]

/-- What is decided about the request at the start of an input is final. -/
theorem PrefixStable.httpNext_append
    (hvalue : 0 < (phr b).ret → ((phr b).length b).size ≠ 0 → (phr b).contentLength b < 2 ^ 62)
    {x : Bytes} (hlen : (b ++ x).length < 2 ^ 63) (h : httpNext phr b ≠ .incomplete) :
    httpNext phr (b ++ x) = httpNext phr b := by
  have hb : b ≠ [] := by
    rintro rfl
    exact h (httpNext_nil phr)
  have hbx : b ++ x ≠ [] := by simp [hb]
  by_cases hret : (phr b).ret ≤ 0
  · have herror : (phr b).ret = -1 := by
      by_contra hne
      rw [httpNext_header hb hret, if_neg hne] at h
      exact h rfl
    have herror' := hphr.error b x herror
    rw [httpNext_header hb hret, httpNext_header hbx (by omega), if_pos herror, if_pos herror']
  have hpos : 0 < (phr b).ret := by omega
  have hle := hphr.length b
  have hparsed := hphr.complete b x hpos
  simp only [httpNext, if_neg hb, if_neg hbx, hparsed, if_neg hret, hphr.isGet_append hpos,
    hphr.length_append hpos, hphr.encoding_append hpos] at h ⊢
  have hcontents := hphr.contents_append hpos none (by simp) x
  by_cases hget : (phr b).isGet b = true
  · simp only [if_pos hget, hcontents]
  simp only [if_neg hget] at h ⊢
  by_cases hlength : ((phr b).length b).size ≠ 0
  · simp only [if_pos hlength] at h ⊢
    exact hphr.lengthFrame_append hpos hlength (hvalue hpos hlength) hlen h
  simp only [if_neg hlength] at h ⊢
  by_cases hencoding : ((phr b).encoding b).size ≠ 0
  · simp only [if_pos hencoding] at h ⊢
    exact hphr.chunkedFrame_append hpos hencoding hlen h
  · simp only [if_neg hencoding, hcontents]

end Next

/-! ## The run over receive completions -/

/-- One call of `http_read_request` in the loop of a session; the requests are collected. -/
def readTurn (phr : Parser) : Stream × Request × List Contents →
    Except Fault ((ℤ × Stream × Request × List Contents) ⊕ (Stream × Request × List Contents))
  | (s, q, out) => do
    let (ret, q, s') ← httpReadRequest phr s q
    if ret = 1 then
      return .inr (s', q, out ++ [q.contents (s'.input.data.drop s.inputConsumed)])
    return .inl (ret, s', q, out)

/-- The calls after one receive completion, up to one that does not return 1. -/
def readAll (phr : Parser) (s : Stream) (q : Request) :
    Except Fault (ℤ × Stream × Request × List Contents) :=
  Loop.within .hang (readTurn phr) (s.unread.length + 1) (s, q, [])

/-- The requests of successive receive completions, with the next read armed after each. -/
def receive (phr : Parser) : Stream → Request → List Bytes →
    Except Fault (List Contents × Verdict UInt8)
  | s, _, [] => return ([], .waiting s.unread)
  | s, q, received :: rest => do
    let (ret, s, q, out) ← readAll phr (s.recvBegin received) q
    if ret = -1 then
      return (out, .error)
    let (out', verdict) ← receive phr s.inputPrepare q rest
    return (out ++ out', verdict)

/-- The requests of successive completions whose calls find bytes of their own behind the input,
so that the header parser differs from one completion to the next. -/
def receiveEach : Stream → Request → List (Parser × Bytes) →
    Except Fault (List Contents × Verdict UInt8)
  | s, _, [] => return ([], .waiting s.unread)
  | s, q, (phr, received) :: rest => do
    let (ret, s, q, out) ← readAll phr (s.recvBegin received) q
    if ret = -1 then
      return (out, .error)
    let (out', verdict) ← receiveEach s.inputPrepare q rest
    return (out ++ out', verdict)

theorem receive_eq_each (phr : Parser) (s : Stream) (q : Request) (rs : List Bytes) :
    receive phr s q rs = receiveEach s q (rs.map (Prod.mk phr)) := by
  induction rs generalizing s q with
  | nil => rfl
  | cons r rs ih =>
    simp only [receive, List.map_cons, receiveEach, ih]

/-- `phr'` finds in `b` what `phr` finds, or rejects a part of a request that `phr` waits with. -/
structure Follows (phr phr' : Parser) (b : Bytes) : Prop where
  length : (phr' b).ret ≤ b.length
  next : httpNext phr' b = httpNext phr b ∨
    httpNext phr' b = .error ∧ httpNext phr b = .incomplete

theorem Follows.complete {phr phr' : Parser} {b : Bytes} (h : Follows phr phr' b) {n : ℕ}
    {c : Contents} (hnext : httpNext phr' b = .complete n c) : httpNext phr b = .complete n c := by
  rcases h.next with hsame | ⟨herror, -⟩
  · exact hsame.symm.trans hnext
  · cases herror.symm.trans hnext

theorem Follows.incomplete {phr phr' : Parser} {b : Bytes} (h : Follows phr phr' b)
    (hnext : httpNext phr' b = .incomplete) : httpNext phr b = .incomplete :=
  h.next.elim (fun hsame => hsame.symm.trans hnext) And.right

theorem Follows.refl {phr : Parser} (hphr : PrefixStable phr) (b : Bytes) : Follows phr phr b :=
  ⟨hphr.length b, .inl rfl⟩

section Receive

variable {phr : Parser} (hphr : PrefixStable phr) {w : Bytes} (hw : w.length < 2 ^ 63)
  (hvalue : ∀ b, Reached (httpNext phr) w b → 0 < (phr b).ret → ((phr b).length b).size ≠ 0 →
    (phr b).contentLength b < 2 ^ 62)
include hphr hw hvalue

omit hw in
theorem within_contentLength {b : Bytes} (hb : Within (httpNext phr) w b) (hpos : 0 < (phr b).ret)
    (hlength : ((phr b).length b).size ≠ 0) : (phr b).contentLength b < 2 ^ 62 := by
  obtain ⟨x, hx⟩ := hb
  have hparsed := hphr.complete b x hpos
  have := hvalue (b ++ x) hx
  rw [hparsed, hphr.length_append hpos, hphr.contentLength_append hpos hlength] at this
  exact this hpos hlength

theorem within_append {b x : Bytes} (hb : Within (httpNext phr) w (b ++ x))
    (h : httpNext phr b ≠ .incomplete) : httpNext phr (b ++ x) = httpNext phr b := by
  have hlen := hb.length_le
  have hprefix : Within (httpNext phr) w b := by
    obtain ⟨y, hy⟩ := hb
    exact ⟨x ++ y, by rwa [← List.append_assoc]⟩
  exact hphr.httpNext_append (within_contentLength hphr hvalue hprefix) (by omega) h

/-- The requests are final on all prefixes of what remains of `w` after some requests. -/
theorem stable_httpNext : Stable (httpNext phr) (Within (httpNext phr) w) where
  take := by
    rintro b x ⟨y, hy⟩
    exact ⟨x ++ y, by rwa [← List.append_assoc]⟩
  drop := by
    rintro b n c hb hnext
    have hle := (httpNext_bounds (by have := hb.length_le; omega) (hphr.length b)
      (within_contentLength hphr hvalue hb) hnext).2
    obtain ⟨y, hy⟩ := hb
    have hlong := within_append hphr hw hvalue (b := b) (x := y) ⟨[], by simpa using hy⟩
      (by rw [hnext]; simp)
    refine ⟨y, ?_⟩
    rw [← List.drop_append_of_le_length hle]
    exact hy.next (hlong.trans hnext)
  bounds := by
    intro b n c hb hnext
    exact httpNext_bounds (by have := hb.length_le; omega) (hphr.length b)
      (within_contentLength hphr hvalue hb) hnext
  complete := by
    intro b x n c hb hnext
    rw [within_append hphr hw hvalue hb (by rw [hnext]; simp), hnext]
  error := by
    intro b x hb hnext
    rw [within_append hphr hw hvalue hb (by rw [hnext]; simp), hnext]

section Each

variable {phr' : Parser} (hfollows : ∀ b, Within (httpNext phr) w b → Follows phr phr' b)
include hfollows

/-- The loop of a session finds the frames of its unread input. -/
theorem run_readTurn {b : Bytes} {cs : List Contents} {v : Verdict UInt8}
    (h : Frames (httpNext phr) b cs v) (hb : Within (httpNext phr) w b) {s : Stream}
    (hs : s.unread = b) (hconsumed : s.inputConsumed ≤ s.input.data.length) (q : Request)
    (out : List Contents) (fuel : ℕ) (hfuel : b.length < fuel) :
    ∃ ret q' s', Loop.run (readTurn phr') fuel (s, q, out) = some (.ok (ret, s', q', out ++ cs)) ∧
      s'.inputConsumed ≤ s'.input.data.length ∧
      ((ret = -1 ∧ v = .error) ∨ (ret = 0 ∧ v = .waiting s'.unread) ∨
        ret = -1 ∧ ∃ b', v = .waiting b' ∧ httpNext phr' b' = .error) := by
  have hlen : ∀ {b}, Within (httpNext phr) w b → b.length < 2 ^ 63 := fun h => by
    have := h.length_le
    omega
  induction h generalizing s q out fuel with
  | @incomplete b hnext =>
    obtain ⟨fuel, rfl⟩ : ∃ m, fuel = m + 1 := ⟨fuel - 1, by omega⟩
    subst hs
    obtain ⟨hle, hsame⟩ := hfollows _ hb
    rw [hnext] at hsame
    rcases httpReadRequest_next hconsumed (hlen hb) hle q with
      ⟨-, q', hcall⟩ | ⟨herror, q', hcall⟩ | ⟨n, c, q', s', hcomplete, -⟩
    · refine ⟨0, q', s, ?_, hconsumed, .inr (.inl ⟨rfl, rfl⟩)⟩
      exact Loop.run_succ_done _ (by simp [readTurn, hcall]) fuel
    · refine ⟨-1, q', s, ?_, hconsumed, .inr (.inr ⟨rfl, _, rfl, herror⟩)⟩
      exact Loop.run_succ_done _ (by simp [readTurn, hcall]) fuel
    · rcases hsame with hsame | ⟨herror, -⟩
      · cases hcomplete.symm.trans hsame
      · cases hcomplete.symm.trans herror
  | @error b hnext =>
    obtain ⟨fuel, rfl⟩ : ∃ m, fuel = m + 1 := ⟨fuel - 1, by omega⟩
    subst hs
    obtain ⟨hle, hsame⟩ := hfollows _ hb
    have herror : httpNext phr' s.unread = .error :=
      hsame.elim (fun hsame => hsame.trans hnext) And.left
    rcases httpReadRequest_next hconsumed (hlen hb) hle q with
      ⟨h, -⟩ | ⟨-, q', hcall⟩ | ⟨n, c, q', s', h, -⟩
    · cases h.symm.trans herror
    · refine ⟨-1, q', s, ?_, hconsumed, .inl ⟨rfl, rfl⟩⟩
      exact Loop.run_succ_done _ (by simp [readTurn, hcall]) fuel
    · cases h.symm.trans herror
  | @complete b n c cs v hnext _ ih =>
    obtain ⟨fuel, rfl⟩ : ∃ m, fuel = m + 1 := ⟨fuel - 1, by omega⟩
    have hbounds := (stable_httpNext hphr hw hvalue).bounds b n c hb hnext
    subst hs
    obtain ⟨hle, hsame⟩ := hfollows _ hb
    have hcomplete : httpNext phr' s.unread = .complete n c := by
      rcases hsame with hsame | ⟨-, hnone⟩
      · exact hsame.trans hnext
      · cases hnone.symm.trans hnext
    rcases httpReadRequest_next hconsumed (hlen hb) hle q with
      ⟨h, -⟩ | ⟨h, -⟩ | ⟨n', c', q', s', h, hcall, hread⟩
    · cases h.symm.trans hcomplete
    · cases h.symm.trans hcomplete
    · obtain ⟨rfl, rfl⟩ := Frame.complete.inj (hcomplete.symm.trans h)
      have hunread : s.unread.length = s.input.data.length - s.inputConsumed := List.length_drop
      have hturn : readTurn phr' (s, q, out) = .ok (.inr (s', q', out ++ [c])) := by
        simp only [readTurn, hcall, ok_bind, if_true, pure_eq_ok, hread.contents]
      obtain ⟨ret, q'', s'', hrun, hend⟩ := ih
        ((stable_httpNext hphr hw hvalue).drop _ _ _ hb hnext) (s := s') hread.unread
        (by rw [hread.consumed, hread.size]; omega) q' (out ++ [c]) fuel
        (by rw [List.length_drop]; omega)
      refine ⟨ret, q'', s'', ?_, hend⟩
      rw [Loop.run_succ_next _ hturn, hrun, List.append_assoc]
      rfl

theorem readAll_frames {cs : List Contents} {v : Verdict UInt8} {s : Stream}
    (h : Frames (httpNext phr) s.unread cs v) (hb : Within (httpNext phr) w s.unread)
    (hconsumed : s.inputConsumed ≤ s.input.data.length) (q : Request) :
    ∃ ret q' s', readAll phr' s q = .ok (ret, s', q', cs) ∧
      s'.inputConsumed ≤ s'.input.data.length ∧
      ((ret = -1 ∧ v = .error) ∨ (ret = 0 ∧ v = .waiting s'.unread) ∨
        ret = -1 ∧ ∃ b', v = .waiting b' ∧ httpNext phr' b' = .error) := by
  obtain ⟨ret, q', s', hrun, hend⟩ := run_readTurn hphr hw hvalue hfollows h hb rfl hconsumed q []
    _ (Nat.lt_succ_self _)
  refine ⟨ret, q', s', ?_, hend⟩
  rw [readAll, Loop.within, hrun]
  rfl

end Each

/-- The run over completions finds the requests of the run over pieces, up to a completion whose
parser rejects what that run waits with. -/
theorem receiveEach_eq {b : Bytes} {rs : List (Parser × Bytes)} {cs : List Contents}
    {v : Verdict UInt8} (h : Feed (httpNext phr) b (rs.map Prod.snd) cs v)
    (hb : Within (httpNext phr) w (b ++ (rs.map Prod.snd).flatten))
    (hfollows : ∀ r ∈ rs, ∀ b, Within (httpNext phr) w b → Follows phr r.1 b)
    {s : Stream} (hs : s.unread = b) (hconsumed : s.inputConsumed ≤ s.input.data.length)
    (q : Request) : receiveEach s q rs = .ok (cs, v) ∨
      ∃ rs₁ r rs₂ cs' b', rs = rs₁ ++ r :: rs₂ ∧
        Feed (httpNext phr) b ((rs₁ ++ [r]).map Prod.snd) cs' (.waiting b') ∧
          httpNext r.1 b' = .error ∧ receiveEach s q rs = .ok (cs', .error) := by
  have hrecv : ∀ {s : Stream} {r : Bytes}, s.inputConsumed ≤ s.input.data.length →
      (s.recvBegin r).inputConsumed ≤ (s.recvBegin r).input.data.length := by
    intro s r hle
    rw [Stream.data_recvBegin, List.length_append]
    exact hle.trans (Nat.le_add_right _ _)
  have hstable := stable_httpNext hphr hw hvalue
  induction rs generalizing b cs v s q with
  | nil =>
    cases h
    left
    rw [receiveEach, hs]
    rfl
  | cons r rs ih =>
    obtain ⟨phr', r⟩ := r
    have hphr' := hfollows _ List.mem_cons_self
    rw [List.map_cons, List.flatten_cons, ← List.append_assoc] at hb
    have hbegin : Within (httpNext phr) w (s.recvBegin r).unread := by
      rw [Stream.unread_recvBegin s r hconsumed, hs]
      exact hstable.take _ _ hb
    cases h with
    | error hframes =>
      rw [← hs, ← Stream.unread_recvBegin s r hconsumed] at hframes
      obtain ⟨ret, q', s', hall, -, hend⟩ :=
        readAll_frames hphr hw hvalue hphr' hframes hbegin (hrecv hconsumed) q
      obtain rfl : ret = -1 := by
        rcases hend with ⟨hret, -⟩ | ⟨-, hv⟩ | ⟨hret, -⟩
        · exact hret
        · cases hv
        · exact hret
      left
      simp only [receiveEach, hall, ok_bind, if_true, pure_eq_ok]
    | @waiting _ _ _ cs b' cs' _ hframes hfeed =>
      have hframes' := hframes
      rw [← hs, ← Stream.unread_recvBegin s r hconsumed] at hframes'
      obtain ⟨ret, q', s', hall, -, hend⟩ :=
        readAll_frames hphr hw hvalue hphr' hframes' hbegin (hrecv hconsumed) q
      rcases hend with ⟨-, hv⟩ | ⟨rfl, hv⟩ | ⟨rfl, b'', hv, herror⟩
      · cases hv
      · obtain rfl := Verdict.waiting.inj hv
        rcases ih hfeed (hstable.frames_rest hb hframes)
          (fun r hr => hfollows r (List.mem_cons_of_mem _ hr)) s'.unread_inputPrepare
          (by rw [Stream.inputConsumed_inputPrepare]; exact Nat.zero_le _) q' with
          hrest | ⟨rs₁, r', rs₂, cs'', b'', rfl, hfeed', herror, hrest⟩
        · left
          simp only [receiveEach, hall, ok_bind, hrest, pure_eq_ok]
          rfl
        · right
          refine ⟨(phr', r) :: rs₁, r', rs₂, cs ++ cs'', b'', rfl, .waiting hframes hfeed', herror,
            ?_⟩
          simp only [receiveEach, hall, ok_bind, hrest, pure_eq_ok]
          rfl
      · obtain rfl := Verdict.waiting.inj hv
        right
        refine ⟨[], (phr', r), rs, cs, b', rfl, ?_, herror, ?_⟩
        · simpa using Feed.waiting hframes .nil
        · simp only [receiveEach, hall, ok_bind, if_true, pure_eq_ok]

theorem receive_eq {rs : List Bytes} {cs : List Contents} {v : Verdict UInt8}
    (h : Feed (httpNext phr) [] rs cs v) (hb : Within (httpNext phr) w rs.flatten)
    {s : Stream} (hs : s.unread = []) (hconsumed : s.inputConsumed ≤ s.input.data.length)
    (q : Request) : receive phr s q rs = .ok (cs, v) := by
  have hpieces : (rs.map (Prod.mk phr)).map Prod.snd = rs := by
    rw [List.map_map]
    exact List.map_id rs
  have hfollows : ∀ r ∈ rs.map (Prod.mk phr), ∀ b, Within (httpNext phr) w b →
      Follows phr r.1 b := by
    intro r hr b _
    obtain ⟨_, -, rfl⟩ := List.mem_map.mp hr
    exact .refl hphr b
  rw [receive_eq_each]
  rw [← hpieces] at h hb
  rcases receiveEach_eq hphr hw hvalue h hb hfollows hs hconsumed q with
    hrun | ⟨rs₁, r, rs₂, cs', b', hsplit, hfeed, herror, -⟩
  · exact hrun
  · have hr : r ∈ rs.map (Prod.mk phr) := hsplit ▸ List.mem_append_right _ List.mem_cons_self
    obtain ⟨_, -, rfl⟩ := List.mem_map.mp hr
    cases (hfeed.next_eq_incomplete (httpNext_nil phr)).symm.trans herror

end Receive

/-- The requests and the verdict of a session do not depend on how its input is split into
completions, and a call that finds no request leaves the stream as it was. -/
theorem receive_split {phr : Parser} (hphr : PrefixStable phr) {w : Bytes}
    (hw : w.length < 2 ^ 63)
    (hvalue : ∀ b, Reached (httpNext phr) w b → 0 < (phr b).ret →
      ((phr b).length b).size ≠ 0 → (phr b).contentLength b < 2 ^ 62)
    {s : Stream} (hs : s.input.data = []) (hconsumed : s.inputConsumed = 0) (q : Request) :
    (∃ cs v, ∀ rs : List Bytes, rs.flatten = w → receive phr s q rs = .ok (cs, v)) ∧
    ∀ (t : Stream) (q : Request), t.inputConsumed ≤ t.input.data.length →
      t.unread.length < 2 ^ 63 → ∃ ret q' t', httpReadRequest phr t q = .ok (ret, q', t') ∧
        (ret = 1 ∨ ((ret = 0 ∨ ret = -1) ∧ t' = t)) := by
  have hunread : s.unread = [] := by simp [Stream.unread, hs]
  have hstable := stable_httpNext hphr hw hvalue
  obtain ⟨cs, v, hframes⟩ := hstable.exists_frames (Within.self w)
  refine ⟨⟨cs, v, fun rs hrs => ?_⟩, fun t q ht hlen => ?_⟩
  · subst hrs
    have hD : Within (httpNext phr) rs.flatten ([] ++ rs.flatten) := Within.self _
    obtain ⟨cs', v', hfeed⟩ := hstable.exists_feed hD
    obtain ⟨rfl, rfl⟩ := hframes.unique (hstable.frames_of_feed hD (httpNext_nil phr) hfeed)
    exact receive_eq hphr hw hvalue hfeed hD hunread (by rw [hconsumed]; exact Nat.zero_le _) q
  · rcases httpReadRequest_next ht hlen (hphr.length _) q with
      ⟨-, q', hcall⟩ | ⟨-, q', hcall⟩ | ⟨n, c, q', t', -, hcall, -⟩
    · exact ⟨0, q', t, hcall, .inr ⟨.inl rfl, rfl⟩⟩
    · exact ⟨-1, q', t, hcall, .inr ⟨.inr rfl, rfl⟩⟩
    · exact ⟨1, q', t', hcall, .inl rfl⟩

/-! ## A parser of one header -/

def literalParser (header : Bytes) (p : Parsed) : Parser := fun b =>
  if header <+: b then p else ⟨if b <+: header then -2 else -1, .null, .null, []⟩

section Literal

variable {header : Bytes} {p : Parsed}

theorem literalParser_pos {b : Bytes} (h : 0 < (literalParser header p b).ret) :
    literalParser header p b = p ∧ ∃ x, b = header ++ x := by
  unfold literalParser at h ⊢
  split_ifs at h ⊢ with hprefix
  · obtain ⟨x, rfl⟩ := hprefix
    exact ⟨rfl, x, rfl⟩
  · simp at h
  · simp at h

theorem prefixStable_literalParser (hret : p.ret = header.length)
    (hslices : ∀ d ∈ p.slices, d.base + d.size ≤ header.length)
    (hvalue : ∀ f ∈ p.fields, ∃ a u c t, header.drop f.value.base = a :: u ++ c :: t ∧
      isspace a = false ∧ isspace c = true) : PrefixStable (literalParser header p) where
  error := by
    intro b x h
    unfold literalParser at h ⊢
    by_cases hheader : header <+: b
    · rw [if_pos hheader, hret] at h
      omega
    · rw [if_neg hheader] at h
      have hb : ¬ b <+: header := by
        intro hb
        simp [hb] at h
      have hbx : ¬ b ++ x <+: header := fun hbx => hb ((List.prefix_append b x).trans hbx)
      have hheader' : ¬ header <+: b ++ x := fun hle =>
        (List.prefix_or_prefix_of_prefix hle (List.prefix_append b x)).elim hheader hb
      rw [if_neg hheader', if_neg hbx]
  complete := by
    intro b x h
    obtain ⟨hp, y, rfl⟩ := literalParser_pos h
    rw [hp]
    exact if_pos ⟨y ++ x, by rw [List.append_assoc]⟩
  length := by
    intro b
    unfold literalParser
    split_ifs with hheader
    · have := hheader.length_le
      rw [hret]
      omega
    · simp only
      omega
    · simp only
      omega
  slices := by
    intro b h d hd
    rw [(literalParser_pos h).1] at hd ⊢
    have := hslices d hd
    omega
  value := by
    intro b h f hf _ _
    obtain ⟨hp, y, rfl⟩ := literalParser_pos h
    rw [hp] at hf
    obtain ⟨a, u, c, t, hdrop, ha, hc⟩ := hvalue f hf
    refine ⟨a, u, c, t ++ y, ?_, ha, hc⟩
    have hle : f.value.base ≤ header.length := by
      by_contra hlt
      rw [List.drop_eq_nil_of_le (by omega)] at hdrop
      simp at hdrop
    rw [List.drop_append_of_le_length hle, hdrop, List.append_assoc]
    rfl

end Literal

def getHeader : Bytes := str "GET / HTTP/1.0\r\n\r\n"

def getParser : Parser := literalParser getHeader ⟨18, ⟨0, 3⟩, ⟨4, 1⟩, []⟩

theorem prefixStable_getParser : PrefixStable getParser :=
  prefixStable_literalParser (by decide) (by decide) (by
    intro f hf
    cases hf)

def twoByteHeader : Bytes := str "POST / HTTP/1.1\r\nContent-Length: 2\r\n\r\n"

def twoByteParser : Parser :=
  literalParser twoByteHeader ⟨38, ⟨0, 4⟩, ⟨5, 1⟩, [⟨⟨17, 14⟩, ⟨33, 1⟩⟩]⟩

theorem prefixStable_twoByteParser : PrefixStable twoByteParser :=
  prefixStable_literalParser (by decide) (by decide) (by
    intro f hf
    obtain rfl := List.mem_singleton.mp hf
    exact ⟨ch '2', [], cr, [lf, cr, lf], by decide, by decide, by decide⟩)

theorem contentLength_twoByteParser {b : Bytes} (hpos : 0 < (twoByteParser b).ret) :
    (twoByteParser b).contentLength b < 2 ^ 62 := by
  obtain ⟨hp, x, rfl⟩ := literalParser_pos hpos
  have hheader : 0 < (twoByteParser twoByteHeader).ret := by decide
  have happend := prefixStable_twoByteParser.contentLength_append hheader (by decide) x
  rw [prefixStable_twoByteParser.complete _ x hheader, happend]
  decide

theorem receive_split_twoByteParser : ∃ cs v, ∀ rs : List Bytes,
    rs.flatten = twoByteHeader ++ str "hi" →
      receive twoByteParser .construct ⟨.null, .null, none, []⟩ rs = .ok (cs, v) :=
  (receive_split prefixStable_twoByteParser (by decide)
    (fun _ _ hpos _ => contentLength_twoByteParser hpos) rfl rfl ⟨.null, .null, none, []⟩).1

end LibReactor
