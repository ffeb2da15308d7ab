import LibReactor.PicohttpparserEnd
import LibReactor.Segmentation

/-!
# The parser of the server's calls

`http_read_request` calls the request parser with room for 16 fields and with whatever
lies behind the unread input. `headerParser` decides on the input alone, and has the
properties that the results on the server assume: complete headers and errors are final,
and all parts lie in the header. The calls return what it returns for heads below 2^31
bytes, except that they can reject an input that ends in the spaces behind the method.
-/

namespace LibReactor.Phr

open Incremental

/-! ## The parser of the calls -/

def Head.parsed (h : Head) (ret : ℤ) : Parsed := ⟨ret, h.method, h.path, h.headers⟩

def parsed : Result UInt8 Head Stop Unit → Parsed
  | .ok _ t => t.out.parsed t.offset
  | .error .invalid t => t.out.parsed (-1)
  | .error _ t => t.out.parsed (-2)

/-- The parser with a byte behind the input that ends the loops over spaces, and without the
conversion of the length to `int`: what the calls follow. -/
def headerParser (sse : Bool) : Parser := fun input =>
  parsed ((parseRequest sse 16).run [nul].length ⟨0, input ++ [nul], .init⟩)

def NoMethod (input : Bytes) : Prop :=
  ∃ (l : Option LineEnd) (n : ℕ) (w q : Bytes), (∀ b ∈ w, isTargetByte b = true) ∧ w ≠ [] ∧
    input = emptyBytes l ++ ([] ++ (List.replicate (n + 1) space ++ (w ++ space :: q)))

theorem exists_nonspace (q : Bytes) :
    ∃ j c p, q ++ [nul] = List.replicate j space ++ c :: p ∧ c ≠ space := by
  induction q with
  | nil => exact ⟨0, nul, [], rfl, by decide⟩
  | cons a q ih =>
    by_cases ha : a = space
    · obtain ⟨j, c, p, hq, hc⟩ := ih
      refine ⟨j + 1, c, p, ?_, hc⟩
      rw [List.cons_append, hq, ha, List.replicate_succ, List.cons_append]
    · exact ⟨0, a, q ++ [nul], rfl, ha⟩

theorem headerParser_noMethod {input : Bytes} (h : NoMethod input) (sse : Bool) :
    (headerParser sse input).ret = -1 := by
  obtain ⟨l, n, w, q, hw, hne, rfl⟩ := h
  obtain ⟨j, c, p, hq, hc⟩ := exists_nonspace q
  have hrun := parseRequest_path (m := []) (by simp) sse 16 n l hw hne q [nul]
  have hskip := skipSpaces_run hc j p 1 ((emptyBytes l).length + 0 + (n + 1) + w.length)
    (pathOut l [] n w)
  have hassoc : space :: q ++ [nul] = List.replicate (j + 1) space ++ c :: p := by
    rw [List.cons_append, hq, List.replicate_succ, List.cons_append]
  rw [hassoc] at hrun
  have hrun := hrun.trans (Reader.bind_of_ok hskip)
  unfold headerParser
  rw [hrun]
  rfl

/-- The run of the parser on an input alone decides what it returns. -/
theorem headerParser_cases (sse : Bool) (b : Bytes) :
    (∃ u t, (parseRequest sse 16).run 0 ⟨0, b, .init⟩ = .ok u t) ∨
    (∃ t, (parseRequest sse 16).run 0 ⟨0, b, .init⟩ = .error .invalid t) ∨
    ((headerParser sse b).ret = -1 ∧ NoMethod b) ∨ (headerParser sse b).ret = -2 := by
  by_cases hopen : MethodOpen b ∨ PathOpen b
  · rcases hopen with ⟨l, m, n, hm, rfl⟩ | ⟨l, m, n, w, k, hm, hw, hne, rfl⟩
    · obtain ⟨t, ht, -⟩ := methodOpen_short hm sse 16 n l (c := nul) (by decide) []
      refine .inr (.inr (.inr ?_))
      unfold headerParser
      rw [ht]
      rfl
    · obtain ⟨t, ht, -⟩ := pathOpen_short hm sse 16 n l hw hne (c := nul) (by decide) [] k
      by_cases hempty : m = []
      · rw [if_pos hempty] at ht
        subst hempty
        refine .inr (.inr (.inl ⟨?_, l, n, w, List.replicate k space, hw, hne, rfl⟩))
        unfold headerParser
        rw [ht]
        rfl
      · rw [if_neg hempty] at ht
        refine .inr (.inr (.inr ?_))
        unfold headerParser
        rw [ht]
        rfl
  · have hclosed : (parseRequest sse 16).run [nul].length ⟨0, b ++ [nul], .init⟩ =
        Reader.extendResult ((parseRequest sse 16).run 0 ⟨0, b, .init⟩) [nul] :=
      parseRequest_closed hopen [nul]
    cases hrun : (parseRequest sse 16).run 0 ⟨0, b, .init⟩ with
    | ok u t => exact .inl ⟨u, t, rfl⟩
    | error r t =>
      cases r with
      | invalid => exact .inr (.inl ⟨t, rfl⟩)
      | incomplete =>
        refine .inr (.inr (.inr ?_))
        unfold headerParser
        rw [hclosed, hrun]
        rfl
      | fault f => exact absurd (parseRequest_fault_iff.mp ⟨f, t, hrun⟩) hopen

theorem headerParser_head (sse : Bool) (h : RequestHead 16) (rest : Bytes) :
    headerParser sse (h.bytes ++ rest) = h.places.parsed h.bytes.length := by
  have hrun : (parseRequest sse 16).run 0 ⟨0, h.bytes ++ rest, .init⟩ =
      .ok () ⟨h.bytes.length, rest, h.places⟩ :=
    parseRequest_eq_ok.mpr ⟨h, rfl, (Nat.zero_add _).symm, rfl⟩
  exact congrArg parsed ((settles_parseRequest sse 16).ok hrun [] [nul])

/-- A header that is complete is a head at the start of the input. -/
theorem headerParser_pos {sse : Bool} {b : Bytes} (hpos : 0 < (headerParser sse b).ret) :
    ∃ (h : RequestHead 16) (rest : Bytes), b = h.bytes ++ rest ∧
      headerParser sse b = h.places.parsed h.bytes.length := by
  rcases headerParser_cases sse b with ⟨u, t, ht⟩ | ⟨t, ht⟩ | ⟨hret, -⟩ | hret
  · obtain ⟨h, hrest, -, -⟩ := parseRequest_eq_ok.mp ht
    have hrest : b = h.bytes ++ t.rest := hrest
    exact ⟨h, t.rest, hrest, hrest ▸ headerParser_head sse h t.rest⟩
  · have hret : (headerParser sse b).ret = -1 := congrArg (fun r => (parsed r).ret)
      ((settles_parseRequest sse 16).final ht rfl [] [nul])
    omega
  · omega
  · omega

/-- An error is final. -/
theorem headerParser_error {sse : Bool} {b : Bytes} (h : (headerParser sse b).ret = -1)
    (x : Bytes) : (headerParser sse (b ++ x)).ret = -1 := by
  rcases headerParser_cases sse b with ⟨u, t, ht⟩ | ⟨t, ht⟩ | ⟨-, hnone⟩ | hret
  · obtain ⟨g, hrest, -, -⟩ := parseRequest_eq_ok.mp ht
    have hrest : b = g.bytes ++ t.rest := hrest
    rw [hrest, headerParser_head] at h
    have hnot : ((g.bytes.length : ℕ) : ℤ) = -1 := h
    omega
  · have hext := (settles_parseRequest sse 16).final ht rfl x [nul]
    show (parsed ((parseRequest sse 16).run [nul].length ⟨0, b ++ x ++ [nul], .init⟩)).ret = -1
    rw [List.append_assoc]
    exact congrArg (fun r => (parsed r).ret) hext
  · obtain ⟨l, n, w, q, hw, hne, rfl⟩ := hnone
    refine headerParser_noMethod ⟨l, n, w, q ++ x, hw, hne, ?_⟩ sse
    simp only [List.append_assoc, List.cons_append]
  · omega

theorem headerParser_method {m : Bytes} (hm : ∀ b ∈ m, isTargetByte b = true) (sse : Bool) (n : ℕ)
    (l : Option LineEnd) :
    (headerParser sse (emptyBytes l ++ (m ++ List.replicate (n + 1) space))).ret = -2 := by
  obtain ⟨t, ht, -⟩ := methodOpen_short hm sse 16 n l (c := nul) (by decide) []
  exact congrArg (fun r => (parsed r).ret) ht

theorem headerParser_path {m w : Bytes} (hm : ∀ b ∈ m, isTargetByte b = true)
    (hw : ∀ b ∈ w, isTargetByte b = true) (hne : w ≠ []) (sse : Bool) (n k : ℕ)
    (l : Option LineEnd) :
    (headerParser sse (emptyBytes l ++ (m ++ (List.replicate (n + 1) space ++
      (w ++ List.replicate (k + 1) space))))).ret = if m = [] then -1 else -2 := by
  obtain ⟨t, ht, -⟩ := pathOpen_short hm sse 16 n l hw hne (c := nul) (by decide) [] k
  refine (congrArg (fun r => (parsed r).ret) ht).trans ?_
  split_ifs <;> rfl

/-- What a call returns beside `headerParser`: the same up to the conversion of the length, or an
error for a part that `headerParser` waits with, which ends in the spaces behind the method. -/
theorem phrParseRequest_headerParser {sse : Bool} {input behind : Bytes} {r : ℤ} {head : Head}
    (hcall : phrParseRequest sse input behind 16 0 = .ok (r, head)) :
    (∃ n : ℕ, 0 < n ∧ n ≤ input.length ∧ headerParser sse input = head.parsed n ∧ r = cint n) ∨
    ((headerParser sse input).ret = -1 ∧ r = -1) ∨
    (headerParser sse input).ret = -2 ∧ (r = -2 ∨ r = -1 ∧ MethodOpen input) := by
  by_cases hopen : MethodOpen input ∨ PathOpen input
  · rcases hopen with ⟨l, m, n, hm, rfl⟩ | ⟨l, m, n, w, k, hm, hw, hne, rfl⟩
    · rw [phrParseRequest_method hm, methodReply] at hcall
      refine .inr (.inr ⟨headerParser_method hm sse n l, ?_⟩)
      have hmethod : MethodOpen (emptyBytes l ++ (m ++ List.replicate (n + 1) space)) :=
        ⟨l, m, n, hm, rfl⟩
      split_ifs at hcall
      all_goals
        obtain ⟨rfl, -⟩ := Prod.mk.inj (Except.ok.inj hcall)
        simp [hmethod]
    · rw [phrParseRequest_path hm hw hne, pathReply] at hcall
      rw [headerParser_path hm hw hne]
      split_ifs at hcall
      all_goals
        obtain ⟨rfl, -⟩ := Prod.mk.inj (Except.ok.inj hcall)
        simp [*]
  · have hclosed : ∀ behind, (parseRequest sse 16).run behind.length
        ⟨0, input ++ behind, .init⟩ = Reader.extendResult
          ((parseRequest sse 16).run 0 ⟨0, input, .init⟩) behind :=
      parseRequest_closed hopen
    have hreturned := (congrArg returned (hclosed behind)).symm.trans hcall
    have hparsed := congrArg parsed (hclosed [nul])
    cases hrun : (parseRequest sse 16).run 0 ⟨0, input, .init⟩ with
    | ok u t =>
      obtain ⟨h, hrest, hoffset, -⟩ := parseRequest_eq_ok.mp hrun
      have hrest : input = h.bytes ++ t.rest := hrest
      have hoffset : t.offset = 0 + h.bytes.length := hoffset
      rw [hrun] at hreturned hparsed
      obtain ⟨rfl, rfl⟩ := Prod.mk.inj (Except.ok.inj hreturned)
      have hpos := h.length_pos
      refine .inl ⟨t.offset, by omega, ?_, hparsed, rfl⟩
      rw [hrest, List.length_append]
      omega
    | error r' t =>
      rw [hrun] at hreturned hparsed
      cases r' with
      | invalid =>
        obtain ⟨rfl, -⟩ := Prod.mk.inj (Except.ok.inj hreturned)
        exact .inr (.inl ⟨congrArg Parsed.ret hparsed, rfl⟩)
      | incomplete =>
        obtain ⟨rfl, -⟩ := Prod.mk.inj (Except.ok.inj hreturned)
        exact .inr (.inr ⟨congrArg Parsed.ret hparsed, .inl rfl⟩)
      | fault f => cases hreturned

/-- A session whose calls find some bytes behind each input, in which the loops over spaces stay. -/
def Calls (sse : Bool) (phr : Parser) : Prop :=
  ∀ input : Bytes, ∃ behind r head, phrParseRequest sse input behind 16 0 = .ok (r, head) ∧
    phr input = head.parsed r

section Calls

variable {sse : Bool} {phr : Parser} (h : Calls sse phr) {b : Bytes}
  (hret : (headerParser sse b).ret < 2 ^ 31)
include h hret

theorem Calls.cases : phr b = headerParser sse b ∧ 0 < (phr b).ret ∧ (phr b).ret ≤ b.length ∨
    ((headerParser sse b).ret = -1 ∧ (phr b).ret = -1) ∨
    (headerParser sse b).ret = -2 ∧ ((phr b).ret = -2 ∨ (phr b).ret = -1 ∧ MethodOpen b) := by
  obtain ⟨behind, r, head, hcall, hphr⟩ := h b
  rw [hphr]
  rcases phrParseRequest_headerParser hcall with ⟨n, hpos, hle, hparser, hr⟩ | herror | hshort
  · have hn : (head.parsed n).ret = n := rfl
    rw [hparser, hn] at hret
    rw [cint_of_lt (by omega)] at hr
    rw [hr, hparser, hn]
    exact .inl ⟨rfl, by omega, by omega⟩
  · exact .inr (.inl herror)
  · exact .inr (.inr hshort)

theorem Calls.follows : Follows (headerParser sse) phr b := by
  by_cases hnil : b = []
  · rcases h.cases hret with ⟨-, -, hle⟩ | ⟨-, hphr⟩ | ⟨-, hphr⟩
    · exact ⟨hle, .inl (by rw [hnil, httpNext_nil, httpNext_nil])⟩
    · exact ⟨by omega, .inl (by rw [hnil, httpNext_nil, httpNext_nil])⟩
    · exact ⟨by omega, .inl (by rw [hnil, httpNext_nil, httpNext_nil])⟩
  rcases h.cases hret with ⟨hsame, -, hle⟩ | ⟨hparser, hphr⟩ | ⟨hparser, hphr | ⟨hphr, -⟩⟩
  · exact ⟨hle, .inl (by simp only [httpNext, hsame])⟩
  · refine ⟨by omega, .inl ?_⟩
    rw [httpNext_header hnil (by omega), httpNext_header hnil (by omega), hphr, hparser]
  · refine ⟨by omega, .inl ?_⟩
    rw [httpNext_header hnil (by omega), httpNext_header hnil (by omega), hphr, hparser]
  · refine ⟨by omega, .inr ⟨?_, ?_⟩⟩
    · rw [httpNext_header hnil (by omega), if_pos hphr]
    · rw [httpNext_header hnil (by omega), if_neg (by omega)]

/-- A part of a request that is rejected ends in the spaces behind its method. -/
theorem Calls.methodOpen (hnone : httpNext (headerParser sse) b = .incomplete)
    (herror : httpNext phr b = .error) : MethodOpen b ∧ (phr b).ret = -1 := by
  have hnil : b ≠ [] := by
    rintro rfl
    rw [httpNext_nil] at herror
    cases herror
  rcases h.cases hret with ⟨hsame, -, -⟩ | ⟨hparser, -⟩ | ⟨-, hphr | ⟨hphr, hopen⟩⟩
  · have hnext : httpNext phr b = httpNext (headerParser sse) b := by
      simp only [httpNext, hsame]
    cases herror.symm.trans (hnext.trans hnone)
  · rw [httpNext_header hnil (by omega), if_pos hparser] at hnone
    cases hnone
  · rw [httpNext_header hnil (by omega), if_neg (by omega)] at herror
    cases herror
  · exact ⟨hopen, hphr⟩

end Calls

def callParser (sse : Bool) (behind : Bytes) : Parser := fun input =>
  ((phrParseRequest sse input behind 16 0).toOption.map fun r => r.2.parsed r.1).getD
    (Head.init.parsed (-2))

theorem calls_callParser (sse : Bool) {c : UInt8} (hc : c ≠ space) (p : Bytes) :
    Calls sse (callParser sse (c :: p)) := by
  intro input
  have hok : ∃ v, phrParseRequest sse input (c :: p) 16 0 = .ok v := by
    by_cases hopen : MethodOpen input ∨ PathOpen input
    · rcases hopen with ⟨l, m, n, hm, rfl⟩ | ⟨l, m, n, w, k, hm, hw, hne, rfl⟩
      · exact ⟨_, (phrParseRequest_method hm sse 16 n l _).trans (methodReply_cons l m n hc p)⟩
      · refine ⟨(if m = [] then -1 else -2, pathOut l m n w), ?_⟩
        rw [phrParseRequest_path hm hw hne, pathReply, if_neg (by simp [hc])]
    · obtain ⟨v, hv⟩ := phrParseRequest_closed sse 16 hopen
      exact ⟨v, hv _⟩
  obtain ⟨v, hv⟩ := hok
  refine ⟨c :: p, v.1, v.2, hv, ?_⟩
  rw [callParser, hv]
  rfl

theorem callParser_methodOpen (sse : Bool) {c : UInt8} (hc : c ≠ space) (p : Bytes) {b : Bytes}
    (h : MethodOpen b) : (callParser sse (c :: p) b).ret = -2 := by
  obtain ⟨l, m, n, hm, rfl⟩ := h
  rw [callParser, phrParseRequest_method hm, methodReply_cons l m n hc p]
  rfl

/-! ## Places in the header -/

theorem FieldLine.value_le (f : FieldLine) : f.value.length ≤ f.text.length :=
  (List.rdropWhile_prefix isBlank f.text).length_le

theorem FieldLine.lead_le {f : FieldLine} {n b : Bytes} (h : f.name = some (n, b)) :
    n.length ≤ f.lead.length := by
  unfold FieldLine.lead
  rw [h]
  simp only [List.length_append, List.length_cons]
  omega

theorem FieldLine.length_bytes (f : FieldLine) :
    f.bytes.length = f.lead.length + f.text.length + f.lineEnd.bytes.length := by
  simp only [FieldLine.bytes, List.length_append, Nat.add_assoc]

theorem FieldLine.field_le (f : FieldLine) (i : ℕ) :
    (f.field i).name.base + (f.field i).name.size ≤ i + f.bytes.length ∧
      (f.field i).value.base + (f.field i).value.size ≤ i + f.bytes.length := by
  have hvalue := f.value_le
  have hlen := f.length_bytes
  constructor
  · cases hname : f.name with
    | none => simp [FieldLine.field, hname, Data.null]
    | some nb =>
      obtain ⟨n, b⟩ := nb
      have hlead := f.lead_le hname
      simp only [FieldLine.field, hname]
      omega
  · simp only [FieldLine.field]
    omega

theorem FieldLine.fields_le {i : ℕ} {fs : List FieldLine} {g : HttpField}
    (hg : g ∈ FieldLine.fields i fs) :
    g.name.base + g.name.size ≤ i + (fs.flatMap FieldLine.bytes).length ∧
      g.value.base + g.value.size ≤ i + (fs.flatMap FieldLine.bytes).length := by
  induction fs generalizing i with
  | nil => cases hg
  | cons f fs ih =>
    rw [List.flatMap_cons, List.length_append]
    rcases List.mem_cons.mp hg with rfl | hg
    · have := f.field_le i
      omega
    · have := ih hg
      omega

theorem RequestHead.places_le (h : RequestHead 16) (r : ℤ) :
    ∀ d ∈ (h.places.parsed r).slices, d.base + d.size ≤ h.bytes.length := by
  intro d hd
  simp only [Parsed.slices, Head.parsed, List.mem_cons, List.mem_flatMap, List.not_mem_nil,
    or_false] at hd
  rcases hd with rfl | rfl | ⟨f, hf, rfl | rfl⟩
  · simp only [RequestHead.places, RequestHead.bytes, RequestHead.requestLine, List.length_append]
    omega
  · simp only [RequestHead.places, RequestHead.bytes, RequestHead.requestLine, List.length_append]
    omega
  · have := (FieldLine.fields_le hf).1
    simp only [RequestHead.bytes, List.length_append]
    omega
  · have := (FieldLine.fields_le hf).2
    simp only [RequestHead.bytes, List.length_append]
    omega

/-! ## Values between white space -/

theorem isspace_of_blank {c : UInt8} (h : isBlank c = true) : isspace c = true := by
  rcases (Bool.or_eq_true _ _).mp h with h | h
  · rw [beq_iff_eq] at h
    subst h
    decide
  · rw [beq_iff_eq] at h
    subst h
    decide

theorem not_isspace {c : UInt8} (h : isBlank c = false) (h' : isCtl c = false) :
    isspace c = false := by
  rw [isCtl_eq, decide_eq_false_iff_not] at h'
  simp only [isBlank, Bool.or_eq_false_iff, beq_eq_false_iff_ne, ne_eq, UInt8.ext_iff, space, tab,
    UInt8.reduceToNat] at h
  simp only [isspace, Bool.or_eq_false_iff, beq_eq_false_iff_ne, ne_eq, UInt8.ext_iff, space,
    UInt8.reduceToNat, Bool.and_eq_false_iff, decide_eq_false_iff_not, UInt8.le_iff_toNat_le]
  omega

theorem LineEnd.isspace_first (l : LineEnd) : ∃ c p, l.bytes = c :: p ∧ isspace c = true := by
  cases l with
  | lf => exact ⟨10, [], rfl, by decide⟩
  | crlf => exact ⟨cr, [10], rfl, by decide⟩

/-- A value behind a name begins with a byte that is not white space, and white space follows. -/
theorem FieldLine.value_between {f : FieldLine} (hname : f.name ≠ none) (hvalue : f.value ≠ [])
    (rest : Bytes) : ∃ a u c t, f.text ++ (f.lineEnd.bytes ++ rest) = a :: u ++ c :: t ∧
      isspace a = false ∧ isspace c = true := by
  have htext := List.rdropWhile_append_rtakeWhile (l := f.text) (p := isBlank)
  obtain ⟨a, u, hau⟩ := List.exists_cons_of_ne_nil hvalue
  have hfirst : f.text.head? = some a := by
    rw [← htext, show f.text.rdropWhile isBlank = a :: u from hau]
    rfl
  have ha : isBlank a = false := f.text_first hname a hfirst
  have hctl : isCtl a = false := f.text_bytes a (List.mem_of_mem_head? hfirst)
  obtain ⟨c, t, hct, hc⟩ : ∃ c t, f.text.rtakeWhile isBlank ++ (f.lineEnd.bytes ++ rest) = c :: t ∧
      isspace c = true := by
    cases hb : f.text.rtakeWhile isBlank with
    | nil =>
      obtain ⟨c, p, hp, hc⟩ := f.lineEnd.isspace_first
      exact ⟨c, p ++ rest, by rw [hp]; rfl, hc⟩
    | cons c b =>
      have hblank : isBlank c = true :=
        List.mem_rtakeWhile_imp (l := f.text) (by rw [hb]; simp)
      exact ⟨c, _, rfl, isspace_of_blank hblank⟩
  refine ⟨a, u, c, t, ?_, not_isspace ha hctl, hc⟩
  rw [← htext, List.append_assoc, hct, show f.text.rdropWhile isBlank = a :: u from hau]

theorem FieldLine.fields_between {fs : List FieldLine} {g : HttpField} {pre : Bytes}
    (hg : g ∈ FieldLine.fields pre.length fs) (hname : g.name.size ≠ 0) (hvalue : g.value.size ≠ 0)
    (rest : Bytes) : ∃ a u c t,
      (pre ++ (fs.flatMap FieldLine.bytes ++ rest)).drop g.value.base = a :: u ++ c :: t ∧
        isspace a = false ∧ isspace c = true := by
  induction fs generalizing pre with
  | nil => cases hg
  | cons f fs ih =>
    rw [List.flatMap_cons, List.append_assoc]
    rcases List.mem_cons.mp hg with rfl | hg
    · have hnone : f.name ≠ none := by
        intro hnone
        simp [FieldLine.field, hnone, Data.null] at hname
      have hne : f.value ≠ [] := by
        intro hnil
        simp [FieldLine.field, hnil] at hvalue
      have hdrop : (pre ++ (f.bytes ++ (fs.flatMap FieldLine.bytes ++ rest))).drop
          (f.field pre.length).value.base =
          f.text ++ (f.lineEnd.bytes ++ (fs.flatMap FieldLine.bytes ++ rest)) := by
        simp only [FieldLine.field, FieldLine.bytes, List.append_assoc]
        rw [← List.append_assoc, ← List.length_append, List.drop_left]
      rw [hdrop]
      exact f.value_between hnone hne _
    · rw [← List.append_assoc]
      apply ih
      rwa [List.length_append]

/-- The parser has the properties that the results on the server assume. -/
theorem prefixStable_headerParser (sse : Bool) : PrefixStable (headerParser sse) where
  error b x h := headerParser_error h x
  complete b x h := by
    obtain ⟨g, rest, rfl, hg⟩ := headerParser_pos h
    rw [hg, List.append_assoc, headerParser_head]
  length b := by
    by_cases hpos : 0 < (headerParser sse b).ret
    · obtain ⟨g, rest, rfl, hg⟩ := headerParser_pos hpos
      rw [hg, List.length_append]
      show ((g.bytes.length : ℕ) : ℤ) ≤ _
      omega
    · omega
  slices b h d hd := by
    obtain ⟨g, rest, rfl, hg⟩ := headerParser_pos h
    rw [hg] at hd ⊢
    exact Int.ofNat_le.mpr (g.places_le _ d hd)
  value b h f hf hname hvalue := by
    obtain ⟨g, rest, rfl, hg⟩ := headerParser_pos h
    rw [hg] at hf
    have hf : f ∈ FieldLine.fields g.requestLine.length g.headers := hf
    have hbetween := FieldLine.fields_between hf hname hvalue (g.last.bytes ++ rest)
    simpa only [RequestHead.bytes, List.append_assoc] using hbetween

end LibReactor.Phr
