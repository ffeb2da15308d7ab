import LibReactor.ChunkGrammar
import LibReactor.HeaderParser

/-!
# The requests of an input

A message is a head and the text behind it that holds the body. What `http_read_request` finds at
the start of an input is a message, with the parts that the client wrote.
-/

namespace LibReactor.Phr

open Framing

def FieldLine.key (f : FieldLine) : Bytes :=
  match f.name with
  | some (n, _) => n
  | none => []

def FieldLine.number (f : FieldLine) : ℕ := strtoul 10 (f.text ++ f.lineEnd.bytes)

namespace RequestHead

variable (h : RequestHead 16)

def find (name : Bytes) : Option FieldLine := h.headers.find? (fun f => equalCase f.key name)

def lookup (name : Bytes) : Bytes := ((h.find name).map FieldLine.value).getD []

def length : Bytes := h.lookup (str "Content-Length")

def encoding : Bytes := h.lookup (str "Transfer-Encoding")

def contentLength : ℕ := ((h.find (str "Content-Length")).map FieldLine.number).getD 0

def contents (body : Option Bytes) : Contents :=
  ⟨h.method, h.path, body, h.headers.map fun f => (f.key, f.value)⟩

inductive Holds (h : RequestHead 16) : Bytes → Option Bytes → Prop
  | get : h.method = str "GET" → Holds h [] none
  | length {body} : h.method ≠ str "GET" → h.length ≠ [] → h.encoding = [] →
      h.contentLength = body.length → Holds h body (some body)
  | chunked {ends text body} : h.method ≠ str "GET" → h.length = [] →
      equalCase h.encoding (str "Chunked") = true → ChunkSequence ends text body →
      Holds h text (some body)
  | plain : h.method ≠ str "GET" → h.length = [] → h.encoding = [] → Holds h [] none

end RequestHead

/-- A request as it is written, with a head whose length the parser can return. -/
structure Message where
  head : RequestHead 16
  text : Bytes
  body : Option Bytes
  holds : head.Holds text body
  head_lt : head.bytes.length < 2 ^ 31
  length_lt : head.length ≠ [] → head.contentLength < 2 ^ 62

namespace Message

variable (m : Message)

def bytes : Bytes := m.head.bytes ++ m.text

def contents : Contents := m.head.contents m.body

end Message

/-! ## The parts at their places -/

theorem length_of_equalCase {a b : Bytes} (h : equalCase a b = true) : a.length = b.length := by
  have hlength := congrArg List.length (eq_of_beq h)
  rwa [List.length_map, List.length_map] at hlength

theorem bytes_between (pre w rest : Bytes) :
    Data.bytes ⟨pre.length, w.length⟩ (pre ++ (w ++ rest)) = w := by
  simp only [Data.bytes]
  rw [List.drop_left, List.take_left]

namespace FieldLine

variable (f : FieldLine) (pre rest : Bytes)

theorem name_between : (f.field pre.length).name.bytes (pre ++ (f.bytes ++ rest)) = f.key := by
  unfold field key FieldLine.bytes lead
  cases f.name with
  | none => rfl
  | some nb =>
    simp only [List.append_assoc]
    exact bytes_between pre nb.1 _

theorem size_name (i : ℕ) : (f.field i).name.size = f.key.length := by
  unfold field key
  cases f.name with
  | none => rfl
  | some nb => rfl

theorem text_between : (pre ++ (f.bytes ++ rest)).drop (f.field pre.length).value.base =
    f.text ++ (f.lineEnd.bytes ++ rest) := by
  simp only [field, FieldLine.bytes, List.append_assoc]
  rw [← List.append_assoc, ← List.length_append, List.drop_left]

theorem bytes_value : (f.field pre.length).value.bytes (pre ++ (f.bytes ++ rest)) = f.value := by
  rw [Data.bytes, f.text_between]
  obtain ⟨b, hb⟩ : f.value <+: f.text := List.rdropWhile_prefix isBlank f.text
  rw [← hb, List.append_assoc]
  exact List.take_left

theorem equalCase_name (name : Bytes) :
    (f.field pre.length).name.equalCase (pre ++ (f.bytes ++ rest)) name =
      equalCase f.key name := by
  rw [Data.equalCase, f.name_between, f.size_name, LibReactor.equalCase]
  cases h : (f.key.map toupper == name.map toupper) with
  | false => rw [Bool.and_false]
  | true => rw [length_of_equalCase h, beq_self_eq_true, Bool.and_self]

variable {pre rest}

/-- A value behind a name is a numeral's place: what follows its line makes no difference. -/
theorem number_between (hname : f.name ≠ none) (hvalue : f.value ≠ []) :
    strtoul 10 ((pre ++ (f.bytes ++ rest)).drop (f.field pre.length).value.base) = f.number := by
  obtain ⟨a, u, c, t, htext, ha, hc⟩ := f.value_between hname hvalue []
  obtain ⟨hdigit, hx, hX⟩ := not_digit_of_isspace hc
  rw [List.append_nil] at htext
  have hrest : f.text ++ (f.lineEnd.bytes ++ rest) = a :: u ++ c :: (t ++ rest) := by
    rw [← List.append_assoc, htext, List.append_assoc]
    rfl
  rw [f.text_between, hrest, number, htext]
  exact strtoul_stop ha (by omega) hx hX u _ _

end FieldLine

theorem FieldLine.fields_bytes (fs : List FieldLine) (pre rest : Bytes) :
    (FieldLine.fields pre.length fs).map (fun g =>
        (g.name.bytes (pre ++ (fs.flatMap FieldLine.bytes ++ rest)),
          g.value.bytes (pre ++ (fs.flatMap FieldLine.bytes ++ rest)))) =
      fs.map fun f => (f.key, f.value) := by
  induction fs generalizing pre with
  | nil => rfl
  | cons f fs ih =>
    have hrest := ih (pre ++ f.bytes)
    rw [List.length_append] at hrest
    simp only [List.flatMap_cons, List.append_assoc] at hrest ⊢
    rw [FieldLine.fields, List.map_cons, List.map_cons, hrest, f.name_between, f.bytes_value]

theorem FieldLine.find_fields (fs : List FieldLine) (pre rest name : Bytes) :
    (fs.find? (fun f => equalCase f.key name) = none ∧
      (FieldLine.fields pre.length fs).find? (fun g =>
        g.name.equalCase (pre ++ (fs.flatMap FieldLine.bytes ++ rest)) name) = none) ∨
    ∃ f p q, fs.find? (fun f => equalCase f.key name) = some f ∧
      pre ++ (fs.flatMap FieldLine.bytes ++ rest) = p ++ (f.bytes ++ q) ∧
      (FieldLine.fields pre.length fs).find? (fun g =>
        g.name.equalCase (pre ++ (fs.flatMap FieldLine.bytes ++ rest)) name) =
          some (f.field p.length) := by
  induction fs generalizing pre with
  | nil => exact .inl ⟨rfl, rfl⟩
  | cons f fs ih =>
    have hrest := ih (pre ++ f.bytes)
    have hname := f.equalCase_name pre (fs.flatMap FieldLine.bytes ++ rest) name
    rw [List.length_append] at hrest
    simp only [List.flatMap_cons, List.append_assoc, FieldLine.fields, List.find?_cons] at hrest ⊢
    rw [hname]
    cases equalCase f.key name with
    | true => exact .inr ⟨f, pre, _, rfl, rfl, rfl⟩
    | false => exact hrest

/-! ## What is read behind a head -/

namespace RequestHead

variable (h : RequestHead 16) (x : Bytes)

def parsed : Parsed := h.places.parsed h.bytes.length

theorem bytes_eq (x : Bytes) : h.bytes ++ x =
    h.requestLine ++ (h.headers.flatMap FieldLine.bytes ++ (h.last.bytes ++ x)) := by
  simp only [RequestHead.bytes, List.append_assoc]

theorem method_between : h.parsed.method.bytes (h.bytes ++ x) = h.method := by
  have hsplit : h.bytes ++ x = h.emptyBytes ++ (h.method ++ (h.spaces₁ ++ h.path ++ h.spaces₂ ++
      h.version ++ h.lineEnd.bytes ++ h.headers.flatMap FieldLine.bytes ++ h.last.bytes ++ x)) := by
    simp only [RequestHead.bytes, requestLine, List.append_assoc]
  rw [hsplit]
  exact bytes_between h.emptyBytes h.method _

theorem path_between : h.parsed.target.bytes (h.bytes ++ x) = h.path := by
  have hsplit : h.bytes ++ x = h.emptyBytes ++ h.method ++ h.spaces₁ ++ (h.path ++ (h.spaces₂ ++
      h.version ++ h.lineEnd.bytes ++ h.headers.flatMap FieldLine.bytes ++ h.last.bytes ++ x)) := by
    simp only [RequestHead.bytes, requestLine, List.append_assoc]
  rw [hsplit]
  exact bytes_between (h.emptyBytes ++ h.method ++ h.spaces₁) h.path _

theorem isGet_iff : h.parsed.isGet (h.bytes ++ x) = true ↔ h.method = str "GET" := by
  rw [Parsed.isGet, Data.equal, h.method_between, Bool.and_eq_true, beq_iff_eq, beq_iff_eq]
  refine ⟨And.right, fun hget => ⟨?_, hget⟩⟩
  rw [← hget]
  rfl

theorem fields_between : h.parsed.fields.map (fun g =>
    (g.name.bytes (h.bytes ++ x), g.value.bytes (h.bytes ++ x))) =
      h.headers.map fun f => (f.key, f.value) := by
  rw [h.bytes_eq]
  exact FieldLine.fields_bytes h.headers h.requestLine _

/-- The field that is found has the value of the first line with its name. -/
theorem lookup_between (name : Bytes) :
    (httpFieldLookup (h.bytes ++ x) h.parsed.fields name).bytes (h.bytes ++ x) = h.lookup name ∧
      (httpFieldLookup (h.bytes ++ x) h.parsed.fields name).size = (h.lookup name).length := by
  have hfind := FieldLine.find_fields h.headers h.requestLine (h.last.bytes ++ x) name
  rw [← h.bytes_eq] at hfind
  unfold httpFieldLookup lookup find
  rcases hfind with ⟨hnone, hfields⟩ | ⟨f, p, q, hsome, hsplit, hfields⟩
  · have hfields : h.parsed.fields.find? (fun g => g.name.equalCase (h.bytes ++ x) name) = none :=
      hfields
    rw [hnone, hfields]
    exact ⟨rfl, rfl⟩
  · have hfields : h.parsed.fields.find? (fun g => g.name.equalCase (h.bytes ++ x) name) =
        some (f.field p.length) := hfields
    rw [hsome, hfields, hsplit]
    exact ⟨f.bytes_value p q, rfl⟩

theorem size_length : (h.parsed.length (h.bytes ++ x)).size ≠ 0 ↔ h.length ≠ [] := by
  rw [Parsed.length, (h.lookup_between x _).2]
  exact not_congr List.length_eq_zero_iff

theorem size_encoding : (h.parsed.encoding (h.bytes ++ x)).size ≠ 0 ↔ h.encoding ≠ [] := by
  rw [Parsed.encoding, (h.lookup_between x _).2]
  exact not_congr List.length_eq_zero_iff

theorem isChunked_iff :
    (h.parsed.encoding (h.bytes ++ x)).equalCase (h.bytes ++ x) (str "Chunked") = true ↔
      equalCase h.encoding (str "Chunked") = true := by
  rw [Data.equalCase, Parsed.encoding, (h.lookup_between x _).1, (h.lookup_between x _).2,
    Bool.and_eq_true, beq_iff_eq]
  exact ⟨And.right, fun hchunked => ⟨length_of_equalCase hchunked, hchunked⟩⟩

theorem contentLength_between (hlength : h.length ≠ []) :
    h.parsed.contentLength (h.bytes ++ x) = h.contentLength := by
  have hfind := FieldLine.find_fields h.headers h.requestLine (h.last.bytes ++ x)
    (str "Content-Length")
  rw [← h.bytes_eq] at hfind
  unfold Parsed.contentLength Parsed.length httpFieldLookup
  unfold length lookup at hlength
  unfold contentLength
  rcases hfind with ⟨hnone, -⟩ | ⟨f, p, q, hsome, hsplit, hfields⟩
  · rw [find, hnone] at hlength
    exact absurd rfl hlength
  · have hfields : h.parsed.fields.find? (fun g => g.name.equalCase (h.bytes ++ x)
        (str "Content-Length")) = some (f.field p.length) := hfields
    rw [find, hsome] at hlength ⊢
    rw [hfields, hsplit]
    refine f.number_between (fun hname => ?_) hlength
    -- a line without a name is no field of that name
    have hkey := List.find?_some hsome
    rw [FieldLine.key, hname] at hkey
    exact absurd hkey (by decide)

theorem contents_between (body : Option Data) :
    (h.parsed.request body).contents (h.bytes ++ x) =
      h.contents (body.map fun d => d.bytes (h.bytes ++ x)) := by
  show Contents.mk (h.parsed.method.bytes _) (h.parsed.target.bytes _) _ _ = _
  rw [h.method_between, h.path_between]
  exact congrArg _ (h.fields_between x)

end RequestHead

/-! ## The request at the start of an input -/

section Next

variable (sse : Bool) (h : RequestHead 16) (x : Bytes)

def RequestHead.next (x : Bytes) : Frame Contents :=
  if h.method = str "GET" then .complete h.bytes.length (h.contents none)
  else if h.length ≠ [] then
    if h.encoding ≠ [] then .error
    else if h.bytes.length + x.length < (h.bytes.length + h.contentLength) % 2 ^ 64 then .incomplete
    else .complete ((h.bytes.length + h.contentLength) % 2 ^ 64)
      (h.contents (some (x.take h.contentLength)))
  else if h.encoding ≠ [] then chunkedFrame h.parsed (h.bytes ++ x) h.bytes.length
  else .complete h.bytes.length (h.contents none)

theorem httpNext_headerParser : httpNext (headerParser sse) (h.bytes ++ x) = h.next x := by
  have hparsed : headerParser sse (h.bytes ++ x) = h.parsed := headerParser_head sse h x
  have hpos := h.length_pos
  have hne : h.bytes ++ x ≠ [] := fun hnil => by
    have := List.length_pos_iff.mp hpos
    exact this (List.append_eq_nil_iff.mp hnil).1
  have hret : ¬ h.parsed.ret ≤ 0 := by
    show ¬ ((h.bytes.length : ℕ) : ℤ) ≤ 0
    omega
  have hret' : h.parsed.ret.toNat = h.bytes.length := Int.toNat_natCast _
  unfold httpNext
  rw [hparsed]
  simp only [if_neg hne, if_neg hret, hret', RequestHead.next, lengthFrame, h.isGet_iff,
    h.size_length, h.size_encoding, h.contents_between, List.length_append, Option.map_none,
    Option.map_some]
  by_cases hlength : h.length = []
  · simp only [hlength, ne_eq, not_true_eq_false, if_false]
  · have htake : Data.bytes ⟨h.bytes.length, h.contentLength⟩ (h.bytes ++ x) =
        x.take h.contentLength := by
      rw [Data.bytes, List.drop_left]
    rw [h.contentLength_between x hlength, htake]

variable {h x}

theorem chunkedFrame_scan (hlen : (h.bytes ++ x).length < 2 ^ 63) {k : ℤ} {body : Bytes}
    (hscan : Scan x k body) : chunkedFrame h.parsed (h.bytes ++ x) h.bytes.length =
      if ¬ equalCase h.encoding (str "Chunked") = true then .error
      else if k = 0 then .incomplete
      else if k < 0 then .error
      else .complete (h.bytes.length + k.toNat) (h.contents (some body)) := by
  have hdrop : (h.bytes ++ x).drop h.bytes.length = x := List.drop_left
  have htake : (h.bytes ++ x).take h.bytes.length = h.bytes := List.take_left
  have hwrite : write (h.bytes ++ x) h.bytes.length body = h.bytes ++ write x 0 body := by
    rw [← write_zero_drop, hdrop, htake]
  have hbody : Data.bytes ⟨h.bytes.length, body.length⟩ (h.bytes ++ write x 0 body) = body := by
    rw [write, List.take_zero, List.nil_append]
    exact bytes_between h.bytes body _
  rw [chunkedFrame_eq hlen (hdrop.symm ▸ hscan), hwrite, h.contents_between, Option.map_some,
    hbody]
  simp only [h.isChunked_iff]

/-- A message is found where it was written. -/
theorem httpNext_message (m : Message) (rest : Bytes) (hlen : (m.bytes ++ rest).length < 2 ^ 63) :
    httpNext (headerParser sse) (m.bytes ++ rest) = .complete m.bytes.length m.contents := by
  obtain ⟨h, text, body, hholds, _, _⟩ := m
  simp only [Message.bytes, Message.contents] at hlen ⊢
  rw [List.append_assoc] at hlen ⊢
  rw [httpNext_headerParser, RequestHead.next]
  cases hholds with
  | get hget =>
    rw [if_pos hget, List.append_nil]
  | @length body hget hlength hencoding hsize =>
    simp only [List.length_append] at hlen ⊢
    rw [if_neg hget, if_pos hlength, if_neg (not_not.mpr hencoding), hsize,
      Nat.mod_eq_of_lt (by omega), if_neg (by omega), List.take_left]
  | @chunked ends text body hget hlength hchunked hsequence =>
    have hencoding : h.encoding ≠ [] := by
      intro hnil
      rw [hnil] at hchunked
      exact absurd hchunked (by decide)
    obtain ⟨hscan, hpos⟩ := hsequence.scan rest (by
      rw [List.length_append] at hlen
      omega)
    rw [if_neg hget, if_neg (not_not.mpr hlength), if_pos hencoding, chunkedFrame_scan hlen hscan,
      if_neg (not_not.mpr hchunked), if_neg (by omega), if_neg (by omega), Int.toNat_natCast,
      List.length_append]
  | plain hget hlength hencoding =>
    rw [if_neg hget, if_neg (not_not.mpr hlength), if_neg (not_not.mpr hencoding), List.append_nil]

/-- What is found behind a head is the text of a message. -/
theorem exists_message (hlen : (h.bytes ++ x).length < 2 ^ 63)
    (hhead : h.bytes.length < 2 ^ 31) (hvalue : h.length ≠ [] → h.contentLength < 2 ^ 62) {n : ℕ}
    {c : Contents}
    (hnext : h.next x = .complete n c) : ∃ (m : Message) (rest : Bytes),
      h.bytes ++ x = m.bytes ++ rest ∧ n = m.bytes.length ∧ c = m.contents := by
  unfold RequestHead.next at hnext
  split_ifs at hnext with hget hlength hencoding hshort hencoding
  · obtain ⟨rfl, rfl⟩ := Frame.complete.inj hnext
    refine ⟨⟨h, [], none, .get hget, hhead, hvalue⟩, x, ?_, ?_, rfl⟩
    · rw [Message.bytes, List.append_nil]
    · rw [Message.bytes, List.append_nil]
  · obtain ⟨rfl, rfl⟩ := Frame.complete.inj hnext
    have hsmall := hvalue hlength
    rw [List.length_append] at hlen
    rw [Nat.mod_eq_of_lt (by omega)] at hshort
    have htake : h.contentLength = (x.take h.contentLength).length := by
      rw [List.length_take]
      omega
    refine ⟨⟨h, _, _, .length hget hlength (not_not.mp hencoding) htake, hhead, hvalue⟩,
      x.drop h.contentLength, ?_, ?_, rfl⟩
    · rw [Message.bytes, List.append_assoc, List.take_append_drop]
    · rw [Nat.mod_eq_of_lt (by omega), Message.bytes, List.length_append, ← htake]
  · have hx : x.length < 2 ^ 63 := by
      rw [List.length_append] at hlen
      omega
    obtain ⟨k, body, hscan⟩ := Scan.exists_scan hx
    rw [chunkedFrame_scan hlen hscan] at hnext
    split_ifs at hnext with hchunked hzero hneg
    obtain ⟨rfl, rfl⟩ := Frame.complete.inj hnext
    obtain ⟨ends, text, rest, rfl, hk, hsequence⟩ :=
      ChunkSequence.of_scan hx hscan (by omega)
    refine ⟨⟨h, text, some body, .chunked hget (not_not.mp hlength) hchunked hsequence, hhead,
      hvalue⟩, rest, ?_, ?_, rfl⟩
    · rw [Message.bytes, List.append_assoc]
    · rw [Message.bytes, List.length_append, hk, Int.toNat_natCast]
  · obtain ⟨rfl, rfl⟩ := Frame.complete.inj hnext
    refine ⟨⟨h, [], none, .plain hget (not_not.mp hlength) (not_not.mp hencoding), hhead, hvalue⟩,
      x, ?_, ?_, rfl⟩
    · rw [Message.bytes, List.append_nil]
    · rw [Message.bytes, List.append_nil]

end Next

end LibReactor.Phr
