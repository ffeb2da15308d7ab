import LibReactor.ContentLength
import LibReactor.Messages
import LibReactor.PicohttpparserResponse
import LibReactor.Response

/-!
# Reading responses

What the server writes for an answer is the head of a response and a body of the length that the
head gives. Answers written one behind the other are read as they were given.
-/

namespace LibReactor.Phr

open Framing Incremental

/-! ## Answers -/

structure FieldValue where
  bytes : Bytes
  noCtl : ∀ c ∈ bytes, isCtl c = false
  first : ∀ c ∈ bytes.head?, isBlank c = false
  last : ∀ c ∈ bytes.getLast?, isBlank c = false

structure WritableField where
  name : Bytes
  value : FieldValue
  name_ne : name ≠ []
  name_bytes : ∀ c ∈ name, isTokenChar c = true

namespace WritableField

variable (f : WritableField)

def field : ResponseField := ⟨f.name, f.value.bytes⟩

def line : FieldLine where
  name := some (f.name, [space])
  text := f.value.bytes
  lineEnd := .crlf
  name_ne := by
    rintro _ _ ⟨⟩
    exact f.name_ne
  name_bytes := by
    rintro _ _ ⟨⟩
    exact f.name_bytes
  name_blanks := by
    rintro _ _ ⟨⟩ c hc
    rw [List.mem_singleton.mp hc]
    rfl
  text_bytes := f.value.noCtl
  text_first _ := f.value.first
  text_blank := by rintro ⟨⟩

theorem bytes_line : f.line.bytes = f.field.text := by
  simp only [FieldLine.bytes, FieldLine.lead, line, ResponseField.text, field, List.append_assoc]
  rfl

theorem key_line : f.line.key = f.name := rfl

theorem value_line : f.line.value = f.value.bytes := by
  refine List.rdropWhile_eq_self_iff.mpr fun hne => ?_
  have hlast := f.value.last (f.value.bytes.getLast hne) (List.getLast?_eq_some_getLast hne)
  show ¬ isBlank (f.value.bytes.getLast hne) = true
  rw [hlast]
  exact Bool.false_ne_true

end WritableField

theorem isdigit_text {c : UInt8} (h : isdigit c = true) : isCtl c = false ∧ isBlank c = false := by
  have hall : (List.range 256).all (fun n =>
      !isdigit (UInt8.ofNat n) || !isCtl (UInt8.ofNat n) && !isBlank (UInt8.ofNat n)) = true := by
    decide +kernel
  have hc := List.all_eq_true.mp hall c.toNat (List.mem_range.mpr c.toNat_lt)
  rw [UInt8.ofNat_toNat, h] at hc
  simpa using hc

def lengthValue (n : ℕ) : FieldValue where
  bytes := decimal n
  noCtl c hc := (isdigit_text (isdigit_decimal n c hc)).1
  first c hc := (isdigit_text (isdigit_decimal n c (List.mem_of_mem_head? hc))).2
  last c hc := (isdigit_text (isdigit_decimal n c (List.mem_of_mem_getLast? hc))).2

/-- What a handler passes to `server_respond`, with the server's date. -/
structure Answer where
  status : ℕ
  reason : Bytes
  date : FieldValue
  type : FieldValue
  body : Bytes
  fields : List WritableField
  status_lt : status < 1000
  reason_noCtl : ∀ c ∈ reason, isCtl c = false
  reason_first : ∀ c ∈ reason.head?, c ≠ space
  date_length : date.bytes.length = 29
  body_lt : body.length < 2 ^ 32

def serverField : WritableField where
  name := str "Server"
  value := {
    bytes := str "*"
    noCtl := by
      rintro _ (_ | ⟨_, ⟨⟩⟩)
      rfl
    first := by
      rintro _ ⟨⟩
      rfl
    last := by
      rintro _ ⟨⟩
      rfl }
  name_ne := by decide
  name_bytes := List.all_eq_true.mp rfl

def lengthField (n : ℕ) : WritableField where
  name := str "Content-Length"
  value := lengthValue n
  name_ne := by decide
  name_bytes := List.all_eq_true.mp rfl

namespace Answer

variable (a : Answer)

def statusText : Bytes := statusBytes a.status ++ if a.reason = [] then [] else space :: a.reason

def lines : List WritableField :=
  serverField ::
  { name := str "Date", value := a.date, name_ne := by decide,
    name_bytes := List.all_eq_true.mp rfl } ::
  { name := str "Content-Type", value := a.type, name_ne := by decide,
    name_bytes := List.all_eq_true.mp rfl } ::
  lengthField a.body.length :: a.fields

def text : Bytes :=
  responseText a.statusText a.date.bytes a.type.bytes (decimal (a.body.length % 2 ^ 32))
    (a.fields.map WritableField.field) a.body

def head {room : ℕ} (hroom : a.lines.length ≤ room) : ResponseHead room where
  minorVersion := 1
  spaces := 0
  status := a.status
  gap := if a.reason = [] then 0 else 1
  message := a.reason
  lineEnd := .crlf
  headers := a.lines.map WritableField.line
  last := .crlf
  minorVersion_lt := one_lt_ten
  status_lt := a.status_lt
  gap_pos hne := by
    rw [if_neg hne]
    exact Nat.one_pos
  message_bytes := a.reason_noCtl
  message_first := a.reason_first
  headers_le := by rwa [List.length_map]
  headers_first := by
    rintro _ ⟨⟩ ⟨⟩

theorem text_eq {room : ℕ} (hroom : a.lines.length ≤ room) :
    a.text = (a.head hroom).bytes ++ a.body := by
  have hversion : str "HTTP/1.1 " = versionBytes 1 ++ List.replicate 1 space := rfl
  have hend : str "\r\n" = LineEnd.crlf.bytes := rfl
  have hlines : ∀ fs : List WritableField, (fs.map WritableField.line).flatMap FieldLine.bytes =
      (fs.map WritableField.field).flatMap ResponseField.text := by
    intro fs
    rw [List.flatMap_map, List.flatMap_map]
    exact congrArg (List.flatMap · fs) (funext WritableField.bytes_line)
  have hgap : statusBytes a.status ++ (List.replicate (if a.reason = [] then 0 else 1) space ++
      a.reason) = a.statusText := by
    unfold statusText
    split_ifs with hnil
    · rw [hnil]
      rfl
    · rfl
  simp only [text, responseText, ResponseHead.bytes, ResponseHead.statusLine,
    ResponseHead.beforeMessage, head, hlines, lines, List.map_cons, List.flatMap_cons,
    Nat.mod_eq_of_lt a.body_lt, List.append_assoc, hend]
  rw [← hgap, hversion]
  simp only [List.append_assoc]
  rfl

/-- `http_write_response` appends the text to the output. -/
theorem httpWriteResponse_text (stack memory : ℕ → UInt8) (stream : Stream)
    (hfits : stream.outputWaiting.size + a.text.length < 2 ^ 63) :
    ∃ p, httpWriteResponse stack memory stream a.statusText a.date.bytes a.type.bytes a.body
      (a.fields.map WritableField.field) = .ok (stream.writeData a.text, p) := by
  have hlength := length_responseText a.statusText a.date.bytes a.type.bytes a.body
    (a.fields.map WritableField.field) (decimal (a.body.length % 2 ^ 32))
  have hsize : responseSize a.statusText a.type.bytes (decimal (a.body.length % 2 ^ 32))
      (a.fields.map WritableField.field) a.body = a.text.length := by
    have hdate := a.date_length
    unfold text
    omega
  obtain ⟨stream', p, hcall, rfl, -⟩ := fillsAllocation_storeResponse memory hfits
  rw [httpWriteResponse_eq, httpWriteResponseExtended_eq, hsize]
  exact ⟨p, hcall⟩

end Answer

/-- A call of `http_write_response` for the answer appends `d` to the output of its stream. -/
def Answer.Writes (a : Answer) (d : Bytes) : Prop :=
  ∃ (stack memory : ℕ → UInt8) (stream stream' : Stream) (p : ℕ),
    stream.outputWaiting.size < 2 ^ 62 ∧
    httpWriteResponse stack memory stream a.statusText a.date.bytes a.type.bytes a.body
      (a.fields.map WritableField.field) = .ok (stream', p) ∧
    stream'.outputWaiting.data = stream.outputWaiting.data ++ d

/-! ## What a client reads -/

structure ReplyContents where
  minorVersion : ℤ
  status : ℤ
  message : Bytes
  fields : List (Bytes × Bytes)
  body : Bytes
  deriving DecidableEq, Repr

def Answer.contents (a : Answer) : ReplyContents where
  minorVersion := 1
  status := a.status
  message := a.reason
  fields := a.lines.map fun f => (f.name, f.value.bytes)
  body := a.body

/-- The response at the start of an input with some memory behind it: a head as
`phr_parse_response` finds it, and the body whose length the head gives. -/
def replyNext (sse : Bool) (room : ℕ) (behind : Bytes → Bytes) (input : Bytes) :
    Frame ReplyContents :=
  match phrParseResponse sse input (behind input) room 0 with
  | .error _ => .error
  | .ok (r, reply) =>
    if r ≤ 0 then
      if r = -1 then .error else .incomplete
    else
      let n := r.toNat
      let length := httpFieldLookup input reply.headers (str "Content-Length")
      let size := strtoul 10 (input.drop length.base)
      if input.length < n + size then .incomplete
      else .complete (n + size)
        { minorVersion := reply.minorVersion
          status := reply.status
          message := reply.msg.bytes input
          fields := reply.headers.map fun f => (f.name.bytes input, f.value.bytes input)
          body := (input.drop n).take size }

/-- A reader with room for the fields, and a head that it can return the length of. -/
def Answer.Fits (room : ℕ) (a : Answer) : Prop :=
  a.lines.length ≤ room ∧ a.text.length < a.body.length + 2 ^ 31

theorem Answer.Writes.eq_text {a : Answer} {d : Bytes} (h : a.Writes d) {room : ℕ}
    (hfits : a.Fits room) : d = a.text := by
  obtain ⟨stack, memory, stream, stream', p, hsize, hcall, hdata⟩ := h
  have hbody := a.body_lt
  have htext := hfits.2
  obtain ⟨p', hcall'⟩ := a.httpWriteResponse_text stack memory stream (by omega)
  obtain ⟨rfl, -⟩ := Prod.mk.inj (Except.ok.inj (hcall.symm.trans hcall'))
  rw [Stream.writeData, Buffer.data_append] at hdata
  exact (List.append_cancel_left hdata).symm

theorem strtoul_decimal {n : ℕ} (hn : n < 2 ^ 64) (t : Bytes) :
    strtoul 10 (decimal n ++ cr :: t) = n := by
  rw [strtoul_digits (decimal_ne_nil n) (fun c hc => isxdigit_of_isdigit (isdigit_decimal n c hc))
    (by decide) (by decide) (by decide), numeral_decimal, if_neg (by omega)]

namespace Answer

variable {room : ℕ} {a : Answer} (hroom : a.lines.length ≤ room) (x : Bytes)

theorem head_bytes_eq : (a.head hroom).bytes ++ x = (a.head hroom).statusLine ++
    ((a.head hroom).headers.flatMap FieldLine.bytes ++ ((a.head hroom).last.bytes ++ x)) := by
  simp only [ResponseHead.bytes, List.append_assoc]

theorem fields_between : (a.head hroom).places.headers.map (fun g =>
    (g.name.bytes ((a.head hroom).bytes ++ x), g.value.bytes ((a.head hroom).bytes ++ x))) =
      a.contents.fields := by
  rw [head_bytes_eq]
  refine (FieldLine.fields_bytes _ _ _).trans ?_
  show (a.lines.map WritableField.line).map _ = _
  rw [List.map_map]
  show _ = a.lines.map fun f => (f.name, f.value.bytes)
  apply List.map_congr_left
  intro f _
  exact congrArg (Prod.mk f.name) f.value_line

theorem message_between : (a.head hroom).places.msg.bytes ((a.head hroom).bytes ++ x) =
    a.reason := by
  have hsplit : (a.head hroom).bytes ++ x = (a.head hroom).beforeMessage ++ (a.reason ++
      ((a.head hroom).lineEnd.bytes ++ (a.head hroom).headers.flatMap FieldLine.bytes ++
        (a.head hroom).last.bytes ++ x)) := by
    simp only [ResponseHead.bytes, ResponseHead.statusLine, List.append_assoc]
    rfl
  rw [hsplit]
  exact bytes_between (a.head hroom).beforeMessage a.reason _

theorem find_length (a : Answer) : (a.lines.map WritableField.line).find?
    (fun f => equalCase f.key (str "Content-Length")) = some (lengthField a.body.length).line := by
  have hserver : equalCase (str "Server") (str "Content-Length") = false := by decide
  have hdate : equalCase (str "Date") (str "Content-Length") = false := by decide
  have htype : equalCase (str "Content-Type") (str "Content-Length") = false := by decide
  have hlength : equalCase (str "Content-Length") (str "Content-Length") = true := by decide
  simp only [lines, List.map_cons, List.find?_cons, WritableField.key_line, serverField,
    lengthField, hserver, hdate, htype, hlength]

theorem length_between : strtoul 10 (((a.head hroom).bytes ++ x).drop
    (httpFieldLookup ((a.head hroom).bytes ++ x) (a.head hroom).places.headers
      (str "Content-Length")).base) = a.body.length := by
  have hline := find_length a
  generalize hf : lengthField a.body.length = f at hline
  have hvalue : f.value = lengthValue a.body.length := by
    rw [← hf]
    rfl
  rw [head_bytes_eq]
  rcases FieldLine.find_fields (a.head hroom).headers (a.head hroom).statusLine
    ((a.head hroom).last.bytes ++ x) (str "Content-Length") with
      ⟨hnone, -⟩ | ⟨g, p, q, hsome, hsplit, hfields⟩
  · cases hnone.symm.trans hline
  · obtain rfl : g = f.line := Option.some.inj (hsome.symm.trans hline)
    have hne : f.line.value ≠ [] := by
      rw [f.value_line, hvalue]
      exact decimal_ne_nil _
    have hfields : (a.head hroom).places.headers.find? (fun g => g.name.equalCase
        ((a.head hroom).statusLine ++ ((a.head hroom).headers.flatMap FieldLine.bytes ++
          ((a.head hroom).last.bytes ++ x))) (str "Content-Length")) =
        some (f.line.field p.length) := hfields
    unfold httpFieldLookup
    rw [hfields, hsplit, f.line.number_between (by rintro ⟨⟩) hne]
    show strtoul 10 (f.value.bytes ++ [cr, 10]) = _
    rw [hvalue]
    exact strtoul_decimal (by have := a.body_lt; omega) [10]

end Answer

theorem replyNext_nil (sse : Bool) (room : ℕ) (behind : Bytes → Bytes) :
    replyNext sse room behind [] = .incomplete := by
  have hclosed : ¬ VersionOpen [] := by
    rintro ⟨v, -, n, h⟩
    cases (List.append_eq_nil_iff.mp h.symm).2
  unfold replyNext
  rw [parseResponse_closed hclosed]
  rfl

section Read

variable {sse : Bool} {room : ℕ} {behind : Bytes → Bytes} {a : Answer} (hfits : a.Fits room)
include hfits

theorem Answer.Fits.head_lt : (a.head hfits.1).bytes.length < 2 ^ 31 := by
  have hlength := congrArg List.length (a.text_eq hfits.1)
  rw [List.length_append] at hlength
  have := hfits.2
  omega

/-- What is read behind the head of an answer. -/
theorem replyNext_head (x : Bytes) : replyNext sse room behind ((a.head hfits.1).bytes ++ x) =
    if x.length < a.body.length then .incomplete
    else .complete ((a.head hfits.1).bytes.length + a.body.length)
      { a.contents with body := x.take a.body.length } := by
  have hpos := (a.head hfits.1).length_pos
  have hle : ¬ (((a.head hfits.1).bytes.length : ℕ) : ℤ) ≤ 0 := by omega
  have hdrop : ((a.head hfits.1).bytes ++ x).drop (a.head hfits.1).bytes.length = x :=
    List.drop_left
  unfold replyNext
  rw [phrParseResponse_bytes _ hfits.head_lt]
  simp only [if_neg hle, Int.toNat_natCast, Answer.length_between, Answer.fields_between,
    Answer.message_between, hdrop, List.length_append, Nat.add_lt_add_iff_left]
  rfl

/-- An answer is read where it was written. -/
theorem replyNext_text (rest : Bytes) :
    replyNext sse room behind (a.text ++ rest) = .complete a.text.length a.contents := by
  rw [a.text_eq hfits.1, List.append_assoc, replyNext_head hfits, List.length_append,
    if_neg (by omega), List.take_left, List.length_append]
  rfl

/-- An answer that is cut off is waited for. -/
theorem replyNext_partial (hbehind : ∀ b, (behind b).all (fun c => c == space) = false)
    {p x : Bytes} (hp : p ++ x = a.text) (hx : x ≠ []) :
    replyNext sse room behind p = .incomplete := by
  rw [a.text_eq hfits.1] at hp
  rcases List.append_eq_append_iff.mp hp with ⟨y, hhead, hrest⟩ | ⟨b, rfl, hbody⟩
  · by_cases hy : y = []
    · rw [hy, List.append_nil] at hhead
      rw [hy, List.nil_append] at hrest
      have hpos := List.length_pos_iff.mpr hx
      rw [hrest] at hpos
      rw [← hhead, ← List.append_nil (a.head hfits.1).bytes, replyNext_head hfits,
        if_pos (by simpa using hpos)]
    · obtain ⟨reply, hcall⟩ := phrParseResponse_partial sse hhead.symm hy (hbehind p)
      unfold replyNext
      rw [hcall]
      rfl
  · have hpos := List.length_pos_iff.mpr hx
    have hlength := congrArg List.length hbody
    rw [List.length_append] at hlength
    rw [replyNext_head hfits, if_pos (by omega)]

end Read

def answersText (as : List Answer) : Bytes := as.flatMap Answer.text

/-- Answers written one behind the other are read as they were given, and a part of another is
waited for. -/
theorem frames_answers (sse : Bool) {room : ℕ} {behind : Bytes → Bytes} {as : List Answer}
    (has : ∀ a ∈ as, a.Fits room) {p : Bytes} (hp : replyNext sse room behind p = .incomplete) :
    Frames (replyNext sse room behind) (answersText as ++ p) (as.map Answer.contents)
      (.waiting p) := by
  induction as with
  | nil => exact .incomplete hp
  | cons a as ih =>
    have htext : answersText (a :: as) ++ p = a.text ++ (answersText as ++ p) := by
      rw [answersText, List.flatMap_cons, List.append_assoc]
      rfl
    rw [htext]
    refine .complete (replyNext_text (has a List.mem_cons_self) _) ?_
    rw [List.drop_left]
    exact ih fun a' ha' => has a' (List.mem_cons_of_mem a ha')

/-- The part of some answers that has arrived: whole answers, and a part of the next. -/
theorem exists_arrived (sse : Bool) {room : ℕ} {behind : Bytes → Bytes}
    (hbehind : ∀ b, (behind b).all (fun c => c == space) = false) {as : List Answer}
    (has : ∀ a ∈ as, a.Fits room) {b y : Bytes} (h : b ++ y = answersText as) :
    ∃ k ≤ as.length, ∃ p,
      b = answersText (as.take k) ++ p ∧ replyNext sse room behind p = .incomplete ∧
        (y = [] → k = as.length ∧ p = []) := by
  induction as generalizing b with
  | nil =>
    obtain ⟨rfl, rfl⟩ := List.append_eq_nil_iff.mp h
    exact ⟨0, Nat.le_refl 0, [], rfl, replyNext_nil sse room behind, fun _ => ⟨rfl, rfl⟩⟩
  | cons a as ih =>
    have hcons : answersText (a :: as) = a.text ++ answersText as := List.flatMap_cons
    rw [hcons] at h
    rcases List.append_eq_append_iff.mp h with ⟨x, hx, hy⟩ | ⟨c, rfl, hc⟩
    · by_cases hnil : x = []
      · rw [hnil, List.append_nil] at hx
        rw [hnil, List.nil_append] at hy
        obtain ⟨k, hk, p, hp, hnext, hend⟩ := ih (b := [])
          (fun a' ha' => has a' (List.mem_cons_of_mem a ha')) hy
        refine ⟨k + 1, Nat.succ_le_succ hk, p, ?_, hnext, fun hy => ?_⟩
        · rw [List.take_succ_cons, answersText, List.flatMap_cons, List.append_assoc, hx]
          show b = b ++ (answersText (as.take k) ++ p)
          rw [← hp, List.append_nil]
        · exact ⟨congrArg Nat.succ (hend hy).1, (hend hy).2⟩
      · refine ⟨0, Nat.zero_le _, b, rfl,
          replyNext_partial (has a List.mem_cons_self) hbehind hx.symm hnil, fun hnone => ?_⟩
        rw [hnone] at hy
        exact absurd (List.append_eq_nil_iff.mp hy.symm).1 hnil
    · obtain ⟨k, hk, p, rfl, hnext, hend⟩ := ih (b := c)
        (fun a' ha' => has a' (List.mem_cons_of_mem a ha')) hc.symm
      refine ⟨k + 1, Nat.succ_le_succ hk, p, ?_, hnext, fun hy => ?_⟩
      · rw [List.take_succ_cons, answersText, answersText, List.flatMap_cons, List.append_assoc]
      · exact ⟨congrArg Nat.succ (hend hy).1, (hend hy).2⟩

theorem noCtl_of_all {s : Bytes} (h : s.all (fun c => !isCtl c) = true) :
    ∀ c ∈ s, isCtl c = false := by
  intro c hc
  simpa using List.all_eq_true.mp h c hc

def helloAnswer : Answer where
  status := 200
  reason := str "OK"
  date := {
    bytes := sampleDate
    noCtl := noCtl_of_all rfl
    first := by
      rintro _ ⟨⟩
      rfl
    last := by
      rintro _ ⟨⟩
      rfl }
  type := {
    bytes := str "text/plain"
    noCtl := noCtl_of_all rfl
    first := by
      rintro _ ⟨⟩
      rfl
    last := by
      rintro _ ⟨⟩
      rfl }
  body := str "Hello"
  fields := []
  status_lt := by decide
  reason_noCtl := noCtl_of_all rfl
  reason_first := by
    rintro _ ⟨⟩
    decide
  date_length := rfl
  body_lt := by decide

end LibReactor.Phr
