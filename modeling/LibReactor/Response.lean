import LibReactor.LengthText
import LibReactor.Stream

/-!
# HTTP responses

`http_write_response` adds up the sizes of a response's parts, allocates as many bytes
behind the output that waits and stores the parts there one behind the other. What
memory holds before the stores is a parameter: the response does not depend on it.
-/

namespace LibReactor

structure ResponseField where
  name : Bytes
  value : Bytes
  deriving DecidableEq, Repr

/-! ## Stores -/

def httpPushData (p : Region) (d : Bytes) : Except Fault Region := p.push d

def httpPushByte (p : Region) (c : UInt8) : Except Fault Region := p.push [c]

def httpPushField (p : Region) (field : ResponseField) : Except Fault Region := do
  let p ← httpPushData p field.name
  let p ← httpPushByte p (ch ':')
  let p ← httpPushByte p (ch ' ')
  let p ← httpPushData p field.value
  let p ← httpPushByte p cr
  httpPushByte p lf

/-- The Content-Length value that both writers print into sixteen bytes of their stack. -/
def contentLengthValue (stack : ℕ → UInt8) (size : ℕ) : Except Fault Bytes := do
  let lengthSize := httpU32Len (size % 2 ^ 32)
  let string ← httpU32Sprint (size % 2 ^ 32) ⟨(List.range 16).map stack, lengthSize⟩
  return string.memory.take lengthSize

section Write

variable (stack memory : ℕ → UInt8) (stream : Stream) (status date type body : Bytes)

/-- `http_write_response_basic`: the stream, and the pointer behind the last store -/
def httpWriteResponseBasic : Except Fault (Stream × ℕ) := do
  let length ← contentLengthValue stack body.length
  let size := (9 + status.length + 2 + 11 + 37 + 16 + type.length + 18 + length.length + 2 +
    body.length) % 2 ^ 64
  let (p, stream) := stream.allocate size memory
  let p : Region := ⟨stream.outputWaiting.data, p⟩
  let p ← httpPushData p (str "HTTP/1.1 ")
  let p ← httpPushData p status
  let p ← httpPushData p (str "\r\n")
  let p ← httpPushField p ⟨str "Server", str "*"⟩
  let p ← httpPushField p ⟨str "Date", date⟩
  let p ← httpPushField p ⟨str "Content-Type", type⟩
  let p ← httpPushField p ⟨str "Content-Length", length⟩
  let p ← httpPushData p (str "\r\n")
  let p ← httpPushData p body
  return ({ stream with outputWaiting := { stream.outputWaiting with data := p.memory } },
    p.pointer)

def httpWriteResponseExtended (fields : List ResponseField) : Except Fault (Stream × ℕ) := do
  let length ← contentLengthValue stack body.length
  let size := (9 + status.length + 2 + 11 + 37 + 16 + type.length + 18 + length.length + 2 +
    body.length) % 2 ^ 64
  let size := fields.foldl
    (fun size f => (size + (f.name.length + 2 + f.value.length + 2)) % 2 ^ 64) size
  let (p, stream) := stream.allocate size memory
  let p : Region := ⟨stream.outputWaiting.data, p⟩
  let p ← httpPushData p (str "HTTP/1.1 ")
  let p ← httpPushData p status
  let p ← httpPushData p (str "\r\n")
  let p ← httpPushField p ⟨str "Server", str "*"⟩
  let p ← httpPushField p ⟨str "Date", date⟩
  let p ← httpPushField p ⟨str "Content-Type", type⟩
  let p ← httpPushField p ⟨str "Content-Length", length⟩
  let p ← fields.foldlM httpPushField p
  let p ← httpPushData p (str "\r\n")
  let p ← httpPushData p body
  return ({ stream with outputWaiting := { stream.outputWaiting with data := p.memory } },
    p.pointer)

def httpWriteResponse (fields : List ResponseField) : Except Fault (Stream × ℕ) :=
  if fields.length = 0 then httpWriteResponseBasic stack memory stream status date type body
  else httpWriteResponseExtended stack memory stream status date type body fields

end Write

/-! ## The text of a response -/

def ResponseField.text (f : ResponseField) : Bytes :=
  f.name ++ (str ": " ++ (f.value ++ str "\r\n"))

def responseText (status date type length : Bytes) (fields : List ResponseField) (body : Bytes) :
    Bytes :=
  str "HTTP/1.1 " ++ (status ++ (str "\r\n" ++ (ResponseField.text ⟨str "Server", str "*"⟩ ++
    (ResponseField.text ⟨str "Date", date⟩ ++ (ResponseField.text ⟨str "Content-Type", type⟩ ++
      (ResponseField.text ⟨str "Content-Length", length⟩ ++
        (fields.flatMap ResponseField.text ++ (str "\r\n" ++ body))))))))

/-! ## Stores one behind the other are one store -/

namespace Region

theorem push_eq {r : Region} {d : Bytes} (h : r.pointer + d.length ≤ r.memory.length) :
    r.push d = .ok ⟨write r.memory r.pointer d, r.pointer + d.length⟩ := if_pos h

theorem push_push (r : Region) (a b : Bytes) :
    (r.push a >>= fun p => p.push b) = r.push (a ++ b) := by
  by_cases ha : r.pointer + a.length ≤ r.memory.length
  · have hlength : (write r.memory r.pointer a).length = r.memory.length := length_write ha
    rw [push_eq ha, ok_bind, push, push, hlength, List.length_append, Nat.add_assoc,
      write_write (by omega)]
  · rw [push, if_neg ha, push, List.length_append, if_neg (by omega), error_bind]

theorem push_push_bind {α : Type} (r : Region) (a b : Bytes) (k : Region → Except Fault α) :
    (r.push a >>= fun p => p.push b >>= k) = (r.push (a ++ b) >>= k) := by
  rw [← push_push, bind_assoc]

end Region

theorem httpPushField_eq (p : Region) (f : ResponseField) : httpPushField p f = p.push f.text := by
  have hcolon : [ch ':'] ++ [ch ' '] = str ": " := rfl
  have hend : [cr] ++ [lf] = str "\r\n" := rfl
  rw [ResponseField.text, ← hcolon, ← hend]
  simp only [httpPushField, httpPushData, httpPushByte, Region.push_push, List.append_assoc]

theorem foldlM_httpPushField {α : Type} (fields : List ResponseField) (r : Region) (a : Bytes)
    (k : Region → Except Fault α) :
    (r.push a >>= fun p => fields.foldlM httpPushField p >>= k) =
      (r.push (a ++ fields.flatMap ResponseField.text) >>= k) := by
  induction fields generalizing a with
  | nil => simp
  | cons f fields ih =>
    simp only [List.foldlM_cons, httpPushField_eq, bind_assoc, Region.push_push_bind, ih,
      List.flatMap_cons, List.append_assoc]

/-! ## The writers -/

theorem contentLengthValue_eq (stack : ℕ → UInt8) (size : ℕ) :
    contentLengthValue stack size = .ok (decimal (size % 2 ^ 32)) := by
  have hlt : size % 2 ^ 32 < 2 ^ 32 := Nat.mod_lt _ (by decide)
  have hten : (decimal (size % 2 ^ 32)).length ≤ 10 :=
    length_decimal_le (Nat.lt_trans hlt (by decide)) (by decide)
  have hprint := httpU32Sprint_eq (size % 2 ^ 32)
    (r := ⟨(List.range 16).map stack, (decimal (size % 2 ^ 32)).length⟩) (Nat.le_refl _)
    (by simp only [List.length_map, List.length_range]; omega)
  have htake := take_write (m := (List.range 16).map stack) (b := decimal (size % 2 ^ 32))
    (Nat.zero_le _)
  rw [Nat.zero_add, List.take_zero, List.nil_append] at htake
  simp only [contentLengthValue, httpU32Len_eq hlt, hprint, ok_bind, Nat.sub_self, pure_eq_ok,
    htake]

def storeResponse (memory : ℕ → UInt8) (stream : Stream) (size : ℕ) (text : Bytes) :
    Except Fault (Stream × ℕ) := do
  let (p, stream) := stream.allocate size memory
  let p ← (⟨stream.outputWaiting.data, p⟩ : Region).push text
  return ({ stream with outputWaiting := { stream.outputWaiting with data := p.memory } },
    p.pointer)

theorem foldl_fieldSize (fields : List ResponseField) (n : ℕ) :
    fields.foldl (fun size f => (size + (f.name.length + 2 + f.value.length + 2)) % 2 ^ 64)
      (n % 2 ^ 64) = (n + (fields.flatMap ResponseField.text).length) % 2 ^ 64 := by
  induction fields generalizing n with
  | nil => simp
  | cons f fields ih =>
    have htext : f.text.length = f.name.length + 2 + f.value.length + 2 := by
      have hcolon : (str ": ").length = 2 := rfl
      have hend : (str "\r\n").length = 2 := rfl
      simp only [ResponseField.text, List.length_append, hcolon, hend]
      omega
    rw [List.foldl_cons, Nat.mod_add_mod, ih, List.flatMap_cons, List.length_append, htext,
      Nat.add_assoc]

section Write

variable (stack memory : ℕ → UInt8) (stream : Stream) (status date type body : Bytes)
  (fields : List ResponseField)

/-- The size the writers add up, which takes the date's size for granted. -/
def responseSize (status type length : Bytes) (fields : List ResponseField) (body : Bytes) : ℕ :=
  9 + status.length + 2 + 11 + 37 + 16 + type.length + 18 + length.length + 2 + body.length +
    (fields.flatMap ResponseField.text).length

theorem httpWriteResponseExtended_eq :
    httpWriteResponseExtended stack memory stream status date type body fields =
      storeResponse memory stream
        (responseSize status type (decimal (body.length % 2 ^ 32)) fields body % 2 ^ 64)
        (responseText status date type (decimal (body.length % 2 ^ 32)) fields body) := by
  simp only [httpWriteResponseExtended, contentLengthValue_eq, ok_bind, foldl_fieldSize,
    storeResponse, responseSize, httpPushData, httpPushField_eq, Region.push_push_bind,
    foldlM_httpPushField, responseText, List.append_assoc]

/-- Without fields both writers do the same. -/
theorem httpWriteResponseExtended_nil :
    httpWriteResponseExtended stack memory stream status date type body [] =
      httpWriteResponseBasic stack memory stream status date type body := by
  simp only [httpWriteResponseExtended, httpWriteResponseBasic, List.foldl_nil, List.foldlM_nil,
    pure_bind]

theorem httpWriteResponse_eq :
    httpWriteResponse stack memory stream status date type body fields =
      httpWriteResponseExtended stack memory stream status date type body fields := by
  unfold httpWriteResponse
  split_ifs with h
  · rw [List.length_eq_zero_iff.mp h, httpWriteResponseExtended_nil]
  · rfl

theorem length_responseText (length : Bytes) :
    (responseText status date type length fields body).length + 29 =
      responseSize status type length fields body + date.length := by
  have hliterals : (str "HTTP/1.1 ").length = 9 ∧ (str "\r\n").length = 2 ∧
      (str ": ").length = 2 ∧ (str "Server").length = 6 ∧ (str "*").length = 1 ∧
      (str "Date").length = 4 ∧ (str "Content-Type").length = 12 ∧
      (str "Content-Length").length = 14 := by decide
  obtain ⟨h1, h2, h3, h4, h5, h6, h7, h8⟩ := hliterals
  simp only [responseText, responseSize, ResponseField.text, List.length_append, h1, h2, h3, h4,
    h5, h6, h7, h8]
  omega

end Write

theorem write_length_append {a t b : Bytes} (h : t.length = b.length) :
    write (a ++ t) a.length b = a ++ b := by
  rw [write, List.take_left, List.drop_of_length_le (by rw [List.length_append]; omega),
    List.append_nil]

/-- A response that is as long as the size that was added up is written like any other data. -/
theorem storeResponse_eq (memory : ℕ → UInt8) {stream : Stream} {text : Bytes}
    (hfits : stream.outputWaiting.size + text.length < 2 ^ 63) :
    storeResponse memory stream text.length text =
      .ok (stream.writeData text, stream.outputWaiting.size + text.length) := by
  have hsize : (stream.outputWaiting.size + text.length) % 2 ^ 64 =
      stream.outputWaiting.size + text.length := Nat.mod_eq_of_lt (by omega)
  have htail : ((List.range text.length).map memory).length = text.length := by simp
  have hdata : (stream.outputWaiting.data ++ (List.range text.length).map memory).take
      (stream.outputWaiting.size + text.length) =
      stream.outputWaiting.data ++ (List.range text.length).map memory := by
    refine List.take_of_length_le ?_
    rw [List.length_append, htail]
    exact Nat.le_refl _
  have hpush : (⟨stream.outputWaiting.data ++ (List.range text.length).map memory,
      stream.outputWaiting.size⟩ : Region).push text =
      .ok ⟨stream.outputWaiting.data ++ text, stream.outputWaiting.size + text.length⟩ := by
    rw [Region.push_eq (by simp [Buffer.size])]
    exact congrArg Except.ok (congrArg (Region.mk · _) (write_length_append htail))
  simp only [storeResponse, Stream.allocate, Buffer.allocate, hsize, Buffer.data_resize, hdata,
    hpush, ok_bind, pure_eq_ok]
  rw [Buffer.capacity_resize, ← Buffer.data_append, ← Buffer.capacity_append]
  rfl

/-- The call stores the text behind the output that waits and nothing else: the pointer ends
behind the last allocated byte, and the allocated bytes lie in the buffer. -/
def FillsAllocation (stream : Stream) (text : Bytes) (call : Except Fault (Stream × ℕ)) : Prop :=
  ∃ stream' p, call = .ok (stream', p) ∧ stream' = stream.writeData text ∧
    stream'.outputWaiting.data = stream.outputWaiting.data ++ text ∧
    p = stream'.outputWaiting.size ∧ stream'.outputWaiting.size ≤ stream'.outputWaiting.capacity

theorem fillsAllocation_storeResponse (memory : ℕ → UInt8) {stream : Stream} {text : Bytes}
    (hfits : stream.outputWaiting.size + text.length < 2 ^ 63) :
    FillsAllocation stream text (storeResponse memory stream (text.length % 2 ^ 64) text) := by
  rw [Nat.mod_eq_of_lt (by omega)]
  refine ⟨_, _, storeResponse_eq memory hfits, rfl, Buffer.data_append .., ?_, ?_⟩
  · simp only [Stream.writeData, Buffer.size, Buffer.data_append, List.length_append]
  · simp only [Stream.writeData, Buffer.size, Buffer.data_append, Buffer.capacity_append,
      List.length_append]
    unfold Buffer.reserve
    split_ifs with hgrow
    · exact le_roundup (by omega) (Nat.le_of_lt hfits)
    · omega

/-- Both writers fill exactly what they allocate, whatever memory holds before, and without
fields they do the same. -/
theorem httpWriteResponse_fills {date : Bytes} (hdate : date.length = 29)
    (stack memory : ℕ → UInt8) (stream : Stream) (status type body : Bytes) :
    let text := responseText status date type (decimal (body.length % 2 ^ 32))
    (∀ fields, stream.outputWaiting.size + (text fields body).length < 2 ^ 63 →
      FillsAllocation stream (text fields body)
        (httpWriteResponseExtended stack memory stream status date type body fields) ∧
      FillsAllocation stream (text fields body)
        (httpWriteResponse stack memory stream status date type body fields)) ∧
    (stream.outputWaiting.size + (text [] body).length < 2 ^ 63 →
      FillsAllocation stream (text [] body)
        (httpWriteResponseBasic stack memory stream status date type body)) ∧
    httpWriteResponseExtended stack memory stream status date type body [] =
      httpWriteResponseBasic stack memory stream status date type body := by
  intro text
  have hextended : ∀ fields, stream.outputWaiting.size + (text fields body).length < 2 ^ 63 →
      FillsAllocation stream (text fields body)
        (httpWriteResponseExtended stack memory stream status date type body fields) := by
    intro fields hfits
    have hlength :=
      length_responseText status date type body fields (decimal (body.length % 2 ^ 32))
    have hsize : responseSize status type (decimal (body.length % 2 ^ 32)) fields body =
        (text fields body).length := by
      simp only [text]
      omega
    rw [httpWriteResponseExtended_eq, hsize]
    exact fillsAllocation_storeResponse memory hfits
  refine ⟨fun fields hfits => ⟨hextended fields hfits, ?_⟩, fun hfits => ?_, ?_⟩
  · rw [httpWriteResponse_eq]
    exact hextended fields hfits
  · rw [← httpWriteResponseExtended_nil]
    exact hextended [] hfits
  · exact httpWriteResponseExtended_nil stack memory stream status date type body

/-! ## The length in the response -/

theorem digits_unique {a b x y : Bytes} {c : UInt8} (ha : ∀ d ∈ a, isdigit d = true)
    (hb : ∀ d ∈ b, isdigit d = true) (hc : isdigit c = false) (h : a ++ c :: x = b ++ c :: y) :
    a = b := by
  have htake := congrArg (List.takeWhile isdigit) h
  rwa [List.takeWhile_append_of_pos ha, List.takeWhile_append_of_pos hb,
    List.takeWhile_cons_of_neg (by simp [hc]), List.takeWhile_cons_of_neg (by simp [hc]),
    List.append_nil, List.append_nil] at htake

/-- Responses that begin in the same way have the same length in them. -/
theorem responseText_length_unique {status date type body a b x y : Bytes}
    {fields : List ResponseField} (ha : ∀ d ∈ a, isdigit d = true) (hb : ∀ d ∈ b, isdigit d = true)
    (h : responseText status date type a fields body ++ x =
      responseText status date type b fields body ++ y) : a = b := by
  have hend : str "\r\n" = cr :: [lf] := rfl
  simp only [responseText, ResponseField.text, List.append_assoc, List.append_cancel_left_eq] at h
  rw [hend, List.cons_append, List.cons_append] at h
  exact digits_unique ha hb (by decide) h

/-- A call that stores only inside its allocation leaves the text behind what waited. -/
theorem storeResponse_prefix {memory : ℕ → UInt8} {stream stream' : Stream} {size p : ℕ}
    {text : Bytes} (h : storeResponse memory stream size text = .ok (stream', p)) :
    stream.outputWaiting.data ++ text <+: stream'.outputWaiting.data := by
  simp only [storeResponse, Stream.allocate, Buffer.allocate, Buffer.data_resize] at h
  generalize hgrown : (stream.outputWaiting.data ++ (List.range size).map memory).take
    ((stream.outputWaiting.size + size) % 2 ^ 64) = grown at h
  by_cases hfits : stream.outputWaiting.size + text.length ≤ grown.length
  · rw [Region.push_eq hfits, ok_bind, pure_eq_ok] at h
    obtain ⟨rfl, -⟩ := Prod.mk.inj (Except.ok.inj h)
    have htake : grown.take stream.outputWaiting.size = stream.outputWaiting.data := by
      have hle : grown.length ≤ (stream.outputWaiting.size + size) % 2 ^ 64 := by
        rw [← hgrown, List.length_take]
        exact Nat.min_le_left _ _
      rw [← hgrown, List.take_take, Nat.min_eq_left (by omega)]
      exact List.take_left
    refine ⟨grown.drop (stream.outputWaiting.size + text.length), ?_⟩
    show _ = write grown stream.outputWaiting.size text
    rw [write, htake, List.append_assoc]
  · rw [Region.push, if_neg hfits, error_bind] at h
    cases h

/-- The text with a length is found behind what waited exactly when that length is printed. -/
theorem httpWriteResponse_prefix_iff {stack memory : ℕ → UInt8} {stream stream' : Stream}
    {status date type body : Bytes} {fields : List ResponseField} {p : ℕ}
    (hcall : httpWriteResponse stack memory stream status date type body fields =
      .ok (stream', p)) :
    stream.outputWaiting.data ++ responseText status date type (decimal body.length) fields body <+:
      stream'.outputWaiting.data ↔ body.length % 2 ^ 32 = body.length := by
  rw [httpWriteResponse_eq, httpWriteResponseExtended_eq] at hcall
  obtain ⟨x, hx⟩ := storeResponse_prefix hcall
  constructor
  · rintro ⟨y, hy⟩
    rw [← hx, List.append_assoc, List.append_assoc, List.append_cancel_left_eq] at hy
    exact (decimal_injective
      (responseText_length_unique (isdigit_decimal _) (isdigit_decimal _) hy)).symm
  · intro h
    rw [h] at hx
    exact ⟨x, hx⟩

/-- The Content-Length of a response is the number of its body's bytes exactly when that number
has 32 bits. -/
theorem httpWriteResponse_contentLength_iff (stack memory : ℕ → UInt8) :
    (∀ size, contentLengthValue stack size = .ok (decimal size) ↔ size < 2 ^ 32) ∧
    ∀ stream status date type body fields stream' p,
      httpWriteResponse stack memory stream status date type body fields = .ok (stream', p) →
      (stream.outputWaiting.data ++
          responseText status date type (decimal body.length) fields body <+:
        stream'.outputWaiting.data ↔ body.length < 2 ^ 32) := by
  refine ⟨fun size => ?_, ?_⟩
  · rw [contentLengthValue_eq, Except.ok.injEq]
    constructor
    · intro h
      have := decimal_injective h
      omega
    · intro h
      rw [Nat.mod_eq_of_lt h]
  · intro stream status date type body fields stream' p hcall
    rw [httpWriteResponse_prefix_iff hcall]
    omega

/-! ## A response -/

def sampleDate : Bytes := str "Wed, 16 Aug 2023 10:29:23 GMT"

theorem sample_fits {body : Bytes} (h : body.length ≤ 2 ^ 32) :
    Stream.construct.outputWaiting.size + (responseText (str "200 OK") sampleDate (str "text/plain")
      (decimal (body.length % 2 ^ 32)) [] body).length < 2 ^ 63 := by
  have hlength := length_responseText (str "200 OK") sampleDate (str "text/plain") body []
    (decimal (body.length % 2 ^ 32))
  have hdigits : (decimal (body.length % 2 ^ 32)).length ≤ 10 :=
    length_decimal_le (by omega) (by decide)
  have hliterals : (str "200 OK").length = 6 ∧ sampleDate.length = 29 ∧
      (str "text/plain").length = 10 ∧ Stream.construct.outputWaiting.size = 0 := by decide
  obtain ⟨h1, h2, h3, h4⟩ := hliterals
  simp only [responseSize, List.flatMap_nil, List.length_nil, h1, h2, h3] at hlength
  omega

theorem httpWriteResponse_fills_hello :
    FillsAllocation Stream.construct (responseText (str "200 OK") sampleDate (str "text/plain")
        (decimal ((str "Hello").length % 2 ^ 32)) [] (str "Hello"))
      (httpWriteResponseBasic (fun _ => 1) (fun _ => 2) Stream.construct (str "200 OK") sampleDate
        (str "text/plain") (str "Hello")) :=
  (httpWriteResponse_fills (by decide) (fun _ => 1) (fun _ => 2) Stream.construct (str "200 OK")
    (str "text/plain") (str "Hello")).2.1 (sample_fits (by decide))

theorem httpWriteResponse_sample {body : Bytes} (h : body.length ≤ 2 ^ 32) :
    ∃ stream' p, httpWriteResponse (fun _ => 1) (fun _ => 2) Stream.construct (str "200 OK")
      sampleDate (str "text/plain") body [] = .ok (stream', p) := by
  have hlength := length_responseText (str "200 OK") sampleDate (str "text/plain") body []
    (decimal (body.length % 2 ^ 32))
  have hdate : sampleDate.length = 29 := by decide
  obtain ⟨stream', p, hcall, -⟩ := fillsAllocation_storeResponse (fun _ => 2) (sample_fits h)
  rw [hdate] at hlength
  refine ⟨stream', p, ?_⟩
  rw [httpWriteResponse_eq, httpWriteResponseExtended_eq, ← Nat.add_right_cancel hlength]
  exact hcall

theorem httpWriteResponse_contentLength_hello : ∃ stream' p,
    httpWriteResponse (fun _ => 1) (fun _ => 2) Stream.construct (str "200 OK") sampleDate
      (str "text/plain") (str "Hello") [] = .ok (stream', p) ∧
    Stream.construct.outputWaiting.data ++ responseText (str "200 OK") sampleDate
      (str "text/plain") (decimal (str "Hello").length) [] (str "Hello") <+:
      stream'.outputWaiting.data := by
  obtain ⟨stream', p, hcall⟩ :=
    httpWriteResponse_sample (show (str "Hello").length ≤ 2 ^ 32 by decide)
  exact ⟨stream', p, hcall, ((httpWriteResponse_contentLength_iff (fun _ => 1) (fun _ => 2)).2
    _ _ _ _ _ _ _ _ hcall).mpr (by decide)⟩

/-- The length of four gigabytes is printed as 0. -/
theorem httpWriteResponse_fourGigabytes : ¬ ∀ (stack memory : ℕ → UInt8) (stream : Stream)
    (status date type body : Bytes) (fields : List ResponseField) (stream' : Stream) (p : ℕ),
    httpWriteResponse stack memory stream status date type body fields = .ok (stream', p) →
    stream.outputWaiting.data ++ responseText status date type (decimal body.length) fields body <+:
      stream'.outputWaiting.data := by
  intro h
  have hlen : (List.replicate (2 ^ 32) (0 : UInt8)).length = 2 ^ 32 := List.length_replicate
  obtain ⟨stream', p, hcall⟩ := httpWriteResponse_sample (Nat.le_of_eq hlen)
  have hmod := (httpWriteResponse_prefix_iff hcall).mp (h _ _ _ _ _ _ _ _ _ _ hcall)
  rw [hlen] at hmod
  exact absurd hmod (by decide)

end LibReactor
