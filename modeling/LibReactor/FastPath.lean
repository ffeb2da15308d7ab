import LibReactor.ReadRequest

/-!
# The fast path for GET

`http_read_request` takes a GET request to end with its header, before it looks at
the fields. `httpReadFields` is the function without this test. The two agree on a
GET request exactly when its fields declare no body.
-/

namespace LibReactor

/-- `http_read_request` without its test of the method -/
def httpReadFields (phr : Parser) (stream : Stream) (request : Request) :
    Except Fault (ℤ × Request × Stream) := do
  let input := stream.unread
  if input = [] then
    return (0, request, stream)
  let parsed := phr input
  let request :=
    { request with method := parsed.method, target := parsed.target, fields := parsed.fields }
  if parsed.ret ≤ 0 then
    return (if parsed.ret = -1 then -1 else 0, request, stream)
  let n := parsed.ret.toNat
  let request := { request with body := none }
  let encoding := httpFieldLookup input request.fields (str "Transfer-Encoding")
  let length := httpFieldLookup input request.fields (str "Content-Length")
  if length.size ≠ 0 then
    if encoding.size ≠ 0 then
      return (-1, request, stream)
    let size := strtoul 10 (input.drop length.base)
    if input.length < (n + size) % 2 ^ 64 then
      return (0, request, stream)
    return (1, { request with body := some ⟨n, size⟩ }, stream.consume ((n + size) % 2 ^ 64))
  if encoding.size ≠ 0 then
    if ¬ encoding.equalCase input (str "Chunked") then
      return (-1, request, stream)
    let (size, body, rest) ← httpDechunk (input.drop n)
    let stream := stream.overwrite n rest
    if size ≤ 0 then
      return (size, request, stream)
    return (1, { request with body := some (body.shift n) }, stream.consume (usize (n + size)))
  return (1, request, stream.consume n)

/-- What the caller sees of a call: its result, the bytes of the body, and the bytes consumed. -/
def framing (stream : Stream) (call : Except Fault (ℤ × Request × Stream)) :
    Except Fault (ℤ × Bytes × ℕ) := do
  let (ret, q, s) ← call
  let body := match q.body with
    | some d => d.bytes (s.input.data.drop stream.inputConsumed)
    | none => []
  return (ret, body, s.inputConsumed - stream.inputConsumed)

def Parsed.NoBody (p : Parsed) (input : Bytes) : Prop :=
  (p.encoding input).size = 0 ∧ ((p.length input).size = 0 ∨ p.contentLength input = 0)

section Fields

variable {phr : Parser} {stream : Stream} {p : Parsed} {n : ℕ} (hinput : stream.unread ≠ [])
  (hp : phr stream.unread = p) (hret : p.ret = n) (hn : 0 < n) (request : Request)

include hinput hp hret hn

/-- The general path on an unread input with a complete header. -/
theorem httpReadFields_complete :
    httpReadFields phr stream request =
      if (p.length stream.unread).size ≠ 0 then
        if (p.encoding stream.unread).size ≠ 0 then .ok (-1, p.request none, stream)
        else if stream.unread.length < (n + p.contentLength stream.unread) % 2 ^ 64 then
          .ok (0, p.request none, stream)
        else .ok (1, p.request (some ⟨n, p.contentLength stream.unread⟩),
          stream.consume ((n + p.contentLength stream.unread) % 2 ^ 64))
      else if (p.encoding stream.unread).size ≠ 0 then
        if ¬ (p.encoding stream.unread).equalCase stream.unread (str "Chunked") then
          .ok (-1, p.request none, stream)
        else do
          let (size, body, rest) ← httpDechunk (stream.unread.drop n)
          if size ≤ 0 then .ok (size, p.request none, stream.overwrite n rest)
          else .ok (1, p.request (some (body.shift n)),
            (stream.overwrite n rest).consume (usize (n + size)))
      else .ok (1, p.request none, stream.consume n) := by
  subst hp
  have hpos : ¬ (n : ℤ) ≤ 0 := by omega
  simp only [httpReadFields, if_neg hinput, hret, if_neg hpos, pure_eq_ok, Int.toNat_natCast]
  rfl

theorem httpReadRequest_of_get (hget : p.isGet stream.unread = true) :
    httpReadRequest phr stream request = .ok (1, p.request none, stream.consume n) := by
  rw [httpReadRequest_complete hinput hp hret hn, if_pos hget]

theorem httpReadRequest_of_not_get (hget : p.isGet stream.unread = false) :
    httpReadRequest phr stream request = httpReadFields phr stream request := by
  rw [httpReadRequest_complete hinput hp hret hn, if_neg (by simp [hget]),
    httpReadFields_complete hinput hp hret hn]

end Fields

/-- The general path on the fields consumes the header alone exactly when they declare no body. -/
theorem framing_httpReadFields_iff {phr : Parser} {stream : Stream} {n : ℕ}
    (hlen : stream.unread.length < 2 ^ 63) (hret : (phr stream.unread).ret = n) (hn : 0 < n)
    (hle : n ≤ stream.unread.length) (request : Request) :
    framing stream (httpReadFields phr stream request) = .ok (1, [], n) ↔
      (phr stream.unread).NoBody stream.unread := by
  obtain ⟨p, hp⟩ : ∃ p, phr stream.unread = p := ⟨_, rfl⟩
  rw [hp] at hret
  have hinput : stream.unread ≠ [] := by
    intro h
    rw [h, List.length_nil] at hle
    omega
  have hvalue : p.contentLength stream.unread < 2 ^ 64 := strtoul_lt _ _
  rw [hp, httpReadFields_complete hinput hp hret hn, Parsed.NoBody]
  by_cases hlength : (p.length stream.unread).size = 0
  · rw [if_neg (not_not.mpr hlength)]
    by_cases hencoding : (p.encoding stream.unread).size = 0
    · rw [if_neg (not_not.mpr hencoding)]
      simp [framing, Stream.consume, Parsed.request, hencoding, hlength]
    · rw [if_pos hencoding]
      refine iff_of_false ?_ (fun h => hencoding h.1)
      by_cases hchunked : (p.encoding stream.unread).equalCase stream.unread (str "Chunked") = true
      · rw [if_neg (not_not.mpr hchunked)]
        have hdrop : (stream.unread.drop n).length < 2 ^ 63 := by
          rw [List.length_drop]
          omega
        obtain ⟨k, body, hscan⟩ := Scan.exists_scan hdrop
        rw [httpDechunk_eq hdrop hscan]
        have hk := hscan.result hdrop
        rw [List.length_drop] at hk
        by_cases hkpos : k ≤ 0
        · simp only [if_pos hkpos, ok_bind]
          intro h
          simp [framing] at h
          omega
        · simp only [if_neg hkpos, ok_bind]
          have husize : usize (n + k) = n + k.toNat := by
            unfold usize
            omega
          intro h
          simp [framing, husize, Stream.consume, Stream.overwrite] at h
          omega
      · rw [if_pos hchunked]
        simp [framing]
  · rw [if_pos hlength]
    by_cases hencoding : (p.encoding stream.unread).size = 0
    · rw [if_neg (not_not.mpr hencoding)]
      by_cases hzero : p.contentLength stream.unread = 0
      · have hmod : (n + p.contentLength stream.unread) % 2 ^ 64 = n := by omega
        rw [hmod, if_neg (by omega), hzero]
        simp [framing, Stream.consume, Parsed.request, Data.bytes, hencoding]
      · refine iff_of_false ?_ (fun h => hzero (h.2.resolve_left hlength))
        split_ifs with hshort
        · simp [framing]
        · intro h
          simp [framing, Stream.consume] at h
          omega
    · rw [if_pos hencoding]
      refine iff_of_false ?_ (fun h => hencoding h.1)
      simp [framing]

/-- A GET request ends with its header, whatever its fields say; every other request is framed by
its fields. The two agree exactly on requests that are no GET or whose fields declare no body. -/
theorem httpReadRequest_framing {phr : Parser} {stream : Stream} (request : Request)
    (hlen : stream.unread.length < 2 ^ 63) (hpos : 0 < (phr stream.unread).ret)
    (hle : (phr stream.unread).ret ≤ stream.unread.length) :
    (framing stream (httpReadRequest phr stream request) =
      if (phr stream.unread).isGet stream.unread then .ok (1, [], (phr stream.unread).ret.toNat)
      else framing stream (httpReadFields phr stream request)) ∧
    (framing stream (httpReadRequest phr stream request) =
        framing stream (httpReadFields phr stream request) ↔
      (phr stream.unread).isGet stream.unread = false ∨
        (phr stream.unread).NoBody stream.unread) := by
  obtain ⟨n, hret⟩ : ∃ n : ℕ, (phr stream.unread).ret = n :=
    ⟨(phr stream.unread).ret.toNat, by omega⟩
  rw [hret] at hpos hle
  have hinput : stream.unread ≠ [] := by
    intro h
    rw [h, List.length_nil] at hle
    omega
  have hn : 0 < n := by omega
  rw [hret, Int.toNat_natCast]
  cases hget : (phr stream.unread).isGet stream.unread with
  | false =>
    rw [httpReadRequest_of_not_get hinput rfl hret hn request hget]
    simp
  | true =>
    rw [httpReadRequest_of_get hinput rfl hret hn request hget]
    have hframing : framing stream (.ok (1, (phr stream.unread).request none, stream.consume n)) =
        .ok (1, [], n) := by
      simp [framing, Stream.consume, Parsed.request]
    have hiff := framing_httpReadFields_iff hlen hret hn (by omega) request
    rw [hframing]
    refine ⟨rfl, fun h => .inr (hiff.mp h.symm), fun h => ?_⟩
    exact (hiff.mpr (h.resolve_left (Ne.symm Bool.false_ne_true))).symm

def getWithBody : Stream :=
  { Stream.construct with
    input := ⟨str "GET / HTTP/1.1\r\nContent-Length: 5\r\n\r\nhello", 16384⟩ }

def getWithBodyHeader : Parsed := ⟨37, ⟨0, 3⟩, ⟨4, 1⟩, [⟨⟨16, 14⟩, ⟨32, 1⟩⟩]⟩

/-- The declared body is left in the input as the next request. -/
theorem httpReadRequest_getWithBody : ¬ ∀ (phr : Parser) (stream : Stream) (request : Request),
    stream.unread.length < 2 ^ 63 → 0 < (phr stream.unread).ret →
    (phr stream.unread).ret ≤ stream.unread.length →
    framing stream (httpReadRequest phr stream request) =
      framing stream (httpReadFields phr stream request) := by
  intro h
  have heq := h (fun _ => getWithBodyHeader) getWithBody ⟨.null, .null, none, []⟩ (by decide)
    (by decide) (by decide)
  have hget : framing getWithBody (httpReadRequest (fun _ => getWithBodyHeader) getWithBody
      ⟨.null, .null, none, []⟩) = .ok (1, [], 37) := by rfl
  have hfields : framing getWithBody (httpReadFields (fun _ => getWithBodyHeader) getWithBody
      ⟨.null, .null, none, []⟩) = .ok (1, str "hello", 42) := by rfl
  rw [hget, hfields] at heq
  cases heq

theorem httpReadRequest_framing_getWithBody :
    (framing getWithBody (httpReadRequest (fun _ => getWithBodyHeader) getWithBody
        ⟨.null, .null, none, []⟩) =
      if getWithBodyHeader.isGet getWithBody.unread then .ok (1, [], 37)
      else framing getWithBody (httpReadFields (fun _ => getWithBodyHeader) getWithBody
        ⟨.null, .null, none, []⟩)) ∧
    (framing getWithBody (httpReadRequest (fun _ => getWithBodyHeader) getWithBody
        ⟨.null, .null, none, []⟩) =
      framing getWithBody (httpReadFields (fun _ => getWithBodyHeader) getWithBody
        ⟨.null, .null, none, []⟩) ↔
      getWithBodyHeader.isGet getWithBody.unread = false ∨
        getWithBodyHeader.NoBody getWithBody.unread) :=
  httpReadRequest_framing _ (by decide) (by decide) (by decide)

end LibReactor
