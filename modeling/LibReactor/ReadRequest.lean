import LibReactor.Chunk
import LibReactor.Framing

/-!
# Reading one request

`httpNext` is the request at the start of an input as a frame: its length, and the
bytes its parts hold. `http_read_request` finds this frame in the unread input, and
without a frame it leaves the stream as it was. Its bounds hold unless the length
check wraps round.
-/

namespace LibReactor

open Framing

structure Contents where
  method : Bytes
  target : Bytes
  body : Option Bytes
  fields : List (Bytes × Bytes)
  deriving DecidableEq, Repr

def Request.contents (q : Request) (input : Bytes) : Contents where
  method := q.method.bytes input
  target := q.target.bytes input
  body := q.body.map (fun d => d.bytes input)
  fields := q.fields.map (fun f => (f.name.bytes input, f.value.bytes input))

namespace Parsed

def request (p : Parsed) (body : Option Data) : Request := ⟨p.method, p.target, body, p.fields⟩

def isGet (p : Parsed) (input : Bytes) : Bool := p.method.equal input (str "GET")

def encoding (p : Parsed) (input : Bytes) : Data :=
  httpFieldLookup input p.fields (str "Transfer-Encoding")

def length (p : Parsed) (input : Bytes) : Data :=
  httpFieldLookup input p.fields (str "Content-Length")

def contentLength (p : Parsed) (input : Bytes) : ℕ :=
  strtoul 10 (input.drop (p.length input).base)

end Parsed

/-- The frame of a header of `n` bytes whose field Content-Length is not empty. -/
def lengthFrame (p : Parsed) (input : Bytes) (n : ℕ) : Frame Contents :=
  if (p.encoding input).size ≠ 0 then .error
  else if input.length < (n + p.contentLength input) % 2 ^ 64 then .incomplete
  else .complete ((n + p.contentLength input) % 2 ^ 64)
    ((p.request (some ⟨n, p.contentLength input⟩)).contents input)

def chunkedFrame (p : Parsed) (input : Bytes) (n : ℕ) : Frame Contents :=
  if ¬ (p.encoding input).equalCase input (str "Chunked") then .error
  else match httpDechunk (input.drop n) with
    | .error _ => .error
    | .ok (size, body, rest) =>
      if size = 0 then .incomplete
      else if size < 0 then .error
      else .complete (n + size.toNat)
        ((p.request (some (body.shift n))).contents (input.take n ++ rest))

def httpNext (phr : Parser) (input : Bytes) : Frame Contents :=
  let p := phr input
  let n := p.ret.toNat
  if input = [] then .incomplete
  else if p.ret ≤ 0 then (if p.ret = -1 then .error else .incomplete)
  else if p.isGet input then .complete n ((p.request none).contents input)
  else if (p.length input).size ≠ 0 then lengthFrame p input n
  else if (p.encoding input).size ≠ 0 then chunkedFrame p input n
  else .complete n ((p.request none).contents input)

@[simp] theorem httpNext_nil (phr : Parser) : httpNext phr [] = .incomplete := by
  simp [httpNext]

theorem httpNext_header {phr : Parser} {input : Bytes} (hinput : input ≠ [])
    (hret : (phr input).ret ≤ 0) :
    httpNext phr input = if (phr input).ret = -1 then .error else .incomplete := by
  simp only [httpNext, if_neg hinput, if_pos hret]

theorem chunkedFrame_eq {p : Parsed} {input body : Bytes} {n : ℕ} {k : ℤ}
    (hlen : input.length < 2 ^ 63) (hscan : Scan (input.drop n) k body) :
    chunkedFrame p input n =
      if ¬ (p.encoding input).equalCase input (str "Chunked") then .error
      else if k = 0 then .incomplete
      else if k < 0 then .error
      else .complete (n + k.toNat)
        ((p.request (some ⟨n, body.length⟩)).contents (write input n body)) := by
  have hdrop : (input.drop n).length < 2 ^ 63 := by
    rw [List.length_drop]
    omega
  unfold chunkedFrame
  rw [httpDechunk_eq hdrop hscan]
  by_cases hk : k ≤ 0
  · simp only [if_pos hk]
    split_ifs <;> first | rfl | omega
  · simp only [if_neg hk, write_zero_drop]
    rfl

theorem httpReadRequest_nil (phr : Parser) {stream : Stream} (h : stream.unread = [])
    (request : Request) : httpReadRequest phr stream request = .ok (0, request, stream) :=
  if_pos h

theorem httpReadRequest_header {phr : Parser} {stream : Stream} (hinput : stream.unread ≠ [])
    (hret : (phr stream.unread).ret ≤ 0) (request : Request) :
    httpReadRequest phr stream request =
      .ok (if (phr stream.unread).ret = -1 then -1 else 0,
        (phr stream.unread).request request.body, stream) := by
  simp only [httpReadRequest, if_neg hinput, if_pos hret, pure_eq_ok]
  rfl

/-- The call on an unread input with a complete header. -/
theorem httpReadRequest_complete {phr : Parser} {stream : Stream} {p : Parsed} {n : ℕ}
    (hinput : stream.unread ≠ []) (hp : phr stream.unread = p) (hret : p.ret = n) (hn : 0 < n)
    (request : Request) :
    httpReadRequest phr stream request =
      if p.isGet stream.unread then .ok (1, p.request none, stream.consume n)
      else if (p.length stream.unread).size ≠ 0 then
        if (p.encoding stream.unread).size ≠ 0 then .ok (-1, p.request none, stream)
        else if stream.unread.length < (n + p.contentLength stream.unread) % 2 ^ 64 then
          .ok (0, p.request none, stream)
        else .ok (1, p.request (some ⟨n, p.contentLength stream.unread⟩),
          stream.consume ((n + p.contentLength stream.unread) % 2 ^ 64))
      else if (p.encoding stream.unread).size ≠ 0 then
        if ¬ (p.encoding stream.unread).equalCase stream.unread (str "Chunked") then
          .ok (-1, p.request none, stream)
        else do
          let (size, body, rest) ← httpDechunk (stream.unread.drop n)
          if size ≤ 0 then .ok (size, p.request none, stream.overwrite n rest)
          else .ok (1, p.request (some (body.shift n)),
            (stream.overwrite n rest).consume (usize (n + size)))
      else .ok (1, p.request none, stream.consume n) := by
  subst hp
  have hpos : ¬ (n : ℤ) ≤ 0 := by omega
  simp only [httpReadRequest, if_neg hinput, hret, if_neg hpos, pure_eq_ok, Int.toNat_natCast]
  rfl

structure Consumes (s s' : Stream) (q : Request) (n : ℕ) (c : Contents) : Prop where
  unread : s'.unread = s.unread.drop n
  consumed : s'.inputConsumed = s.inputConsumed + n
  contents : q.contents (s'.input.data.drop s.inputConsumed) = c
  size : s'.input.data.length = s.input.data.length
  frame : s' = { s with input := s'.input, inputConsumed := s'.inputConsumed }

theorem consumes_consume (s : Stream) (q : Request) (n : ℕ) :
    Consumes s (s.consume n) q n (q.contents s.unread) where
  unread := (List.drop_drop ..).symm
  consumed := rfl
  contents := rfl
  size := rfl
  frame := rfl

/-- A call touches the input buffer of the stream and no other field. -/
theorem httpReadRequest_frame {phr : Parser} {s s' : Stream} {q q' : Request} {n : ℤ}
    (h : httpReadRequest phr s q = .ok (n, q', s')) :
    s' = { s with input := s'.input, inputConsumed := s'.inputConsumed } := by
  unfold httpReadRequest at h
  cases hbody : httpDechunk (s.unread.drop (phr s.unread).ret.toNat) with
  | error e =>
    simp only [pure_eq_ok, hbody, error_bind] at h
    split_ifs at h <;> cases h <;> rfl
  | ok body =>
    simp only [pure_eq_ok, hbody, ok_bind] at h
    split_ifs at h <;> cases h <;> rfl

namespace Stream

theorem unread_overwrite {s : Stream} (h : s.inputConsumed ≤ s.input.data.length) (n : ℕ)
    (rest : Bytes) : (s.overwrite n rest).unread = s.unread.take n ++ rest := by
  have htake : (s.input.data.take (s.inputConsumed + n)).drop s.inputConsumed =
    s.unread.take n := by
    rw [List.drop_take, Nat.add_sub_cancel_left]
    rfl
  show (s.input.data.take (s.inputConsumed + n) ++ rest).drop s.inputConsumed = _
  by_cases hle : s.inputConsumed + n ≤ s.input.data.length
  · rw [List.drop_append_of_le_length (by rw [List.length_take]; omega), htake]
  · rw [List.drop_append_of_le_length (by rw [List.length_take]; omega), htake]

theorem overwrite_self (s : Stream) (n : ℕ) : s.overwrite n (s.unread.drop n) = s := by
  simp only [overwrite, unread, List.drop_drop, List.take_append_drop]

end Stream

/-- The call finds the frame at the start of the unread input, and without one it leaves the
stream as it was. -/
theorem httpReadRequest_next {phr : Parser} {s : Stream}
    (hconsumed : s.inputConsumed ≤ s.input.data.length) (hlen : s.unread.length < 2 ^ 63)
    (hle : (phr s.unread).ret ≤ s.unread.length) (q : Request) :
    (httpNext phr s.unread = .incomplete ∧ ∃ q', httpReadRequest phr s q = .ok (0, q', s)) ∨
    (httpNext phr s.unread = .error ∧ ∃ q', httpReadRequest phr s q = .ok (-1, q', s)) ∨
    ∃ n c q' s', httpNext phr s.unread = .complete n c ∧
      httpReadRequest phr s q = .ok (1, q', s') ∧ Consumes s s' q' n c := by
  by_cases hinput : s.unread = []
  · exact .inl ⟨by rw [hinput, httpNext_nil], q, httpReadRequest_nil phr hinput q⟩
  by_cases hret : (phr s.unread).ret ≤ 0
  · have hcall := httpReadRequest_header hinput hret q
    have hnext := httpNext_header hinput hret
    split_ifs at hcall hnext
    · exact .inr (.inl ⟨hnext, _, hcall⟩)
    · exact .inl ⟨hnext, _, hcall⟩
  obtain ⟨p, hp⟩ : ∃ p, phr s.unread = p := ⟨_, rfl⟩
  rw [hp] at hle hret
  obtain ⟨n, hn⟩ : ∃ n : ℕ, p.ret = n := ⟨p.ret.toNat, by omega⟩
  rw [hn] at hle hret
  have hcall := httpReadRequest_complete hinput hp hn (by omega) q
  have hnext : httpNext phr s.unread = if p.isGet s.unread then
      .complete n ((p.request none).contents s.unread)
    else if (p.length s.unread).size ≠ 0 then lengthFrame p s.unread n
    else if (p.encoding s.unread).size ≠ 0 then chunkedFrame p s.unread n
    else .complete n ((p.request none).contents s.unread) := by
    simp only [httpNext, if_neg hinput, hp, hn, if_neg hret, Int.toNat_natCast]
  have hplain : ∀ m body, httpNext phr s.unread = .complete m ((p.request body).contents s.unread) →
      httpReadRequest phr s q = .ok (1, p.request body, s.consume m) →
      ∃ n c q' s', httpNext phr s.unread = .complete n c ∧
        httpReadRequest phr s q = .ok (1, q', s') ∧ Consumes s s' q' n c :=
    fun m body hframe hok => ⟨m, _, _, _, hframe, hok, consumes_consume s _ m⟩
  by_cases hget : p.isGet s.unread = true
  · rw [if_pos hget] at hcall hnext
    exact .inr (.inr (hplain n none hnext hcall))
  rw [if_neg hget] at hcall hnext
  by_cases hlength : (p.length s.unread).size ≠ 0
  · rw [if_pos hlength] at hcall hnext
    unfold lengthFrame at hnext
    split_ifs at hcall hnext
    · exact .inr (.inl ⟨hnext, _, hcall⟩)
    · exact .inl ⟨hnext, _, hcall⟩
    · exact .inr (.inr (hplain _ _ hnext hcall))
  rw [if_neg hlength] at hcall hnext
  by_cases hencoding : (p.encoding s.unread).size ≠ 0
  · rw [if_pos hencoding] at hcall hnext
    have hdrop : (s.unread.drop n).length < 2 ^ 63 := by
      rw [List.length_drop]
      omega
    obtain ⟨k, body, hscan⟩ := Scan.exists_scan hdrop
    rw [chunkedFrame_eq hlen hscan] at hnext
    by_cases hchunked : ¬ (p.encoding s.unread).equalCase s.unread (str "Chunked") = true
    · rw [if_pos hchunked] at hcall hnext
      exact .inr (.inl ⟨hnext, _, hcall⟩)
    rw [if_neg hchunked] at hcall hnext
    rw [httpDechunk_eq hdrop hscan, ok_bind] at hcall
    have hk := hscan.result hdrop
    rw [List.length_drop] at hk
    by_cases hkpos : k ≤ 0
    · simp only [if_pos hkpos, Stream.overwrite_self] at hcall
      rcases hk with rfl | rfl | ⟨hk, _⟩
      · exact .inl ⟨hnext, _, hcall⟩
      · exact .inr (.inl ⟨hnext, _, hcall⟩)
      · omega
    · simp only [if_neg hkpos] at hcall
      rw [if_neg (by omega), if_neg (by omega)] at hnext
      have husize : usize (n + k) = n + k.toNat := by
        unfold usize
        omega
      rw [husize] at hcall
      refine .inr (.inr ⟨_, _, _, _, hnext, hcall, ?_⟩)
      have hunread := Stream.unread_overwrite hconsumed n (write (s.unread.drop n) 0 body)
      rw [write_zero_drop] at hunread
      have hbody : n + body.length ≤ s.unread.length := by omega
      refine ⟨?_, rfl, ?_, ?_, rfl⟩
      · show List.drop (s.inputConsumed + (n + k.toNat)) _ = _
        rw [← List.drop_drop]
        exact (congrArg _ hunread).trans (drop_write (by omega) (by omega))
      · exact congrArg _ hunread
      · have hrest : (write (s.unread.drop n) 0 body).length = s.unread.length - n := by
          rw [length_write (by rw [List.length_drop]; omega), List.length_drop]
        have hunreadlen : s.unread.length = s.input.data.length - s.inputConsumed :=
          List.length_drop
        show (s.input.data.take (s.inputConsumed + n) ++ _).length = _
        rw [List.length_append, List.length_take, hrest]
        omega
  · rw [if_neg hencoding] at hcall hnext
    exact .inr (.inr (hplain n none hnext hcall))

/-- A frame lies in the input, and it holds the header unless the length check wraps round. -/
theorem httpNext_within {phr : Parser} {input : Bytes} {n : ℕ} {c : Contents}
    (hlen : input.length < 2 ^ 63) (hle : (phr input).ret ≤ input.length)
    (h : httpNext phr input = .complete n c) : n ≤ input.length ∧
      ((0 < (phr input).ret → ((phr input).length input).size ≠ 0 →
        (phr input).contentLength input < 2 ^ 62) → 0 < n) := by
  by_cases hinput : input = []
  · rw [hinput, httpNext_nil] at h
    cases h
  by_cases hret : (phr input).ret ≤ 0
  · rw [httpNext_header hinput hret] at h
    split_ifs at h
  have hpos : 0 < (phr input).ret := by omega
  simp only [httpNext, if_neg hinput, if_neg hret] at h
  by_cases hget : (phr input).isGet input = true
  · rw [if_pos hget] at h
    obtain ⟨rfl, -⟩ := Frame.complete.inj h
    omega
  rw [if_neg hget] at h
  by_cases hlength : ((phr input).length input).size ≠ 0
  · rw [if_pos hlength] at h
    unfold lengthFrame at h
    split_ifs at h
    obtain ⟨rfl, -⟩ := Frame.complete.inj h
    refine ⟨by omega, fun hvalue => ?_⟩
    have := hvalue hpos hlength
    omega
  rw [if_neg hlength] at h
  by_cases hencoding : ((phr input).encoding input).size ≠ 0
  · rw [if_pos hencoding] at h
    have hdrop : (input.drop (phr input).ret.toNat).length < 2 ^ 63 := by
      rw [List.length_drop]
      omega
    obtain ⟨k, body, hscan⟩ := Scan.exists_scan hdrop
    have hk := hscan.result hdrop
    rw [List.length_drop] at hk
    rw [chunkedFrame_eq hlen hscan] at h
    split_ifs at h
    obtain ⟨rfl, -⟩ := Frame.complete.inj h
    omega
  · rw [if_neg hencoding] at h
    obtain ⟨rfl, -⟩ := Frame.complete.inj h
    omega

theorem httpNext_bounds {phr : Parser} {input : Bytes} {n : ℕ} {c : Contents}
    (hlen : input.length < 2 ^ 63) (hle : (phr input).ret ≤ input.length)
    (hvalue : 0 < (phr input).ret → ((phr input).length input).size ≠ 0 →
      (phr input).contentLength input < 2 ^ 62)
    (h : httpNext phr input = .complete n c) : 0 < n ∧ n ≤ input.length :=
  have hwithin := httpNext_within hlen hle h
  ⟨hwithin.2 hvalue, hwithin.1⟩

section Bounds

variable (phr : Parser) (stream : Stream) (request : Request)

/-- A call returns, and if it returns 1 it consumes the header and at most the unread input,
with the body between the header and the consumed end. -/
def ReadInBounds : Prop :=
  ∃ ret q s, httpReadRequest phr stream request = .ok (ret, q, s) ∧
    (ret = 1 → ∃ m, s.inputConsumed = stream.inputConsumed + m ∧
      (phr stream.unread).ret ≤ m ∧ m ≤ stream.unread.length ∧
      ∀ body, q.body = some body → (phr stream.unread).ret ≤ body.base ∧ body.base + body.size ≤ m)

/-- The sum of the header's length and the Content-Length does not fit 64 bits. -/
def LengthWraps : Prop :=
  let input := stream.unread
  let p := phr input
  p.isGet input = false ∧ (p.length input).size ≠ 0 ∧ (p.encoding input).size = 0 ∧
    2 ^ 64 ≤ p.ret.toNat + p.contentLength input

variable {phr stream request}

theorem readInBounds_of_ne_one {ret : ℤ} {q : Request} {s : Stream}
    (h : httpReadRequest phr stream request = .ok (ret, q, s)) (hret : ret ≠ 1) :
    ReadInBounds phr stream request :=
  ⟨ret, q, s, h, fun h1 => absurd h1 hret⟩

theorem readInBounds_of_consume {p : Parsed} {m : ℕ} {s : Stream} {body : Option Data}
    (h : httpReadRequest phr stream request = .ok (1, p.request body, s))
    (hs : s.inputConsumed = stream.inputConsumed + m) (hn : (phr stream.unread).ret ≤ m)
    (hm : m ≤ stream.unread.length)
    (hbody : ∀ d, body = some d → (phr stream.unread).ret ≤ d.base ∧ d.base + d.size ≤ m) :
    ReadInBounds phr stream request :=
  ⟨1, _, s, h, fun _ => ⟨m, hs, hn, hm, hbody⟩⟩

/-- A call stays in bounds exactly when the length check does not wrap round. -/
theorem httpReadRequest_inBounds_iff (hlen : stream.unread.length < 2 ^ 63)
    (hpos : 0 < (phr stream.unread).ret) (hle : (phr stream.unread).ret ≤ stream.unread.length) :
    ReadInBounds phr stream request ↔ ¬ LengthWraps phr stream := by
  generalize hp : phr stream.unread = p at hpos hle
  obtain ⟨n, hret⟩ : ∃ n : ℕ, p.ret = n := ⟨p.ret.toNat, by omega⟩
  have hinput : stream.unread ≠ [] := by
    intro h
    rw [h] at hle
    simp only [List.length_nil] at hle
    omega
  have hcall := httpReadRequest_complete hinput hp hret (by omega) request
  have hvalue : p.contentLength stream.unread < 2 ^ 64 := strtoul_lt _ _
  by_cases hget : p.isGet stream.unread = true
  · rw [if_pos hget] at hcall
    have hno : ¬ LengthWraps phr stream := by simp [LengthWraps, hp, hget]
    exact iff_of_true (readInBounds_of_consume hcall (m := n) rfl (by rw [hp]; omega)
      (by omega) (by simp)) hno
  rw [if_neg hget] at hcall
  by_cases hlength : (p.length stream.unread).size ≠ 0
  · rw [if_pos hlength] at hcall
    by_cases hencoding : (p.encoding stream.unread).size ≠ 0
    · rw [if_pos hencoding] at hcall
      have hno : ¬ LengthWraps phr stream := by simp [LengthWraps, hp, hencoding]
      exact iff_of_true (readInBounds_of_ne_one hcall (by decide)) hno
    rw [if_neg hencoding] at hcall
    have hwraps : LengthWraps phr stream ↔ 2 ^ 64 ≤ n + p.contentLength stream.unread := by
      simp only [LengthWraps, hp, hret, Int.toNat_natCast]
      constructor
      · exact fun h => h.2.2.2
      · exact fun h => ⟨by simpa using hget, hlength, not_not.mp hencoding, h⟩
    rw [hwraps]
    by_cases hwrap : 2 ^ 64 ≤ n + p.contentLength stream.unread
    · rw [if_neg (by omega)] at hcall
      refine iff_of_false ?_ (not_not.mpr hwrap)
      rintro ⟨ret, q, s, hok, hbounds⟩
      rw [hcall] at hok
      obtain ⟨rfl, rfl, rfl⟩ := Prod.mk.injEq .. ▸ Except.ok.inj hok
      obtain ⟨m, hm, hn, -⟩ := hbounds rfl
      rw [hp, hret] at hn
      simp only [Stream.consume] at hm
      omega
    · refine iff_of_true ?_ hwrap
      split_ifs at hcall with hshort
      · exact readInBounds_of_ne_one hcall (by decide)
      · refine readInBounds_of_consume hcall (m := (n + p.contentLength stream.unread) % 2 ^ 64) rfl
          ?_ (by omega) ?_
        · rw [hp, hret]
          omega
        · intro d hd
          cases hd
          rw [hp, hret]
          constructor <;> simp only <;> omega
  rw [if_neg hlength] at hcall
  have hno : ¬ LengthWraps phr stream := by
    simp only [LengthWraps, hp]
    exact fun h => hlength h.2.1
  refine iff_of_true ?_ hno
  split_ifs at hcall with hencoding hchunked
  · have hdrop : (stream.unread.drop n).length < 2 ^ 63 := by
      rw [List.length_drop]
      omega
    obtain ⟨k, body, hscan⟩ := Scan.exists_scan hdrop
    rw [httpDechunk_eq hdrop hscan] at hcall
    have hk := hscan.result hdrop
    rw [List.length_drop] at hk
    by_cases hkpos : k ≤ 0
    · simp only [if_pos hkpos, ok_bind] at hcall
      exact readInBounds_of_ne_one hcall (by omega)
    · simp only [if_neg hkpos, ok_bind] at hcall
      have husize : usize (n + k) = n + k.toNat := by
        unfold usize
        omega
      rw [husize] at hcall
      refine readInBounds_of_consume hcall (m := n + k.toNat) rfl ?_ (by omega) ?_
      · rw [hp, hret]
        omega
      · intro d hd
        cases hd
        rw [hp, hret]
        constructor <;> simp only [Data.shift] <;> omega
  · exact readInBounds_of_ne_one hcall (by decide)
  · exact readInBounds_of_consume hcall (m := n) rfl (by rw [hp]; omega) (by omega) (by simp)

end Bounds

def lengthOverflow : Stream :=
  { Stream.construct with
    input := ⟨str "POST / HTTP/1.1\r\nContent-Length: 18446744073709551615\r\n\r\n", 16384⟩ }

def lengthOverflowHeader : Parsed := ⟨57, ⟨0, 4⟩, ⟨5, 1⟩, [⟨⟨17, 14⟩, ⟨33, 20⟩⟩]⟩

/-- A header of 57 bytes is read and 56 bytes are consumed. -/
theorem httpReadRequest_lengthOverflow : ¬ ∀ (phr : Parser) (stream : Stream) (request : Request),
    stream.unread.length < 2 ^ 63 → 0 < (phr stream.unread).ret →
    (phr stream.unread).ret ≤ stream.unread.length → ReadInBounds phr stream request := by
  intro h
  obtain ⟨ret, q, s, hcall, hbounds⟩ := h (fun _ => lengthOverflowHeader) lengthOverflow
    ⟨.null, .null, none, []⟩ (by decide) (by decide) (by decide)
  have heval : httpReadRequest (fun _ => lengthOverflowHeader) lengthOverflow
      ⟨.null, .null, none, []⟩ = .ok (1, lengthOverflowHeader.request (some ⟨57, 2 ^ 64 - 1⟩),
        lengthOverflow.consume 56) := by
    rfl
  rw [heval] at hcall
  obtain ⟨rfl, rfl, rfl⟩ := Prod.mk.injEq .. ▸ Except.ok.inj hcall
  obtain ⟨m, hm, hn, -⟩ := hbounds rfl
  have : (57 : ℤ) ≤ m := hn
  have : 56 = 0 + m := hm
  omega

theorem httpReadRequest_inBounds_lengthOverflow :
    ReadInBounds (fun _ => lengthOverflowHeader) lengthOverflow ⟨.null, .null, none, []⟩ ↔
      ¬ LengthWraps (fun _ => lengthOverflowHeader) lengthOverflow :=
  httpReadRequest_inBounds_iff (by decide) (by decide) (by decide)

end LibReactor
