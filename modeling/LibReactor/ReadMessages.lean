import LibReactor.Messages

/-!
# Reading what was written

Messages written one behind the other are read as they were written, however they are cut into
receive completions, and nothing else is read: a session's requests are the messages that its
input consists of.
-/

namespace LibReactor.Phr

open Framing

/-! ## Inputs that consist of messages -/

def written (ms : List Message) : Bytes := ms.flatMap Message.bytes

theorem written_cons (m : Message) (ms : List Message) (p : Bytes) :
    written (m :: ms) ++ p = m.bytes ++ (written ms ++ p) := by
  rw [written, List.flatMap_cons, List.append_assoc]
  rfl

def FitsAt (sse : Bool) (b : Bytes) : Prop :=
  (headerParser sse b).ret < 2 ^ 31 ∧
    (0 < (headerParser sse b).ret → ((headerParser sse b).length b).size ≠ 0 →
      (headerParser sse b).contentLength b < 2 ^ 62)

def Fits (sse : Bool) (w : Bytes) : Prop :=
  ∀ b, Reached (httpNext (headerParser sse)) w b → FitsAt sse b

section Fits

variable {sse : Bool} {w b y : Bytes}

theorem Fits.stable (h : Fits sse w) (hlen : w.length < 2 ^ 63) :
    Stable (httpNext (headerParser sse)) (Within (httpNext (headerParser sse)) w) :=
  stable_httpNext (prefixStable_headerParser sse) hlen fun b hb => (h b hb).2

theorem Fits.ret_lt (h : Fits sse w) (hb : Within (httpNext (headerParser sse)) w b) :
    (headerParser sse b).ret < 2 ^ 31 := by
  obtain ⟨x, hx⟩ := hb
  by_cases hpos : 0 < (headerParser sse b).ret
  · have hlong := (prefixStable_headerParser sse).complete b x hpos
    exact hlong ▸ (h _ hx).1
  · omega

theorem Fits.within (h : Fits sse (w ++ y)) (hlen : (w ++ y).length < 2 ^ 63)
    (hb : Reached (httpNext (headerParser sse)) w b) :
    Within (httpNext (headerParser sse)) (w ++ y) b := ⟨y, hb.append (h.stable hlen)⟩

/-- A part of an input has no other heads. -/
theorem Fits.of_append (h : Fits sse (w ++ y)) (hlen : (w ++ y).length < 2 ^ 63) : Fits sse w :=
  fun _ hb => ⟨h.ret_lt (h.within hlen hb), fun hpos hlength =>
    within_contentLength (prefixStable_headerParser sse) (fun b hb => (h b hb).2)
      (h.within hlen hb) hpos hlength⟩

end Fits

section Written

variable (sse : Bool)

/-- The head that a part of a message holds is the head of the message. -/
theorem headerParser_part {m : Message} {b x y : Bytes} (hb : b ++ x = m.bytes ++ y)
    (hpos : 0 < (headerParser sse b).ret) : headerParser sse b = m.head.parsed := by
  have hlong := (prefixStable_headerParser sse).complete b x hpos
  rw [hb, Message.bytes, List.append_assoc] at hlong
  exact hlong.symm.trans (headerParser_head sse m.head _)

theorem ret_lt {m : Message} {b x y : Bytes} (hb : b ++ x = m.bytes ++ y) :
    (headerParser sse b).ret < 2 ^ 31 := by
  by_cases hpos : 0 < (headerParser sse b).ret
  · have hret : m.head.parsed.ret = m.head.bytes.length := rfl
    have hlt := m.head_lt
    rw [headerParser_part sse hb hpos, hret]
    omega
  · omega

theorem contentLength_lt {m : Message} {b x y : Bytes} (hb : b ++ x = m.bytes ++ y)
    (hpos : 0 < (headerParser sse b).ret) (hlength : ((headerParser sse b).length b).size ≠ 0) :
    (headerParser sse b).contentLength b < 2 ^ 62 := by
  have hphr := prefixStable_headerParser sse
  have happend := hphr.contentLength_append hpos hlength x
  have hsize := congrArg Data.size (hphr.length_append hpos x)
  have hhead := headerParser_part sse hb hpos
  rw [hb, Message.bytes, List.append_assoc] at happend hsize
  rw [hhead] at happend hsize hlength ⊢
  have hne : m.head.length ≠ [] := (m.head.size_length _).mp (hsize ▸ hlength)
  rw [← happend, m.head.contentLength_between _ hne]
  exact m.length_lt hne

theorem httpNext_partial {m : Message} {p x : Bytes} (hp : p ++ x = m.bytes) (hx : x ≠ [])
    (hlen : m.bytes.length < 2 ^ 63) : httpNext (headerParser sse) p = .incomplete := by
  by_contra hnext
  have hvalue := contentLength_lt sse (m := m) (b := p) (y := []) (by simpa using hp)
  have hlong := (prefixStable_headerParser sse).httpNext_append (x := x) hvalue (by rwa [hp]) hnext
  have hmessage := httpNext_message sse m [] (by simpa using hlen)
  rw [List.append_nil, ← hp, hlong] at hmessage
  have hbounds := httpNext_bounds (by rw [← hp, List.length_append] at hlen; omega)
    ((prefixStable_headerParser sse).length p) hvalue hmessage
  have := List.length_pos_iff.mpr hx
  rw [List.length_append] at hbounds
  omega

variable {sse} {ms : List Message} {m : Message} {p x w : Bytes}

theorem reached_written (hp : httpNext (headerParser sse) p = .incomplete)
    (hlen : (written ms ++ p).length < 2 ^ 63) {b : Bytes}
    (h : Reached (httpNext (headerParser sse)) (written ms ++ p) b) :
    ∃ ms', ms' <:+ ms ∧ b = written ms' ++ p := by
  induction h with
  | start => exact ⟨ms, List.suffix_rfl, rfl⟩
  | @next b n c hreached hnext ih =>
    obtain ⟨ms', hsuffix, rfl⟩ := ih
    cases ms' with
    | nil =>
      rw [written, List.flatMap_nil, List.nil_append, hp] at hnext
      cases hnext
    | cons m ms' =>
      have hle := hreached.length_le
      rw [written_cons] at hnext hle ⊢
      have hmessage := httpNext_message sse m (written ms' ++ p) (by omega)
      obtain ⟨rfl, -⟩ := Frame.complete.inj (hnext.symm.trans hmessage)
      exact ⟨ms', (List.suffix_cons m ms').trans hsuffix, List.drop_left⟩

theorem fits_written (hp : p ++ x = m.bytes) (hx : x ≠ [])
    (hlen : (written ms ++ m.bytes).length < 2 ^ 63) : Fits sse (written ms ++ p) := by
  intro b hb
  rw [← hp, List.length_append, List.length_append] at hlen
  have hpartial := httpNext_partial sse hp hx (by rw [← hp, List.length_append]; omega)
  obtain ⟨ms', -, rfl⟩ := reached_written hpartial (by rw [List.length_append]; omega) hb
  cases ms' with
  | nil =>
    have hpart : written [] ++ p ++ x = m.bytes ++ [] := by simpa [written] using hp
    exact ⟨ret_lt sse hpart, contentLength_lt sse hpart⟩
  | cons m' ms' =>
    have hpart : written (m' :: ms') ++ p ++ [] = m'.bytes ++ (written ms' ++ p) := by
      rw [List.append_nil, written_cons]
    exact ⟨ret_lt sse hpart, contentLength_lt sse hpart⟩

theorem frames_written (hp : httpNext (headerParser sse) p = .incomplete)
    (hlen : (written ms ++ p).length < 2 ^ 63) : Frames (httpNext (headerParser sse))
      (written ms ++ p) (ms.map Message.contents) (.waiting p) := by
  induction ms with
  | nil => exact .incomplete hp
  | cons m ms ih =>
    rw [written_cons] at hlen ⊢
    refine .complete (httpNext_message sse m _ hlen) ?_
    rw [List.drop_left]
    exact ih (by
      rw [List.length_append] at hlen
      omega)

/-- Messages at the start of messages that are written are the first of these. -/
theorem written_take (sse : Bool) {ms' : List Message} {z : Bytes}
    (hnone : ∀ m : Message, ¬ m.bytes <+: p) (hlen : (written ms ++ p).length < 2 ^ 63)
    (h : written ms' ++ z = written ms ++ p) : ∃ k ≤ ms.length, written ms' = written (ms.take k) ∧
      ms'.map Message.contents = (ms.take k).map Message.contents := by
  induction ms' generalizing ms with
  | nil => exact ⟨0, Nat.zero_le _, rfl, rfl⟩
  | cons m' ms' ih =>
    rw [written_cons] at h
    cases ms with
    | nil => exact absurd ⟨_, h⟩ (hnone m')
    | cons m ms =>
      rw [written_cons] at h hlen
      have hnext := httpNext_message sse m (written ms ++ p) hlen
      rw [← h, httpNext_message sse m' _ (h ▸ hlen)] at hnext
      obtain ⟨hlength, hcontents⟩ := Frame.complete.inj hnext
      obtain ⟨hbytes, hrest⟩ := List.append_inj h hlength
      rw [List.length_append] at hlen
      obtain ⟨k, hk, hwritten, hmap⟩ := ih (by omega) hrest
      refine ⟨k + 1, Nat.succ_le_succ hk, ?_, ?_⟩
      · have hcons : ∀ m ms, written (m :: ms) = m.bytes ++ written ms := fun _ _ =>
          List.flatMap_cons
        rw [List.take_succ_cons, hcons, hcons, hbytes, hwritten]
      · rw [List.take_succ_cons, List.map_cons, List.map_cons, hcontents, hmap]

end Written

section Input

variable {sse : Bool} {w b : Bytes}

theorem FitsAt.exists_message (hfit : FitsAt sse b) (hlen : b.length < 2 ^ 63) {n : ℕ}
    {c : Contents} (hnext : httpNext (headerParser sse) b = .complete n c) :
    ∃ (m : Message) (rest : Bytes), b = m.bytes ++ rest ∧ n = m.bytes.length ∧ c = m.contents := by
  have hpos : 0 < (headerParser sse b).ret := by
    by_contra hret
    by_cases hb : b = []
    · rw [hb, httpNext_nil] at hnext
      cases hnext
    · rw [httpNext_header hb (by omega)] at hnext
      split_ifs at hnext
  obtain ⟨hret, hvalue⟩ := hfit
  obtain ⟨h, x, rfl, hparsed⟩ := headerParser_pos hpos
  have hparsed : headerParser sse (h.bytes ++ x) = h.parsed := hparsed
  have hlength : h.parsed.ret = h.bytes.length := rfl
  rw [hparsed, hlength] at hret
  rw [httpNext_headerParser] at hnext
  refine Phr.exists_message hlen (by omega) (fun hne => ?_) hnext
  rw [← h.contentLength_between x hne, ← hparsed]
  exact hvalue hpos (by rw [hparsed]; exact (h.size_length x).mpr hne)

theorem Fits.drop (hfit : Fits sse w) {n : ℕ} {c : Contents}
    (hnext : httpNext (headerParser sse) w = .complete n c) : Fits sse (w.drop n) :=
  fun _ hb => hfit _ ((Reached.start.next hnext).trans hb)

/-- The frames of an input are the messages that it begins with. -/
theorem Fits.of_frames {cs : List Contents} {v : Verdict UInt8}
    (h : Frames (httpNext (headerParser sse)) w cs v) (hfit : Fits sse w)
    (hlen : w.length < 2 ^ 63) : ∃ ms rest, w = written ms ++ rest ∧
      cs = ms.map Message.contents ∧ (v = .waiting rest ∨ v = .error) ∧
        ∀ m : Message, ¬ m.bytes <+: rest := by
  induction h with
  | @incomplete b hnext =>
    refine ⟨[], b, rfl, rfl, .inl rfl, ?_⟩
    rintro m ⟨y, rfl⟩
    rw [httpNext_message sse m _ hlen] at hnext
    cases hnext
  | @error b hnext =>
    refine ⟨[], b, rfl, rfl, .inr rfl, ?_⟩
    rintro m ⟨y, rfl⟩
    rw [httpNext_message sse m _ hlen] at hnext
    cases hnext
  | @complete b n c cs v hnext _ ih =>
    have hdrop := hfit.drop hnext
    obtain ⟨m, rest, rfl, rfl, rfl⟩ := (hfit b .start).exists_message hlen hnext
    rw [List.length_append] at hlen
    rw [List.drop_left] at ih hdrop
    obtain ⟨ms, rest', rfl, rfl, hv, hnone⟩ := ih hdrop (by omega)
    exact ⟨m :: ms, rest', (written_cons m ms rest').symm, rfl, hv, hnone⟩

end Input

/-- No head in the input is 2^31 bytes or longer or asks for a body near the end of the address
space. -/
def HeadsFit (w : Bytes) : Prop :=
  ∀ ms (h : RequestHead 16) x, w = written ms ++ (h.bytes ++ x) →
    h.bytes.length < 2 ^ 31 ∧ (h.length ≠ [] → h.contentLength < 2 ^ 62)

section HeadsFit

variable {sse : Bool} {w b : Bytes}

theorem HeadsFit.fitsAt (hfit : HeadsFit w) {ms : List Message} (hw : w = written ms ++ b) :
    FitsAt sse b := by
  by_cases hpos : 0 < (headerParser sse b).ret
  · obtain ⟨g, x, rfl, hparsed⟩ := headerParser_pos hpos
    obtain ⟨hhead, hvalue⟩ := hfit ms g x hw
    have hparsed : headerParser sse (g.bytes ++ x) = g.parsed := hparsed
    have hret : g.parsed.ret = g.bytes.length := rfl
    unfold FitsAt
    rw [hparsed, hret]
    refine ⟨by omega, fun _ hlength => ?_⟩
    have hne := (g.size_length x).mp hlength
    rw [g.contentLength_between x hne]
    exact hvalue hne
  · exact ⟨by omega, fun h => absurd h hpos⟩

theorem HeadsFit.reached (hfit : HeadsFit w) (hlen : w.length < 2 ^ 63)
    (h : Reached (httpNext (headerParser sse)) w b) : ∃ ms, w = written ms ++ b := by
  induction h with
  | start => exact ⟨[], rfl⟩
  | @next b n c hreached hnext ih =>
    obtain ⟨ms, hw⟩ := ih
    have hle := hreached.length_le
    obtain ⟨m, rest, rfl, rfl, -⟩ := (hfit.fitsAt hw).exists_message (by omega) hnext
    refine ⟨ms ++ [m], ?_⟩
    rw [List.drop_left, hw, written, written, List.flatMap_append, List.flatMap_singleton,
      List.append_assoc]

theorem HeadsFit.fits (hfit : HeadsFit w) (hlen : w.length < 2 ^ 63) : Fits sse w := by
  intro b hb
  obtain ⟨ms, hw⟩ := hfit.reached hlen hb
  exact hfit.fitsAt hw

end HeadsFit

/-! ## The input of a session -/

def received (rs : List (Parser × Bytes)) : Bytes := (rs.map Prod.snd).flatten

/-- Behind some completion the input ends, after the messages `ms`, in the spaces behind a method,
and the calls of that completion reject it for what they find behind it. -/
def CutOff (rs : List (Parser × Bytes)) (ms : List Message) : Prop :=
  ∃ rs₁ r rs₂ b, rs = rs₁ ++ r :: rs₂ ∧ received (rs₁ ++ [r]) = written ms ++ b ∧
    MethodOpen b ∧ (r.1 b).ret = -1

section Session

variable {sse : Bool} {s : Stream} (hs : s.input.data = []) (hconsumed : s.inputConsumed = 0)
  (q : Request) {rs : List (Parser × Bytes)} (hcalls : ∀ r ∈ rs, Calls sse r.1)
include hs hconsumed hcalls

/-- The run over completions finds the frames of the whole input, or it ends where it is cut off. -/
theorem receive_frames (hlen : (received rs).length < 2 ^ 63) (hfit : Fits sse (received rs))
    {cs : List Contents} {v : Verdict UInt8}
    (h : Frames (httpNext (headerParser sse)) (received rs) cs v) :
    receiveEach s q rs = .ok (cs, v) ∨
      ∃ ms, receiveEach s q rs = .ok (ms.map Message.contents, .error) ∧ CutOff rs ms := by
  have hunread : s.unread = [] := by simp [Stream.unread, hs]
  have hphr := prefixStable_headerParser sse
  have hstable := hfit.stable hlen
  have hD : Within (httpNext (headerParser sse)) (received rs)
      ([] ++ (rs.map Prod.snd).flatten) := Within.self _
  obtain ⟨cs', v', hfeed⟩ := hstable.exists_feed hD
  obtain ⟨rfl, rfl⟩ := h.unique (hstable.frames_of_feed hD (httpNext_nil _) hfeed)
  have hfollows : ∀ r ∈ rs, ∀ b, Within (httpNext (headerParser sse)) (received rs) b →
      Follows (headerParser sse) r.1 b := fun r hr b hb => (hcalls r hr).follows (hfit.ret_lt hb)
  rcases receiveEach_eq hphr hlen (fun b hb => (hfit b hb).2) hfeed hD hfollows hunread
    (by rw [hconsumed]; exact Nat.zero_le _) q with
    hrun | ⟨rs₁, r, rs₂, cs', b, rfl, hfeed', herror, hrun⟩
  · exact .inl hrun
  right
  have hsplit : received (rs₁ ++ r :: rs₂) = received (rs₁ ++ [r]) ++ received rs₂ := by
    simp [received]
  rw [hsplit] at hlen hfit
  have hfit' := hfit.of_append hlen
  rw [List.length_append] at hlen
  have hlen' : (received (rs₁ ++ [r])).length < 2 ^ 63 := by omega
  have hframes : Frames (httpNext (headerParser sse)) (received (rs₁ ++ [r])) cs' (.waiting b) :=
    (hfit'.stable hlen').frames_of_feed (b := []) (Within.self _) (httpNext_nil _) hfeed'
  obtain ⟨ms, rest, hw, rfl, hv, -⟩ := Fits.of_frames hframes hfit' hlen'
  obtain rfl : b = rest := by
    rcases hv with hv | hv
    · exact Verdict.waiting.inj hv
    · cases hv
  have hb : Within (httpNext (headerParser sse)) (received (rs₁ ++ [r])) b := by
    have hrest := (hfit'.stable hlen').frames_rest (x := [])
      (by rw [List.append_nil]; exact Within.self _) hframes
    rwa [List.append_nil] at hrest
  obtain ⟨hopen, hret⟩ := (hcalls r (by simp)).methodOpen (hfit'.ret_lt hb)
    hframes.next_eq_incomplete herror
  exact ⟨ms, hrun, rs₁, r, rs₂, b, rfl, hw, hopen, hret⟩

omit hs hconsumed hcalls in
theorem received_append (rs₁ rs₂ : List (Parser × Bytes)) (r : Parser × Bytes) :
    received (rs₁ ++ r :: rs₂) = received (rs₁ ++ [r]) ++ received rs₂ := by
  simp [received]

theorem receive_parts (hlen : (received rs).length < 2 ^ 63) (hfit : Fits sse (received rs))
    {ms : List Message} {rest : Bytes} (hrs : received rs = written ms ++ rest)
    (hnone : ∀ m : Message, ¬ m.bytes <+: rest) {v : Verdict UInt8}
    (h : Frames (httpNext (headerParser sse)) (received rs) (ms.map Message.contents) v) :
    receiveEach s q rs = .ok (ms.map Message.contents, v) ∨
      ∃ k ≤ ms.length, CutOff rs (ms.take k) ∧
        receiveEach s q rs = .ok ((ms.take k).map Message.contents, .error) := by
  rcases receive_frames hs hconsumed q hcalls hlen hfit h with
    hrun | ⟨ms', hrun, rs₁, r, rs₂, b, rfl, hw, hopen, hret⟩
  · exact .inl hrun
  right
  have hsplit := received_append rs₁ rs₂ r
  rw [hw, hrs, List.append_assoc] at hsplit
  obtain ⟨k, hk, hwritten, hmap⟩ := written_take sse hnone (hrs ▸ hlen) hsplit.symm
  exact ⟨k, hk, ⟨rs₁, r, rs₂, b, rfl, hwritten ▸ hw, hopen, hret⟩, hmap ▸ hrun⟩

/-- Messages that a client writes one behind the other are read as they were written, however the
input is cut into completions, and a message that is cut off is waited for; unless a completion
ends in the spaces behind a method and its calls reject this part. -/
theorem receive_written {ms : List Message} {m : Message} {p x : Bytes} (hp : p ++ x = m.bytes)
    (hx : x ≠ []) (hlong : (written ms ++ m.bytes).length < 2 ^ 63)
    (hrs : received rs = written ms ++ p) :
    receiveEach s q rs = .ok (ms.map Message.contents, .waiting p) ∨
      ∃ k ≤ ms.length, CutOff rs (ms.take k) ∧
        receiveEach s q rs = .ok ((ms.take k).map Message.contents, .error) := by
  have hfit : Fits sse (written ms ++ p) := fits_written hp hx hlong
  rw [← hp, List.length_append, List.length_append] at hlong
  have hpartial : httpNext (headerParser sse) p = .incomplete :=
    httpNext_partial sse hp hx (by rw [← hp, List.length_append]; omega)
  have hlen : (written ms ++ p).length < 2 ^ 63 := by
    rw [List.length_append]
    omega
  have hnone : ∀ m : Message, ¬ m.bytes <+: p := by
    rintro m ⟨y, rfl⟩
    rw [httpNext_message sse m y (by rw [List.length_append] at hlen; omega)] at hpartial
    cases hpartial
  refine receive_parts hs hconsumed q hcalls (hrs ▸ hlen) (hrs ▸ hfit) hrs hnone ?_
  rw [hrs]
  exact frames_written hpartial hlen

end Session

/-- However an input is cut, what is read of it are the messages that it begins with: no request
that was not written, and none is left out, unless a completion ends in the spaces behind a method
and its calls reject this part. -/
theorem receive_messages {sse : Bool} {s : Stream} (hs : s.input.data = [])
    (hconsumed : s.inputConsumed = 0) (q : Request) {w : Bytes} (hlen : w.length < 2 ^ 63)
    (hfit : HeadsFit w) : ∃ ms rest v, w = written ms ++ rest ∧ (v = .waiting rest ∨ v = .error) ∧
      (∀ m : Message, ¬ m.bytes <+: rest) ∧
        ∀ rs : List (Parser × Bytes), received rs = w → (∀ r ∈ rs, Calls sse r.1) →
          receiveEach s q rs = .ok (ms.map Message.contents, v) ∨
            ∃ k ≤ ms.length, CutOff rs (ms.take k) ∧
              receiveEach s q rs = .ok ((ms.take k).map Message.contents, .error) := by
  have hfits : Fits sse w := hfit.fits hlen
  obtain ⟨cs, v, hframes⟩ := (hfits.stable hlen).exists_frames (Within.self w)
  obtain ⟨ms, rest, hw, rfl, hv, hnone⟩ := Fits.of_frames hframes hfits hlen
  refine ⟨ms, rest, v, hw, hv, hnone, fun rs hrs hcalls => ?_⟩
  subst hrs
  exact receive_parts hs hconsumed q hcalls hlen hfits hw hnone hframes

def getMessage : Message := ⟨getHead, [], none, .get rfl, by decide, by decide⟩

def lengthLine : FieldLine where
  name := some (str "content-length", str " ")
  text := str "2"
  lineEnd := .crlf
  name_ne n b h := by
    cases h
    decide
  name_bytes n b h := by
    cases h
    exact List.all_eq_true.mp rfl
  name_blanks n b h := by
    cases h
    exact List.all_eq_true.mp rfl
  text_bytes c hc := by
    obtain rfl := List.mem_singleton.mp hc
    rfl
  text_first _ c hc := by
    cases hc
    rfl
  text_blank h := by cases h

def postHead : RequestHead 16 where
  emptyLine := none
  method := str "POST"
  spaces := (0, 0)
  path := str "/form"
  minorVersion := 1
  lineEnd := .crlf
  headers := [lengthLine]
  last := .crlf
  method_ne := by decide
  method_bytes := List.all_eq_true.mp rfl
  path_ne := by decide
  path_bytes := List.all_eq_true.mp rfl
  minorVersion_lt := by decide
  headers_le := by decide
  headers_first f hf := by
    cases hf
    exact Option.some_ne_none _

def postMessage : Message where
  head := postHead
  text := str "hi"
  body := some (str "hi")
  holds := .length (by decide) (by decide) (by decide) (by decide)
  head_lt := by decide
  length_lt _ := by decide

def lineParser : Parser := callParser true (str "/ HTTP/1.1")

theorem calls_lineParser : Calls true lineParser := calls_callParser true (by decide) _

theorem not_cutOff {rs : List (Parser × Bytes)} (hrs : ∀ r ∈ rs, r.1 = lineParser)
    (ms : List Message) : ¬ CutOff rs ms := by
  rintro ⟨rs₁, r, rs₂, b, rfl, -, hopen, hret⟩
  have hwait : (lineParser b).ret = -2 := callParser_methodOpen true (by decide) _ hopen
  rw [hrs r (by simp), hwait] at hret
  cases hret

/-- Two requests and a part of a third, cut behind the first four bytes -/
theorem receive_written_two : receiveEach .construct ⟨.null, .null, none, []⟩
    ([str "GET ", getMessage.bytes.drop 4 ++ (postMessage.bytes ++ str "PO")].map
      (Prod.mk lineParser)) =
      .ok ([getMessage, postMessage].map Message.contents, .waiting (str "PO")) := by
  have hparser : ∀ r ∈ [str "GET ", getMessage.bytes.drop 4 ++ (postMessage.bytes ++ str "PO")].map
      (Prod.mk lineParser), r.1 = lineParser := by
    intro r hr
    obtain ⟨_, -, rfl⟩ := List.mem_map.mp hr
    rfl
  have hcalls := fun r hr => (hparser r hr).symm ▸ calls_lineParser
  have hpart : str "PO" ++ postMessage.bytes.drop 2 = postMessage.bytes := by decide
  have hlong : (written [getMessage, postMessage] ++ postMessage.bytes).length < 2 ^ 63 := by
    decide
  rcases receive_written (s := .construct) rfl rfl ⟨.null, .null, none, []⟩ hcalls hpart
    (by decide) hlong (by decide) with hrun | ⟨k, -, hcut, -⟩
  · exact hrun
  · exact absurd hcut (not_cutOff hparser _)

/-- What is left of an earlier request ends the session of a client whose method comes alone. -/
example : receiveEach .construct ⟨.null, .null, none, []⟩
    [(callParser true (str " HTTP/1.1\r\n"), str "POST ")] = .ok ([], .error) := by decide

theorem headsFit_getMessage : HeadsFit getMessage.bytes := by
  intro ms h x hw
  have htotal : getMessage.bytes.length = 18 := by decide
  have hlen := congrArg List.length hw
  simp only [List.length_append, htotal] at hlen
  refine ⟨by omega, fun hlength => ?_⟩
  have hparsed : headerParser true getMessage.bytes = getHead.parsed := by decide
  cases ms with
  | nil =>
    have hw : getMessage.bytes = h.bytes ++ x := hw
    rw [hw] at hparsed
    have hhead : h.parsed = getHead.parsed := (headerParser_head true h x).symm.trans hparsed
    have hfields := h.fields_between x
    rw [hhead] at hfields
    have hheaders : h.headers = [] := List.map_eq_nil_iff.mp hfields.symm
    exact absurd (by rw [RequestHead.length, RequestHead.lookup, RequestHead.find, hheaders]; rfl)
      hlength
  | cons m ms =>
    rw [written_cons] at hw
    have hw : getMessage.bytes = m.head.bytes ++ (m.text ++ (written ms ++ (h.bytes ++ x))) :=
      hw.trans (List.append_assoc _ _ _)
    rw [hw] at hparsed
    have hhead : m.head.parsed = getHead.parsed :=
      (headerParser_head true m.head _).symm.trans hparsed
    have hret : ((m.head.bytes.length : ℕ) : ℤ) = 18 := congrArg Parsed.ret hhead
    have hlen := congrArg List.length hw
    have hpos := h.length_pos
    simp only [List.length_append] at hlen
    omega

theorem receive_messages_get : ∃ ms rest v, getMessage.bytes = written ms ++ rest ∧
    (v = .waiting rest ∨ v = .error) ∧ (∀ m : Message, ¬ m.bytes <+: rest) ∧
      ∀ rs : List (Parser × Bytes), received rs = getMessage.bytes → (∀ r ∈ rs, Calls true r.1) →
        receiveEach .construct ⟨.null, .null, none, []⟩ rs = .ok (ms.map Message.contents, v) ∨
          ∃ k ≤ ms.length, CutOff rs (ms.take k) ∧
            receiveEach .construct ⟨.null, .null, none, []⟩ rs =
              .ok ((ms.take k).map Message.contents, .error) :=
  receive_messages rfl rfl ⟨.null, .null, none, []⟩ (by decide) headsFit_getMessage

end LibReactor.Phr
