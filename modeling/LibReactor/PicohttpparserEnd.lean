import LibReactor.PicohttpparserInput

/-!
# Where the parser reads behind its input

The parser decides on its input alone, except where the input ends in the spaces behind
the method or the path: the loops over these spaces do not check the end. Elsewhere what
it returns is the same whatever lies behind the input, and complete requests and errors
are final.
-/

namespace LibReactor.Phr

open Incremental

/-! ## Inputs that end in spaces -/

def emptyBytes (l : Option LineEnd) : Bytes := (l.map LineEnd.bytes).getD []

/-- The input ends in the spaces behind the method. -/
def MethodOpen (input : Bytes) : Prop :=
  ∃ (l : Option LineEnd) (m : Bytes) (n : ℕ), (∀ b ∈ m, isTargetByte b = true) ∧
    input = emptyBytes l ++ (m ++ List.replicate (n + 1) space)

def PathOpen (input : Bytes) : Prop :=
  ∃ (l : Option LineEnd) (m : Bytes) (n : ℕ) (w : Bytes) (k : ℕ),
    (∀ b ∈ m, isTargetByte b = true) ∧ (∀ b ∈ w, isTargetByte b = true) ∧ w ≠ [] ∧
    input = emptyBytes l ++
      (m ++ (List.replicate (n + 1) space ++ (w ++ List.replicate (k + 1) space)))

theorem exists_spaces (w : Bytes) : ∃ g m, w = List.replicate g space ++ m ∧
    ∀ c ∈ m.head?, c ≠ space := by
  induction w with
  | nil => exact ⟨0, [], rfl, by simp⟩
  | cons c w ih =>
    by_cases hc : c = space
    · obtain ⟨g, m, rfl, hm⟩ := ih
      exact ⟨g + 1, m, by rw [hc]; rfl, hm⟩
    · refine ⟨0, c :: w, rfl, ?_⟩
      rintro _ ⟨⟩
      exact hc

theorem skipSpaces_outside (n e i : ℕ) (out : Head) :
    skipSpaces.run e ⟨i, List.replicate (n + 1) space, out⟩ =
      .error (.fault .outside) ⟨i + (n + 1), [], out⟩ := by
  have hspace : ∀ x ∈ List.replicate n space, (x != space) = false := by
    intro x hx
    rw [List.eq_of_mem_replicate hx]
    rfl
  refine (Reader.scan_outside hspace e (i + 1) out Stop.invalid).trans ?_
  rw [List.length_replicate, Nat.add_assoc, Nat.add_comm 1]

theorem skipSpaces_run {c : UInt8} (hc : c ≠ space) (n : ℕ) (p : Bytes) (e i : ℕ) (out : Head) :
    skipSpaces.run e ⟨i, List.replicate (n + 1) space ++ c :: p, out⟩ =
      .ok () ⟨i + (n + 1), c :: p, out⟩ := by
  have hspace : ∀ x ∈ List.replicate n space, (x != space) = false := by
    intro x hx
    rw [List.eq_of_mem_replicate hx]
    rfl
  refine (Reader.scan_append hspace (bne_iff_ne.mpr hc) p e (i + 1) out Stop.invalid).trans ?_
  rw [List.length_replicate, Nat.add_assoc, Nat.add_comm 1]

theorem skipSpaces_error {e i : ℕ} {p : Bytes} {out : Head} {r : Stop} {s' : Cursor UInt8 Head}
    (h : skipSpaces.run e ⟨i, space :: p, out⟩ = .error r s') :
    space :: p = List.replicate (p.length + 1) space := by
  have hspace := Reader.scan_error (h : (Reader.scan none (.fault .outside) .invalid
    (fun c => c != space) (fun _ => false) : Parse Unit).run e ⟨i + 1, p, out⟩ = .error r s')
  rw [List.replicate_succ]
  congr 1
  exact List.eq_replicate_of_mem fun x hx => by simpa using hspace x hx

theorem advanceToken_run {m : Bytes} (hm : ∀ b ∈ m, isTargetByte b = true) (sse : Bool)
    (p b : Bytes) (i : ℕ) (out : Head) :
    (advanceToken sse).run b.length ⟨i, m ++ (space :: p ++ b), out⟩ =
      .ok ⟨i, m.length⟩ ⟨i + m.length, space :: p ++ b, out⟩ := by
  have hok : (advanceToken sse).run 0 ⟨i, m ++ space :: p, out⟩ =
      .ok ⟨i, m.length⟩ ⟨i + m.length, space :: p, out⟩ :=
    advanceToken_eq_ok.mpr ⟨m, p, ⟨rfl, rfl, rfl⟩, rfl, hm, rfl⟩
  have hext := (settles_advanceToken sse).ok hok [] b
  rw [List.nil_append] at hext
  rw [← List.append_assoc]
  exact hext

theorem parseTargets_method {m : Bytes} (hm : ∀ b ∈ m, isTargetByte b = true) (sse : Bool)
    (n : ℕ) (b : Bytes) (i : ℕ) (out : Head) :
    (parseTargets sse).run b.length ⟨i, m ++ (List.replicate (n + 1) space ++ b), out⟩ =
      (do
        skipSpaces
        let path ← advanceToken sse
        .store (fun out => { out with path := path })
        skipSpaces : Parse Unit).run b.length
        ⟨i + m.length, List.replicate (n + 1) space ++ b, { out with method := ⟨i, m.length⟩ }⟩ := by
  have htoken := advanceToken_run hm sse (List.replicate n space) b i out
  unfold parseTargets
  rw [List.replicate_succ, Reader.bind_of_ok htoken, Reader.bind_of_ok (Reader.store_run _ _ _)]

theorem parseTargets_fault {sse : Bool} {i : ℕ} {p : Bytes} {out : Head} {f : Fault}
    {s' : Cursor UInt8 Head} (h : (parseTargets sse).run 0 ⟨i, p, out⟩ = .error (.fault f) s') :
    (∃ m n, (∀ b ∈ m, isTargetByte b = true) ∧ p = m ++ List.replicate (n + 1) space) ∨
      ∃ m n w k, (∀ b ∈ m, isTargetByte b = true) ∧ (∀ b ∈ w, isTargetByte b = true) ∧ w ≠ [] ∧
        p = m ++ (List.replicate (n + 1) space ++ (w ++ List.replicate (k + 1) space)) := by
  unfold parseTargets at h
  rcases Reader.bind_eq_error.mp h with hmethod | ⟨d, t, hmethod, h⟩
  · exact absurd rfl ((stays_advanceToken sse _ trivial).2 _ _ hmethod f)
  obtain ⟨m, q, hm, hq, hbytes, rfl⟩ := advanceToken_eq_ok.mp hmethod
  obtain ⟨j, t, out'⟩ := t
  simp only at hq
  subst hq
  rw [Reader.bind_of_ok (Reader.store_run _ _ _)] at h
  rcases Reader.bind_eq_error.mp h with hskip | ⟨_, t, hskip, h⟩
  · left
    exact ⟨m, q.length, hbytes, hm.rest.trans (congrArg _ (skipSpaces_error hskip))⟩
  obtain ⟨a, n, c, q', ha, hq', hc⟩ := skipSpaces_eq_ok.mp hskip
  obtain ⟨rfl, hrest⟩ := List.cons.inj ha.rest
  rcases Reader.bind_eq_error.mp h with hpath | ⟨d, t', hpath, h⟩
  · exact absurd rfl ((stays_advanceToken sse _ trivial).2 _ _ hpath f)
  obtain ⟨w, r, hw, hr, hwbytes, rfl⟩ := advanceToken_eq_ok.mp hpath
  obtain ⟨j', t', out''⟩ := t'
  simp only at hr
  subst hr
  rw [Reader.bind_of_ok (Reader.store_run _ _ _)] at h
  right
  refine ⟨m, n, w, r.length, hbytes, hwbytes, ?_, ?_⟩
  · rintro rfl
    exact hc (List.cons.inj (hq'.symm.trans hw.rest)).1
  · have hspaces := skipSpaces_error h
    refine hm.rest.trans (congrArg _ ?_)
    rw [hrest, hw.rest, ← hspaces]
    rfl

theorem first_of_target {m : Bytes} (hm : ∀ b ∈ m, isTargetByte b = true) (p : Bytes) :
    ∃ c q, m ++ space :: p = c :: q ∧ c ≠ cr ∧ c ≠ lf := by
  cases m with
  | nil => exact ⟨space, p, rfl, by decide, by decide⟩
  | cons c m =>
    have hc := isTargetByte_ne (hm c (by simp))
    exact ⟨c, m ++ space :: p, rfl, hc.1, hc.2.1⟩

theorem parseRequest_start {m p : Bytes} (hm : ∀ b ∈ m, isTargetByte b = true) (sse : Bool)
    (maxHeaders : ℕ) (l : Option LineEnd) (b : Bytes) :
    (parseRequest sse maxHeaders).run b.length
        ⟨0, emptyBytes l ++ (m ++ space :: p) ++ b, .init⟩ =
      (parseTargets sse >>= fun _ => afterTargets sse maxHeaders).run b.length
        ⟨(emptyBytes l).length, m ++ space :: p ++ b, .init⟩ := by
  obtain ⟨c, q, hfirst, hcr, hlf⟩ := first_of_target hm p
  have hempty : (lineEnd (pure ())).run 0 ⟨0, emptyBytes l ++ (m ++ space :: p), .init⟩ =
      .ok () ⟨(emptyBytes l).length, m ++ space :: p, .init⟩ :=
    emptyLine_eq_ok.mpr ⟨l, ⟨rfl, (Nat.zero_add _).symm, rfl⟩, fun _ => ⟨c, q, hfirst, hcr, hlf⟩⟩
  have hcheck : checkEof.run 0 ⟨0, emptyBytes l ++ (m ++ space :: p), .init⟩ =
      .ok () ⟨0, emptyBytes l ++ (m ++ space :: p), .init⟩ :=
    Reader.checkEnd_eq_ok.mpr ⟨by simp [hfirst], rfl⟩
  have hempty' := (settles_lineEnd (.pure ())).ok hempty [] b
  have hcheck' := settles_checkEof.ok hcheck [] b
  rw [List.nil_append] at hempty' hcheck'
  unfold parseRequest
  exact (Reader.bind_of_ok hcheck').trans (Reader.bind_of_ok hempty')

theorem advanceToken_end (sse : Bool) (i : ℕ) (b : Bytes) (out : Head) :
    (advanceToken sse).run b.length ⟨i, b, out⟩ = .error .incomplete ⟨i, b, out⟩ := by
  have hcheck : checkEof.run b.length ⟨i, b, out⟩ = .error .incomplete ⟨i, b, out⟩ :=
    Reader.checkEnd_of_eq rfl
  unfold advanceToken
  rw [searchThen_space, Reader.bind_of_ok (Reader.offset_run _ _)]
  exact Reader.bind_of_error (Reader.bind_of_error hcheck)

/-- Behind the end of the input the token is not cut off: what lies there stops it, or nothing. -/
theorem advanceToken_past {w q : Bytes} (hw : ∀ c ∈ w, isTargetByte c = true)
    (hq : ∀ c ∈ q.head?, isTargetByte c = false) (sse : Bool) {e : ℕ}
    (he : (w ++ q).length < e) (i : ℕ) (out : Head) :
    (advanceToken sse).run e ⟨i, w ++ q, out⟩ =
      if q = [] then .error (.fault .outside) ⟨i + w.length, [], out⟩
      else if q.head? = some space then .ok ⟨i, w.length⟩ ⟨i + w.length, q, out⟩
      else .error .invalid ⟨i + w.length, q, out⟩ := by
  have hseek : seekSpace.run e ⟨i, w ++ q, out⟩ = (Reader.scan none (.fault .outside) .invalid
      (fun c => c == space) (fun c => !isPrintableAscii c && (c < 32 || c == del)) :
        Parse Unit).run e ⟨i + w.length, q, out⟩ :=
    (Reader.seek_past he i out).trans
      (Reader.scan_pass (fun c hc => (isTargetByte_iff c).mp (hw c hc)) q e i out _)
  unfold advanceToken
  rw [searchThen_space, Reader.bind_of_ok (Reader.offset_run _ _)]
  cases q with
  | nil => exact Reader.bind_of_error hseek
  | cons c q =>
    rw [if_neg (List.cons_ne_nil c q)]
    by_cases hc : c = space
    · subst hc
      have hfound : seekSpace.run e ⟨i, w ++ space :: q, out⟩ =
          .ok () ⟨i + w.length, space :: q, out⟩ := by
        rw [hseek]
        rfl
      rw [List.head?_cons, if_pos rfl, Reader.bind_of_ok hfound,
        Reader.bind_of_ok (Reader.offset_run _ _), Nat.add_sub_cancel_left]
      rfl
    · have hstop : (c == space) = false := beq_eq_false_iff_ne.mpr hc
      have hbad : (!isPrintableAscii c && (c < 32 || c == del)) = true := by
        by_contra hbad
        have htarget := (isTargetByte_iff c).mpr ⟨hstop, by simpa using hbad⟩
        rw [hq c rfl] at htarget
        cases htarget
      have hfound : seekSpace.run e ⟨i, w ++ c :: q, out⟩ =
          .error .invalid ⟨i + w.length, c :: q, out⟩ := by
        rw [hseek]
        exact (if_neg (by simpa using hc)).trans (if_pos hbad)
      rw [if_neg (by simpa using hc)]
      exact Reader.bind_of_error hfound

theorem skipSpaces_past (j : ℕ) {q : Bytes} (hq : ∀ c ∈ q.head?, c ≠ space) (e i : ℕ)
    (out : Head) : skipSpaces.run e ⟨i, List.replicate (j + 1) space ++ q, out⟩ =
      if q = [] then .error (.fault .outside) ⟨i + (j + 1), [], out⟩
      else .ok () ⟨i + (j + 1), q, out⟩ := by
  cases q with
  | nil =>
    rw [if_pos rfl, List.append_nil]
    exact skipSpaces_outside j e i out
  | cons c q =>
    rw [if_neg (List.cons_ne_nil c q)]
    exact skipSpaces_run (hq c rfl) j q e i out

/-- Behind the end of the input there is no room for the version. -/
theorem afterTargets_behind (sse : Bool) (maxHeaders : ℕ) {e : ℕ} {s : Cursor UInt8 Head}
    (hs : s.rest.length ≤ e) : (afterTargets sse maxHeaders).run e s =
      .error (if s.out.method.size = 0 ∨ s.out.path.size = 0 then .invalid else .incomplete) s := by
  have hrequire : (Reader.require Stop.incomplete 9 : Parse Unit).run e s = .error .incomplete s :=
    if_pos (by omega)
  unfold afterTargets
  rw [Reader.bind_of_ok (Reader.stored_run _ _ _)]
  by_cases hempty : s.out.method.size = 0 ∨ s.out.path.size = 0
  · rw [if_pos hempty, if_pos (decide_eq_true hempty)]
    rfl
  · rw [if_neg hempty, if_neg (by simpa using hempty)]
    exact Reader.bind_of_error (Reader.bind_of_error hrequire)

section Open

variable {m : Bytes} (hm : ∀ b ∈ m, isTargetByte b = true) (sse : Bool) (maxHeaders n : ℕ)
  (l : Option LineEnd)
include hm

def methodOut (l : Option LineEnd) (m : Bytes) : Head :=
  { Head.init with method := ⟨(emptyBytes l).length, m.length⟩ }

/-- How a run goes on from the spaces behind the method. -/
theorem parseRequest_method (b : Bytes) :
    (parseRequest sse maxHeaders).run b.length
        ⟨0, emptyBytes l ++ (m ++ List.replicate (n + 1) space) ++ b, .init⟩ =
      (do
        skipSpaces
        let path ← advanceToken sse
        .store (fun out => { out with path := path })
        skipSpaces
        afterTargets sse maxHeaders : Parse Unit).run b.length ⟨(emptyBytes l).length + m.length,
        List.replicate (n + 1) space ++ b, methodOut l m⟩ := by
  have htargets := parseTargets_method hm sse n b (emptyBytes l).length .init
  rw [← List.append_assoc] at htargets
  refine (parseRequest_start hm sse maxHeaders l b).trans ((Reader.bind_congr htargets).trans ?_)
  simp only [bind_assoc]
  rfl

theorem methodOpen_outside : ∃ t, (parseRequest sse maxHeaders).run 0
    ⟨0, emptyBytes l ++ (m ++ List.replicate (n + 1) space), .init⟩ =
      .error (.fault .outside) t := by
  have hskip := skipSpaces_outside n 0 ((emptyBytes l).length + m.length) (methodOut l m)
  have hrun := parseRequest_method hm sse maxHeaders n l []
  rw [List.append_nil, List.append_nil] at hrun
  exact ⟨_, hrun.trans (Reader.bind_of_error hskip)⟩

/-- A byte other than a space behind the input ends the loop. -/
theorem methodOpen_short {c : UInt8} (hc : c ≠ space) (p : Bytes) :
    ∃ t, (parseRequest sse maxHeaders).run (c :: p).length
      ⟨0, emptyBytes l ++ (m ++ List.replicate (n + 1) space) ++ c :: p, .init⟩ =
        .error .incomplete t ∧ t.out = methodOut l m := by
  have hskip := skipSpaces_run hc n p (c :: p).length ((emptyBytes l).length + m.length)
    (methodOut l m)
  exact ⟨_, (parseRequest_method hm sse maxHeaders n l (c :: p)).trans
    ((Reader.bind_of_ok hskip).trans
      (Reader.bind_of_error (advanceToken_end sse _ (c :: p) _))), rfl⟩

variable {w : Bytes} (hw : ∀ b ∈ w, isTargetByte b = true) (hne : w ≠ [])

def pathOut (l : Option LineEnd) (m : Bytes) (n : ℕ) (w : Bytes) : Head :=
  { methodOut l m with path := ⟨(emptyBytes l).length + m.length + (n + 1), w.length⟩ }

omit hm in
theorem parseTargets_path (hm : ∀ b ∈ m, isTargetByte b = true)
    (hw : ∀ b ∈ w, isTargetByte b = true) (hne : w ≠ []) (q b : Bytes) :
    (parseTargets sse).run b.length ⟨(emptyBytes l).length,
        m ++ (List.replicate (n + 1) space ++ (w ++ (space :: q ++ b))), .init⟩ =
      skipSpaces.run b.length ⟨(emptyBytes l).length + m.length + (n + 1) + w.length,
        space :: q ++ b, pathOut l m n w⟩ := by
  obtain ⟨c, v, rfl⟩ := List.exists_cons_of_ne_nil hne
  have hc := (isTargetByte_ne (hw c (by simp))).2.2
  have hskip := skipSpaces_run hc n (v ++ (space :: q ++ b)) b.length
    ((emptyBytes l).length + m.length) (methodOut l m)
  have htoken := advanceToken_run hw sse q b ((emptyBytes l).length + m.length + (n + 1))
    (methodOut l m)
  have hmethod := advanceToken_run hm sse (List.replicate n space ++ (c :: v ++ space :: q)) b
    (emptyBytes l).length .init
  have hassoc : space :: (List.replicate n space ++ (c :: v ++ space :: q)) ++ b =
      List.replicate (n + 1) space ++ (c :: v ++ (space :: q ++ b)) := by
    simp [List.replicate_succ]
  rw [hassoc] at hmethod
  unfold parseTargets
  rw [Reader.bind_of_ok hmethod, Reader.bind_of_ok (Reader.store_run _ _ _)]
  refine (Reader.bind_of_ok hskip).trans ((Reader.bind_of_ok htoken).trans ?_)
  exact Reader.bind_of_ok (Reader.store_run _ _ _)

include hw hne

theorem parseRequest_path (q b : Bytes) :
    (parseRequest sse maxHeaders).run b.length ⟨0, emptyBytes l ++
        (m ++ (List.replicate (n + 1) space ++ (w ++ space :: q))) ++ b, .init⟩ =
      (skipSpaces >>= fun _ => afterTargets sse maxHeaders).run b.length
        ⟨(emptyBytes l).length + m.length + (n + 1) + w.length, space :: q ++ b,
          pathOut l m n w⟩ := by
  have htargets := parseTargets_path sse n l hm hw hne q b
  have hassoc : m ++ (List.replicate (n + 1) space ++ (w ++ (space :: q ++ b))) =
      m ++ space :: (List.replicate n space ++ (w ++ space :: q)) ++ b := by
    simp [List.replicate_succ]
  rw [hassoc] at htargets
  exact (parseRequest_start hm sse maxHeaders l b).trans (Reader.bind_congr htargets)

theorem pathOpen_outside (k : ℕ) : ∃ t, (parseRequest sse maxHeaders).run 0 ⟨0, emptyBytes l ++
    (m ++ (List.replicate (n + 1) space ++ (w ++ List.replicate (k + 1) space))), .init⟩ =
      .error (.fault .outside) t := by
  have hrun := parseRequest_path hm sse maxHeaders n l hw hne (List.replicate k space) []
  rw [← List.replicate_succ, List.append_nil, List.append_nil] at hrun
  exact ⟨_, hrun.trans (Reader.bind_of_error (skipSpaces_outside k 0 _ _))⟩

theorem pathOpen_short {c : UInt8} (hc : c ≠ space) (p : Bytes) (k : ℕ) :
    ∃ t, (parseRequest sse maxHeaders).run (c :: p).length ⟨0, emptyBytes l ++
      (m ++ (List.replicate (n + 1) space ++ (w ++ List.replicate (k + 1) space))) ++ c :: p,
        .init⟩ = .error (if m = [] then .invalid else .incomplete) t ∧ t.out = pathOut l m n w := by
  have hrun := parseRequest_path hm sse maxHeaders n l hw hne (List.replicate k space) (c :: p)
  rw [← List.replicate_succ] at hrun
  have hskip := skipSpaces_run hc k p (c :: p).length
    ((emptyBytes l).length + m.length + (n + 1) + w.length) (pathOut l m n w)
  have hrun := hrun.trans (Reader.bind_of_ok hskip)
  refine ⟨⟨(emptyBytes l).length + m.length + (n + 1) + w.length + (k + 1), c :: p,
    pathOut l m n w⟩, hrun.trans ((afterTargets_behind sse maxHeaders (Nat.le_refl _)).trans ?_),
    rfl⟩
  have hsize : ((pathOut l m n w).method.size = 0 ∨ (pathOut l m n w).path.size = 0) ↔ m = [] := by
    show (m.length = 0 ∨ w.length = 0) ↔ _
    rw [List.length_eq_zero_iff, List.length_eq_zero_iff]
    exact or_iff_left hne
  simp only [hsize]

end Open

/-! ## What is returned -/

/-- On its input alone the parser leaves it exactly in the spaces behind the method or the path. -/
theorem parseRequest_fault_iff {sse : Bool} {maxHeaders : ℕ} {input : Bytes} :
    (∃ f t, (parseRequest sse maxHeaders).run 0 ⟨0, input, .init⟩ = .error (.fault f) t) ↔
      MethodOpen input ∨ PathOpen input := by
  constructor
  · rintro ⟨f, t, h⟩
    unfold parseRequest at h
    rcases Reader.bind_eq_error.mp h with hcheck | ⟨_, s, hcheck, h⟩
    · exact absurd rfl ((stays_checkEof _ trivial).2 _ _ hcheck f)
    obtain ⟨hinput, rfl⟩ := Reader.checkEnd_eq_ok.mp hcheck
    rcases Reader.bind_eq_error.mp h with hempty | ⟨_, s, hempty, h⟩
    · have hpure : Stays Nonempty (pure () : Parse Unit) (fun _ => Anywhere) :=
        .of_ok fun s _ => ⟨(), s, rfl, trivial⟩
      exact absurd rfl ((stays_lineEnd hpure _ hinput).2 _ _ hempty f)
    obtain ⟨l, hl, -⟩ := emptyLine_eq_ok.mp hempty
    rcases Reader.bind_eq_error.mp h with htargets | ⟨_, s', htargets, h⟩
    · rcases parseTargets_fault htargets with ⟨m, n, hm, hrest⟩ | ⟨m, n, w, k, hm, hw, hne, hrest⟩
      · exact .inl ⟨l, m, n, hm, hl.rest.trans (congrArg _ hrest)⟩
      · exact .inr ⟨l, m, n, w, k, hm, hw, hne, hl.rest.trans (congrArg _ hrest)⟩
    · exact absurd rfl ((stays_afterTargets sse maxHeaders _ trivial).2 _ _ h f)
  · rintro (⟨l, m, n, hm, rfl⟩ | ⟨l, m, n, w, k, hm, hw, hne, rfl⟩)
    · exact ⟨_, methodOpen_outside hm sse maxHeaders n l⟩
    · exact ⟨_, pathOpen_outside hm sse maxHeaders n l hw hne k⟩

/-- Where the parser stays in its input, what lies behind makes no difference. -/
theorem parseRequest_closed {sse : Bool} {maxHeaders : ℕ} {input : Bytes}
    (h : ¬ (MethodOpen input ∨ PathOpen input)) (behind : Bytes) :
    (parseRequest sse maxHeaders).run behind.length ⟨0, input ++ behind, .init⟩ =
      Reader.extendResult ((parseRequest sse maxHeaders).run 0 ⟨0, input, .init⟩) behind := by
  have hsettled := settles_parseRequest sse maxHeaders
  cases hrun : (parseRequest sse maxHeaders).run 0 ⟨0, input, .init⟩ with
  | ok u t => exact hsettled.ok hrun [] behind
  | error r t =>
    cases r with
    | invalid => exact hsettled.final hrun rfl [] behind
    | incomplete => exact hsettled.short hrun rfl behind
    | fault f => exact absurd (parseRequest_fault_iff.mp ⟨f, t, hrun⟩) h

theorem shrinks_skipSpaces : Reader.Shrinks skipSpaces :=
  (Reader.Shrinks.advance _).bind fun _ => .scan _ _ _ _ _

theorem shrinks_advanceToken (sse : Bool) : Reader.Shrinks (advanceToken sse) := by
  unfold advanceToken
  rw [searchThen_space]
  apply Reader.Shrinks.bind (.of_stay fun _ _ _ _ h => by cases h; rfl)
  intro start
  apply Reader.Shrinks.bind ((Reader.Shrinks.checkEnd _).bind fun _ => .scan _ _ _ _ _)
  intro _
  exact .of_stay fun _ _ _ _ h => by cases h; rfl

theorem skipSpaces_over (n : ℕ) (b : Bytes) {e i : ℕ} {out : Head} {u : Unit}
    {s' : Cursor UInt8 Head}
    (h : skipSpaces.run e ⟨i, List.replicate (n + 1) space ++ b, out⟩ = .ok u s') :
    s'.rest.length ≤ b.length := by
  have hspace : ∀ x ∈ List.replicate n space, (x != space) = false := by
    intro x hx
    rw [List.eq_of_mem_replicate hx]
    rfl
  have hscan := (Reader.scan_over hspace b e (i + 1) out Stop.invalid).symm.trans h
  exact Reader.Shrinks.scan _ _ _ _ _ e _ u s' hscan

/-- What lies behind the input never completes a request. -/
theorem parseRequest_open {sse : Bool} {maxHeaders : ℕ} {input behind : Bytes}
    (h : MethodOpen input ∨ PathOpen input) {u : Unit} {t : Cursor UInt8 Head} :
    (parseRequest sse maxHeaders).run behind.length ⟨0, input ++ behind, .init⟩ ≠ .ok u t := by
  intro hok
  rcases h with ⟨l, m, n, hm, rfl⟩ | ⟨l, m, n, w, k, hm, hw, hne, rfl⟩
  · obtain ⟨_, s, htargets, hafter⟩ := Reader.bind_eq_ok.mp
      ((parseRequest_start (p := List.replicate n space) hm sse maxHeaders l behind).symm.trans hok)
    have hassoc : m ++ space :: List.replicate n space ++ behind =
        m ++ (List.replicate (n + 1) space ++ behind) := by
      simp [List.replicate_succ]
    rw [hassoc, parseTargets_method hm] at htargets
    obtain ⟨_, s₁, hskip, htargets⟩ := Reader.bind_eq_ok.mp htargets
    obtain ⟨d, s₂, htoken, htargets⟩ := Reader.bind_eq_ok.mp htargets
    rw [Reader.bind_of_ok (Reader.store_run _ _ _)] at htargets
    have h₁ := skipSpaces_over n behind hskip
    have h₂ := shrinks_advanceToken sse _ _ _ _ htoken
    have h₃ := shrinks_skipSpaces _ _ _ _ htargets
    cases (afterTargets_behind sse maxHeaders (h₃.trans (h₂.trans h₁))).symm.trans hafter
  · have hrun := parseRequest_path hm sse maxHeaders n l hw hne (List.replicate k space) behind
    obtain ⟨_, s, hskip, hafter⟩ := Reader.bind_eq_ok.mp (hrun.symm.trans hok)
    cases (afterTargets_behind sse maxHeaders (skipSpaces_over k behind hskip)).symm.trans hafter

/-! ## What lies behind the input -/

/-- What comes of an input that ends in the `n + 1` spaces behind the method `m`: a byte that is
not a space ends them; behind more spaces the parser reads on, through a path and the spaces behind
it, since it is past the end that it checks for. -/
def methodReply (l : Option LineEnd) (m : Bytes) (n : ℕ) (behind : Bytes) :
    Except Fault (ℤ × Head) :=
  let word := behind.dropWhile (fun c => c == space)
  let spaces := behind.length - word.length
  let path := word.takeWhile isTargetByte
  let rest := word.dropWhile isTargetByte
  if word = [] then .error .outside
  else if spaces = 0 then .ok (-2, methodOut l m)
  else if rest.all (fun c => c == space) then .error .outside
  else if rest.head? = some space then
    .ok (if m = [] then -1 else -2, pathOut l m (n + spaces) path)
  else .ok (-1, methodOut l m)

def pathReply (l : Option LineEnd) (m : Bytes) (n : ℕ) (w behind : Bytes) :
    Except Fault (ℤ × Head) :=
  if behind.all (fun c => c == space) then .error .outside
  else .ok (if m = [] then -1 else -2, pathOut l m n w)

theorem dropWhile_spaces (j : ℕ) {q : Bytes} (hq : ∀ c ∈ q.head?, c ≠ space) :
    (List.replicate j space ++ q).dropWhile (fun c => c == space) = q := by
  rw [List.dropWhile_append_of_pos (by simp)]
  cases q with
  | nil => rfl
  | cons c q => exact List.dropWhile_cons_of_neg (by simpa using hq c rfl)

theorem all_spaces (j : ℕ) {q : Bytes} (hq : ∀ c ∈ q.head?, c ≠ space) :
    (List.replicate j space ++ q).all (fun c => c == space) = true ↔ q = [] := by
  rw [List.all_append, Bool.and_eq_true]
  constructor
  · rintro ⟨-, hall⟩
    cases q with
    | nil => rfl
    | cons c q => exact absurd (by simpa using List.all_eq_true.mp hall c (by simp)) (hq c rfl)
  · rintro rfl
    simp

theorem methodReply_cons (l : Option LineEnd) (m : Bytes) (n : ℕ) {c : UInt8} (hc : c ≠ space)
    (p : Bytes) : methodReply l m n (c :: p) = .ok (-2, methodOut l m) := by
  have hword : (c :: p).dropWhile (fun c => c == space) = c :: p :=
    List.dropWhile_cons_of_neg (by simpa using hc)
  rw [methodReply, hword]
  simp

theorem returned_path {m : Bytes} (sse : Bool) (maxHeaders n : ℕ) (l : Option LineEnd) {w : Bytes}
    (hne : w ≠ []) (k : ℕ) {q : Bytes} (hq : ∀ c ∈ q.head?, c ≠ space) {e : ℕ} (he : q.length ≤ e)
    (i : ℕ) : returned ((skipSpaces >>= fun _ => afterTargets sse maxHeaders).run e
      ⟨i, List.replicate (k + 1) space ++ q, pathOut l m n w⟩) =
        if q = [] then .error .outside else .ok (if m = [] then -1 else -2, pathOut l m n w) := by
  have hskip := skipSpaces_past k hq e i (pathOut l m n w)
  have hsize : ((pathOut l m n w).method.size = 0 ∨ (pathOut l m n w).path.size = 0) ↔ m = [] := by
    show (m.length = 0 ∨ w.length = 0) ↔ _
    rw [List.length_eq_zero_iff, List.length_eq_zero_iff]
    exact or_iff_left hne
  by_cases hnil : q = []
  · rw [if_pos hnil] at hskip ⊢
    rw [Reader.bind_of_error hskip]
    rfl
  · rw [if_neg hnil] at hskip ⊢
    rw [Reader.bind_of_ok hskip, afterTargets_behind sse maxHeaders he]
    simp only [hsize]
    split_ifs <;> rfl

theorem phrParseRequest_eq (sse : Bool) (input behind : Bytes) (maxHeaders : ℕ) :
    phrParseRequest sse input behind maxHeaders 0 =
      returned ((parseRequest sse maxHeaders).run behind.length ⟨0, input ++ behind, .init⟩) := rfl

theorem phrParseRequest_path {m w : Bytes} (hm : ∀ b ∈ m, isTargetByte b = true)
    (hw : ∀ b ∈ w, isTargetByte b = true) (hne : w ≠ []) (sse : Bool) (maxHeaders n k : ℕ)
    (l : Option LineEnd) (behind : Bytes) :
    phrParseRequest sse (emptyBytes l ++ (m ++ (List.replicate (n + 1) space ++
      (w ++ List.replicate (k + 1) space)))) behind maxHeaders 0 = pathReply l m n w behind := by
  obtain ⟨j, q, rfl, hq⟩ := exists_spaces behind
  have hrun := parseRequest_path hm sse maxHeaders n l hw hne (List.replicate k space)
    (List.replicate j space ++ q)
  have hspaces : space :: List.replicate k space ++ (List.replicate j space ++ q) =
      List.replicate (k + j + 1) space ++ q := by
    rw [← List.replicate_succ, ← List.append_assoc, List.replicate_append_replicate,
      Nat.add_right_comm]
  rw [hspaces] at hrun
  rw [phrParseRequest_eq, List.replicate_succ (n := k), hrun,
    returned_path sse maxHeaders n l hne _ hq (by rw [List.length_append]; omega), pathReply]
  simp only [all_spaces j hq]

theorem returned_word (sse : Bool) (maxHeaders n : ℕ) (l : Option LineEnd) (m : Bytes) {q : Bytes}
    (hq : ∀ c ∈ q.head?, c ≠ space) {e : ℕ} (he : q.length < e) : returned ((do
        let path ← advanceToken sse
        .store (fun out => { out with path := path })
        skipSpaces
        afterTargets sse maxHeaders : Parse Unit).run e
          ⟨(emptyBytes l).length + m.length + (n + 1), q, methodOut l m⟩) =
      if (q.dropWhile isTargetByte).all (fun c => c == space) then .error .outside
      else if (q.dropWhile isTargetByte).head? = some space then
        .ok (if m = [] then -1 else -2, pathOut l m n (q.takeWhile isTargetByte))
      else .ok (-1, methodOut l m) := by
  have hsplit := List.takeWhile_append_dropWhile (p := isTargetByte) (l := q)
  have hw : ∀ c ∈ q.takeWhile isTargetByte, isTargetByte c = true := fun _ =>
    List.mem_takeWhile_imp
  have hrest : ∀ c ∈ (q.dropWhile isTargetByte).head?, isTargetByte c = false := by
    intro c hc
    have hnot := List.head?_dropWhile_not isTargetByte q
    rw [Option.mem_def.mp hc] at hnot
    simpa using hnot
  have htoken := advanceToken_past hw hrest sse (e := e) (by rwa [hsplit])
    ((emptyBytes l).length + m.length + (n + 1)) (methodOut l m)
  rw [hsplit] at htoken
  cases hdrop : q.dropWhile isTargetByte with
  | nil =>
    rw [hdrop, if_pos rfl] at htoken
    rw [Reader.bind_of_error htoken]
    rfl
  | cons d r =>
    rw [hdrop, if_neg (List.cons_ne_nil d r)] at htoken
    by_cases hd : d = space
    · subst hd
      rw [List.head?_cons, if_pos rfl] at htoken
      have hne : q.takeWhile isTargetByte ≠ [] := by
        intro hempty
        rw [hempty, hdrop] at hsplit
        exact hq space (by rw [← hsplit]; rfl) rfl
      obtain ⟨k, r, rfl, hr⟩ := exists_spaces r
      have hlength := congrArg List.length hsplit
      rw [hdrop, List.length_append, List.length_cons, List.length_append] at hlength
      rw [Reader.bind_of_ok htoken, Reader.bind_of_ok (Reader.store_run _ _ _), ← List.cons_append,
        ← List.replicate_succ]
      refine (returned_path sse maxHeaders n l hne k hr (by omega) _).trans ?_
      simp only [all_spaces (k + 1) hr]
      rw [List.replicate_succ, List.cons_append, List.head?_cons, if_pos rfl]
    · rw [if_neg (by simpa using hd)] at htoken
      rw [Reader.bind_of_error htoken, if_neg (by simp [hd]), if_neg (by simpa using hd)]
      rfl

theorem phrParseRequest_method {m : Bytes} (hm : ∀ b ∈ m, isTargetByte b = true) (sse : Bool)
    (maxHeaders n : ℕ) (l : Option LineEnd) (behind : Bytes) :
    phrParseRequest sse (emptyBytes l ++ (m ++ List.replicate (n + 1) space)) behind maxHeaders 0 =
      methodReply l m n behind := by
  obtain ⟨j, q, rfl, hq⟩ := exists_spaces behind
  have hspaces : List.replicate (n + 1) space ++ (List.replicate j space ++ q) =
      List.replicate (n + j + 1) space ++ q := by
    rw [← List.append_assoc, List.replicate_append_replicate, Nat.add_right_comm]
  have hrun := parseRequest_method hm sse maxHeaders n l (List.replicate j space ++ q)
  rw [hspaces] at hrun
  have hskip := skipSpaces_past (n + j) hq (List.replicate j space ++ q).length
    ((emptyBytes l).length + m.length) (methodOut l m)
  have hcount : (List.replicate j space ++ q).length - q.length = j := by
    rw [List.length_append, List.length_replicate, Nat.add_sub_cancel]
  rw [phrParseRequest_eq, hrun, methodReply, dropWhile_spaces j hq, hcount]
  by_cases hnil : q = []
  · rw [if_pos hnil] at hskip ⊢
    rw [Reader.bind_of_error hskip]
    rfl
  rw [if_neg hnil] at hskip ⊢
  rw [Reader.bind_of_ok hskip]
  by_cases hj : j = 0
  · subst hj
    rw [if_pos rfl]
    exact congrArg returned (Reader.bind_of_error (advanceToken_end sse _ q _))
  rw [if_neg hj]
  exact returned_word sse maxHeaders (n + j) l m hq
    (by rw [List.length_append, List.length_replicate]; omega)

theorem returned_extendResult {σ : Type} (r : Result UInt8 σ Stop Unit) (x : Bytes) :
    returned (Reader.extendResult r x) = returned r := by
  cases r with
  | ok u t => rfl
  | error r t => cases r <;> rfl

theorem phrParseRequest_closed (sse : Bool) (maxHeaders : ℕ) {input : Bytes}
    (hopen : ¬ (MethodOpen input ∨ PathOpen input)) :
    ∃ r, ∀ behind, phrParseRequest sse input behind maxHeaders 0 = .ok r := by
  cases hrun : (parseRequest sse maxHeaders).run 0 ⟨0, input, .init⟩ with
  | ok u t =>
    refine ⟨(cint t.offset, t.out), fun behind => ?_⟩
    rw [phrParseRequest_eq, parseRequest_closed hopen, returned_extendResult, hrun]
    rfl
  | error r t =>
    cases r with
    | invalid =>
      refine ⟨(-1, t.out), fun behind => ?_⟩
      rw [phrParseRequest_eq, parseRequest_closed hopen, returned_extendResult, hrun]
      rfl
    | incomplete =>
      refine ⟨(-2, t.out), fun behind => ?_⟩
      rw [phrParseRequest_eq, parseRequest_closed hopen, returned_extendResult, hrun]
      rfl
    | fault f => exact absurd (parseRequest_fault_iff.mp ⟨f, t, hrun⟩) hopen

/-- With `last_len` 0 the parser looks at its input only, and returns the same whatever lies behind
it, unless the input ends in the spaces behind the method or the path. There it reads on, and what
it returns is `methodReply` or `pathReply` of the memory behind the input. -/
theorem phrParseRequest_behind (sse : Bool) (maxHeaders : ℕ) :
    (∀ input, ¬ (MethodOpen input ∨ PathOpen input) →
      ∃ r, ∀ behind, phrParseRequest sse input behind maxHeaders 0 = .ok r) ∧
    (∀ (l : Option LineEnd) (m : Bytes) (n : ℕ) (behind : Bytes),
      (∀ b ∈ m, isTargetByte b = true) →
        phrParseRequest sse (emptyBytes l ++ (m ++ List.replicate (n + 1) space)) behind
          maxHeaders 0 = methodReply l m n behind) ∧
    ∀ (l : Option LineEnd) (m : Bytes) (n : ℕ) (w : Bytes) (k : ℕ) (behind : Bytes),
      (∀ b ∈ m, isTargetByte b = true) → (∀ b ∈ w, isTargetByte b = true) → w ≠ [] →
        phrParseRequest sse (emptyBytes l ++ (m ++ (List.replicate (n + 1) space ++
          (w ++ List.replicate (k + 1) space)))) behind maxHeaders 0 =
            pathReply l m n w behind := by
  exact ⟨fun input hopen => phrParseRequest_closed sse maxHeaders hopen, fun l m n behind hm =>
    phrParseRequest_method hm sse maxHeaders n l behind, fun l m n w k behind hm hw hne =>
    phrParseRequest_path hm hw hne sse maxHeaders n k l behind⟩

/-- A request that may still arrive is rejected for a byte behind it. -/
example : phrParseRequest true (str "POST ") (str " HTTP/1.1\r\n\r\n") 16 0 =
    .ok (-1, methodOut none (str "POST")) := by decide

theorem cint_of_lt {n : ℕ} (h : n < 2 ^ 31) : cint n = n := by
  unfold cint
  rw [Int.bmod_def]
  omega

theorem returned_pos {σ : Type} {r : Result UInt8 σ Stop Unit} {n : ℤ} {head : σ}
    (h : returned r = .ok (n, head)) (hn : 0 < n) :
    ∃ t, r = .ok () t ∧ n = cint t.offset ∧ head = t.out := by
  cases r with
  | ok u t =>
    obtain ⟨rfl, rfl⟩ := Prod.mk.inj (Except.ok.inj h)
    exact ⟨t, rfl, rfl, rfl⟩
  | error r t =>
    cases r with
    | invalid =>
      obtain ⟨rfl, -⟩ := Prod.mk.inj (Except.ok.inj h)
      omega
    | incomplete =>
      obtain ⟨rfl, -⟩ := Prod.mk.inj (Except.ok.inj h)
      omega
    | fault f => cases h

theorem RequestHead.length_pos {maxHeaders : ℕ} (h : RequestHead maxHeaders) :
    0 < h.bytes.length := by
  have := List.length_pos_iff.mpr h.method_ne
  simp only [RequestHead.bytes, RequestHead.requestLine, List.length_append]
  omega

/-- With `last_len` 0, on inputs below 2^31 bytes the parser accepts exactly those that begin with a
request's head, returns the head's length and stores the places of its parts. -/
theorem phrParseRequest_head (sse : Bool) {input : Bytes} (hlen : input.length < 2 ^ 31)
    (behind : Bytes) (maxHeaders : ℕ) (r : ℤ) (head : Head) :
    (phrParseRequest sse input behind maxHeaders 0 = .ok (r, head) ∧ 0 < r) ↔
      ∃ (h : RequestHead maxHeaders) (rest : Bytes), input = h.bytes ++ rest ∧
        r = h.bytes.length ∧ head = h.places := by
  rw [phrParseRequest_eq]
  constructor
  · rintro ⟨hrun, hpos⟩
    obtain ⟨t, ht, hr, hhead⟩ := returned_pos hrun hpos
    by_cases hopen : MethodOpen input ∨ PathOpen input
    · exact absurd ht (parseRequest_open hopen)
    rw [parseRequest_closed hopen] at ht
    cases hinput : (parseRequest sse maxHeaders).run 0 ⟨0, input, .init⟩ with
    | error r t =>
      rw [hinput] at ht
      cases ht
    | ok u s =>
      rw [hinput] at ht
      cases ht
      obtain ⟨h, hrest, hoffset, hout⟩ := parseRequest_eq_ok.mp hinput
      have hrest : input = h.bytes ++ s.rest := hrest
      have hoffset : s.offset = h.bytes.length := hoffset.trans (Nat.zero_add _)
      refine ⟨h, s.rest, hrest, ?_, hhead.trans hout⟩
      rw [hrest, List.length_append] at hlen
      rw [hr, Cursor.extend_offset, hoffset, cint_of_lt (by omega)]
  · rintro ⟨h, rest, rfl, rfl, rfl⟩
    have hrun : (parseRequest sse maxHeaders).run 0 ⟨0, h.bytes ++ rest, .init⟩ =
        .ok () ⟨h.bytes.length, rest, h.places⟩ :=
      parseRequest_eq_ok.mpr ⟨h, rfl, (Nat.zero_add _).symm, rfl⟩
    have hext := (settles_parseRequest sse maxHeaders).ok hrun [] behind
    rw [List.length_append] at hlen
    refine ⟨?_, by have := h.length_pos; omega⟩
    refine (congrArg returned hext).trans ?_
    show Except.ok (cint h.bytes.length, h.places) = _
    rw [cint_of_lt (by omega)]

def getHead : RequestHead 16 where
  emptyLine := none
  method := str "GET"
  spaces := (0, 0)
  path := str "/"
  minorVersion := 0
  lineEnd := .crlf
  headers := []
  last := .crlf
  method_ne := by decide
  method_bytes := List.all_eq_true.mp rfl
  path_ne := by decide
  path_bytes := List.all_eq_true.mp rfl
  minorVersion_lt := by decide
  headers_le := by decide
  headers_first := by decide

theorem phrParseRequest_head_get :
    phrParseRequest true (getHead.bytes ++ str "GET") [] 16 0 = .ok (18, getHead.places) :=
  ((phrParseRequest_head true (by decide) [] 16 18 getHead.places).mpr
    ⟨getHead, str "GET", rfl, by decide, rfl⟩).1

end LibReactor.Phr
