import LibReactor.ResolverReplies
import Mathlib.Data.Finset.Card
import Mathlib.Data.Finset.Range

/-!
# Every request is answered

The event loop, the workers and the callbacks that return make all requests come to an end: each of
their steps leaves less work, and one of them is there as long as a request waits.
-/

namespace LibReactor

/-- A step of the event loop or a worker, or the return of a callback. -/
def NetworkLabel.serves : NetworkLabel → Bool
  | .next _ _ | .store _ _ | .asyncReturn _ | .return | .go _ => true
  | _ => false

/-- How many steps a frame may take. -/
def NetworkFrame.work : NetworkFrame → ℕ
  | .resolved _ _ _ => 3
  | .deliver _ rs => 1 + 4 * rs.length
  | _ => 1

namespace Network

open Transition

def waiting (tasks : ℕ) (task : ℕ → NetworkTask) : Finset ℕ :=
  (Finset.range tasks).filter fun t => (task t).next = true

def work (s : Network) : ℕ :=
  8 * (waiting s.tasks s.task).card + 4 * s.requests.length +
    2 * (s.lookups.countP fun l => !l.returned) + (s.lookups.countP fun l => l.result.isNone) +
      (s.stack.map NetworkFrame.work).sum

structure Settled (s : Network) : Prop where
  stack : s.stack = []
  next : ∀ t, (s.task t).next = false
  returned : ∀ l ∈ s.lookups, l.returned = true

variable {s s' : Network} {t n : ℕ} {l : NetworkLookup}

/-! ## Work -/

theorem work_cons {f : NetworkFrame} {rest : List NetworkFrame} (hs : s.stack = f :: rest) :
    s.work = f.work + Network.work { s with stack := rest } := by
  rw [work, hs, List.map_cons, List.sum_cons, work]
  exact Nat.add_left_comm _ _ _

theorem sum_quiet {frames : List NetworkFrame} (h : ∀ f ∈ frames, f.quiet = true) :
    (frames.map NetworkFrame.work).sum = frames.length := by
  induction frames with
  | nil => rfl
  | cons f frames ih =>
    have hf : f.work = 1 := by
      have hquiet := h f (List.mem_cons_self ..)
      cases f with
      | called | resolveDone | errorCancel | connectDone => rfl
      | resolved | deliver | freeAddress => cases hquiet
    rw [List.map_cons, List.sum_cons, hf, ih fun g hg => h g (List.mem_cons_of_mem _ hg),
      List.length_cons, Nat.add_comm]

theorem Beside.work_le {k : ℕ} (hb : Beside k s s') : s'.work ≤ s.work + k := by
  obtain ⟨new, hstack, hnew, hlength⟩ := hb.stack
  have hwaiting : waiting s'.tasks s'.task = waiting s.tasks s.task := by
    rw [waiting, waiting, hb.tasks]
    exact Finset.filter_congr fun t _ => by rw [hb.next]
  rw [work, work, hwaiting, hb.requests, hb.lookups, hstack, List.map_append, List.sum_append,
    sum_quiet hnew]
  omega

theorem waiting_turn {tasks : ℕ} {task : ℕ → NetworkTask} (hlt : t < tasks)
    (ht : (task t).next = true) :
    (waiting tasks (Function.update task t { task t with next := false })).card <
      (waiting tasks task).card := by
  apply Finset.card_lt_card
  refine Finset.ssubset_iff_subset_ne.mpr ⟨fun x hx => ?_, fun heq => ?_⟩
  · obtain ⟨hx, hnext⟩ := Finset.mem_filter.mp hx
    refine Finset.mem_filter.mpr ⟨hx, ?_⟩
    by_cases hne : x = t
    · exact hne ▸ ht
    · rwa [Function.update_of_ne hne] at hnext
  · have hmem : t ∈ waiting tasks task := Finset.mem_filter.mpr ⟨Finset.mem_range.mpr hlt, ht⟩
    rw [← heq] at hmem
    have hnext := (Finset.mem_filter.mp hmem).2
    rw [Function.update_self] at hnext
    cases hnext

/-- The turn of a request that is answered at once. -/
theorem work_turn (hstack : s.stack = []) (hlt : t < s.tasks) (ht : (s.task t).next = true)
    {lists : ℕ} {frames : List NetworkFrame} (hframes : (frames.map NetworkFrame.work).sum < 8) :
    Network.work { s with
      task := Function.update s.task t { s.task t with next := false }
      lists := lists
      stack := frames } < s.work := by
  have hturn := waiting_turn hlt ht
  rw [work, work, hstack, List.map_nil, List.sum_nil]
  dsimp only at hturn ⊢
  omega

/-- The turn of a request that is queued. -/
theorem work_queue (hstack : s.stack = []) (hlt : t < s.tasks) (ht : (s.task t).next = true)
    {key : Bytes} {q : NetworkRequest} {cache : Bytes → Option NetworkCache}
    {new : List NetworkLookup} (hnew : new.length ≤ 1) {freedLists : List ℕ} :
    Network.work { s with
      task := Function.update s.task t { s.task t with next := false }
      requests := s.requests ++ [(key, q)]
      cache := cache
      lookups := s.lookups ++ new
      freedLists := freedLists } < s.work := by
  have hturn := waiting_turn hlt ht
  have hreturned := new.countP_le_length (p := fun l : NetworkLookup => !l.returned)
  have hresult := new.countP_le_length (p := fun l : NetworkLookup => l.result.isNone)
  rw [work, work, hstack, List.map_nil, List.sum_nil]
  dsimp only at hturn ⊢
  rw [List.length_append, List.length_singleton, List.countP_append, List.countP_append]
  omega

theorem Safe.work_next (h : Safe s) (hstack : s.stack = [])
    (ht : (s.task t).next = true) (found : Bool) :
    (s.networkResolveTaskNext t found).work < s.work := by
  have hself : (s.setTask t { s.task t with next := false }).task t =
      { s.task t with next := false } := Function.update_self ..
  have hlt := h.linked.lt_of_next ht
  rw [Network.networkResolveTaskNext, access_live (h.linked.waiting t ht).1]
  simp only [hself]
  split
  · cases found with
    | true =>
      simp only [getaddrinfo, if_true, push, setTask, hstack]
      exact work_turn hstack hlt ht (by simp [NetworkFrame.work])
    | false =>
      simp only [getaddrinfo, Bool.false_eq_true, if_false, push, setTask, hstack]
      exact work_turn hstack hlt ht (by simp [NetworkFrame.work])
  · split
    · simp only [push, setTask, hstack]
      exact work_turn hstack hlt ht (by simp [NetworkFrame.work])
    · rw [enqueue_eq, hself]
      have hnext : ((s.setTask t { s.task t with next := false }).task t).next = false :=
        congrArg NetworkTask.next hself
      refine Nat.lt_of_le_of_lt (beside_networkResolveTaskDone (by exact hnext)).work_le ?_
      refine work_queue hstack hlt ht ?_
      split
      · exact Nat.le_refl 1
      · exact Nat.zero_le 1

/-! ## Lookups -/

theorem countP_set {lookups : List NetworkLookup} (l' : NetworkLookup) (p : NetworkLookup → Bool)
    (hl : lookups[n]? = some l) : (lookups.set n l').countP p + (if p l then 1 else 0) =
      lookups.countP p + if p l' then 1 else 0 := by
  obtain ⟨hlt, rfl⟩ := List.getElem?_eq_some_iff.mp hl
  rw [List.countP_set hlt]
  split
  · have hpos : 0 < lookups.countP p := List.countP_pos_iff.mpr ⟨_, List.getElem_mem hlt, ‹_›⟩
    omega
  · omega

theorem work_store (hl : s.lookups[n]? = some l) (hresult : l.result = none) (found : Bool) :
    (s.store n l found).work < s.work := by
  have hset : ∀ ai lists cache, Network.work { s with
      lists := lists
      lookups := s.lookups.set n { l with result := some ai }
      cache := cache } < s.work := by
    intro ai lists cache
    have hreturned := countP_set { l with result := some ai } (fun l => !l.returned) hl
    have hnone := countP_set { l with result := some ai } (fun l => l.result.isNone) hl
    simp only [hresult, Option.isNone_none, Option.isNone_some, if_true, Bool.false_eq_true,
      if_false] at hnone
    rw [work, work]
    dsimp only at hreturned ⊢
    omega
  cases found with
  | true =>
    rw [store_true]
    exact hset _ _ _
  | false =>
    rw [store_false]
    exact hset none s.lists s.cache

theorem work_asyncReturn (hl : s.lookups[n]? = some l) (hreturned : l.returned = false) :
    (s.asyncReturn n l).work < s.work := by
  have hset := countP_set { l with returned := true } (fun l => !l.returned) hl
  have hnone := countP_set { l with returned := true } (fun l => l.result.isNone) hl
  have hlength := s.requests.length_eq_length_filter_add fun x => x.1 = l.key
  simp only [hreturned, Bool.not_false, Bool.not_true, if_true, Bool.false_eq_true, if_false]
    at hset
  rw [asyncReturn_eq, work, work]
  simp only [List.map_cons, List.sum_cons, NetworkFrame.work, List.length_map, decide_not]
  dsimp only at hnone
  omega

/-! ## Every step of the event loop -/

theorem work_pop {f : NetworkFrame} {rest : List NetworkFrame} (hs : s.stack = f :: rest) {k : ℕ}
    (hk : k < f.work) (hb : Beside k { s with stack := rest } s') : s'.work < s.work := by
  have hle := hb.work_le
  rw [work_cons hs]
  omega

theorem Safe.work_go (h : Safe s) {socket : SocketResult} (hstep : s.go socket = some s') :
    s'.work < s.work := by
  rw [Network.go] at hstep
  split at hstep
  next r source ai rest hs =>
    obtain rfl := Option.some.inj hstep
    have hle : Network.work (Network.reply r source ai socket { s with stack := rest }) ≤
        Network.work { s with stack := rest } + 2 :=
      (beside_reply (s := { s with stack := rest }) r source ai socket).work_le
    rw [work_cons hs]
    exact Nat.lt_of_le_of_lt hle (by rw [NetworkFrame.work]; omega)
  next n r rs rest hs =>
    obtain rfl := Option.some.inj hstep
    rw [work_cons hs, work_cons rfl, work_cons rfl]
    simp only [NetworkFrame.work, List.length_cons]
    omega
  next n rest hs =>
    obtain rfl := Option.some.inj hstep
    exact work_pop hs Nat.one_pos (Beside.refl _)
  next ai rest hs =>
    obtain rfl := Option.some.inj hstep
    rw [work_cons hs]
    cases ai with
    | none => exact Nat.lt_add_of_pos_left Nat.one_pos
    | some a => exact Nat.lt_add_of_pos_left Nat.one_pos
  next t rest hs =>
    obtain rfl := Option.some.inj hstep
    exact work_pop hs Nat.one_pos (beside_networkResolveTaskDone (h.idle_cons hs rfl).1)
  next t rest hs =>
    obtain rfl := Option.some.inj hstep
    exact work_pop hs Nat.one_pos
      (beside_networkCancel (h.idle_cons hs rfl).1 (h.idle_cons hs rfl).2)
  next t rest hs =>
    obtain rfl := Option.some.inj hstep
    have hset : Beside 0 { s with stack := rest }
        (Network.setTask t { s.task t with fd := none } { s with stack := rest }) :=
      beside_setTask rfl rfl rfl
    refine work_pop hs Nat.one_pos (beside_access (hset.trans (beside_networkTaskDone ?_)))
    exact (update_same NetworkTask.resolve (by rfl) t).trans (h.idle_cons hs rfl).2
  next => cases hstep

/-- Each step of the event loop, a worker or a returning callback leaves less work. -/
theorem Safe.work_lt (h : Safe s) {label : NetworkLabel} (hserves : label.serves = true)
    (hstep : Network.step s label = some s') : s'.work < s.work := by
  unfold Network.step at hstep
  rw [if_neg (by rw [h.failed]; exact Bool.false_ne_true)] at hstep
  cases label with
  | resolve | accept | acceptSocket | connect | cancel | complete | time | expire => cases hserves
  | next t found =>
    obtain ⟨hguard, rfl⟩ := Option.ite_some_none_eq_some.mp hstep
    exact h.work_next hguard.1 hguard.2 found
  | store n found =>
    dsimp only at hstep
    split at hstep
    next lookup hl =>
      obtain ⟨hresult, rfl⟩ := Option.ite_some_none_eq_some.mp hstep
      exact work_store hl hresult found
    next => cases hstep
  | asyncReturn n =>
    dsimp only at hstep
    split at hstep
    next lookup hl =>
      obtain ⟨hguard, rfl⟩ := Option.ite_some_none_eq_some.mp hstep
      exact work_asyncReturn hl hguard.2.2
    next => cases hstep
  | «return» =>
    dsimp only at hstep
    split at hstep
    next t event rest hs =>
      obtain rfl := Option.some.inj hstep
      rw [work_cons hs]
      exact Nat.lt_add_of_pos_left Nat.one_pos
    next => cases hstep
  | go socket => exact h.work_go hstep

/-- One of these steps is there as long as something is left to do. -/
theorem Resolving.progress (hsafe : Safe s) (h : Resolving s) (hsettled : ¬ s.Settled) :
    ∃ label s', label.serves = true ∧ s.timely label = true ∧
      Network.step s label = some s' := by
  have hlive : ¬ s.failed = true := by rw [hsafe.failed]; exact Bool.false_ne_true
  have hgo : ∀ {s'}, s.go .ready = some s' → ∃ label s', label.serves = true ∧
      s.timely label = true ∧ Network.step s label = some s' := fun hgo =>
    ⟨.go .ready, _, rfl, rfl, (if_neg hlive).trans hgo⟩
  cases hs : s.stack with
  | cons f rest =>
    cases f with
    | called t event =>
      exact ⟨.return, _, rfl, rfl, (if_neg hlive).trans (by rw [hs])⟩
    | deliver n rs =>
      cases rs with
      | nil => exact hgo (by rw [Network.go, hs])
      | cons r rs => exact hgo (by rw [Network.go, hs])
    | resolved | freeAddress | resolveDone | errorCancel | connectDone =>
      exact hgo (by rw [Network.go, hs])
  | nil =>
    by_cases hflight : ∃ (n : ℕ) (l : NetworkLookup), s.lookups[n]? = some l ∧ l.returned = false
    · obtain ⟨n, l, hl, hreturned⟩ := hflight
      cases hresult : l.result with
      | none =>
        refine ⟨.store n false, s.store n l false, rfl, rfl, (if_neg hlive).trans ?_⟩
        simp only [hl, hresult, if_true]
      | some ai =>
        refine ⟨.asyncReturn n, s.asyncReturn n l, rfl, rfl, (if_neg hlive).trans ?_⟩
        simp only [hl, hresult]
        exact if_pos ⟨hs, Option.some_ne_none _, hreturned⟩
    · have hdone : ∀ (n : ℕ) (l : NetworkLookup), s.lookups[n]? = some l → l.returned = true :=
        fun n l hl => Bool.eq_true_of_not_eq_false fun hreturned => hflight ⟨n, l, hl, hreturned⟩
      obtain ⟨t, ht⟩ : ∃ t, (s.task t).next = true := by
        by_contra hnone
        refine hsettled ⟨hs, fun t => Bool.eq_false_iff.mpr fun ht => hnone ⟨t, ht⟩, fun l hl => ?_⟩
        obtain ⟨n, hl⟩ := List.mem_iff_getElem?.mp hl
        exact hdone n l hl
      refine ⟨.next t true, s.networkResolveTaskNext t true, rfl, ?_,
        (if_neg hlive).trans (if_pos ⟨hs, ht⟩)⟩
      -- with no lookup in flight no entry waits for one
      rw [timely, Bool.or_eq_true]
      refine .inr ?_
      cases hcache : s.cache (s.task t).key with
      | none => rfl
      | some c =>
        have hasync : c.async = none := Option.eq_none_iff_forall_ne_some.mpr fun n hasync => by
          obtain ⟨l, hl, -, hreturned⟩ := h.lookups.async _ c n hcache hasync
          rw [hdone n l hl] at hreturned
          cases hreturned
        simp [hasync]

/-- When nothing is left to do, all requests have been answered. -/
theorem Resolving.settled (h : Resolving s) (hsettled : s.Settled) (hlt : t < s.tasks)
    (htype : (s.task t).type = .resolve) : (s.replies.map NetworkReply.task).count t = 1 := by
  have hrequests : s.requests = [] := by
    refine List.eq_nil_iff_forall_not_mem.mpr fun x hx => ?_
    obtain ⟨-, c, n, hc, hasync⟩ := h.queued x hx
    obtain ⟨l, hl, -, hreturned⟩ := h.lookups.async x.1 c n hc hasync
    rw [hsettled.returned l (List.mem_of_getElem? hl)] at hreturned
    cases hreturned
  have hcounted := h.counted t
  rw [hsettled.next, pending, hrequests, hsettled.stack,
    if_pos (c := t < s.tasks ∧ _) ⟨hlt, htype⟩] at hcounted
  simpa using hcounted

/-- In every run without cancellations in which no turn of a request comes between the result of
its lookup and the end of the lookup in the event loop, a host has one lookup in flight, every
request is answered once, with the result of a lookup for its host, and no list is freed before
its callback. -/
theorem networkResolve_answers {cacheExpiration : ℕ}
    (h : Reach step (fun s l => l.cancels = false ∧ s.timely l = true) (construct cacheExpiration)
      s) :
    (∀ (n n' : ℕ) (l l' : NetworkLookup), s.lookups[n]? = some l → s.lookups[n']? = some l' →
      l.key = l'.key → l.returned = false → l'.returned = false → n = n') ∧
    (∀ r ∈ s.replies, r.live = true ∧ r.source.Gives s.lookups (s.task r.task).key r.ai) ∧
    (∀ t < s.tasks, (s.task t).type = .resolve →
      (s.replies.map NetworkReply.task).count t ≤ 1 ∧
        (s.Settled → (s.replies.map NetworkReply.task).count t = 1)) ∧
    (∀ l s', l.serves = true → step s l = some s' → s'.work < s.work) ∧
    (¬ s.Settled → ∃ l s', l.serves = true ∧ s.timely l = true ∧ step s l = some s') := by
  have hinv : Safe s ∧ Resolving s := by
    refine h.invariant (I := fun s => Safe s ∧ Resolving s)
      ⟨safe_construct _, resolving_construct _⟩ fun s l s' hs hok hstep => ?_
    have hsafe : s.safeCancel l = true := by
      cases l with
      | cancel t => cases hok.1
      | _ => rfl
    exact ⟨hs.1.step hsafe hstep, hs.2.step hs.1 hok.1 hok.2 hstep⟩
  obtain ⟨hsafe, hresolving⟩ := hinv
  refine ⟨fun n n' l l' hl hl' hkey => hresolving.lookups.unique hl hl' hkey, hresolving.replied,
    fun t hlt htype => ⟨?_, fun hsettled => hresolving.settled hsettled hlt htype⟩,
    fun l s' => hsafe.work_lt, hresolving.progress hsafe⟩
  have hcounted := hresolving.counted t
  rw [if_pos (c := t < s.tasks ∧ _) ⟨hlt, htype⟩] at hcounted
  omega

/-- A request waits for the lookup of another, and a third is served from the cache. -/
theorem networkResolve_answers_three : ∃ s,
    exec (guarded step fun s l => l.cancels = false ∧ s.timely l = true) (construct 10)
      [.resolve (some [97]), .next 0 true, .connect (some [97]), .next 2 true, .store 0 true,
        .asyncReturn 0, .go .ready, .go .ready, .return, .go .ready, .go .ready, .go .ready,
        .resolve (some [97]), .next 3 true, .go .ready, .return, .go .ready] = some s ∧
    (∀ r ∈ s.replies, r.live = true ∧ r.source.Gives s.lookups (s.task r.task).key r.ai) := by
  obtain ⟨s, hs⟩ := Option.isSome_iff_exists.mp (show (exec
    (guarded step fun s l => l.cancels = false ∧ s.timely l = true) (construct 10)
    [.resolve (some [97]), .next 0 true, .connect (some [97]), .next 2 true, .store 0 true,
      .asyncReturn 0, .go .ready, .go .ready, .return, .go .ready, .go .ready, .go .ready,
      .resolve (some [97]), .next 3 true, .go .ready, .return, .go .ready]).isSome = true from rfl)
  exact ⟨s, hs, (networkResolve_answers (.of_guarded hs)).2.1⟩

/-- A request that comes after the worker has stored the list and before the event loop knows of it
frees the list, and the requests that have waited for it get none. -/
theorem networkResolve_loses : (exec step (construct 10)
    [.resolve (some [97]), .next 0 true, .store 0 true, .resolve (some [97]), .next 1 true,
      .asyncReturn 0, .go .ready, .go .ready, .return, .go .ready, .go .ready, .return,
      .go .ready]).map (fun s => (s.lookups, s.freedLists, s.replies)) =
    some ([⟨[97], some (some 0), true⟩], [0],
      [⟨0, .lookup 0, none, true⟩, ⟨1, .lookup 0, none, true⟩]) :=
  rfl

end Network

end LibReactor
