import LibReactor.ResolverSteps

/-!
# Answers to requests

A request that comes between the result of a lookup and the end of the lookup in the event loop
frees the result. Apart from this, every request is answered once, with the list of its lookup.
-/

namespace LibReactor

def NetworkLabel.cancels : NetworkLabel → Bool
  | .cancel _ => true
  | _ => false

namespace Network

open Transition

/-- No turn of a request comes between the result of its lookup and the end of the lookup in the
event loop, but for one that is served from an entry that has not expired. -/
def timely (s : Network) : NetworkLabel → Bool
  | .next t _ =>
    networkResolveTaskIsNumeric (s.task t).host ||
      (s.cache (s.task t).key).all fun c => c.ai.isNone || c.async.isNone || s.now < c.expire
  | _ => true

variable {s s' : Network} {t n : ℕ} {l : NetworkLookup}

/-! ## The steps of the resolver -/

theorem Resolving.networkResolveTaskNext (h : Resolving s) (hlive : t ∉ s.freed)
    (hstack : s.stack = []) (ht : (s.task t).next = true) {found : Bool}
    (htimely : s.timely (.next t found) = true) : Resolving (s.networkResolveTaskNext t found) := by
  have hself : (s.setTask t { s.task t with next := false }).task t =
      { s.task t with next := false } := Function.update_self ..
  have hlists := h.lists
  rw [hstack, List.flatMap_nil, List.append_nil] at hlists
  rw [Network.networkResolveTaskNext, access_live hlive]
  simp only [hself]
  split
  next hnumeric =>
    cases found with
    | true =>
      have hturn := h.turn hstack ht (s.lists + 1) [.freeAddress (some s.lists), .resolveDone t]
        .numeric (some s.lists) (hlists.borrow.congr (fun _ => rfl) List.perm_append_comm)
        (by simp [NetworkFrame.requests, NetworkFrame.answers]) trivial (fun a ha => ?_)
      · simp only [getaddrinfo, if_true, push, setTask, hstack]
        exact hturn
      · obtain rfl := Option.some.inj ha
        exact fun hmem => Nat.lt_irrefl _ (hlists.below _ hmem)
    | false =>
      have hturn := h.turn hstack ht s.lists [.freeAddress none, .resolveDone t] .numeric none
        (hlists.congr (fun _ => rfl) (by simp [NetworkFrame.frees]))
        (by simp [NetworkFrame.requests, NetworkFrame.answers]) trivial (by rintro _ ⟨⟩)
      simp only [getaddrinfo, Bool.false_eq_true, if_false, push, setTask, hstack]
      exact hturn
  next hnumeric =>
    split
    next hcached =>
      have hai : ((s.cache (s.task t).key).getD ⟨0, none, none⟩).ai =
          cachedList s.cache (s.task t).key := by
        rw [cachedList]
        cases s.cache (s.task t).key <;> rfl
      have hkept : ∀ a, ((s.cache (s.task t).key).getD ⟨0, none, none⟩).ai = some a →
          a ∉ s.freedLists := fun a ha => (hlists.kept _ a (hai.symm.trans ha)).2
      obtain ⟨a, ha⟩ := Option.ne_none_iff_exists'.mp hcached.1
      obtain ⟨n, l, hl, hkey, hresult⟩ := h.origin _ a (hai.symm.trans ha)
      have hgives : NetworkSource.Gives s.lookups (s.task t).key
          ((s.cache (s.task t).key).getD ⟨0, none, none⟩).ai .cached :=
        ⟨n, l, a, hl, hkey, hresult, ha⟩
      have hturn := h.turn hstack ht s.lists [.resolveDone t] .cached _
        (hlists.congr (fun _ => rfl) (by simp [NetworkFrame.frees]))
        (by simp [NetworkFrame.requests, NetworkFrame.answers]) hgives hkept
      simp only [push, setTask, hstack]
      exact hturn
    next hcached =>
      refine h.enqueue hstack ht rfl (fun hne => ?_) rfl
      have hcached : ¬ (((s.cache (s.task t).key).getD ⟨0, none, none⟩).ai ≠ none ∧
        s.now < ((s.cache (s.task t).key).getD ⟨0, none, none⟩).expire) := hcached
      have hne : ((s.cache (s.task t).key).getD ⟨0, none, none⟩).ai ≠ none := hne
      have hnumeric : networkResolveTaskIsNumeric (s.task t).host = false :=
        Bool.eq_false_iff.mpr hnumeric
      show ((s.cache (s.task t).key).getD ⟨0, none, none⟩).async = none
      rw [timely, hnumeric, Bool.false_or] at htimely
      cases hcache : s.cache (s.task t).key with
      | none => rfl
      | some c =>
        simp only [hcache, Option.getD_some, Option.all_some, Bool.or_eq_true,
          Option.isNone_iff_eq_none, decide_eq_true_eq] at htimely hcached hne ⊢
        rcases htimely with (hai | hasync) | hlt
        · exact absurd hai hne
        · exact hasync
        · exact absurd ⟨hne, hlt⟩ hcached

/-- A worker stores its result. -/
theorem Resolving.store (h : Resolving s) (hl : s.lookups[n]? = some l) (hresult : l.result = none)
    (found : Bool) : Resolving (s.store n l found) := by
  have hreturned : l.returned = false := Bool.eq_false_iff.mpr fun hreturned =>
    h.lookups.stored n l hl hreturned hresult
  obtain ⟨c, hc, hasync, hai⟩ := h.lookups.inFlight n l hl hreturned
  have hlt := (List.getElem?_eq_some_iff.mp hl).1
  have hstored : ∀ ai lists,
      Lists (Function.update (cachedList s.cache) l.key ai) lists
        (s.freedLists ++ s.stack.flatMap NetworkFrame.frees) →
      Resolving { s with
        lists := lists
        lookups := s.lookups.set n { l with result := some ai }
        cache := Function.update s.cache l.key
          ((s.cache l.key).map fun c => { c with ai := ai }) } := by
    intro ai lists hlists
    have hkeeps : ∀ (m : ℕ) (l' : NetworkLookup), s.lookups[m]? = some l' → l'.result ≠ none →
        (s.lookups.set n { l with result := some ai })[m]? = some l' := by
      intro m l' hl' hresult'
      have hne : n ≠ m := by
        rintro rfl
        obtain rfl := Option.some.inj (hl.symm.trans hl')
        exact hresult' hresult
      rw [List.getElem?_set_ne hne, hl']
    have hgives : ∀ {source : NetworkSource} {key : Bytes} {ai' : Option ℕ},
        source.Gives s.lookups key ai' →
          source.Gives (s.lookups.set n { l with result := some ai }) key ai' :=
      gives_mono fun m l' hl' hresult' => ⟨l', hkeeps m l' hl' hresult', rfl, rfl⟩
    refine ⟨h.lookups.store hl hresult ai, ?_, fun k a ha => ?_, fun x hx => ?_,
      fun m rs hmem => ?_, h.top, fun q source ai' hmem => ⟨hgives (h.answer q source ai' hmem).1,
        (h.answer q source ai' hmem).2⟩, fun r hr => ⟨(h.replied r hr).1,
          hgives (h.replied r hr).2⟩, h.counted⟩
    · rw [hc, Option.map_some, cachedList_update]
      exact hlists
    · rw [hc, Option.map_some, cachedList_update] at ha
      by_cases hk : k = l.key
      · rw [hk, Function.update_self] at ha
        exact ⟨n, { l with result := some ai }, List.getElem?_set_self hlt, hk.symm,
          congrArg some ha⟩
      · rw [Function.update_of_ne hk] at ha
        obtain ⟨m, l', hl', hkey, hresult'⟩ := h.origin k a ha
        exact ⟨m, l', hkeeps m l' hl' (by rw [hresult']; nofun), hkey, hresult'⟩
    · obtain ⟨hxkey, d, m, hd, hasync'⟩ := h.queued x hx
      refine ⟨hxkey, ?_⟩
      by_cases hk : x.1 = l.key
      · rw [hk, hc] at hd
        obtain rfl := Option.some.inj hd
        exact ⟨{ c with ai := ai }, m, by rw [hk, hc]; exact Function.update_self .., hasync'⟩
      · exact ⟨d, m, hd ▸ Function.update_of_ne hk .., hasync'⟩
    · obtain ⟨l', d, hl', hreturned', hd, hnone, hresult', hkeys⟩ := h.delivering m rs hmem
      have hk : l'.key ≠ l.key := by
        intro hk
        rw [hk, hc] at hd
        obtain rfl := Option.some.inj hd
        rw [hnone] at hasync
        cases hasync
      exact ⟨l', d, hkeeps m l' hl' (by rw [hresult']; nofun), hreturned',
        hd ▸ Function.update_of_ne hk .., hnone, hresult', hkeys⟩
  cases found with
  | true =>
    rw [store_true]
    exact hstored (some s.lists) (s.lists + 1) (h.lists.keep l.key)
  | false =>
    have hnone : c.ai = none := by rw [hai, hresult, Option.join_none]
    have hsame : Function.update s.cache l.key
        ((s.cache l.key).map fun c => { c with ai := none }) = s.cache := by
      rw [hc, Option.map_some, ← hnone]
      exact Function.update_eq_self_iff.mpr hc.symm
    have hlists : Function.update (cachedList s.cache) l.key none = cachedList s.cache := by
      refine Function.update_eq_self_iff.mpr ?_
      rw [cachedList, hc, Option.bind_some, hnone]
    have hdone := hstored none s.lists (by rw [hlists]; exact h.lists)
    rw [hsame] at hdone
    rw [store_false]
    exact hdone

/-- The event loop learns that a lookup has ended. -/
theorem Resolving.asyncReturn (h : Resolving s) (hstack : s.stack = [])
    (hl : s.lookups[n]? = some l) (hresult : l.result ≠ none) (hreturned : l.returned = false) :
    Resolving (s.asyncReturn n l) := by
  obtain ⟨c, hc, hasync, hai⟩ := h.lookups.inFlight n l hl hreturned
  have hlt := (List.getElem?_eq_some_iff.mp hl).1
  have hlists := h.lists
  rw [hstack, List.flatMap_nil, List.append_nil] at hlists
  have hsame : Function.update (cachedList s.cache) l.key c.ai = cachedList s.cache := by
    refine Function.update_eq_self_iff.mpr ?_
    rw [cachedList, hc, Option.bind_some]
  have hkeeps : ∀ (m : ℕ) (l' : NetworkLookup), s.lookups[m]? = some l' →
      ∃ l'' : NetworkLookup, (s.lookups.set n { l with returned := true })[m]? = some l'' ∧
        l''.key = l'.key ∧ l''.result = l'.result := by
    intro m l' hl'
    by_cases hm : n = m
    · rw [hm, hl'] at hl
      obtain rfl := Option.some.inj hl
      exact ⟨{ l' with returned := true }, hm ▸ List.getElem?_set_self hlt, rfl, rfl⟩
    · exact ⟨l', by rw [List.getElem?_set_ne hm, hl'], rfl, rfl⟩
  rw [asyncReturn_eq]
  refine ⟨h.lookups.return hl hreturned hresult _, ?_, fun k a ha => ?_, fun x hx => ?_,
    fun m rs hmem => ?_, fun f hf => ?_, fun q source ai hmem => ?_, fun r hr =>
      ⟨(h.replied r hr).1, gives_mono (fun m l' hl' _ => hkeeps m l' hl') (h.replied r hr).2⟩,
    fun t => ?_⟩
  · rw [hc, Option.map_some, cachedList_update]
    dsimp only
    rw [hsame, hstack]
    exact hlists.congr (fun _ => rfl) (by simp [NetworkFrame.frees])
  · rw [hc, Option.map_some, cachedList_update] at ha
    dsimp only at ha
    rw [hsame] at ha
    obtain ⟨m, l', hl', hkey, hresult'⟩ := h.origin k a ha
    obtain ⟨l'', hl'', hkey', hresult''⟩ := hkeeps m l' hl'
    exact ⟨m, l'', hl'', hkey'.trans hkey, hresult''.trans hresult'⟩
  · obtain ⟨hx, hk⟩ := List.mem_filter.mp hx
    obtain ⟨hxkey, d, m, hd, hasync'⟩ := h.queued x hx
    exact ⟨hxkey, d, m, hd ▸ Function.update_of_ne (of_decide_eq_true hk) .., hasync'⟩
  · rw [hstack] at hmem
    obtain ⟨rfl, rfl⟩ := NetworkFrame.deliver.inj (List.mem_singleton.mp hmem)
    refine ⟨{ l with returned := true }, { c with
      async := none
      expire := (s.now + s.cacheExpiration) % 2 ^ 64 }, List.getElem?_set_self hlt, rfl, ?_, rfl,
      ?_, fun r hr => ?_⟩
    · rw [hc]
      exact Function.update_self ..
    · dsimp only
      obtain ⟨ai, hai'⟩ := Option.ne_none_iff_exists'.mp hresult
      rw [hai, hai', Option.join_some]
    · obtain ⟨x, hx, rfl⟩ := List.mem_map.mp hr
      obtain ⟨hx, hk⟩ := List.mem_filter.mp hx
      exact (h.queued x hx).1.trans (of_decide_eq_true hk)
  · rw [List.tail_cons, hstack] at hf
    cases hf
  · rw [hstack] at hmem
    cases List.mem_singleton.mp hmem
  · have hcounted := h.counted t
    rw [← ((pending_split l.key s).map NetworkRequest.task).count_eq] at hcounted
    exact hcounted

theorem Resolving.make (h : Resolving s) (tasks fds : ℕ) {task : ℕ → NetworkTask}
    (hle : s.tasks ≤ tasks) (hold : ∀ t < s.tasks, task t = s.task t)
    (hnew : ∀ t, s.tasks ≤ t → ((task t).next = true ↔ t < tasks ∧ (task t).type = .resolve)) :
    Resolving { s with tasks := tasks, task := task, fds := fds } := by
  have hmade : ∀ t, 0 < (s.pending.map NetworkRequest.task).count t +
      (s.replies.map NetworkReply.task).count t → task t = s.task t := by
    intro t hpos
    refine hold t ?_
    by_contra hge
    have hcounted := h.counted t
    rw [if_neg (c := t < s.tasks ∧ _) fun hand => hge hand.1] at hcounted
    omega
  have hpending : ∀ q ∈ s.pending, (task q.task).key = (s.task q.task).key := by
    intro q hq
    rw [hmade q.task (Nat.add_pos_left (List.count_pos_iff.mpr (List.mem_map_of_mem hq)) _)]
  have hframe : ∀ f ∈ s.stack, ∀ q ∈ f.requests, (task q.task).key = (s.task q.task).key :=
    fun f hf q hq =>
      hpending q (List.mem_append_right _ (List.mem_flatMap.mpr ⟨f, hf, hq⟩))
  refine ⟨h.lookups, h.lists, h.origin, fun x hx => ?_, fun n rs hmem => ?_, h.top,
    fun q source ai hmem => ?_, fun r hr => ?_, fun t => ?_⟩
  · have hkey := hpending x.2 (List.mem_append_left _ (List.mem_map_of_mem hx))
    exact ⟨hkey.trans (h.queued x hx).1, (h.queued x hx).2⟩
  · obtain ⟨l, c, hl, hreturned, hc, hasync, hresult, hkeys⟩ := h.delivering n rs hmem
    exact ⟨l, c, hl, hreturned, hc, hasync, hresult, fun q hq =>
      (hframe _ hmem q hq).trans (hkeys q hq)⟩
  · dsimp only
    rw [hframe _ hmem q (List.mem_singleton_self q)]
    exact h.answer q source ai hmem
  · have hpos := List.count_pos_iff.mpr (List.mem_map_of_mem (f := NetworkReply.task) hr)
    dsimp only
    rw [hmade r.task (Nat.add_pos_right _ hpos)]
    exact h.replied r hr
  have hcounted := h.counted t
  rcases Nat.lt_or_ge t s.tasks with hlt | hge
  · simp only [hold t hlt, and_iff_right (Nat.lt_of_lt_of_le hlt hle)]
    rw [if_congr (and_iff_right hlt) rfl rfl] at hcounted
    exact hcounted
  · rw [if_neg (c := t < s.tasks ∧ _) fun hand => absurd hand.1 (Nat.not_lt.mpr hge)] at hcounted
    have hiff := hnew t hge
    dsimp only
    rw [if_congr hiff rfl rfl]
    have hzero : (s.pending.map NetworkRequest.task).count t = 0 ∧
        (s.replies.map NetworkReply.task).count t = 0 := by omega
    rw [show Network.pending { s with tasks := tasks, task := task, fds := fds } = s.pending
      from rfl, hzero.1, hzero.2, Nat.add_zero]

theorem Resolving.makeAlone (hsafe : Safe s) (h : Resolving s) (fds : ℕ) {x : NetworkTask}
    (hnext : x.next = true ↔ x.type = .resolve) :
    Resolving { s with
      tasks := s.tasks + 1, task := Function.update s.task s.tasks x, fds := fds } := by
  have hold : ∀ t, t ≠ s.tasks → Function.update s.task s.tasks x t = s.task t :=
    fun t hne => Function.update_of_ne hne ..
  refine h.make (s.tasks + 1) fds (Nat.le_succ _) (fun t ht => hold t (Nat.ne_of_lt ht))
    fun t hge => ?_
  by_cases heq : t = s.tasks
  · rw [heq, Function.update_self, hnext]
    exact (and_iff_right (Nat.lt_succ_self _)).symm
  · rw [hold t heq, hsafe.linked.blank t hge]
    exact ⟨nofun, fun hand => absurd hand.1 (by omega)⟩

theorem Resolving.networkResolve (hsafe : Safe s) (h : Resolving s) (host : Option Bytes) :
    Resolving (s.networkResolve .program host) :=
  h.makeAlone hsafe s.fds ⟨fun _ => rfl, fun _ => rfl⟩

theorem Resolving.networkTask (hsafe : Safe s) (h : Resolving s) {type : NetworkType}
    (htype : type ≠ .resolve) (user : NetworkUser) (host : Option Bytes) :
    Resolving (Network.networkResolve user host
      (s.networkTask ⟨type, .program, none, false, some (s.tasks + 1), none, false⟩)) := by
  obtain ⟨task, htask, hself, hsub, hold⟩ := exists_update_two s.task s.tasks
    ⟨type, .program, none, false, some (s.tasks + 1), none, false⟩
    ⟨.resolve, user, host, true, none, none, false⟩
  have hmade := h.make (s.tasks + 2) s.fds (Nat.le_add_right _ 2)
    (fun t ht => hold t (by omega) (by omega)) fun t hge => ?_
  · rw [htask] at hmade
    exact hmade
  · by_cases heq : t = s.tasks
    · rw [heq, hself]
      exact ⟨nofun, fun hand => absurd hand.2 htype⟩
    · by_cases heq' : t = s.tasks + 1
      · rw [heq', hsub]
        exact ⟨fun _ => ⟨Nat.lt_succ_self _, rfl⟩, fun _ => rfl⟩
      · rw [hold t heq heq', hsafe.linked.blank t hge]
        exact ⟨nofun, fun hand => absurd hand.1 (by omega)⟩

theorem Resolving.networkAcceptSocket (hsafe : Safe s) (h : Resolving s) :
    Resolving s.networkAcceptSocket := by
  have hmade := h.makeAlone hsafe (s.fds + 1)
    (x := ⟨.accept, .program, none, false, none, some s.fds, true⟩) ⟨by rintro ⟨⟩, by rintro ⟨⟩⟩
  simpa only [Network.networkAcceptSocket, Network.networkTask, networkAcceptTaskAccept,
    Network.arm, setTask, Function.update_self, Function.update_idem] using hmade

/-! ## Every step -/

theorem Safe.idle_cons (h : Safe s) {f : NetworkFrame} {rest : List NetworkFrame}
    (hs : s.stack = f :: rest) (hf : f.ends = [t]) :
    (s.task t).next = false ∧ (s.task t).resolve = none := by
  have hidle := h.idle t (by rw [ends_cons hs, hf]; exact List.mem_cons_self ..)
  exact ⟨hidle.2.1, hidle.2.2.2⟩

theorem Resolving.popEnds (hsafe : Safe s) (h : Resolving s) {f : NetworkFrame}
    {rest : List NetworkFrame} (hs : s.stack = f :: rest) (hf : f.ends = [t]) :
    Resolving { s with stack := rest } ∧ (∀ g ∈ rest, g.answers = false) ∧
      (s.task t).next = false ∧ (s.task t).resolve = none := by
  have hframe : f.requests = [] ∧ f.frees = [] := by
    cases f with
    | resolveDone | errorCancel | connectDone => exact ⟨rfl, rfl⟩
    | called | resolved | deliver | freeAddress => cases hf
  have hpop := h.pop hs hframe.1 hframe.2
  exact ⟨hpop.1, hpop.2, hsafe.idle_cons hs hf⟩

theorem Resolving.go (hsafe : Safe s) (h : Resolving s) {socket : SocketResult}
    (hstep : s.go socket = some s') : Resolving s' := by
  rw [Network.go] at hstep
  split at hstep
  next r source ai rest hs =>
    obtain rfl := Option.some.inj hstep
    exact h.reply hs socket
  next n r rs rest hs =>
    obtain rfl := Option.some.inj hstep
    exact h.deliver hs
  next n rest hs =>
    obtain rfl := Option.some.inj hstep
    exact (h.pop hs rfl rfl).1
  next ai rest hs =>
    obtain rfl := Option.some.inj hstep
    have hpop := h.popFree hs rfl
    cases ai with
    | none =>
      rw [NetworkFrame.frees, Option.toList_none, List.append_nil] at hpop
      exact hpop
    | some a => exact hpop
  next t rest hs =>
    obtain rfl := Option.some.inj hstep
    obtain ⟨hpop, hnone, hnext, -⟩ := h.popEnds hsafe hs rfl
    exact hpop.beside hnone (beside_networkResolveTaskDone hnext)
  next t rest hs =>
    obtain rfl := Option.some.inj hstep
    obtain ⟨hpop, hnone, hnext, hresolve⟩ := h.popEnds hsafe hs rfl
    exact hpop.beside hnone (beside_networkCancel hnext hresolve)
  next t rest hs =>
    obtain rfl := Option.some.inj hstep
    obtain ⟨hpop, hnone, -, hresolve⟩ := h.popEnds hsafe hs rfl
    have hset : Beside 0 { s with stack := rest }
        (Network.setTask t { s.task t with fd := none } { s with stack := rest }) :=
      beside_setTask rfl rfl rfl
    refine hpop.beside hnone (beside_access (hset.trans (beside_networkTaskDone ?_)))
    exact (update_same NetworkTask.resolve (by rfl) t).trans hresolve
  next => cases hstep

/-- The step lemma. -/
theorem Resolving.step (hsafe : Safe s) (h : Resolving s) {label : NetworkLabel}
    (hcancels : label.cancels = false) (htimely : s.timely label = true)
    (hstep : Network.step s label = some s') : Resolving s' := by
  unfold Network.step at hstep
  rw [if_neg (by rw [hsafe.failed]; exact Bool.false_ne_true)] at hstep
  cases label with
  | resolve host =>
    obtain ⟨-, rfl⟩ := Option.ite_some_none_eq_some.mp hstep
    exact h.networkResolve hsafe host
  | accept host =>
    obtain ⟨-, rfl⟩ := Option.ite_some_none_eq_some.mp hstep
    exact h.networkTask hsafe NetworkType.noConfusion (.accept s.tasks) host
  | acceptSocket =>
    obtain ⟨-, rfl⟩ := Option.ite_some_none_eq_some.mp hstep
    exact h.networkAcceptSocket hsafe
  | connect host =>
    obtain ⟨-, rfl⟩ := Option.ite_some_none_eq_some.mp hstep
    exact h.networkTask hsafe NetworkType.noConfusion (.connect s.tasks) host
  | cancel t => cases hcancels
  | next t found =>
    obtain ⟨hguard, rfl⟩ := Option.ite_some_none_eq_some.mp hstep
    exact h.networkResolveTaskNext (hsafe.linked.waiting t hguard.2).1 hguard.1 hguard.2 htimely
  | store n found =>
    dsimp only at hstep
    split at hstep
    next lookup hl =>
      obtain ⟨hresult, rfl⟩ := Option.ite_some_none_eq_some.mp hstep
      exact h.store hl hresult found
    next => cases hstep
  | asyncReturn n =>
    dsimp only at hstep
    split at hstep
    next lookup hl =>
      obtain ⟨hguard, rfl⟩ := Option.ite_some_none_eq_some.mp hstep
      exact h.asyncReturn hguard.1 hl hguard.2.1 hguard.2.2
    next => cases hstep
  | complete t success =>
    obtain ⟨hguard, rfl⟩ := Option.ite_some_none_eq_some.mp hstep
    refine h.beside (fun f hf => ?_) (beside_complete success)
    rw [hguard.1] at hf
    cases hf
  | «return» =>
    dsimp only at hstep
    split at hstep
    next t event rest hs =>
      obtain rfl := Option.some.inj hstep
      obtain ⟨hpop, hnone⟩ := h.pop hs rfl rfl
      exact hpop.beside hnone { Beside.refl _ with }
    next => cases hstep
  | go socket => exact h.go hsafe hstep
  | time now =>
    obtain rfl := Option.some.inj hstep
    exact ⟨h.lookups, h.lists, h.origin, h.queued, h.delivering, h.top, h.answer, h.replied,
      h.counted⟩
  | expire time =>
    obtain ⟨-, rfl⟩ := Option.ite_some_none_eq_some.mp hstep
    exact ⟨h.lookups, h.lists, h.origin, h.queued, h.delivering, h.top, h.answer, h.replied,
      h.counted⟩

theorem resolving_construct (cacheExpiration : ℕ) : Resolving (construct cacheExpiration) where
  lookups := lookups_empty
  lists := lists_empty
  origin := nofun
  queued := nofun
  delivering := nofun
  top := nofun
  answer := nofun
  replied := nofun
  counted _ := rfl

end Network

end LibReactor
