import LibReactor.ResolverCache

/-!
# What the resolver keeps

Every request waits for its turn, is on its way or has been answered. What is about to be given to
a request is what its lookup has stored, or what an entry has, and is not freed.
-/

namespace LibReactor

def NetworkFrame.frees : NetworkFrame → List ℕ
  | .freeAddress ai => ai.toList
  | _ => []

def NetworkFrame.answers : NetworkFrame → Bool
  | .resolved _ _ _ => true
  | _ => false

def NetworkFrame.quiet : NetworkFrame → Bool
  | .called _ _ | .resolveDone _ | .errorCancel _ | .connectDone _ => true
  | _ => false

/-- The address list of an answer is what the lookup of the host has stored, and not null where it
is served from the cache. -/
def NetworkSource.Gives (lookups : List NetworkLookup) (key : Bytes) (ai : Option ℕ) :
    NetworkSource → Prop
  | .numeric => True
  | .cached => ∃ (n : ℕ) (l : NetworkLookup) (a : ℕ), lookups[n]? = some l ∧ l.key = key ∧
      l.result = some (some a) ∧ ai = some a
  | .lookup n => ∃ l, lookups[n]? = some l ∧ l.key = key ∧ l.result = some ai

namespace Network

/-- A lookup that has ended, with its result in the entry, and requests for its host. -/
def Ended (s : Network) (n : ℕ) (rs : List NetworkRequest) : Prop :=
  ∃ l c, s.lookups[n]? = some l ∧ l.returned = true ∧ s.cache l.key = some c ∧ c.async = none ∧
    l.result = some c.ai ∧ ∀ r ∈ rs, (s.task r.task).key = l.key

structure Resolving (s : Network) : Prop where
  lookups : Lookups s.cache s.lookups
  lists : Lists (cachedList s.cache) s.lists (s.freedLists ++ s.stack.flatMap NetworkFrame.frees)
  origin : ∀ key a, cachedList s.cache key = some a → ∃ (n : ℕ) (l : NetworkLookup),
    s.lookups[n]? = some l ∧ l.key = key ∧ l.result = some (some a)
  queued : ∀ x ∈ s.requests, (s.task x.2.task).key = x.1 ∧
    ∃ c n, s.cache x.1 = some c ∧ c.async = some n
  delivering : ∀ n rs, .deliver n rs ∈ s.stack → s.Ended n rs
  top : ∀ f ∈ s.stack.tail, f.answers = false
  answer : ∀ q source ai, .resolved q source ai ∈ s.stack →
    source.Gives s.lookups (s.task q.task).key ai ∧ ∀ a, ai = some a → a ∉ s.freedLists
  replied : ∀ r ∈ s.replies,
    r.live = true ∧ r.source.Gives s.lookups (s.task r.task).key r.ai
  counted : ∀ t, (if (s.task t).next then 1 else 0) +
      (s.pending.map NetworkRequest.task).count t + (s.replies.map NetworkReply.task).count t =
    if t < s.tasks ∧ (s.task t).type = .resolve then 1 else 0

/-- The resolver is left alone from `s` to `s'`, with `k` new frames at most. -/
structure Beside (k : ℕ) (s s' : Network) : Prop where
  tasks : s'.tasks = s.tasks
  next : ∀ t, (s'.task t).next = (s.task t).next
  type : ∀ t, (s'.task t).type = (s.task t).type
  host : ∀ t, (s'.task t).host = (s.task t).host
  cache : s'.cache = s.cache
  requests : s'.requests = s.requests
  lookups : s'.lookups = s.lookups
  lists : s'.lists = s.lists
  freedLists : s'.freedLists = s.freedLists
  replies : s'.replies = s.replies
  stack : ∃ new, s'.stack = new ++ s.stack ∧ (∀ f ∈ new, f.quiet = true) ∧ new.length ≤ k

variable {s s' s'' : Network} {t : ℕ}

/-! ## Steps beside the resolver -/

theorem NetworkFrame.quiet_spec {f : NetworkFrame} (hf : f.quiet = true) :
    f.requests = [] ∧ f.frees = [] ∧ f.answers = false ∧ ∀ n rs, f ≠ .deliver n rs := by
  cases f with
  | called | resolveDone | errorCancel | connectDone => exact ⟨rfl, rfl, rfl, nofun⟩
  | resolved | deliver | freeAddress => cases hf

theorem Beside.refl (s : Network) : Beside 0 s s where
  tasks := rfl
  next _ := rfl
  type _ := rfl
  host _ := rfl
  cache := rfl
  requests := rfl
  lookups := rfl
  lists := rfl
  freedLists := rfl
  replies := rfl
  stack := ⟨[], rfl, nofun, Nat.le_refl 0⟩

theorem Beside.trans {k k' : ℕ} (h : Beside k s s') (h' : Beside k' s' s'') :
    Beside (k + k') s s'' where
  tasks := h'.tasks.trans h.tasks
  next t := (h'.next t).trans (h.next t)
  type t := (h'.type t).trans (h.type t)
  host t := (h'.host t).trans (h.host t)
  cache := h'.cache.trans h.cache
  requests := h'.requests.trans h.requests
  lookups := h'.lookups.trans h.lookups
  lists := h'.lists.trans h.lists
  freedLists := h'.freedLists.trans h.freedLists
  replies := h'.replies.trans h.replies
  stack := by
    obtain ⟨new, hstack, hnew, hlength⟩ := h.stack
    obtain ⟨new', hstack', hnew', hlength'⟩ := h'.stack
    refine ⟨new' ++ new, by rw [hstack', hstack, List.append_assoc], fun f hf => ?_, ?_⟩
    · exact (List.mem_append.mp hf).elim (hnew' f) (hnew f)
    · rw [List.length_append]
      omega

theorem Beside.mono {k k' : ℕ} (h : Beside k s s') (hle : k ≤ k') : Beside k' s s' := by
  obtain ⟨new, hstack, hnew, hlength⟩ := h.stack
  exact { h with stack := ⟨new, hstack, hnew, Nat.le_trans hlength hle⟩ }

theorem beside_setTask {x : NetworkTask} (hnext : x.next = (s.task t).next)
    (htype : x.type = (s.task t).type) (hhost : x.host = (s.task t).host) :
    Beside 0 s (s.setTask t x) :=
  { Beside.refl s with
    next := fun t' => update_same NetworkTask.next hnext t'
    type := fun t' => update_same NetworkTask.type htype t'
    host := fun t' => update_same NetworkTask.host hhost t' }

theorem beside_push {f : NetworkFrame} (hf : f.quiet = true) : Beside 1 s (s.push f) :=
  { Beside.refl s with stack := ⟨[f], rfl, List.forall_mem_singleton.mpr hf, Nat.le_refl 1⟩ }

theorem beside_call (event : NetworkEvent) : Beside 1 s (s.call t event) :=
  { Beside.refl s with
    stack := ⟨[.called t event], rfl, List.forall_mem_singleton.mpr rfl, Nat.le_refl 1⟩ }

theorem beside_erase : Beside 0 s (s.erase t) := { Beside.refl s with }

theorem beside_access {k : ℕ} {f : Network → Network} (h : Beside k s (f s)) :
    Beside k s (access t f s) := by
  rw [access]
  split
  · exact { (Beside.refl s).mono (Nat.zero_le k) with }
  · exact h

theorem beside_networkError : Beside 2 s (s.networkError t) :=
  beside_access ((beside_push rfl).trans (beside_call _))

theorem beside_openSocket : Beside 0 s (s.openSocket t) := by
  have hset : Beside 0 s (s.setTask t { s.task t with fd := some s.fds }) :=
    beside_setTask rfl rfl rfl
  exact { hset with }

theorem beside_arm : Beside 0 s (s.arm t) := beside_setTask rfl rfl rfl

theorem beside_networkAcceptTaskSocket (socket : SocketResult) :
    Beside 2 s (s.networkAcceptTaskSocket t socket) := by
  cases socket with
  | noSocket => exact beside_networkError
  | noBind => exact beside_openSocket.trans beside_networkError
  | ready =>
    have hcall := (beside_openSocket.trans beside_arm).trans
      (beside_call (s := arm t (s.openSocket t)) (t := t) (.acceptBind s.fds))
    exact hcall.mono (Nat.le_succ 1)

theorem beside_networkConnectTaskSocket (socket : SocketResult) :
    Beside 2 s (s.networkConnectTaskSocket t socket) := by
  rw [networkConnectTaskSocket]
  split
  · exact beside_networkError
  · exact (beside_openSocket.trans beside_arm).mono (Nat.zero_le 2)

theorem beside_networkAcceptResolve (ai : Option ℕ) (socket : SocketResult) :
    Beside 2 s (s.networkAcceptResolve t ai socket) := by
  have hset : Beside 0 s (s.setTask t { s.task t with resolve := none }) :=
    beside_setTask rfl rfl rfl
  apply beside_access
  dsimp only
  split
  · exact hset.trans beside_networkError
  · exact hset.trans (beside_networkAcceptTaskSocket socket)

theorem beside_networkConnectResolve (ai : Option ℕ) (socket : SocketResult) :
    Beside 2 s (s.networkConnectResolve t ai socket) := by
  have hset : Beside 0 s (s.setTask t { s.task t with resolve := none }) :=
    beside_setTask rfl rfl rfl
  apply beside_access
  dsimp only
  split
  · exact hset.trans beside_networkError
  · exact hset.trans (beside_networkConnectTaskSocket socket)

theorem beside_complete (success : Bool) : Beside 2 s (s.complete t success) := by
  have hset : Beside 0 s (s.setTask t { s.task t with op := false }) := beside_setTask rfl rfl rfl
  rw [complete]
  split
  · apply beside_access
    dsimp only
    split
    · exact hset.trans ((beside_push rfl).trans (beside_call _))
    · exact hset.trans beside_networkError
  · apply beside_access
    dsimp only
    split
    · have harm := hset.trans (beside_arm (t := t))
      have hcall := harm.trans (beside_call (t := t) (.accept s.fds))
      exact { hcall.mono (Nat.le_succ 1) with }
    · exact hset.trans beside_networkError

theorem beside_networkResolveTaskDone (hnext : (s.task t).next = false) :
    Beside 0 s (s.networkResolveTaskDone t) := by
  have hset : Beside 0 s (s.setTask t { s.task t with next := false }) :=
    beside_setTask hnext.symm rfl rfl
  exact beside_access (hset.trans beside_erase)

theorem beside_networkTaskDone (hresolve : (s.task t).resolve = none) :
    Beside 0 s (s.networkTaskDone t) := by
  apply beside_access
  rw [hresolve]
  dsimp only
  split
  · exact Beside.refl s
  · rw [close_eq]
    have hset : Beside 0 s (s.setTask t { s.task t with op := false }) := beside_setTask rfl rfl rfl
    exact { hset with }

theorem beside_networkCancel (hnext : (s.task t).next = false)
    (hresolve : (s.task t).resolve = none) : Beside 0 s (s.networkCancel t) := by
  apply beside_access
  split
  · exact beside_networkResolveTaskDone hnext
  · exact beside_networkTaskDone hresolve
  · exact beside_networkTaskDone hresolve

theorem beside_reply (q : NetworkRequest) (source : NetworkSource) (ai : Option ℕ)
    (socket : SocketResult) : Beside 2 { s with
      replies := s.replies ++ [⟨q.task, source, ai, ai.all fun a => a ∉ s.freedLists⟩] }
      (s.reply q source ai socket) := by
  rw [Network.reply]
  split
  · exact (beside_call _).mono (Nat.le_succ 1)
  · exact beside_networkAcceptResolve ai socket
  · exact beside_networkConnectResolve ai socket

theorem Resolving.beside (h : Resolving s) (hnone : ∀ f ∈ s.stack, f.answers = false) {k : ℕ}
    (hb : Beside k s s') : Resolving s' := by
  obtain ⟨new, hstack, hnew, -⟩ := hb.stack
  have hfrees : s'.stack.flatMap NetworkFrame.frees = s.stack.flatMap NetworkFrame.frees := by
    rw [hstack, List.flatMap_append,
      List.flatMap_eq_nil_iff.mpr fun f hf => (NetworkFrame.quiet_spec (hnew f hf)).2.1]
    rfl
  have hpending : s'.pending = s.pending := by
    rw [pending, hstack, List.flatMap_append,
      List.flatMap_eq_nil_iff.mpr fun f hf => (NetworkFrame.quiet_spec (hnew f hf)).1, hb.requests]
    rfl
  have hanswers : ∀ f ∈ s'.stack, f.answers = false := by
    intro f hf
    rw [hstack] at hf
    exact (List.mem_append.mp hf).elim
      (fun hf => (NetworkFrame.quiet_spec (hnew f hf)).2.2.1) (hnone f)
  have hkey : ∀ t, (s'.task t).key = (s.task t).key := fun t =>
    congrArg (Option.getD · nullHost) (hb.host t)
  refine ⟨?_, ?_, ?_, ?_, fun n rs hmem => ?_, fun f hf => hanswers f (List.mem_of_mem_tail hf),
    fun q source ai hmem => (by cases hanswers _ hmem), ?_, fun t => ?_⟩
  · rw [hb.cache, hb.lookups]
    exact h.lookups
  · rw [hb.cache, hb.lists, hb.freedLists, hfrees]
    exact h.lists
  · rw [hb.cache, hb.lookups]
    exact h.origin
  · simp only [hb.requests, hb.cache, hkey]
    exact h.queued
  · rw [hstack] at hmem
    simp only [Ended, hb.lookups, hb.cache, hkey]
    rcases List.mem_append.mp hmem with hmem | hmem
    · exact absurd rfl ((NetworkFrame.quiet_spec (hnew _ hmem)).2.2.2 n rs)
    · exact h.delivering n rs hmem
  · simp only [hb.replies, hb.lookups, hkey]
    exact h.replied
  · rw [hb.next, hb.type, hb.tasks, hb.replies, hpending]
    exact h.counted t

/-! ## Frames -/

theorem Resolving.popFree (h : Resolving s) {f : NetworkFrame} {rest : List NetworkFrame}
    (hs : s.stack = f :: rest) (hrequests : f.requests = []) :
    Resolving { s with stack := rest, freedLists := s.freedLists ++ f.frees } := by
  have htop := h.top
  rw [hs] at htop
  have hpending : s.pending = Network.pending { s with stack := rest } := pending_cons hs hrequests
  have hlists := h.lists
  rw [hs, List.flatMap_cons, ← List.append_assoc] at hlists
  refine ⟨h.lookups, hlists, h.origin, h.queued, fun n rs hmem => ?_,
    fun g hg => htop g (List.mem_of_mem_tail hg), fun q source ai hmem => (by cases htop _ hmem),
    h.replied, fun t => ?_⟩
  · exact h.delivering n rs (hs ▸ List.mem_cons_of_mem _ hmem)
  · exact hpending ▸ h.counted t

theorem Resolving.pop (h : Resolving s) {f : NetworkFrame} {rest : List NetworkFrame}
    (hs : s.stack = f :: rest) (hrequests : f.requests = []) (hfrees : f.frees = []) :
    Resolving { s with stack := rest } ∧ ∀ g ∈ rest, g.answers = false := by
  have hpop := h.popFree hs hrequests
  rw [hfrees, List.append_nil] at hpop
  have htop := h.top
  rw [hs] at htop
  exact ⟨hpop, htop⟩

/-- A request is answered. -/
theorem Resolving.reply (h : Resolving s) {q : NetworkRequest} {source : NetworkSource}
    {ai : Option ℕ} {rest : List NetworkFrame} (hs : s.stack = .resolved q source ai :: rest)
    (socket : SocketResult) :
    Resolving (Network.reply q source ai socket { s with stack := rest }) := by
  have htop := h.top
  rw [hs] at htop
  obtain ⟨hgives, hlive⟩ := h.answer q source ai (hs ▸ List.mem_cons_self ..)
  have hperm : s.pending.Perm (q :: Network.pending { s with stack := rest }) := by
    rw [pending, hs]
    exact List.perm_middle
  have hlists := h.lists
  rw [hs, List.flatMap_cons] at hlists
  have hanswered : Resolving { s with
      stack := rest
      replies := s.replies ++ [⟨q.task, source, ai, ai.all fun a => a ∉ s.freedLists⟩] } := by
    refine ⟨h.lookups, hlists, h.origin, h.queued, fun n rs hmem => ?_,
      fun g hg => htop g (List.mem_of_mem_tail hg), fun q source ai hmem => (by cases htop _ hmem),
      fun r hr => ?_, fun t => ?_⟩
    · exact h.delivering n rs (hs ▸ List.mem_cons_of_mem _ hmem)
    · rcases List.mem_append.mp hr with hr | hr
      · exact h.replied r hr
      · rw [List.mem_singleton.mp hr]
        refine ⟨?_, hgives⟩
        cases ai with
        | none => rfl
        | some a => exact decide_eq_true (hlive a rfl)
    · have hcounted := h.counted t
      rw [(hperm.map NetworkRequest.task).count_eq, List.map_cons, List.count_cons] at hcounted
      rw [List.map_append, List.count_append, List.map_singleton, List.count_singleton]
      simp only [Network.pending] at hcounted ⊢
      omega
  exact hanswered.beside htop (beside_reply (s := { s with stack := rest }) q source ai socket)

/-- The next request of a lookup that has ended. -/
theorem Resolving.deliver (h : Resolving s) {n : ℕ} {r : NetworkRequest}
    {rs : List NetworkRequest} {rest : List NetworkFrame}
    (hs : s.stack = .deliver n (r :: rs) :: rest) :
    Resolving { s with
      stack := .resolved r (.lookup n) (s.cached n) :: .deliver n rs :: rest } := by
  have htop := h.top
  rw [hs] at htop
  obtain ⟨l, c, hl, hreturned, hc, hasync, hresult, hkeys⟩ :=
    h.delivering n (r :: rs) (hs ▸ List.mem_cons_self ..)
  have hcached : s.cached n = c.ai := by
    rw [cached, hl, Option.bind_some, hc]
    rfl
  have hlists := h.lists
  rw [hs] at hlists
  refine ⟨h.lookups, hlists, h.origin, h.queued, fun m rs' hmem => ?_, fun g hg => ?_,
    fun q source ai hmem => ?_, h.replied, fun t => ?_⟩
  · rcases List.mem_cons.mp hmem with hmem | hmem
    · cases hmem
    · rcases List.mem_cons.mp hmem with hmem | hmem
      · obtain ⟨rfl, rfl⟩ := NetworkFrame.deliver.inj hmem
        exact ⟨l, c, hl, hreturned, hc, hasync, hresult, fun q hq =>
          hkeys q (List.mem_cons_of_mem _ hq)⟩
      · exact h.delivering m rs' (hs ▸ List.mem_cons_of_mem _ hmem)
  · rcases List.mem_cons.mp hg with rfl | hg
    · rfl
    · exact htop g hg
  · rcases List.mem_cons.mp hmem with hmem | hmem
    · obtain ⟨rfl, rfl, rfl⟩ := NetworkFrame.resolved.inj hmem
      refine ⟨⟨l, hl, (hkeys _ (List.mem_cons_self ..)).symm, hcached ▸ hresult⟩,
        fun a ha hfreed => ?_⟩
      have hkept : cachedList s.cache l.key = some a := by
        rw [cachedList, hc, Option.bind_some, ← hcached, ha]
      exact (h.lists.kept l.key a hkept).2 (List.mem_append_left _ hfreed)
    · rcases List.mem_cons.mp hmem with hmem | hmem
      · cases hmem
      · exact nomatch htop _ hmem
  · have hcounted := h.counted t
    rw [pending, hs] at hcounted
    exact hcounted

/-! ## Turns -/

theorem Resolving.counted_turn (h : Resolving s) (ht : (s.task t).next = true)
    {pend : List NetworkRequest} (hperm : pend.Perm (⟨t, (s.task t).user⟩ :: s.pending)) (t' : ℕ) :
    (if (Function.update s.task t { s.task t with next := false } t').next then 1 else 0) +
        (pend.map NetworkRequest.task).count t' + (s.replies.map NetworkReply.task).count t' =
      if t' < s.tasks ∧
        (Function.update s.task t { s.task t with next := false } t').type = .resolve then 1
      else 0 := by
  have hcounted := h.counted t'
  rw [(hperm.map NetworkRequest.task).count_eq, List.map_cons, List.count_cons]
  by_cases heq : t' = t
  · rw [heq, ht, if_pos rfl] at hcounted
    rw [heq, Function.update_self, if_neg Bool.false_ne_true, beq_self_eq_true, if_pos rfl]
    dsimp only
    omega
  · rw [Function.update_of_ne heq, if_neg (c := (t == t') = true) (by simpa using Ne.symm heq)]
    exact hcounted

theorem key_turn (t : ℕ) (s : Network) (t' : ℕ) :
    (Function.update s.task t { s.task t with next := false } t').key = (s.task t').key :=
  update_same NetworkTask.key (by rfl) t'

theorem Resolving.turn (h : Resolving s) (hstack : s.stack = []) (ht : (s.task t).next = true)
    (lists : ℕ) (frames : List NetworkFrame) (source : NetworkSource) (ai : Option ℕ)
    (hlists : Lists (cachedList s.cache) lists (s.freedLists ++ frames.flatMap NetworkFrame.frees))
    (hframes : ∀ f ∈ frames, f.requests = [] ∧ f.answers = false ∧ ∀ n rs, f ≠ .deliver n rs)
    (hgives : source.Gives s.lookups (s.task t).key ai)
    (hlive : ∀ a, ai = some a → a ∉ s.freedLists) :
    Resolving { s with
      task := Function.update s.task t { s.task t with next := false }
      lists := lists
      stack := .resolved ⟨t, (s.task t).user⟩ source ai :: frames } := by
  refine ⟨h.lookups, hlists, h.origin, fun x hx => ?_, fun n rs hmem => ?_,
    fun f hf => (hframes f hf).2.1, fun q source' ai' hmem => ?_, fun r hr => ?_, fun t' => ?_⟩
  · exact ⟨(key_turn t s _).trans (h.queued x hx).1, (h.queued x hx).2⟩
  · rcases List.mem_cons.mp hmem with hmem | hmem
    · cases hmem
    · exact absurd rfl ((hframes _ hmem).2.2 n rs)
  · rcases List.mem_cons.mp hmem with hmem | hmem
    · obtain ⟨rfl, rfl, rfl⟩ := NetworkFrame.resolved.inj hmem
      dsimp only
      rw [key_turn]
      exact ⟨hgives, hlive⟩
    · exact nomatch (hframes _ hmem).2.1
  · dsimp only
    rw [key_turn]
    exact h.replied r hr
  · refine h.counted_turn ht ?_ t'
    have hrequests := List.flatMap_eq_nil_iff.mpr fun f hf => (hframes f hf).1
    rw [pending, pending, List.flatMap_cons, hrequests, hstack]
    exact List.perm_middle

theorem gives_mono {lookups lookups' : List NetworkLookup} {source : NetworkSource} {key : Bytes}
    {ai : Option ℕ} (hkeeps : ∀ (n : ℕ) (l : NetworkLookup), lookups[n]? = some l →
      l.result ≠ none → ∃ l' : NetworkLookup, lookups'[n]? = some l' ∧ l'.key = l.key ∧
        l'.result = l.result)
    (h : source.Gives lookups key ai) : source.Gives lookups' key ai := by
  cases source with
  | numeric => trivial
  | cached =>
    obtain ⟨n, l, a, hl, hkey, hresult, hai⟩ := h
    obtain ⟨l', hl', hkey', hresult'⟩ := hkeeps n l hl (by rw [hresult]; nofun)
    exact ⟨n, l', a, hl', hkey'.trans hkey, hresult'.trans hresult, hai⟩
  | lookup n =>
    obtain ⟨l, hl, hkey, hresult⟩ := h
    obtain ⟨l', hl', hkey', hresult'⟩ := hkeeps n l hl (by rw [hresult]; nofun)
    exact ⟨l', hl', hkey'.trans hkey, hresult'.trans hresult⟩

theorem cachedList_update (cache : Bytes → Option NetworkCache) (key : Bytes) (c : NetworkCache) :
    cachedList (Function.update cache key (some c)) =
      Function.update (cachedList cache) key c.ai := by
  funext k
  by_cases hk : k = key
  · rw [cachedList, hk, Function.update_self, Function.update_self]
    rfl
  · rw [cachedList, Function.update_of_ne hk, Function.update_of_ne hk]
    rfl

/-- A request is queued, with a lookup for it unless one is in flight. -/
theorem Resolving.queue (h : Resolving s) (hstack : s.stack = []) (ht : (s.task t).next = true)
    {key : Bytes} {c : NetworkCache} (hc : c = (s.cache key).getD ⟨0, none, none⟩)
    (htimely : c.ai ≠ none → c.async = none) (hkey : (s.task t).key = key) (expire : ℕ) :
    Resolving { s with
      task := Function.update s.task t { s.task t with next := false }
      requests := s.requests ++ [(key, ⟨t, (s.task t).user⟩)]
      cache := Function.update s.cache key
        (some ⟨expire, none, some (c.async.getD s.lookups.length)⟩)
      lookups := s.lookups ++ if c.async = none then [⟨key, none, false⟩] else []
      freedLists := s.freedLists ++ c.ai.toList } := by
  have hai : c.ai = cachedList s.cache key := by
    rw [hc, cachedList]
    cases s.cache key <;> rfl
  have hlists := h.lists.drop key
  rw [hstack, List.flatMap_nil, List.append_nil, ← hai] at hlists
  have hkeeps : ∀ (n : ℕ) (l : NetworkLookup), s.lookups[n]? = some l →
      (s.lookups ++ if c.async = none then [⟨key, none, false⟩] else [])[n]? = some l := by
    intro n l hl
    rw [List.getElem?_append_left (List.getElem?_eq_some_iff.mp hl).1]
    exact hl
  refine ⟨?_, ?_, fun k a ha => ?_, fun x hx => ?_, fun n rs hmem => ?_, fun f hf => ?_,
    fun q source ai hmem => ?_, fun r hr => ⟨(h.replied r hr).1, ?_⟩, fun t' => ?_⟩
  · dsimp only
    cases hasync : c.async with
    | none =>
      rw [if_pos rfl]
      refine h.lookups.start (fun d hd => ?_) _
      rw [hd, Option.getD_some] at hc
      exact hc ▸ hasync
    | some n =>
      have hnone : c.ai = none := by
        by_contra hne
        rw [htimely hne] at hasync
        cases hasync
      have hsome : s.cache key = some c := by
        cases hcache : s.cache key with
        | none =>
          rw [hc, hcache] at hasync
          cases hasync
        | some d => rw [hc, hcache, Option.getD_some]
      have hjoin := h.lookups.join hsome expire
      rw [hnone, hasync] at hjoin
      rw [if_neg nofun, List.append_nil]
      exact hjoin
  · dsimp only
    rw [cachedList_update, hstack]
    exact hlists.congr (fun _ => rfl) (by rw [List.flatMap_nil, List.append_nil])
  · rw [show _ = cachedList _ k from rfl, cachedList_update] at ha
    by_cases hk : k = key
    · rw [hk, Function.update_self] at ha
      cases ha
    · rw [Function.update_of_ne hk] at ha
      obtain ⟨n, l, hl, hrest⟩ := h.origin k a ha
      exact ⟨n, l, hkeeps n l hl, hrest⟩
  · dsimp only
    rw [key_turn]
    rcases List.mem_append.mp hx with hx | hx
    · obtain ⟨hxkey, d, n, hd, hasync⟩ := h.queued x hx
      refine ⟨hxkey, ?_⟩
      by_cases hk : x.1 = key
      · rw [hk]
        exact ⟨_, _, Function.update_self .., rfl⟩
      · exact ⟨d, n, hd ▸ Function.update_of_ne hk .., hasync⟩
    · rw [List.mem_singleton.mp hx]
      exact ⟨hkey, _, _, Function.update_self .., rfl⟩
  · rw [show _ = s.stack from rfl, hstack] at hmem
    cases hmem
  · rw [show _ = s.stack from rfl, hstack] at hf
    cases hf
  · rw [show _ = s.stack from rfl, hstack] at hmem
    cases hmem
  · dsimp only
    rw [key_turn]
    exact gives_mono (fun n l hl _ => ⟨l, hkeeps n l hl, rfl, rfl⟩) (h.replied r hr).2
  · refine h.counted_turn ht ?_ t'
    rw [pending, pending, List.map_append, List.append_assoc]
    exact List.perm_middle

theorem Resolving.enqueue (h : Resolving s) (hstack : s.stack = [])
    (ht : (s.task t).next = true) {key : Bytes} {c : NetworkCache}
    (hc : c = (s.cache key).getD ⟨0, none, none⟩) (htimely : c.ai ≠ none → c.async = none)
    (hkey : (s.task t).key = key) :
    Resolving ((s.setTask t { s.task t with next := false }).enqueue t key c) := by
  have hself : (s.setTask t { s.task t with next := false }).task t =
      { s.task t with next := false } := Function.update_self ..
  have hqueue := h.queue hstack ht hc htimely hkey (if c.ai = none then c.expire else 0)
  rw [enqueue_eq, hself]
  refine hqueue.beside (fun f hf => ?_) (beside_networkResolveTaskDone ?_)
  · rw [show _ = s.stack from rfl, hstack] at hf
    cases hf
  · exact congrArg NetworkTask.next hself

end Network

end LibReactor
