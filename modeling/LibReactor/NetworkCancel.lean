import LibReactor.NetworkLinks

/-!
# Cancellation

The program may cancel a task while the task waits for its turn or for its socket. It must not
when the request of the task is on its way, nor in the callback that ends the task.
-/

namespace LibReactor

def NetworkFrame.ends : NetworkFrame → List ℕ
  | .resolveDone t | .errorCancel t | .connectDone t => [t]
  | _ => []

def NetworkFrame.lastCall (t : ℕ) : NetworkFrame → Bool
  | .called t' event => t' = t ∧ event.terminal
  | _ => false

namespace Network

open Transition

def ends (s : Network) : List ℕ := s.stack.flatMap NetworkFrame.ends

/-- The program has been told, or is about to be told, that the task has ended. -/
def Ending (s : Network) (t : ℕ) : Prop :=
  t ∈ s.released ∨ (∃ f ∈ s.stack, f.lastCall t) ∨ t ∈ s.pending.map NetworkRequest.task

/-- The task is cancelled while it waits for its turn or for its socket. -/
def safeCancel (s : Network) : NetworkLabel → Bool
  | .cancel t => (s.pending.all fun q => q.holder ≠ t) && s.stack.all fun f => !f.lastCall t
  | _ => true

/-! ## Descriptors -/

/-- A descriptor belongs to one task, and is closed once. -/
structure Owned (task : ℕ → NetworkTask) (freed : List ℕ) (fds : ℕ) (closed : List ℕ) : Prop where
  live : ∀ t fd, t ∉ freed → (task t).fd = some fd → fd < fds ∧ fd ∉ closed
  alone : ∀ t t' fd, t ∉ freed → t' ∉ freed → (task t).fd = some fd → (task t').fd = some fd →
    t = t'
  nodup : closed.Nodup
  used : ∀ fd ∈ closed, fd < fds

variable {task task' : ℕ → NetworkTask} {freed closed : List ℕ} {fds : ℕ}

theorem Owned.congr (h : Owned task freed fds closed) (hfd : ∀ t, (task' t).fd = (task t).fd) :
    Owned task' freed fds closed := by
  refine ⟨fun t fd ht hopen => ?_, fun t t' fd ht ht' hopen hopen' => ?_, h.nodup, h.used⟩
  · rw [hfd] at hopen
    exact h.live t fd ht hopen
  · rw [hfd] at hopen hopen'
    exact h.alone t t' fd ht ht' hopen hopen'

theorem Owned.more (h : Owned task freed fds closed) {fds' : ℕ} (hle : fds ≤ fds') :
    Owned task freed fds' closed where
  live t fd ht hopen :=
    ⟨Nat.lt_of_lt_of_le (h.live t fd ht hopen).1 hle, (h.live t fd ht hopen).2⟩
  alone := h.alone
  nodup := h.nodup
  used fd hfd := Nat.lt_of_lt_of_le (h.used fd hfd) hle

theorem Owned.opened (h : Owned task freed fds closed) {t : ℕ} {x : NetworkTask}
    (hx : x.fd = some fds) : Owned (Function.update task t x) freed (fds + 1) closed := by
  have hnew : ∀ t' fd, (Function.update task t x t').fd = some fd →
      (t' = t ∧ fd = fds) ∨ (t' ≠ t ∧ (task t').fd = some fd) := by
    intro t' fd hopen
    by_cases hne : t' = t
    · rw [hne, Function.update_self, hx] at hopen
      exact .inl ⟨hne, (Option.some.inj hopen).symm⟩
    · rw [Function.update_of_ne hne] at hopen
      exact .inr ⟨hne, hopen⟩
  refine ⟨fun t' fd ht hopen => ?_, fun t₁ t₂ fd h₁ h₂ hopen₁ hopen₂ => ?_, h.nodup,
    fun fd hfd => Nat.lt_succ_of_lt (h.used fd hfd)⟩
  · rcases hnew t' fd hopen with ⟨-, rfl⟩ | ⟨-, hopen⟩
    · exact ⟨Nat.lt_succ_self _, fun hmem => Nat.lt_irrefl _ (h.used _ hmem)⟩
    · exact ⟨Nat.lt_succ_of_lt (h.live t' fd ht hopen).1, (h.live t' fd ht hopen).2⟩
  · rcases hnew t₁ fd hopen₁ with ⟨rfl, rfl⟩ | ⟨-, hopen₁⟩
    · rcases hnew t₂ fd hopen₂ with ⟨rfl, -⟩ | ⟨-, hopen₂⟩
      · rfl
      · exact absurd (h.live t₂ fd h₂ hopen₂).1 (Nat.lt_irrefl _)
    · rcases hnew t₂ fd hopen₂ with ⟨-, rfl⟩ | ⟨-, hopen₂⟩
      · exact absurd (h.live t₁ fd h₁ hopen₁).1 (Nat.lt_irrefl _)
      · exact h.alone t₁ t₂ fd h₁ h₂ hopen₁ hopen₂

/-- A task gives its descriptor to the program, or it never had one. -/
theorem Owned.given (h : Owned task freed fds closed) {t : ℕ} {x : NetworkTask}
    (hx : x.fd = none) : Owned (Function.update task t x) freed fds closed := by
  have hkept : ∀ t' fd, (Function.update task t x t').fd = some fd → (task t').fd = some fd := by
    intro t' fd hopen
    by_cases hne : t' = t
    · rw [hne, Function.update_self, hx] at hopen
      cases hopen
    · rwa [Function.update_of_ne hne] at hopen
  exact ⟨fun t' fd ht hopen => h.live t' fd ht (hkept t' fd hopen),
    fun t₁ t₂ fd h₁ h₂ hopen₁ hopen₂ =>
      h.alone t₁ t₂ fd h₁ h₂ (hkept t₁ fd hopen₁) (hkept t₂ fd hopen₂), h.nodup, h.used⟩

theorem Owned.drop (h : Owned task freed fds closed) (gone : List ℕ) :
    Owned task (freed ++ gone) fds closed := by
  have hlive : ∀ {t}, t ∉ freed ++ gone → t ∉ freed := fun ht hmem =>
    ht (List.mem_append_left _ hmem)
  exact ⟨fun t fd ht hopen => h.live t fd (hlive ht) hopen,
    fun t t' fd ht ht' hopen hopen' => h.alone t t' fd (hlive ht) (hlive ht') hopen hopen',
    h.nodup, h.used⟩

/-- A task is freed with its descriptor. -/
theorem Owned.close (h : Owned task freed fds closed) {t : ℕ} (ht : t ∉ freed) {gone : List ℕ}
    (hgone : t ∈ gone) : Owned task (freed ++ gone) fds (closed ++ (task t).fd.toList) := by
  cases hfd : (task t).fd with
  | none =>
    rw [Option.toList_none, List.append_nil]
    exact h.drop gone
  | some fd =>
    obtain ⟨hlt, hopen⟩ := h.live t fd ht hfd
    have hfreed := h.drop gone
    refine ⟨fun t' fd' ht' hopen' => ?_, hfreed.alone, ?_, fun fd' hmem => ?_⟩
    · refine ⟨(hfreed.live t' fd' ht' hopen').1, fun hmem => ?_⟩
      rcases List.mem_append.mp hmem with hmem | hmem
      · exact (hfreed.live t' fd' ht' hopen').2 hmem
      · obtain rfl := List.mem_singleton.mp hmem
        obtain rfl := h.alone t t' fd' ht (fun hmem => ht' (List.mem_append_left _ hmem)) hfd hopen'
        exact ht' (List.mem_append_right _ hgone)
    · exact List.nodup_append'.mpr ⟨h.nodup, List.nodup_singleton _,
        List.disjoint_singleton.mpr hopen⟩
    · rcases List.mem_append.mp hmem with hmem | hmem
      · exact h.used fd' hmem
      · exact List.mem_singleton.mp hmem ▸ hlt

/-! ## The state of a safe run -/

def Silent (log : List NetworkCall) : Prop :=
  log.Pairwise fun a b => ∀ t event, a = .cancel t → b ≠ .call t event

structure Safe (s : Network) : Prop where
  failed : s.failed = false
  linked : Linked s.tasks s.task s.freed s.pending
  once : (s.freed ++ s.ends).Nodup
  idle : ∀ t ∈ s.ends, t < s.tasks ∧ (s.task t).next = false ∧ (s.task t).op = false ∧
    (s.task t).resolve = none
  ending : ∀ t ∈ s.freed ++ s.ends, (s.task t).user = .program → s.Ending t
  owned : Owned s.task s.freed s.fds s.closed
  cancelled : ∀ t, .cancel t ∈ s.log → t ∈ s.freed ∧ ∀ q ∈ s.pending, q.holder ≠ t
  silent : Silent s.log

structure Loose (s : Network) (t : ℕ) : Prop where
  made : t < s.tasks
  live : t ∉ s.freed
  started : t ∉ s.ends
  type : (s.task t).type ≠ .resolve
  next : (s.task t).next = false
  op : (s.task t).op = false
  resolve : (s.task t).resolve = none

variable {s : Network} {t : ℕ}

theorem access_live (ht : t ∉ s.freed) (f : Network → Network) : access t f s = f s := if_neg ht

theorem Safe.not_cancelled (h : Safe s) (ht : t ∉ s.freed) : .cancel t ∉ s.log :=
  fun hmem => ht (h.cancelled t hmem).1

theorem Silent.call {log : List NetworkCall} (h : Silent log) (ht : .cancel t ∉ log)
    (event : NetworkEvent) : Silent (log ++ [.call t event]) := by
  refine List.pairwise_append.mpr ⟨h, List.pairwise_singleton _ _,
    fun a ha b hb t' event' heq => ?_⟩
  rw [List.mem_singleton.mp hb]
  rintro ⟨⟩
  exact ht (heq ▸ ha)

theorem Silent.cancel {log : List NetworkCall} (h : Silent log) (t : ℕ) :
    Silent (log ++ [.cancel t]) := by
  refine List.pairwise_append.mpr ⟨h, List.pairwise_singleton _ _, fun a _ b hb t' event' _ => ?_⟩
  rw [List.mem_singleton.mp hb]
  nofun

theorem ends_push (f : NetworkFrame) : (s.push f).ends = f.ends ++ s.ends := rfl

theorem ends_call (event : NetworkEvent) : (s.call t event).ends = s.ends := rfl

theorem pending_push (f : NetworkFrame) : (s.push f).pending =
    s.requests.map Prod.snd ++ (f.requests ++ s.stack.flatMap NetworkFrame.requests) := rfl

theorem pending_call (event : NetworkEvent) : (s.call t event).pending = s.pending := rfl

theorem Safe.call (h : Safe s) (ht : t ∉ s.freed) (event : NetworkEvent) :
    Safe (s.call t event) where
  failed := h.failed
  linked := h.linked
  once := h.once
  idle := h.idle
  ending t' ht' huser := by
    rcases h.ending t' ht' huser with hmem | ⟨f, hf, hlast⟩ | hmem
    · exact .inl hmem
    · exact .inr (.inl ⟨f, List.mem_cons_of_mem _ hf, hlast⟩)
    · exact .inr (.inr hmem)
  owned := h.owned
  cancelled t' hmem := by
    rcases List.mem_append.mp hmem with hmem | hmem
    · exact h.cancelled t' hmem
    · cases List.mem_singleton.mp hmem
  silent := h.silent.call (h.not_cancelled ht) event

theorem Safe.finish (h : Safe s) (ht : Loose s t) {f : NetworkFrame} (hends : f.ends = [t])
    (hrequests : f.requests = []) {event : NetworkEvent} (hevent : event.terminal = true) :
    Safe ((s.push f).call t event) := by
  have hends' : ((s.push f).call t event).ends = t :: s.ends := by
    rw [ends_call, ends_push, hends, List.singleton_append]
  have hpending : ((s.push f).call t event).pending = s.pending := by
    rw [pending_call, pending_push, hrequests, List.nil_append, pending]
  have hending : ∀ t', s.Ending t' → ((s.push f).call t event).Ending t' := by
    rintro t' (hmem | ⟨g, hg, hlast⟩ | hmem)
    · exact .inl hmem
    · exact .inr (.inl ⟨g, List.mem_cons_of_mem _ (List.mem_cons_of_mem _ hg), hlast⟩)
    · exact .inr (.inr (hpending ▸ hmem))
  refine ⟨h.failed, hpending ▸ h.linked, ?_, fun t' ht' => ?_, fun t' ht' huser => ?_, h.owned,
    fun t' hmem => ?_, h.silent.call (h.not_cancelled ht.live) event⟩
  · rw [hends']
    refine List.nodup_middle.mpr (List.nodup_cons.mpr ⟨fun hmem => ?_, h.once⟩)
    exact (List.mem_append.mp hmem).elim ht.live ht.started
  · rw [hends'] at ht'
    rcases List.mem_cons.mp ht' with rfl | ht'
    · exact ⟨ht.made, ht.next, ht.op, ht.resolve⟩
    · exact h.idle t' ht'
  · rw [hends'] at ht'
    by_cases heq : t' = t
    · rw [heq]
      exact .inr (.inl ⟨_, List.mem_cons_self .., by
        simp only [NetworkFrame.lastCall, hevent, and_self, decide_true]⟩)
    · refine hending t' (h.ending t' ?_ huser)
      rcases List.mem_append.mp ht' with ht' | ht'
      · exact List.mem_append_left _ ht'
      · exact List.mem_append_right _ ((List.mem_cons.mp ht').resolve_left heq)
  · rw [hpending]
    rcases List.mem_append.mp hmem with hmem | hmem
    · exact h.cancelled t' hmem
    · cases List.mem_singleton.mp hmem

theorem Safe.networkError (h : Safe s) (ht : Loose s t) : Safe (s.networkError t) := by
  rw [Network.networkError, access_live ht.live]
  exact h.finish ht rfl rfl rfl

theorem Safe.setSocket (h : Safe s) (ht : t < s.tasks) {x : NetworkTask} {fds : ℕ}
    (htype : x.type = (s.task t).type) (huser : x.user = (s.task t).user)
    (hnext : x.next = (s.task t).next) (hresolve : x.resolve = (s.task t).resolve)
    (hop : x.op = true → Loose s t)
    (howned : Owned (Function.update s.task t x) s.freed fds s.closed) :
    Safe { s.setTask t x with fds := fds } where
  failed := h.failed
  linked := h.linked.set ht htype huser hnext hresolve fun hx =>
    ⟨(hop hx).live, (hop hx).resolve, (hop hx).type⟩
  once := h.once
  idle t' ht' := by
    obtain ⟨hlt, hnext', hop', hresolve'⟩ := h.idle t' ht'
    refine ⟨hlt, (update_same NetworkTask.next hnext t').trans hnext', ?_,
      (update_same NetworkTask.resolve hresolve t').trans hresolve'⟩
    by_cases hne : t' = t
    · simp only [setTask, hne, Function.update_self]
      exact Bool.eq_false_iff.mpr fun hx => (hop hx).started (hne ▸ ht')
    · simp only [setTask, Function.update_of_ne hne]
      exact hop'
  ending t' ht' huser' :=
    h.ending t' ht' ((update_same NetworkTask.user huser t').symm.trans huser')
  owned := howned
  cancelled := h.cancelled
  silent := h.silent

theorem Safe.openSocket (h : Safe s) (ht : Loose s t) : Safe (s.openSocket t) :=
  h.setSocket ht.made rfl rfl rfl rfl (fun _ => ht) (h.owned.opened rfl)

theorem Loose.openSocket (ht : Loose s t) : Loose (s.openSocket t) t where
  made := ht.made
  live := ht.live
  started := ht.started
  type htype := ht.type ((update_same NetworkTask.type (by rfl) t).symm.trans htype)
  next := (update_same NetworkTask.next (by rfl) t).trans ht.next
  op := (update_same NetworkTask.op (by rfl) t).trans ht.op
  resolve := (update_same NetworkTask.resolve (by rfl) t).trans ht.resolve

theorem Safe.arm (h : Safe s) (ht : Loose s t) : Safe (s.arm t) :=
  h.setSocket ht.made rfl rfl rfl rfl (fun _ => ht)
    (h.owned.congr fun t' => update_same NetworkTask.fd (by rfl) t')

theorem Safe.networkAcceptTaskSocket (h : Safe s) (ht : Loose s t) (socket : SocketResult) :
    Safe (s.networkAcceptTaskSocket t socket) := by
  cases socket with
  | noSocket => exact h.networkError ht
  | noBind => exact (h.openSocket ht).networkError ht.openSocket
  | ready => exact ((h.openSocket ht).arm ht.openSocket).call ht.live _

theorem Safe.networkConnectTaskSocket (h : Safe s) (ht : Loose s t) (socket : SocketResult) :
    Safe (s.networkConnectTaskSocket t socket) := by
  rw [Network.networkConnectTaskSocket]
  split
  · exact h.networkError ht
  · exact (h.openSocket ht).arm ht.openSocket

theorem Safe.complete (h : Safe s) (ht : (s.task t).op = true) (success : Bool) :
    Safe (s.complete t success) := by
  obtain ⟨hlive, hresolve⟩ := h.linked.armed t ht
  have hmade : t < s.tasks := h.linked.lt_of_ne fun hblank => by
    rw [hblank] at ht
    cases ht
  have htype : (s.task t).type ≠ .resolve := by
    intro htype
    rw [(h.linked.resolves t htype).1] at ht
    cases ht
  have hsafe : Safe (s.setTask t { s.task t with op := false }) :=
    h.setSocket hmade rfl rfl rfl rfl nofun
      (h.owned.congr fun t' => update_same NetworkTask.fd (by rfl) t')
  have hself : (s.setTask t { s.task t with op := false }).task t =
      { s.task t with op := false } := Function.update_self ..
  have hloose : Loose (s.setTask t { s.task t with op := false }) t := by
    refine ⟨hmade, hlive, fun hmem => ?_, ?_, ?_, ?_, ?_⟩
    · rw [(h.idle t hmem).2.2.1] at ht
      cases ht
    · rw [hself]
      exact htype
    · rw [hself]
      exact Bool.eq_false_iff.mpr fun hnext => htype (h.linked.waiting t hnext).2
    · rw [hself]
    · rw [hself]
      exact hresolve
  have herror := hsafe.networkError hloose
  rw [Network.complete]
  split
  · rw [networkConnectTaskCallback, access_live hlive]
    dsimp only
    split
    · exact hsafe.finish hloose rfl rfl rfl
    · exact herror
  · rw [networkAcceptTaskCallback, access_live hlive]
    dsimp only
    split
    · have hcall := (hsafe.arm hloose).call hlive (.accept s.fds)
      exact ⟨hcall.failed, hcall.linked, hcall.once, hcall.idle, hcall.ending,
        hcall.owned.more (Nat.le_succ _), hcall.cancelled, hcall.silent⟩
    · exact herror

/-! ## Replies -/

theorem Safe.replied (h : Safe s) (replies : List NetworkReply) :
    Safe { s with replies := replies } :=
  ⟨h.failed, h.linked, h.once, h.idle, h.ending, h.owned, h.cancelled, h.silent⟩

theorem Safe.answer {q : NetworkRequest} {source : NetworkSource} {ai : Option ℕ}
    {rest : List NetworkFrame} (h : Safe s) (hs : s.stack = .resolved q source ai :: rest)
    (hq : q.user.parent = some t) :
    Safe ({ s with stack := rest }.setTask t { s.task t with resolve := none }) ∧
      Loose ({ s with stack := rest }.setTask t { s.task t with resolve := none }) t := by
  have hperm : s.pending.Perm (q :: Network.pending { s with stack := rest }) := by
    rw [pending, hs]
    exact List.perm_middle
  have hends : s.ends = Network.ends { s with stack := rest } := by
    rw [ends, hs]
    rfl
  have hlinked := h.linked.perm hperm
  obtain ⟨-, huser, -⟩ := hlinked.request q (List.mem_cons_self ..)
  obtain ⟨hlive, hresolve⟩ := hlinked.parent q.task t (huser ▸ hq) (.inr (List.mem_cons_self ..))
  have hstarted : t ∉ s.ends := by
    intro hmem
    rw [(h.idle t hmem).2.2.2] at hresolve
    cases hresolve
  have htype : (s.task t).type ≠ .resolve := by
    intro htype
    rw [(hlinked.resolves t htype).2] at hresolve
    cases hresolve
  refine ⟨⟨h.failed, hlinked.answer hq, ?_, fun t' ht' => ?_, fun t' ht' huser' => ?_, ?_,
    fun t' hmem => ?_, h.silent⟩, ⟨hlinked.lt_of_resolve hresolve, hlive, hends ▸ hstarted, ?_, ?_,
      ?_, ?_⟩⟩
  · exact hends ▸ h.once
  · have ht' : t' ∈ s.ends := hends ▸ ht'
    have hne : t' ≠ t := fun heq => hstarted (heq ▸ ht')
    simp only [setTask, Function.update_of_ne hne]
    exact h.idle t' ht'
  · have hprogram : (s.task t').user = .program :=
      (update_same NetworkTask.user (by rfl) t').symm.trans huser'
    have ht' : t' ∈ s.freed ++ s.ends := hends ▸ ht'
    rcases h.ending t' ht' hprogram with hmem | ⟨f, hf, hlast⟩ | hmem
    · exact .inl hmem
    · rw [hs] at hf
      rcases List.mem_cons.mp hf with rfl | hf
      · cases hlast
      · exact .inr (.inl ⟨f, hf, hlast⟩)
    · rcases List.mem_cons.mp ((hperm.map _).mem_iff.mp hmem) with rfl | hmem
      · rw [← huser] at hprogram
        rw [hprogram] at hq
        cases hq
      · exact .inr (.inr hmem)
  · exact h.owned.congr fun t' => update_same NetworkTask.fd (by rfl) t'
  · refine ⟨(h.cancelled t' hmem).1, fun q' hq' => (h.cancelled t' hmem).2 q' ?_⟩
    exact hperm.mem_iff.mpr (List.mem_cons_of_mem _ hq')
  · exact fun heq => htype ((update_same NetworkTask.type (by rfl) t).symm.trans heq)
  · refine (update_same NetworkTask.next (by rfl) t).trans (Bool.eq_false_iff.mpr fun hnext => ?_)
    exact htype (hlinked.waiting t hnext).2
  · refine (update_same NetworkTask.op (by rfl) t).trans (Bool.eq_false_iff.mpr fun hop => ?_)
    rw [(hlinked.armed t hop).2] at hresolve
    cases hresolve
  · exact congrArg NetworkTask.resolve (Function.update_self t _ s.task)

theorem Safe.answerProgram {q : NetworkRequest} {source : NetworkSource} {ai : Option ℕ}
    {rest : List NetworkFrame} (h : Safe s) (hs : s.stack = .resolved q source ai :: rest)
    (hq : q.user = .program) : Safe ({ s with stack := rest }.call q.task (.resolve ai)) := by
  have hperm : s.pending.Perm (q :: Network.pending { s with stack := rest }) := by
    rw [pending, hs]
    exact List.perm_middle
  have hends : s.ends = Network.ends { s with stack := rest } := by
    rw [ends, hs]
    rfl
  have hlinked := h.linked.perm hperm
  have hcancelled : .cancel q.task ∉ s.log := by
    intro hmem
    refine (h.cancelled q.task hmem).2 q (hperm.mem_iff.mpr (List.mem_cons_self ..)) ?_
    rw [NetworkRequest.holder, hq]
    rfl
  refine ⟨h.failed, hlinked.answerProgram hq, hends ▸ h.once, fun t' ht' => ?_,
    fun t' ht' huser => ?_, h.owned, fun t' hmem => ?_, h.silent.call hcancelled _⟩
  · exact h.idle t' (hends ▸ ht')
  · have ht' : t' ∈ s.freed ++ s.ends := hends ▸ ht'
    rcases h.ending t' ht' huser with hmem | ⟨f, hf, hlast⟩ | hmem
    · exact .inl hmem
    · rw [hs] at hf
      rcases List.mem_cons.mp hf with rfl | hf
      · cases hlast
      · exact .inr (.inl ⟨f, List.mem_cons_of_mem _ hf, hlast⟩)
    · rcases List.mem_cons.mp ((hperm.map _).mem_iff.mp hmem) with rfl | hmem
      · exact .inr (.inl ⟨_, List.mem_cons_self .., by
          simp only [NetworkFrame.lastCall, NetworkEvent.terminal, and_self, decide_true]⟩)
      · exact .inr (.inr hmem)
  · rcases List.mem_append.mp hmem with hmem | hmem
    · refine ⟨(h.cancelled t' hmem).1, fun q' hq' => (h.cancelled t' hmem).2 q' ?_⟩
      exact hperm.mem_iff.mpr (List.mem_cons_of_mem _ hq')
    · cases List.mem_singleton.mp hmem

theorem Safe.reply {q : NetworkRequest} {source : NetworkSource} {ai : Option ℕ}
    {rest : List NetworkFrame} (h : Safe s) (hs : s.stack = .resolved q source ai :: rest)
    (socket : SocketResult) : Safe ({ s with stack := rest }.reply q source ai socket) := by
  have hreplied := h.replied
    (s.replies ++ [⟨q.task, source, ai, ai.all fun a => a ∉ s.freedLists⟩])
  rw [Network.reply]
  dsimp only
  split
  next hq => exact hreplied.answerProgram hs hq
  next t hq =>
    obtain ⟨hsafe, hloose⟩ := hreplied.answer hs (show q.user.parent = some t by rw [hq]; rfl)
    rw [networkAcceptResolve, access_live]
    · dsimp only
      split
      · exact hsafe.networkError hloose
      · exact hsafe.networkAcceptTaskSocket hloose socket
    · exact hloose.live
  next t hq =>
    obtain ⟨hsafe, hloose⟩ := hreplied.answer hs (show q.user.parent = some t by rw [hq]; rfl)
    rw [networkConnectResolve, access_live]
    · dsimp only
      split
      · exact hsafe.networkError hloose
      · exact hsafe.networkConnectTaskSocket hloose socket
    · exact hloose.live

/-! ## The end of tasks -/

theorem ends_cons {f : NetworkFrame} {rest : List NetworkFrame} (hs : s.stack = f :: rest) :
    s.ends = f.ends ++ Network.ends { s with stack := rest } := by
  rw [ends, hs]
  rfl

theorem pending_cons {f : NetworkFrame} {rest : List NetworkFrame} (hs : s.stack = f :: rest)
    (hrequests : f.requests = []) : s.pending = Network.pending { s with stack := rest } := by
  rw [pending, hs, List.flatMap_cons, hrequests]
  rfl

theorem Ending.pop {f : NetworkFrame} {rest : List NetworkFrame} (h : s.Ending t)
    (hs : s.stack = f :: rest) (hrequests : f.requests = [])
    (hlast : f.lastCall t = true → t ∈ s.released) :
    Network.Ending { s with stack := rest } t := by
  rcases h with hreleased | ⟨g, hg, hgt⟩ | hpend
  · exact .inl hreleased
  · rw [hs] at hg
    rcases List.mem_cons.mp hg with rfl | hg
    · exact .inl (hlast hgt)
    · exact .inr (.inl ⟨g, hg, hgt⟩)
  · exact .inr (.inr (pending_cons hs hrequests ▸ hpend))

theorem Safe.pop {f : NetworkFrame} {rest : List NetworkFrame} (h : Safe s)
    (hs : s.stack = f :: rest) (hrequests : f.requests = [])
    (hlast : ∀ t, f.lastCall t = true → t ∈ s.released) : Safe { s with stack := rest } := by
  have hends := ends_cons hs
  have hpending := pending_cons hs hrequests
  have hmem : ∀ t, t ∈ Network.ends { s with stack := rest } → t ∈ s.ends := fun t ht =>
    hends ▸ List.mem_append_right _ ht
  refine ⟨h.failed, hpending ▸ h.linked, ?_, fun t ht => h.idle t (hmem t ht),
    fun t ht huser => ?_, h.owned, fun t ht => hpending ▸ h.cancelled t ht, h.silent⟩
  · have honce := h.once
    rw [hends] at honce
    exact honce.sublist ((List.sublist_append_right _ _).append_left _)
  · refine (h.ending t ?_ huser).pop hs hrequests (hlast t)
    rcases List.mem_append.mp ht with ht | ht
    · exact List.mem_append_left _ ht
    · exact List.mem_append_right _ (hmem t ht)

theorem Safe.popEnds {f : NetworkFrame} {rest : List NetworkFrame} (h : Safe s)
    (hs : s.stack = f :: rest) (hf : f.ends = [t]) :
    Safe { s with stack := rest } ∧ t < s.tasks ∧ t ∉ s.freed ∧
      t ∉ Network.ends { s with stack := rest } ∧ (s.task t).next = false ∧
      (s.task t).op = false ∧ (s.task t).resolve = none ∧
      ((s.task t).user = .program → Network.Ending { s with stack := rest } t) := by
  have hframe : f.requests = [] ∧ ∀ t, f.lastCall t = false := by
    cases f with
    | resolveDone | errorCancel | connectDone => exact ⟨rfl, fun _ => rfl⟩
    | called | resolved | deliver | freeAddress => cases hf
  have hends := ends_cons hs
  rw [hf, List.singleton_append] at hends
  have hmem : t ∈ s.ends := hends ▸ List.mem_cons_self ..
  have hlast : ∀ t, f.lastCall t = true → t ∈ s.released := by
    intro t ht
    rw [hframe.2 t] at ht
    cases ht
  have honce := h.once
  rw [hends] at honce
  have hfirst := (List.nodup_cons.mp (List.nodup_middle.mp honce)).1
  obtain ⟨hmade, hnext, hop, hresolve⟩ := h.idle t hmem
  exact ⟨h.pop hs hframe.1 hlast, hmade, fun ht => hfirst (List.mem_append_left _ ht),
    fun ht => hfirst (List.mem_append_right _ ht), hnext, hop, hresolve, fun huser =>
      (h.ending t (List.mem_append_right _ hmem) huser).pop hs hframe.1 (hlast t)⟩

theorem Safe.free (h : Safe s) {gone closed : List ℕ} {task : ℕ → NetworkTask}
    (hgone : gone.Nodup) (hlive : ∀ t ∈ gone, t ∉ s.freed ∧ t ∉ s.ends)
    (hout : ∀ t, t ∉ gone → task t = s.task t)
    (hin : ∀ t ∈ gone, t < s.tasks ∧ (task t).type = (s.task t).type ∧
      (task t).user = (s.task t).user ∧ (task t).resolve = (s.task t).resolve ∧
      (task t).next = false ∧ (task t).op = false)
    (hparent : ∀ t ∈ gone, ∀ q ∈ s.pending, q.user.parent ≠ some t)
    (hwait : ∀ t ∈ gone, ∀ r, (s.task t).resolve = some r → r ∈ gone)
    (hsub : ∀ r ∈ gone, ∀ p, p ∉ s.freed → p ∉ gone → (s.task p).resolve = some r →
      r ∈ s.pending.map NetworkRequest.task)
    (hending : ∀ t ∈ gone, (s.task t).user = .program → s.Ending t)
    (howned : Owned task (s.freed ++ gone) s.fds closed) :
    Safe { s with task := task, freed := s.freed ++ gone, closed := closed } := by
  have huser : ∀ t, (task t).user = (s.task t).user := by
    intro t
    by_cases ht : t ∈ gone
    · exact (hin t ht).2.2.1
    · rw [hout t ht]
  refine ⟨h.failed, h.linked.free hout hin hparent hwait hsub, ?_, fun t ht => ?_,
    fun t ht hprogram => ?_, howned, fun t ht => ?_, h.silent⟩
  · rw [List.append_assoc]
    refine List.nodup_append'.mpr ⟨(List.nodup_append'.mp h.once).1, List.nodup_append'.mpr
      ⟨hgone, (List.nodup_append'.mp h.once).2.1, fun t ht ht' => (hlive t ht).2 ht'⟩,
        fun t ht ht' => ?_⟩
    rcases List.mem_append.mp ht' with ht' | ht'
    · exact (hlive t ht').1 ht
    · exact (List.nodup_append'.mp h.once).2.2 ht ht'
  · have hsame : task t = s.task t := hout t fun hmem => (hlive t hmem).2 ht
    simp only [hsame]
    exact h.idle t ht
  · have hprogram : (s.task t).user = .program := (huser t).symm.trans hprogram
    rcases List.mem_append.mp ht with ht | ht
    · rcases List.mem_append.mp ht with ht | ht
      · exact h.ending t (List.mem_append_left _ ht) hprogram
      · exact hending t ht hprogram
    · exact h.ending t (List.mem_append_right _ ht) hprogram
  · exact ⟨List.mem_append_left _ (h.cancelled t ht).1, (h.cancelled t ht).2⟩

theorem Safe.freeOne (h : Safe s) {x : NetworkTask} {closed : List ℕ} (hmade : t < s.tasks)
    (hlive : t ∉ s.freed) (hends : t ∉ s.ends) (hresolve : (s.task t).resolve = none)
    (hwaiting : (s.task t).next = true → (s.task t).user = .program)
    (htype : x.type = (s.task t).type) (huser : x.user = (s.task t).user)
    (hxresolve : x.resolve = none) (hnext : x.next = false) (hop : x.op = false)
    (hending : (s.task t).user = .program → s.Ending t)
    (howned : Owned (Function.update s.task t x) (s.freed ++ [t]) s.fds closed) :
    Safe { s with task := Function.update s.task t x, freed := s.freed ++ [t],
                  closed := closed } := by
  refine h.free (List.nodup_singleton t) ?_ (fun t' ht' => ?_) (fun t' ht' => ?_)
    (fun t' ht' q hq hparent => ?_) (fun t' ht' r hr => ?_) (fun r hr p hp _ hpr => ?_) ?_ howned
  · rintro t' ht'
    obtain rfl := List.mem_singleton.mp ht'
    exact ⟨hlive, hends⟩
  · exact Function.update_of_ne (fun heq => ht' (List.mem_singleton.mpr heq)) ..
  · obtain rfl := List.mem_singleton.mp ht'
    rw [Function.update_self]
    exact ⟨hmade, htype, huser, hxresolve.trans hresolve.symm, hnext, hop⟩
  · obtain rfl := List.mem_singleton.mp ht'
    have hq' := (h.linked.request q hq).2.1 ▸ hparent
    rw [(h.linked.parent q.task t' hq' (.inr (List.mem_map_of_mem hq))).2] at hresolve
    cases hresolve
  · obtain rfl := List.mem_singleton.mp ht'
    rw [hresolve] at hr
    cases hr
  · obtain rfl := List.mem_singleton.mp hr
    obtain ⟨hparent, hr⟩ := h.linked.sub p r hp hpr
    refine hr.resolve_left fun hnext' => ?_
    rw [hwaiting hnext'] at hparent
    cases hparent
  · rintro t' ht'
    obtain rfl := List.mem_singleton.mp ht'
    exact hending

theorem close_eq (fd : Option ℕ) (s : Network) :
    s.close fd = { s with closed := s.closed ++ fd.toList } := by
  cases fd with
  | none => rw [close, Option.toList_none, List.append_nil]
  | some fd => rfl

theorem networkResolveTaskDone_eq (ht : t ∉ s.freed) : s.networkResolveTaskDone t =
    { s with task := Function.update s.task t { s.task t with next := false }
             freed := s.freed ++ [t] } := access_live ht _

theorem networkTaskDone_eq (ht : t ∉ s.freed) (hfailed : s.failed = false)
    (hresolve : (s.task t).resolve = none) : s.networkTaskDone t =
      { s with task := Function.update s.task t { s.task t with op := false }
               freed := s.freed ++ [t]
               closed := s.closed ++ (s.task t).fd.toList } := by
  rw [networkTaskDone, access_live ht]
  simp only [hresolve, hfailed, Bool.false_eq_true, if_false, close_eq]
  rfl

/-- The resolve task is freed with the task that waits for it. -/
theorem networkTaskDone_eq_sub {r : ℕ} (ht : t ∉ s.freed) (hr : r ∉ s.freed) (hne : t ≠ r)
    (hfailed : s.failed = false) (hresolve : (s.task t).resolve = some r) :
    s.networkTaskDone t =
      { s with task := Function.update (Function.update s.task r { s.task r with next := false })
                 t { s.task t with op := false }
               freed := s.freed ++ [r, t]
               closed := s.closed ++ (s.task t).fd.toList } := by
  rw [networkTaskDone, access_live ht]
  simp only [hresolve, networkResolveTaskDone_eq hr, hfailed, Bool.false_eq_true, if_false,
    close_eq, Function.update_of_ne hne]
  simp only [setTask, erase, List.append_assoc, List.singleton_append]

/-- `network_resolve_task_done` of a task that has been answered, queued or cancelled -/
theorem Safe.networkResolveTaskDone (h : Safe s) (hmade : t < s.tasks) (hlive : t ∉ s.freed)
    (hends : t ∉ s.ends) (hop : (s.task t).op = false) (hresolve : (s.task t).resolve = none)
    (hwaiting : (s.task t).next = true → (s.task t).user = .program)
    (hending : (s.task t).user = .program → s.Ending t) : Safe (s.networkResolveTaskDone t) := by
  rw [networkResolveTaskDone_eq hlive]
  refine h.freeOne hmade hlive hends hresolve hwaiting rfl rfl hresolve rfl hop hending ?_
  exact (h.owned.congr fun t' => update_same NetworkTask.fd (by rfl) t').drop [t]

/-- `network_accept_task_done` or `network_connect_task_done` of a task that has no resolve task -/
theorem Safe.networkTaskDone (h : Safe s) (hmade : t < s.tasks) (hlive : t ∉ s.freed)
    (hends : t ∉ s.ends) (hnext : (s.task t).next = false) (hresolve : (s.task t).resolve = none)
    (hending : (s.task t).user = .program → s.Ending t) : Safe (s.networkTaskDone t) := by
  rw [networkTaskDone_eq hlive h.failed hresolve]
  refine h.freeOne hmade hlive hends hresolve (fun hwaiting => ?_) rfl rfl hresolve hnext rfl
    hending ?_
  · rw [hnext] at hwaiting
    cases hwaiting
  · have howned := (h.owned.congr fun t' => update_same NetworkTask.fd
      (show NetworkTask.fd { s.task t with op := false } = _ from rfl) t').close hlive
        (List.mem_singleton_self t)
    rwa [Function.update_self] at howned

theorem Safe.networkTaskDone_sub {r : ℕ} (h : Safe s) (hmade : t < s.tasks) (hlive : t ∉ s.freed)
    (hends : t ∉ s.ends) (hnext : (s.task t).next = false) (hresolve : (s.task t).resolve = some r)
    (hnext' : (s.task r).next = true) (hending : s.Ending t) : Safe (s.networkTaskDone t) := by
  obtain ⟨hlive', htype'⟩ := h.linked.waiting r hnext'
  obtain ⟨hop', hresolve'⟩ := h.linked.resolves r htype'
  have hparent := (h.linked.sub t r hlive hresolve).1
  have hne : t ≠ r := by
    rintro rfl
    rw [hnext] at hnext'
    cases hnext'
  have hends' : r ∉ s.ends := by
    intro hmem
    rw [(h.idle r hmem).2.1] at hnext'
    cases hnext'
  have htype : (s.task t).type ≠ .resolve := by
    intro htype
    rw [(h.linked.resolves t htype).2] at hresolve
    cases hresolve
  have hgone : ∀ {t'}, t' ∈ [r, t] ↔ t' = r ∨ t' = t := by simp
  have htask : ∀ t', t' ∉ [r, t] → Function.update (Function.update s.task r
      { s.task r with next := false }) t { s.task t with op := false } t' = s.task t' := by
    intro t' ht'
    rw [hgone, not_or] at ht'
    rw [Function.update_of_ne ht'.2, Function.update_of_ne ht'.1]
  rw [networkTaskDone_eq_sub hlive hlive' hne h.failed hresolve]
  refine h.free (by simp [hne.symm]) (fun t' ht' => ?_) htask (fun t' ht' => ?_)
    (fun t' ht' q hq hq' => ?_) (fun t' ht' r' hr => ?_) (fun r' hr' p hp hp' hpr => ?_)
    (fun t' ht' huser => ?_) ?_
  · rcases hgone.mp ht' with rfl | rfl
    · exact ⟨hlive', hends'⟩
    · exact ⟨hlive, hends⟩
  · rcases hgone.mp ht' with rfl | rfl
    · rw [Function.update_of_ne hne.symm, Function.update_self]
      exact ⟨h.linked.lt_of_next hnext', rfl, rfl, rfl, rfl, hop'⟩
    · rw [Function.update_self]
      exact ⟨hmade, rfl, rfl, rfl, hnext, rfl⟩
  · have hqparent := (h.linked.request q hq).2.1 ▸ hq'
    have hqresolve := (h.linked.parent q.task t' hqparent (.inr (List.mem_map_of_mem hq))).2
    rcases hgone.mp ht' with rfl | rfl
    · rw [hresolve'] at hqresolve
      cases hqresolve
    · obtain rfl := Option.some.inj (hresolve.symm.trans hqresolve)
      rw [(h.linked.request q hq).2.2.1] at hnext'
      cases hnext'
  · rcases hgone.mp ht' with rfl | rfl
    · rw [hresolve'] at hr
      cases hr
    · exact hgone.mpr (.inl (Option.some.inj (hr.symm.trans hresolve)))
  · have hpparent := (h.linked.sub p r' hp hpr).1
    rcases hgone.mp hr' with rfl | rfl
    · exact absurd (hgone.mpr (.inr (Option.some.inj (hpparent.symm.trans hparent)))) hp'
    · rw [h.linked.program r' htype] at hpparent
      cases hpparent
  · rcases hgone.mp ht' with rfl | rfl
    · rw [huser] at hparent
      cases hparent
    · exact hending
  · have hfd : ∀ t', (Function.update (Function.update s.task r { s.task r with next := false }) t
        { s.task t with op := false } t').fd = (s.task t').fd := by
      intro t'
      have hinner := update_same NetworkTask.fd
        (show NetworkTask.fd { s.task r with next := false } = (s.task r).fd from rfl)
      exact (update_same NetworkTask.fd (by rw [hinner]) t').trans (hinner t')
    have howned := (h.owned.congr hfd).close hlive (show t ∈ [r, t] by simp)
    rwa [hfd] at howned

theorem Safe.errorCancel {rest : List NetworkFrame} (h : Safe s)
    (hs : s.stack = .errorCancel t :: rest) : Safe ({ s with stack := rest }.networkCancel t) := by
  obtain ⟨hpop, hmade, hlive, hends, hnext, hop, hresolve, hending⟩ := h.popEnds hs rfl
  have hdone := hpop.networkTaskDone hmade hlive hends hnext hresolve hending
  rw [networkCancel, access_live]
  · split
    next htype =>
      refine hpop.networkResolveTaskDone hmade hlive hends hop hresolve (fun hwaiting => ?_) hending
      rw [hnext] at hwaiting
      cases hwaiting
    · exact hdone
    · exact hdone
  · exact hlive

theorem Safe.connectDone {rest : List NetworkFrame} (h : Safe s)
    (hs : s.stack = .connectDone t :: rest) :
    Safe (access t (fun s => (s.setTask t { s.task t with fd := none }).networkConnectTaskDone t)
      { s with stack := rest }) := by
  obtain ⟨hpop, hmade, hlive, hends, hnext, hop, hresolve, hending⟩ := h.popEnds hs rfl
  have hgiven : Safe ({ s with stack := rest }.setTask t { s.task t with fd := none }) :=
    hpop.setSocket hmade rfl rfl rfl rfl (fun hx => absurd (hx.symm.trans hop) nofun)
      (hpop.owned.given rfl)
  rw [access_live]
  · refine hgiven.networkTaskDone hmade hlive hends ?_ ?_ fun huser => hending ?_
    · exact (update_same NetworkTask.next (by rfl) t).trans hnext
    · exact (update_same NetworkTask.resolve (by rfl) t).trans hresolve
    · exact (update_same NetworkTask.user (by rfl) t).symm.trans huser
  · exact hlive

theorem Safe.resolveDone {rest : List NetworkFrame} (h : Safe s)
    (hs : s.stack = .resolveDone t :: rest) :
    Safe ({ s with stack := rest }.networkResolveTaskDone t) := by
  obtain ⟨hpop, hmade, hlive, hends, hnext, hop, hresolve, hending⟩ := h.popEnds hs rfl
  refine hpop.networkResolveTaskDone hmade hlive hends hop hresolve (fun hwaiting => ?_) hending
  rw [hnext] at hwaiting
  cases hwaiting

/-! ## Cancellation by the program -/

theorem Safe.release (h : Safe s) (released : List ℕ) :
    Safe { s with released := s.released ++ released } where
  failed := h.failed
  linked := h.linked
  once := h.once
  idle := h.idle
  ending t ht huser := by
    rcases h.ending t ht huser with hreleased | hrest
    · exact .inl (List.mem_append_left _ hreleased)
    · exact .inr hrest
  owned := h.owned
  cancelled := h.cancelled
  silent := h.silent

theorem Safe.logCancel (h : Safe s) (ht : t ∈ s.freed) (hpend : ∀ q ∈ s.pending, q.holder ≠ t) :
    Safe { s with log := s.log ++ [.cancel t] } where
  failed := h.failed
  linked := h.linked
  once := h.once
  idle := h.idle
  ending := h.ending
  owned := h.owned
  cancelled t' hmem := by
    rcases List.mem_append.mp hmem with hmem | hmem
    · exact h.cancelled t' hmem
    · cases List.mem_singleton.mp hmem
      exact ⟨ht, hpend⟩
  silent := h.silent.cancel t

theorem Safe.cancel (h : Safe s) (hsafe : s.safeCancel (.cancel t) = true)
    (hholds : s.holds t = true) :
    Safe ({ s with log := s.log ++ [NetworkCall.cancel t]
                   released := s.released ++ [t] }.networkCancel t) := by
  obtain ⟨hpend, hlast⟩ := Bool.and_eq_true_iff.mp hsafe
  have hpend : ∀ q ∈ s.pending, q.holder ≠ t := fun q hq =>
    of_decide_eq_true (List.all_eq_true.mp hpend q hq)
  obtain ⟨hmade, huser, hreleased⟩ := of_decide_eq_true hholds
  have hnotpending : t ∉ s.pending.map NetworkRequest.task := by
    intro hmem
    obtain ⟨q, hq, rfl⟩ := List.mem_map.mp hmem
    refine hpend q hq ?_
    rw [NetworkRequest.holder, (h.linked.request q hq).2.1, huser]
    rfl
  have hnotending : ¬ s.Ending t := by
    rintro (hmem | ⟨f, hf, hft⟩ | hmem)
    · exact hreleased hmem
    · have hfalse := List.all_eq_true.mp hlast f hf
      rw [hft] at hfalse
      cases hfalse
    · exact hnotpending hmem
  have hlive : t ∉ s.freed := fun hmem =>
    hnotending (h.ending t (List.mem_append_left _ hmem) huser)
  have hends : t ∉ s.ends := fun hmem =>
    hnotending (h.ending t (List.mem_append_right _ hmem) huser)
  have hrelease := h.release [t]
  have hending : Network.Ending { s with released := s.released ++ [t] } t :=
    .inl (List.mem_append_right _ (List.mem_singleton_self t))
  have hgone : t ∈ s.freed ++ [t] := List.mem_append_right _ (List.mem_singleton_self t)
  rw [networkCancel, access_live]
  · by_cases htype : (s.task t).type = .resolve
    · simp only [htype]
      obtain ⟨hop, hresolve⟩ := h.linked.resolves t htype
      have hdone := hrelease.networkResolveTaskDone hmade hlive hends hop hresolve (fun _ => huser)
        fun _ => hending
      rw [networkResolveTaskDone_eq (s := { s with released := s.released ++ [t] }) hlive] at hdone
      rw [networkResolveTaskDone_eq]
      · exact hdone.logCancel hgone hpend
      · exact hlive
    · have hnext : (s.task t).next = false :=
        Bool.eq_false_iff.mpr fun hnext => htype (h.linked.waiting t hnext).2
      have htaskDone : Safe (Network.networkTaskDone t
          { s with log := s.log ++ [NetworkCall.cancel t], released := s.released ++ [t] }) := by
        cases hresolve : (s.task t).resolve with
        | none =>
          have hdone := hrelease.networkTaskDone hmade hlive hends hnext hresolve fun _ => hending
          rw [networkTaskDone_eq (s := { s with released := s.released ++ [t] }) hlive h.failed
            hresolve] at hdone
          rw [networkTaskDone_eq]
          · exact hdone.logCancel hgone hpend
          · exact hlive
          · exact h.failed
          · exact hresolve
        | some r =>
          obtain ⟨hparent, hwaits⟩ := h.linked.sub t r hlive hresolve
          have hnext' : (s.task r).next = true := by
            refine hwaits.resolve_right fun hmem => ?_
            obtain ⟨q, hq, rfl⟩ := List.mem_map.mp hmem
            refine hpend q hq ?_
            rw [NetworkRequest.holder, (h.linked.request q hq).2.1, hparent]
            rfl
          have hne : t ≠ r := by
            rintro rfl
            rw [hnext] at hnext'
            cases hnext'
          have hdone := hrelease.networkTaskDone_sub hmade hlive hends hnext hresolve hnext' hending
          rw [networkTaskDone_eq_sub (s := { s with released := s.released ++ [t] }) hlive
            (h.linked.waiting r hnext').1 hne h.failed hresolve] at hdone
          rw [networkTaskDone_eq_sub]
          · exact hdone.logCancel (List.mem_append_right _ (by simp)) hpend
          · exact hlive
          · exact (h.linked.waiting r hnext').1
          · exact hne
          · exact h.failed
          · exact hresolve
      split
      next heq => exact absurd heq htype
      · exact htaskDone
      · exact htaskDone
  · exact hlive

/-! ## New tasks -/

theorem Safe.make (h : Safe s) {tasks : ℕ} (fds : ℕ) {task : ℕ → NetworkTask}
    (hle : s.tasks ≤ tasks) (hold : ∀ t < s.tasks, task t = s.task t)
    (hlinked : Linked tasks task s.freed s.pending) (howned : Owned task s.freed fds s.closed) :
    Safe { s with tasks := tasks, task := task, fds := fds } := by
  have hmade : ∀ t ∈ s.freed ++ s.ends, t < s.tasks := by
    intro t ht
    rcases List.mem_append.mp ht with ht | ht
    · exact h.linked.made t ht
    · exact (h.idle t ht).1
  refine ⟨h.failed, hlinked, h.once, fun t ht => ?_, fun t ht huser => ?_, howned, h.cancelled,
    h.silent⟩
  · have hidle := h.idle t ht
    simp only [hold t hidle.1]
    exact ⟨Nat.lt_of_lt_of_le hidle.1 hle, hidle.2⟩
  · exact h.ending t ht (hold t (hmade t ht) ▸ huser)

theorem Safe.networkResolve (h : Safe s) (host : Option Bytes) :
    Safe (s.networkResolve .program host) :=
  h.make s.fds (Nat.le_succ _) (fun _ ht => Function.update_of_ne (Nat.ne_of_lt ht) ..)
    (h.linked.makeAlone rfl rfl (fun _ => rfl) (fun _ => rfl) fun hne => absurd rfl hne)
    (h.owned.given rfl)

theorem Safe.networkTask (h : Safe s) {type : NetworkType} (htype : type ≠ .resolve)
    {user : NetworkUser} (hparent : user.parent = some s.tasks) (host : Option Bytes) :
    Safe (Network.networkResolve user host
      (s.networkTask ⟨type, .program, none, false, some (s.tasks + 1), none, false⟩)) := by
  obtain ⟨task, htask, hself, hsub, hold⟩ := exists_update_two s.task s.tasks
    ⟨type, .program, none, false, some (s.tasks + 1), none, false⟩
    ⟨.resolve, user, host, true, none, none, false⟩
  have hbefore : ∀ t < s.tasks, task t = s.task t := fun t ht => hold t (by omega) (by omega)
  have howned : Owned task s.freed s.fds s.closed := htask ▸ (h.owned.given rfl).given rfl
  have hlinked : Linked (s.tasks + 2) task s.freed s.pending := by
    refine h.linked.make (Nat.le_add_right _ 2) hbefore (fun t ht => ?_) fun t hge hlt => ?_
    · rw [hold t (by omega) (by omega)]
      exact h.linked.blank t (by omega)
    · rcases (show t = s.tasks ∨ t = s.tasks + 1 by omega) with rfl | rfl
      · rw [hself]
        refine ⟨nofun, nofun, fun r hr => ?_, nofun, fun heq => absurd heq htype, fun _ => rfl⟩
        obtain rfl := Option.some.inj hr
        rw [hsub]
        exact ⟨hparent, rfl⟩
      · rw [hsub]
        refine ⟨fun _ => rfl, fun p hp => ?_, nofun, nofun, fun _ => ⟨rfl, rfl⟩,
          fun hne => absurd rfl hne⟩
        obtain rfl := Option.some.inj (hparent.symm.trans hp)
        rw [hself]
        exact ⟨Nat.le_refl _, rfl⟩
  have hmade := h.make s.fds (Nat.le_add_right _ 2) hbefore hlinked howned
  rw [htask] at hmade
  exact hmade

theorem Safe.networkAcceptSocket (h : Safe s) : Safe s.networkAcceptSocket := by
  have hlinked : Linked (s.tasks + 1) (Function.update s.task s.tasks
      ⟨.accept, .program, none, false, none, some s.fds, true⟩) s.freed s.pending :=
    h.linked.makeAlone rfl rfl (by rintro ⟨⟩) (by rintro ⟨⟩) fun _ => rfl
  have hmade := h.make (s.fds + 1) (Nat.le_succ _)
    (fun _ ht => Function.update_of_ne (Nat.ne_of_lt ht) ..) hlinked (h.owned.opened rfl)
  simpa only [Network.networkAcceptSocket, Network.networkTask, networkAcceptTaskAccept,
    Network.arm, setTask, Function.update_self, Function.update_idem] using hmade

/-! ## Requests -/

theorem Safe.rearrange (h : Safe s) (requests : List (Bytes × NetworkRequest))
    (stack : List NetworkFrame)
    (hperm : (requests.map Prod.snd ++ stack.flatMap NetworkFrame.requests).Perm s.pending)
    (hends : stack.flatMap NetworkFrame.ends = s.ends)
    (hlast : ∀ t, (∃ f ∈ s.stack, f.lastCall t = true) → ∃ f ∈ stack, f.lastCall t = true) :
    Safe { s with requests := requests, stack := stack } := by
  refine ⟨h.failed, h.linked.perm hperm.symm, ?_, fun t ht => ?_, fun t ht huser => ?_, h.owned,
    fun t ht => ?_, h.silent⟩
  · rw [ends, hends]
    exact h.once
  · rw [ends, hends] at ht
    exact h.idle t ht
  · rw [ends, hends] at ht
    exact (h.ending t ht huser).imp_right
      (Or.imp (hlast t) ((hperm.map NetworkRequest.task).mem_iff.mpr))
  · exact ⟨(h.cancelled t ht).1, fun q hq => (h.cancelled t ht).2 q (hperm.mem_iff.mp hq)⟩

theorem Safe.start (h : Safe s) (ht : (s.task t).next = true) (new : List ℕ)
    {requests : List (Bytes × NetworkRequest)} {stack : List NetworkFrame}
    (hperm : (requests.map Prod.snd ++ stack.flatMap NetworkFrame.requests).Perm
      (⟨t, (s.task t).user⟩ :: s.pending))
    (hends : stack.flatMap NetworkFrame.ends = new ++ s.ends) (hnew : new = [] ∨ new = [t])
    (hlast : ∀ t, (∃ f ∈ s.stack, f.lastCall t = true) → ∃ f ∈ stack, f.lastCall t = true) :
    Safe { s with
      task := Function.update s.task t { s.task t with next := false }
      requests := requests
      stack := stack } := by
  obtain ⟨hlive, htype⟩ := h.linked.waiting t ht
  obtain ⟨hop, hresolve⟩ := h.linked.resolves t htype
  have hnotends : t ∉ s.ends := by
    intro hmem
    rw [(h.idle t hmem).2.1] at ht
    cases ht
  have hmem : ∀ t', t' ∈ new ++ s.ends → t' = t ∨ (t' ≠ t ∧ t' ∈ s.ends) := by
    intro t' ht'
    by_cases heq : t' = t
    · exact .inl heq
    · refine .inr ⟨heq, (List.mem_append.mp ht').resolve_left fun hmem => ?_⟩
      rcases hnew with rfl | rfl
      · cases hmem
      · exact heq (List.mem_singleton.mp hmem)
  refine ⟨h.failed, (h.linked.enqueue ht).perm hperm.symm, ?_, fun t' ht' => ?_,
    fun t' ht' huser => ?_, h.owned.congr fun t' => update_same NetworkTask.fd (by rfl) t',
    fun t' ht' => ?_, h.silent⟩
  · rw [ends, hends]
    rcases hnew with rfl | rfl
    · exact h.once
    · refine List.nodup_middle.mpr (List.nodup_cons.mpr ⟨fun hmem => ?_, h.once⟩)
      exact (List.mem_append.mp hmem).elim hlive hnotends
  · rw [ends, hends] at ht'
    rcases hmem t' ht' with rfl | ⟨hne, ht'⟩
    · simp only [Function.update_self]
      exact ⟨h.linked.lt_of_next ht, trivial, hop, hresolve⟩
    · simp only [Function.update_of_ne hne]
      exact h.idle t' ht'
  · have hpend : t ∈ (requests.map Prod.snd ++ stack.flatMap NetworkFrame.requests).map
        NetworkRequest.task := (hperm.map NetworkRequest.task).mem_iff.mpr (List.mem_cons_self ..)
    have huser' : (s.task t').user = .program :=
      (update_same NetworkTask.user (by rfl) t').symm.trans huser
    rw [ends, hends] at ht'
    by_cases heq : t' = t
    · exact .inr (.inr (heq ▸ hpend))
    · have ht' : t' ∈ s.freed ++ s.ends := by
        rcases List.mem_append.mp ht' with ht' | ht'
        · exact List.mem_append_left _ ht'
        · exact List.mem_append_right _ ((hmem t' ht').resolve_left heq).2
      refine (h.ending t' ht' huser').imp_right (Or.imp (hlast t') fun hpend => ?_)
      exact (hperm.map NetworkRequest.task).mem_iff.mpr (List.mem_cons_of_mem _ hpend)
  · refine ⟨(h.cancelled t' ht').1, fun q hq heq => ?_⟩
    rcases List.mem_cons.mp (hperm.mem_iff.mp hq) with rfl | hq
    · have hfreed := (h.cancelled t' ht').1
      rw [← heq, NetworkRequest.holder] at hfreed
      cases hparent : (s.task t).user.parent with
      | none =>
        rw [hparent] at hfreed
        exact hlive hfreed
      | some p =>
        rw [hparent] at hfreed
        exact (h.linked.parent t p hparent (.inl ht)).1 hfreed
    · exact (h.cancelled t' ht').2 q hq heq

theorem Safe.resolver (h : Safe s) (cache : Bytes → Option NetworkCache)
    (lookups : List NetworkLookup) (lists : ℕ) (freedLists : List ℕ) :
    Safe { s with
      cache := cache
      lookups := lookups
      lists := lists
      freedLists := freedLists } :=
  ⟨h.failed, h.linked, h.once, h.idle, h.ending, h.owned, h.cancelled, h.silent⟩

/-- A request that is queued, with a lookup for it unless one is in flight. -/
theorem enqueue_eq (key : Bytes) (c : NetworkCache) : s.enqueue t key c =
    Network.networkResolveTaskDone t { s with
      requests := s.requests ++ [(key, ⟨t, (s.task t).user⟩)]
      cache := Function.update s.cache key (some ⟨if c.ai = none then c.expire else 0, none,
        some (c.async.getD s.lookups.length)⟩)
      lookups := s.lookups ++ if c.async = none then [⟨key, none, false⟩] else []
      freedLists := s.freedLists ++ c.ai.toList } := by
  obtain ⟨expire, ai, async⟩ := c
  rw [enqueue]
  cases ai with
  | none =>
    cases async with
    | none => simp [freeaddrinfo, setCache]
    | some n => simp [freeaddrinfo, setCache]
  | some a =>
    cases async with
    | none => simp [freeaddrinfo, setCache]
    | some n => simp [freeaddrinfo, setCache]

theorem Safe.enqueue (h : Safe s) (ht : (s.task t).next = true) (key : Bytes)
    (c : NetworkCache) :
    Safe ((s.setTask t { s.task t with next := false }).enqueue t key c) := by
  obtain ⟨hlive, htype⟩ := h.linked.waiting t ht
  obtain ⟨hop, hresolve⟩ := h.linked.resolves t htype
  have hself : (s.setTask t { s.task t with next := false }).task t =
      { s.task t with next := false } := Function.update_self ..
  obtain ⟨requests, hrequests⟩ : ∃ requests : List (Bytes × NetworkRequest),
      requests = s.requests ++ [(key, ⟨t, (s.task t).user⟩)] := ⟨_, rfl⟩
  have hperm : (requests.map Prod.snd ++ s.stack.flatMap NetworkFrame.requests).Perm
      (⟨t, (s.task t).user⟩ :: s.pending) := by
    rw [hrequests, List.map_append, List.append_assoc]
    exact List.perm_middle
  have hqueued := h.start ht [] hperm rfl (.inl rfl) fun _ hlast => hlast
  have hnotends : t ∉ s.ends := by
    intro hmem
    rw [(h.idle t hmem).2.1] at ht
    cases ht
  rw [enqueue_eq, hself]
  dsimp only
  rw [show (s.setTask t { s.task t with next := false }).requests = s.requests from rfl,
    ← hrequests]
  refine (hqueued.resolver _ _ _ _).networkResolveTaskDone ?_ hlive hnotends ?_ ?_ ?_ ?_
  · exact h.linked.lt_of_next ht
  · exact (update_same NetworkTask.op (by rfl) t).trans hop
  · exact (update_same NetworkTask.resolve (by rfl) t).trans hresolve
  · intro hnext
    have hfalse := congrArg NetworkTask.next hself
    rw [show ((s.setTask t { s.task t with next := false }).task t).next = true from hnext]
      at hfalse
    cases hfalse
  · intro _
    refine .inr (.inr ?_)
    exact (hperm.map NetworkRequest.task).mem_iff.mpr (List.mem_cons_self ..)

theorem Safe.networkResolveTaskNext (h : Safe s) (ht : (s.task t).next = true) (found : Bool) :
    Safe (s.networkResolveTaskNext t found) := by
  have hself : (s.setTask t { s.task t with next := false }).task t =
      { s.task t with next := false } := Function.update_self ..
  have hdirect : ∀ (frames : List NetworkFrame) (source : NetworkSource) (ai : Option ℕ),
      frames.flatMap NetworkFrame.requests = [] → frames.flatMap NetworkFrame.ends = [t] →
      Safe { s with
        task := Function.update s.task t { s.task t with next := false }
        requests := s.requests
        stack := .resolved ⟨t, (s.task t).user⟩ source ai :: (frames ++ s.stack) } := by
    intro frames source ai hrequests hends
    refine h.start ht [t] ?_ ?_ (.inr rfl) fun t' hlast => ?_
    · rw [List.flatMap_cons, List.flatMap_append, hrequests]
      exact List.perm_middle
    · rw [List.flatMap_cons, List.flatMap_append, hends]
      rfl
    · obtain ⟨f, hf, hlast⟩ := hlast
      exact ⟨f, List.mem_cons_of_mem _ (List.mem_append_right _ hf), hlast⟩
  rw [Network.networkResolveTaskNext, access_live (h.linked.waiting t ht).1]
  simp only [hself]
  split
  · cases found with
    | true =>
      have hreply := hdirect [.freeAddress (some s.lists), .resolveDone t] .numeric (some s.lists)
        rfl rfl
      exact hreply.resolver s.cache s.lookups (s.lists + 1) s.freedLists
    | false => exact hdirect [.freeAddress none, .resolveDone t] .numeric none rfl rfl
  · split
    · exact hdirect [.resolveDone t] .cached _ rfl rfl
    · exact h.enqueue ht _ _

theorem store_true (n : ℕ) (lookup : NetworkLookup) : s.store n lookup true =
    { s with
      lists := s.lists + 1
      lookups := s.lookups.set n { lookup with result := some (some s.lists) }
      cache := Function.update s.cache lookup.key
        ((s.cache lookup.key).map fun c => { c with ai := some s.lists }) } := by
  cases hcache : s.cache lookup.key with
  | none =>
    rw [Option.map_none, ← hcache, Function.update_eq_self]
    simp only [store, getaddrinfo, if_true, hcache]
  | some c => simp only [store, getaddrinfo, if_true, hcache, setCache, Option.map_some]

theorem store_false (n : ℕ) (lookup : NetworkLookup) : s.store n lookup false =
    { s with lookups := s.lookups.set n { lookup with result := some none } } := by
  cases hcache : s.cache lookup.key with
  | none => simp only [store, getaddrinfo, Bool.false_eq_true, if_false, hcache]
  | some c => simp only [store, getaddrinfo, Bool.false_eq_true, if_false, hcache]

theorem Safe.store (h : Safe s) (n : ℕ) (lookup : NetworkLookup) (found : Bool) :
    Safe (s.store n lookup found) := by
  cases found with
  | false =>
    rw [store_false]
    exact h.resolver _ _ _ _
  | true =>
    rw [store_true]
    exact h.resolver _ _ _ _

theorem asyncReturn_eq (n : ℕ) (lookup : NetworkLookup) : s.asyncReturn n lookup =
    { s with
      lookups := s.lookups.set n { lookup with returned := true }
      cache := Function.update s.cache lookup.key ((s.cache lookup.key).map fun c =>
        { c with async := none, expire := (s.now + s.cacheExpiration) % 2 ^ 64 })
      requests := s.requests.filter fun x => x.1 ≠ lookup.key
      stack := .deliver n ((s.requests.filter fun x => x.1 = lookup.key).map Prod.snd) ::
        s.stack } := by
  cases hcache : s.cache lookup.key with
  | none =>
    rw [Option.map_none, ← hcache, Function.update_eq_self]
    simp only [asyncReturn, hcache]
  | some c => simp only [asyncReturn, hcache, setCache, Option.map_some]

theorem pending_split (key : Bytes) (s : Network) :
    ((s.requests.filter fun x => x.1 ≠ key).map Prod.snd ++
      ((s.requests.filter fun x => x.1 = key).map Prod.snd ++
        s.stack.flatMap NetworkFrame.requests)).Perm s.pending := by
  have hperm := List.filter_append_perm (fun x => decide (x.1 = key)) s.requests
  have hsplit : (s.requests.filter (fun x => x.1 ≠ key) ++
      s.requests.filter fun x => x.1 = key).Perm s.requests := by
    refine List.perm_append_comm.trans ?_
    simpa only [decide_not] using hperm
  rw [← List.append_assoc, ← List.map_append]
  exact (hsplit.map Prod.snd).append_right _

theorem Safe.asyncReturn (h : Safe s) (n : ℕ) (lookup : NetworkLookup) :
    Safe (s.asyncReturn n lookup) := by
  have hrearrange := h.rearrange (s.requests.filter fun x => x.1 ≠ lookup.key)
    (.deliver n ((s.requests.filter fun x => x.1 = lookup.key).map Prod.snd) :: s.stack)
    ?_ rfl ?_
  · rw [asyncReturn_eq]
    exact hrearrange.resolver _ _ _ _
  · exact pending_split lookup.key s
  · rintro t ⟨f, hf, hlast⟩
    exact ⟨f, List.mem_cons_of_mem _ hf, hlast⟩

/-- The thread goes on. -/
theorem Safe.go (h : Safe s) {socket : SocketResult} {s' : Network}
    (hstep : s.go socket = some s') : Safe s' := by
  rw [Network.go] at hstep
  split at hstep
  next r source ai rest hs =>
    obtain rfl := Option.some.inj hstep
    exact h.reply hs socket
  next n r rs rest hs =>
    obtain rfl := Option.some.inj hstep
    refine h.rearrange s.requests _ ?_ ?_ ?_
    · rw [pending, hs]
      exact List.Perm.refl _
    · rw [ends, hs]
      rfl
    · rintro t ⟨f, hf, hlast⟩
      rw [hs] at hf
      rcases List.mem_cons.mp hf with rfl | hf
      · cases hlast
      · exact ⟨f, List.mem_cons_of_mem _ (List.mem_cons_of_mem _ hf), hlast⟩
  next n rest hs =>
    obtain rfl := Option.some.inj hstep
    exact h.pop hs rfl fun _ hlast => nomatch hlast
  next ai rest hs =>
    obtain rfl := Option.some.inj hstep
    have hpop := h.pop hs rfl fun _ hlast => nomatch hlast
    cases ai with
    | none => exact hpop
    | some a => exact hpop.resolver _ _ _ _
  next t rest hs =>
    obtain rfl := Option.some.inj hstep
    exact h.resolveDone hs
  next t rest hs =>
    obtain rfl := Option.some.inj hstep
    exact h.errorCancel hs
  next t rest hs =>
    obtain rfl := Option.some.inj hstep
    exact h.connectDone hs
  next => cases hstep

/-- The step lemma. -/
theorem Safe.step (h : Safe s) {l : NetworkLabel} (hsafe : s.safeCancel l = true) {s' : Network}
    (hstep : Network.step s l = some s') : Safe s' := by
  unfold Network.step at hstep
  rw [if_neg (by rw [h.failed]; exact Bool.false_ne_true)] at hstep
  cases l with
  | resolve host =>
    obtain ⟨-, rfl⟩ := Option.ite_some_none_eq_some.mp hstep
    exact h.networkResolve host
  | accept host =>
    obtain ⟨-, rfl⟩ := Option.ite_some_none_eq_some.mp hstep
    exact h.networkTask NetworkType.noConfusion rfl host
  | acceptSocket =>
    obtain ⟨-, rfl⟩ := Option.ite_some_none_eq_some.mp hstep
    exact h.networkAcceptSocket
  | connect host =>
    obtain ⟨-, rfl⟩ := Option.ite_some_none_eq_some.mp hstep
    exact h.networkTask NetworkType.noConfusion rfl host
  | cancel t =>
    obtain ⟨hguard, rfl⟩ := Option.ite_some_none_eq_some.mp hstep
    exact h.cancel hsafe hguard.2
  | next t found =>
    obtain ⟨hguard, rfl⟩ := Option.ite_some_none_eq_some.mp hstep
    exact h.networkResolveTaskNext hguard.2 found
  | store n found =>
    dsimp only at hstep
    split at hstep
    · obtain ⟨-, rfl⟩ := Option.ite_some_none_eq_some.mp hstep
      exact h.store n _ found
    · cases hstep
  | asyncReturn n =>
    dsimp only at hstep
    split at hstep
    · obtain ⟨-, rfl⟩ := Option.ite_some_none_eq_some.mp hstep
      exact h.asyncReturn n _
    · cases hstep
  | complete t success =>
    obtain ⟨hguard, rfl⟩ := Option.ite_some_none_eq_some.mp hstep
    exact h.complete hguard.2 success
  | «return» =>
    dsimp only at hstep
    split at hstep
    next t event rest hs =>
      obtain rfl := Option.some.inj hstep
      cases hevent : event.terminal with
      | true =>
        refine (h.release [t]).pop (f := .called t event) hs rfl fun t' hlast => ?_
        simp only [NetworkFrame.lastCall, decide_eq_true_eq] at hlast
        exact List.mem_append_right _ (List.mem_singleton.mpr hlast.1.symm)
      | false =>
        refine h.pop (f := .called t event) hs rfl fun t' hlast => ?_
        simp [NetworkFrame.lastCall, hevent] at hlast
    next => cases hstep
  | go socket => exact h.go hstep
  | time now =>
    obtain rfl := Option.some.inj hstep
    exact ⟨h.failed, h.linked, h.once, h.idle, h.ending, h.owned, h.cancelled, h.silent⟩
  | expire time =>
    obtain ⟨-, rfl⟩ := Option.ite_some_none_eq_some.mp hstep
    exact ⟨h.failed, h.linked, h.once, h.idle, h.ending, h.owned, h.cancelled, h.silent⟩

theorem safe_construct (cacheExpiration : ℕ) : Safe (construct cacheExpiration) where
  failed := rfl
  linked := ⟨fun _ _ => rfl, nofun, List.nodup_nil, nofun, nofun, nofun, nofun, nofun,
    fun _ _ => ⟨rfl, rfl⟩, fun _ _ => rfl⟩
  once := List.nodup_nil
  idle := nofun
  ending := nofun
  owned := ⟨nofun, nofun, List.nodup_nil, nofun⟩
  cancelled := nofun
  silent := List.Pairwise.nil

/-- In every run in which the program cancels only tasks whose request is not on its way, and none
in the callback that ends it, no freed task is used, tasks and descriptors are freed and closed
once, and a task that is cancelled calls no more. -/
theorem networkCancel_safe {cacheExpiration : ℕ}
    (h : Reach step (fun s l => s.safeCancel l = true) (construct cacheExpiration) s) :
    s.failed = false ∧ s.freed.Nodup ∧ s.closed.Nodup ∧ Silent s.log := by
  have hsafe : Safe s := h.invariant (safe_construct _) fun _ _ _ h hok hstep => h.step hok hstep
  exact ⟨hsafe.failed, (List.nodup_append'.mp hsafe.once).1, hsafe.owned.nodup, hsafe.silent⟩

/-- An accepting task is cancelled in its first callback, a connecting one before its turn. -/
theorem networkCancel_safe_inside :
    ∃ s, exec (guarded step fun s l => s.safeCancel l = true) (construct 0)
        [.accept (some [49]), .connect (some [97]), .next 1 true, .go .ready, .cancel 0, .cancel 2,
          .return, .go .ready, .go .ready] = some s ∧
      s.failed = false ∧ s.freed.Nodup ∧ s.closed.Nodup ∧ Silent s.log := by
  obtain ⟨s, hs⟩ := Option.isSome_iff_exists.mp (show (exec
    (guarded step fun s l => s.safeCancel l = true) (construct 0)
    [.accept (some [49]), .connect (some [97]), .next 1 true, .go .ready, .cancel 0, .cancel 2,
      .return, .go .ready, .go .ready]).isSome = true from rfl)
  exact ⟨s, hs, networkCancel_safe (.of_guarded hs)⟩

/-- A connecting task that is cancelled while the lookup of its host is in flight, one that is
cancelled in the callback for its descriptor, and resolving tasks that are cancelled in the callback
for a numeric address and while their lookup is in flight. -/
theorem networkCancel_usesFreed :
    (exec step (construct 0) [.connect (some [97]), .next 1 true, .cancel 0]).map Network.failed =
      some true ∧
    (exec step (construct 0) [.connect (some [49]), .next 1 true, .go .ready, .go .ready,
      .go .ready, .complete 0 true, .cancel 0, .return, .go .ready]).map Network.failed =
      some true ∧
    (exec step (construct 0) [.resolve (some [49]), .next 0 true, .go .ready, .cancel 0, .return,
      .go .ready, .go .ready]).map Network.failed = some true ∧
    (exec step (construct 0) [.resolve (some [97]), .next 0 true, .cancel 0]).map Network.failed =
      some true :=
  ⟨rfl, rfl, rfl, rfl⟩

end Network

end LibReactor
