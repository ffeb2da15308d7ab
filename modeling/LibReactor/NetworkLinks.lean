import LibReactor.Network
import Mathlib.Data.List.Nodup

/-!
# Who uses a network task

A task waits for its turn, for a lookup or for its socket, or is about to end. The links
between a task and the resolve task that it has made last until the reply, and a freed task
is used by none of them.
-/

namespace LibReactor

def NetworkUser.parent : NetworkUser → Option ℕ
  | .program => none
  | .accept t => some t
  | .connect t => some t

def NetworkRequest.holder (r : NetworkRequest) : ℕ := r.user.parent.getD r.task

def NetworkFrame.requests : NetworkFrame → List NetworkRequest
  | .resolved r _ _ => [r]
  | .deliver _ rs => rs
  | _ => []

namespace Network

open Transition

/-- The requests on their way, in the cache entries and on the stack. -/
def pending (s : Network) : List NetworkRequest :=
  s.requests.map Prod.snd ++ s.stack.flatMap NetworkFrame.requests

def blankTask : NetworkTask := ⟨.resolve, .program, none, false, none, none, false⟩

structure Linked (tasks : ℕ) (task : ℕ → NetworkTask) (freed : List ℕ)
    (pend : List NetworkRequest) : Prop where
  blank : ∀ t, tasks ≤ t → task t = blankTask
  made : ∀ t ∈ freed, t < tasks
  nodup : (pend.map NetworkRequest.task).Nodup
  request : ∀ q ∈ pend, q.task < tasks ∧ q.user = (task q.task).user ∧
    (task q.task).next = false ∧ (task q.task).type = .resolve
  waiting : ∀ t, (task t).next = true → t ∉ freed ∧ (task t).type = .resolve
  parent : ∀ r p, (task r).user.parent = some p →
    (task r).next = true ∨ r ∈ pend.map NetworkRequest.task →
      p ∉ freed ∧ (task p).resolve = some r
  sub : ∀ p r, p ∉ freed → (task p).resolve = some r → (task r).user.parent = some p ∧
    ((task r).next = true ∨ r ∈ pend.map NetworkRequest.task)
  armed : ∀ p, (task p).op = true → p ∉ freed ∧ (task p).resolve = none
  resolves : ∀ p, (task p).type = .resolve → (task p).op = false ∧ (task p).resolve = none
  program : ∀ p, (task p).type ≠ .resolve → (task p).user = .program

variable {tasks tasks' : ℕ} {task task' : ℕ → NetworkTask} {freed : List ℕ}
  {pend pend' : List NetworkRequest}

theorem Linked.lt_of_ne (h : Linked tasks task freed pend) {t : ℕ} (ht : task t ≠ blankTask) :
    t < tasks := by
  by_contra hge
  exact ht (h.blank t (Nat.le_of_not_lt hge))

theorem Linked.lt_of_next (h : Linked tasks task freed pend) {t : ℕ}
    (ht : (task t).next = true) : t < tasks :=
  h.lt_of_ne fun hblank => by
    rw [hblank] at ht
    cases ht

theorem Linked.lt_of_resolve (h : Linked tasks task freed pend) {p r : ℕ}
    (hp : (task p).resolve = some r) : p < tasks :=
  h.lt_of_ne fun hblank => by
    rw [hblank] at hp
    cases hp

theorem Linked.lt_of_parent (h : Linked tasks task freed pend) {p r : ℕ}
    (hr : (task r).user.parent = some p) : r < tasks :=
  h.lt_of_ne fun hblank => by
    rw [hblank] at hr
    cases hr

theorem Linked.perm (h : Linked tasks task freed pend) (hperm : pend.Perm pend') :
    Linked tasks task freed pend' := by
  have hmap := hperm.map NetworkRequest.task
  refine { h with
    nodup := hmap.nodup_iff.mp h.nodup
    request := fun q hq => h.request q (hperm.mem_iff.mpr hq)
    parent := fun r p hr hp => h.parent r p hr (hp.imp id hmap.mem_iff.mpr)
    sub := fun p r hp hr => ?_ }
  obtain ⟨huser, hr⟩ := h.sub p r hp hr
  exact ⟨huser, hr.imp id hmap.mem_iff.mp⟩

theorem update_same {β : Type*} (f : NetworkTask → β) {t : ℕ} {x : NetworkTask}
    (hx : f x = f (task t)) (t' : ℕ) : f (Function.update task t x t') = f (task t') := by
  by_cases hne : t' = t
  · rw [hne, Function.update_self, hx]
  · rw [Function.update_of_ne hne]

theorem Linked.make (h : Linked tasks task freed pend) (hle : tasks ≤ tasks')
    (hold : ∀ t < tasks, task' t = task t) (hblank : ∀ t, tasks' ≤ t → task' t = blankTask)
    (hnew : ∀ t, tasks ≤ t → t < tasks' →
      ((task' t).next = true → (task' t).type = .resolve) ∧
      (∀ p, (task' t).user.parent = some p → tasks ≤ p ∧ (task' p).resolve = some t) ∧
      (∀ r, (task' t).resolve = some r → (task' r).user.parent = some t ∧
        (task' r).next = true) ∧
      ((task' t).op = true → (task' t).resolve = none) ∧
      ((task' t).type = .resolve → (task' t).op = false ∧ (task' t).resolve = none) ∧
      ((task' t).type ≠ .resolve → (task' t).user = .program)) :
    Linked tasks' task' freed pend := by
  have hcases : ∀ t, t < tasks ∨ (tasks ≤ t ∧ t < tasks') ∨ task' t = blankTask := by
    intro t
    rcases Nat.lt_or_ge t tasks with hlt | hge
    · exact .inl hlt
    · rcases Nat.lt_or_ge t tasks' with hlt | hge'
      · exact .inr (.inl ⟨hge, hlt⟩)
      · exact .inr (.inr (hblank t hge'))
  have hnotfreed : ∀ t, tasks ≤ t → t ∉ freed := fun t hge hmem =>
    absurd (h.made t hmem) (Nat.not_lt.mpr hge)
  have hnotpend : ∀ t, tasks ≤ t → t ∉ pend.map NetworkRequest.task := by
    intro t hge hmem
    obtain ⟨q, hq, rfl⟩ := List.mem_map.mp hmem
    exact absurd (h.request q hq).1 (Nat.not_lt.mpr hge)
  refine ⟨hblank, fun t ht => Nat.lt_of_lt_of_le (h.made t ht) hle, h.nodup, fun q hq => ?_,
    fun t ht => ?_, fun r p hr hpend => ?_, fun p r hp hr => ?_, fun p hp => ?_, fun p hp => ?_,
    fun p hp => ?_⟩
  · obtain ⟨hlt, hrequest⟩ := h.request q hq
    rw [hold q.task hlt]
    exact ⟨Nat.lt_of_lt_of_le hlt hle, hrequest⟩
  · rcases hcases t with hlt | ⟨hge, hlt⟩ | hb
    · rw [hold t hlt] at ht ⊢
      exact h.waiting t ht
    · exact ⟨hnotfreed t hge, (hnew t hge hlt).1 ht⟩
    · rw [hb] at ht
      cases ht
  · rcases hcases r with hlt | ⟨hge, hlt⟩ | hb
    · rw [hold r hlt] at hr hpend
      obtain ⟨hfreed, hresolve⟩ := h.parent r p hr hpend
      rw [hold p (h.lt_of_resolve hresolve)]
      exact ⟨hfreed, hresolve⟩
    · obtain ⟨hp, hresolve⟩ := (hnew r hge hlt).2.1 p hr
      exact ⟨hnotfreed p hp, hresolve⟩
    · rw [hb] at hr
      cases hr
  · rcases hcases p with hlt | ⟨hge, hlt⟩ | hb
    · rw [hold p hlt] at hr
      obtain ⟨huser, hpend⟩ := h.sub p r hp hr
      rw [hold r (h.lt_of_parent huser)]
      exact ⟨huser, hpend⟩
    · obtain ⟨huser, hnext⟩ := (hnew p hge hlt).2.2.1 r hr
      exact ⟨huser, .inl hnext⟩
    · rw [hb] at hr
      cases hr
  · rcases hcases p with hlt | ⟨hge, hlt⟩ | hb
    · rw [hold p hlt] at hp ⊢
      exact h.armed p hp
    · exact ⟨hnotfreed p hge, (hnew p hge hlt).2.2.2.1 hp⟩
    · rw [hb] at hp
      cases hp
  · rcases hcases p with hlt | ⟨hge, hlt⟩ | hb
    · rw [hold p hlt] at hp ⊢
      exact h.resolves p hp
    · exact (hnew p hge hlt).2.2.2.2.1 hp
    · rw [hb]
      exact ⟨rfl, rfl⟩
  · rcases hcases p with hlt | ⟨hge, hlt⟩ | hb
    · rw [hold p hlt] at hp ⊢
      exact h.program p hp
    · exact (hnew p hge hlt).2.2.2.2.2 hp
    · rw [hb]
      rfl

theorem Linked.makeAlone (h : Linked tasks task freed pend) {x : NetworkTask}
    (hparent : x.user.parent = none) (hresolve : x.resolve = none)
    (hnext : x.next = true → x.type = .resolve) (hop : x.type = .resolve → x.op = false)
    (huser : x.type ≠ .resolve → x.user = .program) :
    Linked (tasks + 1) (Function.update task tasks x) freed pend := by
  have hold : ∀ t, t ≠ tasks → Function.update task tasks x t = task t :=
    fun t hne => Function.update_of_ne hne ..
  refine h.make (Nat.le_succ _) (fun t ht => hold t (Nat.ne_of_lt ht)) (fun t ht => ?_)
    fun t hge hlt => ?_
  · rw [hold t (Nat.ne_of_gt ht)]
    exact h.blank t (Nat.le_of_succ_le ht)
  · obtain rfl : t = tasks := by omega
    rw [Function.update_self]
    refine ⟨hnext, fun p hp => ?_, fun r hr => ?_, fun _ => hresolve, fun ht => ⟨hop ht, hresolve⟩,
      huser⟩
    · exact absurd (hparent.symm.trans hp) (Option.some_ne_none p).symm
    · exact absurd (hresolve.symm.trans hr) (Option.some_ne_none r).symm

theorem exists_update_two {β : Type} (task : ℕ → β) (n : ℕ) (x y : β) :
    ∃ task', task' = Function.update (Function.update task n x) (n + 1) y ∧ task' n = x ∧
      task' (n + 1) = y ∧ ∀ t, t ≠ n → t ≠ n + 1 → task' t = task t := by
  refine ⟨_, rfl, ?_, Function.update_self .., fun t hne hne' => ?_⟩
  · rw [Function.update_of_ne (Nat.ne_of_lt (Nat.lt_succ_self n)), Function.update_self]
  · rw [Function.update_of_ne hne', Function.update_of_ne hne]

theorem Linked.enqueue (h : Linked tasks task freed pend) {t : ℕ} (ht : (task t).next = true) :
    Linked tasks (Function.update task t { task t with next := false }) freed
      (⟨t, (task t).user⟩ :: pend) := by
  have hnotpend : t ∉ pend.map NetworkRequest.task := by
    intro hmem
    obtain ⟨q, hq, rfl⟩ := List.mem_map.mp hmem
    rw [(h.request q hq).2.2.1] at ht
    cases ht
  have hself : Function.update task t { task t with next := false } t =
      { task t with next := false } := Function.update_self ..
  have hother : ∀ t', t' ≠ t → Function.update task t { task t with next := false } t' = task t' :=
    fun t' hne => Function.update_of_ne hne ..
  have huser : ∀ t', (Function.update task t { task t with next := false } t').user =
      (task t').user := fun t' => update_same NetworkTask.user (by rfl) t'
  have hrest : ∀ t', (Function.update task t { task t with next := false } t').type =
      (task t').type ∧ (Function.update task t { task t with next := false } t').resolve =
        (task t').resolve ∧ (Function.update task t { task t with next := false } t').op =
          (task t').op := fun t' =>
    ⟨update_same NetworkTask.type (by rfl) t', update_same NetworkTask.resolve (by rfl) t',
      update_same NetworkTask.op (by rfl) t'⟩
  have hpend : ∀ r, ((Function.update task t { task t with next := false } r).next = true ∨
      r ∈ (⟨t, (task t).user⟩ :: pend).map NetworkRequest.task) ↔
        ((task r).next = true ∨ r ∈ pend.map NetworkRequest.task) := by
    intro r
    rw [List.map_cons, List.mem_cons]
    by_cases hne : r = t
    · simp [hne, ht]
    · rw [hother r hne]
      simp [hne]
  refine ⟨fun t' ht' => ?_, h.made, ?_, fun q hq => ?_, fun t' ht' => ?_, fun r p hr hp => ?_,
    fun p r hp hr => ?_, fun p hp => ?_, fun p hp => ?_, fun p hp => ?_⟩
  · rw [hother t' (Nat.ne_of_gt (Nat.lt_of_lt_of_le (h.lt_of_next ht) ht'))]
    exact h.blank t' ht'
  · rw [List.map_cons]
    exact List.nodup_cons.mpr ⟨hnotpend, h.nodup⟩
  · rcases List.mem_cons.mp hq with rfl | hq
    · rw [hself]
      exact ⟨h.lt_of_next ht, rfl, rfl, (h.waiting t ht).2⟩
    · have hne : q.task ≠ t := fun heq => hnotpend (heq ▸ List.mem_map_of_mem hq)
      rw [hother _ hne]
      exact h.request q hq
  · have hne : t' ≠ t := by
      rintro rfl
      rw [hself] at ht'
      cases ht'
    rw [hother t' hne] at ht' ⊢
    exact h.waiting t' ht'
  · rw [huser] at hr
    rw [(hrest p).2.1]
    exact h.parent r p hr ((hpend r).mp hp)
  · rw [(hrest p).2.1] at hr
    rw [huser, hpend]
    exact h.sub p r hp hr
  · rw [(hrest p).2.2] at hp
    rw [(hrest p).2.1]
    exact h.armed p hp
  · rw [(hrest p).1] at hp
    rw [(hrest p).2.1, (hrest p).2.2]
    exact h.resolves p hp
  · rw [(hrest p).1] at hp
    rw [huser]
    exact h.program p hp

theorem Linked.set (h : Linked tasks task freed pend) {t : ℕ} {x : NetworkTask} (hlt : t < tasks)
    (htype : x.type = (task t).type) (huser : x.user = (task t).user)
    (hnext : x.next = (task t).next) (hresolve : x.resolve = (task t).resolve)
    (hop : x.op = true → t ∉ freed ∧ (task t).resolve = none ∧ (task t).type ≠ .resolve) :
    Linked tasks (Function.update task t x) freed pend := by
  have hsame : ∀ t', (Function.update task t x t').type = (task t').type ∧
      (Function.update task t x t').user = (task t').user ∧
      (Function.update task t x t').next = (task t').next ∧
      (Function.update task t x t').resolve = (task t').resolve := fun t' =>
    ⟨update_same NetworkTask.type htype t', update_same NetworkTask.user huser t',
      update_same NetworkTask.next hnext t', update_same NetworkTask.resolve hresolve t'⟩
  refine ⟨fun t' ht' => ?_, h.made, h.nodup, fun q hq => ?_, fun t' ht' => ?_,
    fun r p hr hp => ?_, fun p r hp hr => ?_, fun p hp => ?_, fun p hp => ?_, fun p hp => ?_⟩
  · rw [Function.update_of_ne (Nat.ne_of_gt (Nat.lt_of_lt_of_le hlt ht'))]
    exact h.blank t' ht'
  · rw [(hsame _).1, (hsame _).2.1, (hsame _).2.2.1]
    exact h.request q hq
  · rw [(hsame t').2.2.1] at ht'
    rw [(hsame t').1]
    exact h.waiting t' ht'
  · rw [(hsame r).2.1] at hr
    rw [(hsame r).2.2.1] at hp
    rw [(hsame p).2.2.2]
    exact h.parent r p hr hp
  · rw [(hsame p).2.2.2] at hr
    rw [(hsame r).2.1, (hsame r).2.2.1]
    exact h.sub p r hp hr
  · rw [(hsame p).2.2.2]
    by_cases hne : p = t
    · rw [hne, Function.update_self] at hp
      rw [hne]
      exact ⟨(hop hp).1, (hop hp).2.1⟩
    · rw [Function.update_of_ne hne] at hp
      exact h.armed p hp
  · rw [(hsame p).1] at hp
    rw [(hsame p).2.2.2]
    refine ⟨?_, (h.resolves p hp).2⟩
    by_cases hne : p = t
    · rw [hne, Function.update_self]
      rw [hne] at hp
      exact Bool.eq_false_iff.mpr fun hx => (hop hx).2.2 hp
    · rw [Function.update_of_ne hne]
      exact (h.resolves p hp).1
  · rw [(hsame p).1] at hp
    rw [(hsame p).2.1]
    exact h.program p hp

/-- A request of the program is answered. -/
theorem Linked.answerProgram {q : NetworkRequest} (h : Linked tasks task freed (q :: pend))
    (hq : q.user = .program) : Linked tasks task freed pend := by
  have hmem : ∀ {r}, r ∈ pend.map NetworkRequest.task →
      r ∈ (q :: pend).map NetworkRequest.task := fun hr => List.mem_cons_of_mem _ hr
  refine { h with
    nodup := (List.nodup_cons.mp h.nodup).2
    request := fun q' hq' => h.request q' (List.mem_cons_of_mem _ hq')
    parent := fun r p hr hp => h.parent r p hr (hp.imp id hmem)
    sub := fun p r hp hr => ?_ }
  obtain ⟨huser, hr⟩ := h.sub p r hp hr
  refine ⟨huser, hr.imp id fun hmem => ?_⟩
  rcases List.mem_cons.mp hmem with rfl | hmem
  · rw [← (h.request q (List.mem_cons_self ..)).2.1, hq] at huser
    cases huser
  · exact hmem

/-- A request of the task `t` is answered, and `t` forgets it. -/
theorem Linked.answer {q : NetworkRequest} (h : Linked tasks task freed (q :: pend)) {t : ℕ}
    (hq : q.user.parent = some t) :
    Linked tasks (Function.update task t { task t with resolve := none }) freed pend := by
  obtain ⟨hlt, huser, hnext, htype⟩ := h.request q (List.mem_cons_self ..)
  have hqt : (task q.task).user.parent = some t := huser ▸ hq
  obtain ⟨hfreed, hresolve⟩ := h.parent q.task t hqt (.inr (List.mem_cons_self ..))
  have hnodup := List.nodup_cons.mp h.nodup
  have hsame : ∀ t', (Function.update task t { task t with resolve := none } t').type =
      (task t').type ∧ (Function.update task t { task t with resolve := none } t').user =
        (task t').user ∧ (Function.update task t { task t with resolve := none } t').next =
          (task t').next ∧ (Function.update task t { task t with resolve := none } t').op =
            (task t').op := fun t' =>
    ⟨update_same NetworkTask.type (by rfl) t', update_same NetworkTask.user (by rfl) t',
      update_same NetworkTask.next (by rfl) t', update_same NetworkTask.op (by rfl) t'⟩
  have hnone : ∀ {p}, (task p).resolve = none →
      (Function.update task t { task t with resolve := none } p).resolve = none := by
    intro p hp
    by_cases hne : p = t
    · rw [hne, Function.update_self]
    · rw [Function.update_of_ne hne]
      exact hp
  refine ⟨fun t' ht' => ?_, h.made, hnodup.2, fun q' hq' => ?_, fun t' ht' => ?_,
    fun r p hr hp => ?_, fun p r hp hr => ?_, fun p hp => ?_, fun p hp => ?_, fun p hp => ?_⟩
  · rw [Function.update_of_ne (Nat.ne_of_gt (Nat.lt_of_lt_of_le (h.lt_of_resolve hresolve) ht'))]
    exact h.blank t' ht'
  · rw [(hsame _).1, (hsame _).2.1, (hsame _).2.2.1]
    exact h.request q' (List.mem_cons_of_mem _ hq')
  · rw [(hsame t').2.2.1] at ht'
    rw [(hsame t').1]
    exact h.waiting t' ht'
  · rw [(hsame r).2.1] at hr
    rw [(hsame r).2.2.1] at hp
    obtain ⟨hpfreed, hpresolve⟩ := h.parent r p hr (hp.imp id fun hr => List.mem_cons_of_mem _ hr)
    have hne : p ≠ t := by
      rintro rfl
      obtain rfl : q.task = r := Option.some.inj (hresolve.symm.trans hpresolve)
      rcases hp with hp | hp
      · rw [hnext] at hp
        cases hp
      · exact hnodup.1 hp
    rw [Function.update_of_ne hne]
    exact ⟨hpfreed, hpresolve⟩
  · have hne : p ≠ t := by
      rintro rfl
      rw [Function.update_self] at hr
      cases hr
    rw [Function.update_of_ne hne] at hr
    rw [(hsame r).2.1, (hsame r).2.2.1]
    obtain ⟨hruser, hr⟩ := h.sub p r hp hr
    refine ⟨hruser, hr.imp id fun hmem => ?_⟩
    rcases List.mem_cons.mp hmem with rfl | hmem
    · exact absurd (Option.some.inj (hruser.symm.trans hqt)) hne
    · exact hmem
  · rw [(hsame p).2.2.2] at hp
    exact ⟨(h.armed p hp).1, hnone (h.armed p hp).2⟩
  · rw [(hsame p).1] at hp
    rw [(hsame p).2.2.2]
    exact ⟨(h.resolves p hp).1, hnone (h.resolves p hp).2⟩
  · rw [(hsame p).1] at hp
    rw [(hsame p).2.1]
    exact h.program p hp

theorem Linked.free (h : Linked tasks task freed pend) {gone : List ℕ}
    (hout : ∀ t, t ∉ gone → task' t = task t)
    (hin : ∀ t ∈ gone, t < tasks ∧ (task' t).type = (task t).type ∧
      (task' t).user = (task t).user ∧ (task' t).resolve = (task t).resolve ∧
      (task' t).next = false ∧ (task' t).op = false)
    (hparent : ∀ t ∈ gone, ∀ q ∈ pend, q.user.parent ≠ some t)
    (hwait : ∀ t ∈ gone, ∀ r, (task t).resolve = some r → r ∈ gone)
    (hsub : ∀ r ∈ gone, ∀ p, p ∉ freed → p ∉ gone → (task p).resolve = some r →
      r ∈ pend.map NetworkRequest.task) :
    Linked tasks task' (freed ++ gone) pend := by
  have hsame : ∀ t, (task' t).type = (task t).type ∧ (task' t).user = (task t).user ∧
      (task' t).resolve = (task t).resolve := by
    intro t
    by_cases ht : t ∈ gone
    · exact ⟨(hin t ht).2.1, (hin t ht).2.2.1, (hin t ht).2.2.2.1⟩
    · rw [hout t ht]
      exact ⟨rfl, rfl, rfl⟩
  have hstill : ∀ {t}, t ∈ freed ++ gone ↔ t ∈ freed ∨ t ∈ gone := List.mem_append
  have hkept : ∀ {t}, (task' t).next = true → t ∉ gone ∧ (task t).next = true := by
    intro t ht
    by_cases hgone : t ∈ gone
    · rw [(hin t hgone).2.2.2.2.1] at ht
      cases ht
    · exact ⟨hgone, hout t hgone ▸ ht⟩
  refine ⟨fun t ht => ?_, fun t ht => ?_, h.nodup, fun q hq => ?_, fun t ht => ?_,
    fun r p hr hp => ?_, fun p r hp hr => ?_, fun p hp => ?_, fun p hp => ?_, fun p hp => ?_⟩
  · rw [hout t fun hgone => absurd (hin t hgone).1 (Nat.not_lt.mpr ht)]
    exact h.blank t ht
  · exact (hstill.mp ht).elim (h.made t) fun hgone => (hin t hgone).1
  · obtain ⟨hlt, huser, hnext, htype⟩ := h.request q hq
    rw [(hsame _).1, (hsame _).2.1]
    refine ⟨hlt, huser, Bool.eq_false_iff.mpr fun ht => ?_, htype⟩
    rw [(hkept ht).2] at hnext
    cases hnext
  · obtain ⟨hgone, hnext⟩ := hkept ht
    rw [(hsame t).1]
    exact ⟨fun hmem => (hstill.mp hmem).elim (h.waiting t hnext).1 hgone, (h.waiting t hnext).2⟩
  · rw [(hsame r).2.1] at hr
    rw [(hsame p).2.2]
    obtain ⟨hfreed, hresolve⟩ := h.parent r p hr (hp.imp (fun ht => (hkept ht).2) id)
    refine ⟨fun hmem => (hstill.mp hmem).elim hfreed fun hgone => ?_, hresolve⟩
    rcases hp with ht | hmem
    · exact (hkept ht).1 (hwait p hgone r hresolve)
    · obtain ⟨q, hq, rfl⟩ := List.mem_map.mp hmem
      exact hparent p hgone q hq ((h.request q hq).2.1 ▸ hr)
  · rw [(hsame p).2.2] at hr
    rw [(hsame r).2.1]
    have hpfreed : p ∉ freed := fun hmem => hp (hstill.mpr (.inl hmem))
    have hpgone : p ∉ gone := fun hmem => hp (hstill.mpr (.inr hmem))
    obtain ⟨huser, hwaits⟩ := h.sub p r hpfreed hr
    refine ⟨huser, ?_⟩
    by_cases hgone : r ∈ gone
    · exact .inr (hsub r hgone p hpfreed hpgone hr)
    · rw [hout r hgone]
      exact hwaits
  · have hgone : p ∉ gone := by
      intro hgone
      rw [(hin p hgone).2.2.2.2.2] at hp
      cases hp
    rw [hout p hgone] at hp ⊢
    exact ⟨fun hmem => (hstill.mp hmem).elim (h.armed p hp).1 hgone, (h.armed p hp).2⟩
  · rw [(hsame p).1] at hp
    rw [(hsame p).2.2]
    refine ⟨?_, (h.resolves p hp).2⟩
    by_cases hgone : p ∈ gone
    · exact (hin p hgone).2.2.2.2.2
    · rw [hout p hgone]
      exact (h.resolves p hp).1
  · rw [(hsame p).1] at hp
    rw [(hsame p).2.1]
    exact h.program p hp

end Network

end LibReactor
