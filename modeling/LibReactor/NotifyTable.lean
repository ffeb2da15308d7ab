import LibReactor.Closing

/-!
# The watch table

The list of a `notify_t` and its two maps. The maps index exactly the entries of the list as
long as the kernel gives every entry a descriptor of its own, and an entry can be removed as
long as its watch has not ended by itself.
-/

namespace LibReactor

open Transition

/-! ## Indexes -/

section Indexes

variable {α β : Type} {m : α → Option β} {l : List β} {key : β → α}

def Indexes (m : α → Option β) (l : List β) (key : β → α) : Prop :=
  ∀ k e, m k = some e ↔ e ∈ l ∧ key e = k

theorem Indexes.eq_of_key (h : Indexes m l key) {e e' : β} (he : e ∈ l) (he' : e' ∈ l)
    (hkey : key e = key e') : e = e' := by
  have hget := (h (key e) e).mpr ⟨he, rfl⟩
  rw [(h (key e) e').mpr ⟨he', hkey.symm⟩] at hget
  exact (Option.some.inj hget).symm

theorem Indexes.nodup_keys (h : Indexes m l key) (hnodup : l.Nodup) : (l.map key).Nodup := by
  refine hnodup.map_on fun e he e' he' hkey => ?_
  exact h.eq_of_key he he' hkey

theorem Indexes.insert [DecidableEq α] (h : Indexes m l key) {e : β}
    (hnew : ∀ e' ∈ l, key e' ≠ key e) :
    Indexes (insertNew m (key e) e) (l ++ [e]) key := by
  have hnone : m (key e) = none := by
    cases hget : m (key e) with
    | none => rfl
    | some e' =>
      obtain ⟨he', hkey⟩ := (h _ _).mp hget
      exact absurd hkey (hnew e' he')
  intro k e'
  rw [insertNew, hnone, Option.isSome_none, if_neg Bool.false_ne_true, Function.update_apply,
    List.mem_append, List.mem_singleton]
  split_ifs with hk
  · constructor
    · intro heq
      obtain rfl := Option.some.inj heq
      exact ⟨.inr rfl, hk.symm⟩
    · rintro ⟨he' | rfl, hkey⟩
      · exact absurd (hkey.trans hk) (hnew e' he')
      · rfl
  · rw [h k e']
    refine and_congr_left fun hkey => ?_
    refine (or_iff_left ?_).symm
    rintro rfl
    exact hk hkey.symm

theorem Indexes.erase [DecidableEq α] [DecidableEq β] (h : Indexes m l key)
    (hnodup : l.Nodup) {e : β}
    (he : e ∈ l) : Indexes (Function.update m (key e) none) (l.erase e) key := by
  intro k e'
  rw [Function.update_apply, hnodup.mem_erase_iff]
  split_ifs with hk
  · constructor
    · exact nofun
    · rintro ⟨⟨hne, he'⟩, hkey⟩
      exact absurd (h.eq_of_key he' he (hkey.trans hk)) hne
  · rw [h k e']
    refine and_congr_left fun hkey => ?_
    refine (and_iff_right ?_).symm
    rintro rfl
    exact hk hkey.symm

end Indexes

namespace Notify

structure Consistent (n : Notify) : Prop where
  nodup : n.entries.Nodup
  below : ∀ e ∈ n.entries, e.address < n.allocated
  ids : Indexes n.ids n.entries NotifyEntry.id
  paths : Indexes n.paths n.entries NotifyEntry.path

variable {t t' : Tables}

theorem consistent_construct : construct.Consistent where
  nodup := List.nodup_nil
  below := nofun
  ids _ _ := ⟨nofun, fun h => nomatch h.1⟩
  paths _ _ := ⟨nofun, fun h => nomatch h.1⟩

theorem Consistent.congr {n n' : Notify} (h : n.Consistent) (hentries : n'.entries = n.entries)
    (hids : n'.ids = n.ids) (hpaths : n'.paths = n.paths)
    (hallocated : n'.allocated = n.allocated) :
    n'.Consistent :=
  ⟨hentries ▸ h.nodup, hentries ▸ hallocated ▸ h.below, hentries ▸ hids ▸ h.ids,
    hentries ▸ hpaths ▸ h.paths⟩

theorem Consistent.notifyUpdate {n : Notify} (h : n.Consistent) (r : Reactor NotifyUser) :
    (n.notifyUpdate r).1.Consistent := by
  rw [fields_notifyUpdate]
  exact ⟨h.nodup, h.below, h.ids, h.paths⟩

/-- The removal of an entry whose watch the kernel still has. -/
theorem Consistent.notifyRemoveEntry (h : t.notify.Consistent) {e : NotifyEntry}
    (he : e ∈ t.notify.entries) (hwatch : e.id ∈ t.inotify.ids) :
    ∃ t', notifyRemoveEntry t e = some t' ∧ t'.notify.Consistent ∧
      t'.notify.entries = t.notify.entries.erase e ∧ t'.inotify = t.inotify.drop e.id := by
  have hrm : t.inotify.rmWatch e.id = some (t.inotify.drop e.id) := if_pos hwatch
  have H : Consistent { t.notify with
      ids := Function.update t.notify.ids e.id none
      paths := Function.update t.notify.paths e.path none
      entries := t.notify.entries.erase e } :=
    ⟨h.nodup.erase e, fun e' he' => h.below e' (List.mem_of_mem_erase he'),
      h.ids.erase h.nodup he, h.paths.erase h.nodup he⟩
  unfold Notify.notifyRemoveEntry
  simp only [he, not_true_eq_false, if_false, hrm, Option.bind_eq_bind, Option.bind_some]
  cases hnext : t.notify.next with
  | some id => exact ⟨_, rfl, H.congr rfl rfl rfl rfl, rfl, rfl⟩
  | none => exact ⟨_, rfl, H.congr rfl rfl rfl rfl, rfl, rfl⟩

theorem mem_ids_drop {k : Inotify} {id id' : ℤ} (hmem : id ∈ k.ids) (hne : id ≠ id') :
    id ∈ (k.drop id').ids := by
  obtain ⟨w, hw, rfl⟩ := List.mem_map.mp hmem
  exact List.mem_map_of_mem (List.mem_filter.mpr ⟨hw, by simpa using hne⟩)

/-- The loop of `notify_close` when the kernel still has every watch. -/
theorem Consistent.removeEntries (h : t.notify.Consistent)
    (hwatched : ∀ e ∈ t.notify.entries, e.id ∈ t.inotify.ids) :
    ∃ t', removeEntries t.notify.entries.length t = some t' ∧ t'.notify.Consistent := by
  generalize hlen : t.notify.entries.length = len
  induction len generalizing t with
  | zero => exact ⟨t, rfl, h⟩
  | succ len ih =>
    cases hentries : t.notify.entries with
    | nil => simp [hentries] at hlen
    | cons e rest =>
      have he : e ∈ t.notify.entries := hentries ▸ List.mem_cons_self
      obtain ⟨t₁, hrun, H₁, hentries₁, hinotify⟩ := h.notifyRemoveEntry he (hwatched e he)
      have hrest : t₁.notify.entries = rest := by
        rw [hentries₁, hentries, List.erase_cons_head]
      obtain ⟨t', hrun', H'⟩ := ih H₁ (fun e' he' => by
        rw [hrest] at he'
        have hmem : e' ∈ t.notify.entries := hentries ▸ List.mem_cons_of_mem e he'
        rw [hinotify]
        refine mem_ids_drop (hwatched e' hmem) fun hid => ?_
        have hnodup := h.nodup
        rw [hentries, List.nodup_cons] at hnodup
        exact hnodup.1 (h.ids.eq_of_key hmem he hid ▸ he')) (by
        rw [hrest]
        rw [hentries] at hlen
        exact Nat.succ.inj hlen)
      refine ⟨t', ?_, H'⟩
      simp only [Notify.removeEntries, hentries, hrun]
      exact hrun'

theorem Consistent.notifyClose (h : t.notify.Consistent)
    (hwatched : t.notify.fd ≠ -1 → ∀ e ∈ t.notify.entries, e.id ∈ t.inotify.ids) :
    ∃ t', notifyClose t = some t' ∧ t'.notify.Consistent := by
  unfold Notify.notifyClose
  split_ifs with hfd
  · exact ⟨t, rfl, h⟩
  · have hcancel : (cancelNext t).notify.Consistent ∧
        (cancelNext t).notify.entries = t.notify.entries ∧ (cancelNext t).inotify = t.inotify := by
      unfold cancelNext
      cases t.notify.next with
      | some id => exact ⟨h.congr rfl rfl rfl rfl, rfl, rfl⟩
      | none => exact ⟨h, rfl, rfl⟩
    obtain ⟨H, hentries, hinotify⟩ := hcancel
    obtain ⟨t₁, hrun, H₁⟩ := H.removeEntries (by
      rw [hentries, hinotify]
      exact hwatched hfd)
    rw [hentries] at hrun
    simp only [hrun, Option.bind_eq_bind, Option.bind_some]
    exact ⟨_, rfl, H₁.congr rfl rfl rfl rfl⟩

theorem Consistent.notifyAdd (h : t.notify.Consistent) (path : Bytes) (inode : Option ℕ)
    (fresh : ℤ)
    (hnew : (∀ e ∈ t.notify.entries, e.path ≠ path) →
      ∀ e ∈ t.notify.entries, e.id ≠ (t.inotify.addWatch inode fresh).1) :
    (notifyAdd t path inode fresh).2.notify.Consistent := by
  unfold Notify.notifyAdd
  cases hpath : t.notify.paths path with
  | some e => exact h
  | none =>
    dsimp only
    by_cases hfd : t.notify.fd = -1
    · rw [if_pos hfd, if_pos rfl]
      exact h
    · rw [if_neg hfd]
      split_ifs with hid
      · exact h
      · have hpaths : ∀ e ∈ t.notify.entries, e.path ≠ path := by
          intro e he hkey
          have hget := (h.paths path e).mpr ⟨he, hkey⟩
          rw [hpath] at hget
          cases hget
        refine Consistent.notifyUpdate ⟨?_, ?_, ?_, ?_⟩ _
        · rw [List.nodup_append]
          refine ⟨h.nodup, List.nodup_singleton _, fun e he e' he' heq => ?_⟩
          rw [List.mem_singleton.mp he'] at heq
          have := h.below e he
          rw [heq] at this
          exact Nat.lt_irrefl _ this
        · intro e he
          rcases List.mem_append.mp he with he | he
          · exact Nat.lt_succ_of_lt (h.below e he)
          · rw [List.mem_singleton.mp he]
            exact Nat.lt_succ_self _
        · exact h.ids.insert (e := ⟨_, _, path⟩) (hnew hpaths)
        · exact h.paths.insert (e := ⟨_, _, path⟩) hpaths

end Notify

namespace NotifyWorld

variable {w w' : NotifyWorld}

/-- Every watch of the removed entries is still there, and the file of a new path is not watched
by an entry. -/
def Watched (w : NotifyWorld) : NotifyLabel → Prop
  | .add path inode fresh => (∀ e ∈ w.notify.entries, e.path ≠ path) →
    ∀ e ∈ w.notify.entries, e.id ≠ (w.inotify.addWatch inode fresh).1
  | .removePath path => ∀ e ∈ w.notify.entries, e.path = path → e.id ∈ w.inotify.ids
  | .removeId id => ∀ e ∈ w.notify.entries, e.id = id → e.id ∈ w.inotify.ids
  | .close | .destruct => ∀ e ∈ w.notify.entries, e.id ∈ w.inotify.ids
  | _ => True

instance (w : NotifyWorld) (l : NotifyLabel) : Decidable (w.Watched l) := by
  cases l <;> unfold Watched <;> infer_instance

structure Consistent (w : NotifyWorld) : Prop where
  running : w.failed = false
  notify : w.notify.Consistent

theorem consistent_construct : construct.Consistent := ⟨rfl, Notify.consistent_construct⟩

theorem Consistent.after (h : w.Consistent) {t : Notify.Tables} (ht : t.notify.Consistent) :
    (w.after (some t)).Consistent :=
  ⟨h.running, ht⟩

theorem Consistent.abortRead (h : w.Consistent) : w.abortRead.Consistent := by
  unfold NotifyWorld.abortRead
  split_ifs
  · exact ⟨h.running, h.notify⟩
  · exact h

theorem Consistent.removePath (h : w.Consistent) {path : Bytes}
    (hwatched : w.Watched (.removePath path)) :
    ∃ b t', Notify.notifyRemovePath w.toTables path = some (b, t') ∧ t'.notify.Consistent ∧
      t'.notify.entries = w.notify.entries.filter (fun e => e.path ≠ path) := by
  unfold Notify.notifyRemovePath
  cases hpath : w.notify.paths path with
  | none =>
    refine ⟨false, w.toTables, rfl, h.notify, (List.filter_eq_self.mpr fun e he => ?_).symm⟩
    refine decide_eq_true fun hkey => ?_
    rw [(h.notify.paths path e).mpr ⟨he, hkey⟩] at hpath
    cases hpath
  | some e =>
    obtain ⟨he, rfl⟩ := (h.notify.paths path e).mp hpath
    obtain ⟨t', hrun, H', hentries, -⟩ :=
      Notify.Consistent.notifyRemoveEntry (t := w.toTables) h.notify he (hwatched e he rfl)
    refine ⟨true, t', by dsimp only; rw [hrun]; rfl, H', ?_⟩
    rw [hentries, h.notify.nodup.erase_eq_filter]
    refine List.filter_congr fun e' he' => ?_
    by_cases hkey : e'.path = e.path
    · rw [h.notify.paths.eq_of_key he' he hkey]
      simp
    · have hne : e' ≠ e := fun heq => hkey (congrArg _ heq)
      simp [hkey, hne]

theorem Consistent.removeId (h : w.Consistent) {id : ℤ} (hwatched : w.Watched (.removeId id)) :
    ∃ b t', Notify.notifyRemoveId w.toTables id = some (b, t') ∧ t'.notify.Consistent := by
  unfold Notify.notifyRemoveId
  cases hid : w.notify.ids id with
  | none => exact ⟨false, w.toTables, rfl, h.notify⟩
  | some e =>
    obtain ⟨he, rfl⟩ := (h.notify.ids id e).mp hid
    obtain ⟨t', hrun, H', -⟩ :=
      Notify.Consistent.notifyRemoveEntry (t := w.toTables) h.notify he (hwatched e he rfl)
    exact ⟨true, t', by dsimp only; rw [hrun]; rfl, H'⟩

theorem Consistent.close (h : w.Consistent)
    (hwatched : ∀ e ∈ w.notify.entries, e.id ∈ w.inotify.ids) :
    ∃ t', Notify.notifyClose w.toTables = some t' ∧ t'.notify.Consistent :=
  Notify.Consistent.notifyClose (t := w.toTables) h.notify fun _ => hwatched

theorem Consistent.call (h : w.Consistent) (slot : ℕ) (events : List ℤ) (user : NotifyUser) :
    (w.call slot events user).Consistent := by
  cases user with
  | read => exact ⟨h.running, h.notify.congr rfl rfl rfl rfl⟩
  | next =>
    have H : Notify.Consistent { w.notify with next := none } := h.notify.congr rfl rfl rfl rfl
    exact ⟨h.running, H.notifyUpdate _⟩
  | noop => exact ⟨h.running, h.notify⟩
  | other n => exact ⟨h.running, h.notify⟩

/-- Every step that finds its watches keeps the tables consistent. -/
theorem Consistent.step (h : w.Consistent) {l : NotifyLabel} (hwatched : w.Watched l)
    (hstep : w.step l = some w') : w'.Consistent := by
  cases l with
  | «open» fd =>
    rw [NotifyWorld.step] at hstep
    split_ifs at hstep
    cases hstep
    exact ⟨h.running, h.notify.congr rfl rfl rfl rfl⟩
  | add path inode fresh =>
    rw [NotifyWorld.step] at hstep
    split_ifs at hstep
    exact Option.some.inj hstep ▸ h.after
      (Notify.Consistent.notifyAdd (t := w.toTables) h.notify path inode fresh hwatched)
  | removePath path =>
    rw [NotifyWorld.step] at hstep
    split_ifs at hstep
    obtain ⟨b, t', hrun, H', -⟩ := h.removePath hwatched
    rw [hrun] at hstep
    exact Option.some.inj hstep ▸ h.after H'
  | removeId id =>
    rw [NotifyWorld.step] at hstep
    split_ifs at hstep
    obtain ⟨b, t', hrun, H'⟩ := h.removeId hwatched
    rw [hrun] at hstep
    exact Option.some.inj hstep ▸ h.after H'
  | close =>
    rw [NotifyWorld.step] at hstep
    split_ifs at hstep
    obtain ⟨t', hrun, H'⟩ := h.close hwatched
    rw [hrun] at hstep
    exact Option.some.inj hstep ▸ h.abortRead.after H'
  | destruct =>
    rw [NotifyWorld.step] at hstep
    split_ifs at hstep
    obtain ⟨t', hrun, H'⟩ := h.close hwatched
    rw [Notify.notifyDestruct, hrun] at hstep
    cases hstep
    refine ⟨h.abortRead.running, List.nodup_nil, ?_, fun _ _ => ⟨?_, ?_⟩, fun _ _ => ⟨?_, ?_⟩⟩
    · rintro _ ⟨⟩
    · rintro ⟨⟩
    · rintro ⟨⟨⟩, -⟩
    · rintro ⟨⟩
    · rintro ⟨⟨⟩, -⟩
  | drop id => exact Option.some.inj hstep ▸ ⟨h.running, h.notify⟩
  | call slot events =>
    rw [NotifyWorld.step] at hstep
    split_ifs at hstep
    cases huser : w.reactor.users slot with
    | none =>
      rw [huser] at hstep
      cases hstep
    | some user =>
      rw [huser] at hstep
      dsimp only at hstep
      split_ifs at hstep
      exact Option.some.inj hstep ▸ h.call slot events user
  | event =>
    dsimp only [NotifyWorld.step] at hstep
    split at hstep
    · exact Option.some.inj hstep ▸ ⟨h.running, h.notify⟩
    · cases hstep
  | «return» =>
    dsimp only [NotifyWorld.step] at hstep
    split at hstep
    · split_ifs at hstep
      · exact Option.some.inj hstep ▸ ⟨h.running, h.notify⟩
      · exact Option.some.inj hstep ▸ ⟨h.running, h.notify⟩
    · cases hstep
  | finish =>
    dsimp only [NotifyWorld.step] at hstep
    split at hstep
    · have H : Notify.Consistent { w.notify with abort := false } :=
        h.notify.congr rfl rfl rfl rfl
      exact Option.some.inj hstep ▸ ⟨h.running, H.notifyUpdate _⟩
    · cases hstep
  | otherNext n => exact Option.some.inj hstep ▸ ⟨h.running, h.notify⟩
  | otherSubmit op n => exact Option.some.inj hstep ▸ ⟨h.running, h.notify⟩
  | otherCancel id n =>
    dsimp only [NotifyWorld.step] at hstep
    split at hstep
    · exact Option.some.inj hstep ▸ ⟨h.running, h.notify⟩
    · cases hstep

/-- No assertion has failed, the entries have distinct ids, and each map finds every entry under its
id or path and nothing else. -/
structure TableSound (w : NotifyWorld) : Prop where
  running : w.failed = false
  distinct : (w.notify.entries.map NotifyEntry.id).Nodup
  ids : Indexes w.notify.ids w.notify.entries NotifyEntry.id
  paths : Indexes w.notify.paths w.notify.entries NotifyEntry.path

theorem Consistent.sound (h : w.Consistent) : w.TableSound :=
  ⟨h.running, h.notify.ids.nodup_keys h.notify.nodup, h.notify.ids, h.notify.paths⟩

/-- The tables are sound in every run that adds files which are not watched yet and removes
entries whose watches have not ended. -/
theorem notify_tableSound (h : Reach step Watched construct w) :
    w.TableSound ∧ ∀ path w', w.Watched (.removePath path) → w.step (.removePath path) = some w' →
      w'.notify.entries = w.notify.entries.filter (fun e => e.path ≠ path) ∧
      ∀ e ∈ w.notify.entries, e.path ≠ path →
        w'.notify.ids e.id = some e ∧ w'.notify.paths e.path = some e := by
  have H : w.Consistent := h.invariant consistent_construct
    fun _ _ _ H hwatched hstep => H.step hwatched hstep
  refine ⟨H.sound, fun path w' hwatched hstep => ?_⟩
  have H' := H.step hwatched hstep
  rw [NotifyWorld.step] at hstep
  split_ifs at hstep
  obtain ⟨b, t', hrun, -, hentries⟩ := H.removePath hwatched
  rw [hrun] at hstep
  have hw' : w'.notify.entries = w.notify.entries.filter (fun e => e.path ≠ path) := by
    rw [← Option.some.inj hstep]
    exact hentries
  refine ⟨hw', fun e he hne => ?_⟩
  have hmem : e ∈ w'.notify.entries := by
    rw [hw']
    exact List.mem_filter.mpr ⟨he, by simpa using hne⟩
  exact ⟨(H'.notify.ids _ _).mpr ⟨hmem, rfl⟩, (H'.notify.paths _ _).mpr ⟨hmem, rfl⟩⟩

/-- Two files are watched and one path is removed. -/
theorem notify_tableSound_remove :
    ∃ w : NotifyWorld, w.TableSound ∧ w.notify.entries = [⟨1, 2, str "/b"⟩] ∧
      w.notify.paths (str "/b") = some ⟨1, 2, str "/b"⟩ := by
  have hrun : (exec (guarded step Watched) construct [.open 3, .add (str "/a") (some 0) 1,
      .add (str "/b") (some 1) 2, .removePath (str "/a")]).any
      (fun w : NotifyWorld => w.notify.entries = [⟨1, 2, str "/b"⟩]) := by
    decide
  obtain ⟨w, hexec, hw⟩ := (Option.any_eq_true _ _).mp hrun
  have hsound := (notify_tableSound (.of_guarded hexec)).1
  have hentries : w.notify.entries = [⟨1, 2, str "/b"⟩] := of_decide_eq_true hw
  refine ⟨w, hsound, hentries, (hsound.paths _ _).mpr ⟨?_, rfl⟩⟩
  rw [hentries]
  exact List.mem_singleton_self _

/-- Two paths of one file: both entries get the descriptor of its one watch. -/
theorem notify_tableSound_alias :
    ¬∀ w, Reach step (fun _ _ => True) construct w → w.TableSound := by
  intro hall
  have hrun : (exec step construct [.open 3, .add (str "/a") (some 0) 1,
      .add (str "/b") (some 0) 2]).any
        (fun w => (w.notify.entries.map NotifyEntry.id) = [1, 1]) := by
    decide
  obtain ⟨w, hexec, hw⟩ := (Option.any_eq_true _ _).mp hrun
  have hdistinct := (hall w (.of_exec (fun _ _ => trivial) hexec)).distinct
  rw [of_decide_eq_true hw] at hdistinct
  exact absurd hdistinct (by decide)

end NotifyWorld

end LibReactor
