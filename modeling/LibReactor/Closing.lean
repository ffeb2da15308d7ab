import LibReactor.Notify
import LibReactor.Signal

/-!
# What is left of a closed object

The id fields of a `notify_t` and of a `signal_t` name the callbacks that have it as their
state. A close of a `notify_t` that finds watches schedules `notify_next` again, and leaves the
read to it; a close of a `signal_t` leaves nothing.
-/

namespace LibReactor

open Transition

namespace Notify

structure Tracked (n : Notify) (r : Reactor NotifyUser) (held : List ℕ) : Prop where
  wellFormed : r.WellFormed held
  read : r.Tracks .read n.read false
  next : r.Tracks .next n.next true

variable {n : Notify} {r : Reactor NotifyUser} {held : List ℕ} {t t' : Tables}

theorem Tracked.notifyUpdate (h : n.Tracked r held) :
    (n.notifyUpdate r).1.Tracked (n.notifyUpdate r).2 held := by
  obtain ⟨hwf, hread, hnext⟩ := h
  unfold Notify.notifyUpdate
  cases hid : n.read with
  | some id =>
    rw [hid] at hread
    dsimp only
    split_ifs with hempty
    · have hne : ¬r.Holds id.slot .next := by
        intro hholds
        cases hread.holds_slot.2.symm.trans hholds.2
      exact ⟨hwf.reactorCancel .noop .noop id, hread.cancel hwf nofun nofun,
        hnext.cancel_other hwf nofun nofun hne⟩
    · exact ⟨hwf, hid ▸ hread, hnext⟩
  | none =>
    rw [hid] at hread
    dsimp only
    split_ifs with hempty
    · exact ⟨hwf, hid ▸ hread, hnext⟩
    · exact ⟨hwf.submit _ _, hread.submit hwf _,
        hnext.submit_other hwf (.read n.fd bufferSize 0) .read nofun⟩

theorem fields_notifyUpdate (n : Notify) (r : Reactor NotifyUser) :
    (n.notifyUpdate r).1 = { n with read := (n.notifyUpdate r).1.read } := by
  unfold notifyUpdate
  cases n.read with
  | some id =>
    dsimp only
    split_ifs <;> rfl
  | none =>
    dsimp only
    split_ifs <;> rfl

/-- What a removal of an entry does to the object. -/
theorem notifyRemoveEntry_spec (h : t.notify.Tracked t.reactor held) {e : NotifyEntry}
    (hrun : notifyRemoveEntry t e = some t') :
    t'.notify.Tracked t'.reactor held ∧ t'.notify.next.isSome ∧ t'.notify.read = t.notify.read ∧
      t'.notify.fd = t.notify.fd ∧ t'.notify.entries = t.notify.entries.erase e := by
  unfold notifyRemoveEntry at hrun
  split_ifs at hrun with hmem
  obtain ⟨inotify, -, hrun⟩ := Option.bind_eq_some_iff.mp hrun
  obtain ⟨hwf, hread, hnext⟩ := h
  cases hid : t.notify.next with
  | some id =>
    simp only [hid] at hrun
    cases hrun
    exact ⟨⟨hwf, hread, hid ▸ hnext⟩, rfl, rfl, rfl, rfl⟩
  | none =>
    rw [hid] at hnext
    simp only [hid] at hrun
    cases hrun
    exact ⟨⟨hwf.reactorNext _, hread.reactorNext_other hwf .next nofun, hnext.reactorNext hwf⟩,
      rfl, rfl, rfl, rfl⟩

/-- What the loop of `notify_close` does: a removal leaves `notify_next` scheduled. -/
theorem removeEntries_spec (h : t.notify.Tracked t.reactor held)
    (hrun : removeEntries t.notify.entries.length t = some t') :
    t'.notify.Tracked t'.reactor held ∧ t'.notify.entries = [] ∧
      t'.notify.read = t.notify.read ∧ t'.notify.fd = t.notify.fd ∧
      (t'.notify.next = none ↔ t.notify.next = none ∧ t.notify.entries = []) := by
  generalize hlen : t.notify.entries.length = len at hrun
  induction len generalizing t with
  | zero =>
    cases hrun
    have hempty := List.length_eq_zero_iff.mp hlen
    exact ⟨h, hempty, rfl, rfl, by rw [hempty]; simp⟩
  | succ len ih =>
    rw [removeEntries] at hrun
    cases hentries : t.notify.entries with
    | nil => simp [hentries] at hlen
    | cons e rest =>
      simp only [hentries] at hrun
      obtain ⟨t₁, hrun₁, hrest⟩ := Option.bind_eq_some_iff.mp hrun
      obtain ⟨H₁, hnext₁, hread₁, hfd₁, hentries₁⟩ := notifyRemoveEntry_spec h hrun₁
      rw [hentries, List.erase_cons_head] at hentries₁
      obtain ⟨H', hempty, hread, hfd, hnext⟩ := ih H₁ (by
        rw [hentries₁]
        rw [hentries] at hlen
        exact Nat.succ.inj hlen) hrest
      refine ⟨H', hempty, hread.trans hread₁, hfd.trans hfd₁, ?_⟩
      rw [hnext]
      constructor
      · rintro ⟨hnone, -⟩
        rw [hnone] at hnext₁
        cases hnext₁
      · rintro ⟨-, hnil⟩
        cases hnil

theorem cancelNext_spec (h : t.notify.Tracked t.reactor held) :
    (cancelNext t).notify.Tracked (cancelNext t).reactor held ∧
      (cancelNext t).notify = { t.notify with next := none } := by
  obtain ⟨hwf, hread, hnext⟩ := h
  unfold cancelNext
  cases hid : t.notify.next with
  | some id =>
    rw [hid] at hnext
    have hne : ¬t.reactor.Holds id.slot .read := by
      intro hholds
      cases hnext.holds_slot.2.symm.trans hholds.2
    exact ⟨⟨hwf.reactorCancel .noop .noop id, hread.cancel_other hwf nofun nofun hne,
      hnext.cancel hwf nofun nofun⟩, rfl⟩
  | none =>
    refine ⟨⟨hwf, hread, hnext⟩, ?_⟩
    cases hn : t.notify
    rw [hn] at hid
    dsimp only at hid ⊢
    rw [hid]

/-- A close that returns leaves the read, and `notify_next` if there was a watch to remove. -/
theorem notifyClose_spec (h : t.notify.Tracked t.reactor held)
    (hclosed : t.notify.fd = -1 → t.notify.entries = []) (hrun : notifyClose t = some t') :
    t'.notify.Tracked t'.reactor held ∧ t'.notify.fd = -1 ∧ t'.notify.entries = [] ∧
      t'.notify.read = t.notify.read ∧
      (t'.notify.next = none ↔
        t.notify.entries = [] ∧ (t.notify.fd = -1 → t.notify.next = none)) := by
  unfold notifyClose at hrun
  split_ifs at hrun with hfd
  · cases hrun
    have hempty := hclosed hfd
    exact ⟨h, hfd, hempty, rfl, by simp [hfd, hempty]⟩
  · obtain ⟨t₁, hrun₁, hrest⟩ := Option.bind_eq_some_iff.mp hrun
    obtain ⟨H₀, heq⟩ := cancelNext_spec h
    rw [show t.notify.entries = (cancelNext t).notify.entries by rw [heq]] at hrun₁
    obtain ⟨⟨hwf, hread, hnext⟩, hempty, hread₁, -, hnext₁⟩ := removeEntries_spec H₀ hrun₁
    cases hrest
    refine ⟨⟨hwf.submit _ _, hread.submit_other hwf (.close t₁.notify.fd) .noop nofun,
      hnext.submit_other hwf (.close t₁.notify.fd) .noop nofun⟩,
      rfl, hempty, ?_, ?_⟩
    · show t₁.notify.read = t.notify.read
      rw [hread₁, heq]
    · show t₁.notify.next = none ↔ _
      rw [hnext₁, heq]
      simp [hfd]

theorem notifyAdd_spec (h : t.notify.Tracked t.reactor held)
    (hclosed : t.notify.fd = -1 → t.notify.entries = []) (path : Bytes) (inode : Option ℕ)
    (fresh : ℤ) :
    (notifyAdd t path inode fresh).2.notify.Tracked (notifyAdd t path inode fresh).2.reactor held ∧
      ((notifyAdd t path inode fresh).2.notify.fd = -1 →
        (notifyAdd t path inode fresh).2.notify.entries = []) := by
  unfold notifyAdd
  cases t.notify.paths path with
  | some e => exact ⟨h, hclosed⟩
  | none =>
    dsimp only
    by_cases hfd : t.notify.fd = -1
    · rw [if_pos hfd, if_pos rfl]
      exact ⟨h, hclosed⟩
    · rw [if_neg hfd]
      split_ifs with hid
      · exact ⟨h, hclosed⟩
      · refine ⟨Tracked.notifyUpdate ⟨h.wellFormed, h.read, h.next⟩, fun hclosed => absurd ?_ hfd⟩
        rw [fields_notifyUpdate] at hclosed
        exact hclosed

end Notify

namespace NotifyWorld

structure Tracked (w : NotifyWorld) : Prop where
  tracked : w.notify.Tracked w.reactor (w.reading.toList.map Prod.fst)
  closed : w.notify.fd = -1 → w.notify.entries = []

variable {w w' : NotifyWorld}

theorem tracked_construct : construct.Tracked where
  tracked := ⟨Reactor.wellFormed_construct, Reactor.tracks_construct, Reactor.tracks_construct⟩
  closed _ := rfl

theorem Tracked.after (h : Tracked w) {t : Option Notify.Tables}
    (ht : ∀ t', t = some t' →
      t'.notify.Tracked t'.reactor (w.reading.toList.map Prod.fst) ∧
        (t'.notify.fd = -1 → t'.notify.entries = [])) : Tracked (w.after t) := by
  cases t with
  | none => exact ⟨h.tracked, h.closed⟩
  | some t => exact ⟨(ht t rfl).1, (ht t rfl).2⟩

theorem Tracked.remove (h : Tracked w) {e : NotifyEntry} {t' : Notify.Tables}
    (hrun : Notify.notifyRemoveEntry w.toTables e = some t') :
    t'.notify.Tracked t'.reactor (w.reading.toList.map Prod.fst) ∧
      (t'.notify.fd = -1 → t'.notify.entries = []) := by
  obtain ⟨H', -, -, hfd, hentries⟩ := Notify.notifyRemoveEntry_spec h.tracked hrun
  refine ⟨H', fun hclosed => ?_⟩
  rw [hentries, h.closed (hfd.symm.trans hclosed)]
  rfl

theorem Tracked.removePath (h : Tracked w) (path : Bytes) :
    Tracked (w.after ((Notify.notifyRemovePath w.toTables path).map Prod.snd)) := by
  refine h.after fun t' ht' => ?_
  unfold Notify.notifyRemovePath at ht'
  cases hpath : w.notify.paths path with
  | none =>
    rw [hpath] at ht'
    cases ht'
    exact ⟨h.tracked, h.closed⟩
  | some e =>
    rw [hpath] at ht'
    dsimp only at ht'
    rw [Option.map_map] at ht'
    obtain ⟨t₁, hrun, rfl⟩ := Option.map_eq_some_iff.mp ht'
    exact h.remove hrun

theorem Tracked.removeId (h : Tracked w) (id : ℤ) :
    Tracked (w.after ((Notify.notifyRemoveId w.toTables id).map Prod.snd)) := by
  refine h.after fun t' ht' => ?_
  unfold Notify.notifyRemoveId at ht'
  cases hid : w.notify.ids id with
  | none =>
    rw [hid] at ht'
    cases ht'
    exact ⟨h.tracked, h.closed⟩
  | some e =>
    rw [hid] at ht'
    dsimp only at ht'
    rw [Option.map_map] at ht'
    obtain ⟨t₁, hrun, rfl⟩ := Option.map_eq_some_iff.mp ht'
    exact h.remove hrun

theorem Tracked.abortRead (h : Tracked w) : Tracked w.abortRead := by
  unfold NotifyWorld.abortRead
  split_ifs
  · exact ⟨h.tracked, h.closed⟩
  · exact h

theorem reading_abortRead (w : NotifyWorld) : w.abortRead.reading = w.reading := by
  unfold abortRead
  split_ifs <;> rfl

theorem Tracked.close (h : Tracked w) :
    Tracked (w.abortRead.after (Notify.notifyClose w.toTables)) := by
  refine h.abortRead.after fun t' ht' => ?_
  rw [reading_abortRead]
  obtain ⟨H', -, hempty, -⟩ := Notify.notifyClose_spec h.tracked h.closed ht'
  exact ⟨H', fun _ => hempty⟩

theorem Tracked.destruct (h : Tracked w) :
    Tracked { w.abortRead.after (Notify.notifyDestruct w.toTables) with gone := true } := by
  have hafter : Tracked (w.abortRead.after (Notify.notifyDestruct w.toTables)) := by
    refine h.abortRead.after fun t' ht' => ?_
    rw [reading_abortRead]
    obtain ⟨t₁, hrun, rfl⟩ := Option.map_eq_some_iff.mp ht'
    obtain ⟨⟨hwf, hread, hnext⟩, -⟩ := Notify.notifyClose_spec h.tracked h.closed hrun
    exact ⟨⟨hwf, hread, hnext⟩, fun _ => rfl⟩
  exact ⟨hafter.tracked, hafter.closed⟩

theorem Tracked.finishRead {slot : ℕ} {t : Notify.Tables}
    (h : t.notify.Tracked t.reactor [slot]) (hclosed : t.notify.fd = -1 → t.notify.entries = []) :
    Tracked (w.finishRead slot t) :=
  ⟨⟨h.wellFormed.freeUser, h.read.freeUser h.wellFormed, h.next.freeUser h.wellFormed⟩, hclosed⟩

theorem Tracked.call (h : Tracked w) (hreading : w.reading = none) {slot : ℕ} {user : NotifyUser}
    (hslot : w.reactor.Holds slot user) (events : List ℤ) : Tracked (w.call slot events user) := by
  obtain ⟨⟨hwf, hread, hnext⟩, hclosed⟩ := h
  rw [hreading] at hwf
  have hwf' : (w.reactor.take slot).WellFormed [slot] := hwf.take hslot.1
  have hother : ∀ u, u ≠ user → ¬w.reactor.Holds slot u := by
    intro u hne hholds
    exact hne (hholds.unique hslot)
  cases user with
  | read =>
    exact ⟨⟨hwf', hread.take hwf hslot, hnext.take_other hwf hslot.1 (hother _ nofun)⟩, hclosed⟩
  | next =>
    have H' : Notify.Tracked { w.notify with next := none } (w.reactor.take slot) [slot] :=
      ⟨hwf', hread.take_other hwf hslot.1 (hother _ nofun), hnext.take hwf hslot⟩
    have H'' := H'.notifyUpdate
    have hfields := Notify.fields_notifyUpdate { w.notify with next := none } (w.reactor.take slot)
    refine ⟨⟨?_, H''.read.freeUser H''.wellFormed, H''.next.freeUser H''.wellFormed⟩, ?_⟩
    · show Reactor.WellFormed _ (w.reading.toList.map Prod.fst)
      rw [hreading]
      exact H''.wellFormed.freeUser
    · show (Notify.notifyUpdate _ _).1.fd = -1 → (Notify.notifyUpdate _ _).1.entries = []
      rw [hfields]
      exact hclosed
  | noop =>
    refine ⟨⟨?_, (hread.take_other hwf hslot.1 (hother _ nofun)).freeUser hwf',
      (hnext.take_other hwf hslot.1 (hother _ nofun)).freeUser hwf'⟩, hclosed⟩
    show Reactor.WellFormed _ (w.reading.toList.map Prod.fst)
    rw [hreading]
    exact hwf'.freeUser
  | other n =>
    refine ⟨⟨?_, (hread.take_other hwf hslot.1 (hother _ nofun)).freeUser hwf',
      (hnext.take_other hwf hslot.1 (hother _ nofun)).freeUser hwf'⟩, hclosed⟩
    show Reactor.WellFormed _ (w.reading.toList.map Prod.fst)
    rw [hreading]
    exact hwf'.freeUser

theorem Tracked.finish (h : Tracked w) {slot : ℕ} {events : List ℤ}
    (hreading : w.reading = some (slot, events)) :
    Tracked (w.finishRead slot { w.toTables with
      notify := ({ w.notify with abort := false }.notifyUpdate w.reactor).1
      reactor := ({ w.notify with abort := false }.notifyUpdate w.reactor).2 }) := by
  have H := h.tracked
  rw [hreading] at H
  have H' : Notify.Tracked { w.notify with abort := false } w.reactor [slot] :=
    ⟨H.wellFormed, H.read, H.next⟩
  refine Tracked.finishRead H'.notifyUpdate ?_
  show (Notify.notifyUpdate _ _).1.fd = -1 → (Notify.notifyUpdate _ _).1.entries = []
  rw [Notify.fields_notifyUpdate]
  exact h.closed

theorem Tracked.otherCancel (h : Tracked w) {id : Id} {m : ℕ} (n : ℕ)
    (hid : w.reactor.users id.slot = some (.other m)) :
    Tracked { w with reactor := w.reactor.reactorCancel .noop id (.other n) } := by
  obtain ⟨⟨hwf, hread, hnext⟩, hclosed⟩ := h
  have hother : ∀ u : NotifyUser, u ≠ .other m → ¬w.reactor.Holds id.slot u := by
    intro u hne hholds
    exact hne (Option.some.inj (hholds.2.symm.trans hid))
  exact ⟨⟨hwf.reactorCancel .noop (.other n) id,
    hread.cancel_other hwf nofun nofun (hother _ nofun),
    hnext.cancel_other hwf nofun nofun (hother _ nofun)⟩, hclosed⟩

/-- Every step keeps the invariant. -/
theorem Tracked.step (h : Tracked w) {l : NotifyLabel} (hstep : w.step l = some w') :
    Tracked w' := by
  cases l with
  | «open» fd =>
    rw [NotifyWorld.step] at hstep
    split_ifs at hstep with hcall
    cases hstep
    refine ⟨⟨h.tracked.wellFormed, h.tracked.read, h.tracked.next⟩, fun hclosed => ?_⟩
    have : fd = -1 := hclosed
    omega
  | add path inode fresh =>
    rw [NotifyWorld.step] at hstep
    split_ifs at hstep
    exact Option.some.inj hstep ▸ h.after fun t' ht' =>
      Option.some.inj ht' ▸ Notify.notifyAdd_spec h.tracked h.closed path inode fresh
  | removePath path =>
    rw [NotifyWorld.step] at hstep
    split_ifs at hstep
    exact Option.some.inj hstep ▸ h.removePath path
  | removeId id =>
    rw [NotifyWorld.step] at hstep
    split_ifs at hstep
    exact Option.some.inj hstep ▸ h.removeId id
  | close =>
    rw [NotifyWorld.step] at hstep
    split_ifs at hstep
    exact Option.some.inj hstep ▸ h.close
  | destruct =>
    rw [NotifyWorld.step] at hstep
    split_ifs at hstep
    exact Option.some.inj hstep ▸ h.destruct
  | drop id => exact Option.some.inj hstep ▸ ⟨h.tracked, h.closed⟩
  | call slot events =>
    rw [NotifyWorld.step] at hstep
    split_ifs at hstep with hpending
    cases huser : w.reactor.users slot with
    | none =>
      rw [huser] at hstep
      cases hstep
    | some user =>
      rw [huser] at hstep
      dsimp only at hstep
      split_ifs at hstep
      exact Option.some.inj hstep ▸ h.call hpending.2.1 ⟨hpending.2.2, huser⟩ events
  | event =>
    dsimp only [NotifyWorld.step] at hstep
    split at hstep
    · next slot event events _ _ hreading =>
      cases hstep
      refine ⟨?_, h.closed⟩
      have H := h.tracked
      rw [hreading] at H
      exact H
    · cases hstep
  | «return» =>
    dsimp only [NotifyWorld.step] at hstep
    split at hstep
    · next slot events _ _ hreading =>
      split_ifs at hstep
      · cases hstep
        have H := h.tracked
        rw [hreading] at H
        exact Tracked.finishRead H h.closed
      · cases hstep
        exact ⟨h.tracked, h.closed⟩
    · cases hstep
  | finish =>
    dsimp only [NotifyWorld.step] at hstep
    split at hstep
    · next slot _ _ hreading => exact Option.some.inj hstep ▸ h.finish hreading
    · cases hstep
  | otherNext n =>
    cases hstep
    obtain ⟨⟨hwf, hread, hnext⟩, hclosed⟩ := h
    exact ⟨⟨hwf.reactorNext _, hread.reactorNext_other hwf (.other n) nofun,
      hnext.reactorNext_other hwf (.other n) nofun⟩, hclosed⟩
  | otherSubmit op n =>
    cases hstep
    obtain ⟨⟨hwf, hread, hnext⟩, hclosed⟩ := h
    exact ⟨⟨hwf.submit _ op, hread.submit_other hwf op (.other n) nofun,
      hnext.submit_other hwf op (.other n) nofun⟩, hclosed⟩
  | otherCancel id n =>
    dsimp only [NotifyWorld.step] at hstep
    split at hstep
    · next m hid =>
      cases hstep
      exact h.otherCancel n hid
    · cases hstep

theorem released_iff (h : Tracked w) :
    w.Released ↔ w.notify.read = none ∧ w.notify.next = none := by
  rw [← h.tracked.read.none_iff, ← h.tracked.next.none_iff]
  constructor
  · intro hreleased
    exact ⟨fun s hs => Bool.noConfusion (hreleased s _ hs),
      fun s hs => Bool.noConfusion (hreleased s _ hs)⟩
  · rintro ⟨hread, hnext⟩ s u hholds
    cases u with
    | read => exact absurd hholds (hread s)
    | next => exact absurd hholds (hnext s)
    | noop => rfl
    | other n => rfl

/-- No watch, no read in flight and, if the object is closed already, no `notify_next`. -/
def Idle (w : NotifyWorld) : Prop :=
  w.notify.entries = [] ∧ w.notify.read = none ∧ (w.notify.fd = -1 → w.notify.next = none)

theorem released_close (h : Tracked w) {l : NotifyLabel} (hl : l = .close ∨ l = .destruct)
    (hstep : w.step l = some w') (hreturned : w'.failed = false) : w'.Released ↔ w.Idle := by
  have hrun : ∃ t', Notify.notifyClose w.toTables = some t' ∧
      w'.notify.read = t'.notify.read ∧ w'.notify.next = t'.notify.next := by
    rcases hl with rfl | rfl
    · rw [NotifyWorld.step] at hstep
      split_ifs at hstep
      cases hstep
      cases hclose : Notify.notifyClose w.toTables with
      | none =>
        rw [hclose] at hreturned
        cases hreturned
      | some t' => exact ⟨t', rfl, rfl, rfl⟩
    · rw [NotifyWorld.step] at hstep
      split_ifs at hstep
      cases hstep
      cases hclose : Notify.notifyClose w.toTables with
      | none =>
        rw [Notify.notifyDestruct, hclose] at hreturned
        cases hreturned
      | some t' =>
        refine ⟨t', rfl, ?_, ?_⟩ <;> rw [Notify.notifyDestruct, hclose] <;> rfl
  obtain ⟨t', hclose, hread', hnext'⟩ := hrun
  obtain ⟨-, -, -, hread, hnext⟩ := Notify.notifyClose_spec h.tracked h.closed hclose
  rw [released_iff (h.step hstep), hread', hnext', hread, hnext]
  unfold Idle
  constructor
  · rintro ⟨hr, hempty, hn⟩
    exact ⟨hempty, hr, hn⟩
  · rintro ⟨hempty, hr, hn⟩
    exact ⟨hr, hempty, hn⟩

end NotifyWorld

namespace SignalWorld

variable {w w' : SignalWorld}

inductive Case (w : SignalWorld) : SignalLabel → SignalWorld → Prop
  | open {fd : ℤ} (hclosed : w.signal.fd = -1) : Case w (.open fd) { w with
      signal := (w.signal.signalOpen fd w.reactor).1
      reactor := (w.signal.signalOpen fd w.reactor).2 }
  | send : Case w .send { w with reactor := w.signal.signalSend w.reactor }
  | close : Case w .close { w.abortRead with
      signal := (w.signal.signalClose w.reactor).1
      reactor := (w.signal.signalClose w.reactor).2 }
  | call {slot counter : ℕ} {user : SignalUser} (hreading : w.reading = none)
      (hslot : w.reactor.Holds slot user) (hfound : user = .read → w.lost slot = false) :
      Case w (.call slot counter) (w.call slot counter user)
  | callFails {slot : ℕ} : Case w (.callFails slot) { w with failed := true }
  | abort {slot : ℕ} (hreading : w.reading = some slot) (haborted : w.aborted = true) :
      Case w .return { w with reactor := w.reactor.freeUser slot, reading := none }
  | return {slot : ℕ} (hreading : w.reading = some slot) (haborted : w.aborted = false) :
      Case w .return { w with
        signal := ({ w.signal with abort := false }.arm w.reactor).1
        reactor := ({ w.signal with abort := false }.arm w.reactor).2.freeUser slot
        reading := none }
  | otherNext {n : ℕ} : Case w (.otherNext n)
      { w with reactor := (w.reactor.reactorNext (.other n)).2 }
  | otherSubmit {op : Op} {n : ℕ} : Case w (.otherSubmit op n)
      { w with reactor := (w.reactor.submit op (.other n)).2 }
  | otherCancel {id : Id} {n m : ℕ} (hid : w.reactor.users id.slot = some (.other m)) :
      Case w (.otherCancel id n) { w with reactor := w.reactor.reactorCancel .noop id (.other n) }

theorem step_cases {l : SignalLabel} (hstep : w.step l = some w') : w.Case l w' := by
  have hfailed : ¬w.failed = true := by
    intro hfailed
    unfold SignalWorld.step at hstep
    rw [if_pos hfailed] at hstep
    cases hstep
  unfold SignalWorld.step at hstep
  rw [if_neg hfailed] at hstep
  cases l with
  | «open» fd =>
    dsimp only at hstep
    split_ifs at hstep with hopen
    obtain rfl := Option.some.inj hstep
    exact .open hopen.1
  | send =>
    obtain rfl := Option.some.inj hstep
    exact .send
  | close =>
    obtain rfl := Option.some.inj hstep
    exact .close
  | call slot counter =>
    dsimp only at hstep
    split_ifs at hstep with hpending
    obtain ⟨user, huser, hstep⟩ := Option.bind_eq_some_iff.mp hstep
    split_ifs at hstep with hlost
    obtain rfl := Option.some.inj hstep
    exact .call hpending.1 ⟨hpending.2, huser⟩ fun hread => by simpa [hread] using hlost
  | callFails slot =>
    dsimp only at hstep
    split_ifs at hstep
    obtain rfl := Option.some.inj hstep
    exact .callFails
  | «return» =>
    dsimp only at hstep
    split at hstep
    · next slot hreading =>
      split_ifs at hstep with haborted
      · obtain rfl := Option.some.inj hstep
        exact .abort hreading haborted
      · obtain rfl := Option.some.inj hstep
        exact .return hreading (by simpa using haborted)
    · cases hstep
  | otherNext n =>
    obtain rfl := Option.some.inj hstep
    exact .otherNext
  | otherSubmit op n =>
    obtain rfl := Option.some.inj hstep
    exact .otherSubmit
  | otherCancel id n =>
    dsimp only at hstep
    split at hstep
    · next m hid =>
      obtain rfl := Option.some.inj hstep
      exact .otherCancel hid
    · cases hstep

/-- An open signal names one of its reads; the others were given no file descriptor. -/
structure Tracked (w : SignalWorld) : Prop where
  wellFormed : w.reactor.WellFormed w.reading.toList
  named : w.signal.fd ≠ -1 → ∀ id, w.signal.read = some id →
    id.notIoUring = false ∧ w.reactor.Holds id.slot .read
  others : ∀ s, w.reactor.Holds s .read →
    w.lost s = true ∨ w.signal.fd ≠ -1 ∧ w.signal.read = some ⟨s, false⟩
  abort : w.reading ≠ none → w.signal.abort = true
  running : w.reading ≠ none → w.aborted = false → w.signal.fd ≠ -1 ∧ w.signal.read = none

theorem not_holds_construct (s : ℕ) : ¬construct.reactor.Holds s .read :=
  (Reactor.tracks_construct : Reactor.Tracks _ _ _ false).not_holds s

theorem tracked_construct : construct.Tracked where
  wellFormed := Reactor.wellFormed_construct
  named hopen := absurd rfl hopen
  others s hs := absurd hs (not_holds_construct s)
  abort h := absurd rfl h
  running h := absurd rfl h

/-- A change of the reactor that leaves the calls of `signal_read` alone. -/
theorem Tracked.frame (h : Tracked w) {r : Reactor SignalUser}
    (hwf : r.WellFormed w.reading.toList)
    (hholds : ∀ s, r.Holds s .read ↔ w.reactor.Holds s .read)
    (hring : ∀ s op, r.Holds s .read → (s, op) ∈ w.reactor.ring → (s, op) ∈ r.ring) :
    Tracked { w with reactor := r } where
  wellFormed := hwf
  named hopen id hid :=
    ⟨(h.named hopen id hid).1, (hholds id.slot).mpr (h.named hopen id hid).2⟩
  others s hs := by
    refine (h.others s ((hholds s).mp hs)).imp_left fun hlost => ?_
    exact decide_eq_true (hring s _ hs (of_decide_eq_true hlost))
  abort := h.abort
  running := h.running

theorem Tracked.submit (h : Tracked w) (op : Op) {user : SignalUser} (hne : .read ≠ user) :
    Tracked { w with reactor := (w.reactor.submit op user).2 } := by
  refine h.frame (h.wellFormed.submit user op) (fun s => ?_) fun s op' _ hmem => ?_
  · rw [h.wellFormed.holds_submit]
    exact or_iff_right fun hs => hne hs.2
  · rw [Reactor.ring_submit]
    exact List.mem_append_left _ hmem

theorem read_arm (s : Signal) (r : Reactor SignalUser) (slot : ℕ) :
    (s.arm r).1.read = some ⟨slot, false⟩ ↔
      slot = (r.submit (.read s.fd Signal.counterSize 0) .read).1.slot := by
  have hread : (s.arm r).1.read =
      some ⟨(r.submit (.read s.fd Signal.counterSize 0) .read).1.slot, false⟩ := rfl
  rw [hread]
  refine ⟨fun heq => ?_, fun heq => by rw [heq]⟩
  exact (congrArg Id.slot (Option.some.inj heq)).symm

theorem holds_arm {held : List ℕ} (s : Signal) {r : Reactor SignalUser} (hwf : r.WellFormed held)
    (slot : ℕ) : (s.arm r).2.Holds slot .read ↔
      (s.arm r).1.read = some ⟨slot, false⟩ ∨ r.Holds slot .read := by
  rw [read_arm]
  refine (hwf.holds_submit _ _ slot _).trans ?_
  rw [and_iff_left rfl]

theorem mem_ring_arm (s : Signal) (r : Reactor SignalUser) {x : ℕ × Op} :
    x ∈ (s.arm r).2.ring ↔ x ∈ r.ring ∨
      x = ((r.submit (.read s.fd Signal.counterSize 0) .read).1.slot,
        .read s.fd Signal.counterSize 0) := by
  have hring : (s.arm r).2.ring = r.ring ++
      [((r.submit (.read s.fd Signal.counterSize 0) .read).1.slot,
        .read s.fd Signal.counterSize 0)] := Reactor.ring_submit _ _
  rw [hring, List.mem_append, List.mem_singleton]

/-- A read that `signal_open` arms is the one that the signal names, or has no file descriptor. -/
theorem Tracked.open (h : Tracked w) {fd : ℤ} (hclosed : w.signal.fd = -1) :
    Tracked { w with
      signal := (w.signal.signalOpen fd w.reactor).1
      reactor := (w.signal.signalOpen fd w.reactor).2 } := by
  have habort : w.reading ≠ none → w.aborted = true := by
    intro hreading
    by_contra hrunning
    exact (h.running hreading (by simpa using hrunning)).1 hclosed
  have hholds := holds_arm { w.signal with fd := fd } h.wellFormed
  refine ⟨h.wellFormed.submit _ _, fun _ id hid => ?_, fun s hs => ?_, h.abort,
    fun hreading hrunning => ?_⟩
  · obtain rfl := Option.some.inj hid
    exact ⟨rfl, (hholds _).mpr (.inl rfl)⟩
  · rcases (hholds s).mp hs with hnew | hold
    · by_cases hfd : fd = -1
      · refine .inl (decide_eq_true ((mem_ring_arm { w.signal with fd := fd } w.reactor).mpr ?_))
        have hslot := (read_arm { w.signal with fd := fd } w.reactor s).mp hnew
        subst hfd
        exact .inr (congrArg (·, _) hslot)
      · exact .inr ⟨hfd, hnew⟩
    · refine .inl (decide_eq_true ((mem_ring_arm { w.signal with fd := fd } w.reactor).mpr ?_))
      have hlost := (h.others s hold).resolve_right fun hnamed => hnamed.1 hclosed
      exact .inl (of_decide_eq_true hlost)
  · rw [show w.aborted = false from hrunning] at habort
    cases habort hreading

theorem holds_signalClose (h : Tracked w) (hopen : w.signal.fd ≠ -1) (s : ℕ) :
    (w.signal.signalClose w.reactor).2.Holds s .read ↔
      w.reactor.Holds s .read ∧ w.signal.read ≠ some ⟨s, false⟩ := by
  unfold Signal.signalClose
  rw [if_neg hopen]
  cases hid : w.signal.read with
  | some id =>
    have htag := (h.named hopen id hid).1
    have hcancel := h.wellFormed.holds_reactorCancel_iff (s := s) (u := .read) .noop .noop id
      nofun nofun
    have hsubmit := (h.wellFormed.reactorCancel .noop .noop id).holds_submit .noop
      (.close w.signal.fd) s .read
    dsimp only
    rw [hsubmit, or_iff_right (fun hs => nomatch hs.2), hcancel, and_comm]
    refine and_congr_right fun _ => not_congr ⟨fun heq => ?_, fun heq => ?_⟩
    · rw [heq, ← htag]
    · rw [Option.some.inj heq]
  | none =>
    have hsubmit := h.wellFormed.holds_submit .noop (.close w.signal.fd) s .read
    dsimp only
    rw [hsubmit, or_iff_right (fun hs => nomatch hs.2)]
    exact (and_iff_left nofun).symm

theorem mem_ring_signalClose (s : Signal) (r : Reactor SignalUser) {x : ℕ × Op}
    (hx : x ∈ r.ring) : x ∈ (s.signalClose r).2.ring := by
  unfold Signal.signalClose
  split_ifs
  · exact hx
  · dsimp only
    rw [Reactor.ring_submit]
    refine List.mem_append_left _ ?_
    cases s.read with
    | some id => exact Reactor.mem_ring_reactorCancel .noop .noop id hx
    | none => exact hx

theorem wellFormed_signalClose (h : Tracked w) :
    (w.signal.signalClose w.reactor).2.WellFormed w.reading.toList := by
  unfold Signal.signalClose
  split_ifs
  · exact h.wellFormed
  · cases w.signal.read with
    | some id =>
      have hcancel := h.wellFormed.reactorCancel .noop .noop id
      have hsubmit := hcancel.submit .noop (.close w.signal.fd)
      dsimp only
      exact hsubmit
    | none =>
      have hsubmit := h.wellFormed.submit .noop (.close w.signal.fd)
      dsimp only
      exact hsubmit

theorem signal_signalClose (s : Signal) (r : Reactor SignalUser) :
    (s.signalClose r).1 = { s with fd := -1 } := by
  unfold Signal.signalClose
  split_ifs with hfd
  · cases s
    dsimp only at hfd ⊢
    rw [hfd]
  · rfl

theorem reading_abortRead (w : SignalWorld) : w.abortRead.reading = w.reading := by
  unfold abortRead
  split_ifs <;> rfl

theorem Tracked.close (h : Tracked w) : Tracked { w.abortRead with
    signal := (w.signal.signalClose w.reactor).1
    reactor := (w.signal.signalClose w.reactor).2 } := by
  rw [signal_signalClose]
  refine ⟨?_, fun hopen => absurd rfl hopen, fun s hs => .inl (decide_eq_true ?_), ?_, ?_⟩
  · show Reactor.WellFormed _ w.abortRead.reading.toList
    rw [reading_abortRead]
    exact wellFormed_signalClose h
  · refine mem_ring_signalClose _ _ (of_decide_eq_true (p := _ ∈ w.reactor.ring) ?_)
    by_cases hfd : w.signal.fd = -1
    · have hsame : (w.signal.signalClose w.reactor).2 = w.reactor := by
        unfold Signal.signalClose
        rw [if_pos hfd]
      have hold : w.reactor.Holds s .read := by rwa [hsame] at hs
      exact (h.others s hold).resolve_right fun hnamed => hnamed.1 hfd
    · obtain ⟨hold, hne⟩ := (holds_signalClose h hfd s).mp hs
      exact (h.others s hold).resolve_right fun hnamed => hne hnamed.2
  · show w.abortRead.reading ≠ none → _
    rw [reading_abortRead]
    exact h.abort
  · -- the flag of a running `signal_read` is set, now or before
    show w.abortRead.reading ≠ none → w.abortRead.aborted = false → _
    rw [reading_abortRead]
    intro hrunning haborted
    have habort := h.abort hrunning
    unfold abortRead at haborted
    split_ifs at haborted with hset
    have hfd : w.signal.fd = -1 := by
      by_contra hne
      exact hset ⟨hne, habort⟩
    exact absurd hfd (h.running hrunning haborted).1

theorem mem_ring_take {held : List ℕ} {r : Reactor SignalUser} (hwf : r.WellFormed held)
    {slot s : ℕ} {op : Op} (hne : s ≠ slot) (hmem : (s, op) ∈ r.ring) :
    (s, op) ∈ (r.take slot).ring :=
  (Reactor.mem_eraseP_of_nodup hwf.nodup_ring slot _).mpr ⟨hmem, hne⟩

theorem Tracked.call (h : Tracked w) (hreading : w.reading = none) {slot : ℕ} {user : SignalUser}
    (hslot : w.reactor.Holds slot user) (hfound : user = .read → w.lost slot = false)
    (counter : ℕ) : Tracked (w.call slot counter user) := by
  have hwf := h.wellFormed
  rw [hreading] at hwf
  have hwf' : (w.reactor.take slot).WellFormed [slot] := hwf.take hslot.1
  have hframe : user ≠ .read →
      Tracked { w with reactor := (w.reactor.take slot).freeUser slot } := by
    intro hne
    have hother : ∀ s, w.reactor.Holds s .read → s ≠ slot := by
      rintro s hs rfl
      exact hne (hslot.unique hs)
    refine h.frame ?_ (fun s => ?_) fun s op hs hmem => ?_
    · rw [hreading]
      exact hwf'.freeUser
    · rw [hwf'.holds_freeUser, hwf.holds_take hslot.1]
      exact and_iff_right_of_imp (hother s)
    · rw [hwf'.holds_freeUser, hwf.holds_take hslot.1] at hs
      exact mem_ring_take hwf hs.1 hmem
  cases user with
  | read =>
    obtain ⟨hopen, hread⟩ := (h.others slot hslot).resolve_left (by
      rw [hfound rfl]
      exact Bool.false_ne_true)
    refine ⟨hwf', nofun, fun s hs => .inl (decide_eq_true ?_), fun _ => rfl,
      fun _ _ => ⟨hopen, rfl⟩⟩
    obtain ⟨hne, hold⟩ := (hwf.holds_take hslot.1 s _).mp hs
    have hlost := (h.others s hold).resolve_right fun hnamed => by
      rw [hread] at hnamed
      exact hne (congrArg Id.slot (Option.some.inj hnamed.2)).symm
    exact mem_ring_take hwf hne (of_decide_eq_true hlost)
  | noop => exact hframe nofun
  | other n => exact hframe nofun

theorem Tracked.abortReturn (h : Tracked w) {slot : ℕ} (hreading : w.reading = some slot) :
    Tracked { w with reactor := w.reactor.freeUser slot, reading := none } := by
  have hwf := h.wellFormed
  rw [hreading] at hwf
  refine ⟨hwf.freeUser, fun hopen id hid => ?_, fun s hs => ?_, fun hne => absurd rfl hne,
    fun hne => absurd rfl hne⟩
  · obtain ⟨htag, hholds⟩ := h.named hopen id hid
    exact ⟨htag, (hwf.holds_freeUser _ _).mpr hholds⟩
  · exact h.others s ((hwf.holds_freeUser s _).mp hs)

theorem Tracked.return (h : Tracked w) {slot : ℕ} (hreading : w.reading = some slot)
    (haborted : w.aborted = false) : Tracked { w with
      signal := ({ w.signal with abort := false }.arm w.reactor).1
      reactor := ({ w.signal with abort := false }.arm w.reactor).2.freeUser slot
      reading := none } := by
  have hwf := h.wellFormed
  rw [hreading] at hwf
  obtain ⟨hopen, hread⟩ := h.running (by rw [hreading]; exact nofun) haborted
  have hwf' : ({ w.signal with abort := false }.arm w.reactor).2.WellFormed [slot] :=
    hwf.submit _ _
  have hholds := holds_arm { w.signal with abort := false } hwf
  refine ⟨hwf'.freeUser, fun _ id hid => ?_, fun s hs => ?_, fun hne => absurd rfl hne,
    fun hne => absurd rfl hne⟩
  · obtain rfl := Option.some.inj hid
    exact ⟨rfl, (hwf'.holds_freeUser _ _).mpr ((hholds _).mpr (.inl rfl))⟩
  · rcases (hholds s).mp ((hwf'.holds_freeUser s _).mp hs) with hnew | hold
    · exact .inr ⟨hopen, hnew⟩
    · refine .inl (decide_eq_true ?_)
      have hlost := (h.others s hold).resolve_right fun hnamed => by
        rw [hread] at hnamed
        cases hnamed.2
      exact (mem_ring_arm { w.signal with abort := false } w.reactor).mpr
        (.inl (of_decide_eq_true hlost))

/-- Every step keeps the invariant. -/
theorem Tracked.step (h : Tracked w) {l : SignalLabel} (hstep : w.step l = some w') :
    Tracked w' := by
  cases step_cases hstep with
  | «open» hclosed => exact h.open hclosed
  | send => exact h.submit _ nofun
  | close => exact h.close
  | call hreading hslot hfound => exact h.call hreading hslot hfound _
  | callFails => exact ⟨h.wellFormed, h.named, h.others, h.abort, h.running⟩
  | abort hreading haborted => exact h.abortReturn hreading
  | «return» hreading haborted => exact h.return hreading haborted
  | otherNext =>
    refine h.frame (h.wellFormed.reactorNext _) (fun s => ?_) fun s op _ hmem => ?_
    · rw [h.wellFormed.holds_reactorNext]
      exact or_iff_right fun hs => nomatch hs.2
    · rw [Reactor.ring_reactorNext]
      exact hmem
  | otherSubmit => exact h.submit _ nofun
  | @otherCancel id n m hid =>
    refine h.frame (h.wellFormed.reactorCancel _ _ id) (fun s => ?_) fun s op _ hmem =>
      Reactor.mem_ring_reactorCancel _ _ _ hmem
    have hiff := h.wellFormed.holds_reactorCancel_iff (s := s) (u := .read) .noop (.other n) id
      nofun nofun
    rw [hiff]
    refine and_iff_right_of_imp fun hs heq => ?_
    rw [heq] at hs
    cases hs.2.symm.trans hid

def Named (w : SignalWorld) : Prop :=
  ∀ s, w.reactor.Holds s .read → w.signal.fd ≠ -1 ∧ w.signal.read = some ⟨s, false⟩

/-- After a close nothing is left exactly if the signal named what there was. -/
theorem released_close (h : Tracked w) (hstep : w.step .close = some w') :
    w'.Released ↔ w.Named := by
  have hreleased : ∀ r : Reactor SignalUser,
      (∀ s u, r.Holds s u → u.refers = false) ↔ ∀ s, ¬r.Holds s .read := by
    refine fun r => ⟨fun hr s hs => ?_, fun hr s u hs => ?_⟩
    · exact absurd (hr s _ hs) (by decide)
    · cases u with
      | read => exact absurd hs (hr s)
      | noop => rfl
      | other n => rfl
  cases step_cases hstep
  refine (hreleased _).trans (forall_congr' fun s => ?_)
  by_cases hfd : w.signal.fd = -1
  · have hsame : (w.signal.signalClose w.reactor).2 = w.reactor := by
      unfold Signal.signalClose
      rw [if_pos hfd]
    dsimp only
    rw [hsame]
    exact imp_congr_right fun _ => (iff_false_left fun hnamed => hnamed.1 hfd).mpr not_false |>.symm
  · refine (not_congr (holds_signalClose h hfd s)).trans ?_
    rw [not_and_not_right]
    exact ⟨fun himp hs => ⟨hfd, himp hs⟩, fun himp hs => (himp hs).2⟩

/-- The reads stay what they are. -/
theorem Named.frame (h : Named w) {r : Reactor SignalUser}
    (hholds : ∀ s, r.Holds s .read → w.reactor.Holds s .read) : Named { w with reactor := r } :=
  fun s hs => h s (hholds s hs)

/-- While every `eventfd` succeeds, the signal names what there is. -/
theorem Named.step (hn : Named w) (h : Tracked w) {l : SignalLabel}
    (hl : ∀ fd, l = .open fd → fd ≠ -1) (hstep : w.step l = some w') : Named w' := by
  cases step_cases hstep with
  | @«open» fd hclosed =>
    intro s hs
    rcases (holds_arm { w.signal with fd := fd } h.wellFormed s).mp hs with hnew | hold
    · exact ⟨hl fd rfl, hnew⟩
    · exact absurd hclosed (hn s hold).1
  | send =>
    refine hn.frame fun s hs => ?_
    exact (((h.wellFormed.holds_submit _ _ s _).mp hs).resolve_left fun heq => nomatch heq.2)
  | close =>
    intro s hs
    exfalso
    by_cases hfd : w.signal.fd = -1
    · have hsame : (w.signal.signalClose w.reactor).2 = w.reactor := by
        unfold Signal.signalClose
        rw [if_pos hfd]
      exact (hn s (by rwa [hsame] at hs)).1 hfd
    · obtain ⟨hold, hne⟩ := (holds_signalClose h hfd s).mp hs
      exact hne (hn s hold).2
  | @call slot counter user hreading hslot hfound =>
    have hwf := h.wellFormed
    rw [hreading] at hwf
    have hwf' : (w.reactor.take slot).WellFormed [slot] := hwf.take hslot.1
    cases user with
    | read =>
      intro s hs
      obtain ⟨hne, hold⟩ := (hwf.holds_take hslot.1 s _).mp hs
      have hsame := (hn s hold).2.symm.trans (hn slot hslot).2
      exact absurd (congrArg Id.slot (Option.some.inj hsame)) hne
    | noop | other n =>
      refine hn.frame fun s hs => ?_
      exact ((hwf.holds_take hslot.1 s _).mp ((hwf'.holds_freeUser s _).mp hs)).2
  | callFails => exact hn
  | @abort slot hreading haborted =>
    have hwf := h.wellFormed
    rw [hreading] at hwf
    exact hn.frame fun s hs => (hwf.holds_freeUser s _).mp hs
  | @«return» slot hreading haborted =>
    have hwf := h.wellFormed
    rw [hreading] at hwf
    obtain ⟨hopen, hread⟩ := h.running (by rw [hreading]; exact nofun) haborted
    have hwf' : ({ w.signal with abort := false }.arm w.reactor).2.WellFormed [slot] :=
      hwf.submit _ _
    intro s hs
    have harmed := (hwf'.holds_freeUser s _).mp hs
    rcases (holds_arm { w.signal with abort := false } hwf s).mp harmed with hnew | hold
    · exact ⟨hopen, hnew⟩
    · exact absurd (hread.symm.trans (hn s hold).2) nofun
  | otherNext =>
    refine hn.frame fun s hs => ?_
    exact (((h.wellFormed.holds_reactorNext _ s _).mp hs).resolve_left fun heq => nomatch heq.2)
  | otherSubmit =>
    refine hn.frame fun s hs => ?_
    exact (((h.wellFormed.holds_submit _ _ s _).mp hs).resolve_left fun heq => nomatch heq.2)
  | @otherCancel id n m hid =>
    refine hn.frame fun s hs => ?_
    have hiff := h.wellFormed.holds_reactorCancel_iff (s := s) (u := .read) .noop (.other n) id
      nofun nofun
    exact (hiff.mp hs).2

end SignalWorld

theorem SignalWorld.tracked_of_reach {w : SignalWorld}
    (h : Reach SignalWorld.step (fun _ _ => True) .construct w) : w.Tracked :=
  h.invariant SignalWorld.tracked_construct fun _ _ _ H _ hstep => H.step hstep

theorem NotifyWorld.tracked_of_reach {w : NotifyWorld}
    (h : Reach NotifyWorld.step (fun _ _ => True) .construct w) : w.Tracked :=
  h.invariant NotifyWorld.tracked_construct fun _ _ _ H _ hstep => H.step hstep

/-- `eventfd` does not fail. -/
def SignalLabel.succeeds : SignalLabel → Bool
  | .open fd => fd ≠ -1
  | _ => true

theorem SignalWorld.named_of_reach {w : SignalWorld}
    (h : Reach SignalWorld.step (fun _ l => l.succeeds = true) .construct w) : w.Named := by
  refine (h.invariant (I := fun w => w.Tracked ∧ w.Named) ⟨SignalWorld.tracked_construct, ?_⟩
    ?_).2
  · exact fun s hs => absurd hs (SignalWorld.not_holds_construct s)
  · rintro w l w' ⟨htracked, hnamed⟩ hl hstep
    refine ⟨htracked.step hstep, hnamed.step htracked (fun fd heq => ?_) hstep⟩
    subst heq
    exact of_decide_eq_true hl

/-- A closed signal has no callback left exactly when it named every read that was to come, as it
does while no `eventfd` has failed; a notification object that is closed has none left exactly
when it was idle: without a watch, without a read in flight, and without a `notify_next` where it
was closed before. -/
theorem close_released_iff (s s' : SignalWorld) (w w' : NotifyWorld) :
    (Reach SignalWorld.step (fun _ _ => True) .construct s → s.step .close = some s' →
      (s'.Released ↔ s.Named)) ∧
    (Reach SignalWorld.step (fun _ l => l.succeeds = true) .construct s → s.Named) ∧
    (Reach NotifyWorld.step (fun _ _ => True) .construct w →
      w.step .close = some w' ∨ w.step .destruct = some w' → w'.failed = false →
      (w'.Released ↔ w.Idle)) := by
  refine ⟨fun h hstep => ?_, SignalWorld.named_of_reach, fun h hstep hreturned => ?_⟩
  · exact SignalWorld.released_close (SignalWorld.tracked_of_reach h) hstep
  · have H := NotifyWorld.tracked_of_reach h
    rcases hstep with hstep | hstep
    · exact NotifyWorld.released_close H (.inl rfl) hstep hreturned
    · exact NotifyWorld.released_close H (.inr rfl) hstep hreturned

/-- Open objects without a watch, a signal with its read in flight, are closed. -/
theorem close_released_opened :
    ∃ s' w', exec (guarded SignalWorld.step fun _ l => l.succeeds = true) .construct
        [.open 3, .close] = some s' ∧ s'.Released ∧
      exec NotifyWorld.step .construct [.open 4, .close] = some w' ∧ w'.Released := by
  have hs : (exec (guarded SignalWorld.step fun _ l => l.succeeds = true) .construct
      [.open 3]).any (fun s => (s.step .close).isSome) := by
    decide
  have hw : (exec NotifyWorld.step .construct [.open 4]).any (fun w =>
      (w.notify.entries = [] ∧ w.notify.read = none ∧ w.notify.fd ≠ -1) ∧
        (w.step .close).any (fun w' => w'.failed = false)) := by
    decide
  obtain ⟨s, hexec, hs⟩ := (Option.any_eq_true _ _).mp hs
  obtain ⟨s', hclose⟩ := Option.isSome_iff_exists.mp hs
  obtain ⟨w, hexec', hw⟩ := (Option.any_eq_true _ _).mp hw
  obtain ⟨⟨hentries, hread, hfd⟩, hw⟩ := of_decide_eq_true hw
  obtain ⟨w', hclose', hreturned⟩ := (Option.any_eq_true _ _).mp hw
  obtain ⟨hsignal, hnamed, hnotify⟩ := close_released_iff s s' w w'
  have hidle : w.Idle := ⟨hentries, hread, fun hclosed => absurd hclosed hfd⟩
  have hreach := Reach.of_guarded hexec
  refine ⟨s', w', ?_, (hsignal (hreach.mono fun _ _ _ => trivial) hclose).mpr (hnamed hreach), ?_,
    (hnotify (.of_exec (fun _ _ => trivial) hexec') (.inl hclose')
      (of_decide_eq_true hreturned)).mpr hidle⟩
  · exact exec_concat hexec ((if_pos rfl).trans hclose)
  · exact exec_concat hexec' hclose'

/-- An object with one watch is closed: `notify_next` is pending on it. A signal whose counter was
2 is opened again, and closed: the read that has no file descriptor is pending on it. -/
theorem close_released_watch :
    (¬∀ w w', Reach NotifyWorld.step (fun _ _ => True) .construct w →
      w.step .close = some w' → w'.failed = false → w'.Released) ∧
    ¬∀ s s', Reach SignalWorld.step (fun _ _ => True) .construct s →
      s.step .close = some s' → s'.Released := by
  refine ⟨fun hall => ?_, fun hall => ?_⟩
  · have hrun : (exec NotifyWorld.step .construct [.open 3, .add (str "/") (some 0) 1]).any
        (fun w => w.notify.entries ≠ [] ∧ (w.step .close).any (fun w' => w'.failed = false)) := by
      decide
    obtain ⟨w, hexec, hw⟩ := (Option.any_eq_true _ _).mp hrun
    obtain ⟨hentries, hclose⟩ := of_decide_eq_true hw
    obtain ⟨w', hstep, hreturned⟩ := (Option.any_eq_true _ _).mp hclose
    have hreach := Reach.of_exec (fun _ _ => trivial) hexec
    have hidle := (NotifyWorld.released_close (NotifyWorld.tracked_of_reach hreach) (.inl rfl)
      hstep (of_decide_eq_true hreturned)).mp (hall w w' hreach hstep (of_decide_eq_true hreturned))
    exact hentries hidle.1
  · have hrun : (exec SignalWorld.step .construct [.open 3, .call 127 2, .return, .close,
        .open (-1)]).any (fun s => s.signal.fd = -1 ∧ 124 ∈ s.reactor.pending ∧
          s.reactor.users 124 = some .read ∧ (s.step .close).isSome) := by
      decide
    obtain ⟨s, hexec, hs⟩ := (Option.any_eq_true _ _).mp hrun
    obtain ⟨hfd, hpending, huser, hclose⟩ := of_decide_eq_true hs
    obtain ⟨s', hstep⟩ := Option.isSome_iff_exists.mp hclose
    have hreach := Reach.of_exec (fun _ _ => trivial) hexec
    have hnamed := (SignalWorld.released_close (SignalWorld.tracked_of_reach hreach) hstep).mp
      (hall s s' hreach hstep)
    exact (hnamed 124 ⟨hpending, huser⟩).1 hfd

end LibReactor
