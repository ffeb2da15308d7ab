import LibReactor.NetworkCancel

/-!
# Lookups and address lists

A host has at most one lookup in flight, and the entry of the host has what this lookup has stored.
A list that an entry has belongs to that entry alone until it is freed.
-/

namespace LibReactor

namespace Network

structure Lookups (cache : Bytes → Option NetworkCache) (lookups : List NetworkLookup) : Prop where
  async : ∀ key c n, cache key = some c → c.async = some n →
    ∃ l : NetworkLookup, lookups[n]? = some l ∧ l.key = key ∧ l.returned = false
  inFlight : ∀ (n : ℕ) (l : NetworkLookup), lookups[n]? = some l → l.returned = false →
    ∃ c, cache l.key = some c ∧ c.async = some n ∧ c.ai = l.result.join
  stored : ∀ (n : ℕ) (l : NetworkLookup), lookups[n]? = some l → l.returned = true → l.result ≠ none

variable {cache : Bytes → Option NetworkCache} {lookups : List NetworkLookup} {key : Bytes}
  {c : NetworkCache} {n n' : ℕ} {l l' : NetworkLookup}

theorem lookups_empty : Lookups (fun _ => none) [] := ⟨nofun, nofun, nofun⟩

/-- At most one lookup for a host is in flight. -/
theorem Lookups.unique (h : Lookups cache lookups) (hl : lookups[n]? = some l)
    (hl' : lookups[n']? = some l') (hkey : l.key = l'.key) (hreturned : l.returned = false)
    (hreturned' : l'.returned = false) : n = n' := by
  obtain ⟨c, hc, hasync, -⟩ := h.inFlight n l hl hreturned
  obtain ⟨c', hc', hasync', -⟩ := h.inFlight n' l' hl' hreturned'
  rw [← hkey] at hc'
  obtain rfl := Option.some.inj (hc.symm.trans hc')
  exact Option.some.inj (hasync.symm.trans hasync')

/-- A request joins the lookup in flight. -/
theorem Lookups.join (h : Lookups cache lookups) (hc : cache key = some c) (expire : ℕ) :
    Lookups (Function.update cache key (some { c with expire := expire })) lookups := by
  refine ⟨fun k d m hd hasync => ?_, fun m l hl hreturned => ?_, h.stored⟩
  · by_cases hk : k = key
    · rw [hk, Function.update_self] at hd
      obtain rfl := Option.some.inj hd
      exact hk ▸ h.async key c m hc hasync
    · rw [Function.update_of_ne hk] at hd
      exact h.async k d m hd hasync
  · obtain ⟨d, hd, hasync, hai⟩ := h.inFlight m l hl hreturned
    by_cases hk : l.key = key
    · rw [hk] at hd ⊢
      obtain rfl := Option.some.inj (hc.symm.trans hd)
      exact ⟨_, Function.update_self .., hasync, hai⟩
    · exact ⟨d, by rw [Function.update_of_ne hk, hd], hasync, hai⟩

/-- A lookup starts, for a host that has none in flight. -/
theorem Lookups.start (h : Lookups cache lookups)
    (hnone : ∀ c, cache key = some c → c.async = none) (expire : ℕ) :
    Lookups (Function.update cache key (some ⟨expire, none, some lookups.length⟩))
      (lookups ++ [⟨key, none, false⟩]) := by
  have hcases : ∀ (m : ℕ) (l : NetworkLookup), (lookups ++ [⟨key, none, false⟩])[m]? = some l →
      lookups[m]? = some l ∨ (m = lookups.length ∧ l = ⟨key, none, false⟩) := by
    intro m l hl
    rcases Nat.lt_or_ge m lookups.length with hlt | hge
    · exact .inl (by rwa [List.getElem?_append_left hlt] at hl)
    · rw [List.getElem?_append_right hge, List.getElem?_singleton] at hl
      split at hl
      · exact .inr ⟨by omega, (Option.some.inj hl).symm⟩
      · cases hl
  refine ⟨fun k d m hd hasync => ?_, fun m l hl hreturned => ?_, fun m l hl hreturned => ?_⟩
  · by_cases hk : k = key
    · rw [hk, Function.update_self] at hd
      obtain rfl := Option.some.inj hd
      obtain rfl := Option.some.inj hasync
      exact ⟨_, List.getElem?_concat_length, hk.symm, rfl⟩
    · rw [Function.update_of_ne hk] at hd
      obtain ⟨l, hl, hrest⟩ := h.async k d m hd hasync
      have hlt := (List.getElem?_eq_some_iff.mp hl).1
      exact ⟨l, by rw [List.getElem?_append_left hlt, hl], hrest⟩
  · rcases hcases m l hl with hold | ⟨rfl, rfl⟩
    · obtain ⟨d, hd, hasync, hai⟩ := h.inFlight m l hold hreturned
      have hk : l.key ≠ key := by
        intro hk
        rw [hnone d (hk ▸ hd)] at hasync
        cases hasync
      exact ⟨d, by rw [Function.update_of_ne hk, hd], hasync, hai⟩
    · exact ⟨_, Function.update_self .., rfl, rfl⟩
  · rcases hcases m l hl with hold | ⟨rfl, rfl⟩
    · exact h.stored m l hold hreturned
    · cases hreturned

/-- A lookup in flight changes, and the entry of its host with it. -/
theorem Lookups.change (h : Lookups cache lookups) (hl : lookups[n]? = some l)
    (hflight : l.returned = false) (hkey : l'.key = l.key)
    (hasync : ∀ m, c.async = some m → m = n ∧ l'.returned = false)
    (hreturned : l'.returned = false → c.async = some n ∧ c.ai = l'.result.join)
    (hstored : l'.returned = true → l'.result ≠ none) :
    Lookups (Function.update cache l.key (some c)) (lookups.set n l') := by
  have hlt := (List.getElem?_eq_some_iff.mp hl).1
  have hself : (lookups.set n l')[n]? = some l' := List.getElem?_set_self hlt
  have hother : ∀ m, n ≠ m → (lookups.set n l')[m]? = lookups[m]? := fun m hm =>
    List.getElem?_set_ne hm
  refine ⟨fun k d m hd hd' => ?_, fun m x hx hx' => ?_, fun m x hx hx' => ?_⟩
  · by_cases hk : k = l.key
    · rw [hk, Function.update_self] at hd
      obtain rfl := Option.some.inj hd
      obtain ⟨rfl, hl'⟩ := hasync m hd'
      exact ⟨l', hself, hkey.trans hk.symm, hl'⟩
    · rw [Function.update_of_ne hk] at hd
      obtain ⟨x, hx, hxkey, hrest⟩ := h.async k d m hd hd'
      have hm : n ≠ m := by
        rintro rfl
        obtain rfl := Option.some.inj (hl.symm.trans hx)
        exact hk hxkey.symm
      exact ⟨x, (hother m hm).trans hx, hxkey, hrest⟩
  · by_cases hm : n = m
    · rw [← hm, hself] at hx
      obtain rfl := Option.some.inj hx
      exact ⟨c, hkey ▸ Function.update_self .., hm ▸ hreturned hx'⟩
    · rw [hother m hm] at hx
      have hk : x.key ≠ l.key := fun hk => hm (h.unique hl hx hk.symm hflight hx')
      obtain ⟨d, hd, hrest⟩ := h.inFlight m x hx hx'
      exact ⟨d, (Function.update_of_ne hk ..).trans hd, hrest⟩
  · by_cases hm : n = m
    · rw [← hm, hself] at hx
      obtain rfl := Option.some.inj hx
      exact hstored hx'
    · exact h.stored m x ((hother m hm).symm.trans hx) hx'

/-- A worker stores its result. -/
theorem Lookups.store (h : Lookups cache lookups) (hl : lookups[n]? = some l)
    (hresult : l.result = none) (ai : Option ℕ) :
    Lookups (Function.update cache l.key ((cache l.key).map fun c => { c with ai := ai }))
      (lookups.set n { l with result := some ai }) := by
  have hreturned : l.returned = false := Bool.eq_false_iff.mpr fun hreturned =>
    h.stored n l hl hreturned hresult
  obtain ⟨c, hc, hasync, -⟩ := h.inFlight n l hl hreturned
  rw [hc, Option.map_some]
  exact h.change hl hreturned rfl
    (fun m hm => ⟨Option.some.inj (hm.symm.trans hasync), hreturned⟩) (fun _ => ⟨hasync, rfl⟩)
    fun _ => Option.some_ne_none ai

/-- The event loop learns that a lookup has ended. -/
theorem Lookups.return (h : Lookups cache lookups) (hl : lookups[n]? = some l)
    (hreturned : l.returned = false) (hresult : l.result ≠ none) (expire : ℕ) :
    Lookups (Function.update cache l.key
        ((cache l.key).map fun c => { c with async := none, expire := expire }))
      (lookups.set n { l with returned := true }) := by
  obtain ⟨c, hc, -, -⟩ := h.inFlight n l hl hreturned
  rw [hc, Option.map_some]
  exact h.change hl hreturned rfl (fun _ hm => by cases hm) (fun hl' => by cases hl')
    fun _ => hresult

/-! ## Address lists -/

def cachedList (cache : Bytes → Option NetworkCache) (key : Bytes) : Option ℕ :=
  (cache key).bind NetworkCache.ai

/-- The lists of the entries are apart from one another and from `out`, those that are freed or
about to be. -/
structure Lists (ai : Bytes → Option ℕ) (lists : ℕ) (out : List ℕ) : Prop where
  once : out.Nodup
  below : ∀ a ∈ out, a < lists
  kept : ∀ key a, ai key = some a → a < lists ∧ a ∉ out
  alone : ∀ key key' a, ai key = some a → ai key' = some a → key = key'

variable {ai ai' : Bytes → Option ℕ} {lists : ℕ} {out out' : List ℕ}

theorem lists_empty : Lists (fun _ => none) 0 [] := ⟨List.nodup_nil, nofun, nofun, nofun⟩

theorem Lists.congr (h : Lists ai lists out) (hai : ∀ key, ai' key = ai key)
    (hperm : out'.Perm out) : Lists ai' lists out' := by
  obtain rfl : ai' = ai := funext hai
  exact ⟨hperm.nodup_iff.mpr h.once, fun a ha => h.below a (hperm.mem_iff.mp ha),
    fun key a ha => ⟨(h.kept key a ha).1, fun hmem => (h.kept key a ha).2 (hperm.mem_iff.mp hmem)⟩,
    h.alone⟩

theorem Lists.borrow (h : Lists ai lists out) : Lists ai (lists + 1) (lists :: out) where
  once := List.nodup_cons.mpr ⟨fun hmem => Nat.lt_irrefl _ (h.below _ hmem), h.once⟩
  below a ha := by
    rcases List.mem_cons.mp ha with rfl | ha
    · exact Nat.lt_succ_self _
    · exact Nat.lt_succ_of_lt (h.below a ha)
  kept key a ha := by
    obtain ⟨hlt, hnot⟩ := h.kept key a ha
    refine ⟨Nat.lt_succ_of_lt hlt, fun hmem => ?_⟩
    rcases List.mem_cons.mp hmem with rfl | hmem
    · exact Nat.lt_irrefl _ hlt
    · exact hnot hmem
  alone := h.alone

theorem Lists.keep (h : Lists ai lists out) (key : Bytes) :
    Lists (Function.update ai key (some lists)) (lists + 1) out := by
  have hcases : ∀ k a, Function.update ai key (some lists) k = some a →
      (k = key ∧ a = lists) ∨ (k ≠ key ∧ ai k = some a) := by
    intro k a ha
    by_cases hk : k = key
    · rw [hk, Function.update_self] at ha
      exact .inl ⟨hk, (Option.some.inj ha).symm⟩
    · rw [Function.update_of_ne hk] at ha
      exact .inr ⟨hk, ha⟩
  refine ⟨h.once, fun a ha => Nat.lt_succ_of_lt (h.below a ha), fun k a ha => ?_,
    fun k k' a ha ha' => ?_⟩
  · rcases hcases k a ha with ⟨-, rfl⟩ | ⟨-, ha⟩
    · exact ⟨Nat.lt_succ_self _, fun hmem => Nat.lt_irrefl _ (h.below _ hmem)⟩
    · exact ⟨Nat.lt_succ_of_lt (h.kept k a ha).1, (h.kept k a ha).2⟩
  · rcases hcases k a ha with ⟨hk, heq⟩ | ⟨-, hold⟩
    · rcases hcases k' a ha' with ⟨hk', -⟩ | ⟨-, hold'⟩
      · exact hk.trans hk'.symm
      · exact absurd (h.kept k' a hold').1 (Nat.not_lt.mpr (Nat.le_of_eq heq.symm))
    · rcases hcases k' a ha' with ⟨-, heq⟩ | ⟨-, hold'⟩
      · exact absurd (h.kept k a hold).1 (Nat.not_lt.mpr (Nat.le_of_eq heq.symm))
      · exact h.alone k k' a hold hold'

theorem Lists.drop (h : Lists ai lists out) (key : Bytes) :
    Lists (Function.update ai key none) lists (out ++ (ai key).toList) := by
  have hcases : ∀ k a, Function.update ai key none k = some a → k ≠ key ∧ ai k = some a := by
    intro k a ha
    by_cases hk : k = key
    · rw [hk, Function.update_self] at ha
      cases ha
    · rw [Function.update_of_ne hk] at ha
      exact ⟨hk, ha⟩
  refine ⟨?_, fun a ha => ?_, fun k a ha => ?_, fun k k' a ha ha' => ?_⟩
  · refine List.nodup_append'.mpr ⟨h.once, Option.toList_nodup _, fun a ha ha' => ?_⟩
    exact (h.kept key a (Option.mem_toList.mp ha')).2 ha
  · rcases List.mem_append.mp ha with ha | ha
    · exact h.below a ha
    · exact (h.kept key a (Option.mem_toList.mp ha)).1
  · obtain ⟨hk, ha⟩ := hcases k a ha
    refine ⟨(h.kept k a ha).1, fun hmem => ?_⟩
    rcases List.mem_append.mp hmem with hmem | hmem
    · exact (h.kept k a ha).2 hmem
    · exact hk (h.alone k key a ha (Option.mem_toList.mp hmem))
  · exact h.alone k k' a (hcases k a ha).2 (hcases k' a ha').2

end Network

end LibReactor
