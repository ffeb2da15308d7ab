import LibReactor.RefCount

/-!
# The invariant of the reference counts

The count of a value is what the client holds, the slots that refer to it, and the
references that are still to be released. A release gives back every value it destroys
once, and keeps the values that something outside the destroyed ones refers to.
-/

namespace LibReactor

open Transition

namespace Heap

/-! ## Slots -/

theorem count_flatten_set {kids : List (List Ref)} {a : ℕ} {ks : List Ref}
    (ha : kids[a]? = some ks) (ks' : List Ref) (r : Ref) :
    (kids.set a ks').flatten.count r + ks.count r = kids.flatten.count r + ks'.count r := by
  induction kids generalizing a with
  | nil => cases ha
  | cons k kids ih =>
    cases a with
    | zero =>
      obtain rfl : k = ks := Option.some.inj ha
      simp only [List.set_cons_zero, List.flatten_cons, List.count_append]
      omega
    | succ a =>
      have := ih (a := a) ha
      simp only [List.set_cons_succ, List.flatten_cons, List.count_append]
      omega

def alive (h : Heap) : ℕ := h.cells.countP (fun c => c.any (fun c => c.ref ≠ 0))

def slotsOf : Option Cell → List Ref
  | some c => c.content.refs
  | none => []

/-- The ledger of a heap: `kids` are the slots by their container, `pending` what is still to be
released. The slots of a container with a hole are not those it has. A safe value is one that the
client or a slot of a safe value refers to. -/
structure Accounts (h : Heap) (holds : ℕ → ℕ) (kids : List (List Ref)) (pending : List Ref)
    (hole safe : ℕ → Prop) : Prop where
  length : kids.length = h.cells.length
  count : ∀ (a : ℕ) (c : Cell), h.cells[a]? = some (some c) →
    c.ref = holds a + kids.flatten.count (.heap a) + pending.count (.heap a)
  present : ∀ a : ℕ, 0 < holds a + kids.flatten.count (.heap a) + pending.count (.heap a) →
    ∃ c : Cell, h.cells[a]? = some (some c)
  content : ∀ (a : ℕ) (c : Cell), h.cells[a]? = some (some c) → c.ref ≠ 0 → ¬hole a →
    kids[a]? = some c.content.refs
  empty : ∀ (a : ℕ) ks, kids[a]? = some ks → (∀ c : Cell, h.cells[a]? = some (some c) → c.ref = 0) →
    ks = []
  supported : ∀ a, safe a → 0 < holds a ∨ ∃ (b : ℕ) (ks : List Ref), safe b ∧
    kids[b]? = some ks ∧ .heap a ∈ ks
  holeSafe : ∀ a, hole a → safe a
  nodup : h.destroyed.Nodup
  destroyed : ∀ a : ℕ, a ∈ h.destroyed ↔ h.cells[a]? = some none

structure Released (h h' : Heap) (kids kids' : List (List Ref)) (safe : ℕ → Prop) : Prop where
  length : h'.cells.length = h.cells.length
  content : ∀ (a : ℕ) (c' : Cell), h'.cells[a]? = some (some c') →
    ∃ c : Cell, h.cells[a]? = some (some c) ∧ c'.content = c.content
  dying : ∀ (a : ℕ) (c : Cell), c.ref = 0 →
    (h.cells[a]? = some (some c) ↔ h'.cells[a]? = some (some c))
  kept : ∀ b : ℕ, safe b → kids'[b]? = kids[b]?
  alive : h'.alive ≤ h.alive

variable {h h' h'' : Heap} {holds : ℕ → ℕ} {kids kids' kids'' : List (List Ref)}
  {pending : List Ref} {hole safe : ℕ → Prop}

theorem Released.refl (h : Heap) (kids : List (List Ref)) (safe : ℕ → Prop) :
    Released h h kids kids safe :=
  ⟨rfl, fun _ c hc => ⟨c, hc, rfl⟩, fun _ _ _ => Iff.rfl, fun _ _ => rfl, Nat.le_refl _⟩

theorem Released.trans (h₁ : Released h h' kids kids' safe)
    (h₂ : Released h' h'' kids' kids'' safe) :
    Released h h'' kids kids'' safe where
  length := h₂.length.trans h₁.length
  content a c'' hc'' := by
    obtain ⟨c', hc', heq'⟩ := h₂.content a c'' hc''
    obtain ⟨c, hc, heq⟩ := h₁.content a c' hc'
    exact ⟨c, hc, heq'.trans heq⟩
  dying a c hc := (h₁.dying a c hc).trans (h₂.dying a c hc)
  kept b hb := (h₂.kept b hb).trans (h₁.kept b hb)
  alive := Nat.le_trans h₂.alive h₁.alive

/-! ## Cells -/

theorem cell_eq {a : ℕ} {c : Cell} (hc : h.cells[a]? = some (some c)) : h.cell a = .ok c := by
  rw [cell, hc]

theorem getElem?_store {a : ℕ} {c : Cell} (hc : h.cells[a]? = some (some c)) (c' : Cell) (b : ℕ) :
    (h.store a c').cells[b]? = if a = b then some (some c') else h.cells[b]? := by
  obtain ⟨hlt, -⟩ := List.getElem?_eq_some_iff.mp hc
  rw [store, List.getElem?_set]
  split_ifs with hab
  · rfl
  · rfl

theorem alive_store {a : ℕ} {c : Cell} (hc : h.cells[a]? = some (some c)) (c' : Cell) :
    (h.store a c').alive + (if c.ref ≠ 0 then 1 else 0) =
      h.alive + if c'.ref ≠ 0 then 1 else 0 := by
  obtain ⟨hlt, hget⟩ := List.getElem?_eq_some_iff.mp hc
  have hpos : c.ref ≠ 0 → 0 < h.alive := by
    intro hne
    refine List.countP_pos_iff.mpr ⟨some c, List.mem_of_getElem? hc, ?_⟩
    simpa using hne
  have hset := List.countP_set (p := fun c : Option Cell => c.any (fun c => c.ref ≠ 0))
    (a := some c') hlt
  rw [hget] at hset
  unfold alive at hpos ⊢
  rw [store, hset]
  simp only [Option.any_some, decide_eq_true_eq]
  split_ifs <;> omega

/-! ## Releasing -/

theorem Accounts.pending_cell {a : ℕ}
    (H : Accounts h holds kids (.heap a :: pending) hole safe) :
    ∃ c : Cell, h.cells[a]? = some (some c) ∧
      c.ref = holds a + kids.flatten.count (.heap a) + pending.count (.heap a) + 1 := by
  obtain ⟨c, hc⟩ := H.present a (by rw [List.count_cons_self]; omega)
  have hcount := H.count a c hc
  rw [List.count_cons_self] at hcount
  exact ⟨c, hc, by omega⟩

theorem Accounts.congr {pending' : List Ref} (H : Accounts h holds kids pending hole safe)
    (hcount : ∀ a, pending'.count (.heap a) = pending.count (.heap a)) :
    Accounts h holds kids pending' hole safe := by
  refine { H with count := fun a c hc => ?_, present := fun a ha => ?_ }
  · rw [hcount]
    exact H.count a c hc
  · rw [hcount] at ha
    exact H.present a ha

theorem Accounts.setRef (H : Accounts h holds kids pending hole safe) {a : ℕ} {c : Cell}
    (hc : h.cells[a]? = some (some c)) (hpos : c.ref ≠ 0) {n : ℕ} (hn : n ≠ 0)
    {pending' : List Ref}
    (hcount : n = holds a + kids.flatten.count (.heap a) + pending'.count (.heap a))
    (hother : ∀ b, b ≠ a → pending'.count (.heap b) = pending.count (.heap b)) :
    Accounts (h.store a { c with ref := n }) holds kids pending' hole safe := by
  have hget : ∀ b : ℕ, (h.store a { c with ref := n }).cells[b]? =
      if a = b then some (some { c with ref := n }) else h.cells[b]? :=
    getElem?_store hc _
  refine { H with
    length := ?_
    count := fun b c' hc' => ?_
    present := fun b hb => ?_
    content := fun b c' hc' hne hb => ?_
    empty := fun b ks hb hdying => ?_
    destroyed := fun b => ?_ }
  · rw [H.length, store, List.length_set]
  · rw [hget] at hc'
    split_ifs at hc' with hab
    · cases hc'
      rw [← hab]
      exact hcount
    · rw [hother b (Ne.symm hab)]
      exact H.count b c' hc'
  · rw [hget]
    split_ifs with hab
    · exact ⟨_, rfl⟩
    · rw [hother b (Ne.symm hab)] at hb
      exact H.present b hb
  · rw [hget] at hc'
    split_ifs at hc' with hab
    · cases hc'
      rw [← hab] at hb ⊢
      exact H.content a c hc hpos hb
    · exact H.content b c' hc' hne hb
  · by_cases hab : a = b
    · exact absurd (hdying _ (by rw [hget, if_pos hab])) hn
    · refine H.empty b ks hb fun c' hc' => hdying c' ?_
      rw [hget, if_neg hab]
      exact hc'
  · rw [hget]
    split_ifs with hab
    · rw [← hab]
      constructor
      · intro hmem
        rw [(H.destroyed a).mp hmem] at hc
        cases hc
      · intro heq
        cases heq
    · exact H.destroyed b

/-- A value whose last reference goes is not safe, and its slots are to be released. -/
theorem Accounts.die {a : ℕ} (H : Accounts h holds kids (.heap a :: pending) hole safe)
    {c : Cell} (hc : h.cells[a]? = some (some c)) (hlast : c.ref = 1) :
    ¬safe a ∧ Accounts (h.store a { c with ref := 0 }) holds (kids.set a [])
      (c.content.refs ++ pending) hole safe := by
  have hcount := H.count a c hc
  rw [hlast, List.count_cons_self] at hcount
  have hholds : holds a = 0 := by omega
  have hkids : kids.flatten.count (.heap a) = 0 := by omega
  have hnotSafe : ¬safe a := by
    intro hsafe
    rcases H.supported a hsafe with hpos | ⟨b, ks, -, hb, hmem⟩
    · omega
    · refine absurd hkids (Nat.ne_of_gt (List.count_pos_iff.mpr ?_))
      exact List.mem_flatten.mpr ⟨ks, List.mem_of_getElem? hb, hmem⟩
  have hrefs : kids[a]? = some c.content.refs :=
    H.content a c hc (by omega) (fun hhole => hnotSafe (H.holeSafe a hhole))
  have hget : ∀ b : ℕ, (h.store a { c with ref := 0 }).cells[b]? =
      if a = b then some (some { c with ref := 0 }) else h.cells[b]? :=
    getElem?_store hc _
  have hset : ∀ b : ℕ, (kids.set a [])[b]? = if a = b then some [] else kids[b]? := by
    intro b
    obtain ⟨hlt, -⟩ := List.getElem?_eq_some_iff.mp hrefs
    rw [List.getElem?_set]
    split_ifs <;> rfl
  have htotal : ∀ b, (kids.set a []).flatten.count (.heap b) +
      (c.content.refs ++ pending).count (.heap b) =
        kids.flatten.count (.heap b) + pending.count (.heap b) := by
    intro b
    have := count_flatten_set hrefs [] (.heap b)
    rw [List.count_nil] at this
    rw [List.count_append]
    omega
  have hcons : ∀ b, b ≠ a → (Ref.heap a :: pending).count (.heap b) = pending.count (.heap b) :=
    fun b hb => List.count_cons_of_ne fun heq => hb (Ref.heap.inj heq).symm
  refine ⟨hnotSafe, { H with
    length := ?_
    count := fun b c' hc' => ?_
    present := fun b hb => ?_
    content := fun b c' hc' hne hb => ?_
    empty := fun b ks hb hdying => ?_
    supported := fun b hb => ?_
    destroyed := fun b => ?_ }⟩
  · rw [List.length_set, H.length, store, List.length_set]
  · rw [hget] at hc'
    have := htotal b
    split_ifs at hc' with hab
    · cases hc'
      rw [← hab] at this ⊢
      dsimp only
      omega
    · have hb := H.count b c' hc'
      rw [hcons b (Ne.symm hab)] at hb
      omega
  · rw [hget]
    split_ifs with hab
    · exact ⟨_, rfl⟩
    · refine H.present b ?_
      have := htotal b
      rw [hcons b (Ne.symm hab)]
      omega
  · rw [hget] at hc'
    rw [hset]
    split_ifs at hc' with hab
    · cases hc'
      exact absurd rfl hne
    · rw [if_neg hab]
      exact H.content b c' hc' hne hb
  · rw [hset] at hb
    split_ifs at hb with hab
    · exact (Option.some.inj hb).symm
    · refine H.empty b ks hb fun c' hc' => hdying c' ?_
      rw [hget, if_neg hab]
      exact hc'
  · rcases H.supported b hb with hpos | ⟨d, ks, hd, hks, hmem⟩
    · exact .inl hpos
    · refine .inr ⟨d, ks, hd, ?_, hmem⟩
      have hne : ¬a = d := by
        rintro rfl
        exact hnotSafe hd
      rw [hset, if_neg hne]
      exact hks
  · rw [hget]
    split_ifs with hab
    · rw [← hab]
      constructor
      · intro hmem
        rw [(H.destroyed a).mp hmem] at hc
        cases hc
      · intro heq
        cases heq
    · exact H.destroyed b

/-- A value without a reference is freed once. -/
theorem Accounts.free {a : ℕ} (H : Accounts h holds kids pending hole safe) {c : Cell}
    (hc : h.cells[a]? = some (some c)) (hzero : c.ref = 0) :
    ∃ h', h.free a = .ok h' ∧ Accounts h' holds kids pending hole safe ∧
      (∀ b : ℕ, h'.cells[b]? = if a = b then some none else h.cells[b]?) ∧ h'.alive ≤ h.alive := by
  obtain ⟨hlt, hself⟩ := List.getElem?_eq_some_iff.mp hc
  have hget : ∀ b : ℕ, (h.cells.set a none)[b]? = if a = b then some none else h.cells[b]? := by
    intro b
    rw [List.getElem?_set]
    split_ifs <;> rfl
  have halive : (h.cells.set a none).countP (fun c => c.any (fun c => c.ref ≠ 0)) ≤ h.alive := by
    rw [List.countP_set hlt, Option.any_none, if_neg Bool.false_ne_true, Nat.add_zero]
    exact Nat.sub_le _ _
  have hcount := H.count a c hc
  refine ⟨⟨h.cells.set a none, h.destroyed ++ [a]⟩, ?_, { H with
    length := ?_
    count := fun b c' hc' => ?_
    present := fun b hb => ?_
    content := fun b c' hc' hne hb => ?_
    empty := fun b ks hb hdying => ?_
    nodup := ?_
    destroyed := fun b => ?_ }, hget, halive⟩
  · simp only [Heap.free, cell_eq hc, ok_bind, pure_eq_ok]
  · rw [H.length, List.length_set]
  · rw [hget] at hc'
    split_ifs at hc'
    · cases hc'
    · exact H.count b c' hc'
  · have hab : ¬a = b := by
      rintro rfl
      omega
    rw [hget, if_neg hab]
    exact H.present b hb
  · rw [hget] at hc'
    split_ifs at hc'
    · cases hc'
    · exact H.content b c' hc' hne hb
  · refine H.empty b ks hb fun c' hc' => ?_
    by_cases hab : a = b
    · rw [← hab, hc] at hc'
      cases hc'
      exact hzero
    · exact hdying c' (by rw [hget, if_neg hab]; exact hc')
  · rw [List.nodup_append]
    refine ⟨H.nodup, by simp, fun b hb b' hb' heq => ?_⟩
    rw [heq, List.mem_singleton.mp hb'] at hb
    rw [(H.destroyed a).mp hb] at hc
    cases hc
  · rw [hget, List.mem_append, List.mem_singleton]
    split_ifs with hab
    · simp [hab]
    · rw [← H.destroyed b]
      exact ⟨fun hb => hb.resolve_right (fun hba => hab hba.symm), .inl⟩

theorem released_store {a : ℕ} {c : Cell} (hc : h.cells[a]? = some (some c)) (hpos : c.ref ≠ 0)
    {n : ℕ} (hn : n ≠ 0) : Released h (h.store a { c with ref := n }) kids kids safe := by
  have hget : ∀ b : ℕ, (h.store a { c with ref := n }).cells[b]? =
      if a = b then some (some { c with ref := n }) else h.cells[b]? :=
    getElem?_store hc _
  refine ⟨?_, fun b c' hc' => ?_, fun b c' hzero => ?_, fun _ _ => rfl, ?_⟩
  · rw [store, List.length_set]
  · rw [hget] at hc'
    split_ifs at hc' with hab
    · cases hc'
      exact ⟨c, hab ▸ hc, rfl⟩
    · exact ⟨c', hc', rfl⟩
  · rw [hget]
    split_ifs with hab
    · rw [← hab, hc]
      constructor
      · rintro ⟨⟩
        exact absurd hzero hpos
      · rintro ⟨⟩
        exact absurd hzero hn
    · exact Iff.rfl
  · have := alive_store hc { c with ref := n }
    rw [if_pos hpos, if_pos hn] at this
    omega

/-- The spec of `value_release`: it ends, it keeps the ledger, and it leaves what is safe. -/
theorem Accounts.release (depth : ℕ) {r : Ref}
    (H : Accounts h holds kids (r :: pending) hole safe) (hdepth : h.alive < depth) :
    ∃ h' kids', valueReleaseNested depth h r = .ok h' ∧ Accounts h' holds kids' pending hole safe ∧
      Released h h' kids kids' safe := by
  induction depth generalizing h kids r pending with
  | zero => omega
  | succ depth ih =>
    cases r with
    | undefined => exact ⟨h, kids, rfl, H.congr fun a => rfl, .refl h kids safe⟩
    | null => exact ⟨h, kids, rfl, H.congr fun a => rfl, .refl h kids safe⟩
    | heap a =>
      obtain ⟨c, hc, hcount⟩ := H.pending_cell
      have hpos : c.ref ≠ 0 := by omega
      by_cases hlast : c.ref - 1 = 0
      · -- the references in the slots are released one after the other
        have hlist : ∀ rs pending {h : Heap} {kids : List (List Ref)},
            Accounts h holds kids (rs ++ pending) hole safe → h.alive < depth →
            ∃ h' kids', rs.foldlM (valueReleaseNested depth) h = .ok h' ∧
              Accounts h' holds kids' pending hole safe ∧ Released h h' kids kids' safe := by
          intro rs
          induction rs with
          | nil => exact fun pending h kids H _ => ⟨h, kids, rfl, H, .refl h kids safe⟩
          | cons r rs ihlist =>
            intro pending h kids H hdepth
            obtain ⟨h₁, kids₁, hrun₁, H₁, hreleased₁⟩ := ih H hdepth
            obtain ⟨h₂, kids₂, hrun₂, H₂, hreleased₂⟩ := ihlist pending H₁
              (Nat.lt_of_le_of_lt hreleased₁.alive hdepth)
            refine ⟨h₂, kids₂, ?_, H₂, hreleased₁.trans hreleased₂⟩
            rw [List.foldlM_cons, hrun₁, ok_bind, hrun₂]
        obtain ⟨hnotSafe, H₁⟩ := H.die hc (by omega)
        have halive := alive_store hc { c with ref := 0 }
        rw [if_pos hpos, if_neg (by simp)] at halive
        obtain ⟨h₂, kids₂, hrun, H₂, hreleased⟩ := hlist c.content.refs pending H₁ (by omega)
        have hstore :
            (h.store a { c with ref := 0 }).cells[a]? = some (some { c with ref := 0 }) := by
          rw [getElem?_store hc, if_pos rfl]
        have hc₂ := (hreleased.dying a { c with ref := 0 } rfl).mp hstore
        obtain ⟨h₃, hfree, H₃, hget, halive₃⟩ := H₂.free hc₂ rfl
        refine ⟨h₃, kids₂, ?_, H₃, ?_⟩
        · simp only [valueReleaseNested, cell_eq hc, ok_bind, if_neg hpos, hlast, ne_eq,
            not_true_eq_false, if_false, hrun, hfree]
        · refine ⟨H₃.length.symm.trans (H₂.length.trans (hreleased.length.trans ?_)), ?_, ?_, ?_,
            by have := hreleased.alive; omega⟩
          · rw [store, List.length_set]
          · intro b c' hc'
            rw [hget] at hc'
            split_ifs at hc' with hab
            · cases hc'
            · obtain ⟨c₁, hc₁, heq⟩ := hreleased.content b c' hc'
              rw [getElem?_store hc, if_neg hab] at hc₁
              exact ⟨c₁, hc₁, heq⟩
          · intro b c' hzero
            rw [hget]
            split_ifs with hab
            · rw [← hab, hc]
              constructor
              · rintro ⟨⟩
                exact absurd hzero hpos
              · rintro ⟨⟩
            · rw [← hreleased.dying b c' hzero, getElem?_store hc, if_neg hab]
          · intro b hb
            have hab : ¬a = b := by
              rintro rfl
              exact hnotSafe hb
            rw [hreleased.kept b hb, List.getElem?_set_ne hab]
      · refine ⟨_, kids, ?_, H.setRef hc hpos hlast (by omega) fun b hb => ?_,
          released_store hc hpos hlast⟩
        · simp only [valueReleaseNested, cell_eq hc, ok_bind, if_neg hpos, ne_eq, hlast,
            not_false_eq_true, if_true, pure_eq_ok]
        · exact (List.count_cons_of_ne fun heq => hb (Ref.heap.inj heq).symm).symm

/-! ## Between two calls -/

def InUse (h : Heap) : Prop := ∀ (a : ℕ) (c : Cell), h.cells[a]? = some (some c) → c.ref ≠ 0

/-- Between two calls: nothing is pending and the slots are those of the heap. -/
structure Balanced (h : Heap) (holds : ℕ → ℕ) : Prop where
  accounts : Accounts h holds (h.cells.map slotsOf) [] (fun _ => False) (fun _ => False)
  inUse : h.InUse

theorem Accounts.balanced (H : Accounts h holds kids [] (fun _ => False) safe) (hinUse : h.InUse) :
    h.Balanced holds := by
  have hkids : kids = h.cells.map slotsOf := by
    refine List.ext_getElem? fun a => ?_
    rw [List.getElem?_map]
    cases hcell : h.cells[a]? with
    | none =>
      rw [List.getElem?_eq_none_iff] at hcell
      rw [List.getElem?_eq_none (by rw [H.length]; exact hcell), Option.map_none]
    | some c =>
      cases c with
      | some c => exact H.content a c hcell (hinUse a c hcell) not_false
      | none =>
        have hlt : a < kids.length := by
          obtain ⟨hlt, -⟩ := List.getElem?_eq_some_iff.mp hcell
          rw [H.length]
          exact hlt
        have hks := List.getElem?_eq_getElem hlt
        rw [hks, H.empty a _ hks (fun c hc => by rw [hcell] at hc; cases hc)]
        rfl
  exact ⟨hkids ▸ { H with supported := fun _ hf => hf.elim, holeSafe := fun _ hf => hf.elim },
    hinUse⟩

theorem getElem?_slots {a : ℕ} {c : Cell}
    (hc : h.cells[a]? = some (some c)) : (h.cells.map slotsOf)[a]? = some c.content.refs := by
  rw [List.getElem?_map, hc]
  rfl

theorem alive_le (h : Heap) : h.alive < h.cells.length + 1 :=
  Nat.lt_succ_of_le List.countP_le_length

/-- The client or a slot takes over a pending reference. -/
theorem Accounts.keep {a : ℕ} (H : Accounts h holds kids (.heap a :: pending) hole safe) :
    Accounts h (Function.update holds a (holds a + 1)) kids pending hole safe := by
  have htotal : ∀ b, Function.update holds a (holds a + 1) b + pending.count (.heap b) =
      holds b + (Ref.heap a :: pending).count (.heap b) := by
    intro b
    rw [Function.update_apply]
    split_ifs with hab
    · rw [hab, List.count_cons_self]
      omega
    · rw [List.count_cons_of_ne fun heq => hab (Ref.heap.inj heq).symm]
  refine { H with
    count := fun b c hc => ?_
    present := fun b hb => ?_
    supported := fun b hb => ?_ }
  · have := H.count b c hc
    have := htotal b
    omega
  · refine H.present b ?_
    have := htotal b
    omega
  · refine (H.supported b hb).imp_left fun hpos => ?_
    rw [Function.update_apply]
    split_ifs <;> omega

/-- The client gives up a reference that it holds. -/
theorem Accounts.giveUp {a : ℕ}
    (H : Accounts h holds kids pending (fun _ => False) (fun _ => False))
    (hpos : 0 < holds a) :
    Accounts h (Function.update holds a (holds a - 1)) kids (.heap a :: pending)
      (fun _ => False) (fun _ => False) := by
  have htotal : ∀ b, Function.update holds a (holds a - 1) b +
      (Ref.heap a :: pending).count (.heap b) = holds b + pending.count (.heap b) := by
    intro b
    rw [Function.update_apply]
    split_ifs with hab
    · rw [hab, List.count_cons_self]
      omega
    · rw [List.count_cons_of_ne fun heq => hab (Ref.heap.inj heq).symm]
  refine { H with
    count := fun b c hc => ?_
    present := fun b hb => ?_
    supported := fun _ hf => hf.elim }
  · have := H.count b c hc
    have := htotal b
    omega
  · refine H.present b ?_
    have := htotal b
    omega

/-- The slots of a container get what is pending, or lose it. -/
theorem Accounts.put (H : Accounts h holds kids pending hole safe) {a : ℕ} {c : Cell}
    (hc : h.cells[a]? = some (some c)) (hpos : c.ref ≠ 0) (hhole : ∀ b, b ≠ a → ¬hole b)
    {ks : List Ref} (hks : kids[a]? = some ks) (content : Content) (pending' : List Ref)
    (hcount : ∀ b, ks.count (.heap b) + pending.count (.heap b) =
      content.refs.count (.heap b) + pending'.count (.heap b)) :
    Accounts (h.store a { c with content := content }) holds (kids.set a content.refs) pending'
      (fun _ => False) (fun _ => False) := by
  have hget : ∀ b : ℕ, (h.store a { c with content := content }).cells[b]? =
      if a = b then some (some { c with content := content }) else h.cells[b]? :=
    getElem?_store hc _
  have hset : ∀ b : ℕ, (kids.set a content.refs)[b]? =
      if a = b then some content.refs else kids[b]? := by
    intro b
    obtain ⟨hlt, -⟩ := List.getElem?_eq_some_iff.mp hks
    rw [List.getElem?_set]
    split_ifs <;> rfl
  have htotal : ∀ b, (kids.set a content.refs).flatten.count (.heap b) +
      pending'.count (.heap b) = kids.flatten.count (.heap b) + pending.count (.heap b) := by
    intro b
    have := count_flatten_set hks content.refs (.heap b)
    have := hcount b
    omega
  refine {
    length := ?_
    count := fun b c' hc' => ?_
    present := fun b hb => ?_
    content := fun b c' hc' hne _ => ?_
    empty := fun b ks hb hdying => ?_
    supported := fun _ hf => hf.elim
    holeSafe := fun _ hf => hf.elim
    nodup := H.nodup
    destroyed := fun b => ?_ }
  · rw [List.length_set, H.length, store, List.length_set]
  · have := htotal b
    rw [hget] at hc'
    split_ifs at hc' with hab
    · cases hc'
      subst hab
      have := H.count a c hc
      dsimp only
      omega
    · have := H.count b c' hc'
      omega
  · rw [hget]
    split_ifs with hab
    · exact ⟨_, rfl⟩
    · refine H.present b ?_
      have := htotal b
      omega
  · rw [hget] at hc'
    rw [hset]
    split_ifs at hc' with hab
    · cases hc'
      rw [if_pos hab]
    · rw [if_neg hab]
      exact H.content b c' hc' hne (hhole b (Ne.symm hab))
  · by_cases hab : a = b
    · exact absurd (hdying { c with content := content } (by rw [hget, if_pos hab])) hpos
    · rw [hset, if_neg hab] at hb
      refine H.empty b ks hb fun c' hc' => hdying c' ?_
      rw [hget, if_neg hab]
      exact hc'
  · rw [hget]
    split_ifs with hab
    · rw [← hab]
      constructor
      · intro hmem
        rw [(H.destroyed a).mp hmem] at hc
        cases hc
      · intro heq
        cases heq
    · exact H.destroyed b

/-! ## The calls -/

theorem Accounts.live (H : Accounts h holds kids pending hole safe) {a : ℕ} (ha : safe a) :
    ∃ c : Cell, h.cells[a]? = some (some c) ∧ c.ref ≠ 0 := by
  have hpos : 0 < holds a + kids.flatten.count (.heap a) := by
    rcases H.supported a ha with hpos | ⟨b, ks, -, hks, hmem⟩
    · omega
    · have : 0 < kids.flatten.count (.heap a) :=
        List.count_pos_iff.mpr (List.mem_flatten_of_mem (List.mem_of_getElem? hks) hmem)
      omega
  obtain ⟨c, hc⟩ := H.present a (by omega)
  have := H.count a c hc
  exact ⟨c, hc, by omega⟩

theorem Accounts.valueHold (H : Accounts h holds kids pending hole safe) {r : Ref}
    (hlive : ∀ a, r = .heap a → ∃ c : Cell, h.cells[a]? = some (some c) ∧ c.ref ≠ 0) :
    ∃ h', h.valueHold r = .ok h' ∧ Accounts h' holds kids (r :: pending) hole safe ∧
      Released h h' kids kids safe := by
  cases r with
  | undefined => exact ⟨h, rfl, H.congr fun a => rfl, .refl h kids safe⟩
  | null => exact ⟨h, rfl, H.congr fun a => rfl, .refl h kids safe⟩
  | heap a =>
    obtain ⟨c, hc, hpos⟩ := hlive a rfl
    have hcount := H.count a c hc
    refine ⟨_, ?_, H.setRef hc hpos (Nat.succ_ne_zero c.ref) ?_ fun b hb => ?_,
      released_store hc hpos (Nat.succ_ne_zero c.ref)⟩
    · simp only [Heap.valueHold, cell_eq hc, ok_bind, ne_eq, hpos, not_false_eq_true, if_true,
        pure_eq_ok]
    · rw [List.count_cons_self]
      omega
    · exact List.count_cons_of_ne fun heq => hb (Ref.heap.inj heq).symm

theorem Released.inUse (hreleased : Released h h' kids kids' safe) (hinUse : h.InUse) :
    h'.InUse := by
  intro a c hc hzero
  exact hinUse a c ((hreleased.dying a c hzero).mpr hc) hzero

/-- A value to which only destroyed values lead, when the slots are these. -/
inductive Doomed (holds : ℕ → ℕ) (kids : List (List Ref)) : ℕ → Prop
  | intro {a : ℕ} : holds a = 0 →
      (∀ (b : ℕ) (ks : List Ref), kids[b]? = some ks → .heap a ∈ ks → Doomed holds kids b) →
      Doomed holds kids a

theorem supported_of_not_doomed {a : ℕ} (ha : ¬Doomed holds kids a) :
    0 < holds a ∨ ∃ (b : ℕ) (ks : List Ref),
      ¬Doomed holds kids b ∧ kids[b]? = some ks ∧ .heap a ∈ ks := by
  by_contra hcon
  rw [not_or, not_exists] at hcon
  refine ha (.intro (by omega) fun b ks hks hmem => ?_)
  by_contra hb
  exact hcon.2 b ⟨ks, hb, hks, hmem⟩

theorem Balanced.takeOut (H : h.Balanced holds) {a : ℕ} {c : Cell}
    (hc : h.cells[a]? = some (some c)) {r : Ref} {ks : List Ref}
    (hcount : ∀ b, c.content.refs.count (.heap b) = [r].count (.heap b) + ks.count (.heap b))
    (ha : ¬Doomed holds ((h.cells.map slotsOf).set a ks) a) :
    Accounts h holds ((h.cells.map slotsOf).set a ks) [r] (fun b => b = a)
      (fun b => ¬Doomed holds ((h.cells.map slotsOf).set a ks) b) := by
  have hslots := getElem?_slots hc
  have hset : ∀ b : ℕ, b ≠ a →
      ((h.cells.map slotsOf).set a ks)[b]? = (h.cells.map slotsOf)[b]? :=
    fun b hb => List.getElem?_set_ne (Ne.symm hb)
  have htotal : ∀ b, ((h.cells.map slotsOf).set a ks).flatten.count (.heap b) +
      [r].count (.heap b) = (h.cells.map slotsOf).flatten.count (.heap b) := by
    intro b
    have := count_flatten_set hslots ks (.heap b)
    have := hcount b
    omega
  obtain ⟨H, hinUse⟩ := H
  refine { H with
    length := ?_
    count := fun b c' hc' => ?_
    present := fun b hb => ?_
    content := fun b c' hc' hne hb => ?_
    empty := fun b ks' hb hdying => ?_
    supported := fun b hb => supported_of_not_doomed hb
    holeSafe := fun b hb => hb ▸ ha }
  · rw [List.length_set, H.length]
  · have := H.count b c' hc'
    have := htotal b
    rw [List.count_nil] at *
    omega
  · refine H.present b ?_
    have := htotal b
    omega
  · rw [hset b hb]
    exact H.content b c' hc' hne not_false
  · by_cases hab : b = a
    · exact absurd (hdying c (hab ▸ hc)) (hinUse a c hc)
    · rw [hset b hab] at hb
      exact H.empty b ks' hb hdying

def Keeps (h : Heap) (safe : ℕ → Prop) : Prop :=
  ∀ b, safe b → ∃ c : Cell, h.cells[b]? = some (some c) ∧ c.ref ≠ 0

/-- The spec of a call that empties a slot: the value in it is released before the slot goes. -/
theorem Balanced.remove (H : h.Balanced holds) {a : ℕ} {c : Cell}
    (hc : h.cells[a]? = some (some c)) (r : Ref) (content : Content)
    (hcount : ∀ b, c.content.refs.count (.heap b) =
      [r].count (.heap b) + content.refs.count (.heap b))
    (ha : ¬Doomed holds ((h.cells.map slotsOf).set a content.refs) a) :
    ∃ h₁ c₁, h.valueRelease r = .ok h₁ ∧ h₁.cell a = .ok c₁ ∧ c₁.content = c.content ∧
      (h₁.store a { c₁ with content := content }).Balanced holds ∧
      (h₁.store a { c₁ with content := content }).cells[a]? =
        some (some { c₁ with content := content }) ∧
      Keeps (h₁.store a { c₁ with content := content })
        (fun b => ¬Doomed holds ((h.cells.map slotsOf).set a content.refs) b) := by
  obtain ⟨hlt, -⟩ := List.getElem?_eq_some_iff.mp (getElem?_slots hc)
  obtain ⟨h₁, kids₁, hrun, H₁, hreleased⟩ := (H.takeOut hc hcount ha).release _ (alive_le h)
  obtain ⟨c₁, hc₁, hpos₁⟩ := H₁.live ha
  obtain ⟨c₀, hc₀, heq⟩ := hreleased.content a c₁ hc₁
  rw [hc] at hc₀
  obtain rfl : c = c₀ := Option.some.inj (Option.some.inj hc₀)
  have hks : kids₁[a]? = some content.refs := by
    rw [hreleased.kept a ha, List.getElem?_set_self hlt]
  have hget := getElem?_store hc₁ { c₁ with content := content }
  have hinUse : (h₁.store a { c₁ with content := content }).InUse := by
    intro b c' hc'
    rw [hget] at hc'
    split_ifs at hc' with hab
    · cases hc'
      exact hpos₁
    · exact hreleased.inUse H.inUse b c' hc'
  have hput := H₁.put hc₁ hpos₁ (fun b hb => hb) hks content [] (fun b => rfl)
  refine ⟨h₁, c₁, hrun, cell_eq hc₁, heq, hput.balanced hinUse, ?_, fun b hb => ?_⟩
  · rw [hget, if_pos rfl]
  · rw [hget]
    split_ifs with hab
    · exact ⟨_, rfl, hpos₁⟩
    · exact H₁.live hb

theorem contentAt_eq {a : ℕ} {c : Cell} (hc : h.cells[a]? = some (some c)) :
    h.contentAt (.heap a) = .ok c.content := by
  rw [contentAt, cell_eq hc]
  rfl

theorem find?_count_refs {members : List (Bytes × Ref)} {key : Bytes} {member : Bytes × Ref}
    (hfind : members.find? (fun m => m.1 = key) = some member) (r : Ref) :
    (members.map Prod.snd).count r =
      [member.2].count r + ((members.eraseP (fun m => m.1 = key)).map Prod.snd).count r := by
  induction members with
  | nil => cases hfind
  | cons m members ih =>
    rw [List.find?_cons] at hfind
    by_cases hm : m.1 = key
    · simp only [hm, decide_true, Option.some.injEq] at hfind
      rw [List.eraseP_cons_of_pos (by simpa using hm), ← hfind, List.map_cons,
        ← List.singleton_append, List.count_append]
    · simp only [hm, decide_false] at hfind
      have := ih hfind
      rw [List.eraseP_cons_of_neg (by simpa using hm)]
      simp only [List.map_cons, List.count_cons, List.count_nil] at this ⊢
      omega

theorem eraseIdx_count {elements : List Ref} {index : ℕ} {element : Ref}
    (hget : elements[index]? = some element) (r : Ref) :
    elements.count r = [element].count r + (elements.eraseIdx index).count r := by
  induction elements generalizing index with
  | nil => cases hget
  | cons e elements ih =>
    cases index with
    | zero =>
      obtain rfl : e = element := Option.some.inj hget
      rw [List.eraseIdx_cons_zero, ← List.singleton_append, List.count_append]
    | succ index =>
      have := @ih index hget
      simp only [List.eraseIdx_cons_succ, List.count_cons, List.count_nil] at this ⊢
      omega

theorem Balanced.valueArrayRemove (H : h.Balanced holds) {a : ℕ} {c : Cell}
    (hc : h.cells[a]? = some (some c)) {elements : List Ref}
    (helements : c.content = .array elements)
    {index : ℕ} (hindex : index < elements.length)
    (ha : ¬Doomed holds ((h.cells.map slotsOf).set a (elements.eraseIdx index)) a) :
    ∃ h', h.valueArrayRemove (.heap a) index = .ok h' ∧ h'.Balanced holds := by
  have helement := List.getElem?_eq_getElem hindex
  obtain ⟨h₁, c₁, hrun, hcell, hcontent, H', -, -⟩ := H.remove hc elements[index]
    (.array (elements.eraseIdx index))
    (fun b => by rw [helements]; exact eraseIdx_count helement _) ha
  refine ⟨_, ?_, H'⟩
  simp only [Heap.valueArrayRemove, contentAt_eq hc, helements, ok_bind, helement, hrun, hcell,
    hcontent, pure_eq_ok]

theorem Balanced.valueObjectDelete (H : h.Balanced holds) {a : ℕ} {c : Cell}
    (hc : h.cells[a]? = some (some c)) {members : List (Bytes × Ref)}
    (hmembers : c.content = .object members) (key : Bytes)
    (ha : ¬Doomed holds ((h.cells.map slotsOf).set a
      ((members.eraseP (fun m => m.1 = key)).map Prod.snd)) a) :
    ∃ h' c', h.valueObjectDelete (.heap a) key = .ok h' ∧ h'.Balanced holds ∧
      h'.cells[a]? = some (some c') ∧
      c'.content = .object (members.eraseP (fun m => m.1 = key)) ∧
      Keeps h' (fun b => (∃ c : Cell, h.cells[b]? = some (some c)) ∧
        ¬Doomed holds ((h.cells.map slotsOf).set a
          ((members.eraseP (fun m => m.1 = key)).map Prod.snd)) b) := by
  cases hfind : members.find? (fun m => m.1 = key) with
  | none =>
    refine ⟨h, c, ?_, H, hc, ?_, fun b hb => ?_⟩
    · simp only [Heap.valueObjectDelete, contentAt_eq hc, hmembers, ok_bind, hfind, pure_eq_ok]
    · rw [hmembers, List.eraseP_of_forall_not (fun m hm => List.find?_eq_none.mp hfind m hm)]
    · obtain ⟨⟨c, hc⟩, -⟩ := hb
      exact ⟨c, hc, H.inUse b c hc⟩
  | some member =>
    obtain ⟨h₁, c₁, hrun, hcell, hcontent, H', hget, hkeeps⟩ := H.remove hc member.2
      (.object (members.eraseP (fun m => m.1 = key)))
      (fun b => by rw [hmembers]; exact find?_count_refs hfind _) ha
    refine ⟨_, _, ?_, H', hget, rfl, fun b hb => hkeeps b hb.2⟩
    simp only [Heap.valueObjectDelete, contentAt_eq hc, hmembers, ok_bind, hfind, hrun, hcell,
      hcontent, pure_eq_ok]

/-- The spec of a call that fills a slot: the value is held before the slot is there. -/
theorem Balanced.append (H : h.Balanced holds) {a : ℕ} {c : Cell}
    (hc : h.cells[a]? = some (some c)) {r : Ref}
    (hlive : ∀ b, r = .heap b → ∃ c : Cell, h.cells[b]? = some (some c) ∧ c.ref ≠ 0)
    (content : Content)
    (hcount : ∀ b, c.content.refs.count (.heap b) + [r].count (.heap b) =
      content.refs.count (.heap b)) :
    ∃ h₁ c₁, h.valueHold r = .ok h₁ ∧ h₁.cell a = .ok c₁ ∧ c₁.content = c.content ∧
      (h₁.store a { c₁ with content := content }).Balanced holds := by
  obtain ⟨h₁, hrun, H₁, hreleased⟩ := H.accounts.valueHold hlive
  have hpos := H.inUse a c hc
  have hown := H.accounts.count a c hc
  rw [List.count_nil] at hown
  obtain ⟨c₁, hc₁⟩ := H₁.present a (by omega)
  have hpos₁ := hreleased.inUse H.inUse a c₁ hc₁
  obtain ⟨c₀, hc₀, heq⟩ := hreleased.content a c₁ hc₁
  rw [hc] at hc₀
  obtain rfl : c = c₀ := Option.some.inj (Option.some.inj hc₀)
  refine ⟨h₁, c₁, hrun, cell_eq hc₁, heq, (H₁.put hc₁ hpos₁ (fun _ _ => not_false)
    (getElem?_slots hc) content [] fun b => ?_).balanced fun b c' hc' => ?_⟩
  · rw [List.count_nil]
    exact hcount b
  · rw [getElem?_store hc₁] at hc'
    split_ifs at hc' with hab
    · cases hc'
      exact hpos₁
    · exact hreleased.inUse H.inUse b c' hc'

theorem Balanced.valueArrayAppend (H : h.Balanced holds) {array element : Ref}
    (harray : ∀ b, array = .heap b → ∃ c : Cell, h.cells[b]? = some (some c) ∧ c.ref ≠ 0)
    (helement : ∀ b, element = .heap b → ∃ c : Cell, h.cells[b]? = some (some c) ∧ c.ref ≠ 0) :
    ∃ h', h.valueArrayAppend array element = .ok h' ∧ h'.Balanced holds := by
  cases array with
  | undefined => exact ⟨h, rfl, H⟩
  | null => exact ⟨h, rfl, H⟩
  | heap a =>
    obtain ⟨c, hc, -⟩ := harray a rfl
    cases hcontent : c.content with
    | leaf =>
      refine ⟨h, ?_, H⟩
      simp only [Heap.valueArrayAppend, contentAt_eq hc, hcontent, ok_bind, pure_eq_ok]
    | object members =>
      refine ⟨h, ?_, H⟩
      simp only [Heap.valueArrayAppend, contentAt_eq hc, hcontent, ok_bind, pure_eq_ok]
    | array elements =>
      obtain ⟨h₁, c₁, hrun, hcell, heq, H'⟩ := H.append hc helement
        (.array (elements ++ [element])) (fun b => by rw [hcontent]; exact List.count_append.symm)
      refine ⟨_, ?_, H'⟩
      simp only [Heap.valueArrayAppend, contentAt_eq hc, hcontent, ok_bind, hrun, hcell, heq,
        pure_eq_ok]

/-- The spec of `value_object_set`, when the emptied slot keeps neither argument alive. -/
theorem Balanced.valueObjectSet (H : h.Balanced holds) {a : ℕ} {c : Cell}
    (hc : h.cells[a]? = some (some c)) {members : List (Bytes × Ref)}
    (hmembers : c.content = .object members) (key : Bytes) {value : Ref}
    (hvalue : ∀ b, value = .heap b → (∃ c : Cell, h.cells[b]? = some (some c)) ∧
      ¬Doomed holds ((h.cells.map slotsOf).set a
        ((members.eraseP (fun m => m.1 = key)).map Prod.snd)) b)
    (ha : ¬Doomed holds ((h.cells.map slotsOf).set a
      ((members.eraseP (fun m => m.1 = key)).map Prod.snd)) a) :
    ∃ h', h.valueObjectSet (.heap a) key value = .ok h' ∧ h'.Balanced holds := by
  obtain ⟨h₁, c₁, hrun₁, H₁, hc₁, hcontent₁, hkeeps⟩ := H.valueObjectDelete hc hmembers key ha
  obtain ⟨h₂, c₂, hrun₂, hcell, heq, H'⟩ := H₁.append hc₁ (r := value)
    (fun b hb => hkeeps b (hvalue b hb))
    (.object (members.eraseP (fun m => m.1 = key) ++ [(key, value)])) (fun b => by
      rw [hcontent₁, Content.refs, Content.refs, List.map_append, List.count_append]
      rfl)
  refine ⟨_, ?_, H'⟩
  simp only [Heap.valueObjectSet, contentAt_eq hc, hmembers, ok_bind, hrun₁, hrun₂, hcell, heq,
    hcontent₁, pure_eq_ok]

theorem Balanced.valueCreate (H : h.Balanced holds) {content : Content}
    (hrefs : content.refs = []) :
    (h.valueCreate content).Balanced
      (Function.update holds h.cells.length (holds h.cells.length + 1)) := by
  have hfresh : holds h.cells.length + (h.cells.map slotsOf).flatten.count
      (.heap h.cells.length) = 0 := by
    by_contra hne
    obtain ⟨c, hc⟩ := H.accounts.present h.cells.length (by omega)
    obtain ⟨hlt, -⟩ := List.getElem?_eq_some_iff.mp hc
    omega
  have hslots : ((h.valueCreate content).cells.map slotsOf).flatten =
      (h.cells.map slotsOf).flatten := by
    rw [Heap.valueCreate, List.map_append, List.flatten_append]
    simp only [List.map_cons, List.map_nil, slotsOf, hrefs, List.flatten_cons, List.flatten_nil,
      List.append_nil]
  have hget : ∀ b : ℕ, (h.valueCreate content).cells[b]? =
      if b = h.cells.length then some (some ⟨1, content⟩) else h.cells[b]? := by
    intro b
    rw [Heap.valueCreate]
    split_ifs with hb
    · rw [hb, List.getElem?_concat_length]
    · rcases Nat.lt_or_gt_of_ne hb with hlt | hgt
      · rw [List.getElem?_append_left hlt]
      · rw [List.getElem?_eq_none (by simp; omega), List.getElem?_eq_none (by omega)]
  refine ⟨{
    length := List.length_map ..
    count := fun b c hc => ?_
    present := fun b hb => ?_
    content := fun b c hc _ _ => getElem?_slots hc
    empty := fun b ks hb hdying => ?_
    supported := fun _ hf => hf.elim
    holeSafe := fun _ hf => hf.elim
    nodup := H.accounts.nodup
    destroyed := fun b => ?_ }, fun b c hc => ?_⟩
  · rw [hslots, Function.update_apply]
    rw [hget] at hc
    split_ifs at hc ⊢ with hb
    · cases hc
      rw [hb, List.count_nil]
      dsimp only
      omega
    · exact H.accounts.count b c hc
  · rw [hslots, Function.update_apply] at hb
    rw [hget]
    split_ifs at hb ⊢
    · exact ⟨_, rfl⟩
    · exact H.accounts.present b hb
  · rw [List.getElem?_map, hget] at hb
    split_ifs at hb with hlen
    · rw [← Option.some.inj hb]
      exact hrefs
    · refine H.accounts.empty b ks ?_ fun c hc => hdying c (by rw [hget, if_neg hlen]; exact hc)
      rw [List.getElem?_map]
      exact hb
  · rw [hget, show (h.valueCreate content).destroyed = h.destroyed from rfl, H.accounts.destroyed]
    split_ifs with hb
    · rw [hb, List.getElem?_eq_none (Nat.le_refl _)]
      exact ⟨(by rintro ⟨⟩), (by rintro ⟨⟩)⟩
    · exact Iff.rfl
  · rw [hget] at hc
    split_ifs at hc
    · cases hc
      exact Nat.one_ne_zero
    · exact H.inUse b c hc

end Heap

namespace Values

variable {w w' : Values}

def slots (w : Values) : List Ref := (w.heap.cells.map Heap.slotsOf).flatten

/-- A value is spared when it does not depend on the references that leave their container. -/
def Spared (w : Values) (container : ℕ) (refs : List Ref) (r : Ref) : Prop :=
  ∀ b, r = .heap b → ¬Heap.Doomed w.holds ((w.heap.cells.map Heap.slotsOf).set container refs) b

/-- Neither the container nor the value that is passed is kept alive only through the slot that
the call empties. -/
def Kept (w : Values) : ValuesLabel → Prop
  | .arrayRemove array index =>
    ∀ a elements, array = .heap a → w.heap.contentAt array = .ok (.array elements) →
      w.Spared a (elements.eraseIdx index) array
  | .objectSet object key value | .objectSetRelease object key value =>
    ∀ a members, object = .heap a → w.heap.contentAt object = .ok (.object members) →
      w.Spared a ((members.eraseP (fun m => m.1 = key)).map Prod.snd) object ∧
      w.Spared a ((members.eraseP (fun m => m.1 = key)).map Prod.snd) value
  | .objectDelete object key =>
    ∀ a members, object = .heap a → w.heap.contentAt object = .ok (.object members) →
      w.Spared a ((members.eraseP (fun m => m.1 = key)).map Prod.snd) object
  | _ => True

structure Good (w : Values) : Prop where
  running : w.failed = false
  balanced : w.heap.Balanced w.holds

theorem live_iff {r : Ref} (hlive : w.live r) :
    ∀ b, r = .heap b → ∃ c : Cell, w.heap.cells[b]? = some (some c) ∧ c.ref ≠ 0 := by
  rintro b rfl
  rw [live] at hlive
  split at hlive
  · exact ⟨_, ‹_›, by simpa using hlive⟩
  · cases hlive

theorem held_pos {r : Ref} (hheld : w.held r) : ∀ b, r = .heap b → 0 < w.holds b := by
  rintro b rfl
  exact Nat.pos_of_ne_zero (by simpa [held] using hheld)

/-- What the client holds is live. -/
theorem Good.live_of_held (H : Good w) {r : Ref} (hheld : w.held r) :
    ∀ b, r = .heap b → ∃ c : Cell, w.heap.cells[b]? = some (some c) ∧ c.ref ≠ 0 := by
  intro b hr
  have := held_pos hheld b hr
  obtain ⟨c, hc⟩ := H.balanced.accounts.present b (by omega)
  exact ⟨c, hc, H.balanced.inUse b c hc⟩

theorem good_after {h : Heap} {holds : ℕ → ℕ} {result : Except Fault Heap}
    (hresult : result = .ok h) (H : h.Balanced holds) : Good (w.after holds result) := by
  rw [hresult]
  exact ⟨rfl, H⟩

theorem balanced_release {h : Heap} (H : h.Balanced w.holds) {r : Ref} (hheld : w.held r) :
    ∃ h', h.valueRelease r = .ok h' ∧ h'.Balanced (w.giveUp r) := by
  have hpending : Heap.Accounts h (w.giveUp r) (h.cells.map Heap.slotsOf) [r] (fun _ => False)
      (fun _ => False) := by
    cases r with
    | undefined => exact H.accounts.congr fun a => rfl
    | null => exact H.accounts.congr fun a => rfl
    | heap a => exact H.accounts.giveUp (held_pos hheld a rfl)
  obtain ⟨h', kids', hrun, H', hreleased⟩ := hpending.release _ (Heap.alive_le h)
  exact ⟨h', hrun, H'.balanced (hreleased.inUse H.inUse)⟩

theorem Good.create (H : Good w) {content : Content} (hrefs : content.refs = []) :
    Good (w.create content) :=
  good_after rfl (H.balanced.valueCreate hrefs)

theorem Good.hold (H : Good w) {r : Ref} (hlive : w.live r) :
    Good (w.after (w.hold r) (w.heap.valueHold r)) := by
  obtain ⟨h', hrun, H', hreleased⟩ := H.balanced.accounts.valueHold (live_iff hlive)
  have hkeep : Heap.Accounts h' (w.hold r) (w.heap.cells.map Heap.slotsOf) [] (fun _ => False)
      (fun _ => False) := by
    cases r with
    | undefined => exact H'.congr fun a => rfl
    | null => exact H'.congr fun a => rfl
    | heap a => exact H'.keep
  exact good_after hrun (hkeep.balanced (hreleased.inUse H.balanced.inUse))

theorem Good.objectSet (H : Good w) {object value : Ref} {key : Bytes}
    (hobject : w.live object)
    (hvalue : ∀ b, value = .heap b → ∃ c : Cell, w.heap.cells[b]? = some (some c) ∧ c.ref ≠ 0)
    (hkept : w.Kept (.objectSet object key value)) :
    ∃ h', w.heap.valueObjectSet object key value = .ok h' ∧ h'.Balanced w.holds := by
  cases object with
  | undefined => exact ⟨w.heap, rfl, H.balanced⟩
  | null => exact ⟨w.heap, rfl, H.balanced⟩
  | heap a =>
    obtain ⟨c, hc, -⟩ := live_iff hobject a rfl
    cases hcontent : c.content with
    | leaf =>
      refine ⟨w.heap, ?_, H.balanced⟩
      simp only [Heap.valueObjectSet, Heap.contentAt_eq hc, hcontent, ok_bind, pure_eq_ok]
    | array elements =>
      refine ⟨w.heap, ?_, H.balanced⟩
      simp only [Heap.valueObjectSet, Heap.contentAt_eq hc, hcontent, ok_bind, pure_eq_ok]
    | object members =>
      obtain ⟨hspared, hspared'⟩ := hkept a members rfl (by rw [Heap.contentAt_eq hc, hcontent])
      refine H.balanced.valueObjectSet hc hcontent key (fun b hb => ?_) (hspared a rfl)
      obtain ⟨c', hc', -⟩ := hvalue b hb
      exact ⟨⟨c', hc'⟩, hspared' b hb⟩

theorem Good.objectDelete (H : Good w) {object : Ref} {key : Bytes} (hobject : w.live object)
    (hkept : w.Kept (.objectDelete object key)) :
    ∃ h', w.heap.valueObjectDelete object key = .ok h' ∧ h'.Balanced w.holds := by
  cases object with
  | undefined => exact ⟨w.heap, rfl, H.balanced⟩
  | null => exact ⟨w.heap, rfl, H.balanced⟩
  | heap a =>
    obtain ⟨c, hc, -⟩ := live_iff hobject a rfl
    cases hcontent : c.content with
    | leaf =>
      refine ⟨w.heap, ?_, H.balanced⟩
      simp only [Heap.valueObjectDelete, Heap.contentAt_eq hc, hcontent, ok_bind, pure_eq_ok]
    | array elements =>
      refine ⟨w.heap, ?_, H.balanced⟩
      simp only [Heap.valueObjectDelete, Heap.contentAt_eq hc, hcontent, ok_bind, pure_eq_ok]
    | object members =>
      have hspared := hkept a members rfl (by rw [Heap.contentAt_eq hc, hcontent])
      obtain ⟨h', c', hrun, H', -⟩ :=
        H.balanced.valueObjectDelete hc hcontent key (hspared a rfl)
      exact ⟨h', hrun, H'⟩

theorem Good.arrayRemove (H : Good w) {array : Ref} {index : ℕ} (harray : w.live array)
    (hindex : w.inRange array index) (hkept : w.Kept (.arrayRemove array index)) :
    ∃ h', w.heap.valueArrayRemove array index = .ok h' ∧ h'.Balanced w.holds := by
  cases array with
  | undefined => exact ⟨w.heap, rfl, H.balanced⟩
  | null => exact ⟨w.heap, rfl, H.balanced⟩
  | heap a =>
    obtain ⟨c, hc, -⟩ := live_iff harray a rfl
    cases hcontent : c.content with
    | leaf =>
      refine ⟨w.heap, ?_, H.balanced⟩
      simp only [Heap.valueArrayRemove, Heap.contentAt_eq hc, hcontent, ok_bind, pure_eq_ok]
    | object members =>
      refine ⟨w.heap, ?_, H.balanced⟩
      simp only [Heap.valueArrayRemove, Heap.contentAt_eq hc, hcontent, ok_bind, pure_eq_ok]
    | array elements =>
      rw [inRange, Heap.contentAt_eq hc, hcontent] at hindex
      have hspared := hkept a elements rfl (by rw [Heap.contentAt_eq hc, hcontent])
      exact H.balanced.valueArrayRemove hc hcontent (by simpa using hindex) (hspared a rfl)

theorem Good.empty : Good empty := by
  refine ⟨rfl, {
    length := rfl
    count := nofun
    present := fun a ha => ?_
    content := nofun
    empty := nofun
    supported := nofun
    holeSafe := nofun
    nodup := List.nodup_nil
    destroyed := fun a => ⟨nofun, nofun⟩ }, nofun⟩
  simp [Values.empty] at ha

/-- A call that spares its arguments keeps the counts. -/
theorem Good.step {l : ValuesLabel} (H : Good w) (hkept : w.Kept l) (hstep : w.step l = some w') :
    Good w' := by
  unfold Values.step at hstep
  rw [if_neg (by rw [H.running]; exact Bool.false_ne_true)] at hstep
  cases l <;> dsimp only at hstep
  case newLeaf => exact Option.some.inj hstep ▸ H.create rfl
  case newArray => exact Option.some.inj hstep ▸ H.create rfl
  case newObject => exact Option.some.inj hstep ▸ H.create rfl
  case hold r =>
    split_ifs at hstep with hlive
    exact Option.some.inj hstep ▸ H.hold hlive
  case release r =>
    split_ifs at hstep with hheld
    obtain ⟨h', hrun, H'⟩ := balanced_release H.balanced hheld
    exact Option.some.inj hstep ▸ good_after hrun H'
  case arrayAppend array element =>
    split_ifs at hstep with hlive
    obtain ⟨h', hrun, H'⟩ := H.balanced.valueArrayAppend (live_iff hlive.1) (live_iff hlive.2)
    exact Option.some.inj hstep ▸ good_after hrun H'
  case arrayAppendRelease array element =>
    split_ifs at hstep with hlive
    obtain ⟨h₁, hrun₁, H₁⟩ :=
      H.balanced.valueArrayAppend (live_iff hlive.1) (H.live_of_held hlive.2)
    obtain ⟨h₂, hrun₂, H₂⟩ := balanced_release H₁ hlive.2
    refine Option.some.inj hstep ▸ good_after ?_ H₂
    rw [Heap.valueArrayAppendRelease, hrun₁, ok_bind, hrun₂]
  case arrayRemove array index =>
    split_ifs at hstep with hlive
    obtain ⟨h', hrun, H'⟩ := H.arrayRemove hlive.1 hlive.2 hkept
    exact Option.some.inj hstep ▸ good_after hrun H'
  case objectSet object key value =>
    split_ifs at hstep with hlive
    obtain ⟨h', hrun, H'⟩ := H.objectSet hlive.1 (live_iff hlive.2) hkept
    exact Option.some.inj hstep ▸ good_after hrun H'
  case objectSetRelease object key value =>
    split_ifs at hstep with hlive
    obtain ⟨h₁, hrun₁, H₁⟩ := H.objectSet hlive.1 (H.live_of_held hlive.2) hkept
    obtain ⟨h₂, hrun₂, H₂⟩ := balanced_release H₁ hlive.2
    refine Option.some.inj hstep ▸ good_after ?_ H₂
    rw [Heap.valueObjectSetRelease, hrun₁, ok_bind, hrun₂]
  case objectDelete object key =>
    split_ifs at hstep with hlive
    obtain ⟨h', hrun, H'⟩ := H.objectDelete hlive hkept
    exact Option.some.inj hstep ▸ good_after hrun H'

/-- No call has touched a freed value, the counts are the client's holds and the slots, no slot
refers to a freed value, and the freed values are those without a reference, freed once. -/
structure Counted (w : Values) : Prop where
  running : w.failed = false
  count : ∀ (a : ℕ) (c : Cell), w.heap.cells[a]? = some (some c) →
    c.ref = w.holds a + w.slots.count (.heap a)
  slots : ∀ a : ℕ, .heap a ∈ w.slots → ∃ c : Cell, w.heap.cells[a]? = some (some c)
  once : w.heap.destroyed.Nodup
  destroyed : ∀ a < w.heap.cells.length,
    a ∈ w.heap.destroyed ↔ w.holds a + w.slots.count (.heap a) = 0

theorem Good.counted (H : Good w) : Counted w where
  running := H.running
  count a c hc := by
    have := H.balanced.accounts.count a c hc
    rwa [List.count_nil, Nat.add_zero] at this
  slots a ha := by
    have := List.count_pos_iff.mpr ha
    exact H.balanced.accounts.present a (by unfold slots at this; omega)
  once := H.balanced.accounts.nodup
  destroyed a ha := by
    have hcell := List.getElem?_eq_getElem ha
    rw [H.balanced.accounts.destroyed, hcell]
    cases hget : w.heap.cells[a] with
    | none =>
      refine ⟨fun _ => ?_, fun _ => rfl⟩
      by_contra hne
      obtain ⟨c, hc⟩ := H.balanced.accounts.present a (by unfold slots at hne; omega)
      rw [hcell, hget] at hc
      cases hc
    | some c =>
      rw [hget] at hcell
      have hpos := H.balanced.inUse a c hcell
      have hcount := H.balanced.accounts.count a c hcell
      rw [List.count_nil] at hcount
      refine ⟨nofun, fun hzero => absurd ?_ hpos⟩
      unfold slots at hzero
      omega

/-- The counts are right in every run whose calls spare their arguments. -/
theorem valueRef_counted (h : Reach step Kept empty w) : Counted w :=
  (h.invariant Good.empty fun _ _ _ H hkept hstep => H.step hkept hstep).counted

/-- A string is moved into an object. -/
theorem valueRef_counted_set :
    ∃ w, Counted w ∧ w.slots = [.heap 0] ∧ w.holds 0 = 0 ∧ w.heap.cells.length = 2 := by
  have h₁ : Reach step Kept empty _ := .step (l := .newLeaf) .init trivial rfl
  have h₂ : Reach step Kept empty _ := .step (l := .newObject) h₁ trivial rfl
  have h₃ : Reach step Kept empty _ :=
    .step (l := .objectSetRelease (.heap 1) (str "k") (.heap 0)) h₂ ?_ rfl
  · exact ⟨_, valueRef_counted h₃, by decide, rfl, rfl⟩
  · intro a members _ _
    constructor
    · rintro b ⟨⟩ hdoomed
      cases hdoomed with
      | intro hzero _ => cases hzero
    · rintro b ⟨⟩ hdoomed
      cases hdoomed with
      | intro hzero _ => cases hzero

/-- The value that a key has is set again: `value_object_set` holds it after its release. -/
theorem valueRef_setAgain :
    ¬∀ w, Reach step (fun _ _ => True) empty w → Counted w := by
  intro h
  have hexec : exec step empty [.newLeaf, .newObject,
      .objectSetRelease (.heap 1) (str "k") (.heap 0),
      .objectSet (.heap 1) (str "k") (.heap 0)] = some _ := rfl
  have hrunning := (h _ (.of_exec (fun _ _ => trivial) hexec)).running
  revert hrunning
  decide

end Values

end LibReactor
