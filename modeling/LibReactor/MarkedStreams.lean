import Mathlib.Algebra.BigOperators.Group.Finset.Piecewise
import Mathlib.Algebra.Order.BigOperators.Group.Finset
import Mathlib.Data.List.Basic

/-!
# Streams that end with a marker

A sequence is drawn from several streams when its elements from each of them are the first
elements of that stream. Where each stream has its marker at the end, a sequence with as many
markers as there are streams has drawn all of them.
-/

namespace LibReactor

variable {ι α : Type*} [DecidableEq ι] {i : ι} {stream : ι → List α} {l rest : List (ι × α)}

def part (i : ι) (l : List (ι × α)) : List α := (l.filter fun x => x.1 = i).map Prod.snd

theorem part_append (i : ι) (l rest : List (ι × α)) :
    part i (l ++ rest) = part i l ++ part i rest := by
  rw [part, List.filter_append, List.map_append]
  rfl

theorem part_cons (i : ι) (x : ι × α) (l : List (ι × α)) :
    part i (x :: l) = if x.1 = i then x.2 :: part i l else part i l := by
  unfold part
  by_cases hx : x.1 = i
  · rw [if_pos hx, List.filter_cons_of_pos (by simpa using hx), List.map_cons]
  · rw [if_neg hx, List.filter_cons_of_neg (by simpa using hx)]

/-- Every element is in one of the parts. -/
theorem countP_eq_sum_part (p : α → Bool) {K : Finset ι} (hK : ∀ x ∈ l, x.1 ∈ K) :
    (l.map Prod.snd).countP p = ∑ i ∈ K, (part i l).countP p := by
  induction l with
  | nil => simp [part]
  | cons x l ih =>
    have hsplit : ∀ i, (part i (x :: l)).countP p =
        (part i l).countP p + if x.1 = i then (if p x.2 then 1 else 0) else 0 := by
      intro i
      rw [part_cons]
      split_ifs with hi hp
      · rw [List.countP_cons, if_pos hp]
      · rw [List.countP_cons, if_neg hp]
      · rw [Nat.add_zero]
    have hx : x.1 ∈ K := hK x (List.mem_cons_self ..)
    simp only [hsplit]
    rw [Finset.sum_add_distrib, Finset.sum_ite_eq, if_pos hx, List.map_cons, List.countP_cons,
      ih fun y hy => hK y (List.mem_cons_of_mem x hy)]

/-- A sequence whose elements from each stream are the first elements of the stream. -/
def Drawn (stream : ι → List α) (l : List (ι × α)) : Prop := ∀ i, part i l <+: stream i

theorem Drawn.left (h : Drawn stream (l ++ rest)) : Drawn stream l := fun i =>
  (List.prefix_append (part i l) (part i rest)).trans (part_append i l rest ▸ h i)

theorem Drawn.mem_stream (h : Drawn stream l) {x : ι × α} (hx : x ∈ l) : x.2 ∈ stream x.1 :=
  (h x.1).subset (List.mem_map.mpr ⟨x, List.mem_filter.mpr ⟨hx, decide_eq_true rfl⟩, rfl⟩)

theorem Drawn.mem_index (h : Drawn stream l) {K : Finset ι} (hK : ∀ i, i ∉ K → stream i = [])
    {x : ι × α} (hx : x ∈ l) : x.1 ∈ K := by
  by_contra hnot
  have hmem := h.mem_stream hx
  rw [hK x.1 hnot] at hmem
  cases hmem

/-- No more elements of a kind are drawn than the streams have. -/
theorem Drawn.countP_le (h : Drawn stream l) {K : Finset ι} (hK : ∀ i, i ∉ K → stream i = [])
    (p : α → Bool) : (l.map Prod.snd).countP p ≤ ∑ i ∈ K, (stream i).countP p := by
  rw [countP_eq_sum_part p fun x hx => h.mem_index hK hx]
  exact Finset.sum_le_sum fun i _ => (h i).sublist.countP_le

variable {marker : α}

theorem split_concat {s a b : List α} {x y : α} (h : s ++ [y] = a ++ x :: b) :
    (s = a ∧ y = x ∧ b = []) ∨ ∃ b', s = a ++ x :: b' := by
  rcases List.eq_nil_or_concat b with rfl | ⟨b, z, rfl⟩
  · obtain ⟨hinit, hlast⟩ := List.append_inj' h rfl
    exact .inl ⟨hinit, List.singleton_inj.mp hlast, rfl⟩
  · rw [List.concat_eq_append, ← List.cons_append, ← List.append_assoc] at h
    exact .inr ⟨b, (List.append_inj' h rfl).1⟩

def Marked (marker : α) (s : List α) : Prop := ∀ a b, s = a ++ marker :: b → b = []

theorem Marked.of_not_mem {s : List α} (h : marker ∉ s) : Marked marker s := by
  rintro a b rfl
  exact absurd (List.mem_append_right a (List.mem_cons_self ..)) h

theorem Marked.concat {s : List α} (h : marker ∉ s) : Marked marker (s ++ [marker]) := by
  intro a b hab
  rcases split_concat hab with ⟨-, -, hb⟩ | ⟨b', rfl⟩
  · exact hb
  · exact absurd (List.mem_append_right a (List.mem_cons_self ..)) h

theorem Marked.rest_nil {s drawn later : List α} (h : Marked marker s)
    (hdrawn : drawn ++ later <+: s) (hmem : marker ∈ drawn) : drawn = s ∧ later = [] := by
  obtain ⟨a, b, rfl⟩ := List.append_of_mem hmem
  obtain ⟨c, rfl⟩ := hdrawn
  have hend : b ++ (later ++ c) = [] := h a _ (by simp)
  obtain ⟨rfl, hlater⟩ := List.append_eq_nil_iff.mp hend
  obtain ⟨rfl, rfl⟩ := List.append_eq_nil_iff.mp hlater
  exact ⟨by simp, rfl⟩

variable [BEq α] [LawfulBEq α]

theorem Marked.count_le {s drawn : List α} (h : Marked marker s) (hdrawn : drawn <+: s) :
    drawn.count marker ≤ 1 := by
  by_cases hmem : marker ∈ drawn
  · obtain ⟨a, b, rfl⟩ := List.append_of_mem hmem
    by_contra hcount
    have hafter : marker ∈ a ∨ marker ∈ b := by
      by_contra hnot
      obtain ⟨ha, hb⟩ := not_or.mp hnot
      rw [List.count_append, List.count_cons_self, List.count_eq_zero.mpr ha,
        List.count_eq_zero.mpr hb] at hcount
      exact hcount (Nat.le_refl 1)
    rcases hafter with ha | hb
    · have hprefix : a ++ marker :: b <+: s := hdrawn
      exact absurd (h.rest_nil hprefix ha).2 (List.cons_ne_nil _ _)
    · have hsplit : (a ++ [marker]) ++ b <+: s := by rwa [List.append_assoc]
      have hnil := (h.rest_nil hsplit (List.mem_append_right a (List.mem_singleton_self _))).2
      rw [hnil] at hb
      cases hb
  · rw [List.count_eq_zero.mpr hmem]
    exact Nat.zero_le 1

/-- As many markers as streams: every stream is drawn as a whole, and nothing comes after. -/
theorem Drawn.complete (h : Drawn stream (l ++ rest)) (hmarked : ∀ i, Marked marker (stream i))
    {K : Finset ι} (hK : ∀ i, i ∉ K → stream i = [])
    (hcount : (l.map Prod.snd).count marker = K.card) :
    rest = [] ∧ ∀ i ∈ K, part i l = stream i ∧ marker ∈ stream i := by
  have hle : ∀ i ∈ K, (part i l).count marker ≤ 1 := fun i _ => (hmarked i).count_le (h.left i)
  have hsum : ∑ i ∈ K, (part i l).count marker = ∑ i ∈ K, 1 := by
    rw [← Finset.card_eq_sum_ones, ← hcount]
    exact (countP_eq_sum_part _ fun x hx => h.left.mem_index hK hx).symm
  have hone : ∀ i ∈ K, marker ∈ part i l := by
    intro i hi
    have hcount := (Finset.sum_eq_sum_iff_of_le hle).mp hsum i hi
    exact List.count_pos_iff.mp (by omega)
  have hwhole : ∀ i ∈ K, part i l = stream i ∧ part i rest = [] := fun i hi =>
    (hmarked i).rest_nil (part_append i l rest ▸ h i) (hone i hi)
  refine ⟨List.eq_nil_iff_forall_not_mem.mpr fun x hx => ?_, fun i hi => ?_⟩
  · have hi : x.1 ∈ K := h.mem_index hK (List.mem_append_right l hx)
    have hmem : x.2 ∈ part x.1 rest :=
      List.mem_map.mpr ⟨x, List.mem_filter.mpr ⟨hx, decide_eq_true rfl⟩, rfl⟩
    rw [(hwhole x.1 hi).2] at hmem
    cases hmem
  · exact ⟨(hwhole i hi).1, (hwhole i hi).1 ▸ hone i hi⟩

end LibReactor
