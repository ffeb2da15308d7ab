import Mathlib.Data.List.Chain
import Mathlib.Data.List.Nodup
import Mathlib.Logic.Function.Basic
import Mathlib.Tactic.Common

/-!
# Rings of doubly linked nodes

A node points at the next and at the previous one. A ring is entered at its
anchor and leads through its items back to it, forwards by the one pointer and
backwards by the other. Taking a node out of its ring and putting a node before
another one write two and four pointers. Both are followed here on a whole
collection of rings that share no node.
-/

namespace LibReactor

variable {α : Type*}

theorem exists_concat (a : α) (us : List α) : ∃ ps p, a :: us = ps ++ [p] :=
  ⟨_, _, (List.dropLast_append_getLast (List.cons_ne_nil a us)).symm⟩

theorem exists_cons (vs : List α) (a : α) : ∃ n ns, vs ++ [a] = n :: ns :=
  List.exists_cons_of_ne_nil (List.append_ne_nil_of_right_ne_nil vs (List.cons_ne_nil a []))

structure LinkRing (α : Type*) where
  anchor : α
  items : List α
  deriving DecidableEq, Repr

namespace LinkRing

def nodes (r : LinkRing α) : List α := r.anchor :: r.items

variable {r : LinkRing α} {x y : α}

theorem exists_cut_after (hx : x ∈ r.nodes) :
    ∃ us vs ps, r.items = us ++ vs ∧ r.anchor :: us = ps ++ [x] := by
  rcases List.mem_cons.mp hx with rfl | hx
  · exact ⟨[], r.items, [], rfl, rfl⟩
  · obtain ⟨us, vs, hsplit⟩ := List.append_of_mem hx
    exact ⟨us ++ [x], vs, r.anchor :: us, by rw [hsplit, List.append_assoc]; rfl, rfl⟩

theorem exists_cut_before (hr : r.nodes.Nodup) (hy : y ∈ r.nodes) :
    ∃ us vs ns, r.items = us ++ vs ∧ vs ++ [r.anchor] = y :: ns ∧ y ∉ us := by
  obtain ⟨hanchor, hitems⟩ := List.nodup_cons.mp hr
  rcases List.mem_cons.mp hy with rfl | hy
  · exact ⟨r.items, [], [], (List.append_nil _).symm, rfl, hanchor⟩
  · obtain ⟨us, vs, hsplit⟩ := List.append_of_mem hy
    refine ⟨us, y :: vs, vs ++ [r.anchor], hsplit, rfl, fun hus => ?_⟩
    rw [hsplit] at hitems
    exact List.disjoint_of_nodup_append hitems hus List.mem_cons_self

end LinkRing

structure Links (α : Type*) where
  next : α → α
  previous : α → α

namespace Links

variable {l l' : Links α} {r : LinkRing α} {a p n x y : α} {xs us vs ps ns : List α}

def Adjacent (l : Links α) (x y : α) : Prop := l.next x = y ∧ l.previous y = x

/-- The pointers lead from the anchor through the items back to it, both ways. -/
def Holds (l : Links α) (r : LinkRing α) : Prop :=
  (r.anchor :: (r.items ++ [r.anchor])).IsChain l.Adjacent

theorem chain_congr (h : xs.IsChain l.Adjacent) (hnext : ∀ z ∈ xs.dropLast, l'.next z = l.next z)
    (hprevious : ∀ z ∈ xs.tail, l'.previous z = l.previous z) : xs.IsChain l'.Adjacent := by
  induction xs with
  | nil => exact List.IsChain.nil
  | cons z zs ih =>
    cases zs with
    | nil => exact List.IsChain.singleton z
    | cons w ws =>
      obtain ⟨⟨hzw, hwz⟩, hrest⟩ := List.isChain_cons_cons.mp h
      rw [List.dropLast_cons_cons] at hnext
      refine List.isChain_cons_cons.mpr ⟨⟨?_, ?_⟩, ih hrest ?_ ?_⟩
      · rw [hnext z List.mem_cons_self, hzw]
      · rw [hprevious w List.mem_cons_self, hwz]
      · exact fun v hv => hnext v (List.mem_cons_of_mem _ hv)
      · exact fun v hv => hprevious v (List.mem_cons_of_mem _ hv)

theorem Holds.congr (h : l.Holds r) (hnext : ∀ z ∈ r.nodes, l'.next z = l.next z)
    (hprevious : ∀ z ∈ r.nodes, l'.previous z = l.previous z) : l'.Holds r := by
  refine chain_congr h (fun z hz => hnext z ?_) (fun z hz => hprevious z ?_)
  · rwa [← List.cons_append, List.dropLast_concat] at hz
  · rw [List.tail_cons, List.mem_append, List.mem_singleton] at hz
    exact List.mem_cons.mpr hz.symm

/-- A ring is two chains and the link from the last node of the one to the first of the other. -/
theorem holds_cut (hps : a :: us = ps ++ [p]) (hns : vs ++ [a] = n :: ns) :
    l.Holds ⟨a, us ++ vs⟩ ↔
      (ps ++ [p]).IsChain l.Adjacent ∧ l.Adjacent p n ∧ (n :: ns).IsChain l.Adjacent := by
  have hchain : a :: (us ++ vs ++ [a]) = ps ++ p :: n :: ns := by
    rw [List.append_assoc, ← List.cons_append, hps, hns, List.append_assoc]
    rfl
  rw [Holds, hchain]
  exact List.isChain_append_cons_cons

/-- Both chains of a cut survive where only the pointers across the cut are written. -/
theorem chains_cut (hnodup : (a :: (us ++ vs)).Nodup) (hps : a :: us = ps ++ [p])
    (hns : vs ++ [a] = n :: ns) (hleft : (ps ++ [p]).IsChain l.Adjacent)
    (hright : (n :: ns).IsChain l.Adjacent)
    (hnext : ∀ z ∈ a :: (us ++ vs), z ≠ p → l'.next z = l.next z)
    (hprevious : ∀ z ∈ a :: (us ++ vs), z ≠ n → l'.previous z = l.previous z) :
    (ps ++ [p]).IsChain l'.Adjacent ∧ (n :: ns).IsChain l'.Adjacent := by
  obtain ⟨hanchor, hitems⟩ := List.nodup_cons.mp hnodup
  obtain ⟨hnodupus, hnodupvs, hdisjoint⟩ := List.nodup_append'.mp hitems
  have hus : ∀ z ∈ us, z ∈ a :: (us ++ vs) := fun z hz =>
    List.mem_cons_of_mem _ (List.mem_append_left _ hz)
  have hvs : ∀ z ∈ vs, z ∈ a :: (us ++ vs) := fun z hz =>
    List.mem_cons_of_mem _ (List.mem_append_right _ hz)
  have hp : p ∈ a :: us := hps ▸ List.mem_append_right _ List.mem_cons_self
  have hn : n ∈ vs ++ [a] := hns ▸ List.mem_cons_self
  have hnodupps : (ps ++ [p]).Nodup :=
    hps ▸ List.nodup_cons.mpr ⟨fun h => hanchor (List.mem_append_left _ h), hnodupus⟩
  have hnodupns : (n :: ns).Nodup := by
    rw [← hns]
    refine List.Nodup.append hnodupvs (List.nodup_singleton a) fun z hz hza => hanchor ?_
    rw [← List.mem_singleton.mp hza]
    exact List.mem_append_right _ hz
  constructor
  · refine chain_congr hleft (fun z hz => hnext z ?_ ?_) (fun z hz => hprevious z ?_ ?_)
    · have hz' := List.dropLast_subset _ hz
      rw [← hps] at hz'
      exact (List.mem_cons.mp hz').elim (· ▸ List.mem_cons_self) (hus z)
    · rw [List.dropLast_concat] at hz
      rintro rfl
      exact List.disjoint_of_nodup_append hnodupps hz List.mem_cons_self
    · rw [← hps] at hz
      exact hus z hz
    · rw [← hps] at hz
      rintro rfl
      rcases List.mem_append.mp hn with hn | hn
      · exact hdisjoint hz hn
      · exact hanchor (List.mem_append_left _ (List.mem_singleton.mp hn ▸ hz))
  · refine chain_congr hright (fun z hz => hnext z ?_ ?_) (fun z hz => hprevious z ?_ ?_)
    · rw [← hns, List.dropLast_concat] at hz
      exact hvs z hz
    · rw [← hns, List.dropLast_concat] at hz
      rintro rfl
      rcases List.mem_cons.mp hp with rfl | hp
      · exact hanchor (List.mem_append_right _ hz)
      · exact hdisjoint hp hz
    · have hz' := List.mem_of_mem_tail hz
      rw [← hns, List.mem_append, List.mem_singleton] at hz'
      exact hz'.elim (hvs z) (· ▸ List.mem_cons_self)
    · rintro rfl
      exact (List.nodup_cons.mp hnodupns).1 hz

theorem Holds.next (h : l.Holds r) (hx : x ∈ r.nodes) :
    l.next x ∈ r.nodes ∧ l.previous (l.next x) = x := by
  obtain ⟨us, vs, ps, hitems, hps⟩ := r.exists_cut_after hx
  obtain ⟨n, ns, hns⟩ := exists_cons vs r.anchor
  have hr : r = ⟨r.anchor, us ++ vs⟩ := by rw [← hitems]
  rw [hr] at h
  obtain ⟨-, ⟨hnext, hprevious⟩, -⟩ := (holds_cut hps hns).mp h
  rw [hnext]
  refine ⟨?_, hprevious⟩
  have hmem : n ∈ vs ++ [r.anchor] := hns ▸ List.mem_cons_self
  rw [List.mem_append, List.mem_singleton] at hmem
  rw [LinkRing.nodes, List.mem_cons, hitems, List.mem_append]
  tauto

theorem Holds.previous (h : l.Holds r) (hr : r.nodes.Nodup) (hx : x ∈ r.nodes) :
    l.previous x ∈ r.nodes ∧ l.next (l.previous x) = x := by
  obtain ⟨us, vs, ns, hitems, hns, -⟩ := r.exists_cut_before hr hx
  obtain ⟨ps, p, hps⟩ := exists_concat r.anchor us
  have hr : r = ⟨r.anchor, us ++ vs⟩ := by rw [← hitems]
  rw [hr] at h
  obtain ⟨-, ⟨hnext, hprevious⟩, -⟩ := (holds_cut hps hns).mp h
  rw [hprevious]
  refine ⟨?_, hnext⟩
  have hmem : p ∈ r.anchor :: us := by
    rw [hps]
    exact List.mem_append_right _ List.mem_cons_self
  rw [List.mem_cons] at hmem
  rw [LinkRing.nodes, List.mem_cons, hitems, List.mem_append]
  tauto

end Links

/-! ## Taking nodes out and putting them in -/

variable [DecidableEq α]

/-- The items with `x` before `y`, or with `x` last if `y` is not one of them. -/
def insertBefore (y x : α) : List α → List α
  | [] => [x]
  | z :: zs => if z = y then x :: z :: zs else z :: insertBefore y x zs

theorem insertBefore_append {x y : α} {us : List α} (hus : y ∉ us) (vs : List α) :
    insertBefore y x (us ++ y :: vs) = us ++ x :: y :: vs := by
  induction us with
  | nil => exact if_pos rfl
  | cons u us ih =>
    obtain ⟨hne, hus⟩ := not_or.mp (List.mem_cons.not.mp hus)
    rw [List.cons_append, insertBefore, if_neg (Ne.symm hne), ih hus]
    rfl

theorem insertBefore_of_notMem {x y : α} {xs : List α} (hy : y ∉ xs) :
    insertBefore y x xs = xs ++ [x] := by
  induction xs with
  | nil => rfl
  | cons z zs ih =>
    obtain ⟨hne, hzs⟩ := not_or.mp (List.mem_cons.not.mp hy)
    rw [insertBefore, if_neg (Ne.symm hne), ih hzs]
    rfl

namespace LinkRing

variable {r : LinkRing α} {x y z : α} {us vs ns : List α}

def erase (r : LinkRing α) (x : α) : LinkRing α := { r with items := r.items.erase x }

def insertBefore (r : LinkRing α) (y x : α) : LinkRing α :=
  if y ∈ r.nodes then { r with items := LibReactor.insertBefore y x r.items } else r

theorem erase_of_notMem (hx : x ∉ r.nodes) : r.erase x = r := by
  rw [erase, List.erase_of_not_mem fun hmem => hx (List.mem_cons_of_mem _ hmem)]

theorem insertBefore_of_notMem (hy : y ∉ r.nodes) (x : α) : r.insertBefore y x = r := if_neg hy

theorem insertBefore_eq (hy : y ∈ r.nodes) (hitems : r.items = us ++ vs)
    (hns : vs ++ [r.anchor] = y :: ns) (hus : y ∉ us) :
    r.insertBefore y x = ⟨r.anchor, us ++ x :: vs⟩ := by
  rw [insertBefore, if_pos hy, hitems]
  cases vs with
  | nil => rw [List.append_nil, LibReactor.insertBefore_of_notMem hus]
  | cons v vs =>
    obtain rfl : v = y := (List.cons.inj hns).1
    rw [insertBefore_append hus]

theorem nodes_insertBefore_perm (hr : r.nodes.Nodup) (hy : y ∈ r.nodes) (x : α) :
    (r.insertBefore y x).nodes.Perm (x :: r.nodes) := by
  obtain ⟨us, vs, ns, hitems, hns, hus⟩ := r.exists_cut_before hr hy
  rw [insertBefore_eq hy hitems hns hus, nodes, nodes, hitems]
  have hmiddle : (r.anchor :: us ++ x :: vs).Perm (x :: (r.anchor :: us ++ vs)) := List.perm_middle
  exact hmiddle

end LinkRing

namespace Links

variable {l l' : Links α} {r : LinkRing α} {x y : α}

def setNext (l : Links α) (x y : α) : Links α := { l with next := Function.update l.next x y }

def setPrevious (l : Links α) (x y : α) : Links α :=
  { l with previous := Function.update l.previous x y }

def unlink (l : Links α) (x : α) : Links α :=
  let l := l.setNext (l.previous x) (l.next x)
  l.setPrevious (l.next x) (l.previous x)

def link (l : Links α) (x y : α) : Links α :=
  let l := l.setPrevious x (l.previous y)
  let l := l.setNext x y
  let l := l.setNext (l.previous x) x
  l.setPrevious (l.next x) x

def alone (l : Links α) (x : α) : Links α := (l.setNext x x).setPrevious x x

theorem unlink_eq (l : Links α) (x : α) : l.unlink x =
    ⟨Function.update l.next (l.previous x) (l.next x),
      Function.update l.previous (l.next x) (l.previous x)⟩ := by
  have hnext : Function.update l.next (l.previous x) (l.next x) x = l.next x := by
    rw [Function.update_apply]
    split_ifs <;> rfl
  simp only [unlink, setNext, setPrevious, hnext]

theorem link_eq (hne : l.previous y ≠ x) : l.link x y =
    ⟨Function.update (Function.update l.next x y) (l.previous y) x,
      Function.update (Function.update l.previous x (l.previous y)) y x⟩ := by
  simp only [link, setNext, setPrevious, Function.update_self, Function.update_of_ne hne.symm]

theorem Holds.unlink (h : l.Holds r) (hr : r.nodes.Nodup) (hx : x ∈ r.items) :
    (l.unlink x).Holds (r.erase x) := by
  obtain ⟨us, vs, hitems⟩ := List.append_of_mem hx
  obtain ⟨ps, p, hps⟩ := exists_concat r.anchor us
  obtain ⟨n, ns, hns⟩ := exists_cons vs r.anchor
  have hnodup : (r.anchor :: (us ++ x :: vs)).Nodup := by rwa [← hitems]
  have hxus : x ∉ us := fun hmem =>
    List.disjoint_of_nodup_append (List.nodup_cons.mp hnodup).2 hmem List.mem_cons_self
  have hr' : r = ⟨r.anchor, us ++ x :: vs⟩ := by rw [← hitems]
  have herase : r.erase x = ⟨r.anchor, us ++ vs⟩ := by
    rw [LinkRing.erase, hitems, List.erase_append_right _ hxus, List.erase_cons_head]
  have hxns : x :: vs ++ [r.anchor] = x :: (n :: ns) := by rw [← hns]; rfl
  rw [hr'] at h
  obtain ⟨hleft, ⟨-, hxp⟩, hright⟩ := (holds_cut hps hxns).mp h
  obtain ⟨⟨hxn, -⟩, hright⟩ := List.isChain_cons_cons.mp hright
  have hsub : (r.anchor :: (us ++ vs)).Nodup :=
    hnodup.sublist ((List.Sublist.append_left (List.sublist_cons_self x vs) us).cons_cons _)
  have hnext : ∀ z ∈ r.anchor :: (us ++ vs), z ≠ p → (l.unlink x).next z = l.next z := by
    intro z _ hz
    rw [unlink_eq, hxp]
    exact Function.update_of_ne hz _ _
  have hprevious : ∀ z ∈ r.anchor :: (us ++ vs), z ≠ n →
      (l.unlink x).previous z = l.previous z := by
    intro z _ hz
    rw [unlink_eq, hxn]
    exact Function.update_of_ne hz _ _
  obtain ⟨hleft, hright⟩ := chains_cut hsub hps hns hleft hright hnext hprevious
  rw [herase]
  refine (holds_cut hps hns).mpr ⟨hleft, ?_, hright⟩
  rw [unlink_eq, hxp, hxn]
  exact ⟨Function.update_self _ _ _, Function.update_self _ _ _⟩

theorem Holds.link (h : l.Holds r) (hr : r.nodes.Nodup) (hy : y ∈ r.nodes) (hx : x ∉ r.nodes) :
    (l.link x y).Holds (r.insertBefore y x) := by
  obtain ⟨us, vs, ns, hitems, hns, hus⟩ := r.exists_cut_before hr hy
  obtain ⟨ps, p, hps⟩ := exists_concat r.anchor us
  have hr' : r = ⟨r.anchor, us ++ vs⟩ := by rw [← hitems]
  have hpy := (h.previous hr hy).1
  rw [LinkRing.insertBefore_eq hy hitems hns hus]
  have hnodup : (r.anchor :: (us ++ vs)).Nodup := by rwa [← hitems]
  have hnodes : r.nodes = r.anchor :: (us ++ vs) := by rw [LinkRing.nodes, hitems]
  rw [hr'] at h
  obtain ⟨hleft, ⟨-, hyp⟩, hright⟩ := (holds_cut hps hns).mp h
  rw [hyp] at hpy
  have hpx : p ≠ x := fun heq => hx (heq ▸ hpy)
  have hyx : y ≠ x := fun heq => hx (heq ▸ hy)
  have heq := link_eq (l := l) (x := x) (y := y) (by rwa [hyp])
  rw [hyp] at heq
  have hne : ∀ z ∈ r.anchor :: (us ++ vs), z ≠ x := fun z hmem heq => hx (hnodes ▸ heq ▸ hmem)
  have hnext : ∀ z ∈ r.anchor :: (us ++ vs), z ≠ p → (l.link x y).next z = l.next z := by
    intro z hmem hz
    rw [heq]
    exact (Function.update_of_ne hz _ _).trans (Function.update_of_ne (hne z hmem) _ _)
  have hprevious : ∀ z ∈ r.anchor :: (us ++ vs), z ≠ y →
      (l.link x y).previous z = l.previous z := by
    intro z hmem hz
    rw [heq]
    exact (Function.update_of_ne hz _ _).trans (Function.update_of_ne (hne z hmem) _ _)
  obtain ⟨hleft, hright⟩ := chains_cut hnodup hps hns hleft hright hnext hprevious
  have hxns : x :: vs ++ [r.anchor] = x :: (y :: ns) := by rw [← hns]; rfl
  refine (holds_cut hps hxns).mpr ⟨hleft, ?_, List.isChain_cons_cons.mpr ⟨?_, hright⟩⟩
  · rw [heq]
    exact ⟨Function.update_self _ _ _,
      (Function.update_of_ne hyx.symm _ _).trans (Function.update_self _ _ _)⟩
  · rw [heq]
    exact ⟨(Function.update_of_ne hpx.symm _ _).trans (Function.update_self _ _ _),
      Function.update_self _ _ _⟩

theorem holds_alone (l : Links α) (x : α) : (l.alone x).Holds ⟨x, []⟩ :=
  List.isChain_cons_cons.mpr
    ⟨⟨Function.update_self _ _ _, Function.update_self _ _ _⟩, List.IsChain.singleton x⟩

end Links

/-! ## Collections of rings -/

namespace LinkRing

def nodesOf (rings : List (LinkRing α)) : List α := rings.flatMap nodes

/-- The rings without the node `x`; the ring that it is alone on goes away. -/
def removeNode (rings : List (LinkRing α)) (x : α) : List (LinkRing α) :=
  (rings.filter fun r => r.anchor ≠ x).map fun r => r.erase x

def insertNode (rings : List (LinkRing α)) (y x : α) : List (LinkRing α) :=
  rings.map fun r => r.insertBefore y x

variable {rings : List (LinkRing α)} {r s : LinkRing α} {x y : α}

omit [DecidableEq α] in
theorem mem_nodesOf : x ∈ nodesOf rings ↔ ∃ r ∈ rings, x ∈ r.nodes := List.mem_flatMap

omit [DecidableEq α] in
theorem eq_of_mem (h : (nodesOf rings).Nodup) (hr : r ∈ rings) (hs : s ∈ rings)
    (hxr : x ∈ r.nodes) (hxs : x ∈ s.nodes) : r = s := by
  by_contra hne
  have hpairwise := (List.nodup_flatMap.mp h).2
  have hsymm : Std.Symm (Function.onFun List.Disjoint (@nodes α)) :=
    ⟨fun _ _ hd => List.disjoint_symm hd⟩
  exact hpairwise.forall hr hs hne hxr hxs

theorem nodesOf_removeNode_sublist (rings : List (LinkRing α)) (x : α) :
    (nodesOf (removeNode rings x)).Sublist (nodesOf rings) := by
  induction rings with
  | nil => exact .slnil
  | cons r rings ih =>
    rw [removeNode, List.filter_cons]
    split_ifs
    · exact (List.Sublist.cons_cons r.anchor List.erase_sublist).append ih
    · exact ih.trans (List.sublist_append_right _ _)

theorem insertNode_of_notMem (hy : y ∉ nodesOf rings) (x : α) : insertNode rings y x = rings := by
  refine (List.map_congr_left fun r hr => ?_).trans (List.map_id rings)
  exact insertBefore_of_notMem (fun hmem => hy (mem_nodesOf.mpr ⟨r, hr, hmem⟩)) x

theorem nodesOf_insertNode_perm (h : (nodesOf rings).Nodup) (hy : y ∈ nodesOf rings) (x : α) :
    (nodesOf (insertNode rings y x)).Perm (x :: nodesOf rings) := by
  induction rings with
  | nil => exact absurd hy List.not_mem_nil
  | cons r rings ih =>
    obtain ⟨hr, hrings, hdisjoint⟩ := List.nodup_append'.mp h
    by_cases hmem : y ∈ r.nodes
    · have hrest := insertNode_of_notMem (fun hmem' => hdisjoint hmem hmem') x
      rw [nodesOf, insertNode, List.map_cons, List.flatMap_cons]
      rw [insertNode] at hrest
      rw [hrest]
      exact (nodes_insertBefore_perm hr hmem x).append_right _
    · have hrest := ih hrings ((List.mem_append.mp hy).resolve_left hmem)
      rw [nodesOf, insertNode, List.map_cons, List.flatMap_cons, insertBefore_of_notMem hmem]
      exact (hrest.append_left r.nodes).trans List.perm_middle

end LinkRing

namespace Links

open LinkRing

/-- The pointers lead round the rings, which share no node. -/
structure Represents (l : Links α) (rings : List (LinkRing α)) : Prop where
  holds : ∀ r ∈ rings, l.Holds r
  nodup : (nodesOf rings).Nodup

namespace Represents

variable {l l' : Links α} {rings rings' : List (LinkRing α)} {r : LinkRing α} {x y : α}

omit [DecidableEq α]

theorem nodup_nodes (h : l.Represents rings) (hr : r ∈ rings) : r.nodes.Nodup :=
  (List.nodup_flatMap.mp h.nodup).1 r hr

theorem perm (h : l.Represents rings) (hperm : rings.Perm rings') : l.Represents rings' :=
  ⟨fun r hr => h.holds r (hperm.mem_iff.mpr hr), (hperm.flatMap_right nodes).nodup_iff.mp h.nodup⟩

theorem congr (h : l.Represents rings) (hnext : ∀ z ∈ nodesOf rings, l'.next z = l.next z)
    (hprevious : ∀ z ∈ nodesOf rings, l'.previous z = l.previous z) : l'.Represents rings :=
  ⟨fun r hr => (h.holds r hr).congr (fun z hz => hnext z (mem_nodesOf.mpr ⟨r, hr, hz⟩))
    fun z hz => hprevious z (mem_nodesOf.mpr ⟨r, hr, hz⟩), h.nodup⟩

theorem next (h : l.Represents rings) (hr : r ∈ rings) (hx : x ∈ r.nodes) :
    l.next x ∈ r.nodes ∧ l.previous (l.next x) = x := (h.holds r hr).next hx

theorem previous (h : l.Represents rings) (hr : r ∈ rings) (hx : x ∈ r.nodes) :
    l.previous x ∈ r.nodes ∧ l.next (l.previous x) = x :=
  (h.holds r hr).previous (h.nodup_nodes hr) hx

variable [DecidableEq α]

/-- A node leaves its ring, and the other rings stay as they are. -/
theorem unlink (h : l.Represents rings) (hx : x ∈ nodesOf rings) :
    (l.unlink x).Represents (removeNode rings x) := by
  refine ⟨fun s' hs' => ?_, h.nodup.sublist (nodesOf_removeNode_sublist rings x)⟩
  obtain ⟨s, hs, rfl⟩ := List.mem_map.mp hs'
  obtain ⟨hs, hanchor⟩ := List.mem_filter.mp hs
  obtain ⟨r, hr, hxr⟩ := mem_nodesOf.mp hx
  by_cases hxs : x ∈ s.nodes
  · have hitem : x ∈ s.items :=
      (List.mem_cons.mp hxs).resolve_left fun heq => of_decide_eq_true hanchor heq.symm
    exact (h.holds s hs).unlink (h.nodup_nodes hs) hitem
  · rw [erase_of_notMem hxs]
    have hne : ∀ {w z}, w ∈ r.nodes → z ∈ s.nodes → z ≠ w := fun hw hz heq =>
      hxs (eq_of_mem h.nodup hr hs hw (heq ▸ hz) ▸ hxr)
    refine (h.holds s hs).congr (fun z hz => ?_) (fun z hz => ?_)
    · rw [unlink_eq]
      exact Function.update_of_ne (hne (h.previous hr hxr).1 hz) _ _
    · rw [unlink_eq]
      exact Function.update_of_ne (hne (h.next hr hxr).1 hz) _ _

/-- A new node comes before another one, and the other rings stay as they are. -/
theorem link (h : l.Represents rings) (hy : y ∈ nodesOf rings) (hx : x ∉ nodesOf rings) :
    (l.link x y).Represents (insertNode rings y x) := by
  obtain ⟨r, hr, hyr⟩ := mem_nodesOf.mp hy
  have hfresh : ∀ s ∈ rings, x ∉ s.nodes := fun s hs hmem => hx (mem_nodesOf.mpr ⟨s, hs, hmem⟩)
  have hnodup := (nodesOf_insertNode_perm h.nodup hy x).nodup_iff.mpr
    (List.nodup_cons.mpr ⟨hx, h.nodup⟩)
  refine ⟨fun s' hs' => ?_, hnodup⟩
  obtain ⟨s, hs, rfl⟩ := List.mem_map.mp hs'
  by_cases hys : y ∈ s.nodes
  · exact (h.holds s hs).link (h.nodup_nodes hs) hys (hfresh s hs)
  · rw [LinkRing.insertBefore_of_notMem hys]
    have hne : ∀ {w z}, w ∈ r.nodes → z ∈ s.nodes → z ≠ w := fun hw hz heq =>
      hys (eq_of_mem h.nodup hr hs hw (heq ▸ hz) ▸ hyr)
    have hprevious := (h.previous hr hyr).1
    have hpx : l.previous y ≠ x := fun heq => hfresh r hr (heq ▸ hprevious)
    rw [link_eq hpx]
    refine (h.holds s hs).congr (fun z hz => ?_) (fun z hz => ?_)
    · have hzx : z ≠ x := fun heq => hfresh s hs (heq ▸ hz)
      exact (Function.update_of_ne (hne hprevious hz) _ _).trans
        (Function.update_of_ne hzx _ _)
    · have hzx : z ≠ x := fun heq => hfresh s hs (heq ▸ hz)
      exact (Function.update_of_ne (hne hyr hz) _ _).trans
        (Function.update_of_ne hzx _ _)

/-- A node that points at itself is a ring of its own. -/
theorem alone (h : l.Represents rings) (hx : x ∉ nodesOf rings) :
    (l.alone x).Represents (⟨x, []⟩ :: rings) := by
  refine ⟨fun s hs => ?_, List.nodup_cons.mpr ⟨hx, h.nodup⟩⟩
  rcases List.mem_cons.mp hs with rfl | hs
  · exact holds_alone l x
  · have hne : ∀ z ∈ s.nodes, z ≠ x := fun z hz heq => hx (mem_nodesOf.mpr ⟨s, hs, heq ▸ hz⟩)
    exact (h.holds s hs).congr (fun z hz => Function.update_of_ne (hne z hz) _ _)
      fun z hz => Function.update_of_ne (hne z hz) _ _

end Represents

end Links

end LibReactor
