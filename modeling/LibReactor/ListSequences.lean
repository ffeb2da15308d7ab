import LibReactor.LinkedList

/-!
# What the linked lists stand for

Every call that is allowed does to the rings of nodes what it does to the
sequences of a collection. Runs of calls follow, with the traversals in both
directions and with what `list_clear` releases.
-/

namespace LibReactor

open LinkRing

namespace ListHeap

variable {h : ListHeap} {item node : ℕ}

theorem listInsert_links (h : ListHeap) (item node : ℕ) (object : Option Bytes) (size : ℕ) :
    (h.listInsert item (itemObject node) object size).2.links =
      (h.listItemNew item object size).links.link item node := by
  rw [listInsert, listObjectItem_itemObject]
  rfl

theorem listSplice_links {node item : ℕ} (hne : itemObject node ≠ itemObject item)
    (h : ListHeap) :
    h.listSplice (itemObject node) (itemObject item) =
      { h with links := (h.links.unlink item).link item node } := by
  rw [listSplice, if_neg hne, listObjectItem_itemObject, listObjectItem_itemObject]
  rfl

theorem listDetach_links (h : ListHeap) (item : ℕ) :
    h.listDetach (itemObject item) = { h with links := (h.links.unlink item).alone item } := by
  rw [listDetach, listObjectItem_itemObject]
  rfl

theorem listErase_links (h : ListHeap) (item : ℕ) (release : Bool) :
    h.listErase (itemObject item) release =
      { h with
        links := h.links.unlink item
        released := h.released ++ if release then [itemObject item] else []
        freed := h.freed ++ [item] } := by
  cases release with
  | true => rfl
  | false =>
    rw [if_neg Bool.false_ne_true, List.append_nil]
    rfl

theorem listItemNew_frame (h : ListHeap) {item node : ℕ} (hne : node ≠ item)
    (object : Option Bytes) (size : ℕ) :
    (h.listItemNew item object size).links.next node = h.links.next node ∧
      (h.listItemNew item object size).links.previous node = h.links.previous node :=
  ⟨Function.update_of_ne hne _ _, Function.update_of_ne hne _ _⟩

end ListHeap

/-! ## Collections -/

namespace Collection

variable {c : Collection} {r : LinkRing ℕ} {item node list : ℕ}

theorem mem_rings : r ∈ c.rings ↔ r ∈ c.lists ∨ ∃ x ∈ c.detached, r = ⟨x, []⟩ := by
  simp only [rings, List.mem_append, List.mem_map, eq_comm]

theorem nodesOf_rings (c : Collection) : nodesOf c.rings = nodesOf c.lists ++ c.detached := by
  rw [nodesOf, rings, List.flatMap_append, List.flatMap_map]
  exact congrArg (nodesOf c.lists ++ ·) (List.flatMap_singleton' c.detached)

theorem items_subset (hitem : item ∈ c.items) : item ∈ nodesOf c.rings := by
  rw [nodesOf_rings, List.mem_append]
  refine (List.mem_append.mp hitem).imp_left fun hmem => ?_
  obtain ⟨r, hr, hmem⟩ := List.mem_flatMap.mp hmem
  exact mem_nodesOf.mpr ⟨r, hr, List.mem_cons_of_mem _ hmem⟩

theorem lists_subset (hnode : node ∈ nodesOf c.lists) : node ∈ nodesOf c.rings := by
  rw [nodesOf_rings]
  exact List.mem_append_left _ hnode

theorem rings_remove (c : Collection) (item : ℕ) :
    (c.remove item).rings = removeNode c.rings item := by
  have hsingle : removeNode (c.detached.map fun x => (⟨x, []⟩ : LinkRing ℕ)) item =
      (c.detached.filter fun x => x ≠ item).map fun x => ⟨x, []⟩ := by
    rw [removeNode, List.filter_map, List.map_map]
    rfl
  rw [rings, rings, removeNode, List.filter_append, List.map_append]
  exact congrArg (removeNode c.lists item ++ ·) hsingle.symm

theorem rings_insert (hnodup : (nodesOf c.rings).Nodup) (hnode : node ∈ nodesOf c.lists)
    (item : ℕ) : (c.insert node item).rings = insertNode c.rings node item := by
  have hdetached : node ∉ nodesOf (c.detached.map fun x => (⟨x, []⟩ : LinkRing ℕ)) := by
    rw [rings, nodesOf, List.flatMap_append] at hnodup
    exact List.disjoint_of_nodup_append hnodup hnode
  rw [rings, rings, insertNode, List.map_append]
  exact congrArg (insertNode c.lists node item ++ ·) (insertNode_of_notMem hdetached item).symm

theorem anchor_ne (hnodup : (nodesOf c.rings).Nodup) (hitem : item ∈ c.items)
    (hr : r ∈ c.lists) : r.anchor ≠ item := by
  have hr' : r ∈ c.rings := mem_rings.mpr (.inl hr)
  rintro rfl
  rcases List.mem_append.mp hitem with hmem | hmem
  · obtain ⟨s, hs, hmem⟩ := List.mem_flatMap.mp hmem
    obtain rfl := eq_of_mem hnodup hr' (mem_rings.mpr (.inl hs)) List.mem_cons_self
      (List.mem_cons_of_mem _ hmem)
    exact (List.nodup_cons.mp ((List.nodup_flatMap.mp hnodup).1 r hr')).1 hmem
  · rw [nodesOf_rings] at hnodup
    exact List.disjoint_of_nodup_append hnodup (mem_nodesOf.mpr ⟨r, hr, List.mem_cons_self⟩) hmem

theorem lists_unique (hnodup : (nodesOf c.rings).Nodup) {s : LinkRing ℕ} (hr : r ∈ c.lists)
    (hs : s ∈ c.lists) (hnode : node ∈ r.nodes) (hnode' : node ∈ s.nodes) : r = s :=
  eq_of_mem hnodup (mem_rings.mpr (.inl hr)) (mem_rings.mpr (.inl hs)) hnode hnode'

theorem insert_eq_modify (hnodup : (nodesOf c.rings).Nodup) (hr : r ∈ c.lists)
    (hnode : node ∈ r.nodes) {f : List ℕ → List ℕ}
    (hf : LibReactor.insertBefore node item r.items = f r.items) :
    c.insert node item = c.modify r.anchor f := by
  have hlists : insertNode c.lists node item =
      c.lists.map fun s => if s.anchor = r.anchor then ⟨r.anchor, f s.items⟩ else s := by
    refine List.map_congr_left fun s hs => ?_
    split_ifs with heq
    · obtain rfl := lists_unique hnodup hr hs List.mem_cons_self (heq ▸ List.mem_cons_self)
      rw [LinkRing.insertBefore, if_pos hnode, hf]
    · refine LinkRing.insertBefore_of_notMem (fun hmem => heq ?_) item
      rw [lists_unique hnodup hr hs hnode hmem]
  rw [insert, hlists, modify]

theorem itemsOf_eq (hnodup : (nodesOf c.rings).Nodup) (hr : r ∈ c.lists) :
    c.itemsOf r.anchor = r.items := by
  obtain ⟨s, hs⟩ : ∃ s, c.lists.find? (fun s => s.anchor = r.anchor) = some s := by
    rw [← Option.isSome_iff_exists, List.find?_isSome]
    exact ⟨r, hr, decide_eq_true rfl⟩
  have hanchor : s.anchor = r.anchor := by simpa using List.find?_some hs
  obtain rfl := lists_unique hnodup hr (List.mem_of_find?_eq_some hs) List.mem_cons_self
    (hanchor ▸ List.mem_cons_self)
  rw [itemsOf, hs]
  rfl

structure Models (c : Collection) (h : ListHeap) : Prop where
  represents : h.links.Represents c.rings
  object : h.object = c.object
  released : h.released = c.released
  freed : h.freed = c.freed

namespace Models

variable {h : ListHeap}

theorem nodup (hc : c.Models h) : (nodesOf c.rings).Nodup := hc.represents.nodup

theorem construct (hc : c.Models h) (hlist : list ∉ nodesOf c.rings) :
    (c.apply (.construct list)).Models (h.listConstruct list) :=
  ⟨hc.represents.alone hlist, hc.object, hc.released, hc.freed⟩

/-- `list_insert` puts the new item before a node of a list. -/
theorem insert (hc : c.Models h) (hitem : item ∉ nodesOf c.rings)
    (hnode : node ∈ nodesOf c.lists) (object : Option Bytes) (size : ℕ) :
    ((c.insert node item).store item object size).Models
      (h.listInsert item (itemObject node) object size).2 := by
  have hframe : (h.listItemNew item object size).links.Represents c.rings :=
    hc.represents.congr
      (fun z hz => (h.listItemNew_frame (ne_of_mem_of_not_mem hz hitem) object size).1)
      fun z hz => (h.listItemNew_frame (ne_of_mem_of_not_mem hz hitem) object size).2
  have hobject : (h.listInsert item (itemObject node) object size).2.object =
      Function.update h.object item (ListHeap.newObject object size) := rfl
  refine ⟨?_, by rw [hobject, hc.object]; rfl, hc.released, hc.freed⟩
  rw [ListHeap.listInsert_links]
  have hlink := hframe.link (lists_subset hnode) hitem
  rwa [← rings_insert hc.nodup hnode] at hlink

theorem front (hc : c.Models h) (hr : r ∈ c.lists) (item : ℕ) : h.next r.anchor ∈ r.nodes ∧
    LibReactor.insertBefore (h.next r.anchor) item r.items = item :: r.items := by
  have hr' : r ∈ c.rings := mem_rings.mpr (.inl hr)
  refine ⟨(hc.represents.next hr' List.mem_cons_self).1, ?_⟩
  have hholds := hc.represents.holds r hr'
  obtain ⟨anchor, items⟩ := r
  cases items with
  | nil => rfl
  | cons x xs =>
    have hnext : h.next anchor = x := (List.isChain_cons_cons.mp hholds).1.1
    rw [hnext, LibReactor.insertBefore, if_pos rfl]

theorem pushFront (hc : c.Models h) (hitem : item ∉ nodesOf c.rings) (hr : r ∈ c.lists)
    (object : Option Bytes) (size : ℕ) :
    (c.apply (.pushFront item r.anchor object size)).Models
      (h.listPushFront item r.anchor object size).2 := by
  obtain ⟨hnode, hfront⟩ := hc.front hr item
  have hinsert := hc.insert hitem (mem_nodesOf.mpr ⟨r, hr, hnode⟩) object size
  rwa [insert_eq_modify hc.nodup hr hnode (f := fun items => item :: items) hfront] at hinsert

theorem pushBack (hc : c.Models h) (hitem : item ∉ nodesOf c.rings) (hr : r ∈ c.lists)
    (object : Option Bytes) (size : ℕ) :
    (c.apply (.pushBack item r.anchor object size)).Models
      (h.listPushBack item r.anchor object size).2 := by
  have hnode : r.anchor ∈ r.nodes := List.mem_cons_self
  have hanchor : r.anchor ∉ r.items :=
    (List.nodup_cons.mp (hc.represents.nodup_nodes (mem_rings.mpr (.inl hr)))).1
  have hinsert := hc.insert hitem (mem_nodesOf.mpr ⟨r, hr, hnode⟩) object size
  rwa [insert_eq_modify hc.nodup hr hnode (f := fun items => items ++ [item])
    (insertBefore_of_notMem hanchor)] at hinsert

/-- `list_erase` takes an item out of the collection. -/
theorem erase (hc : c.Models h) (hitem : item ∈ c.items) (release : Bool) :
    (c.apply (.erase (itemObject item) release)).Models
      (h.listErase (itemObject item) release) := by
  rw [ListHeap.listErase_links, apply, listObjectItem_itemObject]
  refine ⟨?_, hc.object, congrArg (· ++ _) hc.released, congrArg (· ++ _) hc.freed⟩
  have hunlink := hc.represents.unlink (items_subset hitem)
  rwa [← rings_remove] at hunlink

theorem notMem_remove (hnodup : (nodesOf c.rings).Nodup) (item : ℕ) :
    item ∉ nodesOf (c.remove item).rings := by
  rw [rings_remove, mem_nodesOf]
  rintro ⟨s, hs, hmem⟩
  obtain ⟨r, hr, rfl⟩ := List.mem_map.mp hs
  obtain ⟨hr, hanchor⟩ := List.mem_filter.mp hr
  have hnodup' := (List.nodup_cons.mp ((List.nodup_flatMap.mp hnodup).1 r hr)).2
  rcases List.mem_cons.mp hmem with heq | hmem
  · exact of_decide_eq_true hanchor heq.symm
  · exact (List.Nodup.mem_erase_iff hnodup').mp hmem |>.1 rfl

theorem detach (hc : c.Models h) (hitem : item ∈ c.items) :
    (c.apply (.detach (itemObject item))).Models (h.listDetach (itemObject item)) := by
  rw [ListHeap.listDetach_links, apply, listObjectItem_itemObject]
  refine ⟨?_, hc.object, hc.released, hc.freed⟩
  have hunlink := hc.represents.unlink (items_subset hitem)
  rw [← rings_remove] at hunlink
  exact (hunlink.alone (notMem_remove hc.nodup item)).perm List.perm_middle.symm

theorem mem_remove (hnodup : (nodesOf c.rings).Nodup) (hitem : item ∈ c.items)
    (hnode : node ∈ nodesOf c.lists) (hne : node ≠ item) :
    node ∈ nodesOf (c.remove item).lists := by
  obtain ⟨r, hr, hmem⟩ := mem_nodesOf.mp hnode
  have hfilter : r ∈ c.lists.filter fun s => s.anchor ≠ item :=
    List.mem_filter.mpr ⟨hr, decide_eq_true (anchor_ne hnodup hitem hr)⟩
  refine mem_nodesOf.mpr ⟨r.erase item, List.mem_map.mpr ⟨r, hfilter, rfl⟩, ?_⟩
  exact List.mem_cons.mpr ((List.mem_cons.mp hmem).imp_right (List.mem_erase_of_ne hne).mpr)

theorem splice (hc : c.Models h) (hitem : item ∈ c.items) (hnode : node ∈ nodesOf c.lists)
    (hne : node ≠ item) : (c.apply (.splice (itemObject node) (itemObject item))).Models
      (h.listSplice (itemObject node) (itemObject item)) := by
  have hne' : itemObject node ≠ itemObject item := fun heq => hne (itemObject_inj.mp heq)
  rw [ListHeap.listSplice_links hne', apply, if_neg hne', listObjectItem_itemObject,
    listObjectItem_itemObject]
  refine ⟨?_, hc.object, hc.released, hc.freed⟩
  have hunlink := hc.represents.unlink (items_subset hitem)
  rw [← rings_remove] at hunlink
  have hnode' := mem_remove hc.nodup hitem hnode hne
  have hlink := hunlink.link (lists_subset hnode') (notMem_remove hc.nodup item)
  rwa [← rings_insert hunlink.nodup hnode'] at hlink

theorem listEmpty_iff (hc : c.Models h) (hr : r ∈ c.lists) :
    h.listEmpty r.anchor = true ↔ r.items = [] := by
  have hr' : r ∈ c.rings := mem_rings.mpr (.inl hr)
  have hholds := hc.represents.holds r hr'
  have hnodup := hc.represents.nodup_nodes hr'
  obtain ⟨anchor, items⟩ := r
  have hempty : h.listEmpty anchor = true ↔ h.next anchor = anchor := beq_iff_eq
  rw [hempty]
  cases items with
  | nil => exact iff_of_true (List.isChain_cons_cons.mp hholds).1.1 rfl
  | cons x xs =>
    have hnext : h.next anchor = x := (List.isChain_cons_cons.mp hholds).1.1
    refine iff_of_false (fun heq => ?_) nofun
    exact (List.nodup_cons.mp hnodup).1 (heq ▸ hnext ▸ List.mem_cons_self)

/-- Clearing a list is erasing its first item and clearing the rest. -/
theorem apply_clear_cons (hnodup : (nodesOf c.rings).Nodup) {x : ℕ} {xs : List ℕ}
    (hr : ⟨list, x :: xs⟩ ∈ c.lists) (release : Bool) :
    (⟨list, xs⟩ : LinkRing ℕ) ∈ (c.apply (.erase (itemObject x) release)).lists ∧
      (c.apply (.erase (itemObject x) release)).apply (.clear list release) =
        c.apply (.clear list release) := by
  have hitem : x ∈ c.items :=
    List.mem_append_left _ (List.mem_flatMap.mpr ⟨_, hr, List.mem_cons_self⟩)
  have hanchor : ∀ s ∈ c.lists, s.anchor ≠ x := fun s hs => anchor_ne hnodup hitem hs
  have hfilter : (c.lists.filter fun s => s.anchor ≠ x) = c.lists :=
    List.filter_eq_self.mpr fun s hs => decide_eq_true (hanchor s hs)
  have herase : LinkRing.erase ⟨list, x :: xs⟩ x = ⟨list, xs⟩ := by
    rw [LinkRing.erase, List.erase_cons_head]
  have hlists : (c.remove x).lists = c.lists.map fun s => s.erase x := by
    rw [remove, removeNode, hfilter]
  have hrest : (⟨list, xs⟩ : LinkRing ℕ) ∈ (c.remove x).lists := by
    rw [hlists, ← herase]
    exact List.mem_map.mpr ⟨_, hr, rfl⟩
  have hnodup' : (nodesOf (c.remove x).rings).Nodup := by
    rw [rings_remove]
    exact hnodup.sublist (nodesOf_removeNode_sublist c.rings x)
  have hmap : ((c.remove x).modify list fun _ => []).lists =
      (c.modify list fun _ => []).lists := by
    rw [modify, hlists, List.map_map, modify]
    refine List.map_congr_left fun s hs => ?_
    rw [Function.comp_apply]
    have hanchor' : (s.erase x).anchor = s.anchor := rfl
    rw [hanchor']
    split_ifs with heq
    · rfl
    · refine erase_of_notMem fun hmem => heq ?_
      rw [lists_unique hnodup hs hr hmem (List.mem_cons_of_mem _ List.mem_cons_self)]
  have hdetached : (c.detached.filter fun y => y ≠ x) = c.detached := by
    refine List.filter_eq_self.mpr fun y hy => decide_eq_true ?_
    rintro rfl
    rw [nodesOf_rings] at hnodup
    exact List.disjoint_of_nodup_append hnodup
      (mem_nodesOf.mpr ⟨_, hr, List.mem_cons_of_mem _ List.mem_cons_self⟩) hy
  have hitems : ((c.remove x).drop [x] release).itemsOf list = xs :=
    itemsOf_eq (c := (c.remove x)) hnodup' hrest
  have hitems' : c.itemsOf list = x :: xs := itemsOf_eq hnodup hr
  rw [apply, listObjectItem_itemObject]
  refine ⟨hrest, ?_⟩
  rw [apply, apply, hitems, hitems', drop, drop, drop]
  simp only [Collection.mk.injEq]
  refine ⟨hmap, hdetached, rfl, ?_, List.append_assoc _ _ _⟩
  cases release with
  | true => exact List.append_assoc _ _ _
  | false => exact List.append_nil _

/-- `list_clear` erases the items from the front on and ends. -/
theorem clear (hc : c.Models h) (hr : r ∈ c.lists) (release : Bool) :
    ∃ h', (∀ fuel > r.items.length, h.listClear r.anchor release fuel = .ok h') ∧
      (c.apply (.clear r.anchor release)).Models h' := by
  obtain ⟨list, items⟩ := r
  induction items generalizing c h with
  | nil =>
    have hturn : ListHeap.clearTurn list release h = .ok (.inl h) :=
      if_pos ((hc.listEmpty_iff hr).mpr rfl)
    have hlists : (c.modify list fun _ => []) = c := by
      have hmap : c.lists.map (fun s => if s.anchor = list then ⟨list, []⟩ else s) = c.lists := by
        refine (List.map_congr_left fun s hs => ?_).trans (List.map_id c.lists)
        split_ifs with heq
        · exact lists_unique hc.nodup hr hs List.mem_cons_self (heq ▸ List.mem_cons_self)
        · rfl
      rw [modify, hmap]
    refine ⟨h, fun fuel hfuel => ?_, ?_⟩
    · rw [ListHeap.listClear, Loop.within_eq_ok]
      exact Loop.run_mono _ (Nat.succ_le_of_lt hfuel) (Loop.run_succ_done _ hturn 0)
    · rw [apply, hlists, itemsOf_eq hc.nodup hr, drop]
      refine ⟨hc.represents, hc.object, ?_, ?_⟩
      · rw [hc.released]
        cases release <;> exact (List.append_nil _).symm
      · rw [hc.freed]
        exact (List.append_nil _).symm
  | cons x xs ih =>
    have hfront : h.listFront list = itemObject x := by
      have hholds := hc.represents.holds _ (mem_rings.mpr (.inl hr))
      exact congrArg itemObject (List.isChain_cons_cons.mp hholds).1.1
    have hne : h.listEmpty list ≠ true := fun hempty => by
      cases (hc.listEmpty_iff hr).mp hempty
    have hturn : ListHeap.clearTurn list release h =
        .ok (.inr (h.listErase (itemObject x) release)) := by
      rw [ListHeap.clearTurn, if_neg hne, hfront]
    have hitem : x ∈ c.items :=
      List.mem_append_left _ (List.mem_flatMap.mpr ⟨_, hr, List.mem_cons_self⟩)
    obtain ⟨hrest, hclear⟩ := apply_clear_cons hc.nodup hr release
    obtain ⟨h', hrun, hc'⟩ := ih (hc.erase hitem release) hrest
    refine ⟨h', fun fuel hfuel => ?_, hclear ▸ hc'⟩
    obtain ⟨n, rfl⟩ : ∃ n, fuel = n + 1 := ⟨fuel - 1, (Nat.sub_add_cancel (by omega)).symm⟩
    have hrest' := hrun n (Nat.lt_of_succ_lt_succ hfuel)
    rw [ListHeap.listClear, Loop.within_eq_ok] at hrest' ⊢
    rwa [Loop.run_succ_next _ hturn]

/-- The step lemma: a call that is allowed returns, and does to the sequences what it has to. -/
theorem step (hc : c.Models h) {call : ListCall} (hallows : c.Allows call) :
    ∃ n h', (∀ fuel ≥ n, h.perform fuel call = .ok h') ∧ (c.apply call).Models h' := by
  cases call with
  | construct list => exact ⟨0, _, fun _ _ => rfl, hc.construct hallows⟩
  | insert item listObject object size =>
    obtain ⟨hitem, ⟨node, hnode, rfl⟩, -⟩ := hallows
    refine ⟨0, _, fun _ _ => rfl, ?_⟩
    rw [apply, listObjectItem_itemObject]
    exact hc.insert hitem hnode object size
  | pushFront item list object size =>
    obtain ⟨hitem, ⟨r, hr, rfl⟩, -⟩ := hallows
    exact ⟨0, _, fun _ _ => rfl, hc.pushFront hitem hr object size⟩
  | pushBack item list object size =>
    obtain ⟨hitem, ⟨r, hr, rfl⟩, -⟩ := hallows
    exact ⟨0, _, fun _ _ => rfl, hc.pushBack hitem hr object size⟩
  | splice object1 object2 =>
    obtain ⟨⟨item, hitem, rfl⟩, hposition⟩ := hallows
    refine ⟨0, _, fun _ _ => rfl, ?_⟩
    by_cases heq : object1 = itemObject item
    · rw [apply, if_pos heq, ListHeap.listSplice, if_pos heq]
      exact hc
    · obtain ⟨node, hnode, rfl⟩ := hposition.resolve_left heq
      exact hc.splice hitem hnode fun h => heq (congrArg itemObject h)
  | detach object =>
    obtain ⟨item, hitem, rfl⟩ := hallows
    exact ⟨0, _, fun _ _ => rfl, hc.detach hitem⟩
  | erase object release =>
    obtain ⟨item, hitem, rfl⟩ := hallows
    exact ⟨0, _, fun _ _ => rfl, hc.erase hitem release⟩
  | clear list release =>
    obtain ⟨r, hr, rfl⟩ := hallows
    obtain ⟨h', hrun, hc'⟩ := hc.clear hr release
    exact ⟨r.items.length + 1, h', hrun, hc'⟩

/-- The run lemma. -/
theorem run {calls : List ListCall} (hc : c.Models h) (hallows : c.AllowsAll calls) :
    ∃ n h', (∀ fuel ≥ n, h.performAll fuel calls = .ok h') ∧ (c.applyAll calls).Models h' := by
  induction calls generalizing c h with
  | nil => exact ⟨0, h, fun _ _ => rfl, hc⟩
  | cons call calls ih =>
    obtain ⟨n, h₁, hcall, hc₁⟩ := hc.step hallows.1
    obtain ⟨m, h', hcalls, hc'⟩ := ih hc₁ hallows.2
    refine ⟨max n m, h', fun fuel hfuel => ?_, hc'⟩
    rw [ListHeap.performAll, List.foldlM_cons, hcall fuel (le_trans (le_max_left n m) hfuel)]
    exact hcalls fuel (le_trans (le_max_right n m) hfuel)

end Models

/-! ## Traversals -/

theorem foreach_takes {f : ℕ → ℕ} {x : ℕ} {ys : List ℕ}
    (hchain : (x :: (ys ++ [list])).IsChain fun a b => f a = b) (hlist : list ∉ ys)
    (seen : List ℕ) :
    Loop.Takes (ListHeap.foreachTurn list fun o => itemObject (f (listObjectItem o))) ys.length
      (itemObject (f x), seen) (ListHeap.listEnd list, seen ++ ys.map itemObject) := by
  induction ys generalizing x seen with
  | nil =>
    have hx : f x = list := (List.isChain_cons_cons.mp hchain).1
    rw [hx, List.map_nil, List.append_nil]
    exact Loop.Takes.refl _
  | cons y ys ih =>
    obtain ⟨hx, hrest⟩ := List.isChain_cons_cons.mp hchain
    obtain ⟨hne, hlist⟩ := not_or.mp (List.mem_cons.not.mp hlist)
    have hturn : ListHeap.foreachTurn list (fun o => itemObject (f (listObjectItem o)))
        (itemObject y, seen) = .ok (.inr (itemObject (f y), seen ++ [itemObject y])) := by
      have hend : itemObject y ≠ ListHeap.listEnd list := fun heq =>
        hne (itemObject_inj.mp heq).symm
      rw [ListHeap.foreachTurn, if_neg hend, listObjectItem_itemObject]
    rw [hx, List.length_cons, Nat.add_comm, List.map_cons, List.append_cons]
    exact (Loop.Takes.one hturn).trans (ih hrest hlist _)

theorem foreachTurn_end (list : ℕ) (advance : ℕ → ℕ) (seen : List ℕ) :
    ListHeap.foreachTurn list advance (ListHeap.listEnd list, seen) = .ok (.inl seen) :=
  if_pos rfl

theorem Models.foreach {h : ListHeap} (hc : c.Models h) (hr : r ∈ c.lists) {fuel : ℕ}
    (hfuel : r.items.length < fuel) :
    h.listForeach r.anchor fuel = .ok (r.items.map itemObject) ∧
      h.listForeachReverse r.anchor fuel = .ok (r.items.map itemObject).reverse := by
  have hr' : r ∈ c.rings := mem_rings.mpr (.inl hr)
  have hholds := hc.represents.holds r hr'
  have hanchor : r.anchor ∉ r.items :=
    (List.nodup_cons.mp (hc.represents.nodup_nodes hr')).1
  have hnext : (r.anchor :: (r.items ++ [r.anchor])).IsChain fun a b => h.next a = b :=
    hholds.imp fun _ _ hadjacent => hadjacent.1
  have hprevious : (r.anchor :: (r.items.reverse ++ [r.anchor])).IsChain
      fun a b => h.previous a = b := by
    have hreverse : (r.anchor :: (r.items ++ [r.anchor])).reverse =
        r.anchor :: (r.items.reverse ++ [r.anchor]) := by
      rw [List.reverse_cons, List.reverse_append]
      rfl
    rw [← hreverse, List.isChain_reverse]
    exact hholds.imp fun _ _ hadjacent => hadjacent.2
  constructor
  · rw [ListHeap.listForeach, Loop.within_eq_ok]
    exact (foreach_takes hnext hanchor []).run_done (foreachTurn_end _ _ _) hfuel
  · rw [ListHeap.listForeachReverse, Loop.within_eq_ok, ← List.map_reverse]
    refine (foreach_takes hprevious (fun hmem => hanchor (List.mem_reverse.mp hmem)) []).run_done
      (foreachTurn_end _ _ _) ?_
    rwa [List.length_reverse]

end Collection

def ListCall.nodes : ListCall → List ℕ
  | .construct list => [list]
  | .insert item listObject _ _ => [item, listObjectItem listObject]
  | .pushFront item list _ _ => [item, list]
  | .pushBack item list _ _ => [item, list]
  | .splice object1 object2 => [listObjectItem object1, listObjectItem object2]
  | .detach object => [listObjectItem object]
  | .erase object _ => [listObjectItem object]
  | .clear list _ => [list]

namespace Collection

variable {c : Collection} {r : LinkRing ℕ} {item node list : ℕ}

theorem mem_lists_remove (hr : r ∈ c.lists) (hitem : item ∉ r.nodes) :
    r ∈ (c.remove item).lists := by
  have hfilter : r ∈ c.lists.filter fun s => s.anchor ≠ item := by
    refine List.mem_filter.mpr ⟨hr, decide_eq_true fun heq => hitem ?_⟩
    exact heq ▸ List.mem_cons_self
  exact List.mem_map.mpr ⟨r, hfilter, erase_of_notMem hitem⟩

theorem mem_lists_insert (hr : r ∈ c.lists) (hnode : node ∉ r.nodes) :
    r ∈ (c.insert node item).lists :=
  List.mem_map.mpr ⟨r, hr, LinkRing.insertBefore_of_notMem hnode item⟩

theorem mem_lists_modify (hr : r ∈ c.lists) (hlist : list ∉ r.nodes) (f : List ℕ → List ℕ) :
    r ∈ (c.modify list f).lists := by
  have hne : r.anchor ≠ list := fun heq => hlist (heq ▸ List.mem_cons_self)
  exact List.mem_map.mpr ⟨r, hr, if_neg hne⟩

theorem mem_lists_apply {call : ListCall} (hr : r ∈ c.lists)
    (hnodes : ∀ node ∈ call.nodes, node ∉ r.nodes) : r ∈ (c.apply call).lists := by
  cases call with
  | construct list => exact List.mem_cons_of_mem _ hr
  | insert item listObject object size =>
    exact mem_lists_insert hr (hnodes _ (List.mem_cons_of_mem _ List.mem_cons_self))
  | pushFront item list object size =>
    have hlist := hnodes list (List.mem_cons_of_mem _ List.mem_cons_self)
    exact mem_lists_modify hr hlist fun items => item :: items
  | pushBack item list object size =>
    have hlist := hnodes list (List.mem_cons_of_mem _ List.mem_cons_self)
    exact mem_lists_modify hr hlist fun items => items ++ [item]
  | splice object1 object2 =>
    rw [apply]
    split_ifs
    · exact hr
    · have hrest := mem_lists_remove hr (hnodes _ (List.mem_cons_of_mem _ List.mem_cons_self))
      exact mem_lists_insert hrest (hnodes _ List.mem_cons_self)
  | detach object => exact mem_lists_remove hr (hnodes _ List.mem_cons_self)
  | erase object release => exact mem_lists_remove hr (hnodes _ List.mem_cons_self)
  | clear list release => exact mem_lists_modify hr (hnodes list List.mem_cons_self) fun _ => []

theorem mem_lists_applyAll {calls : List ListCall} (hr : r ∈ c.lists)
    (hnodes : ∀ call ∈ calls, ∀ node ∈ call.nodes, node ∉ r.nodes) :
    r ∈ (c.applyAll calls).lists := by
  induction calls generalizing c with
  | nil => exact hr
  | cons call calls ih =>
    refine ih (mem_lists_apply hr (hnodes call List.mem_cons_self)) fun call' hcall' => ?_
    exact hnodes call' (List.mem_cons_of_mem _ hcall')

/-- After every sequence of allowed calls on every collection of lists and detached items, with
enough turns for `list_clear`, the pointers are inverse to each other, every node is on one ring,
traversals pass the items that the operations on sequences leave, lists that no call names are
unchanged, and the items were released and freed as the sequences say. -/
theorem list_sequences {h : ListHeap} {calls : List ListCall} (hc : c.Models h)
    (hallows : c.AllowsAll calls) :
    ∃ n h', (∀ fuel ≥ n, h.performAll fuel calls = .ok h') ∧
      (nodesOf (c.applyAll calls).rings).Nodup ∧
      (∀ r ∈ (c.applyAll calls).rings, ∀ x ∈ r.nodes,
        (h'.next x ∈ r.nodes ∧ h'.previous (h'.next x) = x) ∧
        (h'.previous x ∈ r.nodes ∧ h'.next (h'.previous x) = x)) ∧
      (∀ r ∈ (c.applyAll calls).lists, ∀ fuel > r.items.length,
        h'.listForeach r.anchor fuel = .ok (r.items.map itemObject) ∧
        h'.listForeachReverse r.anchor fuel = .ok (r.items.map itemObject).reverse) ∧
      (∀ r ∈ c.lists, (∀ call ∈ calls, ∀ node ∈ call.nodes, node ∉ r.nodes) →
        r ∈ (c.applyAll calls).lists) ∧
      h'.released = (c.applyAll calls).released ∧ h'.freed = (c.applyAll calls).freed ∧
      h'.object = (c.applyAll calls).object := by
  obtain ⟨n, h', hrun, hc'⟩ := hc.run hallows
  refine ⟨n, h', hrun, hc'.nodup, fun r hr x hx => ⟨?_, ?_⟩, fun r hr fuel hfuel => ?_,
    fun r hr hnodes => mem_lists_applyAll hr hnodes, hc'.released, hc'.freed, hc'.object⟩
  · exact hc'.represents.next hr hx
  · exact hc'.represents.previous hr hx
  · exact hc'.foreach hr hfuel

/-- Items of two lists, one spliced to the other list, and both lists cleared. -/
theorem list_sequences_two : ∃ n h',
    (∀ fuel ≥ n, ListHeap.performAll fuel ⟨⟨id, id⟩, fun _ => [], [], []⟩
      [.construct 4096, .construct 4112, .pushBack 64 4096 (some [1]) 1,
        .pushFront 96 4096 none 4, .insert 128 80 (some [2]) 1, .splice 4128 144,
        .detach 80, .splice 144 80, .erase 112 false, .clear 4112 true] = .ok h') ∧
      h'.released = [80, 144] ∧ h'.freed = [96, 64, 128] := by
  have hempty : Models ⟨[], [], fun _ => [], [], []⟩ ⟨⟨id, id⟩, fun _ => [], [], []⟩ :=
    ⟨⟨nofun, List.nodup_nil⟩, rfl, rfl, rfl⟩
  have hallows : AllowsAll ⟨[], [], fun _ => [], [], []⟩
      [.construct 4096, .construct 4112, .pushBack 64 4096 (some [1]) 1,
        .pushFront 96 4096 none 4, .insert 128 80 (some [2]) 1, .splice 4128 144,
        .detach 80, .splice 144 80, .erase 112 false, .clear 4112 true] := by decide
  obtain ⟨n, h', hrun, -, -, -, -, hreleased, hfreed, -⟩ := list_sequences hempty hallows
  exact ⟨n, h', hrun, hreleased, hfreed⟩

end Collection

end LibReactor
