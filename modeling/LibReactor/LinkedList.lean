import LibReactor.LinkedRing
import LibReactor.Loop
import LibReactor.Memory

/-!
# Linked lists

A `list_t` is the node that a ring of items is entered by. The object of an item
lies behind its two pointers, and callers only see pointers to objects. A
collection of lists and of items that were detached says what the heap of nodes
stands for, and every function of `list.c` is an operation on its sequences.
-/

namespace LibReactor

open LinkRing

/-- The nodes, the objects of the items, the objects that `release` was called with and the items
that were freed. -/
structure ListHeap where
  links : Links ℕ
  object : ℕ → Bytes
  released : List ℕ
  freed : List ℕ

def objectOffset : ℕ := 16

def listObjectItem (object : ℕ) : ℕ := object - objectOffset

def itemObject (item : ℕ) : ℕ := item + objectOffset

@[simp] theorem listObjectItem_itemObject (item : ℕ) : listObjectItem (itemObject item) = item :=
  Nat.add_sub_cancel item objectOffset

theorem itemObject_inj {x y : ℕ} : itemObject x = itemObject y ↔ x = y := Nat.add_right_cancel_iff

namespace ListHeap

def next (h : ListHeap) (item : ℕ) : ℕ := h.links.next item

def previous (h : ListHeap) (item : ℕ) : ℕ := h.links.previous item

def setNext (h : ListHeap) (item link : ℕ) : ListHeap :=
  { h with links := h.links.setNext item link }

def setPrevious (h : ListHeap) (item link : ℕ) : ListHeap :=
  { h with links := h.links.setPrevious item link }

/-- The object of a new item: `calloc` clears it, and `memcpy` fills it unless it is `NULL`. -/
def newObject (object : Option Bytes) (size : ℕ) : Bytes :=
  match object with
  | some bytes => write (List.replicate size 0) 0 (bytes.take size)
  | none => List.replicate size 0

/-- `list_item_new`, where `calloc` returns `item` -/
def listItemNew (h : ListHeap) (item : ℕ) (object : Option Bytes) (size : ℕ) : ListHeap :=
  let h := (h.setNext item 0).setPrevious item 0
  { h with object := Function.update h.object item (newObject object size) }

def listConstruct (h : ListHeap) (list : ℕ) : ListHeap :=
  let h := h.setNext list list
  h.setPrevious list list

def listNext (h : ListHeap) (object : ℕ) : ℕ := itemObject (h.next (listObjectItem object))

def listPrevious (h : ListHeap) (object : ℕ) : ℕ := itemObject (h.previous (listObjectItem object))

def listEmpty (h : ListHeap) (list : ℕ) : Bool := h.next list == list

def listFront (h : ListHeap) (list : ℕ) : ℕ := itemObject (h.next list)

def listBack (h : ListHeap) (list : ℕ) : ℕ := itemObject (h.previous list)

def listEnd (list : ℕ) : ℕ := itemObject list

def listInsert (h : ListHeap) (item listObject : ℕ) (object : Option Bytes) (size : ℕ) :
    ℕ × ListHeap :=
  let after := listObjectItem listObject
  let h := h.listItemNew item object size
  let h := h.setPrevious item (h.previous after)
  let h := h.setNext item after
  let h := h.setNext (h.previous item) item
  let h := h.setPrevious (h.next item) item
  (itemObject item, h)

def listPushFront (h : ListHeap) (item list : ℕ) (object : Option Bytes) (size : ℕ) :
    ℕ × ListHeap :=
  h.listInsert item (h.listFront list) object size

def listPushBack (h : ListHeap) (item list : ℕ) (object : Option Bytes) (size : ℕ) :
    ℕ × ListHeap :=
  h.listInsert item (listEnd list) object size

def listSplice (h : ListHeap) (object1 object2 : ℕ) : ListHeap :=
  if object1 = object2 then h
  else
    let toItem := listObjectItem object1
    let fromItem := listObjectItem object2
    let h := h.setNext (h.previous fromItem) (h.next fromItem)
    let h := h.setPrevious (h.next fromItem) (h.previous fromItem)
    let h := h.setPrevious fromItem (h.previous toItem)
    let h := h.setNext fromItem toItem
    let h := h.setNext (h.previous fromItem) fromItem
    h.setPrevious (h.next fromItem) fromItem

def listDetach (h : ListHeap) (object : ℕ) : ListHeap :=
  let item := listObjectItem object
  let h := h.setNext (h.previous item) (h.next item)
  let h := h.setPrevious (h.next item) (h.previous item)
  let h := h.setNext item item
  h.setPrevious item item

/-- `list_erase`, where `release` tells whether there is a release function -/
def listErase (h : ListHeap) (object : ℕ) (release : Bool) : ListHeap :=
  let item := listObjectItem object
  let h := h.setNext (h.previous item) (h.next item)
  let h := h.setPrevious (h.next item) (h.previous item)
  let h := if release then { h with released := h.released ++ [object] } else h
  { h with freed := h.freed ++ [item] }

def clearTurn (list : ℕ) (release : Bool) (h : ListHeap) : Except Fault (ListHeap ⊕ ListHeap) :=
  if h.listEmpty list then .ok (.inl h)
  else .ok (.inr (h.listErase (h.listFront list) release))

/-- `list_clear`, and `list_destruct` -/
def listClear (h : ListHeap) (list : ℕ) (release : Bool) (fuel : ℕ) : Except Fault ListHeap :=
  Loop.within .hang (clearTurn list release) fuel h

/-- One turn of `list_foreach` and `list_foreach_reverse`: the body sees one object more. -/
def foreachTurn (list : ℕ) (advance : ℕ → ℕ) : ℕ × List ℕ → Except Fault (List ℕ ⊕ ℕ × List ℕ)
  | (o, seen) =>
    if o = listEnd list then .ok (.inl seen) else .ok (.inr (advance o, seen ++ [o]))

def listForeach (h : ListHeap) (list fuel : ℕ) : Except Fault (List ℕ) :=
  Loop.within .hang (foreachTurn list h.listNext) fuel (h.listFront list, [])

def listForeachReverse (h : ListHeap) (list fuel : ℕ) : Except Fault (List ℕ) :=
  Loop.within .hang (foreachTurn list h.listPrevious) fuel (h.listBack list, [])

end ListHeap

/-- The calls of `list.c` that write; `item` is the address that `calloc` returns. -/
inductive ListCall
  | construct (list : ℕ)
  | insert (item listObject : ℕ) (object : Option Bytes) (size : ℕ)
  | pushFront (item list : ℕ) (object : Option Bytes) (size : ℕ)
  | pushBack (item list : ℕ) (object : Option Bytes) (size : ℕ)
  | splice (object1 object2 : ℕ)
  | detach (object : ℕ)
  | erase (object : ℕ) (release : Bool)
  | clear (list : ℕ) (release : Bool)
  deriving DecidableEq

namespace ListHeap

def perform (fuel : ℕ) (h : ListHeap) : ListCall → Except Fault ListHeap
  | .construct list => .ok (h.listConstruct list)
  | .insert item listObject object size => .ok (h.listInsert item listObject object size).2
  | .pushFront item list object size => .ok (h.listPushFront item list object size).2
  | .pushBack item list object size => .ok (h.listPushBack item list object size).2
  | .splice object1 object2 => .ok (h.listSplice object1 object2)
  | .detach object => .ok (h.listDetach object)
  | .erase object release => .ok (h.listErase object release)
  | .clear list release => h.listClear list release fuel

def performAll (fuel : ℕ) (h : ListHeap) (calls : List ListCall) : Except Fault ListHeap :=
  calls.foldlM (perform fuel) h

end ListHeap

/-! ## Sequences -/

/-- The lists with their items in order, the items on no list, and what was released and freed. -/
structure Collection where
  lists : List (LinkRing ℕ)
  detached : List ℕ
  object : ℕ → Bytes
  released : List ℕ
  freed : List ℕ

namespace Collection

def rings (c : Collection) : List (LinkRing ℕ) := c.lists ++ c.detached.map fun item => ⟨item, []⟩

def items (c : Collection) : List ℕ := c.lists.flatMap LinkRing.items ++ c.detached

def itemsOf (c : Collection) (list : ℕ) : List ℕ :=
  (c.lists.find? fun r => r.anchor = list).elim [] LinkRing.items

def modify (c : Collection) (list : ℕ) (f : List ℕ → List ℕ) : Collection :=
  { c with lists := c.lists.map fun r => if r.anchor = list then ⟨list, f r.items⟩ else r }

def store (c : Collection) (item : ℕ) (object : Option Bytes) (size : ℕ) : Collection :=
  { c with object := Function.update c.object item (ListHeap.newObject object size) }

def remove (c : Collection) (item : ℕ) : Collection :=
  { c with
    lists := removeNode c.lists item
    detached := c.detached.filter fun x => x ≠ item }

def insert (c : Collection) (node item : ℕ) : Collection :=
  { c with lists := insertNode c.lists node item }

def drop (c : Collection) (items : List ℕ) (release : Bool) : Collection :=
  { c with
    released := c.released ++ if release then items.map itemObject else []
    freed := c.freed ++ items }

def apply (c : Collection) : ListCall → Collection
  | .construct list => { c with lists := ⟨list, []⟩ :: c.lists }
  | .insert item listObject object size =>
    (c.insert (listObjectItem listObject) item).store item object size
  | .pushFront item list object size =>
    (c.modify list fun items => item :: items).store item object size
  | .pushBack item list object size =>
    (c.modify list fun items => items ++ [item]).store item object size
  | .splice object1 object2 =>
    if object1 = object2 then c
    else
      (c.remove (listObjectItem object2)).insert (listObjectItem object1) (listObjectItem object2)
  | .detach object =>
    let c := c.remove (listObjectItem object)
    { c with detached := listObjectItem object :: c.detached }
  | .erase object release =>
    (c.remove (listObjectItem object)).drop [listObjectItem object] release
  | .clear list release => (c.modify list fun _ => []).drop (c.itemsOf list) release

def applyAll (c : Collection) (calls : List ListCall) : Collection := calls.foldl apply c

/-- What a caller has to keep to: new nodes are not in use, items are put before nodes of lists, and
only items are moved and erased. -/
def Allows (c : Collection) : ListCall → Prop
  | .construct list => list ∉ nodesOf c.rings
  | .insert item listObject object size => item ∉ nodesOf c.rings ∧
    (∃ node ∈ nodesOf c.lists, listObject = itemObject node) ∧ ∀ bytes ∈ object, size ≤ bytes.length
  | .pushFront item list object size => item ∉ nodesOf c.rings ∧ (∃ r ∈ c.lists, r.anchor = list) ∧
    ∀ bytes ∈ object, size ≤ bytes.length
  | .pushBack item list object size => item ∉ nodesOf c.rings ∧ (∃ r ∈ c.lists, r.anchor = list) ∧
    ∀ bytes ∈ object, size ≤ bytes.length
  | .splice object1 object2 => (∃ item ∈ c.items, object2 = itemObject item) ∧
    (object1 = object2 ∨ ∃ node ∈ nodesOf c.lists, object1 = itemObject node)
  | .detach object => ∃ item ∈ c.items, object = itemObject item
  | .erase object _ => ∃ item ∈ c.items, object = itemObject item
  | .clear list _ => ∃ r ∈ c.lists, r.anchor = list

instance (c : Collection) : (call : ListCall) → Decidable (c.Allows call)
  | .construct _ => inferInstanceAs (Decidable (_ ∉ _))
  | .insert _ _ _ _ => inferInstanceAs (Decidable (_ ∧ _ ∧ _))
  | .pushFront _ _ _ _ => inferInstanceAs (Decidable (_ ∧ _ ∧ _))
  | .pushBack _ _ _ _ => inferInstanceAs (Decidable (_ ∧ _ ∧ _))
  | .splice _ _ => inferInstanceAs (Decidable (_ ∧ (_ ∨ _)))
  | .detach _ => inferInstanceAs (Decidable (∃ item ∈ _, _))
  | .erase _ _ => inferInstanceAs (Decidable (∃ item ∈ _, _))
  | .clear _ _ => inferInstanceAs (Decidable (∃ r ∈ _, _))

def AllowsAll (c : Collection) : List ListCall → Prop
  | [] => True
  | call :: calls => c.Allows call ∧ (c.apply call).AllowsAll calls

instance AllowsAll.decidable : (c : Collection) → (calls : List ListCall) →
    Decidable (c.AllowsAll calls)
  | _, [] => .isTrue trivial
  | c, call :: calls =>
    have := decidable (c.apply call) calls
    inferInstanceAs (Decidable (c.Allows call ∧ (c.apply call).AllowsAll calls))

end Collection

end LibReactor
