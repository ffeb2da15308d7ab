import LibReactor.Map
import Mathlib.Data.Int.Notation

/-!
# Values

`value_t` without its reference counts: every value has one owner, and `objects`
counts the heap objects a release gives back. An object's members are a hash map
from keys to values; the hash of a key is a parameter. `tree` is what a value
says, with the members of every object in the order of their keys.
-/

namespace LibReactor

/-- `value_t`; an entry of an object without a key is an empty slot. A foreign value is one that
`value_create` made with a table of another type. -/
inductive Value (L : Type)
  | undefined
  | null
  | bool (b : Bool)
  | number (n : L)
  | string (s : Bytes)
  | array (elements : List (Value L))
  | object (members : Map (Option Bytes × Value L))
  | foreign

abbrev Entry (L : Type) := Option Bytes × Value L

variable {L : Type}

def mapdOps (hashData : Bytes → UInt64) : MapOps (Entry L) where
  hash e := hashData (e.1.getD [])
  equal a
    | none => a.1.isNone
    | some b => a.1.getD [] == b.1.getD []
  set
    | none => (none, .undefined)
    | some e => e

namespace Value

def isUndefined : Value L → Bool
  | undefined => true
  | _ => false

def isString : Value L → Bool
  | string _ => true
  | _ => false

def isArray : Value L → Bool
  | array _ => true
  | _ => false

def isObject : Value L → Bool
  | object _ => true
  | _ => false

def stringGet : Value L → Bytes
  | string s => s
  | _ => []

def arrayLength : Value L → ℕ
  | array vs => vs.length
  | _ => 0

/-- `value_array_get`; an array's element past its end is not there to read. -/
def arrayGet : Value L → ℕ → Except Fault (Value L)
  | array vs, i =>
    match vs[i]? with
    | some v => .ok v
    | none => .error .outside
  | _, _ => .ok undefined

def objectSize : Value L → ℕ
  | object m => m.mapSize
  | _ => 0

end Value

def memcmp : Bytes → Bytes → ℤ
  | a :: as, b :: bs => if a = b then memcmp as bs else a.toNat - b.toNat
  | _, _ => 0

def keysCompare (d1 d2 : Bytes) : ℤ :=
  let result := memcmp (d1.take (min d1.length d2.length)) (d2.take (min d1.length d2.length))
  if result ≠ 0 then result else if d2.length < d1.length then 1 else -1

namespace Value

section Object

variable (hashData : Bytes → UInt64)

def newObject : Except Fault (Value L) := object <$> Map.mapConstruct (mapdOps hashData)

/-- `value_object_delete`, with the entries it releases -/
def objectDelete (key : Bytes) : Value L → Except Fault (Value L × List (Entry L))
  | object m => do
    let (m, released) ← Map.mapErase (mapdOps hashData) m (some key, undefined)
    return (object m, released)
  | v => .ok (v, [])

def objectSetRelease (v : Value L) (key : Bytes) (value : Value L) :
    Except Fault (Value L × List (Entry L)) := do
  let (v, erased) ← objectDelete hashData key v
  match v with
  | object m => do
    let (m, refused) ← Map.mapInsert (mapdOps hashData) m (some key, value)
    return (object m, erased ++ refused)
  | v => return (v, [(some key, value)])

def objectGet (key : Bytes) : Value L → Except Fault (Value L)
  | object m => do
    let i ← Map.mapAt (mapdOps hashData) m (some key, undefined)
    let e ← m.element i
    return e.2
  | _ => .ok undefined

def objectKeys : Value L → Value L
  | object m =>
    array (((m.elements.filterMap Prod.fst).mergeSort (fun a b => keysCompare a b ≤ 0)).map string)
  | _ => array []

end Object

mutual

def objects : Value L → ℕ
  | undefined => 0
  | null => 0
  | bool _ => 1
  | number _ => 1
  | string _ => 1
  | array vs => 1 + objectsList vs
  | object m => 1 + objectsMap m
  | foreign => 1

def objectsList : List (Value L) → ℕ
  | [] => 0
  | v :: vs => objects v + objectsList vs

def objectsMap : Map (Option Bytes × Value L) → ℕ
  | ⟨es, _⟩ => objectsEntries es

def objectsEntries : List (Option Bytes × Value L) → ℕ
  | [] => 0
  | e :: es => objectsEntry e + objectsEntries es

def objectsEntry : Option Bytes × Value L → ℕ
  | (none, _) => 0
  | (some _, v) => objects v

end

end Value

/-- What a value says. The members of an object are pairs of a key and a value; a foreign value
says no more than an undefined one. -/
inductive Tree (L : Type)
  | undefined
  | null
  | bool (b : Bool)
  | number (n : L)
  | string (s : Bytes)
  | array (elements : List (Tree L))
  | object (members : List (Bytes × Tree L))

def sortMembers {α : Type} (members : List (Bytes × α)) : List (Bytes × α) :=
  members.mergeSort (fun a b => keysCompare a.1 b.1 ≤ 0)

namespace Value

mutual

def tree : Value L → Tree L
  | undefined => .undefined
  | null => .null
  | bool b => .bool b
  | number n => .number n
  | string s => .string s
  | array vs => .array (treeList vs)
  | object m => .object (sortMembers (treeMap m))
  | foreign => .undefined

def treeList : List (Value L) → List (Tree L)
  | [] => []
  | v :: vs => tree v :: treeList vs

def treeMap : Map (Option Bytes × Value L) → List (Bytes × Tree L)
  | ⟨es, _⟩ => treeEntries es

def treeEntries : List (Option Bytes × Value L) → List (Bytes × Tree L)
  | [] => []
  | e :: es => treeEntry e ++ treeEntries es

def treeEntry : Option Bytes × Value L → List (Bytes × Tree L)
  | (none, _) => []
  | (some key, v) => [(key, tree v)]

end

end Value

namespace Tree

/-- The members with the last one of each key, in the order of these. -/
def lastWins {α : Type} (members : List (Bytes × α)) : List (Bytes × α) :=
  members.foldl (fun ms m => ms.filter (fun x => x.1 ≠ m.1) ++ [m]) []

mutual

/-- The tree in which the last of duplicate keys has won in every object. -/
def resolve : Tree L → Tree L
  | undefined => undefined
  | null => null
  | bool b => bool b
  | number n => number n
  | string s => string s
  | array ts => array (resolveList ts)
  | object ms => object (sortMembers (lastWins (resolveMembers ms)))

def resolveList : List (Tree L) → List (Tree L)
  | [] => []
  | t :: ts => resolve t :: resolveList ts

def resolveMembers : List (Bytes × Tree L) → List (Bytes × Tree L)
  | [] => []
  | m :: ms => resolveMember m :: resolveMembers ms

def resolveMember : Bytes × Tree L → Bytes × Tree L
  | (key, t) => (key, resolve t)

end

mutual

def width : Tree L → ℕ
  | undefined => 0
  | null => 0
  | bool _ => 0
  | number _ => 0
  | string _ => 0
  | array ts => widthList ts
  | object ms => max ms.length (widthMembers ms)

def widthList : List (Tree L) → ℕ
  | [] => 0
  | t :: ts => max (width t) (widthList ts)

def widthMembers : List (Bytes × Tree L) → ℕ
  | [] => 0
  | m :: ms => max (widthMember m) (widthMembers ms)

def widthMember : Bytes × Tree L → ℕ
  | (_, t) => width t

end

end Tree

end LibReactor
