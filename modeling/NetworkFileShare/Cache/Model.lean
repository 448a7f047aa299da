import NetworkFileShare.Common
import NetworkFileShare.Lib.Loop
import NetworkFileShare.Lib.Run

/-!
# The metadata cache (`cache.c`)

A hash table of `capacity` slots with linear probing, whose nodes are also linked in order of use between
two sentinels `head` and `tail`.

* `LRUCache` : the heap of nodes, the table and the size; an address is never used twice;
* `cacheGet`, `cachePut`, `cacheRemove`, `cacheClear` : the operations, every loop with the fuel it is
  given, `none` when a loop has not ended within it;
* `CacheStep` : an operation that returned, with its answer.
-/

namespace NetworkFileShare

open Loop

abbrev Addr := Nat

/-- No node. -/
abbrev NULL : Addr := 0

structure CacheNode where
  key : CArray MAX_FILENAME
  value : FileMetadata
  prev : Addr
  next : Addr

/-- The memory of a node before it is written. -/
def CacheNode.zero : CacheNode := ⟨.empty _, .zero, NULL, NULL⟩

structure LRUCache where
  capacity : Nat
  capacity_pos : 0 < capacity
  size : Nat
  head : Addr
  tail : Addr
  hashTable : Nat → Option Addr
  heap : Addr → CacheNode
  fresh : Addr

/-- The `unsigned int` that `hash_string` accumulates; a `char` is signed. -/
def hashBytes (str : CStr) : UInt32 :=
  str.foldl (fun hash c => ((hash <<< 5) + hash) + c.val.toInt8.toInt32.toUInt32) 5381

/-- `hash_string`. -/
def hashString (str : CStr) (capacity : Nat) : Nat := (hashBytes str).toNat % capacity

namespace LRUCache

/-! ## Nodes and their links -/

def setNode (c : LRUCache) (a : Addr) (node : CacheNode) : LRUCache :=
  { c with heap := Function.update c.heap a node }

def setPrev (c : LRUCache) (a p : Addr) : LRUCache := c.setNode a { c.heap a with prev := p }

def setNext (c : LRUCache) (a p : Addr) : LRUCache := c.setNode a { c.heap a with next := p }

def setValue (c : LRUCache) (a : Addr) (value : FileMetadata) : LRUCache :=
  c.setNode a { c.heap a with value := value }

def setSlot (c : LRUCache) (hash : Nat) (node : Option Addr) : LRUCache :=
  { c with hashTable := Function.update c.hashTable hash node }

/-- `create_cache_node`: the key is cut to what the array of the node holds. -/
def createCacheNode (c : LRUCache) (key : CStr) (value : FileMetadata) : LRUCache × Addr :=
  ({ c.setNode c.fresh ⟨.strncpy (MAX_FILENAME - 1) key, value, NULL, NULL⟩ with fresh := c.fresh + 1 },
    c.fresh)

/-- `remove_node`. -/
def removeNode (c : LRUCache) (node : Addr) : LRUCache :=
  let c := c.setNext (c.heap node).prev (c.heap node).next
  c.setPrev (c.heap node).next (c.heap node).prev

/-- `add_to_head`. -/
def addToHead (c : LRUCache) (node : Addr) : LRUCache :=
  let c := c.setNext node (c.heap c.head).next
  let c := c.setPrev node c.head
  let c := c.setPrev (c.heap c.head).next node
  c.setNext c.head node

/-- `move_to_head`. -/
def moveToHead (c : LRUCache) (node : Addr) : LRUCache := (c.removeNode node).addToHead node

/-- `remove_tail`. -/
def removeTail (c : LRUCache) : LRUCache × Addr :=
  let node := (c.heap c.tail).prev
  (c.removeNode node, node)

/-! ## The probing loops -/

/-- What the slot `hash` answers to the search for `key`: an empty slot ends it without a node, a node of
that key ends it with its slot and address. -/
def probe (c : LRUCache) (key : CStr) (hash : Nat) : Option (Option (Nat × Addr)) :=
  match c.hashTable hash with
  | none => some none
  | some node => if (c.heap node).key.str = key then some (some (hash, node)) else none

/-- What the slot `hash` answers to the search for an empty slot. -/
def emptySlot (c : LRUCache) (hash : Nat) : Option Nat :=
  match c.hashTable hash with
  | none => some hash
  | some _ => none

/-- What the slot `hash` answers to the search for the slot of `node`. -/
def slotOf (c : LRUCache) (node : Addr) (hash : Nat) : Option Nat :=
  if c.hashTable hash = some node then some hash else none

end LRUCache

/-! ## The operations -/

/-- `init_cache`. -/
def initCache (capacity : Nat) (h : 0 < capacity) : LRUCache where
  capacity := capacity
  capacity_pos := h
  size := 0
  head := 1
  tail := 2
  hashTable := fun _ => none
  heap := Function.update (Function.update (fun _ => .zero) 1 { CacheNode.zero with next := 2 })
    2 { CacheNode.zero with prev := 1 }
  fresh := 3

/-- `cache_get`. -/
def cacheGet (fuel : Nat) (c : LRUCache) (key : CStr) : Option (LRUCache × Option FileMetadata) := do
  match ← Loop.run (scan c.capacity (c.probe key)) fuel (hashString key c.capacity) with
  | some (_, node) => return (c.moveToHead node, some (c.heap node).value)
  | none => return (c, none)

/-- The eviction at the end of `cache_put`. -/
def cacheEvict (fuel : Nat) (c : LRUCache) : Option LRUCache :=
  if c.size > c.capacity then do
    let (c, tail) := c.removeTail
    let hash ← Loop.run (scan c.capacity (c.slotOf tail)) fuel
      (hashString (c.heap tail).key.str c.capacity)
    return { c.setSlot hash none with size := c.size - 1 }
  else return c

/-- The part of `cache_put` for a key that was not found. -/
def cacheInsert (fuel : Nat) (c : LRUCache) (key : CStr) (value : FileMetadata) : Option LRUCache := do
  let (c, node) := c.createCacheNode key value
  let hash ← Loop.run (scan c.capacity c.emptySlot) fuel (hashString key c.capacity)
  let c := (c.setSlot hash (some node)).addToHead node
  cacheEvict fuel { c with size := c.size + 1 }

/-- `cache_put`. -/
def cachePut (fuel : Nat) (c : LRUCache) (key : CStr) (value : FileMetadata) : Option LRUCache := do
  let start := hashString key c.capacity
  match ← Loop.run (scanOnce c.capacity start none (c.probe key)) fuel start with
  | some (_, node) => return (c.setValue node value).moveToHead node
  | none => cacheInsert fuel c key value

/-- `cache_remove`. -/
def cacheRemove (fuel : Nat) (c : LRUCache) (key : CStr) : Option LRUCache := do
  match ← Loop.run (scan c.capacity (c.probe key)) fuel (hashString key c.capacity) with
  | some (hash, node) => return { (c.setSlot hash none).removeNode node with size := c.size - 1 }
  | none => return c

/-- The walk of `cache_clear` along the list, which frees every node. -/
def clearStep (c : LRUCache) (current : Addr) : Round Addr Unit :=
  if current = c.tail then .done () else .again (c.heap current).next

/-- `cache_clear`. -/
def cacheClear (fuel : Nat) (c : LRUCache) : Option LRUCache := do
  Loop.run (clearStep c) fuel (c.heap c.head).next
  let c := (c.setNext c.head c.tail).setPrev c.tail c.head
  return { c with hashTable := fun _ => none, size := 0 }

/-! ## Runs -/

inductive CacheOp where
  | get (key : CStr)
  | put (key : CStr) (value : FileMetadata)
  | remove (key : CStr)
  | clear
  deriving DecidableEq

/-- One operation with its answer; only `cache_get` has one. -/
def CacheOp.exec (fuel : Nat) (c : LRUCache) : CacheOp → Option (LRUCache × Option FileMetadata)
  | .get key => cacheGet fuel c key
  | .put key value => (cachePut fuel c key value).map (·, none)
  | .remove key => (cacheRemove fuel c key).map (·, none)
  | .clear => (cacheClear fuel c).map (·, none)

/-- An operation and the answer it gave. -/
abbrev CacheEvent := CacheOp × Option FileMetadata

/-- The operation returned, with that answer. -/
def CacheStep (c : LRUCache) (e : CacheEvent) (c' : LRUCache) : Prop :=
  ∃ fuel, e.1.exec fuel c = some (c', e.2)

/-- `c` is reached from `init_cache(capacity)` by operations that returned. -/
def CacheReached (capacity : Nat) (h : 0 < capacity) (es : List CacheEvent) (c : LRUCache) : Prop :=
  Run CacheStep (initCache capacity h) es c

/-- The calls of `ops` one after another, with the events they make. -/
def runOps (fuel : Nat) : LRUCache → List CacheOp → Option (LRUCache × List CacheEvent)
  | c, [] => some (c, [])
  | c, op :: ops => do
    let (c, ans) ← op.exec fuel c
    let (c, es) ← runOps fuel c ops
    return (c, (op, ans) :: es)

theorem run_of_runOps {fuel : Nat} {ops : List CacheOp} {c c' : LRUCache} {es : List CacheEvent}
    (h : runOps fuel c ops = some (c', es)) : Run CacheStep c es c' := by
  induction ops generalizing c es with
  | nil =>
    obtain ⟨rfl, rfl⟩ := Prod.mk.inj (Option.some.inj h)
    exact .nil
  | cons op ops ih =>
    obtain ⟨⟨c1, ans⟩, h1, h⟩ := Option.bind_eq_some_iff.mp h
    obtain ⟨⟨c2, es'⟩, h2, h⟩ := Option.bind_eq_some_iff.mp h
    obtain ⟨rfl, rfl⟩ := Prod.mk.inj (Option.some.inj h)
    exact Run.cons ⟨fuel, h1⟩ (ih h2)

end NetworkFileShare
