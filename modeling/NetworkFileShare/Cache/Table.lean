import NetworkFileShare.Cache.Model
import NetworkFileShare.Lib.Probe
import Mathlib.Data.Finset.Card
import Mathlib.Data.Finset.Range

/-!
# The hash table of the cache

* `SameTable` : two caches that differ in the links of the list only;
* `cacheGet_cases`, `cachePut_cases`, `cacheRemove_cases`, `cacheClear_eq` : everything an operation that
  returned can have done to the table;
* `Counted` : `size` is the number of occupied slots, in every reached state (`CacheReached.counted`).
  Hence an insertion that returns found room, and the eviction at its end never takes place
  (`cacheInsert_eq`).
-/

namespace NetworkFileShare

open Loop

namespace LRUCache

def keyOf (c : LRUCache) (a : Addr) : CStr := (c.heap a).key.str

def valueOf (c : LRUCache) (a : Addr) : FileMetadata := (c.heap a).value

/-- The key stored in a slot. -/
def keyAt (c : LRUCache) (hash : Nat) : Option CStr := (c.hashTable hash).map c.keyOf

/-- Some slot holds the key. -/
def Holds (c : LRUCache) (key : CStr) : Prop := ∃ i < c.capacity, c.keyAt i = some key

/-- The two caches differ in the links of the list only. -/
structure SameTable (c c' : LRUCache) : Prop where
  capacity : c'.capacity = c.capacity
  size : c'.size = c.size
  hashTable : c'.hashTable = c.hashTable
  fresh : c'.fresh = c.fresh
  keyOf : c'.keyOf = c.keyOf
  valueOf : c'.valueOf = c.valueOf

namespace SameTable

theorem refl (c : LRUCache) : SameTable c c := ⟨rfl, rfl, rfl, rfl, rfl, rfl⟩

theorem trans {a b c : LRUCache} (h : SameTable a b) (h' : SameTable b c) : SameTable a c where
  capacity := h'.capacity.trans h.capacity
  size := h'.size.trans h.size
  hashTable := h'.hashTable.trans h.hashTable
  fresh := h'.fresh.trans h.fresh
  keyOf := h'.keyOf.trans h.keyOf
  valueOf := h'.valueOf.trans h.valueOf

theorem keyAt {c c' : LRUCache} (h : SameTable c c') : c'.keyAt = c.keyAt := by
  funext i
  rw [LRUCache.keyAt, LRUCache.keyAt, h.hashTable, h.keyOf]

/-- A node written back with its key and value. -/
theorem setNode {c : LRUCache} {a : Addr} {node : CacheNode} (hk : node.key = (c.heap a).key)
    (hv : node.value = (c.heap a).value) : SameTable c (c.setNode a node) where
  capacity := rfl
  size := rfl
  hashTable := rfl
  fresh := rfl
  keyOf := by
    funext b
    by_cases hb : b = a <;> simp [LRUCache.keyOf, LRUCache.setNode, Function.update, hb, hk]
  valueOf := by
    funext b
    by_cases hb : b = a <;> simp [LRUCache.valueOf, LRUCache.setNode, Function.update, hb, hv]

theorem setPrev (c : LRUCache) (a p : Addr) : SameTable c (c.setPrev a p) := setNode rfl rfl

theorem setNext (c : LRUCache) (a p : Addr) : SameTable c (c.setNext a p) := setNode rfl rfl

theorem removeNode (c : LRUCache) (a : Addr) : SameTable c (c.removeNode a) :=
  (setNext c _ _).trans (setPrev _ _ _)

theorem addToHead (c : LRUCache) (a : Addr) : SameTable c (c.addToHead a) :=
  (((setNext c _ _).trans (setPrev _ _ _)).trans (setPrev _ _ _)).trans (setNext _ _ _)

theorem moveToHead (c : LRUCache) (a : Addr) : SameTable c (c.moveToHead a) :=
  (removeNode c a).trans (addToHead _ a)

end SameTable

/-- A new node put into the slot `hash` and counted, as `cache_put` does before it looks at the size. -/
def inserted (c : LRUCache) (key : CStr) (value : FileMetadata) (hash : Nat) : LRUCache :=
  let (c, node) := c.createCacheNode key value
  let c := (c.setSlot hash (some node)).addToHead node
  { c with size := c.size + 1 }

/-- The new node in its slot, not yet in the list. -/
def withNew (c : LRUCache) (key : CStr) (value : FileMetadata) (hash : Nat) : LRUCache :=
  (c.createCacheNode key value).1.setSlot hash (some c.fresh)

def counted (c : LRUCache) : LRUCache := { c with size := c.size + 1 }

theorem inserted_eq (c : LRUCache) (key : CStr) (value : FileMetadata) (hash : Nat) :
    c.inserted key value hash = ((c.withNew key value hash).addToHead c.fresh).counted := by
  unfold inserted withNew counted createCacheNode
  rfl

/-! ## The probing loops and the keys of the slots -/

theorem hash_lt (c : LRUCache) (key : CStr) : hashString key c.capacity < c.capacity :=
  Nat.mod_lt _ c.capacity_pos

theorem probe_map (c : LRUCache) (key : CStr) :
    (fun i => (c.probe key i).map (Option.map Prod.fst)) = Probe.look c.keyAt key := by
  funext i
  unfold probe Probe.look keyAt keyOf
  cases c.hashTable i with
  | none => rfl
  | some a => by_cases ha : (c.heap a).key.str = key <;> simp [ha]

theorem emptySlot_eq (c : LRUCache) : c.emptySlot = Probe.free c.keyAt := by
  funext i
  unfold emptySlot Probe.free keyAt
  cases c.hashTable i <;> rfl

theorem keyAt_eq_none {c : LRUCache} {i : Nat} : c.keyAt i = none ↔ c.hashTable i = none := by
  simp [keyAt]

theorem probe_isSome (c : LRUCache) (key : CStr) (i : Nat) :
    (c.probe key i).isSome ↔ c.keyAt i = none ∨ c.keyAt i = some key := by
  have h := congrFun (c.probe_map key) i
  rw [← Option.isSome_map (f := Option.map Prod.fst), h, Option.isSome_iff_ne_none, Ne,
    Probe.look_eq_none]
  tauto

/-- A node that the probing loop found: its slot, its address and its key. -/
theorem found_of_probe {c : LRUCache} {key : CStr} {start hash node : Nat}
    (hit : Hit c.capacity (c.probe key) start (some (hash, node))) :
    hash < c.capacity ∧ c.hashTable hash = some node ∧ c.keyOf node = key := by
  obtain ⟨j, hj, -⟩ := hit
  unfold probe at hj
  cases hs : c.hashTable ((start + j) % c.capacity) with
  | none => simp [hs] at hj
  | some a =>
    simp only [hs] at hj
    split at hj
    · rename_i hkey
      simp only [Option.some.injEq, Prod.mk.injEq] at hj
      obtain ⟨rfl, rfl⟩ := hj
      exact ⟨Nat.mod_lt _ c.capacity_pos, hs, hkey⟩
    · cases hj

theorem look_of_probe {c : LRUCache} {key : CStr} {start : Nat} {r : Option (Nat × Addr)}
    (hit : Hit c.capacity (c.probe key) start r) :
    Hit c.capacity (Probe.look c.keyAt key) start (r.map Prod.fst) :=
  c.probe_map key ▸ hit.map (Option.map Prod.fst)

end LRUCache

/-! ## What an operation that returned has done -/

section Cases
variable {fuel : Nat} {c c' : LRUCache} {key : CStr} {value : FileMetadata}

theorem cacheGet_cases {ans : Option FileMetadata} (h : cacheGet fuel c key = some (c', ans)) :
    (∃ hash node, Hit c.capacity (c.probe key) (hashString key c.capacity) (some (hash, node)) ∧
      c' = c.moveToHead node ∧ ans = some (c.valueOf node)) ∨
    (Hit c.capacity (c.probe key) (hashString key c.capacity) none ∧ c' = c ∧ ans = none) := by
  unfold cacheGet at h
  cases hr : Loop.run (scan c.capacity (c.probe key)) fuel (hashString key c.capacity) with
  | none => simp [hr] at h
  | some r =>
    have hit := hit_of_run_scan (c.hash_lt key) hr
    cases r with
    | none =>
      simp only [hr, Option.bind_eq_bind, Option.bind_some, Option.pure_def, Option.some.injEq,
        Prod.mk.injEq] at h
      exact Or.inr ⟨hit, h.1.symm, h.2.symm⟩
    | some p =>
      simp only [hr, Option.bind_eq_bind, Option.bind_some, Option.pure_def, Option.some.injEq,
        Prod.mk.injEq] at h
      exact Or.inl ⟨p.1, p.2, hit, h.1.symm, h.2.symm⟩

theorem cacheRemove_cases (h : cacheRemove fuel c key = some c') :
    (∃ hash node, Hit c.capacity (c.probe key) (hashString key c.capacity) (some (hash, node)) ∧
      c' = { (c.setSlot hash none).removeNode node with size := c.size - 1 }) ∨
    (Hit c.capacity (c.probe key) (hashString key c.capacity) none ∧ c' = c) := by
  unfold cacheRemove at h
  cases hr : Loop.run (scan c.capacity (c.probe key)) fuel (hashString key c.capacity) with
  | none => simp [hr] at h
  | some r =>
    have hit := hit_of_run_scan (c.hash_lt key) hr
    cases r with
    | none =>
      simp only [hr, Option.bind_eq_bind, Option.bind_some, Option.pure_def, Option.some.injEq] at h
      exact Or.inr ⟨hit, h.symm⟩
    | some p =>
      simp only [hr, Option.bind_eq_bind, Option.bind_some, Option.pure_def, Option.some.injEq] at h
      exact Or.inl ⟨p.1, p.2, hit, h.symm⟩

theorem cacheInsert_cases (h : cacheInsert fuel c key value = some c') :
    ∃ hash, Hit c.capacity (Probe.free c.keyAt) (hashString key c.capacity) hash ∧
      cacheEvict fuel (c.inserted key value hash) = some c' := by
  have hslots : (c.createCacheNode key value).1.emptySlot = c.emptySlot := rfl
  unfold cacheInsert at h
  simp only [hslots] at h
  change (Loop.run (scan c.capacity c.emptySlot) fuel (hashString key c.capacity)).bind _ = some c' at h
  obtain ⟨hash, hr, hc'⟩ := Option.bind_eq_some_iff.mp h
  exact ⟨hash, c.emptySlot_eq ▸ hit_of_run_scan (c.hash_lt key) hr, hc'⟩

theorem cachePut_cases (h : cachePut fuel c key value = some c') :
    (∃ hash node, Hit c.capacity (c.probe key) (hashString key c.capacity) (some (hash, node)) ∧
      c' = (c.setValue node value).moveToHead node) ∨
    ((Hit c.capacity (c.probe key) (hashString key c.capacity) none ∨ ∀ i < c.capacity, c.probe key i = none) ∧
      cacheInsert fuel c key value = some c') := by
  unfold cachePut at h
  obtain ⟨r, hr, hc'⟩ := Option.bind_eq_some_iff.mp h
  have hcases := run_scanOnce_cases (c.hash_lt key) hr
  cases r with
  | none =>
    refine Or.inr ⟨?_, hc'⟩
    rcases hcases with hmiss | hit
    · exact Or.inr hmiss.2
    · exact Or.inl hit
  | some p =>
    simp only [Option.pure_def, Option.some.injEq] at hc'
    rcases hcases with hmiss | hit
    · cases hmiss.1
    · exact Or.inl ⟨p.1, p.2, hit, hc'.symm⟩

theorem cacheClear_eq (h : cacheClear fuel c = some c') :
    c'.capacity = c.capacity ∧ c'.size = 0 ∧ c'.hashTable = (fun _ => none) ∧ c'.fresh = c.fresh := by
  unfold cacheClear at h
  obtain ⟨r, -, hc'⟩ := Option.bind_eq_some_iff.mp h
  simp only [Option.pure_def, Option.some.injEq] at hc'
  subst hc'
  exact ⟨rfl, rfl, rfl, rfl⟩

end Cases

/-! ## The size is the number of occupied slots -/

namespace LRUCache

/-- The slots that hold a node. -/
def occupied (c : LRUCache) : Finset Nat := (Finset.range c.capacity).filter fun i => c.hashTable i ≠ none

/-- `size` counts the occupied slots. -/
def Counted (c : LRUCache) : Prop := c.size = c.occupied.card

theorem mem_occupied {c : LRUCache} {i : Nat} :
    i ∈ c.occupied ↔ i < c.capacity ∧ c.hashTable i ≠ none := by
  simp [occupied]

theorem occupied_subset (c : LRUCache) : c.occupied ⊆ Finset.range c.capacity :=
  Finset.filter_subset _ _

namespace Counted
variable {c c' : LRUCache}

theorem same (h : c.Counted) (hs : SameTable c c') : c'.Counted := by
  have hocc : c'.occupied = c.occupied := by
    ext i
    rw [mem_occupied, mem_occupied, hs.capacity, hs.hashTable]
  rw [Counted, hs.size, hocc, h]

theorem le_capacity (h : c.Counted) : c.size ≤ c.capacity := by
  rw [h]
  exact (Finset.card_le_card c.occupied_subset).trans (Finset.card_range _).le

/-- There is an empty slot exactly while `size` is below `capacity`. -/
theorem lt_capacity_iff (h : c.Counted) : c.size < c.capacity ↔ ∃ i < c.capacity, c.keyAt i = none := by
  constructor
  · intro hlt
    by_contra hfull
    push Not at hfull
    have hsub : Finset.range c.capacity ⊆ c.occupied := fun i hi => by
      have hi' := Finset.mem_range.mp hi
      exact mem_occupied.mpr ⟨hi', fun hn => hfull i hi' (keyAt_eq_none.mpr hn)⟩
    have := Finset.card_le_card hsub
    rw [Finset.card_range, ← h] at this
    omega
  · rintro ⟨i, hi, hempty⟩
    have hss : c.occupied ⊂ Finset.range c.capacity :=
      (Finset.ssubset_iff_of_subset c.occupied_subset).mpr
        ⟨i, Finset.mem_range.mpr hi, fun hmem => (mem_occupied.mp hmem).2 (keyAt_eq_none.mp hempty)⟩
    have := Finset.card_lt_card hss
    rwa [Finset.card_range, ← h] at this

/-- A slot is filled and counted. -/
theorem fill (h : c.Counted) {hash : Nat} {a : Addr} (hlt : hash < c.capacity)
    (hempty : c.hashTable hash = none) (hcap : c'.capacity = c.capacity)
    (htab : c'.hashTable = Function.update c.hashTable hash (some a)) (hsize : c'.size = c.size + 1) :
    c'.Counted := by
  have hmem : hash ∉ c.occupied := fun hmem => (mem_occupied.mp hmem).2 hempty
  have hocc : c'.occupied = insert hash c.occupied := by
    ext i
    rw [mem_occupied, Finset.mem_insert, mem_occupied, hcap, htab]
    by_cases hi : i = hash
    · simp [hi, hlt]
    · simp [hi]
  rw [Counted, hsize, hocc, Finset.card_insert_of_notMem hmem, h]

/-- A slot is emptied and no longer counted. -/
theorem empty (h : c.Counted) {hash : Nat} (hlt : hash < c.capacity) (hfull : c.hashTable hash ≠ none)
    (hcap : c'.capacity = c.capacity) (htab : c'.hashTable = Function.update c.hashTable hash none)
    (hsize : c'.size = c.size - 1) : c'.Counted := by
  have hmem : hash ∈ c.occupied := mem_occupied.mpr ⟨hlt, hfull⟩
  have hocc : c'.occupied = c.occupied.erase hash := by
    ext i
    rw [mem_occupied, Finset.mem_erase, mem_occupied, hcap, htab]
    by_cases hi : i = hash
    · simp [hi]
    · simp [hi]
  rw [Counted, hsize, hocc, Finset.card_erase_of_mem hmem, h]

end Counted

/-- A table within its capacity evicts nothing. -/
theorem evict_none {fuel : Nat} {c : LRUCache} (h : c.size ≤ c.capacity) : cacheEvict fuel c = some c := by
  rw [cacheEvict, if_neg (by omega)]
  rfl

theorem inserted_same (c : LRUCache) (key : CStr) (value : FileMetadata) (hash : Nat) :
    (c.inserted key value hash).capacity = c.capacity ∧
      (c.inserted key value hash).size = c.size + 1 ∧
      (c.inserted key value hash).hashTable = Function.update c.hashTable hash (some c.fresh) ∧
      (c.inserted key value hash).fresh = c.fresh + 1 := by
  rw [inserted_eq]
  have hs := SameTable.addToHead (c.withNew key value hash) c.fresh
  exact ⟨hs.capacity, congrArg (· + 1) hs.size, hs.hashTable, hs.fresh⟩

theorem keyOf_inserted (c : LRUCache) (key : CStr) (value : FileMetadata) (hash : Nat) :
    (c.inserted key value hash).keyOf = Function.update c.keyOf c.fresh (key.take (MAX_FILENAME - 1)) := by
  rw [inserted_eq]
  refine (SameTable.addToHead (c.withNew key value hash) c.fresh).keyOf.trans ?_
  funext b
  by_cases hb : b = c.fresh <;>
    simp [keyOf, withNew, createCacheNode, setSlot, setNode, Function.update, hb]

theorem valueOf_inserted (c : LRUCache) (key : CStr) (value : FileMetadata) (hash : Nat) :
    (c.inserted key value hash).valueOf = Function.update c.valueOf c.fresh value := by
  rw [inserted_eq]
  refine (SameTable.addToHead (c.withNew key value hash) c.fresh).valueOf.trans ?_
  funext b
  by_cases hb : b = c.fresh <;>
    simp [valueOf, withNew, createCacheNode, setSlot, setNode, Function.update, hb]

theorem Counted.inserted {c : LRUCache} (h : c.Counted) {key : CStr} {hash : Nat} (value : FileMetadata)
    (hit : Hit c.capacity (Probe.free c.keyAt) (hashString key c.capacity) hash) :
    (c.inserted key value hash).Counted := by
  obtain ⟨hlt, hempty⟩ := Probe.empty_of_hit c.capacity_pos hit
  obtain ⟨hcap, hsize, htab, -⟩ := c.inserted_same key value hash
  exact h.fill hlt (keyAt_eq_none.mp hempty) hcap htab hsize

end LRUCache

/-- **An insertion that returns found an empty slot**, and then the table is not over its capacity. -/
theorem cacheInsert_eq {fuel : Nat} {c c' : LRUCache} {key : CStr} {value : FileMetadata} (hc : c.Counted)
    (h : cacheInsert fuel c key value = some c') :
    ∃ hash, Hit c.capacity (Probe.free c.keyAt) (hashString key c.capacity) hash ∧
      c' = c.inserted key value hash := by
  obtain ⟨hash, hit, he⟩ := cacheInsert_cases h
  have hle := (hc.inserted value hit).le_capacity
  rw [LRUCache.evict_none hle] at he
  exact ⟨hash, hit, (Option.some.inj he).symm⟩

/-- Every operation keeps the count. -/
theorem CacheStep.counted {c c' : LRUCache} {e : CacheEvent} (hc : c.Counted) (h : CacheStep c e c') :
    c'.Counted := by
  obtain ⟨op, ans⟩ := e
  obtain ⟨fuel, h⟩ := h
  cases op with
  | get key =>
    rcases cacheGet_cases h with ⟨hash, node, -, rfl, -⟩ | ⟨-, rfl, -⟩
    · exact hc.same (.moveToHead c node)
    · exact hc
  | put key value =>
    obtain ⟨c'', hput, he⟩ := Option.map_eq_some_iff.mp h
    obtain rfl := (Prod.mk.inj he).1
    rcases cachePut_cases hput with ⟨hash, node, -, rfl⟩ | ⟨-, hins⟩
    · exact LRUCache.Counted.same (c := c.setValue node value) hc (.moveToHead _ node)
    · obtain ⟨hash, hit, rfl⟩ := cacheInsert_eq hc hins
      exact hc.inserted value hit
  | remove key =>
    obtain ⟨c'', hrem, he⟩ := Option.map_eq_some_iff.mp h
    obtain rfl := (Prod.mk.inj he).1
    rcases cacheRemove_cases hrem with ⟨hash, node, hit, rfl⟩ | ⟨-, rfl⟩
    · obtain ⟨hlt, hslot, -⟩ := LRUCache.found_of_probe hit
      exact hc.empty hlt (by rw [hslot]; exact Option.some_ne_none _) rfl rfl rfl
    · exact hc
  | clear =>
    obtain ⟨c'', hclear, he⟩ := Option.map_eq_some_iff.mp h
    obtain rfl := (Prod.mk.inj he).1
    obtain ⟨hcap, hsize, htab, -⟩ := cacheClear_eq hclear
    rw [LRUCache.Counted, hsize, eq_comm, Finset.card_eq_zero, Finset.eq_empty_iff_forall_notMem]
    exact fun i hi => (LRUCache.mem_occupied.mp hi).2 (congrFun htab i)

theorem initCache_counted {capacity : Nat} (h : 0 < capacity) : (initCache capacity h).Counted := by
  rw [LRUCache.Counted, eq_comm]
  exact Finset.card_eq_zero.mpr
    (Finset.eq_empty_iff_forall_notMem.mpr fun i hi => (LRUCache.mem_occupied.mp hi).2 rfl)

/-- **In every reached state `size` counts the occupied slots.** -/
theorem CacheReached.counted {capacity : Nat} {hpos : 0 < capacity} {es : List CacheEvent} {c : LRUCache}
    (h : CacheReached capacity hpos es c) : c.Counted :=
  Run.state_invariant (initCache_counted hpos) (fun _ _ _ hc hs => hs.counted hc) h

end NetworkFileShare
