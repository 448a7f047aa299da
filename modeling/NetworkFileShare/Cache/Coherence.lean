import NetworkFileShare.Cache.Table

/-!
# What a lookup may answer

* `lastPut` : the value of the last `cache_put` on a key, unless a removal or a clear came after it;
* `CacheSafe` : the calls that keep the probe chains whole: a stored key fits its node, and a removal empties
  a slot that no other entry was placed past;
* `Coherent` : the invariant of the runs made of such calls, every stored value is the last one put;
  `get_not_stale` : there `cache_get` answers `NULL` or the last value put;
* `stale_get` : two keys of one hash, where a removal cuts the chain and an old value comes back.
-/

namespace NetworkFileShare

open Loop

/-- The home slot of a key in a table. -/
abbrev LRUCache.home (c : LRUCache) (key : CStr) : Nat := hashString key c.capacity

/-! ## The history -/

/-- What an operation leaves of the last value put on `key`. -/
def CacheOp.expect (key : CStr) (old : Option FileMetadata) : CacheOp → Option FileMetadata
  | .get _ => old
  | .put k value => if k = key then some value else old
  | .remove k => if k = key then none else old
  | .clear => none

/-- The value of the last `cache_put` on `key`, if no `cache_remove` on it and no `cache_clear` came after. -/
def lastPut (es : List CacheEvent) (key : CStr) : Option FileMetadata :=
  es.foldl (fun old e => e.1.expect key old) none

@[simp] theorem lastPut_snoc (es : List CacheEvent) (e : CacheEvent) (key : CStr) :
    lastPut (es ++ [e]) key = e.1.expect key (lastPut es key) := by
  simp [lastPut, List.foldl_append]

/-- The call keeps the probe chains whole: a key put fits the array of its node, and the slot a removal
empties has no other entry placed past it. -/
def CacheSafe (c : LRUCache) (e : CacheEvent) : Prop :=
  match e.1 with
  | .get _ => True
  | .put key _ => key.length ≤ MAX_FILENAME - 1
  | .remove key => ∀ s < c.capacity, c.keyAt s = some key → ∀ i < c.capacity, i ≠ s →
      ¬ Probe.Passes c.capacity c.home c.keyAt i s
  | .clear => True

instance (c : LRUCache) : (e : CacheEvent) → Decidable (CacheSafe c e)
  | (.get _, _) => isTrue trivial
  | (.put key _, _) => inferInstanceAs (Decidable (key.length ≤ MAX_FILENAME - 1))
  | (.remove key, _) => inferInstanceAs (Decidable (∀ s < c.capacity, c.keyAt s = some key →
      ∀ i < c.capacity, i ≠ s → ¬ Probe.Passes c.capacity c.home c.keyAt i s))
  | (.clear, _) => isTrue trivial

/-! ## The invariant -/

/-- Every stored entry can be found, has its own node, and carries the last value put on its key. -/
structure Coherent (es : List CacheEvent) (c : LRUCache) : Prop where
  counted : c.Counted
  placed : Probe.Placed c.capacity c.home c.keyAt
  bounded : ∀ i a, c.hashTable i = some a → i < c.capacity
  allocated : ∀ i a, c.hashTable i = some a → a < c.fresh
  separate : ∀ i j a, c.hashTable i = some a → c.hashTable j = some a → i = j
  current : ∀ i a, c.hashTable i = some a → lastPut es (c.keyOf a) = some (c.valueOf a)

namespace Coherent
variable {es : List CacheEvent} {c c' : LRUCache}

theorem init {capacity : Nat} (h : 0 < capacity) : Coherent [] (initCache capacity h) where
  counted := initCache_counted h
  placed := Probe.Placed.empty
  bounded _ _ hi := by cases hi
  allocated _ _ hi := by cases hi
  separate _ _ _ hi := by cases hi
  current _ _ hi := by cases hi

/-- Links of the list do not matter, nor do calls that leave the last values alone. -/
theorem same {es' : List CacheEvent} (h : Coherent es c) (hs : LRUCache.SameTable c c')
    (hes : ∀ key, lastPut es' key = lastPut es key) : Coherent es' c' where
  counted := h.counted.same hs
  placed := by
    have hp := h.placed
    unfold LRUCache.home at hp ⊢
    rwa [hs.keyAt, hs.capacity]
  bounded i a hi := by rw [hs.capacity]; exact h.bounded i a (hs.hashTable ▸ hi)
  allocated i a hi := by rw [hs.fresh]; exact h.allocated i a (hs.hashTable ▸ hi)
  separate i j a hi hj := h.separate i j a (hs.hashTable ▸ hi) (hs.hashTable ▸ hj)
  current i a hi := by rw [hes, hs.keyOf, hs.valueOf]; exact h.current i a (hs.hashTable ▸ hi)

/-- A key is in one slot only. -/
theorem unique (h : Coherent es c) {i j a b : Nat} (hi : c.hashTable i = some a)
    (hj : c.hashTable j = some b) (hk : c.keyOf a = c.keyOf b) : i = j :=
  h.placed.unique (k := c.keyOf a) (h.bounded i a hi) (h.bounded j b hj) (by simp [LRUCache.keyAt, hi])
    (by simp [LRUCache.keyAt, hj, hk])

/-- The value of a stored key is replaced. -/
theorem update (h : Coherent es c) {hash node : Nat} {key : CStr} (value : FileMetadata)
    (hslot : c.hashTable hash = some node) (hkey : c.keyOf node = key) :
    Coherent (es ++ [(.put key value, none)]) (c.setValue node value) := by
  have hkeys : (c.setValue node value).keyOf = c.keyOf := by
    funext b
    by_cases hb : b = node <;>
      simp [LRUCache.keyOf, LRUCache.setValue, LRUCache.setNode, Function.update, hb]
  have hkeyAt : (c.setValue node value).keyAt = c.keyAt := by
    funext i
    rw [LRUCache.keyAt, LRUCache.keyAt, hkeys]
    rfl
  refine ⟨h.counted, ?_, h.bounded, h.allocated, h.separate, fun i a hi => ?_⟩
  · rw [hkeyAt]; exact h.placed
  · rw [hkeys, lastPut_snoc, CacheOp.expect]
    have hi' : c.hashTable i = some a := hi
    by_cases ha : key = c.keyOf a
    · -- the entry of that key is the node written to, since a key is in one slot only
      have hsame : i = hash := h.unique hi' hslot (by rw [hkey, ← ha])
      subst hsame
      obtain rfl : a = node := Option.some.inj (hi'.symm.trans hslot)
      rw [if_pos ha]
      simp [LRUCache.valueOf, LRUCache.setValue, LRUCache.setNode]
    · have hne : a ≠ node := fun he => ha (by rw [he, hkey])
      rw [if_neg ha, h.current i a hi']
      simp [LRUCache.valueOf, LRUCache.setValue, LRUCache.setNode, hne]

/-- A new key takes the first empty slot of its walk. -/
theorem insert (h : Coherent es c) {hash : Nat} {key : CStr} (value : FileMetadata)
    (hfits : key.length ≤ MAX_FILENAME - 1) (hnew : ∀ i < c.capacity, c.keyAt i ≠ some key)
    (hit : Hit c.capacity (Probe.free c.keyAt) (c.home key) hash) :
    Coherent (es ++ [(.put key value, none)]) (c.inserted key value hash) := by
  obtain ⟨hlt, hempty⟩ := Probe.empty_of_hit c.capacity_pos hit
  obtain ⟨hcap, -, htab, hfresh⟩ := c.inserted_same key value hash
  have hkeyOf : (c.inserted key value hash).keyOf = Function.update c.keyOf c.fresh key := by
    rw [c.keyOf_inserted, List.take_of_length_le hfits]
  have hvalueOf := c.valueOf_inserted key value hash
  -- an old node is not the new one
  have hold : ∀ {i a}, c.hashTable i = some a → a ≠ c.fresh := fun hi => (h.allocated _ _ hi).ne
  have hkeyAt : (c.inserted key value hash).keyAt = Function.update c.keyAt hash (some key) := by
    funext i
    rw [LRUCache.keyAt, htab, hkeyOf]
    by_cases hi : i = hash
    · simp [hi]
    · rw [Function.update_of_ne hi, Function.update_of_ne hi, LRUCache.keyAt]
      cases hs : c.hashTable i with
      | none => rfl
      | some a => simp [hold hs]
  have hcases : ∀ {i a}, (c.inserted key value hash).hashTable i = some a →
      (i = hash ∧ a = c.fresh) ∨ (i ≠ hash ∧ c.hashTable i = some a) := by
    intro i a hi
    rw [htab] at hi
    by_cases hih : i = hash
    · subst hih
      rw [Function.update_self] at hi
      exact Or.inl ⟨rfl, (Option.some.inj hi).symm⟩
    · rw [Function.update_of_ne hih] at hi
      exact Or.inr ⟨hih, hi⟩
  have hcount := h.counted.inserted value hit
  have hplaced := h.placed.insert c.capacity_pos hnew hit
  generalize c.inserted key value hash = c' at *
  refine ⟨hcount, ?_, fun i a hi => ?_, fun i a hi => ?_, fun i j a hi hj => ?_, fun i a hi => ?_⟩
  · change Probe.Placed c'.capacity (fun key => hashString key c'.capacity) c'.keyAt
    rw [hkeyAt, hcap]
    exact hplaced
  · rw [hcap]
    rcases hcases hi with ⟨rfl, -⟩ | ⟨-, hi⟩
    · exact hlt
    · exact h.bounded i a hi
  · rw [hfresh]
    rcases hcases hi with ⟨-, rfl⟩ | ⟨-, hi⟩
    · exact Nat.lt_succ_self _
    · exact (h.allocated i a hi).trans (Nat.lt_succ_self _)
  · rcases hcases hi with ⟨rfl, rfl⟩ | ⟨hne, hi⟩ <;> rcases hcases hj with ⟨rfl, ha⟩ | ⟨hne', hj⟩
    · rfl
    · exact absurd rfl (hold hj)
    · exact absurd ha (hold hi)
    · exact h.separate i j a hi hj
  · rw [hkeyOf, hvalueOf, lastPut_snoc, CacheOp.expect]
    rcases hcases hi with ⟨rfl, rfl⟩ | ⟨-, hi⟩
    · simp
    · have hother : key ≠ c.keyOf a := fun hk =>
        hnew i (h.bounded i a hi) (by rw [LRUCache.keyAt, hi, Option.map_some, hk])
      rw [Function.update_of_ne (hold hi), Function.update_of_ne (hold hi), if_neg hother,
        h.current i a hi]

/-- A removal that no probe chain runs through. -/
theorem erase (h : Coherent es c) {hash node : Nat} {key : CStr} (hslot : c.hashTable hash = some node)
    (hkey : c.keyOf node = key) (hsafe : CacheSafe c (.remove key, none)) :
    Coherent (es ++ [(.remove key, none)])
      { (c.setSlot hash none).removeNode node with size := c.size - 1 } := by
  have hlt := h.bounded hash node hslot
  have hkeyHash : c.keyAt hash = some key := by rw [LRUCache.keyAt, hslot, Option.map_some, hkey]
  generalize hc' : ({ (c.setSlot hash none).removeNode node with size := c.size - 1 } : LRUCache) = c'
  have hs := LRUCache.SameTable.removeNode (c.setSlot hash none) node
  have hcap : c'.capacity = c.capacity := by rw [← hc']; rfl
  have htab : c'.hashTable = Function.update c.hashTable hash none := by rw [← hc']; rfl
  have hkeyOf : c'.keyOf = c.keyOf := by rw [← hc']; exact hs.keyOf
  have hvalueOf : c'.valueOf = c.valueOf := by rw [← hc']; exact hs.valueOf
  have hfresh : c'.fresh = c.fresh := by rw [← hc']; rfl
  have hsize : c'.size = c.size - 1 := by rw [← hc']
  have hkeyAt : c'.keyAt = Function.update c.keyAt hash none := by
    funext i
    rw [LRUCache.keyAt, htab, hkeyOf]
    by_cases hi : i = hash <;> simp [hi, LRUCache.keyAt]
  have hleft : ∀ {i a}, c'.hashTable i = some a → i ≠ hash ∧ c.hashTable i = some a := by
    intro i a hi
    rw [htab] at hi
    by_cases hih : i = hash
    · subst hih; simp at hi
    · rw [Function.update_of_ne hih] at hi
      exact ⟨hih, hi⟩
  refine ⟨h.counted.empty hlt (by rw [hslot]; exact Option.some_ne_none _) hcap htab hsize, ?_,
    fun i a hi => ?_, fun i a hi => ?_, fun i j a hi hj => ?_, fun i a hi => ?_⟩
  · change Probe.Placed c'.capacity (fun key => hashString key c'.capacity) c'.keyAt
    rw [hkeyAt, hcap]
    refine h.placed.erase fun i hne hp => ?_
    have hi : i < c.capacity := by
      obtain ⟨k, j, l, -, -, -, rfl, -⟩ := hp
      exact Nat.mod_lt _ c.capacity_pos
    exact hsafe hash hlt hkeyHash i hi hne hp
  · rw [hcap]; exact h.bounded i a (hleft hi).2
  · rw [hfresh]; exact h.allocated i a (hleft hi).2
  · exact h.separate i j a (hleft hi).2 (hleft hj).2
  · obtain ⟨hne, hi⟩ := hleft hi
    have hother : key ≠ c.keyOf a := fun hk => hne (h.unique hi hslot (hk.symm.trans hkey.symm))
    rw [hkeyOf, hvalueOf, lastPut_snoc, CacheOp.expect, if_neg hother]
    exact h.current i a hi

/-- The search for a key that ends without a node is right. -/
theorem absent (h : Coherent es c) {key : CStr}
    (hmiss : Hit c.capacity (c.probe key) (c.home key) none ∨ ∀ i < c.capacity, c.probe key i = none) :
    ∀ i < c.capacity, c.keyAt i ≠ some key := by
  rcases hmiss with hit | hcircle
  · exact h.placed.look_none (LRUCache.look_of_probe hit)
  · intro i hi hk
    have := (c.probe_isSome key i).mpr (Or.inr hk)
    rw [hcircle i hi] at this
    cases this

/-- **A safe call keeps the invariant.** -/
theorem step {e : CacheEvent} (h : Coherent es c) (hsafe : CacheSafe c e) (hstep : CacheStep c e c') :
    Coherent (es ++ [e]) c' := by
  obtain ⟨op, ans⟩ := e
  obtain ⟨fuel, hstep⟩ := hstep
  cases op with
  | get key =>
    have hes : ∀ k, lastPut (es ++ [(.get key, ans)]) k = lastPut es k := fun k => by simp [CacheOp.expect]
    rcases cacheGet_cases hstep with ⟨hash, node, -, rfl, -⟩ | ⟨-, rfl, -⟩
    · exact h.same (.moveToHead c node) hes
    · exact h.same (.refl _) hes
  | put key value =>
    obtain ⟨c'', hput, he⟩ := Option.map_eq_some_iff.mp hstep
    obtain ⟨rfl, rfl⟩ := Prod.mk.inj he
    rcases cachePut_cases hput with ⟨hash, node, hit, rfl⟩ | ⟨hmiss, hins⟩
    · obtain ⟨-, hslot, hkey⟩ := LRUCache.found_of_probe hit
      exact (h.update value hslot hkey).same (.moveToHead _ node) fun _ => rfl
    · obtain ⟨hash, hit, rfl⟩ := cacheInsert_eq h.counted hins
      exact h.insert value hsafe (h.absent hmiss) hit
  | remove key =>
    obtain ⟨c'', hrem, he⟩ := Option.map_eq_some_iff.mp hstep
    obtain ⟨rfl, rfl⟩ := Prod.mk.inj he
    rcases cacheRemove_cases hrem with ⟨hash, node, hit, rfl⟩ | ⟨hit, rfl⟩
    · obtain ⟨-, hslot, hkey⟩ := LRUCache.found_of_probe hit
      exact h.erase hslot hkey hsafe
    · refine ⟨h.counted, h.placed, h.bounded, h.allocated, h.separate, fun i a hi => ?_⟩
      have hother : key ≠ LRUCache.keyOf _ a := fun hk => h.absent (Or.inl hit) i (h.bounded i a hi)
        (by rw [LRUCache.keyAt, hi, Option.map_some, hk])
      rw [lastPut_snoc, CacheOp.expect, if_neg hother]
      exact h.current i a hi
  | clear =>
    obtain ⟨c'', hclear, he⟩ := Option.map_eq_some_iff.mp hstep
    obtain ⟨rfl, rfl⟩ := Prod.mk.inj he
    obtain ⟨hcap, hsize, htab, -⟩ := cacheClear_eq hclear
    have hnone : ∀ i a, c''.hashTable i ≠ some a := fun i a hi => by rw [htab] at hi; cases hi
    have hkeyAt : c''.keyAt = fun _ => none := by funext i; rw [LRUCache.keyAt, htab]; rfl
    refine ⟨CacheStep.counted h.counted ⟨fuel, hstep⟩, ?_, fun i a hi => absurd hi (hnone i a),
      fun i a hi => absurd hi (hnone i a), fun i j a hi => absurd hi (hnone i a),
      fun i a hi => absurd hi (hnone i a)⟩
    rw [hkeyAt]
    exact Probe.Placed.empty

/-- What a lookup answers in a coherent table. -/
theorem get (h : Coherent es c) {fuel : Nat} {key : CStr} {ans : Option FileMetadata}
    (hget : cacheGet fuel c key = some (c', ans)) : ans = none ∨ ans = lastPut es key := by
  rcases cacheGet_cases hget with ⟨hash, node, hit, -, rfl⟩ | ⟨-, -, rfl⟩
  · obtain ⟨-, hslot, rfl⟩ := LRUCache.found_of_probe hit
    exact Or.inr (h.current hash node hslot).symm
  · exact Or.inl rfl

end Coherent

/-- **In every run of calls that keep the chains whole, `cache_get` answers `NULL` or the last value put.** -/
theorem get_not_stale {capacity : Nat} (hpos : 0 < capacity) {es : List CacheEvent} {c c' : LRUCache}
    (h : Run (Guarded CacheSafe CacheStep) (initCache capacity hpos) es c) {fuel : Nat} {key : CStr}
    {ans : Option FileMetadata} (hget : cacheGet fuel c key = some (c', ans)) :
    ans = none ∨ ans = lastPut es key := by
  have hinv : Coherent es c :=
    h.invariant (Coherent.init hpos) fun _ _ _ _ hc hs => hc.step hs.1 hs.2
  exact hinv.get hget

/-! ## Two keys of one hash -/

/-- Metadata that differ in the size. -/
def sized (n : Nat) : FileMetadata := { FileMetadata.zero with size := n }

/-- `b9` stored behind `aZ`. -/
def chainCache : LRUCache :=
  ((initCache 2 (by decide)).inserted (lit "aZ") (sized 0) 0).inserted (lit "b9") (sized 1) 1

/-- The end of the chain removed again. -/
def cutCache : LRUCache := { (chainCache.setSlot 1 none).removeNode 4 with size := 1 }

def cutEvents : List CacheEvent :=
  [(.put (lit "aZ") (sized 0), none), (.put (lit "b9") (sized 1), none), (.remove (lit "b9"), none)]

theorem cutCache_run : Run (Guarded CacheSafe CacheStep) (initCache 2 (by decide)) cutEvents cutCache :=
  Run.cons ⟨by decide, 3, rfl⟩ (Run.cons (t := chainCache) ⟨by decide, 3, rfl⟩
    (Run.single ⟨by decide +kernel, 3, rfl⟩))

theorem get_cutCache : some (sized 0) = none ∨ some (sized 0) = lastPut cutEvents (lit "aZ") := by
  have hget : cacheGet 3 cutCache (lit "aZ") = some (cutCache.moveToHead 3, some (sized 0)) := rfl
  exact get_not_stale (by decide) cutCache_run hget

/-- `b9` is stored behind `aZ`; the removal of `aZ` hides it, so it is stored a second time, and the removal
takes the newer entry only. -/
def staleOps : List CacheOp :=
  [.put (lit "aZ") (sized 0), .put (lit "b9") (sized 1), .remove (lit "aZ"), .put (lit "b9") (sized 2),
    .remove (lit "b9"), .put (lit "aZ") (sized 0)]

/-- **The removed value comes back.** -/
theorem stale_get :
    ∃ c es, CacheReached CACHE_SIZE (by decide) es c ∧ lastPut es (lit "b9") = none ∧
      ∃ fuel c', cacheGet fuel c (lit "b9") = some (c', some (sized 1)) := by
  have hsome : (runOps 3 (initCache CACHE_SIZE (by decide)) staleOps).isSome := by decide +kernel
  obtain ⟨⟨c, es⟩, hrun⟩ := Option.isSome_iff_exists.mp hsome
  have hlast : ((runOps 3 (initCache CACHE_SIZE (by decide)) staleOps).map
      fun r => lastPut r.2 (lit "b9")) = some none := by decide +kernel
  have hget : ((runOps 3 (initCache CACHE_SIZE (by decide)) staleOps).bind
      fun r => (cacheGet 3 r.1 (lit "b9")).map Prod.snd) = some (some (sized 1)) := by decide +kernel
  rw [hrun] at hlast hget
  obtain ⟨⟨c', ans⟩, hc', hans⟩ := Option.map_eq_some_iff.mp hget
  refine ⟨c, es, run_of_runOps hrun, Option.some.inj hlast, 3, c', ?_⟩
  rw [hc', ← hans]

end NetworkFileShare
