import NetworkFileShare.Cache.Coherence
import NetworkFileShare.Lib.DoublyLinked

/-!
# The list of the cache

* `Links` : the nodes between `head` and `tail`; `removeNode_links`, `addToHead_links`, `moveToHead_links`;
* `used` : the node that a call has found or made; `CacheEffect` : everything a call that returned can have done;
* `lastUse` : the last call that used a node; `Recency` : the invariant, the list holds the nodes of the table, the
  ones used last in front;
* `ListMatches` : what is seen of it; `list_matches_table`.
-/

namespace NetworkFileShare

open Loop

namespace LRUCache

/-! ## The links -/

def nextOf (c : LRUCache) (a : Addr) : Addr := (c.heap a).next

def prevOf (c : LRUCache) (a : Addr) : Addr := (c.heap a).prev

/-- The list between the sentinels. -/
def Links (c : LRUCache) (nodes : List Addr) : Prop := Linked c.nextOf c.prevOf c.head c.tail nodes

@[simp] theorem nextOf_setNext (c : LRUCache) (a p : Addr) : (c.setNext a p).nextOf = Function.update c.nextOf a p := by
  funext b
  by_cases hb : b = a <;> simp [nextOf, setNext, setNode, hb]

@[simp] theorem prevOf_setNext (c : LRUCache) (a p : Addr) : (c.setNext a p).prevOf = c.prevOf := by
  funext b
  by_cases hb : b = a <;> simp [prevOf, setNext, setNode, hb]

@[simp] theorem nextOf_setPrev (c : LRUCache) (a p : Addr) : (c.setPrev a p).nextOf = c.nextOf := by
  funext b
  by_cases hb : b = a <;> simp [nextOf, setPrev, setNode, hb]

@[simp] theorem prevOf_setPrev (c : LRUCache) (a p : Addr) : (c.setPrev a p).prevOf = Function.update c.prevOf a p := by
  funext b
  by_cases hb : b = a <;> simp [prevOf, setPrev, setNode, hb]

theorem nextOf_removeNode (c : LRUCache) (a : Addr) :
    (c.removeNode a).nextOf = Function.update c.nextOf (c.prevOf a) (c.nextOf a) := by
  show ((c.setNext (c.prevOf a) (c.nextOf a)).setPrev _ _).nextOf = _
  rw [nextOf_setPrev, nextOf_setNext]

theorem prevOf_removeNode (c : LRUCache) (a : Addr) :
    (c.removeNode a).prevOf = Function.update c.prevOf (c.nextOf a) (c.prevOf a) := by
  show ((c.setNext (c.prevOf a) (c.nextOf a)).setPrev ((c.setNext (c.prevOf a) (c.nextOf a)).nextOf a)
    ((c.setNext (c.prevOf a) (c.nextOf a)).prevOf a)).prevOf = _
  rw [prevOf_setPrev, prevOf_setNext, nextOf_setNext]
  by_cases ha : a = c.prevOf a
  · rw [← ha, Function.update_self]
  · rw [Function.update_of_ne ha]

theorem nextOf_addToHead (c : LRUCache) (a : Addr) :
    (c.addToHead a).nextOf = Function.update (Function.update c.nextOf a (c.nextOf c.head)) c.head a := by
  show ((((c.setNext a (c.nextOf c.head)).setPrev a c.head).setPrev _ a).setNext c.head a).nextOf = _
  rw [nextOf_setNext, nextOf_setPrev, nextOf_setPrev, nextOf_setNext]

theorem prevOf_addToHead (c : LRUCache) (a : Addr) :
    (c.addToHead a).prevOf = Function.update (Function.update c.prevOf a c.head) (c.nextOf c.head) a := by
  show ((((c.setNext a (c.nextOf c.head)).setPrev a c.head).setPrev
    (((c.setNext a (c.nextOf c.head)).setPrev a c.head).nextOf c.head) a).setNext c.head a).prevOf = _
  rw [prevOf_setNext, prevOf_setPrev, prevOf_setPrev, prevOf_setNext, nextOf_setPrev, nextOf_setNext]
  by_cases ha : c.head = a
  · rw [ha, Function.update_self]
  · rw [Function.update_of_ne ha]

/-- The two caches have the same sentinels. -/
structure SameEnds (c c' : LRUCache) : Prop where
  head : c'.head = c.head
  tail : c'.tail = c.tail

namespace SameEnds

theorem trans {a b c : LRUCache} (h : SameEnds a b) (h' : SameEnds b c) : SameEnds a c where
  head := h'.head.trans h.head
  tail := h'.tail.trans h.tail

theorem setPrev (c : LRUCache) (a p : Addr) : SameEnds c (c.setPrev a p) := ⟨rfl, rfl⟩

theorem setNext (c : LRUCache) (a p : Addr) : SameEnds c (c.setNext a p) := ⟨rfl, rfl⟩

theorem removeNode (c : LRUCache) (a : Addr) : SameEnds c (c.removeNode a) := (setNext c _ _).trans (setPrev _ _ _)

theorem addToHead (c : LRUCache) (a : Addr) : SameEnds c (c.addToHead a) :=
  (((setNext c _ _).trans (setPrev _ _ _)).trans (setPrev _ _ _)).trans (setNext _ _ _)

theorem moveToHead (c : LRUCache) (a : Addr) : SameEnds c (c.moveToHead a) := (removeNode c a).trans (addToHead _ a)

theorem inserted (c : LRUCache) (key : CStr) (value : FileMetadata) (hash : Nat) :
    SameEnds c (c.inserted key value hash) := by
  rw [inserted_eq]
  have hends := addToHead (c.withNew key value hash) c.fresh
  exact ⟨hends.head, hends.tail⟩

end SameEnds

section
variable {c : LRUCache} {a : Addr} {nodes xs ys : List Addr}

theorem removeNode_links (h : c.Links (xs ++ a :: ys)) : (c.removeNode a).Links (xs ++ ys) := by
  unfold Links
  rw [nextOf_removeNode, prevOf_removeNode, (SameEnds.removeNode c a).head, (SameEnds.removeNode c a).tail]
  exact h.erase

theorem addToHead_links (h : c.Links nodes) (hhead : a ≠ c.head) (htail : a ≠ c.tail) (hnew : a ∉ nodes) :
    (c.addToHead a).Links (a :: nodes) := by
  unfold Links
  rw [nextOf_addToHead, prevOf_addToHead, (SameEnds.addToHead c a).head, (SameEnds.addToHead c a).tail]
  exact h.push hhead htail hnew

theorem counted_links (h : c.Links nodes) : c.counted.Links nodes := h

theorem moveToHead_links (h : c.Links (xs ++ a :: ys)) : (c.moveToHead a).Links (a :: (xs ++ ys)) := by
  have hmem : a ∈ xs ++ a :: ys := List.mem_append_right _ List.mem_cons_self
  have hnodup : (xs ++ a :: ys).Nodup := (List.nodup_append.mp (List.nodup_cons.mp h.nodup).2).1
  refine addToHead_links (removeNode_links h) (fun he => ?_) (fun he => ?_) ?_
  · exact h.first_notMem (he ▸ hmem)
  · exact h.last_notMem (he ▸ hmem)
  · exact (List.nodup_middle.mp hnodup).notMem

end

end LRUCache

/-! ## What a call does -/

/-- The node that a call finds or makes, by the loops with which it looks for it. -/
def CacheOp.used (fuel : Nat) (c : LRUCache) : CacheOp → Option (Option Addr)
  | .get key =>
    (Loop.run (scan c.capacity (c.probe key)) fuel (hashString key c.capacity)).map (Option.map Prod.snd)
  | .put key _ =>
    let start := hashString key c.capacity
    (Loop.run (scanOnce c.capacity start none (c.probe key)) fuel start).map
      fun found => some ((found.map Prod.snd).getD c.fresh)
  | .remove _ | .clear => some none

/-- The call returned with its answer, and has used that node. -/
def UsingStep (c : LRUCache) (e : CacheEvent × Option Addr) (c' : LRUCache) : Prop :=
  ∃ fuel, e.1.1.exec fuel c = some (c', e.1.2) ∧ e.1.1.used fuel c = some e.2

/-- What a call that uses a node does to the cache. -/
inductive CacheEffect (c : LRUCache) : CacheOp → Option Addr → LRUCache → Prop where
  | got (key : CStr) {hash node : Nat} (slot : c.hashTable hash = some node) :
      CacheEffect c (.get key) (some node) (c.moveToHead node)
  | missed (key : CStr) : CacheEffect c (.get key) none c
  | updated (key : CStr) (value : FileMetadata) {hash node : Nat} (slot : c.hashTable hash = some node) :
      CacheEffect c (.put key value) (some node) ((c.setValue node value).moveToHead node)
  | inserted (key : CStr) (value : FileMetadata) {hash : Nat} (lt : hash < c.capacity)
      (empty : c.hashTable hash = none) : CacheEffect c (.put key value) (some c.fresh) (c.inserted key value hash)
  | removed (key : CStr) {hash node : Nat} (lt : hash < c.capacity) (slot : c.hashTable hash = some node) :
      CacheEffect c (.remove key) none { (c.setSlot hash none).removeNode node with size := c.size - 1 }
  | absent (key : CStr) : CacheEffect c (.remove key) none c
  | cleared : CacheEffect c .clear none
      { (c.setNext c.head c.tail).setPrev c.tail c.head with hashTable := fun _ => none, size := 0 }

section
variable {fuel : Nat} {c c' : LRUCache} {op : CacheOp} {ans : Option FileMetadata}

/-- **A call that returned** has used a node or none, and its effect is one of these. -/
theorem cacheEffect_of_exec (hc : c.Counted) (h : op.exec fuel c = some (c', ans)) :
    ∃ u, op.used fuel c = some u ∧ CacheEffect c op u c' := by
  cases op with
  | get key =>
    obtain ⟨r, hr, he⟩ := Option.bind_eq_some_iff.mp h
    refine ⟨r.map Prod.snd, by rw [CacheOp.used, hr]; rfl, ?_⟩
    cases r with
    | none =>
      obtain rfl := (Prod.mk.inj (Option.some.inj he)).1
      exact .missed key
    | some found =>
      obtain rfl := (Prod.mk.inj (Option.some.inj he)).1
      exact .got key (LRUCache.found_of_probe (hit_of_run_scan (c.hash_lt key) hr)).2.1
  | put key value =>
    obtain ⟨c'', hput, he⟩ := Option.map_eq_some_iff.mp h
    obtain rfl := (Prod.mk.inj he).1
    obtain ⟨r, hr, he⟩ := Option.bind_eq_some_iff.mp hput
    refine ⟨some ((r.map Prod.snd).getD c.fresh), by rw [CacheOp.used, hr]; rfl, ?_⟩
    cases r with
    | none =>
      obtain ⟨hash, hit, rfl⟩ := cacheInsert_eq hc he
      obtain ⟨hlt, hempty⟩ := Probe.empty_of_hit c.capacity_pos hit
      exact .inserted key value hlt (LRUCache.keyAt_eq_none.mp hempty)
    | some found =>
      obtain rfl := Option.some.inj he
      rcases run_scanOnce_cases (c.hash_lt key) hr with ⟨hmiss, -⟩ | hit
      · cases hmiss
      · exact .updated key value (LRUCache.found_of_probe hit).2.1
  | remove key =>
    obtain ⟨c'', hremove, he⟩ := Option.map_eq_some_iff.mp h
    obtain rfl := (Prod.mk.inj he).1
    refine ⟨none, rfl, ?_⟩
    rcases cacheRemove_cases hremove with ⟨hash, node, hit, rfl⟩ | ⟨-, rfl⟩
    · obtain ⟨hlt, hslot, -⟩ := LRUCache.found_of_probe hit
      exact .removed key hlt hslot
    · exact .absent key
  | clear =>
    obtain ⟨c'', hclear, he⟩ := Option.map_eq_some_iff.mp h
    obtain rfl := (Prod.mk.inj he).1
    obtain ⟨_, -, he⟩ := Option.bind_eq_some_iff.mp hclear
    obtain rfl := Option.some.inj he
    exact ⟨none, rfl, .cleared⟩

end

/-! ## The order of use -/

/-- The last call that used the node, counted from 1; 0 if none has. -/
def lastUse (uses : List (Option Addr)) (a : Addr) : Nat := uses.length - uses.reverse.idxOf (some a)

theorem lastUse_snoc (uses : List (Option Addr)) (u : Option Addr) (a : Addr) :
    lastUse (uses ++ [u]) a = if u = some a then uses.length + 1 else lastUse uses a := by
  rw [lastUse, lastUse, List.reverse_append, List.reverse_singleton, List.singleton_append, List.idxOf_cons,
    List.length_append, List.length_singleton]
  by_cases hu : u = some a
  · simp [hu]
  · rw [if_neg hu]
    have hne : (u == some a) = false := by simpa using hu
    rw [hne]
    show uses.length + 1 - (uses.reverse.idxOf (some a) + 1) = _
    omega

theorem lastUse_le (uses : List (Option Addr)) (a : Addr) : lastUse uses a ≤ uses.length := Nat.sub_le _ _

/-- The nodes of the table are in the list, those used last in front. -/
structure Recency (uses : List (Option Addr)) (c : LRUCache) (nodes : List Addr) : Prop where
  counted : c.Counted
  links : c.Links nodes
  mem : ∀ a, a ∈ nodes ↔ ∃ i, c.hashTable i = some a
  bounded : ∀ i a, c.hashTable i = some a → i < c.capacity
  oneSlot : ∀ i j a, c.hashTable i = some a → c.hashTable j = some a → i = j
  allocated : ∀ a ∈ c.head :: (nodes ++ [c.tail]), a < c.fresh
  length : nodes.length = c.size
  used : ∀ a ∈ nodes, 0 < lastUse uses a
  recent : nodes.Pairwise fun a b => lastUse uses b < lastUse uses a

namespace Recency
variable {uses : List (Option Addr)} {c c' : LRUCache} {nodes xs ys : List Addr} {a : Addr}

theorem init {capacity : Nat} (h : 0 < capacity) : Recency [] (initCache capacity h) [] where
  counted := initCache_counted h
  links := .nil rfl rfl (show (1 : Addr) ≠ 2 by decide)
  mem a := by simp [initCache]
  bounded _ _ hi := by cases hi
  oneSlot _ _ _ hi := by cases hi
  allocated a ha := by
    rcases List.mem_cons.mp ha with rfl | ha
    · exact show (1 : Addr) < 3 by decide
    · rw [List.mem_singleton.mp ha]
      exact show (2 : Addr) < 3 by decide
  length := rfl
  used _ ha := by cases ha
  recent := .nil

/-- A call that uses no node leaves the order alone. -/
theorem unused_order (h : nodes.Pairwise fun a b => lastUse uses b < lastUse uses a)
    (hused : ∀ a ∈ nodes, 0 < lastUse uses a) :
    (∀ a ∈ nodes, 0 < lastUse (uses ++ [none]) a) ∧
      nodes.Pairwise fun a b => lastUse (uses ++ [none]) b < lastUse (uses ++ [none]) a := by
  have hsame : ∀ a, lastUse (uses ++ [none]) a = lastUse uses a := fun a => by
    rw [lastUse_snoc, if_neg (Option.some_ne_none a).symm]
  simp only [hsame]
  exact ⟨hused, h⟩

/-- A call that uses a node puts it in front of the others. -/
theorem used_order (h : nodes.Pairwise fun a b => lastUse uses b < lastUse uses a)
    (hused : ∀ a ∈ nodes, 0 < lastUse uses a) (ha : a ∉ nodes) :
    (∀ b ∈ a :: nodes, 0 < lastUse (uses ++ [some a]) b) ∧
      (a :: nodes).Pairwise fun b d => lastUse (uses ++ [some a]) d < lastUse (uses ++ [some a]) b := by
  have hself : lastUse (uses ++ [some a]) a = uses.length + 1 := by rw [lastUse_snoc, if_pos rfl]
  have hother : ∀ b ∈ nodes, lastUse (uses ++ [some a]) b = lastUse uses b := fun b hb => by
    rw [lastUse_snoc, if_neg]
    rintro he
    exact ha (Option.some.inj he ▸ hb)
  refine ⟨fun b hb => ?_, List.pairwise_cons.mpr ⟨fun b hb => ?_, ?_⟩⟩
  · rcases List.mem_cons.mp hb with rfl | hb
    · rw [hself]
      exact Nat.succ_pos _
    · rw [hother b hb]
      exact hused b hb
  · rw [hself, hother b hb]
    exact Nat.lt_succ_of_le (lastUse_le uses b)
  · refine h.imp_of_mem fun hb hd hlt => ?_
    rwa [hother _ hb, hother _ hd]

/-- The list without a node. -/
theorem order_erase (h : Recency uses c (xs ++ a :: ys)) :
    (∀ b ∈ xs ++ ys, 0 < lastUse uses b) ∧ (xs ++ ys).Pairwise (fun b d => lastUse uses d < lastUse uses b) ∧
      a ∉ xs ++ ys := by
  have hsub : (xs ++ ys).Sublist (xs ++ a :: ys) := List.Sublist.append_left (List.sublist_cons_self a ys) xs
  have hnodup : (xs ++ a :: ys).Nodup := (List.nodup_append.mp (List.nodup_cons.mp h.links.nodup).2).1
  exact ⟨fun b hb => h.used b (hsub.subset hb), h.recent.sublist hsub, (List.nodup_middle.mp hnodup).notMem⟩

/-- **A stored node is used.** -/
theorem move (h : Recency uses c (xs ++ a :: ys)) : Recency (uses ++ [some a]) (c.moveToHead a) (a :: (xs ++ ys)) := by
  have hs := LRUCache.SameTable.moveToHead c a
  obtain ⟨hused, hrecent, hnew⟩ := h.order_erase
  have horder := used_order hrecent hused hnew
  have hperm : (a :: (xs ++ ys)).Perm (xs ++ a :: ys) := List.perm_middle.symm
  refine ⟨h.counted.same hs, LRUCache.moveToHead_links h.links, fun b => ?_, ?_, ?_, fun b hb => ?_, ?_, horder.1,
    horder.2⟩
  · rw [hs.hashTable, hperm.mem_iff]
    exact h.mem b
  · rw [hs.hashTable, hs.capacity]
    exact h.bounded
  · rw [hs.hashTable]
    exact h.oneSlot
  · rw [hs.fresh]
    refine h.allocated b ?_
    have hcells : (c.head :: ((a :: (xs ++ ys)) ++ [c.tail])).Perm (c.head :: ((xs ++ a :: ys) ++ [c.tail])) :=
      (hperm.append_right [c.tail]).cons c.head
    rw [(LRUCache.SameEnds.moveToHead c a).head, (LRUCache.SameEnds.moveToHead c a).tail] at hb
    exact hcells.mem_iff.mp hb
  · rw [hperm.length_eq, h.length, hs.size]

/-- **A node is made.** -/
theorem insert (h : Recency uses c nodes) (key : CStr) (value : FileMetadata) {hash : Nat} (hlt : hash < c.capacity)
    (hempty : c.hashTable hash = none) :
    Recency (uses ++ [some c.fresh]) (c.inserted key value hash) (c.fresh :: nodes) := by
  obtain ⟨hcap, hsize, htab, hfresh⟩ := c.inserted_same key value hash
  have hold : ∀ a ∈ c.head :: (nodes ++ [c.tail]), a ≠ c.fresh := fun a ha => (h.allocated a ha).ne
  have hnew : c.fresh ∉ nodes := fun hmem =>
    hold _ (List.mem_cons_of_mem _ (List.mem_append_left _ hmem)) rfl
  have hhead : c.fresh ≠ c.head := (hold _ List.mem_cons_self).symm
  have htail : c.fresh ≠ c.tail := (hold _ (by simp)).symm
  have horder := used_order h.recent h.used hnew
  have hlinks : (c.inserted key value hash).Links (c.fresh :: nodes) := by
    -- the new node is not yet in the list
    have hbefore : (c.withNew key value hash).Links nodes := by
      refine ⟨joined_congr (fun b hb => ?_) (fun b hb => ?_) h.links.chain, h.links.nodup⟩
      · have hb := hold b (List.dropLast_subset _ hb)
        simp [LRUCache.nextOf, LRUCache.withNew, LRUCache.createCacheNode, LRUCache.setSlot, LRUCache.setNode, hb]
      · have hb := hold b (List.mem_of_mem_tail hb)
        simp [LRUCache.prevOf, LRUCache.withNew, LRUCache.createCacheNode, LRUCache.setSlot, LRUCache.setNode, hb]
    rw [LRUCache.inserted_eq]
    exact LRUCache.counted_links (LRUCache.addToHead_links hbefore hhead htail hnew)
  refine ⟨h.counted.fill hlt hempty hcap htab hsize, hlinks, fun b => ?_, fun i b hi => ?_, fun i j b hi hj => ?_,
    fun b hb => ?_, ?_, horder.1, horder.2⟩
  · rw [List.mem_cons, h.mem, htab]
    constructor
    · rintro (rfl | ⟨i, hi⟩)
      · exact ⟨hash, Function.update_self _ _ _⟩
      · refine ⟨i, ?_⟩
        rw [Function.update_of_ne, hi]
        rintro rfl
        rw [hempty] at hi
        cases hi
    · rintro ⟨i, hi⟩
      by_cases hih : i = hash
      · rw [hih, Function.update_self] at hi
        exact Or.inl (Option.some.inj hi).symm
      · rw [Function.update_of_ne hih] at hi
        exact Or.inr ⟨i, hi⟩
  · rw [hcap]
    rw [htab] at hi
    by_cases hih : i = hash
    · rwa [hih]
    · rw [Function.update_of_ne hih] at hi
      exact h.bounded i b hi
  · have hstored : ∀ i, c.hashTable i ≠ some c.fresh := fun i hi => hnew ((h.mem _).mpr ⟨i, hi⟩)
    rw [htab] at hi hj
    by_cases hih : i = hash <;> by_cases hjh : j = hash
    · rw [hih, hjh]
    · rw [hih, Function.update_self] at hi
      rw [Function.update_of_ne hjh, ← hi] at hj
      exact absurd hj (hstored j)
    · rw [hjh, Function.update_self] at hj
      rw [Function.update_of_ne hih, ← hj] at hi
      exact absurd hi (hstored i)
    · rw [Function.update_of_ne hih] at hi
      rw [Function.update_of_ne hjh] at hj
      exact h.oneSlot i j b hi hj
  · rw [hfresh]
    have hends := LRUCache.SameEnds.inserted c key value hash
    rw [hends.head, hends.tail] at hb
    rcases List.mem_cons.mp hb with rfl | hb
    · exact (h.allocated _ List.mem_cons_self).trans (Nat.lt_succ_self _)
    · rcases List.mem_cons.mp hb with rfl | hb
      · exact Nat.lt_succ_self _
      · exact (h.allocated b (List.mem_cons_of_mem _ hb)).trans (Nat.lt_succ_self _)
  · rw [List.length_cons, h.length, hsize]

/-- **A node is taken out.** -/
theorem remove (h : Recency uses c (xs ++ a :: ys)) {hash : Nat} (hlt : hash < c.capacity)
    (hslot : c.hashTable hash = some a) :
    Recency (uses ++ [none]) { (c.setSlot hash none).removeNode a with size := c.size - 1 } (xs ++ ys) := by
  obtain ⟨hused, hrecent, hout⟩ := h.order_erase
  have horder := unused_order hrecent hused
  have hsub : (xs ++ ys).Sublist (xs ++ a :: ys) := List.Sublist.append_left (List.sublist_cons_self a ys) xs
  have hleft : ∀ i b, (c.setSlot hash none).hashTable i = some b ↔ c.hashTable i = some b ∧ b ≠ a := by
    intro i b
    show Function.update c.hashTable hash none i = some b ↔ _
    by_cases hi : i = hash
    · subst hi
      rw [Function.update_self, hslot]
      exact iff_of_false (Option.some_ne_none b).symm fun hb => hb.2 (Option.some.inj hb.1).symm
    · rw [Function.update_of_ne hi]
      refine (and_iff_left_of_imp fun hb (he : b = a) => ?_).symm
      subst he
      exact hi (h.oneSlot i hash b hb hslot)
  refine ⟨h.counted.empty hlt (by rw [hslot]; exact Option.some_ne_none _) rfl rfl rfl,
    LRUCache.removeNode_links (c := c.setSlot hash none) h.links, fun b => ?_, fun i b hi => ?_, fun i j b hi hj => ?_,
    fun b hb => ?_, ?_, horder.1, horder.2⟩
  · show _ ↔ ∃ i, (c.setSlot hash none).hashTable i = some b
    simp only [hleft, exists_and_right, ← h.mem]
    constructor
    · intro hb
      exact ⟨hsub.subset hb, fun he => hout (he ▸ hb)⟩
    · rintro ⟨hb, hne⟩
      rcases List.mem_append.mp hb with hb | hb
      · exact List.mem_append_left _ hb
      · exact List.mem_append_right _ ((List.mem_cons.mp hb).resolve_left hne)
  · exact h.bounded i b ((hleft i b).mp hi).1
  · exact h.oneSlot i j b ((hleft i b).mp hi).1 ((hleft j b).mp hj).1
  · refine h.allocated b ?_
    rcases List.mem_cons.mp hb with rfl | hb
    · exact List.mem_cons_self
    · rcases List.mem_append.mp hb with hb | hb
      · exact List.mem_cons_of_mem _ (List.mem_append_left _ (hsub.subset hb))
      · exact List.mem_cons_of_mem _ (List.mem_append_right _ hb)
  · show _ = c.size - 1
    rw [← h.length, List.length_append, List.length_append, List.length_cons]
    omega

/-- **Everything is taken out.** -/
theorem clear (h : Recency uses c nodes) : Recency (uses ++ [none])
    { (c.setNext c.head c.tail).setPrev c.tail c.head with hashTable := fun _ => none, size := 0 } [] where
  counted := by
    rw [LRUCache.Counted, eq_comm, Finset.card_eq_zero, Finset.eq_empty_iff_forall_notMem]
    exact fun i hi => (LRUCache.mem_occupied.mp hi).2 rfl
  links := by
    have hne : c.head ≠ c.tail := fun he => (List.nodup_cons.mp h.links.nodup).1 (by rw [he]; simp)
    refine .nil ?_ ?_ hne
    · show ((c.setNext c.head c.tail).setPrev c.tail c.head).nextOf c.head = c.tail
      rw [LRUCache.nextOf_setPrev, LRUCache.nextOf_setNext, Function.update_self]
    · show ((c.setNext c.head c.tail).setPrev c.tail c.head).prevOf c.tail = c.head
      rw [LRUCache.prevOf_setPrev, Function.update_self]
  mem a := by simp
  bounded _ _ hi := by cases hi
  oneSlot _ _ _ hi := by cases hi
  allocated a ha := h.allocated a (by
    rcases List.mem_cons.mp ha with rfl | ha
    · exact List.mem_cons_self
    · exact List.mem_cons_of_mem _ (List.mem_append_right _ ha))
  length := rfl
  used _ ha := by cases ha
  recent := .nil

/-- A value is written into a node. -/
theorem setValue (h : Recency uses c nodes) (a : Addr) (value : FileMetadata) :
    Recency uses (c.setValue a value) nodes := by
  have hnext : (c.setValue a value).nextOf = c.nextOf := by
    funext b
    by_cases hb : b = a <;> simp [LRUCache.nextOf, LRUCache.setValue, LRUCache.setNode, hb]
  have hprev : (c.setValue a value).prevOf = c.prevOf := by
    funext b
    by_cases hb : b = a <;> simp [LRUCache.prevOf, LRUCache.setValue, LRUCache.setNode, hb]
  refine ⟨h.counted, ?_, h.mem, h.bounded, h.oneSlot, h.allocated, h.length, h.used, h.recent⟩
  unfold LRUCache.Links
  rw [hnext, hprev]
  exact h.links

/-- A call that has found nothing. -/
theorem unused (h : Recency uses c nodes) : Recency (uses ++ [none]) c nodes :=
  have horder := unused_order h.recent h.used
  ⟨h.counted, h.links, h.mem, h.bounded, h.oneSlot, h.allocated, h.length, horder.1, horder.2⟩

/-- The list at a node that a slot holds. -/
theorem split_at_slot (h : Recency uses c nodes) {hash : Nat} (hslot : c.hashTable hash = some a) :
    ∃ xs ys, nodes = xs ++ a :: ys := List.append_of_mem ((h.mem a).mpr ⟨hash, hslot⟩)

/-- **Every call keeps the invariant.** -/
theorem step (h : Recency uses c nodes) {e : CacheEvent × Option Addr} (hstep : UsingStep c e c') :
    ∃ nodes', Recency (uses ++ [e.2]) c' nodes' := by
  obtain ⟨fuel, hexec, hused⟩ := hstep
  obtain ⟨u, hu, heffect⟩ := cacheEffect_of_exec h.counted hexec
  obtain rfl : e.2 = u := Option.some.inj (hused.symm.trans hu)
  generalize e.2 = u, e.1.1 = op at heffect
  cases heffect with
  | got key slot =>
    obtain ⟨xs, ys, rfl⟩ := h.split_at_slot slot
    exact ⟨_, h.move⟩
  | missed key => exact ⟨_, h.unused⟩
  | updated key value slot =>
    obtain ⟨xs, ys, rfl⟩ := h.split_at_slot slot
    exact ⟨_, (h.setValue _ value).move⟩
  | inserted key value lt empty => exact ⟨_, h.insert key value lt empty⟩
  | removed key lt slot =>
    obtain ⟨xs, ys, rfl⟩ := h.split_at_slot slot
    exact ⟨_, h.remove lt slot⟩
  | absent key => exact ⟨_, h.unused⟩
  | cleared => exact ⟨_, h.clear⟩

end Recency

/-! ## What is seen of it -/

/-- The list from `head` to `tail`, the table and the size tell the same. -/
structure ListMatches (uses : List (Option Addr)) (c : LRUCache) (nodes : List Addr) : Prop where
  forward : Walks c.nextOf c.head nodes c.tail
  backward : Walks c.prevOf c.tail nodes.reverse c.head
  distinct : nodes.Nodup
  slots : ∀ a, a ∈ nodes ↔ ∃ i < c.capacity, c.hashTable i = some a
  oneSlot : ∀ i < c.capacity, ∀ j < c.capacity, ∀ a, c.hashTable i = some a → c.hashTable j = some a → i = j
  length : nodes.length = c.size
  size_le : c.size ≤ c.capacity
  used : ∀ a ∈ nodes, 0 < lastUse uses a
  recent : nodes.Pairwise fun a b => lastUse uses b < lastUse uses a

theorem Recency.matches {uses : List (Option Addr)} {c : LRUCache} {nodes : List Addr} (h : Recency uses c nodes) :
    ListMatches uses c nodes where
  forward := h.links.walks_next
  backward := h.links.walks_prev
  distinct := (List.nodup_append.mp (List.nodup_cons.mp h.links.nodup).2).1
  slots a := by
    rw [h.mem]
    exact exists_congr fun i => (and_iff_right_of_imp (h.bounded i a)).symm
  oneSlot i _ j _ a := h.oneSlot i j a
  length := h.length
  size_le := h.counted.le_capacity
  used := h.used
  recent := h.recent

section
variable {capacity : Nat} {hpos : 0 < capacity} {c : LRUCache}

theorem recency_of_run {us : List (CacheEvent × Option Addr)} (h : Run UsingStep (initCache capacity hpos) us c) :
    ∃ nodes, Recency (us.map Prod.snd) c nodes := by
  refine h.invariant (I := fun us c => ∃ nodes, Recency (us.map Prod.snd) c nodes) ⟨[], .init hpos⟩ ?_
  rintro us t e u ⟨nodes, ht⟩ hstep
  obtain ⟨nodes', hu⟩ := ht.step hstep
  refine ⟨nodes', ?_⟩
  rwa [List.map_append]

/-- Every run of calls that returned has used some nodes. -/
theorem CacheReached.uses {es : List CacheEvent} (h : CacheReached capacity hpos es c) :
    ∃ us : List (CacheEvent × Option Addr), us.map Prod.fst = es ∧ Run UsingStep (initCache capacity hpos) us c := by
  induction h with
  | nil => exact ⟨[], rfl, .nil⟩
  | snoc run last ih =>
    obtain ⟨us, rfl, hrun⟩ := ih
    obtain ⟨fuel, hexec⟩ := last
    obtain ⟨u, hused, -⟩ := cacheEffect_of_exec (CacheReached.counted run) hexec
    exact ⟨us ++ [(_, u)], List.map_append, hrun.snoc ⟨fuel, hexec, hused⟩⟩

/-- **In every reached state the list matches the table**, and its nodes are in the order of their last use. -/
theorem list_matches_table {es : List CacheEvent} (h : CacheReached capacity hpos es c) :
    (∃ us : List (CacheEvent × Option Addr), us.map Prod.fst = es ∧ Run UsingStep (initCache capacity hpos) us c) ∧
      ∀ us : List (CacheEvent × Option Addr), us.map Prod.fst = es → Run UsingStep (initCache capacity hpos) us c →
        ∃ nodes, ListMatches (us.map Prod.snd) c nodes := by
  refine ⟨h.uses, fun us _ hrun => ?_⟩
  obtain ⟨nodes, hnodes⟩ := recency_of_run hrun
  exact ⟨nodes, hnodes.matches⟩

end

/-- `aZ` and `b9` are stored, then `aZ` is looked up. -/
def lookupEvents : List CacheEvent :=
  [(.put (lit "aZ") (sized 0), none), (.put (lit "b9") (sized 1), none), (.get (lit "aZ"), some (sized 0))]

theorem list_matches_lookup :
    (∃ us : List (CacheEvent × Option Addr), us.map Prod.fst = lookupEvents ∧
      Run UsingStep (initCache 2 (by decide)) us (chainCache.moveToHead 3)) ∧
      ∀ us : List (CacheEvent × Option Addr), us.map Prod.fst = lookupEvents →
        Run UsingStep (initCache 2 (by decide)) us (chainCache.moveToHead 3) →
          ∃ nodes, ListMatches (us.map Prod.snd) (chainCache.moveToHead 3) nodes :=
  have hrun : CacheReached 2 (by decide) lookupEvents (chainCache.moveToHead 3) :=
    Run.cons ⟨3, rfl⟩ (Run.cons (t := chainCache) ⟨3, rfl⟩ (Run.single ⟨3, rfl⟩))
  list_matches_table hrun

end NetworkFileShare
