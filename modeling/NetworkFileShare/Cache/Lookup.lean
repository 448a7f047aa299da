import NetworkFileShare.Cache.Table

/-!
# When cache operations end

* `lookups_end_iff` : `cache_get` and `cache_remove` end if and only if the table has an empty slot or holds
  the key; neither has the test for a full circle that `cache_put` has;
* `put_full_diverges` : on a full table `cache_put` of a new key never ends, the search for an empty slot
  comes before the eviction that would make one.
-/

namespace NetworkFileShare

open Loop

theorem cacheGet_returns_iff {c : LRUCache} {key : CStr} :
    (∃ fuel r, cacheGet fuel c key = some r) ↔
      Returns (scan c.capacity (c.probe key)) (hashString key c.capacity) := by
  refine exists_congr fun fuel => ?_
  unfold cacheGet
  cases Loop.run (scan c.capacity (c.probe key)) fuel (hashString key c.capacity) with
  | none => simp
  | some r => cases r <;> simp

theorem cacheRemove_returns_iff {c : LRUCache} {key : CStr} :
    (∃ fuel c', cacheRemove fuel c key = some c') ↔
      Returns (scan c.capacity (c.probe key)) (hashString key c.capacity) := by
  refine exists_congr fun fuel => ?_
  unfold cacheRemove
  cases Loop.run (scan c.capacity (c.probe key)) fuel (hashString key c.capacity) with
  | none => simp
  | some r => cases r <;> simp

/-- The probing loop of the lookups ends exactly with room in the table or the key in it. -/
theorem LRUCache.Counted.returns_probe_iff {c : LRUCache} (hc : c.Counted) (key : CStr) :
    Returns (scan c.capacity (c.probe key)) (hashString key c.capacity) ↔
      c.size < c.capacity ∨ c.Holds key := by
  rw [returns_scan_iff (c.hash_lt key), hc.lt_capacity_iff, LRUCache.Holds]
  simp only [LRUCache.probe_isSome, and_or_left, exists_or]

/-- **The lookups of a key end if and only if there is an empty slot or the key is stored.** -/
theorem lookups_end_iff {capacity : Nat} (hpos : 0 < capacity) {es : List CacheEvent} {c : LRUCache}
    (h : CacheReached capacity hpos es c) (key : CStr) :
    ((∃ fuel r, cacheGet fuel c key = some r) ∧ ∃ fuel c', cacheRemove fuel c key = some c') ↔
      c.size < c.capacity ∨ c.Holds key := by
  rw [cacheGet_returns_iff, cacheRemove_returns_iff, and_self, h.counted.returns_probe_iff]

/-! ## A cache of one slot, filled -/

/-- The cache of capacity 1 after `cache_put("a", _)`. -/
def fullCache : LRUCache := (initCache 1 (by decide)).inserted (lit "a") .zero 0

theorem fullCache_reached :
    CacheReached 1 (by decide) [(.put (lit "a") .zero, none)] fullCache :=
  Run.single ⟨2, rfl⟩

theorem fullCache_absent : ¬ fullCache.Holds (lit "b") := by
  rintro ⟨i, hi, hk⟩
  obtain rfl : i = 0 := Nat.lt_one_iff.mp hi
  exact absurd hk (by decide)

theorem lookups_end_fullCache :
    ((∃ fuel r, cacheGet fuel fullCache (lit "a") = some r) ∧
        ∃ fuel c', cacheRemove fuel fullCache (lit "a") = some c') ↔
      fullCache.size < fullCache.capacity ∨ fullCache.Holds (lit "a") :=
  lookups_end_iff (by decide) fullCache_reached (lit "a")

/-- On the full cache the lookups of an absent key never end. -/
theorem lookups_diverge :
    CacheReached 1 (by decide) [(.put (lit "a") .zero, none)] fullCache ∧
      (∀ fuel, cacheGet fuel fullCache (lit "b") = none) ∧
      ∀ fuel, cacheRemove fuel fullCache (lit "b") = none := by
  have hnot : ¬ Returns (scan fullCache.capacity (fullCache.probe (lit "b")))
      (hashString (lit "b") fullCache.capacity) := by
    rw [fullCache_reached.counted.returns_probe_iff]
    exact not_or.mpr ⟨by decide, fullCache_absent⟩
  refine ⟨fullCache_reached, fun fuel => ?_, fun fuel => ?_⟩
  · by_contra hne
    obtain ⟨r, hr⟩ := Option.ne_none_iff_exists'.mp hne
    exact hnot (cacheGet_returns_iff.mp ⟨fuel, r, hr⟩)
  · by_contra hne
    obtain ⟨c', hr⟩ := Option.ne_none_iff_exists'.mp hne
    exact hnot (cacheRemove_returns_iff.mp ⟨fuel, c', hr⟩)

/-! ## Insertion into a full table -/

theorem LRUCache.Counted.cacheInsert_full {c : LRUCache} (hc : c.Counted) (hfull : c.size = c.capacity)
    (fuel : Nat) (key : CStr) (value : FileMetadata) : cacheInsert fuel c key value = none := by
  by_contra hne
  obtain ⟨c', h⟩ := Option.ne_none_iff_exists'.mp hne
  obtain ⟨hash, hit, -⟩ := cacheInsert_cases h
  have hroom : c.size < c.capacity :=
    hc.lt_capacity_iff.mpr ⟨hash, Probe.empty_of_hit c.capacity_pos hit⟩
  omega

theorem LRUCache.Counted.cachePut_full {c : LRUCache} (hc : c.Counted) (hfull : c.size = c.capacity)
    {key : CStr} (habsent : ¬ c.Holds key) (value : FileMetadata) :
    ¬ ∃ fuel c', cachePut fuel c key value = some c' := by
  rintro ⟨fuel, c', h⟩
  rcases cachePut_cases h with ⟨hash, node, hit, -⟩ | ⟨-, hins⟩
  · obtain ⟨hlt, hslot, hkey⟩ := LRUCache.found_of_probe hit
    exact habsent ⟨hash, hlt, by rw [LRUCache.keyAt, hslot, Option.map_some, hkey]⟩
  · rw [hc.cacheInsert_full hfull] at hins
    cases hins

/-- A search that ends without a node has met an empty slot. -/
theorem LRUCache.empty_of_probe {c : LRUCache} {key : CStr} {start : Nat}
    (hit : Hit c.capacity (c.probe key) start none) :
    ∃ i < c.capacity, c.keyAt i = none := by
  obtain ⟨j, hj, -⟩ := hit
  refine ⟨_, Nat.mod_lt (start + j) c.capacity_pos, LRUCache.keyAt_eq_none.mpr ?_⟩
  unfold LRUCache.probe at hj
  split at hj
  · assumption
  · split at hj <;> cases hj

/-- With room, or for a key that is stored, `cache_put` returns. -/
theorem LRUCache.Counted.cachePut_returns {c : LRUCache} (hc : c.Counted) {key : CStr}
    (h : c.size < c.capacity ∨ c.Holds key) (value : FileMetadata) :
    ∃ fuel c', cachePut fuel c key value = some c' := by
  have hwalk : ∃ n r, Loop.run (scanOnce c.capacity (hashString key c.capacity) none (c.probe key)) n
      (hashString key c.capacity) = some r := by
    by_cases hf : ∀ i < c.capacity, c.probe key i = none
    · exact ⟨_, _, run_scanOnce_miss (c.hash_lt key) hf⟩
    · push Not at hf
      obtain ⟨i, hi, hne⟩ := hf
      obtain ⟨r, hr⟩ := Option.ne_none_iff_exists'.mp hne
      obtain ⟨r', j, hj, hit⟩ := exists_hit (h := hashString key c.capacity) hi hr
      exact ⟨_, _, run_scanOnce_hit (c.hash_lt key) hj hit⟩
  obtain ⟨n, r, hr⟩ := hwalk
  cases r with
  | some p => exact ⟨n, (c.setValue p.2 value).moveToHead p.2, by rw [cachePut, hr]; rfl⟩
  | none =>
    -- the key is not stored before the first empty slot, so that there is one
    have hroom : ∃ i < c.capacity, c.keyAt i = none := by
      rcases run_scanOnce_cases (c.hash_lt key) hr with ⟨-, hmiss⟩ | hit
      · rcases h with hlt | ⟨i, hi, hk⟩
        · exact hc.lt_capacity_iff.mp hlt
        · have hsome := (c.probe_isSome key i).mpr (Or.inr hk)
          rw [hmiss i hi] at hsome
          cases hsome
      · exact LRUCache.empty_of_probe hit
    obtain ⟨i, hi, hnone⟩ := hroom
    have hfree : c.emptySlot i = some i := by rw [c.emptySlot_eq, Probe.free_eq_some]; exact ⟨rfl, hnone⟩
    obtain ⟨hash, j, -, hit⟩ := exists_hit (h := hashString key c.capacity) hi hfree
    have hscan := run_scan_of_hit (c.hash_lt key) hit
    have hcounted : (c.inserted key value hash).Counted := hc.inserted value ⟨j, c.emptySlot_eq ▸ hit⟩
    have hinserted := hcounted.le_capacity
    refine ⟨max n (j + 1), c.inserted key value hash, ?_⟩
    rw [cachePut, run_mono hr (le_max_left _ _)]
    show cacheInsert _ c key value = _
    rw [cacheInsert]
    show (Loop.run (scan c.capacity c.emptySlot) _ (hashString key c.capacity)).bind _ = _
    rw [run_mono hscan (le_max_right _ _)]
    exact LRUCache.evict_none hinserted

/-- **On a full cache `cache_put` of a new key never returns**: the entry that was to be evicted is never
reached. -/
theorem put_full_diverges {capacity : Nat} (hpos : 0 < capacity) {es : List CacheEvent} {c : LRUCache}
    (h : CacheReached capacity hpos es c) (hfull : c.size = c.capacity) {key : CStr}
    (habsent : ¬ c.Holds key) (value : FileMetadata) : ¬ ∃ fuel c', cachePut fuel c key value = some c' :=
  h.counted.cachePut_full hfull habsent value

theorem put_full_fullCache : ¬ ∃ fuel c', cachePut fuel fullCache (lit "b") .zero = some c' :=
  put_full_diverges (by decide) fullCache_reached rfl fullCache_absent .zero

/-- A full cache that a new key does not get into. -/
theorem lru_eviction_diverges :
    CacheReached 1 (by decide) [(.put (lit "a") .zero, none)] fullCache ∧
      fullCache.size = fullCache.capacity ∧ ¬ fullCache.Holds (lit "b") ∧
      ¬ ∃ fuel c', cachePut fuel fullCache (lit "b") .zero = some c' :=
  ⟨fullCache_reached, rfl, fullCache_absent,
    fullCache_reached.counted.cachePut_full rfl fullCache_absent .zero⟩

end NetworkFileShare
