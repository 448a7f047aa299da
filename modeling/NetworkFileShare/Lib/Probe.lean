import NetworkFileShare.Lib.Loop
import Mathlib.Data.Nat.ModEq
import Mathlib.Logic.Function.Basic

/-!
# Open addressing with linear probing

A table of `n` slots; `key i` is the key stored in slot `i`, and `home k` the slot where the walk of the
key `k` starts.

* `look` : what a slot answers to the search for a key, the empty slot and the key itself end it;
* `Passes i s` : the entry of slot `i` was placed past slot `s`; `Placed` : past slots that hold other
  keys only, so that every search finds its entry (`Placed.look_some`, `Placed.look_none`);
* `Placed.insert`, `Placed.erase` : what keeps the invariant. Emptying a slot keeps it only when no other
  entry was placed past that slot.
-/

namespace NetworkFileShare.Probe

open Loop

variable {K : Type*} {n : Nat} {home : K → Nat} {key : Nat → Option K}

section Search
variable [DecidableEq K]

/-- The answer of slot `s` to the search for `k`: `none` inside means there is no such key. -/
def look (key : Nat → Option K) (k : K) (s : Nat) : Option (Option Nat) :=
  match key s with
  | none => some none
  | some k' => if k' = k then some (some s) else none

theorem look_same {k : K} {s : Nat} (h : key s = some k) : look key k s = some (some s) := by
  simp [look, h]

theorem look_eq_none {k : K} {s : Nat} : look key k s = none ↔ key s ≠ none ∧ key s ≠ some k := by
  unfold look
  cases h : key s with
  | none => simp
  | some k' => by_cases hk : k' = k <;> simp [hk]

end Search

/-- The answer of slot `s` to the search for an empty slot. -/
def free (key : Nat → Option K) (s : Nat) : Option Nat :=
  match key s with
  | none => some s
  | some _ => none

theorem free_eq_some {s i : Nat} : free key s = some i ↔ s = i ∧ key s = none := by
  unfold free
  cases h : key s with
  | none => simp
  | some k' => simp

theorem free_eq_none {s : Nat} : free key s = none ↔ key s ≠ none := by
  unfold free
  cases h : key s with
  | none => simp
  | some k' => simp

theorem empty_of_hit {h i : Nat} (hn : 0 < n) (hit : Hit n (free key) h i) :
    i < n ∧ key i = none := by
  obtain ⟨j, hj, -⟩ := hit
  obtain ⟨rfl, hk⟩ := free_eq_some.mp hj
  exact ⟨Nat.mod_lt _ hn, hk⟩

/-! ## The invariant of the table -/

variable (n home key)

/-- The entry of slot `i` was placed past slot `s`: `s` comes before `i` on the walk of its key. -/
def Passes (i s : Nat) : Prop :=
  ∃ k j l, key i = some k ∧ j < n ∧ l < j ∧ (home k + j) % n = i ∧ (home k + l) % n = s

instance (i s : Nat) : Decidable (Passes n home key i s) :=
  match hk : key i with
  | none => isFalse fun ⟨k, _, _, h, _⟩ => by rw [hk] at h; cases h
  | some k =>
    decidable_of_iff (∃ j < n, ∃ l < j, (home k + j) % n = i ∧ (home k + l) % n = s)
      ⟨fun ⟨j, hj, l, hl, hji, hls⟩ => ⟨k, j, l, hk, hj, hl, hji, hls⟩,
        fun ⟨k', j, l, h, hj, hl, hji, hls⟩ => by
          obtain rfl := Option.some.inj (hk.symm.trans h)
          exact ⟨j, hj, l, hl, hji, hls⟩⟩

/-- Every entry was placed past slots of other keys only. -/
def Placed : Prop := ∀ i s, Passes n home key i s → key s ≠ none ∧ key s ≠ key i

variable {n home key}

/-- On a walk of at most one circle the slots differ. -/
theorem walk_inj {h j l : Nat} (hj : j < n) (hl : l < n) (he : (h + j) % n = (h + l) % n) : j = l := by
  have hm : j ≡ l [MOD n] := Nat.ModEq.add_left_cancel' h he
  exact hm.eq_of_lt_of_lt hj hl

theorem Placed.empty : Placed n home (fun _ => none) := by
  rintro i s ⟨k, j, l, hk, -⟩
  cases hk

/-- **A key is stored once.** -/
theorem Placed.unique (h : Placed n home key) {i i' : Nat} {k : K} (hi : i < n) (hi' : i' < n)
    (hk : key i = some k) (hk' : key i' = some k) : i = i' := by
  obtain ⟨j, hj, hji⟩ := slot_on_walk (h := home k) hi
  obtain ⟨j', hj', hji'⟩ := slot_on_walk (h := home k) hi'
  rcases Nat.lt_trichotomy j j' with hlt | rfl | hlt
  · exact absurd (hk.trans hk'.symm) (h i' i ⟨k, j', j, hk', hj', hlt, hji', hji⟩).2
  · exact hji.symm.trans hji'
  · exact absurd (hk'.trans hk.symm) (h i i' ⟨k, j, j', hk, hj, hlt, hji, hji'⟩).2

/-- **The search for a stored key finds its slot.** -/
theorem Placed.look_some [DecidableEq K] (h : Placed n home key) {i : Nat} {k : K} {r : Option Nat} (hi : i < n)
    (hk : key i = some k) (hit : Hit n (look key k) (home k) r) : r = some i := by
  obtain ⟨j, hj, hbefore⟩ := hit
  obtain ⟨j', hj', hji'⟩ := slot_on_walk (h := home k) hi
  rcases Nat.lt_trichotomy j j' with hlt | rfl | hlt
  · have hp := h i _ ⟨k, j', j, hk, hj', hlt, hji', rfl⟩
    have hnone : look key k ((home k + j) % n) = none := look_eq_none.mpr ⟨hp.1, hk ▸ hp.2⟩
    rw [hnone] at hj
    cases hj
  · rw [hji', look_same hk] at hj
    exact (Option.some.inj hj).symm
  · have hb := hbefore j' hlt
    rw [hji', look_same hk] at hb
    cases hb

/-- **The search that meets an empty slot is right: the key is not stored.** -/
theorem Placed.look_none [DecidableEq K] (h : Placed n home key) {k : K} (hit : Hit n (look key k) (home k) none) :
    ∀ i < n, key i ≠ some k := by
  intro i hi hk
  have hr := h.look_some hi hk hit
  cases hr

/-- Filling the first empty slot of the walk with a new key keeps the invariant. -/
theorem Placed.insert (h : Placed n home key) {k : K} {s : Nat} (hn : 0 < n)
    (hnew : ∀ i < n, key i ≠ some k) (hit : Hit n (free key) (home k) s) :
    Placed n home (Function.update key s (some k)) := by
  obtain ⟨hs, hfree⟩ := empty_of_hit hn hit
  obtain ⟨d, hd, hbefore⟩ := hit
  have hds : (home k + d) % n = s := (free_eq_some.mp hd).1
  rintro i t ⟨k', j, l, hk', hj, hl, hji, hlt⟩
  have ht : t < n := hlt ▸ Nat.mod_lt _ hn
  by_cases hi : i = s
  · -- the new entry: the slots before it on its walk are occupied, by other keys as `k` is new
    subst hi
    rw [Function.update_self] at hk' ⊢
    obtain rfl := Option.some.inj hk'
    have hjd : j ≤ d := by
      by_contra hgt
      have := walk_inj hj (by omega) (hji.trans hds.symm)
      omega
    have hts : t ≠ i := fun he => by
      have := walk_inj hj (by omega) (hji.trans (he ▸ hlt.symm))
      omega
    rw [Function.update_of_ne hts]
    refine ⟨?_, hnew t ht⟩
    have := free_eq_none.mp (hbefore l (by omega))
    rwa [hlt] at this
  · rw [Function.update_of_ne hi] at hk' ⊢
    obtain ⟨hne, hother⟩ := h i t ⟨k', j, l, hk', hj, hl, hji, hlt⟩
    have hts : t ≠ s := fun he => hne (he ▸ hfree)
    rw [Function.update_of_ne hts]
    exact ⟨hne, hother⟩

/-- Emptying a slot that no other entry was placed past keeps the invariant. -/
theorem Placed.erase (h : Placed n home key) {s : Nat}
    (hs : ∀ i, i ≠ s → ¬ Passes n home key i s) : Placed n home (Function.update key s none) := by
  rintro i t ⟨k, j, l, hk, hj, hl, hji, hlt⟩
  by_cases hi : i = s
  · subst hi
    rw [Function.update_self] at hk
    cases hk
  · rw [Function.update_of_ne hi] at hk ⊢
    have hp : Passes n home key i t := ⟨k, j, l, hk, hj, hl, hji, hlt⟩
    have hts : t ≠ s := fun he => hs i hi (he ▸ hp)
    rw [Function.update_of_ne hts]
    exact h i t hp

end NetworkFileShare.Probe
