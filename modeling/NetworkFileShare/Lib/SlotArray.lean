import Mathlib.Data.List.Basic
import Mathlib.Logic.Function.Basic

/-!
# Arrays that are filled from the front

* `SlotArray α` : the slots, and how many of them are in use; the others keep what was in them last;
* `push`, `modify`, `removeAt` : a new entry behind the last, an entry that is changed where it is, and an entry that
  is taken out, the ones behind it moving up by one slot;
* `live` : the entries in use as a list; `live_push`, `live_modify`, `live_removeAt` : the operations on it.
-/

namespace NetworkFileShare

variable {α β : Type*}

/-! ## Lists with a changed entry -/

/-- A change that can be made on the images as well. -/
theorem map_modify {h : α → β} {g : α → α} {g' : β → β} (hg : ∀ x, h (g x) = g' (h x)) (l : List α) (k : Nat) :
    (l.modify k g).map h = (l.map h).modify k g' := by
  refine List.ext_getElem? fun j => ?_
  rw [List.getElem?_map, List.getElem?_modify, List.getElem?_modify, List.getElem?_map]
  cases l[j]? with
  | none => rfl
  | some x =>
    show some (h (if k = j then g x else x)) = some (if k = j then g' (h x) else h x)
    split
    · rw [hg]
    · rfl

/-- A change that the images do not show. -/
theorem map_modify_of_keeps {h : α → β} {g : α → α} (hg : ∀ x, h (g x) = h x) (l : List α) (k : Nat) :
    (l.modify k g).map h = l.map h := by
  have hmap : (l.modify k g).map h = (l.map h).modify k id := map_modify hg l k
  rw [hmap, List.modify_id]

theorem exists_of_mem_modify {g : α → α} {l : List α} {k : Nat} {x : α} (hx : x ∈ l.modify k g) :
    ∃ y ∈ l, x = y ∨ x = g y := by
  obtain ⟨j, hj⟩ := List.mem_iff_getElem?.mp hx
  rw [List.getElem?_modify] at hj
  obtain ⟨y, hy, rfl⟩ := Option.map_eq_some_iff.mp hj
  refine ⟨y, List.mem_of_getElem? hy, ?_⟩
  split
  · exact Or.inr rfl
  · exact Or.inl rfl

theorem findIdx?_congr {p q : α → Bool} {l : List α} (h : ∀ x ∈ l, p x = q x) : l.findIdx? p = l.findIdx? q := by
  induction l with
  | nil => rfl
  | cons y l ih =>
    rw [List.findIdx?_cons, List.findIdx?_cons, h y List.mem_cons_self,
      ih fun x hx => h x (List.mem_cons_of_mem y hx)]

/-! ## The array -/

/-- The slots, and how many of them are in use. -/
structure SlotArray (α : Type*) where
  slots : Nat → α
  count : Nat

namespace SlotArray

/-- The entries in use. -/
def live (a : SlotArray α) : List α := (List.range a.count).map a.slots

def push (a : SlotArray α) (x : α) : SlotArray α := ⟨Function.update a.slots a.count x, a.count + 1⟩

def modify (a : SlotArray α) (k : Nat) (f : α → α) : SlotArray α :=
  { a with slots := Function.update a.slots k (f (a.slots k)) }

/-- Every entry behind slot `i` moves up; the slot of the last one keeps it. -/
def removeAt (a : SlotArray α) (i : Nat) : SlotArray α :=
  ⟨fun j => if i ≤ j ∧ j + 1 < a.count then a.slots (j + 1) else a.slots j, a.count - 1⟩

variable {a : SlotArray α} {i k : Nat}

theorem slots_push_self (a : SlotArray α) (x : α) : (a.push x).slots a.count = x := Function.update_self ..

theorem slots_push_of_lt (x : α) (h : k < a.count) : (a.push x).slots k = a.slots k :=
  Function.update_of_ne (Nat.ne_of_lt h) ..

theorem slots_modify_self (a : SlotArray α) (k : Nat) (f : α → α) : (a.modify k f).slots k = f (a.slots k) :=
  Function.update_self ..

theorem slots_modify_of_ne (f : α → α) (h : k ≠ i) : (a.modify i f).slots k = a.slots k := Function.update_of_ne h ..

theorem slots_removeAt_of_lt (h : k < i) : (a.removeAt i).slots k = a.slots k :=
  if_neg fun hk => absurd hk.1 (Nat.not_le_of_lt h)

@[simp] theorem length_live (a : SlotArray α) : a.live.length = a.count := by
  rw [live, List.length_map, List.length_range]

theorem getElem?_live (a : SlotArray α) (k : Nat) : a.live[k]? = if k < a.count then some (a.slots k) else none := by
  rw [live, List.getElem?_map]
  split
  · rename_i hk
    rw [List.getElem?_range hk]
    rfl
  · rename_i hk
    rw [List.getElem?_eq_none (by rw [List.length_range]; omega)]
    rfl

theorem getElem?_live_eq_some {x : α} : a.live[k]? = some x ↔ k < a.count ∧ a.slots k = x := by
  rw [getElem?_live]
  split
  · rename_i hk
    rw [Option.some_inj]
    exact (and_iff_right hk).symm
  · rename_i hk
    exact iff_of_false nofun fun h => hk h.1

theorem slots_mem_live (hk : k < a.count) : a.slots k ∈ a.live :=
  List.mem_of_getElem? (getElem?_live_eq_some.mpr ⟨hk, rfl⟩)

theorem live_push (a : SlotArray α) (x : α) : (a.push x).live = a.live ++ [x] := by
  show (List.range (a.count + 1)).map (a.push x).slots = a.live ++ [x]
  rw [List.range_succ, List.map_append, List.map_singleton, slots_push_self]
  congr 1
  exact List.map_congr_left fun k hk => slots_push_of_lt x (List.mem_range.mp hk)

theorem live_modify (a : SlotArray α) (k : Nat) (f : α → α) : (a.modify k f).live = a.live.modify k f := by
  refine List.ext_getElem? fun j => ?_
  rw [getElem?_live, List.getElem?_modify, getElem?_live]
  show (if j < a.count then some ((a.modify k f).slots j) else none) = _
  by_cases hj : k = j
  · subst hj
    rw [slots_modify_self]
    split <;> simp
  · rw [slots_modify_of_ne f (Ne.symm hj)]
    simp only [if_neg hj]
    split <;> rfl

theorem live_removeAt (h : i < a.count) : (a.removeAt i).live = a.live.eraseIdx i := by
  refine List.ext_getElem? fun j => ?_
  rw [getElem?_live, List.getElem?_eraseIdx, getElem?_live, getElem?_live]
  show (if j < a.count - 1 then some (if i ≤ j ∧ j + 1 < a.count then a.slots (j + 1) else a.slots j) else none) = _
  split_ifs <;> first | rfl | omega

end SlotArray

end NetworkFileShare
