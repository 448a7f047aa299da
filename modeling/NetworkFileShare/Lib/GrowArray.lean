import Mathlib.Data.List.Basic
import Mathlib.Tactic.Common

/-!
# Growing arrays and the indices used in them

* `Traced` : a computation that notes every access to an array, with what is allocated for the array then;
  `Traced.Safe` : every access is within its array and the result has a property, with the rules for it;
* `GrowArray` : the items of an array and its capacity, which is doubled when there is no room; `doubleUntil`;
* `insertAt`, `moveTail` : the loops that shift items by one and move them to another array, and that they are safe.
-/

namespace NetworkFileShare

/-- An access to an array: the index, and how many items there is room for. -/
structure Access (ι : Type) where
  array : ι
  index : Nat
  capacity : Nat
  deriving DecidableEq

/-- A result, and the accesses made for it. -/
structure Traced (ι α : Type) where
  val : α
  log : List (Access ι)

namespace Traced
variable {ι α β : Type}

instance : Monad (Traced ι) where
  pure a := ⟨a, []⟩
  bind x f := ⟨(f x.val).val, x.log ++ (f x.val).log⟩

@[simp] theorem val_pure (a : α) : (pure a : Traced ι α).val = a := rfl

@[simp] theorem val_bind (x : Traced ι α) (f : α → Traced ι β) : (x >>= f).val = (f x.val).val := rfl

/-- Every access is within its array. -/
def InBounds (log : List (Access ι)) : Prop := ∀ a ∈ log, a.index < a.capacity

instance (log : List (Access ι)) : Decidable (InBounds log) :=
  inferInstanceAs (Decidable (∀ a ∈ log, a.index < a.capacity))

/-- Every access is within its array, and the result has the property. -/
structure Safe (x : Traced ι α) (Q : α → Prop) : Prop where
  inBounds : InBounds x.log
  result : Q x.val

/-- The array is accessed at these indices, one after another. -/
def touch (array : ι) (capacity : Nat) (is : List Nat) : Traced ι Unit := ⟨(), is.map (⟨array, ·, capacity⟩)⟩

namespace Safe
variable {x : Traced ι α} {f : α → Traced ι β} {P : α → Prop} {Q : β → Prop}

theorem pure {a : α} (h : P a) : Safe (Pure.pure a : Traced ι α) P where
  inBounds _ ha := by cases ha
  result := h

theorem bind (hx : Safe x P) (hf : ∀ a, P a → Safe (f a) Q) : Safe (x >>= f) Q := by
  have hrest := hf x.val hx.result
  refine ⟨fun a ha => ?_, hrest.result⟩
  rcases List.mem_append.mp ha with ha | ha
  · exact hx.inBounds a ha
  · exact hrest.inBounds a ha

/-- Accesses before a computation. -/
theorem touch_then {array : ι} {capacity : Nat} {is : List Nat} {y : Traced ι β} (his : ∀ i ∈ is, i < capacity)
    (hy : Safe y Q) : Safe (touch array capacity is >>= fun _ => y) Q := by
  refine bind (P := fun _ => True) ⟨fun a ha => ?_, trivial⟩ fun _ _ => hy
  obtain ⟨i, hi, rfl⟩ := List.mem_map.mp ha
  exact his i hi

end Safe

end Traced

/-! ## Doubling -/

/-- The loop that doubles a capacity while it is smaller than `n`. -/
def doubleWhile (n : Nat) : (fuel capacity : Nat) → Nat
  | 0, capacity => capacity
  | fuel + 1, capacity => if capacity < n then doubleWhile n fuel (capacity * 2) else capacity

/-- The loop with enough fuel: a capacity that is not zero grows by one at least. -/
def doubleUntil (n capacity : Nat) : Nat := doubleWhile n n capacity

theorem le_doubleWhile {n : Nat} : ∀ {fuel capacity : Nat}, 0 < capacity → n ≤ capacity + fuel →
    n ≤ doubleWhile n fuel capacity ∧ capacity ≤ doubleWhile n fuel capacity
  | 0, _, _, h => ⟨h, Nat.le_refl _⟩
  | fuel + 1, capacity, hpos, h => by
    unfold doubleWhile
    split
    · have hrest : n ≤ doubleWhile n fuel (capacity * 2) ∧ capacity * 2 ≤ doubleWhile n fuel (capacity * 2) :=
        le_doubleWhile (by omega) (by omega)
      omega
    · omega

theorem le_doubleUntil {n capacity : Nat} (hpos : 0 < capacity) :
    n ≤ doubleUntil n capacity ∧ capacity ≤ doubleUntil n capacity :=
  le_doubleWhile hpos (Nat.le_add_left n capacity)

/-! ## Arrays -/

/-- The items of an array, and how many there is room for. -/
structure GrowArray (α : Type) where
  items : List α
  capacity : Nat
  deriving DecidableEq

namespace GrowArray
variable {ι α : Type} {a b : GrowArray α} {pos : Nat}

/-- The items are within the array, and the array can grow. -/
structure Ok (a : GrowArray α) : Prop where
  pos : 0 < a.capacity
  fits : a.items.length ≤ a.capacity

/-- The array is doubled when it is full. -/
def reserve (a : GrowArray α) : GrowArray α :=
  if a.items.length ≥ a.capacity then { a with capacity := a.capacity * 2 } else a

@[simp] theorem items_reserve (a : GrowArray α) : a.reserve.items = a.items := by
  unfold reserve
  split <;> rfl

theorem Ok.reserve (h : a.Ok) : 0 < a.reserve.capacity ∧ a.items.length < a.reserve.capacity := by
  have hpos := h.pos
  have hfits := h.fits
  unfold GrowArray.reserve
  split
  · show 0 < a.capacity * 2 ∧ a.items.length < a.capacity * 2
    omega
  · omega

/-- An item behind the others. -/
def push (a : GrowArray α) (x : α) : GrowArray α := { a.reserve with items := a.items ++ [x] }

@[simp] theorem items_push (a : GrowArray α) (x : α) : (a.push x).items = a.items ++ [x] := rfl

theorem Ok.push (h : a.Ok) (x : α) : (a.push x).Ok := by
  obtain ⟨hpos, hlt⟩ := h.reserve
  refine ⟨hpos, ?_⟩
  rw [items_push, List.length_append, List.length_singleton]
  exact hlt

/-- The loop that shifts the items from `pos` on by one, from the last one down, and the item that is put there. -/
def insertAt (array : ι) (a : GrowArray α) (pos : Nat) (x : α) : Traced ι (GrowArray α) := do
  let a := a.reserve
  let shifted := (List.range' (pos + 1) (a.items.length - pos)).reverse
  Traced.touch array a.capacity (shifted.flatMap fun j => [j, j - 1])
  Traced.touch array a.capacity [pos]
  return { a with items := a.items.take pos ++ x :: a.items.drop pos }

@[simp] theorem items_insertAt (array : ι) (a : GrowArray α) (pos : Nat) (x : α) :
    (a.insertAt array pos x).val.items = a.items.take pos ++ x :: a.items.drop pos := by
  show a.reserve.items.take pos ++ x :: a.reserve.items.drop pos = _
  rw [items_reserve]

theorem safe_insertAt (array : ι) (h : a.Ok) (hpos : pos ≤ a.items.length) (x : α) :
    (a.insertAt array pos x).Safe fun b => b.Ok ∧ b.items.length = a.items.length + 1 := by
  obtain ⟨hcap, hlt⟩ := h.reserve
  have hlength : (a.reserve.items.take pos ++ x :: a.reserve.items.drop pos).length = a.items.length + 1 := by
    rw [items_reserve, List.length_append, List.length_cons, List.length_take, List.length_drop]
    omega
  refine .touch_then (fun i hi => ?_) (.touch_then (fun i hi => ?_) (.pure ⟨⟨hcap, ?_⟩, hlength⟩))
  · obtain ⟨j, hj, hi⟩ := List.mem_flatMap.mp hi
    rw [List.mem_reverse, List.mem_range'_1, items_reserve] at hj
    simp only [List.mem_cons, List.not_mem_nil, or_false] at hi
    omega
  · rw [List.mem_singleton.mp hi]
    omega
  · exact Nat.le_trans (Nat.le_of_eq hlength) hlt

/-- The loop that puts the items of `a` from `pos` on behind those of `b`; `a` keeps the others. -/
def moveTail (source target : ι) (a : GrowArray α) (pos : Nat) (b : GrowArray α) :
    Traced ι (GrowArray α × GrowArray α) := do
  let moved := a.items.length - pos
  Traced.touch target b.capacity (List.range' b.items.length moved)
  Traced.touch source a.capacity (List.range' pos moved)
  return ({ a with items := a.items.take pos }, { b with items := b.items ++ a.items.drop pos })

theorem safe_moveTail (source target : ι) (ha : a.Ok) (hb : b.Ok)
    (hroom : b.items.length + (a.items.length - pos) ≤ b.capacity) :
    (a.moveTail source target pos b).Safe fun r => r.1.Ok ∧ r.2.Ok := by
  have hfits := ha.fits
  refine .touch_then (fun i hi => ?_) (.touch_then (fun i hi => ?_) (.pure ⟨⟨ha.pos, ?_⟩, ⟨hb.pos, ?_⟩⟩))
  · rw [List.mem_range'_1] at hi
    omega
  · rw [List.mem_range'_1] at hi
    omega
  · show (a.items.take pos).length ≤ a.capacity
    rw [List.length_take]
    omega
  · rw [List.length_append, List.length_drop]
    exact hroom

end GrowArray

end NetworkFileShare
