import Mathlib.Data.List.Basic
import Mathlib.Data.List.ReduceOption
import Mathlib.Tactic.Common

/-!
# Frames on a stream

* `Reader` : takes something from the front of a stream, or fails; `readMany` : readers, one after the other;
* `Takes` : the reader takes the frame at the front, whatever follows; `LeavesAll` : it leaves the stream as it is;
* `readMany_eq_iff` : frames are read back in order exactly when all are good, where a bad frame makes its reader fail;
* `readMany_waits` : with readers that take a frame, and stop at the end of the stream, and readers that wait between
  them, the frames come in order and the rest begins with a frame.
-/

namespace NetworkFileShare

/-- What is read from the front of the stream, and the rest. -/
abbrev Reader (β α : Type*) := List β → Option α × List β

variable {ι α β : Type*}

/-- Readers on one stream, one after the other. -/
def readMany : List (Reader β α) → List β → List (Option α) × List β
  | [], stream => ([], stream)
  | read :: readers, stream =>
    ((read stream).1 :: (readMany readers (read stream).2).1, (readMany readers (read stream).2).2)

/-- The reader takes the frame, which says `value`. -/
def Takes (read : Reader β α) (frame : List β) (value : α) : Prop := ∀ rest, read (frame ++ rest) = (some value, rest)

/-- The reader leaves the stream as it is. -/
def LeavesAll (read : Reader β α) : Prop := ∀ stream, read stream = (none, stream)

/-- **All frames are read back exactly when all are good**: the reader of a good frame takes it, that of a bad one
fails. -/
theorem readMany_eq_iff {read : ι → Reader β α} {frame : ι → List β} {value : ι → α} {Good : ι → Prop} {is : List ι}
    (hgood : ∀ i ∈ is, Good i → Takes (read i) (frame i) (value i))
    (hbad : ∀ i ∈ is, ¬ Good i → ∀ rest, (read i (frame i ++ rest)).1 = none) :
    (readMany (is.map read) (is.flatMap frame)).1 = is.map (fun i => some (value i)) ↔ ∀ i ∈ is, Good i := by
  induction is with
  | nil => simp [readMany]
  | cons i is ih =>
    have hrest := ih (fun j hj => hgood j (List.mem_cons_of_mem _ hj)) fun j hj => hbad j (List.mem_cons_of_mem _ hj)
    rw [List.map_cons, List.map_cons, List.flatMap_cons, readMany, List.cons.injEq, List.forall_mem_cons, ← hrest]
    by_cases hi : Good i
    · rw [hgood i List.mem_cons_self hi]
      simp [hi]
    · rw [hbad i List.mem_cons_self hi]
      simp [hi]

/-- **Readers that wait do no harm**: as many frames are read as readers take one, in order, and the rest begins with
the next. -/
theorem readMany_waits {κ : Type*} {read : κ → Reader β α} {takes : κ → Bool} {rs : List κ} {frame : ι → List β}
    {value : ι → α} (hwaits : ∀ r ∈ rs, takes r = false → LeavesAll (read r))
    (htakes : ∀ r ∈ rs, takes r = true → ∀ i, Takes (read r) (frame i) (value i))
    (hend : ∀ r ∈ rs, read r [] = (none, [])) (is : List ι) :
    (readMany (rs.map read) (is.flatMap frame)).1.reduceOption = (is.take (rs.countP takes)).map value ∧
      (readMany (rs.map read) (is.flatMap frame)).2 = (is.drop (rs.countP takes)).flatMap frame := by
  induction rs generalizing is with
  | nil => simp [readMany]
  | cons r rs ih =>
    have hrest := ih (fun q hq => hwaits q (List.mem_cons_of_mem _ hq))
      (fun q hq => htakes q (List.mem_cons_of_mem _ hq)) fun q hq => hend q (List.mem_cons_of_mem _ hq)
    rw [List.map_cons]
    cases hr : takes r with
    | false =>
      rw [readMany, hwaits r List.mem_cons_self hr, List.reduceOption_cons_of_none,
        List.countP_cons_of_neg (by simp [hr])]
      exact hrest is
    | true =>
      rw [List.countP_cons_of_pos hr]
      rcases is with _ | ⟨i, is⟩
      · rw [List.flatMap_nil, readMany, hend r List.mem_cons_self, List.reduceOption_cons_of_none]
        simpa using hrest []
      · rw [List.flatMap_cons, readMany, htakes r List.mem_cons_self hr i, List.reduceOption_cons_of_some,
          List.take_succ_cons, List.drop_succ_cons, List.map_cons]
        exact ⟨congrArg _ (hrest is).1, (hrest is).2⟩

end NetworkFileShare
