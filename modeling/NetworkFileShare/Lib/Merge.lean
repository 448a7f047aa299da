import Mathlib.Data.List.Basic
import Mathlib.Tactic.Common

/-!
# Merging an edited copy of a list back by position

* `merge idx orig main copy` : the element `idx` of a list of `orig` elements was edited in `copy`, and is
  taken to stand in `main` where the difference of the lengths puts it;
* `merge_same`, `merge_end`, `merge_nil` : the list that was copied has not changed; `length_merge` : a copy of
  the old length keeps the length;
* `replaceAll S edits` : `S` with a list in the place of each edited element;
* `merge_replaceAll` : copies of one list merged one after another give the list with every edit in its
  place, when no edit of a later element that is already merged has changed the length.
-/

namespace NetworkFileShare.Merge

variable {α : Type*}

/-- The element `idx` of a list of `orig` elements, edited in `copy`, is put back into `main`. -/
def merge (idx : Int) (orig : Nat) (main copy : List α) : List α :=
  let adjusted : Int := idx + (main.length - orig)
  if main.length = 0 ∧ orig = 0 ∧ adjusted = 0 then copy
  else if adjusted < 0 ∨ adjusted ≥ main.length then main
  else
    main.take adjusted.toNat ++ (copy.drop idx.toNat).take (1 + ((copy.length : Int) - orig)).toNat ++
      main.drop (adjusted.toNat + 1)

/-- A merge looks at positions only. -/
theorem map_merge {β : Type*} (f : α → β) (idx : Int) (orig : Nat) (main copy : List α) :
    (merge idx orig main copy).map f = merge idx orig (main.map f) (copy.map f) := by
  unfold merge
  simp only [List.length_map, List.map_take, List.map_drop, List.map_append, apply_ite (List.map f)]

/-! ## The list has not changed -/

theorem merge_nil (copy : List α) : merge 0 0 [] copy = copy := by
  simp [merge]

/-- An element behind the last one is not put back. -/
theorem merge_end {S : List α} (hS : S ≠ []) (copy : List α) : merge S.length S.length S copy = S := by
  have hpos : S.length ≠ 0 := by simpa using hS
  simp [merge, hpos]

theorem merge_same {S : List α} {i : Nat} (hi : i < S.length) (copy : List α) :
    merge i S.length S copy =
      S.take i ++ (copy.drop i).take (copy.length + 1 - S.length) ++ S.drop (i + 1) := by
  have hadj : (i : Int) + ((S.length : Int) - S.length) = i := by omega
  have hcount : (1 + ((copy.length : Int) - S.length)).toNat = copy.length + 1 - S.length := by omega
  unfold merge
  simp only [hadj, hcount, Int.toNat_natCast]
  rw [if_neg (by omega), if_neg (by omega)]

/-- A copy of the old length leaves the length as it is. -/
theorem length_merge {idx : Int} {orig : Nat} {main copy : List α} (hidx : 0 ≤ idx)
    (h : copy.length = orig) : (merge idx orig main copy).length = main.length := by
  unfold merge
  simp only
  split
  · omega
  · split
    · rfl
    · simp only [List.length_append, List.length_take, List.length_drop]
      omega

/-! ## Several edits -/

/-- What stands for the element `a` at `i` after some edits. -/
def block (edits : List (Nat × List α)) (i : Nat) (a : α) : List α :=
  ((edits.find? (·.1 = i)).map (·.2)).getD [a]

/-- `S` with a list in the place of each edited element. -/
def replaceAll (S : List α) (edits : List (Nat × List α)) : List α := (S.mapIdx (block edits)).flatten

@[simp] theorem block_nil (i : Nat) (a : α) : block [] i a = [a] := rfl

theorem find?_eq_none {edits : List (Nat × List α)} {i : Nat} (h : i ∉ edits.map (·.1)) :
    edits.find? (·.1 = i) = none :=
  List.find?_eq_none.mpr fun e he hi => by
    obtain rfl : e.1 = i := by simpa using hi
    exact h (List.mem_map_of_mem he)

theorem block_of_notMem {edits : List (Nat × List α)} {i : Nat} (h : i ∉ edits.map (·.1)) (a : α) :
    block edits i a = [a] := by
  rw [block, find?_eq_none h]
  rfl

theorem block_snoc_of_ne (edits : List (Nat × List α)) {i j : Nat} (h : j ≠ i) (R : List α) (a : α) :
    block (edits ++ [(i, R)]) j a = block edits j a := by
  have hne : ¬ i = j := Ne.symm h
  simp [block, List.find?_append, hne]

theorem block_snoc_self {edits : List (Nat × List α)} {i : Nat} (h : i ∉ edits.map (·.1)) (R : List α)
    (a : α) : block (edits ++ [(i, R)]) i a = R := by
  simp [block, List.find?_append, find?_eq_none h]

/-- Edits that keep the length leave one element for one. -/
theorem length_block {edits : List (Nat × List α)} {i : Nat} (h : ∀ e ∈ edits, e.1 = i → e.2.length = 1)
    (a : α) : (block edits i a).length = 1 := by
  unfold block
  cases hfind : edits.find? (·.1 = i) with
  | none => rfl
  | some e => exact h e (List.mem_of_find?_eq_some hfind) (by simpa using List.find?_some hfind)

@[simp] theorem replaceAll_nil (S : List α) : replaceAll S [] = S := by
  induction S with
  | nil => rfl
  | cons a S ih =>
    rw [replaceAll, List.mapIdx_cons, List.flatten_cons, block_nil]
    exact congrArg (a :: ·) ih

/-- The edits before an element, those of it, and those behind. -/
theorem replaceAll_eq (S : List α) (edits : List (Nat × List α)) {i : Nat} (hi : i < S.length) :
    replaceAll S edits =
      ((S.take i).mapIdx (block edits)).flatten ++ block edits i S[i] ++
        ((S.drop (i + 1)).mapIdx fun j => block edits (j + (i + 1))).flatten := by
  have hlen : (S.take i).length = i := by simp; omega
  conv_lhs => rw [← List.take_append_drop i S, List.drop_eq_getElem_cons hi]
  rw [replaceAll, List.mapIdx_append, List.flatten_append, List.mapIdx_cons, List.flatten_cons, hlen,
    Nat.zero_add, List.append_assoc]
  congr 4
  funext j
  rw [Nat.add_right_comm, Nat.add_assoc j i 1]

theorem length_flatten_of_length_eq_one {L : List (List α)} (h : ∀ l ∈ L, l.length = 1) :
    L.flatten.length = L.length := by
  have hmap : L.map List.length = List.replicate L.length 1 := by
    refine List.eq_replicate_iff.mpr ⟨List.length_map .., fun n hn => ?_⟩
    obtain ⟨l, hl, rfl⟩ := List.mem_map.mp hn
    exact h l hl
  rw [List.length_flatten, hmap, List.sum_replicate_nat, Nat.mul_one]

theorem replaceAll_snoc {S : List α} {edits : List (Nat × List α)} {i : Nat} (hi : i < S.length)
    (hfresh : i ∉ edits.map (·.1)) (R : List α) :
    replaceAll S (edits ++ [(i, R)]) =
      ((S.take i).mapIdx (block edits)).flatten ++ R ++
        ((S.drop (i + 1)).mapIdx fun j => block edits (j + (i + 1))).flatten := by
  rw [replaceAll_eq S _ hi, block_snoc_self hfresh]
  have hbefore : (S.take i).mapIdx (block (edits ++ [(i, R)])) = (S.take i).mapIdx (block edits) :=
    List.mapIdx_eq_mapIdx_iff.mpr fun j hj => block_snoc_of_ne edits (by simp at hj; omega) R _
  have hbehind : ((S.drop (i + 1)).mapIdx fun j => block (edits ++ [(i, R)]) (j + (i + 1))) =
      (S.drop (i + 1)).mapIdx fun j => block edits (j + (i + 1)) :=
    List.mapIdx_eq_mapIdx_iff.mpr fun j _ => block_snoc_of_ne edits (by omega) R _
  rw [hbefore, hbehind]

/-- **A merge puts its edit in its place**, when the edits behind it have not changed the length. -/
theorem merge_replaceAll {S : List α} {edits : List (Nat × List α)} {i : Nat} {R : List α}
    (hi : i < S.length) (hR : R ≠ []) (hfresh : i ∉ edits.map (·.1))
    (hbehind : ∀ e ∈ edits, i < e.1 → e.2.length = 1) :
    merge i S.length (replaceAll S edits) (S.take i ++ R ++ S.drop (i + 1)) =
      replaceAll S (edits ++ [(i, R)]) := by
  rw [replaceAll_eq S edits hi, replaceAll_snoc hi hfresh, block_of_notMem hfresh]
  generalize hP : ((S.take i).mapIdx (block edits)).flatten = P
  have hQ : (((S.drop (i + 1)).mapIdx fun j => block edits (j + (i + 1))).flatten).length =
      S.length - (i + 1) := by
    rw [length_flatten_of_length_eq_one, List.length_mapIdx, List.length_drop]
    intro l hl
    obtain ⟨j, hj, rfl⟩ := List.mem_mapIdx.mp hl
    exact length_block (fun e he heq => hbehind e he (by omega)) _
  generalize ((S.drop (i + 1)).mapIdx fun j => block edits (j + (i + 1))).flatten = Q at hQ
  have hRpos : 0 < R.length := List.length_pos_iff.mpr hR
  have hadj : (i : Int) + (((P ++ [S[i]] ++ Q).length : Int) - S.length) = P.length := by
    simp only [List.length_append, List.length_singleton]; omega
  have hcount : (1 + (((S.take i ++ R ++ S.drop (i + 1)).length : Int) - S.length)).toNat = R.length := by
    simp only [List.length_append, List.length_take, List.length_drop]; omega
  unfold merge
  simp only [hadj, hcount, Int.toNat_natCast]
  rw [if_neg (by simp), if_neg (by simp only [List.length_append, List.length_singleton]; omega)]
  have hcopy : (S.take i ++ R ++ S.drop (i + 1)).drop i = R ++ S.drop (i + 1) := by
    rw [List.append_assoc, List.drop_left' (by rw [List.length_take]; omega)]
  have hmain : (P ++ [S[i]] ++ Q).drop (P.length + 1) = Q := by
    rw [List.drop_left' (by simp)]
  rw [hcopy, hmain, List.take_left' rfl, List.append_assoc, List.append_assoc, List.take_left' rfl,
    List.append_assoc]

end NetworkFileShare.Merge
