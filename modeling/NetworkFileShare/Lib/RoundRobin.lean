import Mathlib.Tactic.Common
import Mathlib.Tactic.NormNum
import Mathlib.Algebra.Order.Group.Int
import Mathlib.Algebra.Order.Ring.Int

/-!
# Round robin with a counter that wraps

The slot is the remainder in C of a signed 32-bit counter by the number of slots.

* `tmod_nonneg_iff` : when the remainder is an index;
* `WindowOk` : it is one for each of the next values of the counter, as many as there are slots;
* `window_residues` : every slot has its turn then.
-/

namespace NetworkFileShare


/-- The remainder of C is negative only for negative numbers that are no multiples. -/
theorem tmod_nonneg_iff {c : Int} {n : Nat} : 0 ≤ c.tmod n ↔ 0 ≤ c ∨ (n : Int) ∣ c := by
  constructor
  · intro h
    refine or_iff_not_imp_left.mpr fun hneg => Int.dvd_of_tmod_eq_zero (le_antisymm ?_ h)
    have hpos := Int.tmod_nonneg (n : Int) (neg_nonneg.mpr (le_of_lt (not_le.mp hneg)))
    rw [Int.neg_tmod] at hpos
    exact neg_nonneg.mp hpos
  · rintro (hpos | hdvd)
    · exact Int.tmod_nonneg _ hpos
    · exact (Int.tmod_eq_zero_of_dvd hdvd).ge

theorem toInt_add_ofNat (c : Int32) {j : Nat} (hj : j < 2 ^ 31) :
    (c.toInt + j < 2 ^ 31 ∧ (c + Int32.ofNat j).toInt = c.toInt + j) ∨
      (2 ^ 31 ≤ c.toInt + j ∧ (c + Int32.ofNat j).toInt = c.toInt + j - 2 ^ 32) := by
  have hlow := c.le_toInt
  have hhigh := c.toInt_lt
  rw [Int32.toInt_add, Int32.toInt_ofNat_of_lt hj, Int.bmod_def]
  omega

variable {c : Int32} {n : Nat}

/-- No value of the counter in the window gives a negative index. -/
def WindowOk (c : Int32) (n : Nat) : Prop :=
  ∀ j < n, 0 ≤ (c + Int32.ofNat j).toInt ∨ (n : Int) ∣ (c + Int32.ofNat j).toInt

instance (c : Int32) (n : Nat) : Decidable (WindowOk c n) := inferInstanceAs (Decidable (∀ j < n, _ ∨ _))

/-- Neighbours have no common divisor. -/
theorem not_dvd_next {x : Int} (hn : 2 ≤ n) (h : (n : Int) ∣ x) : ¬ (n : Int) ∣ x + 1 := by
  intro hnext
  have hone : (n : Int) ∣ 1 := by simpa using Int.dvd_sub hnext h
  have hle := Int.le_of_dvd (by decide) hone
  omega

/-- The remainders in such a window are those that the counter would have without wrapping: it wraps with the last
value only, and then to a multiple. -/
theorem window_tmod (hn : 2 ≤ n) (hsmall : n ≤ 2 ^ 31) (h : WindowOk c n) {j : Nat} (hj : j < n) :
    (c + Int32.ofNat j).toInt.tmod n = (c.toInt + j) % n := by
  have hhigh := c.toInt_lt
  have hfirst : 0 ≤ c.toInt := by
    by_contra hneg
    have hzero := toInt_add_ofNat c (j := 0) (by decide)
    have hone := toInt_add_ofNat c (j := 1) (by decide)
    have hdvd : (n : Int) ∣ c.toInt := by
      have := h 0 (by omega)
      rcases this with h0 | h0
      · omega
      · rwa [show (c + Int32.ofNat 0).toInt = c.toInt by omega] at h0
    have hnext : (n : Int) ∣ c.toInt + 1 := by
      rcases h 1 (by omega) with h1 | h1
      · rw [show c.toInt + 1 = 0 by omega]
        exact dvd_zero _
      · rwa [show (c + Int32.ofNat 1).toInt = c.toInt + 1 by omega] at h1
    exact not_dvd_next hn hdvd hnext
  rcases toInt_add_ofNat c (j := j) (by omega) with ⟨hlt, heq⟩ | ⟨hge, heq⟩
  · rw [heq, Int.tmod_eq_emod_of_nonneg (by omega)]
  · have hdvd : (n : Int) ∣ c.toInt + j - 2 ^ 32 := by
      rcases h j hj with hpos | hdvd
      · omega
      · rwa [heq] at hdvd
    have hwrap : c.toInt + j = 2 ^ 31 := by
      by_contra hne
      have hprev := toInt_add_ofNat c (j := j - 1) (by omega)
      rcases h (j - 1) (by omega) with hpos | hbefore
      · omega
      · rw [show (c + Int32.ofNat (j - 1)).toInt = c.toInt + j - 2 ^ 32 - 1 by omega] at hbefore
        exact not_dvd_next hn hbefore (by rwa [Int.sub_add_cancel])
    rw [heq, Int.tmod_eq_zero_of_dvd hdvd, hwrap]
    rw [hwrap, show (2 : Int) ^ 31 - 2 ^ 32 = -2 ^ 31 by norm_num, Int.dvd_neg] at hdvd
    exact (Int.emod_eq_zero_of_dvd hdvd).symm

/-- **Every index has its turn** in such a window. -/
theorem window_residues (hsmall : n ≤ 2 ^ 31) (h : WindowOk c n) {r : Nat} (hr : r < n) :
    ∃ j < n, (c + Int32.ofNat j).toInt.tmod n = r := by
  rcases Nat.lt_or_ge n 2 with hone | hn
  · obtain rfl : n = 1 := by omega
    obtain rfl : r = 0 := by omega
    exact ⟨0, by decide, Int.tmod_one _⟩
  · have hpos : (0 : Int) < n := by omega
    have hlow := Int.emod_nonneg (r - c.toInt) hpos.ne'
    have hhigh := Int.emod_lt_of_pos (r - c.toInt) hpos
    refine ⟨((r - c.toInt) % n).toNat, by omega, ?_⟩
    rw [window_tmod hn hsmall h (by omega), Int.toNat_of_nonneg hlow, Int.add_emod, Int.emod_emod, ← Int.add_emod,
      add_sub_cancel]
    exact Int.emod_eq_of_lt (by omega) (by omega)

end NetworkFileShare
