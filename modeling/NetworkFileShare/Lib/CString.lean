import Mathlib.Data.List.TakeWhile
import Mathlib.Data.Nat.Digits.Lemmas
import Mathlib.Tactic.Common

/-!
# C strings

* `CChar` : a byte of a C string (any byte but NUL); `CStr` : a string up to its terminator;
* `CArray n` : what a `char a[n]` terminated inside the array holds;
  `CArray.strncpy k s` : `strncpy(a, s, k)` into a zeroed array with `k < n`;
* `printInt` : `%d`; `atoi` : `(int) strtol(s, NULL, 10)` with its saturation and truncation; `strtoul`;
  `atoi_printInt` : reading back a printed `int` gives it again.
-/

namespace NetworkFileShare

/-- A byte of a C string. -/
abbrev CChar := {b : UInt8 // b ≠ 0}

/-- A C string up to its terminator. -/
abbrev CStr := List CChar

/-- The byte `b` (not NUL) as a string byte. -/
abbrev byte (b : UInt8) (h : b ≠ 0 := by decide) : CChar := ⟨b, h⟩

/-- The bytes of an ASCII literal. -/
def lit (s : String) : CStr :=
  s.toList.filterMap fun c => if h : c.toNat.toUInt8 ≠ 0 then some ⟨c.toNat.toUInt8, h⟩ else none

/-- The contents of a `char a[n]` that is terminated inside the array. -/
structure CArray (n : Nat) where
  str : CStr
  fits : str.length < n
  deriving DecidableEq

namespace CArray

@[ext] theorem ext' {n : Nat} {a b : CArray n} (h : a.str = b.str) : a = b := by
  cases a; cases b; cases h; rfl

/-- The zeroed array. -/
def empty (n : Nat) [h : Fact (0 < n)] : CArray n := ⟨[], h.out⟩

/-- `strncpy(a, s, k)` into a zeroed array. -/
def strncpy {n : Nat} (k : Nat) (s : CStr) [h : Fact (k < n)] : CArray n :=
  ⟨s.take k, lt_of_le_of_lt (List.length_take_le k s) h.out⟩

@[simp] theorem str_empty {n : Nat} [Fact (0 < n)] : (empty n).str = [] := rfl

@[simp] theorem str_strncpy {n k : Nat} (s : CStr) [Fact (k < n)] :
    (strncpy k s : CArray n).str = s.take k := rfl

end CArray

/-! ## Decimal numbers -/

/-- `isspace` in the C locale. -/
def isspace (c : CChar) : Bool := c.val = 32 || (9 ≤ c.val && c.val ≤ 13)

def isdigit (c : CChar) : Bool := 48 ≤ c.val && c.val ≤ 57

/-- The digit `d < 10`. -/
def digitChar (d : Nat) : CChar :=
  if h : (48 + d).toUInt8 ≠ 0 then ⟨(48 + d).toUInt8, h⟩ else byte 48

/-- A natural number in decimal. -/
def printNat (n : Nat) : CStr :=
  if n = 0 then [digitChar 0] else (Nat.digits 10 n).reverse.map digitChar

/-- The byte `-`. -/
def dash : CChar := byte 45

/-- The byte `/`. -/
def slash : CChar := byte 47

/-- `%d`. -/
def printInt (i : Int) : CStr :=
  if i < 0 then dash :: printNat i.natAbs else printNat i.natAbs

/-- The value of a run of digits. -/
def readDigits (s : CStr) : Nat := s.foldl (fun n c => n * 10 + (c.val.toNat - 48)) 0

/-- The sign `strtol` reads and what follows it. -/
def readSign : CStr → Bool × CStr
  | [] => (false, [])
  | c :: s => if c.val = 45 then (true, s) else if c.val = 43 then (false, s) else (false, c :: s)

/-- `strtol(s, NULL, 10)` on a 64-bit `long`. -/
def strtol (s : CStr) : Int :=
  let signed := readSign (s.dropWhile isspace)
  let n : Int := readDigits (signed.2.takeWhile isdigit)
  max (-2 ^ 63) (min (2 ^ 63 - 1) (if signed.1 then -n else n))

/-- `strtoul(s, NULL, 10)` on a 64-bit `unsigned long`: a negative number counts from `2 ^ 64`. -/
def strtoul (s : CStr) : Nat :=
  let signed := readSign (s.dropWhile isspace)
  let n := readDigits (signed.2.takeWhile isdigit)
  if n < 2 ^ 64 then (if signed.1 then (2 ^ 64 - n) % 2 ^ 64 else n) else 2 ^ 64 - 1

/-- `atoi`. -/
def atoi (s : CStr) : Int32 := Int32.ofInt (strtol s)

theorem val_digitChar {d : Nat} (hd : d < 10) : (digitChar d).val.toNat = 48 + d := by
  revert d; decide

theorem isdigit_digitChar {d : Nat} (hd : d < 10) : isdigit (digitChar d) = true := by
  revert d; decide

theorem readDigits_snoc (s : CStr) (c : CChar) :
    readDigits (s ++ [c]) = readDigits s * 10 + (c.val.toNat - 48) := by
  simp [readDigits, List.foldl_append]

theorem readDigits_map_digitChar (ds : List Nat) (h : ∀ d ∈ ds, d < 10) :
    readDigits (ds.reverse.map digitChar) = Nat.ofDigits 10 ds := by
  induction ds with
  | nil => rfl
  | cons d ds ih =>
    rw [List.reverse_cons, List.map_append, List.map_singleton, readDigits_snoc,
      ih (fun d hd => h d (List.mem_cons_of_mem _ hd)), val_digitChar (h d List.mem_cons_self),
      Nat.ofDigits_cons]
    omega

theorem readDigits_printNat (n : Nat) : readDigits (printNat n) = n := by
  unfold printNat
  split
  · subst n; rfl
  · rw [readDigits_map_digitChar _ (fun d hd => Nat.digits_lt_base (by decide) hd), Nat.ofDigits_digits]

theorem isdigit_of_mem_printNat {n : Nat} {c : CChar} (h : c ∈ printNat n) : isdigit c = true := by
  unfold printNat at h
  split at h
  · rw [List.mem_singleton.mp h]; decide
  · obtain ⟨d, hd, rfl⟩ := List.mem_map.mp h
    exact isdigit_digitChar (Nat.digits_lt_base (by decide) (List.mem_reverse.mp hd))

theorem printNat_ne_nil (n : Nat) : printNat n ≠ [] := by
  unfold printNat
  split
  · simp
  · rename_i hn
    simpa [Nat.digits_ne_nil_iff_ne_zero] using hn

theorem takeWhile_printNat (n : Nat) : (printNat n).takeWhile isdigit = printNat n :=
  List.takeWhile_eq_self_iff.mpr fun _ h => isdigit_of_mem_printNat h

/-- A digit is neither a blank nor a sign. -/
theorem val_of_isdigit {c : CChar} (h : isdigit c = true) : 48 ≤ c.val.toNat ∧ c.val.toNat ≤ 57 := by
  simp only [isdigit, Bool.and_eq_true, decide_eq_true_eq, UInt8.le_iff_toNat_le] at h
  exact h

theorem not_isspace_of_isdigit {c : CChar} (h : isdigit c = true) : isspace c = false := by
  have hv := val_of_isdigit h
  have h32 : c.val ≠ 32 := fun he => by rw [he] at hv; exact absurd hv (by decide)
  have h13 : ¬ c.val ≤ 13 := fun he => by
    have := UInt8.le_iff_toNat_le.mp he
    have h0 : (13 : UInt8).toNat = 13 := rfl
    omega
  simp [isspace, h32, h13]

theorem dropWhile_isspace_printNat (n : Nat) : (printNat n).dropWhile isspace = printNat n := by
  obtain ⟨c, s, hcs⟩ := List.exists_cons_of_ne_nil (printNat_ne_nil n)
  have hd : isdigit c = true := isdigit_of_mem_printNat (n := n) (by rw [hcs]; exact List.mem_cons_self)
  rw [hcs, List.dropWhile_cons, not_isspace_of_isdigit hd]
  simp

theorem readSign_printNat (n : Nat) : readSign (printNat n) = (false, printNat n) := by
  obtain ⟨c, s, hcs⟩ := List.exists_cons_of_ne_nil (printNat_ne_nil n)
  have hv := val_of_isdigit (isdigit_of_mem_printNat (n := n) (by rw [hcs]; exact List.mem_cons_self) :
    isdigit c = true)
  have h45 : c.val ≠ 45 := fun he => by rw [he] at hv; exact absurd hv (by decide)
  have h43 : c.val ≠ 43 := fun he => by rw [he] at hv; exact absurd hv (by decide)
  simp [hcs, readSign, h45, h43]

theorem strtol_printInt {i : Int} (h1 : -2 ^ 63 ≤ i) (h2 : i < 2 ^ 63) : strtol (printInt i) = i := by
  have hminus : isspace dash = false := by decide
  have hval : dash.val = 45 := rfl
  unfold strtol printInt
  by_cases hi : i < 0
  · simp only [if_pos hi, List.dropWhile_cons, hminus, hval, Bool.false_eq_true, if_false, readSign, if_true,
      takeWhile_printNat, readDigits_printNat]
    omega
  · simp only [if_neg hi, dropWhile_isspace_printNat, readSign_printNat, takeWhile_printNat,
      readDigits_printNat, Bool.false_eq_true, if_false]
    omega

/-- **Reading back a printed `int` gives it again.** -/
theorem atoi_printInt (i : Int32) : atoi (printInt i.toInt) = i := by
  have h1 := i.le_toInt
  have h2 := i.toInt_lt
  rw [atoi, strtol_printInt (by omega) (by omega), Int32.ofInt_toInt]

theorem printInt_ne_nil (i : Int) : printInt i ≠ [] := by
  unfold printInt
  split
  · simp
  · exact printNat_ne_nil _

/-- A printed number holds digits and a minus sign only. -/
theorem mem_printInt {i : Int} {c : CChar} (h : c ∈ printInt i) : c = dash ∨ isdigit c = true := by
  unfold printInt at h
  split at h
  · rcases List.mem_cons.mp h with h | h
    · exact Or.inl h
    · exact Or.inr (isdigit_of_mem_printNat h)
  · exact Or.inr (isdigit_of_mem_printNat h)

theorem length_printNat_le {n k : Nat} (hk : 0 < k) (h : n < 10 ^ k) : (printNat n).length ≤ k := by
  unfold printNat
  split
  · exact hk
  · rw [List.length_map, List.length_reverse]
    exact (Nat.digits_length_le_iff (by decide) n).mpr h

theorem length_printInt_le (i : Int32) : (printInt i.toInt).length ≤ 11 := by
  have h1 := i.le_toInt
  have h2 := i.toInt_lt
  have h : (printNat i.toInt.natAbs).length ≤ 10 := length_printNat_le (by decide) (by omega)
  unfold printInt
  split
  · rw [List.length_cons]; omega
  · omega

end NetworkFileShare
