import NetworkFileShare.Lib.Loop
import NetworkFileShare.Lib.Memory
import Mathlib.Data.List.DropRight

/-!
# Trimming a string (`common.c`: `trim_whitespace`)

* `trimWhitespace` : the loops on the caller's memory; `trim` : the string without the blanks around it;
* `run_skipRound`, `run_strlenRound`, `run_backRound` : where the loops end;
* `trimWhitespace_blank`, `trimWhitespace_cut` : a string of blanks stays, any other loses the blanks at its end;
  `trimWhitespace_spec` : both in one, with `afterTrim` as what is left;
* `trim_iff` : the caller sees the trimmed string if and only if no blank is in front.
-/

namespace NetworkFileShare
open Loop

/-- Space, tab, line feed and carriage return. -/
def isWhitespace (b : UInt8) : Bool := b = 32 || b = 9 || b = 10 || b = 13

/-! ## The code -/

/-- A round of the loop that skips the blanks in front. -/
def skipRound (m : Memory) (str : Nat) : Round Nat Nat :=
  if isWhitespace (m str) then .again (str + 1) else .done str

/-- A round of `strlen`. -/
def strlenRound (m : Memory) (str n : Nat) : Round Nat Nat := if m (str + n) = 0 then .done n else .again (n + 1)

/-- A round of the loop that goes back over the blanks at the end. -/
def backRound (m : Memory) (str last : Nat) : Round Nat Nat :=
  if last > str ∧ isWhitespace (m last) then .again (last - 1) else .done last

/-- `trim_whitespace`: the memory afterwards; `none` when a loop is still going round. -/
def trimWhitespace (fuel : Nat) (m : Memory) (str : Nat) : Option Memory := do
  let str ← run (skipRound m) fuel str
  if m str = 0 then return m
  let len ← run (strlenRound m str) fuel 0
  let last ← run (backRound m str) fuel (str + len - 1)
  return Function.update m (last + 1) 0

/-! ## What it is for -/

def isBlankChar (c : CChar) : Bool := isWhitespace c.val

/-- The string without its runs of blanks in front and at the end. -/
def trim (s : CStr) : CStr := (s.dropWhile isBlankChar).rdropWhile isBlankChar

/-! ## The loops -/

section Loops
variable {m : Memory} {p fuel : Nat} {s : CStr}

/-- The first loop stops behind the blanks in front. -/
theorem run_skipRound : ∀ {p : Nat} {s : CStr} {fuel : Nat}, StringAt m p s → s.length < fuel →
    run (skipRound m) fuel p = some (p + (s.takeWhile isBlankChar).length)
  | p, [], fuel + 1, h, _ => by
    have hzero : isWhitespace (m p) = false := by rw [stringAt_nil.mp h]; decide
    exact run_done (by rw [skipRound, hzero]; rfl) fuel
  | p, c :: s, fuel + 1, h, hfuel => by
    obtain ⟨hc, hs⟩ := stringAt_cons.mp h
    rw [List.length_cons] at hfuel
    by_cases hblank : isBlankChar c = true
    · have hround : skipRound m p = .again (p + 1) := by rw [skipRound, hc]; exact if_pos hblank
      rw [run_again hround, run_skipRound hs (by omega), List.takeWhile_cons_of_pos hblank, List.length_cons]
      congr 1
      omega
    · have hround : skipRound m p = .done p := by rw [skipRound, hc]; exact if_neg hblank
      rw [run_done hround, List.takeWhile_cons_of_neg hblank]
      rfl

/-- `strlen` from a byte of the string on. -/
theorem run_strlenRound : ∀ {s : CStr} {n fuel : Nat}, StringAt m (p + n) s → s.length < fuel →
    run (strlenRound m p) fuel n = some (n + s.length)
  | [], n, fuel + 1, h, _ => by
    have hround : strlenRound m p n = .done n := if_pos (stringAt_nil.mp h)
    exact run_done hround fuel
  | c :: s, n, fuel + 1, h, hfuel => by
    obtain ⟨hc, hs⟩ := stringAt_cons.mp h
    rw [List.length_cons] at hfuel ⊢
    have hround : strlenRound m p n = .again (n + 1) := if_neg (by rw [hc]; exact c.2)
    rw [run_again hround, run_strlenRound (by rwa [← Nat.add_assoc]) (by omega)]
    congr 1
    omega

/-- The last loop stops at the last byte that is no blank; there is one. -/
theorem run_backRound {c : CChar} (hc : isBlankChar c = false) (h : BytesAt m p ((c :: s).map Subtype.val))
    (hfuel : s.length < fuel) : run (backRound m p) fuel (p + s.length) =
      some (p + ((c :: s).rdropWhile isBlankChar).length - 1) := by
  induction s using List.reverseRecOn generalizing fuel with
  | nil =>
    obtain ⟨k, rfl⟩ : ∃ k, fuel = k + 1 := ⟨fuel - 1, by simp at hfuel; omega⟩
    have hself : [c].rdropWhile isBlankChar = [c] := List.rdropWhile_concat_neg _ [] c (by simp [hc])
    have hround : backRound m p p = .done p := if_neg fun hboth => absurd hboth.1 (Nat.lt_irrefl p)
    rw [hself]
    exact run_done hround k
  | append_singleton s d ih =>
    obtain ⟨k, rfl⟩ : ∃ k, fuel = k + 1 := ⟨fuel - 1, by simp at hfuel; omega⟩
    rw [← List.cons_append, List.map_append, BytesAt.append_iff, List.length_map] at h
    have hd : m (p + (s ++ [d]).length) = d.val := by
      rw [← h.2.1, List.length_append, List.length_singleton, List.length_cons]
    have hlt : p + (s ++ [d]).length > p := by rw [List.length_append, List.length_singleton]; omega
    rw [List.length_append, List.length_singleton] at hfuel
    rw [← List.cons_append]
    by_cases hblank : isBlankChar d = true
    · have hround : backRound m p (p + (s ++ [d]).length) = .again (p + s.length) := by
        rw [backRound, hd, if_pos ⟨hlt, hblank⟩, List.length_append, List.length_singleton]
        rfl
      rw [run_again hround, ih h.1 (by omega), List.rdropWhile_concat_pos _ _ _ hblank]
    · have hround : backRound m p (p + (s ++ [d]).length) = .done (p + (s ++ [d]).length) := by
        rw [backRound, hd, if_neg fun hboth => hblank hboth.2]
      rw [run_done hround, List.rdropWhile_concat_neg _ _ _ hblank, List.cons_append, List.length_cons]
      congr 1

end Loops

/-! ## What the caller sees -/

/-- The string afterwards: unchanged when it is all blank, else without the blanks at its end. -/
def afterTrim (s : CStr) : CStr :=
  if s.dropWhile isBlankChar = [] then s
  else s.takeWhile isBlankChar ++ (s.dropWhile isBlankChar).rdropWhile isBlankChar

section
variable {m : Memory} {p fuel : Nat} {s : CStr}

/-- A string of blanks is left as it is. -/
theorem trimWhitespace_blank (h : StringAt m p s) (hblank : s.dropWhile isBlankChar = []) (hfuel : s.length < fuel) :
    trimWhitespace fuel m p = some m := by
  have hcut : s.takeWhile isBlankChar ++ [] = s := hblank ▸ List.takeWhile_append_dropWhile
  have hstop : StringAt m (p + (s.takeWhile isBlankChar).length) [] := StringAt.drop (hcut.symm ▸ h)
  rw [trimWhitespace, run_skipRound h hfuel, Option.bind_eq_bind, Option.bind_some, if_pos (stringAt_nil.mp hstop)]
  rfl

/-- In any other string, the terminator goes behind the last byte that is no blank. -/
theorem trimWhitespace_cut {front rest : CStr} {c : CChar} (h : StringAt m p (front ++ c :: rest))
    (hfront : (front ++ c :: rest).takeWhile isBlankChar = front) (hc : isBlankChar c = false)
    (hfuel : (front ++ c :: rest).length < fuel) : trimWhitespace fuel m p =
      some (Function.update m (p + (front ++ (c :: rest).rdropWhile isBlankChar).length) 0) := by
  have hskip : run (skipRound m) fuel p = some (p + front.length) := by rw [run_skipRound h hfuel, hfront]
  have hstop : StringAt m (p + front.length) (c :: rest) := h.drop
  rw [List.length_append, List.length_cons] at hfuel
  have hnonzero : m (p + front.length) ≠ 0 := by
    rw [(stringAt_cons.mp hstop).1]
    exact c.2
  have hstrlen : run (strlenRound m (p + front.length)) fuel 0 = some (0 + (c :: rest).length) :=
    run_strlenRound hstop (by rw [List.length_cons]; omega)
  have hback : run (backRound m (p + front.length)) fuel (p + front.length + rest.length) =
      some (p + front.length + ((c :: rest).rdropWhile isBlankChar).length - 1) :=
    run_backRound hc (BytesAt.append_iff.mp hstop).1 (by omega)
  have hpos : 0 < ((c :: rest).rdropWhile isBlankChar).length := by
    refine List.length_pos_iff.mpr fun hnil => ?_
    rw [List.rdropWhile_eq_nil_iff] at hnil
    exact absurd (hnil c List.mem_cons_self) (by rw [hc]; exact Bool.false_ne_true)
  have hstart : p + front.length + (0 + (c :: rest).length) - 1 = p + front.length + rest.length := by
    rw [List.length_cons]
    omega
  have hlast : p + front.length + ((c :: rest).rdropWhile isBlankChar).length - 1 + 1 =
      p + (front ++ (c :: rest).rdropWhile isBlankChar).length := by
    rw [List.length_append]
    omega
  simp only [trimWhitespace, hskip, hstrlen, hstart, hback, hlast, Option.bind_eq_bind, Option.bind_some,
    if_neg hnonzero]
  rfl

/-- **`trim_whitespace` returns**, and leaves the string without the blanks at its end. -/
theorem trimWhitespace_spec (h : StringAt m p s) : ∃ m', StringAt m' p (afterTrim s) ∧
    ∀ fuel, s.length < fuel → trimWhitespace fuel m p = some m' := by
  have hcut : s.takeWhile isBlankChar ++ s.dropWhile isBlankChar = s := List.takeWhile_append_dropWhile
  have hhead := List.head?_dropWhile_not isBlankChar s
  unfold afterTrim
  cases hrest : s.dropWhile isBlankChar with
  | nil => exact ⟨m, h, fun fuel hfuel => trimWhitespace_blank h hrest hfuel⟩
  | cons c t =>
    rw [hrest] at hcut hhead
    obtain ⟨tail, htail⟩ := List.rdropWhile_prefix isBlankChar (c :: t)
    generalize hfront : s.takeWhile isBlankChar = front at hcut
    subst hcut
    refine ⟨_, ?_, fun fuel hfuel => trimWhitespace_cut h hfront hhead hfuel⟩
    rw [← htail, ← List.append_assoc] at h
    exact h.cut

/-- What is left is the trimmed string if and only if no blank is in front. -/
theorem afterTrim_eq_trim_iff : afterTrim s = trim s ↔ ∀ c ∈ s.head?, isBlankChar c = false := by
  unfold afterTrim trim
  have hfront : s.takeWhile isBlankChar = [] ↔ ∀ c ∈ s.head?, isBlankChar c = false := by
    cases s with
    | nil => simp
    | cons c s => simp [List.takeWhile_cons]
  rw [← hfront]
  split
  · rename_i hblank
    have hall : s.takeWhile isBlankChar = s := by
      have hcut := List.takeWhile_append_dropWhile (p := isBlankChar) (l := s)
      rwa [hblank, List.append_nil] at hcut
    rw [hblank, hall, List.rdropWhile_nil]
  · exact List.append_left_eq_self

/-- **The caller sees the trimmed string if and only if no blank is in front.** -/
theorem trim_iff (h : StringAt m p s) : ∃ m', (∀ fuel, s.length < fuel → trimWhitespace fuel m p = some m') ∧
    (StringAt m' p (trim s) ↔ ∀ c ∈ s.head?, isBlankChar c = false) := by
  obtain ⟨m', hafter, hrun⟩ := trimWhitespace_spec h
  refine ⟨m', hrun, ?_⟩
  rw [← afterTrim_eq_trim_iff]
  constructor
  · exact hafter.unique
  · intro he
    rwa [← he]

end

/-- The line `alice`, with its newline. -/
def aliceLine : Memory := memoryOf (lit "alice\n" |>.map Subtype.val)

theorem trim_iff_alice : ∃ m', (∀ fuel, 6 < fuel → trimWhitespace fuel aliceLine 0 = some m') ∧
    (StringAt m' 0 (lit "alice") ↔ ∀ c ∈ (lit "alice\n").head?, isBlankChar c = false) :=
  trim_iff (s := lit "alice\n") (by decide)

/-- **Blanks in front stay, and a line of blanks stays whole.** -/
theorem leading_blank_stays :
    (∃ m', trimWhitespace 9 (memoryOf ((lit " alice\n").map Subtype.val)) 0 = some m' ∧
      StringAt m' 0 (lit " alice") ∧ trim (lit " alice\n") = lit "alice" ∧ ¬ StringAt m' 0 (lit "alice")) ∧
    ∃ m', trimWhitespace 9 (memoryOf ((lit "\n").map Subtype.val)) 0 = some m' ∧
      StringAt m' 0 (lit "\n") ∧ trim (lit "\n") = [] ∧ ¬ StringAt m' 0 [] := by
  refine ⟨⟨_, rfl, ?_, ?_, ?_⟩, ⟨_, rfl, ?_, ?_, ?_⟩⟩ <;> decide

end NetworkFileShare
