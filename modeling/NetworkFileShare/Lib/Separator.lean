import Mathlib.Data.List.Basic

/-!
# Strings that are joined by a separator

A separator whose first element comes only once in it cannot overlap itself, so that two ways to cut a string at
it differ by a whole piece: `append_sep_cases`.

The pieces between separators of one element do not hold it (`notMem_of_mem_splitOn`) and are parts of the string
(`infix_of_mem_splitOn`), no more than it has elements and one (`length_splitOn_le`); `intercalate_snoc` puts one
piece more behind the others.
-/

namespace NetworkFileShare

variable {α : Type*} {x : α} {t a b c d : List α}

/-- The part between two cuts, the first one being further to the left. -/
theorem append_sep_left (hx : x ∉ t) (h : x :: t ++ b = c ++ (x :: t ++ d)) :
    c = [] ∧ b = d ∨ ∃ e, c = x :: t ++ e ∧ b = e ++ (x :: t) ++ d := by
  rcases List.append_eq_append_iff.mp h with ⟨e, rfl, hb⟩ | ⟨r, hr, hd⟩
  · exact Or.inr ⟨e, rfl, by rw [hb, List.append_assoc]⟩
  · -- the cut falls into the separator: `r` is what of it is left behind the cut
    cases c with
    | nil =>
      rw [List.nil_append] at hr
      rw [← hr] at hd
      exact Or.inl ⟨rfl, (List.append_cancel_left hd).symm⟩
    | cons y c =>
      rw [List.cons_append] at hr
      obtain ⟨rfl, ht⟩ := List.cons.inj hr
      cases r with
      | nil =>
        rw [List.append_nil] at ht
        rw [List.nil_append] at hd
        exact Or.inr ⟨[], by rw [ht, List.append_nil], by rw [← hd, List.nil_append]⟩
      | cons z r =>
        rw [List.cons_append, List.cons_append] at hd
        obtain ⟨rfl, -⟩ := List.cons.inj hd
        exact absurd (by rw [ht]; simp) hx

/-- **Two ways to cut a string at a separator** that does not overlap itself. -/
theorem append_sep_cases (hx : x ∉ t) (h : a ++ (x :: t) ++ b = c ++ (x :: t) ++ d) :
    a = c ∧ b = d ∨ (∃ e, c = a ++ (x :: t) ++ e ∧ b = e ++ (x :: t) ++ d) ∨
      ∃ e, a = c ++ (x :: t) ++ e ∧ d = e ++ (x :: t) ++ b := by
  rw [List.append_assoc, List.append_assoc] at h
  rcases List.append_eq_append_iff.mp h with ⟨e, rfl, he⟩ | ⟨e, rfl, he⟩
  · rcases append_sep_left hx he with ⟨rfl, rfl⟩ | ⟨r, rfl, rfl⟩
    · exact Or.inl ⟨(List.append_nil a).symm, rfl⟩
    · exact Or.inr (Or.inl ⟨r, by rw [List.append_assoc], rfl⟩)
  · rcases append_sep_left hx he with ⟨rfl, rfl⟩ | ⟨r, rfl, rfl⟩
    · exact Or.inl ⟨List.append_nil c, rfl⟩
    · exact Or.inr (Or.inr ⟨r, by rw [List.append_assoc], rfl⟩)

section Pieces
variable {p : List α}

theorem infix_intercalate {ts : List (List α)} (h : p ∈ ts) : p <:+: t.intercalate ts := by
  induction ts with
  | nil => cases h
  | cons u us ih =>
    rcases us with _ | ⟨v, vs⟩
    · obtain rfl := List.mem_singleton.mp h
      exact ⟨[], [], by rw [List.intercalate_singleton, List.nil_append, List.append_nil]⟩
    · rw [List.intercalate_cons_cons]
      rcases List.mem_cons.mp h with rfl | h
      · rw [List.append_assoc]
        exact (List.prefix_append p _).isInfix
      · exact (ih h).trans (List.suffix_append _ _).isInfix

variable [BEq α]

theorem length_splitOn_le (t : List α) : (t.splitOn x).length ≤ t.length + 1 := by
  induction t with
  | nil => exact Nat.le_refl _
  | cons c cs ih =>
    rw [List.splitOn_cons_eq_if_modifyHead]
    split
    · exact Nat.succ_le_succ ih
    · rw [List.length_modifyHead, List.length_cons]
      omega

variable [LawfulBEq α]

theorem infix_of_mem_splitOn (h : p ∈ t.splitOn x) : p <:+: t := by
  have hjoined := infix_intercalate (t := [x]) h
  rwa [List.intercalate_splitOn] at hjoined

theorem notMem_of_mem_splitOn (h : p ∈ t.splitOn x) : x ∉ p := by
  induction t generalizing p with
  | nil =>
    rw [List.splitOn_nil, List.mem_singleton] at h
    rw [h]
    exact List.not_mem_nil
  | cons c cs ih =>
    rw [List.splitOn_cons_eq_if_modifyHead] at h
    split at h
    · rcases List.mem_cons.mp h with rfl | h
      · exact List.not_mem_nil
      · exact ih h
    · rename_i hc
      obtain ⟨q, qs, hsplit⟩ := List.exists_cons_of_ne_nil (List.splitOn_ne_nil x cs)
      rw [hsplit] at ih
      rw [hsplit, List.modifyHead_cons] at h
      rcases List.mem_cons.mp h with rfl | h
      · rw [List.mem_cons, not_or]
        exact ⟨fun he => hc (by rw [← he]; exact BEq.rfl), ih List.mem_cons_self⟩
      · exact ih (List.mem_cons_of_mem q h)

end Pieces

/-- One piece more. -/
theorem intercalate_snoc (sep y : List α) : ∀ l : List (List α),
    sep.intercalate (l ++ [y]) = if l = [] then y else sep.intercalate l ++ sep ++ y
  | [] => List.intercalate_singleton
  | [a] => by
    rw [List.singleton_append, List.intercalate_cons_cons, List.intercalate_singleton, List.intercalate_singleton,
      if_neg (List.cons_ne_nil _ _)]
  | a :: b :: l => by
    have ih := intercalate_snoc sep y (b :: l)
    rw [if_neg (List.cons_ne_nil _ _)] at ih ⊢
    rw [List.cons_append, List.intercalate_cons_of_ne_nil (by simp), ih, List.intercalate_cons_cons]
    simp only [List.append_assoc]

end NetworkFileShare
