import Mathlib.Data.List.Basic
import Mathlib.Data.List.DropRight
import Mathlib.Data.List.GetD
import Mathlib.Data.List.Induction
import Mathlib.Tactic.Common

/-!
# Cutting a list after its delimiters

* `closed p l` : the pieces of `l` that end in a delimiter; `rest p l` : what follows the last one;
* `closed_append`, `rest_append` : the cut of two lists put together;
* `segments p l` : the pieces with the rest, when there is one;
* `IsBlock` : a list that ends in its only delimiter; `closed_flatten`, `exists_first`, `rest_insert`;
* `closed_filter`, `rest_filter`, `getD_segments_filter` : cutting commutes with dropping elements that are no
  delimiters;
* `segments_block`, `segments_open`, `map_filter_segments_gap` : how segments are met from the front.
-/

namespace NetworkFileShare.Segment

variable {α : Type*} (p : α → Bool)

/-- One more element: a delimiter closes the piece. -/
def push (st : List (List α) × List α) (a : α) : List (List α) × List α :=
  if p a then (st.1 ++ [st.2 ++ [a]], []) else (st.1, st.2 ++ [a])

/-- The pieces of `l` that end in a delimiter. -/
def closed (l : List α) : List (List α) := (l.foldl (push p) ([], [])).1

/-- What follows the last delimiter of `l`. -/
def rest (l : List α) : List α := (l.foldl (push p) ([], [])).2

/-- The pieces of `l`, with what follows the last delimiter if there is something. -/
def segments (l : List α) : List (List α) :=
  if rest p l = [] then closed p l else closed p l ++ [rest p l]

variable {p}

@[simp] theorem closed_nil : closed p [] = [] := rfl

@[simp] theorem rest_nil : rest p [] = [] := rfl

@[simp] theorem segments_nil : segments p [] = [] := rfl

theorem closed_snoc (l : List α) (a : α) :
    closed p (l ++ [a]) = if p a then closed p l ++ [rest p l ++ [a]] else closed p l := by
  simp only [closed, rest, List.foldl_append, List.foldl_cons, List.foldl_nil, push]
  split <;> rfl

theorem rest_snoc (l : List α) (a : α) :
    rest p (l ++ [a]) = if p a then [] else rest p l ++ [a] := by
  simp only [rest, List.foldl_append, List.foldl_cons, List.foldl_nil, push]
  split <;> rfl

theorem forall_mem_snoc {q : α → Prop} {l : List α} {a : α} (h : ∀ b ∈ l, q b) (ha : q a) : ∀ b ∈ l ++ [a], q b :=
  List.forall_mem_append.mpr ⟨h, List.forall_mem_singleton.mpr ha⟩

/-- The pieces and the rest make up the list. -/
theorem flatten_closed (l : List α) : (closed p l).flatten ++ rest p l = l := by
  induction l using List.reverseRecOn with
  | nil => rfl
  | append_singleton l a ih =>
    rw [closed_snoc, rest_snoc]
    split
    · rw [List.flatten_append, List.append_nil, List.flatten_singleton, ← List.append_assoc, ih]
    · rw [← List.append_assoc, ih]

theorem flatten_segments (l : List α) : (segments p l).flatten = l := by
  have h := flatten_closed (p := p) l
  unfold segments
  split
  · rename_i hr
    rwa [hr, List.append_nil] at h
  · rwa [List.flatten_append, List.flatten_singleton]

theorem not_delim_of_mem_rest {l : List α} {a : α} (h : a ∈ rest p l) : p a = false := by
  induction l using List.reverseRecOn with
  | nil => cases h
  | append_singleton l b ih =>
    rw [rest_snoc] at h
    split at h
    · cases h
    · rename_i hb
      rcases List.mem_append.mp h with h | h
      · exact ih h
      · rw [List.mem_singleton.mp h]
        exact Bool.not_eq_true _ ▸ hb

/-- A piece is some elements that are no delimiters, and one that is. -/
theorem exists_of_mem_closed {l s : List α} (h : s ∈ closed p l) :
    ∃ b d, s = b ++ [d] ∧ p d = true ∧ ∀ a ∈ b, p a = false := by
  induction l using List.reverseRecOn with
  | nil => cases h
  | append_singleton l b ih =>
    rw [closed_snoc] at h
    split at h
    · rename_i hb
      rcases List.mem_append.mp h with h | h
      · exact ih h
      · exact ⟨rest p l, b, List.mem_singleton.mp h, hb, fun a ha => not_delim_of_mem_rest ha⟩
    · exact ih h

/-! ## Two lists together -/

theorem rest_append (l l' : List α) :
    rest p (l ++ l') = if closed p l' = [] then rest p l ++ rest p l' else rest p l' := by
  induction l' using List.reverseRecOn with
  | nil => simp
  | append_singleton l' a ih =>
    rw [← List.append_assoc, rest_snoc, rest_snoc, closed_snoc, ih]
    by_cases ha : p a = true
    · simp [ha]
    · simp only [ha]
      by_cases hc : closed p l' = [] <;> simp [hc]

/-- The first piece of the second list is joined to the rest of the first. -/
theorem closed_append (l l' : List α) :
    closed p (l ++ l') = closed p l ++
      match closed p l' with
      | [] => []
      | s :: ss => (rest p l ++ s) :: ss := by
  induction l' using List.reverseRecOn with
  | nil => simp
  | append_singleton l' a ih =>
    rw [← List.append_assoc, closed_snoc, closed_snoc, ih, rest_append]
    by_cases ha : p a = true
    · cases hc : closed p l' <;> simp [ha]
    · simp [ha]

theorem closed_append_of_rest {l : List α} (h : rest p l = []) (l' : List α) :
    closed p (l ++ l') = closed p l ++ closed p l' := by
  rw [closed_append, h]
  cases closed p l' <;> simp

theorem rest_append_of_rest {l : List α} (h : rest p l = []) (l' : List α) :
    rest p (l ++ l') = rest p l' := by
  rw [rest_append, h]
  split <;> simp

theorem segments_append_of_rest {l : List α} (h : rest p l = []) (l' : List α) :
    segments p (l ++ l') = closed p l ++ segments p l' := by
  unfold segments
  rw [closed_append_of_rest h, rest_append_of_rest h]
  split <;> simp

theorem length_closed_append (l l' : List α) :
    (closed p (l ++ l')).length = (closed p l).length + (closed p l').length := by
  rw [closed_append, List.length_append]
  cases closed p l' <;> simp

theorem closed_eq_nil {l : List α} (h : ∀ a ∈ l, p a = false) : closed p l = [] := by
  induction l using List.reverseRecOn with
  | nil => rfl
  | append_singleton l a ih =>
    rw [closed_snoc, if_neg (by simp [h a (by simp)]), ih fun b hb => h b (by simp [hb])]

theorem rest_eq_self {l : List α} (h : ∀ a ∈ l, p a = false) : rest p l = l := by
  have hl := flatten_closed (p := p) l
  rwa [closed_eq_nil h] at hl

/-- A block that ends in its only delimiter is one piece. -/
theorem closed_block {b : List α} {d : α} (hb : ∀ a ∈ b, p a = false) (hd : p d = true) :
    closed p (b ++ [d]) = [b ++ [d]] := by
  rw [closed_snoc, if_pos hd, closed_eq_nil hb, rest_eq_self hb, List.nil_append]

theorem rest_block {b : List α} {d : α} (hd : p d = true) : rest p (b ++ [d]) = [] := by
  rw [rest_snoc, if_pos hd]

/-- Whether something follows the last delimiter can be seen from the last element. -/
theorem rest_eq_nil_iff {l : List α} : rest p l = [] ↔ ∀ a ∈ l.getLast?, p a = true := by
  induction l using List.reverseRecOn with
  | nil => simp
  | append_singleton l a _ =>
    rw [rest_snoc]
    by_cases ha : p a = true <;> simp [ha]

/-- There are as many closed pieces as delimiters. -/
theorem length_closed (l : List α) : (closed p l).length = l.countP p := by
  induction l using List.reverseRecOn with
  | nil => rfl
  | append_singleton l a ih =>
    rw [closed_snoc, List.countP_append, ← ih]
    by_cases ha : p a = true <;> simp [ha]

/-- The rest is the longest end of the list without a delimiter. -/
theorem rest_eq_rtakeWhile (l : List α) : rest p l = l.rtakeWhile fun a => !p a := by
  induction l using List.reverseRecOn with
  | nil => rfl
  | append_singleton l a ih =>
    rw [rest_snoc, List.rtakeWhile_concat, ih]
    by_cases ha : p a = true <;> simp [ha]

/-! ## Blocks -/

variable (p) in
/-- A list that ends in its only delimiter. -/
def IsBlock (s : List α) : Prop := ∃ b d, s = b ++ [d] ∧ p d = true ∧ ∀ a ∈ b, p a = false

theorem IsBlock.rest_eq_nil {s : List α} (h : IsBlock p s) : rest p s = [] := by
  obtain ⟨b, d, rfl, hd, -⟩ := h
  exact rest_block hd

theorem IsBlock.closed_eq {s : List α} (h : IsBlock p s) : closed p s = [s] := by
  obtain ⟨b, d, rfl, hd, hb⟩ := h
  exact closed_block hb hd

/-- Blocks put together are cut into the blocks. -/
theorem closed_flatten {L : List (List α)} (h : ∀ s ∈ L, IsBlock p s) :
    closed p L.flatten = L ∧ rest p L.flatten = [] := by
  induction L with
  | nil => exact ⟨rfl, rfl⟩
  | cons s L ih =>
    have hs := h s List.mem_cons_self
    obtain ⟨ih1, ih2⟩ := ih fun t ht => h t (List.mem_cons_of_mem _ ht)
    rw [List.flatten_cons, closed_append_of_rest hs.rest_eq_nil, rest_append_of_rest hs.rest_eq_nil,
      hs.closed_eq, ih1, ih2]
    exact ⟨rfl, rfl⟩

/-- The first piece, and what follows it. -/
theorem exists_first {l s : List α} {ss : List (List α)} (h : closed p l = s :: ss) :
    IsBlock p s ∧ ∃ r, l = s ++ r ∧ closed p r = ss ∧ rest p r = rest p l := by
  have hblock : ∀ t ∈ s :: ss, IsBlock p t := fun t ht => exists_of_mem_closed (h ▸ ht)
  have hl := flatten_closed (p := p) l
  rw [h, List.flatten_cons, List.append_assoc] at hl
  obtain ⟨hclosed, hrest⟩ := closed_flatten fun t ht => hblock t (List.mem_cons_of_mem _ ht)
  have hplain : ∀ a ∈ rest p l, p a = false := fun a ha => not_delim_of_mem_rest ha
  refine ⟨hblock s List.mem_cons_self, ss.flatten ++ rest p l, hl.symm, ?_, ?_⟩
  · rw [closed_append_of_rest hrest, hclosed, closed_eq_nil hplain, List.append_nil]
  · rw [rest_append_of_rest hrest, rest_eq_self hplain]

/-- Elements put into a block before `r`: only behind its delimiter, and before no other, they leave a rest. -/
theorem rest_insert {s₁ s₂ : List α} (h : IsBlock p (s₁ ++ s₂)) (x r : List α) :
    rest p (s₁ ++ x ++ s₂ ++ r) = if s₂ = [] ∧ closed p r = [] then rest p x ++ rest p r else rest p r := by
  by_cases hs : s₂ = []
  · subst hs
    rw [List.append_nil] at h
    rw [List.append_nil, List.append_assoc, rest_append_of_rest h.rest_eq_nil, rest_append]
    simp
  · rw [if_neg fun hc => hs hc.1]
    obtain ⟨b, d, hbd, hd, -⟩ := h
    refine rest_append_of_rest (rest_eq_nil_iff.mpr fun a ha => ?_) r
    have hlast : (s₁ ++ x ++ s₂).getLast? = some d := by
      rw [List.getLast?_append_of_ne_nil _ hs, ← List.getLast?_append_of_ne_nil s₁ hs, hbd]
      simp
    rw [hlast] at ha
    obtain rfl := Option.some.inj ha
    exact hd

/-! ## Segments from the front -/

theorem segments_block {b : List α} {d : α} (hb : ∀ a ∈ b, p a = false) (hd : p d = true)
    (l : List α) : segments p (b ++ [d] ++ l) = (b ++ [d]) :: segments p l := by
  rw [segments_append_of_rest (rest_block hd), closed_block hb hd]
  rfl

theorem segments_open {b : List α} (hb : ∀ a ∈ b, p a = false) (hne : b ≠ []) : segments p b = [b] := by
  rw [segments, rest_eq_self hb, if_neg hne, closed_eq_nil hb, List.nil_append]

/-! ## Dropping elements that are no delimiters -/

/-- An empty list at the end makes no difference to a look-up. -/
theorem getD_append_nil (L : List (List α)) (i : Nat) : (L ++ [[]]).getD i [] = L.getD i [] := by
  rcases Nat.lt_or_ge i L.length with hi | hi
  · exact List.getD_append _ _ _ _ hi
  · rw [List.getD_append_right _ _ _ _ hi, List.getD_eq_default _ _ hi]
    cases i - L.length <;> rfl

section Filter
variable {f : α → Bool} (hf : ∀ a, p a = true → f a = true)
include hf

theorem closed_filter_and_rest (l : List α) :
    closed p (l.filter f) = (closed p l).map (·.filter f) ∧ rest p (l.filter f) = (rest p l).filter f := by
  induction l using List.reverseRecOn with
  | nil => exact ⟨rfl, rfl⟩
  | append_singleton l a ih =>
    rw [List.filter_append, closed_snoc, rest_snoc]
    by_cases ha : p a = true
    · simp [ha, hf a ha, closed_snoc, rest_snoc, ih.1, ih.2]
    · by_cases hfa : f a = true
      · simp [ha, hfa, closed_snoc, rest_snoc, ih.1, ih.2]
      · simp [ha, hfa, ih.1, ih.2]

theorem closed_filter (l : List α) : closed p (l.filter f) = (closed p l).map (·.filter f) :=
  (closed_filter_and_rest hf l).1

theorem rest_filter (l : List α) : rest p (l.filter f) = (rest p l).filter f :=
  (closed_filter_and_rest hf l).2

/-- A gap of dropped elements before a list changes none of its segments otherwise. -/
theorem map_filter_segments_gap {g l : List α} (hg : ∀ a ∈ g, f a = false) (hl : l ≠ []) :
    (segments p (g ++ l)).map (·.filter f) = (segments p l).map (·.filter f) := by
  have hgp : ∀ a ∈ g, p a = false := fun a ha => by
    by_contra hne
    have := hf a (by simpa using hne)
    rw [hg a ha] at this
    cases this
  have hgf : g.filter f = [] := List.filter_eq_nil_iff.mpr fun a ha => by simp [hg a ha]
  unfold segments
  rw [closed_append, rest_append, closed_eq_nil hgp, rest_eq_self hgp, List.nil_append]
  cases hc : closed p l with
  | nil =>
    have hr : rest p l = l := by
      have := flatten_closed (p := p) l
      rwa [hc] at this
    simp [hr, hl, hgf]
  | cons s ss =>
    by_cases hr : rest p l = [] <;> simp [hr, hgf]

/-- A segment loses its dropped elements; one that consists of them may be lost as a whole. -/
theorem getD_segments_filter (l : List α) (i : Nat) :
    (segments p (l.filter f)).getD i [] = ((segments p l).getD i []).filter f := by
  rw [← List.getD_map _ _ fun s : List α => s.filter f]
  unfold segments
  rw [closed_filter hf, rest_filter hf]
  by_cases hr : rest p l = []
  · rw [hr, List.filter_nil, if_pos rfl, if_pos rfl]
  · rw [if_neg hr, List.map_append, List.map_singleton]
    split
    · rename_i hnil
      rw [hnil]
      exact (getD_append_nil _ i).symm
    · rfl

end Filter

end NetworkFileShare.Segment
