import Mathlib.Data.List.Chain
import Mathlib.Logic.Function.Basic
import Mathlib.Tactic.Common

/-!
# Doubly linked lists between two sentinels

The links are two functions on the nodes, and an update of a link is `Function.update`.

* `Linked` : the nodes of a list are linked in both directions from the first sentinel to the last;
* `Linked.erase`, `Linked.push` : a node is taken out, and one is put behind the first sentinel;
* `Walks` : the nodes that are met when one link is followed; `Linked.walks_next`, `Linked.walks_prev`.
-/

namespace NetworkFileShare

variable {α : Type*} {next prev next' prev' : α → α} {first last a p n : α} {nodes xs ys l : List α}

/-- The nodes point at each other. -/
def Joined (next prev : α → α) (a b : α) : Prop := next a = b ∧ prev b = a

/-- The links lead from `first` over the nodes to `last`, and back. -/
structure Linked (next prev : α → α) (first last : α) (nodes : List α) : Prop where
  chain : (first :: (nodes ++ [last])).IsChain (Joined next prev)
  nodup : (first :: (nodes ++ [last])).Nodup

/-- Only the links that are followed matter. -/
theorem joined_congr (hnext : ∀ x ∈ l.dropLast, next' x = next x) (hprev : ∀ x ∈ l.tail, prev' x = prev x)
    (h : l.IsChain (Joined next prev)) : l.IsChain (Joined next' prev') := by
  induction l with
  | nil => exact .nil
  | cons x l ih =>
    cases l with
    | nil => exact .singleton x
    | cons y l =>
      obtain ⟨⟨hxy, hyx⟩, hrest⟩ := List.isChain_cons_cons.mp h
      rw [List.dropLast_cons_cons] at hnext
      refine List.isChain_cons_cons.mpr ⟨⟨?_, ?_⟩, ih (fun z hz => ?_) (fun z hz => ?_) hrest⟩
      · rw [hnext x List.mem_cons_self, hxy]
      · rw [hprev y List.mem_cons_self, hyx]
      · exact hnext z (List.mem_cons_of_mem x hz)
      · exact hprev z (List.mem_cons_of_mem y hz)

section
variable [DecidableEq α]

/-- The neighbours of a node are joined. -/
theorem joined_erase (hchain : (xs ++ p :: a :: n :: ys).IsChain (Joined next prev))
    (hnodup : (xs ++ p :: a :: n :: ys).Nodup) :
    (xs ++ p :: n :: ys).IsChain (Joined (Function.update next p n) (Function.update prev n p)) := by
  obtain ⟨hleft, -, hright⟩ := List.isChain_append_cons_cons.mp hchain
  obtain ⟨-, hright⟩ := List.isChain_cons_cons.mp hright
  simp only [List.nodup_append, List.nodup_cons, List.mem_cons, not_or] at hnodup
  obtain ⟨-, ⟨⟨hpa, hpn, hpys⟩, ⟨han, -⟩, hnys, -⟩, hxs⟩ := hnodup
  refine List.isChain_append_cons_cons.mpr ⟨joined_congr ?_ ?_ hleft, ⟨?_, ?_⟩, joined_congr ?_ ?_ hright⟩
  · intro x hx
    rw [List.dropLast_concat] at hx
    exact Function.update_of_ne (hxs x hx p (Or.inl rfl)) _ _
  · intro x hx
    refine Function.update_of_ne ?_ _ _
    rcases List.mem_append.mp (List.mem_of_mem_tail hx) with hx | hx
    · exact hxs x hx n (Or.inr (Or.inr (Or.inl rfl)))
    · rw [List.mem_singleton.mp hx]
      exact hpn
  · exact Function.update_self _ _ _
  · exact Function.update_self _ _ _
  · intro x hx
    refine Function.update_of_ne ?_ _ _
    rcases List.mem_cons.mp (List.dropLast_subset _ hx) with rfl | hx
    · exact fun he => hpn he.symm
    · rintro rfl
      exact hpys hx
  · intro x hx
    refine Function.update_of_ne ?_ _ _
    rintro rfl
    exact hnys hx

namespace Linked

omit [DecidableEq α] in
/-- Nothing is between the sentinels. -/
theorem nil (hnext : next first = last) (hprev : prev last = first) (hne : first ≠ last) :
    Linked next prev first last [] where
  chain := List.isChain_pair.mpr ⟨hnext, hprev⟩
  nodup := by simpa using hne

/-- **A node is taken out**: its neighbours are joined. -/
theorem erase (h : Linked next prev first last (xs ++ a :: ys)) :
    Linked (Function.update next (prev a) (next a)) (Function.update prev (next a) (prev a)) first last
      (xs ++ ys) := by
  obtain ⟨hchain, hnodup⟩ := h
  obtain ⟨ps, p, hleft⟩ : ∃ ps p, first :: xs = ps ++ [p] :=
    ⟨_, _, (List.dropLast_append_getLast (List.cons_ne_nil first xs)).symm⟩
  obtain ⟨n, ns, hright⟩ : ∃ n ns, ys ++ [last] = n :: ns := by
    cases ys with
    | nil => exact ⟨last, [], rfl⟩
    | cons y ys => exact ⟨y, ys ++ [last], rfl⟩
  have hcells : first :: ((xs ++ a :: ys) ++ [last]) = ps ++ p :: a :: n :: ns := by
    rw [List.append_assoc, List.cons_append, hright, ← List.cons_append, hleft, List.append_assoc]
    rfl
  have hcells' : first :: ((xs ++ ys) ++ [last]) = ps ++ p :: n :: ns := by
    rw [List.append_assoc, hright, ← List.cons_append, hleft, List.append_assoc]
    rfl
  rw [hcells] at hchain hnodup
  obtain ⟨-, hpa, hafter⟩ := List.isChain_append_cons_cons.mp hchain
  obtain ⟨hna, -⟩ := List.isChain_cons_cons.mp hafter
  refine ⟨?_, ?_⟩
  · rw [hcells', hpa.2, hna.1]
    exact joined_erase hchain hnodup
  · rw [hcells']
    refine hnodup.sublist (List.Sublist.append_left ?_ ps)
    exact (List.sublist_cons_self a _).cons_cons p

/-- **A node is put behind the first sentinel.** -/
theorem push (h : Linked next prev first last nodes) (hfirst : a ≠ first) (hlast : a ≠ last) (hnew : a ∉ nodes) :
    Linked (Function.update (Function.update next a (next first)) first a)
      (Function.update (Function.update prev a first) (next first) a) first last (a :: nodes) := by
  obtain ⟨hchain, hnodup⟩ := h
  obtain ⟨n, ns, hright⟩ : ∃ n ns, nodes ++ [last] = n :: ns := by
    cases nodes with
    | nil => exact ⟨last, [], rfl⟩
    | cons y ys => exact ⟨y, ys ++ [last], rfl⟩
  have hout : a ∉ n :: ns := by
    rw [← hright]
    simpa [hnew] using hlast
  have hcells : first :: ((a :: nodes) ++ [last]) = first :: a :: n :: ns := by rw [List.cons_append, hright]
  rw [hright] at hchain hnodup
  obtain ⟨⟨hn, -⟩, hrest⟩ := List.isChain_cons_cons.mp hchain
  obtain ⟨hnotin, hnodup'⟩ := List.nodup_cons.mp hnodup
  have han : a ≠ n := fun he => hout (he ▸ List.mem_cons_self)
  refine ⟨?_, ?_⟩
  · rw [hcells, hn]
    refine List.isChain_cons_cons.mpr ⟨⟨?_, ?_⟩, List.isChain_cons_cons.mpr ⟨⟨?_, ?_⟩, joined_congr ?_ ?_ hrest⟩⟩
    · exact Function.update_self _ _ _
    · rw [Function.update_of_ne han, Function.update_self]
    · rw [Function.update_of_ne hfirst, Function.update_self]
    · exact Function.update_self _ _ _
    · intro x hx
      have hx := List.dropLast_subset _ hx
      have hxa : x ≠ a := fun he => hout (he ▸ hx)
      have hxfirst : x ≠ first := fun he => hnotin (he ▸ hx)
      rw [Function.update_of_ne hxfirst, Function.update_of_ne hxa]
    · intro x hx
      have hx : x ∈ ns := hx
      have hxa : x ≠ a := fun he => hout (he ▸ List.mem_cons_of_mem n hx)
      have hxn : x ≠ n := fun he => (List.nodup_cons.mp hnodup').1 (he ▸ hx)
      rw [Function.update_of_ne hxn, Function.update_of_ne hxa]
  · rw [hcells]
    simp only [List.nodup_cons, List.mem_cons, not_or] at hnodup hout ⊢
    exact ⟨⟨hfirst.symm, hnodup.1⟩, hout, hnodup.2⟩

end Linked

end

/-! ## Walks -/

/-- When `link` is followed from `a`, these nodes are met before `b`. -/
def Walks (link : α → α) : α → List α → α → Prop
  | a, [], b => link a = b
  | a, x :: xs, b => link a = x ∧ x ≠ b ∧ Walks link x xs b

theorem walks_of_chain {link : α → α} {b : α} (h : (a :: (nodes ++ [b])).IsChain fun x y => link x = y)
    (hb : b ∉ nodes) : Walks link a nodes b := by
  induction nodes generalizing a with
  | nil => exact (List.isChain_cons_cons.mp h).1
  | cons x nodes ih =>
    obtain ⟨hx, hrest⟩ := List.isChain_cons_cons.mp h
    obtain ⟨hne, hnodes⟩ := not_or.mp (List.mem_cons.not.mp hb)
    exact ⟨hx, Ne.symm hne, ih hrest hnodes⟩

namespace Linked

theorem last_notMem (h : Linked next prev first last nodes) : last ∉ nodes := by
  intro hmem
  exact (List.nodup_append.mp (List.nodup_cons.mp h.nodup).2).2.2 last hmem last (List.mem_singleton_self last) rfl

theorem first_notMem (h : Linked next prev first last nodes) : first ∉ nodes := fun hmem =>
  (List.nodup_cons.mp h.nodup).1 (List.mem_append_left _ hmem)

theorem walks_next (h : Linked next prev first last nodes) : Walks next first nodes last :=
  walks_of_chain (h.chain.imp fun _ _ hjoined => hjoined.1) h.last_notMem

theorem walks_prev (h : Linked next prev first last nodes) : Walks prev last nodes.reverse first := by
  refine walks_of_chain ?_ fun hmem => h.first_notMem (List.mem_reverse.mp hmem)
  have hreverse : last :: (nodes.reverse ++ [first]) = (first :: (nodes ++ [last])).reverse := by simp
  rw [hreverse, List.isChain_reverse]
  exact h.chain.imp fun _ _ hjoined => hjoined.2

end Linked

end NetworkFileShare
