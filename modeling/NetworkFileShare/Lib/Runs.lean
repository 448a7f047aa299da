import Mathlib.Data.List.SplitBy
import Mathlib.Data.List.Induction

/-!
# Maximal runs of a list

The pieces of `l.splitBy r` are the longest stretches of `l` whose neighbours are all related.

* `splitBy_snoc_new`, `splitBy_snoc_join` : one more element starts a piece or goes on with the last one;
* `exists_run_of_infix` : a stretch of related neighbours lies within one piece.
-/

namespace NetworkFileShare.Runs

variable {α : Type*} {r : α → α → Bool} {l m : List α} {a b : α}

/-- What the last piece ends in is the end of the list. -/
theorem getLast?_of_splitBy {ps : List (List α)} {p : List α} (h : l.splitBy r = ps ++ [p]) :
    l.getLast? = p.getLast? := by
  have hp : p ≠ [] := List.ne_nil_of_mem_splitBy (r := r) (l := l) (by rw [h]; simp)
  rw [← List.flatten_splitBy r l, h, List.flatten_append, List.flatten_singleton, List.getLast?_append_of_ne_nil _ hp]

theorem splitBy_snoc_new (h : ∀ b ∈ l.getLast?, r b a = false) : (l ++ [a]).splitBy r = l.splitBy r ++ [[a]] :=
  List.splitBy_append_cons [] h

theorem splitBy_snoc_join (hb : b ∈ l.getLast?) (h : r b a = true) :
    ∃ ps p, l.splitBy r = ps ++ [p] ∧ (l ++ [a]).splitBy r = ps ++ [p ++ [a]] := by
  have hl : l ≠ [] := by
    rintro rfl
    cases hb
  obtain ⟨ps, p, hps⟩ : ∃ ps p, l.splitBy r = ps ++ [p] :=
    ⟨_, _, (List.dropLast_append_getLast (List.splitBy_ne_nil.mpr hl)).symm⟩
  refine ⟨ps, p, hps, ?_⟩
  obtain ⟨hflat, hnil, hchain, hends⟩ := List.splitBy_eq_iff.mp hps
  have hlast : p.getLast? = some b := (getLast?_of_splitBy hps).symm.trans hb
  apply List.splitBy_eq_iff.mpr
  refine ⟨?_, ?_, ?_, ?_⟩
  · rw [hflat]
    simp
  · simp only [List.mem_append, List.mem_singleton] at hnil ⊢
    rintro (hmem | hmem)
    · exact hnil (Or.inl hmem)
    · exact absurd hmem.symm (by simp)
  · intro q hq
    rcases List.mem_append.mp hq with hq | hq
    · exact hchain q (List.mem_append_left _ hq)
    · rw [List.mem_singleton.mp hq, List.isChain_append]
      refine ⟨hchain p (by simp), .singleton a, fun x hx y hy => ?_⟩
      obtain rfl := Option.some.inj (hx.symm.trans hlast)
      obtain rfl := Option.some.inj hy
      exact h
  · -- the pieces before `p` see the same first element
    rw [List.isChain_append] at hends ⊢
    refine ⟨hends.1, .singleton _, fun x hx y hy => ?_⟩
    obtain ⟨hne, hp, hrel⟩ := hends.2.2 x hx p rfl
    obtain rfl := Option.some.inj hy
    refine ⟨hne, by simp, ?_⟩
    rw [List.head_append_of_ne_nil hp]
    exact hrel

theorem exists_infix_of_chain {L : List (List α)} (hnil : [] ∉ L)
    (hends : L.IsChain fun p q => ∃ hp hq, r (p.getLast hp) (q.head hq) = false)
    (hm : m ≠ []) (hchain : m.IsChain fun x y => r x y) (h : m <:+: L.flatten) : ∃ p ∈ L, m <:+: p := by
  induction L with
  | nil => exact absurd (List.infix_nil.mp h) hm
  | cons p L ih =>
    have hrest := ih (fun hmem => hnil (List.mem_cons_of_mem p hmem)) hends.of_cons
    rw [List.flatten_cons] at h
    rcases List.infix_append_iff_ne_nil.mp h with hin | hin | ⟨x, y, hx, hy, rfl, hsuffix, hstart⟩
    · exact ⟨p, List.mem_cons_self, hin⟩
    · obtain ⟨q, hq, hmq⟩ := hrest hin
      exact ⟨q, List.mem_cons_of_mem p hq, hmq⟩
    · -- a stretch that runs across the end of `p` would relate two pieces
      rcases L with _ | ⟨q, L⟩
      · exact absurd (List.prefix_nil.mp hstart) hy
      · obtain ⟨hp, hq, hrel⟩ := (List.isChain_cons_cons.mp hends).1
        have hlast : x.getLast hx = p.getLast hp := by
          obtain ⟨z, rfl⟩ := hsuffix
          exact (List.getLast_append_of_ne_nil _ hx).symm
        have hhead : y.head hy = q.head hq := by
          obtain ⟨z, hz⟩ := hstart
          have hheads := congrArg List.head? hz
          rw [List.flatten_cons, List.head?_append_of_ne_nil _ hy, List.head?_append_of_ne_nil _ hq,
            List.head?_eq_some_head hy, List.head?_eq_some_head hq] at hheads
          exact Option.some.inj hheads
        have hjoin := (List.isChain_append.mp hchain).2.2 _ (List.getLast?_eq_some_getLast hx) _
          (List.head?_eq_some_head hy)
        rw [hlast, hhead, hrel] at hjoin
        cases hjoin

/-- **A stretch of related neighbours lies within one piece.** -/
theorem exists_run_of_infix (hm : m ≠ []) (hchain : m.IsChain fun x y => r x y) (h : m <:+: l) :
    ∃ p ∈ l.splitBy r, m <:+: p :=
  exists_infix_of_chain (List.nil_notMem_splitBy r l) (List.isChain_getLast_head_splitBy r l) hm hchain
    (by rwa [List.flatten_splitBy])

end NetworkFileShare.Runs
