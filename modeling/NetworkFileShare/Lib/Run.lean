import Mathlib.Data.List.Induction
import Mathlib.Tactic.Common

/-!
# Runs of a transition system

* `Run step s es t` : the labelled steps `es`, in order, lead from `s` to `t`;
* `Guarded guard step` : the steps whose label the guard admits in the state before;
* `Run.invariant` : what holds at first and is kept by every step holds after every run, with the
  history of the run at hand; `Run.split`, `Run.split_at` : the state, and the step, at a point of the history;
* `Run.beside` : a run beside one that lacks some of its steps;
* `results` : what a sequence of operations answers; `results_eq` : two systems related step by step answer alike;
* `same_position` : entries of a history that exclude each other.
-/

namespace NetworkFileShare

variable {σ ε : Type*}

/-- The labelled steps `es`, in order, lead from `s` to `t`. -/
inductive Run (step : σ → ε → σ → Prop) (s : σ) : List ε → σ → Prop where
  | nil : Run step s [] s
  | snoc {es : List ε} {t u : σ} {e : ε} (run : Run step s es t) (last : step t e u) :
      Run step s (es ++ [e]) u

/-- The steps of `step` that `guard` admits in the state before. -/
def Guarded (guard : σ → ε → Prop) (step : σ → ε → σ → Prop) (s : σ) (e : ε) (t : σ) : Prop :=
  guard s e ∧ step s e t

namespace Run

variable {step : σ → ε → σ → Prop} {s t u : σ} {es es' : List ε}

theorem single {e : ε} (h : step s e t) : Run step s [e] t := nil.snoc h

theorem of_single {e : ε} (h : Run step s [e] t) : step s e t := by
  generalize hl : [e] = l at h
  cases h with
  | nil => cases hl
  | snoc run last =>
    have hcut : [] ++ [e] = _ := hl
    obtain ⟨hnil, he⟩ := List.append_inj' hcut rfl
    obtain rfl := List.singleton_inj.mp he
    cases run with
    | nil => exact last
    | snoc run' last' => simp at hnil

theorem of_nil (h : Run step s [] t) : t = s := by
  generalize hl : [] = l at h
  cases h with
  | nil => rfl
  | snoc run last => simp at hl

theorem append (h : Run step s es t) (h' : Run step t es' u) : Run step s (es ++ es') u := by
  induction h' with
  | nil => simpa using h
  | snoc _ last ih => rw [← List.append_assoc]; exact ih.snoc last

theorem cons {e : ε} (h : step s e t) (h' : Run step t es u) : Run step s (e :: es) u :=
  (single h).append h'

theorem mono {step' : σ → ε → σ → Prop} (hle : ∀ s e t, step s e t → step' s e t)
    (h : Run step s es t) : Run step' s es t := by
  induction h with
  | nil => exact nil
  | snoc _ last ih => exact ih.snoc (hle _ _ _ last)

theorem unguarded {guard : σ → ε → Prop} (h : Run (Guarded guard step) s es t) : Run step s es t :=
  h.mono fun _ _ _ h => h.2

/-- **The invariant rule**, with the history so far. -/
theorem invariant {I : List ε → σ → Prop} (h0 : I [] s)
    (hstep : ∀ es t e u, I es t → step t e u → I (es ++ [e]) u) (h : Run step s es t) : I es t := by
  induction h with
  | nil => exact h0
  | snoc _ last ih => exact hstep _ _ _ _ ih last

/-- The invariant rule for a property of the state. -/
theorem state_invariant {I : σ → Prop} (h0 : I s) (hstep : ∀ t e u, I t → step t e u → I u)
    (h : Run step s es t) : I t :=
  h.invariant (I := fun _ => I) h0 fun _ t e u => hstep t e u

theorem split (h : Run step s (es ++ es') t) : ∃ m, Run step s es m ∧ Run step m es' t := by
  induction es' using List.reverseRecOn generalizing t with
  | nil => exact ⟨t, by simpa using h, nil⟩
  | append_singleton es' e ih =>
    rw [← List.append_assoc] at h
    generalize hl : es ++ es' ++ [e] = l at h
    cases h with
    | nil => simp at hl
    | snoc run last =>
      obtain ⟨h1, h2⟩ := List.append_inj' hl rfl
      obtain ⟨m, hm, hm'⟩ := ih (h1 ▸ run)
      obtain rfl := List.singleton_inj.mp h2
      exact ⟨m, hm, hm'.snoc last⟩

/-- The step that an event of a run made, and the runs before and behind it. -/
theorem split_at {e : ε} (h : Run step s (es ++ e :: es') t) :
    ∃ m m', Run step s es m ∧ step m e m' ∧ Run step m' es' t := by
  rw [List.append_cons] at h
  obtain ⟨m', hbefore, hbehind⟩ := h.split
  obtain ⟨m, hm, hlast⟩ := hbefore.split
  exact ⟨m, m', hm, hlast.of_single, hbehind⟩

/-- **The rule for two runs** of which the second takes only the steps that are shown: a relation that a step of
both keeps, and a hidden step of the first, holds at their ends. -/
theorem beside {τ : Type*} {stepL : σ → ε → σ → Prop} {stepR : τ → ε → τ → Prop} {shown : ε → Bool} {R : σ → τ → Prop}
    {a b : τ} (h : R s a)
    (hshown : ∀ s a e t b, R s a → shown e = true → stepL s e t → stepR a e b → R t b)
    (hhidden : ∀ s a e t, R s a → shown e = false → stepL s e t → R t a)
    (hl : Run stepL s es t) (hr : Run stepR a (es.filter shown) b) : R t b := by
  induction hl generalizing b with
  | nil => exact hr.of_nil ▸ h
  | @snoc es _ _ e _ last ih =>
    rw [List.filter_append] at hr
    obtain ⟨m, hm, hlast⟩ := hr.split
    by_cases he : shown e = true
    · rw [List.filter_cons_of_pos he, List.filter_nil] at hlast
      exact hshown _ _ _ _ _ (ih hm) he last hlast.of_single
    · rw [List.filter_cons_of_neg he, List.filter_nil] at hlast
      exact hhidden _ _ _ _ (hlast.of_nil ▸ ih hm) (Bool.eq_false_iff.mpr he) last

end Run

/-! ## Operations with results -/

section Results

variable {ω ρ τ : Type*}

/-- What the operations answer, one after the other. -/
def results (exec : ω → σ → σ × ρ) : List ω → σ → List ρ
  | [], _ => []
  | op :: ops, s => (exec op s).2 :: results exec ops (exec op s).1

/-- **The simulation rule**: states that stay related and give the same answers. -/
theorem results_eq {exec : ω → σ → σ × ρ} {exec' : ω → τ → τ × ρ} {related : σ → τ → Prop}
    (hstep : ∀ op s t, related s t → related (exec op s).1 (exec' op t).1 ∧ (exec op s).2 = (exec' op t).2)
    (ops : List ω) {s : σ} {t : τ} (h : related s t) : results exec ops s = results exec' ops t := by
  induction ops generalizing s t with
  | nil => rfl
  | cons op ops ih =>
    obtain ⟨hnext, hanswer⟩ := hstep op s t h
    rw [results, results, hanswer, ih hnext]

end Results

/-- Two entries of a history that may not both be in it are one and the same. -/
theorem same_position {R : ε → ε → Prop} {l l' m m' : List ε} {e e' : ε} (h : (l ++ e :: m).Pairwise R)
    (hsplit : l ++ e :: m = l' ++ e' :: m') (hR : ¬ R e e') (hR' : ¬ R e' e) : l = l' ∧ e = e' ∧ m = m' := by
  rcases List.append_eq_append_iff.mp hsplit with ⟨c, rfl, hc⟩ | ⟨c, rfl, hc⟩
  · cases c with
    | nil =>
      obtain ⟨rfl, rfl⟩ := List.cons.inj hc
      exact ⟨(List.append_nil l).symm, rfl, rfl⟩
    | cons d c =>
      obtain ⟨rfl, rfl⟩ := List.cons.inj hc
      have hlater := (List.pairwise_cons.mp (List.pairwise_append.mp h).2.1).1 e' (by simp)
      exact absurd hlater hR
  · cases c with
    | nil =>
      obtain ⟨rfl, rfl⟩ := List.cons.inj hc
      exact ⟨List.append_nil l', rfl, rfl⟩
    | cons d c =>
      obtain ⟨rfl, rfl⟩ := List.cons.inj hc
      have hearlier := (List.pairwise_append.mp h).2.2 e' (by simp) e (by simp)
      exact absurd hearlier hR'

end NetworkFileShare
