import Mathlib.Data.Nat.Init
import Mathlib.Tactic.Common
import Mathlib.Tactic.Ring

/-!
# While loops and cyclic scans

* `Round` : what one round of a loop does, leave with a result or go round again;
* `run step fuel s` : at most `fuel` rounds from `s`; `Returns step s` : some number of rounds leaves
  the loop;
* `Reaches.invariant`, `exists_done` : the invariant rule, and with a measure the loop leaves; `whileM` : a loop whose
  body is a program on a state;
* `scan n f` : walk the slots `0 .. n - 1` cyclically until `f` answers; `Hit n f h r` : the first
  answer met from `h` is `r`. `run_scan_of_hit`, `hit_of_run_scan` (the loop computes the hit), `returns_scan_iff`
  (it leaves if and only if some slot answers);
* `scanOnce` : the same walk, stopped after one full circle (`run_scanOnce_miss`, `run_scanOnce_hit`).
-/

namespace NetworkFileShare.Loop

/-- One round of a loop over states `σ` with results `ρ`. -/
inductive Round (σ ρ : Type*) where
  | done (r : ρ)
  | again (s : σ)

variable {σ ρ : Type*}

/-- At most `fuel` rounds of the loop from `s`; `none` when it is still going round. -/
def run (step : σ → Round σ ρ) : Nat → σ → Option ρ
  | 0, _ => none
  | fuel + 1, s =>
    match step s with
    | .done r => some r
    | .again s' => run step fuel s'

/-- The loop leaves after some number of rounds. -/
def Returns (step : σ → Round σ ρ) (s : σ) : Prop := ∃ fuel r, run step fuel s = some r

theorem run_done {step : σ → Round σ ρ} {s : σ} {r : ρ} (h : step s = .done r) (fuel : Nat) :
    run step (fuel + 1) s = some r := by
  simp [run, h]

theorem run_again {step : σ → Round σ ρ} {s t : σ} (h : step s = .again t) (fuel : Nat) :
    run step (fuel + 1) s = run step fuel t := by
  simp [run, h]

theorem run_mono {step : σ → Round σ ρ} {n m : Nat} {s : σ} {r : ρ} (h : run step n s = some r)
    (hnm : n ≤ m) : run step m s = some r := by
  induction n generalizing s m with
  | zero => simp [run] at h
  | succ n ih =>
    obtain ⟨m, rfl⟩ : ∃ k, m = k + 1 := ⟨m - 1, by omega⟩
    cases hs : step s with
    | done r' => rw [run_done hs] at h ⊢; exact h
    | again s' => rw [run_again hs] at h ⊢; exact ih h (by omega)

theorem run_det {step : σ → Round σ ρ} {n m : Nat} {s : σ} {r r' : ρ} (h : run step n s = some r)
    (h' : run step m s = some r') : r = r' := by
  have h1 := run_mono h (le_max_left n m)
  have h2 := run_mono h' (le_max_right n m)
  exact Option.some.inj (h1.symm.trans h2)

/-! ## Invariants and measures -/

/-- Some rounds of the loop lead from `s` to `t`. -/
inductive Reaches (step : σ → Round σ ρ) (s : σ) : σ → Prop where
  | refl : Reaches step s s
  | snoc {t u : σ} (before : Reaches step s t) (round : step t = .again u) : Reaches step s u

/-- **The invariant rule.** -/
theorem Reaches.invariant {step : σ → Round σ ρ} {I : σ → Prop} {s t : σ} (h : Reaches step s t) (h0 : I s)
    (hstep : ∀ t u, I t → step t = .again u → I u) : I t := by
  induction h with
  | refl => exact h0
  | snoc _ round ih => exact hstep _ _ ih round

/-- **The measure rule**: a loop whose rounds keep an invariant and lower a measure leaves, from a state with the
invariant. -/
theorem exists_done {step : σ → Round σ ρ} {I : σ → Prop} (μ : σ → Nat)
    (hstep : ∀ t u, I t → step t = .again u → I u ∧ μ u < μ t) {s : σ} (h : I s) :
    ∃ t r, I t ∧ step t = .done r ∧ ∀ fuel, μ s < fuel → run step fuel s = some r := by
  induction hμ : μ s using Nat.strong_induction_on generalizing s with
  | _ n ih =>
    cases hs : step s with
    | done r =>
      refine ⟨s, r, h, hs, fun fuel hfuel => ?_⟩
      obtain ⟨k, rfl⟩ : ∃ k, fuel = k + 1 := ⟨fuel - 1, by omega⟩
      exact run_done hs k
    | again u =>
      obtain ⟨hu, hlt⟩ := hstep s u h hs
      obtain ⟨t, r, ht, hdone, hrun⟩ := ih (μ u) (hμ ▸ hlt) hu rfl
      refine ⟨t, r, ht, hdone, fun fuel hfuel => ?_⟩
      obtain ⟨k, rfl⟩ : ∃ k, fuel = k + 1 := ⟨fuel - 1, by omega⟩
      rw [run_again hs]
      exact hrun k (by omega)

/-! ## Rounds that work on a state -/

section Programs
variable {α β τ : Type}

/-- One round of a loop with a program as its body. -/
def inState (body : α → StateM τ (Round α β)) (s : α × τ) : Round (α × τ) (β × τ) :=
  match body s.1 s.2 with
  | (.done r, t) => .done (r, t)
  | (.again s', t) => .again (s', t)

/-- The loop as a program; `none` when it is still going round. -/
def whileM (body : α → StateM τ (Round α β)) (fuel : Nat) (s : α) : StateT τ Option β := fun t =>
  run (inState body) fuel (s, t)

/-- A program without loops returns. -/
instance liftProgram : MonadLift (StateM τ) (StateT τ Option) := ⟨fun program t => some (program t)⟩

/-- When the loop is left, the program goes on with its result. -/
theorem whileM_bind {γ : Type} {body : α → StateM τ (Round α β)} {fuel : Nat} {s : α} {t t' : τ} {r : β}
    (h : run (inState body) fuel (s, t) = some (r, t')) (k : β → StateT τ Option γ) :
    (whileM body fuel s >>= k) t = k r t' := by
  show (run (inState body) fuel (s, t)).bind (fun x => k x.1 x.2) = k r t'
  rw [h]
  rfl

end Programs

/-! ## Scanning the slots of a table -/

section Scan
variable (n : Nat) (f : Nat → Option ρ)

/-- Go to the next slot, modulo `n`, until `f` answers. -/
def scan (h : Nat) : Round Nat ρ :=
  match f h with
  | some r => .done r
  | none => .again ((h + 1) % n)

/-- The first answer met from slot `h` on is `r`, found `j` slots further. -/
def HitAt (h : Nat) (r : ρ) (j : Nat) : Prop :=
  f ((h + j) % n) = some r ∧ ∀ i < j, f ((h + i) % n) = none

/-- The first answer met from slot `h` on is `r`. -/
def Hit (h : Nat) (r : ρ) : Prop := ∃ j, HitAt n f h r j

variable {n f}

/-- Every slot lies on the walk from any other, less than one circle away. -/
theorem slot_on_walk {h i : Nat} (hi : i < n) : ∃ j < n, (h + j) % n = i := by
  have hn : 0 < n := by omega
  have hlt := Nat.mod_lt h hn
  refine ⟨(i + n - h % n) % n, Nat.mod_lt _ hn, ?_⟩
  rw [Nat.add_mod, Nat.mod_mod, ← Nat.add_mod, ← Nat.mod_add_mod,
    show h % n + (i + n - h % n) = i + n by omega, Nat.add_mod_right, Nat.mod_eq_of_lt hi]

theorem next_slot (h j : Nat) : ((h + 1) % n + j) % n = (h + (j + 1)) % n := by
  rw [Nat.mod_add_mod]; congr 1; ring

theorem run_scan_of_hit {h : Nat} (hh : h < n) {r : ρ} {j : Nat} (hit : HitAt n f h r j) :
    run (scan n f) (j + 1) h = some r := by
  induction j generalizing h with
  | zero =>
    have h0 := hit.1
    rw [Nat.add_zero, Nat.mod_eq_of_lt hh] at h0
    exact run_done (by simp [scan, h0]) 0
  | succ j ih =>
    have h0 := hit.2 0 (by omega)
    rw [Nat.add_zero, Nat.mod_eq_of_lt hh] at h0
    rw [run_again (t := (h + 1) % n) (by simp [scan, h0])]
    refine ih (Nat.mod_lt _ (by omega)) ⟨?_, fun i hi => ?_⟩
    · rw [next_slot]; exact hit.1
    · rw [next_slot]; exact hit.2 (i + 1) (by omega)

theorem hit_of_run_scan {fuel h : Nat} (hh : h < n) {r : ρ} (hr : run (scan n f) fuel h = some r) :
    Hit n f h r := by
  induction fuel generalizing h with
  | zero => simp [run] at hr
  | succ fuel ih =>
    cases hf : f h with
    | some r' =>
      rw [run_done (r := r') (by simp [scan, hf])] at hr
      obtain rfl := Option.some.inj hr
      exact ⟨0, by rwa [Nat.add_zero, Nat.mod_eq_of_lt hh], fun i hi => absurd hi (Nat.not_lt_zero i)⟩
    | none =>
      rw [run_again (t := (h + 1) % n) (by simp [scan, hf])] at hr
      obtain ⟨j, h1, h2⟩ := ih (Nat.mod_lt _ (by omega)) hr
      refine ⟨j + 1, by rwa [next_slot] at h1, fun i hi => ?_⟩
      cases i with
      | zero => rwa [Nat.add_zero, Nat.mod_eq_of_lt hh]
      | succ i => rw [← next_slot]; exact h2 i (by omega)

/-- A slot that answers is met within one circle, at the latest. -/
theorem exists_hit {h i : Nat} {r : ρ} (hi : i < n) (hr : f i = some r) :
    ∃ r' j, j < n ∧ HitAt n f h r' j := by
  classical
  obtain ⟨j, hj, hji⟩ := slot_on_walk (h := h) hi
  have hex : ∃ j, (f ((h + j) % n)).isSome := ⟨j, by simp [hji, hr]⟩
  obtain ⟨r', hr'⟩ := Option.isSome_iff_exists.mp (Nat.find_spec hex)
  have hle : Nat.find hex ≤ j := Nat.find_min' hex (by simp [hji, hr])
  refine ⟨r', Nat.find hex, by omega, hr', fun i hi => ?_⟩
  simpa only [Option.not_isSome_iff_eq_none] using Nat.find_min hex hi

/-- **The scanning loop leaves if and only if some slot answers.** -/
theorem returns_scan_iff {h : Nat} (hh : h < n) :
    Returns (scan n f) h ↔ ∃ i < n, (f i).isSome := by
  constructor
  · rintro ⟨fuel, r, hr⟩
    obtain ⟨j, hj, -⟩ := hit_of_run_scan hh hr
    exact ⟨_, Nat.mod_lt (h + j) (by omega), by rw [hj]; rfl⟩
  · rintro ⟨i, hi, hs⟩
    obtain ⟨r, hr⟩ := Option.isSome_iff_exists.mp hs
    obtain ⟨r', j, -, hit⟩ := exists_hit (h := h) hi hr
    exact ⟨j + 1, r', run_scan_of_hit hh hit⟩

/-- The walk of `scan` from `start`, given up with `miss` when it is back at `start`. -/
def scanOnce (n start : Nat) (miss : ρ) (f : Nat → Option ρ) (h : Nat) : Round Nat ρ :=
  match f h with
  | some r => .done r
  | none => if (h + 1) % n = start then .done miss else .again ((h + 1) % n)

/-- Before the circle is complete, the walk goes on past a slot that does not answer. -/
theorem scanOnce_again {start j : Nat} {miss : ρ} (hs : start < n) (hj : j + 1 < n) (hf : f ((start + j) % n) = none) :
    scanOnce n start miss f ((start + j) % n) = .again ((start + (j + 1)) % n) := by
  have hnext : ((start + j) % n + 1) % n = (start + (j + 1)) % n := by rw [Nat.mod_add_mod]; rfl
  have hne : (start + (j + 1)) % n ≠ start := by
    intro he
    by_cases hlt : start + (j + 1) < n
    · rw [Nat.mod_eq_of_lt hlt] at he; omega
    · rw [Nat.mod_eq_sub_mod (by omega), Nat.mod_eq_of_lt (by omega)] at he; omega
  simp [scanOnce, hf, hnext, hne]

theorem run_scanOnce_from {start : Nat} {miss : ρ} (hs : start < n) :
    ∀ k j, j + k + 1 = n → (∀ i, j ≤ i → i < n → f ((start + i) % n) = none) →
      run (scanOnce n start miss f) (k + 1) ((start + j) % n) = some miss := by
  intro k
  induction k with
  | zero =>
    intro j hj hf
    refine run_done ?_ 0
    have hback : ((start + j) % n + 1) % n = start := by
      rw [Nat.mod_add_mod, show start + j + 1 = start + n by omega, Nat.add_mod_right,
        Nat.mod_eq_of_lt hs]
    simp [scanOnce, hf j le_rfl (by omega), hback]
  | succ k ih =>
    intro j hj hf
    rw [run_again (scanOnce_again hs (by omega) (hf j le_rfl (by omega)))]
    exact ih (j + 1) (by omega) (fun i h1 h2 => hf i (by omega) h2)

/-- No slot answers: the walk comes back to its start and gives up. -/
theorem run_scanOnce_miss {start : Nat} {miss : ρ} (hs : start < n) (hf : ∀ i < n, f i = none) :
    run (scanOnce n start miss f) n start = some miss := by
  have h : run (scanOnce n start miss f) (n - 1 + 1) ((start + 0) % n) = some miss :=
    run_scanOnce_from hs (n - 1) 0 (by omega) (fun i _ _ => hf _ (Nat.mod_lt _ (by omega)))
  rwa [Nat.add_zero start, Nat.mod_eq_of_lt hs, show n - 1 + 1 = n by omega] at h

theorem run_scanOnce_hit_from {start : Nat} {miss r : ρ} (hs : start < n) :
    ∀ k j, j + k < n → f ((start + (j + k)) % n) = some r → (∀ i < j + k, f ((start + i) % n) = none) →
      run (scanOnce n start miss f) (k + 1) ((start + j) % n) = some r := by
  intro k
  induction k with
  | zero =>
    intro j _ hr _
    exact run_done (by simp only [Nat.add_zero] at hr; simp [scanOnce, hr]) 0
  | succ k ih =>
    intro j hj hr hf
    rw [run_again (scanOnce_again hs (by omega) (hf j (by omega)))]
    exact ih (j + 1) (by omega) (by rwa [show j + 1 + k = j + (k + 1) by ring])
      (fun i hi => hf i (by omega))

/-- A slot less than one circle away answers before the walk gives up. -/
theorem run_scanOnce_hit {start j : Nat} {miss r : ρ} (hs : start < n) (hj : j < n)
    (hit : HitAt n f start r j) : run (scanOnce n start miss f) (j + 1) start = some r := by
  have h : run (scanOnce n start miss f) (j + 1) ((start + 0) % n) = some r :=
    run_scanOnce_hit_from hs j 0 (by omega) (by simpa using hit.1) (by simpa using hit.2)
  rwa [Nat.add_zero start, Nat.mod_eq_of_lt hs] at h

/-- **The walk that is given up after one circle** ends with the first answer, or with `miss` when there is
none. -/
theorem run_scanOnce_cases {start fuel : Nat} {miss r : ρ} (hs : start < n)
    (hr : run (scanOnce n start miss f) fuel start = some r) :
    (r = miss ∧ ∀ i < n, f i = none) ∨ Hit n f start r := by
  by_cases hf : ∀ i < n, f i = none
  · exact Or.inl ⟨run_det hr (run_scanOnce_miss hs hf), hf⟩
  · push Not at hf
    obtain ⟨i, hi, hne⟩ := hf
    obtain ⟨r', hr'⟩ := Option.ne_none_iff_exists'.mp hne
    obtain ⟨r'', j, hj, hit⟩ := exists_hit (h := start) hi hr'
    obtain rfl := run_det hr (run_scanOnce_hit hs hj hit)
    exact Or.inr ⟨j, hit⟩

theorem Hit.map {ρ' : Type*} {h : Nat} {r : ρ} (g : ρ → ρ') (hit : Hit n f h r) :
    Hit n (fun i => (f i).map g) h (g r) := by
  obtain ⟨j, hj, hbefore⟩ := hit
  exact ⟨j, by simp [hj], fun i hi => by simp [hbefore i hi]⟩

end Scan

end NetworkFileShare.Loop
