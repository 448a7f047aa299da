import NetworkFileShare.Lib.Interleave

/-!
# What holds at every instant of a program

For calls that always return, with an answer and a state that the state before determines.

* `runCalls` : the result and the last state of a program;
* `Passes` : the states that it goes through; it may be stopped in any of them; `stateAfter`, to find one;
* `Throughout I p s` : from `s` on the program goes through states that meet `I` only; `Throughout.bind` and the other
  rules take a program apart; `throughout_of_only` : every call keeps `I`;
* `Returns Q p` : the result of the program meets `Q`, whatever its calls answer; `Returns.runCalls`;
* `runCalls_related`, `passes_related` : two ways to answer the calls, from related states;
* `InStep Q p q` : two programs that make the same calls and end with related results; `InStep.runCalls_related` : from
  related states they end in related states.
-/

namespace NetworkFileShare

variable {Op : Type} {Ans : Op → Type} {α β σ : Type}

section
variable (exec : (op : Op) → σ → Ans op × σ)

/-- The result and the last state. -/
def runCalls : Prog Ans α → σ → α × σ
  | .done a, s => (a, s)
  | .call op next, s => runCalls (next (exec op s).1) (exec op s).2

/-- `t` is a state that the program goes through from `s`. -/
inductive Passes : σ → Prog Ans α → σ → Prop where
  | here (s : σ) (p : Prog Ans α) : Passes s p s
  | call {s t : σ} {op : Op} {next : Ans op → Prog Ans α} (rest : Passes (exec op s).2 (next (exec op s).1) t) :
      Passes s (.call op next) t

/-- The state after `n` calls, or at the end. -/
def stateAfter : Nat → Prog Ans α → σ → σ
  | 0, _, s => s
  | _ + 1, .done _, s => s
  | n + 1, .call op next, s => stateAfter n (next (exec op s).1) (exec op s).2

/-- Every state on the way meets `I`. -/
def Throughout (I : σ → Prop) (p : Prog Ans α) (s : σ) : Prop := ∀ t, Passes exec s p t → I t

end

section
variable {exec : (op : Op) → σ → Ans op × σ} {s t : σ}

@[simp] theorem runCalls_pure (a : α) : runCalls exec (pure a : Prog Ans α) s = (a, s) := rfl

@[simp] theorem runCalls_perform (op : Op) : runCalls exec (Prog.perform op) s = exec op s := rfl

@[simp] theorem runCalls_bind (p : Prog Ans α) (k : α → Prog Ans β) :
    runCalls exec (p >>= k) s = runCalls exec (k (runCalls exec p s).1) (runCalls exec p s).2 := by
  induction p generalizing s with
  | done a => rfl
  | call op next ih => exact ih (exec op s).1

@[simp] theorem runCalls_ite {c : Prop} [Decidable c] (p q : Prog Ans α) :
    runCalls exec (if c then p else q) s = if c then runCalls exec p s else runCalls exec q s := by
  split <;> rfl

theorem passes_iff_stateAfter {p : Prog Ans α} : Passes exec s p t ↔ ∃ n, stateAfter exec n p s = t := by
  constructor
  · intro h
    induction h with
    | here s p => exact ⟨0, rfl⟩
    | call _ ih =>
      obtain ⟨n, hn⟩ := ih
      exact ⟨n + 1, hn⟩
  · rintro ⟨n, rfl⟩
    induction n generalizing p s with
    | zero => exact .here s p
    | succ n ih =>
      cases p with
      | done a => exact .here s _
      | call op next => exact .call ih

/-- The last state is one of those on the way. -/
theorem Passes.last (p : Prog Ans α) : Passes exec s p (runCalls exec p s).2 := by
  induction p generalizing s with
  | done a => exact .here _ _
  | call op next ih => exact .call (ih _)

theorem passes_bind {p : Prog Ans α} {k : α → Prog Ans β} :
    Passes exec s (p >>= k) t ↔
      Passes exec s p t ∨ Passes exec (runCalls exec p s).2 (k (runCalls exec p s).1) t := by
  induction p generalizing s with
  | done a =>
    constructor
    · exact Or.inr
    · rintro (h | h)
      · cases h
        exact .here _ _
      · exact h
  | call op next ih =>
    constructor
    · intro h
      cases h with
      | here => exact Or.inl (.here _ _)
      | call rest => exact ((ih _).mp rest).imp .call id
    · rintro (h | h)
      · cases h with
        | here => exact .here _ _
        | call rest => exact .call ((ih _).mpr (Or.inl rest))
      · exact .call ((ih _).mpr (Or.inr h))

namespace Throughout
variable {I I' : σ → Prop}

theorem pure {a : α} (h : I s) : Throughout exec I (Pure.pure a : Prog Ans α) s := fun t ht => by
  cases ht
  exact h

theorem perform {op : Op} (h : I s) (h' : I (exec op s).2) : Throughout exec I (Prog.perform op) s := fun t ht => by
  cases ht with
  | here => exact h
  | call rest =>
    cases rest
    exact h'

theorem bind {p : Prog Ans α} {k : α → Prog Ans β} (hp : Throughout exec I p s)
    (hk : Throughout exec I (k (runCalls exec p s).1) (runCalls exec p s).2) : Throughout exec I (p >>= k) s :=
  fun t ht => (passes_bind.mp ht).elim (hp t) (hk t)

theorem ite {c : Prop} [Decidable c] {p q : Prog Ans α} (hp : c → Throughout exec I p s)
    (hq : ¬ c → Throughout exec I q s) : Throughout exec I (if c then p else q) s := by
  split
  · exact hp ‹c›
  · exact hq ‹¬ c›

theorem mono {p : Prog Ans α} (h : Throughout exec I p s) (hI : ∀ t, I t → I' t) : Throughout exec I' p s :=
  fun t ht => hI t (h t ht)

/-- A program that ends with something that makes no call. -/
theorem result {p : Prog Ans α} {k : α → Prog Ans β} (h : Throughout exec I p s)
    (hk : ∀ a, ∃ b, k a = Pure.pure b) : Throughout exec I (p >>= k) s := by
  obtain ⟨b, hb⟩ := hk (runCalls exec p s).1
  refine h.bind ?_
  rw [hb]
  exact .pure (h _ (.last p))

end Throughout

/-- If every call that the program may make keeps `I`, it holds throughout. -/
theorem throughout_of_only {ok : Op → Prop} {I : σ → Prop} (hkeep : ∀ op s, ok op → I s → I (exec op s).2)
    {p : Prog Ans α} (hp : Prog.Only ok p) (h : I s) : Throughout exec I p s := by
  intro t ht
  induction ht with
  | here => exact h
  | call _ ih => exact ih (hp.2 _) (hkeep _ _ hp.1 h)

end

/-! ## Whatever is answered -/

/-- The result meets `Q`, whatever the calls answer. -/
def Returns (Q : α → Prop) : Prog Ans α → Prop
  | .done a => Q a
  | .call _ next => ∀ ans, Returns Q (next ans)

namespace Returns
variable {Q : α → Prop} {R : β → Prop}

theorem pure {a : α} (h : Q a) : Returns Q (Pure.pure a : Prog Ans α) := h

theorem bind {p : Prog Ans α} {k : α → Prog Ans β} (hp : Returns Q p) (hk : ∀ a, Q a → Returns R (k a)) :
    Returns R (p >>= k) := by
  induction p with
  | done a => exact hk a hp
  | call op next ih => exact fun ans => ih ans (hp ans)

theorem mono {Q' : α → Prop} {p : Prog Ans α} (h : Returns Q p) (hQ : ∀ a, Q a → Q' a) : Returns Q' p := by
  induction p with
  | done a => exact hQ a h
  | call op next ih => exact fun ans => ih ans (h ans)

theorem and {Q' : α → Prop} {p : Prog Ans α} (h : Returns Q p) (h' : Returns Q' p) :
    Returns (fun a => Q a ∧ Q' a) p := by
  induction p with
  | done a => exact ⟨h, h'⟩
  | call op next ih => exact fun ans => ih ans (h ans) (h' ans)

/-- Nothing is asked of the results of the first program. -/
theorem after {p : Prog Ans α} {k : α → Prog Ans β} (hk : ∀ a, Returns R (k a)) : Returns R (p >>= k) := by
  induction p with
  | done a => exact hk a
  | call op next ih => exact ih

theorem ite {c : Prop} [Decidable c] {p q : Prog Ans α} (hp : c → Returns Q p) (hq : ¬ c → Returns Q q) :
    Returns Q (if c then p else q) := by
  split
  · exact hp ‹c›
  · exact hq ‹¬ c›

theorem runCalls {exec : (op : Op) → σ → Ans op × σ} {p : Prog Ans α} (h : Returns Q p) (s : σ) :
    Q (runCalls exec p s).1 := by
  induction p generalizing s with
  | done a => exact h
  | call op next ih => exact ih _ (h _) _

end Returns

/-! ## Two ways to answer -/

section
variable {τ : Type} {exec : (op : Op) → σ → Ans op × σ} {exec' : (op : Op) → τ → Ans op × τ} {R : σ → τ → Prop}
  {ok : Op → Prop}

/-- Related states give the same answers and stay related, so the program has one result. -/
theorem runCalls_related
    (hstep : ∀ op s t, ok op → R s t → (exec' op t).1 = (exec op s).1 ∧ R (exec op s).2 (exec' op t).2)
    {p : Prog Ans α} (hp : Prog.Only ok p) {s : σ} {t : τ} (h : R s t) :
    (runCalls exec' p t).1 = (runCalls exec p s).1 ∧ R (runCalls exec p s).2 (runCalls exec' p t).2 := by
  induction p generalizing s t with
  | done a => exact ⟨rfl, h⟩
  | call op next ih =>
    obtain ⟨hans, hrest⟩ := hstep op s t hp.1 h
    simp only [runCalls, hans]
    exact ih _ (hp.2 _) hrest

/-- So the program goes through related states. -/
theorem passes_related
    (hstep : ∀ op s t, ok op → R s t → (exec' op t).1 = (exec op s).1 ∧ R (exec op s).2 (exec' op t).2)
    {p : Prog Ans α} (hp : Prog.Only ok p) {s u : σ} {t : τ} (h : R s t) (hu : Passes exec s p u) :
    ∃ v, Passes exec' t p v ∧ R u v := by
  induction hu generalizing t with
  | here s p => exact ⟨t, .here t p, h⟩
  | @call s u op next _ ih =>
    obtain ⟨hans, hrest⟩ := hstep op s t hp.1 h
    obtain ⟨v, hv, hrel⟩ := ih (hp.2 _) hrest
    exact ⟨v, .call (by rw [hans]; exact hv), hrel⟩

end

/-! ## Two programs -/

/-- The programs make the same calls, and their results meet `Q`, whatever the calls answer. -/
inductive InStep (Q : α → β → Prop) : Prog Ans α → Prog Ans β → Prop where
  | done {a : α} {b : β} (h : Q a b) : InStep Q (.done a) (.done b)
  | call {op : Op} {next : Ans op → Prog Ans α} {next' : Ans op → Prog Ans β}
      (h : ∀ ans, InStep Q (next ans) (next' ans)) : InStep Q (.call op next) (.call op next')

namespace InStep
variable {α' β' : Type} {Q : α → β → Prop} {R : α' → β' → Prop}

theorem pure {a : α} {b : β} (h : Q a b) : InStep Q (Pure.pure a : Prog Ans α) (Pure.pure b) := .done h

theorem bind {p : Prog Ans α} {q : Prog Ans β} {k : α → Prog Ans α'} {k' : β → Prog Ans β'} (h : InStep Q p q)
    (hk : ∀ a b, Q a b → InStep R (k a) (k' b)) : InStep R (p >>= k) (q >>= k') := by
  induction h with
  | done h => exact hk _ _ h
  | call _ ih => exact .call ih

/-- They begin with the same program. -/
theorem afterReturns {P : α → Prop} {p : Prog Ans α} {k : α → Prog Ans α'} {k' : α → Prog Ans β'} (hp : Returns P p)
    (hk : ∀ a, P a → InStep R (k a) (k' a)) : InStep R (p >>= k) (p >>= k') := by
  induction p with
  | done a => exact hk a hp
  | call op next ih => exact .call fun ans => ih ans (hp ans)

theorem after {p : Prog Ans α} {k : α → Prog Ans α'} {k' : α → Prog Ans β'} (hk : ∀ a, InStep R (k a) (k' a)) :
    InStep R (p >>= k) (p >>= k') := by
  induction p with
  | done a => exact hk a
  | call op next ih => exact .call ih

theorem ite {c : Prop} [Decidable c] {p p' : Prog Ans α} {q q' : Prog Ans β} (h : c → InStep Q p q)
    (h' : ¬ c → InStep Q p' q') : InStep Q (if c then p else p') (if c then q else q') := by
  split
  · exact h ‹c›
  · exact h' ‹¬ c›

theorem runCalls_related {exec : (op : Op) → σ → Ans op × σ} {I : σ → σ → Prop} {ok : Op → Prop}
    (hstep : ∀ op s t, ok op → I s t → (exec op t).1 = (exec op s).1 ∧ I (exec op s).2 (exec op t).2)
    {p : Prog Ans α} {q : Prog Ans β} (h : InStep Q p q) (hp : Prog.Only ok p) {s t : σ} (hst : I s t) :
    Q (runCalls exec p s).1 (runCalls exec q t).1 ∧ I (runCalls exec p s).2 (runCalls exec q t).2 := by
  induction h generalizing s t with
  | done h => exact ⟨h, hst⟩
  | call _ ih =>
    obtain ⟨hans, hrest⟩ := hstep _ s t hp.1 hst
    simp only [runCalls, hans]
    exact ih _ (hp.2 _) hrest

end InStep

end NetworkFileShare
