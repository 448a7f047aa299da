import NetworkFileShare.Lib.Interleave

/-!
# Mutexes in a pool of threads

* `MutexUse` : what a call has to do with a mutex; `Prog.Mutexed` : a program that holds one mutex at a time, gives
  back its own only, and waits for none while it holds one;
* `handOf` : the mutex that a thread has taken and not given back, by its calls; `Owners` : the mutexes that are
  taken are those in somebody's hands, each in one thread's;
* `MutexState` : the calls of the threads wait and change the state as they say; `locked_of_run` : **mutual
  exclusion**, in every run;
* `Locked.holder_runs` : **no deadlock**, who is waited for does not wait;
* `AtRest` : no thread can go on, unless a call returns that may stall; `Locked.stalled_of_rest` : then every thread is
  in such a call, or waits for one that is; `Locked.stalled_of_taken` : so is who holds a mutex.
-/

namespace NetworkFileShare

/-! ## Programs -/

/-- What a call does with a mutex: it takes it, gives it back, waits until it is free, or is made with the mutex in
hand, or with none. -/
inductive MutexUse (M : Type) where
  | take (m : M)
  | give (m : M)
  | await (m : M)
  | within (m : M)
  | bare
  | other
  deriving DecidableEq

namespace MutexUse
variable {M : Type}

/-- The mutex in hand after the call. -/
def handAfter : MutexUse M → Option M → Option M
  | take m, _ => some m
  | give _, _ => none
  | _, hand => hand

/-- The call may be made with this in hand. -/
def Allowed : MutexUse M → Option M → Prop
  | take _, hand => hand = none
  | give m, hand => hand = some m
  | await _, hand => hand = none
  | within m, hand => hand = some m
  | bare, hand => hand = none
  | other, _ => True

/-- The mutex that a call waits for. -/
def awaited : MutexUse M → Option M
  | take m => some m
  | await m => some m
  | _ => none

theorem hand_of_awaited {u : MutexUse M} {hand : Option M} {m : M} (h : u.Allowed hand) (hm : u.awaited = some m) :
    hand = none := by
  cases u with
  | take _ | await _ => exact h
  | give _ | within _ | bare | other => cases hm

end MutexUse

variable {Op : Type} {Ans : Op → Type} {α β σ Req M : Type} {use : Op → MutexUse M}

namespace Prog

/-- The program begins with `hand` in hand, ends with `after`, and uses the mutexes as allowed. -/
def Mutexed (use : Op → MutexUse M) (after : Option M) : Option M → Prog Ans α → Prop
  | hand, done _ => hand = after
  | hand, call op next => (use op).Allowed hand ∧ ∀ ans, Mutexed use after ((use op).handAfter hand) (next ans)

variable {hand mid after : Option M}

theorem Mutexed.pure (a : α) : Mutexed use hand hand (Pure.pure a : Prog Ans α) := rfl

theorem Mutexed.bind {p : Prog Ans α} {k : α → Prog Ans β} (hp : Mutexed use mid hand p)
    (hk : ∀ a, Mutexed use after mid (k a)) : Mutexed use after hand (p >>= k) := by
  induction p generalizing hand with
  | done a =>
    obtain rfl : hand = mid := hp
    exact hk a
  | call op next ih => exact ⟨hp.1, fun ans => ih ans (hp.2 ans)⟩

theorem Mutexed.ite {c : Prop} [Decidable c] {p q : Prog Ans α} (hp : Mutexed use after hand p)
    (hq : Mutexed use after hand q) : Mutexed use after hand (if c then p else q) := by
  split
  · exact hp
  · exact hq

/-- The first call of a program, and the rest. -/
theorem Mutexed.call {op : Op} {k : Ans op → Prog Ans α} (h : (use op).Allowed hand)
    (hk : ∀ ans, Mutexed use after ((use op).handAfter hand) (k ans)) :
    Mutexed use after hand (perform op >>= k) := ⟨h, hk⟩

/-- A call that has nothing to do with mutexes. -/
theorem Mutexed.other {op : Op} {k : Ans op → Prog Ans α} (h : use op = .other)
    (hk : ∀ ans, Mutexed use after hand (k ans)) : Mutexed use after hand (perform op >>= k) := by
  refine .call ?_ ?_
  · rw [h]
    trivial
  · rw [h]
    exact hk

/-- Calls that have nothing to do with mutexes leave the hand as it is. -/
theorem Only.mutexed {p : Prog Ans α} (h : Only (fun op => use op = .other) p) : Mutexed use hand hand p := by
  induction p with
  | done a => rfl
  | call op next ih => exact .other h.1 fun ans => ih ans (h.2 ans)

end Prog

/-! ## Hands -/

/-- The call that thread `i` is about to make. -/
def Pool.nextOp (p : Pool σ Req Ans α) (i : Nat) : Option Op :=
  match p.threads i with
  | some ⟨_, _, .call op _⟩ => some op
  | _ => none

theorem Pool.nextOp_eq_some {p : Pool σ Req Ans α} {i : Nat} {op : Op} :
    p.nextOp i = some op ↔ ∃ req past next, p.threads i = some ⟨req, past, .call op next⟩ := by
  unfold Pool.nextOp
  split
  · rename_i op' next hth
    rw [hth]
    constructor
    · rintro ⟨⟩
      exact ⟨_, _, _, rfl⟩
    · rintro ⟨req, past, next, he⟩
      cases he
      rfl
  · rename_i hnone
    constructor
    · intro h
      cases h
    · rintro ⟨req, past, next, he⟩
      exact absurd he (hnone req past op next)

/-- The mutex in hand after some calls. -/
def handOf (use : Op → MutexUse M) (past : List (Call Ans)) : Option M :=
  past.foldl (fun hand c => (use c.op).handAfter hand) none

theorem handOf_snoc (past : List (Call Ans)) (c : Call Ans) :
    handOf use (past ++ [c]) = (use c.op).handAfter (handOf use past) := by
  rw [handOf, List.foldl_append]
  rfl

/-- The mutex in the hands of thread `i`. -/
def Pool.hand (use : Op → MutexUse M) (p : Pool σ Req Ans α) (i : Nat) : Option M :=
  (p.threads i).bind fun th => handOf use th.past

theorem Pool.hand_setThread (p : Pool σ Req Ans α) (i : Nat) (th : Option (Thread Req Ans α)) :
    (p.setThread i th).hand use = Function.update (p.hand use) i (th.bind fun th => handOf use th.past) := by
  funext j
  by_cases hj : j = i
  · subst hj
    simp [Pool.hand, Pool.setThread]
  · simp [Pool.hand, Pool.setThread, hj]

/-- The mutexes that are taken are those in somebody's hands, and no two threads hold the same. -/
structure Owners (taken : M → Bool) (hand : Nat → Option M) : Prop where
  taken_iff : ∀ m, taken m = true ↔ ∃ i, hand i = some m
  one : ∀ i j m, hand i = some m → hand j = some m → i = j

namespace Owners
variable [DecidableEq M] {taken : M → Bool} {hand : Nat → Option M} {i : Nat} {m : M}

theorem take (h : Owners taken hand) (hfree : taken m = false) (hi : hand i = none) :
    Owners (Function.update taken m true) (Function.update hand i (some m)) := by
  have hnone : ∀ j, hand j ≠ some m := fun j hj => by
    rw [(h.taken_iff m).mpr ⟨j, hj⟩] at hfree
    cases hfree
  have hcases : ∀ {j n}, Function.update hand i (some m) j = some n → (j = i ∧ n = m) ∨ (j ≠ i ∧ hand j = some n) := by
    intro j n hj
    by_cases hji : j = i
    · subst hji
      rw [Function.update_self] at hj
      exact Or.inl ⟨rfl, (Option.some.inj hj).symm⟩
    · rw [Function.update_of_ne hji] at hj
      exact Or.inr ⟨hji, hj⟩
  refine ⟨fun n => ?_, fun j k n hj hk => ?_⟩
  · by_cases hn : n = m
    · subst hn
      simp only [Function.update_self, true_iff]
      exact ⟨i, Function.update_self ..⟩
    · rw [Function.update_of_ne hn, h.taken_iff]
      refine exists_congr fun j => ?_
      by_cases hj : j = i
      · subst hj
        simp [hi, Ne.symm hn]
      · rw [Function.update_of_ne hj]
  · rcases hcases hj with ⟨rfl, rfl⟩ | ⟨-, hj'⟩ <;> rcases hcases hk with ⟨hki, hn⟩ | ⟨-, hk'⟩
    · exact hki.symm
    · exact absurd hk' (hnone k)
    · exact absurd (hn ▸ hj') (hnone j)
    · exact h.one j k n hj' hk'

theorem give (h : Owners taken hand) (hi : hand i = some m) :
    Owners (Function.update taken m false) (Function.update hand i none) := by
  have hleft : ∀ {j n}, Function.update hand i none j = some n → j ≠ i ∧ hand j = some n := by
    intro j n hj
    by_cases hji : j = i
    · subst hji
      rw [Function.update_self] at hj
      cases hj
    · rw [Function.update_of_ne hji] at hj
      exact ⟨hji, hj⟩
  refine ⟨fun n => ?_, fun j k n hj hk => h.one j k n (hleft hj).2 (hleft hk).2⟩
  by_cases hn : n = m
  · subst hn
    simp only [Function.update_self, Bool.false_eq_true, false_iff]
    rintro ⟨j, hj⟩
    exact (hleft hj).1 (h.one j i n (hleft hj).2 hi)
  · rw [Function.update_of_ne hn, h.taken_iff]
    refine exists_congr fun j => ?_
    by_cases hj : j = i
    · subst hj
      simp [hi, Ne.symm hn]
    · rw [Function.update_of_ne hj]

end Owners

/-! ## Runs -/

section
variable {exec : σ → Call Ans → σ → Prop} {taken : σ → M → Bool}

/-- A mutex that the call waits for is taken. -/
def Blocked (use : Op → MutexUse M) (taken : σ → M → Bool) (s : σ) (op : Op) : Prop :=
  ∃ m, (use op).awaited = some m ∧ taken s m = true

variable [DecidableEq M]

/-- The calls wait for a mutex as they say, and change which are taken as they say. -/
structure MutexState (exec : σ → Call Ans → σ → Prop) (use : Op → MutexUse M) (taken : σ → M → Bool) : Prop where
  free : ∀ {s c t}, exec s c t → ¬ Blocked use taken s c.op
  taken_after : ∀ {s c t}, exec s c t → taken t =
    match use c.op with
    | .take m => Function.update (taken s) m true
    | .give m => Function.update (taken s) m false
    | _ => taken s

/-- Every thread uses the mutexes as allowed, and the mutexes that are taken are in their hands. -/
structure Locked (use : Op → MutexUse M) (taken : σ → M → Bool) (p : Pool σ Req Ans α) : Prop where
  mutexed : ∀ i th, p.threads i = some th → th.rest.Mutexed use none (handOf use th.past)
  owners : Owners (taken p.state) (p.hand use)

/-- A call keeps the owners, if it may be made with what the thread has in hand. -/
theorem MutexState.owners (h : MutexState exec use taken) {s t : σ} {c : Call Ans} {hand : Nat → Option M} {i : Nat}
    (hs : Owners (taken s) hand) (hc : (use c.op).Allowed (hand i)) (made : exec s c t) :
    Owners (taken t) (Function.update hand i ((use c.op).handAfter (hand i))) := by
  have hafter := h.taken_after made
  have hfree := h.free made
  have hsame : Owners (taken s) (Function.update hand i (hand i)) := by rwa [Function.update_eq_self]
  cases hu : use c.op with
  | take m =>
    rw [hu] at hafter hc
    have htaken : taken s m = false := Bool.eq_false_iff.mpr fun hm => hfree ⟨m, by rw [hu]; rfl, hm⟩
    rw [hafter]
    exact hs.take htaken hc
  | give m =>
    rw [hu] at hafter hc
    rw [hafter]
    exact hs.give hc
  | await _ | within _ | bare | other =>
    rw [hu] at hafter
    rw [hafter]
    exact hsame

variable {body : Req → Prog Ans α} {s : σ} {es : List (Event Req Ans α)} {p : Pool σ Req Ans α}

/-- **Mutual exclusion**: in every run of such programs the mutexes that are taken are in the hands of the threads,
each in one thread's. -/
theorem locked_of_run (hstate : MutexState exec use taken) (hbody : ∀ req, (body req).Mutexed use none none)
    (h0 : ∀ m, taken s m = false) (h : Run (PoolStep exec body) (Pool.idle s) es p) : Locked use taken p := by
  refine h.state_invariant (I := Locked use taken)
    ⟨fun i th hth => (by cases hth), fun m => ?_, fun i j m hi => (by cases hi)⟩ ?_
  · show taken s m = true ↔ _
    rw [h0 m]
    constructor
    · intro hm
      cases hm
    · rintro ⟨i, hi⟩
      cases hi
  intro q e t hq hstep
  cases hstep with
  | @start i req idle =>
    refine ⟨Pool.forall_setThread ?_ fun j th _ => hq.mutexed j th, ?_⟩
    · rintro _ ⟨⟩
      exact hbody req
    · have hi : q.hand use i = none := by rw [Pool.hand, idle]; rfl
      rw [Pool.hand_setThread, Pool.setThread_state]
      show Owners _ (Function.update _ i none)
      rw [← hi, Function.update_eq_self]
      exact hq.owners
  | @call i req past op next ans t serving made =>
    obtain ⟨hallowed, hnext⟩ := hq.mutexed i _ serving
    have hi : q.hand use i = handOf use past := by rw [Pool.hand, serving]; rfl
    refine ⟨Pool.forall_setThread (p := q) ?_ fun j th _ => hq.mutexed j th, ?_⟩
    · rintro _ ⟨⟩
      dsimp only
      rw [handOf_snoc]
      exact hnext ans
    · show Owners (taken t) ((q.setThread i _).hand use)
      rw [Pool.hand_setThread, Option.bind_some, handOf_snoc, ← hi]
      exact hstate.owners (c := ⟨op, ans⟩) hq.owners (hi ▸ hallowed) made
  | @answer i req past result serving =>
    have hdone : handOf use past = none := hq.mutexed i _ serving
    have hi : q.hand use i = none := by rw [Pool.hand, serving]; exact hdone
    refine ⟨Pool.forall_setThread nofun fun j th _ => hq.mutexed j th, ?_⟩
    rw [Pool.hand_setThread, Pool.setThread_state]
    show Owners _ (Function.update _ i none)
    rw [← hi, Function.update_eq_self]
    exact hq.owners

namespace Locked

omit [DecidableEq M] in
/-- **No deadlock**: a mutex that a thread waits for is in the hands of another one, which does not wait. -/
theorem holder_runs (h : Locked use taken p) {i : Nat} {op : Op} (hop : p.nextOp i = some op)
    (hwaits : Blocked use taken p.state op) :
    ∃ m j op', (use op).awaited = some m ∧ j ≠ i ∧ p.hand use j = some m ∧ p.nextOp j = some op' ∧
      ¬ Blocked use taken p.state op' := by
  obtain ⟨m, hm, htaken⟩ := hwaits
  obtain ⟨j, hj⟩ := (h.owners.taken_iff m).mp htaken
  obtain ⟨⟨req, past, rest⟩, hth, hhand⟩ := Option.bind_eq_some_iff.mp hj
  have hrest := h.mutexed j _ hth
  dsimp only at hhand hrest
  rw [hhand] at hrest
  cases rest with
  | done result => cases hrest
  | call op' next =>
    refine ⟨m, j, op', hm, ?_, hj, Pool.nextOp_eq_some.mpr ⟨_, _, _, hth⟩, ?_⟩
    · rintro rfl
      obtain ⟨_, _, _, hth'⟩ := Pool.nextOp_eq_some.mp hop
      cases hth.symm.trans hth'
      cases MutexUse.hand_of_awaited hrest.1 hm
    · rintro ⟨m', hm', -⟩
      cases MutexUse.hand_of_awaited hrest.1 hm'

omit [DecidableEq M] in
/-- The next call of a thread may be made with what the thread has in hand. -/
theorem allowed (h : Locked use taken p) {i : Nat} {op : Op} (hop : p.nextOp i = some op) :
    (use op).Allowed (p.hand use i) := by
  obtain ⟨req, past, next, hth⟩ := Pool.nextOp_eq_some.mp hop
  have hhand : p.hand use i = handOf use past := by rw [Pool.hand, hth]; rfl
  rw [hhand]
  exact (h.mutexed i _ hth).1

end Locked

end

/-! ## Calls that stall -/

section
variable {exec : σ → Call Ans → σ → Prop} {taken : σ → M → Bool} {stalls : Op → Prop} {p : Pool σ Req Ans α}

/-- No thread can go on, unless a call returns that may stall. -/
def AtRest (exec : σ → Call Ans → σ → Prop) (stalls : Op → Prop) (p : Pool σ Req Ans α) : Prop :=
  ∀ i th, p.threads i = some th →
    ∃ op, p.nextOp i = some op ∧ (stalls op ∨ ¬ ∃ ans t, exec p.state ⟨op, ans⟩ t)

namespace Locked

/-- **At rest every thread is in a call that stalls, or waits for a mutex of one that is**, if the calls can be made
that do not wait. -/
theorem stalled_of_rest (h : Locked use taken p)
    (hmade : ∀ op, ¬ Blocked use taken p.state op → ∃ ans t, exec p.state ⟨op, ans⟩ t)
    (hrest : AtRest exec stalls p) {i : Nat} {th : Thread Req Ans α} (hth : p.threads i = some th) :
    ∃ op, p.nextOp i = some op ∧ (stalls op ∨ ∃ m j op', (use op).awaited = some m ∧ p.hand use j = some m ∧
      p.nextOp j = some op' ∧ stalls op') := by
  obtain ⟨op, hop, hstalls | hstuck⟩ := hrest i th hth
  · exact ⟨op, hop, Or.inl hstalls⟩
  have hwaits : Blocked use taken p.state op := by
    by_contra hfree
    exact hstuck (hmade op hfree)
  obtain ⟨m, j, op', hm, -, hhand, hop', hfree⟩ := h.holder_runs hop hwaits
  obtain ⟨_, _, _, hj⟩ := Pool.nextOp_eq_some.mp hop'
  obtain ⟨op'', hop'', hnext⟩ := hrest j _ hj
  obtain rfl : op' = op'' := Option.some.inj (hop'.symm.trans hop'')
  exact ⟨op, hop, Or.inr ⟨m, j, op', hm, hhand, hop', hnext.resolve_right fun hno => hno (hmade op' hfree)⟩⟩

/-- A mutex that is taken at rest is in the hands of a thread whose call stalls. -/
theorem stalled_of_taken (h : Locked use taken p)
    (hmade : ∀ op, ¬ Blocked use taken p.state op → ∃ ans t, exec p.state ⟨op, ans⟩ t)
    (hrest : AtRest exec stalls p) {m : M} (hm : taken p.state m = true) :
    ∃ j op, p.hand use j = some m ∧ p.nextOp j = some op ∧ stalls op := by
  obtain ⟨j, hj⟩ := (h.owners.taken_iff m).mp hm
  obtain ⟨th, hth, -⟩ := Option.bind_eq_some_iff.mp hj
  obtain ⟨op, hop, hstalls | ⟨m', _, _, hm', -⟩⟩ := h.stalled_of_rest hmade hrest hth
  · exact ⟨j, op, hj, hop, hstalls⟩
  · cases hj.symm.trans (MutexUse.hand_of_awaited (h.allowed hop) hm')

end Locked

end

end NetworkFileShare
