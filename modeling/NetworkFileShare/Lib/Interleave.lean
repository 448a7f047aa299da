import NetworkFileShare.Lib.Run
import Mathlib.Logic.Function.Basic

/-!
# Threads that share a state

* `Prog Ans α` : a program over atomic calls, whose answers have the types `Ans op`;
* `Prog.Obeys rely good post` : when the answers meet `rely`, every call meets `good` and the result meets
  `post`, each with the calls made before at hand; `obeys_bind` and its corollaries take a program apart;
* `Pool` : a shared state and the threads, each with the request it serves; `PoolStep` : a request arrives, a
  thread makes its next call, a thread answers;
* `pool_invariant` : the invariant rule for every order of steps; `obeys_of_run` : every thread keeps to its contract;
* `recorded` : the calls of a thread stand in the history, behind the arrival of its request;
* `Alone` : a program runs while no other thread makes a call; `Ensures` : what holds of such a program, with its
  rules;
* `runSchedule` : the run of a given order of steps.
-/

namespace NetworkFileShare

variable {Op : Type} {Ans : Op → Type} {α β : Type}

/-- A call with its answer. -/
structure Call {Op : Type} (Ans : Op → Type) where
  op : Op
  ans : Ans op

/-- A program over atomic calls: it ends with a result, or makes a call and goes on with the answer. -/
inductive Prog {Op : Type} (Ans : Op → Type) (α : Type) where
  | done (result : α)
  | call (op : Op) (next : Ans op → Prog Ans α)

namespace Prog

protected def bind : Prog Ans α → (α → Prog Ans β) → Prog Ans β
  | done a, k => k a
  | call op next, k => call op fun ans => (next ans).bind k

instance : Monad (Prog Ans) where
  pure := done
  bind := Prog.bind

protected theorem bind_pure (p : Prog Ans α) : p.bind pure = p := by
  induction p with
  | done a => rfl
  | call op next ih => exact congrArg (call op) (funext ih)

protected theorem bind_assoc {γ : Type} (p : Prog Ans α) (k : α → Prog Ans β) (l : β → Prog Ans γ) :
    (p.bind k).bind l = p.bind fun a => (k a).bind l := by
  induction p with
  | done a => rfl
  | call op next ih => exact congrArg (call op) (funext ih)

instance : LawfulMonad (Prog Ans) :=
  LawfulMonad.mk' _ Prog.bind_pure (fun _ _ => rfl) Prog.bind_assoc

/-- One call. -/
def perform (op : Op) : Prog Ans (Ans op) := call op done

/-! ## What a program does, whatever the others do -/

section
variable (rely : Call Ans → Prop) (good : List (Call Ans) → Op → Prop)

/-- Every call meets `good` and the result meets `post`, as long as the answers meet `rely`; `past` are the
calls made so far. -/
def Obeys (post : List (Call Ans) → α → Prop) : List (Call Ans) → Prog Ans α → Prop
  | past, done a => post past a
  | past, call op next =>
    good past op ∧ ∀ ans, rely ⟨op, ans⟩ → Obeys post (past ++ [⟨op, ans⟩]) (next ans)

variable {rely good} {post post' : List (Call Ans) → α → Prop} {past : List (Call Ans)}

@[simp] theorem obeys_pure (a : α) : Obeys rely good post past (pure a : Prog Ans α) ↔ post past a :=
  Iff.rfl

@[simp] theorem obeys_done (a : α) : Obeys rely good post past (done a : Prog Ans α) ↔ post past a :=
  Iff.rfl

theorem obeys_bind {post : List (Call Ans) → β → Prop} (p : Prog Ans α) (k : α → Prog Ans β) :
    Obeys rely good post past (p >>= k) ↔
      Obeys rely good (fun past a => Obeys rely good post past (k a)) past p := by
  induction p generalizing past with
  | done a => exact Iff.rfl
  | call op next ih =>
    show _ ∧ _ ↔ _ ∧ _
    exact and_congr Iff.rfl (forall_congr' fun ans => imp_congr Iff.rfl (ih ans))

@[simp] theorem obeys_perform (op : Op) {post : List (Call Ans) → Ans op → Prop} :
    Obeys rely good post past (perform op) ↔
      good past op ∧ ∀ ans, rely ⟨op, ans⟩ → post (past ++ [⟨op, ans⟩]) ans :=
  Iff.rfl

/-- The first call of a program, and the rest. -/
theorem Obeys.perform_bind {op : Op} {k : Ans op → Prog Ans α} (h : good past op)
    (hk : ∀ ans, rely ⟨op, ans⟩ → Obeys rely good post (past ++ [⟨op, ans⟩]) (k ans)) :
    Obeys rely good post past (perform op >>= k) := ⟨h, hk⟩

theorem Obeys.ite {c : Prop} [Decidable c] {p q : Prog Ans α} (hp : c → Obeys rely good post past p)
    (hq : ¬ c → Obeys rely good post past q) : Obeys rely good post past (if c then p else q) := by
  split
  · exact hp ‹c›
  · exact hq ‹¬ c›

theorem Obeys.mono {p : Prog Ans α} (h : Obeys rely good post past p)
    (hle : ∀ past a, post past a → post' past a) : Obeys rely good post' past p := by
  induction p generalizing past with
  | done a => exact hle past a h
  | call op next ih => exact ⟨h.1, fun ans hans => ih ans (h.2 ans hans)⟩

theorem Obeys.bind {mid : List (Call Ans) → α → Prop} {post : List (Call Ans) → β → Prop} {p : Prog Ans α}
    {k : α → Prog Ans β} (hp : Obeys rely good mid past p)
    (hk : ∀ past a, mid past a → Obeys rely good post past (k a)) :
    Obeys rely good post past (p >>= k) :=
  (obeys_bind p k).mpr (hp.mono hk)

end

/-! ## Programs that make calls of one kind only -/

section
variable (ok : Op → Prop)

/-- Every call is `ok`, whatever the answers. -/
def Only : Prog Ans α → Prop
  | done _ => True
  | call op next => ok op ∧ ∀ ans, Only (next ans)

variable {ok}

theorem Only.pure (a : α) : Only ok (Pure.pure a : Prog Ans α) := trivial

theorem Only.perform {op : Op} (h : ok op) : Only ok (perform op : Prog Ans (Ans op)) := ⟨h, fun _ => trivial⟩

theorem Only.bind {p : Prog Ans α} {k : α → Prog Ans β} (hp : Only ok p) (hk : ∀ a, Only ok (k a)) :
    Only ok (p >>= k) := by
  induction p with
  | done a => exact hk a
  | call op next ih => exact ⟨hp.1, fun ans => ih ans (hp.2 ans)⟩

theorem Only.ite {c : Prop} [Decidable c] {p q : Prog Ans α} (hp : Only ok p) (hq : Only ok q) :
    Only ok (if c then p else q) := by
  split
  · exact hp
  · exact hq

theorem Only.mono {ok' : Op → Prop} {p : Prog Ans α} (h : Only ok p) (hle : ∀ op, ok op → ok' op) : Only ok' p := by
  induction p with
  | done a => trivial
  | call op next ih => exact ⟨hle op h.1, fun ans => ih ans (h.2 ans)⟩

theorem Only.all : ∀ p : Prog Ans α, Only (fun _ => True) p
  | done _ => trivial
  | call _ next => ⟨trivial, fun ans => Only.all (next ans)⟩

/-- Such a program keeps every contract that admits these calls and what they do to the history. -/
theorem Only.obeys {rely : Call Ans → Prop} {good : List (Call Ans) → Op → Prop}
    {post : List (Call Ans) → α → Prop} {J : List (Call Ans) → Prop} {p : Prog Ans α} (h : Only ok p)
    (hgood : ∀ past op, ok op → J past → good past op)
    (hkeep : ∀ past op ans, ok op → J past → J (past ++ [⟨op, ans⟩]))
    (hpost : ∀ past a, J past → post past a) {past : List (Call Ans)} (hJ : J past) :
    Obeys rely good post past p := by
  induction p generalizing past with
  | done a => exact hpost past a hJ
  | call op next ih =>
    exact ⟨hgood past op h.1 hJ, fun ans _ => ih ans (h.2 ans) (hkeep past op ans h.1 hJ)⟩

end

end Prog

/-! ## The pool -/

/-- A thread: the request it serves, the calls it has made for it and what is left to do. -/
structure Thread (Req : Type) (Ans : Op → Type) (α : Type) where
  req : Req
  past : List (Call Ans)
  rest : Prog Ans α

/-- The shared state and the threads. -/
structure Pool (σ Req : Type) (Ans : Op → Type) (α : Type) where
  state : σ
  threads : Nat → Option (Thread Req Ans α)

inductive Event (Req : Type) (Ans : Op → Type) (α : Type) where
  | start (i : Nat) (req : Req)
  | call (i : Nat) (req : Req) (past : List (Call Ans)) (c : Call Ans)
  | answer (i : Nat) (req : Req) (past : List (Call Ans)) (result : α)

variable {σ Req : Type}

namespace Pool

def setThread (p : Pool σ Req Ans α) (i : Nat) (th : Option (Thread Req Ans α)) : Pool σ Req Ans α :=
  { p with threads := Function.update p.threads i th }

@[simp] theorem setThread_state (p : Pool σ Req Ans α) (i : Nat) (th : Option (Thread Req Ans α)) :
    (p.setThread i th).state = p.state := rfl

theorem setThread_cases {p : Pool σ Req Ans α} {i j : Nat} {th : Option (Thread Req Ans α)}
    {u : Thread Req Ans α} (h : (p.setThread i th).threads j = some u) :
    (j = i ∧ th = some u) ∨ (j ≠ i ∧ p.threads j = some u) := by
  rcases eq_or_ne j i with rfl | hne
  · exact Or.inl ⟨rfl, by simpa [setThread] using h⟩
  · exact Or.inr ⟨hne, by simpa [setThread, hne] using h⟩

/-- What holds of the thread that is set, and of the others, holds of all. -/
theorem forall_setThread {p : Pool σ Req Ans α} {i : Nat} {th : Option (Thread Req Ans α)}
    {P : Nat → Thread Req Ans α → Prop} (hnew : ∀ u, th = some u → P i u)
    (hold : ∀ j u, j ≠ i → p.threads j = some u → P j u) (j : Nat) (u : Thread Req Ans α)
    (h : (p.setThread i th).threads j = some u) : P j u := by
  rcases setThread_cases h with ⟨rfl, hset⟩ | ⟨hne, hkept⟩
  · exact hnew u hset
  · exact hold j u hne hkept

/-- Threads that are told apart by their requests still are, if the one that is set has none of the others' keys. -/
theorem apart_setThread {κ : Type*} {key : Req → κ} {p : Pool σ Req Ans α} {i : Nat} {th : Option (Thread Req Ans α)}
    (hnew : ∀ u, th = some u → ∀ j v, j ≠ i → p.threads j = some v → key v.req ≠ key u.req)
    (hold : ∀ j k u v, p.threads j = some u → p.threads k = some v → key u.req = key v.req → j = k) (j k : Nat)
    (u v : Thread Req Ans α) (hu : (p.setThread i th).threads j = some u)
    (hv : (p.setThread i th).threads k = some v) (hsame : key u.req = key v.req) : j = k := by
  rcases setThread_cases hu with ⟨hj, hu⟩ | ⟨hj, hu⟩ <;> rcases setThread_cases hv with ⟨hk, hv⟩ | ⟨hk, hv⟩
  · exact hj.trans hk.symm
  · exact absurd hsame.symm (hnew u hu k v hk hv)
  · exact absurd hsame (hnew v hv j u hj hu)
  · exact hold j k u v hu hv hsame

end Pool

section
variable (exec : σ → Call Ans → σ → Prop) (body : Req → Prog Ans α)

/-- One step: a request arrives at an idle thread, a thread makes its next call, or it answers. -/
inductive PoolStep : Pool σ Req Ans α → Event Req Ans α → Pool σ Req Ans α → Prop where
  | start {p : Pool σ Req Ans α} {i : Nat} (req : Req) (idle : p.threads i = none) :
      PoolStep p (.start i req) (p.setThread i (some ⟨req, [], body req⟩))
  | call {p : Pool σ Req Ans α} {i : Nat} {req : Req} {past : List (Call Ans)} {op : Op}
      {next : Ans op → Prog Ans α} {ans : Ans op} {s : σ}
      (serving : p.threads i = some ⟨req, past, .call op next⟩) (made : exec p.state ⟨op, ans⟩ s) :
      PoolStep p (.call i req past ⟨op, ans⟩)
        { p.setThread i (some ⟨req, past ++ [⟨op, ans⟩], next ans⟩) with state := s }
  | answer {p : Pool σ Req Ans α} {i : Nat} {req : Req} {past : List (Call Ans)} {result : α}
      (serving : p.threads i = some ⟨req, past, .done result⟩) :
      PoolStep p (.answer i req past result) (p.setThread i none)

end

/-- No thread serves a request. -/
def Pool.idle (s : σ) : Pool σ Req Ans α := ⟨s, fun _ => none⟩

/-! ## The invariant rule -/

section
variable {exec : σ → Call Ans → σ → Prop} {body : Req → Prog Ans α}
  {guard : Pool σ Req Ans α → Event Req Ans α → Prop} {rely : Call Ans → Prop}
  {good : Req → List (Call Ans) → Op → Prop} {post : Req → List (Call Ans) → α → Prop}
  {I : List (Event Req Ans α) → σ → Prop} {s : σ} {es : List (Event Req Ans α)} {p : Pool σ Req Ans α}

/-- **The invariant rule for threads**: the programs obey their contract, and a call that meets it, in a state
the invariant holds of, keeps the invariant and answers as relied on. -/
theorem pool_invariant
    (hbody : ∀ p i req, guard p (.start i req) → (body req).Obeys rely (good req) (post req) []) (h0 : I [] s)
    (hstart : ∀ es s i req, I es s → I (es ++ [.start i req]) s)
    (hcall : ∀ es q i req past c t, I es q.state → guard q (.call i req past c) → good req past c.op →
      exec q.state c t → rely c ∧ I (es ++ [.call i req past c]) t)
    (hanswer : ∀ es s i req past result, I es s → post req past result →
      I (es ++ [.answer i req past result]) s)
    (h : Run (Guarded guard (PoolStep exec body)) (Pool.idle s) es p) :
    I es p.state ∧
      ∀ i th, p.threads i = some th → th.rest.Obeys rely (good th.req) (post th.req) th.past := by
  refine h.invariant (I := fun es p => I es p.state ∧ ∀ i th, p.threads i = some th →
    th.rest.Obeys rely (good th.req) (post th.req) th.past) ⟨h0, fun i th hth => by cases hth⟩ ?_
  rintro es q e t ⟨hI, hq⟩ ⟨hguard, hstep⟩
  cases hstep with
  | start req idle =>
    refine ⟨hstart _ _ _ _ hI, Pool.forall_setThread ?_ fun j th _ => hq j th⟩
    rintro _ ⟨⟩
    exact hbody q _ req hguard
  | @call i req past op next ans t serving made =>
    obtain ⟨hgood, hnext⟩ := hq i _ serving
    obtain ⟨hrely, hI'⟩ := hcall es q i req past ⟨op, ans⟩ t hI hguard hgood made
    refine ⟨hI', Pool.forall_setThread (p := q) ?_ fun j th _ => hq j th⟩
    rintro _ ⟨⟩
    exact hnext ans hrely
  | @answer i req past result serving =>
    exact ⟨hanswer _ _ _ _ _ _ hI (hq i _ serving), Pool.forall_setThread nofun fun j th _ => hq j th⟩

/-- Under the same conditions, every answer that was given meets its part of the contract. -/
theorem pool_answers
    (hbody : ∀ p i req, guard p (.start i req) → (body req).Obeys rely (good req) (post req) []) (h0 : I [] s)
    (hstart : ∀ es s i req, I es s → I (es ++ [.start i req]) s)
    (hcall : ∀ es q i req past c t, I es q.state → guard q (.call i req past c) → good req past c.op →
      exec q.state c t → rely c ∧ I (es ++ [.call i req past c]) t)
    (hanswer : ∀ es s i req past result, I es s → post req past result →
      I (es ++ [.answer i req past result]) s)
    {es' : List (Event Req Ans α)} {i : Nat} {req : Req} {past : List (Call Ans)} {result : α}
    (h : Run (Guarded guard (PoolStep exec body)) (Pool.idle s)
      (es ++ .answer i req past result :: es') p) : post req past result := by
  obtain ⟨m, q, hm, hstep, -⟩ := h.split_at
  cases hstep.2 with
  | answer serving => exact (pool_invariant hbody h0 hstart hcall hanswer hm).2 i _ serving

/-- In every run, what is left of a thread's program keeps to the contract, if the programs do whatever they are
answered. -/
theorem obeys_of_run (hbody : ∀ req, (body req).Obeys (fun _ => True) (good req) (post req) [])
    (h : Run (PoolStep exec body) (Pool.idle s) es p) {i : Nat} {th : Thread Req Ans α} (hth : p.threads i = some th) :
    th.rest.Obeys (fun _ => True) (good th.req) (post th.req) th.past := by
  have hrun : Run (Guarded (fun _ _ => True) (PoolStep exec body)) (Pool.idle s) es p :=
    h.mono fun _ _ _ hstep => ⟨trivial, hstep⟩
  refine (pool_invariant (I := fun _ _ => True) (fun _ _ req _ => hbody req) trivial ?_ ?_ ?_ hrun).2 i th hth
  · exact fun _ _ _ _ _ => trivial
  · exact fun _ _ _ _ _ _ _ _ _ _ _ => ⟨trivial, trivial⟩
  · exact fun _ _ _ _ _ _ _ _ => trivial

/-! ## The calls of a thread in the history -/

/-- The call `c` of the request that thread `i` serves now, made after the calls `before`, is in the history,
and no request has arrived at the thread since. -/
def MadeIn (es : List (Event Req Ans α)) (i : Nat) (req : Req) (before : List (Call Ans))
    (c : Call Ans) : Prop :=
  ∃ es₁ es₂, es = es₁ ++ .call i req before c :: es₂ ∧ ∀ req', .start i req' ∉ es₂

theorem MadeIn.snoc {i : Nat} {req : Req} {before : List (Call Ans)} {c : Call Ans}
    (h : MadeIn es i req before c) {e : Event Req Ans α} (he : ∀ req', e ≠ .start i req') :
    MadeIn (es ++ [e]) i req before c := by
  obtain ⟨es₁, es₂, rfl, hnone⟩ := h
  refine ⟨es₁, es₂ ++ [e], by simp, fun req' hmem => ?_⟩
  rcases List.mem_append.mp hmem with hmem | hmem
  · exact hnone req' hmem
  · exact he req' (List.mem_singleton.mp hmem).symm

/-- Every call of a live thread is in the history, behind the arrival of its request. -/
theorem recorded (h : Run (PoolStep exec body) (Pool.idle s) es p) {i : Nat} {th : Thread Req Ans α}
    (hth : p.threads i = some th) {before after : List (Call Ans)} {c : Call Ans}
    (hpast : th.past = before ++ c :: after) : MadeIn es i th.req before c := by
  revert i th before after c
  refine h.invariant (I := fun es p => ∀ {i : Nat} {th : Thread Req Ans α}, p.threads i = some th →
    ∀ {before after : List (Call Ans)} {c : Call Ans}, th.past = before ++ c :: after →
      MadeIn es i th.req before c) (fun hth => by cases hth) ?_
  intro es q e t ih hstep j th hth before after c hpast
  cases hstep with
  | start req idle =>
    rcases Pool.setThread_cases hth with ⟨-, hnew⟩ | ⟨hne, hold⟩
    · rw [← Option.some.inj hnew] at hpast
      simp at hpast
    · exact (ih hold hpast).snoc fun req' he => hne (by injection he with hi; exact hi.symm)
  | @call i req past op next ans t serving made =>
    rcases Pool.setThread_cases (p := q) hth with ⟨rfl, hnew⟩ | ⟨-, hold⟩
    · obtain rfl := Option.some.inj hnew
      rcases List.eq_nil_or_concat after with rfl | ⟨after, d, rfl⟩
      · obtain ⟨rfl, hc⟩ := List.append_inj' hpast rfl
        obtain rfl := List.singleton_inj.mp hc
        exact ⟨es, [], rfl, fun _ => List.not_mem_nil⟩
      · have hcut : past ++ [⟨op, ans⟩] = (before ++ c :: after) ++ [d] := by simpa using hpast
        exact (ih serving (List.append_inj' hcut rfl).1).snoc fun _ he => by cases he
    · exact (ih hold hpast).snoc fun _ he => by cases he
  | answer serving =>
    rcases Pool.setThread_cases hth with ⟨-, hnew⟩ | ⟨-, hold⟩
    · cases hnew
    · exact (ih hold hpast).snoc fun _ he => by cases he

/-- Every call of a request that has been answered is in the history before its answer. -/
theorem recorded_answer {es' : List (Event Req Ans α)} {i : Nat} {req : Req} {past : List (Call Ans)}
    {result : α}
    (h : Run (PoolStep exec body) (Pool.idle s) (es ++ .answer i req past result :: es') p)
    {before after : List (Call Ans)} {c : Call Ans} (hpast : past = before ++ c :: after) :
    MadeIn es i req before c := by
  obtain ⟨m, q, hm, hstep, -⟩ := h.split_at
  cases hstep with
  | answer serving => exact recorded hm serving hpast

/-- And so is every call that a request has made before another one. -/
theorem recorded_call {es' : List (Event Req Ans α)} {i : Nat} {req : Req} {past : List (Call Ans)} {d : Call Ans}
    (h : Run (PoolStep exec body) (Pool.idle s) (es ++ .call i req past d :: es') p)
    {before after : List (Call Ans)} {c : Call Ans} (hpast : past = before ++ c :: after) :
    MadeIn es i req before c := by
  obtain ⟨m, q, hm, hstep, -⟩ := h.split_at
  cases hstep with
  | call serving made => exact recorded hm serving hpast

/-- A thread that has answered answers again only after another request. -/
theorem start_between_answers {es₁ es₂ : List (Event Req Ans α)} {i : Nat} {req req' : Req}
    {past past' : List (Call Ans)} {r r' : α}
    (h : Run (PoolStep exec body) (Pool.idle s)
      (es ++ .answer i req past r :: (es₁ ++ .answer i req' past' r' :: es₂)) p) : ∃ req'', .start i req'' ∈ es₁ := by
  by_contra hnone
  push Not at hnone
  obtain ⟨m, q, -, hfirst, hrest⟩ := h.split_at
  -- no request has come since the first answer
  have hidle : ∀ {u : Pool σ Req Ans α}, Run (PoolStep exec body) q es₁ u → u.threads i = none := by
    intro u hu
    refine hu.invariant (I := fun es u => (∀ req'', .start i req'' ∉ es) → u.threads i = none) (fun _ => ?_) ?_ hnone
    · cases hfirst with
      | answer serving => simp [Pool.setThread]
    · intro es t e v ih hstep hes
      have hold := ih fun req'' hmem => hes req'' (List.mem_append_left _ hmem)
      cases hstep with
      | @start j req idle =>
        have hne : i ≠ j := fun he => hes req (by simp [he])
        simpa [Pool.setThread, hne] using hold
      | @call j req past op next ans w serving made =>
        have hne : i ≠ j := fun he => by rw [← he, hold] at serving; cases serving
        simpa [Pool.setThread, hne] using hold
      | @answer j req past result serving =>
        have hne : i ≠ j := fun he => by rw [← he, hold] at serving; cases serving
        simpa [Pool.setThread, hne] using hold
  obtain ⟨u, v, hu, hsecond, -⟩ := hrest.split_at
  cases hsecond with
  | answer serving =>
    rw [hidle hu] at serving
    cases serving

end

/-! ## A program that runs alone -/

section
variable (exec : σ → Call Ans → σ → Prop)

/-- A program makes all its calls, from `s` to the last state, and no other thread makes one meanwhile. -/
inductive Alone : σ → Prog Ans α → α → σ → Prop where
  | done (s : σ) (a : α) : Alone s (.done a) a s
  | call {s t u : σ} {op : Op} {next : Ans op → Prog Ans α} {ans : Ans op} {a : α}
      (made : exec s ⟨op, ans⟩ t) (rest : Alone t (next ans) a u) : Alone s (.call op next) a u

variable {exec} {s u : σ} {a : α} {b : β}

@[simp] theorem alone_pure {a' : α} : Alone exec s (pure a : Prog Ans α) a' u ↔ a = a' ∧ s = u := by
  constructor
  · intro h
    cases h
    exact ⟨rfl, rfl⟩
  · rintro ⟨rfl, rfl⟩
    exact .done s a

theorem alone_call {op : Op} {next : Ans op → Prog Ans α} :
    Alone exec s (.call op next) a u ↔ ∃ ans t, exec s ⟨op, ans⟩ t ∧ Alone exec t (next ans) a u := by
  constructor
  · intro h
    cases h with
    | call made rest => exact ⟨_, _, made, rest⟩
  · rintro ⟨ans, t, made, rest⟩
    exact .call made rest

theorem alone_bind {p : Prog Ans α} {k : α → Prog Ans β} :
    Alone exec s (p >>= k) b u ↔ ∃ a t, Alone exec s p a t ∧ Alone exec t (k a) b u := by
  induction p generalizing s with
  | done a =>
    constructor
    · exact fun h => ⟨a, s, .done s a, h⟩
    · rintro ⟨a', t, h, hk⟩
      cases h
      exact hk
  | call op next ih =>
    show Alone exec s (.call op fun ans => (next ans).bind k) b u ↔ _
    rw [alone_call]
    constructor
    · rintro ⟨ans, t, made, rest⟩
      obtain ⟨a, t', hp, hk⟩ := (ih ans).mp rest
      exact ⟨a, t', .call made hp, hk⟩
    · rintro ⟨a, t', hp, hk⟩
      cases hp with
      | call made rest => exact ⟨_, _, made, (ih _).mpr ⟨a, t', rest, hk⟩⟩

/-- The first call of a program, and the rest. -/
theorem alone_perform_bind {op : Op} {k : Ans op → Prog Ans α} :
    Alone exec s (Prog.perform op >>= k) a u ↔
      ∃ ans t, exec s ⟨op, ans⟩ t ∧ Alone exec t (k ans) a u := alone_call

theorem Alone.mono {exec' : σ → Call Ans → σ → Prop} (hle : ∀ s c t, exec s c t → exec' s c t) {p : Prog Ans α}
    (h : Alone exec s p a u) : Alone exec' s p a u := by
  induction h with
  | done s a => exact .done s a
  | call made rest ih => exact .call (hle _ _ _ made) ih

/-- The result and the last state of a program that runs alone, if every call returns. -/
def runAlone (execOne : (op : Op) → σ → Option (Ans op × σ)) : Prog Ans α → σ → Option (α × σ)
  | .done a, s => some (a, s)
  | .call op next, s =>
    match execOne op s with
    | none => none
    | some (ans, t) => runAlone execOne (next ans) t

theorem alone_of_runAlone {execOne : (op : Op) → σ → Option (Ans op × σ)} {p : Prog Ans α} {r : α × σ}
    (h : runAlone execOne p s = some r) : Alone (fun s c t => execOne c.op s = some (c.ans, t)) s p r.1 r.2 := by
  induction p generalizing s with
  | done a =>
    obtain rfl := Option.some.inj h
    exact .done s a
  | call op next ih =>
    rw [runAlone] at h
    split at h
    · cases h
    · rename_i ans t hexec
      exact .call hexec (ih ans h)

end

/-! ## What a program ensures that runs alone -/

/-- From a state that meets `P`, a program that runs alone and ends does so with a result and a state that meet
`Q`. -/
def Ensures (exec : σ → Call Ans → σ → Prop) (P : σ → Prop) (p : Prog Ans α) (Q : α → σ → Prop) : Prop :=
  ∀ s a t, P s → Alone exec s p a t → Q a t

namespace Ensures
variable {exec : σ → Call Ans → σ → Prop} {P P' : σ → Prop} {Q Q' : α → σ → Prop} {p q : Prog Ans α}

theorem pure {a : α} (h : ∀ s, P s → Q a s) : Ensures exec P (Pure.pure a : Prog Ans α) Q := by
  intro s b t hs halone
  obtain ⟨rfl, rfl⟩ := alone_pure.mp halone
  exact h s hs

theorem bind {R : α → σ → Prop} {k : α → Prog Ans β} {Q : β → σ → Prop} (hp : Ensures exec P p R)
    (hk : ∀ a, Ensures exec (R a) (k a) Q) : Ensures exec P (p >>= k) Q := by
  intro s b u hs halone
  obtain ⟨a, t, hfirst, hrest⟩ := alone_bind.mp halone
  exact hk a t b u (hp s a t hs hfirst) hrest

theorem perform {op : Op} {Q : Ans op → σ → Prop} (h : ∀ s ans t, P s → exec s ⟨op, ans⟩ t → Q ans t) :
    Ensures exec P (Prog.perform op) Q := by
  intro s ans u hs halone
  obtain ⟨ans', t, made, hdone⟩ := alone_call.mp halone
  obtain ⟨rfl, rfl⟩ := alone_pure.mp hdone
  exact h s ans' t hs made

theorem ite {c : Prop} [Decidable c] (hp : c → Ensures exec P p Q) (hq : ¬ c → Ensures exec P q Q) :
    Ensures exec P (if c then p else q) Q := by
  split
  · exact hp ‹c›
  · exact hq ‹¬ c›

theorem mono (h : Ensures exec P p Q) (hP : ∀ s, P' s → P s) (hQ : ∀ a s, Q a s → Q' a s) : Ensures exec P' p Q' :=
  fun s a t hs halone => hQ a t (h s a t (hP s hs) halone)

/-- What holds of every state that meets `P` may be assumed. -/
theorem assume {φ : Prop} (hP : ∀ s, P s → φ) (h : φ → Ensures exec P p Q) : Ensures exec P p Q :=
  fun s a t hs halone => h (hP s hs) s a t hs halone

theorem exists_pre {ι : Type} {P : ι → σ → Prop} (h : ∀ i, Ensures exec (P i) p Q) :
    Ensures exec (fun s => ∃ i, P i s) p Q := by
  rintro s a t ⟨i, hs⟩ halone
  exact h i s a t hs halone

/-- Calls that keep a property, in a program that makes no others. -/
theorem of_only {ok : Op → Prop} (h : Prog.Only ok p) (hkeep : ∀ s op ans t, ok op → P s → exec s ⟨op, ans⟩ t → P t) :
    Ensures exec P p fun _ => P := by
  induction p with
  | done a => exact pure fun s hs => hs
  | call op next ih =>
    intro s a u hs halone
    obtain ⟨ans, t, made, hrest⟩ := alone_call.mp halone
    exact ih ans (h.2 ans) t a u (hkeep s op ans t h.1 hs made) hrest

end Ensures

/-! ## Schedules -/

/-- The next thing a thread does: it takes a request, or goes on with what the environment supplies. -/
inductive Turn (Req Env : Type) where
  | take (req : Req)
  | go (env : Env)

section
variable {Env : Type} (execWith : Env → (op : Op) → σ → Option (Ans op × σ)) (body : Req → Prog Ans α)
  (guard : Pool σ Req Ans α → Event Req Ans α → Prop) [∀ p e, Decidable (guard p e)]

/-- One turn of thread `i`. -/
def takeTurn (p : Pool σ Req Ans α) (i : Nat) :
    Turn Req Env → Option (Event Req Ans α × Pool σ Req Ans α)
  | .take req =>
    match p.threads i with
    | none => some (.start i req, p.setThread i (some ⟨req, [], body req⟩))
    | some _ => none
  | .go env =>
    match p.threads i with
    | none => none
    | some ⟨req, past, .done result⟩ => some (.answer i req past result, p.setThread i none)
    | some ⟨req, past, .call op next⟩ =>
      match execWith env op p.state with
      | none => none
      | some (ans, s) => some (.call i req past ⟨op, ans⟩,
          { p.setThread i (some ⟨req, past ++ [⟨op, ans⟩], next ans⟩) with state := s })

/-- Turns one after another, as long as the guard admits the steps. -/
def runSchedule : Pool σ Req Ans α → List (Nat × Turn Req Env) →
    Option (List (Event Req Ans α) × Pool σ Req Ans α)
  | p, [] => some ([], p)
  | p, (i, turn) :: turns =>
    match takeTurn execWith body p i turn with
    | none => none
    | some (e, q) =>
      if guard p e then (runSchedule q turns).map fun r => (e :: r.1, r.2) else none

/-- The calls that some environment answers so. -/
def ExecSome (s : σ) (c : Call Ans) (s' : σ) : Prop := ∃ env, execWith env c.op s = some (c.ans, s')

variable {execWith body guard}

/-- A program goes on alone with the only answer that its first call can get. -/
theorem Alone.known {s t u : σ} {b : α} {op : Op} {ans : Ans op} {k : Ans op → Prog Ans α}
    (hanswer : ∀ env, execWith env op s = some (ans, t))
    (h : Alone (ExecSome execWith) s (Prog.perform op >>= k) b u) : Alone (ExecSome execWith) t (k ans) b u := by
  obtain ⟨ans', t', ⟨env, hexec⟩, hrest⟩ := alone_perform_bind.mp h
  obtain ⟨rfl, rfl⟩ := Prod.mk.inj (Option.some.inj (hexec.symm.trans (hanswer env)))
  exact hrest

theorem step_of_takeTurn {p p' : Pool σ Req Ans α} {i : Nat} {turn : Turn Req Env}
    {e : Event Req Ans α} (h : takeTurn execWith body p i turn = some (e, p')) :
    PoolStep (ExecSome execWith) body p e p' := by
  cases turn with
  | take req =>
    simp only [takeTurn] at h
    split at h
    · rename_i idle
      obtain ⟨rfl, rfl⟩ := Prod.mk.inj (Option.some.inj h)
      exact .start req idle
    · cases h
  | go env =>
    simp only [takeTurn] at h
    split at h
    · cases h
    · rename_i serving
      obtain ⟨rfl, rfl⟩ := Prod.mk.inj (Option.some.inj h)
      exact .answer serving
    · rename_i serving
      split at h
      · cases h
      · rename_i made
        obtain ⟨rfl, rfl⟩ := Prod.mk.inj (Option.some.inj h)
        exact .call serving ⟨env, made⟩

/-- **A schedule that goes through is a run.** -/
theorem run_of_schedule {p p' : Pool σ Req Ans α} {turns : List (Nat × Turn Req Env)}
    {es : List (Event Req Ans α)} (h : runSchedule execWith body guard p turns = some (es, p')) :
    Run (Guarded guard (PoolStep (ExecSome execWith) body)) p es p' := by
  induction turns generalizing p es with
  | nil =>
    obtain ⟨rfl, rfl⟩ := Prod.mk.inj (Option.some.inj h)
    exact .nil
  | cons turn turns ih =>
    rw [runSchedule] at h
    split at h
    · cases h
    · rename_i e q hturn
      split at h
      · rename_i hguard
        obtain ⟨⟨es', q'⟩, hrest, h⟩ := Option.map_eq_some_iff.mp h
        obtain ⟨rfl, rfl⟩ := Prod.mk.inj h
        exact Run.cons ⟨hguard, step_of_takeTurn hturn⟩ (ih hrest)
      · cases h

variable (execWith body guard) in
/-- The events and the pool at the end of a schedule; nothing has happened if it does not go through. -/
def scheduledRun (p : Pool σ Req Ans α) (turns : List (Nat × Turn Req Env)) :
    List (Event Req Ans α) × Pool σ Req Ans α :=
  (runSchedule execWith body guard p turns).getD ([], p)

theorem run_scheduledRun (p : Pool σ Req Ans α) (turns : List (Nat × Turn Req Env)) :
    Run (Guarded guard (PoolStep (ExecSome execWith) body)) p
      (scheduledRun execWith body guard p turns).1 (scheduledRun execWith body guard p turns).2 := by
  rw [scheduledRun]
  cases h : runSchedule execWith body guard p turns with
  | none => exact .nil
  | some r => exact run_of_schedule h

/-- A turn leaves the other threads as they are. -/
theorem threads_of_takeTurn {p p' : Pool σ Req Ans α} {i j : Nat} {turn : Turn Req Env} {e : Event Req Ans α}
    (h : takeTurn execWith body p i turn = some (e, p')) (hj : j ≠ i) : p'.threads j = p.threads j := by
  have hset : ∀ th, (p.setThread i th).threads j = p.threads j := fun _ => Function.update_of_ne hj _ _
  cases turn with
  | take req =>
    simp only [takeTurn] at h
    split at h
    · obtain ⟨rfl, rfl⟩ := Prod.mk.inj (Option.some.inj h)
      exact hset _
    · cases h
  | go env =>
    simp only [takeTurn] at h
    split at h
    · cases h
    · obtain ⟨rfl, rfl⟩ := Prod.mk.inj (Option.some.inj h)
      exact hset _
    · split at h
      · cases h
      · obtain ⟨rfl, rfl⟩ := Prod.mk.inj (Option.some.inj h)
        exact hset _

/-- A thread without a turn is as it was. -/
theorem threads_of_schedule {p : Pool σ Req Ans α} {turns : List (Nat × Turn Req Env)} {j : Nat}
    (hj : ∀ turn ∈ turns, j ≠ turn.1) : (scheduledRun execWith body guard p turns).2.threads j = p.threads j := by
  rw [scheduledRun]
  cases h : runSchedule execWith body guard p turns with
  | none => rfl
  | some r =>
    rw [Option.getD_some]
    induction turns generalizing p r with
    | nil =>
      cases h
      rfl
    | cons turn turns ih =>
      rw [runSchedule] at h
      split at h
      · cases h
      · rename_i e q hturn
        split at h
        · obtain ⟨r', hrest, rfl⟩ := Option.map_eq_some_iff.mp h
          exact (ih (fun t ht => hj t (List.mem_cons_of_mem _ ht)) r' hrest).trans
            (threads_of_takeTurn hturn (hj turn List.mem_cons_self))
        · cases h

end

end NetworkFileShare
