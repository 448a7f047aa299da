import NetworkFileShare.Lib.Interleave

/-!
# Programs beside a monitor

A monitor has a state of its own, which every call of a program changes.

* `Trace p cs q` : `p` has made the calls `cs`, and `q` is what is left of it; `follow` finds one;
* `Monitored observe rely good post p s` : from `s` on, as long as the answers meet `rely`, every call meets `good` in
  the state of the monitor, and the result meets `post`; the rules take a program apart;
* `Monitored.of_trace` : what this says of the calls that a program makes.
-/

namespace NetworkFileShare

variable {Op : Type} {Ans : Op → Type} {α β σ : Type}

/-- The program `p` has made the calls `cs`, and `q` is left. -/
inductive Trace : Prog Ans α → List (Call Ans) → Prog Ans α → Prop where
  | nil (p : Prog Ans α) : Trace p [] p
  | cons {op : Op} {next : Ans op → Prog Ans α} {ans : Ans op} {cs : List (Call Ans)} {q : Prog Ans α}
      (rest : Trace (next ans) cs q) : Trace (.call op next) (⟨op, ans⟩ :: cs) q

/-- The first `n` calls, with the answers that `answer` gives, and what is left. -/
def follow (answer : Nat → (op : Op) → Ans op) : (n k : Nat) → Prog Ans α → List (Call Ans) × Prog Ans α
  | 0, _, p => ([], p)
  | _ + 1, _, .done a => ([], .done a)
  | n + 1, k, .call op next =>
    let r := follow answer n (k + 1) (next (answer k op))
    (⟨op, answer k op⟩ :: r.1, r.2)

theorem trace_follow (answer : Nat → (op : Op) → Ans op) : ∀ (n k : Nat) (p : Prog Ans α),
    Trace p (follow answer n k p).1 (follow answer n k p).2
  | 0, _, p => .nil p
  | _ + 1, _, .done a => .nil (.done a)
  | n + 1, k, .call _ _ => .cons (trace_follow answer n (k + 1) _)

section
variable (observe : σ → Call Ans → σ) (rely : σ → Call Ans → Prop) (good : σ → Op → Prop)

/-- The answers meet `rely`, each in the state that the monitor has then. -/
def Relied : σ → List (Call Ans) → Prop
  | _, [] => True
  | s, c :: cs => rely s c ∧ Relied (observe s c) cs

instance decidableRelied [∀ s c, Decidable (rely s c)] : ∀ s cs, Decidable (Relied observe rely s cs)
  | _, [] => inferInstanceAs (Decidable True)
  | s, c :: cs =>
    have := decidableRelied (observe s c) cs
    inferInstanceAs (Decidable (_ ∧ _))

/-- Every call is good in the state of the monitor, and the result meets `post`. -/
def Monitored (post : α → σ → Prop) : Prog Ans α → σ → Prop
  | .done a, s => post a s
  | .call op next, s => good s op ∧ ∀ ans, rely s ⟨op, ans⟩ → Monitored post (next ans) (observe s ⟨op, ans⟩)

end

namespace Monitored
variable {observe : σ → Call Ans → σ} {rely : σ → Call Ans → Prop} {good : σ → Op → Prop} {post post' : α → σ → Prop}
  {s : σ}

theorem pure {a : α} (h : post a s) : Monitored observe rely good post (Pure.pure a : Prog Ans α) s := h

theorem perform {op : Op} {post : Ans op → σ → Prop} (h : good s op)
    (hpost : ∀ ans, rely s ⟨op, ans⟩ → post ans (observe s ⟨op, ans⟩)) :
    Monitored observe rely good post (Prog.perform op) s := ⟨h, hpost⟩

/-- The first call of a program, and the rest. -/
theorem call {op : Op} {k : Ans op → Prog Ans α} (h : good s op)
    (hk : ∀ ans, rely s ⟨op, ans⟩ → Monitored observe rely good post (k ans) (observe s ⟨op, ans⟩)) :
    Monitored observe rely good post (Prog.perform op >>= k) s := ⟨h, hk⟩

theorem mono {p : Prog Ans α} (h : Monitored observe rely good post p s) (hle : ∀ a s, post a s → post' a s) :
    Monitored observe rely good post' p s := by
  induction p generalizing s with
  | done a => exact hle a s h
  | call op next ih => exact ⟨h.1, fun ans hans => ih ans (h.2 ans hans)⟩

theorem bind {mid : α → σ → Prop} {post : β → σ → Prop} {p : Prog Ans α} {k : α → Prog Ans β}
    (hp : Monitored observe rely good mid p s)
    (hk : ∀ a s, mid a s → Monitored observe rely good post (k a) s) :
    Monitored observe rely good post (p >>= k) s := by
  induction p generalizing s with
  | done a => exact hk a s hp
  | call op next ih => exact ⟨hp.1, fun ans hans => ih ans (hp.2 ans hans)⟩

theorem ite {c : Prop} [Decidable c] {p q : Prog Ans α} (hp : c → Monitored observe rely good post p s)
    (hq : ¬ c → Monitored observe rely good post q s) : Monitored observe rely good post (if c then p else q) s := by
  split
  · exact hp ‹c›
  · exact hq ‹¬ c›

/-- **What is left of a program** goes on so, from the state that the calls have brought the monitor to. -/
theorem of_trace {p q : Prog Ans α} {cs : List (Call Ans)} (h : Monitored observe rely good post p s)
    (htrace : Trace p cs q) (hrely : Relied observe rely s cs) :
    Monitored observe rely good post q (cs.foldl observe s) := by
  induction htrace generalizing s with
  | nil p => exact h
  | cons rest ih => exact ih (h.2 _ hrely.1) hrely.2

end Monitored

end NetworkFileShare
