import NetworkFileShare.Lib.Monitor
import NetworkFileShare.Lib.Run

/-!
# A client that waits for its answers

* `Served`, `ServedStep` : a program, a server and the two directions of the connection between them, in which the
  server may be busy for others between any two steps;
* `Talk` : the requests of the program with their answers, as they would be if nothing were ever on the way;
* `Talk.Current` : how the two belong together while the program waits for each answer (`Talk.Waits`);
* `Served.talk`, `Served.result` : what a monitored program has asked and been answered is what the server has handled,
  in the same order; `Served.server_invariant` : what the server keeps beside that;
* `Served.drive` : a run in which the server answers at once.
-/

namespace NetworkFileShare

variable {Op : Type} {Ans : Op → Type} {α Req Rep ι σ ε : Type}

/-- What a call does to the connection. -/
inductive Traffic (Req Rep : Type) where
  | sends (r : Req)
  | receives (a : Rep)
  | silent

/-- A program, a server, what is on the way between them, and what the server has answered so far. -/
structure Served (Ans : Op → Type) (α Req Rep σ : Type) where
  client : Prog Ans α
  server : σ
  requests : List Req
  replies : List Rep
  answered : List (Req × Rep)

inductive ServedEvent (Ans : Op → Type) (ι ε : Type) where
  | call (c : Call Ans)
  | serve (io : ι)
  | other (e : ε)

/-- What the server does meets `P` or `Q`. -/
def ServedEvent.Meets (P : ι → Prop) (Q : ε → Prop) : ServedEvent Ans ι ε → Prop
  | .call _ => True
  | .serve io => P io
  | .other e => Q e

section
variable (traffic : Call Ans → Option (Traffic Req Rep)) (serve : ι → σ → Req → σ × Rep) (others : σ → ε → σ → Prop)

/-- The program makes its next call, the server handles a request, or it does something else. A call without traffic is
one that fails. -/
inductive ServedStep (s : Served Ans α Req Rep σ) : ServedEvent Ans ι ε → Served Ans α Req Rep σ → Prop where
  | sends {op : Op} {next : Ans op → Prog Ans α} {ans : Ans op} {r : Req} (client : s.client = .call op next)
      (call : traffic ⟨op, ans⟩ = some (.sends r)) :
      ServedStep s (.call ⟨op, ans⟩) { s with client := next ans, requests := s.requests ++ [r] }
  | receives {op : Op} {next : Ans op → Prog Ans α} {ans : Ans op} {a : Rep} {rest : List Rep}
      (client : s.client = .call op next) (call : traffic ⟨op, ans⟩ = some (.receives a))
      (replies : s.replies = a :: rest) :
      ServedStep s (.call ⟨op, ans⟩) { s with client := next ans, replies := rest }
  | silent {op : Op} {next : Ans op → Prog Ans α} {ans : Ans op} (client : s.client = .call op next)
      (call : traffic ⟨op, ans⟩ = some .silent) : ServedStep s (.call ⟨op, ans⟩) { s with client := next ans }
  | serve {io : ι} {r : Req} {rest : List Req} (requests : s.requests = r :: rest) :
      ServedStep s (.serve io)
        { s with
          server := (serve io s.server r).1
          requests := rest
          replies := s.replies ++ [(serve io s.server r).2]
          answered := s.answered ++ [(r, (serve io s.server r).2)] }
  | other {e : ε} {t : σ} (step : others s.server e t) : ServedStep s (.other e) { s with server := t }

end

/-- Nothing has been sent yet. -/
def Served.start (p : Prog Ans α) (s : σ) : Served Ans α Req Rep σ := ⟨p, s, [], [], []⟩

/-! ## Requests and answers -/

/-- The request that waits for its answer, and those that have been answered. -/
structure Talk (Req Rep : Type) where
  pending : Option Req
  answered : List (Req × Rep)

namespace Talk

def start : Talk Req Rep := ⟨none, []⟩

variable (traffic : Call Ans → Option (Traffic Req Rep))

def observe (t : Talk Req Rep) (c : Call Ans) : Talk Req Rep :=
  match traffic c with
  | some (.sends r) => { t with pending := some r }
  | some (.receives a) => ⟨none, t.answered ++ (t.pending.map fun r => (r, a)).toList⟩
  | _ => t

/-- The call does not fail. -/
def Sound (_ : Talk Req Rep) (c : Call Ans) : Prop := traffic c ≠ none

/-- A request is sent when no other waits, and an answer is received when one does. -/
structure Waits (t : Talk Req Rep) (op : Op) : Prop where
  sends : ∀ ans r, traffic ⟨op, ans⟩ = some (.sends r) → t.pending = none
  receives : ∀ ans a, traffic ⟨op, ans⟩ = some (.receives a) → t.pending ≠ none

/-- What is on the way belongs to the request that waits. -/
inductive Current (t : Talk Req Rep) (s : Served Ans α Req Rep σ) : Prop where
  | idle (pending : t.pending = none) (requests : s.requests = []) (replies : s.replies = [])
      (answered : s.answered = t.answered)
  | asked {r : Req} (pending : t.pending = some r) (requests : s.requests = [r]) (replies : s.replies = [])
      (answered : s.answered = t.answered)
  | replied {r : Req} {a : Rep} (pending : t.pending = some r) (requests : s.requests = []) (replies : s.replies = [a])
      (answered : s.answered = t.answered ++ [(r, a)])

end Talk

namespace Served

variable {traffic : Call Ans → Option (Traffic Req Rep)} {serve : ι → σ → Req → σ × Rep} {others : σ → ε → σ → Prop}
  {post : α → Talk Req Rep → Prop}

/-- A program that waits for its answers, monitored by what it has asked and been answered. -/
abbrev Talks (traffic : Call Ans → Option (Traffic Req Rep)) (post : α → Talk Req Rep → Prop) (p : Prog Ans α)
    (t : Talk Req Rep) : Prop :=
  Monitored (Talk.observe traffic) (Talk.Sound traffic) (Talk.Waits traffic) post p t

theorem Talks.next {op : Op} {next : Ans op → Prog Ans α} {ans : Ans op} {t : Talk Req Rep} {c : Traffic Req Rep}
    (h : Talks traffic post (.call op next) t) (hcall : traffic ⟨op, ans⟩ = some c) :
    Talks traffic post (next ans) (Talk.observe traffic t ⟨op, ans⟩) :=
  h.2 ans (by rw [Talk.Sound, hcall]; exact Option.some_ne_none c)

/-- **One step**, of the program, the server or others. -/
theorem talk_step {s u : Served Ans α Req Rep σ} {e : ServedEvent Ans ι ε} {t : Talk Req Rep} (hcurrent : t.Current s)
    (htalks : Talks traffic post s.client t) (hstep : ServedStep traffic serve others s e u) :
    ∃ t', t'.Current u ∧ Talks traffic post u.client t' := by
  cases hstep with
  | @sends op next ans r hclient hcall =>
    rw [hclient] at htalks
    refine ⟨_, ?_, htalks.next hcall⟩
    have hnone := htalks.1.sends ans r hcall
    have hobserve : Talk.observe traffic t ⟨op, ans⟩ = { t with pending := some r } := by
      simp only [Talk.observe, hcall]
    rw [hobserve]
    cases hcurrent with
    | idle _ hrequests hreplies hanswered => exact .asked rfl (by rw [hrequests]; rfl) hreplies hanswered
    | asked hpending => exact absurd (hpending.symm.trans hnone) (Option.some_ne_none _)
    | replied hpending => exact absurd (hpending.symm.trans hnone) (Option.some_ne_none _)
  | @receives op next ans a rest hclient hcall hreply =>
    rw [hclient] at htalks
    refine ⟨_, ?_, htalks.next hcall⟩
    have hobserve : Talk.observe traffic t ⟨op, ans⟩ =
        ⟨none, t.answered ++ (t.pending.map fun r => (r, a)).toList⟩ := by
      simp only [Talk.observe, hcall]
    rw [hobserve]
    cases hcurrent with
    | idle _ _ hreplies => exact absurd (hreply.symm.trans hreplies) (List.cons_ne_nil _ _)
    | asked _ _ hreplies => exact absurd (hreply.symm.trans hreplies) (List.cons_ne_nil _ _)
    | replied hpending hrequests hreplies hanswered =>
      obtain ⟨rfl, rfl⟩ := List.cons.inj (hreply.symm.trans hreplies)
      exact .idle rfl hrequests rfl (by rw [hanswered, hpending]; rfl)
  | @silent op next ans hclient hcall =>
    rw [hclient] at htalks
    refine ⟨_, ?_, htalks.next hcall⟩
    have hobserve : Talk.observe traffic t ⟨op, ans⟩ = t := by simp only [Talk.observe, hcall]
    rw [hobserve]
    cases hcurrent with
    | idle hpending hrequests hreplies hanswered => exact .idle hpending hrequests hreplies hanswered
    | asked hpending hrequests hreplies hanswered => exact .asked hpending hrequests hreplies hanswered
    | replied hpending hrequests hreplies hanswered => exact .replied hpending hrequests hreplies hanswered
  | @serve io r rest hrequest =>
    refine ⟨t, ?_, htalks⟩
    cases hcurrent with
    | idle _ hrequests => exact absurd (hrequest.symm.trans hrequests) (List.cons_ne_nil _ _)
    | asked hpending hrequests hreplies hanswered =>
      obtain ⟨rfl, rfl⟩ := List.cons.inj (hrequest.symm.trans hrequests)
      exact .replied hpending rfl (by rw [hreplies]; rfl) (by rw [hanswered])
    | replied _ hrequests => exact absurd (hrequest.symm.trans hrequests) (List.cons_ne_nil _ _)
  | other _ =>
    refine ⟨t, ?_, htalks⟩
    cases hcurrent with
    | idle hpending hrequests hreplies hanswered => exact .idle hpending hrequests hreplies hanswered
    | asked hpending hrequests hreplies hanswered => exact .asked hpending hrequests hreplies hanswered
    | replied hpending hrequests hreplies hanswered => exact .replied hpending hrequests hreplies hanswered

/-- **A program that waits for its answers** gets them in order, whatever else the server does. -/
theorem talk {p : Prog Ans α} {v : σ} {s : Served Ans α Req Rep σ} {es : List (ServedEvent Ans ι ε)}
    (h : Talks traffic post p .start) (hrun : Run (ServedStep traffic serve others) (.start p v) es s) :
    ∃ t : Talk Req Rep, t.Current s ∧ Talks traffic post s.client t :=
  hrun.state_invariant (I := fun s => ∃ t : Talk Req Rep, t.Current s ∧ Talks traffic post s.client t)
    ⟨.start, .idle rfl rfl rfl rfl, h⟩ fun _ _ _ ⟨_, hcurrent, htalks⟩ hstep => talk_step hcurrent htalks hstep

/-- What a program asks and is answered until it ends, with no request left, is what the server has handled. -/
theorem result {p : Prog Ans α} {post : α → List (Req × Rep) → Prop} {v : σ} {s : Served Ans α Req Rep σ}
    {es : List (ServedEvent Ans ι ε)} {a : α}
    (h : Talks traffic (fun a t => t.pending = none ∧ post a t.answered) p .start)
    (hrun : Run (ServedStep traffic serve others) (.start p v) es s) (hdone : s.client = .done a) :
    post a s.answered := by
  obtain ⟨t, hcurrent, htalks⟩ := talk h hrun
  rw [hdone] at htalks
  obtain ⟨hnone, hpost⟩ : t.pending = none ∧ post a t.answered := htalks
  cases hcurrent with
  | idle _ _ _ hanswered => exact hanswered ▸ hpost
  | asked hpending => exact absurd (hpending.symm.trans hnone) (Option.some_ne_none _)
  | replied hpending => exact absurd (hpending.symm.trans hnone) (Option.some_ne_none _)

/-- **What the server keeps** beside what it has answered. -/
theorem server_invariant {I : List (Req × Rep) → σ → Prop} {P : ι → Prop} {Q : ε → Prop} {p : Prog Ans α} {v : σ}
    {s : Served Ans α Req Rep σ} {es : List (ServedEvent Ans ι ε)} (hstart : I [] v)
    (hserve : ∀ io log v r, P io → I log v → I (log ++ [(r, (serve io v r).2)]) (serve io v r).1)
    (hothers : ∀ e log v v', Q e → I log v → others v e v' → I log v')
    (hrun : Run (ServedStep traffic serve others) (.start p v) es s) (hmeets : ∀ e ∈ es, e.Meets P Q) :
    I s.answered s.server := by
  refine hrun.invariant (I := fun es s => (∀ e ∈ es, e.Meets P Q) → I s.answered s.server) (fun _ => hstart)
    (fun es s e u ih hstep hmeets => ?_) hmeets
  have h := ih fun e he => hmeets e (List.mem_append_left _ he)
  have he : e.Meets P Q := hmeets e (by simp)
  cases hstep with
  | sends => exact h
  | receives => exact h
  | silent => exact h
  | serve _ => exact hserve _ _ _ _ he h
  | other hother => exact hothers _ _ _ _ he h hother

/-! ## A run -/

/-- The run of so many steps in which the server answers at once, and the answers of the program are picked by what has
come back. -/
def drive [DecidableEq Rep] (traffic : Call Ans → Option (Traffic Req Rep)) (serve : ι → σ → Req → σ × Rep) (io : ι)
    (pick : List Rep → (op : Op) → Ans op) :
    Nat → Served Ans α Req Rep σ → List (ServedEvent Ans ι ε) × Served Ans α Req Rep σ
  | 0, s => ([], s)
  | n + 1, s =>
    match s.requests, s.client with
    | r :: rest, _ =>
      let next := drive traffic serve io pick n
        { s with
          server := (serve io s.server r).1
          requests := rest
          replies := s.replies ++ [(serve io s.server r).2]
          answered := s.answered ++ [(r, (serve io s.server r).2)] }
      (.serve io :: next.1, next.2)
    | [], .done _ => ([], s)
    | [], .call op k =>
      let ans := pick s.replies op
      match traffic ⟨op, ans⟩ with
      | some (.sends r) =>
        let next := drive traffic serve io pick n { s with client := k ans, requests := s.requests ++ [r] }
        (.call ⟨op, ans⟩ :: next.1, next.2)
      | some (.receives a) =>
        if s.replies = a :: s.replies.tail then
          let next := drive traffic serve io pick n { s with client := k ans, replies := s.replies.tail }
          (.call ⟨op, ans⟩ :: next.1, next.2)
        else ([], s)
      | some .silent =>
        let next := drive traffic serve io pick n { s with client := k ans }
        (.call ⟨op, ans⟩ :: next.1, next.2)
      | none => ([], s)

theorem run_drive [DecidableEq Rep] (io : ι) (pick : List Rep → (op : Op) → Ans op) :
    ∀ (n : Nat) (s : Served Ans α Req Rep σ), Run (ServedStep traffic serve others) s
      (drive (ε := ε) traffic serve io pick n s).1 (drive (ε := ε) traffic serve io pick n s).2
  | 0, _ => .nil
  | n + 1, s => by
    rw [drive]
    split
    next hrequests => exact .cons (.serve hrequests) (run_drive io pick n _)
    next => exact .nil
    next op k _ hclient =>
      dsimp only
      split
      next htraffic => exact .cons (.sends hclient htraffic) (run_drive io pick n _)
      next htraffic =>
        split
        next hreplies => exact .cons (.receives hclient htraffic hreplies) (run_drive io pick n _)
        next => exact .nil
      next htraffic => exact .cons (.silent hclient htraffic) (run_drive io pick n _)
      next => exact .nil

/-- In such a run the server does nothing else. -/
theorem drive_meets [DecidableEq Rep] {P : ι → Prop} {Q : ε → Prop} {io : ι} (hio : P io)
    (pick : List Rep → (op : Op) → Ans op) :
    ∀ (n : Nat) (s : Served Ans α Req Rep σ),
      ∀ e ∈ (drive (ε := ε) traffic serve io pick n s).1, e.Meets P Q
  | 0, _ => nofun
  | n + 1, s => by
    rw [drive]
    split
    next => exact List.forall_mem_cons.mpr ⟨hio, drive_meets hio pick n _⟩
    next => nofun
    next =>
      dsimp only
      split
      next => exact List.forall_mem_cons.mpr ⟨trivial, drive_meets hio pick n _⟩
      next =>
        split
        next => exact List.forall_mem_cons.mpr ⟨trivial, drive_meets hio pick n _⟩
        next => nofun
      next => exact List.forall_mem_cons.mpr ⟨trivial, drive_meets hio pick n _⟩
      next => nofun

end Served

end NetworkFileShare
