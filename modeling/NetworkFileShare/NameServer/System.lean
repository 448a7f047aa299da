import NetworkFileShare.NameServer.Handlers
import NetworkFileShare.StorageServer.Effects

/-!
# The name server with its storage servers

* `nmCommand` : the command that a storage server reads in a message of the name server;
* `System` : the name server and the storage servers by their ids; `NmOp.execSystem` : the calls of the name
  server's threads, where an exchange is answered by the storage server of the slot;
* `SystemStep` : a thread of the name server goes on, a client is served by a storage server, or a storage server
  is started again; `SystemInv` : the invariant of every system reached.

A file on a storage server may have several names: the path `p` names the file `ρ p`.
-/

namespace NetworkFileShare

/-! ## Messages to a storage server -/

/-- The cases of `handle_nm_communication`, with the fields they read. -/
def nmCommand (msg : Message) : Option NmCommand :=
  if msg.type = MSG_CHECK_LOCKS then some (.checkLocks msg.filename)
  else if msg.type = MSG_CHECKPOINT then some (.checkpoint msg.filename msg.checkpointTag)
  else if msg.type = MSG_VIEWCHECKPOINT then some (.viewCheckpoint msg.filename msg.checkpointTag)
  else if msg.type = MSG_REVERT then some (.revert msg.filename msg.checkpointTag)
  else if msg.type = MSG_MOVE then some (.move msg.filename msg.data.str msg.targetPath.str)
  else if msg.type = MSG_CREATE then some (.create msg.filename)
  else if msg.type = MSG_DELETE then some (.delete msg.filename)
  else if msg.type = MSG_SS_INFO ∧ msg.data.str = lit "READ_CONTENT" then some (.readContent msg.filename)
  else none

/-- The message that carries a reply. -/
def Reply.message (reply : Reply) (id : Int32) : Message :=
  { initMessage with ssId := id, status := reply.status, data := .strncpy (MAX_BUFFER - 1) reply.data }

/-! ## The system -/

structure System where
  nm : NameServer
  servers : Int32 → StorageServer

/-- What comes from outside while one call runs: also what the storage server's calls give, and whether the
message of an exchange gets to it. -/
structure SystemEnv extends NmEnv where
  io : FsIo
  handled : Bool

namespace System

def setServer (s : System) (id : Int32) (server : StorageServer) : System :=
  { s with servers := Function.update s.servers id server }

/-- An exchange with the storage server of a slot, which works call by call. Without a reply the handler goes on with
what its memory held before, whether the message has been handled or not. -/
def exchange (ρ : Path → Path) (env : SystemEnv) (s : System) (idx : Nat) (msg : Message) :
    (Bool × Message) × System :=
  match s.nm.ssList[idx]? with
  | none => ((false, env.reply), s)
  | some info =>
    match nmCommand msg with
    | none => ((env.received, env.reply), s)
    | some c =>
      if env.handled then
        match Stdio.handled ρ env.io (s.servers info.id) (.command c) with
        | (server, reply) =>
          ((env.received, if env.received then reply.message info.id else env.reply), s.setServer info.id server)
      else ((false, env.reply), s)

end System

/-- One call of a thread of the name server. -/
def NmOp.execSystem (ρ : Path → Path) (env : SystemEnv) : (op : NmOp) → System → Option (op.Ans × System)
  | .exchange idx msg, s => some (s.exchange ρ env idx msg)
  | op, s => (op.exec env.toNmEnv s.nm).map fun r => (r.1, { s with nm := r.2 })

/-- The calls that `env` answers so. -/
def ExecIn (ρ : Path → Path) (env : SystemEnv) (s : System) (c : NmCall) (t : System) : Prop :=
  c.op.execSystem ρ env s = some (c.ans, t)

abbrev SystemPool := Pool System NmRequest NmOp.Ans (Option Message)

inductive SystemEvent where
  | nm (e : NmEvent)
  | client (id : Int32) (io : FsIo) (r : Request)
  | restart (id : Int32)

/-- One step of the system. -/
inductive SystemStep (ρ : Path → Path) : SystemPool → SystemEvent → SystemPool → Prop where
  | nm {p q : SystemPool} {e : NmEvent} (step : PoolStep (ExecSome (NmOp.execSystem ρ)) nmBody p e q) :
      SystemStep ρ p (.nm e) q
  | client {p : SystemPool} (id : Int32) (io : FsIo) (r : Request) :
      SystemStep ρ p (.client id io r)
        { p with state := p.state.setServer id (Stdio.handled ρ io (p.state.servers id) (.client r)).1 }
  | restart {p : SystemPool} (id : Int32) :
      SystemStep ρ p (.restart id)
        { p with state := p.state.setServer id (freshServer id (p.state.servers id).disk) }

/-- The same, whatever the paths name when the step comes. -/
def AnySystemStep (p : SystemPool) (e : SystemEvent) (q : SystemPool) : Prop := ∃ ρ, SystemStep ρ p e q

/-- The name server has just been started, and so have the storage servers on the files they find. -/
def initSystem (disks : Int32 → Disk) : System := ⟨initNameServer, fun id => freshServer id (disks id)⟩

/-! ## The invariant -/

/-- Every storage server keeps its invariant, under its own id. -/
def SystemInv (s : System) : Prop := ∀ id, StoreInv (s.servers id) ∧ (s.servers id).id = id

section Invariant
variable {ρ : Path → Path} {s t : System} {env : SystemEnv}

theorem SystemInv.setServer (h : SystemInv s) {id : Int32} {server : StorageServer} (hinv : StoreInv server)
    (hid : server.id = id) : SystemInv (s.setServer id server) := by
  intro id'
  show StoreInv (Function.update s.servers id server id') ∧ (Function.update s.servers id server id').id = id'
  by_cases he : id' = id
  · subst he
    rw [Function.update_self]
    exact ⟨hinv, hid⟩
  · rw [Function.update_of_ne he]
    exact h id'

theorem SystemInv.operation (h : SystemInv s) (ρ : Path → Path) (id : Int32) (io : FsIo) (op : Operation) :
    SystemInv (s.setServer id (Stdio.handled ρ io (s.servers id) op).1) := by
  obtain ⟨hinv, hid⟩ := h id
  have heffect := Stdio.handled_effect hinv ρ io op
  exact h.setServer heffect.inv (heffect.id.trans hid)

theorem execSystem_eq {op : NmOp} (hne : ∀ idx msg, op ≠ .exchange idx msg) :
    op.execSystem ρ env s = (op.exec env.toNmEnv s.nm).map fun r => (r.1, { s with nm := r.2 }) := by
  cases op with
  | exchange idx msg => exact absurd rfl (hne idx msg)
  | _ => rfl

/-- The storage servers take no part in a call that is not an exchange. -/
theorem servers_of_exec {op : NmOp} {ans : op.Ans} (hne : ∀ idx msg, op ≠ .exchange idx msg)
    (h : op.execSystem ρ env s = some (ans, t)) :
    t.servers = s.servers ∧ op.exec env.toNmEnv s.nm = some (ans, t.nm) := by
  rw [execSystem_eq hne] at h
  obtain ⟨r, hr, he⟩ := Option.map_eq_some_iff.mp h
  obtain ⟨rfl, rfl⟩ := Prod.mk.inj he
  exact ⟨rfl, hr⟩

/-- A call of a program that runs alone and is not an exchange. -/
theorem alone_nm {α : Type} {op : NmOp} {k : op.Ans → Handler α} {a : α} {u : System}
    (hne : ∀ idx msg, op ≠ .exchange idx msg) (h : Alone (ExecIn ρ env) s (NmOp.perform op >>= k) a u) :
    ∃ ans nm, op.exec env.toNmEnv s.nm = some (ans, nm) ∧ Alone (ExecIn ρ env) { s with nm := nm } (k ans) a u := by
  obtain ⟨ans, t, made, rest⟩ := alone_perform_bind.mp h
  obtain ⟨hservers, hexec⟩ := servers_of_exec hne made
  refine ⟨ans, t.nm, hexec, ?_⟩
  rwa [show t = { s with nm := t.nm } by rw [← hservers]] at rest

/-- An exchange looks at the slots only, of all that the name server has. -/
theorem exchange_of_ssList {nm : NameServer} (h : nm.ssList = s.nm.ssList) (ρ : Path → Path) (env : SystemEnv)
    (idx : Nat) (msg : Message) :
    ({ s with nm := nm } : System).exchange ρ env idx msg =
      ((s.exchange ρ env idx msg).1, { (s.exchange ρ env idx msg).2 with nm := nm }) := by
  unfold System.exchange
  rw [h]
  split
  · rfl
  · split
    · rfl
    · split <;> rfl

/-- What a handler that runs alone gets from an exchange. -/
theorem alone_exchangeWith {α : Type} {idx : Nat} {msg : Message} {k : Bool × Message → Handler α} {a : α} {u : System}
    (h : Alone (ExecIn ρ env) s (exchangeWith idx msg >>= k) a u) :
    ∃ nm : NameServer, nm.fileTrie = s.nm.fileTrie ∧
      Alone (ExecIn ρ env) { (s.exchange ρ env idx msg).2 with nm := nm } (k (s.exchange ρ env idx msg).1) a u := by
  obtain ⟨reply, v, hexchange, rest⟩ := alone_bind.mp h
  obtain ⟨ack, nm, hlock, hcall⟩ := alone_nm (fun _ _ he => by cases he) hexchange
  have hheld : nm = s.nm.setHeld (.ssSock idx) true := by
    rw [NmOp.exec] at hlock
    split at hlock
    · cases hlock
    · exact (Prod.mk.inj (Option.some.inj hlock)).2.symm
  obtain ⟨reply', t, hreply, hunlock⟩ := alone_perform_bind.mp hcall
  have hslots : nm.ssList = s.nm.ssList := by rw [hheld]; rfl
  have hreply := (exchange_of_ssList hslots ρ env idx msg).symm.trans (Option.some.inj hreply)
  obtain ⟨hr, ht⟩ := Prod.mk.inj hreply
  subst ht
  obtain ⟨ack', nm', hfree, hdone⟩ := alone_nm (fun _ _ he => by cases he) hunlock
  have hfree' : nm' = nm.setHeld (.ssSock idx) false := (Prod.mk.inj (Option.some.inj hfree)).2.symm
  obtain ⟨rfl, rfl⟩ := alone_pure.mp hdone
  refine ⟨nm', by rw [hfree', hheld]; rfl, ?_⟩
  rw [show (s.exchange ρ env idx msg).1 = reply' from hr]
  exact rest

theorem SystemInv.exchange (h : SystemInv s) (ρ : Path → Path) (env : SystemEnv) (idx : Nat) (msg : Message) :
    SystemInv (s.exchange ρ env idx msg).2 := by
  unfold System.exchange
  split
  · exact h
  · rename_i info _
    split
    · exact h
    · rename_i c _
      split
      · exact h.operation ρ info.id env.io (.command c)
      · exact h

theorem SystemInv.call (h : SystemInv s) {op : NmOp} {ans : op.Ans} (hexec : op.execSystem ρ env s = some (ans, t)) :
    SystemInv t := by
  by_cases hop : ∃ idx msg, op = .exchange idx msg
  · obtain ⟨idx, msg, rfl⟩ := hop
    have ht : (s.exchange ρ env idx msg).2 = t := congrArg Prod.snd (Option.some.inj hexec)
    rw [← ht]
    exact h.exchange ρ env idx msg
  · have hservers := (servers_of_exec (fun idx msg he => hop ⟨idx, msg, he⟩) hexec).1
    intro id
    rw [hservers]
    exact h id

/-- **The invariant holds in every system that is reached.** -/
theorem SystemInv.of_run {disks : Int32 → Disk} {es : List SystemEvent} {p : SystemPool}
    (h : Run AnySystemStep (.idle (initSystem disks)) es p) : SystemInv p.state := by
  refine h.state_invariant (I := fun p => SystemInv p.state) (fun id => ⟨StoreInv.fresh id _, rfl⟩) ?_
  rintro p e q hinv ⟨ρ, hstep⟩
  cases hstep with
  | nm step =>
    cases step with
    | start req idle => exact hinv
    | call serving made =>
      obtain ⟨env, hexec⟩ := made
      exact hinv.call hexec
    | answer serving => exact hinv
  | client id io r => exact hinv.operation ρ id io (.client r)
  | restart id => exact hinv.setServer (StoreInv.fresh id _) rfl

end Invariant

/-- The threads of the name server make a run of the system. -/
theorem run_system {ρ : Path → Path} {p q : SystemPool} {es : List NmEvent}
    (h : Run (PoolStep (ExecSome (NmOp.execSystem ρ)) nmBody) p es q) :
    Run (SystemStep ρ) p (es.map .nm) q := by
  induction h with
  | nil => exact .nil
  | snoc run last ih =>
    rw [List.map_append]
    exact ih.snoc (.nm last)

/-! ## Schedules of a system -/

/-- Every exchange goes through, and every loop of the cache gets as far as it has to. -/
def smoothEnv : SystemEnv where
  fuel := 200
  now := 0
  received := true
  reply := initMessage
  output := none
  text := []
  outside := 0
  io := .allOpens
  handled := true

/-- `n` steps of a thread. -/
def goesSmoothly (i n : Nat) : List (Nat × Turn NmRequest SystemEnv) := List.replicate n (i, .go smoothEnv)

/-- A request of a thread, and its first `n` steps. -/
def servesSmoothly (i : Nat) (req : NmRequest) (n : Nat) : List (Nat × Turn NmRequest SystemEnv) :=
  (i, .take req) :: goesSmoothly i n

end NetworkFileShare
