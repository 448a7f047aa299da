import NetworkFileShare.Cache.Lookup
import NetworkFileShare.Lib.Mutex
import NetworkFileShare.NameServer.Access
import NetworkFileShare.NameServer.Location

/-!
# The mutexes of the name server (`nm.c`)

* `NmOp.mutexUse` : `ss_mutex`, the mutex of the pending requests and the one of each storage server's socket, and the
  calls that are made under them;
* `handleClientMessage_mutexed`, `nmBody_mutexed` : every handler holds one of them at a time and gives it back;
* `mutexes_held` : mutual exclusion, and the requests are used, the storage servers asked and their slots filled under
  the mutex for it only, in every order of the threads' steps;
* `no_deadlock` : while the cache has room, who waits for a mutex waits for a thread that does not wait;
* `silent_servers` : a storage server that does not answer stops those only that talk to it.

The mutexes of the tries, the cache, the log and the lists of users are taken and given back within one call, with
no other call in between: the call has no step in which it holds one.
-/

namespace NetworkFileShare

open NmOp (perform)
open Prog

/-- What a call has to do with the mutexes. -/
def NmOp.mutexUse : NmOp → MutexUse NmMutex
  | .lock m => .take m
  | .unlock m => .give m
  | .nextSsRoundRobin | .ssIndex _ _ | .ssInfo _ | .deactivateSs _ => .await .ss
  | .registerSs _ => .within .ss
  | .exchange idx _ => .within (.ssSock idx)
  | .accessRequests | .addRequest _ | .removeRequest _ => .within .request
  | .popen _ => .bare
  | _ => .other

/-! ## What the calls do to the mutexes -/

theorem NameServer.held_nextSsRoundRobin (s : NameServer) (outside : Int32) :
    (s.nextSsRoundRobin outside).2.held = s.held := by
  unfold NameServer.nextSsRoundRobin
  split <;> rfl

theorem NameServer.held_registerSs (s : NameServer) (msg : Message) : (s.registerSs msg).2.held = s.held := by
  unfold NameServer.registerSs
  dsimp only
  split
  · rfl
  · split <;> rfl

theorem NameServer.held_deactivateSs (s : NameServer) (ssId : Int32) : (s.deactivateSs ssId).held = s.held := by
  unfold NameServer.deactivateSs
  split <;> rfl

/-- **The calls wait for their mutex, and only `lock` and `unlock` change what is held.** -/
theorem nm_mutexState : MutexState (ExecSome NmOp.exec) NmOp.mutexUse NameServer.held where
  free := by
    rintro s ⟨op, ans⟩ t ⟨env, h⟩ ⟨m, hm, htaken⟩
    cases op with
    | lock _ | nextSsRoundRobin | ssIndex _ _ | ssInfo _ | deactivateSs _ =>
      obtain rfl := Option.some.inj hm
      rw [NmOp.exec, if_pos htaken] at h
      cases h
    | _ => cases hm
  taken_after := by
    rintro s ⟨op, ans⟩ t ⟨env, h⟩
    cases op with
    | lock m =>
      rw [NmOp.exec] at h
      split at h
      · cases h
      · cases h
        rfl
    | nextSsRoundRobin =>
      rw [NmOp.exec] at h
      split at h
      · cases h
      · obtain rfl := congrArg Prod.snd (Option.some.inj h)
        exact s.held_nextSsRoundRobin env.outside
    | registerSs msg =>
      obtain rfl := congrArg Prod.snd (Option.some.inj h)
      exact s.held_registerSs msg
    | deactivateSs ssId =>
      rw [NmOp.exec] at h
      split at h
      · cases h
      · cases h
        exact s.held_deactivateSs ssId
    | ssIndex _ _ | ssInfo _ =>
      rw [NmOp.exec] at h
      split at h
      · cases h
      · cases h
        rfl
    | cacheGet _ | cachePut _ _ | cacheRemove _ =>
      rw [NmOp.exec] at h
      obtain ⟨c, -, he⟩ := Option.map_eq_some_iff.mp h
      cases he
      rfl
    | _ =>
      cases h
      rfl

/-! ## The handlers -/

/-- The program begins and ends with this in hand. -/
abbrev InHand {α : Type} (hand : Option NmMutex) (p : Handler α) : Prop := Mutexed NmOp.mutexUse hand hand p

theorem exchangeWith_mutexed (idx : Nat) (msg : Message) : InHand none (exchangeWith idx msg) :=
  .call rfl fun _ => .call rfl fun reply => .call rfl fun _ => .pure reply

theorem findSsForFile_mutexed (filename : CStr) : InHand none (findSsForFile filename) := by
  refine .other rfl fun cached => ?_
  rcases cached with _ | metadata
  · refine .other rfl fun found => ?_
    rcases found with _ | metadata
    · exact .pure _
    · exact .other rfl fun _ => .pure _
  · exact .pure _

theorem writeBack_mutexed (hand : Option NmMutex) (filename : CStr) (metadata : FileMetadata) :
    InHand hand (writeBack filename metadata) := .other rfl fun _ => .other rfl fun _ => rfl

theorem handleCreate_mutexed (msg : Message) : InHand none (handleCreate msg) := by
  refine .other rfl fun found => ?_
  rcases found with _ | metadata
  · refine .call rfl fun ssId => .ite (.pure _) (.call rfl fun idx => ?_)
    rcases idx with _ | idx
    · exact .pure _
    · refine .bind (exchangeWith_mutexed _ _) fun reply => .ite ?_ (.pure _)
      exact .other rfl fun now => .other rfl fun _ => .other rfl fun _ => .pure _
  · exact .pure _

theorem handleDelete_mutexed (msg : Message) : InHand none (handleDelete msg) := by
  refine .other rfl fun found => ?_
  rcases found with _ | metadata
  · exact .pure _
  refine .ite (.pure _) (.call rfl fun idx => ?_)
  rcases idx with _ | idx
  · exact .pure _
  refine .call rfl fun _ => .call rfl fun lockReply => .ite (.call rfl fun _ => .pure _) ?_
  refine .call rfl fun reply => .call rfl fun _ => .ite ?_ (.pure _)
  exact .other rfl fun _ => .other rfl fun _ => .pure _

theorem handleAccess_mutexed (msg : Message) : InHand none (handleAccess msg) := by
  refine .other rfl fun found => ?_
  rcases found with _ | metadata
  · exact .pure _
  refine .ite (.pure _) (.ite (.other rfl fun known => .ite (.ite (.pure _) ?_) (.pure _)) (.ite ?_ (.pure _)))
  · exact .bind (writeBack_mutexed none _ _) fun _ => .pure _
  · exact .bind (writeBack_mutexed none _ _) fun _ => .pure _

theorem handleRequestAccess_mutexed (msg : Message) : InHand none (handleRequestAccess msg) := by
  refine .other rfl fun found => ?_
  rcases found with _ | metadata
  · exact .pure _
  refine .other rfl fun allowed => .ite (.pure _) (.call rfl fun _ => .call rfl fun requests => ?_)
  refine .ite (.call rfl fun _ => .pure _) (.ite ?_ (.call rfl fun _ => .pure _))
  exact .other rfl fun now => .call rfl fun _ => .call rfl fun _ => .pure _

theorem handleApproveRequest_mutexed (msg : Message) : InHand none (handleApproveRequest msg) := by
  refine .call rfl fun _ => .call rfl fun requests => ?_
  rcases requestAt requests msg.sentenceIndex with _ | req
  · exact .call rfl fun _ => .pure _
  refine .other rfl fun found => ?_
  rcases found with _ | metadata
  · exact .call rfl fun _ => .pure _
  refine .ite (.call rfl fun _ => .pure _) (.bind (writeBack_mutexed (some .request) _ _) fun _ => ?_)
  exact .call rfl fun _ => .call rfl fun _ => .pure _

theorem handleDenyRequest_mutexed (msg : Message) : InHand none (handleDenyRequest msg) := by
  refine .call rfl fun _ => .call rfl fun requests => ?_
  rcases requestAt requests msg.sentenceIndex with _ | req
  · exact .call rfl fun _ => .pure _
  refine .other rfl fun found => ?_
  rcases found with _ | metadata
  · exact .call rfl fun _ => .pure _
  exact .ite (.call rfl fun _ => .pure _) (.call rfl fun _ => .call rfl fun _ => .pure _)

theorem viewRequestLines_mutexed (hand : Option NmMutex) (sender : CStr) : ∀ (i : Nat) (requests : List AccessRequest),
    InHand hand (viewRequestLines sender i requests)
  | _, [] => .pure _
  | i, r :: rs => by
    have ih := viewRequestLines_mutexed hand sender (i + 1) rs
    exact .other rfl fun metadata => .ite (.other rfl fun time => .bind ih fun rest => .pure _) ih

theorem handleViewRequests_mutexed (msg : Message) : InHand none (handleViewRequests msg) :=
  .call rfl fun _ => .call rfl fun _ =>
    .bind (viewRequestLines_mutexed (some .request) _ _ _) fun _ => .call rfl fun _ => .pure _

theorem handleCreateFolder_mutexed (msg : Message) : InHand none (handleCreateFolder msg) := by
  refine .other rfl fun found => ?_
  rcases found with _ | folder
  · refine .call rfl fun ssId => .ite (.pure _) (.call rfl fun idx => ?_)
    rcases idx with _ | idx
    · exact .pure _
    refine .bind (exchangeWith_mutexed _ _) fun reply => .ite ?_ (.pure _)
    exact .other rfl fun now => .other rfl fun _ => .pure _
  · exact .pure _

theorem moveFile_mutexed (msg : Message) (metadata : FileMetadata) : InHand none (moveFile msg metadata) := by
  refine .call rfl fun idx => ?_
  rcases idx with _ | idx
  · exact .pure _
  · exact .bind (exchangeWith_mutexed _ _) fun reply =>
      .ite (.bind (writeBack_mutexed none _ _) fun _ => .pure _) (.pure _)

theorem handleMove_mutexed (msg : Message) : InHand none (handleMove msg) := by
  refine .other rfl fun found => ?_
  rcases found with _ | metadata
  · exact .pure _
  have hmove := moveFile_mutexed msg metadata
  have hmay : InHand none (mayMove msg metadata) := .ite (.pure _) (.other (k := Pure.pure) rfl fun _ => .pure _)
  refine .bind hmay fun allowed => .ite (.pure _) (.ite hmove (.other rfl fun folder => ?_))
  rcases folder with _ | folder
  · exact .pure _
  · exact hmove

theorem viewFolderLines_mutexed (path sender : CStr) : ∀ files : List FileMetadata,
    InHand none (viewFolderLines path sender files)
  | [] => .pure _
  | f :: fs => by
    have ih := viewFolderLines_mutexed path sender fs
    exact .ite (.other rfl fun allowed => .bind ih fun rest => .pure _) ih

theorem handleViewFolder_mutexed (msg : Message) : InHand none (handleViewFolder msg) := by
  have hlist : InHand none (listFolder msg) :=
    .other rfl fun files => .bind (viewFolderLines_mutexed _ _ files) fun _ => .pure _
  refine .ite hlist (.other rfl fun found => ?_)
  rcases found with _ | folder
  · exact .pure _
  · exact hlist

theorem refreshFile_mutexed (f : FileMetadata) : InHand none (refreshFile f) := by
  refine .call rfl fun idx => ?_
  rcases idx with _ | idx
  · exact .pure _
  refine .call rfl fun _ => .call rfl fun reply => .ite ?_ (.call rfl fun _ => .pure _)
  exact .bind (writeBack_mutexed (some (.ssSock idx)) _ _) fun _ => .call rfl fun _ => .pure _

theorem refreshFiles_mutexed : ∀ files : List FileMetadata, InHand none (refreshFiles files)
  | [] => .pure _
  | f :: fs => .bind (refreshFile_mutexed f) fun _ => .bind (refreshFiles_mutexed fs) fun _ => .pure _

theorem viewLines_mutexed (showAll showDetails : Bool) (sender : CStr) : ∀ files : List FileMetadata,
    InHand none (viewLines showAll showDetails sender files)
  | [] => .pure _
  | f :: fs => by
    have ih := viewLines_mutexed showAll showDetails sender fs
    have hline : InHand none (viewLine showDetails f) := .ite (.other rfl fun time => .pure _) (.pure _)
    refine .bind (.ite (.pure _) (.other (k := Pure.pure) rfl fun _ => .pure _)) fun hasAccess => .ite ?_ ih
    exact .bind hline fun line => .bind ih fun rest => .pure _

theorem handleView_mutexed (msg : Message) : InHand none (handleView msg) :=
  .other rfl fun files => .bind (.ite (refreshFiles_mutexed files) (.pure _)) fun _ =>
    .bind (viewLines_mutexed _ _ _ _) fun _ => .pure _

theorem handleInfo_mutexed (msg : Message) : InHand none (handleInfo msg) := by
  refine .other rfl fun found => ?_
  rcases found with _ | metadata
  · exact .pure _
  have hcurrent : InHand none (currentInfo msg metadata) := by
    refine .bind (findSsForFile_mutexed _) fun ssId => .ite (.pure _) (.call rfl fun idx => ?_)
    rcases idx with _ | idx
    · exact .pure _
    · exact .bind (exchangeWith_mutexed _ _) fun _ => .pure _
  exact .bind hcurrent fun _ => .other rfl fun _ => .other rfl fun _ => .other rfl fun _ => .pure _

theorem handleList_mutexed : InHand none handleList := .other rfl fun _ => .other rfl fun _ => .pure _

theorem handleCheckpointRequest_mutexed (msg : Message) : InHand none (handleCheckpointRequest msg) := by
  refine .other rfl fun allowed => .ite (.bind (findSsForFile_mutexed _) fun ssId => ?_) (.pure _)
  refine .ite (.pure _) (.call rfl fun idx => ?_)
  rcases idx with _ | idx
  · exact .pure _
  · exact .bind (exchangeWith_mutexed _ _) fun _ => .pure _

theorem handleExec_mutexed (msg : Message) : InHand none (handleExec msg) := by
  refine .other rfl fun allowed => .ite (.bind (findSsForFile_mutexed _) fun ssId => ?_) (.pure _)
  refine .ite (.pure _) (.call rfl fun idx => ?_)
  rcases idx with _ | idx
  · exact .pure _
  refine .bind (exchangeWith_mutexed _ _) fun _ => .ite (.pure _) (.call rfl fun output => ?_)
  rcases output with _ | output
  · exact .pure _
  · exact .pure _

theorem locateFile_mutexed (prior msg : Message) : InHand none (locateFile prior msg) := by
  refine .other rfl fun allowed => .ite (.bind (findSsForFile_mutexed _) fun ssId => ?_) (.pure _)
  refine .ite (.pure _) (.call rfl fun info => .other rfl fun found => ?_)
  rcases found with _ | metadata
  · exact .pure _
  · exact .other rfl fun now => .bind (writeBack_mutexed none _ _) fun _ => .pure _

/-- **Every handler of a client's message** holds one mutex at a time and gives it back. -/
theorem handleClientMessage_mutexed (prior msg : Message) : InHand none (handleClientMessage prior msg) := by
  have hserved := handledBy prior msg
  generalize handleClientMessage prior msg = p at hserved
  cases hserved with
  | requestAccess => exact handleRequestAccess_mutexed msg
  | viewRequests => exact handleViewRequests_mutexed msg
  | approve => exact handleApproveRequest_mutexed msg
  | deny => exact handleDenyRequest_mutexed msg
  | checkpoint => exact handleCheckpointRequest_mutexed msg
  | createFolder => exact handleCreateFolder_mutexed msg
  | move => exact handleMove_mutexed msg
  | viewFolder => exact handleViewFolder_mutexed msg
  | view => exact handleView_mutexed msg
  | info => exact handleInfo_mutexed msg
  | list => exact handleList_mutexed
  | create => exact handleCreate_mutexed msg
  | delete => exact handleDelete_mutexed msg
  | access => exact handleAccess_mutexed msg
  | exec => exact handleExec_mutexed msg
  | locate => exact locateFile_mutexed prior msg
  | other => exact .pure _

theorem registerFiles_mutexed (hand : Option NmMutex) (ssId : Int32) : ∀ tokens : List CStr,
    InHand hand (registerFiles ssId tokens)
  | [] => .pure _
  | token :: tokens => by
    have ih := registerFiles_mutexed hand ssId tokens
    refine .other rfl fun found => ?_
    rcases found with _ | existing
    · exact .other rfl fun now => .other rfl fun _ => ih
    · exact .other rfl fun _ => ih

/-- **Every request** of the name server. -/
theorem nmBody_mutexed (req : NmRequest) : InHand none (nmBody req) := by
  cases req with
  | client prior msg => exact .bind (handleClientMessage_mutexed prior msg) fun reply => .pure _
  | registerSs msg =>
    refine .bind (.call rfl fun _ => .call rfl fun slot => ?_) fun _ => .pure _
    rcases slot with _ | slot
    · exact .call (k := Pure.pure) rfl fun _ => .pure _
    · exact .bind (registerFiles_mutexed (some .ss) _ _) fun _ => .call (k := Pure.pure) rfl fun _ => .pure _
  | heartbeatLost ssId => exact .call rfl fun _ => .pure _
  | login sock name => exact .other rfl fun _ => .pure _
  | logout c => exact .other rfl fun _ => .pure _

/-! ## A creation while a storage server registers -/

/-- A storage server registers, and a creation has come to the choice of its storage server. -/
def createWhileRegistering : List NmEvent × NmPool :=
  scheduledRun NmOp.exec nmBody (fun _ _ => True) (Pool.idle initNameServer)
    (serves 0 (.registerSs { initMessage with ssId := 1 }) 1 ++
      serves 1 (.client initMessage { initMessage with type := MSG_CREATE, sender := userA, filename := fileN }) 1)

theorem run_createWhileRegistering :
    Run NmStep (Pool.idle initNameServer) createWhileRegistering.1 createWhileRegistering.2 :=
  (run_scheduledRun _ _).unguarded

/-! ## Runs -/

section
variable {es : List NmEvent} {p : NmPool}

theorem nm_locked (h : Run NmStep (Pool.idle initNameServer) es p) : Locked NmOp.mutexUse NameServer.held p :=
  locked_of_run nm_mutexState nmBody_mutexed (fun _ => rfl) h

/-- Every call counts the entries of the cache. -/
theorem counted_of_exec {s t : NameServer} {op : NmOp} {ans : op.Ans} (hs : s.cache.Counted)
    (h : ExecSome NmOp.exec s ⟨op, ans⟩ t) : t.cache.Counted := by
  obtain ⟨env, h⟩ := h
  by_cases hop : Quiet op
  · rcases cache_of_quiet hop h with hsame | ⟨f, v, hstep⟩
    · rwa [hsame]
    · exact hstep.counted hs
  · cases op with
    | cachePut f m =>
      obtain ⟨c, hput, he⟩ := Option.map_eq_some_iff.mp h
      cases he
      exact CacheStep.counted (e := (.put f m, none)) hs ⟨env.fuel, by rw [CacheOp.exec, hput]; rfl⟩
    | cacheRemove f =>
      obtain ⟨c, hremove, he⟩ := Option.map_eq_some_iff.mp h
      cases he
      exact CacheStep.counted (e := (.remove f, none)) hs ⟨env.fuel, by rw [CacheOp.exec, hremove]; rfl⟩
    | trieInsert _ _ | trieUpdate _ _ | trieDelete _ =>
      cases h
      exact hs
    | _ => exact absurd trivial hop

theorem nm_counted (h : Run NmStep (Pool.idle initNameServer) es p) : p.state.cache.Counted := by
  refine h.state_invariant (I := fun p : NmPool => p.state.cache.Counted) (initCache_counted _) ?_
  intro q e t hq hstep
  cases hstep with
  | start req idle => exact hq
  | call serving made => exact counted_of_exec hq made
  | answer serving => exact hq

/-- **A call that does not wait for a mutex can be made** while the cache has room. -/
theorem exec_of_free {s : NameServer} {op : NmOp} (hs : s.cache.Counted) (hroom : s.cache.size < s.cache.capacity)
    (hfree : ¬ Blocked NmOp.mutexUse NameServer.held s op) : ∃ ans t, ExecSome NmOp.exec s ⟨op, ans⟩ t := by
  have hunheld : ∀ m, (NmOp.mutexUse op).awaited = some m → ¬ s.held m = true := fun m hm hheld => hfree ⟨m, hm, hheld⟩
  cases op with
  | cacheGet f =>
    obtain ⟨fuel, r, hr⟩ := cacheGet_returns_iff.mpr ((hs.returns_probe_iff f).mpr (Or.inl hroom))
    exact ⟨_, _, { quietEnv with fuel := fuel }, by rw [NmOp.exec, hr]; rfl⟩
  | cachePut f m =>
    obtain ⟨fuel, c, hc⟩ := hs.cachePut_returns (Or.inl hroom) m
    exact ⟨_, _, { quietEnv with fuel := fuel }, by rw [NmOp.exec, hc]; rfl⟩
  | cacheRemove f =>
    obtain ⟨fuel, c, hc⟩ := cacheRemove_returns_iff.mpr ((hs.returns_probe_iff f).mpr (Or.inl hroom))
    exact ⟨_, _, { quietEnv with fuel := fuel }, by rw [NmOp.exec, hc]; rfl⟩
  | nextSsRoundRobin | ssIndex _ _ | ssInfo _ | deactivateSs _ | lock _ =>
    exact ⟨_, _, quietEnv, by rw [NmOp.exec, if_neg (hunheld _ rfl)]⟩
  | _ => exact ⟨_, _, quietEnv, rfl⟩

/-- **No deadlock** while the cache has room, in every order of the threads' steps: a thread that cannot make its next
call waits for a mutex of another thread, which can make its next call. An exchange with a storage server and the
command of an EXEC are calls that can be made, however long they take. -/
theorem no_deadlock (h : Run NmStep (Pool.idle initNameServer) es p)
    (hroom : p.state.cache.size < p.state.cache.capacity) {i : Nat} {op : NmOp} (hop : p.nextOp i = some op)
    (hstuck : ¬ ∃ ans t, ExecSome NmOp.exec p.state ⟨op, ans⟩ t) :
    ∃ m j op', (NmOp.mutexUse op).awaited = some m ∧ j ≠ i ∧ p.hand NmOp.mutexUse j = some m ∧
      p.nextOp j = some op' ∧ ∃ ans t, ExecSome NmOp.exec p.state ⟨op', ans⟩ t := by
  have hwaits : Blocked NmOp.mutexUse NameServer.held p.state op := by
    by_contra hfree
    exact hstuck (exec_of_free (nm_counted h) hroom hfree)
  obtain ⟨m, j, op', hm, hne, hhand, hop', hfree⟩ := (nm_locked h).holder_runs hop hwaits
  exact ⟨m, j, op', hm, hne, hhand, hop', exec_of_free (nm_counted h) hroom hfree⟩

theorem no_deadlock_createWhileRegistering :
    ∃ m j op', (NmOp.mutexUse .nextSsRoundRobin).awaited = some m ∧ j ≠ 1 ∧
      createWhileRegistering.2.hand NmOp.mutexUse j = some m ∧ createWhileRegistering.2.nextOp j = some op' ∧
      ∃ ans t, ExecSome NmOp.exec createWhileRegistering.2.state ⟨op', ans⟩ t := by
  have hheld : createWhileRegistering.2.state.held .ss = true := by decide
  have hnext : createWhileRegistering.2.nextOp 1 = some .nextSsRoundRobin := rfl
  refine no_deadlock run_createWhileRegistering (by decide) hnext ?_
  rintro ⟨ans, t, env, h⟩
  rw [NmOp.exec, if_pos hheld] at h
  cases h

/-- The calls that others may stall: an exchange with a storage server that is silent, and the command of an EXEC. -/
def Stalls (silent : Nat → Prop) (op : NmOp) : Prop :=
  (∃ idx msg, op = .exchange idx msg ∧ silent idx) ∨ ∃ command, op = .popen command

/-- A mutex in the hands of a thread whose call stalls is the one of a silent storage server's socket. -/
theorem hand_of_stalls {silent : Nat → Prop} {j : Nat} {m : NmMutex} {op : NmOp}
    (h : Locked NmOp.mutexUse NameServer.held p) (hhand : p.hand NmOp.mutexUse j = some m)
    (hop : p.nextOp j = some op) (hstalls : Stalls silent op) : ∃ idx, m = .ssSock idx ∧ silent idx := by
  have hallowed := h.allowed hop
  rw [hhand] at hallowed
  obtain ⟨idx, msg, rfl, hsilent⟩ | ⟨command, rfl⟩ := hstalls
  · exact ⟨idx, Option.some.inj hallowed, hsilent⟩
  · cases hallowed

/-- **Silent storage servers stop those only that talk to them**: when no thread can go on but by the reply of a silent
storage server or the end of an EXEC's command, and the cache has room, every request that is not answered is in such a
call or waits for the socket of a silent storage server, and no other mutex is held. -/
theorem silent_servers (h : Run NmStep (Pool.idle initNameServer) es p)
    (hroom : p.state.cache.size < p.state.cache.capacity) (silent : Nat → Prop)
    (hrest : AtRest (ExecSome NmOp.exec) (Stalls silent) p) :
    (∀ i th, p.threads i = some th → ∃ op, p.nextOp i = some op ∧
      (Stalls silent op ∨ ∃ idx, silent idx ∧ op = .lock (.ssSock idx))) ∧
      ∀ m, p.state.held m = true → ∃ idx, m = .ssSock idx ∧ silent idx := by
  have hmade : ∀ op, ¬ Blocked NmOp.mutexUse NameServer.held p.state op →
      ∃ ans t, ExecSome NmOp.exec p.state ⟨op, ans⟩ t := fun op => exec_of_free (nm_counted h) hroom
  refine ⟨fun i th hth => ?_, fun m hm => ?_⟩
  · obtain ⟨op, hop, hstalls | ⟨m, j, op', hm, hhand, hop', hstalls⟩⟩ := (nm_locked h).stalled_of_rest hmade hrest hth
    · exact ⟨op, hop, Or.inl hstalls⟩
    -- of the calls that wait, only `lock` waits for the mutex of a socket
    obtain ⟨idx, rfl, hsilent⟩ := hand_of_stalls (nm_locked h) hhand hop' hstalls
    refine ⟨op, hop, Or.inr ⟨idx, hsilent, ?_⟩⟩
    cases op with
    | lock m => cases hm; rfl
    | _ => cases hm
  · obtain ⟨j, op, hhand, hop, hstalls⟩ := (nm_locked h).stalled_of_taken hmade hrest hm
    exact hand_of_stalls (nm_locked h) hhand hop hstalls

end

/-- Two creations on a storage server: one has sent its message, the other waits for the socket. -/
def twoCreations : List (Nat × Turn NmRequest NmEnv) :=
  serves 0 (.registerSs { initMessage with ssId := 1 }) 4 ++
    serves 1 (.client initMessage { initMessage with type := MSG_CREATE, sender := userA, filename := fileN }) 4 ++
    serves 2 (.client initMessage { initMessage with type := MSG_CREATE, sender := userB, filename := fileN }) 3

def createsUnanswered : List NmEvent × NmPool :=
  scheduledRun NmOp.exec nmBody (fun _ _ => True) (Pool.idle initNameServer) twoCreations

theorem run_createsUnanswered :
    Run NmStep (Pool.idle initNameServer) createsUnanswered.1 createsUnanswered.2 :=
  (run_scheduledRun _ _).unguarded

theorem silent_servers_createsUnanswered :
    (∀ i th, createsUnanswered.2.threads i = some th → ∃ op, createsUnanswered.2.nextOp i = some op ∧
      (Stalls (· = 0) op ∨ ∃ idx, idx = 0 ∧ op = .lock (.ssSock idx))) ∧
      ∀ m, createsUnanswered.2.state.held m = true → ∃ idx, m = .ssSock idx ∧ idx = 0 := by
  refine silent_servers run_createsUnanswered (by decide) (· = 0) fun i th hth => ?_
  match i with
  | 0 =>
    have hnone : createsUnanswered.2.threads 0 = none := rfl
    rw [hnone] at hth
    cases hth
  | 1 => exact ⟨_, rfl, Or.inl (Or.inl ⟨0, _, rfl, rfl⟩)⟩
  | 2 =>
    have hheld : createsUnanswered.2.state.held (.ssSock 0) = true := by decide
    refine ⟨.lock (.ssSock 0), rfl, Or.inr ?_⟩
    rintro ⟨ans, t, env, h⟩
    rw [NmOp.exec, if_pos hheld] at h
    cases h
  | j + 3 =>
    have hfirst : ∀ turn ∈ twoCreations, turn.1 < 3 := by simp [twoCreations, serves, goes]
    have hnone : createsUnanswered.2.threads (j + 3) = none :=
      threads_of_schedule fun turn hturn he => absurd (hfirst turn hturn) (by omega)
    rw [hnone] at hth
    cases hth

end NetworkFileShare
