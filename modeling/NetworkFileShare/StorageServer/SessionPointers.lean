import NetworkFileShare.StorageServer.Paths
import NetworkFileShare.StorageServer.SessionCalls

/-!
# Pointers into the sessions (`ss.c`)

* `ThreadLocal` : the slot a thread still uses and what it has read for its entry; `Allowed` : the operations of a call;
  `sessionBody_obeys` : the programs keep to them;
* `OwnOnly` : a write touches its own copy only, a start fills its own record only, and a commit enqueues its own copy
  and count;
* `DifferentUsers` : the calls under way are of different users; `NoneMoved` : no session is taken out of a slot before
  one that a thread still uses;
* `PointerInv` : the slot a thread uses is the slot of its session; `own_session_only` : in runs of this kind
  every step is `OwnOnly`;
* `write_into_other` : a run in which a write goes on in the copy of another user.
-/

namespace NetworkFileShare

open SsOp (perform)

/-! ## What a thread has -/

/-- The slot that a thread still uses, and what it has read for its entry in the queue. -/
structure ThreadLocal where
  session : Option Nat
  count : Option Nat
  lockTime : Option Int
  temp : Option Path

def ThreadLocal.none : ThreadLocal := ⟨.none, .none, .none, .none⟩

/-- An operation gives a thread its slot, or reads from it, or is the last that uses it. -/
def ThreadLocal.after (l : ThreadLocal) : Call SsOp.Ans → ThreadLocal
  | ⟨.getWriteSession _ _ _ _, session⟩ => { l with session := session }
  | ⟨.readCount _, count⟩ => { l with count := some count }
  | ⟨.readLockTime _, lockTime⟩ => { l with lockTime := some lockTime }
  | ⟨.readTempFilepath _, temp⟩ => { l with session := .none, temp := some temp }
  | ⟨.writeTemp _ _, _⟩ | ⟨.openTemp _, _⟩ => { l with session := .none }
  | ⟨.removeWriteSession _ _ _, _⟩ | ⟨.dropWriteSession _ _ _, _⟩ => .none
  | _ => l

/-- What a thread has after some operations. -/
def localOf (past : List (Call SsOp.Ans)) : ThreadLocal := past.foldl ThreadLocal.after .none

theorem localOf_snoc (past : List (Call SsOp.Ans)) (c : Call SsOp.Ans) :
    localOf (past ++ [c]) = (localOf past).after c := by
  rw [localOf, List.foldl_append]
  rfl

/-! ## What the programs do -/

namespace SessionRequest

def isStart : SessionRequest → Prop
  | .start _ _ _ => True
  | _ => False

def isWrite : SessionRequest → Prop
  | .write _ _ _ _ _ => True
  | _ => False

def isCommit : SessionRequest → Prop
  | .commit _ _ _ => True
  | _ => False

end SessionRequest

/-- The operations of a call: on its own session, through the slot it has, with what it has read. -/
def Allowed (req : SessionRequest) (l : ThreadLocal) : SsOp → Prop
  | .getWriteSession f u i _ | .dropWriteSession f u i => req.key = (f, u, i)
  | .removeWriteSession f u i => req.key = (f, u, i) ∧ ¬ req.isWrite
  | .parseMain _ | .openMain _ | .copyMain _ _ => req.isStart
  | .openTemp session => req.isStart ∧ l.session = some session
  | .storeCount session _ | .storeLockTime session =>
    req.isStart ∧ l.session = some session ∧ l.count = .none ∧ l.lockTime = .none
  | .parseTemp session | .writeTemp session _ => req.isWrite ∧ l.session = some session
  | .readCount session | .readLockTime session | .readTempFilepath session =>
    req.isCommit ∧ l.session = some session
  | .getCommitQueue _ | .processCommitQueue _ => req.isCommit
  | .enqueue f entry lockTime => req.isCommit ∧ req.key = (f, entry.username, entry.sentenceIdx) ∧
    l.count = some entry.originalSentenceCount ∧ l.lockTime = some lockTime ∧ l.temp = some entry.tempFilepath

/-- Every operation that the program can come to is allowed. -/
abbrev OwnCalls (req : SessionRequest) (past : List (Call SsOp.Ans)) (p : SsProg) : Prop :=
  p.Obeys (fun _ => True) (fun past op => Allowed req (localOf past) op) (fun _ _ => True) past

theorem OwnCalls.step {req : SessionRequest} {past : List (Call SsOp.Ans)} {op : SsOp} {next : op.Ans → SsProg}
    (h : Allowed req (localOf past) op) (hnext : ∀ ans, OwnCalls req (past ++ [⟨op, ans⟩]) (next ans)) :
    OwnCalls req past (perform op >>= next) := .perform_bind h fun ans _ => hnext ans

theorem sessionBody_obeys (req : SessionRequest) : OwnCalls req [] (sessionBody req) := by
  cases req with
  | start f u i =>
    refine OwnCalls.step trivial fun fc => OwnCalls.step rfl fun found => ?_
    rcases found with _ | session
    · trivial
    · refine OwnCalls.step ⟨trivial, rfl, rfl, rfl⟩ fun _ => OwnCalls.step ⟨trivial, rfl, rfl, rfl⟩ fun _ =>
        OwnCalls.step trivial fun src => OwnCalls.step ⟨trivial, rfl⟩ fun temp => ?_
      rcases temp with _ | temp
      · exact OwnCalls.step ⟨rfl, id⟩ fun _ => trivial
      · exact .ite (fun _ => OwnCalls.step trivial fun _ => trivial) fun _ => trivial
  | write f u i wordIdx content =>
    refine OwnCalls.step rfl fun found => ?_
    rcases found with _ | session
    · trivial
    · refine OwnCalls.step ⟨trivial, rfl⟩ fun fc => .ite (fun _ => trivial) fun _ => ?_
      cases insertWordInSentence (parsedTemp fc) i.toInt wordIdx.toInt content with
      | none => trivial
      | some inserted =>
        exact OwnCalls.step ⟨trivial, rfl⟩ fun written => .ite (fun _ => trivial) fun _ => trivial
  | commit f u i =>
    refine OwnCalls.step rfl fun found => ?_
    rcases found with _ | session
    · trivial
    · refine OwnCalls.step ⟨trivial, rfl⟩ fun count => OwnCalls.step ⟨trivial, rfl⟩ fun lockTime =>
        OwnCalls.step trivial fun queue => .ite (fun _ => ?_) fun _ => OwnCalls.step ⟨rfl, id⟩ fun _ => trivial
      exact OwnCalls.step ⟨trivial, rfl⟩ fun temp => OwnCalls.step ⟨trivial, rfl, rfl, rfl, rfl⟩ fun _ =>
        OwnCalls.step rfl fun _ => OwnCalls.step trivial fun _ => trivial
  | cancel f u i =>
    refine OwnCalls.step rfl fun found => ?_
    rcases found with _ | session
    · trivial
    · exact OwnCalls.step ⟨rfl, id⟩ fun _ => trivial

/-! ## The record of a session -/

/-- The record of a session. -/
def SharedServer.recordOf (s : SharedServer) (filename : Filename) (username : Username) (sentIdx : Int32) :
    Option SessionRecord :=
  (s.findSession filename username sentIdx).map s.writeSessions.slots

section Records
variable {s t : SharedServer} {op : SsOp} {f : Filename} {u : Username} {i : Int32}

theorem recordOf_eq_some (hs : SessionsInv s) {w : SessionRecord} :
    s.recordOf f u i = some w ↔ w ∈ s.writeSessions.live ∧ w.key = (f, u, i) := by
  rw [SharedServer.recordOf, Option.map_eq_some_iff]
  constructor
  · rintro ⟨k, hfind, rfl⟩
    obtain ⟨hk, hkey⟩ := (findSession_eq_some hs).mp hfind
    exact ⟨SlotArray.slots_mem_live hk, hkey⟩
  · rintro ⟨hw, hkey⟩
    obtain ⟨k, hat⟩ := List.mem_iff_getElem?.mp hw
    obtain ⟨hk, rfl⟩ := SlotArray.getElem?_live_eq_some.mp hat
    exact ⟨k, (findSession_eq_some hs).mpr ⟨hk, hkey⟩, rfl⟩

/-- What is stored in a slot, or taken out of one, leaves the records alone that are not in it. -/
def LeavesSession (s : SharedServer) (key : Filename × Username × Int32) (op : SsOp) : Prop :=
  (∀ k, op.stores = some k → (s.writeSessions.slots k).key ≠ key) ∧ ∀ key', op.takesOut = some key' → key' ≠ key

theorem recordOf_left (hs : SessionsInv s) (ht : SessionsInv t) (heffect : ArrayEffect s op t)
    (hleaves : LeavesSession s (f, u, i) op) {w : SessionRecord} (hw : s.recordOf f u i = some w) :
    t.recordOf f u i = some w := by
  obtain ⟨hmem, hkey⟩ := (recordOf_eq_some hs).mp hw
  refine (recordOf_eq_some ht).mpr ⟨?_, hkey⟩
  obtain ⟨k, hk⟩ := List.mem_iff_getElem?.mp hmem
  have hmodify {session : Nat} {h : SessionRecord → SessionRecord} (hstores : op.stores = some session)
      (hsessions : t.writeSessions = s.writeSessions.modify session h) : w ∈ t.writeSessions.live := by
    have hne : session ≠ k := by
      rintro rfl
      exact hleaves.1 _ hstores (by rw [(SlotArray.getElem?_live_eq_some.mp hk).2, hkey])
    rw [hsessions, SlotArray.live_modify]
    exact List.mem_of_getElem? ((List.getElem?_modify_ne h _ hne).trans hk)
  cases heffect with
  | same sessions =>
    rw [sessions]
    exact hmem
  | pushed absent sessions =>
    rw [sessions, SlotArray.live_push]
    exact List.mem_append_left _ hmem
  | counted session count sessions => exact hmodify rfl sessions
  | timed session now sessions => exact hmodify rfl sessions
  | @removed _ _ f' u' i' session is found sessions =>
    obtain ⟨hsession, hkey'⟩ := (findSession_eq_some hs).mp found
    rw [sessions, SlotArray.live_removeAt hsession]
    refine List.mem_eraseIdx_iff_getElem?.mpr ⟨k, ?_, hk⟩
    rintro rfl
    rw [(SlotArray.getElem?_live_eq_some.mp hk).2, hkey] at hkey'
    exact hleaves.2 _ is hkey'.symm

end Records

/-! ## The invariant -/

/-- What a thread has is of its session: the slot, the count and the lock time, and the copy. -/
structure LocalInv (s : SharedServer) (f : Filename) (u : Username) (i : Int32) (l : ThreadLocal) : Prop where
  session : ∀ k, l.session = some k → s.findSession f u i = some k
  count : ∀ n, l.count = some n → ∃ w, s.recordOf f u i = some w ∧ w.originalSentenceCount = n
  lockTime : ∀ n, l.lockTime = some n → ∃ w, s.recordOf f u i = some w ∧ w.lockTime = n
  temp : ∀ path, l.temp = some path → path = tempPath s.id f u i

section Steps
variable {s t : SharedServer} {op : SsOp} {f : Filename} {u : Username} {i : Int32} {l : ThreadLocal}
  {req : SessionRequest}

theorem LocalInv.none (s : SharedServer) (f : Filename) (u : Username) (i : Int32) : LocalInv s f u i .none :=
  ⟨nofun, nofun, nofun, nofun⟩

/-- The slot that a thread uses is in the array and has its key. -/
theorem LocalInv.slot (hs : SessionsInv s) (h : LocalInv s f u i l) {k : Nat} (hk : l.session = some k) :
    s.recordOf f u i = some (s.writeSessions.slots k) ∧ s.tempOf k = tempPath s.id f u i := by
  have hrecord : s.recordOf f u i = some (s.writeSessions.slots k) := by
    rw [SharedServer.recordOf, h.session k hk]
    rfl
  obtain ⟨hmem, hkey⟩ := (recordOf_eq_some hs).mp hrecord
  exact ⟨hrecord, hs.temp hmem hkey⟩

/-- **What the others do** leaves a thread what it has, unless they take a session out of an earlier slot. -/
theorem LocalInv.other (hs : SessionsInv s) (ht : SessionsInv t) (hid : t.id = s.id)
    (heffect : ArrayEffect s op t) (hleaves : LeavesSession s (f, u, i) op)
    (hbefore : ∀ f' u' i' r, op.takesOut = some (f', u', i') → s.findSession f' u' i' = some r →
      ∀ k, l.session = some k → ¬ r < k)
    (h : LocalInv s f u i l) : LocalInv t f u i l where
  session k hk := findSession_left hs ht heffect
    (fun f' u' i' r htakes hfound => ⟨hleaves.2 _ htakes, hbefore f' u' i' r htakes hfound k hk⟩) (h.session k hk)
  count n hn := by
    obtain ⟨w, hw, hcount⟩ := h.count n hn
    exact ⟨w, recordOf_left hs ht heffect hleaves hw, hcount⟩
  lockTime n hn := by
    obtain ⟨w, hw, htime⟩ := h.lockTime n hn
    exact ⟨w, recordOf_left hs ht heffect hleaves hw, htime⟩
  temp path hpath := by
    rw [hid]
    exact h.temp path hpath

theorem LocalInv.same (h : LocalInv s f u i l) (hid : t.id = s.id) (hsessions : t.writeSessions = s.writeSessions) :
    LocalInv t f u i l := by
  have hfind : t.findSession f u i = s.findSession f u i := by
    rw [SharedServer.findSession, SharedServer.findSession, hsessions]
  have hrecord : t.recordOf f u i = s.recordOf f u i := by
    rw [SharedServer.recordOf, SharedServer.recordOf, hfind, hsessions]
  refine ⟨?_, ?_, ?_, ?_⟩
  · rw [hfind]
    exact h.session
  · rw [hrecord]
    exact h.count
  · rw [hrecord]
    exact h.lockTime
  · rw [hid]
    exact h.temp

/-- **What a thread does itself** gives it what is of its session. -/
theorem LocalInv.own (hs : SessionsInv s) (env : SsEnv) (hkey : req.key = (f, u, i)) (h : LocalInv s f u i l)
    (hallowed : Allowed req l op) : LocalInv (op.run env s).2 f u i (l.after ⟨op, (op.run env s).1⟩) := by
  have hid := op.run_id env s
  cases op with
  | getWriteSession f' u' i' create =>
    obtain ⟨rfl, rfl, rfl⟩ : f' = f ∧ u' = u ∧ i' = i := by
      have hsame := hallowed.symm.trans hkey
      simp only [Prod.mk.injEq] at hsame
      exact hsame
    cases hfind : s.findSession f' u' i' with
    | some k =>
      rw [run_getWriteSession_found hfind]
      exact ⟨fun k' hk' => hfind.trans hk', h.count, h.lockTime, h.temp⟩
    | none =>
      -- without a session the thread has read nothing
      have hnone {φ : Prop} {w : SessionRecord} (hw : s.recordOf f' u' i' = some w) : φ := by
        rw [SharedServer.recordOf, hfind] at hw
        cases hw
      rw [run_getWriteSession_absent hfind]
      split
      · exact ⟨fun k hk => (findSession_added hs hfind).2.trans hk, fun n hn => hnone (h.count n hn).choose_spec.1,
          fun n hn => hnone (h.lockTime n hn).choose_spec.1, h.temp⟩
      · exact ⟨nofun, h.count, h.lockTime, h.temp⟩
  | removeWriteSession _ _ _ | dropWriteSession _ _ _ => exact .none _ f u i
  | parseMain _ | openMain _ | parseTemp _ => exact h
  | copyMain f' temp =>
    refine h.same hid ?_
    unfold SsOp.run
    dsimp only
    split <;> rfl
  | writeTemp _ _ | openTemp _ =>
    have hafter : LocalInv s f u i { l with session := Option.none } := ⟨nofun, h.count, h.lockTime, h.temp⟩
    refine hafter.same hid ?_
    unfold SsOp.run
    dsimp only
    split <;> rfl
  | storeCount _ _ | storeLockTime _ =>
    -- nothing is read before both are stored
    obtain ⟨-, -, hcount, htime⟩ := hallowed
    refine ⟨fun k hk => ?_, fun n hn => ?_, fun n hn => ?_, h.temp⟩
    · exact findSession_left hs (hs.run env _) (SsOp.run_effect env _ s) nofun (h.session k hk)
    · cases hcount.symm.trans hn
    · cases htime.symm.trans hn
  | readCount session =>
    have hrecord := (h.slot hs hallowed.2).1
    exact ⟨h.session, fun n hn => ⟨_, hrecord, Option.some.inj hn⟩, h.lockTime, h.temp⟩
  | readLockTime session =>
    have hrecord := (h.slot hs hallowed.2).1
    exact ⟨h.session, h.count, fun n hn => ⟨_, hrecord, Option.some.inj hn⟩, h.temp⟩
  | readTempFilepath session =>
    have htemp := (h.slot hs hallowed.2).2
    exact ⟨nofun, h.count, h.lockTime, fun path hpath => (Option.some.inj hpath).symm.trans htemp⟩
  | getCommitQueue _ | enqueue _ _ _ | processCommitQueue _ => exact h.same hid rfl

end Steps

/-! ## All threads -/

namespace SessionRequest

def filename (req : SessionRequest) : Filename := req.key.1
def username (req : SessionRequest) : Username := req.key.2.1
def sentIdx (req : SessionRequest) : Int32 := req.key.2.2

end SessionRequest

/-- The threads and what they share. -/
abbrev SsPool : Type := Pool SharedServer SessionRequest SsOp.Ans Int32

abbrev SsEvent : Type := Event SessionRequest SsOp.Ans Int32

/-- The steps of all threads, in any order. -/
abbrev SsStep : SsPool → SsEvent → SsPool → Prop := PoolStep (ExecSome SsOp.exec) sessionBody

/-- The calls under way are of different users. -/
def DifferentUsers (p : SsPool) : SsEvent → Prop
  | .start _ req => ∀ j th, p.threads j = some th → th.req.username ≠ req.username
  | _ => True

/-- The slot that a thread still uses. -/
def slotOf (p : SsPool) (j : Nat) : Option Nat := (p.threads j).bind fun th => (localOf th.past).session

/-- The slot that an operation takes a session out of. -/
def SsOp.vacates (s : SharedServer) (op : SsOp) : Option Nat :=
  op.takesOut.bind fun key => s.findSession key.1 key.2.1 key.2.2

/-- No session is taken out of the array that stands before one whose slot a thread still uses. -/
def NoneMoved (p : SsPool) : SsEvent → Prop
  | .call _ _ _ c => ∀ r ∈ c.op.vacates p.state, ∀ j, ∀ k ∈ slotOf p j, ¬ r < k
  | _ => True

/-- The sessions are told apart, the calls are of different users, and what a thread has is of its session. -/
structure PointerInv (p : SsPool) : Prop where
  sessions : SessionsInv p.state
  users : ∀ i j th th', p.threads i = some th → p.threads j = some th' → th.req.username = th'.req.username → i = j
  locals : ∀ i th, p.threads i = some th →
    LocalInv p.state th.req.filename th.req.username th.req.sentIdx (localOf th.past)
  keeps : ∀ i th, p.threads i = some th → OwnCalls th.req th.past th.rest

section Pools
variable {s t : SharedServer} {p q : SsPool} {e : SsEvent} {es : List SsEvent}

theorem run_of_exec {op : SsOp} {ans : op.Ans} (h : ExecSome SsOp.exec s ⟨op, ans⟩ t) :
    ∃ env, ans = (op.run env s).1 ∧ t = (op.run env s).2 := by
  obtain ⟨env, hexec⟩ := h
  have hrun : op.run env s = (ans, t) := Option.some.inj hexec
  exact ⟨env, (congrArg Prod.fst hrun).symm, (congrArg Prod.snd hrun).symm⟩

/-- What a thread does with its own session leaves those of other users alone. -/
theorem leaves_of_allowed {req : SessionRequest} {l : ThreadLocal} {op : SsOp} (hs : SessionsInv s)
    (hlocal : LocalInv s req.filename req.username req.sentIdx l) (hallowed : Allowed req l op) {f : Filename}
    {u : Username} {i : Int32} (hne : req.username ≠ u) : LeavesSession s (f, u, i) op := by
  have hkey : req.key ≠ (f, u, i) := fun h => hne (congrArg (fun key => key.2.1) h)
  have hslot {k : Nat} (hk : l.session = some k) : (s.writeSessions.slots k).key ≠ (f, u, i) := by
    rw [((findSession_eq_some hs).mp (hlocal.session k hk)).2]
    exact hkey
  refine ⟨fun k hstores => ?_, fun key' htakes => ?_⟩
  · cases op with
    | storeCount _ _ | storeLockTime _ =>
      obtain rfl := Option.some.inj hstores
      exact hslot hallowed.2.1
    | _ => cases hstores
  · cases op with
    | removeWriteSession f' u' i' =>
      obtain rfl := Option.some.inj htakes
      exact fun h => hkey (hallowed.1.trans h)
    | dropWriteSession f' u' i' =>
      obtain rfl := Option.some.inj htakes
      exact fun h => hkey (Eq.trans hallowed h)
    | _ => cases htakes

theorem PointerInv.idle (hs : s.writeSessions.count = 0) : PointerInv (Pool.idle s) where
  sessions := .of_nil hs
  users _ _ _ _ h := by cases h
  locals _ _ h := by cases h
  keeps _ _ h := by cases h

/-- **Every step keeps the pointers right.** -/
theorem PointerInv.step (h : PointerInv p) (husers : DifferentUsers p e) (hnone : NoneMoved p e)
    (hstep : SsStep p e q) : PointerInv q := by
  cases hstep with
  | @start i req idle =>
    refine ⟨h.sessions, Pool.apart_setThread ?_ h.users, Pool.forall_setThread ?_ fun j th _ => h.locals j th,
      Pool.forall_setThread ?_ fun j th _ => h.keeps j th⟩
    · rintro _ ⟨⟩ j th - hth
      exact husers j th hth
    · rintro _ ⟨⟩
      exact .none ..
    · rintro _ ⟨⟩
      exact sessionBody_obeys req
  | @call i req past op next ans t serving made =>
    obtain ⟨env, rfl, rfl⟩ := run_of_exec made
    obtain ⟨hallowed, hnext⟩ := h.keeps i _ serving
    have hlocal := h.locals i _ serving
    have hinv := h.sessions.run env op
    have hother {j : Nat} {th : Thread SessionRequest SsOp.Ans Int32} (hne : j ≠ i) (hth : p.threads j = some th) :
        th.req.username ≠ req.username := fun hsame => hne (h.users j i th _ hth serving hsame)
    refine ⟨hinv, Pool.apart_setThread (p := p) ?_ h.users, Pool.forall_setThread (p := p) ?_ fun j th hne hth => ?_,
      Pool.forall_setThread (p := p) ?_ fun j th _ => h.keeps j th⟩
    · rintro _ ⟨⟩ j th hne hth
      exact hother hne hth
    · rintro _ ⟨⟩
      rw [localOf_snoc]
      exact hlocal.own h.sessions env rfl hallowed
    · -- another thread, of another user
      exact (h.locals j th hth).other h.sessions hinv (op.run_id env _) (op.run_effect env _)
        (leaves_of_allowed h.sessions hlocal hallowed (hother hne hth).symm)
        fun f' u' i' r htakes hfound k hk => hnone r (Option.bind_eq_some_iff.mpr ⟨_, htakes, hfound⟩) j k
          (Option.bind_eq_some_iff.mpr ⟨th, hth, hk⟩)
    · rintro _ ⟨⟩
      exact hnext _ trivial
  | answer serving =>
    exact ⟨h.sessions, Pool.apart_setThread nofun h.users, Pool.forall_setThread nofun fun j th _ => h.locals j th,
      Pool.forall_setThread nofun fun j th _ => h.keeps j th⟩

theorem PointerInv.of_run (hs : s.writeSessions.count = 0)
    (h : Run (Guarded (fun p e => DifferentUsers p e ∧ NoneMoved p e) SsStep) (Pool.idle s) es p) :
    PointerInv p :=
  h.state_invariant (.idle hs) fun _ _ _ hinv hstep => hinv.step hstep.1.1 hstep.1.2 hstep.2

/-! ## A session of one's own -/

end Pools

/-- The files that an operation reads or writes. -/
def SsOp.files (s : SharedServer) : SsOp → List Path
  | .parseMain f | .openMain f => [filePath s.id f]
  | .copyMain f temp => [filePath s.id f, temp]
  | .parseTemp session | .writeTemp session _ | .openTemp session => [s.tempOf session]
  | .removeWriteSession f u i => ((s.findSession f u i).map s.tempOf).toList
  | .processCommitQueue f => filePath s.id f :: undoPath (filePath s.id f) ::
      ((s.view []).pendingOf f).map CommitQueueEntry.tempFilepath
  | _ => []

/-- The slots that an operation fills, as far as it does. -/
def SsOp.fills (s : SharedServer) : SsOp → List Nat
  | .storeCount session _ | .storeLockTime session => [session]
  | .getWriteSession f u i create =>
    if (s.findSession f u i).isNone && (create && s.writeSessions.count < MAX_CLIENTS * 10) then
      [s.writeSessions.count]
    else []
  | _ => []

/-- A write reads and writes the copy of its session only, a start fills the slot of its session only, and a commit
enqueues the copy and the counts of its session. -/
def OwnOnly (s : SharedServer) (req : SessionRequest) (op : SsOp) (t : SharedServer) : Prop :=
  match req with
  | .write f u i _ _ => ∀ path ∈ op.files s, path = tempPath s.id f u i
  | .start f u i => ∀ session ∈ op.fills s, t.findSession f u i = some session
  | .commit f u i => ∀ g entry lockTime, op = .enqueue g entry lockTime → g = f ∧
      ∃ w, s.recordOf f u i = some w ∧ w.tempFilepath = tempPath s.id f u i ∧ w.lockTime = lockTime ∧
        entry = ⟨u, i, w.originalSentenceCount, w.tempFilepath⟩
  | .cancel _ _ _ => True

section Steps
variable {s : SharedServer} {req : SessionRequest} {l : ThreadLocal} {op : SsOp}

/-- **What is allowed is one's own**, if the slot is that of the session. -/
theorem ownOnly_of_allowed (env : SsEnv) (hs : SessionsInv s)
    (hlocal : LocalInv s req.filename req.username req.sentIdx l) (hallowed : Allowed req l op) :
    OwnOnly s req op (op.run env s).2 := by
  cases req with
  | write f u i wordIdx content =>
    intro path hpath
    cases op with
    | parseTemp session | writeTemp session text =>
      rw [List.mem_singleton.mp hpath]
      exact (hlocal.slot hs hallowed.2).2
    | getWriteSession _ _ _ _ | dropWriteSession _ _ _ => cases hpath
    | removeWriteSession _ _ _ => exact absurd trivial hallowed.2
    | parseMain _ | openMain _ | copyMain _ _ | getCommitQueue _ | processCommitQueue _ => exact hallowed.elim
    | openTemp _ | storeCount _ _ | storeLockTime _ | readCount _ | readLockTime _ | readTempFilepath _
    | enqueue _ _ _ => exact hallowed.1.elim
  | start f u i =>
    intro session hsession
    cases op with
    | storeCount _ _ | storeLockTime _ =>
      rw [List.mem_singleton.mp hsession]
      exact findSession_left hs (hs.run env _) (SsOp.run_effect env _ s) nofun (hlocal.session _ hallowed.2.1)
    | getWriteSession f' u' i' create =>
      obtain ⟨rfl, rfl, rfl⟩ : f = f' ∧ u = u' ∧ i = i' := by
        have hkey : (f, u, i) = (f', u', i') := hallowed
        simp only [Prod.mk.injEq] at hkey
        exact hkey
      simp only [SsOp.fills] at hsession
      split at hsession
      · rename_i hnew
        rw [Bool.and_eq_true, Option.isNone_iff_eq_none] at hnew
        rw [List.mem_singleton.mp hsession, run_getWriteSession_absent hnew.1, if_pos hnew.2]
        exact (findSession_added hs hnew.1).2
      · cases hsession
    | _ => cases hsession
  | commit f u i =>
    rintro g entry lockTime rfl
    obtain ⟨-, hkey, hcount, htime, htemp⟩ := hallowed
    have hkey : (f, u, i) = (g, entry.username, entry.sentenceIdx) := hkey
    simp only [Prod.mk.injEq] at hkey
    obtain ⟨w, hw, hn⟩ := hlocal.count _ hcount
    obtain ⟨w', hw', ht⟩ := hlocal.lockTime _ htime
    obtain rfl : w = w' := Option.some.inj (hw.symm.trans hw')
    obtain ⟨hmem, hwkey⟩ := (recordOf_eq_some hs).mp hw
    have hcopy : w.tempFilepath = tempPath s.id f u i := hs.temp hmem hwkey
    refine ⟨hkey.1.symm, w, hw, hcopy, ht, ?_⟩
    obtain ⟨username, sentenceIdx, count, temp⟩ := entry
    simp only at hkey hn
    rw [CommitQueueEntry.mk.injEq]
    exact ⟨hkey.2.1.symm, hkey.2.2.symm, hn.symm, (hlocal.temp _ htemp).trans hcopy.symm⟩
  | cancel f u i => trivial

end Steps

/-- **A session of one's own**: calls of different users, under which no session is taken out before one whose slot
is still used, keep to their own sessions. -/
theorem own_session_only {s : SharedServer} (hs : s.writeSessions.count = 0) {es : List SsEvent}
    {p q : SsPool}
    (h : Run (Guarded (fun p e => DifferentUsers p e ∧ NoneMoved p e) SsStep) (Pool.idle s) es p) {i : Nat}
    {req : SessionRequest} {past : List (Call SsOp.Ans)} {c : Call SsOp.Ans}
    (hstep : SsStep p (.call i req past c) q) : OwnOnly p.state req c.op q.state := by
  have hinv := PointerInv.of_run hs h
  cases hstep with
  | @call _ _ _ op next ans t serving made =>
    obtain ⟨env, rfl, rfl⟩ := run_of_exec made
    exact ownOnly_of_allowed env hinv.sessions (hinv.locals i _ serving) (hinv.keeps i _ serving).1

/-! ## Runs that can be evaluated -/

/-- Thread `i` serves the `i`-th user. -/
def Seated (users : List Username) : SsEvent → Prop
  | .start i req => users[i]? = some req.username
  | _ => True

instance (users : List Username) (e : SsEvent) : Decidable (Seated users e) := by
  cases e with
  | start i req => exact inferInstanceAs (Decidable (_ = _))
  | call _ _ _ _ => exact .isTrue trivial
  | answer _ _ _ _ => exact .isTrue trivial

/-- `NoneMoved` as far as the first `n` threads are concerned. -/
def NoneMovedAmong (n : Nat) (p : SsPool) : SsEvent → Prop
  | .call _ _ _ c => ∀ r ∈ c.op.vacates p.state, ∀ j < n, ∀ k ∈ slotOf p j, ¬ r < k
  | _ => True

instance (n : Nat) (p : SsPool) (e : SsEvent) : Decidable (NoneMovedAmong n p e) := by
  cases e with
  | call _ _ _ c => exact inferInstanceAs (Decidable (∀ r ∈ c.op.vacates p.state, ∀ j < n, ∀ k ∈ slotOf p j, ¬ r < k))
  | start _ _ => exact .isTrue trivial
  | answer _ _ _ _ => exact .isTrue trivial

/-- A thread that is serving has a seat. -/
def Seats (users : List Username) (p : SsPool) : Prop :=
  ∀ i th, p.threads i = some th → users[i]? = some th.req.username

/-- Users with seats of their own are different users. -/
theorem run_of_seated {users : List Username} (hnodup : users.Nodup) {guard guard' : SsPool → SsEvent → Prop}
    (hguard : ∀ p e, Seats users p → guard p e → guard' p e) {s : SharedServer} {es : List SsEvent}
    {p : SsPool} (h : Run (Guarded (fun p e => Seated users e ∧ guard p e) SsStep) (Pool.idle s) es p) :
    Run (Guarded (fun p e => DifferentUsers p e ∧ guard' p e) SsStep) (Pool.idle s) es p ∧ Seats users p := by
  refine h.invariant (I := fun es p => Run _ _ es p ∧ Seats users p) ⟨.nil, fun i th hth => by cases hth⟩ ?_
  rintro es p e q ⟨hrun, hseats⟩ ⟨⟨hseated, hg⟩, hstep⟩
  refine ⟨hrun.snoc ⟨⟨?_, hguard p e hseats hg⟩, hstep⟩, ?_⟩
  · cases hstep with
    | @start i req idle =>
      intro j th hth hsame
      have hseat : users[i]? = some req.username := hseated
      obtain ⟨hi, hget⟩ := List.getElem?_eq_some_iff.mp hseat
      obtain ⟨hj, hget'⟩ := List.getElem?_eq_some_iff.mp (hseats j th hth)
      obtain rfl : j = i := (hnodup.getElem_inj_iff).mp (hget'.trans (hsame.trans hget.symm))
      rw [idle] at hth
      cases hth
    | call _ _ => trivial
    | answer _ => trivial
  · cases hstep with
    | start req idle =>
      refine Pool.forall_setThread ?_ fun j th _ => hseats j th
      rintro _ ⟨⟩
      exact hseated
    | @call i req past op next ans t serving made =>
      refine Pool.forall_setThread (p := p) ?_ fun j th _ => hseats j th
      rintro _ ⟨⟩
      exact hseats i ⟨req, past, .call op next⟩ serving
    | answer serving => exact Pool.forall_setThread nofun fun j th _ => hseats j th

theorem noneMoved_of_among {users : List Username} {p : SsPool} {e : SsEvent} (hseats : Seats users p)
    (h : NoneMovedAmong users.length p e) : NoneMoved p e := by
  cases e with
  | call i req past c =>
    intro r hr j k hk
    obtain ⟨th, hth, -⟩ := Option.bind_eq_some_iff.mp hk
    exact h r hr j (List.getElem?_eq_some_iff.mp (hseats j th hth)).1 k hk
  | start _ _ => trivial
  | answer _ _ _ _ => trivial

/-- Every open succeeds. -/
def sessionEnv : SsEnv := ⟨.allOpens, 0, []⟩

/-- A server with one file and no session. -/
def sharedWith (text : CStr) : SharedServer where
  id := 1
  disk := Function.update (fun _ => none) (filePath 1 notes) (some text)
  writeSessions := ⟨fun _ => ⟨⟨notes, alice, 0, [], 0⟩, 0, false⟩, 0⟩
  commitQueues := []

/-- A call of a session function that makes some operations, and answers if it is to. -/
def servesFor (i : Nat) (req : SessionRequest) (turns : Nat) : List (Nat × Turn SessionRequest SsEnv) :=
  (i, .take req) :: List.replicate turns (i, .go sessionEnv)

/-- Two sessions of `alice` with one of `bob` between them; he has looked his up for a write when she cancels the one
on sentence `x`. -/
def cancelledMeanwhile (x : Int32) : List (Nat × Turn SessionRequest SsEnv) :=
  servesFor 0 (.start notes alice 0) 8 ++ servesFor 1 (.start notes bob 1) 8 ++ servesFor 0 (.start notes alice 2) 8 ++
    servesFor 1 (.write notes bob 1 1 (lit "x")) 1 ++ servesFor 0 (.cancel notes alice x) 2

/-- The session of a write, and the files that its operation touches. -/
def written (s : SharedServer) : SsEvent → Option ((Filename × Username × Int32) × List Path)
  | .call _ (.write f u i _ _) _ c => some ((f, u, i), c.op.files s)
  | _ => none

/-- What thread 1 touches next. -/
def touchedNext (guard : SsPool → SsEvent → Prop) [∀ p e, Decidable (guard p e)]
    (turns : List (Nat × Turn SessionRequest SsEnv)) : Option ((Filename × Username × Int32) × List Path) :=
  (runSchedule SsOp.exec sessionBody guard (Pool.idle (sharedWith (lit "One. Two. Three."))) turns).bind fun r =>
    (takeTurn SsOp.exec sessionBody r.2 1 (.go sessionEnv)).bind fun n => written r.2.state n.1

theorem run_touchedNext {guard : SsPool → SsEvent → Prop} [∀ p e, Decidable (guard p e)]
    {turns : List (Nat × Turn SessionRequest SsEnv)} {key : Filename × Username × Int32} {paths : List Path}
    (h : touchedNext guard turns = some (key, paths)) : ∃ es p i f u x wordIdx content past c q,
      Run (Guarded guard SsStep) (Pool.idle (sharedWith (lit "One. Two. Three."))) es p ∧
        SsStep p (.call i (.write f u x wordIdx content) past c) q ∧ key = (f, u, x) ∧
          paths = c.op.files p.state := by
  obtain ⟨⟨es, p⟩, hrun, h⟩ := Option.bind_eq_some_iff.mp h
  obtain ⟨⟨e, q⟩, hturn, h⟩ := Option.bind_eq_some_iff.mp h
  have hstep := step_of_takeTurn hturn
  cases e with
  | call i req past c =>
    cases req with
    | write f u x wordIdx content =>
      obtain ⟨rfl, rfl⟩ := Prod.mk.inj (Option.some.inj h)
      exact ⟨es, p, i, f, u, x, wordIdx, content, past, c, q, run_of_schedule hrun, hstep, rfl, rfl⟩
    | start _ _ _ | commit _ _ _ | cancel _ _ _ => cases h
  | start _ _ => cases h
  | answer _ _ _ _ => cases h

theorem id_of_run {s : SharedServer} {es : List SsEvent} {p : SsPool}
    (h : Run SsStep (Pool.idle s) es p) : p.state.id = s.id := by
  refine h.state_invariant (I := fun p => p.state.id = s.id) rfl fun p e q hid hstep => ?_
  cases hstep with
  | start _ _ | answer _ => exact hid
  | @call _ _ _ op _ _ _ _ made =>
    obtain ⟨env, -, rfl⟩ := run_of_exec made
    exact (op.run_id env p.state).trans hid

theorem alice_bob_nodup : [alice, bob].Nodup := by decide

theorem own_session_only_sample : ∃ s es p q i f u x wordIdx content past c,
    Run (Guarded (fun p e => DifferentUsers p e ∧ NoneMoved p e) SsStep) (Pool.idle s) es p ∧
      SsStep p (.call i (.write f u x wordIdx content) past c) q ∧
        c.op.files p.state = [tempPath 1 notes bob 1] ∧
          OwnOnly p.state (.write f u x wordIdx content) c.op q.state := by
  have htouched : touchedNext (fun p e => Seated [alice, bob] e ∧ NoneMovedAmong 2 p e) (cancelledMeanwhile 2) =
      some ((notes, bob, 1), [tempPath 1 notes bob 1]) := by decide
  obtain ⟨es, p, i, f, u, x, wordIdx, content, past, c, q, hrun, hstep, -, hpaths⟩ := run_touchedNext htouched
  have hguarded := (run_of_seated alice_bob_nodup (fun _ _ => noneMoved_of_among) hrun).1
  exact ⟨_, es, p, q, i, f, u, x, wordIdx, content, past, c, hguarded, hstep, hpaths.symm,
    own_session_only rfl hguarded hstep⟩

/-- **A write that goes on in the copy of another user's session.** -/
theorem write_into_other : ∃ s es p q i f u x wordIdx content past c, s.writeSessions.count = 0 ∧
    Run (Guarded DifferentUsers SsStep) (Pool.idle s) es p ∧
      SsStep p (.call i (.write f u x wordIdx content) past c) q ∧ u = bob ∧
        c.op.files p.state = [tempPath 1 notes alice 2] ∧
          ¬ OwnOnly p.state (.write f u x wordIdx content) c.op q.state := by
  have htouched : touchedNext (fun _ e => Seated [alice, bob] e ∧ True) (cancelledMeanwhile 0) =
      some ((notes, bob, 1), [tempPath 1 notes alice 2]) := by decide
  obtain ⟨es, p, i, f, u, x, wordIdx, content, past, c, q, hrun, hstep, hkey, hpaths⟩ := run_touchedNext htouched
  simp only [Prod.mk.injEq] at hkey
  obtain ⟨rfl, rfl, rfl⟩ := hkey
  have hguarded := (@run_of_seated _ alice_bob_nodup _ (fun _ _ => True) (fun _ _ _ => id) _ _ _ hrun).1
  refine ⟨_, es, p, q, i, notes, bob, 1, wordIdx, content, past, c, rfl,
    hguarded.mono fun _ _ _ hstep => ⟨hstep.1.1, hstep.2⟩, hstep, rfl, hpaths.symm, fun hown => ?_⟩
  have hpath : tempPath 1 notes alice 2 = tempPath p.state.id notes bob 1 := by
    refine hown _ ?_
    rw [← hpaths]
    exact List.mem_singleton_self _
  rw [id_of_run hguarded.unguarded] at hpath
  exact absurd (tempPath_injective hpath).2 (by decide)

end NetworkFileShare
