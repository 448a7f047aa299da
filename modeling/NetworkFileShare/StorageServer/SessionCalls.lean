import NetworkFileShare.Lib.Interleave
import NetworkFileShare.Lib.SlotArray
import NetworkFileShare.StorageServer.Locks

/-!
# The session functions step by step (`ss.c`)

* `SessionRecord`, `SharedServer` : `write_sessions` as the array it is, with the files and the queues;
* `SsOp` : the mutex-protected sections, the file operations and the uses of a pointer into the array;
* `startWriteSessionSs`, `writeSession`, `commitWriteSessionSs`, `cancelWriteSessionSs` : the functions as programs
  over these; `get_write_session` gives them the index of a slot, which they use after the mutex is released;
* `ArrayEffect` : what an operation does to the array; `SessionsInv` : the sessions in it are told apart by their keys.
-/

namespace NetworkFileShare

/-- An element of `write_sessions`. -/
structure SessionRecord extends WriteSession where
  lockTime : Int
  active : Bool

/-- What the session functions of all threads work on. -/
structure SharedServer where
  id : Int32
  disk : Disk
  writeSessions : SlotArray SessionRecord
  commitQueues : List FileCommitQueue

/-- The test in the loops over `write_sessions`. -/
def SessionRecord.isFor (filename : Filename) (username : Username) (sentIdx : Int32) (w : SessionRecord) : Bool :=
  w.active && isSession filename username sentIdx w.toWriteSession

/-- The loop of `get_write_session` and of the functions that take a session out. -/
def SharedServer.findSession (s : SharedServer) (filename : Filename) (username : Username) (sentIdx : Int32) :
    Option Nat :=
  s.writeSessions.live.findIdx? (SessionRecord.isFor filename username sentIdx)

/-! ## Sections and file operations -/

/-- A section under a mutex, a file operation, or the use of a field through the pointer `session`. -/
inductive SsOp where
  | getWriteSession (filename : Filename) (username : Username) (sentIdx : Int32) (create : Bool)
  | removeWriteSession (filename : Filename) (username : Username) (sentIdx : Int32)
  /-- The section at the end of `commit_write_session_ss`, which leaves the copy to the queue. -/
  | dropWriteSession (filename : Filename) (username : Username) (sentIdx : Int32)
  | parseMain (filename : Filename)
  | openMain (filename : Filename)
  | copyMain (filename : Filename) (temp : Path)
  | parseTemp (session : Nat)
  | writeTemp (session : Nat) (text : CStr)
  | openTemp (session : Nat)
  | storeCount (session : Nat) (count : Nat)
  | storeLockTime (session : Nat)
  | readCount (session : Nat)
  | readLockTime (session : Nat)
  | readTempFilepath (session : Nat)
  | getCommitQueue (filename : Filename)
  | enqueue (filename : Filename) (entry : CommitQueueEntry) (lockTime : Int)
  | processCommitQueue (filename : Filename)

abbrev SsOp.Ans : SsOp → Type
  | .getWriteSession _ _ _ _ => Option Nat
  | .parseMain _ | .parseTemp _ => Option FileContent
  | .openMain _ | .writeTemp _ _ | .getCommitQueue _ => Bool
  | .openTemp _ => Option Path
  | .readCount _ => Nat
  | .readLockTime _ => Int
  | .readTempFilepath _ => Path
  | .removeWriteSession _ _ _ | .dropWriteSession _ _ _ | .copyMain _ _ | .storeCount _ _ | .storeLockTime _
  | .enqueue _ _ _ | .processCommitQueue _ => Unit

/-- What is out of the server's hands in one operation: the opens that succeed, the time, and what is in a file
that has been unlinked while it is open. -/
structure SsEnv where
  io : Io
  now : Int
  unlinked : CStr

/-- `get_commit_queue`. -/
def getCommitQueue (filename : Filename) (queues : List FileCommitQueue) : Bool × List FileCommitQueue :=
  if queues.any (·.filename = filename) then (true, queues)
  else if queues.length < MAX_FILE_QUEUES then (true, queues ++ [⟨filename, []⟩])
  else (false, queues)

/-- The text that `fread` and `fwrite` copy to the beginning of an open file. -/
def overwrite (text old : CStr) : CStr := text ++ old.drop text.length

namespace SharedServer

/-- The server without its threads, `locks` being the lock table. -/
def view (s : SharedServer) (locks : List FileLocks) : StorageServer where
  id := s.id
  disk := s.disk
  fileLocks := locks
  writeSessions := s.writeSessions.live.map SessionRecord.toWriteSession
  commitQueues := s.commitQueues

/-- The first free slot as `get_write_session` fills it; the other fields keep what was in them. -/
def newSession (s : SharedServer) (filename : Filename) (username : Username) (sentIdx : Int32) : SessionRecord :=
  { s.writeSessions.slots s.writeSessions.count with
    filename := filename, username := username, sentenceIdx := sentIdx,
    tempFilepath := tempPath s.id filename username sentIdx, active := true }

def addSession (s : SharedServer) (filename : Filename) (username : Username) (sentIdx : Int32) : SharedServer :=
  { s with writeSessions := s.writeSessions.push (s.newSession filename username sentIdx) }

/-- The copy that the pointer `session` leads to. -/
def tempOf (s : SharedServer) (session : Nat) : Path := (s.writeSessions.slots session).tempFilepath

end SharedServer

/-- One operation of a thread. -/
def SsOp.run (env : SsEnv) : (op : SsOp) → SharedServer → op.Ans × SharedServer
  | .getWriteSession f u i create, s =>
    match s.findSession f u i with
    | some session => (some session, s)
    | none =>
      if create && s.writeSessions.count < MAX_CLIENTS * 10 then
        (some s.writeSessions.count, s.addSession f u i)
      else (none, s)
  | .removeWriteSession f u i, s =>
    match s.findSession f u i with
    | none => ((), s)
    | some session => ((), { s with
        disk := unlink s.disk (s.tempOf session), writeSessions := s.writeSessions.removeAt session })
  | .dropWriteSession f u i, s =>
    match s.findSession f u i with
    | none => ((), s)
    | some session => ((), { s with writeSessions := s.writeSessions.removeAt session })
  | .parseMain f, s => (parseFile env.io s.disk (filePath s.id f), s)
  | .openMain f, s => ((readFile env.io s.disk (filePath s.id f)).isSome, s)
  | .copyMain f temp, s =>
    match s.disk temp with
    | none => ((), s)
    | some old =>
      let text := (s.disk (filePath s.id f)).getD env.unlinked
      ((), { s with disk := Function.update s.disk temp (some (overwrite text old)) })
  | .parseTemp session, s => (parseFile env.io s.disk (s.tempOf session), s)
  | .writeTemp session text, s =>
    match writeFile env.io s.disk (s.tempOf session) text with
    | none => (false, s)
    | some disk => (true, { s with disk := disk })
  | .openTemp session, s =>
    match writeFile env.io s.disk (s.tempOf session) [] with
    | none => (none, s)
    | some disk => (some (s.tempOf session), { s with disk := disk })
  | .storeCount session count, s => ((), { s with
      writeSessions := s.writeSessions.modify session fun w => { w with originalSentenceCount := count } })
  | .storeLockTime session, s => ((), { s with
      writeSessions := s.writeSessions.modify session fun w => { w with lockTime := env.now } })
  | .readCount session, s => ((s.writeSessions.slots session).originalSentenceCount, s)
  | .readLockTime session, s => ((s.writeSessions.slots session).lockTime, s)
  | .readTempFilepath session, s => (s.tempOf session, s)
  | .getCommitQueue f, s =>
    match NetworkFileShare.getCommitQueue f s.commitQueues with
    | (found, queues) => (found, { s with commitQueues := queues })
  | .enqueue f entry _, s => ((), { s with commitQueues := s.commitQueues.map fun q =>
      if q.filename = f then { q with entries := q.entries ++ [entry] } else q })
  | .processCommitQueue f, s =>
    let t := NetworkFileShare.processCommitQueue env.io (s.view []) f
    ((), { s with disk := t.disk, commitQueues := t.commitQueues })

/-- Every operation returns. -/
def SsOp.exec (env : SsEnv) (op : SsOp) (s : SharedServer) : Option (op.Ans × SharedServer) := some (op.run env s)

/-! ## The functions -/

/-- A program of a thread. -/
abbrev SsProg : Type := Prog SsOp.Ans Int32

/-- One operation of a program. -/
abbrev SsOp.perform (op : SsOp) : Prog SsOp.Ans op.Ans := Prog.perform op

open SsOp (perform)

/-- The end of `start_write_session_ss`, which copies the file to the copy of the session. -/
def copyToTemp (f : Filename) (u : Username) (i : Int32) (session : Nat) : SsProg := do
  let src ← perform (.openMain f)
  match ← perform (.openTemp session) with
  | none =>
    perform (.removeWriteSession f u i)
    return ERR_SERVER_ERROR
  | some temp =>
    if src then
      perform (.copyMain f temp)
      return SUCCESS
    else return SUCCESS

/-- `start_write_session_ss`. -/
def startWriteSessionSs (f : Filename) (u : Username) (i : Int32) : SsProg := do
  let fc ← perform (.parseMain f)
  match ← perform (.getWriteSession f u i true) with
  | none => return ERR_SERVER_ERROR
  | some session =>
    perform (.storeCount session ((fc.map (·.sentenceCount)).getD 0))
    perform (.storeLockTime session)
    copyToTemp f u i session

/-- The copy as `write_file_ss` goes on with it. -/
def parsedTemp : Option FileContent → FileContent
  | none => oneEmptySentence
  | some fc => if fc.sentenceCount = 0 then oneEmptySentence else fc

/-- `write_file_ss`. -/
def writeSession (f : Filename) (u : Username) (i wordIdx : Int32) (content : CStr) : SsProg := do
  match ← perform (.getWriteSession f u i false) with
  | none => return ERR_INVALID_OPERATION
  | some session =>
    let fc := parsedTemp (← perform (.parseTemp session))
    if i.toInt < 0 ∨ i.toInt > fc.sentenceCount then return ERR_INVALID_INDEX
    else
      match insertWordInSentence fc i.toInt wordIdx.toInt content with
      | none => return ERR_INVALID_INDEX
      | some (fc, _) =>
        let written ← perform (.writeTemp session fc.text)
        if written then return SUCCESS else return ERR_SERVER_ERROR

/-- `commit_write_session_ss`, with `enqueue_commit`. -/
def commitWriteSessionSs (f : Filename) (u : Username) (i : Int32) : SsProg := do
  match ← perform (.getWriteSession f u i false) with
  | none => return SUCCESS
  | some session =>
    let count ← perform (.readCount session)
    let lockTime ← perform (.readLockTime session)
    let queue ← perform (.getCommitQueue f)
    if queue then
      let temp ← perform (.readTempFilepath session)
      perform (.enqueue f ⟨u, i, count, temp⟩ lockTime)
      perform (.dropWriteSession f u i)
      perform (.processCommitQueue f)
      return SUCCESS
    else
      perform (.removeWriteSession f u i)
      return ERR_SERVER_ERROR

/-- `cancel_write_session_ss`. -/
def cancelWriteSessionSs (f : Filename) (u : Username) (i : Int32) : SsProg := do
  match ← perform (.getWriteSession f u i false) with
  | none => return SUCCESS
  | some _ =>
    perform (.removeWriteSession f u i)
    return SUCCESS

/-- A call of one of the functions. -/
inductive SessionRequest where
  | start (filename : Filename) (username : Username) (sentIdx : Int32)
  | write (filename : Filename) (username : Username) (sentIdx wordIdx : Int32) (content : CStr)
  | commit (filename : Filename) (username : Username) (sentIdx : Int32)
  | cancel (filename : Filename) (username : Username) (sentIdx : Int32)

def sessionBody : SessionRequest → SsProg
  | .start f u i => startWriteSessionSs f u i
  | .write f u i wordIdx content => writeSession f u i wordIdx content
  | .commit f u i => commitWriteSessionSs f u i
  | .cancel f u i => cancelWriteSessionSs f u i

/-- The session that a call is for. -/
def SessionRequest.key : SessionRequest → Filename × Username × Int32
  | .start f u i | .write f u i _ _ | .commit f u i | .cancel f u i => (f, u, i)

/-! ## What an operation does to the array -/

/-- The session that the operation takes out of the array. -/
def SsOp.takesOut : SsOp → Option (Filename × Username × Int32)
  | .removeWriteSession f u i | .dropWriteSession f u i => some (f, u, i)
  | _ => none

/-- The slot that the operation stores something in. -/
def SsOp.stores : SsOp → Option Nat
  | .storeCount session _ | .storeLockTime session => some session
  | _ => none

/-- The array is as before, or has a new session at its end, a session with another count or lock time, or one
session less. -/
inductive ArrayEffect (s : SharedServer) : SsOp → SharedServer → Prop where
  | same {op : SsOp} {t : SharedServer} (sessions : t.writeSessions = s.writeSessions) : ArrayEffect s op t
  | pushed {t : SharedServer} {f : Filename} {u : Username} {i : Int32} (absent : s.findSession f u i = none)
      (sessions : t.writeSessions = s.writeSessions.push (s.newSession f u i)) :
      ArrayEffect s (.getWriteSession f u i true) t
  | counted {t : SharedServer} (session count : Nat) (sessions : t.writeSessions =
      s.writeSessions.modify session fun w => { w with originalSentenceCount := count }) :
      ArrayEffect s (.storeCount session count) t
  | timed {t : SharedServer} (session : Nat) (now : Int) (sessions : t.writeSessions =
      s.writeSessions.modify session fun w => { w with lockTime := now }) :
      ArrayEffect s (.storeLockTime session) t
  | removed {op : SsOp} {t : SharedServer} {f : Filename} {u : Username} {i : Int32} {session : Nat}
      (is : op.takesOut = some (f, u, i)) (found : s.findSession f u i = some session)
      (sessions : t.writeSessions = s.writeSessions.removeAt session) : ArrayEffect s op t

section Sections
variable {env : SsEnv} {s : SharedServer} {f : Filename} {u : Username} {i : Int32} {k : Nat}

theorem run_getWriteSession_found (h : s.findSession f u i = some k) (create : Bool) :
    (SsOp.getWriteSession f u i create).run env s = (some k, s) := by
  simp only [SsOp.run, h]

theorem run_getWriteSession_absent (h : s.findSession f u i = none) (create : Bool) :
    (SsOp.getWriteSession f u i create).run env s =
      if create && s.writeSessions.count < MAX_CLIENTS * 10 then (some s.writeSessions.count, s.addSession f u i)
      else (none, s) := by
  simp only [SsOp.run, h]

theorem run_removeWriteSession_found (h : s.findSession f u i = some k) :
    (SsOp.removeWriteSession f u i).run env s = ((), { s with
      disk := unlink s.disk (s.tempOf k), writeSessions := s.writeSessions.removeAt k }) := by
  simp only [SsOp.run, h]

theorem run_removeWriteSession_absent (h : s.findSession f u i = none) :
    (SsOp.removeWriteSession f u i).run env s = ((), s) := by
  simp only [SsOp.run, h]

theorem run_dropWriteSession_found (h : s.findSession f u i = some k) :
    (SsOp.dropWriteSession f u i).run env s = ((), { s with writeSessions := s.writeSessions.removeAt k }) := by
  simp only [SsOp.run, h]

theorem run_dropWriteSession_absent (h : s.findSession f u i = none) :
    (SsOp.dropWriteSession f u i).run env s = ((), s) := by
  simp only [SsOp.run, h]

end Sections

/-- **What the operations do to the array.** -/
theorem SsOp.run_effect (env : SsEnv) (op : SsOp) (s : SharedServer) : ArrayEffect s op (op.run env s).2 := by
  cases op with
  | getWriteSession f u i create =>
    cases hfind : s.findSession f u i with
    | some session =>
      rw [run_getWriteSession_found hfind]
      exact .same rfl
    | none =>
      rw [run_getWriteSession_absent hfind]
      split
      · rename_i hroom
        obtain rfl : create = true := (Bool.and_eq_true _ _ ▸ hroom).1
        exact .pushed hfind rfl
      · exact .same rfl
  | removeWriteSession f u i =>
    cases hfind : s.findSession f u i with
    | none =>
      rw [run_removeWriteSession_absent hfind]
      exact .same rfl
    | some session =>
      rw [run_removeWriteSession_found hfind]
      exact .removed rfl hfind rfl
  | dropWriteSession f u i =>
    cases hfind : s.findSession f u i with
    | none =>
      rw [run_dropWriteSession_absent hfind]
      exact .same rfl
    | some session =>
      rw [run_dropWriteSession_found hfind]
      exact .removed rfl hfind rfl
  | storeCount session count => exact .counted session count rfl
  | storeLockTime session => exact .timed session env.now rfl
  | copyMain _ _ | writeTemp _ _ | openTemp _ =>
    unfold SsOp.run
    dsimp only
    split <;> exact .same rfl
  | _ => exact .same rfl

theorem SsOp.run_id (env : SsEnv) (op : SsOp) (s : SharedServer) : (op.run env s).2.id = s.id := by
  cases op with
  | getWriteSession f u i create =>
    cases hfind : s.findSession f u i with
    | some session => rw [run_getWriteSession_found hfind]
    | none =>
      rw [run_getWriteSession_absent hfind]
      split <;> rfl
  | removeWriteSession _ _ _ | dropWriteSession _ _ _ | copyMain _ _ | writeTemp _ _ | openTemp _ =>
    unfold SsOp.run
    dsimp only
    split <;> rfl
  | _ => rfl

/-! ## The sessions in the array -/

/-- Every element in use is active and has its own key and its own copy. -/
structure SessionsInv (s : SharedServer) : Prop where
  active : ∀ w ∈ s.writeSessions.live, w.active = true
  ok : SessionsOk s.id (s.writeSessions.live.map SessionRecord.toWriteSession)

section Sessions
variable {s t : SharedServer} {f : Filename} {u : Username} {i : Int32} {k : Nat}

theorem isFor_iff {w : SessionRecord} (h : w.active = true) : w.isFor f u i = true ↔ w.key = (f, u, i) := by
  rw [SessionRecord.isFor, h, Bool.true_and, isSession_iff]

/-- The copy of an element in use is named by its key. -/
theorem SessionsInv.temp (h : SessionsInv s) {w : SessionRecord} (hw : w ∈ s.writeSessions.live)
    (hkey : w.key = (f, u, i)) : w.tempFilepath = tempPath s.id f u i := by
  simp only [WriteSession.key, Prod.mk.injEq] at hkey
  rw [h.ok.temps _ (List.mem_map_of_mem hw), hkey.1, hkey.2.1, hkey.2.2]

/-- No two elements in use have one key. -/
theorem SessionsInv.unique (h : SessionsInv s) {j : Nat} (hj : j < s.writeSessions.count)
    (hk : k < s.writeSessions.count) (hkey : (s.writeSessions.slots j).key = (s.writeSessions.slots k).key) :
    j = k := by
  have hkeys := h.ok.keys
  unfold SlotArray.live at hkeys
  rw [List.map_map, List.map_map] at hkeys
  exact List.inj_on_of_nodup_map hkeys (List.mem_range.mpr hj) (List.mem_range.mpr hk) hkey

/-- **The search finds the slot that has the key.** -/
theorem findSession_eq_some (h : SessionsInv s) :
    s.findSession f u i = some k ↔ k < s.writeSessions.count ∧ (s.writeSessions.slots k).key = (f, u, i) := by
  rw [SharedServer.findSession, List.findIdx?_eq_some_iff_getElem]
  have hget (j : Nat) (hj : j < s.writeSessions.live.length) :
      s.writeSessions.live[j] = s.writeSessions.slots j :=
    (SlotArray.getElem?_live_eq_some.mp (List.getElem?_eq_getElem hj)).2.symm
  constructor
  · rintro ⟨hk, hfor, -⟩
    rw [hget k hk] at hfor
    rw [SlotArray.length_live] at hk
    exact ⟨hk, (isFor_iff (h.active _ (SlotArray.slots_mem_live hk))).mp hfor⟩
  · rintro ⟨hk, hkey⟩
    have hlen : k < s.writeSessions.live.length := by rwa [SlotArray.length_live]
    refine ⟨hlen, ?_, fun j hj hfor => ?_⟩
    · rw [hget k hlen]
      exact (isFor_iff (h.active _ (SlotArray.slots_mem_live hk))).mpr hkey
    · have hjk : j < s.writeSessions.count := hj.trans hk
      rw [hget j (hj.trans hlen), isFor_iff (h.active _ (SlotArray.slots_mem_live hjk))] at hfor
      exact absurd (h.unique hjk hk (hfor.trans hkey.symm)) (Nat.ne_of_lt hj)

theorem findSession_eq_none (h : SessionsInv s) :
    s.findSession f u i = none ↔ ∀ w ∈ s.writeSessions.live, w.key ≠ (f, u, i) := by
  rw [SharedServer.findSession, List.findIdx?_eq_none_iff]
  refine forall₂_congr fun w hw => ?_
  rw [Bool.eq_false_iff, Ne, isFor_iff (h.active w hw)]

theorem SessionsInv.of_nil (hs : s.writeSessions.count = 0) : SessionsInv s := by
  have hnil : s.writeSessions.live = [] := by
    rw [← List.length_eq_zero_iff, SlotArray.length_live, hs]
  refine ⟨fun w hw => ?_, ?_, fun w hw => ?_⟩
  · rw [hnil] at hw
    cases hw
  · rw [hnil]
    exact .nil
  · rw [hnil] at hw
    cases hw

/-- **Every operation keeps the sessions apart.** -/
theorem SessionsInv.effect {op : SsOp} (h : SessionsInv s) (hid : t.id = s.id) (heffect : ArrayEffect s op t) :
    SessionsInv t := by
  have hmodify {g : SessionRecord → SessionRecord} {k : Nat} (hsessions : t.writeSessions = s.writeSessions.modify k g)
      (hactive : ∀ w, (g w).active = w.active) (hkey : ∀ w, (g w).toWriteSession.key = w.toWriteSession.key)
      (htemp : ∀ w, (g w).tempFilepath = w.tempFilepath) : SessionsInv t := by
    refine ⟨fun w hw => ?_, ?_, fun w hw => ?_⟩
    · rw [hsessions, SlotArray.live_modify] at hw
      obtain ⟨v, hv, rfl | rfl⟩ := exists_of_mem_modify hw
      · exact h.active _ hv
      · rw [hactive]
        exact h.active _ hv
    · have hkeys := h.ok.keys
      rw [List.map_map] at hkeys
      rw [hsessions, SlotArray.live_modify, List.map_map, map_modify_of_keeps hkey]
      exact hkeys
    · rw [hsessions, SlotArray.live_modify] at hw
      obtain ⟨w, hmem, rfl⟩ := List.mem_map.mp hw
      obtain ⟨v, hv, rfl | rfl⟩ := exists_of_mem_modify hmem
      · rw [hid]
        exact h.ok.temps _ (List.mem_map_of_mem hv)
      · have hfields := hkey v
        simp only [WriteSession.key, Prod.mk.injEq] at hfields
        rw [hid, hfields.1, hfields.2.1, hfields.2.2, htemp]
        exact h.ok.temps _ (List.mem_map_of_mem hv)
  cases heffect with
  | same sessions =>
    refine ⟨?_, ?_⟩
    · rw [sessions]
      exact h.active
    · rw [sessions, hid]
      exact h.ok
  | @pushed _ f u i absent sessions =>
    have hlive : t.writeSessions.live = s.writeSessions.live ++ [s.newSession f u i] := by
      rw [sessions, SlotArray.live_push]
    have habsent := (findSession_eq_none h).mp absent
    refine ⟨fun w hw => ?_, ?_, fun w hw => ?_⟩
    · rw [hlive] at hw
      rcases List.mem_append.mp hw with hw | hw
      · exact h.active w hw
      · rw [List.mem_singleton.mp hw]
        rfl
    · rw [hlive, List.map_append, List.map_append]
      refine List.nodup_append.mpr ⟨h.ok.keys, List.nodup_singleton _, fun a ha b hb hab => ?_⟩
      obtain ⟨v, hv, rfl⟩ := List.mem_map.mp ha
      obtain ⟨w, hw, rfl⟩ := List.mem_map.mp hv
      rw [List.map_singleton, List.map_singleton, List.mem_singleton] at hb
      exact habsent w hw (hab.trans hb)
    · rw [hlive, List.map_append] at hw
      rcases List.mem_append.mp hw with hw | hw
      · rw [hid]
        exact h.ok.temps w hw
      · rw [hid, List.mem_singleton.mp hw]
        rfl
  | counted session count sessions => exact hmodify sessions (fun _ => rfl) (fun _ => rfl) fun _ => rfl
  | timed session now sessions => exact hmodify sessions (fun _ => rfl) (fun _ => rfl) fun _ => rfl
  | removed is found sessions =>
    have hlive : t.writeSessions.live.Sublist s.writeSessions.live := by
      rw [sessions, SlotArray.live_removeAt ((findSession_eq_some h).mp found).1]
      exact List.eraseIdx_sublist ..
    refine ⟨fun w hw => h.active w (hlive.subset hw), ?_, fun w hw => ?_⟩
    · exact h.ok.keys.sublist ((hlive.map _).map _)
    · rw [hid]
      exact h.ok.temps w ((hlive.map _).subset hw)

theorem SessionsInv.run (h : SessionsInv s) (env : SsEnv) (op : SsOp) : SessionsInv (op.run env s).2 :=
  h.effect (op.run_id env s) (op.run_effect env s)

/-- A session that has been added is found in its slot. -/
theorem findSession_added (hs : SessionsInv s) (habsent : s.findSession f u i = none) :
    SessionsInv (s.addSession f u i) ∧ (s.addSession f u i).findSession f u i = some s.writeSessions.count := by
  have hinv : SessionsInv (s.addSession f u i) := hs.effect rfl (.pushed habsent rfl)
  refine ⟨hinv, (findSession_eq_some hinv).mpr ⟨Nat.lt_succ_self _, ?_⟩⟩
  show ((s.writeSessions.push (s.newSession f u i)).slots s.writeSessions.count).key = _
  rw [SlotArray.slots_push_self]
  rfl

/-- A session stays in its slot, unless one in an earlier slot is taken out. -/
theorem findSession_left {op : SsOp} (hs : SessionsInv s) (ht : SessionsInv t) (heffect : ArrayEffect s op t)
    (htakes : ∀ f' u' i' r, op.takesOut = some (f', u', i') → s.findSession f' u' i' = some r →
      (f', u', i') ≠ (f, u, i) ∧ ¬ r < k)
    (hfind : s.findSession f u i = some k) : t.findSession f u i = some k := by
  obtain ⟨hk, hkey⟩ := (findSession_eq_some hs).mp hfind
  refine (findSession_eq_some ht).mpr ?_
  have hmodify {session : Nat} {h : SessionRecord → SessionRecord}
      (hsessions : t.writeSessions = s.writeSessions.modify session h) (hkeeps : ∀ w, (h w).key = w.key) :
      k < t.writeSessions.count ∧ (t.writeSessions.slots k).key = (f, u, i) := by
    rw [hsessions]
    refine ⟨hk, ?_⟩
    by_cases hsession : k = session
    · subst hsession
      rw [SlotArray.slots_modify_self, hkeeps]
      exact hkey
    · rw [SlotArray.slots_modify_of_ne h hsession]
      exact hkey
  cases heffect with
  | same sessions =>
    rw [sessions]
    exact ⟨hk, hkey⟩
  | pushed absent sessions =>
    rw [sessions]
    refine ⟨Nat.lt_succ_of_lt hk, ?_⟩
    rw [SlotArray.slots_push_of_lt _ hk]
    exact hkey
  | counted session count sessions => exact hmodify sessions fun _ => rfl
  | timed session now sessions => exact hmodify sessions fun _ => rfl
  | @removed _ _ f' u' i' r is found sessions =>
    obtain ⟨hne, hbefore⟩ := htakes f' u' i' r is found
    obtain ⟨hr, hkey'⟩ := (findSession_eq_some hs).mp found
    have hkr : k < r := by
      refine lt_of_le_of_ne (Nat.le_of_not_lt hbefore) ?_
      rintro rfl
      exact hne (hkey'.symm.trans hkey)
    rw [sessions]
    refine ⟨?_, ?_⟩
    · show k < s.writeSessions.count - 1
      omega
    · rw [SlotArray.slots_removeAt_of_lt hkr]
      exact hkey

end Sessions

end NetworkFileShare
