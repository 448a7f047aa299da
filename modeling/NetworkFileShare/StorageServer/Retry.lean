import NetworkFileShare.StorageServer.Deletion
import NetworkFileShare.StorageServer.Matching

/-!
# Commits that fail (`ss.c`: `commit_write_session_ss`, `get_commit_queue`)

* `HasRoom` : the file has a commit queue, or there is room for another; `WorkKept` : the file, the session, its copy
  and its lock are as they were;
* `session_gone` : an unlock ends the session in every case;
* `failed_unlock_iff` : what a failed unlock should keep is kept exactly when the unlock does not fail, and that is
  when there is room and the lock is the user's;
* `commitsTo` : edits of one file after another; `committed_commitsTo` : each takes a queue, and `edit_lost` : after a
  hundred of them the next commit loses the edit.
-/

namespace NetworkFileShare

/-- `get_commit_queue` finds a queue for the file. -/
def HasRoom (f : Filename) (queues : List FileCommitQueue) : Prop :=
  (∃ q ∈ queues, q.filename = f) ∨ queues.length < MAX_FILE_QUEUES

/-- The file, the session, its copy and its lock are as they were. -/
structure WorkKept (f : Filename) (u : Username) (i : Int32) (s t : StorageServer) : Prop where
  main : t.disk (s.path f) = s.disk (s.path f)
  session : getWriteSession t f u i = getWriteSession s f u i
  copy : ∀ w, getWriteSession s f u i = some w → t.disk w.tempFilepath = s.disk w.tempFilepath
  lock : getSentenceLock f i t.fileLocks = getSentenceLock f i s.fileLocks

section
variable {s : StorageServer} {f : Filename} {u : Username} {i : Int32} {io : Io} {queues : List FileCommitQueue}
  {entry : CommitQueueEntry}

theorem enqueueCommit_eq_none : enqueueCommit f entry queues = none ↔ ¬ HasRoom f queues := by
  unfold enqueueCommit HasRoom
  by_cases hany : (queues.any (·.filename = f)) = true
  · have hmem : ∃ q ∈ queues, q.filename = f := by simpa using hany
    rw [if_pos hany]
    exact iff_of_false (fun h => by cases h) fun h => h (Or.inl hmem)
  · have hmem : ¬ ∃ q ∈ queues, q.filename = f := by simpa using hany
    rw [if_neg hany, or_iff_right hmem]
    split
    · exact iff_of_false (fun h => by cases h) (not_not.mpr ‹_›)
    · exact iff_of_true rfl ‹_›

/-- **`unlock_sentence_ss`** succeeds for the holder of the lock only. -/
theorem unlock_success_iff : (unlockSentence s f i u).2 = SUCCESS ↔ Holds s f u i := by
  constructor
  · intro h
    by_contra hnot
    exact (unlock_refused hnot).2 h
  · rintro ⟨lock, hget, hlocked, hname⟩
    have hmine : ¬(lock.locked = false ∨ lock.lockedBy ≠ u.str) := by
      rintro (hfree | hother)
      · rw [hfree] at hlocked
        cases hlocked
      · exact hother hname
    unfold unlockSentence
    simp only [hget, if_neg hmine]

/-- The commit of an active session succeeds when there is room for it. -/
theorem commit_success_iff (hactive : Active s f u i) :
    (commitWriteSession io s f u i).2 = SUCCESS ↔ HasRoom f s.commitQueues := by
  obtain ⟨w, hw⟩ := active_iff.mp hactive
  unfold commitWriteSession
  simp only [hw]
  rcases henter : enqueueCommit f ⟨u, i, w.originalSentenceCount, w.tempFilepath⟩ s.commitQueues with _ | queues
  · exact iff_of_false (show ERR_SERVER_ERROR ≠ SUCCESS by decide) (enqueueCommit_eq_none.mp henter)
  · refine iff_of_true rfl ?_
    by_contra hfull
    rw [enqueueCommit_eq_none.mpr hfull] at henter
    cases henter

/-- A commit does not touch the locks. -/
theorem holds_commit : Holds (commitWriteSession io s f u i).1 f u i ↔ Holds s f u i := by
  obtain ⟨disk, queues, hcommit⟩ := commitWriteSession_sessions io s f u i
  rw [hcommit]
  exact Iff.rfl

/-- **The reply to `MSG_UNLOCK_SENTENCE`** is a success when the commit and the unlock are. -/
theorem unlock_reply_iff (hactive : Active s f u i) :
    (handleClientRequest io s (.unlockSentence f u i)).2 = SUCCESS ↔ HasRoom f s.commitQueues ∧ Holds s f u i := by
  have hcommit : (commitWriteSession io s f u i).2 = SUCCESS ↔ HasRoom f s.commitQueues := commit_success_iff hactive
  have hholds : Holds (commitWriteSession io s f u i).1 f u i ↔ Holds s f u i := holds_commit
  unfold handleClientRequest
  simp only
  split
  · rename_i hok
    rw [unlock_success_iff, hholds, and_iff_right (hcommit.mp hok)]
  · rename_i hfail
    exact iff_of_false hfail fun h => hfail (hcommit.mpr h.1)

/-- **An unlock ends the session**, whether or not the commit went well. -/
theorem session_gone (hkeys : (s.writeSessions.map WriteSession.key).Nodup) (io : Io) :
    getWriteSession (handleClientRequest io s (.unlockSentence f u i)).1 f u i = none := by
  obtain ⟨disk, queues, hcommit⟩ := commitWriteSession_sessions io s f u i
  obtain ⟨tables, hunlock, -⟩ := unlockSentence_spec (commitWriteSession io s f u i).1 f i u
  rw [handle_unlock, hunlock, hcommit]
  refine List.find?_eq_none.mpr fun w hw => ?_
  rw [isSession_iff]
  exact key_ne_of_mem_eraseP hkeys hw

/-- **A failed unlock keeps the work exactly when it does not fail**: the file has a queue or can get one, and the
lock is the user's. -/
theorem failed_unlock_iff {id : Int32} {disk : Disk} {es : List (FsIo × Operation)}
    (hrun : Run StoreStep (freshServer id disk) es s) (hactive : Active s f u i) (io : Io) :
    ((handleClientRequest io s (.unlockSentence f u i)).2 ≠ SUCCESS →
        WorkKept f u i s (handleClientRequest io s (.unlockSentence f u i)).1) ↔
      HasRoom f s.commitQueues ∧ Holds s f u i := by
  have hkeys := (StoreInv.of_run hrun).server.sessions.keys
  obtain ⟨w, hw⟩ := active_iff.mp hactive
  have hlost : ¬ WorkKept f u i s (handleClientRequest io s (.unlockSentence f u i)).1 := by
    intro hkept
    have hsession := hkept.session
    rw [session_gone hkeys io, hw] at hsession
    cases hsession
  have hreply : (handleClientRequest io s (.unlockSentence f u i)).2 = SUCCESS ↔
      HasRoom f s.commitQueues ∧ Holds s f u i := unlock_reply_iff hactive
  rw [← hreply]
  exact ⟨fun h => by_contra fun hfail => hlost (h hfail), fun hok hfail => absurd hok hfail⟩

/-- What is lost: the copy is deleted and the lock is given back. -/
theorem lost_without_room {w : WriteSession} (hw : getWriteSession s f u i = some w)
    (hfull : ¬ HasRoom f s.commitQueues) (io : Io) :
    (handleClientRequest io s (.unlockSentence f u i)).2 = ERR_SERVER_ERROR ∧
      (handleClientRequest io s (.unlockSentence f u i)).1.disk w.tempFilepath = none ∧
      ¬ Holds (handleClientRequest io s (.unlockSentence f u i)).1 f u i := by
  have henter : enqueueCommit f ⟨u, i, w.originalSentenceCount, w.tempFilepath⟩ s.commitQueues = none :=
    enqueueCommit_eq_none.mpr hfull
  have hcommit : commitWriteSession io s f u i = (removeWriteSession s f u i, ERR_SERVER_ERROR) := by
    unfold commitWriteSession
    simp only [hw, henter]
  have hremove : (removeWriteSession s f u i).disk w.tempFilepath = none := by
    unfold removeWriteSession
    simp only [hw]
    exact unlink_self s.disk w.tempFilepath
  obtain ⟨tables, hunlock, -⟩ := unlockSentence_spec (removeWriteSession s f u i) f i u
  refine ⟨?_, ?_, ?_⟩
  · unfold handleClientRequest
    simp only [hcommit]
    rw [if_neg (show ERR_SERVER_ERROR ≠ SUCCESS by decide)]
  · rw [handle_unlock, hcommit, hunlock]
    exact hremove
  · rw [handle_unlock, hcommit, holds_unlock]
    exact fun h => h.2 rfl

end

/-! ## Commits to many files -/

/-- A file whose name has `k + 1` letters. -/
def numbered (k : Nat) : Filename := .strncpy (MAX_FILENAME - 1) (List.replicate (k + 1) (byte 120))

theorem numbered_injective {j k : Nat} (hj : j < 255) (hk : k < 255) (h : numbered j = numbered k) : j = k := by
  have hlength : min 255 (j + 1) = min 255 (k + 1) := by
    simpa [numbered] using congrArg (fun f : Filename => f.str.length) h
  omega

/-- Alice edits the first `n` files, one after the other. -/
def commitsTo (n : Nat) : List Request :=
  (List.range n).flatMap fun k => [.lockSentence (numbered k) alice 0, .unlockSentence (numbered k) alice 0]

/-- After commits to the first `n` files: nobody edits, no lock is taken, and each file has a queue. -/
structure Committed (n : Nat) (s : StorageServer) : Prop where
  idle : s.writeSessions = []
  free : ∀ f j, heldAt f j s.fileLocks = none
  queued : s.commitQueues.map (·.filename) = (List.range n).map numbered

/-- Alice has a session and its lock, and nobody else has. -/
structure Editing (n : Nat) (f : Filename) (s : StorageServer) : Prop where
  session : ∃ w, s.writeSessions = [w] ∧ w.key = (f, alice, 0)
  free : ∀ g j, heldAt g j s.fileLocks = if g = f ∧ j = 0 then some alice.str else none
  queued : s.commitQueues.map (·.filename) = (List.range n).map numbered

theorem lockIndexInvalid_zero (content : Option FileContent) : lockIndexInvalid content 0 = false := by
  unfold lockIndexInvalid
  generalize (content.map (·.sentenceCount)).getD 0 = scount
  by_cases h : scount = 0
  · simp [h]
  · have hpos : ¬((0 : Int) > scount) := by omega
    have hne : ¬((0 : Int) = scount) := by omega
    simp [h, hne]

/-- The first session of a server. -/
theorem startWriteSession_first {io : Io} {s : StorageServer} (hidle : s.writeSessions = []) (f : Filename)
    (u : Username) (i : Int32) (hopen : io.canWrite (tempPath s.id f u i) = true) :
    ∃ disk w, startWriteSession io s f u i = ({ s with disk := disk, writeSessions := [w] }, SUCCESS) ∧
      w.key = (f, u, i) := by
  have hcreate : ∀ count, createWriteSession s f u i count =
      some { s with writeSessions := [⟨f, u, i, tempPath s.id f u i, count⟩] } := by
    intro count
    unfold createWriteSession getWriteSession
    simp only [hidle, List.find?_nil, List.length_nil, List.nil_append]
    exact if_pos (by decide)
  have hget : ∀ count, getWriteSession { s with writeSessions := [⟨f, u, i, tempPath s.id f u i, count⟩] } f u i =
      some ⟨f, u, i, tempPath s.id f u i, count⟩ :=
    fun count => List.find?_cons_of_pos (isSession_iff.mpr rfl)
  unfold startWriteSession
  simp only [hcreate, hget, writeFile, hopen, if_true]
  exact ⟨_, _, rfl, rfl⟩

/-- An edit of a file that nobody edits begins. -/
theorem Committed.lock {n : Nat} {s : StorageServer} (h : Committed n s) (f : Filename) :
    Editing n f (handleClientRequest Io.allOpens s (.lockSentence f alice 0)).1 := by
  obtain ⟨tables, hlock, -⟩ := lockSentence_spec Io.allOpens s f 0 alice
  have hzero : (0 : Int32).toInt = 0 := rfl
  have hname : lockedName Io.allOpens alice = alice.str := if_pos (by decide)
  rcases lockSentence_heldAt Io.allOpens s f 0 alice with ⟨hneg, -⟩ | ⟨-, hother, -⟩ | ⟨-, -, hstatus, hheld⟩
  · exact absurd hneg (by decide)
  · obtain ⟨name, hname, -⟩ := hother
    rw [h.free] at hname
    cases hname
  · obtain ⟨disk, w, hstart, hkey⟩ := @startWriteSession_first .allOpens { s with fileLocks := tables } h.idle f alice 0
      rfl
    have hserver : (handleClientRequest Io.allOpens s (.lockSentence f alice 0)).1 =
        { s with fileLocks := tables, disk := disk, writeSessions := [w] } := by
      unfold handleClientRequest
      simp only [hzero, lockIndexInvalid_zero, Bool.false_eq_true, if_false]
      rcases hres : lockSentence Io.allOpens s f 0 alice with ⟨t, status⟩
      rw [hres] at hlock hstatus
      obtain rfl : t = { s with fileLocks := tables } := hlock
      obtain rfl : status = SUCCESS := hstatus
      simp only [if_true, hstart, ne_eq, not_true_eq_false, if_false]
    rw [hlock] at hheld
    rw [hserver]
    refine ⟨⟨w, rfl, hkey⟩, fun g j => ?_, h.queued⟩
    rw [show heldAt g j tables = _ from hheld g j, hname, h.free, hzero]
    rfl

/-- A queue is made for a file that has none. -/
theorem filenames_enqueue {f : Filename} {entry : CommitQueueEntry} {queues queues' : List FileCommitQueue}
    (h : enqueueCommit f entry queues = some queues') (hnew : f ∉ queues.map (·.filename)) :
    queues'.map (·.filename) = queues.map (·.filename) ++ [f] := by
  have hany : ¬(queues.any (·.filename = f)) = true := by
    simpa using hnew
  unfold enqueueCommit at h
  rw [if_neg hany] at h
  split at h
  · rw [← Option.some.inj h, List.map_append]
    rfl
  · cases h

/-- Working off a queue does not take it away. -/
theorem filenames_process (io : Io) (s : StorageServer) (f : Filename) :
    (processCommitQueue io s f).commitQueues.map (·.filename) = s.commitQueues.map (·.filename) := by
  unfold processCommitQueue
  cases s.commitQueues.find? (·.filename = f) with
  | none => rfl
  | some queue =>
    simp only [List.map_map]
    refine List.map_congr_left fun q _ => ?_
    simp only [Function.comp_apply]
    split <;> rfl

/-- The commit makes a queue for the file. -/
theorem Editing.filenames_commit {n : Nat} {s : StorageServer} (hn : n < MAX_FILE_QUEUES)
    (h : Editing n (numbered n) s) :
    (commitWriteSession Io.allOpens s (numbered n) alice 0).1.commitQueues.map (·.filename) =
      (List.range (n + 1)).map numbered := by
  have hmax : MAX_FILE_QUEUES = 100 := rfl
  obtain ⟨w, hw, hkey⟩ := h.session
  have hlength : s.commitQueues.length = n := by
    have := congrArg List.length h.queued
    simpa using this
  have hnew : numbered n ∉ s.commitQueues.map (·.filename) := by
    rw [h.queued, List.mem_map]
    rintro ⟨k, hk, heq⟩
    have hlt := List.mem_range.mp hk
    have hsame := numbered_injective (by omega) (by omega) heq
    omega
  have hget : getWriteSession s (numbered n) alice 0 = some w := by
    unfold getWriteSession
    rw [hw]
    exact List.find?_cons_of_pos (isSession_iff.mpr hkey)
  obtain ⟨queues', henter⟩ : ∃ queues', enqueueCommit (numbered n)
      ⟨alice, 0, w.originalSentenceCount, w.tempFilepath⟩ s.commitQueues = some queues' := by
    refine Option.ne_none_iff_exists'.mp fun hnone => enqueueCommit_eq_none.mp hnone (Or.inr ?_)
    omega
  have hserver : (commitWriteSession Io.allOpens s (numbered n) alice 0).1.commitQueues.map (·.filename) =
      queues'.map (·.filename) := by
    unfold commitWriteSession
    simp only [hget, henter]
    exact filenames_process _ _ _
  rw [hserver, filenames_enqueue henter hnew, h.queued, List.range_succ, List.map_append]
  rfl

/-- The edit is committed, and the file has a queue for ever. -/
theorem Editing.unlock {n : Nat} {s : StorageServer} (hn : n < MAX_FILE_QUEUES) (h : Editing n (numbered n) s) :
    Committed (n + 1) (handleClientRequest Io.allOpens s (.unlockSentence (numbered n) alice 0)).1 := by
  obtain ⟨w, hw, hkey⟩ := h.session
  obtain ⟨disk, queues, hcommit⟩ := commitWriteSession_sessions Io.allOpens s (numbered n) alice 0
  have hqueued := h.filenames_commit hn
  obtain ⟨tables, hunlock, -⟩ := unlockSentence_spec (commitWriteSession Io.allOpens s (numbered n) alice 0).1
    (numbered n) 0 alice
  have hheld := heldAt_unlockSentence (commitWriteSession Io.allOpens s (numbered n) alice 0).1 (numbered n) 0 alice
  rw [handle_unlock, hunlock]
  rw [hunlock, hcommit] at hheld
  rw [hcommit] at hqueued ⊢
  refine ⟨?_, fun g j => ?_, hqueued⟩
  · show s.writeSessions.eraseP (isSession (numbered n) alice 0) = []
    rw [hw, List.eraseP_cons_of_pos (isSession_iff.mpr hkey)]
  · rw [show heldAt g j tables = _ from hheld g j]
    have hmine : heldAt (numbered n) 0 s.fileLocks = some alice.str := by
      rw [h.free, if_pos ⟨rfl, rfl⟩]
    have hzero : (0 : Int32).toInt = 0 := rfl
    rw [hzero]
    split
    · rfl
    · rename_i hkept
      show heldAt g j s.fileLocks = none
      rw [h.free, if_neg]
      rintro ⟨rfl, rfl⟩
      exact hkept ⟨rfl, rfl, le_refl 0, hmine⟩

theorem handleAll_append (s : StorageServer) (es es' : List (FsIo × Operation)) :
    (handleAll s (es ++ es')).1 = (handleAll (handleAll s es).1 es').1 := by
  induction es generalizing s with
  | nil => rfl
  | cons e es ih => exact ih (e.2.handle e.1 s).1

theorem asked_append (rs rs' : List Request) : asked (rs ++ rs') = asked rs ++ asked rs' := List.map_append

theorem handleAll_asked (s : StorageServer) (r : Request) :
    (handleAll s (asked [r])).1 = (handleClientRequest Io.allOpens s r).1 := rfl

/-- **Every commit to another file takes a queue.** -/
theorem committed_commitsTo : ∀ n ≤ MAX_FILE_QUEUES, Committed n (handleAll emptyServer (asked (commitsTo n))).1
  | 0, _ => ⟨rfl, fun _ _ => rfl, rfl⟩
  | n + 1, hn => by
    have hbefore := committed_commitsTo n (Nat.le_of_succ_le hn)
    have hsplit : commitsTo (n + 1) = commitsTo n ++
        ([.lockSentence (numbered n) alice 0] ++ [.unlockSentence (numbered n) alice 0]) := by
      unfold commitsTo
      rw [List.range_succ, List.flatMap_append]
      rfl
    rw [hsplit, asked_append, asked_append, handleAll_append, handleAll_append, handleAll_asked, handleAll_asked]
    exact (hbefore.lock (numbered n)).unlock hn

/-- Alice edits one more file after commits to `n` others. -/
theorem editing_after {n : Nat} (hn : n ≤ MAX_FILE_QUEUES) (f : Filename) :
    Editing n f (handleAll emptyServer (asked (commitsTo n ++ [.lockSentence f alice 0]))).1 := by
  rw [asked_append, handleAll_append, handleAll_asked]
  exact (committed_commitsTo n hn).lock f

/-- The first edit of a server. -/
def firstEdit : StorageServer := (handleAll emptyServer (asked (commitsTo 0 ++ [.lockSentence notes alice 0]))).1

theorem Editing.full {s : StorageServer} {f : Filename} (h : Editing MAX_FILE_QUEUES f s) (hf : ∀ k, f ≠ numbered k) :
    ¬ HasRoom f s.commitQueues := by
  rintro (⟨q, hq, rfl⟩ | hlength)
  · have hmem := List.mem_map_of_mem (f := (·.filename)) hq
    rw [h.queued, List.mem_map] at hmem
    obtain ⟨k, -, hk⟩ := hmem
    exact hf k hk.symm
  · have hqueued := congrArg List.length h.queued
    rw [List.length_map, List.length_map, List.length_range] at hqueued
    omega

theorem Editing.getWriteSession {n : Nat} {s : StorageServer} {f : Filename} (h : Editing n f s) :
    ∃ w, getWriteSession s f alice 0 = some w := by
  obtain ⟨w, hsessions, hkey⟩ := h.session
  refine ⟨w, ?_⟩
  unfold NetworkFileShare.getWriteSession
  rw [hsessions]
  exact List.find?_cons_of_pos (isSession_iff.mpr hkey)

theorem failed_unlock_iff_firstEdit :
    ((handleClientRequest Io.allOpens firstEdit (.unlockSentence notes alice 0)).2 ≠ SUCCESS →
        WorkKept notes alice 0 firstEdit
          (handleClientRequest Io.allOpens firstEdit (.unlockSentence notes alice 0)).1) ↔
      HasRoom notes firstEdit.commitQueues ∧ Holds firstEdit notes alice 0 :=
  have hediting : Editing 0 notes firstEdit := editing_after (Nat.zero_le _) notes
  have hrun : Run StoreStep emptyServer (asked (commitsTo 0 ++ [.lockSentence notes alice 0])) firstEdit :=
    run_handleAll _ _
  failed_unlock_iff hrun (active_iff.mpr hediting.getWriteSession) .allOpens

theorem notes_ne_numbered (k : Nat) : notes ≠ numbered k := by
  intro h
  have hhead : notes.str.head? = (numbered k).str.head? := congrArg (fun f : Filename => f.str.head?) h
  exact absurd (show notes.str.head? = some (byte 120) from hhead) (by decide)

/-- **After commits to a hundred files the next commit loses the edit**: the reply is no success, and the session and
its copy are gone. -/
theorem edit_lost : ∃ es s w, Run StoreStep emptyServer es s ∧ getWriteSession s notes alice 0 = some w ∧
    Holds s notes alice 0 ∧
    (handleClientRequest Io.allOpens s (.unlockSentence notes alice 0)).2 = ERR_SERVER_ERROR ∧
    (handleClientRequest Io.allOpens s (.unlockSentence notes alice 0)).1.disk w.tempFilepath = none ∧
    ¬ WorkKept notes alice 0 s (handleClientRequest Io.allOpens s (.unlockSentence notes alice 0)).1 := by
  obtain ⟨es, s, hrun, hediting⟩ : ∃ es s, Run StoreStep emptyServer es s ∧ Editing MAX_FILE_QUEUES notes s :=
    ⟨_, _, run_handleAll _ _, editing_after (le_refl _) notes⟩
  obtain ⟨w, hw⟩ := hediting.getWriteSession
  have hholds : Holds s notes alice 0 := by
    refine holds_iff.mpr ⟨le_refl 0, ?_⟩
    rw [hediting.free]
    exact if_pos ⟨rfl, rfl⟩
  obtain ⟨hstatus, hcopy, -⟩ := lost_without_room hw (hediting.full notes_ne_numbered) .allOpens
  refine ⟨es, s, w, hrun, hw, hholds, hstatus, hcopy, fun hkept => ?_⟩
  have hsession := hkept.session
  rw [session_gone (StoreInv.of_run hrun).server.sessions.keys .allOpens, hw] at hsession
  cases hsession

end NetworkFileShare
