import NetworkFileShare.StorageServer.Paths
import NetworkFileShare.StorageServer.SessionCalls

/-!
# The session functions when no other call is under way

* `Does` : a program runs through alone, with this answer and these lists at its end;
* `start_alone`, `write_alone`, `commit_alone`, `cancel_alone` : the programs do what `startWriteSession`,
  `writeFileSs`, `commitWriteSession` and `cancelWriteSession` do to the list of sessions;
* `sessionBody_alone` : so does every call.
-/

namespace NetworkFileShare

open SsOp (perform)

variable {env : SsEnv} {s : SharedServer} {locks : List FileLocks} {f : Filename} {u : Username} {i : Int32} {k : Nat}

theorem findIdx?_view (h : SessionsInv s) :
    (s.writeSessions.live.map SessionRecord.toWriteSession).findIdx? (isSession f u i) = s.findSession f u i := by
  rw [List.findIdx?_map]
  refine findIdx?_congr fun w hw => ?_
  rw [SessionRecord.isFor, h.active w hw, Bool.true_and]
  rfl

theorem getWriteSession_view (h : SessionsInv s) : getWriteSession (s.view locks) f u i =
    (s.findSession f u i).map fun k => (s.writeSessions.slots k).toWriteSession := by
  show (s.writeSessions.live.map SessionRecord.toWriteSession).find? (isSession f u i) = _
  rw [List.find?_eq_bind_findIdx?_getElem?, findIdx?_view h]
  cases hfind : s.findSession f u i with
  | none => rfl
  | some k =>
    rw [Option.bind_some, List.getElem?_map, SlotArray.getElem?_live, if_pos ((findSession_eq_some h).mp hfind).1]
    rfl

theorem removeAt_view (h : SessionsInv s) (hfind : s.findSession f u i = some k) :
    (s.writeSessions.removeAt k).live.map SessionRecord.toWriteSession =
      (s.writeSessions.live.map SessionRecord.toWriteSession).eraseP (isSession f u i) := by
  rw [SlotArray.live_removeAt ((findSession_eq_some h).mp hfind).1, List.eraseP_eq_eraseIdx, findIdx?_view h, hfind]
  exact (List.eraseIdx_map _ _ _).symm

theorem removeWriteSession_view (env : SsEnv) (h : SessionsInv s) :
    ((SsOp.removeWriteSession f u i).run env s).2.view locks = removeWriteSession (s.view locks) f u i := by
  unfold removeWriteSession
  rw [getWriteSession_view h]
  cases hfind : s.findSession f u i with
  | none =>
    rw [run_removeWriteSession_absent hfind]
    rfl
  | some k =>
    rw [run_removeWriteSession_found hfind]
    show SharedServer.view _ locks = { s.view locks with
      disk := unlink s.disk (s.tempOf k)
      writeSessions := (s.writeSessions.live.map SessionRecord.toWriteSession).eraseP (isSession f u i) }
    rw [← removeAt_view h hfind]
    rfl

variable (env s locks) in
/-- The program runs through alone, and what it answers and leaves behind are these. -/
def Does (p : SsProg) (r : StorageServer × Int32) : Prop :=
  ∃ t, runAlone (SsOp.exec env) p s = some (r.2, t) ∧ t.view locks = r.1

theorem Does.pure (status : Int32) : Does env s locks (pure status) (s.view locks, status) := ⟨s, rfl, rfl⟩

/-- The first operation, and the rest. -/
theorem Does.step {op : SsOp} {next : op.Ans → SsProg} {r : StorageServer × Int32}
    (h : Does env (op.run env s).2 locks (next (op.run env s).1) r) : Does env s locks (perform op >>= next) r := h

theorem cancel_alone (h : SessionsInv s) :
    Does env s locks (cancelWriteSessionSs f u i) (cancelWriteSession (s.view locks) f u i, SUCCESS) := by
  unfold cancelWriteSessionSs cancelWriteSession
  refine .step ?_
  rw [← removeWriteSession_view env h]
  cases hfind : s.findSession f u i with
  | none =>
    rw [run_getWriteSession_absent hfind, run_removeWriteSession_absent hfind]
    exact .pure SUCCESS
  | some k =>
    rw [run_getWriteSession_found hfind]
    exact .step (.pure SUCCESS)

theorem parseTemp_eq (io : Io) (disk : Disk) (path : Path) :
    parsedTemp (parseFile io disk path) = parseTemp io disk path := by
  unfold parsedTemp parseTemp
  cases parseFile io disk path <;> rfl

theorem parseTemp_run (env : SsEnv) (s : SharedServer) (k : Nat) :
    (SsOp.parseTemp k).run env s = (parseFile env.io s.disk (s.tempOf k), s) := rfl

theorem writeTemp_run (env : SsEnv) (s : SharedServer) (k : Nat) (text : CStr) :
    (SsOp.writeTemp k text).run env s = if env.io.canWrite (s.tempOf k) = true then
      (true, { s with disk := Function.update s.disk (s.tempOf k) (some text) })
    else (false, s) := by
  unfold SsOp.run writeFile
  dsimp only
  by_cases hopen : env.io.canWrite (s.tempOf k) = true
  · rw [if_pos hopen, if_pos hopen]
  · rw [if_neg hopen, if_neg hopen]

theorem write_alone (h : SessionsInv s) (wordIdx : Int32) (content : CStr) :
    Does env s locks (writeSession f u i wordIdx content)
      (writeFileSs env.io (s.view locks) f u i wordIdx content) := by
  unfold writeSession writeFileSs
  refine .step ?_
  rw [getWriteSession_view h]
  cases hfind : s.findSession f u i with
  | none =>
    rw [run_getWriteSession_absent hfind]
    exact .pure ERR_INVALID_OPERATION
  | some k =>
    rw [run_getWriteSession_found hfind]
    refine .step ?_
    have hdisk : (s.view locks).disk = s.disk := rfl
    have hcopy : (s.writeSessions.slots k).tempFilepath = s.tempOf k := rfl
    dsimp only [Option.map_some, parseTemp_run]
    rw [parseTemp_eq, hdisk, hcopy]
    split
    · exact .pure ERR_INVALID_INDEX
    · cases insertWordInSentence (parseTemp env.io s.disk (s.tempOf k)) i.toInt wordIdx.toInt content with
      | none => exact .pure ERR_INVALID_INDEX
      | some inserted =>
        obtain ⟨fc, out⟩ := inserted
        refine .step ?_
        dsimp only
        rw [writeTemp_run, writeFile]
        by_cases hopen : env.io.canWrite (s.tempOf k) = true
        · rw [if_pos hopen, if_pos hopen]
          exact .pure SUCCESS
        · rw [if_neg hopen, if_neg hopen]
          exact .pure ERR_SERVER_ERROR

theorem setOriginalCount_eq (count : Nat) : ∀ ws : List WriteSession, setOriginalCount f u i count ws =
    match ws.findIdx? (isSession f u i) with
    | none => ws
    | some k => ws.modify k fun w => { w with originalSentenceCount := count }
  | [] => rfl
  | w :: ws => by
    rw [setOriginalCount, List.findIdx?_cons, setOriginalCount_eq count ws]
    split
    · rfl
    · cases ws.findIdx? (isSession f u i) <;> rfl

/-- Of what is stored in a session, the list shows the count. -/
theorem view_stored (env : SsEnv) (hs : SessionsInv s) (hfind : s.findSession f u i = some k) (count : Nat) :
    ((SsOp.storeLockTime k).run env ((SsOp.storeCount k count).run env s).2).2.view locks =
      { s.view locks with writeSessions := setOriginalCount f u i count (s.view locks).writeSessions } := by
  have hstored : ((s.writeSessions.modify k fun w => { w with originalSentenceCount := count }).modify k
      fun w => { w with lockTime := env.now }).live.map SessionRecord.toWriteSession =
      setOriginalCount f u i count (s.writeSessions.live.map SessionRecord.toWriteSession) := by
    rw [SlotArray.live_modify, map_modify_of_keeps, SlotArray.live_modify, setOriginalCount_eq, findIdx?_view hs, hfind]
    · refine map_modify ?_ _ _
      exact fun _ => rfl
    · exact fun _ => rfl
  exact congrArg (fun ws => StorageServer.mk s.id s.disk locks ws s.commitQueues) hstored

theorem setOriginalCount_concat {count : Nat} {w : WriteSession} (hw : isSession f u i w = true) :
    ∀ ws : List WriteSession, (∀ v ∈ ws, v.key ≠ (f, u, i)) →
      setOriginalCount f u i count (ws ++ [w]) = ws ++ [{ w with originalSentenceCount := count }]
  | [], _ => by
    show setOriginalCount f u i count [w] = _
    rw [setOriginalCount, if_pos hw]
    rfl
  | v :: ws, h => by
    have hv : ¬ isSession f u i v = true := fun hv => h v List.mem_cons_self (isSession_iff.mp hv)
    rw [List.cons_append, setOriginalCount, if_neg hv,
      setOriginalCount_concat hw ws fun w' hw' => h w' (List.mem_cons_of_mem v hw')]
    rfl

/-- **`get_write_session` with `create`, and the stores behind it**, are `createWriteSession`. -/
theorem createWriteSession_view (env : SsEnv) (locks : List FileLocks) (f : Filename) (u : Username) (i : Int32)
    (hs : SessionsInv s) (count : Nat) :
    ((SsOp.getWriteSession f u i true).run env s = (none, s) ∧
      createWriteSession (s.view locks) f u i count = none) ∨
    ∃ k t, (SsOp.getWriteSession f u i true).run env s = (some k, t) ∧ SessionsInv t ∧ t.findSession f u i = some k ∧
      createWriteSession (s.view locks) f u i count =
        some { t.view locks with writeSessions := setOriginalCount f u i count (t.view locks).writeSessions } := by
  unfold createWriteSession
  rw [getWriteSession_view hs]
  cases hfind : s.findSession f u i with
  | some k =>
    exact Or.inr ⟨k, s, run_getWriteSession_found hfind true, hs, hfind, rfl⟩
  | none =>
    have hlength : (s.view locks).writeSessions.length = s.writeSessions.count := by
      show (s.writeSessions.live.map _).length = _
      rw [List.length_map, SlotArray.length_live]
    rw [run_getWriteSession_absent hfind, hlength, Bool.true_and]
    by_cases hroom : s.writeSessions.count < MAX_CLIENTS * 10
    · obtain ⟨hinv, hadded⟩ := findSession_added hs hfind
      refine Or.inr ⟨_, _, if_pos (decide_eq_true hroom), hinv, hadded, ?_⟩
      have habsent : ∀ v ∈ s.writeSessions.live.map SessionRecord.toWriteSession, v.key ≠ (f, u, i) := by
        intro v hv
        obtain ⟨w, hw, rfl⟩ := List.mem_map.mp hv
        exact (findSession_eq_none hs).mp hfind w hw
      have hlive : ((s.addSession f u i).view locks).writeSessions =
          s.writeSessions.live.map SessionRecord.toWriteSession ++ [(s.newSession f u i).toWriteSession] := by
        show ((s.writeSessions.push (s.newSession f u i)).live).map _ = _
        rw [SlotArray.live_push, List.map_append, List.map_singleton]
      have hnew : isSession f u i (s.newSession f u i).toWriteSession = true := isSession_iff.mpr rfl
      rw [if_pos hroom, hlive, setOriginalCount_concat hnew _ habsent]
      rfl
    · left
      rw [if_neg hroom, if_neg (by rw [decide_eq_true_iff]; exact hroom)]
      exact ⟨rfl, rfl⟩

theorem openMain_run (env : SsEnv) (s : SharedServer) (f : Filename) :
    (SsOp.openMain f).run env s = ((readFile env.io s.disk (filePath s.id f)).isSome, s) := rfl

theorem openTemp_run (env : SsEnv) (s : SharedServer) (k : Nat) : (SsOp.openTemp k).run env s =
    if env.io.canWrite (s.tempOf k) = true then
      (some (s.tempOf k), { s with disk := Function.update s.disk (s.tempOf k) (some []) })
    else (none, s) := by
  unfold SsOp.run writeFile
  dsimp only
  by_cases hopen : env.io.canWrite (s.tempOf k) = true
  · rw [if_pos hopen, if_pos hopen]
  · rw [if_neg hopen, if_neg hopen]

/-- **The copy of a session gets the text of the file.** -/
theorem copy_alone (hs : SessionsInv s) (hfind : s.findSession f u i = some k)
    (hopen : env.io.canWrite (s.tempOf k) = true) :
    Does env s locks (copyToTemp f u i k)
      ({ s.view locks with
          disk := Function.update s.disk (s.tempOf k) (some ((readFile env.io s.disk (filePath s.id f)).getD [])) },
        SUCCESS) := by
  obtain ⟨hk, hkey⟩ := (findSession_eq_some hs).mp hfind
  have htemp : s.tempOf k = tempPath s.id f u i :=
    hs.temp (SlotArray.slots_mem_live hk) hkey
  have hmain : filePath s.id f ≠ s.tempOf k := by
    rw [htemp]
    exact (tempPath_ne_filePath s.id f u i).symm
  unfold copyToTemp
  refine .step (.step ?_)
  rw [openMain_run, openTemp_run, if_pos hopen]
  dsimp only
  by_cases hsrc : (readFile env.io s.disk (filePath s.id f)).isSome = true
  · obtain ⟨text, hread⟩ := Option.isSome_iff_exists.mp hsrc
    have htext : s.disk (filePath s.id f) = some text := by
      unfold readFile at hread
      split at hread
      · exact hread
      · cases hread
    rw [if_pos hsrc, hread]
    refine .step ?_
    have hcopied : (SsOp.copyMain f (s.tempOf k)).run env
        { s with disk := Function.update s.disk (s.tempOf k) (some []) } =
        ((), { s with disk := Function.update s.disk (s.tempOf k) (some text) }) := by
      unfold SsOp.run
      dsimp only
      rw [Function.update_self, Function.update_of_ne hmain, htext]
      dsimp only [Option.getD_some]
      rw [Function.update_idem, overwrite, List.drop_nil, List.append_nil]
    rw [hcopied]
    exact .pure SUCCESS
  · rw [if_neg hsrc, Option.not_isSome_iff_eq_none.mp hsrc]
    exact .pure SUCCESS

/-- **A session whose copy does not open is removed again.** -/
theorem copy_refused (hs : SessionsInv s) (hopen : ¬ env.io.canWrite (s.tempOf k) = true) :
    Does env s locks (copyToTemp f u i k) (removeWriteSession (s.view locks) f u i, ERR_SERVER_ERROR) := by
  unfold copyToTemp
  refine .step (.step ?_)
  rw [openMain_run, openTemp_run, if_neg hopen]
  refine .step ?_
  rw [← removeWriteSession_view env hs]
  exact .pure ERR_SERVER_ERROR

/-- A session stays in its slot when its count and its lock time are stored. -/
theorem findSession_stored (env : SsEnv) (hs : SessionsInv s) (hfind : s.findSession f u i = some k) (count : Nat) :
    ((SsOp.storeLockTime k).run env ((SsOp.storeCount k count).run env s).2).2.findSession f u i = some k := by
  have hs' := hs.run env (.storeCount k count)
  have hcounted := findSession_left hs hs' (SsOp.run_effect env _ s) nofun hfind
  exact findSession_left hs' (hs'.run env _) (SsOp.run_effect env _ _) nofun hcounted

theorem start_alone (hs : SessionsInv s) :
    Does env s locks (startWriteSessionSs f u i) (startWriteSession env.io (s.view locks) f u i) := by
  unfold startWriteSessionSs startWriteSession
  refine .step ?_
  show Does env s locks (perform (.getWriteSession f u i true) >>= _) _
  have hcount : (((SsOp.parseMain f).run env s).1.map (·.sentenceCount)).getD 0 =
    ((parseFile env.io (s.view locks).disk ((s.view locks).path f)).map (·.sentenceCount)).getD 0 := rfl
  dsimp only
  rw [hcount]
  generalize ((parseFile env.io (s.view locks).disk ((s.view locks).path f)).map (·.sentenceCount)).getD 0 = count
  refine .step ?_
  rcases createWriteSession_view env locks f u i hs count with ⟨hget, hcreate⟩ | ⟨k, t, hget, ht, hfind, hcreate⟩
  · rw [hget, hcreate]
    exact .pure ERR_SERVER_ERROR
  · rw [hget, hcreate, ← view_stored env ht hfind count]
    refine .step (.step ?_)
    have ht' := (ht.run env (.storeCount k count)).run env (.storeLockTime k)
    have hfind' := findSession_stored env ht hfind count
    generalize ((SsOp.storeLockTime k).run env ((SsOp.storeCount k count).run env t).2).2 = now at ht' hfind' ⊢
    dsimp only
    rw [getWriteSession_view ht', hfind']
    have hcopy : (now.writeSessions.slots k).tempFilepath = now.tempOf k := rfl
    dsimp only [Option.map_some]
    rw [writeFile, hcopy]
    by_cases hopen : env.io.canWrite (now.tempOf k) = true
    · rw [if_pos hopen]
      exact copy_alone ht' hfind' hopen
    · rw [if_neg hopen]
      exact copy_refused ht' hopen

/-- **`enqueue_commit`** finds or makes the queue and puts the entry behind its last. -/
theorem enqueueCommit_eq (entry : CommitQueueEntry) (queues : List FileCommitQueue) :
    enqueueCommit f entry queues = if (getCommitQueue f queues).1 then
      some ((getCommitQueue f queues).2.map fun q =>
        if q.filename = f then { q with entries := q.entries ++ [entry] } else q)
    else none := by
  unfold enqueueCommit getCommitQueue
  split
  · rfl
  · rename_i hnone
    split
    · have hother : ∀ q ∈ queues, q.filename ≠ f := by
        simpa using hnone
      rw [if_pos rfl, List.map_append, List.map_singleton, if_pos rfl]
      refine congrArg (fun l => some (l ++ [_])) ?_
      exact ((List.map_congr_left fun q hq => if_neg (hother q hq)).trans (List.map_id' _)).symm
    · rfl

theorem processCommitQueue_view (env : SsEnv) (s : SharedServer) (locks : List FileLocks) (f : Filename) :
    ((SsOp.processCommitQueue f).run env s).2.view locks = processCommitQueue env.io (s.view locks) f := by
  -- the locks are not looked at
  have hlocks : processCommitQueue env.io (s.view locks) f =
      { processCommitQueue env.io (s.view []) f with fileLocks := locks } := by
    unfold processCommitQueue
    dsimp only [SharedServer.view]
    split <;> rfl
  obtain ⟨disk, queues, hprocess, -⟩ := processCommitQueue_spec env.io (s.view []) f
  rw [hlocks]
  show StorageServer.mk s.id (processCommitQueue env.io (s.view []) f).disk locks _
    (processCommitQueue env.io (s.view []) f).commitQueues = _
  rw [hprocess]
  rfl

/-- The end of a commit: the session is taken out, and the queue is processed. -/
theorem drop_alone (hs : SessionsInv s) (hfind : s.findSession f u i = some k) (queues : List FileCommitQueue) :
    Does env { s with commitQueues := queues } locks (do
      perform (.dropWriteSession f u i)
      perform (.processCommitQueue f)
      return SUCCESS)
      (processCommitQueue env.io { s.view locks with
        commitQueues := queues
        writeSessions := (s.view locks).writeSessions.eraseP (isSession f u i) } f, SUCCESS) := by
  have hdropped : (SsOp.dropWriteSession f u i).run env { s with commitQueues := queues } =
      ((), { s with commitQueues := queues, writeSessions := s.writeSessions.removeAt k }) :=
    run_dropWriteSession_found hfind
  have hview : (SharedServer.mk s.id s.disk (s.writeSessions.removeAt k) queues).view locks =
      { s.view locks with
        commitQueues := queues
        writeSessions := (s.view locks).writeSessions.eraseP (isSession f u i) } :=
    congrArg (fun ws => StorageServer.mk s.id s.disk locks ws queues) (removeAt_view hs hfind)
  rw [← hview, ← processCommitQueue_view env]
  refine .step ?_
  rw [hdropped]
  exact .step (.pure SUCCESS)

theorem commit_alone (hs : SessionsInv s) :
    Does env s locks (commitWriteSessionSs f u i) (commitWriteSession env.io (s.view locks) f u i) := by
  unfold commitWriteSessionSs commitWriteSession
  refine .step ?_
  rw [getWriteSession_view hs]
  cases hfind : s.findSession f u i with
  | none =>
    rw [run_getWriteSession_absent hfind]
    exact .pure SUCCESS
  | some k =>
    rw [run_getWriteSession_found hfind]
    refine .step (.step ?_)
    show Does env s locks (perform (.getCommitQueue f) >>= _) _
    refine .step ?_
    have hqueue : (SsOp.getCommitQueue f).run env s =
        ((getCommitQueue f (s.view locks).commitQueues).1,
          { s with commitQueues := (getCommitQueue f (s.view locks).commitQueues).2 }) := rfl
    dsimp only [Option.map_some]
    rw [hqueue, enqueueCommit_eq]
    by_cases hroom : (getCommitQueue f (s.view locks).commitQueues).1 = true
    · rw [if_pos hroom, if_pos hroom]
      exact .step (.step (drop_alone hs hfind _))
    · rw [if_neg hroom, if_neg hroom]
      refine .step ?_
      have hsame : (getCommitQueue f (s.view locks).commitQueues).2 = s.commitQueues := by
        unfold getCommitQueue at hroom ⊢
        split
        · rfl
        · split
          · rename_i hnone hlength
            rw [if_neg hnone, if_pos hlength] at hroom
            exact absurd rfl hroom
          · rfl
      rw [hsame, ← removeWriteSession_view env hs]
      exact .pure ERR_SERVER_ERROR

/-- What a call does to the list of sessions when no other call is under way. -/
def SessionRequest.handle (io : Io) (s : StorageServer) : SessionRequest → StorageServer × Int32
  | .start f u i => startWriteSession io s f u i
  | .write f u i wordIdx content => writeFileSs io s f u i wordIdx content
  | .commit f u i => commitWriteSession io s f u i
  | .cancel f u i => (cancelWriteSession s f u i, SUCCESS)

/-- **Alone, the programs are the functions on the list of sessions.** -/
theorem sessionBody_alone (hs : SessionsInv s) (req : SessionRequest) :
    Does env s locks (sessionBody req) (req.handle env.io (s.view locks)) := by
  cases req with
  | start f u i => exact start_alone hs
  | write f u i wordIdx content => exact write_alone hs wordIdx content
  | commit f u i => exact commit_alone hs
  | cancel f u i => exact cancel_alone hs

end NetworkFileShare
