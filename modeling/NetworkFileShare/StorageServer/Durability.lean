import NetworkFileShare.StorageServer.Crashes
import NetworkFileShare.StorageServer.Outcomes
import NetworkFileShare.StorageServer.Undo

/-!
# What a crash cannot take away (`ss.c`, `file_ops.c`)

* `Always` : what holds of the disk at every instant of a program, where every path names a file of its own, and the
  rules; `CommitInstant` : the instants of `process_commit_queue`, `left_commit`;
* `content_survives` : the content that an operation overwrites is in the file or in its backup, and `UNDO` brings it
  back; `undo_survives` : so it is if the crash is in `UNDO`;
* `work_survives` : what has been typed is in the copy of the session, until the commit is over.

A file may have several names: in these theorems no file has two of the names that the operation uses.
-/

namespace NetworkFileShare
namespace Stdio

open FsOp (perform)

/-! ## Instants -/

/-- Whatever the disk may hold on the way meets `I`. -/
def Always {α : Type} (io : FsIo) (I : Disk → Prop) (p : FsProg α) (s : Fs) : Prop :=
  Throughout (FsOp.exec id io) (fun t => ∀ d, t.Shows d → I d) p s

namespace Always

variable {α β : Type} {io : FsIo} {I J : Disk → Prop} {s : Fs} {d : Disk} {path src dst : Path}

theorem pure {a : α} (h : I d) : Always io I (Pure.pure a : FsProg α) (.closed d) :=
  Throughout.pure fun _ hd => hd ▸ h

theorem bind {p : FsProg α} {k : α → FsProg β} (hp : Always io I p s)
    (hk : Always io I (k (runCalls (FsOp.exec id io) p s).1) (runCalls (FsOp.exec id io) p s).2) :
    Always io I (p >>= k) s := Throughout.bind hp hk

theorem ite {c : Prop} [Decidable c] {p q : FsProg α} (hp : c → Always io I p s) (hq : ¬ c → Always io I q s) :
    Always io I (if c then p else q) s := Throughout.ite hp hq

theorem mono {p : FsProg α} (h : Always io I p s) (hI : ∀ d, I d → J d) : Always io J p s :=
  Throughout.mono h fun _ ht d hd => hI d (ht d hd)

theorem last {p : FsProg α} (h : Always io I p s) (hend : (runCalls (FsOp.exec id io) p s).2 = .closed d) : I d :=
  h _ (.last p) d (by rw [hend]; rfl)

/-- A program that ends with something that makes no call. -/
theorem result {p : FsProg α} {k : α → FsProg β} (h : Always io I p s) (hk : ∀ a, ∃ b, k a = Pure.pure b) :
    Always io I (p >>= k) s := by
  obtain ⟨b, hb⟩ := hk (runCalls (FsOp.exec id io) p s).1
  refine h.bind ?_
  rw [hb]
  exact Throughout.pure (h _ (.last p))

/-- A call between two states without an open stream. -/
theorem perform {op : FsOp} {d' : Disk} (hexec : (FsOp.exec id io op (.closed d)).2 = .closed d') (h : I d)
    (h' : I d') :
    Always io I (FsOp.perform op) (.closed d) :=
  Throughout.perform (fun _ hd => hd ▸ h) fun _ hd => by
    rw [hexec] at hd
    exact hd ▸ h'

theorem access (h : I d) : Always io I (FsOp.perform (.access path)) (.closed d) := perform rfl h h

theorem fopenRead (h : I d) : Always io I (FsOp.perform (.fopenRead path)) (.closed d) := perform rfl h h

theorem unlink (h : I d) (h' : I (NetworkFileShare.unlink d path)) :
    Always io I (FsOp.perform (.unlink path)) (.closed d) := perform rfl h h'

theorem rename (h : I d) (h' : ∀ d', NetworkFileShare.rename io d src dst = some d' → I d') :
    Always io I (FsOp.perform (.rename src dst)) (.closed d) := by
  cases hrename : NetworkFileShare.rename io d src dst with
  | none =>
    have hexec : (FsOp.exec id io (.rename src dst) (.closed d)).2 = .closed d := by rw [exec_rename, hrename]
    exact perform hexec h h
  | some d' =>
    have hexec : (FsOp.exec id io (.rename src dst) (.closed d)).2 = .closed d' := by rw [exec_rename, hrename]
    exact perform hexec h (h' d' hrename)

/-- While a stream is written to, the file holds the beginning of the text. -/
theorem fwriteAll : ∀ {pieces : List CStr} {text : CStr},
    (∀ part, part <+: text ++ pieces.flatten → I (Function.update d path (some part))) →
      Always io I (fwriteAll pieces) ⟨d, some (path, text)⟩
  | [], text, h => Throughout.pure fun _ ⟨k, hd⟩ => by
    rw [hd]
    exact h _ ((List.take_prefix k text).trans (List.prefix_append ..))
  | bytes :: pieces, text, h => by
    rw [List.flatten_cons, ← List.append_assoc] at h
    refine bind (Throughout.perform (fun _ ⟨k, hd⟩ => ?_) fun _ ⟨k, hd⟩ => ?_) (fwriteAll h)
    · rw [hd]
      exact h _ ((List.take_prefix k text).trans ((List.prefix_append ..).trans (List.prefix_append ..)))
    · rw [hd]
      exact h _ ((List.take_prefix k (text ++ bytes)).trans (List.prefix_append ..))

/-- **A file that is written** is torn at most. -/
theorem writing {body : FsProg Unit} {text : CStr} (h : I d) (htorn : io.canWrite path = true →
    ∀ part, part <+: text → I (Function.update d path (some part)))
    (hbody : io.canWrite path = true →
      Always io I body ⟨Function.update d path (some []), some (path, [])⟩)
    (hrun : runCalls (FsOp.exec id io) body ⟨Function.update d path (some []), some (path, [])⟩ =
      ((), ⟨Function.update d path (some []), some (path, text)⟩)) :
    Always io I (writing path body) (.closed d) := by
  have hidem : ∀ part, Function.update (Function.update d path (some [])) path (some part) =
      Function.update d path (some part) := fun part => Function.update_idem ..
  by_cases hopen : io.canWrite path = true
  · have hexec : FsOp.exec id io (.fopenWrite path) (.closed d) =
        (true, ⟨Function.update d path (some []), some (path, [])⟩) := if_pos hopen
    refine bind (Throughout.perform (fun _ hd => hd ▸ h) fun _ hd => ?_) ?_
    · rw [hexec] at hd
      obtain ⟨k, hd⟩ := hd
      rw [hd, List.take_nil, hidem]
      exact htorn hopen _ (List.nil_prefix)
    · rw [runCalls_perform, hexec]
      refine bind (hbody hopen) ?_
      rw [hrun]
      have hwhole : I (Function.update (Function.update d path (some [])) path (some text)) := by
        rw [hidem]
        exact htorn hopen _ List.prefix_rfl
      refine bind (Throughout.perform (fun _ ⟨k, hd⟩ => ?_) fun _ hd => hd ▸ hwhole) (pure hwhole)
      rw [hd, hidem]
      exact htorn hopen _ (List.take_prefix ..)
  · have hexec : FsOp.exec id io (.fopenWrite path) (.closed d) = (false, .closed d) := if_neg hopen
    refine bind (perform (congrArg Prod.snd hexec) h h) ?_
    rw [runCalls_perform, hexec]
    exact pure h

theorem writePieces {pieces : List CStr} (h : I d) (htorn : io.canWrite path = true →
    ∀ part, part <+: pieces.flatten → I (Function.update d path (some part))) :
    Always io I (writePieces path pieces) (.closed d) := by
  refine writing h htorn (fun hopen => fwriteAll fun part hpart => ?_) (runCalls_fwriteAll _ [] pieces)
  rw [Function.update_idem]
  exact htorn hopen part hpart

/-- A copy is torn at most. -/
theorem copyFile (hne : src ≠ dst) (h : I d)
    (htorn : ∀ text, readFile io.toIo d src = some text → io.canWrite dst = true →
      ∀ part, part <+: text → I (Function.update d dst (some part))) :
    Always io I (copyFile src dst) (.closed d) := by
  refine bind (fopenRead h) ?_
  rw [runCalls_perform]
  simp only [FsOp.exec, Function.comp_id]
  cases hread : readFile io.toIo d src with
  | none => exact pure h
  | some text =>
    have htext : (Function.update d dst (some []) src).getD [] = text := by
      rw [Function.update_of_ne hne, disk_of_readFile hread, Option.getD_some]
    have hcopy : Always io I (copyInto src dst) (.closed d) := by
      refine writing h (htorn text hread) (fun hopen => bind (Throughout.perform ?_ ?_) ?_) ?_
      · rintro _ ⟨k, rfl⟩
        rw [List.take_nil, Function.update_idem]
        exact htorn text hread hopen _ List.nil_prefix
      · rintro _ ⟨k, rfl⟩
        simp only [FsOp.exec, List.take_nil, Function.update_idem]
        exact htorn text hread hopen _ List.nil_prefix
      · rw [runCalls_perform]
        simp only [FsOp.exec, id_eq, htext]
        refine fwriteAll fun part hpart => ?_
        rw [freads_flatten, List.nil_append] at hpart
        rw [Function.update_idem]
        exact htorn text hread hopen part hpart
      · rw [runCalls_bind, runCalls_perform]
        simp only [FsOp.exec, id_eq, htext, runCalls_fwriteAll, freads_flatten, List.nil_append]
    refine result hcopy fun copied => ?_
    cases copied <;> exact ⟨_, rfl⟩

theorem writeFileContent {fc : FileContent} (h : I d) (htorn : io.canWrite path = true →
    ∀ part, part <+: fc.text → I (Function.update d path (some part))) :
    Always io I (writeFileContent path fc) (.closed d) := by
  refine writePieces h ?_
  rwa [flatten_singletons]

end Always

/-! ## The instants of a commit -/

/-- The disk at an instant of the commit loop: some entries have been worked off, and the file may be torn by the
next one. -/
inductive LoopInstant (io : Io) (path : Path) : List CommitQueueEntry → Disk → Disk → Prop where
  | between (entries : List CommitQueueEntry) (d : Disk) : LoopInstant io path entries d d
  | torn {entry : CommitQueueEntry} (entries : List CommitQueueEntry) {d d' : Disk} {text part : CStr}
      (commit : NetworkFileShare.commitEntry io path d entry = some d') (text_eq : d' path = some text)
      (part_of : part <+: text) : LoopInstant io path (entry :: entries) d (Function.update d path (some part))
  | later {entry : CommitQueueEntry} {entries : List CommitQueueEntry} {d d' d'' : Disk}
      (commit : NetworkFileShare.commitEntry io path d entry = some d') (rest : LoopInstant io path entries d' d'') :
      LoopInstant io path (entry :: entries) d d''

/-- The disk at an instant of a commit: first the backup is made, then the entries are worked off. -/
inductive CommitInstant (io : Io) (path : Path) (entries : List CommitQueueEntry) (d : Disk) : Disk → Prop where
  | before : CommitInstant io path entries d d
  | backup {text part : CStr} (read : readFile io d path = some text) (part_of : part <+: text) :
      CommitInstant io path entries d (Function.update d (undoPath path) (some part))
  | loop {d' : Disk} (instant : LoopInstant io path entries
      (NetworkFileShare.createUndoBackup io d path (undoPath path)) d') : CommitInstant io path entries d d'

section
variable {io : FsIo} {path : Path} {d : Disk}

/-- **A round of the loop** tears the file at most, until the copy is removed. -/
theorem always_commitEntry {entry : CommitQueueEntry} (hcopy : entry.tempFilepath ≠ path) :
    Always io (LoopInstant io.toIo path [entry] d) (commitEntry path entry) (.closed d) := by
  have hround := NetworkFileShare.commitEntry.eq_def io.toIo path d entry
  have hdrop : NetworkFileShare.commitEntry io.toIo path d entry = some (NetworkFileShare.unlink d entry.tempFilepath) →
      Always io (LoopInstant io.toIo path [entry] d) (do let _ ← perform (.unlink entry.tempFilepath); return true)
        (.closed d) := fun hcommit =>
    .result (.unlink (.between _ d) (.later hcommit (.between _ _))) fun _ => ⟨_, rfl⟩
  refine .bind (.result (.fopenRead (.between _ d)) fun _ => ⟨_, rfl⟩) ?_
  rw [parseFile_eq]
  refine .bind (.result (.fopenRead (.between _ d)) fun _ => ⟨_, rfl⟩) ?_
  rw [parseFile_eq]
  dsimp only at hround ⊢
  cases hcopied : NetworkFileShare.parseFile io.toIo d entry.tempFilepath with
  | none =>
    rw [hcopied] at hround
    exact hdrop hround
  | some temp =>
    rw [hcopied] at hround
    dsimp only at hround ⊢
    split
    · rename_i hskip
      rw [if_pos hskip] at hround
      exact hdrop hround
    · rename_i happly
      rw [if_neg happly, writeFile] at hround
      by_cases hopen : io.canWrite path = true
      · -- the file is written, and then the copy is removed
        rw [if_pos hopen] at hround
        refine .bind (.writeFileContent (.between _ d) fun _ part hpart => .torn [] hround
          (committed_main d hcopy _) hpart) ?_
        rw [writeFileContent_eq, writeFile, if_pos hopen]
        exact .result (.unlink (.torn [] hround (committed_main d hcopy _) List.prefix_rfl)
          (.later hround (.between _ _))) fun _ => ⟨_, rfl⟩
      · refine .bind (.writeFileContent (.between _ d) fun hw => absurd hw hopen) ?_
        rw [writeFileContent_eq, writeFile, if_neg hopen]
        exact .pure (.between _ d)

theorem LoopInstant.of_round {entry : CommitQueueEntry} {entries : List CommitQueueEntry} {d' : Disk}
    (h : LoopInstant io.toIo path [entry] d d') : LoopInstant io.toIo path (entry :: entries) d d' := by
  cases h with
  | between => exact .between _ d
  | torn _ commit text_eq part_of => exact .torn entries commit text_eq part_of
  | later commit rest =>
    cases rest
    exact .later commit (.between entries _)

/-- **The loop** is between two rounds, or the file is torn. -/
theorem always_processEntries : ∀ {entries : List CommitQueueEntry} {d : Disk},
    (∀ e ∈ entries, e.tempFilepath ≠ path) →
      Always io (LoopInstant io.toIo path entries d) (processEntries path entries) (.closed d)
  | [], d, _ => .pure (.between [] d)
  | entry :: entries, d, hcopies => by
    refine .bind ((always_commitEntry (hcopies entry List.mem_cons_self)).mono fun _ => .of_round) ?_
    rw [runCalls_commitEntry]
    cases hcommit : NetworkFileShare.commitEntry io.toIo path d entry with
    | none => exact .pure (.between _ d)
    | some d' =>
      exact (always_processEntries fun e he => hcopies e (List.mem_cons_of_mem _ he)).mono fun _ => .later hcommit

theorem always_createUndoBackup {I : Disk → Prop} (hne : undoPath path ≠ path) (h : I d) (htorn : ∀ text part,
    readFile io.toIo d path = some text → part <+: text → I (Function.update d (undoPath path) (some part))) :
    Always io I (createUndoBackup path) (.closed d) := by
  refine .result (.copyFile hne.symm h fun text hread _ part => htorn text part hread) fun copied => ?_
  cases copied <;> exact ⟨_, rfl⟩

end

/-- **The instants of `process_commit_queue`**. -/
theorem always_processCommitQueue {io : FsIo} {s : StorageServer} {f : Filename}
    (hcopies : ∀ e ∈ s.pendingOf f, e.tempFilepath ≠ s.path f) :
    Always io (CommitInstant io.toIo (s.path f) (s.pendingOf f) s.disk) (processCommitQueue s f) (.closed s.disk) := by
  unfold StorageServer.pendingOf entriesOf at hcopies ⊢
  unfold processCommitQueue
  cases hfind : s.commitQueues.find? (·.filename = f) with
  | none => exact .pure .before
  | some queue =>
    rw [hfind] at hcopies
    have hundo : undoPath (s.path f) ≠ s.path f := undoPath_ne_filePath s.id f
    refine .bind ?_ (.result ?_ fun _ => ⟨_, rfl⟩)
    · refine .ite (fun _ => .pure CommitInstant.before) fun _ => ?_
      exact .result (always_createUndoBackup hundo CommitInstant.before fun _ _ => .backup) fun _ => ⟨_, rfl⟩
    · rw [runCalls_backupFor hundo]
      by_cases hempty : queue.entries = []
      · rw [if_pos hempty, hempty]
        exact .pure .before
      · rw [if_neg hempty]
        exact (always_processEntries hcopies).mono fun _ => .loop

/-! ## What a crash cannot take away -/

/-- The file at an instant of the commit loop is as it was, or it has been written. -/
theorem LoopInstant.frame {io : Io} {path : Path} {W : Path → Prop} {entries : List CommitQueueEntry} {d d' : Disk}
    (h : LoopInstant io path entries d d') (hw : W path) (hcopies : ∀ e ∈ entries, W e.tempFilepath) :
    Frame W d d' := by
  induction h with
  | between => exact Frame.refl W _
  | torn => exact frame_update _ hw _
  | later commit _ ih =>
    exact (frame_commitEntry commit hw (hcopies _ List.mem_cons_self)).trans
      (ih fun e he => hcopies e (List.mem_cons_of_mem _ he))

/-- The content of a file is in the file or in its backup. -/
def Kept (s : StorageServer) (f : Filename) (m : CStr) (d : Disk) : Prop :=
  d (s.path f) = some m ∨ d (undoPath (s.path f)) = some m

theorem kept_of_backup {io : Io} {s : StorageServer} {f : Filename} {m : CStr} {d : Disk}
    (hmain : s.disk (s.path f) = some m) (hread : io.canRead (s.path f) = true)
    (hwrite : io.canWrite (undoPath (s.path f)) = true)
    (hframe : Frame (· ≠ undoPath (s.path f))
      (NetworkFileShare.createUndoBackup io s.disk (s.path f) (undoPath (s.path f))) d) : Kept s f m d := by
  refine Or.inr ?_
  rw [hframe _ (not_not_intro rfl), NetworkFileShare.createUndoBackup, readFile, if_pos hread, hmain]
  dsimp only
  rw [writeFile, if_pos hwrite]
  exact Function.update_self _ _ _

/-- **A commit** keeps the content of the file at every instant, if the backup can be made. -/
theorem CommitInstant.kept {io : Io} {s : StorageServer} {f : Filename} {m : CStr} {d : Disk}
    {entries : List CommitQueueEntry} (h : CommitInstant io (s.path f) entries s.disk d)
    (hmain : s.disk (s.path f) = some m) (hread : io.canRead (s.path f) = true)
    (hwrite : io.canWrite (undoPath (s.path f)) = true)
    (hcopies : ∀ e ∈ entries, e.tempFilepath ≠ undoPath (s.path f)) : Kept s f m d := by
  have hne : s.path f ≠ undoPath (s.path f) := (undoPath_ne_filePath s.id f).symm
  cases h with
  | before => exact Or.inl hmain
  | backup => exact Or.inl ((Function.update_of_ne hne ..).trans hmain)
  | loop instant => exact kept_of_backup hmain hread hwrite (instant.frame hne hcopies)

theorem Left.of_always {io : FsIo} {s : StorageServer} {op : Operation} {I : Disk → Prop} {d : Disk}
    (h : Left id io s op d) (hI : Always io I (handle io.toIo s op) (.closed s.disk)) : I d := by
  obtain ⟨t, ht, hd⟩ := h
  exact hI t ht d hd

/-- An `UNLOCK` does what the end of the session does. -/
theorem left_unlock {io : FsIo} {s : StorageServer} {f : Filename} {u : Username} {i : Int32} {d : Disk}
    {I : Disk → Prop} (h : Left id io s (.client (.unlockSentence f u i)) d)
    (hI : Always io I (commitWriteSession s f u i) (.closed s.disk)) : I d := by
  refine Left.of_always h (.result (hI.result fun r => ?_) fun _ => ⟨_, rfl⟩)
  obtain ⟨t, status⟩ := r
  dsimp only
  split <;> exact ⟨_, rfl⟩

/-- The entry that a session leaves in the queue. -/
def sessionEntry (u : Username) (i : Int32) (w : WriteSession) : CommitQueueEntry :=
  ⟨u, i, w.originalSentenceCount, w.tempFilepath⟩

section
variable {io : FsIo} {s : StorageServer} {f : Filename} {u : Username} {i : Int32} {d : Disk} {w : WriteSession}
  {queues : List FileCommitQueue}

/-- The copies that wait, and the one of the session, have names of their own. -/
theorem copies_of_queue (hs : StoreInv s) (hsession : getWriteSession s f u i = some w) {e : CommitQueueEntry}
    (he : e ∈ s.pendingOf f ++ [sessionEntry u i w]) :
    e.tempFilepath ≠ s.path f ∧ e.tempFilepath ≠ undoPath (s.path f) := by
  have hname : ∃ v j, e.tempFilepath = tempPath s.id f v j := by
    rcases List.mem_append.mp he with he | he
    · exact ⟨_, _, hs.queues f e (waits_of_mem_entriesOf he)⟩
    · obtain rfl := List.mem_singleton.mp he
      exact ⟨u, i, hs.server.sessions.temp_eq (mem_of_getWriteSession hsession).1 (mem_of_getWriteSession hsession).2⟩
  obtain ⟨v, j, hname⟩ := hname
  rw [hname]
  exact ⟨tempPath_ne_filePath s.id f v j, tempPath_ne_undoPath s.id f v j⟩

/-- **The instants of an `UNLOCK`** that finds room for its commit. -/
theorem left_commit (hs : StoreInv s) (hsession : getWriteSession s f u i = some w)
    (hroom : enqueueCommit f (sessionEntry u i w) s.commitQueues = some queues)
    (h : Left id io s (.client (.unlockSentence f u i)) d) :
    CommitInstant io.toIo (s.path f) (s.pendingOf f ++ [sessionEntry u i w]) s.disk d := by
  refine left_unlock h ?_
  unfold commitWriteSession
  rw [hsession]
  dsimp only
  rw [show enqueueCommit f ⟨u, i, w.originalSentenceCount, w.tempFilepath⟩ s.commitQueues = some queues from hroom]
  rw [show s.pendingOf f ++ [sessionEntry u i w] = _ from (enqueueCommit_spec hroom).symm]
  refine (always_processCommitQueue (s := { s with
    commitQueues := queues
    writeSessions := s.writeSessions.eraseP (isSession f u i) }) fun e he => ?_).result fun _ => ⟨_, rfl⟩
  refine (copies_of_queue hs hsession ?_).1
  rw [show s.pendingOf f ++ [sessionEntry u i w] = _ from (enqueueCommit_spec hroom).symm]
  exact he

/-- Without room the copy is removed, and nothing else. -/
theorem left_no_room (hsession : getWriteSession s f u i = some w)
    (hroom : enqueueCommit f (sessionEntry u i w) s.commitQueues = none)
    (h : Left id io s (.client (.unlockSentence f u i)) d) : Frame (· = w.tempFilepath) s.disk d := by
  refine left_unlock h ?_
  unfold commitWriteSession
  rw [hsession]
  dsimp only
  rw [show enqueueCommit f ⟨u, i, w.originalSentenceCount, w.tempFilepath⟩ s.commitQueues = none from hroom]
  refine .result (fun t ht d hd p hp => ?_) fun _ => ⟨_, rfl⟩
  have honly : Prog.Only (FsOp.On (fun _ => True) (· = w.tempFilepath) (· = w.tempFilepath))
    (removeWriteSession s f u i) :=
    only_removeWriteSession fun v hv => by
      rw [hsession] at hv
      rw [← Option.some.inj hv]
  refine (throughout_within honly (Fs.within_closed _ _) t ht).shows hd p ?_
  rintro ⟨q, hq, rfl⟩
  exact hp hq

theorem left_no_session (hsession : getWriteSession s f u i = none)
    (h : Left id io s (.client (.unlockSentence f u i)) d) : d = s.disk := by
  refine left_unlock (I := (· = s.disk)) h ?_
  unfold commitWriteSession
  rw [hsession]
  exact .pure rfl

theorem kept_unlock (hs : StoreInv s) {m : CStr} (hmain : s.disk (s.path f) = some m)
    (hread : io.canRead (s.path f) = true) (hwrite : io.canWrite (undoPath (s.path f)) = true)
    (h : Left id io s (.client (.unlockSentence f u i)) d) : Kept s f m d := by
  cases hsession : getWriteSession s f u i with
  | none =>
    rw [left_no_session hsession h]
    exact Or.inl hmain
  | some w =>
    cases hroom : enqueueCommit f (sessionEntry u i w) s.commitQueues with
    | none =>
      refine Or.inl ((left_no_room hsession hroom h _ fun he => ?_).trans hmain)
      exact (copies_of_queue hs hsession (List.mem_append_right _ (List.mem_singleton.mpr rfl))).1 he.symm
    | some queues =>
      exact (left_commit hs hsession hroom h).kept hmain hread hwrite fun e he => (copies_of_queue hs hsession he).2

theorem kept_revert {m : CStr} {tag : Tag} (hmain : s.disk (s.path f) = some m)
    (hread : io.canRead (s.path f) = true) (hwrite : io.canWrite (undoPath (s.path f)) = true)
    (h : Left id io s (.command (.revert f tag)) d) : Kept s f m d := by
  have hne : s.path f ≠ undoPath (s.path f) := (undoPath_ne_filePath s.id f).symm
  refine Left.of_always h (.result ?_ fun _ => ⟨_, rfl⟩)
  refine .bind (.access (Or.inl hmain)) (.ite (fun _ => .bind ?_ (.result ?_ fun _ => ⟨_, rfl⟩)) fun _ => ?_)
  · exact always_createUndoBackup hne.symm (Or.inl hmain) fun _ part _ _ =>
      Or.inl ((Function.update_of_ne hne ..).trans hmain)
  · -- the backup is whole while the checkpoint is copied over the file
    rw [runCalls_perform, show (FsOp.exec id io (.access _) (.closed s.disk)).2 = .closed s.disk from rfl,
      runCalls_createUndoBackup hne.symm]
    exact .copyFile (checkpointPath_ne_filePath s.id f tag) (kept_of_backup hmain hread hwrite (Frame.refl _ _))
      fun _ _ _ _ _ =>
      kept_of_backup hmain hread hwrite (frame_update (W := (· ≠ undoPath (s.path f))) _ hne _)
  · exact .pure (Or.inl hmain)

/-- An operation that touches other files only. -/
theorem kept_untouched (hs : StoreInv s) {op : Operation} {m : CStr} (hmain : s.disk (s.path f) = some m)
    (h : Left id io s op d) (huntouched : ¬ op.touched s (s.path f)) : Kept s f m d :=
  Or.inl ((left_frame hs h _ fun ⟨_, hp, he⟩ => huntouched (he ▸ hp)).trans hmain)

theorem left_kept (hs : StoreInv s) {op : Operation} {m : CStr} (hedits : op.Edits f)
    (hdelete : op ≠ .command (.delete f)) (hundo : op ≠ .client (.undo f)) (hmain : s.disk (s.path f) = some m)
    (hread : io.canRead (s.path f) = true) (hwrite : io.canWrite (undoPath (s.path f)) = true)
    (h : Left id io s op d) : Kept s f m d := by
  have htemp : ∀ u i, s.path f ≠ tempPath s.id f u i := fun u i => (tempPath_ne_filePath s.id f u i).symm
  match op, hedits with
  | .client (.read _), rfl => exact kept_untouched hs hmain h id
  | .client (.lockSentence _ u i), rfl => exact kept_untouched hs hmain h (htemp u i)
  | .client (.write _ u i _ _), rfl => exact kept_untouched hs hmain h fun ht => htemp u i ht.2
  | .client (.cancelWrite _ u i), rfl => exact kept_untouched hs hmain h fun ht => htemp u i ht.2
  | .client (.unlockSentence _ _ _), rfl => exact kept_unlock hs hmain hread hwrite h
  | .client (.undo _), rfl => exact absurd rfl hundo
  | .command (.checkLocks _), rfl => exact kept_untouched hs hmain h id
  | .command (.checkpoint _ tag), rfl =>
    exact kept_untouched hs hmain h fun ht => checkpointPath_ne_filePath s.id _ tag ht.1.symm
  | .command (.viewCheckpoint _ _), rfl => exact kept_untouched hs hmain h id
  | .command (.revert _ _), rfl => exact kept_revert hmain hread hwrite h
  | .command (.create _), rfl =>
    refine kept_untouched hs hmain h fun ht => ?_
    have habsent : s.disk (s.path _) = none := ht.2
    rw [hmain] at habsent
    cases habsent
  | .command (.delete _), rfl => exact absurd rfl hdelete
  | .command (.readContent _), rfl => exact kept_untouched hs hmain h id

/-- An `UNDO` keeps the backup until it is in the place of the file. -/
theorem left_undo {b : CStr} (hbackup : s.disk (undoPath (s.path f)) = some b)
    (h : Left id io s (.client (.undo f)) d) : Kept s f b d := by
  have hne : s.path f ≠ undoPath (s.path f) := (undoPath_ne_filePath s.id f).symm
  refine Left.of_always h (.result ?_ fun _ => ⟨_, rfl⟩)
  have hrestore : Always io (Kept s f b) (restoreFromUndo (s.path f)) (.closed s.disk) := by
    refine .bind (.access (Or.inr hbackup)) (.ite (fun _ => .bind ?_ ?_) fun _ => .pure (Or.inr hbackup))
    · exact .copyFile hne.symm (Or.inr hbackup) fun _ _ _ part _ =>
        Or.inr ((Function.update_of_ne hne.symm ..).trans hbackup)
    · -- the backup is removed when the file is whole
      rw [runCalls_perform, show (FsOp.exec id io (.access _) (.closed s.disk)).2 = .closed s.disk from rfl,
        copyFile_eq hne.symm]
      cases hread : readFile io.toIo s.disk (undoPath (s.path f)) with
      | none => exact .pure (Or.inr hbackup)
      | some text =>
        obtain rfl : b = text := Option.some.inj (hbackup.symm.trans (disk_of_readFile hread))
        dsimp only
        cases hwrite : writeFile io.toIo s.disk (s.path f) b with
        | none => exact .pure (Or.inr hbackup)
        | some d' =>
          obtain rfl := eq_of_writeFile hwrite
          exact .result (.unlink (Or.inl (Function.update_self ..)) (Or.inl (disk_undo b))) fun _ => ⟨_, rfl⟩
  exact .bind (.access (Or.inr hbackup)) (.ite (fun _ => hrestore) fun _ => .pure (Or.inr hbackup))

/-! ## Files with several names -/

/-- The server is started on the files, and `UNDO` puts `b` in the place of the file. -/
def UndoRestores (ρ : Path → Path) (id : Int32) (f : Filename) (d : Disk) (b : CStr) : Prop :=
  ∀ io : FsIo, io.canRead (undoPath (filePath id f)) = true → io.canWrite (filePath id f) = true →
    (handled ρ io (freshServer id d) (.client (.undo f))).2.status = SUCCESS ∧
      (handled ρ io (freshServer id d) (.client (.undo f))).1.disk (ρ (filePath id f)) = some b

variable {ρ : Path → Path}

theorem undo_restores {id : Int32} {b : CStr} (hne : ρ (undoPath (filePath id f)) ≠ ρ (filePath id f))
    (hbackup : d (ρ (undoPath (filePath id f))) = some b) : UndoRestores ρ id f d b := by
  intro io hread hwrite
  rw [handled_undo (s := freshServer id d) hne hbackup hread hwrite]
  refine ⟨rfl, ?_⟩
  exact (unlink_of_ne _ hne.symm).trans (Function.update_self _ _ _)

/-- The file and its backup. -/
def FileOrBackup (s : StorageServer) (f : Filename) (p : Path) : Prop := p = s.path f ∨ p = undoPath (s.path f)

/-- The paths of an operation, of a file and of its backup. -/
def PathsWith (s : StorageServer) (op : Operation) (f : Filename) (p : Path) : Prop :=
  op.spells s p ∨ FileOrBackup s f p

/-- **The content of a file survives a crash** in any operation that overwrites it, if the backup can be made: it is
in the file, or `UNDO` brings it back. No file has two of the names that the operation uses. -/
theorem content_survives {id : Int32} {disk : Disk} {es : List (FsIo × Operation)} {op : Operation} {m : CStr}
    (hreach : Run AnyLifeStep (freshServer id disk) es s) (hone : Set.InjOn ρ {p | PathsWith s op f p})
    (hedits : op.Edits f) (hdelete : op ≠ .command (.delete f)) (hundo : op ≠ .client (.undo f))
    (hmain : s.disk (ρ (s.path f)) = some m)
    (hread : io.canRead (s.path f) = true) (hwrite : io.canWrite (undoPath (s.path f)) = true)
    (h : Left ρ io s op d) : d (ρ (s.path f)) = some m ∨ UndoRestores ρ s.id f d m := by
  have hs := storeInv_of_life hreach
  have hpath : PathsWith s op f (s.path f) := Or.inr (Or.inl rfl)
  have hbackup : PathsWith s op f (undoPath (s.path f)) := Or.inr (Or.inr rfl)
  have hkept := left_kept (StoreInv.showing hs ρ (PathsWith s op f)) hedits hdelete hundo
    ((shown_of hpath).trans hmain) hread hwrite (left_showing hone hs (fun _ => Or.inl) h)
  refine hkept.imp (fun hm => (shown_of hpath).symm.trans hm) fun hm => undo_restores (fun he => ?_) ?_
  · exact undoPath_ne_filePath s.id f (hone hbackup hpath he)
  · exact (shown_of hbackup).symm.trans hm

/-- A session is open on a file with two sentences. -/
def typedIntoNotes : StorageServer :=
  (handleAll resolvePath startedWithNotes
    (asked [.lockSentence notes alice 0, .write notes alice 0 1 (lit "x")])).1

theorem reached_typedIntoNotes : Run AnyLifeStep startedWithNotes
    (asked [.lockSentence notes alice 0, .write notes alice 0 1 (lit "x")]) typedIntoNotes :=
  (run_handleAll resolvePath _ _).mono fun _ _ _ h => ⟨_, Or.inl h⟩

/-- The paths of Alice's commit are four. -/
theorem one_name_typedIntoNotes :
    Set.InjOn resolvePath {p | PathsWith typedIntoNotes (.client (.unlockSentence notes alice 0)) notes p} := by
  have hpaths : ∀ p, PathsWith typedIntoNotes (.client (.unlockSentence notes alice 0)) notes p →
      p = filePath 1 notes ∨ p = undoPath (filePath 1 notes) ∨ p = tempPath 1 notes alice 0 := by
    have hidle : typedIntoNotes.pendingOf notes = [] := by decide
    rintro p ((⟨-, hp | hp | ⟨e, he, -⟩⟩ | ⟨-, hp | hp | hp | ⟨e, he, -⟩⟩) | hp | hp)
    · exact Or.inl hp
    · exact Or.inr (Or.inr hp)
    · rw [hidle] at he
      cases he
    · exact Or.inl hp
    · exact Or.inr (Or.inl hp)
    · exact Or.inr (Or.inr hp)
    · rw [hidle] at he
      cases he
    · exact Or.inl hp
    · exact Or.inr (Or.inl hp)
  intro p hp q hq
  rcases hpaths p hp with rfl | rfl | rfl <;> rcases hpaths q hq with rfl | rfl | rfl <;> decide

/-- The file is torn when the server crashes. -/
theorem content_survives_notes :
    leftAfter resolvePath .allOpens typedIntoNotes (.client (.unlockSentence notes alice 0)) 11 2
        (resolvePath (typedIntoNotes.path notes)) = some (lit "A. B.") ∨
      UndoRestores resolvePath typedIntoNotes.id notes
        (leftAfter resolvePath .allOpens typedIntoNotes (.client (.unlockSentence notes alice 0)) 11 2)
        (lit "A. B.") :=
  content_survives reached_typedIntoNotes one_name_typedIntoNotes
    (show Operation.Edits notes (.client (.unlockSentence notes alice 0)) from rfl) (by decide) (by decide)
    (by decide) rfl rfl (left_leftAfter resolvePath .allOpens typedIntoNotes _ 11 2)

/-- **A crash in `UNDO`** does not lose the backup: it is in the place of the file, or `UNDO` can be sent again. -/
theorem undo_survives {b : CStr} (hne : ρ (undoPath (s.path f)) ≠ ρ (s.path f))
    (hbackup : s.disk (ρ (undoPath (s.path f))) = some b) (h : Left ρ io s (.client (.undo f)) d) :
    d (ρ (s.path f)) = some b ∨ UndoRestores ρ s.id f d b := by
  have hone : Set.InjOn ρ {p | FileOrBackup s f p} := by
    rintro p (rfl | rfl) q (rfl | rfl) he
    · rfl
    · exact absurd he.symm hne
    · exact absurd he hne
    · rfl
  have hmain : FileOrBackup s f (s.path f) := Or.inl rfl
  have hundo : FileOrBackup s f (undoPath (s.path f)) := Or.inr rfl
  have honly : Prog.Only (FsOp.On (FileOrBackup s f) (FileOrBackup s f) (FileOrBackup s f))
    (handle io.toIo s (.client (.undo f))) :=
    (only_undoRequest hundo hmain hundo).bind fun _ => Prog.Only.pure _
  exact (left_undo ((shown_of hundo).trans hbackup) (left_showing_of_only hone honly h)).imp
    (fun hm => (shown_of hmain).symm.trans hm) fun hm => undo_restores hne ((shown_of hundo).symm.trans hm)

/-- The edit has been committed. -/
def committedNotes : StorageServer :=
  (handleAll resolvePath typedIntoNotes (asked [.unlockSentence notes alice 0])).1

theorem undo_survives_notes :
    leftAfter resolvePath .allOpens committedNotes (.client (.undo notes)) 6 2
        (resolvePath (committedNotes.path notes)) = some (lit "A. B.") ∨
      UndoRestores resolvePath committedNotes.id notes
        (leftAfter resolvePath .allOpens committedNotes (.client (.undo notes)) 6 2) (lit "A. B.") :=
  undo_survives (s := committedNotes) (by decide) (by decide)
    (left_leftAfter resolvePath .allOpens committedNotes _ 6 2)

/-! ## What has been typed -/

/-- **The copy of the last entry** is there until its round is over, and that round ends the loop. -/
theorem LoopInstant.copy_or_done {path : Path} {entry : CommitQueueEntry} (hpath : entry.tempFilepath ≠ path) :
    ∀ {entries : List CommitQueueEntry} {d d' : Disk}, (∀ e ∈ entries, e.tempFilepath ≠ entry.tempFilepath) →
      LoopInstant io.toIo path (entries ++ [entry]) d d' → d' entry.tempFilepath = d entry.tempFilepath ∨
        d' = (NetworkFileShare.processEntries io.toIo path (entries ++ [entry]) d).1
  | [], d, d', _, h => by
    cases h with
    | between => exact Or.inl rfl
    | torn => exact Or.inl (Function.update_of_ne hpath ..)
    | later commit rest =>
      cases rest
      refine Or.inr ?_
      rw [List.nil_append, NetworkFileShare.processEntries, commit]
      rfl
  | e :: entries, d, d', hcopies, h => by
    cases h with
    | between => exact Or.inl rfl
    | torn => exact Or.inl (Function.update_of_ne hpath ..)
    | @later _ _ _ d₁ _ commit rest =>
      rcases copy_or_done hpath (fun e' he => hcopies e' (List.mem_cons_of_mem _ he)) rest with hcopy | hdone
      · have hframe : Frame (· ≠ entry.tempFilepath) d d₁ :=
          frame_commitEntry commit hpath.symm (hcopies e List.mem_cons_self)
        exact Or.inl (hcopy.trans (hframe _ (not_not_intro rfl)))
      · refine Or.inr ?_
        rw [hdone, List.cons_append, NetworkFileShare.processEntries, commit]

/-- The disk after an `UNLOCK` that finds room for its commit. -/
theorem disk_unlock (hsession : getWriteSession s f u i = some w)
    (hroom : enqueueCommit f (sessionEntry u i w) s.commitQueues = some queues) :
    ((Operation.client (.unlockSentence f u i)).handle io s).1.disk =
      (NetworkFileShare.processEntries io.toIo (s.path f) (s.pendingOf f ++ [sessionEntry u i w])
        (NetworkFileShare.createUndoBackup io.toIo s.disk (s.path f) (undoPath (s.path f)))).1 := by
  have hcommit : (NetworkFileShare.commitWriteSession io.toIo s f u i).1 =
      NetworkFileShare.processCommitQueue io.toIo { s with
        commitQueues := queues
        writeSessions := s.writeSessions.eraseP (isSession f u i) } f := by
    unfold NetworkFileShare.commitWriteSession
    rw [hsession]
    dsimp only
    rw [show enqueueCommit f ⟨u, i, w.originalSentenceCount, w.tempFilepath⟩ s.commitQueues = some queues from hroom]
  obtain ⟨tables, hunlock, -⟩ := unlockSentence_spec (NetworkFileShare.commitWriteSession io.toIo s f u i).1 f i u
  have hpending : StorageServer.pendingOf { s with
      commitQueues := queues
      writeSessions := s.writeSessions.eraseP (isSession f u i) } f = s.pendingOf f ++ [sessionEntry u i w] :=
    enqueueCommit_spec hroom
  show (NetworkFileShare.handleClientRequest io.toIo s (.unlockSentence f u i)).1.disk = _
  rw [handle_unlock, hunlock, hcommit, disk_processCommitQueue, hpending, if_neg (by simp)]
  rfl

/-- The copy of the session is whole, or the commit is over. -/
theorem left_copy (hs : StoreInv s) (hsession : getWriteSession s f u i = some w)
    (hroom : s.commitQueues.any (·.filename = f) = true ∨ s.commitQueues.length < MAX_FILE_QUEUES)
    (hown : ∀ e ∈ s.pendingOf f, (e.username, e.sentenceIdx) ≠ (u, i))
    (h : Left id io s (.client (.unlockSentence f u i)) d) :
    d w.tempFilepath = s.disk w.tempFilepath ∨
      d = ((Operation.client (.unlockSentence f u i)).handle io s).1.disk := by
  obtain ⟨queues, hqueues⟩ : ∃ queues, enqueueCommit f (sessionEntry u i w) s.commitQueues = some queues := by
    unfold enqueueCommit
    split
    · exact ⟨_, rfl⟩
    · rw [if_pos (hroom.resolve_left ‹_›)]
      exact ⟨_, rfl⟩
  have hself : sessionEntry u i w ∈ s.pendingOf f ++ [sessionEntry u i w] :=
    List.mem_append_right _ (List.mem_singleton.mpr rfl)
  obtain ⟨hmain, hundo⟩ := copies_of_queue hs hsession hself
  rw [disk_unlock hsession hqueues]
  cases left_commit hs hsession hqueues h with
  | before => exact Or.inl rfl
  | backup => exact Or.inl (Function.update_of_ne hundo ..)
  | loop instant =>
    refine (instant.copy_or_done hmain fun e he heq => ?_).imp_left fun hcopy => ?_
    · -- a commit that waits has the copy of its own session
      have hcopy : w.tempFilepath = tempPath s.id f u i :=
        hs.server.sessions.temp_eq (mem_of_getWriteSession hsession).1 (mem_of_getWriteSession hsession).2
      rw [hs.queues f e (waits_of_mem_entriesOf he)] at heq
      obtain ⟨hu, hi⟩ := tempPath_injective (heq.trans hcopy)
      exact hown e he (Prod.ext hu hi)
    · exact hcopy.trans (createUndoBackup_of_ne io.toIo s.disk hundo)

/-- **What has been typed survives a crash** in the `UNLOCK` that ends the session: the copy is whole, or the commit
is over. No file has two of the names that the `UNLOCK` uses. -/
theorem work_survives {id : Int32} {disk : Disk} {es : List (FsIo × Operation)}
    (hreach : Run AnyLifeStep (freshServer id disk) es s) (hsession : getWriteSession s f u i = some w)
    (hone : Set.InjOn ρ {p | Operation.spells s (.client (.unlockSentence f u i)) p})
    (hroom : s.commitQueues.any (·.filename = f) = true ∨ s.commitQueues.length < MAX_FILE_QUEUES)
    (hown : ∀ e ∈ s.pendingOf f, (e.username, e.sentenceIdx) ≠ (u, i))
    (h : Left ρ io s (.client (.unlockSentence f u i)) d) :
    d (ρ w.tempFilepath) = s.disk (ρ w.tempFilepath) ∨
      d = (handled ρ io s (.client (.unlockSentence f u i))).1.disk := by
  have hs := storeInv_of_life hreach
  have hcopy : Operation.spells s (.client (.unlockSentence f u i)) w.tempFilepath := by
    obtain ⟨hmem, hkey⟩ := mem_of_getWriteSession hsession
    exact Or.inl ⟨inPlay_of_session hsession, Or.inr (Or.inl (hs.server.sessions.temp_eq hmem hkey))⟩
  have hwithin : Throughout (FsOp.exec ρ io)
      (Fs.Within (named ρ (Operation.spells s (.client (.unlockSentence f u i)))) s.disk)
      (handle io.toIo s (.client (.unlockSentence f u i))) (.closed s.disk) :=
    throughout_within (only_of_spells hs io.toIo fun _ hp => hp) (Fs.within_closed _ _)
  rcases left_copy (StoreInv.showing hs ρ _) hsession hroom hown (left_showing hone hs (fun _ hp => hp) h) with
    hwhole | hdone
  · rw [shown_of hcopy] at hwhole
    exact Or.inl (hwhole.trans (shown_of hcopy))
  · refine Or.inr (eq_of_shown ?_ ?_ (hwithin _ (.last _)).frame)
    · rw [hdone, handled_showing hone hs io _ ⟨fun _ hp => hp, fun _ he => by cases he⟩]
      rfl
    · obtain ⟨t, ht, hd⟩ := h
      exact (hwithin t ht).shows hd

/-- The session that Alice has on the file. -/
def notesSession : WriteSession := ⟨notes, alice, 0, tempPath 1 notes alice 0, 2⟩

theorem work_survives_notes :
    leftAfter resolvePath .allOpens typedIntoNotes (.client (.unlockSentence notes alice 0)) 11 2
        (resolvePath notesSession.tempFilepath) = typedIntoNotes.disk (resolvePath notesSession.tempFilepath) ∨
      leftAfter resolvePath .allOpens typedIntoNotes (.client (.unlockSentence notes alice 0)) 11 2 =
        (handled resolvePath .allOpens typedIntoNotes (.client (.unlockSentence notes alice 0))).1.disk :=
  work_survives (w := notesSession) reached_typedIntoNotes (by decide)
    (one_name_typedIntoNotes.mono fun _ => Or.inl)
    (Or.inr (by decide)) (by decide) (left_leftAfter resolvePath .allOpens typedIntoNotes _ 11 2)

end

end Stdio
end NetworkFileShare
