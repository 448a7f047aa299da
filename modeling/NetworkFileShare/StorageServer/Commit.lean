import NetworkFileShare.Lib.Merge
import NetworkFileShare.StorageServer.Requests
import NetworkFileShare.StorageServer.Paths

/-!
# What a commit does (`ss.c`: `process_commit_queue`)

* `commitEntry_spec` : a round of the loop merges the sentences of the copy into the file, as `Merge.merge` does
  with the non-blank bytes of the sentences;
* `pendingOf` : the entries a file has in its queue; `enqueueCommit_spec`, `processCommitQueue_spec` : what
  enters and leaves the queue;
* `enterCommit` : the first half of `commit_write_session_ss`.
-/

namespace NetworkFileShare
open Merge

/-! ## Merged sentences have the right form -/

/-- **Merged sentences have the form of a file**: sentences of the copy that stand before others of the file
stand before others in the copy. -/
theorem shaped_merge {X Y : List Sentence} (hX : Shaped X) (hY : Shaped Y) {idx : Int} (hidx : 0 ≤ idx)
    (orig : Nat) : Shaped (merge idx orig X Y) := by
  unfold merge
  simp only
  split
  · exact hY
  · split
    · exact hX
    · rename_i hrange
      push Not at hrange
      generalize hadj : idx + ((X.length : Int) - orig) = adj at hrange ⊢
      obtain ⟨n, rfl⟩ : ∃ n : Nat, adj = n := ⟨adj.toNat, by omega⟩
      obtain ⟨i, rfl⟩ : ∃ i : Nat, idx = i := ⟨idx.toNat, by omega⟩
      simp only [Int.toNat_natCast]
      have hbefore : ∀ s ∈ X.take n, ClosedSentence s := hX.closed_take (by omega)
      rw [List.append_assoc]
      refine Shaped.append hbefore ?_
      by_cases hlast : n + 1 < X.length
      · refine Shaped.append (fun s hs => ?_) (hX.drop _)
        have hlen : (Y.drop i).length = Y.length - i := List.length_drop
        have hne : Y.drop i ≠ [] := fun he => by simp [he] at hs
        have hpos : 0 < (Y.drop i).length := List.length_pos_iff.mpr hne
        exact (hY.drop i).closed_take (by omega) s hs
      · rw [List.drop_of_length_le (show X.length ≤ n + 1 by omega), List.append_nil]
        exact (hY.drop _).take _

/-! ## One round of the loop -/

theorem text_all (X : List Sentence) : FileContent.text ⟨X, X.length⟩ = render X := by
  rw [FileContent.text, List.take_length]

/-- The array `new_sentences` is the merge of the two parsed files. -/
theorem mergeSentences_eq (entry : CommitQueueEntry) (m t : CStr)
    (h : ¬ (¬ ((parseContent m).sentenceCount = 0 ∧ entry.originalSentenceCount = 0 ∧
        entry.sentenceIdx.toInt + ((parseContent m).sentenceCount - entry.originalSentenceCount) = 0) ∧
      (entry.sentenceIdx.toInt + ((parseContent m).sentenceCount - entry.originalSentenceCount) < 0 ∨
        entry.sentenceIdx.toInt + ((parseContent m).sentenceCount - entry.originalSentenceCount) ≥
          (parseContent m).sentenceCount))) :
    mergeSentences entry
        (entry.sentenceIdx.toInt + ((parseContent m).sentenceCount - entry.originalSentenceCount))
        (parseContent m) (parseContent t) =
      merge entry.sentenceIdx.toInt entry.originalSentenceCount (parseContent m).sentences
        (parseContent t).sentences := by
  unfold mergeSentences merge
  simp only [sentenceCount_parseContent, List.take_length] at h ⊢
  by_cases hempty : (parseContent m).sentences.length = 0
  · rw [if_pos hempty, if_pos]
    by_contra hne
    exact h ⟨hne, by omega⟩
  · rw [if_neg hempty, if_neg (by tauto), if_neg (by tauto)]

theorem disk_of_readFile {io : Io} {disk : Disk} {path : Path} {text : CStr}
    (h : readFile io disk path = some text) : disk path = some text := by
  unfold readFile at h
  split at h
  · exact h
  · cases h

theorem parseFile_of_readFile {io : Io} {disk : Disk} {path : Path} {text : CStr}
    (h : readFile io disk path = some text) : parseFile io disk path = some (parseContent text) := by
  rw [parseFile, h]
  rfl

/-- The file after a commit. -/
theorem committed_main (disk : Disk) {path temp : Path} (h : temp ≠ path) (text : CStr) :
    unlink (Function.update disk path (some text)) temp path = some text := by
  rw [unlink, Function.update_of_ne h.symm, Function.update_self]

/-- A commit touches the file and the copy only. -/
theorem committed_other (disk : Disk) {path temp p : Path} (h : p ≠ path) (ht : p ≠ temp) (text : CStr) :
    unlink (Function.update disk path (some text)) temp p = disk p := by
  rw [unlink, Function.update_of_ne ht, Function.update_of_ne h]

/-- **A round of the loop** puts the merge of the sentences into the file, and removes the copy. -/
theorem commitEntry_spec {io : Io} {path : Path} {disk : Disk} {entry : CommitQueueEntry} {m t : CStr}
    (hm : readFile io disk path = some m) (ht : readFile io disk entry.tempFilepath = some t)
    (hw : io.canWrite path = true) (hidx : 0 ≤ entry.sentenceIdx.toInt) :
    ∃ text, commitEntry io path disk entry =
        some (unlink (Function.update disk path (some text)) entry.tempFilepath) ∧
      cores text = merge entry.sentenceIdx.toInt entry.originalSentenceCount (cores m) (cores t) := by
  unfold commitEntry
  simp only [parseFile_of_readFile hm, parseFile_of_readFile ht, Option.getD_some]
  split
  · rename_i hskip
    refine ⟨m, ?_, ?_⟩
    · rw [Function.update_eq_self_iff.mpr (disk_of_readFile hm).symm]
    · rw [← cores_parseContent m, ← cores_parseContent t, ← map_merge, merge]
      simp only [sentenceCount_parseContent] at hskip
      rw [if_neg hskip.1, if_pos hskip.2]
  · rename_i happly
    rw [mergeSentences_eq entry m t happly, text_all]
    simp only [writeFile, hw, if_true]
    refine ⟨_, rfl, ?_⟩
    rw [cores_render (shaped_merge (parseContent_shaped m) (parseContent_shaped t) hidx _), map_merge,
      cores_parseContent, cores_parseContent]

/-! ## The queue -/

/-- The entries a file has in its queue. -/
def entriesOf (filename : Filename) (queues : List FileCommitQueue) : List CommitQueueEntry :=
  ((queues.find? (·.filename = filename)).map (·.entries)).getD []

/-- The commits of a file that wait. -/
def StorageServer.pendingOf (s : StorageServer) (filename : Filename) : List CommitQueueEntry :=
  entriesOf filename s.commitQueues

/-- A queue of every name keeps its place when the entries of one file change. -/
theorem find?_map_entries (filename g : Filename) (k : FileCommitQueue → List CommitQueueEntry)
    (queues : List FileCommitQueue) :
    (queues.map fun q => if q.filename = filename then { q with entries := k q } else q).find?
        (·.filename = g) =
      (queues.find? (·.filename = g)).map fun q =>
        if q.filename = filename then { q with entries := k q } else q := by
  rw [List.find?_map]
  congr 2
  funext q
  simp only [Function.comp_apply]
  split <;> rfl

theorem entriesOf_map (filename : Filename) (k : FileCommitQueue → List CommitQueueEntry)
    (queues : List FileCommitQueue) :
    entriesOf filename
        (queues.map fun q => if q.filename = filename then { q with entries := k q } else q) =
      ((queues.find? (·.filename = filename)).map k).getD [] := by
  rw [entriesOf, find?_map_entries]
  cases hfind : queues.find? (·.filename = filename) with
  | none => rfl
  | some q =>
    have hq : q.filename = filename := by simpa using List.find?_some hfind
    simp [hq]

theorem enqueueCommit_spec {filename : Filename} {entry : CommitQueueEntry}
    {queues queues' : List FileCommitQueue} (h : enqueueCommit filename entry queues = some queues') :
    entriesOf filename queues' = entriesOf filename queues ++ [entry] := by
  unfold enqueueCommit at h
  split at h
  · rename_i hany
    obtain rfl := Option.some.inj h
    obtain ⟨q, hq, hname⟩ := List.any_eq_true.mp hany
    obtain ⟨q', hq'⟩ : ∃ q', queues.find? (·.filename = filename) = some q' :=
      Option.isSome_iff_exists.mp (List.find?_isSome.mpr ⟨q, hq, hname⟩)
    rw [entriesOf_map, entriesOf, hq']
    rfl
  · rename_i hany
    split at h
    · obtain rfl := Option.some.inj h
      have hnone : queues.find? (·.filename = filename) = none := List.find?_eq_none.mpr fun q hq hname =>
        hany (List.any_eq_true.mpr ⟨q, hq, hname⟩)
      simp [entriesOf, List.find?_append, hnone]
    · cases h

theorem createUndoBackup_of_ne (io : Io) (disk : Disk) {path undo p : Path} (h : p ≠ undo) :
    createUndoBackup io disk path undo p = disk p := by
  unfold createUndoBackup
  cases readFile io disk path with
  | none => rfl
  | some text =>
    by_cases hw : io.canWrite undo = true
    · simp [writeFile, hw, Function.update_of_ne h]
    · simp [writeFile, hw]

/-- **The queue is worked off** on a disk that has a backup more at most, and nothing else changes. -/
theorem processCommitQueue_spec (io : Io) (s : StorageServer) (filename : Filename) :
    ∃ disk queues, processCommitQueue io s filename = { s with disk := disk, commitQueues := queues } ∧
      ∃ backup, (∀ p, p ≠ undoPath (s.path filename) → backup p = s.disk p) ∧
        processEntries io (s.path filename) (s.pendingOf filename) backup = (disk, entriesOf filename queues) := by
  unfold processCommitQueue
  cases hfind : s.commitQueues.find? (·.filename = filename) with
  | none =>
    refine ⟨s.disk, s.commitQueues, rfl, s.disk, fun _ _ => rfl, ?_⟩
    simp [StorageServer.pendingOf, entriesOf, hfind, processEntries]
  | some queue =>
    have hpending : s.pendingOf filename = queue.entries := by
      simp [StorageServer.pendingOf, entriesOf, hfind]
    refine ⟨_, _, rfl, if queue.entries = [] then s.disk
      else createUndoBackup io s.disk (s.path filename) (undoPath (s.path filename)), fun p hp => ?_, ?_⟩
    · split
      · rfl
      · exact createUndoBackup_of_ne io s.disk hp
    · rw [entriesOf_map, hfind, hpending]
      rfl

/-- **A queue of one entry**: the copy is merged into the file when it can be read. -/
theorem processCommitQueue_single {io : Io} {s : StorageServer} {f : Filename} {entry : CommitQueueEntry}
    {m : CStr} (hpending : s.pendingOf f = [entry]) (hread : io.canRead (s.path f) = true)
    (hwrite : io.canWrite (s.path f) = true) (hm : s.disk (s.path f) = some m)
    (htemp : entry.tempFilepath ≠ s.path f) (hundo : entry.tempFilepath ≠ undoPath (s.path f))
    (hidx : 0 ≤ entry.sentenceIdx.toInt) :
    (processCommitQueue io s f).pendingOf f = [] ∧
      ∃ m', (processCommitQueue io s f).disk (s.path f) = some m' ∧
        (readFile io s.disk entry.tempFilepath = none → m' = m) ∧
        ∀ text, readFile io s.disk entry.tempFilepath = some text →
          cores m' = merge entry.sentenceIdx.toInt entry.originalSentenceCount (cores m) (cores text) := by
  obtain ⟨disk, queues, heq, backup, hbackup, hprocess⟩ := processCommitQueue_spec io s f
  rw [heq]
  rw [hpending] at hprocess
  have hpath : s.path f ≠ undoPath (s.path f) := (undoPath_ne_filePath s.id f).symm
  have hmain : readFile io backup (s.path f) = some m := by
    rw [readFile, if_pos hread, hbackup _ hpath, hm]
  have hcopy : readFile io backup entry.tempFilepath = readFile io s.disk entry.tempFilepath := by
    rw [readFile, readFile, hbackup _ hundo]
  cases hread' : readFile io s.disk entry.tempFilepath with
  | none =>
    have hcommit : commitEntry io (s.path f) backup entry = some (unlink backup entry.tempFilepath) := by
      simp [commitEntry, parseFile, hcopy, hread']
    rw [processEntries, hcommit] at hprocess
    obtain ⟨hdisk, hqueue⟩ := Prod.mk.inj hprocess
    refine ⟨hqueue.symm, m, ?_, fun _ => rfl, fun text h => by cases h⟩
    show disk _ = _
    rw [← hdisk, unlink, Function.update_of_ne htemp.symm, hbackup _ hpath, hm]
  | some text =>
    obtain ⟨m', hcommit, hcores⟩ := commitEntry_spec hmain (hcopy.trans hread') hwrite hidx
    rw [processEntries, hcommit] at hprocess
    obtain ⟨hdisk, hqueue⟩ := Prod.mk.inj hprocess
    refine ⟨hqueue.symm, m', ?_, fun h => (by cases h), fun text' h => ?_⟩
    · show disk _ = _
      rw [← hdisk]
      exact committed_main backup htemp m'
    · obtain rfl := Option.some.inj h
      exact hcores

/-! ## The commit of a session -/

/-- The first half of `commit_write_session_ss`: the session ends and its commit waits. -/
def enterCommit (s : StorageServer) (filename : Filename) (username : Username) (sentIdx : Int32) :
    Option StorageServer :=
  match getWriteSession s filename username sentIdx with
  | none => none
  | some session =>
    match enqueueCommit filename
        ⟨username, sentIdx, session.originalSentenceCount, session.tempFilepath⟩ s.commitQueues with
    | none => none
    | some queues => some { s with
        commitQueues := queues
        writeSessions := s.writeSessions.eraseP (isSession filename username sentIdx) }

theorem find?_eraseP_of_disjoint {α : Type*} {p q : α → Bool} (h : ∀ a, p a = true → q a = false) :
    ∀ l : List α, (l.eraseP p).find? q = l.find? q
  | [] => rfl
  | a :: l => by
    by_cases hp : p a = true
    · rw [List.eraseP_cons_of_pos hp, List.find?_cons, h a hp]
    · rw [List.eraseP_cons_of_neg hp, List.find?_cons, List.find?_cons, find?_eraseP_of_disjoint h l]

/-- **A session that enters the queue** is over; those under another name are the same. -/
theorem enterCommit_spec {s t : StorageServer} {f : Filename} {u : Username} {i : Int32}
    (h : enterCommit s f u i = some t) :
    ∃ w, getWriteSession s f u i = some w ∧ t.id = s.id ∧ t.disk = s.disk ∧
      t.pendingOf f = s.pendingOf f ++ [⟨u, i, w.originalSentenceCount, w.tempFilepath⟩] ∧
      ∀ v j, v ≠ u → getWriteSession t f v j = getWriteSession s f v j := by
  unfold enterCommit at h
  cases hget : getWriteSession s f u i with
  | none => simp [hget] at h
  | some w =>
    simp only [hget] at h
    split at h
    · cases h
    · rename_i queues hq
      obtain rfl := Option.some.inj h
      refine ⟨w, rfl, rfl, rfl, enqueueCommit_spec hq, fun v j hv => ?_⟩
      refine find?_eraseP_of_disjoint (fun a ha => ?_) _
      simp only [isSession, Bool.and_eq_true, decide_eq_true_eq] at ha
      simp [isSession, ha.1.2, Ne.symm hv]

end NetworkFileShare
