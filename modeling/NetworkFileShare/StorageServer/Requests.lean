import NetworkFileShare.StorageServer.State

/-!
# The requests of the storage server's clients (`ss.c`)

* `startWriteSession`, `writeFileSs`, `cancelWriteSession` : a session and its private copy;
* `enqueueCommit`, `commitEntry`, `processCommitQueue`, `commitWriteSession` : the commit of a session, which
  puts the sentences of its copy in the place the locked sentence is taken to have now;
* `handleClientRequest` : the `switch` of `handle_client_request`, with the status of the reply.
-/

namespace NetworkFileShare

/-! ## Write sessions -/

/-- The test all session functions make. -/
def isSession (filename : Filename) (username : Username) (sentIdx : Int32) (w : WriteSession) : Bool :=
  w.filename = filename && w.username = username && w.sentenceIdx = sentIdx

/-- `get_write_session` without `create`. -/
def getWriteSession (s : StorageServer) (filename : Filename) (username : Username) (sentIdx : Int32) :
    Option WriteSession :=
  s.writeSessions.find? (isSession filename username sentIdx)

/-- The first session that matches, with another sentence count. -/
def setOriginalCount (filename : Filename) (username : Username) (sentIdx : Int32) (count : Nat) :
    List WriteSession → List WriteSession
  | [] => []
  | w :: ws =>
    if isSession filename username sentIdx w then { w with originalSentenceCount := count } :: ws
    else w :: setOriginalCount filename username sentIdx count ws

/-- `get_write_session` with `create`, and the sentence count that is stored in the session. -/
def createWriteSession (s : StorageServer) (filename : Filename) (username : Username) (sentIdx : Int32)
    (count : Nat) : Option StorageServer :=
  match getWriteSession s filename username sentIdx with
  | some _ => some { s with
      writeSessions := setOriginalCount filename username sentIdx count s.writeSessions }
  | none =>
    if s.writeSessions.length < MAX_CLIENTS * 10 then
      some { s with
        writeSessions := s.writeSessions ++
          [⟨filename, username, sentIdx, tempPath s.id filename username sentIdx, count⟩] }
    else none

/-- `remove_write_session`. -/
def removeWriteSession (s : StorageServer) (filename : Filename) (username : Username) (sentIdx : Int32) :
    StorageServer :=
  match getWriteSession s filename username sentIdx with
  | none => s
  | some w => { s with
      disk := unlink s.disk w.tempFilepath
      writeSessions := s.writeSessions.eraseP (isSession filename username sentIdx) }

/-- `start_write_session_ss`. -/
def startWriteSession (io : Io) (s : StorageServer) (filename : Filename) (username : Username)
    (sentIdx : Int32) : StorageServer × Int32 :=
  let count := ((parseFile io s.disk (s.path filename)).map (·.sentenceCount)).getD 0
  match createWriteSession s filename username sentIdx count with
  | none => (s, ERR_SERVER_ERROR)
  | some s =>
    match getWriteSession s filename username sentIdx with
    | none => (s, ERR_SERVER_ERROR)
    | some session =>
      match writeFile io s.disk session.tempFilepath
          ((readFile io s.disk (s.path filename)).getD []) with
      | none => (removeWriteSession s filename username sentIdx, ERR_SERVER_ERROR)
      | some disk => ({ s with disk := disk }, SUCCESS)

/-- One empty sentence. -/
def oneEmptySentence : FileContent := ⟨[[]], 1⟩

/-- The copy of a session as `write_file_ss` parses it. -/
def parseTemp (io : Io) (disk : Disk) (path : Path) : FileContent :=
  match parseFile io disk path with
  | none => oneEmptySentence
  | some fc => if fc.sentenceCount = 0 then oneEmptySentence else fc

/-- `write_file_ss`. -/
def writeFileSs (io : Io) (s : StorageServer) (filename : Filename) (username : Username)
    (sentIdx wordIdx : Int32) (content : CStr) : StorageServer × Int32 :=
  match getWriteSession s filename username sentIdx with
  | none => (s, ERR_INVALID_OPERATION)
  | some session =>
    let fc := parseTemp io s.disk session.tempFilepath
    if sentIdx.toInt < 0 ∨ sentIdx.toInt > fc.sentenceCount then (s, ERR_INVALID_INDEX)
    else
      match insertWordInSentence fc sentIdx.toInt wordIdx.toInt content with
      | none => (s, ERR_INVALID_INDEX)
      | some (fc, _) =>
        match writeFile io s.disk session.tempFilepath fc.text with
        | none => (s, ERR_SERVER_ERROR)
        | some disk => ({ s with disk := disk }, SUCCESS)

/-- `cancel_write_session_ss`. -/
def cancelWriteSession (s : StorageServer) (filename : Filename) (username : Username) (sentIdx : Int32) :
    StorageServer :=
  removeWriteSession s filename username sentIdx

/-! ## Commits -/

/-- `get_commit_queue` and the new entry at its tail; `none` when there is no room for another queue. -/
def enqueueCommit (filename : Filename) (entry : CommitQueueEntry) (queues : List FileCommitQueue) :
    Option (List FileCommitQueue) :=
  if queues.any (·.filename = filename) then
    some (queues.map fun q => if q.filename = filename then { q with entries := q.entries ++ [entry] } else q)
  else if queues.length < MAX_FILE_QUEUES then some (queues ++ [⟨filename, [entry]⟩])
  else none

/-- The sentences of the merged file: the ones before `adjustedIdx`, those of the copy from the entry's index
on, as many as it has more than before and one, and the ones behind. -/
def mergeSentences (entry : CommitQueueEntry) (adjustedIdx : Int) (main temp : FileContent) :
    List Sentence :=
  let sentenceExpansion : Int := temp.sentenceCount - entry.originalSentenceCount
  let modifiedSentenceCount := 1 + sentenceExpansion
  if main.sentenceCount = 0 then temp.sentences.take temp.sentenceCount
  else
    main.sentences.take adjustedIdx.toNat ++
      ((temp.sentences.take temp.sentenceCount).drop entry.sentenceIdx.toInt.toNat).take
        modifiedSentenceCount.toNat ++
      (main.sentences.take main.sentenceCount).drop (adjustedIdx.toNat + 1)

/-- One round of `process_commit_queue`: the disk afterwards, `none` when the file cannot be written. An entry
whose copy cannot be read, or whose index is out of bounds, is dropped with its copy. -/
def commitEntry (io : Io) (path : Path) (disk : Disk) (entry : CommitQueueEntry) : Option Disk :=
  let main := (parseFile io disk path).getD ⟨[], 0⟩
  match parseFile io disk entry.tempFilepath with
  | none => some (unlink disk entry.tempFilepath)
  | some temp =>
    let sentenceShift : Int := main.sentenceCount - entry.originalSentenceCount
    let adjustedIdx := entry.sentenceIdx.toInt + sentenceShift
    if ¬ (main.sentenceCount = 0 ∧ entry.originalSentenceCount = 0 ∧ adjustedIdx = 0) ∧
        (adjustedIdx < 0 ∨ adjustedIdx ≥ main.sentenceCount) then
      some (unlink disk entry.tempFilepath)
    else
      let merged := mergeSentences entry adjustedIdx main temp
      match writeFile io disk path (FileContent.text ⟨merged, merged.length⟩) with
      | none => none
      | some disk => some (unlink disk entry.tempFilepath)

/-- The loop of `process_commit_queue`: the disk and the entries that are left. -/
def processEntries (io : Io) (path : Path) : List CommitQueueEntry → Disk → Disk × List CommitQueueEntry
  | [], disk => (disk, [])
  | entry :: entries, disk =>
    match commitEntry io path disk entry with
    | none => (disk, entry :: entries)
    | some disk => processEntries io path entries disk

/-- `process_commit_queue`. -/
def processCommitQueue (io : Io) (s : StorageServer) (filename : Filename) : StorageServer :=
  match s.commitQueues.find? (·.filename = filename) with
  | none => s
  | some queue =>
    let disk := if queue.entries = [] then s.disk
      else createUndoBackup io s.disk (s.path filename) (undoPath (s.path filename))
    let (disk, entries) := processEntries io (s.path filename) queue.entries disk
    { s with
      disk := disk
      commitQueues := s.commitQueues.map fun q =>
        if q.filename = filename then { q with entries := entries } else q }

/-- `commit_write_session_ss`. -/
def commitWriteSession (io : Io) (s : StorageServer) (filename : Filename) (username : Username)
    (sentIdx : Int32) : StorageServer × Int32 :=
  match getWriteSession s filename username sentIdx with
  | none => (s, SUCCESS)
  | some session =>
    match enqueueCommit filename
        ⟨username, sentIdx, session.originalSentenceCount, session.tempFilepath⟩ s.commitQueues with
    | none => (removeWriteSession s filename username sentIdx, ERR_SERVER_ERROR)
    | some queues =>
      let s := { s with
        commitQueues := queues
        writeSessions := s.writeSessions.eraseP (isSession filename username sentIdx) }
      (processCommitQueue io s filename, SUCCESS)

/-! ## The `switch` -/

/-- The check of `MSG_LOCK_SENTENCE` on the index: a new sentence can only be begun behind a delimiter or a
newline. -/
def lockIndexInvalid (content : Option FileContent) (sentIdx : Int) : Bool :=
  let scount : Nat := (content.map (·.sentenceCount)).getD 0
  if scount = 0 then sentIdx ≠ 0
  else if sentIdx < 0 ∨ sentIdx > scount then true
  else if sentIdx = scount then
    match (content.bind fun fc => fc.sentences[scount - 1]?).bind List.getLast? with
    | none => true
    | some lastWord => !(startsWithDelimiter lastWord || lastWord = [newline])
  else false

inductive Request where
  | read (filename : Filename)
  | lockSentence (filename : Filename) (sender : Username) (sentIdx : Int32)
  | write (filename : Filename) (sender : Username) (sentIdx wordIdx : Int32) (data : CStr)
  | unlockSentence (filename : Filename) (sender : Username) (sentIdx : Int32)
  | cancelWrite (filename : Filename) (sender : Username) (sentIdx : Int32)
  | undo (filename : Filename)
  deriving DecidableEq

/-- `restore_from_undo`. -/
def restoreFromUndo (io : Io) (disk : Disk) (path : Path) : Disk × Int32 :=
  if disk (undoPath path) = none then (disk, -1)
  else
    match readFile io disk (undoPath path) with
    | none => (disk, -1)
    | some text =>
      match writeFile io disk path text with
      | none => (disk, -1)
      | some disk => (unlink disk (undoPath path), 200)

/-- The `switch` of `handle_client_request`: the server afterwards and the status of the reply. -/
def handleClientRequest (io : Io) (s : StorageServer) : Request → StorageServer × Int32
  | .read filename =>
    (s, if (readFile io s.disk (s.path filename)).isSome then SUCCESS else ERR_FILE_NOT_FOUND)
  | .lockSentence filename sender sentIdx =>
    if lockIndexInvalid (parseFile io s.disk (s.path filename)) sentIdx.toInt then (s, ERR_INVALID_INDEX)
    else
      match lockSentence io s filename sentIdx sender with
      | (s, status) =>
        if status = SUCCESS then
          match startWriteSession io s filename sender sentIdx with
          | (s, sessionStatus) =>
            if sessionStatus ≠ SUCCESS then ((unlockSentence s filename sentIdx sender).1, sessionStatus)
            else (s, SUCCESS)
        else (s, status)
  | .write filename sender sentIdx wordIdx data => writeFileSs io s filename sender sentIdx wordIdx data
  | .unlockSentence filename sender sentIdx =>
    match commitWriteSession io s filename sender sentIdx with
    | (s, commitStatus) =>
      if commitStatus = SUCCESS then unlockSentence s filename sentIdx sender
      else ((unlockSentence s filename sentIdx sender).1, commitStatus)
  | .cancelWrite filename sender sentIdx =>
    unlockSentence (cancelWriteSession s filename sender sentIdx) filename sentIdx sender
  | .undo filename =>
    if s.disk (undoPath (s.path filename)) ≠ none then
      match restoreFromUndo io s.disk (s.path filename) with
      | (disk, status) => ({ s with disk := disk }, status)
    else (s, ERR_INVALID_OPERATION)

/-- An unlock lets the lock go whether or not the commit went well. -/
theorem handle_unlock (io : Io) (s : StorageServer) (f : Filename) (u : Username) (i : Int32) :
    (handleClientRequest io s (.unlockSentence f u i)).1 =
      (unlockSentence (commitWriteSession io s f u i).1 f i u).1 := by
  unfold handleClientRequest
  simp only
  split <;> rfl

/-- Some requests one after another, and the statuses of the replies. -/
def handleRequests (io : Io) : StorageServer → List Request → StorageServer × List Int32
  | s, [] => (s, [])
  | s, r :: rs =>
    let (s, status) := handleClientRequest io s r
    let (s, statuses) := handleRequests io s rs
    (s, status :: statuses)

/-! ## `MSG_UNDO` -/

/-- It puts the backup in the place of the file. -/
theorem undo_of_backup {io : Io} {s : StorageServer} {f : Filename} {b : CStr}
    (hb : s.disk (undoPath (s.path f)) = some b) (hread : io.canRead (undoPath (s.path f)) = true)
    (hwrite : io.canWrite (s.path f) = true) :
    handleClientRequest io s (.undo f) =
      ({ s with disk := unlink (Function.update s.disk (s.path f) (some b)) (undoPath (s.path f)) }, SUCCESS) := by
  have hne : s.disk (undoPath (s.path f)) ≠ none := by rw [hb]; exact Option.some_ne_none b
  unfold handleClientRequest
  simp only [if_pos hne]
  unfold restoreFromUndo
  rw [if_neg hne]
  simp only [readFile, hread, if_true, hb, writeFile, hwrite]

theorem undo_of_none {io : Io} {s : StorageServer} {f : Filename} (h : s.disk (undoPath (s.path f)) = none) :
    handleClientRequest io s (.undo f) = (s, ERR_INVALID_OPERATION) := by
  unfold handleClientRequest
  simp only [h, ne_eq, not_true_eq_false, if_false]

/-! ## A small server -/

def alice : Username := .strncpy (MAX_USERNAME - 1) (lit "alice")
def bob : Username := .strncpy (MAX_USERNAME - 1) (lit "bob")
def notes : Filename := .strncpy (MAX_FILENAME - 1) (lit "notes.txt")

/-- A server with one file. -/
def serverWith (text : CStr) : StorageServer where
  id := 1
  disk := Function.update (fun _ => none) (filePath 1 notes) (some text)
  fileLocks := []
  writeSessions := []
  commitQueues := []

end NetworkFileShare
