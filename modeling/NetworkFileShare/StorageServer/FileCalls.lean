import NetworkFileShare.Lib.Instants
import NetworkFileShare.StorageServer.Names

/-!
# The calls on files (`file_ops.c`, `ss.c`)

The functions of the storage server once more, with every call of `stdio.h` and `unistd.h` that they make on files.

* `Stdio.FsOp` : the calls; `Stdio.Fs` : the files, and the stream that is written to; `Stdio.Fs.Shows` : what may be on
  the disk at an instant, any part of what was written to the stream;
* `Stdio.FsOp.exec ρ` : one call, on a file system where the path `p` names the file `ρ p`, so that a file may have
  several names;
* `Stdio.copyFile`, `Stdio.writeFileContent`, `Stdio.createUndoBackup` and the others : the functions, under the
  names of the source;
* `Stdio.handle` : the calls of a whole operation of the server; `Stdio.handled ρ`, `Stdio.StoreStep ρ` : the operation,
  run to its end;
* `handle_yields`, `handled_id` : **where every path names a file of its own, an operation does to the disk and to the
  tables what `Operation.handle` says.**
-/

namespace NetworkFileShare

/-! ## The calls -/

namespace Stdio

/-- The files, and the stream open for writing with its file and what has been written to it. -/
structure Fs where
  disk : Disk
  writing : Option (Path × CStr)

/-- No stream is open for writing. -/
abbrev Fs.closed (disk : Disk) : Fs := ⟨disk, none⟩

/-- What may be on the disk: of the bytes written to an open stream, those that have left its buffer. -/
def Fs.Shows (s : Fs) (d : Disk) : Prop :=
  match s.writing with
  | none => d = s.disk
  | some (file, text) => ∃ k, d = Function.update s.disk file (some (text.take k))

inductive FsOp where
  | access (path : Path)
  | fopenRead (path : Path)
  | fread (path : Path)
  | fopenWrite (path : Path)
  | fwrite (bytes : CStr)
  | fclose
  | unlink (path : Path)
  | rename (old new : Path)
  deriving DecidableEq

/-- The answers. `fopenRead` gives the bytes that a stream has when it is opened; `fread` is made of a stream that is
read while another is open for writing, and gives what it has by then. -/
abbrev FsOp.Ans : FsOp → Type
  | .access _ => Bool
  | .fopenRead _ => Option CStr
  | .fread _ => CStr
  | .fopenWrite _ => Bool
  | .fwrite _ => Unit
  | .fclose => Unit
  | .unlink _ => Bool
  | .rename _ _ => Bool

/-- One call, where the path `p` names the file `ρ p`. `fopen(path, "w")` makes the file empty. -/
def FsOp.exec (ρ : Path → Path) (io : FsIo) : (op : FsOp) → Fs → op.Ans × Fs
  | .access path, s => (pathExists io (s.disk ∘ ρ) path, s)
  | .fopenRead path, s => (readFile io.toIo (s.disk ∘ ρ) path, s)
  | .fread path, s => ((s.disk (ρ path)).getD [], s)
  | .fopenWrite path, s =>
    if io.canWrite path then (true, ⟨Function.update s.disk (ρ path) (some []), some (ρ path, [])⟩) else (false, s)
  | .fwrite bytes, s => ((), { s with writing := s.writing.map fun w => (w.1, w.2 ++ bytes) })
  | .fclose, s =>
    match s.writing with
    | none => ((), s)
    | some (file, text) => ((), .closed (Function.update s.disk file (some text)))
  | .unlink path, s => ((s.disk (ρ path)).isSome, { s with disk := NetworkFileShare.unlink s.disk (ρ path) })
  | .rename old new, s =>
    match s.disk (ρ old) with
    | none => (false, s)
    | some text =>
      if io.canRename old new then
        (true, { s with disk := Function.update (NetworkFileShare.unlink s.disk (ρ old)) (ρ new) (some text) })
      else (false, s)

abbrev FsProg (α : Type) : Type := Prog FsOp.Ans α

abbrev FsOp.perform (op : FsOp) : FsProg op.Ans := Prog.perform op

open FsOp (perform)

/-! ## Copying and writing -/

/-- What `fread` gives of a stream, `MAX_BUFFER` bytes at a time, in `n` rounds at most. -/
def freadRounds : Nat → CStr → List CStr
  | 0, _ => []
  | n + 1, stream => if stream = [] then [] else stream.take MAX_BUFFER :: freadRounds n (stream.drop MAX_BUFFER)

def freads (stream : CStr) : List CStr := freadRounds stream.length stream

def fwriteAll : List CStr → FsProg Unit
  | [] => return ()
  | bytes :: pieces => do
    perform (.fwrite bytes)
    fwriteAll pieces

/-- `fopen(path, "w")`, what is written then, and `fclose`. -/
def writing (path : Path) (body : FsProg Unit) : FsProg Bool := do
  if ← perform (.fopenWrite path) then
    body
    perform .fclose
    return true
  else return false

def writePieces (path : Path) (pieces : List CStr) : FsProg Bool := writing path (fwriteAll pieces)

/-- What the open stream `src` gives is written to `dst`. -/
def copyInto (src dst : Path) : FsProg Bool := writing dst do
  fwriteAll (freads (← perform (.fread src)))

inductive Copied where
  | noSource
  | noTarget
  | done
  deriving DecidableEq

/-- The copying of a file, which five functions have. -/
def copyFile (src dst : Path) : FsProg Copied := do
  match ← perform (.fopenRead src) with
  | none => return .noSource
  | some _ => if ← copyInto src dst then return .done else return .noTarget

/-- `write_file_content`, a byte at a time. -/
def writeFileContent (path : Path) (fc : FileContent) : FsProg Bool := writePieces path (fc.text.map fun c => [c])

/-- `parse_file`. -/
def parseFile (path : Path) : FsProg (Option FileContent) := do
  let stream ← perform (.fopenRead path)
  return stream.map parseContent

/-! ## Backups and checkpoints -/

/-- `create_undo_backup`. -/
def createUndoBackup (path : Path) : FsProg Int32 := do
  match ← copyFile path (undoPath path) with
  | .done => return 0
  | _ => return -1

/-- `restore_from_undo`. -/
def restoreFromUndo (path : Path) : FsProg Int32 := do
  if ← perform (.access (undoPath path)) then
    match ← copyFile (undoPath path) path with
    | .done =>
      let _ ← perform (.unlink (undoPath path))
      return 200
    | _ => return -1
  else return -1

/-- The status of a copy. -/
def Copied.status : Copied → Int32
  | .noSource => ERR_FILE_NOT_FOUND
  | .noTarget => ERR_SERVER_ERROR
  | .done => SUCCESS

/-- `create_checkpoint`. -/
def createCheckpoint (path : Path) (tag : Tag) : FsProg Int32 := do
  if ← perform (.access (checkpointPath path tag)) then return ERR_FILE_EXISTS
  else return (← copyFile path (checkpointPath path tag)).status

/-- `view_checkpoint`. -/
def viewCheckpoint (path : Path) (tag : Tag) : FsProg (Int32 × CStr) := do
  match ← perform (.fopenRead (checkpointPath path tag)) with
  | none => return (ERR_FILE_NOT_FOUND, [])
  | some stream => return (SUCCESS, stream.take (MAX_BUFFER - 1))

/-- `revert_to_checkpoint`. -/
def revertToCheckpoint (path : Path) (tag : Tag) : FsProg Int32 := do
  if ← perform (.access (checkpointPath path tag)) then
    let _ ← createUndoBackup path
    return (← copyFile (checkpointPath path tag) path).status
  else return ERR_FILE_NOT_FOUND

/-! ## Sessions -/

/-- `remove_write_session`. -/
def removeWriteSession (s : StorageServer) (filename : Filename) (username : Username) (sentIdx : Int32) :
    FsProg StorageServer := do
  match getWriteSession s filename username sentIdx with
  | none => return s
  | some w =>
    let _ ← perform (.unlink w.tempFilepath)
    return { s with writeSessions := s.writeSessions.eraseP (isSession filename username sentIdx) }

/-- The copying in `start_write_session_ss`. A file that cannot be read gives an empty copy. -/
def copyToTemp (path temp : Path) : FsProg Bool := do
  match ← perform (.fopenRead path) with
  | none => writePieces temp []
  | some _ => copyInto path temp

/-- `start_write_session_ss`. -/
def startWriteSession (s : StorageServer) (filename : Filename) (username : Username) (sentIdx : Int32) :
    FsProg (StorageServer × Int32) := do
  let content ← parseFile (s.path filename)
  match createWriteSession s filename username sentIdx ((content.map (·.sentenceCount)).getD 0) with
  | none => return (s, ERR_SERVER_ERROR)
  | some s =>
    match getWriteSession s filename username sentIdx with
    | none => return (s, ERR_SERVER_ERROR)
    | some session =>
      if ← copyToTemp (s.path filename) session.tempFilepath then return (s, SUCCESS)
      else return (← removeWriteSession s filename username sentIdx, ERR_SERVER_ERROR)

/-- The sentences of a copy, as `write_file_ss` takes them. -/
def copyContent : Option FileContent → FileContent
  | none => oneEmptySentence
  | some fc => if fc.sentenceCount = 0 then oneEmptySentence else fc

/-- `write_file_ss`. -/
def writeFileSs (s : StorageServer) (filename : Filename) (username : Username) (sentIdx wordIdx : Int32)
    (content : CStr) : FsProg Int32 := do
  match getWriteSession s filename username sentIdx with
  | none => return ERR_INVALID_OPERATION
  | some session =>
    let fc := copyContent (← parseFile session.tempFilepath)
    if sentIdx.toInt < 0 ∨ sentIdx.toInt > fc.sentenceCount then return ERR_INVALID_INDEX
    else
      match insertWordInSentence fc sentIdx.toInt wordIdx.toInt content with
      | none => return ERR_INVALID_INDEX
      | some (fc, _) =>
        if ← writeFileContent session.tempFilepath fc then return SUCCESS else return ERR_SERVER_ERROR

/-! ## Commits -/

/-- One round of `process_commit_queue`: whether it goes on. -/
def commitEntry (path : Path) (entry : CommitQueueEntry) : FsProg Bool := do
  let main := (← parseFile path).getD ⟨[], 0⟩
  match ← parseFile entry.tempFilepath with
  | none =>
    let _ ← perform (.unlink entry.tempFilepath)
    return true
  | some temp =>
    let sentenceShift : Int := main.sentenceCount - entry.originalSentenceCount
    let adjustedIdx := entry.sentenceIdx.toInt + sentenceShift
    if ¬ (main.sentenceCount = 0 ∧ entry.originalSentenceCount = 0 ∧ adjustedIdx = 0) ∧
        (adjustedIdx < 0 ∨ adjustedIdx ≥ main.sentenceCount) then
      let _ ← perform (.unlink entry.tempFilepath)
      return true
    else
      let merged := mergeSentences entry adjustedIdx main temp
      if ← writeFileContent path ⟨merged, merged.length⟩ then
        let _ ← perform (.unlink entry.tempFilepath)
        return true
      else return false

/-- The loop of `process_commit_queue`: the entries that are left. -/
def processEntries (path : Path) : List CommitQueueEntry → FsProg (List CommitQueueEntry)
  | [] => return []
  | entry :: entries => do
    if ← commitEntry path entry then processEntries path entries else return entry :: entries

/-- The backup that `process_commit_queue` makes first, if there is anything to do. -/
def backupFor (path : Path) (entries : List CommitQueueEntry) : FsProg Unit := do
  if entries = [] then return ()
  else
    let _ ← createUndoBackup path
    return ()

/-- `process_commit_queue`. -/
def processCommitQueue (s : StorageServer) (filename : Filename) : FsProg StorageServer := do
  match s.commitQueues.find? (·.filename = filename) with
  | none => return s
  | some queue =>
    backupFor (s.path filename) queue.entries
    let entries ← processEntries (s.path filename) queue.entries
    return { s with
      commitQueues := s.commitQueues.map fun q =>
        if q.filename = filename then { q with entries := entries } else q }

/-- `commit_write_session_ss`. -/
def commitWriteSession (s : StorageServer) (filename : Filename) (username : Username) (sentIdx : Int32) :
    FsProg (StorageServer × Int32) := do
  match getWriteSession s filename username sentIdx with
  | none => return (s, SUCCESS)
  | some session =>
    match enqueueCommit filename
        ⟨username, sentIdx, session.originalSentenceCount, session.tempFilepath⟩ s.commitQueues with
    | none => return (← removeWriteSession s filename username sentIdx, ERR_SERVER_ERROR)
    | some queues =>
      return (← processCommitQueue { s with
        commitQueues := queues
        writeSessions := s.writeSessions.eraseP (isSession filename username sentIdx) } filename, SUCCESS)

/-! ## Requests and commands -/

/-- `read_file_ss`. -/
def readFileSs (s : StorageServer) (filename : Filename) : FsProg Reply := do
  match ← perform (.fopenRead (s.path filename)) with
  | none => return ⟨ERR_FILE_NOT_FOUND, []⟩
  | some stream => return ⟨SUCCESS, stream.take (MAX_BUFFER - 1)⟩

/-- The case of `MSG_LOCK_SENTENCE`. -/
def lockRequest (io : Io) (s : StorageServer) (filename : Filename) (sender : Username) (sentIdx : Int32) :
    FsProg (StorageServer × Int32) := do
  if lockIndexInvalid (← parseFile (s.path filename)) sentIdx.toInt then return (s, ERR_INVALID_INDEX)
  else
    match lockSentence io s filename sentIdx sender with
    | (s, status) =>
      if status = SUCCESS then
        let (s, sessionStatus) ← startWriteSession s filename sender sentIdx
        if sessionStatus ≠ SUCCESS then return ((unlockSentence s filename sentIdx sender).1, sessionStatus)
        else return (s, SUCCESS)
      else return (s, status)

/-- The case of `MSG_UNLOCK_SENTENCE`. -/
def unlockRequest (s : StorageServer) (filename : Filename) (sender : Username) (sentIdx : Int32) :
    FsProg (StorageServer × Int32) := do
  let (s, commitStatus) ← commitWriteSession s filename sender sentIdx
  if commitStatus = SUCCESS then return unlockSentence s filename sentIdx sender
  else return ((unlockSentence s filename sentIdx sender).1, commitStatus)

/-- The case of `MSG_UNDO`. -/
def undoRequest (s : StorageServer) (filename : Filename) : FsProg Int32 := do
  if ← perform (.access (undoPath (s.path filename))) then restoreFromUndo (s.path filename)
  else return ERR_INVALID_OPERATION

/-- The `switch` of `handle_client_request`. -/
def handleClientRequest (io : Io) (s : StorageServer) : Request → FsProg (StorageServer × Reply)
  | .read filename => return (s, ← readFileSs s filename)
  | .lockSentence filename sender sentIdx => do
    let (s, status) ← lockRequest io s filename sender sentIdx
    return (s, ⟨status, []⟩)
  | .write filename sender sentIdx wordIdx data =>
    return (s, ⟨← writeFileSs s filename sender sentIdx wordIdx data, []⟩)
  | .unlockSentence filename sender sentIdx => do
    let (s, status) ← unlockRequest s filename sender sentIdx
    return (s, ⟨status, []⟩)
  | .cancelWrite filename sender sentIdx => do
    let (s, status) := unlockSentence (← removeWriteSession s filename sender sentIdx) filename sentIdx sender
    return (s, ⟨status, []⟩)
  | .undo filename => return (s, ⟨← undoRequest s filename, []⟩)

/-- `create_file_ss`. -/
def createFileSs (s : StorageServer) (filename : Filename) : FsProg (StorageServer × Int32) := do
  if ← perform (.access (s.path filename)) then return (s, ERR_FILE_EXISTS)
  else if ← writePieces (s.path filename) [] then
    return ({ s with fileLocks := initFileLocks filename 1 s.fileLocks }, SUCCESS)
  else return (s, ERR_SERVER_ERROR)

/-- `delete_file_ss`. -/
def deleteFileSs (s : StorageServer) (filename : Filename) : FsProg Int32 := do
  if ← perform (.unlink (s.path filename)) then
    let _ ← perform (.unlink (undoPath (s.path filename)))
    return SUCCESS
  else return ERR_FILE_NOT_FOUND

/-- `move_file_ss`. -/
def moveFileSs (s : StorageServer) (filename : Filename) (oldPath newPath : CStr) : FsProg Int32 := do
  let oldFull := folderPath s.id oldPath filename
  let newFull := folderPath s.id newPath filename
  if ← perform (.rename oldFull newFull) then
    let _ ← perform (.rename (undoPath oldFull) (undoPath newFull))
    return SUCCESS
  else return ERR_SERVER_ERROR

/-- The `switch` of `handle_nm_communication`. -/
def handleNmCommand (s : StorageServer) : NmCommand → FsProg (StorageServer × Reply)
  | .checkLocks filename => return (s, ⟨if checkFileLocks s filename then ERR_FILE_LOCKED else SUCCESS, []⟩)
  | .checkpoint filename tag => return (s, ⟨← createCheckpoint (s.path filename) tag, []⟩)
  | .viewCheckpoint filename tag => do
    let (status, data) ← viewCheckpoint (s.path filename) tag
    return (s, ⟨status, data⟩)
  | .revert filename tag => return (s, ⟨← revertToCheckpoint (s.path filename) tag, []⟩)
  | .move filename oldPath newPath => return (s, ⟨← moveFileSs s filename oldPath newPath, []⟩)
  | .create filename => do
    let (s, status) ← createFileSs s filename
    return (s, ⟨status, []⟩)
  | .delete filename => return (s, ⟨← deleteFileSs s filename, []⟩)
  | .readContent filename => return (s, ← readFileSs s filename)

/-- An operation of the server: the tables afterwards, and the reply. -/
def handle (io : Io) (s : StorageServer) : Operation → FsProg (StorageServer × Reply)
  | .client r => handleClientRequest io s r
  | .command c => handleNmCommand s c

/-! ## What the functions do, run to their end -/

section
variable {ρ : Path → Path} {io : FsIo} {d : Disk} {path src dst : Path}

theorem freadRounds_flatten : ∀ (n : Nat) (stream : CStr), stream.length ≤ n → (freadRounds n stream).flatten = stream
  | 0, stream, h => by rw [List.length_eq_zero_iff.mp (Nat.le_zero.mp h)]; rfl
  | n + 1, stream, h => by
    rw [freadRounds]
    split
    · rename_i hnil
      rw [hnil]
      rfl
    · rename_i hne
      have hpos : 0 < stream.length := List.length_pos_iff.mpr hne
      have hbuffer : 0 < MAX_BUFFER := by decide
      rw [List.flatten_cons, freadRounds_flatten n _ (by rw [List.length_drop]; omega), List.take_append_drop]

/-- **A stream is read to its end.** -/
theorem freads_flatten (stream : CStr) : (freads stream).flatten = stream := freadRounds_flatten _ _ le_rfl

theorem runCalls_fwriteAll (file : Path) (text : CStr) : ∀ pieces : List CStr,
    runCalls (FsOp.exec ρ io) (fwriteAll pieces) ⟨d, some (file, text)⟩ = ((), ⟨d, some (file, text ++ pieces.flatten)⟩)
  | [] => by simp [fwriteAll]
  | bytes :: pieces => by
    rw [fwriteAll, runCalls_bind, runCalls_perform, List.flatten_cons, ← List.append_assoc]
    exact runCalls_fwriteAll file (text ++ bytes) pieces

/-- What the body writes is in the file afterwards. -/
theorem runCalls_writing {body : FsProg Unit} {text : CStr}
    (hbody : runCalls (FsOp.exec ρ io) body ⟨Function.update d (ρ path) (some []), some (ρ path, [])⟩ =
      ((), ⟨Function.update d (ρ path) (some []), some (ρ path, text)⟩)) :
    runCalls (FsOp.exec ρ io) (writing path body) (.closed d) =
      if io.canWrite path then (true, .closed (Function.update d (ρ path) (some text))) else (false, .closed d) := by
  rw [writing, runCalls_bind, runCalls_perform]
  by_cases hopen : io.canWrite path = true
  · have hexec : FsOp.exec ρ io (.fopenWrite path) (.closed d) =
        (true, ⟨Function.update d (ρ path) (some []), some (ρ path, [])⟩) := if_pos hopen
    rw [hexec, if_pos hopen]
    simp only [if_true, runCalls_bind, hbody, runCalls_perform, runCalls_pure]
    simp only [FsOp.exec, Function.update_idem]
  · have hexec : FsOp.exec ρ io (.fopenWrite path) (.closed d) = (false, .closed d) := if_neg hopen
    rw [hexec, if_neg hopen]
    rfl

theorem runCalls_writePieces (pieces : List CStr) :
    runCalls (FsOp.exec ρ io) (writePieces path pieces) (.closed d) =
      if io.canWrite path then (true, .closed (Function.update d (ρ path) (some pieces.flatten)))
      else (false, .closed d) := runCalls_writing (runCalls_fwriteAll _ [] pieces)

/-- The stream that is read is not of the file that is written to. -/
theorem runCalls_copyInto (hne : ρ src ≠ ρ dst) :
    runCalls (FsOp.exec ρ io) (copyInto src dst) (.closed d) =
      if io.canWrite dst then (true, .closed (Function.update d (ρ dst) (some ((d (ρ src)).getD []))))
      else (false, .closed d) := by
  refine runCalls_writing ?_
  rw [runCalls_bind, runCalls_perform]
  simp only [FsOp.exec, Function.update_of_ne hne, runCalls_fwriteAll, freads_flatten, List.nil_append]

theorem getD_of_readFile {text : CStr} (h : readFile io.toIo (d ∘ ρ) path = some text) :
    (d (ρ path)).getD [] = text := by
  have hthere : (d ∘ ρ) path = some text := disk_of_readFile h
  exact congrArg (Option.getD · []) hthere

/-- The result and the files after a copy. -/
theorem runCalls_copyFile (hne : ρ src ≠ ρ dst) : runCalls (FsOp.exec ρ io) (copyFile src dst) (.closed d) =
    match readFile io.toIo (d ∘ ρ) src with
    | none => (.noSource, .closed d)
    | some text =>
      if io.canWrite dst then (.done, .closed (Function.update d (ρ dst) (some text))) else (.noTarget, .closed d) := by
  rw [copyFile, runCalls_bind, runCalls_perform]
  simp only [FsOp.exec]
  cases hread : readFile io.toIo (d ∘ ρ) src with
  | none => rfl
  | some text =>
    have htext := getD_of_readFile hread
    simp only [runCalls_bind, runCalls_copyInto hne, htext]
    by_cases hopen : io.canWrite dst = true
    · simp only [hopen, if_true]
      rfl
    · simp only [hopen]
      rfl

theorem runCalls_copyToTemp (hne : ρ src ≠ ρ dst) : runCalls (FsOp.exec ρ io) (copyToTemp src dst) (.closed d) =
    if io.canWrite dst then
      (true, .closed (Function.update d (ρ dst) (some ((readFile io.toIo (d ∘ ρ) src).getD []))))
    else (false, .closed d) := by
  rw [copyToTemp, runCalls_bind, runCalls_perform]
  simp only [FsOp.exec]
  cases hread : readFile io.toIo (d ∘ ρ) src with
  | none => exact runCalls_writePieces []
  | some text =>
    have htext := getD_of_readFile hread
    dsimp only
    rw [runCalls_copyInto hne, htext, Option.getD_some]

/-- The bytes that are written one at a time. -/
theorem flatten_singletons (text : CStr) : (text.map fun c => [c]).flatten = text := by
  induction text with
  | nil => rfl
  | cons c text ih =>
    rw [List.map_cons, List.flatten_cons, ih]
    rfl

theorem runCalls_writeFileContent (fc : FileContent) :
    runCalls (FsOp.exec ρ io) (writeFileContent path fc) (.closed d) =
      if io.canWrite path then (true, .closed (Function.update d (ρ path) (some fc.text)))
      else (false, .closed d) := by
  rw [writeFileContent, runCalls_writePieces, flatten_singletons]

theorem runCalls_parseFile : runCalls (FsOp.exec ρ io) (parseFile path) (.closed d) =
    (NetworkFileShare.parseFile io.toIo (d ∘ ρ) path, .closed d) := rfl

end

/-! ## Where every path names a file of its own -/

section
variable {io : FsIo} {d : Disk} {path src dst : Path}

theorem copyFile_eq (hne : src ≠ dst) : runCalls (FsOp.exec id io) (copyFile src dst) (.closed d) =
    match readFile io.toIo d src with
    | none => (.noSource, .closed d)
    | some text =>
      match writeFile io.toIo d dst text with
      | none => (.noTarget, .closed d)
      | some d' => (.done, .closed d') := by
  have hcopied : runCalls (FsOp.exec id io) (copyFile src dst) (.closed d) = match readFile io.toIo d src with
      | none => (.noSource, .closed d)
      | some text =>
        if io.canWrite dst then (.done, .closed (Function.update d dst (some text))) else (.noTarget, .closed d) :=
    runCalls_copyFile hne
  rw [hcopied]
  cases readFile io.toIo d src with
  | none => rfl
  | some text =>
    dsimp only
    rw [writeFile]
    split <;> rfl

theorem writeFileContent_eq (fc : FileContent) :
    runCalls (FsOp.exec id io) (writeFileContent path fc) (.closed d) =
      match writeFile io.toIo d path fc.text with
      | none => (false, .closed d)
      | some d' => (true, .closed d') := by
  rw [runCalls_writeFileContent, writeFile]
  split <;> rfl

/-- `rename` of a file that no other path names. -/
theorem exec_rename : FsOp.exec id io (.rename src dst) (.closed d) =
    match NetworkFileShare.rename io d src dst with
    | none => (false, .closed d)
    | some d' => (true, .closed d') := by
  unfold FsOp.exec NetworkFileShare.rename
  simp only [id_eq]
  cases d src with
  | none => rfl
  | some text =>
    dsimp only
    split <;> rfl

theorem parseFile_eq : runCalls (FsOp.exec id io) (parseFile path) (.closed d) =
    (NetworkFileShare.parseFile io.toIo d path, .closed d) := rfl

theorem runCalls_createUndoBackup (hne : undoPath path ≠ path) :
    (runCalls (FsOp.exec id io) (createUndoBackup path) (.closed d)).2 =
      .closed (NetworkFileShare.createUndoBackup io.toIo d path (undoPath path)) := by
  rw [createUndoBackup, runCalls_bind, copyFile_eq hne.symm, NetworkFileShare.createUndoBackup]
  cases readFile io.toIo d path with
  | none => rfl
  | some text =>
    dsimp only
    cases writeFile io.toIo d (undoPath path) text <;> rfl

theorem runCalls_restoreFromUndo (hne : undoPath path ≠ path) :
    runCalls (FsOp.exec id io) (restoreFromUndo path) (.closed d) =
      ((NetworkFileShare.restoreFromUndo io.toIo d path).2,
        .closed (NetworkFileShare.restoreFromUndo io.toIo d path).1) := by
  rw [restoreFromUndo, runCalls_bind, runCalls_perform, runCalls_ite, runCalls_bind, NetworkFileShare.restoreFromUndo]
  simp only [FsOp.exec, Function.comp_id, copyFile_eq hne]
  by_cases hnone : d (undoPath path) = none
  · have hread : readFile io.toIo d (undoPath path) = none := by rw [readFile, hnone, ite_self]
    rw [if_pos hnone, hread]
    split <;> rfl
  · have hthere : pathExists io d (undoPath path) = true := by
      rw [pathExists, Option.isSome_iff_ne_none.mpr hnone, Bool.true_or]
    rw [if_neg hnone, if_pos hthere]
    cases readFile io.toIo d (undoPath path) with
    | none => rfl
    | some text =>
      dsimp only
      cases writeFile io.toIo d path text <;> rfl

theorem runCalls_createCheckpoint {tag : Tag} (hne : checkpointPath path tag ≠ path) :
    runCalls (FsOp.exec id io) (createCheckpoint path tag) (.closed d) =
      ((NetworkFileShare.createCheckpoint io d path tag).2,
        .closed (NetworkFileShare.createCheckpoint io d path tag).1) := by
  rw [createCheckpoint, runCalls_bind, runCalls_perform, runCalls_ite, runCalls_bind,
    NetworkFileShare.createCheckpoint]
  simp only [FsOp.exec, Function.comp_id, copyFile_eq hne.symm]
  split
  · rfl
  · cases readFile io.toIo d path with
    | none => rfl
    | some text =>
      dsimp only
      cases writeFile io.toIo d (checkpointPath path tag) text <;> rfl

theorem runCalls_viewCheckpoint (tag : Tag) : runCalls (FsOp.exec id io) (viewCheckpoint path tag) (.closed d) =
    (NetworkFileShare.viewCheckpoint io.toIo d path tag, .closed d) := by
  rw [viewCheckpoint, runCalls_bind, runCalls_perform, NetworkFileShare.viewCheckpoint]
  simp only [FsOp.exec, Function.comp_id]
  cases readFile io.toIo d (checkpointPath path tag) <;> rfl

theorem runCalls_revertToCheckpoint {tag : Tag} (hundo : undoPath path ≠ path)
    (hne : checkpointPath path tag ≠ path) :
    runCalls (FsOp.exec id io) (revertToCheckpoint path tag) (.closed d) =
      ((NetworkFileShare.revertToCheckpoint io d path tag).2,
        .closed (NetworkFileShare.revertToCheckpoint io d path tag).1) := by
  rw [revertToCheckpoint, runCalls_bind, runCalls_perform, runCalls_ite, runCalls_bind, runCalls_bind,
    NetworkFileShare.revertToCheckpoint]
  simp only [FsOp.exec, Function.comp_id, runCalls_createUndoBackup hundo, copyFile_eq hne]
  split
  · generalize NetworkFileShare.createUndoBackup io.toIo d path (undoPath path) = d'
    cases readFile io.toIo d' (checkpointPath path tag) with
    | none => rfl
    | some text =>
      dsimp only
      cases writeFile io.toIo d' path text <;> rfl
  · rfl

/-- The file is written, and then the copy is removed. -/
theorem runCalls_applyEntry (fc : FileContent) (temp : Path) :
    runCalls (FsOp.exec id io) (do
      if ← writeFileContent path fc then
        let _ ← perform (.unlink temp)
        return true
      else return false) (.closed d) =
      match (match writeFile io.toIo d path fc.text with
        | none => none
        | some d' => some (NetworkFileShare.unlink d' temp)) with
      | none => (false, .closed d)
      | some d' => (true, .closed d') := by
  rw [runCalls_bind, writeFileContent_eq]
  cases writeFile io.toIo d path fc.text <;> rfl

/-- One round of the commit loop. -/
theorem runCalls_commitEntry (entry : CommitQueueEntry) :
    runCalls (FsOp.exec id io) (commitEntry path entry) (.closed d) =
      match NetworkFileShare.commitEntry io.toIo path d entry with
      | none => (false, .closed d)
      | some d' => (true, .closed d') := by
  rw [commitEntry, runCalls_bind, parseFile_eq, NetworkFileShare.commitEntry]
  simp only [runCalls_bind, parseFile_eq]
  cases hcopy : NetworkFileShare.parseFile io.toIo d entry.tempFilepath with
  | none => rfl
  | some temp =>
    simp only [runCalls_ite]
    split
    · rfl
    · exact runCalls_applyEntry _ _

theorem runCalls_processEntries : ∀ (entries : List CommitQueueEntry) {d : Disk},
    runCalls (FsOp.exec id io) (processEntries path entries) (.closed d) =
      ((NetworkFileShare.processEntries io.toIo path entries d).2,
        .closed (NetworkFileShare.processEntries io.toIo path entries d).1)
  | [], _ => rfl
  | entry :: entries, d => by
    rw [processEntries, runCalls_bind, runCalls_commitEntry, NetworkFileShare.processEntries]
    cases NetworkFileShare.commitEntry io.toIo path d entry with
    | none => rfl
    | some d' => exact runCalls_processEntries entries

theorem runCalls_backupFor (hne : undoPath path ≠ path) (entries : List CommitQueueEntry) :
    runCalls (FsOp.exec id io) (backupFor path entries) (.closed d) =
      ((), .closed (if entries = [] then d
        else NetworkFileShare.createUndoBackup io.toIo d path (undoPath path))) := by
  rw [backupFor, runCalls_ite]
  split
  · rfl
  · rw [runCalls_bind, runCalls_createUndoBackup hne]
    rfl

end

/-! ## The operations -/

/-- The program ends with the tables, the disk and the reply of `r`. -/
def Yields (io : FsIo) (s : StorageServer) {α : Type} (p : FsProg (StorageServer × α)) (r : StorageServer × α) : Prop :=
  ∃ t, runCalls (FsOp.exec id io) p (.closed s.disk) = ((t, r.2), .closed r.1.disk) ∧ r.1 = { t with disk := r.1.disk }

section
variable {io : FsIo} {s : StorageServer} {f : Filename} {u : Username} {i : Int32}

theorem Yields.pure {α : Type} (t : StorageServer) (a : α) (h : t.disk = s.disk) :
    Yields io s (Pure.pure (t, a)) (t, a) :=
  ⟨t, by rw [h]; rfl, rfl⟩

/-- A function that changes the disk only. -/
theorem Yields.of_status {α β : Type} {p : FsProg α} {r : StorageServer × β} {a : α} (reply : α → β)
    (h : ∃ disk, runCalls (FsOp.exec id io) p (.closed s.disk) = (a, .closed disk) ∧ r.1 = { s with disk := disk })
    (hr : r.2 = reply a) : Yields io s (do return (s, reply (← p))) r := by
  obtain ⟨disk, hrun, hdisk⟩ := h
  refine ⟨s, ?_, ?_⟩
  · rw [runCalls_bind, hrun, hdisk, hr]
    rfl
  · rw [hdisk]

/-- A function that changes the tables too. -/
theorem Yields.map {α β : Type} {p : FsProg (StorageServer × α)} {r : StorageServer × α} (reply : α → β)
    (h : Yields io s p r) : Yields io s (do let (t, a) ← p; return (t, reply a)) (r.1, reply r.2) := by
  obtain ⟨t, hrun, ht⟩ := h
  exact ⟨t, by rw [runCalls_bind, hrun]; rfl, ht⟩

theorem unlockSentence_disk (t : StorageServer) (disk : Disk) (f : Filename) (i : Int32) (u : Username) :
    unlockSentence { t with disk := disk } f i u =
      ({ (unlockSentence t f i u).1 with disk := disk }, (unlockSentence t f i u).2) := by
  unfold unlockSentence
  dsimp only
  split
  · rfl
  · split <;> rfl

theorem yields_removeWriteSession (io : FsIo) (s : StorageServer) (f : Filename) (u : Username) (i : Int32) :
    ∃ t, runCalls (FsOp.exec id io) (removeWriteSession s f u i) (.closed s.disk) =
        (t, .closed (NetworkFileShare.removeWriteSession s f u i).disk) ∧
      NetworkFileShare.removeWriteSession s f u i =
        { t with disk := (NetworkFileShare.removeWriteSession s f u i).disk } := by
  unfold removeWriteSession NetworkFileShare.removeWriteSession
  cases getWriteSession s f u i with
  | none => exact ⟨s, rfl, rfl⟩
  | some w => exact ⟨_, rfl, rfl⟩

theorem yields_startWriteSession (io : FsIo) (hs : SessionsOk s.id s.writeSessions) (f : Filename) (u : Username)
    (i : Int32) : Yields io s (startWriteSession s f u i) (NetworkFileShare.startWriteSession io.toIo s f u i) := by
  rw [Yields, startWriteSession, runCalls_bind, parseFile_eq, NetworkFileShare.startWriteSession]
  dsimp only
  cases hcreate : createWriteSession s f u i
      (((NetworkFileShare.parseFile io.toIo s.disk (s.path f)).map (·.sentenceCount)).getD 0) with
  | none => exact ⟨s, rfl, rfl⟩
  | some s' =>
    dsimp only
    obtain ⟨ws, rfl, -, -, hsessions, -⟩ := createWriteSession_spec hcreate
    cases hget : getWriteSession { s with writeSessions := ws } f u i with
    | none => exact ⟨_, rfl, rfl⟩
    | some w =>
      obtain ⟨hmem, hkey⟩ := mem_of_getWriteSession hget
      have hne : StorageServer.path { s with writeSessions := ws } f ≠ w.tempFilepath := by
        rw [(hsessions hs).temp_eq hmem hkey]
        exact (tempPath_ne_filePath s.id f u i).symm
      dsimp only
      rw [runCalls_bind, runCalls_copyToTemp hne, writeFile]
      by_cases hopen : io.canWrite w.tempFilepath = true
      · simp only [hopen, if_true]
        exact ⟨{ s with writeSessions := ws }, rfl, rfl⟩
      · obtain ⟨t, hrun, ht⟩ := yields_removeWriteSession io { s with writeSessions := ws } f u i
        simp only [hopen, Bool.false_eq_true, if_false]
        refine ⟨t, ?_, ht⟩
        show runCalls (FsOp.exec id io) (removeWriteSession { s with writeSessions := ws } f u i >>= _) _ = _
        rw [runCalls_bind, hrun]
        rfl

theorem yields_lockRequest (io : FsIo) (hs : SessionsOk s.id s.writeSessions) (f : Filename) (u : Username)
    (i : Int32) : Yields io s (lockRequest io.toIo s f u i)
      (NetworkFileShare.handleClientRequest io.toIo s (.lockSentence f u i)) := by
  rw [Yields, lockRequest, runCalls_bind, parseFile_eq, NetworkFileShare.handleClientRequest]
  dsimp only
  rw [runCalls_ite]
  split
  · exact ⟨s, rfl, rfl⟩
  obtain ⟨tables, hlock, -⟩ := lockSentence_spec io.toIo s f i u
  rcases hres : lockSentence io.toIo s f i u with ⟨t, status⟩
  rw [hres] at hlock
  obtain rfl : t = { s with fileLocks := tables } := hlock
  dsimp only
  rw [runCalls_ite]
  split
  · obtain ⟨t, hrun, ht⟩ := yields_startWriteSession (s := { s with fileLocks := tables }) io hs f u i
    generalize NetworkFileShare.startWriteSession io.toIo { s with fileLocks := tables } f u i = r at hrun ht
    obtain ⟨r, sessionStatus⟩ := r
    obtain ⟨disk, rfl⟩ : ∃ disk, r = { t with disk := disk } := ⟨_, ht⟩
    dsimp only at hrun ⊢
    rw [runCalls_bind, hrun]
    dsimp only
    rw [runCalls_ite]
    split
    · rw [unlockSentence_disk t disk]
      exact ⟨_, rfl, rfl⟩
    · exact ⟨t, rfl, rfl⟩
  · exact ⟨_, rfl, rfl⟩

theorem runCalls_writeFileSs (s : StorageServer) (f : Filename) (u : Username) (i wordIdx : Int32) (content : CStr) :
    ∃ disk, runCalls (FsOp.exec id io) (writeFileSs s f u i wordIdx content) (.closed s.disk) =
        ((NetworkFileShare.writeFileSs io.toIo s f u i wordIdx content).2, .closed disk) ∧
      (NetworkFileShare.writeFileSs io.toIo s f u i wordIdx content).1 = { s with disk := disk } := by
  unfold writeFileSs NetworkFileShare.writeFileSs
  cases getWriteSession s f u i with
  | none => exact ⟨s.disk, rfl, rfl⟩
  | some w =>
    dsimp only
    rw [runCalls_bind, parseFile_eq]
    have hcopy : parseTemp io.toIo s.disk w.tempFilepath =
        copyContent (NetworkFileShare.parseFile io.toIo s.disk w.tempFilepath) := by
      unfold parseTemp
      cases NetworkFileShare.parseFile io.toIo s.disk w.tempFilepath <;> rfl
    rw [hcopy]
    dsimp only
    generalize copyContent (NetworkFileShare.parseFile io.toIo s.disk w.tempFilepath) = fc
    rw [runCalls_ite]
    split
    · exact ⟨s.disk, rfl, rfl⟩
    cases insertWordInSentence fc i.toInt wordIdx.toInt content with
    | none => exact ⟨s.disk, rfl, rfl⟩
    | some r =>
      dsimp only
      rw [runCalls_bind, writeFileContent_eq]
      cases writeFile io.toIo s.disk w.tempFilepath r.1.text with
      | none => exact ⟨s.disk, rfl, rfl⟩
      | some disk => exact ⟨disk, rfl, rfl⟩

theorem yields_processCommitQueue (io : FsIo) (s : StorageServer) (f : Filename) :
    ∃ t, runCalls (FsOp.exec id io) (processCommitQueue s f) (.closed s.disk) =
        (t, .closed (NetworkFileShare.processCommitQueue io.toIo s f).disk) ∧
      NetworkFileShare.processCommitQueue io.toIo s f =
        { t with disk := (NetworkFileShare.processCommitQueue io.toIo s f).disk } := by
  unfold processCommitQueue NetworkFileShare.processCommitQueue
  cases s.commitQueues.find? (·.filename = f) with
  | none => exact ⟨s, rfl, rfl⟩
  | some queue =>
    dsimp only
    have hundo : undoPath (s.path f) ≠ s.path f := undoPath_ne_filePath s.id f
    rw [runCalls_bind, runCalls_backupFor hundo, runCalls_bind, runCalls_processEntries]
    exact ⟨_, rfl, rfl⟩

theorem yields_commitWriteSession (io : FsIo) (s : StorageServer) (f : Filename) (u : Username) (i : Int32) :
    Yields io s (commitWriteSession s f u i) (NetworkFileShare.commitWriteSession io.toIo s f u i) := by
  unfold Yields commitWriteSession NetworkFileShare.commitWriteSession
  cases getWriteSession s f u i with
  | none => exact ⟨s, rfl, rfl⟩
  | some w =>
    dsimp only
    cases enqueueCommit f ⟨u, i, w.originalSentenceCount, w.tempFilepath⟩ s.commitQueues with
    | none =>
      obtain ⟨t, hrun, ht⟩ := yields_removeWriteSession io s f u i
      refine ⟨t, ?_, ht⟩
      dsimp only
      rw [runCalls_bind, hrun]
      rfl
    | some queues =>
      obtain ⟨t, hrun, ht⟩ := yields_processCommitQueue io { s with
        commitQueues := queues
        writeSessions := s.writeSessions.eraseP (isSession f u i) } f
      refine ⟨t, ?_, ht⟩
      dsimp only at hrun ⊢
      rw [runCalls_bind, hrun]
      rfl

theorem yields_unlockRequest (io : FsIo) (s : StorageServer) (f : Filename) (u : Username) (i : Int32) :
    Yields io s (unlockRequest s f u i) (NetworkFileShare.handleClientRequest io.toIo s (.unlockSentence f u i)) := by
  obtain ⟨t, hrun, ht⟩ := yields_commitWriteSession io s f u i
  rw [Yields, unlockRequest, runCalls_bind, hrun, NetworkFileShare.handleClientRequest]
  generalize NetworkFileShare.commitWriteSession io.toIo s f u i = r at ht
  obtain ⟨r, commitStatus⟩ := r
  obtain ⟨disk, rfl⟩ : ∃ disk, r = { t with disk := disk } := ⟨_, ht⟩
  dsimp only
  rw [runCalls_ite]
  split
  · rw [unlockSentence_disk t disk]
    exact ⟨_, rfl, rfl⟩
  · rw [unlockSentence_disk t disk]
    exact ⟨_, rfl, rfl⟩

theorem yields_createFileSs (io : FsIo) (s : StorageServer) (f : Filename) :
    Yields io s (createFileSs s f) (NetworkFileShare.createFileSs io s f) := by
  rw [Yields, createFileSs, runCalls_bind, runCalls_perform, runCalls_ite, runCalls_bind,
    NetworkFileShare.createFileSs]
  simp only [FsOp.exec, Function.comp_id, id_eq, runCalls_writePieces, writeFile]
  split
  · exact ⟨s, rfl, rfl⟩
  · by_cases hopen : io.canWrite (s.path f) = true
    · simp only [hopen, if_true]
      exact ⟨_, rfl, rfl⟩
    · simp only [hopen]
      exact ⟨_, rfl, rfl⟩

theorem runCalls_deleteFileSs (s : StorageServer) (f : Filename) :
    ∃ disk, runCalls (FsOp.exec id io) (deleteFileSs s f) (.closed s.disk) =
        ((NetworkFileShare.deleteFileSs s f).2, .closed disk) ∧
      (NetworkFileShare.deleteFileSs s f).1 = { s with disk := disk } := by
  rw [deleteFileSs, runCalls_bind, runCalls_perform, runCalls_ite, NetworkFileShare.deleteFileSs]
  have hanswer : (FsOp.exec id io (.unlink (s.path f)) (.closed s.disk)).1 = true ↔ s.disk (s.path f) ≠ none :=
    Option.isSome_iff_ne_none
  by_cases hnone : s.disk (s.path f) = none
  · rw [if_pos hnone, if_neg fun h => hanswer.mp h hnone]
    refine ⟨_, rfl, ?_⟩
    show s = { s with disk := unlink s.disk (s.path f) }
    rw [unlink, ← hnone, Function.update_eq_self]
  · rw [if_neg hnone, if_pos (hanswer.mpr hnone)]
    exact ⟨_, rfl, rfl⟩

theorem runCalls_moveFileSs (s : StorageServer) (f : Filename) (oldPath newPath : CStr) :
    ∃ disk, runCalls (FsOp.exec id io) (moveFileSs s f oldPath newPath) (.closed s.disk) =
        ((NetworkFileShare.moveFileSs io s f oldPath newPath).2, .closed disk) ∧
      (NetworkFileShare.moveFileSs io s f oldPath newPath).1 = { s with disk := disk } := by
  rw [moveFileSs, NetworkFileShare.moveFileSs]
  generalize folderPath s.id oldPath f = old
  generalize folderPath s.id newPath f = new
  rw [runCalls_bind, runCalls_perform, runCalls_ite, runCalls_bind, runCalls_perform]
  cases hrename : NetworkFileShare.rename io s.disk old new with
  | none =>
    have hexec : FsOp.exec id io (.rename old new) (.closed s.disk) = (false, .closed s.disk) := by
      rw [exec_rename, hrename]
    rw [hexec, if_neg Bool.false_ne_true]
    exact ⟨s.disk, rfl, rfl⟩
  | some disk =>
    have hexec : FsOp.exec id io (.rename old new) (.closed s.disk) = (true, .closed disk) := by
      rw [exec_rename, hrename]
    rw [hexec, if_pos rfl]
    dsimp only
    rw [exec_rename]
    cases NetworkFileShare.rename io disk (undoPath old) (undoPath new) <;> exact ⟨_, rfl, rfl⟩

theorem runCalls_undoRequest (s : StorageServer) (f : Filename) (hfolder : io.isFolder (undoPath (s.path f)) = false) :
    ∃ disk, runCalls (FsOp.exec id io) (undoRequest s f) (.closed s.disk) =
        ((NetworkFileShare.handleClientRequest io.toIo s (.undo f)).2, .closed disk) ∧
      (NetworkFileShare.handleClientRequest io.toIo s (.undo f)).1 = { s with disk := disk } := by
  have hanswer : (FsOp.exec id io (.access (undoPath (s.path f))) (.closed s.disk)).1 = true ↔
      s.disk (undoPath (s.path f)) ≠ none := by
    show pathExists io s.disk (undoPath (s.path f)) = true ↔ _
    rw [pathExists, hfolder, Bool.or_false]
    exact Option.isSome_iff_ne_none
  rw [undoRequest, runCalls_bind, runCalls_perform, runCalls_ite, NetworkFileShare.handleClientRequest]
  by_cases hthere : s.disk (undoPath (s.path f)) ≠ none
  · rw [if_pos hthere, if_pos (hanswer.mpr hthere)]
    exact ⟨_, runCalls_restoreFromUndo (undoPath_ne_filePath s.id f), rfl⟩
  · rw [if_neg hthere, if_neg fun h => hthere (hanswer.mp h)]
    exact ⟨s.disk, rfl, rfl⟩

/-- **Run to its end, every operation** does to the tables and the disk what the server's model says, and gives the
same reply, if no folder has the name of the backup that `UNDO` looks for. -/
theorem handle_yields (io : FsIo) (hs : SessionsOk s.id s.writeSessions) (op : Operation)
    (hfolder : ∀ f, op = .client (.undo f) → io.isFolder (undoPath (s.path f)) = false) :
    Yields io s (handle io.toIo s op) (op.handle io s) := by
  have hread : ∀ f, ∃ disk, runCalls (FsOp.exec id io) (readFileSs s f) (.closed s.disk) =
      (⟨(NetworkFileShare.readFileSs io.toIo s f).1, (NetworkFileShare.readFileSs io.toIo s f).2⟩, .closed disk) ∧
        s = { s with disk := disk } := by
    intro f
    refine ⟨s.disk, ?_, rfl⟩
    rw [readFileSs, runCalls_bind, runCalls_perform, NetworkFileShare.readFileSs]
    simp only [FsOp.exec, Function.comp_id]
    cases readFile io.toIo s.disk (s.path f) <;> rfl
  cases op with
  | client r =>
    cases r with
    | read f =>
      refine Yields.of_status (fun reply => reply) (hread f) ?_
      show Reply.mk (if (readFile io.toIo s.disk (s.path f)).isSome then _ else _) _ = _
      unfold NetworkFileShare.readFileSs
      cases hfile : readFile io.toIo s.disk (s.path f) <;> simp [requestData, NetworkFileShare.readFileSs, hfile]
    | lockSentence f u i => exact (yields_lockRequest io hs f u i).map (Reply.mk · [])
    | write f u i wordIdx data => exact Yields.of_status _ (runCalls_writeFileSs s f u i wordIdx data) rfl
    | unlockSentence f u i => exact (yields_unlockRequest io s f u i).map (Reply.mk · [])
    | cancelWrite f u i =>
      obtain ⟨t, hrun, ht⟩ := yields_removeWriteSession io s f u i
      show Yields io s (removeWriteSession s f u i >>= _)
        ((unlockSentence (NetworkFileShare.removeWriteSession s f u i) f i u).1,
          Reply.mk (unlockSentence (NetworkFileShare.removeWriteSession s f u i) f i u).2 [])
      rw [Yields, runCalls_bind, hrun]
      obtain ⟨disk, hdisk⟩ : ∃ disk, NetworkFileShare.removeWriteSession s f u i = { t with disk := disk } := ⟨_, ht⟩
      rw [hdisk, unlockSentence_disk t disk]
      exact ⟨_, rfl, rfl⟩
    | undo f => exact Yields.of_status _ (runCalls_undoRequest s f (hfolder f rfl)) rfl
  | command c =>
    cases c with
    | checkLocks f => exact ⟨s, rfl, rfl⟩
    | checkpoint f tag =>
      exact Yields.of_status _ ⟨_, runCalls_createCheckpoint (checkpointPath_ne_filePath s.id f tag), rfl⟩ rfl
    | viewCheckpoint f tag =>
      refine ⟨s, ?_, rfl⟩
      show runCalls (FsOp.exec id io) (viewCheckpoint (s.path f) tag >>= _) _ = _
      rw [runCalls_bind, runCalls_viewCheckpoint]
      rfl
    | revert f tag =>
      exact Yields.of_status _ ⟨_, runCalls_revertToCheckpoint (undoPath_ne_filePath s.id f)
        (checkpointPath_ne_filePath s.id f tag), rfl⟩ rfl
    | move f old new => exact Yields.of_status _ (runCalls_moveFileSs s f old new) rfl
    | create f => exact (yields_createFileSs io s f).map (Reply.mk · [])
    | delete f => exact Yields.of_status _ (runCalls_deleteFileSs s f) rfl
    | readContent f => exact Yields.of_status (fun reply => reply) (hread f) rfl

/-- The server after an operation that is run to its end, and the reply. -/
def handled (ρ : Path → Path) (io : FsIo) (s : StorageServer) (op : Operation) : StorageServer × Reply :=
  let r := runCalls (FsOp.exec ρ io) (handle io.toIo s op) (.closed s.disk)
  ({ r.1.1 with disk := r.2.disk }, r.1.2)

/-- **Where every path names a file of its own**, an operation does what the server's model says. -/
theorem handled_id (io : FsIo) (hs : SessionsOk s.id s.writeSessions) (op : Operation)
    (hfolder : ∀ f, op = .client (.undo f) → io.isFolder (undoPath (s.path f)) = false) :
    handled id io s op = op.handle io s := by
  obtain ⟨t, hrun, ht⟩ := handle_yields io hs op hfolder
  unfold handled
  rw [hrun]
  exact Prod.ext ht.symm rfl

/-- One operation of the server, call by call. -/
def StoreStep (ρ : Path → Path) (s : StorageServer) (e : FsIo × Operation) (t : StorageServer) : Prop :=
  t = (handled ρ e.1 s e.2).1

/-- Operations one after another, call by call. -/
def handleAll (ρ : Path → Path) : StorageServer → List (FsIo × Operation) → StorageServer × List Reply
  | s, [] => (s, [])
  | s, (io, op) :: es =>
    let (t, reply) := handled ρ io s op
    let (t, replies) := handleAll ρ t es
    (t, reply :: replies)

theorem run_handleAll (ρ : Path → Path) (s : StorageServer) (es : List (FsIo × Operation)) :
    Run (StoreStep ρ) s es (handleAll ρ s es).1 := by
  induction es generalizing s with
  | nil => exact .nil
  | cons e es ih => exact Run.cons rfl (ih (handled ρ e.1 s e.2).1)

end

end Stdio

end NetworkFileShare
