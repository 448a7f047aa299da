import NetworkFileShare.FileOps.Write
import NetworkFileShare.FileOps.Insert

/-!
# The storage server's data (`ss.c`)

* `Disk` : the files by path; `Io` : which opens succeed while a request is handled;
* `filePath`, `tempPath`, `undoPath` : the paths the server makes, each cut to its array;
* `FileLocks`, `WriteSession`, `FileCommitQueue`, `StorageServer` : the tables of the server;
* `initFileLocks`, `lockSentence`, `unlockSentence` : the lock table.
-/

namespace NetworkFileShare

/-! ## Files -/

abbrev Path := CStr

/-- The contents of the files that exist. -/
abbrev Disk := Path → Option CStr

/-- What is out of the server's hands in one request: the opens that succeed, and the bytes that stand
behind a name that fills `locked_by` without a terminator. -/
structure Io where
  canRead : Path → Bool
  canWrite : Path → Bool
  junk : CStr

/-- Every open succeeds. -/
def Io.allOpens : Io := ⟨fun _ => true, fun _ => true, []⟩

/-- `fopen(path, "r")` and reading to the end. -/
def readFile (io : Io) (disk : Disk) (path : Path) : Option CStr :=
  if io.canRead path then disk path else none

/-- `fopen(path, "w")` and writing `text`. -/
def writeFile (io : Io) (disk : Disk) (path : Path) (text : CStr) : Option Disk :=
  if io.canWrite path then some (Function.update disk path (some text)) else none

def unlink (disk : Disk) (path : Path) : Disk := Function.update disk path none

theorem unlink_self (disk : Disk) (path : Path) : unlink disk path path = none := Function.update_self ..

theorem unlink_of_ne (disk : Disk) {path p : Path} (h : p ≠ path) : unlink disk path p = disk p :=
  Function.update_of_ne h ..

/-- `parse_file`. -/
def parseFile (io : Io) (disk : Disk) (path : Path) : Option FileContent :=
  (readFile io disk path).map parseContent

/-- `create_undo_backup`; its failure is only logged. -/
def createUndoBackup (io : Io) (disk : Disk) (path undo : Path) : Disk :=
  match readFile io disk path with
  | none => disk
  | some text => (writeFile io disk undo text).getD disk

/-! ## Paths -/

/-- `snprintf` into a `char[MAX_PATH]`. -/
def snprintfPath (s : CStr) : Path := s.take (MAX_PATH - 1)

/-- `ss.storage_path`. -/
def storagePath (id : Int32) : Path := snprintfPath (lit "./ss_storage_" ++ printInt id.toInt)

def filePath (id : Int32) (filename : Filename) : Path :=
  snprintfPath (storagePath id ++ lit "/" ++ filename.str)

/-- The private copy of a write session. -/
def tempPath (id : Int32) (filename : Filename) (username : Username) (sentIdx : Int32) : Path :=
  snprintfPath (storagePath id ++ lit "/" ++ filename.str ++ lit ".temp_" ++ username.str ++ lit "_" ++
    printInt sentIdx.toInt)

def undoPath (path : Path) : Path := snprintfPath (path ++ lit ".undo")

/-! ## Tables -/

structure SentenceLock where
  locked : Bool
  lockedBy : CStr
  deriving DecidableEq

/-- The locks of one file, by sentence index. -/
structure FileLocks where
  filename : Filename
  locks : List SentenceLock
  deriving DecidableEq

structure WriteSession where
  filename : Filename
  username : Username
  sentenceIdx : Int32
  tempFilepath : Path
  originalSentenceCount : Nat
  deriving DecidableEq

structure CommitQueueEntry where
  username : Username
  sentenceIdx : Int32
  originalSentenceCount : Nat
  tempFilepath : Path
  deriving DecidableEq

structure FileCommitQueue where
  filename : Filename
  entries : List CommitQueueEntry
  deriving DecidableEq

structure StorageServer where
  id : Int32
  disk : Disk
  fileLocks : List FileLocks
  writeSessions : List WriteSession
  commitQueues : List FileCommitQueue

namespace StorageServer

def path (s : StorageServer) (filename : Filename) : Path := filePath s.id filename

end StorageServer

theorem path_eq_of_id {s t : StorageServer} (h : t.id = s.id) (f : Filename) : t.path f = s.path f := by
  rw [StorageServer.path, StorageServer.path, h]

/-! ## Locks -/

/-- A fresh lock. -/
def SentenceLock.free : SentenceLock := ⟨false, []⟩

/-- `init_file_locks`: at least `sentenceCount` locks for the file, and at least one. -/
def initFileLocks (filename : Filename) (sentenceCount : Nat) : List FileLocks → List FileLocks
  | [] => [⟨filename, List.replicate (max sentenceCount 1) .free⟩]
  | e :: es =>
    if e.filename = filename then
      { e with locks := e.locks ++ List.replicate (max sentenceCount 1 - e.locks.length) .free } :: es
    else e :: initFileLocks filename sentenceCount es

/-- `get_sentence_lock`. -/
def getSentenceLock (filename : Filename) (sentIdx : Int32) (tables : List FileLocks) :
    Option SentenceLock :=
  match tables.find? (·.filename = filename) with
  | none => none
  | some e => if 0 ≤ sentIdx.toInt then e.locks[sentIdx.toInt.toNat]? else none

/-- The lock that `get_sentence_lock` points to is overwritten. -/
def setSentenceLock (filename : Filename) (sentIdx : Int32) (lock : SentenceLock) :
    List FileLocks → List FileLocks
  | [] => []
  | e :: es =>
    if e.filename = filename then { e with locks := e.locks.set sentIdx.toInt.toNat lock } :: es
    else e :: setSentenceLock filename sentIdx lock es

/-- `strncpy(locked_by, username, MAX_USERNAME - 1)`, as `strcmp` reads it afterwards. -/
def lockedName (io : Io) (username : Username) : CStr :=
  if username.str.length < MAX_USERNAME - 1 then username.str else username.str ++ io.junk

/-- `lock_sentence_ss`. -/
def lockSentence (io : Io) (s : StorageServer) (filename : Filename) (sentIdx : Int32) (username : Username) :
    StorageServer × Int32 :=
  let tables := initFileLocks filename (sentIdx.toInt + 1).toNat s.fileLocks
  let s := { s with fileLocks := tables }
  match getSentenceLock filename sentIdx tables with
  | none => (s, ERR_INVALID_INDEX)
  | some lock =>
    if lock.locked ∧ lock.lockedBy ≠ username.str then (s, ERR_SENTENCE_LOCKED)
    else
      ({ s with fileLocks := setSentenceLock filename sentIdx ⟨true, lockedName io username⟩ tables },
        SUCCESS)

/-- `unlock_sentence_ss`. -/
def unlockSentence (s : StorageServer) (filename : Filename) (sentIdx : Int32) (username : Username) :
    StorageServer × Int32 :=
  match getSentenceLock filename sentIdx s.fileLocks with
  | none => (s, ERR_INVALID_INDEX)
  | some lock =>
    if lock.locked = false ∨ lock.lockedBy ≠ username.str then (s, ERR_ACCESS_DENIED)
    else ({ s with fileLocks := setSentenceLock filename sentIdx .free s.fileLocks }, SUCCESS)

end NetworkFileShare
