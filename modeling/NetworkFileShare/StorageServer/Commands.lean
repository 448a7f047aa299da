import NetworkFileShare.Lib.Run
import NetworkFileShare.StorageServer.Requests

/-!
# The name server's commands to a storage server (`ss.c`, `file_ops.c`)

* `createFileSs`, `deleteFileSs`, `readFileSs`, `moveFileSs`, `checkFileLocks` : the functions on files;
* `createCheckpoint`, `viewCheckpoint`, `revertToCheckpoint` : the checkpoints, files beside the original;
* `handleNmCommand` : the `switch` of `handle_nm_communication`, with the status and the text of the reply. The
  commands that read the directory only and `CREATEFOLDER` touch nothing that is modelled;
* `Operation` : a request of a client or a command; `StoreStep` : the server handles one of them.
-/

namespace NetworkFileShare

/-- What is out of the server's hands in one operation: also the paths that are folders, and the renames that
succeed. -/
structure FsIo extends Io where
  isFolder : Path → Bool
  canRename : Path → Path → Bool

/-- Every open and every rename succeeds, and no file has the name of a folder. -/
def FsIo.allOpens : FsIo := ⟨Io.allOpens, fun _ => false, fun _ _ => true⟩

/-- `access(path, F_OK) == 0`. -/
def pathExists (io : FsIo) (disk : Disk) (path : Path) : Bool := (disk path).isSome || io.isFolder path

/-- `rename`. -/
def rename (io : FsIo) (disk : Disk) (old new : Path) : Option Disk :=
  match disk old with
  | none => none
  | some text =>
    if io.canRename old new then some (Function.update (unlink disk old) new (some text)) else none

/-! ## Files -/

/-- `create_file_ss`. -/
def createFileSs (io : FsIo) (s : StorageServer) (filename : Filename) : StorageServer × Int32 :=
  if pathExists io s.disk (s.path filename) then (s, ERR_FILE_EXISTS)
  else
    match writeFile io.toIo s.disk (s.path filename) [] with
    | none => (s, ERR_SERVER_ERROR)
    | some disk => ({ s with disk := disk, fileLocks := initFileLocks filename 1 s.fileLocks }, SUCCESS)

/-- `delete_file_ss`. -/
def deleteFileSs (s : StorageServer) (filename : Filename) : StorageServer × Int32 :=
  if s.disk (s.path filename) = none then (s, ERR_FILE_NOT_FOUND)
  else ({ s with disk := unlink (unlink s.disk (s.path filename)) (undoPath (s.path filename)) }, SUCCESS)

/-- `read_file_ss`: the status and the buffer. -/
def readFileSs (io : Io) (s : StorageServer) (filename : Filename) : Int32 × CStr :=
  match readFile io s.disk (s.path filename) with
  | none => (ERR_FILE_NOT_FOUND, [])
  | some text => (SUCCESS, text.take (MAX_BUFFER - 1))

/-- The path of a file in a folder, as `move_file_ss` makes it. -/
def folderPath (id : Int32) (folder : CStr) (filename : Filename) : Path :=
  if folder ≠ [] ∧ folder ≠ lit "/" then snprintfPath (storagePath id ++ folder ++ lit "/" ++ filename.str)
  else filePath id filename

/-- `move_file_ss`: a backup goes along if there is one. -/
def moveFileSs (io : FsIo) (s : StorageServer) (filename : Filename) (oldPath newPath : CStr) :
    StorageServer × Int32 :=
  let oldFull := folderPath s.id oldPath filename
  let newFull := folderPath s.id newPath filename
  match rename io s.disk oldFull newFull with
  | none => (s, ERR_SERVER_ERROR)
  | some disk =>
    ({ s with disk := (rename io disk (undoPath oldFull) (undoPath newFull)).getD disk }, SUCCESS)

/-- `check_file_locks`. -/
def checkFileLocks (s : StorageServer) (filename : Filename) : Bool :=
  match s.fileLocks.find? (·.filename = filename) with
  | none => false
  | some e => e.locks.any (·.locked)

/-! ## Checkpoints -/

abbrev Tag := CArray MAX_USERNAME

def checkpointPath (path : Path) (tag : Tag) : Path := snprintfPath (path ++ lit ".checkpoint_" ++ tag.str)

/-- `create_checkpoint`. -/
def createCheckpoint (io : FsIo) (disk : Disk) (path : Path) (tag : Tag) : Disk × Int32 :=
  if pathExists io disk (checkpointPath path tag) then (disk, ERR_FILE_EXISTS)
  else
    match readFile io.toIo disk path with
    | none => (disk, ERR_FILE_NOT_FOUND)
    | some text =>
      match writeFile io.toIo disk (checkpointPath path tag) text with
      | none => (disk, ERR_SERVER_ERROR)
      | some disk => (disk, SUCCESS)

/-- `view_checkpoint`: the status and the buffer. -/
def viewCheckpoint (io : Io) (disk : Disk) (path : Path) (tag : Tag) : Int32 × CStr :=
  match readFile io disk (checkpointPath path tag) with
  | none => (ERR_FILE_NOT_FOUND, [])
  | some text => (SUCCESS, text.take (MAX_BUFFER - 1))

/-- `revert_to_checkpoint`: the file is backed up before it is overwritten. -/
def revertToCheckpoint (io : FsIo) (disk : Disk) (path : Path) (tag : Tag) : Disk × Int32 :=
  if pathExists io disk (checkpointPath path tag) then
    let disk := createUndoBackup io.toIo disk path (undoPath path)
    match readFile io.toIo disk (checkpointPath path tag) with
    | none => (disk, ERR_FILE_NOT_FOUND)
    | some text =>
      match writeFile io.toIo disk path text with
      | none => (disk, ERR_SERVER_ERROR)
      | some disk => (disk, SUCCESS)
  else (disk, ERR_FILE_NOT_FOUND)

/-! ## The `switch` -/

inductive NmCommand where
  | checkLocks (filename : Filename)
  | checkpoint (filename : Filename) (tag : Tag)
  | viewCheckpoint (filename : Filename) (tag : Tag)
  | revert (filename : Filename) (tag : Tag)
  | move (filename : Filename) (oldPath newPath : CStr)
  | create (filename : Filename)
  | delete (filename : Filename)
  | readContent (filename : Filename)
  deriving DecidableEq

/-- The status and the text of a reply. -/
structure Reply where
  status : Int32
  data : CStr
  deriving DecidableEq

/-- The `switch` of `handle_nm_communication`. -/
def handleNmCommand (io : FsIo) (s : StorageServer) : NmCommand → StorageServer × Reply
  | .checkLocks filename => (s, ⟨if checkFileLocks s filename then ERR_FILE_LOCKED else SUCCESS, []⟩)
  | .checkpoint filename tag =>
    match createCheckpoint io s.disk (s.path filename) tag with
    | (disk, status) => ({ s with disk := disk }, ⟨status, []⟩)
  | .viewCheckpoint filename tag =>
    match viewCheckpoint io.toIo s.disk (s.path filename) tag with
    | (status, data) => (s, ⟨status, data⟩)
  | .revert filename tag =>
    match revertToCheckpoint io s.disk (s.path filename) tag with
    | (disk, status) => ({ s with disk := disk }, ⟨status, []⟩)
  | .move filename oldPath newPath =>
    match moveFileSs io s filename oldPath newPath with
    | (s, status) => (s, ⟨status, []⟩)
  | .create filename =>
    match createFileSs io s filename with
    | (s, status) => (s, ⟨status, []⟩)
  | .delete filename =>
    match deleteFileSs s filename with
    | (s, status) => (s, ⟨status, []⟩)
  | .readContent filename =>
    match readFileSs io.toIo s filename with
    | (status, data) => (s, ⟨status, data⟩)

/-! ## Operations -/

inductive Operation where
  | client (r : Request)
  | command (c : NmCommand)
  deriving DecidableEq

/-- The text of the reply to a client. -/
def requestData (io : Io) (s : StorageServer) : Request → CStr
  | .read filename => (readFileSs io s filename).2
  | _ => []

/-- The server after an operation, and its reply. -/
def Operation.handle (io : FsIo) (s : StorageServer) : Operation → StorageServer × Reply
  | .client r =>
    match handleClientRequest io.toIo s r with
    | (t, status) => (t, ⟨status, requestData io.toIo s r⟩)
  | .command c => handleNmCommand io s c

/-- One operation of the server. -/
def StoreStep (s : StorageServer) (e : FsIo × Operation) (t : StorageServer) : Prop :=
  t = (e.2.handle e.1 s).1

/-- Some operations one after another, and the replies. -/
def handleAll : StorageServer → List (FsIo × Operation) → StorageServer × List Reply
  | s, [] => (s, [])
  | s, (io, op) :: es =>
    let (t, reply) := op.handle io s
    let (t, replies) := handleAll t es
    (t, reply :: replies)

theorem run_handleAll (s : StorageServer) (es : List (FsIo × Operation)) : Run StoreStep s es (handleAll s es).1 := by
  induction es generalizing s with
  | nil => exact .nil
  | cons e es ih => exact Run.cons rfl (ih (e.2.handle e.1 s).1)

/-- A server that has just been started, on the files it finds. -/
def freshServer (id : Int32) (disk : Disk) : StorageServer := ⟨id, disk, [], [], []⟩

end NetworkFileShare
