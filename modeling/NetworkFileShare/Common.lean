import NetworkFileShare.Lib.CString
import Mathlib.Data.Int.Notation

/-!
# Constants (`common.h`)

Array sizes, table sizes, the status codes of replies (they travel as plain `int`s) and the records the
name server keeps.
-/

namespace NetworkFileShare

/-! ## Sizes -/

abbrev MAX_FILENAME : Nat := 256
abbrev MAX_USERNAME : Nat := 64
abbrev MAX_PATH : Nat := 512
abbrev MAX_BUFFER : Nat := 8192
abbrev MAX_WORD : Nat := 128
abbrev MAX_CLIENTS : Nat := 100
abbrev MAX_FILES : Nat := 10000
abbrev MAX_SS : Nat := 50
abbrev MAX_ACL_ENTRIES : Nat := 100
abbrev MAX_FILE_QUEUES : Nat := 100
abbrev CACHE_SIZE : Nat := 100

instance : Fact (0 < MAX_FILENAME) := ⟨by decide⟩
instance : Fact (0 < MAX_USERNAME) := ⟨by decide⟩
instance : Fact (0 < MAX_PATH) := ⟨by decide⟩
instance : Fact (0 < MAX_BUFFER) := ⟨by decide⟩
instance : Fact (MAX_FILENAME - 1 < MAX_FILENAME) := ⟨by decide⟩
instance : Fact (MAX_USERNAME - 1 < MAX_USERNAME) := ⟨by decide⟩
instance : Fact (MAX_FILENAME - 1 < MAX_PATH) := ⟨by decide⟩
instance : Fact (MAX_PATH - 1 < MAX_PATH) := ⟨by decide⟩
instance : Fact (MAX_BUFFER - 1 < MAX_BUFFER) := ⟨by decide⟩

abbrev Filename := CArray MAX_FILENAME

abbrev Username := CArray MAX_USERNAME

/-! ## Statuses -/

abbrev SUCCESS : Int32 := 200
abbrev ERR_FILE_NOT_FOUND : Int32 := 404
abbrev ERR_ACCESS_DENIED : Int32 := 403
abbrev ERR_SENTENCE_LOCKED : Int32 := 423
abbrev ERR_INVALID_INDEX : Int32 := 400
abbrev ERR_FILE_EXISTS : Int32 := 409
abbrev ERR_SS_UNAVAILABLE : Int32 := 503
abbrev ERR_INVALID_OPERATION : Int32 := 405
abbrev ERR_SERVER_ERROR : Int32 := 500
abbrev ERR_NOT_OWNER : Int32 := 401
abbrev ERR_USER_NOT_FOUND : Int32 := 406
abbrev ERR_FILE_LOCKED : Int32 := 424

/-! ## File metadata -/

abbrev ACCESS_NONE : Int32 := 0
abbrev ACCESS_READ : Int32 := 1
abbrev ACCESS_WRITE : Int32 := 2
abbrev ACCESS_READWRITE : Int32 := 3

structure ACLEntry where
  username : CStr
  access : Int32
  deriving DecidableEq

/-- The metadata of a file; `acl` holds the first `acl_count` entries of the array. -/
structure FileMetadata where
  filename : CStr
  folderPath : CStr
  owner : CStr
  ssId : Int32
  size : Nat
  wordCount : Int32
  charCount : Int32
  created : Int
  modified : Int
  accessed : Int
  lastAccessedBy : CStr
  acl : List ACLEntry
  deriving DecidableEq

structure FolderMetadata where
  foldername : CStr
  parentPath : CStr
  owner : CStr
  created : Int
  ssId : Int32
  acl : List ACLEntry
  deriving DecidableEq

/-- `memset(&meta, 0, sizeof(FileMetadata))`. -/
def FileMetadata.zero : FileMetadata where
  filename := []
  folderPath := []
  owner := []
  ssId := 0
  size := 0
  wordCount := 0
  charCount := 0
  created := 0
  modified := 0
  accessed := 0
  lastAccessedBy := []
  acl := []

end NetworkFileShare
