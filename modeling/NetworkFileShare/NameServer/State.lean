import NetworkFileShare.Cache.Model
import NetworkFileShare.Lib.Interleave
import NetworkFileShare.Message
import NetworkFileShare.NameServer.Sessions
import NetworkFileShare.NameServer.Trie

/-!
# The name server's state and its atomic steps (`nm.c`)

* `NameServer` : the tries, the cache, the tables and the mutexes that are held;
* `NmOp` : the calls a handler makes on what the threads share, each one atomic: a trie or cache operation
  runs under its lock, a scan of a table under its mutex, an exchange with a storage server on a socket that
  the handler has locked;
* `NmOp.exec` : what a call does and answers; `NmEnv` is what comes from outside.
-/

namespace NetworkFileShare

/-! ## Data -/

structure StorageServerInfo where
  id : Int32
  ip : CStr
  clientPort : Int32
  active : Bool
  deriving DecidableEq

structure AccessRequest where
  username : Username
  filename : Filename
  requestedAccess : Int32
  requestTime : Int
  deriving DecidableEq

/-- The mutexes that are held over several calls. -/
inductive NmMutex where
  | ss
  | request
  | ssSock (idx : Nat)
  deriving DecidableEq

/-- `ss_list` and `access_requests` are the entries that are in use. -/
structure NameServer where
  fileTrie : TrieNode FileMetadata
  folderTrie : TrieNode FolderMetadata
  cache : LRUCache
  ssList : List StorageServerInfo
  nextSsId : Int32
  sessions : Sessions
  accessRequests : List AccessRequest
  held : NmMutex → Bool

/-- `init_name_server`. -/
def initNameServer : NameServer where
  fileTrie := createTrieNode
  folderTrie := createTrieNode
  cache := initCache CACHE_SIZE (by decide)
  ssList := []
  nextSsId := 0
  sessions := .init
  accessRequests := []
  held := fun _ => false

/-! ## Access rights -/

/-- The access of the first entry for `username`. -/
def FileMetadata.accessOf (m : FileMetadata) (username : CStr) : Option Int32 :=
  (m.acl.find? (·.username = username)).map (·.access)

/-- The test of `check_access` on the record it has found. -/
def FileMetadata.allows (m : FileMetadata) (username : CStr) (required : Int32) : Bool :=
  if m.owner = username then true
  else
    match m.accessOf username with
    | none => false
    | some access =>
      if required = ACCESS_READ ∧ (access = ACCESS_READ ∨ access = ACCESS_READWRITE) then true
      else required = ACCESS_WRITE ∧ access = ACCESS_READWRITE

/-- The loop that overwrites the first entry for `username`. -/
def setAccess (username : CStr) (access : Int32) : List ACLEntry → List ACLEntry
  | [] => []
  | e :: es =>
    if e.username = username then { e with access := access } :: es else e :: setAccess username access es

/-- The granting of access in `handle_access` and `handle_approverequest`. -/
def FileMetadata.grant (m : FileMetadata) (username : CStr) (access : Int32) : FileMetadata :=
  if m.acl.any (·.username = username) then { m with acl := setAccess username access m.acl }
  else if m.acl.length < MAX_ACL_ENTRIES then { m with acl := m.acl ++ [⟨username, access⟩] }
  else m

/-- The removal of access in `handle_access`: the first entry for `username`. -/
def FileMetadata.revoke (m : FileMetadata) (username : CStr) : FileMetadata :=
  { m with acl := m.acl.eraseP (·.username = username) }

/-! ## The calls -/

inductive NmOp where
  | trieSearch (filename : CStr)
  | trieInsert (filename : CStr) (metadata : FileMetadata)
  | trieUpdate (filename : CStr) (metadata : FileMetadata)
  | trieDelete (filename : CStr)
  | trieGetAllFiles
  | folderTrieSearch (path : CStr)
  | folderTrieInsert (path : CStr) (metadata : FolderMetadata)
  | cacheGet (filename : CStr)
  | cachePut (filename : CStr) (metadata : FileMetadata)
  | cacheRemove (filename : CStr)
  | checkAccess (filename username : CStr) (required : Int32)
  | nextSsRoundRobin
  | ssIndex (ssId : Int32) (activeOnly : Bool)
  | ssInfo (ssId : Int32)
  | registerSs (msg : Message)
  | deactivateSs (ssId : Int32)
  | exchange (idx : Nat) (msg : Message)
  | lock (m : NmMutex)
  | unlock (m : NmMutex)
  | accessRequests
  | addRequest (req : AccessRequest)
  | removeRequest (id : Nat)
  | connect (sock : Int32) (name : Username)
  | disconnect (c : Connection)
  | userExists (username : Username)
  | clientNames
  | registeredNames
  | time
  | timeText (t : Int)
  | popen (command : CStr)

/-- The answers. If the reply of a storage server was not received, the message is what the handler's memory
held before; a registration answers whether the user is logged in already and whether the table is full. -/
abbrev NmOp.Ans : NmOp → Type
  | .trieSearch _ => Option FileMetadata
  | .trieInsert _ _ => Int32
  | .trieUpdate _ _ => Int32
  | .trieDelete _ => Unit
  | .trieGetAllFiles => List FileMetadata
  | .folderTrieSearch _ => Option FolderMetadata
  | .folderTrieInsert _ _ => Int32
  | .cacheGet _ => Option FileMetadata
  | .cachePut _ _ => Unit
  | .cacheRemove _ => Unit
  | .checkAccess _ _ _ => Bool
  | .nextSsRoundRobin => Int32
  | .ssIndex _ _ => Option Nat
  | .ssInfo _ => Option StorageServerInfo
  | .registerSs _ => Option Nat
  | .deactivateSs _ => Unit
  | .exchange _ _ => Bool × Message
  | .lock _ => Unit
  | .unlock _ => Unit
  | .accessRequests => List AccessRequest
  | .addRequest _ => Unit
  | .removeRequest _ => Unit
  | .connect _ _ => Bool × Bool
  | .disconnect _ => Unit
  | .userExists _ => Bool
  | .clientNames => List CStr
  | .registeredNames => List CStr
  | .time => Int
  | .timeText _ => CStr
  | .popen _ => Option CStr

/-- What comes from outside while one call runs: how far a loop of the cache gets, the clock, the reply of a
storage server, the output of a command, and the memory in front of `ss_list`. -/
structure NmEnv where
  fuel : Nat
  now : Int
  received : Bool
  reply : Message
  output : Option CStr
  text : CStr
  outside : Int32

namespace NameServer

def setHeld (s : NameServer) (m : NmMutex) (h : Bool) : NameServer :=
  { s with held := Function.update s.held m h }

/-- `get_next_ss_round_robin`. The counter is an `int`: once it has wrapped, the index is negative. The code reads
the slot after it has given the mutex back; of the slot it reads the id only, and a slot keeps its id. -/
def nextSsRoundRobin (s : NameServer) (outside : Int32) : Int32 × NameServer :=
  if s.ssList.length = 0 then (-1, s)
  else
    let idx := s.nextSsId.toInt.tmod s.ssList.length
    let id := if idx < 0 then outside else ((s.ssList[idx.toNat]?).map (·.id)).getD outside
    (id, { s with nextSsId := s.nextSsId + 1 })

/-- The scan of `ss_list` for an id. -/
def ssIndex (s : NameServer) (ssId : Int32) (activeOnly : Bool) : Option Nat :=
  s.ssList.findIdx? fun ss => ss.id = ssId && (!activeOnly || ss.active)

/-- The slot of a storage server that registers: its old one, or a new one if there is room. -/
def registerSs (s : NameServer) (msg : Message) : Option Nat × NameServer :=
  let info : StorageServerInfo := ⟨msg.ssId, msg.sender.str, msg.clientPort, true⟩
  match s.ssIndex msg.ssId false with
  | some idx => (some idx, { s with ssList := s.ssList.set idx info })
  | none =>
    if s.ssList.length ≥ MAX_SS then (none, s)
    else (some s.ssList.length, { s with ssList := s.ssList ++ [info] })

/-- The clean-up when a heartbeat connection is lost. -/
def deactivateSs (s : NameServer) (ssId : Int32) : NameServer :=
  match s.ssIndex ssId false with
  | none => s
  | some idx => { s with ssList := s.ssList.modify idx fun ss => { ss with active := false } }

end NameServer

/-- One call: its answer and the state afterwards; `none` when it has not returned, or waits for a mutex of the state.
The mutexes of the tries, the cache, the log and the user lists are not in the state: a call holds them from its
beginning to its end. The sockets are not either: what an exchange brings is up to the environment. -/
def NmOp.exec (env : NmEnv) : (op : NmOp) → NameServer → Option (op.Ans × NameServer)
  | .trieSearch filename, s => some (NetworkFileShare.trieSearch s.fileTrie filename, s)
  | .trieInsert filename metadata, s =>
    match NetworkFileShare.trieInsert s.fileTrie filename metadata with
    | (trie, status) => some (status, { s with fileTrie := trie })
  | .trieUpdate filename metadata, s =>
    match NetworkFileShare.trieUpdate s.fileTrie filename metadata with
    | (trie, status) => some (status, { s with fileTrie := trie })
  | .trieDelete filename, s =>
    some ((), { s with fileTrie := NetworkFileShare.trieDelete s.fileTrie filename })
  | .trieGetAllFiles, s => some (NetworkFileShare.trieGetAllFiles s.fileTrie MAX_FILES, s)
  | .folderTrieSearch path, s => some (NetworkFileShare.trieSearch s.folderTrie path, s)
  | .folderTrieInsert path metadata, s =>
    match NetworkFileShare.trieInsert s.folderTrie path metadata with
    | (trie, status) => some (status, { s with folderTrie := trie })
  | .cacheGet filename, s =>
    (NetworkFileShare.cacheGet env.fuel s.cache filename).map fun r => (r.2, { s with cache := r.1 })
  | .cachePut filename metadata, s =>
    (NetworkFileShare.cachePut env.fuel s.cache filename metadata).map fun c => ((), { s with cache := c })
  | .cacheRemove filename, s =>
    (NetworkFileShare.cacheRemove env.fuel s.cache filename).map fun c => ((), { s with cache := c })
  | .checkAccess filename username required, s =>
    some (((NetworkFileShare.trieSearch s.fileTrie filename).map (·.allows username required)).getD false, s)
  | .nextSsRoundRobin, s => if s.held .ss then none else some (s.nextSsRoundRobin env.outside)
  | .ssIndex ssId activeOnly, s => if s.held .ss then none else some (s.ssIndex ssId activeOnly, s)
  | .ssInfo ssId, s => if s.held .ss then none else some (s.ssList.find? (·.id = ssId), s)
  | .registerSs msg, s => some (s.registerSs msg)
  | .deactivateSs ssId, s => if s.held .ss then none else some ((), s.deactivateSs ssId)
  | .exchange _ _, s => some ((env.received, env.reply), s)
  | .lock m, s => if s.held m then none else some ((), s.setHeld m true)
  | .unlock m, s => some ((), s.setHeld m false)
  | .accessRequests, s => some (s.accessRequests, s)
  | .addRequest req, s => some ((), { s with accessRequests := s.accessRequests ++ [req] })
  | .removeRequest id, s => some ((), { s with accessRequests := s.accessRequests.eraseIdx id })
  | .connect sock name, s =>
    some (((registerUserPersistent s.sessions.registeredUsers name sock).2,
      decide (s.sessions.clientCount ≥ MAX_CLIENTS)), { s with sessions := s.sessions.connect sock name })
  | .disconnect c, s => some ((), { s with sessions := s.sessions.disconnect c })
  | .userExists username, s => some (s.sessions.registeredUsers.any (·.username = username), s)
  | .clientNames, s => some ((List.range s.sessions.clientCount).map
      fun i => (s.sessions.clientList i).username.str, s)
  | .registeredNames, s => some (s.sessions.registeredUsers.map (·.username.str), s)
  | .time, s => some (env.now, s)
  | .timeText _, s => some (env.text, s)
  | .popen _, s => some (env.output, s)

/-- The file whose record a call overwrites. -/
def NmOp.updated : NmOp → Option CStr
  | .trieUpdate filename _ => some filename
  | _ => none

/-- The file that a call registers. -/
def NmOp.inserted : NmOp → Option CStr
  | .trieInsert filename _ => some filename
  | _ => none

/-- The file that a call takes out of the trie. -/
def NmOp.deleted : NmOp → Option CStr
  | .trieDelete filename => some filename
  | _ => none

/-- The file trie after a call. -/
def NmOp.trieAfter : NmOp → TrieNode FileMetadata → TrieNode FileMetadata
  | .trieInsert filename metadata, trie => (NetworkFileShare.trieInsert trie filename metadata).1
  | .trieUpdate filename metadata, trie => (NetworkFileShare.trieUpdate trie filename metadata).1
  | .trieDelete filename, trie => NetworkFileShare.trieDelete trie filename
  | _, trie => trie

/-- The slot with the id of a storage server leads to it. -/
theorem info_of_ssIndex {s : NameServer} {ssId : Int32} {activeOnly : Bool} {idx : Nat}
    (h : s.ssIndex ssId activeOnly = some idx) : ∃ info, s.ssList[idx]? = some info ∧ info.id = ssId := by
  obtain ⟨hlt, hid, -⟩ := List.findIdx?_eq_some_iff_getElem.mp h
  refine ⟨s.ssList[idx], List.getElem?_eq_getElem hlt, ?_⟩
  simp only [Bool.and_eq_true, decide_eq_true_eq] at hid
  exact hid.1

theorem NameServer.fileTrie_nextSsRoundRobin (s : NameServer) (outside : Int32) :
    (s.nextSsRoundRobin outside).2.fileTrie = s.fileTrie := by
  unfold NameServer.nextSsRoundRobin
  split <;> rfl

theorem NameServer.fileTrie_registerSs (s : NameServer) (msg : Message) :
    (s.registerSs msg).2.fileTrie = s.fileTrie := by
  unfold NameServer.registerSs
  dsimp only
  split
  · rfl
  · split <;> rfl

theorem NameServer.fileTrie_deactivateSs (s : NameServer) (ssId : Int32) :
    (s.deactivateSs ssId).fileTrie = s.fileTrie := by
  unfold NameServer.deactivateSs
  split <;> rfl

/-- **What a call does to the file trie.** -/
theorem NmOp.exec_fileTrie {env : NmEnv} {op : NmOp} {s s' : NameServer} {ans : op.Ans}
    (h : op.exec env s = some (ans, s')) : s'.fileTrie = op.trieAfter s.fileTrie := by
  cases op with
  | nextSsRoundRobin =>
    rw [NmOp.exec] at h
    split at h
    · cases h
    · rw [← s.fileTrie_nextSsRoundRobin env.outside, Option.some.inj h]
      rfl
  | registerSs msg =>
    rw [NmOp.exec] at h
    rw [← s.fileTrie_registerSs msg, Option.some.inj h]
    rfl
  | deactivateSs ssId =>
    rw [NmOp.exec] at h
    split at h
    · cases h
    · cases h
      exact s.fileTrie_deactivateSs ssId
  | ssIndex _ _ | ssInfo _ | lock _ =>
    rw [NmOp.exec] at h
    split at h
    · cases h
    · cases h
      rfl
  | cacheGet _ | cachePut _ _ | cacheRemove _ =>
    rw [NmOp.exec] at h
    obtain ⟨c, -, he⟩ := Option.map_eq_some_iff.mp h
    cases he
    rfl
  | _ => cases h; rfl

/-- A program of the name server. -/
abbrev Handler (α : Type) : Type := Prog NmOp.Ans α

/-- One call of a handler. -/
abbrev NmOp.perform (op : NmOp) : Handler op.Ans := Prog.perform op

end NetworkFileShare
