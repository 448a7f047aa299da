import NetworkFileShare.NameServer.State
import NetworkFileShare.StorageServer.State

/-!
# The request handlers of the name server (`nm.c`)

Each handler is a program over the calls of `NmOp`, in the order of the source, that ends with the message it
sends. A text that outgrows its buffer is cut like a `strncpy` into the reply; the log is left out.

* `handleCreate`, `handleDelete`, `handleAccess`, `handleApproveRequest`, `handleMove`, `handleView`,
  `locateFile` and the others : one definition for each handler;
* `handleClientMessage` : the `switch` of `handle_client_connection`; `HandledBy` : its cases;
* `registerFiles`, `handleSsConnection` : the registration of a storage server;
* `nmBody` : the program of a request.
-/

namespace NetworkFileShare

open NmOp (perform)

/-! ## Replies and texts -/

/-- A reply of `init_message` with its status. -/
def replyStatus (status : Int32) : Message := { initMessage with status := status }

/-- A reply that carries a text. -/
def replyText (type status : Int32) (text : CStr) : Message :=
  { initMessage with type := type, status := status, data := .strncpy (MAX_BUFFER - 1) text }

/-- `%-ns`. -/
def padRight (n : Nat) (s : CStr) : CStr := s ++ List.replicate (n - s.length) space

/-- `%zu`, `%d` or `%ld` of `sscanf`: what is left behind the number, if there is one. -/
def scanNumber (s : CStr) : Option CStr :=
  let digits := (readSign (s.dropWhile isspace)).2
  if digits.takeWhile isdigit = [] then none else some (digits.dropWhile isdigit)

/-- `sscanf` with numbers between bars: what is read before the first mismatch is stored. -/
def scanFields : List (CStr → FileMetadata → FileMetadata) → CStr → FileMetadata → FileMetadata
  | [], _, metadata => metadata
  | store :: stores, s, metadata =>
    match scanNumber s with
    | none => metadata
    | some [] => store s metadata
    | some (c :: rest) => if c = bar then scanFields stores rest (store s metadata) else store s metadata

/-- The destinations of `"%zu|%d|%d|%ld|%ld"`, each with the conversion: a number beyond the limits of `long` or
`unsigned long` is read as the limit, and cut to an `int` for `%d`. -/
def statFields : List (CStr → FileMetadata → FileMetadata) :=
  [fun s m => { m with size := strtoul s }, fun s m => { m with wordCount := atoi s },
    fun s m => { m with charCount := atoi s }, fun s m => { m with modified := strtol s },
    fun s m => { m with accessed := strtol s }]

/-! ## Storage servers -/

/-- One exchange with the storage server of a slot, whose socket is locked meanwhile. -/
def exchangeWith (idx : Nat) (msg : Message) : Handler (Bool × Message) := do
  perform (.lock (.ssSock idx))
  let reply ← perform (.exchange idx msg)
  perform (.unlock (.ssSock idx))
  return reply

/-- `find_ss_for_file`. -/
def findSsForFile (filename : CStr) : Handler Int32 := do
  match ← perform (.cacheGet filename) with
  | some metadata => return metadata.ssId
  | none =>
    match ← perform (.trieSearch filename) with
    | none => return -1
    | some metadata =>
      perform (.cachePut filename metadata)
      return metadata.ssId

/-! ## Creation and deletion -/

/-- The metadata that `handle_create` registers. -/
def newMetadata (filename sender : CStr) (ssId : Int32) (now : Int) : FileMetadata :=
  { FileMetadata.zero with
    filename := filename, owner := sender, ssId := ssId, created := now, modified := now, accessed := now,
    lastAccessedBy := sender }

/-- `handle_create`. -/
def handleCreate (msg : Message) : Handler Message := do
  match ← perform (.trieSearch msg.filename.str) with
  | some _ => return replyStatus ERR_FILE_EXISTS
  | none =>
    let ssId ← perform .nextSsRoundRobin
    if ssId < 0 then return replyStatus ERR_SS_UNAVAILABLE
    else
      match ← perform (.ssIndex ssId false) with
      | none => return replyStatus ERR_SS_UNAVAILABLE
      | some idx =>
        let (_, ssResponse) ← exchangeWith idx { initMessage with type := MSG_CREATE, filename := msg.filename }
        if ssResponse.status = SUCCESS then
          let now ← perform .time
          let metadata := newMetadata msg.filename.str msg.sender.str ssId now
          let _ ← perform (.trieInsert msg.filename.str metadata)
          perform (.cachePut msg.filename.str metadata)
          return replyStatus SUCCESS
        else return replyStatus ssResponse.status

/-- `handle_delete`. -/
def handleDelete (msg : Message) : Handler Message := do
  match ← perform (.trieSearch msg.filename.str) with
  | none => return replyStatus ERR_FILE_NOT_FOUND
  | some metadata =>
    if metadata.owner ≠ msg.sender.str then return replyStatus ERR_NOT_OWNER
    else
      match ← perform (.ssIndex metadata.ssId false) with
      | none => return replyStatus ERR_SS_UNAVAILABLE
      | some idx =>
        perform (.lock (.ssSock idx))
        let (_, lockResponse) ← perform
          (.exchange idx { initMessage with type := MSG_CHECK_LOCKS, filename := msg.filename })
        if lockResponse.status = ERR_FILE_LOCKED then
          perform (.unlock (.ssSock idx))
          return replyStatus ERR_FILE_LOCKED
        else
          let (_, ssResponse) ← perform
            (.exchange idx { initMessage with type := MSG_DELETE, filename := msg.filename })
          perform (.unlock (.ssSock idx))
          if ssResponse.status = SUCCESS then
            perform (.trieDelete msg.filename.str)
            perform (.cacheRemove msg.filename.str)
            return replyStatus SUCCESS
          else return replyStatus ssResponse.status

/-! ## Access -/

/-- `trie_update` and `cache_put` of a changed record. -/
def writeBack (filename : CStr) (metadata : FileMetadata) : Handler Unit := do
  let _ ← perform (.trieUpdate filename metadata)
  perform (.cachePut filename metadata)

/-- `handle_access`. -/
def handleAccess (msg : Message) : Handler Message := do
  match ← perform (.trieSearch msg.filename.str) with
  | none => return replyStatus ERR_FILE_NOT_FOUND
  | some metadata =>
    if metadata.owner ≠ msg.sender.str then return replyStatus ERR_NOT_OWNER
    else if msg.type = MSG_ADDACCESS then
      if ← perform (.userExists msg.targetUser) then
        if msg.targetUser.str = msg.sender.str then return replyStatus ERR_INVALID_OPERATION
        else
          writeBack msg.filename.str (metadata.grant msg.targetUser.str msg.access)
          return replyStatus SUCCESS
      else return replyStatus ERR_USER_NOT_FOUND
    else if msg.type = MSG_REMACCESS then
      writeBack msg.filename.str (metadata.revoke msg.targetUser.str)
      return replyStatus SUCCESS
    else return initMessage

/-- `handle_requestaccess`. -/
def handleRequestAccess (msg : Message) : Handler Message := do
  match ← perform (.trieSearch msg.filename.str) with
  | none => return replyStatus ERR_FILE_NOT_FOUND
  | some _ =>
    if ← perform (.checkAccess msg.filename.str msg.sender.str msg.access) then
      return replyText MSG_ACK SUCCESS (lit "You already have this access")
    else
      perform (.lock .request)
      let requests ← perform .accessRequests
      if requests.any fun r =>
          r.username = msg.sender ∧ r.filename = msg.filename ∧ r.requestedAccess = msg.access then
        perform (.unlock .request)
        return replyText MSG_ACK SUCCESS (lit "Request already pending")
      else if requests.length < MAX_FILES * 10 then
        let now ← perform .time
        perform (.addRequest ⟨msg.sender, msg.filename, msg.access, now⟩)
        perform (.unlock .request)
        return replyStatus SUCCESS
      else
        perform (.unlock .request)
        return replyText MSG_ACK ERR_SERVER_ERROR (lit "Request queue full")

/-- The request that `sentence_index` names. -/
def requestAt (requests : List AccessRequest) (id : Int32) : Option AccessRequest :=
  if id.toInt < 0 then none else requests[id.toInt.toNat]?

/-- `handle_approverequest`. -/
def handleApproveRequest (msg : Message) : Handler Message := do
  perform (.lock .request)
  match requestAt (← perform .accessRequests) msg.sentenceIndex with
  | none =>
    perform (.unlock .request)
    return replyStatus ERR_INVALID_INDEX
  | some req =>
    match ← perform (.trieSearch req.filename.str) with
    | none =>
      perform (.unlock .request)
      return replyStatus ERR_NOT_OWNER
    | some metadata =>
      if metadata.owner ≠ msg.sender.str then
        perform (.unlock .request)
        return replyStatus ERR_NOT_OWNER
      else
        writeBack req.filename.str (metadata.grant req.username.str req.requestedAccess)
        perform (.removeRequest msg.sentenceIndex.toInt.toNat)
        perform (.unlock .request)
        return replyStatus SUCCESS

/-- `handle_denyrequest`. -/
def handleDenyRequest (msg : Message) : Handler Message := do
  perform (.lock .request)
  match requestAt (← perform .accessRequests) msg.sentenceIndex with
  | none =>
    perform (.unlock .request)
    return replyStatus ERR_INVALID_INDEX
  | some req =>
    match ← perform (.trieSearch req.filename.str) with
    | none =>
      perform (.unlock .request)
      return replyStatus ERR_NOT_OWNER
    | some metadata =>
      if metadata.owner ≠ msg.sender.str then
        perform (.unlock .request)
        return replyStatus ERR_NOT_OWNER
      else
        perform (.removeRequest msg.sentenceIndex.toInt.toNat)
        perform (.unlock .request)
        return replyStatus SUCCESS

/-- The line of request `i`. -/
def viewRequestLine (i : Nat) (r : AccessRequest) : Handler CStr := do
  let time ← perform (.timeText r.requestTime)
  return lit "[" ++ printNat i ++ lit "] User: " ++ r.username.str ++ lit ", File: " ++ r.filename.str ++
    lit ", Access: " ++ (if r.requestedAccess = ACCESS_READ then lit "READ" else lit "WRITE") ++
    lit ", Time: " ++ time ++ lit "\n"

/-- The loop of `handle_viewrequests`, from request `i` on. -/
def viewRequestLines (sender : CStr) : Nat → List AccessRequest → Handler CStr
  | _, [] => return []
  | i, r :: rs => do
    let metadata ← perform (.trieSearch r.filename.str)
    if metadata.map (·.owner) = some sender then
      let line ← viewRequestLine i r
      let rest ← viewRequestLines sender (i + 1) rs
      return line ++ rest
    else viewRequestLines sender (i + 1) rs

/-- `handle_viewrequests`. -/
def handleViewRequests (msg : Message) : Handler Message := do
  perform (.lock .request)
  let lines ← viewRequestLines msg.sender.str 0 (← perform .accessRequests)
  perform (.unlock .request)
  return replyText MSG_DATA SUCCESS
    (if lines = [] then lit "No pending access requests for your files.\n" else lines)

/-! ## Folders -/

/-- The root of the folders, by either of its names. -/
def isRoot (path : CStr) : Bool := path = [] || path = lit "/"

/-- `handle_createfolder`. -/
def handleCreateFolder (msg : Message) : Handler Message := do
  let fullPath := snprintfPath (msg.targetPath.str ++ lit "/" ++ msg.foldername.str)
  match ← perform (.folderTrieSearch fullPath) with
  | some _ => return replyStatus ERR_FILE_EXISTS
  | none =>
    let ssId ← perform .nextSsRoundRobin
    if ssId < 0 then return replyStatus ERR_SS_UNAVAILABLE
    else
      match ← perform (.ssIndex ssId true) with
      | none => return replyStatus ERR_SS_UNAVAILABLE
      | some idx =>
        let (_, ssResponse) ← exchangeWith idx { initMessage with
          type := MSG_CREATEFOLDER, foldername := msg.foldername,
          targetPath := .strncpy (MAX_PATH - 1) fullPath }
        if ssResponse.status = SUCCESS then
          let now ← perform .time
          let _ ← perform (.folderTrieInsert fullPath
            ⟨msg.foldername.str, msg.targetPath.str, msg.sender.str, now, ssId, []⟩)
          return replyStatus SUCCESS
        else return replyStatus ssResponse.status

/-- What `handle_move` does once the move is allowed. -/
def moveFile (msg : Message) (metadata : FileMetadata) : Handler Message := do
  match ← perform (.ssIndex metadata.ssId true) with
  | none => return replyStatus ERR_SS_UNAVAILABLE
  | some idx =>
    let (_, ssResponse) ← exchangeWith idx { initMessage with
      type := MSG_MOVE, filename := msg.filename, targetPath := msg.targetPath,
      data := .strncpy (MAX_BUFFER - 1) metadata.folderPath }
    if ssResponse.status = SUCCESS then
      writeBack msg.filename.str { metadata with folderPath := msg.targetPath.str }
      return replyStatus SUCCESS
    else return replyStatus ssResponse.status

/-- The permission to move a file. -/
def mayMove (msg : Message) (metadata : FileMetadata) : Handler Bool :=
  if metadata.owner = msg.sender.str then return true
  else perform (.checkAccess msg.filename.str msg.sender.str ACCESS_WRITE)

/-- `handle_move`. -/
def handleMove (msg : Message) : Handler Message := do
  match ← perform (.trieSearch msg.filename.str) with
  | none => return replyStatus ERR_FILE_NOT_FOUND
  | some metadata =>
    let allowed ← mayMove msg metadata
    if allowed = false then return replyStatus ERR_ACCESS_DENIED
    else if isRoot msg.targetPath.str then moveFile msg metadata
    else
      match ← perform (.folderTrieSearch msg.targetPath.str) with
      | none => return replyStatus ERR_FILE_NOT_FOUND
      | some _ => moveFile msg metadata

/-- The file is in the folder, the root being the empty path. -/
def inFolder (path : CStr) (f : FileMetadata) : Bool :=
  if isRoot path then f.folderPath = [] else f.folderPath = path

/-- The loop of `handle_viewfolder`. -/
def viewFolderLines (path sender : CStr) : List FileMetadata → Handler CStr
  | [] => return []
  | f :: fs => do
    if inFolder path f then
      let allowed ← perform (.checkAccess f.filename sender ACCESS_READ)
      let rest ← viewFolderLines path sender fs
      return if allowed then f.filename ++ lit "\n" ++ rest else rest
    else viewFolderLines path sender fs

/-- The rest of `handle_viewfolder`, for a folder that is there. -/
def listFolder (msg : Message) : Handler Message := do
  let lines ← viewFolderLines msg.targetPath.str msg.sender.str (← perform .trieGetAllFiles)
  return replyText MSG_DATA SUCCESS (if lines = [] then lit "(empty folder)\n" else lines)

/-- `handle_viewfolder`. -/
def handleViewFolder (msg : Message) : Handler Message := do
  if isRoot msg.targetPath.str then listFolder msg
  else
    match ← perform (.folderTrieSearch msg.targetPath.str) with
    | none => return replyText MSG_DATA ERR_FILE_NOT_FOUND []
    | some _ => listFolder msg

/-! ## Listings -/

/-- The flags of `VIEW`: `-a` and `-l` in any token that begins with a dash. -/
def hasFlag (flag : CChar) (data : CStr) : Bool :=
  (data.splitOnP isspace).any fun token => token.head? = some dash && token.tail.contains flag

/-- One round of the loop of `VIEW -l`: the statistics of the storage server are put into the old copy, which
is written back. -/
def refreshFile (f : FileMetadata) : Handler FileMetadata := do
  match ← perform (.ssIndex f.ssId true) with
  | none => return f
  | some idx =>
    perform (.lock (.ssSock idx))
    let (received, ssResponse) ← perform (.exchange idx { initMessage with
      type := MSG_SS_INFO, filename := .strncpy (MAX_FILENAME - 1) f.filename })
    if received = true ∧ ssResponse.status = SUCCESS then
      let f' := scanFields statFields ssResponse.data.str f
      writeBack f.filename f'
      perform (.unlock (.ssSock idx))
      return f'
    else
      perform (.unlock (.ssSock idx))
      return f

def refreshFiles : List FileMetadata → Handler (List FileMetadata)
  | [] => return []
  | f :: fs => do
    let f ← refreshFile f
    let fs ← refreshFiles fs
    return f :: fs

/-- The files that `VIEW` lists. -/
def viewedFiles (showDetails : Bool) (files : List FileMetadata) : Handler (List FileMetadata) :=
  if showDetails then refreshFiles files else return files

def mayView (showAll : Bool) (sender : CStr) (f : FileMetadata) : Handler Bool :=
  if showAll then return true else perform (.checkAccess f.filename sender ACCESS_READ)

def viewLine (showDetails : Bool) (f : FileMetadata) : Handler CStr :=
  if showDetails then do
    let time ← perform (.timeText f.accessed)
    return padRight 20 f.filename ++ lit " " ++ padRight 8 (printInt f.wordCount.toInt) ++ lit " " ++
      padRight 8 (printInt f.charCount.toInt) ++ lit " " ++ padRight 20 time ++ lit " " ++
      padRight 10 f.owner ++ lit "\n"
  else return f.filename ++ lit "\n"

/-- The second loop of `handle_view`. -/
def viewLines (showAll showDetails : Bool) (sender : CStr) : List FileMetadata → Handler CStr
  | [] => return []
  | f :: fs => do
    let hasAccess ← mayView showAll sender f
    if hasAccess then
      let line ← viewLine showDetails f
      let rest ← viewLines showAll showDetails sender fs
      return line ++ rest
    else viewLines showAll showDetails sender fs

/-- The two lines above a detailed listing. -/
def viewHeader : CStr :=
  padRight 20 (lit "Filename") ++ lit " " ++ padRight 8 (lit "Words") ++ lit " " ++
    padRight 8 (lit "Chars") ++ lit " " ++ padRight 20 (lit "Last Access") ++ lit " " ++
    padRight 10 (lit "Owner") ++ lit "\n" ++ List.replicate 80 dash ++ lit "\n"

/-- `handle_view`. -/
def handleView (msg : Message) : Handler Message := do
  let showAll := hasFlag (byte 97) msg.data.str
  let showDetails := hasFlag (byte 108) msg.data.str
  let files ← perform .trieGetAllFiles
  let files ← viewedFiles showDetails files
  let lines ← viewLines showAll showDetails msg.sender.str files
  return replyText MSG_DATA SUCCESS (if showDetails then viewHeader ++ lines else lines)

/-- `show_all` and `show_details`. -/
abbrev showAllOf (msg : Message) : Bool := hasFlag (byte 97) msg.data.str

abbrev showDetailsOf (msg : Message) : Bool := hasFlag (byte 108) msg.data.str

/-- `VIEW -a`. -/
abbrev AsksForAll (msg : Message) : Prop := hasFlag (byte 97) msg.data.str = true

/-- `VIEW -a`, without `-l`. -/
def ViewsAll (msg : Message) : Prop := AsksForAll msg ∧ hasFlag (byte 108) msg.data.str = false

def accessText (access : Int32) : CStr :=
  if access = ACCESS_READ then lit "R" else if access = ACCESS_WRITE then lit "W"
  else if access = ACCESS_READWRITE then lit "RW" else lit "NONE"

/-- The text of `handle_info`. -/
def infoText (m : FileMetadata) (created modified accessed : CStr) : CStr :=
  lit "File: " ++ m.filename ++ lit "\nOwner: " ++ m.owner ++ lit "\nCreated: " ++ created ++
    lit "\nLast Modified: " ++ modified ++ lit "\nLast Accessed: " ++ accessed ++ lit " by " ++
    m.lastAccessedBy ++ lit "\nSize: " ++ printNat m.size ++ lit " bytes\nWords: " ++
    printInt m.wordCount.toInt ++ lit "\nChars: " ++ printInt m.charCount.toInt ++
    lit "\nStorage Server: " ++ printInt m.ssId.toInt ++ lit "\nAccess Control:\n" ++
    (m.acl.map fun e => lit "  " ++ e.username ++ lit ": " ++ accessText e.access ++ lit "\n").flatten

/-- The copy of `handle_info` with the statistics of its storage server, which is not written back. -/
def currentInfo (msg : Message) (metadata : FileMetadata) : Handler FileMetadata := do
  let ssId ← findSsForFile msg.filename.str
  if ssId < 0 then return metadata
  else
    match ← perform (.ssIndex ssId false) with
    | none => return metadata
    | some idx =>
      let (received, ssResponse) ←
        exchangeWith idx { initMessage with type := MSG_SS_INFO, filename := msg.filename }
      return if received = true ∧ ssResponse.status = SUCCESS then
        scanFields statFields ssResponse.data.str metadata else metadata

/-- `handle_info`. -/
def handleInfo (msg : Message) : Handler Message := do
  match ← perform (.trieSearch msg.filename.str) with
  | none => return replyText MSG_DATA ERR_FILE_NOT_FOUND []
  | some metadata =>
    let metadata ← currentInfo msg metadata
    let created ← perform (.timeText metadata.created)
    let modified ← perform (.timeText metadata.modified)
    let accessed ← perform (.timeText metadata.accessed)
    return replyText MSG_DATA SUCCESS (infoText metadata created modified accessed)

/-- A loop of `handle_list`, which ends early when the buffer is almost full. -/
def listNames (suffix : CStr) : List CStr → CStr → CStr
  | [], buffer => buffer
  | name :: names, buffer =>
    let buffer := buffer ++ name ++ suffix
    if buffer.length ≥ MAX_BUFFER - 100 then buffer else listNames suffix names buffer

/-- `handle_list`. -/
def handleList : Handler Message := do
  let clients ← perform .clientNames
  let buffer := listNames (lit " (online)\n") clients (lit "=== Connected Users ===\n")
  let users ← perform .registeredNames
  return replyText MSG_DATA SUCCESS
    (listNames (lit "\n") users (buffer ++ lit "\n=== All Registered Users ===\n"))

/-! ## Requests for a storage server -/

/-- `handle_checkpoint_request`. -/
def handleCheckpointRequest (msg : Message) : Handler Message := do
  if ← perform (.checkAccess msg.filename.str msg.sender.str ACCESS_WRITE) then
    let ssId ← findSsForFile msg.filename.str
    if ssId < 0 then return replyStatus ERR_FILE_NOT_FOUND
    else
      match ← perform (.ssIndex ssId true) with
      | none => return replyStatus ERR_SS_UNAVAILABLE
      | some idx =>
        let (_, response) ← exchangeWith idx msg
        return response
  else return replyStatus ERR_ACCESS_DENIED

/-- `handle_exec`. -/
def handleExec (msg : Message) : Handler Message := do
  if ← perform (.checkAccess msg.filename.str msg.sender.str ACCESS_READ) then
    let ssId ← findSsForFile msg.filename.str
    if ssId < 0 then return replyStatus ERR_FILE_NOT_FOUND
    else
      match ← perform (.ssIndex ssId false) with
      | none => return replyStatus ERR_SS_UNAVAILABLE
      | some idx =>
        let (_, ssResponse) ← exchangeWith idx { initMessage with
          type := MSG_SS_INFO, filename := msg.filename,
          data := .strncpy (MAX_BUFFER - 1) (lit "READ_CONTENT") }
        if ssResponse.status ≠ SUCCESS then return replyStatus ssResponse.status
        else
          match ← perform (.popen ssResponse.data.str) with
          | none => return replyStatus ERR_SERVER_ERROR
          | some output => return replyText MSG_ACK SUCCESS output
  else return replyStatus ERR_ACCESS_DENIED

/-- The case of `MSG_READ`, `MSG_WRITE`, `MSG_STREAM` and `MSG_UNDO`: the address of the storage server, and
the access time. `prior` is the reply the connection sent before, whose memory is used again. -/
def locateFile (prior msg : Message) : Handler Message := do
  let required := if msg.type = MSG_WRITE ∨ msg.type = MSG_UNDO then ACCESS_WRITE else ACCESS_READ
  let response := { prior with type := MSG_DATA }
  if ← perform (.checkAccess msg.filename.str msg.sender.str required) then
    let ssId ← findSsForFile msg.filename.str
    if ssId < 0 then return { response with status := ERR_FILE_NOT_FOUND }
    else
      let info ← perform (.ssInfo ssId)
      let response := match info with
        | none => response
        | some ss => { response with
            status := SUCCESS
            data := .strncpy (MAX_BUFFER - 1) (ss.ip ++ lit ":" ++ printInt ss.clientPort.toInt) }
      match ← perform (.trieSearch msg.filename.str) with
      | none => return response
      | some metadata =>
        let now ← perform .time
        writeBack msg.filename.str { metadata with accessed := now, lastAccessedBy := msg.sender.str }
        return response
  else return { response with status := ERR_ACCESS_DENIED }

/-! ## The `switch` -/

/-- The `switch` of `handle_client_connection`. -/
def handleClientMessage (prior msg : Message) : Handler Message :=
  if msg.type = MSG_REQUESTACCESS then handleRequestAccess msg
  else if msg.type = MSG_VIEWREQUESTS then handleViewRequests msg
  else if msg.type = MSG_APPROVEREQUEST then handleApproveRequest msg
  else if msg.type = MSG_DENYREQUEST then handleDenyRequest msg
  else if msg.type = MSG_CHECKPOINT ∨ msg.type = MSG_VIEWCHECKPOINT ∨ msg.type = MSG_REVERT ∨
      msg.type = MSG_LISTCHECKPOINTS then handleCheckpointRequest msg
  else if msg.type = MSG_CREATEFOLDER then handleCreateFolder msg
  else if msg.type = MSG_MOVE then handleMove msg
  else if msg.type = MSG_VIEWFOLDER then handleViewFolder msg
  else if msg.type = MSG_VIEW then handleView msg
  else if msg.type = MSG_INFO then handleInfo msg
  else if msg.type = MSG_LIST then handleList
  else if msg.type = MSG_CREATE then handleCreate msg
  else if msg.type = MSG_DELETE then handleDelete msg
  else if msg.type = MSG_ADDACCESS ∨ msg.type = MSG_REMACCESS then handleAccess msg
  else if msg.type = MSG_EXEC then handleExec msg
  else if msg.type = MSG_READ ∨ msg.type = MSG_WRITE ∨ msg.type = MSG_STREAM ∨ msg.type = MSG_UNDO then
    locateFile prior msg
  else return { prior with status := ERR_INVALID_OPERATION }

/-- The types that `handle_client_connection` has a case for. -/
def clientTypes : List Int32 :=
  [MSG_REQUESTACCESS, MSG_VIEWREQUESTS, MSG_APPROVEREQUEST, MSG_DENYREQUEST, MSG_CHECKPOINT, MSG_VIEWCHECKPOINT,
    MSG_REVERT, MSG_LISTCHECKPOINTS, MSG_CREATEFOLDER, MSG_MOVE, MSG_VIEWFOLDER, MSG_VIEW, MSG_INFO, MSG_LIST,
    MSG_CREATE, MSG_DELETE, MSG_ADDACCESS, MSG_REMACCESS, MSG_EXEC, MSG_READ, MSG_WRITE, MSG_STREAM, MSG_UNDO]

/-- The handler that a message is for. -/
inductive HandledBy (prior msg : Message) : Handler Message → Prop where
  | requestAccess (type : msg.type = MSG_REQUESTACCESS) : HandledBy prior msg (handleRequestAccess msg)
  | viewRequests (type : msg.type = MSG_VIEWREQUESTS) : HandledBy prior msg (handleViewRequests msg)
  | approve (type : msg.type = MSG_APPROVEREQUEST) : HandledBy prior msg (handleApproveRequest msg)
  | deny (type : msg.type = MSG_DENYREQUEST) : HandledBy prior msg (handleDenyRequest msg)
  | checkpoint (type : msg.type = MSG_CHECKPOINT ∨ msg.type = MSG_VIEWCHECKPOINT ∨ msg.type = MSG_REVERT ∨
      msg.type = MSG_LISTCHECKPOINTS) : HandledBy prior msg (handleCheckpointRequest msg)
  | createFolder (type : msg.type = MSG_CREATEFOLDER) : HandledBy prior msg (handleCreateFolder msg)
  | move (type : msg.type = MSG_MOVE) : HandledBy prior msg (handleMove msg)
  | viewFolder (type : msg.type = MSG_VIEWFOLDER) : HandledBy prior msg (handleViewFolder msg)
  | view (type : msg.type = MSG_VIEW) : HandledBy prior msg (handleView msg)
  | info (type : msg.type = MSG_INFO) : HandledBy prior msg (handleInfo msg)
  | list (type : msg.type = MSG_LIST) : HandledBy prior msg handleList
  | create (type : msg.type = MSG_CREATE) : HandledBy prior msg (handleCreate msg)
  | delete (type : msg.type = MSG_DELETE) : HandledBy prior msg (handleDelete msg)
  | access (type : msg.type = MSG_ADDACCESS ∨ msg.type = MSG_REMACCESS) : HandledBy prior msg (handleAccess msg)
  | exec (type : msg.type = MSG_EXEC) : HandledBy prior msg (handleExec msg)
  | locate (type : msg.type = MSG_READ ∨ msg.type = MSG_WRITE ∨ msg.type = MSG_STREAM ∨ msg.type = MSG_UNDO) :
      HandledBy prior msg (locateFile prior msg)
  | other (type : msg.type ∉ clientTypes) : HandledBy prior msg (pure { prior with status := ERR_INVALID_OPERATION })

theorem HandledBy.ite {prior msg : Message} {c : Prop} [Decidable c] {p q : Handler Message}
    (hp : c → HandledBy prior msg p) (hq : ¬ c → HandledBy prior msg q) :
    HandledBy prior msg (if c then p else q) := by
  split
  · rename_i hc
    exact hp hc
  · rename_i hc
    exact hq hc

/-- **Every message has a handler**, by its type. -/
theorem handledBy (prior msg : Message) : HandledBy prior msg (handleClientMessage prior msg) := by
  unfold handleClientMessage
  refine .ite .requestAccess fun h₁ => .ite .viewRequests fun h₂ => .ite .approve fun h₃ => .ite .deny fun h₄ =>
    .ite .checkpoint fun h₅ => .ite .createFolder fun h₆ => .ite .move fun h₇ => .ite .viewFolder fun h₈ =>
    .ite .view fun h₉ => .ite .info fun h₁₀ => .ite .list fun h₁₁ => .ite .create fun h₁₂ => .ite .delete fun h₁₃ =>
    .ite .access fun h₁₄ => .ite .exec fun h₁₅ => .ite .locate fun h₁₆ => .other ?_
  simp only [not_or] at h₅ h₁₄ h₁₆
  simp only [clientTypes, List.mem_cons, List.not_mem_nil, h₁, h₂, h₃, h₄, h₅, h₆, h₇, h₈, h₉, h₁₀, h₁₁, h₁₂, h₁₃, h₁₄,
    h₁₅, h₁₆, or_self, not_false_eq_true]

theorem HandledBy.eq {prior msg : Message} {p : Handler Message} (h : HandledBy prior msg p) :
    handleClientMessage prior msg = p := by
  cases h with
  | checkpoint type | locate type =>
    rcases type with type | type | type | type <;> simp only [handleClientMessage, type] <;> rfl
  | access type => rcases type with type | type <;> simp only [handleClientMessage, type] <;> rfl
  | other type =>
    simp only [clientTypes, List.mem_cons, List.not_mem_nil, or_false, not_or] at type
    simp only [handleClientMessage, type, or_self, if_false]
  | requestAccess type | viewRequests type | approve type | deny type | createFolder type | move type | viewFolder type
  | view type | info type | list type | create type | delete type | exec type =>
    simp only [handleClientMessage, type]
    rfl

/-! ## Storage servers and connections -/

/-- `strtok` with one delimiter, up to the end. -/
def tokens (delimiter : CChar) (s : CStr) : List CStr := (s.splitOn delimiter).filter (· ≠ [])

/-- The metadata of a file that a storage server brings along. -/
def systemMetadata (filename : CStr) (ssId : Int32) (now : Int) : FileMetadata :=
  { FileMetadata.zero with
    filename := filename, owner := lit "system", ssId := ssId, created := now, modified := now, accessed := now }

/-- The loop of `handle_ss_connection` over the file list. -/
def registerFiles (ssId : Int32) : List CStr → Handler Unit
  | [] => return ()
  | token :: tokens => do
    match ← perform (.trieSearch token) with
    | some existing =>
      let _ ← perform (.trieUpdate token { existing with ssId := ssId })
      registerFiles ssId tokens
    | none =>
      let now ← perform .time
      let _ ← perform (.trieInsert token (systemMetadata token ssId now))
      registerFiles ssId tokens

/-- The registration in `handle_ss_connection`. -/
def handleSsConnection (msg : Message) : Handler Unit := do
  perform (.lock .ss)
  match ← perform (.registerSs msg) with
  | none => perform (.unlock .ss)
  | some _ =>
    registerFiles msg.ssId ((tokens (byte 44) msg.data.str).take MAX_FILES)
    perform (.unlock .ss)

def comma : CChar := byte 44

/-- The names that a storage server lists. -/
def fileList (msg : Message) : List CStr := (tokens comma msg.data.str).take MAX_FILES

/-- What a thread of the name server is given to do. -/
inductive NmRequest where
  | client (prior msg : Message)
  | registerSs (msg : Message)
  | heartbeatLost (ssId : Int32)
  | login (sock : Int32) (name : Username)
  | logout (c : Connection)

/-- The program of a request, and the message that is sent at its end, if one is. -/
def nmBody : NmRequest → Handler (Option Message)
  | .client prior msg => do return some (← handleClientMessage prior msg)
  | .registerSs msg => do
    handleSsConnection msg
    return none
  | .heartbeatLost ssId => do
    perform (.deactivateSs ssId)
    return none
  | .login sock name => do
    let (isDuplicate, full) ← perform (.connect sock name)
    return if isDuplicate then
        some (replyText MSG_ACK ERR_INVALID_OPERATION (lit "User already logged in from another session"))
      else if full then none else some (replyStatus SUCCESS)
  | .logout c => do
    perform (.disconnect c)
    return none

/-! ## The threads -/

abbrev NmCall := Call NmOp.Ans

abbrev NmPool := Pool NameServer NmRequest NmOp.Ans (Option Message)

abbrev NmEvent := Event NmRequest NmOp.Ans (Option Message)

/-- One step of one thread of the name server. -/
abbrev NmStep : NmPool → NmEvent → NmPool → Prop := PoolStep (ExecSome NmOp.exec) nmBody

end NetworkFileShare
