import NetworkFileShare.Client.Trim
import NetworkFileShare.Client.Escapes
import NetworkFileShare.FileOps.Parse
import NetworkFileShare.Lib.Interleave
import NetworkFileShare.Wire

/-!
# The client's write session (`client.c`: `handle_write`, `perform_pending_unlock`)

* `ClientOp` : the calls on sockets that the client makes, each send and receive with its failure;
* `Typed`, `parseLine` : what `fgets` gives, and what the client makes of a line;
* `WriteCommand` : what `handle_write` is called with, and the messages that it sends;
* `reconnect`, `tryWrite`, `writeLines`, `finishWrite`, `performPendingUnlock`, `handleWrite` : the code.
-/

namespace NetworkFileShare

abbrev MSG_LOCK_SENTENCE : Int32 := 14
abbrev MSG_UNLOCK_SENTENCE : Int32 := 15
abbrev MSG_CANCEL_WRITE : Int32 := 34

/-! ## Calls -/

/-- Sockets are the descriptors of the process, `-1` where there is none. -/
inductive ClientOp where
  | nmSend (msg : Message)
  | nmRecv
  | connectToSs (info : CStr)
  | send (sock : Int) (msg : Message)
  | recv (sock : Int)
  | close (sock : Int)
  deriving DecidableEq

abbrev ClientOp.Ans : ClientOp → Type
  | .nmSend _ => Bool
  | .nmRecv => Option Message
  | .connectToSs _ => Int
  | .send .. => Bool
  | .recv _ => Option Message
  | .close _ => Unit

abbrev ClientProg (α : Type) : Type := Prog ClientOp.Ans α

abbrev ClientOp.perform (op : ClientOp) : ClientProg op.Ans := Prog.perform op

open ClientOp (perform)

/-! ## What is typed -/

/-- What a call of `fgets` gives, none at the end of the input, and whether `SIGINT` has come. -/
structure Typed where
  line : Option (CArray MAX_BUFFER)
  interrupted : Bool
  deriving DecidableEq

/-- `sscanf(s, "%d", &n)`, if it converts. -/
def scanInt (s : CStr) : Option Int32 :=
  if (readSign (s.dropWhile isspace)).2.takeWhile isdigit = [] then none else some (atoi s)

/-- The text behind the first space, without a newline at its end. -/
def lineContent (line : CStr) : CStr :=
  let content := (line.dropWhile (· ≠ space)).tail
  if content.getLast? = some newline then content.dropLast else content

/-- The text that `process_escape_sequences` leaves, up to its first NUL. -/
def contentText (content : CStr) : CStr := bufferText (unescape content)

inductive Line where
  | etirw
  | invalid
  | write (wordIdx : Int32) (content : CStr)
  deriving DecidableEq

/-- What a line is to the client. -/
def parseLine (line : CStr) : Line :=
  let line := afterTrim line
  if line = lit "ETIRW" then .etirw
  else if space ∉ line then .invalid
  else
    match scanInt line with
    | none => .invalid
    | some wordIdx => .write wordIdx (contentText (lineContent line))

/-! ## Messages -/

/-- What `handle_write` is called with, and the user's name. -/
structure WriteCommand where
  sender : Username
  filename : Filename
  sentIdx : Int32

namespace WriteCommand

/-- The request to the name server. -/
def accessMessage (w : WriteCommand) : Message :=
  { initMessage with type := MSG_WRITE, sender := w.sender, filename := w.filename }

/-- A message about the sentence. -/
def sentenceMessage (w : WriteCommand) (type : Int32) : Message :=
  { initMessage with type := type, sender := w.sender, filename := w.filename, sentenceIndex := w.sentIdx }

def lockMessage (w : WriteCommand) : Message := w.sentenceMessage MSG_LOCK_SENTENCE

def unlockMessage (w : WriteCommand) : Message := w.sentenceMessage MSG_UNLOCK_SENTENCE

def cancelMessage (w : WriteCommand) : Message := w.sentenceMessage MSG_CANCEL_WRITE

/-- `strcpy(msg.data, content)`; the content comes from a line, which is shorter than the array. -/
def writeMessage (w : WriteCommand) (wordIdx : Int32) (content : CStr) : Message :=
  { w.sentenceMessage MSG_WRITE with wordIndex := wordIdx, data := .strncpy (MAX_BUFFER - 1) content }

end WriteCommand

/-! ## The code -/

/-- How `handle_write` ends: it prints an error, it leaves the process, or it prints how many writes were made. -/
inductive WriteEnd where
  | refused (status : Int32)
  | unreachable
  | interrupted
  | ended (writeCount : Nat) (status : Bool)
  deriving DecidableEq

/-- `ss_sock` and `current_ss_sock`. -/
structure Sockets where
  ssSock : Int
  current : Int
  deriving DecidableEq

/-- The lock is asked for again, on a new connection. -/
def relock (w : WriteCommand) (ssSock : Int) : ClientProg Sockets := do
  if ← perform (.send ssSock w.lockMessage) then
    match ← perform (.recv ssSock) with
    | none =>
      perform (.close ssSock)
      return ⟨ssSock, -1⟩
    | some response =>
      if response.status ≠ SUCCESS then
        perform (.close ssSock)
        return ⟨ssSock, -1⟩
      else return ⟨ssSock, ssSock⟩
  else
    perform (.close ssSock)
    return ⟨ssSock, -1⟩

/-- The reconnection, which `handle_write` has twice: the name server is asked again, and the sentence is locked on
the new connection. -/
def reconnect (w : WriteCommand) (ssSock : Int) : ClientProg Sockets := do
  perform (.close ssSock)
  if ← perform (.nmSend w.accessMessage) then
    match ← perform .nmRecv with
    | none => return ⟨ssSock, -1⟩
    | some response =>
      if response.status ≠ SUCCESS then return ⟨ssSock, -1⟩
      else
        let ssSock ← perform (.connectToSs response.data.str)
        if ssSock < 0 then return ⟨ssSock, -1⟩
        else relock w ssSock
  else return ⟨ssSock, -1⟩

/-- What the retry loop leaves: the sockets, `retry_count`, `write_success`, and whether the write was rejected. -/
structure Tried where
  sockets : Sockets
  retryCount : Nat
  success : Bool
  rejected : Bool

/-- The retry loop, with so many rounds left. -/
def tryWrite (w : WriteCommand) (msg : Message) : (left retryCount : Nat) → Sockets → ClientProg Tried
  | 0, retryCount, socks => return ⟨socks, retryCount, false, false⟩
  | left + 1, retryCount, socks => do
    if ← perform (.send socks.ssSock msg) then
      match ← perform (.recv socks.ssSock) with
      | none =>
        let socks ← reconnect w socks.ssSock
        tryWrite w msg left (retryCount + 1) socks
      | some response =>
        if response.status ≠ SUCCESS then return ⟨socks, retryCount, false, true⟩
        else return ⟨socks, retryCount, true, false⟩
    else
      let socks ← reconnect w socks.ssSock
      tryWrite w msg left (retryCount + 1) socks

/-- The unlocking at the end. -/
def finishWrite (w : WriteCommand) (socks : Sockets) (writeCount : Nat) (status : Bool) : ClientProg WriteEnd := do
  if socks.current > 0 then
    if ← perform (.send socks.ssSock w.unlockMessage) then
      let _ ← perform (.recv socks.ssSock)
      perform (.close socks.ssSock)
      return .ended writeCount status
    else
      perform (.close socks.ssSock)
      return .ended writeCount status
  else return .ended writeCount status

/-- `perform_pending_unlock`. -/
def performPendingUnlock (w : WriteCommand) (current : Int) : ClientProg Unit := do
  if current > 0 ∧ w.sentIdx ≥ 0 then
    if ← perform (.send current w.cancelMessage) then
      let _ ← perform (.recv current)
      return ()
    else return ()
  else return ()

/-- The loop over the lines. -/
def writeLines (w : WriteCommand) : List Typed → Sockets → (writeCount : Nat) → (status : Bool) → ClientProg WriteEnd
  | [], socks, writeCount, status => finishWrite w socks writeCount status
  | typed :: rest, socks, writeCount, status =>
    if typed.interrupted then do
      performPendingUnlock w socks.current
      return .interrupted
    else
      match typed.line.map fun line => parseLine line.str with
      | none | some .etirw => finishWrite w socks writeCount status
      | some .invalid => writeLines w rest socks writeCount status
      | some (.write wordIdx content) => do
        let tried ← tryWrite w (w.writeMessage wordIdx content) 5 0 socks
        let writeCount := if tried.success then writeCount + 1 else writeCount
        let status := status && !tried.rejected
        if tried.retryCount ≥ 5 ∧ ¬ tried.success then finishWrite w tried.sockets writeCount false
        else if ¬ tried.success ∧ tried.retryCount = 0 then finishWrite w tried.sockets writeCount status
        else writeLines w rest tried.sockets writeCount status

/-- `handle_write`, with what is in `response` before anything is received, and what is typed. -/
def handleWrite (w : WriteCommand) (stale : Message) (typed : List Typed) : ClientProg WriteEnd := do
  let _ ← perform (.nmSend w.accessMessage)
  let response := (← perform .nmRecv).getD stale
  if response.status ≠ SUCCESS then return .refused response.status
  else
    let ssSock ← perform (.connectToSs response.data.str)
    if ssSock < 0 then return .unreachable
    else
      let _ ← perform (.send ssSock w.lockMessage)
      -- if no answer comes, the one of the name server is still there
      let response := (← perform (.recv ssSock)).getD response
      if response.status ≠ SUCCESS then
        perform (.close ssSock)
        return .refused response.status
      else writeLines w typed ⟨ssSock, ssSock⟩ 0 true

end NetworkFileShare
