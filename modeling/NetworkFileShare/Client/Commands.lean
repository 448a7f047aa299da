import NetworkFileShare.Client.WriteSession
import NetworkFileShare.Lib.GrowArray

/-!
# The client's commands (`client.c`: `command_loop` and the handlers that it calls)

* `strtokR`, `splitLine` : the words of a line, in an array that grows with them; `joinTail` : the arguments of `VIEW`;
* `Errand` : what a handler goes on to do; the handlers, each with the copies into its messages;
* `runCommand` : the chain of comparisons; `commandRound` : what a typed line comes to.

Every store into an array is noted with the room that the array has.
-/

namespace NetworkFileShare
namespace Client

/-- The arrays that a command is copied into: those of the loop, and those of a message. -/
inductive CommandArray where
  | argv
  | tail
  | field
  deriving DecidableEq

abbrev Stores (α : Type) : Type := Traced CommandArray α

/-! ## The words of a line -/

/-- The delimiters, a space and a tab. -/
def isDelim (c : CChar) : Bool := c.val = 32 || c.val = 9

/-- `strtok_r(s, " \t", &s)`: the next word, and where the search goes on. -/
def strtokR (s : CStr) : Option (CStr × CStr) :=
  match s.dropWhile isDelim with
  | [] => none
  | c :: s => some ((c :: s).takeWhile (!isDelim ·), ((c :: s).dropWhile (!isDelim ·)).tail)

/-- The first `argc_local` pointers of `argv`, and `cap`, which is 0 as long as there is no array. -/
structure Argv where
  args : List CStr
  cap : Nat
  deriving DecidableEq

/-- The loop over the words; `grows` tells for which capacities `realloc` finds memory. -/
def collectWords (grows : Nat → Bool) : (fuel : Nat) → Argv → CStr → Stores (Option Argv)
  | 0, argv, _ => return some argv
  | fuel + 1, argv, s =>
    match strtokR s with
    | none => return some argv
    | some (tok, s) =>
      if argv.args.length + 1 ≥ argv.cap then
        let newcap := if argv.cap = 0 then 8 else argv.cap * 2
        if grows newcap then do
          Traced.touch .argv newcap [argv.args.length]
          collectWords grows fuel ⟨argv.args ++ [tok], newcap⟩ s
        else return none
      else do
        Traced.touch .argv argv.cap [argv.args.length]
        collectWords grows fuel { argv with args := argv.args ++ [tok] } s

/-- The words of a line, none when there is no array. -/
def splitLine (grows : Nat → Bool) (line : CStr) : Stores (List CStr) := do
  match ← collectWords grows (line.length + 1) ⟨[], 0⟩ line with
  | none => return []
  | some argv =>
    if argv.cap = 0 then return []
    else
      -- `argv[argc_local] = NULL`
      Traced.touch .argv argv.cap [argv.args.length]
      return argv.args

/-- The loop that prints the arguments into `tail`, from argument `i` on; only the first has a space in front. -/
def joinTail : (i : Nat) → List CStr → (tail : CStr) → (off : Nat) → Stores CStr
  | _, [], tail, _ => return tail
  | i, arg :: args, tail, off => do
    let text := (if i = 1 then [space] else []) ++ arg
    Traced.touch .tail MAX_BUFFER (List.range' off (min text.length (MAX_BUFFER - off - 1) + 1))
    let tail := tail ++ text.take (MAX_BUFFER - off - 1)
    if off + text.length ≥ MAX_BUFFER - 1 then return tail
    else joinTail (i + 1) args tail (off + text.length)

/-! ## The handlers -/

/-- What is left to do: nothing, the end of the program, a text that is shown, a question to the name server whose
answer is shown, the same with a storage server to be asked then, or a session of `handle_write`. -/
inductive Errand where
  | nothing
  | leaves
  | shows
  | asks (msg : Message)
  | reaches (toNm toSs : Message)
  | writes (w : WriteCommand)

/-- `strcpy` into an array of a message. -/
def strcpy (n : Nat) [Fact (n - 1 < n)] (s : CStr) : Stores (CArray n) := do
  Traced.touch .field n (List.range (s.length + 1))
  return .strncpy (n - 1) s

section
variable (sender : Username)

/-- A question about a file. -/
def askAbout (type : Int32) (filename : CStr) : Stores Errand := do
  let filename ← strcpy MAX_FILENAME filename
  return .asks { initMessage with type := type, sender := sender, filename := filename }

def handleCreate : CStr → Stores Errand := askAbout sender MSG_CREATE

def handleDelete : CStr → Stores Errand := askAbout sender MSG_DELETE

def handleInfo : CStr → Stores Errand := askAbout sender MSG_INFO

def handleExec : CStr → Stores Errand := askAbout sender MSG_EXEC

def handleListcheckpoints : CStr → Stores Errand := askAbout sender MSG_LISTCHECKPOINTS

/-- A question about a checkpoint. -/
def askCheckpoint (type : Int32) (filename tag : CStr) : Stores Errand := do
  let filename ← strcpy MAX_FILENAME filename
  let tag ← strcpy MAX_USERNAME tag
  return .asks { initMessage with type := type, sender := sender, filename := filename, checkpointTag := tag }

def handleCheckpoint : CStr → CStr → Stores Errand := askCheckpoint sender MSG_CHECKPOINT

def handleViewcheckpoint : CStr → CStr → Stores Errand := askCheckpoint sender MSG_VIEWCHECKPOINT

def handleRevert : CStr → CStr → Stores Errand := askCheckpoint sender MSG_REVERT

/-- A file that is looked for at the name server, and a request to its storage server. The second copy of the name is
the same, and `handle_stream` makes it with `strncpy`. -/
def reachFile (toNm toSs : Int32) (filename : CStr) : Stores Errand := do
  let filename ← strcpy MAX_FILENAME filename
  return .reaches { initMessage with type := toNm, sender := sender, filename := filename }
    { initMessage with type := toSs, sender := sender, filename := filename }

def handleRead : CStr → Stores Errand := reachFile sender MSG_READ MSG_READ

def handleUndo : CStr → Stores Errand := reachFile sender MSG_UNDO MSG_UNDO

/-- `handle_stream`, which asks the name server as `READ` does. -/
def handleStream : CStr → Stores Errand := reachFile sender MSG_READ MSG_STREAM

/-- `handle_write`, up to its first message. -/
def handleWrite (filename sentIdx : CStr) : Stores Errand := do
  let filename ← strcpy MAX_FILENAME filename
  return .writes ⟨sender, filename, atoi sentIdx⟩

def handleCreatefolder (foldername : CStr) (parentPath : Option CStr) : Stores Errand := do
  let foldername ← strcpy MAX_FILENAME foldername
  match parentPath with
  | some parentPath =>
    let targetPath ← strcpy MAX_PATH parentPath
    return .asks { initMessage with
      type := MSG_CREATEFOLDER, sender := sender, foldername := foldername, targetPath := targetPath }
  | none => return .asks { initMessage with type := MSG_CREATEFOLDER, sender := sender, foldername := foldername }

def handleMoveFile (filename foldername : CStr) : Stores Errand := do
  let filename ← strcpy MAX_FILENAME filename
  let targetPath ← strcpy MAX_PATH foldername
  return .asks { initMessage with type := MSG_MOVE, sender := sender, filename := filename, targetPath := targetPath }

def handleViewfolder (foldername : CStr) : Stores Errand := do
  let targetPath ← strcpy MAX_PATH foldername
  return .asks { initMessage with type := MSG_VIEWFOLDER, sender := sender, targetPath := targetPath }

/-- `strncpy` of the arguments, if there are any. -/
def handleView (args : Option CStr) : Stores Errand :=
  match args with
  | some args => return .asks { initMessage with
      type := MSG_VIEW, sender := sender, data := .strncpy (MAX_BUFFER - 1) args }
  | none => return .asks { initMessage with type := MSG_VIEW, sender := sender }

def handleList : Stores Errand := return .asks { initMessage with type := MSG_LIST, sender := sender }

def handleViewrequests : Stores Errand := return .asks { initMessage with type := MSG_VIEWREQUESTS, sender := sender }

/-- `-R` and `-W`; with another flag nothing is sent. -/
def flagAccess (flag : CStr) : Option Int32 :=
  if flag = lit "-R" then some ACCESS_READ else if flag = lit "-W" then some ACCESS_READWRITE else none

def handleAddaccess (flag filename username : CStr) : Stores Errand := do
  let filename ← strcpy MAX_FILENAME filename
  let targetUser ← strcpy MAX_USERNAME username
  match flagAccess flag with
  | some access => return .asks { initMessage with
      type := MSG_ADDACCESS, sender := sender, filename := filename, targetUser := targetUser, access := access }
  | none => return .shows

def handleRemaccess (filename username : CStr) : Stores Errand := do
  let filename ← strcpy MAX_FILENAME filename
  let targetUser ← strcpy MAX_USERNAME username
  return .asks { initMessage with
    type := MSG_REMACCESS, sender := sender, filename := filename, targetUser := targetUser }

def handleRequestaccess (flag filename : CStr) : Stores Errand := do
  let filename ← strcpy MAX_FILENAME filename
  match flagAccess flag with
  | some access => return .asks { initMessage with
      type := MSG_REQUESTACCESS, sender := sender, filename := filename, access := access }
  | none => return .shows

/-- A question about a pending request. -/
def askRequest (type : Int32) (requestId : CStr) : Stores Errand :=
  return .asks { initMessage with type := type, sender := sender, sentenceIndex := atoi requestId }

def handleApproverequest : CStr → Stores Errand := askRequest sender MSG_APPROVEREQUEST

def handleDenyrequest : CStr → Stores Errand := askRequest sender MSG_DENYREQUEST

/-! ## The loop -/

/-- With fewer arguments the usage is shown; what is behind them is not looked at. -/
def oneArg (run : CStr → Stores Errand) : List CStr → Stores Errand
  | a :: _ => run a
  | _ => return .shows

def twoArgs (run : CStr → CStr → Stores Errand) : List CStr → Stores Errand
  | a :: b :: _ => run a b
  | _ => return .shows

def threeArgs (run : CStr → CStr → CStr → Stores Errand) : List CStr → Stores Errand
  | a :: b :: c :: _ => run a b c
  | _ => return .shows

/-- The chain of comparisons; an unknown command is shown to be one. -/
def runCommand (cmd : CStr) (args : List CStr) (tail : CStr) : Stores Errand :=
  if cmd = lit "exit" ∨ cmd = lit "quit" then return .leaves
  else if cmd = lit "help" then return .shows
  else if cmd = lit "VIEW" then handleView sender (if args = [] then none else some tail)
  else if cmd = lit "READ" then oneArg (handleRead sender) args
  else if cmd = lit "CREATE" then oneArg (handleCreate sender) args
  else if cmd = lit "WRITE" then twoArgs (handleWrite sender) args
  else if cmd = lit "DELETE" then oneArg (handleDelete sender) args
  else if cmd = lit "INFO" then oneArg (handleInfo sender) args
  else if cmd = lit "STREAM" then oneArg (handleStream sender) args
  else if cmd = lit "LIST" then handleList sender
  else if cmd = lit "ADDACCESS" then threeArgs (handleAddaccess sender) args
  else if cmd = lit "REMACCESS" then twoArgs (handleRemaccess sender) args
  else if cmd = lit "EXEC" then oneArg (handleExec sender) args
  else if cmd = lit "UNDO" then oneArg (handleUndo sender) args
  else if cmd = lit "CREATEFOLDER" then oneArg (handleCreatefolder sender · args.tail.head?) args
  else if cmd = lit "MOVE" then twoArgs (handleMoveFile sender) args
  else if cmd = lit "VIEWFOLDER" then oneArg (handleViewfolder sender) args
  else if cmd = lit "CHECKPOINT" then twoArgs (handleCheckpoint sender) args
  else if cmd = lit "VIEWCHECKPOINT" then twoArgs (handleViewcheckpoint sender) args
  else if cmd = lit "REVERT" then twoArgs (handleRevert sender) args
  else if cmd = lit "LISTCHECKPOINTS" then oneArg (handleListcheckpoints sender) args
  else if cmd = lit "REQUESTACCESS" then twoArgs (handleRequestaccess sender) args
  else if cmd = lit "VIEWREQUESTS" then handleViewrequests sender
  else if cmd = lit "APPROVEREQUEST" then oneArg (handleApproverequest sender) args
  else if cmd = lit "DENYREQUEST" then oneArg (handleDenyrequest sender) args
  else return .shows

/-- What `command_loop` makes of a line that `fgets` has read. -/
def commandRound (grows : Nat → Bool) (line : CStr) : Stores Errand := do
  let line := afterTrim line
  if line = [] then return .nothing
  else
    match ← splitLine grows line with
    | [] => return .nothing
    | cmd :: args =>
      let tail ← joinTail 1 args [] 0
      runCommand sender cmd args tail

end

end Client
end NetworkFileShare
