import NetworkFileShare.Client.Protocol
import NetworkFileShare.FileOps.Stream
import NetworkFileShare.Lib.Served
import NetworkFileShare.StorageServer.Leaving
import NetworkFileShare.StorageServer.Shown

/-!
# A write session and its storage server

* `requestOf`, `serveMessage` : what `handle_client_request` makes of a message, and its reply; the server works call by
  call, and a file may have several names;
* `WriteServed` : the client, the server and a connection that does not fail, with everything else that the server does
  in between;
* `WriteTalk` : what is said on the connection when the session is over; `write_session_talk` : it is so at every end;
* `HasNothing` : the user has neither the lock nor a session; `session_leaves_nothing` : so it is at every end.
-/

namespace NetworkFileShare

open ClientOp (perform)

/-! ## The server's side of the connection -/

/-- What comes out of `recv_message`. -/
def Message.arriving (msg : Message) : Message := deserializeMessage (serializeMessage msg)

/-- The `switch` of `handle_client_request`. -/
def requestOf (msg : Message) : Option Request :=
  if msg.type = MSG_READ then some (.read msg.filename)
  else if msg.type = MSG_LOCK_SENTENCE then some (.lockSentence msg.filename msg.sender msg.sentenceIndex)
  else if msg.type = MSG_WRITE then
    some (.write msg.filename msg.sender msg.sentenceIndex msg.wordIndex msg.data.str)
  else if msg.type = MSG_UNLOCK_SENTENCE then some (.unlockSentence msg.filename msg.sender msg.sentenceIndex)
  else if msg.type = MSG_CANCEL_WRITE then some (.cancelWrite msg.filename msg.sender msg.sentenceIndex)
  else if msg.type = MSG_UNDO then some (.undo msg.filename)
  else none

/-- What the paths name while the server works, and what its calls give. -/
structure ServerEnv where
  file : Path → Path
  io : FsIo

/-- The server and its reply; after the one to `MSG_STREAM` the words follow. -/
def serveMessage (env : ServerEnv) (s : StorageServer) (msg : Message) : StorageServer × Message :=
  match requestOf msg with
  | some r =>
    match Stdio.handled env.file env.io s (.client r) with
    | (t, reply) => (t, { initMessage with status := reply.status, data := .strncpy (MAX_BUFFER - 1) reply.data })
  | none => (s, { initMessage with status := if msg.type = MSG_STREAM then SUCCESS else ERR_INVALID_OPERATION })

/-- The server and what comes back of its reply. -/
def answerMessage (env : ServerEnv) (s : StorageServer) (msg : Message) : StorageServer × Message :=
  ((serveMessage env s msg).1, (serveMessage env s msg).2.arriving)

/-- Something else that the server does. -/
def OtherStep (s : StorageServer) (e : ServerEnv × Operation) (t : StorageServer) : Prop :=
  Stdio.StoreStep e.1.file s (e.1.io, e.2) t

/-- What a call of the client is to the connection; the ones that fail are none, and no socket is a standard stream. -/
def ClientOp.traffic : Call ClientOp.Ans → Option (Traffic Message Message)
  | ⟨.send _ msg, ok⟩ => if ok then some (.sends msg.arriving) else none
  | ⟨.recv _, answer⟩ => answer.map .receives
  | ⟨.connectToSs _, sock⟩ => if (sock : Int) = 0 then none else some .silent
  | ⟨.nmSend _, _⟩ | ⟨.nmRecv, _⟩ | ⟨.close _, _⟩ => some .silent

abbrev WriteWorld : Type := Served ClientOp.Ans WriteEnd Message Message StorageServer

abbrev WriteEvent : Type := ServedEvent ClientOp.Ans ServerEnv (ServerEnv × Operation)

/-- A step of the client, of its connection's thread on the server, or of the rest of the server. -/
abbrev WriteServed (s : WriteWorld) (e : WriteEvent) (t : WriteWorld) : Prop :=
  ServedStep ClientOp.traffic answerMessage OtherStep s e t

/-! ## What is said -/

/-- What is said once the lock is granted, with the writes that are typed from there on, and those made before. -/
inductive SessionTalk (w : WriteCommand) : List Message → Nat → WriteEnd → List (Message × Message) → Prop where
  | accepted {msg a : Message} {msgs : List Message} {count : Nat} {e : WriteEnd} {log : List (Message × Message)}
      (status : a.status = SUCCESS) (rest : SessionTalk w msgs (count + 1) e log) :
      SessionTalk w (msg :: msgs) count e ((msg.arriving, a) :: log)
  | completed {count : Nat} {b : Message} :
      SessionTalk w [] count (.ended count true) [(w.unlockMessage.arriving, b)]
  | rejected {msg a b : Message} {msgs : List Message} {count : Nat} (status : a.status ≠ SUCCESS) :
      SessionTalk w (msg :: msgs) count (.ended count false) [(msg.arriving, a), (w.unlockMessage.arriving, b)]
  | cancelled {count : Nat} {b : Message} (nonneg : 0 ≤ w.sentIdx) :
      SessionTalk w [] count .interrupted [(w.cancelMessage.arriving, b)]
  | left {count : Nat} (negative : w.sentIdx < 0) : SessionTalk w [] count .interrupted []

/-- What is said: nothing; `LOCK`, which is refused; or `LOCK` and a session. -/
inductive WriteTalk (w : WriteCommand) (typed : List Typed) : WriteEnd → List (Message × Message) → Prop where
  | nowhere {status : Int32} : WriteTalk w typed (.refused status) []
  | unreachable : WriteTalk w typed .unreachable []
  | refused {a : Message} (status : a.status ≠ SUCCESS) :
      WriteTalk w typed (.refused a.status) [(w.lockMessage.arriving, a)]
  | session {a : Message} {e : WriteEnd} {log : List (Message × Message)} (status : a.status = SUCCESS)
      (rest : SessionTalk w (typedWrites w typed) 0 e log) : WriteTalk w typed e ((w.lockMessage.arriving, a) :: log)

/-- A program that ends with no request waiting for its answer. -/
def WriteTalks {α : Type} (post : α → List (Message × Message) → Prop) (p : ClientProg α)
    (log : List (Message × Message)) : Prop :=
  Served.Talks ClientOp.traffic (fun a t => t.pending = none ∧ post a t.answered) p ⟨none, log⟩

section
variable {α : Type} {post : α → List (Message × Message) → Prop} {log : List (Message × Message)} {sock : Int}
  {msg : Message}

theorem talks_pure {a : α} (h : post a log) : WriteTalks post (pure a) log := ⟨rfl, h⟩

theorem talks_ite {c : Prop} [Decidable c] {p q : ClientProg α} (hp : c → WriteTalks post p log)
    (hq : ¬ c → WriteTalks post q log) : WriteTalks post (if c then p else q) log := Monitored.ite hp hq

/-- A message and its answer. -/
theorem talks_ask {k : Bool → ClientProg α} {k' : Option Message → ClientProg α}
    (hk : k true = perform (.recv sock) >>= k') (h : ∀ a, WriteTalks post (k' (some a)) (log ++ [(msg.arriving, a)])) :
    WriteTalks post (perform (.send sock msg) >>= k) log := by
  refine .call ⟨fun _ _ _ => rfl, fun ok a h => ?_⟩ fun ok hok => ?_
  · cases ok <;> cases h
  · cases ok with
    | false => exact absurd rfl hok
    | true =>
      rw [hk]
      refine .call ⟨fun answer r h => ?_, fun _ _ _ => Option.some_ne_none _⟩ fun answer hanswer => ?_
      · cases answer <;> cases h
      · cases answer with
        | none => exact absurd rfl hanswer
        | some a => exact h a

/-- A call that is not on the connection. -/
theorem talks_apart {op : ClientOp} {k : op.Ans → ClientProg α} (hop : ∀ ans, ClientOp.traffic ⟨op, ans⟩ = some .silent)
    (h : ∀ ans, WriteTalks post (k ans) log) : WriteTalks post (perform op >>= k) log := by
  refine .call ⟨fun _ _ _ => rfl, fun ans a h => ?_⟩ fun ans _ => ?_
  · cases (hop ans).symm.trans h
  · have hobserve : Talk.observe ClientOp.traffic ⟨none, log⟩ ⟨op, ans⟩ = ⟨none, log⟩ := by
      simp only [Talk.observe, hop ans]
    rw [hobserve]
    exact h ans

theorem talks_connect {info : CStr} {k : Int → ClientProg α} (h : ∀ sock, sock ≠ 0 → WriteTalks post (k sock) log) :
    WriteTalks post (perform (.connectToSs info) >>= k) log := by
  have htraffic (sock : Int) :
      ClientOp.traffic ⟨.connectToSs info, sock⟩ = if sock = 0 then none else some .silent := rfl
  refine .call ⟨fun _ _ _ => rfl, fun sock a ha => ?_⟩ fun sock hsound => ?_
  · rw [htraffic] at ha
    split at ha <;> cases ha
  · rw [Talk.Sound, htraffic] at hsound
    have hsock : (sock : Int) ≠ 0 := fun hzero => hsound (if_pos hzero)
    have hobserve : Talk.observe ClientOp.traffic ⟨none, log⟩ ⟨.connectToSs info, sock⟩ = ⟨none, log⟩ := by
      rw [Talk.observe, htraffic, if_neg hsock]
    rw [hobserve]
    exact h sock hsock

theorem talks_bind {β : Type} {mid : α → List (Message × Message) → Prop} {post : β → List (Message × Message) → Prop}
    {p : ClientProg α} {k : α → ClientProg β} (hp : WriteTalks mid p log)
    (hk : ∀ a log, mid a log → WriteTalks post (k a) log) : WriteTalks post (p >>= k) log :=
  Monitored.bind hp fun a ⟨pending, answered⟩ ⟨hnone, hmid⟩ => by
    obtain rfl : pending = none := hnone
    exact hk a answered hmid

theorem talks_mono {post' : α → List (Message × Message) → Prop} {p : ClientProg α} (hp : WriteTalks post p log)
    (h : ∀ a log, post a log → post' a log) : WriteTalks post' p log :=
  Monitored.mono hp fun a t ht => ⟨ht.1, h a t.answered ht.2⟩

end

/-- **A write**: one round of the retry loop. -/
theorem talks_tryWrite (w : WriteCommand) (msg : Message) (left retryCount : Nat) (socks : Sockets)
    (log : List (Message × Message)) :
    WriteTalks (fun tried log' => ∃ a, log' = log ++ [(msg.arriving, a)] ∧
        tried = if a.status = SUCCESS then ⟨socks, retryCount, true, false⟩ else ⟨socks, retryCount, false, true⟩)
      (tryWrite w msg (left + 1) retryCount socks) log :=
  talks_ask rfl fun a => talks_ite (fun h => talks_pure ⟨a, rfl, (if_neg h).symm⟩)
    fun h => talks_pure ⟨a, rfl, (if_pos (not_not.mp h)).symm⟩

theorem talks_finishWrite (w : WriteCommand) {socks : Sockets} (hpos : 0 < socks.current) (count : Nat) (status : Bool)
    (log : List (Message × Message)) :
    WriteTalks (fun e log' => e = .ended count status ∧ ∃ b, log' = log ++ [(w.unlockMessage.arriving, b)])
      (finishWrite w socks count status) log :=
  talks_ite (fun _ => talks_ask rfl fun b => talks_apart (fun _ => rfl) fun _ => talks_pure ⟨rfl, b, rfl⟩)
    fun h => absurd hpos h

theorem talks_performPendingUnlock (w : WriteCommand) {current : Int} (hpos : 0 < current)
    (log : List (Message × Message)) (count : Nat) :
    WriteTalks (fun _ log' => ∃ rest, log' = log ++ rest ∧ SessionTalk w [] count .interrupted rest)
      (performPendingUnlock w current) log :=
  talks_ite (fun h => talks_ask rfl fun _ => talks_pure ⟨[_], rfl, .cancelled h.2⟩)
    fun h => talks_pure ⟨[], (List.append_nil _).symm, .left (Int32.not_le.mp fun hge => h ⟨hpos, hge⟩)⟩

/-- **The loop over the lines.** -/
theorem talks_writeLines (w : WriteCommand) {sock : Int} (hpos : 0 < sock) : ∀ (typed : List Typed) (count : Nat)
    (log : List (Message × Message)),
    WriteTalks (fun e log' => ∃ rest, log' = log ++ rest ∧ SessionTalk w (typedWrites w typed) count e rest)
      (writeLines w typed ⟨sock, sock⟩ count true) log
  | [], count, log => by
    refine talks_mono (talks_finishWrite w hpos count true log) ?_
    rintro e log' ⟨rfl, b, rfl⟩
    exact ⟨[_], rfl, .completed⟩
  | typed :: rest, count, log => by
    have hfinish (hnil : typedWrites w (typed :: rest) = []) :
        WriteTalks (fun e log' =>
            ∃ rest', log' = log ++ rest' ∧ SessionTalk w (typedWrites w (typed :: rest)) count e rest')
          (finishWrite w ⟨sock, sock⟩ count true) log := by
      refine talks_mono (talks_finishWrite w hpos count true log) ?_
      rintro e log' ⟨rfl, b, rfl⟩
      exact ⟨[_], rfl, hnil ▸ .completed⟩
    rw [writeLines]
    split
    next hint =>
      have hnil : typedWrites w (typed :: rest) = [] := if_pos hint
      rw [hnil]
      exact talks_bind (talks_performPendingUnlock w hpos log count) fun _ _ h => talks_pure h
    next hint =>
    have htyped := typedWrites_cons w rest hint
    split
    next hline => exact hfinish (by rw [htyped, hline])
    next hline => exact hfinish (by rw [htyped, hline])
    next hline =>
      rw [htyped, hline]
      exact talks_writeLines w hpos rest count log
    next wordIdx content hline =>
      rw [htyped, hline]
      refine talks_bind (talks_tryWrite w (w.writeMessage wordIdx content) 4 0 ⟨sock, sock⟩ log) ?_
      rintro tried log' ⟨a, rfl, rfl⟩
      by_cases hstatus : a.status = SUCCESS
      · rw [if_pos hstatus]
        refine talks_mono (talks_writeLines w hpos rest (count + 1) _) ?_
        rintro e log' ⟨rest', rfl, htalk⟩
        exact ⟨(_, a) :: rest', by rw [List.append_assoc]; rfl, .accepted hstatus htalk⟩
      · rw [if_neg hstatus]
        refine talks_mono (talks_finishWrite w hpos count false _) ?_
        rintro e log' ⟨rfl, b, rfl⟩
        exact ⟨[(_, a), (_, b)], by rw [List.append_assoc]; rfl, .rejected hstatus⟩

/-- **`handle_write`.** -/
theorem talks_handleWrite (w : WriteCommand) (stale : Message) (typed : List Typed) :
    WriteTalks (WriteTalk w typed) (handleWrite w stale typed) [] := by
  refine talks_apart (fun _ => rfl) fun _ => talks_apart (fun _ => rfl) fun answer => ?_
  refine talks_ite (fun _ => talks_pure .nowhere) fun _ => talks_connect fun sock hsock => ?_
  refine talks_ite (fun _ => talks_pure .unreachable) fun hneg => ?_
  have hpos : 0 < sock := lt_of_le_of_ne (not_lt.mp hneg) hsock.symm
  refine talks_ask rfl fun a => talks_ite (fun hrefused => ?_) fun hgranted => ?_
  · exact talks_apart (fun _ => rfl) fun _ => talks_pure (.refused hrefused)
  · refine talks_mono (talks_writeLines w hpos typed 0 _) fun e log' ⟨rest, hlog, htalk⟩ => ?_
    subst hlog
    exact .session (not_not.mp hgranted) htalk

/-- **What is said in a session.** Over a connection that does not fail, and whatever else the server does in between,
it has handled nothing for the client; or a `LOCK` that it refused; or a `LOCK`, the writes that were typed up to the
first that it refuses, and then `UNLOCK`, or `CANCEL` at an interrupt. The client counts the writes that were answered
`SUCCESS`, and reports success only if they are all that were typed. -/
theorem write_session_talk {w : WriteCommand} {stale : Message} {typed : List Typed} {s₀ : StorageServer}
    {s : WriteWorld} {es : List WriteEvent} {e : WriteEnd}
    (hrun : Run WriteServed (.start (handleWrite w stale typed) s₀) es s) (hdone : s.client = .done e) :
    WriteTalk w typed e s.answered :=
  Served.result (talks_handleWrite w stale typed) hrun hdone

/-- The answers where nothing fails. -/
def pickSound (replies : List Message) : (op : ClientOp) → op.Ans
  | .nmSend _ => true
  | .nmRecv => some initMessage
  | .connectToSs _ => (5 : Int)
  | .send _ _ => true
  | .recv _ => replies.head?
  | .close _ => ()

/-- Alice's session, which nobody disturbs. -/
def aliceServed : List WriteEvent × WriteWorld :=
  Served.drive ClientOp.traffic answerMessage ⟨resolvePath, .allOpens⟩ pickSound 40
    (.start (handleWrite aliceWrites initMessage aliceTypes) Stdio.startedWithNotes)

theorem run_aliceServed :
    Run WriteServed (.start (handleWrite aliceWrites initMessage aliceTypes) Stdio.startedWithNotes)
      aliceServed.1 aliceServed.2 :=
  Served.run_drive (⟨resolvePath, .allOpens⟩ : ServerEnv) pickSound 40 _

theorem done_aliceServed : aliceServed.2.client = .done (WriteEnd.ended 2 true) := by rfl

theorem write_session_talk_alice : WriteTalk aliceWrites aliceTypes (.ended 2 true) aliceServed.2.answered :=
  write_session_talk run_aliceServed done_aliceServed

/-! ## What is left behind -/

/-- The names hold no separator. -/
def WriteCommand.BarFree (w : WriteCommand) : Prop := bar ∉ w.sender.str ∧ bar ∉ w.filename.str

namespace WriteCommand

theorem BarFree.sentenceMessage {w : WriteCommand} (h : w.BarFree) (type : Int32) :
    (w.sentenceMessage type).arriving = w.sentenceMessage type :=
  Message.Unnamed.arrives ⟨⟨h.1, h.2, List.not_mem_nil, List.not_mem_nil, List.not_mem_nil, List.not_mem_nil⟩, rfl⟩

theorem BarFree.writeMessage {w : WriteCommand} (h : w.BarFree) (wordIdx : Int32) (content : CStr) :
    (w.writeMessage wordIdx content).arriving = w.writeMessage wordIdx content :=
  Message.Unnamed.arrives ⟨⟨h.1, h.2, List.not_mem_nil, List.not_mem_nil, List.not_mem_nil, List.not_mem_nil⟩, rfl⟩

theorem requestOf_lock (w : WriteCommand) :
    requestOf w.lockMessage = some (.lockSentence w.filename w.sender w.sentIdx) := rfl

theorem requestOf_unlock (w : WriteCommand) :
    requestOf w.unlockMessage = some (.unlockSentence w.filename w.sender w.sentIdx) := rfl

theorem requestOf_cancel (w : WriteCommand) :
    requestOf w.cancelMessage = some (.cancelWrite w.filename w.sender w.sentIdx) := rfl

theorem requestOf_write (w : WriteCommand) (wordIdx : Int32) (content : CStr) :
    requestOf (w.writeMessage wordIdx content) =
      some (.write w.filename w.sender w.sentIdx wordIdx (content.take (MAX_BUFFER - 1))) := rfl

end WriteCommand

/-- What the server does with a message, and the status that comes back. -/
theorem answerMessage_request (env : ServerEnv) (s : StorageServer) {msg : Message} {r : Request}
    (h : requestOf msg = some r) :
    (answerMessage env s msg).1 = (Stdio.handled env.file env.io s (.client r)).1 ∧
      (answerMessage env s msg).2.status = (Stdio.handled env.file env.io s (.client r)).2.status := by
  obtain ⟨reply, hserve, hstatus, hnames⟩ : ∃ reply : Message, serveMessage env s msg =
      ((Stdio.handled env.file env.io s (.client r)).1, reply) ∧
        reply.status = (Stdio.handled env.file env.io s (.client r)).2.status ∧ reply.Unnamed := by
    unfold serveMessage
    rw [h]
    exact ⟨_, rfl, rfl, unnamed_init.1, rfl⟩
  rw [answerMessage, hserve]
  exact ⟨rfl, (congrArg Message.status hnames.arrives).trans hstatus⟩

theorem answerMessage_inv (env : ServerEnv) {s : StorageServer} (h : StoreInv s) (msg : Message) :
    StoreInv (answerMessage env s msg).1 ∧ (answerMessage env s msg).1.id = s.id := by
  cases hr : requestOf msg with
  | none =>
    unfold answerMessage serveMessage
    rw [hr]
    exact ⟨h, rfl⟩
  | some r =>
    rw [(answerMessage_request env s hr).1]
    have heffect := Stdio.handled_effect h env.file env.io (.client r)
    exact ⟨heffect.inv, heffect.id⟩

/-- The last that was said is `UNLOCK`, `CANCEL` or a `LOCK` that was refused. -/
inductive Over (w : WriteCommand) : List (Message × Message) → Prop where
  | nil : Over w []
  | refused {a : Message} {log : List (Message × Message)} (before : Over w log) (status : a.status ≠ SUCCESS) :
      Over w (log ++ [(w.lockMessage, a)])
  | unlocked {a : Message} {log : List (Message × Message)} : Over w (log ++ [(w.unlockMessage, a)])
  | cancelled {a : Message} {log : List (Message × Message)} : Over w (log ++ [(w.cancelMessage, a)])

theorem Over.snoc_cases {w : WriteCommand} {log : List (Message × Message)} {msg a : Message}
    (h : Over w (log ++ [(msg, a)])) :
    msg = w.lockMessage ∧ a.status ≠ SUCCESS ∧ Over w log ∨ msg = w.unlockMessage ∨ msg = w.cancelMessage := by
  generalize hl : log ++ [(msg, a)] = l at h
  cases h with
  | nil => simp at hl
  | refused before status =>
    obtain ⟨rfl, hlast⟩ := List.append_inj' hl rfl
    cases hlast
    exact .inl ⟨rfl, status, before⟩
  | unlocked =>
    cases (List.append_inj' hl rfl).2
    exact .inr (.inl rfl)
  | cancelled =>
    cases (List.append_inj' hl rfl).2
    exact .inr (.inr rfl)

/-- What the server keeps while it answers the client. -/
structure Leaves (w : WriteCommand) (log : List (Message × Message)) (s : StorageServer) : Prop where
  inv : StoreInv s
  finished : Over w log → HasNothing w.filename w.sender w.sentIdx s
  nonneg : ∀ a, (w.lockMessage, a) ∈ log → a.status = SUCCESS → 0 ≤ w.sentIdx.toInt

/-- **The server answers.** -/
theorem Leaves.serve {w : WriteCommand} {log : List (Message × Message)} {s : StorageServer} (h : Leaves w log s)
    (env : ServerEnv) (msg : Message) :
    Leaves w (log ++ [(msg, (answerMessage env s msg).2)]) (answerMessage env s msg).1 where
  inv := (answerMessage_inv env h.inv msg).1
  finished hover := by
    have hany : ∀ (t : StorageServer) (reply : Reply) (disk : Disk), HasNothing w.filename w.sender w.sentIdx t →
        HasNothing w.filename w.sender w.sentIdx { t with disk := disk } := fun _ _ disk ht => ht.of_disk disk
    rcases hover.snoc_cases with ⟨rfl, hstatus, hbefore⟩ | rfl | rfl
    · obtain ⟨hserver, hreply⟩ := answerMessage_request env s w.requestOf_lock
      rw [hserver]
      exact Stdio.handled_meets (Stdio.nothing_refused h.inv env.io.toIo (h.finished hbefore))
        (fun t reply disk ht hfail => hany t reply disk (ht hfail)) env.file (hreply ▸ hstatus)
    · rw [(answerMessage_request env s w.requestOf_unlock).1]
      exact Stdio.handled_meets (Stdio.nothing_unlock h.inv env.io.toIo) hany env.file
    · rw [(answerMessage_request env s w.requestOf_cancel).1]
      exact Stdio.handled_meets (Stdio.nothing_cancel h.inv env.io.toIo) hany env.file
  nonneg a hmem hstatus := by
    rcases List.mem_append.mp hmem with hmem | hmem
    · exact h.nonneg a hmem hstatus
    · obtain ⟨rfl, rfl⟩ := Prod.mk.inj (List.mem_singleton.mp hmem)
      rw [(answerMessage_request env s w.requestOf_lock).2] at hstatus
      exact Stdio.handled_meets (Stdio.nonneg_of_locked s env.io.toIo) (fun _ _ _ ht => ht) env.file hstatus

theorem Leaves.others {w : WriteCommand} {log : List (Message × Message)} {s t : StorageServer} (h : Leaves w log s)
    {e : ServerEnv × Operation} (hnames : e.2.names ≠ some (w.filename, w.sender, w.sentIdx))
    (hstep : OtherStep s e t) : Leaves w log t where
  inv := (Stdio.StoreStep.effect hstep h.inv).inv
  finished hover := by
    rw [show t = (Stdio.handled e.1.file e.1.io s e.2).1 from hstep]
    exact Stdio.handled_meets ((Stdio.returns_gains h.inv e.1.io.toIo hnames).mono fun _ hgains =>
      (h.finished hover).of_gains hgains) (fun _ _ disk ht => ht.of_disk disk) e.1.file
  nonneg := h.nonneg

theorem SessionTalk.last {w : WriteCommand} {msgs : List Message} {count : Nat} {e : WriteEnd}
    {log : List (Message × Message)} (h : SessionTalk w msgs count e log) :
    (∃ front b, log = front ++ [(w.unlockMessage.arriving, b)] ∨ log = front ++ [(w.cancelMessage.arriving, b)]) ∨
      w.sentIdx < 0 := by
  induction h with
  | @accepted msg a msgs count e log _ _ ih =>
    refine ih.imp_left fun ⟨front, b, hlog⟩ => ⟨(msg.arriving, a) :: front, b, ?_⟩
    exact hlog.imp (congrArg _) (congrArg _)
  | completed => exact .inl ⟨[], _, .inl rfl⟩
  | rejected _ => exact .inl ⟨[_], _, .inl rfl⟩
  | cancelled _ => exact .inl ⟨[], _, .inr rfl⟩
  | left negative => exact .inr negative

/-- A session that is over has said so. -/
theorem WriteTalk.finished {w : WriteCommand} {typed : List Typed} {e : WriteEnd} {log : List (Message × Message)}
    (h : WriteTalk w typed e log) (hbar : w.BarFree)
    (hnonneg : ∀ a, (w.lockMessage, a) ∈ log → a.status = SUCCESS → 0 ≤ w.sentIdx.toInt) : Over w log := by
  have hlock : w.lockMessage.arriving = w.lockMessage := hbar.sentenceMessage MSG_LOCK_SENTENCE
  have hunlock : w.unlockMessage.arriving = w.unlockMessage := hbar.sentenceMessage MSG_UNLOCK_SENTENCE
  have hcancel : w.cancelMessage.arriving = w.cancelMessage := hbar.sentenceMessage MSG_CANCEL_WRITE
  cases h with
  | nowhere => exact .nil
  | unreachable => exact .nil
  | refused status =>
    rw [hlock]
    exact .refused .nil status
  | @session a e log status rest =>
    rw [hlock] at hnonneg ⊢
    rcases rest.last with ⟨front, b, hlog | hlog⟩ | hneg
    · rw [hlog, hunlock]
      exact (.unlocked : Over w ((w.lockMessage, a) :: front ++ [(w.unlockMessage, b)]))
    · rw [hlog, hcancel]
      exact (.cancelled : Over w ((w.lockMessage, a) :: front ++ [(w.cancelMessage, b)]))
    · exact absurd (hnonneg a List.mem_cons_self status) (not_le.mpr (Int32.lt_iff_toInt_lt.mp hneg))

end NetworkFileShare
