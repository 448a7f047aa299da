import NetworkFileShare.Lib.Monitor
import NetworkFileShare.Client.WriteSession

/-!
# What a write session does on its connections (`client.c`: `handle_write`)

* `Link` : how far the protocol has come on a connection; `Ledger` : all connections, and the writes that have been
  acknowledged; `Ledger.observe` : what a call does to it;
* `WriteGood` : what the client may do in a state; `write_protocol` : it does nothing else, however the connections
  fail and whatever is answered;
* `typedWrites` : the writes that have been typed; `reported_writes` : what the client reports of them.
-/

namespace NetworkFileShare

open ClientOp (perform)

/-! ## Connections -/

/-- How far the protocol has come on a connection. -/
inductive Link where
  | closed
  | fresh
  | asked
  | refused
  | session (granted : Bool)
  | writing (granted : Bool) (msg : Message)
  | lost
  | ended
  deriving DecidableEq

/-- The connections by their sockets, how many have been made, and the writes that were answered `SUCCESS`. -/
structure Ledger where
  link : Int → Link
  connects : Nat
  acks : List Message

namespace Ledger

def start : Ledger := ⟨fun _ => .closed, 0, []⟩

def setLink (s : Ledger) (sock : Int) (link : Link) : Ledger := { s with link := Function.update s.link sock link }

@[simp] theorem setLink_connects (s : Ledger) (sock : Int) (link : Link) :
    (s.setLink sock link).connects = s.connects := rfl

@[simp] theorem setLink_acks (s : Ledger) (sock : Int) (link : Link) : (s.setLink sock link).acks = s.acks := rfl

@[simp] theorem setLink_self (s : Ledger) (sock : Int) (link : Link) : (s.setLink sock link).link sock = link :=
  Function.update_self ..

/-- A message is sent. On a new connection it asks for the lock; a session is left by a message that is no write. -/
def sent (s : Ledger) (sock : Int) (msg : Message) (ok : Bool) : Ledger :=
  match s.link sock with
  | .fresh => s.setLink sock .asked
  | .session granted =>
    if msg.type ≠ MSG_WRITE then s.setLink sock .ended
    else if ok then s.setLink sock (.writing granted msg)
    else s.setLink sock .lost
  | _ => s

/-- An answer is received, or does not come. -/
def received (s : Ledger) (sock : Int) (answer : Option Message) : Ledger :=
  match s.link sock, answer with
  | .asked, none => s.setLink sock (.session false)
  | .asked, some r => if r.status = SUCCESS then s.setLink sock (.session true) else s.setLink sock .refused
  | .writing _ _, none => s.setLink sock .lost
  | .writing granted msg, some r =>
    if r.status = SUCCESS then { s.setLink sock (.session granted) with acks := s.acks ++ [msg] }
    else s.setLink sock (.session granted)
  | _, _ => s

/-- There is a new connection. -/
def opened (s : Ledger) (sock : Int) : Ledger := { s.setLink sock .fresh with connects := s.connects + 1 }

/-- What a call does to the connections. -/
def observe (s : Ledger) : Call ClientOp.Ans → Ledger
  | ⟨.nmSend _, _⟩ => s
  | ⟨.nmRecv, _⟩ => s
  | ⟨.connectToSs _, sock⟩ => if sock < 0 then s else s.opened sock
  | ⟨.send sock msg, ok⟩ => s.sent sock msg ok
  | ⟨.recv sock, answer⟩ => s.received sock answer
  | ⟨.close sock, _⟩ => s.setLink sock .closed

/-- What the system does: a socket is no standard stream, and nothing is sent where no connection is. -/
def Real (s : Ledger) : Call ClientOp.Ans → Prop
  | ⟨.connectToSs _, sock⟩ => sock ≠ 0
  | ⟨.send sock _, ok⟩ => s.link sock = .closed → ok = false
  | _ => True

instance (s : Ledger) (c : Call ClientOp.Ans) : Decidable (s.Real c) := by
  obtain ⟨op, ans⟩ := c
  cases op with
  | connectToSs info => exact inferInstanceAs (Decidable ((ans : Int) ≠ 0))
  | send sock msg => exact inferInstanceAs (Decidable (s.link sock = .closed → (ans : Bool) = false))
  | _ => exact inferInstanceAs (Decidable True)

/-- No connection is open but perhaps one. -/
def SoleAt (s : Ledger) (sock : Int) : Prop := ∀ other, other ≠ sock → s.link other = .closed

/-- No connection is open. -/
def Idle (s : Ledger) : Prop := ∀ sock, s.link sock = .closed

section
variable {s : Ledger} {sock : Int}

theorem SoleAt.setLink (h : s.SoleAt sock) (link : Link) : (s.setLink sock link).SoleAt sock := fun other hne =>
  (Function.update_of_ne hne ..).trans (h other hne)

theorem SoleAt.close (h : s.SoleAt sock) : (s.setLink sock .closed).Idle := fun other => by
  by_cases hother : other = sock
  · rw [hother, setLink_self]
  · exact h.setLink .closed other hother

theorem Idle.soleAt (h : s.Idle) (sock : Int) : s.SoleAt sock := fun other _ => h other

theorem sent_fresh (h : s.link sock = .fresh) (msg : Message) (ok : Bool) :
    s.sent sock msg ok = s.setLink sock .asked := by rw [sent, h]

theorem sent_closed (h : s.link sock = .closed) (msg : Message) (ok : Bool) : s.sent sock msg ok = s := by
  rw [sent, h]

theorem sent_write {granted : Bool} (h : s.link sock = .session granted) {msg : Message} (hmsg : msg.type = MSG_WRITE)
    (ok : Bool) : s.sent sock msg ok = s.setLink sock (if ok then .writing granted msg else .lost) := by
  rw [sent, h]
  cases ok <;> simp [hmsg]

theorem sent_leave {granted : Bool} (h : s.link sock = .session granted) {msg : Message} (hmsg : msg.type ≠ MSG_WRITE)
    (ok : Bool) : s.sent sock msg ok = s.setLink sock .ended := by
  rw [sent, h]
  exact if_pos hmsg

theorem received_asked_none (h : s.link sock = .asked) : s.received sock none = s.setLink sock (.session false) := by
  simp only [received, h]

theorem received_asked (h : s.link sock = .asked) (r : Message) :
    s.received sock (some r) = s.setLink sock (if r.status = SUCCESS then .session true else .refused) := by
  simp only [received, h]
  exact (apply_ite (s.setLink sock) ..).symm

theorem received_writing_none {granted : Bool} {msg : Message} (h : s.link sock = .writing granted msg) :
    s.received sock none = s.setLink sock .lost := by
  simp only [received, h]

theorem received_writing {granted : Bool} {msg : Message} (h : s.link sock = .writing granted msg) (r : Message) :
    s.received sock (some r) =
      { s.setLink sock (.session granted) with acks := s.acks ++ if r.status = SUCCESS then [msg] else [] } := by
  simp only [received, h]
  split
  · rfl
  · rw [List.append_nil]
    rfl

theorem received_ended (h : s.link sock = .ended) (answer : Option Message) : s.received sock answer = s := by
  simp only [received, h]

end

end Ledger

/-- A message that writes. -/
def WriteCommand.Writes (w : WriteCommand) (msg : Message) : Prop :=
  ∃ wordIdx content, msg = w.writeMessage wordIdx content

/-- What the client may do. `WRITE`, `UNLOCK` and `CANCEL` are sent where the lock was granted; on the first connection
also if the answer to `LOCK` has not come. Nothing is closed that is in a session of which the server knows. -/
def WriteGood (w : WriteCommand) (s : Ledger) : ClientOp → Prop
  | .nmSend msg => msg = w.accessMessage
  | .nmRecv => True
  | .connectToSs _ => ∀ sock, s.link sock = .closed
  | .send sock msg =>
    match s.link sock with
    | .closed => w.Writes msg
    | .fresh => msg = w.lockMessage
    | .session granted => (granted = false → s.connects = 1) ∧
        (w.Writes msg ∨ msg = w.unlockMessage ∨ msg = w.cancelMessage)
    | _ => False
  | .recv sock =>
    match s.link sock with
    | .asked | .writing _ _ | .ended => True
    | _ => False
  | .close sock =>
    match s.link sock with
    | .fresh | .session true | .writing _ _ => False
    | _ => True

abbrev WriteMonitored {α : Type} (w : WriteCommand) (post : α → Ledger → Prop) (p : ClientProg α) (s : Ledger) : Prop :=
  Monitored Ledger.observe Ledger.Real (WriteGood w) post p s

/-! ## One call -/

section
variable {α : Type} {w : WriteCommand} {post : α → Ledger → Prop} {s : Ledger} {sock : Int} {msg : Message}

theorem monitored_nmSend {k : Bool → ClientProg α} (h : ∀ ok, WriteMonitored w post (k ok) s) :
    WriteMonitored w post (perform (.nmSend w.accessMessage) >>= k) s := .call rfl fun ok _ => h ok

theorem monitored_nmRecv {k : Option Message → ClientProg α} (h : ∀ answer, WriteMonitored w post (k answer) s) :
    WriteMonitored w post (perform .nmRecv >>= k) s := .call trivial fun answer _ => h answer

theorem monitored_connect {info : CStr} {k : Int → ClientProg α} (hidle : s.Idle)
    (hfail : ∀ sock, sock < 0 → WriteMonitored w post (k sock) s)
    (hopened : ∀ sock, 0 < sock → WriteMonitored w post (k sock) (s.opened sock)) :
    WriteMonitored w post (perform (.connectToSs info) >>= k) s := by
  refine .call hidle fun sock hsock => ?_
  change WriteMonitored w post (k sock) (if sock < 0 then s else s.opened sock)
  by_cases hneg : sock < 0
  · rw [if_pos hneg]
    exact hfail sock hneg
  · rw [if_neg hneg]
    exact hopened sock (lt_of_le_of_ne (not_lt.mp hneg) (Ne.symm hsock))

theorem monitored_send {k : Bool → ClientProg α} (hgood : WriteGood w s (.send sock msg))
    (h : ∀ ok, (s.link sock = .closed → ok = false) → WriteMonitored w post (k ok) (s.sent sock msg ok)) :
    WriteMonitored w post (perform (.send sock msg) >>= k) s := .call hgood h

theorem monitored_recv {k : Option Message → ClientProg α} (hgood : WriteGood w s (.recv sock))
    (h : ∀ answer, WriteMonitored w post (k answer) (s.received sock answer)) :
    WriteMonitored w post (perform (.recv sock) >>= k) s := .call hgood fun answer _ => h answer

theorem monitored_close {k : Unit → ClientProg α} (hgood : WriteGood w s (.close sock))
    (h : WriteMonitored w post (k ()) (s.setLink sock .closed)) :
    WriteMonitored w post (perform (.close sock) >>= k) s := .call hgood fun _ _ => h

end

/-! ## Reconnecting -/

/-- The sockets of the client: there is a session on the one connection, or no connection. -/
inductive Sockets.Ok (s : Ledger) : Sockets → Prop where
  | connected {sock : Int} {granted : Bool} (pos : 0 < sock) (link : s.link sock = .session granted)
      (first : granted = false → s.connects = 1) (sole : s.SoleAt sock) : Ok s ⟨sock, sock⟩
  | apart {sock : Int} (idle : s.Idle) : Ok s ⟨sock, -1⟩

/-- What a reconnection leaves. -/
def Reconnected (s : Ledger) (socks : Sockets) (t : Ledger) : Prop := socks.Ok t ∧ t.acks = s.acks

/-- A connection on which there is no session is given up. -/
theorem monitored_giveUp {w : WriteCommand} {s : Ledger} {sock : Int} (hsole : s.SoleAt sock)
    (hgood : WriteGood w s (.close sock)) :
    WriteMonitored w (Reconnected s) (do perform (.close sock); return ⟨sock, -1⟩) s :=
  monitored_close hgood (.pure ⟨.apart hsole.close, rfl⟩)

/-- The lock is asked for on a new connection. -/
theorem monitored_relock {w : WriteCommand} {s : Ledger} {sock : Int} (hpos : 0 < sock) (hsole : s.SoleAt sock)
    (hfresh : s.link sock = .fresh) :
    WriteMonitored w (Reconnected s) (relock w sock) s := by
  refine monitored_send (by rw [WriteGood, hfresh]) fun ok _ => ?_
  rw [Ledger.sent_fresh hfresh]
  have hasked : (s.setLink sock .asked).link sock = .asked := Ledger.setLink_self ..
  have hsole' := hsole.setLink .asked
  refine .ite (fun _ => ?_) fun _ => monitored_giveUp hsole' (by rw [WriteGood, hasked]; trivial)
  refine monitored_recv (by rw [WriteGood, hasked]; trivial) fun answer => ?_
  cases answer with
  | none =>
    rw [Ledger.received_asked_none hasked]
    exact monitored_giveUp (hsole'.setLink _) (by rw [WriteGood, Ledger.setLink_self]; trivial)
  | some response =>
    rw [Ledger.received_asked hasked]
    refine .ite (fun hstatus => ?_) fun hstatus => .pure ?_
    · rw [if_neg hstatus]
      exact monitored_giveUp (hsole'.setLink _) (by rw [WriteGood, Ledger.setLink_self]; trivial)
    · rw [if_pos (not_not.mp hstatus)]
      exact ⟨.connected hpos (Ledger.setLink_self ..) nofun (hsole'.setLink _), rfl⟩

/-- **A reconnection** ends with a session on a new connection, or without a connection. -/
theorem monitored_reconnect {w : WriteCommand} {s : Ledger} {sock : Int} (hsole : s.SoleAt sock)
    (hdead : s.link sock = .closed ∨ s.link sock = .lost) :
    WriteMonitored w (Reconnected s) (reconnect w sock) s := by
  have hidle : (s.setLink sock .closed).Idle := hsole.close
  refine monitored_close (by rcases hdead with h | h <;> simp only [WriteGood, h]) ?_
  change WriteMonitored w (Reconnected (s.setLink sock .closed)) _ _
  generalize s.setLink sock .closed = t at hidle
  refine monitored_nmSend fun _ => .ite (fun _ => ?_) fun _ => .pure ⟨.apart hidle, rfl⟩
  refine monitored_nmRecv fun response => ?_
  cases response with
  | none => exact .pure ⟨.apart hidle, rfl⟩
  | some response =>
    refine .ite (fun _ => .pure ⟨.apart hidle, rfl⟩) fun _ => ?_
    refine monitored_connect hidle (fun new hneg => ?_) fun new hpos => ?_
    · rw [if_pos hneg]
      exact .pure ⟨.apart hidle, rfl⟩
    · rw [if_neg (not_lt.mpr hpos.le)]
      change WriteMonitored w (Reconnected (t.opened new)) _ _
      exact monitored_relock hpos ((hidle.soleAt new).setLink _) (Ledger.setLink_self ..)

/-! ## One write -/

/-- What the retry loop leaves, after so many rounds at most: the write is acknowledged exactly if it succeeded; without
a rejection, one that did not succeed has used up all rounds. -/
structure Attempted (s : Ledger) (msg : Message) (rounds : Nat) (tried : Tried) (t : Ledger) : Prop where
  ok : tried.sockets.Ok t
  acks : t.acks = s.acks ++ if tried.success then [msg] else []
  failed : tried.success = false → tried.rejected = true ∨ tried.retryCount = rounds
  accepted : tried.success = true → tried.rejected = false

/-- A send on the connection, or on none. -/
theorem writeGood_send {w : WriteCommand} {s : Ledger} {socks : Sockets} (hok : socks.Ok s) {msg : Message}
    (hmsg : w.Writes msg) : WriteGood w s (.send socks.ssSock msg) := by
  cases hok with
  | connected _ hlink hfirst _ =>
    rw [WriteGood, hlink]
    exact ⟨hfirst, .inl hmsg⟩
  | @apart sock hidle =>
    rw [WriteGood, hidle sock]
    exact hmsg

/-- **The retry loop.** -/
theorem monitored_tryWrite {w : WriteCommand} {msg : Message} (hmsg : w.Writes msg) :
    ∀ (left retryCount : Nat) {socks : Sockets} {s : Ledger}, socks.Ok s →
      WriteMonitored w (Attempted s msg (retryCount + left)) (tryWrite w msg left retryCount socks) s
  | 0, _, _, _, hok => .pure ⟨hok, (List.append_nil _).symm, fun _ => .inr rfl, nofun⟩
  | left + 1, retryCount, socks, s, hok => by
    -- a round that loses the connection
    have again : ∀ t : Ledger, t.acks = s.acks → t.SoleAt socks.ssSock →
        (t.link socks.ssSock = .closed ∨ t.link socks.ssSock = .lost) →
        WriteMonitored w (Attempted s msg (retryCount + (left + 1)))
          (do let socks ← reconnect w socks.ssSock; tryWrite w msg left (retryCount + 1) socks) t := by
      intro t hacks hsole hdead
      refine (monitored_reconnect hsole hdead).bind fun socks' u hu => ?_
      refine (monitored_tryWrite hmsg left (retryCount + 1) hu.1).mono fun tried v hv => ?_
      exact ⟨hv.ok, by rw [hv.acks, hu.2, hacks], fun h => (hv.failed h).imp_right (by omega), hv.accepted⟩
    have htype : msg.type = MSG_WRITE := by
      obtain ⟨wordIdx, content, rfl⟩ := hmsg
      rfl
    refine monitored_send (writeGood_send hok hmsg) fun ok hsent => ?_
    cases hok with
    | @apart sock hidle =>
      rw [Ledger.sent_closed (hidle sock)]
      cases hsent (hidle sock)
      exact again s rfl (hidle.soleAt sock) (.inl (hidle sock))
    | @connected sock granted hpos hlink hfirst hsole =>
      rw [Ledger.sent_write hlink htype]
      cases ok with
      | false => exact again _ rfl (hsole.setLink _) (.inr (Ledger.setLink_self ..))
      | true =>
        have hwriting : (s.setLink sock (.writing granted msg)).link sock = .writing granted msg :=
          Ledger.setLink_self ..
        refine monitored_recv (by rw [WriteGood, if_pos rfl, hwriting]; trivial) fun answer => ?_
        cases answer with
        | none =>
          rw [if_pos rfl, Ledger.received_writing_none hwriting]
          exact again _ rfl ((hsole.setLink _).setLink _) (.inr (Ledger.setLink_self ..))
        | some response =>
          rw [if_pos rfl, Ledger.received_writing hwriting]
          have hsession (acks : List Message) :
              Sockets.Ok { (s.setLink sock (.writing granted msg)).setLink sock (.session granted) with acks := acks }
                ⟨sock, sock⟩ := .connected hpos (Ledger.setLink_self ..) hfirst ((hsole.setLink _).setLink _)
          refine .ite (fun hstatus => .pure ?_) fun hstatus => .pure ?_
          · rw [if_neg hstatus]
            exact ⟨hsession _, rfl, fun _ => .inl rfl, nofun⟩
          · rw [if_pos (not_not.mp hstatus)]
            exact ⟨hsession _, rfl, nofun, fun _ => rfl⟩

/-! ## The session -/

/-- The writes that have been typed: up to `ETIRW`, the end of the input or an interrupt. -/
def typedWrites (w : WriteCommand) : List Typed → List Message
  | [] => []
  | typed :: rest =>
    if typed.interrupted then []
    else
      match typed.line.map fun line => parseLine line.str with
      | none | some .etirw => []
      | some .invalid => typedWrites w rest
      | some (.write wordIdx content) => w.writeMessage wordIdx content :: typedWrites w rest

theorem typedWrites_cons (w : WriteCommand) {typed : Typed} (rest : List Typed) (h : ¬ typed.interrupted = true) :
    typedWrites w (typed :: rest) =
      match typed.line.map fun line => parseLine line.str with
      | none | some .etirw => []
      | some .invalid => typedWrites w rest
      | some (.write wordIdx content) => w.writeMessage wordIdx content :: typedWrites w rest := if_neg h

/-- What is left open: nothing, but the process ends at an interrupt with one connection at most, whose session it has
cancelled. No `CANCEL` is sent for a negative index, which is the client's mark for no session. -/
def Settled (w : WriteCommand) (s : Ledger) : WriteEnd → Prop
  | .interrupted => ∃ sock, s.SoleAt sock ∧ (0 ≤ w.sentIdx → s.link sock = .closed ∨ s.link sock = .ended)
  | _ => s.Idle

/-- So many writes are reported, and only if `all` that all were made. -/
def Reports (count : Nat) (all : Prop) : WriteEnd → Prop
  | .ended writeCount status => writeCount = count ∧ (status = true → all)
  | _ => True

theorem Reports.imp {count : Nat} {all all' : Prop} {e : WriteEnd} (h : Reports count all e) (hall : all → all') :
    Reports count all' e := by
  cases e with
  | ended n status => exact ⟨h.1, hall ∘ h.2⟩
  | _ => trivial

/-- How a session goes on from a state: what is left open, and the writes that are acknowledged from there on. -/
structure Written (w : WriteCommand) (typed : List Typed) (count : Nat) (status : Bool) (s : Ledger) (e : WriteEnd)
    (t : Ledger) : Prop where
  settled : Settled w t e
  acks : ∃ new, t.acks = s.acks ++ new ∧ List.Sublist new (typedWrites w typed) ∧
    Reports (count + new.length) (status = true ∧ new = typedWrites w typed) e

theorem monitored_finishWrite {w : WriteCommand} {socks : Sockets} {s : Ledger} (hok : socks.Ok s) (count : Nat)
    (status : Bool) :
    WriteMonitored w (fun e t => e = .ended count status ∧ t.Idle ∧ t.acks = s.acks) (finishWrite w socks count status)
      s := by
  cases hok with
  | apart hidle => exact .ite (fun h => nomatch (h : (0 : Int) < -1)) fun _ => .pure ⟨rfl, hidle, rfl⟩
  | @connected sock granted hpos hlink hfirst hsole =>
    refine .ite (fun _ => ?_) fun h => absurd hpos h
    refine monitored_send (by rw [WriteGood, hlink]; exact ⟨hfirst, .inr (.inl rfl)⟩) fun ok _ => ?_
    rw [Ledger.sent_leave hlink (show MSG_UNLOCK_SENTENCE ≠ MSG_WRITE by decide)]
    have hended : (s.setLink sock .ended).link sock = .ended := Ledger.setLink_self ..
    have hclose : WriteGood w (s.setLink sock .ended) (.close sock) := by rw [WriteGood, hended]; trivial
    refine .ite (fun _ => ?_) fun _ => monitored_close hclose (.pure ⟨rfl, (hsole.setLink _).close, rfl⟩)
    refine monitored_recv (by rw [WriteGood, hended]; trivial) fun answer => ?_
    rw [Ledger.received_ended hended]
    exact monitored_close hclose (.pure ⟨rfl, (hsole.setLink _).close, rfl⟩)

theorem monitored_performPendingUnlock {w : WriteCommand} {socks : Sockets} {s : Ledger} (hok : socks.Ok s) :
    WriteMonitored w (fun _ t => Settled w t .interrupted ∧ t.acks = s.acks) (performPendingUnlock w socks.current)
      s := by
  cases hok with
  | apart hidle =>
    exact .ite (fun h => nomatch (h.1 : (0 : Int) < -1)) fun _ =>
      .pure ⟨⟨0, hidle.soleAt 0, fun _ => .inl (hidle 0)⟩, rfl⟩
  | @connected sock granted hpos hlink hfirst hsole =>
    refine .ite (fun _ => ?_) fun h => .pure ⟨⟨sock, hsole, fun hge => absurd ⟨hpos, hge⟩ h⟩, rfl⟩
    refine monitored_send (by rw [WriteGood, hlink]; exact ⟨hfirst, .inr (.inr rfl)⟩) fun ok _ => ?_
    rw [Ledger.sent_leave hlink (show MSG_CANCEL_WRITE ≠ MSG_WRITE by decide)]
    have hended : (s.setLink sock .ended).link sock = .ended := Ledger.setLink_self ..
    have hleft : Settled w (s.setLink sock .ended) .interrupted := ⟨sock, hsole.setLink _, fun _ => .inr hended⟩
    refine .ite (fun _ => ?_) fun _ => .pure ⟨hleft, rfl⟩
    refine monitored_recv (by rw [WriteGood, hended]; trivial) fun answer => ?_
    rw [Ledger.received_ended hended]
    exact .pure ⟨hleft, rfl⟩

/-- A session ends here, with no more writes. -/
theorem Written.finish {w : WriteCommand} {typed : List Typed} {count : Nat} {status : Bool} {s t : Ledger}
    {e : WriteEnd} (hsettled : Settled w t e) (hacks : t.acks = s.acks)
    (hreports : Reports count (status = true ∧ typedWrites w typed = []) e) : Written w typed count status s e t where
  settled := hsettled
  acks := ⟨[], by rw [hacks, List.append_nil], List.nil_sublist _, hreports.imp fun h => ⟨h.1, h.2.symm⟩⟩

/-- After a line that writes: what holds from there on holds from before it. -/
theorem Written.cons {w : WriteCommand} {typed : Typed} {rest : List Typed} {msg : Message}
    {success status status' : Bool} {count : Nat} {s t u : Ledger} {e : WriteEnd}
    (htyped : typedWrites w (typed :: rest) = msg :: typedWrites w rest)
    (hacks : t.acks = s.acks ++ if success then [msg] else [])
    (hstatus : status' = true → status = true ∧ success = true)
    (h : Written w rest (if success then count + 1 else count) status' t e u) :
    Written w (typed :: rest) count status s e u where
  settled := h.settled
  acks := by
    obtain ⟨new, hnew, hsub, hreports⟩ := h.acks
    rw [htyped]
    cases success with
    | true =>
      refine ⟨msg :: new, by rw [hnew, hacks]; simp, hsub.cons_cons msg, ?_⟩
      rw [show count + (msg :: new).length = count + 1 + new.length by simp; omega]
      exact hreports.imp fun hall => ⟨(hstatus hall.1).1, congrArg _ hall.2⟩
    | false =>
      refine ⟨new, by rw [hnew, hacks]; simp, hsub.cons msg, ?_⟩
      exact hreports.imp fun hall => nomatch (hstatus hall.1).2

/-- **The loop over the lines.** -/
theorem monitored_writeLines (w : WriteCommand) : ∀ (typed : List Typed) {socks : Sockets} {s : Ledger} (count : Nat)
    (status : Bool), socks.Ok s →
      WriteMonitored w (Written w typed count status s) (writeLines w typed socks count status) s
  | [], _, _, count, status, hok =>
    (monitored_finishWrite hok count status).mono fun e t h => by
      obtain ⟨rfl, hidle, hacks⟩ := h
      exact .finish hidle hacks ⟨rfl, fun hstatus => ⟨hstatus, rfl⟩⟩
  | typed :: rest, socks, s, count, status, hok => by
    have hfinish (hnone : typedWrites w (typed :: rest) = []) :
        WriteMonitored w (Written w (typed :: rest) count status s) (finishWrite w socks count status) s :=
      (monitored_finishWrite hok count status).mono fun e t h => by
        obtain ⟨rfl, hidle, hacks⟩ := h
        exact .finish hidle hacks ⟨rfl, fun hstatus => ⟨hstatus, hnone⟩⟩
    rw [writeLines]
    split
    · exact (monitored_performPendingUnlock hok).bind fun _ t h => .pure (.finish h.1 h.2 trivial)
    next hint =>
    have htyped := typedWrites_cons w rest hint
    split
    · exact hfinish (by rw [htyped, ‹Option.map _ _ = _›])
    · exact hfinish (by rw [htyped, ‹Option.map _ _ = _›])
    next hline =>
      rw [hline] at htyped
      refine (monitored_writeLines w rest count status hok).mono fun e t h => ⟨h.settled, ?_⟩
      rw [htyped]
      exact h.acks
    next wordIdx content hline =>
      rw [hline] at htyped
      refine (monitored_tryWrite ⟨wordIdx, content, rfl⟩ 5 0 hok).bind fun tried t ht => ?_
      have hstop : WriteMonitored w (Written w (typed :: rest) count status s)
          (finishWrite w tried.sockets (if tried.success then count + 1 else count) false) t :=
        (monitored_finishWrite ht.ok _ false).mono fun e u h => by
          obtain ⟨rfl, hidle, hacks⟩ := h
          have hrest : Written w rest (if tried.success then count + 1 else count) false t (.ended _ false) u :=
            .finish hidle hacks ⟨rfl, nofun⟩
          exact .cons htyped ht.acks (fun h => absurd h Bool.false_ne_true) hrest
      refine .ite (fun _ => hstop) fun hrounds => .ite (fun hfail => ?_) fun _ => ?_
      · -- no round was used up, so the write was rejected
        have hrejected : tried.rejected = true :=
          (ht.failed (Bool.eq_false_of_not_eq_true hfail.1)).resolve_right (by omega)
        rw [hrejected, Bool.not_true, Bool.and_false]
        exact hstop
      · refine (monitored_writeLines w rest _ _ ht.ok).mono fun e u h => .cons htyped ht.acks (fun hstatus => ?_) h
        rw [Bool.and_eq_true, Bool.not_eq_true'] at hstatus
        refine ⟨hstatus.1, Bool.of_not_eq_false fun hfail => ?_⟩
        have hrejected := (ht.failed hfail).resolve_right fun hcount => hrounds ⟨by omega, by simp [hfail]⟩
        exact Bool.noConfusion (hrejected.symm.trans hstatus.2)

/-- **`handle_write`.** -/
theorem monitored_handleWrite (w : WriteCommand) (stale : Message) (typed : List Typed) :
    WriteMonitored w (Written w typed 0 true .start) (handleWrite w stale typed) .start := by
  have hstart : Ledger.start.Idle := fun _ => rfl
  refine monitored_nmSend fun _ => monitored_nmRecv fun answer => ?_
  refine .ite (fun _ => .pure (.finish hstart rfl trivial)) fun hstatus => ?_
  refine monitored_connect hstart (fun sock hneg => ?_) fun sock hpos => ?_
  · rw [if_pos hneg]
    exact .pure (.finish hstart rfl trivial)
  rw [if_neg (not_lt.mpr hpos.le)]
  have hfresh : (Ledger.start.opened sock).link sock = .fresh := Ledger.setLink_self ..
  have hsole : (Ledger.start.opened sock).SoleAt sock := (hstart.soleAt sock).setLink .fresh
  refine monitored_send (by rw [WriteGood, hfresh]) fun ok _ => ?_
  rw [Ledger.sent_fresh hfresh]
  have hasked : ((Ledger.start.opened sock).setLink sock .asked).link sock = .asked := Ledger.setLink_self ..
  refine monitored_recv (by rw [WriteGood, hasked]; trivial) fun lockAnswer => ?_
  have hlines (link : Link) (granted : Bool) (hlink : link = .session granted) :
      WriteMonitored w (Written w typed 0 true .start) (writeLines w typed ⟨sock, sock⟩ 0 true)
        (((Ledger.start.opened sock).setLink sock .asked).setLink sock link) := by
    subst hlink
    exact (monitored_writeLines w typed 0 true (.connected hpos (Ledger.setLink_self ..) (fun _ => rfl)
      ((hsole.setLink _).setLink _))).mono fun e t h => ⟨h.settled, h.acks⟩
  cases lockAnswer with
  | none =>
    rw [Ledger.received_asked_none hasked]
    exact .ite (fun h => absurd h hstatus) fun _ => hlines _ false rfl
  | some response =>
    rw [Ledger.received_asked hasked]
    refine .ite (fun hrefused : response.status ≠ SUCCESS => ?_)
      fun hgranted => hlines _ true (if_pos (not_not.mp hgranted))
    rw [if_neg hrefused]
    exact monitored_close (by rw [WriteGood, Ledger.setLink_self]; trivial)
      (.pure (.finish ((hsole.setLink _).setLink _).close rfl trivial))

/-! ## What holds of every session -/

/-- **What a session does.** However the connections fail, and whatever is answered, the client asks for the lock first
on each connection; it sends `WRITE`, `UNLOCK` or `CANCEL` only where the lock was granted, but for a first connection
on which the answer to `LOCK` has not come; it waits for the answer to one write before it sends the next; it has no two
connections, and closes none in a session it could still end. In the end all are closed; at an interrupt the session is
cancelled, if its index is not negative. -/
theorem write_protocol (w : WriteCommand) (stale : Message) (typed : List Typed) {cs : List (Call ClientOp.Ans)}
    (hrely : Relied Ledger.observe Ledger.Real .start cs) :
    (∀ op next, Trace (handleWrite w stale typed) cs (.call op next) →
      WriteGood w (cs.foldl Ledger.observe .start) op) ∧
    ∀ e, Trace (handleWrite w stale typed) cs (.done e) → Settled w (cs.foldl Ledger.observe .start) e := by
  refine ⟨fun op next htrace => ?_, fun e htrace => ?_⟩
  · have h : WriteMonitored w _ (.call op next) _ := (monitored_handleWrite w stale typed).of_trace htrace hrely
    exact h.1
  · have h : WriteMonitored w _ (.done e) _ := (monitored_handleWrite w stale typed).of_trace htrace hrely
    exact h.settled

/-- A user, two writes with a line between them that is none, and a storage server that goes away and comes back. -/
def aliceWrites : WriteCommand :=
  ⟨.strncpy (MAX_USERNAME - 1) (lit "alice"), .strncpy (MAX_FILENAME - 1) (lit "notes.txt"), 0⟩

def aliceTypes : List Typed :=
  [lit "1 Hello\n", lit "oops\n", lit "2 world\n", lit "ETIRW\n"].map fun line =>
    ⟨some (.strncpy (MAX_BUFFER - 1) line), false⟩

/-- The answer to a call by its number, which are also the sockets. -/
def answersAlice (k : Nat) : (op : ClientOp) → op.Ans
  | .nmSend _ => true
  | .nmRecv => some initMessage
  | .connectToSs _ => k
  | .send _ _ => k ≠ 11
  | .recv _ => some initMessage
  | .close _ => ()

def aliceCalls : List (Call ClientOp.Ans) :=
  (follow answersAlice 60 4 (handleWrite aliceWrites initMessage aliceTypes)).1

theorem relied_aliceCalls : Relied Ledger.observe Ledger.Real .start aliceCalls := by decide

theorem trace_aliceCalls :
    Trace (handleWrite aliceWrites initMessage aliceTypes) aliceCalls (.done (WriteEnd.ended 2 true)) :=
  trace_follow answersAlice 60 4 _

theorem write_protocol_alice : (aliceCalls.foldl Ledger.observe .start).Idle :=
  (write_protocol aliceWrites initMessage aliceTypes relied_aliceCalls).2 _ trace_aliceCalls

/-- **What is reported of the writes.** The number that is printed at the end is that of the writes that were answered
`SUCCESS`; these are writes that were typed, in their order and none twice, and success is reported only if they are
all. -/
theorem reported_writes (w : WriteCommand) (stale : Message) (typed : List Typed) {cs : List (Call ClientOp.Ans)}
    (hrely : Relied Ledger.observe Ledger.Real .start cs) {writeCount : Nat} {status : Bool}
    (htrace : Trace (handleWrite w stale typed) cs (.done (.ended writeCount status))) :
    writeCount = (cs.foldl Ledger.observe .start).acks.length ∧
    List.Sublist (cs.foldl Ledger.observe .start).acks (typedWrites w typed) ∧
    (status = true → (cs.foldl Ledger.observe .start).acks = typedWrites w typed) := by
  have h : WriteMonitored w _ (.done (WriteEnd.ended writeCount status)) _ :=
    (monitored_handleWrite w stale typed).of_trace htrace hrely
  obtain ⟨new, hnew, hsub, hcount, hall⟩ := h.acks
  rw [hnew]
  exact ⟨hcount.trans (Nat.zero_add _), hsub, fun hstatus => (hall hstatus).2⟩

theorem reported_writes_alice : (aliceCalls.foldl Ledger.observe .start).acks =
    [aliceWrites.writeMessage 1 (lit "Hello"), aliceWrites.writeMessage 2 (lit "world")] :=
  (reported_writes aliceWrites initMessage aliceTypes relied_aliceCalls trace_aliceCalls).2.2 rfl

end NetworkFileShare
