import NetworkFileShare.StorageServer.Matching
import NetworkFileShare.StorageServer.Deletion

/-!
# A client's connection (`ss.c`: the receive loop of `handle_client_request`)

* `Received` : what `recv_message` gives; `ClientThread` : the thread of one client beside the server's tables;
* `ClientThread.round` : one round of the loop, which goes on when `recv_message` fails;
* `CleansUp` : the thread leaves the loop while the server runs, and what was locked over the connection is free;
* `never_cleansUp` : it never does;
* `lock_stays` : a lock the client held stays taken through everything that does not name its owner.
-/

namespace NetworkFileShare

/-! ## The loop -/

/-- What `recv_message` gives: a message of the model, one that changes no table (`MSG_STREAM`, an unknown type), or
-1. -/
inductive Received where
  | request (io : Io) (r : Request)
  | other
  | failed

/-- The server, its flag `running`, and the thread of a client: what is still to be received before the peer closes
the connection, whether the loop has been left, and the locks that were given over the connection. -/
structure ClientThread where
  server : StorageServer
  running : Bool
  inbox : List Received
  left : Bool
  acquired : List SessionKey

/-- The lock a request has been given. -/
def Request.acquires (status : Int32) : Request → List SessionKey
  | .lockSentence f u i => if status = SUCCESS then [(f, u, i)] else []
  | _ => []

namespace ClientThread

/-- The body of the loop. After the last message the peer has closed, and every `recv_message` gives -1. -/
def receive (c : ClientThread) : ClientThread :=
  match c.inbox with
  | [] => c
  | .failed :: inbox => { c with inbox := inbox }
  | .other :: inbox => { c with inbox := inbox }
  | .request io r :: inbox =>
    match handleClientRequest io c.server r with
    | (server, status) => { c with
        server := server
        inbox := inbox
        acquired := c.acquired ++ r.acquires status }

/-- One round of `while (ss.running)`. -/
def round (c : ClientThread) : ClientThread :=
  if c.left then c
  else if c.running then c.receive
  else { c with left := true }

/-- A client connects. -/
def start (s : StorageServer) (inbox : List Received) : ClientThread := ⟨s, true, inbox, false, []⟩

end ClientThread

/-- The thread goes round, other threads handle something, or the server is stopped. -/
inductive ThreadEvent where
  | round
  | others (io : FsIo) (op : Operation)
  | stop

def ThreadStep (c : ClientThread) : ThreadEvent → ClientThread → Prop
  | .round, d => d = c.round
  | .others io op, d => d = { c with server := (op.handle io c.server).1 }
  | .stop, d => d = { c with running := false }

/-- The server goes on running. -/
def KeepsRunning (_ : ClientThread) (e : ThreadEvent) : Prop := e ≠ .stop

/-- In some run the thread leaves its loop while the server runs, and then neither a lock given over the connection is
held nor its session active. -/
def CleansUp (s : StorageServer) (inbox : List Received) : Prop :=
  ∃ es c, Run (Guarded KeepsRunning ThreadStep) (.start s inbox) es c ∧ c.left = true ∧
    ∀ k ∈ c.acquired, ¬ Holds c.server k.1 k.2.1 k.2.2 ∧ ¬ Active c.server k.1 k.2.1 k.2.2

theorem receive_running (c : ClientThread) : c.receive.running = c.running ∧ c.receive.left = c.left := by
  unfold ClientThread.receive
  split <;> exact ⟨rfl, rfl⟩

/-- The loop has one way out. -/
theorem round_left {c : ClientThread} (hrunning : c.running = true) (hleft : c.left = false) :
    c.round.running = true ∧ c.round.left = false := by
  unfold ClientThread.round
  rw [hleft, if_neg Bool.false_ne_true, hrunning, if_pos rfl, (receive_running c).1, (receive_running c).2]
  exact ⟨hrunning, hleft⟩

/-- **While the server runs, the thread of a client is in its loop**, whether its peer is there or not. -/
theorem in_loop {s : StorageServer} {inbox : List Received} {es : List ThreadEvent} {c : ClientThread}
    (h : Run (Guarded KeepsRunning ThreadStep) (.start s inbox) es c) : c.running = true ∧ c.left = false := by
  refine h.state_invariant (I := fun c => c.running = true ∧ c.left = false) ⟨rfl, rfl⟩ ?_
  rintro c e d ⟨hrunning, hleft⟩ ⟨hguard, hstep⟩
  cases e with
  | round =>
    obtain rfl : d = c.round := hstep
    exact round_left hrunning hleft
  | others io op =>
    obtain rfl : d = { c with server := (op.handle io c.server).1 } := hstep
    exact ⟨hrunning, hleft⟩
  | stop => exact absurd rfl hguard

/-- **No client's thread cleans up**, whatever it has received. -/
theorem never_cleansUp (s : StorageServer) (inbox : List Received) : ¬ CleansUp s inbox := by
  rintro ⟨es, c, hrun, hleft, -⟩
  rw [(in_loop hrun).2] at hleft
  cases hleft

/-! ## What is left behind -/

/-- The lock and the session of a user, if they are there, stay. -/
structure Stays (f : Filename) (u : Username) (i : Int32) (s t : StorageServer) : Prop where
  holds : Holds s f u i → Holds t f u i
  active : Active s f u i → Active t f u i

namespace Stays
variable {s t v : StorageServer} {f g : Filename} {u w : Username} {i j : Int32}

theorem refl (s : StorageServer) : Stays f u i s s := ⟨id, id⟩

theorem trans (h : Stays f u i s t) (h' : Stays f u i t v) : Stays f u i s v :=
  ⟨h'.holds ∘ h.holds, h'.active ∘ h.active⟩

theorem of_tables (hlocks : t.fileLocks = s.fileLocks) (hsessions : t.writeSessions = s.writeSessions) :
    Stays f u i s t := by
  refine ⟨fun h => ?_, fun h => ?_⟩
  · rw [Holds, hlocks]
    exact h
  · rw [Active, hsessions]
    exact h

/-- Somebody else's session is taken out. -/
theorem erase (hne : (g, w, j) ≠ (f, u, i)) (hlocks : t.fileLocks = s.fileLocks)
    (hsessions : t.writeSessions = s.writeSessions.eraseP (isSession g w j)) : Stays f u i s t := by
  refine ⟨fun h => ?_, fun ⟨x, hx, hkey⟩ => ⟨x, ?_, hkey⟩⟩
  · rw [Holds, hlocks]
    exact h
  · have hother : ¬ isSession g w j x = true := fun hsession => hne ((isSession_iff.mp hsession).symm.trans hkey)
    rw [hsessions]
    exact (List.mem_eraseP_of_neg hother).mpr hx

/-- Somebody else's lock is given back. -/
theorem unlock (hne : (g, w, j) ≠ (f, u, i)) (s : StorageServer) : Stays f u i s (unlockSentence s g j w).1 := by
  obtain ⟨tables, hunlock, -⟩ := unlockSentence_spec s g j w
  refine ⟨fun h => (holds_unlock s g f w u j i).mpr ⟨h, hne.symm⟩, fun h => ?_⟩
  rw [hunlock]
  exact h

/-- Somebody else is given a lock, or not. -/
theorem lock (hne : (g, w, j) ≠ (f, u, i)) (io : Io) (s : StorageServer) :
    Stays f u i s (lockSentence io s g j w).1 := by
  obtain ⟨tables, hlock, -⟩ := lockSentence_spec io s g j w
  refine ⟨fun h => ?_, fun h => ?_⟩
  · obtain ⟨hi, hheld⟩ := holds_iff.mp h
    rw [holds_iff, and_iff_right hi]
    rcases lockSentence_heldAt io s g j w with ⟨-, -, hsame⟩ | ⟨-, -, -, hsame⟩ | ⟨hj, hfree, -, htaken⟩
    · rw [hsame, hheld]
    · rw [hsame, hheld]
    · rw [htaken, if_neg, hheld]
      rintro ⟨rfl, hplace⟩
      obtain rfl := (place_eq_iff hj hi).mp hplace
      -- the lock is taken: it is given to its holder only
      have hsame : u.str = w.str := by
        by_contra hother
        exact hfree ⟨u.str, hheld, hother⟩
      exact hne (by rw [CArray.ext' hsame])
  · rw [hlock]
    exact h

/-- Somebody else's session begins, or not. -/
theorem start (hne : (g, w, j) ≠ (f, u, i)) (io : Io) (s : StorageServer) :
    Stays f u i s (startWriteSession io s g w j).1 := by
  rcases startWriteSession_cases io s g w j with ⟨hsame, -⟩ | ⟨t, x, hcreate, -, hres⟩
  · rw [hsame]
    exact refl s
  · have hactive : Active s f u i → Active t f u i := fun h => (active_create hcreate).mpr (Or.inl h)
    obtain ⟨ws, rfl, -⟩ := createWriteSession_spec hcreate
    have hcreated : Stays f u i s { s with writeSessions := ws } := ⟨id, hactive⟩
    rcases hres with ⟨-, -, hstarted⟩ | ⟨-, hremoved⟩
    · rw [hstarted]
      exact hcreated.trans (of_tables rfl rfl)
    · obtain ⟨disk, hremove, -⟩ := removeWriteSession_spec { s with writeSessions := ws } g w j
      rw [hremoved, hremove]
      exact hcreated.trans (erase hne rfl rfl)

/-- Requests that name somebody else. -/
theorem client (io : Io) {r : Request} (hne : r.names ≠ some (f, u, i)) (s : StorageServer) :
    Stays f u i s (handleClientRequest io s r).1 := by
  cases r with
  | read g => exact refl s
  | lockSentence g w j =>
    have hkey : (g, w, j) ≠ (f, u, i) := fun h => hne (congrArg some h)
    have hlock := lock hkey io s
    unfold handleClientRequest
    simp only
    split
    · exact refl s
    · rcases hres : lockSentence io s g j w with ⟨t, status⟩
      rw [hres] at hlock
      have hstart := hlock.trans (start hkey io t)
      simp only
      split
      · rcases hres' : startWriteSession io t g w j with ⟨v, sessionStatus⟩
        rw [hres'] at hstart
        simp only
        split
        · exact hstart.trans (unlock hkey v)
        · exact hstart
      · exact hlock
  | write g w j wordIdx data =>
    show Stays f u i s (writeFileSs io s g w j wordIdx data).1
    rcases writeFileSs_cases io s g w j wordIdx data with ⟨hsame, -⟩ | ⟨x, fc, k, -, -, hwrite⟩
    · rw [hsame]
      exact refl s
    · rw [hwrite]
      exact of_tables rfl rfl
  | unlockSentence g w j =>
    have hkey : (g, w, j) ≠ (f, u, i) := fun h => hne (congrArg some h)
    obtain ⟨disk, queues, hcommit⟩ := commitWriteSession_sessions io s g w j
    rw [handle_unlock, hcommit]
    exact (erase (s := s) (t := { s with
      disk := disk
      commitQueues := queues
      writeSessions := s.writeSessions.eraseP (isSession g w j) }) hkey rfl rfl).trans (unlock hkey _)
  | cancelWrite g w j =>
    have hkey : (g, w, j) ≠ (f, u, i) := fun h => hne (congrArg some h)
    obtain ⟨disk, hremove, -⟩ := removeWriteSession_spec s g w j
    show Stays f u i s (unlockSentence (removeWriteSession s g w j) g j w).1
    rw [hremove]
    exact (erase (s := s) (t := { s with
      disk := disk
      writeSessions := s.writeSessions.eraseP (isSession g w j) }) hkey rfl rfl).trans (unlock hkey _)
  | undo g =>
    unfold handleClientRequest
    simp only
    split
    · exact of_tables rfl rfl
    · exact refl s

/-- The commands of the name server. -/
theorem command (io : FsIo) (c : NmCommand) (s : StorageServer) : Stays f u i s (handleNmCommand io s c).1 := by
  cases c with
  | checkLocks g | viewCheckpoint g tag | readContent g => exact refl s
  | checkpoint g tag | revert g tag => exact of_tables rfl rfl
  | move g old new =>
    show Stays f u i s (moveFileSs io s g old new).1
    unfold moveFileSs
    simp only
    split
    · exact refl s
    · exact of_tables rfl rfl
  | create g =>
    show Stays f u i s (createFileSs io s g).1
    unfold createFileSs
    split
    · exact refl s
    · split
      · exact refl s
      · refine ⟨fun h => ?_, id⟩
        rw [holds_iff] at h ⊢
        rw [heldAt_init]
        exact h
  | delete g =>
    show Stays f u i s (deleteFileSs s g).1
    unfold deleteFileSs
    split
    · exact refl s
    · exact of_tables rfl rfl

theorem handle (io : FsIo) {op : Operation} (hne : op.names ≠ some (f, u, i)) (s : StorageServer) :
    Stays f u i s (op.handle io s).1 := by
  cases op with
  | client r => exact client io.toIo hne s
  | command c => exact command io c s

end Stays

/-- Nobody else uses the name of the client that has gone. -/
def NamesOthers (k : SessionKey) (_ : ClientThread) : ThreadEvent → Prop
  | .others _ op => op.names ≠ some k
  | .round | .stop => True

/-- **A lock that the client held stays**, and so does its session: whatever others do under their own names, in every
later state the sentence is locked and the file cannot be deleted. -/
theorem lock_stays {c d : ClientThread} {es : List ThreadEvent} {f : Filename} {u : Username} {i : Int32}
    (hgone : c.inbox = []) (hholds : Holds c.server f u i) (hactive : Active c.server f u i)
    (h : Run (Guarded (NamesOthers (f, u, i)) ThreadStep) c es d) :
    Holds d.server f u i ∧ Active d.server f u i ∧ checkFileLocks d.server f = true := by
  have hstays : d.inbox = [] ∧ Stays f u i c.server d.server := by
    refine h.state_invariant (I := fun e => e.inbox = [] ∧ Stays f u i c.server e.server) ⟨hgone, .refl _⟩ ?_
    rintro c' e d' ⟨hinbox, hstays⟩ ⟨hguard, hstep⟩
    cases e with
    | round =>
      obtain rfl : d' = c'.round := hstep
      have hreceive : c'.receive = c' := by
        unfold ClientThread.receive
        rw [hinbox]
      unfold ClientThread.round
      rw [hreceive]
      split
      · exact ⟨hinbox, hstays⟩
      · split <;> exact ⟨hinbox, hstays⟩
    | others io op =>
      obtain rfl : d' = { c' with server := (op.handle io c'.server).1 } := hstep
      exact ⟨hinbox, hstays.trans (.handle io hguard c'.server)⟩
    | stop =>
      obtain rfl : d' = { c' with running := false } := hstep
      exact ⟨hinbox, hstays⟩
  have hholds' := hstays.2.holds hholds
  exact ⟨hholds', hstays.2.active hactive, checkFileLocks_iff.mpr ⟨_, _, (holds_iff.mp hholds').2⟩⟩

/-- Alice locks a sentence and vanishes. -/
def vanished : ClientThread :=
  (ClientThread.start emptyServer [.request Io.allOpens (.lockSentence notes alice 0)]).round

/-- **A client that locks a sentence and vanishes**: its thread goes round for ever, and in every later state the
sentence is locked and its session active, unless somebody comes under the client's name. -/
theorem vanished_keeps_lock :
    Run (Guarded KeepsRunning ThreadStep) (.start emptyServer [.request Io.allOpens (.lockSentence notes alice 0)])
        [.round] vanished ∧
      vanished.inbox = [] ∧ vanished.acquired = [(notes, alice, 0)] ∧
      (∀ es d, Run (Guarded (NamesOthers (notes, alice, 0)) ThreadStep) vanished es d →
        Holds d.server notes alice 0 ∧ Active d.server notes alice 0 ∧ checkFileLocks d.server notes = true) ∧
      ¬ CleansUp emptyServer [.request Io.allOpens (.lockSentence notes alice 0)] := by
  have hrun : Run (Guarded KeepsRunning ThreadStep)
      (.start emptyServer [.request Io.allOpens (.lockSentence notes alice 0)]) [.round] vanished :=
    .single ⟨(nofun : ThreadEvent.round ≠ .stop), rfl⟩
  have hholds : Holds vanished.server notes alice 0 := ⟨⟨true, alice.str⟩, by decide, rfl, rfl⟩
  have hactive : Active vanished.server notes alice 0 := by
    refine active_iff.mpr (Option.isSome_iff_exists.mp ?_)
    decide
  refine ⟨hrun, rfl, by decide, fun es d h => lock_stays rfl hholds hactive h, ?_⟩
  rintro ⟨es, c, hclean, hleft, -⟩
  rw [(in_loop hclean).2] at hleft
  cases hleft

end NetworkFileShare
