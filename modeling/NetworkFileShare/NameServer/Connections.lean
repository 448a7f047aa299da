import NetworkFileShare.Common
import NetworkFileShare.Lib.Run
import Mathlib.Logic.Function.Basic

/-!
# Connections of storage servers (`nm.c`: registration, watching, heartbeats, the monitor)

* `Sock` : a descriptor number with the connection that `accept` gave it for; `ConnThread`, `SsSlot` : what the
  threads and the slots of `ss_list` remember;
* `Connections`, `ConnStep` : the descriptors of the process, its threads and slots, and the steps between two calls
  that other threads may see; `closes` : the numbers a step closes;
* `thread_of_step`, `slot_of_step`, `mutex_of_step`, `fds_of_step` : all that a step can do.
-/

namespace NetworkFileShare

/-! ## The state -/

/-- A descriptor number as it is remembered, and the connection that `accept` returned it for. -/
structure Sock where
  fd : Nat
  conn : Nat
  deriving DecidableEq

/-- The other end; each run of a storage server makes one command and one heartbeat connection. -/
inductive Peer where
  | storage (life : Nat)
  | heartbeat (life : Nat)
  | client
  deriving DecidableEq

/-- Where the thread of a connection stands; a registration still has the sockets `old` to close. -/
inductive Phase where
  | greeting
  | closingOld (id : Int32) (old : List Sock)
  | serving (id : Int32)
  | leaving
  deriving DecidableEq

structure ConnThread where
  sock : Sock
  peer : Peer
  phase : Phase
  deriving DecidableEq

/-- The sockets of an entry of `ss_list`, its flag, and the run that registered it last. -/
structure SsSlot where
  id : Int32
  sock : Sock
  hbSock : Option Sock
  active : Bool
  life : Nat
  deriving DecidableEq

/-- `fds` has the connection an open number belongs to, `mutex` the thread that holds `ss_mutex` over several steps. -/
structure Connections where
  fds : Nat → Option Nat
  next : Nat
  connected : List Peer
  threads : Nat → Option ConnThread
  slots : List SsSlot
  mutex : Option Nat
  failed : Nat → Bool

/-- The name server when it starts to listen, with its first `base` numbers in use. -/
def startListening (base : Nat) : Connections where
  fds := fun n => if n < base then some n else none
  next := base
  connected := []
  threads := fun _ => none
  slots := []
  mutex := none
  failed := fun _ => false

/-! ## Slots -/

/-- The first slot of that id. -/
def findSlot (id : Int32) (slots : List SsSlot) : Option SsSlot := slots.find? (·.id = id)

/-- The first slot of that id changed by `f`. -/
def modifySlot (id : Int32) (f : SsSlot → SsSlot) : List SsSlot → List SsSlot
  | [] => []
  | k :: ks => if k.id = id then f k :: ks else k :: modifySlot id f ks

/-- The slot of a registration: the old one of that id, or one at the end. -/
def putSlot (new : SsSlot) (slots : List SsSlot) : List SsSlot :=
  match findSlot new.id slots with
  | some _ => modifySlot new.id (fun _ => new) slots
  | none => slots ++ [new]

section Slots
variable {id id' : Int32} {f : SsSlot → SsSlot} {slots : List SsSlot} {k : SsSlot}

theorem id_of_findSlot (h : findSlot id slots = some k) : k.id = id := by
  simpa using List.find?_some h

theorem findSlot_cons : findSlot id (k :: slots) = if k.id = id then some k else findSlot id slots := by
  unfold findSlot
  rw [List.find?_cons]
  by_cases h : k.id = id <;> simp [h]

theorem findSlot_modify_self (hf : ∀ k, k.id = id → (f k).id = id) :
    findSlot id (modifySlot id f slots) = (findSlot id slots).map f := by
  induction slots with
  | nil => rfl
  | cons k ks ih =>
    unfold modifySlot
    by_cases h : k.id = id
    · rw [if_pos h, findSlot_cons, findSlot_cons, if_pos h, if_pos (hf k h)]
      rfl
    · rw [if_neg h, findSlot_cons, findSlot_cons, if_neg h, if_neg h, ih]

theorem findSlot_modify_of_ne (hf : ∀ k, k.id = id → (f k).id = id) (hne : id' ≠ id) :
    findSlot id' (modifySlot id f slots) = findSlot id' slots := by
  induction slots with
  | nil => rfl
  | cons k ks ih =>
    unfold modifySlot
    by_cases h : k.id = id
    · rw [if_pos h, findSlot_cons, findSlot_cons, if_neg, if_neg]
      · rintro rfl
        exact hne h
      · intro he
        exact hne (he.symm.trans (hf k h))
    · rw [if_neg h, findSlot_cons, findSlot_cons, ih]

theorem findSlot_put_self : findSlot k.id (putSlot k slots) = some k := by
  unfold putSlot
  cases hfind : findSlot k.id slots with
  | some old => rw [findSlot_modify_self (fun _ _ => rfl), hfind, Option.map_some]
  | none =>
    unfold findSlot at hfind ⊢
    rw [List.find?_append, hfind]
    simp

theorem findSlot_put_of_ne (hne : id ≠ k.id) : findSlot id (putSlot k slots) = findSlot id slots := by
  unfold putSlot
  cases hfind : findSlot k.id slots with
  | some old => exact findSlot_modify_of_ne (fun _ _ => rfl) hne
  | none =>
    unfold findSlot
    rw [List.find?_append]
    simp [hne.symm]

end Slots

/-! ## The steps -/

namespace Connections

/-- The thread of connection `c` goes on to `phase`. -/
def goto (s : Connections) (c : Nat) (th : ConnThread) (phase : Phase) : Connections :=
  { s with threads := Function.update s.threads c (some { th with phase := phase }) }

def closeFd (s : Connections) (n : Nat) : Connections := { s with fds := Function.update s.fds n none }

def modify (s : Connections) (id : Int32) (f : SsSlot → SsSlot) : Connections :=
  { s with slots := modifySlot id f s.slots }

/-- `accept`, and the thread of the new connection. -/
def accept (s : Connections) (peer : Peer) (n : Nat) : Connections :=
  { s with
    fds := Function.update s.fds n (some s.next)
    next := s.next + 1
    connected := peer :: s.connected
    threads := Function.update s.threads s.next (some ⟨⟨n, s.next⟩, peer, .greeting⟩) }

/-- `handle_ss_connection` up to the old sockets. -/
def register (s : Connections) (c : Nat) (th : ConnThread) (id : Int32) : Connections :=
  match findSlot id s.slots with
  | some k =>
    { (s.modify id fun k => { k with active := false }).goto c th (.closingOld id (k.sock :: k.hbSock.toList)) with
      mutex := some c }
  | none =>
    if s.slots.length ≥ MAX_SS then s.goto c th .leaving
    else { s.goto c th (.closingOld id []) with mutex := some c }

/-- `handle_ss_connection` from the old sockets to the end of the registration. -/
def finishRegister (s : Connections) (c : Nat) (th : ConnThread) (id : Int32) (life : Nat) : Connections :=
  { s.goto c th (.serving id) with slots := putSlot ⟨id, th.sock, none, true, life⟩ s.slots, mutex := none }

/-- One round of the loop that watches the slot. -/
def watch (s : Connections) (c : Nat) (th : ConnThread) (id : Int32) : Connections :=
  if (findSlot id s.slots).any (·.active) then s else s.goto c th .leaving

/-- `handle_ss_heartbeat` when it knows whose heartbeats these are. -/
def introduce (s : Connections) (c : Nat) (th : ConnThread) (id : Int32) : Connections :=
  (s.modify id fun k => { k with hbSock := some th.sock }).goto c th (.serving id)

/-- `handle_ss_heartbeat` after its loop. -/
def heartbeatLost (s : Connections) (c : Nat) (th : ConnThread) (id : Int32) : Connections :=
  (s.modify id fun k => { k with hbSock := none, active := false }).goto c th .leaving

/-- The last `close` of a thread. -/
def closeOwn (s : Connections) (c : Nat) (th : ConnThread) : Connections :=
  { s.closeFd th.sock.fd with threads := Function.update s.threads c none }

/-- `heartbeat_monitor` at a slot that has been idle for too long. -/
def expire (s : Connections) (k : SsSlot) : Connections :=
  { s.modify k.id fun k => { k with active := false, hbSock := none } with
    fds := (k.hbSock.map fun x => Function.update s.fds x.fd none).getD s.fds }

/-- `recv_message` fails: the connection has failed, or the number is closed, or it is that of one that has failed. -/
def RecvFails (s : Connections) (th : ConnThread) : Prop :=
  s.failed th.sock.conn = true ∨ (s.fds th.sock.fd).all s.failed = true

instance (s : Connections) (th : ConnThread) : Decidable (s.RecvFails th) := inferInstanceAs (Decidable (_ ∨ _))

end Connections

inductive ConnEvent where
  | accept (peer : Peer) (n : Nat)
  | register (c : Nat) (id : Int32)
  | closeOld (c : Nat)
  | finishRegister (c : Nat)
  | watch (c : Nat)
  | introduce (c : Nat) (id : Int32)
  | heartbeatLost (c : Nat)
  | leave (c : Nat)
  | close (c : Nat)
  | expire (id : Int32)
  | fail (c : Nat)
  deriving DecidableEq

/-- `accept` returns the lowest free number. A connection ends in its `greeting` when its first message is not what is
expected; the whole service of a client is left in this phase. -/
def ConnStep (s : Connections) (e : ConnEvent) (t : Connections) : Prop :=
  match e with
  | .accept peer n => (peer = .client ∨ peer ∉ s.connected) ∧ s.fds n = none ∧ (∀ m < n, s.fds m ≠ none) ∧
      t = s.accept peer n
  | .register c id => ∃ th life, s.threads c = some th ∧ th.phase = .greeting ∧ th.peer = .storage life ∧
      s.mutex = none ∧ t = s.register c th id
  | .closeOld c => ∃ th id x old, s.threads c = some th ∧ th.phase = .closingOld id (x :: old) ∧
      t = (s.closeFd x.fd).goto c th (.closingOld id old)
  | .finishRegister c => ∃ th id life, s.threads c = some th ∧ th.phase = .closingOld id [] ∧
      th.peer = .storage life ∧ t = s.finishRegister c th id life
  | .watch c => ∃ th id life, s.threads c = some th ∧ th.phase = .serving id ∧ th.peer = .storage life ∧
      s.mutex = none ∧ t = s.watch c th id
  | .introduce c id => ∃ th life, s.threads c = some th ∧ th.phase = .greeting ∧ th.peer = .heartbeat life ∧
      s.mutex = none ∧ t = s.introduce c th id
  | .heartbeatLost c => ∃ th id life, s.threads c = some th ∧ th.phase = .serving id ∧ th.peer = .heartbeat life ∧
      s.mutex = none ∧ s.RecvFails th ∧ t = s.heartbeatLost c th id
  | .leave c => ∃ th, s.threads c = some th ∧ th.phase = .greeting ∧ t = s.goto c th .leaving
  | .close c => ∃ th, s.threads c = some th ∧ th.phase = .leaving ∧ t = s.closeOwn c th
  | .expire id => ∃ k, findSlot id s.slots = some k ∧ k.active = true ∧ s.mutex = none ∧ t = s.expire k
  | .fail c => t = { s with failed := Function.update s.failed c true }

/-- The sockets whose numbers the step closes. -/
def Connections.closes (s : Connections) : ConnEvent → List Sock
  | .closeOld c =>
    match (s.threads c).map ConnThread.phase with
    | some (.closingOld _ (x :: _)) => [x]
    | _ => []
  | .close c => ((s.threads c).map ConnThread.sock).toList
  | .expire id => ((findSlot id s.slots).bind SsSlot.hbSock).toList
  | _ => []

/-! ## What a step can do -/

/-- The slot of that id remembers the socket. -/
def Connections.SlotHolds (s : Connections) (id : Int32) (x : Sock) : Prop :=
  ∃ k, findSlot id s.slots = some k ∧ (x = k.sock ∨ k.hbSock = some x)

/-- The ways a thread goes on. -/
inductive PhaseChange (s t : Connections) (d : Nat) (th : ConnThread) : ConnEvent → Phase → Prop where
  | leaving {e : ConnEvent} : PhaseChange s t d th e .leaving
  | register {id : Int32} {life : Nat} {old : List Sock} (greeting : th.phase = .greeting)
      (peer : th.peer = .storage life) (free : s.mutex = none) (locked : t.mutex = some d)
      (old_of_slot : ∀ x ∈ old, s.SlotHolds id x) :
      PhaseChange s t d th (.register d id) (.closingOld id old)
  | closeOld {id : Int32} {x : Sock} {old : List Sock} (closing : th.phase = .closingOld id (x :: old)) :
      PhaseChange s t d th (.closeOld d) (.closingOld id old)
  | finishRegister {id : Int32} {life : Nat} (closing : th.phase = .closingOld id []) (peer : th.peer = .storage life) :
      PhaseChange s t d th (.finishRegister d) (.serving id)
  | introduce {id : Int32} {life : Nat} (greeting : th.phase = .greeting) (peer : th.peer = .heartbeat life)
      (free : s.mutex = none) : PhaseChange s t d th (.introduce d id) (.serving id)

/-- The ways the slot of an id changes. -/
inductive SlotChange (s : Connections) (id : Int32) : ConnEvent → SsSlot → SsSlot → Prop where
  | register {c : Nat} {k : SsSlot} : SlotChange s id (.register c id) k { k with active := false }
  | introduce {c life : Nat} {th : ConnThread} {k : SsSlot} (thread : s.threads c = some th)
      (peer : th.peer = .heartbeat life) : SlotChange s id (.introduce c id) k { k with hbSock := some th.sock }
  | heartbeatLost {c life : Nat} {th : ConnThread} {k : SsSlot} (thread : s.threads c = some th)
      (serving : th.phase = .serving id) (peer : th.peer = .heartbeat life) (fails : s.RecvFails th) :
      SlotChange s id (.heartbeatLost c) k { k with hbSock := none, active := false }
  | expire {k : SsSlot} : SlotChange s id (.expire id) k { k with active := false, hbSock := none }

section Steps
variable {s t : Connections} {e : ConnEvent} {c d : Nat} {th th' : ConnThread} {p : Phase} {id : Int32}

/-- A thread that goes on by one of the ways there are. -/
theorem change_of_goto (hc : s.threads c = some th) (hchange : PhaseChange s t c th e p)
    (hd : Function.update s.threads c (some { th with phase := p }) d = some th') :
    ∃ th₀, s.threads d = some th₀ ∧ th'.sock = th₀.sock ∧ th'.peer = th₀.peer ∧
      (th'.phase = th₀.phase ∨ PhaseChange s t d th₀ e th'.phase) := by
  by_cases hdc : d = c
  · subst hdc
    rw [Function.update_self] at hd
    obtain rfl := Option.some.inj hd
    exact ⟨th, hc, rfl, rfl, Or.inr hchange⟩
  · rw [Function.update_of_ne hdc] at hd
    exact ⟨th', hd, rfl, rfl, Or.inl rfl⟩

/-- **What a step does to a thread.** -/
theorem thread_of_step (h : ConnStep s e t) (hd : t.threads d = some th') :
    (∃ peer n, e = .accept peer n ∧ d = s.next ∧ th' = ⟨⟨n, s.next⟩, peer, .greeting⟩) ∨
      ∃ th, s.threads d = some th ∧ th'.sock = th.sock ∧ th'.peer = th.peer ∧
        (th'.phase = th.phase ∨ PhaseChange s t d th e th'.phase) := by
  cases e with
  | accept peer n =>
    obtain ⟨-, -, -, rfl⟩ := h
    change Function.update s.threads s.next _ d = some th' at hd
    by_cases hdn : d = s.next
    · subst hdn
      rw [Function.update_self] at hd
      exact Or.inl ⟨peer, n, rfl, rfl, (Option.some.inj hd).symm⟩
    · rw [Function.update_of_ne hdn] at hd
      exact Or.inr ⟨th', hd, rfl, rfl, Or.inl rfl⟩
  | register c id =>
    obtain ⟨th, life, hc, hgreet, hpeer, hfree, rfl⟩ := h
    unfold Connections.register at hd
    right
    split at hd
    · rename_i k hk
      refine change_of_goto hc (.register hgreet hpeer hfree ?_ fun x hx => ⟨k, hk, ?_⟩) hd
      · unfold Connections.register
        simp only [hk]
      · rw [List.mem_cons, Option.mem_toList] at hx
        exact hx
    · rename_i hnone
      split at hd
      · exact change_of_goto hc .leaving hd
      · rename_i hroom
        refine change_of_goto hc (.register hgreet hpeer hfree ?_ fun x hx => absurd hx List.not_mem_nil) hd
        unfold Connections.register
        simp only [hnone, if_neg hroom]
  | closeOld c =>
    obtain ⟨th, id, x, old, hc, hphase, rfl⟩ := h
    exact Or.inr (change_of_goto hc (.closeOld hphase) hd)
  | finishRegister c =>
    obtain ⟨th, id, life, hc, hphase, hpeer, rfl⟩ := h
    exact Or.inr (change_of_goto hc (.finishRegister hphase hpeer) hd)
  | watch c =>
    obtain ⟨th, id, life, hc, hphase, hpeer, hfree, rfl⟩ := h
    unfold Connections.watch at hd
    right
    split at hd
    · exact ⟨th', hd, rfl, rfl, Or.inl rfl⟩
    · exact change_of_goto hc .leaving hd
  | introduce c id =>
    obtain ⟨th, life, hc, hgreet, hpeer, hfree, rfl⟩ := h
    exact Or.inr (change_of_goto hc (.introduce hgreet hpeer hfree) hd)
  | heartbeatLost c =>
    obtain ⟨th, id, life, hc, hphase, hpeer, hfree, hfails, rfl⟩ := h
    exact Or.inr (change_of_goto hc .leaving hd)
  | leave c =>
    obtain ⟨th, hc, hgreet, rfl⟩ := h
    exact Or.inr (change_of_goto hc .leaving hd)
  | close c =>
    obtain ⟨th, hc, hphase, rfl⟩ := h
    change Function.update s.threads c none d = some th' at hd
    by_cases hdc : d = c
    · subst hdc
      rw [Function.update_self] at hd
      cases hd
    · rw [Function.update_of_ne hdc] at hd
      exact Or.inr ⟨th', hd, rfl, rfl, Or.inl rfl⟩
  | expire id =>
    obtain ⟨k, hk, hactive, hfree, rfl⟩ := h
    exact Or.inr ⟨th', hd, rfl, rfl, Or.inl rfl⟩
  | fail c =>
    obtain rfl := h
    exact Or.inr ⟨th', hd, rfl, rfl, Or.inl rfl⟩

/-- The slot of an id after the slot of `id'` has been changed. -/
theorem slot_of_modify {id' : Int32} {k' : SsSlot} (f : SsSlot → SsSlot) (hf : ∀ k, (f k).id = k.id)
    (h : findSlot id (modifySlot id' f s.slots) = some k') :
    findSlot id s.slots = some k' ∨ id = id' ∧ ∃ k, findSlot id s.slots = some k ∧ k' = f k := by
  by_cases hid : id = id'
  · subst hid
    rw [findSlot_modify_self fun k hk => (hf k).trans hk, Option.map_eq_some_iff] at h
    obtain ⟨k, hk, rfl⟩ := h
    exact Or.inr ⟨rfl, k, hk, rfl⟩
  · rw [findSlot_modify_of_ne (fun k hk => (hf k).trans hk) hid] at h
    exact Or.inl h

/-- **What a step does to the slot of an id.** -/
theorem slot_of_step {k' : SsSlot} (h : ConnStep s e t) (hk' : findSlot id t.slots = some k') :
    findSlot id s.slots = some k' ∨
      (∃ c th life, e = .finishRegister c ∧ s.threads c = some th ∧ th.phase = .closingOld id [] ∧
        th.peer = .storage life ∧ k' = ⟨id, th.sock, none, true, life⟩) ∨
      ∃ k, findSlot id s.slots = some k ∧ SlotChange s id e k k' := by
  cases e with
  | accept peer n =>
    obtain ⟨-, -, -, rfl⟩ := h
    exact Or.inl hk'
  | register c id' =>
    obtain ⟨th, life, hc, hgreet, hpeer, hfree, rfl⟩ := h
    unfold Connections.register at hk'
    split at hk'
    · rcases slot_of_modify (fun k => { k with active := false }) (fun _ => rfl) hk' with h | ⟨rfl, k, hk, rfl⟩
      · exact Or.inl h
      · exact Or.inr (Or.inr ⟨k, hk, .register⟩)
    · split at hk' <;> exact Or.inl hk'
  | closeOld c =>
    obtain ⟨th, id', x, old, hc, hphase, rfl⟩ := h
    exact Or.inl hk'
  | finishRegister c =>
    obtain ⟨th, id', life, hc, hphase, hpeer, rfl⟩ := h
    change findSlot id (putSlot ⟨id', th.sock, none, true, life⟩ s.slots) = some k' at hk'
    by_cases hid : id = id'
    · subst hid
      rw [findSlot_put_self (k := ⟨id, th.sock, none, true, life⟩)] at hk'
      exact Or.inr (Or.inl ⟨c, th, life, rfl, hc, hphase, hpeer, (Option.some.inj hk').symm⟩)
    · rw [findSlot_put_of_ne hid] at hk'
      exact Or.inl hk'
  | watch c =>
    obtain ⟨th, id', life, hc, hphase, hpeer, hfree, rfl⟩ := h
    unfold Connections.watch at hk'
    split at hk' <;> exact Or.inl hk'
  | introduce c id' =>
    obtain ⟨th, life, hc, hgreet, hpeer, hfree, rfl⟩ := h
    rcases slot_of_modify (fun k => { k with hbSock := some th.sock }) (fun _ => rfl) hk' with h | ⟨rfl, k, hk, rfl⟩
    · exact Or.inl h
    · exact Or.inr (Or.inr ⟨k, hk, .introduce hc hpeer⟩)
  | heartbeatLost c =>
    obtain ⟨th, id', life, hc, hphase, hpeer, hfree, hfails, rfl⟩ := h
    rcases slot_of_modify (fun k => { k with hbSock := none, active := false }) (fun _ => rfl) hk' with
      h | ⟨rfl, k, hk, rfl⟩
    · exact Or.inl h
    · exact Or.inr (Or.inr ⟨k, hk, .heartbeatLost hc hphase hpeer hfails⟩)
  | leave c =>
    obtain ⟨th, hc, hgreet, rfl⟩ := h
    exact Or.inl hk'
  | close c =>
    obtain ⟨th, hc, hphase, rfl⟩ := h
    exact Or.inl hk'
  | expire id' =>
    obtain ⟨k, hk, hactive, hfree, rfl⟩ := h
    rcases slot_of_modify (fun k => { k with active := false, hbSock := none }) (fun _ => rfl) hk' with
      h | ⟨hid, k₀, hk₀, rfl⟩
    · exact Or.inl h
    · rw [id_of_findSlot hk] at hid
      subst hid
      exact Or.inr (Or.inr ⟨k₀, hk₀, .expire⟩)
  | fail c =>
    obtain rfl := h
    exact Or.inl hk'

/-- The mutex is taken by a registration and given back at its end. -/
theorem mutex_of_step (h : ConnStep s e t) :
    t.mutex = s.mutex ∨ (s.mutex = none ∧ ∃ c id, e = .register c id ∧ t.mutex = some c) ∨
      ∃ c th id, e = .finishRegister c ∧ s.threads c = some th ∧ th.phase = .closingOld id [] := by
  cases e with
  | accept peer n =>
    obtain ⟨-, -, -, rfl⟩ := h
    exact Or.inl rfl
  | register c id =>
    obtain ⟨th, life, hc, hgreet, hpeer, hfree, rfl⟩ := h
    unfold Connections.register
    split
    · exact Or.inr (Or.inl ⟨hfree, c, id, rfl, rfl⟩)
    · split
      · exact Or.inl rfl
      · exact Or.inr (Or.inl ⟨hfree, c, id, rfl, rfl⟩)
  | closeOld c =>
    obtain ⟨th, id, x, old, hc, hphase, rfl⟩ := h
    exact Or.inl rfl
  | finishRegister c =>
    obtain ⟨th, id, life, hc, hphase, hpeer, rfl⟩ := h
    exact Or.inr (Or.inr ⟨c, th, id, rfl, hc, hphase⟩)
  | watch c =>
    obtain ⟨th, id, life, hc, hphase, hpeer, hfree, rfl⟩ := h
    unfold Connections.watch
    split <;> exact Or.inl rfl
  | introduce c id =>
    obtain ⟨th, life, hc, hgreet, hpeer, hfree, rfl⟩ := h
    exact Or.inl rfl
  | heartbeatLost c =>
    obtain ⟨th, id, life, hc, hphase, hpeer, hfree, hfails, rfl⟩ := h
    exact Or.inl rfl
  | leave c =>
    obtain ⟨th, hc, hgreet, rfl⟩ := h
    exact Or.inl rfl
  | close c =>
    obtain ⟨th, hc, hphase, rfl⟩ := h
    exact Or.inl rfl
  | expire id =>
    obtain ⟨k, hk, hactive, hfree, rfl⟩ := h
    exact Or.inl rfl
  | fail c =>
    obtain rfl := h
    exact Or.inl rfl

theorem update_none_cases (fds : Nat → Option Nat) (m n : Nat) :
    Function.update fds m none n = fds n ∨ Function.update fds m none n = none ∧ m = n := by
  by_cases hmn : n = m
  · subst hmn
    exact Or.inr ⟨Function.update_self _ _ _, rfl⟩
  · exact Or.inl (Function.update_of_ne hmn _ _)

/-- **What a step does to a descriptor number.** -/
theorem fds_of_step (h : ConnStep s e t) (n : Nat) :
    t.fds n = s.fds n ∨ (t.fds n = none ∧ ∃ x ∈ s.closes e, x.fd = n) ∨
      ∃ peer, e = .accept peer n ∧ s.fds n = none ∧ t.fds n = some s.next := by
  cases e with
  | accept peer m =>
    obtain ⟨-, hfree, -, rfl⟩ := h
    by_cases hmn : n = m
    · subst hmn
      exact Or.inr (Or.inr ⟨peer, rfl, hfree, Function.update_self _ _ _⟩)
    · exact Or.inl (Function.update_of_ne hmn _ _)
  | register c id =>
    obtain ⟨th, life, hc, hgreet, hpeer, hfree, rfl⟩ := h
    unfold Connections.register
    left
    split
    · rfl
    · split <;> rfl
  | closeOld c =>
    obtain ⟨th, id, x, old, hc, hphase, rfl⟩ := h
    rcases update_none_cases s.fds x.fd n with hsame | ⟨hnone, hn⟩
    · exact Or.inl hsame
    · refine Or.inr (Or.inl ⟨hnone, x, ?_, hn⟩)
      simp [Connections.closes, hc, hphase]
  | finishRegister c =>
    obtain ⟨th, id, life, hc, hphase, hpeer, rfl⟩ := h
    exact Or.inl rfl
  | watch c =>
    obtain ⟨th, id, life, hc, hphase, hpeer, hfree, rfl⟩ := h
    unfold Connections.watch
    split <;> exact Or.inl rfl
  | introduce c id =>
    obtain ⟨th, life, hc, hgreet, hpeer, hfree, rfl⟩ := h
    exact Or.inl rfl
  | heartbeatLost c =>
    obtain ⟨th, id, life, hc, hphase, hpeer, hfree, hfails, rfl⟩ := h
    exact Or.inl rfl
  | leave c =>
    obtain ⟨th, hc, hgreet, rfl⟩ := h
    exact Or.inl rfl
  | close c =>
    obtain ⟨th, hc, hphase, rfl⟩ := h
    rcases update_none_cases s.fds th.sock.fd n with hsame | ⟨hnone, hn⟩
    · exact Or.inl hsame
    · refine Or.inr (Or.inl ⟨hnone, th.sock, ?_, hn⟩)
      simp [Connections.closes, hc]
  | expire id =>
    obtain ⟨k, hk, hactive, hfree, rfl⟩ := h
    unfold Connections.expire
    cases hhb : k.hbSock with
    | none => exact Or.inl rfl
    | some x =>
      rcases update_none_cases s.fds x.fd n with hsame | ⟨hnone, hn⟩
      · exact Or.inl hsame
      · refine Or.inr (Or.inl ⟨hnone, x, ?_, hn⟩)
        simp [Connections.closes, hk, hhb]
  | fail c =>
    obtain rfl := h
    exact Or.inl rfl

/-- Only a connection that is accepted counts: all other steps keep the counter and who has connected. -/
theorem accept_or_kept (h : ConnStep s e t) :
    (∃ peer n, e = .accept peer n) ∨
      (∀ peer n, e ≠ .accept peer n) ∧ t.next = s.next ∧ t.connected = s.connected := by
  cases e with
  | accept peer n => exact Or.inl ⟨peer, n, rfl⟩
  | register c id =>
    obtain ⟨th, life, hc, hgreet, hpeer, hfree, rfl⟩ := h
    refine Or.inr ⟨nofun, ?_⟩
    unfold Connections.register
    split
    · exact ⟨rfl, rfl⟩
    · split <;> exact ⟨rfl, rfl⟩
  | watch c =>
    obtain ⟨th, id, life, hc, hphase, hpeer, hfree, rfl⟩ := h
    refine Or.inr ⟨nofun, ?_⟩
    unfold Connections.watch
    split <;> exact ⟨rfl, rfl⟩
  | closeOld c =>
    obtain ⟨th, id, x, old, hc, hphase, rfl⟩ := h
    exact Or.inr ⟨nofun, rfl, rfl⟩
  | finishRegister c =>
    obtain ⟨th, id, life, hc, hphase, hpeer, rfl⟩ := h
    exact Or.inr ⟨nofun, rfl, rfl⟩
  | introduce c id =>
    obtain ⟨th, life, hc, hgreet, hpeer, hfree, rfl⟩ := h
    exact Or.inr ⟨nofun, rfl, rfl⟩
  | heartbeatLost c =>
    obtain ⟨th, id, life, hc, hphase, hpeer, hfree, hfails, rfl⟩ := h
    exact Or.inr ⟨nofun, rfl, rfl⟩
  | leave c =>
    obtain ⟨th, hc, hgreet, rfl⟩ := h
    exact Or.inr ⟨nofun, rfl, rfl⟩
  | close c =>
    obtain ⟨th, hc, hphase, rfl⟩ := h
    exact Or.inr ⟨nofun, rfl, rfl⟩
  | expire id =>
    obtain ⟨k, hk, hactive, hfree, rfl⟩ := h
    exact Or.inr ⟨nofun, rfl, rfl⟩
  | fail c =>
    obtain rfl := h
    exact Or.inr ⟨nofun, rfl, rfl⟩

theorem next_of_step (h : ConnStep s e t) : s.next ≤ t.next ∧ (∀ peer n, e = .accept peer n → s.next < t.next) := by
  rcases accept_or_kept h with ⟨peer, n, rfl⟩ | ⟨hother, hnext, -⟩
  · obtain ⟨-, -, -, rfl⟩ := h
    exact ⟨Nat.le_succ _, fun _ _ _ => Nat.lt_succ_self _⟩
  · exact ⟨hnext.ge, fun peer n he => absurd he (hother peer n)⟩

/-- A run of a storage server connects once for each purpose. -/
theorem connected_of_step (h : ConnStep s e t) : s.connected ⊆ t.connected ∧
    ∀ peer n, e = .accept peer n → peer ∈ t.connected ∧ (peer = .client ∨ peer ∉ s.connected) := by
  rcases accept_or_kept h with ⟨peer, n, rfl⟩ | ⟨hother, -, hkept⟩
  · obtain ⟨hnew, -, -, rfl⟩ := h
    refine ⟨fun p hp => List.mem_cons_of_mem peer hp, fun peer' n' he => ?_⟩
    obtain ⟨rfl, rfl⟩ := ConnEvent.accept.inj he
    exact ⟨List.mem_cons_self, hnew⟩
  · exact ⟨fun p hp => hkept ▸ hp, fun peer n he => absurd he (hother peer n)⟩

end Steps

end NetworkFileShare
