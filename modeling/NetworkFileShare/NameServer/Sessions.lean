import NetworkFileShare.Common
import NetworkFileShare.Lib.Run
import Mathlib.Data.List.Basic
import Mathlib.Data.List.Nodup

/-!
# Logins (`nm.c`: registration and clean-up of a client connection)

* `registerUserPersistent`, `deregisterActiveSession` : the table of registered users;
* `Sessions` : that table, the array `client_list` with what stays behind its end, and the connections that
  are being served, each with the index it remembers;
* `connect`, `disconnect` : the two atomic parts of `handle_client_connection`;
* `LoggedInRight` : a user is marked active exactly while a connection under that name lives.
  `loggedIn_exact` : it holds along every run in which the clean-up reads its own name back, and a clean-up
  that does not breaks it.
-/

namespace NetworkFileShare

structure RegisteredUser where
  username : Username
  activeSession : Bool
  clientSock : Int32
  deriving DecidableEq

structure ClientInfo where
  username : Username
  sock : Int32
  deriving DecidableEq

/-! ## The registered users -/

/-- The first user of that name. -/
def findUser (users : List RegisteredUser) (username : Username) : Option RegisteredUser :=
  users.find? (·.username = username)

/-- The first user of that name changed by `f`. -/
def updateUser (username : Username) (f : RegisteredUser → RegisteredUser) :
    List RegisteredUser → List RegisteredUser
  | [] => []
  | u :: us => if u.username = username then f u :: us else u :: updateUser username f us

/-- `register_user_persistent`: the table and `is_duplicate`. -/
def registerUserPersistent (users : List RegisteredUser) (username : Username) (clientSock : Int32) :
    List RegisteredUser × Bool :=
  match findUser users username with
  | some u =>
    if u.activeSession then (users, true)
    else (updateUser username (fun u => { u with activeSession := true, clientSock := clientSock }) users,
      false)
  | none =>
    if users.length < MAX_CLIENTS * 10 then (users ++ [⟨username, true, clientSock⟩], false)
    else (users, true)

/-- `deregister_active_session`. -/
def deregisterActiveSession (users : List RegisteredUser) (username : Username) (clientSock : Int32) :
    List RegisteredUser :=
  updateUser username
    (fun u => if u.clientSock = clientSock then { u with activeSession := false, clientSock := -1 } else u)
    users

/-! ## The connections -/

/-- A connection being served: its socket, the index it remembers, and the name it registered with. -/
structure Connection where
  sock : Int32
  idx : Nat
  name : Username
  deriving DecidableEq

structure Sessions where
  registeredUsers : List RegisteredUser
  clientList : Nat → ClientInfo
  clientCount : Nat
  live : List Connection

/-- `init_name_server`. -/
def Sessions.init : Sessions where
  registeredUsers := []
  clientList := fun _ => ⟨.empty _, 0⟩
  clientCount := 0
  live := []

/-- The registration of `handle_client_connection`; a connection that is refused is closed at once. -/
def Sessions.connect (s : Sessions) (sock : Int32) (name : Username) : Sessions :=
  match registerUserPersistent s.registeredUsers name sock with
  | (_, true) => s
  | (users, false) =>
    if s.clientCount ≥ MAX_CLIENTS then
      { s with registeredUsers := deregisterActiveSession users name sock }
    else
      { registeredUsers := users
        clientList := Function.update s.clientList s.clientCount ⟨name, sock⟩
        clientCount := s.clientCount + 1
        live := ⟨sock, s.clientCount, name⟩ :: s.live }

/-- The first entry of that socket taken out of `client_list`; the last entry stays behind the new end. -/
def Sessions.dropClient (s : Sessions) (sock : Int32) : Sessions :=
  match (List.range s.clientCount).find? (fun i => (s.clientList i).sock = sock) with
  | none => s
  | some i =>
    { s with
      clientList := fun j => if i ≤ j ∧ j < s.clientCount - 1 then s.clientList (j + 1) else s.clientList j
      clientCount := s.clientCount - 1 }

/-- The clean-up of `handle_client_connection`. -/
def Sessions.disconnect (s : Sessions) (h : Connection) : Sessions :=
  let username := (s.clientList h.idx).username
  let s := s.dropClient h.sock
  { s with
    registeredUsers := deregisterActiveSession s.registeredUsers username h.sock
    live := s.live.erase h }

inductive SessionEvent where
  | connect (sock : Int32) (name : Username)
  | disconnect (h : Connection)

/-- `accept` gives a descriptor that no open connection has. -/
def SessionStep (s : Sessions) (e : SessionEvent) (t : Sessions) : Prop :=
  match e with
  | .connect sock name => 0 ≤ sock ∧ (∀ h ∈ s.live, h.sock ≠ sock) ∧ t = s.connect sock name
  | .disconnect h => h ∈ s.live ∧ t = s.disconnect h

/-- **What "logged in" is to mean**: a registered user is active if and only if a connection under that name
lives, and without one a login is not refused. -/
structure LoggedInRight (s : Sessions) : Prop where
  active_iff : ∀ u ∈ s.registeredUsers,
    u.activeSession = true ↔ ∃ h ∈ s.live, h.name = u.username
  reconnects : ∀ u ∈ s.registeredUsers, (∀ h ∈ s.live, h.name ≠ u.username) →
    ∀ sock, (registerUserPersistent s.registeredUsers u.username sock).2 = false

/-- A clean-up finds its own name at the index it remembers. -/
def ReadsOwnName (s : Sessions) (e : SessionEvent) : Prop :=
  match e with
  | .connect _ _ => True
  | .disconnect h => (s.clientList h.idx).username = h.name

/-! ## The table of users -/

theorem username_of_findUser {users : List RegisteredUser} {username : Username} {u : RegisteredUser}
    (h : findUser users username = some u) : u.username = username := by
  simpa using List.find?_some h

theorem findUser_updateUser (username : Username) {f : RegisteredUser → RegisteredUser}
    (hf : ∀ v, (f v).username = v.username) (name : Username) :
    ∀ users : List RegisteredUser, findUser (updateUser username f users) name =
      if name = username then (findUser users username).map f else findUser users name
  | [] => by simp [updateUser, findUser]
  | v :: vs => by
    have ih := findUser_updateUser username hf name vs
    unfold updateUser
    by_cases hv : v.username = username
    · rw [if_pos hv]
      by_cases hn : name = username
      · simp [findUser, hf, hv, hn]
      · simp [findUser, hf, hv, hn, Ne.symm hn]
    · rw [if_neg hv]
      by_cases hn : name = username
      · simp only [if_pos hn] at ih ⊢
        subst hn
        simpa [findUser, hv] using ih
      · simp only [if_neg hn] at ih ⊢
        by_cases hvn : v.username = name
        · simp [findUser, hvn]
        · simpa [findUser, hvn] using ih

theorem map_username_updateUser {username : Username} {f : RegisteredUser → RegisteredUser}
    (hf : ∀ v, (f v).username = v.username) :
    ∀ users : List RegisteredUser,
      (updateUser username f users).map (·.username) = users.map (·.username)
  | [] => rfl
  | v :: vs => by
    unfold updateUser
    split
    · simp [hf]
    · simp [map_username_updateUser hf vs]

/-- When names do not repeat, the table holds exactly what a search by name finds. -/
theorem mem_iff_findUser {users : List RegisteredUser} (hnodup : (users.map (·.username)).Nodup)
    {u : RegisteredUser} : u ∈ users ↔ findUser users u.username = some u := by
  refine ⟨fun hu => ?_, fun h => List.mem_of_find?_eq_some h⟩
  induction users with
  | nil => cases hu
  | cons v vs ih =>
    rw [List.map_cons, List.nodup_cons] at hnodup
    rcases List.mem_cons.mp hu with rfl | huvs
    · simp [findUser]
    · have hne : v.username ≠ u.username := fun he => hnodup.1 (he ▸ List.mem_map_of_mem huvs)
      simpa [findUser, hne] using ih hnodup.2 huvs

theorem username_notMem {users : List RegisteredUser} {username : Username}
    (h : findUser users username = none) : username ∉ users.map (·.username) := by
  intro hmem
  obtain ⟨u, hu, rfl⟩ := List.mem_map.mp hmem
  simpa using List.find?_eq_none.mp h u hu

/-- **A registration is refused, or the name has an active entry with that socket afterwards.** -/
theorem registerUserPersistent_cases (users : List RegisteredUser) (username : Username)
    (clientSock : Int32) :
    ((registerUserPersistent users username clientSock).2 = true ∧
      ∀ u, findUser users username = some u → u.activeSession = true) ∨
    (∃ users', registerUserPersistent users username clientSock = (users', false) ∧
      (∀ u, findUser users username = some u → u.activeSession = false) ∧
      ((users.map (·.username)).Nodup → (users'.map (·.username)).Nodup) ∧
      ∀ name, findUser users' name =
        if name = username then some ⟨username, true, clientSock⟩ else findUser users name) := by
  unfold registerUserPersistent
  cases hfind : findUser users username with
  | some u =>
    have hname := username_of_findUser hfind
    by_cases hact : u.activeSession = true
    · left
      simp [hact]
    · right
      refine ⟨_, by simp [hact]; rfl, by simpa using hact, fun h => ?_, fun name => ?_⟩
      · rwa [map_username_updateUser]
        exact fun _ => rfl
      · rw [findUser_updateUser, hfind, Option.map_some, hname]
        exact fun _ => rfl
  | none =>
    by_cases hroom : users.length < MAX_CLIENTS * 10
    · right
      refine ⟨_, by simp [hroom]; rfl, by simp, fun h => ?_, fun name => ?_⟩
      · rw [List.map_append, List.map_singleton, List.nodup_append_comm]
        exact List.nodup_cons.mpr ⟨username_notMem hfind, h⟩
      · rw [findUser, List.find?_append]
        by_cases hn : name = username
        · subst hn
          simp only [findUser] at hfind
          simp [hfind]
        · simp [findUser, hn, Ne.symm hn]
    · left
      simp [hroom]

theorem findUser_deregister (users : List RegisteredUser) (username : Username) (clientSock : Int32)
    (name : Username) :
    findUser (deregisterActiveSession users username clientSock) name =
      if name = username then (findUser users username).map fun u =>
        if u.clientSock = clientSock then { u with activeSession := false, clientSock := -1 } else u
      else findUser users name :=
  findUser_updateUser username (fun v => by split <;> rfl) name users

theorem names_deregister (users : List RegisteredUser) (username : Username) (clientSock : Int32) :
    (deregisterActiveSession users username clientSock).map (·.username) = users.map (·.username) :=
  map_username_updateUser (fun v => by split <;> rfl) users

/-! ## The invariant -/

/-- Names do not repeat, and the active users are the live connections, with their sockets. -/
structure SessionInv (s : Sessions) : Prop where
  names : (s.registeredUsers.map (·.username)).Nodup
  served : ∀ h ∈ s.live, ∃ u, findUser s.registeredUsers h.name = some u ∧
    u.activeSession = true ∧ u.clientSock = h.sock
  active : ∀ name u, findUser s.registeredUsers name = some u → u.activeSession = true →
    ∃ h ∈ s.live, h.name = name ∧ h.sock = u.clientSock
  liveNames : (s.live.map (·.name)).Nodup

namespace SessionInv
variable {s : Sessions}

theorem init : SessionInv Sessions.init where
  names := List.nodup_nil
  served _ hh := absurd hh List.not_mem_nil
  active _ _ hu := by cases hu
  liveNames := List.nodup_nil

/-- Two live connections of one name are the same. -/
theorem same_name (h : SessionInv s) {a b : Connection} (ha : a ∈ s.live) (hb : b ∈ s.live)
    (hab : a.name = b.name) : a = b :=
  List.inj_on_of_nodup_map h.liveNames ha hb hab

theorem mem_erase (h : SessionInv s) {a b : Connection} : a ∈ s.live.erase b ↔ a ≠ b ∧ a ∈ s.live :=
  (List.Nodup.of_map _ h.liveNames).mem_erase_iff

theorem connect (h : SessionInv s) (sock : Int32) (name : Username) : SessionInv (s.connect sock name) := by
  unfold Sessions.connect
  rcases registerUserPersistent_cases s.registeredUsers name sock with
    ⟨hrefused, -⟩ | ⟨users, hreg, hidle, hnodup, hfind⟩
  · rcases hr : registerUserPersistent s.registeredUsers name sock with ⟨us, dup⟩
    rw [hr] at hrefused
    cases hrefused
    exact h
  · simp only [hreg]
    -- nobody under that name is being served
    have hfree : ∀ c ∈ s.live, c.name ≠ name := by
      intro c hc he
      obtain ⟨u, hu, hact, -⟩ := h.served c hc
      rw [hidle u (he ▸ hu)] at hact
      cases hact
    split
    · refine ⟨?_, fun c hc => ?_, fun m u hu hact => ?_, h.liveNames⟩
      · rw [names_deregister]
        exact hnodup h.names
      · rw [findUser_deregister, if_neg (hfree c hc), hfind, if_neg (hfree c hc)]
        exact h.served c hc
      · rw [findUser_deregister] at hu
        by_cases hm : m = name
        · rw [if_pos hm, hfind, if_pos rfl] at hu
          simp only [Option.map_some, if_true, Option.some.injEq] at hu
          rw [← hu] at hact
          cases hact
        · rw [if_neg hm, hfind, if_neg hm] at hu
          exact h.active m u hu hact
    · refine ⟨hnodup h.names, fun c hc => ?_, fun m u hu hact => ?_, ?_⟩
      · rw [hfind]
        rcases List.mem_cons.mp hc with rfl | hc
        · exact ⟨_, if_pos rfl, rfl, rfl⟩
        · rw [if_neg (hfree c hc)]
          exact h.served c hc
      · simp only [hfind] at hu
        by_cases hm : m = name
        · rw [if_pos hm] at hu
          obtain rfl := Option.some.inj hu
          exact ⟨_, List.mem_cons_self, hm.symm, rfl⟩
        · rw [if_neg hm] at hu
          obtain ⟨c, hc, hcm⟩ := h.active m u hu hact
          exact ⟨c, List.mem_cons_of_mem _ hc, hcm⟩
      · rw [List.map_cons, List.nodup_cons]
        refine ⟨fun hmem => ?_, h.liveNames⟩
        obtain ⟨c, hc, he⟩ := List.mem_map.mp hmem
        exact hfree c hc he

theorem dropClient_users (s : Sessions) (sock : Int32) :
    (s.dropClient sock).registeredUsers = s.registeredUsers ∧ (s.dropClient sock).live = s.live := by
  unfold Sessions.dropClient
  split <;> exact ⟨rfl, rfl⟩

/-- The users after a clean-up that read `username` back. -/
theorem findUser_disconnect (s : Sessions) (c : Connection) (name : Username) :
    findUser (s.disconnect c).registeredUsers name =
      if name = (s.clientList c.idx).username then
        (findUser s.registeredUsers (s.clientList c.idx).username).map fun u =>
          if u.clientSock = c.sock then { u with activeSession := false, clientSock := -1 } else u
      else findUser s.registeredUsers name := by
  rw [← (dropClient_users s c.sock).1]
  exact findUser_deregister _ _ _ _

theorem live_disconnect (s : Sessions) (c : Connection) : (s.disconnect c).live = s.live.erase c := by
  rw [← (dropClient_users s c.sock).2]
  rfl

theorem disconnect (h : SessionInv s) {c : Connection} (hc : c ∈ s.live)
    (hown : (s.clientList c.idx).username = c.name) : SessionInv (s.disconnect c) := by
  have hnames : (s.disconnect c).registeredUsers.map (·.username) = s.registeredUsers.map (·.username) := by
    rw [← (dropClient_users s c.sock).1]
    exact names_deregister _ _ _
  obtain ⟨v, hv, hvact, hvsock⟩ := h.served c hc
  have hfind : ∀ name, findUser (s.disconnect c).registeredUsers name =
      if name = c.name then some { v with activeSession := false, clientSock := -1 }
      else findUser s.registeredUsers name := by
    intro name
    rw [findUser_disconnect, hown, hv, Option.map_some, if_pos hvsock]
  refine ⟨?_, fun a ha => ?_, fun m u hu hact => ?_, ?_⟩
  · rw [hnames]; exact h.names
  · rw [live_disconnect, h.mem_erase] at ha
    have hne : a.name ≠ c.name := fun he => ha.1 (h.same_name ha.2 hc he)
    rw [hfind, if_neg hne]
    exact h.served a ha.2
  · rw [hfind] at hu
    by_cases hm : m = c.name
    · rw [if_pos hm] at hu
      obtain rfl := Option.some.inj hu
      cases hact
    · rw [if_neg hm] at hu
      obtain ⟨a, ha, ham, hasock⟩ := h.active m u hu hact
      refine ⟨a, ?_, ham, hasock⟩
      rw [live_disconnect, h.mem_erase]
      exact ⟨fun he => hm (ham ▸ he ▸ rfl), ha⟩
  · rw [live_disconnect]
    exact h.liveNames.sublist (List.erase_sublist.map _)

/-- **The invariant makes the marks right.** -/
theorem right (h : SessionInv s) : LoggedInRight s := by
  have hactive : ∀ u ∈ s.registeredUsers, u.activeSession = true ↔ ∃ c ∈ s.live, c.name = u.username := by
    intro u hu
    have hfind := (mem_iff_findUser h.names).mp hu
    constructor
    · intro hact
      obtain ⟨c, hc, hname, -⟩ := h.active u.username u hfind hact
      exact ⟨c, hc, hname⟩
    · rintro ⟨c, hc, hname⟩
      obtain ⟨v, hv, hact, -⟩ := h.served c hc
      rw [hname, hfind] at hv
      rwa [Option.some.inj hv]
  refine ⟨hactive, fun u hu hgone sock => ?_⟩
  have hidle : ¬ u.activeSession = true := fun hact => by
    obtain ⟨c, hc, hname⟩ := (hactive u hu).mp hact
    exact hgone c hc hname
  have hfind := (mem_iff_findUser h.names).mp hu
  simp [registerUserPersistent, hfind, hidle]

/-- A clean-up that reads another name leaves its own user marked active. -/
theorem not_right (h : SessionInv s) {c : Connection} (hc : c ∈ s.live)
    (hother : (s.clientList c.idx).username ≠ c.name) : ¬ LoggedInRight (s.disconnect c) := by
  intro hright
  obtain ⟨v, hv, hact, -⟩ := h.served c hc
  have hname := username_of_findUser hv
  have hfind : findUser (s.disconnect c).registeredUsers c.name = some v := by
    rw [findUser_disconnect, if_neg (Ne.symm hother), hv]
  obtain ⟨a, ha, haname⟩ := (hright.active_iff v (List.mem_of_find?_eq_some hfind)).mp hact
  rw [live_disconnect, h.mem_erase] at ha
  exact ha.1 (h.same_name ha.2 hc (haname.trans hname))

theorem step (h : SessionInv s) {e : SessionEvent} {t : Sessions} (hown : ReadsOwnName s e)
    (hstep : SessionStep s e t) : SessionInv t := by
  cases e with
  | connect sock name =>
    obtain ⟨-, -, rfl⟩ := hstep
    exact h.connect sock name
  | disconnect c =>
    obtain ⟨hc, rfl⟩ := hstep
    exact h.disconnect hc hown

end SessionInv

/-- **The marks are right along every run whose clean-ups read their own name, and no other clean-up keeps
them right.** -/
theorem loggedIn_exact {es : List SessionEvent} {s : Sessions}
    (h : Run (Guarded ReadsOwnName SessionStep) Sessions.init es s) :
    LoggedInRight s ∧ ∀ e t, SessionStep s e t → (LoggedInRight t ↔ ReadsOwnName s e) := by
  have hinv : SessionInv s :=
    h.state_invariant SessionInv.init fun _ _ _ hs hstep => hs.step hstep.1 hstep.2
  refine ⟨hinv.right, fun e t hstep => ⟨fun hright => ?_, fun hown => (hinv.step hown hstep).right⟩⟩
  cases e with
  | connect sock name => trivial
  | disconnect c =>
    obtain ⟨hc, rfl⟩ := hstep
    by_contra hother
    exact hinv.not_right hc hother hright

/-! ## Two and three users -/

def userA : Username := ⟨lit "a", by decide⟩
def userB : Username := ⟨lit "b", by decide⟩
def userC : Username := ⟨lit "c", by decide⟩

/-- `a` and `b` have logged in. -/
def twoUsers : Sessions := (Sessions.init.connect 4 userA).connect 5 userB

theorem twoUsers_run : Run SessionStep Sessions.init [.connect 4 userA, .connect 5 userB] twoUsers :=
  Run.cons ⟨by decide, by decide, rfl⟩ (Run.single ⟨by decide, by decide, rfl⟩)

theorem loggedIn_exact_twoUsers :
    LoggedInRight (twoUsers.disconnect ⟨5, 1, userB⟩) ∧
      ∀ e t, SessionStep (twoUsers.disconnect ⟨5, 1, userB⟩) e t →
        (LoggedInRight t ↔ ReadsOwnName (twoUsers.disconnect ⟨5, 1, userB⟩) e) := by
  have hrun : Run (Guarded ReadsOwnName SessionStep) Sessions.init
      [.connect 4 userA, .connect 5 userB, .disconnect ⟨5, 1, userB⟩]
      (twoUsers.disconnect ⟨5, 1, userB⟩) :=
    Run.cons ⟨trivial, by decide, by decide, rfl⟩ (Run.cons (t := twoUsers)
      ⟨trivial, by decide, by decide, rfl⟩ (Run.single ⟨rfl, by decide, rfl⟩))
  exact loggedIn_exact hrun

/-- `a` leaves before `b`, so that the index of `b` has become the one of `c`. -/
def bothLeft : Sessions :=
  ((twoUsers.connect 6 userC).disconnect ⟨4, 0, userA⟩).disconnect ⟨5, 1, userB⟩

/-- **`b` stays logged in without a connection, and cannot come back.** -/
theorem left_but_active :
    Run SessionStep Sessions.init [.connect 4 userA, .connect 5 userB, .connect 6 userC,
        .disconnect ⟨4, 0, userA⟩, .disconnect ⟨5, 1, userB⟩] bothLeft ∧
      ¬ LoggedInRight bothLeft ∧
      (registerUserPersistent bothLeft.registeredUsers userB 7).2 = true := by
  refine ⟨?_, fun h => ?_, by decide⟩
  swap
  · have hlive := (h.active_iff ⟨userB, true, 5⟩ (by decide)).mp rfl
    exact absurd hlive (by decide)
  exact twoUsers_run.append (Run.cons (t := twoUsers.connect 6 userC) ⟨by decide, by decide, rfl⟩
    (Run.cons (t := (twoUsers.connect 6 userC).disconnect ⟨4, 0, userA⟩) ⟨by decide, rfl⟩
      (Run.single ⟨by decide, rfl⟩)))

end NetworkFileShare
