import NetworkFileShare.Lib.Printf
import NetworkFileShare.NameServer.Handlers

/-!
# What a registration copies (`nm.c`)

* `registerUserCopies`, `clientCopies`, `ssCopies` : the `strcpy` calls with which a registration fills
  `registered_users`, `client_list` and `ss_list`;
* `Admitted`, `Placed` : the client, or the storage server, gets an entry;
* `registration_fits_iff` : when each text fits its array.
-/

namespace NetworkFileShare

abbrev INET_ADDRSTRLEN : Nat := 16

/-! ## The copies -/

/-- The copy of `register_user_persistent`: a new user, if there is room. -/
def registerUserCopies (users : List RegisteredUser) (username : Username) : List StringCopy :=
  match findUser users username with
  | some _ => []
  | none => if users.length < MAX_CLIENTS * 10 then [⟨username.str, MAX_USERNAME⟩] else []

/-- The copies of `handle_client_connection`: none into `client_list` for a user that is logged in already, or when the
list is full. -/
def clientCopies (s : Sessions) (sock : Int32) (msg : Message) : List StringCopy :=
  registerUserCopies s.registeredUsers msg.sender ++
    if (registerUserPersistent s.registeredUsers msg.sender sock).2 then []
    else if s.clientCount ≥ MAX_CLIENTS then []
    else [⟨msg.sender.str, MAX_USERNAME⟩, ⟨msg.data.str, INET_ADDRSTRLEN⟩]

/-- The copies of `handle_ss_connection`: the address, and each name of the file list. -/
def ssCopies (s : NameServer) (msg : Message) : List StringCopy :=
  match (s.registerSs msg).1 with
  | none => []
  | some _ => ⟨msg.sender.str, INET_ADDRSTRLEN⟩ :: (fileList msg).map (⟨·, MAX_FILENAME⟩)

/-- The client gets an entry in `client_list`. -/
def Admitted (s : Sessions) (sock : Int32) (name : Username) : Prop :=
  (registerUserPersistent s.registeredUsers name sock).2 = false ∧ s.clientCount < MAX_CLIENTS

instance (s : Sessions) (sock : Int32) (name : Username) : Decidable (Admitted s sock name) :=
  inferInstanceAs (Decidable (_ ∧ _))

/-- The storage server gets an entry in `ss_list`. -/
def Placed (s : NameServer) (msg : Message) : Prop := (s.registerSs msg).1.isSome

instance (s : NameServer) (msg : Message) : Decidable (Placed s msg) := inferInstanceAs (Decidable (_ = true))

/-! ## When they fit -/

/-- A user name fits the tables, for the decoder has cut it. -/
theorem registerUserCopies_fit (users : List RegisteredUser) (username : Username) :
    ∀ c ∈ registerUserCopies users username, c.Fits := by
  intro c hc
  unfold registerUserCopies at hc
  split at hc
  · cases hc
  · split at hc
    · rw [List.mem_singleton.mp hc]
      exact StringCopy.fits_iff.mpr username.fits
    · cases hc

theorem clientCopies_fit_iff (s : Sessions) (sock : Int32) (msg : Message) :
    (∀ c ∈ clientCopies s sock msg, c.Fits) ↔
      (Admitted s sock msg.sender → msg.data.str.length < INET_ADDRSTRLEN) := by
  rw [clientCopies, List.forall_mem_append, and_iff_right (registerUserCopies_fit _ _)]
  unfold Admitted
  split
  · rename_i hduplicate
    exact iff_of_true (fun c hc => absurd hc List.not_mem_nil) fun h => by rw [hduplicate] at h; cases h.1
  · rename_i hnew
    split
    · rename_i hfull
      exact iff_of_true (fun c hc => absurd hc List.not_mem_nil) fun h => absurd h.2 (by omega)
    · rename_i hroom
      have hadmitted : (registerUserPersistent s.registeredUsers msg.sender sock).2 = false ∧
          s.clientCount < MAX_CLIENTS := ⟨by simpa using hnew, by omega⟩
      rw [List.forall_mem_cons, List.forall_mem_singleton, StringCopy.fits_iff, StringCopy.fits_iff,
        and_iff_right msg.sender.fits]
      exact ⟨fun h _ => h, fun h => h hadmitted⟩

theorem ssCopies_fit_iff (s : NameServer) (msg : Message) : (∀ c ∈ ssCopies s msg, c.Fits) ↔
    (Placed s msg → msg.sender.str.length < INET_ADDRSTRLEN ∧ ∀ f ∈ fileList msg, f.length < MAX_FILENAME) := by
  unfold ssCopies Placed
  cases (s.registerSs msg).1 with
  | none => exact iff_of_true (fun c hc => absurd hc List.not_mem_nil) fun h => by cases h
  | some idx =>
    dsimp only
    rw [List.forall_mem_cons, StringCopy.fits_iff, List.forall_mem_map]
    simp only [StringCopy.fits_iff, Option.isSome_some, forall_const]

/-- **When the texts of a registration fit their arrays**, for every message that is decoded: the address that the
client sends has to, or the one that the storage server gives as its name, and each name of a file. -/
theorem registration_fits_iff (s : NameServer) (sock : Int32) (buffer : CStr) :
    ((∀ c ∈ clientCopies s.sessions sock (deserializeMessage buffer), c.Fits) ↔
      (Admitted s.sessions sock (deserializeMessage buffer).sender →
        (deserializeMessage buffer).data.str.length < INET_ADDRSTRLEN)) ∧
    ((∀ c ∈ ssCopies s (deserializeMessage buffer), c.Fits) ↔
      (Placed s (deserializeMessage buffer) → (deserializeMessage buffer).sender.str.length < INET_ADDRSTRLEN ∧
        ∀ f ∈ fileList (deserializeMessage buffer), f.length < MAX_FILENAME)) :=
  ⟨clientCopies_fit_iff _ _ _, ssCopies_fit_iff _ _⟩

/-- A client that gives an address of 16 bytes. -/
def longAddress : CStr := lit "1|0|alice||||-1|-1|-1|0|0|0|||2001:db8:0:0:0:1"

/-- A storage server under a name of 16 bytes. -/
def longHostname : CStr := lit "0|0|2001:db8:0:0:0:1||||-1|-1|1|5000|5001|0|||"

/-- A storage server with a file whose name has 256 bytes. -/
def longFilename : CStr := lit "0|0|127.0.0.1||||-1|-1|1|5000|5001|0|||" ++ (List.replicate 256 (lit "x")).flatten

/-- **Registrations that overrun a table**: the address of a client, the address of a storage server, the name of a
file. -/
theorem registration_overruns :
    ((deserializeMessage longAddress).type = MSG_REG_CLIENT ∧
      ¬ ∀ c ∈ clientCopies initNameServer.sessions 4 (deserializeMessage longAddress), c.Fits) ∧
    ((deserializeMessage longHostname).type = MSG_REG_SS ∧
      ¬ ∀ c ∈ ssCopies initNameServer (deserializeMessage longHostname), c.Fits) ∧
    ((deserializeMessage longFilename).type = MSG_REG_SS ∧
      ¬ ∀ c ∈ ssCopies initNameServer (deserializeMessage longFilename), c.Fits) := by
  simp only [clientCopies_fit_iff, ssCopies_fit_iff]
  decide +kernel

end NetworkFileShare
