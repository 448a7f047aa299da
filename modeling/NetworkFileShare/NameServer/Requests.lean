import NetworkFileShare.NameServer.Acl
import NetworkFileShare.NameServer.Location

/-!
# Requests for access

A user asks for access to a file; its owner sees the pending requests under their positions in one list, and approves
or denies them by position.

* `RecordChanged` : one record of the file trie is replaced; `withOwnRequest` : what an approval and a denial share;
* `alone_handleApproveRequest` and the others : what each request does;
* `alone_handleViewRequests` : the requests that an owner is shown, `Shown`;
* `Granted` : the user of a request has the access of it afterwards;
* `approved_as_shown` : an approval applies to the request that was shown, as long as no other owner takes a request
  from a position before it and the access list has room.
-/

namespace NetworkFileShare

open NmOp (perform)
open Prog (Only)

variable {s t : NameServer} {msg reply : Message}

/-! ## What the requests do -/

/-- The record `m` of a file that was found is replaced by `m'`; the folders are the same. -/
structure RecordChanged (s : NameServer) (filename : CStr) (m m' : FileMetadata) (t : NameServer) : Prop where
  found : trieSearch s.fileTrie filename = some m
  after : ∀ f, trieSearch t.fileTrie f = if f = filename then some m' else trieSearch s.fileTrie f
  folderTrie : t.folderTrie = s.folderTrie

/-- `trie_update` and `cache_put`. -/
theorem recordChanged_writeBack {filename : CStr} {m m' : FileMetadata} {u : Unit}
    (h : Alone (ExecSome NmOp.exec) s (writeBack filename m') u t) (hm : trieSearch s.fileTrie filename = some m) :
    RecordChanged s filename m m' t ∧ t.accessRequests = s.accessRequests := by
  obtain ⟨status, s₁, ⟨env₁, hupdate⟩, h⟩ := alone_perform_bind.mp h
  obtain ⟨_, s₂, ⟨env₂, hput⟩, hdone⟩ := alone_call.mp h
  obtain ⟨-, rfl⟩ := alone_pure.mp hdone
  obtain ⟨c, -, hc⟩ := Option.map_eq_some_iff.mp hput
  obtain ⟨-, rfl⟩ := Prod.mk.inj hc
  obtain ⟨-, rfl⟩ := Prod.mk.inj (Option.some.inj hupdate)
  refine ⟨⟨hm, fun f => ?_, rfl⟩, rfl⟩
  show trieSearch (trieUpdate s.fileTrie filename m').1 f = _
  rw [trieSearch_update, hm]
  simp only [Option.isSome_some, and_true]

/-- An approval: the user gets the access, and the request leaves the list. -/
structure Approves (s : NameServer) (msg : Message) (req : AccessRequest) (m : FileMetadata) (t : NameServer) :
    Prop where
  pending : requestAt s.accessRequests msg.sentenceIndex = some req
  owner : m.owner = msg.sender.str
  changed : RecordChanged s req.filename.str m (m.grant req.username.str req.requestedAccess) t
  left : t.accessRequests = s.accessRequests.eraseIdx msg.sentenceIndex.toInt.toNat

/-- The end of a handler that gives up a mutex. -/
theorem alone_unlock {m : NmMutex} {last : Message}
    (h : Alone (ExecSome NmOp.exec) s (do perform (.unlock m); return last) reply t) :
    last = reply ∧ SameRecords s t := by
  obtain ⟨_, u, hunlock, hdone⟩ := alone_perform_bind.mp h
  obtain ⟨rfl, rfl⟩ := alone_pure.mp hdone
  exact ⟨rfl, .of_exec hunlock trivial⟩

/-- The way from a position to a request for a file of the sender, which an approval and a denial share. -/
def withOwnRequest (msg : Message) (act : AccessRequest → FileMetadata → Handler Message) : Handler Message := do
  perform (.lock .request)
  match requestAt (← perform .accessRequests) msg.sentenceIndex with
  | none =>
    perform (.unlock .request)
    return replyStatus ERR_INVALID_INDEX
  | some req =>
    match ← perform (.trieSearch req.filename.str) with
    | none =>
      perform (.unlock .request)
      return replyStatus ERR_NOT_OWNER
    | some metadata =>
      if metadata.owner ≠ msg.sender.str then
        perform (.unlock .request)
        return replyStatus ERR_NOT_OWNER
      else act req metadata

theorem handleApproveRequest_eq (msg : Message) : handleApproveRequest msg = withOwnRequest msg fun req metadata => do
    writeBack req.filename.str (metadata.grant req.username.str req.requestedAccess)
    perform (.removeRequest msg.sentenceIndex.toInt.toNat)
    perform (.unlock .request)
    return replyStatus SUCCESS :=
  rfl

theorem handleDenyRequest_eq (msg : Message) : handleDenyRequest msg = withOwnRequest msg fun _ _ => do
    perform (.removeRequest msg.sentenceIndex.toInt.toNat)
    perform (.unlock .request)
    return replyStatus SUCCESS :=
  rfl

theorem alone_withOwnRequest {act : AccessRequest → FileMetadata → Handler Message}
    (h : Alone (ExecSome NmOp.exec) s (withOwnRequest msg act) reply t) :
    (reply.status ≠ SUCCESS ∧ SameRecords s t) ∨ ∃ s₁ req m, SameRecords s s₁ ∧
      requestAt s₁.accessRequests msg.sentenceIndex = some req ∧
      trieSearch s₁.fileTrie req.filename.str = some m ∧ m.owner = msg.sender.str ∧
      Alone (ExecSome NmOp.exec) s₁ (act req m) reply t := by
  obtain ⟨_, s₁, hlock, h⟩ := alone_perform_bind.mp h
  have h₁ : SameRecords s s₁ := .of_exec hlock trivial
  replace h := alone_accessRequests h
  cases hreq : requestAt s₁.accessRequests msg.sentenceIndex with
  | none =>
    rw [hreq] at h
    obtain ⟨rfl, hlast⟩ := alone_unlock h
    exact Or.inl ⟨by decide, h₁.trans hlast⟩
  | some req =>
    rw [hreq] at h
    replace h := alone_trieSearch h
    cases hfound : trieSearch s₁.fileTrie req.filename.str with
    | none =>
      rw [hfound] at h
      obtain ⟨rfl, hlast⟩ := alone_unlock h
      exact Or.inl ⟨by decide, h₁.trans hlast⟩
    | some m =>
      rw [hfound] at h
      dsimp only at h
      split at h
      · obtain ⟨rfl, hlast⟩ := alone_unlock h
        exact Or.inl ⟨by decide, h₁.trans hlast⟩
      · exact Or.inr ⟨s₁, req, m, h₁, hreq, hfound, not_not.mp ‹_›, h⟩

theorem alone_handleApproveRequest (h : Alone (ExecSome NmOp.exec) s (handleApproveRequest msg) reply t) :
    (reply.status ≠ SUCCESS ∧ SameRecords s t) ∨ (reply.status = SUCCESS ∧ ∃ req m, Approves s msg req m t) := by
  rw [handleApproveRequest_eq] at h
  rcases alone_withOwnRequest h with hsame | ⟨s₁, req, m, h₁, hreq, hfound, howner, h⟩
  · exact Or.inl hsame
  obtain ⟨_, s₂, hwrite, h⟩ := alone_bind.mp h
  obtain ⟨hchanged, hrequests⟩ := recordChanged_writeBack hwrite hfound
  obtain ⟨_, s₃, ⟨env, hremove⟩, h⟩ := alone_perform_bind.mp h
  obtain ⟨-, rfl⟩ := Prod.mk.inj (Option.some.inj hremove)
  obtain ⟨rfl, hlast⟩ := alone_unlock h
  refine Or.inr ⟨rfl, req, m, ?_, howner, ?_, ?_⟩
  · rw [← h₁.accessRequests, hreq]
  · exact ⟨h₁.fileTrie ▸ hfound, fun f => by
      rw [hlast.fileTrie]
      exact (hchanged.after f).trans (by rw [h₁.fileTrie]), by
      rw [hlast.folderTrie]
      exact hchanged.folderTrie.trans h₁.folderTrie⟩
  · rw [hlast.accessRequests]
    show s₂.accessRequests.eraseIdx _ = _
    rw [hrequests, h₁.accessRequests]

/-- A denial: the request leaves the list. -/
structure Denies (s : NameServer) (msg : Message) (req : AccessRequest) (m : FileMetadata) (t : NameServer) :
    Prop where
  pending : requestAt s.accessRequests msg.sentenceIndex = some req
  found : trieSearch s.fileTrie req.filename.str = some m
  owner : m.owner = msg.sender.str
  same : t.fileTrie = s.fileTrie ∧ t.folderTrie = s.folderTrie ∧ t.cache = s.cache
  left : t.accessRequests = s.accessRequests.eraseIdx msg.sentenceIndex.toInt.toNat

theorem alone_handleDenyRequest (h : Alone (ExecSome NmOp.exec) s (handleDenyRequest msg) reply t) :
    (reply.status ≠ SUCCESS ∧ SameRecords s t) ∨ (reply.status = SUCCESS ∧ ∃ req m, Denies s msg req m t) := by
  rw [handleDenyRequest_eq] at h
  rcases alone_withOwnRequest h with hsame | ⟨s₁, req, m, h₁, hreq, hfound, howner, h⟩
  · exact Or.inl hsame
  obtain ⟨_, s₂, ⟨env, hremove⟩, h⟩ := alone_perform_bind.mp h
  obtain ⟨-, rfl⟩ := Prod.mk.inj (Option.some.inj hremove)
  obtain ⟨rfl, hlast⟩ := alone_unlock h
  refine Or.inr ⟨rfl, req, m, ?_, h₁.fileTrie ▸ hfound, howner, ?_, ?_⟩
  · rw [← h₁.accessRequests, hreq]
  · exact ⟨hlast.fileTrie.trans h₁.fileTrie, hlast.folderTrie.trans h₁.folderTrie, hlast.cache.trans h₁.cache⟩
  · rw [hlast.accessRequests, ← h₁.accessRequests]

/-- A request for access is appended to the list: the same is not asked for already, and there is room. -/
structure Queues (s : NameServer) (msg : Message) (r : AccessRequest) (t : NameServer) : Prop where
  username : r.username = msg.sender
  filename : r.filename = msg.filename
  access : r.requestedAccess = msg.access
  fresh : ∀ r' ∈ s.accessRequests,
    ¬ (r'.username = msg.sender ∧ r'.filename = msg.filename ∧ r'.requestedAccess = msg.access)
  room : s.accessRequests.length < MAX_FILES * 10
  fileTrie : t.fileTrie = s.fileTrie
  added : t.accessRequests = s.accessRequests ++ [r]

theorem handleRequestAccess_queues (h : Alone (ExecSome NmOp.exec) s (handleRequestAccess msg) reply t) :
    SameRecords s t ∨ ∃ r, Queues s msg r t := by
  obtain ⟨found, s₁, hsearch, h⟩ := alone_perform_bind.mp h
  have h₁ : SameRecords s s₁ := .of_exec hsearch trivial
  rcases found with _ | metadata
  · obtain ⟨rfl, rfl⟩ := alone_pure.mp h
    exact Or.inl h₁
  obtain ⟨allowed, s₂, hallowed, h⟩ := alone_perform_bind.mp h
  have h₂ : SameRecords s s₂ := h₁.trans (.of_exec hallowed trivial)
  split at h
  · obtain ⟨rfl, rfl⟩ := alone_pure.mp h
    exact Or.inl h₂
  obtain ⟨_, s₃, hlock, h⟩ := alone_perform_bind.mp h
  have h₃ : SameRecords s s₃ := h₂.trans (.of_exec hlock trivial)
  replace h := alone_accessRequests h
  rw [h₃.accessRequests] at h
  split at h
  · exact Or.inl (h₃.trans (alone_unlock h).2)
  rename_i hpending
  split at h
  · rename_i hroom
    obtain ⟨now, s₄, htime, h⟩ := alone_perform_bind.mp h
    have h₄ : SameRecords s s₄ := h₃.trans (.of_exec htime trivial)
    obtain ⟨_, s₅, ⟨env, hadd⟩, h⟩ := alone_perform_bind.mp h
    obtain ⟨-, rfl⟩ := Prod.mk.inj (Option.some.inj hadd)
    have hlast := (alone_unlock h).2
    refine Or.inr ⟨⟨msg.sender, msg.filename, msg.access, now⟩, rfl, rfl, rfl, fun r' hr' hsame => ?_, hroom,
      hlast.fileTrie.trans h₄.fileTrie, ?_⟩
    · exact hpending (List.any_eq_true.mpr ⟨r', hr', decide_eq_true hsame⟩)
    · rw [hlast.accessRequests, ← h₄.accessRequests]
  · exact Or.inl (h₃.trans (alone_unlock h).2)

/-- A request for access is appended to the list, or changes no record. -/
theorem alone_handleRequestAccess (h : Alone (ExecSome NmOp.exec) s (handleRequestAccess msg) reply t) :
    t.fileTrie = s.fileTrie ∧ s.accessRequests <+: t.accessRequests := by
  rcases handleRequestAccess_queues h with hsame | ⟨r, hqueues⟩
  · exact ⟨hsame.fileTrie, by rw [hsame.accessRequests]⟩
  · exact ⟨hqueues.fileTrie, by rw [hqueues.added]; exact List.prefix_append _ _⟩

/-! ## What an owner is shown -/

/-- Request `n` is for a file of `owner`: the handlers show it to this user, and to no other. -/
def Shown (s : NameServer) (owner : CStr) (n : Nat) (r : AccessRequest) : Prop :=
  s.accessRequests[n]? = some r ∧ (trieSearch s.fileTrie r.filename.str).map (·.owner) = some owner

/-- The line of request `i`, with the time as text. -/
def requestLine (i : Nat) (r : AccessRequest) (time : CStr) : CStr :=
  lit "[" ++ printNat i ++ lit "] User: " ++ r.username.str ++ lit ", File: " ++ r.filename.str ++
    lit ", Access: " ++ (if r.requestedAccess = ACCESS_READ then lit "READ" else lit "WRITE") ++
    lit ", Time: " ++ time ++ lit "\n"

/-- The requests from position `i` on that are for files of `owner`, with their positions. -/
def ownRequests (s : NameServer) (owner : CStr) (i : Nat) (requests : List AccessRequest) :
    List (AccessRequest × Nat) :=
  (requests.zipIdx i).filter fun r => (trieSearch s.fileTrie r.1.filename.str).map (·.owner) = some owner

theorem alone_viewRequestLines {owner : CStr} {i : Nat} {requests : List AccessRequest} {text : CStr}
    (h : Alone (ExecSome NmOp.exec) s (viewRequestLines owner i requests) text t) : t = s ∧
      ∃ times : List CStr, times.length = (ownRequests s owner i requests).length ∧
        text =
          (List.zipWith (fun r time => requestLine r.2 r.1 time) (ownRequests s owner i requests) times).flatten := by
  induction requests generalizing i text with
  | nil =>
    obtain ⟨rfl, rfl⟩ := alone_pure.mp h
    exact ⟨rfl, [], rfl, rfl⟩
  | cons r rs ih =>
    replace h := alone_trieSearch h
    rw [ownRequests, List.zipIdx_cons, List.filter_cons]
    split at h
    · rename_i howner
      obtain ⟨line, s₂, hline, h⟩ := alone_bind.mp h
      obtain ⟨time, s₃, ⟨env₃, htime⟩, hline⟩ := alone_perform_bind.mp hline
      obtain ⟨-, rfl⟩ := Prod.mk.inj (Option.some.inj htime)
      obtain ⟨rfl, rfl⟩ := alone_pure.mp hline
      obtain ⟨rest, s₄, hrest, h⟩ := alone_bind.mp h
      obtain ⟨rfl, rfl⟩ := alone_pure.mp h
      obtain ⟨rfl, times, hlength, rfl⟩ := ih hrest
      rw [if_pos (decide_eq_true howner)]
      exact ⟨rfl, time :: times, congrArg (· + 1) hlength, rfl⟩
    · rename_i howner
      rw [if_neg (by simpa using howner)]
      exact ih h

/-- **What `VIEWREQUESTS` answers**: a line for each request for a file of the sender, with its position. -/
theorem alone_handleViewRequests (h : Alone (ExecSome NmOp.exec) s (handleViewRequests msg) reply t) :
    SameRecords s t ∧ ∃ times : List CStr, times.length = (ownRequests s msg.sender.str 0 s.accessRequests).length ∧
      let text := (List.zipWith (fun r time => requestLine r.2 r.1 time)
        (ownRequests s msg.sender.str 0 s.accessRequests) times).flatten
      reply = replyText MSG_DATA SUCCESS
        (if text = [] then lit "No pending access requests for your files.\n" else text) := by
  obtain ⟨_, s₁, hlock, h⟩ := alone_perform_bind.mp h
  have h₁ : SameRecords s s₁ := .of_exec hlock trivial
  replace h := alone_accessRequests h
  obtain ⟨text, s₃, hlines, h⟩ := alone_bind.mp h
  obtain ⟨rfl, times, hlength, rfl⟩ := alone_viewRequestLines hlines
  obtain ⟨rfl, hlast⟩ := alone_unlock h
  have hown : ownRequests s₃ msg.sender.str 0 s₃.accessRequests = ownRequests s msg.sender.str 0 s.accessRequests := by
    rw [ownRequests, ownRequests, h₁.fileTrie, h₁.accessRequests]
  rw [hown] at hlength ⊢
  exact ⟨h₁.trans hlast, times, hlength, rfl⟩

/-! ## Approving what was shown -/

/-- A message about pending requests. -/
def AboutRequests (msg : Message) : Prop :=
  msg.type = MSG_REQUESTACCESS ∨ msg.type = MSG_VIEWREQUESTS ∨ msg.type = MSG_APPROVEREQUEST ∨
    msg.type = MSG_DENYREQUEST

/-- Somebody else than `owner` sends a message about pending requests. -/
def ByOthers (owner : CStr) : NmRequest → Prop
  | .client _ msg => AboutRequests msg ∧ msg.sender.str ≠ owner
  | _ => False

/-- The owner of a file approves or denies a request that stands before position `n`. -/
def TakesBefore (n : Nat) (s : NameServer) : NmRequest → Prop
  | .client _ msg => (msg.type = MSG_APPROVEREQUEST ∨ msg.type = MSG_DENYREQUEST) ∧
      msg.sentenceIndex.toInt.toNat < n ∧ ∃ req, requestAt s.accessRequests msg.sentenceIndex = some req ∧
        (trieSearch s.fileTrie req.filename.str).map (·.owner) = some msg.sender.str
  | _ => False

/-- The message names a position in the list. -/
theorem getElem_of_requestAt {requests : List AccessRequest} {id : Int32} {req : AccessRequest}
    (h : requestAt requests id = some req) : requests[id.toInt.toNat]? = some req := by
  unfold requestAt at h
  split at h
  · cases h
  · exact h

theorem requestAt_of_getElem {requests : List AccessRequest} {id : Int32} {n : Nat} (hid : id.toInt = n) :
    requestAt requests id = requests[n]? := by
  unfold requestAt
  rw [hid, if_neg (by omega), Int.toNat_natCast]

section
variable {owner : CStr} {n : Nat} {r : AccessRequest}

theorem Shown.same (h : Shown s owner n r) (hsame : SameRecords s t) : Shown t owner n r := by
  unfold Shown
  rw [hsame.accessRequests, hsame.fileTrie]
  exact h

/-- A request behind position `n` leaves the list, and the records keep their owners. -/
theorem Shown.taken (h : Shown s owner n r) {prior : Message} (hothers : msg.sender.str ≠ owner)
    (htype : msg.type = MSG_APPROVEREQUEST ∨ msg.type = MSG_DENYREQUEST)
    (hbehind : ¬ TakesBefore n s (.client prior msg)) {req : AccessRequest} {m : FileMetadata}
    (hpending : requestAt s.accessRequests msg.sentenceIndex = some req)
    (hfound : trieSearch s.fileTrie req.filename.str = some m) (howner : m.owner = msg.sender.str)
    (hleft : t.accessRequests = s.accessRequests.eraseIdx msg.sentenceIndex.toInt.toNat)
    (howners : ∀ f, (trieSearch t.fileTrie f).map (·.owner) = (trieSearch s.fileTrie f).map (·.owner)) :
    Shown t owner n r := by
  have hposition : ¬ msg.sentenceIndex.toInt.toNat < n := fun hlt =>
    hbehind ⟨htype, hlt, req, hpending, by rw [hfound, ← howner]; rfl⟩
  have hother : msg.sentenceIndex.toInt.toNat ≠ n := by
    intro heq
    -- the request that was shown is for a file of somebody else
    have hreq := getElem_of_requestAt hpending
    rw [heq, h.1] at hreq
    obtain rfl := Option.some.inj hreq
    have hsame := h.2
    rw [hfound] at hsame
    exact hothers (howner.symm.trans (Option.some.inj hsame))
  refine ⟨?_, ?_⟩
  · rw [hleft, List.getElem?_eraseIdx_of_lt (by omega)]
    exact h.1
  · rw [howners]
    exact h.2

/-- **A request that was shown stays at its position**, as long as none before it is taken. -/
theorem Shown.step (h : Shown s owner n r) {req : NmRequest} (hothers : ByOthers owner req)
    (hbehind : ¬ TakesBefore n s req) (hstep : Handles (ExecSome NmOp.exec) s req t) : Shown t owner n r := by
  match req, hothers with
  | .client prior msg, ⟨htype, hsender⟩ =>
    obtain ⟨answer, hstep⟩ := hstep
    obtain ⟨reply, u, halone, hdone⟩ := alone_bind.mp hstep
    obtain ⟨-, rfl⟩ := alone_pure.mp hdone
    rcases htype with htype | htype | htype | htype
    · rw [(HandledBy.requestAccess htype).eq] at halone
      obtain ⟨htrie, rest, hrest⟩ := alone_handleRequestAccess halone
      obtain ⟨hlt, -⟩ := List.getElem?_eq_some_iff.mp h.1
      refine ⟨?_, ?_⟩
      · rw [← hrest, List.getElem?_append_left hlt]
        exact h.1
      · rw [htrie]
        exact h.2
    · rw [(HandledBy.viewRequests htype).eq] at halone
      exact h.same (alone_handleViewRequests halone).1
    · rw [(HandledBy.approve htype).eq] at halone
      rcases alone_handleApproveRequest halone with ⟨-, hsame⟩ | ⟨-, req, m, happroves⟩
      · exact h.same hsame
      · refine h.taken hsender (Or.inl htype) hbehind happroves.pending happroves.changed.found happroves.owner
          happroves.left fun f => ?_
        rw [happroves.changed.after f]
        split
        · rename_i hf
          rw [hf, happroves.changed.found, Option.map_some, Option.map_some, FileMetadata.owner_grant]
        · rfl
    · rw [(HandledBy.deny htype).eq] at halone
      rcases alone_handleDenyRequest halone with ⟨-, hsame⟩ | ⟨-, req, m, hdenies⟩
      · exact h.same hsame
      · exact h.taken hsender (Or.inr htype) hbehind hdenies.pending hdenies.found hdenies.owner hdenies.left
          fun f => by rw [hdenies.same.1]

end

/-- The grant of a request is made: nothing but the user's entry in the access list of the file changes, and it says the
access that was asked for. -/
structure Granted (s : NameServer) (r : AccessRequest) (t : NameServer) : Prop where
  changed : ∃ m, RecordChanged s r.filename.str m (m.grant r.username.str r.requestedAccess) t
  access : (trieSearch t.fileTrie r.filename.str).map (·.accessOf r.username.str) = some (some r.requestedAccess)

/-- The access list of the file has an entry for the user, or room for one. -/
def HasRoomFor (s : NameServer) (r : AccessRequest) : Prop :=
  ∀ m ∈ trieSearch s.fileTrie r.filename.str, m.HasRoom r.username.str

instance (s : NameServer) (r : AccessRequest) : Decidable (HasRoomFor s r) :=
  inferInstanceAs (Decidable (∀ m ∈ _, _))

theorem RecordChanged.granted {m : FileMetadata} {r : AccessRequest}
    (h : RecordChanged s r.filename.str m (m.grant r.username.str r.requestedAccess) t) :
    Granted s r t ↔ HasRoomFor s r ∨ m.accessOf r.username.str = some r.requestedAccess := by
  have hafter : (trieSearch t.fileTrie r.filename.str).map (·.accessOf r.username.str) =
      some (if m.HasRoom r.username.str then some r.requestedAccess else m.accessOf r.username.str) := by
    rw [h.after, if_pos rfl, Option.map_some, FileMetadata.accessOf_grant]
    simp only [true_and]
  have hroom : HasRoomFor s r ↔ m.HasRoom r.username.str := by
    simp only [HasRoomFor, h.found, Option.mem_some_iff, forall_eq']
  rw [hroom]
  constructor
  · intro hgranted
    have haccess := Option.some.inj (hafter.symm.trans hgranted.access)
    split at haccess
    · exact Or.inl ‹_›
    · exact Or.inr haccess
  · intro hor
    refine ⟨⟨m, h⟩, hafter.trans (congrArg some ?_)⟩
    split
    · rfl
    · exact hor.resolve_left ‹_›

/-- **An approval applies to the request that was shown**, in every run of requests, views, approvals and denials of
others that takes no request from a position before it, if the access list then has an entry for the user or room for
one. -/
theorem approved_as_shown {s₀ s₁ s₂ : NameServer} {view answer : Message} {n : Nat} {r : AccessRequest}
    {reqs : List NmRequest} (hview : Alone (ExecSome NmOp.exec) s₀ (handleViewRequests view) answer s₁)
    (hshown : Shown s₀ view.sender.str n r)
    (hrun : Run (Guarded (fun s req => ByOthers view.sender.str req ∧ ¬ TakesBefore n s req)
      (Handles (ExecSome NmOp.exec))) s₁ reqs s₂)
    (hid : msg.sentenceIndex.toInt = n) (hroom : HasRoomFor s₂ r)
    (happrove : Alone (ExecSome NmOp.exec) s₂ (handleApproveRequest msg) reply t) :
    reply.status ≠ SUCCESS ∨ Granted s₂ r t := by
  have hlast : Shown s₂ view.sender.str n r := by
    have hfirst : Shown s₁ view.sender.str n r := hshown.same (alone_handleViewRequests hview).1
    refine hrun.state_invariant (I := fun s => Shown s view.sender.str n r) hfirst fun s req t h hstep => ?_
    obtain ⟨⟨hothers, hbehind⟩, hstep⟩ := hstep
    exact h.step hothers hbehind hstep
  rcases alone_handleApproveRequest happrove with ⟨hfailed, -⟩ | ⟨-, req, m, happroves⟩
  · exact Or.inl hfailed
  · have hreq := happroves.pending
    rw [requestAt_of_getElem hid, hlast.1] at hreq
    obtain rfl := Option.some.inj hreq
    exact Or.inr (happroves.changed.granted.mpr (Or.inl hroom))

/-! ## A position that moves -/

/-- A message of a user about a file. -/
def asks (type : Int32) (sender filename : CStr) (access id : Int32) : Message :=
  { initMessage with
    type := type, sender := .strncpy (MAX_USERNAME - 1) sender, filename := .strncpy (MAX_FILENAME - 1) filename,
    access := access, sentenceIndex := id }

/-- Two owners, `p` of the file `g` and `o` of the files `f` and `h`, and a request for each of the three. -/
def threeRequests : List NmRequest :=
  [registers 1 [], .client initMessage (asks MSG_CREATE (lit "p") (lit "g") 0 0),
    .client initMessage (asks MSG_CREATE (lit "o") (lit "f") 0 0),
    .client initMessage (asks MSG_CREATE (lit "o") (lit "h") 0 0),
    .client initMessage (asks MSG_REQUESTACCESS (lit "u") (lit "g") ACCESS_READ 0),
    .client initMessage (asks MSG_REQUESTACCESS (lit "u") (lit "f") ACCESS_READ 0),
    .client initMessage (asks MSG_REQUESTACCESS (lit "v") (lit "h") ACCESS_READWRITE 0)]

def viewMsg : Message := asks MSG_VIEWREQUESTS (lit "o") [] 0 0
def approveMsg : Message := asks MSG_APPROVEREQUEST (lit "o") [] 0 1

/-- Somebody's message between the view of `o` and the approval: the four states, and the reply to the approval. -/
def approvedAfter (between : Message) :
    Option (NameServer × NameServer × NameServer × Message × NameServer) :=
  (handleAllAlone oneCall initNameServer threeRequests).bind fun s₀ =>
    (runAlone oneCall (handleViewRequests viewMsg) s₀).bind fun viewed =>
      (handleAllAlone oneCall viewed.2 [.client initMessage between]).bind fun s₂ =>
        (runAlone oneCall (handleApproveRequest approveMsg) s₂).map fun r => (s₀, viewed.2, s₂, r.1, r.2)

theorem run_approvedAfter {β : Type} (between : Message)
    (view : NameServer → NameServer → Message → NameServer → β) {b : β}
    (h : (approvedAfter between).map (fun r => view r.1 r.2.2.1 r.2.2.2.1 r.2.2.2.2) = some b) :
    ∃ s₀ answer s₁ s₂ reply t, view s₀ s₂ reply t = b ∧
      Run (Handles (ExecSome NmOp.exec)) initNameServer threeRequests s₀ ∧
      Alone (ExecSome NmOp.exec) s₀ (handleViewRequests viewMsg) answer s₁ ∧
      Handles (ExecSome NmOp.exec) s₁ (.client initMessage between) s₂ ∧
      Alone (ExecSome NmOp.exec) s₂ (handleApproveRequest approveMsg) reply t := by
  obtain ⟨r, happroved, rfl⟩ := Option.map_eq_some_iff.mp h
  obtain ⟨s₀, hs₀, happroved⟩ := Option.bind_eq_some_iff.mp happroved
  obtain ⟨⟨answer, s₁⟩, hview, happroved⟩ := Option.bind_eq_some_iff.mp happroved
  obtain ⟨s₂, hbetween, happroved⟩ := Option.bind_eq_some_iff.mp happroved
  obtain ⟨⟨reply, t⟩, happrove, rfl⟩ := Option.map_eq_some_iff.mp happroved
  exact ⟨s₀, answer, s₁, s₂, reply, t, rfl, run_oneCall hs₀,
    alone_oneCall hview, (run_oneCall hbetween).of_single,
    alone_oneCall happrove⟩

/-- What is seen of a run: the file of the request under position 1 and the owner of `f` at the view, whether there is
room for the grant, the answer to the approval, and the access of `v` to `h` before and after it. -/
structure Seen where
  file : Option CStr
  owner : Option CStr
  room : Bool
  status : Int32
  before : Option (Option Int32)
  after : Option (Option Int32)
  deriving DecidableEq

def seen (s₀ s₂ : NameServer) (reply : Message) (t : NameServer) : Seen where
  file := (s₀.accessRequests[1]?).map (·.filename.str)
  owner := (trieSearch s₀.fileTrie (lit "f")).map (·.owner)
  room := (s₀.accessRequests[1]?).all (HasRoomFor s₂)
  status := reply.status
  before := (trieSearch s₂.fileTrie (lit "h")).map (·.accessOf (lit "v"))
  after := (trieSearch t.fileTrie (lit "h")).map (·.accessOf (lit "v"))

theorem shown_of_seen {s₀ s₂ t : NameServer} {seenThen : Seen} (hseen : seen s₀ s₂ reply t = seenThen)
    (hfile : seenThen.file = some (lit "f")) (howner : seenThen.owner = some (lit "o")) :
    ∃ r, r.filename.str = lit "f" ∧ Shown s₀ viewMsg.sender.str 1 r ∧ (seenThen.room = true → HasRoomFor s₂ r) := by
  rw [← hseen] at hfile howner
  obtain ⟨r, hr, hname⟩ := Option.map_eq_some_iff.mp hfile
  refine ⟨r, hname, ⟨hr, ?_⟩, fun hroom => ?_⟩
  · rw [hname]
    exact howner
  · rw [← hseen] at hroom
    have hall : (s₀.accessRequests[1]?).all (HasRoomFor s₂) = true := hroom
    rw [hr, Option.all_some, decide_eq_true_eq] at hall
    exact hall

def askMsg : Message := asks MSG_REQUESTACCESS (lit "w") (lit "f") ACCESS_READ 0
def denyMsg : Message := asks MSG_DENYREQUEST (lit "p") [] 0 0

/-- Another user asks for access in between. -/
theorem approved_as_shown_one : ∃ (s₂ : NameServer) (reply : Message) (t : NameServer) (r : AccessRequest),
    Alone (ExecSome NmOp.exec) s₂ (handleApproveRequest approveMsg) reply t ∧ reply.status = SUCCESS ∧
      Granted s₂ r t := by
  obtain ⟨s₀, answer, s₁, s₂, reply, t, hseen, -, hview, hbetween, happrove⟩ := run_approvedAfter askMsg seen
    (b := ⟨some (lit "f"), some (lit "o"), true, SUCCESS, some none, some none⟩) (by decide +kernel)
  obtain ⟨r, -, hr, hroom⟩ := shown_of_seen hseen rfl rfl
  have hothers : ByOthers viewMsg.sender.str (.client initMessage askMsg) := ⟨Or.inl rfl, by decide⟩
  have hbehind : ¬ TakesBefore 1 s₁ (.client initMessage askMsg) := fun htakes => absurd htakes.1 (by decide)
  have hid : approveMsg.sentenceIndex.toInt = (1 : Nat) := by decide
  have happroved :=
    approved_as_shown hview hr (.single ⟨⟨hothers, hbehind⟩, hbetween⟩) hid (hroom rfl) happrove
  have hstatus : reply.status = SUCCESS := congrArg Seen.status hseen
  exact ⟨s₂, reply, t, r, happrove, hstatus, happroved.resolve_left (not_not.mpr hstatus)⟩

/-- **A denial between the view and the approval**: `o` is shown the request of `u` for `f` under position 1, `p` denies
the request before it, and the approval of position 1 gives `v` the access to `h`. -/
theorem approved_another : ∃ (s₀ : NameServer) (view answer : Message) (s₁ : NameServer) (r : AccessRequest)
    (between : NmRequest) (s₂ : NameServer) (msg reply : Message) (t : NameServer),
    Run (Handles (ExecSome NmOp.exec)) initNameServer threeRequests s₀ ∧
      Alone (ExecSome NmOp.exec) s₀ (handleViewRequests view) answer s₁ ∧ Shown s₀ view.sender.str 1 r ∧
      ByOthers view.sender.str between ∧ Handles (ExecSome NmOp.exec) s₁ between s₂ ∧ msg.sender = view.sender ∧
      msg.sentenceIndex = 1 ∧ Alone (ExecSome NmOp.exec) s₂ (handleApproveRequest msg) reply t ∧
      reply.status = SUCCESS ∧ HasRoomFor s₂ r ∧ ¬ Granted s₂ r t := by
  obtain ⟨s₀, answer, s₁, s₂, reply, t, hseen, hrun, hview, hbetween, happrove⟩ := run_approvedAfter denyMsg seen
    (b := ⟨some (lit "f"), some (lit "o"), true, SUCCESS, some none, some (some ACCESS_READWRITE)⟩) (by decide +kernel)
  obtain ⟨r, hname, hr, hroom⟩ := shown_of_seen hseen rfl rfl
  have hothers : ByOthers viewMsg.sender.str (.client initMessage denyMsg) :=
    ⟨Or.inr (Or.inr (Or.inr rfl)), by decide⟩
  refine ⟨s₀, viewMsg, answer, s₁, r, .client initMessage denyMsg, s₂, approveMsg, reply, t, hrun, hview, hr, hothers,
    hbetween, rfl, rfl, happrove, congrArg Seen.status hseen, hroom rfl, ?_⟩
  rintro ⟨⟨m, hchanged⟩, -⟩
  have hother : lit "h" ≠ r.filename.str := by
    rw [hname]
    decide
  have hbefore : (trieSearch s₂.fileTrie (lit "h")).map (·.accessOf (lit "v")) = some none :=
    congrArg Seen.before hseen
  have hafter : (trieSearch t.fileTrie (lit "h")).map (·.accessOf (lit "v")) = some (some ACCESS_READWRITE) :=
    congrArg Seen.after hseen
  rw [hchanged.after, if_neg hother, hbefore] at hafter
  cases hafter

end NetworkFileShare
