import NetworkFileShare.NameServer.Access
import NetworkFileShare.NameServer.Grants

/-!
# What the handlers' calls rest on (`nm.c`)

* `NmOp.need` : the right on a file that a call stands for; `Looked` : a call has found it in the file's record;
* `Warranted` : the right has been looked for, a changed record is a copy that was read, with the change of the request
  if its owner has sent it, and a request for access is the client's own;
* `Plain` : the calls that this says nothing about, and the handlers that make no others;
* `nmBody_warranted` : every handler keeps to it, whatever its calls are answered.
-/

namespace NetworkFileShare

open NmOp (perform)
open Prog

/-! ## The right that a call stands for -/

/-- The right that something takes: that of the owner, or to read or write. -/
inductive Need where
  | ownership
  | access (required : Int32)
  deriving DecidableEq

/-- A message to a storage server that deletes, moves or reads a file, or works on its checkpoints. -/
def messageNeed (m : Message) : Option (CStr × Need) :=
  if m.type = MSG_CHECK_LOCKS ∨ m.type = MSG_DELETE then some (m.filename.str, .ownership)
  else if m.type = MSG_MOVE ∨ m.type = MSG_CHECKPOINT ∨ m.type = MSG_VIEWCHECKPOINT ∨ m.type = MSG_REVERT ∨
      m.type = MSG_LISTCHECKPOINTS then some (m.filename.str, .access ACCESS_WRITE)
  else if m.type = MSG_SS_INFO ∧ m.data.str = lit "READ_CONTENT" then some (m.filename.str, .access ACCESS_READ)
  else none

/-- What it takes to be told where a file is. -/
def locationNeed (type : Int32) : Option Need :=
  if type = MSG_WRITE ∨ type = MSG_UNDO then some (.access ACCESS_WRITE)
  else if type = MSG_READ ∨ type = MSG_STREAM then some (.access ACCESS_READ)
  else none

/-- What it takes to change a record, by the type of the client's message. `VIEW` takes no right: it writes what the
storage servers report of the files' sizes back into every record. -/
def updateNeed (type : Int32) : Option Need :=
  if type = MSG_ADDACCESS ∨ type = MSG_REMACCESS ∨ type = MSG_APPROVEREQUEST then some .ownership
  else if type = MSG_MOVE then some (.access ACCESS_WRITE)
  else locationNeed type

/-- The file and the right that a call made for a client's message stands for. -/
def NmOp.need (type : Int32) : NmOp → Option (CStr × Need)
  | .exchange _ m => messageNeed m
  | .trieUpdate filename _ => (updateNeed type).map (filename, ·)
  | .trieDelete filename => some (filename, .ownership)
  | _ => none

/-- The call has found the right in the record of the file. -/
def Finds (filename u : CStr) (need : Need) : NmCall → Prop
  | ⟨.trieSearch name, ans⟩ => name = filename ∧ ∃ m ∈ (ans : Option FileMetadata), m.owner = u
  | ⟨.checkAccess name user required, ans⟩ =>
    name = filename ∧ user = u ∧ need = .access required ∧ IsRight required ∧ (ans : Bool) = true
  | _ => False

/-- One of the calls has. -/
def Looked (past : List NmCall) (filename u : CStr) (need : Need) : Prop := ∃ c ∈ past, Finds filename u need c

/-- One of the calls has read the record of the file. -/
def ReadIn (past : List NmCall) (filename : CStr) (m : FileMetadata) : Prop := ∃ c ∈ past, m ∈ readBy filename [] c

theorem Looked.mono {past past' : List NmCall} {filename u : CStr} {need : Need} (h : Looked past filename u need)
    (hsub : past ⊆ past') : Looked past' filename u need := by
  obtain ⟨c, hc, hfinds⟩ := h
  exact ⟨c, hsub hc, hfinds⟩

theorem ReadIn.mono {past past' : List NmCall} {filename : CStr} {m : FileMetadata} (h : ReadIn past filename m)
    (hsub : past ⊆ past') : ReadIn past' filename m := by
  obtain ⟨c, hc, hm⟩ := h
  exact ⟨c, hsub hc, hm⟩

/-! ## The contract of the handlers -/

/-- The user under whose name a request is made. -/
def NmRequest.user : NmRequest → Option CStr
  | .client _ msg => some msg.sender.str
  | _ => none

/-- Who a file registered by the request belongs to. -/
def NmRequest.maker (filename : CStr) : NmRequest → Option CStr
  | .client _ msg => if msg.type = MSG_CREATE ∧ msg.filename.str = filename then some msg.sender.str else none
  | .registerSs _ => some (lit "system")
  | _ => none

/-- Where the data come from that a call puts into the tables: a changed record is the copy that was read, with the
change of the request if the owner has sent it; a new one belongs to its maker and has no entries; a request for access
is the client's own. -/
def Sourced (req : NmRequest) (past : List NmCall) : NmOp → Prop
  | .trieUpdate filename m => ∃ copy, ReadIn past filename copy ∧ m.filename = copy.filename ∧ m.owner = copy.owner ∧
      m.acl = editedAcl (callChange req past (.trieUpdate filename m)) copy ∧
      (callChange req past (.trieUpdate filename m) ≠ none → req.user = some copy.owner)
  | .trieInsert filename m => m.filename = filename ∧ req.maker filename = some m.owner ∧ m.acl = []
  | .addRequest r => ∃ prior msg, req = .client prior msg ∧ msg.type = MSG_REQUESTACCESS ∧ msg.sender = r.username ∧
      msg.filename = r.filename ∧ msg.access = r.requestedAccess
  | _ => True

/-- The right that a call of a client's request stands for has been found in the record. -/
def Backed (past : List NmCall) (op : NmOp) : NmRequest → Prop
  | .client _ msg => ∀ filename need, op.need msg.type = some (filename, need) →
      Looked past filename msg.sender.str need
  | _ => True

/-- What a call rests on. -/
structure Warranted (req : NmRequest) (past : List NmCall) (op : NmOp) : Prop where
  sourced : Sourced req past op
  backed : Backed past op req

/-- Who is told where a file is has the right that it takes. -/
def Told (req : NmRequest) (past : List NmCall) (result : Option Message) : Prop :=
  ∀ prior msg reply need, req = .client prior msg → result = some reply → reply.status = SUCCESS →
    locationNeed msg.type = some need → Looked past msg.filename.str msg.sender.str need

/-- The program keeps to the contract of `req`, whatever it is answered. -/
abbrev KeepsWarrant {α : Type} (req : NmRequest) (post : List NmCall → α → Prop) (past : List NmCall)
    (p : Handler α) : Prop := p.Obeys (fun _ => True) (Warranted req) post past

/-- Calls that change no record and stand for no right. -/
def Plain : NmOp → Prop
  | .trieInsert _ _ | .trieUpdate _ _ | .trieDelete _ | .addRequest _ => False
  | .exchange _ m => messageNeed m = none
  | _ => True

section
variable {req : NmRequest} {past : List NmCall}

theorem Warranted.plain {op : NmOp} (h : Plain op) : Warranted req past op := by
  have hneed : ∀ type, op.need type = none := by
    intro type
    cases op with
    | trieUpdate _ _ | trieDelete _ => exact h.elim
    | exchange _ m => exact h
    | _ => rfl
  constructor
  · cases op with
    | trieInsert _ _ | trieUpdate _ _ | addRequest _ => exact h.elim
    | _ => trivial
  · cases req with
    | client prior msg =>
      intro filename need hsome
      rw [hneed] at hsome
      cases hsome
    | _ => trivial

/-- Plain calls, and what is left of the program, with more calls at hand. -/
theorem keepsWarrant_of_plain {α : Type} {p : Handler α} (h : Only Plain p) :
    KeepsWarrant req (fun past' _ => past ⊆ past') past p :=
  h.obeys (J := fun past' => past ⊆ past') (fun _ _ hop _ => .plain hop)
    (fun _ _ _ _ hJ => fun _ hc => List.mem_append_left _ (hJ hc)) (fun _ _ hJ => hJ) fun _ hc => hc

theorem KeepsWarrant.any {α : Type} {p : Handler α} (h : Only Plain p) :
    KeepsWarrant req (fun _ _ => True) past p := (keepsWarrant_of_plain h).mono fun _ _ _ => trivial

/-- A record is written back that was read, with the change of the request. -/
theorem writeBack_warranted {filename : CStr} {copy m : FileMetadata} (hread : ReadIn past filename copy)
    (hname : m.filename = copy.filename) (howner : m.owner = copy.owner)
    (hacl : m.acl = editedAcl ((aclTarget req past).filter (·.1 = filename)) copy)
    (hsender : aclTarget req past ≠ none → req.user = some copy.owner)
    (hbacked : Backed past (.trieUpdate filename m) req) :
    KeepsWarrant req (fun past' _ => past ⊆ past') past (writeBack filename m) := by
  refine .perform_bind ⟨⟨copy, hread, hname, howner, hacl, fun hchange => hsender fun hnone => hchange ?_⟩, hbacked⟩
    fun _ _ => ⟨.plain trivial, fun _ _ => fun c hc => by simp [hc]⟩
  rw [callChange, NmOp.updated, Option.bind_some, hnone]
  rfl

end

/-! ## The handlers that need no right -/

theorem exchangeWith_plain {idx : Nat} {msg : Message} (h : messageNeed msg = none) :
    Only Plain (exchangeWith idx msg) :=
  .bind (.perform trivial) fun _ => .bind (.perform h) fun reply => .bind (.perform trivial) fun _ => .pure reply

theorem findSsForFile_plain (filename : CStr) : Only Plain (findSsForFile filename) := by
  refine .bind (.perform trivial) fun cached => ?_
  rcases cached with _ | metadata
  · refine .bind (.perform trivial) fun found => ?_
    rcases found with _ | metadata
    · exact .pure _
    · exact .bind (.perform trivial) fun _ => .pure _
  · exact .pure _

theorem viewRequestLines_plain (sender : CStr) : ∀ (i : Nat) (requests : List AccessRequest),
    Only Plain (viewRequestLines sender i requests)
  | _, [] => .pure _
  | i, r :: rs => by
    have ih := viewRequestLines_plain sender (i + 1) rs
    have hline : Only Plain (viewRequestLine i r) := .bind (.perform trivial) fun time => .pure _
    exact .bind (.perform trivial) fun metadata => .ite (.bind hline fun line => .bind ih fun rest => .pure _) ih

theorem handleViewRequests_plain (msg : Message) : Only Plain (handleViewRequests msg) :=
  .bind (.perform trivial) fun _ => .bind (.perform trivial) fun _ => .bind (viewRequestLines_plain _ _ _) fun _ =>
    .bind (.perform trivial) fun _ => .pure _

theorem handleDenyRequest_plain (msg : Message) : Only Plain (handleDenyRequest msg) := by
  refine .bind (.perform trivial) fun _ => .bind (.perform trivial) fun requests => ?_
  rcases requestAt requests msg.sentenceIndex with _ | req
  · exact .bind (.perform trivial) fun _ => .pure _
  refine .bind (.perform trivial) fun found => ?_
  rcases found with _ | metadata
  · exact .bind (.perform trivial) fun _ => .pure _
  refine .ite (.bind (.perform trivial) fun _ => .pure _) ?_
  exact .bind (.perform trivial) fun _ => .bind (.perform trivial) fun _ => .pure _

theorem handleCreateFolder_plain (msg : Message) : Only Plain (handleCreateFolder msg) := by
  refine .bind (.perform trivial) fun found => ?_
  rcases found with _ | folder
  · refine .bind (.perform trivial) fun ssId => .ite (.pure _) (.bind (.perform trivial) fun idx => ?_)
    rcases idx with _ | idx
    · exact .pure _
    refine .bind (exchangeWith_plain rfl) fun reply => .ite ?_ (.pure _)
    exact .bind (.perform trivial) fun now => .bind (.perform trivial) fun _ => .pure _
  · exact .pure _

theorem viewFolderLines_plain (path sender : CStr) : ∀ files : List FileMetadata,
    Only Plain (viewFolderLines path sender files)
  | [] => .pure _
  | f :: fs => by
    have ih := viewFolderLines_plain path sender fs
    exact .ite (.bind (.perform trivial) fun allowed => .bind ih fun rest => .pure _) ih

theorem handleViewFolder_plain (msg : Message) : Only Plain (handleViewFolder msg) := by
  have hlist : Only Plain (listFolder msg) :=
    .bind (.perform trivial) fun files => .bind (viewFolderLines_plain _ _ files) fun _ => .pure _
  refine .ite hlist (.bind (.perform trivial) fun found => ?_)
  rcases found with _ | folder
  · exact .pure _
  · exact hlist

theorem viewLines_plain (showAll showDetails : Bool) (sender : CStr) : ∀ files : List FileMetadata,
    Only Plain (viewLines showAll showDetails sender files)
  | [] => .pure _
  | f :: fs => by
    have ih := viewLines_plain showAll showDetails sender fs
    have hline : Only Plain (viewLine showDetails f) := .ite (.bind (.perform trivial) fun time => .pure _) (.pure _)
    refine .bind (.ite (.pure _) (.perform trivial)) fun hasAccess => .ite ?_ ih
    exact .bind hline fun line => .bind ih fun rest => .pure _

theorem handleInfo_plain (msg : Message) : Only Plain (handleInfo msg) := by
  refine .bind (.perform trivial) fun found => ?_
  rcases found with _ | metadata
  · exact .pure _
  have hcurrent : Only Plain (currentInfo msg metadata) := by
    refine .bind (findSsForFile_plain _) fun ssId => .ite (.pure _) (.bind (.perform trivial) fun slot => ?_)
    rcases slot with _ | idx
    · exact .pure _
    · exact .bind (exchangeWith_plain rfl) fun _ => .pure _
  exact .bind hcurrent fun _ => .bind (.perform trivial) fun _ => .bind (.perform trivial) fun _ =>
    .bind (.perform trivial) fun _ => .pure _

theorem handleList_plain : Only Plain handleList :=
  .bind (.perform trivial) fun _ => .bind (.perform trivial) fun _ => .pure _

/-! ## The handlers that use a file or change a record -/

/-- The search of the file's record, which has the user for its owner. -/
theorem looked_of_owner {past : List NmCall} {filename u : CStr} {m : FileMetadata}
    (hc : ⟨.trieSearch filename, some m⟩ ∈ past) (howner : m.owner = u) (need : Need) : Looked past filename u need :=
  ⟨_, hc, rfl, m, rfl, howner⟩

theorem FileMetadata.filename_grant (m : FileMetadata) (u : CStr) (a : Int32) :
    (m.grant u a).filename = m.filename := by
  unfold FileMetadata.grant
  split
  · rfl
  · split <;> rfl

theorem AclChange.apply_owner (ch : AclChange) (m : FileMetadata) : (ch.apply m).owner = m.owner := by
  cases ch with
  | grant u a => exact m.owner_grant u a
  | revoke u => rfl

theorem AclChange.apply_filename (ch : AclChange) (m : FileMetadata) : (ch.apply m).filename = m.filename := by
  cases ch with
  | grant u a => exact m.filename_grant u a
  | revoke u => rfl

theorem looked_of_access {past : List NmCall} {filename u : CStr} {required : Int32} {allowed : Bool}
    (hc : ⟨.checkAccess filename u required, allowed⟩ ∈ past) (hallowed : allowed = true) (hright : IsRight required) :
    Looked past filename u (.access required) := ⟨_, hc, rfl, rfl, rfl, hright, hallowed⟩

theorem readIn_of_search {past : List NmCall} {filename : CStr} {m : FileMetadata}
    (hc : ⟨.trieSearch filename, some m⟩ ∈ past) : ReadIn past filename m := by
  refine ⟨_, hc, ?_⟩
  rw [readBy, if_pos rfl]
  exact List.mem_singleton_self m

section
variable {prior msg : Message} {past : List NmCall}

/-- An exchange that stands for a right that has been found. -/
theorem exchangeWith_warranted {idx : Nat} {m : Message}
    (h : ∀ filename need, messageNeed m = some (filename, need) → Looked past filename msg.sender.str need) :
    KeepsWarrant (.client prior msg) (fun past' _ => past ⊆ past') past (exchangeWith idx m) := by
  refine .perform_bind (.plain trivial) fun _ _ => .perform_bind ⟨trivial, fun filename need hneed => ?_⟩ fun reply _ =>
    .perform_bind (.plain trivial) fun _ _ => fun c hc => by simp [hc]
  exact (h filename need hneed).mono (List.subset_append_left _ _)

theorem handleRequestAccess_warranted (htype : msg.type = MSG_REQUESTACCESS) :
    KeepsWarrant (.client prior msg) (fun _ _ => True) past (handleRequestAccess msg) := by
  refine .perform_bind (.plain trivial) fun found _ => ?_
  rcases found with _ | metadata
  · trivial
  refine .perform_bind (.plain trivial) fun allowed _ => .ite (fun _ => trivial) fun _ => ?_
  refine .perform_bind (.plain trivial) fun _ _ => .perform_bind (.plain trivial) fun requests _ => ?_
  refine .ite (fun _ => .perform_bind (.plain trivial) fun _ _ => trivial) fun _ => .ite (fun _ => ?_) fun _ => ?_
  · refine .perform_bind (.plain trivial) fun now _ => .perform_bind ⟨?_, fun _ _ hneed => by cases hneed⟩ fun _ _ =>
      .perform_bind (.plain trivial) fun _ _ => trivial
    exact ⟨prior, msg, rfl, htype, rfl, rfl, rfl⟩
  · exact .perform_bind (.plain trivial) fun _ _ => trivial

theorem handleCreate_warranted (htype : msg.type = MSG_CREATE) :
    KeepsWarrant (.client prior msg) (fun _ _ => True) past (handleCreate msg) := by
  refine .perform_bind (.plain trivial) fun found _ => ?_
  rcases found with _ | existing
  · refine .perform_bind (.plain trivial) fun ssId _ => .ite (fun _ => trivial) fun _ => ?_
    refine .perform_bind (.plain trivial) fun idx _ => ?_
    rcases idx with _ | idx
    · trivial
    refine .bind (keepsWarrant_of_plain (exchangeWith_plain rfl)) fun past' reply _ =>
      .ite (fun _ => ?_) fun _ => trivial
    refine .perform_bind (.plain trivial) fun now _ => .perform_bind ⟨⟨rfl, ?_, rfl⟩, fun _ _ hneed => by cases hneed⟩
      fun _ _ => .perform_bind (.plain trivial) fun _ _ => trivial
    exact if_pos ⟨htype, rfl⟩
  · trivial

theorem handleDelete_warranted : KeepsWarrant (.client prior msg) (fun _ _ => True) past (handleDelete msg) := by
  refine .perform_bind (.plain trivial) fun found _ => ?_
  rcases found with _ | metadata
  · trivial
  refine .ite (fun _ => trivial) fun howner => .perform_bind (.plain trivial) fun idx _ => ?_
  rcases idx with _ | idx
  · trivial
  have hlooked : ∀ past' : List NmCall, ⟨.trieSearch msg.filename.str, some metadata⟩ ∈ past' →
      Looked past' msg.filename.str msg.sender.str .ownership :=
    fun past' hc => looked_of_owner hc (not_not.mp howner) .ownership
  refine .perform_bind (.plain trivial) fun _ _ => ?_
  refine .perform_bind ⟨trivial, fun _ _ hneed => ?_⟩ fun lockReply _ => .ite (fun _ => ?_) fun _ => ?_
  · cases hneed
    exact hlooked _ (by simp)
  · exact .perform_bind (.plain trivial) fun _ _ => trivial
  refine .perform_bind ⟨trivial, fun _ _ hneed => ?_⟩ fun reply _ =>
    .perform_bind (.plain trivial) fun _ _ => .ite (fun _ => ?_) fun _ => trivial
  · cases hneed
    exact hlooked _ (by simp)
  refine .perform_bind ⟨trivial, fun _ _ hneed => ?_⟩ fun _ _ => .perform_bind (.plain trivial) fun _ _ => trivial
  cases hneed
  exact hlooked _ (by simp)

theorem handleAccess_warranted (htype : msg.type = MSG_ADDACCESS ∨ msg.type = MSG_REMACCESS) :
    KeepsWarrant (.client prior msg) (fun _ _ => True) past (handleAccess msg) := by
  refine .perform_bind (.plain trivial) fun found _ => ?_
  rcases found with _ | metadata
  · trivial
  refine .ite (fun _ => trivial) fun howner => ?_
  have howner := not_not.mp howner
  have hneed : updateNeed msg.type = some .ownership := if_pos (htype.imp_right Or.inl)
  -- the record that was read is written back with the change of the message
  have hwrite : ∀ (past' : List NmCall) (ch : AclChange), ⟨.trieSearch msg.filename.str, some metadata⟩ ∈ past' →
      aclTarget (.client prior msg) past' = some (msg.filename.str, ch) →
      KeepsWarrant (.client prior msg) (fun _ _ => True) past' (do
        writeBack msg.filename.str (ch.apply metadata)
        return replyStatus SUCCESS) := by
    intro past' ch hc htarget
    refine .bind (writeBack_warranted (readIn_of_search hc) (ch.apply_filename metadata) (ch.apply_owner metadata)
      ?_ ?_ ?_) fun _ _ _ => trivial
    · rw [htarget, Option.filter_some, if_pos (decide_eq_true rfl)]
      rfl
    · exact fun _ => congrArg some howner.symm
    · intro filename need hsome
      rw [NmOp.need, hneed] at hsome
      cases hsome
      exact looked_of_owner hc howner _
  refine .ite (fun hadd => ?_) fun hadd => ?_
  · refine .perform_bind (.plain trivial) fun known _ => .ite (fun _ => ?_) fun _ => trivial
    refine .ite (fun _ => trivial) fun _ => ?_
    exact hwrite _ (.grant msg.targetUser.str msg.access) (by simp) (by rw [aclTarget, if_pos hadd])
  · have hrem : msg.type = MSG_REMACCESS := htype.resolve_left hadd
    refine .ite (fun _ => ?_) fun hne => absurd hrem hne
    exact hwrite _ (.revoke msg.targetUser.str) (by simp) (by rw [aclTarget, if_neg hadd, if_pos hrem])

theorem handleApproveRequest_warranted (htype : msg.type = MSG_APPROVEREQUEST) :
    KeepsWarrant (.client prior msg) (fun _ _ => True) [] (handleApproveRequest msg) := by
  refine .perform_bind (.plain trivial) fun locked _ => .perform_bind (.plain trivial) fun requests _ => ?_
  have herror : ∀ {past : List NmCall} (status : Int32), KeepsWarrant (.client prior msg) (fun _ _ => True) past (do
      perform (.unlock .request)
      return replyStatus status) := fun status => .perform_bind (.plain trivial) fun _ _ => trivial
  cases hreq : requestAt requests msg.sentenceIndex with
  | none => exact herror _
  | some r =>
    refine .perform_bind (.plain trivial) fun found _ => ?_
    rcases found with _ | metadata
    · exact herror _
    refine .ite (fun _ => herror _) fun howner => ?_
    have howner := not_not.mp howner
    have hneed : updateNeed msg.type = some .ownership := if_pos (Or.inr (Or.inr htype))
    have htarget : aclTarget (.client prior msg) ([] ++ [⟨.lock .request, locked⟩] ++
        [⟨.accessRequests, requests⟩] ++ [⟨.trieSearch r.filename.str, some metadata⟩]) =
        some (r.filename.str, .grant r.username.str r.requestedAccess) := by
      rw [aclTarget, if_neg (by rw [htype]; decide), if_neg (by rw [htype]; decide), if_pos htype]
      simp [approved, hreq]
    refine .bind (writeBack_warranted (readIn_of_search (m := metadata) (by simp))
      (metadata.filename_grant r.username.str r.requestedAccess)
      (metadata.owner_grant r.username.str r.requestedAccess) ?_ ?_ ?_) fun _ _ _ =>
        .perform_bind (.plain trivial) fun _ _ => .perform_bind (.plain trivial) fun _ _ => trivial
    · rw [htarget, Option.filter_some, if_pos (decide_eq_true rfl)]
      rfl
    · exact fun _ => congrArg some howner.symm
    · intro filename need hsome
      rw [NmOp.need, hneed] at hsome
      cases hsome
      exact looked_of_owner (m := metadata) (by simp) howner _

/-- A copy is written back whose list is the one that was read, by a request that changes no list. -/
theorem writeBack_warranted_same {filename : CStr} {copy m : FileMetadata}
    (hchange : aclTarget (.client prior msg) past = none) (hread : ReadIn past filename copy)
    (hname : m.filename = copy.filename) (howner : m.owner = copy.owner) (hacl : m.acl = copy.acl)
    (hneed : ∀ need, updateNeed msg.type = some need → Looked past filename msg.sender.str need) :
    KeepsWarrant (.client prior msg) (fun past' _ => past ⊆ past') past (writeBack filename m) := by
  refine writeBack_warranted hread hname howner ?_ (fun h => absurd hchange h) fun name need hsome => ?_
  · rw [hchange]
    exact hacl
  · obtain ⟨need', hupdate, he⟩ := Option.map_eq_some_iff.mp hsome
    obtain ⟨rfl, rfl⟩ := Prod.mk.inj he
    exact hneed need' hupdate

theorem aclTarget_eq_none (prior : Message) (h : ¬ ChangesAccess msg) (past : List NmCall) :
    aclTarget (.client prior msg) past = none := by
  simp only [ChangesAccess, not_or] at h
  rw [aclTarget, if_neg h.1, if_neg h.2.1, if_neg h.2.2]

theorem handleMove_warranted (htype : msg.type = MSG_MOVE) :
    KeepsWarrant (.client prior msg) (fun _ _ => True) past (handleMove msg) := by
  have hchange := aclTarget_eq_none prior (by unfold ChangesAccess; rw [htype]; decide)
  refine .perform_bind (.plain trivial) fun found _ => ?_
  rcases found with _ | metadata
  · trivial
  have hmay : KeepsWarrant (.client prior msg) (fun past' allowed => allowed = true →
      ⟨.trieSearch msg.filename.str, some metadata⟩ ∈ past' ∧
        Looked past' msg.filename.str msg.sender.str (.access ACCESS_WRITE))
      (past ++ [⟨.trieSearch msg.filename.str, some metadata⟩]) (mayMove msg metadata) := by
    refine .ite (fun howner => fun _ => ?_) fun _ => ⟨.plain trivial, fun allowed _ => fun hallowed => ?_⟩
    · exact ⟨by simp, looked_of_owner (by simp) howner _⟩
    · exact ⟨by simp, looked_of_access (by simp) hallowed (Or.inr rfl)⟩
  -- the exchange and the update stand for the same right
  have hmove : ∀ past' : List NmCall, ⟨.trieSearch msg.filename.str, some metadata⟩ ∈ past' →
      Looked past' msg.filename.str msg.sender.str (.access ACCESS_WRITE) →
      KeepsWarrant (.client prior msg) (fun _ _ => True) past' (moveFile msg metadata) := by
    intro past' hsearch hlooked
    refine .perform_bind (.plain trivial) fun idx _ => ?_
    rcases idx with _ | idx
    · trivial
    have hsub : past' ⊆ past' ++ [⟨.ssIndex metadata.ssId true, some idx⟩] := List.subset_append_left _ _
    refine .bind (exchangeWith_warranted fun filename need hneed => ?_) fun past₂ reply hpast₂ =>
      .ite (fun _ => ?_) fun _ => trivial
    · cases hneed
      exact hlooked.mono hsub
    · refine .bind (writeBack_warranted_same (hchange _) (readIn_of_search (hpast₂ (hsub hsearch))) rfl rfl rfl
        fun need hneed => ?_) fun _ _ _ => trivial
      rw [updateNeed, htype] at hneed
      cases hneed
      exact (hlooked.mono hsub).mono hpast₂
  refine .bind hmay fun past' allowed hallowed => .ite (fun _ => trivial) fun hyes => ?_
  obtain ⟨hsearch, hlooked⟩ := hallowed (by simpa using hyes)
  refine .ite (fun _ => hmove past' hsearch hlooked) fun _ => .perform_bind (.plain trivial) fun folder _ => ?_
  rcases folder with _ | folder
  · trivial
  · exact hmove _ (List.mem_append_left _ hsearch) (hlooked.mono (List.subset_append_left _ _))

theorem scanFields_filename (s : CStr) (m : FileMetadata) : (scanFields statFields s m).filename = m.filename :=
  scanFields_keeps (·.filename) (by simp [statFields]) s m

theorem scanFields_owner (s : CStr) (m : FileMetadata) : (scanFields statFields s m).owner = m.owner :=
  scanFields_keeps (·.owner) (by simp [statFields]) s m

theorem refreshFile_warranted (htype : msg.type = MSG_VIEW) {f : FileMetadata} (hread : ReadIn past f.filename f) :
    KeepsWarrant (.client prior msg) (fun past' _ => past ⊆ past') past (refreshFile f) := by
  have hchange := aclTarget_eq_none prior (by unfold ChangesAccess; rw [htype]; decide)
  refine .perform_bind (.plain trivial) fun idx _ => ?_
  rcases idx with _ | idx
  · exact List.subset_append_left _ _
  refine .perform_bind (.plain trivial) fun _ _ => .perform_bind (.plain rfl) fun reply _ =>
    .ite (fun _ => ?_) fun _ => ?_
  · refine .bind (writeBack_warranted_same (hchange _) (hread.mono fun c hc => by simp [hc]) (scanFields_filename _ f)
      (scanFields_owner _ f) (acl_statFields _ f) fun need hneed => ?_) fun past' _ hpast' =>
        .perform_bind (.plain trivial) fun _ _ => fun c hc => List.mem_append_left _ (hpast' (by simp [hc]))
    rw [updateNeed, htype] at hneed
    cases hneed
  · exact .perform_bind (.plain trivial) fun _ _ => fun c hc => by simp [hc]

theorem refreshFiles_warranted (htype : msg.type = MSG_VIEW) : ∀ {past : List NmCall} (files : List FileMetadata),
    (∀ f ∈ files, ReadIn past f.filename f) →
    KeepsWarrant (.client prior msg) (fun _ _ => True) past (refreshFiles files)
  | _, [], _ => trivial
  | _, f :: fs, hread => by
    refine .bind (refreshFile_warranted htype (hread f List.mem_cons_self)) fun past' f' hpast' => ?_
    refine .bind (refreshFiles_warranted htype fs fun g hg => ?_) fun _ _ _ => trivial
    exact (hread g (List.mem_cons_of_mem _ hg)).mono hpast'

theorem handleView_warranted (htype : msg.type = MSG_VIEW) :
    KeepsWarrant (.client prior msg) (fun _ _ => True) past (handleView msg) := by
  refine .perform_bind (.plain trivial) fun files _ => ?_
  refine .bind (.ite (fun _ => refreshFiles_warranted htype files fun f hf => ?_) fun _ => trivial) fun past' fs _ =>
    .bind (KeepsWarrant.any (viewLines_plain _ _ _ fs)) fun _ _ _ => trivial
  exact ⟨_, List.mem_append_right _ (List.mem_singleton_self _), List.mem_filter.mpr ⟨hf, decide_eq_true rfl⟩⟩

theorem handleCheckpointRequest_warranted (htype : msg.type = MSG_CHECKPOINT ∨ msg.type = MSG_VIEWCHECKPOINT ∨
    msg.type = MSG_REVERT ∨ msg.type = MSG_LISTCHECKPOINTS) :
    KeepsWarrant (.client prior msg) (fun _ _ => True) past (handleCheckpointRequest msg) := by
  have hneed : messageNeed msg = some (msg.filename.str, .access ACCESS_WRITE) := by
    rcases htype with htype | htype | htype | htype <;> (unfold messageNeed; rw [htype]; rfl)
  refine .perform_bind (.plain trivial) fun allowed _ => .ite (fun hallowed => ?_) fun _ => trivial
  refine .bind (keepsWarrant_of_plain (findSsForFile_plain _)) fun past' ssId hpast' =>
    .ite (fun _ => trivial) fun _ => ?_
  refine .perform_bind (.plain trivial) fun idx _ => ?_
  rcases idx with _ | idx
  · trivial
  refine .bind (exchangeWith_warranted fun filename need hsome => ?_) fun _ _ _ => trivial
  rw [hneed] at hsome
  cases hsome
  exact looked_of_access (List.mem_append_left _ (hpast' (by simp))) hallowed (Or.inr rfl)

theorem handleExec_warranted : KeepsWarrant (.client prior msg) (fun _ _ => True) past (handleExec msg) := by
  refine .perform_bind (.plain trivial) fun allowed _ => .ite (fun hallowed => ?_) fun _ => trivial
  refine .bind (keepsWarrant_of_plain (findSsForFile_plain _)) fun past' ssId hpast' =>
    .ite (fun _ => trivial) fun _ => ?_
  refine .perform_bind (.plain trivial) fun idx _ => ?_
  rcases idx with _ | idx
  · trivial
  refine .bind (exchangeWith_warranted fun filename need hsome => ?_) fun _ reply _ => .ite (fun _ => trivial) fun _ =>
    .perform_bind (.plain trivial) fun output _ => ?_
  · cases hsome
    exact looked_of_access (List.mem_append_left _ (hpast' (by simp))) hallowed (Or.inl rfl)
  · rcases output with _ | output
    · trivial
    · trivial

theorem locateFile_warranted (htype : msg.type = MSG_READ ∨ msg.type = MSG_WRITE ∨ msg.type = MSG_STREAM ∨
    msg.type = MSG_UNDO) :
    KeepsWarrant (.client prior msg) (fun past' reply => ∀ need, reply.status = SUCCESS →
      locationNeed msg.type = some need → Looked past' msg.filename.str msg.sender.str need) past
      (locateFile prior msg) := by
  have hchange := aclTarget_eq_none prior (by
    rcases htype with htype | htype | htype | htype <;> (unfold ChangesAccess; rw [htype]; decide))
  -- the right that is checked
  have hneed : locationNeed msg.type = some (.access (if msg.type = MSG_WRITE ∨ msg.type = MSG_UNDO then ACCESS_WRITE
      else ACCESS_READ)) := by
    rcases htype with htype | htype | htype | htype <;> (rw [htype]; rfl)
  have hupdate : updateNeed msg.type = locationNeed msg.type := by
    rcases htype with htype | htype | htype | htype <;> (rw [htype]; rfl)
  have hright : IsRight (if msg.type = MSG_WRITE ∨ msg.type = MSG_UNDO then ACCESS_WRITE else ACCESS_READ) := by
    split
    · exact Or.inr rfl
    · exact Or.inl rfl
  refine .perform_bind (.plain trivial) fun allowed _ => .ite (fun hallowed => ?_) fun _ => fun _ hs =>
    absurd hs (show ERR_ACCESS_DENIED ≠ SUCCESS by decide)
  have hlooked : ∀ past' : List NmCall, past ++ [⟨.checkAccess msg.filename.str msg.sender.str
      (if msg.type = MSG_WRITE ∨ msg.type = MSG_UNDO then ACCESS_WRITE else ACCESS_READ), allowed⟩] ⊆ past' →
      ∀ need, locationNeed msg.type = some need → Looked past' msg.filename.str msg.sender.str need := by
    intro past' hpast' need hsome
    rw [hneed] at hsome
    cases hsome
    exact looked_of_access (hpast' (by simp)) hallowed hright
  refine .bind (keepsWarrant_of_plain (findSsForFile_plain _)) fun past' ssId hpast' =>
    .ite (fun _ => fun _ hs => absurd hs (show ERR_FILE_NOT_FOUND ≠ SUCCESS by decide)) fun _ => ?_
  refine .perform_bind (.plain trivial) fun info _ => .perform_bind (.plain trivial) fun found _ => ?_
  rcases found with _ | metadata
  · exact fun need _ => hlooked _ (fun c hc => List.mem_append_left _ (List.mem_append_left _ (hpast' hc))) need
  refine .perform_bind (.plain trivial) fun now _ => ?_
  have hsub : past' ⊆ past' ++ [⟨.ssInfo ssId, info⟩] ++ [⟨.trieSearch msg.filename.str, some metadata⟩] ++
      [⟨.time, now⟩] := fun c hc => by simp [hc]
  refine .bind (writeBack_warranted_same (hchange _) (readIn_of_search (m := metadata) (by simp)) rfl rfl rfl
    fun need hsome => ?_) fun past₂ _ hpast₂ => fun need _ => hlooked _ (fun c hc => hpast₂ (hsub (hpast' hc))) need
  exact hlooked _ (fun c hc => hsub (hpast' hc)) need (hupdate ▸ hsome)

end

/-- **Every handler of a client's message** keeps to the contract. -/
theorem handleClientMessage_warranted (prior msg : Message) :
    KeepsWarrant (.client prior msg) (fun past reply => ∀ need, reply.status = SUCCESS →
      locationNeed msg.type = some need → Looked past msg.filename.str msg.sender.str need) []
      (handleClientMessage prior msg) := by
  -- only the last handler tells where a file is
  have hother : ∀ {p : Handler Message}, locationNeed msg.type = none →
      KeepsWarrant (.client prior msg) (fun _ _ => True) [] p →
      KeepsWarrant (.client prior msg) (fun past reply => ∀ need, reply.status = SUCCESS →
        locationNeed msg.type = some need → Looked past msg.filename.str msg.sender.str need) [] p := by
    intro p hnone h
    refine h.mono fun past reply _ need _ hsome => ?_
    rw [hnone] at hsome
    cases hsome
  have hserved := handledBy prior msg
  generalize handleClientMessage prior msg = p at hserved ⊢
  cases hserved with
  | requestAccess type => exact hother (by rw [type]; rfl) (handleRequestAccess_warranted type)
  | viewRequests type => exact hother (by rw [type]; rfl) (.any (handleViewRequests_plain msg))
  | approve type => exact hother (by rw [type]; rfl) (handleApproveRequest_warranted type)
  | deny type => exact hother (by rw [type]; rfl) (.any (handleDenyRequest_plain msg))
  | checkpoint type =>
    refine hother ?_ (handleCheckpointRequest_warranted type)
    rcases type with type | type | type | type <;> (rw [type]; rfl)
  | createFolder type => exact hother (by rw [type]; rfl) (.any (handleCreateFolder_plain msg))
  | move type => exact hother (by rw [type]; rfl) (handleMove_warranted type)
  | viewFolder type => exact hother (by rw [type]; rfl) (.any (handleViewFolder_plain msg))
  | view type => exact hother (by rw [type]; rfl) (handleView_warranted type)
  | info type => exact hother (by rw [type]; rfl) (.any (handleInfo_plain msg))
  | list type => exact hother (by rw [type]; rfl) (.any handleList_plain)
  | create type => exact hother (by rw [type]; rfl) (handleCreate_warranted type)
  | delete type => exact hother (by rw [type]; rfl) handleDelete_warranted
  | access type =>
    refine hother ?_ (handleAccess_warranted type)
    rcases type with type | type <;> (rw [type]; rfl)
  | exec type => exact hother (by rw [type]; rfl) handleExec_warranted
  | locate type => exact locateFile_warranted type
  | other type =>
    refine hother ?_ trivial
    simp only [clientTypes, List.mem_cons, List.not_mem_nil, or_false, not_or] at type
    simp only [locationNeed, type, or_self, if_false]

theorem registerFiles_warranted (msg : Message) : ∀ {past : List NmCall} (tokens : List CStr),
    KeepsWarrant (.registerSs msg) (fun _ _ => True) past (registerFiles msg.ssId tokens)
  | _, [] => trivial
  | past, token :: tokens => by
    refine .perform_bind (.plain trivial) fun found _ => ?_
    rcases found with _ | existing
    · exact .perform_bind (.plain trivial) fun now _ => .perform_bind ⟨⟨rfl, rfl, rfl⟩, trivial⟩ fun _ _ =>
        registerFiles_warranted msg tokens
    · refine .perform_bind ⟨⟨existing, readIn_of_search (by simp), rfl, rfl, ?_, ?_⟩, trivial⟩ fun _ _ =>
        registerFiles_warranted msg tokens
      · rfl
      · exact fun h => absurd rfl h

theorem handleSsConnection_warranted (msg : Message) :
    KeepsWarrant (.registerSs msg) (fun _ _ => True) [] (handleSsConnection msg) := by
  refine .perform_bind (.plain trivial) fun _ _ => .perform_bind (.plain trivial) fun slot _ => ?_
  rcases slot with _ | slot
  · exact ⟨.plain trivial, fun _ _ => trivial⟩
  · exact .bind (registerFiles_warranted msg _) fun _ _ _ => ⟨.plain trivial, fun _ _ => trivial⟩

/-- **Every request of the name server** keeps to the contract, whatever its calls are answered. -/
theorem nmBody_warranted (req : NmRequest) :
    KeepsWarrant req (fun past result => Told req past result) [] (nmBody req) := by
  cases req with
  | client prior msg =>
    refine .bind (handleClientMessage_warranted prior msg) fun past reply hreply => ?_
    rintro _ _ reply' need ⟨⟩ ⟨⟩ hstatus hneed
    exact hreply need hstatus hneed
  | registerSs msg => exact .bind (handleSsConnection_warranted msg) fun _ _ _ => fun _ _ _ _ he => by cases he
  | heartbeatLost ssId => exact .perform_bind (.plain trivial) fun _ _ => fun _ _ _ _ he => by cases he
  | login sock name => exact .perform_bind (.plain trivial) fun _ _ => fun _ _ _ _ he => by cases he
  | logout c => exact .perform_bind (.plain trivial) fun _ _ => fun _ _ _ _ he => by cases he

end NetworkFileShare
