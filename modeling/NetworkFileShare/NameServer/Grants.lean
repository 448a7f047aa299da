import NetworkFileShare.NameServer.Registration
import NetworkFileShare.NameServer.Requests

/-!
# What a grant gives

A user gets access to a file by the owner's `ADDACCESS` or by the approval of a request. An access list has one entry
for a user, which a grant overwrites, and no room for more than `MAX_ACL_ENTRIES`.

* `Covers` : the rights an access stands for; `allows_iff` : the rights of a user, from its entry;
* `alone_handleAccess` : what `ADDACCESS` and `REMACCESS` do;
* `upheld_iff`, `given_iff` : when the new entry takes no right away, and when it gives the rights it stands for;
* `grants_hold_iff` : so after every approval and every `ADDACCESS`.
-/

namespace NetworkFileShare

open NmOp (perform)

variable {s t : NameServer} {msg reply : Message}

/-! ## Rights -/

/-- The access stands for the right to read or to write. -/
def Covers (access required : Int32) : Prop :=
  (access = ACCESS_READ ∧ required = ACCESS_READ) ∨
    (access = ACCESS_READWRITE ∧ (required = ACCESS_READ ∨ required = ACCESS_WRITE))

/-- **The rights of a user**: all of them, or those of its entry. -/
theorem allows_iff {m : FileMetadata} {u : CStr} {required : Int32} (hrequired : required = ACCESS_READ ∨
    required = ACCESS_WRITE) : m.allows u required = true ↔ m.owner = u ∨ ∃ x ∈ m.accessOf u, Covers x required := by
  unfold FileMetadata.allows
  split
  · rename_i howner
    exact iff_of_true rfl (Or.inl howner)
  · rename_i howner
    rw [or_iff_right howner]
    cases m.accessOf u with
    | none =>
      refine iff_of_false Bool.false_ne_true ?_
      rintro ⟨x, hx, -⟩
      cases hx
    | some x =>
      have hentry : (∃ y ∈ some x, Covers y required) ↔ Covers x required := by simp
      have hne : ACCESS_READ ≠ ACCESS_WRITE := by decide
      rw [hentry]
      rcases hrequired with rfl | rfl
      · simp [Covers, hne]
      · simp [Covers, hne.symm]

/-- The grant of `access` to `u` takes no right away and gives those it stands for. -/
def GrantSafe (m : FileMetadata) (u : CStr) (access : Int32) : Prop :=
  m.owner = u ∨ match m.accessOf u with
    | some old => (old = ACCESS_READWRITE → access = ACCESS_READWRITE) ∧
        (old = ACCESS_READ → access = ACCESS_READ ∨ access = ACCESS_READWRITE)
    | none => m.acl.length < MAX_ACL_ENTRIES ∨ (access ≠ ACCESS_READ ∧ access ≠ ACCESS_READWRITE)

/-- A right to read or to write. -/
def IsRight (required : Int32) : Prop := required = ACCESS_READ ∨ required = ACCESS_WRITE

theorem Covers.isRight {access required : Int32} (h : Covers access required) : IsRight required := by
  rcases h with ⟨-, h⟩ | ⟨-, h⟩
  · exact Or.inl h
  · exact h

/-- What is covered by a new entry instead of an old one. -/
theorem covers_mono_iff {old new : Int32} : (∀ required, Covers old required → Covers new required) ↔
    (old = ACCESS_READWRITE → new = ACCESS_READWRITE) ∧
      (old = ACCESS_READ → new = ACCESS_READ ∨ new = ACCESS_READWRITE) := by
  constructor
  · intro h
    refine ⟨fun hold => ?_, fun hold => ?_⟩
    · have hwrite := h ACCESS_WRITE (Or.inr ⟨hold, Or.inr rfl⟩)
      exact (hwrite.resolve_left fun hread => absurd hread.2 (by decide)).1
    · rcases h ACCESS_READ (Or.inl ⟨hold, rfl⟩) with hread | hboth
      · exact Or.inl hread.1
      · exact Or.inr hboth.1
  · rintro ⟨hboth, hread⟩ required (⟨hold, hrequired⟩ | ⟨hold, hrequired⟩)
    · rcases hread hold with hnew | hnew
      · exact Or.inl ⟨hnew, hrequired⟩
      · exact Or.inr ⟨hnew, Or.inl hrequired⟩
    · exact Or.inr ⟨hboth hold, hrequired⟩

theorem covers_nothing_iff {access : Int32} : (∀ required, ¬ Covers access required) ↔
    access ≠ ACCESS_READ ∧ access ≠ ACCESS_READWRITE := by
  constructor
  · exact fun h => ⟨fun hread => h ACCESS_READ (Or.inl ⟨hread, rfl⟩), fun hboth =>
      h ACCESS_READ (Or.inr ⟨hboth, Or.inl rfl⟩)⟩
  · rintro ⟨hread, hboth⟩ required (h | h)
    · exact hread h.1
    · exact hboth h.1

/-- The rights after a grant, for a user that is not the owner. -/
theorem allows_grant {m : FileMetadata} {u : CStr} {access required : Int32} (howner : m.owner ≠ u)
    (hright : IsRight required) :
    (m.grant u access).allows u required = true ↔ m.HasRoom u ∧ Covers access required := by
  rw [allows_iff hright, FileMetadata.owner_grant, or_iff_right howner, FileMetadata.accessOf_grant]
  by_cases hroom : m.HasRoom u
  · simp [hroom]
  · have hnone : m.accessOf u = none := not_not.mp fun hentry => hroom (Or.inl hentry)
    simp [hroom, hnone]

/-- **A grant takes no right away** and gives those it stands for, if and only if it is safe. -/
theorem upheld_iff {m : FileMetadata} {u : CStr} {access : Int32} :
    (∀ required, IsRight required → m.allows u required = true ∨ Covers access required →
      (m.grant u access).allows u required = true) ↔ GrantSafe m u access := by
  unfold GrantSafe
  by_cases howner : m.owner = u
  · refine iff_of_true (fun required hright _ => ?_) (Or.inl howner)
    exact (allows_iff hright).mpr (Or.inl (by rw [FileMetadata.owner_grant, howner]))
  rw [or_iff_right howner]
  have hafter : ∀ {required : Int32}, IsRight required →
      ((m.grant u access).allows u required = true ↔ m.HasRoom u ∧ Covers access required) :=
    fun hright => allows_grant howner hright
  cases hentry : m.accessOf u with
  | some old =>
    have hroom : m.HasRoom u := Or.inl (by rw [hentry]; exact Option.some_ne_none old)
    have hbefore : ∀ {required : Int32}, IsRight required → (m.allows u required = true ↔ Covers old required) := by
      intro required hright
      rw [allows_iff hright, or_iff_right howner, hentry]
      simp
    dsimp only
    rw [← covers_mono_iff]
    constructor
    · exact fun h required hold =>
        ((hafter hold.isRight).mp (h required hold.isRight (Or.inl ((hbefore hold.isRight).mpr hold)))).2
    · rintro h required hright (hold | hnew)
      · exact (hafter hright).mpr ⟨hroom, h required ((hbefore hright).mp hold)⟩
      · exact (hafter hright).mpr ⟨hroom, hnew⟩
  | none =>
    have hroom : m.HasRoom u ↔ m.acl.length < MAX_ACL_ENTRIES := or_iff_right (not_not.mpr hentry)
    dsimp only
    rw [← hroom, ← covers_nothing_iff]
    constructor
    · intro h
      refine or_iff_not_imp_left.mpr fun hfull required hnew => hfull ?_
      exact ((hafter hnew.isRight).mp (h required hnew.isRight (Or.inr hnew))).1
    · rintro h required hright (hold | hnew)
      · rw [allows_iff hright, or_iff_right howner, hentry] at hold
        obtain ⟨x, hx, -⟩ := hold
        cases hx
      · exact (hafter hright).mpr ⟨h.resolve_right fun hnone => hnone required hnew, hnew⟩

/-- **A grant gives the rights it stands for** if and only if there is an entry, or room for one. -/
theorem given_iff {m : FileMetadata} {u : CStr} {access : Int32} (howner : m.owner ≠ u) :
    (∀ required, Covers access required → (m.grant u access).allows u required = true) ↔
      m.HasRoom u ∨ (access ≠ ACCESS_READ ∧ access ≠ ACCESS_READWRITE) := by
  rw [← covers_nothing_iff]
  constructor
  · intro h
    refine or_iff_not_imp_left.mpr fun hfull required hnew => hfull ?_
    exact ((allows_grant howner hnew.isRight).mp (h required hnew)).1
  · rintro (hroom | hnone) required hnew
    · exact (allows_grant howner hnew.isRight).mpr ⟨hroom, hnew⟩
    · exact absurd hnew (hnone required)

/-! ## The handlers -/

/-- What `handle_access` makes of the access list. -/
def accessChange (msg : Message) : AclChange :=
  if msg.type = MSG_ADDACCESS then .grant msg.targetUser.str msg.access else .revoke msg.targetUser.str

/-- The owner changes the access list of a file. -/
theorem alone_handleAccess (htype : msg.type = MSG_ADDACCESS ∨ msg.type = MSG_REMACCESS)
    (h : Alone (ExecSome NmOp.exec) s (handleAccess msg) reply t) :
    (reply.status ≠ SUCCESS ∧ SameRecords s t) ∨ (reply.status = SUCCESS ∧ t.accessRequests = s.accessRequests ∧
      ∃ m, m.owner = msg.sender.str ∧ (msg.type = MSG_ADDACCESS → msg.targetUser.str ≠ msg.sender.str) ∧
        RecordChanged s msg.filename.str m ((accessChange msg).apply m) t) := by
  replace h := alone_trieSearch h
  cases hfound : trieSearch s.fileTrie msg.filename.str with
  | none =>
    rw [hfound] at h
    obtain ⟨rfl, rfl⟩ := alone_pure.mp h
    exact Or.inl ⟨by decide, .refl s⟩
  | some m =>
    rw [hfound] at h
    dsimp only at h
    split at h
    · obtain ⟨rfl, rfl⟩ := alone_pure.mp h
      exact Or.inl ⟨by decide, .refl s⟩
    rename_i howner
    split at h
    · rename_i hadd
      obtain ⟨known, s₂, ⟨env', hknown⟩, h⟩ := alone_perform_bind.mp h
      obtain ⟨-, rfl⟩ := Prod.mk.inj (Option.some.inj hknown)
      split at h
      · split at h
        · obtain ⟨rfl, rfl⟩ := alone_pure.mp h
          exact Or.inl ⟨by decide, .refl s⟩
        · rename_i hother
          obtain ⟨_, s₃, hwrite, h⟩ := alone_bind.mp h
          obtain ⟨hchanged, hrequests⟩ := recordChanged_writeBack hwrite hfound
          obtain ⟨rfl, rfl⟩ := alone_pure.mp h
          refine Or.inr ⟨rfl, hrequests, m, not_not.mp howner, fun _ => hother, ?_⟩
          rw [accessChange, if_pos hadd]
          exact hchanged
      · obtain ⟨rfl, rfl⟩ := alone_pure.mp h
        exact Or.inl ⟨by decide, .refl s⟩
    · rename_i hadd
      rw [if_pos (htype.resolve_left hadd)] at h
      obtain ⟨_, s₃, hwrite, h⟩ := alone_bind.mp h
      obtain ⟨hchanged, hrequests⟩ := recordChanged_writeBack hwrite hfound
      obtain ⟨rfl, rfl⟩ := alone_pure.mp h
      refine Or.inr ⟨rfl, hrequests, m, not_not.mp howner, fun hin => absurd hin hadd, ?_⟩
      rw [accessChange, if_neg hadd]
      exact hchanged

theorem checkAccess_of_found {filename : CStr} {m : FileMetadata} (hm : trieSearch s.fileTrie filename = some m)
    (username : CStr) (required : Int32) : s.checkAccess filename username required = m.allows username required := by
  rw [NameServer.checkAccess, hm]
  rfl

/-- The record afterwards decides the access afterwards. -/
theorem RecordChanged.checkAccess {filename : CStr} {m m' : FileMetadata} (h : RecordChanged s filename m m' t)
    (username : CStr) (required : Int32) : t.checkAccess filename username required = m'.allows username required :=
  checkAccess_of_found (by rw [h.after, if_pos rfl]) username required

/-- **When grants take effect and take nothing away**: an approval that succeeds, if and only if the grant is safe; an
`ADDACCESS` that succeeds, if and only if there is an entry or room for one, or the access stands for no right. -/
theorem grants_hold_iff {prior : Message} (h : Alone (ExecSome NmOp.exec) s (handleClientMessage prior msg) reply t)
    (hsuccess : reply.status = SUCCESS) :
    (msg.type = MSG_APPROVEREQUEST → ∃ req m, requestAt s.accessRequests msg.sentenceIndex = some req ∧
      trieSearch s.fileTrie req.filename.str = some m ∧ ((∀ required, IsRight required →
        s.checkAccess req.filename.str req.username.str required = true ∨ Covers req.requestedAccess required →
          t.checkAccess req.filename.str req.username.str required = true) ↔
        GrantSafe m req.username.str req.requestedAccess)) ∧
    (msg.type = MSG_ADDACCESS → ∃ m, trieSearch s.fileTrie msg.filename.str = some m ∧
      ((∀ required, Covers msg.access required →
        t.checkAccess msg.filename.str msg.targetUser.str required = true) ↔
        m.HasRoom msg.targetUser.str ∨ (msg.access ≠ ACCESS_READ ∧ msg.access ≠ ACCESS_READWRITE))) := by
  constructor
  · intro htype
    rw [(HandledBy.approve htype).eq] at h
    rcases alone_handleApproveRequest h with ⟨hfailed, -⟩ | ⟨-, req, m, happroves⟩
    · exact absurd hsuccess hfailed
    · refine ⟨req, m, happroves.pending, happroves.changed.found, ?_⟩
      rw [← upheld_iff]
      refine forall_congr' fun required => ?_
      rw [checkAccess_of_found happroves.changed.found, happroves.changed.checkAccess]
  · intro htype
    rw [(HandledBy.access (Or.inl htype)).eq] at h
    rcases alone_handleAccess (Or.inl htype) h with ⟨hfailed, -⟩ | ⟨-, -, m, howner, hother, hchanged⟩
    · exact absurd hsuccess hfailed
    · refine ⟨m, hchanged.found, ?_⟩
      have hnew : (accessChange msg).apply m = m.grant msg.targetUser.str msg.access := by
        rw [accessChange, if_pos htype]
        rfl
      rw [← given_iff fun he => hother htype (he.symm.trans howner)]
      refine forall_congr' fun required => ?_
      rw [hchanged.checkAccess, hnew]

/-! ## Two requests of one user -/

/-- A user asks for both rights to a file, and then for one of them; the owner approves the first request. -/
def asksTwice : List NmRequest :=
  [registers 1 [], .client initMessage (asks MSG_CREATE (lit "o") (lit "f") 0 0),
    .client initMessage (asks MSG_REQUESTACCESS (lit "u") (lit "f") ACCESS_READWRITE 0),
    .client initMessage (asks MSG_REQUESTACCESS (lit "u") (lit "f") ACCESS_READ 0),
    .client initMessage (asks MSG_APPROVEREQUEST (lit "o") [] 0 0)]

def approveFirst : Message := asks MSG_APPROVEREQUEST (lit "o") [] 0 0

/-- The owner approves the first request that is pending. -/
def approvesFirst (reqs : List NmRequest) : Option (NameServer × Message × NameServer) :=
  (handleAllAlone oneCall initNameServer reqs).bind fun s =>
    (runAlone oneCall (handleClientMessage initMessage approveFirst) s).map fun r => (s, r.1, r.2)

theorem run_approvesFirst {β : Type} (reqs : List NmRequest) (view : NameServer → Message → NameServer → β) {b : β}
    (h : (approvesFirst reqs).map (fun r => view r.1 r.2.1 r.2.2) = some b) : ∃ s reply t, view s reply t = b ∧
      Run (Handles (ExecSome NmOp.exec)) initNameServer reqs s ∧
      Alone (ExecSome NmOp.exec) s (handleClientMessage initMessage approveFirst) reply t := by
  obtain ⟨r, happroved, rfl⟩ := Option.map_eq_some_iff.mp h
  obtain ⟨s, hs, happroved⟩ := Option.bind_eq_some_iff.mp happroved
  obtain ⟨⟨reply, t⟩, happrove, rfl⟩ := Option.map_eq_some_iff.mp happroved
  exact ⟨s, reply, t, rfl, run_oneCall hs, alone_oneCall happrove⟩

/-- The first request: its user has no entry yet. -/
theorem grants_hold_first : ∃ (s : NameServer) (reply : Message) (t : NameServer) (req : AccessRequest),
    Alone (ExecSome NmOp.exec) s (handleClientMessage initMessage approveFirst) reply t ∧ reply.status = SUCCESS ∧
      requestAt s.accessRequests approveFirst.sentenceIndex = some req ∧ ∀ required, IsRight required →
        s.checkAccess req.filename.str req.username.str required = true ∨ Covers req.requestedAccess required →
          t.checkAccess req.filename.str req.username.str required = true := by
  obtain ⟨s, reply, t, hview, -, halone⟩ := run_approvesFirst (asksTwice.take 4) (fun s reply _ =>
    (reply.status, (requestAt s.accessRequests approveFirst.sentenceIndex).map fun req =>
      (trieSearch s.fileTrie req.filename.str).map (·.acl.length))) (b := (SUCCESS, some (some 0))) (by decide)
  obtain ⟨hstatus, hview⟩ := Prod.mk.inj hview
  obtain ⟨req, m, hreq, hfound, hiff⟩ := (grants_hold_iff halone hstatus).1 rfl
  refine ⟨s, reply, t, req, halone, hstatus, hreq, hiff.mpr (Or.inr ?_)⟩
  rw [hreq, Option.map_some, hfound] at hview
  have hacl : m.acl = [] := List.eq_nil_of_length_eq_zero (Option.some.inj (Option.some.inj hview))
  have hnone : m.accessOf req.username.str = none := by
    rw [FileMetadata.accessOf, hacl]
    rfl
  rw [hnone, hacl]
  exact Or.inl (by decide)

/-- **An approval that takes a right away**: the user may write before the second request is approved, and may not
afterwards. -/
theorem approval_downgrades : ∃ (s : NameServer) (msg reply : Message) (t : NameServer) (req : AccessRequest),
    Run (Handles (ExecSome NmOp.exec)) initNameServer asksTwice s ∧ msg.type = MSG_APPROVEREQUEST ∧
      requestAt s.accessRequests msg.sentenceIndex = some req ∧
      Alone (ExecSome NmOp.exec) s (handleClientMessage initMessage msg) reply t ∧ reply.status = SUCCESS ∧
      s.checkAccess req.filename.str req.username.str ACCESS_WRITE = true ∧
      t.checkAccess req.filename.str req.username.str ACCESS_WRITE = false := by
  obtain ⟨s, reply, t, hview, hrun, halone⟩ := run_approvesFirst asksTwice (fun s reply t =>
    (reply.status, (requestAt s.accessRequests approveFirst.sentenceIndex).map fun req =>
      (s.checkAccess req.filename.str req.username.str ACCESS_WRITE,
        t.checkAccess req.filename.str req.username.str ACCESS_WRITE))) (b := (SUCCESS, some (true, false)))
    (by decide)
  obtain ⟨hstatus, hview⟩ := Prod.mk.inj hview
  obtain ⟨req, hreq, hview⟩ := Option.map_eq_some_iff.mp hview
  obtain ⟨hbefore, hafter⟩ := Prod.mk.inj hview
  exact ⟨s, approveFirst, reply, t, req, hrun, rfl, hreq, halone, hstatus, hbefore, hafter⟩

end NetworkFileShare
