import NetworkFileShare.NameServer.Records

/-!
# Access lists over a run

* `ListInv` : in every record no user has two entries, and there are at most `MAX_ACL_ENTRIES` of them;
* `OwnerActs` : a file keeps its owner and its access list, or its owner has sent the message;
* `revoked_denied` : after a removal that succeeds the user has no right on the file;
* `ListsKept` : all this; `access_lists` : it holds in every run of requests.
-/

namespace NetworkFileShare

variable {s t : NameServer} {prior msg reply : Message}

/-- No user has two entries, and the entries fit the array. -/
structure RecordCore.WellFormed (c : RecordCore) : Prop where
  fits : c.acl.length ≤ MAX_ACL_ENTRIES
  nodup : (c.acl.map (·.username)).Nodup

/-- Every record is under its name and has a well-formed list. -/
structure ListInv (s : NameServer) : Prop where
  named : Named s
  wellFormed : ∀ f c, s.coreOf f = some c → c.WellFormed

theorem ListInv.init : ListInv initNameServer where
  named := .init
  wellFormed f c hc := by
    rw [NameServer.coreOf, initNameServer, trieSearch_createTrieNode] at hc
    cases hc

/-! ## Changes of a list -/

theorem length_setAccess (u : CStr) (access : Int32) (acl : List ACLEntry) :
    (setAccess u access acl).length = acl.length := by
  have hnames := congrArg List.length (FileMetadata.map_username_setAccess u access acl)
  rwa [List.length_map, List.length_map] at hnames

theorem wellFormed_grant {m : FileMetadata} (h : m.core.WellFormed) (u : CStr) (access : Int32) :
    (m.grant u access).core.WellFormed := by
  refine ⟨?_, FileMetadata.AclNodup.grant h.nodup u access⟩
  show (m.grant u access).acl.length ≤ MAX_ACL_ENTRIES
  unfold FileMetadata.grant
  split
  · show (setAccess u access m.acl).length ≤ MAX_ACL_ENTRIES
    rw [length_setAccess]
    exact h.fits
  · split
    · rename_i hroom
      show (m.acl ++ [(⟨u, access⟩ : ACLEntry)]).length ≤ MAX_ACL_ENTRIES
      rw [List.length_append]
      exact hroom
    · exact h.fits

theorem wellFormed_revoke {m : FileMetadata} (h : m.core.WellFormed) (u : CStr) : (m.revoke u).core.WellFormed where
  fits := le_trans List.length_eraseP_le h.fits
  nodup := FileMetadata.AclNodup.revoke h.nodup u

theorem AclChange.wellFormed {m : FileMetadata} (h : m.core.WellFormed) (change : AclChange) :
    (change.apply m).core.WellFormed := by
  cases change with
  | grant u access => exact wellFormed_grant h u access
  | revoke u => exact wellFormed_revoke h u

/-- A list that nobody has an entry in. -/
theorem wellFormed_new (filename owner folderPath : CStr) : RecordCore.WellFormed ⟨filename, owner, [], folderPath⟩ :=
  ⟨Nat.zero_le _, .nil⟩

theorem CoreChanged.wellFormed {filename : CStr} {new : Option RecordCore} (h : CoreChanged s filename new t)
    (hs : ListInv s) (hnew : ∀ c ∈ new, c.WellFormed) {f : CStr} {c : RecordCore} (hc : t.coreOf f = some c) :
    c.WellFormed := by
  rw [h f] at hc
  split at hc
  · exact hnew c hc
  · exact hs.wellFormed f c hc

theorem Effect.wellFormed (h : Effect s msg reply t) (hs : ListInv s) {f : CStr} {c : RecordCore}
    (hc : t.coreOf f = some c) : c.WellFormed := by
  cases h with
  | same cores _ =>
    rw [cores] at hc
    exact hs.wellFormed f c hc
  | create _ _ _ changed =>
    refine changed.wellFormed hs (fun c hnew => ?_) hc
    split at hnew
    · rw [← Option.some.inj hnew]
      exact wellFormed_new _ _ _
    · cases hnew
  | delete _ _ _ changed => exact changed.wellFormed hs (fun c hnew => by cases hnew) hc
  | access _ _ m found _ changed =>
    refine changed.wellFormed hs (fun c hnew => ?_) hc
    rw [← Option.some.inj hnew]
    exact (accessChange msg).wellFormed (hs.wellFormed _ _ (coreOf_of_found found))
  | approve _ _ req m found _ changed =>
    refine changed.wellFormed hs (fun c hnew => ?_) hc
    rw [← Option.some.inj hnew]
    exact wellFormed_grant (hs.wellFormed _ _ (coreOf_of_found found)) _ _
  | move _ _ m found _ changed =>
    refine changed.wellFormed hs (fun c hnew => ?_) hc
    rw [← Option.some.inj hnew]
    exact ⟨(hs.wellFormed _ _ (coreOf_of_found found)).fits, (hs.wellFormed _ _ (coreOf_of_found found)).nodup⟩

/-- **Every request keeps the lists well formed.** -/
theorem ListInv.step {req : NmRequest} (hs : ListInv s) (h : Handles (ExecSome NmOp.exec) s req t) : ListInv t := by
  obtain ⟨answer, halone⟩ := h
  refine ⟨hs.named.step halone, fun f c hc => ?_⟩
  match req, answer, nmBody_effect hs.named halone with
  | .client _ msg, some reply, heffect => exact heffect.wellFormed hs hc
  | .registerSs _, _, heffect =>
    rcases heffect f with hkept | ⟨-, hnew⟩
    · exact hs.wellFormed f c (hkept.symm.trans hc)
    · rw [hc] at hnew
      rw [Option.some.inj hnew]
      exact wellFormed_new _ _ _
  | .heartbeatLost _, _, heffect | .login _ _, _, heffect | .logout _, _, heffect =>
    have hsame : t.coreOf = s.coreOf := heffect
    exact hs.wellFormed f c (by rw [← hsame]; exact hc)

theorem ListInv.of_run {reqs : List NmRequest} (h : Run (Handles (ExecSome NmOp.exec)) initNameServer reqs s) :
    ListInv s :=
  h.state_invariant .init fun _ _ _ hinv hstep => hinv.step hstep

/-! ## Who changes a list -/

/-- The file keeps its owner and its list, or the owner has sent the message. -/
def OwnerActs (m : FileMetadata) (req : NmRequest) (after : Option FileMetadata) : Prop :=
  (∃ m' ∈ after, m'.owner = m.owner ∧ m'.acl = m.acl) ∨ ∃ prior msg, req = .client prior msg ∧ msg.sender.str = m.owner

theorem kept_of_core {f : CStr} {m : FileMetadata} {c : RecordCore} (hc : t.coreOf f = some c)
    (howner : c.owner = m.owner) (hacl : c.acl = m.acl) :
    ∃ m' ∈ trieSearch t.fileTrie f, m'.owner = m.owner ∧ m'.acl = m.acl := by
  obtain ⟨m', hm', rfl⟩ := Option.map_eq_some_iff.mp hc
  exact ⟨m', hm', howner, hacl⟩

/-- A message changes one file: the owner's, or it is a move, or there was none. -/
theorem CoreChanged.ownerActs {filename : CStr} {new : Option RecordCore} (h : CoreChanged s filename new t) {f : CStr}
    {m : FileMetadata} (hm : trieSearch s.fileTrie f = some m) (hown : f = filename → m.owner = msg.sender.str) :
    OwnerActs m (.client prior msg) (trieSearch t.fileTrie f) := by
  by_cases hf : f = filename
  · exact Or.inr ⟨prior, msg, rfl, (hown hf).symm⟩
  · refine Or.inl (kept_of_core (c := m.core) ?_ rfl rfl)
    rw [h f, if_neg hf]
    exact coreOf_of_found hm

theorem Effect.ownerActs (h : Effect s msg reply t) {f : CStr} {m : FileMetadata}
    (hm : trieSearch s.fileTrie f = some m) : OwnerActs m (.client prior msg) (trieSearch t.fileTrie f) := by
  have hcore := coreOf_of_found hm
  cases h with
  | same cores _ => exact Or.inl (kept_of_core (c := m.core) (by rw [cores]; exact hcore) rfl rfl)
  | create _ _ absent changed =>
    refine changed.ownerActs hm fun hf => ?_
    rw [← hf, hcore] at absent
    cases absent
  | delete _ _ owner changed =>
    refine changed.ownerActs hm fun hf => ?_
    rw [NameServer.ownerOf, ← hf, hm] at owner
    exact Option.some.inj owner
  | access _ _ m' found owner changed =>
    refine changed.ownerActs hm fun hf => ?_
    rw [← hf, hm] at found
    rw [Option.some.inj found, owner]
  | approve _ _ req m' found owner changed =>
    refine changed.ownerActs hm fun hf => ?_
    rw [← hf, hm] at found
    rw [Option.some.inj found, owner]
  | move _ _ m' found _ changed =>
    by_cases hf : f = msg.filename.str
    · rw [← hf, hm] at found
      obtain rfl := Option.some.inj found
      exact Or.inl (kept_of_core (by rw [changed f, if_pos hf]) rfl rfl)
    · exact Or.inl (kept_of_core (c := m.core) (by rw [changed f, if_neg hf]; exact hcore) rfl rfl)

/-- **Only its owner changes the owner or the list of a file**, or deletes it. -/
theorem ListInv.ownerActs {req : NmRequest} (hs : ListInv s) (h : Handles (ExecSome NmOp.exec) s req t) {f : CStr}
    {m : FileMetadata} (hm : trieSearch s.fileTrie f = some m) : OwnerActs m req (trieSearch t.fileTrie f) := by
  obtain ⟨answer, halone⟩ := h
  have hcore := coreOf_of_found hm
  match req, answer, nmBody_effect hs.named halone with
  | .client _ msg, some reply, heffect => exact heffect.ownerActs hm
  | .registerSs _, _, heffect =>
    rcases heffect f with hkept | ⟨hnone, -⟩
    · exact Or.inl (kept_of_core (c := m.core) (hkept.trans hcore) rfl rfl)
    · rw [hcore] at hnone
      cases hnone
  | .heartbeatLost _, _, heffect | .login _ _, _, heffect | .logout _, _, heffect =>
    have hsame : t.coreOf = s.coreOf := heffect
    exact Or.inl (kept_of_core (c := m.core) (by rw [hsame]; exact hcore) rfl rfl)

/-! ## Removals -/

/-- Without the entry there is no right, because there was only one. -/
theorem allows_revoke {m : FileMetadata} (h : m.core.WellFormed) {u : CStr} (howner : m.owner ≠ u) {required : Int32}
    (hright : IsRight required) : (m.revoke u).allows u required = false := by
  rw [← Bool.not_eq_true, allows_iff hright, FileMetadata.accessOf_revoke h.nodup, if_pos rfl]
  rintro (hown | ⟨x, hx, -⟩)
  · exact howner hown
  · cases hx

/-- **A user that has been removed has no right on the file.** -/
theorem revoked_denied (hs : ListInv s) (h : Alone (ExecSome NmOp.exec) s (handleClientMessage prior msg) reply t)
    (htype : msg.type = MSG_REMACCESS) (hstatus : reply.status = SUCCESS)
    (hother : s.ownerOf msg.filename.str ≠ some msg.targetUser.str) {required : Int32} (hright : IsRight required) :
    t.checkAccess msg.filename.str msg.targetUser.str required = false := by
  rw [(HandledBy.access (Or.inr htype)).eq] at h
  rcases alone_handleAccess (Or.inr htype) h with ⟨hfailed, -⟩ | ⟨-, -, m, -, -, hchanged⟩
  · exact absurd hstatus hfailed
  have hrevoked : accessChange msg = .revoke msg.targetUser.str := by
    unfold accessChange
    rw [htype]
    rfl
  have howner : m.owner ≠ msg.targetUser.str := by
    intro howner
    rw [NameServer.ownerOf, hchanged.found, ← howner] at hother
    exact hother rfl
  rw [hchanged.checkAccess, hrevoked]
  exact allows_revoke (hs.wellFormed _ _ (coreOf_of_found hchanged.found)) howner hright

/-- The lists are well formed, only the owner of a file changes them, and a removal takes every right away. -/
structure ListsKept (s : NameServer) : Prop where
  wellFormed : ∀ f m, trieSearch s.fileTrie f = some m → m.acl.length ≤ MAX_ACL_ENTRIES ∧ m.AclNodup
  ownerActs : ∀ req t f m, Handles (ExecSome NmOp.exec) s req t → trieSearch s.fileTrie f = some m →
    OwnerActs m req (trieSearch t.fileTrie f)
  revoked : ∀ prior msg reply t, Alone (ExecSome NmOp.exec) s (handleClientMessage prior msg) reply t →
    msg.type = MSG_REMACCESS → reply.status = SUCCESS → s.ownerOf msg.filename.str ≠ some msg.targetUser.str →
      t.checkAccess msg.filename.str msg.targetUser.str ACCESS_READ = false ∧
        t.checkAccess msg.filename.str msg.targetUser.str ACCESS_WRITE = false

/-- **Access lists in every run.** -/
theorem access_lists {reqs : List NmRequest} (h : Run (Handles (ExecSome NmOp.exec)) initNameServer reqs s) :
    ListsKept s := by
  have hinv := ListInv.of_run h
  refine ⟨fun f m hm => ?_, fun req t f m hstep hm => hinv.ownerActs hstep hm, ?_⟩
  · have hlist := hinv.wellFormed f m.core (coreOf_of_found hm)
    exact ⟨hlist.fits, hlist.nodup⟩
  · intro prior msg reply t halone htype hstatus hother
    exact ⟨revoked_denied hinv halone htype hstatus hother (Or.inl rfl),
      revoked_denied hinv halone htype hstatus hother (Or.inr rfl)⟩

/-- The owner of a file grants access to another user and takes it away again. -/
def grantAndRevoke : List NmRequest :=
  [registers 1 [], .login 5 (.strncpy (MAX_USERNAME - 1) (lit "u")), createOne,
    .client initMessage { asks MSG_ADDACCESS (lit "a") (lit "n") ACCESS_READ 0 with
      targetUser := .strncpy (MAX_USERNAME - 1) (lit "u") },
    .client initMessage { asks MSG_REMACCESS (lit "a") (lit "n") 0 0 with
      targetUser := .strncpy (MAX_USERNAME - 1) (lit "u") }]

theorem access_lists_sample : ∃ s, (trieSearch s.fileTrie (lit "n")).isSome ∧ ListsKept s := by
  have hfound : ((handleAllAlone oneCall initNameServer grantAndRevoke).map fun s =>
      (trieSearch s.fileTrie (lit "n")).isSome) = some true := by decide
  obtain ⟨s, hs, hsome⟩ := Option.map_eq_some_iff.mp hfound
  exact ⟨s, hsome, access_lists (run_oneCall hs)⟩

end NetworkFileShare
