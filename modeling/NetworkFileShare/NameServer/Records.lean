import NetworkFileShare.NameServer.Senders

/-!
# What a message does to the records

* `FileMetadata.core` : the name, the owner, the access list and the folder of a record; `coreOf` : of a file;
* `Effect` : a message that is handled alone changes no core, or answers `SUCCESS` and does what its type says;
* `handleClientMessage_effect`, `registration_effect` : this is all that messages and registrations do;
* `Named` : every record is under its own name, which every request keeps.
-/

namespace NetworkFileShare

open NmOp (perform)
open Prog (Only)

variable {s t : NameServer} {prior msg reply : Message}

/-- The parts of a record that say whose the file is, who may use it, and where it is. -/
structure RecordCore where
  filename : CStr
  owner : CStr
  acl : List ACLEntry
  folderPath : CStr
  deriving DecidableEq

def FileMetadata.core (m : FileMetadata) : RecordCore := ⟨m.filename, m.owner, m.acl, m.folderPath⟩

/-- The core of the record of a file. -/
def NameServer.coreOf (s : NameServer) (filename : CStr) : Option RecordCore :=
  (trieSearch s.fileTrie filename).map FileMetadata.core

/-- Every record is under its own name. -/
structure Named (s : NameServer) : Prop where
  named : ∀ f m, trieSearch s.fileTrie f = some m → m.filename = f
  nulFree : NulFree s.fileTrie

theorem coreOf_of_found {f : CStr} {m : FileMetadata} (h : trieSearch s.fileTrie f = some m) :
    s.coreOf f = some m.core := by
  rw [NameServer.coreOf, h]
  rfl

theorem coreOf_congr (h : t.fileTrie = s.fileTrie) : t.coreOf = s.coreOf := by
  funext f
  rw [NameServer.coreOf, h]
  rfl

/-! ## Records that are written back -/

/-- A record is written back with the core it had. -/
theorem coreOf_writeBack {filename : CStr} {m m' : FileMetadata} {u : Unit}
    (h : Alone (ExecSome NmOp.exec) s (writeBack filename m') u t) (hcore : s.coreOf filename = some m.core)
    (hsame : m'.core = m.core) : t.coreOf = s.coreOf := by
  obtain ⟨old, hold, -⟩ := Option.map_eq_some_iff.mp hcore
  have hchanged := (recordChanged_writeBack h hold).1
  funext f
  rw [NameServer.coreOf, hchanged.after]
  split
  · rename_i hf
    rw [hf, hcore, ← hsame]
    rfl
  · rfl

/-- What `sscanf` stores leaves the core alone. -/
theorem core_statFields (text : CStr) (m : FileMetadata) : (scanFields statFields text m).core = m.core :=
  scanFields_keeps FileMetadata.core (by simp [statFields, FileMetadata.core]) text m

theorem coreOf_refreshFile {f f' : FileMetadata} (h : Alone (ExecSome NmOp.exec) s (refreshFile f) f' t)
    (hcore : s.coreOf f.filename = some f.core) : t.coreOf = s.coreOf := by
  have hinert {u v : NameServer} {op : NmOp} {ans : op.Ans} (hexec : ExecSome NmOp.exec u ⟨op, ans⟩ v)
      (hop : Inert op) : v.coreOf = u.coreOf := coreOf_congr (SameRecords.of_exec hexec hop).fileTrie
  obtain ⟨slot, s₁, hslot, h⟩ := alone_perform_bind.mp h
  rcases slot with _ | idx
  · obtain ⟨-, rfl⟩ := alone_pure.mp h
    exact hinert hslot trivial
  obtain ⟨_, s₂, hlock, h⟩ := alone_perform_bind.mp h
  obtain ⟨⟨received, ssResponse⟩, s₃, hexchange, h⟩ := alone_perform_bind.mp h
  have h₃ : s₃.coreOf = s.coreOf :=
    ((hinert hexchange trivial).trans (hinert hlock trivial)).trans (hinert hslot trivial)
  dsimp only at h
  split at h
  · obtain ⟨_, s₄, hwrite, h⟩ := alone_bind.mp h
    obtain ⟨_, s₅, hunlock, h⟩ := alone_perform_bind.mp h
    obtain ⟨-, rfl⟩ := alone_pure.mp h
    have h₄ := coreOf_writeBack hwrite (by rw [h₃]; exact hcore) (core_statFields _ f)
    exact (hinert hunlock trivial).trans (h₄.trans h₃)
  · obtain ⟨_, s₄, hunlock, h⟩ := alone_perform_bind.mp h
    obtain ⟨-, rfl⟩ := alone_pure.mp h
    exact (hinert hunlock trivial).trans h₃

theorem coreOf_refreshFiles {files files' : List FileMetadata}
    (h : Alone (ExecSome NmOp.exec) s (refreshFiles files) files' t)
    (hcores : ∀ f ∈ files, s.coreOf f.filename = some f.core) : t.coreOf = s.coreOf := by
  induction files generalizing s files' with
  | nil =>
    obtain ⟨-, rfl⟩ := alone_pure.mp h
    rfl
  | cons f files ih =>
    obtain ⟨f', s₁, hfirst, h⟩ := alone_bind.mp h
    obtain ⟨fs', s₂, hrest, h⟩ := alone_bind.mp h
    obtain ⟨-, rfl⟩ := alone_pure.mp h
    have h₁ := coreOf_refreshFile hfirst (hcores f List.mem_cons_self)
    exact (ih hrest fun g hg => by rw [h₁]; exact hcores g (List.mem_cons_of_mem f hg)).trans h₁

/-! ## What messages do -/

/-- The messages that change the core of a record when they succeed. -/
def WritesRecords (msg : Message) : Prop :=
  msg.type = MSG_CREATE ∨ msg.type = MSG_DELETE ∨ (msg.type = MSG_ADDACCESS ∨ msg.type = MSG_REMACCESS) ∨
    msg.type = MSG_APPROVEREQUEST ∨ msg.type = MSG_MOVE

/-- One core is replaced. -/
def CoreChanged (s : NameServer) (filename : CStr) (new : Option RecordCore) (t : NameServer) : Prop :=
  ∀ f, t.coreOf f = if f = filename then new else s.coreOf f

/-- What a message does: nothing to the cores, or what its type says, and `SUCCESS`. -/
inductive Effect (s : NameServer) (msg reply : Message) (t : NameServer) : Prop where
  | same (cores : t.coreOf = s.coreOf) (quiet : reply.status = SUCCESS → ¬ WritesRecords msg)
  | create (type : msg.type = MSG_CREATE) (status : reply.status = SUCCESS)
      (absent : s.coreOf msg.filename.str = none)
      (changed : CoreChanged s msg.filename.str (if Indexed msg.filename.str then
        some ⟨msg.filename.str, msg.sender.str, [], []⟩ else none) t)
  | delete (type : msg.type = MSG_DELETE) (status : reply.status = SUCCESS)
      (owner : s.ownerOf msg.filename.str = some msg.sender.str) (changed : CoreChanged s msg.filename.str none t)
  | access (type : msg.type = MSG_ADDACCESS ∨ msg.type = MSG_REMACCESS) (status : reply.status = SUCCESS)
      (m : FileMetadata) (found : trieSearch s.fileTrie msg.filename.str = some m) (owner : m.owner = msg.sender.str)
      (changed : CoreChanged s msg.filename.str (some ((accessChange msg).apply m).core) t)
  | approve (type : msg.type = MSG_APPROVEREQUEST) (status : reply.status = SUCCESS) (req : AccessRequest)
      (m : FileMetadata) (found : trieSearch s.fileTrie req.filename.str = some m) (owner : m.owner = msg.sender.str)
      (changed : CoreChanged s req.filename.str (some (m.grant req.username.str req.requestedAccess).core) t)
  | move (type : msg.type = MSG_MOVE) (status : reply.status = SUCCESS) (m : FileMetadata)
      (found : trieSearch s.fileTrie msg.filename.str = some m)
      (folder : isRoot msg.targetPath.str = true ∨ (trieSearch s.folderTrie msg.targetPath.str).isSome)
      (changed : CoreChanged s msg.filename.str (some { m.core with folderPath := msg.targetPath.str }) t)

theorem RecordChanged.coreChanged {filename : CStr} {m m' : FileMetadata} (h : RecordChanged s filename m m' t) :
    CoreChanged s filename (some m'.core) t := by
  intro f
  rw [NameServer.coreOf, h.after]
  split <;> rfl

/-- A message that is refused has no effect. -/
theorem Effect.of_failed (hstatus : reply.status ≠ SUCCESS) (hcores : t.coreOf = s.coreOf) : Effect s msg reply t :=
  .same hcores fun hsuccess => absurd hsuccess hstatus

/-- A message of another type has no effect when it leaves the cores alone. -/
theorem Effect.of_quiet (hcores : t.coreOf = s.coreOf) (htype : ¬ WritesRecords msg) : Effect s msg reply t :=
  .same hcores fun _ => htype

theorem handleCreate_effect (htype : msg.type = MSG_CREATE)
    (h : Alone (ExecSome NmOp.exec) s (handleCreate msg) reply t) : Effect s msg reply t := by
  rcases alone_handleCreate h with ⟨hstatus, hsame⟩ | ⟨hstatus, hnone, ssId, now, htrie⟩
  · exact .of_failed hstatus (coreOf_congr hsame.fileTrie)
  · have habsent : s.coreOf msg.filename.str = none := by
      rw [NameServer.coreOf, hnone]
      rfl
    refine .create htype hstatus habsent fun f => ?_
    rw [NameServer.coreOf, htrie, trieSearch_insert]
    by_cases hf : f = msg.filename.str
    · subst hf
      by_cases hindexed : Indexed msg.filename.str
      · simp only [hindexed, and_self, if_true]
        rfl
      · simp only [hindexed, and_false, if_false, if_true]
        exact habsent
    · simp only [hf, false_and, if_false]
      rfl

theorem handleDelete_effect (htype : msg.type = MSG_DELETE)
    (h : Alone (ExecSome NmOp.exec) s (handleDelete msg) reply t) : Effect s msg reply t := by
  have howner := handleDelete_entitled h
  replace h := alone_trieSearch h
  rcases howner with howner | hrefused
  swap
  · exact .of_failed hrefused.1 (coreOf_congr hrefused.2.fileTrie)
  cases hfound : trieSearch s.fileTrie msg.filename.str with
  | none =>
    rw [NameServer.ownerOf, hfound] at howner
    cases howner
  | some m =>
    have hm : m.owner = msg.sender.str := by
      rw [NameServer.ownerOf, hfound] at howner
      exact Option.some.inj howner
    rw [hfound] at h
    dsimp only at h
    rw [if_neg (not_not.mpr hm)] at h
    obtain ⟨slot, s₂, hslot, h⟩ := alone_perform_bind.mp h
    have h₂ : SameRecords s s₂ := .of_exec hslot trivial
    rcases slot with _ | idx
    · obtain ⟨rfl, rfl⟩ := alone_pure.mp h
      exact .of_failed (by decide) (coreOf_congr h₂.fileTrie)
    obtain ⟨_, s₃, hlock, h⟩ := alone_perform_bind.mp h
    obtain ⟨⟨received, lockResponse⟩, s₄, hlocks, h⟩ := alone_perform_bind.mp h
    have h₄ : SameRecords s s₄ := (h₂.trans (.of_exec hlock trivial)).trans (.of_exec hlocks trivial)
    dsimp only at h
    split at h
    · obtain ⟨rfl, hsame⟩ := alone_unlock h
      exact .of_failed (by show ERR_FILE_LOCKED ≠ SUCCESS; decide) (coreOf_congr (h₄.trans hsame).fileTrie)
    obtain ⟨⟨received', ssResponse⟩, s₅, hdelete, h⟩ := alone_perform_bind.mp h
    obtain ⟨_, s₆, hunlock, h⟩ := alone_perform_bind.mp h
    have h₆ : SameRecords s s₆ := (h₄.trans (.of_exec hdelete trivial)).trans (.of_exec hunlock trivial)
    dsimp only at h
    split at h
    · obtain ⟨_, s₇, ⟨env₇, htrie⟩, h⟩ := alone_perform_bind.mp h
      obtain ⟨_, s₈, ⟨env₈, hcache⟩, h⟩ := alone_perform_bind.mp h
      obtain ⟨rfl, rfl⟩ := alone_pure.mp h
      refine .delete htype rfl howner fun f => ?_
      have hafter : s₇.fileTrie = trieDelete s₆.fileTrie msg.filename.str := NmOp.exec_fileTrie htrie
      have hsame : s₈.fileTrie = s₇.fileTrie := NmOp.exec_fileTrie hcache
      rw [NameServer.coreOf, hsame, hafter, h₆.fileTrie, trieSearch_delete]
      split <;> rfl
    · rename_i hfailed
      obtain ⟨rfl, rfl⟩ := alone_pure.mp h
      exact .of_failed hfailed (coreOf_congr h₆.fileTrie)

theorem handleAccess_effect (htype : msg.type = MSG_ADDACCESS ∨ msg.type = MSG_REMACCESS)
    (h : Alone (ExecSome NmOp.exec) s (handleAccess msg) reply t) : Effect s msg reply t := by
  rcases alone_handleAccess htype h with ⟨hstatus, hsame⟩ | ⟨hstatus, -, m, howner, -, hchanged⟩
  · exact .of_failed hstatus (coreOf_congr hsame.fileTrie)
  · exact .access htype hstatus m hchanged.found howner hchanged.coreChanged

theorem handleApproveRequest_effect (htype : msg.type = MSG_APPROVEREQUEST)
    (h : Alone (ExecSome NmOp.exec) s (handleApproveRequest msg) reply t) : Effect s msg reply t := by
  rcases alone_handleApproveRequest h with ⟨hstatus, hsame⟩ | ⟨hstatus, req, m, happroves⟩
  · exact .of_failed hstatus (coreOf_congr hsame.fileTrie)
  · exact .approve htype hstatus req m happroves.changed.found happroves.owner happroves.changed.coreChanged

/-- The storage server is asked, and the record gets the folder. -/
theorem moveFile_effect {m : FileMetadata} (htype : msg.type = MSG_MOVE)
    (hm : trieSearch s.fileTrie msg.filename.str = some m)
    (hfolder : isRoot msg.targetPath.str = true ∨ (trieSearch s.folderTrie msg.targetPath.str).isSome)
    (h : Alone (ExecSome NmOp.exec) s (moveFile msg m) reply t) : Effect s msg reply t := by
  obtain ⟨slot, s₁, hslot, h⟩ := alone_perform_bind.mp h
  have h₁ : SameRecords s s₁ := .of_exec hslot trivial
  rcases slot with _ | idx
  · obtain ⟨rfl, rfl⟩ := alone_pure.mp h
    exact .of_failed (by decide) (coreOf_congr h₁.fileTrie)
  obtain ⟨⟨received, ssResponse⟩, s₂, hexchange, h⟩ := alone_bind.mp h
  have h₂ : SameRecords s s₂ := h₁.trans (.of_alone hexchange (exchangeWith_inert _ _))
  dsimp only at h
  split at h
  · obtain ⟨_, s₃, hwrite, h⟩ := alone_bind.mp h
    obtain ⟨rfl, rfl⟩ := alone_pure.mp h
    have hchanged := (recordChanged_writeBack hwrite (by rw [h₂.fileTrie]; exact hm)).1.coreChanged
    refine .move htype rfl m hm hfolder fun f => ?_
    rw [hchanged f, coreOf_congr h₂.fileTrie]
    rfl
  · rename_i hfailed
    obtain ⟨rfl, rfl⟩ := alone_pure.mp h
    exact .of_failed hfailed (coreOf_congr h₂.fileTrie)

theorem handleMove_effect (htype : msg.type = MSG_MOVE)
    (h : Alone (ExecSome NmOp.exec) s (handleMove msg) reply t) : Effect s msg reply t := by
  replace h := alone_trieSearch h
  cases hfound : trieSearch s.fileTrie msg.filename.str with
  | none =>
    rw [hfound] at h
    obtain ⟨rfl, rfl⟩ := alone_pure.mp h
    exact .of_failed (by decide) rfl
  | some m =>
    rw [hfound] at h
    obtain ⟨allowed, s₂, hallowed, hrest⟩ := alone_bind.mp h
    obtain rfl : s = s₂ := by
      unfold mayMove at hallowed
      split at hallowed
      · exact (alone_pure.mp hallowed).2
      · obtain ⟨ans, s₃, ⟨env', hcheck⟩, hdone⟩ := alone_call.mp hallowed
        obtain ⟨-, rfl⟩ := alone_pure.mp hdone
        exact (Prod.mk.inj (Option.some.inj hcheck)).2
    split at hrest
    · obtain ⟨rfl, rfl⟩ := alone_pure.mp hrest
      exact .of_failed (by decide) rfl
    split at hrest
    · rename_i hroot
      exact moveFile_effect htype hfound (Or.inl hroot) hrest
    · have hmove := alone_folderTrieSearch hrest
      cases htarget : trieSearch s.folderTrie msg.targetPath.str with
      | none =>
        rw [htarget] at hmove
        obtain ⟨rfl, rfl⟩ := alone_pure.mp hmove
        exact .of_failed (by decide) rfl
      | some folder =>
        rw [htarget] at hmove
        exact moveFile_effect htype hfound (Or.inr (by rw [htarget]; rfl)) hmove

/-- The records that are collected are under their names. -/
theorem coreOf_collected (hs : Named s) {f : FileMetadata} (hf : f ∈ trieGetAllFiles s.fileTrie MAX_FILES) :
    s.coreOf f.filename = some f.core := by
  obtain ⟨name, hname⟩ := mem_getAllFiles hs.nulFree hf
  rw [hs.named name f hname]
  exact coreOf_of_found hname

/-- `VIEW -l` writes the records back with new statistics. -/
theorem handleView_coreOf (hnamed : Named s) (h : Alone (ExecSome NmOp.exec) s (handleView msg) reply t) :
    t.coreOf = s.coreOf := by
  unfold handleView at h
  replace h := alone_trieGetAllFiles h
  obtain ⟨files', s₂, hviewed, h⟩ := alone_bind.mp h
  obtain ⟨lines, s₃, hlines, h⟩ := alone_bind.mp h
  obtain ⟨-, rfl⟩ := alone_pure.mp h
  have hsame : s₃.coreOf = s₂.coreOf :=
    coreOf_congr (fileTrie_of_only ((only_quiet (viewLines_calm _ _ _ _)).mono fun _ hop => .of_quiet hop) hlines)
  unfold viewedFiles at hviewed
  split at hviewed
  · exact hsame.trans (coreOf_refreshFiles hviewed fun f hf => coreOf_collected hnamed hf)
  · obtain ⟨-, rfl⟩ := alone_pure.mp hviewed
    exact hsame

/-- An access is recorded in the access time and the user. -/
theorem locateFile_coreOf (h : Alone (ExecSome NmOp.exec) s (locateFile prior msg) reply t) : t.coreOf = s.coreOf := by
  have hinert {u v : NameServer} {op : NmOp} {ans : op.Ans} (hexec : ExecSome NmOp.exec u ⟨op, ans⟩ v)
      (hop : Inert op) : v.coreOf = u.coreOf := coreOf_congr (SameRecords.of_exec hexec hop).fileTrie
  unfold locateFile at h
  obtain ⟨allowed, s₁, hcheck, h⟩ := alone_perform_bind.mp h
  have h₁ := hinert hcheck trivial
  split at h
  swap
  · obtain ⟨-, rfl⟩ := alone_pure.mp h
    exact h₁
  obtain ⟨ssId, s₂, hfind, h⟩ := alone_bind.mp h
  have h₂ : s₂.coreOf = s.coreOf :=
    (coreOf_congr (fileTrie_of_only (only_leavesTrie (findSsForFile_keepsRecords _)) hfind)).trans h₁
  split at h
  · obtain ⟨-, rfl⟩ := alone_pure.mp h
    exact h₂
  obtain ⟨info, s₃, hinfo, h⟩ := alone_perform_bind.mp h
  have h₃ := (hinert hinfo trivial).trans h₂
  replace h := alone_trieSearch h
  cases hfound : trieSearch s₃.fileTrie msg.filename.str with
  | none =>
    rw [hfound] at h
    obtain ⟨-, rfl⟩ := alone_pure.mp h
    exact h₃
  | some m =>
    rw [hfound] at h
    obtain ⟨now, s₅, htime, h⟩ := alone_perform_bind.mp h
    obtain ⟨_, s₆, hwrite, h⟩ := alone_bind.mp h
    obtain ⟨-, rfl⟩ := alone_pure.mp h
    have h₅ := hinert htime trivial
    have hcore : s₅.coreOf msg.filename.str = some m.core := by rw [h₅]; exact coreOf_of_found hfound
    exact ((coreOf_writeBack hwrite hcore rfl).trans h₅).trans h₃

/-- **This is all that messages do to the cores.** -/
theorem handleClientMessage_effect (hnamed : Named s)
    (h : Alone (ExecSome NmOp.exec) s (handleClientMessage prior msg) reply t) : Effect s msg reply t := by
  have hleaves {p : Handler Message} {reply : Message} {t : NameServer} (hp : Only LeavesTrie p)
      (h : Alone (ExecSome NmOp.exec) s p reply t) (htype : ¬ WritesRecords msg) : Effect s msg reply t :=
    .of_quiet (coreOf_congr (fileTrie_of_only hp h)) htype
  have hquiet {p : Handler Message} {reply : Message} {t : NameServer} (hp : Only Quiet p)
      (h : Alone (ExecSome NmOp.exec) s p reply t) (htype : ¬ WritesRecords msg) : Effect s msg reply t :=
    hleaves (hp.mono fun _ hop => .of_quiet hop) h htype
  have hother {type : Int32} (htype : msg.type = type) (hne : type ≠ MSG_CREATE ∧ type ≠ MSG_DELETE ∧
      type ≠ MSG_ADDACCESS ∧ type ≠ MSG_REMACCESS ∧ type ≠ MSG_APPROVEREQUEST ∧ type ≠ MSG_MOVE) :
      ¬ WritesRecords msg := by
    unfold WritesRecords
    rw [htype]
    simp only [hne.1, hne.2.1, hne.2.2.1, hne.2.2.2.1, hne.2.2.2.2.1, hne.2.2.2.2.2, or_self, not_false_eq_true]
  have hserved := handledBy prior msg
  generalize handleClientMessage prior msg = p at h hserved
  cases hserved with
  | requestAccess type => exact hquiet (handleRequestAccess_quiet msg) h (hother type (by decide))
  | viewRequests type => exact hquiet (only_quiet (handleViewRequests_calm msg)) h (hother type (by decide))
  | approve type => exact handleApproveRequest_effect type h
  | deny type => exact hquiet (handleDenyRequest_quiet msg) h (hother type (by decide))
  | checkpoint type =>
    refine hleaves (only_leavesTrie (handleCheckpointRequest_keepsRecords msg)) h ?_
    rcases type with type | type | type | type <;> exact hother type (by decide)
  | createFolder type => exact hquiet (only_quiet (handleCreateFolder_calm msg)) h (hother type (by decide))
  | move type => exact handleMove_effect type h
  | viewFolder type => exact hquiet (only_quiet (handleViewFolder_calm msg)) h (hother type (by decide))
  | view type => exact .of_quiet (handleView_coreOf hnamed h) (hother type (by decide))
  | info type => exact hleaves (only_leavesTrie (handleInfo_keepsRecords msg)) h (hother type (by decide))
  | list type => exact hquiet (only_quiet handleList_calm) h (hother type (by decide))
  | create type => exact handleCreate_effect type h
  | delete type => exact handleDelete_effect type h
  | access type => exact handleAccess_effect type h
  | exec type => exact hleaves (only_leavesTrie (handleExec_keepsRecords msg)) h (hother type (by decide))
  | locate type =>
    refine .of_quiet (locateFile_coreOf h) ?_
    rcases type with type | type | type | type <;> exact hother type (by decide)
  | other type =>
    have hwrites : ¬ WritesRecords msg := by
      intro hwrites
      refine type ?_
      rcases hwrites with h | h | (h | h) | h | h <;> rw [h] <;> decide
    exact .of_quiet (by rw [(alone_pure.mp h).2]) hwrites

/-! ## Registrations -/

/-- The file is as before, or a new one of the storage server. -/
def KeptOrNew (s t : NameServer) : Prop := ∀ f, t.coreOf f = s.coreOf f ∨
  (s.coreOf f = none ∧ t.coreOf f = some ⟨f, lit "system", [], []⟩)

theorem KeptOrNew.trans {u : NameServer} (h : KeptOrNew s t) (h' : KeptOrNew t u) : KeptOrNew s u := by
  intro f
  rcases h' f with hkept | ⟨hnone, hnew⟩
  · rw [hkept]
    exact h f
  · rcases h f with hsame | ⟨-, hsome⟩
    · exact Or.inr ⟨hsame.symm.trans hnone, hnew⟩
    · rw [hsome] at hnone
      cases hnone

theorem registerFiles_effect {ssId : Int32} {files : List CStr}
    (h : Alone (ExecSome NmOp.exec) s (registerFiles ssId files) () t) : KeptOrNew s t := by
  induction files generalizing s with
  | nil =>
    obtain ⟨-, rfl⟩ := alone_pure.mp h
    exact fun f => Or.inl rfl
  | cons file files ih =>
    replace h := alone_trieSearch h
    cases hfound : trieSearch s.fileTrie file with
    | some existing =>
      rw [hfound] at h
      obtain ⟨status, s₂, ⟨env₂, hupdate⟩, hrest⟩ := alone_perform_bind.mp h
      have htrie : s₂.fileTrie = (trieUpdate s.fileTrie file { existing with ssId := ssId }).1 :=
        NmOp.exec_fileTrie hupdate
      have hkept : KeptOrNew s s₂ := by
        intro f
        left
        rw [NameServer.coreOf, htrie, trieSearch_update]
        split
        · rename_i hf
          rw [hf.1, coreOf_of_found hfound]
          rfl
        · rfl
      exact hkept.trans (ih hrest)
    | none =>
      rw [hfound] at h
      obtain ⟨now, s₂, htime, h⟩ := alone_perform_bind.mp h
      have h₂ : SameRecords s s₂ := .of_exec htime trivial
      obtain ⟨status, s₃, ⟨env₃, hinsert⟩, hrest⟩ := alone_perform_bind.mp h
      have htrie : s₃.fileTrie = (trieInsert s₂.fileTrie file (systemMetadata file ssId now)).1 :=
        NmOp.exec_fileTrie hinsert
      have hnew : KeptOrNew s s₃ := by
        intro f
        rw [NameServer.coreOf, htrie, h₂.fileTrie, trieSearch_insert]
        split
        · rename_i hf
          rw [hf.1]
          exact Or.inr ⟨by rw [NameServer.coreOf, hfound]; rfl, rfl⟩
        · exact Or.inl rfl
      exact hnew.trans (ih hrest)

/-- **What a registration does**: the files that are not there yet belong to the system. -/
theorem registration_effect (h : Alone (ExecSome NmOp.exec) s (handleSsConnection msg) () t) : KeptOrNew s t := by
  have hsame {u v : NameServer} (huv : SameRecords u v) : KeptOrNew u v :=
    fun f => Or.inl (by rw [coreOf_congr huv.fileTrie])
  obtain ⟨_, s₁, hlock, h⟩ := alone_perform_bind.mp h
  obtain ⟨slot, s₂, hregister, h⟩ := alone_perform_bind.mp h
  have h₂ : SameRecords s s₂ := (SameRecords.of_exec hlock trivial).trans (.of_exec hregister trivial)
  rcases slot with _ | idx
  · exact hsame (h₂.trans (.of_alone h (.perform trivial)))
  · obtain ⟨_, s₃, hfiles, h⟩ := alone_bind.mp h
    exact ((hsame h₂).trans (registerFiles_effect hfiles)).trans (hsame (.of_alone h (.perform trivial)))

/-! ## Requests -/

/-- What a request does to the cores, with the message that is sent at its end. -/
def RequestEffect (s : NameServer) : NmRequest → Option Message → NameServer → Prop
  | .client _ msg, some reply, t => Effect s msg reply t
  | .client _ _, none, _ => False
  | .registerSs _, _, t => KeptOrNew s t
  | _, _, t => t.coreOf = s.coreOf

theorem nmBody_effect {req : NmRequest} {answer : Option Message} (hnamed : Named s)
    (h : Alone (ExecSome NmOp.exec) s (nmBody req) answer t) : RequestEffect s req answer t := by
  cases req with
  | client prior msg =>
    obtain ⟨reply, u, hbody, hdone⟩ := alone_bind.mp h
    obtain ⟨rfl, rfl⟩ := alone_pure.mp hdone
    exact handleClientMessage_effect hnamed hbody
  | registerSs msg =>
    obtain ⟨_, u, hbody, hdone⟩ := alone_bind.mp h
    obtain ⟨rfl, rfl⟩ := alone_pure.mp hdone
    exact registration_effect hbody
  | heartbeatLost _ | login _ _ | logout _ =>
    refine coreOf_congr (fileTrie_of_only ?_ h)
    exact .bind (.perform trivial) fun _ => .pure _

theorem nulFree_exec {c : NmCall} (h : NulFree s.fileTrie) (hexec : ExecSome NmOp.exec s c t) : NulFree t.fileTrie := by
  obtain ⟨op, ans⟩ := c
  obtain ⟨env, hexec⟩ := hexec
  rw [NmOp.exec_fileTrie hexec]
  cases op with
  | trieInsert filename m => exact h.insert filename m
  | trieUpdate filename m => exact h.update filename m
  | trieDelete filename => exact h.delete filename
  | _ => exact h

theorem nulFree_alone {α : Type} {p : Handler α} {a : α} (hnul : NulFree s.fileTrie)
    (h : Alone (ExecSome NmOp.exec) s p a t) : NulFree t.fileTrie :=
  Ensures.of_only (Only.all p) (P := fun u => NulFree u.fileTrie)
    (fun _ _ _ _ _ hu hexec => nulFree_exec hu hexec) s a t hnul h

theorem Named.core (h : Named s) {f : CStr} {c : RecordCore} (hc : s.coreOf f = some c) : c.filename = f := by
  obtain ⟨m, hm, rfl⟩ := Option.map_eq_some_iff.mp hc
  exact h.named f m hm

/-- A core that is replaced by one under the same name. -/
theorem CoreChanged.named {filename : CStr} {new : Option RecordCore} (h : CoreChanged s filename new t)
    (hs : Named s) (hnew : ∀ c ∈ new, c.filename = filename) {f : CStr} {c : RecordCore} (hc : t.coreOf f = some c) :
    c.filename = f := by
  rw [h f] at hc
  split at hc
  · rename_i hf
    rw [hf]
    exact hnew c hc
  · exact hs.core hc

theorem AclChange.filename_apply (change : AclChange) (m : FileMetadata) : (change.apply m).filename = m.filename := by
  cases change with
  | grant u a => exact (grant_fields m u a).1
  | revoke u => rfl

theorem Effect.named (h : Effect s msg reply t) (hs : Named s) {f : CStr} {c : RecordCore}
    (hc : t.coreOf f = some c) : c.filename = f := by
  cases h with
  | same cores _ =>
    rw [cores] at hc
    exact hs.core hc
  | create _ _ _ changed =>
    refine changed.named hs (fun c hnew => ?_) hc
    split at hnew
    · rw [← Option.some.inj hnew]
    · cases hnew
  | delete _ _ _ changed => exact changed.named hs (fun c hnew => by cases hnew) hc
  | access _ _ m found _ changed =>
    refine changed.named hs (fun c hnew => ?_) hc
    rw [← Option.some.inj hnew]
    exact ((accessChange msg).filename_apply m).trans (hs.named _ m found)
  | approve _ _ req m found _ changed =>
    refine changed.named hs (fun c hnew => ?_) hc
    rw [← Option.some.inj hnew]
    exact (grant_fields m _ _).1.trans (hs.named _ m found)
  | move _ _ m found _ changed =>
    refine changed.named hs (fun c hnew => ?_) hc
    rw [← Option.some.inj hnew]
    exact hs.named _ m found

/-- **Every request keeps the records under their names.** -/
theorem Named.step {req : NmRequest} {answer : Option Message} (hs : Named s)
    (h : Alone (ExecSome NmOp.exec) s (nmBody req) answer t) : Named t := by
  refine ⟨fun f m hm => ?_, nulFree_alone hs.nulFree h⟩
  have hcore := coreOf_of_found hm
  have heffect := nmBody_effect hs h
  suffices hname : m.core.filename = f from hname
  match req, answer, heffect with
  | .client _ msg, some reply, heffect => exact heffect.named hs hcore
  | .registerSs _, _, heffect =>
    rcases heffect f with hkept | ⟨-, hnew⟩
    · exact hs.core (hkept.symm.trans hcore)
    · rw [hcore] at hnew
      rw [Option.some.inj hnew]
  | .heartbeatLost _, _, heffect | .login _ _, _, heffect | .logout _, _, heffect =>
    have hsame : t.coreOf = s.coreOf := heffect
    exact hs.core (by rw [← hsame]; exact hcore)

theorem Named.init : Named initNameServer where
  named f m hm := by
    rw [initNameServer, trieSearch_createTrieNode] at hm
    cases hm
  nulFree := .create

end NetworkFileShare
