import NetworkFileShare.NameServer.Acl
import NetworkFileShare.NameServer.Calls

/-!
# Granted and revoked permissions

* `aclTarget`, `aclChange` : whose entry on which file a request changes, and the step that writes it;
* `AccessKept` : a revoked permission stays revoked and a granted one is there, from the write on;
* `Undisturbed` : the steps that write no stale access list: the trie still gives every other user the access
  it gave when the handler read the record. `access_kept` : `AccessKept` holds after every run of such steps;
* `access_comes_back` : the access-time update of a reader brings back an entry that was removed meanwhile.
-/

namespace NetworkFileShare

open NmOp (perform)
open Prog

/-! ## The changes in a history -/

/-- The pending request that a handler has found under `id`. -/
def approved (past : List NmCall) (id : Int32) : Option AccessRequest :=
  (past.findSome? fun c => match c with
    | ⟨.accessRequests, ans⟩ => some (ans : List AccessRequest)
    | _ => none).bind (requestAt · id)

/-- The file and the entry that a request is to change. -/
def aclTarget : NmRequest → List NmCall → Option (CStr × AclChange)
  | .client _ msg, past =>
    if msg.type = MSG_ADDACCESS then some (msg.filename.str, .grant msg.targetUser.str msg.access)
    else if msg.type = MSG_REMACCESS then some (msg.filename.str, .revoke msg.targetUser.str)
    else if msg.type = MSG_APPROVEREQUEST then
      (approved past msg.sentenceIndex).map fun r =>
        (r.filename.str, .grant r.username.str r.requestedAccess)
    else none
  | _, _ => none

/-- The change that a call writes. -/
def callChange (req : NmRequest) (past : List NmCall) (op : NmOp) : Option (CStr × AclChange) :=
  op.updated.bind fun filename => (aclTarget req past).filter (·.1 = filename)

/-- The change that a step writes. -/
def aclChange : NmEvent → Option (CStr × AclChange)
  | .call _ req past c => callChange req past c.op
  | _ => none

/-- The file that a step takes out of the trie. -/
def deleted : NmEvent → Option CStr
  | .call _ _ _ c => c.op.deleted
  | _ => none

/-- The access the trie gives a user on a file. -/
def NameServer.aclEntry (s : NameServer) (filename username : CStr) : Option Int32 :=
  (trieSearch s.fileTrie filename).bind (·.accessOf username)

/-- The requests that change an access list. -/
def ChangesAccess (msg : Message) : Prop :=
  msg.type = MSG_ADDACCESS ∨ msg.type = MSG_REMACCESS ∨ msg.type = MSG_APPROVEREQUEST

/-- **Permissions are kept**: a request is answered `SUCCESS` after it has written its change; from the write
of a removal on there is no entry until access is granted again; from the write of a grant on there is an
entry, with the access granted last, until it is removed or the file is deleted. -/
structure AccessKept (es : List NmEvent) (s : NameServer) : Prop where
  written : ∀ es₁ es₂ i prior msg past r, es = es₁ ++ .answer i (.client prior msg) past (some r) :: es₂ →
    ChangesAccess msg → r.status = SUCCESS →
    ∃ before c, MadeIn es₁ i (.client prior msg) before c ∧
      callChange (.client prior msg) before c.op ≠ none
  revoked : ∀ es₁ e es₂ filename u, es = es₁ ++ e :: es₂ → aclChange e = some (filename, .revoke u) →
    (∀ e' ∈ es₂, ∀ a, aclChange e' ≠ some (filename, .grant u a)) → s.aclEntry filename u = none
  granted : ∀ es₁ e es₂ filename u a, es = es₁ ++ e :: es₂ → aclChange e = some (filename, .grant u a) →
    (∀ e' ∈ es₂, aclChange e' ≠ some (filename, .revoke u) ∧ deleted e' ≠ some filename) →
    ∃ a', s.aclEntry filename u = some a' ∧
      (a' = a ∨ ∃ e' ∈ es₂, aclChange e' = some (filename, .grant u a'))

/-! ## Steps that write no stale list -/

/-- The records of `filename` after one more call, if the records before were `old`. -/
def readBy (filename : CStr) (old : List FileMetadata) : NmCall → List FileMetadata
  | ⟨.trieSearch name, ans⟩ => if name = filename then (ans : Option FileMetadata).toList else old
  | ⟨.trieGetAllFiles, ans⟩ => (ans : List FileMetadata).filter (·.filename = filename)
  | _ => old

/-- The records of `filename` that a handler has read last. -/
def lastRead (past : List NmCall) (filename : CStr) : List FileMetadata := past.foldl (readBy filename) []

/-- The file is there, and there is an entry or room for one. -/
def Grantable (s : NameServer) (filename : CStr) (copies : List FileMetadata) :
    Option (CStr × AclChange) → Prop
  | some (_, .grant u _) => trieSearch s.fileTrie filename ≠ none ∧ ∀ copy ∈ copies, copy.HasRoom u
  | _ => True

instance (s : NameServer) (filename : CStr) (copies : List FileMetadata) :
    (change : Option (CStr × AclChange)) → Decidable (Grantable s filename copies change)
  | some (_, .grant _ _) => inferInstanceAs (Decidable (_ ∧ _))
  | some (_, .revoke _) => isTrue trivial
  | none => isTrue trivial

theorem Grantable.of_mem {s : NameServer} {filename : CStr} {copies : List FileMetadata}
    {change : Option (CStr × AclChange)} (h : Grantable s filename copies change) {copy : FileMetadata}
    (hcopy : copy ∈ copies) : Grantable s filename [copy] change := by
  match change, h with
  | some (_, .grant u a), h =>
    exact ⟨h.1, fun c hc => by rw [List.mem_singleton.mp hc]; exact h.2 copy hcopy⟩
  | some (_, .revoke u), _ => trivial
  | none, _ => trivial

/-- An update finds the access list that the handler read, but for the entry it is to change; a grant finds
the file and room for the entry; an insertion finds no file. -/
def Undisturbed (p : NmPool) : NmEvent → Prop
  | .call _ req past c =>
    (∀ filename ∈ c.op.updated,
      (∀ copy ∈ lastRead past filename, ∀ now ∈ trieSearch p.state.fileTrie filename,
        SameAccess ((callChange req past c.op).map (·.2.user)) now copy) ∧
      Grantable p.state filename (lastRead past filename) (callChange req past c.op)) ∧
    ∀ filename ∈ c.op.inserted, trieSearch p.state.fileTrie filename = none
  | _ => True

instance (p : NmPool) : (e : NmEvent) → Decidable (Undisturbed p e)
  | .call _ _ _ _ => inferInstanceAs (Decidable (_ ∧ _))
  | .start _ _ => isTrue trivial
  | .answer _ _ _ _ => isTrue trivial

/-! ## The invariant -/

/-- What a step leaves of the access of `u` on `filename`. -/
def expectAccess (filename u : CStr) (old : Option Int32) (e : NmEvent) : Option Int32 :=
  match aclChange e with
  | some (name, change) => if name = filename ∧ change.user = u then change.access else old
  | none => if deleted e = some filename then none else old

/-- The access of `u` on `filename` as the grants, removals and deletions have made it. -/
def expectedAccess (es : List NmEvent) (filename u : CStr) : Option Int32 :=
  es.foldl (expectAccess filename u) none

@[simp] theorem expectedAccess_snoc (es : List NmEvent) (e : NmEvent) (filename u : CStr) :
    expectedAccess (es ++ [e]) filename u = expectAccess filename u (expectedAccess es filename u) e := by
  simp [expectedAccess, List.foldl_append]

/-- **The trie gives the access expected**, and no list has two entries for a user. -/
structure AclInv (es : List NmEvent) (s : NameServer) : Prop where
  nulFree : NulFree s.fileTrie
  nodup : ∀ filename m, trieSearch s.fileTrie filename = some m → m.AclNodup
  access : ∀ filename u, s.aclEntry filename u = expectedAccess es filename u

/-- What the handlers rely on: no list has two entries for a user. -/
def NodupAnswer : NmCall → Prop
  | ⟨.trieSearch _, ans⟩ => ∀ m ∈ (ans : Option FileMetadata), m.AclNodup
  | ⟨.trieGetAllFiles, ans⟩ => ∀ m ∈ (ans : List FileMetadata), m.AclNodup
  | _ => True

/-- The list of a record in which the change has been made. -/
def editedAcl (change : Option (CStr × AclChange)) (copy : FileMetadata) : List ACLEntry :=
  match change with
  | some (_, ch) => (ch.apply copy).acl
  | none => copy.acl

/-- The access of `u` after the change, if it was `old`. -/
def editedAccess (change : Option (CStr × AclChange)) (old : Option Int32) (u : CStr) : Option Int32 :=
  match change with
  | some (_, ch) => if u = ch.user then ch.access else old
  | none => old

/-- What the handlers keep to: the list of an updated record is that of the record read last, with the change
of the request made in it; a file is registered with an empty list. -/
def AclGood (req : NmRequest) (past : List NmCall) : NmOp → Prop
  | .trieUpdate filename m => ∃ copy ∈ lastRead past filename, copy.AclNodup ∧
      m.acl = editedAcl (callChange req past (.trieUpdate filename m)) copy
  | .trieInsert _ m => m.acl = []
  | _ => True

theorem accessOf_congr {m m' : FileMetadata} (h : m.acl = m'.acl) (u : CStr) :
    m.accessOf u = m'.accessOf u := by
  rw [FileMetadata.accessOf, FileMetadata.accessOf, h]

theorem aclNodup_edited {change : Option (CStr × AclChange)} {copy m : FileMetadata} (h : copy.AclNodup)
    (hm : m.acl = editedAcl change copy) : m.AclNodup := by
  rw [FileMetadata.AclNodup, hm]
  cases change with
  | none => exact h
  | some t => exact t.2.apply_nodup h

theorem accessOf_edited {change : Option (CStr × AclChange)} {copy m : FileMetadata} (h : copy.AclNodup)
    (hm : m.acl = editedAcl change copy)
    (hroom : ∀ name u a, change = some (name, .grant u a) → copy.HasRoom u) (u : CStr) :
    m.accessOf u = editedAccess change (copy.accessOf u) u := by
  cases change with
  | none => exact accessOf_congr hm u
  | some t =>
    have hcongr : m.accessOf u = (t.2.apply copy).accessOf u := accessOf_congr hm u
    rw [hcongr]
    exact t.2.accessOf_apply h (fun v a hv => hroom t.1 v a (by rw [← hv])) u

namespace AclInv
variable {es : List NmEvent} {s t : NameServer}

theorem init : AclInv [] initNameServer where
  nulFree := .create
  nodup filename m hm := by
    rw [initNameServer, trieSearch_createTrieNode] at hm
    cases hm
  access filename u := by
    rw [NameServer.aclEntry, initNameServer, trieSearch_createTrieNode]
    rfl

/-- A step that leaves the trie alone and changes no entry. -/
theorem same (h : AclInv es s) {e : NmEvent} (htrie : t.fileTrie = s.fileTrie) (hchange : aclChange e = none)
    (hdeleted : deleted e = none) : AclInv (es ++ [e]) t where
  nulFree := htrie ▸ h.nulFree
  nodup := htrie ▸ h.nodup
  access filename u := by
    have hentry : t.aclEntry filename u = s.aclEntry filename u := by
      rw [NameServer.aclEntry, NameServer.aclEntry, htrie]
    rw [hentry, h.access, expectedAccess_snoc, expectAccess, hchange, hdeleted]
    rfl

theorem insert (h : AclInv es s) {e : NmEvent} {filename : CStr} {m : FileMetadata}
    (htrie : t.fileTrie = (trieInsert s.fileTrie filename m).1) (hchange : aclChange e = none)
    (hdeleted : deleted e = none) (habsent : trieSearch s.fileTrie filename = none) (hm : m.acl = []) :
    AclInv (es ++ [e]) t := by
  have hfind : ∀ name, trieSearch t.fileTrie name =
      if name = filename ∧ Indexed filename then some m else trieSearch s.fileTrie name := fun name => by
    rw [htrie, trieSearch_insert]
  refine ⟨htrie ▸ h.nulFree.insert _ _, fun name m' hm' => ?_, fun name u => ?_⟩
  · rw [hfind] at hm'
    split at hm'
    · rw [← Option.some.inj hm', FileMetadata.AclNodup, hm]
      exact List.nodup_nil
    · exact h.nodup name m' hm'
  · have hentry : t.aclEntry name u = s.aclEntry name u := by
      rw [NameServer.aclEntry, NameServer.aclEntry, hfind]
      split
      · rename_i hname
        rw [hname.1, habsent, Option.bind_some, Option.bind_none, FileMetadata.accessOf_eq_none, hm]
        exact List.not_mem_nil
      · rfl
    rw [hentry, h.access, expectedAccess_snoc, expectAccess, hchange, hdeleted]
    rfl

theorem delete (h : AclInv es s) {e : NmEvent} {filename : CStr}
    (htrie : t.fileTrie = trieDelete s.fileTrie filename) (hchange : aclChange e = none)
    (hdeleted : deleted e = some filename) : AclInv (es ++ [e]) t := by
  have hfind : ∀ name, trieSearch t.fileTrie name =
      if name = filename then none else trieSearch s.fileTrie name := fun name => by
    rw [htrie, trieSearch_delete]
  refine ⟨htrie ▸ h.nulFree.delete _, fun name m' hm' => ?_, fun name u => ?_⟩
  · rw [hfind] at hm'
    split at hm'
    · cases hm'
    · exact h.nodup name m' hm'
  · rw [expectedAccess_snoc, expectAccess, hchange, hdeleted, ← h.access, NameServer.aclEntry, hfind]
    by_cases hname : name = filename
    · simp [hname]
    · simp [hname, Ne.symm hname, NameServer.aclEntry]

/-- The update of a record whose list is the one the handler read. -/
theorem update (h : AclInv es s) {e : NmEvent} {filename : CStr} {m copy : FileMetadata}
    (htrie : t.fileTrie = (trieUpdate s.fileTrie filename m).1) (hdeleted : deleted e = none)
    (hfile : ∀ target, aclChange e = some target → target.1 = filename) (hcopy : copy.AclNodup)
    (hm : m.acl = editedAcl (aclChange e) copy)
    (hsame : ∀ now ∈ trieSearch s.fileTrie filename, SameAccess ((aclChange e).map (·.2.user)) now copy)
    (hgrant : Grantable s filename [copy] (aclChange e)) : AclInv (es ++ [e]) t := by
  have hfind : ∀ name, trieSearch t.fileTrie name =
      if name = filename ∧ (trieSearch s.fileTrie filename).isSome then some m
      else trieSearch s.fileTrie name := fun name => by
    rw [htrie, trieSearch_update]
  have hroom : ∀ name u a, aclChange e = some (name, .grant u a) → copy.HasRoom u := by
    intro name u a he
    rw [he] at hgrant
    exact hgrant.2 copy (List.mem_singleton_self _)
  have haccess := accessOf_edited hcopy hm hroom
  refine ⟨htrie ▸ h.nulFree.update _ _, fun name m' hm' => ?_, fun name u => ?_⟩
  · rw [hfind] at hm'
    split at hm'
    · rw [← Option.some.inj hm']
      exact aclNodup_edited hcopy hm
    · exact h.nodup name m' hm'
  · rw [expectedAccess_snoc, ← h.access, NameServer.aclEntry, NameServer.aclEntry, hfind, expectAccess, hdeleted]
    by_cases hname : name = filename
    · subst hname
      cases hnow : trieSearch s.fileTrie name with
      | none =>
        -- the file is gone: only a removal gets here, and there is no entry
        cases hch : aclChange e with
        | none => simp
        | some target =>
          obtain ⟨file, ch⟩ := target
          cases ch with
          | grant v a => rw [hch] at hgrant; exact absurd hnow hgrant.1
          | revoke v => simp [AclChange.access]
      | some now =>
        have hother := (hsame now hnow).accessOf (v := u)
        simp only [Option.isSome_some, and_self, if_true, Option.bind_some, haccess]
        cases hch : aclChange e with
        | none =>
          rw [hch] at hother
          simpa [editedAccess] using (hother (by simp)).symm
        | some target =>
          obtain ⟨file, ch⟩ := target
          have hfile' : file = name := hfile _ hch
          rw [hch] at hother
          by_cases hu : u = ch.user
          · simp [editedAccess, hfile', hu]
          · have hold := hother (by simpa using hu)
            simp [editedAccess, hfile', hu, Ne.symm hu, hold]
    · have hsame' : ∀ target, aclChange e = some target → ¬ (target.1 = name ∧ target.2.user = u) :=
        fun target ht hn => hname (hn.1.symm.trans (hfile target ht))
      cases hch : aclChange e with
      | none => simp [hname]
      | some target => simp [hname, hsame' target hch]

/-- **One call of a handler keeps the invariant**, and its answer is what the handlers rely on. -/
theorem call (h : AclInv es s) {p : NmPool} (hp : p.state = s) {i : Nat} {req : NmRequest}
    {past : List NmCall} {c : NmCall} (hguard : Undisturbed p (.call i req past c))
    (hgood : AclGood req past c.op) (hexec : ExecSome NmOp.exec s c t) :
    NodupAnswer c ∧ AclInv (es ++ [.call i req past c]) t := by
  subst hp
  obtain ⟨op, ans⟩ := c
  obtain ⟨env, hexec⟩ := hexec
  have htrie := NmOp.exec_fileTrie hexec
  cases op with
  | trieSearch filename =>
    have hans : p.state.fileTrie = t.fileTrie ∧ ans = trieSearch p.state.fileTrie filename := by
      cases hexec
      exact ⟨rfl, rfl⟩
    exact ⟨fun m hm => h.nodup filename m (by rw [← hans.2]; exact hm), h.same htrie rfl rfl⟩
  | trieGetAllFiles =>
    have hans : ans = trieGetAllFiles p.state.fileTrie MAX_FILES := by
      cases hexec
      rfl
    refine ⟨fun m hm => ?_, h.same htrie rfl rfl⟩
    rw [hans] at hm
    obtain ⟨name, hname⟩ := mem_getAllFiles h.nulFree hm
    exact h.nodup name m hname
  | trieInsert filename m =>
    exact ⟨trivial, h.insert htrie rfl rfl (hguard.2 filename rfl) hgood⟩
  | trieDelete filename => exact ⟨trivial, h.delete htrie rfl rfl⟩
  | trieUpdate filename m =>
    obtain ⟨copy, hread, hcopy, hm⟩ := hgood
    obtain ⟨hsame, hgrant⟩ := hguard.1 filename rfl
    refine ⟨trivial, h.update htrie rfl (fun target ht => ?_) hcopy hm (hsame copy hread) ?_⟩
    · exact of_decide_eq_true (Option.filter_eq_some_iff.mp ht).2
    · exact hgrant.of_mem hread
  | _ => exact ⟨trivial, h.same htrie rfl rfl⟩

end AclInv

/-! ## The handlers keep to their contract -/

/-- Calls that neither update nor register a file. -/
def LeavesFiles (op : NmOp) : Prop := op.updated = none ∧ op.inserted = none

theorem leavesFiles_of_leavesTrie {α : Type} {p : Handler α} (h : Only LeavesTrie p) : Only LeavesFiles p := by
  refine h.mono fun op hop => ?_
  cases op with
  | trieInsert _ _ | trieUpdate _ _ => exact hop.elim
  | _ => exact ⟨rfl, rfl⟩

theorem leavesFiles_of_quiet {α : Type} {p : Handler α} (h : Only Quiet p) : Only LeavesFiles p :=
  leavesFiles_of_leavesTrie (h.mono fun _ hop => .of_quiet hop)

theorem aclGood_of_leavesFiles {op : NmOp} (h : LeavesFiles op) (req : NmRequest) (past : List NmCall) :
    AclGood req past op := by
  cases op with
  | trieUpdate filename m => cases h.1
  | trieInsert filename m => cases h.2
  | _ => trivial

theorem handleDelete_leavesFiles (msg : Message) : Only LeavesFiles (handleDelete msg) := by
  refine .bind (.perform ⟨rfl, rfl⟩) fun found => ?_
  rcases found with _ | metadata
  · exact .pure _
  refine .ite (.pure _) (.bind (.perform ⟨rfl, rfl⟩) fun idx => ?_)
  rcases idx with _ | idx
  · exact .pure _
  refine .bind (.perform ⟨rfl, rfl⟩) fun _ => .bind (.perform ⟨rfl, rfl⟩) fun locks => .ite ?_ ?_
  · exact .bind (.perform ⟨rfl, rfl⟩) fun _ => .pure _
  refine .bind (.perform ⟨rfl, rfl⟩) fun reply => .bind (.perform ⟨rfl, rfl⟩) fun _ => .ite ?_ (.pure _)
  exact .bind (.perform ⟨rfl, rfl⟩) fun _ => .bind (.perform ⟨rfl, rfl⟩) fun _ => .pure _

/-- The program keeps to the contract of `req`. -/
abbrev KeepsAcl {α : Type} (req : NmRequest) (post : List NmCall → α → Prop) (past : List NmCall)
    (p : Handler α) : Prop := p.Obeys NodupAnswer (AclGood req) post past

/-- The program of a request that does not change an access list. -/
abbrev Keeps {α : Type} (req : NmRequest) (past : List NmCall) (p : Handler α) : Prop :=
  KeepsAcl req (fun _ _ => True) past p

theorem keeps_of_leavesFiles {α : Type} {p : Handler α} (h : Only LeavesFiles p) (req : NmRequest)
    (past : List NmCall) : Keeps req past p :=
  h.obeys (J := fun _ => True) (fun past _ hop _ => aclGood_of_leavesFiles hop req past)
    (fun _ _ _ _ _ => trivial) (fun _ _ _ => trivial) trivial

@[simp] theorem lastRead_snoc (past : List NmCall) (c : NmCall) (filename : CStr) :
    lastRead (past ++ [c]) filename = readBy filename (lastRead past filename) c := by
  simp [lastRead, List.foldl_append]

/-- Calls that read no record either. -/
def ReadsNothing (op : NmOp) : Prop :=
  LeavesFiles op ∧ ∀ filename old ans, readBy filename old ⟨op, ans⟩ = old

theorem keeps_of_readsNothing {α : Type} {p : Handler α} (h : Only ReadsNothing p) (req : NmRequest)
    (past : List NmCall) :
    KeepsAcl req (fun past' _ => ∀ filename, lastRead past' filename = lastRead past filename) past p :=
  h.obeys (J := fun past' => ∀ filename, lastRead past' filename = lastRead past filename)
    (fun past op hop _ => aclGood_of_leavesFiles hop.1 req past)
    (fun _ _ _ hop hJ filename => by rw [lastRead_snoc, hop.2, hJ]) (fun _ _ hJ => hJ) fun _ => rfl

theorem exchangeWith_readsNothing (idx : Nat) (msg : Message) : Only ReadsNothing (exchangeWith idx msg) :=
  .bind (.perform ⟨⟨rfl, rfl⟩, fun _ _ _ => rfl⟩) fun _ =>
    .bind (.perform ⟨⟨rfl, rfl⟩, fun _ _ _ => rfl⟩) fun reply =>
      .bind (.perform ⟨⟨rfl, rfl⟩, fun _ _ _ => rfl⟩) fun _ => .pure reply

/-- A record is written back with the change of the request made in the list that was read. -/
theorem writeBack_keeps {req : NmRequest} {past : List NmCall} {filename : CStr} {copy m : FileMetadata}
    (hread : copy ∈ lastRead past filename) (hcopy : copy.AclNodup)
    (hm : m.acl = editedAcl ((aclTarget req past).filter (·.1 = filename)) copy)
    {post : List NmCall → Unit → Prop}
    (hpost : ∀ status done, post (past ++ [⟨.trieUpdate filename m, status⟩] ++ [⟨.cachePut filename m, done⟩])
      ()) : KeepsAcl req post past (writeBack filename m) := by
  refine .perform_bind ⟨copy, hread, hcopy, hm⟩ fun status _ => ?_
  exact ⟨trivial, fun done _ => hpost status done⟩

section
variable {req : NmRequest} (hreq : ∀ past, aclTarget req past = none) {past : List NmCall}
include hreq

/-- The case of a request that changes no list. -/
theorem writeBack_keeps_same {filename : CStr} {copy m : FileMetadata}
    (hread : copy ∈ lastRead past filename) (hcopy : copy.AclNodup) (hm : m.acl = copy.acl) :
    KeepsAcl req (fun past' _ => ∀ name, lastRead past' name = lastRead past name) past
      (writeBack filename m) :=
  writeBack_keeps hread hcopy (by rw [hreq]; exact hm) fun _ _ _ => by simp only [lastRead_snoc, readBy]

theorem moveFile_keeps {msg : Message} {metadata : FileMetadata}
    (hread : metadata ∈ lastRead past msg.filename.str) (hnodup : metadata.AclNodup) :
    Keeps req past (moveFile msg metadata) := by
  refine .perform_bind trivial fun idx _ => ?_
  rcases idx with _ | idx
  · exact trivial
  refine .bind (keeps_of_readsNothing (exchangeWith_readsNothing _ _) _ _) fun past' reply hpast' =>
    .ite (fun _ => ?_) fun _ => trivial
  have hread' : metadata ∈ lastRead past' msg.filename.str := by
    rw [hpast', lastRead_snoc]
    exact hread
  exact .bind (writeBack_keeps_same hreq hread' hnodup (by rfl)) fun _ _ _ => trivial

theorem handleMove_keeps (msg : Message) : Keeps req past (handleMove msg) := by
  refine .perform_bind trivial fun found hfound => ?_
  rcases found with _ | metadata
  · exact trivial
  have hnodup : metadata.AclNodup := hfound metadata rfl
  have hmay : Only ReadsNothing (mayMove msg metadata) :=
    .ite (.pure _) (.perform ⟨⟨rfl, rfl⟩, fun _ _ _ => rfl⟩)
  refine .bind (keeps_of_readsNothing hmay _ _) fun past' allowed hpast' => ?_
  have hread : metadata ∈ lastRead past' msg.filename.str := by
    rw [hpast', lastRead_snoc]
    simp [readBy]
  refine .ite (fun _ => trivial) fun _ => .ite (fun _ => moveFile_keeps hreq hread hnodup) fun _ => ?_
  refine .perform_bind trivial fun folder _ => ?_
  rcases folder with _ | folder
  · exact trivial
  · exact moveFile_keeps hreq (by rw [lastRead_snoc]; exact hread) hnodup

theorem locateFile_keeps (prior msg : Message) : Keeps req past (locateFile prior msg) := by
  refine .perform_bind trivial fun allowed _ => .ite (fun _ => ?_) fun _ => trivial
  have hfind := leavesFiles_of_leavesTrie (only_leavesTrie (findSsForFile_keepsRecords msg.filename.str))
  refine .bind (keeps_of_leavesFiles hfind _ _) fun past' ssId _ =>
    .ite (fun _ => trivial) fun _ => ?_
  refine .perform_bind trivial fun info _ => .perform_bind trivial fun found hfound => ?_
  rcases found with _ | metadata
  · exact trivial
  refine .perform_bind trivial fun now _ => ?_
  have hread : metadata ∈ lastRead (past' ++ [⟨.ssInfo ssId, info⟩] ++
      [⟨.trieSearch msg.filename.str, some metadata⟩] ++ [⟨.time, now⟩]) msg.filename.str := by
    simp only [lastRead_snoc, readBy, if_true]
    exact List.mem_singleton_self _
  exact .bind (writeBack_keeps_same hreq hread (hfound metadata rfl) (by rfl)) fun _ _ _ => trivial

end

theorem acl_statFields (s : CStr) (m : FileMetadata) : (scanFields statFields s m).acl = m.acl :=
  scanFields_keeps (·.acl) (by simp [statFields]) s m

section
variable {req : NmRequest} (hreq : ∀ past, aclTarget req past = none)
include hreq

theorem refreshFile_keeps {past : List NmCall} {f : FileMetadata} (hread : f ∈ lastRead past f.filename)
    (hnodup : f.AclNodup) :
    KeepsAcl req (fun past' _ => ∀ name, lastRead past' name = lastRead past name) past (refreshFile f) := by
  refine .perform_bind trivial fun idx _ => ?_
  rcases idx with _ | idx
  · exact fun name => by rw [lastRead_snoc]; rfl
  refine .perform_bind trivial fun _ _ => .perform_bind trivial fun reply _ => .ite (fun _ => ?_) fun _ => ?_
  · refine .bind (writeBack_keeps_same hreq ?_ hnodup (acl_statFields _ f)) fun past' _ hpast' =>
      .perform_bind trivial fun _ _ => fun name => ?_
    · simpa only [lastRead_snoc, readBy] using hread
    · simp only [lastRead_snoc, readBy, hpast']
  · exact .perform_bind trivial fun _ _ => fun name => by simp only [lastRead_snoc, readBy]

theorem refreshFiles_keeps : ∀ {past : List NmCall} (files : List FileMetadata),
    (∀ f ∈ files, f ∈ lastRead past f.filename ∧ f.AclNodup) → Keeps req past (refreshFiles files)
  | _, [], _ => trivial
  | past, f :: fs, hfiles => by
    obtain ⟨hread, hnodup⟩ := hfiles f List.mem_cons_self
    refine .bind (refreshFile_keeps hreq hread hnodup) fun past' f' hpast' => ?_
    refine .bind (refreshFiles_keeps fs fun g hg => ?_) fun _ _ _ => trivial
    rw [hpast']
    exact hfiles g (List.mem_cons_of_mem _ hg)

theorem handleView_keeps (msg : Message) {past : List NmCall} : Keeps req past (handleView msg) := by
  refine .perform_bind trivial fun files hfiles => ?_
  have hview : ∀ past fs, Keeps req past
      (viewLines (hasFlag (byte 97) msg.data.str) (hasFlag (byte 108) msg.data.str) msg.sender.str fs) :=
    fun past fs => keeps_of_leavesFiles (leavesFiles_of_quiet (only_quiet (viewLines_calm _ _ _ fs))) req past
  refine .bind (.ite (fun _ => refreshFiles_keeps hreq files fun f hf => ⟨?_, hfiles f hf⟩) fun _ => trivial)
    fun past' fs _ => .bind (hview past' fs) fun _ _ _ => trivial
  rw [lastRead_snoc]
  exact List.mem_filter.mpr ⟨hf, decide_eq_true rfl⟩

theorem registerFiles_keeps (ssId : Int32) : ∀ {past : List NmCall} (tokens : List CStr),
    Keeps req past (registerFiles ssId tokens)
  | _, [] => trivial
  | past, token :: tokens => by
    refine .perform_bind trivial fun found hfound => ?_
    rcases found with _ | existing
    · exact .perform_bind trivial fun now _ => .perform_bind rfl fun _ _ => registerFiles_keeps ssId tokens
    · refine .perform_bind ⟨existing, ?_, hfound existing rfl, ?_⟩ fun _ _ => registerFiles_keeps ssId tokens
      · simp [readBy]
      · rw [callChange, NmOp.updated, Option.bind_some, hreq]
        rfl

theorem handleSsConnection_keeps (msg : Message) {past : List NmCall} :
    Keeps req past (handleSsConnection msg) := by
  refine .perform_bind trivial fun _ _ => .perform_bind trivial fun slot _ => ?_
  rcases slot with _ | idx
  · exact ⟨trivial, fun _ _ => trivial⟩
  · exact .bind (registerFiles_keeps hreq msg.ssId _) fun _ _ _ => ⟨trivial, fun _ _ => trivial⟩

end

theorem handleCreate_keeps (req : NmRequest) (msg : Message) {past : List NmCall} :
    Keeps req past (handleCreate msg) := by
  refine .perform_bind trivial fun found _ => ?_
  rcases found with _ | existing
  · refine .perform_bind trivial fun ssId _ => .ite (fun _ => trivial) fun _ => .perform_bind trivial fun idx _ => ?_
    rcases idx with _ | idx
    · exact trivial
    refine .bind (keeps_of_leavesFiles (leavesFiles_of_quiet (exchangeWith_quiet _ _)) _ _) fun past' reply _ =>
      .ite (fun _ => ?_) fun _ => trivial
    exact .perform_bind trivial fun now _ => .perform_bind rfl fun _ _ => .perform_bind trivial fun _ _ => trivial
  · exact trivial

/-! ## The requests that change an access list -/

/-- A call of the request has written its change. -/
def HasWritten (req : NmRequest) (past : List NmCall) : Prop :=
  ∃ before c after, past = before ++ c :: after ∧ callChange req before c.op ≠ none

/-- The change of the request is written, and stands in the calls made. -/
theorem writeBack_changes {req : NmRequest} {past : List NmCall} {filename : CStr} {copy : FileMetadata}
    {ch : AclChange} (htarget : aclTarget req past = some (filename, ch))
    (hread : copy ∈ lastRead past filename) (hcopy : copy.AclNodup) :
    KeepsAcl req (fun past' _ => HasWritten req past') past (writeBack filename (ch.apply copy)) := by
  have hchange : (aclTarget req past).filter (·.1 = filename) = some (filename, ch) := by
    rw [htarget, Option.filter_some, if_pos (decide_eq_true rfl)]
  refine writeBack_keeps hread hcopy (by rw [hchange]; rfl) fun status done => ?_
  refine ⟨past, ⟨.trieUpdate filename (ch.apply copy), status⟩, [⟨.cachePut filename (ch.apply copy), done⟩],
    by simp, ?_⟩
  rw [callChange, NmOp.updated, Option.bind_some, hchange]
  exact Option.some_ne_none _

theorem HasWritten.snoc {req : NmRequest} {past : List NmCall} (h : HasWritten req past) (c : NmCall) :
    HasWritten req (past ++ [c]) := by
  obtain ⟨before, d, after, rfl, hd⟩ := h
  exact ⟨before, d, after ++ [c], by simp, hd⟩

/-- `SUCCESS` is answered after the change has been written. -/
def SuccessWritten (req : NmRequest) (past : List NmCall) (r : Message) : Prop :=
  r.status = SUCCESS → HasWritten req past

theorem successWritten_of_ne {req : NmRequest} {past : List NmCall} {status : Int32} (h : status ≠ SUCCESS) :
    SuccessWritten req past (replyStatus status) := fun hs => absurd hs h

theorem handleAccess_keeps {prior msg : Message} (hmsg : msg.type = MSG_ADDACCESS ∨ msg.type = MSG_REMACCESS) :
    KeepsAcl (.client prior msg) (SuccessWritten (.client prior msg)) [] (handleAccess msg) := by
  refine .perform_bind trivial fun found hfound => ?_
  rcases found with _ | metadata
  · exact successWritten_of_ne (by decide)
  have hnodup : metadata.AclNodup := hfound metadata rfl
  have hread : metadata ∈ lastRead [⟨.trieSearch msg.filename.str, some metadata⟩] msg.filename.str := by
    simp [lastRead, readBy]
  refine .ite (fun _ => successWritten_of_ne (by decide)) fun _ => .ite (fun hadd => ?_) fun hadd => ?_
  · refine .perform_bind trivial fun known _ => .ite (fun _ => ?_) fun _ => successWritten_of_ne (by decide)
    refine .ite (fun _ => successWritten_of_ne (by decide)) fun _ => ?_
    have htarget : aclTarget (.client prior msg) ([⟨.trieSearch msg.filename.str, some metadata⟩] ++
        [⟨.userExists msg.targetUser, known⟩]) =
        some (msg.filename.str, .grant msg.targetUser.str msg.access) := by
      rw [aclTarget, if_pos hadd]
    exact .bind (writeBack_changes htarget (by rw [lastRead_snoc]; exact hread) hnodup)
      fun past' _ hwritten => fun _ => hwritten
  · have hrem : msg.type = MSG_REMACCESS := hmsg.resolve_left hadd
    refine .ite (fun _ => ?_) fun hne => absurd hrem hne
    have htarget : aclTarget (.client prior msg) [⟨.trieSearch msg.filename.str, some metadata⟩] =
        some (msg.filename.str, .revoke msg.targetUser.str) := by
      rw [aclTarget, if_neg hadd, if_pos hrem]
    exact .bind (writeBack_changes htarget hread hnodup) fun past' _ hwritten => fun _ => hwritten

theorem handleApproveRequest_keeps {prior msg : Message} (hmsg : msg.type = MSG_APPROVEREQUEST) :
    KeepsAcl (.client prior msg) (SuccessWritten (.client prior msg)) [] (handleApproveRequest msg) := by
  refine .perform_bind trivial fun locked _ => .perform_bind trivial fun requests _ => ?_
  have herror : ∀ {past : List NmCall} (status : Int32), status ≠ SUCCESS →
      KeepsAcl (.client prior msg) (SuccessWritten (.client prior msg)) past (do
        perform (.unlock .request)
        return replyStatus status) :=
    fun status hstatus => .perform_bind trivial fun _ _ => successWritten_of_ne hstatus
  cases hreq : requestAt requests msg.sentenceIndex with
  | none =>
    exact herror _ (by decide)
  | some r =>
    refine .perform_bind trivial fun found hfound => ?_
    rcases found with _ | metadata
    · exact herror _ (by decide)
    refine .ite (fun _ => herror _ (by decide)) fun _ => ?_
    have htarget : aclTarget (.client prior msg) ([] ++ [⟨.lock .request, locked⟩] ++
        [⟨.accessRequests, requests⟩] ++ [⟨.trieSearch r.filename.str, some metadata⟩]) =
        some (r.filename.str, .grant r.username.str r.requestedAccess) := by
      rw [aclTarget, if_neg (by rw [hmsg]; decide), if_neg (by rw [hmsg]; decide), if_pos hmsg]
      simp [approved, hreq]
    have hread : metadata ∈ lastRead ([] ++ [⟨.lock .request, locked⟩] ++ [⟨.accessRequests, requests⟩] ++
        [⟨.trieSearch r.filename.str, some metadata⟩]) r.filename.str := by
      simp [lastRead, readBy]
    refine .bind (writeBack_changes htarget hread (hfound metadata rfl)) fun past' _ hwritten => ?_
    exact .perform_bind trivial fun _ _ => .perform_bind trivial fun _ _ => fun _ => (hwritten.snoc _).snoc _

/-- What is known of an answer: a request that changes an access list has written its change. -/
def AclPost (req : NmRequest) (past : List NmCall) (result : Option Message) : Prop :=
  ∀ prior msg r, req = .client prior msg → ChangesAccess msg → result = some r →
    SuccessWritten req past r

/-- The other requests. -/
theorem handleClientMessage_keeps {prior msg : Message} (hmsg : ¬ ChangesAccess msg) :
    Keeps (.client prior msg) [] (handleClientMessage prior msg) := by
  have hreq : ∀ past, aclTarget (.client prior msg) past = none := fun past => by
    simp only [ChangesAccess, not_or] at hmsg
    rw [aclTarget, if_neg hmsg.1, if_neg hmsg.2.1, if_neg hmsg.2.2]
  have hread : ∀ {p : Handler Message}, Only LeavesFiles p → Keeps (.client prior msg) [] p :=
    fun h => keeps_of_leavesFiles h _ _
  have hquiet : ∀ {p : Handler Message}, Only Quiet p → Keeps (.client prior msg) [] p :=
    fun h => hread (leavesFiles_of_quiet h)
  have htrie : ∀ {p : Handler Message}, Only LeavesTrie p → Keeps (.client prior msg) [] p :=
    fun h => hread (leavesFiles_of_leavesTrie h)
  have hserved := handledBy prior msg
  generalize handleClientMessage prior msg = p at hserved ⊢
  cases hserved with
  | requestAccess _ => exact hquiet (handleRequestAccess_quiet msg)
  | viewRequests _ => exact hquiet (only_quiet (handleViewRequests_calm msg))
  | approve type => exact absurd (Or.inr (Or.inr type)) hmsg
  | deny _ => exact hquiet (handleDenyRequest_quiet msg)
  | checkpoint _ => exact htrie (only_leavesTrie (handleCheckpointRequest_keepsRecords msg))
  | createFolder _ => exact hquiet (only_quiet (handleCreateFolder_calm msg))
  | move _ => exact handleMove_keeps hreq msg
  | viewFolder _ => exact hquiet (only_quiet (handleViewFolder_calm msg))
  | view _ => exact handleView_keeps hreq msg
  | info _ => exact htrie (only_leavesTrie (handleInfo_keepsRecords msg))
  | list _ => exact hquiet (only_quiet handleList_calm)
  | create _ => exact handleCreate_keeps _ msg
  | delete _ => exact hread (handleDelete_leavesFiles msg)
  | access type => exact absurd (type.imp_right Or.inl) hmsg
  | exec _ => exact htrie (only_leavesTrie (handleExec_keepsRecords msg))
  | locate _ => exact locateFile_keeps hreq prior msg
  | other _ => trivial

/-- **Every program of the name server keeps to the contract.** -/
theorem nmBody_keeps (req : NmRequest) : KeepsAcl req (AclPost req) [] (nmBody req) := by
  cases req with
  | client prior msg =>
    by_cases hmsg : ChangesAccess msg
    · have hacl : KeepsAcl (.client prior msg) (SuccessWritten (.client prior msg)) []
          (handleClientMessage prior msg) := by
        rcases hmsg with h | h | h
        · rw [(HandledBy.access (Or.inl h)).eq]
          exact handleAccess_keeps (Or.inl h)
        · rw [(HandledBy.access (Or.inr h)).eq]
          exact handleAccess_keeps (Or.inr h)
        · rw [(HandledBy.approve h).eq]
          exact handleApproveRequest_keeps h
      exact .bind hacl fun past r hr => fun _ _ r' _ _ he => by
        rw [← Option.some.inj he]
        exact hr
    · exact .bind (handleClientMessage_keeps hmsg) fun past r _ => fun prior' msg' _ he hacc _ => by
        injection he with _ hm
        exact absurd (hm ▸ hacc) hmsg
  | registerSs msg =>
    exact .bind (handleSsConnection_keeps (fun _ => rfl) msg) fun _ _ _ => fun _ _ _ he => by cases he
  | heartbeatLost ssId => exact .perform_bind trivial fun _ _ => fun _ _ _ he => by cases he
  | login sock name => exact .perform_bind trivial fun _ _ => fun _ _ _ he => by cases he
  | logout c => exact .perform_bind trivial fun _ _ => fun _ _ _ he => by cases he

/-! ## Every run -/

/-- After a removal and no grant, no access is expected. -/
theorem expectedAccess_revoked {es₁ es₂ : List NmEvent} {e : NmEvent} {filename u : CStr}
    (he : aclChange e = some (filename, .revoke u))
    (hnone : ∀ e' ∈ es₂, ∀ a, aclChange e' ≠ some (filename, .grant u a)) :
    expectedAccess (es₁ ++ e :: es₂) filename u = none := by
  rw [expectedAccess, List.foldl_append, List.foldl_cons]
  refine List.foldlRecOn (motive := fun old => old = none) es₂ _ ?_ fun old hold e' he' => ?_
  · simp [expectAccess, he, AclChange.user, AclChange.access]
  · subst hold
    rw [expectAccess]
    cases hch : aclChange e' with
    | none => simp
    | some target =>
      obtain ⟨name, ch⟩ := target
      dsimp only
      split
      · rename_i hit
        obtain ⟨rfl, rfl⟩ := hit
        cases ch with
        | grant v a => exact absurd hch (hnone e' he' a)
        | revoke v => rfl
      · rfl

/-- After a grant and neither removal nor deletion, the access granted last is expected. -/
theorem expectedAccess_granted {es₁ es₂ : List NmEvent} {e : NmEvent} {filename u : CStr} {a : Int32}
    (he : aclChange e = some (filename, .grant u a))
    (hkept : ∀ e' ∈ es₂, aclChange e' ≠ some (filename, .revoke u) ∧ deleted e' ≠ some filename) :
    ∃ a', expectedAccess (es₁ ++ e :: es₂) filename u = some a' ∧
      (a' = a ∨ ∃ e' ∈ es₂, aclChange e' = some (filename, .grant u a')) := by
  rw [expectedAccess, List.foldl_append, List.foldl_cons]
  refine List.foldlRecOn (motive := fun old => ∃ a', old = some a' ∧
    (a' = a ∨ ∃ e' ∈ es₂, aclChange e' = some (filename, .grant u a'))) es₂ _ ?_ fun old hold e' he' => ?_
  · exact ⟨a, by simp [expectAccess, he, AclChange.user, AclChange.access], Or.inl rfl⟩
  · rw [expectAccess]
    cases hch : aclChange e' with
    | none => simpa [(hkept e' he').2] using hold
    | some target =>
      obtain ⟨name, ch⟩ := target
      dsimp only
      split
      · rename_i hit
        obtain ⟨rfl, rfl⟩ := hit
        cases ch with
        | grant v b => exact ⟨b, rfl, Or.inr ⟨e', he', hch⟩⟩
        | revoke v => exact absurd hch (hkept e' he').1
      · exact hold

/-- A request and its answer leave the trie alone. -/
theorem AclInv.start {es : List NmEvent} {s : NameServer} (h : AclInv es s) (i : Nat) (req : NmRequest) :
    AclInv (es ++ [.start i req]) s := h.same rfl rfl rfl

theorem AclInv.answer {es : List NmEvent} {s : NameServer} (h : AclInv es s) (i : Nat) (req : NmRequest)
    (past : List NmCall) (result : Option Message) : AclInv (es ++ [.answer i req past result]) s :=
  h.same rfl rfl rfl

/-- **Along every run whose steps write no stale access list, permissions are kept.** -/
theorem access_kept {es : List NmEvent} {p : NmPool}
    (h : Run (Guarded Undisturbed NmStep) (Pool.idle initNameServer) es p) : AccessKept es p.state := by
  have hcall : ∀ (es : List NmEvent) (q : NmPool) (i : Nat) (req : NmRequest) (past : List NmCall) (c : NmCall)
      (t : NameServer), AclInv es q.state → Undisturbed q (.call i req past c) → AclGood req past c.op →
      ExecSome NmOp.exec q.state c t → NodupAnswer c ∧ AclInv (es ++ [.call i req past c]) t :=
    fun es q i req past c t hinv hguard hgood hexec => hinv.call rfl hguard hgood hexec
  have hanswer : ∀ (es : List NmEvent) (s : NameServer) (i : Nat) (req : NmRequest) (past : List NmCall)
      (result : Option Message), AclInv es s → AclPost req past result →
      AclInv (es ++ [.answer i req past result]) s :=
    fun es s i req past result hinv _ => hinv.answer i req past result
  have hinv : AclInv es p.state :=
    (pool_invariant (fun _ _ req _ => nmBody_keeps req) .init (fun _ _ i req hi => hi.start i req) hcall hanswer h).1
  refine ⟨fun es₁ es₂ i prior msg past r hes hmsg hr => ?_, fun es₁ e es₂ filename u hes he hnone => ?_,
    fun es₁ e es₂ filename u a hes he hkept => ?_⟩
  · subst hes
    have hpost :=
      pool_answers (fun _ _ req _ => nmBody_keeps req) .init (fun _ _ i req hi => hi.start i req) hcall hanswer h
    obtain ⟨before, c, after, hpast, hc⟩ := hpost prior msg r rfl hmsg rfl hr
    exact ⟨before, c, recorded_answer h.unguarded hpast, hc⟩
  · rw [hinv.access, hes]
    exact expectedAccess_revoked he hnone
  · rw [hinv.access, hes]
    exact expectedAccess_granted he hkept

/-! ## A reader and a removal -/

def fileN : Filename := ⟨lit "n", by decide⟩

/-- Storage servers answer `SUCCESS`, and every loop of the cache gets as far as it has to. -/
def quietEnv : NmEnv := ⟨200, 0, true, initMessage, none, [], 0⟩

/-- `n` steps of one thread. -/
def goes (i n : Nat) : List (Nat × Turn NmRequest NmEnv) := List.replicate n (i, .go quietEnv)

/-- A request of one thread, and its first `n` steps. -/
def serves (i : Nat) (req : NmRequest) (n : Nat) : List (Nat × Turn NmRequest NmEnv) :=
  (i, .take req) :: goes i n

/-- A storage server registers, `b` logs in, and `a` creates a file and gives `b` access. -/
def shared : List (Nat × Turn NmRequest NmEnv) :=
  serves 0 (.registerSs { initMessage with ssId := 1 }) 4 ++ serves 2 (.login 5 userB) 2 ++
    serves 1 (.client initMessage { initMessage with type := MSG_CREATE, sender := userA, filename := fileN }) 10 ++
    serves 1 (.client initMessage { initMessage with
      type := MSG_ADDACCESS, sender := userA, filename := fileN, targetUser := userB, access := ACCESS_READ }) 5

def readRequest : NmRequest :=
  .client initMessage { initMessage with type := MSG_READ, sender := userB, filename := fileN }

def removeRequest : NmRequest :=
  .client initMessage { initMessage with
    type := MSG_REMACCESS, sender := userA, filename := fileN, targetUser := userB }

/-- `b` reads, and then `a` takes the access away. -/
def readThenRemove : List NmEvent × NmPool :=
  scheduledRun NmOp.exec nmBody Undisturbed (Pool.idle initNameServer)
    (shared ++ serves 2 readRequest 8 ++ serves 1 removeRequest 4)

/-- `a` takes the access away while `b` is between the search and the update of the access time. -/
def removeWhileReading : List NmEvent × NmPool :=
  scheduledRun NmOp.exec nmBody (fun _ _ => True) (Pool.idle initNameServer)
    (shared ++ serves 2 readRequest 5 ++ serves 1 removeRequest 4 ++ goes 2 1)

theorem access_kept_readThenRemove :
    readThenRemove.1.length = 39 ∧ AccessKept readThenRemove.1 readThenRemove.2.state :=
  ⟨by decide +kernel, access_kept (run_scheduledRun _ _)⟩

/-- An entry that is there although the `n`-th step removed it and none was granted since. -/
theorem not_accessKept {es : List NmEvent} {s : NameServer} {filename u : CStr} (n : Nat)
    (hn : (es[n]?.bind aclChange) = some (filename, .revoke u))
    (hnone : (es.drop (n + 1)).all fun e => (aclChange e).isNone) (hentry : s.aclEntry filename u ≠ none) :
    ¬ AccessKept es s := by
  intro hkept
  obtain ⟨e, he, hchange⟩ := Option.bind_eq_some_iff.mp hn
  obtain ⟨hlt, hget⟩ := List.getElem?_eq_some_iff.mp he
  refine hentry (hkept.revoked (es.take n) e (es.drop (n + 1)) filename u ?_ hchange fun e' he' a hgrant => ?_)
  · rw [← hget, ← List.drop_eq_getElem_cons hlt, List.take_append_drop]
  · have hisNone := List.all_eq_true.mp hnone e' he'
    rw [hgrant] at hisNone
    cases hisNone

/-- The statuses that a thread has answered. -/
def statuses (i : Nat) (es : List NmEvent) : List Int32 :=
  es.filterMap fun e => match e with
    | .answer j _ _ (some r) => if j = i then some r.status else none
    | _ => none

/-- **The update of the access time brings back an entry that was removed with `SUCCESS`.** -/
theorem access_comes_back :
    Run NmStep (Pool.idle initNameServer) removeWhileReading.1 removeWhileReading.2 ∧
      statuses 1 removeWhileReading.1 = [SUCCESS, SUCCESS, SUCCESS] ∧
      ¬ AccessKept removeWhileReading.1 removeWhileReading.2.state := by
  refine ⟨(run_scheduledRun _ _).unguarded, by decide +kernel, ?_⟩
  have hentry : removeWhileReading.2.state.aclEntry fileN.str userB.str ≠ none := by decide +kernel
  exact not_accessKept 33 (by decide +kernel) (by decide +kernel) hentry

end NetworkFileShare
