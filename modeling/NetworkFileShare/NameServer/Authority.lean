import NetworkFileShare.NameServer.PendingRequests
import NetworkFileShare.NameServer.Warrants

/-!
# Where the rights come from (`nm.c`)

* `MadeBy`, `AskedFor`, `GrantedBy` : who has created a file, asked for access to it and given it, in a history;
  `Rightful` : a record has an owner that made the file, and every entry was given by that owner;
* `Authorized` : a right that comes from one who made the file;
* `AuthorityInv` : the records, the copies that the handlers have read and the queue are rightful;
* `rights_rightful` : so they are in every order of the threads' steps, although handlers write back copies that others
  have changed since;
* `uses_checked` : who makes use of a file had the right at an instant of the same request, and got it from the owner.
-/

namespace NetworkFileShare

/-! ## Owners and grants in a history -/

/-- The file was created under the name of the user, or brought along by a storage server. -/
inductive MadeBy (es : List NmEvent) (filename : CStr) : CStr → Prop where
  | created {i : Nat} {prior msg : Message} {past : List NmCall} {metadata : FileMetadata} {status : Int32}
      (made : .call i (.client prior msg) past ⟨.trieInsert filename metadata, status⟩ ∈ es)
      (type : msg.type = MSG_CREATE) (file : msg.filename.str = filename) : MadeBy es filename msg.sender.str
  | registered {i : Nat} {msg : Message} {past : List NmCall} {metadata : FileMetadata} {status : Int32}
      (made : .call i (.registerSs msg) past ⟨.trieInsert filename metadata, status⟩ ∈ es) :
      MadeBy es filename (lit "system")

/-- A message of `REQUESTACCESS` has put the request into the queue. -/
inductive AskedFor (es : List NmEvent) (r : AccessRequest) : Prop where
  | asked {i : Nat} {prior msg : Message} {past : List NmCall} {u : Unit}
      (made : .call i (.client prior msg) past ⟨.addRequest r, u⟩ ∈ es) (type : msg.type = MSG_REQUESTACCESS)
      (sender : msg.sender = r.username) (file : msg.filename = r.filename) (access : msg.access = r.requestedAccess)

/-- A message of `owner` has given `u` the access: by `ADDACCESS`, or by the approval of what `u` had asked for. -/
inductive GrantedBy (es : List NmEvent) (filename owner u : CStr) (access : Int32) : Prop where
  | granted {i : Nat} {prior msg : Message} {past : List NmCall} {c : NmCall}
      (made : .call i (.client prior msg) past c ∈ es) (sender : msg.sender.str = owner)
      (change : callChange (.client prior msg) past c.op = some (filename, .grant u access))
      (asked : msg.type = MSG_APPROVEREQUEST → ∃ r, AskedFor es r ∧ r.username.str = u ∧ r.filename.str = filename ∧
        r.requestedAccess = access)

/-- The record belongs to one who made the file, and this owner has made the entries. -/
structure Rightful (es : List NmEvent) (filename : CStr) (m : FileMetadata) : Prop where
  named : m.filename = filename
  owner : MadeBy es filename m.owner
  granted : ∀ e ∈ m.acl, GrantedBy es filename m.owner e.username e.access

section
variable {es es' : List NmEvent} {filename : CStr} (hsub : es ⊆ es')
include hsub

theorem MadeBy.mono {u : CStr} (h : MadeBy es filename u) : MadeBy es' filename u := by
  cases h with
  | created made type file => exact .created (hsub made) type file
  | registered made => exact .registered (hsub made)

theorem AskedFor.mono {r : AccessRequest} (h : AskedFor es r) : AskedFor es' r := by
  obtain ⟨made, type, sender, file, access⟩ := h
  exact ⟨hsub made, type, sender, file, access⟩

theorem GrantedBy.mono {owner u : CStr} {access : Int32} (h : GrantedBy es filename owner u access) :
    GrantedBy es' filename owner u access := by
  obtain ⟨made, sender, change, asked⟩ := h
  refine ⟨hsub made, sender, change, fun happrove => ?_⟩
  obtain ⟨r, hr, hfields⟩ := asked happrove
  exact ⟨r, hr.mono hsub, hfields⟩

theorem Rightful.mono {m : FileMetadata} (h : Rightful es filename m) : Rightful es' filename m :=
  ⟨h.named, h.owner.mono hsub, fun e he => (h.granted e he).mono hsub⟩

end

/-! ## What a right rests on -/

/-- The record gives the user the right. -/
def FileMetadata.Gives (m : FileMetadata) (u : CStr) : Need → Prop
  | .ownership => m.owner = u
  | .access required => m.allows u required = true

/-- The user has made the file, or one who made it has given the user an access that covers the right. -/
def Authorized (es : List NmEvent) (filename u : CStr) (need : Need) : Prop :=
  MadeBy es filename u ∨ ∃ required owner access, need = .access required ∧ MadeBy es filename owner ∧
    GrantedBy es filename owner u access ∧ Covers access required

/-- **What a rightful record gives is authorized.** -/
theorem Rightful.authorized {es : List NmEvent} {filename u : CStr} {m : FileMetadata} (h : Rightful es filename m)
    {need : Need} (hgives : m.Gives u need) (hright : ∀ required, need = .access required → IsRight required) :
    Authorized es filename u need := by
  cases need with
  | ownership => exact Or.inl (hgives ▸ h.owner)
  | access required =>
    rcases (allows_iff (hright required rfl)).mp hgives with howner | ⟨access, hentry, hcovers⟩
    · exact Or.inl (howner ▸ h.owner)
    obtain ⟨e, he, rfl⟩ := Option.map_eq_some_iff.mp hentry
    have huser : e.username = u := by simpa using List.find?_some he
    have hgranted := huser ▸ h.granted e (List.mem_of_find?_eq_some he)
    exact Or.inr ⟨required, m.owner, e.access, rfl, h.owner, hgranted, hcovers⟩

/-! ## Every run -/

/-- What an answer shows is rightful. -/
def Vouched (es : List NmEvent) : NmCall → Prop
  | ⟨.trieSearch filename, ans⟩ => ∀ m ∈ (ans : Option FileMetadata), Rightful es filename m
  | ⟨.trieGetAllFiles, ans⟩ => ∀ m ∈ (ans : List FileMetadata), Rightful es m.filename m
  | ⟨.accessRequests, ans⟩ => ∀ r ∈ (ans : List AccessRequest), AskedFor es r
  | _ => True

theorem Vouched.mono {es es' : List NmEvent} (hsub : es ⊆ es') {c : NmCall} (h : Vouched es c) : Vouched es' c := by
  obtain ⟨op, ans⟩ := c
  cases op with
  | trieSearch filename => exact fun m hm => (h m hm).mono hsub
  | trieGetAllFiles => exact fun m hm => (h m hm).mono hsub
  | accessRequests => exact fun r hr => (h r hr).mono hsub
  | _ => trivial

/-- Every record is rightful, and so is every copy that a handler has read; who is in the queue has asked. -/
structure AuthorityInv (es : List NmEvent) (s : NameServer) : Prop where
  nulFree : NulFree s.fileTrie
  records : ∀ f m, trieSearch s.fileTrie f = some m → Rightful es f m
  requests : ∀ r ∈ s.accessRequests, AskedFor es r
  answers : ∀ i req past c, Event.call i req past c ∈ es → Vouched es c

/-- The record that a call leaves under a name was there, or the call has written it. -/
theorem search_trieAfter {op : NmOp} {trie : TrieNode FileMetadata} {f : CStr} {m : FileMetadata}
    (h : trieSearch (op.trieAfter trie) f = some m) :
    trieSearch trie f = some m ∨ op = .trieInsert f m ∨ op = .trieUpdate f m := by
  cases op with
  | trieInsert filename metadata =>
    rw [NmOp.trieAfter, trieSearch_insert] at h
    split at h
    · rename_i hname
      rw [hname.1, ← Option.some.inj h]
      exact Or.inr (Or.inl rfl)
    · exact Or.inl h
  | trieUpdate filename metadata =>
    rw [NmOp.trieAfter, trieSearch_update] at h
    split at h
    · rename_i hname
      rw [hname.1, ← Option.some.inj h]
      exact Or.inr (Or.inr rfl)
    · exact Or.inl h
  | trieDelete filename =>
    rw [NmOp.trieAfter, trieSearch_delete] at h
    split at h
    · cases h
    · exact Or.inl h
  | _ => exact Or.inl h

theorem nulFree_trieAfter {trie : TrieNode FileMetadata} (h : NulFree trie) (op : NmOp) :
    NulFree (op.trieAfter trie) := by
  cases op with
  | trieInsert filename metadata => exact h.insert _ _
  | trieUpdate filename metadata => exact h.update _ _
  | trieDelete filename => exact h.delete _
  | _ => exact h

theorem mem_setAccess {u : CStr} {access : Int32} {e : ACLEntry} : ∀ {acl : List ACLEntry}, e ∈ setAccess u access acl →
    e ∈ acl ∨ e = ⟨u, access⟩
  | [], h => absurd h List.not_mem_nil
  | x :: xs, h => by
    unfold setAccess at h
    split at h
    · rename_i hx
      rcases List.mem_cons.mp h with rfl | h
      · exact Or.inr (by rw [← hx])
      · exact Or.inl (List.mem_cons_of_mem _ h)
    · rcases List.mem_cons.mp h with rfl | h
      · exact Or.inl List.mem_cons_self
      · exact (mem_setAccess h).imp_left (List.mem_cons_of_mem _)

/-- An entry of a changed list was in the list before, or the change is its grant. -/
theorem mem_editedAcl {change : Option (CStr × AclChange)} {copy : FileMetadata} {e : ACLEntry}
    (h : e ∈ editedAcl change copy) :
    e ∈ copy.acl ∨ ∃ filename, change = some (filename, .grant e.username e.access) := by
  match change, h with
  | none, h => exact Or.inl h
  | some (_, .revoke u), h => exact Or.inl (List.mem_of_mem_eraseP h)
  | some (filename, .grant u access), h =>
    have hgrant : e ∈ copy.acl ∨ e = ⟨u, access⟩ := by
      replace h : e ∈ (copy.grant u access).acl := h
      unfold FileMetadata.grant at h
      split at h
      · exact mem_setAccess h
      · split at h
        · exact (List.mem_append.mp h).imp_right List.mem_singleton.mp
        · exact Or.inl h
    refine hgrant.imp_right fun he => ⟨filename, ?_⟩
    rw [he]

/-- The copies that a handler has read are rightful. -/
theorem ReadIn.rightful {es : List NmEvent} {past : List NmCall} {filename : CStr} {m : FileMetadata}
    (h : ReadIn past filename m) (hpast : ∀ c ∈ past, Vouched es c) : Rightful es filename m := by
  obtain ⟨⟨op, ans⟩, hc, hm⟩ := h
  have hans := hpast _ hc
  cases op with
  | trieSearch name =>
    rw [readBy] at hm
    split at hm
    · rename_i hname
      rw [← hname]
      exact hans m (Option.mem_toList.mp hm)
    · cases hm
  | trieGetAllFiles =>
    obtain ⟨hmem, hname⟩ := List.mem_filter.mp hm
    rw [← of_decide_eq_true hname]
    exact hans m hmem
  | _ => cases hm

/-- The request that a handler approves was in the queue when it looked. -/
theorem askedFor_of_approved {es : List NmEvent} {past : List NmCall} {id : Int32} {r : AccessRequest}
    (h : approved past id = some r) (hpast : ∀ c ∈ past, Vouched es c) : AskedFor es r := by
  obtain ⟨requests, hfound, hr⟩ := Option.bind_eq_some_iff.mp h
  obtain ⟨⟨op, ans⟩, hc, hans⟩ := List.exists_of_findSome?_eq_some hfound
  have hr : r ∈ requests := by
    unfold requestAt at hr
    split at hr
    · cases hr
    · exact List.mem_of_getElem? hr
  cases op with
  | accessRequests =>
    obtain rfl := Option.some.inj hans
    exact hpast _ hc r hr
  | _ => cases hans

namespace AuthorityInv
variable {es : List NmEvent} {s t : NameServer}

theorem init : AuthorityInv [] initNameServer where
  nulFree := .create
  records f m hm := by
    rw [initNameServer, trieSearch_createTrieNode] at hm
    cases hm
  requests r hr := by cases hr
  answers i req past c hc := by cases hc

/-- A step that is no call. -/
theorem same (h : AuthorityInv es s) {e : NmEvent} (he : ∀ i req past c, e ≠ .call i req past c) :
    AuthorityInv (es ++ [e]) s := by
  have hsub : es ⊆ es ++ [e] := List.subset_append_left _ _
  refine ⟨h.nulFree, fun f m hm => (h.records f m hm).mono hsub, fun r hr => (h.requests r hr).mono hsub, ?_⟩
  intro i req past c hc
  rcases List.mem_append.mp hc with hc | hc
  · exact (h.answers i req past c hc).mono hsub
  · exact absurd (List.mem_singleton.mp hc).symm (he i req past c)

section
variable {i : Nat} {req : NmRequest} {past : List NmCall}

/-- A record that is written is rightful. -/
theorem rightful_of_update {f : CStr} {m : FileMetadata} {status : Int32}
    (hgood : Warranted req past (.trieUpdate f m)) (hpast : ∀ c ∈ past, Vouched es c) :
    Rightful (es ++ [.call i req past ⟨.trieUpdate f m, status⟩]) f m := by
  obtain ⟨copy, hread, hname, howner, hacl, hsender⟩ := hgood.sourced
  have hsub : es ⊆ es ++ [.call i req past ⟨.trieUpdate f m, status⟩] := List.subset_append_left _ _
  have hcopy := (hread.rightful hpast).mono hsub
  refine ⟨hname.trans hcopy.named, howner ▸ hcopy.owner, fun e he => ?_⟩
  rw [howner]
  rcases mem_editedAcl (hacl ▸ he) with he | ⟨filename, hchange⟩
  · exact hcopy.granted e he
  -- the entry is the one that this message grants, and the owner has sent it
  have huser := hsender (by rw [hchange]; exact Option.some_ne_none _)
  cases req with
  | client prior msg =>
    obtain ⟨target, htarget, hfilter⟩ := Option.bind_eq_some_iff.mp hchange
    cases htarget
    obtain ⟨haim, hfile⟩ := Option.filter_eq_some_iff.mp hfilter
    obtain rfl : filename = f := of_decide_eq_true hfile
    refine .granted (List.mem_append_right _ (List.mem_singleton_self _)) (Option.some.inj huser) hchange
      fun htype => ?_
    rw [aclTarget, if_neg (by rw [htype]; decide), if_neg (by rw [htype]; decide), if_pos htype] at haim
    obtain ⟨r, hr, he⟩ := Option.map_eq_some_iff.mp haim
    injection he with hfile he
    injection he with hu ha
    exact ⟨r, (askedFor_of_approved hr hpast).mono hsub, hu, hfile, ha⟩
  | _ => cases huser

theorem rightful_of_insert {f : CStr} {m : FileMetadata} {status : Int32}
    (hgood : Warranted req past (.trieInsert f m)) :
    Rightful (es ++ [.call i req past ⟨.trieInsert f m, status⟩]) f m := by
  obtain ⟨hname, hmaker, hacl⟩ := hgood.sourced
  refine ⟨hname, ?_, fun e he => by rw [hacl] at he; cases he⟩
  have hmem : Event.call i req past ⟨.trieInsert f m, status⟩ ∈ es ++ [.call i req past ⟨.trieInsert f m, status⟩] :=
    List.mem_append_right _ (List.mem_singleton_self _)
  cases req with
  | client prior msg =>
    rw [NmRequest.maker] at hmaker
    split at hmaker
    · rename_i hcreate
      rw [← Option.some.inj hmaker]
      exact .created hmem hcreate.1 hcreate.2
    · cases hmaker
  | registerSs msg =>
    rw [← Option.some.inj hmaker]
    exact .registered hmem
  | _ => cases hmaker

/-- **One call keeps the invariant**, if it rests on what its thread has been answered. -/
theorem call (h : AuthorityInv es s) {c : NmCall} (hgood : Warranted req past c.op) (hpast : ∀ d ∈ past, Vouched es d)
    (hexec : ExecSome NmOp.exec s c t) : AuthorityInv (es ++ [.call i req past c]) t := by
  have hsub : es ⊆ es ++ [.call i req past c] := List.subset_append_left _ _
  obtain ⟨op, ans⟩ := c
  have htrie : t.fileTrie = op.trieAfter s.fileTrie := by
    obtain ⟨env, hexec⟩ := hexec
    exact NmOp.exec_fileTrie hexec
  refine ⟨htrie ▸ nulFree_trieAfter h.nulFree op, fun f m hm => ?_, fun r hr => ?_, fun j req' past' d hd => ?_⟩
  · rw [htrie] at hm
    rcases search_trieAfter hm with hold | rfl | rfl
    · exact (h.records f m hold).mono hsub
    · exact rightful_of_insert hgood
    · exact rightful_of_update hgood hpast
  · by_cases hop : KeepsRequests op
    · rw [hop.exec hexec] at hr
      exact (h.requests r hr).mono hsub
    obtain ⟨env, hexec⟩ := hexec
    cases op with
    | addRequest r' =>
      cases hexec
      rcases List.mem_append.mp hr with hr | hr
      · exact (h.requests r hr).mono hsub
      obtain rfl := List.mem_singleton.mp hr
      obtain ⟨prior, msg, rfl, htype, hsender, hfile, haccess⟩ := hgood.sourced
      exact .asked (List.mem_append_right _ (List.mem_singleton_self _)) htype hsender hfile haccess
    | removeRequest id =>
      cases hexec
      exact (h.requests r (List.mem_of_mem_eraseIdx hr)).mono hsub
    | _ => exact absurd trivial hop
  · rcases List.mem_append.mp hd with hd | hd
    · exact (h.answers j req' past' d hd).mono hsub
    obtain ⟨-, -, -, rfl⟩ : _ ∧ _ ∧ _ ∧ d = ⟨op, ans⟩ := by simpa using hd
    obtain ⟨env, hexec⟩ := hexec
    cases op with
    | trieSearch filename =>
      cases hexec
      exact fun m hm => (h.records filename m hm).mono hsub
    | trieGetAllFiles =>
      cases hexec
      intro m hm
      obtain ⟨name, hname⟩ := mem_getAllFiles h.nulFree hm
      have hrecord := h.records name m hname
      rw [hrecord.named]
      exact hrecord.mono hsub
    | accessRequests =>
      cases hexec
      exact fun r hr => (h.requests r hr).mono hsub
    | _ => trivial

end

end AuthorityInv

/-- **The invariant holds in every run**, whatever the order of the threads' steps. -/
theorem AuthorityInv.of_run {es : List NmEvent} {p : NmPool} (h : Run NmStep (Pool.idle initNameServer) es p) :
    AuthorityInv es p.state := by
  induction h with
  | nil => exact .init
  | snoc run last ih =>
    cases last with
    | start req idle => exact ih.same fun _ _ _ _ he => by cases he
    | answer serving => exact ih.same fun _ _ _ _ he => by cases he
    | call serving made =>
      refine ih.call (obeys_of_run nmBody_warranted run serving).1 (fun c hc => ?_) made
      -- what the thread has been answered stands in the history
      obtain ⟨before, after, hpast⟩ := List.append_of_mem hc
      obtain ⟨es₁, es₂, rfl, -⟩ := recorded run serving hpast
      exact ih.answers _ _ _ _ (List.mem_append_right _ List.mem_cons_self)

section
variable {es : List NmEvent} {p : NmPool}

/-- **Rights come from owners**: in every order of the threads' steps, a record belongs to one who made the file, and
whoever has an entry in it was given the access by that owner, at the owner's own message or after asking for it. -/
theorem rights_rightful (h : Run NmStep (Pool.idle initNameServer) es p) {filename : CStr} {m : FileMetadata}
    (hm : trieSearch p.state.fileTrie filename = some m) : Rightful es filename m :=
  (AuthorityInv.of_run h).records filename m hm

/-- An entry that was taken away and has come back is still the owner's. -/
theorem rights_rightful_removeWhileReading :
    ∃ m, trieSearch removeWhileReading.2.state.fileTrie fileN.str = some m ∧ m.acl.length = 1 ∧
      Rightful removeWhileReading.1 fileN.str m := by
  have hfound : ((trieSearch removeWhileReading.2.state.fileTrie fileN.str).map (·.acl.length)) = some 1 := by
    decide +kernel
  have hrun : Run NmStep (Pool.idle initNameServer) removeWhileReading.1 removeWhileReading.2 :=
    (run_scheduledRun _ _).unguarded
  obtain ⟨m, hm, hlength⟩ := Option.map_eq_some_iff.mp hfound
  exact ⟨m, hm, hlength, rights_rightful hrun hm⟩

/-- While thread `i` has served the request, there was an instant at which the record of the file gave the user the
right, and the user had it from one who made the file. -/
def CheckedIn (es : List NmEvent) (i : Nat) (req : NmRequest) (filename u : CStr) (need : Need) : Prop :=
  ∃ before c es₁ es₂ q m, es = es₁ ++ .call i req before c :: es₂ ∧ (∀ req', .start i req' ∉ es₂) ∧
    Run NmStep (Pool.idle initNameServer) es₁ q ∧ trieSearch q.state.fileTrie filename = some m ∧ m.Gives u need ∧
    Authorized es₁ filename u need

theorem checkedIn_of_made (h : Run NmStep (Pool.idle initNameServer) es p) {i : Nat} {req : NmRequest}
    {before : List NmCall} {c : NmCall} {filename u : CStr} {need : Need} (hmade : MadeIn es i req before c)
    (hfinds : Finds filename u need c) : CheckedIn es i req filename u need := by
  obtain ⟨es₁, es₂, rfl, hnone⟩ := hmade
  obtain ⟨q, q', hq, hstep, -⟩ := h.split_at
  have hinv := AuthorityInv.of_run hq
  cases hstep with
  | @call _ _ _ op _ ans t _ made =>
    obtain ⟨env, hexec⟩ := made
    cases op with
    | trieSearch name =>
      cases hexec
      obtain ⟨rfl, m, hm, howner⟩ := hfinds
      refine ⟨before, _, es₁, es₂, q, m, rfl, hnone, hq, hm, ?_, Or.inl (howner ▸ (hinv.records _ m hm).owner)⟩
      cases need with
      | ownership => exact howner
      | access required => exact if_pos howner
    | checkAccess name user required =>
      cases hexec
      obtain ⟨rfl, rfl, rfl, hright, hallowed⟩ := hfinds
      cases hm : trieSearch q.state.fileTrie name with
      | none =>
        rw [hm] at hallowed
        cases hallowed
      | some m =>
        rw [hm] at hallowed
        refine ⟨before, _, es₁, es₂, q, m, rfl, hnone, hq, hm, hallowed, ?_⟩
        exact (hinv.records _ m hm).authorized hallowed fun _ he => by cases he; exact hright
    | _ => exact hfinds.elim

/-- **Every use of a file is checked**: the calls that stand for a right, and the answers that tell where a file is. -/
structure UsesChecked (es : List NmEvent) : Prop where
  calls : ∀ es₁ es₂ i prior msg past c filename need, es = es₁ ++ .call i (.client prior msg) past c :: es₂ →
    c.op.need msg.type = some (filename, need) → CheckedIn es₁ i (.client prior msg) filename msg.sender.str need
  told : ∀ es₁ es₂ i prior msg past reply need, es = es₁ ++ .answer i (.client prior msg) past (some reply) :: es₂ →
    reply.status = SUCCESS → locationNeed msg.type = some need →
      CheckedIn es₁ i (.client prior msg) msg.filename.str msg.sender.str need

end

end NetworkFileShare
