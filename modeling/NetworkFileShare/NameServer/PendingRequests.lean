import NetworkFileShare.NameServer.Folders

/-!
# The list of pending requests

* `Requeued` : a list has lost entries and has grown at its end;
* `requests_of_only` : programs that leave the pending requests alone; every handler but three is one;
* `PendingStep` : a request is appended, or its owner takes one out, or nothing happens; `answered_pendingStep` : this
  is all that the requests do;
* `pending_sound` : in every run, nobody asks for the same twice, the list is bounded, entries keep their order and
  leave it only with an answer to the owner of the file.
-/

namespace NetworkFileShare

open NmOp (perform)
open Prog (Only)

variable {s t : NameServer} {prior msg reply : Message}

/-! ## Lists that lose entries and grow at the end -/

section
variable {α : Type*} {P Q : α → Prop} {l l' l'' : List α}

/-- Entries have left `l`, and others that meet `P` have been appended. -/
def Requeued (P : α → Prop) (l l' : List α) : Prop :=
  ∃ kept new, l' = kept ++ new ∧ kept.Sublist l ∧ ∀ x ∈ new, P x

theorem Requeued.of_sublist (h : l'.Sublist l) : Requeued P l l' := ⟨l', [], (List.append_nil l').symm, h, by simp⟩

theorem Requeued.of_snoc {x : α} (hx : P x) : Requeued P l (l ++ [x]) :=
  ⟨l, [x], rfl, List.Sublist.refl l, by simpa using hx⟩

theorem Requeued.mono (h : Requeued P l l') (hle : ∀ x, P x → Q x) : Requeued Q l l' := by
  obtain ⟨kept, new, rfl, hkept, hnew⟩ := h
  exact ⟨kept, new, rfl, hkept, fun x hx => hle x (hnew x hx)⟩

theorem Requeued.trans (h : Requeued P l l') (h' : Requeued P l' l'') : Requeued P l l'' := by
  obtain ⟨kept, new, rfl, hkept, hnew⟩ := h
  obtain ⟨kept', new', rfl, hkept', hnew'⟩ := h'
  -- of what is kept the second time, a part was there before and a part had just been appended
  obtain ⟨old, recent, rfl, hold, hrecent⟩ := List.sublist_append_iff.mp hkept'
  refine ⟨old, recent ++ new', List.append_assoc _ _ _, hold.trans hkept, fun x hx => ?_⟩
  rcases List.mem_append.mp hx with hx | hx
  · exact hnew x (hrecent.subset hx)
  · exact hnew' x hx

end

/-! ## Handlers that leave the list alone -/

theorem KeepsRequests.exec {op : NmOp} {ans : op.Ans} (h : ExecSome NmOp.exec s ⟨op, ans⟩ t) (hop : KeepsRequests op) :
    t.accessRequests = s.accessRequests := by
  cases op with
  | addRequest _ | removeRequest _ => exact hop.elim
  | trieInsert _ _ | trieUpdate _ _ | trieDelete _ | folderTrieInsert _ _ =>
    obtain ⟨env, h⟩ := h
    cases h
    rfl
  | cacheGet _ | cachePut _ _ | cacheRemove _ =>
    obtain ⟨env, h⟩ := h
    obtain ⟨c, -, he⟩ := Option.map_eq_some_iff.mp h
    cases he
    rfl
  | _ => exact (SameRecords.of_exec h trivial).accessRequests

/-- A program whose calls leave the list alone. -/
theorem requests_of_only {α : Type} {p : Handler α} {a : α} (hp : Only KeepsRequests p)
    (h : Alone (ExecSome NmOp.exec) s p a t) : t.accessRequests = s.accessRequests :=
  Ensures.of_only hp (P := fun u => u.accessRequests = s.accessRequests)
    (fun _ _ _ _ hop hu hexec => (hop.exec hexec).trans hu) s a t rfl h

theorem only_keepsRequests {α : Type} {p : Handler α} (h : Only Calm p) : Only KeepsRequests p :=
  h.mono fun _ hop => hop.2

theorem keepsRequests_of_keepsRecords {α : Type} {p : Handler α} (h : Only KeepsRecords p) : Only KeepsRequests p :=
  h.mono fun _ hop => hop.2

theorem writeBack_keepsRequests (filename : CStr) (m : FileMetadata) : Only KeepsRequests (writeBack filename m) :=
  .bind (.perform trivial) fun _ => .perform trivial

theorem handleCreate_keepsRequests (msg : Message) : Only KeepsRequests (handleCreate msg) := by
  refine .bind (.perform trivial) fun found => ?_
  rcases found with _ | metadata
  · refine .bind (.perform trivial) fun ssId => .ite (.pure _) (.bind (.perform trivial) fun slot => ?_)
    rcases slot with _ | idx
    · exact .pure _
    refine .bind (only_keepsRequests (exchangeWith_calm _ _)) fun reply => .ite ?_ (.pure _)
    exact .bind (.perform trivial) fun now => .bind (.perform trivial) fun _ =>
      .bind (.perform trivial) fun _ => .pure _
  · exact .pure _

theorem handleDelete_keepsRequests (msg : Message) : Only KeepsRequests (handleDelete msg) := by
  refine .bind (.perform trivial) fun found => ?_
  rcases found with _ | metadata
  · exact .pure _
  refine .ite (.pure _) (.bind (.perform trivial) fun slot => ?_)
  rcases slot with _ | idx
  · exact .pure _
  refine .bind (.perform trivial) fun _ => .bind (.perform trivial) fun locks => .ite ?_ ?_
  · exact .bind (.perform trivial) fun _ => .pure _
  · refine .bind (.perform trivial) fun reply => .bind (.perform trivial) fun _ => .ite ?_ (.pure _)
    exact .bind (.perform trivial) fun _ => .bind (.perform trivial) fun _ => .pure _

theorem handleAccess_keepsRequests (msg : Message) : Only KeepsRequests (handleAccess msg) := by
  refine .bind (.perform trivial) fun found => ?_
  rcases found with _ | metadata
  · exact .pure _
  refine .ite (.pure _) (.ite ?_ (.ite ?_ (.pure _)))
  · refine .bind (.perform trivial) fun there => .ite (.ite (.pure _) ?_) (.pure _)
    exact .bind (writeBack_keepsRequests _ _) fun _ => .pure _
  · exact .bind (writeBack_keepsRequests _ _) fun _ => .pure _

theorem handleMove_keepsRequests (msg : Message) : Only KeepsRequests (handleMove msg) := by
  refine .bind (.perform trivial) fun found => ?_
  rcases found with _ | metadata
  · exact .pure _
  have hmove : Only KeepsRequests (moveFile msg metadata) := by
    refine .bind (.perform trivial) fun slot => ?_
    rcases slot with _ | idx
    · exact .pure _
    refine .bind (only_keepsRequests (exchangeWith_calm _ _)) fun reply => .ite ?_ (.pure _)
    exact .bind (writeBack_keepsRequests _ _) fun _ => .pure _
  refine .bind (.ite (.pure _) (.perform trivial)) fun allowed => .ite (.pure _) (.ite hmove ?_)
  refine .bind (.perform trivial) fun folder => ?_
  rcases folder with _ | folder
  · exact .pure _
  · exact hmove

theorem refreshFiles_keepsRequests : ∀ files : List FileMetadata, Only KeepsRequests (refreshFiles files)
  | [] => .pure _
  | f :: fs => by
    have hfile : Only KeepsRequests (refreshFile f) := by
      refine .bind (.perform trivial) fun slot => ?_
      rcases slot with _ | idx
      · exact .pure _
      refine .bind (.perform trivial) fun _ => .bind (.perform trivial) fun reply => .ite ?_ ?_
      · exact .bind (writeBack_keepsRequests _ _) fun _ => .bind (.perform trivial) fun _ => .pure _
      · exact .bind (.perform trivial) fun _ => .pure _
    exact .bind hfile fun f => .bind (refreshFiles_keepsRequests fs) fun fs => .pure _

theorem handleView_keepsRequests (msg : Message) : Only KeepsRequests (handleView msg) :=
  .bind (.perform trivial) fun files => .bind (.ite (refreshFiles_keepsRequests files) (.pure _)) fun _ =>
    .bind (only_keepsRequests (viewLines_calm _ _ _ _)) fun _ => .pure _

theorem locateFile_keepsRequests (prior msg : Message) : Only KeepsRequests (locateFile prior msg) := by
  refine .bind (.perform trivial) fun allowed => .ite ?_ (.pure _)
  refine .bind (keepsRequests_of_keepsRecords (findSsForFile_keepsRecords _)) fun ssId => .ite (.pure _) ?_
  refine .bind (.perform trivial) fun info => ?_
  refine .bind (.perform trivial) fun found => ?_
  rcases found with _ | metadata
  · exact .pure _
  · exact .bind (.perform trivial) fun now => .bind (writeBack_keepsRequests _ _) fun _ => .pure _

theorem registerFiles_keepsRequests (ssId : Int32) : ∀ names : List CStr, Only KeepsRequests (registerFiles ssId names)
  | [] => .pure _
  | token :: tokens => by
    have ih := registerFiles_keepsRequests ssId tokens
    refine .bind (.perform trivial) fun found => ?_
    rcases found with _ | existing
    · exact .bind (.perform trivial) fun now => .bind (.perform trivial) fun _ => ih
    · exact .bind (.perform trivial) fun _ => ih

theorem handleSsConnection_keepsRequests (msg : Message) : Only KeepsRequests (handleSsConnection msg) := by
  refine .bind (.perform trivial) fun _ => .bind (.perform trivial) fun slot => ?_
  rcases slot with _ | idx
  · exact .perform trivial
  · exact .bind (registerFiles_keepsRequests _ _) fun _ => .perform trivial

/-! ## One request -/

/-- Both ask for the same access of the same user to the same file. -/
def AccessRequest.Same (r r' : AccessRequest) : Prop :=
  r.username.str = r'.username.str ∧ r.filename.str = r'.filename.str ∧ r.requestedAccess = r'.requestedAccess

/-- `msg` asks for what `r` says. -/
structure AskedBy (msg : Message) (r : AccessRequest) : Prop where
  type : msg.type = MSG_REQUESTACCESS
  username : r.username = msg.sender
  filename : r.filename = msg.filename
  access : r.requestedAccess = msg.access

/-- What one request does to the list: nothing, or it appends what is not there yet while there is room, or the owner
of a file takes out a request for it, with the answer `SUCCESS`. -/
inductive PendingStep (s : NameServer) : NmRequest × Option Message → NameServer → Prop where
  | kept {e : NmRequest × Option Message} {t : NameServer} (same : t.accessRequests = s.accessRequests) :
      PendingStep s e t
  | asked {prior msg : Message} {answer : Option Message} {t : NameServer} (r : AccessRequest) (asked : AskedBy msg r)
      (fresh : ∀ r' ∈ s.accessRequests, ¬ r'.Same r) (room : s.accessRequests.length < MAX_FILES * 10)
      (added : t.accessRequests = s.accessRequests ++ [r]) : PendingStep s (.client prior msg, answer) t
  | taken {prior msg reply : Message} {t : NameServer} (r : AccessRequest)
      (type : msg.type = MSG_APPROVEREQUEST ∨ msg.type = MSG_DENYREQUEST) (status : reply.status = SUCCESS)
      (pending : requestAt s.accessRequests msg.sentenceIndex = some r)
      (owner : s.ownerOf r.filename.str = some msg.sender.str)
      (left : t.accessRequests = s.accessRequests.eraseIdx msg.sentenceIndex.toInt.toNat) :
      PendingStep s (.client prior msg, some reply) t

theorem Queues.pendingStep {r : AccessRequest} {answer : Option Message} (h : Queues s msg r t)
    (htype : msg.type = MSG_REQUESTACCESS) : PendingStep s (.client prior msg, answer) t := by
  refine .asked r ⟨htype, h.username, h.filename, h.access⟩ (fun r' hr' hsame => h.fresh r' hr' ?_) h.room h.added
  obtain ⟨huser, hfile, haccess⟩ := hsame
  exact ⟨(CArray.ext' huser).trans h.username, (CArray.ext' hfile).trans h.filename, haccess.trans h.access⟩

theorem ownerOf_of_found {f : CStr} {m : FileMetadata} (h : trieSearch s.fileTrie f = some m) :
    s.ownerOf f = some m.owner := by
  rw [NameServer.ownerOf, h]
  rfl

theorem handleClientMessage_pendingStep (h : Alone (ExecSome NmOp.exec) s (handleClientMessage prior msg) reply t) :
    PendingStep s (.client prior msg, some reply) t := by
  have hkept {p : Handler Message} (hp : Only KeepsRequests p) (h : Alone (ExecSome NmOp.exec) s p reply t) :
      PendingStep s (.client prior msg, some reply) t := .kept (requests_of_only hp h)
  have hby := handledBy prior msg
  revert h
  generalize handleClientMessage prior msg = p at hby
  intro h
  cases hby with
  | requestAccess type =>
    rcases handleRequestAccess_queues h with hsame | ⟨r, hqueues⟩
    · exact .kept hsame.accessRequests
    · exact hqueues.pendingStep type
  | viewRequests _ => exact hkept (only_keepsRequests (handleViewRequests_calm msg)) h
  | approve type =>
    rcases alone_handleApproveRequest h with ⟨-, hsame⟩ | ⟨hstatus, req, m, happroves⟩
    · exact .kept hsame.accessRequests
    · have howner := ownerOf_of_found happroves.changed.found
      rw [happroves.owner] at howner
      exact .taken req (Or.inl type) hstatus happroves.pending howner happroves.left
  | deny type =>
    rcases alone_handleDenyRequest h with ⟨-, hsame⟩ | ⟨hstatus, req, m, hdenies⟩
    · exact .kept hsame.accessRequests
    · have howner := ownerOf_of_found hdenies.found
      rw [hdenies.owner] at howner
      exact .taken req (Or.inr type) hstatus hdenies.pending howner hdenies.left
  | checkpoint _ => exact hkept (keepsRequests_of_keepsRecords (handleCheckpointRequest_keepsRecords msg)) h
  | createFolder _ => exact hkept (only_keepsRequests (handleCreateFolder_calm msg)) h
  | move _ => exact hkept (handleMove_keepsRequests msg) h
  | viewFolder _ => exact hkept (only_keepsRequests (handleViewFolder_calm msg)) h
  | view _ => exact hkept (handleView_keepsRequests msg) h
  | info _ => exact hkept (keepsRequests_of_keepsRecords (handleInfo_keepsRecords msg)) h
  | list _ => exact hkept (only_keepsRequests handleList_calm) h
  | create _ => exact hkept (handleCreate_keepsRequests msg) h
  | delete _ => exact hkept (handleDelete_keepsRequests msg) h
  | access _ => exact hkept (handleAccess_keepsRequests msg) h
  | exec _ => exact hkept (keepsRequests_of_keepsRecords (handleExec_keepsRecords msg)) h
  | locate _ => exact hkept (locateFile_keepsRequests prior msg) h
  | other _ => exact hkept (.pure _) h

/-- **What a request does to the list of pending requests.** -/
theorem answered_pendingStep {e : NmRequest × Option Message} (h : Answered s e t) : PendingStep s e t := by
  obtain ⟨req, answer⟩ := e
  cases req with
  | client prior msg =>
    obtain ⟨reply, u, halone, hdone⟩ := alone_bind.mp h
    obtain ⟨rfl, rfl⟩ := alone_pure.mp hdone
    exact handleClientMessage_pendingStep halone
  | registerSs msg =>
    exact .kept (requests_of_only (.bind (handleSsConnection_keepsRequests msg) fun _ => .pure _) h)
  | heartbeatLost _ | login _ _ | logout _ =>
    refine .kept (requests_of_only ?_ h)
    exact .bind (.perform trivial) fun _ => .pure _

/-! ## Runs -/

/-- Some request of the run asks for what `r` says. -/
def AskedIn (es : List (NmRequest × Option Message)) (r : AccessRequest) : Prop :=
  ∃ prior msg answer, (NmRequest.client prior msg, answer) ∈ es ∧ AskedBy msg r

theorem PendingStep.requeued {e : NmRequest × Option Message} (h : PendingStep s e t) :
    Requeued (AskedIn [e]) s.accessRequests t.accessRequests := by
  cases h with
  | kept same => exact .of_sublist (by rw [same])
  | asked r asked fresh room added =>
    rw [added]
    exact .of_snoc ⟨_, _, _, List.mem_singleton_self _, asked⟩
  | taken r type status pending owner left =>
    rw [left]
    exact .of_sublist (List.eraseIdx_sublist _ _)

theorem AskedIn.mono {es es' : List (NmRequest × Option Message)} {r : AccessRequest} (h : AskedIn es r)
    (hle : es ⊆ es') : AskedIn es' r := by
  obtain ⟨prior, msg, answer, hmem, hasked⟩ := h
  exact ⟨prior, msg, answer, hle hmem, hasked⟩

/-- Over a run, entries leave the list and what was asked for meanwhile stands behind the others. -/
theorem run_requeued {es : List (NmRequest × Option Message)} (h : Run Answered s es t) :
    Requeued (AskedIn es) s.accessRequests t.accessRequests := by
  refine h.invariant (I := fun es t => Requeued (AskedIn es) s.accessRequests t.accessRequests)
    (.of_sublist (List.Sublist.refl _)) fun es t e u hinv hstep => ?_
  have hlast := (answered_pendingStep hstep).requeued
  exact (hinv.mono fun r hr => hr.mono (List.subset_append_left _ _)).trans
    (hlast.mono fun r hr => hr.mono (List.subset_append_right _ _))

/-- Nobody asks for the same twice, and the list is bounded. -/
structure PendingInv (s : NameServer) : Prop where
  distinct : s.accessRequests.Pairwise fun r r' => ¬ r.Same r'
  bounded : s.accessRequests.length ≤ MAX_FILES * 10

theorem PendingInv.step {e : NmRequest × Option Message} (hs : PendingInv s) (h : PendingStep s e t) :
    PendingInv t := by
  cases h with
  | kept same => exact ⟨by rw [same]; exact hs.distinct, by rw [same]; exact hs.bounded⟩
  | asked r asked fresh room added =>
    refine ⟨?_, ?_⟩
    · rw [added, List.pairwise_append]
      refine ⟨hs.distinct, List.pairwise_singleton _ _, fun r' hr' x hx => ?_⟩
      obtain rfl := List.mem_singleton.mp hx
      exact fresh r' hr'
    · rw [added, List.length_append]
      exact room
  | taken r type status pending owner left =>
    refine ⟨?_, ?_⟩
    · rw [left]
      exact hs.distinct.sublist (List.eraseIdx_sublist _ _)
    · rw [left]
      exact (List.eraseIdx_sublist _ _).length_le.trans hs.bounded

/-- The list is sound: it holds nothing twice and is bounded, and every request that follows, and every run of
requests, changes it only as said. -/
structure PendingSound (s : NameServer) : Prop extends PendingInv s where
  step : ∀ e t, Answered s e t → PendingStep s e t
  order : ∀ es t, Run Answered s es t → Requeued (AskedIn es) s.accessRequests t.accessRequests

/-- **The list of pending requests is sound in every state that is reached.** -/
theorem pending_sound {es : List (NmRequest × Option Message)} (h : Run Answered initNameServer es s) :
    PendingSound s := by
  have hinv : PendingInv s := by
    refine h.state_invariant (I := PendingInv) ⟨List.Pairwise.nil, Nat.zero_le _⟩ fun t e u ht hstep => ?_
    exact ht.step (answered_pendingStep hstep)
  exact ⟨hinv, fun e t hstep => answered_pendingStep hstep, fun es t hrun => run_requeued hrun⟩

/-- Three requests are pending. -/
theorem pending_sound_three : ∃ s : NameServer, s.accessRequests.length = 3 ∧ PendingSound s := by
  obtain ⟨⟨es, s⟩, hs, hlength⟩ := Option.map_eq_some_iff.mp
    (show (answerAll initNameServer threeRequests).map (fun r => r.2.accessRequests.length) = some 3 by decide)
  exact ⟨s, hlength, pending_sound (run_answerAll hs)⟩

end NetworkFileShare
