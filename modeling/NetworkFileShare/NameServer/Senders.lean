import NetworkFileShare.NameServer.Grants

/-!
# Whose rights a message acts with

A client gives its name when it connects, and again in the sender field of every message. The handlers look at the field
only: nothing ties it to the connection.

* `Entitled` : the user of the sender field may do what the message asks for; `Refused` : nothing is done;
* `ReadableBy` : a listing of files that the user may read, line by line;
* `acts_as_sender` : a message acts with the rights of its sender field;
* `sender_decides` : two messages on one connection that differ in the sender field only.
-/

namespace NetworkFileShare

open NmOp (perform)
open Prog (Only)

variable {s t : NameServer} {prior msg reply : Message}

/-! ## Rights that a message needs -/

/-- The owner of a file. -/
def NameServer.ownerOf (s : NameServer) (filename : CStr) : Option CStr :=
  (trieSearch s.fileTrie filename).map (·.owner)

/-- The user of the sender field may do what the message asks for. -/
def Entitled (s : NameServer) (msg : Message) : Prop :=
  if msg.type = MSG_APPROVEREQUEST ∨ msg.type = MSG_DENYREQUEST then
    ∃ req, requestAt s.accessRequests msg.sentenceIndex = some req ∧
      s.ownerOf req.filename.str = some msg.sender.str
  else if msg.type = MSG_DELETE ∨ msg.type = MSG_ADDACCESS ∨ msg.type = MSG_REMACCESS then
    s.ownerOf msg.filename.str = some msg.sender.str
  else if (msg.type = MSG_CHECKPOINT ∨ msg.type = MSG_VIEWCHECKPOINT ∨ msg.type = MSG_REVERT ∨
      msg.type = MSG_LISTCHECKPOINTS) ∨ msg.type = MSG_MOVE ∨ msg.type = MSG_WRITE ∨ msg.type = MSG_UNDO then
    s.checkAccess msg.filename.str msg.sender.str ACCESS_WRITE = true
  else if msg.type = MSG_EXEC ∨ msg.type = MSG_READ ∨ msg.type = MSG_STREAM then
    s.checkAccess msg.filename.str msg.sender.str ACCESS_READ = true
  else True

/-- The answer is no success, and no record has changed. -/
def Refused (s : NameServer) (reply : Message) (t : NameServer) : Prop :=
  reply.status ≠ SUCCESS ∧ SameRecords s t

theorem refused_pure {last : Message} (hstatus : last.status ≠ SUCCESS)
    (h : Alone (ExecSome NmOp.exec) s (pure last : Handler Message) reply t) : Refused s reply t := by
  obtain ⟨rfl, rfl⟩ := alone_pure.mp h
  exact ⟨hstatus, .refl s⟩

theorem handleDelete_entitled (h : Alone (ExecSome NmOp.exec) s (handleDelete msg) reply t) :
    s.ownerOf msg.filename.str = some msg.sender.str ∨ Refused s reply t := by
  replace h := alone_trieSearch h
  unfold NameServer.ownerOf
  cases hfound : trieSearch s.fileTrie msg.filename.str with
  | none =>
    rw [hfound] at h
    exact Or.inr (refused_pure (by decide) h)
  | some m =>
    rw [hfound] at h
    dsimp only at h
    split at h
    · exact Or.inr (refused_pure (by decide) h)
    · rename_i howner
      exact Or.inl (congrArg some (not_not.mp howner))

theorem handleAccess_entitled (htype : msg.type = MSG_ADDACCESS ∨ msg.type = MSG_REMACCESS)
    (h : Alone (ExecSome NmOp.exec) s (handleAccess msg) reply t) :
    s.ownerOf msg.filename.str = some msg.sender.str ∨ Refused s reply t := by
  rcases alone_handleAccess htype h with hrefused | ⟨-, -, m, howner, -, hchanged⟩
  · exact Or.inr hrefused
  · left
    rw [NameServer.ownerOf, hchanged.found, ← howner]
    rfl

theorem handleMove_entitled (h : Alone (ExecSome NmOp.exec) s (handleMove msg) reply t) :
    s.checkAccess msg.filename.str msg.sender.str ACCESS_WRITE = true ∨ Refused s reply t := by
  replace h := alone_trieSearch h
  cases hfound : trieSearch s.fileTrie msg.filename.str with
  | none =>
    rw [hfound] at h
    exact Or.inr (refused_pure (by decide) h)
  | some m =>
    rw [hfound] at h
    obtain ⟨allowed, s₂, hallowed, h⟩ := alone_bind.mp h
    unfold mayMove at hallowed
    split at hallowed
    · rename_i howner
      left
      rw [checkAccess_of_found hfound, allows_iff (Or.inr rfl)]
      exact Or.inl howner
    · obtain ⟨allowed', s₃, ⟨env', hcheck⟩, hdone⟩ := alone_call.mp hallowed
      obtain ⟨rfl, rfl⟩ := alone_pure.mp hdone
      obtain ⟨rfl, rfl⟩ := Prod.mk.inj (Option.some.inj hcheck)
      by_cases hright : s.checkAccess msg.filename.str msg.sender.str ACCESS_WRITE = true
      · exact Or.inl hright
      · change Alone _ s (if s.checkAccess msg.filename.str msg.sender.str ACCESS_WRITE = false then _ else _) _ _ at h
        rw [if_pos (Bool.eq_false_iff.mpr hright)] at h
        exact Or.inr (refused_pure (by decide) h)

theorem alone_checkAccess {α : Type} {a : α} {filename username : CStr} {required : Int32} {k : Bool → Handler α}
    (h : Alone (ExecSome NmOp.exec) s (perform (.checkAccess filename username required) >>= k) a t) :
    Alone (ExecSome NmOp.exec) s (k (s.checkAccess filename username required)) a t := h.known fun _ => rfl

/-- A handler that asks for a right first. -/
theorem entitled_of_checkAccess {required : Int32} {k : Handler Message} {last : Message}
    (hlast : last.status ≠ SUCCESS) (h : Alone (ExecSome NmOp.exec) s
      (perform (.checkAccess msg.filename.str msg.sender.str required) >>= fun allowed =>
        if allowed = true then k else pure last) reply t) :
    s.checkAccess msg.filename.str msg.sender.str required = true ∨ Refused s reply t := by
  replace h := alone_checkAccess h
  by_cases hright : s.checkAccess msg.filename.str msg.sender.str required = true
  · exact Or.inl hright
  · change Alone _ s (if s.checkAccess msg.filename.str msg.sender.str required = true then _ else _) _ _ at h
    rw [if_neg hright] at h
    exact Or.inr (refused_pure hlast h)

theorem locateFile_entitled (h : Alone (ExecSome NmOp.exec) s (locateFile prior msg) reply t) :
    s.checkAccess msg.filename.str msg.sender.str
      (if msg.type = MSG_WRITE ∨ msg.type = MSG_UNDO then ACCESS_WRITE else ACCESS_READ) = true ∨ Refused s reply t :=
  entitled_of_checkAccess (by show ERR_ACCESS_DENIED ≠ SUCCESS; decide) h

/-- **A message of somebody who is not entitled is refused.** -/
theorem handleClientMessage_entitled (h : Alone (ExecSome NmOp.exec) s (handleClientMessage prior msg) reply t) :
    Entitled s msg ∨ Refused s reply t := by
  unfold Entitled
  split
  · rename_i htype
    rcases htype with htype | htype
    · rw [(HandledBy.approve htype).eq] at h
      rcases alone_handleApproveRequest h with hrefused | ⟨-, req, m, happroves⟩
      · exact Or.inr hrefused
      · refine Or.inl ⟨req, happroves.pending, ?_⟩
        rw [NameServer.ownerOf, happroves.changed.found, ← happroves.owner]
        rfl
    · rw [(HandledBy.deny htype).eq] at h
      rcases alone_handleDenyRequest h with hrefused | ⟨-, req, m, hdenies⟩
      · exact Or.inr hrefused
      · refine Or.inl ⟨req, hdenies.pending, ?_⟩
        rw [NameServer.ownerOf, hdenies.found, ← hdenies.owner]
        rfl
  split
  · rename_i htype
    rcases htype with htype | htype
    · rw [(HandledBy.delete htype).eq] at h
      exact handleDelete_entitled h
    · rw [(HandledBy.access htype).eq] at h
      exact handleAccess_entitled htype h
  split
  · rename_i htype
    rcases htype with htype | htype | htype
    · rw [(HandledBy.checkpoint htype).eq] at h
      exact entitled_of_checkAccess (by decide) h
    · rw [(HandledBy.move htype).eq] at h
      exact handleMove_entitled h
    · have hlocate : HandledBy prior msg (locateFile prior msg) :=
        .locate (htype.elim (fun h => Or.inr (Or.inl h)) fun h => Or.inr (Or.inr (Or.inr h)))
      rw [hlocate.eq] at h
      have hright := locateFile_entitled h
      rwa [if_pos htype] at hright
  split
  · rename_i hwrites htype
    rcases htype with htype | htype
    · rw [(HandledBy.exec htype).eq] at h
      exact entitled_of_checkAccess (by decide) h
    · have hlocate : HandledBy prior msg (locateFile prior msg) :=
        .locate (htype.elim Or.inl fun h => Or.inr (Or.inr (Or.inl h)))
      rw [hlocate.eq] at h
      have hright := locateFile_entitled h
      rwa [if_neg fun hwrite => hwrites (Or.inr (Or.inr hwrite))] at hright
  · exact Or.inl trivial

/-! ## Listings -/

/-- The line of a file in a listing: with the details of `VIEW -l` a row of its record, else its name. -/
def listedRow (showDetails : Bool) (f : FileMetadata) (time : CStr) : CStr :=
  if showDetails then
    padRight 20 f.filename ++ lit " " ++ padRight 8 (printInt f.wordCount.toInt) ++ lit " " ++
      padRight 8 (printInt f.charCount.toInt) ++ lit " " ++ padRight 20 time ++ lit " " ++
      padRight 10 f.owner ++ lit "\n"
  else f.filename ++ lit "\n"

/-- The text consists of lines of files that the user may read. -/
def ReadableLines (s : NameServer) (user : CStr) (showDetails : Bool) (text : CStr) : Prop :=
  ∃ shown : List (FileMetadata × CStr), text = (shown.map fun p => listedRow showDetails p.1 p.2).flatten ∧
    ∀ p ∈ shown, s.checkAccess p.1.filename user ACCESS_READ = true

/-- The reply lists files that the user may read, and nothing else. -/
inductive ReadableBy (s : NameServer) (msg : Message) : Message → Prop
  | view {text : CStr} : msg.type = MSG_VIEW → ReadableLines s msg.sender.str (showDetailsOf msg) text →
      ReadableBy s msg (replyText MSG_DATA SUCCESS (if showDetailsOf msg then viewHeader ++ text else text))
  | folder {text : CStr} : msg.type = MSG_VIEWFOLDER → ReadableLines s msg.sender.str false text →
      ReadableBy s msg (replyText MSG_DATA SUCCESS (if text = [] then lit "(empty folder)\n" else text))
  | noFolder : msg.type = MSG_VIEWFOLDER → ReadableBy s msg (replyText MSG_DATA ERR_FILE_NOT_FOUND [])

theorem readableLines_nil (s : NameServer) (user : CStr) (showDetails : Bool) :
    ReadableLines s user showDetails [] :=
  ⟨[], rfl, fun _ hp => absurd hp List.not_mem_nil⟩

theorem ReadableLines.cons {user text : CStr} {showDetails : Bool} (h : ReadableLines s user showDetails text)
    {f : FileMetadata} (hread : s.checkAccess f.filename user ACCESS_READ = true) (time : CStr) :
    ReadableLines s user showDetails (listedRow showDetails f time ++ text) := by
  obtain ⟨shown, rfl, hshown⟩ := h
  refine ⟨(f, time) :: shown, rfl, fun p hp => ?_⟩
  rcases List.mem_cons.mp hp with rfl | hp
  · exact hread
  · exact hshown p hp

theorem checkAccess_of_same {s' : NameServer} (h : SameRecords s s') (f u : CStr) (required : Int32) :
    s'.checkAccess f u required = s.checkAccess f u required := by
  rw [NameServer.checkAccess, NameServer.checkAccess, h.fileTrie]

theorem alone_viewLine {showDetails : Bool} {f : FileMetadata} {line : CStr}
    (h : Alone (ExecSome NmOp.exec) s (viewLine showDetails f) line t) :
    (∃ time, line = listedRow showDetails f time) ∧ SameRecords s t := by
  unfold viewLine at h
  split at h
  · rename_i hdetails
    obtain ⟨time, u, htime, h⟩ := alone_perform_bind.mp h
    obtain ⟨rfl, rfl⟩ := alone_pure.mp h
    exact ⟨⟨time, (if_pos hdetails).symm⟩, .of_exec htime trivial⟩
  · rename_i hnames
    obtain ⟨rfl, rfl⟩ := alone_pure.mp h
    exact ⟨⟨[], (if_neg hnames).symm⟩, .refl s⟩

theorem alone_viewLines_readable {showDetails : Bool} {user : CStr} {files : List FileMetadata} {text : CStr}
    (h : Alone (ExecSome NmOp.exec) s (viewLines false showDetails user files) text t) :
    ReadableLines t user showDetails text ∧ SameRecords s t := by
  induction files generalizing s text with
  | nil =>
    obtain ⟨rfl, rfl⟩ := alone_pure.mp h
    exact ⟨readableLines_nil s user showDetails, .refl s⟩
  | cons f files ih =>
    obtain ⟨allowed, s₁, hallowed, h⟩ := alone_bind.mp h
    obtain ⟨allowed', s₂, ⟨env, hcheck⟩, hdone⟩ := alone_call.mp hallowed
    obtain ⟨rfl, rfl⟩ := alone_pure.mp hdone
    obtain ⟨rfl, rfl⟩ := Prod.mk.inj (Option.some.inj hcheck)
    split at h
    · rename_i hread
      obtain ⟨line, s₃, hline, h⟩ := alone_bind.mp h
      obtain ⟨rest, s₄, hrest, h⟩ := alone_bind.mp h
      obtain ⟨rfl, rfl⟩ := alone_pure.mp h
      obtain ⟨⟨time, rfl⟩, hsame⟩ := alone_viewLine hline
      obtain ⟨hlines, hsame'⟩ := ih hrest
      refine ⟨hlines.cons ?_ time, hsame.trans hsame'⟩
      rw [checkAccess_of_same (hsame.trans hsame')]
      exact hread
    · exact ih h

theorem alone_viewFolderLines {path user : CStr} {files : List FileMetadata} {text : CStr}
    (h : Alone (ExecSome NmOp.exec) s (viewFolderLines path user files) text t) :
    ReadableLines t user false text ∧ t = s := by
  induction files generalizing s text with
  | nil =>
    obtain ⟨rfl, rfl⟩ := alone_pure.mp h
    exact ⟨readableLines_nil s user false, rfl⟩
  | cons f files ih =>
    unfold viewFolderLines at h
    split at h
    · replace h := alone_checkAccess h
      obtain ⟨rest, s₂, hrest, h⟩ := alone_bind.mp h
      obtain ⟨rfl, rfl⟩ := alone_pure.mp h
      obtain ⟨hlines, rfl⟩ := ih hrest
      refine ⟨?_, rfl⟩
      split
      · rename_i hread
        exact hlines.cons hread []
      · exact hlines
    · exact ih h

theorem handleView_readable (htype : msg.type = MSG_VIEW) (hsome : showAllOf msg = false)
    (h : Alone (ExecSome NmOp.exec) s (handleView msg) reply t) : ReadableBy t msg reply := by
  unfold handleView at h
  rw [show hasFlag (byte 97) msg.data.str = false from hsome] at h
  obtain ⟨files, s₁, -, h⟩ := alone_perform_bind.mp h
  obtain ⟨files', s₂, -, h⟩ := alone_bind.mp h
  obtain ⟨text, s₃, hlines, h⟩ := alone_bind.mp h
  obtain ⟨rfl, rfl⟩ := alone_pure.mp h
  exact .view htype (alone_viewLines_readable hlines).1

theorem listFolder_readable (htype : msg.type = MSG_VIEWFOLDER)
    (h : Alone (ExecSome NmOp.exec) s (listFolder msg) reply t) : ReadableBy t msg reply := by
  obtain ⟨files, s₁, -, h⟩ := alone_perform_bind.mp h
  obtain ⟨text, s₂, hlines, h⟩ := alone_bind.mp h
  obtain ⟨rfl, rfl⟩ := alone_pure.mp h
  exact .folder htype (alone_viewFolderLines hlines).1

theorem handleViewFolder_readable (htype : msg.type = MSG_VIEWFOLDER)
    (h : Alone (ExecSome NmOp.exec) s (handleViewFolder msg) reply t) : ReadableBy t msg reply := by
  unfold handleViewFolder at h
  split at h
  · exact listFolder_readable htype h
  · obtain ⟨found, s₁, -, h⟩ := alone_perform_bind.mp h
    rcases found with _ | folder
    · obtain ⟨rfl, rfl⟩ := alone_pure.mp h
      exact .noFolder htype
    · exact listFolder_readable htype h

/-! ## Messages whose sender does not matter -/

/-- The message asks for what every user may see, or for nothing. -/
def Public (msg : Message) : Prop :=
  msg.type = MSG_LIST ∨ msg.type = MSG_INFO ∨ (msg.type = MSG_VIEW ∧ AsksForAll msg) ∨ msg.type ∉ clientTypes

theorem viewLines_all (showDetails : Bool) (user user' : CStr) : ∀ files : List FileMetadata,
    viewLines true showDetails user files = viewLines true showDetails user' files
  | [] => rfl
  | f :: files => by
    show (viewLine showDetails f >>= fun line =>
        viewLines true showDetails user files >>= fun rest => pure (line ++ rest)) =
      (viewLine showDetails f >>= fun line =>
        viewLines true showDetails user' files >>= fun rest => pure (line ++ rest))
    rw [viewLines_all showDetails user user' files]

/-- `handle_info` looks at the file name only. -/
theorem handleInfo_congr {msg' : Message} (h : msg'.filename = msg.filename) : handleInfo msg' = handleInfo msg := by
  have hcurrent : ∀ metadata, currentInfo msg' metadata = currentInfo msg metadata := by
    intro metadata
    unfold currentInfo
    rw [h]
  unfold handleInfo
  rw [h]
  refine congrArg (perform (.trieSearch msg.filename.str) >>= ·) (funext fun found => ?_)
  rcases found with _ | metadata
  · rfl
  · dsimp only
    rw [hcurrent]

/-- **A public message has the same program, whoever sends it.** -/
theorem handleClientMessage_public (hpublic : Public msg) (prior : Message) (u : Username) :
    handleClientMessage prior { msg with sender := u } = handleClientMessage prior msg := by
  rcases hpublic with htype | htype | ⟨htype, hall⟩ | htype
  · rw [(HandledBy.list htype).eq, (HandledBy.list (by exact htype)).eq]
  · rw [(HandledBy.info htype).eq, (HandledBy.info (by exact htype)).eq]
    exact handleInfo_congr rfl
  · rw [(HandledBy.view htype).eq, (HandledBy.view (by exact htype)).eq]
    unfold handleView
    dsimp only
    rw [hall]
    simp only [viewLines_all _ u.str msg.sender.str]
  · rw [(HandledBy.other htype).eq, (HandledBy.other (by exact htype)).eq]

/-! ## The sender decides -/

/-- The reply shows the requests for the files that the sender owns, each of them in a line with its position, its
fields and the time it was made. -/
def ShowsRequests (s : NameServer) (msg reply : Message) : Prop :=
  let shown := ownRequests s msg.sender.str 0 s.accessRequests
  ∃ times : List CStr, times.length = shown.length ∧
    let text := (List.zipWith (fun r time => requestLine r.2 r.1 time) shown times).flatten
    reply = replyText MSG_DATA SUCCESS
      (if text = [] then lit "No pending access requests for your files.\n" else text)

/-- A message acts with the rights of its sender field. -/
structure ActsAsSender (s : NameServer) (prior msg reply : Message) (t : NameServer) : Prop where
  entitled : ¬ Entitled s msg → reply.status ≠ SUCCESS ∧ SameRecords s t
  readable : (msg.type = MSG_VIEW ∧ showAllOf msg = false) ∨ msg.type = MSG_VIEWFOLDER → ReadableBy t msg reply
  requests : msg.type = MSG_VIEWREQUESTS → ShowsRequests s msg reply
  others : Public msg → ∀ u : Username,
    handleClientMessage prior { msg with sender := u } = handleClientMessage prior msg

/-- The owner has created a file, and somebody else has logged in on a connection. -/
def anotherLogsIn : List NmRequest :=
  [registers 1 [], createOne, .login 5 (.strncpy (MAX_USERNAME - 1) (lit "z"))]

/-- A message that deletes the file, under a sender field of choice. -/
def deletesAs (u : CStr) : Message :=
  { initMessage with
    type := MSG_DELETE, filename := fileOne, sender := .strncpy (MAX_USERNAME - 1) u }

/-- The file is deleted under two sender fields, from the same state and with the same answers from outside. -/
def deletedAs (u v : CStr) : Option (NameServer × (Message × NameServer) × Message × NameServer) :=
  (handleAllAlone oneCall initNameServer anotherLogsIn).bind fun s =>
    (runAlone oneCall (handleClientMessage initMessage (deletesAs u)) s).bind fun r =>
      (runAlone oneCall (handleClientMessage initMessage (deletesAs v)) s).map fun r' => (s, r, r')

theorem run_deletedAs (u v : CStr) (owner : Option CStr) (statuses : Int32 × Int32) (found : Bool × Bool)
    (h : (deletedAs u v).map (fun r => ((r.1.ownerOf fileOne.str, r.2.1.1.status, r.2.2.1.status),
      (r.2.1.2.ownerOf fileOne.str).isSome, (r.2.2.2.ownerOf fileOne.str).isSome)) = some ((owner, statuses), found)) :
    ∃ s reply t reply' t', s.ownerOf fileOne.str = owner ∧ (reply.status, reply'.status) = statuses ∧
      ((t.ownerOf fileOne.str).isSome, (t'.ownerOf fileOne.str).isSome) = found ∧
      Run (Handles (ExecSome NmOp.exec)) initNameServer anotherLogsIn s ∧
      runAlone oneCall (handleClientMessage initMessage (deletesAs u)) s = some (reply, t) ∧
      runAlone oneCall (handleClientMessage initMessage (deletesAs v)) s = some (reply', t') := by
  obtain ⟨r, hdeleted, hview⟩ := Option.map_eq_some_iff.mp h
  obtain ⟨s, hs, hdeleted⟩ := Option.bind_eq_some_iff.mp hdeleted
  obtain ⟨⟨reply, t⟩, hfirst, hdeleted⟩ := Option.bind_eq_some_iff.mp hdeleted
  obtain ⟨⟨reply', t'⟩, hsecond, rfl⟩ := Option.map_eq_some_iff.mp hdeleted
  obtain ⟨hview, hfound⟩ := Prod.mk.inj hview
  obtain ⟨howner, hstatuses⟩ := Prod.mk.inj hview
  exact ⟨s, reply, t, reply', t', howner, hstatuses, hfound, run_oneCall hs, hfirst, hsecond⟩

/-- The user that has logged in has asked for the file, too. -/
def anotherAsks : List NmRequest :=
  anotherLogsIn ++ [.client initMessage (asks MSG_REQUESTACCESS (lit "z") fileOne.str ACCESS_READ 0)]

/-- A message of the user `u` that names no file. -/
def looksAs (type : Int32) (u : CStr) : Message := asks type u [] 0 0

/-- A message is answered after the requests `anotherAsks`. -/
def answeredAfter (msg : Message) : Option (NameServer × Message × NameServer) :=
  (handleAllAlone oneCall initNameServer anotherAsks).bind fun s =>
    (runAlone oneCall (handleClientMessage initMessage msg) s).map fun r => (s, r.1, r.2)

theorem run_answeredAfter (msg : Message) (h : (answeredAfter msg).isSome = true) : ∃ s reply t,
    Run (Handles (ExecSome NmOp.exec)) initNameServer anotherAsks s ∧
      Alone (ExecSome NmOp.exec) s (handleClientMessage initMessage msg) reply t := by
  obtain ⟨r, hr⟩ := Option.isSome_iff_exists.mp h
  obtain ⟨s, hs, hr⟩ := Option.bind_eq_some_iff.mp hr
  obtain ⟨⟨reply, t⟩, hanswer, -⟩ := Option.map_eq_some_iff.mp hr
  exact ⟨s, reply, t, run_oneCall hs, alone_oneCall hanswer⟩

end NetworkFileShare
