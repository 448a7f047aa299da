import NetworkFileShare.Lib.Printf
import NetworkFileShare.NameServer.Create
import NetworkFileShare.NameServer.Folders
import NetworkFileShare.NameServer.Requests

/-!
# Listings and their buffers

* `handleViewCalls`, `handleViewFolderCalls`, `handleViewRequestsCalls` : the handlers, with the calls that write their
  `buffer`; `handleView_eq` and its siblings: their replies are those of the handlers;
* `Outside` : what storage servers and the clock answer; `ExecUnder` : the calls that are answered so;
* `viewed`, `requestLength` : what a listing holds, and how long its lines are;
* `listings_within_iff` : when all calls stay in the buffer.
-/

namespace NetworkFileShare

open NmOp (perform)

variable {s t : NameServer} {msg : Message}

/-! ## The handlers with their calls -/

/-- `viewLines`, line by line. -/
def viewTexts (showAll showDetails : Bool) (sender : CStr) : List FileMetadata → Handler (List CStr)
  | [] => return []
  | f :: fs => do
    let hasAccess ← mayView showAll sender f
    if hasAccess then
      let line ← viewLine showDetails f
      let rest ← viewTexts showAll showDetails sender fs
      return line :: rest
    else viewTexts showAll showDetails sender fs

/-- The texts of the two calls of `sprintf` for the header. -/
def viewHeaderTexts : List CStr :=
  [padRight 20 (lit "Filename") ++ lit " " ++ padRight 8 (lit "Words") ++ lit " " ++
    padRight 8 (lit "Chars") ++ lit " " ++ padRight 20 (lit "Last Access") ++ lit " " ++
    padRight 10 (lit "Owner") ++ lit "\n", List.replicate 80 dash ++ lit "\n"]

/-- `handle_view`. -/
def handleViewCalls (msg : Message) : Handler (Message × List PrintCall) := do
  let showAll := showAllOf msg
  let showDetails := showDetailsOf msg
  let files ← perform .trieGetAllFiles
  let files ← viewedFiles showDetails files
  let texts ← viewTexts showAll showDetails msg.sender.str files
  let calls := sprintfCalls 0 (if showDetails then viewHeaderTexts ++ texts else texts)
  return (replyText MSG_DATA SUCCESS (printed calls), calls)

/-- `viewFolderLines`, line by line. -/
def viewFolderTexts (path sender : CStr) : List FileMetadata → Handler (List CStr)
  | [] => return []
  | f :: fs => do
    if inFolder path f then
      let allowed ← perform (.checkAccess f.filename sender ACCESS_READ)
      let rest ← viewFolderTexts path sender fs
      return if allowed then (f.filename ++ lit "\n") :: rest else rest
    else viewFolderTexts path sender fs

def listFolderCalls (msg : Message) : Handler (Message × List PrintCall) := do
  let texts ← viewFolderTexts msg.targetPath.str msg.sender.str (← perform .trieGetAllFiles)
  let calls := if texts.flatten = [] then [⟨0, none, lit "(empty folder)\n"⟩] else snprintfCalls MAX_BUFFER 0 texts
  return (replyText MSG_DATA SUCCESS (printed calls), calls)

/-- `handle_viewfolder`. -/
def handleViewFolderCalls (msg : Message) : Handler (Message × List PrintCall) := do
  if isRoot msg.targetPath.str then listFolderCalls msg
  else
    match ← perform (.folderTrieSearch msg.targetPath.str) with
    | none => return (replyText MSG_DATA ERR_FILE_NOT_FOUND [], [])
    | some _ => listFolderCalls msg

/-- `viewRequestLines`, line by line. -/
def viewRequestTexts (sender : CStr) : Nat → List AccessRequest → Handler (List CStr)
  | _, [] => return []
  | i, r :: rs => do
    let metadata ← perform (.trieSearch r.filename.str)
    if metadata.map (·.owner) = some sender then
      let line ← viewRequestLine i r
      let rest ← viewRequestTexts sender (i + 1) rs
      return line :: rest
    else viewRequestTexts sender (i + 1) rs

/-- `handle_viewrequests`. -/
def handleViewRequestsCalls (msg : Message) : Handler (Message × List PrintCall) := do
  perform (.lock .request)
  let texts ← viewRequestTexts msg.sender.str 0 (← perform .accessRequests)
  perform (.unlock .request)
  let calls := if texts.flatten = [] then [⟨0, none, lit "No pending access requests for your files.\n"⟩]
    else snprintfCalls MAX_BUFFER 0 texts
  return (replyText MSG_DATA SUCCESS (printed calls), calls)

/-! ## The replies are those of the handlers -/

theorem viewLines_eq (showAll showDetails : Bool) (sender : CStr) (files : List FileMetadata) :
    viewLines showAll showDetails sender files = List.flatten <$> viewTexts showAll showDetails sender files := by
  induction files with
  | nil => rfl
  | cons f files ih =>
    rw [viewLines, viewTexts, map_bind]
    congr 1
    funext hasAccess
    cases hasAccess with
    | false => simpa using ih
    | true => simp [ih, map_bind]

theorem viewFolderLines_eq_texts (path sender : CStr) (files : List FileMetadata) :
    viewFolderLines path sender files = List.flatten <$> viewFolderTexts path sender files := by
  induction files with
  | nil => rfl
  | cons f files ih =>
    rw [viewFolderLines, viewFolderTexts]
    split
    · simp only [ih, map_bind, bind_map_left, map_pure]
      congr 1
      funext allowed
      cases allowed <;> rfl
    · exact ih

theorem viewRequestLines_eq (sender : CStr) (i : Nat) (requests : List AccessRequest) :
    viewRequestLines sender i requests = List.flatten <$> viewRequestTexts sender i requests := by
  induction requests generalizing i with
  | nil => rfl
  | cons r rs ih =>
    rw [viewRequestLines, viewRequestTexts, map_bind]
    congr 1
    funext metadata
    split
    · simp [ih, map_bind]
    · exact ih (i + 1)

theorem viewHeader_eq : viewHeader = viewHeaderTexts.flatten := by decide

/-- The replies to `VIEW`. -/
theorem handleView_eq (msg : Message) : handleView msg = Prod.fst <$> handleViewCalls msg := by
  rw [handleView, handleViewCalls, map_bind]
  congr 1
  funext files
  rw [map_bind]
  congr 1
  funext files
  rw [viewLines_eq, bind_map_left, map_bind]
  congr 1
  funext texts
  rw [map_pure, printed_sprintfCalls, viewHeader_eq]
  split
  · rw [List.flatten_append]
  · rfl

theorem printed_folder (texts : List CStr) (empty : CStr) :
    printed (if texts.flatten = [] then [⟨0, none, empty⟩] else snprintfCalls MAX_BUFFER 0 texts) =
      if texts.flatten = [] then empty else texts.flatten := by
  split
  · exact List.append_nil empty
  · exact printed_snprintfCalls _ _ _

theorem listFolder_eq (msg : Message) : listFolder msg = Prod.fst <$> listFolderCalls msg := by
  rw [listFolder, listFolderCalls, map_bind]
  congr 1
  funext files
  rw [viewFolderLines_eq_texts, bind_map_left, map_bind]
  congr 1
  funext texts
  rw [map_pure, printed_folder]

/-- The replies to `VIEWFOLDER`. -/
theorem handleViewFolder_eq (msg : Message) : handleViewFolder msg = Prod.fst <$> handleViewFolderCalls msg := by
  rw [handleViewFolder, handleViewFolderCalls]
  split
  · exact listFolder_eq msg
  · rw [map_bind]
    congr 1
    funext found
    cases found with
    | none => rfl
    | some folder => exact listFolder_eq msg

/-- The replies to `VIEWREQUESTS`. -/
theorem handleViewRequests_eq (msg : Message) : handleViewRequests msg = Prod.fst <$> handleViewRequestsCalls msg := by
  rw [handleViewRequests, handleViewRequestsCalls, map_bind]
  congr 1
  funext _
  rw [map_bind]
  congr 1
  funext requests
  rw [viewRequestLines_eq, bind_map_left, map_bind]
  congr 1
  funext texts
  rw [map_bind]
  congr 1
  funext _
  rw [map_pure, printed_folder]

/-! ## What the handlers are answered -/

/-- What the clock and the storage servers answer: the text of a time, and the reply that the exchange of a message over
the connection of a slot brings, if it is received. -/
structure Outside where
  timeText : Int → CStr
  reply : Nat → Message → Bool × Message

/-- The call is answered so. -/
def Outside.Answers (o : Outside) : NmCall → Prop
  | ⟨.timeText time, text⟩ => (text : CStr) = o.timeText time
  | ⟨.exchange idx msg, reply⟩ => (reply : Bool × Message) = o.reply idx msg
  | _ => True

/-- The calls that are answered so. -/
def ExecUnder (o : Outside) (s : NameServer) (c : NmCall) (t : NameServer) : Prop :=
  ExecSome NmOp.exec s c t ∧ o.Answers c

variable {o : Outside}

/-- The message that asks for the statistics of a file. -/
def statisticsMsg (f : FileMetadata) : Message :=
  { initMessage with type := MSG_SS_INFO, filename := .strncpy (MAX_FILENAME - 1) f.filename }

/-- The copy of a record with the statistics of its storage server. -/
def NameServer.refreshed (s : NameServer) (o : Outside) (f : FileMetadata) : FileMetadata :=
  match s.ssIndex f.ssId true with
  | none => f
  | some idx =>
    let (received, ssResponse) := o.reply idx (statisticsMsg f)
    if received = true ∧ ssResponse.status = SUCCESS then scanFields statFields ssResponse.data.str f else f

/-- The records that `VIEW` lists. -/
def NameServer.viewed (s : NameServer) (o : Outside) (msg : Message) : List FileMetadata :=
  let files := trieGetAllFiles s.fileTrie MAX_FILES
  let files := if showDetailsOf msg then files.map (s.refreshed o) else files
  files.filter fun f => showAllOf msg || s.checkAccess f.filename msg.sender.str ACCESS_READ

/-- The line of a file. -/
def viewRow (o : Outside) (showDetails : Bool) (f : FileMetadata) : CStr :=
  if showDetails then
    padRight 20 f.filename ++ lit " " ++ padRight 8 (printInt f.wordCount.toInt) ++ lit " " ++
      padRight 8 (printInt f.charCount.toInt) ++ lit " " ++ padRight 20 (o.timeText f.accessed) ++ lit " " ++
      padRight 10 f.owner ++ lit "\n"
  else f.filename ++ lit "\n"

section
variable {α : Type} {u : NameServer} {a : α}

theorem under_checkAccess {filename username : CStr} {required : Int32} {k : Bool → Handler α}
    (h : Alone (ExecUnder o) s (perform (.checkAccess filename username required) >>= k) a u) :
    Alone (ExecUnder o) s (k (s.checkAccess filename username required)) a u := by
  obtain ⟨allowed, s₁, ⟨⟨env, hexec⟩, -⟩, h⟩ := alone_perform_bind.mp h
  obtain ⟨rfl, rfl⟩ := Prod.mk.inj (Option.some.inj hexec)
  exact h

theorem under_timeText {time : Int} {k : CStr → Handler α}
    (h : Alone (ExecUnder o) s (perform (.timeText time) >>= k) a u) :
    Alone (ExecUnder o) s (k (o.timeText time)) a u := by
  obtain ⟨text, s₁, ⟨⟨env, hexec⟩, hanswer⟩, h⟩ := alone_perform_bind.mp h
  obtain rfl : text = o.timeText time := hanswer
  obtain rfl := congrArg Prod.snd (Option.some.inj hexec)
  exact h

end

theorem viewTexts_eq {showAll showDetails : Bool} {sender : CStr} {files : List FileMetadata} {texts : List CStr}
    (h : Alone (ExecUnder o) s (viewTexts showAll showDetails sender files) texts t) :
    texts = (files.filter fun f => showAll || s.checkAccess f.filename sender ACCESS_READ).map
      (viewRow o showDetails) := by
  induction files generalizing texts with
  | nil =>
    obtain ⟨rfl, -⟩ := alone_pure.mp h
    rfl
  | cons f files ih =>
    have hline {line : CStr} {u : NameServer} (h : Alone (ExecUnder o) s (viewLine showDetails f) line u) :
        line = viewRow o showDetails f ∧ u = s := by
      unfold viewLine at h
      unfold viewRow
      split at h
      · rename_i hdetails
        replace h := under_timeText h
        obtain ⟨rfl, rfl⟩ := alone_pure.mp h
        exact ⟨(if_pos hdetails).symm, rfl⟩
      · rename_i hshort
        obtain ⟨rfl, rfl⟩ := alone_pure.mp h
        exact ⟨(if_neg hshort).symm, rfl⟩
    have hrest {shown : Bool} (hshown : shown = (showAll || s.checkAccess f.filename sender ACCESS_READ))
        (hbody : Alone (ExecUnder o) s (if shown then do
          let line ← viewLine showDetails f
          let rest ← viewTexts showAll showDetails sender files
          return line :: rest
        else viewTexts showAll showDetails sender files) texts t) :
        texts = ((f :: files).filter fun f => showAll || s.checkAccess f.filename sender ACCESS_READ).map
          (viewRow o showDetails) := by
      rw [List.filter_cons, ← hshown]
      cases shown with
      | false => exact ih hbody
      | true =>
        obtain ⟨line, s₁, hfirst, hafter⟩ := alone_bind.mp hbody
        obtain ⟨rfl, rfl⟩ := hline hfirst
        obtain ⟨rest, s₂, hrest, hlast⟩ := alone_bind.mp hafter
        obtain ⟨rfl, rfl⟩ := alone_pure.mp hlast
        rw [ih hrest]
        rfl
    unfold viewTexts mayView at h
    cases showAll with
    | true => exact hrest rfl h
    | false =>
      rw [if_neg Bool.false_ne_true] at h
      exact hrest (Bool.false_or _).symm (under_checkAccess h)

theorem viewFolderTexts_eq {path user : CStr} {files : List FileMetadata} {texts : List CStr}
    (h : Alone (ExecUnder o) s (viewFolderTexts path user files) texts t) :
    texts = ((files.filter fun f => inFolder path f && s.checkAccess f.filename user ACCESS_READ).map
      (·.filename)).map (· ++ lit "\n") ∧ t = s := by
  induction files generalizing texts with
  | nil =>
    obtain ⟨rfl, rfl⟩ := alone_pure.mp h
    exact ⟨rfl, rfl⟩
  | cons f files ih =>
    unfold viewFolderTexts at h
    split at h
    · rename_i hin
      obtain ⟨rest, s₁, hrest, h⟩ := alone_bind.mp (under_checkAccess h)
      obtain ⟨rfl, rfl⟩ := alone_pure.mp h
      obtain ⟨rfl, rfl⟩ := ih hrest
      refine ⟨?_, rfl⟩
      rw [List.filter_cons, hin, Bool.true_and]
      cases s₁.checkAccess f.filename user ACCESS_READ <;> rfl
    · rename_i hout
      rw [List.filter_cons, Bool.eq_false_of_not_eq_true hout, Bool.false_and]
      exact ih h

theorem viewRequestTexts_eq {owner : CStr} {i : Nat} {requests : List AccessRequest} {texts : List CStr}
    (h : Alone (ExecUnder o) s (viewRequestTexts owner i requests) texts t) :
    texts = (ownRequests s owner i requests).map fun r => requestLine r.2 r.1 (o.timeText r.1.requestTime) := by
  induction requests generalizing i texts with
  | nil =>
    obtain ⟨rfl, -⟩ := alone_pure.mp h
    rfl
  | cons r rs ih =>
    obtain ⟨found, s₁, ⟨⟨env, hexec⟩, -⟩, h⟩ := alone_perform_bind.mp h
    obtain ⟨rfl, rfl⟩ := Prod.mk.inj (Option.some.inj hexec)
    rw [ownRequests, List.zipIdx_cons, List.filter_cons]
    split at h
    · rename_i howner
      obtain ⟨line, s₂, hline, h⟩ := alone_bind.mp h
      replace hline := under_timeText hline
      obtain ⟨rfl, rfl⟩ := alone_pure.mp hline
      obtain ⟨rest, s₃, hrest, h⟩ := alone_bind.mp h
      obtain ⟨rfl, rfl⟩ := alone_pure.mp h
      rw [if_pos (decide_eq_true howner), ih hrest]
      rfl
    · rename_i howner
      rw [if_neg (by simpa using howner)]
      exact ih h

/-! ## The statistics of `VIEW -l` -/

theorem execSome_of_under {α : Type} {u v : NameServer} {p : Handler α} {a : α} (h : Alone (ExecUnder o) u p a v) :
    Alone (ExecSome NmOp.exec) u p a v := h.mono fun _ _ _ hexec => hexec.1

/-- The call is no registration of a storage server and no loss of one. -/
def LeavesSlots : NmOp → Prop
  | .registerSs _ | .deactivateSs _ => False
  | _ => True

theorem ssList_of_only {α : Type} {u v : NameServer} {p : Handler α} {a : α} (hp : Prog.Only LeavesSlots p)
    (h : Alone (ExecSome NmOp.exec) u p a v) : v.ssList = u.ssList := by
  refine Ensures.of_only hp (P := fun w => w.ssList = u.ssList) (fun w op ans w' hop hw hexec => ?_) u a v rfl h
  obtain ⟨env, hexec⟩ := hexec
  have hreg : ∀ msg, op ≠ .registerSs msg := fun msg he => by
    subst he
    exact hop
  have hlost : ∀ ssId, op ≠ .deactivateSs ssId := fun ssId he => by
    subst he
    exact hop
  exact (ssList_of_exec hreg hlost hexec).trans hw

theorem refreshFile_eq {u v : NameServer} {f f' : FileMetadata} (hslots : u.ssList = s.ssList)
    (h : Alone (ExecUnder o) u (refreshFile f) f' v) : f' = s.refreshed o f ∧ v.ssList = s.ssList := by
  have honly : Prog.Only LeavesSlots (refreshFile f) := by
    refine .bind (.perform trivial) fun slot => ?_
    rcases slot with _ | idx
    · exact .pure _
    refine .bind (.perform trivial) fun _ => .bind (.perform trivial) fun _ => .ite ?_ ?_
    · exact .bind (.bind (.perform trivial) fun _ => .perform trivial) fun _ =>
        .bind (.perform trivial) fun _ => .pure _
    · exact .bind (.perform trivial) fun _ => .pure _
  refine ⟨?_, (ssList_of_only honly (execSome_of_under h)).trans hslots⟩
  obtain ⟨slot, u₁, ⟨⟨env, hexec⟩, -⟩, h⟩ := alone_perform_bind.mp h
  have hslot : slot = s.ssIndex f.ssId true := by
    rw [NmOp.exec] at hexec
    split at hexec
    · cases hexec
    · have hanswer : u.ssIndex f.ssId true = slot := congrArg Prod.fst (Option.some.inj hexec)
      rw [← hanswer, NameServer.ssIndex, NameServer.ssIndex, hslots]
  unfold NameServer.refreshed
  rw [← hslot]
  rcases slot with _ | idx
  · exact (alone_pure.mp h).1.symm
  obtain ⟨_, u₂, -, h⟩ := alone_perform_bind.mp h
  obtain ⟨reply, u₃, ⟨-, hreply⟩, h⟩ := alone_perform_bind.mp h
  obtain rfl : reply = o.reply idx (statisticsMsg f) := hreply
  dsimp only at h ⊢
  split at h
  · rename_i hreceived
    obtain ⟨_, u₄, -, h⟩ := alone_bind.mp h
    obtain ⟨_, u₅, -, h⟩ := alone_perform_bind.mp h
    rw [if_pos hreceived]
    exact (alone_pure.mp h).1.symm
  · rename_i hfailed
    obtain ⟨_, u₄, -, h⟩ := alone_perform_bind.mp h
    rw [if_neg hfailed]
    exact (alone_pure.mp h).1.symm

theorem refreshFiles_eq {u v : NameServer} {files files' : List FileMetadata} (hslots : u.ssList = s.ssList)
    (h : Alone (ExecUnder o) u (refreshFiles files) files' v) : files' = files.map (s.refreshed o) := by
  induction files generalizing u files' with
  | nil => exact (alone_pure.mp h).1.symm
  | cons f files ih =>
    obtain ⟨f', u₁, hfirst, h⟩ := alone_bind.mp h
    obtain ⟨hf, hslots₁⟩ := refreshFile_eq hslots hfirst
    obtain ⟨fs', u₂, hrest, h⟩ := alone_bind.mp h
    obtain ⟨rfl, rfl⟩ := alone_pure.mp h
    rw [hf, ih hslots₁ hrest]
    rfl

/-- Who may use a file is in the core of its record. -/
theorem checkAccess_of_coreOf (h : t.coreOf = s.coreOf) (filename username : CStr) (required : Int32) :
    t.checkAccess filename username required = s.checkAccess filename username required := by
  have hcore (u : NameServer) : u.checkAccess filename username required = ((u.coreOf filename).map fun c =>
      ({ FileMetadata.zero with owner := c.owner, acl := c.acl }).allows username required).getD false := by
    rw [NameServer.coreOf, Option.map_map]
    rfl
  rw [hcore, hcore, h]

/-- **The calls of `VIEW`.** -/
theorem handleViewCalls_eq (hs : Named s) {reply : Message} {calls : List PrintCall}
    (h : Alone (ExecUnder o) s (handleViewCalls msg) (reply, calls) t) :
    let rows := (s.viewed o msg).map (viewRow o (showDetailsOf msg))
    calls = sprintfCalls 0 (if showDetailsOf msg then viewHeaderTexts ++ rows else rows) := by
  obtain ⟨files, s₁, ⟨⟨env, hexec⟩, -⟩, h⟩ := alone_perform_bind.mp h
  obtain ⟨rfl, rfl⟩ := Prod.mk.inj (Option.some.inj hexec)
  obtain ⟨files, s₂, hfiles, h⟩ := alone_bind.mp h
  obtain ⟨texts, s₃, htexts, h⟩ := alone_bind.mp h
  obtain rfl := (Prod.mk.inj (alone_pure.mp h).1).2
  have hviewed : files = (if showDetailsOf msg then
        (trieGetAllFiles s.fileTrie MAX_FILES).map (s.refreshed o) else trieGetAllFiles s.fileTrie MAX_FILES) ∧
      s₂.coreOf = s.coreOf := by
    unfold viewedFiles at hfiles
    split at hfiles
    · rename_i hdetails
      rw [if_pos hdetails]
      exact ⟨refreshFiles_eq rfl hfiles,
        coreOf_refreshFiles (execSome_of_under hfiles) fun f hf => coreOf_collected hs hf⟩
    · rename_i hshort
      rw [if_neg hshort]
      obtain ⟨rfl, rfl⟩ := alone_pure.mp hfiles
      exact ⟨rfl, rfl⟩
  obtain ⟨rfl, hcores⟩ := hviewed
  have hrows := viewTexts_eq htexts
  simp only [checkAccess_of_coreOf hcores] at hrows
  rw [hrows]
  rfl

/-- **The calls of `VIEWFOLDER`.** -/
theorem handleViewFolderCalls_eq {reply : Message} {calls : List PrintCall}
    (h : Alone (ExecUnder o) s (handleViewFolderCalls msg) (reply, calls) t) :
    let rows := (s.folderNames msg.sender.str msg.targetPath.str).map (· ++ lit "\n")
    calls = if s.HasFolder msg.targetPath.str then
        if rows.flatten = [] then [⟨0, none, lit "(empty folder)\n"⟩] else snprintfCalls MAX_BUFFER 0 rows
      else [] := by
  have hlist {u : NameServer} (h : Alone (ExecUnder o) s (listFolderCalls msg) (reply, calls) u)
      (hfolder : s.HasFolder msg.targetPath.str) :
      let rows := (s.folderNames msg.sender.str msg.targetPath.str).map (· ++ lit "\n")
      calls = if s.HasFolder msg.targetPath.str then
          if rows.flatten = [] then [⟨0, none, lit "(empty folder)\n"⟩] else snprintfCalls MAX_BUFFER 0 rows
        else [] := by
    obtain ⟨files, s₁, ⟨⟨env, hexec⟩, -⟩, h⟩ := alone_perform_bind.mp h
    obtain ⟨rfl, rfl⟩ := Prod.mk.inj (Option.some.inj hexec)
    obtain ⟨texts, s₂, htexts, h⟩ := alone_bind.mp h
    obtain ⟨rfl, -⟩ := viewFolderTexts_eq htexts
    dsimp only
    rw [if_pos hfolder]
    exact (Prod.mk.inj (alone_pure.mp h).1).2.symm
  unfold handleViewFolderCalls at h
  split at h
  · rename_i hroot
    exact hlist h (Or.inl hroot)
  · rename_i hroot
    obtain ⟨found, s₁, ⟨⟨env, hexec⟩, -⟩, h⟩ := alone_perform_bind.mp h
    obtain ⟨hfound, rfl⟩ := Prod.mk.inj (Option.some.inj hexec)
    rcases found with _ | folder
    · have hnone : ¬ s.HasFolder msg.targetPath.str := by
        rintro (h | h)
        · exact hroot h
        · rw [hfound] at h
          cases h
      dsimp only
      rw [if_neg hnone]
      exact (Prod.mk.inj (alone_pure.mp h).1).2.symm
    · exact hlist h (Or.inr (by rw [hfound]; rfl))

/-- **The calls of `VIEWREQUESTS`.** -/
theorem handleViewRequestsCalls_eq {reply : Message} {calls : List PrintCall}
    (h : Alone (ExecUnder o) s (handleViewRequestsCalls msg) (reply, calls) t) :
    let rows := (ownRequests s msg.sender.str 0 s.accessRequests).map fun r =>
      requestLine r.2 r.1 (o.timeText r.1.requestTime)
    calls = if rows.flatten = [] then [⟨0, none, lit "No pending access requests for your files.\n"⟩]
      else snprintfCalls MAX_BUFFER 0 rows := by
  obtain ⟨_, s₁, ⟨hlock, -⟩, h⟩ := alone_perform_bind.mp h
  have h₁ : SameRecords s s₁ := .of_exec hlock trivial
  obtain ⟨requests, s₂, ⟨⟨env, hexec⟩, -⟩, h⟩ := alone_perform_bind.mp h
  obtain ⟨rfl, rfl⟩ := Prod.mk.inj (Option.some.inj hexec)
  obtain ⟨texts, s₃, htexts, h⟩ := alone_bind.mp h
  obtain ⟨_, s₄, -, h⟩ := alone_perform_bind.mp h
  obtain rfl := (Prod.mk.inj (alone_pure.mp h).1).2
  have hrows := viewRequestTexts_eq htexts
  rw [ownRequests, h₁.fileTrie, h₁.accessRequests] at hrows
  rw [hrows]
  rfl

/-! ## When the calls stay in the buffer -/

theorem length_padRight (n : Nat) (text : CStr) : (padRight n text).length = max n text.length := by
  rw [padRight, List.length_append, List.length_replicate]
  omega

/-- The bytes of a line of `VIEW -l`. -/
def detailLength (o : Outside) (f : FileMetadata) : Nat :=
  max 20 f.filename.length + max 8 (printInt f.wordCount.toInt).length + max 8 (printInt f.charCount.toInt).length +
    max 20 (o.timeText f.accessed).length + max 10 f.owner.length + 5

/-- The bytes of a line of `VIEWREQUESTS`. -/
def requestLength (o : Outside) (r : AccessRequest × Nat) : Nat :=
  (printNat r.2).length + r.1.username.str.length + r.1.filename.str.length +
    (if r.1.requestedAccess = ACCESS_READ then 4 else 5) + (o.timeText r.1.requestTime).length + 36

/-- The lines of `VIEW`, with the header of 152 bytes if it is asked for, leave room for the terminator. -/
def ViewFits (o : Outside) (s : NameServer) (msg : Message) : Prop :=
  if showDetailsOf msg then 152 + ((s.viewed o msg).map (detailLength o)).sum < MAX_BUFFER
  else ((s.viewed o msg).map (·.filename.length + 1)).sum < MAX_BUFFER

/-- The names before the last one are not longer than the buffer, each with a newline. -/
def FolderFits (s : NameServer) (msg : Message) : Prop :=
  s.HasFolder msg.targetPath.str →
    ((s.folderNames msg.sender.str msg.targetPath.str).dropLast.map (·.length + 1)).sum ≤ MAX_BUFFER

/-- The lines before the last one are not longer than the buffer. -/
def RequestsFit (o : Outside) (s : NameServer) (msg : Message) : Prop :=
  ((ownRequests s msg.sender.str 0 s.accessRequests).dropLast.map (requestLength o)).sum ≤ MAX_BUFFER

instance (o : Outside) (s : NameServer) (msg : Message) : Decidable (ViewFits o s msg) := by
  unfold ViewFits
  infer_instance

theorem length_viewRow (f : FileMetadata) (showDetails : Bool) : (viewRow o showDetails f).length =
    if showDetails then detailLength o f else f.filename.length + 1 := by
  have hblank : (lit " ").length = 1 := by decide
  have hend : (lit "\n").length = 1 := by decide
  unfold viewRow detailLength
  split
  · simp only [List.length_append, length_padRight, hblank, hend]
    omega
  · rw [List.length_append, hend]

theorem length_requestLine (r : AccessRequest × Nat) :
    (requestLine r.2 r.1 (o.timeText r.1.requestTime)).length = requestLength o r := by
  have haccess : (if r.1.requestedAccess = ACCESS_READ then lit "READ" else lit "WRITE").length =
      if r.1.requestedAccess = ACCESS_READ then 4 else 5 := by
    split <;> decide
  unfold requestLine requestLength
  repeat rw [List.length_append]
  rw [haccess, show (lit "[").length = 1 by decide, show (lit "] User: ").length = 8 by decide,
    show (lit ", File: ").length = 8 by decide, show (lit ", Access: ").length = 10 by decide,
    show (lit ", Time: ").length = 8 by decide, show (lit "\n").length = 1 by decide]
  omega

/-- The bytes of all lines. -/
theorem length_flatten_map {α : Type} (line : α → CStr) (length : α → Nat) (h : ∀ x, (line x).length = length x)
    (rows : List α) : (rows.map line).flatten.length = (rows.map length).sum := by
  rw [List.length_flatten, List.map_map]
  congr 1
  exact List.map_congr_left fun x _ => h x

/-- A listing that says so when it is empty. -/
theorem listing_within_iff {texts : List CStr} {empty : CStr} (hne : ∀ text ∈ texts, text ≠ [])
    (hempty : empty.length < MAX_BUFFER) :
    (∀ c ∈ if texts.flatten = [] then [⟨0, none, empty⟩] else snprintfCalls MAX_BUFFER 0 texts, c.Within MAX_BUFFER) ↔
      texts.dropLast.flatten.length ≤ MAX_BUFFER := by
  split
  · rename_i hnone
    have hnil : texts = [] := by
      refine List.eq_nil_iff_forall_not_mem.mpr fun text htext => hne text htext ?_
      exact List.flatten_eq_nil_iff.mp hnone text htext
    rw [hnil]
    refine iff_of_true (fun c hc => ?_) (Nat.zero_le _)
    rw [List.mem_singleton.mp hc]
    exact StringCopy.fits_iff (c := ⟨empty, MAX_BUFFER⟩).mpr hempty
  · rename_i hsome
    rw [snprintf_within_iff, Nat.zero_add]
    refine or_iff_right fun hnil => hsome ?_
    rw [hnil]
    rfl

theorem viewCalls_within_iff {es : List (NmRequest × Option Message)} (h : Run Answered initNameServer es s)
    {reply : Message} {calls : List PrintCall}
    (hview : Alone (ExecUnder o) s (handleViewCalls msg) (reply, calls) t) :
    (∀ c ∈ calls, c.Within MAX_BUFFER) ↔ ViewFits o s msg := by
  have hcalls := handleViewCalls_eq (FolderInv.of_run h).named hview
  have hheader : viewHeaderTexts.flatten.length = 152 := by decide +kernel
  rw [hcalls, sprintf_within_iff, ViewFits, Nat.zero_add]
  have hrows := length_flatten_map _ _ (fun f => length_viewRow (o := o) f (showDetailsOf msg))
    (s.viewed o msg)
  split
  · rename_i hdetails
    simp only [hdetails, if_true] at hrows ⊢
    rw [List.flatten_append, List.length_append, hheader, hrows]
    exact or_iff_right fun hnil => by cases hnil
  · rename_i hshort
    simp only [hshort, Bool.false_eq_true, if_false] at hrows ⊢
    rw [hrows]
    refine or_iff_right_of_imp fun hnil => ?_
    rw [List.map_eq_nil_iff.mp hnil]
    decide

theorem folderCalls_within_iff {reply : Message} {calls : List PrintCall}
    (hview : Alone (ExecUnder o) s (handleViewFolderCalls msg) (reply, calls) t) :
    (∀ c ∈ calls, c.Within MAX_BUFFER) ↔ FolderFits s msg := by
  have hcalls := handleViewFolderCalls_eq hview
  dsimp only at hcalls
  rw [hcalls, FolderFits]
  split
  · rename_i hfolder
    rw [listing_within_iff (fun text htext => ?_) (by decide), ← List.map_dropLast, length_flatten_map _ (·.length + 1),
      forall_prop_of_true hfolder]
    · exact fun name => List.length_append
    · obtain ⟨name, -, rfl⟩ := List.mem_map.mp htext
      exact List.append_ne_nil_of_right_ne_nil _ (by decide)
  · rename_i hnone
    exact iff_of_true (fun c hc => absurd hc List.not_mem_nil) fun hfolder => absurd hfolder hnone

theorem requestCalls_within_iff {reply : Message} {calls : List PrintCall}
    (hview : Alone (ExecUnder o) s (handleViewRequestsCalls msg) (reply, calls) t) :
    (∀ c ∈ calls, c.Within MAX_BUFFER) ↔ RequestsFit o s msg := by
  have hcalls := handleViewRequestsCalls_eq hview
  dsimp only at hcalls
  rw [hcalls, listing_within_iff (fun text htext => ?_) (by decide), ← List.map_dropLast,
    length_flatten_map _ _ length_requestLine, RequestsFit]
  obtain ⟨r, -, rfl⟩ := List.mem_map.mp htext
  exact List.append_ne_nil_of_right_ne_nil _ (by decide)

/-- What the calls of `oneCall` are answered. -/
def quietOutside : Outside := ⟨fun _ => [], fun _ _ => (true, initMessage)⟩

theorem under_oneCall {α : Type} {p : Handler α} {r : α × NameServer} (h : runAlone oneCall p s = some r) :
    Alone (ExecUnder quietOutside) s p r.1 r.2 := by
  refine (alone_of_runAlone h).mono fun u c v hcall => ⟨⟨_, hcall⟩, ?_⟩
  obtain ⟨op, ans⟩ := c
  cases op with
  | timeText time => exact (congrArg Prod.fst (Option.some.inj hcall)).symm
  | exchange idx msg => exact (congrArg Prod.fst (Option.some.inj hcall)).symm
  | _ => trivial

/-- `VIEW -al`. -/
def viewAllMsg : Message := { initMessage with type := MSG_VIEW, data := .strncpy (MAX_BUFFER - 1) (lit "-al") }

/-- A name of 200 bytes. -/
def longName : CStr := (List.replicate 200 (lit "a")).flatten

/-- Thirty users ask for access to a file. -/
def crowd : List NmRequest :=
  [registers 1 [], .client initMessage (asks MSG_CREATE (lit "o") longName 0 0)] ++
    (List.range 30).map fun k =>
      .client initMessage
        (asks MSG_REQUESTACCESS (printNat k ++ (List.replicate 55 (lit "u")).flatten) longName ACCESS_READ 0)

end NetworkFileShare
