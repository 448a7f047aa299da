import NetworkFileShare.NameServer.Records
import NetworkFileShare.NameServer.TrieMap

/-!
# Folders and their views

* `folderNames` : the files of a folder that a user may read, as `VIEWFOLDER` lists them;
* `movedTo` : where the successful moves of a run have put a file;
* `FolderInv` : the record of a file has this folder, and the folder is there;
* `folder_views` : when the views of the folders show each file in its folder and in no other.
-/

namespace NetworkFileShare

open NmOp (perform)
open Prog (Only)

variable {s t : NameServer} {prior msg reply : Message}

/-- The root, or a folder that has been created. -/
def NameServer.HasFolder (s : NameServer) (path : CStr) : Prop :=
  isRoot path = true ∨ (trieSearch s.folderTrie path).isSome

instance (path : CStr) : Decidable (s.HasFolder path) := inferInstanceAs (Decidable (_ ∨ _))

/-- The files of a folder that the user may read. -/
def NameServer.folderNames (s : NameServer) (username path : CStr) : List CStr :=
  ((trieGetAllFiles s.fileTrie MAX_FILES).filter fun f =>
    inFolder path f && s.checkAccess f.filename username ACCESS_READ).map (·.filename)

/-- One folder, the root having two names. -/
def SameFolder (p q : CStr) : Prop := (isRoot p = true ∧ isRoot q = true) ∨ p = q

theorem isRoot_iff {path : CStr} : isRoot path = true ↔ path = [] ∨ path = lit "/" := by
  rw [isRoot, Bool.or_eq_true, decide_eq_true_iff, decide_eq_true_iff]

/-! ## The answer to `VIEWFOLDER` -/

theorem viewFolderLines_eq {path user text : CStr} {files : List FileMetadata}
    (h : Alone (ExecSome NmOp.exec) s (viewFolderLines path user files) text t) :
    text = lines ((files.filter fun f =>
      inFolder path f && s.checkAccess f.filename user ACCESS_READ).map (·.filename)) ∧ t = s := by
  induction files generalizing text with
  | nil =>
    obtain ⟨rfl, rfl⟩ := alone_pure.mp h
    exact ⟨rfl, rfl⟩
  | cons f files ih =>
    unfold viewFolderLines at h
    split at h
    · rename_i hin
      obtain ⟨allowed, s₁, ⟨env, hcheck⟩, h⟩ := alone_perform_bind.mp h
      obtain ⟨hallowed, rfl⟩ := Prod.mk.inj (Option.some.inj hcheck)
      obtain ⟨rest, s₂, hrest, h⟩ := alone_bind.mp h
      obtain ⟨rfl, rfl⟩ := alone_pure.mp h
      obtain ⟨rfl, hsame⟩ := ih hrest
      have hcheck : s.checkAccess f.filename user ACCESS_READ = allowed := hallowed
      refine ⟨?_, hsame⟩
      rw [List.filter_cons, hin, hcheck, Bool.true_and]
      cases allowed <;> rfl
    · rename_i hout
      rw [List.filter_cons, Bool.eq_false_of_not_eq_true hout, Bool.false_and]
      exact ih h

/-- The reply has the names of a folder that is there. -/
def FolderReply (s : NameServer) (username path : CStr) (reply : Message) : Prop :=
  if s.HasFolder path then
    reply.status = SUCCESS ∧ reply.data.str = if s.folderNames username path = [] then lit "(empty folder)\n"
      else lines (s.folderNames username path)
  else reply.status = ERR_FILE_NOT_FOUND

theorem lines_eq_nil {names : List CStr} : lines names = [] ↔ names = [] := by
  cases names with
  | nil => exact iff_of_true rfl rfl
  | cons name names => simp [lines, lit]

theorem listFolder_reply (h : Alone (ExecSome NmOp.exec) s (listFolder msg) reply t)
    (hfits : (lines (s.folderNames msg.sender.str msg.targetPath.str)).length < MAX_BUFFER)
    (hfolder : s.HasFolder msg.targetPath.str) : FolderReply s msg.sender.str msg.targetPath.str reply := by
  replace h := alone_trieGetAllFiles h
  obtain ⟨text, s₂, hlines, h⟩ := alone_bind.mp h
  obtain ⟨rfl, rfl⟩ := alone_pure.mp h
  obtain ⟨htext, -⟩ := viewFolderLines_eq hlines
  have htext : text = lines (s.folderNames msg.sender.str msg.targetPath.str) := htext
  rw [FolderReply, if_pos hfolder, htext]
  refine ⟨rfl, ?_⟩
  rw [if_congr lines_eq_nil rfl rfl]
  show List.take (MAX_BUFFER - 1) _ = _
  refine List.take_of_length_le ?_
  split
  · decide
  · exact Nat.le_sub_one_of_lt hfits

/-- **The reply shows the names**, if they fit. -/
theorem handleViewFolder_reply (h : Alone (ExecSome NmOp.exec) s (handleViewFolder msg) reply t)
    (hfits : (lines (s.folderNames msg.sender.str msg.targetPath.str)).length < MAX_BUFFER) :
    FolderReply s msg.sender.str msg.targetPath.str reply := by
  unfold handleViewFolder at h
  split at h
  · rename_i hroot
    exact listFolder_reply h hfits (Or.inl hroot)
  · rename_i hroot
    obtain ⟨found, s₁, ⟨env, hsearch⟩, h⟩ := alone_perform_bind.mp h
    obtain ⟨hfound, rfl⟩ := Prod.mk.inj (Option.some.inj hsearch)
    rcases found with _ | folder
    · obtain ⟨rfl, rfl⟩ := alone_pure.mp h
      have hnone : ¬ s.HasFolder msg.targetPath.str := by
        rintro (h | h)
        · exact hroot h
        · rw [hfound] at h
          cases h
      rw [FolderReply, if_neg hnone]
      rfl
    · exact listFolder_reply h hfits (Or.inr (by rw [hfound]; rfl))

/-! ## Which files are collected -/

/-- The records under the first names. -/
theorem mem_getAllFiles_iff (hnul : NulFree s.fileTrie) {k : Nat} {m : FileMetadata} :
    m ∈ trieGetAllFiles s.fileTrie k ↔ ∃ name ∈ (trieNames s.fileTrie).take k, trieSearch s.fileTrie name = some m := by
  rw [trieGetAllFiles, trieCollectFiles_eq k hnul, List.nil_append, List.length_nil, Nat.sub_zero,
    ← filterMap_take (trieNames s.fileTrie) k fun _ hname => mem_trieNames.mp hname, List.mem_filterMap]

theorem mem_folderNames (hnamed : Named s) {f user path : CStr} {m : FileMetadata}
    (hm : trieSearch s.fileTrie f = some m) (hread : s.checkAccess f user ACCESS_READ = true) :
    f ∈ s.folderNames user path ↔ f ∈ (trieNames s.fileTrie).take MAX_FILES ∧ inFolder path m = true := by
  rw [NameServer.folderNames, List.mem_map]
  constructor
  · rintro ⟨m', hmem, hname⟩
    obtain ⟨hmem, hshown⟩ := List.mem_filter.mp hmem
    obtain ⟨name, hfirst, hfound⟩ := (mem_getAllFiles_iff hnamed.nulFree).mp hmem
    obtain rfl : name = f := (hnamed.named name m' hfound).symm.trans hname
    obtain rfl : m' = m := Option.some.inj (hfound.symm.trans hm)
    exact ⟨hfirst, (Bool.and_eq_true _ _ ▸ hshown).1⟩
  · rintro ⟨hfirst, hin⟩
    have hname := hnamed.named f m hm
    refine ⟨m, List.mem_filter.mpr ⟨(mem_getAllFiles_iff hnamed.nulFree).mpr ⟨f, hfirst, hm⟩, ?_⟩, hname⟩
    rw [hin, hname, hread, Bool.true_and]

/-! ## The folder of a file over a run -/

/-- A request that is handled alone, with the message that is sent at its end. -/
def Answered (s : NameServer) (e : NmRequest × Option Message) (t : NameServer) : Prop :=
  Alone (ExecSome NmOp.exec) s (nmBody e.1) e.2 t

/-- A move that succeeds puts the file into its target; a file that is created again is in the root. -/
def folderAfter (filename folder : CStr) : NmRequest × Option Message → CStr
  | (.client _ msg, some reply) =>
    if reply.status = SUCCESS ∧ msg.filename.str = filename then
      if msg.type = MSG_MOVE then msg.targetPath.str else if msg.type = MSG_DELETE then [] else folder
    else folder
  | _ => folder

/-- The target of the last successful move of the file. -/
def movedTo (es : List (NmRequest × Option Message)) (filename : CStr) : CStr := es.foldl (folderAfter filename) []

theorem movedTo_snoc (es : List (NmRequest × Option Message)) (e : NmRequest × Option Message) (f : CStr) :
    movedTo (es ++ [e]) f = folderAfter f (movedTo es f) e := by
  rw [movedTo, List.foldl_append]
  rfl

/-- The folder in the record of a file, the root if there is none. -/
def NameServer.folderOf (s : NameServer) (filename : CStr) : CStr := ((s.coreOf filename).map (·.folderPath)).getD []

theorem folderOf_of_found {f : CStr} {m : FileMetadata} (h : trieSearch s.fileTrie f = some m) :
    s.folderOf f = m.folderPath := by
  rw [NameServer.folderOf, coreOf_of_found h]
  rfl

theorem folderOf_congr (h : t.coreOf = s.coreOf) (f : CStr) : t.folderOf f = s.folderOf f := by
  rw [NameServer.folderOf, h]
  rfl

theorem CoreChanged.folderOf {filename : CStr} {new : Option RecordCore} (h : CoreChanged s filename new t) (f : CStr) :
    t.folderOf f = if f = filename then (new.map (·.folderPath)).getD [] else s.folderOf f := by
  rw [NameServer.folderOf, h f]
  split <;> rfl

/-- A record that gets another access list stays in its folder. -/
theorem CoreChanged.folderOf_kept {filename : CStr} {m m' : FileMetadata} (h : CoreChanged s filename (some m'.core) t)
    (hm : trieSearch s.fileTrie filename = some m) (hfolder : m'.folderPath = m.folderPath) (f : CStr) :
    t.folderOf f = s.folderOf f := by
  rw [h.folderOf]
  split
  · rename_i hf
    rw [hf, folderOf_of_found hm]
    exact hfolder
  · rfl

theorem folderPath_grant (m : FileMetadata) (u : CStr) (access : Int32) :
    (m.grant u access).folderPath = m.folderPath := by
  unfold FileMetadata.grant
  split
  · rfl
  · split <;> rfl

theorem AclChange.folderPath_apply (change : AclChange) (m : FileMetadata) :
    (change.apply m).folderPath = m.folderPath := by
  cases change with
  | grant u a => exact folderPath_grant m u a
  | revoke u => rfl

/-- A message of another type moves no file. -/
theorem folderAfter_other (hmove : msg.type ≠ MSG_MOVE) (hdelete : msg.type ≠ MSG_DELETE) (f folder : CStr) :
    folderAfter f folder (.client prior msg, some reply) = folder := by
  rw [folderAfter, if_neg hmove, if_neg hdelete]
  split <;> rfl

theorem folderAfter_success (hstatus : reply.status = SUCCESS) (f folder : CStr) :
    folderAfter f folder (.client prior msg, some reply) = if f = msg.filename.str then
      if msg.type = MSG_MOVE then msg.targetPath.str else if msg.type = MSG_DELETE then [] else folder
    else folder := by
  rw [folderAfter]
  by_cases hf : f = msg.filename.str
  · rw [if_pos ⟨hstatus, hf.symm⟩, if_pos hf]
  · rw [if_neg fun h => hf h.2.symm, if_neg hf]

theorem folderAfter_failed (hstatus : reply.status ≠ SUCCESS) (f folder : CStr) :
    folderAfter f folder (.client prior msg, some reply) = folder := by
  rw [folderAfter, if_neg fun h => hstatus h.1]

/-- **What a message does to the folder of a file.** -/
theorem Effect.folderOf (h : Effect s msg reply t) (f : CStr) :
    t.folderOf f = folderAfter f (s.folderOf f) (.client prior msg, some reply) := by
  cases h with
  | same cores quiet =>
    rw [folderOf_congr cores]
    by_cases hstatus : reply.status = SUCCESS
    · have hwrites := quiet hstatus
      unfold WritesRecords at hwrites
      push Not at hwrites
      rw [folderAfter_other hwrites.2.2.2.2 hwrites.2.1]
    · rw [folderAfter_failed hstatus]
  | create type status absent changed =>
    rw [folderAfter_other (by rw [type]; decide) (by rw [type]; decide), changed.folderOf]
    split
    · rename_i hf
      rw [hf, NameServer.folderOf, absent]
      split <;> rfl
    · rfl
  | delete type status owner changed =>
    rw [folderAfter_success status, changed.folderOf, type]
    rfl
  | access type status m found owner changed =>
    have hother : msg.type ≠ MSG_MOVE ∧ msg.type ≠ MSG_DELETE := by
      rcases type with type | type <;> rw [type] <;> decide
    rw [folderAfter_other hother.1 hother.2, changed.folderOf_kept found ((accessChange msg).folderPath_apply m)]
  | approve type status req m found owner changed =>
    rw [folderAfter_other (by rw [type]; decide) (by rw [type]; decide),
      changed.folderOf_kept found (folderPath_grant m _ _)]
  | move type status m found folder changed =>
    rw [folderAfter_success status, changed.folderOf, if_pos type]
    rfl

/-! ## Folders are not removed -/

theorem folderFound_exec {c : NmCall} {path : CStr} (hs : (trieSearch s.folderTrie path).isSome)
    (hexec : ExecSome NmOp.exec s c t) : (trieSearch t.folderTrie path).isSome := by
  obtain ⟨op, ans⟩ := c
  cases op with
  | folderTrieInsert target metadata =>
    obtain ⟨env, h⟩ := hexec
    cases h
    show (trieSearch (trieInsert s.folderTrie target metadata).1 path).isSome
    rw [trieSearch_insert]
    split
    · rfl
    · exact hs
  | trieInsert _ _ | trieUpdate _ _ | trieDelete _ | addRequest _ | removeRequest _ =>
    obtain ⟨env, h⟩ := hexec
    cases h
    exact hs
  | cacheGet _ | cachePut _ _ | cacheRemove _ =>
    obtain ⟨env, h⟩ := hexec
    obtain ⟨c, -, he⟩ := Option.map_eq_some_iff.mp h
    cases he
    exact hs
  | _ =>
    rw [(SameRecords.of_exec hexec trivial).folderTrie]
    exact hs

theorem hasFolder_alone {α : Type} {p : Handler α} {a : α} {path : CStr} (hs : s.HasFolder path)
    (h : Alone (ExecSome NmOp.exec) s p a t) : t.HasFolder path :=
  hs.imp_right fun hfound => Ensures.of_only (Only.all p) (P := fun u => (trieSearch u.folderTrie path).isSome = true)
    (fun _ _ _ _ _ hu hexec => folderFound_exec hu hexec) s a t hfound h

/-- **What a request does to the folder of a file.** -/
theorem nmBody_folderOf {req : NmRequest} {answer : Option Message} (hnamed : Named s)
    (h : Alone (ExecSome NmOp.exec) s (nmBody req) answer t) (f : CStr) :
    t.folderOf f = folderAfter f (s.folderOf f) (req, answer) := by
  match req, answer, nmBody_effect hnamed h with
  | .client _ msg, some reply, heffect => exact heffect.folderOf f
  | .registerSs _, _, heffect =>
    rcases heffect f with hkept | ⟨hnone, hnew⟩
    · rw [NameServer.folderOf, hkept]
      rfl
    · rw [NameServer.folderOf, NameServer.folderOf, hnone, hnew]
      rfl
  | .heartbeatLost _, _, heffect | .login _ _, _, heffect | .logout _, _, heffect => exact folderOf_congr heffect f

/-! ## The invariant -/

/-- Every file is where the moves have put it, in a folder that is there. -/
structure FolderInv (es : List (NmRequest × Option Message)) (s : NameServer) : Prop where
  named : Named s
  folder : ∀ f, s.folderOf f = movedTo es f
  there : ∀ f, s.HasFolder (movedTo es f)

theorem FolderInv.init : FolderInv [] initNameServer where
  named := .init
  folder f := by
    rw [NameServer.folderOf, NameServer.coreOf, initNameServer, trieSearch_createTrieNode]
    rfl
  there f := Or.inl rfl

/-- The target of a move that succeeds is there. -/
theorem Effect.target (h : Effect s msg reply t) (htype : msg.type = MSG_MOVE) (hstatus : reply.status = SUCCESS) :
    s.HasFolder msg.targetPath.str := by
  cases h with
  | same _ quiet => exact absurd (Or.inr (Or.inr (Or.inr (Or.inr htype)))) (quiet hstatus)
  | move _ _ m _ folder _ => exact folder
  | create type _ _ _ | delete type _ _ _ | approve type _ _ _ _ _ _ =>
    rw [htype] at type
    exact absurd type (by decide)
  | access type _ _ _ _ _ =>
    rw [htype] at type
    exact absurd type (by decide)

theorem Effect.hasFolder (h : Effect s msg reply t) {f : CStr} (hs : s.HasFolder (s.folderOf f)) :
    s.HasFolder (folderAfter f (s.folderOf f) (.client prior msg, some reply)) := by
  by_cases hmoved : msg.type = MSG_MOVE ∧ reply.status = SUCCESS
  · obtain ⟨htype, hstatus⟩ := hmoved
    rw [folderAfter_success hstatus, if_pos htype]
    split
    · exact h.target htype hstatus
    · exact hs
  · rw [folderAfter]
    split
    · rename_i hchanged
      rw [if_neg fun htype => hmoved ⟨htype, hchanged.1⟩]
      split
      · exact Or.inl rfl
      · exact hs
    · exact hs

theorem nmBody_hasFolder {req : NmRequest} {answer : Option Message} (hnamed : Named s)
    (h : Alone (ExecSome NmOp.exec) s (nmBody req) answer t) {f : CStr} (hs : s.HasFolder (s.folderOf f)) :
    s.HasFolder (folderAfter f (s.folderOf f) (req, answer)) := by
  match req, answer, nmBody_effect hnamed h with
  | .client _ msg, some reply, heffect => exact heffect.hasFolder hs
  | .registerSs _, _, _ | .heartbeatLost _, _, _ | .login _ _, _, _ | .logout _, _, _ => exact hs

theorem FolderInv.step {es : List (NmRequest × Option Message)} {e : NmRequest × Option Message}
    (hs : FolderInv es s) (h : Answered s e t) : FolderInv (es ++ [e]) t := by
  refine ⟨hs.named.step h, fun f => ?_, fun f => ?_⟩
  · rw [movedTo_snoc, ← hs.folder f]
    exact nmBody_folderOf hs.named h f
  · rw [movedTo_snoc, ← hs.folder f]
    exact hasFolder_alone (nmBody_hasFolder hs.named h (by rw [hs.folder f]; exact hs.there f)) h

theorem FolderInv.of_run {es : List (NmRequest × Option Message)} (h : Run Answered initNameServer es s) :
    FolderInv es s :=
  h.invariant .init fun _ _ _ _ hinv hstep => hinv.step hstep

/-! ## The views -/

/-- The view of `path` shows the folder that a record names, unless that is the root's second name. -/
theorem inFolder_iff {path : CStr} {m : FileMetadata} (hthere : s.HasFolder m.folderPath)
    (hname : m.folderPath ≠ lit "/") :
    (s.HasFolder path ∧ inFolder path m = true) ↔ SameFolder path m.folderPath := by
  unfold inFolder SameFolder
  by_cases hroot : isRoot path = true
  · have hempty : isRoot m.folderPath = true ↔ m.folderPath = [] := by
      rw [isRoot_iff, or_iff_left hname]
    rw [if_pos hroot, decide_eq_true_iff, hempty]
    constructor
    · exact fun h => Or.inl ⟨hroot, h.2⟩
    · rintro (⟨-, h⟩ | h)
      · exact ⟨Or.inl hroot, h⟩
      · exact ⟨Or.inl hroot, hempty.mp (h ▸ hroot)⟩
  · rw [if_neg hroot, decide_eq_true_iff]
    constructor
    · exact fun h => Or.inr h.2.symm
    · rintro (⟨h, -⟩ | rfl)
      · exact absurd h hroot
      · exact ⟨hthere, rfl⟩

/-- A record that names the root by its second name is in no view. -/
theorem not_shown {m : FileMetadata} (hname : m.folderPath = lit "/") (path : CStr) : inFolder path m = false := by
  rw [inFolder, hname]
  split
  · decide
  · rename_i hroot
    rw [decide_eq_false_iff_not]
    exact fun h => hroot (isRoot_iff.mpr (Or.inr h.symm))

/-- The replies to `VIEWFOLDER` that fit show the names of a folder that is there, and each file that a user may
read is in the views of its own folder and in no others exactly when it has not been moved to `/` and is among the
files that are looked at. -/
structure FolderViews (es : List (NmRequest × Option Message)) (s : NameServer) : Prop where
  reply : ∀ prior msg reply t, msg.type = MSG_VIEWFOLDER →
    Alone (ExecSome NmOp.exec) s (handleClientMessage prior msg) reply t →
      (lines (s.folderNames msg.sender.str msg.targetPath.str)).length < MAX_BUFFER →
        FolderReply s msg.sender.str msg.targetPath.str reply
  partition : ∀ f u, s.checkAccess f u ACCESS_READ = true →
    ((∀ path, (s.HasFolder path ∧ f ∈ s.folderNames u path) ↔ SameFolder path (movedTo es f)) ↔
      movedTo es f ≠ lit "/" ∧ f ∈ (trieNames s.fileTrie).take MAX_FILES)

theorem found_of_checkAccess {f u : CStr} {required : Int32} (h : s.checkAccess f u required = true) :
    ∃ m, trieSearch s.fileTrie f = some m := by
  cases hm : trieSearch s.fileTrie f with
  | none =>
    rw [NameServer.checkAccess, hm] at h
    cases h
  | some m => exact ⟨m, rfl⟩

/-- **When the views of the folders partition the files.** -/
theorem folder_views {es : List (NmRequest × Option Message)} (h : Run Answered initNameServer es s) :
    FolderViews es s := by
  have hinv := FolderInv.of_run h
  refine ⟨fun prior msg reply t htype halone hfits => ?_, fun f u hread => ?_⟩
  · rw [(HandledBy.viewFolder htype).eq] at halone
    exact handleViewFolder_reply halone hfits
  obtain ⟨m, hm⟩ := found_of_checkAccess hread
  have hfolder : movedTo es f = m.folderPath := by rw [← hinv.folder f, folderOf_of_found hm]
  have hthere : s.HasFolder m.folderPath := hfolder ▸ hinv.there f
  have hshown (path : CStr) : f ∈ s.folderNames u path ↔
      f ∈ (trieNames s.fileTrie).take MAX_FILES ∧ inFolder path m = true := mem_folderNames hinv.named hm hread
  rw [hfolder]
  constructor
  · intro hviews
    have hown := (hviews m.folderPath).mpr (Or.inr rfl)
    obtain ⟨hfirst, hin⟩ := (hshown _).mp hown.2
    refine ⟨fun hname => ?_, hfirst⟩
    rw [not_shown hname] at hin
    cases hin
  · rintro ⟨hname, hfirst⟩ path
    rw [hshown, and_iff_right hfirst]
    exact inFolder_iff hthere hname

/-! ## Runs that can be evaluated -/

/-- Requests that are handled one after another, with what is sent at their ends. -/
def answerAll : NameServer → List NmRequest → Option (List (NmRequest × Option Message) × NameServer)
  | s, [] => some ([], s)
  | s, req :: reqs =>
    match runAlone oneCall (nmBody req) s with
    | none => none
    | some (answer, t) => (answerAll t reqs).map fun r => ((req, answer) :: r.1, r.2)

theorem run_answerAll {reqs : List NmRequest} {es : List (NmRequest × Option Message)}
    (h : answerAll s reqs = some (es, t)) : Run Answered s es t := by
  induction reqs generalizing s es with
  | nil =>
    obtain ⟨rfl, rfl⟩ := Prod.mk.inj (Option.some.inj h)
    exact .nil
  | cons req reqs ih =>
    rw [answerAll] at h
    split at h
    · cases h
    · rename_i answer u hhandled
      obtain ⟨⟨es', t'⟩, hrest, he⟩ := Option.map_eq_some_iff.mp h
      obtain ⟨rfl, rfl⟩ := Prod.mk.inj he
      exact Run.cons (alone_oneCall hhandled) (ih hrest)

/-- A file is created, a folder too, and the file is moved. -/
def movesTo (path : CStr) : List NmRequest :=
  [registers 1 [], createOne,
    .client initMessage { asks MSG_CREATEFOLDER (lit "a") [] 0 0 with
      foldername := .strncpy (MAX_FILENAME - 1) (lit "d") },
    .client initMessage { asks MSG_MOVE (lit "a") (lit "n") 0 0 with targetPath := .strncpy (MAX_PATH - 1) path }]

theorem run_movesTo (path : CStr)
    (h : (answerAll initNameServer (movesTo path)).map (fun r => (movedTo r.1 (lit "n"),
      r.2.checkAccess (lit "n") (lit "a") ACCESS_READ,
      decide (lit "n" ∈ (trieNames r.2.fileTrie).take MAX_FILES))) = some (path, true, true)) :
    ∃ es s, Run Answered initNameServer es s ∧ movedTo es (lit "n") = path ∧
      s.checkAccess (lit "n") (lit "a") ACCESS_READ = true ∧ lit "n" ∈ (trieNames s.fileTrie).take MAX_FILES := by
  obtain ⟨⟨es, s⟩, hs, he⟩ := Option.map_eq_some_iff.mp h
  obtain ⟨hmoved, he⟩ := Prod.mk.inj he
  obtain ⟨hreads, hfirst⟩ := Prod.mk.inj he
  exact ⟨es, s, run_answerAll hs, hmoved, hreads, of_decide_eq_true hfirst⟩

theorem folder_views_sample : ∃ es s, movedTo es (lit "n") = lit "/d" ∧
    s.checkAccess (lit "n") (lit "a") ACCESS_READ = true ∧ FolderViews es s := by
  obtain ⟨es, s, hrun, hmoved, hreads, -⟩ := run_movesTo (lit "/d") (by decide +kernel)
  exact ⟨es, s, hmoved, hreads, folder_views hrun⟩

/-- **A file that is moved to `/` is in no view.** -/
theorem moved_out_of_view : ∃ es s, Run Answered initNameServer es s ∧ movedTo es (lit "n") = lit "/" ∧
    s.checkAccess (lit "n") (lit "a") ACCESS_READ = true ∧
    lit "n" ∈ (trieNames s.fileTrie).take MAX_FILES ∧
    ¬ ∃ path, lit "n" ∈ s.folderNames (lit "a") path := by
  obtain ⟨es, s, hrun, hmoved, hreads, hfirst⟩ := run_movesTo (lit "/") (by decide +kernel)
  refine ⟨es, s, hrun, hmoved, hreads, hfirst, ?_⟩
  have hinv := FolderInv.of_run hrun
  obtain ⟨m, hm⟩ := found_of_checkAccess hreads
  have hname : m.folderPath = lit "/" := by rw [← folderOf_of_found hm, hinv.folder, hmoved]
  rintro ⟨path, hshown⟩
  have hin := ((mem_folderNames hinv.named hm hreads).mp hshown).2
  rw [not_shown hname path] at hin
  cases hin

end NetworkFileShare
