import NetworkFileShare.NameServer.Handlers

/-!
# What the calls of a handler change

* `Quiet` : the calls that change neither the record of a file nor its cached copy; `KeepsRequests` : the calls that
  leave the pending requests alone; `Calm` : both; the handlers that make no others;
* `Inert` : the calls that change no trie, no copy and no pending request; `SameRecords` : nothing of these has
  changed;
* `LeavesTrie` : the calls that leave the file trie alone; `KeepsRecords` : and the pending requests too; the handlers
  that make no others.
-/

namespace NetworkFileShare

open Prog

/-- The call leaves the records of the files and their copies alone. -/
def Quiet : NmOp → Prop
  | .trieInsert _ _ | .trieUpdate _ _ | .trieDelete _ | .cachePut _ _ | .cacheRemove _ => False
  | _ => True

/-- The call leaves the pending requests alone. -/
def KeepsRequests : NmOp → Prop
  | .addRequest _ | .removeRequest _ => False
  | _ => True

/-- The call leaves the records of the files, their copies and the pending requests alone. -/
def Calm (op : NmOp) : Prop := Quiet op ∧ KeepsRequests op

theorem only_quiet {α : Type} {p : Handler α} (h : Only Calm p) : Only Quiet p := h.mono fun _ hop => hop.1

theorem exchangeWith_calm (idx : Nat) (msg : Message) : Only Calm (exchangeWith idx msg) :=
  .bind (.perform ⟨trivial, trivial⟩) fun _ => .bind (.perform ⟨trivial, trivial⟩) fun reply =>
    .bind (.perform ⟨trivial, trivial⟩) fun _ => .pure reply

theorem exchangeWith_quiet (idx : Nat) (msg : Message) : Only Quiet (exchangeWith idx msg) :=
  only_quiet (exchangeWith_calm idx msg)

theorem handleRequestAccess_quiet (msg : Message) : Only Quiet (handleRequestAccess msg) := by
  refine .bind (.perform trivial) fun found => ?_
  rcases found with _ | metadata
  · exact .pure _
  refine .bind (.perform trivial) fun allowed => .ite (.pure _) ?_
  refine .bind (.perform trivial) fun _ => .bind (.perform trivial) fun requests => ?_
  refine .ite (.bind (.perform trivial) fun _ => .pure _) (.ite ?_ ?_)
  · exact .bind (.perform trivial) fun now => .bind (.perform trivial) fun _ =>
      .bind (.perform trivial) fun _ => .pure _
  · exact .bind (.perform trivial) fun _ => .pure _

theorem handleDenyRequest_quiet (msg : Message) : Only Quiet (handleDenyRequest msg) := by
  refine .bind (.perform trivial) fun _ => .bind (.perform trivial) fun requests => ?_
  rcases requestAt requests msg.sentenceIndex with _ | req
  · exact .bind (.perform trivial) fun _ => .pure _
  refine .bind (.perform trivial) fun found => ?_
  rcases found with _ | metadata
  · exact .bind (.perform trivial) fun _ => .pure _
  refine .ite (.bind (.perform trivial) fun _ => .pure _) ?_
  exact .bind (.perform trivial) fun _ => .bind (.perform trivial) fun _ => .pure _

theorem viewRequestLines_calm (sender : CStr) : ∀ (i : Nat) (requests : List AccessRequest),
    Only Calm (viewRequestLines sender i requests)
  | _, [] => .pure _
  | i, r :: rs => by
    have ih := viewRequestLines_calm sender (i + 1) rs
    refine .bind (.perform ⟨trivial, trivial⟩) fun metadata => .ite ?_ ih
    exact .bind (.bind (.perform ⟨trivial, trivial⟩) fun time => .pure _) fun line => .bind ih fun rest => .pure _

theorem handleViewRequests_calm (msg : Message) : Only Calm (handleViewRequests msg) :=
  .bind (.perform ⟨trivial, trivial⟩) fun _ => .bind (.perform ⟨trivial, trivial⟩) fun _ =>
    .bind (viewRequestLines_calm _ _ _) fun _ => .bind (.perform ⟨trivial, trivial⟩) fun _ => .pure _

theorem handleCreateFolder_calm (msg : Message) : Only Calm (handleCreateFolder msg) := by
  refine .bind (.perform ⟨trivial, trivial⟩) fun found => ?_
  rcases found with _ | folder
  · refine .bind (.perform ⟨trivial, trivial⟩) fun ssId => .ite (.pure _) ?_
    refine .bind (.perform ⟨trivial, trivial⟩) fun idx => ?_
    rcases idx with _ | idx
    · exact .pure _
    refine .bind (exchangeWith_calm _ _) fun reply => .ite ?_ (.pure _)
    exact .bind (.perform ⟨trivial, trivial⟩) fun now => .bind (.perform ⟨trivial, trivial⟩) fun _ => .pure _
  · exact .pure _

theorem viewFolderLines_calm (path sender : CStr) : ∀ files : List FileMetadata,
    Only Calm (viewFolderLines path sender files)
  | [] => .pure _
  | f :: fs => by
    have ih := viewFolderLines_calm path sender fs
    exact .ite (.bind (.perform ⟨trivial, trivial⟩) fun allowed => .bind ih fun rest => .pure _) ih

theorem handleViewFolder_calm (msg : Message) : Only Calm (handleViewFolder msg) := by
  have hlist : Only Calm (listFolder msg) :=
    .bind (.perform ⟨trivial, trivial⟩) fun files => .bind (viewFolderLines_calm _ _ files) fun _ => .pure _
  refine .ite hlist (.bind (.perform ⟨trivial, trivial⟩) fun found => ?_)
  rcases found with _ | folder
  · exact .pure _
  · exact hlist

theorem viewLines_calm (showAll showDetails : Bool) (sender : CStr) : ∀ files : List FileMetadata,
    Only Calm (viewLines showAll showDetails sender files)
  | [] => .pure _
  | f :: fs => by
    have ih := viewLines_calm showAll showDetails sender fs
    have hline : Only Calm (viewLine showDetails f) :=
      .ite (.bind (.perform ⟨trivial, trivial⟩) fun time => .pure _) (.pure _)
    refine .bind (.ite (.pure _) (.perform ⟨trivial, trivial⟩)) fun hasAccess => .ite ?_ ih
    exact .bind hline fun line => .bind ih fun rest => .pure _

theorem handleList_calm : Only Calm handleList :=
  .bind (.perform ⟨trivial, trivial⟩) fun _ => .bind (.perform ⟨trivial, trivial⟩) fun _ => .pure _

/-! ## Calls that change no record -/

/-- The call leaves the tries, the cache and the pending requests alone. -/
def Inert : NmOp → Prop
  | .trieInsert _ _ | .trieUpdate _ _ | .trieDelete _ | .folderTrieInsert _ _ | .cacheGet _ | .cachePut _ _
  | .cacheRemove _ | .addRequest _ | .removeRequest _ => False
  | _ => True

/-- The tries, the cache and the pending requests are the same. -/
structure SameRecords (s t : NameServer) : Prop where
  fileTrie : t.fileTrie = s.fileTrie
  folderTrie : t.folderTrie = s.folderTrie
  cache : t.cache = s.cache
  accessRequests : t.accessRequests = s.accessRequests

namespace SameRecords
variable {s t u : NameServer}

theorem refl (s : NameServer) : SameRecords s s := ⟨rfl, rfl, rfl, rfl⟩

theorem trans (h : SameRecords s t) (h' : SameRecords t u) : SameRecords s u :=
  ⟨h'.fileTrie.trans h.fileTrie, h'.folderTrie.trans h.folderTrie, h'.cache.trans h.cache,
    h'.accessRequests.trans h.accessRequests⟩

theorem nextSsRoundRobin (s : NameServer) (outside : Int32) : SameRecords s (s.nextSsRoundRobin outside).2 := by
  unfold NameServer.nextSsRoundRobin
  split <;> exact ⟨rfl, rfl, rfl, rfl⟩

theorem registerSs (s : NameServer) (msg : Message) : SameRecords s (s.registerSs msg).2 := by
  unfold NameServer.registerSs
  dsimp only
  split
  · exact ⟨rfl, rfl, rfl, rfl⟩
  · split <;> exact ⟨rfl, rfl, rfl, rfl⟩

theorem deactivateSs (s : NameServer) (ssId : Int32) : SameRecords s (s.deactivateSs ssId) := by
  unfold NameServer.deactivateSs
  split <;> exact ⟨rfl, rfl, rfl, rfl⟩

/-- **An inert call changes no record.** -/
theorem of_exec {op : NmOp} {ans : op.Ans} (h : ExecSome NmOp.exec s ⟨op, ans⟩ t) (hop : Inert op) :
    SameRecords s t := by
  obtain ⟨env, h⟩ := h
  cases op with
  | trieInsert _ _ | trieUpdate _ _ | trieDelete _ | folderTrieInsert _ _ | cacheGet _ | cachePut _ _
  | cacheRemove _ | addRequest _ | removeRequest _ => exact hop.elim
  | nextSsRoundRobin =>
    rw [NmOp.exec] at h
    split at h
    · cases h
    · obtain rfl := congrArg Prod.snd (Option.some.inj h)
      exact nextSsRoundRobin s env.outside
  | registerSs msg =>
    obtain rfl := congrArg Prod.snd (Option.some.inj h)
    exact registerSs s msg
  | deactivateSs ssId =>
    rw [NmOp.exec] at h
    split at h
    · cases h
    · cases h
      exact deactivateSs s ssId
  | ssIndex _ _ | ssInfo _ | lock _ =>
    rw [NmOp.exec] at h
    split at h
    · cases h
    · cases h
      exact ⟨rfl, rfl, rfl, rfl⟩
  | _ =>
    cases h
    exact ⟨rfl, rfl, rfl, rfl⟩

/-- A program whose calls are inert. -/
theorem of_alone {α : Type} {p : Handler α} {a : α} (h : Alone (ExecSome NmOp.exec) s p a t) (hp : Only Inert p) :
    SameRecords s t :=
  Ensures.of_only hp (P := SameRecords s) (fun _ _ _ _ hop hs hexec => hs.trans (of_exec hexec hop)) s a t (refl s) h

end SameRecords

theorem exchangeWith_inert (idx : Nat) (msg : Message) : Only Inert (exchangeWith idx msg) :=
  .bind (.perform trivial) fun _ => .bind (.perform trivial) fun reply =>
    .bind (.perform trivial) fun _ => .pure reply

/-- What `sscanf` stores leaves a part of the record alone if each of its stores does. -/
theorem scanFields_keeps {β : Type} (part : FileMetadata → β) {stores : List (CStr → FileMetadata → FileMetadata)}
    (hstores : ∀ store ∈ stores, ∀ text m, part (store text m) = part m) (s : CStr) (m : FileMetadata) :
    part (scanFields stores s m) = part m := by
  induction stores generalizing s m with
  | nil => rfl
  | cons store stores ih =>
    have hstore := hstores store List.mem_cons_self
    rw [scanFields]
    split
    · rfl
    · exact hstore _ _
    · split
      · rw [ih fun st hst => hstores st (List.mem_cons_of_mem _ hst), hstore]
      · exact hstore _ _

/-! ## Programs that begin with a look-up -/

section
variable {α : Type} {s t : NameServer} {a : α}

theorem alone_trieSearch {filename : CStr} {k : Option FileMetadata → Handler α}
    (h : Alone (ExecSome NmOp.exec) s (perform (.trieSearch filename) >>= k) a t) :
    Alone (ExecSome NmOp.exec) s (k (trieSearch s.fileTrie filename)) a t := h.known fun _ => rfl

theorem alone_folderTrieSearch {path : CStr} {k : Option FolderMetadata → Handler α}
    (h : Alone (ExecSome NmOp.exec) s (perform (.folderTrieSearch path) >>= k) a t) :
    Alone (ExecSome NmOp.exec) s (k (trieSearch s.folderTrie path)) a t := h.known fun _ => rfl

theorem alone_trieGetAllFiles {k : List FileMetadata → Handler α}
    (h : Alone (ExecSome NmOp.exec) s (perform .trieGetAllFiles >>= k) a t) :
    Alone (ExecSome NmOp.exec) s (k (trieGetAllFiles s.fileTrie MAX_FILES)) a t := h.known fun _ => rfl

theorem alone_accessRequests {k : List AccessRequest → Handler α}
    (h : Alone (ExecSome NmOp.exec) s (perform .accessRequests >>= k) a t) :
    Alone (ExecSome NmOp.exec) s (k s.accessRequests) a t := h.known fun _ => rfl

end

/-! ## Calls that leave the trie alone -/

/-- The call leaves the file trie alone. -/
def LeavesTrie : NmOp → Prop
  | .trieInsert _ _ | .trieUpdate _ _ | .trieDelete _ => False
  | _ => True

theorem LeavesTrie.of_quiet {op : NmOp} (h : Quiet op) : LeavesTrie op := by
  cases op with
  | trieInsert _ _ | trieUpdate _ _ | trieDelete _ => exact h.elim
  | _ => trivial

/-- A program whose calls leave the trie alone. -/
theorem fileTrie_of_only {α : Type} {s t : NameServer} {p : Handler α} {a : α} (hp : Only LeavesTrie p)
    (h : Alone (ExecSome NmOp.exec) s p a t) : t.fileTrie = s.fileTrie := by
  refine Ensures.of_only hp (P := fun u => u.fileTrie = s.fileTrie) (fun u op ans v hop hu hexec => ?_) s a t rfl h
  obtain ⟨env, hexec⟩ := hexec
  rw [NmOp.exec_fileTrie hexec, ← hu]
  cases op with
  | trieInsert _ _ | trieUpdate _ _ | trieDelete _ => exact hop.elim
  | _ => rfl

/-- The call leaves the file trie and the pending requests alone. -/
def KeepsRecords (op : NmOp) : Prop := LeavesTrie op ∧ KeepsRequests op

theorem only_leavesTrie {α : Type} {p : Handler α} (h : Only KeepsRecords p) : Only LeavesTrie p :=
  h.mono fun _ hop => hop.1

theorem findSsForFile_keepsRecords (filename : CStr) : Only KeepsRecords (findSsForFile filename) := by
  refine .bind (.perform ⟨trivial, trivial⟩) fun cached => ?_
  rcases cached with _ | metadata
  · refine .bind (.perform ⟨trivial, trivial⟩) fun found => ?_
    rcases found with _ | metadata
    · exact .pure _
    · exact .bind (.perform ⟨trivial, trivial⟩) fun _ => .pure _
  · exact .pure _

theorem exchangeWith_keepsRecords (idx : Nat) (msg : Message) : Only KeepsRecords (exchangeWith idx msg) :=
  (exchangeWith_calm idx msg).mono fun _ h => ⟨.of_quiet h.1, h.2⟩

theorem handleInfo_keepsRecords (msg : Message) : Only KeepsRecords (handleInfo msg) := by
  refine .bind (.perform ⟨trivial, trivial⟩) fun found => ?_
  rcases found with _ | metadata
  · exact .pure _
  have hcurrent : Only KeepsRecords (currentInfo msg metadata) := by
    refine .bind (findSsForFile_keepsRecords _) fun ssId => .ite (.pure _) ?_
    refine .bind (.perform ⟨trivial, trivial⟩) fun slot => ?_
    rcases slot with _ | idx
    · exact .pure _
    · exact .bind (exchangeWith_keepsRecords _ _) fun _ => .pure _
  exact .bind hcurrent fun _ => .bind (.perform ⟨trivial, trivial⟩) fun _ =>
    .bind (.perform ⟨trivial, trivial⟩) fun _ => .bind (.perform ⟨trivial, trivial⟩) fun _ => .pure _

theorem handleCheckpointRequest_keepsRecords (msg : Message) : Only KeepsRecords (handleCheckpointRequest msg) := by
  refine .bind (.perform ⟨trivial, trivial⟩) fun allowed => .ite ?_ (.pure _)
  refine .bind (findSsForFile_keepsRecords _) fun ssId => .ite (.pure _) ?_
  refine .bind (.perform ⟨trivial, trivial⟩) fun slot => ?_
  rcases slot with _ | idx
  · exact .pure _
  · exact .bind (exchangeWith_keepsRecords _ _) fun _ => .pure _

theorem handleExec_keepsRecords (msg : Message) : Only KeepsRecords (handleExec msg) := by
  refine .bind (.perform ⟨trivial, trivial⟩) fun allowed => .ite ?_ (.pure _)
  refine .bind (findSsForFile_keepsRecords _) fun ssId => .ite (.pure _) ?_
  refine .bind (.perform ⟨trivial, trivial⟩) fun slot => ?_
  rcases slot with _ | idx
  · exact .pure _
  refine .bind (exchangeWith_keepsRecords _ _) fun _ => .ite (.pure _) ?_
  refine .bind (.perform ⟨trivial, trivial⟩) fun output => ?_
  rcases output with _ | output
  · exact .pure _
  · exact .pure _

end NetworkFileShare
