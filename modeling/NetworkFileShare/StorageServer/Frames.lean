import NetworkFileShare.StorageServer.Commands
import NetworkFileShare.StorageServer.Locks

/-!
# What an operation leaves alone

* `Frame W d d'` : every file outside `W` is as it was (`Frame.trans`);
* `Operation.touched` : the files an operation may touch, by their names;
* `InPlay` : a session is open, or its commit waits; `StoreInv` : `ServerInv`, and the copies that wait have the
  names their sessions gave them;
* `StoreInv.handle` : every operation keeps the invariant and touches no other file; `StoreInv.of_run`.
-/

namespace NetworkFileShare

/-! ## Frames -/

/-- Every file outside `W` is as it was. -/
def Frame (W : Path → Prop) (d d' : Disk) : Prop := ∀ p, ¬ W p → d' p = d p

section Frames
variable {W : Path → Prop} {d d' d'' : Disk} {io : Io} {path undo : Path} {text : CStr}

theorem Frame.refl (W : Path → Prop) (d : Disk) : Frame W d d := fun _ _ => rfl

theorem Frame.trans (h : Frame W d d') (h' : Frame W d' d'') : Frame W d d'' :=
  fun p hp => (h' p hp).trans (h p hp)

theorem frame_update (d : Disk) {path : Path} (h : W path) (content : Option CStr) :
    Frame W d (Function.update d path content) := by
  intro p hp
  apply Function.update_of_ne
  rintro rfl
  exact hp h

theorem frame_unlink (d : Disk) (h : W path) : Frame W d (unlink d path) := frame_update d h none

theorem eq_of_writeFile (h : writeFile io d path text = some d') : d' = Function.update d path (some text) := by
  unfold writeFile at h
  split at h
  · exact (Option.some.inj h).symm
  · cases h

theorem frame_writeFile (h : writeFile io d path text = some d') (hw : W path) : Frame W d d' := by
  rw [eq_of_writeFile h]
  exact frame_update d hw _

theorem frame_createUndoBackup (io : Io) (d : Disk) (path : Path) (h : W undo) :
    Frame W d (createUndoBackup io d path undo) := fun _ hp =>
  createUndoBackup_of_ne io d fun he => hp (he ▸ h)

theorem frame_rename {fio : FsIo} {old new : Path} (h : rename fio d old new = some d') (hold : W old)
    (hnew : W new) : Frame W d d' := by
  unfold rename at h
  split at h
  · cases h
  · split at h
    · rw [← Option.some.inj h]
      exact (frame_unlink d hold).trans (frame_update _ hnew _)
    · cases h

theorem frame_commitEntry {entry : CommitQueueEntry} (h : commitEntry io path d entry = some d')
    (hw : W path) (hcopy : W entry.tempFilepath) : Frame W d d' := by
  unfold commitEntry at h
  simp only at h
  split at h
  · rw [← Option.some.inj h]
    exact frame_unlink d hcopy
  · split at h
    · rw [← Option.some.inj h]
      exact frame_unlink d hcopy
    · split at h
      · cases h
      · rename_i written
        rw [← Option.some.inj h]
        exact (frame_writeFile written hw).trans (frame_unlink _ hcopy)

theorem frame_processEntries (hw : W path) {entries : List CommitQueueEntry} :
    ∀ {d : Disk}, (∀ e ∈ entries, W e.tempFilepath) → Frame W d (processEntries io path entries d).1 := by
  induction entries with
  | nil => exact fun _ => Frame.refl W _
  | cons entry entries ih =>
    intro d hcopies
    rw [processEntries]
    cases hcommit : commitEntry io path d entry with
    | none => exact Frame.refl W d
    | some d' =>
      exact (frame_commitEntry hcommit hw (hcopies entry (by simp))).trans
        (ih fun e he => hcopies e (List.mem_cons_of_mem _ he))

theorem frame_restoreFromUndo (hw : W path) (hundo : W (undoPath path)) :
    Frame W d (restoreFromUndo io d path).1 := by
  unfold restoreFromUndo
  split
  · exact Frame.refl W d
  · split
    · exact Frame.refl W d
    · split
      · exact Frame.refl W d
      · rename_i written
        exact (frame_writeFile written hw).trans (frame_unlink _ hundo)

theorem isNone_of_not_pathExists {fio : FsIo} {disk : Disk} {p : Path} (h : ¬ pathExists fio disk p = true) :
    disk p = none := by
  by_contra hsome
  exact h (by simp [pathExists, Option.isSome_iff_ne_none.mpr hsome])

theorem frame_createCheckpoint {fio : FsIo} {tag : Tag}
    (hw : d (checkpointPath path tag) = none → W (checkpointPath path tag)) :
    Frame W d (createCheckpoint fio d path tag).1 := by
  unfold createCheckpoint
  split
  · exact Frame.refl W d
  · rename_i habsent
    split
    · exact Frame.refl W d
    · split
      · exact Frame.refl W d
      · rename_i written
        exact frame_writeFile written (hw (isNone_of_not_pathExists habsent))

theorem frame_revertToCheckpoint {fio : FsIo} {tag : Tag} (hw : W path) (hundo : W (undoPath path)) :
    Frame W d (revertToCheckpoint fio d path tag).1 := by
  unfold revertToCheckpoint
  split
  · have hbackup : Frame W d (createUndoBackup fio.toIo d path (undoPath path)) :=
      frame_createUndoBackup _ d path hundo
    simp only
    split
    · exact hbackup
    · split
      · exact hbackup
      · rename_i written
        exact hbackup.trans (frame_writeFile written hw)
  · exact Frame.refl W d

end Frames

/-! ## The files an operation may touch -/

/-- A commit of the file waits. -/
def Waits (queues : List FileCommitQueue) (f : Filename) (e : CommitQueueEntry) : Prop :=
  ∃ q ∈ queues, q.filename = f ∧ e ∈ q.entries

/-- A session of this name is open, or its commit waits. -/
def InPlay (s : StorageServer) (f : Filename) (u : Username) (i : Int32) : Prop :=
  (∃ w ∈ s.writeSessions, w.key = (f, u, i)) ∨
    ∃ e, Waits s.commitQueues f e ∧ e.username = u ∧ e.sentenceIdx = i

/-- The files that `move_file_ss` renames. -/
def Moved (id : Int32) (f : Filename) (folder : CStr) (p : Path) : Prop :=
  p = folderPath id folder f ∨ p = undoPath (folderPath id folder f)

/-- The files an operation may touch. -/
def Operation.touched (s : StorageServer) : Operation → Path → Prop
  | .client (.lockSentence f u i), p => p = tempPath s.id f u i
  | .client (.write f u i _ _), p => InPlay s f u i ∧ p = tempPath s.id f u i
  | .client (.cancelWrite f u i), p => InPlay s f u i ∧ p = tempPath s.id f u i
  | .client (.unlockSentence f u i), p => InPlay s f u i ∧
      (p = s.path f ∨ p = undoPath (s.path f) ∨ ∃ v j, InPlay s f v j ∧ p = tempPath s.id f v j)
  | .client (.undo f), p => p = s.path f ∨ p = undoPath (s.path f)
  | .client (.read _), _ => False
  | .command (.checkpoint f tag), p => p = checkpointPath (s.path f) tag ∧ s.disk p = none
  | .command (.revert f _), p => p = s.path f ∨ p = undoPath (s.path f)
  | .command (.move f old new), p => Moved s.id f old p ∨ Moved s.id f new p
  | .command (.create f), p => p = s.path f ∧ s.disk p = none
  | .command (.delete f), p => p = s.path f ∨ p = undoPath (s.path f)
  | .command (.checkLocks _), _ | .command (.viewCheckpoint ..), _ | .command (.readContent _), _ => False

/-- The session an operation may open. -/
def Operation.opens : Operation → Option (Filename × Username × Int32)
  | .client (.lockSentence f u i) => some (f, u, i)
  | _ => none

abbrev SessionKey := Filename × Username × Int32

/-- The session a request names. -/
def Request.names : Request → Option SessionKey
  | .lockSentence f u i | .write f u i _ _ | .unlockSentence f u i | .cancelWrite f u i => some (f, u, i)
  | .read _ | .undo _ => none

def Operation.names : Operation → Option SessionKey
  | .client r => r.names
  | .command _ => none

/-! ## The waiting commits -/

section Queues
variable {queues queues' : List FileCommitQueue} {f g : Filename} {e entry : CommitQueueEntry}

theorem waits_of_mem_entriesOf (h : e ∈ entriesOf f queues) : Waits queues f e := by
  unfold entriesOf at h
  cases hfind : queues.find? (·.filename = f) with
  | none => simp [hfind] at h
  | some q =>
    rw [hfind] at h
    exact ⟨q, List.mem_of_find?_eq_some hfind, by simpa using List.find?_some hfind, h⟩

theorem waits_enqueue (henter : enqueueCommit f entry queues = some queues') (h : Waits queues' g e) :
    Waits queues g e ∨ g = f ∧ e = entry := by
  obtain ⟨q, hq, hname, he⟩ := h
  unfold enqueueCommit at henter
  split at henter
  · rw [← Option.some.inj henter] at hq
    obtain ⟨r, hr, rfl⟩ := List.mem_map.mp hq
    by_cases hf : r.filename = f
    · rw [if_pos hf] at hname he
      rcases List.mem_append.mp he with he | he
      · exact Or.inl ⟨r, hr, hname, he⟩
      · exact Or.inr ⟨hname.symm.trans hf, List.mem_singleton.mp he⟩
    · rw [if_neg hf] at hname he
      exact Or.inl ⟨r, hr, hname, he⟩
  · split at henter
    · rw [← Option.some.inj henter] at hq
      rcases List.mem_append.mp hq with hq | hq
      · exact Or.inl ⟨q, hq, hname, he⟩
      · obtain rfl := List.mem_singleton.mp hq
        exact Or.inr ⟨hname.symm, List.mem_singleton.mp he⟩
    · cases henter

theorem processEntries_left (io : Io) (path : Path) {entries : List CommitQueueEntry} :
    ∀ {d : Disk}, ∀ e ∈ (processEntries io path entries d).2, e ∈ entries := by
  induction entries with
  | nil => exact fun e he => he
  | cons entry entries ih =>
    intro d e he
    rw [processEntries] at he
    cases hcommit : commitEntry io path d entry with
    | none => rwa [hcommit] at he
    | some d' =>
      rw [hcommit] at he
      exact List.mem_cons_of_mem _ (ih e he)

theorem waits_left {left : List CommitQueueEntry} (hleft : ∀ e ∈ left, e ∈ entriesOf f queues)
    (h : Waits (queues.map fun q => if q.filename = f then { q with entries := left } else q) g e) :
    Waits queues g e := by
  obtain ⟨q, hq, hname, he⟩ := h
  obtain ⟨r, hr, rfl⟩ := List.mem_map.mp hq
  by_cases hf : r.filename = f
  · rw [if_pos hf] at hname he
    have hg : g = f := hname.symm.trans hf
    rw [hg]
    exact waits_of_mem_entriesOf (hleft e he)
  · rw [if_neg hf] at hname he
    exact ⟨r, hr, hname, he⟩

/-- Working off a queue leaves some of its commits. -/
theorem waits_process {s : StorageServer} {io : Io} :
    Waits (processCommitQueue io s f).commitQueues g e → Waits s.commitQueues g e := by
  unfold processCommitQueue
  cases hfind : s.commitQueues.find? (·.filename = f) with
  | none => exact id
  | some queue =>
    refine waits_left fun e he => ?_
    rw [entriesOf, hfind]
    exact processEntries_left io _ e he

end Queues

/-! ## The invariant -/

/-- **The invariant of the server**: every waiting commit has the copy of its session. -/
structure StoreInv (s : StorageServer) : Prop where
  server : ServerInv s
  queues : ∀ f e, Waits s.commitQueues f e → e.tempFilepath = tempPath s.id f e.username e.sentenceIdx

/-- The server after an operation: it touches the files it may, and no other session comes into play. -/
structure Handled (op : Operation) (s t : StorageServer) : Prop where
  id : t.id = s.id
  inv : StoreInv t
  frame : Frame (op.touched s) s.disk t.disk
  inPlay : ∀ f u i, InPlay t f u i → InPlay s f u i ∨ op.opens = some (f, u, i)

section Handled
variable {s t : StorageServer} {f : Filename} {u : Username} {i : Int32} {io : Io}

theorem inPlay_of_session {w : WriteSession} (h : getWriteSession s f u i = some w) : InPlay s f u i :=
  Or.inl ⟨w, (mem_of_getWriteSession h).1, (mem_of_getWriteSession h).2⟩

/-- A session that is taken out of the table. -/
theorem InPlay.of_erase {g : Filename} {v : Username} {j : Int32} {p : WriteSession → Bool}
    (hsessions : t.writeSessions = s.writeSessions.eraseP p)
    (hqueues : ∀ e, Waits t.commitQueues g e → InPlay s g e.username e.sentenceIdx) (h : InPlay t g v j) :
    InPlay s g v j := by
  rcases h with ⟨w, hw, hkey⟩ | ⟨e, he, rfl, rfl⟩
  · rw [hsessions] at hw
    exact Or.inl ⟨w, List.mem_of_mem_eraseP hw, hkey⟩
  · exact hqueues e he

theorem inPlay_of_waits {e : CommitQueueEntry} (h : Waits s.commitQueues f e) :
    InPlay s f e.username e.sentenceIdx := Or.inr ⟨e, h, rfl, rfl⟩

/-- A commit ends the session, and touches what it works off. -/
theorem StoreInv.commit (h : StoreInv s) (io : Io) (f : Filename) (u : Username) (i : Int32) :
    ∃ disk queues, (commitWriteSession io s f u i).1 = { s with
        disk := disk
        commitQueues := queues
        writeSessions := s.writeSessions.eraseP (isSession f u i) } ∧
      Frame (Operation.touched s (.client (.unlockSentence f u i))) s.disk disk ∧
      ∀ g e, Waits queues g e → InPlay s g e.username e.sentenceIdx ∧
        e.tempFilepath = tempPath s.id g e.username e.sentenceIdx := by
  have hold : ∀ g e, Waits s.commitQueues g e → InPlay s g e.username e.sentenceIdx ∧
      e.tempFilepath = tempPath s.id g e.username e.sentenceIdx :=
    fun g e he => ⟨inPlay_of_waits he, h.queues g e he⟩
  unfold commitWriteSession
  cases hget : getWriteSession s f u i with
  | none =>
    have hnone := List.find?_eq_none.mp hget
    refine ⟨s.disk, s.commitQueues, ?_, Frame.refl _ _, hold⟩
    rw [List.eraseP_of_forall_not fun w hw => hnone w hw]
  | some w =>
    have hplay := inPlay_of_session hget
    obtain ⟨hmem, hkey⟩ := mem_of_getWriteSession hget
    have htemp := h.server.sessions.temp_eq hmem hkey
    simp only
    split
    · obtain ⟨disk, hremove, hframe⟩ := removeWriteSession_spec s f u i
      refine ⟨disk, s.commitQueues, hremove, fun p hp => hframe p fun v hv hvkey he => hp ?_, hold⟩
      exact ⟨hplay, Or.inr (Or.inr ⟨u, i, hplay, he.trans (h.server.sessions.temp_eq hv hvkey)⟩)⟩
    · rename_i queues hqueues
      -- the entries that are worked off: those that waited, and the session's own
      have hnew : ∀ g e, Waits queues g e → InPlay s g e.username e.sentenceIdx ∧
          e.tempFilepath = tempPath s.id g e.username e.sentenceIdx := by
        intro g e he
        rcases waits_enqueue hqueues he with he | ⟨rfl, rfl⟩
        · exact hold g e he
        · exact ⟨hplay, htemp⟩
      obtain ⟨disk, queues', hprocess, backup, hbackup, hloop⟩ := processCommitQueue_spec io
        { s with
          commitQueues := queues
          writeSessions := s.writeSessions.eraseP (isSession f u i) } f
      refine ⟨disk, queues', hprocess, ?_, fun g e he => hnew g e ?_⟩
      · have hfirst : Frame (Operation.touched s (.client (.unlockSentence f u i))) s.disk backup :=
          fun p hp => hbackup p fun he => hp ⟨hplay, Or.inr (Or.inl he)⟩
        have hrest : Frame (Operation.touched s (.client (.unlockSentence f u i))) backup
            (processEntries io (s.path f) (entriesOf f queues) backup).1 :=
          frame_processEntries ⟨hplay, Or.inl rfl⟩ fun e he => by
            obtain ⟨hplay', htemp'⟩ := hnew f e (waits_of_mem_entriesOf he)
            exact ⟨hplay, Or.inr (Or.inr ⟨_, _, hplay', htemp'⟩)⟩
        have hdisk : (processEntries io (s.path f) (entriesOf f queues) backup).1 = disk :=
          congrArg Prod.fst hloop
        rw [hdisk] at hrest
        exact hfirst.trans hrest
      · refine waits_process (?_ : Waits (processCommitQueue io { s with
          commitQueues := queues
          writeSessions := s.writeSessions.eraseP (isSession f u i) } f).commitQueues g e)
        rw [hprocess]
        exact he

theorem StoreInv.of_disk (h : StoreInv s) (disk : Disk) : StoreInv { s with disk := disk } :=
  ⟨⟨h.server.sessions, h.server.held⟩, h.queues⟩

/-- An operation that changes the disk only. -/
theorem StoreInv.kept_disk (h : StoreInv s) {op : Operation} {disk : Disk}
    (hframe : Frame (op.touched s) s.disk disk) : Handled op s { s with disk := disk } :=
  ⟨rfl, h.of_disk disk, hframe, fun _ _ _ hp => Or.inl hp⟩

theorem StoreInv.kept_same (h : StoreInv s) (op : Operation) : Handled op s s := h.kept_disk (Frame.refl _ _)

/-- An index that is not valid is not locked. -/
theorem lock_invalid (h : lockIndexInvalid (parseFile io s.disk (s.path f)) i.toInt = true) :
    handleClientRequest io s (.lockSentence f u i) = (s, ERR_INVALID_INDEX) := by
  unfold handleClientRequest
  simp only [h, if_true]

theorem StoreInv.kept_lock (h : StoreInv s) (io : Io) (f : Filename) (u : Username) (i : Int32) :
    Handled (.client (.lockSentence f u i)) s (handleClientRequest io s (.lockSentence f u i)).1 := by
  have hserver := h.server.handle io (.lockSentence f u i)
  obtain ⟨disk, tables, ws, hres, -, -, hframe, hsessions, -⟩ := h.server.lock_spec io f u i
  rw [hres] at hserver ⊢
  refine ⟨rfl, ⟨hserver, h.queues⟩, hframe, fun g v j hplay => ?_⟩
  rcases hplay with ⟨w, hw, hkey⟩ | hwaits
  · rcases hsessions w hw with ⟨-, hnew⟩ | ⟨v', hv', hkey'⟩
    · exact Or.inr (congrArg some (hnew.symm.trans hkey))
    · exact Or.inl (Or.inl ⟨v', hv', hkey'.symm.trans hkey⟩)
  · exact Or.inl (Or.inr hwaits)

theorem StoreInv.kept_write (h : StoreInv s) (io : Io) (f : Filename) (u : Username) (i wordIdx : Int32)
    (data : CStr) :
    Handled (.client (.write f u i wordIdx data)) s (handleClientRequest io s (.write f u i wordIdx data)).1 := by
  show Handled _ s (writeFileSs io s f u i wordIdx data).1
  rcases writeFileSs_cases io s f u i wordIdx data with ⟨hsame, -⟩ | ⟨w, fc, k, hget, -, hwrite⟩
  · rw [hsame]
    exact h.kept_same _
  · obtain ⟨hmem, hkey⟩ := mem_of_getWriteSession hget
    have htouched : Operation.touched s (.client (.write f u i wordIdx data)) w.tempFilepath :=
      ⟨inPlay_of_session hget, h.server.sessions.temp_eq hmem hkey⟩
    rw [hwrite]
    exact h.kept_disk (frame_update _ htouched _)

theorem StoreInv.kept_cancel (h : StoreInv s) (io : Io) (f : Filename) (u : Username) (i : Int32) :
    Handled (.client (.cancelWrite f u i)) s (handleClientRequest io s (.cancelWrite f u i)).1 := by
  have hserver := h.server.handle io (.cancelWrite f u i)
  have hres : (handleClientRequest io s (.cancelWrite f u i)).1 =
    (unlockSentence (removeWriteSession s f u i) f i u).1 := rfl
  obtain ⟨disk, hremove, hframe⟩ := removeWriteSession_spec s f u i
  obtain ⟨tables, hunlock, -⟩ := unlockSentence_spec (removeWriteSession s f u i) f i u
  rw [hres, hunlock, hremove] at hserver ⊢
  refine ⟨rfl, ⟨hserver, h.queues⟩, fun p hp => hframe p fun w hw hkey he => hp ?_, fun g v j hplay => ?_⟩
  · exact ⟨Or.inl ⟨w, hw, hkey⟩, he.trans (h.server.sessions.temp_eq hw hkey)⟩
  · refine Or.inl (InPlay.of_erase (s := s) (p := isSession f u i) ?_ (fun e he => ?_) hplay)
    · rfl
    · exact inPlay_of_waits he

theorem StoreInv.kept_unlock (h : StoreInv s) (io : Io) (f : Filename) (u : Username) (i : Int32) :
    Handled (.client (.unlockSentence f u i)) s (handleClientRequest io s (.unlockSentence f u i)).1 := by
  have hserver := h.server.handle io (.unlockSentence f u i)
  obtain ⟨disk, queues, hcommit, hframe, hqueues⟩ := h.commit io f u i
  obtain ⟨tables, hunlock, -⟩ := unlockSentence_spec (commitWriteSession io s f u i).1 f i u
  rw [handle_unlock, hunlock, hcommit] at hserver ⊢
  refine ⟨rfl, ⟨hserver, fun g e he => (hqueues g e he).2⟩, hframe, fun g v j hplay => ?_⟩
  refine Or.inl (InPlay.of_erase (s := s) (p := isSession f u i) ?_ (fun e he => ?_) hplay)
  · rfl
  · exact (hqueues g e he).1

theorem StoreInv.kept_undo (h : StoreInv s) (io : Io) (f : Filename) :
    Handled (.client (.undo f)) s (handleClientRequest io s (.undo f)).1 := by
  unfold handleClientRequest
  simp only
  split
  · exact h.kept_disk (frame_restoreFromUndo (Or.inl rfl) (Or.inr rfl))
  · exact h.kept_same _

theorem StoreInv.kept_move (h : StoreInv s) (io : FsIo) (f : Filename) (old new : CStr) :
    Handled (.command (.move f old new)) s (moveFileSs io s f old new).1 := by
  unfold moveFileSs
  simp only
  split
  · exact h.kept_same _
  · rename_i disk hrename
    have hfirst : Frame (Operation.touched s (.command (.move f old new))) s.disk disk :=
      frame_rename hrename (Or.inl (Or.inl rfl)) (Or.inr (Or.inl rfl))
    refine h.kept_disk (hfirst.trans ?_)
    cases hundo : rename io disk (undoPath (folderPath s.id old f)) (undoPath (folderPath s.id new f)) with
    | none => exact Frame.refl _ _
    | some disk' => exact frame_rename hundo (Or.inl (Or.inr rfl)) (Or.inr (Or.inr rfl))

theorem StoreInv.kept_create (h : StoreInv s) (io : FsIo) (f : Filename) :
    Handled (.command (.create f)) s (createFileSs io s f).1 := by
  unfold createFileSs
  split
  · exact h.kept_same _
  · rename_i habsent
    split
    · exact h.kept_same _
    · rename_i disk hwrite
      refine ⟨rfl, ⟨⟨h.server.sessions, fun w hw => ?_⟩, h.queues⟩,
        frame_writeFile hwrite ⟨rfl, isNone_of_not_pathExists habsent⟩, fun _ _ _ hp => Or.inl hp⟩
      obtain ⟨lock, hget, hlock⟩ := h.server.held w hw
      exact ⟨lock, getSentenceLock_init hget, hlock⟩

theorem StoreInv.kept_delete (h : StoreInv s) (f : Filename) :
    Handled (.command (.delete f)) s (deleteFileSs s f).1 := by
  unfold deleteFileSs
  split
  · exact h.kept_same _
  · exact h.kept_disk ((frame_unlink _ (Or.inl rfl)).trans (frame_unlink _ (Or.inr rfl)))

/-- **Every operation keeps the invariant**, touches the files it may, and brings its own session into play only. -/
theorem StoreInv.handle (h : StoreInv s) (io : FsIo) (op : Operation) : Handled op s (op.handle io s).1 := by
  cases op with
  | client r =>
    cases r with
    | read f => exact h.kept_same _
    | lockSentence f u i => exact h.kept_lock io.toIo f u i
    | write f u i wordIdx data => exact h.kept_write io.toIo f u i wordIdx data
    | unlockSentence f u i => exact h.kept_unlock io.toIo f u i
    | cancelWrite f u i => exact h.kept_cancel io.toIo f u i
    | undo f => exact h.kept_undo io.toIo f
  | command c =>
    cases c with
    | checkLocks f | viewCheckpoint f tag | readContent f => exact h.kept_same _
    | checkpoint f tag => exact h.kept_disk (frame_createCheckpoint fun habsent => ⟨rfl, habsent⟩)
    | revert f tag => exact h.kept_disk (frame_revertToCheckpoint (Or.inl rfl) (Or.inr rfl))
    | move f old new => exact h.kept_move io f old new
    | create f => exact h.kept_create io f
    | delete f => exact h.kept_delete f

theorem StoreInv.step (h : StoreInv s) {e : FsIo × Operation} (hstep : StoreStep s e t) : Handled e.2 s t := by
  rw [show t = (e.2.handle e.1 s).1 from hstep]
  exact h.handle e.1 e.2

theorem StoreInv.fresh (id : Int32) (disk : Disk) : StoreInv (freshServer id disk) :=
  ⟨ServerInv.of_nil rfl, fun f e ⟨q, hq, _⟩ => by cases hq⟩

/-- **The invariant holds in every state** that a server comes to. -/
theorem StoreInv.of_run {id : Int32} {disk : Disk} {es : List (FsIo × Operation)}
    (h : Run StoreStep (freshServer id disk) es s) : StoreInv s :=
  h.state_invariant (StoreInv.fresh id disk) fun _ _ _ hi hstep => (hi.step hstep).inv

end Handled

end NetworkFileShare
