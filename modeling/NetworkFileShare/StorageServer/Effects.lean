import NetworkFileShare.StorageServer.FileCalls

/-!
# What an operation may do (`ss.c`, `file_ops.c`)

A file may have several names: the path `p` names the file `ρ p`, as long as no folder is made.

* `FsOp.On R W D`, `only_handle` : the paths that the calls of an operation read, write and remove;
* `Operation.changes ρ` : the files an operation may change, `left_frame` : no instant of it changes another;
* `Tables`, `returns_handle` : the tables it leaves, whatever its calls answer;
* `handled_effect` : both, for an operation run to its end; `storeInv_of_steps`.
-/

namespace NetworkFileShare

/-! ## The paths of an operation -/

/-- The copies that a commit works off: those that wait, and that of its own session. -/
def CommitCopy (s : StorageServer) (f : Filename) (u : Username) (i : Int32) (p : Path) : Prop :=
  p = tempPath s.id f u i ∨ ∃ e ∈ s.pendingOf f, p = e.tempFilepath

/-- The paths that an operation reads. -/
def Operation.reads (s : StorageServer) : Operation → Path → Prop
  | .client (.read f), p | .client (.lockSentence f _ _), p => p = s.path f
  | .client (.write f u i _ _), p => InPlay s f u i ∧ p = tempPath s.id f u i
  | .client (.unlockSentence f u i), p => InPlay s f u i ∧ (p = s.path f ∨ CommitCopy s f u i p)
  | .client (.cancelWrite ..), _ => False
  | .client (.undo f), p => p = undoPath (s.path f)
  | .command (.checkpoint f tag), p | .command (.revert f tag), p => p = s.path f ∨ p = checkpointPath (s.path f) tag
  | .command (.viewCheckpoint f tag), p => p = checkpointPath (s.path f) tag
  | .command (.create f), p | .command (.readContent f), p => p = s.path f
  | .command (.move ..), _ | .command (.delete _), _ | .command (.checkLocks _), _ => False

/-- The paths that an operation changes, if it makes a file that is not there. -/
def Operation.writes (s : StorageServer) (op : Operation) (p : Path) : Prop :=
  match op with
  | .client (.unlockSentence f u i) =>
    InPlay s f u i ∧ (p = s.path f ∨ p = undoPath (s.path f) ∨ CommitCopy s f u i p)
  | .command (.checkpoint f tag) => p = checkpointPath (s.path f) tag
  | .command (.create f) => p = s.path f
  | op => op.touched s p

/-- The paths that an operation removes. -/
def Operation.removes (s : StorageServer) : Operation → Path → Prop
  | .client (.lockSentence f u i), p => p = tempPath s.id f u i
  | .client (.unlockSentence f u i), p => InPlay s f u i ∧ CommitCopy s f u i p
  | .client (.cancelWrite f u i), p => InPlay s f u i ∧ p = tempPath s.id f u i
  | .client (.undo f), p => p = undoPath (s.path f)
  | .command (.move f old _), p => Moved s.id f old p
  | .command (.delete f), p => p = s.path f ∨ p = undoPath (s.path f)
  | _, _ => False

/-- The paths of an operation. -/
def Operation.spells (s : StorageServer) (op : Operation) (p : Path) : Prop := op.reads s p ∨ op.writes s p

namespace Stdio

open FsOp (perform)
open Prog (Only)

/-! ## The paths of the calls -/

/-- The call reads paths of `R` only, makes or writes paths of `W` only, and removes paths of `D` only. -/
def FsOp.On (R W D : Path → Prop) : FsOp → Prop
  | .access path | .fopenRead path | .fread path => R path
  | .fopenWrite path => W path
  | .unlink path => D path
  | .rename old new => D old ∧ W new
  | .fwrite _ | .fclose => True

theorem On.mono {R W D R' W' D' : Path → Prop} (hr : ∀ p, R p → R' p) (hw : ∀ p, W p → W' p)
    (hd : ∀ p, D p → D' p) {op : FsOp} (h : op.On R W D) : op.On R' W' D' := by
  cases op with
  | access path | fopenRead path | fread path => exact hr path h
  | fopenWrite path => exact hw path h
  | unlink path => exact hd path h
  | rename old new => exact ⟨hd old h.1, hw new h.2⟩
  | fwrite bytes | fclose => trivial

section
variable {R W D : Path → Prop} {path src dst : Path} {s : StorageServer} {f : Filename} {u : Username} {i : Int32}

theorem only_access (hr : R path) : Only (FsOp.On R W D) (perform (.access path)) := Only.perform hr

theorem only_fopenRead (hr : R path) : Only (FsOp.On R W D) (perform (.fopenRead path)) := Only.perform hr

theorem only_unlink (hd : D path) : Only (FsOp.On R W D) (perform (.unlink path)) := Only.perform hd

theorem only_rename (hsrc : D src) (hdst : W dst) : Only (FsOp.On R W D) (perform (.rename src dst)) :=
  Only.perform ⟨hsrc, hdst⟩

theorem only_fwriteAll : ∀ pieces : List CStr, Only (FsOp.On R W D) (fwriteAll pieces)
  | [] => Only.pure _
  | _ :: pieces => Only.bind (Only.perform trivial) fun _ => only_fwriteAll pieces

theorem only_writing {body : FsProg Unit} (hw : W path) (hbody : Only (FsOp.On R W D) body) :
    Only (FsOp.On R W D) (writing path body) :=
  Only.bind (Only.perform hw) fun _ => Only.ite
    (hbody.bind fun _ => Only.bind (Only.perform trivial) fun _ => Only.pure _) (Only.pure _)

theorem only_writePieces {pieces : List CStr} (hw : W path) : Only (FsOp.On R W D) (writePieces path pieces) :=
  only_writing hw (only_fwriteAll pieces)

theorem only_copyInto (hr : R src) (hw : W dst) : Only (FsOp.On R W D) (copyInto src dst) :=
  only_writing hw (Only.bind (Only.perform hr) fun _ => only_fwriteAll _)

theorem only_copyFile (hr : R src) (hw : W dst) : Only (FsOp.On R W D) (copyFile src dst) := by
  refine Only.bind (only_fopenRead hr) fun stream => ?_
  cases stream with
  | none => exact Only.pure _
  | some text => exact (only_copyInto hr hw).bind fun _ => Only.ite (Only.pure _) (Only.pure _)

theorem only_copyToTemp (hr : R src) (hw : W dst) : Only (FsOp.On R W D) (copyToTemp src dst) := by
  refine Only.bind (only_fopenRead hr) fun stream => ?_
  cases stream with
  | none => exact only_writePieces hw
  | some text => exact only_copyInto hr hw

theorem only_parseFile (hr : R path) : Only (FsOp.On R W D) (parseFile path) :=
  Only.bind (only_fopenRead hr) fun _ => Only.pure _

theorem only_drop {α : Type} {a : α} (hd : D path) :
    Only (FsOp.On R W D) (do let _ ← perform (.unlink path); return a) := (only_unlink hd).bind fun _ => Only.pure _

theorem only_createUndoBackup (hr : R path) (hundo : W (undoPath path)) :
    Only (FsOp.On R W D) (createUndoBackup path) := by
  refine (only_copyFile hr hundo).bind fun copied => ?_
  cases copied <;> exact Only.pure _

theorem only_restoreFromUndo (hr : R (undoPath path)) (hw : W path) (hundo : D (undoPath path)) :
    Only (FsOp.On R W D) (restoreFromUndo path) := by
  refine Only.bind (only_access hr) fun _ => Only.ite ((only_copyFile hr hw).bind fun copied => ?_) (Only.pure _)
  cases copied with
  | done => exact only_drop hundo
  | noSource | noTarget => exact Only.pure _

theorem only_undoRequest (hr : R (undoPath (s.path f))) (hw : W (s.path f)) (hundo : D (undoPath (s.path f))) :
    Only (FsOp.On R W D) (undoRequest s f) :=
  (only_access hr).bind fun _ => Only.ite (only_restoreFromUndo hr hw hundo) (Only.pure _)

theorem only_createCheckpoint {tag : Tag} (hr : R path) (hcheck : R (checkpointPath path tag))
    (hw : W (checkpointPath path tag)) : Only (FsOp.On R W D) (createCheckpoint path tag) :=
  (only_access hcheck).bind fun _ => Only.ite (Only.pure _) ((only_copyFile hr hw).bind fun _ => Only.pure _)

theorem only_viewCheckpoint {tag : Tag} (hr : R (checkpointPath path tag)) :
    Only (FsOp.On R W D) (viewCheckpoint path tag) := by
  refine Only.bind (only_fopenRead hr) fun stream => ?_
  cases stream <;> exact Only.pure _

theorem only_revertToCheckpoint {tag : Tag} (hr : R path) (hcheck : R (checkpointPath path tag)) (hw : W path)
    (hundo : W (undoPath path)) : Only (FsOp.On R W D) (revertToCheckpoint path tag) := by
  refine Only.bind (only_access hcheck) fun _ => Only.ite ?_ (Only.pure _)
  exact (only_createUndoBackup hr hundo).bind fun _ => (only_copyFile hcheck hw).bind fun _ => Only.pure _

theorem only_removeWriteSession (hd : ∀ w, getWriteSession s f u i = some w → D w.tempFilepath) :
    Only (FsOp.On R W D) (removeWriteSession s f u i) := by
  unfold removeWriteSession
  cases hget : getWriteSession s f u i with
  | none => exact Only.pure _
  | some w => exact only_drop (hd w hget)

theorem only_startWriteSession (hs : SessionsOk s.id s.writeSessions) (hr : R (s.path f))
    (hw : W (tempPath s.id f u i)) (hd : D (tempPath s.id f u i)) :
    Only (FsOp.On R W D) (startWriteSession s f u i) := by
  refine (only_parseFile hr).bind fun content => ?_
  cases hcreate : createWriteSession s f u i ((content.map (·.sentenceCount)).getD 0) with
  | none => exact Only.pure _
  | some t =>
    obtain ⟨ws, rfl, -, -, hsessions, -⟩ := createWriteSession_spec hcreate
    -- every session that is found has the name of the new copy
    have htemp : ∀ w, getWriteSession { s with writeSessions := ws } f u i = some w →
        w.tempFilepath = tempPath s.id f u i := fun w hget =>
      (hsessions hs).temp_eq (mem_of_getWriteSession hget).1 (mem_of_getWriteSession hget).2
    dsimp only
    cases hget : getWriteSession { s with writeSessions := ws } f u i with
    | none => exact Only.pure _
    | some w =>
      refine (only_copyToTemp hr (htemp w hget ▸ hw)).bind fun _ => Only.ite (Only.pure _) ?_
      exact (only_removeWriteSession fun w hget => htemp w hget ▸ hd).bind fun _ => Only.pure _

theorem only_writeFileSs {wordIdx : Int32} {data : CStr}
    (hw : ∀ w, getWriteSession s f u i = some w → R w.tempFilepath ∧ W w.tempFilepath) :
    Only (FsOp.On R W D) (writeFileSs s f u i wordIdx data) := by
  unfold writeFileSs
  cases hget : getWriteSession s f u i with
  | none => exact Only.pure _
  | some w =>
    refine (only_parseFile (hw w hget).1).bind fun content => Only.ite (Only.pure _) ?_
    cases insertWordInSentence (copyContent content) i.toInt wordIdx.toInt data with
    | none => exact Only.pure _
    | some r => exact (only_writePieces (hw w hget).2).bind fun _ => Only.ite (Only.pure _) (Only.pure _)

theorem only_commitEntry {entry : CommitQueueEntry} (hr : R path) (hw : W path)
    (hcopy : R entry.tempFilepath ∧ D entry.tempFilepath) : Only (FsOp.On R W D) (commitEntry path entry) := by
  refine (only_parseFile hr).bind fun _ => (only_parseFile hcopy.1).bind fun temp => ?_
  cases temp with
  | none => exact only_drop hcopy.2
  | some temp =>
    exact Only.ite (only_drop hcopy.2)
      ((only_writePieces hw).bind fun _ => Only.ite (only_drop hcopy.2) (Only.pure _))

theorem only_processEntries (hr : R path) (hw : W path) : ∀ {entries : List CommitQueueEntry},
    (∀ e ∈ entries, R e.tempFilepath ∧ D e.tempFilepath) → Only (FsOp.On R W D) (processEntries path entries)
  | [], _ => Only.pure _
  | entry :: _, hcopies => (only_commitEntry hr hw (hcopies entry List.mem_cons_self)).bind fun _ =>
    Only.ite (only_processEntries hr hw fun e he => hcopies e (List.mem_cons_of_mem _ he)) (Only.pure _)

theorem only_processCommitQueue (hr : R (s.path f)) (hw : W (s.path f)) (hundo : W (undoPath (s.path f)))
    (hcopies : ∀ e ∈ s.pendingOf f, R e.tempFilepath ∧ D e.tempFilepath) :
    Only (FsOp.On R W D) (processCommitQueue s f) := by
  unfold StorageServer.pendingOf entriesOf at hcopies
  unfold processCommitQueue
  cases hfind : s.commitQueues.find? (·.filename = f) with
  | none => exact Only.pure _
  | some queue =>
    rw [hfind] at hcopies
    refine Only.bind (Only.ite (Only.pure _) ((only_createUndoBackup hr hundo).bind fun _ => Only.pure _)) fun _ => ?_
    exact (only_processEntries hr hw hcopies).bind fun _ => Only.pure _

theorem only_lockRequest {io : Io} (hs : SessionsOk s.id s.writeSessions) (hr : R (s.path f))
    (htemp : (lockSentence io s f i u).2 = SUCCESS → W (tempPath s.id f u i) ∧ D (tempPath s.id f u i)) :
    Only (FsOp.On R W D) (lockRequest io s f u i) := by
  obtain ⟨tables, hlock, -⟩ := lockSentence_spec io s f i u
  refine (only_parseFile hr).bind fun _ => Only.ite (Only.pure _) ?_
  rcases hres : lockSentence io s f i u with ⟨t, status⟩
  rw [hres] at hlock htemp
  obtain rfl : t = { s with fileLocks := tables } := hlock
  dsimp only
  split
  · obtain ⟨hw, hd⟩ := htemp ‹_›
    refine (only_startWriteSession (s := { s with fileLocks := tables }) hs hr hw hd).bind fun started => ?_
    obtain ⟨t, sessionStatus⟩ := started
    exact Only.ite (Only.pure _) (Only.pure _)
  · exact Only.pure _

theorem only_readFileSs (hr : R (s.path f)) : Only (FsOp.On R W D) (readFileSs s f) := by
  refine Only.bind (only_fopenRead hr) fun stream => ?_
  cases stream <;> exact Only.pure _

theorem only_commitWriteSession (hs : StoreInv s)
    (hmain : (getWriteSession s f u i).isSome → R (s.path f) ∧ W (s.path f) ∧ W (undoPath (s.path f)))
    (hcopies : (getWriteSession s f u i).isSome → ∀ p, CommitCopy s f u i p → R p ∧ D p) :
    Only (FsOp.On R W D) (commitWriteSession s f u i) := by
  unfold commitWriteSession
  cases hget : getWriteSession s f u i with
  | none => exact Only.pure _
  | some w =>
    rw [hget] at hmain hcopies
    have hfound := hcopies rfl
    have hown : ∀ v, getWriteSession s f u i = some v → CommitCopy s f u i v.tempFilepath := fun v hv =>
      Or.inl (hs.server.sessions.temp_eq (mem_of_getWriteSession hv).1 (mem_of_getWriteSession hv).2)
    dsimp only
    cases hqueue : enqueueCommit f ⟨u, i, w.originalSentenceCount, w.tempFilepath⟩ s.commitQueues with
    | none =>
      exact (only_removeWriteSession fun v hv => (hfound _ (hown v hv)).2).bind fun _ => Only.pure _
    | some queues =>
      refine (only_processCommitQueue (s := { s with
        commitQueues := queues
        writeSessions := s.writeSessions.eraseP (isSession f u i) }) (hmain rfl).1 (hmain rfl).2.1 (hmain rfl).2.2
        fun e he => hfound _ ?_).bind fun _ => Only.pure _
      rw [StorageServer.pendingOf, enqueueCommit_spec hqueue] at he
      rcases List.mem_append.mp he with hold | hnew
      · exact Or.inr ⟨e, hold, rfl⟩
      · rw [List.mem_singleton.mp hnew]
        exact hown w hget

theorem only_moveFileSs {old new : CStr} (hold : ∀ p, Moved s.id f old p → D p) (hnew : ∀ p, Moved s.id f new p → W p) :
    Only (FsOp.On R W D) (moveFileSs s f old new) :=
  Only.bind (only_rename (hold _ (Or.inl rfl)) (hnew _ (Or.inl rfl))) fun _ => Only.ite
    (Only.bind (only_rename (hold _ (Or.inr rfl)) (hnew _ (Or.inr rfl))) fun _ => Only.pure _) (Only.pure _)

end

/-! ## The calls of an operation -/

/-- **The calls of an operation** are on its paths. -/
theorem only_handle {s : StorageServer} (hs : StoreInv s) (io : Io) (op : Operation) :
    Only (FsOp.On (op.reads s) (op.writes s) (op.removes s)) (handle io s op) := by
  have htemp : ∀ {f u i w}, getWriteSession s f u i = some w → w.tempFilepath = tempPath s.id f u i := fun hw =>
    hs.server.sessions.temp_eq (mem_of_getWriteSession hw).1 (mem_of_getWriteSession hw).2
  cases op with
  | client r =>
    cases r with
    | read f => exact Only.bind (only_readFileSs (by rfl)) fun _ => Only.pure _
    | lockSentence f u i =>
      exact Only.bind (only_lockRequest hs.server.sessions (by rfl) fun _ => ⟨rfl, rfl⟩) fun _ => Only.pure _
    | write f u i wordIdx data =>
      refine (only_writeFileSs fun w hw => ?_).bind fun _ => Only.pure _
      exact ⟨⟨inPlay_of_session hw, htemp hw⟩, inPlay_of_session hw, htemp hw⟩
    | unlockSentence f u i =>
      have hplay : (getWriteSession s f u i).isSome → InPlay s f u i := fun hfound => by
        obtain ⟨w, hw⟩ := Option.isSome_iff_exists.mp hfound
        exact inPlay_of_session hw
      refine (Only.bind (only_commitWriteSession hs (fun hfound => ?_) fun hfound p hp => ?_)
        fun r => ?_).bind fun _ => Only.pure _
      · exact ⟨⟨hplay hfound, Or.inl rfl⟩, ⟨hplay hfound, Or.inl rfl⟩, hplay hfound, Or.inr (Or.inl rfl)⟩
      · exact ⟨⟨hplay hfound, Or.inr hp⟩, hplay hfound, hp⟩
      · obtain ⟨t, status⟩ := r
        exact Only.ite (Only.pure _) (Only.pure _)
    | cancelWrite f u i =>
      exact (only_removeWriteSession fun w hw => ⟨inPlay_of_session hw, htemp hw⟩).bind fun _ => Only.pure _
    | undo f => exact (only_undoRequest (by rfl) (Or.inl rfl) (by rfl)).bind fun _ => Only.pure _
  | command c =>
    cases c with
    | checkLocks f => exact Only.pure _
    | viewCheckpoint f tag => exact Only.bind (only_viewCheckpoint (by rfl)) fun _ => Only.pure _
    | readContent f => exact Only.bind (only_readFileSs (by rfl)) fun _ => Only.pure _
    | checkpoint f tag =>
      exact Only.bind (only_createCheckpoint (Or.inl rfl) (Or.inr rfl) (by rfl)) fun _ => Only.pure _
    | revert f tag =>
      exact Only.bind (only_revertToCheckpoint (Or.inl rfl) (Or.inr rfl) (Or.inl rfl) (Or.inr rfl)) fun _ => Only.pure _
    | move f old new => exact Only.bind (only_moveFileSs (fun _ => id) fun _ => Or.inr) fun _ => Only.pure _
    | create f =>
      exact Only.bind (Only.bind (only_access (by rfl)) fun _ => Only.ite (Only.pure _)
        (Only.bind (only_writePieces (by rfl)) fun _ => Only.ite (Only.pure _) (Only.pure _))) fun _ => Only.pure _
    | delete f =>
      exact Only.bind (Only.bind (only_unlink (Or.inl rfl)) fun _ => Only.ite
        (Only.bind (only_unlink (Or.inr rfl)) fun _ => Only.pure _) (Only.pure _)) fun _ => Only.pure _

theorem Operation.writes_of_removes {s : StorageServer} {op : Operation} {p : Path} (h : op.removes s p) :
    op.writes s p := by
  cases op with
  | client r =>
    cases r with
    | unlockSentence f u i => exact ⟨h.1, Or.inr (Or.inr h.2)⟩
    | undo f => exact Or.inr h
    | read f => exact h.elim
    | write f u i wordIdx data => exact h.elim
    | lockSentence f u i | cancelWrite f u i => exact h
  | command c =>
    cases c with
    | delete f => exact h
    | move f old new => exact Or.inl h
    | _ => exact h.elim

/-! ## The files of an operation -/

/-- The files that the paths of `W` name. -/
def named (ρ : Path → Path) (W : Path → Prop) (file : Path) : Prop := ∃ p, W p ∧ ρ p = file

/-- The files outside `F` are those of `d₀`, and none of them is being written. -/
structure Fs.Within (F : Path → Prop) (d₀ : Disk) (t : Fs) : Prop where
  frame : Frame F d₀ t.disk
  writing : ∀ file text, t.writing = some (file, text) → F file

section
variable {ρ : Path → Path} {io : FsIo} {R W F : Path → Prop} {d₀ d : Disk} {t : Fs} {path : Path}

theorem Fs.within_closed (F : Path → Prop) (d : Disk) : (Fs.closed d).Within F d :=
  ⟨Frame.refl F d, fun _ _ h => by cases h⟩

theorem Fs.Within.shows (h : t.Within F d₀) (hd : t.Shows d) : Frame F d₀ d := by
  unfold Fs.Shows at hd
  cases hw : t.writing with
  | none =>
    rw [hw] at hd
    exact hd ▸ h.frame
  | some w =>
    rw [hw] at hd
    obtain ⟨k, rfl⟩ := hd
    exact h.frame.trans (frame_update _ (h.writing w.1 w.2 hw) _)

/-- A call on paths of `W` changes files that they name. -/
theorem exec_within (op : FsOp) (hon : op.On R W W) (h : t.Within (named ρ W) d₀) :
    (FsOp.exec ρ io op t).2.Within (named ρ W) d₀ := by
  cases op with
  | access path | fopenRead path | fread path => exact h
  | fopenWrite path =>
    have hfile : named ρ W (ρ path) := ⟨path, hon, rfl⟩
    simp only [FsOp.exec]
    split
    · refine ⟨h.frame.trans (frame_update _ hfile _), fun file text hw => ?_⟩
      rw [← (Prod.mk.inj (Option.some.inj hw)).1]
      exact hfile
    · exact h
  | fwrite bytes =>
    refine ⟨h.frame, fun file text hw => ?_⟩
    obtain ⟨w, hw, heq⟩ := Option.map_eq_some_iff.mp hw
    rw [← (Prod.mk.inj heq).1]
    exact h.writing w.1 w.2 hw
  | fclose =>
    simp only [FsOp.exec]
    split
    · exact h
    · rename_i file text hw
      exact ⟨h.frame.trans (frame_update _ (h.writing file text hw) _), fun _ _ h => by cases h⟩
  | unlink path => exact ⟨h.frame.trans (frame_unlink _ ⟨path, hon, rfl⟩), h.writing⟩
  | rename old new =>
    simp only [FsOp.exec]
    split
    · exact h
    · split
      · exact ⟨h.frame.trans ((frame_unlink _ ⟨old, hon.1, rfl⟩).trans (frame_update _ ⟨new, hon.2, rfl⟩ _)), h.writing⟩
      · exact h

/-- **A program on paths of `W`** leaves the other files alone at every instant. -/
theorem throughout_within {α : Type} {p : FsProg α} (hp : Only (FsOp.On R W W) p) (h : t.Within (named ρ W) d₀) :
    Throughout (FsOp.exec ρ io) (Fs.Within (named ρ W) d₀) p t :=
  throughout_of_only (fun op _ hon hw => exec_within op hon hw) hp h

/-- A file that is made unless it is there. -/
theorem within_absent {α : Type} {a : α} {p : FsProg α} (hp : d (ρ path) = none → Only (FsOp.On R W W) p) :
    Throughout (FsOp.exec ρ io) (Fs.Within (named ρ W) d) (do if ← perform (.access path) then return a else p)
      (.closed d) := by
  have hstart := Fs.within_closed (named ρ W) d
  refine .bind (.perform hstart hstart) (.ite (fun _ => .pure hstart) fun habsent => ?_)
  have hnone : (d ∘ ρ) path = none := isNone_of_not_pathExists habsent
  exact throughout_within (hp hnone) hstart

end

/-- What a crash in an operation may leave on the disk. -/
def Left (ρ : Path → Path) (io : FsIo) (s : StorageServer) (op : Operation) (d : Disk) : Prop :=
  ∃ t, Passes (FsOp.exec ρ io) (.closed s.disk) (handle io.toIo s op) t ∧ t.Shows d

/-- The server, with the files that the paths name. -/
def through (ρ : Path → Path) (s : StorageServer) : StorageServer := { s with disk := s.disk ∘ ρ }

/-- The files that an operation may change. -/
def changes (ρ : Path → Path) (s : StorageServer) (op : Operation) : Path → Prop := named ρ (op.touched (through ρ s))

/-- **No instant of an operation** changes more files than the operation may. -/
theorem within_handle {s : StorageServer} (hs : StoreInv s) (ρ : Path → Path) (io : FsIo) (op : Operation) :
    Throughout (FsOp.exec ρ io) (Fs.Within (changes ρ s op) s.disk) (handle io.toIo s op) (.closed s.disk) := by
  have hstart := Fs.within_closed (changes ρ s op) s.disk
  have hwrites : (∀ p, op.writes s p → op.touched (through ρ s) p) →
      Throughout (FsOp.exec ρ io) (Fs.Within (changes ρ s op) s.disk) (handle io.toIo s op) (.closed s.disk) :=
    fun hle => throughout_within ((only_handle hs io.toIo op).mono fun _ =>
      On.mono (fun _ => id) hle fun p hp => hle p (Operation.writes_of_removes hp)) hstart
  cases op with
  | client r =>
    cases r with
    | unlockSentence f u i =>
      refine hwrites fun p ⟨hplay, hp⟩ => ⟨hplay, hp.imp_right (Or.imp_right ?_)⟩
      rintro (rfl | ⟨e, he, rfl⟩)
      · exact ⟨u, i, hplay, rfl⟩
      · have hwaits := waits_of_mem_entriesOf he
        exact ⟨e.username, e.sentenceIdx, inPlay_of_waits hwaits, hs.queues f e hwaits⟩
    | _ => exact hwrites fun _ => id
  | command c =>
    cases c with
    | checkpoint f tag =>
      refine .result (within_absent (R := fun _ => True) fun habsent => ?_) fun _ => ⟨_, rfl⟩
      exact (only_copyFile trivial ⟨rfl, habsent⟩).bind fun _ => Only.pure _
    | create f =>
      refine .result (within_absent (R := fun _ => True) fun habsent => ?_) fun _ => ⟨_, rfl⟩
      exact (only_writePieces ⟨rfl, habsent⟩).bind fun _ => Only.ite (Only.pure _) (Only.pure _)
    | _ => exact hwrites fun _ => id

theorem left_frame {ρ : Path → Path} {io : FsIo} {s : StorageServer} {op : Operation} {d : Disk} (hs : StoreInv s)
    (h : Left ρ io s op d) : Frame (changes ρ s op) s.disk d := by
  obtain ⟨t, ht, hd⟩ := h
  exact (within_handle hs ρ io op t ht).shows hd

/-! ## The tables -/

/-- The tables after an operation: the invariant holds, and no other session comes into play. -/
structure Tables (op : Operation) (s t : StorageServer) : Prop where
  id : t.id = s.id
  inv : StoreInv t
  inPlay : ∀ f u i, InPlay t f u i → InPlay s f u i ∨ op.opens = some (f, u, i)

section
variable {s : StorageServer} {f : Filename} {u : Username} {i : Int32}

theorem Tables.refl (op : Operation) (hs : StoreInv s) : Tables op s s := ⟨rfl, hs, fun _ _ _ => Or.inl⟩

theorem returns_removeWriteSession : Returns
    (· = { s with writeSessions := s.writeSessions.eraseP (isSession f u i) }) (removeWriteSession s f u i) := by
  unfold removeWriteSession
  cases hget : getWriteSession s f u i with
  | none =>
    have hnone := List.find?_eq_none.mp hget
    refine Returns.pure ?_
    rw [List.eraseP_of_forall_not fun w hw => hnone w hw]
  | some w => exact Returns.after fun _ => Returns.pure rfl

/-- The session is in the table, or it is not if there is an error; no other is new. -/
structure Started (s : StorageServer) (f : Filename) (u : Username) (i : Int32) (r : StorageServer × Int32) :
    Prop where
  tables : r.1 = { s with writeSessions := r.1.writeSessions }
  sessions : SessionsOk s.id r.1.writeSessions
  new : ∀ w ∈ r.1.writeSessions, w.key = (f, u, i) ∨ ∃ v ∈ s.writeSessions, w.key = v.key
  failed : r.2 ≠ SUCCESS → ∀ w ∈ r.1.writeSessions, w.key ≠ (f, u, i)
  found : r.2 = SUCCESS → ∃ w, getWriteSession r.1 f u i = some w

theorem createWriteSession_none {count : Nat} (h : createWriteSession s f u i count = none) :
    ∀ w ∈ s.writeSessions, w.key ≠ (f, u, i) := by
  refine key_ne_of_find?_eq_none ?_
  unfold createWriteSession at h
  cases hget : getWriteSession s f u i with
  | none => exact hget
  | some w => simp [hget] at h

theorem returns_startWriteSession (hs : SessionsOk s.id s.writeSessions) :
    Returns (Started s f u i) (startWriteSession s f u i) := by
  refine Returns.after fun content => ?_
  cases hcreate : createWriteSession s f u i ((content.map (·.sentenceCount)).getD 0) with
  | none => exact Returns.pure ⟨rfl, hs, fun w hw => Or.inr ⟨w, hw, rfl⟩, fun _ => createWriteSession_none hcreate,
      fun h => absurd (show ERR_SERVER_ERROR = SUCCESS from h) (by decide)⟩
  | some t =>
    obtain ⟨ws, rfl, ⟨w, hw, -⟩, hnew, hsessions, -⟩ := createWriteSession_spec hcreate
    have hget : getWriteSession { s with writeSessions := ws } f u i = some w := hw
    dsimp only
    rw [hget]
    refine Returns.after fun copied => Returns.ite (fun _ => Returns.pure ?_) fun _ => ?_
    · exact ⟨rfl, hsessions hs, hnew, fun h => absurd rfl h, fun _ => ⟨w, hget⟩⟩
    · refine Returns.bind returns_removeWriteSession fun t ht => Returns.pure ?_
      subst ht
      exact ⟨rfl, (hsessions hs).eraseP _, fun v hv => hnew v (List.mem_of_mem_eraseP hv),
        fun _ v hv => key_ne_of_mem_eraseP (hsessions hs).keys hv,
          fun h => absurd (show ERR_SERVER_ERROR = SUCCESS from h) (by decide)⟩

theorem returns_lockRequest (hs : StoreInv s) (io : Io) : Returns
    (fun r => Tables (.client (.lockSentence f u i)) s r.1) (lockRequest io s f u i) := by
  have hrefl := Tables.refl (.client (.lockSentence f u i)) hs
  obtain ⟨tables, hlock, hkeep, hown⟩ := lockSentence_spec io s f i u
  refine Returns.after fun _ => Returns.ite (fun _ => Returns.pure hrefl) fun _ => ?_
  rcases hres : lockSentence io s f i u with ⟨t, status⟩
  rw [hres] at hlock hown
  obtain rfl : t = { s with fileLocks := tables } := hlock
  refine Returns.ite (fun hstatus => ?_) fun _ => Returns.pure
    ⟨rfl, ⟨⟨hs.server.sessions, fun w hw => hkeep w (hs.server.held w hw)⟩, hs.queues⟩, fun _ _ _ => Or.inl⟩
  refine Returns.bind (returns_startWriteSession (s := { s with fileLocks := tables }) hs.server.sessions)
    fun r hstarted => ?_
  obtain ⟨t, sessionStatus⟩ := r
  obtain ⟨ws, rfl⟩ : ∃ ws, t = { s with fileLocks := tables, writeSessions := ws } := ⟨_, hstarted.tables⟩
  have hheld : ∀ w ∈ ws, HoldsLock tables w := by
    intro w hw
    rcases hstarted.new w hw with hkey | ⟨v, hv, hkey⟩
    · exact hown hstatus w hkey
    · exact (hkeep v (hs.server.held v hv)).of_key hkey
  have hplay : ∀ g v j, InPlay { s with fileLocks := tables, writeSessions := ws } g v j →
      InPlay s g v j ∨ some (f, u, i) = some (g, v, j) := by
    rintro g v j (⟨w, hw, hkey⟩ | hwaits)
    · rcases hstarted.new w hw with hnew | ⟨v', hv', hkey'⟩
      · exact Or.inr (congrArg some (hnew.symm.trans hkey))
      · exact Or.inl (Or.inl ⟨v', hv', hkey'.symm.trans hkey⟩)
    · exact Or.inl (Or.inr hwaits)
  refine Returns.ite (fun hfail => Returns.pure ?_) fun _ => Returns.pure
    ⟨rfl, ⟨⟨hstarted.sessions, hheld⟩, hs.queues⟩, hplay⟩
  -- the session is out of the table again, and the lock may be given back
  obtain ⟨tables', hunlock, hkeep'⟩ := unlockSentence_spec
    { s with fileLocks := tables, writeSessions := ws } f i u
  show Tables _ s (unlockSentence { s with fileLocks := tables, writeSessions := ws } f i u).1
  rw [hunlock]
  exact ⟨rfl, ⟨⟨hstarted.sessions, fun w hw => hkeep' w (hstarted.failed hfail w hw) (hheld w hw)⟩, hs.queues⟩, hplay⟩

theorem returns_processEntries (path : Path) : ∀ entries : List CommitQueueEntry,
    Returns (fun left => ∀ e ∈ left, e ∈ entries) (processEntries path entries)
  | [] => Returns.pure fun _ he => he
  | _ :: entries => Returns.after fun _ => Returns.ite
    (fun _ => (returns_processEntries path entries).mono fun _ hleft e he => List.mem_cons_of_mem _ (hleft e he))
    fun _ => Returns.pure fun _ he => he

/-- Working off a queue leaves some of its commits. -/
theorem returns_processCommitQueue : Returns (fun t => ∃ queues, t = { s with commitQueues := queues } ∧
    ∀ g e, Waits queues g e → Waits s.commitQueues g e) (processCommitQueue s f) := by
  unfold processCommitQueue
  cases hfind : s.commitQueues.find? (·.filename = f) with
  | none => exact Returns.pure ⟨_, rfl, fun _ _ h => h⟩
  | some queue =>
    refine Returns.after fun _ => Returns.bind (returns_processEntries _ queue.entries) fun left hleft =>
      Returns.pure ⟨_, rfl, fun g e => waits_left fun e he => ?_⟩
    rw [entriesOf, hfind]
    exact hleft e he

theorem returns_commitWriteSession (hs : StoreInv s) : Returns (fun r => ∃ queues,
    r.1 = { s with commitQueues := queues, writeSessions := s.writeSessions.eraseP (isSession f u i) } ∧
      ∀ g e, Waits queues g e → InPlay s g e.username e.sentenceIdx ∧
        e.tempFilepath = tempPath s.id g e.username e.sentenceIdx) (commitWriteSession s f u i) := by
  have hold : ∀ g e, Waits s.commitQueues g e → InPlay s g e.username e.sentenceIdx ∧
      e.tempFilepath = tempPath s.id g e.username e.sentenceIdx :=
    fun g e he => ⟨inPlay_of_waits he, hs.queues g e he⟩
  unfold commitWriteSession
  cases hget : getWriteSession s f u i with
  | none =>
    have hnone := List.find?_eq_none.mp hget
    refine Returns.pure ⟨s.commitQueues, ?_, hold⟩
    rw [List.eraseP_of_forall_not fun w hw => hnone w hw]
  | some w =>
    have hplay := inPlay_of_session hget
    obtain ⟨hmem, hkey⟩ := mem_of_getWriteSession hget
    dsimp only
    cases hqueue : enqueueCommit f ⟨u, i, w.originalSentenceCount, w.tempFilepath⟩ s.commitQueues with
    | none =>
      exact Returns.bind returns_removeWriteSession fun t ht => Returns.pure ⟨s.commitQueues, ht, hold⟩
    | some queues =>
      refine Returns.bind returns_processCommitQueue fun t ht => Returns.pure ?_
      obtain ⟨queues', rfl, hleft⟩ := ht
      refine ⟨queues', rfl, fun g e he => ?_⟩
      rcases waits_enqueue hqueue (hleft g e he) with he | ⟨rfl, rfl⟩
      · exact hold g e he
      · exact ⟨hplay, hs.server.sessions.temp_eq hmem hkey⟩

/-- A session that is taken out of the table, and a lock that may be given back. -/
theorem Tables.of_erase (hs : StoreInv s) {op : Operation} {queues : List FileCommitQueue}
    (hqueues : ∀ g e, Waits queues g e → InPlay s g e.username e.sentenceIdx ∧
      e.tempFilepath = tempPath s.id g e.username e.sentenceIdx) :
    Tables op s (unlockSentence
      { s with commitQueues := queues, writeSessions := s.writeSessions.eraseP (isSession f u i) } f i u).1 := by
  have hserver := hs.server.leave s.disk queues f u i
  obtain ⟨tables, hunlock, -⟩ := unlockSentence_spec
    { s with commitQueues := queues, writeSessions := s.writeSessions.eraseP (isSession f u i) } f i u
  rw [hunlock] at hserver ⊢
  refine ⟨rfl, ⟨hserver, fun g e he => (hqueues g e he).2⟩, fun g v j hplay => Or.inl ?_⟩
  exact InPlay.of_erase (s := s) (p := isSession f u i) rfl (fun e he => (hqueues g e he).1) hplay

/-- **The tables after an operation**, whatever its calls answer. -/
theorem returns_handle (hs : StoreInv s) (io : Io) (op : Operation) :
    Returns (fun r => Tables op s r.1) (handle io s op) := by
  have hrefl := Tables.refl op hs
  cases op with
  | client r =>
    cases r with
    | lockSentence f u i => exact (returns_lockRequest hs io).bind fun _ h => Returns.pure h
    | unlockSentence f u i =>
      refine Returns.bind (Returns.bind (returns_commitWriteSession hs) fun r hr => ?_) fun _ h => Returns.pure h
      obtain ⟨t, status⟩ := r
      obtain ⟨queues, rfl, hqueues⟩ := hr
      exact Returns.ite (fun _ => Returns.pure (Tables.of_erase hs hqueues)) fun _ =>
        Returns.pure (Tables.of_erase hs hqueues)
    | cancelWrite f u i =>
      refine Returns.bind returns_removeWriteSession fun t ht => Returns.pure ?_
      subst ht
      exact Tables.of_erase hs fun g e he => ⟨inPlay_of_waits he, hs.queues g e he⟩
    | read f | write f u i wordIdx data | undo f => exact Returns.after fun _ => Returns.pure hrefl
  | command c =>
    cases c with
    | create f =>
      refine Returns.bind (Q := fun r : StorageServer × Int32 => Tables (.command (.create f)) s r.1) ?_
        fun _ h => Returns.pure h
      refine Returns.after fun _ => Returns.ite (fun _ => Returns.pure hrefl) fun _ => Returns.after fun _ =>
        Returns.ite (fun _ => Returns.pure ⟨rfl, ⟨⟨hs.server.sessions, fun w hw => ?_⟩, hs.queues⟩,
          fun _ _ _ => Or.inl⟩) fun _ => Returns.pure hrefl
      obtain ⟨lock, hget, hlock⟩ := hs.server.held w hw
      exact ⟨lock, getSentenceLock_init hget, hlock⟩
    | checkLocks f => exact Returns.pure hrefl
    | _ => exact Returns.after fun _ => Returns.pure hrefl

end

/-! ## An operation that is run to its end -/

/-- The server after an operation: other files and other sessions are as they were. -/
structure Effect (ρ : Path → Path) (op : Operation) (s t : StorageServer) : Prop extends Tables op s t where
  frame : Frame (changes ρ s op) s.disk t.disk

theorem Tables.of_disk {op : Operation} {s t : StorageServer} (h : Tables op s t) (disk : Disk) :
    Tables op s { t with disk := disk } := ⟨h.id, h.inv.of_disk disk, h.inPlay⟩

theorem handled_effect {s : StorageServer} (hs : StoreInv s) (ρ : Path → Path) (io : FsIo) (op : Operation) :
    Effect ρ op s (handled ρ io s op).1 where
  toTables := ((returns_handle hs io.toIo op).runCalls _).of_disk _
  frame := (within_handle hs ρ io op _ (.last _)).frame

/-- What the program of an operation returns, it does, if it says nothing about the disk. -/
theorem handled_meets {Q : StorageServer × Reply → Prop} {io : FsIo} {s : StorageServer} {op : Operation}
    (h : Returns Q (handle io.toIo s op)) (hdisk : ∀ t reply disk, Q (t, reply) → Q ({ t with disk := disk }, reply))
    (ρ : Path → Path) : Q (handled ρ io s op) := by
  have hrun : Q (runCalls (FsOp.exec ρ io) (handle io.toIo s op) (.closed s.disk)).1 := h.runCalls _
  exact hdisk _ _ _ hrun

/-- An operation whose tables are known. -/
theorem handled_of_returns {ρ : Path → Path} {io : FsIo} {s x : StorageServer} {op : Operation}
    (h : Returns (fun r => r.1 = x) (handle io.toIo s op)) : ∃ d, (handled ρ io s op).1 = { x with disk := d } := by
  have hx : (runCalls (FsOp.exec ρ io) (handle io.toIo s op) (.closed s.disk)).1.1 = x := h.runCalls _
  refine ⟨(runCalls (FsOp.exec ρ io) (handle io.toIo s op) (.closed s.disk)).2.disk, ?_⟩
  unfold handled
  dsimp only
  rw [hx]

theorem disk_handled_unlock (ρ : Path → Path) (io : FsIo) (s : StorageServer) (f : Filename) (u : Username)
    (i : Int32) :
    (handled ρ io s (.client (.unlockSentence f u i))).1.disk =
      (runCalls (FsOp.exec ρ io) (commitWriteSession s f u i) (.closed s.disk)).2.disk := by
  show (runCalls (FsOp.exec ρ io) (unlockRequest s f u i >>= _) (.closed s.disk)).2.disk = _
  rw [runCalls_bind, unlockRequest, runCalls_bind]
  rcases runCalls (FsOp.exec ρ io) (commitWriteSession s f u i) (.closed s.disk) with ⟨⟨t, status⟩, files⟩
  dsimp only
  split <;> rfl

theorem StoreStep.effect {ρ : Path → Path} {s t : StorageServer} {e : FsIo × Operation} (h : StoreStep ρ s e t)
    (hs : StoreInv s) : Effect ρ e.2 s t := by
  rw [show t = (handled ρ e.1 s e.2).1 from h]
  exact handled_effect hs ρ e.1 e.2

/-- An operation, whatever the paths name when it comes: folders are made between two operations. -/
def AnyStoreStep (s : StorageServer) (e : FsIo × Operation) (t : StorageServer) : Prop := ∃ ρ, StoreStep ρ s e t

theorem storeInv_of_steps {s t : StorageServer} {es : List (FsIo × Operation)}
    (hs : StoreInv s) (h : Run AnyStoreStep s es t) : StoreInv t :=
  h.state_invariant hs fun _ _ _ hi ⟨_, hstep⟩ => (hstep.effect hi).inv

end Stdio
end NetworkFileShare
