import NetworkFileShare.StorageServer.Effects

/-!
# One name for a file

A file may have several names, as `notes.txt` and `./notes.txt`, but no two paths of `P` name one file.

* `shown ρ P d` : the disk as the paths of `P` show it; `Fs.Showing` : so during the calls, `showing_exec` : every call
  on paths of `P` keeps it and gets the same answer;
* `handled_showing` : **an operation on paths of `P` does what the server's model says** to the disk that is shown;
  `left_showing` : so at every instant;
* `handleAll_showing` : so for operations one after another.
-/

namespace NetworkFileShare
namespace Stdio

/-! ## What the paths show -/

open Classical in
/-- The disk that the paths of `P` show. -/
noncomputable def shown (ρ : Path → Path) (P : Path → Prop) (d : Disk) : Disk :=
  fun p => if P p then d (ρ p) else none

/-- The server, with the disk that the paths of `P` show. -/
noncomputable def showing (ρ : Path → Path) (P : Path → Prop) (s : StorageServer) : StorageServer :=
  { s with disk := shown ρ P s.disk }

section
variable {ρ : Path → Path} {P : Path → Prop} {d : Disk} {p : Path}

theorem shown_of (hp : P p) : shown ρ P d p = d (ρ p) := if_pos hp

/-- A file that is changed under one of the paths. -/
theorem shown_update (hone : Set.InjOn ρ {p | P p}) (hp : P p) (content : Option CStr) :
    shown ρ P (Function.update d (ρ p) content) = Function.update (shown ρ P d) p content := by
  funext q
  by_cases hq : P q
  · rw [shown_of hq]
    by_cases heq : q = p
    · rw [heq, Function.update_self, Function.update_self]
    · rw [Function.update_of_ne heq, Function.update_of_ne fun h => heq (hone hq hp h), shown_of hq]
  · have heq : q ≠ p := fun h => hq (h ▸ hp)
    rw [Function.update_of_ne heq, shown, shown, if_neg hq, if_neg hq]

theorem shown_unlink (hone : Set.InjOn ρ {p | P p}) (hp : P p) :
    shown ρ P (NetworkFileShare.unlink d (ρ p)) = NetworkFileShare.unlink (shown ρ P d) p := shown_update hone hp none

/-- Two disks that differ in files with a path of `P` at most, and show the same. -/
theorem eq_of_shown {d' d₀ : Disk} (h : shown ρ P d = shown ρ P d') (hd : Frame (named ρ P) d₀ d)
    (hd' : Frame (named ρ P) d₀ d') : d = d' := by
  funext q
  by_cases hq : named ρ P q
  · obtain ⟨p, hp, rfl⟩ := hq
    exact (shown_of hp).symm.trans ((congrFun h p).trans (shown_of hp))
  · exact (hd q hq).trans (hd' q hq).symm

theorem StoreInv.showing {s : StorageServer} (hs : StoreInv s) (ρ : Path → Path) (P : Path → Prop) :
    StoreInv (showing ρ P s) := hs.of_disk _

end

/-! ## Call by call -/

/-- `t` has the files of `s` that the paths of `P` name, under these paths. -/
structure Fs.Showing (ρ : Path → Path) (P : Path → Prop) (s t : Fs) : Prop where
  disk : t.disk = shown ρ P s.disk
  writing : s.writing = none ∧ t.writing = none ∨
    ∃ p text, P p ∧ s.writing = some (ρ p, text) ∧ t.writing = some (p, text)

section
variable {ρ : Path → Path} {P : Path → Prop} {s t : Fs}

theorem Fs.showing_closed (ρ : Path → Path) (P : Path → Prop) (d : Disk) :
    (Fs.closed d).Showing ρ P (.closed (shown ρ P d)) := ⟨rfl, Or.inl ⟨rfl, rfl⟩⟩

theorem Fs.Showing.at (h : s.Showing ρ P t) {p : Path} (hp : P p) : t.disk p = s.disk (ρ p) := by
  rw [h.disk, shown_of hp]

theorem Fs.Showing.shows (hone : Set.InjOn ρ {p | P p}) (h : s.Showing ρ P t) {d : Disk} (hd : s.Shows d) :
    t.Shows (shown ρ P d) := by
  unfold Fs.Shows at hd ⊢
  rcases h.writing with ⟨hs, ht⟩ | ⟨p, text, hp, hs, ht⟩
  · rw [hs] at hd
    rw [ht, hd]
    exact h.disk.symm
  · rw [hs] at hd
    obtain ⟨k, rfl⟩ := hd
    rw [ht]
    refine ⟨k, ?_⟩
    rw [shown_update hone hp, h.disk]

/-- **Every call on the paths of `P`** gets the same answer. -/
theorem showing_exec (io : FsIo) (hone : Set.InjOn ρ {p | P p}) (op : FsOp) (s t : Fs) (hon : op.On P P P)
    (h : s.Showing ρ P t) : (FsOp.exec id io op t).1 = (FsOp.exec ρ io op s).1 ∧
      (FsOp.exec ρ io op s).2.Showing ρ P (FsOp.exec id io op t).2 := by
  cases op with
  | access path =>
    refine ⟨?_, h⟩
    simp only [FsOp.exec, pathExists, Function.comp_apply, id_eq, h.at hon]
  | fopenRead path =>
    refine ⟨?_, h⟩
    simp only [FsOp.exec, readFile, Function.comp_apply, id_eq, h.at hon]
  | fread path =>
    refine ⟨?_, h⟩
    simp only [FsOp.exec, id_eq, h.at hon]
  | fopenWrite path =>
    simp only [FsOp.exec, id_eq]
    split
    · refine ⟨rfl, ?_, Or.inr ⟨path, [], hon, rfl, rfl⟩⟩
      rw [h.disk, shown_update hone hon]
    · exact ⟨rfl, h⟩
  | fwrite bytes =>
    refine ⟨rfl, h.disk, ?_⟩
    rcases h.writing with ⟨hs, ht⟩ | ⟨p, text, hp, hs, ht⟩
    · exact Or.inl ⟨by simp [FsOp.exec, hs], by simp [FsOp.exec, ht]⟩
    · exact Or.inr ⟨p, text ++ bytes, hp, by simp [FsOp.exec, hs], by simp [FsOp.exec, ht]⟩
  | fclose =>
    rcases h.writing with ⟨hs, ht⟩ | ⟨p, text, hp, hs, ht⟩
    · simp only [FsOp.exec, hs, ht]
      exact ⟨trivial, h⟩
    · simp only [FsOp.exec, hs, ht]
      refine ⟨trivial, ?_, Or.inl ⟨rfl, rfl⟩⟩
      rw [shown_update hone hp, h.disk]
  | unlink path =>
    refine ⟨?_, ?_, h.writing⟩
    · simp only [FsOp.exec, id_eq, h.at hon]
    · simp only [FsOp.exec, id_eq]
      rw [shown_unlink hone hon, h.disk]
  | rename old new =>
    simp only [FsOp.exec, id_eq, h.at hon.1]
    cases s.disk (ρ old) with
    | none => exact ⟨rfl, h⟩
    | some text =>
      dsimp only
      split
      · refine ⟨rfl, ?_, h.writing⟩
        rw [shown_update hone hon.2, shown_unlink hone hon.1, h.disk]
      · exact ⟨rfl, h⟩

end

/-! ## An operation -/

/-- The paths of the operation are of `P`, and no folder has the name of the backup that an `UNDO` looks for. -/
structure Spelled (P : Path → Prop) (s : StorageServer) (e : FsIo × Operation) : Prop where
  paths : ∀ p, e.2.spells s p → P p
  folder : ∀ f, e.2 = .client (.undo f) → e.1.isFolder (undoPath (s.path f)) = false

/-- The calls of an operation on paths of `P` are on paths of `P`. -/
theorem only_of_spells {P : Path → Prop} {s : StorageServer} (hs : StoreInv s) (io : Io) {op : Operation}
    (h : ∀ p, op.spells s p → P p) : Prog.Only (FsOp.On P P P) (handle io s op) :=
  (only_handle hs io op).mono fun _ => On.mono (fun p hp => h p (Or.inl hp)) (fun p hp => h p (Or.inr hp))
    fun p hp => h p (Or.inr (Operation.writes_of_removes hp))

/-! The calls of an operation do not depend on what is on the disk before it. -/

/-- The result of an operation, with the disk `d`. -/
def onDisk {α : Type} (d : Disk) (r : StorageServer × α) : StorageServer × α := ({ r.1 with disk := d }, r.2)

section
variable (d : Disk) (s : StorageServer) (f : Filename) (u : Username) (i : Int32)

theorem getWriteSession_disk : getWriteSession { s with disk := d } f u i = getWriteSession s f u i := rfl

theorem removeWriteSession_disk : removeWriteSession { s with disk := d } f u i =
    (fun t : StorageServer => { t with disk := d }) <$> removeWriteSession s f u i := by
  unfold removeWriteSession
  rw [getWriteSession_disk]
  cases getWriteSession s f u i <;> rfl

theorem createWriteSession_disk (count : Nat) : createWriteSession { s with disk := d } f u i count =
    (createWriteSession s f u i count).map fun t => { t with disk := d } := by
  unfold createWriteSession
  rw [getWriteSession_disk]
  cases getWriteSession s f u i with
  | some w => rfl
  | none =>
    dsimp only
    split <;> rfl

theorem startWriteSession_disk : startWriteSession { s with disk := d } f u i =
    onDisk d <$> startWriteSession s f u i := by
  unfold startWriteSession
  rw [map_bind]
  refine bind_congr fun content => ?_
  rw [createWriteSession_disk]
  cases createWriteSession s f u i ((content.map (·.sentenceCount)).getD 0) with
  | none => rfl
  | some t =>
    dsimp only [Option.map_some]
    rw [getWriteSession_disk]
    cases getWriteSession t f u i with
    | none => rfl
    | some w =>
      dsimp only
      rw [map_bind]
      refine bind_congr fun copied => ?_
      cases copied with
      | true => rfl
      | false =>
        simp only [Bool.false_eq_true, if_false, removeWriteSession_disk, map_bind, bind_map_left, map_pure, onDisk]

theorem lockSentence_disk (io : Io) : lockSentence io { s with disk := d } f i u =
    onDisk d (lockSentence io s f i u) := by
  unfold lockSentence
  dsimp only
  split
  · rfl
  · split <;> rfl

theorem lockRequest_disk (io : Io) :
    lockRequest io { s with disk := d } f u i = onDisk d <$> lockRequest io s f u i := by
  unfold lockRequest
  rw [map_bind]
  refine bind_congr fun content => ?_
  rw [apply_ite (onDisk d <$> ·), lockSentence_disk]
  rcases lockSentence io s f i u with ⟨t, status⟩
  dsimp only [onDisk]
  rw [startWriteSession_disk, apply_ite (Functor.map _), map_bind, bind_map_left]
  congr 2
  refine bind_congr fun r => ?_
  simp only [onDisk, unlockSentence_disk, apply_ite (Functor.map _), map_pure]

theorem processCommitQueue_disk : processCommitQueue { s with disk := d } f =
    (fun t : StorageServer => { t with disk := d }) <$> processCommitQueue s f := by
  unfold processCommitQueue
  dsimp only
  cases s.commitQueues.find? (·.filename = f) with
  | none => rfl
  | some queue =>
    simp only [map_bind, map_pure]
    rfl

theorem commitWriteSession_disk : commitWriteSession { s with disk := d } f u i =
    onDisk d <$> commitWriteSession s f u i := by
  unfold commitWriteSession
  rw [getWriteSession_disk]
  cases getWriteSession s f u i with
  | none => rfl
  | some w =>
    dsimp only
    cases enqueueCommit f ⟨u, i, w.originalSentenceCount, w.tempFilepath⟩ s.commitQueues with
    | none =>
      dsimp only
      rw [removeWriteSession_disk, map_bind, bind_map_left]
      rfl
    | some queues =>
      have hprocess := processCommitQueue_disk d { s with
        commitQueues := queues
        writeSessions := s.writeSessions.eraseP (isSession f u i) } f
      dsimp only at hprocess ⊢
      rw [hprocess, map_bind, bind_map_left]
      rfl

theorem unlockRequest_disk : unlockRequest { s with disk := d } f u i = onDisk d <$> unlockRequest s f u i := by
  unfold unlockRequest
  rw [commitWriteSession_disk, map_bind, bind_map_left]
  refine bind_congr fun r => ?_
  simp only [onDisk, unlockSentence_disk, apply_ite (Functor.map _), map_pure]

theorem createFileSs_disk : createFileSs { s with disk := d } f = onDisk d <$> createFileSs s f := by
  unfold createFileSs
  rw [map_bind]
  refine bind_congr fun there => ?_
  rw [apply_ite (onDisk d <$> ·), map_bind]
  congr 1
  refine bind_congr fun written => ?_
  cases written <;> rfl

end

theorem readFileSs_disk (d : Disk) (s : StorageServer) (f : Filename) :
    readFileSs { s with disk := d } f = readFileSs s f := by
  unfold readFileSs
  refine bind_congr fun stream => ?_
  cases stream <;> rfl

/-- **The calls of an operation** do not depend on what is on the disk before it. -/
theorem handle_disk (d : Disk) (io : Io) (s : StorageServer) (op : Operation) :
    handle io { s with disk := d } op = onDisk d <$> handle io s op := by
  cases op with
  | client r =>
    cases r with
    | read f =>
      simp only [handle, handleClientRequest, readFileSs_disk, map_bind, map_pure]
      rfl
    | write f u i wordIdx data | undo f =>
      simp only [handle, handleClientRequest, map_bind, map_pure]
      rfl
    | lockSentence f u i =>
      show lockRequest io { s with disk := d } f u i >>= _ = onDisk d <$> (lockRequest io s f u i >>= _)
      rw [lockRequest_disk, map_bind, bind_map_left]
      rfl
    | unlockSentence f u i =>
      show unlockRequest { s with disk := d } f u i >>= _ = onDisk d <$> (unlockRequest s f u i >>= _)
      rw [unlockRequest_disk, map_bind, bind_map_left]
      rfl
    | cancelWrite f u i =>
      show removeWriteSession { s with disk := d } f u i >>= _ = onDisk d <$> (removeWriteSession s f u i >>= _)
      rw [removeWriteSession_disk, map_bind, bind_map_left]
      refine bind_congr fun t => ?_
      simp only [unlockSentence_disk, map_pure, onDisk]
  | command c =>
    cases c with
    | checkLocks f => rfl
    | create f =>
      show createFileSs { s with disk := d } f >>= _ = onDisk d <$> (createFileSs s f >>= _)
      rw [createFileSs_disk, map_bind, bind_map_left]
      rfl
    | readContent f =>
      simp only [handle, handleNmCommand, readFileSs_disk, map_bind, map_pure]
      rfl
    | _ =>
      simp only [handle, handleNmCommand, map_bind, map_pure]
      rfl

/-! ## An operation -/

section
variable {ρ : Path → Path} {P : Path → Prop} {s t : StorageServer}

/-- **An operation on paths of `P`** does what the server's model says to the disk that is shown. -/
theorem handled_showing (hone : Set.InjOn ρ {p | P p}) (hs : StoreInv s) (io : FsIo) (op : Operation)
    (hspelled : Spelled P s (io, op)) :
    op.handle io (showing ρ P s) = (showing ρ P (handled ρ io s op).1, (handled ρ io s op).2) := by
  obtain ⟨hresult, hfiles⟩ := runCalls_related (fun op => showing_exec io hone op)
    (only_of_spells hs io.toIo hspelled.paths)
    (Fs.showing_closed ρ P s.disk)
  rw [← handled_id io (StoreInv.showing hs ρ P).server.sessions op hspelled.folder]
  have hprogram : runCalls (FsOp.exec id io) (handle io.toIo (showing ρ P s) op) (.closed (shown ρ P s.disk)) =
      (onDisk (shown ρ P s.disk) (runCalls (FsOp.exec ρ io) (handle io.toIo s op) (.closed s.disk)).1,
        (runCalls (FsOp.exec id io) (handle io.toIo s op) (.closed (shown ρ P s.disk))).2) := by
    rw [← hresult, showing, handle_disk, map_eq_pure_bind, runCalls_bind, runCalls_pure]
  unfold handled
  rw [show (showing ρ P s).disk = shown ρ P s.disk from rfl, hprogram]
  simp only [onDisk, hfiles.disk, showing]

/-- **So at every instant**: what a crash leaves shows what a crash of the model leaves. -/
theorem left_showing_of_only {io : FsIo} {op : Operation} {d : Disk} (hone : Set.InjOn ρ {p | P p})
    (honly : Prog.Only (FsOp.On P P P) (handle io.toIo s op)) (h : Left ρ io s op d) :
    Left id io (showing ρ P s) op (shown ρ P d) := by
  obtain ⟨t, ht, hd⟩ := h
  obtain ⟨v, hv, hshowing⟩ := passes_related (fun op => showing_exec io hone op) honly (Fs.showing_closed ρ P s.disk) ht
  refine ⟨v, ?_, hshowing.shows hone hd⟩
  show Passes _ _ (handle io.toIo { s with disk := shown ρ P s.disk } op) v
  rw [handle_disk, map_eq_pure_bind]
  exact passes_bind.mpr (Or.inl hv)

theorem left_showing {io : FsIo} {op : Operation} {d : Disk} (hone : Set.InjOn ρ {p | P p}) (hs : StoreInv s)
    (hpaths : ∀ p, op.spells s p → P p) (h : Left ρ io s op d) : Left id io (showing ρ P s) op (shown ρ P d) :=
  left_showing_of_only hone (only_of_spells hs io.toIo hpaths) h

/-! ## Operations one after another -/

/-- Every operation of the list is on paths of `P` in the state in which it comes. -/
def SpelledAll (ρ : Path → Path) (P : Path → Prop) : StorageServer → List (FsIo × Operation) → Prop
  | _, [] => True
  | s, e :: es => Spelled P s e ∧ SpelledAll ρ P (handled ρ e.1 s e.2).1 es

theorem handleAll_showing (hone : Set.InjOn ρ {p | P p}) : ∀ {es : List (FsIo × Operation)} {s : StorageServer},
    StoreInv s → SpelledAll ρ P s es → NetworkFileShare.handleAll (showing ρ P s) es =
      (showing ρ P (handleAll ρ s es).1, (handleAll ρ s es).2)
  | [], _, _, _ => rfl
  | (io, op) :: es, s, hs, ⟨hspelled, hrest⟩ => by
    have ih := handleAll_showing hone (handled_effect hs ρ io op).inv hrest
    rw [NetworkFileShare.handleAll, handled_showing hone hs io op hspelled]
    dsimp only
    rw [ih]
    rfl

end

/-- **The server, call by call**, gives the replies of the model and comes to its tables, and to its files under the
names that the operations use, if no file has two of these names. -/
theorem handleAll_shown {ρ : Path → Path} {P : Path → Prop} {id : Int32} {disk : Disk} {es : List (FsIo × Operation)}
    (hone : Set.InjOn ρ {p | P p}) (hspelled : SpelledAll ρ P (freshServer id disk) es) :
    NetworkFileShare.handleAll (freshServer id (shown ρ P disk)) es =
      (showing ρ P (handleAll ρ (freshServer id disk) es).1, (handleAll ρ (freshServer id disk) es).2) :=
  handleAll_showing hone (StoreInv.fresh id disk) hspelled

/-- A server with a file of two sentences. -/
def startedWithNotes : StorageServer :=
  freshServer 1 fun p => if p = resolvePath (filePath 1 notes) then some (lit "A. B.") else none

/-- A file, its backup and the copy of Alice's session. -/
def notesPaths : List Path := [filePath 1 notes, undoPath (filePath 1 notes), tempPath 1 notes alice 0]

theorem handleAll_shown_notes :
    NetworkFileShare.handleAll (freshServer 1 (shown resolvePath (· ∈ notesPaths) startedWithNotes.disk))
        (asked [.lockSentence notes alice 0, .write notes alice 0 1 (lit "x"), .undo notes]) =
      (showing resolvePath (· ∈ notesPaths) (handleAll resolvePath (freshServer 1 startedWithNotes.disk)
          (asked [.lockSentence notes alice 0, .write notes alice 0 1 (lit "x"), .undo notes])).1,
        (handleAll resolvePath (freshServer 1 startedWithNotes.disk)
          (asked [.lockSentence notes alice 0, .write notes alice 0 1 (lit "x"), .undo notes])).2) := by
  have hmain : filePath 1 notes ∈ notesPaths := by simp [notesPaths]
  have hundo : undoPath (filePath 1 notes) ∈ notesPaths := by simp [notesPaths]
  have htemp : tempPath 1 notes alice 0 ∈ notesPaths := by simp [notesPaths]
  refine handleAll_shown ?_ ⟨⟨?_, fun _ _ => rfl⟩, ⟨?_, fun _ _ => rfl⟩, ⟨?_, fun _ _ => rfl⟩, trivial⟩
  · have hone : ∀ p ∈ notesPaths, ∀ q ∈ notesPaths, resolvePath p = resolvePath q → p = q := by decide
    exact hone
  · rintro p (rfl | rfl)
    · exact hmain
    · exact htemp
  · rintro p (⟨-, rfl⟩ | ⟨-, rfl⟩) <;> exact htemp
  · rintro p (rfl | rfl | rfl)
    · exact hundo
    · exact hmain
    · exact hundo

end Stdio
end NetworkFileShare
