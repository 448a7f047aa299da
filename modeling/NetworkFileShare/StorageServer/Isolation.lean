import NetworkFileShare.StorageServer.Shown

/-!
# Files that share a directory

A file may have several names: the path `p` names the file `ρ p`.

* `Operation.Edits` : the operations on one file, short of a move;
* `Spares`, `Spared` : operations on `f` leave another file alone, as long as no backup and no copy they make is that
  file; `files_isolated`; `undo_file_deleted` : a file with the name of a backup is lost;
* `checkpoint_kept` : so a checkpoint is shown and restored as it was taken; `checkpoint_lost` : a user whose copy is
  the checkpoint.
-/

namespace NetworkFileShare

/-- The operations on a file, short of a move. -/
def Operation.Edits (f : Filename) : Operation → Prop
  | .client (.read g) | .client (.lockSentence g _ _) | .client (.write g _ _ _ _)
  | .client (.unlockSentence g _ _) | .client (.cancelWrite g _ _) | .client (.undo g) => g = f
  | .command (.checkLocks g) | .command (.checkpoint g _) | .command (.viewCheckpoint g _)
  | .command (.revert g _) | .command (.create g) | .command (.delete g) | .command (.readContent g) => g = f
  | .command (.move ..) => False

instance (f : Filename) (op : Operation) : Decidable (op.Edits f) := by
  cases op with
  | client r => cases r <;> exact inferInstanceAs (Decidable (_ = _))
  | command c =>
    cases c with
    | move _ _ _ => exact isFalse id
    | _ => exact inferInstanceAs (Decidable (_ = _))

/-- No session has been opened. -/
theorem not_inPlay {s : StorageServer} (hsessions : s.writeSessions = []) (hqueues : s.commitQueues = [])
    (f : Filename) (u : Username) (i : Int32) : ¬ InPlay s f u i := by
  rintro (⟨w, hw, -⟩ | ⟨e, ⟨q, hq, -⟩, -⟩)
  · rw [hsessions] at hw
    cases hw
  · rw [hqueues] at hq
    cases hq

/-! ## Checkpoints -/

/-- `create_checkpoint` that succeeds has copied the file. -/
theorem createCheckpoint_success {io : FsIo} {disk disk' : Disk} {path : Path} {tag : Tag}
    (h : createCheckpoint io disk path tag = (disk', SUCCESS)) :
    ∃ m, disk path = some m ∧ disk' = Function.update disk (checkpointPath path tag) (some m) := by
  unfold createCheckpoint at h
  split at h
  · exact absurd (Prod.mk.inj h).2 (by decide)
  · split at h
    · exact absurd (Prod.mk.inj h).2 (by decide)
    · rename_i m hread
      split at h
      · exact absurd (Prod.mk.inj h).2 (by decide)
      · rename_i hwrite
        exact ⟨m, disk_of_readFile hread, (Prod.mk.inj h).1 ▸ eq_of_writeFile hwrite⟩

/-- `revert_to_checkpoint` puts the checkpoint in the place of the file. -/
theorem revertToCheckpoint_of_opens {io : FsIo} {disk : Disk} {path : Path} {tag : Tag} {m : CStr}
    (hcontent : disk (checkpointPath path tag) = some m) (hundo : checkpointPath path tag ≠ undoPath path)
    (hread : io.canRead (checkpointPath path tag) = true) (hwrite : io.canWrite path = true) :
    revertToCheckpoint io disk path tag =
      (Function.update (createUndoBackup io.toIo disk path (undoPath path)) path (some m), SUCCESS) := by
  have hexists : pathExists io disk (checkpointPath path tag) = true := by simp [pathExists, hcontent]
  have hopen : readFile io.toIo (createUndoBackup io.toIo disk path (undoPath path)) (checkpointPath path tag) =
      some m := by
    rw [readFile, if_pos hread, createUndoBackup_of_ne _ _ hundo, hcontent]
  rw [revertToCheckpoint, if_pos hexists]
  simp only [hopen, writeFile, hwrite, if_true]

/-! ## Files and their by-products -/

def commanded (cs : List NmCommand) : List (FsIo × Operation) := cs.map fun c => (FsIo.allOpens, .command c)

def fileA : Filename := .strncpy (MAX_FILENAME - 1) (lit "a")
def fileAUndo : Filename := .strncpy (MAX_FILENAME - 1) (lit "a.undo")

namespace Stdio

/-! ## What operations on a file leave alone -/

/-- Neither the backup nor the copy that an operation makes is `file`. -/
def Spares (ρ : Path → Path) (file : Path) (s : StorageServer) (e : FsIo × Operation) : Prop :=
  match e.2 with
  | .client (.lockSentence f u i) =>
    lockIndexInvalid (NetworkFileShare.parseFile e.1.toIo (s.disk ∘ ρ) (s.path f)) i.toInt = false →
      ρ (tempPath s.id f u i) ≠ file
  | .client (.unlockSentence f _ _) | .client (.undo f) | .command (.revert f _) | .command (.delete f) =>
    ρ (undoPath (s.path f)) ≠ file
  | _ => True

/-- The file has its content, and it is neither `f` nor a copy of a session on `f`. -/
structure Spared (ρ : Path → Path) (f : Filename) (file : Path) (id : Int32) (text : CStr) (s : StorageServer) :
    Prop where
  inv : StoreInv s
  sameId : s.id = id
  main : ρ (filePath id f) ≠ file
  content : s.disk file = some text
  copies : ∀ u i, InPlay s f u i → ρ (tempPath id f u i) ≠ file

section
variable {ρ : Path → Path} {f : Filename} {file : Path} {id : Int32} {text : CStr} {s t : StorageServer} {io : FsIo}
  {op : Operation}

/-- An operation on `f` does not change a file that it spares. -/
theorem Spared.not_changed (h : Spared ρ f file id text s) (hedits : op.Edits f) (hspares : Spares ρ file s (io, op))
    (hvalid : ∀ u i, op = .client (.lockSentence f u i) →
      lockIndexInvalid (NetworkFileShare.parseFile io.toIo (s.disk ∘ ρ) (s.path f)) i.toInt = false) :
    ¬ changes ρ s op file := by
  obtain rfl := h.sameId
  rintro ⟨p, htouched, rfl⟩
  match op, hedits, htouched with
  | .client (.lockSentence _ u i), rfl, hp => exact hspares (hvalid u i rfl) (congrArg ρ hp.symm)
  | .client (.write _ u i _ _), rfl, ⟨hplay, hp⟩ => exact h.copies u i hplay (congrArg ρ hp.symm)
  | .client (.cancelWrite _ u i), rfl, ⟨hplay, hp⟩ => exact h.copies u i hplay (congrArg ρ hp.symm)
  | .client (.unlockSentence _ u i), rfl, ⟨_, hp⟩ =>
    rcases hp with hp | hp | ⟨v, j, hplay, hp⟩
    · exact h.main (congrArg ρ hp.symm)
    · exact hspares (congrArg ρ hp.symm)
    · exact h.copies v j hplay (congrArg ρ hp.symm)
  | .client (.undo _), rfl, hp =>
    exact hp.elim (fun hp => h.main (congrArg ρ hp.symm)) fun hp => hspares (congrArg ρ hp.symm)
  | .command (.checkpoint _ tag), rfl, ⟨_, habsent⟩ =>
    have hnone : s.disk (ρ p) = none := habsent
    rw [h.content] at hnone
    cases hnone
  | .command (.revert _ tag), rfl, hp =>
    exact hp.elim (fun hp => h.main (congrArg ρ hp.symm)) fun hp => hspares (congrArg ρ hp.symm)
  | .command (.create _), rfl, hp => exact h.main (congrArg ρ hp.1.symm)
  | .command (.delete _), rfl, hp =>
    exact hp.elim (fun hp => h.main (congrArg ρ hp.symm)) fun hp => hspares (congrArg ρ hp.symm)

/-- An operation on `f` that has changed the files it may. -/
theorem Spared.of_effect (h : Spared ρ f file id text s) (hedits : op.Edits f) (hspares : Spares ρ file s (io, op))
    (hvalid : ∀ u i, op = .client (.lockSentence f u i) →
      lockIndexInvalid (NetworkFileShare.parseFile io.toIo (s.disk ∘ ρ) (s.path f)) i.toInt = false)
    (hres : Effect ρ op s t) : Spared ρ f file id text t := by
  refine ⟨hres.inv, hres.id.trans h.sameId, h.main, ?_, fun u i hplay => ?_⟩
  · rw [hres.frame _ (h.not_changed hedits hspares hvalid), h.content]
  · rcases hres.inPlay f u i hplay with hold | hopen
    · exact h.copies u i hold
    · cases op with
      | command c => cases hopen
      | client r =>
        cases r with
        | lockSentence g v j =>
          obtain ⟨rfl, rfl, rfl⟩ : g = f ∧ v = u ∧ j = i := by simpa [Operation.opens] using hopen
          have hname := hspares (hvalid v j rfl)
          rwa [h.sameId] at hname
        | _ => cases hopen

/-- An index that is not valid is not locked. -/
theorem handled_lock_invalid {u : Username} {i : Int32}
    (hinvalid : lockIndexInvalid (NetworkFileShare.parseFile io.toIo (s.disk ∘ ρ) (s.path f)) i.toInt = true) :
    (handled ρ io s (.client (.lockSentence f u i))).1 = s := by
  have hrun : runCalls (FsOp.exec ρ io) (handle io.toIo s (.client (.lockSentence f u i))) (.closed s.disk) =
      ((s, ⟨ERR_INVALID_INDEX, []⟩), .closed s.disk) := by
    show runCalls _ (lockRequest io.toIo s f u i >>= _) _ = _
    rw [runCalls_bind, lockRequest, runCalls_bind, runCalls_parseFile, if_pos hinvalid]
    rfl
  rw [handled, hrun]

/-- A lock on an index that is not valid, or an operation that locks nothing in vain. -/
theorem lock_invalid_or (ρ : Path → Path) (io : FsIo) (f : Filename) (s : StorageServer) (op : Operation) :
    (∃ u i, op = .client (.lockSentence f u i) ∧
      lockIndexInvalid (NetworkFileShare.parseFile io.toIo (s.disk ∘ ρ) (s.path f)) i.toInt = true) ∨
    ∀ u i, op = .client (.lockSentence f u i) →
      lockIndexInvalid (NetworkFileShare.parseFile io.toIo (s.disk ∘ ρ) (s.path f)) i.toInt = false := by
  by_cases hinvalid : ∃ u i, op = .client (.lockSentence f u i) ∧
      lockIndexInvalid (NetworkFileShare.parseFile io.toIo (s.disk ∘ ρ) (s.path f)) i.toInt = true
  · exact Or.inl hinvalid
  · refine Or.inr fun u i hop => ?_
    rw [← Bool.not_eq_true]
    exact fun hi => hinvalid ⟨u, i, hop, hi⟩

theorem Spared.step {e : FsIo × Operation} (h : Spared ρ f file id text s) (hedits : e.2.Edits f)
    (hspares : Spares ρ file s e) (hstep : StoreStep ρ s e t) : Spared ρ f file id text t := by
  obtain ⟨io, op⟩ := e
  rcases lock_invalid_or ρ io f s op with ⟨u, i, rfl, hi⟩ | hvalid
  · rwa [show t = s from Eq.trans hstep (handled_lock_invalid hi)]
  · exact h.of_effect hedits hspares hvalid (hstep.effect h.inv)

/-- **Operations on `f` leave a file alone** that they spare. -/
theorem Spared.run {es : List (FsIo × Operation)} (h : Spared ρ f file id text s) (hedits : ∀ e ∈ es, e.2.Edits f)
    (hrun : Run (Guarded (Spares ρ file) (StoreStep ρ)) s es t) : Spared ρ f file id text t :=
  hrun.invariant (I := fun es t => (∀ e ∈ es, e.2.Edits f) → Spared ρ f file id text t) (fun _ => h)
    (fun es t e u ih hstep hall =>
      (ih fun e he => hall e (by simp [he])).step (hall e (by simp)) hstep.1 hstep.2) hedits

end

/-! ## Two files -/

/-- **Operations on `a` leave `b` alone**, if they are two files and no backup or copy that is made is `b`. -/
theorem files_isolated {ρ : Path → Path} {id : Int32} {disk : Disk} {before es : List (FsIo × Operation)}
    {s t : StorageServer} {a b : Filename} {text : CStr}
    (hreach : Run AnyStoreStep (freshServer id disk) before s) (hne : ρ (s.path a) ≠ ρ (s.path b))
    (hcontent : s.disk (ρ (s.path b)) = some text)
    (hcopies : ∀ u i, InPlay s a u i → ρ (tempPath s.id a u i) ≠ ρ (s.path b))
    (hedits : ∀ e ∈ es, e.2.Edits a) (h : Run (Guarded (Spares ρ (ρ (s.path b))) (StoreStep ρ)) s es t) :
    t.disk (ρ (t.path b)) = some text := by
  have hstart : Spared ρ a (ρ (s.path b)) s.id text s :=
    ⟨storeInv_of_steps (.fresh id disk) hreach, rfl, hne, hcontent, hcopies⟩
  have hend := hstart.run hedits h
  rw [path_eq_of_id hend.sameId]
  exact hend.content

/-- `a` and another file have been created. -/
def createdWith (b : Filename) : StorageServer :=
  (handleAll resolvePath (freshServer 1 fun _ => none) (commanded [.create fileA, .create b])).1

/-- Alice edits `a`, and `a` is deleted. -/
def editedAndDeleted : List (FsIo × Operation) :=
  asked [.lockSentence fileA alice 0, .write fileA alice 0 1 (lit "x"), .unlockSentence fileA alice 0] ++
    commanded [.delete fileA]

theorem files_isolated_notes : (handleAll resolvePath (createdWith notes) editedAndDeleted).1.disk
    (resolvePath ((handleAll resolvePath (createdWith notes) editedAndDeleted).1.path notes)) = some [] := by
  have hrun : Run (Guarded (Spares resolvePath (resolvePath ((createdWith notes).path notes))) (StoreStep resolvePath))
      (createdWith notes) editedAndDeleted (handleAll resolvePath (createdWith notes) editedAndDeleted).1 :=
    Run.cons ⟨fun _ => by decide, rfl⟩ (Run.cons ⟨trivial, rfl⟩
      (Run.cons ⟨show resolvePath (undoPath _) ≠ _ by decide, rfl⟩
        (Run.cons ⟨show resolvePath (undoPath _) ≠ _ by decide, rfl⟩ .nil)))
  exact files_isolated ((run_handleAll resolvePath _ _).mono fun _ _ _ h => ⟨_, h⟩) (a := fileA) (by decide)
    (by decide)
    (fun u i hplay => absurd hplay (not_inPlay (by decide) (by decide) fileA u i)) (by decide)
    hrun

/-- **A file with the name of a backup is lost** when the file it seems to back up is deleted. -/
theorem undo_file_deleted :
    (handleAll resolvePath (freshServer 1 fun _ => none)
        (commanded [.create fileA, .create fileAUndo, .delete fileA])).2.map (·.status) =
        [SUCCESS, SUCCESS, SUCCESS] ∧
      (createdWith fileAUndo).disk (resolvePath ((createdWith fileAUndo).path fileAUndo)) = some [] ∧
      (handleAll resolvePath (createdWith fileAUndo) (commanded [.delete fileA])).1.disk
        (resolvePath ((createdWith fileAUndo).path fileAUndo)) = none := by
  refine ⟨?_, ?_, ?_⟩ <;> decide

/-! ## Checkpoints -/

/-- The paths of the file, its backup and the checkpoint. -/
def CheckpointPaths (id : Int32) (f : Filename) (tag : Tag) (p : Path) : Prop :=
  p = filePath id f ∨ p = undoPath (filePath id f) ∨ p = checkpointPath (filePath id f) tag

/-- **They are three files** where paths are resolved, if the tag has no slash. -/
theorem injOn_checkpointPaths (id : Int32) (f : Filename) {tag : Tag} (htag : slash ∉ tag.str) :
    Set.InjOn resolvePath {p | CheckpointPaths id f tag p} := by
  have hlit : (lit ".checkpoint_").length = 12 := by decide
  have hlong : 2 < (lit ".checkpoint_" ++ tag.str).length := by rw [List.length_append, hlit]; omega
  have hext : slash ∉ lit ".checkpoint_" ++ tag.str := fun h =>
    (List.mem_append.mp h).elim (fun h => absurd h (by decide)) htag
  have hpath := slash_mem_filePath id f
  have hundo : resolvePath (undoPath (filePath id f)) ≠ resolvePath (filePath id f) :=
    resolvePath_undoPath_ne_filePath id f
  have hfile : resolvePath (checkpointPath (filePath id f) tag) ≠ resolvePath (filePath id f) := by
    rw [checkpointPath_eq, List.append_assoc]
    exact resolvePath_append_ne hpath hext hlong
  have hbackup : resolvePath (checkpointPath (filePath id f) tag) ≠ resolvePath (undoPath (filePath id f)) := by
    intro he
    refine checkpointPath_ne_undoPath id f tag ?_
    rw [checkpointPath_eq, undoPath_eq, List.append_assoc] at he ⊢
    rw [resolvePath_append_inj hpath hext hlong (by decide) (by decide) he]
  rintro p (rfl | rfl | rfl) q (rfl | rfl | rfl) he
  · rfl
  · exact absurd he.symm hundo
  · exact absurd he.symm hfile
  · exact absurd he hundo
  · rfl
  · exact absurd he.symm hbackup
  · exact absurd he hfile
  · exact absurd he hbackup
  · rfl

section
variable {ρ : Path → Path} {id : Int32} {s t : StorageServer} {f : Filename} {tag : Tag} {m : CStr}

/-- A checkpoint that is taken has the content of the file, and is spared from then on. -/
theorem spared_checkpoint {io : FsIo} {data : CStr} (hs : StoreInv s)
    (hone : Set.InjOn ρ {p | CheckpointPaths s.id f tag p})
    (hcopies : ∀ u i, InPlay s f u i → ρ (tempPath s.id f u i) ≠ ρ (checkpointPath (s.path f) tag))
    (htaken : handled ρ io s (.command (.checkpoint f tag)) = (t, ⟨SUCCESS, data⟩)) :
    ∃ m, s.disk (ρ (s.path f)) = some m ∧ Spared ρ f (ρ (checkpointPath (s.path f) tag)) s.id m t := by
  have hfirst := handled_effect hs ρ io (.command (.checkpoint f tag))
  rw [htaken] at hfirst
  have hpath : CheckpointPaths s.id f tag (s.path f) := Or.inl rfl
  have hcheck : CheckpointPaths s.id f tag (checkpointPath (s.path f) tag) := Or.inr (Or.inr rfl)
  -- what the three paths show before and after
  have hshown := handled_showing hone hs io (.command (.checkpoint f tag))
    ⟨fun p hp => hp.elim (fun hp => hp.elim (fun hp => hp ▸ hpath) fun hp => hp ▸ hcheck) fun hp => hp ▸ hcheck,
      fun _ hop => by cases hop⟩
  rw [htaken] at hshown
  have hcreate : NetworkFileShare.createCheckpoint io (shown ρ (CheckpointPaths s.id f tag) s.disk) (s.path f) tag =
      (shown ρ (CheckpointPaths s.id f tag) t.disk, SUCCESS) :=
    Prod.ext (congrArg (fun r => r.1.disk) hshown) (congrArg (fun r => r.2.status) hshown)
  obtain ⟨m, hm, hdisk⟩ := createCheckpoint_success hcreate
  rw [shown_of hpath] at hm
  refine ⟨m, hm, hfirst.inv, hfirst.id, fun he => ?_, ?_, fun u i hplay => ?_⟩
  · exact checkpointPath_ne_filePath s.id f tag (hone hpath hcheck he).symm
  · have hafter : shown ρ (CheckpointPaths s.id f tag) t.disk (checkpointPath (s.path f) tag) = some m := by
      rw [hdisk, Function.update_self]
    rwa [shown_of hcheck] at hafter
  · exact hcopies u i ((hfirst.inPlay f u i hplay).resolve_right fun hop => by cases hop)

/-- A checkpoint that has been spared is shown, and `REVERT` puts it in the place of the file. -/
theorem Spared.checkpoint (h : Spared ρ f (ρ (checkpointPath (filePath id f) tag)) id m t)
    (hone : Set.InjOn ρ {p | CheckpointPaths id f tag p}) {io : FsIo}
    (hread : io.canRead (checkpointPath (t.path f) tag) = true) :
    (handled ρ io t (.command (.viewCheckpoint f tag))).2 = ⟨SUCCESS, m.take (MAX_BUFFER - 1)⟩ ∧
      (io.canWrite (t.path f) = true → (handled ρ io t (.command (.revert f tag))).2.status = SUCCESS ∧
        (handled ρ io t (.command (.revert f tag))).1.disk (ρ (t.path f)) = some m) := by
  obtain rfl := h.sameId
  have hpath : CheckpointPaths t.id f tag (t.path f) := Or.inl rfl
  have hundo : CheckpointPaths t.id f tag (undoPath (t.path f)) := Or.inr (Or.inl rfl)
  have hcheck : CheckpointPaths t.id f tag (checkpointPath (t.path f) tag) := Or.inr (Or.inr rfl)
  have hcontent : shown ρ (CheckpointPaths t.id f tag) t.disk (checkpointPath (t.path f) tag) = some m := by
    rw [shown_of hcheck]
    exact h.content
  refine ⟨?_, fun hwrite => ?_⟩
  · have hshown := handled_showing hone h.inv io (.command (.viewCheckpoint f tag))
      ⟨fun p hp => hp.elim (fun hp => hp ▸ hcheck) False.elim, fun _ hop => by cases hop⟩
    rw [← (Prod.mk.inj hshown).2]
    show (⟨(NetworkFileShare.viewCheckpoint io.toIo (shown ρ _ t.disk) (t.path f) tag).1,
      (NetworkFileShare.viewCheckpoint io.toIo (shown ρ _ t.disk) (t.path f) tag).2⟩ : Reply) = _
    rw [NetworkFileShare.viewCheckpoint, readFile, if_pos hread, hcontent]
  · have hshown := handled_showing hone h.inv io (.command (.revert f tag))
      ⟨fun p hp => by rcases hp with (rfl | rfl) | (rfl | rfl) <;> assumption, fun _ hop => by cases hop⟩
    have hrevert := revertToCheckpoint_of_opens hcontent (checkpointPath_ne_undoPath t.id f tag) hread hwrite
    constructor
    · rw [← (Prod.mk.inj hshown).2]
      show (NetworkFileShare.revertToCheckpoint io (shown ρ _ t.disk) (t.path f) tag).2 = SUCCESS
      rw [hrevert]
    · have hafter : (NetworkFileShare.revertToCheckpoint io (shown ρ _ t.disk) (t.path f) tag).1 (t.path f) =
          shown ρ _ _ (t.path f) := congrArg (fun r => r.1.disk (t.path f)) hshown
      rw [hrevert, shown_of hpath] at hafter
      exact hafter.symm.trans (Function.update_self ..)

end

/-- **A checkpoint is shown and restored as it was taken**, whatever has been done to the file since, if the checkpoint
is neither the file, its backup nor a copy. -/
theorem checkpoint_kept {ρ : Path → Path} {id : Int32} {disk : Disk} {before es : List (FsIo × Operation)} {io : FsIo}
    {s₀ s t : StorageServer} {f : Filename} {tag : Tag} {data : CStr}
    (hreach : Run AnyStoreStep (freshServer id disk) before s₀)
    (hone : Set.InjOn ρ {p | CheckpointPaths s₀.id f tag p})
    (hcopies : ∀ u i, InPlay s₀ f u i → ρ (tempPath s₀.id f u i) ≠ ρ (checkpointPath (s₀.path f) tag))
    (htaken : handled ρ io s₀ (.command (.checkpoint f tag)) = (s, ⟨SUCCESS, data⟩))
    (hedits : ∀ e ∈ es, e.2.Edits f)
    (h : Run (Guarded (Spares ρ (ρ (checkpointPath (s₀.path f) tag))) (StoreStep ρ)) s es t) :
    ∃ m, s₀.disk (ρ (s₀.path f)) = some m ∧ ∀ io : FsIo, io.canRead (checkpointPath (t.path f) tag) = true →
      (handled ρ io t (.command (.viewCheckpoint f tag))).2 = ⟨SUCCESS, m.take (MAX_BUFFER - 1)⟩ ∧
      (io.canWrite (t.path f) = true → (handled ρ io t (.command (.revert f tag))).2.status = SUCCESS ∧
        (handled ρ io t (.command (.revert f tag))).1.disk (ρ (t.path f)) = some m) := by
  obtain ⟨m, hm, hstart⟩ := spared_checkpoint (storeInv_of_steps (.fresh id disk) hreach) hone hcopies htaken
  exact ⟨m, hm, fun io hread => (hstart.run hedits h).checkpoint hone hread⟩

def tagV1 : Tag := .strncpy (MAX_USERNAME - 1) (lit "v_1")

/-- A checkpoint of the file has been taken. -/
def tagged : StorageServer := (handled resolvePath .allOpens startedWithNotes (.command (.checkpoint notes tagV1))).1

def editNotes : List (FsIo × Operation) :=
  asked [.lockSentence notes alice 0, .write notes alice 0 1 (lit "x"), .unlockSentence notes alice 0]

theorem checkpoint_kept_notes :
    ∃ m, startedWithNotes.disk (resolvePath (startedWithNotes.path notes)) = some m ∧ ∀ io : FsIo,
      io.canRead (checkpointPath ((handleAll resolvePath tagged editNotes).1.path notes) tagV1) = true →
      (handled resolvePath io (handleAll resolvePath tagged editNotes).1 (.command (.viewCheckpoint notes tagV1))).2 =
        ⟨SUCCESS, m.take (MAX_BUFFER - 1)⟩ ∧
      (io.canWrite ((handleAll resolvePath tagged editNotes).1.path notes) = true →
        (handled resolvePath io (handleAll resolvePath tagged editNotes).1
          (.command (.revert notes tagV1))).2.status = SUCCESS ∧
        (handled resolvePath io (handleAll resolvePath tagged editNotes).1 (.command (.revert notes tagV1))).1.disk
          (resolvePath ((handleAll resolvePath tagged editNotes).1.path notes)) = some m) := by
  have hone : Set.InjOn resolvePath {p | CheckpointPaths 1 notes tagV1 p} :=
    injOn_checkpointPaths 1 notes (by decide)
  have htaken : handled resolvePath .allOpens startedWithNotes (.command (.checkpoint notes tagV1)) =
      (tagged, ⟨SUCCESS, []⟩) := Prod.ext rfl (by decide)
  have hrun : Run (Guarded (Spares resolvePath (resolvePath (checkpointPath (startedWithNotes.path notes) tagV1)))
      (StoreStep resolvePath)) tagged editNotes (handleAll resolvePath tagged editNotes).1 :=
    Run.cons ⟨fun _ => by decide, rfl⟩ (Run.cons ⟨trivial, rfl⟩
      (Run.cons ⟨show resolvePath (undoPath _) ≠ _ by decide, rfl⟩ .nil))
  exact checkpoint_kept .nil hone (fun u i hplay => absurd hplay (not_inPlay rfl rfl notes u i)) htaken
    (by decide) hrun

/-- A user whose copy of sentence 1 is the checkpoint, if there is a folder `notes.txt.temp_x`. -/
def climber : Username := .strncpy (MAX_USERNAME - 1) (lit "x/../notes.txt.checkpoint_v")

/-- **A checkpoint is overwritten, and lost**, when a session has it for its copy. -/
theorem checkpoint_lost :
    startedWithNotes.disk (resolvePath (startedWithNotes.path notes)) = some (lit "A. B.") ∧
    (handleAll resolvePath startedWithNotes
      ((FsIo.allOpens, .command (.checkpoint notes tagV1)) :: editNotes ++ asked [.lockSentence notes climber 1] ++
        commanded [.viewCheckpoint notes tagV1] ++ asked [.cancelWrite notes climber 1] ++
        commanded [.viewCheckpoint notes tagV1])).2 =
      [⟨SUCCESS, []⟩, ⟨SUCCESS, []⟩, ⟨SUCCESS, []⟩, ⟨SUCCESS, []⟩, ⟨SUCCESS, []⟩, ⟨SUCCESS, lit "x A. B."⟩,
        ⟨SUCCESS, []⟩, ⟨ERR_FILE_NOT_FOUND, []⟩] := by
  constructor <;> decide

end Stdio
end NetworkFileShare
