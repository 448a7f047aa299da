import NetworkFileShare.StorageServer.FileCalls

/-!
# What single operations do to the files

An operation that is run call by call, where a file may have several names: `handled_create`, `handled_delete`,
`handled_read`, `handled_undo`, `handled_checkpoint`, `handled_move`.
-/

namespace NetworkFileShare
namespace Stdio

variable {ρ : Path → Path} {io : FsIo} {s t : StorageServer} {f : Filename}

/-- **A `CREATE`** makes the file, with its locks, unless it is there. -/
theorem handled_create :
    handled ρ io s (.command (.create f)) =
      if pathExists io (s.disk ∘ ρ) (s.path f) then (s, ⟨ERR_FILE_EXISTS, []⟩)
      else if io.canWrite (s.path f) then
        ({ s with
            disk := Function.update s.disk (ρ (s.path f)) (some [])
            fileLocks := initFileLocks f 1 s.fileLocks }, ⟨SUCCESS, []⟩)
      else (s, ⟨ERR_SERVER_ERROR, []⟩) := by
  have hrun : runCalls (FsOp.exec ρ io) (createFileSs s f) (.closed s.disk) =
      if pathExists io (s.disk ∘ ρ) (s.path f) then ((s, ERR_FILE_EXISTS), .closed s.disk)
      else if io.canWrite (s.path f) then (({ s with fileLocks := initFileLocks f 1 s.fileLocks }, SUCCESS),
        .closed (Function.update s.disk (ρ (s.path f)) (some [])))
      else ((s, ERR_SERVER_ERROR), .closed s.disk) := by
    rw [createFileSs, runCalls_bind, runCalls_perform]
    show runCalls (FsOp.exec ρ io) (if pathExists io (s.disk ∘ ρ) (s.path f) = true then _ else _) (.closed s.disk) = _
    by_cases hexists : pathExists io (s.disk ∘ ρ) (s.path f) = true
    · rw [if_pos hexists, if_pos hexists]
      rfl
    · rw [if_neg hexists, if_neg hexists, runCalls_bind, runCalls_writePieces]
      split <;> rfl
  have hhandle : runCalls (FsOp.exec ρ io) (handle io.toIo s (.command (.create f))) (.closed s.disk) =
      (fun r : (StorageServer × Int32) × Fs => (((r.1.1, ⟨r.1.2, []⟩) : StorageServer × Reply), r.2))
        (runCalls (FsOp.exec ρ io) (createFileSs s f) (.closed s.disk)) := by
    show runCalls _ (createFileSs s f >>= _) _ = _
    rw [runCalls_bind]
    rfl
  rw [handled, hhandle, hrun]
  split_ifs <;> rfl

/-- An operation that leaves the tables alone, from the run of the function that does it. -/
theorem handled_of_run {α : Type} {op : Operation} {a : α} {d : Disk} (p : FsProg α) (reply : α → Reply)
    (hprogram : handle io.toIo s op = p >>= fun a => Pure.pure (s, reply a))
    (hrun : runCalls (FsOp.exec ρ io) p (.closed s.disk) = (a, .closed d)) :
    handled ρ io s op = ({ s with disk := d }, reply a) := by
  rw [handled, hprogram, runCalls_bind, hrun]
  rfl

/-- **A `DELETE`** unlinks the file and its backup. -/
theorem handled_delete (ρ : Path → Path) (io : FsIo) (s : StorageServer) (f : Filename) :
    handled ρ io s (.command (.delete f)) =
      if s.disk (ρ (s.path f)) = none then (s, ⟨ERR_FILE_NOT_FOUND, []⟩)
      else ({ s with
          disk := NetworkFileShare.unlink (NetworkFileShare.unlink s.disk (ρ (s.path f))) (ρ (undoPath (s.path f))) },
        ⟨SUCCESS, []⟩) := by
  have hrun : runCalls (FsOp.exec ρ io) (deleteFileSs s f) (.closed s.disk) =
      if s.disk (ρ (s.path f)) = none then (ERR_FILE_NOT_FOUND, .closed s.disk) else (SUCCESS, .closed
        (NetworkFileShare.unlink (NetworkFileShare.unlink s.disk (ρ (s.path f))) (ρ (undoPath (s.path f))))) := by
    have hfirst : FsOp.exec ρ io (.unlink (s.path f)) (.closed s.disk) =
        ((s.disk (ρ (s.path f))).isSome, .closed (NetworkFileShare.unlink s.disk (ρ (s.path f)))) := rfl
    rw [deleteFileSs, runCalls_bind, runCalls_perform, hfirst]
    by_cases hfile : s.disk (ρ (s.path f)) = none
    · rw [if_pos hfile, NetworkFileShare.unlink, ← hfile, Function.update_eq_self, hfile]
      rfl
    · rw [if_neg hfile, Option.isSome_iff_ne_none.mpr hfile]
      rfl
  split_ifs at hrun ⊢ with hfile
  · exact handled_of_run (deleteFileSs s f) (⟨·, []⟩) rfl hrun
  · exact handled_of_run (deleteFileSs s f) (⟨·, []⟩) rfl hrun

/-- **A `READ`** of a file that can be opened. -/
theorem handled_read {m : CStr} (hm : s.disk (ρ (s.path f)) = some m) (hread : io.canRead (s.path f) = true) :
    handled ρ io s (.client (.read f)) = (s, ⟨SUCCESS, m.take (MAX_BUFFER - 1)⟩) := by
  have htext : readFile io.toIo (s.disk ∘ ρ) (s.path f) = some m := by
    rw [readFile, if_pos hread]
    exact hm
  refine handled_of_run (d := s.disk) (readFileSs s f) id rfl ?_
  rw [readFileSs, runCalls_bind, runCalls_perform]
  simp only [FsOp.exec, htext, runCalls_pure]

/-- **An `UNDO`** of a file whose backup is another file. -/
theorem handled_undo {b : CStr} (hne : ρ (undoPath (s.path f)) ≠ ρ (s.path f))
    (hbackup : s.disk (ρ (undoPath (s.path f))) = some b) (hread : io.canRead (undoPath (s.path f)) = true)
    (hwrite : io.canWrite (s.path f) = true) :
    handled ρ io s (.client (.undo f)) =
      ({ s with
          disk := NetworkFileShare.unlink (Function.update s.disk (ρ (s.path f)) (some b)) (ρ (undoPath (s.path f))) },
        ⟨SUCCESS, []⟩) := by
  have hthere : FsOp.exec ρ io (.access (undoPath (s.path f))) (.closed s.disk) = (true, .closed s.disk) := by
    simp [FsOp.exec, pathExists, hbackup]
  have htext : readFile io.toIo (s.disk ∘ ρ) (undoPath (s.path f)) = some b := by
    rw [readFile, if_pos hread]
    exact hbackup
  have hrestore : runCalls (FsOp.exec ρ io) (restoreFromUndo (s.path f)) (.closed s.disk) = (SUCCESS, .closed
      (NetworkFileShare.unlink (Function.update s.disk (ρ (s.path f)) (some b)) (ρ (undoPath (s.path f))))) := by
    rw [restoreFromUndo, runCalls_bind, runCalls_perform, hthere, if_pos rfl, runCalls_bind, runCalls_copyFile hne,
      htext]
    simp only [if_pos hwrite]
    rfl
  refine handled_of_run (undoRequest s f) (⟨·, []⟩) rfl ?_
  rw [undoRequest, runCalls_bind, runCalls_perform, hthere, if_pos rfl, hrestore]

/-- **An `UNDO`** without a backup. -/
theorem handled_undo_absent (habsent : s.disk (ρ (undoPath (s.path f))) = none)
    (hfolder : io.isFolder (undoPath (s.path f)) = false) :
    handled ρ io s (.client (.undo f)) = (s, ⟨ERR_INVALID_OPERATION, []⟩) := by
  have hthere : FsOp.exec ρ io (.access (undoPath (s.path f))) (.closed s.disk) = (false, .closed s.disk) := by
    simp [FsOp.exec, pathExists, habsent, hfolder]
  refine handled_of_run (d := s.disk) (undoRequest s f) (⟨·, []⟩) rfl ?_
  rw [undoRequest, runCalls_bind, runCalls_perform, hthere, if_neg Bool.false_ne_true, runCalls_pure]

/-- **A `CHECKPOINT` that has success** has copied the file. -/
theorem handled_checkpoint {t : StorageServer} {tag : Tag} {m : CStr} (hm : s.disk (ρ (s.path f)) = some m)
    (h : handled ρ io s (.command (.checkpoint f tag)) = (t, ⟨SUCCESS, []⟩)) :
    t.disk (ρ (checkpointPath (s.path f) tag)) = some m := by
  have hdone : ∀ {status : Int32} {d : Disk},
      runCalls (FsOp.exec ρ io) (createCheckpoint (s.path f) tag) (.closed s.disk) = (status, .closed d) →
        status = SUCCESS ∧ t.disk = d := by
    intro status d hrun
    have hhandled := h.symm.trans (handled_of_run (createCheckpoint (s.path f) tag) (⟨·, []⟩) rfl hrun)
    obtain ⟨ht, hreply⟩ := Prod.mk.inj hhandled
    exact ⟨(Reply.mk.inj hreply).1.symm, congrArg StorageServer.disk ht⟩
  have hstart : ∀ {b : Bool}, pathExists io (s.disk ∘ ρ) (checkpointPath (s.path f) tag) = b →
      runCalls (FsOp.exec ρ io) (createCheckpoint (s.path f) tag) (.closed s.disk) = runCalls (FsOp.exec ρ io)
        (if b then return ERR_FILE_EXISTS else return (← copyFile (s.path f) (checkpointPath (s.path f) tag)).status)
        (.closed s.disk) := by
    rintro b rfl
    rw [createCheckpoint, runCalls_bind, runCalls_perform]
    rfl
  cases hexists : pathExists io (s.disk ∘ ρ) (checkpointPath (s.path f) tag) with
  | true => exact absurd (hdone (hstart hexists)).1 (by decide)
  | false =>
    have habsent : s.disk (ρ (checkpointPath (s.path f) tag)) = none := by
      rw [pathExists, Bool.or_eq_false_iff] at hexists
      exact Option.not_isSome_iff_eq_none.mp (Bool.eq_false_iff.mp hexists.1)
    have hne : ρ (s.path f) ≠ ρ (checkpointPath (s.path f) tag) := fun he => by
      rw [he, habsent] at hm
      cases hm
    have hcopy := hstart hexists
    rw [if_neg Bool.false_ne_true, runCalls_bind, runCalls_copyFile hne] at hcopy
    cases hread : readFile io.toIo (s.disk ∘ ρ) (s.path f) with
    | none =>
      simp only [hread] at hcopy
      exact absurd (hdone hcopy).1 (by decide)
    | some text =>
      have htext : (s.disk ∘ ρ) (s.path f) = some text := disk_of_readFile hread
      by_cases hwrite : io.canWrite (checkpointPath (s.path f) tag) = true
      · simp only [hread, if_pos hwrite] at hcopy
        rw [(hdone hcopy).2, ← hm, Function.update_self]
        exact htext.symm
      · simp only [hread, if_neg hwrite] at hcopy
        exact absurd (hdone hcopy).1 (by decide)

/-! ## Moves -/

section
variable {d d' : Disk} {p q : Path}

theorem exec_rename_done {text : CStr} (htext : d (ρ p) = some text) (hcan : io.canRename p q = true) :
    FsOp.exec ρ io (.rename p q) (.closed d) =
      (true, .closed (Function.update (NetworkFileShare.unlink d (ρ p)) (ρ q) (some text))) := by
  simp only [FsOp.exec, htext, if_pos hcan]

theorem exec_rename_not (h : ¬ ((d (ρ p)).isSome = true ∧ io.canRename p q = true)) :
    FsOp.exec ρ io (.rename p q) (.closed d) = (false, .closed d) := by
  cases htext : d (ρ p) with
  | none => simp only [FsOp.exec, htext]
  | some text =>
    have hcan : ¬ io.canRename p q = true := fun hcan => h ⟨by rw [htext]; rfl, hcan⟩
    simp only [FsOp.exec, htext, if_neg hcan]

/-- **A `MOVE`** renames the file, and then its backup if it can. -/
theorem handled_move {old new : CStr} {moved : Bool}
    (hfirst : FsOp.exec ρ io (.rename (folderPath s.id old f) (folderPath s.id new f)) (.closed s.disk) =
      (true, .closed d))
    (hsecond : FsOp.exec ρ io (.rename (undoPath (folderPath s.id old f)) (undoPath (folderPath s.id new f)))
      (.closed d) = (moved, .closed d')) :
    handled ρ io s (.command (.move f old new)) = ({ s with disk := d' }, ⟨SUCCESS, []⟩) := by
  refine handled_of_run (moveFileSs s f old new) (⟨·, []⟩) rfl ?_
  rw [moveFileSs, runCalls_bind, runCalls_perform, hfirst, if_pos rfl, runCalls_bind, runCalls_perform, hsecond]
  rfl

/-- A `MOVE` that cannot rename the file does nothing. -/
theorem handled_move_not {old new : CStr}
    (hfirst : FsOp.exec ρ io (.rename (folderPath s.id old f) (folderPath s.id new f)) (.closed s.disk) =
      (false, .closed s.disk)) :
    handled ρ io s (.command (.move f old new)) = (s, ⟨ERR_SERVER_ERROR, []⟩) := by
  refine handled_of_run (d := s.disk) (moveFileSs s f old new) (⟨·, []⟩) rfl ?_
  rw [moveFileSs, runCalls_bind, runCalls_perform, hfirst, if_neg Bool.false_ne_true, runCalls_pure]

end

end Stdio
end NetworkFileShare
