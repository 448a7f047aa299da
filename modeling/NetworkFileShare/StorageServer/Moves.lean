import NetworkFileShare.StorageServer.Aliases
import NetworkFileShare.StorageServer.Outcomes

/-!
# Moved files

Every operation but a move looks for a file in the storage directory itself, also when the file has been moved to a
folder. A file may have several names: the path `p` names the file `ρ p`.

* `ActsOn f m backup s` : the operations on `f` find the content `m` and the backup `backup`; `actsOn_iff`;
* `KeptBy` : the renames that leave a file as it is; `MoveKeeps` : the moves that leave what the operations find;
  `actsOn_move_iff`.
-/

namespace NetworkFileShare
namespace Stdio

/-! ## What the operations find -/

section
variable {ρ : Path → Path} {io : FsIo} {s t : StorageServer} {f : Filename} {m : CStr} {backup : Option CStr}

/-- The operations on `f` find the content `m` and the backup `backup`. A session has its copy in a file of its own. -/
structure ActsOn (ρ : Path → Path) (f : Filename) (m : CStr) (backup : Option CStr) (s : StorageServer) : Prop where
  main : s.disk (ρ (s.path f)) = some m
  read : ∀ io : FsIo, io.canRead (s.path f) = true →
    handled ρ io s (.client (.read f)) = (s, ⟨SUCCESS, m.take (MAX_BUFFER - 1)⟩)
  session : ∀ (io : FsIo) (u : Username) (i : Int32) (t : StorageServer), ρ (tempPath s.id f u i) ≠ ρ (s.path f) →
    io.canRead (s.path f) = true → handled ρ io s (.client (.lockSentence f u i)) = (t, ⟨SUCCESS, []⟩) →
      t.disk (ρ (tempPath s.id f u i)) = some m
  undo : ∀ io : FsIo, io.canRead (undoPath (s.path f)) = true → io.canWrite (s.path f) = true →
    io.isFolder (undoPath (s.path f)) = false →
    match backup with
    | none => handled ρ io s (.client (.undo f)) = (s, ⟨ERR_INVALID_OPERATION, []⟩)
    | some b => (handled ρ io s (.client (.undo f))).2 = ⟨SUCCESS, []⟩ ∧
        (handled ρ io s (.client (.undo f))).1.disk (ρ (s.path f)) = some b
  checkpoint : ∀ (io : FsIo) (tag : Tag) (t : StorageServer),
    handled ρ io s (.command (.checkpoint f tag)) = (t, ⟨SUCCESS, []⟩) →
      t.disk (ρ (checkpointPath (s.path f) tag)) = some m
  delete : ∀ io : FsIo, (handled ρ io s (.command (.delete f))).2 = ⟨SUCCESS, []⟩ ∧
    (handled ρ io s (.command (.delete f))).1.disk (ρ (s.path f)) = none

/-- **What the operations find is what stands under the file's name in the storage directory.** -/
theorem actsOn_iff (hs : StoreInv s) (hne : ρ (undoPath (s.path f)) ≠ ρ (s.path f)) :
    ActsOn ρ f m backup s ↔ s.disk (ρ (s.path f)) = some m ∧ s.disk (ρ (undoPath (s.path f))) = backup := by
  constructor
  · intro hacts
    refine ⟨hacts.main, ?_⟩
    have hundo := hacts.undo .allOpens rfl rfl rfl
    cases hdisk : s.disk (ρ (undoPath (s.path f))) with
    | none =>
      rw [handled_undo_absent hdisk rfl] at hundo
      cases backup with
      | none => rfl
      | some b => exact absurd (Reply.mk.inj hundo.1).1 (by decide)
    | some b' =>
      rw [handled_undo hne hdisk rfl rfl] at hundo
      cases backup with
      | none => exact absurd (Reply.mk.inj (Prod.mk.inj hundo).2).1 (by decide)
      | some b =>
        exact (((unlink_of_ne _ hne.symm).trans (Function.update_self _ _ _)).symm.trans hundo.2)
  · rintro ⟨hmain, rfl⟩
    refine ⟨hmain, fun io hread => handled_read hmain hread, fun io u i t hcopy hread hlock =>
      copied_by_lock hs hcopy hmain hread hlock, fun io hread hwrite hfolder => ?_,
      fun io tag t hdone => handled_checkpoint hmain hdone, fun io => ?_⟩
    · cases hdisk : s.disk (ρ (undoPath (s.path f))) with
      | none => exact handled_undo_absent hdisk hfolder
      | some b =>
        rw [handled_undo hne hdisk hread hwrite]
        exact ⟨rfl, (unlink_of_ne _ hne.symm).trans (Function.update_self _ _ _)⟩
    · rw [handled_delete, if_neg (by rw [hmain]; exact Option.some_ne_none m)]
      exact ⟨rfl, (unlink_of_ne _ hne.symm).trans (unlink_self ..)⟩

end

/-! ## Moves -/

section
variable {ρ : Path → Path} {io : FsIo} {s : StorageServer} {f : Filename} {old new : CStr} {d d' : Disk}
  {p q r : Path} {text : CStr}

/-- A rename of `p` to `q` that brings `text` leaves the file of `r` as it was in the beginning, if that file
was so `before`: the file is replaced by what it was, or it is not among the two. -/
def KeptBy (ρ : Path → Path) (d : Disk) (text : Option CStr) (p q r : Path) (before : Prop) : Prop :=
  if ρ r = ρ q then d (ρ r) = text else if ρ r = ρ p then d (ρ r) = none else before

instance (before : Prop) [Decidable before] (text : Option CStr) : Decidable (KeptBy ρ d text p q r before) :=
  inferInstanceAs (Decidable (ite _ _ _))

theorem kept_rename_iff : Function.update (NetworkFileShare.unlink d' (ρ p)) (ρ q) (some text) (ρ r) = d (ρ r) ↔
    KeptBy ρ d (some text) p q r (d' (ρ r) = d (ρ r)) := by
  unfold KeptBy NetworkFileShare.unlink
  by_cases hq : ρ r = ρ q
  · rw [if_pos hq, ← hq, Function.update_self]
    exact eq_comm
  · rw [if_neg hq, Function.update_of_ne hq]
    by_cases hp : ρ r = ρ p
    · rw [if_pos hp, ← hp, Function.update_self]
      exact eq_comm
    · rw [if_neg hp, Function.update_of_ne hp]

/-- What the name of the old backup stands for once the file has been renamed. -/
def backupLeft (ρ : Path → Path) (d : Disk) (p q : Path) : Option CStr :=
  if ρ (undoPath p) = ρ q then d (ρ p) else if ρ (undoPath p) = ρ p then none else d (ρ (undoPath p))

theorem backupLeft_eq (htext : d (ρ p) = some text) :
    Function.update (NetworkFileShare.unlink d (ρ p)) (ρ q) (some text) (ρ (undoPath p)) = backupLeft ρ d p q := by
  unfold backupLeft NetworkFileShare.unlink
  by_cases hq : ρ (undoPath p) = ρ q
  · rw [if_pos hq, hq, Function.update_self, htext]
  · rw [if_neg hq, Function.update_of_ne hq]
    by_cases hp : ρ (undoPath p) = ρ p
    · rw [if_pos hp, hp, Function.update_self]
    · rw [if_neg hp, Function.update_of_ne hp]

/-- The renames of a move, of the file and then of its backup if there is one, leave the file of `r` as it is. -/
def RenamesKeep (ρ : Path → Path) (io : FsIo) (d : Disk) (p q r : Path) : Prop :=
  if (backupLeft ρ d p q).isSome ∧ io.canRename (undoPath p) (undoPath q) = true then
    KeptBy ρ d (backupLeft ρ d p q) (undoPath p) (undoPath q) r (KeptBy ρ d (d (ρ p)) p q r True)
  else KeptBy ρ d (d (ρ p)) p q r True

/-- **The move leaves what the operations find**: the file and its backup in the storage directory. -/
def MoveKeeps (ρ : Path → Path) (io : FsIo) (s : StorageServer) (f : Filename) (old new : CStr) : Prop :=
  RenamesKeep ρ io s.disk (folderPath s.id old f) (folderPath s.id new f) (s.path f) ∧
    RenamesKeep ρ io s.disk (folderPath s.id old f) (folderPath s.id new f) (undoPath (s.path f))

/-- The disk after a move whose first rename goes through. -/
theorem handled_move_renamed (htext : s.disk (ρ (folderPath s.id old f)) = some text)
    (hcan : io.canRename (folderPath s.id old f) (folderPath s.id new f) = true) :
    ∃ disk, handled ρ io s (.command (.move f old new)) = ({ s with disk := disk }, ⟨SUCCESS, []⟩) ∧
      ∀ r, disk (ρ r) = s.disk (ρ r) ↔
        RenamesKeep ρ io s.disk (folderPath s.id old f) (folderPath s.id new f) r := by
  have hfirst := exec_rename_done htext hcan
  have hkept : ∀ r, Function.update (NetworkFileShare.unlink s.disk (ρ (folderPath s.id old f)))
      (ρ (folderPath s.id new f)) (some text) (ρ r) = s.disk (ρ r) ↔
        KeptBy ρ s.disk (s.disk (ρ (folderPath s.id old f))) (folderPath s.id old f) (folderPath s.id new f) r True :=
    fun r => by rw [kept_rename_iff, htext, eq_self]
  have hleft := backupLeft_eq (q := folderPath s.id new f) htext
  by_cases hbackup : (backupLeft ρ s.disk (folderPath s.id old f) (folderPath s.id new f)).isSome ∧
      io.canRename (undoPath (folderPath s.id old f)) (undoPath (folderPath s.id new f)) = true
  · obtain ⟨b, hb⟩ := Option.isSome_iff_exists.mp hbackup.1
    refine ⟨_, handled_move hfirst (exec_rename_done (hleft.trans hb) hbackup.2), fun r => ?_⟩
    rw [kept_rename_iff, RenamesKeep, if_pos hbackup, hb, propext (hkept r)]
  · refine ⟨_, handled_move hfirst (exec_rename_not (by rw [hleft]; exact hbackup)), fun r => ?_⟩
    rw [RenamesKeep, if_neg hbackup, propext (hkept r)]

/-- **When a move keeps the file within reach.** -/
theorem actsOn_move_iff (hs : StoreInv s) (hne : ρ (undoPath (s.path f)) ≠ ρ (s.path f)) {m : CStr}
    (hcontent : s.disk (ρ (s.path f)) = some m) (htext : s.disk (ρ (folderPath s.id old f)) = some text)
    (hcan : io.canRename (folderPath s.id old f) (folderPath s.id new f) = true) :
    ActsOn ρ f m (s.disk (ρ (undoPath (s.path f)))) (handled ρ io s (.command (.move f old new))).1 ↔
      MoveKeeps ρ io s f old new := by
  have hinv := (handled_effect hs ρ io (.command (.move f old new))).inv
  obtain ⟨disk, hmove, hdisk⟩ := handled_move_renamed htext hcan
  rw [hmove] at hinv ⊢
  rw [actsOn_iff hinv hne, MoveKeeps, ← hdisk, ← hdisk, hcontent]
  exact Iff.rfl

end

end Stdio
end NetworkFileShare
