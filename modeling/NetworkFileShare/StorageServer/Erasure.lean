import NetworkFileShare.StorageServer.Deletion

/-!
# What a deletion leaves of a file

* `heldAt` : who holds a lock; `heldAt_init`, `heldAt_lockSentence`, `heldAt_unlockSentence`;
* `Alike` : two servers that differ in free locks at most; `Alike.handle` : an operation leaves them alike, with the
  same reply, short of the status with which a lock is given back;
* `SameBut` : two servers that differ in the content of one file, and in what has been made of it;
* `deleted_content_gone` : after the deletion the replies are the same, if what has been made of the file is the same
  (`SameTraces`); `deleted_content_shown` : a checkpoint outlives the file.
-/

namespace NetworkFileShare

/-! ## Who holds a lock -/

/-- The name under which a lock is taken. -/
def SentenceLock.holder (lock : SentenceLock) : Option CStr := if lock.locked then some lock.lockedBy else none

/-- The name under which the lock at a place is taken. -/
def heldAt (f : Filename) (j : Nat) (tables : List FileLocks) : Option CStr :=
  (((tables.find? (·.filename = f)).bind fun e => e.locks[j]?).bind SentenceLock.holder)

section HeldAt
variable {f g : Filename} {u : Username} {i : Int32} {j : Nat} {lock new : SentenceLock} {tables : List FileLocks}

theorem heldAt_cons (e : FileLocks) (es : List FileLocks) :
    heldAt f j (e :: es) = if e.filename = f then e.locks[j]?.bind SentenceLock.holder else heldAt f j es := by
  unfold heldAt
  by_cases he : e.filename = f <;> simp [he]

theorem heldAt_of_getSentenceLock (h : getSentenceLock f i tables = some lock) :
    heldAt f i.toInt.toNat tables = lock.holder := by
  unfold getSentenceLock at h
  unfold heldAt
  split at h
  · cases h
  · rename_i e hfind
    split at h
    · rw [hfind, Option.bind_some, h, Option.bind_some]
    · cases h

/-- A lock that does not exist is not taken. -/
theorem heldAt_of_none (h : getSentenceLock f i tables = none) (hi : 0 ≤ i.toInt) :
    heldAt f i.toInt.toNat tables = none := by
  unfold getSentenceLock at h
  unfold heldAt
  split at h
  · rename_i hfind
    rw [hfind]
    rfl
  · rename_i e hfind
    rw [if_pos hi] at h
    rw [hfind, Option.bind_some, h]
    rfl

theorem holder_free (n j : Nat) : (List.replicate n SentenceLock.free)[j]?.bind SentenceLock.holder = none := by
  rw [List.getElem?_replicate]
  split <;> rfl

/-- New locks are free. -/
theorem heldAt_init (f g : Filename) (j count : Nat) : ∀ tables : List FileLocks,
    heldAt f j (initFileLocks g count tables) = heldAt f j tables
  | [] => by
    rw [initFileLocks, heldAt_cons]
    split
    · exact holder_free _ _
    · rfl
  | e :: es => by
    rw [initFileLocks]
    by_cases hg : e.filename = g
    · rw [if_pos hg, heldAt_cons, heldAt_cons]
      by_cases hf : e.filename = f
      · rw [if_pos hf, if_pos hf]
        by_cases hj : j < e.locks.length
        · rw [List.getElem?_append_left hj]
        · have hnone : e.locks[j]? = none := List.getElem?_eq_none (by omega)
          rw [List.getElem?_append_right (by omega), holder_free, hnone]
          rfl
      · rw [if_neg hf, if_neg hf]
    · rw [if_neg hg, heldAt_cons, heldAt_cons, heldAt_init f g j count es]

/-- A lock that exists is overwritten, and no other. -/
theorem heldAt_set (hi : 0 ≤ i.toInt) : ∀ {tables : List FileLocks}, getSentenceLock g i tables = some lock →
    heldAt f j (setSentenceLock g i new tables) =
      if f = g ∧ j = i.toInt.toNat then new.holder else heldAt f j tables
  | [], h => by cases h
  | e :: es, h => by
    rw [getSentenceLock_cons] at h
    rw [setSentenceLock]
    by_cases hg : e.filename = g
    · rw [if_pos hg, if_pos hi] at h
      rw [if_pos hg, heldAt_cons, heldAt_cons]
      have hlt := (List.getElem?_eq_some_iff.mp h).1
      by_cases hf : e.filename = f
      · have hfg : f = g := hf.symm.trans hg
        rw [if_pos hf, if_pos hf]
        by_cases hj : j = i.toInt.toNat
        · rw [if_pos ⟨hfg, hj⟩, hj, List.getElem?_set_self hlt]
          rfl
        · rw [if_neg fun hboth => hj hboth.2, List.getElem?_set_ne (Ne.symm hj)]
      · have hfg : ¬ f = g := fun he => hf (hg.trans he.symm)
        rw [if_neg hf, if_neg hf, if_neg fun hboth => hfg hboth.1]
    · rw [if_neg hg] at h
      rw [if_neg hg, heldAt_cons, heldAt_cons, heldAt_set hi h]
      by_cases hf : e.filename = f
      · have hfg : ¬ f = g := fun he => hg (hf.trans he)
        rw [if_pos hf, if_pos hf, if_neg fun hboth => hfg hboth.1]
      · rw [if_neg hf, if_neg hf]

/-- The locks that a request asks for exist. -/
theorem exists_lock_init (hi : 0 ≤ i.toInt) : ∀ tables : List FileLocks,
    ∃ lock, getSentenceLock g i (initFileLocks g (i.toInt + 1).toNat tables) = some lock
  | [] => by
    rw [initFileLocks, getSentenceLock_cons, if_pos rfl, if_pos hi]
    exact ⟨_, List.getElem?_eq_getElem (by rw [List.length_replicate]; omega)⟩
  | e :: es => by
    rw [initFileLocks]
    by_cases hg : e.filename = g
    · rw [if_pos hg, getSentenceLock_cons, if_pos hg, if_pos hi]
      exact ⟨_, List.getElem?_eq_getElem (by rw [List.length_append, List.length_replicate]; omega)⟩
    · rw [if_neg hg, getSentenceLock_cons, if_neg hg]
      exact exists_lock_init hi es

/-- The lock is taken by somebody else. -/
def HeldByOther (g : Filename) (i : Int32) (u : Username) (tables : List FileLocks) : Prop :=
  ∃ name, heldAt g i.toInt.toNat tables = some name ∧ name ≠ u.str

theorem holder_eq_some {name : CStr} : lock.holder = some name ↔ lock.locked = true ∧ lock.lockedBy = name := by
  unfold SentenceLock.holder
  split
  · rename_i hlocked
    simp [hlocked]
  · rename_i hfree
    simp [hfree]

/-- **`lock_sentence_ss`** in terms of who holds what. -/
theorem lockSentence_heldAt (io : Io) (s : StorageServer) (g : Filename) (i : Int32) (u : Username) :
    (i.toInt < 0 ∧ (lockSentence io s g i u).2 = ERR_INVALID_INDEX ∧
        ∀ f j, heldAt f j (lockSentence io s g i u).1.fileLocks = heldAt f j s.fileLocks) ∨
      (0 ≤ i.toInt ∧ HeldByOther g i u s.fileLocks ∧ (lockSentence io s g i u).2 = ERR_SENTENCE_LOCKED ∧
        ∀ f j, heldAt f j (lockSentence io s g i u).1.fileLocks = heldAt f j s.fileLocks) ∨
      (0 ≤ i.toInt ∧ ¬ HeldByOther g i u s.fileLocks ∧ (lockSentence io s g i u).2 = SUCCESS ∧
        ∀ f j, heldAt f j (lockSentence io s g i u).1.fileLocks =
          if f = g ∧ j = i.toInt.toNat then some (lockedName io u) else heldAt f j s.fileLocks) := by
  unfold lockSentence
  simp only
  by_cases hi : 0 ≤ i.toInt
  · obtain ⟨lock, hlock⟩ := exists_lock_init (g := g) hi s.fileLocks
    have hheld : heldAt g i.toInt.toNat s.fileLocks = lock.holder := by
      rw [← heldAt_init g g _ (i.toInt + 1).toNat, heldAt_of_getSentenceLock hlock]
    have hother : HeldByOther g i u s.fileLocks ↔ lock.locked = true ∧ lock.lockedBy ≠ u.str := by
      rw [HeldByOther, hheld]
      constructor
      · rintro ⟨name, hname, hne⟩
        obtain ⟨hlocked, rfl⟩ := holder_eq_some.mp hname
        exact ⟨hlocked, hne⟩
      · rintro ⟨hlocked, hne⟩
        exact ⟨_, holder_eq_some.mpr ⟨hlocked, rfl⟩, hne⟩
    rw [hlock]
    simp only
    split
    · rename_i hothers
      exact Or.inr (Or.inl ⟨hi, hother.mpr hothers, rfl, fun f j => heldAt_init f g j _ _⟩)
    · rename_i hmine
      refine Or.inr (Or.inr ⟨hi, fun h => hmine (hother.mp h), rfl, fun f j => ?_⟩)
      rw [heldAt_set hi hlock, heldAt_init]
      rfl
  · have hnone : ∀ tables, getSentenceLock g i tables = none := fun tables => by
      unfold getSentenceLock
      split
      · rfl
      · rw [if_neg hi]
    rw [hnone]
    exact Or.inl ⟨by omega, rfl, fun f j => heldAt_init f g j _ _⟩

/-- **`unlock_sentence_ss`** gives a lock back that the user holds. -/
theorem heldAt_unlockSentence (s : StorageServer) (g : Filename) (i : Int32) (u : Username) (f : Filename) (j : Nat) :
    heldAt f j (unlockSentence s g i u).1.fileLocks =
      if f = g ∧ j = i.toInt.toNat ∧ 0 ≤ i.toInt ∧ heldAt g i.toInt.toNat s.fileLocks = some u.str then none
      else heldAt f j s.fileLocks := by
  unfold unlockSentence
  cases hlock : getSentenceLock g i s.fileLocks with
  | none =>
    rw [if_neg]
    rintro ⟨-, -, hi, hheld⟩
    rw [heldAt_of_none hlock hi] at hheld
    cases hheld
  | some lock =>
    have hheld := heldAt_of_getSentenceLock hlock
    have hi := nonneg_of_getSentenceLock hlock
    simp only
    split
    · rename_i hother
      rw [if_neg]
      rintro ⟨-, -, -, hmine⟩
      obtain ⟨hlocked, hby⟩ := holder_eq_some.mp (hheld.symm.trans hmine)
      rcases hother with hfree | hne
      · rw [hfree] at hlocked
        cases hlocked
      · exact hne hby
    · rename_i hmine
      push Not at hmine
      have hmine : heldAt g i.toInt.toNat s.fileLocks = some u.str := by
        rw [hheld, holder_eq_some]
        exact ⟨by simpa using hmine.1, hmine.2⟩
      rw [heldAt_set hi hlock]
      by_cases hplace : f = g ∧ j = i.toInt.toNat
      · rw [if_pos hplace, if_pos ⟨hplace.1, hplace.2, hi, hmine⟩]
        rfl
      · rw [if_neg hplace, if_neg fun h => hplace ⟨h.1, h.2.1⟩]

/-- `check_file_locks` asks whether some lock of the file is taken. -/
theorem checkFileLocks_iff {s : StorageServer} :
    checkFileLocks s g = true ↔ ∃ j name, heldAt g j s.fileLocks = some name := by
  unfold checkFileLocks heldAt
  cases s.fileLocks.find? (·.filename = g) with
  | none => simp
  | some e =>
    simp only [Option.bind_some, List.any_eq_true]
    constructor
    · rintro ⟨lock, hmem, hlocked⟩
      obtain ⟨j, hj⟩ := List.mem_iff_getElem?.mp hmem
      exact ⟨j, lock.lockedBy, by rw [hj]; exact holder_eq_some.mpr ⟨hlocked, rfl⟩⟩
    · rintro ⟨j, name, hname⟩
      obtain ⟨lock, hget, hheld⟩ := Option.bind_eq_some_iff.mp hname
      exact ⟨lock, List.mem_of_getElem? hget, (holder_eq_some.mp hheld).1⟩

end HeldAt

/-! ## Servers with other locks -/

/-- The server with another lock table. -/
def StorageServer.withLocks (s : StorageServer) (tables : List FileLocks) : StorageServer :=
  { s with fileLocks := tables }

section WithLocks
variable (io : Io) (s : StorageServer) (T T' : List FileLocks) (f : Filename) (u : Username) (i : Int32)

@[simp] theorem withLocks_self : s.withLocks s.fileLocks = s := rfl

@[simp] theorem withLocks_withLocks : (s.withLocks T).withLocks T' = s.withLocks T' := rfl

@[simp] theorem id_withLocks : (s.withLocks T).id = s.id := rfl

@[simp] theorem disk_withLocks : (s.withLocks T).disk = s.disk := rfl

@[simp] theorem writeSessions_withLocks : (s.withLocks T).writeSessions = s.writeSessions := rfl

@[simp] theorem commitQueues_withLocks : (s.withLocks T).commitQueues = s.commitQueues := rfl

@[simp] theorem fileLocks_withLocks : (s.withLocks T).fileLocks = T := rfl

@[simp] theorem path_withLocks : (s.withLocks T).path f = s.path f := rfl

@[simp] theorem getWriteSession_withLocks : getWriteSession (s.withLocks T) f u i = getWriteSession s f u i := rfl

/-- The functions on sessions, copies and queues do not look at the locks. -/
theorem createWriteSession_withLocks (count : Nat) :
    createWriteSession (s.withLocks T) f u i count = (createWriteSession s f u i count).map (·.withLocks T) := by
  obtain ⟨id, disk, locks, ws, queues⟩ := s
  unfold createWriteSession getWriteSession StorageServer.withLocks
  dsimp only
  cases ws.find? (isSession f u i) with
  | some w => rfl
  | none =>
    dsimp only
    split <;> rfl

theorem removeWriteSession_withLocks :
    removeWriteSession (s.withLocks T) f u i = (removeWriteSession s f u i).withLocks T := by
  unfold removeWriteSession
  rw [getWriteSession_withLocks]
  cases getWriteSession s f u i <;> rfl

theorem startWriteSession_withLocks : startWriteSession io (s.withLocks T) f u i =
    ((startWriteSession io s f u i).1.withLocks T, (startWriteSession io s f u i).2) := by
  unfold startWriteSession
  simp only [disk_withLocks, path_withLocks, createWriteSession_withLocks]
  generalize ((parseFile io s.disk (s.path f)).map (·.sentenceCount)).getD 0 = count
  cases createWriteSession s f u i count with
  | none => rfl
  | some t =>
    simp only [Option.map_some, getWriteSession_withLocks, disk_withLocks, path_withLocks]
    cases getWriteSession t f u i with
    | none => rfl
    | some w =>
      simp only
      cases writeFile io t.disk w.tempFilepath ((readFile io t.disk (t.path f)).getD []) with
      | none => exact congrArg (·, ERR_SERVER_ERROR) (removeWriteSession_withLocks t T f u i)
      | some disk => rfl

theorem writeFileSs_withLocks (wordIdx : Int32) (content : CStr) :
    writeFileSs io (s.withLocks T) f u i wordIdx content =
      ((writeFileSs io s f u i wordIdx content).1.withLocks T, (writeFileSs io s f u i wordIdx content).2) := by
  obtain ⟨id, disk, locks, ws, queues⟩ := s
  unfold writeFileSs getWriteSession StorageServer.withLocks
  dsimp only
  cases ws.find? (isSession f u i) with
  | none => rfl
  | some w =>
    dsimp only
    split
    · rfl
    · cases insertWordInSentence (parseTemp io disk w.tempFilepath) i.toInt wordIdx.toInt content with
      | none => rfl
      | some res =>
        dsimp only
        cases writeFile io disk w.tempFilepath res.1.text <;> rfl

theorem processCommitQueue_withLocks :
    processCommitQueue io (s.withLocks T) f = (processCommitQueue io s f).withLocks T := by
  unfold processCommitQueue
  simp only [disk_withLocks, path_withLocks, commitQueues_withLocks]
  cases s.commitQueues.find? (·.filename = f) <;> rfl

theorem commitWriteSession_withLocks : commitWriteSession io (s.withLocks T) f u i =
    ((commitWriteSession io s f u i).1.withLocks T, (commitWriteSession io s f u i).2) := by
  unfold commitWriteSession
  simp only [getWriteSession_withLocks, commitQueues_withLocks, removeWriteSession_withLocks]
  cases getWriteSession s f u i with
  | none => rfl
  | some w =>
    simp only
    cases enqueueCommit f ⟨u, i, w.originalSentenceCount, w.tempFilepath⟩ s.commitQueues with
    | none => rfl
    | some queues =>
      have hprocess := processCommitQueue_withLocks io { s with
        commitQueues := queues
        writeSessions := s.writeSessions.eraseP (isSession f u i) } T f
      exact congrArg (·, SUCCESS) hprocess

theorem undo_withLocks : handleClientRequest io (s.withLocks T) (.undo f) =
    ((handleClientRequest io s (.undo f)).1.withLocks T, (handleClientRequest io s (.undo f)).2) := by
  obtain ⟨id, disk, locks, ws, queues⟩ := s
  unfold handleClientRequest StorageServer.withLocks StorageServer.path
  dsimp only
  split <;> rfl

theorem fileLocks_undo : (handleClientRequest io s (.undo f)).1.fileLocks = s.fileLocks := by
  unfold handleClientRequest
  simp only
  split <;> rfl

/-- The commands that have to do with files only. -/
def NmCommand.OnFiles : NmCommand → Prop
  | .checkLocks _ | .create _ => False
  | _ => True

theorem command_withLocks (io : FsIo) {c : NmCommand} (h : c.OnFiles) : handleNmCommand io (s.withLocks T) c =
    ((handleNmCommand io s c).1.withLocks T, (handleNmCommand io s c).2) := by
  obtain ⟨id, disk, locks, ws, queues⟩ := s
  cases c with
  | checkLocks f | create f => exact h.elim
  | checkpoint f tag | viewCheckpoint f tag | revert f tag | readContent f => rfl
  | move f old new =>
    unfold handleNmCommand moveFileSs StorageServer.withLocks
    dsimp only
    cases rename io disk (folderPath id old f) (folderPath id new f) <;> rfl
  | delete f =>
    unfold handleNmCommand deleteFileSs StorageServer.withLocks StorageServer.path
    dsimp only
    split <;> rfl

theorem fileLocks_command (io : FsIo) {c : NmCommand} (h : c.OnFiles) :
    (handleNmCommand io s c).1.fileLocks = s.fileLocks := by
  cases c with
  | checkLocks f | create f => exact h.elim
  | checkpoint f tag | viewCheckpoint f tag | revert f tag | readContent f => rfl
  | move f old new =>
    unfold handleNmCommand moveFileSs
    dsimp only
    cases rename io s.disk (folderPath s.id old f) (folderPath s.id new f) <;> rfl
  | delete f =>
    unfold handleNmCommand deleteFileSs
    dsimp only
    split <;> rfl

end WithLocks

/-! ## Two servers -/

/-- Two servers that differ in free locks at most. -/
structure Alike (s t : StorageServer) : Prop where
  same : t = s.withLocks t.fileLocks
  held : ∀ f j, heldAt f j t.fileLocks = heldAt f j s.fileLocks

/-- The operations that end with `unlock_sentence_ss`, whose status says whether there was a lock to give back. -/
def Operation.GivesBack : Operation → Prop
  | .client (.unlockSentence ..) | .client (.cancelWrite ..) => True
  | _ => False

namespace Alike
variable {s t x : StorageServer} {f : Filename} {u : Username} {i : Int32}

/-- What does not touch the locks leaves the servers alike. -/
theorem lift (h : Alike s t) (hx : x.fileLocks = s.fileLocks) : Alike x (x.withLocks t.fileLocks) :=
  ⟨rfl, fun f j => by rw [fileLocks_withLocks, hx, h.held]⟩

theorem heldByOther_iff (h : Alike s t) : HeldByOther f i u t.fileLocks ↔ HeldByOther f i u s.fileLocks := by
  unfold HeldByOther
  rw [h.held]

theorem lockSentence (h : Alike s t) (io : Io) (f : Filename) (i : Int32) (u : Username) :
    Alike (lockSentence io s f i u).1 (lockSentence io t f i u).1 ∧
      (NetworkFileShare.lockSentence io t f i u).2 = (NetworkFileShare.lockSentence io s f i u).2 := by
  obtain ⟨tables, hs, -⟩ := lockSentence_spec io s f i u
  obtain ⟨tables', ht, -⟩ := lockSentence_spec io t f i u
  have hsame : (NetworkFileShare.lockSentence io t f i u).1 = (NetworkFileShare.lockSentence io s f i u).1.withLocks
      (NetworkFileShare.lockSentence io t f i u).1.fileLocks := by
    rw [ht, hs, h.same]
    rfl
  rcases lockSentence_heldAt io s f i u with ⟨hi, hst, hheld⟩ | ⟨hi, hother, hst, hheld⟩ | ⟨hi, hother, hst, hheld⟩ <;>
    rcases lockSentence_heldAt io t f i u with
      ⟨hi', hst', hheld'⟩ | ⟨hi', hother', hst', hheld'⟩ | ⟨hi', hother', hst', hheld'⟩
  all_goals first
    | omega
    | exact absurd (h.heldByOther_iff.mp hother') hother
    | exact absurd (h.heldByOther_iff.mpr hother) hother'
    | exact ⟨⟨hsame, fun g j => by rw [hheld', hheld, h.held]⟩, hst'.trans hst.symm⟩

theorem unlockSentence (h : Alike s t) (f : Filename) (i : Int32) (u : Username) :
    Alike (unlockSentence s f i u).1 (unlockSentence t f i u).1 := by
  obtain ⟨tables, hs, -⟩ := unlockSentence_spec s f i u
  obtain ⟨tables', ht, -⟩ := unlockSentence_spec t f i u
  refine ⟨?_, fun g j => ?_⟩
  · rw [ht, hs, h.same]
    rfl
  · rw [heldAt_unlockSentence, heldAt_unlockSentence, h.held, h.held]

theorem lock_request (h : Alike s t) (io : Io) (f : Filename) (u : Username) (i : Int32) :
    Alike (handleClientRequest io s (.lockSentence f u i)).1 (handleClientRequest io t (.lockSentence f u i)).1 ∧
      (handleClientRequest io t (.lockSentence f u i)).2 = (handleClientRequest io s (.lockSentence f u i)).2 := by
  obtain ⟨hlock, hstatus⟩ := h.lockSentence io f i u
  unfold handleClientRequest
  have hcontent : parseFile io t.disk (t.path f) = parseFile io s.disk (s.path f) := by rw [h.same]; rfl
  simp only [hcontent]
  split
  · exact ⟨h, rfl⟩
  · rcases hs : NetworkFileShare.lockSentence io s f i u with ⟨s', status⟩
    rcases ht : NetworkFileShare.lockSentence io t f i u with ⟨t', status'⟩
    rw [hs, ht] at hlock hstatus
    obtain rfl : status' = status := hstatus
    simp only at hlock ⊢
    split
    · have hstart := startWriteSession_withLocks io s' t'.fileLocks f u i
      rw [← hlock.same] at hstart
      have hlocks : (startWriteSession io s' f u i).1.fileLocks = s'.fileLocks := fileLocks_startWriteSession
      have hlift := hlock.lift hlocks
      rw [hstart]
      rcases hstarted : startWriteSession io s' f u i with ⟨s'', sessionStatus⟩
      rw [hstarted] at hlift
      simp only at hlift ⊢
      split
      · exact ⟨hlift.unlockSentence f i u, rfl⟩
      · exact ⟨hlift, rfl⟩
    · exact ⟨hlock, rfl⟩

theorem cancel_request (h : Alike s t) (io : Io) (f : Filename) (u : Username) (i : Int32) :
    Alike (handleClientRequest io s (.cancelWrite f u i)).1 (handleClientRequest io t (.cancelWrite f u i)).1 := by
  show Alike (NetworkFileShare.unlockSentence (removeWriteSession s f u i) f i u).1
    (NetworkFileShare.unlockSentence (removeWriteSession t f u i) f i u).1
  have hremove := removeWriteSession_withLocks s t.fileLocks f u i
  rw [← h.same] at hremove
  rw [hremove]
  obtain ⟨disk, hspec, -⟩ := removeWriteSession_spec s f u i
  exact (h.lift (by rw [hspec])).unlockSentence f i u

theorem unlock_request (h : Alike s t) (io : Io) (f : Filename) (u : Username) (i : Int32) :
    Alike (handleClientRequest io s (.unlockSentence f u i)).1
      (handleClientRequest io t (.unlockSentence f u i)).1 := by
  have hcommit := congrArg Prod.fst (commitWriteSession_withLocks io s t.fileLocks f u i)
  rw [← h.same] at hcommit
  rw [handle_unlock, handle_unlock, hcommit]
  obtain ⟨disk, queues, hspec⟩ := commitWriteSession_sessions io s f u i
  exact (h.lift (by rw [hspec])).unlockSentence f i u

theorem create (h : Alike s t) (io : FsIo) (f : Filename) :
    Alike (handleNmCommand io s (.create f)).1 (handleNmCommand io t (.create f)).1 ∧
      (handleNmCommand io t (.create f)).2 = (handleNmCommand io s (.create f)).2 := by
  have hdisk : t.disk = s.disk := by rw [h.same]; rfl
  have hpath : t.path f = s.path f := by rw [h.same]; rfl
  show Alike (createFileSs io s f).1 (createFileSs io t f).1 ∧
    (⟨(createFileSs io t f).2, []⟩ : Reply) = ⟨(createFileSs io s f).2, []⟩
  unfold createFileSs
  rw [hdisk, hpath]
  split
  · exact ⟨h, rfl⟩
  · split
    · exact ⟨h, rfl⟩
    · refine ⟨⟨?_, fun g j => ?_⟩, rfl⟩
      · rw [h.same]
        rfl
      · rw [heldAt_init, heldAt_init, h.held]

/-- Working on the files only, two servers do the same. -/
theorem of_files (h : Alike s t) {r : StorageServer × Reply} {r' : StorageServer × Reply}
    (hx : r.1.fileLocks = s.fileLocks) (hr : r' = (r.1.withLocks t.fileLocks, r.2)) :
    Alike r.1 r'.1 ∧ r'.2 = r.2 := by
  subst hr
  exact ⟨h.lift hx, rfl⟩

theorem request (h : Alike s t) (io : FsIo) (r : Request) :
    Alike (Operation.handle io s (.client r)).1 (Operation.handle io t (.client r)).1 ∧
      (¬ Operation.GivesBack (.client r) →
        (Operation.handle io t (.client r)).2 = (Operation.handle io s (.client r)).2) := by
  cases r with
  | read f =>
    refine ⟨h, fun _ => ?_⟩
    rw [h.same]
    rfl
  | lockSentence f u i =>
    obtain ⟨hlock, hstatus⟩ := h.lock_request io.toIo f u i
    exact ⟨hlock, fun _ => congrArg (Reply.mk · []) hstatus⟩
  | write f u i wordIdx data =>
    have hwrite := writeFileSs_withLocks io.toIo s t.fileLocks f u i wordIdx data
    rw [← h.same] at hwrite
    have hlocks : (writeFileSs io.toIo s f u i wordIdx data).1.fileLocks = s.fileLocks := by
      rcases writeFileSs_cases io.toIo s f u i wordIdx data with ⟨hsame, -⟩ | ⟨w, fc, k, -, -, hwrite⟩
      · rw [hsame]
      · rw [hwrite]
    have hres : Operation.handle io t (.client (.write f u i wordIdx data)) =
        ((Operation.handle io s (.client (.write f u i wordIdx data))).1.withLocks t.fileLocks,
          (Operation.handle io s (.client (.write f u i wordIdx data))).2) :=
      congrArg (fun r => (r.1, Reply.mk r.2 [])) hwrite
    obtain ⟨halike, hreply⟩ := h.of_files hlocks hres
    exact ⟨halike, fun _ => hreply⟩
  | unlockSentence f u i => exact ⟨h.unlock_request io.toIo f u i, fun hno => absurd trivial hno⟩
  | cancelWrite f u i => exact ⟨h.cancel_request io.toIo f u i, fun hno => absurd trivial hno⟩
  | undo f =>
    have hundo := undo_withLocks io.toIo s t.fileLocks f
    rw [← h.same] at hundo
    have halike := h.of_files (r := Operation.handle io s (.client (.undo f))) (fileLocks_undo io.toIo s f)
      (congrArg (fun r => (r.1, Reply.mk r.2 [])) hundo)
    exact ⟨halike.1, fun _ => halike.2⟩

theorem command (h : Alike s t) (io : FsIo) (c : NmCommand) :
    Alike (handleNmCommand io s c).1 (handleNmCommand io t c).1 ∧
      (handleNmCommand io t c).2 = (handleNmCommand io s c).2 := by
  by_cases hfiles : c.OnFiles
  · have hcommand := command_withLocks s t.fileLocks io hfiles
    rw [← h.same] at hcommand
    exact h.of_files (fileLocks_command s io hfiles) hcommand
  · cases c with
    | checkLocks f =>
      refine ⟨h, ?_⟩
      have hlocked : checkFileLocks t f = checkFileLocks s f := by
        rw [Bool.eq_iff_iff, checkFileLocks_iff, checkFileLocks_iff]
        simp only [h.held]
      show (⟨if checkFileLocks t f then _ else _, _⟩ : Reply) = ⟨if checkFileLocks s f then _ else _, _⟩
      rw [hlocked]
    | create f => exact h.create io f
    | _ => exact absurd trivial hfiles

/-- **An operation leaves two servers alike**, with the same reply, if it gives no lock back. -/
theorem handle (h : Alike s t) (io : FsIo) (op : Operation) :
    Alike (op.handle io s).1 (op.handle io t).1 ∧
      (¬ op.GivesBack → (op.handle io t).2 = (op.handle io s).2) := by
  cases op with
  | client r => exact h.request io r
  | command c => exact ⟨(h.command io c).1, fun _ => (h.command io c).2⟩

theorem handleAll (h : Alike s t) (es : List (FsIo × Operation)) :
    Alike (handleAll s es).1 (NetworkFileShare.handleAll t es).1 := by
  induction es generalizing s t with
  | nil => exact h
  | cons e es ih => exact ih (h.handle e.1 e.2).1

end Alike

/-! ## The content of one file -/

/-- The file, its backup, its checkpoints and the private copies made of it. -/
inductive OfFile (id : Int32) (f : Filename) : Path → Prop where
  | main : OfFile id f (filePath id f)
  | backup : OfFile id f (undoPath (filePath id f))
  | checkpoint (tag : Tag) : OfFile id f (checkpointPath (filePath id f) tag)
  | copy (u : Username) (i : Int32) : OfFile id f (tempPath id f u i)

/-- A session without what it has taken from the content of `f`. -/
def WriteSession.forget (f : Filename) (w : WriteSession) : WriteSession :=
  if w.filename = f then { w with originalSentenceCount := 0 } else w

/-- A queue without what its commits have taken from the content of `f`. -/
def FileCommitQueue.forget (f : Filename) (q : FileCommitQueue) : FileCommitQueue :=
  if q.filename = f then { q with entries := q.entries.map ({ · with originalSentenceCount := 0 }) } else q

/-- Two servers that differ in the content of `f`, and in what has been made of it, at most. -/
structure SameBut (f : Filename) (s t : StorageServer) : Prop where
  id : t.id = s.id
  disk : ∀ p, ¬ OfFile s.id f p → t.disk p = s.disk p
  sessions : t.writeSessions.map (·.forget f) = s.writeSessions.map (·.forget f)
  queues : t.commitQueues.map (·.forget f) = s.commitQueues.map (·.forget f)
  held : ∀ g j, heldAt g j t.fileLocks = heldAt g j s.fileLocks

/-- What has been made of the file, and outlives it, is the same. -/
structure SameTraces (f : Filename) (s t : StorageServer) : Prop where
  checkpoints : ∀ tag, t.disk (checkpointPath (s.path f) tag) = s.disk (checkpointPath (s.path f) tag)
  copies : ∀ u i, t.disk (tempPath s.id f u i) = s.disk (tempPath s.id f u i)
  sessions : t.writeSessions = s.writeSessions
  queues : t.commitQueues = s.commitQueues

/-- Nothing that has been made of the file is left. -/
structure NoTraces (f : Filename) (s : StorageServer) : Prop where
  checkpoints : ∀ tag, s.disk (checkpointPath (s.path f) tag) = none
  copies : ∀ u i, s.disk (tempPath s.id f u i) = none
  sessions : ∀ w ∈ s.writeSessions, w.filename ≠ f
  queues : ∀ q ∈ s.commitQueues, q.filename = f → q.entries = []

theorem NoTraces.forget_sessions {f : Filename} {s : StorageServer} (h : NoTraces f s) :
    s.writeSessions.map (·.forget f) = s.writeSessions := by
  refine (List.map_congr_left fun w hw => ?_).trans s.writeSessions.map_id
  exact if_neg (h.sessions w hw)

theorem NoTraces.forget_queues {f : Filename} {s : StorageServer} (h : NoTraces f s) :
    s.commitQueues.map (·.forget f) = s.commitQueues := by
  refine (List.map_congr_left fun q hq => ?_).trans s.commitQueues.map_id
  unfold FileCommitQueue.forget
  split
  · rename_i hname
    rw [h.queues q hq hname, List.map_nil, ← h.queues q hq hname]
    rfl
  · rfl

/-- Where nothing is left, it is the same. -/
theorem SameBut.sameTraces {f : Filename} {s t : StorageServer} (h : SameBut f s t) (hs : NoTraces f s)
    (ht : NoTraces f t) : SameTraces f s t where
  checkpoints tag := by rw [hs.checkpoints, ← path_eq_of_id h.id, ht.checkpoints]
  copies u i := by rw [hs.copies, ← h.id, ht.copies]
  sessions := by rw [← hs.forget_sessions, ← ht.forget_sessions, h.sessions]
  queues := by rw [← hs.forget_queues, ← ht.forget_queues, h.queues]

/-- The operations that tell something of the content of the file. -/
def Operation.Tells (f : Filename) : Operation → Prop
  | .client (.read g) | .client (.undo g) => g = f
  | .command (.viewCheckpoint g _) | .command (.revert g _) | .command (.readContent g) => g = f
  | _ => False

theorem deleteFileSs_success {s : StorageServer} {f : Filename} (h : (deleteFileSs s f).2 = SUCCESS) :
    (deleteFileSs s f).1 = { s with disk := unlink (unlink s.disk (s.path f)) (undoPath (s.path f)) } := by
  unfold deleteFileSs at h ⊢
  split
  · rename_i hnone
    rw [if_pos hnone] at h
    exact absurd (show ERR_FILE_NOT_FOUND = SUCCESS from h) (by decide)
  · rfl

/-- **The deletion leaves the servers alike.** -/
theorem alike_delete {s t : StorageServer} {f : Filename} (h : SameBut f s t) (htraces : SameTraces f s t)
    (hs : (deleteFileSs s f).2 = SUCCESS) (ht : (deleteFileSs t f).2 = SUCCESS) :
    Alike (deleteFileSs s f).1 (deleteFileSs t f).1 := by
  rw [deleteFileSs_success hs, deleteFileSs_success ht]
  have hpath : t.path f = s.path f := path_eq_of_id h.id f
  have hdisk : unlink (unlink t.disk (t.path f)) (undoPath (t.path f)) =
      unlink (unlink s.disk (s.path f)) (undoPath (s.path f)) := by
    rw [hpath]
    funext p
    by_cases hundo : p = undoPath (s.path f)
    · rw [hundo, unlink_self, unlink_self]
    rw [unlink_of_ne _ hundo, unlink_of_ne _ hundo]
    by_cases hmain : p = s.path f
    · rw [hmain, unlink_self, unlink_self]
    rw [unlink_of_ne _ hmain, unlink_of_ne _ hmain]
    by_cases hof : OfFile s.id f p
    · cases hof with
      | main => exact absurd rfl hmain
      | backup => exact absurd rfl hundo
      | checkpoint tag => exact htraces.checkpoints tag
      | copy u i => exact htraces.copies u i
    · exact h.disk p hof
  refine ⟨?_, h.held⟩
  show { t with disk := _ } = { s with disk := _, fileLocks := t.fileLocks }
  rw [hdisk, h.id, htraces.sessions, htraces.queues]

/-- **After the deletion nothing tells what the file held before**, if what has been made of it is the same. -/
theorem deleted_content_gone {s t : StorageServer} {f : Filename} (h : SameBut f s t) (htraces : SameTraces f s t)
    (hs : (deleteFileSs s f).2 = SUCCESS) (ht : (deleteFileSs t f).2 = SUCCESS) (es : List (FsIo × Operation))
    (io : FsIo) {op : Operation} (hop : op.Tells f) :
    (op.handle io (handleAll (deleteFileSs s f).1 es).1).2 =
      (op.handle io (handleAll (deleteFileSs t f).1 es).1).2 := by
  have halike := (alike_delete h htraces hs ht).handleAll es
  refine ((halike.handle io op).2 fun hgives => ?_).symm
  cases op with
  | command c => exact hgives
  | client r =>
    cases r with
    | unlockSentence _ _ _ | cancelWrite _ _ _ => exact hop
    | _ => exact hgives

/-! ## Two contents -/

def v1 : Tag := .strncpy (MAX_USERNAME - 1) (lit "v1")

/-- A server that has been started on one file. -/
def startedWith (text : CStr) : StorageServer := freshServer 1 (serverWith text).disk

/-- The file has been checkpointed. -/
def checkpointed (text : CStr) : StorageServer :=
  { startedWith text with disk := (createCheckpoint .allOpens (startedWith text).disk (filePath 1 notes) v1).1 }

theorem disk_startedWith (text : CStr) {p : Path} (hp : p ≠ filePath 1 notes) : (startedWith text).disk p = none := by
  show Function.update (fun _ => none) (filePath 1 notes) (some text) p = none
  rw [Function.update_of_ne hp]

theorem sameBut_startedWith (text text' : CStr) : SameBut notes (startedWith text) (startedWith text') where
  id := rfl
  disk p hp := by
    have hmain : p ≠ filePath 1 notes := fun he => hp (he ▸ .main)
    rw [disk_startedWith text hmain, disk_startedWith text' hmain]
  sessions := rfl
  queues := rfl
  held _ _ := rfl

theorem noTraces_startedWith (text : CStr) : NoTraces notes (startedWith text) where
  checkpoints tag := disk_startedWith text (checkpointPath_ne_filePath 1 notes tag)
  copies u i := disk_startedWith text (tempPath_ne_filePath 1 notes u i)
  sessions w hw := by cases hw
  queues q hq := by cases hq

theorem deleted_content_gone_notes :
    (Operation.handle .allOpens
      (handleAll (deleteFileSs (startedWith (lit "x")) notes).1 (commanded [.create notes])).1
      (.client (.read notes))).2 =
    (Operation.handle .allOpens
      (handleAll (deleteFileSs (startedWith (lit "y")) notes).1 (commanded [.create notes])).1
      (.client (.read notes))).2 := by
  have hop : Operation.Tells notes (.client (.read notes)) := rfl
  have hsame := sameBut_startedWith (lit "x") (lit "y")
  exact deleted_content_gone hsame (hsame.sameTraces (noTraces_startedWith _) (noTraces_startedWith _))
    (by decide) (by decide) (commanded [.create notes]) FsIo.allOpens hop

theorem run_checkpointed (text : CStr) :
    Run StoreStep (startedWith text) [(.allOpens, .command (.checkpoint notes v1))] (checkpointed text) :=
  Run.single rfl

theorem frame_checkpointed (text : CStr) :
    Frame (· = checkpointPath (filePath 1 notes) v1) (startedWith text).disk (checkpointed text).disk :=
  frame_createCheckpoint (W := (· = checkpointPath (filePath 1 notes) v1)) fun _ => rfl

theorem sameBut_checkpointed (text text' : CStr) : SameBut notes (checkpointed text) (checkpointed text') where
  id := rfl
  disk p hp := by
    have hne : p ≠ checkpointPath (filePath 1 notes) v1 := fun he => hp (he ▸ .checkpoint v1)
    rw [frame_checkpointed text p hne, frame_checkpointed text' p hne]
    exact (sameBut_startedWith text text').disk p hp
  sessions := rfl
  queues := rfl
  held _ _ := rfl

/-- **A checkpoint outlives the file**, and shows in the file of the same name what the old one held. -/
theorem deleted_content_shown :
    Run StoreStep (startedWith (lit "x")) [(.allOpens, .command (.checkpoint notes v1))] (checkpointed (lit "x")) ∧
      Run StoreStep (startedWith (lit "y")) [(.allOpens, .command (.checkpoint notes v1))] (checkpointed (lit "y")) ∧
      SameBut notes (checkpointed (lit "x")) (checkpointed (lit "y")) ∧
      (deleteFileSs (checkpointed (lit "x")) notes).2 = SUCCESS ∧
      (deleteFileSs (checkpointed (lit "y")) notes).2 = SUCCESS ∧
      (handleNmCommand .allOpens
          (handleAll (deleteFileSs (checkpointed (lit "x")) notes).1 (commanded [.create notes])).1
          (.viewCheckpoint notes v1)).2 = ⟨SUCCESS, lit "x"⟩ ∧
      (handleNmCommand .allOpens
          (handleAll (deleteFileSs (checkpointed (lit "y")) notes).1 (commanded [.create notes])).1
          (.viewCheckpoint notes v1)).2 = ⟨SUCCESS, lit "y"⟩ := by
  refine ⟨run_checkpointed _, run_checkpointed _, sameBut_checkpointed _ _, ?_, ?_, ?_, ?_⟩ <;> decide

end NetworkFileShare
