import NetworkFileShare.StorageServer.Isolation
import NetworkFileShare.StorageServer.Outcomes

/-!
# A deletion among edits

A file may have several names: the path `p` names the file `ρ p`.

* `LocksFree` : no sentence is locked under a name (`locksFree_of_check`, `returns_locksFree`); `FileFree` : under no
  name of the file;
* `commitWriteSession_away` : a commit does not make a file that is not there, unless the session was opened when it
  was empty; `throughout_present` : a file that is not removed stays there;
* `Watched` : a server, whether its last command was a `CHECK_LOCKS` of the file with the answer `SUCCESS`, and whether
  the file has been deleted and not been created since; `WatchStep` : a `DELETE` follows such a `CHECK_LOCKS`;
* `deletion_final` : the file is removed only when no lock is taken, and stays away, as long as the steps keep to
  `KeepsGone`; `deletion_raced`.
-/

namespace NetworkFileShare

/-! ## Locks -/

/-- No sentence of the file is locked. -/
def LocksFree (f : Filename) (tables : List FileLocks) : Prop :=
  ∀ i lock, getSentenceLock f i tables = some lock → lock.locked = false

section LocksFree
variable {f g : Filename} {u : Username} {i j : Int32} {io : Io} {s : StorageServer} {tables : List FileLocks}

/-- `check_file_locks` has looked at every lock of the file. -/
theorem locksFree_of_check (h : checkFileLocks s f = false) : LocksFree f s.fileLocks := by
  intro i lock hget
  unfold getSentenceLock at hget
  unfold checkFileLocks at h
  split at hget
  · cases hget
  · rename_i e hfind
    simp only [hfind, List.any_eq_false, Bool.not_eq_true] at h
    split at hget
    · exact h lock (List.mem_of_getElem? hget)
    · cases hget

/-- A lock that is found after an overwrite is the new one, or was there before. -/
theorem getSentenceLock_set {lock new : SentenceLock} : ∀ {tables : List FileLocks},
    getSentenceLock f i (setSentenceLock g j new tables) = some lock →
      lock = new ∨ getSentenceLock f i tables = some lock
  | [], h => Or.inr h
  | e :: es, h => by
    rw [getSentenceLock_cons]
    unfold setSentenceLock at h
    by_cases hg : e.filename = g
    · rw [if_pos hg, getSentenceLock_cons] at h
      by_cases hf : e.filename = f
      · simp only [if_pos hf] at h ⊢
        by_cases hi : 0 ≤ i.toInt
        · rw [if_pos hi] at h ⊢
          rw [List.getElem?_set] at h
          split at h
          · split at h
            · exact Or.inl (Option.some.inj h).symm
            · cases h
          · exact Or.inr h
        · rw [if_neg hi] at h
          cases h
      · simp only [if_neg hf] at h ⊢
        exact Or.inr h
    · rw [if_neg hg, getSentenceLock_cons] at h
      by_cases hf : e.filename = f
      · rw [if_pos hf] at h ⊢
        exact Or.inr h
      · rw [if_neg hf] at h ⊢
        exact getSentenceLock_set h

/-- The locks of another file are where they were when the table grows. -/
theorem getSentenceLock_init_of_ne (hne : g ≠ f) (count : Nat) : ∀ tables : List FileLocks,
    getSentenceLock f i (initFileLocks g count tables) = getSentenceLock f i tables
  | [] => by
    unfold initFileLocks
    rw [getSentenceLock_cons, if_neg hne]
  | e :: es => by
    unfold initFileLocks
    by_cases hg : e.filename = g
    · have hf : ¬ e.filename = f := fun hf => hne (hg.symm.trans hf)
      rw [if_pos hg, getSentenceLock_cons, getSentenceLock_cons, if_neg hf, if_neg hf]
    · rw [if_neg hg, getSentenceLock_cons, getSentenceLock_cons, getSentenceLock_init_of_ne hne count es]

/-- A lock that is found when the table has grown is free, or was there before. -/
theorem getSentenceLock_init_self {lock : SentenceLock} {count : Nat} : ∀ {tables : List FileLocks},
    getSentenceLock f i (initFileLocks f count tables) = some lock →
      lock = .free ∨ getSentenceLock f i tables = some lock
  | [], h => by
    unfold initFileLocks at h
    rw [getSentenceLock_cons, if_pos rfl] at h
    split at h
    · exact Or.inl (List.eq_of_mem_replicate (List.mem_of_getElem? h))
    · cases h
  | e :: es, h => by
    rw [getSentenceLock_cons]
    unfold initFileLocks at h
    by_cases hf : e.filename = f
    · rw [if_pos hf, getSentenceLock_cons] at h
      simp only [if_pos hf] at h ⊢
      split at h
      · rename_i hi
        rw [if_pos hi]
        rw [List.getElem?_append] at h
        split at h
        · exact Or.inr h
        · exact Or.inl (List.eq_of_mem_replicate (List.mem_of_getElem? h))
      · cases h
    · rw [if_neg hf, getSentenceLock_cons] at h
      rw [if_neg hf] at h ⊢
      exact getSentenceLock_init_self h

/-- Giving a lock back takes none. -/
theorem locksFree_unlock (h : LocksFree f s.fileLocks) (g : Filename) (j : Int32) (u : Username) :
    LocksFree f (unlockSentence s g j u).1.fileLocks := by
  unfold unlockSentence
  split
  · exact h
  · split
    · exact h
    · intro i lock hget
      rcases getSentenceLock_set hget with rfl | hold
      · rfl
      · exact h i lock hold

theorem fileLocks_startWriteSession : (startWriteSession io s g u j).1.fileLocks = s.fileLocks := by
  rcases startWriteSession_cases io s g u j with ⟨hsame, -⟩ | ⟨t, w, hcreate, -, hres⟩
  · rw [hsame]
  · obtain ⟨ws, rfl, -⟩ := createWriteSession_spec hcreate
    rcases hres with ⟨-, -, ht⟩ | ⟨-, ht⟩
    · rw [ht]
    · obtain ⟨disk, hremove, -⟩ := removeWriteSession_spec { s with writeSessions := ws } g u j
      rw [ht, hremove]

/-- A lock under another name leaves the locks of this one as they are. -/
theorem locksFree_lockSentence (h : LocksFree f s.fileLocks) (hne : g ≠ f) :
    LocksFree f (lockSentence io s g j u).1.fileLocks := by
  have hinit : LocksFree f (initFileLocks g (j.toInt + 1).toNat s.fileLocks) := fun i lock hget =>
    h i lock ((getSentenceLock_init_of_ne hne _ _).symm.trans hget)
  unfold lockSentence
  simp only
  split
  · exact hinit
  · rename_i lock' hlock'
    split
    · exact hinit
    · intro i lock hget
      have hother : (f, i) ≠ (g, j) := fun he => hne (Prod.mk.inj he).1.symm
      rw [getSentenceLock_set_of_ne (nonneg_of_getSentenceLock hlock') hother] at hget
      exact hinit i lock hget

/-- New locks are not taken. -/
theorem locksFree_init (h : LocksFree f tables) (g : Filename) (count : Nat) :
    LocksFree f (initFileLocks g count tables) := by
  by_cases hne : g = f
  · subst hne
    intro i lock hget
    rcases getSentenceLock_init_self hget with rfl | hold
    · rfl
    · exact h i lock hold
  · exact fun i lock hget => h i lock ((getSentenceLock_init_of_ne hne _ _).symm.trans hget)

end LocksFree

/-- The entry is of a session that was opened at the beginning of an empty file. -/
def CommitQueueEntry.FromEmpty (e : CommitQueueEntry) : Prop :=
  e.originalSentenceCount = 0 ∧ e.sentenceIdx.toInt = 0

/-- A server without files. -/
def emptyServer : StorageServer := freshServer 1 fun _ => none

namespace Stdio

/-! ## Locks, whatever the calls answer -/

section
variable {f g : Filename} {s : StorageServer} {u : Username} {i : Int32}

theorem locksFree_leave {t : StorageServer} (h : LocksFree f s.fileLocks) (ht : t.fileLocks = s.fileLocks) :
    LocksFree f (unlockSentence t g i u).1.fileLocks := locksFree_unlock (ht ▸ h) g i u

/-- **A request takes no lock of the file**, if it is not a lock request for it. -/
theorem returns_locksFree (hs : StoreInv s) (io : Io) (h : LocksFree f s.fileLocks) (r : Request)
    (hother : ∀ u i, r ≠ .lockSentence f u i) :
    Returns (fun a => LocksFree f a.1.fileLocks) (handle io s (.client r)) := by
  cases r with
  | lockSentence g u i =>
    have hne : g ≠ f := fun hg => hother u i (hg ▸ rfl)
    have hlock : LocksFree f (lockSentence io s g i u).1.fileLocks := locksFree_lockSentence h hne
    obtain ⟨tables, htables, -⟩ := lockSentence_spec io s g i u
    refine Returns.bind (Returns.after fun _ => Returns.ite (fun _ => Returns.pure h) fun _ => ?_)
      fun _ h => Returns.pure h
    rcases hres : lockSentence io s g i u with ⟨t, status⟩
    rw [hres] at hlock htables
    obtain rfl : t = { s with fileLocks := tables } := htables
    refine Returns.ite (fun _ => ?_) fun _ => Returns.pure hlock
    refine Returns.bind (returns_startWriteSession (s := { s with fileLocks := tables }) hs.server.sessions)
      fun r hstarted => ?_
    obtain ⟨t, sessionStatus⟩ := r
    obtain ⟨ws, rfl⟩ : ∃ ws, t = { s with fileLocks := tables, writeSessions := ws } := ⟨_, hstarted.tables⟩
    exact Returns.ite (fun _ => Returns.pure (locksFree_leave hlock rfl)) fun _ => Returns.pure hlock
  | unlockSentence g u i =>
    refine Returns.bind (Returns.bind (returns_commitWriteSession hs) fun r hr => ?_) fun _ h => Returns.pure h
    obtain ⟨t, status⟩ := r
    obtain ⟨queues, rfl, -⟩ := hr
    exact Returns.ite (fun _ => Returns.pure (locksFree_leave h rfl)) fun _ => Returns.pure (locksFree_leave h rfl)
  | cancelWrite g u i =>
    refine Returns.bind returns_removeWriteSession fun t ht => Returns.pure ?_
    subst ht
    exact locksFree_leave h rfl
  | read g | write g u i wordIdx data | undo g => exact Returns.after fun _ => Returns.pure h

end

/-! ## Files that are not there -/

section
variable {ρ : Path → Path} {io : FsIo} {d : Disk} {path : Path}

theorem unlink_absent {file : Path} (h : d file = none) (q : Path) : NetworkFileShare.unlink d q file = none := by
  by_cases hq : file = q
  · rw [hq, unlink_self]
  · rw [unlink_of_ne d hq, h]

theorem readFile_absent (haway : d (ρ path) = none) : readFile io.toIo (d ∘ ρ) path = none := by
  rw [readFile, Function.comp_apply, haway, ite_self]

/-- **A round of the loop does not make the file**, unless the session was opened when it was empty. -/
theorem commitEntry_away {entry : CommitQueueEntry} (haway : d (ρ path) = none) (hskip : ¬ entry.FromEmpty) :
    runCalls (FsOp.exec ρ io) (commitEntry path entry) (.closed d) =
      (true, .closed (NetworkFileShare.unlink d (ρ entry.tempFilepath))) := by
  have hmain : NetworkFileShare.parseFile io.toIo (d ∘ ρ) path = none := by
    rw [NetworkFileShare.parseFile, readFile_absent haway]
    rfl
  rw [commitEntry, runCalls_bind, runCalls_parseFile, hmain]
  dsimp only
  rw [runCalls_bind, runCalls_parseFile]
  cases NetworkFileShare.parseFile io.toIo (d ∘ ρ) entry.tempFilepath with
  | none => rfl
  | some temp =>
    -- the file counts no sentence, so the index is out of bounds
    dsimp only [Option.getD_none]
    rw [CommitQueueEntry.FromEmpty] at hskip
    rw [if_pos (by omega)]
    rfl

theorem processEntries_away : ∀ {entries : List CommitQueueEntry} {d : Disk}, d (ρ path) = none →
    (∀ e ∈ entries, ¬ e.FromEmpty) → ∃ d', runCalls (FsOp.exec ρ io) (processEntries path entries) (.closed d) =
      ([], .closed d') ∧ d' (ρ path) = none
  | [], d, haway, _ => ⟨d, rfl, haway⟩
  | entry :: entries, d, haway, hskip => by
    obtain ⟨d', hrun, haway'⟩ := processEntries_away (unlink_absent haway (ρ entry.tempFilepath))
      fun e he => hskip e (List.mem_cons_of_mem _ he)
    refine ⟨d', ?_, haway'⟩
    rw [processEntries, runCalls_bind, commitEntry_away haway (hskip entry List.mem_cons_self)]
    exact hrun

/-- A file that is not there is not backed up. -/
theorem backupFor_away (haway : d (ρ path) = none) (entries : List CommitQueueEntry) :
    runCalls (FsOp.exec ρ io) (backupFor path entries) (.closed d) = ((), .closed d) := by
  unfold backupFor
  split
  · rfl
  · rw [runCalls_bind, createUndoBackup, runCalls_bind, copyFile, runCalls_bind, runCalls_perform]
    simp only [FsOp.exec, readFile_absent haway]
    rfl

theorem processCommitQueue_away {s : StorageServer} {f : Filename} (haway : s.disk (ρ (s.path f)) = none)
    (hqueue : ∀ e ∈ s.pendingOf f, ¬ e.FromEmpty) :
    (runCalls (FsOp.exec ρ io) (processCommitQueue s f) (.closed s.disk)).2.disk (ρ (s.path f)) = none := by
  unfold StorageServer.pendingOf entriesOf at hqueue
  unfold processCommitQueue
  cases hfind : s.commitQueues.find? (·.filename = f) with
  | none => exact haway
  | some queue =>
    rw [hfind] at hqueue
    obtain ⟨d', hrun, haway'⟩ : ∃ d', runCalls (FsOp.exec ρ io) (processEntries (s.path f) queue.entries)
        (.closed s.disk) = ([], .closed d') ∧ d' (ρ (s.path f)) = none := processEntries_away haway hqueue
    dsimp only
    rw [runCalls_bind, backupFor_away haway, runCalls_bind]
    dsimp only
    rw [hrun]
    exact haway'

/-- **A commit does not make the file**, unless a session was opened when it was empty. -/
theorem commitWriteSession_away {s : StorageServer} {f : Filename} {u : Username} {i : Int32}
    (haway : s.disk (ρ (s.path f)) = none)
    (hsession : ∀ w, getWriteSession s f u i = some w → ¬ (w.originalSentenceCount = 0 ∧ i.toInt = 0))
    (hqueue : ∀ e ∈ s.pendingOf f, ¬ e.FromEmpty) :
    (runCalls (FsOp.exec ρ io) (commitWriteSession s f u i) (.closed s.disk)).2.disk (ρ (s.path f)) = none := by
  unfold commitWriteSession
  cases hget : getWriteSession s f u i with
  | none => exact haway
  | some w =>
    dsimp only
    cases hroom : enqueueCommit f ⟨u, i, w.originalSentenceCount, w.tempFilepath⟩ s.commitQueues with
    | none =>
      rw [removeWriteSession, hget]
      exact unlink_absent haway _
    | some queues =>
      dsimp only
      rw [runCalls_bind]
      refine processCommitQueue_away (s := { s with
        commitQueues := queues
        writeSessions := s.writeSessions.eraseP (isSession f u i) }) haway fun e he => ?_
      rw [StorageServer.pendingOf, enqueueCommit_spec hroom] at he
      rcases List.mem_append.mp he with he | he
      · exact hqueue e he
      · rw [List.mem_singleton.mp he]
        exact hsession w hget

/-! ## Files that are there -/

/-- A file that the calls do not remove stays there. -/
theorem throughout_present {α : Type} {R W D : Path → Prop} {file : Path} {p : FsProg α} {t : Fs}
    (hp : Prog.Only (FsOp.On R W D) p) (hkeep : ∀ q, D q → ρ q ≠ file) (h : t.disk file ≠ none) :
    Throughout (FsOp.exec ρ io) (fun t => t.disk file ≠ none) p t := by
  have hmake : ∀ {d : Disk} {q : Path} {text : CStr}, d file ≠ none → Function.update d q (some text) file ≠ none := by
    intro d q text hthere
    by_cases hq : file = q
    · rw [hq, Function.update_self]
      exact Option.some_ne_none text
    · rwa [Function.update_of_ne hq]
  have hunlink : ∀ {d : Disk} {q : Path}, d file ≠ none → q ≠ file → NetworkFileShare.unlink d q file ≠ none :=
    fun hthere hq => by rwa [unlink_of_ne _ hq.symm]
  refine throughout_of_only (fun op t hon hthere => ?_) hp h
  cases op with
  | access q | fopenRead q | fread q | fwrite bytes => exact hthere
  | fopenWrite q =>
    simp only [FsOp.exec]
    split
    · exact hmake hthere
    · exact hthere
  | fclose =>
    simp only [FsOp.exec]
    split
    · exact hthere
    · exact hmake hthere
  | unlink q => exact hunlink hthere (hkeep q hon)
  | rename old new =>
    simp only [FsOp.exec]
    split
    · exact hthere
    · split
      · exact hmake (hunlink hthere (hkeep old hon.1))
      · exact hthere

end

/-! ## The run -/

/-- A server, with what its history says of one file: whether the last command was a `CHECK_LOCKS` of the file with
the answer `SUCCESS`, and whether the file has been deleted and not been created since. -/
structure Watched where
  server : StorageServer
  checked : Bool
  gone : Bool

def watch (s : StorageServer) : Watched := ⟨s, false, false⟩

/-- What clients do to edit, and the commands that make and delete files; a `DELETE` of the file is sent right after
a `CHECK_LOCKS` that was answered with `SUCCESS`. -/
def InOrder (f : Filename) (t : Watched) : Operation → Prop
  | .client (.lockSentence ..) | .client (.write ..) | .client (.unlockSentence ..) | .client (.cancelWrite ..) => True
  | .command (.checkLocks _) | .command (.create _) => True
  | .command (.delete g) => g = f → t.checked = true
  | _ => False

/-- The server after an operation, and its history. -/
def Watched.next (ρ : Path → Path) (f : Filename) (t : Watched) (io : FsIo) (op : Operation) : Watched :=
  let (s, reply) := handled ρ io t.server op
  { server := s
    checked := match op with
      | .client _ => t.checked
      | .command (.checkLocks g) => decide (g = f ∧ reply.status = SUCCESS)
      | .command _ => false
    gone := match op with
      | .command (.delete g) => decide (g = f ∧ reply.status = SUCCESS) || t.gone
      | .command (.create g) => !decide (g = f ∧ reply.status = SUCCESS) && t.gone
      | _ => t.gone }

def WatchStep (ρ : Path → Path) (f : Filename) (t : Watched) (e : FsIo × Operation) (u : Watched) : Prop :=
  InOrder f t e.2 ∧ u = t.next ρ f e.1 e.2

/-- The name is one of the file. -/
def Names (ρ : Path → Path) (s : StorageServer) (f g : Filename) : Prop := ρ (s.path g) = ρ (s.path f)

/-- The file is locked under its own name only, and not between `CHECK_LOCKS` and `DELETE`, and no private copy is the
file. No other deletion removes it. While it is gone it is not created under another name, no backup has its name, and
no commit is of a session that was opened at the beginning of an empty file. -/
def KeepsGone (ρ : Path → Path) (f : Filename) (t : Watched) (e : FsIo × Operation) : Prop :=
  match e.2 with
  | .client (.lockSentence g u i) =>
    lockIndexInvalid (NetworkFileShare.parseFile e.1.toIo (t.server.disk ∘ ρ) (t.server.path g)) i.toInt = false →
      (Names ρ t.server f g → g = f ∧ t.checked = false) ∧ ρ (tempPath t.server.id g u i) ≠ ρ (t.server.path f)
  | .client (.unlockSentence g u i) => t.gone = true → ρ (undoPath (t.server.path g)) ≠ ρ (t.server.path f) ∧
      (g = f → (∀ w, getWriteSession t.server f u i = some w → ¬ (w.originalSentenceCount = 0 ∧ i.toInt = 0)) ∧
        ∀ e ∈ t.server.pendingOf f, ¬ e.FromEmpty)
  | .command (.create g) => g ≠ f → t.gone = true → ¬ Names ρ t.server f g
  | .command (.delete g) => g ≠ f → ¬ Names ρ t.server f g ∧ ρ (undoPath (t.server.path g)) ≠ ρ (t.server.path f)
  | _ => True

/-- No sentence of the file is locked, under any of its names. -/
def FileFree (ρ : Path → Path) (f : Filename) (s : StorageServer) : Prop :=
  ∀ g, Names ρ s f g → LocksFree g s.fileLocks

/-- **What holds of the file along the run**: sessions on it have its name, and none has it for its copy; a `DELETE`
that may come next finds its locks free; and while it is gone it is not there. -/
structure Final (ρ : Path → Path) (f : Filename) (t : Watched) : Prop where
  inv : StoreInv t.server
  sessions : ∀ g u i, InPlay t.server g u i →
    (Names ρ t.server f g → g = f) ∧ ρ (tempPath t.server.id g u i) ≠ ρ (t.server.path f)
  otherNames : ∀ g, g ≠ f → Names ρ t.server f g → LocksFree g t.server.fileLocks
  unlocked : t.checked = true → LocksFree f t.server.fileLocks
  away : t.gone = true → t.server.disk (ρ (t.server.path f)) = none

section Final
variable {ρ : Path → Path} {f : Filename} {t u : Watched} {io : FsIo} {op : Operation}

/-- The lock requests of the step have a valid index. -/
def LocksValid (ρ : Path → Path) (io : FsIo) (s : StorageServer) (op : Operation) : Prop :=
  ∀ g u i, op = .client (.lockSentence g u i) →
    lockIndexInvalid (NetworkFileShare.parseFile io.toIo (s.disk ∘ ρ) (s.path g)) i.toInt = false

theorem next_or_locksValid (ρ : Path → Path) (f : Filename) (t : Watched) (io : FsIo) (op : Operation) :
    t.next ρ f io op = t ∨ LocksValid ρ io t.server op := by
  by_cases hop : ∃ g u i, op = .client (.lockSentence g u i)
  · obtain ⟨g, v, i, rfl⟩ := hop
    cases hinvalid : lockIndexInvalid (NetworkFileShare.parseFile io.toIo (t.server.disk ∘ ρ) (t.server.path g)) i.toInt
    · refine Or.inr fun g' v' i' he => ?_
      cases he
      exact hinvalid
    · refine Or.inl ?_
      obtain ⟨s, checked, gone⟩ := t
      show Watched.mk (handled ρ io s (.client (.lockSentence g v i))).1 checked gone = _
      rw [handled_lock_invalid hinvalid]
  · exact Or.inr fun g u i he => absurd ⟨g, u, i, he⟩ hop

/-- The sessions of the next state. -/
theorem Final.sessions_next (h : Final ρ f t) (hkeeps : KeepsGone ρ f t (io, op)) (hvalid : LocksValid ρ io t.server op)
    {g : Filename} {v : Username} {i : Int32} (hplay : InPlay (handled ρ io t.server op).1 g v i) :
    (Names ρ t.server f g → g = f) ∧ ρ (tempPath t.server.id g v i) ≠ ρ (t.server.path f) := by
  rcases (handled_effect h.inv ρ io op).inPlay g v i hplay with hold | hopen
  · exact h.sessions g v i hold
  · cases op with
    | command c => cases hopen
    | client r =>
      cases r with
      | lockSentence g' v' i' =>
        obtain ⟨rfl, rfl, rfl⟩ : g' = g ∧ v' = v ∧ i' = i := by simpa [Operation.opens] using hopen
        have hlock := hkeeps (hvalid g' v' i' rfl)
        exact ⟨fun hname => (hlock.1 hname).1, hlock.2⟩
      | _ => cases hopen

/-- No request takes a lock under a name that may not be locked. -/
theorem Final.locksFree_client (h : Final ρ f t) {r : Request} (hkeeps : KeepsGone ρ f t (io, .client r))
    (hvalid : LocksValid ρ io t.server (.client r)) {g : Filename} (hname : Names ρ t.server f g)
    (hlock : g = f → t.checked = true) (hfree : LocksFree g t.server.fileLocks) :
    LocksFree g (handled ρ io t.server (.client r)).1.fileLocks := by
  refine (returns_locksFree h.inv io.toIo hfree r fun v i he => ?_).runCalls _
  subst he
  obtain ⟨rfl, hchecked⟩ := (hkeeps (hvalid g v i rfl)).1 hname
  rw [hlock rfl] at hchecked
  cases hchecked

theorem Final.otherNames_next (h : Final ρ f t) (hkeeps : KeepsGone ρ f t (io, op))
    (hvalid : LocksValid ρ io t.server op) (horder : InOrder f t op) {g : Filename} (hne : g ≠ f)
    (hname : Names ρ t.server f g) : LocksFree g (handled ρ io t.server op).1.fileLocks := by
  have hfree := h.otherNames g hne hname
  cases op with
  | client r => exact h.locksFree_client hkeeps hvalid hname (fun he => absurd he hne) hfree
  | command c =>
    cases c with
    | checkLocks g' => exact hfree
    | create g' =>
      have hcreate : Returns (fun a => LocksFree g a.1.fileLocks) (handle io.toIo t.server (.command (.create g'))) :=
        Returns.bind (Returns.after fun _ => Returns.ite (fun _ => Returns.pure hfree) fun _ => Returns.after fun _ =>
          Returns.ite (fun _ => Returns.pure (locksFree_init hfree g' 1)) fun _ => Returns.pure hfree)
          fun _ h => Returns.pure h
      exact hcreate.runCalls _
    | delete g' =>
      have hdelete : Returns (fun a => LocksFree g a.1.fileLocks) (handle io.toIo t.server (.command (.delete g'))) :=
        Returns.after fun _ => Returns.pure hfree
      exact hdelete.runCalls _
    | _ => exact horder.elim

/-- `CHECK_LOCKS` has found no lock, and no client locks the file after it. -/
theorem Final.unlocked_next (h : Final ρ f t) (hkeeps : KeepsGone ρ f t (io, op))
    (hvalid : LocksValid ρ io t.server op) (hchecked : (t.next ρ f io op).checked = true) :
    LocksFree f (handled ρ io t.server op).1.fileLocks := by
  cases op with
  | client r => exact h.locksFree_client hkeeps hvalid rfl (fun _ => hchecked) (h.unlocked hchecked)
  | command c =>
    cases c with
    | checkLocks g =>
      have hchecked : decide (g = f ∧ (if checkFileLocks t.server g then ERR_FILE_LOCKED else SUCCESS) = SUCCESS) =
          true := hchecked
      rw [decide_eq_true_eq] at hchecked
      obtain ⟨rfl, hfree⟩ := hchecked
      by_cases hlocked : checkFileLocks t.server g = true
      · rw [if_pos hlocked] at hfree
        exact absurd hfree (by decide)
      · exact locksFree_of_check (Bool.not_eq_true _ ▸ hlocked)
    | _ => cases hchecked

/-- A `DELETE` leaves no file. -/
theorem disk_handled_delete (ρ : Path → Path) (io : FsIo) (s : StorageServer) (f : Filename) :
    (handled ρ io s (.command (.delete f))).1.disk (ρ (s.path f)) = none := by
  rw [handled_delete]
  split_ifs with hfile
  · exact hfile
  · exact unlink_absent (unlink_self ..) _

/-- A `CREATE` that has no success makes no file. -/
theorem disk_handled_create {s : StorageServer}
    (h : (handled ρ io s (.command (.create f))).2.status ≠ SUCCESS) :
    (handled ρ io s (.command (.create f))).1.disk = s.disk := by
  rw [handled_create] at h ⊢
  split_ifs at h ⊢ with hexists hwrite
  · rfl
  · exact absurd rfl h
  · rfl

/-- No client makes the file while it is gone. -/
theorem Final.away_client (h : Final ρ f t) {r : Request} (horder : InOrder f t (.client r))
    (hkeeps : KeepsGone ρ f t (io, .client r)) (hvalid : LocksValid ρ io t.server (.client r)) (hgone : t.gone = true) :
    (handled ρ io t.server (.client r)).1.disk (ρ (t.server.path f)) = none := by
  have haway := h.away hgone
  have hframe := (handled_effect h.inv ρ io (.client r)).frame
  cases r with
  | read _ | undo _ => exact horder.elim
  | lockSentence g v i =>
    refine (hframe _ ?_).trans haway
    rintro ⟨p, rfl, he⟩
    exact (hkeeps (hvalid g v i rfl)).2 he
  | write g v i wordIdx data =>
    refine (hframe _ ?_).trans haway
    rintro ⟨p, ⟨hplay, rfl⟩, he⟩
    exact (h.sessions g v i hplay).2 he
  | cancelWrite g v i =>
    refine (hframe _ ?_).trans haway
    rintro ⟨p, ⟨hplay, rfl⟩, he⟩
    exact (h.sessions g v i hplay).2 he
  | unlockSentence g v i =>
    obtain ⟨hundo, hempty⟩ := hkeeps hgone
    by_cases hg : g = f
    · subst hg
      rw [disk_handled_unlock]
      exact commitWriteSession_away haway (hempty rfl).1 (hempty rfl).2
    · refine (hframe _ ?_).trans haway
      rintro ⟨p, ⟨hplay, hp⟩, he⟩
      rcases hp with rfl | rfl | ⟨w, j, hcopy, rfl⟩
      · exact hg ((h.sessions g v i hplay).1 he)
      · exact hundo he
      · exact (h.sessions g w j hcopy).2 he

/-- No command makes the file while it is gone. -/
theorem Final.away_command (h : Final ρ f t) {c : NmCommand} (horder : InOrder f t (.command c))
    (hkeeps : KeepsGone ρ f t (io, .command c)) (hgone : (t.next ρ f io (.command c)).gone = true) :
    (handled ρ io t.server (.command c)).1.disk (ρ (t.server.path f)) = none := by
  have hframe := (handled_effect h.inv ρ io (.command c)).frame
  cases c with
  | checkLocks g => exact h.away hgone
  | create g =>
    have hboth : (!decide (g = f ∧ (handled ρ io t.server (.command (.create g))).2.status = SUCCESS) && t.gone) =
        true := hgone
    simp only [Bool.and_eq_true, Bool.not_eq_true', decide_eq_false_iff_not] at hboth
    obtain ⟨hfail, hbefore⟩ := hboth
    by_cases hg : g = f
    · subst hg
      rw [disk_handled_create fun hsuccess => hfail ⟨rfl, hsuccess⟩]
      exact h.away hbefore
    · refine (hframe _ ?_).trans (h.away hbefore)
      rintro ⟨p, ⟨rfl, -⟩, he⟩
      exact hkeeps hg hbefore he
  | delete g =>
    by_cases hg : g = f
    · subst hg
      exact disk_handled_delete ρ io t.server g
    · have hbefore : (decide (g = f ∧ (handled ρ io t.server (.command (.delete g))).2.status = SUCCESS) || t.gone) =
          true := hgone
      rw [Bool.or_eq_true, decide_eq_true_eq] at hbefore
      refine (hframe _ ?_).trans (h.away (hbefore.resolve_left fun hf => hg hf.1))
      obtain ⟨hmain, hundo⟩ := hkeeps hg
      rintro ⟨p, rfl | rfl, he⟩
      · exact hmain he
      · exact hundo he
  | _ => exact horder.elim

/-- **Every step that keeps to the condition keeps the invariant.** -/
theorem Final.step (h : Final ρ f t) (hkeeps : KeepsGone ρ f t (io, op)) (hstep : WatchStep ρ f t (io, op) u) :
    Final ρ f u := by
  obtain ⟨horder, rfl⟩ := hstep
  rcases next_or_locksValid ρ f t io op with hsame | hvalid
  · rwa [hsame]
  have heffect := handled_effect h.inv ρ io op
  have hpath : ∀ g, (t.next ρ f io op).server.path g = t.server.path g := fun g => path_eq_of_id heffect.id g
  have hid : (t.next ρ f io op).server.id = t.server.id := heffect.id
  refine ⟨heffect.inv, fun g v i hplay => ?_, fun g hne hname => ?_, fun hchecked => ?_, fun hgone => ?_⟩
  · rw [Names, hpath, hpath, hid]
    exact h.sessions_next hkeeps hvalid hplay
  · rw [Names, hpath, hpath] at hname
    exact h.otherNames_next hkeeps hvalid horder hne hname
  · exact h.unlocked_next hkeeps hvalid hchecked
  · rw [hpath]
    cases op with
    | client r => exact h.away_client horder hkeeps hvalid hgone
    | command c => exact h.away_command horder hkeeps hgone

/-- **No other step removes the file.** -/
theorem Final.present (h : Final ρ f t) (hkeeps : KeepsGone ρ f t (io, op)) (hstep : WatchStep ρ f t (io, op) u)
    (hop : op ≠ .command (.delete f)) (hthere : t.server.disk (ρ (t.server.path f)) ≠ none) :
    u.server.disk (ρ (t.server.path f)) ≠ none := by
  obtain ⟨horder, rfl⟩ := hstep
  rcases next_or_locksValid ρ f t io op with hsame | hvalid
  · rwa [hsame]
  refine throughout_present (only_handle h.inv io.toIo op) (fun p hp he => ?_) hthere _ (.last _)
  cases op with
  | client r =>
    cases r with
    | read _ | undo _ => exact horder.elim
    | lockSentence g v i =>
      obtain rfl := hp
      exact (hkeeps (hvalid g v i rfl)).2 he
    | write g v i wordIdx data => exact hp
    | cancelWrite g v i =>
      obtain ⟨hplay, rfl⟩ := hp
      exact (h.sessions g v i hplay).2 he
    | unlockSentence g v i =>
      obtain ⟨hplay, rfl | ⟨e, hwaits, rfl⟩⟩ := hp
      · exact (h.sessions g v i hplay).2 he
      · have hentry := waits_of_mem_entriesOf hwaits
        rw [h.inv.queues g e hentry] at he
        exact (h.sessions g _ _ (inPlay_of_waits hentry)).2 he
  | command c =>
    cases c with
    | checkLocks g | create g => exact hp
    | delete g =>
      obtain ⟨hmain, hundo⟩ := hkeeps fun hg => hop (hg ▸ rfl)
      rcases hp with rfl | rfl
      · exact hmain he
      · exact hundo he
    | _ => exact horder.elim

/-- **No deletion under an edit, and a file that is deleted stays away** until it is created again, as long as the
steps keep to the condition: the step that removes the file, and every `DELETE` of it, finds no lock of it taken. -/
theorem deletion_final {id : Int32} {disk : Disk} {es : List (FsIo × Operation)}
    (h : Run (Guarded (KeepsGone ρ f) (WatchStep ρ f)) (watch (freshServer id disk)) es t) :
    (∀ io op u, Guarded (KeepsGone ρ f) (WatchStep ρ f) t (io, op) u → op = .command (.delete f) ∨
        (t.server.disk (ρ (t.server.path f)) ≠ none ∧ u.server.disk (ρ (t.server.path f)) = none) →
      FileFree ρ f t.server) ∧
      (t.gone = true → t.server.disk (ρ (t.server.path f)) = none) := by
  have hfinal : Final ρ f t := by
    refine h.state_invariant ⟨StoreInv.fresh id disk, fun g v i hplay => ?_, fun g _ _ i lock hget => ?_,
      fun hc => ?_, fun hg => ?_⟩ fun _ _ _ hi hstep => hi.step hstep.1 hstep.2
    · exact absurd hplay (not_inPlay rfl rfl g v i)
    · cases hget
    · cases hc
    · cases hg
  refine ⟨fun io op u hstep hremoved g hname => ?_, hfinal.away⟩
  have hop : op = .command (.delete f) := by
    by_contra hop
    obtain ⟨hthere, hnone⟩ := hremoved.resolve_left hop
    exact hfinal.present hstep.1 hstep.2 hop hthere hnone
  subst hop
  by_cases hg : g = f
  · subst hg
    exact hfinal.unlocked (hstep.2.1 rfl)
  · exact hfinal.otherNames g hg hname

end Final

/-! ## A lock between the check and the deletion -/

def watchAll (f : Filename) : Watched → List (FsIo × Operation) → Watched
  | t, [] => t
  | t, (io, op) :: es => watchAll f (t.next resolvePath f io op) es

/-- Alice begins an edit of the file that is gone, and gives it up. -/
def lockedWhenGone : List (FsIo × Operation) :=
  commanded [.create notes, .checkLocks notes, .delete notes] ++
    asked [.lockSentence notes alice 0, .cancelWrite notes alice 0]

theorem deletion_final_notes :
    (∀ io op u, Guarded (KeepsGone resolvePath notes) (WatchStep resolvePath notes)
        (watchAll notes (watch emptyServer) lockedWhenGone) (io, op) u → op = .command (.delete notes) ∨
          ((watchAll notes (watch emptyServer) lockedWhenGone).server.disk
              (resolvePath ((watchAll notes (watch emptyServer) lockedWhenGone).server.path notes)) ≠ none ∧
            u.server.disk
              (resolvePath ((watchAll notes (watch emptyServer) lockedWhenGone).server.path notes)) = none) →
        FileFree resolvePath notes (watchAll notes (watch emptyServer) lockedWhenGone).server) ∧
      ((watchAll notes (watch emptyServer) lockedWhenGone).gone = true →
        (watchAll notes (watch emptyServer) lockedWhenGone).server.disk
          (resolvePath ((watchAll notes (watch emptyServer) lockedWhenGone).server.path notes)) = none) := by
  have hrun : Run (Guarded (KeepsGone resolvePath notes) (WatchStep resolvePath notes)) (watch emptyServer)
    lockedWhenGone
      (watchAll notes (watch emptyServer) lockedWhenGone) := by
    refine Run.cons ⟨fun hne => absurd rfl hne, trivial, rfl⟩ (Run.cons ⟨trivial, trivial, rfl⟩
      (Run.cons ⟨fun hne => absurd rfl hne, fun _ => by decide, rfl⟩
        (Run.cons ⟨fun _ => ⟨fun _ => ⟨rfl, ?_⟩, ?_⟩, trivial, rfl⟩ (Run.cons ⟨trivial, trivial, rfl⟩ .nil))))
    · decide
    · decide
  exact deletion_final hrun

/-- Alice locks the file when it has been checked. -/
def lockedWhenChecked : List (FsIo × Operation) :=
  commanded [.create notes, .checkLocks notes] ++ asked [.lockSentence notes alice 0]

/-- **The file is deleted under Alice's edit, and her commit brings it back.** -/
theorem deletion_raced : ∃ t u v, Run (WatchStep resolvePath notes) (watch emptyServer) lockedWhenChecked t ∧
    WatchStep resolvePath notes t (.allOpens, .command (.delete notes)) u ∧
    t.server.disk (resolvePath (t.server.path notes)) = some [] ∧
    u.server.disk (resolvePath (t.server.path notes)) = none ∧ ¬ LocksFree notes t.server.fileLocks ∧
    Run (WatchStep resolvePath notes) u (asked [.unlockSentence notes alice 0]) v ∧
    v.gone = true ∧ v.server.disk (resolvePath (v.server.path notes)) = some [] := by
  have hrun : Run (WatchStep resolvePath notes) (watch emptyServer) lockedWhenChecked
      (watchAll notes (watch emptyServer) lockedWhenChecked) :=
    Run.cons ⟨trivial, rfl⟩ (Run.cons ⟨trivial, rfl⟩ (Run.cons ⟨trivial, rfl⟩ .nil))
  refine ⟨_, _, _, hrun, ⟨fun _ => by decide, rfl⟩, by decide, by decide, fun hfree => ?_,
    Run.single ⟨trivial, rfl⟩, by decide, by decide⟩
  have hlock := hfree 0 ⟨true, alice.str⟩ (by decide)
  cases hlock

end Stdio
end NetworkFileShare
