import NetworkFileShare.StorageServer.Disjoint
import NetworkFileShare.StorageServer.Isolation
import NetworkFileShare.StorageServer.Session

/-!
# Sessions on files with several names (`ss.c`)

A file may have several names: the path `p` names the file `ρ p`.

* `request_showing` : a request that is answered with `SUCCESS`, to the files that some paths name;
* `WriteSessionStep` : an acknowledged write of a session, or anything that leaves the session and the file alone;
* `acknowledged_iff` : after lock, writes and unlock the file has the text of the copy if and only if `Kept` holds and
  the copy is not the file itself; `acknowledged_lost`.
-/

namespace NetworkFileShare
namespace Stdio
open Merge

/-! ## Requests -/

section
variable {ρ : Path → Path} {P : Path → Prop} {s t : StorageServer} {io : FsIo} {r : Request}

/-- **A request that has success** has it on the files that the paths of `P` show. -/
theorem request_showing (hone : Set.InjOn ρ {p | P p}) (hs : StoreInv s)
    (hspelled : ∀ p, Operation.spells s (.client r) p → P p) (hundo : ∀ f, r ≠ .undo f)
    (h : handled ρ io s (.client r) = (t, ⟨SUCCESS, []⟩)) :
    NetworkFileShare.handleClientRequest io.toIo (showing ρ P s) r = (showing ρ P t, SUCCESS) := by
  have hshown := handled_showing hone hs io (.client r)
    ⟨hspelled, fun f he => absurd (Operation.client.inj he) (hundo f)⟩
  rw [h] at hshown
  have hserver := congrArg Prod.fst hshown
  have hstatus := congrArg (fun x => x.2.status) hshown
  exact Prod.ext hserver hstatus

theorem inv_of_handled {reply : Reply} {op : Operation} (hs : StoreInv s) (h : handled ρ io s op = (t, reply)) :
    StoreInv t ∧ t.id = s.id := by
  have heffect := handled_effect hs ρ io op
  rw [h] at heffect
  exact ⟨heffect.inv, heffect.id⟩

end

/-! ## One session -/

/-- The paths of a session: the file, its backup and the copy. -/
def SessionPaths (id : Int32) (f : Filename) (u : Username) (i : Int32) (p : Path) : Prop :=
  p = filePath id f ∨ p = undoPath (filePath id f) ∨ p = tempPath id f u i

/-- An acknowledged write of the session by a server that can read its copy, or any operation that leaves the session
and the file alone. -/
def WriteSessionStep (ρ : Path → Path) (f : Filename) (u : Username) (i : Int32) (s : StorageServer) :
    Option SessionWrite → StorageServer → Prop
  | some w, t => ∃ io : FsIo, io.canRead (tempPath s.id f u i) = true ∧ w.words = lockedWords (through ρ s) f u i ∧
      handled ρ io s (.client (.write f u i w.wordIdx w.content)) = (t, ⟨SUCCESS, []⟩)
  | none, t => (∃ e, StoreStep ρ s e t) ∧ Untouched f u i (through ρ s) (through ρ t)

section
variable {ρ : Path → Path} {id : Int32} {f : Filename} {u : Username} {i : Int32} {m : CStr} {s t : StorageServer}
  {io : FsIo} {es : List (Option SessionWrite)} {e : Option SessionWrite}

theorem injOn_sessionPaths (hfile : ρ (tempPath id f u i) ≠ ρ (filePath id f))
    (hundo : ρ (undoPath (filePath id f)) ≠ ρ (filePath id f))
    (hcopy : ρ (undoPath (filePath id f)) ≠ ρ (tempPath id f u i)) :
    Set.InjOn ρ {p | SessionPaths id f u i p} := by
  rintro p (rfl | rfl | rfl) q (rfl | rfl | rfl) he
  · rfl
  · exact absurd he.symm hundo
  · exact absurd he.symm hfile
  · exact absurd he hundo
  · rfl
  · exact absurd he hcopy
  · exact absurd he hfile
  · exact absurd he.symm hcopy
  · rfl

/-- The session along its steps, as its paths show it. -/
structure Shows (ρ : Path → Path) (id : Int32) (f : Filename) (u : Username) (i : Int32) (m : CStr)
    (ws : List SessionWrite) (s : StorageServer) : Prop where
  sameId : s.id = id
  inv : StoreInv s
  session : WriteSessionInv f u i m ws (showing ρ (SessionPaths id f u i) s)

/-- The lock is given. -/
theorem Shows.lock (hs : StoreInv s) (hone : Set.InjOn ρ {p | SessionPaths s.id f u i p}) (hidle : s.pendingOf f = [])
    (hm : s.disk (ρ (s.path f)) = some m) (hread : io.canRead (s.path f) = true)
    (hlock : handled ρ io s (.client (.lockSentence f u i)) = (t, ⟨SUCCESS, []⟩)) :
    Shows ρ s.id f u i m [] t ∧ i.toInt ≤ (cores m).length := by
  have hpath : SessionPaths s.id f u i (s.path f) := Or.inl rfl
  obtain ⟨hinv, hid⟩ := inv_of_handled hs hlock
  obtain ⟨hsession, -, hle⟩ := WriteSessionInv.lock (StoreInv.showing hs ρ (SessionPaths s.id f u i)).server hidle
    ((shown_of hpath).trans hm) hread (request_showing hone hs
      (fun p hp => hp.elim (fun hp => hp ▸ hpath) fun hp => Or.inr (Or.inr hp)) (fun _ he => by cases he) hlock)
  exact ⟨⟨hid, hinv, hsession⟩, hle⟩

/-- The session and the file are left alone. -/
theorem Shows.untouched {ws : List SessionWrite} (h : Shows ρ id f u i m ws s) {e : FsIo × Operation}
    (hdone : StoreStep ρ s e t) (huntouched : Untouched f u i (through ρ s) (through ρ t)) :
    Shows ρ id f u i m ws t := by
  obtain rfl := h.sameId
  have hmain : SessionPaths s.id f u i (s.path f) := Or.inl rfl
  have hcopy : SessionPaths s.id f u i (tempPath s.id f u i) := Or.inr (Or.inr rfl)
  have heffect := hdone.effect h.inv
  refine ⟨huntouched.id, heffect.inv, h.session.untouched (StoreInv.showing heffect.inv ρ _).server
    ⟨huntouched.id, ?_, ?_, huntouched.session, huntouched.idle⟩⟩
  · exact (shown_of hmain).trans (huntouched.main.trans (shown_of hmain).symm)
  · exact (shown_of hcopy).trans (huntouched.copy.trans (shown_of hcopy).symm)

/-- A write is acknowledged. -/
theorem Shows.written {ws : List SessionWrite} (h : Shows ρ id f u i m ws s)
    (hone : Set.InjOn ρ {p | SessionPaths id f u i p}) (hread : io.canRead (tempPath s.id f u i) = true)
    {w : SessionWrite}
    (hwords : w.words = lockedWords (through ρ s) f u i)
    (hwrite : handled ρ io s (.client (.write f u i w.wordIdx w.content)) = (t, ⟨SUCCESS, []⟩)) :
    Shows ρ id f u i m (ws ++ [w]) t := by
  obtain rfl := h.sameId
  have hcopy : SessionPaths s.id f u i (tempPath s.id f u i) := Or.inr (Or.inr rfl)
  obtain ⟨hinv, hid⟩ := inv_of_handled h.inv hwrite
  refine ⟨hid, hinv, h.session.written hread ?_
    (request_showing hone h.inv (fun p hp => ?_) (fun _ he => by cases he) hwrite)⟩
  · have htext : (showing ρ (SessionPaths s.id f u i) s).disk (tempPath s.id f u i) =
        (through ρ s).disk (tempPath s.id f u i) := shown_of hcopy
    rw [hwords, lockedWords, lockedWords]
    rw [show (showing ρ (SessionPaths s.id f u i) s).id = s.id from rfl, htext]
    rfl
  · rcases hp with ⟨-, rfl⟩ | ⟨-, rfl⟩ <;> exact hcopy

/-- **A step of the session**. -/
theorem Shows.step (h : Shows ρ id f u i m (es.filterMap fun w => w) s)
    (hone : Set.InjOn ρ {p | SessionPaths id f u i p})
    (hstep : WriteSessionStep ρ f u i s e t) : Shows ρ id f u i m ((es ++ [e]).filterMap fun w => w) t := by
  rw [List.filterMap_append]
  cases e with
  | none =>
    obtain ⟨⟨e, hdone⟩, huntouched⟩ := hstep
    rw [show [none].filterMap (fun w => w) = ([] : List SessionWrite) from rfl, List.append_nil]
    exact h.untouched hdone huntouched
  | some w =>
    obtain ⟨io, hread, hwords, hwrite⟩ := hstep
    exact h.written hone hread hwords hwrite

/-- The unlock commits. -/
theorem Shows.unlock {ws : List SessionWrite} (h : Shows ρ id f u i m ws s)
    (hone : Set.InjOn ρ {p | SessionPaths id f u i p})
    (hle : i.toInt ≤ (cores m).length)
    (hopens : io.canRead (s.path f) = true ∧ io.canWrite (s.path f) = true ∧ io.canRead (tempPath s.id f u i) = true)
    (hunlock : handled ρ io s (.client (.unlockSentence f u i)) = (t, ⟨SUCCESS, []⟩)) :
    ∃ text m', s.disk (ρ (tempPath s.id f u i)) = some text ∧ t.disk (ρ (s.path f)) = some m' ∧
      (nonBlank m' = nonBlank text ↔ Kept (parseContent m).sentenceCount i.toInt.toNat ws) := by
  obtain rfl := h.sameId
  have hmain : SessionPaths s.id f u i (s.path f) := Or.inl rfl
  have hundo : SessionPaths s.id f u i (undoPath (s.path f)) := Or.inr (Or.inl rfl)
  have hcopy : SessionPaths s.id f u i (tempPath s.id f u i) := Or.inr (Or.inr rfl)
  have hcopies : ∀ p, CommitCopy s f u i p → SessionPaths s.id f u i p := by
    rintro p (rfl | ⟨e, he, -⟩)
    · exact hcopy
    · have hidle : s.pendingOf f = [] := h.session.idle
      rw [hidle] at he
      cases he
  obtain ⟨text, htext, -⟩ := h.session.copy
  have hdone := request_showing hone h.inv (fun p hp => by
    rcases hp with ⟨-, rfl | hp⟩ | ⟨-, rfl | rfl | hp⟩
    · exact hmain
    · exact hcopies p hp
    · exact hmain
    · exact hundo
    · exact hcopies p hp) (fun _ he => by cases he) hunlock
  obtain ⟨m', hm', hkept⟩ := h.session.unlocked hle hopens htext hdone
  exact ⟨text, m', (shown_of hcopy).symm.trans htext, (shown_of hmain).symm.trans hm', hkept⟩

/-- A lock copies the file to the session's own file. -/
theorem copied_by_lock (hs : StoreInv s) {u : Username} {i : Int32} (hcopy : ρ (tempPath s.id f u i) ≠ ρ (s.path f))
    (hmain : s.disk (ρ (s.path f)) = some m) (hread : io.canRead (s.path f) = true)
    (hlock : handled ρ io s (.client (.lockSentence f u i)) = (t, ⟨SUCCESS, []⟩)) :
    t.disk (ρ (tempPath s.id f u i)) = some m := by
  let P : Path → Prop := fun p => p = s.path f ∨ p = tempPath s.id f u i
  have hone : Set.InjOn ρ {p | P p} := by
    rintro p (rfl | rfl) q (rfl | rfl) he
    · rfl
    · exact absurd he.symm hcopy
    · exact absurd he hcopy
    · rfl
  have hspelled : ∀ p, Operation.spells s (.client (.lockSentence f u i)) p → P p := fun p hp => hp
  have hshown := request_showing hone hs hspelled (fun _ he => by cases he) hlock
  obtain ⟨disk, tables, ws, hres, -, -, -, -, -, hsuccess⟩ :=
    (StoreInv.showing hs ρ P).server.lock_spec io.toIo f u i
  rw [hshown] at hres hsuccess
  obtain ⟨-, htext, -⟩ := hsuccess rfl
  have hdisk : (showing ρ P t).disk = disk := congrArg StorageServer.disk hres
  have hmain' : (showing ρ P s).disk (s.path f) = some m := (shown_of (Or.inl rfl)).trans hmain
  have hfile : readFile io.toIo (showing ρ P s).disk ((showing ρ P s).path f) = some m := (if_pos hread).trans hmain'
  rw [hfile, Option.getD_some, ← hdisk] at htext
  exact (shown_of (d := t.disk) (P := P) (Or.inr rfl)).symm.trans htext

/-! ## Other sessions on the file -/

/-- **Other users leave a session alone** until they commit, if their copies are neither the file nor its copy. -/
theorem untouched_of_edit (hs : StoreInv s) {r : Request} (hr : OtherEdit f u r)
    (hcopy : ρ (tempPath s.id f u i) ≠ ρ (s.path f)) (hothers : ∀ v j, r.names = some (f, v, j) →
      ρ (tempPath s.id f v j) ≠ ρ (s.path f) ∧ ρ (tempPath s.id f v j) ≠ ρ (tempPath s.id f u i)) (io : FsIo) :
    Untouched f u i (through ρ s) (through ρ (handled ρ io s (.client r)).1) := by
  have hnamed : ∀ v j, r.names = some (f, v, j) → (∀ p, Operation.spells s (.client r) p →
      p = s.path f ∨ p = tempPath s.id f v j) → (∀ g, r ≠ .undo g) →
        Untouched f u i (through ρ s) (through ρ (handled ρ io s (.client r)).1) := by
    intro v j hnames hspelled hundo
    obtain ⟨hmain, hown⟩ := hothers v j hnames
    let P : Path → Prop := fun p => p = s.path f ∨ p = tempPath s.id f v j ∨ p = tempPath s.id f u i
    have hone : Set.InjOn ρ {p | P p} := by
      rintro p (rfl | rfl | rfl) q (rfl | rfl | rfl) he
      · rfl
      · exact absurd he.symm hmain
      · exact absurd he.symm hcopy
      · exact absurd he hmain
      · rfl
      · exact absurd he hown
      · exact absurd he hcopy
      · exact absurd he.symm hown
      · rfl
    have hshown := handled_showing hone hs io (.client r)
      ⟨fun p hp => (hspelled p hp).imp_right Or.inl, fun g he => absurd (Operation.client.inj he) (hundo g)⟩
    have huntouched := untouched_of_otherEdit (StoreInv.showing hs ρ P).server hr io.toIo i
    rw [show (NetworkFileShare.handleClientRequest io.toIo (showing ρ P s) r).1 =
      showing ρ P (handled ρ io s (.client r)).1 from congrArg Prod.fst hshown] at huntouched
    have hshows : ∀ {d : Disk} {p : Path}, P p → shown ρ P d p = (d ∘ ρ) p := fun hp => shown_of hp
    refine ⟨huntouched.id, ?_, ?_, huntouched.session, huntouched.idle⟩
    · exact (hshows (Or.inl rfl)).symm.trans (huntouched.main.trans (hshows (Or.inl rfl)))
    · exact (hshows (Or.inr (Or.inr rfl))).symm.trans (huntouched.copy.trans (hshows (Or.inr (Or.inr rfl))))
  cases r with
  | read g =>
    have hsame : Returns (fun r : StorageServer × Reply => r.1 = s) (handle io.toIo s (.client (.read g))) :=
      .after (p := readFileSs s g) fun _ => .pure rfl
    obtain ⟨d, hread⟩ : ∃ d, (handled ρ io s (.client (.read g))).1 = { s with disk := d } :=
      handled_of_returns hsame
    have hframe := (handled_effect hs ρ io (.client (.read g))).frame
    have hsame : d = s.disk := funext fun p => by
      have hp := hframe p fun ⟨q, hq, _⟩ => hq
      rwa [hread] at hp
    rw [hread, hsame]
    exact ⟨rfl, rfl, rfl, rfl, rfl⟩
  | lockSentence g v j =>
    obtain ⟨rfl, -⟩ := hr
    exact hnamed v j rfl (fun p hp => hp) fun _ he => by cases he
  | write g v j wordIdx data =>
    obtain ⟨rfl, -⟩ := hr
    refine hnamed v j rfl (fun p hp => ?_) fun _ he => by cases he
    rcases hp with ⟨-, rfl⟩ | ⟨-, rfl⟩ <;> exact Or.inr rfl
  | cancelWrite g v j =>
    obtain ⟨rfl, -⟩ := hr
    refine hnamed v j rfl (fun p hp => ?_) fun _ he => by cases he
    rcases hp with hp | ⟨-, rfl⟩
    · exact hp.elim
    · exact Or.inr rfl
  | unlockSentence g v j => exact absurd hr id
  | undo g => exact absurd hr id

/-! ## A copy that is the file -/

/-- A lock that is given has its session in the table. -/
theorem returns_lock_found (hs : StoreInv s) (io : Io) :
    Returns (fun r : StorageServer × Reply => r.2.status = SUCCESS →
    (∃ w, getWriteSession r.1 f u i = some w) ∧ r.1.commitQueues = s.commitQueues)
      (handle io s (.client (.lockSentence f u i))) := by
  have hfail : ∀ {t : StorageServer} {status : Int32}, status ≠ SUCCESS → status = SUCCESS →
      (∃ w, getWriteSession t f u i = some w) ∧ t.commitQueues = s.commitQueues := fun hne he => absurd he hne
  refine Returns.bind (Q := fun r => r.2 = SUCCESS →
    (∃ w, getWriteSession r.1 f u i = some w) ∧ r.1.commitQueues = s.commitQueues) ?_ fun r hr => Returns.pure hr
  obtain ⟨tables, hlock, -⟩ := lockSentence_spec io s f i u
  have hindex : ERR_INVALID_INDEX ≠ SUCCESS := by decide
  refine Returns.after fun _ => Returns.ite (fun _ => Returns.pure (hfail hindex)) fun _ => ?_
  rcases hres : lockSentence io s f i u with ⟨t, status⟩
  rw [hres] at hlock
  obtain rfl : t = { s with fileLocks := tables } := hlock
  refine Returns.ite (fun _ => ?_) fun hstatus => Returns.pure (hfail hstatus)
  refine Returns.bind (returns_startWriteSession (s := { s with fileLocks := tables }) hs.server.sessions)
    fun r hstarted => ?_
  obtain ⟨t, sessionStatus⟩ := r
  refine Returns.ite (fun hstatus => Returns.pure (hfail hstatus)) fun hstatus => Returns.pure fun _ => ⟨?_, ?_⟩
  · exact hstarted.found (not_not.mp hstatus)
  · rw [hstarted.tables]

/-- A round of the loop removes the copy. -/
theorem commitEntry_copy {path : Path} {d : Disk} (hwrite : io.canWrite path = true) (entry : CommitQueueEntry) :
    ∃ d', runCalls (FsOp.exec ρ io) (commitEntry path entry) (.closed d) = (true, .closed d') ∧
      d' (ρ entry.tempFilepath) = none := by
  rw [commitEntry, runCalls_bind, runCalls_parseFile]
  dsimp only
  rw [runCalls_bind, runCalls_parseFile]
  dsimp only
  cases NetworkFileShare.parseFile io.toIo (d ∘ ρ) entry.tempFilepath with
  | none => exact ⟨_, rfl, unlink_self ..⟩
  | some temp =>
    dsimp only
    split
    · exact ⟨_, rfl, unlink_self ..⟩
    · rw [runCalls_bind, runCalls_writeFileContent, if_pos hwrite]
      exact ⟨_, rfl, unlink_self ..⟩

/-- A commit that waits alone loses its copy when the queue is worked off. -/
theorem processCommitQueue_copy {entry : CommitQueueEntry} (hpending : s.pendingOf f = [entry])
    (hundo : ρ (undoPath (s.path f)) ≠ ρ (s.path f)) (hwrite : io.canWrite (s.path f) = true) :
    (runCalls (FsOp.exec ρ io) (processCommitQueue s f) (.closed s.disk)).2.disk (ρ entry.tempFilepath) = none := by
  unfold StorageServer.pendingOf entriesOf at hpending
  unfold processCommitQueue
  cases hfind : s.commitQueues.find? (·.filename = f) with
  | none => simp [hfind] at hpending
  | some queue =>
    have hentries : queue.entries = [entry] := by simpa [hfind] using hpending
    have hbackup : ∃ d, runCalls (FsOp.exec ρ io) (backupFor (s.path f) [entry]) (.closed s.disk) =
      ((), .closed d) := by
      rw [backupFor, if_neg (List.cons_ne_nil _ _), runCalls_bind, createUndoBackup, runCalls_bind,
        runCalls_copyFile hundo.symm]
      cases readFile io.toIo (s.disk ∘ ρ) (s.path f) with
      | none => exact ⟨_, rfl⟩
      | some text =>
        dsimp only
        by_cases hopen : io.canWrite (undoPath (s.path f)) = true
        · rw [if_pos hopen]
          exact ⟨_, rfl⟩
        · rw [if_neg hopen]
          exact ⟨_, rfl⟩
    obtain ⟨d, hbackup⟩ := hbackup
    obtain ⟨d', hround, hgone⟩ := commitEntry_copy (ρ := ρ) (d := d) hwrite entry
    dsimp only
    rw [hentries, runCalls_bind, hbackup, runCalls_bind]
    dsimp only
    rw [processEntries, runCalls_bind, hround]
    exact hgone

/-- An unlock removes the copy of the session, if no commit waits. -/
theorem copy_unlocked {w : WriteSession} (hs : StoreInv s) (hget : getWriteSession s f u i = some w)
    (hidle : s.pendingOf f = []) (hundo : ρ (undoPath (s.path f)) ≠ ρ (s.path f))
    (hwrite : io.canWrite (s.path f) = true) :
    (handled ρ io s (.client (.unlockSentence f u i))).1.disk (ρ (tempPath s.id f u i)) = none := by
  have htemp : w.tempFilepath = tempPath s.id f u i :=
    hs.server.sessions.temp_eq (mem_of_getWriteSession hget).1 (mem_of_getWriteSession hget).2
  rw [disk_handled_unlock, ← htemp, commitWriteSession, hget]
  dsimp only
  cases hroom : enqueueCommit f ⟨u, i, w.originalSentenceCount, w.tempFilepath⟩ s.commitQueues with
  | none =>
    rw [removeWriteSession, hget]
    exact unlink_self ..
  | some queues =>
    have hentries := enqueueCommit_spec hroom
    rw [show entriesOf f s.commitQueues = [] from hidle, List.nil_append] at hentries
    dsimp only
    rw [runCalls_bind]
    exact processCommitQueue_copy (s := { s with
      commitQueues := queues
      writeSessions := s.writeSessions.eraseP (isSession f u i) }) hentries hundo hwrite

/-- The session is in the table along its steps, and no commit waits. -/
structure Waiting (id : Int32) (f : Filename) (u : Username) (i : Int32) (s : StorageServer) : Prop where
  sameId : s.id = id
  inv : StoreInv s
  session : ∃ w, getWriteSession s f u i = some w
  idle : s.pendingOf f = []

theorem Waiting.lock (hs : StoreInv s) (hidle : s.pendingOf f = [])
    (hlock : handled ρ io s (.client (.lockSentence f u i)) = (t, ⟨SUCCESS, []⟩)) : Waiting s.id f u i t := by
  obtain ⟨hinv, hid⟩ := inv_of_handled hs hlock
  have hfound : (handled ρ io s (.client (.lockSentence f u i))).2.status = SUCCESS →
      (∃ w, getWriteSession (handled ρ io s (.client (.lockSentence f u i))).1 f u i = some w) ∧
        (handled ρ io s (.client (.lockSentence f u i))).1.commitQueues = s.commitQueues :=
    (returns_lock_found hs io.toIo).runCalls _
  rw [hlock] at hfound
  obtain ⟨hsession, hqueues⟩ := hfound rfl
  exact ⟨hid, hinv, hsession, (congrArg (entriesOf f) hqueues).trans hidle⟩

theorem Waiting.step (h : Waiting id f u i s) (hstep : WriteSessionStep ρ f u i s e t) : Waiting id f u i t := by
  cases e with
  | none =>
    obtain ⟨⟨e, hdone⟩, huntouched⟩ := hstep
    have hidle : t.pendingOf f = s.pendingOf f := huntouched.idle
    have hsession : getWriteSession t f u i = getWriteSession s f u i := huntouched.session
    exact ⟨huntouched.id.trans h.sameId, (hdone.effect h.inv).inv, hsession ▸ h.session, hidle.trans h.idle⟩
  | some w =>
    obtain ⟨io, -, -, hwrite⟩ := hstep
    obtain ⟨hinv, hid⟩ := inv_of_handled h.inv hwrite
    have hsame : Returns (fun r : StorageServer × Reply => r.1 = s)
        (handle io.toIo s (.client (.write f u i w.wordIdx w.content))) := Returns.after fun _ => Returns.pure rfl
    obtain ⟨disk, hdone⟩ := handled_of_returns (ρ := ρ) hsame
    rw [hwrite] at hdone
    obtain rfl : t = { s with disk := disk } := hdone
    exact ⟨hid.trans h.sameId, hinv, h.session, h.idle⟩

end

/-- Alice has locked the first of two sentences. -/
def lockedNotes : StorageServer :=
  (handled resolvePath .allOpens startedWithNotes (.client (.lockSentence notes alice 0))).1

/-- Alice has written `content`. -/
def wroteNotes (wordIdx : Int32) (content : CStr) : StorageServer :=
  (handled resolvePath .allOpens lockedNotes (.client (.write notes alice 0 wordIdx content))).1

/-- Alice has committed. -/
def unlockedNotes (wordIdx : Int32) (content : CStr) : StorageServer :=
  (handled resolvePath .allOpens (wroteNotes wordIdx content) (.client (.unlockSentence notes alice 0))).1

/-- The paths of a file, its backup and the copies of some edits. -/
def EditPaths (id : Int32) (f : Filename) (edits : List Edit) (p : Path) : Prop :=
  p = filePath id f ∨ p = undoPath (filePath id f) ∨ ∃ e ∈ edits, p = e.temp id f

/-- The server after its queue for the file has been worked off. -/
def workOff (ρ : Path → Path) (io : FsIo) (s : StorageServer) (f : Filename) : StorageServer :=
  let r := runCalls (FsOp.exec ρ io) (processCommitQueue s f) (.closed s.disk)
  { r.1 with disk := r.2.disk }

/-- A session enters the queue of its file, or the queue is worked off by a server that can open the files. -/
def CommitStep (ρ : Path → Path) (f : Filename) (s : StorageServer) : CommitEvent → StorageServer → Prop
  | .enqueue e, t => enterCommit s f e.username e.sentenceIdx = some t
  | .process, t => ∃ io : FsIo, io.canRead (s.path f) = true ∧ io.canWrite (s.path f) = true ∧
      (∀ q ∈ s.pendingOf f, io.canRead q.tempFilepath = true) ∧ t = workOff ρ io s f

section
variable {ρ : Path → Path} {P : Path → Prop} {f : Filename} {s t u : StorageServer} {m : CStr} {edits : List Edit}

theorem enterCommit_disk (d : Disk) (s : StorageServer) (f : Filename) (u : Username) (i : Int32) :
    enterCommit { s with disk := d } f u i = (enterCommit s f u i).map fun t => { t with disk := d } := by
  unfold enterCommit
  rw [getWriteSession_disk]
  cases getWriteSession s f u i with
  | none => rfl
  | some w =>
    dsimp only
    cases enqueueCommit f ⟨u, i, w.originalSentenceCount, w.tempFilepath⟩ s.commitQueues <;> rfl

/-- **Working off a queue** whose paths are of `P`. -/
theorem workOff_showing (hone : Set.InjOn ρ {p | P p}) (io : FsIo) (hmain : P (s.path f))
    (hundo : P (undoPath (s.path f)))
    (hcopies : ∀ e ∈ s.pendingOf f, P e.tempFilepath) :
    NetworkFileShare.processCommitQueue io.toIo (showing ρ P s) f = showing ρ P (workOff ρ io s f) := by
  have honly : Prog.Only (FsOp.On P P P) (processCommitQueue s f) :=
    only_processCommitQueue hmain hmain hundo fun e he => ⟨hcopies e he, hcopies e he⟩
  obtain ⟨hresult, hfiles⟩ := runCalls_related (fun op => showing_exec io hone op) honly (Fs.showing_closed ρ P s.disk)
  obtain ⟨t, hrun, ht⟩ := yields_processCommitQueue io (showing ρ P s) f
  have hprogram : runCalls (FsOp.exec id io) (processCommitQueue (showing ρ P s) f) (.closed (shown ρ P s.disk)) =
      ({ (runCalls (FsOp.exec ρ io) (processCommitQueue s f) (.closed s.disk)).1 with disk := shown ρ P s.disk },
        (runCalls (FsOp.exec id io) (processCommitQueue s f) (.closed (shown ρ P s.disk))).2) := by
    rw [← hresult, showing, processCommitQueue_disk, map_eq_pure_bind, runCalls_bind, runCalls_pure]
  obtain ⟨rfl, hdisk⟩ := Prod.mk.inj (hprogram.symm.trans hrun)
  rw [hdisk] at hfiles
  have hshown : (NetworkFileShare.processCommitQueue io.toIo (showing ρ P s) f).disk = _ := hfiles.disk
  rw [ht, hshown]
  rfl

theorem openedOn_showing (h : OpenedOn (through ρ s) f m edits) :
    OpenedOn (showing ρ (EditPaths s.id f edits) s) f m edits where
  main := (shown_of (Or.inl rfl)).trans h.main
  idle := h.idle
  session := h.session
  inside := h.inside
  copied e he := (congrArg (Option.map sentenceCores) (shown_of (Or.inr (Or.inr ⟨e, he, rfl⟩)))).trans (h.copied e he)
  nonempty := h.nonempty
  users := h.users
  places := h.places

end

/-- **Every committed edit is in its place**, in every state of every run in which no session commits after one on a
later sentence that has changed the number of sentences. The file, its backup and the copies are different files. -/
theorem commits_in_place {ρ : Path → Path} {s t : StorageServer} {f : Filename} {m : CStr} {edits : List Edit}
    {es : List CommitEvent} (hone : Set.InjOn ρ {p | EditPaths s.id f edits p})
    (hopen : OpenedOn (through ρ s) f m edits) (hrun : Run (CommitStep ρ f) s es t)
    (hmem : ∀ e ∈ enqueued es, e ∈ edits) (hnodup : (enqueued es).Nodup)
    (horder : (enqueued es).Pairwise Edit.MayPrecede) :
    ∃ done pending m', enqueued es = done ++ pending ∧
      t.pendingOf f = pending.map (Edit.entry s.id f (parseContent m).sentenceCount) ∧
      t.disk (ρ (s.path f)) = some m' ∧
      sentenceCores m' = replaceAll (sentenceCores m) (done.map Edit.replacement) := by
  have hstart := openedOn_showing hopen
  generalize hP : EditPaths s.id f edits = P at hone hstart
  have hmain : P (s.path f) := hP ▸ Or.inl rfl
  have hundo : P (undoPath (s.path f)) := hP ▸ Or.inr (Or.inl rfl)
  have hinv : (∀ e ∈ enqueued es, e ∈ edits) → (enqueued es).Nodup → (enqueued es).Pairwise Edit.MayPrecede →
      ∃ done pending, CommitInv (showing ρ P s) f m edits es (showing ρ P t) done pending := by
    refine hrun.invariant (I := fun es t => (∀ e ∈ enqueued es, e ∈ edits) → (enqueued es).Nodup →
      (enqueued es).Pairwise Edit.MayPrecede →
        ∃ done pending, CommitInv (showing ρ P s) f m edits es (showing ρ P t) done pending)
      (fun _ _ _ => ⟨[], [], hstart.init⟩) fun es t e u ih hstep hmem hnodup horder => ?_
    cases e with
    | enqueue e =>
      rw [enqueued_snoc] at hmem hnodup horder
      obtain ⟨done, pending, h⟩ := ih (fun d hd => hmem d (List.mem_append_left _ hd))
        (hnodup.sublist (List.sublist_append_left _ _)) (horder.sublist (List.sublist_append_left _ _))
      refine ⟨done, pending ++ [e], h.enqueue hstart (hmem e (by simp)) (fun he => ?_) ?_⟩
      · exact (List.nodup_append.mp hnodup).2.2 e he e (List.mem_singleton_self e) rfl
      · have henter : enterCommit t f e.username e.sentenceIdx = some u := hstep
        have hdisk : u.disk = t.disk := by
          obtain ⟨-, -, -, hdisk, -⟩ := enterCommit_spec henter
          exact hdisk
        rw [showing, enterCommit_disk, henter, Option.map_some, showing, hdisk]
    | process =>
      rw [enqueued_snoc_process] at hmem hnodup horder
      obtain ⟨done, pending, h⟩ := ih hmem hnodup horder
      obtain ⟨io, hread, hwrite, htemps, rfl⟩ := hstep
      have hpath : t.path f = s.path f := path_eq_of_id h.id f
      rw [← workOff_showing hone io (hpath ▸ hmain) (hpath ▸ hundo) fun q hq => ?_]
      · exact ⟨done ++ pending, [], h.process hstart hmem hnodup horder hread hwrite htemps⟩
      · -- a commit that waits is of one of the edits
        have hqueue : t.pendingOf f = pending.map (Edit.entry s.id f (parseContent m).sentenceCount) := h.queue
        rw [hqueue] at hq
        obtain ⟨e, he, rfl⟩ := List.mem_map.mp hq
        rw [← hP]
        exact Or.inr (Or.inr ⟨e, hmem e (h.order ▸ List.mem_append_right _ he), rfl⟩)
  obtain ⟨done, pending, h⟩ := hinv hmem hnodup horder
  obtain ⟨m', hm', hcores⟩ := h.main
  exact ⟨done, pending, m', h.order, h.queue, (shown_of hmain).symm.trans hm', (sentenceCores_eq m').trans hcores⟩

/-! ## Two users -/

/-- Alice has cut the first sentence of the file in two, and Bob has changed the second one. -/
def bothOpen : StorageServer :=
  (handleAll resolvePath startedWithNotes
    (asked [.lockSentence notes alice 0, .lockSentence notes bob 1, .write notes alice 0 1 (lit "x."),
      .write notes bob 1 1 (lit "y")])).1

def aliceEdit : Edit := ⟨alice, 0, [lit "x.", lit "A."]⟩
def bobEdit : Edit := ⟨bob, 1, [lit "yB."]⟩

theorem bothOpen_openedOn : OpenedOn (through resolvePath bothOpen) notes (lit "A. B.") [aliceEdit, bobEdit] where
  main := by decide
  idle := by decide
  session := by decide
  inside := by decide
  copied := by decide
  nonempty := by decide
  users := by decide
  places := by decide

/-- The events one after another, by a server whose opens all succeed. -/
def commitEvents (f : Filename) : StorageServer → List CommitEvent → Option StorageServer
  | s, [] => some s
  | s, .enqueue e :: es => (enterCommit s f e.username e.sentenceIdx).bind (commitEvents f · es)
  | s, .process :: es => commitEvents f (workOff resolvePath .allOpens s f) es

theorem run_commitEvents {f : Filename} : ∀ {es : List CommitEvent} {s t : StorageServer},
    commitEvents f s es = some t → Run (CommitStep resolvePath f) s es t
  | [], s, t, h => by
    obtain rfl := Option.some.inj h
    exact .nil
  | .enqueue e :: es, s, t, h => by
    obtain ⟨u, hu, hrest⟩ := Option.bind_eq_some_iff.mp h
    exact Run.cons (t := u) hu (run_commitEvents hrest)
  | .process :: es, s, t, h =>
    Run.cons (t := workOff resolvePath .allOpens s f) ⟨.allOpens, rfl, rfl, fun _ _ => rfl, rfl⟩
      (run_commitEvents h)

/-- Alice commits, then Bob. -/
def inOrder : List CommitEvent := [.enqueue aliceEdit, .process, .enqueue bobEdit, .process]

/-- Bob has cut the second sentence in two and commits before Alice. -/
def outOfOrder : List CommitEvent :=
  [.enqueue ⟨bob, 1, [lit "y.", lit "B.", []]⟩, .process, .enqueue ⟨alice, 0, [lit "xA."]⟩, .process]

theorem commits_in_place_inOrder : ∃ done pending m', enqueued inOrder = done ++ pending ∧
    ((commitEvents notes bothOpen inOrder).getD bothOpen).pendingOf notes =
      pending.map (Edit.entry bothOpen.id notes (parseContent (lit "A. B.")).sentenceCount) ∧
    ((commitEvents notes bothOpen inOrder).getD bothOpen).disk (resolvePath (bothOpen.path notes)) = some m' ∧
    sentenceCores m' = replaceAll (sentenceCores (lit "A. B.")) (done.map Edit.replacement) := by
  have hone : Set.InjOn resolvePath {p | EditPaths bothOpen.id notes [aliceEdit, bobEdit] p} := by
    have hpaths : ∀ p, EditPaths bothOpen.id notes [aliceEdit, bobEdit] p → p ∈ [filePath bothOpen.id notes,
        undoPath (filePath bothOpen.id notes), aliceEdit.temp bothOpen.id notes, bobEdit.temp bothOpen.id notes] := by
      rintro p (rfl | rfl | ⟨e, he, rfl⟩)
      · simp
      · simp
      · rcases List.mem_pair.mp he with rfl | rfl <;> simp
    have hdifferent : ∀ p ∈ [filePath bothOpen.id notes, undoPath (filePath bothOpen.id notes),
        aliceEdit.temp bothOpen.id notes, bobEdit.temp bothOpen.id notes],
      ∀ q ∈ [filePath bothOpen.id notes, undoPath (filePath bothOpen.id notes),
        aliceEdit.temp bothOpen.id notes, bobEdit.temp bothOpen.id notes],
      resolvePath p = resolvePath q → p = q := by decide
    exact fun p hp q hq => hdifferent p (hpaths p hp) q (hpaths q hq)
  have hrun : Run (CommitStep resolvePath notes) bothOpen inOrder
    ((commitEvents notes bothOpen inOrder).getD bothOpen) :=
    run_commitEvents (Option.getD_of_ne_none (by decide) _).symm
  exact commits_in_place hone bothOpen_openedOn hrun (by decide) (by decide) (by decide)

/-- Alice has changed the first sentence, and Bob has cut the second one in two. -/
def bobCuts : StorageServer :=
  (handleAll resolvePath startedWithNotes
    (asked [.lockSentence notes alice 0, .lockSentence notes bob 1, .write notes alice 0 1 (lit "x"),
      .write notes bob 1 1 (lit "y.")])).1

/-- **Alice's sentence overwrites Bob's second one**, and the old first sentence is still there. -/
theorem commits_diverge :
    OpenedOn (through resolvePath bobCuts) notes (lit "A. B.") (enqueued outOfOrder) ∧
      ∃ t, Run (CommitStep resolvePath notes) bobCuts outOfOrder t ∧ t.pendingOf notes = [] ∧
        (t.disk (resolvePath (filePath 1 notes))).map sentenceCores = some [lit "A.", lit "y.", lit "xA.", []] ∧
        replaceAll (sentenceCores (lit "A. B.")) ((enqueued outOfOrder).map Edit.replacement) =
          [lit "xA.", lit "y.", lit "B.", []] := by
  refine ⟨⟨?_, ?_, ?_, ?_, ?_, ?_, ?_, ?_⟩, (commitEvents notes bobCuts outOfOrder).getD bobCuts,
    run_commitEvents (Option.getD_of_ne_none (by decide) _).symm, ?_, ?_, ?_⟩ <;> decide

end Stdio
end NetworkFileShare
