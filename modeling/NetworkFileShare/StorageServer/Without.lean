import NetworkFileShare.StorageServer.Effects
import NetworkFileShare.StorageServer.Erasure

/-!
# The server without a session (`ss.c`)

* `isOther` : the sessions of other keys; `find?_others`, `filter_eraseP`, `filter_setOriginalCount` : the calls of
  another session do to them what they do to all;
* `Alongside` : the tables of two servers of which one has a session that the other lacks; no other session, and no
  commit that waits, has its copy;
* `inStep_startWriteSession`, `inStep_commitWriteSession`, `inStep_removeWriteSession` : the two servers make the same
  calls for another session, and stay so;
* `Fs.SameOff` : the files of two servers but for one; `exec_sameOff` : a call that is not on this file.
-/

namespace NetworkFileShare

/-! ## The other sessions -/

/-- The session has another key. -/
def isOther (f : Filename) (u : Username) (i : Int32) (w : WriteSession) : Bool := !isSession f u i w

section Others
variable {f g : Filename} {u v : Username} {i j : Int32} {count : Nat}

theorem isOther_iff {w : WriteSession} : isOther f u i w = true ↔ w.key ≠ (f, u, i) := by
  rw [isOther, Bool.not_eq_true', Bool.eq_false_iff, Ne, isSession_iff]

theorem not_isOther {w : WriteSession} (hw : isSession f u i w = true) : ¬ isOther f u i w = true := fun hother =>
  isOther_iff.mp hother (isSession_iff.mp hw)

theorem isOther_of_isSession (hne : (g, v, j) ≠ (f, u, i)) {w : WriteSession} (hw : isSession g v j w = true) :
    isOther f u i w = true := by
  rw [isOther_iff, isSession_iff.mp hw]
  exact hne

theorem find?_others (hne : (g, v, j) ≠ (f, u, i)) (ws : List WriteSession) :
    (ws.filter (isOther f u i)).find? (isSession g v j) = ws.find? (isSession g v j) := by
  refine List.find?_filter.trans (congrArg (ws.find? ·) (funext fun w => ?_))
  rw [Bool.eq_iff_iff, decide_eq_true_eq]
  exact and_iff_right_of_imp (isOther_of_isSession hne)

theorem filter_eraseP (hne : (g, v, j) ≠ (f, u, i)) (ws : List WriteSession) :
    (ws.eraseP (isSession g v j)).filter (isOther f u i) = (ws.filter (isOther f u i)).eraseP (isSession g v j) := by
  rw [List.eraseP_filter]
  refine congrArg (fun p => (ws.eraseP p).filter _) (funext fun w => ?_)
  rw [Bool.eq_iff_iff, Bool.and_eq_true]
  exact (and_iff_left_of_imp (isOther_of_isSession hne)).symm

theorem filter_setOriginalCount (hne : (g, v, j) ≠ (f, u, i)) : ∀ ws : List WriteSession,
    (setOriginalCount g v j count ws).filter (isOther f u i) =
      setOriginalCount g v j count (ws.filter (isOther f u i))
  | [] => rfl
  | w :: ws => by
    rw [setOriginalCount]
    by_cases hw : isSession g v j w = true
    · have hkept := isOther_of_isSession hne hw
      have hkept' : isOther f u i { w with originalSentenceCount := count } = true := hkept
      rw [if_pos hw, List.filter_cons_of_pos hkept, setOriginalCount, if_pos hw, List.filter_cons_of_pos hkept']
    · rw [if_neg hw]
      by_cases hmine : isOther f u i w = true
      · rw [List.filter_cons_of_pos hmine, List.filter_cons_of_pos hmine, setOriginalCount, if_neg hw,
          filter_setOriginalCount hne ws]
      · rw [List.filter_cons_of_neg hmine, List.filter_cons_of_neg hmine, filter_setOriginalCount hne ws]

theorem filter_setOriginalCount_own : ∀ ws : List WriteSession,
    (setOriginalCount f u i count ws).filter (isOther f u i) = ws.filter (isOther f u i)
  | [] => rfl
  | w :: ws => by
    rw [setOriginalCount]
    by_cases hw : isSession f u i w = true
    · have hmine := not_isOther hw
      have hmine' : ¬ isOther f u i { w with originalSentenceCount := count } = true := hmine
      rw [if_pos hw, List.filter_cons_of_neg hmine, List.filter_cons_of_neg hmine']
    · have hother := isOther_iff.mpr fun hkey => hw (isSession_iff.mpr hkey)
      rw [if_neg hw, List.filter_cons_of_pos hother, List.filter_cons_of_pos hother, filter_setOriginalCount_own ws]

theorem filter_eraseP_own : ∀ ws : List WriteSession,
    (ws.eraseP (isSession f u i)).filter (isOther f u i) = ws.filter (isOther f u i)
  | [] => rfl
  | w :: ws => by
    by_cases hw : isSession f u i w = true
    · have hmine := not_isOther hw
      rw [List.eraseP_cons_of_pos hw, List.filter_cons_of_neg hmine]
    · have hother := isOther_iff.mpr fun hkey => hw (isSession_iff.mpr hkey)
      rw [List.eraseP_cons_of_neg hw, List.filter_cons_of_pos hother, List.filter_cons_of_pos hother,
        filter_eraseP_own ws]

/-- The session of the key itself: the others stay. -/
theorem createWriteSession_own {s t : StorageServer} (hcreate : createWriteSession s f u i count = some t) :
    t.writeSessions.filter (isOther f u i) = s.writeSessions.filter (isOther f u i) := by
  unfold createWriteSession at hcreate
  cases hget : getWriteSession s f u i with
  | some w₀ =>
    rw [hget] at hcreate
    obtain rfl := Option.some.inj hcreate
    exact filter_setOriginalCount_own _
  | none =>
    simp only [hget] at hcreate
    split at hcreate
    · obtain rfl := Option.some.inj hcreate
      have hmine : ¬ isOther f u i ⟨f, u, i, tempPath s.id f u i, count⟩ = true := not_isOther (isSession_iff.mpr rfl)
      simp only [List.filter_append, List.filter_cons_of_neg hmine, List.filter_nil, List.append_nil]
    · cases hcreate

end Others

namespace Stdio

/-! ## The tables of two servers -/

/-- The sessions of other keys have other copies. -/
def CopiesApart (ρ : Path → Path) (f : Filename) (u : Username) (i : Int32) (file : Path) (s : StorageServer) : Prop :=
  ∀ w ∈ s.writeSessions, isOther f u i w = true → ρ w.tempFilepath ≠ file

/-- The copies of the commits that wait are other files. -/
def WaitsApart (ρ : Path → Path) (file : Path) (s : StorageServer) : Prop :=
  ∀ g e, Waits s.commitQueues g e → ρ e.tempFilepath ≠ file

/-- The server `t` lacks the session of `s`, whose copy is `file`: its record, and its lock, which is taken under the
name `own`. -/
structure Alongside (ρ : Path → Path) (f : Filename) (u : Username) (i : Int32) (file : Path) (own : Option CStr)
    (s t : StorageServer) : Prop where
  sameId : t.id = s.id
  sessions : t.writeSessions.filter (isOther f u i) = s.writeSessions.filter (isOther f u i)
  queues : t.commitQueues = s.commitQueues
  held : ∀ g j, ¬ (g = f ∧ j = i.toInt.toNat) → heldAt g j t.fileLocks = heldAt g j s.fileLocks
  lock : heldAt f i.toInt.toNat s.fileLocks = own
  free : heldAt f i.toInt.toNat t.fileLocks = none
  copies : CopiesApart ρ f u i file s
  waits : WaitsApart ρ file s

namespace Alongside
variable {ρ : Path → Path} {f g : Filename} {u v : Username} {i j : Int32} {file : Path} {own own' : Option CStr}
  {s t : StorageServer} {io : Io}

section
variable (h : Alongside ρ f u i file own s t)
include h

theorem path (g : Filename) : t.path g = s.path g := path_eq_of_id h.sameId g

theorem get (hne : (g, v, j) ≠ (f, u, i)) : getWriteSession t g v j = getWriteSession s g v j := by
  rw [getWriteSession, getWriteSession, ← find?_others hne, h.sessions, find?_others hne]

/-- The session that a call for another key finds has another copy. -/
theorem copy (hne : (g, v, j) ≠ (f, u, i)) {w : WriteSession} (hget : getWriteSession s g v j = some w) :
    ρ w.tempFilepath ≠ file :=
  h.copies w (mem_of_getWriteSession hget).1 (isOther_of_isSession hne (List.find?_some hget))

/-- The lock tables change alike but for the lock of the session. -/
theorem withLocks {T T' : List FileLocks}
    (hheld : ∀ g j, ¬ (g = f ∧ j = i.toInt.toNat) → heldAt g j T' = heldAt g j T)
    (hlock : heldAt f i.toInt.toNat T = own') (hfree : heldAt f i.toInt.toNat T' = none) :
    Alongside ρ f u i file own' (s.withLocks T) (t.withLocks T') :=
  ⟨h.sameId, h.sessions, h.queues, hheld, hlock, hfree, h.copies, h.waits⟩

/-- A session is taken out of both tables. -/
theorem erase (hne : (g, v, j) ≠ (f, u, i)) : Alongside ρ f u i file own
    { s with writeSessions := s.writeSessions.eraseP (isSession g v j) }
    { t with writeSessions := t.writeSessions.eraseP (isSession g v j) } where
  sameId := h.sameId
  sessions := by
    show (t.writeSessions.eraseP _).filter _ = (s.writeSessions.eraseP _).filter _
    rw [filter_eraseP hne, filter_eraseP hne, h.sessions]
  queues := h.queues
  held := h.held
  lock := h.lock
  free := h.free
  copies w hw := h.copies w (List.mem_of_mem_eraseP hw)
  waits := h.waits

theorem withQueues {queues : List FileCommitQueue} (hwaits : ∀ g e, Waits queues g e → ρ e.tempFilepath ≠ file) :
    Alongside ρ f u i file own { s with commitQueues := queues } { t with commitQueues := queues } :=
  ⟨h.sameId, h.sessions, rfl, h.held, h.lock, h.free, h.copies, hwaits⟩

/-- **A session begins**: both tables have room for it. -/
theorem create (hne : (g, v, j) ≠ (f, u, i)) (hroom : s.writeSessions.length < MAX_CLIENTS * 10)
    (hroom' : t.writeSessions.length < MAX_CLIENTS * 10) (hnew : ρ (tempPath s.id g v j) ≠ file) (count : Nat) :
    ∃ s' t', createWriteSession s g v j count = some s' ∧ createWriteSession t g v j count = some t' ∧
      Alongside ρ f u i file own s' t' := by
  unfold createWriteSession
  rw [h.get hne]
  cases hget : getWriteSession s g v j with
  | some w =>
    refine ⟨_, _, rfl, rfl, h.sameId, ?_, h.queues, h.held, h.lock, h.free, fun w hw hother => ?_, h.waits⟩
    · show (setOriginalCount ..).filter _ = (setOriginalCount ..).filter _
      rw [filter_setOriginalCount hne, filter_setOriginalCount hne, h.sessions]
    · obtain ⟨w₀, hw₀, hkey, htemp⟩ := mem_setOriginalCount hw
      rw [htemp]
      refine h.copies w₀ hw₀ ?_
      rw [isOther_iff] at hother ⊢
      rwa [← hkey]
  | none =>
    dsimp only
    have htemp : tempPath t.id g v j = tempPath s.id g v j := by rw [h.sameId]
    rw [if_pos hroom, if_pos hroom', htemp]
    refine ⟨_, _, rfl, rfl, h.sameId, ?_, h.queues, h.held, h.lock, h.free, fun w hw hother => ?_, h.waits⟩
    · show (t.writeSessions ++ _).filter _ = (s.writeSessions ++ _).filter _
      rw [List.filter_append, List.filter_append, h.sessions]
    · rcases List.mem_append.mp hw with hw | hw
      · exact h.copies w hw hother
      · rw [List.mem_singleton.mp hw]
        exact hnew

/-! ## The calls of another session -/

theorem inStep_removeWriteSession (hne : (g, v, j) ≠ (f, u, i)) : InStep (Alongside ρ f u i file own)
    (removeWriteSession s g v j) (removeWriteSession t g v j) := by
  unfold removeWriteSession
  rw [h.get hne]
  cases getWriteSession s g v j with
  | none => exact .pure h
  | some w => exact .after fun _ => .pure (h.erase hne)

theorem inStep_startWriteSession (hne : (g, v, j) ≠ (f, u, i)) (hroom : s.writeSessions.length < MAX_CLIENTS * 10)
    (hroom' : t.writeSessions.length < MAX_CLIENTS * 10) (hnew : ρ (tempPath s.id g v j) ≠ file) :
    InStep (fun r r' => Alongside ρ f u i file own r.1 r'.1 ∧ r'.2 = r.2)
      (startWriteSession s g v j) (startWriteSession t g v j) := by
  unfold startWriteSession
  rw [h.path]
  refine .after fun content => ?_
  obtain ⟨s', t', hs, ht, h'⟩ := h.create hne hroom hroom' hnew ((content.map (·.sentenceCount)).getD 0)
  rw [hs, ht]
  dsimp only
  rw [h'.get hne, h'.path]
  cases getWriteSession s' g v j with
  | none => exact .pure ⟨h', rfl⟩
  | some w =>
    refine .after fun copied => .ite (fun _ => .pure ⟨h', rfl⟩) fun _ => ?_
    exact .bind (h'.inStep_removeWriteSession hne) fun _ _ hremoved => .pure ⟨hremoved, rfl⟩

theorem inStep_processCommitQueue (g : Filename) : InStep (Alongside ρ f u i file own)
    (processCommitQueue s g) (processCommitQueue t g) := by
  unfold processCommitQueue
  rw [h.queues, h.path]
  cases hfind : s.commitQueues.find? (·.filename = g) with
  | none => exact .pure h
  | some queue =>
    refine .after fun _ => .afterReturns (returns_processEntries _ queue.entries) fun left hleft => .pure ?_
    refine h.withQueues fun g' e he => h.waits g' e (waits_left (fun e he => ?_) he)
    rw [entriesOf, hfind]
    exact hleft e he

theorem inStep_commitWriteSession (hne : (g, v, j) ≠ (f, u, i)) :
    InStep (fun r r' => Alongside ρ f u i file own r.1 r'.1 ∧ r'.2 = r.2)
      (commitWriteSession s g v j) (commitWriteSession t g v j) := by
  unfold commitWriteSession
  rw [h.get hne]
  cases hget : getWriteSession s g v j with
  | none => exact .pure ⟨h, rfl⟩
  | some w =>
    dsimp only
    rw [h.queues]
    cases henter : enqueueCommit g ⟨v, j, w.originalSentenceCount, w.tempFilepath⟩ s.commitQueues with
    | none => exact .bind (h.inStep_removeWriteSession hne) fun _ _ hremoved => .pure ⟨hremoved, rfl⟩
    | some queues =>
      have hwaits : ∀ g' e, Waits queues g' e → ρ e.tempFilepath ≠ file := fun g' e he => by
        rcases waits_enqueue henter he with hold | ⟨-, rfl⟩
        · exact h.waits g' e hold
        · exact h.copy hne hget
      exact .bind (((h.erase hne).withQueues hwaits).inStep_processCommitQueue g) fun _ _ hdone => .pure ⟨hdone, rfl⟩

end

end Alongside

/-! ## The files of two servers -/

/-- The files are the same but for `file`, which is not being written. -/
structure Fs.SameOff (file : Path) (s t : Fs) : Prop where
  disk : ∀ p, p ≠ file → t.disk p = s.disk p
  writing : t.writing = s.writing
  off : ∀ p text, s.writing = some (p, text) → p ≠ file

section
variable {ρ : Path → Path} {io : FsIo} {file p : Path} {d d' : Disk} {s t : Fs}

theorem Fs.sameOff_closed (h : ∀ p, p ≠ file → d' p = d p) : (Fs.closed d).SameOff file (.closed d') :=
  ⟨h, rfl, fun _ _ hw => by cases hw⟩

/-- A file that is changed on both. -/
theorem update_sameOff (h : ∀ p, p ≠ file → d' p = d p) (q : Path) (content : Option CStr) :
    ∀ p, p ≠ file → Function.update d' q content p = Function.update d q content p := by
  intro p hp
  by_cases hq : p = q
  · rw [hq, Function.update_self, Function.update_self]
  · rw [Function.update_of_ne hq, Function.update_of_ne hq, h p hp]

/-- **Every call that is not on the file** gets the same answer. -/
theorem exec_sameOff (op : FsOp) (s t : Fs) (hon : op.On (ρ · ≠ file) (ρ · ≠ file) (ρ · ≠ file))
    (h : s.SameOff file t) :
    (FsOp.exec ρ io op t).1 = (FsOp.exec ρ io op s).1 ∧
      (FsOp.exec ρ io op s).2.SameOff file (FsOp.exec ρ io op t).2 := by
  cases op with
  | access path =>
    refine ⟨?_, h⟩
    simp only [FsOp.exec, pathExists, Function.comp_apply, h.disk _ hon]
  | fopenRead path =>
    refine ⟨?_, h⟩
    simp only [FsOp.exec, readFile, Function.comp_apply, h.disk _ hon]
  | fread path =>
    refine ⟨?_, h⟩
    simp only [FsOp.exec, h.disk _ hon]
  | fopenWrite path =>
    simp only [FsOp.exec]
    split
    · refine ⟨rfl, update_sameOff h.disk _ _, rfl, fun p text hw => ?_⟩
      rw [← (Prod.mk.inj (Option.some.inj hw)).1]
      exact hon
    · exact ⟨rfl, h⟩
  | fwrite bytes =>
    refine ⟨rfl, h.disk, congrArg (Option.map fun w : Path × CStr => (w.1, w.2 ++ bytes)) h.writing,
      fun p text hw => ?_⟩
    obtain ⟨w, hw, heq⟩ := Option.map_eq_some_iff.mp hw
    rw [← (Prod.mk.inj heq).1]
    exact h.off w.1 w.2 hw
  | fclose =>
    simp only [FsOp.exec, h.writing]
    cases s.writing with
    | none => exact ⟨trivial, h⟩
    | some w => exact ⟨trivial, Fs.sameOff_closed (update_sameOff h.disk _ _)⟩
  | unlink path =>
    refine ⟨?_, update_sameOff h.disk _ _, h.writing, h.off⟩
    simp only [FsOp.exec, h.disk _ hon]
  | rename old new =>
    simp only [FsOp.exec, h.disk _ hon.1]
    cases s.disk (ρ old) with
    | none => exact ⟨rfl, h⟩
    | some text =>
      dsimp only
      split
      · exact ⟨rfl, update_sameOff (update_sameOff h.disk _ _) _ _, h.writing, h.off⟩
      · exact ⟨rfl, h⟩

end

end Stdio
end NetworkFileShare
