import NetworkFileShare.StorageServer.Matching
import NetworkFileShare.StorageServer.Without

/-!
# A session that is cancelled (`ss.c`: `cancel_write_session_ss`)

A file may have several names: the path `p` names the file `ρ p`.

* `OtherMessage` : a message of another session, that opens none with the copy of the cancelled session and does not
  come upon this copy;
* `Beside` : two servers of which one has a session that the other lacks, with their files but for its copy;
  `Beside.elsewhere` : a message of another session keeps them so;
* `Beside.opened`, `Beside.written`, `Beside.cancelled` : the session begins, goes on and ends;
* `Beside.run`, `cancel_leaves_no_trace` : a run with a cancelled session ends as the run without it;
  `cancelled_copy_shown` : unless somebody takes the copy for a file.
-/

namespace NetworkFileShare

/-! ## The messages -/

/-- The message locks, writes or gives back another sentence. -/
def Request.elsewhere (f : Filename) (i : Int32) : Request → Bool
  | .lockSentence g _ j | .write g _ j _ _ | .unlockSentence g _ j | .cancelWrite g _ j => (g, j) ≠ (f, i)
  | .read _ | .undo _ => false

/-- The message is a write of the session. -/
def Request.Writes (f : Filename) (u : Username) (i : Int32) : Request → Prop
  | .write g v j _ _ => (g, v, j) = (f, u, i)
  | _ => False

theorem Request.Writes.eq_write {f : Filename} {u : Username} {i : Int32} {r : Request} (h : r.Writes f u i) :
    ∃ wordIdx data, r = .write f u i wordIdx data := by
  cases r with
  | write g v j wordIdx data =>
    cases h
    exact ⟨wordIdx, data, rfl⟩
  | _ => exact h.elim

/-- `MSG_LOCK_SENTENCE` takes the lock and goes on to `start_write_session_ss`. -/
def Opens (io : Io) (s : StorageServer) (g : Filename) (v : Username) (j : Int32) : Prop :=
  lockIndexInvalid (parseFile io s.disk (s.path g)) j.toInt = false ∧ (lockSentence io s g j v).2 = SUCCESS

/-- Where the lock is free there is no session. -/
theorem isOther_of_free {f : Filename} {u : Username} {i : Int32} {s : StorageServer} (h : ServerInv s)
    (hfree : heldAt f i.toInt.toNat s.fileLocks = none) : ∀ w ∈ s.writeSessions, isOther f u i w = true := by
  intro w hw
  rw [isOther_iff]
  intro hkey
  obtain ⟨lock, hget, hlocked, -⟩ := h.held w hw
  cases hkey
  rw [heldAt_of_getSentenceLock hget, holder_eq_some.mpr ⟨hlocked, rfl⟩] at hfree
  cases hfree

namespace Stdio

/-- A message of another session: one that it opens finds room and has another copy than `file`, and no file that the
message locks, commits or backs up is `file`. -/
def OtherMessage (ρ : Path → Path) (f : Filename) (i : Int32) (file : Path) (s : StorageServer) (e : FsIo × Request) :
    Prop :=
  e.2.elsewhere f i = true ∧
    match e.2 with
    | .lockSentence g v j => ρ (s.path g) ≠ file ∧ (Opens e.1.toIo (through ρ s) g v j →
        s.writeSessions.length < MAX_CLIENTS * 10 ∧ ρ (tempPath s.id g v j) ≠ file)
    | .unlockSentence g v j =>
      (getWriteSession s g v j).isSome → ρ (s.path g) ≠ file ∧ ρ (undoPath (s.path g)) ≠ file
    | _ => True

/-- A client's message, handled call by call. -/
def RequestStep (ρ : Path → Path) (s : StorageServer) (e : FsIo × Request) (t : StorageServer) : Prop :=
  StoreStep ρ s (e.1, .client e.2) t

/-! ## Messages of other sessions -/

namespace Alongside
variable {ρ : Path → Path} {f g : Filename} {u v : Username} {i j : Int32} {file : Path} {own own' : Option CStr}
  {s t : StorageServer}

theorem other_place (hplace : (g, j) ≠ (f, i)) (hi : 0 ≤ i.toInt) (hj : 0 ≤ j.toInt) :
    ¬ (g = f ∧ j.toInt.toNat = i.toInt.toNat) := fun he =>
  hplace (by rw [he.1, (place_eq_iff hi hj).mp he.2])

theorem other_key (hplace : (g, j) ≠ (f, i)) : (g, v, j) ≠ (f, u, i) := fun he => by
  cases he
  exact hplace rfl

/-- **Another sentence is locked.** -/
theorem locks_elsewhere (h : Alongside ρ f u i file own s t) (hi : 0 ≤ i.toInt) (hplace : (g, j) ≠ (f, i)) (io : Io) :
    Alongside ρ f u i file own (lockSentence io s g j v).1 (lockSentence io t g j v).1 ∧
      (lockSentence io t g j v).2 = (lockSentence io s g j v).2 := by
  obtain ⟨T, hT, -⟩ := lockSentence_spec io s g j v
  obtain ⟨T', hT', -⟩ := lockSentence_spec io t g j v
  have hs := lockSentence_heldAt io s g j v
  have ht := lockSentence_heldAt io t g j v
  rw [hT] at hs ⊢
  rw [hT'] at ht ⊢
  have hother : 0 ≤ j.toInt → (HeldByOther g j v t.fileLocks ↔ HeldByOther g j v s.fileLocks) := fun hj => by
    unfold HeldByOther
    rw [h.held _ _ (other_place hplace hi hj)]
  -- both servers take the lock, or neither
  have hboth : (lockSentence io t g j v).2 = (lockSentence io s g j v).2 ∧
      ((∀ g' j', heldAt g' j' T = heldAt g' j' s.fileLocks ∧ heldAt g' j' T' = heldAt g' j' t.fileLocks) ∨
        0 ≤ j.toInt ∧ ∀ g' j',
          heldAt g' j' T =
            (if g' = g ∧ j' = j.toInt.toNat then some (lockedName io v) else heldAt g' j' s.fileLocks) ∧
          heldAt g' j' T' =
            (if g' = g ∧ j' = j.toInt.toNat then some (lockedName io v) else heldAt g' j' t.fileLocks)) := by
    rcases hs with ⟨hj, hs2, hs⟩ | ⟨hj, ho, hs2, hs⟩ | ⟨hj, ho, hs2, hs⟩ <;>
      rcases ht with ⟨hj', ht2, ht⟩ | ⟨hj', ho', ht2, ht⟩ | ⟨hj', ho', ht2, ht⟩
    · exact ⟨ht2.trans hs2.symm, Or.inl fun g' j' => ⟨hs g' j', ht g' j'⟩⟩
    · omega
    · omega
    · omega
    · exact ⟨ht2.trans hs2.symm, Or.inl fun g' j' => ⟨hs g' j', ht g' j'⟩⟩
    · exact absurd ((hother hj).mpr ho) ho'
    · omega
    · exact absurd ((hother hj).mp ho') ho
    · exact ⟨ht2.trans hs2.symm, Or.inr ⟨hj, fun g' j' => ⟨hs g' j', ht g' j'⟩⟩⟩
  obtain ⟨hstatus, hsame | ⟨hj, htaken⟩⟩ := hboth
  · refine ⟨h.withLocks (fun g' j' hne => ?_) ?_ ?_, hstatus⟩
    · rw [(hsame g' j').2, (hsame g' j').1, h.held g' j' hne]
    · exact (hsame _ _).1.trans h.lock
    · exact (hsame _ _).2.trans h.free
  · have hmine : ¬ (f = g ∧ i.toInt.toNat = j.toInt.toNat) := fun he =>
      other_place hplace hi hj ⟨he.1.symm, he.2.symm⟩
    refine ⟨h.withLocks (fun g' j' hne => ?_) ?_ ?_, hstatus⟩
    · rw [(htaken g' j').2, (htaken g' j').1, h.held g' j' hne]
    · rw [(htaken _ _).1, if_neg hmine]
      exact h.lock
    · rw [(htaken _ _).2, if_neg hmine]
      exact h.free

/-- **Another sentence is given back.** -/
theorem unlocks_elsewhere (h : Alongside ρ f u i file own s t) (hi : 0 ≤ i.toInt) (hplace : (g, j) ≠ (f, i)) :
    Alongside ρ f u i file own (unlockSentence s g j v).1 (unlockSentence t g j v).1 := by
  obtain ⟨T, hT, -⟩ := unlockSentence_spec s g j v
  obtain ⟨T', hT', -⟩ := unlockSentence_spec t g j v
  have hs := heldAt_unlockSentence s g j v
  have ht := heldAt_unlockSentence t g j v
  rw [hT] at hs ⊢
  rw [hT'] at ht ⊢
  have hmine : ∀ P : Prop, ¬ (f = g ∧ i.toInt.toNat = j.toInt.toNat ∧ 0 ≤ j.toInt ∧ P) := fun P he =>
    other_place hplace hi he.2.2.1 ⟨he.1.symm, he.2.1.symm⟩
  refine h.withLocks (fun g' j' hne => ?_) ?_ ?_
  · rw [hs, ht, h.held g' j' hne]
    by_cases hj : 0 ≤ j.toInt
    · rw [h.held _ _ (other_place hplace hi hj)]
    · rw [if_neg fun he => hj he.2.2.1, if_neg fun he => hj he.2.2.1]
  · rw [hs, if_neg (hmine _)]
    exact h.lock
  · rw [ht, if_neg (hmine _)]
    exact h.free

/-- **Another sentence is asked for.** -/
theorem inStep_lockRequest (h : Alongside ρ f u i file own s t) (hi : 0 ≤ i.toInt) (hplace : (g, j) ≠ (f, i)) {io : Io}
    (hopens : (lockSentence io s g j v).2 = SUCCESS → s.writeSessions.length < MAX_CLIENTS * 10 ∧
      t.writeSessions.length < MAX_CLIENTS * 10 ∧ ρ (tempPath s.id g v j) ≠ file) :
    InStep (fun r r' => Alongside ρ f u i file own r.1 r'.1) (lockRequest io s g v j) (lockRequest io t g v j) := by
  obtain ⟨hlocked, hstatus⟩ := h.locks_elsewhere (v := v) hi hplace io
  obtain ⟨T, hT, -⟩ := lockSentence_spec io s g j v
  obtain ⟨T', hT', -⟩ := lockSentence_spec io t g j v
  unfold lockRequest
  rw [h.path]
  refine .after fun content => .ite (fun _ => .pure h) fun _ => ?_
  rcases hs : lockSentence io s g j v with ⟨s', status⟩
  rcases ht : lockSentence io t g j v with ⟨t', status'⟩
  rw [hs] at hT hopens
  rw [ht] at hT'
  rw [hs, ht] at hlocked hstatus
  obtain rfl : s' = s.withLocks T := hT
  obtain rfl : t' = t.withLocks T' := hT'
  obtain rfl : status' = status := hstatus
  refine .ite (fun hsuccess => ?_) fun _ => .pure hlocked
  obtain ⟨hroom, hroom', hnew⟩ := hopens hsuccess
  refine .bind (hlocked.inStep_startWriteSession (other_key hplace) hroom hroom' hnew)
    fun r r' ⟨hstarted, hstatus⟩ => ?_
  obtain ⟨s', status⟩ := r
  obtain ⟨t', status'⟩ := r'
  obtain rfl : status' = status := hstatus
  exact .ite (fun _ => .pure (hstarted.unlocks_elsewhere hi hplace)) fun _ => .pure hstarted

/-- **The servers make the same calls** for a message of another session. -/
theorem inStep_handle (h : Alongside ρ f u i file own s t) (hi : 0 ≤ i.toInt) {io : Io} {r : Request}
    (he : r.elsewhere f i = true)
    (hopens : ∀ g v j, r = .lockSentence g v j → (lockSentence io s g j v).2 = SUCCESS →
      s.writeSessions.length < MAX_CLIENTS * 10 ∧ t.writeSessions.length < MAX_CLIENTS * 10 ∧
        ρ (tempPath s.id g v j) ≠ file) :
    InStep (fun r r' => Alongside ρ f u i file own r.1 r'.1) (handle io s (.client r)) (handle io t (.client r)) := by
  cases r with
  | read g | undo g => cases he
  | lockSentence g v j =>
    exact .bind (h.inStep_lockRequest hi (of_decide_eq_true he) (hopens g v j rfl)) fun _ _ hdone => .pure hdone
  | write g v j wordIdx data =>
    have hsame : writeFileSs t g v j wordIdx data = writeFileSs s g v j wordIdx data := by
      rw [writeFileSs, writeFileSs, h.get (other_key (of_decide_eq_true he))]
    show InStep _ (writeFileSs s g v j wordIdx data >>= _) (writeFileSs t g v j wordIdx data >>= _)
    rw [hsame]
    exact .after fun _ => .pure h
  | unlockSentence g v j =>
    have hplace : (g, j) ≠ (f, i) := of_decide_eq_true he
    refine .bind (.bind (h.inStep_commitWriteSession (other_key hplace)) fun r r' ⟨hdone, hstatus⟩ => ?_)
      (Q := fun r r' => Alongside ρ f u i file own r.1 r'.1) fun _ _ hdone => .pure hdone
    obtain ⟨s', status⟩ := r
    obtain ⟨t', status'⟩ := r'
    obtain rfl : status' = status := hstatus
    exact .ite (fun _ => .pure (hdone.unlocks_elsewhere hi hplace)) fun _ => .pure (hdone.unlocks_elsewhere hi hplace)
  | cancelWrite g v j =>
    have hplace : (g, j) ≠ (f, i) := of_decide_eq_true he
    exact .bind (h.inStep_removeWriteSession (other_key hplace)) fun _ _ hdone =>
      .pure (hdone.unlocks_elsewhere hi hplace)

end Alongside

/-! ## Two servers -/

/-- The server `t` lacks the session of `s`, and the file `file`, its copy, may be another. -/
structure Beside (ρ : Path → Path) (f : Filename) (u : Username) (i : Int32) (file : Path) (own : Option CStr)
    (s t : StorageServer) : Prop extends Alongside ρ f u i file own s t where
  disk : ∀ p, p ≠ file → t.disk p = s.disk p

namespace Beside
variable {ρ : Path → Path} {f g : Filename} {u v : Username} {i j : Int32} {file : Path} {own own' : Option CStr}
  {s t s' : StorageServer} {io : FsIo}

/-- The same calls of an operation that are not on the copy. -/
theorem handled {op : Operation} (h : Beside ρ f u i file own s t)
    (hcalls : InStep (fun r r' => Alongside ρ f u i file own r.1 r'.1) (handle io.toIo s op) (handle io.toIo t op))
    (honly : Prog.Only (FsOp.On (ρ · ≠ file) (ρ · ≠ file) (ρ · ≠ file)) (handle io.toIo s op)) :
    Beside ρ f u i file own (handled ρ io s op).1 (handled ρ io t op).1 := by
  obtain ⟨hdone, hfiles⟩ := hcalls.runCalls_related (fun op s t => exec_sameOff op s t) honly (Fs.sameOff_closed h.disk)
  exact ⟨⟨hdone.sameId, hdone.sessions, hdone.queues, hdone.held, hdone.lock, hdone.free, hdone.copies, hdone.waits⟩,
    hfiles.disk⟩

/-- The calls of a message of another session are not on the copy. -/
theorem only_elsewhere (h : Beside ρ f u i file own s t) (hs : StoreInv s) {e : FsIo × Request}
    (hother : OtherMessage ρ f i file s e)
    (hvalid : ∀ g v j, e.2 = .lockSentence g v j →
      lockIndexInvalid (NetworkFileShare.parseFile e.1.toIo (s.disk ∘ ρ) (s.path g)) j.toInt = false) :
    Prog.Only (FsOp.On (ρ · ≠ file) (ρ · ≠ file) (ρ · ≠ file)) (handle e.1.toIo s (.client e.2)) := by
  obtain ⟨io, r⟩ := e
  obtain ⟨he, hoff⟩ := hother
  have hcopy : ∀ {g v j w}, (g, j) ≠ (f, i) → getWriteSession s g v j = some w → ρ w.tempFilepath ≠ file :=
    fun hplace hget => h.copy (Alongside.other_key hplace) hget
  cases r with
  | read g | undo g => cases he
  | lockSentence g v j =>
    refine (only_lockRequest hs.server.sessions hoff.1 fun hstatus => ?_).bind fun _ => Prog.Only.pure _
    have hlocked : (lockSentence io.toIo (through ρ s) g j v).2 = SUCCESS := by
      rw [through, lockSentence_disk]
      exact hstatus
    have hnew := (hoff.2 ⟨hvalid g v j rfl, hlocked⟩).2
    exact ⟨hnew, hnew⟩
  | write g v j wordIdx data =>
    have hplace : (g, j) ≠ (f, i) := of_decide_eq_true he
    exact (only_writeFileSs fun w hw => ⟨hcopy hplace hw, hcopy hplace hw⟩).bind fun _ => Prog.Only.pure _
  | unlockSentence g v j =>
    have hplace : (g, j) ≠ (f, i) := of_decide_eq_true he
    refine (Prog.Only.bind (only_commitWriteSession hs (fun hfound => ?_) fun hfound p hp => ?_) fun r => ?_).bind
      fun _ => Prog.Only.pure _
    · exact ⟨(hoff hfound).1, (hoff hfound).1, (hoff hfound).2⟩
    · have hp : ρ p ≠ file := by
        rcases hp with rfl | ⟨e, he, rfl⟩
        · obtain ⟨w, hw⟩ := Option.isSome_iff_exists.mp hfound
          have htemp := hs.server.sessions.temp_eq (mem_of_getWriteSession hw).1 (mem_of_getWriteSession hw).2
          exact htemp ▸ hcopy hplace hw
        · exact h.waits g e (waits_of_mem_entriesOf he)
      exact ⟨hp, hp⟩
    · exact Prog.Only.ite (Prog.Only.pure _) (Prog.Only.pure _)
  | cancelWrite g v j =>
    exact (only_removeWriteSession fun w hw => hcopy (of_decide_eq_true he) hw).bind fun _ => Prog.Only.pure _

/-- **A message of another session keeps the two servers side by side.** -/
theorem elsewhere (h : Beside ρ f u i file own s t) (hs : StoreInv s) (ht : StoreInv t) (hi : 0 ≤ i.toInt)
    {e : FsIo × Request} (hother : OtherMessage ρ f i file s e) :
    Beside ρ f u i file own (Stdio.handled ρ e.1 s (.client e.2)).1 (Stdio.handled ρ e.1 t (.client e.2)).1 := by
  have hroom' : t.writeSessions.length ≤ s.writeSessions.length := by
    rw [← List.filter_eq_self.mpr (isOther_of_free (u := u) ht.server h.free), h.sessions]
    exact List.length_filter_le ..
  by_cases hlock : ∃ g v j, e.2 = .lockSentence g v j ∧
      lockIndexInvalid (NetworkFileShare.parseFile e.1.toIo (s.disk ∘ ρ) (s.path g)) j.toInt = true
  · -- neither server goes on to the lock
    obtain ⟨io, r⟩ := e
    obtain ⟨g, v, j, hr, hinvalid⟩ := hlock
    obtain rfl : r = .lockSentence g v j := hr
    have hparse : NetworkFileShare.parseFile io.toIo (t.disk ∘ ρ) (t.path g) =
        NetworkFileShare.parseFile io.toIo (s.disk ∘ ρ) (s.path g) := by
      simp only [NetworkFileShare.parseFile, readFile, Function.comp_apply, h.path, h.disk _ hother.2.1]
    rw [handled_lock_invalid hinvalid, handled_lock_invalid (hparse ▸ hinvalid)]
    exact h
  · have hvalid : ∀ g v j, e.2 = .lockSentence g v j →
        lockIndexInvalid (NetworkFileShare.parseFile e.1.toIo (s.disk ∘ ρ) (s.path g)) j.toInt = false :=
      fun g v j hr => Bool.eq_false_iff.mpr fun hinvalid => hlock ⟨g, v, j, hr, hinvalid⟩
    refine h.handled (h.inStep_handle hi hother.1 fun g v j hr hstatus => ?_) (h.only_elsewhere hs hother hvalid)
    obtain ⟨io, r⟩ := e
    obtain rfl : r = .lockSentence g v j := hr
    have hlocked : (lockSentence io.toIo (through ρ s) g j v).2 = SUCCESS := by
      rw [through, lockSentence_disk]
      exact hstatus
    obtain ⟨hroom, hnew⟩ := hother.2.2 ⟨hvalid g v j rfl, hlocked⟩
    exact ⟨hroom, Nat.lt_of_le_of_lt hroom' hroom, hnew⟩

/-! ## The session itself -/

/-- The session changes its copy, its record and its lock only. -/
theorem mine (h : Beside ρ f u i file own s t) (hid : s'.id = s.id)
    (hsessions : s'.writeSessions.filter (isOther f u i) = s.writeSessions.filter (isOther f u i))
    (hqueues : s'.commitQueues = s.commitQueues)
    (hheld : ∀ g j, ¬ (g = f ∧ j = i.toInt.toNat) → heldAt g j s'.fileLocks = heldAt g j s.fileLocks)
    (hlock : heldAt f i.toInt.toNat s'.fileLocks = own') (hdisk : ∀ p, p ≠ file → s'.disk p = s.disk p) :
    Beside ρ f u i file own' s' t where
  sameId := h.sameId.trans hid.symm
  sessions := h.sessions.trans hsessions.symm
  queues := h.queues.trans hqueues.symm
  held g j hne := (h.held g j hne).trans (hheld g j hne).symm
  lock := hlock
  free := h.free
  copies w hw hother := by
    have hmem : w ∈ s.writeSessions.filter (isOther f u i) := hsessions ▸ List.mem_filter.mpr ⟨hw, hother⟩
    exact h.copies w (List.mem_filter.mp hmem).1 hother
  waits g e he := h.waits g e (hqueues ▸ he)
  disk p hp := (h.disk p hp).trans (hdisk p hp).symm

/-- An operation on the copy changes no other file. -/
theorem disk_of_effect {op : Operation} (heffect : Effect ρ op s s') (hfile : file = ρ (tempPath s.id f u i))
    (htouched : ∀ p, op.touched (through ρ s) p → p = tempPath s.id f u i) : ∀ p, p ≠ file → s'.disk p = s.disk p := by
  refine fun p hp => heffect.frame p ?_
  rintro ⟨q, hq, rfl⟩
  exact hp (by rw [hfile, htouched q hq])

/-- A session that begins leaves the others as they are. -/
theorem returns_start_own : Returns (fun r : StorageServer × Int32 => r.2 = SUCCESS →
    r.1.writeSessions.filter (isOther f u i) = s.writeSessions.filter (isOther f u i)) (startWriteSession s f u i) := by
  have hfail : ∀ {t : StorageServer}, ERR_SERVER_ERROR = SUCCESS →
      t.writeSessions.filter (isOther f u i) = s.writeSessions.filter (isOther f u i) := fun he => absurd he (by decide)
  refine Returns.after fun content => ?_
  cases hcreate : createWriteSession s f u i ((content.map (·.sentenceCount)).getD 0) with
  | none => exact Returns.pure hfail
  | some t =>
    dsimp only
    cases getWriteSession t f u i with
    | none => exact Returns.pure hfail
    | some w =>
      refine Returns.after fun copied => Returns.ite (fun _ => Returns.pure fun _ => createWriteSession_own hcreate)
        fun _ => Returns.after fun _ => Returns.pure hfail

/-- The lock of the session is taken; the other sessions and locks are as they were. -/
structure LockedOwn (io : Io) (f : Filename) (u : Username) (i : Int32) (s s' : StorageServer) : Prop where
  nonneg : 0 ≤ i.toInt
  sessions : s'.writeSessions.filter (isOther f u i) = s.writeSessions.filter (isOther f u i)
  queues : s'.commitQueues = s.commitQueues
  held : ∀ g j, heldAt g j s'.fileLocks =
    if g = f ∧ j = i.toInt.toNat then some (lockedName io u) else heldAt g j s.fileLocks

theorem returns_lock_own (hs : StoreInv s) (io : Io) :
    Returns (fun r : StorageServer × Reply => r.2.status = SUCCESS → LockedOwn io f u i s r.1)
      (handle io s (.client (.lockSentence f u i))) := by
  refine Returns.bind (Q := fun r : StorageServer × Int32 => r.2 = SUCCESS → LockedOwn io f u i s r.1) ?_
    fun r hr => Returns.pure hr
  have hindex : ERR_INVALID_INDEX ≠ SUCCESS := by decide
  refine Returns.after fun _ => Returns.ite (fun _ => Returns.pure fun he => absurd he hindex) fun _ => ?_
  obtain ⟨tables, hlock, -⟩ := lockSentence_spec io s f i u
  have hheld := lockSentence_heldAt io s f i u
  rcases hres : lockSentence io s f i u with ⟨t, status⟩
  rw [hres] at hlock hheld
  obtain rfl : t = { s with fileLocks := tables } := hlock
  refine Returns.ite (fun hstatus => ?_) fun hstatus => Returns.pure fun he => absurd he hstatus
  obtain ⟨-, hfail, -⟩ | ⟨-, -, hfail, -⟩ | ⟨hi, -, -, hheld⟩ := hheld
  · exact absurd (hstatus.symm.trans hfail) (by decide)
  · exact absurd (hstatus.symm.trans hfail) (by decide)
  have hstart := returns_startWriteSession (s := { s with fileLocks := tables }) (f := f) (u := u) (i := i)
    hs.server.sessions
  refine Returns.bind (hstart.and returns_start_own) fun r ⟨hstarted, hothers⟩ => ?_
  obtain ⟨t, sessionStatus⟩ := r
  refine Returns.ite (fun hfail => Returns.pure fun he => absurd he hfail) fun hsuccess => Returns.pure fun _ => ?_
  obtain ⟨ws, rfl⟩ : ∃ ws, t = { s with fileLocks := tables, writeSessions := ws } := ⟨_, hstarted.tables⟩
  exact ⟨hi, hothers (not_not.mp hsuccess), rfl, hheld⟩

/-- **The session begins.** -/
theorem opened (h : Beside ρ f u i file none s t) (hs : StoreInv s) (hfile : file = ρ (tempPath s.id f u i))
    (hlock : Stdio.handled ρ io s (.client (.lockSentence f u i)) = (s', ⟨SUCCESS, []⟩)) :
    0 ≤ i.toInt ∧ Beside ρ f u i file (some (lockedName io.toIo u)) s' t := by
  have heffect := handled_effect hs ρ io (.client (.lockSentence f u i))
  have hown : (Stdio.handled ρ io s (.client (.lockSentence f u i))).2.status = SUCCESS →
      LockedOwn io.toIo f u i s (Stdio.handled ρ io s (.client (.lockSentence f u i))).1 := fun hstatus =>
    have hown := (returns_lock_own hs io.toIo).runCalls _ hstatus
    ⟨hown.nonneg, hown.sessions, hown.queues, hown.held⟩
  rw [hlock] at heffect hown
  obtain ⟨hi, hsessions, hqueues, hheld⟩ := hown rfl
  exact ⟨hi, h.mine heffect.id hsessions hqueues (fun g j hne => (hheld g j).trans (if_neg hne))
    ((hheld _ _).trans (if_pos ⟨rfl, rfl⟩)) (disk_of_effect heffect hfile fun _ hp => hp)⟩

/-- **The session writes.** -/
theorem written (h : Beside ρ f u i file own s t) (hs : StoreInv s) (hfile : file = ρ (tempPath s.id f u i)) (io : FsIo)
    (wordIdx : Int32) (data : CStr) :
    Beside ρ f u i file own (Stdio.handled ρ io s (.client (.write f u i wordIdx data))).1 t := by
  have hsame : Returns (fun r : StorageServer × Reply => r.1 = s)
    (handle io.toIo s (.client (.write f u i wordIdx data))) :=
    Returns.after fun _ => Returns.pure rfl
  obtain ⟨d, hdone⟩ := handled_of_returns (ρ := ρ) hsame
  have heffect := handled_effect hs ρ io (.client (.write f u i wordIdx data))
  rw [hdone] at heffect ⊢
  exact h.mine rfl rfl rfl (fun _ _ _ => rfl) h.lock (disk_of_effect heffect hfile fun _ hp => hp.2)

/-- **The session is cancelled**: the lock is given back if it was taken under the name of the user. -/
theorem cancelled {name : CStr} (h : Beside ρ f u i file (some name) s t) (hs : StoreInv s)
    (hfile : file = ρ (tempPath s.id f u i)) (hi : 0 ≤ i.toInt) (io : FsIo) :
    Beside ρ f u i file (if name = u.str then none else some name)
      (Stdio.handled ρ io s (.client (.cancelWrite f u i))).1 t := by
  have hremoved : Returns (fun r : StorageServer × Reply => r.1 =
      (unlockSentence { s with writeSessions := s.writeSessions.eraseP (isSession f u i) } f i u).1)
      (handle io.toIo s (.client (.cancelWrite f u i))) :=
    Returns.bind returns_removeWriteSession fun x hx => by
      subst hx
      exact Returns.pure rfl
  have hheld := heldAt_unlockSentence { s with writeSessions := s.writeSessions.eraseP (isSession f u i) } f i u
  obtain ⟨tables, hunlock, -⟩ := unlockSentence_spec
    { s with writeSessions := s.writeSessions.eraseP (isSession f u i) } f i u
  rw [hunlock] at hremoved hheld
  obtain ⟨d, hdone⟩ := handled_of_returns (ρ := ρ) hremoved
  have heffect := handled_effect hs ρ io (.client (.cancelWrite f u i))
  rw [hdone] at heffect ⊢
  refine h.mine rfl (filter_eraseP_own _) rfl (fun g j hne => ?_) ?_ (disk_of_effect heffect hfile fun _ hp => hp.2)
  · exact (hheld g j).trans (if_neg fun he => hne ⟨he.1, he.2.1⟩)
  · show heldAt f i.toInt.toNat tables = _
    rw [hheld, h.lock]
    by_cases hname : name = u.str
    · rw [if_pos ⟨rfl, rfl, hi, congrArg some hname⟩, if_pos hname]
    · rw [if_neg fun he => hname (Option.some.inj he.2.2.2), if_neg hname]

end Beside

/-! ## Runs -/

/-- The servers are the same but for the file `file`, and the lock of the sentence is free. -/
structure NoTrace (ρ : Path → Path) (f : Filename) (i : Int32) (file : Path) (s t : StorageServer) : Prop where
  main : s.disk (ρ (s.path f)) = t.disk (ρ (t.path f))
  backup : s.disk (ρ (undoPath (s.path f))) = t.disk (ρ (undoPath (t.path f)))
  files : ∀ p, p ≠ file → s.disk p = t.disk p
  sessions : s.writeSessions = t.writeSessions
  copies : ∀ w ∈ s.writeSessions, s.disk (ρ w.tempFilepath) = t.disk (ρ w.tempFilepath)
  queues : s.commitQueues = t.commitQueues
  held : ∀ g j, heldAt g j s.fileLocks = heldAt g j t.fileLocks
  free : heldAt f i.toInt.toNat s.fileLocks = none

section Runs
variable {ρ : Path → Path} {f : Filename} {u : Username} {i : Int32} {file : Path} {own : Option CStr}
  {s s' t t' : StorageServer} {es : List (FsIo × Request)}

/-- At first there is one server. -/
theorem Beside.refl (hfree : heldAt f i.toInt.toNat s.fileLocks = none) (hcopies : CopiesApart ρ f u i file s)
    (hwaits : WaitsApart ρ file s) : Beside ρ f u i file none s s :=
  ⟨⟨rfl, rfl, rfl, fun _ _ _ => rfl, hfree, hfree, hcopies, hwaits⟩, fun _ _ => rfl⟩

/-- **Runs with and without the session stay side by side.** -/
theorem Beside.run (h : Beside ρ f u i file own s t) (hs : StoreInv s) (ht : StoreInv t) (hi : 0 ≤ i.toInt)
    (hfile : file = ρ (tempPath s.id f u i))
    (hrun : Run (Guarded (fun x e => e.2.Writes f u i ∨ OtherMessage ρ f i file x e) (RequestStep ρ)) s es s')
    (hrun' : Run (RequestStep ρ) t (es.filter (·.2.elsewhere f i)) t') :
    Beside ρ f u i file own s' t' ∧ StoreInv s' ∧ StoreInv t' ∧ s'.id = s.id := by
  refine Run.beside (R := fun x y => Beside ρ f u i file own x y ∧ StoreInv x ∧ StoreInv y ∧ x.id = s.id)
    ⟨h, hs, ht, rfl⟩ ?_ ?_ hrun hrun'
  · rintro x y e x' y' ⟨hxy, hx, hy, hid⟩ he ⟨hguard, hstep⟩ hstep'
    have heffect := hstep.effect hx
    refine ⟨?_, heffect.inv, (hstep'.effect hy).inv, heffect.id.trans hid⟩
    rcases hguard with hwrites | hother
    · obtain ⟨wordIdx, data, hwrite⟩ := hwrites.eq_write
      rw [hwrite] at he
      exact absurd rfl (of_decide_eq_true he)
    · rw [show x' = _ from hstep, show y' = _ from hstep']
      exact hxy.elsewhere hx hy hi hother
  · rintro x y e x' ⟨hxy, hx, hy, hid⟩ he ⟨hguard, hstep⟩
    have heffect := hstep.effect hx
    refine ⟨?_, heffect.inv, hy, heffect.id.trans hid⟩
    rcases hguard with hwrites | ⟨hothers, -⟩
    · obtain ⟨wordIdx, data, hwrite⟩ := hwrites.eq_write
      rw [show x' = _ from hstep, hwrite]
      exact hxy.written hx (by rw [hid, hfile]) e.1 wordIdx data
    · rw [hothers] at he
      cases he

theorem Beside.noTrace (h : Beside ρ f u i file none s t) (hs : StoreInv s) (ht : StoreInv t)
    (hmain : ρ (s.path f) ≠ file) (hundo : ρ (undoPath (s.path f)) ≠ file) : NoTrace ρ f i file s t := by
  have hothers := isOther_of_free (u := u) hs.server h.lock
  have hfiles : ∀ p, p ≠ file → s.disk p = t.disk p := fun p hp => (h.disk p hp).symm
  refine ⟨?_, ?_, hfiles, ?_, fun w hw => hfiles _ (h.copies w hw (hothers w hw)), h.queues.symm, fun g j => ?_, h.lock⟩
  · rw [h.path]
    exact hfiles _ hmain
  · rw [h.path]
    exact hfiles _ hundo
  · rw [← List.filter_eq_self.mpr hothers, ← h.sessions, List.filter_eq_self.mpr (isOther_of_free ht.server h.free)]
  · by_cases hplace : g = f ∧ j = i.toInt.toNat
    · rw [hplace.1, hplace.2, h.lock, h.free]
    · exact (h.held g j hplace).symm

/-- **A session that is cancelled leaves no trace**, if its lock was taken under the name of its user: a run with it
ends as the run of the others without it. Its copy is neither the file nor the backup. -/
theorem cancel_leaves_no_trace {id : Int32} {disk : Disk} {before : List (FsIo × Operation)}
    {s₁ s₂ s₃ s₄ : StorageServer} {io io' : FsIo} {es es' : List (FsIo × Request)}
    (hreach : Run AnyStoreStep (freshServer id disk) before s)
    (hfree : heldAt f i.toInt.toNat s.fileLocks = none)
    (hmain : ρ (s.path f) ≠ ρ (tempPath s.id f u i)) (hundo : ρ (undoPath (s.path f)) ≠ ρ (tempPath s.id f u i))
    (hcopies : CopiesApart ρ f u i (ρ (tempPath s.id f u i)) s) (hwaits : WaitsApart ρ (ρ (tempPath s.id f u i)) s)
    (hlock : handled ρ io s (.client (.lockSentence f u i)) = (s₁, ⟨SUCCESS, []⟩))
    (hrun : Run (Guarded (fun x e => e.2.Writes f u i ∨ OtherMessage ρ f i (ρ (tempPath s.id f u i)) x e)
      (RequestStep ρ)) s₁ es s₂)
    (hcancel : RequestStep ρ s₂ (io', .cancelWrite f u i) s₃)
    (hrest : Run (Guarded (OtherMessage ρ f i (ρ (tempPath s.id f u i))) (RequestStep ρ)) s₃ es' s₄)
    (hwithout : Run (RequestStep ρ) s ((es ++ es').filter (·.2.elsewhere f i)) t) :
    NoTrace ρ f i (ρ (tempPath s.id f u i)) s₄ t ↔ lockedName io.toIo u = u.str := by
  have hs := storeInv_of_steps (.fresh id disk) hreach
  rw [List.filter_append] at hwithout
  obtain ⟨t₁, hwithout, hwithout'⟩ := hwithout.split
  -- the session begins
  obtain ⟨hi, h₁⟩ := (Beside.refl hfree hcopies hwaits).opened hs rfl hlock
  have heffect := handled_effect hs ρ io (.client (.lockSentence f u i))
  rw [hlock] at heffect
  obtain ⟨hid₁, hs₁⟩ : s₁.id = s.id ∧ StoreInv s₁ := ⟨heffect.id, heffect.inv⟩
  -- it writes
  obtain ⟨h₂, hs₂, ht₁, hid₂⟩ := h₁.run hs₁ hs hi (by rw [hid₁]) hrun hwithout
  -- it is cancelled
  have hcancelled := StoreStep.effect hcancel hs₂
  have h₃ := h₂.cancelled hs₂ (by rw [hid₂, hid₁]) hi io'
  rw [← show s₃ = _ from hcancel] at h₃
  -- the others go on
  obtain ⟨h₄, hs₄, ht, hid₄⟩ := h₃.run hcancelled.inv ht₁ hi (by rw [hcancelled.id, hid₂, hid₁])
    (hrest.mono fun _ _ _ ⟨hguard, hstep⟩ => ⟨Or.inr hguard, hstep⟩) hwithout'
  have hpath : s₄.path f = s.path f := path_eq_of_id (by rw [hid₄, hcancelled.id, hid₂, hid₁]) f
  constructor
  · intro hno
    have hgiven := h₄.lock.symm.trans hno.free
    by_contra hname
    rw [if_neg hname] at hgiven
    cases hgiven
  · intro hname
    rw [if_pos hname] at h₄
    exact h₄.noTrace hs₄ ht (hpath ▸ hmain) (hpath ▸ hundo)

end Runs

/-! ## Alice gives up, and bob goes on -/

/-- The server after a request, every open succeeding. -/
def after (s : StorageServer) (r : Request) : StorageServer := (handled resolvePath .allOpens s (.client r)).1

/-- Alice has locked the first of two sentences. -/
def aliceOpened : StorageServer := after startedWithNotes (.lockSentence notes alice 0)

/-- Alice has written, bob has locked the other sentence, and alice has cancelled. -/
def aliceGone : StorageServer :=
  after (after (after aliceOpened (.write notes alice 0 1 (lit "x"))) (.lockSentence notes bob 1))
    (.cancelWrite notes alice 0)

theorem lock_aliceOpened :
    handled resolvePath .allOpens startedWithNotes (.client (.lockSentence notes alice 0)) =
      (aliceOpened, ⟨SUCCESS, []⟩) :=
  Prod.ext rfl (by decide)

theorem cancel_leaves_no_trace_alice :
    NoTrace resolvePath notes 0 (resolvePath (tempPath startedWithNotes.id notes alice 0))
        (after aliceGone (.unlockSentence notes bob 1))
        (after (after startedWithNotes (.lockSentence notes bob 1)) (.unlockSentence notes bob 1)) ↔
      lockedName Io.allOpens alice = alice.str := by
  have hwrite : Run (Guarded (fun x e => e.2.Writes notes alice 0 ∨
      OtherMessage resolvePath notes 0 (resolvePath (tempPath startedWithNotes.id notes alice 0)) x e)
      (RequestStep resolvePath)) aliceOpened [(.allOpens, .write notes alice 0 1 (lit "x"))]
      (after aliceOpened (.write notes alice 0 1 (lit "x"))) := Run.single ⟨Or.inl rfl, rfl⟩
  have hbob : OtherMessage resolvePath notes 0 (resolvePath (tempPath startedWithNotes.id notes alice 0))
      (after aliceOpened (.write notes alice 0 1 (lit "x"))) (.allOpens, .lockSentence notes bob 1) :=
    ⟨by decide, by decide, fun _ => ⟨by decide, by decide⟩⟩
  have hcommit : OtherMessage resolvePath notes 0 (resolvePath (tempPath startedWithNotes.id notes alice 0)) aliceGone
      (.allOpens, .unlockSentence notes bob 1) := ⟨by decide, fun _ => ⟨by decide, by decide⟩⟩
  refine cancel_leaves_no_trace .nil rfl (by decide) (by decide) (fun w hw => by cases hw)
    (fun g e he => ?_) lock_aliceOpened (hwrite.snoc ⟨Or.inr hbob, rfl⟩) rfl (Run.single ⟨hcommit, rfl⟩)
    ((Run.single rfl).snoc rfl)
  obtain ⟨q, hq, -⟩ := he
  cases hq

/-- The file whose name is that of alice's copy. -/
def copyOfNotes : Filename := .strncpy (MAX_FILENAME - 1) (lit "notes.txt.temp_alice_0")

/-- **Who locks the copy as a file takes its text along**, although no two sessions have one copy. -/
theorem cancelled_copy_shown :
    handled resolvePath .allOpens startedWithNotes (.client (.lockSentence notes alice 0)) =
        (aliceOpened, ⟨SUCCESS, []⟩) ∧
      (handled resolvePath .allOpens aliceOpened (.client (.lockSentence copyOfNotes bob 0))).2.status = SUCCESS ∧
      resolvePath (tempPath 1 copyOfNotes bob 0) ≠ resolvePath (tempPath 1 notes alice 0) ∧
      (after (after aliceOpened (.lockSentence copyOfNotes bob 0)) (.cancelWrite notes alice 0)).disk
        (resolvePath (tempPath 1 copyOfNotes bob 0)) = some (lit "A. B.") ∧
      (after startedWithNotes (.lockSentence copyOfNotes bob 0)).disk (resolvePath (tempPath 1 copyOfNotes bob 0)) =
        some [] ∧
      ¬ NoTrace resolvePath notes 0 (resolvePath (tempPath 1 notes alice 0))
        (after (after aliceOpened (.lockSentence copyOfNotes bob 0)) (.cancelWrite notes alice 0))
        (after startedWithNotes (.lockSentence copyOfNotes bob 0)) := by
  have hapart : resolvePath (tempPath 1 copyOfNotes bob 0) ≠ resolvePath (tempPath 1 notes alice 0) := by decide
  have hwith : (after (after aliceOpened (.lockSentence copyOfNotes bob 0)) (.cancelWrite notes alice 0)).disk
      (resolvePath (tempPath 1 copyOfNotes bob 0)) = some (lit "A. B.") := by decide
  have hwithout : (after startedWithNotes (.lockSentence copyOfNotes bob 0)).disk
      (resolvePath (tempPath 1 copyOfNotes bob 0)) = some [] := by decide
  refine ⟨lock_aliceOpened, by decide, hapart, hwith, hwithout, fun hno => ?_⟩
  have hsame := hno.files _ hapart
  rw [hwith, hwithout] at hsame
  exact absurd hsame (by decide)

end Stdio
end NetworkFileShare
