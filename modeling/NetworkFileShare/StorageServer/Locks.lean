import NetworkFileShare.Lib.Run
import NetworkFileShare.StorageServer.Commit

/-!
# Sessions hold their locks (`ss.c`)

* `HoldsLock` : the lock of a session's sentence is taken under its user's name;
* `lockSentence_spec`, `unlockSentence_spec`, `createWriteSession_spec`, `startWriteSession_spec`,
  `commitWriteSession_sessions` : what the functions do to the tables;
* `ServerInv` : no session occurs twice, every session has its own copy and holds its lock;
  `ServerInv.handle` : every request keeps it, `ServerInv.same_user` : two sessions on one index are of one user.
-/

namespace NetworkFileShare

/-- What tells sessions apart. -/
def WriteSession.key (w : WriteSession) : Filename × Username × Int32 :=
  (w.filename, w.username, w.sentenceIdx)

theorem isSession_iff {f : Filename} {u : Username} {i : Int32} {w : WriteSession} :
    isSession f u i w = true ↔ w.key = (f, u, i) := by
  simp [isSession, WriteSession.key, and_assoc]

/-! ## The lock table -/

section LockTable
variable {f g : Filename} {i j : Int32} {lock : SentenceLock}

theorem getSentenceLock_cons (e : FileLocks) (es : List FileLocks) :
    getSentenceLock f i (e :: es) =
      if e.filename = f then (if 0 ≤ i.toInt then e.locks[i.toInt.toNat]? else none)
      else getSentenceLock f i es := by
  unfold getSentenceLock
  by_cases he : e.filename = f <;> simp [he]

theorem nonneg_of_getSentenceLock {tables : List FileLocks} (h : getSentenceLock f i tables = some lock) :
    0 ≤ i.toInt := by
  unfold getSentenceLock at h
  split at h
  · cases h
  · split at h
    · assumption
    · cases h

/-- Locks that exist stay as they are when the table grows. -/
theorem getSentenceLock_init {count : Nat} : ∀ {tables : List FileLocks},
    getSentenceLock g j tables = some lock →
      getSentenceLock g j (initFileLocks f count tables) = some lock
  | [], h => by cases h
  | e :: es, h => by
    rw [getSentenceLock_cons] at h
    unfold initFileLocks
    by_cases hf : e.filename = f
    · rw [if_pos hf, getSentenceLock_cons]
      by_cases hg : e.filename = g
      · simp only [if_pos hg] at h ⊢
        split at h
        · rename_i hj
          rw [if_pos hj, List.getElem?_append_left (List.getElem?_eq_some_iff.mp h).1]
          exact h
        · cases h
      · simp only [if_neg hg] at h ⊢
        exact h
    · rw [if_neg hf, getSentenceLock_cons]
      by_cases hg : e.filename = g
      · simp only [if_pos hg] at h ⊢
        exact h
      · simp only [if_neg hg] at h ⊢
        exact getSentenceLock_init h

theorem getSentenceLock_set_self {lock' : SentenceLock} : ∀ {tables : List FileLocks},
    getSentenceLock f i tables = some lock →
      getSentenceLock f i (setSentenceLock f i lock' tables) = some lock'
  | [], h => by cases h
  | e :: es, h => by
    rw [getSentenceLock_cons] at h
    unfold setSentenceLock
    by_cases hf : e.filename = f
    · rw [if_pos hf] at h
      rw [if_pos hf, getSentenceLock_cons, if_pos hf]
      split at h
      · rename_i hi
        rw [if_pos hi, List.getElem?_set_self (List.getElem?_eq_some_iff.mp h).1]
      · cases h
    · rw [if_neg hf] at h
      rw [if_neg hf, getSentenceLock_cons, if_neg hf]
      exact getSentenceLock_set_self h

/-- Another lock stays as it is. -/
theorem getSentenceLock_set_of_ne {lock' : SentenceLock} (hi : 0 ≤ i.toInt) (hne : (g, j) ≠ (f, i)) :
    ∀ tables : List FileLocks,
      getSentenceLock g j (setSentenceLock f i lock' tables) = getSentenceLock g j tables
  | [] => rfl
  | e :: es => by
    unfold setSentenceLock
    by_cases hf : e.filename = f
    · rw [if_pos hf, getSentenceLock_cons, getSentenceLock_cons]
      by_cases hg : e.filename = g
      · simp only [if_pos hg]
        split
        · rename_i hj
          refine List.getElem?_set_ne fun he => hne ?_
          have hij : i.toInt = j.toInt := by omega
          rw [← hf, ← hg, Int32.toInt_inj.mp hij]
        · rfl
      · simp only [if_neg hg]
    · rw [if_neg hf, getSentenceLock_cons, getSentenceLock_cons, getSentenceLock_set_of_ne hi hne es]

end LockTable

/-- The lock of the session's sentence is taken under the name of its user. -/
def HoldsLock (tables : List FileLocks) (w : WriteSession) : Prop :=
  ∃ lock, getSentenceLock w.filename w.sentenceIdx tables = some lock ∧ lock.locked = true ∧
    lock.lockedBy.take (MAX_USERNAME - 1) = w.username.str

theorem take_username (u : Username) : u.str.take (MAX_USERNAME - 1) = u.str :=
  List.take_of_length_le (Nat.le_sub_one_of_lt u.fits)

theorem take_lockedName (io : Io) (u : Username) :
    (lockedName io u).take (MAX_USERNAME - 1) = u.str := by
  have hlen := u.fits
  unfold lockedName
  split
  · exact take_username u
  · rename_i h
    exact List.take_left' (by omega)

/-- Two sessions that hold one lock are of one user. -/
theorem HoldsLock.same_user {tables : List FileLocks} {w w' : WriteSession} (h : HoldsLock tables w)
    (h' : HoldsLock tables w') (hf : w.filename = w'.filename) (hi : w.sentenceIdx = w'.sentenceIdx) :
    w.username = w'.username := by
  obtain ⟨lock, hget, -, hname⟩ := h
  obtain ⟨lock', hget', -, hname'⟩ := h'
  rw [hf, hi, hget'] at hget
  obtain rfl := Option.some.inj hget
  exact CArray.ext' (hname.symm.trans hname')

theorem HoldsLock.of_key {tables : List FileLocks} {w w' : WriteSession} (h : HoldsLock tables w)
    (hkey : w'.key = w.key) : HoldsLock tables w' := by
  obtain ⟨lock, hlock⟩ := h
  simp only [WriteSession.key, Prod.mk.injEq] at hkey
  refine ⟨lock, ?_⟩
  rw [hkey.1, hkey.2.1, hkey.2.2]
  exact hlock

/-- **`lock_sentence_ss`** changes the lock table only; a lock it takes was free or the user's own, and every
session keeps its lock. -/
theorem lockSentence_spec (io : Io) (s : StorageServer) (f : Filename) (i : Int32) (u : Username) :
    ∃ tables, (lockSentence io s f i u).1 = { s with fileLocks := tables } ∧
      (∀ w, HoldsLock s.fileLocks w → HoldsLock tables w) ∧
      ((lockSentence io s f i u).2 = SUCCESS →
        ∀ w : WriteSession, w.key = (f, u, i) → HoldsLock tables w) := by
  have hgrow : ∀ w, HoldsLock s.fileLocks w →
      HoldsLock (initFileLocks f (i.toInt + 1).toNat s.fileLocks) w :=
    fun w ⟨lock, hget, hlock⟩ => ⟨lock, getSentenceLock_init hget, hlock⟩
  unfold lockSentence
  simp only
  cases hget : getSentenceLock f i (initFileLocks f (i.toInt + 1).toNat s.fileLocks) with
  | none => exact ⟨_, rfl, hgrow, fun h => absurd (show ERR_INVALID_INDEX = SUCCESS from h) (by decide)⟩
  | some lock =>
    simp only
    split
    · exact ⟨_, rfl, hgrow, fun h => absurd (show ERR_SENTENCE_LOCKED = SUCCESS from h) (by decide)⟩
    · rename_i hfree
      have hown : ∀ w : WriteSession, w.key = (f, u, i) → HoldsLock
          (setSentenceLock f i ⟨true, lockedName io u⟩ (initFileLocks f (i.toInt + 1).toNat s.fileLocks)) w := by
        rintro w hw
        obtain ⟨rfl, rfl, rfl⟩ : w.filename = f ∧ w.username = u ∧ w.sentenceIdx = i := by
          simpa [WriteSession.key] using hw
        exact ⟨_, getSentenceLock_set_self hget, rfl, take_lockedName io _⟩
      refine ⟨_, rfl, fun w hw => ?_, fun _ => hown⟩
      by_cases hkey : (w.filename, w.sentenceIdx) = (f, i)
      · -- the lock was taken already, by the same user
        obtain ⟨lock', hget', hlocked, hname⟩ := hgrow w hw
        rw [(Prod.mk.inj hkey).1, (Prod.mk.inj hkey).2, hget] at hget'
        obtain rfl := Option.some.inj hget'
        have hby : lock.lockedBy = u.str := by
          by_contra hne
          exact hfree ⟨hlocked, hne⟩
        rw [hby, take_username] at hname
        refine hown w ?_
        rw [WriteSession.key, (Prod.mk.inj hkey).1, (Prod.mk.inj hkey).2, CArray.ext' hname.symm]
      · obtain ⟨lock', hget', hlock⟩ := hgrow w hw
        exact ⟨lock', (getSentenceLock_set_of_ne (nonneg_of_getSentenceLock hget) hkey _).trans hget', hlock⟩

/-- **`unlock_sentence_ss`** takes no session's lock but that of the same user and sentence. -/
theorem unlockSentence_spec (s : StorageServer) (f : Filename) (i : Int32) (u : Username) :
    ∃ tables, (unlockSentence s f i u).1 = { s with fileLocks := tables } ∧
      ∀ w : WriteSession, w.key ≠ (f, u, i) → HoldsLock s.fileLocks w → HoldsLock tables w := by
  unfold unlockSentence
  cases hget : getSentenceLock f i s.fileLocks with
  | none => exact ⟨_, rfl, fun _ _ h => h⟩
  | some lock =>
    simp only
    split
    · exact ⟨_, rfl, fun _ _ h => h⟩
    · rename_i hmine
      push Not at hmine
      refine ⟨_, rfl, fun w hw ⟨lock', hget', hlocked, hname⟩ => ?_⟩
      refine ⟨lock', (getSentenceLock_set_of_ne (nonneg_of_getSentenceLock hget) (fun hkey => hw ?_) _).trans
        hget', hlocked, hname⟩
      rw [(Prod.mk.inj hkey).1, (Prod.mk.inj hkey).2, hget] at hget'
      obtain rfl := Option.some.inj hget'
      rw [hmine.2, take_username] at hname
      rw [WriteSession.key, (Prod.mk.inj hkey).1, (Prod.mk.inj hkey).2, CArray.ext' hname.symm]

/-! ## The session table -/

/-- Every session occurs once and has the copy made for it. -/
structure SessionsOk (id : Int32) (ws : List WriteSession) : Prop where
  keys : (ws.map WriteSession.key).Nodup
  temps : ∀ w ∈ ws, w.tempFilepath = tempPath id w.filename w.username w.sentenceIdx

section SessionTable
variable {f : Filename} {u : Username} {i : Int32} {count : Nat} {id : Int32}

theorem map_key_setOriginalCount : ∀ ws : List WriteSession,
    (setOriginalCount f u i count ws).map WriteSession.key = ws.map WriteSession.key
  | [] => rfl
  | w :: ws => by
    unfold setOriginalCount
    split
    · rfl
    · rw [List.map_cons, List.map_cons, map_key_setOriginalCount ws]

theorem mem_setOriginalCount {w : WriteSession} : ∀ {ws : List WriteSession},
    w ∈ setOriginalCount f u i count ws →
      ∃ v ∈ ws, w.key = v.key ∧ w.tempFilepath = v.tempFilepath
  | [], h => by cases h
  | v :: ws, h => by
    unfold setOriginalCount at h
    split at h
    · rcases List.mem_cons.mp h with rfl | h
      · exact ⟨v, List.mem_cons_self, rfl, rfl⟩
      · exact ⟨w, List.mem_cons_of_mem _ h, rfl, rfl⟩
    · rcases List.mem_cons.mp h with rfl | h
      · exact ⟨w, List.mem_cons_self, rfl, rfl⟩
      · obtain ⟨v', hv', heq⟩ := mem_setOriginalCount h
        exact ⟨v', List.mem_cons_of_mem _ hv', heq⟩

theorem find?_setOriginalCount : ∀ ws : List WriteSession,
    (setOriginalCount f u i count ws).find? (isSession f u i) =
      (ws.find? (isSession f u i)).map fun w => { w with originalSentenceCount := count }
  | [] => rfl
  | w :: ws => by
    unfold setOriginalCount
    by_cases hw : isSession f u i w = true
    · have hw' : isSession f u i { w with originalSentenceCount := count } = true := hw
      rw [if_pos hw, List.find?_cons_of_pos hw, List.find?_cons_of_pos hw', Option.map_some]
    · rw [if_neg hw, List.find?_cons_of_neg hw, List.find?_cons_of_neg hw, find?_setOriginalCount ws]

/-- Which sessions are found under another key does not change. -/
theorem find?_setOriginalCount_of_ne {g : Filename} {v : Username} {j : Int32} (hne : (g, v, j) ≠ (f, u, i)) :
    ∀ ws : List WriteSession,
      (setOriginalCount f u i count ws).find? (isSession g v j) = ws.find? (isSession g v j)
  | [] => rfl
  | w :: ws => by
    unfold setOriginalCount
    by_cases hw : isSession f u i w = true
    · have hkey := isSession_iff.mp hw
      have hother : ∀ w' : WriteSession, w'.key = w.key → ¬ isSession g v j w' = true := fun w' hw' h =>
        hne ((isSession_iff.mp h).symm.trans (hw'.trans hkey))
      rw [if_pos hw, List.find?_cons_of_neg (hother w rfl)]
      exact List.find?_cons_of_neg (hother { w with originalSentenceCount := count } rfl)
    · rw [if_neg hw, List.find?_cons, List.find?_cons, find?_setOriginalCount_of_ne hne ws]

theorem SessionsOk.temp_eq {ws : List WriteSession} (h : SessionsOk id ws) {w : WriteSession} (hw : w ∈ ws)
    (hkey : w.key = (f, u, i)) : w.tempFilepath = tempPath id f u i := by
  simp only [WriteSession.key, Prod.mk.injEq] at hkey
  rw [h.temps w hw, hkey.1, hkey.2.1, hkey.2.2]

theorem SessionsOk.eraseP {ws : List WriteSession} (h : SessionsOk id ws) (p : WriteSession → Bool) :
    SessionsOk id (ws.eraseP p) where
  keys := h.keys.sublist (List.eraseP_sublist.map _)
  temps w hw := h.temps w (List.mem_of_mem_eraseP hw)

/-- The sessions of other users are still found when one is taken out. -/
theorem find?_eraseP_isSession {v : Username} {j : Int32} (hv : v ≠ u) (ws : List WriteSession) :
    (ws.eraseP (isSession f u i)).find? (isSession f v j) = ws.find? (isSession f v j) :=
  find?_eraseP_of_disjoint (fun w hw => by
    rw [isSession_iff] at hw
    refine Bool.eq_false_iff.mpr fun h => hv ?_
    rw [isSession_iff, hw] at h
    exact (Prod.mk.inj (Prod.mk.inj h).2).1.symm) ws

/-- A session that is taken out is gone. -/
theorem key_ne_of_mem_eraseP {w : WriteSession} : ∀ {ws : List WriteSession},
    (ws.map WriteSession.key).Nodup → w ∈ ws.eraseP (isSession f u i) → w.key ≠ (f, u, i)
  | [], _, h => by cases h
  | v :: ws, hnodup, h => by
    rw [List.map_cons, List.nodup_cons] at hnodup
    by_cases hv : isSession f u i v = true
    · rw [List.eraseP_cons_of_pos hv] at h
      intro hw
      rw [isSession_iff] at hv
      exact hnodup.1 (hv.trans hw.symm ▸ List.mem_map_of_mem h)
    · rw [List.eraseP_cons_of_neg hv] at h
      rcases List.mem_cons.mp h with rfl | h
      · rwa [isSession_iff] at hv
      · exact key_ne_of_mem_eraseP hnodup.2 h

theorem key_ne_of_find?_eq_none {ws : List WriteSession} (h : ws.find? (isSession f u i) = none) :
    ∀ w ∈ ws, w.key ≠ (f, u, i) := fun w hw => by
  have hne := List.find?_eq_none.mp h w hw
  rwa [isSession_iff] at hne

theorem mem_of_getWriteSession {s : StorageServer} {w : WriteSession}
    (h : getWriteSession s f u i = some w) : w ∈ s.writeSessions ∧ w.key = (f, u, i) :=
  ⟨List.mem_of_find?_eq_some h, isSession_iff.mp (List.find?_some h)⟩

/-- **`get_write_session` with `create`**: the session is there, with the count, and no other is new. -/
theorem createWriteSession_spec {s t : StorageServer} (h : createWriteSession s f u i count = some t) :
    ∃ ws, t = { s with writeSessions := ws } ∧
      (∃ w, ws.find? (isSession f u i) = some w ∧ w.originalSentenceCount = count) ∧
      (∀ w ∈ ws, w.key = (f, u, i) ∨ ∃ v ∈ s.writeSessions, w.key = v.key) ∧
      (SessionsOk s.id s.writeSessions → SessionsOk s.id ws) ∧
      ∀ g v j, (g, v, j) ≠ (f, u, i) →
        ws.find? (isSession g v j) = s.writeSessions.find? (isSession g v j) := by
  unfold createWriteSession at h
  cases hget : getWriteSession s f u i with
  | some w =>
    simp only [hget] at h
    obtain rfl := Option.some.inj h
    unfold getWriteSession at hget
    refine ⟨_, rfl, ⟨_, by rw [find?_setOriginalCount, hget]; rfl, rfl⟩, fun v hv => ?_, fun hok => ⟨?_, ?_⟩,
      fun g v j hne => find?_setOriginalCount_of_ne hne _⟩
    · obtain ⟨v', hv', hkey, -⟩ := mem_setOriginalCount hv
      exact Or.inr ⟨v', hv', hkey⟩
    · rw [map_key_setOriginalCount]
      exact hok.keys
    · intro v hv
      obtain ⟨v', hv', hkey, htemp⟩ := mem_setOriginalCount hv
      simp only [WriteSession.key, Prod.mk.injEq] at hkey
      rw [htemp, hok.temps v' hv', hkey.1, hkey.2.1, hkey.2.2]
  | none =>
    simp only [hget] at h
    split at h
    · obtain rfl := Option.some.inj h
      unfold getWriteSession at hget
      have hnone := key_ne_of_find?_eq_none hget
      refine ⟨_, rfl, ⟨⟨f, u, i, tempPath s.id f u i, count⟩, ?_, rfl⟩, fun v hv => ?_, fun hok => ⟨?_, ?_⟩,
        fun g v j hne => ?_⟩
      · rw [List.find?_append, hget]
        exact List.find?_cons_of_pos (isSession_iff.mpr rfl)
      · rcases List.mem_append.mp hv with hv | hv
        · exact Or.inr ⟨v, hv, rfl⟩
        · rw [List.mem_singleton.mp hv]
          exact Or.inl rfl
      · rw [List.map_append, List.map_singleton, List.nodup_append_comm]
        refine List.nodup_cons.mpr ⟨fun hmem => ?_, hok.keys⟩
        obtain ⟨v, hv, hkey⟩ := List.mem_map.mp hmem
        exact hnone v hv hkey
      · intro v hv
        rcases List.mem_append.mp hv with hv | hv
        · exact hok.temps v hv
        · rw [List.mem_singleton.mp hv]
      · have hother : ¬ isSession g v j ⟨f, u, i, tempPath s.id f u i, count⟩ = true := fun h =>
          hne (isSession_iff.mp h).symm
        rw [List.find?_append, List.find?_cons_of_neg hother, List.find?_nil, Option.or_none]
    · cases h

/-- **`remove_write_session`** takes the session out, and its copy. -/
theorem removeWriteSession_spec (s : StorageServer) (f : Filename) (u : Username) (i : Int32) :
    ∃ disk, removeWriteSession s f u i =
        { s with disk := disk, writeSessions := s.writeSessions.eraseP (isSession f u i) } ∧
      ∀ p, (∀ w ∈ s.writeSessions, w.key = (f, u, i) → p ≠ w.tempFilepath) → disk p = s.disk p := by
  unfold removeWriteSession
  cases hget : getWriteSession s f u i with
  | none =>
    have hnone := List.find?_eq_none.mp hget
    refine ⟨s.disk, ?_, fun _ _ => rfl⟩
    rw [List.eraseP_of_forall_not fun w hw => hnone w hw]
  | some w =>
    obtain ⟨hmem, hkey⟩ := mem_of_getWriteSession hget
    exact ⟨_, rfl, fun p hp => Function.update_of_ne (hp w hmem hkey) _ _⟩

end SessionTable

/-- The sentence count that a new session stores. -/
def countAtStart (io : Io) (s : StorageServer) (f : Filename) : Nat :=
  ((parseFile io s.disk (s.path f)).map (·.sentenceCount)).getD 0

/-- **`start_write_session_ss`**: the session is there with a copy of the file, or it is gone. -/
theorem startWriteSession_cases (io : Io) (s : StorageServer) (f : Filename) (u : Username) (i : Int32) :
    (startWriteSession io s f u i).1 = s ∧ (startWriteSession io s f u i).2 ≠ SUCCESS ∧
        (∀ w ∈ s.writeSessions, w.key ≠ (f, u, i)) ∨
      ∃ t w, createWriteSession s f u i (countAtStart io s f) = some t ∧ getWriteSession t f u i = some w ∧
        (io.canWrite w.tempFilepath = true ∧ (startWriteSession io s f u i).2 = SUCCESS ∧
            (startWriteSession io s f u i).1 = { t with
              disk := Function.update s.disk w.tempFilepath
                (some ((readFile io s.disk (s.path f)).getD [])) } ∨
          (startWriteSession io s f u i).2 ≠ SUCCESS ∧
            (startWriteSession io s f u i).1 = removeWriteSession t f u i) := by
  unfold startWriteSession
  simp only
  cases hcreate : createWriteSession s f u i (countAtStart io s f) with
  | none =>
    left
    unfold countAtStart at hcreate
    simp only [hcreate]
    refine ⟨trivial, by decide, key_ne_of_find?_eq_none ?_⟩
    unfold createWriteSession at hcreate
    cases hget : getWriteSession s f u i with
    | none => exact hget
    | some w => simp [hget] at hcreate
  | some t =>
    right
    obtain ⟨ws, rfl, ⟨w, hw, -⟩, -⟩ := createWriteSession_spec hcreate
    refine ⟨_, w, rfl, hw, ?_⟩
    unfold countAtStart at hcreate
    unfold getWriteSession
    simp only [hcreate, hw]
    by_cases hopen : io.canWrite w.tempFilepath = true
    · left
      simp only [writeFile, hopen, if_true]
      exact ⟨trivial, trivial, rfl⟩
    · right
      have hopen : io.canWrite w.tempFilepath = false := by simpa using hopen
      simp only [writeFile, hopen, Bool.false_eq_true, if_false]
      exact ⟨by decide, trivial⟩

/-- **`write_file_ss`** fails, or puts the content with the inserted text into the copy. -/
theorem writeFileSs_cases (io : Io) (s : StorageServer) (f : Filename) (u : Username) (i wordIdx : Int32)
    (content : CStr) :
    (writeFileSs io s f u i wordIdx content).1 = s ∧
        (writeFileSs io s f u i wordIdx content).2 ≠ SUCCESS ∨
      ∃ w fc k, getWriteSession s f u i = some w ∧
        insertWordInSentence (parseTemp io s.disk w.tempFilepath) i.toInt wordIdx.toInt content =
          some (fc, k) ∧
        writeFileSs io s f u i wordIdx content =
          ({ s with disk := Function.update s.disk w.tempFilepath (some fc.text) }, SUCCESS) := by
  unfold writeFileSs
  cases hget : getWriteSession s f u i with
  | none => exact Or.inl ⟨rfl, show ERR_INVALID_OPERATION ≠ SUCCESS by decide⟩
  | some w =>
    simp only
    split
    · exact Or.inl ⟨rfl, show ERR_INVALID_INDEX ≠ SUCCESS by decide⟩
    · cases hinsert : insertWordInSentence (parseTemp io s.disk w.tempFilepath) i.toInt wordIdx.toInt
        content with
      | none => exact Or.inl ⟨rfl, show ERR_INVALID_INDEX ≠ SUCCESS by decide⟩
      | some res =>
        by_cases hopen : io.canWrite w.tempFilepath = true
        · refine Or.inr ⟨w, res.1, res.2, rfl, hinsert, ?_⟩
          simp only [writeFile, hopen, if_true]
        · left
          have hopen : io.canWrite w.tempFilepath = false := by simpa using hopen
          simp only [writeFile, hopen, Bool.false_eq_true, if_false]
          exact ⟨trivial, by decide⟩

/-- **`commit_write_session_ss`** takes the session out. -/
theorem commitWriteSession_sessions (io : Io) (s : StorageServer) (f : Filename) (u : Username) (i : Int32) :
    ∃ disk queues, (commitWriteSession io s f u i).1 = { s with
      disk := disk
      commitQueues := queues
      writeSessions := s.writeSessions.eraseP (isSession f u i) } := by
  unfold commitWriteSession
  cases hget : getWriteSession s f u i with
  | none =>
    have hnone := List.find?_eq_none.mp hget
    refine ⟨s.disk, s.commitQueues, ?_⟩
    rw [List.eraseP_of_forall_not fun w hw => hnone w hw]
  | some w =>
    simp only
    split
    · obtain ⟨disk, hremove, -⟩ := removeWriteSession_spec s f u i
      exact ⟨disk, s.commitQueues, hremove⟩
    · rename_i queues _
      obtain ⟨disk, queues', hprocess, -⟩ := processCommitQueue_spec io { s with
        commitQueues := queues
        writeSessions := s.writeSessions.eraseP (isSession f u i) } f
      exact ⟨disk, queues', hprocess⟩

/-! ## The invariant of the server -/

/-- Every session occurs once, with its own copy, and holds the lock of its sentence. -/
structure ServerInv (s : StorageServer) : Prop where
  sessions : SessionsOk s.id s.writeSessions
  held : ∀ w ∈ s.writeSessions, HoldsLock s.fileLocks w

namespace ServerInv
variable {s : StorageServer}

/-- A server that has no session yet. -/
theorem of_nil (h : s.writeSessions = []) : ServerInv s := by
  refine ⟨⟨?_, ?_⟩, ?_⟩ <;> simp [h]

/-- Two sessions on one index of one file are of one user. -/
theorem same_user (h : ServerInv s) {w w' : WriteSession} (hw : w ∈ s.writeSessions)
    (hw' : w' ∈ s.writeSessions) (hf : w.filename = w'.filename) (hi : w.sentenceIdx = w'.sentenceIdx) :
    w.username = w'.username :=
  (h.held w hw).same_user (h.held w' hw') hf hi

/-- A session that ends may give its lock back. -/
theorem leave (h : ServerInv s) (disk : Disk) (queues : List FileCommitQueue) (f : Filename) (u : Username)
    (i : Int32) :
    ServerInv (unlockSentence { s with
      disk := disk
      commitQueues := queues
      writeSessions := s.writeSessions.eraseP (isSession f u i) } f i u).1 := by
  obtain ⟨tables, hunlock, hkeep⟩ := unlockSentence_spec { s with
    disk := disk
    commitQueues := queues
    writeSessions := s.writeSessions.eraseP (isSession f u i) } f i u
  rw [hunlock]
  refine ⟨h.sessions.eraseP _, fun w hw => ?_⟩
  exact hkeep w (key_ne_of_mem_eraseP h.sessions.keys hw) (h.held w (List.mem_of_mem_eraseP hw))

/-- A session that could not start is out of the table again, and may give its lock back. -/
theorem startFails (h : ServerInv s) (f : Filename) (u : Username) (i : Int32) :
    ∃ disk tables, (unlockSentence (removeWriteSession s f u i) f i u).1 = { s with
        disk := disk
        fileLocks := tables
        writeSessions := s.writeSessions.eraseP (isSession f u i) } ∧
      (∀ w ∈ s.writeSessions.eraseP (isSession f u i), HoldsLock tables w) ∧
      ∀ p, p ≠ tempPath s.id f u i → disk p = s.disk p := by
  obtain ⟨disk, hremove, hframe⟩ := removeWriteSession_spec s f u i
  rw [hremove]
  obtain ⟨tables, hunlock, hkeep⟩ := unlockSentence_spec { s with
    disk := disk
    writeSessions := s.writeSessions.eraseP (isSession f u i) } f i u
  refine ⟨disk, tables, hunlock, fun w hw => ?_, fun p hp => hframe p fun w hw hkey => ?_⟩
  · exact hkeep w (key_ne_of_mem_eraseP h.sessions.keys hw) (h.held w (List.mem_of_mem_eraseP hw))
  · rwa [h.sessions.temp_eq hw hkey]

/-- **What `MSG_LOCK_SENTENCE` does**: only the copy of the session is written, the session is the only new one,
and after a success it is there with a copy of the file. -/
theorem lock_spec (h : ServerInv s) (io : Io) (f : Filename) (u : Username) (i : Int32) :
    ∃ disk tables ws, (handleClientRequest io s (.lockSentence f u i)).1 =
        { s with disk := disk, fileLocks := tables, writeSessions := ws } ∧
      SessionsOk s.id ws ∧ (∀ w ∈ ws, HoldsLock tables w) ∧
      (∀ p, p ≠ tempPath s.id f u i → disk p = s.disk p) ∧
      (∀ w ∈ ws, (handleClientRequest io s (.lockSentence f u i)).2 = SUCCESS ∧ w.key = (f, u, i) ∨
        ∃ v ∈ s.writeSessions, w.key = v.key) ∧
      (∀ v j, v ≠ u → ws.find? (isSession f v j) = s.writeSessions.find? (isSession f v j)) ∧
      ((handleClientRequest io s (.lockSentence f u i)).2 = SUCCESS →
        lockIndexInvalid (parseFile io s.disk (s.path f)) i.toInt = false ∧
        disk (tempPath s.id f u i) = some ((readFile io s.disk (s.path f)).getD []) ∧
        ∃ w, ws.find? (isSession f u i) = some w ∧ w.originalSentenceCount = countAtStart io s f) := by
  unfold handleClientRequest
  simp only
  split
  · exact ⟨s.disk, s.fileLocks, s.writeSessions, rfl, h.sessions, h.held, fun _ _ => rfl,
      fun w hw => Or.inr ⟨w, hw, rfl⟩, fun _ _ _ => rfl,
      fun hs => absurd (show ERR_INVALID_INDEX = SUCCESS from hs) (by decide)⟩
  rename_i hindex
  obtain ⟨tables, hlock, hkeep, hown⟩ := lockSentence_spec io s f i u
  rcases hres : lockSentence io s f i u with ⟨t, status⟩
  rw [hres] at hlock hown
  obtain rfl : t = { s with fileLocks := tables } := hlock
  simp only
  split
  case isFalse hstatus =>
    exact ⟨s.disk, tables, s.writeSessions, rfl, h.sessions, fun w hw => hkeep w (h.held w hw),
      fun _ _ => rfl, fun w hw => Or.inr ⟨w, hw, rfl⟩, fun _ _ _ => rfl, fun hs => absurd hs hstatus⟩
  case isTrue hstatus =>
    have hown := hown hstatus
    rcases startWriteSession_cases io { s with fileLocks := tables } f u i with
      ⟨hsame, hfail, hnone⟩ | ⟨t, w, hcreate, hget, hres⟩
    · -- no room for another session
      rw [if_pos hfail, hsame]
      obtain ⟨tables', hunlock, hkeep'⟩ := unlockSentence_spec { s with fileLocks := tables } f i u
      exact ⟨s.disk, tables', s.writeSessions, hunlock, h.sessions,
        fun v hv => hkeep' v (hnone v hv) (hkeep v (h.held v hv)), fun _ _ => rfl,
        fun v hv => Or.inr ⟨v, hv, rfl⟩, fun _ _ _ => rfl, fun hs => absurd hs hfail⟩
    · obtain ⟨ws, rfl, ⟨w', hw', hcount⟩, hkeys, hok, hfind⟩ := createWriteSession_spec hcreate
      have hothers : ∀ v j, v ≠ u → ws.find? (isSession f v j) = s.writeSessions.find? (isSession f v j) :=
        fun v j hv => hfind f v j fun he => hv (Prod.mk.inj (Prod.mk.inj he).2).1
      obtain rfl : w' = w := Option.some.inj (hw'.symm.trans hget)
      have hmem := mem_of_getWriteSession hget
      have htemp := (hok h.sessions).temp_eq hmem.1 hmem.2
      have hheld : ∀ v ∈ ws, HoldsLock tables v := by
        intro v hv
        rcases hkeys v hv with hkey | ⟨v', hv', hkey⟩
        · exact hown v hkey
        · exact (hkeep v' (h.held v' hv')).of_key hkey
      rcases hres with ⟨-, hsuccess, ht⟩ | ⟨hfail, ht⟩
      · rw [hsuccess, ht]
        refine ⟨_, tables, ws, rfl, hok h.sessions, hheld, fun p hp => ?_, fun v hv => ?_, hothers,
          fun _ => ?_⟩
        · exact Function.update_of_ne (htemp ▸ hp) _ _
        · exact (hkeys v hv).imp (fun hkey => ⟨rfl, hkey⟩) id
        · exact ⟨by simpa using hindex, by rw [← htemp]; exact Function.update_self .., w', hw', hcount⟩
      · rw [if_pos hfail, ht]
        obtain ⟨disk, tables', hstop, hheld', hframe⟩ :=
          startFails (s := { s with fileLocks := tables, writeSessions := ws }) ⟨hok h.sessions, hheld⟩ f u i
        refine ⟨disk, tables', _, hstop, (hok h.sessions).eraseP _, hheld', hframe, fun v hv => Or.inr ?_,
          fun v j hv => ?_, fun hs => absurd hs hfail⟩
        · rcases hkeys v (List.mem_of_mem_eraseP hv) with hkey | hold
          · exact absurd hkey (key_ne_of_mem_eraseP (hok h.sessions).keys hv)
          · exact hold
        · rw [find?_eraseP_isSession hv, hothers v j hv]

/-- A session is on an index that exists. -/
theorem nonneg (h : ServerInv s) {w : WriteSession} (hw : w ∈ s.writeSessions) : 0 ≤ w.sentenceIdx.toInt := by
  obtain ⟨lock, hget, -⟩ := h.held w hw
  exact nonneg_of_getSentenceLock hget

/-- **What a commit does** when the queue of the file was empty and the server can open the file: nothing when
the copy cannot be read or the session cannot be queued, and a merge otherwise. -/
theorem commit_spec (h : ServerInv s) {io : Io} {f : Filename} {u : Username} {i : Int32} {m : CStr}
    (hidle : s.pendingOf f = []) (hm : s.disk (s.path f) = some m) (hread : io.canRead (s.path f) = true)
    (hwrite : io.canWrite (s.path f) = true) :
    (commitWriteSession io s f u i).1.pendingOf f = [] ∧
      ∃ m', (commitWriteSession io s f u i).1.disk (s.path f) = some m' ∧
        ((∀ w, getWriteSession s f u i = some w → readFile io s.disk w.tempFilepath = none) → m' = m) ∧
        ∀ w text, getWriteSession s f u i = some w → readFile io s.disk w.tempFilepath = some text →
          (commitWriteSession io s f u i).2 = SUCCESS ∧
              cores m' = Merge.merge i.toInt w.originalSentenceCount (cores m) (cores text) ∨
            (commitWriteSession io s f u i).2 ≠ SUCCESS ∧ m' = m := by
  unfold commitWriteSession
  cases hget : getWriteSession s f u i with
  | none => exact ⟨hidle, m, hm, fun _ => rfl, fun w text hw => by cases hw⟩
  | some w =>
    obtain ⟨hmem, hkey⟩ := mem_of_getWriteSession hget
    have htemp := h.sessions.temp_eq hmem hkey
    have hmain : w.tempFilepath ≠ s.path f := htemp ▸ tempPath_ne_filePath s.id f u i
    have hidx : 0 ≤ i.toInt := by
      have hw := h.nonneg hmem
      rwa [show w.sentenceIdx = i from (Prod.mk.inj (Prod.mk.inj hkey).2).2] at hw
    simp only
    cases hqueue : enqueueCommit f ⟨u, i, w.originalSentenceCount, w.tempFilepath⟩ s.commitQueues with
    | none =>
      obtain ⟨disk, hremove, hframe⟩ := removeWriteSession_spec s f u i
      simp only [hremove]
      refine ⟨hidle, m, ?_, fun _ => rfl, fun w text _ _ => Or.inr ⟨by decide, rfl⟩⟩
      rw [hframe _ fun v hv hkey => ?_, hm]
      rw [h.sessions.temp_eq hv hkey]
      exact (tempPath_ne_filePath s.id f u i).symm
    | some queues =>
      have hpending := enqueueCommit_spec hqueue
      rw [show entriesOf f s.commitQueues = [] from hidle, List.nil_append] at hpending
      obtain ⟨hdone, m', hm', hnone, hsome⟩ := processCommitQueue_single (s := { s with
        commitQueues := queues
        writeSessions := s.writeSessions.eraseP (isSession f u i) }) hpending hread hwrite hm hmain
        (htemp ▸ tempPath_ne_undoPath s.id f u i) hidx
      refine ⟨hdone, m', hm', fun hno => hnone (hno w rfl), fun v text hv htext => Or.inl ⟨rfl, ?_⟩⟩
      obtain rfl := Option.some.inj hv
      exact hsome text htext

theorem lock (h : ServerInv s) (io : Io) (f : Filename) (u : Username) (i : Int32) :
    ServerInv (handleClientRequest io s (.lockSentence f u i)).1 := by
  obtain ⟨disk, tables, ws, hres, hok, hheld, -⟩ := h.lock_spec io f u i
  rw [hres]
  exact ⟨hok, hheld⟩

/-- **Every request keeps the invariant.** -/
theorem handle (h : ServerInv s) (io : Io) (r : Request) : ServerInv (handleClientRequest io s r).1 := by
  cases r with
  | read f => exact h
  | lockSentence f u i => exact h.lock io f u i
  | write f u i wordIdx data =>
    show ServerInv (writeFileSs io s f u i wordIdx data).1
    rcases writeFileSs_cases io s f u i wordIdx data with ⟨hsame, -⟩ | ⟨w, fc, k, -, -, hwrite⟩
    · rw [hsame]
      exact h
    · rw [hwrite]
      exact ⟨h.sessions, h.held⟩
  | unlockSentence f u i =>
    obtain ⟨disk, queues, hcommit⟩ := commitWriteSession_sessions io s f u i
    rw [handle_unlock, hcommit]
    exact h.leave disk queues f u i
  | cancelWrite f u i =>
    obtain ⟨disk, hremove, -⟩ := removeWriteSession_spec s f u i
    show ServerInv (unlockSentence (removeWriteSession s f u i) f i u).1
    rw [hremove]
    exact h.leave disk s.commitQueues f u i
  | undo f =>
    unfold handleClientRequest
    simp only
    split
    · exact ⟨h.sessions, h.held⟩
    · exact h

end ServerInv

/-- A request of anybody. -/
def ServerStep (s : StorageServer) (e : Io × Request) (t : StorageServer) : Prop :=
  t = (handleClientRequest e.1 s e.2).1

/-- **The invariant holds in every state** that a server without sessions comes to. -/
theorem ServerInv.of_run {s t : StorageServer} {es : List (Io × Request)} (hs : s.writeSessions = [])
    (h : Run ServerStep s es t) : ServerInv t :=
  h.state_invariant (ServerInv.of_nil hs) fun _ e _ hi hstep => by
    rw [hstep]
    exact hi.handle e.1 e.2

end NetworkFileShare
