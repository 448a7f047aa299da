import NetworkFileShare.StorageServer.Retry

/-!
# How the lock table fills (`ss.c`)

* `appendNew` : a list takes in what it does not hold yet;
* `lockIndices` : the indices that `init_file_locks` uses in its table; `lockIndices_eq`, `lockNames_init` : they go up
  to the entry of the file, or to a new one;
* `initCall` : the file that an operation calls it for; `lockNames_handle` : nothing else adds an entry;
* `lockAccesses`, `lockCalls` : the indices and the files of a whole run;
* `lock_table_iff` : when the indices stay inside the table.
-/

namespace NetworkFileShare

/-! ## Lists without repetitions -/

section
variable {α : Type*} [DecidableEq α]

/-- What is not in the list yet is appended. -/
def appendNew (names : List α) (a : α) : List α := if a ∈ names then names else names ++ [a]

variable {names : List α} {a : α}

theorem mem_appendNew {b : α} : b ∈ appendNew names a ↔ b ∈ names ∨ b = a := by
  unfold appendNew
  split
  · rename_i ha
    exact ⟨Or.inl, fun h => h.elim id fun he => he ▸ ha⟩
  · rw [List.mem_append, List.mem_singleton]

theorem nodup_appendNew (h : names.Nodup) : (appendNew names a).Nodup := by
  unfold appendNew
  split
  · exact h
  · rename_i ha
    exact List.nodup_append_comm.mp (List.nodup_cons.mpr ⟨ha, h⟩)

theorem prefix_appendNew : names <+: appendNew names a := by
  unfold appendNew
  split
  · exact List.prefix_rfl
  · exact List.prefix_append _ _

/-- The first place where the list holds `a`, or the one behind it, is inside the bound exactly when the longer list
fits. -/
theorem idxOf_lt_iff {n : Nat} (h : names.length ≤ n) : names.idxOf a < n ↔ (appendNew names a).length ≤ n := by
  unfold appendNew
  split
  · rename_i ha
    exact iff_of_true ((List.idxOf_lt_length_iff.mpr ha).trans_le h) h
  · rename_i ha
    rw [List.idxOf_eq_length_iff.mpr ha, List.length_append]
    exact Iff.rfl

end

/-! ## One call of `init_file_locks` -/

/-- The files of the table, in the order of its entries. -/
def StorageServer.lockNames (s : StorageServer) : List Filename := s.fileLocks.map (·.filename)

/-- The indices into `file_locks` that `init_file_locks` uses, from entry `i` on: the loop ends at the entry of the
file, and behind the last entry the new one is written. -/
def lockIndices (filename : Filename) : Nat → List FileLocks → List Nat
  | i, [] => [i]
  | i, e :: es => if e.filename = filename then [i] else i :: lockIndices filename (i + 1) es

theorem lockIndices_eq (f : Filename) (i : Nat) (tables : List FileLocks) :
    lockIndices f i tables = List.range' i ((tables.map (·.filename)).idxOf f + 1) := by
  induction tables generalizing i with
  | nil => rfl
  | cons e es ih =>
    rw [lockIndices, List.map_cons, List.idxOf_cons]
    by_cases he : e.filename = f
    · rw [if_pos he, he, beq_self_eq_true, cond_true]
      rfl
    · rw [if_neg he, beq_false_of_ne he, cond_false, ih]
      rfl

theorem forall_lockIndices {f : Filename} {tables : List FileLocks} {n : Nat} :
    (∀ i ∈ lockIndices f 0 tables, i < n) ↔ (tables.map (·.filename)).idxOf f < n := by
  rw [lockIndices_eq, ← List.range_eq_range']
  constructor
  · exact fun h => h _ (List.mem_range.mpr (Nat.lt_succ_self _))
  · intro h i hi
    have := List.mem_range.mp hi
    omega

theorem names_initFileLocks (f : Filename) (count : Nat) (tables : List FileLocks) :
    (initFileLocks f count tables).map (·.filename) = appendNew (tables.map (·.filename)) f := by
  unfold appendNew
  induction tables with
  | nil => rfl
  | cons e es ih =>
    rw [initFileLocks]
    by_cases he : e.filename = f
    · rw [if_pos he, if_pos (by rw [List.map_cons, he]; exact List.mem_cons_self)]
      rfl
    · have hmem : f ∈ (e :: es).map (·.filename) ↔ f ∈ es.map (·.filename) := by
        rw [List.map_cons, List.mem_cons, or_iff_right fun h => he h.symm]
      rw [if_neg he, List.map_cons, ih]
      simp only [hmem]
      split <;> rfl

theorem names_setSentenceLock (f : Filename) (i : Int32) (lock : SentenceLock) (tables : List FileLocks) :
    (setSentenceLock f i lock tables).map (·.filename) = tables.map (·.filename) := by
  induction tables with
  | nil => rfl
  | cons e es ih =>
    rw [setSentenceLock]
    split
    · rfl
    · rw [List.map_cons, ih, List.map_cons]

/-! ## One operation -/

/-- The file that an operation calls `init_file_locks` for. -/
def initCall (io : FsIo) (s : StorageServer) : Operation → Option Filename
  | .client (.lockSentence filename _ sentIdx) =>
    if lockIndexInvalid (parseFile io.toIo s.disk (s.path filename)) sentIdx.toInt then none else some filename
  | .command (.create filename) => if (createFileSs io s filename).2 = SUCCESS then some filename else none
  | _ => none

variable {io : FsIo} {s t : StorageServer}

theorem lockNames_congr (h : t.fileLocks = s.fileLocks) : t.lockNames = s.lockNames := by
  rw [StorageServer.lockNames, h]
  rfl

theorem lockNames_unlockSentence (s : StorageServer) (f : Filename) (i : Int32) (u : Username) :
    (unlockSentence s f i u).1.lockNames = s.lockNames := by
  unfold unlockSentence
  split
  · rfl
  · split
    · rfl
    · exact names_setSentenceLock f i .free s.fileLocks

theorem lockNames_lockSentence (io : Io) (s : StorageServer) (f : Filename) (i : Int32) (u : Username) :
    (lockSentence io s f i u).1.lockNames = appendNew s.lockNames f := by
  have hinit := names_initFileLocks f (i.toInt + 1).toNat s.fileLocks
  unfold lockSentence
  dsimp only
  split
  · exact hinit
  · split
    · exact hinit
    · exact (names_setSentenceLock _ _ _ _).trans hinit

theorem lockNames_lock (io : Io) (s : StorageServer) (f : Filename) (u : Username) (i : Int32)
    (h : lockIndexInvalid (parseFile io s.disk (s.path f)) i.toInt = false) :
    (handleClientRequest io s (.lockSentence f u i)).1.lockNames = appendNew s.lockNames f := by
  have hlock := lockNames_lockSentence io s f i u
  have hstart : (startWriteSession io (lockSentence io s f i u).1 f u i).1.lockNames =
      (lockSentence io s f i u).1.lockNames := lockNames_congr fileLocks_startWriteSession
  unfold handleClientRequest
  simp only [h, Bool.false_eq_true, if_false]
  split
  · split
    · rw [lockNames_unlockSentence, hstart, hlock]
    · rw [hstart, hlock]
  · exact hlock

theorem lockNames_createFileSs (io : FsIo) (s : StorageServer) (f : Filename) :
    (createFileSs io s f).1.lockNames =
      if (createFileSs io s f).2 = SUCCESS then appendNew s.lockNames f else s.lockNames := by
  unfold createFileSs
  split
  · rfl
  · split
    · rfl
    · exact names_initFileLocks f 1 s.fileLocks

/-- Sessions, copies and queues have no part in the table. -/
theorem lockNames_of_withLocks {g : StorageServer → StorageServer} (h : ∀ T, g (s.withLocks T) = (g s).withLocks T) :
    (g s).lockNames = s.lockNames := by
  have hs := h s.fileLocks
  rw [withLocks_self] at hs
  rw [StorageServer.lockNames, hs]
  rfl

/-- **An operation adds the file it calls `init_file_locks` for**, and no other. -/
theorem lockNames_handle (io : FsIo) (s : StorageServer) (op : Operation) :
    (op.handle io s).1.lockNames = (initCall io s op).elim s.lockNames (appendNew s.lockNames) := by
  cases op with
  | client r =>
    show (handleClientRequest io.toIo s r).1.lockNames = _
    cases r with
    | read f => rfl
    | lockSentence f u i =>
      rw [initCall]
      split
      · rename_i hinvalid
        rw [lock_invalid hinvalid]
        rfl
      · rename_i hvalid
        exact lockNames_lock io.toIo s f u i (Bool.not_eq_true _ ▸ hvalid)
    | write f u i w data =>
      exact lockNames_of_withLocks (g := fun s => (writeFileSs io.toIo s f u i w data).1)
        fun T => congrArg Prod.fst (writeFileSs_withLocks io.toIo s T f u i w data)
    | unlockSentence f u i =>
      rw [handle_unlock, lockNames_unlockSentence]
      exact lockNames_of_withLocks (g := fun s => (commitWriteSession io.toIo s f u i).1)
        fun T => congrArg Prod.fst (commitWriteSession_withLocks io.toIo s T f u i)
    | cancelWrite f u i =>
      refine (lockNames_unlockSentence _ f i u).trans ?_
      exact lockNames_of_withLocks (g := fun s => removeWriteSession s f u i)
        fun T => removeWriteSession_withLocks s T f u i
    | undo f => exact lockNames_congr (fileLocks_undo io.toIo s f)
  | command c =>
    show (handleNmCommand io s c).1.lockNames = _
    have hfiles (h : c.OnFiles) : (handleNmCommand io s c).1.lockNames = s.lockNames :=
      lockNames_congr (fileLocks_command s io h)
    cases c with
    | create f =>
      refine (lockNames_createFileSs io s f).trans ?_
      rw [initCall]
      split <;> rfl
    | checkLocks f => rfl
    | checkpoint f tag | viewCheckpoint f tag | revert f tag | move f old new | delete f | readContent f =>
      exact hfiles trivial

/-! ## Runs -/

/-- The files that the operations call `init_file_locks` for. -/
def lockCalls : StorageServer → List (FsIo × Operation) → List Filename
  | _, [] => []
  | s, (io, op) :: es => (initCall io s op).toList ++ lockCalls (op.handle io s).1 es

/-- The indices into `file_locks` that these calls use. -/
def lockAccesses : StorageServer → List (FsIo × Operation) → List Nat
  | _, [] => []
  | s, (io, op) :: es =>
    (initCall io s op).elim [] (lockIndices · 0 s.fileLocks) ++ lockAccesses (op.handle io s).1 es

theorem prefix_lockNames_handle (io : FsIo) (s : StorageServer) (op : Operation) :
    s.lockNames <+: (op.handle io s).1.lockNames := by
  rw [lockNames_handle]
  cases initCall io s op with
  | none => exact List.prefix_rfl
  | some f => exact prefix_appendNew

theorem prefix_lockNames (s : StorageServer) (es : List (FsIo × Operation)) :
    s.lockNames <+: (handleAll s es).1.lockNames := by
  induction es generalizing s with
  | nil => exact List.prefix_rfl
  | cons e es ih => exact (prefix_lockNames_handle e.1 s e.2).trans (ih _)

theorem nodup_lockNames {es : List (FsIo × Operation)} (h : s.lockNames.Nodup) :
    (handleAll s es).1.lockNames.Nodup := by
  induction es generalizing s with
  | nil => exact h
  | cons e es ih =>
    refine ih (s := (e.2.handle e.1 s).1) ?_
    rw [lockNames_handle]
    cases initCall e.1 s e.2 with
    | none => exact h
    | some f => exact nodup_appendNew h

theorem mem_lockNames {es : List (FsIo × Operation)} {f : Filename} :
    f ∈ (handleAll s es).1.lockNames ↔ f ∈ s.lockNames ∨ f ∈ lockCalls s es := by
  induction es generalizing s with
  | nil => exact (or_iff_left List.not_mem_nil).symm
  | cons e es ih =>
    refine (ih (s := (e.2.handle e.1 s).1)).trans ?_
    rw [lockNames_handle, lockCalls, List.mem_append, ← or_assoc]
    cases initCall e.1 s e.2 with
    | none => simp
    | some g => simp [mem_appendNew]

/-- As long as the table fits, the indices of a run stay inside it exactly when it still fits afterwards. -/
theorem accesses_lt_iff {n : Nat} {es : List (FsIo × Operation)} (h : s.lockNames.length ≤ n) :
    (∀ i ∈ lockAccesses s es, i < n) ↔ (handleAll s es).1.lockNames.length ≤ n := by
  induction es generalizing s with
  | nil => exact iff_of_true (fun i hi => absurd hi List.not_mem_nil) h
  | cons e es ih =>
    obtain ⟨io, op⟩ := e
    show _ ↔ (handleAll (op.handle io s).1 es).1.lockNames.length ≤ n
    rw [lockAccesses, List.forall_mem_append]
    have hnext := lockNames_handle io s op
    cases hcall : initCall io s op with
    | none =>
      rw [hcall] at hnext
      have hfits : (op.handle io s).1.lockNames.length ≤ n := by rw [hnext]; exact h
      exact (and_iff_right fun i hi => absurd hi List.not_mem_nil).trans (ih hfits)
    | some f =>
      rw [hcall] at hnext
      have hstep : (∀ i ∈ lockIndices f 0 s.fileLocks, i < n) ↔ (op.handle io s).1.lockNames.length ≤ n := by
        rw [forall_lockIndices, hnext]
        exact idxOf_lt_iff h
      refine (and_congr_left fun _ => hstep).trans ⟨fun hboth => (ih hboth.1).mp hboth.2, fun hlast => ?_⟩
      -- the table only grows
      have hfits := (prefix_lockNames (op.handle io s).1 es).length_le.trans hlast
      exact ⟨hfits, (ih hfits).mpr hlast⟩

theorem lockNames_fresh (id : Int32) (disk : Disk) : (freshServer id disk).lockNames = [] := rfl

theorem nodup_lockNames_fresh (id : Int32) (disk : Disk) (es : List (FsIo × Operation)) :
    (handleAll (freshServer id disk) es).1.lockNames.Nodup :=
  nodup_lockNames (by rw [lockNames_fresh]; exact List.nodup_nil)

/-- After a run of a new server, the table has an entry for each file that a call was made for. -/
theorem length_lockNames (id : Int32) (disk : Disk) (es : List (FsIo × Operation)) :
    (handleAll (freshServer id disk) es).1.lockNames.length = (lockCalls (freshServer id disk) es).dedup.length := by
  have hsame (f : Filename) :
      f ∈ (handleAll (freshServer id disk) es).1.lockNames ↔ f ∈ (lockCalls (freshServer id disk) es).dedup := by
    rw [mem_lockNames, List.mem_dedup, lockNames_fresh, or_iff_right List.not_mem_nil]
  exact ((List.perm_ext_iff_of_nodup (nodup_lockNames_fresh id disk es) (List.nodup_dedup _)).mpr hsame).length_eq

/-- **When the lock table does not overflow**: no file ever has two entries, and all indices are in bounds exactly when
the operations have called `init_file_locks` for at most `MAX_FILES` different names. -/
theorem lock_table_iff (id : Int32) (disk : Disk) (es : List (FsIo × Operation)) :
    (handleAll (freshServer id disk) es).1.lockNames.Nodup ∧
      ((∀ i ∈ lockAccesses (freshServer id disk) es, i < MAX_FILES) ↔
        (lockCalls (freshServer id disk) es).dedup.length ≤ MAX_FILES) := by
  refine ⟨nodup_lockNames_fresh id disk es, ?_⟩
  rw [← length_lockNames]
  exact accesses_lt_iff (Nat.zero_le _)

/-! ## Too many names -/

/-- The file with the number `k`. -/
def fileNumber (k : Nat) : Filename := .strncpy (MAX_FILENAME - 1) (printNat k)

theorem fileNumber_injective {j k : Nat} (hj : j < 10 ^ 10) (hk : k < 10 ^ 10) (h : fileNumber j = fileNumber k) :
    j = k := by
  have hname {n : Nat} (hn : n < 10 ^ 10) : (fileNumber n).str = printNat n :=
    List.take_of_length_le ((length_printNat_le (by decide) hn).trans (by decide))
  have hprint : printNat j = printNat k := by rw [← hname hj, ← hname hk, h]
  rw [← readDigits_printNat j, hprint, readDigits_printNat]

/-- Alice locks the first sentence of each file. -/
def locksAll (names : List Filename) : List (FsIo × Operation) := asked (names.map fun f => .lockSentence f alice 0)

theorem lockCalls_locksAll (s : StorageServer) (names : List Filename) : lockCalls s (locksAll names) = names := by
  induction names generalizing s with
  | nil => rfl
  | cons f names ih =>
    have hcall : initCall .allOpens s (.client (.lockSentence f alice 0)) = some f :=
      if_neg (by rw [show (0 : Int32).toInt = 0 from rfl, lockIndexInvalid_zero]; decide)
    show (initCall .allOpens s (.client (.lockSentence f alice 0))).toList ++ lockCalls _ (locksAll names) = _
    rw [hcall, ih]
    rfl

/-- **Locks on the first sentences of `MAX_FILES + 1` files** go beyond the table. -/
theorem lock_table_overflows : ∃ es : List (FsIo × Operation),
    (∀ e ∈ es, ∃ f, e.2 = .client (.lockSentence f alice 0)) ∧
      ¬ ∀ i ∈ lockAccesses emptyServer es, i < MAX_FILES := by
  refine ⟨locksAll ((List.range (MAX_FILES + 1)).map fileNumber), fun e he => ?_, fun hbelow => ?_⟩
  · obtain ⟨r, hr, rfl⟩ := List.mem_map.mp he
    obtain ⟨f, -, rfl⟩ := List.mem_map.mp hr
    exact ⟨f, rfl⟩
  · have hfits := (accesses_lt_iff (Nat.zero_le _)).mp hbelow
    have hnodup : ((List.range (MAX_FILES + 1)).map fileNumber).Nodup := by
      refine List.Nodup.map_on (fun j hj k hk h => ?_) List.nodup_range
      rw [List.mem_range] at hj hk
      exact fileNumber_injective (hj.trans (by decide)) (hk.trans (by decide)) h
    rw [emptyServer, length_lockNames, lockCalls_locksAll, hnodup.dedup, List.length_map, List.length_range] at hfits
    omega

end NetworkFileShare
