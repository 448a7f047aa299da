import NetworkFileShare.Lib.Run
import NetworkFileShare.Lib.LinkedQueue
import NetworkFileShare.StorageServer.Disjoint

/-!
# The commit queue of a file (`ss.c`: `enqueue_commit`, `process_commit_queue`, `commit_write_session_ss`)

* `CommitPhase` : where a thread is in `commit_write_session_ss`; `CommitPool` : the threads that commit to one file,
  and its queue;
* `QueueStep` : a thread enqueues its commit, takes the mutex of the queue, goes round the loop once, or returns;
* `entered`, `taken` : the entries put into the queue and taken from it, in the order of the run;
* `queue_in_order` : they are taken in the order they were put in, each once, and when `process_commit_queue` returns
  to a thread its own entry has been taken;
* `processEntries_of_rounds` : the rounds of a thread are those of `processEntries`.
-/

namespace NetworkFileShare

/-- Where a thread is: not in a commit, between the two sections, in the loop, or behind `process_commit_queue`. -/
inductive CommitPhase where
  | idle
  | enqueued
  | processing
  | returned
  deriving DecidableEq

/-- The files, the queue with the thread that holds its mutex, and the threads. -/
structure CommitPool where
  disk : Disk
  queue : LinkedQueue CommitQueueEntry
  holder : Option Nat
  phase : Nat → CommitPhase

/-- What a thread does. `malloc` supplies the address of a new entry. -/
inductive CommitAction where
  | enqueue (i : Nat) (address : Nat) (entry : CommitQueueEntry)
  | enter (i : Nat) (io : Io)
  | take (i : Nat) (io : Io) (entry : CommitQueueEntry)
  | fail (i : Nat) (io : Io)
  | returns (i : Nat)
  | unlock (i : Nat)

/-- No thread commits yet. -/
def CommitPool.start (disk : Disk) : CommitPool := ⟨disk, .empty, none, fun _ => .idle⟩

/-- One step of a thread, on the file at `path`. -/
inductive QueueStep (path : Path) (s : CommitPool) : CommitAction → CommitPool → Prop where
  /-- `enqueue_commit`: the new entry goes behind the tail. -/
  | enqueue {i address : Nat} (entry : CommitQueueEntry) (here : s.phase i = .idle) (free : s.holder = none)
      (fresh : s.queue.nodes address = none) :
      QueueStep path s (.enqueue i address entry) { s with
        queue := s.queue.enqueue address entry
        phase := Function.update s.phase i .enqueued }
  /-- `process_commit_queue` up to the loop: the mutex, and a backup if there is something to do. -/
  | enter {i : Nat} (io : Io) (here : s.phase i = .enqueued) (free : s.holder = none) :
      QueueStep path s (.enter i io) { s with
        disk := if s.queue.head = none then s.disk else createUndoBackup io s.disk path (undoPath path)
        holder := some i
        phase := Function.update s.phase i .processing }
  /-- One round: the entry at the head is merged or skipped, unlinked and freed. -/
  | take {i : Nat} {io : Io} {entry : CommitQueueEntry} {queue : LinkedQueue CommitQueueEntry} {disk : Disk}
      (here : s.phase i = .processing) (head : s.queue.dequeue = some (entry, queue))
      (done : commitEntry io path s.disk entry = some disk) :
      QueueStep path s (.take i io entry) { s with disk := disk, queue := queue }
  /-- The merged file cannot be written: the entry stays, and the function returns. -/
  | fail {i : Nat} {io : Io} {entry : CommitQueueEntry} {queue : LinkedQueue CommitQueueEntry}
      (here : s.phase i = .processing) (head : s.queue.dequeue = some (entry, queue))
      (failed : commitEntry io path s.disk entry = none) :
      QueueStep path s (.fail i io) { s with holder := none, phase := Function.update s.phase i .returned }
  /-- The queue is empty: the mutex is released, and the function returns. -/
  | returns {i : Nat} (here : s.phase i = .processing) (empty : s.queue.head = none) :
      QueueStep path s (.returns i) { s with holder := none, phase := Function.update s.phase i .returned }
  /-- The thread goes on to `unlock_sentence_ss`. -/
  | unlock {i : Nat} (here : s.phase i = .returned) :
      QueueStep path s (.unlock i) { s with phase := Function.update s.phase i .idle }

/-- The main file can be written. -/
def Writable (path : Path) (_ : CommitPool) : CommitAction → Prop
  | .take _ io _ | .fail _ io => io.canWrite path = true
  | _ => True

/-- The entries that were put into the queue, in order. -/
def entered (es : List CommitAction) : List CommitQueueEntry :=
  es.filterMap fun
    | .enqueue _ _ entry => some entry
    | _ => none

/-- The entries that were taken from the queue, in order. -/
def taken (es : List CommitAction) : List CommitQueueEntry :=
  es.filterMap fun
    | .take _ _ entry => some entry
    | _ => none

@[simp] theorem entered_append (es es' : List CommitAction) : entered (es ++ es') = entered es ++ entered es' :=
  List.filterMap_append

@[simp] theorem taken_append (es es' : List CommitAction) : taken (es ++ es') = taken es ++ taken es' :=
  List.filterMap_append

/-- An entry is merged or skipped when the file can be written. -/
theorem commitEntry_writable {io : Io} {path : Path} (hw : io.canWrite path = true) (disk : Disk)
    (entry : CommitQueueEntry) : ∃ disk', commitEntry io path disk entry = some disk' := by
  unfold commitEntry
  simp only
  split
  · exact ⟨_, rfl⟩
  · split
    · exact ⟨_, rfl⟩
    · simp only [writeFile, hw, if_true]
      exact ⟨_, rfl⟩

/-! ## First in, first out -/

/-- After the steps `es`: what was put in is what was taken and what is in the queue, and a thread that is not in the
middle of a commit has had all its entries taken. -/
structure QueueInv (es : List CommitAction) (s : CommitPool) : Prop where
  order : ∃ waiting, s.queue.Represents waiting ∧ entered es = taken es ++ waiting.map Prod.snd
  settled : ∀ i, s.phase i = .idle ∨ s.phase i = .returned → ∀ es₁ address entry es₂,
    es = es₁ ++ .enqueue i address entry :: es₂ → (taken es)[(entered es₁).length]? = some entry

/-- What was taken stays taken. -/
theorem getElem?_taken_snoc {es : List CommitAction} {k : Nat} {entry : CommitQueueEntry}
    (h : (taken es)[k]? = some entry) (e : CommitAction) : (taken (es ++ [e]))[k]? = some entry := by
  rw [taken_append, List.getElem?_append_left (List.getElem?_eq_some_iff.mp h).1]
  exact h

theorem QueueInv.start (disk : Disk) : QueueInv [] (.start disk) :=
  ⟨⟨[], LinkedQueue.represents_empty, rfl⟩, fun _ _ es₁ _ _ es₂ h => by simp at h⟩

/-- A step settles a thread that comes out of the middle of a commit when all entries have been taken. -/
theorem QueueInv.settled_snoc {es : List CommitAction} {s t : CommitPool} (h : QueueInv es s) {e : CommitAction}
    (hnew : ∀ i address entry, e = .enqueue i address entry → t.phase i = .enqueued)
    (hphase : ∀ i, t.phase i = .idle ∨ t.phase i = .returned →
      (s.phase i = .idle ∨ s.phase i = .returned) ∨ taken es = entered es) :
    ∀ i, t.phase i = .idle ∨ t.phase i = .returned → ∀ es₁ address entry es₂,
      es ++ [e] = es₁ ++ .enqueue i address entry :: es₂ →
        (taken (es ++ [e]))[(entered es₁).length]? = some entry := by
  intro i hi es₁ address entry es₂ hsplit
  rcases List.eq_nil_or_concat es₂ with rfl | ⟨es₂, e', rfl⟩
  · obtain ⟨-, he⟩ := List.append_inj' hsplit rfl
    rw [hnew i address entry (List.singleton_inj.mp he)] at hi
    rcases hi with hi | hi <;> cases hi
  · rw [List.concat_eq_append, ← List.cons_append, ← List.append_assoc] at hsplit
    obtain ⟨hes, -⟩ := List.append_inj' hsplit rfl
    refine getElem?_taken_snoc ?_ e
    rcases hphase i hi with hbefore | hall
    · exact h.settled i hbefore es₁ address entry es₂ hes
    · rw [hall, hes, entered_append, List.getElem?_append_right (le_refl _), Nat.sub_self]
      rfl

/-- A thread that moves on, seen from all threads. -/
theorem phase_update {phase : Nat → CommitPhase} {i : Nat} {new : CommitPhase} {j : Nat}
    (hj : Function.update phase i new j = .idle ∨ Function.update phase i new j = .returned)
    (hnew : new = .idle ∨ new = .returned → phase i = .idle ∨ phase i = .returned) :
    phase j = .idle ∨ phase j = .returned := by
  by_cases hij : j = i
  · subst hij
    rw [Function.update_self] at hj
    exact hnew hj
  · rwa [Function.update_of_ne hij] at hj

/-- **Every step keeps the order**, as long as the main file can be written. -/
theorem QueueInv.step {path : Path} {es : List CommitAction} {s t : CommitPool} {e : CommitAction}
    (h : QueueInv es s) (hguard : Writable path s e) (hstep : QueueStep path s e t) : QueueInv (es ++ [e]) t := by
  obtain ⟨waiting, hqueue, horder⟩ := h.order
  cases hstep with
  | @enqueue i address entry here free fresh =>
    refine ⟨⟨waiting ++ [(address, entry)], hqueue.enqueue fresh entry, ?_⟩, ?_⟩
    · rw [entered_append, taken_append, horder]
      simp [entered, taken]
    · refine h.settled_snoc ?_ fun j hj => Or.inl (phase_update hj ?_)
      · intro j address' entry' he
        obtain ⟨rfl, -, -⟩ := CommitAction.enqueue.inj he
        exact Function.update_self ..
      · rintro (hnew | hnew) <;> cases hnew
  | @enter i io here free =>
    refine ⟨⟨waiting, hqueue, ?_⟩, h.settled_snoc nofun fun j hj => Or.inl (phase_update hj ?_)⟩
    · rw [entered_append, taken_append, horder]
      simp [entered, taken]
    · rintro (hnew | hnew) <;> cases hnew
  | @take i io entry queue disk here head done =>
    obtain ⟨address, rest, rfl, hrest⟩ := hqueue.dequeue_cases head
    refine ⟨⟨rest, hrest, ?_⟩, h.settled_snoc nofun fun j hj => Or.inl hj⟩
    rw [entered_append, taken_append, horder]
    simp [entered, taken]
  | @fail i io entry queue here head failed =>
    obtain ⟨disk, hdone⟩ := commitEntry_writable hguard s.disk entry
    rw [failed] at hdone
    cases hdone
  | @returns i here empty =>
    obtain rfl := hqueue.head_eq_none.mp empty
    rw [List.map_nil, List.append_nil] at horder
    refine ⟨⟨[], hqueue, ?_⟩, h.settled_snoc nofun fun j _ => Or.inr horder.symm⟩
    rw [entered_append, taken_append, horder]
    simp [entered, taken]
  | @unlock i here =>
    refine ⟨⟨waiting, hqueue, ?_⟩, h.settled_snoc nofun fun j hj => Or.inl (phase_update hj fun _ => Or.inr here)⟩
    rw [entered_append, taken_append, horder]
    simp [entered, taken]

theorem QueueInv.of_run {path : Path} {disk : Disk} {es : List CommitAction} {s : CommitPool}
    (h : Run (Guarded (Writable path) (QueueStep path)) (.start disk) es s) : QueueInv es s :=
  h.invariant (.start disk) fun _ _ _ _ hinv hstep => hinv.step hstep.1 hstep.2

/-- **Entries are taken in the order they were put in, each once**; and when `process_commit_queue` has returned to a
thread, and when the thread goes on to unlock, the entry it put in has been taken. -/
theorem queue_in_order {path : Path} {disk : Disk} {es : List CommitAction} {s : CommitPool}
    (h : Run (Guarded (Writable path) (QueueStep path)) (.start disk) es s) :
    (∃ waiting, s.queue.Represents waiting ∧ entered es = taken es ++ waiting.map Prod.snd) ∧
      ∀ i es₁ address entry es₂ e es₃, es = es₁ ++ .enqueue i address entry :: (es₂ ++ e :: es₃) →
        e = .returns i ∨ e = .unlock i →
          (taken (es₁ ++ .enqueue i address entry :: es₂))[(entered es₁).length]? = some entry := by
  refine ⟨(QueueInv.of_run h).order, ?_⟩
  rintro i es₁ address entry es₂ e es₃ rfl he
  have hsplit : es₁ ++ CommitAction.enqueue i address entry :: (es₂ ++ e :: es₃) =
      es₁ ++ .enqueue i address entry :: es₂ ++ e :: es₃ := by simp
  rw [hsplit] at h
  obtain ⟨m, t, hbefore, ⟨-, hstep⟩, -⟩ := h.split_at
  have hinv := QueueInv.of_run hbefore
  rcases he with rfl | rfl
  · cases hstep with
    | returns here empty =>
      -- the queue is empty: what was put in has been taken
      obtain ⟨waiting, hqueue, horder⟩ := hinv.order
      obtain rfl := hqueue.head_eq_none.mp empty
      rw [List.map_nil, List.append_nil] at horder
      rw [← horder, entered_append, List.getElem?_append_right (le_refl _), Nat.sub_self]
      rfl
  · cases hstep with
    | unlock here => exact hinv.settled i (Or.inr here) es₁ address entry es₂ rfl

/-- The commit of a user who edits sentence 0 of an empty file. -/
def sampleEntry (username : Username) : CommitQueueEntry := ⟨username, 0, 0, tempPath 1 notes username 0⟩

/-- Both have put in their commits when bob takes them; alice finds the queue empty. -/
def sampleSchedule : List CommitAction :=
  [.enqueue 0 7 (sampleEntry alice), .enqueue 1 8 (sampleEntry bob), .enter 1 .allOpens,
    .take 1 .allOpens (sampleEntry alice), .take 1 .allOpens (sampleEntry bob), .returns 1, .enter 0 .allOpens,
    .returns 0, .unlock 0]

theorem queue_in_order_sample : ∃ s : CommitPool, entered sampleSchedule = [sampleEntry alice, sampleEntry bob] ∧
    (∃ waiting, s.queue.Represents waiting ∧
      entered sampleSchedule = taken sampleSchedule ++ waiting.map Prod.snd) ∧
    ∀ i es₁ address entry es₂ e es₃, sampleSchedule = es₁ ++ .enqueue i address entry :: (es₂ ++ e :: es₃) →
      e = .returns i ∨ e = .unlock i →
        (taken (es₁ ++ .enqueue i address entry :: es₂))[(entered es₁).length]? = some entry := by
  have hwritable (path : Path) : Io.allOpens.canWrite path = true := rfl
  obtain ⟨first, hfirst⟩ := commitEntry_writable (hwritable (filePath 1 notes))
    (createUndoBackup .allOpens (fun _ => none) (filePath 1 notes) (undoPath (filePath 1 notes))) (sampleEntry alice)
  obtain ⟨second, hsecond⟩ := commitEntry_writable (hwritable (filePath 1 notes)) first (sampleEntry bob)
  have hrun : ∃ s, Run (Guarded (Writable (filePath 1 notes)) (QueueStep (filePath 1 notes))) (.start fun _ => none)
      sampleSchedule s :=
    ⟨_, .cons ⟨trivial, .enqueue _ rfl rfl rfl⟩ <| .cons ⟨trivial, .enqueue _ rfl rfl rfl⟩ <|
      .cons ⟨trivial, .enter _ rfl rfl⟩ <| .cons ⟨rfl, .take rfl rfl hfirst⟩ <| .cons ⟨rfl, .take rfl rfl hsecond⟩ <|
      .cons ⟨trivial, .returns rfl rfl⟩ <| .cons ⟨trivial, .enter _ rfl rfl⟩ <|
      .cons ⟨trivial, .returns rfl rfl⟩ <| .single ⟨trivial, .unlock rfl⟩⟩
  obtain ⟨s, hrun⟩ := hrun
  exact ⟨s, rfl, queue_in_order hrun⟩

/-! ## The rounds of a thread -/

/-- A round is one of `processEntries`. -/
theorem processEntries_round {path : Path} {s t : CommitPool} {i : Nat} {io : Io} {entry : CommitQueueEntry}
    {waiting : List (Nat × CommitQueueEntry)} (hqueue : s.queue.Represents waiting)
    (h : QueueStep path s (.take i io entry) t) : ∃ rest, t.queue.Represents rest ∧
      processEntries io path (waiting.map Prod.snd) s.disk = processEntries io path (rest.map Prod.snd) t.disk := by
  cases h with
  | take here head done =>
    obtain ⟨address, rest, rfl, hrest⟩ := hqueue.dequeue_cases head
    refine ⟨rest, hrest, ?_⟩
    rw [List.map_cons, processEntries, done]

/-- **A thread that goes round the loop until the queue is empty** does to the files what `processEntries` does with
the entries that wait. -/
theorem processEntries_of_rounds {path : Path} {s t : CommitPool} {i : Nat} {io : Io} {es : List CommitAction}
    {waiting : List (Nat × CommitQueueEntry)} (hqueue : s.queue.Represents waiting) (h : Run (QueueStep path) s es t)
    (hrounds : ∀ e ∈ es, ∃ entry, e = .take i io entry) (hempty : t.queue.head = none) :
    processEntries io path (waiting.map Prod.snd) s.disk = (t.disk, []) := by
  suffices hinv : ∃ rest, t.queue.Represents rest ∧
      processEntries io path (waiting.map Prod.snd) s.disk = processEntries io path (rest.map Prod.snd) t.disk by
    obtain ⟨rest, hrest, heq⟩ := hinv
    obtain rfl := hrest.head_eq_none.mp hempty
    exact heq
  clear hempty
  induction h with
  | nil => exact ⟨waiting, hqueue, rfl⟩
  | snoc _ last ih =>
    obtain ⟨rest, hrest, heq⟩ := ih fun e he => hrounds e (List.mem_append_left _ he)
    obtain ⟨entry, rfl⟩ := hrounds _ (List.mem_append_right _ (List.mem_singleton_self _))
    obtain ⟨rest', hrest', heq'⟩ := processEntries_round hrest last
    exact ⟨rest', hrest', heq.trans heq'⟩

end NetworkFileShare
