import NetworkFileShare.StorageServer.Locks

/-!
# Sessions on the sentences of a file (`ss.c`: locks by index, commits that move sentences)

* `Tracked` : the server with the sentence of the main file each session is on; `follow` : one request, where a
  commit that changes the number of sentences moves the sentences behind the one it replaces;
* `EditStep` : the requests that edit one file; `Exclusive` : no sentence has sessions of two users;
* `exclusive_of_run` : it holds in every state of every run in which a commit that changes the number of sentences
  finds no other user on a later sentence.
-/

namespace NetworkFileShare

/-- The server, and the sentence of the main file that each session of the file is on. -/
structure Tracked where
  server : StorageServer
  place : Username → Int32 → Int

/-- The number of sentences of the file. -/
def mainCount (s : StorageServer) (f : Filename) : Nat :=
  ((s.disk (s.path f)).map fun text => (parseContent text).sentenceCount).getD 0

/-- The sentence of the main file that a commit of the session replaces. -/
def replacedIdx (s : StorageServer) (f : Filename) (w : WriteSession) : Int :=
  w.sentenceIdx.toInt + ((mainCount s f : Int) - w.originalSentenceCount)

/-- The places after a request: a session starts on the sentence it locks, and is moved by the commits of
the other users. -/
def followPlaces (f : Filename) (t : Tracked) (s' : StorageServer) (status : Int32) :
    Request → Username → Int32 → Int
  | .lockSentence _ u i, v, j =>
    if status = SUCCESS ∧ v = u ∧ j = i then i.toInt else t.place v j
  | .unlockSentence _ u i, v, j =>
    match getWriteSession t.server f u i with
    | none => t.place v j
    | some w =>
      if v ≠ u ∧ replacedIdx t.server f w < t.place v j then
        t.place v j + ((mainCount s' f : Int) - mainCount t.server f)
      else t.place v j
  | _, v, j => t.place v j

/-- One request. -/
def Tracked.follow (f : Filename) (t : Tracked) (io : Io) (r : Request) : Tracked :=
  match handleClientRequest io t.server r with
  | (s', status) => ⟨s', followPlaces f t s' status r⟩

theorem follow_eq (f : Filename) (t : Tracked) (io : Io) (r : Request) :
    t.follow f io r = ⟨(handleClientRequest io t.server r).1,
      followPlaces f t (handleClientRequest io t.server r).1 (handleClientRequest io t.server r).2 r⟩ := rfl

/-- The requests that edit the file `f`. -/
def Edits (f : Filename) : Request → Prop
  | .lockSentence g _ _ | .write g _ _ _ _ | .unlockSentence g _ _ | .cancelWrite g _ _ => g = f
  | .read _ | .undo _ => False

/-- A request that edits the file, handled by a server that can open it. -/
def EditStep (f : Filename) (t : Tracked) (e : Io × Request) (t' : Tracked) : Prop :=
  Edits f e.2 ∧ e.1.canRead (t.server.path f) = true ∧ e.1.canWrite (t.server.path f) = true ∧
    t' = t.follow f e.1 e.2

/-- **Sentence-level exclusion**: sessions of different users are on different sentences. -/
def Exclusive (f : Filename) (t : Tracked) : Prop :=
  ∀ w ∈ t.server.writeSessions, ∀ w' ∈ t.server.writeSessions, w.filename = f → w'.filename = f →
    w.username ≠ w'.username → t.place w.username w.sentenceIdx ≠ t.place w'.username w'.sentenceIdx

/-- A commit of a copy with another number of sentences finds no other user on a later sentence than the one it
replaces. -/
def MovesNobody (f : Filename) (t : Tracked) (e : Io × Request) : Prop :=
  match e.2 with
  | .unlockSentence _ u i => ∀ w ∈ getWriteSession t.server f u i,
      ∀ text ∈ readFile e.1 t.server.disk w.tempFilepath,
      (parseContent text).sentenceCount ≠ w.originalSentenceCount →
      ∀ v ∈ t.server.writeSessions, v.username ≠ u →
        t.place v.username v.sentenceIdx ≤ replacedIdx t.server f w
  | _ => True

instance (f : Filename) (t : Tracked) : ∀ e, Decidable (MovesNobody f t e)
  | (io, .unlockSentence _ u i) => inferInstanceAs (Decidable (∀ w ∈ getWriteSession t.server f u i,
      ∀ text ∈ readFile io t.server.disk w.tempFilepath,
      (parseContent text).sentenceCount ≠ w.originalSentenceCount →
      ∀ v ∈ t.server.writeSessions, v.username ≠ u →
        t.place v.username v.sentenceIdx ≤ replacedIdx t.server f w))
  | (_, .read _) | (_, .lockSentence ..) | (_, .write ..) | (_, .cancelWrite ..) | (_, .undo _) =>
    isTrue trivial

/-- Every session is on the sentence of its index. -/
structure ExclusionInv (f : Filename) (t : Tracked) : Prop where
  server : ServerInv t.server
  idle : t.server.pendingOf f = []
  exists_main : ∃ m, t.server.disk (t.server.path f) = some m
  places : ∀ w ∈ t.server.writeSessions, t.place w.username w.sentenceIdx = w.sentenceIdx.toInt

namespace ExclusionInv
variable {f : Filename} {t : Tracked}

/-- Sessions on different indices are on different sentences. -/
theorem exclusive (h : ExclusionInv f t) : Exclusive f t := by
  intro w hw w' hw' hf hf' hne heq
  rw [h.places w hw, h.places w' hw'] at heq
  exact hne (h.server.same_user hw hw' (hf.trans hf'.symm) (Int32.toInt_inj.mp heq))

theorem lock (h : ExclusionInv f t) (io : Io) (u : Username) (i : Int32) :
    ExclusionInv f (t.follow f io (.lockSentence f u i)) := by
  have hserver := h.server.lock io f u i
  obtain ⟨disk, tables, ws, hres, -, -, hframe, hkeys, -, -⟩ := h.server.lock_spec io f u i
  obtain ⟨m, hm⟩ := h.exists_main
  rw [follow_eq, hres]
  refine ⟨hres ▸ hserver, h.idle, ⟨m, ?_⟩, fun w hw => ?_⟩
  · rw [← hm]
    exact hframe _ (tempPath_ne_filePath t.server.id f u i).symm
  · simp only [followPlaces]
    rcases hkeys w hw with ⟨hstatus, hkey⟩ | ⟨v, hv, hkey⟩
    · simp only [WriteSession.key, Prod.mk.injEq] at hkey
      rw [if_pos ⟨hstatus, hkey.2⟩, hkey.2.2]
    · simp only [WriteSession.key, Prod.mk.injEq] at hkey
      rw [hkey.2.1, hkey.2.2, h.places v hv]
      split
      · rename_i hsame
        rw [hsame.2.2]
      · rfl

theorem write (h : ExclusionInv f t) (io : Io) (u : Username) (i wordIdx : Int32) (data : CStr) :
    ExclusionInv f (t.follow f io (.write f u i wordIdx data)) := by
  have hserver := h.server.handle io (.write f u i wordIdx data)
  obtain ⟨m, hm⟩ := h.exists_main
  rw [follow_eq]
  show ExclusionInv f ⟨(writeFileSs io t.server f u i wordIdx data).1, t.place⟩
  rcases writeFileSs_cases io t.server f u i wordIdx data with ⟨hsame, -⟩ | ⟨w, fc, k, hget, -, hwrite⟩
  · rw [hsame]
    exact h
  · obtain ⟨hmem, hkey⟩ := mem_of_getWriteSession hget
    have htemp := h.server.sessions.temp_eq hmem hkey
    rw [hwrite]
    refine ⟨⟨h.server.sessions, h.server.held⟩, h.idle, ⟨m, ?_⟩, h.places⟩
    rw [← hm]
    refine Function.update_of_ne ?_ _ _
    rw [htemp]
    exact (tempPath_ne_filePath t.server.id f u i).symm

theorem cancel (h : ExclusionInv f t) (io : Io) (u : Username) (i : Int32) :
    ExclusionInv f (t.follow f io (.cancelWrite f u i)) := by
  obtain ⟨m, hm⟩ := h.exists_main
  obtain ⟨disk, tables, hres, hheld, hframe⟩ := h.server.startFails f u i
  rw [follow_eq]
  show ExclusionInv f ⟨(unlockSentence (removeWriteSession t.server f u i) f i u).1, t.place⟩
  rw [hres]
  refine ⟨⟨h.server.sessions.eraseP _, hheld⟩, h.idle, ⟨m, ?_⟩,
    fun w hw => h.places w (List.mem_of_mem_eraseP hw)⟩
  rw [← hm]
  exact hframe _ (tempPath_ne_filePath t.server.id f u i).symm

/-- A commit that moves somebody has a copy with another number of sentences, and a session behind the one it
replaces. -/
theorem mainCount_commit (h : ExclusionInv f t) {io : Io} {u : Username} {i : Int32} {w : WriteSession}
    (hread : io.canRead (t.server.path f) = true) (hwrite : io.canWrite (t.server.path f) = true)
    (hget : getWriteSession t.server f u i = some w)
    (hcount : ∀ text, readFile io t.server.disk w.tempFilepath = some text →
      (parseContent text).sentenceCount = w.originalSentenceCount) :
    mainCount (commitWriteSession io t.server f u i).1 f = mainCount t.server f := by
  obtain ⟨m, hm⟩ := h.exists_main
  obtain ⟨-, m', hm', hnone, hsome⟩ := h.server.commit_spec (u := u) (i := i) h.idle hm hread hwrite
  obtain ⟨disk, queues, hcommit⟩ := commitWriteSession_sessions io t.server f u i
  have hpath : (commitWriteSession io t.server f u i).1.path f = t.server.path f := by rw [hcommit]; rfl
  have hlen : (cores m').length = (cores m).length := by
    cases hcopy : readFile io t.server.disk w.tempFilepath with
    | none => rw [hnone fun v hv => by obtain rfl := Option.some.inj (hget.symm.trans hv); exact hcopy]
    | some text =>
      rcases hsome w text hget hcopy with ⟨-, hcores⟩ | ⟨-, rfl⟩
      · obtain ⟨hmem, hkey⟩ := mem_of_getWriteSession hget
        have hidx : 0 ≤ i.toInt := by
          have hw := h.server.nonneg hmem
          rwa [show w.sentenceIdx = i from (Prod.mk.inj (Prod.mk.inj hkey).2).2] at hw
        rw [hcores]
        refine Merge.length_merge hidx ?_
        rw [← hcount text hcopy, sentenceCount_parseContent, ← cores_parseContent, List.length_map]
      · rfl
  simp only [← cores_parseContent, List.length_map] at hlen
  rw [mainCount, mainCount, hpath, hm', hm, Option.map_some, Option.map_some, sentenceCount_parseContent,
    sentenceCount_parseContent, hlen]

theorem unlock (h : ExclusionInv f t) {io : Io} {u : Username} {i : Int32}
    (hread : io.canRead (t.server.path f) = true) (hwrite : io.canWrite (t.server.path f) = true)
    (hmoves : MovesNobody f t (io, .unlockSentence f u i)) :
    ExclusionInv f (t.follow f io (.unlockSentence f u i)) := by
  have hserver := h.server.handle io (.unlockSentence f u i)
  obtain ⟨m, hm⟩ := h.exists_main
  obtain ⟨hidle, m', hm', -, -⟩ := h.server.commit_spec (u := u) (i := i) h.idle hm hread hwrite
  obtain ⟨disk, queues, hcommit⟩ := commitWriteSession_sessions io t.server f u i
  obtain ⟨tables, hunlock, -⟩ := unlockSentence_spec (commitWriteSession io t.server f u i).1 f i u
  have hres : (handleClientRequest io t.server (.unlockSentence f u i)).1 =
      { (commitWriteSession io t.server f u i).1 with fileLocks := tables } := by
    rw [handle_unlock, hunlock]
  rw [follow_eq, hres]
  rw [hres] at hserver
  refine ⟨hserver, hidle, ⟨m', ?_⟩, fun w hw => ?_⟩
  · rw [← hm', StorageServer.path, StorageServer.path, hcommit]
  · have hmem : w ∈ t.server.writeSessions := by
      have hw : w ∈ (commitWriteSession io t.server f u i).1.writeSessions := hw
      rw [hcommit] at hw
      exact List.mem_of_mem_eraseP hw
    simp only [followPlaces]
    split
    · exact h.places w hmem
    · rename_i v hget
      split
      · rename_i hmoved
        have hcount : ∀ text, readFile io t.server.disk v.tempFilepath = some text →
            (parseContent text).sentenceCount = v.originalSentenceCount := by
          intro text htext
          by_contra hne
          have := hmoves v hget text htext hne w hmem hmoved.1
          omega
        have hsame : mainCount { (commitWriteSession io t.server f u i).1 with fileLocks := tables } f =
            mainCount t.server f := h.mainCount_commit hread hwrite hget hcount
        rw [hsame, h.places w hmem]
        omega
      · exact h.places w hmem

theorem step (h : ExclusionInv f t) {e : Io × Request} {t' : Tracked} (hmoves : MovesNobody f t e)
    (hstep : EditStep f t e t') : ExclusionInv f t' := by
  obtain ⟨io, r⟩ := e
  obtain ⟨hedits, hread, hwrite, rfl⟩ := hstep
  cases r with
  | lockSentence g u i => obtain rfl : g = f := hedits; exact h.lock io u i
  | write g u i wordIdx data => obtain rfl : g = f := hedits; exact h.write io u i wordIdx data
  | unlockSentence g u i => obtain rfl : g = f := hedits; exact h.unlock hread hwrite hmoves
  | cancelWrite g u i => obtain rfl : g = f := hedits; exact h.cancel io u i
  | read g => exact absurd hedits id
  | undo g => exact absurd hedits id

end ExclusionInv

/-- **No sentence has sessions of two users**, in every state of every run from a server without sessions in which
no commit moves the sentence of another user. -/
theorem exclusive_of_run {f : Filename} {s : StorageServer} {p : Username → Int32 → Int} {m : CStr}
    (hsessions : s.writeSessions = []) (hqueues : s.commitQueues = []) (hm : s.disk (s.path f) = some m)
    {es : List (Io × Request)} {t : Tracked}
    (hrun : Run (Guarded (MovesNobody f) (EditStep f)) ⟨s, p⟩ es t) : Exclusive f t := by
  have hinit : ExclusionInv f ⟨s, p⟩ := by
    refine ⟨ServerInv.of_nil hsessions, ?_, ⟨m, hm⟩, fun w hw => ?_⟩
    · simp [StorageServer.pendingOf, hqueues, entriesOf]
    · rw [hsessions] at hw
      cases hw
  exact (hrun.state_invariant hinit fun _ _ _ hi hstep => hi.step hstep.1 hstep.2).exclusive

/-! ## Three users -/

/-- Some requests one after another, by a server whose opens all succeed. -/
def followAll (f : Filename) : Tracked → List Request → Tracked
  | t, [] => t
  | t, r :: rs => followAll f (t.follow f .allOpens r) rs

theorem run_followAll {f : Filename} : ∀ {rs : List Request} {t : Tracked}, (∀ r ∈ rs, Edits f r) →
    Run (EditStep f) t (rs.map (Io.allOpens, ·)) (followAll f t rs)
  | [], _, _ => .nil
  | r :: _, t, h => Run.cons (t := t.follow f .allOpens r) ⟨h r List.mem_cons_self, rfl, rfl, rfl⟩
    (run_followAll fun r hr => h r (List.mem_cons_of_mem _ hr))

/-- Nobody has a session yet. -/
def trackedWith (text : CStr) : Tracked := ⟨serverWith text, fun _ _ => 0⟩

/-- Alice changes the first sentence while Bob is on the second one. -/
def notMoved : List Request :=
  [.lockSentence notes alice 0, .lockSentence notes bob 1, .write notes alice 0 1 (lit "x"),
    .unlockSentence notes alice 0]

theorem exclusive_of_run_notMoved :
    Exclusive notes (followAll notes (trackedWith (lit "A. B.")) notMoved) := by
  have hrun : Run (Guarded (MovesNobody notes) (EditStep notes)) (trackedWith (lit "A. B."))
      (notMoved.map (Io.allOpens, ·)) (followAll notes (trackedWith (lit "A. B.")) notMoved) :=
    Run.cons ⟨trivial, rfl, rfl, rfl, rfl⟩ (Run.cons ⟨trivial, rfl, rfl, rfl, rfl⟩
      (Run.cons ⟨trivial, rfl, rfl, rfl, rfl⟩ (Run.single ⟨by decide, rfl, rfl, rfl, rfl⟩)))
  exact exclusive_of_run (m := lit "A. B.") rfl rfl (by decide) hrun

def carol : Username := ⟨lit "carol", by decide⟩

/-- Bob cuts the first sentence in two while Alice is on the second one, and Carol locks the third one then. -/
def movedAway : List Request :=
  [.lockSentence notes alice 1, .lockSentence notes bob 0, .write notes bob 0 1 (lit "x."),
    .unlockSentence notes bob 0, .lockSentence notes carol 2]

/-- **Alice and Carol are on the same sentence.** -/
theorem alice_meets_carol :
    Run (EditStep notes) (trackedWith (lit "A. B. C.")) (movedAway.map (Io.allOpens, ·))
        (followAll notes (trackedWith (lit "A. B. C.")) movedAway) ∧
      (handleRequests .allOpens (serverWith (lit "A. B. C.")) movedAway).2 =
        [SUCCESS, SUCCESS, SUCCESS, SUCCESS, SUCCESS] ∧
      ¬ Exclusive notes (followAll notes (trackedWith (lit "A. B. C.")) movedAway) := by
  refine ⟨run_followAll (by simp [movedAway, Edits]), by decide, fun h => ?_⟩
  have hmeet := h ⟨notes, alice, 1, tempPath 1 notes alice 1, 3⟩ (by decide)
    ⟨notes, carol, 2, tempPath 1 notes carol 2, 4⟩ (by decide) rfl rfl (by decide)
  exact hmeet (by decide)

end NetworkFileShare
