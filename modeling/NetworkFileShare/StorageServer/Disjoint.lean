import NetworkFileShare.StorageServer.Commit

/-!
# Commits of sessions on different sentences (`ss.c`: `process_commit_queue`)

* `Edit` : a write session and the sentences its copy has in the place of the locked one;
* `OpenedOn` : sessions of different users on different sentences of one file, none committed yet;
* `CommitInv` : where the commits stand; `CommitInv.enqueue`, `CommitInv.process` : a session enters the queue, or the
  queue is worked off.
-/

namespace NetworkFileShare
open Merge

/-- The sentences of a file, by their non-blank bytes. -/
def sentenceCores (text : CStr) : List CStr := (parseContent text).sentences.map core

/-- A write session, and the non-blank bytes of the sentences its copy has for the locked one. -/
structure Edit where
  username : Username
  sentenceIdx : Int32
  sentences : List CStr
  deriving DecidableEq

namespace Edit

/-- The place of the locked sentence. -/
def place (e : Edit) : Nat := e.sentenceIdx.toInt.toNat

/-- The edit for `Merge.replaceAll`. -/
def replacement (e : Edit) : Nat × List CStr := (e.place, e.sentences)

def temp (id : Int32) (f : Filename) (e : Edit) : Path := tempPath id f e.username e.sentenceIdx

def session (id : Int32) (f : Filename) (count : Nat) (e : Edit) : WriteSession :=
  ⟨f, e.username, e.sentenceIdx, e.temp id f, count⟩

def entry (id : Int32) (f : Filename) (count : Nat) (e : Edit) : CommitQueueEntry :=
  ⟨e.username, e.sentenceIdx, count, e.temp id f⟩

/-- The copy parses to the sentences `S` with those of the session in the place of the locked one. -/
def Copied (disk : Disk) (id : Int32) (f : Filename) (S : List CStr) (e : Edit) : Prop :=
  (disk (e.temp id f)).map sentenceCores = some (S.take e.place ++ e.sentences ++ S.drop (e.place + 1))

instance (disk : Disk) (id : Int32) (f : Filename) (S : List CStr) (e : Edit) :
    Decidable (e.Copied disk id f S) :=
  inferInstanceAs (Decidable (_ = _))

/-- `e` may commit before `e'`: it is not on a later sentence, or it keeps the number of sentences. -/
def MayPrecede (e e' : Edit) : Prop := e'.place < e.place → e.sentences.length = 1

instance : DecidableRel MayPrecede := fun e e' =>
  inferInstanceAs (Decidable (e'.place < e.place → e.sentences.length = 1))

end Edit

/-- Sessions of different users on different sentences of the file `f`, whose content is `m`. -/
structure OpenedOn (s : StorageServer) (f : Filename) (m : CStr) (edits : List Edit) : Prop where
  main : s.disk (s.path f) = some m
  idle : s.pendingOf f = []
  session : ∀ e ∈ edits, getWriteSession s f e.username e.sentenceIdx =
    some (e.session s.id f (parseContent m).sentenceCount)
  inside : ∀ e ∈ edits, 0 ≤ e.sentenceIdx.toInt ∧ e.place < (parseContent m).sentenceCount
  copied : ∀ e ∈ edits, e.Copied s.disk s.id f (sentenceCores m)
  nonempty : ∀ e ∈ edits, e.sentences ≠ []
  users : (edits.map (·.username)).Nodup
  places : (edits.map (·.place)).Nodup

inductive CommitEvent where
  | enqueue (e : Edit)
  | process
  deriving DecidableEq

/-- The sessions in the order of their commits. -/
def enqueued (es : List CommitEvent) : List Edit :=
  es.filterMap fun
    | .enqueue e => some e
    | .process => none

theorem sentenceCores_eq (text : CStr) : sentenceCores text = cores text := cores_parseContent text

theorem length_sentenceCores (text : CStr) :
    (sentenceCores text).length = (parseContent text).sentenceCount := by
  rw [sentenceCores, List.length_map, sentenceCount_parseContent]

/-! ## Working off the queue -/

section Queue
variable {io : Io} {id : Int32} {f : Filename} {S : List CStr}

/-- One commit: the edit is put in its place, and only the file and the copy change. -/
theorem commitEntry_edit {disk : Disk} {m : CStr} {done : List Edit} {e : Edit}
    (hread : io.canRead (filePath id f) = true) (hwrite : io.canWrite (filePath id f) = true)
    (htemp : io.canRead (e.temp id f) = true) (hm : disk (filePath id f) = some m)
    (hcores : cores m = replaceAll S (done.map Edit.replacement)) (hcopy : e.Copied disk id f S)
    (hidx : 0 ≤ e.sentenceIdx.toInt) (hlt : e.place < S.length) (hne : e.sentences ≠ [])
    (hfresh : e.place ∉ done.map Edit.place) (horder : ∀ d ∈ done, d.MayPrecede e) :
    ∃ disk' m', commitEntry io (filePath id f) disk (e.entry id f S.length) = some disk' ∧
      disk' (filePath id f) = some m' ∧
      cores m' = replaceAll S ((done ++ [e]).map Edit.replacement) ∧
      ∀ p, p ≠ filePath id f → p ≠ e.temp id f → disk' p = disk p := by
  obtain ⟨text, ht, hparsed⟩ := Option.map_eq_some_iff.mp hcopy
  have hreadMain : readFile io disk (filePath id f) = some m := by rw [readFile, if_pos hread, hm]
  have hreadTemp : readFile io disk (e.entry id f S.length).tempFilepath = some text := by
    rw [readFile]
    exact (if_pos htemp).trans ht
  obtain ⟨m', hcommit, hmerged⟩ := commitEntry_spec hreadMain hreadTemp hwrite hidx
  refine ⟨_, m', hcommit, ?_, ?_, fun p hp hpt => ?_⟩
  · exact committed_main disk (tempPath_ne_filePath id f e.username e.sentenceIdx) m'
  · have hplace : e.sentenceIdx.toInt = e.place := by
      rw [Edit.place]; omega
    have hmap : (done.map Edit.replacement).map (·.1) = done.map Edit.place := by
      rw [List.map_map]; rfl
    rw [sentenceCores_eq] at hparsed
    rw [hmerged, hcores, hparsed, List.map_append, List.map_singleton]
    show merge e.sentenceIdx.toInt S.length _ _ = _
    rw [hplace]
    refine merge_replaceAll hlt hne (hmap ▸ hfresh) fun r hr hbehind => ?_
    obtain ⟨d, hd, rfl⟩ := List.mem_map.mp hr
    exact horder d hd hbehind
  · exact committed_other disk hp hpt m'

/-- **The whole queue**: every waiting edit is put in its place. -/
theorem processEntries_edits (hread : io.canRead (filePath id f) = true)
    (hwrite : io.canWrite (filePath id f) = true) :
    ∀ (pending done : List Edit) (disk : Disk) (m : CStr), disk (filePath id f) = some m →
      cores m = replaceAll S (done.map Edit.replacement) →
      (∀ e ∈ pending, io.canRead (e.temp id f) = true ∧ e.Copied disk id f S ∧
        0 ≤ e.sentenceIdx.toInt ∧ e.place < S.length ∧ e.sentences ≠ []) →
      ((done ++ pending).map Edit.place).Nodup → (pending.map (·.username)).Nodup →
      (done ++ pending).Pairwise Edit.MayPrecede →
      ∃ disk' m', processEntries io (filePath id f) (pending.map (Edit.entry id f S.length)) disk =
          (disk', []) ∧ disk' (filePath id f) = some m' ∧
        cores m' = replaceAll S ((done ++ pending).map Edit.replacement) ∧
        ∀ p, p ≠ filePath id f → (∀ e ∈ pending, p ≠ e.temp id f) → disk' p = disk p
  | [], done, disk, m, hm, hcores, _, _, _, _ =>
    ⟨disk, m, rfl, hm, by rwa [List.append_nil], fun _ _ _ => rfl⟩
  | e :: pending, done, disk, m, hm, hcores, hok, hplaces, husers, horder => by
    obtain ⟨htemp, hcopy, hidx, hlt, hne⟩ := hok e List.mem_cons_self
    have hsplit : done ++ e :: pending = (done ++ [e]) ++ pending := by simp
    have hfresh : e.place ∉ done.map Edit.place := by
      rw [List.map_append, List.map_cons] at hplaces
      intro hmem
      exact (List.nodup_append.mp hplaces).2.2 _ hmem _ List.mem_cons_self rfl
    have hbefore : ∀ d ∈ done, d.MayPrecede e := fun d hd =>
      (List.pairwise_append.mp horder).2.2 d hd e List.mem_cons_self
    obtain ⟨disk₁, m₁, hcommit, hm₁, hcores₁, hframe₁⟩ :=
      commitEntry_edit hread hwrite htemp hm hcores hcopy hidx hlt hne hfresh hbefore
    rw [List.map_cons, List.nodup_cons] at husers
    -- the copies that are still to come are not the one that is gone
    have hcopies : ∀ d ∈ pending, disk₁ (d.temp id f) = disk (d.temp id f) := fun d hd =>
      hframe₁ _ (tempPath_ne_filePath id f _ _) fun he =>
        husers.1 ((tempPath_injective he).1 ▸ List.mem_map_of_mem hd)
    rw [hsplit] at hplaces horder
    obtain ⟨disk', m', hrest, hm', hcores', hframe'⟩ :=
      processEntries_edits hread hwrite pending (done ++ [e]) disk₁ m₁ hm₁ hcores₁ (fun d hd => by
        obtain ⟨h1, h2, h3⟩ := hok d (List.mem_cons_of_mem _ hd)
        exact ⟨h1, (congrArg _ (hcopies d hd)).trans h2, h3⟩) hplaces husers.2 horder
    refine ⟨disk', m', ?_, hm', hsplit ▸ hcores', fun p hp hpt => ?_⟩
    · rw [List.map_cons, processEntries, hcommit]
      exact hrest
    · rw [hframe' p hp fun d hd => hpt d (List.mem_cons_of_mem _ hd),
        hframe₁ p hp (hpt e List.mem_cons_self)]

end Queue

/-! ## Runs -/

theorem enqueued_snoc (es : List CommitEvent) (e : Edit) :
    enqueued (es ++ [.enqueue e]) = enqueued es ++ [e] := by
  simp [enqueued]

theorem enqueued_snoc_process (es : List CommitEvent) : enqueued (es ++ [.process]) = enqueued es := by
  simp [enqueued]

/-- Where the commits stand after the events `es`. -/
structure CommitInv (s : StorageServer) (f : Filename) (m : CStr) (edits : List Edit) (es : List CommitEvent)
    (t : StorageServer) (done pending : List Edit) : Prop where
  id : t.id = s.id
  order : enqueued es = done ++ pending
  queue : t.pendingOf f = pending.map (Edit.entry s.id f (parseContent m).sentenceCount)
  main : ∃ m', t.disk (s.path f) = some m' ∧
    cores m' = replaceAll (sentenceCores m) (done.map Edit.replacement)
  copied : ∀ e ∈ edits, e ∉ done → e.Copied t.disk s.id f (sentenceCores m)
  session : ∀ e ∈ edits, e ∉ enqueued es →
    getWriteSession t f e.username e.sentenceIdx = some (e.session s.id f (parseContent m).sentenceCount)

section Step
variable {s t u : StorageServer} {f : Filename} {m : CStr} {edits done pending : List Edit}
  {es : List CommitEvent}

theorem OpenedOn.init (h : OpenedOn s f m edits) : CommitInv s f m edits [] s [] [] where
  id := rfl
  order := rfl
  queue := h.idle
  main := ⟨m, h.main, by rw [List.map_nil, replaceAll_nil, sentenceCores_eq]⟩
  copied e he _ := h.copied e he
  session e he _ := h.session e he

/-- Sessions of one user are the same. -/
theorem OpenedOn.same_user (h : OpenedOn s f m edits) {e d : Edit} (he : e ∈ edits) (hd : d ∈ edits)
    (hu : e.username = d.username) : e = d :=
  List.inj_on_of_nodup_map h.users he hd hu

theorem CommitInv.enqueue (h : CommitInv s f m edits es t done pending) (hopen : OpenedOn s f m edits)
    {e : Edit} (he : e ∈ edits) (hnew : e ∉ enqueued es)
    (hstep : enterCommit t f e.username e.sentenceIdx = some u) :
    CommitInv s f m edits (es ++ [.enqueue e]) u done (pending ++ [e]) := by
  obtain ⟨w, hw, hid, hdisk, hpending, hframe⟩ := enterCommit_spec hstep
  rw [h.session e he hnew] at hw
  obtain rfl := Option.some.inj hw
  refine ⟨hid.trans h.id, ?_, ?_, hdisk ▸ h.main, hdisk ▸ h.copied, fun d hd hdnew => ?_⟩
  · rw [enqueued_snoc, h.order, List.append_assoc]
  · rw [hpending, h.queue, List.map_append]
    rfl
  · rw [enqueued_snoc, List.mem_append, List.mem_singleton, not_or] at hdnew
    rw [hframe _ _ fun hu => hdnew.2 (hopen.same_user hd he hu)]
    exact h.session d hd hdnew.1

theorem CommitInv.process (h : CommitInv s f m edits es t done pending) (hopen : OpenedOn s f m edits)
    (hmem : ∀ e ∈ enqueued es, e ∈ edits) (hnodup : (enqueued es).Nodup)
    (horder : (enqueued es).Pairwise Edit.MayPrecede) {io : Io} (hread : io.canRead (t.path f) = true)
    (hwrite : io.canWrite (t.path f) = true) (htemps : ∀ q ∈ t.pendingOf f, io.canRead q.tempFilepath = true) :
    CommitInv s f m edits (es ++ [.process]) (processCommitQueue io t f) (done ++ pending) [] := by
  obtain ⟨disk, queues, heq, backup, hbackup, hprocess⟩ := processCommitQueue_spec io t f
  rw [heq]
  have hpath : t.path f = filePath s.id f := by rw [StorageServer.path, h.id]
  rw [hpath] at hread hwrite hbackup hprocess
  obtain ⟨m', hm', hcores⟩ := h.main
  rw [h.order] at hmem hnodup horder
  have hinj : ∀ g : Edit → Nat, (edits.map g).Nodup → ((done ++ pending).map g).Nodup := fun g hg =>
    hnodup.map_on fun a ha b hb hab => List.inj_on_of_nodup_map hg (hmem a ha) (hmem b hb) hab
  have hpend : ∀ e ∈ pending, e ∈ edits ∧ e ∉ done := fun e he =>
    ⟨hmem e (List.mem_append_right _ he), fun hd => (List.nodup_append.mp hnodup).2.2 e hd e he rfl⟩
  have hok : ∀ e ∈ pending, io.canRead (e.temp s.id f) = true ∧
      e.Copied backup s.id f (sentenceCores m) ∧ 0 ≤ e.sentenceIdx.toInt ∧
      e.place < (sentenceCores m).length ∧ e.sentences ≠ [] := fun e he => by
    obtain ⟨hin, hnd⟩ := hpend e he
    refine ⟨htemps (e.entry s.id f (parseContent m).sentenceCount) (h.queue ▸ List.mem_map_of_mem he),
      ?_, (hopen.inside e hin).1, ?_, hopen.nonempty e hin⟩
    · rw [Edit.Copied, hbackup (e.temp s.id f) (tempPath_ne_undoPath s.id f _ _)]
      exact h.copied e hin hnd
    · rw [length_sentenceCores]
      exact (hopen.inside e hin).2
  have husers : (pending.map (·.username)).Nodup :=
    (hnodup.sublist (List.sublist_append_right _ _)).map_on fun a ha b hb hab =>
      hopen.same_user (hpend a ha).1 (hpend b hb).1 hab
  obtain ⟨disk', m₁, hrun, hm₁, hcores₁, hframe⟩ := processEntries_edits hread hwrite pending done backup m'
    (by rw [hbackup _ (undoPath_ne_filePath s.id f).symm]; exact hm') hcores hok
    (hinj _ hopen.places) husers horder
  · rw [length_sentenceCores, ← h.queue, hprocess] at hrun
    obtain ⟨rfl, hqueue⟩ := Prod.mk.inj hrun
    refine ⟨h.id, ?_, ?_, ⟨m₁, hm₁, hcores₁⟩, fun e he hnot => ?_, fun e he hnot => ?_⟩
    · rw [enqueued_snoc_process, h.order, List.append_nil]
    · exact hqueue
    · rw [List.mem_append, not_or] at hnot
      have hkept : disk (e.temp s.id f) = t.disk (e.temp s.id f) := by
        rw [hframe (e.temp s.id f) (tempPath_ne_filePath s.id f _ _) fun d hd heq => hnot.2 ?_,
          hbackup (e.temp s.id f) (tempPath_ne_undoPath s.id f _ _)]
        rwa [hopen.same_user he (hpend d hd).1 (tempPath_injective heq).1]
      show (disk _).map sentenceCores = _
      rw [hkept]
      exact h.copied e he hnot.1
    · rw [enqueued_snoc_process] at hnot
      exact h.session e he hnot

end Step

end NetworkFileShare
