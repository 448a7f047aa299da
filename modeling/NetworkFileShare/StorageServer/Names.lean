import NetworkFileShare.Lib.Separator
import NetworkFileShare.StorageServer.Frames

/-!
# Which names coincide

* `checkpointPath_ne_filePath`, `checkpointPath_ne_undoPath` : the paths that the server makes for one file are
  different strings;
* `Nested f u g v`, `tempPath_eq_iff` : when the copies of two sessions on different files have one name;
* `private_copies_iff` : open sessions have different copies unless their names are nested.

Paths are compared as strings here. That two different ones name two files is a condition where it is needed.
-/

namespace NetworkFileShare

/-! ## The paths of one file -/

theorem checkpointPath_eq (id : Int32) (f : Filename) (tag : Tag) :
    checkpointPath (filePath id f) tag = filePath id f ++ lit ".checkpoint_" ++ tag.str := by
  have h := length_filePath_le id f
  have htag : tag.str.length < 64 := tag.fits
  have hlit : (lit ".checkpoint_").length = 12 := by decide
  refine snprintfPath_eq ?_
  simp only [List.length_append]
  omega

theorem checkpointPath_ne_filePath (id : Int32) (f : Filename) (tag : Tag) :
    checkpointPath (filePath id f) tag ≠ filePath id f := by
  have hlit : lit ".checkpoint_" ≠ [] := by decide
  rw [checkpointPath_eq, List.append_assoc]
  simp [hlit]

/-- The letter behind the dot tells a checkpoint from the backup. -/
theorem checkpointPath_ne_undoPath (id : Int32) (f : Filename) (tag : Tag) :
    checkpointPath (filePath id f) tag ≠ undoPath (filePath id f) := by
  have hlit : lit ".checkpoint_" = byte 46 :: byte 99 :: lit "heckpoint_" := by decide
  have hundo : lit ".undo" = byte 46 :: byte 117 :: lit "ndo" := by decide
  rw [checkpointPath_eq, undoPath_eq, List.append_assoc, hlit, hundo]
  intro h
  have h := List.append_cancel_left h
  simp only [List.cons_append, List.cons.injEq, true_and] at h
  exact absurd h.1 (by decide)

/-! ## The copies of different files -/

/-- The name of `g` is that of `f` with `.temp_` and a text behind it, and the user `u` is that text with
`.temp_` and `v` behind it. -/
def Nested (f : Filename) (u : Username) (g : Filename) (v : Username) : Prop :=
  ∃ d, g.str = f.str ++ lit ".temp_" ++ d ∧ u.str = d ++ lit ".temp_" ++ v.str

/-- **When two copies have one name.** -/
theorem tempPath_eq_iff {id : Int32} {f g : Filename} {u v : Username} {i j : Int32} :
    tempPath id f u i = tempPath id g v j ↔
      i = j ∧ (f = g ∧ u = v ∨ Nested f u g v ∨ Nested g v f u) := by
  have htemp : lit ".temp_" = byte 46 :: lit "temp_" := by decide
  have honce : byte 46 ∉ lit "temp_" := by decide
  have hlit : lit "_" = [byte 95] := by decide
  rw [tempPath_eq, tempPath_eq, filePath_eq, filePath_eq, hlit]
  constructor
  · intro h
    simp only [List.append_assoc] at h
    have h : f.str ++ lit ".temp_" ++ u.str ++ byte 95 :: printInt i.toInt =
        g.str ++ lit ".temp_" ++ v.str ++ byte 95 :: printInt j.toInt := by
      simpa only [List.append_assoc, List.singleton_append] using
        List.append_cancel_left (List.append_cancel_left h)
    obtain ⟨hname, hi⟩ := append_cons_inj (underscore_notMem_printInt _) (underscore_notMem_printInt _) h
    refine ⟨printInt_injective hi, ?_⟩
    rw [htemp] at hname
    rcases append_sep_cases honce hname with ⟨hf, hu⟩ | ⟨d, hg, hu⟩ | ⟨d, hf, hv⟩
    · exact Or.inl ⟨CArray.ext' hf, CArray.ext' hu⟩
    · exact Or.inr (Or.inl ⟨d, by rw [htemp, hg], by rw [htemp, hu]⟩)
    · exact Or.inr (Or.inr ⟨d, by rw [htemp, hf], by rw [htemp, hv]⟩)
  · rintro ⟨rfl, ⟨rfl, rfl⟩ | ⟨d, hg, hu⟩ | ⟨d, hf, hv⟩⟩
    · rfl
    · rw [hg, hu]
      simp only [List.append_assoc]
    · rw [hf, hv]
      simp only [List.append_assoc]

/-- **Open sessions have copies of their own if and only if no two are nested.** -/
theorem private_copies_iff {id : Int32} {disk : Disk} {es : List (FsIo × Operation)} {s : StorageServer}
    (h : Run StoreStep (freshServer id disk) es s) :
    (∀ w ∈ s.writeSessions, ∀ w' ∈ s.writeSessions, w.key ≠ w'.key → w.tempFilepath ≠ w'.tempFilepath) ↔
      ∀ w ∈ s.writeSessions, ∀ w' ∈ s.writeSessions, w.sentenceIdx = w'.sentenceIdx →
        ¬ Nested w.filename w.username w'.filename w'.username := by
  have hok : ∀ w ∈ s.writeSessions, w.tempFilepath = tempPath s.id w.filename w.username w.sentenceIdx :=
    (StoreInv.of_run h).server.sessions.temps
  constructor
  · intro hdiffer w hw w' hw' hidx hnested
    refine hdiffer w hw w' hw' (fun hkey => ?_) ?_
    · -- a name is not a proper part of itself
      obtain ⟨d, hg, -⟩ := hnested
      have hf : w.filename = w'.filename := (Prod.mk.inj hkey).1
      have hlen := congrArg List.length hg
      have hlit : (lit ".temp_").length = 6 := by decide
      rw [hf, List.length_append, List.length_append] at hlen
      omega
    · rw [hok w hw, hok w' hw']
      exact tempPath_eq_iff.mpr ⟨hidx, Or.inr (Or.inl hnested)⟩
  · intro hnone w hw w' hw' hkey he
    rw [hok w hw, hok w' hw'] at he
    obtain ⟨hidx, ⟨hf, hu⟩ | hnested | hnested⟩ := tempPath_eq_iff.mp he
    · exact hkey (by rw [WriteSession.key, WriteSession.key, hf, hu, hidx])
    · exact hnone w hw w' hw' hidx hnested
    · exact hnone w' hw' w hw hidx.symm hnested

/-- Requests of clients, every open of a file succeeding. -/
def asked (rs : List Request) : List (FsIo × Operation) := rs.map fun r => (FsIo.allOpens, .client r)

/-- Alice and bob have locked a sentence each. -/
def twoSessions : StorageServer :=
  (handleAll (freshServer 1 (serverWith (lit "A. B.")).disk)
    (asked [.lockSentence notes alice 0, .lockSentence notes bob 1])).1

theorem private_copies_twoSessions : twoSessions.writeSessions.length = 2 ∧
    ((∀ w ∈ twoSessions.writeSessions, ∀ w' ∈ twoSessions.writeSessions, w.key ≠ w'.key →
        w.tempFilepath ≠ w'.tempFilepath) ↔
      ∀ w ∈ twoSessions.writeSessions, ∀ w' ∈ twoSessions.writeSessions, w.sentenceIdx = w'.sentenceIdx →
        ¬ Nested w.filename w.username w'.filename w'.username) :=
  ⟨by decide, private_copies_iff (run_handleAll _ _)⟩

/-- The user `b.temp_c` on the file `a`, and the user `c` on the file `a.temp_b`. -/
def nestedRequests : List Request :=
  [.lockSentence (.strncpy (MAX_FILENAME - 1) (lit "a")) (.strncpy (MAX_USERNAME - 1) (lit "b.temp_c")) 0,
    .lockSentence (.strncpy (MAX_FILENAME - 1) (lit "a.temp_b")) (.strncpy (MAX_USERNAME - 1) (lit "c")) 0]

def nestedSessions : StorageServer := (handleAll (freshServer 1 fun _ => none) (asked nestedRequests)).1

/-- **Two sessions with one copy.** -/
theorem nested_sessions_share :
    Run StoreStep (freshServer 1 fun _ => none) (asked nestedRequests) nestedSessions ∧
      ¬ ∀ w ∈ nestedSessions.writeSessions, ∀ w' ∈ nestedSessions.writeSessions, w.key ≠ w'.key →
        w.tempFilepath ≠ w'.tempFilepath :=
  ⟨run_handleAll _ _, by decide⟩

end NetworkFileShare
