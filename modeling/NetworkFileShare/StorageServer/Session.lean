import NetworkFileShare.Lib.Run
import NetworkFileShare.FileOps.Edit
import NetworkFileShare.StorageServer.Locks

/-!
# One write session from lock to unlock (`ss.c`)

* `SessionWrite` : an acknowledged write; `Strays` : it leaves text behind the locked sentence without a delimiter;
* `Kept` : when the commit brings every acknowledged write into the file;
* `CopyInv` : what the copy holds after some writes; `CopyInv.write`, `CopyInv.commit` : a write keeps it, and the
  commit merges its text;
* `WriteSessionInv` : the state of the session; `WriteSessionInv.lock`, `.untouched`, `.written` : it holds after the
  lock, while others leave the session and the file alone, and after every acknowledged write;
* `WriteSessionInv.unlocked` : after the unlock the file has the text of the copy if and only if `Kept` holds.
-/

namespace NetworkFileShare
open Segment

/-- An acknowledged write, with the number of words the locked sentence has in the copy at that time. -/
structure SessionWrite where
  words : Nat
  wordIdx : Int32
  content : CStr
  deriving DecidableEq

/-- The text goes behind the last word of the locked sentence while that still is the only sentence of the
session, and does not end in a delimiter. -/
def SessionWrite.Strays (earlier : List SessionWrite) (w : SessionWrite) : Prop :=
  w.wordIdx.toInt = w.words + 1 ∧ (∀ v ∈ earlier, closed isDelimiter v.content = []) ∧
    nonBlank (rest isDelimiter w.content) ≠ []

def NoneStrays (ws : List SessionWrite) : Prop :=
  ∀ earlier w later, ws = earlier ++ w :: later → ¬ w.Strays earlier

/-- **When no acknowledged write is lost**: a session behind the last sentence of a file that has some writes
nothing, and one before another sentence has no write that strays. -/
def Kept (count i : Nat) (ws : List SessionWrite) : Prop :=
  (i = count → 0 < count → ∀ w ∈ ws, nonBlank w.content = []) ∧ (i + 1 < count → NoneStrays ws)

/-! ## Writes that stray -/

/-- The number of delimiters written. -/
def delimiters (ws : List SessionWrite) : Nat := (ws.map fun w => (closed isDelimiter w.content).length).sum

theorem delimiters_snoc (ws : List SessionWrite) (w : SessionWrite) :
    delimiters (ws ++ [w]) = delimiters ws + (closed isDelimiter w.content).length := by
  simp [delimiters]

theorem delimiters_eq_zero_iff {ws : List SessionWrite} :
    delimiters ws = 0 ↔ ∀ v ∈ ws, closed isDelimiter v.content = [] := by
  rw [delimiters, List.sum_eq_zero_iff_forall_eq_nat]
  simp

theorem noneStrays_nil : NoneStrays [] := by
  intro a w b h
  simp at h

theorem noneStrays_snoc {ws : List SessionWrite} {w : SessionWrite} :
    NoneStrays (ws ++ [w]) ↔ NoneStrays ws ∧ ¬ w.Strays ws := by
  constructor
  · intro h
    exact ⟨fun a v b hab => h a v (b ++ [w]) (by simp [hab]), h ws w [] rfl⟩
  · rintro ⟨h, hw⟩ a v b hab
    rcases List.eq_nil_or_concat b with rfl | ⟨b, c, rfl⟩
    · obtain ⟨rfl, hv⟩ := List.append_inj' hab rfl
      obtain rfl := List.singleton_inj.mp hv
      exact hw
    · rw [List.concat_eq_append, ← List.cons_append, ← List.append_assoc] at hab
      exact h a v b (List.append_inj' hab rfl).1

/-! ## The sentences of a copy -/

/-- The sentences of a file before one of them are blocks. -/
theorem isBlock_of_mem_take {t : CStr} {i : Nat} (h : i + 1 ≤ (cores t).length) :
    ∀ s ∈ (cores t).take i, IsBlock isDelimiter s := by
  intro s hs
  have hlen : i ≤ (closed isDelimiter (nonBlank t)).length := by
    rw [length_cores] at h
    split at h <;> omega
  rw [cores_eq, List.take_append_of_le_length hlen] at hs
  exact exists_of_mem_closed (List.mem_of_mem_take hs)

/-- The sentences of a text that begins with some blocks. -/
theorem cores_of_blocks {text B : CStr} {L : List CStr} (hL : ∀ s ∈ L, IsBlock isDelimiter s)
    (h : nonBlank text = L.flatten ++ B) :
    cores text = L ++ (closed isDelimiter B ++
      if rest isDelimiter text = [] then [] else [rest isDelimiter B]) := by
  obtain ⟨hclosed, hrest⟩ := closed_flatten hL
  rw [cores_eq, h, closed_append_of_rest hrest, rest_append_of_rest hrest, hclosed, List.append_assoc]

/-- An inserted word in terms of the cut at the locked sentence. -/
theorem insert_behind {text text' word : CStr} {L Z : List CStr} {i : Nat} {s₁ s₂ : CStr}
    (hcores : cores text = L ++ Z) (hi : L.length = i) (hs : s₁ ++ s₂ = (cores text).getD i [])
    (htext : nonBlank text' = ((cores text).take i).flatten ++ (s₁ ++ nonBlank word ++ s₂) ++
      ((cores text).drop (i + 1)).flatten) :
    s₁ ++ s₂ = Z.getD 0 [] ∧
      nonBlank text' = L.flatten ++ (s₁ ++ nonBlank word ++ s₂ ++ (Z.drop 1).flatten) := by
  subst hi
  rw [hcores] at hs htext
  refine ⟨?_, ?_⟩
  · rw [hs, List.getD_append_right _ _ _ _ le_rfl, Nat.sub_self]
  · have hdrop : (L ++ Z).drop (L.length + 1) = Z.drop 1 := by
      rw [List.drop_append, List.drop_of_length_le (by omega), List.nil_append, Nat.add_sub_cancel_left]
    rw [htext, List.take_left' rfl, hdrop, List.append_assoc]

/-- What the copy holds after the writes `ws` of a session on sentence `i` of a file with content `m`. -/
structure CopyInv (m : CStr) (i : Nat) (ws : List SessionWrite) (text : CStr) : Prop where
  inside : i + 1 < (cores m).length → ∃ B,
    nonBlank text = ((cores m).take i).flatten ++ (B ++ ((cores m).drop (i + 1)).flatten) ∧
    (rest isDelimiter text = [] ↔ rest isDelimiter m = []) ∧
    (closed isDelimiter B).length = 1 + delimiters ws ∧ (rest isDelimiter B = [] ↔ NoneStrays ws)
  last : i + 1 = (cores m).length → ∃ B, nonBlank text = ((cores m).take i).flatten ++ B
  behind : (cores m).length ≤ i →
    (nonBlank text).length = (nonBlank m).length + (ws.map fun w => (nonBlank w.content).length).sum ∧
    ((∀ w ∈ ws, nonBlank w.content = []) → nonBlank text = nonBlank m)
  nonempty : 1 ≤ i → text ≠ []

namespace CopyInv
variable {m text text' : CStr} {i : Nat} {ws : List SessionWrite} {w : SessionWrite}

/-- A fresh copy. -/
theorem init (hpos : 1 ≤ i → m ≠ []) : CopyInv m i [] m where
  inside h := by
    have hblock : IsBlock isDelimiter (cores m)[i] :=
      isBlock_of_mem_take (i := i + 1) (by omega) _ (List.mem_take_iff_getElem.mpr ⟨i, by omega, rfl⟩)
    refine ⟨(cores m)[i], ?_, Iff.rfl, ?_, ?_⟩
    · rw [← flatten_cores, flatten_at (cores m) i, List.getD_eq_getElem _ _ (by omega), List.append_assoc]
    · rw [hblock.closed_eq]
      rfl
    · simp [hblock.rest_eq_nil, noneStrays_nil]
  last _ := ⟨((cores m).drop i).flatten, by
    rw [← List.flatten_append, List.take_append_drop, flatten_cores]⟩
  behind _ := ⟨rfl, fun _ => rfl⟩
  nonempty := hpos

/-- The number of sentences of the copy, when the locked sentence has others behind it. -/
theorem length_inside {B : CStr} {d : Nat} (hi : i + 1 < (cores m).length)
    (htext : nonBlank text = ((cores m).take i).flatten ++ (B ++ ((cores m).drop (i + 1)).flatten))
    (hrest : rest isDelimiter text = [] ↔ rest isDelimiter m = [])
    (hB : (closed isDelimiter B).length = 1 + d) : (cores text).length = (cores m).length + d := by
  have hblocks := isBlock_of_mem_take (t := m) (i := i) (by omega)
  have hblocks' := isBlock_of_mem_take (t := m) (i := i + 1) (by omega)
  have hm : nonBlank m = ((cores m).take (i + 1)).flatten ++ ((cores m).drop (i + 1)).flatten := by
    rw [← List.flatten_append, List.take_append_drop, flatten_cores]
  rw [length_cores text, length_cores m]
  conv_rhs => rw [hm]
  simp only [hrest, htext, length_closed_append, (closed_flatten hblocks).1, (closed_flatten hblocks').1, hB,
    List.length_take]
  omega

/-- A write to a sentence with others behind it. -/
theorem write_inside (h : CopyInv m i ws text) (hi : i + 1 < (cores m).length) {s₁ s₂ : CStr}
    (hs : s₁ ++ s₂ = (cores text).getD i [])
    (htext' : nonBlank text' = ((cores text).take i).flatten ++ (s₁ ++ nonBlank w.content ++ s₂) ++
      ((cores text).drop (i + 1)).flatten)
    (hlast : s₂ = [] ↔ w.wordIdx.toInt = w.words + 1)
    (hend : i + 1 < (cores text).length → (rest isDelimiter text' = [] ↔ rest isDelimiter text = [])) :
    ∃ B, nonBlank text' = ((cores m).take i).flatten ++ (B ++ ((cores m).drop (i + 1)).flatten) ∧
      (rest isDelimiter text' = [] ↔ rest isDelimiter m = []) ∧
      (closed isDelimiter B).length = 1 + delimiters (ws ++ [w]) ∧
      (rest isDelimiter B = [] ↔ NoneStrays (ws ++ [w])) := by
  obtain ⟨B, htext, hrest, hB, hstray⟩ := h.inside hi
  have hblocks := isBlock_of_mem_take (t := m) (i := i) (by omega)
  have hlen : ((cores m).take i).length = i := by simp; omega
  have hlonger : i + 1 < (cores text).length := by
    have := length_inside hi htext hrest hB
    omega
  generalize ((cores m).drop (i + 1)).flatten = C at *
  -- the first sentence of the session, and its others
  obtain ⟨b, bs, hbs⟩ : ∃ b bs, closed isDelimiter B = b :: bs :=
    List.exists_cons_of_ne_nil (List.ne_nil_of_length_pos (by omega))
  obtain ⟨hb, r, rfl, hr, hrB⟩ := exists_first hbs
  rw [hbs, List.length_cons, ← hr] at hB
  have hcores : ∃ Z, cores text = (cores m).take i ++ b :: Z := by
    rw [cores_of_blocks hblocks htext, List.append_assoc, closed_append_of_rest hb.rest_eq_nil, hb.closed_eq]
    exact ⟨_, rfl⟩
  obtain ⟨Z, hZ⟩ := hcores
  have hZflat : Z.flatten = r ++ C := by
    have hflat := flatten_cores text
    rw [hZ, htext, List.flatten_append, List.flatten_cons, List.append_assoc] at hflat
    exact List.append_cancel_left (List.append_cancel_left hflat)
  obtain ⟨hs', htext'⟩ := insert_behind hZ hlen hs htext'
  have hs' : s₁ ++ s₂ = b := hs'
  refine ⟨s₁ ++ nonBlank w.content ++ s₂ ++ r, ?_, (hend hlonger).trans hrest, ?_, ?_⟩
  · rw [htext', show (b :: Z).drop 1 = Z from rfl, hZflat]
    simp
  · have hb1 : (closed isDelimiter s₁).length + (closed isDelimiter s₂).length = 1 := by
      rw [← length_closed_append, hs', hb.closed_eq, List.length_singleton]
    simp only [length_closed_append, closed_nonBlank, List.length_map, delimiters_snoc]
    omega
  · have hnone : closed isDelimiter r = [] ↔ ∀ v ∈ ws, closed isDelimiter v.content = [] := by
      rw [← List.length_eq_zero_iff, ← delimiters_eq_zero_iff,
        show delimiters ws = (closed isDelimiter r).length by omega]
    rw [rest_insert (hs' ▸ hb), noneStrays_snoc, ← hstray, ← hrB, SessionWrite.Strays, ← hlast, ← hnone,
      ← rest_nonBlank]
    by_cases hc : s₂ = [] ∧ closed isDelimiter r = []
    · rw [if_pos hc, List.append_eq_nil_iff]
      constructor
      · rintro ⟨hx, hnil⟩
        exact ⟨hnil, fun hstray => hstray.2.2 hx⟩
      · rintro ⟨hnil, hno⟩
        exact ⟨by_contra fun hx => hno ⟨hc.1, hc.2, hx⟩, hnil⟩
    · rw [if_neg hc]
      exact ⟨fun hnil => ⟨hnil, fun hstray => hc ⟨hstray.1, hstray.2.1⟩⟩, And.left⟩

/-- **An acknowledged write keeps the invariant.** -/
theorem write (h : CopyInv m i ws text) {s₁ s₂ : CStr} (hs : s₁ ++ s₂ = (cores text).getD i [])
    (htext' : nonBlank text' = ((cores text).take i).flatten ++ (s₁ ++ nonBlank w.content ++ s₂) ++
      ((cores text).drop (i + 1)).flatten)
    (hlast : s₂ = [] ↔ w.wordIdx.toInt = w.words + 1)
    (hend : i + 1 < (cores text).length → (rest isDelimiter text' = [] ↔ rest isDelimiter text = []))
    (hne : 1 ≤ i → text' ≠ []) : CopyInv m i (ws ++ [w]) text' where
  inside hi := h.write_inside hi hs htext' hlast hend
  last hi := by
    obtain ⟨B, htext⟩ := h.last hi
    have hcores := cores_of_blocks (isBlock_of_mem_take (t := m) (i := i) (by omega)) htext
    obtain ⟨-, htext'⟩ := insert_behind hcores (by simp; omega) hs htext'
    exact ⟨_, htext'⟩
  behind hi := by
    obtain ⟨hlen, hsame⟩ := h.behind hi
    have htext := flatten_at (cores text) i
    rw [flatten_cores, ← hs] at htext
    refine ⟨?_, fun hblank => ?_⟩
    · rw [List.map_append, List.sum_append, ← Nat.add_assoc, ← hlen, htext, htext']
      simp only [List.length_append, List.map_singleton, List.sum_singleton]
      omega
    · rw [htext', hblank w (by simp), List.append_nil, ← htext]
      exact hsame fun v hv => hblank v (by simp [hv])
  nonempty := hne

/-- **The commit merges the text of the copy into the file, if and only if no write is lost.** -/
theorem commit (h : CopyInv m i ws text) (hi : i ≤ (cores m).length) :
    (Merge.merge i (cores m).length (cores m) (cores text)).flatten = nonBlank text ↔
      Kept (cores m).length i ws := by
  rcases Nat.lt_trichotomy (i + 1) (cores m).length with hlt | heq | hgt
  · -- other sentences follow: what the merge leaves out is the rest behind the last delimiter
    obtain ⟨B, htext, hrest, hB, hstray⟩ := h.inside hlt
    have hblocks := isBlock_of_mem_take (t := m) (i := i) (by omega)
    have hlen := length_inside hlt htext hrest hB
    have hcores := cores_of_blocks hblocks htext
    have hslice : ((cores text).drop i).take ((cores text).length + 1 - (cores m).length) =
        closed isDelimiter B := by
      rw [hlen, hcores, List.drop_left' (by simp; omega), closed_append, List.append_assoc]
      exact List.take_left' (by omega)
    rw [Merge.merge_same (by omega), hslice, List.flatten_append, List.flatten_append, htext]
    have hkept : Kept (cores m).length i ws ↔ rest isDelimiter B = [] := by
      rw [hstray, Kept]
      exact ⟨fun hk => hk.2 hlt, fun hn => ⟨fun he => absurd he (by omega), fun _ => hn⟩⟩
    rw [hkept]
    conv_lhs => rhs; rw [← flatten_closed (p := isDelimiter) B]
    constructor
    · intro hsame
      have := congrArg List.length hsame
      simp only [List.length_append] at this
      exact List.length_eq_zero_iff.mp (by omega)
    · intro hnil
      rw [hnil, List.append_nil, List.append_assoc]
  · -- the last sentence: everything from it on is taken
    have hcount : (cores text).length + 1 - (cores m).length = (cores text).length - i := by omega
    obtain ⟨B, htext⟩ := h.last heq
    have hcores := cores_of_blocks (isBlock_of_mem_take (t := m) (i := i) (by omega)) htext
    have htake : (cores m).take i = (cores text).take i := by
      rw [hcores, List.take_left' (by simp; omega)]
    rw [Merge.merge_same (by omega), hcount,
      List.take_of_length_le (l := (cores text).drop i) (by rw [List.length_drop]), htake,
      List.take_append_drop, List.drop_of_length_le (by omega), List.append_nil, flatten_cores]
    simp only [true_iff]
    exact ⟨fun he => absurd he (by omega), fun hl => absurd hl (by omega)⟩
  · -- behind the last sentence: nothing is taken, unless the file is empty
    obtain rfl : i = (cores m).length := by omega
    by_cases hempty : cores m = []
    · rw [hempty]
      simp only [List.length_nil, Nat.cast_zero]
      rw [Merge.merge_nil, flatten_cores]
      simp only [true_iff]
      exact ⟨fun _ hl => absurd hl (by omega), fun hl => absurd hl (by omega)⟩
    · have hpos : 0 < (cores m).length := List.length_pos_iff.mpr hempty
      obtain ⟨hlen, hsame⟩ := h.behind le_rfl
      rw [Merge.merge_end hempty, flatten_cores]
      constructor
      · intro heq
        refine ⟨fun _ _ w hw => ?_, fun hl => absurd hl (by omega)⟩
        rw [← heq] at hlen
        have hsum := (List.sum_eq_zero_iff_forall_eq_nat.mp (by omega :
          (ws.map fun w => (nonBlank w.content).length).sum = 0)) _ (List.mem_map_of_mem hw)
        exact List.length_eq_zero_iff.mp hsum
      · intro hkept
        exact (hsame (hkept.1 rfl hpos)).symm

end CopyInv

/-! ## The session on the server -/

/-- The words of the locked sentence in the copy. -/
def lockedWords (s : StorageServer) (f : Filename) (u : Username) (i : Int32) : Nat :=
  ((s.disk (tempPath s.id f u i)).map fun text =>
    realWordCount ((parseContent text).sentences.getD i.toInt.toNat [])).getD 0

/-- The file, the session and its copy are as before, and no commit waits. -/
structure Untouched (f : Filename) (u : Username) (i : Int32) (s t : StorageServer) : Prop where
  id : t.id = s.id
  main : t.disk (s.path f) = s.disk (s.path f)
  copy : t.disk (tempPath s.id f u i) = s.disk (tempPath s.id f u i)
  session : getWriteSession t f u i = getWriteSession s f u i
  idle : t.pendingOf f = s.pendingOf f

theorem Untouched.of_disk {f : Filename} {u : Username} {i : Int32} {s : StorageServer} {disk : Disk}
    (hmain : disk (s.path f) = s.disk (s.path f))
    (hcopy : disk (tempPath s.id f u i) = s.disk (tempPath s.id f u i)) :
    Untouched f u i s { s with disk := disk } :=
  ⟨rfl, hmain, hcopy, rfl, rfl⟩

/-- The requests of other users that edit the file, short of a commit. -/
def OtherEdit (f : Filename) (u : Username) : Request → Prop
  | .read _ => True
  | .lockSentence g v _ | .write g v _ _ _ | .cancelWrite g v _ => g = f ∧ v ≠ u
  | .unlockSentence .. | .undo _ => False

/-- **Other users leave a session alone** until they commit. -/
theorem untouched_of_otherEdit {s : StorageServer} (h : ServerInv s) {f : Filename} {u : Username} {r : Request}
    (hr : OtherEdit f u r) (io : Io) (i : Int32) : Untouched f u i s (handleClientRequest io s r).1 := by
  have hcopy : ∀ v j, v ≠ u → tempPath s.id f u i ≠ tempPath s.id f v j := fun v j hv he =>
    hv (tempPath_injective he).1.symm
  have hmain : ∀ v j, s.path f ≠ tempPath s.id f v j := fun v j => (tempPath_ne_filePath s.id f v j).symm
  cases r with
  | read g => exact ⟨rfl, rfl, rfl, rfl, rfl⟩
  | lockSentence g v j =>
    obtain ⟨rfl, hv⟩ := hr
    obtain ⟨disk, tables, ws, hres, -, -, hframe, -, hothers, -⟩ := h.lock_spec io g v j
    rw [hres]
    exact ⟨rfl, hframe _ (hmain v j), hframe _ (hcopy v j hv), hothers u i hv.symm, rfl⟩
  | write g v j wordIdx data =>
    obtain ⟨rfl, hv⟩ := hr
    show Untouched g u i s (writeFileSs io s g v j wordIdx data).1
    rcases writeFileSs_cases io s g v j wordIdx data with ⟨hsame, -⟩ | ⟨w, fc, k, hget, -, hwrite⟩
    · rw [hsame]
      exact ⟨rfl, rfl, rfl, rfl, rfl⟩
    · obtain ⟨hmem, hkey⟩ := mem_of_getWriteSession hget
      rw [hwrite, h.sessions.temp_eq hmem hkey]
      refine Untouched.of_disk ?_ ?_
      · rw [Function.update_of_ne (hmain v j)]
      · rw [Function.update_of_ne (hcopy v j hv)]
  | cancelWrite g v j =>
    obtain ⟨rfl, hv⟩ := hr
    obtain ⟨disk, tables, hres, -, hframe⟩ := h.startFails g v j
    show Untouched g u i s (unlockSentence (removeWriteSession s g v j) g j v).1
    rw [hres]
    exact ⟨rfl, hframe _ (hmain v j), hframe _ (hcopy v j hv), find?_eraseP_isSession hv.symm _, rfl⟩
  | unlockSentence g v j => exact absurd hr id
  | undo g => exact absurd hr id

/-- The state of a session after the writes `ws`. -/
structure WriteSessionInv (f : Filename) (u : Username) (i : Int32) (m : CStr) (ws : List SessionWrite)
    (s : StorageServer) : Prop where
  server : ServerInv s
  main : s.disk (s.path f) = some m
  idle : s.pendingOf f = []
  session : ∃ w, getWriteSession s f u i = some w ∧ w.originalSentenceCount = (cores m).length
  copy : ∃ text, s.disk (tempPath s.id f u i) = some text ∧ CopyInv m i.toInt.toNat ws text

/-- A session whose copy is written. -/
theorem WriteSessionInv.of_disk {f : Filename} {u : Username} {i : Int32} {m text : CStr} {ws ws' : List SessionWrite}
    {s : StorageServer} {disk : Disk} (h : WriteSessionInv f u i m ws s)
    (hmain : disk (s.path f) = s.disk (s.path f)) (htext : disk (tempPath s.id f u i) = some text)
    (hcopy : CopyInv m i.toInt.toNat ws' text) : WriteSessionInv f u i m ws' { s with disk := disk } :=
  ⟨⟨h.server.sessions, h.server.held⟩, hmain.trans h.main, h.idle, h.session, text, htext, hcopy⟩

theorem sentenceCount_eq_length_cores (text : CStr) :
    (parseContent text).sentenceCount = (cores text).length := by
  rw [sentenceCount_parseContent, ← cores_parseContent, List.length_map]

theorem ne_nil_of_length_cores {text : CStr} (h : 0 < (cores text).length) : text ≠ [] := by
  rintro rfl
  exact absurd h (by decide)

theorem cores_ne_nil {text : CStr} (h : text ≠ []) : 0 < (cores text).length := by
  by_contra hlen
  have hnil : cores text = [] := List.length_eq_zero_iff.mp (by omega)
  have hflat := flatten_segments (p := isDelimiter) text
  rw [show segments isDelimiter text = [] from List.map_eq_nil_iff.mp hnil] at hflat
  exact h hflat.symm

/-- A lock is only given on a sentence, or behind the last one. -/
theorem index_of_lock {m : CStr} {i : Int} (h : lockIndexInvalid (some (parseContent m)) i = false) :
    0 ≤ i ∧ i ≤ (cores m).length := by
  unfold lockIndexInvalid at h
  rw [← sentenceCount_eq_length_cores]
  simp only [Option.map_some, Option.getD_some] at h
  split at h
  · simp at h
    omega
  · split at h
    · cases h
    · omega

theorem WriteSessionInv.lock {f : Filename} {u : Username} {i : Int32} {m : CStr} {s t : StorageServer} {io : Io}
    (h : ServerInv s) (hidle : s.pendingOf f = []) (hm : s.disk (s.path f) = some m)
    (hread : io.canRead (s.path f) = true)
    (hlock : handleClientRequest io s (.lockSentence f u i) = (t, SUCCESS)) :
    WriteSessionInv f u i m [] t ∧ 0 ≤ i.toInt ∧ i.toInt ≤ (cores m).length := by
  have hinv := h.lock io f u i
  obtain ⟨disk, tables, ws, hres, -, -, hframe, -, -, hsuccess⟩ := h.lock_spec io f u i
  rw [hlock] at hinv hres hsuccess
  obtain rfl : t = _ := hres
  have hmain : readFile io s.disk (s.path f) = some m := by rw [readFile, if_pos hread, hm]
  obtain ⟨hindex, hcopy, w, hw, hcount⟩ := hsuccess rfl
  rw [parseFile_of_readFile hmain] at hindex
  rw [hmain, Option.getD_some] at hcopy
  have hi := index_of_lock hindex
  refine ⟨⟨hinv, ?_, hidle, ⟨w, hw, ?_⟩, m, hcopy, CopyInv.init fun hpos => ?_⟩, hi⟩
  · rw [← hm]
    exact hframe _ (tempPath_ne_filePath s.id f u i).symm
  · rw [hcount, countAtStart, parseFile_of_readFile hmain, Option.map_some, Option.getD_some,
      sentenceCount_eq_length_cores]
  · exact ne_nil_of_length_cores (by omega)

/-- The content that `write_file_ss` inserts into. -/
theorem parseTemp_cases {io : Io} {disk : Disk} {path : Path} {text : CStr}
    (h : readFile io disk path = some text) :
    parseTemp io disk path = parseContent text ∨ text = [] ∧ parseTemp io disk path = ⟨[[]], 1⟩ := by
  unfold parseTemp
  rw [parseFile_of_readFile h]
  simp only
  split
  · rename_i hzero
    refine Or.inr ⟨?_, rfl⟩
    by_contra hne
    rw [sentenceCount_eq_length_cores] at hzero
    exact absurd (cores_ne_nil hne) (by omega)
  · exact Or.inl rfl

section
variable {f : Filename} {u : Username} {i : Int32} {m : CStr} {ws : List SessionWrite} {s t : StorageServer}

theorem WriteSessionInv.nonneg (h : WriteSessionInv f u i m ws s) : 0 ≤ i.toInt := by
  obtain ⟨x, hx, -⟩ := h.session
  obtain ⟨hmem, hkey⟩ := mem_of_getWriteSession hx
  have hi := h.server.nonneg hmem
  rwa [show x.sentenceIdx = i from (Prod.mk.inj (Prod.mk.inj hkey).2).2] at hi

/-- **Others leave the session and the file alone.** -/
theorem WriteSessionInv.untouched (h : WriteSessionInv f u i m ws s) (hserver : ServerInv t)
    (huntouched : Untouched f u i s t) : WriteSessionInv f u i m ws t := by
  obtain ⟨text, htext, hcopy⟩ := h.copy
  obtain ⟨hid, hmain, hcopy', hsession, hidle⟩ := huntouched
  have hpath : t.path f = s.path f := by rw [StorageServer.path, StorageServer.path, hid]
  refine ⟨hserver, ?_, hidle.trans h.idle, ?_, text, ?_, hcopy⟩
  · rw [hpath, hmain, h.main]
  · rw [hsession]
    exact h.session
  · rw [hid, hcopy', htext]

/-- **An acknowledged write** of a server that can read the copy. -/
theorem WriteSessionInv.written (h : WriteSessionInv f u i m ws s) {io : Io} {w : SessionWrite}
    (hread : io.canRead (tempPath s.id f u i) = true) (hwords : w.words = lockedWords s f u i)
    (ht : handleClientRequest io s (.write f u i w.wordIdx w.content) = (t, SUCCESS)) :
    WriteSessionInv f u i m (ws ++ [w]) t := by
  obtain ⟨text, htext, hcopy⟩ := h.copy
  have hi := h.nonneg
  have hres : writeFileSs io s f u i w.wordIdx w.content = (t, SUCCESS) := ht
  rcases writeFileSs_cases io s f u i w.wordIdx w.content with ⟨-, hfail⟩ | ⟨v, fc, k, hget, hinsert, hwrite⟩
  · rw [hres] at hfail
    exact absurd rfl hfail
  · obtain ⟨hmem, hkey⟩ := mem_of_getWriteSession hget
    rw [h.server.sessions.temp_eq hmem hkey] at hinsert hwrite
    obtain rfl : t = _ := (Prod.mk.inj (hres.symm.trans hwrite)).1
    have hreadCopy : readFile io s.disk (tempPath s.id f u i) = some text := by
      rw [readFile, if_pos hread, htext]
    obtain ⟨j, hj, s₁, s₂, hs, htext', hlast, hend, hne⟩ :=
      insert_text (parseTemp_cases hreadCopy) (fun hone => hcopy.nonempty (by omega)) hinsert
    obtain rfl : i.toInt.toNat = j := by omega
    have hne' : s.path f ≠ tempPath s.id f u i := (tempPath_ne_filePath s.id f u i).symm
    refine h.of_disk (Function.update_of_ne hne' _ _) (Function.update_self ..) ?_
    refine hcopy.write hs htext' ?_ hend hne
    rw [hlast, hwords, lockedWords, htext]
    rfl

/-- An unlock that succeeds has committed. -/
theorem commit_of_unlock {io : Io} {s t : StorageServer} {f : Filename} {u : Username} {i : Int32}
    (h : handleClientRequest io s (.unlockSentence f u i) = (t, SUCCESS)) :
    (commitWriteSession io s f u i).2 = SUCCESS ∧
      t = (unlockSentence (commitWriteSession io s f u i).1 f i u).1 := by
  unfold handleClientRequest at h
  simp only at h
  split at h
  · rename_i hsuccess
    exact ⟨hsuccess, (congrArg Prod.fst h).symm⟩
  · rename_i hfail
    exact absurd (Prod.mk.inj h).2 hfail

/-- **After the unlock the file has the text of the copy if and only if no write strays and the session is not behind
the last sentence.** -/
theorem WriteSessionInv.unlocked (h : WriteSessionInv f u i m ws s) (hle : i.toInt ≤ (cores m).length) {io : Io}
    {text : CStr}
    (hopens : io.canRead (s.path f) = true ∧ io.canWrite (s.path f) = true ∧ io.canRead (tempPath s.id f u i) = true)
    (htext : s.disk (tempPath s.id f u i) = some text)
    (ht : handleClientRequest io s (.unlockSentence f u i) = (t, SUCCESS)) :
    ∃ m', t.disk (s.path f) = some m' ∧
      (nonBlank m' = nonBlank text ↔ Kept (parseContent m).sentenceCount i.toInt.toNat ws) := by
  obtain ⟨text', htext', hcopy⟩ := h.copy
  obtain rfl : text = text' := Option.some.inj (htext.symm.trans htext')
  obtain ⟨x, hget, hcount⟩ := h.session
  obtain ⟨hmem, hkey⟩ := mem_of_getWriteSession hget
  have hi := h.nonneg
  have hread : readFile io s.disk x.tempFilepath = some text := by
    rw [h.server.sessions.temp_eq hmem hkey, readFile, if_pos hopens.2.2, htext]
  obtain ⟨-, m', hm', -, hmerge⟩ := h.server.commit_spec (u := u) (i := i) h.idle h.main hopens.1 hopens.2.1
  obtain ⟨hsuccess, rfl⟩ := commit_of_unlock ht
  obtain ⟨tables, hunlocked, -⟩ := unlockSentence_spec (commitWriteSession io s f u i).1 f i u
  refine ⟨m', by rw [hunlocked]; exact hm', ?_⟩
  obtain ⟨-, hcores⟩ := (hmerge x text hget hread).resolve_right fun hfail => hfail.1 hsuccess
  have hplace : i.toInt = (i.toInt.toNat : Int) := by omega
  rw [← flatten_cores m', hcores, hcount, hplace, sentenceCount_eq_length_cores]
  exact hcopy.commit (by omega)

end

/-! ## A session on the first of two sentences -/

theorem eq_of_status {io : Io} {s : StorageServer} {r : Request} (h : (handleClientRequest io s r).2 = SUCCESS) :
    handleClientRequest io s r = ((handleClientRequest io s r).1, SUCCESS) := Prod.ext rfl h

/-- Alice has locked the first sentence. -/
def aliceLocked : StorageServer :=
  (handleClientRequest .allOpens (serverWith (lit "A. B.")) (.lockSentence notes alice 0)).1

/-- Alice has written `content`. -/
def aliceWrote (wordIdx : Int32) (content : CStr) : StorageServer :=
  (handleClientRequest .allOpens aliceLocked (.write notes alice 0 wordIdx content)).1

end NetworkFileShare
