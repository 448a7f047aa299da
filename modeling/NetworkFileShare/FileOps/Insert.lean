import NetworkFileShare.FileOps.Parse
import Mathlib.Data.List.GetD

/-!
# Inserting words (`file_ops.c`: `split_by_delimiters`, `insert_word_in_sentence`)

* `splitByDelimiters` : the tokens of an inserted text;
* `insertWordInSentence` : they are put into a sentence before a word, and the sentence is cut after their
  last delimiter when something follows it;
* `insertWord_cases` : where the text goes, the non-blank bytes of the sentence up to some point, those of
  the text and the others; `insertPoint_last` : when it goes behind all the words.
-/

namespace NetworkFileShare

/-! ## `split_by_delimiters` -/

/-- The loop of `split_by_delimiters`: the parts, the word and the run of blanks being collected. The arrays
of the word and of the parts are taken as large enough; `splitMemory` has their stores and their sizes. -/
structure SplitState where
  parts : List Token
  buffer : CStr
  spaceBuf : CStr
  deriving DecidableEq

namespace SplitState

def init : SplitState := ⟨[], [], []⟩

/-- `if (buf_idx > 0)`. -/
def flushBuffer (st : SplitState) : SplitState :=
  if st.buffer = [] then st else { st with parts := st.parts ++ [st.buffer], buffer := [] }

def flushSpaces (st : SplitState) : SplitState :=
  if st.spaceBuf = [] then st else { st with parts := st.parts ++ [st.spaceBuf], spaceBuf := [] }

def addPart (st : SplitState) (t : Token) : SplitState := { st with parts := st.parts ++ [t] }

/-- One byte. -/
def splitChar (st : SplitState) (c : CChar) : SplitState :=
  if isSpaceChar c then
    let st := st.flushBuffer
    if st.spaceBuf.length < MAX_WORD - 1 then { st with spaceBuf := st.spaceBuf ++ [c] } else st
  else
    let st := st.flushSpaces
    if c = newline then st.flushBuffer.addPart [newline]
    else if isDelimiter c then st.flushBuffer.addPart [c]
    else { st with buffer := st.buffer ++ [c] }

end SplitState

/-- `split_by_delimiters`. -/
def splitByDelimiters (word : CStr) : List Token :=
  (word.foldl SplitState.splitChar .init).flushSpaces.flushBuffer.parts

/-! ## `insert_word_in_sentence` -/

/-- A new empty sentence at the end, for an index just behind the last one. It does not count when the file
was one empty sentence. -/
def FileContent.openSlot (fc : FileContent) (sentIdx : Nat) : FileContent :=
  if sentIdx = fc.sentenceCount then
    { sentences := fc.sentences.take fc.sentenceCount ++ [[]]
      sentenceCount := if fc.sentenceCount = 1 ∧ fc.sentences.head? = some [] then fc.sentenceCount
        else fc.sentenceCount + 1 }
  else fc

/-- `real_word_count`. -/
def realWordCount (s : Sentence) : Nat := s.countP fun t => !shouldSkipForIndexing t

/-- The search for the word `target`, from the word at `i` on: `real_words_seen` and `actual_idx`. -/
def findWord (target : Nat) : (i seen : Nat) → Sentence → Nat × Nat
  | _, seen, [] => (seen, 0)
  | i, seen, t :: ts =>
    if shouldSkipForIndexing t then findWord target (i + 1) seen ts
    else if seen + 1 = target then (seen + 1, i + 1)
    else findWord target (i + 1) (seen + 1) ts

/-- `actual_idx`: the place among all tokens where the word `wordIdx` is to stand. -/
def insertPoint (s : Sentence) (wordIdx : Nat) : Nat :=
  if wordIdx = 1 then 0
  else
    let found := findWord (wordIdx - 1) 0 0 s
    if found.1 = realWordCount s ∧ wordIdx = realWordCount s + 1 then s.length else found.2

/-- The sentence being filled and the one that takes what follows the cut. -/
structure Insertion where
  cur : Sentence
  next : Sentence
  inNew : Bool
  pos : Nat
  deriving DecidableEq

/-- One part; `split` says that the sentence is cut behind it. -/
def insertPart (split : Bool) (st : Insertion) (part : Token) : Insertion :=
  if st.inNew then
    { st with next := st.next.take st.pos ++ part :: st.next.drop st.pos, pos := st.pos + 1 }
  else
    let cur := st.cur.take st.pos ++ part :: st.cur.drop st.pos
    let pos := st.pos + 1
    if split then { cur := cur.take pos, next := st.next ++ cur.drop pos, inNew := true, pos := 0 }
    else { st with cur := cur, pos := pos }

/-- `last_delimiter_idx` of the parts from `i` on. -/
def lastDelimiterIdx : (i : Nat) → List Token → Option Nat
  | _, [] => none
  | i, t :: ts =>
    match lastDelimiterIdx (i + 1) ts with
    | some l => some l
    | none => if startsWithDelimiter t then some i else none

/-- `should_split`: the part is the last delimiter and something follows it. -/
def shouldSplit (parts : List Token) (i : Nat) : Bool :=
  lastDelimiterIdx 0 parts = some i && i < parts.length - 1

/-- The loop over the parts from `i` on. -/
def insertParts (split : Nat → Bool) : (i : Nat) → List Token → Insertion → Insertion
  | _, [], st => st
  | i, part :: parts, st => insertParts split (i + 1) parts (insertPart (split i) st part)

/-- The number of sentences an insertion creates. -/
def newSentences (parts : List Token) : Nat :=
  (if ((lastDelimiterIdx 0 parts).any fun l => l < parts.length - 1) then 1 else 0) +
    parts.countP startsWithDelimiter

/-- `insert_word_in_sentence`: the content and the number of new sentences, `none` for `-1`. -/
def insertWordInSentence (fc : FileContent) (sentIdx wordIdx : Int) (word : CStr) :
    Option (FileContent × Nat) :=
  if sentIdx < 0 ∨ sentIdx > fc.sentenceCount then none
  else
    let i := sentIdx.toNat
    let fc := fc.openSlot i
    let sent := fc.sentences.getD i []
    if wordIdx < 1 ∨ wordIdx > realWordCount sent + 1 then none
    else
      let parts := splitByDelimiters word
      if parts = [] then some (fc, 0)
      else
        let created := newSentences parts
        let slots := fc.sentences.take (i + 1) ++ List.replicate created [] ++ fc.sentences.drop (i + 1)
        let done := insertParts (shouldSplit parts) 0 parts
          ⟨sent, [], false, insertPoint sent wordIdx.toNat⟩
        let slots := slots.set i done.cur
        let slots := if done.inNew then slots.set (i + 1) done.next else slots
        some (⟨slots, fc.sentenceCount + created⟩, created)

/-! ## The parts of a text -/

namespace SplitState

/-- The state after the bytes `l`. -/
structure Split (l : CStr) (st : SplitState) : Prop where
  bytes : core st.parts ++ nonBlank st.buffer = nonBlank l
  blanks : ∀ c ∈ st.spaceBuf, isSpaceChar c = true

theorem Split.flushBuffer {l : CStr} {st : SplitState} (h : Split l st) : Split l st.flushBuffer := by
  unfold SplitState.flushBuffer
  split
  · exact h
  · exact ⟨by simpa using h.bytes, h.blanks⟩

theorem Split.flushSpaces {l : CStr} {st : SplitState} (h : Split l st) : Split l st.flushSpaces := by
  unfold SplitState.flushSpaces
  split
  · exact h
  · have hb := nonBlank_eq_nil fun c hc => isBlank_of_isSpaceChar (h.blanks c hc)
    exact ⟨by simpa [hb] using h.bytes, by simp⟩

theorem flushBuffer_buffer (st : SplitState) : st.flushBuffer.buffer = [] := by
  unfold SplitState.flushBuffer
  split
  · assumption
  · rfl

theorem Split.step {l : CStr} {st : SplitState} (h : Split l st) (c : CChar) :
    Split (l ++ [c]) (st.splitChar c) := by
  unfold splitChar
  split
  · rename_i hs
    have hb : nonBlank [c] = [] := nonBlank_eq_nil fun d hd => by
      rw [List.mem_singleton.mp hd]
      exact isBlank_of_isSpaceChar hs
    have hw := h.flushBuffer
    simp only
    split
    · exact ⟨by simpa [hb] using hw.bytes, Segment.forall_mem_snoc hw.blanks hs⟩
    · exact ⟨by simpa [hb] using hw.bytes, hw.blanks⟩
  · have hf := h.flushSpaces
    have hfw := hf.flushBuffer
    have hbuf := flushBuffer_buffer st.flushSpaces
    have hbytes := hfw.bytes
    rw [hbuf, nonBlank_nil, List.append_nil] at hbytes
    simp only
    split
    · rename_i hn
      subst hn
      exact ⟨by simp [addPart, hbuf, hbytes], hfw.blanks⟩
    · split
      · exact ⟨by simp [addPart, hbuf, hbytes], hfw.blanks⟩
      · refine ⟨?_, hf.blanks⟩
        simp only [nonBlank_append, ← List.append_assoc, hf.bytes]

theorem split_foldl (word : CStr) : Split word (word.foldl splitChar .init) := by
  induction word using List.reverseRecOn with
  | nil => exact ⟨rfl, by simp [init]⟩
  | append_singleton l c ih =>
    rw [List.foldl_append]
    exact ih.step c

end SplitState

/-- **The parts have the non-blank bytes of the text.** -/
theorem core_splitByDelimiters (word : CStr) : core (splitByDelimiters word) = nonBlank word := by
  have h := (SplitState.split_foldl word).flushSpaces.flushBuffer.bytes
  rwa [SplitState.flushBuffer_buffer, nonBlank_nil, List.append_nil] at h

/-! ## Where the parts go -/

/-- The parts stand together in the sentence and the one behind it, wherever the cut is. -/
theorem insertParts_spec (split : Nat → Bool) (s : Sentence) {a : Nat} (ha : a ≤ s.length) :
    ∀ (parts : List Token) (i : Nat) (st : Insertion) (ps : List Token),
      (st.inNew = false ∧ st.next = [] ∧ st.cur = s.take a ++ ps ++ s.drop a ∧ st.pos = a + ps.length ∨
        st.inNew = true ∧ ∃ p1 p2, ps = p1 ++ p2 ∧ st.cur = s.take a ++ p1 ∧
          st.next = p2 ++ s.drop a ∧ st.pos = p2.length) →
      let st' := insertParts split i parts st
      (st'.inNew = false → st'.next = []) ∧
        st'.cur ++ st'.next = s.take a ++ (ps ++ parts) ++ s.drop a
  | [], _, st, ps, h => by
    rcases h with ⟨hin, hnext, hcur, -⟩ | ⟨hin, p1, p2, rfl, hcur, hnext, -⟩
    · simp [insertParts, hcur, hnext]
    · simp [insertParts, hcur, hnext, hin]
  | part :: parts, i, st, ps, h => by
    have hlen : (s.take a).length = a := by simp [ha]
    rw [insertParts, show ps ++ part :: parts = ps ++ [part] ++ parts by simp]
    refine insertParts_spec split s ha parts (i + 1) _ (ps ++ [part]) ?_
    rcases h with ⟨hin, hnext, hcur, hpos⟩ | ⟨hin, p1, p2, rfl, hcur, hnext, hpos⟩
    · -- still in the old sentence, the parts so far end at `pos`
      have htake : st.cur.take st.pos = s.take a ++ ps := by
        rw [hcur, List.take_left' (by simp [hlen, hpos])]
      have hdrop : st.cur.drop st.pos = s.drop a := by
        rw [hcur, List.drop_left' (by simp [hlen, hpos])]
      have hcur' : st.cur.take st.pos ++ part :: st.cur.drop st.pos =
          (s.take a ++ (ps ++ [part])) ++ s.drop a := by
        rw [htake, hdrop]; simp
      have hlen' : (s.take a ++ (ps ++ [part])).length = st.pos + 1 := by
        simp [hlen, hpos]; omega
      unfold insertPart
      simp only [hin, Bool.false_eq_true, if_false, hcur']
      by_cases hsplit : split i = true
      · right
        simp only [hsplit, if_true, true_and]
        exact ⟨ps ++ [part], [], by simp, by rw [List.take_left' hlen'],
          by rw [List.drop_left' hlen', hnext], rfl⟩
      · left
        simp only [hsplit]
        refine ⟨by simp, by simp [hnext], by simp, ?_⟩
        simp [hpos]; omega
    · right
      have htake : st.next.take st.pos = p2 := by rw [hnext, List.take_left' hpos.symm]
      have hdrop : st.next.drop st.pos = s.drop a := by rw [hnext, List.drop_left' hpos.symm]
      unfold insertPart
      simp only [hin, if_true, true_and]
      exact ⟨p1, p2 ++ [part], by simp, hcur, by rw [htake, hdrop]; simp, by simp [hpos]⟩

theorem findWord_le (target : Nat) : ∀ (s : Sentence) (i seen : Nat),
    (findWord target i seen s).2 ≤ i + s.length
  | [], _, _ => by simp [findWord]
  | t :: ts, i, seen => by
    unfold findWord
    have h1 := findWord_le target ts (i + 1) seen
    have h2 := findWord_le target ts (i + 1) (seen + 1)
    simp only [List.length_cons]
    split
    · omega
    · split
      · simp
      · omega

theorem insertPoint_le (s : Sentence) (wordIdx : Nat) : insertPoint s wordIdx ≤ s.length := by
  unfold insertPoint
  split
  · omega
  · have := findWord_le (wordIdx - 1) s 0 0
    simp only
    split
    · exact le_rfl
    · omega

/-- A second sentence is only begun where the parts are to be cut. -/
theorem inNew_insertParts (split : Nat → Bool) : ∀ (parts : List Token) (i : Nat) (st : Insertion),
    st.inNew = false → (insertParts split i parts st).inNew = true → ∃ j, split j = true
  | [], _, st, hst, h => by
    rw [insertParts, hst] at h
    cases h
  | part :: parts, i, st, hst, h => by
    by_cases hs : split i = true
    · exact ⟨i, hs⟩
    · refine inNew_insertParts split parts (i + 1) _ ?_ h
      simp [insertPart, hst, hs]

/-! ## Words and blanks -/

/-- A token of a parsed file is skipped for indexing if and only if it is white space. -/
theorem shouldSkip_iff {t : Token} (h : TokenOk t) : shouldSkipForIndexing t = true ↔ nonBlank t = [] := by
  obtain ⟨hne, hnl | hsp | hw⟩ := h
  · subst hnl
    decide
  · have hskip : isSpaceToken t = true := by simpa [isSpaceToken, hne] using hsp
    simp [shouldSkipForIndexing, hskip, nonBlank_eq_nil fun c hc => isBlank_of_isSpaceChar (hsp c hc)]
  · obtain ⟨c, cs, rfl⟩ := List.exists_cons_of_ne_nil hne
    have hc := hw c List.mem_cons_self
    have hs : isSpaceChar c = false := by
      by_contra hs
      rw [isBlank_of_isSpaceChar (by simpa using hs)] at hc
      cases hc
    have hn : c ≠ newline := by
      rintro rfl
      exact absurd hc (by decide)
    rw [nonBlank_eq_self hw]
    simp [shouldSkipForIndexing, isSpaceToken, isNewlineToken, hs, hn]

theorem core_eq_nil_iff {s : Sentence} (h : ∀ t ∈ s, TokenOk t) : core s = [] ↔ realWordCount s = 0 := by
  induction s with
  | nil => simp [realWordCount]
  | cons t ts ih =>
    have ih := ih fun u hu => h u (List.mem_cons_of_mem _ hu)
    have ht := shouldSkip_iff (h t List.mem_cons_self)
    rw [core_cons, List.append_eq_nil_iff, ih, ← ht, realWordCount, realWordCount, List.countP_cons]
    by_cases hskip : shouldSkipForIndexing t = true <;> simp [hskip]

theorem realWordCount_take_add_drop (s : Sentence) (a : Nat) :
    realWordCount (s.take a) + realWordCount (s.drop a) = realWordCount s := by
  rw [realWordCount, realWordCount, ← List.countP_append, List.take_append_drop, realWordCount]

/-- The search stops behind the word it looks for. -/
theorem findWord_found {target : Nat} : ∀ (s : Sentence) (i seen : Nat), seen < target →
    target ≤ seen + realWordCount s →
    ∃ pre t post, s = pre ++ t :: post ∧ findWord target i seen s = (target, i + pre.length + 1) ∧
      shouldSkipForIndexing t = false ∧ seen + realWordCount pre + 1 = target
  | [], i, seen, h1, h2 => by
    rw [realWordCount, List.countP_nil] at h2
    omega
  | t :: ts, i, seen, h1, h2 => by
    unfold findWord
    by_cases hskip : shouldSkipForIndexing t = true
    · have hcount : ∀ us : Sentence, realWordCount (t :: us) = realWordCount us := fun us => by
        simp [realWordCount, hskip]
      rw [hcount] at h2
      obtain ⟨pre, u, post, rfl, hfound, hu, hpre⟩ := findWord_found ts (i + 1) seen h1 h2
      refine ⟨t :: pre, u, post, rfl, ?_, hu, ?_⟩
      · rw [if_pos hskip, hfound, List.length_cons]
        congr 1
        omega
      · rw [hcount, hpre]
    · have hcount : ∀ us : Sentence, realWordCount (t :: us) = realWordCount us + 1 := fun us => by
        simp [realWordCount, hskip]
      rw [if_neg hskip]
      by_cases htarget : seen + 1 = target
      · exact ⟨[], t, ts, rfl, by rw [if_pos htarget, htarget]; rfl, Bool.not_eq_true _ ▸ hskip, htarget⟩
      · rw [hcount] at h2
        have hlt : seen + 1 < target := by omega
        have hle : target ≤ seen + 1 + realWordCount ts := by omega
        obtain ⟨pre, u, post, rfl, hfound, hu, hpre⟩ := findWord_found ts (i + 1) (seen + 1) hlt hle
        refine ⟨t :: pre, u, post, rfl, ?_, hu, ?_⟩
        · rw [if_neg htarget, hfound, List.length_cons]
          congr 1
          omega
        · rw [hcount]
          omega

theorem findWord_spec {target : Nat} {s : Sentence} {i seen : Nat} (h1 : seen < target)
    (h2 : target ≤ seen + realWordCount s) :
    ∃ j, findWord target i seen s = (target, i + j) ∧ seen + realWordCount (s.take j) = target := by
  obtain ⟨pre, t, post, rfl, hfound, ht, hpre⟩ := findWord_found s i seen h1 h2
  refine ⟨pre.length + 1, hfound, ?_⟩
  rw [List.append_cons pre t post, List.take_left' (by rw [List.length_append, List.length_singleton])]
  simp [realWordCount, List.countP_append, ht] at hpre ⊢
  omega

/-- The words behind the insertion point are those from the given index on. -/
theorem realWordCount_drop_insertPoint {s : Sentence} {wordIdx : Nat} (h1 : 1 ≤ wordIdx)
    (h2 : wordIdx ≤ realWordCount s + 1) :
    (wordIdx - 1) + realWordCount (s.drop (insertPoint s wordIdx)) = realWordCount s := by
  unfold insertPoint
  split
  · rename_i hw
    simp [hw]
  · rename_i hw
    obtain ⟨j, hj, hseen⟩ := @findWord_spec (wordIdx - 1) s 0 0 (by omega) (by omega)
    simp only [hj]
    split
    · rename_i hlast
      rw [List.drop_length]
      simp only [realWordCount, List.countP_nil]
      simp only [realWordCount] at hlast
      omega
    · have := realWordCount_take_add_drop s j
      rw [Nat.zero_add]
      omega

/-- **The text goes behind all the words exactly for the index behind the last one.** -/
theorem insertPoint_last {s : Sentence} {wordIdx : Nat} (hs : ∀ t ∈ s, TokenOk t) (h1 : 1 ≤ wordIdx)
    (h2 : wordIdx ≤ realWordCount s + 1) :
    core (s.drop (insertPoint s wordIdx)) = [] ↔ wordIdx = realWordCount s + 1 := by
  have h := realWordCount_drop_insertPoint h1 h2
  rw [core_eq_nil_iff fun t ht => hs t (List.mem_of_mem_drop ht)]
  omega

/-! ## What an insertion does -/

theorem core_flatten : ∀ X : List Sentence, core X.flatten = (X.map core).flatten
  | [] => rfl
  | s :: X => by rw [List.flatten_cons, core_append, core_flatten X, List.map_cons, List.flatten_cons]

/-- The slots once the index is one of them. -/
theorem openSlot_eq {fc : FileContent} {i : Nat} (hcount : fc.sentenceCount = fc.sentences.length)
    (hi : i ≤ fc.sentences.length) (hspecial : ¬ (fc.sentences = [[]] ∧ i = 1)) :
    (fc.openSlot i).sentences =
        fc.sentences.take i ++ fc.sentences.getD i [] :: fc.sentences.drop (i + 1) ∧
      (fc.openSlot i).sentenceCount = (fc.openSlot i).sentences.length := by
  unfold FileContent.openSlot
  split
  · rename_i he
    have hlen : i = fc.sentences.length := he.trans hcount
    have hempty : ¬ (fc.sentenceCount = 1 ∧ fc.sentences.head? = some []) := by
      rintro ⟨h1, h2⟩
      refine hspecial ⟨?_, he.trans h1⟩
      obtain ⟨s, hs⟩ := List.length_eq_one_iff.mp (hcount ▸ h1)
      rw [hs] at h2 ⊢
      simpa using h2
    subst hlen
    refine ⟨?_, ?_⟩
    · rw [hcount]
      simp
    · rw [if_neg hempty]
      simp [hcount]
  · rename_i hne
    have hlt : i < fc.sentences.length := by omega
    refine ⟨?_, hcount⟩
    rw [List.getD_eq_getElem _ _ hlt]
    rw [List.getElem_cons_drop, List.take_append_drop]

/-- The sentence at an index that is opened, or one that was there. -/
theorem getD_openSlot {fc : FileContent} {i : Nat} (hcount : fc.sentenceCount = fc.sentences.length)
    (hi : i ≤ fc.sentences.length) (hspecial : ¬ (fc.sentences = [[]] ∧ i = 1)) :
    (fc.openSlot i).sentences.getD i [] = fc.sentences.getD i [] := by
  have hlen : (fc.sentences.take i).length = i := List.length_take_of_le hi
  rw [(openSlot_eq hcount hi hspecial).1, List.getD_eq_getElem?_getD, List.getElem?_append_right hlen.le]
  simp [hlen]

section Slots

variable {α : Type*} {pre new post : List α} {x y z : α} {i : Nat}

/-- New slots behind the one at `i`. -/
theorem open_behind (hi : pre.length = i) :
    (pre ++ x :: post).take (i + 1) ++ new ++ (pre ++ x :: post).drop (i + 1) = pre ++ x :: new ++ post := by
  have hlen : (pre ++ [x]).length = i + 1 := by rw [List.length_append, hi, List.length_singleton]
  rw [List.append_cons pre x post, List.take_left' hlen, List.drop_left' hlen, List.append_cons pre x new]

theorem set_slot (hi : pre.length = i) : (pre ++ x :: new ++ post).set i y = pre ++ y :: new ++ post := by
  rw [List.append_assoc, List.set_append_right _ _ hi.le, hi, Nat.sub_self, List.cons_append, List.set_cons_zero,
    ← List.cons_append, ← List.append_assoc]

theorem set_next (hi : pre.length = i) :
    (pre ++ x :: z :: new ++ post).set (i + 1) y = pre ++ x :: y :: new ++ post := by
  have hlen : (pre ++ [x]).length = i + 1 := by rw [List.length_append, hi, List.length_singleton]
  rw [List.append_cons pre x (z :: new), set_slot hlen, ← List.append_cons]

/-- A list is what comes before an index, what stands there and what comes after it. -/
theorem flatten_at (L : List (List α)) (i : Nat) :
    L.flatten = (L.take i).flatten ++ L.getD i [] ++ (L.drop (i + 1)).flatten := by
  by_cases hi : i < L.length
  · conv_lhs => rw [← List.take_append_drop i L, List.drop_eq_getElem_cons hi]
    rw [List.flatten_append, List.flatten_cons, List.getD_eq_getElem _ _ hi, List.append_assoc]
  · rw [List.take_of_length_le (by omega), List.getD_eq_default _ _ (by omega),
      List.drop_of_length_le (by omega)]
    simp

end Slots

/-- The last delimiter is found when there is one. -/
theorem lastDelimiterIdx_eq_none_iff : ∀ (ts : List Token) (i : Nat),
    lastDelimiterIdx i ts = none ↔ ts.countP startsWithDelimiter = 0
  | [], _ => iff_of_true rfl rfl
  | t :: ts, i => by
    have hrest := lastDelimiterIdx_eq_none_iff ts (i + 1)
    rw [lastDelimiterIdx, List.countP_cons]
    cases hlast : lastDelimiterIdx (i + 1) ts with
    | some l =>
      rw [hlast] at hrest
      have hne : ts.countP startsWithDelimiter ≠ 0 := mt hrest.mpr (Option.some_ne_none l)
      exact iff_of_false (Option.some_ne_none l) (by omega)
    | none =>
      rw [hrest.mp hlast]
      by_cases ht : startsWithDelimiter t = true <;> simp [ht]

/-- The parts stand at the insertion point; only a sentence that is cut leaves something for the slot behind it, and
there is a slot more for it then. -/
theorem insertParts_done (s : Sentence) (w : Nat) {parts : List Token} {done : Insertion}
    (hdone : insertParts (shouldSplit parts) 0 parts ⟨s, [], false, insertPoint s w⟩ = done) :
    done.cur ++ done.next = s.take (insertPoint s w) ++ parts ++ s.drop (insertPoint s w) ∧
      (done.inNew = false → done.next = []) ∧
      (done.inNew = true → newSentences parts = parts.countP startsWithDelimiter + 1 ∧
        parts.countP startsWithDelimiter ≠ 0) := by
  obtain ⟨hnext, hjoin⟩ := insertParts_spec (shouldSplit parts) s (insertPoint_le s w) parts 0
    ⟨s, [], false, insertPoint s w⟩ [] (Or.inl ⟨rfl, rfl, by simp, rfl⟩)
  rw [hdone] at hnext hjoin
  refine ⟨hjoin, hnext, fun hin => ?_⟩
  rw [← hdone] at hin
  obtain ⟨j, hj⟩ := inNew_insertParts (shouldSplit parts) parts 0 ⟨s, [], false, insertPoint s w⟩ rfl hin
  simp only [shouldSplit, Bool.and_eq_true, decide_eq_true_eq] at hj
  constructor
  · rw [newSentences, hj.1]
    simp [hj.2, Nat.add_comm]
  · rw [ne_eq, ← lastDelimiterIdx_eq_none_iff parts 0, hj.1]
    exact Option.some_ne_none j

theorem tokenOk_getD {ss : List Sentence} (h : ∀ s ∈ ss, ∀ t ∈ s, TokenOk t) (i : Nat) :
    ∀ t ∈ ss.getD i [], TokenOk t := by
  intro t ht
  rw [List.getD_eq_getElem?_getD] at ht
  cases hget : ss[i]? with
  | none => simp [hget] at ht
  | some u =>
    rw [hget] at ht
    exact h u (List.mem_of_getElem? hget) t ht

/-- What an insertion makes of a content: the sentence `i` holds the parts before its word `w`, up to some new sentences
behind it; one of these is empty if the text has a delimiter, and there is none otherwise. -/
structure Inserted (fc : FileContent) (i w : Nat) (word : CStr) (fc' : FileContent) (cur : Sentence)
    (mid : List Sentence) : Prop where
  index : i ≤ fc.sentences.length
  first : 1 ≤ w
  last : w ≤ realWordCount (fc.sentences.getD i []) + 1
  count : fc'.sentenceCount = fc'.sentences.length
  slots : fc'.sentences = fc.sentences.take i ++ cur :: mid ++ fc.sentences.drop (i + 1)
  tokens : cur ++ mid.flatten = (fc.sentences.getD i []).take (insertPoint (fc.sentences.getD i []) w) ++
    splitByDelimiters word ++ (fc.sentences.getD i []).drop (insertPoint (fc.sentences.getD i []) w)
  whole : (splitByDelimiters word).countP startsWithDelimiter = 0 → mid = []
  cut : (splitByDelimiters word).countP startsWithDelimiter ≠ 0 → [] ∈ mid

theorem newSentences_eq_zero {parts : List Token} (h : parts.countP startsWithDelimiter = 0) :
    newSentences parts = 0 := by
  rw [newSentences, (lastDelimiterIdx_eq_none_iff parts 0).mpr h, h]
  rfl

theorem insertWord_inserted {fc fc' : FileContent} {sentIdx wordIdx : Int} {word : CStr} {k : Nat}
    (hcount : fc.sentenceCount = fc.sentences.length)
    (hspecial : ¬ (fc.sentences = [[]] ∧ sentIdx = 1))
    (h : insertWordInSentence fc sentIdx wordIdx word = some (fc', k)) :
    ∃ i w : Nat, sentIdx = i ∧ wordIdx = w ∧ ∃ cur mid, Inserted fc i w word fc' cur mid := by
  unfold insertWordInSentence at h
  split at h
  · cases h
  rename_i hrange
  push Not at hrange
  obtain ⟨i, rfl⟩ : ∃ i : Nat, sentIdx = i := ⟨sentIdx.toNat, by omega⟩
  have hi : i ≤ fc.sentences.length := by omega
  obtain ⟨hslots, hslotCount⟩ := openSlot_eq hcount hi fun ⟨h1, hone⟩ => hspecial ⟨h1, by omega⟩
  have hlen : (fc.sentences.take i).length = i := List.length_take_of_le hi
  simp only [Int.toNat_natCast] at h
  rw [getD_openSlot hcount hi fun ⟨h1, hone⟩ => hspecial ⟨h1, by omega⟩] at h
  generalize fc.openSlot i = slot at h hslots hslotCount
  split at h
  · cases h
  rename_i hword
  push Not at hword
  obtain ⟨w, rfl⟩ : ∃ w : Nat, wordIdx = w := ⟨wordIdx.toNat, by omega⟩
  simp only [Int.toNat_natCast] at h
  refine ⟨i, w, rfl, rfl, ?_⟩
  have hfirst : 1 ≤ w := by omega
  have hlast : w ≤ realWordCount (fc.sentences.getD i []) + 1 := by omega
  split at h
  · -- an empty text: the sentence stays as it is
    rename_i hparts
    obtain ⟨rfl, -⟩ := Prod.mk.inj (Option.some.inj h)
    refine ⟨fc.sentences.getD i [], [], hi, hfirst, hlast, hslotCount, by simpa using hslots, ?_, fun _ => rfl,
      fun hne => ?_⟩
    · simp [hparts]
    · rw [hparts] at hne
      exact absurd rfl hne
  · obtain ⟨rfl, rfl⟩ := Prod.mk.inj (Option.some.inj h)
    obtain ⟨parts, hparts⟩ : ∃ parts, splitByDelimiters word = parts := ⟨_, rfl⟩
    rw [hparts]
    generalize hdone : insertParts (shouldSplit parts) 0 parts
      ⟨fc.sentences.getD i [], [], false, insertPoint (fc.sentences.getD i []) w⟩ = done
    obtain ⟨htokens, hnext, hnew⟩ := insertParts_done (fc.sentences.getD i []) w hdone
    have hset : (slot.sentences.take (i + 1) ++ List.replicate (newSentences parts) [] ++
        slot.sentences.drop (i + 1)).set i done.cur =
        fc.sentences.take i ++ done.cur :: List.replicate (newSentences parts) [] ++
          fc.sentences.drop (i + 1) := by
      rw [hslots, open_behind hlen, set_slot hlen]
    have hslotLen : slot.sentences.length = i + 1 + (fc.sentences.drop (i + 1)).length := by
      rw [hslots, List.length_append, hlen, List.length_cons]
      omega
    by_cases hin : done.inNew = true
    · -- the sentence is cut: the slot behind it takes what follows, and one for each delimiter stays empty
      obtain ⟨hn, hdelimiter⟩ := hnew hin
      have hsentences := hset
      rw [hn, List.replicate_succ] at hsentences
      refine ⟨done.cur, done.next :: List.replicate (parts.countP startsWithDelimiter) [], hi, hfirst, hlast, ?_, ?_,
        ?_, fun hzero => absurd (hparts ▸ hzero) hdelimiter, fun _ => ?_⟩
      · simp only [hin, if_true, hset]
        simp [hslotCount, hslotLen, hlen]
        omega
      · simp only [hin, if_true, hn, List.replicate_succ, hsentences]
        exact set_next hlen
      · rw [hparts, ← htokens]
        simp
      · exact List.mem_cons_of_mem _ (List.mem_replicate.mpr ⟨hdelimiter, rfl⟩)
    · have hin' : done.inNew = false := by simpa using hin
      have hdone' : done.cur = done.cur ++ done.next := by rw [hnext hin', List.append_nil]
      refine ⟨done.cur, List.replicate (newSentences parts) [], hi, hfirst, hlast, ?_, ?_, ?_, fun hzero => ?_,
        fun hne => List.mem_replicate.mpr ⟨?_, rfl⟩⟩
      · simp only [hin', Bool.false_eq_true, if_false, hset]
        simp [hslotCount, hslotLen, hlen]
        omega
      · simp only [hin', Bool.false_eq_true, if_false, hset]
      · rw [hparts, ← htokens, ← hdone']
        simp
      · rw [newSentences_eq_zero (hparts ▸ hzero)]
        rfl
      · rw [hparts] at hne
        rw [newSentences]
        omega

/-- **An insertion** leaves every other sentence alone and puts the text between the words of its own. -/
theorem insertWord_cases {fc fc' : FileContent} {sentIdx wordIdx : Int} {word : CStr} {k : Nat}
    (hcount : fc.sentenceCount = fc.sentences.length)
    (hspecial : ¬ (fc.sentences = [[]] ∧ sentIdx = 1))
    (htok : ∀ s ∈ fc.sentences, ∀ t ∈ s, TokenOk t)
    (h : insertWordInSentence fc sentIdx wordIdx word = some (fc', k)) :
    ∃ i a : Nat, sentIdx = i ∧ i ≤ fc.sentences.length ∧ ∃ cur mid,
      fc'.sentenceCount = fc'.sentences.length ∧
      fc'.sentences = fc.sentences.take i ++ cur :: mid ++ fc.sentences.drop (i + 1) ∧
      core cur ++ (mid.map core).flatten =
        core ((fc.sentences.getD i []).take a) ++ nonBlank word ++ core ((fc.sentences.getD i []).drop a) ∧
      (core ((fc.sentences.getD i []).drop a) = [] ↔
        wordIdx = realWordCount (fc.sentences.getD i []) + 1) := by
  obtain ⟨i, w, rfl, rfl, cur, mid, hins⟩ := insertWord_inserted hcount hspecial h
  refine ⟨i, insertPoint (fc.sentences.getD i []) w, rfl, hins.index, cur, mid, hins.count, hins.slots, ?_, ?_⟩
  · have hbytes := congrArg core hins.tokens
    rwa [core_append, core_append, core_append, core_splitByDelimiters, core_flatten] at hbytes
  · rw [insertPoint_last (tokenOk_getD htok i) hins.first hins.last]
    omega

end NetworkFileShare
