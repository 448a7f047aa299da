import NetworkFileShare.FileOps.Normal

/-!
# The statistics of a file (`file_ops.c`: `get_file_stats`)

* `getFileStats` : the words and the bytes of a file, counted with a flag into an `int` each;
* `wordCount_eq` : the words are the pieces that are words;
* `StatsMatch` : the numbers are those of the parsed file, and the words as many when it has been written back;
* `getFileStats_parse_iff` : so they are exactly for a file of less than `2 ^ 31` bytes.
-/

namespace NetworkFileShare

/-- The loop of `get_file_stats`; the counters are `int`s. -/
structure FileStats where
  inWord : Bool
  wordCount : Int32
  charCount : Int32
  deriving DecidableEq

namespace FileStats

def init : FileStats := ⟨false, 0, 0⟩

/-- `if (in_word)`. -/
def leaveWord (st : FileStats) : FileStats :=
  if st.inWord then { st with wordCount := st.wordCount + 1, inWord := false } else st

/-- One byte. -/
def countChar (st : FileStats) (c : CChar) : FileStats :=
  let st := { st with charCount := st.charCount + 1 }
  if isBlank c then st.leaveWord
  else if isDelimiter c then st.leaveWord
  else { st with inWord := true }

end FileStats

/-- `get_file_stats`: `*word_count` and `*char_count`, of a file that may be missing. -/
def getFileStats (file : Option CStr) : Int32 × Int32 :=
  match file with
  | none => (0, 0)
  | some text =>
    let st := text.foldl FileStats.countChar .init
    (if st.inWord then st.wordCount + 1 else st.wordCount, st.charCount)

namespace FileStats

/-- After the bytes `l`: the flag is up within a word, which has not been counted yet. -/
structure Counted (l : CStr) (st : FileStats) : Prop where
  start : l = [] → st = init
  flag : ∀ p ∈ l.getLast?, st.inWord = isLetter p
  words : (if st.inWord then st.wordCount + 1 else st.wordCount) = Int32.ofNat ((pieces l).countP isWordToken)
  chars : st.charCount = Int32.ofNat l.length

theorem countChar_letter {st : FileStats} {c : CChar} (hc : isLetter c = true) :
    st.countChar c = ⟨true, st.wordCount, st.charCount + 1⟩ := by
  obtain ⟨hblank, hdelimiter⟩ := isLetter_iff.mp hc
  unfold countChar
  simp only [hblank, hdelimiter, Bool.false_eq_true, if_false]

theorem countChar_other {st : FileStats} {c : CChar} (hc : isLetter c = false) :
    st.countChar c = ⟨false, if st.inWord then st.wordCount + 1 else st.wordCount, st.charCount + 1⟩ := by
  have hleave : st.countChar c = leaveWord { st with charCount := st.charCount + 1 } := by
    unfold countChar
    rw [isLetter, Bool.and_eq_false_iff, Bool.not_eq_false', Bool.not_eq_false'] at hc
    rcases hc with hblank | hdelimiter
    · exact if_pos hblank
    · simp only [hdelimiter, if_true, ite_self]
  rw [hleave]
  obtain ⟨inWord, wordCount, charCount⟩ := st
  cases inWord <;> rfl

/-- A byte that goes on with a piece makes no word of it. -/
theorem countP_pieces_join {l : CStr} {p c : CChar} (hp : p ∈ l.getLast?) (hjoin : joins p c = true) :
    (pieces (l ++ [c])).countP isWordToken = (pieces l).countP isWordToken := by
  obtain ⟨ps, q, hpieces, hpieces'⟩ := pieces_snoc_join hp hjoin
  have hlast : p ∈ q := List.mem_of_getLast? ((Runs.getLast?_of_splitBy hpieces).symm.trans hp)
  have hgrown : IsRun (q ++ [c]) := by
    apply isRun_of_mem_pieces
    rw [hpieces']
    exact List.mem_append_right ps List.mem_cons_self
  have hsame : isWordToken (q ++ [c]) = isWordToken q := by
    by_cases hletter : isLetter p = true
    · have hall := hgrown.all_letter (List.mem_append_left _ hlast) hletter
      rw [isWordToken_iff.mpr ⟨by simp, hall⟩,
        isWordToken_iff.mpr ⟨List.ne_nil_of_mem hlast, fun d hd => hall d (List.mem_append_left _ hd)⟩]
    · have hnot : ∀ t : Token, p ∈ t → isWordToken t = false := fun t ht => by
        by_contra hword
        exact hletter ((isWordToken_iff.mp (Bool.not_eq_false _ ▸ hword)).2 p ht)
      rw [hnot q hlast, hnot _ (List.mem_append_left _ hlast)]
  rw [hpieces', hpieces, List.countP_append, List.countP_append, List.countP_singleton, List.countP_singleton, hsame]

/-- A letter that starts a piece starts a word. -/
theorem countP_pieces_new {l : CStr} {c : CChar} (hnew : ∀ p ∈ l.getLast?, joins p c = false) :
    (pieces (l ++ [c])).countP isWordToken = (pieces l).countP isWordToken + if isLetter c then 1 else 0 := by
  have hword : isWordToken [c] = isLetter c := by
    rw [isWordToken, List.all_cons, List.all_nil, Bool.and_true]
    rfl
  rw [pieces_snoc_new hnew, List.countP_append, List.countP_singleton, hword]

theorem Counted.letter {l : CStr} {st : FileStats} (h : Counted l st) {c : CChar} (hc : isLetter c = true) :
    st.wordCount + 1 = Int32.ofNat ((pieces (l ++ [c])).countP isWordToken) := by
  have hcount := h.words
  by_cases hin : st.inWord = true
  · -- the letter goes on with a word that was still to be counted
    obtain ⟨p, hp⟩ : ∃ p, p ∈ l.getLast? := by
      refine ⟨_, List.getLast?_eq_some_getLast fun hnil => ?_⟩
      rw [h.start hnil] at hin
      cases hin
    rw [if_pos hin] at hcount
    rw [countP_pieces_join hp (joins_of_letter ((h.flag p hp).symm.trans hin) hc), hcount]
  · rw [if_neg hin] at hcount
    rw [countP_pieces_new, if_pos hc, hcount, Int32.ofNat_add]
    · rfl
    intro p hp
    by_contra hjoin
    rcases joins_iff.mp (Bool.not_eq_false _ ▸ hjoin) with hboth | hboth
    · rw [isSpaceChar_of_isLetter hc] at hboth
      cases hboth.2
    · exact hin ((h.flag p hp).trans hboth.1)

theorem Counted.step {l : CStr} {st : FileStats} (h : Counted l st) (c : CChar) :
    Counted (l ++ [c]) (st.countChar c) := by
  have hlength : st.charCount + 1 = Int32.ofNat (l ++ [c]).length := by
    rw [List.length_append, Int32.ofNat_add, ← h.chars]
    rfl
  by_cases hc : isLetter c = true
  · rw [countChar_letter hc]
    refine ⟨fun hnil => absurd hnil (by simp), fun p hp => ?_, h.letter hc, hlength⟩
    rw [ParseState.eq_of_getLast?_snoc hp, hc]
  · rw [Bool.not_eq_true] at hc
    rw [countChar_other hc]
    refine ⟨fun hnil => absurd hnil (by simp), fun p hp => ?_, ?_, hlength⟩
    · rw [ParseState.eq_of_getLast?_snoc hp, hc]
    · refine h.words.trans ?_
      by_cases hjoin : ∃ p ∈ l.getLast?, joins p c = true
      · obtain ⟨p, hp, hjoin⟩ := hjoin
        rw [countP_pieces_join hp hjoin]
      · rw [countP_pieces_new, hc]
        · rfl
        · exact fun p hp => Bool.not_eq_true _ ▸ fun hne => hjoin ⟨p, hp, hne⟩

/-- The loop over a whole text. -/
theorem counted_foldl (text : CStr) : Counted text (text.foldl countChar .init) := by
  induction text using List.reverseRecOn with
  | nil =>
    refine ⟨fun _ => rfl, fun p hp => ?_, rfl, rfl⟩
    cases hp
  | append_singleton l c ih =>
    rw [List.foldl_append]
    exact ih.step c

end FileStats

/-- The words of a file are the pieces that are words. -/
theorem wordCount_eq (text : CStr) :
    (getFileStats (some text)).1 = Int32.ofNat ((pieces text).countP isWordToken) :=
  (FileStats.counted_foldl text).words

theorem charCount_eq (text : CStr) : (getFileStats (some text)).2 = Int32.ofNat text.length :=
  (FileStats.counted_foldl text).chars

/-- Neither blanks nor a newline nor a delimiter. -/
def isRealWord (t : Token) : Bool := !isSpaceToken t && !isNewlineToken t && !startsWithDelimiter t

theorem isRealWord_eq {t : Token} (ht : IsRun t) : isRealWord t = isWordToken t := by
  rcases ht with ⟨c, rfl, hc⟩ | hspace | hword
  · rw [not_word_of_single hc]
    rcases hc with rfl | hc
    · decide
    · have hstarts : startsWithDelimiter [c] = true := hc
      rw [isRealWord, hstarts, Bool.not_true, Bool.and_false]
  · rw [isRealWord, hspace, not_word_of_space hspace]
    rfl
  · obtain ⟨hs, hn, hd⟩ := isWordToken_kind hword
    rw [isRealWord, hs, hn, hd, hword]
    rfl

theorem countP_withGaps : ∀ ts : List Token, (withGaps ts).countP isWordToken = ts.countP isWordToken
  | [] => rfl
  | [_] => rfl
  | t :: t' :: ts => by
    have hgap : (gapTokens t t').countP isWordToken = 0 := by
      unfold gapTokens
      split
      · rfl
      · decide
    have hrest := countP_withGaps (t' :: ts)
    rw [withGaps, List.countP_cons, List.countP_append, hgap, Nat.zero_add, hrest, ← List.countP_cons]

/-! ## The numbers of the parsed file -/

/-- What is reported of a file: its words are those of the parsed file, its characters are its bytes, and the words
are as many when the parsed file has been written back. -/
structure StatsMatch (text : CStr) : Prop where
  words : (getFileStats (some text)).1.toInt = (parseContent text).sentences.flatten.countP isRealWord
  chars : (getFileStats (some text)).2.toInt = text.length
  kept : (getFileStats (some (parseContent text).text)).1 = (getFileStats (some text)).1

/-- The words of the parsed file are the pieces of its text that are words. -/
theorem countP_parse {text : CStr} (hfit : Fits isLetter text) :
    (parseContent text).sentences.flatten.countP isWordToken = (pieces text).countP isWordToken := by
  rw [flatten_parse_of_fits hfit, List.countP_map]
  refine List.countP_congr fun t ht => ?_
  rw [Function.comp_apply, isWordToken_trimmed (isRun_of_mem_pieces ht)]

theorem countP_isRealWord (text : CStr) : (parseContent text).sentences.flatten.countP isRealWord =
    (parseContent text).sentences.flatten.countP isWordToken :=
  List.countP_congr fun t ht => by rw [isRealWord_eq ((apart_parse text).run t ht)]

/-- There are no more pieces than bytes. -/
theorem length_pieces_le (text : CStr) : (pieces text).length ≤ text.length := by
  have hle : ∀ {ts : List Token}, (∀ t ∈ ts, t ≠ []) → ts.length ≤ ts.flatten.length := by
    intro ts hts
    induction ts with
    | nil => exact Nat.le_refl 0
    | cons t ts ih =>
      rw [List.flatten_cons, List.length_append, List.length_cons, Nat.add_comm]
      exact Nat.add_le_add (List.length_pos_iff.mpr (hts t List.mem_cons_self))
        (ih fun u hu => hts u (List.mem_cons_of_mem t hu))
  calc (pieces text).length ≤ (pieces text).flatten.length := hle fun t ht => (isRun_of_mem_pieces ht).ne_nil
    _ = text.length := by rw [flatten_pieces]

/-- **The statistics of a file are those of its parsed form** exactly when its bytes can be counted in an `int`. -/
theorem getFileStats_parse_iff {text : CStr} (hfit : Fits isLetter text) : StatsMatch text ↔ text.length < 2 ^ 31 := by
  constructor
  · intro h
    have hlt := Int32.toInt_lt (getFileStats (some text)).2
    rw [h.chars] at hlt
    exact_mod_cast hlt
  · intro hlt
    refine ⟨?_, ?_, ?_⟩
    · have hwords : (pieces text).countP isWordToken < 2 ^ 31 :=
        (List.countP_le_length.trans (length_pieces_le text)).trans_lt hlt
      rw [wordCount_eq, Int32.toInt_ofNat_of_lt hwords, countP_isRealWord, countP_parse hfit]
    · rw [charCount_eq, Int32.toInt_ofNat_of_lt hlt]
    · rw [wordCount_eq, wordCount_eq, text_eq_joined, pieces_joined (apart_parse text), countP_withGaps,
        countP_parse hfit]

/-- Words beside delimiters, blanks, a newline and the end of the file. -/
theorem getFileStats_parse_sample : StatsMatch (lit "Hi.Bob  went?!\nOk") :=
  (getFileStats_parse_iff fun _ hr _ => hr.length_le.trans (by decide)).mpr (by decide)

/-- `n` lines of one letter. -/
def oneLetterLines (n : Nat) : CStr := (List.replicate n (lit "a\n")).flatten

theorem length_oneLetterLines (n : Nat) : (oneLetterLines n).length = n * 2 := by
  rw [oneLetterLines, List.length_flatten, List.map_replicate, List.sum_replicate]
  rfl

/-- Every second byte of the lines is no letter. -/
theorem fits_oneLetterLines (n : Nat) : Fits isLetter (oneLetterLines n) := by
  have hchain : ∀ n, (newline :: oneLetterLines n).IsChain fun c d => isLetter c = false ∨ isLetter d = false := by
    intro n
    induction n with
    | zero => exact List.isChain_singleton newline
    | succ n ih => exact .cons_cons (Or.inl (by decide)) (.cons_cons (Or.inr (by decide)) ih)
  intro r hr hletters
  have hchain' : r.IsChain fun c d => isLetter c = false ∨ isLetter d = false := by
    obtain ⟨before, after, hr⟩ := hr
    have hlines := (hchain n).tail
    rw [List.tail_cons, ← hr, List.append_assoc] at hlines
    exact hlines.right_of_append.left_of_append
  match r, hletters, hchain' with
  | [], _, _ => exact Nat.zero_le _
  | [_], _, _ => exact Nat.succ_le_succ (Nat.zero_le _)
  | c :: d :: _, hletters, hchain' =>
    rcases hchain'.rel with hc | hd
    · rw [hletters c (by simp)] at hc
      cases hc
    · rw [hletters d (by simp)] at hd
      cases hd

/-- **Two gigabytes of short lines**: the bytes do not fit an `int`. -/
theorem two_gigabytes_miscounted :
    ∃ text, Fits isLetter text ∧ (getFileStats (some text)).2.toInt < 0 ∧ ¬ StatsMatch text := by
  have hlength : (oneLetterLines (2 ^ 30)).length = 2 ^ 31 := length_oneLetterLines _
  have hneg : (getFileStats (some (oneLetterLines (2 ^ 30)))).2.toInt < 0 := by
    rw [charCount_eq, hlength, Int32.toInt_ofNat']
    norm_num [Int.bmod, Int32.size]
  refine ⟨_, fits_oneLetterLines (2 ^ 30), hneg, fun h => ?_⟩
  rw [h.chars] at hneg
  exact absurd hneg (not_lt.mpr (Int.natCast_nonneg _))

end NetworkFileShare
