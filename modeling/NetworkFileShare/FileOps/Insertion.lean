import NetworkFileShare.FileOps.SplitMemory

/-!
# Where an insertion goes (`file_ops.c`: `insert_word_in_sentence`)

* `InFrontOf` : the tokens of a sentence in front of its word `w`, the blanks before that word among them or not;
* `insertWord_tokens` : an accepted insertion puts the tokens of its text there and leaves all others in order;
* `InPlace` : the index is neither one behind a delimiter nor one of a new sentence behind one without delimiter;
* `KeepsShape` : no array is overrun, and the content has the form of a parsed file afterwards and the number of
  sentences it has when written and parsed;
* `insertWord_shape_iff` : so it is exactly when the index is in place, the text has no delimiter and fits the arrays.
-/

namespace NetworkFileShare

/-- The tokens that count. -/
def FileContent.tokens (fc : FileContent) : List Token := (fc.sentences.take fc.sentenceCount).flatten

/-- Tokens that end with the word before `w`, up to some white space. -/
def InFrontOf (front : Sentence) (w : Nat) : Prop :=
  if w = 1 then front = []
  else ∃ pre t blanks, front = pre ++ t :: blanks ∧ realWordCount pre + 2 = w ∧ shouldSkipForIndexing t = false ∧
    ∀ b ∈ blanks, shouldSkipForIndexing b = true

/-! ## The insertion point -/

/-- The tokens before the insertion point are those in front of the word. -/
theorem take_insertPoint {s : Sentence} {w : Nat} (h1 : 1 ≤ w) (h2 : w ≤ realWordCount s + 1) :
    InFrontOf (s.take (insertPoint s w)) w := by
  unfold InFrontOf insertPoint
  by_cases hw : w = 1
  · rw [if_pos hw, if_pos hw, List.take_zero]
  · obtain ⟨pre, t, post, rfl, hfound, ht, hpre⟩ := findWord_found s 0 0 (show 0 < w - 1 by omega) (by omega)
    rw [if_neg hw, if_neg hw]
    simp only [hfound]
    by_cases hlast : w - 1 = realWordCount (pre ++ t :: post) ∧ w = realWordCount (pre ++ t :: post) + 1
    · -- behind all the words: what follows the last of them is white space
      rw [if_pos hlast, List.take_length]
      refine ⟨pre, t, post, rfl, by omega, ht, fun b hb => ?_⟩
      have hcount : realWordCount (pre ++ t :: post) = realWordCount pre + (realWordCount post + 1) := by
        simp [realWordCount, List.countP_append, ht]
      have hnone : realWordCount post = 0 := by omega
      simpa using List.countP_eq_zero.mp hnone b hb
    · rw [if_neg hlast]
      refine ⟨pre, t, [], ?_, by omega, ht, fun b hb => absurd hb List.not_mem_nil⟩
      rw [List.append_cons pre t post, List.take_left']
      simp

/-! ## The tokens after an insertion -/

/-- An index of a sentence and one of its words, or the next ones, are accepted. -/
theorem insertWord_accepted {fc : FileContent} {i w : Nat} (hcount : fc.sentenceCount = fc.sentences.length)
    (hspecial : ¬ (fc.sentences = [[]] ∧ i = 1)) (hi : i ≤ fc.sentenceCount) (h1 : 1 ≤ w)
    (h2 : w ≤ realWordCount (fc.sentences.getD i []) + 1) (word : CStr) :
    ∃ fc' k, insertWordInSentence fc i w word = some (fc', k) := by
  have hsent := getD_openSlot hcount (hcount ▸ hi) hspecial
  have hrange : ¬((i : Int) < 0 ∨ (i : Int) > fc.sentenceCount) := by omega
  unfold insertWordInSentence
  rw [if_neg hrange]
  simp only [Int.toNat_natCast, hsent]
  have hword : ¬((w : Int) < 1 ∨ (w : Int) > realWordCount (fc.sentences.getD i []) + 1) := by omega
  rw [if_neg hword]
  split
  · exact ⟨_, _, rfl⟩
  · exact ⟨_, _, rfl⟩

/-- The tokens of a content, and those after an insertion. -/
theorem Inserted.flatten {fc fc' : FileContent} {i w : Nat} {word : CStr} {cur : Sentence} {mid : List Sentence}
    (h : Inserted fc i w word fc' cur mid) : fc'.tokens = (fc.sentences.take i).flatten ++
      (fc.sentences.getD i []).take (insertPoint (fc.sentences.getD i []) w) ++ splitByDelimiters word ++
      (fc.sentences.getD i []).drop (insertPoint (fc.sentences.getD i []) w) ++
      (fc.sentences.drop (i + 1)).flatten := by
  have htokens := h.tokens
  rw [FileContent.tokens, h.count, List.take_length, h.slots, List.flatten_append, List.flatten_append,
    List.flatten_cons, htokens]
  simp only [List.append_assoc]

/-- **An accepted insertion puts its tokens where the index says**, and neither loses nor moves any other. -/
theorem insertWord_tokens {fc : FileContent} {i w : Nat}
    (hfc : (∃ text, text ≠ [] ∧ fc = parseContent text) ∨ fc = ⟨[[]], 1⟩ ∧ i = 0)
    (hi : i ≤ fc.sentenceCount) (h1 : 1 ≤ w) (h2 : w ≤ realWordCount (fc.sentences.getD i []) + 1) (word : CStr) :
    ∃ fc' k front rest, insertWordInSentence fc i w word = some (fc', k) ∧ InFrontOf front w ∧
      fc.sentences.getD i [] = front ++ rest ∧
      fc.tokens = (fc.sentences.take i).flatten ++ front ++ rest ++ (fc.sentences.drop (i + 1)).flatten ∧
      fc'.tokens = (fc.sentences.take i).flatten ++ front ++ splitByDelimiters word ++ rest ++
        (fc.sentences.drop (i + 1)).flatten := by
  obtain ⟨hcount, hspecial⟩ : fc.sentenceCount = fc.sentences.length ∧ ¬(fc.sentences = [[]] ∧ i = 1) := by
    rcases hfc with ⟨text, -, rfl⟩ | ⟨rfl, rfl⟩
    · exact ⟨sentenceCount_parseContent text, fun hnil => parseContent_ne_emptySentence text hnil.1⟩
    · exact ⟨rfl, fun hone => absurd hone.2 Nat.zero_ne_one⟩
  obtain ⟨fc', k, hsome⟩ := insertWord_accepted hcount hspecial hi h1 h2 word
  obtain ⟨i', w', hi', hw', cur, mid, hins⟩ :=
    insertWord_inserted hcount (fun hone => hspecial ⟨hone.1, by omega⟩) hsome
  obtain rfl : i = i' := by omega
  obtain rfl : w = w' := by omega
  refine ⟨fc', k, _, _, hsome, take_insertPoint h1 h2, (List.take_append_drop _ _).symm, ?_, hins.flatten⟩
  rw [FileContent.tokens, hcount, List.take_length, flatten_at _ i]
  conv_lhs => rw [← List.take_append_drop (insertPoint (fc.sentences.getD i []) w) (fc.sentences.getD i [])]
  simp only [List.append_assoc]

/-- A text with two delimiters, put in front of the second word of the second sentence. -/
theorem insertWord_tokens_sample :
    ∃ fc' k front rest,
      insertWordInSentence (parseContent (lit "One. Two three.")) 1 2 (lit "a. b! c") = some (fc', k) ∧
      InFrontOf front 2 ∧ (parseContent (lit "One. Two three.")).sentences.getD 1 [] = front ++ rest ∧
      (parseContent (lit "One. Two three.")).tokens =
        ((parseContent (lit "One. Two three.")).sentences.take 1).flatten ++ front ++ rest ++
          ((parseContent (lit "One. Two three.")).sentences.drop 2).flatten ∧
      fc'.tokens = ((parseContent (lit "One. Two three.")).sentences.take 1).flatten ++ front ++
        splitByDelimiters (lit "a. b! c") ++ rest ++
          ((parseContent (lit "One. Two three.")).sentences.drop 2).flatten :=
  insertWord_tokens (Or.inl ⟨lit "One. Two three.", by decide, rfl⟩) (by decide) (by decide)
    (by decide) (lit "a. b! c")

/-! ## The form after an insertion -/

/-- The index is not the one behind the words of a sentence that has its delimiter, and a new sentence follows one that
has it. -/
def InPlace (text : CStr) (sentIdx wordIdx : Int) : Prop :=
  if sentIdx = (parseContent text).sentenceCount then text.getLast?.any isDelimiter = true
  else ¬(((parseContent text).sentences.getD sentIdx.toNat []).getLast?.any startsWithDelimiter = true ∧
    wordIdx = realWordCount ((parseContent text).sentences.getD sentIdx.toNat []) + 1)

theorem IsRun.plain {t : Token} (h : IsRun t) (hd : startsWithDelimiter t = false) : PlainToken t := by
  rcases h with ⟨c, rfl, hc | hc⟩ | h | h
  · refine ⟨⟨List.cons_ne_nil c [], Or.inl (by rw [hc])⟩, fun d hmem => ?_⟩
    rw [List.mem_singleton.mp hmem, hc]
    decide
  · have hstarts : startsWithDelimiter [c] = true := hc
    rw [hstarts] at hd
    cases hd
  · obtain ⟨hne, hall⟩ := isSpaceToken_iff.mp h
    exact ParseState.plainToken_of_blanks hne hall
  · obtain ⟨hne, hall⟩ := isWordToken_iff.mp h
    exact ParseState.plainToken_of_letters hne fun c hc => isLetter_iff.mp (hall c hc)

theorem isRun_trimmed {t : Token} (h : IsRun t) : IsRun (trimmed t) := by
  unfold trimmed
  split
  · rename_i hspace
    obtain ⟨hne, hall⟩ := isSpaceToken_iff.mp hspace
    refine Or.inr (Or.inl (isSpaceToken_iff.mpr ⟨?_, fun c hc => hall c (List.mem_of_mem_take hc)⟩))
    rw [ne_eq, List.take_eq_nil_iff, not_or]
    exact ⟨by decide, hne⟩
  · exact h

theorem isRun_splitByDelimiters {word : CStr} {t : Token} (ht : t ∈ splitByDelimiters word) : IsRun t := by
  rw [splitByDelimiters_eq] at ht
  obtain ⟨q, hq, rfl⟩ := List.mem_map.mp ht
  exact isRun_trimmed (isRun_of_mem_pieces hq)

theorem splitByDelimiters_ne_nil {word : CStr} (h : word ≠ []) : splitByDelimiters word ≠ [] := by
  rw [splitByDelimiters_eq, ne_eq, List.map_eq_nil_iff]
  exact List.splitBy_ne_nil.mpr h

/-- A text has a delimiter exactly when one of its tokens is one. -/
theorem countP_splitByDelimiters (word : CStr) :
    (splitByDelimiters word).countP startsWithDelimiter = 0 ↔ ∀ c ∈ word, isDelimiter c = false := by
  rw [List.countP_eq_zero, splitByDelimiters_eq, List.forall_mem_map]
  constructor
  · intro h c hc
    rw [← flatten_pieces word] at hc
    obtain ⟨t, ht, hct⟩ := List.mem_flatten.mp hc
    by_contra hd
    have hd' : isDelimiter c = true := Bool.not_eq_false _ ▸ hd
    rcases isRun_of_mem_pieces ht with ⟨d, rfl, -⟩ | hspace | hword
    · obtain rfl := List.mem_singleton.mp hct
      refine h [c] ht ?_
      rw [trimmed_singleton]
      exact hd'
    · rw [not_isDelimiter_of_isBlank (isBlank_of_isSpaceChar ((isSpaceToken_iff.mp hspace).2 c hct))] at hd
      exact hd rfl
    · rw [(isLetter_iff.mp ((isWordToken_iff.mp hword).2 c hct)).2] at hd
      exact hd rfl
  · intro h t ht hstarts
    obtain ⟨c, cs, htrim⟩ := List.exists_cons_of_ne_nil (isRun_trimmed (isRun_of_mem_pieces ht)).ne_nil
    rw [htrim] at hstarts
    have hmem : c ∈ word := by
      rw [← flatten_pieces word]
      refine List.mem_flatten.mpr ⟨t, ht, (trimmed_prefix_self t).subset ?_⟩
      rw [htrim]
      exact List.mem_cons_self
    have hd : isDelimiter c = true := hstarts
    rw [h c hmem] at hd
    cases hd

/-- Sentences of the right form are as many as those of the file they are written to. -/
theorem Shaped.count {X : List Sentence} (h : Shaped X) : (parseContent (render X)).sentenceCount = X.length := by
  have hlength := congrArg List.length ((cores_parseContent (render X)).trans (cores_render h))
  rwa [List.length_map, List.length_map, ← sentenceCount_parseContent] at hlength

/-- A sentence may be replaced by one of the same form. -/
theorem Shaped.replace {A B : List Sentence} {s cur : Sentence} (h : Shaped (A ++ s :: B))
    (hclosed : ClosedSentence s → ClosedSentence cur) (hopen : OpenSentence s → OpenSentence cur) :
    Shaped (A ++ cur :: B) := by
  have hbefore := h.closed_take (n := A.length) (by simp)
  have hrest := h.drop A.length
  rw [List.take_left' rfl] at hbefore
  rw [List.drop_left' rfl] at hrest
  refine Shaped.append hbefore ?_
  cases B with
  | nil => exact Shaped.singleton ((hrest.each s List.mem_cons_self).imp hclosed hopen)
  | cons v B =>
    have hcur := hclosed (hrest.closed s (by simp))
    exact Shaped.append (List.forall_mem_singleton.mpr hcur) hrest.tail

theorem ClosedSentence.not_open {s : Sentence} (h : ClosedSentence s) : ¬OpenSentence s := by
  obtain ⟨ts, c, rfl, hc, -⟩ := h
  intro hopen
  have hplain := (hopen.2 [c] (by simp)).2 c (by simp)
  rw [hc] at hplain
  cases hplain

/-- A sentence of the right form that ends in a delimiter. -/
theorem Shaped.closed_of_ends {X : List Sentence} (h : Shaped X) {s : Sentence} (hs : s ∈ X)
    (hends : s.getLast?.any startsWithDelimiter = true) : ClosedSentence s := by
  rcases h.each s hs with hclosed | hopen
  · exact hclosed
  · obtain ⟨t, ht⟩ : ∃ t, s.getLast? = some t := ⟨_, List.getLast?_eq_some_getLast hopen.1⟩
    rw [ht] at hends
    have hd : startsWithDelimiter t = true := hends
    rw [startsWithDelimiter_plain (hopen.2 t (List.mem_of_getLast? ht))] at hd
    cases hd

theorem rest_eq_nil_iff_getLast? {text : CStr} (htext : text ≠ []) :
    Segment.rest isDelimiter text = [] ↔ text.getLast?.any isDelimiter = true := by
  obtain ⟨p, hp⟩ : ∃ p, text.getLast? = some p := ⟨_, List.getLast?_eq_some_getLast htext⟩
  rw [Segment.rest_eq_nil_iff, hp]
  simp

/-- All sentences of a file have their delimiter exactly when the file ends with one. -/
theorem parse_closed_iff {text : CStr} (htext : text ≠ []) :
    (∀ s ∈ (parseContent text).sentences, ClosedSentence s) ↔ text.getLast?.any isDelimiter = true := by
  obtain ⟨before, words, -, -, hrest, hclosed, hplain, hparse⟩ := parseContent_cases text
  rw [← rest_eq_nil_iff_getLast? htext, ← hrest, hparse]
  by_cases hw : words = []
  · rw [if_pos hw]
    exact iff_of_true hclosed hw
  · rw [if_neg hw]
    refine iff_of_false (fun hall => ?_) hw
    exact (hall words (by simp)).not_open ⟨hw, hplain⟩

/-- An index that is not in place. -/
theorem not_inPlace_cases {text : CStr} {i w : Nat} (hi : i ≤ (parseContent text).sentences.length)
    (h : ¬InPlace text i w) :
    (i < (parseContent text).sentences.length ∧ ClosedSentence ((parseContent text).sentences.getD i []) ∧
        w = realWordCount ((parseContent text).sentences.getD i []) + 1) ∨
      i = (parseContent text).sentences.length ∧ text.getLast?.any isDelimiter ≠ true := by
  unfold InPlace at h
  rw [sentenceCount_parseContent, Int.toNat_natCast] at h
  rcases Nat.lt_or_ge i (parseContent text).sentences.length with hlt | hge
  · rw [if_neg (by omega), not_not] at h
    have hmem : (parseContent text).sentences.getD i [] ∈ (parseContent text).sentences := by
      rw [List.getD_eq_getElem _ _ hlt]
      exact List.getElem_mem hlt
    exact Or.inl ⟨hlt, (parseContent_shaped text).closed_of_ends hmem h.1, by omega⟩
  · rw [if_pos (by omega)] at h
    exact Or.inr ⟨Nat.le_antisymm hi hge, h⟩

theorem plain_insert {s parts : List Token} (hs : ∀ t ∈ s, PlainToken t) (hparts : ∀ t ∈ parts, PlainToken t)
    (a : Nat) : ∀ t ∈ s.take a ++ parts ++ s.drop a, PlainToken t := by
  simp only [List.forall_mem_append]
  exact ⟨⟨fun t ht => hs t (List.mem_of_mem_take ht), hparts⟩, fun t ht => hs t (List.mem_of_mem_drop ht)⟩

/-- Tokens put in front of the delimiter. -/
theorem ClosedSentence.insert {s : Sentence} (h : ClosedSentence s) {parts : List Token}
    (hparts : ∀ t ∈ parts, PlainToken t) {a : Nat} (hne : s.drop a ≠ []) :
    ClosedSentence (s.take a ++ parts ++ s.drop a) := by
  obtain ⟨ts, c, rfl, hc, hts⟩ := h
  have ha : a ≤ ts.length := by
    have hlt := List.length_lt_of_drop_ne_nil hne
    rw [List.length_append, List.length_singleton] at hlt
    omega
  refine ⟨ts.take a ++ parts ++ ts.drop a, c, ?_, hc, plain_insert hts hparts a⟩
  rw [List.take_append_of_le_length ha, List.drop_append_of_le_length ha]
  simp only [List.append_assoc]

theorem OpenSentence.insert {s : Sentence} (h : OpenSentence s) {parts : List Token}
    (hparts : ∀ t ∈ parts, PlainToken t) (a : Nat) : OpenSentence (s.take a ++ parts ++ s.drop a) := by
  refine ⟨fun hnil => ?_, plain_insert h.2 hparts a⟩
  rw [List.append_assoc, List.append_eq_nil_iff, List.append_eq_nil_iff] at hnil
  refine h.1 ?_
  rw [← List.take_append_drop a s, hnil.1, hnil.2.2]
  rfl

/-- Only the index behind all words leads behind the delimiter. -/
theorem ClosedSentence.insertPoint_end {s : Sentence} (h : ClosedSentence s) {w : Nat} (h1 : 1 ≤ w)
    (h2 : w ≤ realWordCount s + 1) : s.drop (insertPoint s w) = [] ↔ w = realWordCount s + 1 := by
  rw [← insertPoint_last h.tokenOk h1 h2]
  constructor
  · intro hnil
    rw [hnil]
    rfl
  · intro hcore
    by_contra hne
    obtain ⟨ts, c, rfl, hc, -⟩ := h
    have hlast : [c] ∈ (ts ++ [[c]]).drop (insertPoint (ts ++ [[c]]) w) := by
      have hmem := List.getLast_mem hne
      rwa [List.getLast_drop, List.getLast_concat] at hmem
    have hnone := List.filter_eq_nil_iff.mp hcore c (List.mem_flatten.mpr ⟨[c], hlast, List.mem_cons_self⟩)
    exact hnone (not_isBlank_of_isDelimiter hc)

/-- The sentences after an insertion without delimiters have the right form if the index is in place. -/
theorem Inserted.shaped {text word : CStr} {i w : Nat} {fc' : FileContent} {cur : Sentence} {mid : List Sentence}
    (h : Inserted (parseContent text) i w word fc' cur mid) (htext : text ≠ []) (hword : word ≠ [])
    (hplain : ∀ c ∈ word, isDelimiter c = false) (hplace : InPlace text i w) : Shaped fc'.sentences := by
  have hX := parseContent_shaped text
  have hcount := sentenceCount_parseContent text
  have hclosed := parse_closed_iff htext
  have hzero := (countP_splitByDelimiters word).mpr hplain
  have hparts : ∀ t ∈ splitByDelimiters word, PlainToken t := fun t ht =>
    (isRun_splitByDelimiters ht).plain (Bool.not_eq_true _ ▸ List.countP_eq_zero.mp hzero t ht)
  have hnil := h.whole hzero
  have htokens := h.tokens
  have hslots := h.slots
  have hindex := h.index
  have hlast := h.last
  unfold InPlace at hplace
  rw [hcount, Int.toNat_natCast] at hplace
  rw [hnil, List.flatten_nil, List.append_nil] at htokens
  rw [hnil] at hslots
  generalize (parseContent text).sentences = X at *
  rcases Nat.lt_or_ge i X.length with hlt | hge
  · rw [if_neg (by omega)] at hplace
    have hget : X.getD i [] = X[i] := List.getD_eq_getElem _ _ hlt
    have hcut : X = X.take i ++ X[i] :: X.drop (i + 1) := by
      rw [← List.drop_eq_getElem_cons hlt, List.take_append_drop]
    rw [hget] at htokens hplace hlast
    rw [hslots, List.append_assoc, List.cons_append, List.nil_append]
    rw [hcut] at hX
    refine hX.replace (fun hs => ?_) fun hs => ?_
    · rw [htokens]
      refine hs.insert hparts fun hend => hplace ⟨hs.ends, ?_⟩
      have hw := (hs.insertPoint_end h.first hlast).mp hend
      omega
    · rw [htokens]
      exact hs.insert hparts _
  · have hi : i = X.length := Nat.le_antisymm hindex hge
    rw [if_pos (by rw [hi]), ← hclosed] at hplace
    rw [List.getD_eq_default _ _ hge, List.take_nil, List.drop_nil, List.append_nil, List.nil_append] at htokens
    rw [hslots, List.take_of_length_le hge, List.drop_of_length_le (Nat.le_succ_of_le hge), List.append_nil, htokens]
    exact Shaped.append hplace (Shaped.singleton (Or.inr ⟨splitByDelimiters_ne_nil hword, hparts⟩))

/-- Otherwise they do not. -/
theorem Inserted.not_wellShaped {text word : CStr} {i w : Nat} {fc' : FileContent} {cur : Sentence}
    {mid : List Sentence} (h : Inserted (parseContent text) i w word fc' cur mid) (htext : text ≠ [])
    (hword : word ≠ []) (hplace : ¬InPlace text i w) : ¬WellShaped fc'.sentences := by
  have hX := parseContent_shaped text
  have hclosed := parse_closed_iff htext
  have hparts := splitByDelimiters_ne_nil hword
  have htokens := h.tokens
  have hslots := h.slots
  have hlast := h.last
  have hcases := not_inPlace_cases h.index hplace
  intro hwell
  by_cases hzero : (splitByDelimiters word).countP startsWithDelimiter = 0
  · have hnil := h.whole hzero
    rw [hnil, List.flatten_nil, List.append_nil] at htokens
    rw [hnil] at hslots
    generalize (parseContent text).sentences = X at *
    rcases hcases with ⟨-, hs, hw⟩ | ⟨rfl, hends⟩
    · -- the parts stand behind the delimiter
      have hend := (hs.insertPoint_end h.first hlast).mpr hw
      have htake := List.take_append_drop (insertPoint (X.getD i []) w) (X.getD i [])
      rw [hend, List.append_nil] at htake
      rw [hend, htake, List.append_nil] at htokens
      obtain ⟨ts, c, hts, hc, -⟩ := hs
      have hcur : cur ∈ fc'.sentences := by
        rw [hslots]
        simp
      have hinner := hwell.inner cur hcur [c] (by
        rw [htokens, List.dropLast_append_of_ne_nil hparts, hts]
        simp)
      have hstarts : startsWithDelimiter [c] = true := hc
      rw [hstarts] at hinner
      cases hinner
    · -- the sentence before the new one has no delimiter
      rw [List.take_length, List.drop_of_length_le (Nat.le_succ _), List.append_nil] at hslots
      rw [ne_eq, ← hclosed] at hends
      refine hends fun s hs => hX.closed_of_ends hs (hwell.ends s ?_)
      rw [hslots, List.dropLast_concat]
      exact hs
  · refine hwell.ne_nil [] ?_ rfl
    rw [hslots]
    simp [h.cut hzero]

/-- The insertion of `word` overruns no array of `split_by_delimiters`, and the content `fc'` that it leaves has the
form of a parsed file and the sentences it is counted to have when it is written and parsed. -/
structure KeepsShape (word : CStr) (fc' : FileContent) : Prop where
  memory : SplitInBounds word
  shape : WellShaped (fc'.sentences.take fc'.sentenceCount)
  count : fc'.sentenceCount = (parseContent fc'.text).sentenceCount

/-- **An insertion keeps the form of a parsed file** exactly when the text has no delimiter, the index is in place and
`split_by_delimiters` has room for the words. -/
theorem insertWord_shape_iff {text word : CStr} (htext : text ≠ []) (hword : word ≠ []) {sentIdx wordIdx : Int}
    {fc' : FileContent} {k : Nat}
    (h : insertWordInSentence (parseContent text) sentIdx wordIdx word = some (fc', k)) :
    KeepsShape word fc' ↔ (∀ c ∈ word, isDelimiter c = false) ∧ InPlace text sentIdx wordIdx ∧
      Fits isLetter word ∧ GrownInTime (pieces word).dropLast := by
  obtain ⟨i, w, rfl, rfl, cur, mid, hins⟩ := insertWord_inserted (sentenceCount_parseContent text)
    (fun hnil => parseContent_ne_emptySentence text hnil.1) h
  constructor
  · rintro ⟨hmemory, hwell, -⟩
    rw [hins.count, List.take_length] at hwell
    refine ⟨(countP_splitByDelimiters word).mp ?_, ?_, (splitInBounds_iff word).mp hmemory⟩
    · by_contra hne
      refine hwell.ne_nil [] ?_ rfl
      rw [hins.slots]
      simp [hins.cut hne]
    · by_contra hplace
      exact hins.not_wellShaped htext hword hplace hwell
  · rintro ⟨hplain, hplace, hroom⟩
    have hshaped := hins.shaped htext hword hplain hplace
    refine ⟨(splitInBounds_iff word).mpr hroom, ?_, ?_⟩
    · rw [hins.count, List.take_length]
      exact hshaped.wellShaped
    · rw [FileContent.text, hins.count, List.take_length]
      exact hshaped.count.symm

theorem insertWord_shape_sample :
    ∃ fc' k, insertWordInSentence (parseContent (lit "One. Two")) 1 1 (lit "a b") = some (fc', k) ∧
      (KeepsShape (lit "a b") fc' ↔ (∀ c ∈ lit "a b", isDelimiter c = false) ∧ InPlace (lit "One. Two") 1 1 ∧
        Fits isLetter (lit "a b") ∧ GrownInTime (pieces (lit "a b")).dropLast) := by
  obtain ⟨fc', k, h⟩ := insertWord_accepted (i := 1) (sentenceCount_parseContent (lit "One. Two"))
    (fun hnil => parseContent_ne_emptySentence _ hnil.1) (by decide) (Nat.le_refl 1) (by decide)
    (lit "a b")
  exact ⟨fc', k, h, insertWord_shape_iff (by decide) (by decide) h⟩

/-- **A text with a delimiter leaves an empty sentence**, which is not there when the file is read again. -/
theorem delimiter_leaves_empty_sentence :
    ∃ fc' k, insertWordInSentence (parseContent (lit "a")) 0 2 (lit "b. c") = some (fc', k) ∧
      fc'.sentences = [[lit "a", lit "b", lit "."], [lit " ", lit "c"], []] ∧ fc'.sentenceCount = 3 ∧
      (parseContent fc'.text).sentenceCount = 2 ∧
      ¬(WellShaped (fc'.sentences.take fc'.sentenceCount) ∧
        fc'.sentenceCount = (parseContent fc'.text).sentenceCount) := by
  have hinsert : insertWordInSentence (parseContent (lit "a")) 0 2 (lit "b. c") =
      some (⟨[[lit "a", lit "b", lit "."], [lit " ", lit "c"], []], 3⟩, 2) := by decide
  exact ⟨_, _, hinsert, rfl, rfl, by decide, fun h => absurd h.2 (by decide)⟩

end NetworkFileShare
