import NetworkFileShare.Common
import NetworkFileShare.Lib.Segment

/-!
# Sentences and words (`file_ops.c`: `parse_file`)

* `FileContent` : the sentences of a file, each a list of words, delimiters, newlines and runs of blanks;
* `parseContent` : what `parse_file` makes of the bytes of a file;
* `nonBlank` : the bytes of a text that are not white space; `cores` : those of each of its sentences;
* `Shaped` : the form of a parsed file, only the last sentence may lack its delimiter;
  `parseContent_shaped`, `cores_parseContent` : parsing keeps the non-blank bytes of every sentence.
-/

namespace NetworkFileShare

/-! ## Bytes and tokens -/

def space : CChar := byte 32
def tab : CChar := byte 9
def carriageReturn : CChar := byte 13
def newline : CChar := byte 10

/-- `' '`, `'\t'` or `'\r'`. -/
def isSpaceChar (c : CChar) : Bool := c = space || c = tab || c = carriageReturn

/-- `is_delimiter`. -/
def isDelimiter (c : CChar) : Bool := c = byte 46 || c = byte 33 || c = byte 63

/-- White space of a text file. -/
def isBlank (c : CChar) : Bool := isSpaceChar c || c = newline

/-- The bytes that are not white space. -/
def nonBlank (s : CStr) : CStr := s.filter fun c => !isBlank c

abbrev Token := CStr

abbrev Sentence := List Token

/-- `is_space_token`. -/
def isSpaceToken (t : Token) : Bool := t ≠ [] && t.all isSpaceChar

/-- `is_newline_token`. -/
def isNewlineToken (t : Token) : Bool := t = [newline]

/-- `should_skip_for_indexing`. -/
def shouldSkipForIndexing (t : Token) : Bool := isSpaceToken t || isNewlineToken t

/-- `is_delimiter(t[0])`. -/
def startsWithDelimiter (t : Token) : Bool := t.head?.any isDelimiter

/-- The slots of the array `sentences` in use, and how many of them count. -/
structure FileContent where
  sentences : List Sentence
  sentenceCount : Nat
  deriving DecidableEq

/-! ## `parse_file` -/

/-- The loop of `parse_file`: the sentences before `current_sent`, the words of the current one, the word and
the run of blanks being collected. -/
structure ParseState where
  before : List Sentence
  words : Sentence
  word : CStr
  spaceBuf : CStr
  deriving DecidableEq

namespace ParseState

def init : ParseState := ⟨[], [], [], []⟩

/-- `if (word_idx > 0)`: the word is added to the current sentence. -/
def flushWord (st : ParseState) : ParseState :=
  if st.word = [] then st else { st with words := st.words ++ [st.word], word := [] }

/-- The run of blanks is added to the current sentence, when the look-ahead meets another byte. -/
def flushSpaces (st : ParseState) : ParseState :=
  if st.spaceBuf = [] then st else { st with words := st.words ++ [st.spaceBuf], spaceBuf := [] }

def addToken (st : ParseState) (t : Token) : ParseState := { st with words := st.words ++ [t] }

/-- One byte. The inner loop over blanks is the state `spaceBuf`, which takes no more than it has room for. -/
def parseChar (st : ParseState) (c : CChar) : ParseState :=
  if isSpaceChar c then
    let st := st.flushWord
    if st.spaceBuf.length < MAX_WORD - 1 then { st with spaceBuf := st.spaceBuf ++ [c] } else st
  else
    let st := st.flushSpaces
    if c = newline then st.flushWord.addToken [newline]
    else if isDelimiter c then
      let st := st.flushWord.addToken [c]
      { st with before := st.before ++ [st.words], words := [] }
    else
      let st := { st with word := st.word ++ [c] }
      if st.word.length ≥ MAX_WORD - 1 then st.flushWord else st

/-- The end of the file: the last token, and whether the last sentence counts. -/
def finish (st : ParseState) : FileContent :=
  let st := st.flushSpaces.flushWord
  let count := if st.before = [] then 0 else st.before.length + 1
  let count := if 0 < count ∧ st.words = [] then count - 1 else count
  let count := if st.words ≠ [] then st.before.length + 1 else count
  ⟨(st.before ++ [st.words]).take count, count⟩

end ParseState

/-- `parse_file` on a file that could be opened. -/
def parseContent (text : CStr) : FileContent := (text.foldl ParseState.parseChar .init).finish

/-! ## Segments and cores -/

/-- The sentences of a text: the pieces that end in a delimiter, and what follows the last one. -/
abbrev sentencesOf (text : CStr) : List CStr := Segment.segments isDelimiter text

/-- The non-blank bytes of a sentence. -/
def core (s : Sentence) : CStr := nonBlank s.flatten

/-- The non-blank bytes of each sentence of a text. -/
def cores (text : CStr) : List CStr := (sentencesOf text).map nonBlank

theorem not_isBlank_of_isDelimiter {c : CChar} (h : isDelimiter c = true) : (!isBlank c) = true := by
  simp only [isDelimiter, Bool.or_eq_true, decide_eq_true_eq] at h
  rcases h with (rfl | rfl) | rfl <;> decide

theorem isBlank_of_isSpaceChar {c : CChar} (h : isSpaceChar c = true) : isBlank c = true := by
  simp [isBlank, h]

theorem not_isDelimiter_of_isBlank {c : CChar} (h : isBlank c = true) : isDelimiter c = false := by
  by_contra hd
  have := not_isBlank_of_isDelimiter (c := c) (by simpa using hd)
  rw [h] at this
  cases this

@[simp] theorem nonBlank_nil : nonBlank [] = [] := rfl

@[simp] theorem nonBlank_append (s t : CStr) : nonBlank (s ++ t) = nonBlank s ++ nonBlank t :=
  List.filter_append s t

theorem nonBlank_eq_nil {s : CStr} (h : ∀ c ∈ s, isBlank c = true) : nonBlank s = [] :=
  List.filter_eq_nil_iff.mpr fun c hc => by simp [h c hc]

theorem nonBlank_eq_self {s : CStr} (h : ∀ c ∈ s, isBlank c = false) : nonBlank s = s :=
  List.filter_eq_self.mpr fun c hc => by simp [h c hc]

@[simp] theorem core_nil : core [] = [] := rfl

@[simp] theorem core_append (s s' : Sentence) : core (s ++ s') = core s ++ core s' := by
  simp [core]

@[simp] theorem core_singleton (t : Token) : core [t] = nonBlank t := by
  simp [core]

theorem core_cons (t : Token) (s : Sentence) : core (t :: s) = nonBlank t ++ core s := by
  simp [core]

theorem flatten_cores (text : CStr) : (cores text).flatten = nonBlank text := by
  have h := congrArg nonBlank (Segment.flatten_segments (p := isDelimiter) text)
  rw [← h, cores, nonBlank, List.filter_flatten]
  rfl

/-! ## The form of a parsed file -/

/-- A token of a parsed file: a newline, a run of blanks, or a run of other bytes. -/
def TokenOk (t : Token) : Prop :=
  t ≠ [] ∧ (t = [newline] ∨ (∀ c ∈ t, isSpaceChar c = true) ∨ ∀ c ∈ t, isBlank c = false)

/-- A token without delimiters. -/
def PlainToken (t : Token) : Prop := TokenOk t ∧ ∀ c ∈ t, isDelimiter c = false

/-- A sentence that ends in its only delimiter. -/
def ClosedSentence (s : Sentence) : Prop :=
  ∃ ts c, s = ts ++ [[c]] ∧ isDelimiter c = true ∧ ∀ t ∈ ts, PlainToken t

/-- A sentence that has no delimiter yet. -/
def OpenSentence (s : Sentence) : Prop := s ≠ [] ∧ ∀ t ∈ s, PlainToken t

/-- Every sentence is closed or open, and only the last may be open. -/
structure Shaped (X : List Sentence) : Prop where
  each : ∀ s ∈ X, ClosedSentence s ∨ OpenSentence s
  closed : ∀ s ∈ X.dropLast, ClosedSentence s

theorem ClosedSentence.tokenOk {s : Sentence} (h : ClosedSentence s) : ∀ t ∈ s, TokenOk t := by
  obtain ⟨ts, c, rfl, hc, hts⟩ := h
  intro t ht
  rcases List.mem_append.mp ht with ht | ht
  · exact (hts t ht).1
  · obtain rfl := List.mem_singleton.mp ht
    refine ⟨by simp, Or.inr (Or.inr fun d hd => ?_)⟩
    obtain rfl := List.mem_singleton.mp hd
    simpa using not_isBlank_of_isDelimiter hc

theorem Shaped.tokenOk {X : List Sentence} (h : Shaped X) {s : Sentence} (hs : s ∈ X) :
    ∀ t ∈ s, TokenOk t := by
  rcases h.each s hs with hc | ho
  · exact hc.tokenOk
  · exact fun t ht => (ho.2 t ht).1

theorem Shaped.ne_nil {X : List Sentence} (h : Shaped X) {s : Sentence} (hs : s ∈ X) : s ≠ [] := by
  rcases h.each s hs with ⟨ts, c, rfl, -⟩ | ho
  · simp
  · exact ho.1

theorem Shaped.tail {s : Sentence} {X : List Sentence} (h : Shaped (s :: X)) : Shaped X := by
  refine ⟨fun u hu => h.each u (List.mem_cons_of_mem _ hu), fun u hu => ?_⟩
  cases X with
  | nil => cases hu
  | cons s' X =>
    refine h.closed u ?_
    rw [List.dropLast_cons_cons]
    exact List.mem_cons_of_mem _ hu

theorem Shaped.nil : Shaped [] := ⟨by simp, by simp⟩

theorem Shaped.drop {X : List Sentence} (h : Shaped X) : ∀ n, Shaped (X.drop n)
  | 0 => h
  | n + 1 => by
    cases X with
    | nil => exact Shaped.nil
    | cons s X => exact h.tail.drop n

/-- All sentences but the last are closed. -/
theorem Shaped.closed_take {X : List Sentence} (h : Shaped X) {n : Nat} (hn : n < X.length) :
    ∀ s ∈ X.take n, ClosedSentence s := by
  intro s hs
  refine h.closed s ?_
  rw [List.dropLast_eq_take]
  exact List.take_subset_take_left X (by omega) hs

theorem Shaped.of_closed {X : List Sentence} (h : ∀ s ∈ X, ClosedSentence s) : Shaped X :=
  ⟨fun s hs => Or.inl (h s hs), fun s hs => h s ((List.dropLast_sublist _).subset hs)⟩

theorem Shaped.take {X : List Sentence} (h : Shaped X) (n : Nat) : Shaped (X.take n) := by
  by_cases hn : n < X.length
  · exact Shaped.of_closed (h.closed_take hn)
  · rwa [List.take_of_length_le (by omega)]

theorem Shaped.singleton {s : Sentence} (h : ClosedSentence s ∨ OpenSentence s) : Shaped [s] := by
  refine ⟨List.forall_mem_singleton.mpr h, fun u hu => ?_⟩
  cases hu

theorem Shaped.append {X Y : List Sentence} (hX : ∀ s ∈ X, ClosedSentence s) (hY : Shaped Y) :
    Shaped (X ++ Y) := by
  refine ⟨fun s hs => ?_, fun s hs => ?_⟩
  · rcases List.mem_append.mp hs with hs | hs
    · exact Or.inl (hX s hs)
    · exact hY.each s hs
  · cases Y with
    | nil =>
      rw [List.append_nil] at hs
      exact hX s ((List.dropLast_sublist _).subset hs)
    | cons t Y =>
      rw [List.dropLast_append_of_ne_nil (by simp)] at hs
      rcases List.mem_append.mp hs with hs | hs
      · exact hX s hs
      · exact hY.closed s hs

/-! ## The loop follows the cut of the text -/

namespace ParseState

/-- The state after the bytes `l`. -/
structure Parsed (l : CStr) (st : ParseState) : Prop where
  before : st.before.map core = (Segment.closed isDelimiter l).map nonBlank
  current : core st.words ++ nonBlank st.word = nonBlank (Segment.rest isDelimiter l)
  empty : (st.words = [] ∧ st.spaceBuf = [] ∧ st.word = []) ↔ Segment.rest isDelimiter l = []
  closed : ∀ s ∈ st.before, ClosedSentence s
  plain : ∀ t ∈ st.words, PlainToken t
  blanks : ∀ c ∈ st.spaceBuf, isSpaceChar c = true
  letters : ∀ c ∈ st.word, isBlank c = false ∧ isDelimiter c = false

theorem plainToken_of_blanks {t : Token} (hne : t ≠ []) (h : ∀ c ∈ t, isSpaceChar c = true) :
    PlainToken t :=
  ⟨⟨hne, Or.inr (Or.inl h)⟩, fun c hc => not_isDelimiter_of_isBlank (isBlank_of_isSpaceChar (h c hc))⟩

theorem plainToken_of_letters {t : Token} (hne : t ≠ [])
    (h : ∀ c ∈ t, isBlank c = false ∧ isDelimiter c = false) : PlainToken t :=
  ⟨⟨hne, Or.inr (Or.inr fun c hc => (h c hc).1)⟩, fun c hc => (h c hc).2⟩

theorem Parsed.flushWord {l : CStr} {st : ParseState} (h : Parsed l st) : Parsed l st.flushWord := by
  unfold ParseState.flushWord
  split
  · exact h
  · rename_i hne
    refine ⟨h.before, ?_, ?_, h.closed, Segment.forall_mem_snoc h.plain (plainToken_of_letters hne h.letters), h.blanks,
      by simp⟩
    · simpa using h.current
    · rw [← h.empty]
      simp [hne]

theorem Parsed.flushSpaces {l : CStr} {st : ParseState} (h : Parsed l st) : Parsed l st.flushSpaces := by
  unfold ParseState.flushSpaces
  split
  · exact h
  · rename_i hne
    refine ⟨h.before, ?_, ?_, h.closed, Segment.forall_mem_snoc h.plain (plainToken_of_blanks hne h.blanks), by simp,
      h.letters⟩
    · have hb := nonBlank_eq_nil fun c hc => isBlank_of_isSpaceChar (h.blanks c hc)
      simpa [hb] using h.current
    · rw [← h.empty]
      simp [hne]

theorem flushSpaces_spaceBuf (st : ParseState) : st.flushSpaces.spaceBuf = [] := by
  unfold flushSpaces
  split
  · assumption
  · rfl

theorem flushWord_word (st : ParseState) : st.flushWord.word = [] := by
  unfold flushWord
  split
  · assumption
  · rfl

theorem flushWord_spaceBuf (st : ParseState) : st.flushWord.spaceBuf = st.spaceBuf := by
  unfold flushWord
  split <;> rfl

/-- A blank goes to the buffer of blanks, or is dropped when that is full. -/
theorem Parsed.blank {l : CStr} {st : ParseState} (h : Parsed l st) {c : CChar}
    (hc : isSpaceChar c = true) : Parsed (l ++ [c]) (st.parseChar c) := by
  have hd : isDelimiter c = false := not_isDelimiter_of_isBlank (isBlank_of_isSpaceChar hc)
  have hb : nonBlank [c] = [] := nonBlank_eq_nil fun d hd => by
    rw [List.mem_singleton.mp hd]
    exact isBlank_of_isSpaceChar hc
  have hw := h.flushWord
  unfold ParseState.parseChar
  simp only [hc, if_true]
  split
  · refine ⟨?_, ?_, ?_, hw.closed, hw.plain, Segment.forall_mem_snoc hw.blanks hc, hw.letters⟩
    · simpa [Segment.closed_snoc, hd] using hw.before
    · simpa [Segment.rest_snoc, hd, hb] using hw.current
    · simp [Segment.rest_snoc, hd]
  · rename_i hfull
    have hne : st.flushWord.spaceBuf ≠ [] := fun he => hfull (by rw [he]; decide)
    refine ⟨?_, ?_, ?_, hw.closed, hw.plain, hw.blanks, hw.letters⟩
    · simpa [Segment.closed_snoc, hd] using hw.before
    · simpa [Segment.rest_snoc, hd, hb] using hw.current
    · simp [Segment.rest_snoc, hd, hne]

/-- A newline is a token of its own. -/
theorem Parsed.newline {l : CStr} {st : ParseState} (h : Parsed l st) :
    Parsed (l ++ [NetworkFileShare.newline]) (st.parseChar NetworkFileShare.newline) := by
  have hs : isSpaceChar NetworkFileShare.newline = false := by decide
  have hd : isDelimiter NetworkFileShare.newline = false := by decide
  have hb : nonBlank [NetworkFileShare.newline] = [] := by decide
  have hf := h.flushSpaces.flushWord
  have hbuf : st.flushSpaces.flushWord.spaceBuf = [] := by
    rw [flushWord_spaceBuf, flushSpaces_spaceBuf]
  have hword := flushWord_word st.flushSpaces
  unfold ParseState.parseChar addToken
  simp only [hs, Bool.false_eq_true, if_false, if_true]
  refine ⟨?_, ?_, ?_, hf.closed, fun t ht => ?_, hf.blanks, hf.letters⟩
  · simpa [Segment.closed_snoc, hd] using hf.before
  · simpa [Segment.rest_snoc, hd, hb] using hf.current
  · simp [Segment.rest_snoc, hd]
  · rcases List.mem_append.mp ht with ht | ht
    · exact hf.plain t ht
    · rw [List.mem_singleton.mp ht]
      refine ⟨⟨by simp, Or.inl rfl⟩, fun c hc => ?_⟩
      rw [List.mem_singleton.mp hc]
      exact hd

/-- A delimiter closes the sentence. -/
theorem Parsed.delimiter {l : CStr} {st : ParseState} (h : Parsed l st) {c : CChar}
    (hc : isDelimiter c = true) : Parsed (l ++ [c]) (st.parseChar c) := by
  have hnb := not_isBlank_of_isDelimiter hc
  have hs : isSpaceChar c = false := by
    by_contra hne
    rw [isBlank_of_isSpaceChar (by simpa using hne)] at hnb
    cases hnb
  have hn : c ≠ NetworkFileShare.newline := by
    rintro rfl
    exact absurd hc (by decide)
  have hb : nonBlank [c] = [c] := by simp [nonBlank, hnb]
  have hf := h.flushSpaces.flushWord
  have hbuf : st.flushSpaces.flushWord.spaceBuf = [] := by
    rw [flushWord_spaceBuf, flushSpaces_spaceBuf]
  have hword := flushWord_word st.flushSpaces
  have hcur := hf.current
  rw [hword, nonBlank_nil, List.append_nil] at hcur
  unfold ParseState.parseChar addToken
  simp only [hs, hn, hc, Bool.false_eq_true, if_false, if_true]
  refine ⟨?_, ?_, ?_, Segment.forall_mem_snoc hf.closed ⟨_, c, rfl, hc, hf.plain⟩, by simp, hf.blanks, hf.letters⟩
  · simp [Segment.closed_snoc, hc, hf.before, hcur]
  · simp [Segment.rest_snoc, hc, hword]
  · simp [Segment.rest_snoc, hc, hbuf, hword]

/-- Any other byte goes to the word, which is closed when it is full. -/
theorem Parsed.letter {l : CStr} {st : ParseState} (h : Parsed l st) {c : CChar}
    (hb : isBlank c = false) (hd : isDelimiter c = false) : Parsed (l ++ [c]) (st.parseChar c) := by
  have hs : isSpaceChar c = false := by
    by_contra hne
    rw [isBlank_of_isSpaceChar (by simpa using hne)] at hb
    cases hb
  have hn : c ≠ NetworkFileShare.newline := by
    rintro rfl
    exact absurd hb (by decide)
  have hf := h.flushSpaces
  have hcore : nonBlank [c] = [c] := by simp [nonBlank, hb]
  have hadd : Parsed (l ++ [c]) { st.flushSpaces with word := st.flushSpaces.word ++ [c] } := by
    refine ⟨?_, ?_, ?_, hf.closed, hf.plain, hf.blanks, Segment.forall_mem_snoc hf.letters ⟨hb, hd⟩⟩
    · simpa [Segment.closed_snoc, hd] using hf.before
    · simp only [nonBlank_append, hcore, Segment.rest_snoc, hd, Bool.false_eq_true, if_false,
        ← List.append_assoc, hf.current]
    · simp [Segment.rest_snoc, hd]
  unfold ParseState.parseChar
  simp only [hs, hn, hd, Bool.false_eq_true, if_false]
  split
  · exact hadd.flushWord
  · exact hadd

theorem Parsed.step {l : CStr} {st : ParseState} (h : Parsed l st) (c : CChar) :
    Parsed (l ++ [c]) (st.parseChar c) := by
  by_cases hs : isSpaceChar c = true
  · exact h.blank hs
  · by_cases hn : c = NetworkFileShare.newline
    · subst hn
      exact h.newline
    · by_cases hd : isDelimiter c = true
      · exact h.delimiter hd
      · exact h.letter (by simp [isBlank, hs, hn]) (by simpa using hd)

/-- The loop over a whole text. -/
theorem parsed_foldl (text : CStr) : Parsed text (text.foldl parseChar .init) := by
  induction text using List.reverseRecOn with
  | nil => exact ⟨rfl, rfl, by simp [init], by simp [init], by simp [init], by simp [init], by simp [init]⟩
  | append_singleton l c ih =>
    rw [List.foldl_append]
    exact ih.step c

/-- Only a last sentence without words does not count. -/
theorem finish_eq (st : ParseState) :
    st.finish =
      let st := st.flushSpaces.flushWord
      if st.words = [] then ⟨st.before, st.before.length⟩
      else ⟨st.before ++ [st.words], st.before.length + 1⟩ := by
  unfold finish
  generalize st.flushSpaces.flushWord = st
  by_cases hw : st.words = []
  · by_cases hb : st.before = []
    · simp [hw, hb]
    · simp [hw, hb]
  · simp [hw, List.take_of_length_le]

end ParseState

/-! ## What `parse_file` returns -/

theorem parseContent_cases (text : CStr) :
    ∃ before words, before.map core = (Segment.closed isDelimiter text).map nonBlank ∧
      core words = nonBlank (Segment.rest isDelimiter text) ∧
      (words = [] ↔ Segment.rest isDelimiter text = []) ∧ (∀ s ∈ before, ClosedSentence s) ∧
      (∀ t ∈ words, PlainToken t) ∧
      parseContent text = if words = [] then ⟨before, before.length⟩
        else ⟨before ++ [words], before.length + 1⟩ := by
  have h := (ParseState.parsed_foldl text).flushSpaces.flushWord
  have hbuf := ParseState.flushWord_spaceBuf (text.foldl ParseState.parseChar .init).flushSpaces
  rw [ParseState.flushSpaces_spaceBuf] at hbuf
  have hword := ParseState.flushWord_word (text.foldl ParseState.parseChar .init).flushSpaces
  refine ⟨_, _, h.before, ?_, ?_, h.closed, h.plain, ParseState.finish_eq _⟩
  · simpa [hword] using h.current
  · simpa [hword, hbuf] using h.empty

/-- All the slots of a parsed file count. -/
theorem sentenceCount_parseContent (text : CStr) :
    (parseContent text).sentenceCount = (parseContent text).sentences.length := by
  obtain ⟨before, words, -, -, -, -, -, h⟩ := parseContent_cases text
  rw [h]
  split <;> simp

/-- **Parsing keeps the non-blank bytes of every sentence.** -/
theorem cores_parseContent (text : CStr) : (parseContent text).sentences.map core = cores text := by
  obtain ⟨before, words, hbefore, hwords, hempty, -, -, h⟩ := parseContent_cases text
  rw [h, cores, sentencesOf, Segment.segments]
  by_cases hw : words = []
  · simp [hw, hempty.mp hw, hbefore]
  · simp [hw, mt hempty.mpr hw, hbefore, hwords]

/-- **A parsed file has the form of one.** -/
theorem parseContent_shaped (text : CStr) : Shaped (parseContent text).sentences := by
  obtain ⟨before, words, -, -, -, hclosed, hplain, h⟩ := parseContent_cases text
  rw [h]
  split
  · exact Shaped.of_closed hclosed
  · rename_i hw
    exact Shaped.append hclosed (Shaped.singleton (Or.inr ⟨hw, hplain⟩))

/-- No parsed file is the one empty sentence that an empty copy stands for. -/
theorem parseContent_ne_emptySentence (text : CStr) : (parseContent text).sentences ≠ [[]] := by
  intro hnil
  have hmem : [] ∈ (parseContent text).sentences := by
    rw [hnil]
    exact List.mem_cons_self
  exact (parseContent_shaped text).ne_nil hmem rfl

end NetworkFileShare
