import NetworkFileShare.FileOps.Stream
import NetworkFileShare.Lib.Runs

/-!
# The pieces of a text

A text falls into words, runs of blanks, newlines and delimiters, whatever room a program has for them.

* `pieces` : these pieces; `pieces_snoc_new`, `pieces_snoc_join` : the piece one more byte belongs to;
* `Fits` : no run of one kind of byte is longer than a token may be; `fits_iff` : it can be read off the pieces;
* `parseContent_form` : the form of what `parse_file` returns, and how many sentences it counts.
-/

namespace NetworkFileShare

/-! ## Words and runs -/

/-- A byte of a word. -/
def isLetter (c : CChar) : Bool := !isBlank c && !isDelimiter c

/-- A token that is (a part of) a word. -/
def isWordToken (t : Token) : Bool := t ≠ [] && t.all isLetter

/-- A newline, a delimiter, a run of blanks or a run of letters. -/
def IsRun (t : Token) : Prop :=
  (∃ c, t = [c] ∧ (c = newline ∨ isDelimiter c = true)) ∨ isSpaceToken t = true ∨ isWordToken t = true

/-- Two neighbouring bytes of one run. -/
def joins (p c : CChar) : Bool := isSpaceChar p && isSpaceChar c || isLetter p && isLetter c

/-- The longest runs of blanks and of letters, and every newline and delimiter by itself. -/
def pieces (text : CStr) : List Token := text.splitBy joins

/-- No run of bytes of a kind is longer than a token may be. -/
def Fits (kind : CChar → Bool) (text : CStr) : Prop :=
  ∀ r, r <:+: text → (∀ c ∈ r, kind c = true) → r.length ≤ MAX_WORD - 1

theorem isLetter_iff {c : CChar} : isLetter c = true ↔ isBlank c = false ∧ isDelimiter c = false := by
  simp [isLetter]

theorem isSpaceChar_of_isLetter {c : CChar} (h : isLetter c = true) : isSpaceChar c = false := by
  have hblank := (isLetter_iff.mp h).1
  rw [isBlank, Bool.or_eq_false_iff] at hblank
  exact hblank.1

/-- A newline or a delimiter is neither a blank nor a letter. -/
theorem single_kind {c : CChar} (h : c = newline ∨ isDelimiter c = true) :
    isSpaceChar c = false ∧ isLetter c = false := by
  rcases h with rfl | h
  · decide
  · have hblank := not_isBlank_of_isDelimiter h
    rw [Bool.not_eq_true', isBlank, Bool.or_eq_false_iff] at hblank
    exact ⟨hblank.1, by simp [isLetter, h]⟩

/-- Every byte is of one of three kinds. -/
theorem byte_kind (c : CChar) :
    isSpaceChar c = true ∨ (c = newline ∨ isDelimiter c = true) ∨ isLetter c = true := by
  by_cases hs : isSpaceChar c = true
  · exact Or.inl hs
  · by_cases hsingle : c = newline ∨ isDelimiter c = true
    · exact Or.inr (Or.inl hsingle)
    · rw [not_or, Bool.not_eq_true] at hsingle
      exact Or.inr (Or.inr (by simp [isLetter, isBlank, hs, hsingle.1, hsingle.2]))

theorem isSpaceToken_iff {t : Token} : isSpaceToken t = true ↔ t ≠ [] ∧ ∀ c ∈ t, isSpaceChar c = true := by
  rw [isSpaceToken, Bool.and_eq_true, decide_eq_true_eq, List.all_eq_true]

theorem isWordToken_iff {t : Token} : isWordToken t = true ↔ t ≠ [] ∧ ∀ c ∈ t, isLetter c = true := by
  rw [isWordToken, Bool.and_eq_true, decide_eq_true_eq, List.all_eq_true]

theorem IsRun.ne_nil {t : Token} (h : IsRun t) : t ≠ [] := by
  rcases h with ⟨c, rfl, -⟩ | h | h
  · exact List.cons_ne_nil c []
  · exact (isSpaceToken_iff.mp h).1
  · exact (isWordToken_iff.mp h).1

/-- A word is neither white space nor a delimiter. -/
theorem isWordToken_kind {t : Token} (h : isWordToken t = true) :
    isSpaceToken t = false ∧ isNewlineToken t = false ∧ startsWithDelimiter t = false := by
  obtain ⟨hne, hall⟩ := isWordToken_iff.mp h
  obtain ⟨c, cs, rfl⟩ := List.exists_cons_of_ne_nil hne
  have hc := hall c List.mem_cons_self
  refine ⟨?_, ?_, (isLetter_iff.mp hc).2⟩
  · by_contra hspace
    have hs := (isSpaceToken_iff.mp (Bool.not_eq_false _ ▸ hspace)).2 c List.mem_cons_self
    rw [isSpaceChar_of_isLetter hc] at hs
    cases hs
  · by_contra hnewline
    have hn : c :: cs = [newline] := by simpa [isNewlineToken] using hnewline
    rw [(List.cons.inj hn).1] at hc
    exact absurd hc (by decide)

/-- A run of blanks is no word. -/
theorem not_word_of_space {t : Token} (h : isSpaceToken t = true) : isWordToken t = false := by
  by_contra hword
  rw [(isWordToken_kind (Bool.not_eq_false _ ▸ hword)).1] at h
  cases h

/-- Neither is a newline or a delimiter. -/
theorem not_word_of_single {c : CChar} (hc : c = newline ∨ isDelimiter c = true) : isWordToken [c] = false := by
  rw [isWordToken, List.all_cons, (single_kind hc).2]
  rfl

/-! ## Pieces -/

theorem joins_iff {p c : CChar} :
    joins p c = true ↔ (isSpaceChar p = true ∧ isSpaceChar c = true) ∨ (isLetter p = true ∧ isLetter c = true) := by
  simp [joins]

theorem flatten_pieces (text : CStr) : (pieces text).flatten = text := List.flatten_splitBy joins text

theorem pieces_snoc_new {l : CStr} {c : CChar} (h : ∀ p ∈ l.getLast?, joins p c = false) :
    pieces (l ++ [c]) = pieces l ++ [[c]] :=
  Runs.splitBy_snoc_new h

theorem pieces_snoc_join {l : CStr} {p c : CChar} (hp : p ∈ l.getLast?) (h : joins p c = true) :
    ∃ ps t, pieces l = ps ++ [t] ∧ pieces (l ++ [c]) = ps ++ [t ++ [c]] :=
  Runs.splitBy_snoc_join hp h

/-- Bytes that are joined one after another are of one kind. -/
theorem kind_of_chain {kind : CChar → Bool} {c : CChar} {t : Token} (h : (c :: t).IsChain fun p d => joins p d)
    (hstep : ∀ p d, joins p d = true → kind p = true → kind d = true) (hc : kind c = true) :
    ∀ d ∈ c :: t, kind d = true := by
  induction t generalizing c with
  | nil =>
    intro d hd
    rw [List.mem_singleton.mp hd]
    exact hc
  | cons d t ih =>
    obtain ⟨hjoin, hrest⟩ := List.isChain_cons_cons.mp h
    intro e he
    rcases List.mem_cons.mp he with rfl | he
    · exact hc
    · exact ih hrest (hstep c d hjoin hc) e he

theorem joins_space {p d : CChar} (h : joins p d = true) (hp : isSpaceChar p = true) : isSpaceChar d = true := by
  rcases joins_iff.mp h with h | h
  · exact h.2
  · rw [isSpaceChar_of_isLetter h.1] at hp
    cases hp

theorem joins_letter {p d : CChar} (h : joins p d = true) (hp : isLetter p = true) : isLetter d = true := by
  rcases joins_iff.mp h with h | h
  · rw [isSpaceChar_of_isLetter hp] at h
    cases h.1
  · exact h.2

/-- A chain of joined bytes is a run. -/
theorem isRun_of_chain {t : Token} (hne : t ≠ []) (h : t.IsChain fun p d => joins p d) : IsRun t := by
  obtain ⟨c, t, rfl⟩ := List.exists_cons_of_ne_nil hne
  rcases byte_kind c with hc | hc | hc
  · exact Or.inr (Or.inl (isSpaceToken_iff.mpr ⟨hne, kind_of_chain h (fun _ _ => joins_space) hc⟩))
  · refine Or.inl ⟨c, ?_, hc⟩
    rcases t with _ | ⟨d, t⟩
    · rfl
    · have hjoin := (List.isChain_cons_cons.mp h).1
      rw [joins, (single_kind hc).1, (single_kind hc).2] at hjoin
      cases hjoin
  · exact Or.inr (Or.inr (isWordToken_iff.mpr ⟨hne, kind_of_chain h (fun _ _ => joins_letter) hc⟩))

theorem isRun_of_mem_pieces {text : CStr} {t : Token} (h : t ∈ pieces text) : IsRun t :=
  isRun_of_chain (List.ne_nil_of_mem_splitBy h) (List.isChain_of_mem_splitBy h)

theorem chain_of_kind {kind : CChar → Bool} {t : CStr} (ht : ∀ c ∈ t, kind c = true)
    (hjoin : ∀ p c, kind p = true → kind c = true → joins p c = true) : t.IsChain fun p d => joins p d := by
  induction t with
  | nil => exact .nil
  | cons p t ih =>
    rcases t with _ | ⟨c, t⟩
    · exact .singleton p
    · have hrest := ih fun d hd => ht d (List.mem_cons_of_mem p hd)
      exact List.isChain_cons_cons.mpr ⟨hjoin p c (ht p (by simp)) (ht c (by simp)), hrest⟩

theorem joins_of_space {p c : CChar} (hp : isSpaceChar p = true) (hc : isSpaceChar c = true) : joins p c = true :=
  joins_iff.mpr (Or.inl ⟨hp, hc⟩)

theorem joins_of_letter {p c : CChar} (hp : isLetter p = true) (hc : isLetter c = true) : joins p c = true :=
  joins_iff.mpr (Or.inr ⟨hp, hc⟩)

/-- The neighbours within a run are joined. -/
theorem IsRun.chain {t : Token} (h : IsRun t) : t.IsChain fun p d => joins p d := by
  rcases h with ⟨c, rfl, -⟩ | h | h
  · exact .singleton c
  · exact chain_of_kind (isSpaceToken_iff.mp h).2 fun _ _ => joins_of_space
  · exact chain_of_kind (isWordToken_iff.mp h).2 fun _ _ => joins_of_letter

/-- A run with a blank holds nothing else. -/
theorem IsRun.all_space {t : Token} (h : IsRun t) {c : CChar} (hc : c ∈ t) (hs : isSpaceChar c = true) :
    ∀ d ∈ t, isSpaceChar d = true := by
  rcases h with ⟨d, rfl, hd⟩ | h | h
  · rw [List.mem_singleton.mp hc, (single_kind hd).1] at hs
    cases hs
  · exact (isSpaceToken_iff.mp h).2
  · rw [isSpaceChar_of_isLetter ((isWordToken_iff.mp h).2 c hc)] at hs
    cases hs

/-- A run with a letter is a word. -/
theorem IsRun.all_letter {t : Token} (h : IsRun t) {c : CChar} (hc : c ∈ t) (hl : isLetter c = true) :
    ∀ d ∈ t, isLetter d = true := by
  rcases h with ⟨d, rfl, hd⟩ | h | h
  · rw [List.mem_singleton.mp hc, (single_kind hd).2] at hl
    cases hl
  · have hs := (isSpaceToken_iff.mp h).2 c hc
    rw [isSpaceChar_of_isLetter hl] at hs
    cases hs
  · exact (isWordToken_iff.mp h).2

/-! ## Runs that fit -/

theorem Fits.prefix {kind : CChar → Bool} {l : CStr} {c : CChar} (h : Fits kind (l ++ [c])) : Fits kind l :=
  fun r hr hkind => h r (hr.trans (List.infix_append' [] l [c])) hkind

/-- The longest runs are among the pieces. -/
theorem fits_iff {kind : CChar → Bool} (hjoin : ∀ p c, kind p = true → kind c = true → joins p c = true)
    (hrun : ∀ t, IsRun t → ∀ c ∈ t, kind c = true → ∀ d ∈ t, kind d = true) {text : CStr} :
    Fits kind text ↔ ∀ t ∈ pieces text, (∀ c ∈ t, kind c = true) → t.length ≤ MAX_WORD - 1 := by
  constructor
  · intro h t ht
    apply h
    rw [← flatten_pieces text]
    exact List.infix_of_mem_flatten ht
  · intro h r hr hall
    by_cases hnil : r = []
    · rw [hnil]
      exact Nat.zero_le _
    · obtain ⟨t, ht, hrt⟩ := Runs.exists_run_of_infix hnil (chain_of_kind hall hjoin) hr
      obtain ⟨c, hc⟩ := List.exists_mem_of_ne_nil r hnil
      have hkind := hrun t (isRun_of_mem_pieces ht) c (hrt.subset hc) (hall c hc)
      exact hrt.length_le.trans (h t ht hkind)

theorem blanksFit_iff {text : CStr} :
    Fits isSpaceChar text ↔ ∀ t ∈ pieces text, (∀ c ∈ t, isSpaceChar c = true) → t.length ≤ MAX_WORD - 1 :=
  fits_iff (fun _ _ => joins_of_space) fun _ h _ hc hs => h.all_space hc hs

theorem wordsFit_iff {text : CStr} :
    Fits isLetter text ↔ ∀ t ∈ pieces text, (∀ c ∈ t, isLetter c = true) → t.length ≤ MAX_WORD - 1 :=
  fits_iff (fun _ _ => joins_of_letter) fun _ h _ hc hl => h.all_letter hc hl

/-! ## The form of a parsed file -/

/-- No sentence is empty, a delimiter only stands at the end of one, and every sentence but the last ends in one. -/
structure WellShaped (X : List Sentence) : Prop where
  ne_nil : ∀ s ∈ X, s ≠ []
  inner : ∀ s ∈ X, ∀ t ∈ s.dropLast, startsWithDelimiter t = false
  ends : ∀ s ∈ X.dropLast, s.getLast?.any startsWithDelimiter = true

theorem ClosedSentence.ends {s : Sentence} (h : ClosedSentence s) : s.getLast?.any startsWithDelimiter = true := by
  obtain ⟨ts, c, rfl, hc, -⟩ := h
  rw [List.getLast?_concat]
  exact hc

theorem Shaped.wellShaped {X : List Sentence} (h : Shaped X) : WellShaped X :=
  ⟨fun _ => h.ne_nil, fun _ hs t ht => startsWithDelimiter_plain (h.plain hs t ht), fun s hs => (h.closed s hs).ends⟩

theorem PlainToken.isRun {t : Token} (h : PlainToken t) : IsRun t := by
  obtain ⟨⟨hne, hkind⟩, hplain⟩ := h
  rcases hkind with rfl | hspace | hletter
  · exact Or.inl ⟨newline, rfl, Or.inl rfl⟩
  · exact Or.inr (Or.inl (isSpaceToken_iff.mpr ⟨hne, hspace⟩))
  · exact Or.inr (Or.inr (isWordToken_iff.mpr ⟨hne, fun c hc => isLetter_iff.mpr ⟨hletter c hc, hplain c hc⟩⟩))

theorem Shaped.isRun {X : List Sentence} (h : Shaped X) {s : Sentence} (hs : s ∈ X) : ∀ t ∈ s, IsRun t := by
  intro t ht
  rcases h.each s hs with ⟨ts, c, rfl, hc, hts⟩ | ho
  · rcases List.mem_append.mp ht with ht | ht
    · exact (hts t ht).isRun
    · exact Or.inl ⟨c, List.mem_singleton.mp ht, Or.inr hc⟩
  · exact (ho.2 t ht).isRun

/-- No token is too long. -/
theorem length_parseContent {text : CStr} {s : Sentence} (hs : s ∈ (parseContent text).sentences) {t : Token}
    (ht : t ∈ s) : t.length ≤ MAX_WORD - 1 := by
  have hmem : t ∈ (parseContent text).sentences.flatten := List.mem_flatten.mpr ⟨s, hs, ht⟩
  rw [flatten_parseContent] at hmem
  exact Nat.le_pred_of_lt ((ParseState.tokenized_foldl text).fits t hmem)

/-- One sentence for every delimiter, and one more if something follows the last of them. -/
theorem sentenceCount_eq (text : CStr) :
    (parseContent text).sentenceCount =
      text.countP isDelimiter + if (text.rtakeWhile fun c => !isDelimiter c) = [] then 0 else 1 := by
  have hlength := congrArg List.length (cores_parseContent text)
  rw [List.length_map, cores, List.length_map, sentencesOf] at hlength
  rw [sentenceCount_parseContent, hlength, ← Segment.rest_eq_rtakeWhile, Segment.segments, ← Segment.length_closed]
  split
  · rfl
  · exact List.length_append

/-- **What `parse_file` returns**: no sentence is empty, every token is a run that fits, a delimiter closes its sentence
and nothing but the end of the file does so otherwise, and every delimiter is counted. -/
theorem parseContent_form (text : CStr) :
    WellShaped (parseContent text).sentences ∧
      (parseContent text).sentenceCount = (parseContent text).sentences.length ∧
      (∀ s ∈ (parseContent text).sentences, ∀ t ∈ s,
        IsRun t ∧ (isWordToken t = true → t.length ≤ MAX_WORD - 1)) ∧
      (parseContent text).sentenceCount =
        text.countP isDelimiter + if (text.rtakeWhile fun c => !isDelimiter c) = [] then 0 else 1 := by
  have hshape := parseContent_shaped text
  refine ⟨hshape.wellShaped, sentenceCount_parseContent text, fun s hs t ht => ?_, sentenceCount_eq text⟩
  exact ⟨hshape.isRun hs t ht, fun _ => length_parseContent hs ht⟩

end NetworkFileShare
