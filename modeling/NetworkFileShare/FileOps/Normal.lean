import NetworkFileShare.FileOps.Split

/-!
# Parsing what has been written (`file_ops.c`: `write_file_content`, `parse_file`)

* `withGaps` : the tokens of a file with the blanks that are written between them, as tokens of their own;
* `Apart` : tokens that fit, no two runs of blanks side by side; `apart_parse` : those of a parsed file are;
* `flatten_parse_joined` : written and parsed again, they come back with their gaps;
* `text_idempotent` : a second pass changes nothing.
-/

namespace NetworkFileShare

/-- The blank between two tokens as a token. -/
def gapTokens (t t' : Token) : List Token := if tokenGap t t' = [] then [] else [[space]]

/-- The tokens with the blanks that are written between them. -/
def withGaps : List Token → List Token
  | [] => []
  | [t] => [t]
  | t :: t' :: ts => t :: (gapTokens t t' ++ withGaps (t' :: ts))

/-- Two tokens that are not both runs of blanks. -/
def NotBothSpace (t t' : Token) : Prop := ¬(isSpaceToken t = true ∧ isSpaceToken t' = true)

/-- Tokens as a parsed file has them. -/
structure Apart (ts : List Token) : Prop where
  run : ∀ t ∈ ts, IsRun t
  fits : ∀ t ∈ ts, t.length ≤ MAX_WORD - 1
  chain : ts.IsChain NotBothSpace

/-! ## Gaps -/

theorem isSpaceToken_space : isSpaceToken [space] = true := by decide

/-- A gap is one blank, and there is none beside a run of blanks. -/
theorem tokenGap_cases (t t' : Token) : tokenGap t t' = [] ∨
    tokenGap t t' = [space] ∧ isSpaceToken t = false ∧ isSpaceToken t' = false := by
  have hstarts := not_skip_of_delimiter (t := t)
  unfold tokenGap needsSpace
  unfold shouldSkipForIndexing at hstarts ⊢
  generalize isSpaceToken t = a at *
  generalize isSpaceToken t' = b at *
  generalize isNewlineToken t = d at *
  generalize isNewlineToken t' = e at *
  generalize startsWithDelimiter t = f at *
  generalize startsWithDelimiter t' = g at *
  revert hstarts
  clear * -
  revert a b d e f g
  decide

theorem flatten_gapTokens (t t' : Token) : (gapTokens t t').flatten = tokenGap t t' := by
  unfold gapTokens
  rcases tokenGap_cases t t' with h | ⟨h, -⟩
  · rw [if_pos h, h]
    rfl
  · rw [h]
    rfl

theorem tokenGap_words {t t' : Token} (h : isWordToken t = true) (h' : isWordToken t' = true) :
    tokenGap t t' = [space] := by
  obtain ⟨hs, hn, hd⟩ := isWordToken_kind h
  obtain ⟨hs', hn', hd'⟩ := isWordToken_kind h'
  simp [tokenGap, needsSpace, hs, hn, hd, hs', hn', hd']

theorem flatten_withGaps : ∀ ts : List Token, (withGaps ts).flatten = joined ts
  | [] => rfl
  | [_] => List.append_nil _
  | t :: t' :: ts => by
    rw [withGaps, joined, List.flatten_cons, List.flatten_append, flatten_gapTokens, flatten_withGaps (t' :: ts),
      List.append_assoc]

theorem withGaps_cons : ∀ (t : Token) (ts : List Token), ∃ us, withGaps (t :: ts) = t :: us
  | _, [] => ⟨[], rfl⟩
  | t, t' :: ts => ⟨gapTokens t t' ++ withGaps (t' :: ts), rfl⟩

/-- There is nothing to add between tokens and their gaps. -/
theorem joined_withGaps : ∀ ts : List Token, joined (withGaps ts) = joined ts
  | [] => rfl
  | [_] => rfl
  | t :: t' :: ts => by
    have hrest := joined_withGaps (t' :: ts)
    obtain ⟨us, hus⟩ := withGaps_cons t' ts
    rw [withGaps, joined, ← hrest, hus]
    unfold gapTokens
    rcases tokenGap_cases t t' with hgap | ⟨hgap, -⟩
    · rw [if_pos hgap]
      rfl
    · have hnone : ∀ u, tokenGap u [space] = [] ∧ tokenGap [space] u = [] := by
        intro u
        constructor
        · rcases tokenGap_cases u [space] with h | ⟨-, -, h⟩
          · exact h
          · exact absurd isSpaceToken_space (by rw [h]; decide)
        · rcases tokenGap_cases [space] u with h | ⟨-, h, -⟩
          · exact h
          · exact absurd isSpaceToken_space (by rw [h]; decide)
      rw [hgap, if_neg (List.cons_ne_nil _ _)]
      show t ++ tokenGap t [space] ++ ([space] ++ tokenGap [space] t' ++ joined (t' :: us)) = _
      rw [(hnone t).1, (hnone t').2, List.append_nil, List.append_nil, List.append_assoc]

theorem mem_withGaps {u : Token} : ∀ {ts : List Token}, u ∈ withGaps ts → u ∈ ts ∨ u = [space]
  | [], h => by cases h
  | [_], h => Or.inl h
  | t :: t' :: ts, h => by
    rw [withGaps] at h
    rcases List.mem_cons.mp h with rfl | h
    · exact Or.inl List.mem_cons_self
    · rcases List.mem_append.mp h with h | h
      · unfold gapTokens at h
        split at h
        · cases h
        · exact Or.inr (List.mem_singleton.mp h)
      · exact (mem_withGaps h).imp_left (List.mem_cons_of_mem t)

/-! ## What is written falls into the same tokens -/

/-- Two neighbouring tokens do not run into each other. -/
def Parted (t t' : Token) : Prop := ∃ ht ht', joins (t.getLast ht) (t'.head ht') = false

theorem parted {t t' : Token} (ht : IsRun t) (ht' : IsRun t') (hspace : NotBothSpace t t')
    (hword : ¬(isWordToken t = true ∧ isWordToken t' = true)) : Parted t t' := by
  refine ⟨ht.ne_nil, ht'.ne_nil, ?_⟩
  by_contra hjoin
  have hlast := List.getLast_mem ht.ne_nil
  have hhead := List.head_mem ht'.ne_nil
  rcases joins_iff.mp (Bool.not_eq_false _ ▸ hjoin) with ⟨h, h'⟩ | ⟨h, h'⟩
  · exact hspace ⟨isSpaceToken_iff.mpr ⟨ht.ne_nil, ht.all_space hlast h⟩,
      isSpaceToken_iff.mpr ⟨ht'.ne_nil, ht'.all_space hhead h'⟩⟩
  · exact hword ⟨isWordToken_iff.mpr ⟨ht.ne_nil, ht.all_letter hlast h⟩,
      isWordToken_iff.mpr ⟨ht'.ne_nil, ht'.all_letter hhead h'⟩⟩

theorem isRun_space : IsRun [space] := Or.inr (Or.inl isSpaceToken_space)

theorem parted_withGaps : ∀ {ts : List Token}, (∀ t ∈ ts, IsRun t) → ts.IsChain NotBothSpace →
    (withGaps ts).IsChain Parted
  | [], _, _ => .nil
  | [t], _, _ => .singleton t
  | t :: t' :: ts, hrun, hchain => by
    obtain ⟨hnot, htail⟩ := List.isChain_cons_cons.mp hchain
    have hrest := parted_withGaps (fun u hu => hrun u (List.mem_cons_of_mem t hu)) htail
    have ht := hrun t List.mem_cons_self
    have ht' := hrun t' (by simp)
    obtain ⟨us, hus⟩ := withGaps_cons t' ts
    rw [hus] at hrest
    rw [withGaps, hus]
    unfold gapTokens
    rcases tokenGap_cases t t' with hgap | ⟨hgap, hs, hs'⟩
    · rw [if_pos hgap]
      refine List.isChain_cons_cons.mpr ⟨parted ht ht' hnot fun hword => ?_, hrest⟩
      rw [tokenGap_words hword.1 hword.2] at hgap
      cases hgap
    · rw [hgap, if_neg (List.cons_ne_nil _ _)]
      refine List.isChain_cons_cons.mpr ⟨parted ht isRun_space ?_ ?_,
        List.isChain_cons_cons.mpr ⟨parted isRun_space ht' ?_ ?_, hrest⟩⟩
      · rintro ⟨h, -⟩
        rw [hs] at h
        cases h
      · rintro ⟨-, h⟩
        exact absurd h (by decide)
      · rintro ⟨-, h⟩
        rw [hs'] at h
        cases h
      · rintro ⟨h, -⟩
        exact absurd h (by decide)

theorem Apart.run_withGaps {ts : List Token} (h : Apart ts) {t : Token} (ht : t ∈ withGaps ts) :
    IsRun t ∧ t.length ≤ MAX_WORD - 1 := by
  rcases mem_withGaps ht with ht | rfl
  · exact ⟨h.run t ht, h.fits t ht⟩
  · exact ⟨isRun_space, by decide⟩

/-- **The bytes that are written fall into the tokens and their gaps.** -/
theorem pieces_joined {ts : List Token} (h : Apart ts) : pieces (joined ts) = withGaps ts := by
  apply List.splitBy_eq_iff.mpr
  refine ⟨(flatten_withGaps ts).symm, fun hnil => ?_, fun t ht => (h.run_withGaps ht).1.chain,
    parted_withGaps h.run h.chain⟩
  exact (h.run_withGaps hnil).1.ne_nil rfl

/-- **Written and parsed again, tokens come back with their gaps.** -/
theorem flatten_parse_joined {ts : List Token} (h : Apart ts) :
    (parseContent (joined ts)).sentences.flatten = withGaps ts := by
  have hfit : Fits isLetter (joined ts) := by
    rw [wordsFit_iff, pieces_joined h]
    exact fun t ht _ => (h.run_withGaps ht).2
  have htrimmed : ∀ t ∈ withGaps ts, trimmed t = t := fun t ht =>
    (trimmed_eq_self_iff (h.run_withGaps ht).1).mpr fun _ => (h.run_withGaps ht).2
  rw [flatten_parse_of_fits hfit, pieces_joined h, List.map_congr_left htrimmed, List.map_id']

/-! ## The tokens of a parsed file -/

namespace ParseState

/-- A run of blanks is the last token only while it is collected. -/
structure Alternating (st : ParseState) : Prop where
  chain : st.tokens.IsChain NotBothSpace
  last : ∀ t ∈ st.tokens.getLast?, isSpaceToken t = true → st.spaceBuf ≠ []

/-- A token that is not a second run of blanks. -/
theorem Alternating.append {st st' : ParseState} (h : Alternating st) {c : CChar}
    (htokens : st'.tokens = st.tokens ++ [[c]]) (hnew : isSpaceChar c = true → st.spaceBuf = [])
    (hbuf : isSpaceChar c = true → st'.spaceBuf ≠ []) : Alternating st' := by
  have hspace : isSpaceToken [c] = true → isSpaceChar c = true := fun ht =>
    (isSpaceToken_iff.mp ht).2 c List.mem_cons_self
  constructor
  · rw [htokens, isChain_snoc]
    exact ⟨h.chain, fun t ht hboth => h.last t ht hboth.1 (hnew (hspace hboth.2))⟩
  · intro t ht hskip
    rw [htokens] at ht
    obtain rfl := eq_of_getLast?_snoc ht
    exact hbuf (hspace hskip)

/-- A last token that grows. -/
theorem Alternating.extend {st st' : ParseState} (h : Alternating st) {ts : List Token} {t t' : Token}
    (htokens : st.tokens = ts ++ [t]) (htokens' : st'.tokens = ts ++ [t'])
    (hsame : isSpaceToken t' = isSpaceToken t) (hbuf : st'.spaceBuf = [] → st.spaceBuf = []) : Alternating st' := by
  have hchain := h.chain
  rw [htokens, isChain_snoc] at hchain
  constructor
  · rw [htokens', isChain_snoc]
    refine ⟨hchain.1, fun u hu hboth => hchain.2 u hu ⟨hboth.1, ?_⟩⟩
    rw [← hsame]
    exact hboth.2
  · intro u hu hskip hnil
    rw [htokens'] at hu
    obtain rfl := eq_of_getLast?_snoc hu
    refine h.last t ?_ (hsame ▸ hskip) (hbuf hnil)
    rw [htokens]
    exact List.getLast?_concat

theorem Alternating.step {l : CStr} {st : ParseState} (h : Alternating st) (ht : Tokenized l st) (hp : Parsed l st)
    (c : CChar) : Alternating (st.parseChar c) := by
  rcases byte_kind c with hc | hc | hc
  · by_cases hbuf : st.spaceBuf = []
    · obtain ⟨htokens, hspaces, -⟩ := parseChar_firstBlank hc hbuf
      refine h.append htokens (fun _ => hbuf) fun _ => ?_
      rw [hspaces]
      exact List.cons_ne_nil c []
    · have hword : st.word = [] := ht.one.resolve_left hbuf
      by_cases hroom : st.spaceBuf.length < MAX_WORD - 1
      · have htokens : st.tokens = st.before.flatten ++ st.words ++ [st.spaceBuf] := by simp [tokens, hbuf, hword]
        have htokens' : tokens { st with spaceBuf := st.spaceBuf ++ [c] } =
            st.before.flatten ++ st.words ++ [st.spaceBuf ++ [c]] := by simp [tokens, hword]
        rw [parseChar_nextBlank hc hword hroom]
        refine h.extend htokens htokens' ?_ fun hnil => absurd hnil (by simp)
        rw [isSpaceToken_iff.mpr ⟨hbuf, hp.blanks⟩]
        exact isSpaceToken_iff.mpr ⟨by simp, Segment.forall_mem_snoc hp.blanks hc⟩
      · rwa [parseChar_fullBlank hc hword hroom]
  · have hspace := (single_kind hc).1
    obtain ⟨htokens, -⟩ := parseChar_single hspace hc ht.one
    refine h.append htokens (fun hs => ?_) fun hs => ?_
    all_goals
      rw [hspace] at hs
      cases hs
  · obtain ⟨hblank, hdelimiter⟩ := isLetter_iff.mp hc
    have hspace := isSpaceChar_of_isLetter hc
    obtain ⟨htokens, hspaces, -⟩ := @parseChar_letter st c hblank hdelimiter
    by_cases hword : st.word = []
    · have hnew : (st.parseChar c).tokens = st.tokens ++ [[c]] := by
        rw [htokens, ← tokens_flushSpaces ht.one]
        simp [tokens, flushSpaces_spaceBuf, flushSpaces_word, hword]
      refine h.append hnew (fun hs => ?_) fun hs => ?_
      all_goals
        rw [hspace] at hs
        cases hs
    · have hbuf : st.spaceBuf = [] := ht.one.resolve_right hword
      have hflush : st.flushSpaces = st := if_pos hbuf
      have hlast : st.tokens = st.before.flatten ++ st.words ++ [st.word] := by simp [tokens, hbuf, hword]
      have hnot : ∀ t : Token, c ∈ t → isSpaceToken t = false := by
        intro t hmem
        by_contra hne
        rw [(isSpaceToken_iff.mp (Bool.not_eq_false _ ▸ hne)).2 c hmem] at hspace
        cases hspace
      rw [hflush] at htokens
      have htokens' : (st.parseChar c).tokens = st.before.flatten ++ st.words ++ [st.word ++ [c]] := by
        rw [htokens]
        simp [tokens, hbuf]
      refine h.extend hlast htokens' ?_ fun _ => hbuf
      · have hletters : isWordToken st.word = true :=
          isWordToken_iff.mpr ⟨hword, fun d hd => isLetter_iff.mpr (hp.letters d hd)⟩
        rw [hnot _ (List.mem_append_right _ List.mem_cons_self), (isWordToken_kind hletters).1]

/-- The loop over a whole text. -/
theorem alternating_foldl (text : CStr) : Alternating (text.foldl parseChar .init) := by
  induction text using List.reverseRecOn with
  | nil =>
    refine ⟨.nil, fun t ht => ?_⟩
    cases ht
  | append_singleton l c ih =>
    rw [List.foldl_append]
    exact ih.step (tokenized_foldl l) (parsed_foldl l) c

end ParseState

/-- The tokens of a parsed file fit and stand apart. -/
theorem apart_parse (text : CStr) : Apart (parseContent text).sentences.flatten := by
  refine ⟨fun t ht => ?_, fun t ht => ?_, ?_⟩
  · obtain ⟨s, hs, hts⟩ := List.mem_flatten.mp ht
    exact (parseContent_shaped text).isRun hs t hts
  · obtain ⟨s, hs, hts⟩ := List.mem_flatten.mp ht
    exact length_parseContent hs hts
  · rw [flatten_parseContent]
    exact (ParseState.alternating_foldl text).chain

/-- What is written of a parsed file. -/
theorem text_eq_joined (text : CStr) : (parseContent text).text = joined (parseContent text).sentences.flatten := by
  rw [FileContent.text, sentenceCount_parseContent, List.take_length, render_eq_joined (parseContent_shaped text)]

/-- **Parsing and writing once more changes nothing.** -/
theorem text_idempotent (text : CStr) : (parseContent (parseContent text).text).text = (parseContent text).text := by
  rw [text_eq_joined (parseContent text).text, text_eq_joined text, flatten_parse_joined (apart_parse text),
    joined_withGaps]

end NetworkFileShare
