import NetworkFileShare.FileOps.Stream

/-!
# Parsing and writing back (`file_ops.c`: `parse_file`, `write_file_content`)

* `joined` : the bytes of a file by its tokens alone, with the blanks between any two neighbours;
  `render_eq_joined` : the sentences of a parsed file are written as their tokens;
* `RunsFit` : no word and no run of blanks is too long for a token;
* `spaced` : a text with a blank after each delimiter that another visible byte follows;
* `text_parseContent` : a text whose runs fit comes back as `spaced`.
-/

namespace NetworkFileShare

/-! ## The tokens side by side -/

/-- The blank between two neighbouring tokens of a file, of one sentence or of two. -/
def tokenGap (t t' : Token) : CStr :=
  if startsWithDelimiter t = true then if shouldSkipForIndexing t' = true then [] else [space]
  else if needsSpace t t' = true then [space] else []

/-- The tokens of a file with the blanks between them. -/
def joined : List Token → CStr
  | [] => []
  | [t] => t
  | t :: t' :: ts => t ++ tokenGap t t' ++ joined (t' :: ts)

theorem tokenGap_plain {t : Token} (ht : PlainToken t) (t' : Token) :
    tokenGap t t' = if needsSpace t t' then [space] else [] := by
  rw [tokenGap, startsWithDelimiter_plain ht, if_neg Bool.false_ne_true]

/-- Inside a sentence only the last token may be a delimiter. -/
theorem renderSentence_eq_joined {s : Sentence} (hplain : ∀ t ∈ s.dropLast, PlainToken t) :
    renderSentence s = joined s := by
  induction s with
  | nil => rfl
  | cons t ts ih =>
    rcases ts with _ | ⟨t', ts⟩
    · rfl
    · rw [List.dropLast_cons_cons] at hplain
      rw [renderSentence, joined, tokenGap_plain (hplain t List.mem_cons_self),
        ih fun u hu => hplain u (List.mem_cons_of_mem t hu)]

/-- The tokens of two parts, with the blank where they meet. -/
theorem joined_append : ∀ (ts : List Token) (t t' : Token) (ts' : List Token),
    joined (ts ++ [t] ++ t' :: ts') = joined (ts ++ [t]) ++ tokenGap t t' ++ joined (t' :: ts')
  | [], _, _, _ => rfl
  | [u], t, t', ts' => by
    show u ++ tokenGap u t ++ (t ++ tokenGap t t' ++ joined (t' :: ts')) = u ++ tokenGap u t ++ t ++ _ ++ _
    simp only [List.append_assoc]
  | u :: v :: ts, t, t', ts' => by
    have hrest := joined_append (v :: ts) t t' ts'
    show u ++ tokenGap u v ++ joined (v :: ts ++ [t] ++ t' :: ts') =
      u ++ tokenGap u v ++ joined (v :: ts ++ [t]) ++ tokenGap t t' ++ joined (t' :: ts')
    rw [hrest]
    simp only [List.append_assoc]

/-- Between two sentences stands the blank of the delimiter and the token after it. -/
theorem sentenceGap_eq_tokenGap {ts : Sentence} {c : CChar} (hc : isDelimiter c = true) (t' : Token) (ts' : Sentence) :
    sentenceGap (ts ++ [[c]]) (t' :: ts') = tokenGap [c] t' := by
  have hstarts : startsWithDelimiter [c] = true := hc
  rw [sentenceGap_closed hc, tokenGap, if_pos hstarts]
  generalize shouldSkipForIndexing t' = a
  revert a
  decide

/-- **The sentences of a parsed file are written as their tokens.** -/
theorem render_eq_joined {X : List Sentence} (hX : Shaped X) : render X = joined X.flatten := by
  induction X with
  | nil => rfl
  | cons s X ih =>
    have hsentence := renderSentence_eq_joined (hX.plain (s := s) List.mem_cons_self)
    rcases X with _ | ⟨s', X⟩
    · rw [render, hsentence, List.flatten_singleton]
    · obtain ⟨ts, c, rfl, hc, -⟩ := hX.closed s (by simp)
      obtain ⟨t', ts', rfl⟩ := List.exists_cons_of_ne_nil (hX.tail.ne_nil (s := s') List.mem_cons_self)
      rw [render, hsentence, sentenceGap_eq_tokenGap hc, ih hX.tail]
      exact (joined_append ts [c] t' (ts' ++ X.flatten)).symm

/-! ## The bytes side by side -/

/-- The blank that goes between two neighbouring bytes. -/
def byteGap (p c : CChar) : CStr := if isDelimiter p && !isBlank c then [space] else []

/-- A text with a blank after each delimiter that is directly followed by a byte other than white space. -/
def spaced : CStr → CStr
  | [] => []
  | [c] => [c]
  | p :: c :: cs => p :: byteGap p c ++ spaced (c :: cs)

theorem spaced_snoc : ∀ (l : CStr) (p c : CChar), spaced (l ++ [p] ++ [c]) = spaced (l ++ [p]) ++ byteGap p c ++ [c]
  | [], _, _ => rfl
  | [q], p, c => by
    show q :: byteGap q p ++ (p :: byteGap p c ++ [c]) = q :: byteGap q p ++ [p] ++ byteGap p c ++ [c]
    simp only [List.append_assoc, List.cons_append, List.nil_append]
  | q :: q' :: l, p, c => by
    have hrest := spaced_snoc (q' :: l) p c
    show q :: byteGap q q' ++ spaced (q' :: l ++ [p] ++ [c]) =
      q :: byteGap q q' ++ spaced (q' :: l ++ [p]) ++ byteGap p c ++ [c]
    rw [hrest]
    simp only [List.append_assoc]

/-- No run of blanks and no run of the bytes of words is longer than a token may be. -/
def RunsFit (text : CStr) : Prop :=
  ∀ r, r <:+: text → (∀ c ∈ r, isSpaceChar c = true) ∨ (∀ c ∈ r, isBlank c = false ∧ isDelimiter c = false) →
    r.length ≤ MAX_WORD - 1

theorem RunsFit.prefix {l : CStr} {c : CChar} (h : RunsFit (l ++ [c])) : RunsFit l :=
  fun r hr hkind => h r (hr.trans (List.infix_append' [] l [c])) hkind

/-- The blank between two tokens depends on the bytes they are made of. -/
theorem tokenGap_of_endsIn {t t' : Token} {p c : CChar} (ht : EndsIn t p) (ht' : EndsIn t' c)
    (hword : ¬((isBlank p = false ∧ isDelimiter p = false) ∧ isBlank c = false ∧ isDelimiter c = false)) :
    tokenGap t t' = byteGap p c := by
  have hp := not_isDelimiter_of_isBlank (c := p)
  obtain ⟨hskip, hstarts⟩ := ht
  obtain ⟨hskip', hstarts'⟩ := ht'
  rw [← hskip, ← hstarts] at hword hp
  rw [← hskip', ← hstarts'] at hword
  unfold tokenGap byteGap needsSpace
  rw [← hstarts, ← hskip']
  unfold shouldSkipForIndexing at hword hp ⊢
  generalize isSpaceToken t = a at *
  generalize isSpaceToken t' = b at *
  generalize isNewlineToken t = d at *
  generalize isNewlineToken t' = e at *
  generalize startsWithDelimiter t = f at *
  generalize startsWithDelimiter t' = g at *
  revert hword hp
  clear * -
  revert a b d e f g
  decide

/-- A last token that grows by a byte of its kind. -/
theorem joined_grow {ts : List Token} {t t' : Token} {c : CChar}
    (hskip : shouldSkipForIndexing t' = shouldSkipForIndexing t)
    (hstarts : startsWithDelimiter t' = startsWithDelimiter t) (ht' : t' = t ++ [c]) :
    joined (ts ++ [t']) = joined (ts ++ [t]) ++ [c] := by
  induction ts using List.reverseRecOn with
  | nil => exact ht'
  | append_singleton ts u _ =>
    have hgap : tokenGap u t' = tokenGap u t := by
      unfold tokenGap needsSpace
      rw [hstarts]
      unfold shouldSkipForIndexing at hskip ⊢
      generalize isSpaceToken t = a at *
      generalize isSpaceToken t' = a' at *
      generalize isNewlineToken t = b at *
      generalize isNewlineToken t' = b' at *
      generalize isSpaceToken u = d
      generalize isNewlineToken u = e
      generalize startsWithDelimiter t = f
      generalize startsWithDelimiter u = g
      revert hskip
      clear * -
      revert a a' b b' d e f g
      decide
    rw [joined_append, joined_append, hgap]
    show _ ++ t' = _ ++ t ++ [c]
    rw [ht']
    simp only [List.append_assoc]

/-! ## The loop -/

namespace ParseState

/-- After the bytes `l`, whose runs fit: the tokens are written as `l` with its blanks, what is being collected ends
`l`, and a word that has been cut was as long as a token may be. -/
structure Rewritten (l : CStr) (st : ParseState) : Prop where
  text : joined st.tokens = spaced l
  blanks : st.spaceBuf <:+ l
  letters : st.word <:+ l
  full : ∀ p ∈ l.getLast?, st.word = [] → isBlank p = false ∧ isDelimiter p = false →
    ∃ r, r <:+ l ∧ r.length = MAX_WORD - 1 ∧ ∀ c ∈ r, isBlank c = false ∧ isDelimiter c = false

/-- A byte that starts a token is written after its blank. -/
theorem Rewritten.append {l : CStr} {st st' : ParseState} (h : Rewritten l st) (ht : Tokenized l st) {c : CChar}
    (htokens : st'.tokens = st.tokens ++ [[c]])
    (hnew : ∀ p ∈ l.getLast?,
      ¬((isBlank p = false ∧ isDelimiter p = false) ∧ isBlank c = false ∧ isDelimiter c = false)) :
    joined st'.tokens = spaced (l ++ [c]) := by
  rw [htokens]
  induction l using List.reverseRecOn with
  | nil =>
    rw [ht.first rfl]
    rfl
  | append_singleton l p _ =>
    have hp : p ∈ (l ++ [p]).getLast? := List.getLast?_concat
    obtain ⟨t, hlast, hends⟩ := ht.last p hp
    obtain ⟨ts, hts⟩ := List.getLast?_eq_some_iff.mp hlast
    rw [hts, joined_append, tokenGap_of_endsIn hends (endsIn_singleton c) (hnew p hp), spaced_snoc, ← h.text, hts]
    rfl

/-- A byte that goes on with the last token is written after it. -/
theorem Rewritten.extend {l : CStr} {st st' : ParseState} (h : Rewritten l st) (ht : Tokenized l st) {c : CChar}
    {ts : List Token} {t : Token} (htokens : st.tokens = ts ++ [t]) (htokens' : st'.tokens = ts ++ [t ++ [c]])
    (hends : EndsIn (t ++ [c]) c) (hc : isDelimiter c = false)
    (hsame : ∀ p, EndsIn t p → (st.spaceBuf ≠ [] ↔ isSpaceChar p = true) →
      isBlank p = isBlank c ∧ isDelimiter p = isDelimiter c) :
    joined st'.tokens = spaced (l ++ [c]) := by
  induction l using List.reverseRecOn with
  | nil =>
    rw [ht.first rfl] at htokens
    exact absurd htokens.symm (by simp)
  | append_singleton l p _ =>
    have hp : p ∈ (l ++ [p]).getLast? := List.getLast?_concat
    obtain ⟨u, hlast, hpends⟩ := ht.last p hp
    rw [htokens, List.getLast?_concat] at hlast
    obtain rfl := Option.some.inj hlast
    obtain ⟨hblank, hdelimiter⟩ := hsame p hpends (ht.blanks p hp)
    have hgap : byteGap p c = [] := by
      unfold byteGap
      rw [hdelimiter, hc]
      rfl
    rw [htokens', joined_grow (t := t) (by rw [hends.skip, hpends.skip, hblank])
      (by rw [hends.delimiter, hpends.delimiter, hdelimiter]) rfl, ← htokens, h.text, spaced_snoc, hgap,
      List.append_nil]

theorem suffix_snoc {α : Type} {r l : List α} (h : r <:+ l) (c : α) : r ++ [c] <:+ l ++ [c] := by
  obtain ⟨b, rfl⟩ := h
  exact ⟨b, by rw [List.append_assoc]⟩

theorem Rewritten.blank {l : CStr} {st : ParseState} (h : Rewritten l st) (ht : Tokenized l st) (hp : Parsed l st)
    {c : CChar} (hfit : RunsFit (l ++ [c])) (hc : isSpaceChar c = true) : Rewritten (l ++ [c]) (st.parseChar c) := by
  have hblank := isBlank_of_isSpaceChar hc
  have hfull : ∀ p ∈ (l ++ [c]).getLast?, (st.parseChar c).word = [] → isBlank p = false ∧ isDelimiter p = false →
      ∃ r, r <:+ l ++ [c] ∧ r.length = MAX_WORD - 1 ∧ ∀ c ∈ r, isBlank c = false ∧ isDelimiter c = false := by
    intro p hlast _ hletter
    rw [eq_of_getLast?_snoc hlast, hblank] at hletter
    cases hletter.1
  by_cases hbuf : st.spaceBuf = []
  · obtain ⟨htokens, hspaces, hword⟩ := parseChar_firstBlank hc hbuf
    refine ⟨h.append ht htokens fun p _ hne => ?_, ?_, ?_, hfull⟩
    · rw [hblank] at hne
      cases hne.2.1
    · rw [hspaces]
      exact List.suffix_append l [c]
    · rw [hword]
      exact List.nil_suffix
  · have hword : st.word = [] := ht.one.resolve_left hbuf
    have hall : ∀ d ∈ st.spaceBuf ++ [c], isSpaceChar d = true := Segment.forall_mem_snoc hp.blanks hc
    have hsuffix := suffix_snoc h.blanks c
    have hroom : st.spaceBuf.length < MAX_WORD - 1 := by
      have hlength := hfit _ hsuffix.isInfix (Or.inl hall)
      rw [List.length_append] at hlength
      exact hlength
    have htokens : st.tokens = st.before.flatten ++ st.words ++ [st.spaceBuf] := by
      simp [tokens, hbuf, hword]
    have hstate := parseChar_nextBlank hc hword hroom
    refine ⟨h.extend ht htokens ?_ (endsIn_blanks (by simp) hall hc) (not_isDelimiter_of_isBlank hblank)
      fun p _ hspace => (goesOn_blank (hspace.mp hbuf) hc).2, ?_, ?_, hfull⟩
    · rw [hstate]
      simp [tokens, hword]
    · rw [hstate]
      exact hsuffix
    · rw [hstate, hword]
      exact List.nil_suffix

theorem Rewritten.single {l : CStr} {st : ParseState} (h : Rewritten l st) (ht : Tokenized l st) {c : CChar}
    (hs : isSpaceChar c = false) (hc : c = NetworkFileShare.newline ∨ isDelimiter c = true) :
    Rewritten (l ++ [c]) (st.parseChar c) := by
  obtain ⟨htokens, hspaces, hword⟩ := parseChar_single hs hc ht.one
  have hnot : ¬(isBlank c = false ∧ isDelimiter c = false) := by
    rintro ⟨hblank, hdelimiter⟩
    rcases hc with rfl | hc
    · exact absurd hblank (by decide)
    · rw [hc] at hdelimiter
      cases hdelimiter
  refine ⟨h.append ht htokens fun p _ hne => hnot hne.2, ?_, ?_, fun p hlast _ hletter => ?_⟩
  · rw [hspaces]
    exact List.nil_suffix
  · rw [hword]
    exact List.nil_suffix
  · rw [eq_of_getLast?_snoc hlast] at hletter
    exact absurd hletter hnot

theorem Rewritten.letter {l : CStr} {st : ParseState} (h : Rewritten l st) (ht : Tokenized l st) (hp : Parsed l st)
    {c : CChar} (hfit : RunsFit (l ++ [c])) (hb : isBlank c = false) (hd : isDelimiter c = false) :
    Rewritten (l ++ [c]) (st.parseChar c) := by
  obtain ⟨htokens, hspaces, hletters⟩ := @parseChar_letter st _ hb hd
  have hsuffix := suffix_snoc h.letters c
  have hsnoc : ∀ r : CStr, (∀ d ∈ r, isBlank d = false ∧ isDelimiter d = false) →
      ∀ d ∈ r ++ [c], isBlank d = false ∧ isDelimiter d = false := fun r hr =>
    Segment.forall_mem_snoc hr ⟨hb, hd⟩
  have hall := hsnoc st.word hp.letters
  refine ⟨?_, ?_, ?_, fun p _ hnil _ => ?_⟩
  · by_cases hword : st.word = []
    · refine h.append ht ?_ fun p hlast hne => ?_
      · rw [htokens, ← tokens_flushSpaces ht.one]
        simp [tokens, flushSpaces_spaceBuf, flushSpaces_word, hword]
      -- a word was cut just before `c`: with `c` the run would be too long
      · obtain ⟨r, hr, hlength, hrun⟩ := h.full p hlast hword hne.1
        have hlong := hfit _ (suffix_snoc hr c).isInfix (Or.inr (hsnoc r hrun))
        rw [List.length_append, hlength] at hlong
        exact absurd hlong (show ¬127 + 1 ≤ 127 by decide)
    · have hbuf : st.spaceBuf = [] := ht.one.resolve_right hword
      have hflush : st.flushSpaces = st := if_pos hbuf
      refine h.extend ht (show st.tokens = st.before.flatten ++ st.words ++ [st.word] from ?_) ?_
        (endsIn_letters (by simp) hall hb hd) hd
        fun p hends _ => (goesOn_letter hword hp.letters hends hb hd).2
      · simp [tokens, hbuf, hword]
      · rw [htokens, hflush]
        simp [tokens, hbuf]
  · rw [hspaces]
    exact List.nil_suffix
  · rw [hletters]
    split
    · exact List.nil_suffix
    · exact hsuffix
  · rw [hletters] at hnil
    split at hnil
    · rename_i hfull
      exact ⟨_, hsuffix, Nat.le_antisymm (hfit _ hsuffix.isInfix (Or.inr hall)) hfull, hall⟩
    · exact absurd hnil (by simp)

theorem Rewritten.step {l : CStr} {st : ParseState} (h : Rewritten l st) (ht : Tokenized l st) (hp : Parsed l st)
    (c : CChar) (hfit : RunsFit (l ++ [c])) : Rewritten (l ++ [c]) (st.parseChar c) := by
  by_cases hs : isSpaceChar c = true
  · exact h.blank ht hp hfit hs
  · rw [Bool.not_eq_true] at hs
    by_cases hsingle : c = NetworkFileShare.newline ∨ isDelimiter c = true
    · exact h.single ht hs hsingle
    · rw [not_or, Bool.not_eq_true] at hsingle
      exact h.letter ht hp hfit (by simp [isBlank, hs, hsingle.1]) hsingle.2

/-- The loop over a whole text. -/
theorem rewritten_foldl {text : CStr} (hfit : RunsFit text) : Rewritten text (text.foldl parseChar .init) := by
  induction text using List.reverseRecOn with
  | nil =>
    refine ⟨rfl, List.nil_suffix, List.nil_suffix, fun p hp => ?_⟩
    cases hp
  | append_singleton l c ih =>
    rw [List.foldl_append]
    exact (ih hfit.prefix).step (tokenized_foldl l) (parsed_foldl l) c hfit

end ParseState

/-- **A text whose runs fit is parsed and written back with a blank after each delimiter that another visible byte
follows, and nothing else changed.** -/
theorem text_parseContent {text : CStr} (hfit : RunsFit text) : (parseContent text).text = spaced text := by
  rw [FileContent.text, sentenceCount_parseContent, List.take_length, render_eq_joined (parseContent_shaped text),
    flatten_parseContent]
  exact (ParseState.rewritten_foldl hfit).text

/-- A delimiter before a word, before another delimiter, before a newline and at the end of the file. -/
theorem text_parseContent_sample :
    RunsFit (lit "Hi.Bob  went?!\nOk .") ∧
      (parseContent (lit "Hi.Bob  went?!\nOk .")).text = lit "Hi. Bob  went? !\nOk ." := by
  have hfit : RunsFit (lit "Hi.Bob  went?!\nOk .") := by
    intro r hr _
    exact hr.length_le.trans (by decide)
  exact ⟨hfit, (text_parseContent hfit).trans (by decide)⟩

end NetworkFileShare
