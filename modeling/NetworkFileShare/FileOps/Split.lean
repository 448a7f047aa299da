import NetworkFileShare.FileOps.Insert
import NetworkFileShare.FileOps.Pieces
import NetworkFileShare.FileOps.Rewrite

/-!
# The two tokenisers (`file_ops.c`: `split_by_delimiters`, `parse_file`)

* `splitByDelimiters_eq` : the parts of a text are its pieces, with the runs of blanks cut to what fits;
* `SameTokens` : `parse_file` and `split_by_delimiters` side by side over the same bytes;
* `splitByDelimiters_eq_parse` : they yield the same tokens when no word is too long;
* `flatten_parse_iff` : the tokens of a file are its bytes exactly when no run of blanks is too long.
-/

namespace NetworkFileShare

/-- A run of blanks is kept as far as it fits. -/
def trimmed (t : Token) : Token := if isSpaceToken t then t.take (MAX_WORD - 1) else t

theorem trimmed_space {t : Token} (h : isSpaceToken t = true) : trimmed t = t.take (MAX_WORD - 1) := if_pos h

theorem trimmed_of_not_space {t : Token} {c : CChar} (hc : c ∈ t) (h : isSpaceChar c = false) : trimmed t = t := by
  refine if_neg fun ht => ?_
  rw [(isSpaceToken_iff.mp ht).2 c hc] at h
  cases h

theorem trimmed_singleton (c : CChar) : trimmed [c] = [c] := by
  unfold trimmed
  split <;> rfl

/-- What is cut off a run of blanks leaves a run of blanks. -/
theorem isWordToken_trimmed {t : Token} (ht : IsRun t) : isWordToken (trimmed t) = isWordToken t := by
  by_cases hspace : isSpaceToken t = true
  · have hne : t.take (MAX_WORD - 1) ≠ [] := by
      rw [ne_eq, List.take_eq_nil_iff, not_or]
      exact ⟨by decide, ht.ne_nil⟩
    have hall := (isSpaceToken_iff.mp hspace).2
    rw [trimmed_space hspace, not_word_of_space hspace, not_word_of_space]
    exact isSpaceToken_iff.mpr ⟨hne, fun c hc => hall c (List.mem_of_mem_take hc)⟩
  · rw [trimmed, if_neg hspace]

namespace SplitState

/-- The tokens read so far. -/
def tokens (st : SplitState) : List Token :=
  st.parts ++ (if st.spaceBuf = [] then [] else [st.spaceBuf]) ++ if st.buffer = [] then [] else [st.buffer]

theorem flushSpaces_spaceBuf (st : SplitState) : st.flushSpaces.spaceBuf = [] := by
  unfold flushSpaces
  split
  · assumption
  · rfl

theorem flushSpaces_buffer (st : SplitState) : st.flushSpaces.buffer = st.buffer := by
  unfold flushSpaces
  split <;> rfl

theorem flushBuffer_spaceBuf (st : SplitState) : st.flushBuffer.spaceBuf = st.spaceBuf := by
  unfold flushBuffer
  split <;> rfl

theorem tokens_flushSpaces {st : SplitState} (h : st.spaceBuf = [] ∨ st.buffer = []) :
    st.flushSpaces.tokens = st.tokens := by
  unfold flushSpaces
  split
  · rfl
  · rename_i hne
    simp [tokens, h.resolve_left hne, hne]

theorem tokens_flushBuffer {st : SplitState} (h : st.spaceBuf = []) : st.flushBuffer.tokens = st.tokens := by
  unfold flushBuffer
  split
  · rfl
  · rename_i hne
    simp [tokens, h, hne]

/-! What one byte does to the tokens. -/

theorem splitChar_firstBlank {st : SplitState} {c : CChar} (hc : isSpaceChar c = true) (hbuf : st.spaceBuf = []) :
    (st.splitChar c).tokens = st.tokens ++ [[c]] ∧ (st.splitChar c).spaceBuf = [c] ∧ (st.splitChar c).buffer = [] := by
  have hbuf' : st.flushBuffer.spaceBuf = [] := by rw [flushBuffer_spaceBuf, hbuf]
  have hstate : st.splitChar c = { st.flushBuffer with spaceBuf := [c] } := by
    unfold splitChar
    simp only [hc, if_true, hbuf', List.nil_append]
    exact if_pos (show 0 < 127 by decide)
  rw [hstate, ← tokens_flushBuffer hbuf]
  refine ⟨?_, rfl, flushBuffer_buffer st⟩
  simp [tokens, hbuf', flushBuffer_buffer]

theorem splitChar_nextBlank {st : SplitState} {c : CChar} (hc : isSpaceChar c = true) (hbuffer : st.buffer = []) :
    st.splitChar c =
      if st.spaceBuf.length < MAX_WORD - 1 then { st with spaceBuf := st.spaceBuf ++ [c] } else st := by
  have hflush : st.flushBuffer = st := if_pos hbuffer
  unfold splitChar
  simp only [hc, if_true, hflush]

theorem splitChar_single {st : SplitState} {c : CChar} (hc : c = newline ∨ isDelimiter c = true)
    (hone : st.spaceBuf = [] ∨ st.buffer = []) :
    (st.splitChar c).tokens = st.tokens ++ [[c]] ∧ (st.splitChar c).spaceBuf = [] ∧ (st.splitChar c).buffer = [] := by
  have htokens : st.flushSpaces.flushBuffer.tokens = st.tokens := by
    rw [tokens_flushBuffer (flushSpaces_spaceBuf st), tokens_flushSpaces hone]
  have hspaces : st.flushSpaces.flushBuffer.spaceBuf = [] := by rw [flushBuffer_spaceBuf, flushSpaces_spaceBuf]
  have hletters : st.flushSpaces.flushBuffer.buffer = [] := flushBuffer_buffer _
  rw [← htokens]
  unfold splitChar addPart
  simp only [(single_kind hc).1, Bool.false_eq_true, if_false]
  by_cases hn : c = newline
  · rw [if_pos hn]
    refine ⟨?_, hspaces, hletters⟩
    simp [tokens, hspaces, hletters, hn]
  · rw [if_neg hn, if_pos (hc.resolve_left hn)]
    refine ⟨?_, hspaces, hletters⟩
    simp [tokens, hspaces, hletters]

theorem splitChar_letter {st : SplitState} {c : CChar} (hc : isLetter c = true) :
    st.splitChar c = { st.flushSpaces with buffer := st.buffer ++ [c] } := by
  obtain ⟨hblank, hdelimiter⟩ := isLetter_iff.mp hc
  rw [isBlank, Bool.or_eq_false_iff, decide_eq_false_iff_not] at hblank
  unfold splitChar
  simp only [hblank.1, hblank.2, hdelimiter, Bool.false_eq_true, if_false, flushSpaces_buffer]

/-! ## The parts are the pieces -/

/-- After the bytes `l`: the tokens, and what the last byte says about the two buffers. -/
structure Pieced (l : CStr) (st : SplitState) : Prop where
  start : l = [] → st = init
  one : st.spaceBuf = [] ∨ st.buffer = []
  tokens : st.tokens = (pieces l).map trimmed
  spaces : ∀ p ∈ l.getLast?, st.spaceBuf ≠ [] ↔ isSpaceChar p = true
  letters : ∀ p ∈ l.getLast?, st.buffer ≠ [] ↔ isLetter p = true

/-- A byte that starts a piece. -/
theorem Pieced.append {l : CStr} {st st' : SplitState} (h : Pieced l st) {c : CChar}
    (hnew : ∀ p ∈ l.getLast?, joins p c = false) (htokens : st'.tokens = st.tokens ++ [[c]])
    (hone : st'.spaceBuf = [] ∨ st'.buffer = []) (hspaces : st'.spaceBuf ≠ [] ↔ isSpaceChar c = true)
    (hletters : st'.buffer ≠ [] ↔ isLetter c = true) : Pieced (l ++ [c]) st' := by
  refine ⟨fun hnil => absurd hnil (by simp), hone, ?_, fun p hp => ?_, fun p hp => ?_⟩
  · rw [htokens, h.tokens, pieces_snoc_new hnew, List.map_append, List.map_singleton, trimmed_singleton]
  · rw [ParseState.eq_of_getLast?_snoc hp]
    exact hspaces
  · rw [ParseState.eq_of_getLast?_snoc hp]
    exact hletters

/-- A byte that goes on with the piece `q`, whose token is `t`. -/
theorem Pieced.extend {l : CStr} {st st' : SplitState} (h : Pieced l st) {p c : CChar} (hp : p ∈ l.getLast?)
    (hjoin : joins p c = true) {ts : List Token} {t t' : Token} (htokens : st.tokens = ts ++ [t])
    (htokens' : st'.tokens = ts ++ [t'])
    (hgrow : ∀ q, p ∈ q.getLast? → IsRun q → trimmed q = t → trimmed (q ++ [c]) = t')
    (hone : st'.spaceBuf = [] ∨ st'.buffer = []) (hspaces : st'.spaceBuf ≠ [] ↔ isSpaceChar c = true)
    (hletters : st'.buffer ≠ [] ↔ isLetter c = true) : Pieced (l ++ [c]) st' := by
  obtain ⟨ps, q, hpieces, hpieces'⟩ := pieces_snoc_join hp hjoin
  have hlast : p ∈ q.getLast? := (Runs.getLast?_of_splitBy hpieces).symm.trans hp
  have hmem : q ∈ pieces l := by
    rw [hpieces]
    simp
  have hrun : IsRun q := isRun_of_mem_pieces hmem
  have hsame := h.tokens
  rw [htokens, hpieces, List.map_append, List.map_singleton] at hsame
  obtain ⟨hts, ht⟩ := List.append_inj' hsame rfl
  refine ⟨fun hnil => absurd hnil (by simp), hone, ?_, fun d hd => ?_, fun d hd => ?_⟩
  · rw [htokens', hpieces', List.map_append, List.map_singleton, hts,
      hgrow q hlast hrun (List.singleton_inj.mp ht).symm]
  · rw [ParseState.eq_of_getLast?_snoc hd]
    exact hspaces
  · rw [ParseState.eq_of_getLast?_snoc hd]
    exact hletters

theorem Pieced.exists_last {l : CStr} {st : SplitState} (h : Pieced l st) (hne : st ≠ init) :
    ∃ p, p ∈ l.getLast? := by
  have hl : l ≠ [] := fun hnil => hne (h.start hnil)
  exact ⟨_, List.getLast?_eq_some_getLast hl⟩

theorem Pieced.blank {l : CStr} {st : SplitState} (h : Pieced l st) {c : CChar} (hc : isSpaceChar c = true) :
    Pieced (l ++ [c]) (st.splitChar c) := by
  have hletter : ¬isLetter c = true := by
    intro hl
    rw [isSpaceChar_of_isLetter hl] at hc
    cases hc
  by_cases hbuf : st.spaceBuf = []
  · obtain ⟨htokens, hspaces, hbuffer⟩ := splitChar_firstBlank hc hbuf
    refine h.append (fun p hp => ?_) htokens (Or.inr hbuffer) (iff_of_true ?_ hc)
      (iff_of_false (not_not.mpr hbuffer) hletter)
    · by_contra hjoin
      have hp' : ¬isSpaceChar p = true := fun hspace => (h.spaces p hp).mpr hspace hbuf
      rcases joins_iff.mp (Bool.not_eq_false _ ▸ hjoin) with hboth | hboth
      · exact hp' hboth.1
      · exact hletter hboth.2
    · rw [hspaces]
      exact List.cons_ne_nil c []
  · have hbuffer : st.buffer = [] := h.one.resolve_left hbuf
    obtain ⟨p, hp⟩ := h.exists_last fun hinit => hbuf (by rw [hinit]; rfl)
    have hspace : isSpaceChar p = true := (h.spaces p hp).mp hbuf
    have hstate := splitChar_nextBlank hc hbuffer
    have hgrow : ∀ q, p ∈ q.getLast? → IsRun q → trimmed q = st.spaceBuf → trimmed (q ++ [c]) =
        if st.spaceBuf.length < MAX_WORD - 1 then st.spaceBuf ++ [c] else st.spaceBuf := by
      intro q hlast hrun hq
      have hall := hrun.all_space (List.mem_of_getLast? hlast) hspace
      have hspaces : isSpaceToken (q ++ [c]) = true :=
        isSpaceToken_iff.mpr ⟨by simp, Segment.forall_mem_snoc hall hc⟩
      rw [trimmed_space (isSpaceToken_iff.mpr ⟨hrun.ne_nil, hall⟩)] at hq
      rw [trimmed_space hspaces, ← hq, List.length_take]
      by_cases hroom : q.length < MAX_WORD - 1
      · rw [if_pos (Nat.lt_of_le_of_lt (Nat.min_le_right _ _) hroom), List.take_of_length_le (Nat.le_of_lt hroom),
          List.take_of_length_le]
        rw [List.length_append]
        exact hroom
      · rw [if_neg (by omega), List.take_append_of_le_length (Nat.le_of_not_lt hroom)]
    have htokens : st.tokens = st.parts ++ [st.spaceBuf] := by simp [SplitState.tokens, hbuf, hbuffer]
    refine h.extend hp (joins_of_space hspace hc) htokens ?_ hgrow ?_ (iff_of_true ?_ hc)
      (iff_of_false (not_not.mpr ?_) hletter)
    all_goals rw [hstate]; split
    · simp [SplitState.tokens, hbuffer]
    · simp [SplitState.tokens, hbuf, hbuffer]
    · exact Or.inr hbuffer
    · exact Or.inr hbuffer
    · simp
    · exact hbuf
    · exact hbuffer
    · exact hbuffer

theorem Pieced.single {l : CStr} {st : SplitState} (h : Pieced l st) {c : CChar}
    (hc : c = newline ∨ isDelimiter c = true) : Pieced (l ++ [c]) (st.splitChar c) := by
  obtain ⟨htokens, hspaces, hbuffer⟩ := splitChar_single hc h.one
  obtain ⟨hspace, hletter⟩ := single_kind hc
  refine h.append (fun p _ => ?_) htokens (Or.inl hspaces) ?_ ?_
  · rw [joins, hspace, hletter, Bool.and_false, Bool.and_false, Bool.or_false]
  · rw [hspace]
    exact iff_of_false (not_not.mpr hspaces) Bool.false_ne_true
  · rw [hletter]
    exact iff_of_false (not_not.mpr hbuffer) Bool.false_ne_true

theorem Pieced.letter {l : CStr} {st : SplitState} (h : Pieced l st) {c : CChar} (hc : isLetter c = true) :
    Pieced (l ++ [c]) (st.splitChar c) := by
  have hspace := isSpaceChar_of_isLetter hc
  rw [splitChar_letter hc]
  have hnone : st.flushSpaces.spaceBuf ≠ [] ↔ isSpaceChar c = true := by
    rw [hspace]
    exact iff_of_false (not_not.mpr (flushSpaces_spaceBuf st)) Bool.false_ne_true
  have hsome : st.buffer ++ [c] ≠ [] ↔ isLetter c = true := iff_of_true (by simp) hc
  by_cases hbuffer : st.buffer = []
  · refine h.append (fun p hp => ?_) ?_ (Or.inl (flushSpaces_spaceBuf st)) hnone hsome
    · by_contra hjoin
      rcases joins_iff.mp (Bool.not_eq_false _ ▸ hjoin) with hboth | hboth
      · rw [hspace] at hboth
        cases hboth.2
      · exact (h.letters p hp).mpr hboth.1 hbuffer
    · rw [← tokens_flushSpaces h.one]
      simp [SplitState.tokens, flushSpaces_spaceBuf, flushSpaces_buffer, hbuffer]
  · have hbuf : st.spaceBuf = [] := h.one.resolve_right hbuffer
    have hflush : st.flushSpaces = st := if_pos hbuf
    obtain ⟨p, hp⟩ := h.exists_last fun hinit => hbuffer (by rw [hinit]; rfl)
    have hletter : isLetter p = true := (h.letters p hp).mp hbuffer
    have htokens : st.tokens = st.parts ++ [st.buffer] := by simp [SplitState.tokens, hbuf, hbuffer]
    have htokens' : SplitState.tokens { st.flushSpaces with buffer := st.buffer ++ [c] } =
        st.parts ++ [st.buffer ++ [c]] := by simp [SplitState.tokens, hflush, hbuf]
    refine h.extend hp (joins_of_letter hletter hc) htokens htokens' ?_ (Or.inl (flushSpaces_spaceBuf st)) hnone hsome
    · intro q hlast _ hq
      have hmem : p ∈ q := List.mem_of_getLast? hlast
      rw [trimmed_of_not_space hmem (isSpaceChar_of_isLetter hletter)] at hq
      rw [trimmed_of_not_space (List.mem_append_left _ hmem) (isSpaceChar_of_isLetter hletter), hq]

/-- The loop over a whole text. -/
theorem pieced_foldl (text : CStr) : Pieced text (text.foldl splitChar .init) := by
  induction text using List.reverseRecOn with
  | nil =>
    refine ⟨fun _ => rfl, Or.inl rfl, rfl, ?_, ?_⟩
    all_goals
      intro p hp
      cases hp
  | append_singleton l c ih =>
    rw [List.foldl_append]
    rcases byte_kind c with hc | hc | hc
    · exact ih.blank hc
    · exact ih.single hc
    · exact ih.letter hc

/-- At the end the buffers become parts. -/
theorem parts_flush {st : SplitState} (h : st.spaceBuf = [] ∨ st.buffer = []) :
    st.flushSpaces.flushBuffer.parts = st.tokens := by
  rw [← tokens_flushSpaces h, ← tokens_flushBuffer (flushSpaces_spaceBuf st)]
  simp [tokens, flushBuffer_spaceBuf, flushSpaces_spaceBuf, flushBuffer_buffer]

/-- A word that is being collected is the last piece. -/
theorem Pieced.pieces_word {l : CStr} {st : SplitState} (h : Pieced l st) (hne : st.buffer ≠ []) :
    (∃ ps, pieces l = ps ++ [st.buffer] ∧ st.parts = ps.map trimmed) ∧ ∀ c ∈ st.buffer, isLetter c = true := by
  have hbuf : st.spaceBuf = [] := h.one.resolve_right hne
  obtain ⟨p, hp⟩ := h.exists_last fun hinit => hne (by rw [hinit]; rfl)
  have hletter : isLetter p = true := (h.letters p hp).mp hne
  have hsame := h.tokens
  rw [show st.tokens = st.parts ++ [st.buffer] by simp [SplitState.tokens, hbuf, hne]] at hsame
  obtain ⟨ps, q, hpieces⟩ : ∃ ps q, pieces l = ps ++ [q] := by
    refine ⟨_, _, (List.dropLast_append_getLast (fun hnil => ?_)).symm⟩
    rw [hnil] at hsame
    exact absurd hsame (by simp)
  rw [hpieces, List.map_append, List.map_singleton] at hsame
  obtain ⟨hparts, hq⟩ := List.append_inj' hsame rfl
  have hmem : p ∈ q := List.mem_of_getLast? ((Runs.getLast?_of_splitBy hpieces).symm.trans hp)
  have hrun : IsRun q := by
    apply isRun_of_mem_pieces
    rw [hpieces]
    exact List.mem_append_right ps List.mem_cons_self
  rw [trimmed_of_not_space hmem (isSpaceChar_of_isLetter hletter), List.singleton_inj] at hq
  rw [hq]
  exact ⟨⟨ps, hpieces, hparts⟩, hrun.all_letter hmem hletter⟩

/-- It ends the bytes. -/
theorem Pieced.buffer_suffix {l : CStr} {st : SplitState} (h : Pieced l st) : st.buffer <:+ l := by
  by_cases hne : st.buffer = []
  · rw [hne]
    exact List.nil_suffix
  · obtain ⟨⟨ps, hpieces, -⟩, -⟩ := h.pieces_word hne
    refine ⟨ps.flatten, ?_⟩
    rw [← flatten_pieces l, hpieces, List.flatten_append, List.flatten_singleton]

theorem Pieced.letters_buffer {l : CStr} {st : SplitState} (h : Pieced l st) : ∀ c ∈ st.buffer, isLetter c = true := by
  intro c hc
  exact (h.pieces_word (List.ne_nil_of_mem hc)).2 c hc

end SplitState

/-- **The parts of a text are its pieces**, with the runs of blanks cut to what fits. -/
theorem splitByDelimiters_eq (word : CStr) : splitByDelimiters word = (pieces word).map trimmed := by
  have h := SplitState.pieced_foldl word
  rw [splitByDelimiters, SplitState.parts_flush h.one, h.tokens]

/-! ## `parse_file` over the same bytes -/

theorem SplitState.spaceBuf_splitChar (st : SplitState) (c : CChar) :
    (st.splitChar c).spaceBuf = if isSpaceChar c = true then
      if st.spaceBuf.length < MAX_WORD - 1 then st.spaceBuf ++ [c] else st.spaceBuf else [] := by
  unfold splitChar
  split
  · simp only [flushBuffer_spaceBuf]
    split
    · rfl
    · exact flushBuffer_spaceBuf st
  · simp only
    split
    · exact (flushBuffer_spaceBuf _).trans (flushSpaces_spaceBuf st)
    · split
      · exact (flushBuffer_spaceBuf _).trans (flushSpaces_spaceBuf st)
      · exact flushSpaces_spaceBuf st

theorem ParseState.spaceBuf_parseChar (st : ParseState) (c : CChar) :
    (st.parseChar c).spaceBuf = if isSpaceChar c = true then
      if st.spaceBuf.length < MAX_WORD - 1 then st.spaceBuf ++ [c] else st.spaceBuf else [] := by
  unfold parseChar
  split
  · simp only [flushWord_spaceBuf]
    split
    · rfl
    · exact flushWord_spaceBuf st
  · simp only
    split
    · exact (flushWord_spaceBuf _).trans (flushSpaces_spaceBuf st)
    · split
      · exact (flushWord_spaceBuf _).trans (flushSpaces_spaceBuf st)
      · split
        · exact (flushWord_spaceBuf _).trans (flushSpaces_spaceBuf st)
        · exact flushSpaces_spaceBuf st

/-- The byte is dropped: the buffer of blanks is full. -/
def dropped (spaceBuf : CStr) (c : CChar) : Bool := isSpaceChar c && decide (MAX_WORD - 1 ≤ spaceBuf.length)

/-- Every byte that is not dropped goes into a token. -/
theorem ParseState.flatten_parseChar {st : ParseState} (hone : st.spaceBuf = [] ∨ st.word = []) (c : CChar) :
    (st.parseChar c).tokens.flatten = st.tokens.flatten ++ if dropped st.spaceBuf c then [] else [c] := by
  rcases byte_kind c with hc | hc | hc
  · by_cases hbuf : st.spaceBuf = []
    · rw [(parseChar_firstBlank hc hbuf).1, List.flatten_concat, dropped, hbuf, hc]
      rfl
    · have hword : st.word = [] := hone.resolve_left hbuf
      by_cases hroom : st.spaceBuf.length < MAX_WORD - 1
      · rw [parseChar_nextBlank hc hword hroom, dropped, decide_eq_false (Nat.not_le_of_lt hroom), Bool.and_false]
        simp [tokens, hword, hbuf]
      · rw [parseChar_fullBlank hc hword hroom, dropped, hc, decide_eq_true (Nat.le_of_not_lt hroom)]
        exact (List.append_nil _).symm
  · rw [(parseChar_single (single_kind hc).1 hc hone).1, List.flatten_concat, dropped, (single_kind hc).1]
    rfl
  · obtain ⟨hblank, hdelimiter⟩ := isLetter_iff.mp hc
    rw [(parseChar_letter hblank hdelimiter).1, dropped, isSpaceChar_of_isLetter hc, ← tokens_flushSpaces hone]
    by_cases hword : st.word = []
    · simp [tokens, flushSpaces_spaceBuf, flushSpaces_word, hword]
    · simp [tokens, flushSpaces_spaceBuf, flushSpaces_word, hword]

theorem SplitState.flatten_splitChar {st : SplitState} (hone : st.spaceBuf = [] ∨ st.buffer = []) (c : CChar) :
    (st.splitChar c).tokens.flatten = st.tokens.flatten ++ if dropped st.spaceBuf c then [] else [c] := by
  rcases byte_kind c with hc | hc | hc
  · by_cases hbuf : st.spaceBuf = []
    · rw [(splitChar_firstBlank hc hbuf).1, List.flatten_concat, dropped, hbuf, hc]
      rfl
    · have hbuffer : st.buffer = [] := hone.resolve_left hbuf
      rw [splitChar_nextBlank hc hbuffer]
      by_cases hroom : st.spaceBuf.length < MAX_WORD - 1
      · rw [if_pos hroom, dropped, decide_eq_false (Nat.not_le_of_lt hroom), Bool.and_false]
        simp [tokens, hbuffer, hbuf]
      · rw [if_neg hroom, dropped, hc, decide_eq_true (Nat.le_of_not_lt hroom)]
        exact (List.append_nil _).symm
  · rw [(splitChar_single hc hone).1, List.flatten_concat, dropped, (single_kind hc).1]
    rfl
  · rw [splitChar_letter hc, dropped, isSpaceChar_of_isLetter hc, ← tokens_flushSpaces hone]
    by_cases hbuffer : st.buffer = []
    · simp [tokens, flushSpaces_spaceBuf, flushSpaces_buffer, hbuffer]
    · simp [tokens, flushSpaces_spaceBuf, flushSpaces_buffer, hbuffer]

/-- `parse_file` and `split_by_delimiters` after the same bytes `l`: the tokens are the same as far as no word is too
long, and hold the same bytes in any case. -/
structure SameTokens (l : CStr) (pst : ParseState) (sst : SplitState) : Prop where
  spaces : pst.spaceBuf = sst.spaceBuf
  bytes : pst.tokens.flatten = sst.tokens.flatten
  tokens : Fits isLetter l → pst.tokens = sst.tokens ∧
    (pst.word = sst.buffer ∨ pst.word = [] ∧ sst.buffer.length = MAX_WORD - 1)

section Step

variable {l : CStr} {pst : ParseState} {sst : SplitState} (h : SameTokens l pst sst)
  (hp : ParseState.Tokenized l pst) (hs : SplitState.Pieced l sst)
include h hp hs

theorem SameTokens.blank (hfit : Fits isLetter l) {c : CChar} (hc : isSpaceChar c = true) :
    (pst.parseChar c).tokens = (sst.splitChar c).tokens ∧ (pst.parseChar c).word = (sst.splitChar c).buffer := by
  obtain ⟨htokens, -⟩ := h.tokens hfit
  by_cases hbuf : pst.spaceBuf = []
  · obtain ⟨hp', -, hword⟩ := ParseState.parseChar_firstBlank hc hbuf
    obtain ⟨hs', -, hbuffer⟩ := SplitState.splitChar_firstBlank hc (h.spaces ▸ hbuf)
    rw [hp', hs', htokens, hword, hbuffer]
    exact ⟨rfl, rfl⟩
  · have hword : pst.word = [] := hp.one.resolve_left hbuf
    have hbuffer : sst.buffer = [] := hs.one.resolve_left (h.spaces ▸ hbuf)
    rw [SplitState.splitChar_nextBlank hc hbuffer, ← h.spaces]
    have hfront : pst.before.flatten ++ pst.words = sst.parts := by
      have hlast : pst.before.flatten ++ pst.words ++ [pst.spaceBuf] = sst.parts ++ [sst.spaceBuf] := by
        simpa [ParseState.tokens, SplitState.tokens, hword, hbuffer, hbuf, h.spaces ▸ hbuf] using htokens
      exact (List.append_inj' hlast rfl).1
    by_cases hroom : pst.spaceBuf.length < MAX_WORD - 1
    · rw [ParseState.parseChar_nextBlank hc hword hroom, if_pos hroom]
      simp [ParseState.tokens, SplitState.tokens, hword, hbuffer, ← hfront]
    · rw [ParseState.parseChar_fullBlank hc hword hroom, if_neg hroom, hword, hbuffer]
      exact ⟨htokens, rfl⟩

theorem SameTokens.letter {c : CChar} (hfit : Fits isLetter (l ++ [c])) (hc : isLetter c = true) :
    (pst.parseChar c).tokens = (sst.splitChar c).tokens ∧ ((pst.parseChar c).word = (sst.splitChar c).buffer ∨
      (pst.parseChar c).word = [] ∧ (sst.splitChar c).buffer.length = MAX_WORD - 1) := by
  obtain ⟨htokens, hword⟩ := h.tokens hfit.prefix
  obtain ⟨hblank, hdelimiter⟩ := isLetter_iff.mp hc
  obtain ⟨hp', -, hword'⟩ := @ParseState.parseChar_letter pst c hblank hdelimiter
  have hlength : (sst.buffer ++ [c]).length ≤ MAX_WORD - 1 :=
    hfit _ (ParseState.suffix_snoc hs.buffer_suffix c).isInfix (Segment.forall_mem_snoc hs.letters_buffer hc)
  rcases hword with hword | ⟨-, hfull⟩
  · -- both add the letter to the same word
    have hbefore : pst.flushSpaces.before = pst.before := by
      unfold ParseState.flushSpaces
      split <;> rfl
    have hfront : pst.before.flatten ++ pst.flushSpaces.words = sst.flushSpaces.parts := by
      rw [← ParseState.tokens_flushSpaces hp.one, ← SplitState.tokens_flushSpaces hs.one] at htokens
      by_cases hnil : pst.word = []
      · simpa [ParseState.tokens, SplitState.tokens, ParseState.flushSpaces_spaceBuf, SplitState.flushSpaces_spaceBuf,
          ParseState.flushSpaces_word, SplitState.flushSpaces_buffer, hbefore, ← hword, hnil] using htokens
      · have hlast : pst.before.flatten ++ pst.flushSpaces.words ++ [pst.word] =
            sst.flushSpaces.parts ++ [pst.word] := by
          simpa [ParseState.tokens, SplitState.tokens, ParseState.flushSpaces_spaceBuf,
            SplitState.flushSpaces_spaceBuf, ParseState.flushSpaces_word, SplitState.flushSpaces_buffer, hbefore,
            ← hword, hnil] using htokens
        exact (List.append_inj' hlast rfl).1
    rw [hp', SplitState.splitChar_letter hc, hword', hword]
    refine ⟨?_, ?_⟩
    · simp [ParseState.tokens, SplitState.tokens, ParseState.flushSpaces_spaceBuf, SplitState.flushSpaces_spaceBuf,
        hbefore, ← hfront]
    · split
      · exact Or.inr ⟨rfl, Nat.le_antisymm hlength ‹_›⟩
      · exact Or.inl rfl
  · rw [List.length_append, hfull] at hlength
    exact absurd hlength (show ¬127 + 1 ≤ 127 by decide)

theorem SameTokens.step (c : CChar) : SameTokens (l ++ [c]) (pst.parseChar c) (sst.splitChar c) := by
  refine ⟨?_, ?_, fun hfit => ?_⟩
  · rw [pst.spaceBuf_parseChar, sst.spaceBuf_splitChar, h.spaces]
  · rw [ParseState.flatten_parseChar hp.one, SplitState.flatten_splitChar hs.one, h.bytes, h.spaces]
  · rcases byte_kind c with hc | hc | hc
    · obtain ⟨htokens, hword⟩ := h.blank hp hs hfit.prefix hc
      exact ⟨htokens, Or.inl hword⟩
    · obtain ⟨hp', -, hword⟩ := ParseState.parseChar_single (single_kind hc).1 hc hp.one
      obtain ⟨hs', -, hbuffer⟩ := SplitState.splitChar_single hc hs.one
      rw [hp', hs', hword, hbuffer, (h.tokens hfit.prefix).1]
      exact ⟨rfl, Or.inl rfl⟩
    · exact h.letter hp hs hfit hc

end Step

/-- The loops over a whole text. -/
theorem sameTokens_foldl (text : CStr) :
    SameTokens text (text.foldl ParseState.parseChar .init) (text.foldl SplitState.splitChar .init) := by
  induction text using List.reverseRecOn with
  | nil => exact ⟨rfl, rfl, fun _ => ⟨rfl, Or.inl rfl⟩⟩
  | append_singleton l c ih =>
    rw [List.foldl_append, List.foldl_append]
    exact ih.step (ParseState.tokenized_foldl l) (SplitState.pieced_foldl l) c

/-- The tokens of a file whose words fit are its pieces. -/
theorem flatten_parse_of_fits {text : CStr} (hfit : Fits isLetter text) :
    (parseContent text).sentences.flatten = (pieces text).map trimmed := by
  rw [flatten_parseContent, ((sameTokens_foldl text).tokens hfit).1, (SplitState.pieced_foldl text).tokens]

/-- **The two tokenisers agree** on a text whose words fit. -/
theorem splitByDelimiters_eq_parse {s : CStr} (hfit : Fits isLetter s) :
    splitByDelimiters s = (parseContent s).sentences.flatten := by
  rw [splitByDelimiters_eq, flatten_parse_of_fits hfit]

/-- Words, a run of blanks, a newline and delimiters. -/
theorem splitByDelimiters_eq_parse_sample :
    Fits isLetter (lit "Hi,  you?!\nOk") ∧
      splitByDelimiters (lit "Hi,  you?!\nOk") = (parseContent (lit "Hi,  you?!\nOk")).sentences.flatten := by
  have hfit : Fits isLetter (lit "Hi,  you?!\nOk") := fun r hr _ => hr.length_le.trans (by decide)
  exact ⟨hfit, splitByDelimiters_eq_parse hfit⟩

/-! ## What is lost -/

/-- The tokens of any file hold its bytes but those that have no room in a run of blanks. -/
theorem flatten_flatten_parse (text : CStr) :
    (parseContent text).sentences.flatten.flatten = ((pieces text).map trimmed).flatten := by
  rw [flatten_parseContent, (sameTokens_foldl text).bytes, (SplitState.pieced_foldl text).tokens]

theorem trimmed_prefix_self (t : Token) : trimmed t <+: t := by
  unfold trimmed
  split
  · exact List.take_prefix _ t
  · exact List.prefix_rfl

theorem trimmed_eq_self_iff {t : Token} (ht : IsRun t) :
    trimmed t = t ↔ ((∀ c ∈ t, isSpaceChar c = true) → t.length ≤ MAX_WORD - 1) := by
  by_cases hspace : isSpaceToken t = true
  · rw [trimmed_space hspace, List.take_eq_self_iff]
    exact ⟨fun hle _ => hle, fun hle => hle (isSpaceToken_iff.mp hspace).2⟩
  · refine iff_of_true (if_neg hspace) fun hall => absurd (isSpaceToken_iff.mpr ⟨ht.ne_nil, hall⟩) hspace

/-- Prefixes that make up the whole are the whole ones. -/
theorem flatten_map_prefixes {f : Token → Token} (hf : ∀ t, f t <+: t) (L : List Token) :
    (L.map f).flatten.length ≤ L.flatten.length ∧ ((L.map f).flatten = L.flatten ↔ ∀ t ∈ L, f t = t) := by
  induction L with
  | nil => exact ⟨Nat.le_refl _, iff_of_true rfl fun t ht => by cases ht⟩
  | cons t L ih =>
    rw [List.map_cons, List.flatten_cons, List.flatten_cons, List.forall_mem_cons, ← ih.2]
    refine ⟨length_append_mono (hf t).length_le ih.1, ?_⟩
    rw [eq_comm, append_eq_iff (hf t).length_le ih.1, eq_comm, @eq_comm _ L.flatten]

/-- **The tokens of a file are its bytes, in order, exactly when no run of blanks is longer than a token may be.** -/
theorem flatten_parse_iff (text : CStr) :
    (parseContent text).sentences.flatten.flatten = text ↔ Fits isSpaceChar text := by
  rw [flatten_flatten_parse, blanksFit_iff]
  have hstart := (flatten_map_prefixes trimmed_prefix_self (pieces text)).2
  rw [flatten_pieces] at hstart
  rw [hstart]
  exact forall₂_congr fun t ht => trimmed_eq_self_iff (isRun_of_mem_pieces ht)

/-- **A run of 128 blanks loses one.** -/
theorem long_blanks_cut :
    (parseContent (List.replicate 128 space)).sentences.flatten.flatten = List.replicate 127 space ∧
      (parseContent (List.replicate 128 space)).sentences.flatten.flatten ≠ List.replicate 128 space := by
  have hcut : (parseContent (List.replicate 128 space)).sentences.flatten.flatten = List.replicate 127 space := by
    decide +kernel
  refine ⟨hcut, ?_⟩
  rw [hcut]
  decide

end NetworkFileShare
