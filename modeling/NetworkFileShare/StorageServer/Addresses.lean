import NetworkFileShare.FileOps.Normal
import NetworkFileShare.FileOps.Insertion
import NetworkFileShare.StorageServer.Session

/-!
# Word indices after a write (`ss.c`: `write_file_ss`)

* `realWords` : the tokens of a sentence that an index counts;
* `Shaped.segments` : sentences of a parsed file are cut from their tokens behind the delimiters;
* `Shaped.realWords_reparse` : writing them and parsing again keeps the words of every sentence;
* `write_address_iff` : a written word is found at its index when the file is parsed again, with the other words of the
  sentence around it, exactly when the index is in place.
-/

namespace NetworkFileShare
open Segment

/-- The words of a sentence, as an index counts them. -/
def realWords (s : Sentence) : List Token := s.filter fun t => !shouldSkipForIndexing t

theorem length_realWords (s : Sentence) : (realWords s).length = realWordCount s := List.countP_eq_length_filter.symm

theorem realWords_append (s s' : Sentence) : realWords (s ++ s') = realWords s ++ realWords s' := List.filter_append ..

/-- An element put between two lists. -/
theorem insertIdx_between {α : Type*} (x : α) (l' : List α) :
    ∀ l : List α, (l ++ l').insertIdx l.length x = l ++ x :: l'
  | [] => List.insertIdx_zero
  | y :: l => by
    rw [List.cons_append, List.length_cons, List.insertIdx_succ_cons, insertIdx_between x l' l, List.cons_append]

/-- The bytes of a sentence are those of its words. -/
theorem flatten_realWords {s : Sentence} (h : ∀ t ∈ s, TokenOk t) : (realWords s).flatten = core s := by
  induction s with
  | nil => rfl
  | cons t ts ih =>
    have ih := ih fun u hu => h u (List.mem_cons_of_mem t hu)
    have ht := h t List.mem_cons_self
    rw [core_cons, ← ih]
    by_cases hskip : shouldSkipForIndexing t = true
    · rw [(shouldSkip_iff ht).mp hskip, realWords, List.filter_cons_of_neg (by simp [hskip])]
      rfl
    · have hblanks : nonBlank t = t := by
        rw [shouldSkip_iff ht] at hskip
        obtain ⟨-, rfl | hsp | hw⟩ := ht
        · exact absurd rfl hskip
        · exact absurd (nonBlank_eq_nil fun c hc => isBlank_of_isSpaceChar (hsp c hc)) hskip
        · exact nonBlank_eq_self hw
      rw [realWords, List.filter_cons_of_pos (by simp [hskip]), List.flatten_cons, hblanks]
      rfl

/-! ## Words in the sentences of a file -/

/-- Sentences of the right form are cut from their tokens behind the delimiters. -/
theorem Shaped.segments_flatten {X : List Sentence} (h : Shaped X) : segments startsWithDelimiter X.flatten = X := by
  induction X with
  | nil => rfl
  | cons s X ih =>
    have hplain : ∀ ts : Sentence, (∀ t ∈ ts, PlainToken t) → ∀ t ∈ ts, startsWithDelimiter t = false :=
      fun ts hts t ht => startsWithDelimiter_plain (hts t ht)
    rcases h.each s List.mem_cons_self with ⟨ts, c, rfl, hc, hts⟩ | hs
    · have hstarts : startsWithDelimiter [c] = true := hc
      rw [List.flatten_cons, segments_block (hplain ts hts) hstarts, ih h.tail]
    · have hX : X = [] := by
        by_contra hne
        refine (h.closed s ?_).not_open hs
        rw [List.dropLast_cons_of_ne_nil hne]
        exact List.mem_cons_self
      rw [hX, List.flatten_singleton, segments_open (hplain s hs.2) hs.1]

/-- The words of a sentence can be read off those of the file. -/
theorem Shaped.realWords_getD {X : List Sentence} (h : Shaped X) (i : Nat) :
    realWords (X.getD i []) = (segments startsWithDelimiter (realWords X.flatten)).getD i [] := by
  have hkeep : ∀ t : Token, startsWithDelimiter t = true → (!shouldSkipForIndexing t) = true := fun t ht => by
    rw [not_skip_of_delimiter ht]
    rfl
  rw [realWords, realWords, getD_segments_filter hkeep, h.segments_flatten]

theorem realWords_withGaps : ∀ ts : List Token, realWords (withGaps ts) = realWords ts
  | [] => rfl
  | [_] => rfl
  | t :: t' :: ts => by
    have hgap : realWords (gapTokens t t') = [] := by
      unfold gapTokens
      split
      · rfl
      · decide
    have hrest := realWords_withGaps (t' :: ts)
    show realWords ([t] ++ (gapTokens t t' ++ withGaps (t' :: ts))) = realWords ([t] ++ t' :: ts)
    rw [realWords_append, realWords_append, hgap, hrest, List.nil_append, ← realWords_append]

/-- **Writing sentences and parsing them again keeps the words of each.** -/
theorem Shaped.realWords_reparse {X : List Sentence} (h : Shaped X) (hapart : Apart X.flatten) (i : Nat) :
    realWords ((parseContent (render X)).sentences.getD i []) = realWords (X.getD i []) := by
  rw [(parseContent_shaped _).realWords_getD, h.realWords_getD, render_eq_joined h, flatten_parse_joined hapart,
    realWords_withGaps]

/-- A word may be put between any two tokens. -/
theorem Apart.insert {ts ts' : List Token} (h : Apart (ts ++ ts')) {w : Token} (hw : isWordToken w = true)
    (hfit : w.length ≤ MAX_WORD - 1) : Apart (ts ++ w :: ts') := by
  have hspace := (isWordToken_kind hw).1
  have hmem : ∀ t ∈ ts ++ w :: ts', t = w ∨ t ∈ ts ++ ts' := by
    intro t ht
    simp only [List.mem_append, List.mem_cons] at ht ⊢
    tauto
  refine ⟨fun t ht => ?_, fun t ht => ?_, ?_⟩
  · rcases hmem t ht with rfl | ht
    · exact Or.inr (Or.inr hw)
    · exact h.run t ht
  · rcases hmem t ht with rfl | ht
    · exact hfit
    · exact h.fits t ht
  · obtain ⟨hts, hts', -⟩ := List.isChain_append.mp h.chain
    refine List.isChain_append.mpr ⟨hts, List.isChain_cons.mpr ⟨fun t _ hboth => ?_, hts'⟩, fun t _ u hu hboth => ?_⟩
    · rw [hspace] at hboth
      cases hboth.1
    · obtain rfl : w = u := Option.some.inj hu
      rw [hspace] at hboth
      cases hboth.2

/-! ## A word that is written -/

/-- A word is its only part. -/
theorem splitByDelimiters_word {w : CStr} (hw : isWordToken w = true) : splitByDelimiters w = [w] := by
  obtain ⟨hne, hletters⟩ := isWordToken_iff.mp hw
  have hchain := IsRun.chain (Or.inr (Or.inr hw))
  have hfirst := List.head_mem hne
  rw [splitByDelimiters_eq, pieces, List.splitBy_of_isChain hne hchain, List.map_singleton,
    trimmed_of_not_space hfirst (isSpaceChar_of_isLetter (hletters _ hfirst))]

section Address
variable {text word : CStr} {i w : Nat} {fc' : FileContent} {cur : Sentence} {mid : List Sentence}

/-- The insertion point has the words before the index in front of it. -/
theorem length_realWords_take {s : Sentence} {w : Nat} (h1 : 1 ≤ w) (h2 : w ≤ realWordCount s + 1) :
    (realWords (s.take (insertPoint s w))).length = w - 1 := by
  have hdrop := realWordCount_drop_insertPoint h1 h2
  have hboth := realWordCount_take_add_drop s (insertPoint s w)
  rw [length_realWords]
  omega

/-- In place, the word is found where it was put. -/
theorem Inserted.address (h : Inserted (parseContent text) i w word fc' cur mid) (htext : text ≠ [])
    (hword : isWordToken word = true) (hfit : word.length ≤ MAX_WORD - 1) (hplace : InPlace text i w) :
    realWords ((parseContent fc'.text).sentences.getD i []) =
      (realWords ((parseContent text).sentences.getD i [])).insertIdx (w - 1) word := by
  obtain ⟨hne, hletters⟩ := isWordToken_iff.mp hword
  have hplain : ∀ c ∈ word, isDelimiter c = false := fun c hc => (isLetter_iff.mp (hletters c hc)).2
  have hshaped := h.shaped htext hne hplain hplace
  have hmid := h.whole ((countP_splitByDelimiters word).mpr hplain)
  have htokens := h.tokens
  have hflat := h.flatten
  have hapart := apart_parse text
  have hlen : ((parseContent text).sentences.take i).length = i := List.length_take_of_le h.index
  have hpoint := length_realWords_take h.first h.last
  have hwhole := List.take_append_drop (insertPoint ((parseContent text).sentences.getD i []) w)
    ((parseContent text).sentences.getD i [])
  have hsentence : fc'.sentences.getD i [] = cur := by
    rw [h.slots, List.append_assoc, List.getD_append_right _ _ _ _ hlen.le, hlen, Nat.sub_self]
    rfl
  rw [splitByDelimiters_word hword] at htokens hflat
  rw [hmid, List.flatten_nil, List.append_nil] at htokens
  rw [FileContent.tokens, h.count, List.take_length] at hflat
  rw [flatten_at _ i, ← hwhole] at hapart
  generalize ((parseContent text).sentences.getD i []).take _ = front at *
  generalize ((parseContent text).sentences.getD i []).drop _ = back at *
  have hapart' : Apart fc'.sentences.flatten := by
    rw [hflat]
    simp only [List.append_assoc, List.cons_append, List.nil_append] at hapart ⊢
    rw [← List.append_assoc] at hapart ⊢
    exact hapart.insert hword hfit
  have hskip : realWords [word] = [word] := by
    have hkind := isWordToken_kind hword
    rw [realWords, List.filter_singleton, shouldSkipForIndexing, hkind.1, hkind.2.1]
    rfl
  rw [FileContent.text, h.count, List.take_length, hshaped.realWords_reparse hapart', hsentence, htokens, ← hwhole,
    realWords_append, realWords_append, realWords_append, hskip, ← hpoint, insertIdx_between, List.append_assoc]
  rfl

theorem ClosedSentence.isBlock {s : Sentence} (h : ClosedSentence s) : IsBlock isDelimiter (core s) := by
  obtain ⟨ts, c, rfl, hc, hts⟩ := h
  refine ⟨core ts, c, ?_, hc, fun d hd => ?_⟩
  · rw [core_append, core_singleton, nonBlank, List.filter_singleton, not_isBlank_of_isDelimiter hc]
    rfl
  · obtain ⟨t, ht, hdt⟩ := List.mem_flatten.mp (List.mem_of_mem_filter hd)
    exact (hts t ht).2 d hdt

/-- Sentences up to a closed one are closed. -/
theorem Shaped.closed_upTo {X : List Sentence} (h : Shaped X) {i : Nat} (hi : i < X.length)
    (hs : ClosedSentence (X.getD i [])) : ∀ s ∈ X.take (i + 1), ClosedSentence s := by
  rw [List.getD_eq_getElem _ _ hi] at hs
  intro s hmem
  rw [List.take_succ_eq_append_getElem hi] at hmem
  rcases List.mem_append.mp hmem with hmem | hmem
  · exact h.closed_take hi s hmem
  · rw [List.mem_singleton.mp hmem]
    exact hs

/-- The bytes of a written content are those of its tokens. -/
theorem nonBlank_text (fc : FileContent) : nonBlank fc.text = core fc.tokens := by
  rw [FileContent.text, nonBlank_render, FileContent.tokens, core_flatten]

/-- Text behind closed sentences leaves them as they are. -/
theorem core_reparse {X : List Sentence} (hX : Shaped X) {i : Nat} (hi : i < X.length)
    (hs : ClosedSentence (X.getD i [])) {text behind : CStr}
    (htext : nonBlank text = core (X.take (i + 1)).flatten ++ behind) :
    core ((parseContent text).sentences.getD i []) = core (X.getD i []) := by
  have hblocks : ∀ b ∈ (X.take (i + 1)).map core, IsBlock isDelimiter b :=
    List.forall_mem_map.mpr fun s hmem => (hX.closed_upTo hi hs s hmem).isBlock
  rw [core_flatten] at htext
  have hlen : i < ((X.take (i + 1)).map core).length := by
    rw [List.length_map, List.length_take]
    omega
  rw [(InsertedInto.of_parse text i).sentence, cores_of_blocks hblocks htext, List.getD_append _ _ _ _ hlen,
    List.getD_eq_getElem _ _ hlen, List.getElem_map, List.getElem_take, List.getD_eq_getElem _ _ hi]

/-- A sentence without delimiter takes in what is put behind it. -/
theorem length_reparse {text text' word : CStr} (hends : rest isDelimiter text ≠ [])
    (hword : ∀ c ∈ word, isDelimiter c = false) (htext : nonBlank text' = nonBlank text ++ word) :
    (parseContent text').sentences.length ≤ (parseContent text).sentences.length := by
  have hlength : ∀ t : CStr, (parseContent t).sentences.length = (cores t).length := fun t => by
    rw [← cores_parseContent, List.length_map]
  rw [hlength, hlength, length_cores, length_cores, htext, length_closed_append, closed_eq_nil hword, if_neg hends]
  split
  · exact Nat.le_succ _
  · exact Nat.le_refl _

/-- Otherwise it is not. -/
theorem Inserted.address_lost (h : Inserted (parseContent text) i w word fc' cur mid) (hword : isWordToken word = true)
    (htext : text ≠ []) (hplace : ¬InPlace text i w) :
    realWords ((parseContent fc'.text).sentences.getD i []) ≠
      (realWords ((parseContent text).sentences.getD i [])).insertIdx (w - 1) word := by
  obtain ⟨hne, hletters⟩ := isWordToken_iff.mp hword
  have hX := parseContent_shaped text
  have hY := parseContent_shaped fc'.text
  have hbytes := nonBlank_text fc'
  have hlast := h.last
  have hplain : ∀ c ∈ word, isDelimiter c = false := fun c hc => (isLetter_iff.mp (hletters c hc)).2
  have hcore : core [word] = word := by
    rw [core_singleton, nonBlank_eq_self fun c hc => (isLetter_iff.mp (hletters c hc)).1]
  have hflat : core (parseContent text).sentences.flatten = nonBlank text := by
    rw [core_flatten, cores_parseContent, flatten_cores]
  rw [h.flatten, splitByDelimiters_word hword] at hbytes
  intro hsame
  rcases not_inPlace_cases h.index hplace with ⟨hi, hs, hw⟩ | ⟨rfl, hends⟩
  · -- the word starts the next sentence
    have hend := (hs.insertPoint_end h.first hlast).mpr hw
    have htake := List.take_append_drop (insertPoint ((parseContent text).sentences.getD i []) w)
      ((parseContent text).sentences.getD i [])
    have hupTo : ((parseContent text).sentences.take (i + 1)).flatten =
        ((parseContent text).sentences.take i).flatten ++ (parseContent text).sentences.getD i [] := by
      rw [List.take_succ_eq_append_getElem hi, List.flatten_append, List.flatten_singleton, List.getD_eq_getElem _ _ hi]
    rw [hend, List.append_nil] at htake
    rw [hend, htake, ← hupTo, List.append_nil, List.append_assoc, core_append] at hbytes
    rw [hw, Nat.add_sub_cancel, ← length_realWords, List.insertIdx_length_self] at hsame
    have hbytes' := congrArg List.flatten hsame
    rw [List.flatten_append, List.flatten_singleton, flatten_realWords (tokenOk_getD (fun _ => hY.tokenOk) i),
      flatten_realWords (tokenOk_getD (fun _ => hX.tokenOk) i), core_reparse hX hi hs hbytes] at hbytes'
    exact hne (List.self_eq_append_right.mp hbytes')
  · -- the word is taken into the last sentence
    rw [List.getD_eq_default _ _ le_rfl] at hlast hsame hbytes
    rw [List.take_length, List.drop_of_length_le (Nat.le_succ _), List.take_nil, List.drop_nil, List.flatten_nil,
      List.append_nil, List.append_nil, List.append_nil, core_append, hcore, hflat] at hbytes
    rw [ne_eq, ← rest_eq_nil_iff_getLast? htext] at hends
    rw [List.getD_eq_default _ _ (length_reparse hends hplain hbytes)] at hsame
    obtain rfl : w = 1 := Nat.le_antisymm hlast h.first
    cases hsame

end Address

/-- **A written word is found at its index in the saved file**, with the other words of its sentence around it, if and
only if the index is in place. -/
theorem write_address_iff {io : Io} {s : StorageServer} {f : Filename} {u : Username} {i k : Int32} {w text : CStr}
    {session : WriteSession} (hsession : getWriteSession s f u i = some session)
    (hfile : readFile io s.disk session.tempFilepath = some text) (htext : text ≠ []) (hword : isWordToken w = true)
    (hfit : w.length ≤ MAX_WORD - 1) (hdone : (writeFileSs io s f u i k w).2 = SUCCESS) :
    ∃ saved, (writeFileSs io s f u i k w).1.disk session.tempFilepath = some saved ∧
      (realWords ((parseContent saved).sentences.getD i.toInt.toNat []) =
          (realWords ((parseContent text).sentences.getD i.toInt.toNat [])).insertIdx (k.toInt.toNat - 1) w ↔
        InPlace text i.toInt k.toInt) := by
  rcases writeFileSs_cases io s f u i k w with ⟨-, hfail⟩ | ⟨session', fc', n, hget, hinsert, hwrite⟩
  · exact absurd hdone hfail
  · obtain rfl : session = session' := Option.some.inj (hsession.symm.trans hget)
    have hparse : parseTemp io s.disk session.tempFilepath = parseContent text :=
      (parseTemp_cases hfile).resolve_right fun hnil => htext hnil.1
    rw [hparse] at hinsert
    obtain ⟨j, v, hj, hv, cur, mid, hins⟩ := insertWord_inserted (sentenceCount_parseContent text)
      (fun hnil => parseContent_ne_emptySentence text hnil.1) hinsert
    refine ⟨fc'.text, ?_, ?_⟩
    · rw [hwrite]
      exact Function.update_self ..
    · rw [hj, hv, Int.toNat_natCast, Int.toNat_natCast]
      constructor
      · intro hsame
        by_contra hplace
        exact hins.address_lost hword htext hplace hsame
      · exact hins.address htext hword hfit

/-- Alice writes before the first word of the first of two sentences. -/
theorem write_address_alice :
    ∃ saved, (writeFileSs .allOpens aliceLocked notes alice 0 1 (lit "x")).1.disk (tempPath 1 notes alice 0) =
        some saved ∧
      (realWords ((parseContent saved).sentences.getD (0 : Int32).toInt.toNat []) =
          (realWords ((parseContent (lit "A. B.")).sentences.getD (0 : Int32).toInt.toNat [])).insertIdx
            ((1 : Int32).toInt.toNat - 1) (lit "x") ↔
        InPlace (lit "A. B.") (0 : Int32).toInt (1 : Int32).toInt) := by
  have hsession : getWriteSession aliceLocked notes alice 0 = some ⟨notes, alice, 0, tempPath 1 notes alice 0, 2⟩ := by
    decide
  exact write_address_iff hsession (by decide) (by decide) (by decide) (by decide)
    (by decide)

/-- **A word written behind the delimiter of its sentence** is in the next one when the copy is parsed again. -/
theorem word_joins_next_sentence :
    lockIndexInvalid (some (parseContent (lit "A. B."))) 0 = false ∧
      handleClientRequest .allOpens aliceLocked (.write notes alice 0 3 (lit "x")) = (aliceWrote 3 (lit "x"), SUCCESS) ∧
      (aliceWrote 3 (lit "x")).disk (tempPath 1 notes alice 0) = some (lit "A.x B.") ∧
      (parseContent (lit "A.x B.")).sentences.map realWords = [[lit "A", lit "."], [lit "x", lit "B", lit "."]] ∧
      realWords ((parseContent (lit "A.x B.")).sentences.getD 0 []) ≠
        (realWords ((parseContent (lit "A. B.")).sentences.getD 0 [])).insertIdx 2 (lit "x") := by
  refine ⟨by decide, eq_of_status (by decide), ?_, ?_, ?_⟩ <;> decide

/-- A new sentence behind a newline is accepted as well, and the word is in the last one. -/
example : lockIndexInvalid (some (parseContent (lit "a.\n"))) 2 = false ∧
    (insertWordInSentence (parseContent (lit "a.\n")) 2 1 (lit "b")).map (·.1.text) = some (lit "a.\nb") ∧
    (parseContent (lit "a.\nb")).sentences.map realWords = [[lit "a", lit "."], [lit "b"]] := by
  decide

end NetworkFileShare
