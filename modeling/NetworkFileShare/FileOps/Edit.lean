import NetworkFileShare.FileOps.Write
import NetworkFileShare.FileOps.Insert

/-!
# One edit of a text (`file_ops.c`: parse, insert, write back)

* `cores_eq` : the sentences of a text follow from its non-blank bytes and whether it ends behind a delimiter;
* `getLast?_render`, `rest_parse` : that can be seen from the last token of the last sentence;
* `insert_text` : a word inserted into a parsed text and written back, on the non-blank bytes.
-/

namespace NetworkFileShare
open Segment

/-! ## The end of a text -/

theorem isBlank_false_of_isDelimiter (c : CChar) (h : isDelimiter c = true) : (!isBlank c) = true :=
  not_isBlank_of_isDelimiter h

theorem closed_nonBlank (text : CStr) :
    closed isDelimiter (nonBlank text) = (closed isDelimiter text).map nonBlank :=
  closed_filter isBlank_false_of_isDelimiter text

theorem rest_nonBlank (text : CStr) : rest isDelimiter (nonBlank text) = nonBlank (rest isDelimiter text) :=
  rest_filter isBlank_false_of_isDelimiter text

/-- **The sentences of a text**: its non-blank bytes cut, with an empty sentence more when only blanks follow the
last delimiter. -/
theorem cores_eq (text : CStr) :
    cores text = closed isDelimiter (nonBlank text) ++
      if rest isDelimiter text = [] then [] else [rest isDelimiter (nonBlank text)] := by
  rw [cores, sentencesOf, segments, closed_nonBlank, rest_nonBlank]
  split <;> simp

theorem length_cores (text : CStr) :
    (cores text).length = (closed isDelimiter (nonBlank text)).length +
      if rest isDelimiter text = [] then 0 else 1 := by
  rw [cores_eq, List.length_append]
  split <;> rfl

/-- The last byte written is the last one of the last token. -/
theorem getLast?_renderSentence {s : Sentence} (h : ∀ t ∈ s, t ≠ []) :
    (renderSentence s).getLast? = s.getLast?.bind List.getLast? := by
  induction s using List.reverseRecOn with
  | nil => rfl
  | append_singleton ts t _ =>
    obtain ⟨b, hb, -⟩ := renderSentence_snoc ts t
    rw [hb, List.getLast?_append_of_ne_nil _ (h t (by simp)), List.getLast?_concat]
    rfl

theorem getLast?_render {s : Sentence} (hs : s ≠ []) (h : ∀ t ∈ s, t ≠ []) : ∀ X : List Sentence,
    (render (X ++ [s])).getLast? = s.getLast?.bind List.getLast?
  | [] => getLast?_renderSentence h
  | [u] => by
    have hne := renderSentence_ne_nil hs h
    rw [List.singleton_append, render, render, List.getLast?_append_of_ne_nil _ hne,
      getLast?_renderSentence h]
  | u :: v :: X => by
    have ih := getLast?_render hs h (v :: X)
    have hne : render (v :: X ++ [s]) ≠ [] := by
      intro he
      rw [he, List.getLast?_nil] at ih
      have hlast := getLast?_renderSentence h
      rw [← ih, List.getLast?_eq_none_iff] at hlast
      exact renderSentence_ne_nil hs h hlast
    rw [List.cons_append, List.cons_append, render]
    exact (List.getLast?_append_of_ne_nil _ hne).trans ih

/-- Whether a text ends behind a delimiter can be seen from its last token. -/
theorem rest_parse {text : CStr} {X : List Sentence} {s : Sentence}
    (h : (parseContent text).sentences = X ++ [s]) :
    rest isDelimiter text = [] ↔ ∀ c ∈ s.getLast?.bind List.getLast?, isDelimiter c = true := by
  obtain ⟨before, words, -, -, hempty, hclosed, hplain, hparse⟩ := parseContent_cases text
  rw [hparse] at h
  rw [← hempty]
  by_cases hw : words = []
  · rw [if_pos hw] at h
    obtain ⟨ts, d, hs, hd, -⟩ := hclosed s ((show before = X ++ [s] from h) ▸ by simp)
    simp [hw, hs, hd]
  · rw [if_neg hw] at h
    obtain ⟨-, hs⟩ := List.append_inj' h rfl
    obtain rfl := List.singleton_inj.mp hs
    simp only [hw, false_iff]
    intro hall
    obtain ⟨t, ht⟩ : ∃ t, words.getLast? = some t := ⟨_, List.getLast?_eq_some_getLast hw⟩
    have hmem := List.mem_of_getLast? ht
    obtain ⟨c, hc⟩ : ∃ c, t.getLast? = some c := ⟨_, List.getLast?_eq_some_getLast (hplain t hmem).1.1⟩
    have hdelim := hall c (by rw [ht]; exact hc)
    rw [(hplain t hmem).2 c (List.mem_of_getLast? hc)] at hdelim
    cases hdelim

/-! ## An insertion into a text -/

theorem render_cons_ne_nil {s : Sentence} (h : renderSentence s ≠ []) : ∀ X : List Sentence,
    render (s :: X) ≠ []
  | [] => h
  | _ :: _ => by simp [render, h]

/-- The sentences an insertion is made into. -/
structure InsertedInto (text : CStr) (fc : FileContent) (i : Nat) : Prop where
  count : fc.sentenceCount = fc.sentences.length
  tokens : ∀ s ∈ fc.sentences, ∀ t ∈ s, TokenOk t
  before : ((fc.sentences.take i).map core).flatten = ((cores text).take i).flatten
  sentence : core (fc.sentences.getD i []) = (cores text).getD i []
  words : realWordCount (fc.sentences.getD i []) = realWordCount ((parseContent text).sentences.getD i [])
  behind : ((fc.sentences.drop (i + 1)).map core).flatten = ((cores text).drop (i + 1)).flatten

theorem InsertedInto.of_parse (text : CStr) (i : Nat) : InsertedInto text (parseContent text) i where
  count := sentenceCount_parseContent text
  tokens _ hs := (parseContent_shaped text).tokenOk hs
  before := by rw [List.map_take, cores_parseContent]
  sentence := by
    rw [← cores_parseContent, List.getD_eq_getElem?_getD, List.getD_eq_getElem?_getD, List.getElem?_map]
    cases (parseContent text).sentences[i]? <;> rfl
  words := rfl
  behind := by rw [List.map_drop, cores_parseContent]

/-- An empty text is one empty sentence. -/
theorem InsertedInto.of_nil (i : Nat) : InsertedInto [] ⟨[[]], 1⟩ i where
  count := rfl
  tokens s hs t ht := by
    rw [List.mem_singleton.mp hs] at ht
    cases ht
  before := by cases i <;> simp [cores]
  sentence := by cases i <;> rfl
  words := by cases i <;> rfl
  behind := by cases i <;> rfl

/-- **A word inserted into a parsed text and written back** (an empty text counts as one empty sentence): the word
stands inside the sentence, and behind it exactly for the index behind its last word; a later last sentence still
ends the text. -/
theorem insert_text {text word : CStr} {fc fc' : FileContent} {sentIdx wordIdx : Int} {k : Nat}
    (hfc : fc = parseContent text ∨ text = [] ∧ fc = ⟨[[]], 1⟩) (hne : sentIdx = 1 → text ≠ [])
    (h : insertWordInSentence fc sentIdx wordIdx word = some (fc', k)) :
    ∃ i : Nat, sentIdx = i ∧ ∃ s₁ s₂, s₁ ++ s₂ = (cores text).getD i [] ∧
      nonBlank fc'.text = ((cores text).take i).flatten ++ (s₁ ++ nonBlank word ++ s₂) ++
        ((cores text).drop (i + 1)).flatten ∧
      (s₂ = [] ↔ wordIdx = realWordCount ((parseContent text).sentences.getD i []) + 1) ∧
      (i + 1 < (cores text).length → (rest isDelimiter fc'.text = [] ↔ rest isDelimiter text = [])) ∧
      (1 ≤ i → fc'.text ≠ []) := by
  have hinto : ∀ i, InsertedInto text fc i := fun i => by
    rcases hfc with rfl | ⟨rfl, rfl⟩
    · exact .of_parse text i
    · exact .of_nil i
  have hspecial : ¬ (fc.sentences = [[]] ∧ sentIdx = 1) := by
    rintro ⟨hs, hone⟩
    rcases hfc with rfl | ⟨htext, -⟩
    · exact parseContent_ne_emptySentence text hs
    · exact hne hone htext
  obtain ⟨i, a, rfl, hi, cur, mid, hcount, hsentences, hcores, hlast⟩ :=
    insertWord_cases (hinto 0).count hspecial (hinto 0).tokens h
  obtain ⟨-, -, hbefore, hsentence, hwords, hbehind⟩ := hinto i
  generalize hs : fc.sentences.getD i [] = s at hcores hlast hsentence hwords
  have htext : fc'.text = render fc'.sentences := by
    rw [FileContent.text, hcount, List.take_length]
  refine ⟨i, rfl, core (s.take a), core (s.drop a), ?_, ?_, hwords ▸ hlast, fun hlt => ?_, fun hpos => ?_⟩
  · rw [← core_append, List.take_append_drop, hsentence]
  · rw [htext, nonBlank_render, hsentences, List.map_append, List.map_append, List.flatten_append,
      List.flatten_append, hbefore, hbehind, List.map_cons, List.flatten_cons, hcores]
  · -- the last sentence stays as it is
    rcases hfc with rfl | ⟨rfl, -⟩
    · rw [← cores_parseContent, List.length_map] at hlt
      obtain ⟨X, z, hX⟩ : ∃ X z, (parseContent text).sentences = X ++ [z] :=
        ⟨_, _, (List.dropLast_concat_getLast (List.ne_nil_of_length_pos (by omega))).symm⟩
      have hz : z ∈ (parseContent text).sentences := by rw [hX]; simp
      have hlen : i + 1 ≤ X.length := by
        rw [hX, List.length_append, List.length_singleton] at hlt
        omega
      rw [rest_parse hX, htext, hsentences, rest_eq_nil_iff, hX, List.drop_append_of_le_length hlen,
        ← List.append_assoc, getLast?_render ((parseContent_shaped text).ne_nil hz)
          fun t ht => ((parseContent_shaped text).tokenOk hz t ht).1]
    · exact absurd hlt (by simp [cores])
  · rw [htext, hsentences]
    obtain ⟨z, X, hX⟩ : ∃ z X, fc.sentences = z :: X :=
      List.exists_cons_of_ne_nil (List.ne_nil_of_length_pos (by omega))
    obtain ⟨j, rfl⟩ : ∃ j, i = j + 1 := ⟨i - 1, by omega⟩
    rw [hX, List.take_succ_cons]
    refine render_cons_ne_nil ?_ _
    rcases hfc with rfl | ⟨htext, rfl⟩
    · have hz : z ∈ (parseContent text).sentences := by rw [hX]; simp
      exact renderSentence_ne_nil ((parseContent_shaped text).ne_nil hz)
        fun t ht => ((parseContent_shaped text).tokenOk hz t ht).1
    · exact absurd htext (hne (by simp at hi; omega))

end NetworkFileShare
