import NetworkFileShare.FileOps.Parse

/-!
# Writing sentences back (`file_ops.c`: `write_file_content`)

* `render` : the bytes `write_file_content` puts into a file, with the blanks it adds between words and
  between sentences;
* `nonBlank_render` : they have the non-blank bytes of the tokens, in order;
* `cores_render` : parsed again, sentences of the right form come back with the same non-blank bytes each.
-/

namespace NetworkFileShare

/-- Whether a blank is written between two tokens of a sentence. -/
def needsSpace (cur next : Token) : Bool :=
  if isSpaceToken cur || isSpaceToken next || isNewlineToken cur || isNewlineToken next then false
  else if startsWithDelimiter cur || startsWithDelimiter next then false
  else true

/-- The words of one sentence. -/
def renderSentence : Sentence → CStr
  | [] => []
  | [t] => t
  | t :: t' :: ts => t ++ (if needsSpace t t' then [space] else []) ++ renderSentence (t' :: ts)

/-- The blank between a sentence and the next one. -/
def sentenceGap (s next : Sentence) : CStr :=
  match s.getLast? with
  | none => []
  | some last =>
    if !isNewlineToken last && !isSpaceToken last then
      match next with
      | firstNext :: _ => if !isSpaceToken firstNext && !isNewlineToken firstNext then [space] else []
      | [] => [space]
    else []

/-- The sentences one after another. -/
def render : List Sentence → CStr
  | [] => []
  | [s] => renderSentence s
  | s :: s' :: X => renderSentence s ++ sentenceGap s s' ++ render (s' :: X)

/-- The bytes `write_file_content` writes. -/
def FileContent.text (fc : FileContent) : CStr := render (fc.sentences.take fc.sentenceCount)

/-! ## Non-blank bytes -/

theorem nonBlank_gap (s s' : Sentence) : nonBlank (sentenceGap s s') = [] := by
  have hspace : nonBlank [space] = [] := by decide
  unfold sentenceGap
  split
  · rfl
  · split
    · split
      · split
        · exact hspace
        · rfl
      · exact hspace
    · rfl

theorem nonBlank_wordGap (t t' : Token) : nonBlank (if needsSpace t t' then [space] else []) = [] := by
  split <;> decide

theorem nonBlank_renderSentence : ∀ s : Sentence, nonBlank (renderSentence s) = core s
  | [] => rfl
  | [t] => by simp [renderSentence]
  | t :: t' :: ts => by
    rw [renderSentence, nonBlank_append, nonBlank_append, nonBlank_wordGap,
      nonBlank_renderSentence (t' :: ts), core_cons t, List.append_nil]

/-- **Writing keeps the non-blank bytes of the tokens.** -/
theorem nonBlank_render : ∀ X : List Sentence, nonBlank (render X) = (X.map core).flatten
  | [] => rfl
  | [s] => by simp [render, nonBlank_renderSentence]
  | s :: s' :: X => by
    rw [render, nonBlank_append, nonBlank_append, nonBlank_gap, nonBlank_renderSentence,
      nonBlank_render (s' :: X), List.append_nil]
    rfl

/-! ## Sentences of the right form -/

theorem not_delim_renderSentence {s : Sentence} (h : ∀ t ∈ s, ∀ c ∈ t, isDelimiter c = false) :
    ∀ c ∈ renderSentence s, isDelimiter c = false := by
  induction s with
  | nil => intro c hc; cases hc
  | cons t ts ih =>
    cases ts with
    | nil => exact h t List.mem_cons_self
    | cons t' ts =>
      intro c hc
      rw [renderSentence] at hc
      rcases List.mem_append.mp hc with hc | hc
      · rcases List.mem_append.mp hc with hc | hc
        · exact h t List.mem_cons_self c hc
        · split at hc
          · rw [List.mem_singleton.mp hc]; decide
          · cases hc
      · exact ih (fun u hu => h u (List.mem_cons_of_mem _ hu)) c hc

theorem renderSentence_ne_nil {s : Sentence} (hs : s ≠ []) (h : ∀ t ∈ s, t ≠ []) :
    renderSentence s ≠ [] := by
  cases s with
  | nil => exact absurd rfl hs
  | cons t ts =>
    have ht := h t List.mem_cons_self
    cases ts with
    | nil => exact ht
    | cons t' ts => simp [renderSentence, ht]

/-- A last token that is written ends the bytes of its sentence. -/
theorem renderSentence_snoc (ts : Sentence) (t : Token) :
    ∃ b, renderSentence (ts ++ [t]) = b ++ t ∧
      ((∀ u ∈ ts, ∀ c ∈ u, isDelimiter c = false) → ∀ c ∈ b, isDelimiter c = false) := by
  induction ts with
  | nil => exact ⟨[], rfl, fun _ c hc => by cases hc⟩
  | cons u us ih =>
    obtain ⟨b, hb, hplain⟩ := ih
    obtain ⟨v, vs, hv⟩ : ∃ v vs, us ++ [t] = v :: vs := List.exists_cons_of_ne_nil (by simp)
    refine ⟨u ++ (if needsSpace u v then [space] else []) ++ b, ?_, fun h c hc => ?_⟩
    · rw [List.cons_append, hv, renderSentence, ← hv, hb]
      simp
    · rcases List.mem_append.mp hc with hc | hc
      · rcases List.mem_append.mp hc with hc | hc
        · exact h u List.mem_cons_self c hc
        · split at hc
          · rw [List.mem_singleton.mp hc]; decide
          · cases hc
      · exact hplain (fun w hw => h w (List.mem_cons_of_mem _ hw)) c hc

theorem ClosedSentence.render {s : Sentence} (h : ClosedSentence s) :
    ∃ b d, renderSentence s = b ++ [d] ∧ isDelimiter d = true ∧ ∀ c ∈ b, isDelimiter c = false := by
  obtain ⟨ts, d, rfl, hd, hts⟩ := h
  obtain ⟨b, hb, hplain⟩ := renderSentence_snoc ts [d]
  exact ⟨b, d, hb, hd, hplain fun t ht => (hts t ht).2⟩

theorem render_ne_nil {X : List Sentence} (h : ∀ s ∈ X, s ≠ [] ∧ ∀ t ∈ s, t ≠ []) (hX : X ≠ []) :
    render X ≠ [] := by
  cases X with
  | nil => exact absurd rfl hX
  | cons s X =>
    have hs := renderSentence_ne_nil (h s List.mem_cons_self).1 (h s List.mem_cons_self).2
    cases X with
    | nil => exact hs
    | cons s' X => simp [render, hs]

/-- **Written and parsed again, every sentence has its non-blank bytes.** -/
theorem cores_render {X : List Sentence} (h : Shaped X) : cores (render X) = X.map core := by
  induction X with
  | nil => rfl
  | cons s X ih =>
    cases X with
    | nil =>
      rw [List.map_singleton, ← nonBlank_renderSentence, cores, sentencesOf]
      rcases h.each s List.mem_cons_self with hc | ho
      · obtain ⟨b, d, hb, hd, hplain⟩ := hc.render
        rw [render, hb]
        have hseg := Segment.segments_block hplain hd []
        rw [List.append_nil] at hseg
        rw [hseg]
        rfl
      · rw [render, Segment.segments_open
          (not_delim_renderSentence fun t ht => (ho.2 t ht).2)
          (renderSentence_ne_nil ho.1 fun t ht => (ho.2 t ht).1.1)]
        rfl
    | cons s' X =>
      have hX := h.tail
      obtain ⟨b, d, hb, hd, hplain⟩ := (h.closed s (by simp)).render
      have hne : render (s' :: X) ≠ [] :=
        render_ne_nil (fun u hu => ⟨hX.ne_nil hu, fun t ht => (hX.tokenOk hu t ht).1⟩) (by simp)
      have hgap : ∀ c ∈ sentenceGap s s', (!isBlank c) = false := fun c hc => by
        have hnil := List.filter_eq_nil_iff.mp (nonBlank_gap s s') c hc
        simpa using hnil
      rw [List.map_cons, ← nonBlank_renderSentence, ← ih hX, render, List.append_assoc, hb, cores,
        sentencesOf, Segment.segments_block hplain hd, List.map_cons]
      exact congrArg _ (Segment.map_filter_segments_gap
        (fun c hc => not_isBlank_of_isDelimiter hc) hgap hne)

end NetworkFileShare
