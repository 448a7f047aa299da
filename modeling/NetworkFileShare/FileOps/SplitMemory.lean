import NetworkFileShare.FileOps.Split

/-!
# The arrays of `split_by_delimiters` (`file_ops.c`)

* `SplitMemory` : the loop with the capacity of `parts` and every store into an array; `splitMemory` : a whole run,
  whose parts are those of `splitByDelimiters` (`parts_splitMemory`);
* `buffer_in_bounds_iff` : `buffer` and `space_buf` are not overrun exactly when no word is too long;
* `parts_in_bounds_iff` : `parts` is not overrun exactly when no word but a last one comes as piece `10 * 2 ^ k`, for a
  word is stored before the capacity is looked at;
* `splitInBounds_iff` : no array is overrun exactly when both hold.
-/

namespace NetworkFileShare

/-- A store into an array: the index, and what is allocated for `parts` then. -/
inductive Store where
  | buffer (i : Nat)
  | spaceBuf (i : Nat)
  | parts (i cap : Nat)
  deriving DecidableEq

/-- The loop of `split_by_delimiters`: `*count`, `buf_idx` and `space_idx` are the lengths of the lists of `st`. -/
structure SplitMemory where
  st : SplitState
  cap : Nat
  stores : List Store
  deriving DecidableEq

namespace SplitMemory

def init : SplitMemory := ⟨.init, 10, []⟩

/-- `if (*count >= cap)`. -/
def grow (m : SplitMemory) : SplitMemory :=
  if m.st.parts.length ≥ m.cap then { m with cap := m.cap * 2 } else m

def store (m : SplitMemory) (s : Store) : SplitMemory := { m with stores := m.stores ++ [s] }

/-- `parts[*count] = ..., (*count)++`, which leaves `st` behind. -/
def storePart (m : SplitMemory) (st : SplitState) : SplitMemory :=
  { m.store (.parts m.st.parts.length m.cap) with st := st }

/-- `if (buf_idx > 0)` in the loop: there is room for the next part afterwards. -/
def flushBuffer (m : SplitMemory) : SplitMemory :=
  if m.st.buffer = [] then m
  else ((m.store (.buffer m.st.buffer.length)).storePart m.st.flushBuffer).grow

/-- The end of a run of blanks. -/
def flushSpaces (m : SplitMemory) : SplitMemory :=
  if m.st.spaceBuf = [] then m
  else (m.store (.spaceBuf m.st.spaceBuf.length)).grow.storePart m.st.flushSpaces

def addPart (m : SplitMemory) (t : Token) : SplitMemory := m.grow.storePart (m.st.addPart t)

/-- One byte. -/
def splitChar (m : SplitMemory) (c : CChar) : SplitMemory :=
  if isSpaceChar c then
    let m := m.flushBuffer
    if m.st.spaceBuf.length < MAX_WORD - 1 then
      { m.store (.spaceBuf m.st.spaceBuf.length) with st := { m.st with spaceBuf := m.st.spaceBuf ++ [c] } }
    else m
  else
    let m := m.flushSpaces
    if c = newline then m.flushBuffer.addPart [newline]
    else if isDelimiter c then ((m.flushBuffer.store (.buffer 0)).store (.buffer 1)).addPart [c]
    else { m.store (.buffer m.st.buffer.length) with st := { m.st with buffer := m.st.buffer ++ [c] } }

/-- `if (buf_idx > 0)` after the loop. -/
def lastBuffer (m : SplitMemory) : SplitMemory :=
  if m.st.buffer = [] then m
  else (m.store (.buffer m.st.buffer.length)).grow.storePart m.st.flushBuffer

end SplitMemory

/-- `split_by_delimiters` with its stores. -/
def splitMemory (word : CStr) : SplitMemory := (word.foldl SplitMemory.splitChar .init).flushSpaces.lastBuffer

namespace SplitMemory

/-! ## The stores belong to the loop -/

@[simp] theorem st_grow (m : SplitMemory) : m.grow.st = m.st := by
  unfold grow
  split <;> rfl

@[simp] theorem stores_grow (m : SplitMemory) : m.grow.stores = m.stores := by
  unfold grow
  split <;> rfl

@[simp] theorem st_store (m : SplitMemory) (s : Store) : (m.store s).st = m.st := rfl

@[simp] theorem cap_store (m : SplitMemory) (s : Store) : (m.store s).cap = m.cap := rfl

@[simp] theorem stores_store (m : SplitMemory) (s : Store) : (m.store s).stores = m.stores ++ [s] := rfl

@[simp] theorem st_storePart (m : SplitMemory) (st : SplitState) : (m.storePart st).st = st := rfl

@[simp] theorem cap_storePart (m : SplitMemory) (st : SplitState) : (m.storePart st).cap = m.cap := rfl

@[simp] theorem stores_storePart (m : SplitMemory) (st : SplitState) :
    (m.storePart st).stores = m.stores ++ [.parts m.st.parts.length m.cap] := rfl

theorem st_flushBuffer (m : SplitMemory) : m.flushBuffer.st = m.st.flushBuffer := by
  unfold flushBuffer
  split
  · rename_i hnil
    exact (if_pos hnil).symm
  · rw [st_grow, st_storePart]

theorem st_flushSpaces (m : SplitMemory) : m.flushSpaces.st = m.st.flushSpaces := by
  unfold flushSpaces
  split
  · rename_i hnil
    exact (if_pos hnil).symm
  · rfl

theorem st_lastBuffer (m : SplitMemory) : m.lastBuffer.st = m.st.flushBuffer := by
  unfold lastBuffer
  split
  · rename_i hnil
    exact (if_pos hnil).symm
  · rfl

theorem st_splitChar (m : SplitMemory) (c : CChar) : (m.splitChar c).st = m.st.splitChar c := by
  unfold splitChar SplitState.splitChar
  split
  · simp only [st_flushBuffer]
    split
    · rfl
    · exact st_flushBuffer m
  · simp only
    split
    · show m.flushSpaces.flushBuffer.st.addPart [newline] = _
      rw [st_flushBuffer, st_flushSpaces]
    · split
      · show m.flushSpaces.flushBuffer.st.addPart [c] = _
        rw [st_flushBuffer, st_flushSpaces]
      · simp only [st_flushSpaces]

theorem splitChar_blank {m : SplitMemory} {c : CChar} (hc : isSpaceChar c = true) :
    m.splitChar c =
      if m.flushBuffer.st.spaceBuf.length < MAX_WORD - 1 then
        { m.flushBuffer.store (.spaceBuf m.flushBuffer.st.spaceBuf.length) with
          st := { m.flushBuffer.st with spaceBuf := m.flushBuffer.st.spaceBuf ++ [c] } }
      else m.flushBuffer := if_pos hc

/-- A newline, or a delimiter, which goes through `buffer`. -/
theorem splitChar_single {m : SplitMemory} {c : CChar} (hc : c = newline ∨ isDelimiter c = true) :
    m.splitChar c = m.flushSpaces.flushBuffer.addPart [c] ∨
      m.splitChar c = ((m.flushSpaces.flushBuffer.store (.buffer 0)).store (.buffer 1)).addPart [c] := by
  unfold splitChar
  simp only [(single_kind hc).1, Bool.false_eq_true, if_false]
  by_cases hn : c = newline
  · rw [if_pos hn, ← hn]
    exact Or.inl rfl
  · rw [if_neg hn, if_pos (hc.resolve_left hn)]
    exact Or.inr rfl

theorem splitChar_letter {m : SplitMemory} {c : CChar} (hc : isLetter c = true) :
    m.splitChar c = { m.flushSpaces.store (.buffer m.flushSpaces.st.buffer.length) with
      st := { m.flushSpaces.st with buffer := m.flushSpaces.st.buffer ++ [c] } } := by
  obtain ⟨hblank, hdelimiter⟩ := isLetter_iff.mp hc
  rw [isBlank, Bool.or_eq_false_iff, decide_eq_false_iff_not] at hblank
  unfold splitChar
  simp only [hblank.1, hblank.2, hdelimiter, Bool.false_eq_true, if_false]

theorem st_foldl (word : CStr) :
    (word.foldl splitChar .init).st = word.foldl SplitState.splitChar .init := by
  induction word using List.reverseRecOn with
  | nil => rfl
  | append_singleton l c ih =>
    rw [List.foldl_append, List.foldl_append, List.foldl_cons, List.foldl_nil, st_splitChar, ih]
    rfl

end SplitMemory

/-- The parts are those of the loop without its memory. -/
theorem parts_splitMemory (word : CStr) : (splitMemory word).st.parts = splitByDelimiters word := by
  rw [splitMemory, SplitMemory.st_lastBuffer, SplitMemory.st_flushSpaces, SplitMemory.st_foldl, splitByDelimiters]

namespace SplitMemory

/-! ## The words and the blanks -/

/-- After the bytes `l`: a store into `buffer` lies within a word or is one of a delimiter, and every word that is a
part has been closed by its terminator. -/
structure Traced (l : CStr) (m : SplitMemory) : Prop where
  low : ∀ i, .buffer i ∈ m.stores → i ≤ 1 ∨ ∃ r, r <:+: l ∧ (∀ c ∈ r, isLetter c = true) ∧ i ≤ r.length
  spaces : ∀ i, .spaceBuf i ∈ m.stores → i < MAX_WORD
  room : m.st.spaceBuf.length ≤ MAX_WORD - 1
  blanks : ∀ c ∈ m.st.spaceBuf, isSpaceChar c = true
  suffix : m.st.buffer <:+ l
  letters : ∀ c ∈ m.st.buffer, isLetter c = true
  words : ∀ t ∈ m.st.parts, isWordToken t = true → .buffer t.length ∈ m.stores

theorem st_fields_flushBuffer {st : SplitState} (h : st.buffer ≠ []) :
    st.flushBuffer = ⟨st.parts ++ [st.buffer], [], st.spaceBuf⟩ := if_neg h

theorem st_fields_flushSpaces {st : SplitState} (h : st.spaceBuf ≠ []) :
    st.flushSpaces = ⟨st.parts ++ [st.spaceBuf], st.buffer, []⟩ := if_neg h

theorem Traced.flushWord {l : CStr} {m m' : SplitMemory} (h : Traced l m) (hne : m.st.buffer ≠ []) (i cap : Nat)
    (hst : m'.st = m.st.flushBuffer)
    (hstores : m'.stores = m.stores ++ [.buffer m.st.buffer.length] ++ [.parts i cap]) : Traced l m' := by
  rw [st_fields_flushBuffer hne] at hst
  refine ⟨fun j hj => ?_, fun j hj => ?_, ?_, ?_, ?_, ?_, fun t ht hword => ?_⟩
  · rw [hstores] at hj
    simp only [List.mem_append, List.mem_singleton, reduceCtorEq, or_false, Store.buffer.injEq] at hj
    rcases hj with hj | rfl
    · exact h.low j hj
    · exact Or.inr ⟨_, h.suffix.isInfix, h.letters, Nat.le_refl _⟩
  · rw [hstores] at hj
    simp only [List.mem_append, List.mem_singleton, reduceCtorEq, or_false] at hj
    exact h.spaces j hj
  · rw [hst]
    exact h.room
  · rw [hst]
    exact h.blanks
  · rw [hst]
    exact List.nil_suffix
  · rw [hst]
    intro c hc
    cases hc
  · rw [hst] at ht
    rw [hstores]
    simp only [List.mem_append, List.mem_singleton, reduceCtorEq, or_false, Store.buffer.injEq] at ht ⊢
    rcases ht with ht | rfl
    · exact Or.inl (h.words t ht hword)
    · exact Or.inr rfl

theorem Traced.flushBuffer {l : CStr} {m : SplitMemory} (h : Traced l m) : Traced l m.flushBuffer := by
  by_cases hnil : m.st.buffer = []
  · rwa [SplitMemory.flushBuffer, if_pos hnil]
  · refine h.flushWord hnil m.st.parts.length m.cap (st_flushBuffer m) ?_
    rw [SplitMemory.flushBuffer, if_neg hnil, stores_grow]
    rfl

theorem Traced.lastBuffer {l : CStr} {m : SplitMemory} (h : Traced l m) : Traced l m.lastBuffer := by
  by_cases hnil : m.st.buffer = []
  · rwa [SplitMemory.lastBuffer, if_pos hnil]
  · refine h.flushWord hnil (m.store (.buffer m.st.buffer.length)).grow.st.parts.length
      (m.store (.buffer m.st.buffer.length)).grow.cap (st_lastBuffer m) ?_
    rw [SplitMemory.lastBuffer, if_neg hnil, stores_storePart, stores_grow]
    rfl

theorem Traced.flushSpaces {l : CStr} {m : SplitMemory} (h : Traced l m) : Traced l m.flushSpaces := by
  by_cases hnil : m.st.spaceBuf = []
  · rwa [SplitMemory.flushSpaces, if_pos hnil]
  · have hst := st_flushSpaces m
    rw [st_fields_flushSpaces hnil] at hst
    have hstores : ∃ i cap, m.flushSpaces.stores =
        m.stores ++ [.spaceBuf m.st.spaceBuf.length] ++ [.parts i cap] := by
      rw [SplitMemory.flushSpaces, if_neg hnil, stores_storePart, stores_grow]
      exact ⟨_, _, rfl⟩
    obtain ⟨i, cap, hstores⟩ := hstores
    refine ⟨fun j hj => ?_, fun j hj => ?_, ?_, ?_, ?_, ?_, fun t ht hword => ?_⟩
    · rw [hstores] at hj
      simp only [List.mem_append, List.mem_singleton, reduceCtorEq, or_false] at hj
      exact h.low j hj
    · rw [hstores] at hj
      simp only [List.mem_append, List.mem_singleton, reduceCtorEq, or_false, Store.spaceBuf.injEq] at hj
      rcases hj with hj | rfl
      · exact h.spaces j hj
      · exact Nat.lt_of_le_of_lt h.room (by decide)
    · rw [hst]
      exact Nat.zero_le _
    · rw [hst]
      intro c hc
      cases hc
    · rw [hst]
      exact h.suffix
    · rw [hst]
      exact h.letters
    · rw [hst] at ht
      rw [hstores]
      refine List.mem_append_left _ (List.mem_append_left _ ?_)
      rcases List.mem_append.mp ht with ht | ht
      · exact h.words t ht hword
      · rw [List.mem_singleton.mp ht, not_word_of_space (isSpaceToken_iff.mpr ⟨hnil, h.blanks⟩)] at hword
        cases hword

/-- A part that is no word. -/
theorem Traced.addPart {l : CStr} {m : SplitMemory} (h : Traced l m) {t : Token} (ht : isWordToken t = false) :
    Traced l (m.addPart t) := by
  have hstores : ∃ i cap, (m.addPart t).stores = m.stores ++ [.parts i cap] := by
    rw [SplitMemory.addPart, stores_storePart, stores_grow]
    exact ⟨_, _, rfl⟩
  obtain ⟨i, cap, hstores⟩ := hstores
  refine ⟨fun j hj => ?_, fun j hj => ?_, h.room, h.blanks, h.suffix, h.letters, fun u hu hword => ?_⟩
  · rw [hstores] at hj
    simp only [List.mem_append, List.mem_singleton, reduceCtorEq, or_false] at hj
    exact h.low j hj
  · rw [hstores] at hj
    simp only [List.mem_append, List.mem_singleton, reduceCtorEq, or_false] at hj
    exact h.spaces j hj
  · rw [hstores]
    refine List.mem_append_left _ ?_
    rcases List.mem_append.mp hu with hu | hu
    · exact h.words u hu hword
    · rw [List.mem_singleton.mp hu, ht] at hword
      cases hword

/-- A store for a delimiter. -/
theorem Traced.store {l : CStr} {m : SplitMemory} (h : Traced l m) {j : Nat} (hj : j ≤ 1) :
    Traced l (m.store (.buffer j)) := by
  refine ⟨fun i hi => ?_, fun i hi => ?_, h.room, h.blanks, h.suffix, h.letters, fun t ht hword => ?_⟩
  · simp only [stores_store, List.mem_append, List.mem_singleton, Store.buffer.injEq] at hi
    rcases hi with hi | rfl
    · exact h.low i hi
    · exact Or.inl hj
  · simp only [stores_store, List.mem_append, List.mem_singleton, reduceCtorEq, or_false] at hi
    exact h.spaces i hi
  · exact List.mem_append_left _ (h.words t ht hword)

/-- A byte that does not go to `buffer`. -/
theorem Traced.mono {l : CStr} {m : SplitMemory} (h : Traced l m) (hnil : m.st.buffer = []) (c : CChar) :
    Traced (l ++ [c]) m := by
  refine ⟨fun i hi => ?_, h.spaces, h.room, h.blanks, ?_, h.letters, h.words⟩
  · rcases h.low i hi with hi | ⟨r, hr, hletters, hle⟩
    · exact Or.inl hi
    · exact Or.inr ⟨r, hr.trans (List.infix_append' [] l [c]), hletters, hle⟩
  · rw [hnil]
    exact List.nil_suffix

theorem buffer_flushBuffer (m : SplitMemory) : m.flushBuffer.st.buffer = [] := by
  rw [st_flushBuffer]
  exact SplitState.flushBuffer_buffer _

theorem Traced.blank {l : CStr} {m : SplitMemory} (h : Traced l m) {c : CChar} (hc : isSpaceChar c = true) :
    Traced (l ++ [c]) (m.splitChar c) := by
  have hflush := h.flushBuffer.mono (buffer_flushBuffer m) c
  rw [splitChar_blank hc]
  generalize m.flushBuffer = m at hflush ⊢
  split
  · rename_i hroom
    refine ⟨fun i hi => ?_, fun i hi => ?_, ?_, Segment.forall_mem_snoc hflush.blanks hc, hflush.suffix,
      hflush.letters, fun t ht hword => ?_⟩
    · simp only [stores_store, List.mem_append, List.mem_singleton, reduceCtorEq, or_false] at hi
      exact hflush.low i hi
    · simp only [stores_store, List.mem_append, List.mem_singleton, Store.spaceBuf.injEq] at hi
      rcases hi with hi | rfl
      · exact hflush.spaces i hi
      · exact Nat.lt_of_lt_of_le hroom (by decide)
    · rw [List.length_append]
      exact hroom
    · exact List.mem_append_left _ (hflush.words t ht hword)
  · exact hflush

theorem Traced.single {l : CStr} {m : SplitMemory} (h : Traced l m) {c : CChar}
    (hc : c = newline ∨ isDelimiter c = true) : Traced (l ++ [c]) (m.splitChar c) := by
  have hflush := h.flushSpaces.flushBuffer.mono (buffer_flushBuffer _) c
  have hword := not_word_of_single hc
  rcases splitChar_single (m := m) hc with hstep | hstep <;> rw [hstep]
  · exact hflush.addPart hword
  · exact ((hflush.store (Nat.zero_le 1)).store (Nat.le_refl 1)).addPart hword

theorem Traced.letter {l : CStr} {m : SplitMemory} (h : Traced l m) {c : CChar} (hc : isLetter c = true) :
    Traced (l ++ [c]) (m.splitChar c) := by
  have hflush := h.flushSpaces
  rw [splitChar_letter hc]
  generalize m.flushSpaces = m at hflush ⊢
  have hsuffix := ParseState.suffix_snoc hflush.suffix c
  have hletters : ∀ d ∈ m.st.buffer ++ [c], isLetter d = true := Segment.forall_mem_snoc hflush.letters hc
  refine ⟨fun i hi => ?_, fun i hi => ?_, hflush.room, hflush.blanks, hsuffix, hletters, fun t ht hword => ?_⟩
  · simp only [stores_store, List.mem_append, List.mem_singleton, Store.buffer.injEq] at hi
    rcases hi with hi | rfl
    · rcases hflush.low i hi with hi | ⟨r, hr, hrun, hle⟩
      · exact Or.inl hi
      · exact Or.inr ⟨r, hr.trans (List.infix_append' [] l [c]), hrun, hle⟩
    · refine Or.inr ⟨_, hsuffix.isInfix, hletters, ?_⟩
      rw [List.length_append]
      exact Nat.le_add_right _ 1
  · simp only [stores_store, List.mem_append, List.mem_singleton, reduceCtorEq, or_false] at hi
    exact hflush.spaces i hi
  · exact List.mem_append_left _ (hflush.words t ht hword)

/-- The loop over a whole text. -/
theorem traced_foldl (word : CStr) : Traced word (word.foldl splitChar .init) := by
  induction word using List.reverseRecOn with
  | nil =>
    refine ⟨?_, ?_, Nat.zero_le _, ?_, List.nil_suffix, ?_, ?_⟩
    all_goals
      intro x hx
      cases hx
  | append_singleton l c ih =>
    rw [List.foldl_append]
    rcases byte_kind c with hc | hc | hc
    · exact ih.blank hc
    · exact ih.single hc
    · exact ih.letter hc

end SplitMemory

/-- The stores into `buffer` and `space_buf` are within them. -/
def BuffersInBounds (word : CStr) : Prop :=
  ∀ i, .buffer i ∈ (splitMemory word).stores ∨ .spaceBuf i ∈ (splitMemory word).stores → i < MAX_WORD

theorem buffersInBounds_iff (word : CStr) : BuffersInBounds word ↔ Fits isLetter word := by
  have h := (SplitMemory.traced_foldl word).flushSpaces.lastBuffer
  constructor
  · intro hbounds
    rw [wordsFit_iff]
    intro t ht hletters
    -- the terminator of a word stands at its length
    have hword : isWordToken t = true := isWordToken_iff.mpr ⟨(isRun_of_mem_pieces ht).ne_nil, hletters⟩
    obtain ⟨c, hc⟩ := List.exists_mem_of_ne_nil t (isWordToken_iff.mp hword).1
    have hpart : t ∈ (splitMemory word).st.parts := by
      rw [parts_splitMemory, splitByDelimiters_eq]
      exact List.mem_map.mpr ⟨t, ht, trimmed_of_not_space hc (isSpaceChar_of_isLetter (hletters c hc))⟩
    exact Nat.le_pred_of_lt (hbounds _ (Or.inl (h.words t hpart hword)))
  · intro hfit i hi
    rcases hi with hi | hi
    · rcases h.low i hi with hle | ⟨r, hr, hletters, hle⟩
      · exact Nat.lt_of_le_of_lt hle (by decide)
      · exact Nat.lt_of_le_of_lt (hle.trans (hfit r hr hletters)) (by decide)
    · exact h.spaces i hi

/-- **The buffers are not overrun exactly when every word has room**, whatever the runs of blanks. -/
theorem buffer_in_bounds_iff (word : CStr) :
    (∀ i, .buffer i ∈ (splitMemory word).stores ∨ .spaceBuf i ∈ (splitMemory word).stores → i < MAX_WORD) ↔
      Fits isLetter word :=
  buffersInBounds_iff word

/-- **A word of 128 letters is closed behind the end of its buffer.** -/
theorem long_word_overruns :
    (List.replicate 128 (byte 97)).length < MAX_BUFFER ∧
      ¬∀ i, .buffer i ∈ (splitMemory (List.replicate 128 (byte 97))).stores ∨
        .spaceBuf i ∈ (splitMemory (List.replicate 128 (byte 97))).stores → i < MAX_WORD := by
  have hmem : .buffer 128 ∈ (splitMemory (List.replicate 128 (byte 97))).stores := by decide +kernel
  refine ⟨?_, fun hbounds => absurd (hbounds 128 (Or.inl hmem)) (by decide)⟩
  rw [List.length_replicate]
  decide

/-! ## The parts -/

/-- None of these parts is a word that came when there were `10 * 2 ^ k`. -/
def GrownInTime (ts : List Token) : Prop := ∀ k, ∀ t ∈ ts[10 * 2 ^ k]?, isWordToken t = false

theorem grownInTime_snoc (ts : List Token) (t : Token) :
    GrownInTime (ts ++ [t]) ↔ GrownInTime ts ∧ (isWordToken t = true → ∀ k, ts.length ≠ 10 * 2 ^ k) := by
  constructor
  · intro h
    refine ⟨fun k u hu => h k u ?_, fun hword k hk => ?_⟩
    · have hlt : 10 * 2 ^ k < ts.length := (List.getElem?_eq_some_iff.mp hu).1
      rw [List.getElem?_append_left hlt]
      exact hu
    · have hnot := h k t (by rw [← hk]; exact List.getElem?_concat_length)
      rw [hword] at hnot
      cases hnot
  · rintro ⟨h, hlast⟩ k u hu
    rcases Nat.lt_trichotomy (10 * 2 ^ k) ts.length with hlt | heq | hgt
    · rw [List.getElem?_append_left hlt] at hu
      exact h k u hu
    · rw [heq, List.getElem?_concat_length] at hu
      obtain rfl := Option.some.inj hu
      by_contra hword
      exact hlast (Bool.not_eq_false _ ▸ hword) k heq.symm
    · rw [List.getElem?_eq_none (by rw [List.length_append]; exact hgt)] at hu
      cases hu

namespace SplitMemory

/-- The parts have room, which was only doubled when it was needed, and `parts` has been overrun exactly when one of the
words came at the wrong time. -/
structure Roomy (m : SplitMemory) : Prop where
  one : m.st.spaceBuf = [] ∨ m.st.buffer = []
  letters : ∀ c ∈ m.st.buffer, isLetter c = true
  blanks : ∀ c ∈ m.st.spaceBuf, isSpaceChar c = true
  power : ∃ k, m.cap = 10 * 2 ^ k
  room : m.st.parts.length ≤ m.cap
  needed : m.cap = 10 ∨ m.cap ≤ 2 * m.st.parts.length
  bounds : (∀ i cap, .parts i cap ∈ m.stores → i < cap) ↔ GrownInTime m.st.parts

/-- Between two bytes the room was doubled before the last part, unless blanks are still to be stored. -/
def Snug (m : SplitMemory) : Prop := m.st.spaceBuf = [] → m.cap = 10 ∨ m.cap < 2 * m.st.parts.length

/-- The array is full when there are `10 * 2 ^ k` parts, and only then. -/
theorem Roomy.full_iff {m : SplitMemory} (h : Roomy m) (hsnug : Snug m) (hspaces : m.st.spaceBuf = []) :
    m.st.parts.length < m.cap ↔ ∀ k, m.st.parts.length ≠ 10 * 2 ^ k := by
  obtain ⟨k, hk⟩ := h.power
  have hroom := h.room
  constructor
  · intro hlt j hj
    rcases hsnug hspaces with hten | hfull
    · have hpos : 1 ≤ 2 ^ j := Nat.one_le_two_pow
      omega
    · -- `10 * 2 ^ k` lies below `10 * 2 ^ (j + 1)`
      have hpow : 2 ^ k < 2 ^ (j + 1) := by
        rw [Nat.pow_succ]
        omega
      have hkj : k < j + 1 := (Nat.pow_lt_pow_iff_right (by decide)).mp hpow
      have hle : 2 ^ k ≤ 2 ^ j := Nat.pow_le_pow_right (by decide) (Nat.le_of_lt_succ hkj)
      omega
  · intro hnot
    have hne := hnot k
    omega

theorem bounds_snoc {S S' : List Store} (i cap : Nat)
    (h : ∀ j c, .parts j c ∈ S' ↔ .parts j c ∈ S ∨ j = i ∧ c = cap) :
    (∀ j c, .parts j c ∈ S' → j < c) ↔ (∀ j c, .parts j c ∈ S → j < c) ∧ i < cap := by
  simp only [h]
  constructor
  · intro hall
    exact ⟨fun j c hj => hall j c (Or.inl hj), hall i cap (Or.inr ⟨rfl, rfl⟩)⟩
  · rintro ⟨hall, hlt⟩ j c (hj | ⟨rfl, rfl⟩)
    · exact hall j c hj
    · exact hlt

/-- After the capacity has been looked at there is room for a part. -/
theorem grow_spec {m : SplitMemory} (hpower : ∃ k, m.cap = 10 * 2 ^ k) (hroom : m.st.parts.length ≤ m.cap + 1)
    (hneeded : m.cap = 10 ∨ m.cap ≤ 2 * m.st.parts.length) :
    (∃ k, m.grow.cap = 10 * 2 ^ k) ∧ m.st.parts.length < m.grow.cap ∧
      (m.grow.cap = 10 ∨ m.grow.cap ≤ 2 * m.st.parts.length) := by
  obtain ⟨k, hk⟩ := hpower
  unfold grow
  split
  · rename_i hfull
    have hpos : 1 ≤ 2 ^ k := Nat.one_le_two_pow
    refine ⟨⟨k + 1, ?_⟩, ?_, ?_⟩
    · show m.cap * 2 = 10 * 2 ^ (k + 1)
      rw [hk, Nat.pow_succ, Nat.mul_assoc]
    · show m.st.parts.length < m.cap * 2
      omega
    · show m.cap * 2 = 10 ∨ m.cap * 2 ≤ 2 * m.st.parts.length
      omega
  · rename_i hroom
    exact ⟨⟨k, hk⟩, Nat.lt_of_not_le hroom, hneeded⟩

/-- A store into another array. -/
theorem Roomy.store {m : SplitMemory} (h : Roomy m) {s : Store} (hs : ∀ i cap, s ≠ .parts i cap) :
    Roomy (m.store s) := by
  refine ⟨h.one, h.letters, h.blanks, h.power, h.room, h.needed, ?_⟩
  rw [st_store, ← h.bounds]
  have hsame : ∀ i cap, .parts i cap ∈ (m.store s).stores ↔ .parts i cap ∈ m.stores := by
    intro i cap
    rw [stores_store, List.mem_append, List.mem_singleton, or_iff_left (Ne.symm (hs i cap))]
  simp only [hsame]

/-- A part that is no word is stored after a look at the capacity. -/
theorem Roomy.checked {m : SplitMemory} (h : Roomy m) {st : SplitState} {t : Token}
    (hparts : st.parts = m.st.parts ++ [t]) (ht : isWordToken t = false) (hspaces : st.spaceBuf = [])
    (hletters : st.buffer = m.st.buffer) : Roomy (m.grow.storePart st) ∧ Snug (m.grow.storePart st) := by
  obtain ⟨hpower, hlt, hneeded⟩ := grow_spec h.power (Nat.le_succ_of_le h.room) h.needed
  have hlength : st.parts.length = m.st.parts.length + 1 := by rw [hparts, List.length_append, List.length_singleton]
  refine ⟨⟨Or.inl hspaces, ?_, ?_, hpower, ?_, ?_, ?_⟩, fun _ => ?_⟩
  · rw [st_storePart, hletters]
    exact h.letters
  · rw [st_storePart, hspaces]
    intro c hc
    cases hc
  · rw [st_storePart, hlength]
    exact hlt
  · rw [st_storePart, hlength, cap_storePart]
    omega
  · have hstores : ∀ j c, .parts j c ∈ (m.grow.storePart st).stores ↔
        .parts j c ∈ m.stores ∨ j = m.st.parts.length ∧ c = m.grow.cap := by
      intro j c
      rw [stores_storePart, stores_grow, st_grow, List.mem_append, List.mem_singleton, Store.parts.injEq]
    rw [st_storePart, hparts, grownInTime_snoc, ← h.bounds, bounds_snoc _ _ hstores]
    refine and_congr_right fun _ => iff_of_true hlt fun hword => ?_
    rw [ht] at hword
    cases hword
  · rw [st_storePart, hlength, cap_storePart]
    omega

theorem Roomy.flushSpaces {m : SplitMemory} (h : Roomy m) (hsnug : Snug m) :
    Roomy m.flushSpaces ∧ Snug m.flushSpaces := by
  by_cases hnil : m.st.spaceBuf = []
  · rw [SplitMemory.flushSpaces, if_pos hnil]
    exact ⟨h, hsnug⟩
  · have hst := st_fields_flushSpaces hnil
    have hword : isWordToken m.st.spaceBuf = false := not_word_of_space (isSpaceToken_iff.mpr ⟨hnil, h.blanks⟩)
    rw [SplitMemory.flushSpaces, if_neg hnil]
    refine (h.store (s := .spaceBuf m.st.spaceBuf.length) (by simp)).checked (t := m.st.spaceBuf) ?_ hword ?_ ?_
    · rw [hst]
      rfl
    · rw [hst]
    · rw [hst]
      rfl

/-- A word is stored before the capacity is looked at. -/
theorem Roomy.flushBuffer {m : SplitMemory} (h : Roomy m) (hsnug : Snug m) : Roomy m.flushBuffer := by
  by_cases hnil : m.st.buffer = []
  · rwa [SplitMemory.flushBuffer, if_pos hnil]
  · have hspaces : m.st.spaceBuf = [] := h.one.resolve_right hnil
    have hst := st_fields_flushBuffer hnil
    have hword : isWordToken m.st.buffer = true := isWordToken_iff.mpr ⟨hnil, h.letters⟩
    have hlength : m.st.flushBuffer.parts.length = m.st.parts.length + 1 := by
      rw [hst, List.length_append, List.length_singleton]
    obtain ⟨hpower, hlt, hneeded⟩ :=
      grow_spec (m := (m.store (.buffer m.st.buffer.length)).storePart m.st.flushBuffer) h.power
        (by rw [st_storePart, hlength]; exact Nat.succ_le_succ h.room)
        (by rw [st_storePart, hlength, cap_storePart, cap_store]; have := h.needed; omega)
    rw [SplitMemory.flushBuffer, if_neg hnil]
    rw [st_storePart] at hlt hneeded
    refine ⟨?_, ?_, ?_, hpower, ?_, ?_, ?_⟩
    · rw [st_grow, st_storePart, hst]
      exact Or.inr rfl
    · rw [st_grow, st_storePart, hst]
      intro c hc
      cases hc
    · rw [st_grow, st_storePart, hst]
      exact h.blanks
    · rw [st_grow, st_storePart]
      exact Nat.le_of_lt hlt
    · rw [st_grow, st_storePart]
      exact hneeded
    · have hstores : ∀ j c, .parts j c ∈
          ((m.store (.buffer m.st.buffer.length)).storePart m.st.flushBuffer).grow.stores ↔
            .parts j c ∈ m.stores ∨ j = m.st.parts.length ∧ c = m.cap := by
        intro j c
        rw [stores_grow, stores_storePart, stores_store, List.mem_append, List.mem_append, List.mem_singleton,
          List.mem_singleton, or_iff_left (show Store.parts j c ≠ .buffer m.st.buffer.length by simp), st_store,
          cap_store, Store.parts.injEq]
      rw [bounds_snoc _ _ hstores, st_grow, st_storePart, hst, grownInTime_snoc, ← h.bounds,
        ← h.full_iff hsnug hspaces]
      exact and_congr_right fun _ => ⟨fun hroom _ => hroom, fun hroom => hroom hword⟩

theorem Roomy.step {m : SplitMemory} (h : Roomy m) (hsnug : Snug m) (c : CChar) :
    Roomy (m.splitChar c) ∧ Snug (m.splitChar c) := by
  rcases byte_kind c with hc | hc | hc
  · -- blanks are left to be stored, so the room may have been doubled for the word before them
    have hflush := h.flushBuffer hsnug
    have hnil := buffer_flushBuffer m
    rw [splitChar_blank hc]
    generalize m.flushBuffer = m at hflush hnil ⊢
    split
    · have hstore := hflush.store (s := .spaceBuf m.st.spaceBuf.length) (by simp)
      exact ⟨⟨Or.inr hnil, hstore.letters, Segment.forall_mem_snoc hflush.blanks hc, hstore.power, hstore.room,
        hstore.needed, hstore.bounds⟩, fun hspaces => absurd hspaces (by simp)⟩
    · rename_i hfull
      refine ⟨hflush, fun hspaces => absurd ?_ hfull⟩
      rw [hspaces]
      decide
  · obtain ⟨hspaces, hsnug'⟩ := h.flushSpaces hsnug
    have hflush := hspaces.flushBuffer hsnug'
    have hnone : m.flushSpaces.flushBuffer.st.spaceBuf = [] := by
      rw [st_flushBuffer, st_flushSpaces, SplitState.flushBuffer_spaceBuf, SplitState.flushSpaces_spaceBuf]
    have hword := not_word_of_single hc
    rcases splitChar_single (m := m) hc with hstep | hstep <;> rw [hstep]
    · exact hflush.checked rfl hword hnone rfl
    · have hstore := (hflush.store (s := .buffer 0) (by simp)).store (s := .buffer 1) (by simp)
      exact hstore.checked rfl hword hnone rfl
  · obtain ⟨hflush, hsnug'⟩ := h.flushSpaces hsnug
    have hnone : m.flushSpaces.st.spaceBuf = [] := by
      rw [st_flushSpaces, SplitState.flushSpaces_spaceBuf]
    rw [splitChar_letter hc]
    generalize m.flushSpaces = m at hflush hsnug' hnone ⊢
    have hstore := hflush.store (s := .buffer m.st.buffer.length) (by simp)
    exact ⟨⟨Or.inl hnone, Segment.forall_mem_snoc hflush.letters hc, hstore.blanks, hstore.power, hstore.room,
      hstore.needed, hstore.bounds⟩, hsnug'⟩

/-- The loop over a whole text. -/
theorem roomy_foldl (word : CStr) : Roomy (word.foldl splitChar .init) ∧ Snug (word.foldl splitChar .init) := by
  induction word using List.reverseRecOn with
  | nil =>
    refine ⟨⟨Or.inl rfl, ?_, ?_, ⟨0, rfl⟩, Nat.zero_le _, Or.inl rfl, ?_⟩, fun _ => Or.inl rfl⟩
    · intro c hc
      cases hc
    · intro c hc
      cases hc
    · refine iff_of_true (fun i cap hmem => ?_) fun k t ht => ?_
      · cases hmem
      · cases ht
  | append_singleton l c ih =>
    rw [List.foldl_append]
    exact ih.1.step ih.2 c

/-- The last word is stored after a look at the capacity. -/
theorem Roomy.lastBuffer {m : SplitMemory} (h : Roomy m) :
    (∀ i cap, .parts i cap ∈ m.lastBuffer.stores → i < cap) ↔ GrownInTime m.st.parts := by
  by_cases hnil : m.st.buffer = []
  · rw [SplitMemory.lastBuffer, if_pos hnil]
    exact h.bounds
  · obtain ⟨-, hlt, -⟩ :=
      grow_spec (m := m.store (.buffer m.st.buffer.length)) h.power (Nat.le_succ_of_le h.room) h.needed
    have hstores : ∀ j c, .parts j c ∈ m.lastBuffer.stores ↔
        .parts j c ∈ m.stores ∨ j = m.st.parts.length ∧ c = (m.store (.buffer m.st.buffer.length)).grow.cap := by
      intro j c
      rw [SplitMemory.lastBuffer, if_neg hnil, stores_storePart, stores_grow, stores_store, List.mem_append,
        List.mem_append, List.mem_singleton, List.mem_singleton,
        or_iff_left (show Store.parts j c ≠ .buffer m.st.buffer.length by simp), st_grow, st_store, Store.parts.injEq]
    rw [bounds_snoc _ _ hstores, h.bounds]
    exact and_iff_left hlt

end SplitMemory

theorem grownInTime_trimmed {ts : List Token} (hts : ∀ t ∈ ts, IsRun t) :
    GrownInTime (ts.map trimmed) ↔ GrownInTime ts := by
  refine forall_congr' fun k => ?_
  rw [List.getElem?_map]
  rcases hget : ts[10 * 2 ^ k]? with _ | t
  · simp
  · simp [isWordToken_trimmed (hts t (List.mem_of_getElem? hget))]

/-- The stores into `parts` are within what is allocated for it then. -/
def PartsInBounds (word : CStr) : Prop := ∀ i cap, .parts i cap ∈ (splitMemory word).stores → i < cap

theorem partsInBounds_iff (word : CStr) : PartsInBounds word ↔ GrownInTime (pieces word).dropLast := by
  obtain ⟨hroomy, hsnug⟩ := SplitMemory.roomy_foldl word
  have hpieced := SplitState.pieced_foldl word
  rw [PartsInBounds, splitMemory, (hroomy.flushSpaces hsnug).1.lastBuffer, SplitMemory.st_flushSpaces,
    SplitMemory.st_foldl]
  generalize word.foldl SplitState.splitChar .init = st at hpieced ⊢
  have hrun : ∀ t ∈ pieces word, IsRun t := fun _ => isRun_of_mem_pieces
  by_cases hnil : st.buffer = []
  · -- everything has been stored, and the last piece is no word
    have hflush : st.flushSpaces.flushBuffer = st.flushSpaces := if_pos ((SplitState.flushSpaces_buffer st).trans hnil)
    have hparts := SplitState.parts_flush hpieced.one
    rw [hflush] at hparts
    rw [hparts, hpieced.tokens, grownInTime_trimmed hrun]
    rcases List.eq_nil_or_concat (pieces word) with hpieces | ⟨ps, q, hpieces⟩
    · rw [hpieces]
      rfl
    · rw [List.concat_eq_append] at hpieces
      have hq : q ∈ pieces word := by
        rw [hpieces]
        exact List.mem_append_right ps List.mem_cons_self
      rw [hpieces, List.dropLast_concat, grownInTime_snoc]
      refine and_iff_left fun hword => ?_
      obtain ⟨p, hp⟩ : ∃ p, q.getLast? = some p := ⟨_, List.getLast?_eq_some_getLast (hrun q hq).ne_nil⟩
      have hletter := (isWordToken_iff.mp hword).2 p (List.mem_of_getLast? hp)
      exact absurd hnil ((hpieced.letters p ((Runs.getLast?_of_splitBy hpieces).trans hp)).mpr hletter)
  · -- the last piece is still in the buffer
    obtain ⟨⟨ps, hpieces, hparts⟩, -⟩ := hpieced.pieces_word hnil
    have hspaces : st.flushSpaces = st := if_pos (hpieced.one.resolve_right hnil)
    rw [hspaces, hparts, hpieces, List.dropLast_concat]
    refine grownInTime_trimmed fun t ht => hrun t ?_
    rw [hpieces]
    exact List.mem_append_left _ ht

/-- **`parts` is not overrun exactly when no piece but the last one is a word that comes when there are
`10 * 2 ^ k`.** -/
theorem parts_in_bounds_iff (word : CStr) :
    (∀ i cap, .parts i cap ∈ (splitMemory word).stores → i < cap) ↔ GrownInTime (pieces word).dropLast :=
  partsInBounds_iff word

/-- **Words with blanks between them**: the sixth comes when there are ten parts, and is stored behind them. -/
theorem sixth_word_overruns :
    Fits isLetter (lit "a b c d e f g") ∧
      ¬∀ i cap, .parts i cap ∈ (splitMemory (lit "a b c d e f g")).stores → i < cap := by
  have hmem : .parts 10 10 ∈ (splitMemory (lit "a b c d e f g")).stores := by decide
  refine ⟨fun r hr _ => hr.length_le.trans (by decide), fun hbounds => ?_⟩
  exact absurd (hbounds 10 10 hmem) (Nat.lt_irrefl 10)

/-! ## All arrays -/

/-- Every store of `split_by_delimiters` is within its array. -/
def SplitInBounds (word : CStr) : Prop := BuffersInBounds word ∧ PartsInBounds word

theorem splitInBounds_iff (word : CStr) :
    SplitInBounds word ↔ Fits isLetter word ∧ GrownInTime (pieces word).dropLast :=
  and_congr (buffersInBounds_iff word) (partsInBounds_iff word)

end NetworkFileShare
