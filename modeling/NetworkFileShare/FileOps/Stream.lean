import NetworkFileShare.FileOps.Write
import NetworkFileShare.Message
import Mathlib.Data.List.Chain

/-!
# Streaming a file (`ss.c`: `stream_file_ss`, `client.c`: `handle_stream`)

A storage server sends a file token by token, each with a flag that asks for a blank after it.

* `streamFileSs`, `answerStream` : the messages of a stream; `handleStream` : what a client prints of them;
* `Agree` : two neighbouring bytes between which the blanks of the stream are those of the file;
* `stream_shows_iff` : a stream shows what `write_file_content` would write exactly when any two neighbouring bytes
  of the file agree: its only white space is a newline or a run of blanks in front of a delimiter or of the end.
-/

namespace NetworkFileShare

abbrev MSG_STOP : Int32 := 20

/-! ## `stream_file_ss` -/

/-- `needs_space`, of the token `curr` before `next`, in a sentence that others follow or not. -/
def streamSpace (more : Bool) (curr : Token) (next : Option Token) : Bool :=
  match next with
  | some next => !startsWithDelimiter curr && !startsWithDelimiter next
  | none => more

/-- The message of token `j` of sentence `i`. -/
def tokenMessage (i j : Nat) (curr : Token) (needsSpace : Bool) : Message :=
  { initMessage with
    type := MSG_DATA
    status := if needsSpace then 1 else 0
    data := .strncpy (MAX_BUFFER - 1) curr
    sentenceIndex := Int32.ofNat i
    wordIndex := Int32.ofNat j }

/-- The inner loop, from token `j` on. -/
def streamWords (more : Bool) (i : Nat) : Nat → Sentence → List Message
  | _, [] => []
  | j, curr :: ts => tokenMessage i j curr (streamSpace more curr ts.head?) :: streamWords more i (j + 1) ts

/-- The outer loop, from sentence `i` on. -/
def streamSentences : Nat → List Sentence → List Message
  | _, [] => []
  | i, s :: X => streamWords (!X.isEmpty) i 0 s ++ streamSentences (i + 1) X

/-- `stream_file_ss` on a connection that stays up: the messages sent and the value returned. The last message keeps
the data of the one before. -/
def streamFileSs (file : Option CStr) : List Message × Int32 :=
  match file with
  | none => ([], ERR_FILE_NOT_FOUND)
  | some text =>
    let fc := parseContent text
    let sent := streamSentences 0 (fc.sentences.take fc.sentenceCount)
    (sent ++ [{ sent.getLast?.getD initMessage with type := MSG_STOP, status := SUCCESS }], SUCCESS)

/-- The case `MSG_STREAM` of `handle_client_request`: an acknowledgement, and the stream. -/
def answerStream (file : Option CStr) : List Message :=
  { initMessage with status := SUCCESS } :: (streamFileSs file).1

/-! ## `handle_stream` -/

/-- The loop of `handle_stream` over the messages that arrive before the connection breaks. -/
def receiveStream : List Message → CStr
  | [] => lit "Stream interrupted\n"
  | resp :: msgs =>
    if resp.type = MSG_STOP then []
    else if resp.type ≠ MSG_DATA then receiveStream msgs
    else resp.data.str ++ (if resp.status = 1 then [space] else []) ++ receiveStream msgs

/-- What `handle_stream` prints. -/
def handleStream (msgs : List Message) : CStr := receiveStream msgs ++ [newline]

/-- The messages as they arrive. -/
def overWire (msgs : List Message) : List Message := msgs.map fun m => deserializeMessage (serializeMessage m)

/-! ## The text that is shown -/

/-- The tokens of a sentence with the blanks of the stream. -/
def shownSentence (more : Bool) : Sentence → CStr
  | [] => []
  | t :: ts => t ++ (if streamSpace more t ts.head? then [space] else []) ++ shownSentence more ts

/-- The sentences with the blanks of the stream. -/
def shown : List Sentence → CStr
  | [] => []
  | s :: X => shownSentence (!X.isEmpty) s ++ shown X

/-- A message that names nobody. -/
def Message.Unnamed (m : Message) : Prop := m.NamesBarFree ∧ m.targetPath.str = []

theorem unnamed_init : initMessage.Unnamed := ⟨by decide, rfl⟩

theorem unnamed_token (i j : Nat) (t : Token) (b : Bool) : (tokenMessage i j t b).Unnamed := unnamed_init

/-- Such a message arrives as it was sent. -/
theorem Message.Unnamed.arrives {m : Message} (h : m.Unnamed) : deserializeMessage (serializeMessage m) = m := by
  apply (round_trip_iff m h.1).mpr
  rw [h.2]
  exact Nat.zero_le _

theorem unnamed_words {more : Bool} {i j : Nat} {s : Sentence} {m : Message} (h : m ∈ streamWords more i j s) :
    m.Unnamed := by
  induction s generalizing j with
  | nil => cases h
  | cons t ts ih =>
    rcases List.mem_cons.mp h with rfl | h
    · exact unnamed_token i j t _
    · exact ih h

theorem unnamed_sentences {i : Nat} {X : List Sentence} {m : Message} (h : m ∈ streamSentences i X) : m.Unnamed := by
  induction X generalizing i with
  | nil => cases h
  | cons s X ih =>
    rcases List.mem_append.mp h with h | h
    · exact unnamed_words h
    · exact ih h

theorem receiveStream_token {i j : Nat} {t : Token} {b : Bool} (ht : t.length < MAX_BUFFER) (msgs : List Message) :
    receiveStream (tokenMessage i j t b :: msgs) = t ++ (if b then [space] else []) ++ receiveStream msgs := by
  have hdata : (tokenMessage i j t b).data.str = t := List.take_of_length_le (by omega)
  have hstatus : (tokenMessage i j t b).status = 1 ↔ b = true := by
    show (if b = true then (1 : Int32) else 0) = 1 ↔ b = true
    split
    · exact iff_of_true rfl ‹_›
    · exact iff_of_false (by decide) ‹_›
  show (if MSG_DATA = MSG_STOP then [] else if MSG_DATA ≠ MSG_DATA then receiveStream msgs else
    (tokenMessage i j t b).data.str ++ (if (tokenMessage i j t b).status = 1 then [space] else [])
      ++ receiveStream msgs) = _
  rw [if_neg (by decide), if_neg (by decide), hdata]
  simp only [hstatus]

theorem receiveStream_words {more : Bool} {i : Nat} {s : Sentence} (hs : ∀ t ∈ s, t.length < MAX_BUFFER)
    (j : Nat) (msgs : List Message) : receiveStream (overWire (streamWords more i j s) ++ msgs) =
      shownSentence more s ++ receiveStream msgs := by
  induction s generalizing j with
  | nil => rfl
  | cons t ts ih =>
    have htail := ih (fun u hu => hs u (List.mem_cons_of_mem t hu)) (j + 1)
    show receiveStream (deserializeMessage (serializeMessage _) ::
      (overWire (streamWords more i (j + 1) ts) ++ msgs)) = _
    rw [(unnamed_token i j t _).arrives, receiveStream_token (hs t List.mem_cons_self), htail, shownSentence]
    simp only [List.append_assoc]

theorem receiveStream_sentences {X : List Sentence} (hX : ∀ s ∈ X, ∀ t ∈ s, t.length < MAX_BUFFER) (i : Nat)
    (msgs : List Message) : receiveStream (overWire (streamSentences i X) ++ msgs) = shown X ++ receiveStream msgs := by
  induction X generalizing i with
  | nil => rfl
  | cons s X ih =>
    have htail := ih (fun u hu => hX u (List.mem_cons_of_mem s hu)) (i + 1)
    have hsplit : overWire (streamSentences i (s :: X)) =
        overWire (streamWords (!X.isEmpty) i 0 s) ++ overWire (streamSentences (i + 1) X) := List.map_append
    rw [hsplit, List.append_assoc, receiveStream_words (hX s List.mem_cons_self), htail, shown, List.append_assoc]

theorem receiveStream_stop {m : Message} (h : m.Unnamed) :
    receiveStream (overWire [{ m with type := MSG_STOP, status := SUCCESS }]) = [] := by
  have hstop : ({ m with type := MSG_STOP, status := SUCCESS } : Message).Unnamed := h
  show receiveStream [deserializeMessage (serializeMessage { m with type := MSG_STOP, status := SUCCESS })] = []
  rw [hstop.arrives]
  exact if_pos rfl

/-- An acknowledgement is not printed. -/
theorem receiveStream_ack (msgs : List Message) :
    receiveStream (overWire ({ initMessage with status := SUCCESS } :: msgs)) = receiveStream (overWire msgs) := by
  have hack : ({ initMessage with status := SUCCESS } : Message).Unnamed := unnamed_init
  show receiveStream (deserializeMessage (serializeMessage { initMessage with status := SUCCESS }) :: overWire msgs) = _
  rw [hack.arrives]
  rfl

/-- **What a client prints**: the tokens with the blanks of the stream. -/
theorem handleStream_answerStream {text : CStr}
    (htext : ∀ s ∈ (parseContent text).sentences, ∀ t ∈ s, t.length < MAX_BUFFER) :
    handleStream (overWire (answerStream (some text))) = shown (parseContent text).sentences ++ [newline] := by
  have hall : (parseContent text).sentences.take (parseContent text).sentenceCount = (parseContent text).sentences := by
    rw [sentenceCount_parseContent, List.take_length]
  have hlast : ∀ i X, ((streamSentences i X).getLast?.getD initMessage).Unnamed := by
    intro i X
    rcases hlast : (streamSentences i X).getLast? with _ | m
    · exact unnamed_init
    · exact unnamed_sentences (List.mem_of_getLast? hlast)
  have hwire : ∀ msgs msgs' : List Message, overWire (msgs ++ msgs') = overWire msgs ++ overWire msgs' :=
    fun _ _ => List.map_append
  unfold handleStream answerStream
  rw [receiveStream_ack]
  unfold streamFileSs
  simp only [hall]
  rw [hwire, receiveStream_sentences htext, receiveStream_stop (hlast 0 _), List.append_nil]

/-! ## Blanks of the stream and of the file -/

/-- Two neighbouring tokens between which the blanks of the stream are those of the file. -/
def AgreeToken (t t' : Token) : Prop :=
  shouldSkipForIndexing t' = false ∧ (shouldSkipForIndexing t = true → startsWithDelimiter t' = true)

theorem startsWithDelimiter_plain {t : Token} (h : PlainToken t) : startsWithDelimiter t = false := by
  rcases t with _ | ⟨c, cs⟩
  · rfl
  · show isDelimiter c = false
    exact h.2 c List.mem_cons_self

/-- White space holds no delimiter. -/
theorem not_skip_of_delimiter {t : Token} (h : startsWithDelimiter t = true) : shouldSkipForIndexing t = false := by
  rcases t with _ | ⟨c, cs⟩
  · cases h
  · have hc : isDelimiter c = true := h
    have hblank : isBlank c = false := by simpa using not_isBlank_of_isDelimiter hc
    have hspace : isSpaceChar c = false := by
      by_contra hne
      rw [isBlank_of_isSpaceChar (by simpa using hne)] at hblank
      cases hblank
    have hnewline : c ≠ newline := by
      rintro rfl
      exact absurd hc (by decide)
    simp [shouldSkipForIndexing, isSpaceToken, isNewlineToken, hspace, hnewline]

/-- In front of a word the file has no more blanks than the stream, and as many exactly when the two agree. -/
theorem streamSpace_iff {t : Token} (ht : startsWithDelimiter t = false) (t' : Token) (more : Bool) :
    (needsSpace t t' = true → streamSpace more t (some t') = true) ∧
      (streamSpace more t (some t') = needsSpace t t' ↔ AgreeToken t t') := by
  have hdelimiter := not_skip_of_delimiter (t := t')
  rw [show streamSpace more t (some t') = (!startsWithDelimiter t && !startsWithDelimiter t') from rfl]
  unfold needsSpace AgreeToken
  unfold shouldSkipForIndexing at hdelimiter ⊢
  generalize isSpaceToken t = a at *
  generalize isSpaceToken t' = b at *
  generalize isNewlineToken t = c at *
  generalize isNewlineToken t' = d at *
  generalize startsWithDelimiter t' = e at *
  rw [ht]
  revert hdelimiter
  revert a b c d e
  decide

theorem length_append_mono {a a' b b' : CStr} (ha : a'.length ≤ a.length) (hb : b'.length ≤ b.length) :
    (a' ++ b').length ≤ (a ++ b).length := by
  rw [List.length_append, List.length_append]
  exact Nat.add_le_add ha hb

/-- Two joins of parts that are no shorter on the left are equal part by part. -/
theorem append_eq_iff {a a' b b' : CStr} (ha : a'.length ≤ a.length) (hb : b'.length ≤ b.length) :
    a ++ b = a' ++ b' ↔ a = a' ∧ b = b' := by
  constructor
  · intro h
    have hlength := congrArg List.length h
    rw [List.length_append, List.length_append] at hlength
    exact List.append_inj h (by omega)
  · rintro ⟨rfl, rfl⟩
    rfl

/-- The blanks inside a sentence. -/
theorem shownSentence_iff {s : Sentence} (hplain : ∀ t ∈ s.dropLast, PlainToken t) :
    (renderSentence s).length ≤ (shownSentence false s).length ∧
      (shownSentence false s = renderSentence s ↔ s.IsChain AgreeToken) := by
  induction s with
  | nil => exact ⟨Nat.le_refl _, iff_of_true rfl .nil⟩
  | cons t ts ih =>
    rcases ts with _ | ⟨t', ts⟩
    · have hone : shownSentence false [t] = renderSentence [t] := by
        show t ++ [] ++ [] = t
        rw [List.append_nil, List.append_nil]
      rw [hone]
      exact ⟨Nat.le_refl _, iff_of_true rfl (.singleton t)⟩
    · rw [List.dropLast_cons_cons] at hplain
      obtain ⟨hle, hiff⟩ := ih fun u hu => hplain u (List.mem_cons_of_mem t hu)
      obtain ⟨himp, hspace⟩ := streamSpace_iff
        (startsWithDelimiter_plain (hplain t List.mem_cons_self)) t' false
      have hgap : (if needsSpace t t' then [space] else []).length ≤
          (if streamSpace false t (some t') then [space] else []).length := by
        by_cases hneeds : needsSpace t t' = true
        · rw [if_pos hneeds, if_pos (himp hneeds)]
        · rw [if_neg hneeds]
          exact Nat.zero_le _
      have hsame : ((if streamSpace false t (some t') then [space] else []) =
          if needsSpace t t' then [space] else []) ↔ AgreeToken t t' := by
        rw [← hspace]
        generalize streamSpace false t (some t') = a
        generalize needsSpace t t' = b
        revert a b
        decide
      rw [show shownSentence false (t :: t' :: ts) = t ++ (if streamSpace false t (some t') then [space] else []) ++
        shownSentence false (t' :: ts) from rfl, renderSentence]
      rw [List.append_assoc, List.append_assoc, List.append_cancel_left_eq, append_eq_iff hgap hle, hsame, hiff,
        List.isChain_cons_cons]
      exact ⟨length_append_mono (Nat.le_refl _) (length_append_mono hgap hle), Iff.rfl⟩

theorem shownSentence_more {s : Sentence} (hs : s ≠ []) : shownSentence true s = shownSentence false s ++ [space] := by
  induction s with
  | nil => exact absurd rfl hs
  | cons t ts ih =>
    rcases ts with _ | ⟨t', ts⟩
    · show t ++ [space] ++ [] = t ++ [] ++ [] ++ [space]
      rw [List.append_nil, List.append_nil, List.append_nil]
    · show t ++ _ ++ shownSentence true (t' :: ts) = t ++ _ ++ shownSentence false (t' :: ts) ++ [space]
      rw [ih (List.cons_ne_nil t' ts), List.append_assoc _ _ [space]]
      rfl

/-- A blank is written after a sentence, unless the next one starts with white space. -/
theorem sentenceGap_closed {ts : Sentence} {c : CChar} (hc : isDelimiter c = true) (t' : Token) (ts' : Sentence) :
    sentenceGap (ts ++ [[c]]) (t' :: ts') = if shouldSkipForIndexing t' = false then [space] else [] := by
  have hlast : shouldSkipForIndexing [c] = false := not_skip_of_delimiter (t := [c]) hc
  unfold sentenceGap
  rw [List.getLast?_concat]
  show (if (!isNewlineToken [c] && !isSpaceToken [c]) = true then
    if (!isSpaceToken t' && !isNewlineToken t') = true then [space] else [] else []) = _
  unfold shouldSkipForIndexing at hlast ⊢
  rw [Bool.or_eq_false_iff] at hlast
  rw [hlast.1, hlast.2]
  generalize isSpaceToken t' = a
  generalize isNewlineToken t' = b
  revert a b
  decide

/-- The blank between two sentences. -/
theorem sentenceGap_iff {s s' : Sentence} (hs : ClosedSentence s) (hs' : s' ≠ []) :
    (sentenceGap s s').length ≤ 1 ∧
      ([space] = sentenceGap s s' ↔ ∀ t ∈ s.getLast?, ∀ t' ∈ s'.head?, AgreeToken t t') := by
  obtain ⟨ts, c, rfl, hc, -⟩ := hs
  obtain ⟨t', ts', rfl⟩ := List.exists_cons_of_ne_nil hs'
  have hlast : shouldSkipForIndexing [c] = false := not_skip_of_delimiter (t := [c]) hc
  have hagree : (∀ t ∈ (ts ++ [[c]]).getLast?, ∀ t'' ∈ (t' :: ts').head?, AgreeToken t t'') ↔
      shouldSkipForIndexing t' = false := by
    rw [List.getLast?_concat]
    constructor
    · intro h
      exact (h [c] rfl t' rfl).1
    · rintro h t ht t'' ht''
      obtain rfl := Option.some.inj ht
      obtain rfl := Option.some.inj ht''
      refine ⟨h, fun hskip => ?_⟩
      rw [hlast] at hskip
      cases hskip
  rw [sentenceGap_closed hc, hagree]
  split
  · exact ⟨Nat.le_refl _, iff_of_true rfl ‹_›⟩
  · exact ⟨Nat.zero_le _, iff_of_false (List.cons_ne_nil _ _) ‹_›⟩

/-- Only the last token of a sentence may be a delimiter. -/
theorem Shaped.plain {X : List Sentence} (h : Shaped X) {s : Sentence} (hs : s ∈ X) :
    ∀ t ∈ s.dropLast, PlainToken t := by
  intro t ht
  rcases h.each s hs with ⟨ts, c, rfl, -, hts⟩ | ho
  · rw [List.dropLast_concat] at ht
    exact hts t ht
  · exact ho.2 t (List.dropLast_subset s ht)

/-- **A stream shows the sentences exactly when their tokens agree.** -/
theorem shown_iff {X : List Sentence} (hX : Shaped X) :
    (render X).length ≤ (shown X).length ∧ (shown X = render X ↔ X.flatten.IsChain AgreeToken) := by
  induction X with
  | nil => exact ⟨Nat.le_refl _, iff_of_true rfl .nil⟩
  | cons s X ih =>
    obtain ⟨hlength, hsentence⟩ := shownSentence_iff (hX.plain List.mem_cons_self)
    rcases X with _ | ⟨s', X⟩
    · show (renderSentence s).length ≤ (shownSentence false s ++ []).length ∧
        (shownSentence false s ++ [] = renderSentence s ↔ (s ++ []).IsChain AgreeToken)
      rw [List.append_nil, List.append_nil]
      exact ⟨hlength, hsentence⟩
    · obtain ⟨hrest, hiff⟩ := ih hX.tail
      have hs : ClosedSentence s := hX.closed s (by simp)
      have hs' : s' ≠ [] := hX.tail.ne_nil List.mem_cons_self
      obtain ⟨hone, hgap⟩ := sentenceGap_iff hs hs'
      have hhead : (s' :: X).flatten.head? = s'.head? := by
        rw [List.flatten_cons]
        exact List.head?_append_of_ne_nil _ hs'
      rw [show shown (s :: s' :: X) = shownSentence true s ++ shown (s' :: X) from rfl,
        shownSentence_more (hX.ne_nil List.mem_cons_self), render]
      have hfront : (renderSentence s ++ sentenceGap s s').length ≤ (shownSentence false s ++ [space]).length :=
        length_append_mono hlength hone
      refine ⟨?_, ?_⟩
      · exact length_append_mono hfront hrest
      · rw [append_eq_iff hfront hrest, append_eq_iff hlength hone, hsentence, hgap, hiff,
          show (s :: s' :: X).flatten = s ++ (s' :: X).flatten from List.flatten_cons, List.isChain_append, hhead]
        exact ⟨fun h => ⟨h.1.1, h.2, h.1.2⟩, fun h => ⟨⟨h.1, h.2.2⟩, h.2.1⟩⟩

/-! ## Neighbouring bytes -/

/-- Two neighbouring bytes of a file that its stream shows side by side: both in a run of blanks, or neither white
space, or white space and the delimiter after it. -/
def Agree (p c : CChar) : Prop :=
  (isSpaceChar p = true ∧ isSpaceChar c = true) ∨
    (isBlank c = false ∧ (isBlank p = true → isDelimiter c = true))

instance (p c : CChar) : Decidable (Agree p c) := inferInstanceAs (Decidable (_ ∨ _))

/-- The token `t` is of the kind of the byte `c`. -/
structure EndsIn (t : Token) (c : CChar) : Prop where
  skip : shouldSkipForIndexing t = isBlank c
  delimiter : startsWithDelimiter t = isDelimiter c

theorem endsIn_singleton (c : CChar) : EndsIn [c] c := by
  refine ⟨?_, rfl⟩
  show (([c] : Token) ≠ [] && [c].all isSpaceChar || decide (([c] : Token) = [newline])) =
    (isSpaceChar c || decide (c = newline))
  simp

theorem endsIn_blanks {t : Token} (hne : t ≠ []) (ht : ∀ d ∈ t, isSpaceChar d = true) {c : CChar}
    (hc : isSpaceChar c = true) : EndsIn t c := by
  have hblank := isBlank_of_isSpaceChar hc
  constructor
  · have htoken : isSpaceToken t = true := by
      rw [isSpaceToken, Bool.and_eq_true, decide_eq_true_eq, List.all_eq_true]
      exact ⟨hne, ht⟩
    rw [hblank, shouldSkipForIndexing, htoken, Bool.true_or]
  · rw [startsWithDelimiter_plain (ParseState.plainToken_of_blanks hne ht), not_isDelimiter_of_isBlank hblank]

theorem endsIn_letters {t : Token} (hne : t ≠ []) (ht : ∀ d ∈ t, isBlank d = false ∧ isDelimiter d = false) {c : CChar}
    (hblank : isBlank c = false) (hdelimiter : isDelimiter c = false) : EndsIn t c := by
  constructor
  · obtain ⟨d, ds, rfl⟩ := List.exists_cons_of_ne_nil hne
    have hd := (ht d List.mem_cons_self).1
    rw [isBlank, Bool.or_eq_false_iff, decide_eq_false_iff_not] at hd
    rw [hblank]
    simp [shouldSkipForIndexing, isSpaceToken, isNewlineToken, hd.1, hd.2]
  · rw [startsWithDelimiter_plain (ParseState.plainToken_of_letters hne ht), hdelimiter]

/-- A blank goes on with a run of blanks. -/
theorem goesOn_blank {p c : CChar} (hp : isSpaceChar p = true) (hc : isSpaceChar c = true) :
    Agree p c ∧ isBlank p = isBlank c ∧ isDelimiter p = isDelimiter c := by
  have hpblank := isBlank_of_isSpaceChar hp
  have hcblank := isBlank_of_isSpaceChar hc
  rw [hpblank, hcblank, not_isDelimiter_of_isBlank hpblank, not_isDelimiter_of_isBlank hcblank]
  exact ⟨Or.inl ⟨hp, hc⟩, rfl, rfl⟩

/-- A letter goes on with a word. -/
theorem goesOn_letter {t : Token} (hne : t ≠ []) (ht : ∀ d ∈ t, isBlank d = false ∧ isDelimiter d = false) {p c : CChar}
    (hends : EndsIn t p) (hblank : isBlank c = false) (hdelimiter : isDelimiter c = false) :
    Agree p c ∧ isBlank p = isBlank c ∧ isDelimiter p = isDelimiter c := by
  have hkind := endsIn_letters hne ht hblank hdelimiter
  have hpblank : isBlank p = isBlank c := by rw [← hends.skip, hkind.skip]
  have hpdelimiter : isDelimiter p = isDelimiter c := by rw [← hends.delimiter, hkind.delimiter]
  refine ⟨Or.inr ⟨hblank, fun h => ?_⟩, hpblank, hpdelimiter⟩
  rw [hpblank, hblank] at h
  cases h

namespace ParseState

/-- The tokens read so far. -/
def tokens (st : ParseState) : List Token :=
  st.before.flatten ++ st.words ++ (if st.spaceBuf = [] then [] else [st.spaceBuf]) ++
    if st.word = [] then [] else [st.word]

theorem tokens_flushSpaces {st : ParseState} (h : st.spaceBuf = [] ∨ st.word = []) :
    st.flushSpaces.tokens = st.tokens := by
  unfold flushSpaces
  split
  · rfl
  · rename_i hne
    have hword : st.word = [] := h.resolve_left hne
    simp [tokens, hword, hne]

theorem tokens_flushWord {st : ParseState} (h : st.spaceBuf = []) : st.flushWord.tokens = st.tokens := by
  unfold flushWord
  split
  · rfl
  · rename_i hne
    simp [tokens, h, hne]

theorem flushSpaces_word (st : ParseState) : st.flushSpaces.word = st.word := by
  unfold flushSpaces
  split <;> rfl

/-! What one byte does to the tokens. -/

/-- A blank starts a run. -/
theorem parseChar_firstBlank {st : ParseState} {c : CChar} (hc : isSpaceChar c = true) (hbuf : st.spaceBuf = []) :
    (st.parseChar c).tokens = st.tokens ++ [[c]] ∧ (st.parseChar c).spaceBuf = [c] ∧ (st.parseChar c).word = [] := by
  have hbuf' : st.flushWord.spaceBuf = [] := by rw [flushWord_spaceBuf, hbuf]
  have hstate : st.parseChar c = { st.flushWord with spaceBuf := [c] } := by
    unfold parseChar
    simp only [hc, if_true, hbuf', List.nil_append]
    exact if_pos (show 0 < 127 by decide)
  rw [hstate, ← tokens_flushWord hbuf]
  refine ⟨?_, rfl, flushWord_word st⟩
  simp [tokens, hbuf', flushWord_word]

/-- A blank goes on with a run that has room. -/
theorem parseChar_nextBlank {st : ParseState} {c : CChar} (hc : isSpaceChar c = true) (hword : st.word = [])
    (hroom : st.spaceBuf.length < MAX_WORD - 1) :
    st.parseChar c = { st with spaceBuf := st.spaceBuf ++ [c] } := by
  have hflush : st.flushWord = st := if_pos hword
  unfold parseChar
  simp only [hc, if_true, hflush, if_pos hroom]

/-- A blank for which the buffer has no room is dropped. -/
theorem parseChar_fullBlank {st : ParseState} {c : CChar} (hc : isSpaceChar c = true) (hword : st.word = [])
    (hfull : ¬st.spaceBuf.length < MAX_WORD - 1) : st.parseChar c = st := by
  have hflush : st.flushWord = st := if_pos hword
  unfold parseChar
  simp only [hc, if_true, hflush, if_neg hfull]

/-- A newline or a delimiter is a token of its own. -/
theorem parseChar_single {st : ParseState} {c : CChar} (hc : isSpaceChar c = false)
    (hsingle : c = NetworkFileShare.newline ∨ isDelimiter c = true) (hone : st.spaceBuf = [] ∨ st.word = []) :
    (st.parseChar c).tokens = st.tokens ++ [[c]] ∧ (st.parseChar c).spaceBuf = [] ∧ (st.parseChar c).word = [] := by
  have htokens : st.flushSpaces.flushWord.tokens = st.tokens := by
    rw [tokens_flushWord (flushSpaces_spaceBuf st), tokens_flushSpaces hone]
  have hspaces : st.flushSpaces.flushWord.spaceBuf = [] := by rw [flushWord_spaceBuf, flushSpaces_spaceBuf]
  have hletters : st.flushSpaces.flushWord.word = [] := flushWord_word st.flushSpaces
  rw [← htokens]
  unfold parseChar addToken
  simp only [hc, Bool.false_eq_true, if_false]
  by_cases hn : c = NetworkFileShare.newline
  · rw [if_pos hn]
    refine ⟨?_, hspaces, hletters⟩
    simp [tokens, hspaces, hletters, hn]
  · rw [if_neg hn, if_pos (hsingle.resolve_left hn)]
    refine ⟨?_, hspaces, hletters⟩
    simp [tokens, hspaces, hletters]

/-- Any other byte goes to the word. -/
theorem parseChar_letter {st : ParseState} {c : CChar} (hb : isBlank c = false) (hd : isDelimiter c = false) :
    (st.parseChar c).tokens = ({ st.flushSpaces with word := st.word ++ [c] } : ParseState).tokens ∧
      (st.parseChar c).spaceBuf = [] ∧
      (st.parseChar c).word = if (st.word ++ [c]).length ≥ MAX_WORD - 1 then [] else st.word ++ [c] := by
  have hkind := hb
  rw [isBlank, Bool.or_eq_false_iff, decide_eq_false_iff_not] at hkind
  have hspaces := flushSpaces_spaceBuf st
  have hword := flushSpaces_word st
  unfold parseChar
  simp only [hkind.1, hkind.2, hd, Bool.false_eq_true, if_false, hword]
  split
  · refine ⟨tokens_flushWord ?_, ?_, flushWord_word _⟩
    · exact hspaces
    · rw [flushWord_spaceBuf]
      exact hspaces
  · exact ⟨rfl, hspaces, rfl⟩

/-- The tokens after the bytes `l`: how the last one ends, and that neighbours agree among the bytes as they do among
the tokens. -/
structure Tokenized (l : CStr) (st : ParseState) : Prop where
  one : st.spaceBuf = [] ∨ st.word = []
  first : l = [] → st.tokens = []
  last : ∀ p ∈ l.getLast?, ∃ t ∈ st.tokens.getLast?, EndsIn t p
  blanks : ∀ p ∈ l.getLast?, st.spaceBuf ≠ [] ↔ isSpaceChar p = true
  chain : l.IsChain Agree ↔ st.tokens.IsChain AgreeToken
  fits : ∀ t ∈ st.tokens, t.length < MAX_WORD
  room : st.word.length < MAX_WORD - 1

theorem isChain_snoc {α : Type} {R : α → α → Prop} (l : List α) (c : α) :
    (l ++ [c]).IsChain R ↔ l.IsChain R ∧ ∀ p ∈ l.getLast?, R p c := by
  rw [List.isChain_append]
  constructor
  · rintro ⟨hl, -, hlast⟩
    exact ⟨hl, fun p hp => hlast p hp c rfl⟩
  · rintro ⟨hl, hlast⟩
    refine ⟨hl, .singleton c, fun p hp d hd => ?_⟩
    obtain rfl := Option.some.inj hd
    exact hlast p hp

theorem eq_of_getLast?_snoc {α : Type} {l : List α} {c d : α} (h : d ∈ (l ++ [c]).getLast?) : d = c := by
  rw [List.getLast?_concat] at h
  exact (Option.some.inj h).symm

/-- A byte that starts a token. -/
theorem Tokenized.append {l : CStr} {st st' : ParseState} (h : Tokenized l st) {c : CChar} {t : Token}
    (htokens : st'.tokens = st.tokens ++ [t]) (hends : EndsIn t c) (hfits : t.length < MAX_WORD)
    (hnew : st.spaceBuf ≠ [] → isSpaceChar c = false) (hone : st'.spaceBuf = [] ∨ st'.word = [])
    (hblanks : st'.spaceBuf ≠ [] ↔ isSpaceChar c = true) (hroom : st'.word.length < MAX_WORD - 1) :
    Tokenized (l ++ [c]) st' := by
  refine ⟨hone, fun hnil => absurd hnil (by simp), ?_, ?_, ?_, ?_, hroom⟩
  · intro d hd
    rw [eq_of_getLast?_snoc hd, htokens, List.getLast?_concat]
    exact ⟨t, rfl, hends⟩
  · intro d hd
    rw [eq_of_getLast?_snoc hd]
    exact hblanks
  · rw [htokens, isChain_snoc, isChain_snoc, h.chain]
    refine and_congr_right fun _ => ?_
    have hagree : ∀ p u, (st.spaceBuf ≠ [] ↔ isSpaceChar p = true) → EndsIn u p → (Agree p c ↔ AgreeToken u t) := by
      intro p u hp hu
      have hnot : ¬(isSpaceChar p = true ∧ isSpaceChar c = true) := by
        rintro ⟨hpspace, hcspace⟩
        rw [hnew (hp.mpr hpspace)] at hcspace
        cases hcspace
      rw [Agree, AgreeToken, hends.skip, hends.delimiter, hu.skip, or_iff_right hnot]
    constructor
    · intro hall u hu
      have hne : l ≠ [] := by
        intro hnil
        rw [h.first hnil] at hu
        cases hu
      obtain ⟨p, hp⟩ : ∃ p, l.getLast? = some p := ⟨_, List.getLast?_eq_some_getLast hne⟩
      obtain ⟨u', hu', hends'⟩ := h.last p hp
      obtain rfl := Option.mem_unique hu hu'
      exact (hagree p u (h.blanks p hp) hends').mp (hall p hp)
    · intro hall p hp
      obtain ⟨u, hu, hends'⟩ := h.last p hp
      exact (hagree p u (h.blanks p hp) hends').mpr (hall u hu)
  · intro u hu
    rw [htokens] at hu
    exact Segment.forall_mem_snoc h.fits hfits u hu

/-- A byte that goes on with the last token. -/
theorem Tokenized.extend {l : CStr} {st st' : ParseState} (h : Tokenized l st) {c : CChar} {ts : List Token}
    {t t' : Token} (htokens : st.tokens = ts ++ [t]) (htokens' : st'.tokens = ts ++ [t']) (hends : EndsIn t' c)
    (hsame : ∀ p, EndsIn t p → (st.spaceBuf ≠ [] ↔ isSpaceChar p = true) →
      Agree p c ∧ isBlank p = isBlank c ∧ isDelimiter p = isDelimiter c)
    (hfits : t'.length < MAX_WORD) (hone : st'.spaceBuf = [] ∨ st'.word = [])
    (hblanks : st'.spaceBuf ≠ [] ↔ isSpaceChar c = true) (hroom : st'.word.length < MAX_WORD - 1) :
    Tokenized (l ++ [c]) st' := by
  have hne : l ≠ [] := by
    intro hnil
    rw [h.first hnil] at htokens
    exact absurd htokens.symm (by simp)
  obtain ⟨p, hp⟩ : ∃ p, l.getLast? = some p := ⟨_, List.getLast?_eq_some_getLast hne⟩
  obtain ⟨u, hu, hpends⟩ := h.last p hp
  rw [htokens, List.getLast?_concat] at hu
  obtain rfl := Option.some.inj hu
  obtain ⟨hagree, hblank, hdelimiter⟩ := hsame p hpends (h.blanks p hp)
  have hskip : shouldSkipForIndexing t' = shouldSkipForIndexing t := by rw [hends.skip, hpends.skip, hblank]
  have hstarts : startsWithDelimiter t' = startsWithDelimiter t := by
    rw [hends.delimiter, hpends.delimiter, hdelimiter]
  refine ⟨hone, fun hnil => absurd hnil (by simp), ?_, ?_, ?_, ?_, hroom⟩
  · intro d hd
    rw [eq_of_getLast?_snoc hd, htokens', List.getLast?_concat]
    exact ⟨t', rfl, hends⟩
  · intro d hd
    rw [eq_of_getLast?_snoc hd]
    exact hblanks
  · have hlast : ∀ q ∈ l.getLast?, Agree q c := by
      intro q hq
      obtain rfl := Option.mem_unique hp hq
      exact hagree
    have htoken : ∀ v, AgreeToken v t' ↔ AgreeToken v t := fun v => by
      rw [AgreeToken, AgreeToken, hskip, hstarts]
    rw [isChain_snoc, and_iff_left hlast, h.chain, htokens, htokens', isChain_snoc, isChain_snoc]
    simp only [htoken]
  · intro v hv
    rw [htokens'] at hv
    rcases List.mem_append.mp hv with hv | hv
    · exact h.fits v (by rw [htokens]; exact List.mem_append_left _ hv)
    · rw [List.mem_singleton.mp hv]
      exact hfits

theorem Tokenized.blank {l : CStr} {st : ParseState} (h : Tokenized l st) (hp : Parsed l st) {c : CChar}
    (hc : isSpaceChar c = true) : Tokenized (l ++ [c]) (st.parseChar c) := by
  by_cases hbuf : st.spaceBuf = []
  · obtain ⟨htokens, hspaces, hword⟩ := parseChar_firstBlank hc hbuf
    refine h.append htokens (endsIn_singleton c) (show 1 < MAX_WORD by decide) (absurd hbuf) (Or.inr hword)
      (iff_of_true ?_ hc) ?_
    · rw [hspaces]
      exact List.cons_ne_nil c []
    · rw [hword]
      decide
  · have hword : st.word = [] := h.one.resolve_left hbuf
    have hblanks : ∀ p, EndsIn st.spaceBuf p → (st.spaceBuf ≠ [] ↔ isSpaceChar p = true) →
        Agree p c ∧ isBlank p = isBlank c ∧ isDelimiter p = isDelimiter c :=
      fun p _ hspace => goesOn_blank (hspace.mp hbuf) hc
    have htokens : st.tokens = st.before.flatten ++ st.words ++ [st.spaceBuf] := by
      simp [tokens, hbuf, hword]
    by_cases hroom : st.spaceBuf.length < MAX_WORD - 1
    · rw [parseChar_nextBlank hc hword hroom]
      refine h.extend htokens ?_ (endsIn_blanks (t := st.spaceBuf ++ [c]) (by simp) ?_ hc) hblanks ?_ (Or.inr hword)
        (iff_of_true (by simp) hc) h.room
      · simp [tokens, hword]
      · exact Segment.forall_mem_snoc hp.blanks hc
      · rw [List.length_append]
        show st.spaceBuf.length + 1 < MAX_WORD
        omega
    · rw [parseChar_fullBlank hc hword hroom]
      refine h.extend htokens htokens (endsIn_blanks hbuf hp.blanks hc) hblanks (h.fits _ ?_) h.one
        (iff_of_true hbuf hc) h.room
      rw [htokens]
      simp

/-- What is left of the buffers before another token. -/
theorem Tokenized.flush {l : CStr} {st : ParseState} (h : Tokenized l st) :
    st.flushSpaces.flushWord.tokens = st.tokens ∧ st.flushSpaces.flushWord.spaceBuf = [] ∧
      st.flushSpaces.flushWord.word = [] := by
  refine ⟨?_, ?_, flushWord_word _⟩
  · rw [tokens_flushWord (flushSpaces_spaceBuf st), tokens_flushSpaces h.one]
  · rw [flushWord_spaceBuf, flushSpaces_spaceBuf]

theorem Tokenized.single {l : CStr} {st : ParseState} (h : Tokenized l st) {c : CChar} (hs : isSpaceChar c = false)
    (hc : c = NetworkFileShare.newline ∨ isDelimiter c = true) : Tokenized (l ++ [c]) (st.parseChar c) := by
  obtain ⟨htokens, hspaces, hword⟩ := parseChar_single hs hc h.one
  refine h.append htokens (endsIn_singleton c) (show 1 < MAX_WORD by decide) (fun _ => hs) (Or.inl hspaces) ?_ ?_
  · rw [hs]
    exact iff_of_false (not_not.mpr hspaces) Bool.false_ne_true
  · rw [hword]
    decide

theorem Tokenized.letter {l : CStr} {st : ParseState} (h : Tokenized l st) (hp : Parsed l st) {c : CChar}
    (hb : isBlank c = false) (hd : isDelimiter c = false) : Tokenized (l ++ [c]) (st.parseChar c) := by
  obtain ⟨htokens, hspaces, hletters⟩ := @parseChar_letter st _ hb hd
  have hs : isSpaceChar c = false := by
    rw [isBlank, Bool.or_eq_false_iff] at hb
    exact hb.1
  have hnone : (st.parseChar c).spaceBuf ≠ [] ↔ isSpaceChar c = true := by
    rw [hs]
    exact iff_of_false (not_not.mpr hspaces) Bool.false_ne_true
  have hroom : (st.parseChar c).word.length < MAX_WORD - 1 := by
    rw [hletters]
    split
    · decide
    · exact Nat.lt_of_not_le ‹_›
  by_cases hword : st.word = []
  · refine h.append ?_ (endsIn_singleton c) (show 1 < MAX_WORD by decide) (fun _ => hs) (Or.inl hspaces) hnone hroom
    rw [htokens, ← tokens_flushSpaces h.one]
    simp [tokens, flushSpaces_spaceBuf, flushSpaces_word, hword]
  · have hbuf : st.spaceBuf = [] := h.one.resolve_right hword
    have hflush : st.flushSpaces = st := if_pos hbuf
    have hall : ∀ d ∈ st.word ++ [c], isBlank d = false ∧ isDelimiter d = false :=
      Segment.forall_mem_snoc hp.letters ⟨hb, hd⟩
    have hlast : st.tokens = st.before.flatten ++ st.words ++ [st.word] := by
      simp [tokens, hbuf, hword]
    rw [hflush] at htokens
    refine h.extend hlast ?_ (endsIn_letters (t := st.word ++ [c]) (by simp) hall hb hd)
      (fun p hends _ => goesOn_letter hword hp.letters hends hb hd) ?_ (Or.inl hspaces) hnone hroom
    · rw [htokens]
      simp [tokens, hbuf]
    · rw [List.length_append]
      have := h.room
      show st.word.length + 1 < MAX_WORD
      omega

theorem Tokenized.step {l : CStr} {st : ParseState} (h : Tokenized l st) (hp : Parsed l st) (c : CChar) :
    Tokenized (l ++ [c]) (st.parseChar c) := by
  by_cases hs : isSpaceChar c = true
  · exact h.blank hp hs
  · rw [Bool.not_eq_true] at hs
    by_cases hsingle : c = NetworkFileShare.newline ∨ isDelimiter c = true
    · exact h.single hs hsingle
    · rw [not_or, Bool.not_eq_true] at hsingle
      exact h.letter hp (by simp [isBlank, hs, hsingle.1]) hsingle.2

/-- The loop over a whole text. -/
theorem tokenized_foldl (text : CStr) : Tokenized text (text.foldl parseChar .init) := by
  induction text using List.reverseRecOn with
  | nil =>
    refine ⟨Or.inl rfl, fun _ => rfl, ?_, ?_, iff_of_true .nil .nil, ?_, show 0 < 127 by decide⟩
    · intro p hp
      cases hp
    · intro p hp
      cases hp
    · intro t ht
      cases ht
  | append_singleton l c ih =>
    rw [List.foldl_append]
    exact ih.step (parsed_foldl l) c

end ParseState

/-- The tokens of a parsed file are those of the loop. -/
theorem flatten_parseContent (text : CStr) :
    (parseContent text).sentences.flatten = (text.foldl ParseState.parseChar .init).tokens := by
  obtain ⟨hflush, hspaces, hletters⟩ := (ParseState.tokenized_foldl text).flush
  rw [parseContent, ParseState.finish_eq, ← hflush]
  dsimp only
  split
  · rename_i hwords
    simp [ParseState.tokens, hspaces, hletters, hwords]
  · simp [ParseState.tokens, hspaces, hletters]

/-- **A stream shows what the server would write exactly when neighbouring bytes agree.** -/
theorem stream_shows_iff (text : CStr) :
    handleStream (overWire (answerStream (some text))) = (parseContent text).text ++ [newline] ↔
      text.IsChain Agree := by
  have htokens := ParseState.tokenized_foldl text
  have hfits : ∀ s ∈ (parseContent text).sentences, ∀ t ∈ s, t.length < MAX_BUFFER := by
    intro s hs t ht
    have hmem : t ∈ (parseContent text).sentences.flatten := List.mem_flatten.mpr ⟨s, hs, ht⟩
    rw [flatten_parseContent] at hmem
    exact (htokens.fits t hmem).trans (by decide)
  have htext : (parseContent text).text = render (parseContent text).sentences := by
    rw [FileContent.text, sentenceCount_parseContent, List.take_length]
  rw [handleStream_answerStream hfits, htext, List.append_cancel_right_eq,
    (shown_iff (parseContent_shaped text)).2, flatten_parseContent, htokens.chain]

/-- **A blank between two words is shown three times.** -/
theorem stream_adds_blanks : ∃ text : CStr, text = lit "a b" ∧
    handleStream (overWire (answerStream (some text))) = lit "a   b\n" ∧
    (parseContent text).text ++ [newline] = lit "a b\n" :=
  ⟨lit "a b", rfl, by decide, by decide⟩

end NetworkFileShare
