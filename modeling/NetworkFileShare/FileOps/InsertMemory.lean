import NetworkFileShare.FileOps.Insert
import NetworkFileShare.Lib.GrowArray

/-!
# The arrays of `insert_word_in_sentence` (`file_ops.c`)

* `ContentMemory` : a `FileContent` with the capacities of its arrays; `parseMemory` : what `parse_file` leaves in
  memory;
* `insertWordMemory` : `insert_word_in_sentence` with every index into `sentences` and into the `words` of a sentence;
* `erase_parseMemory`, `erase_insertWordMemory` : without the capacities these are `parseContent` and
  `insertWordInSentence`;
* `insertion_in_bounds` : no array is overrun.
-/

namespace NetworkFileShare

abbrev SentenceMemory := GrowArray Token

/-- `#define SENTENCE_CAPACITY 10`. -/
abbrev SENTENCE_CAPACITY : Nat := 10

/-- A sentence slot that has just been initialised. -/
def SentenceMemory.init : SentenceMemory := ⟨[], SENTENCE_CAPACITY⟩

/-- The slots of `sentences` in use, what is allocated, and how many of them count. -/
structure ContentMemory where
  sentences : GrowArray SentenceMemory
  sentenceCount : Nat
  deriving DecidableEq

/-- The content without its capacities. -/
def ContentMemory.erase (m : ContentMemory) : FileContent := ⟨m.sentences.items.map GrowArray.items, m.sentenceCount⟩

/-! ## `parse_file` -/

/-- The loop of `parse_file` with the capacities of the sentences and that of `sentences`. -/
structure ParseMemory where
  before : List SentenceMemory
  current : SentenceMemory
  word : CStr
  spaceBuf : CStr
  capacity : Nat
  deriving DecidableEq

namespace ParseMemory

/-- `init_file_content` and the first sentence. -/
def init : ParseMemory := ⟨[], .init, [], [], 10⟩

def erase (m : ParseMemory) : ParseState := ⟨m.before.map GrowArray.items, m.current.items, m.word, m.spaceBuf⟩

def flushWord (m : ParseMemory) : ParseMemory :=
  if m.word = [] then m else { m with current := m.current.push m.word, word := [] }

def flushSpaces (m : ParseMemory) : ParseMemory :=
  if m.spaceBuf = [] then m else { m with current := m.current.push m.spaceBuf, spaceBuf := [] }

def addToken (m : ParseMemory) (t : Token) : ParseMemory := { m with current := m.current.push t }

/-- `current_sent++`: the next sentence, and `sentences` is doubled when the count reaches its capacity. -/
def startSentence (m : ParseMemory) : ParseMemory :=
  let before := m.before ++ [m.current]
  let capacity := if before.length + 1 ≥ m.capacity then m.capacity * 2 else m.capacity
  { m with before := before, current := .init, capacity := capacity }

/-- One byte. -/
def parseChar (m : ParseMemory) (c : CChar) : ParseMemory :=
  if isSpaceChar c then
    let m := m.flushWord
    if m.spaceBuf.length < MAX_WORD - 1 then { m with spaceBuf := m.spaceBuf ++ [c] } else m
  else
    let m := m.flushSpaces
    if c = newline then m.flushWord.addToken [newline]
    else if isDelimiter c then (m.flushWord.addToken [c]).startSentence
    else
      let m := { m with word := m.word ++ [c] }
      if m.word.length ≥ MAX_WORD - 1 then m.flushWord else m

/-- The end of the file. -/
def finish (m : ParseMemory) : ContentMemory :=
  let m := m.flushSpaces.flushWord
  let count := if m.before = [] then 0 else m.before.length + 1
  let count := if 0 < count ∧ m.current.items = [] then count - 1 else count
  let count := if m.current.items ≠ [] then m.before.length + 1 else count
  ⟨⟨(m.before ++ [m.current]).take count, m.capacity⟩, count⟩

end ParseMemory

/-- `parse_file` into what `init_file_content` has made. -/
def parseMemory (text : CStr) : ContentMemory := (text.foldl ParseMemory.parseChar .init).finish

/-- What `write_file_ss` makes of an empty temp file. -/
def emptyMemory : ContentMemory := ⟨⟨[.init], 10⟩, 1⟩

/-! ## `insert_word_in_sentence` -/

/-- The arrays: `fc->sentences`, and `words` of the sentence in a slot. -/
inductive ContentArray where
  | sentences
  | words (i : Nat)
  deriving DecidableEq

abbrev ArrayRun := Traced ContentArray

open Traced

/-- The capacity for one more sentence, when `sentence_count >= capacity`. -/
def ContentMemory.roomForNext (m : ContentMemory) : Nat :=
  let capacity := m.sentences.capacity
  if m.sentenceCount ≥ capacity then
    doubleUntil (m.sentenceCount + 1) (if capacity ≠ 0 then capacity * 2 else 10)
  else capacity

/-- A new empty sentence at the end, for an index just behind the last one. -/
def ContentMemory.openSlot (m : ContentMemory) (sentIdx : Nat) : ArrayRun ContentMemory :=
  if sentIdx = m.sentenceCount then do
    let capacity := m.roomForNext
    touch .sentences capacity [m.sentenceCount]
    -- `sentences[0]` is looked at when it is the only one
    touch .sentences capacity (if m.sentenceCount = 1 then [0] else [])
    return { sentences := ⟨m.sentences.items.take m.sentenceCount ++ [.init], capacity⟩
             sentenceCount := if m.sentenceCount = 1 ∧ m.sentences.items.head?.map GrowArray.items = some [] then
               m.sentenceCount else m.sentenceCount + 1 }
  else return m

/-- The words looked at by the search for the word `target`. -/
def findWordReads (target : Nat) (s : Sentence) : List Nat :=
  let found := (findWord target 0 0 s).2
  List.range (if found = 0 then s.length else found)

/-- `if (new_sentences > 0)`: that many more slots behind `sentIdx`. The sentences there are shifted, and the slots are
initialised. -/
def ContentMemory.makeRoom (m : ContentMemory) (sentIdx created : Nat) : ArrayRun ContentMemory :=
  if created > 0 then do
    let total := m.sentenceCount + created
    let old := m.sentences.capacity
    let capacity := if total > old then doubleUntil total old else old
    let shifted := (List.range' (sentIdx + 1) (m.sentenceCount - 1 - sentIdx)).reverse
    touch .sentences capacity (shifted.flatMap fun i => [i + created, i])
    touch .sentences capacity (List.range' (sentIdx + 1) created)
    let items := m.sentences.items
    return { m with sentences :=
      ⟨items.take (sentIdx + 1) ++ List.replicate created .init ++ items.drop (sentIdx + 1), capacity⟩ }
  else return m

/-- The sentence being filled and the one that takes what follows the cut. -/
structure InsertionMemory where
  cur : SentenceMemory
  next : SentenceMemory
  inNew : Bool
  pos : Nat
  deriving DecidableEq

def InsertionMemory.erase (st : InsertionMemory) : Insertion := ⟨st.cur.items, st.next.items, st.inNew, st.pos⟩

/-- One part of those that are inserted into the sentence in slot `sentIdx`; `rest` parts are still to come. -/
def insertPartMemory (sentIdx capacity : Nat) (split : Bool) (rest : Nat) (st : InsertionMemory) (part : Token) :
    ArrayRun InsertionMemory :=
  if st.inNew then do
    let next ← st.next.insertAt (.words (sentIdx + 1)) st.pos part
    return { st with next := next, pos := st.pos + 1 }
  else do
    let cur ← st.cur.insertAt (.words sentIdx) st.pos part
    let pos := st.pos + 1
    if split then do
      touch .sentences capacity [sentIdx + 1]
      let next := { st.next with capacity := doubleUntil (cur.items.length - pos + rest) st.next.capacity }
      let moved ← cur.moveTail (.words sentIdx) (.words (sentIdx + 1)) pos next
      return { cur := moved.1, next := moved.2, inNew := true, pos := 0 }
    else return { st with cur := cur, pos := pos }

/-- The loop over the parts from `i` on. -/
def insertPartsMemory (sentIdx capacity : Nat) (split : Nat → Bool) :
    (i : Nat) → List Token → InsertionMemory → ArrayRun InsertionMemory
  | _, [], st => return st
  | i, part :: parts, st => do
    let st ← insertPartMemory sentIdx capacity (split i) parts.length st part
    insertPartsMemory sentIdx capacity split (i + 1) parts st

/-- `insert_word_in_sentence` with the indices it uses. -/
def insertWordMemory (m : ContentMemory) (sentIdx wordIdx : Int) (word : CStr) :
    ArrayRun (Option (ContentMemory × Nat)) :=
  if sentIdx < 0 ∨ sentIdx > m.sentenceCount then return none
  else do
    let i := sentIdx.toNat
    let m ← m.openSlot i
    touch .sentences m.sentences.capacity [i]
    let sent := m.sentences.items.getD i .init
    touch (.words i) sent.capacity (List.range sent.items.length)
    if wordIdx < 1 ∨ wordIdx > realWordCount sent.items + 1 then return none
    else do
      touch (.words i) sent.capacity
        (if wordIdx = 1 then [] else findWordReads (wordIdx.toNat - 1) sent.items)
      let parts := splitByDelimiters word
      if parts = [] then return some (m, 0)
      else do
        let created := newSentences parts
        let m ← m.makeRoom i created
        touch .sentences m.sentences.capacity [i]
        -- the sentence is cut only when there are new slots, and the first of them has just been initialised
        let st : InsertionMemory := ⟨sent, .init, false, insertPoint sent.items wordIdx.toNat⟩
        let done ← insertPartsMemory i m.sentences.capacity (shouldSplit parts) 0 parts st
        let items := m.sentences.items.set i done.cur
        let items := if done.inNew then items.set (i + 1) done.next else items
        return some ({ sentences := { m.sentences with items := items }, sentenceCount := m.sentenceCount + created },
          created)

/-! ## Without the capacities -/

namespace ParseMemory

theorem erase_flushWord (m : ParseMemory) : m.flushWord.erase = m.erase.flushWord := by
  unfold flushWord ParseState.flushWord
  by_cases hw : m.word = []
  · rw [if_pos hw, if_pos (show m.erase.word = [] from hw)]
  · rw [if_neg hw, if_neg (show ¬m.erase.word = [] from hw)]
    rfl

theorem erase_flushSpaces (m : ParseMemory) : m.flushSpaces.erase = m.erase.flushSpaces := by
  unfold flushSpaces ParseState.flushSpaces
  by_cases hs : m.spaceBuf = []
  · rw [if_pos hs, if_pos (show m.erase.spaceBuf = [] from hs)]
  · rw [if_neg hs, if_neg (show ¬m.erase.spaceBuf = [] from hs)]
    rfl

theorem erase_startSentence (m : ParseMemory) :
    m.startSentence.erase = { m.erase with before := m.erase.before ++ [m.erase.words], words := [] } := by
  simp [startSentence, erase, SentenceMemory.init]

theorem erase_parseChar (m : ParseMemory) (c : CChar) : (m.parseChar c).erase = m.erase.parseChar c := by
  unfold parseChar ParseState.parseChar
  by_cases hc : isSpaceChar c
  · have hflush := erase_flushWord m
    simp only [if_pos hc, ← hflush]
    generalize m.flushWord = m
    by_cases hroom : m.spaceBuf.length < MAX_WORD - 1
    · rw [if_pos hroom, if_pos (show m.erase.spaceBuf.length < MAX_WORD - 1 from hroom)]
      rfl
    · rw [if_neg hroom, if_neg (show ¬m.erase.spaceBuf.length < MAX_WORD - 1 from hroom)]
  · have hflush := erase_flushSpaces m
    simp only [if_neg hc, ← hflush]
    generalize m.flushSpaces = m
    by_cases hn : c = newline
    · rw [if_pos hn, if_pos hn, ← erase_flushWord]
      rfl
    · rw [if_neg hn, if_neg hn]
      by_cases hd : isDelimiter c
      · rw [if_pos hd, if_pos hd, erase_startSentence, ← erase_flushWord]
        rfl
      · rw [if_neg hd, if_neg hd]
        by_cases hfull : (m.word ++ [c]).length ≥ MAX_WORD - 1
        · rw [if_pos hfull, if_pos (show (m.erase.word ++ [c]).length ≥ MAX_WORD - 1 from hfull), erase_flushWord]
          rfl
        · rw [if_neg hfull, if_neg (show ¬(m.erase.word ++ [c]).length ≥ MAX_WORD - 1 from hfull)]
          rfl

theorem erase_foldl (text : CStr) (m : ParseMemory) :
    (text.foldl parseChar m).erase = text.foldl ParseState.parseChar m.erase := by
  induction text generalizing m with
  | nil => rfl
  | cons c text ih =>
    rw [List.foldl_cons, List.foldl_cons, ih, erase_parseChar]

theorem erase_finish (m : ParseMemory) : m.finish.erase = m.erase.finish := by
  have hflush : m.flushSpaces.flushWord.erase = m.erase.flushSpaces.flushWord := by
    rw [erase_flushWord, erase_flushSpaces]
  unfold finish ParseState.finish
  rw [← hflush]
  generalize m.flushSpaces.flushWord = m
  simp [ContentMemory.erase, erase, List.map_take]

end ParseMemory

/-- **The parser with its capacities** parses as the one without. -/
theorem erase_parseMemory (text : CStr) : (parseMemory text).erase = parseContent text := by
  rw [parseMemory, ParseMemory.erase_finish, ParseMemory.erase_foldl]
  rfl

section
variable (m : ContentMemory) (i : Nat)

theorem erase_openSlot : (m.openSlot i).val.erase = m.erase.openSlot i := by
  unfold ContentMemory.openSlot FileContent.openSlot
  by_cases hi : i = m.sentenceCount
  · rw [if_pos hi, if_pos (show i = m.erase.sentenceCount from hi)]
    simp [ContentMemory.erase, SentenceMemory.init, List.map_take, List.head?_map]
  · rw [if_neg hi, if_neg (show ¬i = m.erase.sentenceCount from hi)]
    rfl

theorem getD_erase : (m.sentences.items.getD i .init).items = m.erase.sentences.getD i [] := by
  rw [List.getD_eq_getElem?_getD, List.getD_eq_getElem?_getD]
  show _ = ((m.sentences.items.map GrowArray.items)[i]?).getD []
  rw [List.getElem?_map]
  cases m.sentences.items[i]? <;> rfl

theorem erase_makeRoom (created : Nat) : (m.makeRoom i created).val.erase =
    ⟨m.erase.sentences.take (i + 1) ++ List.replicate created [] ++ m.erase.sentences.drop (i + 1),
      m.erase.sentenceCount⟩ := by
  unfold ContentMemory.makeRoom
  split
  · refine congrArg (FileContent.mk · m.sentenceCount) ?_
    show (m.sentences.items.take (i + 1) ++ List.replicate created SentenceMemory.init ++
      m.sentences.items.drop (i + 1)).map GrowArray.items = _
    rw [List.map_append, List.map_append, List.map_take, List.map_drop, List.map_replicate]
    rfl
  · rename_i hnone
    rw [Nat.eq_zero_of_not_pos hnone, List.replicate_zero, List.append_nil, List.take_append_drop]
    rfl

end

theorem erase_insertPartMemory (sentIdx capacity : Nat) (split : Bool) (rest : Nat) (st : InsertionMemory)
    (part : Token) :
    (insertPartMemory sentIdx capacity split rest st part).val.erase = insertPart split st.erase part := by
  unfold insertPartMemory insertPart
  by_cases hin : st.inNew
  · rw [if_pos hin, if_pos (show st.erase.inNew = true from hin)]
    simp [InsertionMemory.erase]
  · rw [if_neg hin, if_neg (show ¬st.erase.inNew = true from hin)]
    by_cases hsplit : split <;> simp [hsplit, InsertionMemory.erase, GrowArray.moveTail]

theorem erase_insertPartsMemory (sentIdx capacity : Nat) (split : Nat → Bool) :
    ∀ (parts : List Token) (i : Nat) (st : InsertionMemory),
      (insertPartsMemory sentIdx capacity split i parts st).val.erase = insertParts split i parts st.erase
  | [], _, _ => rfl
  | part :: parts, i, st => by
    rw [insertPartsMemory, insertParts, ← erase_insertPartMemory sentIdx capacity (split i) parts.length st part,
      ← erase_insertPartsMemory sentIdx capacity split parts (i + 1)]
    rfl

/-- **The insertion with its capacities** answers as the one without. -/
theorem erase_insertWordMemory (m : ContentMemory) (sentIdx wordIdx : Int) (word : CStr) :
    (insertWordMemory m sentIdx wordIdx word).val.map (fun r => (r.1.erase, r.2)) =
      insertWordInSentence m.erase sentIdx wordIdx word := by
  unfold insertWordMemory insertWordInSentence
  by_cases hrange : sentIdx < 0 ∨ sentIdx > m.sentenceCount
  · rw [if_pos hrange, if_pos (show sentIdx < 0 ∨ sentIdx > m.erase.sentenceCount from hrange)]
    rfl
  rw [if_neg hrange, if_neg (show ¬(sentIdx < 0 ∨ sentIdx > m.erase.sentenceCount) from hrange)]
  simp only [val_bind, ← erase_openSlot, ← getD_erase]
  generalize sentIdx.toNat = i
  generalize (m.openSlot i).val = m
  generalize m.sentences.items.getD i .init = sent
  by_cases hword : wordIdx < 1 ∨ wordIdx > realWordCount sent.items + 1
  · rw [if_pos hword, if_pos hword]
    rfl
  rw [if_neg hword, if_neg hword]
  simp only [val_bind]
  by_cases hparts : splitByDelimiters word = []
  · rw [if_pos hparts, if_pos hparts]
    rfl
  rw [if_neg hparts, if_neg hparts]
  generalize splitByDelimiters word = parts
  have hslots := erase_makeRoom m i (newSentences parts)
  simp only [val_bind, val_pure, Option.map_some]
  generalize (m.makeRoom i (newSentences parts)).val = m' at hslots ⊢
  obtain ⟨hsentences, hcount⟩ := FileContent.mk.inj hslots
  have hdone : (insertPartsMemory i m'.sentences.capacity (shouldSplit parts) 0 parts
      ⟨sent, .init, false, insertPoint sent.items wordIdx.toNat⟩).val.erase =
      insertParts (shouldSplit parts) 0 parts ⟨sent.items, [], false, insertPoint sent.items wordIdx.toNat⟩ :=
    erase_insertPartsMemory i _ _ parts 0 _
  rw [← hsentences, ← hdone]
  generalize (insertPartsMemory i m'.sentences.capacity (shouldSplit parts) 0 parts
    ⟨sent, .init, false, insertPoint sent.items wordIdx.toNat⟩).val = done
  by_cases hin : done.inNew = true
  · rw [if_pos hin, if_pos (show done.erase.inNew = true from hin)]
    simp only [ContentMemory.erase, List.map_set] at hcount ⊢
    rw [hcount]
    rfl
  · rw [if_neg hin, if_neg (show ¬done.erase.inNew = true from hin)]
    simp only [ContentMemory.erase, List.map_set] at hcount ⊢
    rw [hcount]
    rfl

/-! ## What is allocated -/

/-- The slots in use are allocated and count, and so are the words of each of them. -/
structure ContentMemory.Ok (m : ContentMemory) : Prop where
  sentences : m.sentences.Ok
  slots : ∀ s ∈ m.sentences.items, s.Ok
  count : m.sentenceCount = m.sentences.items.length

theorem SentenceMemory.init_ok : SentenceMemory.init.Ok := ⟨by decide, by decide⟩

namespace ParseMemory

/-- There is room for the sentences so far, and for their words. -/
structure Ok (m : ParseMemory) : Prop where
  before : ∀ s ∈ m.before, s.Ok
  current : m.current.Ok
  room : m.before.length < m.capacity

theorem Ok.init : ParseMemory.init.Ok where
  before _ hs := by cases hs
  current := SentenceMemory.init_ok
  room := by decide

theorem Ok.flushWord {m : ParseMemory} (h : m.Ok) : m.flushWord.Ok := by
  unfold ParseMemory.flushWord
  split
  · exact h
  · exact ⟨h.before, h.current.push _, h.room⟩

theorem Ok.flushSpaces {m : ParseMemory} (h : m.Ok) : m.flushSpaces.Ok := by
  unfold ParseMemory.flushSpaces
  split
  · exact h
  · exact ⟨h.before, h.current.push _, h.room⟩

theorem Ok.addToken {m : ParseMemory} (h : m.Ok) (t : Token) : (m.addToken t).Ok :=
  ⟨h.before, h.current.push _, h.room⟩

/-- A sentence more, and the array is doubled in time. -/
theorem Ok.startSentence {m : ParseMemory} (h : m.Ok) : m.startSentence.Ok := by
  refine ⟨Segment.forall_mem_snoc h.before h.current, SentenceMemory.init_ok, ?_⟩
  have hroom := h.room
  have hlength : (m.before ++ [m.current]).length = m.before.length + 1 := List.length_append
  show (m.before ++ [m.current]).length <
    if (m.before ++ [m.current]).length + 1 ≥ m.capacity then m.capacity * 2 else m.capacity
  split <;> omega

theorem Ok.parseChar {m : ParseMemory} (h : m.Ok) (c : CChar) : (m.parseChar c).Ok := by
  unfold ParseMemory.parseChar
  split
  · have hflush := h.flushWord
    simp only
    split
    · exact ⟨hflush.before, hflush.current, hflush.room⟩
    · exact hflush
  · have hflush := h.flushSpaces
    simp only
    split
    · exact hflush.flushWord.addToken _
    · split
      · exact (hflush.flushWord.addToken _).startSentence
      · have hletter : ({ m.flushSpaces with word := m.flushSpaces.word ++ [c] } : ParseMemory).Ok :=
          ⟨hflush.before, hflush.current, hflush.room⟩
        split
        · exact hletter.flushWord
        · exact hletter

theorem Ok.foldl {m : ParseMemory} (h : m.Ok) (text : CStr) : (text.foldl ParseMemory.parseChar m).Ok := by
  induction text generalizing m with
  | nil => exact h
  | cons c text ih => exact ih (h.parseChar c)

theorem Ok.finish {m : ParseMemory} (h : m.Ok) : m.finish.Ok := by
  have hflush := h.flushSpaces.flushWord
  unfold ParseMemory.finish
  generalize m.flushSpaces.flushWord = m at hflush
  have hroom := hflush.room
  have hall : ∀ s ∈ m.before ++ [m.current], s.Ok := Segment.forall_mem_snoc hflush.before hflush.current
  have hlength : (m.before ++ [m.current]).length = m.before.length + 1 := List.length_append
  have hcount : (if m.current.items ≠ [] then m.before.length + 1 else
      if 0 < (if m.before = [] then 0 else m.before.length + 1) ∧ m.current.items = [] then
        (if m.before = [] then 0 else m.before.length + 1) - 1
      else if m.before = [] then 0 else m.before.length + 1) ≤ m.before.length + 1 := by
    split_ifs <;> omega
  refine ⟨⟨Nat.zero_lt_of_lt hroom, ?_⟩, fun s hs => hall s (List.mem_of_mem_take hs), ?_⟩
  · show (List.take _ (m.before ++ [m.current])).length ≤ m.capacity
    rw [List.length_take]
    omega
  · show _ = (List.take _ (m.before ++ [m.current])).length
    rw [List.length_take, hlength, Nat.min_eq_left hcount]

end ParseMemory

theorem parseMemory_ok (text : CStr) : (parseMemory text).Ok := (ParseMemory.Ok.init.foldl text).finish

theorem emptyMemory_ok : emptyMemory.Ok where
  sentences := ⟨by decide, by decide⟩
  slots s hs := by
    rw [List.mem_singleton.mp hs]
    exact SentenceMemory.init_ok
  count := rfl

/-! ## The insertion is safe -/

section
variable {m : ContentMemory} {i : Nat}

theorem lt_roomForNext (h : m.Ok) : m.sentenceCount < m.roomForNext := by
  have hpos := h.sentences.pos
  unfold ContentMemory.roomForNext
  simp only
  rw [if_pos (Nat.pos_iff_ne_zero.mp hpos)]
  split
  · exact (le_doubleUntil (Nat.mul_pos hpos (by decide))).1
  · omega

/-- The slot of the index is there, and it counts unless the content was one empty sentence. -/
theorem safe_openSlot (h : m.Ok) (hi : i ≤ m.sentenceCount) (hspecial : ¬(m.erase.sentences = [[]] ∧ i = 1)) :
    (m.openSlot i).Safe fun m' => m'.Ok ∧ i < m'.sentenceCount := by
  have hroom := lt_roomForNext h
  unfold ContentMemory.openSlot
  split
  · rename_i hlast
    have hcounts : ¬(m.sentenceCount = 1 ∧ m.sentences.items.head?.map GrowArray.items = some []) := by
      rintro ⟨hone, hempty⟩
      refine hspecial ⟨?_, hlast.trans hone⟩
      obtain ⟨s, hs⟩ := List.length_eq_one_iff.mp (h.count.symm.trans hone)
      rw [hs] at hempty
      show m.sentences.items.map GrowArray.items = [[]]
      rw [hs]
      exact congrArg (· :: []) (Option.some.inj hempty)
    have hitems : (m.sentences.items.take m.sentenceCount ++ [SentenceMemory.init]).length = m.sentenceCount + 1 := by
      rw [h.count, List.take_length, List.length_append, List.length_singleton]
    simp only [if_neg hcounts]
    refine .touch_then (fun j hj => ?_) (.touch_then (fun j hj => ?_) (.pure ⟨⟨⟨?_, ?_⟩, ?_, ?_⟩, ?_⟩))
    · rw [List.mem_singleton.mp hj]
      exact hroom
    · split at hj
      · rw [List.mem_singleton.mp hj]
        exact Nat.zero_lt_of_lt hroom
      · cases hj
    · exact Nat.zero_lt_of_lt hroom
    · exact hitems.trans_le hroom
    · exact Segment.forall_mem_snoc (fun s hs => h.slots s (List.mem_of_mem_take hs)) SentenceMemory.init_ok
    · exact hitems.symm
    · exact Nat.lt_succ_of_le hi
  · rename_i hlast
    exact .pure ⟨h, Nat.lt_of_le_of_ne hi hlast⟩

/-- The slots behind the sentence: there is room for all of them. -/
theorem safe_makeRoom (h : m.Ok) (hi : i < m.sentenceCount) (created : Nat) :
    (m.makeRoom i created).Safe fun m' => i + created < m'.sentences.capacity := by
  have hpos := h.sentences.pos
  have hfits := h.sentences.fits
  have hcount := h.count
  unfold ContentMemory.makeRoom
  split
  · have hroom : m.sentenceCount + created ≤
        if m.sentenceCount + created > m.sentences.capacity then
          doubleUntil (m.sentenceCount + created) m.sentences.capacity else m.sentences.capacity := by
      split
      · exact (le_doubleUntil hpos).1
      · omega
    refine .touch_then (fun j hj => ?_) (.touch_then (fun j hj => ?_) (.pure ?_))
    · obtain ⟨k, hk, hj⟩ := List.mem_flatMap.mp hj
      rw [List.mem_reverse, List.mem_range'_1] at hk
      simp only [List.mem_cons, List.not_mem_nil, or_false] at hj
      omega
    · rw [List.mem_range'_1] at hj
      omega
    · exact (Nat.add_lt_add_right hi created).trans_le hroom
  · exact .pure (by omega)

end

/-- There is room for the words, and what follows the cut is still in the old sentence before it. -/
structure InsertionMemory.Ok (st : InsertionMemory) : Prop where
  cur : st.cur.Ok
  next : st.next.Ok
  pos : st.pos ≤ if st.inNew then st.next.items.length else st.cur.items.length
  empty : st.inNew = false → st.next.items = []

theorem safe_insertPart {sentIdx capacity rest : Nat} {split : Bool} {st : InsertionMemory} (h : st.Ok)
    (hslot : split = true → sentIdx + 1 < capacity) (part : Token) :
    (insertPartMemory sentIdx capacity split rest st part).Safe InsertionMemory.Ok := by
  obtain ⟨hcur, hnext, hpos, hempty⟩ := h
  unfold insertPartMemory
  by_cases hin : st.inNew
  · rw [if_pos hin] at hpos ⊢
    refine .bind (GrowArray.safe_insertAt _ hnext hpos part) ?_
    rintro next ⟨hok, hlength⟩
    refine .pure ⟨hcur, hok, ?_, fun hout => absurd (hin.symm.trans hout) (by decide)⟩
    show _ ≤ if st.inNew then next.items.length else st.cur.items.length
    rw [if_pos hin, hlength]
    exact Nat.succ_le_succ hpos
  · rw [if_neg hin] at hpos ⊢
    refine .bind (GrowArray.safe_insertAt _ hcur hpos part) ?_
    rintro cur ⟨hok, hlength⟩
    have hnone : st.next.items = [] := hempty (by simpa using hin)
    by_cases hsplit : split
    · -- the words behind the cut fit into the next sentence with the parts still to come
      simp only [if_pos hsplit]
      have hroom := le_doubleUntil (n := cur.items.length - (st.pos + 1) + rest) hnext.pos
      have hgrown : (⟨st.next.items, doubleUntil (cur.items.length - (st.pos + 1) + rest) st.next.capacity⟩ :
          SentenceMemory).Ok := ⟨hnext.pos.trans_le hroom.2, hnext.fits.trans hroom.2⟩
      refine .touch_then (fun j hj => ?_) (.bind (GrowArray.safe_moveTail _ _ hok hgrown ?_) ?_)
      · rw [List.mem_singleton.mp hj]
        exact hslot hsplit
      · show st.next.items.length + _ ≤ doubleUntil _ _
        rw [hnone, List.length_nil]
        omega
      · rintro moved ⟨hcur', hnext'⟩
        exact .pure ⟨hcur', hnext', Nat.zero_le _, fun hout => by cases hout⟩
    · rw [if_neg hsplit]
      refine .pure ⟨hok, hnext, ?_, hempty⟩
      show _ ≤ if st.inNew then st.next.items.length else cur.items.length
      rw [if_neg hin, hlength]
      exact Nat.succ_le_succ hpos

theorem safe_insertParts {sentIdx capacity : Nat} {split : Nat → Bool}
    (hslot : ∀ i, split i = true → sentIdx + 1 < capacity) :
    ∀ (parts : List Token) (i : Nat) {st : InsertionMemory}, st.Ok →
      (insertPartsMemory sentIdx capacity split i parts st).Safe InsertionMemory.Ok
  | [], _, _, h => .pure h
  | part :: parts, i, _, h =>
    .bind (safe_insertPart h (hslot i) part) fun _ hst => safe_insertParts hslot parts (i + 1) hst

/-- The text is cut only when there is a slot for what follows. -/
theorem newSentences_pos {parts : List Token} {i : Nat} (h : shouldSplit parts i = true) : 0 < newSentences parts := by
  rw [shouldSplit, Bool.and_eq_true, decide_eq_true_eq, decide_eq_true_eq] at h
  rw [newSentences, h.1]
  simp only [Option.any_some, decide_eq_true_eq, if_pos h.2]
  omega

/-- **An insertion into a content whose arrays are allocated** uses no index that is not. -/
theorem safe_insertWord {m : ContentMemory} (h : m.Ok) {sentIdx : Int}
    (hspecial : ¬(m.erase.sentences = [[]] ∧ sentIdx = 1)) (wordIdx : Int) (word : CStr) :
    (insertWordMemory m sentIdx wordIdx word).Safe fun _ => True := by
  unfold insertWordMemory
  split
  · exact .pure trivial
  rename_i hrange
  push Not at hrange
  obtain ⟨i, rfl⟩ : ∃ i : Nat, sentIdx = i := ⟨sentIdx.toNat, by omega⟩
  simp only [Int.toNat_natCast]
  refine .bind (safe_openSlot (i := i) h (by omega) fun ⟨he, hone⟩ => hspecial ⟨he, by omega⟩) ?_
  rintro m ⟨hm, hi⟩
  have hlt : i < m.sentences.items.length := hm.count ▸ hi
  have hsent : (m.sentences.items.getD i .init).Ok := by
    rw [List.getD_eq_getElem _ _ hlt]
    exact hm.slots _ (List.getElem_mem hlt)
  generalize m.sentences.items.getD i .init = sent at hsent
  refine .touch_then (fun j hj => ?_) (.touch_then (fun j hj => ?_) ?_)
  · rw [List.mem_singleton.mp hj]
    exact hlt.trans_le hm.sentences.fits
  · exact (List.mem_range.mp hj).trans_le hsent.fits
  split
  · exact .pure trivial
  refine .touch_then (fun j hj => ?_) ?_
  · split at hj
    · cases hj
    · have hle := findWord_le (wordIdx.toNat - 1) sent.items 0 0
      have hj := List.mem_range.mp hj
      have hfits := hsent.fits
      split at hj <;> omega
  split
  · exact .pure trivial
  refine .bind (safe_makeRoom hm hi _) fun m' hroom => .touch_then (fun j hj => ?_) ?_
  · rw [List.mem_singleton.mp hj]
    omega
  · have hstart : InsertionMemory.Ok ⟨sent, .init, false, insertPoint sent.items wordIdx.toNat⟩ :=
      ⟨hsent, SentenceMemory.init_ok, insertPoint_le _ _, fun _ => rfl⟩
    refine .bind (safe_insertParts (fun j hj => ?_) _ 0 hstart) fun _ _ => .pure trivial
    have hpos := newSentences_pos hj
    omega

/-- **An insertion into a file that has been read**, at any index, or into the one empty sentence of an empty file,
uses no index behind an array. -/
theorem insertion_in_bounds (wordIdx : Int) (word : CStr) :
    (∀ (text : CStr) (sentIdx : Int), InBounds (insertWordMemory (parseMemory text) sentIdx wordIdx word).log) ∧
      InBounds (insertWordMemory emptyMemory 0 wordIdx word).log := by
  constructor
  · intro text sentIdx
    refine (safe_insertWord (parseMemory_ok text) ?_ wordIdx word).inBounds
    rintro ⟨hempty, -⟩
    have hshaped := parseContent_shaped text
    rw [← erase_parseMemory, hempty] at hshaped
    exact hshaped.ne_nil List.mem_cons_self rfl
  · exact (safe_insertWord emptyMemory_ok (fun h => absurd h.2 (by decide)) wordIdx word).inBounds

/-- The index behind the one empty sentence would not be safe: its slot does not count. -/
example : ¬InBounds (insertWordMemory emptyMemory 1 1 (lit ".........")).log := by decide

end NetworkFileShare
