import NetworkFileShare.Common
import Mathlib.Data.List.Basic

/-!
# Messages on the wire (`common.c`)

* `Message` : the fields of the C structure, every string as what its array holds;
* `serializeMessage` : fifteen fields joined by `|`; `deserializeMessage` : the field loop, with the
  length passed to each `strncpy`;
* `deserialize_serialize` : what comes back when no name holds a `|` (every field but `targetPath`,
  which is cut to the length of a file name);
* `round_trip_iff` : the message comes back unchanged exactly when `targetPath` fits a file name.
-/

namespace NetworkFileShare

structure Message where
  type : Int32
  status : Int32
  sender : CArray MAX_USERNAME
  filename : CArray MAX_FILENAME
  foldername : CArray MAX_FILENAME
  checkpointTag : CArray MAX_USERNAME
  targetPath : CArray MAX_PATH
  data : CArray MAX_BUFFER
  sentenceIndex : Int32
  wordIndex : Int32
  ssId : Int32
  clientPort : Int32
  nmPort : Int32
  access : Int32
  targetUser : CArray MAX_USERNAME
  deriving DecidableEq

/-! ## Types -/

abbrev MSG_REG_SS : Int32 := 0
abbrev MSG_REG_CLIENT : Int32 := 1
abbrev MSG_CREATE : Int32 := 2
abbrev MSG_READ : Int32 := 3
abbrev MSG_WRITE : Int32 := 4
abbrev MSG_DELETE : Int32 := 5
abbrev MSG_INFO : Int32 := 6
abbrev MSG_VIEW : Int32 := 7
abbrev MSG_LIST : Int32 := 8
abbrev MSG_ADDACCESS : Int32 := 9
abbrev MSG_REMACCESS : Int32 := 10
abbrev MSG_STREAM : Int32 := 11
abbrev MSG_EXEC : Int32 := 12
abbrev MSG_UNDO : Int32 := 13
abbrev MSG_ACK : Int32 := 16
abbrev MSG_DATA : Int32 := 18
abbrev MSG_CHECK_LOCKS : Int32 := 21
abbrev MSG_CREATEFOLDER : Int32 := 22
abbrev MSG_MOVE : Int32 := 23
abbrev MSG_VIEWFOLDER : Int32 := 24
abbrev MSG_CHECKPOINT : Int32 := 25
abbrev MSG_VIEWCHECKPOINT : Int32 := 26
abbrev MSG_REVERT : Int32 := 27
abbrev MSG_LISTCHECKPOINTS : Int32 := 28
abbrev MSG_REQUESTACCESS : Int32 := 29
abbrev MSG_VIEWREQUESTS : Int32 := 30
abbrev MSG_APPROVEREQUEST : Int32 := 31
abbrev MSG_DENYREQUEST : Int32 := 32
abbrev MSG_SS_INFO : Int32 := 33

/-- `init_message`: everything zero but the acknowledgement and the `-1` defaults. -/
def initMessage : Message where
  type := MSG_ACK
  status := SUCCESS
  sender := .empty _
  filename := .empty _
  foldername := .empty _
  checkpointTag := .empty _
  targetPath := .empty _
  data := .empty _
  sentenceIndex := -1
  wordIndex := -1
  ssId := -1
  clientPort := 0
  nmPort := 0
  access := 0
  targetUser := .empty _

/-- The separator `|`. -/
def bar : CChar := byte 124

/-! ## Encoding -/

/-- The fields in the order of the format string. -/
def Message.fields (m : Message) : List CStr :=
  [printInt m.type.toInt, printInt m.status.toInt, m.sender.str, m.filename.str, m.foldername.str,
    m.targetPath.str, printInt m.sentenceIndex.toInt, printInt m.wordIndex.toInt, printInt m.ssId.toInt,
    printInt m.clientPort.toInt, printInt m.nmPort.toInt, printInt m.access.toInt, m.targetUser.str,
    m.checkpointTag.str, m.data.str]

/-- Fields with a separator between any two. -/
def joinFields : List CStr → CStr
  | [] => []
  | [t] => t
  | t :: ts => t ++ bar :: joinFields ts

/-- `serialize_message`. -/
def serializeMessage (m : Message) : CStr := joinFields m.fields

/-! ## Decoding -/

/-- The `switch` on a token that is not empty. The terminators that cases 4, 5 and 13 write go to the last
byte of another array, which is NUL already. -/
def readField (field : Nat) (token : CStr) (msg : Message) : Message :=
  match field with
  | 0 => { msg with type := atoi token }
  | 1 => { msg with status := atoi token }
  | 2 => { msg with sender := .strncpy (MAX_USERNAME - 1) token }
  | 3 => { msg with filename := .strncpy (MAX_FILENAME - 1) token }
  | 4 => { msg with foldername := .strncpy (MAX_FILENAME - 1) token }
  | 5 => { msg with targetPath := .strncpy (MAX_FILENAME - 1) token }
  | 6 => { msg with sentenceIndex := atoi token }
  | 7 => { msg with wordIndex := atoi token }
  | 8 => { msg with ssId := atoi token }
  | 9 => { msg with clientPort := atoi token }
  | 10 => { msg with nmPort := atoi token }
  | 11 => { msg with access := atoi token }
  | 12 => { msg with targetUser := .strncpy (MAX_USERNAME - 1) token }
  | 13 => { msg with checkpointTag := .strncpy (MAX_USERNAME - 1) token }
  | 14 => { msg with data := .strncpy (MAX_BUFFER - 1) token }
  | _ => msg

/-- The `else` branch, on an empty token: defaults stay, four numbers of an older layout clear a string. -/
def emptyField (field : Nat) (msg : Message) : Message :=
  match field with
  | 2 => { msg with sender := .empty _ }
  | 3 => { msg with filename := .empty _ }
  | 10 => { msg with targetUser := .empty _ }
  | 11 => { msg with data := .empty _ }
  | _ => msg

/-- What one token does to the message; it passes through `token_buf` first. -/
def storeField (field : Nat) (token : CStr) (msg : Message) : Message :=
  if token.take (MAX_BUFFER - 1) ≠ [] then readField field (token.take (MAX_BUFFER - 1)) msg
  else emptyField field msg

/-- The loop of `deserialize_message` from `field` on, with `rounds` fields left to read. The last field is
the rest of the buffer, whatever it holds. -/
def deserializeFrom : (rounds field : Nat) → (p : CStr) → Message → Message
  | 0, _, _, msg => msg
  | rounds + 1, field, p, msg =>
    if field = 14 then storeField field p msg
    else
      let msg := storeField field (p.takeWhile (· ≠ bar)) msg
      match p.dropWhile (· ≠ bar) with
      | [] => msg
      | _ :: p => deserializeFrom rounds (field + 1) p msg

/-- `deserialize_message`. -/
def deserializeMessage (buffer : CStr) : Message := deserializeFrom 15 0 buffer initMessage

/-! ## The field loop on joined fields -/

/-- The tokens `ts` stored one after another, from `field` on. -/
def storeFields (field : Nat) : List CStr → Message → Message
  | [], msg => msg
  | t :: ts, msg => storeFields (field + 1) ts (storeField field t msg)

theorem ne_bar_of_mem {t : CStr} (ht : bar ∉ t) : ∀ c ∈ t, decide (c ≠ bar) = true :=
  fun _ hc => decide_eq_true (ne_of_mem_of_not_mem hc ht)

theorem takeWhile_bar {t : CStr} (ht : bar ∉ t) (p : CStr) :
    (t ++ bar :: p).takeWhile (· ≠ bar) = t := by
  rw [List.takeWhile_append_of_pos (ne_bar_of_mem ht)]
  simp

theorem dropWhile_bar {t : CStr} (ht : bar ∉ t) (p : CStr) :
    (t ++ bar :: p).dropWhile (· ≠ bar) = bar :: p := by
  rw [List.dropWhile_append_of_pos (ne_bar_of_mem ht)]
  simp

/-- **Joined fields are stored one by one**, when only the last may hold a separator. -/
theorem deserializeFrom_joinFields :
    ∀ (ts : List CStr) (field : Nat) (msg : Message), field + ts.length = 15 → ts ≠ [] →
      (∀ t ∈ ts.dropLast, bar ∉ t) →
      deserializeFrom ts.length field (joinFields ts) msg = storeFields field ts msg
  | [], _, _, _, hne, _ => absurd rfl hne
  | [t], field, msg, hlen, _, _ => by
    have hf : field = 14 := by simpa using hlen
    subst hf
    rfl
  | t :: t' :: ts, field, msg, hlen, _, hbar => by
    have hf : field ≠ 14 := by simp only [List.length_cons] at hlen; omega
    have ht : bar ∉ t := hbar t (by simp)
    have hrest := deserializeFrom_joinFields (t' :: ts) (field + 1) (storeField field t msg)
      (by simp only [List.length_cons] at hlen ⊢; omega) (by simp)
      (fun u hu => hbar u (by rw [List.dropLast_cons_cons]; exact List.mem_cons_of_mem _ hu))
    rw [List.length_cons, joinFields, deserializeFrom, if_neg hf, takeWhile_bar ht, dropWhile_bar ht]
    exact hrest
    all_goals simp

/-! ## What each field reads back -/

theorem bar_notMem_printInt (i : Int32) : bar ∉ printInt i.toInt := by
  intro h
  rcases mem_printInt h with h | h
  · exact absurd h (by decide)
  · exact absurd h (by decide)

theorem storeField_of_fits {field : Nat} {token : CStr} {msg : Message} (h : token.length < MAX_BUFFER) :
    storeField field token msg =
      if token ≠ [] then readField field token msg else emptyField field msg := by
  rw [storeField, List.take_of_length_le (by omega)]

theorem storeField_int {field : Nat} {msg : Message} (i : Int32) :
    storeField field (printInt i.toInt) msg = readField field (printInt i.toInt) msg := by
  rw [storeField_of_fits (lt_of_le_of_lt (length_printInt_le i) (by decide)), if_pos (printInt_ne_nil _)]

/-- A string token is read as `strncpy` copies it, also when it is empty and the field was. -/
theorem storeField_str {field n : Nat} {msg : Message} (a : CArray n) (hn : n ≤ MAX_BUFFER)
    (hempty : emptyField field msg = readField field [] msg) :
    storeField field a.str msg = readField field a.str msg := by
  have h := a.fits
  rw [storeField_of_fits (by omega)]
  split
  · rfl
  · rename_i hnil
    rw [hempty, not_not.mp hnil]

/-- The names of a message hold no separator. -/
def Message.NamesBarFree (m : Message) : Prop :=
  bar ∉ m.sender.str ∧ bar ∉ m.filename.str ∧ bar ∉ m.foldername.str ∧ bar ∉ m.targetPath.str ∧
    bar ∉ m.targetUser.str ∧ bar ∉ m.checkpointTag.str

instance (m : Message) : Decidable m.NamesBarFree := inferInstanceAs (Decidable (_ ∧ _))

theorem bar_notMem_fields {m : Message} (h : m.NamesBarFree) : ∀ t ∈ m.fields.dropLast, bar ∉ t := by
  obtain ⟨h1, h2, h3, h4, h5, h6⟩ := h
  simp only [Message.fields, List.dropLast_cons_cons, List.dropLast_singleton, List.mem_cons,
    List.not_mem_nil, or_false, forall_eq_or_imp, forall_eq]
  simp only [bar_notMem_printInt, h1, h2, h3, h4, h5, h6, not_false_eq_true, and_self]

/-- A string that is terminated inside its array survives a `strncpy` of all but the last byte. -/
theorem strncpy_str {n : Nat} [Fact (n - 1 < n)] (a : CArray n) : CArray.strncpy (n - 1) a.str = a :=
  CArray.ext' (List.take_of_length_le (by have := a.fits; omega))

/-- **What comes back**: the message with `targetPath` cut to the length of a file name. -/
theorem deserialize_serialize {m : Message} (h : m.NamesBarFree) :
    deserializeMessage (serializeMessage m) =
      { m with targetPath := .strncpy (MAX_FILENAME - 1) m.targetPath.str } := by
  have hloop := deserializeFrom_joinFields m.fields 0 initMessage (by rfl) (by simp [Message.fields])
    (bar_notMem_fields h)
  rw [deserializeMessage, serializeMessage, show 15 = m.fields.length from rfl, hloop]
  simp only [Message.fields, storeFields, storeField_int, Nat.reduceAdd, readField]
  rw [storeField_str m.sender (by decide) rfl, storeField_str m.filename (by decide) rfl,
    storeField_str m.foldername (by decide) rfl, storeField_str m.targetPath (by decide) rfl,
    storeField_str m.targetUser (by decide) rfl, storeField_str m.checkpointTag (by decide) rfl,
    storeField_str m.data (by decide) rfl]
  simp only [readField, atoi_printInt, strncpy_str]

/-- **The message comes back unchanged exactly when its target path fits a file name.** -/
theorem round_trip_iff (m : Message) (h : m.NamesBarFree) :
    deserializeMessage (serializeMessage m) = m ↔ m.targetPath.str.length ≤ MAX_FILENAME - 1 := by
  rw [deserialize_serialize h]
  constructor
  · intro he
    have hp := congrArg (fun m => m.targetPath.str.length) he
    simp only [CArray.str_strncpy, List.length_take] at hp
    omega
  · intro hle
    have hp : (CArray.strncpy (MAX_FILENAME - 1) m.targetPath.str : CArray MAX_PATH) = m.targetPath :=
      CArray.ext' (List.take_of_length_le hle)
    rw [hp]

/-- A move to the folder `/a|b`, with a bar in the data only. -/
def moveMessage : Message :=
  { initMessage with
    type := 23
    sender := ⟨lit "alice", by decide⟩
    filename := ⟨lit "notes.txt", by decide⟩
    targetPath := ⟨lit "/docs", by decide⟩
    data := ⟨lit "/a|b", by decide⟩ }

theorem round_trip_move :
    deserializeMessage (serializeMessage moveMessage) = moveMessage ↔
      moveMessage.targetPath.str.length ≤ MAX_FILENAME - 1 :=
  round_trip_iff moveMessage (by decide)

/-- A message whose target path is 256 bytes long. -/
def longPathMessage : Message :=
  { initMessage with
    targetPath := ⟨List.replicate 256 dash, by rw [List.length_replicate]; decide⟩ }

/-- The last byte of a 256-byte target path is lost. -/
theorem longPath_cut :
    longPathMessage.NamesBarFree ∧
      deserializeMessage (serializeMessage longPathMessage) ≠ longPathMessage := by
  have hbar : longPathMessage.NamesBarFree := by
    refine ⟨by decide, by decide, by decide, fun h => ?_, by decide, by decide⟩
    exact absurd (List.eq_of_mem_replicate h) (by decide)
  refine ⟨hbar, fun he => ?_⟩
  rw [deserialize_serialize hbar] at he
  have hlen := congrArg (fun m => m.targetPath.str.length) he
  rw [CArray.str_strncpy, longPathMessage, List.take_replicate, List.length_replicate,
    List.length_replicate] at hlen
  exact absurd hlen (by decide)

end NetworkFileShare
