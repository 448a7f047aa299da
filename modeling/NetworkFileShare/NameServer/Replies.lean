import NetworkFileShare.FileOps.Checkpoints
import NetworkFileShare.NameServer.Handlers

/-!
# Replies that fit their buffer

* `InRecord` : the texts and lists of a record fit the arrays of the C struct;
* `infoCalls`, `listCalls` : the calls with which `handle_info` and `handle_list` write their buffer; `infoText_eq`,
  `handleList_eq` : what they print is the reply;
* `infoCalls_fit`, `listCalls_fit`, `replies_fit` : they stay in it.
-/

namespace NetworkFileShare

/-- What the arrays and numbers of a `FileMetadata` can hold. -/
structure FileMetadata.InRecord (m : FileMetadata) : Prop where
  filename : m.filename.length < MAX_FILENAME
  owner : m.owner.length < MAX_USERNAME
  size : m.size < 2 ^ 64
  lastAccessedBy : m.lastAccessedBy.length < MAX_USERNAME
  acl : m.acl.length ≤ MAX_ACL_ENTRIES
  usernames : ∀ e ∈ m.acl, e.username.length < MAX_USERNAME

/-! ## `handle_info` -/

/-- The text of the first `sprintf`. -/
def infoHead (m : FileMetadata) (created modified accessed : CStr) : CStr :=
  lit "File: " ++ m.filename ++ lit "\nOwner: " ++ m.owner ++ lit "\nCreated: " ++ created ++
    lit "\nLast Modified: " ++ modified ++ lit "\nLast Accessed: " ++ accessed ++ lit " by " ++
    m.lastAccessedBy ++ lit "\nSize: " ++ printNat m.size ++ lit " bytes\nWords: " ++
    printInt m.wordCount.toInt ++ lit "\nChars: " ++ printInt m.charCount.toInt ++
    lit "\nStorage Server: " ++ printInt m.ssId.toInt ++ lit "\nAccess Control:\n"

/-- The line of an entry of the access list. -/
def aclLine (e : ACLEntry) : CStr := lit "  " ++ e.username ++ lit ": " ++ accessText e.access ++ lit "\n"

/-- The calls of `handle_info`: each goes on at `strlen(buffer)`. -/
def infoCalls (m : FileMetadata) (created modified accessed : CStr) : List PrintCall :=
  sprintfCalls 0 (infoHead m created modified accessed :: m.acl.map aclLine)

/-- The reply is what the calls print. -/
theorem infoText_eq (m : FileMetadata) (created modified accessed : CStr) :
    infoText m created modified accessed = printed (infoCalls m created modified accessed) := by
  rw [infoCalls, printed_sprintfCalls]
  rfl

variable {m : FileMetadata}

theorem length_accessText_le (access : Int32) : (accessText access).length ≤ 4 := by
  unfold accessText
  split_ifs <;> decide

theorem length_aclLine_le (hm : m.InRecord) {e : ACLEntry} (he : e ∈ m.acl) : (aclLine e).length ≤ 72 := by
  have hname : e.username.length < 64 := hm.usernames e he
  have haccess := length_accessText_le e.access
  simp only [aclLine, List.length_append, show (lit "  ").length = 2 by decide, show (lit ": ").length = 2 by decide,
    show (lit "\n").length = 1 by decide]
  omega

theorem length_infoHead_le (hm : m.InRecord) (created modified accessed : CArray 32) :
    (infoHead m created.str modified.str accessed.str).length ≤ 700 := by
  have hfilename : m.filename.length < 256 := hm.filename
  have howner : m.owner.length < 64 := hm.owner
  have hby : m.lastAccessedBy.length < 64 := hm.lastAccessedBy
  have hsize : (printNat m.size).length ≤ 20 := length_printNat_le (by norm_num) (hm.size.trans (by norm_num))
  have hwords := length_printInt_le m.wordCount
  have hchars := length_printInt_le m.charCount
  have hid := length_printInt_le m.ssId
  have hcreated := created.fits
  have hmodified := modified.fits
  have haccessed := accessed.fits
  unfold infoHead
  repeat rw [List.length_append]
  rw [show (lit "File: ").length = 6 by decide,
    show (lit "\nOwner: ").length = 8 by decide, show (lit "\nCreated: ").length = 10 by decide,
    show (lit "\nLast Modified: ").length = 16 by decide, show (lit "\nLast Accessed: ").length = 16 by decide,
    show (lit " by ").length = 4 by decide, show (lit "\nSize: ").length = 7 by decide,
    show (lit " bytes\nWords: ").length = 14 by decide, show (lit "\nChars: ").length = 8 by decide,
    show (lit "\nStorage Server: ").length = 17 by decide, show (lit "\nAccess Control:\n").length = 17 by decide]
  omega

/-- Calls of `sprintf` have no size argument. -/
theorem sprintfCalls_sizeOk {pos : Nat} {texts : List CStr} : ∀ c ∈ sprintfCalls pos texts, c.SizeOk := by
  induction texts generalizing pos with
  | nil => exact fun c hc => absurd hc List.not_mem_nil
  | cons text texts ih =>
    refine List.forall_mem_cons.mpr ⟨fun n hn => ?_, ih⟩
    cases hn

/-- **`INFO` fits**: 700 bytes, and at most 100 lines of at most 72. -/
theorem infoCalls_fit (hm : m.InRecord) (created modified accessed : CArray 32) :
    FitBuffer MAX_BUFFER (infoCalls m created.str modified.str accessed.str) := by
  have hhead := length_infoHead_le hm created modified accessed
  have hlines : (m.acl.map aclLine).flatten.length ≤ m.acl.length * 72 := by
    refine (length_flatten_le (n := 72) fun line hline => ?_).trans (by rw [List.length_map])
    obtain ⟨e, he, rfl⟩ := List.mem_map.mp hline
    exact length_aclLine_le hm he
  have hacl : m.acl.length ≤ 100 := hm.acl
  have hwithin : ∀ c ∈ infoCalls m created.str modified.str accessed.str, c.Within MAX_BUFFER := by
    refine (sprintf_within_iff MAX_BUFFER 0 _).mpr (Or.inr ?_)
    rw [List.flatten_cons, List.length_append]
    show _ < 8192
    omega
  exact fun c hc => ⟨hwithin c hc, sprintfCalls_sizeOk c hc⟩

/-! ## `handle_list` -/

/-- One loop of `handle_list` over the names, from a position on. -/
def listLoop (suffix : CStr) (pos : Nat) (names : List CStr) : List PrintCall :=
  snprintfUntil (MAX_BUFFER - 100) MAX_BUFFER pos (names.map (· ++ suffix))

/-- The calls for the clients, up to the line above the registered users. -/
def clientListCalls (clients : List CStr) : List PrintCall :=
  let head := snprintfCalls MAX_BUFFER 0 [lit "=== Connected Users ===\n"]
  let online := listLoop (lit " (online)\n") (printed head).length clients
  head ++ online ++ snprintfCalls MAX_BUFFER (printed (head ++ online)).length [lit "\n=== All Registered Users ===\n"]

/-- The calls of `handle_list`. -/
def listCalls (clients users : List CStr) : List PrintCall :=
  clientListCalls clients ++ listLoop (lit "\n") (printed (clientListCalls clients)).length users

theorem listNames_eq (suffix : CStr) (names : List CStr) (buffer : CStr) :
    listNames suffix names buffer = buffer ++ printed (listLoop suffix buffer.length names) := by
  induction names generalizing buffer with
  | nil => exact (List.append_nil buffer).symm
  | cons name names ih =>
    rw [listNames, listLoop, List.map_cons, snprintfUntil]
    show _ = buffer ++ (name ++ suffix ++ printed _)
    have hbuffer : buffer ++ name ++ suffix = buffer ++ (name ++ suffix) := List.append_assoc _ _ _
    rw [hbuffer, ← List.length_append, ← List.append_assoc buffer (name ++ suffix)]
    split
    · exact (List.append_nil _).symm
    · exact ih _

/-- The reply is what the calls print. -/
theorem handleList_eq : handleList = do
    let clients ← NmOp.perform .clientNames
    let users ← NmOp.perform .registeredNames
    return replyText MSG_DATA SUCCESS (printed (listCalls clients users)) := by
  unfold handleList
  simp only [listNames_eq, listCalls, clientListCalls, printed_append, printed_snprintfCalls, List.flatten_singleton,
    List.append_assoc]

/-- **`LIST` fits**: the first loop cannot get as far as its break, and the second starts in the buffer. -/
theorem listCalls_fit {clients : List Username} (hclients : clients.length ≤ MAX_CLIENTS) (users : List CStr) :
    FitBuffer MAX_BUFFER (listCalls (clients.map (·.str)) users) := by
  have hnames : ((clients.map (·.str)).map (· ++ lit " (online)\n")).flatten.length ≤ clients.length * 73 := by
    refine (length_flatten_le (n := 73) fun line hline => ?_).trans (by rw [List.length_map, List.length_map])
    obtain ⟨name, hname, rfl⟩ := List.mem_map.mp hline
    obtain ⟨client, -, rfl⟩ := List.mem_map.mp hname
    have hfits : client.str.length < 64 := client.fits
    rw [List.length_append, show (lit " (online)\n").length = 10 by decide]
    omega
  have honline := length_printed_snprintfUntil_le (MAX_BUFFER - 100) MAX_BUFFER 24
    ((clients.map (·.str)).map (· ++ lit " (online)\n"))
  have hpos {pos : Nat} (hle : pos ≤ MAX_BUFFER) (text : CStr) :
      FitBuffer MAX_BUFFER (snprintfCalls MAX_BUFFER pos [text]) := by
    intro c hc
    obtain rfl := List.mem_singleton.mp hc
    refine ⟨PrintCall.within_snprintf_iff.mpr hle, fun n hn => ?_⟩
    cases hn
    omega
  unfold listCalls clientListCalls listLoop
  simp only [printed_append, printed_snprintfCalls, List.flatten_singleton, List.length_append,
    show (lit "=== Connected Users ===\n").length = 24 by decide,
    show (lit "\n=== All Registered Users ===\n").length = 30 by decide]
  have hclients : clients.length ≤ 100 := hclients
  have hstop : MAX_BUFFER - 100 ≤ MAX_BUFFER := by decide
  refine .append (.append (.append (hpos (by decide) _) (snprintfUntil_fits hstop (by decide) _)) (hpos ?_ _))
    (snprintfUntil_fits hstop ?_ _)
  · show _ ≤ 8192
    omega
  · show _ ≤ 8192
    omega

/-- **The replies to `INFO`, `LIST` and `LISTCHECKPOINTS` stay in their buffers.** -/
theorem replies_fit (hm : m.InRecord) (created modified accessed : CArray 32) {clients : List Username}
    (hclients : clients.length ≤ MAX_CLIENTS) (users : List Username) (filepath : CArray MAX_PATH)
    (entries : Option (List CStr)) :
    FitBuffer MAX_BUFFER (infoCalls m created.str modified.str accessed.str) ∧
      FitBuffer MAX_BUFFER (listCalls (clients.map (·.str)) (users.map (·.str))) ∧
      FitBuffer MAX_BUFFER (listCheckpoints filepath MAX_BUFFER entries).2 :=
  ⟨infoCalls_fit hm created modified accessed, listCalls_fit hclients _, listCheckpoints_fits _ _ _⟩

/-- The record of a file that one user may read. -/
def sharedRecord : FileMetadata :=
  { FileMetadata.zero with filename := lit "n", owner := lit "a", size := 5, acl := [⟨lit "b", ACCESS_READ⟩] }

theorem replies_fit_shared :
    FitBuffer MAX_BUFFER (infoCalls sharedRecord (lit "2024-01-01 00:00:00") [] []) ∧
      FitBuffer MAX_BUFFER (listCalls [lit "a"] [lit "a", lit "b"]) ∧
      FitBuffer MAX_BUFFER (listCheckpoints ⟨lit "d/n", by decide⟩ MAX_BUFFER (some [lit "n.checkpoint_x"])).2 :=
  replies_fit (m := sharedRecord)
    ⟨by decide, by decide, by norm_num [sharedRecord], by decide, by decide, by decide⟩
    ⟨lit "2024-01-01 00:00:00", by decide⟩ ⟨[], by decide⟩ ⟨[], by decide⟩
    (show [(⟨lit "a", by decide⟩ : Username)].length ≤ MAX_CLIENTS by decide)
    [⟨lit "a", by decide⟩, ⟨lit "b", by decide⟩] ⟨lit "d/n", by decide⟩ (some [lit "n.checkpoint_x"])

end NetworkFileShare
