import NetworkFileShare.Wire

/-!
# Framing (`common.c`: `send_message` and `recv_message` on one connection)

* `Transmission` : a message with what the calls of `send` and `recv` for it do; `SendsAll` : what is on the wire when
  all are sent;
* `framing_iff` : every message is received in order exactly when every length word was accepted whole;
* `Reads.Between` : no timeout fires in the middle of a message; `boundary_kept` : then timeouts do no harm;
* `recvMessage_cutOff` : where the rest begins when one does.
-/

namespace NetworkFileShare

/-- A message that is sent and received, with what the system makes of the calls. -/
structure Transmission where
  message : Message
  sends : Nat → SendResult
  reads : Reads

/-- The messages are sent, one after the other, and the stream is what was accepted. -/
def SendsAll : List Transmission → List UInt8 → Prop
  | [], stream => stream = []
  | t :: ts, stream => ∃ fuel bytes rest,
    sendMessage fuel t.sends t.message = some (0, bytes) ∧ SendsAll ts rest ∧ stream = bytes ++ rest

/-- Every call of `send` accepts some of the bytes. -/
def Accepting (sends : Nat → SendResult) : Prop := ∀ i, ∃ n, 0 < n ∧ sends i = .accepts n

/-- The length word was accepted whole. -/
def WordSent (sends : Nat → SendResult) : Prop := ∃ n, 4 ≤ n ∧ sends 0 = .accepts n

/-! ## What is on the wire -/

/-- **The loop of `send_message` sends what is left**, however it is cut. -/
theorem run_sendRound {sends : Nat → SendResult} (h : Accepting sends) (s : Sending) {fuel : Nat}
    (hfuel : s.left.length < fuel) : Loop.run (sendRound sends) fuel s = some (0, s.wire ++ s.left) := by
  induction fuel generalizing s with
  | zero => exact absurd hfuel (Nat.not_lt_zero _)
  | succ fuel ih =>
    by_cases hleft : s.left = []
    · rw [hleft, List.append_nil]
      have hround : sendRound sends s = .done (0, s.wire) := if_pos hleft
      exact Loop.run_done hround fuel
    · obtain ⟨n, hn, hsend⟩ := h s.calls
      have hlength := List.length_pos_iff.mpr hleft
      have hround : sendRound sends s = .again ⟨s.calls + 1, s.wire ++ s.left.take n, s.left.drop n⟩ := by
        rw [sendRound, if_neg hleft, hsend]
      rw [Loop.run_again hround, ih _ (by rw [List.length_drop]; omega), List.append_assoc, List.take_append_drop]

/-- What is on the wire of one message. -/
def Transmission.wire (t : Transmission) : List UInt8 :=
  (intBytes (Int32.ofNat (serializeMessage t.message).length)).take
    (match t.sends 0 with | .accepts n => n | _ => 0) ++ textBytes (serializeMessage t.message)

theorem sendMessage_eq {t : Transmission} (h : Accepting t.sends) {fuel : Nat}
    (hfuel : (serializeMessage t.message).length < fuel) :
    sendMessage fuel t.sends t.message = some (0, t.wire) := by
  obtain ⟨n, -, hsend⟩ := h 0
  rw [sendMessage, hsend, Transmission.wire, hsend]
  exact run_sendRound h _ (by rwa [textBytes, List.length_map])

theorem sendMessage_det {fuel fuel' : Nat} {sends : Nat → SendResult} {msg : Message} {r r' : Int × List UInt8}
    (h : sendMessage fuel sends msg = some r) (h' : sendMessage fuel' sends msg = some r') : r = r' := by
  unfold sendMessage at h h'
  cases hsend : sends 0 with
  | accepts n =>
    rw [hsend] at h h'
    exact Loop.run_det h h'
  | interrupted | fails =>
    rw [hsend] at h h'
    exact Option.some.inj (h.symm.trans h')

/-- Every message is sent, and this is what is on the wire. -/
theorem sendsAll_iff {ts : List Transmission} (h : ∀ t ∈ ts, Accepting t.sends) {stream : List UInt8} :
    SendsAll ts stream ↔ stream = ts.flatMap Transmission.wire := by
  induction ts generalizing stream with
  | nil => rfl
  | cons t ts ih =>
    have hrest {rest : List UInt8} : SendsAll ts rest ↔ rest = ts.flatMap Transmission.wire :=
      ih fun t' ht' => h t' (List.mem_cons_of_mem _ ht')
    have hsend := sendMessage_eq (h t List.mem_cons_self) (Nat.lt_succ_self _)
    rw [List.flatMap_cons, SendsAll]
    constructor
    · rintro ⟨fuel, bytes, rest, hbytes, hall, rfl⟩
      rw [hrest.mp hall, (Prod.mk.inj (sendMessage_det hbytes hsend)).2]
    · rintro rfl
      exact ⟨_, _, _, hsend, hrest.mpr rfl, rfl⟩

/-! ## A length word that is cut short -/

/-- A message begins with digits, signs and separators. -/
theorem textBytes_head (m : Message) : ∃ a b c rest, textBytes (serializeMessage m) = a :: b :: c :: rest ∧
    (45 ≤ a.toNat ∧ a.toNat ≤ 124) ∧ (45 ≤ b.toNat ∧ b.toNat ≤ 124) ∧ (45 ≤ c.toNat ∧ c.toNat ≤ 124) := by
  have hprinted (i : Int32) : ∀ c ∈ printInt i.toInt, 45 ≤ c.val.toNat ∧ c.val.toNat ≤ 124 := by
    intro c hc
    rcases mem_printInt hc with rfl | hdigit
    · decide
    · have hval := val_of_isdigit hdigit
      omega
  obtain ⟨tail, htext⟩ : ∃ tail, serializeMessage m =
      printInt m.type.toInt ++ bar :: (printInt m.status.toInt ++ [bar]) ++ tail :=
    ⟨joinFields (m.fields.drop 2), by simp [serializeMessage, Message.fields, joinFields]⟩
  have hrange : ∀ c ∈ printInt m.type.toInt ++ bar :: (printInt m.status.toInt ++ [bar]),
      45 ≤ c.val.toNat ∧ c.val.toNat ≤ 124 := by
    intro c hc
    simp only [List.mem_append, List.mem_cons, List.not_mem_nil, or_false] at hc
    rcases hc with hc | rfl | hc | rfl
    · exact hprinted _ c hc
    · decide
    · exact hprinted _ c hc
    · decide
  have hlong : 3 ≤ (printInt m.type.toInt ++ bar :: (printInt m.status.toInt ++ [bar])).length := by
    have htype := List.length_pos_iff.mpr (printInt_ne_nil m.type.toInt)
    simp only [List.length_append, List.length_cons]
    omega
  rw [htext]
  generalize printInt m.type.toInt ++ bar :: (printInt m.status.toInt ++ [bar]) = head at hrange hlong ⊢
  rcases head with _ | ⟨a, _ | ⟨b, _ | ⟨c, rest⟩⟩⟩
  · exact absurd hlong (by decide)
  · exact absurd hlong (by simp)
  · exact absurd hlong (by simp)
  · exact ⟨a.val, b.val, c.val, textBytes (rest ++ tail), rfl, hrange a (by simp), hrange b (by simp),
      hrange c (by simp)⟩

/-- A length word whose highest byte is such a character is refused. -/
theorem bytesInt_large {a b c d : UInt8} (h : 45 ≤ d.toNat ∧ d.toNat ≤ 124) :
    (bytesInt [a, b, c, d]).toInt ≥ MAX_BUFFER * 2 := by
  have ha := a.toNat_lt
  have hb := b.toNat_lt
  have hc := c.toNat_lt
  have hvalue : Nat.ofDigits 256 ([a, b, c, d].map UInt8.toNat) =
      a.toNat + 256 * (b.toNat + 256 * (c.toNat + 256 * d.toNat)) := by
    simp [Nat.ofDigits]
  rw [bytesInt, hvalue, Int32.toInt_ofNat_of_lt (by omega)]
  unfold MAX_BUFFER
  omega

/-- **A length word that was not accepted whole is not received**: text stands in its place. -/
theorem recvMessage_short {t : Transmission} (hreads : t.reads.Whole) (hsends : Accepting t.sends)
    (hshort : ¬ WordSent t.sends) (rest : List UInt8) : (recvMessage t.reads (t.wire ++ rest)).1 = none := by
  obtain ⟨n, hn, hsend⟩ := hsends 0
  have hlt : n < 4 := by
    by_contra hle
    exact hshort ⟨n, by omega, hsend⟩
  obtain ⟨a, b, c, text, htext, ha, hb, hc⟩ := textBytes_head t.message
  have hword : ∃ w x y z stream, t.wire ++ rest = [w, x, y, z] ++ stream ∧ 45 ≤ z.toNat ∧ z.toNat ≤ 124 := by
    rw [Transmission.wire, htext, hsend]
    interval_cases n
    · exact ⟨_, _, _, c, _, rfl, hc⟩
    · exact ⟨_, _, _, b, _, rfl, hb⟩
    · exact ⟨_, _, _, a, _, rfl, ha⟩
  obtain ⟨w, x, y, z, stream, hwire, hz⟩ := hword
  rw [hwire, recvMessage_word hreads.word rfl, if_pos (Or.inl (bytesInt_large hz))]

/-- A length word that was accepted whole makes a frame. -/
theorem wire_whole {t : Transmission} (h : WordSent t.sends) : t.wire = t.message.frame.wire := by
  obtain ⟨n, hn, hsend⟩ := h
  have hlength : t.message.frame.body.length = (serializeMessage t.message).length := List.length_map _
  rw [Transmission.wire, hsend, WireFrame.wire, hlength]
  simp only
  rw [List.take_of_length_le (by rwa [length_intBytes])]
  rfl

/-- **The messages come in order, however the stream is cut, exactly when every length word was accepted whole.** -/
theorem framing_iff {ts : List Transmission} (hsends : ∀ t ∈ ts, Accepting t.sends)
    (hreads : ∀ t ∈ ts, t.reads.Whole) : ∃ stream, (∀ stream', SendsAll ts stream' ↔ stream' = stream) ∧
    ((recvAll (ts.map Transmission.reads) stream).1 =
        ts.map (fun t => some (deserializeMessage (serializeMessage t.message))) ↔ ∀ t ∈ ts, WordSent t.sends) ∧
    ∀ t ∈ ts, 0 < (serializeMessage t.message).length ∧ (serializeMessage t.message).length + 1 ≤ MAX_BUFFER * 2 := by
  refine ⟨_, fun _ => sendsAll_iff hsends, ?_, fun t _ => serializeMessage_fits t.message⟩
  rw [recvAll, List.map_map]
  refine readMany_eq_iff (fun t ht hgood => ?_) fun t ht hbad rest => ?_
  · rw [wire_whole hgood, ← Message.frame_message]
    exact recvMessage_frame (hreads t ht) t.message.frame
  · exact recvMessage_short (hreads t ht) (hsends t ht) hbad rest

/-- A message of which `first` bytes of the length word are accepted, and then the text, byte by byte. -/
def bytewise (first : Nat) : Transmission where
  message := moveMessage
  sends i := .accepts (if i = 0 then first else 1)
  reads := ⟨.bytes 4, fun _ => .bytes 7, 0⟩

theorem bytewise_accepting {first : Nat} (h : 0 < first) : Accepting (bytewise first).sends := by
  intro i
  exact ⟨if i = 0 then first else 1, by split <;> omega, rfl⟩

theorem bytewise_whole (first : Nat) : (bytewise first).reads.Whole :=
  ⟨⟨4, le_refl 4, rfl⟩, fun _ => ⟨7, by decide, rfl⟩⟩

theorem framing_iff_bytewise : ∃ stream,
    (∀ stream', SendsAll [bytewise 4, bytewise 4] stream' ↔ stream' = stream) ∧
    ((recvAll ([bytewise 4, bytewise 4].map Transmission.reads) stream).1 = [bytewise 4, bytewise 4].map
        (fun t => some (deserializeMessage (serializeMessage t.message))) ↔
      ∀ t ∈ [bytewise 4, bytewise 4], WordSent t.sends) ∧
    ∀ t ∈ [bytewise 4, bytewise 4],
      0 < (serializeMessage t.message).length ∧ (serializeMessage t.message).length + 1 ≤ MAX_BUFFER * 2 :=
  framing_iff (fun t ht => by
      obtain rfl : t = bytewise 4 := by simpa using ht
      exact bytewise_accepting (by decide)) fun t ht => by
    obtain rfl : t = bytewise 4 := by simpa using ht
    exact bytewise_whole 4

/-- **Half a length word**: everything that `send` accepts arrives, and the message is refused. -/
theorem half_word_refused : Accepting (bytewise 2).sends ∧ (bytewise 2).reads.Whole ∧
    ∃ stream, SendsAll [bytewise 2] stream ∧ (recvAll [(bytewise 2).reads] stream).1 = [none] := by
  have haccepting : Accepting (bytewise 2).sends := bytewise_accepting (by decide)
  have hshort : ¬ WordSent (bytewise 2).sends := by
    rintro ⟨n, hn, hsend⟩
    obtain rfl : 2 = n := SendResult.accepts.inj hsend
    omega
  refine ⟨haccepting, bytewise_whole 2, (bytewise 2).wire ++ [], ⟨_, _, _, sendMessage_eq haccepting
    (Nat.lt_succ_self _), rfl, rfl⟩, ?_⟩
  have hrefused := recvMessage_short (bytewise_whole 2) haccepting hshort []
  rw [recvAll, List.map_singleton, readMany, readMany, hrefused]

/-! ## Timeouts -/

/-- No timeout fires in the middle of a message: not a byte of it has been read, or it is read to the end. -/
def Reads.Between (reads : Reads) : Prop := reads.word = .timeout ∨ reads.Whole

/-- The call gets a length word. -/
def Reads.starts (reads : Reads) : Bool := reads.word ≠ .timeout

theorem recvMessage_timeout {reads : Reads} (h : reads.word = .timeout) : LeavesAll (recvMessage reads) := by
  intro stream
  rw [recvMessage, h]
  rfl

theorem recvMessage_nil (reads : Reads) : recvMessage reads [] = (none, []) := by
  unfold recvMessage
  cases reads.word with
  | bytes n => simp [recv]
  | timeout => rfl

/-- **Timeouts between messages do no harm**: the calls that get a length word receive the messages, in order, and what
is left begins with the next. -/
theorem boundary_kept (fs : List WireFrame) {reads : List Reads} (h : ∀ r ∈ reads, r.Between) :
    (recvAll reads (fs.flatMap WireFrame.wire)).1.reduceOption =
        (fs.take (reads.countP Reads.starts)).map WireFrame.message ∧
      (recvAll reads (fs.flatMap WireFrame.wire)).2 = (fs.drop (reads.countP Reads.starts)).flatMap WireFrame.wire := by
  refine readMany_waits (fun r _ hr => ?_) (fun r hr hstarts f => ?_) (fun r _ => recvMessage_nil r) fs
  · exact recvMessage_timeout (by simpa [Reads.starts] using hr)
  · rcases h r hr with hword | hwhole
    · simp [Reads.starts, hword] at hstarts
    · exact recvMessage_frame hwhole f

/-- A call that has to wait too long for the length word. -/
def idle : Reads := ⟨.timeout, fun _ => .timeout, 0⟩

/-- Two messages are on the wire, and one of three calls gets a length word. -/
def sampleReads : List Reads := [idle, (bytewise 4).reads, idle]

theorem boundary_kept_sample :
    (recvAll sampleReads ([moveMessage.frame, moveMessage.frame].flatMap WireFrame.wire)).1.reduceOption =
        ([moveMessage.frame, moveMessage.frame].take (sampleReads.countP Reads.starts)).map WireFrame.message ∧
      (recvAll sampleReads ([moveMessage.frame, moveMessage.frame].flatMap WireFrame.wire)).2 =
        ([moveMessage.frame, moveMessage.frame].drop (sampleReads.countP Reads.starts)).flatMap WireFrame.wire :=
  boundary_kept _ fun r hr => by
    simp only [sampleReads, List.mem_cons, List.not_mem_nil, or_false] at hr
    rcases hr with rfl | rfl | rfl
    · exact Or.inl rfl
    · exact Or.inr (bytewise_whole 4)
    · exact Or.inl rfl

/-- A call that gets the length word and `j` bytes of the text, and then has to wait too long. -/
def cutOff (j : Nat) : Reads := ⟨.bytes 4, fun i => if i < j then .bytes 1 else .timeout, 0⟩

theorem recvBody_cutOff {j : Nat} (body rest : List UInt8) (hj : j < body.length) (call : Nat) :
    recvBody (cutOff (call + j)).body call body.length (body ++ rest) = (none, body.drop j ++ rest) := by
  induction j generalizing body call with
  | zero =>
    have hread : (cutOff (call + 0)).body call = .timeout := if_neg (Nat.lt_irrefl call)
    rw [recvBody, if_neg (by omega), hread]
    rfl
  | succ j ih =>
    rcases body with _ | ⟨b, body⟩
    · cases hj
    · have hread : (cutOff (call + (j + 1))).body call = .bytes 1 := if_pos (by omega)
      have hrecv : recv (.bytes 1) (b :: body).length (b :: body ++ rest) = (some [b], body ++ rest) := by
        rw [recv, min_eq_left (by simp)]
        rfl
      rw [recvBody, if_neg (by simp), hread, hrecv]
      have hrest := ih body (Nat.lt_of_succ_lt_succ hj) (call + 1)
      rw [Nat.add_assoc, Nat.add_comm 1 j] at hrest
      simp only [List.length_cons, List.length_nil, Nat.add_sub_cancel]
      rw [hrest, Option.map_none, List.drop_succ_cons]

/-- **A timeout in the middle loses the boundary**: `recv_message` returns `-1`, and the rest of the stream begins
behind the bytes of the text that were read. -/
theorem recvMessage_cutOff (f : WireFrame) {j : Nat} (hj : j < f.body.length) (rest : List UInt8) :
    recvMessage (cutOff j) (f.wire ++ rest) = (none, f.body.drop j ++ rest) := by
  have hlt : f.body.length < 2 ^ 31 := lt_trans f.fits (by decide)
  have hfits := f.fits
  rw [WireFrame.wire, List.append_assoc, recvMessage_word ⟨4, le_refl 4, rfl⟩ (length_intBytes _),
    bytesInt_intBytes hlt, Int32.toInt_ofNat_of_lt hlt, if_neg (by omega), Int.toNat_natCast]
  have hbody := recvBody_cutOff f.body rest hj 0
  rw [Nat.zero_add] at hbody
  rw [hbody]
  rfl

/-- **After one byte of a text and a timeout** the rest begins in the middle, and no later call finds a length word. -/
theorem timeout_loses_message : (∃ rest, recvMessage (cutOff 1) moveMessage.frame.wire = (none, rest) ∧
      rest ≠ moveMessage.frame.wire ∧ rest ≠ []) ∧
    ∀ reads : Reads, reads.Whole → (recvAll [cutOff 1, reads] moveMessage.frame.wire).1 = [none, none] := by
  have htext : moveMessage.frame.body = [50, 51, 124, 50, 48] ++ moveMessage.frame.body.drop 5 := by decide
  generalize moveMessage.frame.body.drop 5 = text at htext
  have hcut : recvMessage (cutOff 1) moveMessage.frame.wire = (none, [51, 124, 50, 48] ++ text) := by
    have h := recvMessage_cutOff moveMessage.frame (j := 1) (by rw [htext]; simp) []
    rwa [List.append_nil, List.append_nil, htext] at h
  refine ⟨⟨_, hcut, ?_, List.cons_ne_nil _ _⟩, fun reads hwhole => ?_⟩
  · intro he
    have hlength := congrArg List.length he
    rw [WireFrame.wire, htext] at hlength
    simp only [List.length_append, List.length_cons, List.length_nil, length_intBytes] at hlength
    omega
  · have hrefused : (bytesInt [51, 124, 50, 48]).toInt ≥ MAX_BUFFER * 2 := bytesInt_large (by decide)
    rw [recvAll, List.map_cons, readMany, hcut, List.map_singleton, readMany, readMany,
      recvMessage_word hwhole.word rfl, if_pos (Or.inl hrefused)]

end NetworkFileShare
