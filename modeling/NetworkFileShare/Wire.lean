import NetworkFileShare.Lib.Frames
import NetworkFileShare.Lib.Loop
import NetworkFileShare.Message

/-!
# Messages on a socket (`common.c`: `send_message`, `recv_message`)

* `SendResult`, `sendMessage` : the length word, then the loop over the text, with what each call of `send` does;
* `RecvResult`, `Reads`, `recvMessage` : the length word, the check of it, then the loop, with what each call of `recv`
  is given; `recvAll` : one call after the other, whatever the last one returned;
* `WireFrame` : a text with a length that `recv_message` admits; `recvMessage_frame` : it is read, however it is cut;
* `serializeMessage_fits` : every encoding is such a text, and fits the buffer of `send_message`.
-/

namespace NetworkFileShare

/-! ## Length words -/

/-- The four bytes of an `int`, lowest first. -/
def intBytes (n : Int32) : List UInt8 := (List.range 4).map fun i => (n.toUInt32.toNat / 256 ^ i).toUInt8

/-- The `int` in four bytes. -/
def bytesInt (bytes : List UInt8) : Int32 := Int32.ofNat (Nat.ofDigits 256 (bytes.map UInt8.toNat))

@[simp] theorem length_intBytes (n : Int32) : (intBytes n).length = 4 := rfl

/-- A length word says the length. -/
theorem bytesInt_intBytes {n : Nat} (hn : n < 2 ^ 31) : bytesInt (intBytes (Int32.ofNat n)) = Int32.ofNat n := by
  have hword : (Int32.ofNat n).toUInt32.toNat = n := by
    rw [Int32.toUInt32_ofNat', UInt32.toNat_ofNat']
    omega
  unfold bytesInt intBytes
  rw [hword]
  congr 1
  simp [List.range_succ, Nat.ofDigits, UInt8.toNat_ofNat']
  omega

/-! ## Sending -/

/-- What a call of `send` does: so many bytes are accepted (at most all), or it fails, with `EINTR` or for good. -/
inductive SendResult where
  | accepts (n : Nat)
  | interrupted
  | fails

/-- The loop of `send_message`: the calls of `send` so far, the bytes that were accepted, and those that are left. -/
structure Sending where
  calls : Nat
  wire : List UInt8
  left : List UInt8

/-- A round of the loop. -/
def sendRound (sends : Nat → SendResult) (s : Sending) : Loop.Round Sending (Int × List UInt8) :=
  if s.left = [] then .done (0, s.wire)
  else
    match sends s.calls with
    | .accepts n => .again ⟨s.calls + 1, s.wire ++ s.left.take n, s.left.drop n⟩
    | .interrupted => .again { s with calls := s.calls + 1 }
    | .fails => .done (-1, s.wire)

/-- The bytes of a text. -/
def textBytes (s : CStr) : List UInt8 := s.map Subtype.val

/-- `send_message`, with at most `fuel` rounds of its loop: the value, and the bytes that were accepted. The length
word is sent once, however much of it is accepted. -/
def sendMessage (fuel : Nat) (sends : Nat → SendResult) (msg : Message) : Option (Int × List UInt8) :=
  let buffer := serializeMessage msg
  match sends 0 with
  | .accepts n =>
    Loop.run (sendRound sends) fuel
      ⟨1, (intBytes (Int32.ofNat buffer.length)).take n, textBytes buffer⟩
  | _ => some (-1, [])

/-! ## Receiving -/

/-- What a call of `recv` is given: at most so many bytes, or `EAGAIN` after the timeout. -/
inductive RecvResult where
  | bytes (n : Nat)
  | timeout
  deriving DecidableEq

/-- `recv`: what it reads (nothing at all at the end of the stream, `none` is `-1`), and the rest of the stream. -/
def recv (result : RecvResult) (asked : Nat) (stream : List UInt8) : Option (List UInt8) × List UInt8 :=
  match result with
  | .bytes n => (some (stream.take (min n asked)), stream.drop (min n asked))
  | .timeout => (none, stream)

/-- What the calls of `recv` in one `recv_message` are given, and what `len` holds before. -/
structure Reads where
  word : RecvResult
  body : Nat → RecvResult
  stale : Int32

/-- The loop of `recv_message`, with `left` bytes to come. -/
def recvBody (reads : Nat → RecvResult) (call left : Nat) (stream : List UInt8) :
    Option (List UInt8) × List UInt8 :=
  if left = 0 then (some [], stream)
  else
    match recv (reads call) left stream with
    | (none, rest) => (none, rest)
    | (some [], rest) => (none, rest)
    | (some (b :: chunk), rest) =>
      let (body, rest) := recvBody reads (call + 1) (left - (b :: chunk).length) rest
      (body.map (b :: chunk ++ ·), rest)
  termination_by left
  decreasing_by simp only [List.length_cons]; omega

/-- The text in a buffer. -/
def bufferText (buffer : List UInt8) : CStr :=
  (buffer.takeWhile (· ≠ 0)).filterMap fun b => if h : b ≠ 0 then some ⟨b, h⟩ else none

/-- `recv_message`: the message, or `none` for `-1`, and the rest of the stream. A length word that is cut short
overwrites the first bytes of `len` only. -/
def recvMessage (reads : Reads) (stream : List UInt8) : Option Message × List UInt8 :=
  match recv reads.word 4 stream with
  | (none, rest) => (none, rest)
  | (some [], rest) => (none, rest)
  | (some (b :: word), rest) =>
    let len := bytesInt (b :: word ++ (intBytes reads.stale).drop (b :: word).length)
    if len.toInt ≥ MAX_BUFFER * 2 ∨ len.toInt ≤ 0 then (none, rest)
    else
      let (buffer, rest) := recvBody reads.body 0 len.toInt.toNat rest
      (buffer.map fun buffer => deserializeMessage (bufferText buffer), rest)

/-- The receive loops: one call after the other, whatever the last one returned. -/
def recvAll (reads : List Reads) (stream : List UInt8) : List (Option Message) × List UInt8 :=
  readMany (reads.map recvMessage) stream

/-! ## Frames -/

/-- A text whose length `recv_message` admits. -/
structure WireFrame where
  body : List UInt8
  pos : 0 < body.length
  fits : body.length < MAX_BUFFER * 2

/-- The length word and the text. -/
def WireFrame.wire (f : WireFrame) : List UInt8 := intBytes (Int32.ofNat f.body.length) ++ f.body

/-- What the text says. -/
def WireFrame.message (f : WireFrame) : Message := deserializeMessage (bufferText f.body)

/-- The length word arrives whole, and no call of the loop comes back without a byte. -/
structure Reads.Whole (reads : Reads) : Prop where
  word : ∃ n, 4 ≤ n ∧ reads.word = .bytes n
  body : ∀ i, ∃ n, 0 < n ∧ reads.body i = .bytes n

/-- **The loop reads what it is asked to**, however it is cut. -/
theorem recvBody_append {reads : Nat → RecvResult} (hreads : ∀ i, ∃ n, 0 < n ∧ reads i = .bytes n) (call : Nat)
    (body rest : List UInt8) : recvBody reads call body.length (body ++ rest) = (some body, rest) := by
  induction hk : body.length using Nat.strong_induction_on generalizing body call with
  | _ k ih =>
    subst hk
    rcases body with _ | ⟨b, body⟩
    · rw [recvBody]
      rfl
    · obtain ⟨n, hn, hread⟩ := hreads call
      obtain ⟨j, hj⟩ : ∃ j, min n (b :: body).length = j + 1 := ⟨min n (b :: body).length - 1, by
        rw [List.length_cons]
        omega⟩
      have hle : j ≤ body.length := by
        rw [List.length_cons] at hj
        omega
      have hread : recv (reads call) (b :: body).length (b :: body ++ rest) =
          (some (b :: body.take j), body.drop j ++ rest) := by
        rw [hread, recv, hj, List.cons_append, List.take_succ_cons, List.drop_succ_cons,
          List.take_append_of_le_length hle, List.drop_append_of_le_length hle]
      have hleft : (b :: body).length - (b :: body.take j).length = (body.drop j).length := by
        rw [List.length_cons, List.length_cons, List.length_take, List.length_drop]
        omega
      rw [recvBody, if_neg (by simp), hread]
      simp only [hleft]
      rw [ih _ (by simp) _ _ rfl, Option.map_some, List.cons_append, List.take_append_drop]

/-- The length word is there, whole. -/
theorem recvMessage_word {reads : Reads} {word stream : List UInt8} (h : ∃ n, 4 ≤ n ∧ reads.word = .bytes n)
    (hword : word.length = 4) : recvMessage reads (word ++ stream) =
      if (bytesInt word).toInt ≥ MAX_BUFFER * 2 ∨ (bytesInt word).toInt ≤ 0 then (none, stream)
      else
        let (buffer, rest) := recvBody reads.body 0 (bytesInt word).toInt.toNat stream
        (buffer.map fun buffer => deserializeMessage (bufferText buffer), rest) := by
  obtain ⟨n, hn, hread⟩ := h
  have hread : recv reads.word 4 (word ++ stream) = (some word, stream) := by
    rw [hread, recv, min_eq_right hn, ← hword, List.take_left, List.drop_left]
  rcases word with _ | ⟨b, word⟩
  · cases hword
  · have hwhole : b :: word ++ (intBytes reads.stale).drop (b :: word).length = b :: word := by
      rw [hword, List.drop_of_length_le (length_intBytes _).le, List.append_nil]
    rw [recvMessage, hread]
    simp only [hwhole]

/-- **A frame is read, however it is cut**, whatever follows it. -/
theorem recvMessage_frame {reads : Reads} (h : reads.Whole) (f : WireFrame) :
    Takes (recvMessage reads) f.wire f.message := by
  intro rest
  have hlt : f.body.length < 2 ^ 31 := lt_trans f.fits (by decide)
  have hpos := f.pos
  have hfits := f.fits
  rw [WireFrame.wire, List.append_assoc, recvMessage_word h.word (length_intBytes _), bytesInt_intBytes hlt,
    Int32.toInt_ofNat_of_lt hlt, if_neg (by omega), Int.toNat_natCast, recvBody_append h.body]
  rfl

/-! ## The texts of messages -/

/-- The bytes of a text are read as the text. -/
theorem bufferText_textBytes (s : CStr) : bufferText (textBytes s) = s := by
  have hwhole : (textBytes s).takeWhile (· ≠ 0) = textBytes s := by
    refine List.takeWhile_eq_self_iff.mpr fun b hb => ?_
    obtain ⟨c, -, rfl⟩ := List.mem_map.mp hb
    exact decide_eq_true c.property
  rw [bufferText, hwhole, textBytes, List.filterMap_map]
  refine (List.filterMap_congr fun c _ => ?_).trans List.filterMap_some
  exact dif_pos c.property

/-- The texts and a separator between any two. -/
theorem length_joinFields : ∀ {ts : List CStr}, ts ≠ [] →
    (joinFields ts).length + 1 = (ts.map fun t => t.length + 1).sum
  | [], h => absurd rfl h
  | [t], _ => by simp [joinFields]
  | t :: t' :: ts, _ => by
    have hrest := @length_joinFields (t' :: ts) (List.cons_ne_nil _ _)
    rw [List.map_cons, List.sum_cons, ← hrest, joinFields, List.length_append, List.length_cons]
    · omega
    · exact List.cons_ne_nil _ _

/-- **Every encoding has a length that `recv_message` admits**, and fits the buffer with its terminator. -/
theorem serializeMessage_fits (m : Message) :
    0 < (serializeMessage m).length ∧ (serializeMessage m).length + 1 ≤ MAX_BUFFER * 2 := by
  have hlength : (serializeMessage m).length + 1 = (m.fields.map fun t => t.length + 1).sum :=
    length_joinFields (List.cons_ne_nil _ _)
  have hint (i : Int32) := length_printInt_le i
  have h1 := m.sender.fits
  have h2 := m.filename.fits
  have h3 := m.foldername.fits
  have h4 := m.targetPath.fits
  have h5 := m.targetUser.fits
  have h6 := m.checkpointTag.fits
  have h7 := m.data.fits
  have i1 := hint m.type
  have i2 := hint m.status
  have i3 := hint m.sentenceIndex
  have i4 := hint m.wordIndex
  have i5 := hint m.ssId
  have i6 := hint m.clientPort
  have i7 := hint m.nmPort
  have i8 := hint m.access
  simp only [Message.fields, List.map_cons, List.map_nil, List.sum_cons, List.sum_nil] at hlength
  unfold MAX_USERNAME at h1 h5 h6
  unfold MAX_FILENAME at h2 h3
  unfold MAX_PATH at h4
  unfold MAX_BUFFER at h7 ⊢
  omega

/-- The frame of a message. -/
def Message.frame (m : Message) : WireFrame where
  body := textBytes (serializeMessage m)
  pos := by
    rw [textBytes, List.length_map]
    exact (serializeMessage_fits m).1
  fits := by
    rw [textBytes, List.length_map]
    exact (serializeMessage_fits m).2

theorem Message.frame_message (m : Message) : m.frame.message = deserializeMessage (serializeMessage m) := by
  rw [WireFrame.message, Message.frame, bufferText_textBytes]

end NetworkFileShare
