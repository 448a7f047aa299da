import NetworkFileShare.Lib.Separator
import NetworkFileShare.Message

/-!
# Separators inside names

A field of an encoded message is found by counting separators. Only the data, which come last, may hold one.

* `Message.front` : the pieces in front of the data that a decoder sees; `deserialize_pieces` : what it makes of them;
* `Message.SameCore` : the numbers and the data that come back; `Message.Disguised` : the names hold separators, and
  what is read in their place happens to be the same;
* `core_kept_iff` : the numbers and the data come back exactly when the names hold no separator, or are disguised.
-/

namespace NetworkFileShare

/-! ## Pieces between separators -/

theorem joinFields_eq : ∀ ts : List CStr, joinFields ts = [bar].intercalate ts
  | [] => rfl
  | [t] => by simp [joinFields]
  | t :: t' :: ts => by
    rw [joinFields, joinFields_eq (t' :: ts), List.intercalate_cons_cons]
    · simp
    · simp

/-- A text is the join of its pieces. -/
theorem joinFields_splitOn (t : CStr) : joinFields (t.splitOn bar) = t := by
  rw [joinFields_eq, List.intercalate_splitOn]

theorem joinFields_snoc {ts : List CStr} (hne : ts ≠ []) (d : CStr) :
    joinFields (ts ++ [d]) = joinFields ts ++ bar :: d := by
  induction ts with
  | nil => exact absurd rfl hne
  | cons t ts ih =>
    cases ts with
    | nil => rfl
    | cons t' ts =>
      show t ++ bar :: joinFields (t' :: ts ++ [d]) = t ++ bar :: joinFields (t' :: ts) ++ bar :: d
      rw [ih (List.cons_ne_nil _ _)]
      simp

/-- The last fields may be joined first. -/
theorem joinFields_append {ts us : List CStr} (hne : us ≠ []) :
    joinFields (ts ++ [joinFields us]) = joinFields (ts ++ us) := by
  induction ts with
  | nil => rfl
  | cons t ts ih =>
    have hcons : ∀ vs : List CStr, vs ≠ [] → joinFields (t :: vs) = t ++ bar :: joinFields vs := by
      rintro (_ | ⟨v, vs⟩) hvs
      · exact absurd rfl hvs
      · rfl
    rw [List.cons_append, List.cons_append, hcons _ (by simp), hcons _ (by simp [hne]), ih]

/-- The pieces of joined fields are the pieces of the fields. -/
theorem splitOn_joinFields {ts : List CStr} (hne : ts ≠ []) :
    (joinFields ts).splitOn bar = (ts.map (·.splitOn bar)).flatten := by
  induction ts with
  | nil => exact absurd rfl hne
  | cons t ts ih =>
    cases ts with
    | nil => simp [joinFields]
    | cons t' ts =>
      rw [joinFields, List.splitOn_append_cons_self, ih (List.cons_ne_nil _ _)]
      · rfl
      · simp

/-- Every field has a piece, and a field with a separator has two. -/
theorem length_pieces (ts : List CStr) : ts.length ≤ (ts.map (·.splitOn bar)).flatten.length ∧
    ((∃ t ∈ ts, bar ∈ t) → ts.length < (ts.map (·.splitOn bar)).flatten.length) := by
  induction ts with
  | nil =>
    refine ⟨Nat.le_refl _, ?_⟩
    rintro ⟨t, ht, -⟩
    cases ht
  | cons t ts ih =>
    obtain ⟨hle, hlt⟩ := ih
    have hone : 0 < (t.splitOn bar).length := List.length_pos_iff.mpr (List.splitOn_ne_nil bar t)
    rw [List.map_cons, List.flatten_cons, List.length_append, List.length_cons]
    refine ⟨by omega, ?_⟩
    rintro ⟨u, hu, hbar⟩
    rcases List.mem_cons.mp hu with rfl | hu
    · obtain ⟨xs, ys, rfl⟩ := List.append_of_mem hbar
      have hleft : 0 < (xs.splitOn bar).length := List.length_pos_iff.mpr (List.splitOn_ne_nil bar xs)
      have hright : 0 < (ys.splitOn bar).length := List.length_pos_iff.mpr (List.splitOn_ne_nil bar ys)
      rw [List.splitOn_append_cons_self, List.length_append]
      omega
    · have hrest := hlt ⟨u, hu, hbar⟩
      omega

/-! ## What a decoder sees -/

/-- The fields in front of the data. -/
def Message.leading (m : Message) : List CStr := m.fields.dropLast

/-- The pieces in front of the data. -/
def Message.front (m : Message) : List CStr := (joinFields m.leading).splitOn bar

theorem fields_eq (m : Message) : m.fields = m.leading ++ [m.data.str] := rfl

theorem length_leading (m : Message) : m.leading.length = 14 := rfl

theorem leading_ne_nil (m : Message) : m.leading ≠ [] := fun h => by cases h

theorem namesBarFree_iff (m : Message) : m.NamesBarFree ↔ ¬ ∃ t ∈ m.leading, bar ∈ t := by
  constructor
  · rintro h ⟨t, ht, hbar⟩
    exact bar_notMem_fields h t ht hbar
  · intro h
    have hnot : ∀ t ∈ m.leading, bar ∉ t := fun t ht hbar => h ⟨t, ht, hbar⟩
    exact ⟨hnot _ (by simp [Message.leading, Message.fields]), hnot _ (by simp [Message.leading, Message.fields]),
      hnot _ (by simp [Message.leading, Message.fields]), hnot _ (by simp [Message.leading, Message.fields]),
      hnot _ (by simp [Message.leading, Message.fields]), hnot _ (by simp [Message.leading, Message.fields])⟩

theorem front_eq (m : Message) : m.front = (m.leading.map (·.splitOn bar)).flatten :=
  splitOn_joinFields (leading_ne_nil m)

theorem length_front (m : Message) : 14 ≤ m.front.length ∧ (¬ m.NamesBarFree → 14 < m.front.length) := by
  obtain ⟨hle, hlt⟩ := length_pieces m.leading
  rw [← front_eq, length_leading] at hle hlt
  refine ⟨hle, fun hbar => hlt ?_⟩
  by_contra hnone
  exact hbar ((namesBarFree_iff m).mpr hnone)

theorem length_of_mem_leading {m : Message} {t : CStr} (h : t ∈ m.leading) : t.length < MAX_BUFFER := by
  have hint : ∀ i : Int32, (printInt i.toInt).length < MAX_BUFFER := fun i =>
    lt_of_le_of_lt (length_printInt_le i) (by decide)
  have hstr : ∀ {n : Nat} (a : CArray n), n ≤ MAX_BUFFER → a.str.length < MAX_BUFFER := fun a hn =>
    lt_of_lt_of_le a.fits hn
  simp only [Message.leading, Message.fields, List.dropLast_cons_cons, List.dropLast_singleton, List.mem_cons,
    List.not_mem_nil, or_false] at h
  rcases h with rfl | rfl | rfl | rfl | rfl | rfl | rfl | rfl | rfl | rfl | rfl | rfl | rfl | rfl
  any_goals exact hint _
  all_goals exact hstr _ (by decide)

/-- The pieces in front of the data hold no separator and fit into the token buffer. -/
theorem front_piece {m : Message} {p : CStr} (h : p ∈ m.front) : bar ∉ p ∧ p.length < MAX_BUFFER := by
  rw [front_eq] at h
  obtain ⟨ps, hps, hp⟩ := List.mem_flatten.mp h
  obtain ⟨t, ht, rfl⟩ := List.mem_map.mp hps
  have hlength : p.length ≤ t.length := (infix_of_mem_splitOn hp).length_le
  exact ⟨notMem_of_mem_splitOn hp, lt_of_le_of_lt hlength (length_of_mem_leading ht)⟩

/-- What the last field of a decoder holds: the pieces that are left, and the data. -/
def Message.rest (m : Message) : CStr := joinFields (m.front.drop 14 ++ [m.data.str])

/-- **What a decoder makes of a message**: the first fourteen pieces are stored one after another, and then the
rest. -/
theorem deserialize_pieces (m : Message) : deserializeMessage (serializeMessage m) =
    storeField 14 m.rest (storeFields 0 (m.front.take 14) initMessage) := by
  have htake : (m.front.take 14).length = 14 := by
    rw [List.length_take]
    exact Nat.min_eq_left (length_front m).1
  have hjoined : serializeMessage m = joinFields (m.front.take 14 ++ [m.rest]) := by
    rw [Message.rest, joinFields_append (by simp), ← List.append_assoc, List.take_append_drop,
      joinFields_snoc (by rw [Message.front]; exact List.splitOn_ne_nil _ _), Message.front, joinFields_splitOn,
      serializeMessage, fields_eq, joinFields_snoc (leading_ne_nil m)]
  have hloop := deserializeFrom_joinFields (m.front.take 14 ++ [m.rest]) 0 initMessage
    (by rw [List.length_append, htake]; rfl) (by simp)
    (fun p hp => by
      rw [List.dropLast_concat] at hp
      exact (front_piece (List.mem_of_mem_take hp)).1)
  rw [List.length_append, htake] at hloop
  rw [deserializeMessage, hjoined]
  refine hloop.trans ?_
  have hstore : ∀ (ts : List CStr) (field : Nat) (t : CStr) (msg : Message),
      storeFields field (ts ++ [t]) msg = storeField (field + ts.length) t (storeFields field ts msg) := by
    intro ts
    induction ts with
    | nil => exact fun _ _ _ => rfl
    | cons u us ih =>
      intro field t msg
      rw [List.cons_append, storeFields, ih, storeFields, List.length_cons, Nat.add_right_comm, Nat.add_assoc]
  rw [hstore, htake]

/-! ## Numbers and data -/

/-- The numbers that the requests are about, by field. -/
def Message.number (m : Message) : Nat → Int32
  | 6 => m.sentenceIndex
  | 7 => m.wordIndex
  | 8 => m.ssId
  | 11 => m.access
  | _ => 0

/-- What a number field holds after a token: an empty one leaves what was there. -/
def readNumber (initial : Int32) (token : CStr) : Int32 := if token = [] then initial else atoi token

theorem number_storeField_of_ne {field k : Nat} (h : field ≠ k) (token : CStr) (msg : Message) :
    (storeField field token msg).number k = msg.number k := by
  unfold storeField
  split
  · unfold readField
    split
    all_goals
      unfold Message.number
      split
      all_goals first | rfl | exact absurd rfl h
  · unfold emptyField
    split
    all_goals
      unfold Message.number
      split
      all_goals rfl

theorem number_storeField_self {k : Nat} (hk : k ∈ [6, 7, 8, 11]) {token : CStr} (hfits : token.length < MAX_BUFFER)
    (msg : Message) : (storeField k token msg).number k = readNumber (msg.number k) token := by
  rw [storeField_of_fits hfits, readNumber]
  simp only [List.mem_cons, List.not_mem_nil, or_false] at hk
  by_cases hempty : token = []
  · rw [if_neg (not_not.mpr hempty), if_pos hempty]
    rcases hk with rfl | rfl | rfl | rfl <;> rfl
  · rw [if_pos hempty, if_neg hempty]
    rcases hk with rfl | rfl | rfl | rfl <;> rfl

/-- A number is read from the token at its field. -/
theorem number_storeFields {k : Nat} (hk : k ∈ [6, 7, 8, 11]) {ts : List CStr} (hfits : ∀ t ∈ ts, t.length < MAX_BUFFER)
    (field : Nat) (msg : Message) : (storeFields field ts msg).number k =
      if field ≤ k then ((ts[k - field]?).map (readNumber (msg.number k))).getD (msg.number k) else msg.number k := by
  induction ts generalizing field msg with
  | nil =>
    rw [storeFields]
    split <;> rfl
  | cons t ts ih =>
    rw [storeFields, ih fun u hu => hfits u (List.mem_cons_of_mem t hu)]
    rcases Nat.lt_trichotomy field k with hlt | rfl | hgt
    · obtain ⟨d, rfl⟩ : ∃ d, k = field + 1 + d := ⟨k - (field + 1), by omega⟩
      rw [number_storeField_of_ne (by omega), if_pos (by omega), if_pos (by omega),
        show field + 1 + d - field = d + 1 by omega, show field + 1 + d - (field + 1) = d by omega,
        List.getElem?_cons_succ]
    · rw [if_neg (by omega), if_pos (Nat.le_refl _), number_storeField_self hk (hfits t List.mem_cons_self),
        Nat.sub_self]
      rfl
    · rw [if_neg (by omega), if_neg (by omega), number_storeField_of_ne (by omega)]

/-- No field but the last has data. -/
theorem data_storeFields {ts : List CStr} {field : Nat} (hfield : field + ts.length ≤ 14) {msg : Message}
    (hempty : msg.data = .empty _) : (storeFields field ts msg).data = .empty _ := by
  induction ts generalizing field msg with
  | nil => exact hempty
  | cons t ts ih =>
    rw [List.length_cons] at hfield
    refine ih (by omega) ?_
    unfold storeField
    split
    · unfold readField
      split
      all_goals first | exact hempty | omega
    · unfold emptyField
      split
      all_goals first | exact hempty | rfl

theorem data_storeField_last {msg : Message} (hempty : msg.data = .empty _) (token : CStr) :
    (storeField 14 token msg).data = .strncpy (MAX_BUFFER - 1) token := by
  rw [storeField]
  split
  · apply CArray.ext'
    show (token.take (MAX_BUFFER - 1)).take (MAX_BUFFER - 1) = token.take (MAX_BUFFER - 1)
    rw [List.take_take, Nat.min_self]
  · rename_i hnil
    apply CArray.ext'
    show msg.data.str = token.take (MAX_BUFFER - 1)
    rw [hempty, not_not.mp hnil]
    rfl

/-! ## What comes back -/

/-- The numbers and the data are those of `m`. -/
structure Message.SameCore (m m' : Message) : Prop where
  sentenceIndex : m'.sentenceIndex = m.sentenceIndex
  wordIndex : m'.wordIndex = m.wordIndex
  ssId : m'.ssId = m.ssId
  access : m'.access = m.access
  data : m'.data = m.data

/-- The piece that comes at a field reads as the number of `m`. -/
def Message.ReadsSame (m : Message) (k : Nat) : Prop :=
  readNumber (initMessage.number k) (m.front.getD k []) = m.number k

/-- The data fill their array and go on like the pieces that are shifted in front of them, and the pieces that are
shifted to the numbers read the same. -/
structure Message.Disguised (m : Message) : Prop where
  full : m.data.str.length = MAX_BUFFER - 1
  repeats : m.data.str <+: m.rest
  numbers : ∀ k ∈ [6, 7, 8, 11], m.ReadsSame k

theorem number_deserialize (m : Message) {k : Nat} (hk : k ∈ [6, 7, 8, 11]) :
    (deserializeMessage (serializeMessage m)).number k = readNumber (initMessage.number k) (m.front.getD k []) := by
  have hlt : k < 14 := by
    simp only [List.mem_cons, List.not_mem_nil, or_false] at hk
    omega
  have hget : (m.front.take 14)[k]? = some (m.front.getD k []) := by
    have hk' : k < m.front.length := lt_of_lt_of_le hlt (length_front m).1
    rw [List.getElem?_take_of_lt hlt, List.getD_eq_getElem?_getD, List.getElem?_eq_getElem hk']
    rfl
  rw [deserialize_pieces, number_storeField_of_ne (by omega),
    number_storeFields hk fun t ht => (front_piece (List.mem_of_mem_take ht)).2]
  rw [if_pos (Nat.zero_le k), Nat.sub_zero, hget]
  rfl

theorem data_deserialize (m : Message) :
    (deserializeMessage (serializeMessage m)).data = .strncpy (MAX_BUFFER - 1) m.rest := by
  rw [deserialize_pieces]
  refine data_storeField_last (data_storeFields ?_ rfl) m.rest
  rw [List.length_take]
  omega

/-- What a decoder reads, field by field. -/
theorem sameCore_iff (m : Message) : m.SameCore (deserializeMessage (serializeMessage m)) ↔
    (∀ k ∈ [6, 7, 8, 11], m.ReadsSame k) ∧ m.rest.take (MAX_BUFFER - 1) = m.data.str := by
  have hnumber := fun k hk => number_deserialize m (k := k) hk
  have hdata := data_deserialize m
  constructor
  · intro h
    refine ⟨fun k hk => ?_, ?_⟩
    · rw [Message.ReadsSame, ← hnumber k hk]
      simp only [List.mem_cons, List.not_mem_nil, or_false] at hk
      rcases hk with rfl | rfl | rfl | rfl
      · exact h.sentenceIndex
      · exact h.wordIndex
      · exact h.ssId
      · exact h.access
    · rw [← h.data, hdata]
      rfl
  · rintro ⟨hreads, hrest⟩
    have hsame : ∀ k ∈ [6, 7, 8, 11], (deserializeMessage (serializeMessage m)).number k = m.number k :=
      fun k hk => (hnumber k hk).trans (hreads k hk)
    refine ⟨hsame 6 (by decide), hsame 7 (by decide), hsame 8 (by decide), hsame 11 (by decide), ?_⟩
    rw [hdata]
    exact CArray.ext' hrest

/-- **The numbers and the data come back exactly when** the names hold no separator, or are disguised. -/
theorem core_kept_iff (m : Message) :
    m.SameCore (deserializeMessage (serializeMessage m)) ↔ m.NamesBarFree ∨ m.Disguised := by
  constructor
  · intro h
    refine or_iff_not_imp_left.mpr fun hbar => ?_
    obtain ⟨hreads, hrest⟩ := (sameCore_iff m).mp h
    have hshifted : m.front.drop 14 ≠ [] := by
      have hlength := (length_front m).2 hbar
      intro hnil
      rw [List.drop_eq_nil_iff] at hnil
      omega
    -- the rest is longer than the data, so that only data which fill their array can come back
    have hlonger : m.data.str.length < m.rest.length := by
      rw [Message.rest, joinFields_snoc hshifted, List.length_append, List.length_cons]
      omega
    have hlength := congrArg List.length hrest
    have hfits := m.data.fits
    rw [List.length_take] at hlength
    exact ⟨by omega, hrest ▸ List.take_prefix _ _, hreads⟩
  · rintro (hbar | hdisguised)
    · rw [deserialize_serialize hbar]
      exact ⟨rfl, rfl, rfl, rfl, rfl⟩
    · refine (sameCore_iff m).mpr ⟨hdisguised.numbers, ?_⟩
      rw [← hdisguised.full]
      exact (List.prefix_iff_eq_take.mp hdisguised.repeats).symm

/-- A user whose name holds a separator unlocks sentence 0 of a file. -/
def barMessage : Message :=
  { initMessage with
    sender := ⟨lit "eve|x", by decide⟩
    filename := ⟨lit "plan.txt", by decide⟩
    targetPath := ⟨lit "7", by decide⟩
    sentenceIndex := 0
    data := ⟨lit "hello", by decide⟩ }

/-- **A separator in a name shifts the numbers and the data.** -/
theorem bar_shifts : ∃ m : Message, m.sender.str = lit "eve|x" ∧ m.sentenceIndex = 0 ∧
    (deserializeMessage (serializeMessage m)).sentenceIndex = 7 ∧
    m.data.str = lit "hello" ∧ (deserializeMessage (serializeMessage m)).data.str = lit "|hello" :=
  ⟨barMessage, rfl, by decide, by decide, rfl, by decide⟩

end NetworkFileShare
