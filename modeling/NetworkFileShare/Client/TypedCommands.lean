import NetworkFileShare.Client.CommandLine
import NetworkFileShare.Client.EndToEnd
import NetworkFileShare.Framing

/-!
# Typed commands at the name server

* `Place.Holds`, `Asked` : what a message says of the arguments of a command; `question_asked` : the copies say it;
* `Errand.Sends` : the messages to the name server that an errand comes to;
* `typed_requests` : from the lines that are typed to the handlers of the name server;
* `view_flags` : the flags of `VIEW` that the name server sees.
-/

namespace NetworkFileShare
namespace Client

open Traced (InBounds)

variable {u : Username} {v : Verb} {args : List CStr} {msg msg' : Message} {arg : CStr} {p q : Place}

/-! ## Arguments in their places -/

/-- The field has the argument. -/
def Place.Holds (arg : CStr) (msg : Message) : Place → Prop
  | .filename => msg.filename.str = arg
  | .foldername => msg.foldername.str = arg
  | .targetPath => msg.targetPath.str = arg
  | .targetUser => msg.targetUser.str = arg
  | .checkpointTag => msg.checkpointTag.str = arg
  | .access => flagAccess arg = some msg.access
  | .sentenceIndex => msg.sentenceIndex = atoi arg

theorem str_strncpy_whole {n : Nat} [Fact (n - 1 < n)] {s : CStr} (h : s.length < n) :
    (CArray.strncpy (n - 1) s : CArray n).str = s :=
  List.take_of_length_le (Nat.le_sub_one_of_lt h)

theorem Place.put_holds (h : p.put arg msg = some msg') (hfits : ∀ n ∈ p.room, arg.length < n) : p.Holds arg msg' := by
  cases p with
  | filename | foldername | targetPath | targetUser | checkpointTag =>
    obtain rfl := Option.some.inj h
    exact str_strncpy_whole (hfits _ rfl)
  | access =>
    obtain ⟨access, haccess, rfl⟩ := Option.map_eq_some_iff.mp h
    exact haccess
  | sentenceIndex =>
    obtain rfl := Option.some.inj h
    rfl

/-- The other places, and what is no place. -/
structure Place.Keeps (p : Place) (msg msg' : Message) : Prop where
  holds : ∀ q ≠ p, ∀ a, q.Holds a msg → q.Holds a msg'
  type : msg'.type = msg.type
  sender : msg'.sender = msg.sender
  data : msg'.data = msg.data

theorem Place.put_keeps (h : p.put arg msg = some msg') : p.Keeps msg msg' := by
  cases p with
  | filename | foldername | targetPath | targetUser | checkpointTag | sentenceIndex =>
    obtain rfl := Option.some.inj h
    exact ⟨fun q hq a hold => by cases q <;> first | exact hold | exact absurd rfl hq, rfl, rfl, rfl⟩
  | access =>
    obtain ⟨access, -, rfl⟩ := Option.map_eq_some_iff.mp h
    exact ⟨fun q hq a hold => by cases q <;> first | exact hold | exact absurd rfl hq, rfl, rfl, rfl⟩

theorem Place.put_barFree (h : p.put arg msg = some msg') (harg : bar ∉ arg) (hmsg : msg.NamesBarFree) :
    msg'.NamesBarFree := by
  have htake {n : Nat} : bar ∉ arg.take n := fun hmem => harg (List.mem_of_mem_take hmem)
  obtain ⟨h1, h2, h3, h4, h5, h6⟩ := hmsg
  cases p with
  | filename =>
    obtain rfl := Option.some.inj h
    exact ⟨h1, htake, h3, h4, h5, h6⟩
  | foldername =>
    obtain rfl := Option.some.inj h
    exact ⟨h1, h2, htake, h4, h5, h6⟩
  | targetPath =>
    obtain rfl := Option.some.inj h
    exact ⟨h1, h2, h3, htake, h5, h6⟩
  | targetUser =>
    obtain rfl := Option.some.inj h
    exact ⟨h1, h2, h3, h4, htake, h6⟩
  | checkpointTag =>
    obtain rfl := Option.some.inj h
    exact ⟨h1, h2, h3, h4, h5, htake⟩
  | access =>
    obtain ⟨access, -, rfl⟩ := Option.map_eq_some_iff.mp h
    exact ⟨h1, h2, h3, h4, h5, h6⟩
  | sentenceIndex =>
    obtain rfl := Option.some.inj h
    exact ⟨h1, h2, h3, h4, h5, h6⟩

/-- Arguments in different places. -/
theorem putAll_holds {placed : List (Place × CStr)} (hplaces : (placed.map Prod.fst).Nodup)
    (hfits : ∀ x ∈ placed, ∀ n ∈ x.1.room, x.2.length < n) (h : putAll placed msg = some msg') :
    (∀ x ∈ placed, x.1.Holds x.2 msg') ∧ (∀ q ∉ placed.map Prod.fst, ∀ a, q.Holds a msg → q.Holds a msg') ∧
      msg'.type = msg.type ∧ msg'.sender = msg.sender ∧ msg'.data = msg.data := by
  induction placed generalizing msg with
  | nil =>
    obtain rfl := Option.some.inj h
    exact ⟨fun x hx => absurd hx List.not_mem_nil, fun _ _ _ hq => hq, rfl, rfl, rfl⟩
  | cons x placed ih =>
    obtain ⟨place, arg⟩ := x
    obtain ⟨hfirst, hrest⟩ := List.nodup_cons.mp hplaces
    obtain ⟨msg₁, hput, hall⟩ := Option.bind_eq_some_iff.mp h
    have hkeeps := Place.put_keeps hput
    obtain ⟨hholds, hothers, htype, hsender, hdata⟩ :=
      ih hrest (fun y hy => hfits y (List.mem_cons_of_mem _ hy)) hall
    refine ⟨fun y hy => ?_, fun q hq a hold => ?_, htype.trans hkeeps.type, hsender.trans hkeeps.sender,
      hdata.trans hkeeps.data⟩
    · rcases List.mem_cons.mp hy with rfl | hy
      · exact hothers place hfirst arg (Place.put_holds hput (hfits _ List.mem_cons_self))
      · exact hholds y hy
    · obtain ⟨hne, hq⟩ := not_or.mp (mt List.mem_cons.mpr hq)
      exact hothers q hq a (hkeeps.holds q hne a hold)

theorem putAll_barFree {placed : List (Place × CStr)} (hargs : ∀ x ∈ placed, bar ∉ x.2) (hmsg : msg.NamesBarFree)
    (h : putAll placed msg = some msg') : msg'.NamesBarFree := by
  induction placed generalizing msg with
  | nil =>
    obtain rfl := Option.some.inj h
    exact hmsg
  | cons x placed ih =>
    obtain ⟨msg₁, hput, hall⟩ := Option.bind_eq_some_iff.mp h
    exact ih (fun y hy => hargs y (List.mem_cons_of_mem _ hy))
      (Place.put_barFree hput (hargs x List.mem_cons_self) hmsg) hall

/-! ## Questions -/

/-- The message says what was typed; the sentence of `WRITE` is for the storage server. -/
structure Asked (u : Username) (v : Verb) (args : List CStr) (msg : Message) : Prop where
  type : msg.type = v.asks
  sender : msg.sender = u
  needed : v.needs.length ≤ args.length
  holds : ∀ x ∈ v.placed args, (v.goal = .session → x.1 = .filename) → x.1.Holds x.2 msg
  flags : v.goal = .listing → msg.data.str = if args = [] then [] else space :: args.flatten

theorem places_nodup : ∀ v ∈ verbs, (v.needs ++ v.takes).Nodup := by
  simp [verbs]

theorem session_writes : ∀ v ∈ verbs, v.goal = .session → MSG_WRITE = v.asks := by
  simp [verbs]

/-- The rows name the types that the name server has these handlers for. -/
theorem verbs_served {prior : Message} : ∀ v ∈ verbs, msg.type = v.asks →
    handleClientMessage prior msg = v.served prior msg := by
  simp only [verbs, List.forall_mem_cons]
  exact ⟨fun h => (HandledBy.view h).eq, fun h => (HandledBy.locate (.inl h)).eq, fun h => (HandledBy.create h).eq,
    fun h => (HandledBy.locate (.inr (.inl h))).eq, fun h => (HandledBy.delete h).eq, fun h => (HandledBy.info h).eq,
    fun h => (HandledBy.locate (.inl h)).eq, fun h => (HandledBy.list h).eq, fun h => (HandledBy.access (.inl h)).eq,
    fun h => (HandledBy.access (.inr h)).eq, fun h => (HandledBy.exec h).eq,
    fun h => (HandledBy.locate (.inr (.inr (.inr h)))).eq, fun h => (HandledBy.createFolder h).eq,
    fun h => (HandledBy.move h).eq, fun h => (HandledBy.viewFolder h).eq, fun h => (HandledBy.checkpoint (.inl h)).eq,
    fun h => (HandledBy.checkpoint (.inr (.inl h))).eq, fun h => (HandledBy.checkpoint (.inr (.inr (.inl h)))).eq,
    fun h => (HandledBy.checkpoint (.inr (.inr (.inr h)))).eq, fun h => (HandledBy.requestAccess h).eq,
    fun h => (HandledBy.viewRequests h).eq, fun h => (HandledBy.approve h).eq, fun h => (HandledBy.deny h).eq,
    fun v hv => absurd hv List.not_mem_nil⟩

/-- The messages to the name server that an errand comes to: a session asks for the file whenever it connects, and for
nothing else (`WriteGood`). -/
def Errand.Sends : Errand → List Message → Prop
  | .nothing, sent | .leaves, sent | .shows, sent => sent = []
  | .asks msg, sent | .reaches msg _, sent => sent = [msg]
  | .writes w, sent => ∃ n, sent = List.replicate n w.accessMessage

section
variable {sent : List Message} {m : Message} {ws : List CStr}

/-- The question of a row says what was typed. -/
theorem question_holds (hv : v ∈ verbs) (hfits : v.Fits args) (h : v.question u args = some msg) :
    v.needs.length ≤ args.length ∧ msg.type = v.asks ∧ msg.sender = u ∧ msg.data.str = [] ∧
      ∀ x ∈ v.placed args, x.1.Holds x.2 msg := by
  unfold Verb.question at h
  split at h
  · cases h
  · rename_i hplenty
    have hneeds : v.needs.length ≤ args.length := Nat.not_lt.mp hplenty
    have hplaces : ((v.placed args).map Prod.fst).Nodup := by
      rw [Verb.placed, List.zip_eq_zip_take_min, List.map_fst_zip (by simp)]
      exact (places_nodup v hv).sublist (List.take_sublist _ _)
    obtain ⟨hholds, -, htype, hsender, hdata⟩ := putAll_holds hplaces (hfits hneeds) h
    exact ⟨hneeds, htype, hsender, congrArg CArray.str hdata, hholds⟩

theorem holds_data {d : CArray MAX_BUFFER} (h : p.Holds arg msg) : p.Holds arg { msg with data := d } := by
  cases p <;> exact h

/-- The messages of a row's errand: the question, with the flags of a listing, and of a session the name only. -/
theorem message_of_sends (h : (v.errand u args).Sends sent) (hm : m ∈ sent) : ∃ msg, v.question u args = some msg ∧
    ((v.goal ≠ .listing ∧ m = msg) ∨
      (v.goal = .listing ∧
        m = if args = [] then msg else { msg with data := .strncpy (MAX_BUFFER - 1) (space :: args.flatten) }) ∨
      (v.goal = .session ∧ m = WriteCommand.accessMessage ⟨u, msg.filename, msg.sentenceIndex⟩)) := by
  unfold Verb.errand at h
  cases hquestion : v.question u args with
  | none =>
    rw [hquestion] at h
    obtain rfl : sent = [] := h
    cases hm
  | some msg =>
    rw [hquestion] at h
    dsimp only at h
    refine ⟨msg, rfl, ?_⟩
    cases hgoal : v.goal with
    | answer | storage type =>
      rw [hgoal] at h
      obtain rfl : sent = [msg] := h
      exact Or.inl ⟨nofun, List.mem_singleton.mp hm⟩
    | listing =>
      rw [hgoal] at h
      obtain rfl : sent = [_] := h
      exact Or.inr (Or.inl ⟨rfl, List.mem_singleton.mp hm⟩)
    | session =>
      rw [hgoal] at h
      obtain ⟨n, rfl⟩ : ∃ n, sent = List.replicate n _ := h
      exact Or.inr (Or.inr ⟨rfl, List.eq_of_mem_replicate hm⟩)

/-- Every message of a row's errand says what was typed. -/
theorem asked_of_sends (hv : v ∈ verbs) (hfits : v.Fits args) (hline : args.flatten.length + 1 < MAX_BUFFER)
    (h : (v.errand u args).Sends sent) (hm : m ∈ sent) : Asked u v args m := by
  obtain ⟨msg, hquestion, hmessage⟩ := message_of_sends h hm
  obtain ⟨hneeds, htype, hsender, hdata, hholds⟩ := question_holds hv hfits hquestion
  rcases hmessage with ⟨hgoal, rfl⟩ | ⟨-, rfl⟩ | ⟨hgoal, rfl⟩
  · exact ⟨htype, hsender, hneeds, fun x hx _ => hholds x hx, fun hlisting => absurd hlisting hgoal⟩
  · split
    · rename_i hnone
      exact ⟨htype, hsender, hneeds, fun x hx _ => hholds x hx, fun _ => by rw [if_pos hnone, hdata]⟩
    · rename_i hsome
      refine ⟨htype, hsender, hneeds, fun x hx _ => holds_data (hholds x hx), fun _ => ?_⟩
      rw [if_neg hsome]
      exact str_strncpy_whole (by rwa [List.length_cons])
  · refine ⟨session_writes v hv hgoal, rfl, hneeds, fun x hx hname => ?_, fun hlisting => ?_⟩
    · have hhold := hholds x hx
      rw [hname hgoal] at hhold ⊢
      exact hhold
    · rw [hgoal] at hlisting
      cases hlisting

theorem barFree_of_sends (hu : bar ∉ u.str) (hargs : ∀ a ∈ args, bar ∉ a) (h : (v.errand u args).Sends sent)
    (hm : m ∈ sent) : m.NamesBarFree := by
  obtain ⟨msg, hquestion, hmessage⟩ := message_of_sends h hm
  have hfree : msg.NamesBarFree := by
    unfold Verb.question at hquestion
    split at hquestion
    · cases hquestion
    · refine putAll_barFree (fun x hx => hargs x.2 (List.of_mem_zip hx).2) ?_ hquestion
      exact ⟨hu, List.not_mem_nil, List.not_mem_nil, List.not_mem_nil, List.not_mem_nil, List.not_mem_nil⟩
  rcases hmessage with ⟨-, rfl⟩ | ⟨-, rfl⟩ | ⟨-, rfl⟩
  · exact hfree
  · split <;> exact hfree
  · exact ⟨hu, hfree.2.1, List.not_mem_nil, List.not_mem_nil, List.not_mem_nil, List.not_mem_nil⟩

/-- A line of which something is sent names a row. -/
theorem row_of_sends (h : (errandOf u ws).Sends sent) (hm : m ∈ sent) :
    ∃ v ∈ verbs, ∃ args, ws = v.name :: args ∧ verbOf verbs v.name = some v ∧ (v.errand u args).Sends sent := by
  have hnone (h : sent = []) : False := by
    subst h
    cases hm
  cases ws with
  | nil => exact (hnone h).elim
  | cons cmd args =>
    rw [errandOf] at h
    by_cases hleaves : cmd = lit "exit" ∨ cmd = lit "quit"
    · rw [if_pos hleaves] at h
      exact (hnone h).elim
    · rw [if_neg hleaves] at h
      cases hverb : verbOf verbs cmd with
      | none =>
        rw [hverb] at h
        exact (hnone h).elim
      | some v =>
        rw [hverb] at h
        obtain rfl : v.name = cmd := by simpa using List.find?_some hverb
        exact ⟨v, List.mem_of_find?_eq_some hverb, args, rfl, hverb, h⟩

/-! ## From the lines to the handlers -/

/-- A line, and the messages to the name server that it came to. -/
structure Round where
  line : CArray MAX_BUFFER
  sent : List Transmission

/-- The line has no separator and its words have room, and the connection does not fail. -/
structure Round.Good (grows : Nat → Bool) (u : Username) (r : Round) : Prop where
  barFree : bar ∉ r.line.str
  inBounds : InBounds (commandRound u grows r.line.str).log
  sends : (commandRound u grows r.line.str).val.Sends (r.sent.map Transmission.message)
  connected : ∀ t ∈ r.sent, Accepting t.sends ∧ WordSent t.sends ∧ t.reads.Whole

/-- The message says what the line spells, and the name server has the handler of that command for it. -/
def AskedBy (u : Username) (line : CStr) (msg : Message) : Prop :=
  ∃ v ∈ verbs, ∃ args, Spells isDelim (v.name :: args) (afterTrim line) ∧ Asked u v args msg ∧
    ∀ prior, handleClientMessage prior msg = v.served prior msg

variable {grows : Nat → Bool} {r : Round} {t : Transmission}

theorem Round.Good.asked (hu : bar ∉ u.str) (hgood : r.Good grows u) (ht : t ∈ r.sent) :
    AskedBy u r.line.str t.message ∧ t.message.NamesBarFree := by
  have hspells := spells_words isDelim (afterTrim r.line.str)
  have hsends := hgood.sends
  have hmessage := List.mem_map_of_mem (f := Transmission.message) ht
  -- a message has been sent, so there was memory for the words
  obtain ⟨hval, hlog⟩ := (commandRound_words grows u r.line).resolve_right fun ⟨hnothing, _⟩ => by
    rw [hnothing] at hsends
    have hnone : r.sent.map Transmission.message = [] := hsends
    rw [hnone] at hmessage
    cases hmessage
  have hfits := hlog.mp hgood.inBounds
  rw [hval] at hsends
  obtain ⟨v, hv, args, hwords, hverb, hrow⟩ := row_of_sends hsends hmessage
  rw [hwords] at hspells hfits
  have hletters := hspells.flatten_sublist.trans (afterTrim_starts r.line.str).sublist
  have hline : args.flatten.length + 1 < MAX_BUFFER := by
    have hname := List.length_pos_iff.mpr (hspells.word_of_mem List.mem_cons_self).1
    have hlength := hletters.length_le.trans_lt r.line.fits
    rw [List.flatten_cons, List.length_append] at hlength
    omega
  have hargs : ∀ a ∈ args, bar ∉ a := fun a ha hbar => hgood.barFree
    (hletters.subset (List.mem_flatten.mpr ⟨a, List.mem_cons_of_mem _ ha, hbar⟩))
  have hasked := asked_of_sends hv (hfits v hverb) hline hrow hmessage
  exact ⟨⟨v, hv, args, hspells, hasked, fun prior => verbs_served v hv hasked.type⟩,
    barFree_of_sends hu hargs hrow hmessage⟩

/-- **From the lines to the handlers**: what is typed arrives at the name server in its order, each message as it was
made unless the path of a folder is longer than a file name, and each finds the handler of the command that was typed,
with the arguments that were typed. -/
theorem typed_requests (hu : bar ∉ u.str) {rounds : List Round} (hgood : ∀ r ∈ rounds, r.Good grows u) : ∃ stream,
    (∀ stream', SendsAll (rounds.flatMap Round.sent) stream' ↔ stream' = stream) ∧
    ((recvAll ((rounds.flatMap Round.sent).map Transmission.reads) stream).1 =
        (rounds.flatMap Round.sent).map (fun t => some t.message) ↔
      ∀ r ∈ rounds, ∀ t ∈ r.sent, t.message.targetPath.str.length ≤ MAX_FILENAME - 1) ∧
    ∀ r ∈ rounds, ∀ t ∈ r.sent, AskedBy u r.line.str t.message := by
  have hall : ∀ t ∈ rounds.flatMap Round.sent, ∃ r ∈ rounds, t ∈ r.sent := fun t ht => List.mem_flatMap.mp ht
  have hconnected : ∀ t ∈ rounds.flatMap Round.sent, Accepting t.sends ∧ WordSent t.sends ∧ t.reads.Whole := by
    intro t ht
    obtain ⟨r, hr, ht⟩ := hall t ht
    exact (hgood r hr).connected t ht
  obtain ⟨stream, hstream, hframes, -⟩ :=
    framing_iff (fun t ht => (hconnected t ht).1) fun t ht => (hconnected t ht).2.2
  refine ⟨stream, hstream, ?_, fun r hr t ht => ((hgood r hr).asked hu ht).1⟩
  rw [hframes.mpr fun t ht => (hconnected t ht).2.1, List.map_inj_left]
  have hsame {r : Round} (hr : r ∈ rounds) {t : Transmission} (ht : t ∈ r.sent) :
      some (deserializeMessage (serializeMessage t.message)) = some t.message ↔
        t.message.targetPath.str.length ≤ MAX_FILENAME - 1 := by
    rw [Option.some_inj]
    exact round_trip_iff t.message ((hgood r hr).asked hu ht).2
  constructor
  · intro h r hr t ht
    exact (hsame hr ht).mp (h t (List.mem_flatMap.mpr ⟨r, hr, ht⟩))
  · intro h t ht
    obtain ⟨r, hr, ht⟩ := hall t ht
    exact (hsame hr ht).mpr (h r hr t ht)

/-- The message of `grantLine`. -/
def grantMessage : Message := { initMessage with
  type := MSG_ADDACCESS
  sender := alice
  filename := .strncpy (MAX_FILENAME - 1) (lit "notes.txt")
  targetUser := .strncpy (MAX_USERNAME - 1) (lit "bob")
  access := ACCESS_READ }

/-- A grant, and a line that is no command. -/
def grantRounds : List Round :=
  [⟨grantLine, [{ bytewise 4 with message := grantMessage }]⟩, ⟨⟨lit "grant it\n", by decide⟩, []⟩]

theorem typed_requests_grant : ∃ stream,
    (∀ stream', SendsAll (grantRounds.flatMap Round.sent) stream' ↔ stream' = stream) ∧
    ((recvAll ((grantRounds.flatMap Round.sent).map Transmission.reads) stream).1 =
        (grantRounds.flatMap Round.sent).map (fun t => some t.message) ↔
      ∀ r ∈ grantRounds, ∀ t ∈ r.sent, t.message.targetPath.str.length ≤ MAX_FILENAME - 1) ∧
    ∀ r ∈ grantRounds, ∀ t ∈ r.sent, AskedBy alice r.line.str t.message := by
  have hval (line : CArray MAX_BUFFER) : (commandRound alice (fun _ => true) line.str).val =
      errandOf alice (words isDelim (afterTrim line.str)) := (commandRound_grown (fun _ => rfl) alice line).1
  have hgood : ∀ r ∈ grantRounds, r.Good (fun _ => true) alice := by
    intro r hr
    rcases List.mem_cons.mp hr with rfl | hr
    · have hwords : words isDelim (afterTrim grantLine.str) =
          [lit "ADDACCESS", lit "-R", lit "notes.txt", lit "bob"] := by decide
      refine ⟨by decide, by decide, ?_, fun t ht => ?_⟩
      · show Errand.Sends (commandRound alice (fun _ => true) grantLine.str).val [grantMessage]
        rw [hval, hwords]
        rfl
      · obtain rfl := List.mem_singleton.mp ht
        exact ⟨bytewise_accepting (by decide), ⟨4, le_refl 4, rfl⟩, bytewise_whole 4⟩
    · obtain rfl := List.mem_singleton.mp hr
      have hwords : words isDelim (afterTrim (lit "grant it\n")) = [lit "grant", lit "it"] := by decide
      refine ⟨by decide, by decide, ?_, fun t ht => absurd ht List.not_mem_nil⟩
      show Errand.Sends (commandRound alice (fun _ => true) (lit "grant it\n")).val []
      rw [hval ⟨lit "grant it\n", by decide⟩, hwords]
      rfl
  exact typed_requests (by decide) hgood

/-! ## The flags of `VIEW` -/

theorem hasFlag_nil (flag : CChar) : hasFlag flag [] = false := by
  rw [hasFlag, List.splitOnP_nil]
  rfl

theorem hasFlag_space (s : CStr) (flag : CChar) : hasFlag flag (space :: s) = true ↔
    ∃ piece ∈ s.splitOnP isspace, piece.head? = some dash ∧ flag ∈ piece.tail := by
  have hspace : isspace space = true := by decide
  have hsplit : (space :: s).splitOnP isspace = [] :: s.splitOnP isspace :=
    List.splitOnP_append_cons_of_forall_mem (fun _ h => absurd h List.not_mem_nil) space hspace s
  rw [hasFlag, hsplit]
  simp

/-- The message of `VIEW`. -/
theorem errandOf_view (u : Username) (args : List CStr) : errandOf u (lit "VIEW" :: args) =
    .asks (if args = [] then { initMessage with type := MSG_VIEW, sender := u } else { initMessage with
      type := MSG_VIEW, sender := u, data := .strncpy (MAX_BUFFER - 1) (space :: args.flatten) }) := by
  have hverb : verbOf verbs (lit "VIEW") =
      some ⟨lit "VIEW", MSG_VIEW, [], [], .listing, fun _ => NetworkFileShare.handleView⟩ := rfl
  have hstays : ¬ (lit "VIEW" = lit "exit" ∨ lit "VIEW" = lit "quit") := by decide
  rw [errandOf, if_neg hstays, hverb]
  rfl

/-- **The flags that the name server sees** are the letters behind a dash at the beginning of the arguments, which the
client puts together with a space in front of the first one only. Where there is no other blank in them, this is the
dash of the first argument. -/
theorem view_flags (grows : Nat → Bool) (hu : bar ∉ u.str) {line : CArray MAX_BUFFER}
    (hspells : Spells isDelim (lit "VIEW" :: args) (afterTrim line.str)) :
    (∃ msg, (commandRound u grows line.str).val = .asks msg ∧ msg.arriving = msg ∧
      (∀ prior, handleClientMessage prior msg = NetworkFileShare.handleView msg) ∧
      ∀ flag, (hasFlag flag msg.data.str = true ↔
          ∃ piece ∈ args.flatten.splitOnP isspace, piece.head? = some dash ∧ flag ∈ piece.tail) ∧
        ((∀ c ∈ args.flatten, isspace c = false) → (hasFlag flag msg.data.str = true ↔
          (∃ first ∈ args.head?, first.head? = some dash) ∧ flag ∈ args.flatten.tail))) ∨
    ((commandRound u grows line.str).val = .nothing ∧ ∃ n, grows n = false) := by
  have hletters := hspells.flatten_sublist.trans (afterTrim_starts line.str).sublist
  have hfree {d : CArray MAX_BUFFER} :
      ({ initMessage with type := MSG_VIEW, sender := u, data := d } : Message).NamesBarFree :=
    ⟨hu, List.not_mem_nil, List.not_mem_nil, List.not_mem_nil, List.not_mem_nil, List.not_mem_nil⟩
  rcases commandRound_words grows u line with ⟨hval, -⟩ | ⟨hnothing, -, hmemory⟩
  · rw [hspells.words_eq] at hval
    rw [hval, errandOf_view]
    refine Or.inl ⟨_, rfl, ?_⟩
    cases args with
    | nil =>
      refine ⟨(round_trip_iff _ hfree).mpr (Nat.zero_le _), fun prior => (HandledBy.view rfl).eq, fun flag => ?_⟩
      show (hasFlag flag [] = true ↔ _) ∧ (_ → (hasFlag flag [] = true ↔ _))
      rw [hasFlag_nil]
      simp
    | cons first rest =>
      refine ⟨(round_trip_iff _ hfree).mpr (Nat.zero_le _), fun prior => (HandledBy.view rfl).eq, fun flag => ?_⟩
      have hne := (hspells.word_of_mem (List.mem_cons_of_mem _ List.mem_cons_self)).1
      have hdata : (space :: (first :: rest).flatten).length < MAX_BUFFER := by
        have hlength := hletters.length_le.trans_lt line.fits
        rw [List.flatten_cons, List.length_append] at hlength
        have hname : 1 ≤ (lit "VIEW").length := by decide
        rw [List.length_cons]
        omega
      have hstr : (CArray.strncpy (MAX_BUFFER - 1) (space :: (first :: rest).flatten) : CArray MAX_BUFFER).str =
          space :: (first :: rest).flatten := str_strncpy_whole hdata
      have hhead : (first :: rest).flatten.head? = first.head? := by
        rw [List.flatten_cons, List.head?_append_of_ne_nil _ hne]
      rw [if_neg (List.cons_ne_nil _ _), hstr, hasFlag_space]
      refine ⟨Iff.rfl, fun hblanks => ?_⟩
      rw [List.splitOnP_eq_singleton hblanks]
      simp only [List.mem_singleton, exists_eq_left, List.head?_cons, Option.mem_some_iff, exists_eq_left', hhead]
  · exact Or.inr ⟨hnothing, hmemory⟩

/-- A name with an `a` in it asks for all files. -/
def longLine : CArray MAX_BUFFER := ⟨lit "VIEW -l notes.a\n", by decide⟩

theorem view_flags_long : ∃ msg, (commandRound alice (fun _ => true) longLine.str).val = .asks msg ∧
    msg.arriving = msg ∧ (∀ prior, handleClientMessage prior msg = NetworkFileShare.handleView msg) ∧
    ∀ flag, (hasFlag flag msg.data.str = true ↔ ∃ piece ∈ [lit "-l", lit "notes.a"].flatten.splitOnP isspace,
        piece.head? = some dash ∧ flag ∈ piece.tail) ∧
      ((∀ c ∈ [lit "-l", lit "notes.a"].flatten, isspace c = false) → (hasFlag flag msg.data.str = true ↔
        (∃ first ∈ [lit "-l", lit "notes.a"].head?, first.head? = some dash) ∧
          flag ∈ [lit "-l", lit "notes.a"].flatten.tail)) :=
  (view_flags (fun _ => true) (by decide) (words_eq_iff.mp (by decide))).resolve_right
    fun ⟨_, _, hmemory⟩ => by cases hmemory

end

end Client
end NetworkFileShare
