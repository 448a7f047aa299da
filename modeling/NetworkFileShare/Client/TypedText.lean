import NetworkFileShare.Client.EndToEnd
import NetworkFileShare.FileOps.SplitMemory
import NetworkFileShare.StorageServer.Aliases

/-!
# What is typed and what is in the file

* `writeText` : what a write makes of a text; `typeText` : what all of them do, one after the other;
* `Said` : these messages were sent, and all of them were answered `SUCCESS`;
* `Typing` : what the server has after each answer; `typed_text_in_file` : what the file has at the end.
-/

namespace NetworkFileShare
open Segment

/-! ## Texts -/

/-- What `write_file_ss` makes of the text of the copy. -/
def writeText (sentIdx wordIdx : Int32) (content text : CStr) : Option CStr :=
  let fc := if (parseContent text).sentenceCount = 0 then oneEmptySentence else parseContent text
  (insertWordInSentence fc sentIdx.toInt wordIdx.toInt content).map fun r => r.1.text

/-- The text after some writes, none if one of them cannot be made. -/
def typeText : List Message → CStr → Option CStr
  | [], text => some text
  | msg :: msgs, text => (writeText msg.sentenceIndex msg.wordIndex msg.data.str text).bind (typeText msgs)

theorem typeText_snoc (msg : Message) : ∀ (msgs : List Message) (text : CStr),
    typeText (msgs ++ [msg]) text =
      (typeText msgs text).bind (writeText msg.sentenceIndex msg.wordIndex msg.data.str)
  | [], text => by
    show (writeText _ _ _ text).bind some = writeText _ _ _ text
    exact Option.bind_fun_some _
  | m :: msgs, text => by
    rw [List.cons_append, typeText, typeText, Option.bind_assoc]
    exact congrArg _ (funext fun text' => typeText_snoc msg msgs text')

/-- A write, with the words that the sentence has in the text before it. -/
def sessionWrite (msg : Message) (text : CStr) : SessionWrite where
  words := realWordCount ((parseContent text).sentences.getD msg.sentenceIndex.toInt.toNat [])
  wordIdx := msg.wordIndex
  content := msg.data.str

def sessionWrites : List Message → CStr → List SessionWrite
  | [], _ => []
  | msg :: msgs, text =>
    sessionWrite msg text ::
      sessionWrites msgs ((writeText msg.sentenceIndex msg.wordIndex msg.data.str text).getD text)

theorem sessionWrites_snoc (msg : Message) : ∀ {msgs : List Message} {text text' : CStr},
    typeText msgs text = some text' →
      sessionWrites (msgs ++ [msg]) text = sessionWrites msgs text ++ [sessionWrite msg text']
  | [], text, text', h => by
    cases h
    rfl
  | m :: msgs, text, text', h => by
    obtain ⟨text'', hwrite, htype⟩ := Option.bind_eq_some_iff.mp h
    rw [List.cons_append, sessionWrites, sessionWrites, hwrite, Option.getD_some, sessionWrites_snoc msg htype]
    rfl

/-! ## The session -/

section
variable {f : Filename} {u : Username} {i : Int32} {s t : StorageServer}

/-- What an acknowledged write puts into the copy. -/
theorem text_written (h : ServerInv s) {io : Io} {wordIdx : Int32} {content text : CStr}
    (htext : s.disk (tempPath s.id f u i) = some text) (hread : io.canRead (tempPath s.id f u i) = true)
    (ht : handleClientRequest io s (.write f u i wordIdx content) = (t, SUCCESS)) :
    ∃ text', writeText i wordIdx content text = some text' ∧ t.disk (tempPath s.id f u i) = some text' := by
  have ht : writeFileSs io s f u i wordIdx content = (t, SUCCESS) := ht
  rcases writeFileSs_cases io s f u i wordIdx content with ⟨-, hfail⟩ | ⟨x, fc, k, hget, hinsert, hwrite⟩
  · rw [ht] at hfail
    exact absurd rfl hfail
  · obtain ⟨hmem, hkey⟩ := mem_of_getWriteSession hget
    rw [h.sessions.temp_eq hmem hkey] at hinsert hwrite
    obtain rfl : t = _ := (Prod.mk.inj (ht.symm.trans hwrite)).1
    have hcopy : readFile io s.disk (tempPath s.id f u i) = some text := by rw [readFile, if_pos hread, htext]
    rw [parseTemp, parseFile_of_readFile hcopy] at hinsert
    refine ⟨fc.text, ?_, Function.update_self ..⟩
    unfold writeText
    dsimp only at hinsert ⊢
    rw [hinsert]
    rfl

end

/-! ## What the server has -/

/-- These messages were sent, and answered with `SUCCESS`. -/
def Said (msgs : List Message) (log : List (Message × Message)) : Prop :=
  log.map Prod.fst = msgs ∧ ∀ x ∈ log, x.2.status = SUCCESS

theorem said_snoc {msgs : List Message} {log : List (Message × Message)} {msg a : Message}
    (h : Said msgs (log ++ [(msg, a)])) : ∃ front, msgs = front ++ [msg] ∧ Said front log ∧ a.status = SUCCESS := by
  obtain ⟨rfl, hstatus⟩ := h
  refine ⟨log.map Prod.fst, by rw [List.map_append]; rfl, ⟨rfl, fun x hx => ?_⟩, ?_⟩
  · exact hstatus x (List.mem_append_left _ hx)
  · exact hstatus (msg, a) (by simp)

/-- The server can open the file and the copy, and the paths name the files of `ρ`. -/
def OpensAll (ρ : Path → Path) (id : Int32) (w : WriteCommand) (env : ServerEnv) : Prop :=
  env.file = ρ ∧ env.io.canRead (filePath id w.filename) = true ∧ env.io.canWrite (filePath id w.filename) = true ∧
    env.io.canRead (tempPath id w.filename w.sender w.sentIdx) = true

/-- A request of another user on the file, short of a commit, whose copy is neither the file nor the session's copy. -/
def OthersEdit (ρ : Path → Path) (id : Int32) (w : WriteCommand) (e : ServerEnv × Operation) : Prop :=
  e.1.file = ρ ∧ ∃ r, e.2 = .client r ∧ OtherEdit w.filename w.sender r ∧ ∀ v j, r.names = some (w.filename, v, j) →
    ρ (tempPath id w.filename v j) ≠ ρ (filePath id w.filename) ∧
      ρ (tempPath id w.filename v j) ≠ ρ (tempPath id w.filename w.sender w.sentIdx)

/-- What the server has when it has answered so much: the file, the copy with the writes, and the file with the copy's
text, as far as `Kept` says. -/
structure Typing (ρ : Path → Path) (id : Int32) (w : WriteCommand) (m : CStr) (log : List (Message × Message))
    (s : StorageServer) : Prop where
  sameId : s.id = id
  inv : StoreInv s
  before : log = [] → s.pendingOf w.filename = [] ∧ s.disk (ρ (filePath id w.filename)) = some m
  copy : ∀ msgs, Said (w.lockMessage :: msgs) log → (∀ msg ∈ msgs, w.Writes msg) → ∃ text, typeText msgs m = some text ∧
    s.disk (ρ (tempPath id w.filename w.sender w.sentIdx)) = some text ∧
    Stdio.Shows ρ id w.filename w.sender w.sentIdx m (sessionWrites msgs m) s ∧ w.sentIdx.toInt ≤ (cores m).length
  file : ∀ msgs, Said (w.lockMessage :: msgs ++ [w.unlockMessage]) log → (∀ msg ∈ msgs, w.Writes msg) →
    ∃ text m', typeText msgs m = some text ∧ s.disk (ρ (filePath id w.filename)) = some m' ∧
      (nonBlank m' = nonBlank text ↔
        Kept (parseContent m).sentenceCount w.sentIdx.toInt.toNat (sessionWrites msgs m))

/-- Only the reply to a `READ` has a text. -/
theorem handled_of_status {ρ : Path → Path} {io : FsIo} {s : StorageServer} {r : Request} (hr : ∀ f, r ≠ .read f)
    (h : (Stdio.handled ρ io s (.client r)).2.status = SUCCESS) :
    Stdio.handled ρ io s (.client r) = ((Stdio.handled ρ io s (.client r)).1, ⟨SUCCESS, []⟩) := by
  have hdata : Returns (fun x : StorageServer × Reply => x.2.data = []) (Stdio.handle io.toIo s (.client r)) := by
    cases r with
    | read f => exact absurd rfl (hr f)
    | _ => exact Returns.after fun _ => Returns.pure rfl
  have hnil := Stdio.handled_meets hdata (fun _ _ _ h => h) ρ
  refine Prod.ext rfl ?_
  rw [← h, ← hnil]

namespace Typing
variable {ρ : Path → Path} {id : Int32} {w : WriteCommand} {m : CStr} {log : List (Message × Message)}
  {s t : StorageServer} {env : ServerEnv}

/-- Others edit. -/
theorem others (h : Typing ρ id w m log s)
    (hfile : ρ (tempPath id w.filename w.sender w.sentIdx) ≠ ρ (filePath id w.filename)) {e : ServerEnv × Operation}
    (he : OthersEdit ρ id w e) (hstep : OtherStep s e t) : Typing ρ id w m log t := by
  obtain ⟨⟨_, io⟩, _⟩ := e
  obtain ⟨rfl, r, rfl, hr, hothers⟩ := he
  obtain rfl := h.sameId
  have hdone : Stdio.StoreStep _ s (io, .client r) t := hstep
  have huntouched := Stdio.untouched_of_edit h.inv hr hfile hothers io
  rw [← show t = _ from hstep] at huntouched
  have hmain : t.disk (_) = s.disk (_) := huntouched.main
  refine ⟨huntouched.id, (hdone.effect h.inv).inv, fun hlog => ?_, fun msgs hsaid hwrites => ?_,
    fun msgs hsaid hwrites => ?_⟩
  · obtain ⟨hidle, hm⟩ := h.before hlog
    exact ⟨huntouched.idle.trans hidle, hmain.trans hm⟩
  · obtain ⟨text, htype, hcopy, hsession, hle⟩ := h.copy msgs hsaid hwrites
    exact ⟨text, htype, huntouched.copy.trans hcopy, hsession.untouched hdone huntouched, hle⟩
  · obtain ⟨text, m', htype, hdisk, hkept⟩ := h.file msgs hsaid hwrites
    exact ⟨text, m', htype, hmain.trans hdisk, hkept⟩

/-- The lock is given. -/
theorem locked (h : Typing ρ id w m [] s)
    (hone : Set.InjOn ρ {p | Stdio.SessionPaths id w.filename w.sender w.sentIdx p})
    (hfile : ρ (tempPath id w.filename w.sender w.sentIdx) ≠ ρ (filePath id w.filename)) (henv : OpensAll ρ id w env)
    (ht : Stdio.handled ρ env.io s (.client (.lockSentence w.filename w.sender w.sentIdx)) = (t, ⟨SUCCESS, []⟩)) :
    t.disk (ρ (tempPath id w.filename w.sender w.sentIdx)) = some m ∧
      Stdio.Shows ρ id w.filename w.sender w.sentIdx m [] t ∧ w.sentIdx.toInt ≤ (cores m).length := by
  obtain rfl := h.sameId
  obtain ⟨hidle, hm⟩ := h.before rfl
  obtain ⟨hshows, hle⟩ := Stdio.Shows.lock h.inv hone hidle hm henv.2.1 ht
  exact ⟨Stdio.copied_by_lock h.inv hfile hm henv.2.1 ht, hshows, hle⟩

/-- A write is acknowledged. -/
theorem wrote {ws : List SessionWrite} {text : CStr} {wordIdx : Int32} {content : CStr}
    (hshows : Stdio.Shows ρ id w.filename w.sender w.sentIdx m ws s)
    (hone : Set.InjOn ρ {p | Stdio.SessionPaths id w.filename w.sender w.sentIdx p}) (henv : OpensAll ρ id w env)
    (hcopy : s.disk (ρ (tempPath id w.filename w.sender w.sentIdx)) = some text)
    (ht : Stdio.handled ρ env.io s (.client (.write w.filename w.sender w.sentIdx wordIdx content)) =
      (t, ⟨SUCCESS, []⟩)) :
    ∃ text', writeText w.sentIdx wordIdx content text = some text' ∧
      t.disk (ρ (tempPath id w.filename w.sender w.sentIdx)) = some text' ∧
      Stdio.Shows ρ id w.filename w.sender w.sentIdx m
        (ws ++ [⟨realWordCount ((parseContent text).sentences.getD w.sentIdx.toInt.toNat []), wordIdx,
          content⟩]) t := by
  obtain rfl := hshows.sameId
  let P := Stdio.SessionPaths s.id w.filename w.sender w.sentIdx
  have hpath : P (tempPath s.id w.filename w.sender w.sentIdx) := Or.inr (Or.inr rfl)
  have hspelled : ∀ p, Operation.spells s (.client (.write w.filename w.sender w.sentIdx wordIdx content)) p → P p := by
    rintro p (⟨-, rfl⟩ | ⟨-, rfl⟩) <;> exact hpath
  have hwritten := Stdio.request_showing hone hshows.inv hspelled (fun _ he => by cases he) ht
  obtain ⟨text', hwrite, hcopy'⟩ := text_written (Stdio.StoreInv.showing hshows.inv ρ P).server
    ((Stdio.shown_of hpath).trans hcopy) henv.2.2.2 hwritten
  refine ⟨text', hwrite, (Stdio.shown_of hpath).symm.trans hcopy', ?_⟩
  refine hshows.written hone henv.2.2.2 ?_ ht
  have hread : (Stdio.through ρ s).disk (tempPath s.id w.filename w.sender w.sentIdx) = some text := hcopy
  rw [lockedWords, show (Stdio.through ρ s).id = s.id from rfl, hread]
  rfl

/-- **The server answers.** -/
theorem serve (h : Typing ρ id w m log s)
    (hone : Set.InjOn ρ {p | Stdio.SessionPaths id w.filename w.sender w.sentIdx p})
    (hfile : ρ (tempPath id w.filename w.sender w.sentIdx) ≠ ρ (filePath id w.filename)) (henv : OpensAll ρ id w env)
    (msg : Message) : Typing ρ id w m (log ++ [(msg, (answerMessage env s msg).2)]) (answerMessage env s msg).1 := by
  obtain ⟨hinv, hid⟩ := answerMessage_inv env h.inv msg
  have hρ : env.file = ρ := henv.1
  refine ⟨hid.trans h.sameId, hinv, fun hlog => absurd hlog (by simp), fun msgs hsaid hwrites => ?_,
    fun msgs hsaid hwrites => ?_⟩
  · obtain ⟨front, hfront, hbefore, hstatus⟩ := said_snoc hsaid
    cases front with
    | nil =>
      -- the lock
      obtain ⟨rfl, rfl⟩ := List.cons.inj hfront
      obtain rfl : log = [] := List.map_eq_nil_iff.mp hbefore.1
      obtain ⟨hserver, hreply⟩ := answerMessage_request env s w.requestOf_lock
      rw [hreply, hρ] at hstatus
      rw [hserver, hρ]
      exact ⟨m, rfl, h.locked hone hfile henv (handled_of_status (fun _ he => by cases he) hstatus)⟩
    | cons first front =>
      -- a write
      rw [List.cons_append] at hfront
      obtain ⟨rfl, rfl⟩ := List.cons.inj hfront
      obtain ⟨text, htype, hcopy, hshows, hle⟩ := h.copy front hbefore fun msg hmsg => hwrites msg (by simp [hmsg])
      obtain ⟨wordIdx, content, rfl⟩ := hwrites msg (by simp)
      obtain ⟨hserver, hreply⟩ := answerMessage_request env s (w.requestOf_write wordIdx content)
      rw [hreply, hρ] at hstatus
      rw [hserver, hρ]
      obtain ⟨text', hwrite, hcopy', hshows'⟩ := wrote hshows hone henv hcopy
        (handled_of_status (fun _ he => by cases he) hstatus)
      refine ⟨text', ?_, hcopy', ?_, hle⟩
      · rw [typeText_snoc, htype]
        exact hwrite
      · rw [sessionWrites_snoc _ htype]
        exact hshows'
  · obtain ⟨front, hfront, hbefore, hstatus⟩ := said_snoc hsaid
    obtain ⟨rfl, hmsg⟩ := List.append_inj' hfront rfl
    obtain rfl : w.unlockMessage = msg := List.singleton_inj.mp hmsg
    obtain ⟨text, htype, hcopy, hshows, hle⟩ := h.copy msgs hbefore hwrites
    obtain ⟨hserver, hreply⟩ := answerMessage_request env s w.requestOf_unlock
    rw [hreply, hρ] at hstatus
    rw [hserver, hρ]
    obtain rfl := h.sameId
    obtain ⟨text', m', htext, hm', hkept⟩ := hshows.unlock hone hle henv.2
      (handled_of_status (fun _ he => by cases he) hstatus)
    obtain rfl : text' = text := Option.some.inj (htext.symm.trans hcopy)
    exact ⟨text', m', htype, hm', hkept⟩

end Typing

/-! ## The file -/

theorem writes_of_typed {w : WriteCommand} : ∀ {typed : List Typed}, ∀ msg ∈ typedWrites w typed, w.Writes msg
  | [], _, hmsg => nomatch hmsg
  | typed :: rest, msg, hmsg => by
    rw [typedWrites] at hmsg
    split at hmsg
    · cases hmsg
    · split at hmsg
      · cases hmsg
      · cases hmsg
      · exact writes_of_typed msg hmsg
      · rcases List.mem_cons.mp hmsg with rfl | hmsg
        · exact ⟨_, _, rfl⟩
        · exact writes_of_typed msg hmsg

/-- A session that reports success has said all the writes, and `UNLOCK`. -/
theorem SessionTalk.made {w : WriteCommand} {msgs : List Message} {count n : Nat} {e : WriteEnd}
    {log : List (Message × Message)} (h : SessionTalk w msgs count e log) (he : e = .ended n true) :
    n = count + msgs.length ∧ ∃ writes b, log = writes ++ [(w.unlockMessage.arriving, b)] ∧
      Said (msgs.map Message.arriving) writes := by
  induction h with
  | @accepted msg a msgs count e log status _ ih =>
    obtain ⟨hn, writes, b, hlog, hsaid, hstatus⟩ := ih he
    refine ⟨by rw [hn, List.length_cons]; omega, (msg.arriving, a) :: writes, b, by rw [hlog]; rfl, ?_, ?_⟩
    · rw [List.map_cons, List.map_cons, hsaid]
    · exact List.forall_mem_cons.mpr ⟨status, hstatus⟩
  | completed =>
    cases he
    exact ⟨rfl, [], _, rfl, rfl, nofun⟩
  | rejected _ => cases he
  | cancelled _ => cases he
  | left _ => cases he

/-- **What is typed is in the file.** If the client reports that all writes were made, the number is that of the lines
that write; and if its `UNLOCK` was answered `SUCCESS` and the words have room in the buffers, the file has the text
that these writes make of it, but for blanks, exactly when `Kept` holds of them. The file, its backup and the copy are
three files, the server can open its files, and others edit sentences of the file meanwhile, but do not commit. -/
theorem typed_text_in_file {ρ : Path → Path} {id : Int32} {disk : Disk} {before : List (FsIo × Operation)}
    {w : WriteCommand} {stale : Message} {typed : List Typed} {s₀ : StorageServer} {m : CStr}
    {s : WriteWorld} {es : List WriteEvent} {n : Nat}
    (hreach : Run Stdio.AnyStoreStep (freshServer id disk) before s₀) (hidle : s₀.pendingOf w.filename = [])
    (hm : s₀.disk (ρ (s₀.path w.filename)) = some m) (hbar : w.BarFree)
    (hfile : ρ (tempPath s₀.id w.filename w.sender w.sentIdx) ≠ ρ (filePath s₀.id w.filename))
    (hundo : ρ (undoPath (filePath s₀.id w.filename)) ≠ ρ (filePath s₀.id w.filename))
    (hcopy : ρ (undoPath (filePath s₀.id w.filename)) ≠ ρ (tempPath s₀.id w.filename w.sender w.sentIdx))
    (hrun : Run WriteServed (.start (handleWrite w stale typed) s₀) es s)
    (hmeets : ∀ event ∈ es, event.Meets (OpensAll ρ s₀.id w) (OthersEdit ρ s₀.id w))
    (hdone : s.client = .done (.ended n true)) :
    n = (typedWrites w typed).length ∧ ∃ b, s.answered.getLast? = some (w.unlockMessage, b) ∧
      (b.status = SUCCESS → (∀ msg ∈ typedWrites w typed, SplitInBounds msg.data.str) →
        ∃ text m', typeText (typedWrites w typed) m = some text ∧
          s.server.disk (ρ (filePath s₀.id w.filename)) = some m' ∧
          (nonBlank m' = nonBlank text ↔
            Kept (parseContent m).sentenceCount w.sentIdx.toInt.toNat (sessionWrites (typedWrites w typed) m))) := by
  have hone := Stdio.injOn_sessionPaths hfile hundo hcopy
  have htyping : Typing ρ s₀.id w m s.answered s.server := by
    refine Served.server_invariant ⟨rfl, Stdio.storeInv_of_steps (.fresh id disk) hreach, fun _ => ⟨hidle, hm⟩,
      fun msgs hsaid => ?_, fun msgs hsaid => ?_⟩ (fun env log v msg henv h => h.serve hone hfile henv msg)
      (fun e log v v' he h hstep => h.others hfile he hstep) hrun hmeets
    · cases hsaid.1
    · cases hsaid.1
  have htalk : WriteTalk w typed (.ended n true) s.answered :=
    Served.result (talks_handleWrite w stale typed) hrun hdone
  generalize s.answered = log at htyping htalk
  cases htalk with
  | @session a e rest status htalk =>
    obtain ⟨hn, writes, b, rfl, hsaid, hwrites⟩ := htalk.made rfl
    have hlock : w.lockMessage.arriving = w.lockMessage := hbar.sentenceMessage MSG_LOCK_SENTENCE
    have hunlock : w.unlockMessage.arriving = w.unlockMessage := hbar.sentenceMessage MSG_UNLOCK_SENTENCE
    have harriving : (typedWrites w typed).map Message.arriving = typedWrites w typed := by
      refine List.map_congr_left (g := fun m => m) (fun msg hmsg => ?_) |>.trans (List.map_id _)
      obtain ⟨wordIdx, content, rfl⟩ := writes_of_typed msg hmsg
      exact hbar.writeMessage wordIdx content
    rw [hlock, hunlock] at htyping ⊢
    refine ⟨by rw [hn, Nat.zero_add], b, List.getLast?_concat (l := (w.lockMessage, a) :: writes), fun hb _ => ?_⟩
    refine htyping.file (typedWrites w typed) ⟨?_, ?_⟩ fun msg hmsg => writes_of_typed msg hmsg
    · simp only [List.map_cons, List.map_append, hsaid, harriving, List.cons_append]
      rfl
    · refine List.forall_mem_cons.mpr ⟨status, List.forall_mem_append.mpr ⟨hwrites, ?_⟩⟩
      exact List.forall_mem_singleton.mpr hb

theorem typed_text_in_file_alice : ∃ text m', typeText (typedWrites aliceWrites aliceTypes) (lit "A. B.") = some text ∧
    aliceServed.2.server.disk (resolvePath (filePath Stdio.startedWithNotes.id aliceWrites.filename)) = some m' ∧
    (nonBlank m' = nonBlank text ↔ Kept (parseContent (lit "A. B.")).sentenceCount aliceWrites.sentIdx.toInt.toNat
      (sessionWrites (typedWrites aliceWrites aliceTypes) (lit "A. B."))) := by
  obtain ⟨-, b, hlast, hfile⟩ := typed_text_in_file (m := lit "A. B.")
    (Run.nil : Run Stdio.AnyStoreStep (freshServer 1 Stdio.startedWithNotes.disk) [] Stdio.startedWithNotes) rfl
    (by decide) ⟨by decide, by decide⟩
    (resolvePath_tempPath_ne_filePath _ _ _ (by decide)) (resolvePath_undoPath_ne_filePath _ _)
    (resolvePath_undoPath_ne_tempPath _ _ _ _ _) run_aliceServed
    (Served.drive_meets ⟨rfl, rfl, rfl, rfl⟩ pickSound 40 _) done_aliceServed
  refine hfile ?_ ?_
  · have hb : aliceServed.2.answered.getLast?.map (·.2.status) = some SUCCESS := by decide
    rw [hlast] at hb
    exact Option.some.inj hb
  · have hshort : ∀ msg ∈ typedWrites aliceWrites aliceTypes,
        msg.data.str.length ≤ MAX_WORD - 1 ∧ (pieces msg.data.str).dropLast = [] := by decide
    intro msg hmsg
    obtain ⟨hlength, hpieces⟩ := hshort msg hmsg
    refine (splitInBounds_iff _).mpr ⟨fun r hr _ => hr.length_le.trans hlength, fun k t ht => ?_⟩
    rw [hpieces] at ht
    cases ht

end NetworkFileShare
