import NetworkFileShare.NameServer.Registration

/-!
# Exchanges that fail

The name server sends a request to a storage server and waits for the reply, whose status decides what happens to the
records. Creation, deletion and the requests for folders do not ask whether the reply arrived.

* `Noted` : the calls of a handler, with the exchanges that it has made written down;
* `Decided` : the records change only with an answer of success, and the answer is that of the last response;
* `failed_exchange_iff` : when a failed exchange changes nothing;
* `lost_reply_creates` : a creation whose reply is lost.
-/

namespace NetworkFileShare

open NmOp (perform)
open Prog (Only)

/-! ## The exchanges of a handler -/

/-- An exchange with a storage server: what `send_message` and `recv_message` return, and the response that the
handler reads afterwards. -/
structure Exchange where
  sent : Bool
  received : Bool
  response : Message

/-- `send_message` or `recv_message` returns -1. -/
def Exchange.Failed (e : Exchange) : Prop := e.sent = false ∨ e.received = false

/-- A call, with the exchange it makes written down. -/
def Noted (σ : NameServer × List Exchange) (c : NmCall) (τ : NameServer × List Exchange) : Prop :=
  ExecSome NmOp.exec σ.1 c τ.1 ∧
    match c with
    | ⟨.exchange _ _, (received, response)⟩ => ∃ sent, τ.2 = σ.2 ++ [⟨sent, received, response⟩]
    | _ => τ.2 = σ.2

/-- The call is no exchange. -/
def Local : NmOp → Prop
  | .exchange _ _ => False
  | _ => True

theorem Noted.local {σ τ : NameServer × List Exchange} {op : NmOp} {ans : op.Ans} (h : Noted σ ⟨op, ans⟩ τ)
    (hop : Local op) : τ.2 = σ.2 := by
  obtain ⟨-, hlog⟩ := h
  cases op with
  | exchange _ _ => exact hop.elim
  | _ => exact hlog

/-! ## Before the records change -/

/-- No record has changed since `s`, and the exchanges `es` were made. -/
def At (s : NameServer) (es : List Exchange) (σ : NameServer × List Exchange) : Prop :=
  SameRecords s σ.1 ∧ σ.2 = es

/-- The answer is that of the last response, and without success no record has changed. -/
structure Decided (s : NameServer) (reply : Message) (σ : NameServer × List Exchange) : Prop where
  unchanged : reply.status ≠ SUCCESS → SameRecords s σ.1
  last : ∀ e ∈ σ.2.getLast?, (reply.status = SUCCESS ↔ e.response.status = SUCCESS)

section
variable {s : NameServer} {es : List Exchange} {e : Exchange} {status : Int32}

theorem at_inert {α : Type} {p : Handler α} (h : Only (fun op => Inert op ∧ Local op) p) :
    Ensures Noted (At s es) p fun _ => At s es := by
  refine .of_only h fun σ op ans τ hop hσ hexec => ?_
  exact ⟨hσ.1.trans (.of_exec hexec.1 hop.1), (hexec.local hop.2).trans hσ.2⟩

theorem at_perform {op : NmOp} (hinert : Inert op) (hlocal : Local op) :
    Ensures Noted (At s es) (perform op) fun _ => At s es :=
  at_inert (.perform ⟨hinert, hlocal⟩)

theorem at_exchange (idx : Nat) (msg : Message) : Ensures Noted (At s es) (perform (.exchange idx msg))
    fun r σ => ∃ e : Exchange, r.2 = e.response ∧ At s (es ++ [e]) σ := by
  refine .perform fun σ r τ hσ hexec => ?_
  obtain ⟨hexec, sent, hlog⟩ := hexec
  exact ⟨⟨sent, r.1, r.2⟩, rfl, hσ.1.trans (.of_exec hexec trivial), by rw [hlog, hσ.2]⟩

/-- What is done with the response of an exchange. -/
theorem at_response {α : Type} {k : Bool × Message → Handler α} {Q : α → NameServer × List Exchange → Prop}
    (hk : ∀ (e : Exchange) (received : Bool), Ensures Noted (At s (es ++ [e])) (k (received, e.response)) Q)
    (r : Bool × Message) :
    Ensures Noted (fun σ => ∃ e : Exchange, r.2 = e.response ∧ At s (es ++ [e]) σ) (k r) Q := by
  refine .exists_pre fun e => .assume (fun _ hσ => hσ.1) fun hresponse => ?_
  obtain ⟨received, response⟩ := r
  obtain rfl : response = e.response := hresponse
  exact (hk e received).mono (fun _ hσ => hσ.2) fun _ _ hσ => hσ

theorem at_exchangeWith {α : Type} {k : Bool × Message → Handler α} {Q : α → NameServer × List Exchange → Prop}
    (idx : Nat) (msg : Message)
    (hk : ∀ (e : Exchange) (received : Bool), Ensures Noted (At s (es ++ [e])) (k (received, e.response)) Q) :
    Ensures Noted (At s es) (exchangeWith idx msg >>= k) Q := by
  refine .bind (R := fun r σ => ∃ e : Exchange, r.2 = e.response ∧ At s (es ++ [e]) σ) ?_ (at_response hk)
  refine .bind (at_perform trivial trivial) fun _ => .bind (at_exchange idx msg) (at_response fun e received => ?_)
  exact .bind (at_perform trivial trivial) fun _ => .pure fun σ hσ => ⟨e, rfl, hσ⟩

/-- An answer before any exchange. -/
theorem decided_refused :
    Ensures Noted (At s []) (pure (replyStatus status) : Handler Message) (Decided s) :=
  .pure fun σ hσ => ⟨fun _ => hσ.1, fun e he => by rw [hσ.2] at he; cases he⟩

/-- An answer after an exchange without success. -/
theorem decided_failed (hstatus : status ≠ SUCCESS) (he : e.response.status ≠ SUCCESS) :
    Ensures Noted (At s (es ++ [e])) (pure (replyStatus status) : Handler Message) (Decided s) := by
  refine .pure fun σ hσ => ⟨fun _ => hσ.1, fun e' he' => ?_⟩
  rw [hσ.2, List.getLast?_concat] at he'
  obtain rfl := Option.mem_some_iff.mp he'
  exact iff_of_false hstatus he

/-- The records may change after an exchange with success, if the answer is success too. -/
theorem decided_done {p : Handler Message}
    (hp : Ensures Noted (fun σ => σ.2 = es ++ [e]) p fun reply σ => reply.status = SUCCESS ∧ σ.2 = es ++ [e])
    (he : e.response.status = SUCCESS) : Ensures Noted (At s (es ++ [e])) p (Decided s) := by
  refine hp.mono (fun _ hσ => hσ.2) fun reply σ hσ => ⟨fun hfailed => absurd hσ.1 hfailed, fun e' he' => ?_⟩
  rw [hσ.2, List.getLast?_concat] at he'
  obtain rfl := Option.mem_some_iff.mp he'
  exact iff_of_true hσ.1 he

theorem kept_local {α : Type} {p : Handler α} (hp : Only Local p) :
    Ensures Noted (fun σ => σ.2 = es) p fun _ σ => σ.2 = es :=
  .of_only hp fun _ _ _ _ hop hσ hexec => (hexec.local hop).trans hσ

theorem kept_success : Ensures Noted (fun σ => σ.2 = es) (pure (replyStatus SUCCESS) : Handler Message)
    fun reply σ => reply.status = SUCCESS ∧ σ.2 = es :=
  .pure fun _ hσ => ⟨rfl, hσ⟩

/-! ## The four handlers -/

theorem writeBack_local (filename : CStr) (metadata : FileMetadata) : Only Local (writeBack filename metadata) :=
  .bind (.perform trivial) fun _ => .perform trivial

theorem handleCreate_decided (msg : Message) : Ensures Noted (At s []) (handleCreate msg) (Decided s) := by
  refine .bind (at_perform trivial trivial) fun found => ?_
  rcases found with _ | metadata
  · refine .bind (at_perform trivial trivial) fun ssId => .ite (fun _ => decided_refused) fun _ => ?_
    refine .bind (at_perform trivial trivial) fun slot => ?_
    rcases slot with _ | idx
    · exact decided_refused
    refine at_exchangeWith idx _ fun e received => .ite (fun he => decided_done ?_ he) fun he => decided_failed he he
    exact .bind (kept_local (.perform trivial)) fun now => .bind (kept_local (.perform trivial)) fun _ =>
      .bind (kept_local (.perform trivial)) fun _ => kept_success
  · exact decided_refused

theorem handleDelete_decided (msg : Message) : Ensures Noted (At s []) (handleDelete msg) (Decided s) := by
  refine .bind (at_perform trivial trivial) fun found => ?_
  rcases found with _ | metadata
  · exact decided_refused
  refine .ite (fun _ => decided_refused) fun _ => .bind (at_perform trivial trivial) fun slot => ?_
  rcases slot with _ | idx
  · exact decided_refused
  refine .bind (at_perform trivial trivial) fun _ => .bind (at_exchange idx _) (at_response fun e _ => ?_)
  refine .ite (fun he => ?_) fun _ => .bind (at_exchange idx _) (at_response fun e' _ => ?_)
  · -- the locks are held, or the memory of the response says so
    refine .bind (at_perform trivial trivial) fun _ => decided_failed (by decide) ?_
    rw [he]
    decide
  · refine .bind (at_perform trivial trivial) fun _ => ?_
    refine .ite (fun he => decided_done ?_ he) fun he => decided_failed he he
    exact .bind (kept_local (.perform trivial)) fun _ => .bind (kept_local (.perform trivial)) fun _ => kept_success

theorem handleCreateFolder_decided (msg : Message) : Ensures Noted (At s []) (handleCreateFolder msg) (Decided s) := by
  refine .bind (at_perform trivial trivial) fun found => ?_
  rcases found with _ | folder
  · refine .bind (at_perform trivial trivial) fun ssId => .ite (fun _ => decided_refused) fun _ => ?_
    refine .bind (at_perform trivial trivial) fun slot => ?_
    rcases slot with _ | idx
    · exact decided_refused
    refine at_exchangeWith idx _ fun e received => .ite (fun he => decided_done ?_ he) fun he => decided_failed he he
    exact .bind (kept_local (.perform trivial)) fun now => .bind (kept_local (.perform trivial)) fun _ => kept_success
  · exact decided_refused

theorem handleMove_decided (msg : Message) : Ensures Noted (At s []) (handleMove msg) (Decided s) := by
  refine .bind (at_perform trivial trivial) fun found => ?_
  rcases found with _ | metadata
  · exact decided_refused
  have hmove : Ensures Noted (At s []) (moveFile msg metadata) (Decided s) := by
    refine .bind (at_perform trivial trivial) fun slot => ?_
    rcases slot with _ | idx
    · exact decided_refused
    refine at_exchangeWith idx _ fun e received => .ite (fun he => decided_done ?_ he) fun he => decided_failed he he
    exact .bind (kept_local (writeBack_local _ _)) fun _ => kept_success
  have hallowed : Only (fun op => Inert op ∧ Local op) (mayMove msg metadata) :=
    .ite (.pure _) (.perform ⟨trivial, trivial⟩)
  refine .bind (at_inert hallowed) fun allowed => .ite (fun _ => decided_refused) fun _ => ?_
  refine .ite (fun _ => hmove) fun _ => .bind (at_perform trivial trivial) fun folder => ?_
  rcases folder with _ | folder
  · exact decided_refused
  · exact hmove

end

/-! ## Exchanges that fail -/

/-- The requests that change records after an exchange. -/
def ChangesRecords (msg : Message) : Prop :=
  msg.type = MSG_CREATE ∨ msg.type = MSG_DELETE ∨ msg.type = MSG_CREATEFOLDER ∨ msg.type = MSG_MOVE

theorem handleClientMessage_decided {s : NameServer} {prior msg : Message} (htype : ChangesRecords msg) :
    Ensures Noted (At s []) (handleClientMessage prior msg) (Decided s) := by
  rcases htype with h | h | h | h
  · rw [(HandledBy.create h).eq]
    exact handleCreate_decided msg
  · rw [(HandledBy.delete h).eq]
    exact handleDelete_decided msg
  · rw [(HandledBy.createFolder h).eq]
    exact handleCreateFolder_decided msg
  · rw [(HandledBy.move h).eq]
    exact handleMove_decided msg

/-- **A failed exchange changes nothing if and only if** the last response of the handler does not read success. -/
theorem failed_exchange_iff {s t : NameServer} {es : List Exchange} {prior msg reply : Message}
    (htype : ChangesRecords msg) (h : Alone Noted (s, []) (handleClientMessage prior msg) reply (t, es))
    (hfailed : ∃ e ∈ es, e.Failed) :
    (t.fileTrie = s.fileTrie ∧ t.folderTrie = s.folderTrie ∧ t.cache = s.cache ∧ reply.status ≠ SUCCESS) ↔
      ∀ e ∈ es.getLast?, e.response.status ≠ SUCCESS := by
  have hdecided := handleClientMessage_decided htype (s, []) reply (t, es) ⟨.refl s, rfl⟩ h
  have hlast : es.getLast? ≠ none := by
    obtain ⟨e, he, -⟩ := hfailed
    exact fun hnone => List.ne_nil_of_mem he (List.getLast?_eq_none_iff.mp hnone)
  obtain ⟨e, he⟩ := Option.ne_none_iff_exists'.mp hlast
  constructor
  · rintro ⟨-, -, -, hstatus⟩ e' he' hsuccess
    exact hstatus ((hdecided.last e' he').mpr hsuccess)
  · intro hresponses
    have hstatus : reply.status ≠ SUCCESS := fun hsuccess => hresponses e he ((hdecided.last e he).mp hsuccess)
    have hsame := hdecided.unchanged hstatus
    exact ⟨hsame.fileTrie, hsame.folderTrie, hsame.cache, hstatus⟩

/-! ## A reply that is lost -/

/-- A call in an environment where every request is sent and no reply arrives: `response` is what the memory of the
handler holds. -/
def notedCall (response : Message) (op : NmOp) (σ : NameServer × List Exchange) :
    Option (op.Ans × (NameServer × List Exchange)) :=
  (op.exec ⟨200, 0, false, response, none, [], 0⟩ σ.1).map fun r =>
    (r.1, r.2, match op with
      | .exchange _ _ => σ.2 ++ [⟨true, false, response⟩]
      | _ => σ.2)

theorem noted_of_notedCall {response : Message} {op : NmOp} {ans : op.Ans} {σ τ : NameServer × List Exchange}
    (h : notedCall response op σ = some (ans, τ)) : Noted σ ⟨op, ans⟩ τ := by
  obtain ⟨⟨ans', t⟩, hexec, he⟩ := Option.map_eq_some_iff.mp h
  obtain ⟨rfl, rfl⟩ := Prod.mk.inj he
  refine ⟨⟨_, hexec⟩, ?_⟩
  cases op with
  | exchange idx msg =>
    obtain ⟨rfl, -⟩ := Prod.mk.inj (Option.some.inj hexec)
    exact ⟨true, rfl⟩
  | _ => rfl

/-- A file is created on the only storage server, and the reply is lost: the state before, and what comes of it. -/
def lostCreation (response : Message) : Option (NameServer × Message × NameServer × List Exchange) :=
  (handleAllAlone oneCall initNameServer [registers 1 []]).bind fun s =>
    (runAlone (notedCall response) (handleClientMessage initMessage (createMsg fileOne)) (s, [])).map fun r => (s, r)

theorem run_lostCreation {β : Type} (response : Message)
    (view : NameServer → Message → NameServer → List Exchange → β) {b : β}
    (h : (lostCreation response).map (fun r => (view r.1 r.2.1 r.2.2.1 r.2.2.2, r.2.2.2.any (!·.received))) =
      some (b, true)) :
    ∃ s reply t es, view s reply t es = b ∧ Run (Handles (ExecSome NmOp.exec)) initNameServer [registers 1 []] s ∧
      Alone Noted (s, []) (handleClientMessage initMessage (createMsg fileOne)) reply (t, es) ∧
      ∃ e ∈ es, e.Failed := by
  obtain ⟨⟨s', reply, t, es⟩, hlost, he⟩ := Option.map_eq_some_iff.mp h
  obtain ⟨s, hs, hmap⟩ := Option.bind_eq_some_iff.mp hlost
  obtain ⟨r, hrun, hr⟩ := Option.map_eq_some_iff.mp hmap
  obtain ⟨rfl, rfl⟩ := Prod.mk.inj hr
  obtain ⟨hview, hfailed⟩ := Prod.mk.inj he
  obtain ⟨e, hmem, hreceived⟩ := List.any_eq_true.mp hfailed
  exact ⟨s, reply, t, es, hview, run_oneCall hs,
    (alone_of_runAlone hrun).mono fun _ _ _ hcall => noted_of_notedCall hcall, e, hmem,
    Or.inr (by simpa using hreceived)⟩

theorem failed_exchange_one : ∃ s reply t es,
    Alone Noted (s, []) (handleClientMessage initMessage (createMsg fileOne)) reply (t, es) ∧
      (∃ e ∈ es, e.Failed) ∧ t.fileTrie = s.fileTrie ∧ reply.status ≠ SUCCESS := by
  obtain ⟨s, reply, t, es, hstatuses, -, halone, hfailed⟩ := run_lostCreation (replyStatus ERR_FILE_EXISTS)
    (fun _ _ _ es => es.map (·.response.status)) (b := [ERR_FILE_EXISTS]) (by decide)
  have hresponses : ∀ e ∈ es.getLast?, e.response.status ≠ SUCCESS := by
    intro e he
    have hmem := List.mem_map_of_mem (f := fun e : Exchange => e.response.status) (List.mem_of_getLast? he)
    rw [hstatuses] at hmem
    rw [List.mem_singleton.mp hmem]
    decide
  have hsame := (failed_exchange_iff (Or.inl rfl) halone hfailed).mpr hresponses
  exact ⟨s, reply, t, es, halone, hfailed, hsame.1, hsame.2.2.2⟩

/-- **A creation whose reply is lost**: the memory of the response reads success, and the file is registered. -/
theorem lost_reply_creates : ∃ (s : NameServer) (msg reply : Message) (t : NameServer) (es : List Exchange),
    Run (Handles (ExecSome NmOp.exec)) initNameServer [registers 1 []] s ∧ ChangesRecords msg ∧
      Alone Noted (s, []) (handleClientMessage initMessage msg) reply (t, es) ∧ (∃ e ∈ es, e.Failed) ∧
      reply.status = SUCCESS ∧ (trieSearch s.fileTrie msg.filename.str).isSome = false ∧
      (trieSearch t.fileTrie msg.filename.str).isSome = true := by
  obtain ⟨s, reply, t, es, hview, hrun, halone, hfailed⟩ := run_lostCreation (replyStatus SUCCESS)
    (fun s reply t _ => (reply.status, (trieSearch s.fileTrie fileOne.str).isSome,
      (trieSearch t.fileTrie fileOne.str).isSome)) (b := (SUCCESS, false, true)) (by decide)
  obtain ⟨hstatus, hview⟩ := Prod.mk.inj hview
  obtain ⟨hbefore, hafter⟩ := Prod.mk.inj hview
  exact ⟨s, createMsg fileOne, reply, t, es, hrun, Or.inl rfl, halone, hfailed, hstatus, hbefore, hafter⟩

end NetworkFileShare
