import NetworkFileShare.NameServer.System
import NetworkFileShare.StorageServer.Outcomes

/-!
# Concurrent creations of one file

* `wonBy` : an exchange in which a storage server has created the file; the owner and the storage server that its
  request will register;
* `OneServer` : no request is sent to another storage server once one has created the file;
* `CreateInv` : the file is on the disk of every storage server that has created it, and the record is that of a
  winner;
* `create_exclusive` : then one request at most answers `SUCCESS`, and the record is its own;
* `created_twice` : two storage servers, which both create the file.
-/

namespace NetworkFileShare

open NmOp (perform)

/-! ## Winners -/

/-- The message of `handle_create` to the storage server. -/
def createSsMsg (f : Filename) : Message := { initMessage with type := MSG_CREATE, filename := f }

/-- The storage server that `get_next_ss_round_robin` has given the request. -/
def drawnSs (past : List NmCall) : Option Int32 :=
  past.findSome? fun c => match c with
    | ⟨.nextSsRoundRobin, ssId⟩ => some (ssId : Int32)
    | _ => none

/-- The slot of an exchange. -/
def exchangeAt : NmEvent → Option Nat
  | .call _ _ _ ⟨.exchange idx _, _⟩ => some idx
  | _ => none

/-- The exchange that a storage server answers with `SUCCESS`. -/
def Won : NmEvent → Prop
  | .call _ _ _ ⟨.exchange _ _, ans⟩ => (ans : Bool × Message).2.status = SUCCESS
  | _ => False

/-- **No request is sent to another storage server** once one has been answered with `SUCCESS`. -/
def OneServer (es : List NmEvent) : Prop :=
  es.Pairwise fun e e' => Won e → ∀ idx' ∈ exchangeAt e', exchangeAt e = some idx'

/-- The requests create `f`, and what the handler holds without a reply is no `SUCCESS`. -/
def Creates (f : Filename) (_ : SystemPool) : NmEvent → Prop
  | .start _ (.client _ msg) => msg.type = MSG_CREATE ∧ msg.filename = f
  | .start _ _ => False
  | .call _ _ _ ⟨.exchange _ _, ans⟩ => (ans : Bool × Message).1 = true ∨ (ans : Bool × Message).2.status ≠ SUCCESS
  | _ => True

/-- **The file is created once**: two requests do not both answer `SUCCESS`, and the record is that of the one that
does. -/
structure CreatedOnce (f : Filename) (es : List NmEvent) (s : NameServer) : Prop where
  once : ∀ es₁ es₂ es₃ i i' req req' past past' r r',
    es = es₁ ++ .answer i req past (some r) :: (es₂ ++ .answer i' req' past' (some r') :: es₃) →
    r.status = SUCCESS → r'.status ≠ SUCCESS
  recorded : ∀ i prior msg past r, .answer i (.client prior msg) past (some r) ∈ es → r.status = SUCCESS →
    ∃ m, trieSearch s.fileTrie f.str = some m ∧ m.owner = msg.sender.str ∧ drawnSs past = some m.ssId

/-! ## The contract of a creation -/

/-- A request with the owner and the storage server it will register. -/
def Registers (req : NmRequest) (before : List NmCall) (m : FileMetadata) : Prop :=
  ∃ prior msg, req = .client prior msg ∧ m.owner = msg.sender.str ∧ drawnSs before = some m.ssId

/-- The request has been answered with `SUCCESS` by a storage server, and will register `m`. -/
def WonAs (req : NmRequest) (past : List NmCall) (m : FileMetadata) : Prop :=
  ∃ before idx msg ans after, past = before ++ ⟨.exchange idx msg, ans⟩ :: after ∧
    (ans : Bool × Message).2.status = SUCCESS ∧ Registers req before m

/-- What a call of a creation of `f` keeps to. -/
def CreateGood (f : Filename) (req : NmRequest) (past : List NmCall) : NmOp → Prop
  | .exchange _ msg => msg = createSsMsg f
  | .trieInsert name m => name = f.str ∧ WonAs req past m
  | .trieUpdate _ _ | .trieDelete _ | .registerSs _ | .deactivateSs _ => False
  | _ => True

/-- A `SUCCESS` comes after the registration. -/
def CreatePost (f : Filename) (req : NmRequest) (past : List NmCall) (result : Option Message) : Prop :=
  ∀ r, result = some r → r.status = SUCCESS →
    ∃ before m ans after, past = before ++ ⟨.trieInsert f.str m, ans⟩ :: after ∧ WonAs req before m

theorem wonAs_snoc {req : NmRequest} {before : List NmCall} {idx : Nat} {msg : Message} {ans : Bool × Message}
    {m : FileMetadata} (hsuccess : ans.2.status = SUCCESS) (h : Registers req before m) {c d : NmCall} :
    WonAs req (before ++ [⟨.exchange idx msg, ans⟩] ++ [c] ++ [d]) m :=
  ⟨before, idx, msg, ans, [c, d], by simp, hsuccess, h⟩

theorem nmBody_creates {f : Filename} {prior msg : Message} (htype : msg.type = MSG_CREATE) (hname : msg.filename = f) :
    (nmBody (.client prior msg)).Obeys (fun _ => True) (CreateGood f (.client prior msg))
      (CreatePost f (.client prior msg)) [] := by
  show Prog.Obeys _ _ _ [] (handleClientMessage prior msg >>= fun r => pure (some r))
  rw [(HandledBy.create htype).eq]
  subst hname
  -- a reply with another status promises nothing
  have hother : ∀ {past : List NmCall} {status : Int32}, status ≠ SUCCESS →
      Prog.Obeys (fun _ => True) (CreateGood msg.filename (.client prior msg))
        (fun past r => CreatePost msg.filename (.client prior msg) past (some r)) past
        (pure (replyStatus status) : Handler Message) := by
    intro past status hne r hr hsuccess
    rw [← Option.some.inj hr] at hsuccess
    exact absurd hsuccess hne
  refine Prog.Obeys.bind (?_ : Prog.Obeys _ _
    (fun past r => CreatePost msg.filename (.client prior msg) past (some r)) _ _) fun past r hr => hr
  refine .perform_bind trivial fun found _ => ?_
  rcases found with _ | metadata
  · refine .perform_bind trivial fun ssId _ => .ite (fun _ => hother (by decide)) fun _ => ?_
    refine .perform_bind trivial fun slot _ => ?_
    rcases slot with _ | idx
    · exact hother (by decide)
    have hexchange : ∀ {past : List NmCall} {post : List NmCall → Message → Prop}
        {k : Bool × Message → Handler Message},
        (∀ (locked : Unit) (ans : Bool × Message) (unlocked : Unit), Prog.Obeys (fun _ => True)
          (CreateGood msg.filename (.client prior msg)) post (past ++ [⟨.lock (.ssSock idx), locked⟩] ++
            [⟨.exchange idx (createSsMsg msg.filename), ans⟩] ++ [⟨.unlock (.ssSock idx), unlocked⟩]) (k ans)) →
        Prog.Obeys (fun _ => True) (CreateGood msg.filename (.client prior msg)) post past
          (exchangeWith idx (createSsMsg msg.filename) >>= k) := fun hk => by
      refine (Prog.obeys_bind _ _).mpr (.perform_bind trivial fun locked _ => .perform_bind rfl fun ans _ => ?_)
      exact .perform_bind trivial fun unlocked _ => hk locked ans unlocked
    refine hexchange fun locked ans unlocked => .ite (fun hsuccess => ?_) fun hfail => hother hfail
    refine .perform_bind trivial fun now _ => ?_
    have hregisters : Registers (.client prior msg) ([] ++ [⟨.trieSearch msg.filename.str, none⟩] ++
        [⟨.nextSsRoundRobin, ssId⟩] ++ [⟨.ssIndex ssId false, some idx⟩] ++ [⟨.lock (.ssSock idx), locked⟩])
        (newMetadata msg.filename.str msg.sender.str ssId now) := ⟨prior, msg, rfl, rfl, rfl⟩
    refine .perform_bind ⟨rfl, wonAs_snoc hsuccess hregisters⟩ fun status _ => ?_
    refine .perform_bind trivial fun done _ => fun r _ _ => ?_
    exact ⟨_, _, status, [_], (List.append_assoc _ [_] _), wonAs_snoc hsuccess hregisters⟩
  · exact hother (by decide)

/-! ## The exchange -/

/-- The storage server has the file. -/
def OnDisk (ρ : Path → Path) (f : Filename) (s : System) (id : Int32) : Prop :=
  (s.servers id).disk (ρ ((s.servers id).path f)) ≠ none

section Exchange
variable {ρ : Path → Path} {f : Filename} {s : System} {env : SystemEnv} {idx : Nat}

theorem handled_create_spec (ρ : Path → Path) (io : FsIo) (s : StorageServer) (f : Filename) :
    (Stdio.handled ρ io s (.command (.create f))).1.id = s.id ∧
      (∀ file, s.disk file ≠ none → (Stdio.handled ρ io s (.command (.create f))).1.disk file ≠ none) ∧
      ((Stdio.handled ρ io s (.command (.create f))).2.status = SUCCESS →
        s.disk (ρ (s.path f)) = none ∧
          (Stdio.handled ρ io s (.command (.create f))).1.disk (ρ (s.path f)) ≠ none) := by
  rw [Stdio.handled_create]
  split_ifs with hexists hwrite
  · exact ⟨rfl, fun _ hfile => hfile, fun he => absurd (show ERR_FILE_EXISTS = SUCCESS from he) (by decide)⟩
  · have habsent : (s.disk ∘ ρ) (s.path f) = none := isNone_of_not_pathExists hexists
    refine ⟨rfl, fun file hfile => ?_, fun _ => ⟨habsent, ?_⟩⟩
    · dsimp only
      by_cases he : file = ρ (s.path f)
      · rw [he, Function.update_self]
        exact Option.some_ne_none _
      · rwa [Function.update_of_ne he]
    · dsimp only
      rw [Function.update_self]
      exact Option.some_ne_none _
  · exact ⟨rfl, fun _ hfile => hfile, fun he => absurd (show ERR_SERVER_ERROR = SUCCESS from he) (by decide)⟩

theorem onDisk_setServer {id id' : Int32} {server : StorageServer} : OnDisk ρ f (s.setServer id server) id' ↔
    if id' = id then server.disk (ρ (server.path f)) ≠ none else OnDisk ρ f s id' := by
  show (Function.update s.servers id server id').disk (ρ ((Function.update s.servers id server id').path f)) ≠ none ↔ _
  split
  · rename_i he
    rw [he, Function.update_self]
  · rename_i hne
    rw [Function.update_of_ne hne]
    exact Iff.rfl

/-- **What the exchange of a creation does**: no file is lost, and with `SUCCESS` the storage server of the slot has
the file from now on, and did not have it before. -/
theorem exchange_create (ρ : Path → Path) (env : SystemEnv) (s : System) (idx : Nat) :
    (s.exchange ρ env idx (createSsMsg f)).2.nm = s.nm ∧
      (∀ id, OnDisk ρ f s id → OnDisk ρ f (s.exchange ρ env idx (createSsMsg f)).2 id) ∧
      ((s.exchange ρ env idx (createSsMsg f)).1.1 = true ∨ (s.exchange ρ env idx (createSsMsg f)).1.2.status ≠ SUCCESS →
        (s.exchange ρ env idx (createSsMsg f)).1.2.status = SUCCESS → ∃ info, s.nm.ssList[idx]? = some info ∧
          ¬ OnDisk ρ f s info.id ∧ OnDisk ρ f (s.exchange ρ env idx (createSsMsg f)).2 info.id) := by
  have hlost : ∀ {reply : Message}, false = true ∨ reply.status ≠ SUCCESS → ¬ reply.status = SUCCESS :=
    fun h => h.resolve_left (by decide)
  have hcommand : nmCommand (createSsMsg f) = some (.create f) := rfl
  unfold System.exchange
  cases hslot : s.nm.ssList[idx]? with
  | none => exact ⟨rfl, fun _ h => h, fun h hs => absurd hs (hlost h)⟩
  | some info =>
    simp only [hcommand]
    by_cases hhandled : env.handled = true
    · rw [if_pos hhandled]
      obtain ⟨hid, hkeep, hcreated⟩ := handled_create_spec ρ env.io (s.servers info.id) f
      have hpath := path_eq_of_id hid f
      refine ⟨rfl, fun id hdisk => onDisk_setServer.mpr ?_, fun hreply hstatus => ⟨info, rfl, ?_⟩⟩
      · split
        · rename_i he
          rw [hpath]
          exact hkeep _ (he ▸ hdisk)
        · exact hdisk
      · have hreceived : env.received = true := by
          by_contra hno
          rw [if_neg hno] at hreply hstatus
          exact hreply.elim hno fun h => h hstatus
        rw [if_pos hreceived] at hstatus
        obtain ⟨habsent, hthere⟩ := hcreated hstatus
        refine ⟨fun hdisk => hdisk habsent, onDisk_setServer.mpr ?_⟩
        rw [if_pos rfl]
        rw [hpath]
        exact hthere
    · rw [if_neg hhandled]
      exact ⟨rfl, fun _ h => h, fun h hs => absurd hs (hlost h)⟩

end Exchange

/-! ## The invariant -/

/-- The storage servers that have answered `SUCCESS` have the file, they are one, and a registered file has the
record of a request that was answered so. -/
structure CreateInv (ρ : Path → Path) (f : Filename) (slots : List StorageServerInfo) (es : List NmEvent)
    (s : System) : Prop where
  sameSlots : s.nm.ssList = slots
  onDisk : ∀ e ∈ es, Won e → ∃ idx info, exchangeAt e = some idx ∧ slots[idx]? = some info ∧ OnDisk ρ f s info.id
  unique : es.Pairwise fun e e' => ¬ (Won e ∧ Won e')
  good : ∀ i req past c, .call i req past c ∈ es → CreateGood f req past c.op
  record : ∀ i req past m ans, .call i req past ⟨.trieInsert f.str m, ans⟩ ∈ es →
    ∃ i req past m ans, .call i req past ⟨.trieInsert f.str m, ans⟩ ∈ es ∧ trieSearch s.nm.fileTrie f.str = some m

section Invariant
variable {ρ : Path → Path} {f : Filename} {slots : List StorageServerInfo} {es : List NmEvent} {s t : System}
  {e : NmEvent}

/-- A step without an exchange or a registration. -/
theorem CreateInv.other (h : CreateInv ρ f slots es s) (hslots : t.nm.ssList = s.nm.ssList)
    (htrie : trieSearch t.nm.fileTrie f.str = trieSearch s.nm.fileTrie f.str)
    (hdisk : ∀ id, OnDisk ρ f s id → OnDisk ρ f t id) (hwon : ¬ Won e)
    (hgood : ∀ i req past c, e = .call i req past c → CreateGood f req past c.op)
    (hinsert : ∀ i req past m ans, e ≠ .call i req past ⟨.trieInsert f.str m, ans⟩) :
    CreateInv ρ f slots (es ++ [e]) t := by
  have hmem : ∀ {e'}, e' ∈ es ++ [e] → e' ∈ es ∨ e' = e := fun he' => by simpa using he'
  refine ⟨hslots.trans h.sameSlots, fun e' he' hw => ?_, ?_, fun i req past c hc => ?_, fun i req past m ans hc => ?_⟩
  · rcases hmem he' with he' | rfl
    · obtain ⟨idx, info, hidx, hinfo, hd⟩ := h.onDisk e' he' hw
      exact ⟨idx, info, hidx, hinfo, hdisk _ hd⟩
    · exact absurd hw hwon
  · refine List.pairwise_append.mpr ⟨h.unique, List.pairwise_singleton _ _, fun a _ b hb hab => hwon ?_⟩
    rw [← List.mem_singleton.mp hb]
    exact hab.2
  · rcases hmem hc with hc | hc
    · exact h.good i req past c hc
    · exact hgood i req past c hc.symm
  · rcases hmem hc with hc | hc
    · obtain ⟨i, req, past, m, ans, hmem', hfound⟩ := h.record i req past m ans hc
      exact ⟨i, req, past, m, ans, List.mem_append_left _ hmem', htrie.trans hfound⟩
    · exact absurd hc.symm (hinsert i req past m ans)

/-- The slots stay as they are when no storage server registers. -/
theorem ssList_of_exec {env : NmEnv} {op : NmOp} {ans : op.Ans} {s t : NameServer}
    (hop : ∀ msg, op ≠ .registerSs msg) (hop' : ∀ ssId, op ≠ .deactivateSs ssId)
    (h : op.exec env s = some (ans, t)) : t.ssList = s.ssList := by
  cases op with
  | registerSs msg => exact absurd rfl (hop msg)
  | deactivateSs ssId => exact absurd rfl (hop' ssId)
  | nextSsRoundRobin =>
    rw [NmOp.exec] at h
    split at h
    · cases h
    · have hsame : (s.nextSsRoundRobin env.outside).2.ssList = s.ssList := by
        unfold NameServer.nextSsRoundRobin
        split <;> rfl
      rw [← hsame, Option.some.inj h]
  | ssIndex _ _ | ssInfo _ | lock _ =>
    rw [NmOp.exec] at h
    split at h
    · cases h
    · cases h
      rfl
  | cacheGet _ | cachePut _ _ | cacheRemove _ =>
    rw [NmOp.exec] at h
    obtain ⟨c, -, he⟩ := Option.map_eq_some_iff.mp h
    cases he
    rfl
  | _ => cases h; rfl

/-- The storage servers have what they had. -/
theorem onDisk_of_servers (h : t.servers = s.servers) (id : Int32) (hdisk : OnDisk ρ f s id) : OnDisk ρ f t id := by
  rwa [OnDisk, h]

/-- **The exchange of a creation keeps the invariant**: a second winner would find the file. -/
theorem CreateInv.exchange (h : CreateInv ρ f slots es s) {env : SystemEnv} {i : Nat} {req : NmRequest}
    {past : List NmCall} {idx : Nat}
    (hone :
      OneServer (es ++ [.call i req past ⟨.exchange idx (createSsMsg f), (s.exchange ρ env idx (createSsMsg f)).1⟩]))
    (hreply : (s.exchange ρ env idx (createSsMsg f)).1.1 = true ∨
      (s.exchange ρ env idx (createSsMsg f)).1.2.status ≠ SUCCESS) :
    CreateInv ρ f slots
      (es ++ [.call i req past ⟨.exchange idx (createSsMsg f), (s.exchange ρ env idx (createSsMsg f)).1⟩])
      (s.exchange ρ env idx (createSsMsg f)).2 := by
  obtain ⟨hnm, hkeep, hwin⟩ := exchange_create (f := f) ρ env s idx
  generalize hans : (s.exchange ρ env idx (createSsMsg f)).1 = ans at *
  generalize (s.exchange ρ env idx (createSsMsg f)).2 = t at *
  have hslots : t.nm.ssList = s.nm.ssList := by rw [hnm]
  have htrie : trieSearch t.nm.fileTrie f.str = trieSearch s.nm.fileTrie f.str := by rw [hnm]
  by_cases hstatus : ans.2.status = SUCCESS
  · obtain ⟨info, hinfo, habsent, hthere⟩ := hwin hreply hstatus
    -- the winners before would be at this slot, and the file would be there
    have hfirst : ∀ e ∈ es, ¬ Won e := by
      intro e he hw
      obtain ⟨idx', info', hat, hinfo', hdisk⟩ := h.onDisk e he hw
      have hsame := (List.pairwise_append.mp hone).2.2 e he _ (List.mem_singleton_self _) hw idx rfl
      obtain rfl : idx' = idx := Option.some.inj (hat.symm.trans hsame)
      rw [h.sameSlots, hinfo'] at hinfo
      obtain rfl := Option.some.inj hinfo
      exact habsent hdisk
    refine ⟨hslots.trans h.sameSlots, fun e he hw => ?_, ?_, fun i req past c hc => ?_, fun i req past m ans hc => ?_⟩
    · rcases List.mem_append.mp he with he | he
      · exact absurd hw (hfirst e he)
      · rw [List.mem_singleton.mp he]
        exact ⟨idx, info, rfl, by rw [← h.sameSlots]; exact hinfo, hthere⟩
    · refine List.pairwise_append.mpr ⟨h.unique, List.pairwise_singleton _ _, fun a ha b _ hab => ?_⟩
      exact hfirst a ha hab.1
    · rcases List.mem_append.mp hc with hc | hc
      · exact h.good i req past c hc
      · obtain ⟨-, -, -, rfl⟩ := Event.call.inj (List.mem_singleton.mp hc)
        exact (rfl : createSsMsg f = createSsMsg f)
    · rcases List.mem_append.mp hc with hc | hc
      · obtain ⟨i, req, past, m, ans, hmem, hfound⟩ := h.record i req past m ans hc
        exact ⟨i, req, past, m, ans, List.mem_append_left _ hmem, htrie.trans hfound⟩
      · cases List.mem_singleton.mp hc
  · refine h.other hslots htrie hkeep (fun hw => hstatus hw) (fun i req past c hc => ?_) fun i req past m ans hc => ?_
    · obtain ⟨-, -, -, rfl⟩ := Event.call.inj hc
      exact (rfl : createSsMsg f = createSsMsg f)
    · cases hc

/-- The winner registers the file. -/
theorem CreateInv.insert (h : CreateInv ρ f slots es s) (hindexed : Indexed f.str) {env : SystemEnv} {i : Nat}
    {req : NmRequest} {past : List NmCall} {m : FileMetadata} {status : Int32}
    (hgood : CreateGood f req past (.trieInsert f.str m))
    (hexec : (NmOp.trieInsert f.str m).execSystem ρ env s = some (status, t)) :
    CreateInv ρ f slots (es ++ [.call i req past ⟨.trieInsert f.str m, status⟩]) t := by
  obtain ⟨hservers, hexec⟩ := servers_of_exec (fun _ _ he => by cases he) hexec
  have hslots := ssList_of_exec (fun _ he => by cases he) (fun _ he => by cases he) hexec
  have hfound : trieSearch t.nm.fileTrie f.str = some m := by
    have htrie : t.nm.fileTrie = (trieInsert s.nm.fileTrie f.str m).1 := NmOp.exec_fileTrie hexec
    rw [htrie, trieSearch_insert, if_pos ⟨rfl, hindexed⟩]
  refine ⟨hslots.trans h.sameSlots, fun e he hw => ?_, ?_, fun j req' past' c hc => ?_, fun _ _ _ _ _ _ => ?_⟩
  · rcases List.mem_append.mp he with he | he
    · obtain ⟨idx, info, hat, hinfo, hdisk⟩ := h.onDisk e he hw
      exact ⟨idx, info, hat, hinfo, onDisk_of_servers hservers _ hdisk⟩
    · rw [List.mem_singleton.mp he] at hw
      exact hw.elim
  · refine List.pairwise_append.mpr ⟨h.unique, List.pairwise_singleton _ _, fun a _ b hb hab => ?_⟩
    rw [List.mem_singleton.mp hb] at hab
    exact hab.2.elim
  · rcases List.mem_append.mp hc with hc | hc
    · exact h.good j req' past' c hc
    · obtain ⟨-, rfl, rfl, rfl⟩ := Event.call.inj (List.mem_singleton.mp hc)
      exact hgood
  · exact ⟨i, req, past, m, status, by simp, hfound⟩

/-- **Every call of a creation keeps the invariant.** -/
theorem CreateInv.call (h : CreateInv ρ f slots es s) (hindexed : Indexed f.str) {q : SystemPool} {i : Nat}
    {req : NmRequest} {past : List NmCall} {c : NmCall} (hone : OneServer (es ++ [.call i req past c]))
    (hguard : Creates f q (.call i req past c)) (hgood : CreateGood f req past c.op)
    (hexec : ExecSome (NmOp.execSystem ρ) s c t) : CreateInv ρ f slots (es ++ [.call i req past c]) t := by
  obtain ⟨op, ans⟩ := c
  obtain ⟨env, hexec⟩ := hexec
  -- calls that reach neither the storage servers nor the slots nor the record
  have hother : (∀ idx msg, op ≠ .exchange idx msg) → (∀ msg, op ≠ .registerSs msg) →
      (∀ ssId, op ≠ .deactivateSs ssId) → (∀ name m, op ≠ .trieInsert name m) →
      op.trieAfter s.nm.fileTrie = s.nm.fileTrie → CreateInv ρ f slots (es ++ [.call i req past ⟨op, ans⟩]) t := by
    intro hexchange hregister hdeactivate hinsert htrie
    obtain ⟨hservers, hcall⟩ := servers_of_exec hexchange hexec
    refine h.other (ssList_of_exec hregister hdeactivate hcall) ?_ (onDisk_of_servers hservers) ?_ ?_ ?_
    · rw [NmOp.exec_fileTrie hcall, htrie]
    · intro hw
      cases op with
      | exchange idx msg => exact hexchange idx msg rfl
      | _ => exact hw.elim
    · intro i' req' past' c' hc
      obtain ⟨-, rfl, rfl, rfl⟩ := Event.call.inj hc
      exact hgood
    · intro i' req' past' m ans' hc
      obtain ⟨-, -, -, hc⟩ := Event.call.inj hc
      exact hinsert f.str m (Call.mk.inj hc).1
  cases op with
  | exchange idx msg =>
    obtain rfl : msg = createSsMsg f := hgood
    obtain ⟨hans, ht⟩ := Prod.mk.inj (Option.some.inj hexec)
    subst hans ht
    exact h.exchange hone hguard
  | trieInsert name m =>
    obtain rfl : name = f.str := hgood.1
    exact h.insert hindexed hgood hexec
  | trieUpdate _ _ | trieDelete _ | registerSs _ | deactivateSs _ => exact hgood.elim
  | _ =>
    exact hother (fun _ _ he => by cases he) (fun _ he => by cases he) (fun _ he => by cases he)
      (fun _ _ he => by cases he) rfl

end Invariant

/-! ## One creation at most -/

section Exclusive
variable {ρ : Path → Path} {f : Filename} {s : System} {es : List NmEvent} {p : SystemPool}

theorem OneServer.prefix {e : NmEvent} (h : OneServer (es ++ [e])) : OneServer es := (List.pairwise_append.mp h).1

/-- The invariant after a run of creations, and the contract of every answer in it. -/
theorem createInv_of_run (hindexed : Indexed f.str)
    (h : Run (Guarded (Creates f) (PoolStep (ExecSome (NmOp.execSystem ρ)) nmBody)) (Pool.idle s) es p)
    (hone : OneServer es) : CreateInv ρ f s.nm.ssList es p.state ∧
      ∀ es₁ es₂ i req past result, es = es₁ ++ .answer i req past result :: es₂ → CreatePost f req past result := by
  have hbody : ∀ (q : SystemPool) (i : Nat) (req : NmRequest), Creates f q (.start i req) →
      (nmBody req).Obeys (fun _ => True) (CreateGood f req) (CreatePost f req) [] := by
    intro q i req hreq
    cases req with
    | client prior msg => exact nmBody_creates hreq.1 hreq.2
    | _ => exact hreq.elim
  have h0 : OneServer [] → CreateInv ρ f s.nm.ssList [] s := fun _ =>
    ⟨rfl, fun e he => absurd he List.not_mem_nil, List.Pairwise.nil, fun _ _ _ _ hc => absurd hc List.not_mem_nil,
      fun _ _ _ _ _ hc => absurd hc List.not_mem_nil⟩
  -- requests and answers change nothing
  have hquiet : ∀ (es : List NmEvent) (t : System) (e : NmEvent), (∀ i req past c, e ≠ .call i req past c) →
      (OneServer es → CreateInv ρ f s.nm.ssList es t) → OneServer (es ++ [e]) →
      CreateInv ρ f s.nm.ssList (es ++ [e]) t := by
    intro es t e he hinv hone
    refine (hinv hone.prefix).other rfl rfl (fun _ hd => hd) (fun hw => ?_)
      (fun i req past c hc => absurd hc (he i req past c))
      fun i req past m ans => he i req past _
    cases e with
    | call i req past c => exact he i req past c rfl
    | _ => exact hw.elim
  have hcall : ∀ (es : List NmEvent) (q : SystemPool) (i : Nat) (req : NmRequest) (past : List NmCall) (c : NmCall)
      (t : System), (OneServer es → CreateInv ρ f s.nm.ssList es q.state) → Creates f q (.call i req past c) →
      CreateGood f req past c.op → ExecSome (NmOp.execSystem ρ) q.state c t →
      True ∧ (OneServer (es ++ [.call i req past c]) →
        CreateInv ρ f s.nm.ssList (es ++ [.call i req past c]) t) :=
    fun es q i req past c t hinv hguard hgood hexec =>
      ⟨trivial, fun hone => (hinv hone.prefix).call hindexed hone hguard hgood hexec⟩
  refine ⟨(pool_invariant hbody h0 (fun es t i req => hquiet es t _ (fun _ _ _ _ he => by cases he)) hcall
    (fun es t i req past result hinv _ => hquiet es t _ (fun _ _ _ _ he => by cases he) hinv) h).1 hone, ?_⟩
  intro es₁ es₂ i req past result hes
  rw [hes] at h
  exact pool_answers hbody h0 (fun es t i req => hquiet es t _ (fun _ _ _ _ he => by cases he)) hcall
    (fun es t i req past result hinv _ => hquiet es t _ (fun _ _ _ _ he => by cases he) hinv) h

/-- A request that has answered `SUCCESS` has won, and has registered the file. -/
theorem won_of_answer (hindexed : Indexed f.str)
    (h : Run (Guarded (Creates f) (PoolStep (ExecSome (NmOp.execSystem ρ)) nmBody)) (Pool.idle s) es p)
    (hone : OneServer es) {es₁ es₂ : List NmEvent} {i : Nat} {req : NmRequest} {past : List NmCall} {r : Message}
    (hes : es = es₁ ++ .answer i req past (some r) :: es₂) (hsuccess : r.status = SUCCESS) :
    ∃ before c m, MadeIn es₁ i req before c ∧ Won (.call i req before c) ∧ Registers req before m ∧
      (∃ b ans, MadeIn es₁ i req b ⟨.trieInsert f.str m, ans⟩) ∧ ∃ rest, past = before ++ rest := by
  obtain ⟨b, m, ans, after, hpast, before, idx, msg, ans', rest, hb, hwon, hregisters⟩ :=
    (createInv_of_run hindexed h hone).2 es₁ es₂ i req past (some r) hes r rfl hsuccess
  rw [hes] at h
  have hinsert := recorded_answer h.unguarded hpast
  have hsplit : past = before ++ ⟨.exchange idx msg, ans'⟩ :: (rest ++ ⟨.trieInsert f.str m, ans⟩ :: after) := by
    rw [hpast, hb]; simp
  have hexchange := recorded_answer h.unguarded hsplit
  exact ⟨before, _, m, hexchange, hwon, hregisters, ⟨b, ans, hinsert⟩, _, by rw [hpast, hb, List.append_assoc]⟩

theorem drawnSs_append {before rest : List NmCall} {ssId : Int32} (h : drawnSs before = some ssId) :
    drawnSs (before ++ rest) = some ssId := by
  rw [drawnSs, List.findSome?_append]
  exact Option.or_eq_some_iff.mpr (Or.inl h)

/-- There is one winner. -/
theorem CreateInv.winner {slots : List StorageServerInfo} {t : System} (h : CreateInv ρ f slots es t) {e e' : NmEvent}
    (he : e ∈ es) (he' : e' ∈ es) (hw : Won e) (hw' : Won e') : e = e' := by
  obtain ⟨l, m, rfl⟩ := List.append_of_mem he
  obtain ⟨l', m', hsplit⟩ := List.append_of_mem he'
  exact (same_position h.unique hsplit (fun hno => hno ⟨hw, hw'⟩) fun hno => hno ⟨hw', hw⟩).2.1

/-- **One request at most creates the file**, and its record is the request's own, if the replies of the storage
servers are received and no request goes to another storage server than the one that has created the file. -/
theorem create_exclusive (hindexed : Indexed f.str)
    (h : Run (Guarded (Creates f) (PoolStep (ExecSome (NmOp.execSystem ρ)) nmBody)) (Pool.idle s) es p)
    (hone : OneServer es) : CreatedOnce f es p.state.nm := by
  obtain ⟨hinv, -⟩ := createInv_of_run hindexed h hone
  constructor
  · intro es₁ es₂ es₃ i i' req req' past past' r r' hes hr hr'
    obtain ⟨b, c, m, ⟨l, k, rfl, -⟩, hw, -⟩ := won_of_answer hindexed h hone hes hr
    have hes' : es = ((l ++ .call i req b c :: k) ++ .answer i req past (some r) :: es₂) ++
        .answer i' req' past' (some r') :: es₃ := by
      rw [hes]
      simp only [List.append_assoc, List.cons_append]
    obtain ⟨b', c', m', ⟨l', k', hsplit, hnone⟩, hw', -⟩ := won_of_answer hindexed h hone hes' hr'
    -- both answers come from the one exchange, and the thread has begun nothing else in between
    have hunique : (l ++ .call i req b c :: (k ++ .answer i req past (some r) :: es₂ ++
        .answer i' req' past' (some r') :: es₃)).Pairwise fun e e' => ¬ (Won e ∧ Won e') := by
      have hall := hinv.unique
      rw [hes'] at hall
      simpa only [List.append_assoc, List.cons_append] using hall
    have hsplit' : l ++ .call i req b c :: (k ++ .answer i req past (some r) :: es₂ ++
        .answer i' req' past' (some r') :: es₃) = l' ++ .call i' req' b' c' ::
          (k' ++ .answer i' req' past' (some r') :: es₃) := by
      have hcut := congrArg (· ++ .answer i' req' past' (some r') :: es₃) hsplit
      simpa only [List.append_assoc, List.cons_append] using hcut
    obtain ⟨-, he, hrest⟩ := same_position hunique hsplit' (fun hno => hno ⟨hw, hw'⟩) fun hno => hno ⟨hw', hw⟩
    obtain rfl : i = i' := (Event.call.inj he).1
    obtain rfl := List.append_cancel_right hrest
    rw [hes] at h
    obtain ⟨req'', hstart⟩ := start_between_answers h.unguarded
    exact hnone req'' (by simp [hstart])
  · intro i prior msg past r hmem hr
    obtain ⟨es₁, es₂, hes⟩ := List.append_of_mem hmem
    obtain ⟨b, c, m, hmade, hw, hregisters, ⟨b', ans, hinsert⟩, rest, hpast⟩ := won_of_answer hindexed h hone hes hr
    have hmem₁ : ∀ {b : List NmCall} {c : NmCall}, MadeIn es₁ i (.client prior msg) b c →
        .call i (.client prior msg) b c ∈ es := fun ⟨l, k, hl, _⟩ => by simp [hes, hl]
    obtain ⟨j, req, past', m', ans', hinserted, hfound⟩ := hinv.record i _ b' m ans (hmem₁ hinsert)
    -- the request of the record has won too
    obtain ⟨-, before, idx, msg', ans'', after, hbefore, hsuccess, hregisters'⟩ := hinv.good j req past' _ hinserted
    obtain ⟨l, k, hl⟩ := List.append_of_mem hinserted
    have hrun := h.unguarded
    rw [hl] at hrun
    obtain ⟨l', k', hl', -⟩ := recorded_call hrun hbefore
    have hmem₂ : (Event.call j req before ⟨.exchange idx msg', ans''⟩ : NmEvent) ∈ es := by simp [hl, hl']
    have hwin := hinv.winner (hmem₁ hmade) hmem₂ hw hsuccess
    obtain ⟨-, rfl, rfl, -⟩ := Event.call.inj hwin
    obtain ⟨prior', msg'', hreq, howner, hdrawn⟩ := hregisters'
    obtain ⟨-, rfl⟩ := NmRequest.client.inj hreq
    exact ⟨m', hfound, howner, by rw [hpast]; exact drawnSs_append hdrawn⟩

end Exclusive

/-! ## Two storage servers, and one -/

/-- The reply of a storage server. -/
def exchangeReply : NmEvent → Option (Bool × Message)
  | .call _ _ _ ⟨.exchange _ _, ans⟩ => some ans
  | _ => none

theorem won_iff (e : NmEvent) : (∃ ans ∈ exchangeReply e, ans.2.status = SUCCESS) ↔ Won e := by
  cases e with
  | call i req past c =>
    obtain ⟨op, ans⟩ := c
    cases op <;> simp [exchangeReply, Won]
  | _ => simp [exchangeReply, Won]

instance (e : NmEvent) : Decidable (Won e) := decidable_of_iff _ (won_iff e)

instance (es : List NmEvent) : Decidable (OneServer es) :=
  inferInstanceAs (Decidable (es.Pairwise fun e e' => Won e → ∀ idx' ∈ exchangeAt e', exchangeAt e = some idx'))

theorem creates_call_iff (f : Filename) (p : SystemPool) (i : Nat) (req : NmRequest) (past : List NmCall)
    (c : NmCall) : (∀ ans ∈ exchangeReply (.call i req past c), ans.1 = true ∨ ans.2.status ≠ SUCCESS) ↔
      Creates f p (.call i req past c) := by
  obtain ⟨op, ans⟩ := c
  cases op <;> simp [exchangeReply, Creates]

instance (f : Filename) (p : SystemPool) : (e : NmEvent) → Decidable (Creates f p e)
  | .start _ (.client _ _) => inferInstanceAs (Decidable (_ ∧ _))
  | .start _ (.registerSs _) | .start _ (.heartbeatLost _) => isFalse not_false
  | .start _ (.login ..) | .start _ (.logout _) => isFalse not_false
  | .call i req past c => decidable_of_iff _ (creates_call_iff f p i req past c)
  | .answer .. => isTrue trivial

/-- Some storage servers have registered, without files. -/
def registered (ids : List Int32) : System :=
  (scheduledRun (NmOp.execSystem resolvePath) nmBody (fun _ _ => True) (.idle (initSystem fun _ _ => none))
    (ids.map fun id => servesSmoothly 0 (.registerSs { initMessage with ssId := id }) 4).flatten).2.state

def createNotes (u : Username) : NmRequest :=
  .client initMessage { initMessage with type := MSG_CREATE, sender := u, filename := notes }

/-- Alice and Bob both look for the file before one of them goes on; Bob makes `n` steps then. -/
def bothCreate (ids : List Int32) (n : Nat) : List NmEvent × SystemPool :=
  scheduledRun (NmOp.execSystem resolvePath) nmBody (Creates notes) (.idle (registered ids))
    (servesSmoothly 0 (createNotes alice) 1 ++ servesSmoothly 1 (createNotes bob) 1 ++ goesSmoothly 0 9 ++
      goesSmoothly 1 n)

theorem run_bothCreate (ids : List Int32) (n : Nat) :
    Run (Guarded (Creates notes) (PoolStep (ExecSome (NmOp.execSystem resolvePath)) nmBody)) (.idle (registered ids))
      (bothCreate ids n).1 (bothCreate ids n).2 := run_scheduledRun _ _

/-- The status of an answer. -/
def answerStatus : NmEvent → Option Int32
  | .answer _ _ _ (some r) => some r.status
  | _ => none

theorem answer_of_status {e : NmEvent} {status : Int32} (h : answerStatus e = some status) :
    ∃ i req past r, e = .answer i req past (some r) ∧ r.status = status := by
  cases e with
  | answer i req past result =>
    cases result with
    | none => cases h
    | some r => exact ⟨i, req, past, r, rfl, Option.some.inj h⟩
  | _ => cases h

theorem create_exclusive_one :
    (bothCreate [1] 6).1.filterMap answerStatus = [SUCCESS, ERR_FILE_EXISTS] ∧
      CreatedOnce notes (bothCreate [1] 6).1 (bothCreate [1] 6).2.state.nm :=
  ⟨by decide +kernel, create_exclusive (by decide +kernel) (run_bothCreate _ _) (by decide +kernel)⟩

/-- **Both requests answer `SUCCESS`** when the round robin sends them to two storage servers. -/
theorem created_twice :
    Run (Guarded (Creates notes) (PoolStep (ExecSome (NmOp.execSystem resolvePath)) nmBody)) (.idle (registered [1, 2]))
        (bothCreate [1, 2] 9).1 (bothCreate [1, 2] 9).2 ∧
      ¬ CreatedOnce notes (bothCreate [1, 2] 9).1 (bothCreate [1, 2] 9).2.state.nm := by
  refine ⟨run_bothCreate _ _, fun honce => ?_⟩
  have hstatuses : (bothCreate [1, 2] 9).1.filterMap answerStatus = [SUCCESS, SUCCESS] := by decide
  obtain ⟨es₁, e, rest, hes, -, he, hrest⟩ := List.filterMap_eq_cons_iff.mp hstatuses
  obtain ⟨es₂, e', es₃, hes', -, he', -⟩ := List.filterMap_eq_cons_iff.mp hrest
  obtain ⟨i, req, past, r, rfl, hr⟩ := answer_of_status he
  obtain ⟨i', req', past', r', rfl, hr'⟩ := answer_of_status he'
  rw [hes'] at hes
  exact honce.once es₁ es₂ es₃ i i' req req' past past' r r' hes hr hr'

end NetworkFileShare
