import NetworkFileShare.NameServer.Location

/-!
# Files that are registered

A file enters the trie with a `CREATE` of a client, or with the file list of a storage server.

* `alone_handleCreate` : what a creation does; `RegisteredTo` : the file is found, belongs to the user and is listed;
* `create_registers_iff` : an acknowledged creation registers the names whose bytes the trie has an index for;
* `registerFiles_found` : what the file list of a storage server makes of the records;
* `registration_keeps_iff` : when a registration leaves the files of the other storage servers where they are.
-/

namespace NetworkFileShare

open NmOp (perform)
open Prog (Only)

variable {s t : NameServer} {msg reply : Message}

/-! ## What a listing shows -/

/-- The lines of a listing without details. -/
def lines (names : List CStr) : CStr := (names.map (· ++ lit "\n")).flatten

/-- The names that `VIEW -a` lists. -/
def NameServer.listed (s : NameServer) : List CStr :=
  (trieGetAllFiles s.fileTrie MAX_FILES).map (·.filename)

theorem alone_viewLines (sender : CStr) {files : List FileMetadata} {text : CStr} :
    Alone (ExecSome NmOp.exec) s (viewLines true false sender files) text t ↔
      text = lines (files.map (·.filename)) ∧ t = s := by
  induction files generalizing text with
  | nil =>
    rw [viewLines, alone_pure]
    exact and_congr eq_comm eq_comm
  | cons f files ih =>
    show Alone _ s (viewLines true false sender files >>= fun rest =>
      (pure (f.filename ++ lit "\n" ++ rest) : Handler CStr)) text t ↔ _
    rw [alone_bind]
    constructor
    · rintro ⟨rest, u, hrest, hdone⟩
      obtain ⟨rfl, rfl⟩ := alone_pure.mp hdone
      obtain ⟨rfl, rfl⟩ := ih.mp hrest
      exact ⟨rfl, rfl⟩
    · rintro ⟨rfl, rfl⟩
      exact ⟨_, _, ih.mpr ⟨rfl, rfl⟩, alone_pure.mpr ⟨rfl, rfl⟩⟩

/-- The answer to `VIEW -a`. -/
theorem alone_handleView (hview : ViewsAll msg) : Alone (ExecSome NmOp.exec) s (handleView msg) reply t ↔
    reply = replyText MSG_DATA SUCCESS (lines s.listed) ∧ t = s := by
  have hbody : handleView msg = (do
      let files ← perform .trieGetAllFiles
      let text ← viewLines true false msg.sender.str files
      return replyText MSG_DATA SUCCESS text) := by
    rw [handleView, hview.1, hview.2]
    rfl
  rw [hbody, alone_perform_bind]
  constructor
  · rintro ⟨files, u, ⟨env, hexec⟩, hrest⟩
    obtain ⟨rfl, rfl⟩ := Prod.mk.inj (Option.some.inj hexec)
    obtain ⟨text, v, hlines, hdone⟩ := alone_bind.mp hrest
    obtain ⟨rfl, rfl⟩ := (alone_viewLines _).mp hlines
    obtain ⟨rfl, rfl⟩ := alone_pure.mp hdone
    exact ⟨rfl, rfl⟩
  · rintro ⟨rfl, rfl⟩
    refine ⟨_, t, ⟨⟨0, 0, true, initMessage, none, [], 0⟩, rfl⟩, ?_⟩
    exact alone_bind.mpr ⟨_, t, (alone_viewLines _).mpr ⟨rfl, rfl⟩, alone_pure.mpr ⟨rfl, rfl⟩⟩

/-- Every name has a line of its own. -/
theorem length_le_lines (names : List CStr) : names.length ≤ (lines names).length := by
  induction names with
  | nil => exact Nat.zero_le 0
  | cons name names ih =>
    have hline : (lit "\n").length = 1 := by decide
    show names.length + 1 ≤ (name ++ lit "\n" ++ lines names).length
    rw [List.length_append, List.length_append]
    omega

/-- A file that is found has a line in every listing that fits into the reply. -/
theorem mem_listed {filename : CStr} {m : FileMetadata} (hm : trieSearch s.fileTrie filename = some m)
    (hfits : (lines s.listed).length < MAX_BUFFER) : m.filename ∈ s.listed := by
  have hcount : s.listed.length ≤ (lines s.listed).length := length_le_lines _
  have hlength : s.listed.length = (trieGetAllFiles s.fileTrie MAX_FILES).length := List.length_map _
  refine List.mem_map.mpr ⟨m, collected_of_search hm ?_, rfl⟩
  show (trieGetAllFiles s.fileTrie MAX_FILES).length < MAX_FILES
  have hsizes : MAX_BUFFER < MAX_FILES := by decide
  omega

/-! ## Creation -/

/-- **What a creation does**: it registers the file and says so, or it changes no record and does not. -/
theorem alone_handleCreate (h : Alone (ExecSome NmOp.exec) s (handleCreate msg) reply t) :
    (reply.status ≠ SUCCESS ∧ SameRecords s t) ∨
      (reply.status = SUCCESS ∧ trieSearch s.fileTrie msg.filename.str = none ∧ ∃ ssId now, t.fileTrie =
        (trieInsert s.fileTrie msg.filename.str (newMetadata msg.filename.str msg.sender.str ssId now)).1) := by
  replace h := alone_trieSearch h
  cases hfound : trieSearch s.fileTrie msg.filename.str with
  | some metadata =>
    rw [hfound] at h
    obtain ⟨rfl, rfl⟩ := alone_pure.mp h
    exact Or.inl ⟨by decide, .refl s⟩
  | none =>
    rw [hfound] at h
    obtain ⟨ssId, s₂, hnext, h⟩ := alone_perform_bind.mp h
    have h₂ : SameRecords s s₂ := .of_exec hnext trivial
    split at h
    · obtain ⟨rfl, rfl⟩ := alone_pure.mp h
      exact Or.inl ⟨by decide, h₂⟩
    obtain ⟨slot, s₃, hslot, h⟩ := alone_perform_bind.mp h
    have h₃ : SameRecords s s₃ := h₂.trans (.of_exec hslot trivial)
    rcases slot with _ | idx
    · obtain ⟨rfl, rfl⟩ := alone_pure.mp h
      exact Or.inl ⟨by decide, h₃⟩
    obtain ⟨⟨received, ssResponse⟩, s₄, hexchange, h⟩ := alone_bind.mp h
    have h₄ : SameRecords s s₄ := h₃.trans (.of_alone hexchange (exchangeWith_inert _ _))
    dsimp only at h
    split at h
    · obtain ⟨now, s₅, htime, h⟩ := alone_perform_bind.mp h
      have h₅ : SameRecords s s₅ := h₄.trans (.of_exec htime trivial)
      obtain ⟨status, s₆, ⟨env₆, hinsert⟩, h⟩ := alone_perform_bind.mp h
      obtain ⟨_, s₇, ⟨env₇, hput⟩, h⟩ := alone_perform_bind.mp h
      obtain ⟨rfl, rfl⟩ := alone_pure.mp h
      refine Or.inr ⟨rfl, rfl, ssId, now, ?_⟩
      have hafter : s₆.fileTrie = _ := NmOp.exec_fileTrie hinsert
      have hsame : s₇.fileTrie = s₆.fileTrie := NmOp.exec_fileTrie hput
      rw [hsame, hafter, ← h₅.fileTrie]
      rfl
    · rename_i hfailed
      obtain ⟨rfl, rfl⟩ := alone_pure.mp h
      exact Or.inl ⟨hfailed, h₄⟩

/-- `check_access`. -/
def NameServer.checkAccess (s : NameServer) (filename username : CStr) (required : Int32) : Bool :=
  ((trieSearch s.fileTrie filename).map (·.allows username required)).getD false

/-- The file is found and belongs to the user, who may read and write it, and a listing of all files that fits into
the reply shows it. -/
structure RegisteredTo (s : NameServer) (filename owner : CStr) : Prop where
  found : ∃ m, trieSearch s.fileTrie filename = some m ∧ m.owner = owner
  read : s.checkAccess filename owner ACCESS_READ = true
  write : s.checkAccess filename owner ACCESS_WRITE = true
  shown : ∀ msg, ViewsAll msg → (lines s.listed).length < MAX_BUFFER → ∃ names, filename ∈ names ∧
    ∀ reply t, Alone (ExecSome NmOp.exec) s (handleView msg) reply t → reply.status = SUCCESS ∧
      reply.data.str = lines names

/-- A record under its own name registers the file to its owner. -/
theorem registeredTo_of_found {filename : CStr} {m : FileMetadata} (hm : trieSearch s.fileTrie filename = some m)
    (hname : m.filename = filename) : RegisteredTo s filename m.owner where
  found := ⟨m, hm, rfl⟩
  read := by simp [NameServer.checkAccess, hm, FileMetadata.allows]
  write := by simp [NameServer.checkAccess, hm, FileMetadata.allows]
  shown msg hview hfits := by
    refine ⟨s.listed, hname ▸ mem_listed hm hfits, fun reply t hreply => ?_⟩
    obtain ⟨rfl, rfl⟩ := (alone_handleView hview).mp hreply
    refine ⟨rfl, ?_⟩
    show (lines t.listed).take (MAX_BUFFER - 1) = lines t.listed
    exact List.take_of_length_le (by omega)

/-- **An acknowledged creation registers the names that the trie has an index for, and no others; a creation that is
not acknowledged changes nothing.** -/
theorem create_registers_iff (h : Alone (ExecSome NmOp.exec) s (handleCreate msg) reply t) :
    (reply.status = SUCCESS → (RegisteredTo t msg.filename.str msg.sender.str ↔ Indexed msg.filename.str)) ∧
      (reply.status ≠ SUCCESS → t.fileTrie = s.fileTrie ∧ t.cache = s.cache) := by
  rcases alone_handleCreate h with ⟨hstatus, hsame⟩ | ⟨hstatus, hnone, ssId, now, htrie⟩
  · exact ⟨fun hsuccess => absurd hsuccess hstatus, fun _ => ⟨hsame.fileTrie, hsame.cache⟩⟩
  · refine ⟨fun _ => ?_, fun hfailed => absurd hstatus hfailed⟩
    have hfound := trieSearch_insert s.fileTrie msg.filename.str
      (newMetadata msg.filename.str msg.sender.str ssId now) msg.filename.str
    rw [← htrie, hnone] at hfound
    constructor
    · intro hregistered
      by_contra hout
      obtain ⟨m, hm, -⟩ := hregistered.found
      rw [hfound, if_neg fun hin => hout hin.2] at hm
      cases hm
    · intro hindexed
      rw [if_pos ⟨rfl, hindexed⟩] at hfound
      exact registeredTo_of_found hfound rfl

def createMsg (f : Filename) : Message := { initMessage with type := MSG_CREATE, sender := userOne, filename := f }

/-- A file is created on the only storage server. -/
def createdOn (f : Filename) : Option (Message × NameServer) :=
  (handleAllAlone oneCall initNameServer [registers 1 []]).bind (runAlone oneCall (handleCreate (createMsg f)))

theorem run_createdOn {f : Filename} {b : Bool}
    (h : (createdOn f).map (fun r => (r.1.status, (trieSearch r.2.fileTrie f.str).isSome)) = some (SUCCESS, b)) :
    ∃ s reply t, Run (Handles (ExecSome NmOp.exec)) initNameServer [registers 1 []] s ∧
      Alone (ExecSome NmOp.exec) s (handleCreate (createMsg f)) reply t ∧ reply.status = SUCCESS ∧
      (trieSearch t.fileTrie f.str).isSome = b := by
  obtain ⟨⟨reply, t⟩, hcreated, he⟩ := Option.map_eq_some_iff.mp h
  obtain ⟨s, hs, hrun⟩ := Option.bind_eq_some_iff.mp hcreated
  obtain ⟨hstatus, hfound⟩ := Prod.mk.inj he
  exact ⟨s, reply, t, run_oneCall hs,
    alone_oneCall hrun, hstatus, hfound⟩

theorem create_registers_one : ∃ s reply t, Alone (ExecSome NmOp.exec) s (handleCreate (createMsg fileOne)) reply t ∧
    reply.status = SUCCESS ∧ RegisteredTo t fileOne.str userOne.str := by
  obtain ⟨s, reply, t, -, halone, hstatus, -⟩ := run_createdOn (f := fileOne) (b := true) (by decide)
  exact ⟨s, reply, t, halone, hstatus, ((create_registers_iff halone).1 hstatus).mpr (by decide +kernel)⟩

/-- A name with a byte from 128 on: `é`. -/
def fileAccent : Filename := ⟨[byte 195, byte 169], by decide⟩

/-- **An acknowledged file that is nowhere.** -/
theorem created_unregistered : ∃ (s : NameServer) (msg reply : Message) (t : NameServer),
    Run (Handles (ExecSome NmOp.exec)) initNameServer [registers 1 []] s ∧
      Alone (ExecSome NmOp.exec) s (handleCreate msg) reply t ∧ reply.status = SUCCESS ∧
      trieSearch t.fileTrie msg.filename.str = none := by
  obtain ⟨s, reply, t, hrun, halone, hstatus, hfound⟩ :=
    run_createdOn (f := fileAccent) (b := false) (by decide)
  refine ⟨s, createMsg fileAccent, reply, t, hrun, halone, hstatus, ?_⟩
  refine Option.not_isSome_iff_eq_none.mp fun hin => ?_
  rw [createMsg, hfound] at hin
  cases hin

/-! ## The file list of a storage server -/

/-- The storage server is registered and answers heartbeats. -/
def NameServer.Active (s : NameServer) (ssId : Int32) : Prop := ∃ ss ∈ s.ssList, ss.id = ssId ∧ ss.active = true

/-- There is no slot for the storage server. -/
def NameServer.Refuses (s : NameServer) (msg : Message) : Prop :=
  s.ssIndex msg.ssId false = none ∧ MAX_SS ≤ s.ssList.length

instance (s : NameServer) (msg : Message) : Decidable (s.Refuses msg) :=
  inferInstanceAs (Decidable (s.ssIndex msg.ssId false = none ∧ MAX_SS ≤ s.ssList.length))

/-- The record of a file that a storage server lists. -/
def relocate (ssId : Int32) (tokens : List CStr) (filename : CStr) (m : FileMetadata) : FileMetadata :=
  if filename ∈ tokens then { m with ssId := ssId } else m

/-- **What a file list makes of the records**: the files on it get the storage server as theirs. -/
theorem registerFiles_found {ssId : Int32} {files : List CStr}
    (h : Alone (ExecSome NmOp.exec) s (registerFiles ssId files) () t) {filename : CStr} {m : FileMetadata}
    (hm : trieSearch s.fileTrie filename = some m) :
    trieSearch t.fileTrie filename = some (relocate ssId files filename m) := by
  induction files generalizing s m with
  | nil =>
    obtain ⟨-, rfl⟩ := alone_pure.mp h
    exact hm
  | cons file files ih =>
    replace h := alone_trieSearch h
    cases hfound : trieSearch s.fileTrie file with
    | some existing =>
      rw [hfound] at h
      obtain ⟨status, s₂, ⟨env₂, hupdate⟩, hrest⟩ := alone_perform_bind.mp h
      have htrie : s₂.fileTrie = (trieUpdate s.fileTrie file { existing with ssId := ssId }).1 :=
        NmOp.exec_fileTrie hupdate
      have hafter := trieSearch_update s.fileTrie file { existing with ssId := ssId } filename
      rw [← htrie, hfound] at hafter
      by_cases hname : filename = file
      · subst hname
        obtain rfl : existing = m := by rw [hm] at hfound; exact (Option.some.inj hfound).symm
        rw [if_pos ⟨rfl, rfl⟩] at hafter
        rw [ih hrest hafter, relocate, relocate, if_pos List.mem_cons_self]
        split <;> rfl
      · rw [if_neg fun hin => hname hin.1, hm] at hafter
        rw [ih hrest hafter, relocate, relocate]
        simp only [List.mem_cons, hname, false_or]
    | none =>
      rw [hfound] at h
      obtain ⟨now, s₂, htime, h⟩ := alone_perform_bind.mp h
      have h₂ : SameRecords s s₂ := .of_exec htime trivial
      obtain ⟨status, s₃, ⟨env₃, hinsert⟩, h⟩ := alone_perform_bind.mp h
      have hname : filename ≠ file := by
        rintro rfl
        rw [hm] at hfound
        cases hfound
      have htrie : s₃.fileTrie = (trieInsert s₂.fileTrie file (systemMetadata file ssId now)).1 :=
        NmOp.exec_fileTrie hinsert
      have hafter := trieSearch_insert s.fileTrie file (systemMetadata file ssId now) filename
      rw [← h₂.fileTrie, ← htrie, h₂.fileTrie, if_neg fun hin => hname hin.1, hm] at hafter
      rw [ih h hafter, relocate, relocate]
      simp only [List.mem_cons, hname, false_or]

/-- The slot of a storage server that registers. -/
theorem registerSs_isSome (s : NameServer) (msg : Message) : (s.registerSs msg).1 = none ↔ s.Refuses msg := by
  unfold NameServer.registerSs NameServer.Refuses
  dsimp only
  split
  · rename_i hslot
    simp [hslot]
  · rename_i hslot
    split
    · rename_i hfull
      simp [hslot, hfull]
    · rename_i hroom
      simp [hslot, hroom]

/-- A registration is refused, or the records get the storage server. -/
theorem alone_handleSsConnection (h : Alone (ExecSome NmOp.exec) s (handleSsConnection msg) () t) {filename : CStr}
    {m : FileMetadata} (hm : trieSearch s.fileTrie filename = some m) : trieSearch t.fileTrie filename =
      some (if s.Refuses msg then m else relocate msg.ssId (fileList msg) filename m) := by
  obtain ⟨_, s₁, hlock, h⟩ := alone_perform_bind.mp h
  have h₁ : SameRecords s s₁ := .of_exec hlock trivial
  have hslots : s₁.ssList = s.ssList := by
    obtain ⟨env, hlock⟩ := hlock
    rw [NmOp.exec] at hlock
    split at hlock
    · cases hlock
    · cases hlock
      rfl
  obtain ⟨slot, s₂, hregister, h⟩ := alone_perform_bind.mp h
  have h₂ : SameRecords s s₂ := h₁.trans (.of_exec hregister trivial)
  have hrefused : slot = none ↔ s.Refuses msg := by
    obtain ⟨env, hregister⟩ := hregister
    rw [show slot = (s₁.registerSs msg).1 from (congrArg Prod.fst (Option.some.inj hregister)).symm,
      registerSs_isSome, NameServer.Refuses, NameServer.Refuses, NameServer.ssIndex, NameServer.ssIndex, hslots]
  rcases slot with _ | idx
  · have h₃ : SameRecords s t := h₂.trans (.of_alone h (.perform trivial))
    rw [if_pos (hrefused.mp rfl), h₃.fileTrie, hm]
  · rw [if_neg fun hrefuses => Option.some_ne_none _ (hrefused.mpr hrefuses)]
    obtain ⟨_, s₃, hfiles, h⟩ := alone_bind.mp h
    have hlast : SameRecords s₃ t := .of_alone h (.perform trivial)
    rw [hlast.fileTrie]
    exact registerFiles_found hfiles (by rw [h₂.fileTrie, hm])

/-- The files of the other storage servers that answer heartbeats keep theirs. -/
def RoutesKept (ssId : Int32) (s t : NameServer) : Prop :=
  ∀ filename m, trieSearch s.fileTrie filename = some m → m.ssId ≠ ssId → s.Active m.ssId →
    ∃ m', trieSearch t.fileTrie filename = some m' ∧ m'.ssId = m.ssId

/-- The registered files keep their owners and access lists. -/
def RightsKept (s t : NameServer) : Prop :=
  ∀ filename m, trieSearch s.fileTrie filename = some m →
    ∃ m', trieSearch t.fileTrie filename = some m' ∧ m'.owner = m.owner ∧ m'.acl = m.acl

/-- **A registration keeps the files of the others where they are if and only if** it is refused, or lists no file of
another storage server that answers heartbeats. -/
theorem registration_keeps_iff (h : Alone (ExecSome NmOp.exec) s (handleSsConnection msg) () t) :
    (RoutesKept msg.ssId s t ∧ RightsKept s t) ↔ (s.Refuses msg ∨ ∀ filename ∈ fileList msg, ∀ m,
      trieSearch s.fileTrie filename = some m → m.ssId = msg.ssId ∨ ¬ s.Active m.ssId) := by
  constructor
  · rintro ⟨hroutes, -⟩
    refine or_iff_not_imp_left.mpr fun haccepts filename hlisted m hm => ?_
    by_contra hother
    obtain ⟨hne, hactive⟩ := not_or.mp hother
    obtain ⟨m', hm', hroute⟩ := hroutes filename m hm hne (not_not.mp hactive)
    rw [alone_handleSsConnection h hm, if_neg haccepts, relocate, if_pos hlisted] at hm'
    rw [← Option.some.inj hm'] at hroute
    exact hne hroute.symm
  · intro hcondition
    refine ⟨fun filename m hm hne hactive => ?_, fun filename m hm => ?_⟩
    · refine ⟨_, alone_handleSsConnection h hm, ?_⟩
      split
      · rfl
      · rename_i haccepts
        rw [relocate]
        split
        · rename_i hlisted
          exact absurd hactive ((hcondition.resolve_left haccepts filename hlisted m hm).resolve_left hne)
        · rfl
    · refine ⟨_, alone_handleSsConnection h hm, ?_⟩
      unfold relocate
      split
      · exact ⟨rfl, rfl⟩
      · split <;> exact ⟨rfl, rfl⟩

/-- The message of a storage server that registers with the files it has. -/
def listMsg (id : Int32) (files : CStr) : Message :=
  { initMessage with ssId := id, data := .strncpy (MAX_BUFFER - 1) files }

/-- A file is created on the only storage server; then another one registers with a file list. -/
def secondRegisters (files : CStr) : Option (NameServer × NameServer) :=
  (handleAllAlone oneCall initNameServer [registers 1 [], createOne]).bind fun s =>
    (runAlone oneCall (handleSsConnection (listMsg 2 files)) s).map fun r => (s, r.2)

theorem run_secondRegisters {β : Type} (files : CStr) (view : NameServer → NameServer → β) {b : β}
    (h : (secondRegisters files).map (fun r => view r.1 r.2) = some b) : ∃ s t, view s t = b ∧
      Run (Handles (ExecSome NmOp.exec)) initNameServer [registers 1 [], createOne] s ∧
      Alone (ExecSome NmOp.exec) s (handleSsConnection (listMsg 2 files)) () t := by
  obtain ⟨⟨s', t⟩, hregisters, rfl⟩ := Option.map_eq_some_iff.mp h
  obtain ⟨s, hs, hmap⟩ := Option.bind_eq_some_iff.mp hregisters
  obtain ⟨⟨u, t'⟩, hrun, he⟩ := Option.map_eq_some_iff.mp hmap
  obtain ⟨rfl, rfl⟩ := Prod.mk.inj he
  exact ⟨s, t', rfl, run_oneCall hs,
    alone_oneCall hrun⟩

theorem registration_keeps_one : ∃ s t, Alone (ExecSome NmOp.exec) s (handleSsConnection (listMsg 2 (lit "m"))) () t ∧
    RoutesKept 2 s t ∧ RightsKept s t := by
  obtain ⟨s, t, hview, -, halone⟩ := run_secondRegisters (lit "m")
    (fun s _ => (trieSearch s.fileTrie (lit "m")).isSome) (b := false) (by decide)
  refine ⟨s, t, halone, (registration_keeps_iff halone).mpr (Or.inr fun filename hlisted m hm => ?_)⟩
  have hlist : fileList (listMsg 2 (lit "m")) = [lit "m"] := by decide
  rw [hlist] at hlisted
  obtain rfl := List.mem_singleton.mp hlisted
  rw [hm] at hview
  cases hview

/-- **A file of a storage server that answers heartbeats, on the list of another.** -/
theorem registration_reroutes : ∃ (s : NameServer) (msg : Message) (t : NameServer) (filename : CStr)
    (m m' : FileMetadata), Run (Handles (ExecSome NmOp.exec)) initNameServer [registers 1 [], createOne] s ∧
      Alone (ExecSome NmOp.exec) s (handleSsConnection msg) () t ∧ trieSearch s.fileTrie filename = some m ∧
      m.ssId ≠ msg.ssId ∧ s.Active m.ssId ∧ trieSearch t.fileTrie filename = some m' ∧ m'.ssId ≠ m.ssId := by
  obtain ⟨s, t, hview, hrun, halone⟩ := run_secondRegisters (lit "n")
    (fun s t => ((trieSearch s.fileTrie (lit "n")).map (·.ssId), (trieSearch t.fileTrie (lit "n")).map (·.ssId),
      s.ssList.any fun ss => ss.id = 1 && ss.active)) (b := (some 1, some 2, true)) (by decide)
  obtain ⟨hbefore, hview⟩ := Prod.mk.inj hview
  obtain ⟨hafter, hactive⟩ := Prod.mk.inj hview
  obtain ⟨m, hm, hid⟩ := Option.map_eq_some_iff.mp hbefore
  obtain ⟨m', hm', hid'⟩ := Option.map_eq_some_iff.mp hafter
  obtain ⟨ss, hmem, hss⟩ := List.any_eq_true.mp hactive
  rw [Bool.and_eq_true, decide_eq_true_iff] at hss
  refine ⟨s, _, t, lit "n", m, m', hrun, halone, hm, ?_, ?_, hm', ?_⟩
  · rw [hid]
    decide
  · rw [hid]
    exact ⟨ss, hmem, hss⟩
  · rw [hid, hid']
    decide

end NetworkFileShare
