import NetworkFileShare.Cache.Coherence
import NetworkFileShare.NameServer.Calls

/-!
# Where a file is

`find_ss_for_file` asks the cache first, and the file trie only for what the cache does not have.

* `CopySafe` : the calls that keep the copies in step: a record is written under a storage server that no copy
  contradicts, a copy is made under a name of the trie, and a removal cuts no probe chain;
* `LocationInv` : every copy names the storage server of the record; `Here fs` : so do the records a handler has read;
* `nmBody_here` : every request, handled alone, keeps the invariant;
* `locations_agree` : in every run of requests whose calls are safe, the two ways to a file agree;
* `registered_elsewhere` : a storage server that registers a file of another.
-/

namespace NetworkFileShare

open NmOp (perform)
open Prog (Only)

/-! ## Requests one after another -/

/-- The name server handles a request from its first call to its last, and all its calls return. -/
def Handles (exec : NameServer → NmCall → NameServer → Prop) (s : NameServer) (req : NmRequest)
    (t : NameServer) : Prop :=
  ∃ reply, Alone exec s (nmBody req) reply t

/-- No copy of `filename` names another storage server than `ssId`. -/
def NameServer.CopiesAt (s : NameServer) (filename : CStr) (ssId : Int32) : Prop :=
  ∀ i < s.cache.capacity, ∀ a ∈ s.cache.hashTable i, s.cache.keyOf a = filename → (s.cache.valueOf a).ssId = ssId

/-- The call keeps the copies in step with the records. -/
def CopySafe (s : NameServer) (c : NmCall) : Prop :=
  match c.op with
  | .trieInsert filename metadata | .trieUpdate filename metadata => s.CopiesAt filename metadata.ssId
  | .cachePut filename metadata => CacheSafe s.cache (.put filename metadata, none) ∧ Indexed filename
  | .cacheRemove filename => CacheSafe s.cache (.remove filename, none)
  | _ => True

/-- The calls that keep the copies in step. -/
abbrev SafeCall : NameServer → NmCall → NameServer → Prop := Guarded CopySafe (ExecSome NmOp.exec)

/-! ## The invariant -/

/-- The storage server that the trie has for a file. -/
def NameServer.located (s : NameServer) (filename : CStr) : Option Int32 :=
  (trieSearch s.fileTrie filename).map (·.ssId)

/-- Every copy, except of the file `skip`, names the storage server of the record. -/
structure LocationInv (skip : Option CStr) (s : NameServer) : Prop where
  copies : ∃ es, Coherent es s.cache ∧
    ∀ f v, skip ≠ some f → lastPut es f = some v → s.located f = some v.ssId
  named : ∀ f m, trieSearch s.fileTrie f = some m → m.filename = f
  nulFree : NulFree s.fileTrie

/-- The invariant holds, and the records `fs` name the storage servers of their files. -/
structure Here (fs : List FileMetadata) (s : NameServer) : Prop where
  inv : LocationInv none s
  here : ∀ f ∈ fs, s.located f.filename = some f.ssId

theorem LocationInv.init : LocationInv none initNameServer where
  copies := ⟨[], Coherent.init _, fun f v _ hv => by cases hv⟩
  named f m hm := by
    have hnone : trieSearch (createTrieNode : TrieNode FileMetadata) f = none := by
      cases f with
      | nil => rfl
      | cons c cs => simp [createTrieNode, trieSearch_cons]
    rw [show trieSearch initNameServer.fileTrie f = none from hnone] at hm
    cases hm
  nulFree := .create

/-- A name that no entry of the table has may count as removed. -/
theorem Coherent.forget {es : List CacheEvent} {c : LRUCache} (h : Coherent es c) {key : CStr}
    (habsent : ∀ i a, c.hashTable i = some a → c.keyOf a ≠ key) : Coherent (es ++ [(.remove key, none)]) c := by
  refine ⟨h.counted, h.placed, h.bounded, h.allocated, h.separate, fun i a hi => ?_⟩
  rw [lastPut_snoc, CacheOp.expect, if_neg fun he => habsent i a hi he.symm]
  exact h.current i a hi

section Steps
variable {s t : NameServer} {skip : Option CStr} {fs : List FileMetadata}

/-- A call that changes no copy: at most a lookup of the cache. -/
theorem cache_of_quiet {env : NmEnv} {op : NmOp} {ans : op.Ans} (hop : Quiet op)
    (h : op.exec env s = some (ans, t)) : t.cache = s.cache ∨ ∃ f v, CacheStep s.cache (.get f, v) t.cache := by
  cases op with
  | trieInsert _ _ | trieUpdate _ _ | trieDelete _ | cachePut _ _ | cacheRemove _ => exact hop.elim
  | cacheGet f =>
    obtain ⟨r, hget, he⟩ := Option.map_eq_some_iff.mp h
    cases he
    exact Or.inr ⟨f, r.2, env.fuel, hget⟩
  | nextSsRoundRobin =>
    rw [NmOp.exec] at h
    split at h
    · cases h
    · have hsame : (s.nextSsRoundRobin env.outside).2.cache = s.cache := by
        unfold NameServer.nextSsRoundRobin
        split <;> rfl
      rw [← hsame, Option.some.inj h]
      exact Or.inl rfl
  | registerSs msg =>
    have hsame : (s.registerSs msg).2.cache = s.cache := by
      unfold NameServer.registerSs
      dsimp only
      split
      · rfl
      · split <;> rfl
    rw [NmOp.exec] at h
    rw [← hsame, Option.some.inj h]
    exact Or.inl rfl
  | deactivateSs ssId =>
    rw [NmOp.exec] at h
    split at h
    · cases h
    · cases h
      have hsame : (s.deactivateSs ssId).cache = s.cache := by
        unfold NameServer.deactivateSs
        split <;> rfl
      exact Or.inl hsame
  | ssIndex _ _ | ssInfo _ | lock _ =>
    rw [NmOp.exec] at h
    split at h
    · cases h
    · cases h
      exact Or.inl rfl
  | _ => cases h; exact Or.inl rfl

/-- A call that changes neither a record nor a copy. -/
theorem LocationInv.quiet (h : LocationInv skip s) {op : NmOp} {ans : op.Ans} (hop : Quiet op)
    (hexec : ExecSome NmOp.exec s ⟨op, ans⟩ t) : LocationInv skip t ∧ t.fileTrie = s.fileTrie := by
  obtain ⟨env, hexec⟩ := hexec
  have htrie : t.fileTrie = s.fileTrie := by
    rw [NmOp.exec_fileTrie hexec]
    cases op with
    | trieInsert _ _ | trieUpdate _ _ | trieDelete _ => exact hop.elim
    | _ => rfl
  have hlocated : t.located = s.located := by
    funext f
    rw [NameServer.located, htrie]
    rfl
  obtain ⟨es, hcoherent, hagree⟩ := h.copies
  refine ⟨⟨?_, by rw [htrie]; exact h.named, by rw [htrie]; exact h.nulFree⟩, htrie⟩
  rw [hlocated]
  rcases cache_of_quiet hop hexec with hcache | ⟨f, v, hget⟩
  · exact ⟨es, by rw [hcache]; exact hcoherent, hagree⟩
  · refine ⟨es ++ [(.get f, v)], hcoherent.step (e := (.get f, v)) trivial hget, fun g w hg hw => hagree g w hg ?_⟩
    rw [lastPut_snoc] at hw
    exact hw

/-- A record is written, and no copy of the file names another storage server. -/
theorem LocationInv.write (h : LocationInv skip s) {filename : CStr} {m : FileMetadata} {c : Prop} [Decidable c]
    (hcache : t.cache = s.cache) (hnul : NulFree t.fileTrie)
    (htrie : ∀ f, trieSearch t.fileTrie f = if f = filename ∧ c then some m else trieSearch s.fileTrie f)
    (hname : m.filename = filename) (hcopies : s.CopiesAt filename m.ssId) : LocationInv skip t := by
  obtain ⟨es, hcoherent, hagree⟩ := h.copies
  refine ⟨?_, fun f m' hm' => ?_, hnul⟩
  · rw [hcache]
    by_cases hstored : ∃ i a, s.cache.hashTable i = some a ∧ s.cache.keyOf a = filename
    · obtain ⟨i, a, hi, hkey⟩ := hstored
      have hvalue := hcopies i (hcoherent.bounded i a hi) a hi hkey
      have hlast := hcoherent.current i a hi
      refine ⟨es, hcoherent, fun f v hskip hv => ?_⟩
      rw [NameServer.located, htrie]
      split
      · rename_i hf
        rw [hf.1, ← hkey, hlast] at hv
        rw [Option.map_some, ← hvalue, Option.some.inj hv]
      · exact hagree f v hskip hv
    · refine ⟨_, hcoherent.forget fun i a hi hkey => hstored ⟨i, a, hi, hkey⟩, fun f v hskip hv => ?_⟩
      rw [lastPut_snoc, CacheOp.expect] at hv
      split at hv
      · cases hv
      · rename_i hne
        rw [NameServer.located, htrie, if_neg fun hf => hne hf.1.symm]
        exact hagree f v hskip hv
  · rw [htrie] at hm'
    split at hm'
    · rename_i hf
      rw [← Option.some.inj hm', hname, hf.1]
    · exact h.named f m' hm'

/-- A copy is made of what the trie has. -/
theorem LocationInv.put (h : LocationInv skip s) {filename : CStr} {m : FileMetadata}
    (hexec : SafeCall s ⟨.cachePut filename m, ()⟩ t) (hlocated : s.located filename = some m.ssId) :
    LocationInv skip t ∧ t.fileTrie = s.fileTrie := by
  obtain ⟨⟨hsafe, -⟩, env, hexec⟩ := hexec
  have htrie : t.fileTrie = s.fileTrie := NmOp.exec_fileTrie hexec
  obtain ⟨c, hput, he⟩ := Option.map_eq_some_iff.mp hexec
  obtain ⟨es, hcoherent, hagree⟩ := h.copies
  have hstep : CacheStep s.cache (.put filename m, none) c := ⟨env.fuel, by rw [CacheOp.exec, hput]; rfl⟩
  obtain rfl := (Prod.mk.inj he).2
  refine ⟨⟨⟨_, hcoherent.step hsafe hstep, fun f v hskip hv => ?_⟩, h.named, h.nulFree⟩, htrie⟩
  rw [lastPut_snoc, CacheOp.expect] at hv
  split at hv
  · rename_i hf
    rw [← hf, ← Option.some.inj hv]
    exact hlocated
  · exact hagree f v hskip hv

/-- The record of a file is deleted: its copy stands alone. -/
theorem LocationInv.delete (h : LocationInv none s) {filename : CStr}
    (hexec : ExecSome NmOp.exec s ⟨.trieDelete filename, ()⟩ t) : LocationInv (some filename) t := by
  obtain ⟨env, hexec⟩ := hexec
  obtain rfl := (Prod.mk.inj (Option.some.inj hexec)).2
  obtain ⟨es, hcoherent, hagree⟩ := h.copies
  refine ⟨⟨es, hcoherent, fun f v hskip hv => ?_⟩, fun f m hm => ?_, h.nulFree.delete filename⟩
  · rw [NameServer.located, trieSearch_delete, if_neg fun hf => hskip (by rw [hf])]
    exact hagree f v (fun he => by cases he) hv
  · rw [trieSearch_delete] at hm
    split at hm
    · cases hm
    · exact h.named f m hm

/-- And then the copy is removed. -/
theorem LocationInv.remove {filename : CStr} (h : LocationInv (some filename) s)
    (hexec : SafeCall s ⟨.cacheRemove filename, ()⟩ t) : LocationInv none t := by
  obtain ⟨hsafe, env, hexec⟩ := hexec
  obtain ⟨c, hremove, he⟩ := Option.map_eq_some_iff.mp hexec
  obtain rfl := (Prod.mk.inj he).2
  obtain ⟨es, hcoherent, hagree⟩ := h.copies
  have hstep : CacheStep s.cache (.remove filename, none) c := ⟨env.fuel, by rw [CacheOp.exec, hremove]; rfl⟩
  refine ⟨⟨_, hcoherent.step (e := (.remove filename, none)) hsafe hstep, fun f v _ hv => ?_⟩, h.named, h.nulFree⟩
  rw [lastPut_snoc, CacheOp.expect] at hv
  split at hv
  · cases hv
  · rename_i hne
    exact hagree f v (fun he => hne (Option.some.inj he)) hv

end Steps

/-! ## The handlers -/

section Handlers
variable {fs : List FileMetadata} {filename : CStr}

theorem here_quiet {α : Type} {p : Handler α} (h : Only Quiet p) : Ensures SafeCall (Here fs) p fun _ => Here fs := by
  refine .of_only h fun s op ans t hop hs hexec => ?_
  obtain ⟨hinv, htrie⟩ := hs.inv.quiet hop hexec.2
  exact ⟨hinv, fun f hf => by rw [NameServer.located, htrie]; exact hs.here f hf⟩

/-- A record that is found names its storage server. -/
theorem here_search : Ensures SafeCall (Here fs) (perform (.trieSearch filename)) fun found s =>
    Here (found.toList ++ fs) s ∧ (∀ m ∈ found, m.filename = filename) ∧
      (found = none → s.located filename = none) := by
  refine .perform fun s found t hs hexec => ?_
  obtain ⟨-, env, hexec⟩ := hexec
  obtain ⟨rfl, rfl⟩ := Prod.mk.inj (Option.some.inj hexec)
  have hnamed : ∀ m ∈ trieSearch s.fileTrie filename, m.filename = filename := fun m hm => hs.inv.named filename m hm
  refine ⟨⟨hs.inv, fun f hf => ?_⟩, hnamed, fun hnone => by rw [NameServer.located, hnone]; rfl⟩
  rcases List.mem_append.mp hf with hf | hf
  · have hfound := Option.mem_toList.mp hf
    rw [NameServer.located, hnamed f hfound, hfound]
    rfl
  · exact hs.here f hf

/-- **A record that is written back, under its name and storage server.** -/
theorem here_writeBack {f m : FileMetadata} (hf : f ∈ fs) (hname : f.filename = filename) (hm : m.filename = filename)
    (hid : m.ssId = f.ssId) : Ensures SafeCall (Here fs) (writeBack filename m) fun _ => Here fs := by
  have hupdate : Ensures SafeCall (Here fs) (perform (.trieUpdate filename m)) fun _ => Here fs := by
    refine .perform fun s status t hs hexec => ?_
    obtain ⟨hsafe, env, hexec⟩ := hexec
    obtain rfl := (Prod.mk.inj (Option.some.inj hexec)).2
    have htrie := trieSearch_update s.fileTrie filename m
    refine ⟨hs.inv.write rfl (hs.inv.nulFree.update filename m) htrie hm hsafe, fun g hg => ?_⟩
    have hold := hs.here g hg
    rw [NameServer.located, htrie]
    split
    · rename_i hsame
      have hfile := hs.here f hf
      rw [hname, ← hsame.1, hold] at hfile
      rw [Option.map_some, hid, hfile]
    · exact hold
  refine .bind hupdate fun _ => .perform fun s _ t hs hexec => ?_
  obtain ⟨hinv, htrie⟩ := hs.inv.put hexec (by rw [hid, ← hname]; exact hs.here f hf)
  exact ⟨hinv, fun g hg => by rw [NameServer.located, htrie]; exact hs.here g hg⟩

theorem here_findSsForFile : Ensures SafeCall (Here fs) (findSsForFile filename) fun _ => Here fs := by
  refine .bind (here_quiet (.perform trivial)) fun cached => ?_
  rcases cached with _ | metadata
  · refine .bind here_search fun found => ?_
    rcases found with _ | metadata
    · exact .pure fun s hs => hs.1
    · refine .bind (R := fun _ => Here fs) (.perform fun s _ t hs hexec => ?_) fun _ => .pure fun s hs => hs
      obtain ⟨⟨hinv, hhere⟩, hnamed, -⟩ := hs
      have hfile : s.located filename = some metadata.ssId := by
        rw [← hnamed metadata rfl]
        exact hhere metadata (by simp)
      obtain ⟨hinv, htrie⟩ := hinv.put hexec hfile
      exact ⟨hinv, fun g hg => by rw [NameServer.located, htrie]; exact hhere g (by simp [hg])⟩
  · exact .pure fun s hs => hs

/-- From a state with the records `fs`, the program keeps the copies in step. -/
abbrev KeepsCopies {α : Type} (fs : List FileMetadata) (p : Handler α) : Prop :=
  Ensures SafeCall (Here fs) p fun _ => LocationInv none

theorem keepsCopies_pure {α : Type} (a : α) : KeepsCopies fs (pure a : Handler α) := .pure fun _ hs => hs.inv

theorem keepsCopies_quiet {α : Type} {p : Handler α} (h : Only Quiet p) : KeepsCopies fs p :=
  (here_quiet h).mono (fun _ hs => hs) fun _ _ hs => hs.inv

/-- A record that has been found, and what is done with it. -/
theorem keepsCopies_search {α : Type} {k : Option FileMetadata → Handler α} (hnone : KeepsCopies fs (k none))
    (hsome : ∀ m, m.filename = filename → KeepsCopies (m :: fs) (k (some m))) :
    KeepsCopies fs (perform (.trieSearch filename) >>= k) := by
  refine .bind here_search fun found => ?_
  rcases found with _ | m
  · exact hnone.mono (fun _ hs => hs.1) fun _ _ hs => hs
  · refine .assume (fun _ hs => hs.2.1 m rfl) fun hname => ?_
    exact (hsome m hname).mono (fun _ hs => hs.1) fun _ _ hs => hs

/-- The record that has been found is written back with another access list, folder or statistics. -/
theorem keepsCopies_writeBack {α : Type} {f m : FileMetadata} {k : Unit → Handler α} (hname : f.filename = filename)
    (hm : m.filename = f.filename) (hid : m.ssId = f.ssId) (hk : ∀ u, KeepsCopies (f :: fs) (k u)) :
    KeepsCopies (f :: fs) (writeBack filename m >>= k) :=
  .bind (here_writeBack List.mem_cons_self hname (hm.trans hname) hid) hk

theorem handleCreate_keepsCopies (msg : Message) : KeepsCopies fs (handleCreate msg) := by
  refine keepsCopies_search ?_ fun metadata _ => keepsCopies_pure _
  refine .bind (here_quiet (.perform trivial)) fun ssId => .ite (fun _ => keepsCopies_pure _) fun _ => ?_
  refine .bind (here_quiet (.perform trivial)) fun slot => ?_
  rcases slot with _ | idx
  · exact keepsCopies_pure _
  refine .bind (here_quiet (exchangeWith_quiet _ _)) fun reply => .ite (fun _ => ?_) fun _ => keepsCopies_pure _
  refine .bind (here_quiet (.perform trivial)) fun now => ?_
  -- the insertion fails on a name that has no place in the trie, and so would the copy
  have hinsert : Ensures SafeCall (Here fs) (perform (.trieInsert msg.filename.str
      (newMetadata msg.filename.str msg.sender.str ssId now))) fun _ s => LocationInv none s ∧
        (Indexed msg.filename.str → s.located msg.filename.str = some ssId) := by
    refine .perform fun s status t hs hexec => ?_
    obtain ⟨hsafe, env, hexec⟩ := hexec
    obtain rfl := (Prod.mk.inj (Option.some.inj hexec)).2
    have htrie := trieSearch_insert s.fileTrie msg.filename.str (newMetadata msg.filename.str msg.sender.str ssId now)
    refine ⟨hs.inv.write rfl (hs.inv.nulFree.insert _ _) htrie rfl hsafe, fun hindexed => ?_⟩
    rw [NameServer.located, htrie, if_pos ⟨rfl, hindexed⟩]
    rfl
  refine .bind hinsert fun _ => .bind (R := fun _ => LocationInv none) (.perform fun s _ t hs hexec => ?_) fun _ =>
    .pure fun _ hs => hs
  exact (hs.1.put hexec (hs.2 hexec.1.2)).1

theorem handleDelete_keepsCopies (msg : Message) : KeepsCopies fs (handleDelete msg) := by
  refine keepsCopies_search (keepsCopies_pure _) fun metadata _ => .ite (fun _ => keepsCopies_pure _) fun _ => ?_
  refine .bind (here_quiet (.perform trivial)) fun slot => ?_
  rcases slot with _ | idx
  · exact keepsCopies_pure _
  refine .bind (here_quiet (.perform trivial)) fun _ => .bind (here_quiet (.perform trivial)) fun locks => ?_
  refine .ite (fun _ => keepsCopies_quiet (.bind (.perform trivial) fun _ => .pure _)) fun _ => ?_
  refine .bind (here_quiet (.perform trivial)) fun reply => .bind (here_quiet (.perform trivial)) fun _ => ?_
  refine .ite (fun _ => ?_) fun _ => keepsCopies_pure _
  have hdelete : Ensures SafeCall (Here (metadata :: fs)) (perform (.trieDelete msg.filename.str)) fun _ =>
      LocationInv (some msg.filename.str) :=
    .perform fun s _ t hs hexec => hs.inv.delete hexec.2
  refine .bind hdelete fun _ => .bind (R := fun _ => LocationInv none) (.perform fun s _ t hs hexec => ?_) fun _ =>
    .pure fun _ hs => hs
  exact hs.remove hexec

theorem grant_fields (m : FileMetadata) (u : CStr) (access : Int32) :
    (m.grant u access).filename = m.filename ∧ (m.grant u access).ssId = m.ssId := by
  unfold FileMetadata.grant
  split
  · exact ⟨rfl, rfl⟩
  · split <;> exact ⟨rfl, rfl⟩

theorem handleAccess_keepsCopies (msg : Message) : KeepsCopies fs (handleAccess msg) := by
  refine keepsCopies_search (keepsCopies_pure _) fun metadata hname => .ite (fun _ => keepsCopies_pure _) fun _ => ?_
  refine .ite (fun _ => ?_) fun _ => .ite (fun _ => ?_) fun _ => keepsCopies_pure _
  · refine .bind (here_quiet (.perform trivial)) fun known => .ite (fun _ => ?_) fun _ => keepsCopies_pure _
    obtain ⟨hfile, hid⟩ := grant_fields metadata msg.targetUser.str msg.access
    exact .ite (fun _ => keepsCopies_pure _) fun _ =>
      keepsCopies_writeBack hname hfile hid fun _ => keepsCopies_pure _
  · exact keepsCopies_writeBack hname rfl rfl fun _ => keepsCopies_pure _

theorem handleApproveRequest_keepsCopies (msg : Message) : KeepsCopies fs (handleApproveRequest msg) := by
  have hend : ∀ {fs : List FileMetadata} {reply : Message},
      KeepsCopies fs (do perform (.unlock .request); return reply) :=
    keepsCopies_quiet (.bind (.perform trivial) fun _ => .pure _)
  refine .bind (here_quiet (.perform trivial)) fun _ => .bind (here_quiet (.perform trivial)) fun requests => ?_
  rcases requestAt requests msg.sentenceIndex with _ | req
  · exact hend
  refine keepsCopies_search hend fun metadata hname => .ite (fun _ => hend) fun _ => ?_
  obtain ⟨hfile, hid⟩ := grant_fields metadata req.username.str req.requestedAccess
  refine keepsCopies_writeBack hname hfile hid fun _ => ?_
  exact keepsCopies_quiet (.bind (.perform trivial) fun _ => .bind (.perform trivial) fun _ => .pure _)

theorem handleMove_keepsCopies (msg : Message) : KeepsCopies fs (handleMove msg) := by
  refine keepsCopies_search (keepsCopies_pure _) fun metadata hname => ?_
  have hmove : KeepsCopies (metadata :: fs) (moveFile msg metadata) := by
    refine .bind (here_quiet (.perform trivial)) fun slot => ?_
    rcases slot with _ | idx
    · exact keepsCopies_pure _
    refine .bind (here_quiet (exchangeWith_quiet _ _)) fun reply => .ite (fun _ => ?_) fun _ => keepsCopies_pure _
    exact keepsCopies_writeBack hname rfl rfl fun _ => keepsCopies_pure _
  refine .bind (here_quiet (.ite (.pure _) (.perform trivial))) fun allowed => ?_
  refine .ite (fun _ => keepsCopies_pure _) fun _ => .ite (fun _ => hmove) fun _ => ?_
  refine .bind (here_quiet (.perform trivial)) fun folder => ?_
  rcases folder with _ | folder
  · exact keepsCopies_pure _
  · exact hmove

/-- What `sscanf` stores leaves the name and the storage server alone. -/
theorem statFields_fields (text : CStr) (m : FileMetadata) :
    (scanFields statFields text m).filename = m.filename ∧ (scanFields statFields text m).ssId = m.ssId :=
  ⟨scanFields_keeps (·.filename) (by simp [statFields]) text m, scanFields_keeps (·.ssId) (by simp [statFields]) text m⟩

theorem refreshFile_here {f : FileMetadata} (hf : f ∈ fs) :
    Ensures SafeCall (Here fs) (refreshFile f) fun _ => Here fs := by
  refine .bind (here_quiet (.perform trivial)) fun slot => ?_
  rcases slot with _ | idx
  · exact .pure fun _ hs => hs
  refine .bind (here_quiet (.perform trivial)) fun _ => .bind (here_quiet (.perform trivial)) fun reply => ?_
  refine .ite (fun _ => ?_) fun _ => here_quiet (.bind (.perform trivial) fun _ => .pure _)
  obtain ⟨hname, hid⟩ := statFields_fields reply.2.data.str f
  refine .bind (here_writeBack hf rfl hname hid) fun _ => ?_
  exact here_quiet (.bind (.perform trivial) fun _ => .pure _)

theorem refreshFiles_here {files : List FileMetadata} (hfiles : ∀ f ∈ files, f ∈ fs) :
    Ensures SafeCall (Here fs) (refreshFiles files) fun _ => Here fs := by
  induction files with
  | nil => exact .pure fun _ hs => hs
  | cons f files ih =>
    refine .bind (refreshFile_here (hfiles f List.mem_cons_self)) fun f' => ?_
    exact .bind (ih fun g hg => hfiles g (List.mem_cons_of_mem f hg)) fun _ => .pure fun _ hs => hs

theorem handleView_keepsCopies (msg : Message) : KeepsCopies [] (handleView msg) := by
  -- the files of the listing are those of the trie
  have hall : Ensures SafeCall (Here []) (perform .trieGetAllFiles) fun files => Here files := by
    refine .perform fun s files t hs hexec => ?_
    obtain ⟨-, env, hexec⟩ := hexec
    obtain ⟨rfl, rfl⟩ := Prod.mk.inj (Option.some.inj hexec)
    refine ⟨hs.inv, fun f hf => ?_⟩
    obtain ⟨name, hname⟩ := mem_getAllFiles hs.inv.nulFree hf
    rw [hs.inv.named name f hname, NameServer.located, hname]
    rfl
  refine .bind hall fun files => ?_
  have hviewed : Ensures SafeCall (Here files) (viewedFiles (hasFlag (byte 108) msg.data.str) files) fun _ =>
      Here files :=
    .ite (fun _ => refreshFiles_here fun f hf => hf) fun _ => .pure fun _ hs => hs
  refine .bind hviewed fun files' => ?_
  exact .bind (here_quiet (only_quiet (viewLines_calm _ _ _ _))) fun lines => keepsCopies_pure _

theorem handleInfo_keepsCopies (msg : Message) : KeepsCopies fs (handleInfo msg) := by
  refine keepsCopies_search (keepsCopies_pure _) fun metadata _ => ?_
  have hcurrent : Ensures SafeCall (Here (metadata :: fs)) (currentInfo msg metadata) fun _ =>
      Here (metadata :: fs) := by
    refine .bind here_findSsForFile fun ssId => .ite (fun _ => .pure fun _ hs => hs) fun _ => ?_
    refine .bind (here_quiet (.perform trivial)) fun slot => ?_
    rcases slot with _ | idx
    · exact .pure fun _ hs => hs
    · exact .bind (here_quiet (exchangeWith_quiet _ _)) fun reply => .pure fun _ hs => hs
  refine .bind hcurrent fun current => keepsCopies_quiet ?_
  exact .bind (.perform trivial) fun _ => .bind (.perform trivial) fun _ => .bind (.perform trivial) fun _ => .pure _

theorem handleCheckpointRequest_keepsCopies (msg : Message) : KeepsCopies fs (handleCheckpointRequest msg) := by
  refine .bind (here_quiet (.perform trivial)) fun allowed => .ite (fun _ => ?_) fun _ => keepsCopies_pure _
  refine .bind here_findSsForFile fun ssId => .ite (fun _ => keepsCopies_pure _) fun _ => ?_
  refine .bind (here_quiet (.perform trivial)) fun slot => ?_
  rcases slot with _ | idx
  · exact keepsCopies_pure _
  · exact keepsCopies_quiet (.bind (exchangeWith_quiet _ _) fun _ => .pure _)

theorem handleExec_keepsCopies (msg : Message) : KeepsCopies fs (handleExec msg) := by
  refine .bind (here_quiet (.perform trivial)) fun allowed => .ite (fun _ => ?_) fun _ => keepsCopies_pure _
  refine .bind here_findSsForFile fun ssId => .ite (fun _ => keepsCopies_pure _) fun _ => ?_
  refine .bind (here_quiet (.perform trivial)) fun slot => ?_
  rcases slot with _ | idx
  · exact keepsCopies_pure _
  refine .bind (here_quiet (exchangeWith_quiet _ _)) fun reply => .ite (fun _ => keepsCopies_pure _) fun _ => ?_
  refine .bind (here_quiet (.perform trivial)) fun output => ?_
  rcases output with _ | output
  · exact keepsCopies_pure _
  · exact keepsCopies_pure _

theorem locateFile_keepsCopies (prior msg : Message) : KeepsCopies fs (locateFile prior msg) := by
  refine .bind (here_quiet (.perform trivial)) fun allowed => .ite (fun _ => ?_) fun _ => keepsCopies_pure _
  refine .bind here_findSsForFile fun ssId => .ite (fun _ => keepsCopies_pure _) fun _ => ?_
  refine .bind (here_quiet (.perform trivial)) fun info => ?_
  refine keepsCopies_search (keepsCopies_pure _) fun metadata hname => ?_
  exact .bind (here_quiet (.perform trivial)) fun now => keepsCopies_writeBack hname rfl rfl fun _ => keepsCopies_pure _

theorem handleClientMessage_keepsCopies (prior msg : Message) : KeepsCopies [] (handleClientMessage prior msg) := by
  have hserved := handledBy prior msg
  generalize handleClientMessage prior msg = p at hserved ⊢
  cases hserved with
  | requestAccess _ => exact keepsCopies_quiet (handleRequestAccess_quiet msg)
  | viewRequests _ => exact keepsCopies_quiet (only_quiet (handleViewRequests_calm msg))
  | approve _ => exact handleApproveRequest_keepsCopies msg
  | deny _ => exact keepsCopies_quiet (handleDenyRequest_quiet msg)
  | checkpoint _ => exact handleCheckpointRequest_keepsCopies msg
  | createFolder _ => exact keepsCopies_quiet (only_quiet (handleCreateFolder_calm msg))
  | move _ => exact handleMove_keepsCopies msg
  | viewFolder _ => exact keepsCopies_quiet (only_quiet (handleViewFolder_calm msg))
  | view _ => exact handleView_keepsCopies msg
  | info _ => exact handleInfo_keepsCopies msg
  | list _ => exact keepsCopies_quiet (only_quiet handleList_calm)
  | create _ => exact handleCreate_keepsCopies msg
  | delete _ => exact handleDelete_keepsCopies msg
  | access _ => exact handleAccess_keepsCopies msg
  | exec _ => exact handleExec_keepsCopies msg
  | locate _ => exact locateFile_keepsCopies prior msg
  | other _ => exact keepsCopies_pure _

theorem registerFiles_here (ssId : Int32) (files : List CStr) :
    Ensures SafeCall (Here []) (registerFiles ssId files) fun _ => Here [] := by
  -- a record of the file list, by an update or by an insertion
  have hwrite : ∀ {s t : NameServer} {file : CStr} {m : FileMetadata} {c : Prop} [Decidable c], Here [] s →
      t.cache = s.cache → NulFree t.fileTrie →
      (∀ f, trieSearch t.fileTrie f = if f = file ∧ c then some m else trieSearch s.fileTrie f) →
      m.filename = file → s.CopiesAt file m.ssId → Here [] t :=
    fun hs hcache hnul htrie hname hcopies =>
      ⟨hs.inv.write hcache hnul htrie hname hcopies, fun f hf => absurd hf List.not_mem_nil⟩
  induction files with
  | nil => exact .pure fun _ hs => hs
  | cons file files ih =>
    refine .bind here_search fun found => ?_
    rcases found with _ | existing
    · refine .bind (R := fun _ => Here []) ?_ fun now => .bind (R := fun _ => Here []) ?_ fun _ => ih
      · exact (here_quiet (p := perform .time) (.perform trivial)).mono (fun _ hs => hs.1) fun _ _ hs => hs
      · refine .perform fun s status t hs hexec => ?_
        obtain ⟨hsafe, env, hexec⟩ := hexec
        obtain rfl := (Prod.mk.inj (Option.some.inj hexec)).2
        exact hwrite hs rfl (hs.inv.nulFree.insert _ _) (trieSearch_insert s.fileTrie file _) rfl hsafe
    · refine .assume (fun _ hs => hs.2.1 existing rfl) fun hname => .bind (R := fun _ => Here []) ?_ fun _ => ih
      refine .perform fun s status t hs hexec => ?_
      obtain ⟨hsafe, env, hexec⟩ := hexec
      obtain rfl := (Prod.mk.inj (Option.some.inj hexec)).2
      exact hwrite ⟨hs.1.inv, fun f hf => absurd hf List.not_mem_nil⟩ rfl (hs.1.inv.nulFree.update _ _)
        (trieSearch_update s.fileTrie file _) hname hsafe

/-- **Every request that is handled alone keeps the copies in step**, if its calls are safe. -/
theorem nmBody_keepsCopies (req : NmRequest) : KeepsCopies [] (nmBody req) := by
  cases req with
  | client prior msg =>
    exact .bind (handleClientMessage_keepsCopies prior msg) fun reply => .pure fun _ hs => hs
  | registerSs msg =>
    have hregister : KeepsCopies [] (handleSsConnection msg) := by
      refine .bind (here_quiet (.perform trivial)) fun _ => .bind (here_quiet (.perform trivial)) fun slot => ?_
      rcases slot with _ | idx
      · exact keepsCopies_quiet (.perform trivial)
      · exact .bind (registerFiles_here _ _) fun _ => keepsCopies_quiet (.perform trivial)
    exact .bind hregister fun _ => .pure fun _ hs => hs
  | heartbeatLost ssId => exact keepsCopies_quiet (.bind (.perform trivial) fun _ => .pure _)
  | login sock name => exact keepsCopies_quiet (.bind (.perform trivial) fun _ => .pure _)
  | logout c => exact keepsCopies_quiet (.bind (.perform trivial) fun _ => .pure _)

end Handlers

/-! ## The two ways agree -/

/-- What `find_ss_for_file` answers when the copies are in step. -/
theorem LocationInv.findSsForFile {s t : NameServer} (h : LocationInv none s) {filename : CStr} {ssId : Int32}
    (hfind : Alone (ExecSome NmOp.exec) s (findSsForFile filename) ssId t) :
    ssId = (s.located filename).getD (-1) := by
  obtain ⟨es, hcoherent, hagree⟩ := h.copies
  obtain ⟨cached, u, ⟨env, hget⟩, hrest⟩ := alone_perform_bind.mp hfind
  obtain ⟨r, hlookup, he⟩ := Option.map_eq_some_iff.mp hget
  obtain ⟨rfl, rfl⟩ := Prod.mk.inj he
  cases hcopy : r.2 with
  | some metadata =>
    rw [hcopy] at hrest
    obtain ⟨rfl, -⟩ := alone_pure.mp hrest
    have hans := hcoherent.get hlookup
    rw [hcopy] at hans
    rw [hagree filename metadata (fun hn => by cases hn) (hans.resolve_left (Option.some_ne_none _)).symm]
    rfl
  | none =>
    rw [hcopy] at hrest
    replace hrest := alone_trieSearch hrest
    rw [NameServer.located]
    cases hfound : trieSearch s.fileTrie filename with
    | none =>
      rw [hfound] at hrest
      exact (alone_pure.mp hrest).1.symm
    | some metadata =>
      rw [hfound] at hrest
      obtain ⟨_, w, -, hrest⟩ := alone_perform_bind.mp hrest
      exact (alone_pure.mp hrest).1.symm

/-- **`find_ss_for_file` answers what the trie has.** -/
theorem locations_agree {reqs : List NmRequest} {s t : NameServer} (h : Run (Handles SafeCall) initNameServer reqs s)
    {filename : CStr} {ssId : Int32} (hfind : Alone (ExecSome NmOp.exec) s (findSsForFile filename) ssId t) :
    ssId = ((trieSearch s.fileTrie filename).map (·.ssId)).getD (-1) := by
  have hinv : LocationInv none s := by
    refine h.state_invariant .init fun s req t hinv hhandled => ?_
    obtain ⟨reply, halone⟩ := hhandled
    exact nmBody_keepsCopies req s reply t ⟨hinv, fun f hf => absurd hf List.not_mem_nil⟩ halone
  exact hinv.findSsForFile hfind

/-! ## A file that two storage servers have -/

section Evaluation
variable (execOne : (op : NmOp) → NameServer → Option (op.Ans × NameServer))

/-- Requests handled one after another. -/
def handleAllAlone : NameServer → List NmRequest → Option NameServer
  | s, [] => some s
  | s, req :: reqs =>
    match runAlone execOne (nmBody req) s with
    | none => none
    | some (_, t) => handleAllAlone t reqs

theorem run_handleAllAlone {exec : NameServer → NmCall → NameServer → Prop}
    (hexec : ∀ (op : NmOp) ans s t, execOne op s = some (ans, t) → exec s ⟨op, ans⟩ t) {s t : NameServer}
    {reqs : List NmRequest} (h : handleAllAlone execOne s reqs = some t) : Run (Handles exec) s reqs t := by
  induction reqs generalizing s with
  | nil =>
    obtain rfl := Option.some.inj h
    exact .nil
  | cons req reqs ih =>
    rw [handleAllAlone] at h
    split at h
    · cases h
    · rename_i reply u hhandled
      exact Run.cons ⟨reply, (alone_of_runAlone hhandled).mono fun s c t hc => hexec c.op c.ans s t hc⟩ (ih h)

end Evaluation

instance (s : NameServer) (filename : CStr) (ssId : Int32) : Decidable (s.CopiesAt filename ssId) :=
  inferInstanceAs (Decidable (∀ i < s.cache.capacity, ∀ a ∈ s.cache.hashTable i, s.cache.keyOf a = filename →
    (s.cache.valueOf a).ssId = ssId))

instance (s : NameServer) (c : NmCall) : Decidable (CopySafe s c) := by
  obtain ⟨op, ans⟩ := c
  cases op with
  | trieInsert filename metadata | trieUpdate filename metadata =>
    exact inferInstanceAs (Decidable (s.CopiesAt filename metadata.ssId))
  | cachePut filename metadata =>
    exact inferInstanceAs (Decidable (CacheSafe s.cache (.put filename metadata, none) ∧ Indexed filename))
  | cacheRemove filename => exact inferInstanceAs (Decidable (CacheSafe s.cache (.remove filename, none)))
  | _ => exact isTrue trivial

/-- A call of the name server, on its own. -/
def oneCall (op : NmOp) (s : NameServer) : Option (op.Ans × NameServer) :=
  op.exec ⟨200, 0, true, initMessage, none, [], 0⟩ s

theorem run_oneCall {s t : NameServer} {reqs : List NmRequest} (h : handleAllAlone oneCall s reqs = some t) :
    Run (Handles (ExecSome NmOp.exec)) s reqs t :=
  run_handleAllAlone oneCall (fun _ _ _ _ hcall => ⟨_, hcall⟩) h

theorem alone_oneCall {α : Type} {p : Handler α} {s : NameServer} {r : α × NameServer}
    (h : runAlone oneCall p s = some r) : Alone (ExecSome NmOp.exec) s p r.1 r.2 :=
  (alone_of_runAlone h).mono fun _ _ _ hcall => ⟨_, hcall⟩

/-- A call that keeps the copies in step. -/
def oneSafeCall (op : NmOp) (s : NameServer) : Option (op.Ans × NameServer) :=
  match oneCall op s with
  | none => none
  | some (ans, t) => if CopySafe s ⟨op, ans⟩ then some (ans, t) else none

theorem safeCall_of_oneSafeCall {op : NmOp} {ans : op.Ans} {s t : NameServer} (h : oneSafeCall op s = some (ans, t)) :
    SafeCall s ⟨op, ans⟩ t := by
  unfold oneSafeCall at h
  split at h
  · cases h
  · rename_i ans' t' hcall
    split at h
    · rename_i hsafe
      obtain ⟨rfl, rfl⟩ := Prod.mk.inj (Option.some.inj h)
      exact ⟨hsafe, _, hcall⟩
    · cases h

def userOne : Username := .strncpy (MAX_USERNAME - 1) (lit "a")
def fileOne : Filename := .strncpy (MAX_FILENAME - 1) (lit "n")

def createOne : NmRequest :=
  .client initMessage { initMessage with type := MSG_CREATE, sender := userOne, filename := fileOne }

/-- A storage server registers with the files it has. -/
def registers (id : Int32) (files : CStr) : NmRequest :=
  .registerSs { initMessage with ssId := id, data := .strncpy (MAX_BUFFER - 1) files }

/-- A file is created on the only storage server, and another one registers without files. -/
def createdOne : NameServer :=
  (handleAllAlone oneSafeCall initNameServer [registers 1 [], createOne, registers 2 []]).getD initNameServer

theorem locations_agree_created :
    (1 : Int32) = ((trieSearch createdOne.fileTrie fileOne.str).map (·.ssId)).getD (-1) := by
  have hsome : (handleAllAlone oneSafeCall initNameServer [registers 1 [], createOne, registers 2 []]).isSome := by
    decide +kernel
  have hfind : (runAlone oneCall (findSsForFile fileOne.str) createdOne).map (·.1) = some 1 := by decide +kernel
  obtain ⟨s, hs⟩ := Option.isSome_iff_exists.mp hsome
  obtain ⟨⟨ssId, t⟩, hrun, rfl⟩ := Option.map_eq_some_iff.mp hfind
  have hcreated : createdOne = s := by rw [createdOne, hs]; rfl
  rw [hcreated] at hrun ⊢
  exact locations_agree (run_handleAllAlone oneSafeCall (fun _ _ _ _ h => safeCall_of_oneSafeCall h) hs)
    (alone_oneCall hrun)

/-- **A file that another storage server registers too**: the trie has the newcomer, the cache the old one. -/
theorem registered_elsewhere : ∃ s t,
    Run (Handles (ExecSome NmOp.exec)) initNameServer [registers 1 [], createOne, registers 2 (lit "n")] s ∧
      Alone (ExecSome NmOp.exec) s (findSsForFile (lit "n")) 1 t ∧
      (trieSearch s.fileTrie (lit "n")).map (·.ssId) = some 2 := by
  have hboth : ((handleAllAlone oneCall initNameServer [registers 1 [], createOne, registers 2 (lit "n")]).bind
      fun s => (runAlone oneCall (findSsForFile (lit "n")) s).map fun r =>
        (r.1, (trieSearch s.fileTrie (lit "n")).map (·.ssId))) = some (1, some 2) := by decide
  obtain ⟨s, hs, hfind⟩ := Option.bind_eq_some_iff.mp hboth
  obtain ⟨⟨ssId, t⟩, hrun, he⟩ := Option.map_eq_some_iff.mp hfind
  obtain ⟨rfl, htrie⟩ := Prod.mk.inj he
  exact ⟨s, t, run_oneCall hs, alone_oneCall hrun, htrie⟩

end NetworkFileShare
