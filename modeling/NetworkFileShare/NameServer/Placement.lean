import NetworkFileShare.Lib.RoundRobin
import NetworkFileShare.NameServer.Access
import NetworkFileShare.NameServer.Create
import NetworkFileShare.NameServer.Registration

/-!
# The storage server of a new file

* `ids_of_run` : a slot keeps its id;
* `SlotsApart` : no two slots have the same id, and there are at most `MAX_SS`; `slotsApart_of_run`;
* `ssPick` : the index that `get_next_ss_round_robin` uses; `afterCalls` : the state after some calls of it;
* `PlacesWell` : the next calls, as many as there are slots, return storage servers that answer heartbeats, and each
  of these at least once;
* `placement_iff` : they do exactly when all slots are active and no value of the counter gives a negative index.
-/

namespace NetworkFileShare

variable {s t : NameServer}

/-! ## The slots -/

/-- The ids of the slots. -/
def NameServer.ids (s : NameServer) : List Int32 := s.ssList.map (·.id)

theorem ids_registerSs (s : NameServer) (msg : Message) :
    (s.registerSs msg).2.ids = s.ids ∨ msg.ssId ∉ s.ids ∧ s.ssList.length < MAX_SS ∧
      (s.registerSs msg).2.ids = s.ids ++ [msg.ssId] := by
  unfold NameServer.registerSs
  dsimp only
  split
  · rename_i idx hslot
    obtain ⟨info, hinfo, hid⟩ := info_of_ssIndex hslot
    refine Or.inl (List.ext_getElem? fun i => ?_)
    show ((s.ssList.set idx _).map (·.id))[i]? = (s.ssList.map (·.id))[i]?
    rw [List.getElem?_map, List.getElem?_map, List.getElem?_set]
    -- the slot keeps its id
    by_cases hi : idx = i
    · subst hi
      rw [if_pos rfl, if_pos (List.getElem?_eq_some_iff.mp hinfo).1, hinfo, Option.map_some, Option.map_some, hid]
    · rw [if_neg hi]
  · rename_i hslot
    split
    · exact Or.inl rfl
    · rename_i hroom
      refine Or.inr ⟨fun hmem => ?_, by omega, List.map_append⟩
      obtain ⟨info, hinfo, hid⟩ := List.mem_map.mp hmem
      have := List.findIdx?_eq_none_iff.mp hslot info hinfo
      simp [hid] at this

theorem ids_deactivateSs (s : NameServer) (ssId : Int32) : (s.deactivateSs ssId).ids = s.ids := by
  unfold NameServer.deactivateSs
  split
  · rfl
  · rename_i idx hslot
    refine List.ext_getElem? fun i => ?_
    show ((s.ssList.modify idx _).map (·.id))[i]? = (s.ssList.map (·.id))[i]?
    rw [List.getElem?_map, List.getElem?_map, List.getElem?_modify]
    cases s.ssList[i]? with
    | none => rfl
    | some ss => by_cases hi : idx = i <;> simp [hi]

/-- **No call changes the id of a slot.** -/
theorem ids_of_exec {c : NmCall} (h : ExecSome NmOp.exec s c t) : s.ids <+: t.ids := by
  obtain ⟨op, ans⟩ := c
  obtain ⟨env, h⟩ := h
  cases op with
  | registerSs msg =>
    obtain rfl := congrArg Prod.snd (Option.some.inj h)
    rcases ids_registerSs s msg with hsame | ⟨-, -, hnew⟩
    · rw [hsame]
    · rw [hnew]
      exact List.prefix_append _ _
  | deactivateSs ssId =>
    rw [NmOp.exec] at h
    split at h
    · cases h
    · cases h
      rw [ids_deactivateSs]
  | _ =>
    have hslots := ssList_of_exec (fun _ he => by cases he) (fun _ he => by cases he) h
    rw [NameServer.ids, NameServer.ids, hslots]

/-- **A slot keeps its id**, whatever the threads do: the id that `get_next_ss_round_robin` reads once it has given the
mutex back is the one that the slot had before. -/
theorem ids_of_run {es : List NmEvent} {p q : NmPool} (h : Run NmStep p es q) : p.state.ids <+: q.state.ids := by
  refine h.state_invariant (I := fun q : NmPool => p.state.ids <+: q.state.ids) (List.prefix_refl _) ?_
  intro t e u ht hstep
  cases hstep with
  | start req idle => exact ht
  | call serving made => exact ht.trans (ids_of_exec made)
  | answer serving => exact ht

/-- Every id has one slot, and the slots are within the array. -/
structure SlotsApart (s : NameServer) : Prop where
  ids : (s.ssList.map (·.id)).Nodup
  length_le : s.ssList.length ≤ MAX_SS

theorem SlotsApart.of_ids (hs : SlotsApart s) (h : t.ids = s.ids) : SlotsApart t := by
  have hlength : t.ssList.length = s.ssList.length := by
    simpa only [NameServer.ids, List.length_map] using congrArg List.length h
  refine ⟨?_, hlength ▸ hs.length_le⟩
  show t.ids.Nodup
  rw [h]
  exact hs.ids

theorem SlotsApart.registerSs (hs : SlotsApart s) (msg : Message) : SlotsApart (s.registerSs msg).2 := by
  rcases ids_registerSs s msg with hsame | ⟨hnew, hroom, hids⟩
  · exact hs.of_ids hsame
  · refine ⟨?_, ?_⟩
    · show (s.registerSs msg).2.ids.Nodup
      rw [hids, List.nodup_append]
      refine ⟨hs.ids, List.nodup_singleton _, fun id hid id' hid' he => hnew ?_⟩
      obtain rfl := List.mem_singleton.mp hid'
      rwa [he] at hid
    · have hlength := congrArg List.length hids
      simp only [NameServer.ids, List.length_map, List.length_append, List.length_singleton] at hlength
      omega

/-- **Every call keeps the slots apart.** -/
theorem SlotsApart.exec (hs : SlotsApart s) {c : NmCall} (h : ExecSome NmOp.exec s c t) : SlotsApart t := by
  obtain ⟨op, ans⟩ := c
  obtain ⟨env, h⟩ := h
  cases op with
  | registerSs msg =>
    obtain rfl := congrArg Prod.snd (Option.some.inj h)
    exact hs.registerSs msg
  | deactivateSs ssId =>
    rw [NmOp.exec] at h
    split at h
    · cases h
    · cases h
      exact hs.of_ids (ids_deactivateSs s ssId)
  | _ =>
    have hslots := ssList_of_exec (fun _ he => by cases he) (fun _ he => by cases he) h
    exact ⟨by rw [hslots]; exact hs.ids, by rw [hslots]; exact hs.length_le⟩

theorem slotsApart_of_run {es : List NmEvent} {p : NmPool} (h : Run NmStep (Pool.idle initNameServer) es p) :
    SlotsApart p.state := by
  have hinit : SlotsApart initNameServer := ⟨List.nodup_nil, Nat.zero_le _⟩
  refine h.state_invariant (I := fun p : NmPool => SlotsApart p.state) hinit fun p e q hp hstep => ?_
  cases hstep with
  | start req idle => exact hp
  | call serving made => exact hp.exec made
  | answer serving => exact hp

/-! ## The calls of `get_next_ss_round_robin` -/

namespace NameServer

/-- The index that the next call uses. -/
def ssPick (s : NameServer) : Int := s.nextSsId.toInt.tmod s.ssList.length

/-- The state after `k` calls. What they read outside of the array does not matter for it. -/
def afterCalls (s : NameServer) : Nat → NameServer
  | 0 => s
  | k + 1 => ((s.afterCalls k).nextSsRoundRobin 0).2

/-- The next call uses an index of the array, and returns a storage server that answers heartbeats. -/
def PicksLive (s : NameServer) : Prop :=
  (0 ≤ s.ssPick ∧ s.ssPick < s.ssList.length) ∧ ∀ outside, s.Active (s.nextSsRoundRobin outside).1

/-- The next calls, as many as there are slots, pick well, and leave no storage server out. -/
structure PlacesWell (s : NameServer) : Prop where
  picksLive : ∀ j < s.ssList.length, (s.afterCalls j).PicksLive
  leavesNoneOut : ∀ ss ∈ s.ssList, ss.active = true →
    ∃ j < s.ssList.length, ∀ outside, ((s.afterCalls j).nextSsRoundRobin outside).1 = ss.id

theorem nextSsRoundRobin_snd (s : NameServer) (hsome : s.ssList ≠ []) (outside : Int32) :
    (s.nextSsRoundRobin outside).2 = { s with nextSsId := s.nextSsId + 1 } := by
  rw [nextSsRoundRobin, if_neg (by simpa using hsome)]

/-- The calls only add to the counter. -/
theorem afterCalls_eq (hsome : s.ssList ≠ []) (k : Nat) :
    s.afterCalls k = { s with nextSsId := s.nextSsId + Int32.ofNat k } := by
  induction k with
  | zero => rw [afterCalls, show Int32.ofNat 0 = 0 from rfl, Int32.add_zero]
  | succ k ih =>
    rw [afterCalls, nextSsRoundRobin_snd _ (by rw [ih]; exact hsome), ih, Int32.ofNat_add, ← Int32.add_assoc]
    rfl

/-- The id of the slot at the index. -/
theorem nextSsRoundRobin_fst {i : Nat} {ss : StorageServerInfo} (hpick : s.ssPick = i) (hslot : s.ssList[i]? = some ss)
    (outside : Int32) : (s.nextSsRoundRobin outside).1 = ss.id := by
  have hsome : s.ssList.length ≠ 0 := by
    intro hnil
    rw [List.length_eq_zero_iff.mp hnil] at hslot
    cases hslot
  have hpick : s.nextSsId.toInt.tmod s.ssList.length = i := hpick
  rw [nextSsRoundRobin, if_neg hsome]
  simp only [hpick]
  rw [if_neg (by omega), Int.toNat_natCast, hslot, Option.map_some, Option.getD_some]

end NameServer

open NameServer

/-- The ids tell the slots apart. -/
theorem SlotsApart.eq_of_id (hs : SlotsApart s) {ss ss' : StorageServerInfo} (h : ss ∈ s.ssList) (h' : ss' ∈ s.ssList)
    (hid : ss.id = ss'.id) : ss = ss' := List.inj_on_of_nodup_map hs.ids h h' hid

/-- The condition, in a state whose slots are apart. -/
theorem placesWell_iff (hs : SlotsApart s) (hsome : s.ssList ≠ []) :
    s.PlacesWell ↔ (∀ ss ∈ s.ssList, ss.active = true) ∧ WindowOk s.nextSsId s.ssList.length := by
  have hpos : 0 < s.ssList.length := List.length_pos_iff.mpr hsome
  have hsmall : s.ssList.length ≤ 2 ^ 31 := hs.length_le.trans (by decide)
  have hlist : ∀ j, (s.afterCalls j).ssList = s.ssList := fun j => by rw [afterCalls_eq hsome]
  have hpick : ∀ j, (s.afterCalls j).ssPick = (s.nextSsId + Int32.ofNat j).toInt.tmod s.ssList.length := fun j => by
    rw [afterCalls_eq hsome]
    rfl
  have hturn : WindowOk s.nextSsId s.ssList.length → ∀ i (hi : i < s.ssList.length), ∃ j < s.ssList.length,
      ∀ outside, ((s.afterCalls j).nextSsRoundRobin outside).1 = s.ssList[i].id := by
    intro hwindow i hi
    obtain ⟨j, hj, hindex⟩ := window_residues hsmall hwindow hi
    refine ⟨j, hj, nextSsRoundRobin_fst (i := i) (by rw [hpick, hindex]) ?_⟩
    rw [hlist, List.getElem?_eq_getElem hi]
  constructor
  · intro h
    have hwindow : WindowOk s.nextSsId s.ssList.length := fun j hj =>
      tmod_nonneg_iff.mp (by rw [← hpick]; exact (h.picksLive j hj).1.1)
    refine ⟨fun ss hmem => ?_, hwindow⟩
    obtain ⟨i, hi, rfl⟩ := List.mem_iff_getElem.mp hmem
    obtain ⟨j, hj, hid⟩ := hturn hwindow i hi
    obtain ⟨ss', hmem', hid', hactive⟩ := (h.picksLive j hj).2 0
    rw [hlist] at hmem'
    rw [hs.eq_of_id hmem hmem' (by rw [hid', hid])]
    exact hactive
  · rintro ⟨hactive, hwindow⟩
    refine ⟨fun j hj => ?_, fun ss hmem _ => ?_⟩
    · have hlow := tmod_nonneg_iff.mpr (hwindow j hj)
      have hhigh := Int.tmod_lt_of_pos (s.nextSsId + Int32.ofNat j).toInt (Int.natCast_pos.mpr hpos)
      rw [← hpick] at hlow hhigh
      obtain ⟨i, hi⟩ := Int.eq_ofNat_of_zero_le hlow
      have hlt : i < s.ssList.length := by omega
      refine ⟨⟨hlow, by rw [hlist]; exact hhigh⟩, fun outside => ⟨s.ssList[i], ?_, ?_, ?_⟩⟩
      · rw [hlist]
        exact List.getElem_mem hlt
      · exact (nextSsRoundRobin_fst hi (by rw [hlist, List.getElem?_eq_getElem hlt]) outside).symm
      · exact hactive _ (List.getElem_mem hlt)
    · obtain ⟨i, hi, rfl⟩ := List.mem_iff_getElem.mp hmem
      exact hturn hwindow i hi

/-- **After any number of calls, files are placed well if and only if** all slots are active and none of the next
values of the counter gives a negative index. -/
theorem placement_iff {es : List NmEvent} {p : NmPool} (h : Run NmStep (Pool.idle initNameServer) es p)
    (hlive : ∃ ss ∈ p.state.ssList, ss.active = true) (k : Nat) :
    (p.state.afterCalls k).PlacesWell ↔ (∀ ss ∈ p.state.ssList, ss.active = true) ∧
      WindowOk (p.state.nextSsId + Int32.ofNat k) p.state.ssList.length := by
  obtain ⟨ss, hmem, -⟩ := hlive
  have hsome : p.state.ssList ≠ [] := List.ne_nil_of_mem hmem
  have hslots := slotsApart_of_run h
  have hsame := afterCalls_eq hsome k
  rw [hsame]
  exact placesWell_iff ⟨hslots.ids, hslots.length_le⟩ hsome

/-- Storage servers register one after the other; then the heartbeats of some stop. -/
def placementRun (ids lost : List Int32) : List NmEvent × NmPool :=
  scheduledRun NmOp.exec nmBody (fun _ _ => True) (Pool.idle initNameServer)
    ((ids.map fun id => serves 0 (.registerSs { initMessage with ssId := id }) 4).flatten ++
      (lost.map fun id => serves 0 (.heartbeatLost id) 2).flatten)

theorem placement_two : ((placementRun [1, 2] []).2.state.afterCalls 5).PlacesWell :=
  (placement_iff (run_scheduledRun _ _).unguarded (by decide) 5).mpr (by decide)

/-- **The round robin picks a storage server whose heartbeats have stopped.** -/
theorem placement_inactive :
    Run NmStep (Pool.idle initNameServer) (placementRun [1, 2] [1]).1 (placementRun [1, 2] [1]).2 ∧
    (∃ ss ∈ (placementRun [1, 2] [1]).2.state.ssList, ss.active = true) ∧
    ¬ (placementRun [1, 2] [1]).2.state.PlacesWell := by
  refine ⟨(run_scheduledRun _ _).unguarded, by decide, fun hwell => ?_⟩
  obtain ⟨-, hlive⟩ := hwell.picksLive 0 (by decide)
  obtain ⟨ss, hmem, hid, hactive⟩ := hlive 0
  have hnone : ∀ ss ∈ (placementRun [1, 2] [1]).2.state.ssList,
      ss.id = ((placementRun [1, 2] [1]).2.state.nextSsRoundRobin 0).1 → ss.active = false := by decide
  rw [hnone ss hmem hid] at hactive
  cases hactive

end NetworkFileShare
