import NetworkFileShare.StorageServer.ClientThread
import NetworkFileShare.StorageServer.Effects

/-!
# A user who has nothing on a sentence

* `HasNothing` : the user has neither the lock nor a session;
* `GainsNothing` : the user is given neither; `returns_gains` : not by an operation that names somebody else, whatever
  its calls answer;
* `nothing_unlock`, `nothing_cancel`, `nothing_refused` : the requests after which the user has nothing.
-/

namespace NetworkFileShare

variable {s t v : StorageServer} {f g : Filename} {u w : Username} {i j : Int32} {io : Io}

/-- Neither the lock nor a session. -/
structure HasNothing (f : Filename) (u : Username) (i : Int32) (s : StorageServer) : Prop where
  lock : ¬ Holds s f u i
  session : ¬ Active s f u i

/-- What the user has afterwards, it had before. -/
structure GainsNothing (f : Filename) (u : Username) (i : Int32) (s t : StorageServer) : Prop where
  holds : Holds t f u i → Holds s f u i
  active : Active t f u i → Active s f u i

theorem HasNothing.of_gains (h : HasNothing f u i s) (hgains : GainsNothing f u i s t) : HasNothing f u i t :=
  ⟨h.lock ∘ hgains.holds, h.session ∘ hgains.active⟩

theorem HasNothing.of_disk (h : HasNothing f u i s) (disk : Disk) : HasNothing f u i { s with disk := disk } :=
  ⟨h.lock, h.session⟩

namespace GainsNothing

theorem refl (s : StorageServer) : GainsNothing f u i s s := ⟨id, id⟩

theorem trans (h : GainsNothing f u i s t) (h' : GainsNothing f u i t v) : GainsNothing f u i s v :=
  ⟨h.holds ∘ h'.holds, h.active ∘ h'.active⟩

theorem of_tables (hlocks : t.fileLocks = s.fileLocks) (hsessions : t.writeSessions.Sublist s.writeSessions) :
    GainsNothing f u i s t := by
  refine ⟨fun h => ?_, fun ⟨x, hx, hkey⟩ => ⟨x, hsessions.subset hx, hkey⟩⟩
  rw [Holds, ← hlocks]
  exact h

theorem unlock (s : StorageServer) : GainsNothing f u i s (unlockSentence s g j w).1 := by
  obtain ⟨tables, hunlock, -⟩ := unlockSentence_spec s g j w
  refine ⟨fun h => ((holds_unlock s g f w u j i).mp h).1, fun h => ?_⟩
  rw [hunlock] at h
  exact h

/-- Somebody else asks for a lock. -/
theorem lock (hne : (g, w, j) ≠ (f, u, i)) (io : Io) (s : StorageServer) :
    GainsNothing f u i s (lockSentence io s g j w).1 := by
  obtain ⟨tables, hlock, -⟩ := lockSentence_spec io s g j w
  refine ⟨fun h => ?_, fun h => ?_⟩
  · obtain ⟨hi, hheld⟩ := holds_iff.mp h
    rw [holds_iff, and_iff_right hi]
    rcases lockSentence_heldAt io s g j w with ⟨-, -, hsame⟩ | ⟨-, -, -, hsame⟩ | ⟨hj, -, -, htaken⟩
    · rwa [hsame] at hheld
    · rwa [hsame] at hheld
    · rw [htaken] at hheld
      split at hheld
      · -- the name in the lock is the other user's
        rename_i hplace
        obtain ⟨rfl, hplace⟩ := hplace
        obtain rfl := (place_eq_iff hj hi).mp hplace
        have hname : w.str = u.str := by
          rw [← take_lockedName io w, Option.some.inj hheld, take_username]
        exact absurd (by rw [CArray.ext' hname]) hne
      · exact hheld
  · rw [hlock] at h
    exact h

end GainsNothing

namespace Stdio

/-! ## Operations that name somebody else -/

/-- Somebody else's session begins, or not. -/
theorem Started.gains {r : StorageServer × Int32} (h : Started s g w j r) (hne : (g, w, j) ≠ (f, u, i)) :
    GainsNothing f u i s r.1 := by
  refine ⟨fun hholds => ?_, fun ⟨x, hx, hkey⟩ => ?_⟩
  · rw [h.tables] at hholds
    exact hholds
  · rcases h.new x hx with hnew | ⟨y, hy, hkey'⟩
    · exact absurd (hnew.symm.trans hkey) hne
    · exact ⟨y, hy, hkey'.symm.trans hkey⟩

/-- **Nobody gains anything by what others ask for**, whatever the calls answer. -/
theorem returns_gains (hs : StoreInv s) (io : Io) {op : Operation} (hne : op.names ≠ some (f, u, i)) :
    Returns (fun r => GainsNothing f u i s r.1) (handle io s op) := by
  have hrefl : GainsNothing f u i s s := .refl s
  cases op with
  | client r =>
    cases r with
    | lockSentence g w j =>
      have hkey : (g, w, j) ≠ (f, u, i) := fun h => hne (congrArg some h)
      have hlock := GainsNothing.lock hkey io s
      obtain ⟨tables, htables, -⟩ := lockSentence_spec io s g j w
      refine Returns.bind (Q := fun r => GainsNothing f u i s r.1) ?_ fun _ h => Returns.pure h
      refine Returns.after fun _ => Returns.ite (fun _ => Returns.pure hrefl) fun _ => ?_
      rcases hres : lockSentence io s g j w with ⟨t, status⟩
      rw [hres] at hlock htables
      obtain rfl : t = { s with fileLocks := tables } := htables
      refine Returns.ite (fun _ => ?_) fun _ => Returns.pure hlock
      refine Returns.bind (returns_startWriteSession (s := { s with fileLocks := tables }) hs.server.sessions)
        fun r hstarted => ?_
      have hstart := hlock.trans (hstarted.gains hkey)
      exact Returns.ite (fun _ => Returns.pure (hstart.trans (.unlock _))) fun _ => Returns.pure hstart
    | unlockSentence g w j =>
      refine Returns.bind (Q := fun r => GainsNothing f u i s r.1) ?_ fun _ h => Returns.pure h
      refine Returns.bind (returns_commitWriteSession hs) fun r hr => ?_
      obtain ⟨t, status⟩ := r
      obtain ⟨queues, rfl, -⟩ := hr
      have hgone : GainsNothing f u i s (unlockSentence { s with
          commitQueues := queues
          writeSessions := s.writeSessions.eraseP (isSession g w j) } g j w).1 :=
        GainsNothing.trans (t := { s with
          commitQueues := queues
          writeSessions := s.writeSessions.eraseP (isSession g w j) }) (.of_tables rfl List.eraseP_sublist) (.unlock _)
      exact Returns.ite (fun _ => Returns.pure hgone) fun _ => Returns.pure hgone
    | cancelWrite g w j =>
      refine Returns.bind returns_removeWriteSession fun t ht => Returns.pure ?_
      subst ht
      have hgone : GainsNothing f u i s { s with writeSessions := s.writeSessions.eraseP (isSession g w j) } :=
        .of_tables rfl List.eraseP_sublist
      exact hgone.trans (GainsNothing.unlock _)
    | read g | write g w j wordIdx data | undo g => exact Returns.after fun _ => Returns.pure hrefl
  | command c =>
    cases c with
    | create g =>
      refine Returns.bind (Q := fun r => GainsNothing f u i s r.1) ?_ fun _ h => Returns.pure h
      refine Returns.after fun _ => Returns.ite (fun _ => Returns.pure hrefl) fun _ => Returns.after fun _ =>
        Returns.ite (fun _ => Returns.pure ⟨fun h => ?_, id⟩) fun _ => Returns.pure hrefl
      rw [holds_iff] at h ⊢
      rwa [heldAt_init] at h
    | checkLocks g => exact Returns.pure hrefl
    | _ => exact Returns.after fun _ => Returns.pure hrefl

/-! ## Requests that end a session -/

/-- The session is taken out, and the lock is given back. -/
theorem nothing_leave (hkeys : (s.writeSessions.map WriteSession.key).Nodup)
    (hsessions : t.writeSessions = s.writeSessions.eraseP (isSession f u i)) :
    HasNothing f u i (unlockSentence t f i u).1 := by
  obtain ⟨tables, hunlock, -⟩ := unlockSentence_spec t f i u
  refine ⟨fun h => ((holds_unlock t f f u u i i).mp h).2 rfl, fun h => ?_⟩
  rw [hunlock] at h
  have hactive : Active t f u i := h
  exact ((active_erase hkeys hsessions).mp hactive).2 rfl

theorem nothing_unlock (hs : StoreInv s) (io : Io) :
    Returns (fun r => HasNothing f u i r.1) (handle io s (.client (.unlockSentence f u i))) := by
  refine Returns.bind (Q := fun r => HasNothing f u i r.1) ?_ fun _ h => Returns.pure h
  refine Returns.bind (returns_commitWriteSession hs) fun r hr => ?_
  obtain ⟨t, status⟩ := r
  obtain ⟨queues, rfl, -⟩ := hr
  have hleft : HasNothing f u i (unlockSentence { s with
      commitQueues := queues
      writeSessions := s.writeSessions.eraseP (isSession f u i) } f i u).1 :=
    nothing_leave hs.server.sessions.keys rfl
  exact Returns.ite (fun _ => Returns.pure hleft) fun _ => Returns.pure hleft

theorem nothing_cancel (hs : StoreInv s) (io : Io) :
    Returns (fun r => HasNothing f u i r.1) (handle io s (.client (.cancelWrite f u i))) := by
  refine Returns.bind returns_removeWriteSession fun t ht => Returns.pure ?_
  subst ht
  exact nothing_leave hs.server.sessions.keys rfl

/-- An index that is looked up is not negative. -/
theorem nonneg_of_valid {content : Option FileContent} (hvalid : ¬ lockIndexInvalid content i.toInt = true) :
    0 ≤ i.toInt := by
  by_contra hneg
  have hlt : i.toInt < 0 := not_le.mp hneg
  refine hvalid ?_
  unfold lockIndexInvalid
  dsimp only
  split
  · exact decide_eq_true (by omega)
  · rw [if_pos (Or.inl hlt)]

/-- A lock is only given on an index that exists. -/
theorem nonneg_of_locked (s : StorageServer) (io : Io) : Returns (fun r => r.2.status = SUCCESS → 0 ≤ i.toInt)
    (handle io s (.client (.lockSentence f u i))) := by
  have hinvalid : ERR_INVALID_INDEX ≠ SUCCESS := by decide
  refine Returns.bind (Q := fun r => r.2 = SUCCESS → 0 ≤ i.toInt) ?_ fun _ h => Returns.pure h
  refine Returns.after fun content => Returns.ite (fun _ => Returns.pure fun h => absurd h hinvalid) fun hvalid => ?_
  have hnonneg : 0 ≤ i.toInt := nonneg_of_valid hvalid
  exact Returns.ite (fun _ => Returns.after fun _ => Returns.ite (fun _ => Returns.pure fun _ => hnonneg) fun _ =>
    Returns.pure fun _ => hnonneg) fun _ => Returns.pure fun _ => hnonneg

/-- A lock that is refused is not held, and a session that cannot begin is over. -/
theorem nothing_refused (hs : StoreInv s) (io : Io) (hnothing : HasNothing f u i s) :
    Returns (fun r => r.2.status ≠ SUCCESS → HasNothing f u i r.1) (handle io s (.client (.lockSentence f u i))) := by
  obtain ⟨tables, hlock, -⟩ := lockSentence_spec io s f i u
  have hheld := lockSentence_heldAt io s f i u
  refine Returns.bind (Q := fun r => r.2 ≠ SUCCESS → HasNothing f u i r.1) ?_ fun _ h => Returns.pure h
  refine Returns.after fun _ => Returns.ite (fun _ => Returns.pure fun _ => hnothing) fun _ => ?_
  rcases hres : lockSentence io s f i u with ⟨t, status⟩
  rw [hres] at hlock hheld
  obtain rfl : t = { s with fileLocks := tables } := hlock
  refine Returns.ite (fun _ => ?_) fun hstatus => Returns.pure fun _ => ⟨fun hholds => ?_, hnothing.session⟩
  · refine Returns.bind (returns_startWriteSession (s := { s with fileLocks := tables }) hs.server.sessions)
      fun r hstarted => ?_
    refine Returns.ite (fun hfail => Returns.pure fun _ => ?_) fun hdone => Returns.pure fun h => absurd rfl h
    -- the session, if it was begun, is out of the table again
    refine nothing_leave hstarted.sessions.keys (List.eraseP_of_forall_not fun x hx hsession => ?_).symm
    exact hstarted.failed hfail x hx (isSession_iff.mp hsession)
  · rw [holds_iff] at hholds
    rcases hheld with ⟨-, -, hsame⟩ | ⟨-, -, -, hsame⟩ | ⟨-, -, hsuccess, -⟩
    · rw [hsame] at hholds
      exact hnothing.lock (holds_iff.mpr hholds)
    · rw [hsame] at hholds
      exact hnothing.lock (holds_iff.mpr hholds)
    · exact absurd hsuccess hstatus

end Stdio
end NetworkFileShare
