import NetworkFileShare.StorageServer.Erasure

/-!
# Locks and sessions (`ss.c`: `handle_client_request`)

* `Holds` : a user holds the lock of a sentence; `Active` : a user has a session on it;
* `holds_lock`, `holds_unlock`, `active_create`, `active_erase` : what the functions do to the two;
* `Matched` : they are the same for all users, files and indices; `Matched.handle` : every request of a user with a
  short name keeps them so;
* `locks_match_sessions` : they are the same after every run, and nobody else gets at a locked sentence.
-/

namespace NetworkFileShare

/-- The lock of sentence `i` of `f` is taken under the name of `u`. -/
def Holds (s : StorageServer) (f : Filename) (u : Username) (i : Int32) : Prop :=
  ∃ lock, getSentenceLock f i s.fileLocks = some lock ∧ lock.locked = true ∧ lock.lockedBy = u.str

/-- The user has a session on sentence `i` of `f`. -/
def Active (s : StorageServer) (f : Filename) (u : Username) (i : Int32) : Prop :=
  ∃ w ∈ s.writeSessions, w.key = (f, u, i)

/-- The messages that lock, write and give back, of users whose names leave `locked_by` its terminator. -/
def SessionMessage : Request → Prop
  | .lockSentence _ sender _ | .write _ sender _ _ _ | .unlockSentence _ sender _ | .cancelWrite _ sender _ =>
    sender.str.length < MAX_USERNAME - 1
  | .read _ | .undo _ => False

/-- The message changes nothing and is not answered with success. -/
def Denied (s : StorageServer) (io : Io) (r : Request) : Prop :=
  (handleClientRequest io s r).1 = s ∧ (handleClientRequest io s r).2 ≠ SUCCESS

/-! ## Locks -/

section Locks
variable {s : StorageServer} {f g : Filename} {u v : Username} {i j : Int32}

theorem holds_iff : Holds s f u i ↔ 0 ≤ i.toInt ∧ heldAt f i.toInt.toNat s.fileLocks = some u.str := by
  constructor
  · rintro ⟨lock, hget, hlocked, hname⟩
    rw [heldAt_of_getSentenceLock hget, holder_eq_some]
    exact ⟨nonneg_of_getSentenceLock hget, hlocked, hname⟩
  · rintro ⟨hi, hheld⟩
    rcases hget : getSentenceLock f i s.fileLocks with _ | lock
    · rw [heldAt_of_none hget hi] at hheld
      cases hheld
    · rw [heldAt_of_getSentenceLock hget, holder_eq_some] at hheld
      exact ⟨lock, hget, hheld⟩

/-- A lock has one holder. -/
theorem Holds.unique (h : Holds s f u i) (h' : Holds s f v i) : u = v := by
  obtain ⟨-, hheld⟩ := holds_iff.mp h
  obtain ⟨-, hheld'⟩ := holds_iff.mp h'
  exact CArray.ext' (Option.some.inj (hheld.symm.trans hheld'))

theorem place_eq_iff (hi : 0 ≤ i.toInt) (hj : 0 ≤ j.toInt) : j.toInt.toNat = i.toInt.toNat ↔ j = i := by
  constructor
  · intro h
    exact Int32.toInt_inj.mp (by omega)
  · rintro rfl
    rfl

/-- **`lock_sentence_ss`** takes the lock for the user, or leaves all locks as they were. -/
theorem holds_lock (io : Io) (hu : u.str.length < MAX_USERNAME - 1) :
    ((lockSentence io s f i u).2 ≠ SUCCESS ∧ ∀ g v j, Holds (lockSentence io s f i u).1 g v j ↔ Holds s g v j) ∨
      ((lockSentence io s f i u).2 = SUCCESS ∧
        ∀ g v j, Holds (lockSentence io s f i u).1 g v j ↔ Holds s g v j ∨ (g, v, j) = (f, u, i)) := by
  have hsame : (∀ g j, heldAt g j (lockSentence io s f i u).1.fileLocks = heldAt g j s.fileLocks) →
      ∀ g v j, Holds (lockSentence io s f i u).1 g v j ↔ Holds s g v j := by
    intro hheld g v j
    rw [holds_iff, holds_iff, hheld]
  rcases lockSentence_heldAt io s f i u with ⟨-, hstatus, hheld⟩ | ⟨-, -, hstatus, hheld⟩ | ⟨hi, hfree, hstatus, hheld⟩
  · left
    refine ⟨?_, hsame hheld⟩
    rw [hstatus]
    decide
  · left
    refine ⟨?_, hsame hheld⟩
    rw [hstatus]
    decide
  · right
    refine ⟨hstatus, fun g v j => ?_⟩
    have hname : lockedName io u = u.str := if_pos hu
    rw [holds_iff, holds_iff, hheld, hname]
    by_cases hj : 0 ≤ j.toInt
    · by_cases hplace : g = f ∧ j = i
      · obtain ⟨rfl, rfl⟩ := hplace
        rw [if_pos ⟨rfl, rfl⟩]
        constructor
        · rintro ⟨-, hsome⟩
          rw [CArray.ext' (Option.some.inj hsome)]
          exact Or.inr rfl
        · rintro (⟨-, hold⟩ | hkey)
          · -- the lock was the user's own
            have hmine : v.str = u.str := by
              by_contra hne
              exact hfree ⟨v.str, hold, hne⟩
            rw [hmine]
            exact ⟨hi, rfl⟩
          · rw [(Prod.mk.inj (Prod.mk.inj hkey).2).1]
            exact ⟨hi, rfl⟩
      · rw [if_neg fun h => hplace ⟨h.1, (place_eq_iff hi hj).mp h.2⟩, or_iff_left]
        intro hkey
        exact hplace ⟨(Prod.mk.inj hkey).1, (Prod.mk.inj (Prod.mk.inj hkey).2).2⟩
    · constructor
      · rintro ⟨hj', -⟩
        exact absurd hj' hj
      · rintro (⟨hj', -⟩ | hkey)
        · exact absurd hj' hj
        · rw [(Prod.mk.inj (Prod.mk.inj hkey).2).2] at hj
          exact absurd hi hj

/-- **`unlock_sentence_ss`** takes the lock from the user. -/
theorem holds_unlock (s : StorageServer) (f g : Filename) (u v : Username) (i j : Int32) :
    Holds (unlockSentence s f i u).1 g v j ↔ Holds s g v j ∧ (g, v, j) ≠ (f, u, i) := by
  rw [holds_iff, holds_iff, heldAt_unlockSentence]
  by_cases hj : 0 ≤ j.toInt
  · split
    · rename_i hfreed
      obtain ⟨rfl, hplace, hi, hmine⟩ := hfreed
      obtain rfl := (place_eq_iff hi hj).mp hplace
      refine iff_of_false (fun h => by cases h.2) ?_
      rintro ⟨⟨-, hheld⟩, hne⟩
      rw [hmine] at hheld
      exact hne (by rw [CArray.ext' (Option.some.inj hheld)])
    · rename_i hkept
      refine (and_iff_left_of_imp ?_).symm
      rintro ⟨-, hheld⟩ hkey
      cases hkey
      exact hkept ⟨rfl, rfl, hj, hheld⟩
  · exact iff_of_false (fun h => hj h.1) fun h => hj h.1.1

/-- Who does not hold a lock cannot give it back. -/
theorem unlock_refused (h : ¬ Holds s f u i) :
    (unlockSentence s f i u).1 = s ∧ (unlockSentence s f i u).2 ≠ SUCCESS := by
  unfold unlockSentence
  rcases hget : getSentenceLock f i s.fileLocks with _ | lock
  · exact ⟨rfl, show ERR_INVALID_INDEX ≠ SUCCESS by decide⟩
  · have hrefused : lock.locked = false ∨ lock.lockedBy ≠ u.str := by
      by_contra hmine
      rw [not_or, Bool.not_eq_false, not_not] at hmine
      exact h ⟨lock, hget, hmine⟩
    simp only [if_pos hrefused]
    exact ⟨trivial, by decide⟩

end Locks

/-! ## Sessions -/

section Sessions
variable {s : StorageServer} {f g : Filename} {u v : Username} {i j : Int32}

theorem active_iff : Active s f u i ↔ ∃ w, getWriteSession s f u i = some w := by
  constructor
  · rintro ⟨w, hw, hkey⟩
    rcases hget : getWriteSession s f u i with _ | w'
    · exact absurd hkey (key_ne_of_find?_eq_none hget w hw)
    · exact ⟨w', rfl⟩
  · rintro ⟨w, hget⟩
    exact ⟨w, mem_of_getWriteSession hget⟩

/-- **`get_write_session` with `create`** makes the session active, and no other. -/
theorem active_create {t : StorageServer} {count : Nat} (h : createWriteSession s f u i count = some t) :
    Active t g v j ↔ Active s g v j ∨ (g, v, j) = (f, u, i) := by
  obtain ⟨ws, rfl, ⟨w, hw, -⟩, -, -, hothers⟩ := createWriteSession_spec h
  by_cases hkey : (g, v, j) = (f, u, i)
  · refine iff_of_true ?_ (Or.inr hkey)
    cases hkey
    exact active_iff.mpr ⟨w, hw⟩
  · rw [or_iff_left hkey, active_iff, active_iff]
    show (∃ w, ws.find? (isSession g v j) = some w) ↔ ∃ w, s.writeSessions.find? (isSession g v j) = some w
    rw [hothers g v j hkey]

/-- A session that is taken out is not active, and the others are. -/
theorem active_erase {t : StorageServer} (hs : (s.writeSessions.map WriteSession.key).Nodup)
    (ht : t.writeSessions = s.writeSessions.eraseP (isSession f u i)) :
    Active t g v j ↔ Active s g v j ∧ (g, v, j) ≠ (f, u, i) := by
  unfold Active
  rw [ht]
  constructor
  · rintro ⟨w, hw, hkey⟩
    refine ⟨⟨w, List.mem_of_mem_eraseP hw, hkey⟩, ?_⟩
    rw [← hkey]
    exact key_ne_of_mem_eraseP hs hw
  · rintro ⟨⟨w, hw, hkey⟩, hne⟩
    have hkept : isSession f u i w = false := by
      rw [Bool.eq_false_iff, Ne, isSession_iff, hkey]
      exact hne
    exact ⟨w, (List.mem_eraseP_of_neg (by rw [hkept]; exact Bool.false_ne_true)).mpr hw, hkey⟩

end Sessions

/-! ## The two tables -/

/-- Every session has the lock of its sentence, and every lock its session. -/
structure Matched (s : StorageServer) : Prop where
  server : ServerInv s
  same : ∀ f u i, Active s f u i ↔ Holds s f u i

namespace Matched
variable {s : StorageServer}

/-- A session that ends gives its lock back. -/
theorem leave {t : StorageServer} {f : Filename} {u : Username} {i : Int32}
    (hkeys : (s.writeSessions.map WriteSession.key).Nodup)
    (hsame : ∀ g v j, (g, v, j) ≠ (f, u, i) → (Active s g v j ↔ Holds s g v j))
    (hsessions : t.writeSessions = s.writeSessions.eraseP (isSession f u i)) (hlocks : t.fileLocks = s.fileLocks) :
    ∀ g v j, Active (unlockSentence t f i u).1 g v j ↔ Holds (unlockSentence t f i u).1 g v j := by
  intro g v j
  obtain ⟨tables, hunlock, -⟩ := unlockSentence_spec t f i u
  have hactive : Active (unlockSentence t f i u).1 g v j ↔ Active t g v j := by
    rw [hunlock]
    exact Iff.rfl
  have hholds : Holds t g v j ↔ Holds s g v j := by
    unfold Holds
    rw [hlocks]
  rw [hactive, active_erase hkeys hsessions, holds_unlock, hholds]
  exact and_congr_left (hsame g v j)

theorem lock (h : Matched s) (io : Io) {f : Filename} {u : Username} {i : Int32}
    (hu : u.str.length < MAX_USERNAME - 1) (g : Filename) (v : Username) (j : Int32) :
    Active (handleClientRequest io s (.lockSentence f u i)).1 g v j ↔
      Holds (handleClientRequest io s (.lockSentence f u i)).1 g v j := by
  have hholds := holds_lock (s := s) (f := f) (i := i) io hu
  obtain ⟨tables, hlock, -⟩ := lockSentence_spec io s f i u
  unfold handleClientRequest
  simp only
  split
  · exact h.same g v j
  rcases hres : lockSentence io s f i u with ⟨t, status⟩
  rw [hres] at hlock hholds
  obtain rfl : t = { s with fileLocks := tables } := hlock
  simp only at hholds ⊢
  have hactive : ∀ g v j, Active { s with fileLocks := tables } g v j ↔ Holds s g v j := h.same
  rcases hholds with ⟨hstatus, hholds⟩ | ⟨hstatus, hholds⟩
  · rw [if_neg hstatus]
    exact (hactive g v j).trans (hholds g v j).symm
  rw [if_pos hstatus]
  -- the lock is the user's now, and the session is all that is missing
  have hothers : ∀ g v j, (g, v, j) ≠ (f, u, i) →
      (Active { s with fileLocks := tables } g v j ↔ Holds { s with fileLocks := tables } g v j) := by
    intro g v j hne
    rw [hactive, hholds, or_iff_left hne]
  rcases startWriteSession_cases io { s with fileLocks := tables } f u i with
    ⟨hsame, hfail, hnone⟩ | ⟨t, w, hcreate, -, hres⟩
  · rw [if_pos hfail, hsame]
    refine leave (s := { s with fileLocks := tables }) h.server.sessions.keys hothers ?_ rfl g v j
    refine (List.eraseP_of_forall_not fun w hw hsession => ?_).symm
    exact hnone w hw (isSession_iff.mp hsession)
  · have hcreated := fun g v j => active_create (g := g) (v := v) (j := j) hcreate
    obtain ⟨ws, rfl, -, -, hok, -⟩ := createWriteSession_spec hcreate
    have hsame : ∀ g v j, Active { s with fileLocks := tables, writeSessions := ws } g v j ↔
        Holds { s with fileLocks := tables, writeSessions := ws } g v j := by
      intro g v j
      rw [hcreated, hactive]
      exact (hholds g v j).symm
    rcases hres with ⟨-, hsuccess, ht⟩ | ⟨hfail, ht⟩
    · rw [hsuccess, ht]
      exact hsame g v j
    · obtain ⟨disk, hremove, -⟩ := removeWriteSession_spec { s with fileLocks := tables, writeSessions := ws } f u i
      rw [if_pos hfail, ht, hremove]
      show Active (unlockSentence _ f i u).1 g v j ↔ Holds (unlockSentence _ f i u).1 g v j
      refine leave (hok h.server.sessions).keys (fun g v j _ => hsame g v j) ?_ ?_ g v j <;> rfl

/-- **Every message keeps locks and sessions the same.** -/
theorem handle (h : Matched s) (io : Io) {r : Request} (hr : SessionMessage r) :
    Matched (handleClientRequest io s r).1 := by
  refine ⟨h.server.handle io r, ?_⟩
  intro g v j
  cases r with
  | read f => cases hr
  | lockSentence f u i => exact h.lock io hr g v j
  | write f u i wordIdx data =>
    show Active (writeFileSs io s f u i wordIdx data).1 g v j ↔ Holds (writeFileSs io s f u i wordIdx data).1 g v j
    rcases writeFileSs_cases io s f u i wordIdx data with ⟨hsame, -⟩ | ⟨w, fc, k, -, -, hwrite⟩
    · rw [hsame]
      exact h.same g v j
    · rw [hwrite]
      exact h.same g v j
  | unlockSentence f u i =>
    obtain ⟨disk, queues, hcommit⟩ := commitWriteSession_sessions io s f u i
    rw [handle_unlock, hcommit]
    refine leave h.server.sessions.keys (fun g v j _ => h.same g v j) ?_ ?_ g v j <;> rfl
  | cancelWrite f u i =>
    obtain ⟨disk, hremove, -⟩ := removeWriteSession_spec s f u i
    show Active (unlockSentence (removeWriteSession s f u i) f i u).1 g v j ↔
      Holds (unlockSentence (removeWriteSession s f u i) f i u).1 g v j
    rw [hremove]
    refine leave h.server.sessions.keys (fun g v j _ => h.same g v j) ?_ ?_ g v j <;> rfl
  | undo f => cases hr

/-- A sentence has one session, as its lock has one holder. -/
theorem one_session (h : Matched s) {w w' : WriteSession} (hw : w ∈ s.writeSessions) (hw' : w' ∈ s.writeSessions)
    (hf : w.filename = w'.filename) (hi : w.sentenceIdx = w'.sentenceIdx) : w = w' := by
  have hholds : Holds s w.filename w.username w.sentenceIdx := (h.same _ _ _).mp ⟨w, hw, rfl⟩
  have hholds' : Holds s w.filename w'.username w.sentenceIdx := by
    rw [hf, hi]
    exact (h.same _ _ _).mp ⟨w', hw', rfl⟩
  have hu := hholds.unique hholds'
  have hkey : w.key = w'.key := by
    rw [WriteSession.key, WriteSession.key, hf, hu, hi]
  exact List.inj_on_of_nodup_map h.server.sessions.keys hw hw' hkey

/-- Who does not hold the lock has no session to write to, to commit or to cancel, and no lock to give back. -/
theorem refused (h : Matched s) {f : Filename} {u : Username} {i : Int32} (hnot : ¬ Holds s f u i) (io : Io) :
    (∀ wordIdx data, Denied s io (.write f u i wordIdx data)) ∧ Denied s io (.unlockSentence f u i) ∧
      Denied s io (.cancelWrite f u i) := by
  have hnone : getWriteSession s f u i = none := by
    by_contra hsome
    obtain ⟨w, hw⟩ := Option.ne_none_iff_exists'.mp hsome
    exact hnot ((h.same f u i).mp (active_iff.mpr ⟨w, hw⟩))
  refine ⟨fun wordIdx data => ?_, ?_, ?_⟩
  · show (writeFileSs io s f u i wordIdx data).1 = s ∧ (writeFileSs io s f u i wordIdx data).2 ≠ SUCCESS
    unfold writeFileSs
    simp only [hnone]
    exact ⟨trivial, by decide⟩
  · have hcommit : commitWriteSession io s f u i = (s, SUCCESS) := by
      unfold commitWriteSession
      simp only [hnone]
    unfold Denied handleClientRequest
    simp only [hcommit, if_true]
    exact unlock_refused hnot
  · have hcancel : cancelWriteSession s f u i = s := by
      unfold cancelWriteSession removeWriteSession
      simp only [hnone]
    unfold Denied handleClientRequest
    simp only [hcancel]
    exact unlock_refused hnot

end Matched

/-- **Locks and sessions are the same after every run**, and nobody but its holder gets at a locked sentence. -/
theorem locks_match_sessions {id : Int32} {disk : Disk} {es : List (Io × Request)} {t : StorageServer}
    (h : Run (Guarded (fun _ e => SessionMessage e.2) ServerStep) (freshServer id disk) es t) :
    (∀ f u i, Active t f u i ↔ Holds t f u i) ∧
      (∀ w ∈ t.writeSessions, ∀ w' ∈ t.writeSessions, w.filename = w'.filename →
        w.sentenceIdx = w'.sentenceIdx → w = w') ∧
      (t.writeSessions.map WriteSession.key).Nodup ∧
      ∀ io f u i, ¬ Holds t f u i → (∀ wordIdx data, Denied t io (.write f u i wordIdx data)) ∧
        Denied t io (.unlockSentence f u i) ∧ Denied t io (.cancelWrite f u i) := by
  have hfresh : Matched (freshServer id disk) := by
    refine ⟨ServerInv.of_nil rfl, fun f u i => iff_of_false ?_ ?_⟩
    · rintro ⟨w, hw, -⟩
      cases hw
    · rintro ⟨lock, hget, -⟩
      cases hget
  have hmatched : Matched t := by
    refine h.state_invariant hfresh ?_
    rintro s e s' hs ⟨hmessage, rfl⟩
    exact hs.handle e.1 hmessage
  exact ⟨hmatched.same, fun w hw w' hw' => hmatched.one_session hw hw', hmatched.server.sessions.keys,
    fun io f u i hnot => hmatched.refused hnot io⟩

/-- One user locks a sentence. -/
def lockNotes : StorageServer :=
  (handleClientRequest Io.allOpens (freshServer 1 (serverWith (lit "A. B.")).disk) (.lockSentence notes alice 1)).1

theorem locks_match_lockNotes :
    (∀ f u i, Active lockNotes f u i ↔ Holds lockNotes f u i) ∧
      (∀ w ∈ lockNotes.writeSessions, ∀ w' ∈ lockNotes.writeSessions, w.filename = w'.filename →
        w.sentenceIdx = w'.sentenceIdx → w = w') ∧
      (lockNotes.writeSessions.map WriteSession.key).Nodup ∧
      ∀ io f u i, ¬ Holds lockNotes f u i →
        (∀ wordIdx data, Denied lockNotes io (.write f u i wordIdx data)) ∧
        Denied lockNotes io (.unlockSentence f u i) ∧ Denied lockNotes io (.cancelWrite f u i) :=
  have hshort : SessionMessage (.lockSentence notes alice 1) := show alice.str.length < MAX_USERNAME - 1 by decide
  have hrun : Run (Guarded (fun _ e => SessionMessage e.2) ServerStep) (freshServer 1 (serverWith (lit "A. B.")).disk)
      [(Io.allOpens, .lockSentence notes alice 1)] lockNotes := .single ⟨hshort, rfl⟩
  locks_match_sessions hrun

end NetworkFileShare
