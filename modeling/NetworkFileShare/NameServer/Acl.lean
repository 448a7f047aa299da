import NetworkFileShare.NameServer.State

/-!
# Access-control lists

* `FileMetadata.AclNodup` : no user has two entries;
* `AclChange` : what a request makes of one user's entry; `accessOf_apply` : afterwards that user has the
  access granted, or none, and every other user what it had before;
* `SameAccess` : two records give every user, or every user but one, the same access.
-/

namespace NetworkFileShare

namespace FileMetadata

/-- No user has two entries. -/
def AclNodup (m : FileMetadata) : Prop := (m.acl.map (·.username)).Nodup

theorem accessOf_eq_none {m : FileMetadata} {u : CStr} :
    m.accessOf u = none ↔ u ∉ m.acl.map (·.username) := by
  rw [accessOf, Option.map_eq_none_iff, List.find?_eq_none]
  simp

/-- There is an entry for `u` exactly when the search finds an access. -/
theorem mem_acl_iff {m : FileMetadata} {u : CStr} :
    u ∈ m.acl.map (·.username) ↔ m.accessOf u ≠ none := by
  rw [ne_eq, accessOf_eq_none, not_not]

theorem find_setAccess (u : CStr) (a : Int32) (v : CStr) : ∀ acl : List ACLEntry,
    ((setAccess u a acl).find? (·.username = v)).map (·.access) =
      if v = u then (acl.find? (·.username = u)).map fun _ => a
      else (acl.find? (·.username = v)).map (·.access)
  | [] => by simp [setAccess]
  | e :: es => by
    have ih := find_setAccess u a v es
    unfold setAccess
    by_cases he : e.username = u
    · rw [if_pos he]
      by_cases hv : v = u
      · simp [he, hv]
      · simp [he, hv, Ne.symm hv]
    · rw [if_neg he]
      by_cases hv : v = u
      · simp only [if_pos hv] at ih ⊢
        subst hv
        simpa [he] using ih
      · simp only [if_neg hv] at ih ⊢
        by_cases hev : e.username = v
        · simp [hev]
        · simpa [hev] using ih

theorem map_username_setAccess (u : CStr) (a : Int32) : ∀ acl : List ACLEntry,
    (setAccess u a acl).map (·.username) = acl.map (·.username)
  | [] => rfl
  | e :: es => by
    unfold setAccess
    split
    · simp
    · simp [map_username_setAccess u a es]

/-- There is an entry for `u`, or room for one. -/
def HasRoom (m : FileMetadata) (u : CStr) : Prop := m.accessOf u ≠ none ∨ m.acl.length < MAX_ACL_ENTRIES

instance (m : FileMetadata) (u : CStr) : Decidable (m.HasRoom u) :=
  inferInstanceAs (Decidable (_ ∨ _))

theorem any_username {m : FileMetadata} {u : CStr} :
    m.acl.any (·.username = u) = true ↔ m.accessOf u ≠ none := by
  rw [← mem_acl_iff]
  simp

theorem accessOf_grant (m : FileMetadata) (u : CStr) (a : Int32) (v : CStr) :
    (m.grant u a).accessOf v = if v = u ∧ m.HasRoom u then some a else m.accessOf v := by
  unfold grant
  split
  · rename_i hany
    have hentry := any_username.mp hany
    rw [accessOf, find_setAccess]
    by_cases hv : v = u
    · obtain ⟨b, hb⟩ := Option.ne_none_iff_exists'.mp hentry
      obtain ⟨e, he, -⟩ := Option.map_eq_some_iff.mp hb
      simp [hv, HasRoom, hentry, he]
    · simp [hv, accessOf]
  · rename_i hany
    have hnone : m.accessOf u = none := not_not.mp fun h => hany (any_username.mpr h)
    split
    · rename_i hroom
      rw [accessOf, List.find?_append]
      by_cases hv : v = u
      · subst hv
        have hfind : m.acl.find? (·.username = v) = none := Option.map_eq_none_iff.mp hnone
        simp [hfind, HasRoom, hroom]
      · simp [hv, Ne.symm hv, accessOf]
    · rename_i hroom
      simp [HasRoom, hnone, hroom]

@[simp] theorem owner_grant (m : FileMetadata) (u : CStr) (a : Int32) : (m.grant u a).owner = m.owner := by
  unfold grant
  split
  · rfl
  · split <;> rfl

theorem AclNodup.grant {m : FileMetadata} (h : m.AclNodup) (u : CStr) (a : Int32) :
    (m.grant u a).AclNodup := by
  unfold FileMetadata.grant
  split
  · rw [AclNodup, map_username_setAccess]
    exact h
  · rename_i hany
    split
    · rw [AclNodup, List.map_append, List.map_singleton, List.nodup_append_comm]
      refine List.nodup_cons.mpr ⟨fun hmem => hany (any_username.mpr (mem_acl_iff.mp hmem)), h⟩
    · exact h

theorem AclNodup.revoke {m : FileMetadata} (h : m.AclNodup) (u : CStr) : (m.revoke u).AclNodup :=
  h.sublist ((List.eraseP_sublist).map _)

theorem accessOf_revoke {m : FileMetadata} (h : m.AclNodup) (u v : CStr) :
    (m.revoke u).accessOf v = if v = u then none else m.accessOf v := by
  unfold AclNodup at h
  unfold revoke accessOf
  generalize m.acl = acl at h ⊢
  dsimp only
  induction acl with
  | nil => simp
  | cons e es ih =>
    rw [List.map_cons, List.nodup_cons] at h
    by_cases he : e.username = u
    · rw [List.eraseP_cons_of_pos (by simpa using he)]
      by_cases hv : v = u
      · have hgone : ∀ x ∈ es, ¬ x.username = u := fun x hx hxu =>
          h.1 (List.mem_map.mpr ⟨x, hx, by rw [hxu, he]⟩)
        simpa [hv] using hgone
      · simp [hv, he, Ne.symm hv]
    · rw [List.eraseP_cons_of_neg (by simpa using he)]
      by_cases hev : e.username = v
      · have hvu : v ≠ u := fun hvu => he (hev.trans hvu)
        simp [hev, hvu]
      · simpa [hev] using ih h.2

end FileMetadata

/-! ## Changes of one entry -/

/-- What a request makes of one user's entry. -/
inductive AclChange where
  | grant (username : CStr) (access : Int32)
  | revoke (username : CStr)
  deriving DecidableEq

namespace AclChange

def user : AclChange → CStr
  | grant u _ => u
  | revoke u => u

/-- The access of the user afterwards. -/
def access : AclChange → Option Int32
  | grant _ a => some a
  | revoke _ => none

def apply : AclChange → FileMetadata → FileMetadata
  | grant u a, m => m.grant u a
  | revoke u, m => m.revoke u

theorem apply_nodup (ch : AclChange) {m : FileMetadata} (h : m.AclNodup) : (ch.apply m).AclNodup := by
  cases ch with
  | grant u a => exact h.grant u a
  | revoke u => exact h.revoke u

/-- **One entry changes**, if there is room for it. -/
theorem accessOf_apply (ch : AclChange) {m : FileMetadata} (h : m.AclNodup)
    (hroom : ∀ u a, ch = grant u a → m.HasRoom u) (v : CStr) :
    (ch.apply m).accessOf v = if v = ch.user then ch.access else m.accessOf v := by
  cases ch with
  | grant u a =>
    rw [apply, FileMetadata.accessOf_grant, user, access]
    by_cases hv : v = u
    · rw [if_pos ⟨hv, hroom u a rfl⟩, if_pos hv]
    · rw [if_neg fun h => hv h.1, if_neg hv]
  | revoke u => exact FileMetadata.accessOf_revoke h u v

end AclChange

/-! ## The same access -/

/-- Both records give the same access to every user but `except`. -/
def SameAccess (except : Option CStr) (m m' : FileMetadata) : Prop :=
  ∀ e ∈ m.acl ++ m'.acl, some e.username ≠ except → m.accessOf e.username = m'.accessOf e.username

instance (except : Option CStr) (m m' : FileMetadata) : Decidable (SameAccess except m m') :=
  inferInstanceAs (Decidable (∀ e ∈ m.acl ++ m'.acl, _ → _))

theorem SameAccess.accessOf {except : Option CStr} {m m' : FileMetadata} (h : SameAccess except m m')
    {v : CStr} (hv : some v ≠ except) : m.accessOf v = m'.accessOf v := by
  by_cases hmem : v ∈ (m.acl ++ m'.acl).map (·.username)
  · obtain ⟨e, he, rfl⟩ := List.mem_map.mp hmem
    exact h e he hv
  · rw [List.map_append, List.mem_append, not_or] at hmem
    rw [FileMetadata.accessOf_eq_none.mpr hmem.1, FileMetadata.accessOf_eq_none.mpr hmem.2]

end NetworkFileShare
