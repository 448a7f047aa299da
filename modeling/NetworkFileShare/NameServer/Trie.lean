import NetworkFileShare.Common
import Mathlib.Data.Fintype.Basic
import Mathlib.Logic.Function.Basic

/-!
# The file trie (`trie.c`)

* `TrieNode` : a node with its 128 children; `trieInsert`, `trieSearch`, `trieUpdate`, `trieDelete`,
  `trieGetAllFiles` : the operations, with the values they return;
* `trieSearch_insert`, `trieSearch_update`, `trieSearch_delete` : what a search finds after each of them,
  for any two names; `mem_getAllFiles` : a collected record is one that a search finds, and
  `collected_of_search` : below the limit, every one is collected.
-/

namespace NetworkFileShare

abbrev ALPHABET_SIZE : Nat := 128

inductive TrieNode (α : Type) where
  | node (isEndOfWord : Bool) (fileMeta : Option α) (children : Fin ALPHABET_SIZE → Option (TrieNode α))

/-- The index of a byte among the children; a byte from 128 on has none. -/
def charIndex (c : CChar) : Option (Fin ALPHABET_SIZE) :=
  if h : c.val.toNat < ALPHABET_SIZE then some ⟨c.val.toNat, h⟩ else none

/-- Every byte has an index. -/
def Indexed (filename : CStr) : Prop := ∀ c ∈ filename, c.val.toNat < ALPHABET_SIZE

instance : DecidablePred Indexed := fun filename =>
  inferInstanceAs (Decidable (∀ c ∈ filename, c.val.toNat < ALPHABET_SIZE))

variable {α : Type}

/-! ## The operations -/

/-- `create_trie_node`. -/
def createTrieNode : TrieNode α := .node false none fun _ => none

/-- `trie_insert`. The nodes on the way stay when a byte has no index. -/
def trieInsert : TrieNode α → CStr → α → TrieNode α × Int32
  | .node _ _ children, [], value => (.node true (some value) children, 0)
  | .node isEnd fileMeta children, c :: cs, value =>
    match charIndex c with
    | none => (.node isEnd fileMeta children, -1)
    | some index =>
      match trieInsert ((children index).getD createTrieNode) cs value with
      | (child, status) => (.node isEnd fileMeta (Function.update children index (some child)), status)

/-- `trie_search`. -/
def trieSearch : TrieNode α → CStr → Option α
  | .node isEnd fileMeta _, [] => if isEnd then fileMeta else none
  | .node _ _ children, c :: cs =>
    match charIndex c with
    | none => none
    | some index =>
      match children index with
      | none => none
      | some child => trieSearch child cs

/-- `trie_update`. -/
def trieUpdate : TrieNode α → CStr → α → TrieNode α × Int32
  | .node isEnd fileMeta children, [], value =>
    if isEnd && fileMeta.isSome then (.node isEnd (some value) children, 0)
    else (.node isEnd fileMeta children, -1)
  | .node isEnd fileMeta children, c :: cs, value =>
    match charIndex c with
    | none => (.node isEnd fileMeta children, -1)
    | some index =>
      match children index with
      | none => (.node isEnd fileMeta children, -1)
      | some child =>
        match trieUpdate child cs value with
        | (child, status) => (.node isEnd fileMeta (Function.update children index (some child)), status)

/-- No child is left. -/
def childless (children : Fin ALPHABET_SIZE → Option (TrieNode α)) : Bool :=
  (List.finRange ALPHABET_SIZE).all fun i => (children i).isNone

/-- `trie_delete_helper`: the node afterwards, and whether it can be freed. -/
def trieDeleteHelper : TrieNode α → CStr → TrieNode α × Bool
  | .node isEnd fileMeta children, [] =>
    (if isEnd then .node false none children else .node isEnd fileMeta children, childless children)
  | .node isEnd fileMeta children, c :: cs =>
    match charIndex c with
    | none => (.node isEnd fileMeta children, false)
    | some index =>
      match children index with
      | none => (.node isEnd fileMeta children, false)
      | some child =>
        match trieDeleteHelper child cs with
        | (_, true) =>
          let children := Function.update children index none
          (.node isEnd fileMeta children, !isEnd && childless children)
        | (child, false) => (.node isEnd fileMeta (Function.update children index (some child)), false)

/-- `trie_delete`. -/
def trieDelete (trie : TrieNode α) (filename : CStr) : TrieNode α := (trieDeleteHelper trie filename).1

mutual

/-- `trie_collect_files`: the records collected so far, and those below the node. -/
def trieCollectFiles (maxFiles : Nat) : TrieNode α → List α → List α
  | .node isEnd fileMeta children, files =>
    if files.length ≥ maxFiles then files
    else
      let files := files ++ if isEnd then fileMeta.toList else []
      (List.finRange ALPHABET_SIZE).foldl (fun files i => trieCollectChild maxFiles (children i) files) files

/-- The call for one child, if it is there. -/
def trieCollectChild (maxFiles : Nat) : Option (TrieNode α) → List α → List α
  | none, files => files
  | some child, files => trieCollectFiles maxFiles child files

end

/-- `trie_get_all_files`. -/
def trieGetAllFiles (trie : TrieNode α) (maxFiles : Nat) : List α := trieCollectFiles maxFiles trie []

/-! ## What a search finds -/

theorem charIndex_of_lt {c : CChar} (h : c.val.toNat < ALPHABET_SIZE) :
    charIndex c = some ⟨c.val.toNat, h⟩ := dif_pos h

theorem charIndex_eq_none {c : CChar} : charIndex c = none ↔ ¬ c.val.toNat < ALPHABET_SIZE := by
  simp [charIndex]

theorem val_of_charIndex {c : CChar} {i : Fin ALPHABET_SIZE} (h : charIndex c = some i) :
    c.val.toNat = i.val := by
  by_cases hlt : c.val.toNat < ALPHABET_SIZE
  · rw [charIndex_of_lt hlt] at h
    exact congrArg Fin.val (Option.some.inj h)
  · rw [charIndex_eq_none.mpr hlt] at h
    cases h

theorem charIndex_inj {c d : CChar} {i : Fin ALPHABET_SIZE} (hc : charIndex c = some i)
    (hd : charIndex d = some i) : c = d :=
  Subtype.ext (UInt8.toNat_inj.mp ((val_of_charIndex hc).trans (val_of_charIndex hd).symm))

theorem trieSearch_cons (isEnd : Bool) (fileMeta : Option α)
    (children : Fin ALPHABET_SIZE → Option (TrieNode α)) (c : CChar) (cs : CStr) :
    trieSearch (.node isEnd fileMeta children) (c :: cs) =
      ((charIndex c).bind children).bind (trieSearch · cs) := by
  rw [trieSearch]
  cases charIndex c with
  | none => rfl
  | some i => cases h : children i <;> simp [h]

@[simp] theorem trieSearch_createTrieNode (name : CStr) :
    trieSearch (createTrieNode : TrieNode α) name = none := by
  cases name with
  | nil => rfl
  | cons c cs => rw [createTrieNode, trieSearch_cons]; cases charIndex c <;> rfl

/-- The search through a replaced child. -/
theorem trieSearch_replace {isEnd : Bool} {fileMeta : Option α}
    {children : Fin ALPHABET_SIZE → Option (TrieNode α)} {c : CChar} {index : Fin ALPHABET_SIZE}
    (hc : charIndex c = some index) (child : Option (TrieNode α)) (name : CStr) :
    trieSearch (.node isEnd fileMeta (Function.update children index child)) name =
      match name with
      | [] => trieSearch (.node isEnd fileMeta children) []
      | d :: ds => if d = c then child.bind (trieSearch · ds)
          else trieSearch (.node isEnd fileMeta children) (d :: ds) := by
  cases name with
  | nil => rfl
  | cons d ds =>
    simp only [trieSearch_cons]
    by_cases hd : d = c
    · subst hd
      simp [hc]
    · cases hi : charIndex d with
      | none => simp [hd]
      | some i =>
        have hne : i ≠ index := fun he => hd (charIndex_inj (he ▸ hi) hc)
        simp [hd, hne]

/-- **After an insertion**: a name whose bytes all have an index is found, every other name as before. -/
theorem trieSearch_insert (trie : TrieNode α) (filename : CStr) (value : α) (name : CStr) :
    trieSearch (trieInsert trie filename value).1 name =
      if name = filename ∧ Indexed filename then some value else trieSearch trie name := by
  induction filename generalizing trie name with
  | nil =>
    obtain ⟨isEnd, fileMeta, children⟩ := trie
    cases name with
    | nil => simp [trieInsert, trieSearch, Indexed]
    | cons d ds => simp [trieInsert, trieSearch_cons]
  | cons c cs ih =>
    obtain ⟨isEnd, fileMeta, children⟩ := trie
    cases hc : charIndex c with
    | none =>
      have hout : ¬ Indexed (c :: cs) := fun h => charIndex_eq_none.mp hc (h c List.mem_cons_self)
      simp [trieInsert, hc, hout]
    | some index =>
      have hlt : c.val.toNat < ALPHABET_SIZE := by rw [val_of_charIndex hc]; exact index.isLt
      have hindexed : Indexed (c :: cs) ↔ Indexed cs := by simp [Indexed, hlt]
      simp only [trieInsert, hc, trieSearch_replace hc, hindexed]
      cases name with
      | nil => simp
      | cons d ds =>
        by_cases hd : d = c
        · subst hd
          simp only [if_true, Option.bind_some, ih, trieSearch_cons, hc]
          cases children index <;> simp
        · simp [hd]

theorem trieUpdate_absent {trie : TrieNode α} {filename : CStr} (h : trieSearch trie filename = none)
    (value : α) : trieUpdate trie filename value = (trie, -1) := by
  induction filename generalizing trie with
  | nil =>
    obtain ⟨isEnd, fileMeta, children⟩ := trie
    cases isEnd <;> cases fileMeta <;> simp_all [trieSearch, trieUpdate]
  | cons c cs ih =>
    obtain ⟨isEnd, fileMeta, children⟩ := trie
    rw [trieSearch_cons] at h
    simp only [trieUpdate]
    cases hc : charIndex c with
    | none => rfl
    | some index =>
      dsimp only
      cases hchild : children index with
      | none => rfl
      | some child =>
        rw [hc, Option.bind_some, hchild, Option.bind_some] at h
        simp only [ih h]
        rw [← hchild, Function.update_eq_self]

theorem trieUpdate_status {trie : TrieNode α} {filename : CStr} {old : α}
    (h : trieSearch trie filename = some old) (value : α) : (trieUpdate trie filename value).2 = 0 := by
  induction filename generalizing trie with
  | nil =>
    obtain ⟨isEnd, fileMeta, children⟩ := trie
    cases isEnd <;> cases fileMeta <;> simp_all [trieSearch, trieUpdate]
  | cons c cs ih =>
    obtain ⟨isEnd, fileMeta, children⟩ := trie
    rw [trieSearch_cons] at h
    obtain ⟨child, hchild, h⟩ := Option.bind_eq_some_iff.mp h
    obtain ⟨index, hc, hchild⟩ := Option.bind_eq_some_iff.mp hchild
    simp only [trieUpdate, hc, hchild]
    exact ih h

/-- **After an update**: a name that was there is found with the new value, every other name as before. -/
theorem trieSearch_update (trie : TrieNode α) (filename : CStr) (value : α) (name : CStr) :
    trieSearch (trieUpdate trie filename value).1 name =
      if name = filename ∧ (trieSearch trie filename).isSome then some value else trieSearch trie name := by
  induction filename generalizing trie name with
  | nil =>
    obtain ⟨isEnd, fileMeta, children⟩ := trie
    cases isEnd <;> cases fileMeta <;> cases name <;> simp [trieUpdate, trieSearch]
  | cons c cs ih =>
    obtain ⟨isEnd, fileMeta, children⟩ := trie
    rw [trieSearch_cons _ _ _ c cs]
    simp only [trieUpdate]
    cases hc : charIndex c with
    | none => simp
    | some index =>
      dsimp only
      cases hchild : children index with
      | none => simp [hchild]
      | some child =>
        simp only [trieSearch_replace hc, Option.bind_some, hchild]
        cases name with
        | nil => simp
        | cons d ds =>
          by_cases hd : d = c
          · subst hd
            simp [ih, trieSearch_cons, hc, hchild]
          · simp [hd]

theorem trieSearch_childless {isEnd : Bool} {fileMeta : Option α}
    {children : Fin ALPHABET_SIZE → Option (TrieNode α)} (h : childless children = true) (c : CChar)
    (cs : CStr) : trieSearch (.node isEnd fileMeta children) (c :: cs) = none := by
  have hnone : ∀ i, children i = none := fun i =>
    Option.isNone_iff_eq_none.mp (List.all_eq_true.mp h i (List.mem_finRange i))
  rw [trieSearch_cons]
  cases charIndex c <;> simp [hnone]

/-- A node that can be freed holds no name. -/
theorem trieSearch_freed {trie : TrieNode α} {filename : CStr}
    (h : (trieDeleteHelper trie filename).2 = true) (name : CStr) :
    trieSearch (trieDeleteHelper trie filename).1 name = none := by
  obtain ⟨isEnd, fileMeta, children⟩ := trie
  cases filename with
  | nil =>
    simp only [trieDeleteHelper] at h ⊢
    cases name with
    | nil => cases isEnd <;> simp [trieSearch]
    | cons d ds => cases isEnd <;> exact trieSearch_childless h d ds
  | cons c cs =>
    simp only [trieDeleteHelper] at h ⊢
    split at h
    · cases h
    · split at h
      · cases h
      · split at h
        · simp only [Bool.and_eq_true, Bool.not_eq_true'] at h
          cases name with
          | nil => simp [trieSearch, h.1]
          | cons d ds => simpa using trieSearch_childless h.2 d ds
        · cases h

/-- The node that the helper leaves when the walk goes on. -/
theorem trieDeleteHelper_cons {isEnd : Bool} {fileMeta : Option α}
    {children : Fin ALPHABET_SIZE → Option (TrieNode α)} {c : CChar} {index : Fin ALPHABET_SIZE}
    {child : TrieNode α} (hc : charIndex c = some index) (hchild : children index = some child) (cs : CStr) :
    (trieDeleteHelper (.node isEnd fileMeta children) (c :: cs)).1 =
      .node isEnd fileMeta (Function.update children index
        (if (trieDeleteHelper child cs).2 then none else some (trieDeleteHelper child cs).1)) := by
  simp only [trieDeleteHelper, hc, hchild]
  rcases trieDeleteHelper child cs with ⟨child', freed⟩
  cases freed <;> rfl

/-- **After a deletion**: the name is not found, every other name as before. -/
theorem trieSearch_delete (trie : TrieNode α) (filename : CStr) (name : CStr) :
    trieSearch (trieDelete trie filename) name = if name = filename then none else trieSearch trie name := by
  unfold trieDelete
  induction filename generalizing trie name with
  | nil =>
    obtain ⟨isEnd, fileMeta, children⟩ := trie
    cases name with
    | nil => cases isEnd <;> simp [trieDeleteHelper, trieSearch]
    | cons d ds => cases isEnd <;> simp [trieDeleteHelper, trieSearch_cons]
  | cons c cs ih =>
    obtain ⟨isEnd, fileMeta, children⟩ := trie
    cases hwalk : (charIndex c).bind children with
    | none =>
      -- the walk ends here: nothing changes, and the name was not there
      have habsent : trieSearch (.node isEnd fileMeta children) (c :: cs) = none := by
        rw [trieSearch_cons, hwalk, Option.bind_none]
      have hsame : (trieDeleteHelper (.node isEnd fileMeta children) (c :: cs)).1 =
          .node isEnd fileMeta children := by
        rw [trieDeleteHelper]
        cases hc : charIndex c with
        | none => rfl
        | some index =>
          rw [hc, Option.bind_some] at hwalk
          simp only [hwalk]
      rw [hsame]
      split
      · rename_i he
        rw [he, habsent]
      · rfl
    | some child =>
      obtain ⟨index, hc, hchild⟩ := Option.bind_eq_some_iff.mp hwalk
      rw [trieDeleteHelper_cons hc hchild, trieSearch_replace hc]
      cases name with
      | nil => simp
      | cons d ds =>
        by_cases hd : d = c
        · subst hd
          -- whether the child is freed or kept, a search below it finds what is left of it
          have hbelow : (if (trieDeleteHelper child cs).2 then none
              else some (trieDeleteHelper child cs).1).bind (trieSearch · ds) =
              if ds = cs then none else trieSearch child ds := by
            split
            · rename_i hfreed
              rw [← ih child ds, trieSearch_freed hfreed ds]
              rfl
            · exact ih child ds
          simp [hbelow, trieSearch_cons, hwalk]
        · simp [hd]

/-! ## What is collected -/

/-- No node has a child for NUL, the byte that no name has. -/
inductive NulFree : TrieNode α → Prop where
  | node {isEnd : Bool} {fileMeta : Option α} {children : Fin ALPHABET_SIZE → Option (TrieNode α)}
      (nul : children 0 = none) (below : ∀ i child, children i = some child → NulFree child) :
      NulFree (.node isEnd fileMeta children)

theorem NulFree.create : NulFree (createTrieNode : TrieNode α) :=
  .node rfl fun _ _ h => by cases h

theorem charIndex_ne_zero {c : CChar} {i : Fin ALPHABET_SIZE} (h : charIndex c = some i) : i ≠ 0 := by
  rintro rfl
  exact c.property (UInt8.toNat_inj.mp (val_of_charIndex h))

/-- One child is replaced. -/
theorem NulFree.replace {isEnd isEnd' : Bool} {fileMeta fileMeta' : Option α}
    {children : Fin ALPHABET_SIZE → Option (TrieNode α)} (h : NulFree (.node isEnd fileMeta children))
    {c : CChar} {index : Fin ALPHABET_SIZE} (hc : charIndex c = some index) {child : Option (TrieNode α)}
    (hchild : ∀ n, child = some n → NulFree n) :
    NulFree (.node isEnd' fileMeta' (Function.update children index child)) := by
  cases h with
  | node nul below =>
    refine .node ?_ fun i n hn => ?_
    · rwa [Function.update_of_ne (charIndex_ne_zero hc).symm]
    · rcases eq_or_ne i index with rfl | hne
      · rw [Function.update_self] at hn
        exact hchild n hn
      · rw [Function.update_of_ne hne] at hn
        exact below i n hn

theorem NulFree.insert {trie : TrieNode α} (h : NulFree trie) (filename : CStr) (value : α) :
    NulFree (trieInsert trie filename value).1 := by
  induction filename generalizing trie with
  | nil => cases h with | node nul below => exact .node nul below
  | cons c cs ih =>
    obtain ⟨isEnd, fileMeta, children⟩ := trie
    cases hc : charIndex c with
    | none => simpa [trieInsert, hc] using h
    | some index =>
      simp only [trieInsert, hc]
      refine h.replace hc fun n hn => ?_
      rw [← Option.some.inj hn]
      refine ih ?_
      cases h with
      | node nul below =>
        cases hchild : children index with
        | none => exact .create
        | some child => exact below index child hchild

theorem NulFree.update {trie : TrieNode α} (h : NulFree trie) (filename : CStr) (value : α) :
    NulFree (trieUpdate trie filename value).1 := by
  induction filename generalizing trie with
  | nil =>
    cases h with
    | node nul below =>
      rw [trieUpdate]
      split <;> exact .node nul below
  | cons c cs ih =>
    obtain ⟨isEnd, fileMeta, children⟩ := trie
    rw [trieUpdate]
    split
    · exact h
    · rename_i index hc
      split
      · exact h
      · rename_i child hchild
        refine h.replace hc fun n hn => ?_
        rw [← Option.some.inj hn]
        cases h with
        | node nul below => exact ih (below index child hchild)

theorem NulFree.delete {trie : TrieNode α} (h : NulFree trie) (filename : CStr) :
    NulFree (trieDelete trie filename) := by
  unfold trieDelete
  induction filename generalizing trie with
  | nil =>
    cases h with
    | node nul below =>
      rw [trieDeleteHelper]
      split <;> exact .node nul below
  | cons c cs ih =>
    obtain ⟨isEnd, fileMeta, children⟩ := trie
    cases hc : charIndex c with
    | none => simpa [trieDeleteHelper, hc] using h
    | some index =>
      cases hchild : children index with
      | none => simpa [trieDeleteHelper, hc, hchild] using h
      | some child =>
        rw [trieDeleteHelper_cons hc hchild]
        refine h.replace hc fun n hn => ?_
        split at hn
        · cases hn
        · rw [← Option.some.inj hn]
          cases h with
          | node nul below => exact ih (below index child hchild)

/-- The byte of an index. -/
theorem exists_charIndex {i : Fin ALPHABET_SIZE} (h : i ≠ 0) : ∃ c, charIndex c = some i := by
  have hlt : i.val < 256 := i.isLt.trans (by decide)
  have hval : (UInt8.ofNat i.val).toNat = i.val := by simpa using Nat.mod_eq_of_lt hlt
  have hne : UInt8.ofNat i.val ≠ 0 := by
    intro h0
    rw [h0] at hval
    exact h (Fin.ext hval.symm)
  refine ⟨⟨UInt8.ofNat i.val, hne⟩, ?_⟩
  rw [charIndex_of_lt (by rw [hval]; exact i.isLt)]
  exact congrArg some (Fin.ext hval)

/-- A collected record was collected before, or is found by a search. -/
theorem mem_collectFiles (maxFiles : Nat) {trie : TrieNode α} (hnul : NulFree trie) {files : List α} {m : α}
    (h : m ∈ trieCollectFiles maxFiles trie files) :
    m ∈ files ∨ ∃ name, trieSearch trie name = some m := by
  induction hnul generalizing files with
  | @node isEnd fileMeta children nul below ih =>
    rw [trieCollectFiles] at h
    split at h
    · exact Or.inl h
    · -- what the loop over the children adds is found below one of them
      have hloop : ∀ (is : List (Fin ALPHABET_SIZE)) (files : List α),
          m ∈ is.foldl (fun files i => trieCollectChild maxFiles (children i) files) files →
          m ∈ files ∨ ∃ name, trieSearch (.node isEnd fileMeta children) name = some m := by
        intro is
        induction is with
        | nil => exact fun files hm => Or.inl hm
        | cons i is ih' =>
          intro files hm
          rcases ih' _ hm with hm | hm
          · cases hchild : children i with
            | none =>
              simp only [hchild, trieCollectChild] at hm
              exact Or.inl hm
            | some child =>
              simp only [hchild, trieCollectChild] at hm
              rcases ih i child hchild hm with hm | ⟨name, hm⟩
              · exact Or.inl hm
              · have hi : i ≠ 0 := by
                  rintro rfl
                  rw [nul] at hchild
                  cases hchild
                obtain ⟨c, hc⟩ := exists_charIndex hi
                exact Or.inr ⟨c :: name, by rw [trieSearch_cons, hc]; simp [hchild, hm]⟩
          · exact Or.inr hm
      rcases hloop _ _ h with hm | hm
      · rcases List.mem_append.mp hm with hm | hm
        · exact Or.inl hm
        · refine Or.inr ⟨[], ?_⟩
          cases isEnd with
          | false => cases hm
          | true => simpa [trieSearch, Option.mem_toList] using hm
      · exact Or.inr hm

/-- A loop whose steps only add. -/
theorem prefix_foldl {β : Type} {step : List α → β → List α} (hstep : ∀ files b, files <+: step files b) :
    ∀ (bs : List β) (files : List α), files <+: bs.foldl step files
  | [], _ => List.prefix_rfl
  | b :: bs, files => (hstep files b).trans (prefix_foldl hstep bs (step files b))

mutual

/-- A collection only adds to what was collected before. -/
theorem prefix_collectFiles (maxFiles : Nat) : ∀ (trie : TrieNode α) (files : List α),
    files <+: trieCollectFiles maxFiles trie files
  | .node isEnd fileMeta children, files => by
    rw [trieCollectFiles]
    split
    · exact List.prefix_rfl
    · exact (List.prefix_append files _).trans
        (prefix_foldl (fun files i => prefix_collectChild maxFiles (children i) files) _ _)

theorem prefix_collectChild (maxFiles : Nat) : ∀ (child : Option (TrieNode α)) (files : List α),
    files <+: trieCollectChild maxFiles child files
  | none, _ => List.prefix_rfl
  | some child, files => prefix_collectFiles maxFiles child files

end

/-- **Below the limit, every record that a search finds is collected.** -/
theorem collected_of_search {maxFiles : Nat} {trie : TrieNode α} {files : List α} {name : CStr} {m : α}
    (hm : trieSearch trie name = some m) (hlimit : (trieCollectFiles maxFiles trie files).length < maxFiles) :
    m ∈ trieCollectFiles maxFiles trie files := by
  induction name generalizing trie files with
  | nil =>
    obtain ⟨isEnd, fileMeta, children⟩ := trie
    have hbelow : ¬ files.length ≥ maxFiles := by
      have hlength := (prefix_collectFiles maxFiles (.node isEnd fileMeta children) files).length_le
      omega
    rw [trieSearch] at hm
    split at hm
    · rename_i hend
      rw [trieCollectFiles, if_neg hbelow, if_pos hend, hm]
      exact (prefix_foldl (fun files i => prefix_collectChild maxFiles (children i) files) _ _).subset
        (List.mem_append_right files (List.mem_singleton_self m))
    · cases hm
  | cons c cs ih =>
    obtain ⟨isEnd, fileMeta, children⟩ := trie
    have hbelow : ¬ files.length ≥ maxFiles := by
      have hlength := (prefix_collectFiles maxFiles (.node isEnd fileMeta children) files).length_le
      omega
    rw [trieSearch_cons] at hm
    obtain ⟨child, hchild, hm⟩ := Option.bind_eq_some_iff.mp hm
    obtain ⟨index, -, hchild⟩ := Option.bind_eq_some_iff.mp hchild
    -- the loop up to the child, the child, and the rest of the loop
    obtain ⟨is, js, hsplit⟩ := List.append_of_mem (List.mem_finRange index)
    rw [trieCollectFiles, if_neg hbelow, hsplit, List.foldl_append, List.foldl_cons] at hlimit ⊢
    have hrest := prefix_foldl (fun files i => prefix_collectChild maxFiles (children i) files) js
    simp only [hchild, trieCollectChild] at hlimit ⊢
    exact (hrest _).subset (ih hm ((hrest _).length_le.trans_lt hlimit))

theorem mem_getAllFiles {trie : TrieNode α} (hnul : NulFree trie) {maxFiles : Nat} {m : α}
    (h : m ∈ trieGetAllFiles trie maxFiles) : ∃ name, trieSearch trie name = some m :=
  (mem_collectFiles maxFiles hnul h).resolve_left List.not_mem_nil

end NetworkFileShare
