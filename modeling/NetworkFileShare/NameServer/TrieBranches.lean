import NetworkFileShare.NameServer.TrieMap

/-!
# Dead branches of the file trie (`trie.c`)

* `Every` : a property of every node of a trie; `NoDeadBranch` : every node below the root is an end of word with
  metadata, or has a child;
* `noDeadBranch_delete`, `noDeadBranch_update` : they are kept free of dead branches;
* `noDeadBranch_insert_iff` : an insertion keeps them so exactly when its name has an index for every byte, or the path
  up to the first byte without one is there already;
* `walk_isSome_iff` : the paths of such a trie are the beginnings of the names it holds;
* `no_dead_branches_iff` : when a run has none.
-/

namespace NetworkFileShare

variable {α : Type}

namespace TrieNode

def isEndOfWord : TrieNode α → Bool
  | .node isEnd _ _ => isEnd

def fileMeta : TrieNode α → Option α
  | .node _ fileMeta _ => fileMeta

def children : TrieNode α → Fin ALPHABET_SIZE → Option (TrieNode α)
  | .node _ _ children => children

/-- Every node meets `P`. -/
inductive Every (P : TrieNode α → Prop) : TrieNode α → Prop where
  | intro {t : TrieNode α} (here : P t) (below : ∀ i child, t.children i = some child → Every P child) : Every P t

variable {P Q : TrieNode α → Prop} {t : TrieNode α}

theorem Every.here (h : Every P t) : P t := by
  cases h with | intro here below => exact here

theorem Every.child (h : Every P t) {i : Fin ALPHABET_SIZE} {child : TrieNode α} (hchild : t.children i = some child) :
    Every P child := by
  cases h with | intro here below => exact below i child hchild

/-- Every node below the root meets `P`. -/
def Below (P : TrieNode α → Prop) (t : TrieNode α) : Prop := ∀ i child, t.children i = some child → Every P child

theorem Every.toBelow (h : Every P t) : Below P t := fun _ _ hchild => h.child hchild

theorem below_create : Below P (createTrieNode : TrieNode α) := fun _ _ h => by cases h

/-- One child is replaced. -/
theorem Below.replace {isEnd isEnd' : Bool} {m m' : Option α} {cs : Fin ALPHABET_SIZE → Option (TrieNode α)}
    (h : Below P (.node isEnd m cs)) {index : Fin ALPHABET_SIZE} {child : Option (TrieNode α)} :
    Below P (.node isEnd' m' (Function.update cs index child)) ↔ ∀ n, child = some n → Every P n := by
  constructor
  · intro hnew n hn
    exact hnew index n (show Function.update cs index child index = some n by rw [Function.update_self, hn])
  · intro hchild i n hn
    have hn' : Function.update cs index child i = some n := hn
    rcases eq_or_ne i index with rfl | hne
    · rw [Function.update_self] at hn'
      exact hchild n hn'
    · rw [Function.update_of_ne hne] at hn'
      exact h i n hn'

end TrieNode

open TrieNode

/-! ## The two properties -/

/-- An end of word has metadata. -/
def Marked (t : TrieNode α) : Prop := t.isEndOfWord = true → t.fileMeta.isSome

/-- The node is an end of word with metadata, or has a child. -/
def Useful (t : TrieNode α) : Prop :=
  (t.isEndOfWord = true ∧ t.fileMeta.isSome) ∨ ∃ i, (t.children i).isSome

/-- Every node other than the root is an end of word with metadata, or has a child. -/
abbrev NoDeadBranch (t : TrieNode α) : Prop := Below Useful t

theorem useful_update {isEnd : Bool} {m : Option α} {cs : Fin ALPHABET_SIZE → Option (TrieNode α)}
    (index : Fin ALPHABET_SIZE) (child : TrieNode α) :
    Useful (.node isEnd m (Function.update cs index (some child))) :=
  Or.inr ⟨index, by rw [TrieNode.children, Function.update_self]; rfl⟩

/-! ## Marks -/

theorem every_marked_create : Every Marked (createTrieNode : TrieNode α) :=
  .intro (fun h => by cases h) below_create

theorem every_marked_insert {t : TrieNode α} (h : Every Marked t) (filename : CStr) (value : α) :
    Every Marked (trieInsert t filename value).1 := by
  induction filename generalizing t with
  | nil =>
    obtain ⟨isEnd, fileMeta, children⟩ := t
    exact .intro (fun _ => rfl) h.toBelow
  | cons c cs ih =>
    obtain ⟨isEnd, fileMeta, children⟩ := t
    rw [trieInsert]
    split
    · exact h
    · rename_i index _
      refine .intro h.here (Below.replace h.toBelow |>.mpr fun n hn => ?_)
      rw [← Option.some.inj hn]
      refine ih ?_
      cases hchild : children index with
      | none => exact every_marked_create
      | some child => exact h.child hchild

theorem every_marked_update {t : TrieNode α} (h : Every Marked t) (filename : CStr) (value : α) :
    Every Marked (trieUpdate t filename value).1 := by
  induction filename generalizing t with
  | nil =>
    obtain ⟨isEnd, fileMeta, children⟩ := t
    rw [trieUpdate]
    split
    · exact .intro (fun _ => rfl) h.toBelow
    · exact h
  | cons c cs ih =>
    obtain ⟨isEnd, fileMeta, children⟩ := t
    rw [trieUpdate]
    split
    · exact h
    · rename_i index _
      split
      · exact h
      · rename_i child hchild
        refine .intro h.here (Below.replace h.toBelow |>.mpr fun n hn => ?_)
        rw [← Option.some.inj hn]
        exact ih (h.child hchild)

theorem every_marked_deleteHelper {t : TrieNode α} (h : Every Marked t) (filename : CStr) :
    Every Marked (trieDeleteHelper t filename).1 := by
  induction filename generalizing t with
  | nil =>
    obtain ⟨isEnd, fileMeta, children⟩ := t
    rw [trieDeleteHelper]
    split
    · exact .intro (fun h => by cases h) h.toBelow
    · exact h
  | cons c cs ih =>
    obtain ⟨isEnd, fileMeta, children⟩ := t
    cases hc : charIndex c with
    | none => simpa only [trieDeleteHelper, hc] using h
    | some index =>
      cases hchild : children index with
      | none => simpa only [trieDeleteHelper, hc, hchild] using h
      | some child =>
        rw [trieDeleteHelper_cons hc hchild]
        refine .intro h.here (Below.replace h.toBelow |>.mpr fun n hn => ?_)
        split at hn
        · cases hn
        · rw [← Option.some.inj hn]
          exact ih (h.child hchild)

/-! ## Updates and deletions -/

theorem useful_of_update {t : TrieNode α} (h : Useful t) (filename : CStr) (value : α) :
    Useful (trieUpdate t filename value).1 := by
  obtain ⟨isEnd, fileMeta, children⟩ := t
  cases filename with
  | nil =>
    rw [trieUpdate]
    split
    · rename_i hend
      exact Or.inl ⟨((Bool.and_eq_true _ _).mp hend).1, rfl⟩
    · exact h
  | cons c cs =>
    rw [trieUpdate]
    split
    · exact h
    · split
      · exact h
      · exact useful_update _ _

theorem noDeadBranch_update {t : TrieNode α} (h : NoDeadBranch t) (filename : CStr) (value : α) :
    NoDeadBranch (trieUpdate t filename value).1 := by
  induction filename generalizing t with
  | nil =>
    obtain ⟨isEnd, fileMeta, children⟩ := t
    rw [trieUpdate]
    split <;> exact h
  | cons c cs ih =>
    obtain ⟨isEnd, fileMeta, children⟩ := t
    rw [trieUpdate]
    split
    · exact h
    · rename_i index _
      split
      · exact h
      · rename_i child hchild
        have hc : Every Useful child := h index child hchild
        refine h.replace.mpr fun n hn => ?_
        rw [← Option.some.inj hn]
        exact .intro (useful_of_update hc.here cs value) (ih hc.toBelow)

/-- Whether the helper lets its caller free the node, when the walk goes on. -/
theorem trieDeleteHelper_freed {isEnd : Bool} {fileMeta : Option α}
    {children : Fin ALPHABET_SIZE → Option (TrieNode α)} {c : CChar} {index : Fin ALPHABET_SIZE}
    {child : TrieNode α} (hc : charIndex c = some index) (hchild : children index = some child) (cs : CStr) :
    (trieDeleteHelper (.node isEnd fileMeta children) (c :: cs)).2 =
      ((trieDeleteHelper child cs).2 && (!isEnd && childless (Function.update children index none))) := by
  simp only [trieDeleteHelper, hc, hchild]
  rcases trieDeleteHelper child cs with ⟨child', freed⟩
  cases freed <;> rfl

theorem exists_child_of_not_childless {children : Fin ALPHABET_SIZE → Option (TrieNode α)}
    (h : childless children = false) : ∃ i, (children i).isSome := by
  by_contra hnone
  push Not at hnone
  rw [childless, List.all_eq_true.mpr fun i _ => by simpa using hnone i] at h
  cases h

/-- A node that is kept is still useful, and so are those below it. -/
theorem deleteHelper_useful {t : TrieNode α} (h : NoDeadBranch t) (hmarked : Every Marked t) (filename : CStr) :
    NoDeadBranch (trieDeleteHelper t filename).1 ∧
      (Useful t → (trieDeleteHelper t filename).2 = false → Useful (trieDeleteHelper t filename).1) := by
  induction filename generalizing t with
  | nil =>
    obtain ⟨isEnd, fileMeta, children⟩ := t
    rw [trieDeleteHelper]
    refine ⟨by split <;> exact h, fun huseful hkept => ?_⟩
    split
    · exact Or.inr (exists_child_of_not_childless hkept)
    · exact huseful
  | cons c cs ih =>
    obtain ⟨isEnd, fileMeta, children⟩ := t
    cases hc : charIndex c with
    | none =>
      simp only [trieDeleteHelper, hc]
      exact ⟨h, fun hu _ => hu⟩
    | some index =>
      cases hchild : children index with
      | none =>
        simp only [trieDeleteHelper, hc, hchild]
        exact ⟨h, fun hu _ => hu⟩
      | some child =>
        have hbelow : Every Useful child := h index child hchild
        obtain ⟨hih, hkeptUseful⟩ := ih hbelow.toBelow (hmarked.child hchild)
        rw [trieDeleteHelper_cons hc hchild, trieDeleteHelper_freed hc hchild]
        cases hfreed : (trieDeleteHelper child cs).2 with
        | false =>
          refine ⟨h.replace.mpr fun n hn => ?_, fun _ _ => useful_update _ _⟩
          rw [← Option.some.inj hn]
          exact .intro (hkeptUseful hbelow.here hfreed) hih
        | true =>
          refine ⟨h.replace.mpr fun n hn => (by cases hn), fun _ hkept => ?_⟩
          rw [Bool.true_and, Bool.and_eq_false_iff, Bool.not_eq_false'] at hkept
          rcases hkept with hend | hchildren
          · exact Or.inl ⟨hend, hmarked.here hend⟩
          · exact Or.inr (exists_child_of_not_childless hchildren)

theorem noDeadBranch_delete {t : TrieNode α} (h : NoDeadBranch t) (hmarked : Every Marked t) (filename : CStr) :
    NoDeadBranch (trieDelete t filename) := (deleteHelper_useful h hmarked filename).1

/-! ## Insertions -/

/-- The node at the end of a path. -/
def walk : TrieNode α → CStr → Option (TrieNode α)
  | t, [] => some t
  | t, c :: cs => ((charIndex c).bind t.children).bind (walk · cs)

/-- The bytes of a name before the first one without an index. -/
def indexedPart (filename : CStr) : CStr := filename.takeWhile fun c => (charIndex c).isSome

theorem indexed_cons {c : CChar} {cs : CStr} : Indexed (c :: cs) ↔ (charIndex c).isSome ∧ Indexed cs := by
  rw [Indexed, List.forall_mem_cons, Option.isSome_iff_ne_none, ne_eq, charIndex_eq_none, not_not]
  rfl

/-- Below a new node, an insertion leaves a dead branch exactly when it fails. -/
theorem every_useful_insert_create (filename : CStr) (value : α) :
    Every Useful (trieInsert createTrieNode filename value).1 ↔ Indexed filename := by
  induction filename with
  | nil =>
    refine ⟨fun _ c hc => absurd hc List.not_mem_nil, fun _ => ?_⟩
    exact .intro (Or.inl ⟨rfl, rfl⟩) below_create
  | cons c cs ih =>
    rw [indexed_cons, createTrieNode, trieInsert]
    split
    · rename_i hc
      rw [hc]
      refine ⟨fun h => ?_, fun h => by cases h.1⟩
      rcases h.here with ⟨hend, -⟩ | ⟨i, hi⟩
      · cases hend
      · cases hi
    · rename_i index hc
      rw [hc, ← ih]
      constructor
      · exact fun h => ⟨rfl, Below.replace below_create |>.mp h.toBelow _ rfl⟩
      · intro h
        refine .intro (useful_update _ _) (Below.replace below_create |>.mpr fun n hn => ?_)
        rw [← Option.some.inj hn]
        exact h.2

theorem useful_insert {t : TrieNode α} (h : Useful t) (filename : CStr) (value : α) :
    Useful (trieInsert t filename value).1 := by
  obtain ⟨isEnd, fileMeta, children⟩ := t
  cases filename with
  | nil => exact Or.inl ⟨rfl, rfl⟩
  | cons c cs =>
    rw [trieInsert]
    split
    · exact h
    · exact useful_update _ _

/-- **An insertion leaves no dead branch** exactly when the name has an index for every byte, or the path before the
first byte without one is there already. -/
theorem noDeadBranch_insert_iff {t : TrieNode α} (h : NoDeadBranch t) (filename : CStr) (value : α) :
    NoDeadBranch (trieInsert t filename value).1 ↔ Indexed filename ∨ (walk t (indexedPart filename)).isSome := by
  induction filename generalizing t with
  | nil =>
    obtain ⟨isEnd, fileMeta, children⟩ := t
    exact ⟨fun _ => Or.inr rfl, fun _ => h⟩
  | cons c cs ih =>
    obtain ⟨isEnd, fileMeta, children⟩ := t
    rw [trieInsert, indexed_cons, indexedPart, List.takeWhile_cons]
    cases hc : charIndex c with
    | none => exact ⟨fun _ => Or.inr rfl, fun _ => h⟩
    | some index =>
      have hpath : walk (.node isEnd fileMeta children) (c :: indexedPart cs) =
          (children index).bind (walk · (indexedPart cs)) := by rw [walk, hc]; rfl
      rw [Option.isSome_some, if_pos rfl, ← indexedPart, hpath]
      refine h.replace.trans ?_
      cases hchild : children index with
      | none =>
        simpa using every_useful_insert_create cs value
      | some child =>
        have hbelow : Every Useful child := h index child hchild
        rw [Option.bind_some, and_iff_right rfl, ← ih hbelow.toBelow]
        refine ⟨fun hnew => (hnew _ rfl).toBelow, fun hnew n hn => ?_⟩
        rw [← Option.some.inj hn]
        exact .intro (useful_insert hbelow.here cs value) hnew

/-! ## Paths and names -/

theorem walk_of_search {path : CStr} : ∀ {t : TrieNode α} {name : CStr}, (trieSearch t name).isSome → path <+: name →
    (walk t path).isSome := by
  induction path with
  | nil => exact fun _ _ => rfl
  | cons c cs ih =>
    rintro ⟨isEnd, fileMeta, children⟩ name hname ⟨rest, rfl⟩
    rw [List.cons_append, trieSearch_cons] at hname
    obtain ⟨value, hvalue⟩ := Option.isSome_iff_exists.mp hname
    obtain ⟨child, hchild, hsearch⟩ := Option.bind_eq_some_iff.mp hvalue
    rw [walk, show (TrieNode.node isEnd fileMeta children).children = children from rfl, hchild]
    exact ih (Option.isSome_of_eq_some hsearch) (List.prefix_append cs rest)

/-- Below a useful node there is a name. -/
theorem exists_name {t : TrieNode α} (h : Every Useful t) (hnul : NulFree t) : ∃ name, (trieSearch t name).isSome := by
  induction h with
  | @intro t here below ih =>
    obtain ⟨isEnd, fileMeta, children⟩ := t
    rcases here with ⟨hend, hmeta⟩ | ⟨i, hi⟩
    · have hend' : isEnd = true := hend
      exact ⟨[], by rw [trieSearch, if_pos hend']; exact hmeta⟩
    · obtain ⟨child, hchild⟩ := Option.isSome_iff_exists.mp hi
      cases hnul with
      | node nul below =>
        have hne : i ≠ 0 := by
          rintro rfl
          exact absurd (hchild.symm.trans nul) (by simp)
        obtain ⟨c, hc⟩ := exists_charIndex hne
        obtain ⟨name, hname⟩ := ih i child hchild (below i child hchild)
        refine ⟨c :: name, ?_⟩
        rw [trieSearch_cons, hc, Option.bind_some, show children i = some child from hchild]
        exact hname

/-- A name that the trie holds. -/
def HoldsName (t : TrieNode α) (name : CStr) : Prop := (trieSearch t name).isSome

/-- The path of the root, or the beginning of a name that the trie holds. -/
def Begins (t : TrieNode α) (path : CStr) : Prop := path = [] ∨ ∃ name, HoldsName t name ∧ path <+: name

/-- **The paths of a trie without dead branches** are the beginnings of its names. -/
theorem walk_isSome_iff {t : TrieNode α} (h : NoDeadBranch t) (hnul : NulFree t) (path : CStr) :
    (walk t path).isSome ↔ Begins t path := by
  constructor
  · induction path generalizing t with
    | nil => exact fun _ => Or.inl rfl
    | cons c cs ih =>
      intro hwalk
      obtain ⟨isEnd, fileMeta, children⟩ := t
      obtain ⟨n, hn⟩ := Option.isSome_iff_exists.mp hwalk
      obtain ⟨child, hstep, hrest⟩ := Option.bind_eq_some_iff.mp hn
      obtain ⟨i, hi, hchild⟩ := Option.bind_eq_some_iff.mp hstep
      have hbelow : Every Useful child := h i child hchild
      have hnul' : NulFree child := by
        cases hnul with | node nul below => exact below i child hchild
      -- a name of the child that begins with the rest of the path
      obtain ⟨name, hname, hbegins⟩ : ∃ name, HoldsName child name ∧ cs <+: name := by
        rcases ih hbelow.toBelow hnul' (Option.isSome_of_eq_some hrest) with rfl | hname
        · obtain ⟨name, hname⟩ := exists_name hbelow hnul'
          exact ⟨name, hname, List.nil_prefix⟩
        · exact hname
      refine Or.inr ⟨c :: name, ?_, List.cons_prefix_cons.mpr ⟨rfl, hbegins⟩⟩
      rw [HoldsName, trieSearch_cons, hi, Option.bind_some, show children i = some child from hchild]
      exact hname
  · rintro (rfl | ⟨name, hname, hbegins⟩)
    · rfl
    · exact walk_of_search hname hbegins

/-! ## Runs -/

/-- The trie after the operations. -/
def trieAfter (ops : List (TrieOp α)) : TrieNode α := ops.foldl (fun t op => (op.exec t).1) createTrieNode

theorem trieAfter_snoc (ops : List (TrieOp α)) (op : TrieOp α) :
    trieAfter (ops ++ [op]) = (op.exec (trieAfter ops)).1 := by
  rw [trieAfter, List.foldl_append]
  rfl

theorem trieAfter_marked (ops : List (TrieOp α)) : Every Marked (trieAfter ops) := by
  induction ops using List.reverseRecOn with
  | nil => exact every_marked_create
  | append_singleton ops op ih =>
    rw [trieAfter_snoc]
    cases op with
    | insert filename value => exact every_marked_insert ih filename value
    | update filename value => exact every_marked_update ih filename value
    | delete filename => exact every_marked_deleteHelper ih filename
    | search _ | getAllFiles _ => exact ih

theorem trieAfter_nulFree (ops : List (TrieOp α)) : NulFree (trieAfter ops) := by
  induction ops using List.reverseRecOn with
  | nil => exact .create
  | append_singleton ops op ih =>
    rw [trieAfter_snoc]
    cases op with
    | insert filename value => exact ih.insert filename value
    | update filename value => exact ih.update filename value
    | delete filename => exact ih.delete filename
    | search _ | getAllFiles _ => exact ih

/-- No branch is dead, and every path is the beginning of a name. -/
structure Tidy (t : TrieNode α) : Prop where
  noDeadBranch : NoDeadBranch t
  paths : ∀ path, (walk t path).isSome → Begins t path

theorem tidy_iff (ops : List (TrieOp α)) : Tidy (trieAfter ops) ↔ NoDeadBranch (trieAfter ops) :=
  ⟨Tidy.noDeadBranch, fun h => ⟨h, fun path => (walk_isSome_iff h (trieAfter_nulFree ops) path).mp⟩⟩

/-- An insertion has an index for every byte of its name, or its name begins like one that the trie holds up to the
first byte without an index. -/
def TrieOp.Grafts : TrieOp α → TrieNode α → Prop
  | .insert filename _, t => Indexed filename ∨ Begins t (indexedPart filename)
  | _, _ => True

theorem tidy_snoc_iff {ops : List (TrieOp α)} (h : Tidy (trieAfter ops)) (op : TrieOp α) :
    Tidy (trieAfter (ops ++ [op])) ↔ op.Grafts (trieAfter ops) := by
  rw [tidy_iff, trieAfter_snoc]
  cases op with
  | insert filename value =>
    refine (noDeadBranch_insert_iff h.noDeadBranch filename value).trans (or_congr Iff.rfl ?_)
    exact walk_isSome_iff h.noDeadBranch (trieAfter_nulFree ops) _
  | update filename value => exact iff_of_true (noDeadBranch_update h.noDeadBranch filename value) trivial
  | delete filename =>
    exact iff_of_true (noDeadBranch_delete h.noDeadBranch (trieAfter_marked ops) filename) trivial
  | search _ | getAllFiles _ => exact iff_of_true h.noDeadBranch trivial

/-- **When a trie never has dead branches**: over every run, exactly when each insertion is such a one. -/
theorem no_dead_branches_iff (ops : List (TrieOp α)) :
    (∀ done, done <+: ops → Tidy (trieAfter done)) ↔
      ∀ done op, done ++ [op] <+: ops → op.Grafts (trieAfter done) := by
  constructor
  · intro h done op hdone
    exact (tidy_snoc_iff (h done ((List.prefix_append done [op]).trans hdone)) op).mp (h _ hdone)
  · intro h done hdone
    induction done using List.reverseRecOn with
    | nil => exact (tidy_iff []).mpr below_create
    | append_singleton done op ih =>
      exact (tidy_snoc_iff (ih ((List.prefix_append done [op]).trans hdone)) op).mpr (h done op hdone)

/-- **An insertion that fails behind its first byte** leaves the node of that byte. -/
theorem failed_insert_leaves_node : (trieInsert createTrieNode [byte 97, byte 255] ()).2 = -1 ∧
    ¬ Tidy (trieAfter [.insert [byte 97, byte 255] ()]) := by
  refine ⟨by decide, fun h => ?_⟩
  rcases (noDeadBranch_insert_iff below_create _ _).mp h.noDeadBranch with hindexed | hwalk
  · exact absurd (hindexed (byte 255) (List.mem_cons_of_mem _ List.mem_cons_self)) (by decide)
  · cases hwalk

end NetworkFileShare
