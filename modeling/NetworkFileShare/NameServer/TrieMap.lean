import NetworkFileShare.NameServer.Trie
import NetworkFileShare.Lib.Run
import Mathlib.Data.Finset.Sort
import Mathlib.Data.List.Lex

/-!
# The file trie is a map (`trie.c`)

* `ByteOrder` : names in the order of their bytes;
* `FileMap` : a finite map from names whose bytes are all below 128, with the operations of the trie on it;
* `trieNames` : the names of a trie, in the order of a walk through it; `sorted_trieNames`, `mem_trieNames` : they are
  those that a search finds, in byte order; `trieCollectFiles_eq` : the records collected are theirs;
* `trie_refines_map` : every sequence of operations answers as it does on the map.
-/

namespace NetworkFileShare

variable {α : Type}

/-! ## Byte order -/

/-- The bytes of a name as numbers. -/
def byteValues (name : CStr) : List Nat := name.map fun c => c.val.toNat

/-- The first byte that differs decides; a name comes before those it is a prefix of. -/
def ByteOrder (s t : CStr) : Prop := byteValues s ≤ byteValues t

instance : DecidableRel ByteOrder := fun s t => inferInstanceAs (Decidable (byteValues s ≤ byteValues t))

theorem byteValues_injective : Function.Injective byteValues :=
  List.map_injective_iff.mpr fun _ _ h => Subtype.ext (UInt8.toNat_inj.mp h)

instance : IsTrans CStr ByteOrder := ⟨fun _ _ _ h h' => le_trans (α := List Nat) h h'⟩

instance : Std.Antisymm ByteOrder := ⟨fun _ _ h h' => byteValues_injective (le_antisymm h h')⟩

instance : Std.Total ByteOrder := ⟨fun s t => le_total (byteValues s) (byteValues t)⟩

/-! ## The map -/

/-- A finite map from names whose bytes are all below 128. -/
structure FileMap (α : Type) where
  names : Finset CStr
  value : CStr → Option α
  mem_names : ∀ name, name ∈ names ↔ (value name).isSome
  indexed : ∀ name ∈ names, Indexed name

namespace FileMap

def empty : FileMap α := ⟨∅, fun _ => none, by simp, by simp⟩

/-- A name with a byte from 128 on is refused. -/
def insert (m : FileMap α) (filename : CStr) (value : α) : FileMap α × Int32 :=
  if h : Indexed filename then
    (⟨Insert.insert filename m.names, Function.update m.value filename (some value), fun name => by
      rw [Finset.mem_insert, Function.update_apply]
      split <;> simp_all [m.mem_names], fun name hname => by
      rcases Finset.mem_insert.mp hname with rfl | hname
      · exact h
      · exact m.indexed name hname⟩, 0)
  else (m, -1)

/-- The value of a name that is there is replaced. -/
def update (m : FileMap α) (filename : CStr) (value : α) : FileMap α × Int32 :=
  if h : filename ∈ m.names then
    (⟨m.names, Function.update m.value filename (some value), fun name => by
      rw [Function.update_apply]
      split <;> simp_all [m.mem_names], m.indexed⟩, 0)
  else (m, -1)

/-- The name is taken out. -/
def delete (m : FileMap α) (filename : CStr) : FileMap α :=
  ⟨m.names.erase filename, Function.update m.value filename none, fun name => by
    rw [Finset.mem_erase, Function.update_apply]
    split <;> simp_all [m.mem_names], fun name hname => m.indexed name (Finset.mem_of_mem_erase hname)⟩

theorem value_insert (m : FileMap α) (filename : CStr) (value : α) (name : CStr) :
    (m.insert filename value).1.value name =
      if name = filename ∧ Indexed filename then some value else m.value name := by
  unfold insert
  split
  · rename_i h
    simp [Function.update_apply, h]
  · rename_i h
    simp [h]

theorem status_insert (m : FileMap α) (filename : CStr) (value : α) :
    (m.insert filename value).2 = if Indexed filename then 0 else -1 := by
  unfold insert
  split <;> rfl

theorem value_update (m : FileMap α) (filename : CStr) (value : α) (name : CStr) :
    (m.update filename value).1.value name =
      if name = filename ∧ filename ∈ m.names then some value else m.value name := by
  unfold update
  split
  · rename_i h
    simp [Function.update_apply, h]
  · rename_i h
    simp [h]

theorem status_update (m : FileMap α) (filename : CStr) (value : α) :
    (m.update filename value).2 = if filename ∈ m.names then 0 else -1 := by
  unfold update
  split <;> rfl

theorem value_delete (m : FileMap α) (filename name : CStr) :
    (m.delete filename).value name = if name = filename then none else m.value name :=
  Function.update_apply m.value filename none name

/-- The values of the first names in byte order. -/
def getAllFiles (m : FileMap α) (maxFiles : Nat) : List α :=
  ((m.names.sort ByteOrder).take maxFiles).filterMap m.value

end FileMap

/-! ## Operations and their results -/

inductive TrieOp (α : Type) where
  | insert (filename : CStr) (fileMeta : α)
  | update (filename : CStr) (fileMeta : α)
  | delete (filename : CStr)
  | search (filename : CStr)
  | getAllFiles (maxFiles : Int)

inductive TrieResult (α : Type) where
  | status (r : Int32)
  | found (fileMeta : Option α)
  | files (metas : List α)

/-- An operation of `trie.c`. A limit below zero leaves no room, as zero does. -/
def TrieOp.exec : TrieOp α → TrieNode α → TrieNode α × TrieResult α
  | .insert filename fileMeta, t => ((trieInsert t filename fileMeta).1, .status (trieInsert t filename fileMeta).2)
  | .update filename fileMeta, t => ((trieUpdate t filename fileMeta).1, .status (trieUpdate t filename fileMeta).2)
  | .delete filename, t => (trieDelete t filename, .status 0)
  | .search filename, t => (t, .found (trieSearch t filename))
  | .getAllFiles maxFiles, t => (t, .files (trieGetAllFiles t maxFiles.toNat))

/-- The same operation on a map. -/
def TrieOp.onMap : TrieOp α → FileMap α → FileMap α × TrieResult α
  | .insert filename fileMeta, m => ((m.insert filename fileMeta).1, .status (m.insert filename fileMeta).2)
  | .update filename fileMeta, m => ((m.update filename fileMeta).1, .status (m.update filename fileMeta).2)
  | .delete filename, m => (m.delete filename, .status 0)
  | .search filename, m => (m, .found (m.value filename))
  | .getAllFiles maxFiles, m => (m, .files (m.getAllFiles maxFiles.toNat))

/-! ## The names of a trie -/

/-- The byte of an index; NUL is in no name. -/
def indexChar (i : Fin ALPHABET_SIZE) : Option CChar :=
  if h : UInt8.ofNat i.val = 0 then none else some ⟨UInt8.ofNat i.val, h⟩

theorem indexChar_eq_some {i : Fin ALPHABET_SIZE} {c : CChar} : indexChar i = some c ↔ charIndex c = some i := by
  have hlt : i.val < 256 := i.isLt.trans (by decide)
  have hval : (UInt8.ofNat i.val).toNat = i.val := by simpa using Nat.mod_eq_of_lt hlt
  constructor
  · intro h
    unfold indexChar at h
    split at h
    · cases h
    · obtain rfl := Option.some.inj h
      rw [charIndex_of_lt (by rw [hval]; exact i.isLt)]
      exact congrArg some (Fin.ext hval)
  · intro h
    have hc : UInt8.ofNat i.val = c.val := UInt8.toNat_inj.mp (hval.trans (val_of_charIndex h).symm)
    have hne : UInt8.ofNat i.val ≠ 0 := by
      rw [hc]
      exact c.property
    rw [indexChar, dif_neg hne]
    exact congrArg some (Subtype.ext hc)

mutual

/-- The names below a node, in the order of the walk of `trie_collect_files`. -/
def trieNames : TrieNode α → List CStr
  | .node isEnd fileMeta children =>
    (if isEnd && fileMeta.isSome then [[]] else []) ++
      (List.finRange ALPHABET_SIZE).flatMap fun i => childNames (indexChar i) (children i)

/-- The names through one child. -/
def childNames : Option CChar → Option (TrieNode α) → List CStr
  | some c, some child => (trieNames child).map (c :: ·)
  | _, _ => []

end

theorem mem_childNames {c : Option CChar} {child : Option (TrieNode α)} {name : CStr} :
    name ∈ childNames c child ↔ ∃ d ds n, c = some d ∧ child = some n ∧ name = d :: ds ∧ ds ∈ trieNames n := by
  rcases c with _ | d
  · simp [childNames]
  rcases child with _ | n
  · simp [childNames]
  · rw [childNames, List.mem_map]
    constructor
    · rintro ⟨ds, hds, rfl⟩
      exact ⟨d, ds, n, rfl, rfl, rfl, hds⟩
    · rintro ⟨_, ds, _, hd, hn, rfl, hds⟩
      obtain rfl := Option.some.inj hd
      obtain rfl := Option.some.inj hn
      exact ⟨ds, hds, rfl⟩

/-- **The names of a trie are those that a search finds.** -/
theorem mem_trieNames {t : TrieNode α} {name : CStr} : name ∈ trieNames t ↔ (trieSearch t name).isSome := by
  induction name generalizing t with
  | nil =>
    obtain ⟨isEnd, fileMeta, children⟩ := t
    have hbelow : [] ∉ (List.finRange ALPHABET_SIZE).flatMap fun i => childNames (indexChar i) (children i) := by
      intro h
      obtain ⟨i, -, hi⟩ := List.mem_flatMap.mp h
      obtain ⟨d, ds, n, -, -, hname, -⟩ := mem_childNames.mp hi
      cases hname
    rw [trieNames, List.mem_append, or_iff_left hbelow, trieSearch]
    cases isEnd <;> cases fileMeta <;> simp
  | cons c cs ih =>
    obtain ⟨isEnd, fileMeta, children⟩ := t
    have hhere : c :: cs ∉ (if isEnd && fileMeta.isSome then [[]] else [] : List CStr) := by
      split <;> simp
    rw [trieNames, List.mem_append, or_iff_right hhere, List.mem_flatMap, trieSearch_cons]
    constructor
    · rintro ⟨i, -, hi⟩
      obtain ⟨d, ds, n, hd, hn, hname, hds⟩ := mem_childNames.mp hi
      obtain ⟨rfl, rfl⟩ := List.cons.inj hname
      rw [indexChar_eq_some.mp hd, Option.bind_some, hn, Option.bind_some]
      exact ih.mp hds
    · intro h
      obtain ⟨m, hm⟩ := Option.isSome_iff_exists.mp h
      obtain ⟨n, hn, hm⟩ := Option.bind_eq_some_iff.mp hm
      obtain ⟨i, hi, hn⟩ := Option.bind_eq_some_iff.mp hn
      refine ⟨i, List.mem_finRange i, mem_childNames.mpr ⟨c, cs, n, indexChar_eq_some.mpr hi, hn, rfl, ?_⟩⟩
      exact ih.mpr (by rw [hm]; rfl)

theorem byteValues_cons_lt {c : CChar} {s t : CStr} (h : byteValues s < byteValues t) :
    byteValues (c :: s) < byteValues (c :: t) := List.Lex.cons h

theorem byteValues_lt_of_index {i j : Fin ALPHABET_SIZE} (h : i < j) {c d : CChar} (hc : charIndex c = some i)
    (hd : charIndex d = some j) (s t : CStr) : byteValues (c :: s) < byteValues (d :: t) := by
  refine List.Lex.rel ?_
  show c.val.toNat < d.val.toNat
  rw [val_of_charIndex hc, val_of_charIndex hd]
  exact h

mutual

/-- **The walk meets the names in byte order, each once.** -/
theorem sorted_trieNames : ∀ t : TrieNode α, (trieNames t).Pairwise fun s s' => byteValues s < byteValues s'
  | .node isEnd fileMeta children => by
    rw [trieNames, List.pairwise_append]
    refine ⟨?_, List.pairwise_flatMap.mpr ⟨fun i _ => sorted_childNames (indexChar i) (children i), ?_⟩, ?_⟩
    · split <;> simp
    · refine (List.pairwise_lt_finRange ALPHABET_SIZE).imp fun {i j} hij s hs s' hs' => ?_
      obtain ⟨d, ds, n, hd, -, rfl, -⟩ := mem_childNames.mp hs
      obtain ⟨d', ds', n', hd', -, rfl, -⟩ := mem_childNames.mp hs'
      exact byteValues_lt_of_index hij (indexChar_eq_some.mp hd) (indexChar_eq_some.mp hd') ds ds'
    · intro s hs s' hs'
      obtain ⟨i, -, hi⟩ := List.mem_flatMap.mp hs'
      obtain ⟨d, ds, n, -, -, rfl, -⟩ := mem_childNames.mp hi
      split at hs
      · rw [List.mem_singleton.mp hs]
        exact List.Lex.nil
      · cases hs

theorem sorted_childNames : ∀ (c : Option CChar) (child : Option (TrieNode α)),
    (childNames c child).Pairwise fun s s' => byteValues s < byteValues s'
  | some c, some child => by
    rw [childNames, List.pairwise_map]
    exact (sorted_trieNames child).imp byteValues_cons_lt
  | none, _ => by
    rw [childNames]
    · exact .nil
    · intro c child h
      cases h
  | some c, none => by
    rw [childNames]
    · exact .nil
    · intro c child _ h
      cases h

end

/-! ## What is collected -/

/-- A loop whose steps each take what still fits. -/
theorem foldl_take {β : Type} {step : List α → β → List α} {values : β → List α} {limit : Nat}
    (hstep : ∀ files b, step files b = files ++ (values b).take (limit - files.length)) :
    ∀ (bs : List β) (files : List α),
      bs.foldl step files = files ++ (bs.flatMap values).take (limit - files.length)
  | [], files => by simp
  | b :: bs, files => by
    rw [List.foldl_cons, foldl_take hstep bs, hstep, List.flatMap_cons, List.take_append, List.append_assoc,
      List.length_append, List.length_take]
    congr 3
    omega

/-- The record at a node itself. -/
theorem filterMap_here (isEnd : Bool) (fileMeta : Option α) (children : Fin ALPHABET_SIZE → Option (TrieNode α)) :
    (if isEnd && fileMeta.isSome then [[]] else [] : List CStr).filterMap
        (trieSearch (.node isEnd fileMeta children)) = if isEnd then fileMeta.toList else [] := by
  cases isEnd <;> cases fileMeta <;> simp [trieSearch]

/-- The records through one child. -/
theorem filterMap_childNames {isEnd : Bool} {fileMeta : Option α} {children : Fin ALPHABET_SIZE → Option (TrieNode α)}
    {i : Fin ALPHABET_SIZE} {child : TrieNode α} (hi : i ≠ 0) (hchild : children i = some child) :
    (childNames (indexChar i) (children i)).filterMap (trieSearch (.node isEnd fileMeta children)) =
      (trieNames child).filterMap (trieSearch child) := by
  obtain ⟨c, hc⟩ := exists_charIndex hi
  rw [indexChar_eq_some.mpr hc, hchild, childNames, List.filterMap_map]
  refine List.filterMap_congr fun name _ => ?_
  show trieSearch (.node isEnd fileMeta children) (c :: name) = trieSearch child name
  rw [trieSearch_cons, hc, Option.bind_some, hchild, Option.bind_some]

/-- **The records collected are those of the names in the order of the walk, as many as fit.** -/
theorem trieCollectFiles_eq (maxFiles : Nat) {t : TrieNode α} (hnul : NulFree t) (files : List α) :
    trieCollectFiles maxFiles t files =
      files ++ ((trieNames t).filterMap (trieSearch t)).take (maxFiles - files.length) := by
  induction hnul generalizing files with
  | @node isEnd fileMeta children nul below ih =>
    have hstep : ∀ files i, trieCollectChild maxFiles (children i) files = files ++
        ((childNames (indexChar i) (children i)).filterMap (trieSearch (.node isEnd fileMeta children))).take
          (maxFiles - files.length) := by
      intro files i
      cases hchild : children i with
      | none =>
        have hnone : childNames (indexChar i) (none : Option (TrieNode α)) = [] := by
          cases indexChar i <;> rfl
        rw [hnone]
        simp [trieCollectChild]
      | some child =>
        have hi : i ≠ 0 := by
          rintro rfl
          rw [nul] at hchild
          cases hchild
        rw [trieCollectChild, ih i child hchild, ← hchild, filterMap_childNames hi hchild]
    rw [trieCollectFiles]
    split
    · rename_i hfull
      rw [Nat.sub_eq_zero_of_le hfull, List.take_zero, List.append_nil]
    · rename_i hroom
      have hone : (if isEnd then fileMeta.toList else []).length ≤ maxFiles - files.length := by
        have : (if isEnd then fileMeta.toList else []).length ≤ 1 := by
          cases isEnd <;> cases fileMeta <;> simp
        omega
      rw [foldl_take hstep, trieNames, List.filterMap_append, filterMap_here, List.filterMap_flatMap,
        List.append_assoc, List.take_append, List.take_of_length_le hone, List.length_append, Nat.sub_add_eq]

/-! ## The trie and the map -/

/-- The map holds what the searches find. -/
structure Represents (t : TrieNode α) (m : FileMap α) : Prop where
  nulFree : NulFree t
  value : ∀ name, trieSearch t name = m.value name

theorem Represents.create : Represents (createTrieNode : TrieNode α) .empty :=
  ⟨.create, trieSearch_createTrieNode⟩

theorem Represents.isSome {t : TrieNode α} {m : FileMap α} (h : Represents t m) (name : CStr) :
    (trieSearch t name).isSome ↔ name ∈ m.names := by
  rw [h.value, m.mem_names]

/-- The names in byte order are those of the walk. -/
theorem Represents.names {t : TrieNode α} {m : FileMap α} (h : Represents t m) :
    m.names.sort ByteOrder = trieNames t := by
  have hnames : m.names = (trieNames t).toFinset := by
    ext name
    rw [List.mem_toFinset, mem_trieNames, h.isSome]
  have hnodup : (trieNames t).Nodup := (sorted_trieNames t).imp fun {a b} hlt heq => by
    rw [heq] at hlt
    exact lt_irrefl _ hlt
  rw [hnames]
  exact (List.toFinset_sort ByteOrder hnodup).mpr ((sorted_trieNames t).imp fun hlt => le_of_lt hlt)

/-- Among names that are all there, a limit on the values is one on the names. -/
theorem filterMap_take {β : Type} {f : β → Option α} : ∀ (names : List β) (k : Nat), (∀ b ∈ names, (f b).isSome) →
    (names.take k).filterMap f = (names.filterMap f).take k
  | [], _, _ => by simp
  | _ :: _, 0, _ => by simp
  | b :: bs, k + 1, h => by
    obtain ⟨a, ha⟩ := Option.isSome_iff_exists.mp (h b List.mem_cons_self)
    rw [List.take_succ_cons, List.filterMap_cons_some ha, List.filterMap_cons_some ha, List.take_succ_cons,
      filterMap_take bs k fun b hb => h b (List.mem_cons_of_mem _ hb)]

theorem Represents.getAllFiles {t : TrieNode α} {m : FileMap α} (h : Represents t m) (maxFiles : Nat) :
    trieGetAllFiles t maxFiles = m.getAllFiles maxFiles := by
  have hvalue : m.value = trieSearch t := funext fun name => (h.value name).symm
  rw [trieGetAllFiles, trieCollectFiles_eq maxFiles h.nulFree, FileMap.getAllFiles, h.names, hvalue,
    filterMap_take (trieNames t) maxFiles fun _ hname => mem_trieNames.mp hname]
  rfl

theorem trieInsert_status (t : TrieNode α) (filename : CStr) (value : α) :
    (trieInsert t filename value).2 = if Indexed filename then 0 else -1 := by
  induction filename generalizing t with
  | nil =>
    obtain ⟨isEnd, fileMeta, children⟩ := t
    have hin : Indexed [] := fun c hc => absurd hc List.not_mem_nil
    rw [trieInsert, if_pos hin]
  | cons c cs ih =>
    obtain ⟨isEnd, fileMeta, children⟩ := t
    rw [trieInsert]
    cases hc : charIndex c with
    | none =>
      have hout : ¬ Indexed (c :: cs) := fun h => charIndex_eq_none.mp hc (h c List.mem_cons_self)
      rw [if_neg hout]
    | some index =>
      have hlt : c.val.toNat < ALPHABET_SIZE := by
        rw [val_of_charIndex hc]
        exact index.isLt
      have hindexed : Indexed (c :: cs) ↔ Indexed cs := by simp [Indexed, hlt]
      simp only [hindexed]
      exact ih _

theorem Represents.insert {t : TrieNode α} {m : FileMap α} (h : Represents t m) (filename : CStr) (value : α) :
    Represents (trieInsert t filename value).1 (m.insert filename value).1 ∧
      (trieInsert t filename value).2 = (m.insert filename value).2 := by
  refine ⟨⟨h.nulFree.insert filename value, fun name => ?_⟩, ?_⟩
  · rw [trieSearch_insert, FileMap.value_insert, h.value]
  · rw [trieInsert_status, FileMap.status_insert]

theorem Represents.update {t : TrieNode α} {m : FileMap α} (h : Represents t m) (filename : CStr) (value : α) :
    Represents (trieUpdate t filename value).1 (m.update filename value).1 ∧
      (trieUpdate t filename value).2 = (m.update filename value).2 := by
  refine ⟨⟨h.nulFree.update filename value, fun name => ?_⟩, ?_⟩
  · rw [trieSearch_update, FileMap.value_update, h.value name]
    exact if_congr (and_congr_right fun _ => h.isSome filename) rfl rfl
  · rw [FileMap.status_update]
    split
    · rename_i hname
      obtain ⟨old, hold⟩ := Option.isSome_iff_exists.mp ((h.isSome filename).mpr hname)
      exact trieUpdate_status hold value
    · rename_i hname
      have habsent : trieSearch t filename = none :=
        Option.not_isSome_iff_eq_none.mp (mt (h.isSome filename).mp hname)
      rw [trieUpdate_absent habsent]

theorem Represents.delete {t : TrieNode α} {m : FileMap α} (h : Represents t m) (filename : CStr) :
    Represents (trieDelete t filename) (m.delete filename) := by
  refine ⟨h.nulFree.delete filename, fun name => ?_⟩
  rw [trieSearch_delete, FileMap.value_delete, h.value]

/-- One operation. -/
theorem Represents.step (op : TrieOp α) (t : TrieNode α) (m : FileMap α) (h : Represents t m) :
    Represents (op.exec t).1 (op.onMap m).1 ∧ (op.exec t).2 = (op.onMap m).2 := by
  cases op with
  | insert filename fileMeta =>
    obtain ⟨hnext, hstatus⟩ := h.insert filename fileMeta
    exact ⟨hnext, congrArg TrieResult.status hstatus⟩
  | update filename fileMeta =>
    obtain ⟨hnext, hstatus⟩ := h.update filename fileMeta
    exact ⟨hnext, congrArg TrieResult.status hstatus⟩
  | delete filename => exact ⟨h.delete filename, rfl⟩
  | search filename => exact ⟨h, congrArg TrieResult.found (h.value filename)⟩
  | getAllFiles maxFiles => exact ⟨h, congrArg TrieResult.files (h.getAllFiles maxFiles.toNat)⟩

/-- **Every sequence of operations on a new trie answers as it does on an empty map.** -/
theorem trie_refines_map (ops : List (TrieOp α)) :
    results TrieOp.exec ops createTrieNode = results TrieOp.onMap ops .empty :=
  results_eq Represents.step ops .create

end NetworkFileShare
