import NetworkFileShare.Lib.CString
import Mathlib.Logic.Function.Basic

/-!
# Bytes in a memory

* `BytesAt m p bs` : the bytes `bs` stand from `p` on; `BytesAt.append_iff`, `BytesAt.snoc`;
* `StringAt m p s` : a string with its terminator; `StringAt.unique`, `StringAt.drop`, `StringAt.cut`;
* `BytesAt.congr` : what stands there is kept where the memory is;
* `BytesAt.write_below`, `BytesAt.write_end` : a write elsewhere keeps them, a write at their end adds a byte;
* `readByte`, `writeByte` : programs that note every access, with `afterReads` and `afterWrite` as what they leave;
* `ReadFirst` : no byte is read after it was overwritten; `ReadFirst.afterWrite`.
-/

namespace NetworkFileShare

/-- The byte at each address. -/
abbrev Memory := Nat → UInt8

/-! ## What stands in a memory -/

/-- The bytes stand from `p` on. -/
def BytesAt (m : Memory) : Nat → List UInt8 → Prop
  | _, [] => True
  | p, b :: bs => m p = b ∧ BytesAt m (p + 1) bs

/-- The string stands from `p` on, with its terminator. -/
def StringAt (m : Memory) (p : Nat) (s : CStr) : Prop := BytesAt m p (s.map Subtype.val ++ [0])

/-- The bytes from address 0 on, and zeros behind them. -/
def memoryOf (bs : List UInt8) : Memory := fun p => bs.getD p 0

section
variable {m m' : Memory} {p q : Nat} {b : UInt8} {as bs : List UInt8} {s s' : CStr} {c : CChar}

instance decidableBytesAt (m : Memory) : (p : Nat) → (bs : List UInt8) → Decidable (BytesAt m p bs)
  | _, [] => .isTrue trivial
  | p, b :: bs => @instDecidableAnd (m p = b) (BytesAt m (p + 1) bs) _ (decidableBytesAt m (p + 1) bs)

instance : Decidable (StringAt m p s) := inferInstanceAs (Decidable (BytesAt m p (s.map Subtype.val ++ [0])))

theorem BytesAt.append_iff : ∀ {p : Nat} {as : List UInt8},
    BytesAt m p (as ++ bs) ↔ BytesAt m p as ∧ BytesAt m (p + as.length) bs
  | _, [] => (and_iff_right trivial).symm
  | p, a :: as => by
    have hnext : p + (a :: as).length = p + 1 + as.length := by rw [List.length_cons]; omega
    rw [hnext, List.cons_append, BytesAt, BytesAt, append_iff, and_assoc]

/-- One byte more behind them. -/
theorem BytesAt.snoc (h : BytesAt m p bs) (hb : m (p + bs.length) = b) : BytesAt m p (bs ++ [b]) :=
  BytesAt.append_iff.mpr ⟨h, hb, trivial⟩

/-- They still stand in a memory that is the same there. -/
theorem BytesAt.congr : ∀ {p : Nat} {bs : List UInt8}, BytesAt m p bs →
    (∀ q, p ≤ q → q < p + bs.length → m' q = m q) → BytesAt m' p bs
  | _, [], _, _ => trivial
  | p, b :: bs, h, hsame => by
    rw [List.length_cons] at hsame
    exact ⟨(hsame p le_rfl (by omega)).trans h.1, h.2.congr fun q hp hq => hsame q (by omega) (by omega)⟩

/-- A write below them. -/
theorem BytesAt.write_below (h : BytesAt m p bs) (hq : q < p) : BytesAt (Function.update m q b) p bs :=
  h.congr fun _ hp _ => Function.update_of_ne (by omega) _ _

/-- A write behind them adds a byte. -/
theorem BytesAt.write_end (h : BytesAt m p bs) (hq : q = p + bs.length) :
    BytesAt (Function.update m q b) p (bs ++ [b]) := by
  subst hq
  exact (h.congr fun _ _ hlt => Function.update_of_ne hlt.ne _ _).snoc (Function.update_self ..)

theorem stringAt_nil : StringAt m p [] ↔ m p = 0 := and_iff_left trivial

theorem stringAt_cons : StringAt m p (c :: s) ↔ m p = c.val ∧ StringAt m (p + 1) s := Iff.rfl

/-- There is one string at a place. -/
theorem StringAt.unique : ∀ {p : Nat} {s s' : CStr}, StringAt m p s → StringAt m p s' → s = s'
  | _, [], [], _, _ => rfl
  | _, [], c :: _, h, h' => absurd ((stringAt_cons.mp h').1.symm.trans (stringAt_nil.mp h)) c.2
  | _, c :: _, [], h, h' => absurd ((stringAt_cons.mp h).1.symm.trans (stringAt_nil.mp h')) c.2
  | _, c :: s, d :: s', h, h' => by
    obtain ⟨hc, h⟩ := stringAt_cons.mp h
    obtain ⟨hd, h'⟩ := stringAt_cons.mp h'
    rw [h.unique h', Subtype.ext (hc.symm.trans hd)]

/-- The string from a later byte on. -/
theorem StringAt.drop (h : StringAt m p (s ++ s')) : StringAt m (p + s.length) s' := by
  unfold StringAt at h
  rw [List.map_append, List.append_assoc, BytesAt.append_iff, List.length_map] at h
  exact h.2

/-- A zero ends the string earlier. -/
theorem StringAt.cut (h : StringAt m p (s ++ s')) : StringAt (Function.update m (p + s.length) 0) p s := by
  unfold StringAt at h
  rw [List.map_append, List.append_assoc, BytesAt.append_iff] at h
  exact h.1.write_end (by rw [List.length_map])

end

/-! ## Accesses -/

/-- An access to the byte at `p`. -/
inductive ByteAccess where
  | read (p : Nat)
  | write (p : Nat)
  deriving DecidableEq

/-- A memory, and the accesses to it so far. -/
structure MemoryTrace where
  mem : Memory
  log : List ByteAccess

/-- A program on a memory that notes its accesses. -/
abbrev MemoryM := StateM MemoryTrace

def readByte (p : Nat) : MemoryM UInt8 := fun t => (t.mem p, { t with log := t.log ++ [.read p] })

def writeByte (p : Nat) (b : UInt8) : MemoryM Unit := fun t =>
  ((), ⟨Function.update t.mem p b, t.log ++ [.write p]⟩)

/-- The reads are noted. -/
def MemoryTrace.afterReads (t : MemoryTrace) (ps : List Nat) : MemoryTrace := { t with log := t.log ++ ps.map .read }

/-- The byte at `p` is overwritten, and that is noted. -/
def MemoryTrace.afterWrite (t : MemoryTrace) (p : Nat) (b : UInt8) : MemoryTrace :=
  ⟨Function.update t.mem p b, t.log ++ [.write p]⟩

@[simp] theorem afterReads_mem (t : MemoryTrace) (ps : List Nat) : (t.afterReads ps).mem = t.mem := rfl

section
variable {α : Type}

theorem readByte_bind (p : Nat) (k : UInt8 → MemoryM α) (t : MemoryTrace) :
    (readByte p >>= k) t = k (t.mem p) (t.afterReads [p]) := rfl

theorem writeByte_map (p : Nat) (b : UInt8) (f : Unit → α) (t : MemoryTrace) :
    (f <$> writeByte p b) t = (f (), t.afterWrite p b) := rfl

theorem pure_memory (a : α) (t : MemoryTrace) : (pure a : MemoryM α) t = (a, t) := rfl

end

theorem afterReads_nil (t : MemoryTrace) : t.afterReads [] = t := by
  unfold MemoryTrace.afterReads
  rw [List.map_nil, List.append_nil]

theorem afterReads_afterReads (t : MemoryTrace) (ps qs : List Nat) :
    (t.afterReads ps).afterReads qs = t.afterReads (ps ++ qs) := by
  unfold MemoryTrace.afterReads
  rw [List.map_append, List.append_assoc]

theorem mem_log_afterWrite {t : MemoryTrace} {ps : List Nat} {p q : Nat} {b : UInt8} :
    .write q ∈ ((t.afterReads ps).afterWrite p b).log ↔ .write q ∈ t.log ∨ q = p := by
  simp [MemoryTrace.afterReads, MemoryTrace.afterWrite]

/-- No byte is read after it was overwritten. -/
def ReadFirst (log : List ByteAccess) : Prop := log.Pairwise fun a b => ∀ p, a = .write p → b ≠ .read p

theorem ReadFirst.nil : ReadFirst [] := List.Pairwise.nil

/-- Reads of bytes that have not been overwritten, and then a write. -/
theorem ReadFirst.afterWrite {t : MemoryTrace} {ps : List Nat} {p : Nat} {b : UInt8} (h : ReadFirst t.log)
    (hps : ∀ q ∈ ps, .write q ∉ t.log) : ReadFirst ((t.afterReads ps).afterWrite p b).log := by
  unfold MemoryTrace.afterReads MemoryTrace.afterWrite
  rw [ReadFirst, List.append_assoc, List.pairwise_append, List.pairwise_append]
  refine ⟨h, ⟨List.pairwise_map.mpr ?_, List.pairwise_singleton _ _, ?_⟩, ?_⟩
  · refine List.pairwise_of_forall fun _ _ q he => ?_
    cases he
  · intro a _ b hb q _ he
    rw [List.mem_singleton.mp hb] at he
    cases he
  · rintro a ha b hb q rfl rfl
    rcases List.mem_append.mp hb with hb | hb
    · obtain ⟨q', hq', he⟩ := List.mem_map.mp hb
      cases he
      exact hps q hq' ha
    · cases List.mem_singleton.mp hb

end NetworkFileShare
