import Mathlib.Data.List.Nodup
import Mathlib.Logic.Function.Basic
import Mathlib.Tactic.Common

/-!
# Linked queues

* `LinkedQueue` : nodes in memory, each with a link to the next one, and pointers to the two ends;
* `LinkedQueue.enqueue`, `LinkedQueue.dequeue` : a node put behind the tail, the node at the head unlinked and freed;
* `Represents` : the nodes from the head on are those of a list, and the tail is the last of them;
* `Represents.enqueue`, `Represents.dequeue`, `Represents.head_eq_none` : the queue is the list, first in, first out.
-/

namespace NetworkFileShare

variable {α : Type*}

/-- A node: what it holds, and the address of the next one. -/
structure QueueNode (α : Type*) where
  value : α
  next : Option Nat

/-- The nodes that are allocated, by address, and the ends of the queue. -/
structure LinkedQueue (α : Type*) where
  nodes : Nat → Option (QueueNode α)
  head : Option Nat
  tail : Option Nat

namespace LinkedQueue

def empty : LinkedQueue α := ⟨fun _ => none, none, none⟩

/-- A node at `p` behind the tail, or the first one. -/
def enqueue (q : LinkedQueue α) (p : Nat) (value : α) : LinkedQueue α :=
  let nodes := Function.update q.nodes p (some ⟨value, none⟩)
  match q.tail with
  | none => ⟨nodes, some p, some p⟩
  | some t => ⟨Function.update nodes t ((nodes t).map fun n => { n with next := some p }), q.head, some p⟩

/-- The node at the head is unlinked and freed; `none` when there is none, or when the head dangles. -/
def dequeue (q : LinkedQueue α) : Option (α × LinkedQueue α) :=
  match q.head with
  | none => none
  | some p =>
    match q.nodes p with
    | none => none
    | some n => some (n.value, ⟨Function.update q.nodes p none, n.next, if n.next = none then none else q.tail⟩)

/-- The nodes that the links lead through, with their addresses. -/
def Linked (nodes : Nat → Option (QueueNode α)) : Option Nat → List (Nat × α) → Prop
  | p, [] => p = none
  | p, (a, value) :: l => p = some a ∧ ∃ next, nodes a = some ⟨value, next⟩ ∧ Linked nodes next l

/-- The queue is the list. -/
structure Represents (q : LinkedQueue α) (l : List (Nat × α)) : Prop where
  linked : Linked q.nodes q.head l
  nodup : (l.map Prod.fst).Nodup
  tail : q.tail = (l.map Prod.fst).getLast?

variable {nodes : Nat → Option (QueueNode α)} {q : LinkedQueue α} {l : List (Nat × α)} {p : Nat} {value : α}

/-- Nodes off the way do not matter. -/
theorem Linked.update {h : Option Nat} (hl : Linked nodes h l) (hp : p ∉ l.map Prod.fst) (n : Option (QueueNode α)) :
    Linked (Function.update nodes p n) h l := by
  induction l generalizing h with
  | nil => exact hl
  | cons x l ih =>
    obtain ⟨rfl, next, hnode, hrest⟩ := hl
    rw [List.map_cons, List.mem_cons, not_or] at hp
    refine ⟨rfl, next, ?_, ih hrest hp.2⟩
    rw [Function.update_of_ne (Ne.symm hp.1)]
    exact hnode

/-- Every node on the way is allocated. -/
theorem Linked.allocated {h : Option Nat} (hl : Linked nodes h l) : ∀ a ∈ l.map Prod.fst, nodes a ≠ none := by
  induction l generalizing h with
  | nil => intro a ha; cases ha
  | cons x l ih =>
    obtain ⟨rfl, next, hnode, hrest⟩ := hl
    intro a ha
    rcases List.mem_cons.mp ha with rfl | ha
    · rw [hnode]
      exact Option.some_ne_none _
    · exact ih hrest a ha

/-- The last node gets a link to a new one. -/
theorem Linked.snoc {h : Option Nat} {t : Nat} {last : α} (hl : Linked nodes h (l ++ [(t, last)]))
    (hnodup : ((l ++ [(t, last)]).map Prod.fst).Nodup) (hp : nodes p = some ⟨value, none⟩)
    (hfresh : p ∉ (l ++ [(t, last)]).map Prod.fst) :
    Linked (Function.update nodes t ((nodes t).map fun n => { n with next := some p })) h
      (l ++ [(t, last)] ++ [(p, value)]) := by
  induction l generalizing h with
  | nil =>
    obtain ⟨rfl, next, hnode, -⟩ := hl
    have hne : p ≠ t := fun he => hfresh (by simp [he])
    refine ⟨rfl, some p, ?_, rfl, none, ?_, rfl⟩
    · rw [Function.update_self, hnode]
      rfl
    · rw [Function.update_of_ne hne]
      exact hp
  | cons x l ih =>
    obtain ⟨rfl, next, hnode, hrest⟩ := hl
    rw [List.cons_append, List.map_cons, List.nodup_cons] at hnodup
    have hne : x.1 ≠ t := fun he => hnodup.1 (by simp [he])
    refine ⟨rfl, next, ?_, ih hrest hnodup.2 fun hmem => hfresh (List.mem_cons_of_mem _ hmem)⟩
    rw [Function.update_of_ne hne]
    exact hnode

theorem represents_empty : Represents (empty : LinkedQueue α) [] := ⟨rfl, .nil, rfl⟩

/-- **A node that is allocated and put behind the tail** is the last of the list. -/
theorem Represents.enqueue (h : Represents q l) (hfresh : q.nodes p = none) (value : α) :
    Represents (q.enqueue p value) (l ++ [(p, value)]) := by
  have hnot : p ∉ l.map Prod.fst := fun hmem => h.linked.allocated p hmem hfresh
  have hnodup : ((l ++ [(p, value)]).map Prod.fst).Nodup := by
    rw [List.map_append, List.nodup_append_comm]
    exact List.nodup_cons.mpr ⟨hnot, h.nodup⟩
  have hnew : Linked (Function.update q.nodes p (some ⟨value, none⟩)) q.head l := h.linked.update hnot _
  have htail := h.tail
  unfold LinkedQueue.enqueue
  rcases List.eq_nil_or_concat l with rfl | ⟨l, ⟨t, last⟩, rfl⟩
  · rw [show q.tail = none from htail]
    refine ⟨⟨rfl, none, ?_, rfl⟩, hnodup, rfl⟩
    exact Function.update_self ..
  · rw [List.concat_eq_append] at *
    rw [show q.tail = some t by rw [htail, List.map_append]; exact List.getLast?_concat]
    refine ⟨hnew.snoc h.nodup (Function.update_self ..) hnot, hnodup, ?_⟩
    rw [List.map_append]
    exact List.getLast?_concat.symm

/-- **The node that is taken** is the first of the list. -/
theorem Represents.dequeue (h : Represents q ((p, value) :: l)) :
    ∃ q', q.dequeue = some (value, q') ∧ Represents q' l := by
  obtain ⟨hhead, next, hnode, hrest⟩ := h.linked
  have hnodup := List.nodup_cons.mp h.nodup
  unfold LinkedQueue.dequeue
  rw [hhead]
  simp only [hnode]
  refine ⟨_, rfl, hrest.update hnodup.1 none, hnodup.2, ?_⟩
  · rcases l with _ | ⟨x, l⟩
    · obtain rfl : next = none := hrest
      rfl
    · have hsome : next ≠ none := by
        rw [hrest.1]
        exact Option.some_ne_none _
      rw [if_neg hsome, h.tail]
      rfl

theorem Represents.head_eq_none (h : Represents q l) : q.head = none ↔ l = [] := by
  rcases l with _ | ⟨x, l⟩
  · exact iff_of_true h.linked rfl
  · refine iff_of_false ?_ (List.cons_ne_nil x l)
    rw [h.linked.1]
    exact Option.some_ne_none _

/-- The queue says what the list is. -/
theorem Represents.dequeue_cases (h : Represents q l) {q' : LinkedQueue α} (hq : q.dequeue = some (value, q')) :
    ∃ p rest, l = (p, value) :: rest ∧ Represents q' rest := by
  rcases l with _ | ⟨⟨p, value'⟩, l⟩
  · have hnone : q.head = none := h.linked
    rw [LinkedQueue.dequeue, hnone] at hq
    cases hq
  · obtain ⟨q'', hdequeue, hrest⟩ := h.dequeue
    rw [hdequeue] at hq
    obtain ⟨rfl, rfl⟩ := Prod.mk.inj (Option.some.inj hq)
    exact ⟨p, l, rfl, hrest⟩

end LinkedQueue

end NetworkFileShare
