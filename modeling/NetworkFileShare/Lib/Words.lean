import Mathlib.Data.List.TakeWhile
import Mathlib.Tactic.Common

/-!
# The words of a text

Some elements delimit words; a word is a part without them that is as long as possible.

* `words p` : the words between the elements that meet `p`, in their order;
* `words_gap`, `words_append` : delimiters in front, and a word in front; `words_cons_letter` : how the first word is
  cut off;
* `Spells p ws s` : the text `s` consists of the words `ws` and delimiters; `words_eq_iff` : every text spells its words
  and no others, however many delimiters stand between them.
-/

namespace NetworkFileShare

variable {α : Type*} {p : α → Bool} {s t w gap : List α} {ws : List (List α)}

/-- The words between the elements that meet `p`. -/
def words (p : α → Bool) (s : List α) : List (List α) := (s.splitOnP p).filter fun w => !w.isEmpty

@[simp] theorem words_nil : words p [] = [] := by
  rw [words, List.splitOnP_nil]
  rfl

theorem words_cons_delim {c : α} (hc : p c = true) (s : List α) : words p (c :: s) = words p s := by
  have hsplit : (c :: s).splitOnP p = [] :: s.splitOnP p :=
    List.splitOnP_append_cons_of_forall_mem (fun _ h => absurd h List.not_mem_nil) c hc s
  rw [words, hsplit]
  rfl

/-- Delimiters in front. -/
theorem words_gap (h : ∀ c ∈ gap, p c = true) (s : List α) : words p (gap ++ s) = words p s := by
  induction gap with
  | nil => rfl
  | cons c gap ih =>
    rw [List.cons_append, words_cons_delim (h c List.mem_cons_self)]
    exact ih fun d hd => h d (List.mem_cons_of_mem c hd)

/-- A word in front, up to the end of the text or to a delimiter. -/
theorem words_append (hne : w ≠ []) (hw : ∀ c ∈ w, p c = false) (hstop : ∀ c ∈ s.head?, p c = true) :
    words p (w ++ s) = w :: words p s := by
  have hkeep : ∀ l : List (List α), (w :: l).filter (fun w => !w.isEmpty) = w :: l.filter fun w => !w.isEmpty :=
    fun l => List.filter_cons_of_pos (by simpa using hne)
  cases s with
  | nil =>
    rw [List.append_nil, words, List.splitOnP_eq_singleton hw, hkeep]
    rfl
  | cons c s =>
    have hc : p c = true := hstop c rfl
    rw [words_cons_delim hc, words, List.splitOnP_append_cons_of_forall_mem hw c hc, hkeep]
    rfl

theorem words_dropWhile (p : α → Bool) (s : List α) : words p (s.dropWhile p) = words p s := by
  have hblanks : ∀ c ∈ s.takeWhile p, p c = true := fun _ hc => List.mem_takeWhile_imp hc
  have hgap := words_gap hblanks (s.dropWhile p)
  rwa [List.takeWhile_append_dropWhile, eq_comm] at hgap

/-- The first word goes up to the first delimiter. -/
theorem words_cons_letter {c : α} (hc : p c = false) (s : List α) :
    words p (c :: s) = (c :: s).takeWhile (!p ·) :: words p ((c :: s).dropWhile (!p ·)) := by
  have hne : (c :: s).takeWhile (!p ·) ≠ [] := by
    rw [List.takeWhile_cons_of_pos (by simp [hc])]
    exact List.cons_ne_nil _ _
  have hword : ∀ d ∈ (c :: s).takeWhile (!p ·), p d = false := fun d hd => by
    simpa using List.mem_takeWhile_imp hd
  have hstop : ∀ d ∈ ((c :: s).dropWhile (!p ·)).head?, p d = true := fun d hd => by
    have hhead := List.head?_dropWhile_not (!p ·) (c :: s)
    rw [Option.mem_def.mp hd] at hhead
    simpa using hhead
  have hfirst := words_append hne hword hstop
  rwa [List.takeWhile_append_dropWhile] at hfirst

/-- The text consists of these words and of delimiters. -/
inductive Spells (p : α → Bool) : List (List α) → List α → Prop where
  | blank {s : List α} (blanks : ∀ c ∈ s, p c = true) : Spells p [] s
  | word {gap w s : List α} {ws : List (List α)} (blanks : ∀ c ∈ gap, p c = true) (ne : w ≠ [])
      (letters : ∀ c ∈ w, p c = false) (stop : ∀ c ∈ s.head?, p c = true) (rest : Spells p ws s) :
      Spells p (w :: ws) (gap ++ w ++ s)

theorem Spells.words_eq (h : Spells p ws s) : words p s = ws := by
  induction h with
  | blank blanks =>
    have hgap := words_gap blanks []
    rwa [List.append_nil, words_nil] at hgap
  | word blanks ne letters stop rest ih => rw [List.append_assoc, words_gap blanks, words_append ne letters stop, ih]

/-- Every text spells its words. -/
theorem spells_words (p : α → Bool) (s : List α) : Spells p (words p s) s := by
  have hcut : s.takeWhile p ++ s.dropWhile p = s := List.takeWhile_append_dropWhile
  have hgap : ∀ c ∈ s.takeWhile p, p c = true := fun c hc => List.mem_takeWhile_imp hc
  have hhead := List.head?_dropWhile_not p s
  cases hrest : s.dropWhile p with
  | nil =>
    rw [hrest, List.append_nil] at hcut
    have hblank : Spells p [] s := .blank fun c hc => hgap c (by rwa [hcut])
    rwa [hblank.words_eq]
  | cons c t =>
    rw [hrest] at hhead hcut
    have hc : p c = false := by simpa using hhead
    -- the word that begins with `c`, and what is behind it
    have hword : (c :: t).takeWhile (!p ·) ++ (c :: t).dropWhile (!p ·) = c :: t := List.takeWhile_append_dropWhile
    have hshort : ((c :: t).dropWhile (!p ·)).length < s.length := by
      have hlength := congrArg List.length hcut
      have hdropped := List.length_dropWhile_le (!p ·) t
      rw [List.dropWhile_cons_of_pos (by simp [hc])]
      simp only [List.length_append, List.length_cons] at hlength
      omega
    have hspells : Spells p ((c :: t).takeWhile (!p ·) :: words p ((c :: t).dropWhile (!p ·))) s := by
      rw [← hword, ← List.append_assoc] at hcut
      rw [← hcut]
      refine .word hgap ?_ (fun d hd => by simpa using List.mem_takeWhile_imp hd) (fun d hd => ?_) (spells_words p _)
      · rw [List.takeWhile_cons_of_pos (by simp [hc])]
        exact List.cons_ne_nil _ _
      · have hstop := List.head?_dropWhile_not (!p ·) (c :: t)
        rw [Option.mem_def.mp hd] at hstop
        simpa using hstop
    rwa [hspells.words_eq]
termination_by s.length

/-- **The words of a text** are those that it spells. -/
theorem words_eq_iff : words p s = ws ↔ Spells p ws s :=
  ⟨fun h => h ▸ spells_words p s, Spells.words_eq⟩

namespace Spells

theorem word_of_mem (h : Spells p ws s) (hw : w ∈ ws) : w ≠ [] ∧ ∀ c ∈ w, p c = false := by
  induction h with
  | blank _ => cases hw
  | word blanks ne letters stop rest ih =>
    rcases List.mem_cons.mp hw with rfl | hw
    · exact ⟨ne, letters⟩
    · exact ih hw

/-- The words come one after another in the text. -/
theorem flatten_sublist (h : Spells p ws s) : ws.flatten.Sublist s := by
  induction h with
  | blank _ => exact List.nil_sublist _
  | word blanks ne letters stop rest ih =>
    rw [List.flatten_cons, List.append_assoc]
    exact ((List.Sublist.refl _).append ih).trans (List.sublist_append_right _ _)

end Spells

end NetworkFileShare
