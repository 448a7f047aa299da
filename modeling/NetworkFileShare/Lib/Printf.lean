import NetworkFileShare.Lib.CString

/-!
# Texts that are written into a buffer

* `PrintCall` : a call that writes a text at a position, with the size it is given, if it is given one; `bytes` : how
  many bytes it writes; `Within` : they stay in the buffer;
* `sprintfCalls`, `snprintfCalls` : calls that go on at the position behind the text before, whether or not that was
  cut; `sprintf_within_iff`, `snprintf_within_iff` : when all of them stay in the buffer;
* `snprintfUntil` : calls that end when a position has been reached; `snprintfUntil_fits` : those that start in the
  buffer stay there;
* `printed` : the text of some calls, if nothing is cut;
* `StringCopy` : a `strcpy` and the size of its destination.
-/

namespace NetworkFileShare

/-- A call that writes `text` at `pos` in a buffer: `snprintf` with its size argument, `sprintf` and `strcpy` without
one. -/
structure PrintCall where
  pos : Nat
  limit : Option Int
  text : CStr
  deriving DecidableEq

namespace PrintCall

/-- The bytes that are written, the terminator among them. A negative size is converted to a `size_t` that no text
reaches. -/
def bytes (c : PrintCall) : Nat :=
  match c.limit with
  | none => c.text.length + 1
  | some n => if n < 0 then c.text.length + 1 else min (c.text.length + 1) n.toNat

/-- The bytes stay in a buffer of this size. -/
def Within (c : PrintCall) (size : Nat) : Prop := c.pos + c.bytes ≤ size

instance (c : PrintCall) (size : Nat) : Decidable (c.Within size) := inferInstanceAs (Decidable (_ ≤ _))

/-- The size argument is not negative. -/
def SizeOk (c : PrintCall) : Prop := ∀ n, c.limit = some n → 0 ≤ n

/-- `snprintf` with what is left of the buffer. -/
theorem within_snprintf_iff {size pos : Nat} {text : CStr} :
    (PrintCall.mk pos (some (size - pos)) text).Within size ↔ pos ≤ size := by
  unfold Within bytes
  dsimp only
  split
  · omega
  · omega

end PrintCall

/-- `pos += sprintf(buffer + pos, ...)` for each text. -/
def sprintfCalls : Nat → List CStr → List PrintCall
  | _, [] => []
  | pos, text :: texts => ⟨pos, none, text⟩ :: sprintfCalls (pos + text.length) texts

/-- `pos += snprintf(buffer + pos, size - pos, ...)` for each text. -/
def snprintfCalls (size : Nat) : Nat → List CStr → List PrintCall
  | _, [] => []
  | pos, text :: texts => ⟨pos, some (size - pos), text⟩ :: snprintfCalls size (pos + text.length) texts

/-- The same in a loop that breaks when the position has reached `stop`. -/
def snprintfUntil (stop size : Nat) : Nat → List CStr → List PrintCall
  | _, [] => []
  | pos, text :: texts => ⟨pos, some (size - pos), text⟩ ::
      if pos + text.length ≥ stop then [] else snprintfUntil stop size (pos + text.length) texts

/-- The text of the calls, one after the other. -/
def printed (calls : List PrintCall) : CStr := (calls.map (·.text)).flatten

/-- The calls stay in the buffer, and no size argument is negative. -/
def FitBuffer (size : Nat) (calls : List PrintCall) : Prop := ∀ c ∈ calls, c.Within size ∧ c.SizeOk

theorem FitBuffer.append {size : Nat} {calls calls' : List PrintCall} (h : FitBuffer size calls)
    (h' : FitBuffer size calls') : FitBuffer size (calls ++ calls') := List.forall_mem_append.mpr ⟨h, h'⟩

@[simp] theorem printed_append (calls calls' : List PrintCall) :
    printed (calls ++ calls') = printed calls ++ printed calls' := by
  rw [printed, List.map_append, List.flatten_append]
  rfl

@[simp] theorem printed_sprintfCalls (pos : Nat) (texts : List CStr) :
    printed (sprintfCalls pos texts) = texts.flatten := by
  induction texts generalizing pos with
  | nil => rfl
  | cons text texts ih => exact congrArg (text ++ ·) (ih _)

@[simp] theorem printed_snprintfCalls (size pos : Nat) (texts : List CStr) :
    printed (snprintfCalls size pos texts) = texts.flatten := by
  induction texts generalizing pos with
  | nil => rfl
  | cons text texts ih => exact congrArg (text ++ ·) (ih _)

/-- Texts of bounded length. -/
theorem length_flatten_le {texts : List CStr} {n : Nat} (h : ∀ text ∈ texts, text.length ≤ n) :
    texts.flatten.length ≤ texts.length * n := by
  induction texts with
  | nil => exact Nat.zero_le _
  | cons text texts ih =>
    obtain ⟨htext, htexts⟩ := List.forall_mem_cons.mp h
    rw [List.flatten_cons, List.length_append, List.length_cons, Nat.succ_mul, Nat.add_comm]
    exact Nat.add_le_add (ih htexts) htext

/-- **Calls of `sprintf`** stay in the buffer exactly when all the text does, with a terminator. -/
theorem sprintf_within_iff (size pos : Nat) (texts : List CStr) :
    (∀ c ∈ sprintfCalls pos texts, c.Within size) ↔ texts = [] ∨ pos + texts.flatten.length < size := by
  induction texts generalizing pos with
  | nil => exact iff_of_true (fun c hc => absurd hc List.not_mem_nil) (Or.inl rfl)
  | cons text texts ih =>
    have hfirst : (PrintCall.mk pos none text).Within size ↔ pos + text.length < size := by
      unfold PrintCall.Within PrintCall.bytes
      dsimp only
      omega
    rw [sprintfCalls, List.forall_mem_cons, ih, hfirst, List.flatten_cons, List.length_append]
    constructor
    · rintro ⟨h, rfl | hrest⟩
      · exact Or.inr (by simpa using h)
      · exact Or.inr (by omega)
    · rintro (h | h)
      · cases h
      · exact ⟨by omega, Or.inr (by omega)⟩

/-- **Calls of `snprintf`** stay in the buffer exactly when the position does at each of them: the text without its
last piece fits, and nothing need be left for a terminator. -/
theorem snprintf_within_iff (size pos : Nat) (texts : List CStr) :
    (∀ c ∈ snprintfCalls size pos texts, c.Within size) ↔
      texts = [] ∨ pos + texts.dropLast.flatten.length ≤ size := by
  induction texts generalizing pos with
  | nil => exact iff_of_true (fun c hc => absurd hc List.not_mem_nil) (Or.inl rfl)
  | cons text texts ih =>
    rw [snprintfCalls, List.forall_mem_cons, ih, PrintCall.within_snprintf_iff]
    cases texts with
    | nil => simp
    | cons text' texts =>
      rw [List.dropLast_cons_cons, List.flatten_cons, List.length_append]
      constructor
      · rintro ⟨-, h | h⟩
        · cases h
        · exact Or.inr (by omega)
      · rintro (h | h)
        · cases h
        · exact ⟨by omega, Or.inr (by omega)⟩

/-- **A loop that looks at the position after each call** stays in the buffer if it starts there. -/
theorem snprintfUntil_fits {stop size pos : Nat} (hstop : stop ≤ size) (hpos : pos ≤ size) (texts : List CStr) :
    FitBuffer size (snprintfUntil stop size pos texts) := by
  induction texts generalizing pos with
  | nil => exact fun c hc => absurd hc List.not_mem_nil
  | cons text texts ih =>
    refine List.forall_mem_cons.mpr ⟨⟨PrintCall.within_snprintf_iff.mpr hpos, fun n hn => ?_⟩, ?_⟩
    · cases hn
      omega
    · split
      · exact fun c hc => absurd hc List.not_mem_nil
      · exact ih (by omega)

/-- What such a loop prints is no longer than all the texts. -/
theorem length_printed_snprintfUntil_le (stop size pos : Nat) (texts : List CStr) :
    (printed (snprintfUntil stop size pos texts)).length ≤ texts.flatten.length := by
  induction texts generalizing pos with
  | nil => exact le_refl _
  | cons text texts ih =>
    have hrest := ih (pos + text.length)
    rw [snprintfUntil]
    show (text ++ printed _).length ≤ (text ++ texts.flatten).length
    rw [List.length_append, List.length_append]
    split
    · exact Nat.add_le_add_left (Nat.zero_le _) _
    · exact Nat.add_le_add_left hrest _

/-! ## Copies -/

/-- A `strcpy`: the text and the size of the array it is copied into. -/
structure StringCopy where
  source : CStr
  size : Nat
  deriving DecidableEq

/-- The text and its terminator fit. -/
def StringCopy.Fits (c : StringCopy) : Prop := (PrintCall.mk 0 none c.source).Within c.size

theorem StringCopy.fits_iff {c : StringCopy} : c.Fits ↔ c.source.length < c.size := by
  unfold StringCopy.Fits PrintCall.Within PrintCall.bytes
  dsimp only
  omega

end NetworkFileShare
