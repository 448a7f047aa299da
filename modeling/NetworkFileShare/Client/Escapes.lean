import NetworkFileShare.Lib.Loop
import NetworkFileShare.Lib.Memory

/-!
# Escape sequences (`client.c`: `process_escape_sequences`)

* `processEscapeSequences` : the loop with its two pointers into one memory; `unescape` : the decoding, on strings;
* `escapeRound_nil`, `escapeRound_cons` : what one round does;
* `Decoded`, `EscapeInv` : what has been written is the decoding of what has been read; `EscapeInv.round` : a round
  keeps it;
* `unescape_in_place` : the loop ends with the decoding, and reads nothing that it has overwritten.
-/

namespace NetworkFileShare
open Loop

/-! ## The code -/

/-- The `switch` on the byte behind the backslash. -/
def escapeSwitch (src dst : Nat) (c : UInt8) : MemoryM Unit :=
  match c with
  | 110 => writeByte dst 10 -- n
  | 116 => writeByte dst 9 -- t
  | 114 => writeByte dst 13 -- r
  | 92 => writeByte dst 92 -- a backslash
  | 39 => writeByte dst 39 -- a single quote
  | 34 => writeByte dst 34 -- a double quote
  | 48 => writeByte dst 0 -- the digit 0
  | _ => do
    let c ← readByte (src + 1)
    writeByte dst c

/-- A round of the loop, with the pointers `src` and `dst`. -/
def escapeRound : Nat × Nat → MemoryM (Round (Nat × Nat) Nat)
  | (src, dst) => do
    let c ← readByte src
    if c = 0 then return .done dst
    let c ← readByte src
    -- the second operand of the conjunction is only read after a backslash
    let next ← if c = 92 then readByte (src + 1) else pure 0
    if next ≠ 0 then
      let c ← readByte (src + 1)
      escapeSwitch src dst c
      return .again (src + 2, dst + 1)
    else
      let c ← readByte src
      writeByte dst c
      return .again (src + 1, dst + 1)

/-- `process_escape_sequences`; `none` when the loop is still going round. -/
def processEscapeSequences (fuel str : Nat) : StateT MemoryTrace Option Unit := do
  let dst ← whileM escapeRound fuel (str, str)
  writeByte dst 0

/-! ## What it is for -/

/-- The byte that a backslash and `c` stand for. -/
def escaped (c : CChar) : UInt8 :=
  if c.val = 110 then 10 else if c.val = 116 then 9 else if c.val = 114 then 13 else if c.val = 48 then 0 else c.val

/-- The decoding of a string, from left to right. -/
def unescape : CStr → List UInt8
  | [] => []
  | [c] => [c.val]
  | c :: d :: s => if c.val = 92 then escaped d :: unescape s else c.val :: unescape (d :: s)

/-! ## One round -/

section Rounds
variable {t : MemoryTrace} {src : Nat} {c d : CChar} {s : CStr}

/-- The `switch` writes the byte that is meant; it may read the byte behind the backslash once more. -/
theorem escapeSwitch_eq (dst : Nat) (hd : t.mem (src + 1) = d.val) : ∃ reads, (∀ q ∈ reads, q = src + 1) ∧
    escapeSwitch src dst d.val t = ((), (t.afterReads reads).afterWrite dst (escaped d)) := by
  by_cases hcase : d.val = 110 ∨ d.val = 116 ∨ d.val = 114 ∨ d.val = 92 ∨ d.val = 39 ∨ d.val = 34 ∨ d.val = 48
  · refine ⟨[], fun q hq => absurd hq List.not_mem_nil, ?_⟩
    rw [afterReads_nil]
    rcases hcase with h | h | h | h | h | h | h <;> rw [escaped, h] <;> rfl
  · refine ⟨[src + 1], fun q hq => List.mem_singleton.mp hq, ?_⟩
    obtain ⟨hn, ht, hr, hbackslash, hsingle, hdouble, hzero⟩ := by simpa only [not_or] using hcase
    have hself : escaped d = t.mem (src + 1) := by
      rw [escaped, if_neg hn, if_neg ht, if_neg hr, if_neg hzero, hd]
    have hswitch : escapeSwitch src dst d.val = readByte (src + 1) >>= writeByte dst := by
      unfold escapeSwitch
      split <;> first | contradiction | rfl
    rw [hswitch, hself]
    rfl

/-- At the end of the string the loop is left. -/
theorem escapeRound_nil {dst : Nat} (h : StringAt t.mem src []) :
    escapeRound (src, dst) t = (.done dst, t.afterReads [src]) := by
  have hzero : t.mem src = 0 := stringAt_nil.mp h
  rw [escapeRound, readByte_bind, if_pos hzero, pure_memory]

/-- A byte behind a backslash is decoded. -/
theorem escapeRound_escape (dst : Nat) (hc : t.mem src = 92) (hd : t.mem (src + 1) = d.val) :
    ∃ reads, (∀ q ∈ reads, src ≤ q) ∧
      escapeRound (src, dst) t = (.again (src + 2, dst + 1), (t.afterReads reads).afterWrite dst (escaped d)) := by
  obtain ⟨reads, hreads, hswitch⟩ := escapeSwitch_eq (t := t.afterReads [src, src, src + 1, src + 1]) dst hd
  have hround : escapeRound (src, dst) t = (escapeSwitch src dst d.val >>= fun _ =>
      pure (.again (src + 2, dst + 1))) (t.afterReads [src, src, src + 1, src + 1]) := by
    simp [escapeRound, readByte_bind, afterReads_afterReads, hd, d.2, hc]
  refine ⟨[src, src, src + 1, src + 1] ++ reads, fun q hq => ?_, ?_⟩
  · rcases List.mem_append.mp hq with hq | hq
    · have hcases : q = src ∨ q = src + 1 := by simpa using hq
      omega
    · rw [hreads q hq]
      omega
  · rw [hround, ← afterReads_afterReads]
    simp only [bind, StateT.bind, hswitch]
    rfl

/-- Any other byte is copied, and so is a backslash at the end. -/
theorem escapeRound_copy (dst : Nat) (hc : t.mem src = c.val) (hcopy : c.val = 92 → t.mem (src + 1) = 0) :
    ∃ reads, (∀ q ∈ reads, src ≤ q) ∧
      escapeRound (src, dst) t = (.again (src + 1, dst + 1), (t.afterReads reads).afterWrite dst c.val) := by
  by_cases hbackslash : c.val = 92
  · refine ⟨[src, src, src + 1, src], fun q hq => ?_, ?_⟩
    · have hcases : q = src ∨ q = src + 1 ∨ q = src := by simpa using hq
      omega
    · have hnext := hcopy hbackslash
      simp [escapeRound, readByte_bind, writeByte_map, afterReads_afterReads, hc, hbackslash, hnext]
  · refine ⟨[src, src, src], fun q hq => ?_, ?_⟩
    · have hcases : q = src := by simpa using hq
      omega
    · simp [escapeRound, readByte_bind, writeByte_map, afterReads_afterReads, hc, hbackslash, c.2]

/-- Before the end, one byte is written for the one or two that are passed over. -/
theorem escapeRound_cons (dst : Nat) (h : StringAt t.mem src (c :: s)) : ∃ reads b read rest,
    c :: s = read ++ rest ∧ read ≠ [] ∧ (∀ q ∈ reads, src ≤ q) ∧ unescape (c :: s) = b :: unescape rest ∧
    escapeRound (src, dst) t = (.again (src + read.length, dst + 1), (t.afterReads reads).afterWrite dst b) := by
  obtain ⟨hc, hs⟩ := stringAt_cons.mp h
  cases s with
  | nil =>
    obtain ⟨reads, hreads, hround⟩ := escapeRound_copy dst hc fun _ => stringAt_nil.mp hs
    exact ⟨reads, c.val, [c], [], rfl, List.cons_ne_nil _ _, hreads, rfl, hround⟩
  | cons d s =>
    by_cases hbackslash : c.val = 92
    · obtain ⟨reads, hreads, hround⟩ := escapeRound_escape dst (hc.trans hbackslash) (stringAt_cons.mp hs).1
      exact ⟨reads, escaped d, [c, d], s, rfl, List.cons_ne_nil _ _, hreads, if_pos hbackslash, hround⟩
    · obtain ⟨reads, hreads, hround⟩ := escapeRound_copy dst hc fun he => absurd he hbackslash
      exact ⟨reads, c.val, [c], d :: s, rfl, List.cons_ne_nil _ _, hreads, if_neg hbackslash, hround⟩

end Rounds

/-! ## Between the rounds -/

/-- Of the string `s` at `p`, all but `rest` has been read, and `out` has been written. -/
structure Decoded (p : Nat) (s : CStr) (out : List UInt8) (rest : CStr) (x : (Nat × Nat) × MemoryTrace) : Prop where
  decoding : out ++ unescape rest = unescape s
  written : BytesAt x.2.mem p out
  unread : StringAt x.2.mem x.1.1 rest
  src_eq : x.1.1 + rest.length = p + s.length
  dst_eq : x.1.2 = p + out.length
  not_passed : x.1.2 ≤ x.1.1
  writes_behind : ∀ a, .write a ∈ x.2.log → a < x.1.2
  read_first : ReadFirst x.2.log

/-- What has been written is the decoding of what has been read. -/
def EscapeInv (p : Nat) (s : CStr) (x : (Nat × Nat) × MemoryTrace) : Prop := ∃ out rest, Decoded p s out rest x

section
variable {m : Memory} {p : Nat} {s rest : CStr} {out : List UInt8} {x y : (Nat × Nat) × MemoryTrace}

theorem EscapeInv.start (h : StringAt m p s) : EscapeInv p s ((p, p), ⟨m, []⟩) := by
  refine ⟨[], s, rfl, trivial, h, rfl, rfl, le_rfl, fun _ ha => ?_, ReadFirst.nil⟩
  exact absurd ha List.not_mem_nil

/-- What the loop still reads has not been overwritten. -/
theorem Decoded.reads_new (h : Decoded p s out rest x) {q : Nat} (hq : x.1.1 ≤ q) : .write q ∉ x.2.log := by
  intro hmem
  have hbehind := h.writes_behind q hmem
  have hle := h.not_passed
  omega

/-- **A round keeps the invariant**, and less is left to read. -/
theorem EscapeInv.round (h : EscapeInv p s x) (hround : inState escapeRound x = .again y) :
    EscapeInv p s y ∧ p + s.length - y.1.1 < p + s.length - x.1.1 := by
  obtain ⟨⟨src, dst⟩, t⟩ := x
  obtain ⟨out, rest, h⟩ := h
  cases rest with
  | nil =>
    rw [inState, escapeRound_nil h.unread] at hround
    cases hround
  | cons c rest =>
    obtain ⟨reads, b, read, rest', hrest, hread, hreads, hdecode, hstep⟩ := escapeRound_cons dst h.unread
    rw [inState, hstep] at hround
    cases hround
    have hpos : 0 < read.length := List.length_pos_iff.mpr hread
    have hlen : (c :: rest).length = read.length + rest'.length := by rw [hrest, List.length_append]
    have hsrc : src + (c :: rest).length = p + s.length := h.src_eq
    have hdst : dst = p + out.length := h.dst_eq
    have hle : dst ≤ src := h.not_passed
    have hunread : StringAt t.mem (src + read.length) rest' := (hrest ▸ h.unread).drop
    have hnext : Decoded p s (out ++ [b]) rest' ((src + read.length, dst + 1), (t.afterReads reads).afterWrite dst b) :=
      { decoding := by rw [List.append_assoc, List.singleton_append, ← hdecode, h.decoding]
        written := h.written.write_end hdst
        -- the byte written lies below what is still to be read
        unread := hunread.write_below (by omega)
        src_eq := by show src + read.length + rest'.length = p + s.length; omega
        dst_eq := by rw [List.length_append, List.length_singleton, ← Nat.add_assoc, ← hdst]
        not_passed := by show dst + 1 ≤ src + read.length; omega
        writes_behind := fun a ha => (mem_log_afterWrite.mp ha).elim
          (fun hmem => (h.writes_behind a hmem).trans (Nat.lt_succ_self dst)) fun he => he ▸ Nat.lt_succ_self dst
        read_first := h.read_first.afterWrite fun q hq => h.reads_new (hreads q hq) }
    refine ⟨⟨_, _, hnext⟩, ?_⟩
    show p + s.length - (src + read.length) < p + s.length - src
    omega

/-- When the loop is left, the whole decoding has been written. -/
theorem EscapeInv.done {r : Nat × MemoryTrace} (h : EscapeInv p s x) (hround : inState escapeRound x = .done r) :
    r = (x.1.2, x.2.afterReads [x.1.1]) ∧ Decoded p s (unescape s) [] x := by
  obtain ⟨⟨src, dst⟩, t⟩ := x
  obtain ⟨out, rest, h⟩ := h
  cases rest with
  | nil =>
    rw [inState, escapeRound_nil h.unread] at hround
    cases hround
    have hout : out = unescape s := by rw [← h.decoding, unescape, List.append_nil]
    exact ⟨rfl, hout ▸ h⟩
  | cons c rest =>
    obtain ⟨reads, b, read, rest', -, -, -, -, hstep⟩ := escapeRound_cons dst h.unread
    rw [inState, hstep] at hround
    cases hround

/-- **`process_escape_sequences` decodes in place**: the write position never passes the read position; the loop is
left, no byte is read after it was overwritten, and the decoding of the string stands at its place. -/
theorem unescape_in_place (h : StringAt m p s) :
    (∀ x, Reaches (inState escapeRound) ((p, p), ⟨m, []⟩) x → x.1.2 ≤ x.1.1) ∧
    ∃ t, (∀ fuel, s.length < fuel → processEscapeSequences fuel p ⟨m, []⟩ = some ((), t)) ∧
      ReadFirst t.log ∧ BytesAt t.mem p (unescape s ++ [0]) := by
  constructor
  · intro x hx
    obtain ⟨out, rest, hx⟩ := hx.invariant (EscapeInv.start h) fun _ _ hinv hround => (hinv.round hround).1
    exact hx.not_passed
  · obtain ⟨x, r, hinv, hround, hrun⟩ := exists_done (I := EscapeInv p s) (fun x => p + s.length - x.1.1)
      (fun _ _ hinv hround => hinv.round hround) (.start h)
    obtain ⟨rfl, hend⟩ := hinv.done hround
    refine ⟨(x.2.afterReads [x.1.1]).afterWrite x.1.2 0, fun fuel hfuel => ?_, ?_, hend.written.write_end hend.dst_eq⟩
    · have hloop := hrun fuel (by simpa using hfuel)
      rw [processEscapeSequences, whileM_bind hloop]
      rfl
    · exact hend.read_first.afterWrite fun q hq => hend.reads_new (List.mem_singleton.mp hq).ge

end

/-- The text `a\n\0b\`: an escape, an escaped zero before text, and a lone backslash at the end. -/
def escapedText : Memory := memoryOf ((lit "a\\n\\0b\\").map Subtype.val)

theorem unescape_in_place_text :
    (∀ x, Reaches (inState escapeRound) ((0, 0), ⟨escapedText, []⟩) x → x.1.2 ≤ x.1.1) ∧
    ∃ t, (∀ fuel, 7 < fuel → processEscapeSequences fuel 0 ⟨escapedText, []⟩ = some ((), t)) ∧
      ReadFirst t.log ∧ BytesAt t.mem 0 [97, 10, 0, 98, 92, 0] :=
  unescape_in_place (s := lit "a\\n\\0b\\") (by decide)

end NetworkFileShare
