import NetworkFileShare.Client.Commands
import NetworkFileShare.Lib.Words
import NetworkFileShare.NameServer.Handlers
import NetworkFileShare.StorageServer.Requests

/-!
# The client's commands as a table

* `splitLine_safe`, `joinTail_safe` : the words of a line, and the arguments of `VIEW`, all stores within their arrays;
* `Place`, `Verb`, `verbs` : where the arguments of a command go, what follows, and which handler the name server has
  for it; `errandOf`, `WordsFit` : what words ask for, and that they have room;
* `Chain` : a chain of comparisons, one for each row of a table; `Chain.found` : it finds the row;
* `chain_runCommand`, `typed_command` : what the loop makes of a line, by the words that the line spells.
-/

namespace NetworkFileShare

namespace Traced
variable {ι α β : Type}

@[simp] theorem inBounds_pure (a : α) : InBounds (pure a : Traced ι α).log := fun _ h => absurd h List.not_mem_nil

@[simp] theorem inBounds_bind {x : Traced ι α} {f : α → Traced ι β} :
    InBounds (x >>= f).log ↔ InBounds x.log ∧ InBounds (f x.val).log :=
  List.forall_mem_append

end Traced

theorem afterTrim_starts (s : CStr) : afterTrim s <+: s := by
  unfold afterTrim
  split
  · exact List.prefix_refl s
  · have hprefix := (List.prefix_append_right_inj (s.takeWhile isBlankChar)).mpr
      (List.rdropWhile_prefix isBlankChar (s.dropWhile isBlankChar))
    rwa [List.takeWhile_append_dropWhile] at hprefix

namespace Client

open Traced (InBounds Safe)

variable {grows : Nat → Bool} {line s tok rest : CStr} {args : List CStr}

/-! ## Words -/

theorem strtokR_none (h : strtokR s = none) : words isDelim s = [] := by
  unfold strtokR at h
  split at h
  · rename_i hblank
    rw [← words_dropWhile, hblank, words_nil]
  · cases h

/-- The search goes on behind the delimiter that ends the word. -/
theorem strtokR_some (h : strtokR s = some (tok, rest)) :
    words isDelim s = tok :: words isDelim rest ∧ rest.length < s.length := by
  unfold strtokR at h
  split at h
  · cases h
  · rename_i c t hword
    obtain ⟨rfl, rfl⟩ := Prod.mk.inj (Option.some.inj h)
    have hc : isDelim c = false := by simpa [hword] using List.head?_dropWhile_not isDelim s
    refine ⟨?_, ?_⟩
    · rw [← words_dropWhile, hword, words_cons_letter hc]
      -- the delimiter that has become a terminator
      have hstop := List.head?_dropWhile_not (!isDelim ·) (c :: t)
      cases hend : (c :: t).dropWhile (!isDelim ·) with
      | nil => rfl
      | cons d u =>
        rw [hend] at hstop
        rw [words_cons_delim (by simpa using hstop)]
        rfl
    · have hlength : (c :: t).length ≤ s.length := hword ▸ List.length_dropWhile_le isDelim s
      have hdropped : ((c :: t).dropWhile (!isDelim ·)).length ≤ t.length := by
        rw [List.dropWhile_cons_of_pos (by simp [hc])]
        exact List.length_dropWhile_le _ t
      rw [List.length_cons] at hlength
      rw [List.length_tail]
      omega

/-- The array has room for one more pointer than there are words, or there is none. -/
def Argv.Roomy (argv : Argv) : Prop := argv.args.length < argv.cap ∨ argv = ⟨[], 0⟩

theorem collectWords_safe {argv : Argv} (hroom : argv.Roomy) {fuel : Nat} (hfuel : s.length < fuel) :
    Safe (collectWords grows fuel argv s) fun r =>
      (r = none ∧ ∃ n, grows n = false) ∨ ∃ argv' : Argv, r = some argv' ∧ argv'.Roomy ∧
        argv'.args = argv.args ++ words isDelim s := by
  induction fuel generalizing argv s with
  | zero => exact absurd hfuel (Nat.not_lt_zero _)
  | succ fuel ih =>
    rw [collectWords]
    cases htok : strtokR s with
    | none => exact .pure (Or.inr ⟨argv, rfl, hroom, by rw [strtokR_none htok, List.append_nil]⟩)
    | some next =>
      obtain ⟨tok, rest⟩ := next
      obtain ⟨hwords, hlength⟩ := strtokR_some htok
      -- what is left to do when the word has been stored in an array that has room for it and one more
      have hstore {cap : Nat} (hcap : argv.args.length + 1 < cap) :
          Safe (Traced.touch .argv cap [argv.args.length] >>= fun _ =>
            collectWords grows fuel ⟨argv.args ++ [tok], cap⟩ rest) fun r =>
              (r = none ∧ ∃ n, grows n = false) ∨ ∃ argv' : Argv, r = some argv' ∧ argv'.Roomy ∧
                argv'.args = argv.args ++ words isDelim s := by
        have hnext : (⟨argv.args ++ [tok], cap⟩ : Argv).Roomy :=
          Or.inl (by rw [List.length_append, List.length_singleton]; exact hcap)
        have hrest := ih hnext (s := rest) (by omega)
        rw [List.append_assoc, List.singleton_append, ← hwords] at hrest
        exact .touch_then (fun i hi => by rw [List.mem_singleton.mp hi]; omega) hrest
      dsimp only
      by_cases hfull : argv.args.length + 1 ≥ argv.cap
      · rw [if_pos hfull]
        by_cases hgrows : grows (if argv.cap = 0 then 8 else argv.cap * 2) = true
        · rw [if_pos hgrows]
          refine hstore ?_
          rcases hroom with hroom | rfl
          · split <;> omega
          · decide
        · rw [if_neg hgrows]
          exact .pure (Or.inl ⟨rfl, _, by simpa using hgrows⟩)
      · rw [if_neg hfull]
        exact hstore (by omega)

/-- **The words of a line**, or none at all where memory runs out. -/
theorem splitLine_safe (grows : Nat → Bool) (line : CStr) : Safe (splitLine grows line) fun ws =>
    ws = words isDelim line ∨ (ws = [] ∧ ∃ n, grows n = false) := by
  refine .bind (collectWords_safe (Or.inr rfl) (Nat.lt_succ_self _)) fun r hr => ?_
  rcases hr with ⟨rfl, hmemory⟩ | ⟨argv, rfl, hroom, hargs⟩
  · exact .pure (Or.inr ⟨rfl, hmemory⟩)
  · rw [List.nil_append] at hargs
    dsimp only
    rcases hroom with hroom | rfl
    · rw [if_neg (by omega)]
      exact .touch_then (fun i hi => by rw [List.mem_singleton.mp hi]; exact hroom) (.pure (Or.inl hargs))
    · exact .pure (Or.inl hargs)

/-! ## The arguments of `VIEW` -/

/-- What is printed behind a text that leaves room; only the first argument has a space in front. -/
theorem joinTail_safe {i : Nat} (hi : 1 ≤ i) {tail : CStr} (h : tail.length < MAX_BUFFER - 1) :
    Safe (joinTail i args tail tail.length)
      (· = (tail ++ ((if i = 1 ∧ args ≠ [] then [space] else []) ++ args.flatten)).take (MAX_BUFFER - 1)) := by
  induction args generalizing i tail with
  | nil =>
    refine .pure ?_
    simp only [ne_eq, not_true_eq_false, and_false, if_false, List.flatten_nil, List.append_nil]
    exact (List.take_of_length_le h.le).symm
  | cons arg args ih =>
    rw [joinTail]
    have htext : (if i = 1 ∧ arg :: args ≠ [] then [space] else []) ++ (arg :: args).flatten =
        ((if i = 1 then [space] else []) ++ arg) ++ args.flatten := by
      simp only [ne_eq, reduceCtorEq, not_false_eq_true, and_true, List.flatten_cons, List.append_assoc]
    rw [htext]
    generalize (if i = 1 then [space] else []) ++ arg = text
    refine .touch_then (fun j hj => ?_) ?_
    · have hrange := List.mem_range'_1.mp hj
      omega
    · have hcut : tail ++ text.take (MAX_BUFFER - tail.length - 1) = (tail ++ text).take (MAX_BUFFER - 1) := by
        rw [List.take_append, List.take_of_length_le h.le, Nat.sub_right_comm]
      by_cases hfull : tail.length + text.length ≥ MAX_BUFFER - 1
      · rw [if_pos hfull]
        refine .pure ?_
        have hlong : MAX_BUFFER - 1 ≤ (tail ++ text).length := by
          rw [List.length_append]
          exact hfull
        rw [hcut, ← List.append_assoc, List.take_append_of_le_length hlong]
      · rw [if_neg hfull]
        have hwhole : text.take (MAX_BUFFER - tail.length - 1) = text := List.take_of_length_le (by omega)
        have hroom : (tail ++ text).length < MAX_BUFFER - 1 := by
          rw [List.length_append]
          omega
        have hrest := ih (Nat.le_add_left 1 i) hroom
        rw [if_neg (by omega), List.nil_append, List.length_append, List.append_assoc] at hrest
        rw [hwhole]
        exact hrest

/-! ## The commands as a table -/

/-- Where an argument goes: to a field of the message, into which it is copied or as a number. -/
inductive Place where
  | filename
  | foldername
  | targetPath
  | targetUser
  | checkpointTag
  | access
  | sentenceIndex

/-- The array that an argument is copied into. -/
def Place.room : Place → Option Nat
  | .filename | .foldername => some MAX_FILENAME
  | .targetPath => some MAX_PATH
  | .targetUser | .checkpointTag => some MAX_USERNAME
  | .access | .sentenceIndex => none

/-- The message with an argument in its place, none for an unknown flag. -/
def Place.put (arg : CStr) (msg : Message) : Place → Option Message
  | .filename => some { msg with filename := .strncpy (MAX_FILENAME - 1) arg }
  | .foldername => some { msg with foldername := .strncpy (MAX_FILENAME - 1) arg }
  | .targetPath => some { msg with targetPath := .strncpy (MAX_PATH - 1) arg }
  | .targetUser => some { msg with targetUser := .strncpy (MAX_USERNAME - 1) arg }
  | .checkpointTag => some { msg with checkpointTag := .strncpy (MAX_USERNAME - 1) arg }
  | .access => (flagAccess arg).map fun access => { msg with access := access }
  | .sentenceIndex => some { msg with sentenceIndex := atoi arg }

def putAll : List (Place × CStr) → Message → Option Message
  | [], msg => some msg
  | (place, arg) :: placed, msg => place.put arg msg >>= putAll placed

/-- What follows the question to the name server. -/
inductive Goal where
  | answer
  | listing
  | storage (type : Int32)
  | session

/-- A command: its name, the type of its question to the name server, the places of the arguments that it needs and of
those that it also takes, what follows, and the handler of the name server. -/
structure Verb where
  name : CStr
  asks : Int32
  needs : List Place
  takes : List Place
  goal : Goal
  served : (prior msg : Message) → Handler Message

namespace Verb

/-- The arguments that have a place. -/
def placed (v : Verb) (args : List CStr) : List (Place × CStr) := (v.needs ++ v.takes).zip args

/-- The question to the name server, none with too few arguments or an unknown flag. -/
def question (u : Username) (v : Verb) (args : List CStr) : Option Message :=
  if args.length < v.needs.length then none
  else putAll (v.placed args) { initMessage with type := v.asks, sender := u }

def errand (u : Username) (v : Verb) (args : List CStr) : Errand :=
  match v.question u args with
  | none => .shows
  | some msg =>
    match v.goal with
    | .answer => .asks msg
    | .listing => .asks (if args = [] then msg
        else { msg with data := .strncpy (MAX_BUFFER - 1) (space :: args.flatten) })
    | .storage type => .reaches msg { msg with type := type }
    | .session => .writes ⟨u, msg.filename, msg.sentenceIndex⟩

/-- Every argument that is copied is shorter than its array. -/
def Fits (v : Verb) (args : List CStr) : Prop :=
  v.needs.length ≤ args.length → ∀ placed ∈ v.placed args, ∀ n ∈ placed.1.room, placed.2.length < n

end Verb

/-- The commands, in the order of the chain. -/
def verbs : List Verb :=
  [⟨lit "VIEW", MSG_VIEW, [], [], .listing, fun _ => NetworkFileShare.handleView⟩,
    ⟨lit "READ", MSG_READ, [.filename], [], .storage MSG_READ, locateFile⟩,
    ⟨lit "CREATE", MSG_CREATE, [.filename], [], .answer, fun _ => NetworkFileShare.handleCreate⟩,
    ⟨lit "WRITE", MSG_WRITE, [.filename, .sentenceIndex], [], .session, locateFile⟩,
    ⟨lit "DELETE", MSG_DELETE, [.filename], [], .answer, fun _ => NetworkFileShare.handleDelete⟩,
    ⟨lit "INFO", MSG_INFO, [.filename], [], .answer, fun _ => NetworkFileShare.handleInfo⟩,
    ⟨lit "STREAM", MSG_READ, [.filename], [], .storage MSG_STREAM, locateFile⟩,
    ⟨lit "LIST", MSG_LIST, [], [], .answer, fun _ _ => NetworkFileShare.handleList⟩,
    ⟨lit "ADDACCESS", MSG_ADDACCESS, [.access, .filename, .targetUser], [], .answer, fun _ => handleAccess⟩,
    ⟨lit "REMACCESS", MSG_REMACCESS, [.filename, .targetUser], [], .answer, fun _ => handleAccess⟩,
    ⟨lit "EXEC", MSG_EXEC, [.filename], [], .answer, fun _ => NetworkFileShare.handleExec⟩,
    ⟨lit "UNDO", MSG_UNDO, [.filename], [], .storage MSG_UNDO, locateFile⟩,
    ⟨lit "CREATEFOLDER", MSG_CREATEFOLDER, [.foldername], [.targetPath], .answer, fun _ => handleCreateFolder⟩,
    ⟨lit "MOVE", MSG_MOVE, [.filename, .targetPath], [], .answer, fun _ => handleMove⟩,
    ⟨lit "VIEWFOLDER", MSG_VIEWFOLDER, [.targetPath], [], .answer, fun _ => handleViewFolder⟩,
    ⟨lit "CHECKPOINT", MSG_CHECKPOINT, [.filename, .checkpointTag], [], .answer, fun _ => handleCheckpointRequest⟩,
    ⟨lit "VIEWCHECKPOINT", MSG_VIEWCHECKPOINT, [.filename, .checkpointTag], [], .answer,
      fun _ => handleCheckpointRequest⟩,
    ⟨lit "REVERT", MSG_REVERT, [.filename, .checkpointTag], [], .answer, fun _ => handleCheckpointRequest⟩,
    ⟨lit "LISTCHECKPOINTS", MSG_LISTCHECKPOINTS, [.filename], [], .answer, fun _ => handleCheckpointRequest⟩,
    ⟨lit "REQUESTACCESS", MSG_REQUESTACCESS, [.access, .filename], [], .answer, fun _ => handleRequestAccess⟩,
    ⟨lit "VIEWREQUESTS", MSG_VIEWREQUESTS, [], [], .answer, fun _ => handleViewRequests⟩,
    ⟨lit "APPROVEREQUEST", MSG_APPROVEREQUEST, [.sentenceIndex], [], .answer, fun _ => handleApproveRequest⟩,
    ⟨lit "DENYREQUEST", MSG_DENYREQUEST, [.sentenceIndex], [], .answer, fun _ => handleDenyRequest⟩]

/-- The command that a word names. -/
def verbOf (vs : List Verb) (cmd : CStr) : Option Verb := vs.find? (·.name = cmd)

/-- What the words of a line ask for. -/
def errandOf (u : Username) : List CStr → Errand
  | [] => .nothing
  | cmd :: args =>
    if cmd = lit "exit" ∨ cmd = lit "quit" then .leaves
    else
      match verbOf verbs cmd with
      | none => .shows
      | some v => v.errand u args

/-- Every word that is copied is shorter than its array. -/
def WordsFit : List CStr → Prop
  | [] => True
  | cmd :: args => ∀ v ∈ verbOf verbs cmd, v.Fits args

/-! ## The chain of comparisons -/

section
variable {u : Username} {v : Verb} {vs : List Verb} {cmd tail : CStr} {p : Stores Errand}

/-- A handler does what its row says, and stores within its arrays if the arguments fit. -/
structure Meets (u : Username) (v : Verb) (args : List CStr) (p : Stores Errand) : Prop where
  val : p.val = v.errand u args
  inBounds : InBounds p.log ↔ v.Fits args

/-- A chain of comparisons, one for each row. -/
inductive Chain (u : Username) (cmd : CStr) (args : List CStr) : List Verb → Stores Errand → Prop where
  | unknown : Chain u cmd args [] (return .shows)
  | row {v : Verb} {vs : List Verb} {p q : Stores Errand} (meets : Meets u v args p) (rest : Chain u cmd args vs q) :
      Chain u cmd args (v :: vs) (if cmd = v.name then p else q)

/-- **A chain finds the first row of that name**, and shows what it does not know. -/
theorem Chain.found (h : Chain u cmd args vs p) :
    p.val = (match verbOf vs cmd with | none => .shows | some v => v.errand u args) ∧
      (InBounds p.log ↔ ∀ v ∈ verbOf vs cmd, v.Fits args) := by
  induction h with
  | unknown => exact ⟨rfl, fun _ _ hv => (by cases hv), fun _ _ ha => (by cases ha)⟩
  | @row v vs p q meets rest ih =>
    by_cases hname : cmd = v.name
    · have hfirst : verbOf (v :: vs) cmd = some v := List.find?_cons_of_pos (by simp [hname])
      rw [if_pos hname, hfirst]
      exact ⟨meets.val, meets.inBounds.trans ⟨fun hv w hw => Option.some.inj hw ▸ hv, fun hv => hv v rfl⟩⟩
    · have hlater : verbOf (v :: vs) cmd = verbOf vs cmd :=
        List.find?_cons_of_neg (by simpa using fun h => hname h.symm)
      rw [if_neg hname, hlater]
      exact ih

/-! ## The rows -/

@[simp] theorem val_strcpy {n : Nat} [Fact (n - 1 < n)] (s : CStr) : (strcpy n s).val = .strncpy (n - 1) s := rfl

@[simp] theorem inBounds_strcpy {n : Nat} [Fact (n - 1 < n)] {s : CStr} : InBounds (strcpy n s).log ↔ s.length < n := by
  constructor
  · intro h
    exact h ⟨.field, s.length, n⟩ (by simp [strcpy, Traced.touch, bind, pure])
  · intro h a ha
    obtain ⟨i, hi, rfl⟩ : ∃ i < s.length + 1, (⟨.field, i, n⟩ : Access CommandArray) = a := by
      simpa [strcpy, Traced.touch, bind, pure] using ha
    show i < n
    omega

variable {name : CStr} {type type' : Int32} {served : Message → Message → Handler Message}

/-- Too few arguments. -/
theorem meets_usage (h : args.length < v.needs.length) : Meets u v args (return .shows) where
  val := by rw [Verb.errand, Verb.question, if_pos h]; rfl
  inBounds := iff_of_true (Traced.inBounds_pure _) fun hneeds => absurd h (by omega)

/-- A handler of one argument. -/
theorem meets_oneArg {run : CStr → Stores Errand} (hneeds : v.needs.length = 1)
    (h : ∀ a rest, args = a :: rest → Meets u v args (run a)) : Meets u v args (oneArg run args) := by
  cases args with
  | nil => exact meets_usage (by rw [hneeds]; exact Nat.zero_lt_one)
  | cons a rest => exact h a rest rfl

theorem meets_twoArgs {run : CStr → CStr → Stores Errand} (hneeds : v.needs.length = 2)
    (h : ∀ a b rest, args = a :: b :: rest → Meets u v args (run a b)) : Meets u v args (twoArgs run args) := by
  match args, h with
  | [], _ => exact meets_usage (by rw [hneeds]; exact Nat.two_pos)
  | [_], _ => exact meets_usage (by rw [hneeds]; exact Nat.one_lt_two)
  | a :: b :: rest, h => exact h a b rest rfl

theorem meets_threeArgs {run : CStr → CStr → CStr → Stores Errand} (hneeds : v.needs.length = 3)
    (h : ∀ a b c rest, args = a :: b :: c :: rest → Meets u v args (run a b c)) :
    Meets u v args (threeArgs run args) := by
  match args, h with
  | [], _ => exact meets_usage (by rw [hneeds, List.length_nil]; omega)
  | [_], _ => exact meets_usage (by rw [hneeds, List.length_singleton]; omega)
  | [_, _], _ => exact meets_usage (by rw [hneeds, List.length_cons, List.length_singleton]; omega)
  | a :: b :: c :: rest, h => exact h a b c rest rfl

theorem meets_askAbout :
    Meets u ⟨name, type, [.filename], [], .answer, served⟩ args (oneArg (askAbout u type) args) := by
  refine meets_oneArg rfl ?_
  rintro a rest rfl
  refine ⟨rfl, ?_⟩
  simp [askAbout, Verb.Fits, Verb.placed, Place.room]

theorem meets_reachFile :
    Meets u ⟨name, type, [.filename], [], .storage type', served⟩ args (oneArg (reachFile u type type') args) := by
  refine meets_oneArg rfl ?_
  rintro a rest rfl
  refine ⟨rfl, ?_⟩
  simp [reachFile, Verb.Fits, Verb.placed, Place.room]

theorem meets_askCheckpoint : Meets u ⟨name, type, [.filename, .checkpointTag], [], .answer, served⟩ args
    (twoArgs (askCheckpoint u type) args) := by
  refine meets_twoArgs rfl ?_
  rintro a b rest rfl
  refine ⟨rfl, ?_⟩
  simp [askCheckpoint, Verb.Fits, Verb.placed, Place.room]

theorem meets_askRequest :
    Meets u ⟨name, type, [.sentenceIndex], [], .answer, served⟩ args (oneArg (askRequest u type) args) := by
  refine meets_oneArg rfl ?_
  rintro a rest rfl
  refine ⟨rfl, ?_⟩
  simp [askRequest, Verb.Fits, Verb.placed, Place.room]

theorem meets_write :
    Meets u ⟨name, type, [.filename, .sentenceIndex], [], .session, served⟩ args (twoArgs (handleWrite u) args) := by
  refine meets_twoArgs rfl ?_
  rintro a b rest rfl
  refine ⟨rfl, ?_⟩
  simp [handleWrite, Verb.Fits, Verb.placed, Place.room]

theorem meets_createfolder :
    Meets u ⟨name, MSG_CREATEFOLDER, [.foldername], [.targetPath], .answer, served⟩ args
      (oneArg (handleCreatefolder u · args.tail.head?) args) := by
  refine meets_oneArg rfl ?_
  rintro a rest rfl
  cases rest with
  | nil =>
    refine ⟨rfl, ?_⟩
    simp [handleCreatefolder, Verb.Fits, Verb.placed, Place.room]
  | cons b rest =>
    refine ⟨rfl, ?_⟩
    simp [handleCreatefolder, Verb.Fits, Verb.placed, Place.room]

theorem meets_moveFile : Meets u ⟨name, MSG_MOVE, [.filename, .targetPath], [], .answer, served⟩ args
    (twoArgs (handleMoveFile u) args) := by
  refine meets_twoArgs rfl ?_
  rintro a b rest rfl
  refine ⟨rfl, ?_⟩
  simp [handleMoveFile, Verb.Fits, Verb.placed, Place.room]

theorem meets_viewfolder :
    Meets u ⟨name, MSG_VIEWFOLDER, [.targetPath], [], .answer, served⟩ args (oneArg (handleViewfolder u) args) := by
  refine meets_oneArg rfl ?_
  rintro a rest rfl
  refine ⟨rfl, ?_⟩
  simp [handleViewfolder, Verb.Fits, Verb.placed, Place.room]

theorem meets_view (htail : args ≠ [] → tail = space :: args.flatten) :
    Meets u ⟨name, MSG_VIEW, [], [], .listing, served⟩ args
      (handleView u (if args = [] then none else some tail)) := by
  have hfits : Verb.Fits ⟨name, MSG_VIEW, [], [], .listing, served⟩ args := fun _ placed h => by cases h
  by_cases hargs : args = []
  · subst hargs
    exact ⟨rfl, iff_of_true (Traced.inBounds_pure _) hfits⟩
  · refine ⟨?_, ?_⟩
    · rw [if_neg hargs, htail hargs]
      show _ = Errand.asks (if args = [] then _ else _)
      rw [if_neg hargs]
      rfl
    · rw [if_neg hargs]
      exact iff_of_true (Traced.inBounds_pure _) hfits

theorem meets_list : Meets u ⟨name, MSG_LIST, [], [], .answer, served⟩ args (handleList u) :=
  ⟨rfl, iff_of_true (Traced.inBounds_pure _) fun _ placed h => by cases h⟩

theorem meets_viewrequests : Meets u ⟨name, MSG_VIEWREQUESTS, [], [], .answer, served⟩ args (handleViewrequests u) :=
  ⟨rfl, iff_of_true (Traced.inBounds_pure _) fun _ placed h => by cases h⟩

theorem meets_addaccess :
    Meets u ⟨name, MSG_ADDACCESS, [.access, .filename, .targetUser], [], .answer, served⟩ args
      (threeArgs (handleAddaccess u) args) := by
  refine meets_threeArgs rfl ?_
  rintro flag a b rest rfl
  have hplenty : ¬ rest.length + 1 + 1 + 1 < 3 := by omega
  refine ⟨?_, ?_⟩ <;> cases hflag : flagAccess flag <;>
    simp [handleAddaccess, Verb.errand, Verb.question, putAll, Place.put, hflag, Verb.Fits, Verb.placed, Place.room,
      hplenty]

theorem meets_remaccess : Meets u ⟨name, MSG_REMACCESS, [.filename, .targetUser], [], .answer, served⟩ args
    (twoArgs (handleRemaccess u) args) := by
  refine meets_twoArgs rfl ?_
  rintro a b rest rfl
  refine ⟨rfl, ?_⟩
  simp [handleRemaccess, Verb.Fits, Verb.placed, Place.room]

theorem meets_requestaccess : Meets u ⟨name, MSG_REQUESTACCESS, [.access, .filename], [], .answer, served⟩ args
    (twoArgs (handleRequestaccess u) args) := by
  refine meets_twoArgs rfl ?_
  rintro flag a rest rfl
  refine ⟨?_, ?_⟩ <;> cases hflag : flagAccess flag <;>
    simp [handleRequestaccess, Verb.errand, Verb.question, putAll, Place.put, hflag, Verb.Fits, Verb.placed,
      Place.room]

/-! ## A round of the loop -/

/-- **The chain of `command_loop` is the table**: the same names in the same order. -/
theorem chain_runCommand (hleaves : ¬ (cmd = lit "exit" ∨ cmd = lit "quit")) (hhelp : cmd ≠ lit "help")
    (htail : args ≠ [] → tail = space :: args.flatten) : Chain u cmd args verbs (runCommand u cmd args tail) := by
  rw [runCommand, if_neg hleaves, if_neg hhelp]
  exact .row (meets_view htail) <| .row meets_reachFile <| .row meets_askAbout <| .row meets_write <|
    .row meets_askAbout <| .row meets_askAbout <| .row meets_reachFile <| .row meets_list <| .row meets_addaccess <|
    .row meets_remaccess <| .row meets_askAbout <| .row meets_reachFile <| .row meets_createfolder <|
    .row meets_moveFile <| .row meets_viewfolder <| .row meets_askCheckpoint <| .row meets_askCheckpoint <|
    .row meets_askCheckpoint <| .row meets_askAbout <| .row meets_requestaccess <| .row meets_viewrequests <|
    .row meets_askRequest <| .row meets_askRequest .unknown

theorem runCommand_eq (htail : args ≠ [] → tail = space :: args.flatten) :
    (runCommand u cmd args tail).val = errandOf u (cmd :: args) ∧
      (InBounds (runCommand u cmd args tail).log ↔ WordsFit (cmd :: args)) := by
  have hnone {w : CStr} (hw : verbOf verbs w = none) : WordsFit (w :: args) := fun v hv => by
    rw [hw] at hv
    cases hv
  by_cases hleaves : cmd = lit "exit" ∨ cmd = lit "quit"
  · have hfits : WordsFit (cmd :: args) := by
      rcases hleaves with rfl | rfl <;> exact hnone (by decide)
    rw [runCommand, if_pos hleaves, errandOf, if_pos hleaves]
    exact ⟨rfl, iff_of_true (Traced.inBounds_pure _) hfits⟩
  · by_cases hhelp : cmd = lit "help"
    · subst hhelp
      have hunknown : verbOf verbs (lit "help") = none := by decide
      rw [runCommand, if_neg hleaves, if_pos rfl, errandOf, if_neg hleaves, hunknown]
      exact ⟨rfl, iff_of_true (Traced.inBounds_pure _) (hnone hunknown)⟩
    · rw [errandOf, if_neg hleaves]
      exact (chain_runCommand hleaves hhelp htail).found

/-- A round with memory for the words. -/
theorem runWords (hline : (cmd :: args).flatten.length < MAX_BUFFER) (hcmd : cmd ≠ []) :
    (joinTail 1 args [] 0 >>= runCommand u cmd args).val = errandOf u (cmd :: args) ∧
      (InBounds (joinTail 1 args [] 0 >>= runCommand u cmd args).log ↔ WordsFit (cmd :: args)) := by
  have hroom : ([] : CStr).length < MAX_BUFFER - 1 := by decide
  have hjoin : Safe (joinTail 1 args [] 0) _ := joinTail_safe (le_refl 1) hroom
  have htail : args ≠ [] → (joinTail 1 args [] 0).val = space :: args.flatten := by
    intro hargs
    have hresult : (joinTail 1 args [] 0).val = _ := hjoin.result
    have hpos := List.length_pos_iff.mpr hcmd
    rw [List.flatten_cons, List.length_append] at hline
    rw [hresult, if_pos ⟨rfl, hargs⟩, List.nil_append, List.singleton_append]
    refine List.take_of_length_le ?_
    rw [List.length_cons]
    omega
  obtain ⟨hval, hlog⟩ : (runCommand u cmd args (joinTail 1 args [] 0).val).val = errandOf u (cmd :: args) ∧
      (InBounds (runCommand u cmd args (joinTail 1 args [] 0).val).log ↔ WordsFit (cmd :: args)) := runCommand_eq htail
  refine ⟨hval, ?_⟩
  rw [Traced.inBounds_bind]
  exact (and_iff_right hjoin.inBounds).trans hlog

theorem commandRound_words (grows : Nat → Bool) (u : Username) (line : CArray MAX_BUFFER) :
    ((commandRound u grows line.str).val = errandOf u (words isDelim (afterTrim line.str)) ∧
      (InBounds (commandRound u grows line.str).log ↔ WordsFit (words isDelim (afterTrim line.str)))) ∨
    ((commandRound u grows line.str).val = .nothing ∧ InBounds (commandRound u grows line.str).log ∧
      ∃ n, grows n = false) := by
  have hspells := spells_words isDelim (afterTrim line.str)
  unfold commandRound
  dsimp only
  by_cases hempty : afterTrim line.str = []
  · rw [hempty, words_nil, if_pos rfl]
    exact Or.inl ⟨rfl, iff_of_true (Traced.inBounds_pure _) trivial⟩
  · rw [if_neg hempty, Traced.val_bind, Traced.inBounds_bind]
    obtain ⟨hlog, hsplit⟩ := splitLine_safe grows (afterTrim line.str)
    rcases hsplit with hsplit | ⟨hsplit, hmemory⟩
    · rw [hsplit, and_iff_right hlog]
      cases hwords : words isDelim (afterTrim line.str) with
      | nil => exact Or.inl ⟨rfl, iff_of_true (Traced.inBounds_pure _) trivial⟩
      | cons cmd args =>
        rw [hwords] at hspells
        have hshort : (cmd :: args).flatten.length ≤ line.str.length :=
          hspells.flatten_sublist.length_le.trans (afterTrim_starts line.str).length_le
        exact Or.inl (runWords (hshort.trans_lt line.fits) (hspells.word_of_mem List.mem_cons_self).1)
    · rw [hsplit]
      exact Or.inr ⟨rfl, ⟨hlog, Traced.inBounds_pure _⟩, hmemory⟩

/-- With memory for the words. -/
theorem commandRound_grown {grows : Nat → Bool} (hgrows : ∀ n, grows n = true) (u : Username)
    (line : CArray MAX_BUFFER) :
    (commandRound u grows line.str).val = errandOf u (words isDelim (afterTrim line.str)) ∧
      (InBounds (commandRound u grows line.str).log ↔ WordsFit (words isDelim (afterTrim line.str))) := by
  rcases commandRound_words grows u line with hround | ⟨-, -, n, hn⟩
  · exact hround
  · rw [hgrows n] at hn
    cases hn

/-- **What a typed line comes to**: the errand of its words, with every store within its array exactly when the words
that are copied are shorter than their arrays. Where memory runs out, the line comes to nothing. -/
theorem typed_command (grows : Nat → Bool) (u : Username) (line : CArray MAX_BUFFER) {ws : List CStr}
    (hspells : Spells isDelim ws (afterTrim line.str)) :
    ((commandRound u grows line.str).val = errandOf u ws ∧
      (InBounds (commandRound u grows line.str).log ↔ WordsFit ws)) ∨
    ((commandRound u grows line.str).val = .nothing ∧ InBounds (commandRound u grows line.str).log ∧
      ∃ n, grows n = false) := by
  rw [← hspells.words_eq]
  exact commandRound_words grows u line

/-- A line with some blanks too many. -/
def grantLine : CArray MAX_BUFFER := ⟨lit "ADDACCESS  -R notes.txt bob \n", by decide⟩

theorem typed_command_grant :
    ((commandRound alice (fun _ => true) grantLine.str).val =
        errandOf alice [lit "ADDACCESS", lit "-R", lit "notes.txt", lit "bob"] ∧
      (InBounds (commandRound alice (fun _ => true) grantLine.str).log ↔
        WordsFit [lit "ADDACCESS", lit "-R", lit "notes.txt", lit "bob"])) ∨
    ((commandRound alice (fun _ => true) grantLine.str).val = .nothing ∧
      InBounds (commandRound alice (fun _ => true) grantLine.str).log ∧ ∃ n : Nat, (fun _ => true) n = false) :=
  typed_command (fun _ => true) alice grantLine (words_eq_iff.mp (by decide))

end

end Client
end NetworkFileShare
