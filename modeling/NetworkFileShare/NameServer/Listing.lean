import NetworkFileShare.Lib.Separator
import NetworkFileShare.NameServer.Registration
import NetworkFileShare.StorageServer.Names

/-!
# The file list of a registration (`ss.c`: `scan_and_register_files`)

A storage server that starts sends the names of the files in its root, joined by commas.

* `scanAndRegisterFiles` : the message; `tokens_scanFiles` : what the name server reads from its list;
* `host` : a storage server after operations and restarts; `UserFile` : a file in the root that was created;
* `registration_reports_iff` : the name server reads the user files exactly when their names hold neither `.undo` nor a
  comma, and what it reads from the other names that are listed are user files.
-/

namespace NetworkFileShare

/-! ## `scan_and_register_files` -/

/-- `filepath`, for `stat`. -/
def entryPath (s : StorageServer) (name : CStr) : Path := snprintfPath (storagePath s.id ++ lit "/" ++ name)

/-- The entries that are listed: regular files whose name does not hold `.undo`. -/
def isListed (s : StorageServer) (name : CStr) : Bool :=
  if name = lit "." ∨ name = lit ".." then false
  else if lit ".undo" <:+: name then false
  else (s.disk (entryPath s name)).isSome

/-- One round of the loop over the directory, on `file_list` and `file_count`. -/
def scanEntry (s : StorageServer) (acc : CStr × Nat) (name : CStr) : CStr × Nat :=
  if isListed s name then ((if 0 < acc.2 then acc.1 ++ [comma] else acc.1) ++ name, acc.2 + 1) else acc

/-- `file_list` after the loop over the entries that `readdir` returns. -/
def scanFiles (s : StorageServer) (entries : List CStr) : CStr := (entries.foldl (scanEntry s) ([], 0)).1

/-- `scan_and_register_files`: the message it sends. -/
def scanAndRegisterFiles (s : StorageServer) (ip : Username) (clientPort nmPort : Int32) (entries : List CStr) :
    Message :=
  { initMessage with
    type := MSG_REG_SS
    ssId := s.id
    sender := ip
    clientPort := clientPort
    nmPort := nmPort
    data := .strncpy (MAX_BUFFER - 1) (scanFiles s entries) }

/-! ## What the name server reads -/

/-- Joined lists are read one after the other. -/
theorem tokens_append (d : CChar) (a b : CStr) : tokens d (a ++ d :: b) = tokens d a ++ tokens d b := by
  rw [tokens, List.splitOn_append_cons_self, List.filter_append]
  rfl

theorem mem_tokens {d : CChar} {t p : CStr} (h : p ∈ tokens d t) : d ∉ p ∧ p <:+: t := by
  have hmem := List.mem_of_mem_filter h
  exact ⟨notMem_of_mem_splitOn hmem, infix_of_mem_splitOn hmem⟩

theorem tokens_of_notMem {d : CChar} {t : CStr} (hne : t ≠ []) (ht : d ∉ t) : tokens d t = [t] := by
  rw [tokens, List.splitOn_eq_singleton ht]
  simp [hne]

/-- **The names in the list**: those between the commas of the names that are listed. -/
theorem tokens_scanFiles (s : StorageServer) (entries : List CStr) :
    tokens comma (scanFiles s entries) = (entries.filter (isListed s)).flatMap (tokens comma) := by
  have hloop : ((entries.foldl (scanEntry s) ([], 0)).2 = 0 → (entries.foldl (scanEntry s) ([], 0)).1 = []) ∧
      tokens comma (entries.foldl (scanEntry s) ([], 0)).1 = (entries.filter (isListed s)).flatMap (tokens comma) := by
    induction entries using List.reverseRecOn with
    | nil => exact ⟨fun _ => rfl, rfl⟩
    | append_singleton entries name ih =>
      rw [List.foldl_append, List.filter_append, List.flatMap_append]
      show ((scanEntry s _ name).2 = 0 → (scanEntry s _ name).1 = []) ∧ tokens comma (scanEntry s _ name).1 = _
      generalize entries.foldl (scanEntry s) ([], 0) = acc at ih ⊢
      obtain ⟨hempty, hread⟩ := ih
      unfold scanEntry
      by_cases hlisted : isListed s name = true
      · rw [if_pos hlisted, List.filter_cons_of_pos hlisted, List.filter_nil, List.flatMap_singleton, ← hread]
        refine ⟨fun hzero => absurd hzero (Nat.succ_ne_zero _), ?_⟩
        by_cases hfirst : 0 < acc.2
        · rw [if_pos hfirst, List.append_assoc]
          exact tokens_append comma acc.1 name
        · rw [if_neg hfirst, hempty (by omega)]
          rfl
      · rw [if_neg hlisted, List.filter_cons_of_neg hlisted, List.filter_nil, List.flatMap_nil, List.append_nil]
        exact ⟨hempty, hread⟩
  exact hloop.2

/-- A list that fits the message is read to its end. -/
theorem fileList_scan {s : StorageServer} {entries : List CStr} (hfits : (scanFiles s entries).length < MAX_BUFFER)
    (ip : Username) (clientPort nmPort : Int32) :
    fileList (scanAndRegisterFiles s ip clientPort nmPort entries) =
      (entries.filter (isListed s)).flatMap (tokens comma) := by
  have hdata : (scanAndRegisterFiles s ip clientPort nmPort entries).data.str = scanFiles s entries :=
    List.take_of_length_le (Nat.le_sub_one_of_lt hfits)
  have hcount : (tokens comma (scanFiles s entries)).length ≤ MAX_FILES := by
    have hpieces := length_splitOn_le (x := comma) (scanFiles s entries)
    have hfilter : (tokens comma (scanFiles s entries)).length ≤ _ := List.length_filter_le _ _
    have hbuffer : MAX_BUFFER + 1 ≤ MAX_FILES := by decide
    omega
  rw [fileList, hdata, ← tokens_scanFiles]
  exact List.take_of_length_le hcount

/-! ## The files of the root -/

inductive HostEvent where
  | handled (io : FsIo) (op : Operation)
  | restarted

/-- An operation, or a start on the files that are there. -/
def HostEvent.next (s : StorageServer) : HostEvent → StorageServer
  | .handled io op => (op.handle io s).1
  | .restarted => freshServer s.id s.disk

/-- The storage server after the events, on a disk that was empty. -/
def host (id : Int32) (es : List HostEvent) : StorageServer :=
  es.foldl HostEvent.next (freshServer id fun _ => none)

/-- `create_file_ss` has answered with success. -/
def Created (id : Int32) (es : List HostEvent) (f : Filename) : Prop :=
  ∃ before io after, es = before ++ .handled io (.command (.create f)) :: after ∧
    (createFileSs io (host id before) f).2 = SUCCESS

/-- A name that a file of a folder can have. -/
structure EntryName (name : CStr) : Prop where
  ne_nil : name ≠ []
  slash : slash ∉ name
  dot : name ≠ lit "."
  dots : name ≠ lit ".."

/-- A file that was created in the root, and is there. -/
structure UserFile (id : Int32) (es : List HostEvent) (name : CStr) : Prop where
  entry : EntryName name
  created : ∃ f : Filename, f.str = name ∧ Created id es f ∧ (host id es).disk ((host id es).path f) ≠ none

/-- What `readdir` returns for the root, in some order. -/
def ReadsRoot (io : FsIo) (s : StorageServer) (entries : List CStr) : Prop :=
  ∀ name, name ∈ entries ↔ name = lit "." ∨ name = lit ".." ∨
    EntryName name ∧ pathExists io s.disk (storagePath s.id ++ lit "/" ++ name) = true

section Report
variable {id : Int32} {es : List HostEvent} {io : FsIo} {entries : List CStr} {name : CStr}

/-- A user file is an entry, and it is listed unless its name holds `.undo`. -/
theorem UserFile.listed (h : UserFile id es name) (hroot : ReadsRoot io (host id es) entries) :
    name ∈ entries ∧ (¬ lit ".undo" <:+: name → isListed (host id es) name = true) := by
  obtain ⟨f, rfl, -, hthere⟩ := h.created
  have hpath : (host id es).path f = storagePath (host id es).id ++ lit "/" ++ f.str := filePath_eq _ f
  have hentry : (host id es).path f = entryPath (host id es) f.str := rfl
  refine ⟨(hroot f.str).mpr (Or.inr (Or.inr ⟨h.entry, ?_⟩)), fun hundo => ?_⟩
  · rw [← hpath, pathExists, Bool.or_eq_true]
    exact Or.inl (Option.isSome_iff_ne_none.mpr hthere)
  · have hdots : ¬(f.str = lit "." ∨ f.str = lit "..") := not_or.mpr ⟨h.entry.dot, h.entry.dots⟩
    rw [isListed, if_neg hdots, if_neg hundo, ← hentry]
    exact Option.isSome_iff_ne_none.mpr hthere

theorem not_undo_of_listed {s : StorageServer} (h : isListed s name = true) : ¬ lit ".undo" <:+: name := by
  intro hundo
  rw [isListed, if_pos hundo, ite_self] at h
  cases h

/-- **The name server reads exactly the user files if and only if** their names hold neither `.undo` nor a comma, and
the pieces between the commas of the other names that are listed are user files too. -/
theorem registration_reports_iff (hroot : ReadsRoot io (host id es) entries)
    (hfits : (scanFiles (host id es) entries).length < MAX_BUFFER) (ip : Username) (clientPort nmPort : Int32) :
    (∀ name, name ∈ fileList (scanAndRegisterFiles (host id es) ip clientPort nmPort entries) ↔ UserFile id es name) ↔
      (∀ name, UserFile id es name → ¬ lit ".undo" <:+: name ∧ comma ∉ name) ∧
        ∀ name ∈ entries, isListed (host id es) name = true → ¬ UserFile id es name →
          ∀ piece ∈ tokens comma name, UserFile id es piece := by
  rw [fileList_scan hfits]
  have hread : ∀ piece, piece ∈ (entries.filter (isListed (host id es))).flatMap (tokens comma) ↔
      ∃ name ∈ entries, isListed (host id es) name = true ∧ piece ∈ tokens comma name := by
    intro piece
    simp only [List.mem_flatMap, List.mem_filter, and_assoc]
  constructor
  · intro hreports
    refine ⟨fun name huser => ?_, fun name hentry hlisted _ piece hpiece => ?_⟩
    · obtain ⟨whole, -, hlisted, hpiece⟩ := (hread name).mp ((hreports name).mpr huser)
      obtain ⟨hcomma, hinfix⟩ := mem_tokens hpiece
      exact ⟨fun hundo => not_undo_of_listed hlisted (hundo.trans hinfix), hcomma⟩
    · exact (hreports piece).mp ((hread piece).mpr ⟨name, hentry, hlisted, hpiece⟩)
  · rintro ⟨husers, hothers⟩ piece
    have hself : ∀ name, UserFile id es name → tokens comma name = [name] := fun name huser =>
      tokens_of_notMem huser.entry.ne_nil (husers name huser).2
    rw [hread]
    constructor
    · rintro ⟨name, hentry, hlisted, hpiece⟩
      by_cases huser : UserFile id es name
      · rw [hself name huser, List.mem_singleton] at hpiece
        rw [hpiece]
        exact huser
      · exact hothers name hentry hlisted huser piece hpiece
    · intro huser
      obtain ⟨hentry, hlisted⟩ := huser.listed hroot
      refine ⟨piece, hentry, hlisted (husers piece huser).1, ?_⟩
      rw [hself piece huser]
      exact List.mem_singleton_self piece

/-- What `readdir` returns when there are no folders. -/
theorem readsRoot_of_files {s : StorageServer} {names : List CStr} (hfolder : ∀ p, io.isFolder p = false)
    (hnames : ∀ name ∈ names, EntryName name)
    (hdisk : ∀ name, (s.disk (storagePath s.id ++ lit "/" ++ name)).isSome = true ↔ name ∈ names) :
    ReadsRoot io s (lit "." :: lit ".." :: names) := by
  intro name
  rw [List.mem_cons, List.mem_cons, pathExists, hfolder, Bool.or_false, hdisk]
  refine or_congr_right (or_congr_right ⟨fun hmem => ⟨hnames name hmem, hmem⟩, fun h => h.2⟩)

end Report

/-! ## A checkpoint in the root -/

/-- A command of the name server, every open succeeding. -/
def commands (c : NmCommand) : HostEvent := .handled FsIo.allOpens (.command c)

def notesCreated : List HostEvent := [commands (.create notes)]

def notesCheckpointed : List HostEvent := [commands (.create notes), commands (.checkpoint notes ⟨lit "v1", by decide⟩)]

theorem isSome_update (d : Disk) (p q : Path) (text : CStr) :
    (Function.update d p (some text) q).isSome = true ↔ q = p ∨ (d q).isSome = true := by
  by_cases hq : q = p
  · rw [hq, Function.update_self]
    exact iff_of_true rfl (Or.inl rfl)
  · rw [Function.update_of_ne hq, or_iff_right hq]

/-- The entries of the root that are files. -/
theorem root_eq_filePath (id : Int32) (f : Filename) (name : CStr) :
    storagePath id ++ lit "/" ++ name = filePath id f ↔ name = f.str := by
  rw [filePath_eq, List.append_cancel_left_eq]

theorem readsRoot_notesCreated :
    ReadsRoot FsIo.allOpens (host 1 notesCreated) [lit ".", lit "..", lit "notes.txt"] := by
  have hdisk : (host 1 notesCreated).disk = Function.update (fun _ => none) (filePath 1 notes) (some []) := rfl
  refine readsRoot_of_files (fun _ => rfl) ?_ fun name => ?_
  · intro name hname
    rw [List.mem_singleton.mp hname]
    exact ⟨by decide, by decide, by decide, by decide⟩
  · rw [hdisk, isSome_update, List.mem_singleton]
    exact (or_iff_left Bool.false_ne_true).trans (root_eq_filePath 1 notes name)

theorem readsRoot_notesCheckpointed : ReadsRoot FsIo.allOpens (host 1 notesCheckpointed)
    [lit ".", lit "..", lit "notes.txt", lit "notes.txt.checkpoint_v1"] := by
  have hdisk : (host 1 notesCheckpointed).disk =
      Function.update (Function.update (fun _ => none) (filePath 1 notes) (some []))
        (filePath 1 (.strncpy (MAX_FILENAME - 1) (lit "notes.txt.checkpoint_v1"))) (some []) := rfl
  refine readsRoot_of_files (fun _ => rfl) ?_ fun name => ?_
  · intro name hname
    rcases List.mem_cons.mp hname with rfl | hname
    · exact ⟨by decide, by decide, by decide, by decide⟩
    · rw [List.mem_singleton.mp hname]
      exact ⟨by decide, by decide, by decide, by decide⟩
  · rw [hdisk, isSome_update, isSome_update, List.mem_cons, List.mem_singleton, or_comm]
    exact or_congr ((or_iff_left Bool.false_ne_true).trans (root_eq_filePath 1 notes name))
      (root_eq_filePath 1 (.strncpy (MAX_FILENAME - 1) (lit "notes.txt.checkpoint_v1")) name)

/-- The only file that is created. -/
theorem created_notes {es : List HostEvent} (hes : es = notesCreated ∨ es = notesCheckpointed) {id : Int32}
    {f : Filename} (h : Created id es f) : f = notes := by
  obtain ⟨before, io, after, hsplit, -⟩ := h
  have hmem : HostEvent.handled io (.command (.create f)) ∈ notesCheckpointed := by
    have hlonger : es ⊆ notesCheckpointed := by
      rcases hes with rfl | rfl
      · exact List.cons_subset_cons _ (List.nil_subset _)
      · exact List.Subset.refl _
    exact hlonger (by rw [hsplit]; simp)
  rcases List.mem_cons.mp hmem with hfirst | hmem
  · injection hfirst with _ hop
    injection hop with hcreate
    injection hcreate
  · injection List.mem_singleton.mp hmem with _ hop
    injection hop with hcreate
    cases hcreate

theorem userFile_notes {es : List HostEvent} (hes : es = notesCreated ∨ es = notesCheckpointed) {name : CStr}
    (h : UserFile 1 es name) : name = lit "notes.txt" := by
  obtain ⟨f, rfl, hcreated, -⟩ := h.created
  rw [created_notes hes hcreated]
  rfl

/-- After the creation of a file the name server reads its name. -/
theorem registration_reports_notes :
    scanFiles (host 1 notesCreated) [lit ".", lit "..", lit "notes.txt"] = lit "notes.txt" ∧
      ∀ name, name ∈ fileList (scanAndRegisterFiles (host 1 notesCreated) alice 9001 9002
        [lit ".", lit "..", lit "notes.txt"]) ↔ UserFile 1 notesCreated name := by
  refine ⟨by decide, ?_⟩
  refine (registration_reports_iff readsRoot_notesCreated (by decide) alice 9001 9002).mpr ⟨?_, ?_⟩
  · intro name huser
    rw [userFile_notes (Or.inl rfl) huser]
    decide
  · intro name hentry hlisted hother
    have hnotes : UserFile 1 notesCreated (lit "notes.txt") :=
      ⟨⟨by decide, by decide, by decide, by decide⟩, notes, rfl, ⟨[], FsIo.allOpens, [], rfl, by decide⟩,
        by decide⟩
    rcases List.mem_cons.mp hentry with rfl | hentry
    · exact absurd hlisted (by decide)
    · rcases List.mem_cons.mp hentry with rfl | hentry
      · exact absurd hlisted (by decide)
      · rw [List.mem_singleton.mp hentry] at hother
        exact absurd hnotes hother

/-- **A checkpoint is reported as a file.** -/
theorem checkpoint_reported : ∃ (es : List HostEvent) (entries : List CStr) (name : CStr),
    ReadsRoot FsIo.allOpens (host 1 es) entries ∧ (scanFiles (host 1 es) entries).length < MAX_BUFFER ∧
      name ∈ fileList (scanAndRegisterFiles (host 1 es) alice 9001 9002 entries) ∧ ¬ UserFile 1 es name := by
  refine ⟨notesCheckpointed, _, lit "notes.txt.checkpoint_v1", readsRoot_notesCheckpointed, by decide,
    by decide, fun huser => ?_⟩
  have hname := userFile_notes (Or.inr rfl) huser
  exact absurd hname (by decide)

end NetworkFileShare
