import NetworkFileShare.Lib.Separator
import NetworkFileShare.StorageServer.State

/-!
# The paths of the storage server

No path the server makes fills its array, so that they are what the formats say (`filePath_eq`,
`tempPath_eq`, `undoPath_eq`), and those of one file are different strings: the copies of two sessions, of one session
and the file, and the backup (`tempPath_injective`, `tempPath_ne_filePath`, `tempPath_ne_undoPath`,
`undoPath_ne_filePath`).

Different strings may still name one file, as `a` and `./a` do: `resolvePath` says which file a path names. A name that
goes on is another file (`resolvePath_append_ne`, `resolvePath_append_inj`): the backup is never the file itself and
never a copy, and the copy of a user without a slash is not the file (`resolvePath_undoPath_ne_filePath`,
`resolvePath_undoPath_ne_tempPath`, `resolvePath_tempPath_ne_filePath`).
-/

namespace NetworkFileShare

/-! ## Lengths -/

theorem length_storagePath_le (id : Int32) : (storagePath id).length ≤ 24 := by
  have h := length_printInt_le id
  have hlit : (lit "./ss_storage_").length = 13 := by decide
  simp only [storagePath, snprintfPath, List.length_take, List.length_append]
  omega

theorem snprintfPath_eq {s : CStr} (h : s.length < 512) : snprintfPath s = s :=
  List.take_of_length_le (show s.length ≤ 512 - 1 by omega)

theorem filePath_eq (id : Int32) (filename : Filename) :
    filePath id filename = storagePath id ++ lit "/" ++ filename.str := by
  have h := length_storagePath_le id
  have hf : filename.str.length < 256 := filename.fits
  have hlit : (lit "/").length = 1 := by decide
  refine snprintfPath_eq ?_
  simp only [List.length_append]
  omega

theorem length_filePath_le (id : Int32) (filename : Filename) : (filePath id filename).length ≤ 280 := by
  have h := length_storagePath_le id
  have hf : filename.str.length < 256 := filename.fits
  have hlit : (lit "/").length = 1 := by decide
  rw [filePath_eq]
  simp only [List.length_append]
  omega

theorem tempPath_eq (id : Int32) (filename : Filename) (username : Username) (sentIdx : Int32) :
    tempPath id filename username sentIdx =
      filePath id filename ++ lit ".temp_" ++ (username.str ++ lit "_" ++ printInt sentIdx.toInt) := by
  have h := length_filePath_le id filename
  have hu : username.str.length < 64 := username.fits
  have hi := length_printInt_le sentIdx
  have hlit : (lit ".temp_").length = 6 ∧ (lit "_").length = 1 := by decide
  rw [filePath_eq] at h ⊢
  simp only [List.length_append] at h
  rw [tempPath, snprintfPath_eq]
  · simp only [List.append_assoc]
  · simp only [List.length_append]
    omega

theorem undoPath_eq (id : Int32) (filename : Filename) :
    undoPath (filePath id filename) = filePath id filename ++ lit ".undo" := by
  have h := length_filePath_le id filename
  have hlit : (lit ".undo").length = 5 := by decide
  refine snprintfPath_eq ?_
  simp only [List.length_append]
  omega

/-! ## Different strings -/

theorem tempPath_ne_filePath (id : Int32) (filename : Filename) (username : Username) (sentIdx : Int32) :
    tempPath id filename username sentIdx ≠ filePath id filename := by
  have hlit : lit ".temp_" ≠ [] := by decide
  rw [tempPath_eq, List.append_assoc]
  simp [hlit]

theorem undoPath_ne_filePath (id : Int32) (filename : Filename) :
    undoPath (filePath id filename) ≠ filePath id filename := by
  have hlit : lit ".undo" ≠ [] := by decide
  rw [undoPath_eq]
  simp [hlit]

theorem tempPath_ne_undoPath (id : Int32) (filename : Filename) (username : Username) (sentIdx : Int32) :
    tempPath id filename username sentIdx ≠ undoPath (filePath id filename) := by
  have htemp : lit ".temp_" = byte 46 :: byte 116 :: lit "emp_" := by decide
  have hundo : lit ".undo" = byte 46 :: byte 117 :: lit "ndo" := by decide
  rw [tempPath_eq, undoPath_eq, List.append_assoc, htemp, hundo]
  intro h
  have h := List.append_cancel_left h
  simp only [List.cons_append, List.cons.injEq, true_and] at h
  exact absurd h.1 (by decide)

/-- A list is cut at the last place of an element in one way only. -/
theorem append_cons_inj {α : Type*} {a a' b b' : List α} {x : α} (hb : x ∉ b) (hb' : x ∉ b')
    (h : a ++ x :: b = a' ++ x :: b') : a = a' ∧ b = b' := by
  rcases List.append_eq_append_iff.mp h with ⟨c, rfl, hc⟩ | ⟨c, rfl, hc⟩
  · cases c with
    | nil => exact ⟨(List.append_nil _).symm, (List.cons.inj hc).2⟩
    | cons y c => exact absurd ((List.cons.inj hc).2 ▸ by simp) hb
  · cases c with
    | nil => exact ⟨List.append_nil _, (List.cons.inj hc).2.symm⟩
    | cons y c => exact absurd ((List.cons.inj hc).2 ▸ by simp) hb'

theorem underscore_notMem_printInt (i : Int) : byte 95 ∉ printInt i := by
  intro h
  rcases mem_printInt h with h | h
  · exact absurd h (by decide)
  · exact absurd h (by decide)

theorem printInt_injective {i j : Int32} (h : printInt i.toInt = printInt j.toInt) : i = j := by
  rw [← atoi_printInt i, h, atoi_printInt]

/-- **The copies of two sessions of a file have different paths.** -/
theorem tempPath_injective {id : Int32} {filename : Filename} {u v : Username} {i j : Int32}
    (h : tempPath id filename u i = tempPath id filename v j) : u = v ∧ i = j := by
  have hlit : lit "_" = [byte 95] := by decide
  rw [tempPath_eq, tempPath_eq, hlit] at h
  have h := List.append_cancel_left h
  rw [List.append_assoc, List.append_assoc] at h
  obtain ⟨hu, hi⟩ := append_cons_inj (underscore_notMem_printInt _) (underscore_notMem_printInt _) h
  exact ⟨CArray.ext' hu, printInt_injective hi⟩

/-! ## The file that a path names -/

/-- One component further, from a folder that is given by its components, the last one first. -/
def enter (folder : List CStr) (component : CStr) : List CStr :=
  if component = [] ∨ component = lit "." then folder
  else if component = lit ".." then
    match folder with
    | [] => [component]
    | last :: rest => if last = lit ".." then component :: folder else rest
  else component :: folder

/-- The components that a path leads to, the last one first. -/
def folders (path : Path) : List CStr := (path.splitOn slash).foldl enter []

def joinPath (folder : List CStr) : Path := (lit "/").intercalate folder.reverse

/-- The file that a path names, if every folder on the way is there and none is a link. -/
def resolvePath (path : Path) : Path := joinPath (folders path)

example : resolvePath (lit "./a/.././b//c") = lit "b/c" := by decide

theorem joinPath_cons (component : CStr) (folder : List CStr) :
    joinPath (component :: folder) = if folder = [] then component else joinPath folder ++ lit "/" ++ component := by
  rw [joinPath, List.reverse_cons, intercalate_snoc, joinPath]
  simp only [List.reverse_eq_nil_iff]

theorem resolvePath_component (path component : CStr) (h : slash ∉ component) :
    resolvePath (path ++ slash :: component) = joinPath (enter (folders path) component) := by
  rw [resolvePath, folders, List.splitOn_append_cons_self, List.splitOn_eq_singleton h, List.foldl_append]
  rfl

/-- A component that is a name is the last one. -/
theorem enter_name {component : CStr} (h : component ≠ [] ∧ component ≠ lit "." ∧ component ≠ lit "..")
    (folder : List CStr) : enter folder component = component :: folder := by
  unfold enter
  rw [if_neg (not_or.mpr ⟨h.1, h.2.1⟩), if_neg h.2.2]

/-- A component makes the path longer by itself and a slash, at most. -/
theorem length_enter_le (folder : List CStr) (component : CStr) :
    (joinPath (enter folder component)).length ≤
      if folder = [] then component.length else (joinPath folder).length + 1 + component.length := by
  have hslash : (lit "/").length = 1 := by decide
  have hcons : ∀ c : CStr, (joinPath (c :: folder)).length =
      if folder = [] then c.length else (joinPath folder).length + 1 + c.length := by
    intro c
    rw [joinPath_cons]
    split
    · rfl
    · rw [List.length_append, List.length_append, hslash]
  unfold enter
  split
  · split
    · rename_i hnil
      rw [hnil]
      exact Nat.zero_le _
    · omega
  · split
    · cases folder with
      | nil => exact (hcons component).le
      | cons last rest =>
        dsimp only
        split
        · exact (hcons component).le
        · rw [if_neg (List.cons_ne_nil _ _), joinPath_cons]
          split
          · rename_i hnil
            rw [hnil]
            exact Nat.zero_le _
          · simp only [List.length_append]
            omega
    · exact (hcons component).le

/-- The last component of a path. -/
theorem exists_component {path : Path} (h : slash ∈ path) :
    ∃ front component, path = front ++ slash :: component ∧ slash ∉ component := by
  obtain ⟨component, front, hreverse, hcomponent⟩ := List.eq_append_cons_of_mem (List.mem_reverse.mpr h)
  refine ⟨front.reverse, component.reverse, ?_, fun hmem => hcomponent (List.mem_reverse.mp hmem)⟩
  rw [← List.reverse_reverse path, hreverse, List.reverse_append, List.reverse_cons, List.append_assoc]
  rfl

theorem slash_mem_filePath (id : Int32) (filename : Filename) : slash ∈ filePath id filename := by
  have hlit : lit "/" = [slash] := by decide
  rw [filePath_eq, hlit]
  simp

/-- A path whose last byte is not one of `.` and `/` names a file that ends in it. -/
theorem getLast?_resolvePath {path : Path} {c : CChar} (h : slash ∈ path) (hlast : path.getLast? = some c)
    (hslash : c ≠ slash) (hdot : c ≠ byte 46) : (resolvePath path).getLast? = some c := by
  obtain ⟨front, component, rfl, hcomponent⟩ := exists_component h
  have hend : component.getLast? = some c := by
    cases component with
    | nil => exact absurd (Option.some.inj (hlast.symm.trans List.getLast?_concat)) hslash
    | cons b bs => rwa [List.getLast?_append, List.getLast?_cons_cons, Option.or_of_isSome (by simp)] at hlast
  have hname : component ≠ [] ∧ component ≠ lit "." ∧ component ≠ lit ".." := by
    refine ⟨?_, ?_, ?_⟩ <;> rintro rfl
    · cases hend
    · exact hdot (Option.some.inj hend).symm
    · exact hdot (Option.some.inj hend).symm
  rw [resolvePath_component _ _ hcomponent, enter_name hname, joinPath_cons]
  split
  · exact hend
  · rw [List.getLast?_append, hend, Option.some_or]

/-- **A file whose name goes on** with something that has no slash, and is longer than `..`, is another file of the same
folder. -/
theorem resolvePath_append {path : Path} (h : slash ∈ path) : ∃ folder component,
    (resolvePath path).length ≤
      (if folder = [] then component.length else (joinPath folder).length + 1 + component.length) ∧
    ∀ ext : CStr, slash ∉ ext → 2 < ext.length →
      resolvePath (path ++ ext) = joinPath ((component ++ ext) :: folder) := by
  obtain ⟨front, component, rfl, hcomponent⟩ := exists_component h
  refine ⟨folders front, component, ?_, fun ext hext hlong => ?_⟩
  · rw [resolvePath_component _ _ hcomponent]
    exact length_enter_le _ _
  · have hname : ∀ c : CStr, c.length ≤ 2 → component ++ ext ≠ c := fun c hc he => by
      have hlength := congrArg List.length he
      rw [List.length_append] at hlength
      omega
    rw [List.append_assoc, List.cons_append, resolvePath_component,
      enter_name ⟨hname _ (by decide), hname _ (by decide), hname _ (by decide)⟩]
    exact fun hmem => (List.mem_append.mp hmem).elim hcomponent hext

section
variable {path : Path} {ext ext' : CStr}

theorem resolvePath_append_ne (h : slash ∈ path) (hext : slash ∉ ext) (hlong : 2 < ext.length) :
    resolvePath (path ++ ext) ≠ resolvePath path := by
  obtain ⟨folder, component, hle, hgoes⟩ := resolvePath_append h
  intro he
  have hslash : (lit "/").length = 1 := by decide
  rw [← he, hgoes ext hext hlong, joinPath_cons] at hle
  split at hle
  · rw [List.length_append] at hle
    omega
  · simp only [List.length_append, hslash] at hle
    omega

theorem resolvePath_append_inj (h : slash ∈ path) (hext : slash ∉ ext) (hlong : 2 < ext.length)
    (hext' : slash ∉ ext') (hlong' : 2 < ext'.length) (he : resolvePath (path ++ ext) = resolvePath (path ++ ext')) :
    ext = ext' := by
  obtain ⟨folder, component, -, hgoes⟩ := resolvePath_append h
  rw [hgoes ext hext hlong, hgoes ext' hext' hlong', joinPath_cons, joinPath_cons] at he
  split at he
  · exact List.append_cancel_left he
  · exact List.append_cancel_left (List.append_cancel_left he)

end

/-- **The backup is never the file itself.** -/
theorem resolvePath_undoPath_ne_filePath (id : Int32) (filename : Filename) :
    resolvePath (undoPath (filePath id filename)) ≠ resolvePath (filePath id filename) := by
  rw [undoPath_eq]
  exact resolvePath_append_ne (slash_mem_filePath id filename) (by decide) (by decide)

/-- **A backup is never a copy.** -/
theorem resolvePath_undoPath_ne_tempPath (id : Int32) (filename filename' : Filename) (username : Username)
    (sentIdx : Int32) :
    resolvePath (undoPath (filePath id filename)) ≠ resolvePath (tempPath id filename' username sentIdx) := by
  have hundo : lit ".undo" = lit ".und" ++ [byte 111] := by decide
  have hbackup : (resolvePath (undoPath (filePath id filename))).getLast? = some (byte 111) := by
    refine getLast?_resolvePath ?_ ?_ (by decide) (by decide)
    · rw [undoPath_eq]
      exact List.mem_append_left _ (slash_mem_filePath id filename)
    · rw [undoPath_eq, hundo, ← List.append_assoc, List.getLast?_concat]
  obtain ⟨c, hc⟩ := Option.isSome_iff_exists.mp (List.getLast?_isSome.mpr (printInt_ne_nil sentIdx.toInt))
  have hmem := mem_printInt (List.mem_of_getLast? hc)
  have hne : ∀ d, d ≠ dash → isdigit d = false → c ≠ d := by
    rintro d hdash hdigit rfl
    rcases hmem with h | h
    · exact hdash h
    · rw [hdigit] at h
      cases h
  have hcopy : (resolvePath (tempPath id filename' username sentIdx)).getLast? = some c := by
    refine getLast?_resolvePath ?_ ?_ (hne _ (by decide) (by decide)) (hne _ (by decide) (by decide))
    · rw [tempPath_eq, List.append_assoc]
      exact List.mem_append_left _ (slash_mem_filePath id filename')
    · rw [tempPath_eq, ← List.append_assoc, List.getLast?_append, hc, Option.some_or]
  intro he
  rw [he, hcopy] at hbackup
  exact hne (byte 111) (by decide) (by decide) (Option.some.inj hbackup)

/-- **The copy is not the file itself** if the user's name has no slash. -/
theorem resolvePath_tempPath_ne_filePath (id : Int32) (filename : Filename) {username : Username} (sentIdx : Int32)
    (huser : slash ∉ username.str) :
    resolvePath (tempPath id filename username sentIdx) ≠ resolvePath (filePath id filename) := by
  have hlit : (lit ".temp_").length = 6 := by decide
  rw [tempPath_eq, List.append_assoc]
  refine resolvePath_append_ne (slash_mem_filePath id filename) ?_ (by rw [List.length_append, hlit]; omega)
  intro h
  simp only [List.mem_append] at h
  rcases h with h | (h | h) | h
  · exact absurd h (by decide)
  · exact huser h
  · exact absurd h (by decide)
  · rcases mem_printInt h with h | h
    · exact absurd h (by decide)
    · exact absurd h (by decide)

end NetworkFileShare
