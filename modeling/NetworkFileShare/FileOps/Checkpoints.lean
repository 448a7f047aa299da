import NetworkFileShare.Common
import NetworkFileShare.Lib.Printf
import Mathlib.Data.List.DropRight

/-!
# The list of checkpoints (`file_ops.c`: `list_checkpoints`)

* `checkpointTags` : the tags of the checkpoints among the entries of a directory;
* `listCheckpoints` : the status, and the calls that write the answer into `buffer`; `listCheckpoints_fits`.
-/

namespace NetworkFileShare

/-- What the checkpoints of a file begin with, `checkpoint_prefix`: its name behind the last slash of the path. -/
def checkpointPrefix (filepath : CArray MAX_PATH) : CStr :=
  (filepath.str.rtakeWhile (· ≠ slash) ++ lit ".checkpoint_").take (MAX_PATH - 1)

/-- The tags, in the order of the directory. -/
def checkpointTags (filepath : CArray MAX_PATH) (entries : List CStr) : List CStr :=
  (entries.filter fun name => checkpointPrefix filepath <+: name).map (·.drop (checkpointPrefix filepath).length)

/-- `list_checkpoints`, with the entries that `readdir` returns if the directory can be opened. The position is 0 at the
end when nothing has been printed. -/
def listCheckpoints (filepath : CArray MAX_PATH) (bufferSize : Nat) (entries : Option (List CStr)) :
    Int32 × List PrintCall :=
  match entries with
  | none => (ERR_SERVER_ERROR, [])
  | some entries =>
    let calls := snprintfUntil (bufferSize - 1) bufferSize 0 ((checkpointTags filepath entries).map (· ++ lit "\n"))
    (SUCCESS, if printed calls = [] then calls ++ [⟨0, some bufferSize, lit "No checkpoints found.\n"⟩] else calls)

/-- **The answer stays in the buffer**, whatever the directory holds. -/
theorem listCheckpoints_fits (filepath : CArray MAX_PATH) (bufferSize : Nat) (entries : Option (List CStr)) :
    FitBuffer bufferSize (listCheckpoints filepath bufferSize entries).2 := by
  cases entries with
  | none => exact fun c hc => absurd hc List.not_mem_nil
  | some entries =>
    have hloop := snprintfUntil_fits (Nat.sub_le bufferSize 1) (Nat.zero_le bufferSize)
      ((checkpointTags filepath entries).map (· ++ lit "\n"))
    unfold listCheckpoints
    dsimp only
    split
    · refine hloop.append fun c hc => ?_
      obtain rfl := List.mem_singleton.mp hc
      refine ⟨?_, fun n hn => ?_⟩
      · have hwithin : (PrintCall.mk 0 (some (bufferSize - 0)) (lit "No checkpoints found.\n")).Within bufferSize :=
          PrintCall.within_snprintf_iff.mpr (Nat.zero_le _)
        simpa using hwithin
      · cases hn
        omega
    · exact hloop

/-- A tag that fills the buffer is cut, and the loop ends. -/
example : (listCheckpoints ⟨lit "dir/a", by decide⟩ 12
    (some [lit "a.checkpoint_one", lit "b", lit "a.checkpoint_eleven11", lit "a.checkpoint_x"])).2 =
      [⟨0, some 12, lit "one\n"⟩, ⟨4, some 8, lit "eleven11\n"⟩] := by decide

end NetworkFileShare
