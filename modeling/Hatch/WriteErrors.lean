import Hatch.WriteFile

/-!
# The error exits of `safe_write_file`

A negative result does not mean that nothing has happened. The temporary file is left behind after
a failed write, and after an `unlink` that fails; and once the rename has taken effect the value
is in the file, whatever becomes of the directory.
-/

namespace Hatch.FileMng

open ByteLayout CallScript FileCalls

variable {s t : Disk Bytes} {old new : Bytes → Option Bytes} {base file val : Bytes}

/-- The file has its old content, and the temporary file is not there if it was not there. -/
def Restored (base file : Bytes) (old new : Bytes → Option Bytes) : Prop :=
  new (joined base file) = old (joined base file) ∧
    (old (joined base file ++ tmpSuffix) = none → new (joined base file ++ tmpSuffix) = none)

/-- The exits that undo what was done. Printed paths are cut off at `PATH_MAX`: from 1020
characters on the temporary file has another name than the one with the suffix, with 1023 it is
the file itself, so that its old content is lost unless what is left happens to be the same, and
from 1024 on another file is replaced. -/
def Undone (base file val : Bytes) (old : Bytes → Option Bytes) : Exit → Prop
  | .upToDate | .noTmp _ => True
  | .notWritten _ left =>
      if (joined base file).length = 1023 then old (joined base file) = some left
      else 1020 ≤ (joined base file).length ∨ old (joined base file ++ tmpSuffix) ≠ none
  | .notSynced _ unlinked | .notRenamed _ unlinked =>
      if (joined base file).length = 1023 then
        old (joined base file) = if unlinked then none else some val
      else unlinked = true ∨ 1020 ≤ (joined base file).length ∨
        old (joined base file ++ tmpSuffix) ≠ none
  | .noDirectory _ | .directorySynced _ =>
      1024 ≤ (joined base file).length ∨ old (joined base file) = some val

/-! ### The printed paths -/

theorem length_joined_tmp (base file : Bytes) :
    (joined base file ++ tmpSuffix).length = (joined base file).length + 4 := List.length_append

theorem fnPath_of_lt (h : (joined base file).length < 1024) : fnPath base file = joined base file :=
  truncated_of_lt h

theorem tmpPath_of_lt (h : (joined base file).length < 1020) :
    tmpPath base file = joined base file ++ tmpSuffix := by
  apply truncated_of_lt
  rw [length_joined_tmp, pathMax]
  omega

/-- The name with the suffix is the temporary file's if it fits. -/
theorem suffixed_eq_tmpPath_iff (base file : Bytes) :
    joined base file ++ tmpSuffix = tmpPath base file ↔ (joined base file).length < 1020 := by
  constructor
  · intro h
    by_contra hlt
    exact ne_truncated (by rw [length_joined_tmp]; omega) _ h
  · exact fun h => (tmpPath_of_lt h).symm

/-- The temporary file is the file itself for one length only. -/
theorem joined_eq_tmpPath_iff (base file : Bytes) :
    joined base file = tmpPath base file ↔ (joined base file).length = 1023 := by
  have hlen : (tmpPath base file).length = min 1023 ((joined base file).length + 4) := by
    rw [← length_joined_tmp]
    exact List.length_take
  constructor
  · intro h
    have heq := congrArg List.length h
    omega
  · intro h
    have htake : tmpPath base file = (joined base file).take 1023 :=
      List.take_append_of_le_length h.ge
    rw [htake, List.take_of_length_le h.le]

theorem suffixed_ne_fnPath (base file : Bytes) :
    joined base file ++ tmpSuffix ≠ fnPath base file := by
  intro h
  have heq := congrArg List.length h
  have hle : (fnPath base file).length ≤ (joined base file).length := List.length_take_le' _ _
  rw [length_joined_tmp] at heq
  omega

/-! ### What each exit leaves -/

/-- A change of the temporary file alone. -/
theorem restored_update (c : Option Bytes) :
    Restored base file old (Function.update old (tmpPath base file) c) ↔
      if (joined base file).length = 1023 then old (joined base file) = c
      else c = none ∨ 1020 ≤ (joined base file).length ∨
        old (joined base file ++ tmpSuffix) ≠ none := by
  have hother (hge : ¬ (joined base file).length < 1020) :
      joined base file ++ tmpSuffix ≠ tmpPath base file :=
    fun h => hge ((suffixed_eq_tmpPath_iff base file).mp h)
  unfold Restored
  split
  · next heq =>
    rw [Function.update_of_ne (hother (by omega)), and_iff_left id,
      ← (joined_eq_tmpPath_iff base file).mpr heq, Function.update_self]
    exact eq_comm
  · next hne =>
    have hfile : Function.update old (tmpPath base file) c (joined base file) =
        old (joined base file) :=
      Function.update_of_ne (fun h => hne ((joined_eq_tmpPath_iff base file).mp h)) _ _
    rw [hfile]
    by_cases hlt : (joined base file).length < 1020
    · rw [← (suffixed_eq_tmpPath_iff base file).mpr hlt, Function.update_self]
      have hnot : ¬ 1020 ≤ (joined base file).length := by omega
      simp only [true_and, hnot, false_or]
      tauto
    · rw [Function.update_of_ne (hother hlt)]
      exact iff_of_true ⟨rfl, id⟩ (.inr (.inl (by omega)))

/-- A rename moves the temporary file away, so only the file itself counts. -/
theorem restored_renamed :
    Restored base file old (Function.update (Function.update old (tmpPath base file) none)
      (fnPath base file) (some val)) ↔
      1024 ≤ (joined base file).length ∨ old (joined base file) = some val := by
  have hsuffixed : old (joined base file ++ tmpSuffix) = none → Function.update
      (Function.update old (tmpPath base file) none) (fnPath base file) (some val)
        (joined base file ++ tmpSuffix) = none := by
    intro hnone
    rw [Function.update_of_ne (suffixed_ne_fnPath base file)]
    by_cases htmp : joined base file ++ tmpSuffix = tmpPath base file
    · rw [htmp, Function.update_self]
    · rw [Function.update_of_ne htmp, hnone]
  unfold Restored
  rw [and_iff_left hsuffixed]
  by_cases hlt : (joined base file).length < 1024
  · have hnot : ¬ 1024 ≤ (joined base file).length := by omega
    rw [fnPath_of_lt hlt, Function.update_self, or_iff_right hnot]
    exact eq_comm
  · have hge : 1024 ≤ (joined base file).length := by omega
    have hfn : joined base file ≠ fnPath base file := ne_truncated hge _
    have htmp : joined base file ≠ tmpPath base file := ne_truncated hge _
    rw [Function.update_of_ne hfn, Function.update_of_ne htmp]
    exact iff_of_true rfl (.inl hge)

theorem restored_iff_undone {x : Exit}
    (hx : x.Leaves old (fnPath base file) (tmpPath base file) val new) :
    Restored base file old new ↔ Undone base file val old x := by
  cases x with
  | upToDate | noTmp e =>
      rw [show new = old from hx]
      exact iff_of_true ⟨rfl, id⟩ trivial
  | notWritten ret left =>
      rw [show new = _ from hx, restored_update]
      simp [Undone]
  | notSynced e unlinked | notRenamed e unlinked =>
      rw [show new = _ from hx, restored_update]
      cases unlinked <;> simp [Undone]
  | noDirectory e | directorySynced ret =>
      rw [show new = _ from hx]
      exact restored_renamed

/-! ### Whole runs -/

/-- A run that returns leaves by some exit, and has restored the state just if the exit undoes what
was done. -/
theorem safeWriteFile_restores (s : Disk Bytes) (base file val : Bytes) (os rest : List Outcome)
    (ret : Int) (t : Disk Bytes) (hrun : safeWriteFile base file val os s = .done ret rest t) :
    ∃ x, safeWriteExit base file val os s = .done x rest t ∧ x.ret = ret ∧
      (Restored base file s.content t.content ↔ Undone base file val s.content x) := by
  rw [safeWriteFile_eq] at hrun
  obtain ⟨x, hexit, hx⟩ := map_eq_done hrun
  have hleaves := ((safeWriteExit_meets (A := fun _ => True) s base file val).post_of_done
    (fun _ _ => trivial) hexit).1
  exact ⟨x, hexit, hx, restored_iff_undone hleaves⟩

def emptyDisk : Disk Bytes := ⟨fun _ => none, fun _ => 0, 3, 0⟩

/-- A failed `fsync`, after which the temporary file is unlinked. -/
theorem safeWriteFile_restores_notSynced :
    ∃ t, safeWriteFile [100] [102] [1] [.fail .enoent, .ok 0, .ok 1, .fail .einval, .ok 0, .ok 0]
        emptyDisk = .done (-22) [] t ∧ Restored [100] [102] emptyDisk.content t.content := by
  refine ⟨_, rfl, ?_⟩
  obtain ⟨x, hexit, -, hrestored⟩ := safeWriteFile_restores emptyDisk [100] [102] [1]
    [.fail .enoent, .ok 0, .ok 1, .fail .einval, .ok 0, .ok 0] [] (-22) _ rfl
  obtain rfl : Exit.notSynced 22 true = x := (Run.done.inj hexit).1
  refine hrestored.mpr ?_
  rw [Undone, if_neg (by decide)]
  exact .inl rfl

/-- A full disk leaves the temporary file behind, and a directory that cannot be opened makes the
result negative although the file has been replaced. -/
theorem safeWriteFile_not_restored :
    (∃ t, safeWriteFile [100] [102] [1] [.fail .enoent, .ok 0, .fail ⟨28, Nat.succ_pos 27⟩, .ok 0]
        emptyDisk = .done (-28) [] t ∧ t.content (joined [100] [102] ++ tmpSuffix) = some []) ∧
      ∃ t, safeWriteFile [100] [102] [1]
          [.fail .enoent, .ok 0, .ok 1, .ok 0, .ok 0, .ok 0, .fail ⟨24, Nat.succ_pos 23⟩]
          emptyDisk = .done (-24) [] t ∧ t.content (joined [100] [102]) = some [1] :=
  ⟨⟨_, rfl, rfl⟩, _, rfl, rfl⟩

end Hatch.FileMng
