import Hatch.AddExits

/-!
# Appending a file to the managed file

`safe_copy` compares what `safe_write` returns, zero on success, with the number of bytes it
has read. So it gives up after the first write whether that has succeeded or not, and
`safe_add_file` appends at most one buffer.
-/

namespace Hatch.FileMng

open ByteLayout CallScript FileCalls

variable {P : Type} [DecidableEq P]

/-- With successful calls `safe_add_file` appends the first buffer of `addfile`; the two
files may be the same. -/
theorem safeAddFile_meets {s : Disk P} {addfile mngfile : P} {add : Bytes}
    (ha : s.content addfile = some add) :
    Meets Outcome.Succeeds (fun _ => True) (safeAddFile addfile mngfile)
      (fun _ t => t.content mngfile =
        some ((s.content mngfile).getD [] ++ add.take bufferSize)) s := by
  have hnone (e : Errno) : ¬ Outcome.Succeeds (.fail e) := id
  rw [safeAddFile_eq]
  refine ((safeAddFileExit_meets (.inl hnone) s addfile mngfile).mono fun x t hx => ?_).map
  have hflag : x.2 = true := hx.2 hnone (ha ▸ Option.some_ne_none add)
  obtain ⟨add', ha', ht⟩ := hx.1 hflag
  obtain rfl : add = add' := Option.some.inj (ha.symm.trans ha')
  rw [ht, Function.update_self]

theorem safeCopy_returns (fdsrc fddes : Fd P) (hfd : fdsrc.id ≠ fddes.id) {s : Disk P}
    {add c : Bytes} (ha : s.content fdsrc.path = some add) (hc : s.content fddes.path = some c)
    (hlen : bufferSize ≤ add.length) :
    ∃ os ret t, (∀ o ∈ os, o.Succeeds) ∧
      Returns (safeCopy fdsrc 0 fddes c.length) os s ret t := by
  have hahead : ((s.moved fdsrc 0).moved fddes c.length).ahead fdsrc = add := by
    simp [Disk.ahead, ha, hfd]
  obtain ⟨t, ht, hread⟩ := safeRead_returns
    ((s.moved fdsrc 0).moved fddes c.length) fdsrc (by decide : 0 < bufferSize)
    (by rw [hahead]; exact hlen)
  rw [hahead] at hread
  have hct : t.content fddes.path = some c := by rw [ht.content]; exact hc
  have hofft : t.offset fddes.id = c.length := by
    rw [ht.offset, Function.update_of_ne hfd.symm, moved_offset, Function.update_self]
  obtain ⟨os, u, hos, -, hwrite⟩ := safeWrite_returns t fddes
    ((add.take bufferSize).take ((bufferSize : ℕ) : Int).toNat) hct hofft
  refine ⟨.ok 0 :: .ok 0 :: ([.ok bufferSize] ++ (os ++ [] ++ [])), u.errno, u, ?_, ?_⟩
  · simpa [or_imp, forall_and] using hos
  · refine Returns.call_bind (Returns.call_bind (Returns.bind hread ?_))
    refine Returns.bind (a := .inl (u.errno : Int)) (t := u) (Returns.loop_done ?_)
      (Returns.pure _ _)
    simp only [le_refl, if_true]
    refine Returns.bind hwrite (Returns.get_bind ?_)
    rw [if_pos (by decide)]
    exact Returns.pure _ _

theorem safeAddFile_returns {s : Disk P} {addfile : P} (mngfile : P) {add : Bytes}
    (ha : s.content addfile = some add) (hlen : bufferSize ≤ add.length) :
    ∃ os ret t, (∀ o ∈ os, o.Succeeds) ∧ Returns (safeAddFile addfile mngfile) os s ret t := by
  have hsrc := content_addfile ha mngfile
  generalize hold : (s.content mngfile).getD [] = old at hsrc
  have hdes : (s.opened.opened.store mngfile (some old)).content mngfile = some old :=
    Function.update_self _ _ _
  obtain ⟨os, ret, t, hos, hcopy⟩ := safeCopy_returns ⟨s.next, addfile⟩
    ⟨s.next + 1, mngfile⟩ (by simp)
    (s := (s.opened.opened.store mngfile (some old)).moved ⟨s.next + 1, mngfile⟩ old.length)
    hsrc hdes hlen
  refine ⟨.ok 0 :: .ok 0 :: .ok 0 :: (os ++ [.ok 0, .ok 0, .ok 0]), 0, t, ?_, ?_⟩
  · simpa [or_imp, forall_and] using hos
  · refine Returns.call_bind ?_
    simp only [ha]
    refine Returns.call_bind (Returns.call_bind ?_)
    simp only [opened_content, hold, Bool.false_eq_true, if_false, hdes, Option.getD_some]
    refine Returns.bind hcopy ?_
    exact Returns.call_bind (Returns.call_bind (Returns.call_bind (Returns.pure _ _)))

/-- On a file system where every call succeeds, the managed file ends up as its old content
followed by the whole of `addfile` just if `addfile` fits one buffer. -/
theorem safeAddFile_appends_iff {P : Type} [DecidableEq P] (s : Disk P) (addfile mngfile : P)
    (add : Bytes) (ha : s.content addfile = some add) :
    (∀ os, (∀ o ∈ os, o.Succeeds) → ∀ ret rest t,
      safeAddFile addfile mngfile os s = .done ret rest t →
        t.content mngfile = some ((s.content mngfile).getD [] ++ add)) ↔ add.length ≤ 8192 := by
  constructor
  · intro h
    by_contra hlen
    obtain ⟨os, ret, t, hos, hr⟩ := safeAddFile_returns mngfile ha
      (show bufferSize ≤ add.length by unfold bufferSize; omega)
    have hrun := hr []
    rw [List.append_nil] at hrun
    have hwhole := h os hos ret [] t hrun
    rw [(safeAddFile_meets ha).post_of_done hos hrun, Option.some.injEq,
      List.append_cancel_left_eq] at hwhole
    have := congrArg List.length hwhole
    rw [List.length_take, bufferSize] at this
    omega
  · intro hlen os hos ret rest t hr
    rw [(safeAddFile_meets ha).post_of_done hos hr,
      List.take_of_length_le (show add.length ≤ bufferSize from hlen)]

def twoFiles (add mng : Bytes) : Disk Bool where
  content := fun p => some (if p then mng else add)
  offset := fun _ => 0
  next := 3
  errno := 0

/-- Two bytes are appended to three. -/
theorem safeAddFile_appends_two :
    (twoFiles [1, 2] [3, 4, 5]).content false = some [1, 2] ∧
      ∀ os, (∀ o ∈ os, o.Succeeds) → ∀ ret rest t,
        safeAddFile false true os (twoFiles [1, 2] [3, 4, 5]) = .done ret rest t →
          t.content true = some [3, 4, 5, 1, 2] :=
  ⟨rfl, (safeAddFile_appends_iff (twoFiles [1, 2] [3, 4, 5]) false true [1, 2] rfl).mpr
    (by decide)⟩

/-- Of a file of 8193 bytes the last one is not appended. -/
theorem safeAddFile_drops_byte :
    ∃ os ret t, (∀ o ∈ os, o.Succeeds) ∧
      safeAddFile false true os (twoFiles (List.replicate 8193 7) []) = .done ret [] t ∧
        t.content true = some (List.replicate 8192 7) := by
  have ha : (twoFiles (List.replicate 8193 7) []).content false =
      some (List.replicate 8193 7) := rfl
  obtain ⟨os, ret, t, hos, hr⟩ := safeAddFile_returns true ha
    (by rw [List.length_replicate]; decide)
  have hrun := hr []
  rw [List.append_nil] at hrun
  refine ⟨os, ret, t, hos, hrun, ?_⟩
  rw [(safeAddFile_meets ha).post_of_done hos hrun, List.take_replicate]
  rfl

end Hatch.FileMng
