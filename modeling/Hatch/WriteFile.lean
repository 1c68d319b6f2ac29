import Hatch.WriteExits

/-!
# Replacing a file by a value

`safe_write_file` writes to a temporary file and renames it, so the target holds its old
content or the value at every moment. What it returns is less reliable: the comparison with
the old content reads only 80 bytes of it, and a path that does not fit `PATH_MAX` is cut
off, so that another file is replaced.
-/

namespace Hatch.FileMng

open ByteLayout CallScript FileCalls

variable {A : Outcome → Prop} {s t : Disk Bytes} {old : Bytes → Option Bytes}
  {base file fn tmp val : Bytes}

/-- What `safe_read_file` returns if it does not fail: the first bytes of the file. -/
theorem safeReadFile_meets {I : Disk Bytes → Prop} {Q : Int × Bytes → Disk Bytes → Prop}
    {vallen : ℕ} (hi : ∀ t, t.content = s.content → I t)
    (hf : ∀ e : Errno, ∀ buf t, t.content = s.content → Q (-(e.code : ℕ), buf) t)
    (hs : ∀ c t, s.content (fnPath base file) = some c → t.content = s.content →
      Q ((c.take vallen).length, c.take vallen) t) :
    Meets A I (safeReadFile base file vallen) Q s := by
  refine Meets.bind (openRead_meets (hi s rfl) (fun e _ => Meets.bind (Meets.get (Meets.pure ?_)))
    (fun _ => Meets.bind (Meets.get (Meets.pure ?_))) fun c hc => ?_)
  · exact hf e [] _ rfl
  · exact hf .enoent [] _ rfl
  have hahead : s.opened.ahead ⟨s.next, fnPath base file⟩ = c := by
    simp [Disk.ahead, Disk.opened, hc]
  refine Meets.bind (safeRead_meets (fun _ t ht => hi t ht.content) (fun e t buf _ _ ht => ?_)
    fun t ht => ?_)
  · refine Meets.bind (close_meets (hi t ht.content) fun _ u hu => Meets.pure ?_)
    exact hf e buf u (hu.trans ht.content)
  · refine Meets.bind (close_meets (hi t ht.content) fun _ u hu => Meets.pure ?_)
    rw [hahead]
    exact hs c u hc (hu.trans ht.content)

theorem intOfSize_of_le {n : ℕ} (h : n ≤ oldvalSize) : intOfSize n = n := by
  unfold oldvalSize at h
  rw [intOfSize, BitVec.toInt_eq_toNat_of_lt, BitVec.toNat_ofNat, Nat.mod_eq_of_lt (by omega)]
  rw [BitVec.toNat_ofNat]
  omega

/-- The comparison with the old content is misled: the content is longer than the buffer,
and the value is just what fits the buffer. -/
def Misled (old : Option Bytes) (val : Bytes) : Prop :=
  ∃ c, old = some c ∧ oldvalSize < c.length ∧ c.take oldvalSize = val

/-- What each exit leaves; a return of zero means the value, unless the comparison is misled. -/
theorem safeWriteExit_meets (s : Disk Bytes) (base file val : Bytes) :
    Meets A (Kept s.content (fnPath base file) (tmpPath base file) val)
      (safeWriteExit base file val)
      (fun x t => x.Leaves s.content (fnPath base file) (tmpPath base file) val t.content ∧
        (x.ret = 0 → ¬ Misled (s.content (fnPath base file)) val →
          t.content (fnPath base file) = some val)) s := by
  have hreplace {t : Disk Bytes} (ht : t.content = s.content) :
      Meets A (Kept s.content (fnPath base file) (tmpPath base file) val)
        (replaceExit base file val)
        (fun x t => x.Leaves s.content (fnPath base file) (tmpPath base file) val t.content ∧
          (x.ret = 0 → ¬ Misled (s.content (fnPath base file)) val →
            t.content (fnPath base file) = some val)) t := by
    have h := replaceExit_meets (A := A) t base file val
    rw [ht] at h
    refine h.mono fun x u hx => ⟨hx.1, fun hret _ => ?_⟩
    have hleft := hx.1
    rw [hx.2 hret] at hleft
    rw [show u.content = _ from hleft, Function.update_self]
  refine Meets.bind (safeReadFile_meets (fun t ht => .of_content ht) ?_ ?_)
  · intro e buf t ht
    simp only
    split
    · rename_i heq
      split
      · exact Meets.undefined (.of_content ht)
      · rename_i hle
        rw [intOfSize_of_le (by omega)] at heq
        have := e.pos
        omega
    · exact hreplace ht
  · intro c t hc ht
    simp only
    split
    · rename_i heq
      split
      · exact Meets.undefined (.of_content ht)
      · rename_i hle
        rw [intOfSize_of_le (by omega)] at heq
        split
        · rename_i hval
          refine Meets.pure ⟨ht, fun _ hm => ?_⟩
          rw [List.take_of_length_le (by omega)] at hval
          by_cases hlong : oldvalSize < c.length
          · exact absurd ⟨c, hc, hlong, hval⟩ hm
          · rw [List.take_of_length_le (by omega)] at hval
            rw [ht, hc, hval]
        · exact hreplace ht
    · exact hreplace ht

theorem safeWriteFile_meets (s : Disk Bytes) (base file val : Bytes) :
    Meets A (Kept s.content (fnPath base file) (tmpPath base file) val)
      (safeWriteFile base file val)
      (fun ret t => Kept s.content (fnPath base file) (tmpPath base file) val t ∧
        (ret = 0 → ¬ Misled (s.content (fnPath base file)) val →
          t.content (fnPath base file) = some val)) s := by
  rw [safeWriteFile_eq]
  exact ((safeWriteExit_meets s base file val).mono fun x t hx => ⟨hx.1.kept, hx.2⟩).map

theorem truncated_of_lt {path : Bytes} (h : path.length < pathMax) : truncated path = path := by
  unfold pathMax at h
  exact List.take_of_length_le (show path.length ≤ 1023 by omega)

theorem length_truncated_lt (path : Bytes) : (truncated path).length < pathMax := by
  rw [truncated, List.length_take, pathMax]
  omega

/-- A printed path is shorter than `PATH_MAX`. -/
theorem ne_truncated {path : Bytes} (h : 1024 ≤ path.length) (other : Bytes) :
    path ≠ truncated other := by
  intro heq
  have hlt := length_truncated_lt other
  rw [← heq, pathMax] at hlt
  omega

/-- A target with a path that fits together with the suffix holds its old content or the
value at every moment, wherever the program is stopped and however its calls turn out. -/
theorem safeWriteFile_atomic (s : Disk Bytes) (base file val : Bytes)
    (hfit : (joined base file ++ tmpSuffix).length < 1024) (os : List Outcome) :
    let t := (safeWriteFile base file val os s).state
    t.content (joined base file) = s.content (joined base file) ∨
      t.content (joined base file) = some val := by
  have hlen : (joined base file ++ tmpSuffix).length = (joined base file).length + 4 :=
    List.length_append
  have hfn : fnPath base file = joined base file := truncated_of_lt (by rw [pathMax]; omega)
  have htmp : tmpPath base file = joined base file ++ tmpSuffix := truncated_of_lt hfit
  have hne : joined base file ≠ joined base file ++ tmpSuffix := by
    intro h
    have := congrArg List.length h
    omega
  have hm := safeWriteFile_meets (A := fun _ => True) s base file val
  rw [hfn, htmp] at hm
  exact ((hm.mono fun _ _ h => h.1).state (fun _ _ => trivial)).target hne

/-- The first write of two bytes out of three, and then a stop. -/
theorem safeWriteFile_atomic_stopped :
    let t := (safeWriteFile [100] [102] [1, 2, 3] [.fail .enoent, .ok 0, .ok 2]
      ⟨fun _ => none, fun _ => 0, 3, 0⟩).state
    t.content [100, 47, 102, 46, 116, 109, 112] = some [1, 2] ∧
      (t.content (joined [100] [102]) = none ∨ t.content (joined [100] [102]) = some [1, 2, 3]) :=
  ⟨rfl, safeWriteFile_atomic ⟨fun _ => none, fun _ => 0, 3, 0⟩ [100] [102] [1, 2, 3] (by decide)
    [.fail .enoent, .ok 0, .ok 2]⟩

theorem safeReadFile_returns {c : Bytes} (hc : s.content (fnPath base file) = some c) {count : ℕ}
    (hpos : 0 < count) (hlen : count ≤ c.length) :
    ∃ t, t.content = s.content ∧ Returns (safeReadFile base file count) [.ok 0, .ok count, .ok 0] s
      (count, c.take count) t := by
  have hahead : s.opened.ahead ⟨s.next, fnPath base file⟩ = c := by
    simp [Disk.ahead, Disk.opened, hc]
  obtain ⟨t, ht, hread⟩ := safeRead_returns s.opened ⟨s.next, fnPath base file⟩ hpos
    (by rw [hahead]; exact hlen)
  rw [hahead] at hread
  refine ⟨t, ht.content, Returns.call_bind ?_⟩
  simp only [hc]
  exact Returns.bind hread (Returns.call_bind (Returns.pure _ _))

/-- A script of successful calls on which the target is replaced. -/
theorem replaceFile_returns (s : Disk Bytes) (base file val : Bytes) :
    ∃ os t, Returns (replaceFile base file val) os s 0 t := by
  obtain ⟨os, t, -, ht, hwrite⟩ := safeWrite_returns (c := [])
    (s.opened.store (tmpPath base file) (some [])) ⟨s.next, tmpPath base file⟩ val
    (Function.update_self _ _ _) (Function.update_self _ _ _)
  have hct : t.content (tmpPath base file) = some val := by
    rw [ht.content]
    exact Function.update_self _ _ _
  refine ⟨.ok 0 :: (os ++ [.ok 0, .ok 0, .ok 0, .ok 0, .ok 0, .ok 0]),
    ((t.store (tmpPath base file) none).store (fnPath base file) (some val)).opened,
    Returns.call_bind (Returns.bind hwrite ?_)⟩
  rw [if_neg (by decide)]
  refine Returns.call_bind (Returns.get_bind (Returns.call_bind ?_))
  simp only [lt_irrefl, if_false]
  refine Returns.call_bind ?_
  simp only [hct]
  refine Returns.get_bind ?_
  simp only [lt_irrefl, if_false]
  exact Returns.call_bind (Returns.call_bind (Returns.get_bind (Returns.call_bind
    (Returns.pure _ _))))

/-- Some script makes `safe_write_file` return zero: the old content cannot be read, and the
target is replaced. -/
theorem safeWriteFile_returns (s : Disk Bytes) (base file val : Bytes) :
    ∃ os t, Returns (safeWriteFile base file val) os s 0 t := by
  obtain ⟨e, he⟩ : ∃ e : Errno, -(e.code : Int) ≠ intOfSize val.length := by
    by_cases h : -(Errno.enoent.code : Int) = intOfSize val.length
    · exact ⟨.eintr, fun h' => absurd (h'.trans h.symm) (by decide)⟩
    · exact ⟨.enoent, h⟩
  obtain ⟨os, t, hr⟩ := replaceFile_returns (s.failed e) base file val
  have hread : Returns (safeReadFile base file oldvalSize) [.fail e] s (-(e.code : Int), [])
      (s.failed e) := Returns.call_bind (Returns.get_bind (Returns.pure _ _))
  refine ⟨[.fail e] ++ os, t, Returns.bind hread ?_⟩
  simp only
  rw [if_neg he]
  exact hr

/-- If the value is what `oldval` takes of a longer content, nothing is written. -/
theorem safeWriteFile_shortcut {c : Bytes} (hc : s.content (fnPath base file) = some c)
    (hlong : oldvalSize < c.length) :
    ∃ os t, t.content = s.content ∧
      Returns (safeWriteFile base file (c.take oldvalSize)) os s 0 t := by
  have hlen : (c.take oldvalSize).length = oldvalSize := List.length_take_of_le hlong.le
  obtain ⟨t, ht, hread⟩ := safeReadFile_returns hc (by decide) hlong.le
  refine ⟨[.ok 0, .ok oldvalSize, .ok 0] ++ [], t, ht, Returns.bind hread ?_⟩
  simp only [hlen]
  rw [if_pos (by decide), if_neg (by decide), if_pos (List.take_of_length_le hlen.le)]
  exact Returns.pure _ _

/-- Whatever the system calls do, a return of zero means that the file holds the value just
if the path fits `PATH_MAX` and the comparison is not misled by a longer content, or the path
does not fit and the file already holds the value. -/
theorem safeWriteFile_holds_iff (s : Disk Bytes) (base file val : Bytes) :
    (∀ os rest t, safeWriteFile base file val os s = .done 0 rest t →
      t.content (joined base file) = some val) ↔
      if (joined base file).length < 1024 then
        ¬ ∃ c, s.content (joined base file) = some c ∧ 80 < c.length ∧ c.take 80 = val
      else s.content (joined base file) = some val := by
  have hm := safeWriteFile_meets (A := fun _ => True) s base file val
  split
  · rename_i hfit
    have hfn : fnPath base file = joined base file := truncated_of_lt hfit
    rw [hfn] at hm
    constructor
    · rintro h ⟨c, hc, hlong, hval⟩
      obtain ⟨os, t, ht, hr⟩ := safeWriteFile_shortcut (hfn.symm ▸ hc) hlong
      rw [show c.take oldvalSize = val from hval] at hr
      have hval' := h _ _ t (hr [])
      rw [ht, hc, Option.some.injEq] at hval'
      have hlen := congrArg List.length hval
      rw [← hval', List.length_take] at hlen
      omega
    · intro hn os rest t hr
      exact (hm.post_of_done (fun _ _ => trivial) hr).2 rfl hn
  · rename_i hfit
    have hother {t : Disk Bytes}
        (hk : Kept s.content (fnPath base file) (tmpPath base file) val t) :
        t.content (joined base file) = s.content (joined base file) :=
      hk.other _ (ne_truncated (by omega) _) (ne_truncated (by omega) _)
    constructor
    · intro h
      obtain ⟨os, t, hr⟩ := safeWriteFile_returns s base file val
      have hdone := hr []
      rw [← hother (hm.post_of_done (fun _ _ => trivial) hdone).1]
      exact h _ _ t hdone
    · intro hs os rest t hr
      rw [hother (hm.post_of_done (fun _ _ => trivial) hr).1, hs]

def oneFile (c : Bytes) : Disk Bytes where
  content := fun p => if p = [100, 47, 102] then some c else none
  offset := fun _ => 0
  next := 3
  errno := 0

/-- A file of 81 bytes is left as it is although its first 80 bytes were to be its content. -/
theorem safeWriteFile_keeps_byte :
    ∃ os t, safeWriteFile [100] [102] (List.replicate 80 7) os (oneFile (List.replicate 81 7)) =
        .done 0 [] t ∧ t.content (joined [100] [102]) = some (List.replicate 81 7) := by
  have hc : (oneFile (List.replicate 81 7)).content (fnPath [100] [102]) =
      some (List.replicate 81 7) := rfl
  obtain ⟨os, t, ht, hr⟩ := safeWriteFile_shortcut hc (by decide)
  refine ⟨os ++ [], t, hr [], ?_⟩
  rw [ht]
  rfl

end Hatch.FileMng
