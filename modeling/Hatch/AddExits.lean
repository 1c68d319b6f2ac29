import Hatch.FileMng

/-!
# Whether a file has been appended

The result of `safe_copy` is overwritten in `safe_add_file`. Here the programs also say whether
the seek to the end, the read and the write they made went through, which is all that decides
whether the first buffer of the file has been appended.
-/

namespace Hatch.FileMng

open ByteLayout CallScript FileCalls

variable {P : Type} [DecidableEq P]

def copyFullExit (fdsrc fddes : Fd P) : Int × Bytes → Program P (Int × Bool ⊕ Int × Bytes) :=
  loop fun (len, buffer) =>
    if (bufferSize : Int) ≤ len then do
      let ret ← safeWrite fddes (buffer.take len.toNat)
      let s ← get
      if ret ≠ len then return .inr (.inl (s.errno, ret = 0))
      else do
        let next ← safeRead fdsrc bufferSize
        return .inl next
    else return .inr (.inr (len, buffer))

def safeCopyExit (fdsrc : Fd P) (offset1 : Int) (fddes : Fd P) (offset2 : Int) :
    Program P (Int × Bool) := do
  let _ ← lseekSet fdsrc offset1
  let _ ← lseekSet fddes offset2
  let first ← safeRead fdsrc bufferSize
  match ← copyFullExit fdsrc fddes first with
  | .inl (errno, written) => return (errno, written)
  | .inr (len, buffer) =>
      if 0 < len then do
        let ret ← safeWrite fddes (buffer.take len.toNat)
        let s ← get
        if ret ≠ len then return (s.errno, ret = 0) else return (0, ret = 0)
      else return (0, len = 0)

def safeAddFileExit (addfile mngfile : P) : Program P (Int × Bool) := do
  match ← openRead addfile with
  | none => do
      let s ← get
      return (-s.errno, false)
  | some fdadd => do
      match ← openWrite mngfile false with
      | none => do
          let s ← get
          let _ ← close fdadd
          return (-s.errno, false)
      | some fdmng => do
          let pos ← lseekEnd fdmng
          let (_, copied) ← safeCopyExit fdadd 0 fdmng pos
          let ret ← fsync fdmng
          let _ ← close fdadd
          let _ ← close fdmng
          let s ← get
          if ret < 0 then return (-s.errno, 0 ≤ pos && copied) else return (ret, 0 ≤ pos && copied)

theorem copyFull_eq (fdsrc fddes : Fd P) (first : Int × Bytes) :
    copyFull fdsrc fddes first = Sum.map Prod.fst id <$> copyFullExit fdsrc fddes first := by
  rw [copyFullExit, map_loop, copyFull]
  refine congrFun (congrArg loop (funext fun (len, buffer) => ?_)) first
  dsimp only
  split
  · simp only [map_bind]
    refine bind_congr fun ret => bind_congr fun s => ?_
    split
    · rfl
    · rw [map_bind]
      rfl
  · rfl

theorem safeCopy_eq (fdsrc : Fd P) (offset1 : Int) (fddes : Fd P) (offset2 : Int) :
    safeCopy fdsrc offset1 fddes offset2 =
      Prod.fst <$> safeCopyExit fdsrc offset1 fddes offset2 := by
  simp only [safeCopy, safeCopyExit, map_bind, copyFull_eq, bind_map_left]
  refine bind_congr fun _ => bind_congr fun _ => bind_congr fun first => bind_congr fun r => ?_
  cases r with
  | inl e => rfl
  | inr rest =>
      dsimp only [Sum.map_inr, id]
      split
      · simp only [map_bind]
        refine bind_congr fun ret => bind_congr fun s => ?_
        split <;> rfl
      · rfl

theorem safeAddFile_eq (addfile mngfile : P) :
    safeAddFile addfile mngfile = Prod.fst <$> safeAddFileExit addfile mngfile := by
  rw [safeAddFile, safeAddFileExit, map_bind]
  refine bind_congr fun opened => ?_
  cases opened with
  | none => rfl
  | some fdadd =>
      rw [map_bind]
      refine bind_congr fun opened => ?_
      cases opened with
      | none =>
          simp only [map_bind]
          rfl
      | some fdmng =>
          simp only [map_bind, safeCopy_eq, bind_map_left]
          refine bind_congr fun pos => bind_congr fun copied => bind_congr fun ret =>
            bind_congr fun _ => bind_congr fun _ => bind_congr fun s => ?_
          split <;> rfl

section Specs

variable {A : Outcome → Prop} {s : Disk P}

/-- What a flag tells; it is set if no call fails. -/
def Tells (A : Outcome → Prop) (p : Prop) (flag : Bool) : Prop :=
  (flag = true → p) ∧ ((∀ e, ¬ A (.fail e)) → flag = true)

/-- A failed read or write clears the flag. -/
theorem Tells.failed {e : Errno} (he : A (.fail e)) (p : Prop) :
    Tells A p (decide (-(e.code : Int) = 0)) := by
  refine ⟨fun h => ?_, fun h => absurd he (h e)⟩
  have hpos := e.pos
  have hzero := of_decide_eq_true h
  omega

/-- What `safe_copy` does with what it has read first. -/
def copyExit (fdsrc fddes : Fd P) (first : Int × Bytes) : Program P (Int × Bool) := do
  match ← copyFullExit fdsrc fddes first with
  | .inl (errno, written) => return (errno, written)
  | .inr (len, buffer) =>
      if 0 < len then do
        let ret ← safeWrite fddes (buffer.take len.toNat)
        let s ← get
        if ret ≠ len then return (s.errno, ret = 0) else return (0, ret = 0)
      else return (0, len = 0)

/-- A failed read ends the copy. -/
theorem copyExit_failed (fdsrc fddes : Fd P) {e : Errno} (he : A (.fail e)) (buf : Bytes)
    (p : Disk P → Prop) :
    Meets A (fun _ => True) (copyExit fdsrc fddes (-(e.code : Int), buf))
      (fun x t => Tells A (p t) x.2) s := by
  have hpos := e.pos
  have hsize : (0 : Int) ≤ bufferSize := by decide
  refine Meets.bind (Meets.loop (fun r _ => r = (-(e.code : Int), buf)) (fun _ _ _ => trivial)
    ?_ rfl)
  rintro _ t rfl
  dsimp only
  rw [if_neg (by omega)]
  refine Meets.pure ?_
  dsimp only [Sum.elim_inr]
  rw [if_neg (by omega)]
  exact Meets.pure (Tells.failed he _)

/-- What was read is written in one go, whatever is done with what the write returns. -/
theorem copyExit_meets (fdsrc : Fd P) {fddes : Fd P} {c : Bytes} (d : Bytes)
    (hc : s.content fddes.path = some c) (hoff : s.offset fddes.id = c.length) :
    Meets A (fun _ => True) (copyExit fdsrc fddes ((d.length : Int), d))
      (fun x t => Tells A
        (t.content = Function.update s.content fddes.path (some (c ++ d))) x.2) s := by
  have hwrite (Q : Int → Disk P → Prop) (hf : ∀ e t, A (.fail e) → Q (-(e.code : ℕ)) t)
      (hs : ∀ t, t.content = Function.update s.content fddes.path (some (c ++ d)) → Q 0 t) :
      Meets A (fun _ => True) (safeWrite fddes (d.take (d.length : Int).toNat)) Q s := by
    rw [Int.toNat_natCast, List.take_length]
    exact safeWrite_meets hc hoff (fun _ _ _ => trivial) (fun e _ t he _ _ => hf e t he)
      fun t ht => hs t ht.content
  refine Meets.bind (Meets.loop (fun r t => r = ((d.length : Int), d) ∧ t = s)
    (fun _ _ _ => trivial) ?_ ⟨rfl, rfl⟩)
  rintro _ _ ⟨rfl, rfl⟩
  dsimp only
  split
  · rename_i hfull
    have hsize : 0 < bufferSize := by decide
    refine Meets.bind (hwrite _ (fun e t he => Meets.bind (Meets.get ?_))
      fun t ht => Meets.bind (Meets.get ?_))
    · have hpos := e.pos
      rw [if_pos (by omega)]
      refine Meets.pure ?_
      dsimp only [Sum.elim_inr]
      exact Meets.pure (Tells.failed he _)
    · rw [if_pos (by omega)]
      refine Meets.pure ?_
      dsimp only [Sum.elim_inr]
      exact Meets.pure ⟨fun _ => ht, fun _ => rfl⟩
  · refine Meets.pure ?_
    dsimp only [Sum.elim_inr]
    split
    · refine Meets.bind (hwrite _ (fun e t he => Meets.bind (Meets.get ?_))
        fun t ht => Meets.bind (Meets.get ?_))
      · have hpos := e.pos
        rw [if_pos (by omega)]
        exact Meets.pure (Tells.failed he _)
      · rw [if_pos (by omega)]
        exact Meets.pure ⟨fun _ => ht, fun _ => rfl⟩
    · rename_i hempty
      obtain rfl : d = [] := List.eq_nil_of_length_eq_zero (by omega)
      refine Meets.pure ⟨fun _ => ?_, fun _ => rfl⟩
      rw [List.append_nil, ← hc, Function.update_eq_self]

theorem safeCopyExit_meets {fdsrc fddes : Fd P} (hfd : fdsrc.id ≠ fddes.id) {add c : Bytes}
    (ha : s.content fdsrc.path = some add) (hc : s.content fddes.path = some c)
    (hsrc : s.offset fdsrc.id = 0) (hdes : s.offset fddes.id = c.length) :
    Meets A (fun _ => True) (safeCopyExit fdsrc 0 fddes c.length)
      (fun x t => Tells A (t.content = Function.update s.content fddes.path
        (some (c ++ add.take bufferSize))) x.2) s := by
  refine Meets.bind (lseekSet_stays (n := 0) hsrc trivial fun _ t hct hot => ?_)
  refine Meets.bind (lseekSet_stays (by rw [hot, hdes]) trivial fun _ u hcu hou => ?_)
  rw [hct] at hcu
  rw [hot] at hou
  have hahead : u.ahead fdsrc = add := by
    rw [Disk.ahead, hcu, hou, ha, hsrc]
    rfl
  refine Meets.bind (safeRead_meets (fun _ _ _ => trivial)
    (fun e v buf he _ _ => copyExit_failed fdsrc fddes he buf _) fun v hv => ?_)
  rw [hahead] at hv ⊢
  have hcv : v.content = s.content := hv.content.trans hcu
  have hov : v.offset fddes.id = c.length := by
    rw [hv.offset, Function.update_of_ne hfd.symm, hou, hdes]
  rw [← hcv]
  exact copyExit_meets fdsrc (add.take bufferSize) (hcv ▸ hc) hov

/-- Opening the managed file leaves `addfile` as it is, also if the two are the same. -/
theorem content_addfile {addfile : P} {add : Bytes} (ha : s.content addfile = some add)
    (mngfile : P) :
    (s.opened.opened.store mngfile (some ((s.content mngfile).getD []))).content addfile =
      some add := by
  rw [store_content]
  by_cases h : addfile = mngfile
  · rw [h, Function.update_self, ← h, ha, Option.getD_some]
  · rw [Function.update_of_ne h]
    exact ha

omit [DecidableEq P] in
/-- What follows the copy changes no file. -/
theorem syncFiles_meets {Q : Int × Bool → Disk P → Prop} (fdadd fdmng : Fd P) (added : Bool)
    (hq : ∀ ret t, t.content = s.content → Q (ret, added) t) :
    Meets A (fun _ => True) (do
      let ret ← fsync fdmng
      let _ ← close fdadd
      let _ ← close fdmng
      let s ← get
      if ret < 0 then return (-s.errno, added) else return (ret, added) :
        Program P (Int × Bool)) Q s := by
  have hclose (ret : Int) {t : Disk P} (ht : t.content = s.content) :
      Meets A (fun _ => True) (do
        let _ ← close fdadd
        let _ ← close fdmng
        let s ← get
        if ret < 0 then return (-s.errno, added) else return (ret, added) :
          Program P (Int × Bool)) Q t := by
    refine Meets.bind (close_meets trivial fun _ u hu => ?_)
    refine Meets.bind (close_meets trivial fun _ v hv => Meets.bind (Meets.get ?_))
    have hcv : v.content = s.content := hv.trans (hu.trans ht)
    split
    · exact Meets.pure (hq _ v hcv)
    · exact Meets.pure (hq _ v hcv)
  exact Meets.bind (fsync_meets trivial (fun e _ => hclose (-1) rfl) (hclose 0 rfl))

/-- The flag tells that the first buffer of `addfile` has been appended and nothing else has
changed; it is set if no call fails and the file is there. -/
theorem safeAddFileExit_meets (hA : (∀ e, ¬ A (.fail e)) ∨ ∀ o, A o) (s : Disk P)
    (addfile mngfile : P) :
    Meets A (fun _ => True) (safeAddFileExit addfile mngfile)
      (fun x t => (x.2 = true → ∃ add, s.content addfile = some add ∧
        t.content = Function.update s.content mngfile
          (some ((s.content mngfile).getD [] ++ add.take bufferSize))) ∧
        ((∀ e, ¬ A (.fail e)) → s.content addfile ≠ none → x.2 = true)) s := by
  refine Meets.bind (openRead_meets trivial (fun e he => ?_) (fun hn => ?_) fun add ha => ?_)
  · exact Meets.bind (Meets.get (Meets.pure ⟨nofun, fun h => absurd he (h e)⟩))
  · exact Meets.bind (Meets.get (Meets.pure ⟨nofun, fun _ h => absurd hn h⟩))
  refine Meets.bind (openWrite_meets trivial (fun e he => ?_) ?_)
  · refine Meets.bind (Meets.get (Meets.bind (close_meets trivial fun _ _ _ => Meets.pure ?_)))
    exact ⟨nofun, fun h => absurd he (h e)⟩
  simp only [opened_content, Bool.false_eq_true, if_false]
  have hsrc := content_addfile ha mngfile
  generalize (s.content mngfile).getD [] = old at hsrc ⊢
  have hdes : (s.opened.opened.store mngfile (some old)).content mngfile = some old :=
    Function.update_self _ _ _
  refine Meets.bind (lseekEnd_meets hdes trivial (fun e he => ?_) ?_)
  · -- the copy may then overwrite the managed file, but the flag is not set
    rcases hA with hnone | hall
    · exact absurd he (hnone e)
    refine Meets.bind (Meets.of_forall hall _ fun x t => ?_)
    exact syncFiles_meets _ _ _ fun ret u _ => ⟨nofun, fun h => absurd he (h e)⟩
  refine Meets.bind ((safeCopyExit_meets ?_ hsrc hdes ?_ ?_).mono fun x t ht => ?_)
  · simp [Disk.opened]
  · simp [Disk.opened]
  · simp
  refine syncFiles_meets _ _ _ fun ret u hu => ?_
  have hpos : decide ((0 : Int) ≤ (old.length : Int)) = true := by simp
  dsimp only
  rw [hpos, Bool.true_and]
  refine ⟨fun h => ⟨add, ha, ?_⟩, fun h _ => ht.2 h⟩
  rw [hu, ht.1 h]
  simp only [moved_content, store_content, Function.update_idem]
  rfl

end Specs

end Hatch.FileMng
