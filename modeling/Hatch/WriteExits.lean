import Hatch.FileMng

/-!
# The exits of `safe_write_file`

`replaceExit` is `replaceFile` with the place at which it returns in the place of the result.
Where it returns determines what it leaves on the disk.
-/

namespace Hatch.FileMng

open ByteLayout CallScript FileCalls

variable {A : Outcome → Prop} {s t : Disk Bytes} {old : Bytes → Option Bytes}
  {base file fn tmp val : Bytes}

/-- The places at which `safe_write_file` returns, with the error number and what a failed write has
left in the temporary file or, where it was tried, whether that was unlinked. -/
inductive Exit where
  | upToDate
  | noTmp (errno : ℕ)
  | notWritten (ret : Int) (left : Bytes)
  | notSynced (errno : ℕ) (unlinked : Bool)
  | notRenamed (errno : ℕ) (unlinked : Bool)
  | noDirectory (errno : ℕ)
  | directorySynced (ret : Int)

def Exit.ret : Exit → Int
  | .upToDate => 0
  | .noTmp errno | .notSynced errno _ | .notRenamed errno _ | .noDirectory errno => -errno
  | .notWritten ret _ | .directorySynced ret => ret

def replaceExit (base file val : Bytes) : Program Bytes Exit := do
  match ← openWrite (tmpPath base file) true with
  | none => do
      let s ← get
      return .noTmp s.errno
  | some fd => do
      let ret ← safeWrite fd val
      if ret ≠ 0 then do
        let s ← get
        let _ ← close fd
        return .notWritten ret ((s.content (tmpPath base file)).getD [])
      else do
        let ret ← fsync fd
        let s ← get
        let _ ← close fd
        if ret < 0 then do
          let r ← unlink (tmpPath base file)
          return .notSynced s.errno (r = 0)
        else do
          let ret ← rename (tmpPath base file) (fnPath base file)
          let s ← get
          if ret < 0 then do
            let r ← unlink (tmpPath base file)
            return .notRenamed s.errno (r = 0)
          else do
            match ← openDirectory base with
            | none => do
                let s ← get
                return .noDirectory s.errno
            | some fd => do
                let ret ← fsync fd
                let s ← get
                let _ ← close fd
                if ret < 0 then return .directorySynced (-s.errno)
                else return .directorySynced ret

def safeWriteExit (base file val : Bytes) : Program Bytes Exit := do
  let (ret, oldval) ← safeReadFile base file oldvalSize
  if ret = intOfSize val.length then
    if oldvalSize < val.length then undefined
    else if oldval.take val.length = val then return .upToDate
    else replaceExit base file val
  else replaceExit base file val

/-- `replaceFile` returns what its exit returns. -/
theorem replaceFile_eq (base file val : Bytes) :
    replaceFile base file val = Exit.ret <$> replaceExit base file val := by
  rw [replaceExit, map_bind]
  refine bind_congr fun opened => ?_
  cases opened with
  | none => rfl
  | some fd =>
      rw [map_bind]
      refine bind_congr fun ret => ?_
      split
      · simp only [map_bind]
        rfl
      simp only [map_bind]
      refine bind_congr fun ret => bind_congr fun s => bind_congr fun _ => ?_
      split
      · rw [map_bind]
        rfl
      simp only [map_bind]
      refine bind_congr fun ret => bind_congr fun s => ?_
      split
      · rw [map_bind]
        rfl
      rw [map_bind]
      refine bind_congr fun opened => ?_
      cases opened with
      | none => rfl
      | some fd =>
          simp only [map_bind]
          refine bind_congr fun ret => bind_congr fun s => bind_congr fun _ => ?_
          split <;> rfl

theorem safeWriteFile_eq (base file val : Bytes) :
    safeWriteFile base file val = Exit.ret <$> safeWriteExit base file val := by
  rw [safeWriteExit, map_bind]
  refine bind_congr fun (ret, oldval) => ?_
  dsimp only
  split
  · split
    · rfl
    split
    · rfl
    · exact replaceFile_eq base file val
  · exact replaceFile_eq base file val

/-- Of the old content at most that of the temporary file has changed, or the target has
become the value. -/
structure Kept (old : Bytes → Option Bytes) (fn tmp val : Bytes) (t : Disk Bytes) : Prop where
  target : fn ≠ tmp → t.content fn = old fn ∨ t.content fn = some val
  other : ∀ p, p ≠ fn → p ≠ tmp → t.content p = old p

theorem Kept.of_content (h : t.content = old) : Kept old fn tmp val t :=
  ⟨fun _ => .inl (by rw [h]), fun p _ _ => by rw [h]⟩

theorem Kept.of_tmp {c : Option Bytes} (h : t.content = Function.update old tmp c) :
    Kept old fn tmp val t := by
  refine ⟨fun hne => .inl ?_, fun p _ hp => ?_⟩
  · rw [h, Function.update_of_ne hne]
  · rw [h, Function.update_of_ne hp]

theorem Kept.of_renamed
    (h : t.content = Function.update (Function.update old tmp none) fn (some val)) :
    Kept old fn tmp val t := by
  refine ⟨fun _ => .inr ?_, fun p hfn htmp => ?_⟩
  · rw [h, Function.update_self]
  · rw [h, Function.update_of_ne hfn, Function.update_of_ne htmp]

/-- An error number is not zero. -/
theorem neg_code_ne_zero (e : Errno) : -(e.code : Int) ≠ 0 := by
  have := e.pos
  omega

def Exit.Leaves (old : Bytes → Option Bytes) (fn tmp val : Bytes) :
    Exit → (Bytes → Option Bytes) → Prop
  | .upToDate, c | .noTmp _, c => c = old
  | .notWritten _ left, c => c = Function.update old tmp (some left)
  | .notSynced _ unlinked, c | .notRenamed _ unlinked, c =>
      c = Function.update old tmp (if unlinked then none else some val)
  | .noDirectory _, c | .directorySynced _, c =>
      c = Function.update (Function.update old tmp none) fn (some val)

theorem Exit.Leaves.kept {x : Exit} (h : x.Leaves old fn tmp val t.content) :
    Kept old fn tmp val t := by
  cases x with
  | upToDate | noTmp e => exact .of_content h
  | notWritten ret left => exact .of_tmp h
  | notSynced e unlinked | notRenamed e unlinked => exact .of_tmp h
  | noDirectory e | directorySynced ret => exact .of_renamed h

/-- What follows the rename changes no file. -/
theorem syncDirectory_meets {I : Disk Bytes → Prop} {Q : Exit → Disk Bytes → Prop} (base : Bytes)
    (hi : ∀ t, t.content = s.content → I t)
    (hn : ∀ e : Errno, ∀ t, t.content = s.content → Q (.noDirectory e.code) t)
    (hq : ∀ ret t, t.content = s.content → Q (.directorySynced ret) t) :
    Meets A I (do
      match ← openDirectory base with
      | none => do
          let s ← get
          return .noDirectory s.errno
      | some fd => do
          let ret ← fsync fd
          let s ← get
          let _ ← close fd
          if ret < 0 then return .directorySynced (-s.errno)
          else return .directorySynced ret : Program Bytes Exit) Q s := by
  refine Meets.bind (openDirectory_meets (hi s rfl)
    (fun e _ => Meets.bind (Meets.get (Meets.pure (hn e _ rfl)))) ?_)
  refine Meets.bind (fsync_meets (hi _ rfl) (fun e _ => Meets.bind (Meets.get ?_))
    (Meets.bind (Meets.get ?_)))
  · refine Meets.bind (close_meets (hi _ rfl) fun _ t ht => ?_)
    rw [if_pos (by decide)]
    exact Meets.pure (hq _ t ht)
  · refine Meets.bind (close_meets (hi _ rfl) fun _ t ht => ?_)
    rw [if_neg (by decide)]
    exact Meets.pure (hq _ t ht)

/-- The temporary file is there and is unlinked, or not. -/
theorem unlinkTmp_meets {I : Disk Bytes → Prop} {Q : Exit → Disk Bytes → Prop}
    (exit : Bool → Exit)
    (ht : t.content = Function.update old tmp (some val)) (hi : I t)
    (hq : ∀ unlinked u, u.content =
      Function.update old tmp (if unlinked then none else some val) → Q (exit unlinked) u) :
    Meets A I (do
      let r ← unlink tmp
      return exit (r = 0)) Q t := by
  refine Meets.bind (unlink_meets (c := val) (by rw [ht, Function.update_self]) hi
    (fun e _ => Meets.pure ?_) (Meets.pure ?_))
  · exact hq false _ ht
  · refine hq true _ ?_
    rw [store_content, ht, Function.update_idem]
    rfl

/-- What each exit leaves; only the last one returns zero. -/
theorem replaceExit_meets (s : Disk Bytes) (base file val : Bytes) :
    Meets A (Kept s.content (fnPath base file) (tmpPath base file) val)
      (replaceExit base file val)
      (fun x t => x.Leaves s.content (fnPath base file) (tmpPath base file) val t.content ∧
        (x.ret = 0 → x = .directorySynced 0)) s := by
  unfold replaceExit
  generalize fnPath base file = fn
  generalize tmpPath base file = tmp
  refine Meets.bind (openWrite_meets (.of_content rfl) (fun e _ => ?_) ?_)
  · refine Meets.bind (Meets.get (Meets.pure ⟨rfl, fun h => ?_⟩))
    exact absurd h (neg_code_ne_zero e)
  have hwritten {d : Bytes} {t : Disk Bytes} (ht : Appended
      (s.opened.store tmp (some [])) ⟨s.next, tmp⟩ [] d t) :
      t.content = Function.update s.content tmp (some d) := by
    rw [ht.content, store_content, Function.update_idem]
    rfl
  refine Meets.bind (safeWrite_meets (c := []) (Function.update_self _ _ _)
    (Function.update_self _ _ _) ?_ ?_ ?_)
  · exact fun d t ht => .of_tmp (hwritten ht)
  · intro e d t _ _ ht
    have hleft : t.content tmp = some d := by rw [hwritten ht, Function.update_self]
    rw [if_pos (neg_code_ne_zero e)]
    refine Meets.bind (Meets.get (Meets.bind (close_meets (.of_tmp (hwritten ht)) fun _ u hu =>
      Meets.pure ⟨?_, fun h => absurd h (neg_code_ne_zero e)⟩)))
    rw [hleft]
    exact hu.trans (hwritten ht)
  intro t ht
  have hct := hwritten ht
  rw [if_neg (by decide)]
  refine Meets.bind (fsync_meets (.of_tmp hct) (fun e _ => Meets.bind (Meets.get ?_))
    (Meets.bind (Meets.get ?_)))
  · refine Meets.bind (close_meets (.of_tmp hct) fun _ u hu => ?_)
    rw [if_pos (by decide)]
    have hcu := hu.trans hct
    refine unlinkTmp_meets (.notSynced e.code) hcu (.of_tmp hcu) fun unlinked v hv => ⟨hv, ?_⟩
    exact fun h => absurd h (neg_code_ne_zero e)
  · refine Meets.bind (close_meets (.of_tmp hct) fun _ u hu => ?_)
    rw [if_neg (by decide)]
    have hcu := hu.trans hct
    refine Meets.bind (rename_meets (c := val) (by rw [hcu, Function.update_self]) (.of_tmp hcu)
      (fun e _ => Meets.bind (Meets.get ?_)) (Meets.bind (Meets.get ?_)))
    · rw [if_pos (by decide)]
      have hcf : (u.failed e).content = Function.update s.content tmp (some val) := hcu
      refine unlinkTmp_meets (.notRenamed e.code) hcf (.of_tmp hcf) fun unlinked v hv => ⟨hv, ?_⟩
      exact fun h => absurd h (neg_code_ne_zero e)
    · rw [if_neg (by decide)]
      have hrenamed : ((u.store tmp none).store fn (some val)).content =
          Function.update (Function.update s.content tmp none) fn (some val) := by
        rw [store_content, store_content, hcu, Function.update_idem]
      refine syncDirectory_meets base (fun w hw => .of_renamed (hw.trans hrenamed))
        (fun e w hw => ⟨hw.trans hrenamed, fun h => absurd h (neg_code_ne_zero e)⟩)
        fun ret w hw => ⟨hw.trans hrenamed, fun h => ?_⟩
      rw [show ret = 0 from h]

end Hatch.FileMng
