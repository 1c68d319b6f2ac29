import Hatch.AddExits

/-!
# Appending a directory to the managed file

`safe_add_dir` walks over a directory tree and appends one file after the other. It drops the
results of `safe_add_file` and of its own recursive calls, so that it returns zero as soon as the
directory itself can be opened. An entry counts as a directory if its type has the bit of `DT_DIR`,
which those of a block device and of a socket have too.
-/

namespace Hatch.FileMng

open ByteLayout CallScript FileCalls

/-- What `readdir` returns, entry by entry. The entries "." and ".." are directories in it. -/
inductive Listing where
  | nil
  | file (name : Bytes) (dType : UInt8) (rest : Listing)
  | dir (name : Bytes) (dType : UInt8) (entries rest : Listing)

def dtDir : UInt8 := 4

def isDots (name : Bytes) : Bool := name = [46] ∨ name = [46, 46]

def inDirectory (opendir : Program Bytes (Option (Fd Bytes))) (entries : Program Bytes Unit) :
    Program Bytes Int := do
  match ← opendir with
  | none => return -1
  | some fd => do
      entries
      let _ ← close fd
      return 0

/-- One round of the loop; `addDir` is the recursive call. A `sprintf` beyond `childpath` is
undefined. -/
def addEntry (adddir mngfile name : Bytes) (dType : UInt8) (addDir : Bytes → Program Bytes Int) :
    Program Bytes Unit :=
  if dType &&& dtDir ≠ 0 then
    if isDots name then return ()
    else if pathMax ≤ (joined adddir name).length then undefined
    else do
      let _ ← addDir (joined adddir name)
      return ()
  else if pathMax ≤ (joined adddir name).length then undefined
  else do
    let _ ← safeAddFile (joined adddir name) mngfile
    return ()

def addEntries (mngfile : Bytes) : Listing → Bytes → Program Bytes Unit
  | .nil, _ => return ()
  | .file name dType rest, adddir => do
      addEntry adddir mngfile name dType fun _ => inDirectory openNotDirectory (return ())
      addEntries mngfile rest adddir
  | .dir name dType entries rest, adddir => do
      addEntry adddir mngfile name dType fun childpath =>
        inDirectory (openDirectory childpath) (addEntries mngfile entries childpath)
      addEntries mngfile rest adddir

def safeAddDir (adddir mngfile : Bytes) (entries : Listing) : Program Bytes Int :=
  inDirectory (openDirectory adddir) (addEntries mngfile entries adddir)

/-! ### What is to be appended -/

/-- The entries that are no directories, in the order in which they are met. -/
def Listing.files : Listing → Bytes → List Bytes
  | .nil, _ => []
  | .file name _ rest, adddir => joined adddir name :: rest.files adddir
  | .dir name _ entries rest, adddir =>
      (if isDots name then [] else entries.files (joined adddir name)) ++ rest.files adddir

/-- The files have been appended in full, one after the other and each with the content it then
had, and nothing else has changed. -/
def Packed (mngfile : Bytes) : List Bytes → (Bytes → Option Bytes) → (Bytes → Option Bytes) → Prop
  | [], old, new => new = old
  | p :: ps, old, new => ∃ d, old p = some d ∧
      Packed mngfile ps (Function.update old mngfile (some ((old mngfile).getD [] ++ d))) new

/-- Each file fits one buffer when its turn comes. -/
def FitBuffer (mngfile : Bytes) : List Bytes → (Bytes → Option Bytes) → Prop
  | [], _ => True
  | p :: ps, old => ((old p).getD []).length ≤ bufferSize ∧ FitBuffer mngfile ps
      (Function.update old mngfile (some ((old mngfile).getD [] ++ (old p).getD [])))

/-- The bit of `DT_DIR` is set for the directories and for nothing else. -/
def Listing.Typed : Listing → Prop
  | .nil => True
  | .file _ dType rest => dType &&& dtDir = 0 ∧ rest.Typed
  | .dir _ dType entries rest => dType &&& dtDir ≠ 0 ∧ entries.Typed ∧ rest.Typed

/-! ### Whether everything has been appended -/

def inDirectoryExit (opendir : Program Bytes (Option (Fd Bytes))) (entries : Program Bytes Bool) :
    Program Bytes (Int × Bool) := do
  match ← opendir with
  | none => return (-1, false)
  | some fd => do
      let added ← entries
      let _ ← close fd
      return (0, added)

def addEntryExit (adddir mngfile name : Bytes) (dType : UInt8)
    (addDir : Bytes → Program Bytes (Int × Bool)) : Program Bytes Bool :=
  if dType &&& dtDir ≠ 0 then
    if isDots name then return true
    else if pathMax ≤ (joined adddir name).length then undefined
    else do
      let (_, added) ← addDir (joined adddir name)
      return added
  else if pathMax ≤ (joined adddir name).length then undefined
  else do
    let (_, added) ← safeAddFileExit (joined adddir name) mngfile
    return added

def addEntriesExit (mngfile : Bytes) : Listing → Bytes → Program Bytes Bool
  | .nil, _ => return true
  | .file name dType rest, adddir => do
      let first ← addEntryExit adddir mngfile name dType fun _ =>
        inDirectoryExit openNotDirectory (return true)
      let others ← addEntriesExit mngfile rest adddir
      return first && others
  | .dir name dType entries rest, adddir => do
      let first ← addEntryExit adddir mngfile name dType fun childpath =>
        inDirectoryExit (openDirectory childpath) (addEntriesExit mngfile entries childpath)
      let others ← addEntriesExit mngfile rest adddir
      return first && others

/-- `safe_add_dir`, together with whether no directory and no file of the tree has been given up
on the way: each `opendir` and `open` went through, and so did the seeks to the end and the reads
and writes, if need be after interruptions. -/
def safeAddDirExit (adddir mngfile : Bytes) (entries : Listing) : Program Bytes (Int × Bool) :=
  inDirectoryExit (openDirectory adddir) (addEntriesExit mngfile entries adddir)

def forget (_ : Bool) : Unit := ()

theorem inDirectory_eq (opendir : Program Bytes (Option (Fd Bytes)))
    (entries : Program Bytes Bool) :
    inDirectory opendir (forget <$> entries) = Prod.fst <$> inDirectoryExit opendir entries := by
  rw [inDirectory, inDirectoryExit, map_bind]
  refine bind_congr fun opened => ?_
  cases opened with
  | none => rfl
  | some fd =>
      simp only [map_bind, bind_map_left]
      rfl

theorem addEntry_eq {adddir mngfile name : Bytes} {dType : UInt8}
    {addDir : Bytes → Program Bytes Int} {addDirExit : Bytes → Program Bytes (Int × Bool)}
    (h : ∀ path, addDir path = Prod.fst <$> addDirExit path) :
    addEntry adddir mngfile name dType addDir =
      forget <$> addEntryExit adddir mngfile name dType addDirExit := by
  unfold addEntry addEntryExit
  split
  · split
    · rfl
    split
    · rfl
    · simp only [h, map_bind, bind_map_left]
      rfl
  · split
    · rfl
    · simp only [safeAddFile_eq, map_bind, bind_map_left]
      rfl

theorem addEntries_eq (mngfile : Bytes) (l : Listing) (adddir : Bytes) :
    addEntries mngfile l adddir = forget <$> addEntriesExit mngfile l adddir := by
  induction l generalizing adddir with
  | nil => rfl
  | file name dType rest ih =>
      have hsub (path : Bytes) : inDirectory openNotDirectory (return ()) =
          Prod.fst <$> inDirectoryExit openNotDirectory (return true) :=
        inDirectory_eq openNotDirectory (return true)
      rw [addEntries, addEntriesExit, addEntry_eq hsub, ih adddir]
      simp only [map_bind, bind_map_left]
      rfl
  | dir name dType entries rest ihe ihr =>
      have hsub (path : Bytes) :
          inDirectory (openDirectory path) (addEntries mngfile entries path) =
            Prod.fst <$> inDirectoryExit (openDirectory path)
              (addEntriesExit mngfile entries path) := by
        rw [ihe path]
        exact inDirectory_eq _ _
      rw [addEntries, addEntriesExit, addEntry_eq hsub, ihr adddir]
      simp only [map_bind, bind_map_left]
      rfl

theorem safeAddDir_eq (adddir mngfile : Bytes) (l : Listing) :
    safeAddDir adddir mngfile l = Prod.fst <$> safeAddDirExit adddir mngfile l := by
  rw [safeAddDir, addEntries_eq]
  exact inDirectory_eq _ _

/-! ### Whole runs -/

section Runs

variable {mngfile : Bytes} {ps qs : List Bytes} {old mid new : Bytes → Option Bytes}
  {s : Disk Bytes}

theorem Packed.append (hp : Packed mngfile ps old mid) (hq : Packed mngfile qs mid new) :
    Packed mngfile (ps ++ qs) old new := by
  induction ps generalizing old with
  | nil =>
      obtain rfl : mid = old := hp
      exact hq
  | cons p ps ih =>
      obtain ⟨d, hd, hp⟩ := hp
      exact ⟨d, hd, ih hp⟩

theorem FitBuffer.left (h : FitBuffer mngfile (ps ++ qs) old) : FitBuffer mngfile ps old := by
  induction ps generalizing old with
  | nil => trivial
  | cons p ps ih => exact ⟨h.1, ih h.2⟩

theorem FitBuffer.right (h : FitBuffer mngfile (ps ++ qs) old) (hp : Packed mngfile ps old mid) :
    FitBuffer mngfile qs mid := by
  induction ps generalizing old with
  | nil =>
      obtain rfl : mid = old := hp
      exact h
  | cons p ps ih =>
      obtain ⟨d, hd, hp⟩ := hp
      have htail := h.2
      rw [hd, Option.getD_some] at htail
      exact ih htail hp

/-- The flag of a program tells that the files have been appended. -/
def Packs (mngfile : Bytes) (ps : List Bytes) (p : Program Bytes Bool) (s : Disk Bytes) : Prop :=
  Meets (fun _ => True) (fun _ => True) p
    (fun added t => added = true → Packed mngfile ps s.content t.content) s

theorem Packs.and {p q : Program Bytes Bool} (hp : Packs mngfile ps p s)
    (hq : ∀ t, Packed mngfile ps s.content t.content → Packs mngfile qs q t) :
    Packs mngfile (ps ++ qs) (do
      let first ← p
      let others ← q
      return first && others) s := by
  refine Meets.bind (hp.mono fun first t ht => ?_)
  cases first with
  | false => exact Meets.bind (Meets.of_forall (fun _ => trivial) q fun _ _ => Meets.pure nofun)
  | true =>
      refine Meets.bind ((hq t (ht rfl)).mono fun others u hu => Meets.pure fun h => ?_)
      exact (ht rfl).append (hu h)

theorem packs_file {adddir name : Bytes} {dType : UInt8}
    {addDir : Bytes → Program Bytes (Int × Bool)} (ht : dType &&& dtDir = 0)
    (hf : FitBuffer mngfile [joined adddir name] s.content) :
    Packs mngfile [joined adddir name] (addEntryExit adddir mngfile name dType addDir) s := by
  unfold addEntryExit
  rw [if_neg (not_not.mpr ht)]
  split
  · exact Meets.undefined trivial
  refine Meets.bind ((safeAddFileExit_meets (.inr fun _ => trivial) s _ mngfile).mono
    fun x t hx => Meets.pure fun h => ?_)
  obtain ⟨add, hadd, hct⟩ := hx.1 h
  have hfit : add.length ≤ bufferSize := by
    have := hf.1
    rwa [hadd] at this
  rw [List.take_of_length_le hfit] at hct
  exact ⟨add, hadd, hct⟩

/-- What has been appended for the entries of a directory has been appended for the directory. -/
theorem inDirectoryExit_meets (path : Bytes) {entries : Program Bytes Bool}
    (h : ∀ t, t.content = s.content → Packs mngfile ps entries t) :
    Meets (fun _ => True) (fun _ => True) (inDirectoryExit (openDirectory path) entries)
      (fun x t => x.2 = true → Packed mngfile ps s.content t.content) s := by
  refine Meets.bind (openDirectory_meets trivial (fun e _ => Meets.pure nofun) ?_)
  refine Meets.bind ((h s.opened rfl).mono fun added t hadded => ?_)
  refine Meets.bind (close_meets trivial fun _ u hu => Meets.pure fun hflag => ?_)
  rw [hu]
  exact hadded hflag

theorem packs_dir {adddir name : Bytes} {dType : UInt8} {entries : Listing}
    (ht : dType &&& dtDir ≠ 0)
    (h : isDots name = false → ∀ t, t.content = s.content →
      Packs mngfile (entries.files (joined adddir name))
        (addEntriesExit mngfile entries (joined adddir name)) t) :
    Packs mngfile (if isDots name then [] else entries.files (joined adddir name))
      (addEntryExit adddir mngfile name dType fun childpath => inDirectoryExit
        (openDirectory childpath) (addEntriesExit mngfile entries childpath)) s := by
  unfold addEntryExit
  rw [if_pos ht]
  split
  · exact Meets.pure fun _ => rfl
  rename_i hdots
  split
  · exact Meets.undefined trivial
  exact Meets.bind ((inDirectoryExit_meets _ (h (eq_false_of_ne_true hdots))).mono
    fun x t hx => Meets.pure hx)

/-- By induction on the tree: each entry hands over a disk on which the rest still fits. -/
theorem packs_entries (l : Listing) (adddir : Bytes) (ht : l.Typed)
    (hf : FitBuffer mngfile (l.files adddir) s.content) :
    Packs mngfile (l.files adddir) (addEntriesExit mngfile l adddir) s := by
  induction l generalizing adddir s with
  | nil => exact Meets.pure fun _ => rfl
  | file name dType rest ih =>
      have hfit : FitBuffer mngfile ([joined adddir name] ++ rest.files adddir) s.content := hf
      exact (packs_file ht.1 hfit.left).and fun t hp => ih adddir ht.2 (hfit.right hp)
  | dir name dType entries rest ihe ihr =>
      refine (packs_dir ht.1 fun hdots t hct => ?_).and fun t hp => ihr adddir ht.2.2 (hf.right hp)
      have hleft := hf.left
      rw [hdots] at hleft
      rw [← hct] at hleft
      exact ihe (joined adddir name) ht.2.1 hleft

end Runs

/-- If `safe_add_dir` returns zero, the tree has been packed provided that no directory and no file
was given up on the way, `d_type` tells the directories from the rest, and each file fits one
buffer. -/
theorem safeAddDir_packs (s : Disk Bytes) (adddir mngfile : Bytes) (entries : Listing)
    (os rest : List Outcome) (t : Disk Bytes)
    (hrun : safeAddDir adddir mngfile entries os s = .done 0 rest t) :
    ∃ added, safeAddDirExit adddir mngfile entries os s = .done (0, added) rest t ∧
      (added = true → entries.Typed → FitBuffer mngfile (entries.files adddir) s.content →
        Packed mngfile (entries.files adddir) s.content t.content) := by
  rw [safeAddDir_eq] at hrun
  obtain ⟨⟨ret, added⟩, hexit, hret⟩ := map_eq_done hrun
  obtain rfl : ret = 0 := hret
  refine ⟨added, hexit, fun hadded ht hf => ?_⟩
  have hmeets := inDirectoryExit_meets (s := s) adddir fun u hu =>
    packs_entries entries adddir ht (hu ▸ hf)
  exact hmeets.post_of_done (fun _ _ => trivial) hexit hadded

def oneByte (path : Bytes) : Disk Bytes where
  content := fun p => if p = path then some [7] else none
  offset := fun _ => 0
  next := 3
  errno := 0

/-- The directory "d" with the entries "." and "f", a regular file. The read is interrupted and the
managed file "m" cannot be synced. -/
theorem safeAddDir_packs_oneByte :
    ∃ t, safeAddDir [100] [109] (.dir [46] 4 .nil (.file [102] 8 .nil))
        [.ok 0, .ok 0, .ok 0, .ok 0, .ok 0, .ok 0, .fail .eintr, .ok 0, .ok 0, .ok 1,
          .fail .einval, .ok 0, .ok 0, .ok 0] (oneByte [100, 47, 102]) = .done 0 [] t ∧
      Packed [109] [[100, 47, 102]] (oneByte [100, 47, 102]).content t.content := by
  refine ⟨_, rfl, ?_⟩
  obtain ⟨added, hexit, hpacked⟩ := safeAddDir_packs (oneByte [100, 47, 102]) [100] [109]
    (.dir [46] 4 .nil (.file [102] 8 .nil))
    [.ok 0, .ok 0, .ok 0, .ok 0, .ok 0, .ok 0, .fail .eintr, .ok 0, .ok 0, .ok 1,
      .fail .einval, .ok 0, .ok 0, .ok 0] [] _ rfl
  obtain rfl : true = added := congrArg Prod.snd (Run.done.inj hexit).1
  exact hpacked rfl ⟨by decide, trivial, by decide, trivial⟩ ⟨by decide, trivial⟩

/-- Zero is returned although nothing has been appended: the file cannot be opened, or the
subdirectory that holds it, or the entry is a block device. -/
theorem safeAddDir_drops :
    (∃ t, safeAddDir [100] [109] (.file [102] 8 .nil) [.ok 0, .fail .enoent, .ok 0]
        (oneByte [100, 47, 102]) = .done 0 [] t ∧ t.content [109] = none) ∧
      (∃ t, safeAddDir [100] [109] (.dir [103] 4 (.file [102] 8 .nil) .nil)
        [.ok 0, .fail .enoent, .ok 0] (oneByte [100, 47, 103, 47, 102]) = .done 0 [] t ∧
          t.content [109] = none) ∧
      ∃ t, safeAddDir [100] [109] (.file [102] 6 .nil) [.ok 0, .ok 0, .ok 0]
        (oneByte [100, 47, 102]) = .done 0 [] t ∧ t.content [109] = none :=
  ⟨⟨_, rfl, rfl⟩, ⟨_, rfl, rfl⟩, _, rfl, rfl⟩

end Hatch.FileMng
