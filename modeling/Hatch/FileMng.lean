import Hatch.FileCalls

/-!
# The file manager's reads and writes

`safe_read`, `safe_write` and the functions of `hat_add_file.cpp` built on them, as programs
of system calls. A buffer is the bytes it has been filled with, and the error number is part
of the state, as in the source.
-/

namespace Hatch.FileMng

open ByteLayout CallScript FileCalls

section Model

variable {P : Type}

/-- `safe_read`: the returned number and what has been read. -/
def safeRead (fd : Fd P) (count : ℕ) : Program P (Int × Bytes) :=
  loop (fun buf =>
    if buf.length < count then do
      let (r, data) ← read fd (count - buf.length)
      let s ← get
      if r ≤ 0 then
        if r = 0 then return .inr (buf.length, buf)
        else if s.errno = Errno.eintr.code then return .inl buf
        else return .inr (-s.errno, buf)
      else return .inl (buf ++ data)
    else return .inr (buf.length, buf)) []

variable [DecidableEq P]

def safeWrite (fd : Fd P) (buf : Bytes) : Program P Int :=
  loop (fun buf =>
    if 0 < buf.length then do
      let r ← write fd buf
      let s ← get
      if r < 0 then
        if s.errno = Errno.eintr.code then return .inl buf
        else return .inr (-s.errno)
      else return .inl (buf.drop r.toNat)
    else return .inr 0) buf

def bufferSize : ℕ := 8192

/-- The loop of `safe_copy` over full buffers, which is left early with the error number or
with what the last read has returned. -/
def copyFull (fdsrc fddes : Fd P) : Int × Bytes → Program P (Int ⊕ Int × Bytes) :=
  loop fun (len, buffer) =>
    if (bufferSize : Int) ≤ len then do
      let ret ← safeWrite fddes (buffer.take len.toNat)
      let s ← get
      if ret ≠ len then return .inr (.inl s.errno)
      else do
        let next ← safeRead fdsrc bufferSize
        return .inl next
    else return .inr (.inr (len, buffer))

def safeCopy (fdsrc : Fd P) (offset1 : Int) (fddes : Fd P) (offset2 : Int) : Program P Int := do
  let _ ← lseekSet fdsrc offset1
  let _ ← lseekSet fddes offset2
  let first ← safeRead fdsrc bufferSize
  match ← copyFull fdsrc fddes first with
  | .inl errno => return errno
  | .inr (len, buffer) =>
      if 0 < len then do
        let ret ← safeWrite fddes (buffer.take len.toNat)
        let s ← get
        if ret ≠ len then return s.errno else return 0
      else return 0

def safeAddFile (addfile mngfile : P) : Program P Int := do
  match ← openRead addfile with
  | none => do
      let s ← get
      return -s.errno
  | some fdadd => do
      match ← openWrite mngfile false with
      | none => do
          let s ← get
          let _ ← close fdadd
          return -s.errno
      | some fdmng => do
          let pos ← lseekEnd fdmng
          let _ ← safeCopy fdadd 0 fdmng pos
          let ret ← fsync fdmng
          let _ ← close fdadd
          let _ ← close fdmng
          let s ← get
          if ret < 0 then return -s.errno else return ret

def pathMax : ℕ := 1024

/-- `snprintf` into an array of `PATH_MAX` characters. -/
def truncated (path : Bytes) : Bytes := path.take (pathMax - 1)

def slash : UInt8 := 47

def joined (base file : Bytes) : Bytes := base ++ slash :: file

def tmpSuffix : Bytes := [46, 116, 109, 112]

def fnPath (base file : Bytes) : Bytes := truncated (joined base file)

def tmpPath (base file : Bytes) : Bytes := truncated (joined base file ++ tmpSuffix)

def safeReadFile (base file : Bytes) (vallen : ℕ) : Program Bytes (Int × Bytes) := do
  match ← openRead (fnPath base file) with
  | none => do
      let s ← get
      return (-s.errno, [])
  | some fd => do
      let (len, val) ← safeRead fd vallen
      let _ ← close fd
      return (len, val)

def replaceFile (base file val : Bytes) : Program Bytes Int := do
  match ← openWrite (tmpPath base file) true with
  | none => do
      let s ← get
      return -s.errno
  | some fd => do
      let ret ← safeWrite fd val
      if ret ≠ 0 then do
        let _ ← close fd
        return ret
      else do
        let ret ← fsync fd
        let s ← get
        let _ ← close fd
        if ret < 0 then do
          let _ ← unlink (tmpPath base file)
          return -s.errno
        else do
          let ret ← rename (tmpPath base file) (fnPath base file)
          let s ← get
          if ret < 0 then do
            let _ ← unlink (tmpPath base file)
            return -s.errno
          else do
            match ← openDirectory base with
            | none => do
                let s ← get
                return -s.errno
            | some fd => do
                let ret ← fsync fd
                let s ← get
                let _ ← close fd
                if ret < 0 then return -s.errno else return ret

def oldvalSize : ℕ := 80

def intOfSize (n : ℕ) : Int := (BitVec.ofNat 32 n).toInt

/-- `safe_write_file`. A `memcmp` beyond `oldval` is undefined. -/
def safeWriteFile (base file val : Bytes) : Program Bytes Int := do
  let (ret, oldval) ← safeReadFile base file oldvalSize
  if ret = intOfSize val.length then
    if oldvalSize < val.length then undefined
    else if oldval.take val.length = val then return 0
    else replaceFile base file val
  else replaceFile base file val

end Model

section Specs

variable {P : Type} {A : Outcome → Prop} {I : Disk P → Prop} {s : Disk P} {fd : Fd P}

/-- Only the offset of one descriptor, and maybe the error number, differs. -/
structure Seeked (s : Disk P) (fd : Fd P) (k : ℕ) (t : Disk P) : Prop where
  content : t.content = s.content
  offset : t.offset = Function.update s.offset fd.id k

theorem Seeked.refl (s : Disk P) (fd : Fd P) : Seeked s fd (s.offset fd.id) s :=
  ⟨rfl, (Function.update_eq_self _ _).symm⟩

theorem Seeked.ahead {k : ℕ} {t : Disk P} (h : Seeked s fd (s.offset fd.id + k) t) :
    t.ahead fd = (s.ahead fd).drop k := by
  rw [Disk.ahead, Disk.ahead, h.content, h.offset, Function.update_self, List.drop_drop]

theorem Seeked.moved {j k : ℕ} {t : Disk P} (h : Seeked s fd j t) : Seeked s fd k (t.moved fd k) :=
  ⟨h.content, by rw [moved_offset, h.offset, Function.update_idem]⟩

theorem safeRead_meets {Q : Int × Bytes → Disk P → Prop} {count : ℕ}
    (hi : ∀ k t, Seeked s fd k t → I t)
    (hf : ∀ e t buf, A (.fail e) → buf = (s.ahead fd).take buf.length →
      Seeked s fd (s.offset fd.id + buf.length) t → Q (-(e.code : ℕ), buf) t)
    (hs : ∀ t, Seeked s fd (s.offset fd.id + ((s.ahead fd).take count).length) t →
      Q (((s.ahead fd).take count).length, (s.ahead fd).take count) t) :
    Meets A I (safeRead fd count) Q s := by
  -- between two calls the buffer is the front of what was ahead, and the offset is past it
  refine Meets.loop (fun buf t => Seeked s fd (s.offset fd.id + buf.length) t ∧
    buf = (s.ahead fd).take buf.length ∧ buf.length ≤ count) (fun buf t h => hi _ t h.1) ?_
    ⟨Seeked.refl s fd, rfl, Nat.zero_le _⟩
  rintro buf t ⟨ht, hb, hc⟩
  have hend (u : Disk P) (hu : Seeked s fd (s.offset fd.id + buf.length) u)
      (h : count ≤ buf.length ∨ (s.ahead fd).length ≤ buf.length) : Q (buf.length, buf) u := by
    have hbuf : buf = (s.ahead fd).take count := by
      rcases h with h | h
      · rwa [le_antisymm hc h] at hb
      · rw [List.take_of_length_le (h.trans hc)]
        rwa [List.take_of_length_le h] at hb
    rw [hbuf] at hu ⊢
    exact hs u hu
  simp only
  split
  · rename_i hlt
    refine Meets.bind (read_meets (hi _ t ht) (fun e he => ?_) fun n => ?_)
    · refine Meets.bind (Meets.get ?_)
      have hfail : Seeked s fd (s.offset fd.id + buf.length) (t.failed e) := ⟨ht.content, ht.offset⟩
      rw [if_pos (by decide), if_neg (by decide)]
      split
      · exact Meets.pure ⟨hfail, hb, hc⟩
      · exact Meets.pure (hf e _ buf he hb hfail)
    · refine Meets.bind (Meets.get ?_)
      have hoff : t.offset fd.id = s.offset fd.id + buf.length := by
        rw [ht.offset, Function.update_self]
      rw [ht.ahead, hoff]
      generalize hd : ((s.ahead fd).drop buf.length).take (min (count - buf.length) (n + 1)) = data
      have hlen := congrArg List.length hd
      simp only [List.length_take, List.length_drop] at hlen
      have hmoved : Seeked s fd (s.offset fd.id + buf.length + data.length)
          (t.moved fd (s.offset fd.id + buf.length + data.length)) := ht.moved
      simp only
      split
      · have hnil : data.length = 0 := by omega
        rw [if_pos (by omega)]
        rw [hnil] at hmoved ⊢
        exact Meets.pure (hend _ hmoved (.inr (by omega)))
      · have hdata : data = ((s.ahead fd).drop buf.length).take data.length := by
          rw [← hd, List.take_eq_take_iff, List.length_take]
          omega
        refine Meets.pure ⟨?_, ?_, ?_⟩
        · rwa [List.length_append, ← Nat.add_assoc]
        · rw [List.length_append, List.take_add, ← hb, ← hdata]
        · rw [List.length_append]
          omega
  · exact Meets.pure (hend t ht (.inl (by omega)))

variable [DecidableEq P]

/-- The file of a descriptor has got `d` appended, and only the descriptor has moved. -/
structure Appended (s : Disk P) (fd : Fd P) (c d : Bytes) (t : Disk P) : Prop where
  content : t.content = Function.update s.content fd.path (some (c ++ d))
  offset : t.offset = Function.update s.offset fd.id (c.length + d.length)

theorem Appended.refl {c : Bytes} (hc : s.content fd.path = some c)
    (hoff : s.offset fd.id = c.length) : Appended s fd c [] s := by
  refine ⟨?_, ?_⟩
  · rw [List.append_nil, ← hc, Function.update_eq_self]
  · rw [List.length_nil, Nat.add_zero, ← hoff, Function.update_eq_self]

theorem safeWrite_meets {Q : Int → Disk P → Prop} {c buf : Bytes}
    (hc : s.content fd.path = some c) (hoff : s.offset fd.id = c.length)
    (hi : ∀ d t, Appended s fd c d t → I t)
    (hf : ∀ e d t, A (.fail e) → d <+: buf → Appended s fd c d t → Q (-(e.code : ℕ)) t)
    (hs : ∀ t, Appended s fd c buf t → Q 0 t) : Meets A I (safeWrite fd buf) Q s := by
  -- between two calls a front part of the buffer is in the file and the rest is to be written
  refine Meets.loop (fun rest t => ∃ d, d ++ rest = buf ∧ Appended s fd c d t)
    (fun rest t ⟨d, _, h⟩ => hi d t h) ?_ ⟨[], rfl, .refl hc hoff⟩
  rintro rest t ⟨d, hd, ht⟩
  have hct : t.content fd.path = some (c ++ d) := by rw [ht.content, Function.update_self]
  have hofft : t.offset fd.id = (c ++ d).length := by
    rw [ht.offset, Function.update_self, List.length_append]
  split
  · refine Meets.bind (write_meets hct hofft (hi d t ht) (fun e he => ?_) fun n => ?_)
    · refine Meets.bind (Meets.get ?_)
      have hfail : Appended s fd c d (t.failed e) := ⟨ht.content, ht.offset⟩
      rw [if_pos (by decide)]
      split
      · exact Meets.pure ⟨d, hd, hfail⟩
      · exact Meets.pure (hf e d _ he ⟨rest, hd⟩ hfail)
    · refine Meets.bind (Meets.get ?_)
      have htake : rest.take n = rest.take (rest.take n).length := by
        rw [List.take_eq_take_iff, List.length_take]
        omega
      rw [if_neg (by omega), Int.toNat_natCast]
      refine Meets.pure ⟨d ++ rest.take n, ?_, ?_, ?_⟩
      · nth_rewrite 1 [htake]
        rw [List.append_assoc, List.take_append_drop, hd]
      · rw [moved_content, store_content, ht.content, Function.update_idem, List.append_assoc]
      · rw [moved_offset, store_offset, ht.offset, Function.update_idem]
        simp only [List.length_append, Nat.add_assoc]
  · rename_i hempty
    have hrest : rest = [] := List.eq_nil_of_length_eq_zero (by omega)
    rw [hrest, List.append_nil] at hd
    exact Meets.pure (hs t (hd ▸ ht))

omit [DecidableEq P] in
/-- A read that moves all it is asked for ends `safe_read`. -/
theorem safeRead_returns (s : Disk P) (fd : Fd P) {count : ℕ} (hc : 0 < count)
    (h : count ≤ (s.ahead fd).length) :
    ∃ t, Seeked s fd (s.offset fd.id + count) t ∧
      Returns (safeRead fd count) [.ok count] s (count, (s.ahead fd).take count) t := by
  have hlen : ((s.ahead fd).take count).length = count := List.length_take_of_le h
  have hmin : min count (count + 1) = count := by omega
  refine ⟨_, (Seeked.refl s fd).moved, ?_⟩
  refine Returns.loop_next (c := (s.ahead fd).take count)
    (t := s.moved fd (s.offset fd.id + count)) ?_ (Returns.loop_done ?_)
  · rw [if_pos (by simpa using hc)]
    refine Returns.call_bind (Returns.get_bind ?_)
    simp only [List.length_nil, Nat.sub_zero, hmin, hlen]
    rw [if_neg (by omega)]
    exact Returns.pure _ _
  · rw [if_neg (by omega), hlen]
    exact Returns.pure _ _

/-- A script of successful calls on which `safe_write` returns. -/
theorem safeWrite_returns (s : Disk P) (fd : Fd P) {c : Bytes} (buf : Bytes)
    (hc : s.content fd.path = some c)
    (hoff : s.offset fd.id = c.length) :
    ∃ os t, (∀ o ∈ os, o.Succeeds) ∧ Appended s fd c buf t ∧
      Returns (safeWrite fd buf) os s 0 t := by
  by_cases hb : buf = []
  · subst hb
    refine ⟨[], s, by simp, .refl hc hoff, Returns.loop_done ?_⟩
    exact Returns.pure _ _
  · have hpos : 0 < buf.length := List.length_pos_iff.mpr hb
    refine ⟨[.ok buf.length], (s.store fd.path (some (c ++ buf))).moved fd (c.length + buf.length),
      by simp, ⟨rfl, rfl⟩, ?_⟩
    refine Returns.loop_next (c := []) ?_ (Returns.loop_done (Returns.pure _ _))
    rw [if_pos hpos]
    refine Returns.call_bind (Returns.get_bind ?_)
    simp only [hc, hoff, Option.getD_some, List.take_length, writeAt_length]
    rw [if_neg (by omega), Int.toNat_natCast, List.drop_length]
    exact Returns.pure _ _

end Specs

end Hatch.FileMng
