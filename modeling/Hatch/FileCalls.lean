import Hatch.ByteLayout
import Hatch.CallScript
import Mathlib.Logic.Function.Basic

/-!
# System calls on files

Regular files are byte strings under paths, and a descriptor keeps the path it was opened
with and an offset. Every call may fail with an error number, `read` and `write` may move
fewer bytes than asked for, and a rename takes effect at once.
-/

namespace FileCalls

open ByteLayout CallScript

structure Errno where
  code : ℕ
  pos : 0 < code

def Errno.enoent : Errno := ⟨2, by decide⟩

def Errno.eintr : Errno := ⟨4, by decide⟩

def Errno.enotdir : Errno := ⟨20, by decide⟩

def Errno.einval : Errno := ⟨22, by decide⟩

/-- A call that goes through moves at most `n` bytes, where it moves bytes; `read` moves at
least one if there is one. -/
inductive Outcome where
  | ok (n : ℕ)
  | fail (e : Errno)

def Outcome.Succeeds : Outcome → Prop
  | .ok _ => True
  | .fail _ => False

@[simp] theorem succeeds_ok (n : ℕ) : (Outcome.ok n).Succeeds := trivial

variable {P : Type}

structure Fd (P : Type) where
  id : ℕ
  path : P

structure Disk (P : Type) where
  content : P → Option Bytes
  offset : ℕ → ℕ
  next : ℕ
  errno : ℕ

abbrev Program (P α : Type) : Type := Prog (Disk P) Outcome α

def Disk.failed (s : Disk P) (e : Errno) : Disk P := { s with errno := e.code }

def Disk.moved (s : Disk P) (fd : Fd P) (k : ℕ) : Disk P :=
  { s with offset := Function.update s.offset fd.id k }

def Disk.opened (s : Disk P) : Disk P :=
  { s with offset := Function.update s.offset s.next 0, next := s.next + 1 }

def openRead (path : P) : Program P (Option (Fd P)) := call fun s o =>
  match o, s.content path with
  | .fail e, _ => (none, s.failed e)
  | .ok _, none => (none, s.failed .enoent)
  | .ok _, some _ => (some ⟨s.next, path⟩, s.opened)

def openDirectory (path : P) : Program P (Option (Fd P)) := call fun s o =>
  match o with
  | .fail e => (none, s.failed e)
  | .ok _ => (some ⟨s.next, path⟩, s.opened)

def openNotDirectory : Program P (Option (Fd P)) := call fun s o =>
  match o with
  | .fail e => (none, s.failed e)
  | .ok _ => (none, s.failed .enotdir)

def Disk.ahead (s : Disk P) (fd : Fd P) : Bytes :=
  ((s.content fd.path).getD []).drop (s.offset fd.id)

def read (fd : Fd P) (count : ℕ) : Program P (Int × Bytes) := call fun s o =>
  match o with
  | .fail e => ((-1, []), s.failed e)
  | .ok n =>
      let data := (s.ahead fd).take (min count (n + 1))
      ((data.length, data), s.moved fd (s.offset fd.id + data.length))

theorem read_fail (fd : Fd P) (count : ℕ) (e : Errno) (os : List Outcome) (s : Disk P) :
    read fd count (.fail e :: os) s = .done (-1, []) os (s.failed e) := rfl

theorem read_ok (fd : Fd P) (count n : ℕ) (os : List Outcome) (s : Disk P) :
    read fd count (.ok n :: os) s =
      .done (((s.ahead fd).take (min count (n + 1))).length, (s.ahead fd).take (min count (n + 1)))
        os (s.moved fd (s.offset fd.id + ((s.ahead fd).take (min count (n + 1))).length)) := rfl

def lseekSet (fd : Fd P) (pos : Int) : Program P Int := call fun s o =>
  match o with
  | .fail e => (-1, s.failed e)
  | .ok _ => if pos < 0 then (-1, s.failed .einval) else (pos, s.moved fd pos.toNat)

def lseekEnd (fd : Fd P) : Program P Int := call fun s o =>
  match o with
  | .fail e => (-1, s.failed e)
  | .ok _ =>
      let k := ((s.content fd.path).getD []).length
      (k, s.moved fd k)

/-- Calls that change nothing but the error number: `fsync` and `close`. -/
def touch (_ : Fd P) : Program P Int := call fun s o =>
  match o with
  | .fail e => (-1, s.failed e)
  | .ok _ => (0, s)

def fsync (fd : Fd P) : Program P Int := touch fd

def close (fd : Fd P) : Program P Int := touch fd

@[simp] theorem opened_content (s : Disk P) : s.opened.content = s.content := rfl

@[simp] theorem moved_content (s : Disk P) (fd : Fd P) (k : ℕ) :
    (s.moved fd k).content = s.content := rfl

@[simp] theorem moved_offset (s : Disk P) (fd : Fd P) (k : ℕ) :
    (s.moved fd k).offset = Function.update s.offset fd.id k := rfl

variable {A : Outcome → Prop} {I : Disk P → Prop} {s : Disk P} {fd : Fd P} {path : P}

theorem openRead_meets {Q : Option (Fd P) → Disk P → Prop} (hi : I s)
    (hf : ∀ e, A (.fail e) → Q none (s.failed e))
    (hn : s.content path = none → Q none (s.failed .enoent))
    (hs : ∀ c, s.content path = some c → Q (some ⟨s.next, path⟩) s.opened) :
    Meets A I (openRead path) Q s := by
  refine Meets.call hi fun o ho => ?_
  cases o with
  | fail e => exact hf e ho
  | ok n =>
      cases hc : s.content path with
      | none => exact hn hc
      | some c => exact hs c hc

theorem openDirectory_meets {Q : Option (Fd P) → Disk P → Prop} (hi : I s)
    (hf : ∀ e, A (.fail e) → Q none (s.failed e)) (hs : Q (some ⟨s.next, path⟩) s.opened) :
    Meets A I (openDirectory path) Q s := by
  refine Meets.call hi fun o ho => ?_
  cases o with
  | fail e => exact hf e ho
  | ok n => exact hs

theorem read_meets {Q : Int × Bytes → Disk P → Prop} {count : ℕ} (hi : I s)
    (hf : ∀ e, A (.fail e) → Q (-1, []) (s.failed e))
    (hs : ∀ n, Q (((s.ahead fd).take (min count (n + 1))).length,
      (s.ahead fd).take (min count (n + 1)))
        (s.moved fd (s.offset fd.id + ((s.ahead fd).take (min count (n + 1))).length))) :
    Meets A I (read fd count) Q s := by
  refine Meets.call hi fun o ho => ?_
  cases o with
  | fail e => exact hf e ho
  | ok n => exact hs n

theorem lseekSet_meets {Q : Int → Disk P → Prop} {n : ℕ} (hi : I s)
    (hf : ∀ e, A (.fail e) → Q (-1) (s.failed e)) (hs : Q n (s.moved fd n)) :
    Meets A I (lseekSet fd n) Q s := by
  refine Meets.call hi fun o ho => ?_
  cases o with
  | fail e => exact hf e ho
  | ok _ => simpa only [if_neg (by omega : ¬ (n : Int) < 0), Int.toNat_natCast] using hs

/-- A seek to where the descriptor is moves nothing, whether it succeeds or not. -/
theorem lseekSet_stays {Q : Int → Disk P → Prop} {n : ℕ} (hn : s.offset fd.id = n) (hi : I s)
    (h : ∀ r t, t.content = s.content → t.offset = s.offset → Q r t) :
    Meets A I (lseekSet fd n) Q s :=
  lseekSet_meets hi (fun e _ => h (-1) (s.failed e) rfl rfl)
    (h n (s.moved fd n) rfl (by rw [moved_offset, ← hn, Function.update_eq_self]))

theorem lseekEnd_meets {Q : Int → Disk P → Prop} {c : Bytes} (hc : s.content fd.path = some c)
    (hi : I s) (hf : ∀ e, A (.fail e) → Q (-1) (s.failed e))
    (hs : Q c.length (s.moved fd c.length)) : Meets A I (lseekEnd fd) Q s := by
  refine Meets.call hi fun o ho => ?_
  cases o with
  | fail e => exact hf e ho
  | ok n => simpa only [hc, Option.getD_some] using hs

theorem fsync_meets {Q : Int → Disk P → Prop} (hi : I s)
    (hf : ∀ e, A (.fail e) → Q (-1) (s.failed e)) (hs : Q 0 s) : Meets A I (fsync fd) Q s := by
  refine Meets.call hi fun o ho => ?_
  cases o with
  | fail e => exact hf e ho
  | ok n => exact hs

/-- Whether it succeeds or not, `close` changes no file. -/
theorem close_meets {Q : Int → Disk P → Prop} (hi : I s)
    (h : ∀ r t, t.content = s.content → Q r t) : Meets A I (close fd) Q s :=
  show Meets A I (fsync fd) Q s from
    fsync_meets hi (fun e _ => h (-1) (s.failed e) rfl) (h 0 s rfl)

variable [DecidableEq P]

def Disk.store (s : Disk P) (path : P) (c : Option Bytes) : Disk P :=
  { s with content := Function.update s.content path c }

/-- `open` with `O_WRONLY | O_CREAT`, and with `O_TRUNC` if `trunc`. -/
def openWrite (path : P) (trunc : Bool) : Program P (Option (Fd P)) := call fun s o =>
  match o with
  | .fail e => (none, s.failed e)
  | .ok _ => (some ⟨s.next, path⟩,
      s.opened.store path (some (if trunc then [] else (s.content path).getD [])))

/-- Bytes written at an offset; a gap in front of it is filled with zeros. -/
def writeAt (b : Bytes) (off : ℕ) (d : Bytes) : Bytes := patch (b.rightpad off 0) off d

def write (fd : Fd P) (buf : Bytes) : Program P Int := call fun s o =>
  match o with
  | .fail e => (-1, s.failed e)
  | .ok n =>
      let data := buf.take n
      (data.length, (s.store fd.path
        (some (writeAt ((s.content fd.path).getD []) (s.offset fd.id) data))).moved fd
          (s.offset fd.id + data.length))

theorem write_fail (fd : Fd P) (buf : Bytes) (e : Errno) (os : List Outcome) (s : Disk P) :
    write fd buf (.fail e :: os) s = .done (-1) os (s.failed e) := rfl

theorem write_ok (fd : Fd P) (buf : Bytes) (n : ℕ) (os : List Outcome) (s : Disk P) :
    write fd buf (.ok n :: os) s = .done (buf.take n).length os ((s.store fd.path
      (some (writeAt ((s.content fd.path).getD []) (s.offset fd.id) (buf.take n)))).moved fd
        (s.offset fd.id + (buf.take n).length)) := rfl

def rename (old new : P) : Program P Int := call fun s o =>
  match o, s.content old with
  | .fail e, _ => (-1, s.failed e)
  | .ok _, none => (-1, s.failed .enoent)
  | .ok _, some c => (0, (s.store old none).store new (some c))

def unlink (path : P) : Program P Int := call fun s o =>
  match o, s.content path with
  | .fail e, _ => (-1, s.failed e)
  | .ok _, none => (-1, s.failed .enoent)
  | .ok _, some _ => (0, s.store path none)

@[simp] theorem store_content (s : Disk P) (path : P) (c : Option Bytes) :
    (s.store path c).content = Function.update s.content path c := rfl

@[simp] theorem store_offset (s : Disk P) (path : P) (c : Option Bytes) :
    (s.store path c).offset = s.offset := rfl

theorem writeAt_length (c d : Bytes) : writeAt c c.length d = c ++ d := by
  have hpad : c.rightpad c.length 0 = c := by simp [List.rightpad]
  rw [writeAt, hpad, patch, List.take_length, List.drop_of_length_le (Nat.le_add_right _ _),
    List.append_nil]

theorem openWrite_meets {Q : Option (Fd P) → Disk P → Prop} {trunc : Bool} (hi : I s)
    (hf : ∀ e, A (.fail e) → Q none (s.failed e))
    (hs : Q (some ⟨s.next, path⟩)
      (s.opened.store path (some (if trunc then [] else (s.content path).getD [])))) :
    Meets A I (openWrite path trunc) Q s := by
  refine Meets.call hi fun o ho => ?_
  cases o with
  | fail e => exact hf e ho
  | ok n => exact hs

/-- A write at the end of a file appends some part of the buffer. -/
theorem write_meets {Q : Int → Disk P → Prop} {c buf : Bytes} (hc : s.content fd.path = some c)
    (hoff : s.offset fd.id = c.length) (hi : I s)
    (hf : ∀ e, A (.fail e) → Q (-1) (s.failed e))
    (hs : ∀ n, Q (buf.take n).length ((s.store fd.path (some (c ++ buf.take n))).moved fd
      (c.length + (buf.take n).length))) :
    Meets A I (write fd buf) Q s := by
  refine Meets.call hi fun o ho => ?_
  cases o with
  | fail e => exact hf e ho
  | ok n =>
      have := hs n
      rw [← writeAt_length] at this
      simpa only [hc, hoff, Option.getD_some] using this

theorem rename_meets {Q : Int → Disk P → Prop} {old new : P} {c : Bytes}
    (hc : s.content old = some c) (hi : I s) (hf : ∀ e, A (.fail e) → Q (-1) (s.failed e))
    (hs : Q 0 ((s.store old none).store new (some c))) : Meets A I (rename old new) Q s := by
  refine Meets.call hi fun o ho => ?_
  cases o with
  | fail e => exact hf e ho
  | ok n => simpa only [hc] using hs

theorem unlink_meets {Q : Int → Disk P → Prop} {c : Bytes} (hc : s.content path = some c) (hi : I s)
    (hf : ∀ e, A (.fail e) → Q (-1) (s.failed e)) (hs : Q 0 (s.store path none)) :
    Meets A I (unlink path) Q s := by
  refine Meets.call hi fun o ho => ?_
  cases o with
  | fail e => exact hf e ho
  | ok n => simpa only [hc] using hs

end FileCalls
