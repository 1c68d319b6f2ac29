import Hatch.FaultProgram
import Hatch.PackFile

/-!
# Truncated pack headers

`ReadPackHeader` ignores how many bytes a read has returned and makes a value of the array all the
same, so after a short read the value has bytes of the value before. An `IOException` leaves the
loop, but is caught and not reported.
-/

namespace Hatch.Pack

open Java
open FaultProgram (bind_eq_ok)

/-- What a call of `BufferedInputStream.read` does: it returns at most `n + 1` bytes, and none only
at the end of the file, or it throws. -/
inductive ReadOutcome where
  | ok (n : ℕ)
  | ioException

inductive ReadError where
  | ioException
  | other (t : Throwable)

def FileHandle.readSome (f : FileHandle) (o : ReadOutcome) (context : List Byte) (off rlen : ℕ) :
    Except ReadError (Int × List Byte × FileHandle) :=
  match f.dataIn with
  | none => .error (.other .nullPointer)
  | some input =>
      if off + rlen ≤ context.length then
        match o with
        | .ioException => .error .ioException
        | .ok n =>
            let got := input.take (min rlen (n + 1))
            .ok (if input = [] ∧ 0 < rlen then -1 else got.length,
              context.take off ++ got ++ context.drop (off + got.length),
              { f with dataIn := some (input.drop (min rlen (n + 1))) })
      else .error (.other .indexOutOfBounds)

/-- The loop of `ReadPackHeader` for `n` values from the `i`-th read on: the values it has set, and
whether it was left by an `IOException`. -/
def readFields (reads : ℕ → ReadOutcome) :
    ℕ → ℕ → FileHandle → List Byte → Except Throwable (List (BitVec 32) × FileHandle × Bool)
  | 0, _, f, _ => .ok ([], f, false)
  | n + 1, i, f, bt =>
      match f.readSome (reads i) bt 0 4 with
      | .error .ioException => .ok ([], f, true)
      | .error (.other t) => .error t
      | .ok (_, bt, f) => do
          let (v, f, thrown) ← readFields reads n (i + 1) f bt
          return (bytesToInt bt :: v, f, thrown)

/-- `ReadPackHeader`; the values that have not been set are zero. -/
def readPackHeaderBy (reads : ℕ → ReadOutcome) (p : PackFile) :
    Except Throwable (List (BitVec 32) × PackFile) :=
  match p.inFile with
  | none => .error .nullPointer
  | some f => do
      let (v, f, thrown) ← readFields reads 9 0 f (List.replicate 4 0)
      return (v.rightpad 9 0,
        { p with pfh := some (if thrown then {} else headerOfInts v), inFile := some f })

/-! ### Reads that are not short -/

theorem readSome_full (f : FileHandle) (context : List Byte) (off rlen : ℕ) :
    f.readSome (.ok rlen) context off rlen =
      match f.readFile context off rlen with
      | .ok r => .ok r
      | .error t => .error (.other t) := by
  have hmin : min rlen (rlen + 1) = rlen := by omega
  unfold FileHandle.readSome FileHandle.readFile
  cases f.dataIn with
  | none => rfl
  | some input =>
      by_cases h : off + rlen ≤ context.length
      · simp only [if_pos h, hmin]
      · simp only [if_neg h]

theorem readFields_full (n i : ℕ) (f : FileHandle) (bt : List Byte) :
    readFields (fun _ => .ok 4) n i f bt =
      (readInts n f bt).map fun r => (r.1, r.2, false) := by
  induction n generalizing i f bt with
  | zero => rfl
  | succ n ih =>
      rw [readFields, readSome_full, readInts]
      cases f.readFile bt 0 4 with
      | error t => rfl
      | ok r =>
          simp only [ih, bind, Except.bind]
          cases readInts n r.2.2 r.2.1 with
          | error t => rfl
          | ok w => rfl

theorem length_readInts {n : ℕ} {f f' : FileHandle} {bt : List Byte} {v : List (BitVec 32)}
    (h : readInts n f bt = .ok (v, f')) : v.length = n := by
  induction n generalizing f f' bt v with
  | zero =>
      obtain ⟨rfl, -⟩ := Prod.mk.inj (Except.ok.inj h)
      rfl
  | succ n ih =>
      rw [readInts] at h
      obtain ⟨r, -, h⟩ := bind_eq_ok h
      obtain ⟨w, hw, h⟩ := bind_eq_ok h
      obtain ⟨rfl, -⟩ := Prod.mk.inj (Except.ok.inj h)
      rw [List.length_cons, ih hw]

/-- With full reads this is the method as it reads a file that is long enough. -/
theorem readPackHeaderBy_full (p : PackFile) :
    readPackHeaderBy (fun _ => .ok 4) p = readPackHeader p := by
  unfold readPackHeaderBy readPackHeader
  cases p.inFile with
  | none => rfl
  | some f =>
      simp only [readFields_full]
      cases hr : readInts 9 f (List.replicate 4 0) with
      | error t => rfl
      | ok r =>
          have hpad : r.1.rightpad 9 0 = r.1 := by
            simp [List.rightpad, length_readInts hr]
          simp only [Except.map, bind, Except.bind, hpad]
          rfl

/-! ### Short reads -/

variable {reads : ℕ → ReadOutcome}

def delivered (reads : ℕ → ReadOutcome) : ℕ → ℕ → List Byte → List (List Byte)
  | 0, _, _ => []
  | n + 1, i, input =>
      match reads i with
      | .ioException => []
      | .ok k => input.take (min 4 (k + 1)) ::
          delivered reads n (i + 1) (input.drop (min 4 (k + 1)))

/-- On a file with the bytes `input` the method throws, or every value it has set comes from four
bytes that were read for it. -/
def Sound (reads : ℕ → ReadOutcome) (p : PackFile) (out : Option (List Byte))
    (input : List Byte) : Prop :=
  match readPackHeaderBy reads { p with inFile := some ⟨out, some input⟩ } with
  | .error _ => True
  | .ok (v, _) => ∀ (j : ℕ) (bytes : List Byte), (delivered reads 9 0 input)[j]? = some bytes →
      bytes.length = 4 ∧ v[j]? = some (bytesToInt bytes)

/-- The method throws, or the fields of `pfh` come from four bytes that were read for each of them,
or none is set and `pfh` is the header that was made at the start. -/
def HeaderSound (reads : ℕ → ReadOutcome) (p : PackFile) (out : Option (List Byte))
    (input : List Byte) : Prop :=
  match readPackHeaderBy reads { p with inFile := some ⟨out, some input⟩ } with
  | .error _ => True
  | .ok (_, q) =>
      if (delivered reads 9 0 input).length = 9 then
        (∀ bytes ∈ delivered reads 9 0 input, bytes.length = 4) ∧
          q.pfh = some (headerOfInts ((delivered reads 9 0 input).map bytesToInt))
      else q.pfh = some {}

/-- The `i`-th read is asked for four bytes and may return them. -/
def ReadsFour (reads : ℕ → ReadOutcome) (i : ℕ) : Prop := ∃ n, reads i = .ok n ∧ 3 ≤ n

theorem delivered_length_iff (reads : ℕ → ReadOutcome) (n i : ℕ) (input : List Byte) :
    (delivered reads n i input).length = n ↔ ∀ k < n, reads (i + k) ≠ .ioException := by
  induction n generalizing i input with
  | zero => exact iff_of_true rfl nofun
  | succ n ih =>
      rw [delivered, Nat.forall_lt_succ_left']
      have hshift : (∀ k < n, reads (i + (k + 1)) ≠ .ioException) ↔
          ∀ k < n, reads (i + 1 + k) ≠ .ioException := by
        simp only [Nat.add_right_comm i 1, ← Nat.add_assoc]
      rw [hshift, Nat.add_zero]
      cases reads i with
      | ioException => simp
      | ok m => simp [ih]

theorem readFields_delivered (reads : ℕ → ReadOutcome) (n i : ℕ) (out : Option (List Byte))
    (input bt : List Byte) (hb : bt.length = 4) :
    ∃ v f thrown, readFields reads n i ⟨out, some input⟩ bt = .ok (v, f, thrown) ∧
      (thrown = false ↔ (delivered reads n i input).length = n) ∧
      ∀ (j : ℕ) (bytes : List Byte), (delivered reads n i input)[j]? = some bytes →
        bytes.length = 4 → v[j]? = some (bytesToInt bytes) := by
  induction n generalizing i input bt with
  | zero => exact ⟨[], ⟨out, some input⟩, false, rfl, by simp [delivered], nofun⟩
  | succ n ih =>
      rw [readFields, FileHandle.readSome, delivered]
      simp only [hb, Nat.zero_add, Nat.le_refl, if_true, List.take_zero, List.nil_append]
      cases reads i with
      | ioException => exact ⟨[], ⟨out, some input⟩, true, rfl, by simp, nofun⟩
      | ok k =>
          simp only
          generalize hgot : input.take (min 4 (k + 1)) = got
          have hlen : got.length ≤ 4 := by
            rw [← hgot, List.length_take]
            omega
          obtain ⟨v, f, thrown, hrun, hthrown, hv⟩ := ih (i + 1) (input.drop (min 4 (k + 1)))
            (got ++ bt.drop got.length) (by rw [List.length_append, List.length_drop]; omega)
          refine ⟨_, f, thrown, by rw [hrun]; rfl, by simp [hthrown], ?_⟩
          intro j bytes hj hfour
          cases j with
          | zero =>
              obtain rfl : got = bytes := Option.some.inj hj
              have hdrop : bt.drop got.length = [] := List.drop_of_length_le (by omega)
              rw [hdrop, List.append_nil]
              rfl
          | succ j => exact hv j bytes hj hfour

/-- All values that are set come from four bytes just if a full read is what each of them had: up
to the read that throws, or up to the last one. -/
theorem delivered_four_iff (n i : ℕ) (input : List Byte) :
    (∀ bytes ∈ delivered reads n i input, bytes.length = 4) ↔
      (∃ k < n, reads (i + k) = .ioException ∧ 4 * k ≤ input.length ∧
        ∀ j < k, ReadsFour reads (i + j)) ∨
      (4 * n ≤ input.length ∧ ∀ j < n, ReadsFour reads (i + j)) := by
  induction n generalizing i input with
  | zero => exact iff_of_true nofun (.inr ⟨Nat.zero_le _, nofun⟩)
  | succ n ih =>
      rw [delivered]
      cases hr : reads i with
      | ioException =>
          exact iff_of_true nofun (.inl ⟨0, Nat.succ_pos n, hr, Nat.zero_le _, nofun⟩)
      | ok m =>
          have hfour : (input.take (min 4 (m + 1))).length = 4 ↔ 3 ≤ m ∧ 4 ≤ input.length := by
            rw [List.length_take]
            omega
          have hindex (k : ℕ) : i + 1 + k = i + (k + 1) := by omega
          rw [List.forall_mem_cons, hfour, ih]
          simp only [List.length_drop, hindex]
          constructor
          · rintro ⟨⟨hm, hlen⟩, ⟨k, hk, hio, hle, hj⟩ | ⟨hle, hj⟩⟩
            · refine .inl ⟨k + 1, by omega, hio, by omega, fun j hlt => ?_⟩
              cases j with
              | zero => exact ⟨m, hr, hm⟩
              | succ j => exact hj j (by omega)
            · refine .inr ⟨by omega, fun j hlt => ?_⟩
              cases j with
              | zero => exact ⟨m, hr, hm⟩
              | succ j => exact hj j (by omega)
          · have hfirst (h : ReadsFour reads (i + 0)) : 3 ≤ m := by
              obtain ⟨m', hm', hle⟩ := h
              rw [Nat.add_zero, hr] at hm'
              cases hm'
              exact hle
            rintro (⟨k, hk, hio, hle, hj⟩ | ⟨hle, hj⟩)
            · cases k with
              | zero =>
                  rw [Nat.add_zero, hr] at hio
                  exact nomatch hio
              | succ k =>
                  have hm := hfirst (hj 0 (by omega))
                  refine ⟨⟨hm, by omega⟩, .inl ⟨k, by omega, hio, by omega, ?_⟩⟩
                  exact fun j hlt => hj (j + 1) (by omega)
            · have hm := hfirst (hj 0 (by omega))
              refine ⟨⟨hm, by omega⟩, .inr ⟨by omega, ?_⟩⟩
              exact fun j hlt => hj (j + 1) (by omega)

theorem sound_iff_delivered (p : PackFile) (out : Option (List Byte)) (input : List Byte) :
    Sound reads p out input ↔
      ∀ bytes ∈ delivered reads 9 0 input, bytes.length = 4 := by
  obtain ⟨v, f, thrown, hrun, -, hv⟩ := readFields_delivered reads 9 0 out input
    (List.replicate 4 0) rfl
  unfold Sound readPackHeaderBy
  simp only [hrun, bind, Except.bind]
  constructor
  · intro h bytes hmem
    obtain ⟨j, hj⟩ := List.getElem?_of_mem hmem
    exact (h j bytes hj).1
  · intro h j bytes hj
    have hfour := h bytes (List.mem_of_getElem? hj)
    have hvj := hv j bytes hj hfour
    have hlt : j < v.length := (List.getElem?_eq_some_iff.mp hvj).1
    refine ⟨hfour, ?_⟩
    rw [List.rightpad, List.getElem?_append_left hlt]
    exact hvj

/-- If a read throws, no field of `pfh` is set, whatever the reads before it have returned. -/
theorem headerSound_of_ioException (p : PackFile) (out : Option (List Byte)) (input : List Byte)
    (h : ∃ k < 9, reads k = .ioException) : HeaderSound reads p out input := by
  obtain ⟨k, hk, hio⟩ := h
  have hlen : (delivered reads 9 0 input).length ≠ 9 := by
    intro hlen
    have hread := (delivered_length_iff reads 9 0 input).mp hlen k hk
    rw [Nat.zero_add] at hread
    exact hread hio
  obtain ⟨v, f, thrown, hrun, hthrown, -⟩ := readFields_delivered reads 9 0 out input
    (List.replicate 4 0) rfl
  have htrue : thrown = true := by
    rw [← Bool.not_eq_false, hthrown]
    exact hlen
  unfold HeaderSound readPackHeaderBy
  simp only [hrun, bind, Except.bind, htrue, pure, Except.pure, if_neg hlen, if_true]

/-- On a file shorter than 36 bytes, no value of the array that is returned has stale or missing
bytes just if a read throws before any read has been short, and no field of `pfh` has them just if
a read throws. -/
theorem readPackHeader_sound_iff (reads : ℕ → ReadOutcome) (p : PackFile)
    (out : Option (List Byte)) (input : List Byte) (h : input.length < 36) :
    (Sound reads p out input ↔
      ∃ k < 9, reads k = .ioException ∧ 4 * k ≤ input.length ∧
        ∀ j < k, ∃ n, reads j = .ok n ∧ 3 ≤ n) ∧
    (HeaderSound reads p out input ↔ ∃ k < 9, reads k = .ioException) := by
  have hnot : ¬ (4 * 9 ≤ input.length ∧ ∀ j < 9, ReadsFour reads (0 + j)) := by
    rintro ⟨hle, -⟩
    omega
  have hfour := @delivered_four_iff reads 9 0 input
  rw [or_iff_left hnot] at hfour
  simp only [Nat.zero_add, ReadsFour] at hfour
  refine ⟨by rw [sound_iff_delivered, hfour], ⟨?_, headerSound_of_ioException p out input⟩⟩
  intro hsound
  by_contra! hread
  -- the loop ends, so all nine fields are set, and the file is too short for that
  have hlen := (delivered_length_iff reads 9 0 input).mpr (by simpa using hread)
  obtain ⟨v, f, thrown, hrun, -, -⟩ := readFields_delivered reads 9 0 out input
    (List.replicate 4 0) rfl
  unfold HeaderSound readPackHeaderBy at hsound
  simp only [hrun, bind, Except.bind, pure, Except.pure, if_pos hlen] at hsound
  obtain ⟨k, hk, hio, -⟩ := hfour.mp hsound.1
  exact hread k hk hio

/-- Five bytes, and a read that throws after the first value. -/
theorem readPackHeader_sound_fiveBytes :
    Sound (fun i => if i = 0 then .ok 4 else .ioException) ⟨none, none, none, false⟩ none
        [1, 2, 3, 4, 5] ∧
      HeaderSound (fun i => if i = 0 then .ok 4 else .ioException) ⟨none, none, none, false⟩ none
        [1, 2, 3, 4, 5] := by
  obtain ⟨hv, hpfh⟩ := readPackHeader_sound_iff (fun i => if i = 0 then .ok 4 else .ioException)
    ⟨none, none, none, false⟩ none [1, 2, 3, 4, 5] (by decide)
  refine ⟨hv.mpr ⟨1, by decide, rfl, by decide, fun j hj => ?_⟩, hpfh.mpr ⟨1, by decide, rfl⟩⟩
  obtain rfl : j = 0 := by omega
  exact ⟨4, rfl, by decide⟩

/-- Of five bytes a header is made whose second value has one byte of its own and three of the
first, and is repeated in the others, for which nothing is read. -/
theorem readPackHeader_stale :
    delivered (fun _ => .ok 4) 9 0 [1, 2, 3, 4, 5] = [1, 2, 3, 4] :: [5] :: List.replicate 7 [] ∧
      ∃ p, readPackHeaderBy (fun _ => .ok 4)
          ⟨none, none, some ⟨none, some [1, 2, 3, 4, 5]⟩, false⟩ =
          .ok (0x01020304 :: List.replicate 8 0x05020304, p) ∧
        p.pfh = some (headerOfInts (0x01020304 :: List.replicate 8 0x05020304)) :=
  ⟨rfl, _, rfl, rfl⟩

end Hatch.Pack
