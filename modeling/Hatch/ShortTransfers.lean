import Hatch.FileMng

/-!
# Short transfers

`safe_read` and `safe_write` go on after a short count and after `EINTR`. Whatever the calls do,
they have the effect of one transfer of all bytes, or an error leaves a front part transferred.
They return as soon as there were enough calls that moved something.
-/

namespace Hatch.FileMng

open ByteLayout CallScript FileCalls

variable {P : Type}

/-- The call was interrupted and is repeated. -/
def Interrupted : Outcome → Bool
  | .ok _ => false
  | .fail e => e.code = Errno.eintr.code

/-- The call is repeated as it was: it was interrupted or has moved no byte. -/
def Repeated : Outcome → Bool
  | .ok n => n = 0
  | .fail e => e.code = Errno.eintr.code

/-- What `safe_read` has done if it returns. -/
theorem safeRead_result (s : Disk P) (fd : Fd P) (count : ℕ) :
    Meets (fun _ => True) (fun _ => True) (safeRead fd count) (fun r t =>
      (0 ≤ r.1 → r.1 = ↑(min count (s.ahead fd).length) ∧ r.2 = (s.ahead fd).take count) ∧
      r.2 <+: s.ahead fd ∧ Seeked s fd (s.offset fd.id + r.2.length) t) s := by
  refine safeRead_meets (fun _ _ _ => trivial) (fun e t buf _ hbuf ht => ?_) fun t ht => ?_
  · refine ⟨fun h => ?_, ?_, ht⟩
    · have hpos := e.pos
      dsimp only at h
      omega
    · rw [hbuf]
      exact List.take_prefix _ _
  · refine ⟨fun _ => ⟨?_, rfl⟩, List.take_prefix _ _, ht⟩
    rw [List.length_take]

theorem safeRead_returns_of_calls (s : Disk P) (fd : Fd P) {count : ℕ} {os : List Outcome}
    (h : count < os.countP fun o => !Interrupted o) :
    ∃ r rest t, safeRead fd count os s = .done r rest t := by
  -- every call that is not interrupted fills the buffer further or is the last one
  apply loop_returns (fun buf : Bytes => count - buf.length) fun o => !Interrupted o
  · intro buf s
    by_cases hlt : buf.length < count
    · simp only [if_pos hlt]
      refine .inr fun o os => ?_
      cases o with
      | fail e =>
          by_cases he : e.code = Errno.eintr.code
          · refine .inr ⟨buf, s.failed e, ?_, le_rfl, fun hc => ?_⟩
            · simp only [bind_apply, read_fail, get_apply]
              rw [if_pos (by decide), if_neg (by decide),
                if_pos (show (s.failed e).errno = _ from he)]
              rfl
            · simp [Interrupted, he] at hc
          · refine .inl ⟨(-e.code, buf), s.failed e, ?_⟩
            simp only [bind_apply, read_fail, get_apply]
            rw [if_pos (by decide), if_neg (by decide),
              if_neg (show (s.failed e).errno ≠ _ from he)]
            rfl
      | ok n =>
          simp only [bind_apply, read_ok, get_apply]
          generalize (s.ahead fd).take (min (count - buf.length) (n + 1)) = data
          by_cases hnil : data.length = 0
          · refine .inl ⟨(buf.length, buf), s.moved fd (s.offset fd.id + data.length), ?_⟩
            rw [if_pos (by omega), if_pos (by omega)]
            rfl
          · refine .inr ⟨buf ++ data, s.moved fd (s.offset fd.id + data.length), ?_, ?_,
              fun _ => ?_⟩
            · rw [if_neg (by omega)]
              rfl
            · rw [List.length_append]
              omega
            · rw [List.length_append]
              omega
    · simp only [if_neg hlt]
      exact .inl fun os => ⟨(buf.length, buf), os, s, rfl⟩
  · exact h

variable [DecidableEq P]

/-- What `safe_write` at the end of a file has done if it returns. -/
theorem safeWrite_result (s : Disk P) (fd : Fd P) {c : Bytes} (buf : Bytes)
    (hc : s.content fd.path = some c) (hoff : s.offset fd.id = c.length) :
    Meets (fun _ => True) (fun _ => True) (safeWrite fd buf) (fun r t =>
      r = 0 ∧ Appended s fd c buf t ∨ r < 0 ∧ ∃ d, d <+: buf ∧ Appended s fd c d t) s := by
  refine safeWrite_meets hc hoff (fun _ _ _ => trivial) (fun e d t _ hd ht => ?_) fun t ht => ?_
  · have hpos := e.pos
    exact .inr ⟨by omega, d, hd, ht⟩
  · exact .inl ⟨rfl, ht⟩

theorem safeWrite_returns_of_calls (s : Disk P) (fd : Fd P) {buf : Bytes} {os : List Outcome}
    (h : buf.length < os.countP fun o => !Repeated o) :
    ∃ r rest t, safeWrite fd buf os s = .done r rest t := by
  -- every call that is not repeated takes a byte from what is to be written or is the last one
  apply loop_returns (fun buf : Bytes => buf.length) fun o => !Repeated o
  · intro buf s
    by_cases hlt : 0 < buf.length
    · simp only [if_pos hlt]
      refine .inr fun o os => ?_
      cases o with
      | fail e =>
          by_cases he : e.code = Errno.eintr.code
          · refine .inr ⟨buf, s.failed e, ?_, le_rfl, fun hc => ?_⟩
            · simp only [bind_apply, write_fail, get_apply]
              rw [if_pos (by decide), if_pos (show (s.failed e).errno = _ from he)]
              rfl
            · simp [Repeated, he] at hc
          · refine .inl ⟨-e.code, s.failed e, ?_⟩
            simp only [bind_apply, write_fail, get_apply]
            rw [if_pos (by decide), if_neg (show (s.failed e).errno ≠ _ from he)]
            rfl
      | ok n =>
          have hlen : (buf.take n).length = min n buf.length := List.length_take
          simp only [bind_apply, write_ok, get_apply]
          rw [if_neg (by omega), Int.toNat_natCast]
          refine .inr ⟨buf.drop (buf.take n).length, _, rfl, ?_, fun hc => ?_⟩
          · rw [List.length_drop]
            omega
          · have hn : n ≠ 0 := by simpa [Repeated] using hc
            rw [List.length_drop, hlen]
            omega
    · simp only [if_neg hlt]
      exact .inl fun os => ⟨0, os, s, rfl⟩
  · exact h

/-- A call of `safe_read` returns if more than `count` of its reads are not interrupted, and it
has stored the next bytes of the file, as many as there are up to `count`; one of `safe_write` at
the end of a file returns if more writes move a byte or fail than the buffer has bytes, and it has
appended the buffer. With a negative result a front part was transferred. -/
theorem transfers_whole (s : Disk P) (fd : Fd P) :
    (∀ count os n buf rest t, safeRead fd count os s = .done (n, buf) rest t →
      (0 ≤ n → n = ↑(min count (s.ahead fd).length) ∧ buf = (s.ahead fd).take count) ∧
      buf <+: s.ahead fd ∧ t.offset fd.id = s.offset fd.id + buf.length ∧
      t.content = s.content) ∧
    (∀ count os, (count < os.countP fun o => !Interrupted o) →
      ∃ r rest t, safeRead fd count os s = .done r rest t) ∧
    (∀ c, s.content fd.path = some c → s.offset fd.id = c.length →
      ∀ buf os r rest t, safeWrite fd buf os s = .done r rest t →
        r ≤ 0 ∧ (r = 0 → t.content fd.path = some (c ++ buf)) ∧
        (r < 0 → ∃ d, d <+: buf ∧ t.content fd.path = some (c ++ d)) ∧
        ∀ p, p ≠ fd.path → t.content p = s.content p) ∧
    (∀ buf os, (buf.length < os.countP fun o => !Repeated o) →
      ∃ r rest t, safeWrite fd buf os s = .done r rest t) := by
  refine ⟨?_, fun count os h => safeRead_returns_of_calls s fd h, ?_,
    fun buf os h => safeWrite_returns_of_calls s fd h⟩
  · intro count os n buf rest t hr
    obtain ⟨hn, hbuf, ht⟩ := (safeRead_result s fd count).post_of_done (fun _ _ => trivial) hr
    refine ⟨hn, hbuf, ?_, ht.content⟩
    rw [ht.offset, Function.update_self]
  · intro c hc hoff buf os r rest t hr
    have hother (d : Bytes) (ht : Appended s fd c d t) :
        t.content fd.path = some (c ++ d) ∧ ∀ p, p ≠ fd.path → t.content p = s.content p := by
      rw [ht.content]
      exact ⟨Function.update_self _ _ _, fun p hp => Function.update_of_ne hp _ _⟩
    rcases (safeWrite_result s fd buf hc hoff).post_of_done (fun _ _ => trivial) hr with
      ⟨rfl, ht⟩ | ⟨hneg, d, hd, ht⟩
    · exact ⟨le_rfl, fun _ => (hother buf ht).1, fun h => absurd h (lt_irrefl 0), (hother buf ht).2⟩
    · exact ⟨hneg.le, fun h => absurd h hneg.ne, fun _ => ⟨d, hd, (hother d ht).1⟩,
        (hother d ht).2⟩

def fourBytes : Disk Unit where
  content := fun _ => some [1, 2, 3, 4]
  offset := fun id => if id = 0 then 0 else 4
  next := 2
  errno := 0

/-- Three bytes are read in single ones, and two bytes are written in single ones, with an
interruption on the way. -/
theorem transfers_whole_fourBytes :
    ∃ t u, safeRead ⟨0, ()⟩ 3 [.ok 0, .fail .eintr, .ok 0, .ok 0] fourBytes =
        .done (3, [1, 2, 3]) [] t ∧ t.offset 0 = 3 ∧
      safeWrite ⟨1, ()⟩ [5, 6] [.ok 1, .fail .eintr, .ok 1] fourBytes = .done 0 [] u ∧
      u.content () = some [1, 2, 3, 4, 5, 6] := by
  have hread := (transfers_whole fourBytes ⟨0, ()⟩).1 3
    [.ok 0, .fail .eintr, .ok 0, .ok 0] _ _ _ _ rfl
  have hwrite := (transfers_whole fourBytes ⟨1, ()⟩).2.2.1 [1, 2, 3, 4] rfl rfl [5, 6]
    [.ok 1, .fail .eintr, .ok 1] _ _ _ rfl
  exact ⟨_, _, rfl, hread.2.2.1, rfl, hwrite.2.1 rfl⟩

end Hatch.FileMng
