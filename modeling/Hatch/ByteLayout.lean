import Mathlib.Data.List.TakeDrop
import Mathlib.Data.List.TakeWhile
import Mathlib.Tactic.Ring

/-!
# Fields of byte buffers

Buffers are byte lists. `field` reads a range and `patch` overwrites one; a read
inside a patch returns the patched bytes, and a read disjoint from it is
unaffected. `assign` performs a list of field assignments. `leBytes` and `leNat` are
fixed-width little-endian integers, and `cstr` is the text up to the first zero byte.
-/

namespace ByteLayout

abbrev Bytes := List UInt8

def leBytes : ℕ → ℕ → Bytes
  | 0, _ => []
  | w + 1, v => UInt8.ofNat v :: leBytes w (v / 256)

def leNat : Bytes → ℕ
  | [] => 0
  | b :: bs => b.toNat + 256 * leNat bs

@[simp] theorem length_leBytes (w v : ℕ) : (leBytes w v).length = w := by
  induction w generalizing v with
  | zero => rfl
  | succ w ih => simp [leBytes, ih]

theorem leNat_lt (b : Bytes) : leNat b < 256 ^ b.length := by
  induction b with
  | nil => exact Nat.one_pos
  | cons x b ih =>
      have hx := x.toNat_lt
      rw [leNat, List.length_cons, Nat.pow_succ]
      omega

theorem leNat_leBytes (w v : ℕ) : leNat (leBytes w v) = v % 256 ^ w := by
  induction w generalizing v with
  | zero => simp [leBytes, leNat, Nat.mod_one]
  | succ w ih =>
      have hb : (UInt8.ofNat v).toNat = v % 256 := UInt8.toNat_ofNat'
      rw [leBytes, leNat, ih, hb, Nat.pow_succ, Nat.mul_comm (256 ^ w) 256, Nat.mod_mul]

theorem leNat_leBytes_of_lt {w v : ℕ} (h : v < 256 ^ w) : leNat (leBytes w v) = v := by
  rw [leNat_leBytes, Nat.mod_eq_of_lt h]

theorem leBytes_leNat (b : Bytes) : leBytes b.length (leNat b) = b := by
  induction b with
  | nil => rfl
  | cons x b ih =>
      have hx := x.toNat_lt
      have hdiv : (x.toNat + 256 * leNat b) / 256 = leNat b := by omega
      have hmod : UInt8.ofNat (x.toNat + 256 * leNat b) = x := by
        apply UInt8.toNat_inj.mp
        rw [UInt8.toNat_ofNat']
        omega
      rw [leNat, List.length_cons, leBytes, hdiv, hmod, ih]

def field (b : Bytes) (off len : ℕ) : Bytes := (b.drop off).take len

def patch (b : Bytes) (off : ℕ) (d : Bytes) : Bytes := b.take off ++ d ++ b.drop (off + d.length)

theorem length_field {b : Bytes} {off len : ℕ} (h : off + len ≤ b.length) :
    (field b off len).length = len := by
  rw [field, List.length_take, List.length_drop]
  omega

theorem length_patch {b d : Bytes} {off : ℕ} (h : off + d.length ≤ b.length) :
    (patch b off d).length = b.length := by
  simp only [patch, List.length_append, List.length_take, List.length_drop]
  omega

theorem field_append_left {a b : Bytes} {off len : ℕ} (h : off + len ≤ a.length) :
    field (a ++ b) off len = field a off len := by
  rw [field, field, List.drop_append_of_le_length (by omega),
    List.take_append_of_le_length (by rw [List.length_drop]; omega)]

theorem drop_append_add (a b : Bytes) {off k : ℕ} (h : off = a.length + k) :
    (a ++ b).drop off = b.drop k := by
  rw [h, List.drop_append, List.drop_eq_nil_of_le (by omega), List.nil_append]
  congr 1
  omega

theorem field_append_right (a b : Bytes) {off len k : ℕ} (h : off = a.length + k) :
    field (a ++ b) off len = field b k len := by
  rw [field, field, drop_append_add a b h]

@[simp] theorem field_leBytes (w v : ℕ) : field (leBytes w v) 0 w = leBytes w v := by
  rw [field, List.drop_zero, List.take_of_length_le (by simp)]

theorem field_field {b : Bytes} {o l off len : ℕ} (h : off + len ≤ l) :
    field (field b o l) off len = field b (o + off) len := by
  rw [field, field, field, List.drop_take, List.drop_drop, List.take_take]
  congr 1
  omega

theorem field_take {b : Bytes} {k off len : ℕ} (h : off + len ≤ k) :
    field (b.take k) off len = field b off len := by
  have h0 : b.take k = field b 0 k := rfl
  rw [h0, field_field h, Nat.zero_add]

theorem field_patch_same {b d : Bytes} {off : ℕ} (h : off ≤ b.length) :
    field (patch b off d) off d.length = d := by
  have hl : (b.take off).length = off := by rw [List.length_take]; omega
  rw [patch, List.append_assoc, field_append_right (k := 0) _ _ (by omega), field,
    List.drop_zero, List.take_append_of_le_length (by omega), List.take_length]

theorem field_patch_before {b d : Bytes} {off o l : ℕ} (h : off ≤ b.length) (ho : o + l ≤ off) :
    field (patch b off d) o l = field b o l := by
  have hl : (b.take off).length = off := by rw [List.length_take]; omega
  rw [patch, List.append_assoc, field_append_left (by omega), field, List.drop_take,
    List.take_take, field]
  congr 1
  omega

theorem field_patch_after {b d : Bytes} {off o l : ℕ} (h : off ≤ b.length)
    (ho : off + d.length ≤ o) : field (patch b off d) o l = field b o l := by
  have hl : (b.take off ++ d).length = off + d.length := by
    rw [List.length_append, List.length_take]
    omega
  rw [patch, field_append_right (k := o - (off + d.length)) _ _ (by omega), field, field,
    List.drop_drop]
  congr 2
  omega

theorem getElem?_patch {b d : Bytes} {off : ℕ} (h : off ≤ b.length) (hd : d ≠ []) :
    (patch b off d)[off]? = d.head? := by
  have hlen : (b.take off).length = off := List.length_take_of_le h
  unfold patch
  rw [List.append_assoc, List.getElem?_append_right hlen.le, hlen, Nat.sub_self]
  cases d with
  | nil => exact absurd rfl hd
  | cons x d => rfl

theorem getElem?_patch_outside {b d : Bytes} {off i : ℕ} (h : off ≤ b.length)
    (hi : i < off ∨ off + d.length ≤ i) : (patch b off d)[i]? = b[i]? := by
  have hlen : (b.take off).length = off := List.length_take_of_le h
  rcases hi with hi | hi
  · rw [patch, List.append_assoc, List.getElem?_append_left (by omega), List.getElem?_take_of_lt hi]
  · have hfront : (b.take off ++ d).length = off + d.length := by rw [List.length_append, hlen]
    rw [patch, List.getElem?_append_right (by omega), hfront, List.getElem?_drop]
    congr 1
    omega

/-- Bytes put back where they were. -/
theorem patch_append_field {b d : Bytes} {off l : ℕ} (h : off + d.length + l ≤ b.length) :
    patch b off (d ++ field b (off + d.length) l) = patch b off d := by
  have hl : (field b (off + d.length) l).length = l := length_field h
  have hdrop : field b (off + d.length) l ++ b.drop (off + d.length + l) =
      b.drop (off + d.length) := by
    rw [field, ← List.drop_drop (l := b) (i := l), List.take_append_drop]
  rw [patch, patch, List.length_append, hl, ← Nat.add_assoc, ← List.append_assoc,
    List.append_assoc, hdrop]

theorem field_eq_field_drop {b : Bytes} {k off l : ℕ} (h : k ≤ off) :
    field b off l = field (b.drop k) (off - k) l := by
  rw [field, field, List.drop_drop]
  congr 2
  omega

def cstr (b : Bytes) (off : ℕ) : Bytes := (b.drop off).takeWhile (fun x => x != 0)

theorem zero_notMem_cstr (b : Bytes) (off : ℕ) : (0 : UInt8) ∉ cstr b off := by
  intro h
  exact absurd (List.mem_takeWhile_imp h) (by decide)

theorem length_cstr_le (b : Bytes) (off : ℕ) : (cstr b off).length ≤ b.length - off := by
  rw [← List.length_drop]
  exact (List.takeWhile_sublist _).length_le

/-- A text ends at a zero. -/
theorem eq_zero_of_cstr {b : Bytes} {x : UInt8} (h : b[(cstr b 0).length]? = some x) : x = 0 := by
  have hsplit : b = cstr b 0 ++ b.dropWhile fun x => x != 0 :=
    List.takeWhile_append_dropWhile.symm
  rw [hsplit, List.getElem?_append_right (by rw [← hsplit]), ← hsplit, Nat.sub_self,
    ← List.head?_eq_getElem?] at h
  have hx := List.head?_dropWhile_not (fun x => x != 0) b
  rw [h] at hx
  simpa using hx

theorem takeWhile_append_zero {n : Bytes} (h : (0 : UInt8) ∉ n) (r : Bytes) :
    (n ++ 0 :: r).takeWhile (fun x => x != 0) = n := by
  induction n with
  | nil => rfl
  | cons x n ih =>
      have hx : x ≠ 0 := fun he => h (by simp [he])
      have hn : (0 : UInt8) ∉ n := fun he => h (List.mem_cons_of_mem _ he)
      simp [hx, ih hn]

theorem cstr_of_field {b n : Bytes} {off : ℕ} (h : field b off (n.length + 1) = n ++ [0])
    (hn : (0 : UInt8) ∉ n) : cstr b off = n := by
  have hd := List.take_append_drop (n.length + 1) (b.drop off)
  rw [field] at h
  rw [h, List.append_assoc] at hd
  rw [cstr, ← hd]
  exact takeWhile_append_zero hn _

theorem mem_field_mono {b : Bytes} {x : UInt8} {off k l : ℕ} (h : x ∈ field b off k)
    (hk : k ≤ l) : x ∈ field b off l := by
  have he : field b off k = (field b off l).take k := by
    rw [field, field, List.take_take, min_eq_left hk]
  exact List.mem_of_mem_take (he ▸ h)

/-- Assignments to fields, in order. -/
def assign (b : Bytes) (ws : List (ℕ × Bytes)) : Bytes := ws.foldl (fun b w => patch b w.1 w.2) b

def Apart (x y : ℕ × Bytes) : Prop := x.1 + x.2.length ≤ y.1 ∨ y.1 + y.2.length ≤ x.1

theorem length_assign {b : Bytes} {ws : List (ℕ × Bytes)}
    (h : ∀ w ∈ ws, w.1 + w.2.length ≤ b.length) : (assign b ws).length = b.length := by
  induction ws generalizing b with
  | nil => rfl
  | cons w ws ih =>
      have hl := length_patch (h w List.mem_cons_self)
      rw [assign, List.foldl_cons, ← assign, ih, hl]
      intro v hv
      rw [hl]
      exact h v (List.mem_cons_of_mem _ hv)

theorem field_assign_of_apart {b : Bytes} {ws : List (ℕ × Bytes)} {x : ℕ × Bytes}
    (h : ∀ w ∈ ws, w.1 + w.2.length ≤ b.length) (hx : ∀ w ∈ ws, Apart x w) :
    field (assign b ws) x.1 x.2.length = field b x.1 x.2.length := by
  induction ws generalizing b with
  | nil => rfl
  | cons w ws ih =>
      have hw := h w List.mem_cons_self
      have hl := length_patch hw
      rw [assign, List.foldl_cons, ← assign, ih]
      · rcases hx w List.mem_cons_self with hb | ha
        · exact field_patch_before (by omega) hb
        · exact field_patch_after (by omega) ha
      · intro v hv
        rw [hl]
        exact h v (List.mem_cons_of_mem _ hv)
      · exact fun v hv => hx v (List.mem_cons_of_mem _ hv)

/-- When the assigned fields do not overlap, each of them reads back. -/
theorem field_assign {b : Bytes} {ws : List (ℕ × Bytes)} {o l : ℕ} {d : Bytes}
    (h : ∀ w ∈ ws, w.1 + w.2.length ≤ b.length) (hp : ws.Pairwise Apart) (hm : (o, d) ∈ ws)
    (hl : d.length = l) : field (assign b ws) o l = d := by
  subst hl
  induction ws generalizing b with
  | nil => cases hm
  | cons w ws ih =>
      have hw := h w List.mem_cons_self
      have hb := length_patch hw
      have hr : ∀ v ∈ ws, v.1 + v.2.length ≤ (patch b w.1 w.2).length := by
        intro v hv
        rw [hb]
        exact h v (List.mem_cons_of_mem _ hv)
      rw [List.pairwise_cons] at hp
      rw [assign, List.foldl_cons, ← assign]
      rcases List.mem_cons.mp hm with he | hm'
      · subst he
        rw [field_assign_of_apart (x := (o, d)) hr hp.1]
        exact field_patch_same (by omega)
      · exact ih hr hp.2 hm'

end ByteLayout
