import Mathlib.Algebra.Group.Int.Defs
import Hatch.BlockStream
import Hatch.DesFile
import Hatch.DesSchedule

/-!
# Encrypting and decrypting a file

The cipher file is the sequence of the encrypted blocks, with a padded block at the end if
the length is not a multiple of eight. Decryption gives the blocks back as long as its
`int` counter can reach the length of the file; the padding of a partial block is always
recognised, but a full last block can be taken for padding as well.
-/

namespace Hatch.Des

open BitString BlockStream FixedArray

theorem fread_block (buf b : Vector ElemType 8) (t : List ElemType) (e : Bool) :
    fread buf ⟨b.toList ++ t, e⟩ = (8, b, ⟨t, e⟩) := by
  have hb : b.toList.length = 8 := Vector.length_toList
  have hbuf : fill buf (b.toList ++ t) = b := by
    apply ext_get
    intro i
    have hi : i.val < b.toList.length := by omega
    rw [fill, get_ofFn]
    simp only [Fin.getElem?_fin, List.getElem?_append_left hi, List.getElem?_eq_getElem hi]
    rfl
  have hlen : 8 ≤ (b.toList ++ t).length := by
    rw [List.length_append]
    omega
  simp only [fread, hbuf, Nat.min_eq_left hlen, List.drop_left' hb,
    decide_eq_false (Nat.not_lt.2 hlen), Bool.or_false]

theorem fread_short (buf : Vector ElemType 8) {r : List ElemType} (h : r.length < 8) (e : Bool) :
    fread buf ⟨r, e⟩ = (r.length, fill buf r, ⟨[], true⟩) := by
  have hdrop : r.drop 8 = [] := List.drop_eq_nil_of_le (by omega)
  simp [fread, hdrop, h]
  omega

def padBlock (r : List ElemType) : Vector ElemType 8 :=
  Vector.ofFn fun i => if i.val = 7 then BitVec.ofNat 8 (8 - r.length) else r[i]?.getD 0

theorem pad_short (buf : Vector ElemType 8) {r : List ElemType} (h : r.length < 8) :
    pad (fill buf r) r.length = padBlock r := by
  apply ext_get
  intro i
  rw [padBlock, get_ofFn, pad]
  by_cases h7 : i.val = 7
  · rw [if_pos h7]
    obtain rfl : i = 7 := Fin.ext h7
    exact Vector.getElem_set_self (by decide)
  · rw [if_neg h7]
    refine (Vector.getElem_set_ne (by decide) i.isLt (fun h => h7 h.symm)).trans ?_
    by_cases hi : i.val < r.length
    · refine (get_copy_of_notMem _ _ _ i (by omega)).trans ?_
      simp [fill, hi]
    · refine (get_copy_of_mem _ _ _ i (by omega)).trans ?_
      have hr : r[i]? = none := by simp; omega
      rw [hr]
      exact Vector.getElem_replicate _

section Encrypt

variable (ks : Vector (BitVec 48) 16)

theorem encryptLoop_blocks (bs : List (Vector ElemType 8)) {r : List ElemType}
    (hr : r.length < 8) (count : ℕ) (buf : Vector ElemType 8) (out : List ElemType) :
    ∃ last : Vector ElemType 8,
      encryptLoop (ks.map cells) ⟨join bs ++ r, false⟩ count buf out =
        .ok (r.length, fill last r, out ++ join (bs.map (standardBlock ks))) := by
  induction bs generalizing count buf out with
  | nil =>
      refine ⟨buf, ?_⟩
      rw [encryptLoop]
      simp only [join_nil, List.nil_append, fread_short buf hr, Bool.false_eq_true, if_false]
      rw [if_neg (by omega), encryptLoop]
      simp
  | cons b bs ih =>
      obtain ⟨last, ih⟩ := ih 8 b (out ++ (standardBlock ks b).toList)
      refine ⟨last, ?_⟩
      rw [encryptLoop]
      simp only [join_cons, List.append_assoc, fread_block, Bool.false_eq_true, if_false, if_true,
        desEncryptBlock_cells, blockResult]
      refine ih.trans ?_
      simp

end Encrypt

def fileKeys (key : Vector ElemType 8) : Vector (BitVec 48) 16 :=
  madeKeys (Fips46.ofBytes (mirror key))

theorem desMakeSubKeys_fileKeys (key : Vector ElemType 8)
    (subKeys : Vector (Vector ElemType 48) 16) :
    desMakeSubKeys (char8ToBit64 key) subKeys = (fileKeys key).map cells := by
  rw [char8ToBit64_eq, desMakeSubKeys_cells, fileKeys]

/-- The blocks of a file with the padded one, if there is any. -/
def paddedBlocks (bs : List (Vector ElemType 8)) (r : List ElemType) : List (Vector ElemType 8) :=
  if r = [] then bs else bs ++ [padBlock r]

def cipherFile (key : Vector ElemType 8) (bs : List (Vector ElemType 8)) : List ElemType :=
  join (bs.map (standardBlock (fileKeys key)))

theorem desEncrypt_blocks (locals : Locals) (key : Vector ElemType 8)
    (bs : List (Vector ElemType 8)) {r : List ElemType} (hr : r.length < 8) :
    desEncrypt locals (some (join bs ++ r)) key true =
      .ok (okCode, some (cipherFile key (paddedBlocks bs r))) := by
  obtain ⟨last, hloop⟩ := encryptLoop_blocks (fileKeys key) bs hr locals.count.toNat
    locals.plainBlock []
  simp only [desEncrypt, desMakeSubKeys_fileKeys]
  rw [hloop]
  by_cases h : r = []
  · subst h
    simp [paddedBlocks, cipherFile, bind, Except.bind, pure, Except.pure]
  · simp [paddedBlocks, cipherFile, h, pad_short last hr, desEncryptBlock_cells, blockResult,
      bind, Except.bind, pure, Except.pure]

section Decrypt

variable (ks : Vector (BitVec 48) 16)

theorem times_succ (k : ℕ) : BitVec.ofNat 32 (8 * k) + 8 = BitVec.ofNat 32 (8 * (k + 1)) := by
  rw [Nat.mul_add, BitVec.ofNat_add]
  rfl

theorem toInt_times {k : ℕ} (h : 8 * (k + 1) < 2 ^ 31) :
    (BitVec.ofNat 32 (8 * k) + 8).toInt = 8 * ((k : Int) + 1) := by
  rw [times_succ, toInt_ofNat_of_lt (by omega)]
  exact_mod_cast rfl

/-- The loop ends with the last block in its buffer and the others written. -/
theorem decryptLoop_blocks (b : Vector ElemType 8) (bs : List (Vector ElemType 8)) {k : ℕ}
    (h : 8 * (k + bs.length + 1) < 2 ^ 31) (fuel : ℕ) (e : Bool) (buf : Vector ElemType 8)
    (out : List ElemType) :
    decryptLoop (ks.map cells) (8 * (k + bs.length + 1)) fuel
        ⟨join ((b :: bs).map (standardBlock ks)), e⟩ buf (BitVec.ofNat 32 (8 * k)) out =
      if bs.length < fuel then
        .ok ((b :: bs).getLast (List.cons_ne_nil b bs), out ++ join (b :: bs).dropLast)
      else .error .running := by
  induction bs generalizing b k fuel e buf out with
  | nil =>
      cases fuel with
      | zero => rfl
      | succ fuel =>
          have hlen : ¬ (BitVec.ofNat 32 (8 * k) + 8).toInt < 8 * ((k : Int) + 0 + 1) := by
            rw [toInt_times (by simpa using h)]
            omega
          rw [decryptLoop]
          simp only [List.map_cons, join_cons, fread_block, desDecryptBlock_cells, blockResult,
            standardBlock_reverse, bind, Except.bind]
          refine (if_neg hlen).trans ?_
          simp
          rfl
  | cons c cs ih =>
      cases fuel with
      | zero => rfl
      | succ fuel =>
          have hfile : (8 * ((k : Int) + (c :: cs).length + 1)) =
              8 * (((k + 1 : ℕ) : Int) + cs.length + 1) := by
            simp
            omega
          have hlt : (BitVec.ofNat 32 (8 * k) + 8).toInt <
              8 * ((k : Int) + (c :: cs).length + 1) := by
            rw [toInt_times (by simp at h; omega), List.length_cons]
            omega
          rw [decryptLoop, List.map_cons, join_cons]
          simp only [fread_block, desDecryptBlock_cells, blockResult, standardBlock_reverse, bind,
            Except.bind]
          refine (if_pos hlt).trans ?_
          rw [times_succ, hfile, ih c (by simp at h; omega) fuel]
          simp

theorem decryptLoop_running {fileLen : Int} (h : 2 ^ 31 ≤ fileLen) (fuel : ℕ) (f : InFile)
    (buf : Vector ElemType 8) (times : BitVec 32) (out : List ElemType) :
    decryptLoop (ks.map cells) fileLen fuel f buf times out = .error .running := by
  induction fuel generalizing f buf times out with
  | zero => rfl
  | succ fuel ih =>
      have hlt : (times + 8).toInt < fileLen := by
        have := BitVec.toInt_lt (x := times + 8)
        omega
      rw [decryptLoop, desDecryptBlock_cells]
      simp only [blockResult]
      refine (if_pos hlt).trans ?_
      exact ih _ _ _ _

end Decrypt

section Padding

variable (b : Vector ElemType 8)

theorem scan_eq_seven_iff {count : ℕ} (h : count ≤ 7) :
    scan b count = 7 ↔ ∀ i : Fin 7, count ≤ i → b.get i.castSucc = 0 := by
  fun_induction scan b count with
  | case1 count hlt hne =>
      constructor
      · intro heq
        omega
      · intro hall
        exact absurd (hall ⟨count, hlt⟩ (Nat.le_refl _)) hne
  | case2 count hlt heq ih =>
      rw [ih (by omega)]
      constructor
      · intro hall i hi
        by_cases hc : count = i
        · subst hc
          exact not_not.1 heq
        · exact hall i (by omega)
      · intro hall i hi
        exact hall i (by omega)
  | case3 count hge =>
      constructor
      · intro _ i hi
        omega
      · intro _
        omega

theorem scan_of_ge {count : ℕ} (h : 7 ≤ count) : scan b count = count := by
  rw [scan, dif_neg (by omega)]

/-- The ending that `DES_Decrypt` takes for padding. -/
def LooksPadded : Prop :=
  1 ≤ (b.get 7).toInt ∧ (b.get 7).toInt ≤ 7 ∧
    ∀ i : Fin 7, 8 - (b.get 7).toInt ≤ i → b.get i.castSucc = 0

instance : Decidable (LooksPadded b) := inferInstanceAs (Decidable (_ ∧ _ ∧ _))

/-- A last byte of 8 or more leaves `count` as it was before the call. -/
def StaleCount (count : BitVec 32) : Prop := 8 ≤ (b.get 7).toInt ∧ count = 7

theorem paddingCount_eq_seven_iff (count : BitVec 32) :
    paddingCount count b = 7 ↔ LooksPadded b ∨ StaleCount b count := by
  rw [paddingCount, LooksPadded, StaleCount]
  generalize hv : (b.get 7).toInt = v
  by_cases h8 : v < 8
  · rw [if_pos h8]
    by_cases h1 : 1 ≤ v
    · have hscan := scan_eq_seven_iff b (show (8 - v).toNat ≤ 7 by omega)
      have hcast : ((scan b (8 - v).toNat : ℕ) : Int) = 7 ↔ scan b (8 - v).toNat = 7 := by omega
      have hfrom (i : Fin 7) : (8 - v).toNat ≤ i.val ↔ 8 - v ≤ (i.val : Int) := by omega
      simp only [hcast, hscan, hfrom]
      constructor
      · intro hall
        exact Or.inl ⟨h1, by omega, hall⟩
      · rintro (⟨-, -, hall⟩ | ⟨hge, -⟩)
        · exact hall
        · omega
    · have hscan := scan_of_ge b (show 7 ≤ (8 - v).toNat by omega)
      rw [hscan]
      omega
  · rw [if_neg h8]
    have hcount : count.toInt = 7 ↔ count = 7 := BitVec.toInt_inj (y := 7#32)
    rw [hcount]
    constructor
    · intro h
      exact Or.inr ⟨by omega, h⟩
    · rintro (⟨-, h7, -⟩ | ⟨-, h⟩)
      · omega
      · exact h

theorem pos_of_paddingCount {count : BitVec 32} (h : paddingCount count b = 7) :
    1 ≤ (b.get 7).toInt := by
  obtain ⟨h1, -⟩ | ⟨h8, -⟩ := (paddingCount_eq_seven_iff b count).1 h
  · exact h1
  · omega

theorem lastBytes_eq_iff (count : BitVec 32) :
    lastBytes count b = .ok b.toList ↔ ¬ LooksPadded b ∧ ¬ StaleCount b count := by
  rw [← not_or, ← paddingCount_eq_seven_iff, lastBytes]
  by_cases h : paddingCount count b = 7
  · have h1 := pos_of_paddingCount b h
    rw [if_pos h]
    refine iff_of_false ?_ (not_not.2 h)
    split
    · intro heq
      have hlen := congrArg List.length (Except.ok.inj heq)
      rw [List.length_take, Vector.length_toList] at hlen
      omega
    · intro heq
      cases heq
  · rw [if_neg h]
    exact iff_of_true rfl h

theorem lastBytes_eq_nil_iff (count : BitVec 32) :
    lastBytes count b = .ok [] ↔ b.get 7 = 8 ∧ count = 7 := by
  have hb : b.toList.length = 8 := Vector.length_toList
  have h8 : b.get 7 = 8 ↔ (b.get 7).toInt = 8 := (BitVec.toInt_inj (y := 8#8)).symm
  rw [lastBytes, h8]
  constructor
  · intro heq
    split at heq
    · next h =>
      split at heq
      · have hlen := congrArg List.length (Except.ok.inj heq)
        rw [List.length_take, List.length_nil, hb] at hlen
        obtain ⟨-, h7, -⟩ | ⟨-, hc⟩ := (paddingCount_eq_seven_iff b count).1 h
        · omega
        · exact ⟨by omega, hc⟩
      · cases heq
    · have hlen := congrArg List.length (Except.ok.inj heq)
      rw [hb] at hlen
      cases hlen
  · rintro ⟨hv, hc⟩
    have h : paddingCount count b = 7 :=
      (paddingCount_eq_seven_iff b count).2 (Or.inr ⟨by omega, hc⟩)
    rw [if_pos h, hv]
    rfl

end Padding

theorem lastBytes_padBlock {r : List ElemType} (hr : r ≠ []) (hlt : r.length < 8)
    (count : BitVec 32) : lastBytes count (padBlock r) = .ok r := by
  have hpos : 0 < r.length := List.length_pos_iff.2 hr
  have h7 : ((padBlock r).get 7).toInt = 8 - (r.length : Int) := by
    have hget : (padBlock r).get 7 = BitVec.ofNat 8 (8 - r.length) := by
      rw [padBlock, get_ofFn]
      rfl
    rw [hget, toInt_ofNat_of_lt (by omega)]
    omega
  have hlooks : LooksPadded (padBlock r) := by
    refine ⟨by omega, by omega, fun i hi => ?_⟩
    rw [h7] at hi
    have hne : i.castSucc.val ≠ 7 := by
      rw [Fin.val_castSucc]
      omega
    have hnone : r[i.castSucc]? = none := by
      simp
      omega
    rw [padBlock, get_ofFn, if_neg hne, hnone]
    rfl
  have htake : (8 - (8 - (r.length : Int))).toNat = r.length := by omega
  rw [lastBytes, if_pos ((paddingCount_eq_seven_iff _ count).2 (Or.inl hlooks)), h7,
    if_pos (by omega), htake]
  congr 1
  apply List.ext_getElem
  · simp
    omega
  · intro i h1 h2
    have hne : i ≠ 7 := by omega
    simp [padBlock, hne, h2]

section Files

variable (key : Vector ElemType 8) (locals : Locals)

theorem length_cipherFile (bs : List (Vector ElemType 8)) :
    (cipherFile key bs).length = 8 * bs.length := by
  rw [cipherFile, length_join, List.length_map]

theorem desDecrypt_concat (init : List (Vector ElemType 8)) (last : Vector ElemType 8)
    (h : 8 * (init.length + 1) < 2 ^ 31) (fuel : ℕ) :
    desDecrypt fuel locals (some (cipherFile key (init ++ [last]))) key true =
      if init.length < fuel then
        (lastBytes locals.count last).map fun bytes => (okCode, some (join init ++ bytes))
      else .error .running := by
  obtain ⟨b, bs, hbs⟩ : ∃ b bs, init ++ [last] = b :: bs := by
    cases init with
    | nil => exact ⟨last, [], rfl⟩
    | cons b init => exact ⟨b, init ++ [last], rfl⟩
  have hlen : bs.length = init.length := by
    have := congrArg List.length hbs
    simp at this
    omega
  have hlast : (b :: bs).getLast (List.cons_ne_nil b bs) = last := by
    simp [← hbs]
  have hinit : (b :: bs).dropLast = init := by
    rw [← hbs, List.dropLast_concat]
  have hloop := decryptLoop_blocks (fileKeys key) b bs (k := 0) (by omega) fuel false
    locals.cipherBlock []
  have hfile : ((cipherFile key (b :: bs)).length : Int) =
      8 * (((0 : ℕ) : Int) + bs.length + 1) := by
    rw [length_cipherFile]
    simp
  rw [hbs]
  simp only [desDecrypt, desMakeSubKeys_fileKeys, hfile]
  rw [cipherFile]
  refine (congrArg (· >>= _) hloop).trans ?_
  rw [hlast, hinit, hlen]
  by_cases hf : init.length < fuel
  · rw [if_pos hf, if_pos hf]
    exact bind_pure_comp _ (lastBytes locals.count last)
  · rw [if_neg hf, if_neg hf]
    rfl

theorem desDecrypt_running {content : List ElemType} (h : 2 ^ 31 ≤ content.length) (fuel : ℕ) :
    desDecrypt fuel locals (some content) key true = .error .running := by
  simp only [desDecrypt, desMakeSubKeys_fileKeys]
  rw [decryptLoop_running _ (by exact_mod_cast h)]
  rfl

/-- An empty file is decrypted as one block of whatever `cipherBlock` held. -/
theorem desDecrypt_nil (fuel : ℕ) :
    desDecrypt (fuel + 1) locals (some []) key true =
      (lastBytes locals.count
        (standardBlock (fileKeys key).reverse locals.cipherBlock)).map
          fun bytes => (okCode, some bytes) := by
  have hfill : fill locals.cipherBlock [] = locals.cipherBlock := by
    apply ext_get
    intro i
    simp [fill]
  have hloop : decryptLoop ((fileKeys key).map cells) (([] : List ElemType).length : Int)
      (fuel + 1) ⟨[], false⟩ locals.cipherBlock 0 [] =
        .ok (standardBlock (fileKeys key).reverse locals.cipherBlock, []) := by
    rw [decryptLoop, fread_short locals.cipherBlock (by decide), hfill, desDecryptBlock_cells]
    rfl
  simp only [desDecrypt, desMakeSubKeys_fileKeys, hloop]
  exact bind_pure_comp _ (lastBytes locals.count _)

/-- A result says which bytes were written behind the others. -/
theorem map_written_eq_iff (before bytes : List ElemType) (result : Except Stop (List ElemType)) :
    (result.map fun bytes => (okCode, some (before ++ bytes))) =
        .ok (okCode, some (before ++ bytes)) ↔ result = .ok bytes := by
  cases result with
  | error e =>
      constructor
      · intro h
        cases h
      · intro h
        cases h
  | ok written => simp [Except.map]

theorem exists_desDecrypt_concat_iff (init : List (Vector ElemType 8)) (last : Vector ElemType 8)
    (bytes : List ElemType) :
    (∃ fuel, desDecrypt fuel locals (some (cipherFile key (init ++ [last]))) key true =
        .ok (okCode, some (join init ++ bytes))) ↔
      8 * (init.length + 1) < 2 ^ 31 ∧ lastBytes locals.count last = .ok bytes := by
  constructor
  · rintro ⟨fuel, h⟩
    by_cases hlen : 8 * (init.length + 1) < 2 ^ 31
    · refine ⟨hlen, ?_⟩
      rw [desDecrypt_concat key locals init last hlen] at h
      split at h
      · exact (map_written_eq_iff (join init) bytes _).1 h
      · cases h
    · rw [desDecrypt_running key locals (by simp [length_cipherFile]; omega)] at h
      cases h
  · rintro ⟨hlen, hbytes⟩
    refine ⟨init.length + 1, ?_⟩
    rw [desDecrypt_concat key locals init last hlen, if_pos (by omega)]
    exact (map_written_eq_iff (join init) bytes _).2 hbytes

end Files

theorem desFile_unaligned_iff (key : Vector ElemType 8) (content : List ElemType)
    (h : content.length % 8 ≠ 0) (locals locals' : Locals) :
    (∃ cipher, desEncrypt locals (some content) key true = .ok (okCode, some cipher) ∧
        cipher.length = (content.length + 7) / 8 * 8 ∧
        ∃ fuel, desDecrypt fuel locals' (some cipher) key true = .ok (okCode, some content)) ↔
      (content.length + 7) / 8 * 8 < 2 ^ 31 := by
  obtain ⟨bs, r, rfl, hr⟩ := exists_blocks (n := 8) (by decide) content
  rw [List.length_append, length_join] at h ⊢
  have hne : r ≠ [] := by
    rintro rfl
    simp at h
  have hpos : 0 < r.length := List.length_pos_iff.2 hne
  have hround : (8 * bs.length + r.length + 7) / 8 * 8 = 8 * (bs.length + 1) := by omega
  have hfile : paddedBlocks bs r = bs ++ [padBlock r] := if_neg hne
  have hdecrypt := exists_desDecrypt_concat_iff key locals' bs (padBlock r) r
  rw [desEncrypt_blocks locals key bs hr, hfile, hround]
  constructor
  · rintro ⟨cipher, henc, -, hdec⟩
    obtain rfl : cipherFile key (bs ++ [padBlock r]) = cipher := by simpa using henc
    exact (hdecrypt.1 hdec).1
  · intro hlen
    refine ⟨_, rfl, by simp [length_cipherFile], hdecrypt.2 ⟨hlen, ?_⟩⟩
    exact lastBytes_padBlock hne hr _

def blankLocals : Locals :=
  ⟨0, Vector.replicate 8 0, Vector.replicate 8 0, Vector.replicate 16 (Vector.replicate 48 0)⟩

theorem desFile_unaligned_iff_abc :
    let key : Vector ElemType 8 := #v[0x6d, 0x79, 0x6b, 0x65, 0x79, 0x6b, 0x65, 0x79]
    let content : List ElemType := [0x61, 0x62, 0x63]
    ∃ cipher, desEncrypt blankLocals (some content) key true = .ok (okCode, some cipher) ∧
      cipher.length = 8 ∧
      ∃ fuel, desDecrypt fuel blankLocals (some cipher) key true = .ok (okCode, some content) :=
  (desFile_unaligned_iff _ _ (by decide) _ _).2 (by decide)

theorem desFile_unaligned_hangs :
    let key : Vector ElemType 8 := Vector.replicate 8 0
    let content : List ElemType := List.replicate (2 ^ 31 - 1) 0
    content.length % 8 = 7 ∧
      ∃ cipher, desEncrypt blankLocals (some content) key true = .ok (okCode, some cipher) ∧
        ∀ fuel, desDecrypt fuel blankLocals (some cipher) key true = .error .running := by
  intro key content
  have hlen : content.length = 2 ^ 31 - 1 := List.length_replicate
  refine ⟨by omega, ?_⟩
  obtain ⟨bs, r, hbs, hr⟩ := exists_blocks (n := 8) (by decide) content
  have hsum : 8 * bs.length + r.length = 2 ^ 31 - 1 := by
    rw [← hlen, hbs, List.length_append, length_join]
  have hne : r ≠ [] := by
    rintro rfl
    simp at hsum
    omega
  rw [hbs, desEncrypt_blocks blankLocals key bs hr]
  refine ⟨_, rfl, fun fuel => desDecrypt_running key blankLocals ?_ fuel⟩
  rw [paddedBlocks, if_neg hne, length_cipherFile, List.length_append, List.length_singleton]
  omega

def lastBlock (content : List ElemType) : Vector ElemType 8 :=
  Vector.ofFn fun i => content[content.length - 8 + i]?.getD 0

theorem lastBlock_concat (init : List (Vector ElemType 8)) (last : Vector ElemType 8) :
    lastBlock (join (init ++ [last])) = last := by
  apply ext_get
  intro i
  have hi : i.val < last.toList.length := by simp
  have hpos : (join (init ++ [last])).length - 8 + i = (join init).length + i := by
    simp
  rw [lastBlock, get_ofFn, hpos, join_append, List.getElem?_append_right (by omega),
    Nat.add_sub_cancel_left, join_cons, join_nil, List.append_nil, List.getElem?_eq_getElem hi]
  rfl

/-- What an aligned file and the uninitialised locals must be for the file to come back: an
empty one needs a stale block that is decrypted to a last byte of 8, and a stale count of 7. -/
def Recovers (key : Vector ElemType 8) (locals : Locals) (content : List ElemType) : Prop :=
  if content = [] then
    (∃ block, desDecryptBlock locals.cipherBlock
      (desMakeSubKeys (char8ToBit64 key) locals.subKeys) = some block ∧ block.get 7 = 8) ∧
      locals.count = 7
  else
    content.length < 2 ^ 31 ∧ ¬ LooksPadded (lastBlock content) ∧
      ¬ StaleCount (lastBlock content) locals.count

theorem recovers_nil_iff (key : Vector ElemType 8) (locals : Locals) :
    Recovers key locals [] ↔
      ∃ fuel, desDecrypt fuel locals (some []) key true = .ok (okCode, some []) := by
  rw [Recovers, if_pos rfl, desMakeSubKeys_fileKeys, desDecryptBlock_cells]
  have hnil := lastBytes_eq_nil_iff (standardBlock (fileKeys key).reverse locals.cipherBlock)
    locals.count
  simp only [Option.some.injEq, exists_eq_left', ← hnil]
  constructor
  · intro hbytes
    refine ⟨1, ?_⟩
    rw [desDecrypt_nil]
    exact (map_written_eq_iff [] [] _).2 hbytes
  · rintro ⟨fuel, h⟩
    cases fuel with
    | zero =>
        rw [desDecrypt] at h
        cases h
    | succ fuel =>
        rw [desDecrypt_nil] at h
        exact (map_written_eq_iff [] [] _).1 h

theorem recovers_concat_iff (key : Vector ElemType 8) (locals : Locals)
    (init : List (Vector ElemType 8)) (last : Vector ElemType 8) :
    Recovers key locals (join (init ++ [last])) ↔
      ∃ fuel, desDecrypt fuel locals (some (cipherFile key (init ++ [last]))) key true =
        .ok (okCode, some (join (init ++ [last]))) := by
  have hne : join (init ++ [last]) ≠ [] := by
    intro h0
    have := congrArg List.length h0
    simp at this
  have hdecrypt := exists_desDecrypt_concat_iff key locals init last last.toList
  have hjoin : join (init ++ [last]) = join init ++ last.toList := by simp
  rw [Recovers, if_neg hne, lastBlock_concat, length_join, List.length_append,
    List.length_singleton, ← lastBytes_eq_iff, ← hdecrypt, hjoin]

theorem desFile_aligned_iff (key : Vector ElemType 8) (content : List ElemType)
    (h : 8 ∣ content.length) (locals locals' : Locals) :
    (∃ cipher, desEncrypt locals (some content) key true = .ok (okCode, some cipher) ∧
        ∃ fuel, desDecrypt fuel locals' (some cipher) key true = .ok (okCode, some content)) ↔
      Recovers key locals' content := by
  obtain ⟨bs, rfl⟩ := exists_blocks_of_dvd (n := 8) (by decide) h
  have hpad : paddedBlocks bs [] = bs := if_pos rfl
  have hencrypt := desEncrypt_blocks locals key bs (r := []) (by decide)
  rw [List.append_nil, hpad] at hencrypt
  rw [hencrypt]
  have hcipher : Recovers key locals' (join bs) ↔
      ∃ fuel, desDecrypt fuel locals' (some (cipherFile key bs)) key true =
        .ok (okCode, some (join bs)) := by
    rcases List.eq_nil_or_concat bs with rfl | ⟨init, last, rfl⟩
    · exact recovers_nil_iff key locals'
    · rw [List.concat_eq_append]
      exact recovers_concat_iff key locals' init last
  rw [hcipher]
  simp

theorem desFile_aligned_iff_zeros :
    let key : Vector ElemType 8 := #v[0x6d, 0x79, 0x6b, 0x65, 0x79, 0x6b, 0x65, 0x79]
    let content : List ElemType := List.replicate 8 0
    ∃ cipher, desEncrypt blankLocals (some content) key true = .ok (okCode, some cipher) ∧
      ∃ fuel, desDecrypt fuel blankLocals (some cipher) key true = .ok (okCode, some content) :=
  (desFile_aligned_iff _ _ (by decide) _ _).2 (by
    rw [Recovers, if_neg (by decide), StaleCount]
    decide)

/-- A final byte 1 is cut off, and a text file is read beyond its buffer when the stack holds
a 7 where `count` lies. -/
theorem desFile_aligned_lost :
    let key : Vector ElemType 8 := #v[0x6d, 0x79, 0x6b, 0x65, 0x79, 0x6b, 0x65, 0x79]
    let binary : Vector ElemType 8 := #v[0x68, 0x61, 0x74, 0x63, 0x68, 0x00, 0x00, 0x01]
    let text : Vector ElemType 8 := #v[0x68, 0x61, 0x74, 0x63, 0x68, 0x6e, 0x65, 0x74]
    (∃ cipher, desEncrypt blankLocals (some binary.toList) key true = .ok (okCode, some cipher) ∧
      desDecrypt 1 blankLocals (some cipher) key true =
        .ok (okCode, some [0x68, 0x61, 0x74, 0x63, 0x68, 0x00, 0x00])) ∧
    ∃ cipher, desEncrypt blankLocals (some text.toList) key true = .ok (okCode, some cipher) ∧
      desDecrypt 1 { blankLocals with count := 7 } (some cipher) key true = .error .overread := by
  intro key binary text
  have henc (b : Vector ElemType 8) := desEncrypt_blocks blankLocals key [b] (r := []) (by decide)
  have hjoin (b : Vector ElemType 8) : join [b] ++ [] = b.toList := by simp
  simp only [hjoin] at henc
  refine ⟨⟨_, henc binary, ?_⟩, _, henc text, ?_⟩
  · have hpad : LooksPadded binary := by decide
    refine (desDecrypt_concat key blankLocals [] binary (by decide) 1).trans ?_
    rw [lastBytes, if_pos ((paddingCount_eq_seven_iff _ _).2 (Or.inl hpad))]
    rfl
  · have hstale : StaleCount text 7 := ⟨by decide, rfl⟩
    refine (desDecrypt_concat key _ [] text (by decide) 1).trans ?_
    rw [lastBytes, if_pos ((paddingCount_eq_seven_iff _ _).2 (Or.inr hstale))]
    rfl

end Hatch.Des
