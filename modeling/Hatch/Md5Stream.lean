import Hatch.Md5Transform

/-!
# A digest computed chunk by chunk

A context holds a message when its bit count is that of the message modulo `2 ^ 64`, its
state has processed the full blocks and its buffer starts with the bytes behind them.
`MD5Update` keeps this for the message with the chunk appended, `MD5Final` appends the
padding of the standard, and so the digest depends on the chunks only through the message
they make up.
-/

namespace Hatch.Md5

open BitString BlockStream FixedArray
open Rfc1321 (process initial)

theorem readBlock_append (before : List (BitVec 8)) (b : Vector (BitVec 8) 64)
    (after : List (BitVec 8)) :
    readBlock (before ++ (b.toList ++ after)) before.length = .ok b := by
  have hb : b.toList.length = 64 := Vector.length_toList
  rw [readBlock, dif_pos (by simp)]
  congr 1
  apply Vector.toList_inj.mp
  change (((before ++ (b.toList ++ after)).drop before.length).take 64) = b.toList
  rw [List.drop_left, List.take_left' hb]

theorem copyIn_append {buffer : Vector (BitVec 8) 64} {held old : List (BitVec 8)}
    (hbuffer : buffer.toList = held ++ old) (before src after : List (BitVec 8))
    (hfits : held.length + src.length ≤ 64) :
    ∃ buffer' : Vector (BitVec 8) 64,
      copyIn buffer held.length (before ++ (src ++ after)) before.length src.length =
        .ok buffer' ∧ buffer'.toList = held ++ src ++ old.drop src.length := by
  refine ⟨⟨(held ++ src ++ old.drop src.length).toArray, ?_⟩, ?_, by simp⟩
  · have := congrArg List.length hbuffer
    simp at this ⊢
    omega
  · rw [copyIn, dif_pos (by simp), dif_pos hfits]
    congr 1
    apply Vector.toList_inj.mp
    change buffer.toList.take held.length ++
      ((before ++ (src ++ after)).drop before.length).take src.length ++
      buffer.toList.drop (held.length + src.length) = held ++ src ++ old.drop src.length
    rw [hbuffer, List.drop_left, List.take_left, List.take_left, ← List.drop_drop, List.drop_left]

/-- The loop of `MD5Update` on an input that goes on with full blocks and a shorter rest. -/
theorem blockLoop_blocks {inputlen : BitVec 32} (bs : List (Vector (BitVec 8) 64))
    (before r after : List (BitVec 8)) (hr : r.length < 64)
    (hlen : inputlen.toNat = before.length + 64 * bs.length + r.length)
    (hsmall : inputlen.toNat < 2 ^ 32 - 64) {fuel : ℕ} (hfuel : bs.length < fuel)
    (state : Vector (BitVec 32) 4) :
    blockLoop (before ++ (join bs ++ (r ++ after))) inputlen fuel (BitVec.ofNat 32 before.length)
      state =
        .ok (BitVec.ofNat 32 (before.length + 64 * bs.length), bs.foldl md5Transform state) := by
  induction bs generalizing before fuel state with
  | nil =>
      obtain ⟨fuel, rfl⟩ := Nat.exists_eq_add_of_lt hfuel
      simp only [List.length_nil, Nat.zero_add, Nat.mul_zero, Nat.add_zero] at hlen ⊢
      have hend : ¬ BitVec.ofNat 32 before.length + 64 ≤ inputlen := by
        rw [BitVec.le_def]
        simp
        omega
      rw [blockLoop, if_neg hend]
      rfl
  | cons b bs ih =>
      obtain ⟨fuel, rfl⟩ := Nat.exists_eq_add_of_lt (Nat.zero_lt_of_lt hfuel)
      rw [List.length_cons] at hlen hfuel
      have hmore : BitVec.ofNat 32 before.length + 64 ≤ inputlen := by
        rw [BitVec.le_def]
        simp
        omega
      have hb : b.toList.length = 64 := Vector.length_toList
      have hread := readBlock_append before b (join bs ++ (r ++ after))
      have hi : BitVec.ofNat 32 before.length + 64 =
          BitVec.ofNat 32 (before ++ b.toList).length := by
        rw [List.length_append, hb, BitVec.ofNat_add]
        rfl
      have hat : (BitVec.ofNat 32 before.length).toNat = before.length := by
        simp
        omega
      have hrun := ih (before ++ b.toList) (by simp; omega) (show bs.length < 0 + fuel by omega)
        (md5Transform state b)
      rw [blockLoop, if_pos hmore, hat, join_cons, List.append_assoc, hread]
      simp only [bind, Except.bind]
      rw [hi, ← List.append_assoc before, hrun, List.length_append, hb, Nat.add_assoc,
        List.length_cons, Nat.mul_add_one, Nat.add_comm 64]
      rfl

section Update

variable {context : Ctx} {bs : List (Vector (BitVec 8) 64)} {r chunk m : List (BitVec 8)}

/-- The two words of the count, the second one in front. -/
def wide (count : Vector (BitVec 32) 2) : BitVec 64 := count.get 1 ++ count.get 0

theorem toNat_wide (count : Vector (BitVec 32) 2) :
    (wide count).toNat = (count.get 1).toNat * 2 ^ 32 + (count.get 0).toNat := by
  have h := BitVec.toNat_append (count.get 1) (count.get 0)
  rw [← Nat.shiftLeft_add_eq_or_of_lt (count.get 0).isLt, Nat.shiftLeft_eq] at h
  exact h

theorem wide_addCount (count : Vector (BitVec 32) 2) (inputlen : BitVec 32) :
    wide (addCount count inputlen) = wide count + 8 * inputlen.setWidth 64 := by
  have hlow : ((addCount count inputlen).get 0) = count.get 0 + inputlen <<< 3 := rfl
  have hhigh : ((addCount count inputlen).get 1) =
      (if count.get 0 + inputlen <<< 3 < inputlen <<< 3 then count.get 1 + 1 else count.get 1) +
        inputlen >>> 29 := rfl
  have h0 := (count.get 0).isLt
  have h1 := (count.get 1).isLt
  have hn := inputlen.isLt
  apply BitVec.eq_of_toNat_eq
  rw [BitVec.toNat_add, toNat_wide, toNat_wide, hlow, hhigh]
  by_cases hcarry : count.get 0 + inputlen <<< 3 < inputlen <<< 3
  · rw [if_pos hcarry]
    rw [BitVec.lt_def] at hcarry
    simp [Nat.shiftLeft_eq, Nat.shiftRight_eq_div_pow] at hcarry ⊢
    omega
  · rw [if_neg hcarry]
    rw [BitVec.lt_def] at hcarry
    simp [Nat.shiftLeft_eq, Nat.shiftRight_eq_div_pow] at hcarry ⊢
    omega

/-- The context holds the message made of the blocks `bs` and the rest `r`. -/
structure Holds (context : Ctx) (bs : List (Vector (BitVec 8) 64)) (r : List (BitVec 8)) :
    Prop where
  short : r.length < 64
  count : wide context.count = BitVec.ofNat 64 (8 * (join bs ++ r).length)
  state : named 0 context.state = bs.foldl process initial
  buffer : r <+: context.buffer.toList

theorem holds_md5Init (context : Ctx) : Holds (md5Init context) [] [] where
  short := by decide
  count := by
    change wide #v[0, 0] = BitVec.ofNat 64 0
    decide
  state := rfl
  buffer := List.nil_prefix

theorem toNat_bufferIndex (h : Holds context bs r) : (bufferIndex context).toNat = r.length := by
  have hcount := congrArg BitVec.toNat h.count
  have hshort := h.short
  rw [toNat_wide, List.length_append, length_join, BitVec.toNat_ofNat] at hcount
  have hmask := Nat.and_two_pow_sub_one_eq_mod ((context.count.get 0).toNat >>> 3) 6
  have h0 := (context.count.get 0).isLt
  rw [bufferIndex, BitVec.toNat_and, BitVec.toNat_ushiftRight]
  change _ &&& (2 ^ 6 - 1) = _
  rw [hmask, Nat.shiftRight_eq_div_pow]
  omega

theorem named_foldl (bs : List (Vector (BitVec 8) 64)) (state : Vector (BitVec 32) 4) :
    named 0 (bs.foldl md5Transform state) = bs.foldl process (named 0 state) :=
  (List.foldl_hom (named 0) fun state b => (named_md5Transform state b).symm).symm

theorem count_append (h : Holds context bs r) (hsmall : chunk.length < 2 ^ 32) :
    wide (addCount context.count (BitVec.ofNat 32 chunk.length)) =
      BitVec.ofNat 64 (8 * (join bs ++ r ++ chunk).length) := by
  rw [wide_addCount, h.count]
  apply BitVec.eq_of_toNat_eq
  simp
  omega

theorem toNat_partlen (h : Holds context bs r) :
    (64 - bufferIndex context).toNat = 64 - r.length := by
  rw [toNat_sub_bufferIndex, toNat_bufferIndex h]

/-- A chunk that does not fill the buffer is only appended to it. -/
theorem md5Update_short (h : Holds context bs r) (hlt : r.length + chunk.length < 64)
    (after : List (BitVec 8)) (fuel : ℕ) :
    ∃ context', md5Update fuel context (chunk ++ after) (BitVec.ofNat 32 chunk.length) =
      .ok context' ∧ Holds context' bs (r ++ chunk) := by
  obtain ⟨old, hold⟩ := h.buffer
  obtain ⟨buffer, hcopy, hbuffer⟩ := copyIn_append hold.symm [] chunk after (by omega)
  have hlen : (BitVec.ofNat 32 chunk.length).toNat = chunk.length := by
    simp
    omega
  have hpart : ¬ 64 - bufferIndex context ≤ BitVec.ofNat 32 chunk.length := by
    rw [BitVec.le_def, toNat_partlen h, hlen]
    omega
  refine ⟨⟨addCount context.count (BitVec.ofNat 32 chunk.length), context.state, buffer⟩, ?_, ?_⟩
  · rw [List.nil_append, List.length_nil] at hcopy
    rw [md5Update]
    simp only [if_neg hpart]
    rw [toNat_bufferIndex h, hlen, hcopy]
    rfl
  · exact ⟨by simpa using hlt, by rw [← List.append_assoc]; exact count_append h (by omega),
      h.state, ⟨_, hbuffer.symm⟩⟩

/-- A chunk that fills the buffer with `front` and goes on with full blocks and a rest. -/
theorem md5Update_full {front : List (BitVec 8)} (h : Holds context bs r)
    (hfront : r.length + front.length = 64)
    (more : List (Vector (BitVec 8) 64)) {r' : List (BitVec 8)} (hr' : r'.length < 64)
    (hsmall : (front ++ (join more ++ r')).length < 2 ^ 32 - 64) (after : List (BitVec 8))
    {fuel : ℕ} (hfuel : more.length < fuel) :
    ∃ (context' : Ctx) (block : Vector (BitVec 8) 64),
      md5Update fuel context (front ++ (join more ++ (r' ++ after)))
        (BitVec.ofNat 32 (front ++ (join more ++ r')).length) = .ok context' ∧
      block.toList = r ++ front ∧ Holds context' (bs ++ block :: more) r' := by
  obtain ⟨old, hold⟩ := h.buffer
  obtain ⟨block, hcopy, hblock⟩ := copyIn_append hold.symm [] front (join more ++ (r' ++ after))
    (by omega)
  have hlenold : r.length + old.length = 64 := by
    have := congrArg List.length hold
    simpa using this
  rw [List.drop_eq_nil_of_le (by omega), List.append_nil] at hblock
  obtain ⟨buffer, hcopy', hbuffer⟩ := copyIn_append (List.nil_append block.toList).symm
    (front ++ join more) r' after (by simp; omega)
  have hlen : (BitVec.ofNat 32 (front ++ (join more ++ r')).length).toNat =
      front.length + 64 * more.length + r'.length := by
    simp at hsmall ⊢
    omega
  have hpart : 64 - bufferIndex context = BitVec.ofNat 32 front.length := by
    apply BitVec.eq_of_toNat_eq
    rw [toNat_partlen h, BitVec.toNat_ofNat]
    omega
  have hle : 64 - bufferIndex context ≤ BitVec.ofNat 32 (front ++ (join more ++ r')).length := by
    rw [BitVec.le_def, toNat_partlen h, hlen]
    omega
  have hloop := blockLoop_blocks more front r' after hr' hlen (by simp at hsmall hlen ⊢; omega)
    hfuel (md5Transform context.state block)
  refine ⟨⟨addCount context.count (BitVec.ofNat 32 (front ++ (join more ++ r')).length),
    more.foldl md5Transform (md5Transform context.state block), buffer⟩, block, ?_, hblock, ?_⟩
  · have hfrontNat : (BitVec.ofNat 32 front.length).toNat = front.length := by
      rw [BitVec.toNat_ofNat]
      omega
    have hi : (BitVec.ofNat 32 (front.length + 64 * more.length)).toNat =
        (front ++ join more).length := by
      simp at hsmall ⊢
      omega
    have hleft : (BitVec.ofNat 32 (front ++ (join more ++ r')).length -
        BitVec.ofNat 32 (front.length + 64 * more.length)).toNat = r'.length := by
      rw [BitVec.toNat_sub, hlen, hi]
      simp at hsmall ⊢
      omega
    rw [List.nil_append, List.length_nil] at hcopy
    rw [List.append_assoc, List.length_nil] at hcopy'
    rw [md5Update]
    simp only [if_pos hle]
    rw [toNat_bufferIndex h, hpart, hfrontNat, hcopy]
    simp only [bind, Except.bind]
    rw [hloop]
    simp only
    rw [hi, hleft, hcopy']
    rfl
  · refine ⟨hr', ?_, ?_, ⟨_, hbuffer.symm⟩⟩
    · rw [count_append h (by omega)]
      simp [hblock]
    · rw [named_foldl, named_md5Transform, h.state, List.foldl_append]
      rfl

def Represents (context : Ctx) (m : List (BitVec 8)) : Prop :=
  ∃ bs r, Holds context bs r ∧ m = join bs ++ r

theorem md5Update_represents (h : Represents context m) (chunk : List (BitVec 8))
    (hsmall : chunk.length < 2 ^ 32 - 64) (after : List (BitVec 8)) {fuel : ℕ}
    (hfuel : chunk.length < 64 * fuel) :
    ∃ context', md5Update fuel context (chunk ++ after) (BitVec.ofNat 32 chunk.length) =
      .ok context' ∧ Represents context' (m ++ chunk) := by
  obtain ⟨bs, r, hholds, rfl⟩ := h
  by_cases hlt : r.length + chunk.length < 64
  · obtain ⟨context', hrun, hholds'⟩ := md5Update_short hholds hlt after fuel
    exact ⟨context', hrun, bs, r ++ chunk, hholds', List.append_assoc ..⟩
  · have hshort := hholds.short
    obtain ⟨front, back, rfl, hfront⟩ : ∃ front back, chunk = front ++ back ∧
        r.length + front.length = 64 :=
      ⟨chunk.take (64 - r.length), chunk.drop (64 - r.length), by simp, by simp; omega⟩
    obtain ⟨more, r', rfl, hr'⟩ := exists_blocks (n := 64) (by decide) back
    have hmore : more.length < fuel := by
      simp at hfuel
      omega
    obtain ⟨context', block, hrun, hblock, hholds'⟩ :=
      md5Update_full hholds hfront more hr' hsmall after hmore
    refine ⟨context', by simpa using hrun, _, _, hholds', ?_⟩
    simp [hblock]

theorem md5Updates_represents (h : Represents context m) {chunks : List (List (BitVec 8))}
    (hsmall : ∀ chunk ∈ chunks, chunk.length < 2 ^ 32 - 64)
    {fuel : ℕ} (hfuel : ∀ chunk ∈ chunks, chunk.length < 64 * fuel) :
    ∃ context', md5Updates fuel context chunks = .ok context' ∧
      Represents context' (m ++ chunks.flatten) := by
  induction chunks generalizing context m with
  | nil => exact ⟨context, rfl, by simpa using h⟩
  | cons chunk chunks ih =>
      obtain ⟨context₁, hrun, h₁⟩ := md5Update_represents h chunk (hsmall chunk (by simp)) []
        (hfuel chunk (by simp))
      obtain ⟨context₂, hruns, h₂⟩ := ih h₁ (fun c hc => hsmall c (List.mem_cons_of_mem _ hc))
        (fun c hc => hfuel c (List.mem_cons_of_mem _ hc))
      refine ⟨context₂, ?_, by simpa using h₂⟩
      rw [List.append_nil] at hrun
      rw [md5Updates, List.foldlM_cons, hrun]
      exact hruns

/-- The count as `MD5Final` appends it is the length field of the standard. -/
theorem md5Encode_count {count : Vector (BitVec 32) 2} {n : ℕ}
    (h : wide count = BitVec.ofNat 64 (8 * n)) : md5Encode count = Rfc1321.lengthBytes n := by
  apply ext_get
  intro j
  rw [md5Encode, Rfc1321.lengthBytes, get_ofFn, get_ofFn, shift_and_byte, ← h]
  apply BitVec.eq_of_getLsbD_eq
  intro i hi
  have hwide := BitVec.getLsbD_append (x := count.get 1) (y := count.get 0) (i := 8 * j + i)
  rw [BitVec.getLsbD_extractLsb', BitVec.getLsbD_extractLsb']
  change _ = (_ && (count.get 1 ++ count.get 0).getLsbD _)
  rw [hwide]
  by_cases hj : j.val < 4
  · have hget : count.get ⟨j / 4, by omega⟩ = count.get 0 := congrArg count.get (Fin.ext (by
      change j.val / 4 = 0
      omega))
    rw [hget, if_pos (by omega), Nat.mod_eq_of_lt hj]
  · have hget : count.get ⟨j / 4, by omega⟩ = count.get 1 := congrArg count.get (Fin.ext (by
      change j.val / 4 = 1
      omega))
    rw [hget, if_neg (by omega)]
    congr 2
    omega

theorem md5Encode_state (state : Vector (BitVec 32) 4) :
    md5Encode state = Rfc1321.output (named 0 state) := by
  have hwords : #v[(named 0 state).a, (named 0 state).b, (named 0 state).c, (named 0 state).d] =
      state := by
    apply ext_get
    intro i
    match i with
    | 0 | 1 | 2 | 3 => rfl
  apply ext_get
  intro j
  rw [md5Encode, Rfc1321.output, hwords, get_ofFn, get_ofFn, shift_and_byte]

/-- The bytes that `MD5Final` appends are the padding of the standard. -/
theorem padded_eq {padlen : ℕ}
    (h : padlen = if m.length % 64 < 56 then 56 - m.length % 64 else 120 - m.length % 64) :
    m ++ padding.take padlen ++ (Rfc1321.lengthBytes m.length).toList = Rfc1321.padded m := by
  have hsucc : padlen = (119 - m.length % 64) % 64 + 1 := by
    rw [h]
    split <;> omega
  have htake : padding.take padlen =
      0x80 :: List.replicate ((119 - m.length % 64) % 64) 0 := by
    rw [hsucc, padding, List.take_succ_cons, List.take_replicate]
    congr 2
    omega
  rw [htake, Rfc1321.padded]

theorem length_padded (m : List (BitVec 8)) : 64 ∣ (Rfc1321.padded m).length := by
  simp only [Rfc1321.padded, List.length_append, List.length_cons, List.length_replicate,
    Vector.length_toList]
  omega

/-- The state that holds a padded message is the digest. -/
theorem md5Encode_represents (h : Represents context (Rfc1321.padded m)) :
    md5Encode context.state = Rfc1321.md5 m := by
  obtain ⟨bs, r, hholds, hpadded⟩ := h
  have hr : r = [] := by
    have hlen := length_padded m
    have hshort := hholds.short
    rw [hpadded, List.length_append, length_join] at hlen
    apply List.eq_nil_of_length_eq_zero
    omega
  have hblocks : blocks 64 (Rfc1321.padded m) = bs := by
    rw [hpadded, blocks, cut_join_append bs hholds.short]
  rw [md5Encode_state, hholds.state, Rfc1321.md5, hblocks]

theorem toNat_padlen (h : Holds context bs r) :
    (if bufferIndex context < 56 then 56 - bufferIndex context
      else 120 - bufferIndex context).toNat =
      if r.length < 56 then 56 - r.length else 120 - r.length := by
  have hindex := toNat_bufferIndex h
  have hshort := h.short
  have hlt : bufferIndex context < 56 ↔ r.length < 56 := by
    rw [BitVec.lt_def, hindex]
    rfl
  simp only [hlt]
  split <;>
  · rw [BitVec.toNat_sub, hindex]
    simp
    omega

theorem md5Final_represents (h : Represents context m) {fuel : ℕ} (hfuel : 1 < fuel) :
    ∃ context', md5Final fuel context = .ok (context', Rfc1321.md5 m) := by
  obtain ⟨bs, r, hholds, hm⟩ := id h
  have hpadlen := toNat_padlen hholds
  have hmod : m.length % 64 = r.length := by
    have hshort := hholds.short
    simp [hm]
    omega
  have hcount := md5Encode_count hholds.count
  rw [← hm] at hcount
  rw [← hmod] at hpadlen
  rw [md5Final]
  generalize (if bufferIndex context < 56 then 56 - bufferIndex context
    else 120 - bufferIndex context) = padlen at hpadlen ⊢
  have hle : padlen.toNat ≤ 64 := by
    rw [hpadlen]
    split <;> omega
  have htake : (padding.take padlen.toNat).length = padlen.toNat := by
    simp [padding]
    omega
  obtain ⟨context₁, hrun₁, h₁⟩ := md5Update_represents h (padding.take padlen.toNat) (by omega)
    (padding.drop padlen.toNat) (show _ < 64 * fuel by omega)
  obtain ⟨context₂, hrun₂, h₂⟩ := md5Update_represents h₁
    (Rfc1321.lengthBytes m.length).toList (by simp) [] (show _ < 64 * fuel by simp; omega)
  rw [padded_eq hpadlen] at h₂
  rw [List.take_append_drop, htake, BitVec.ofNat_toNat, BitVec.setWidth_eq] at hrun₁
  rw [List.append_nil, Vector.length_toList] at hrun₂
  replace hrun₂ : md5Update fuel context₁ (Rfc1321.lengthBytes m.length).toList 8 =
    .ok context₂ := hrun₂
  refine ⟨context₂, ?_⟩
  simp only [bind, Except.bind, hcount]
  rw [hrun₁]
  simp only
  rw [hrun₂]
  simp only
  rw [md5Encode_represents h₂]
  rfl

end Update

/-- The digest of a message that arrives in chunks is the digest of the standard for the
whole message, however it is cut. -/
theorem digest_eq_md5 (context : Ctx) (chunks : List (List (BitVec 8)))
    (h : ∀ chunk ∈ chunks, chunk.length < 2 ^ 32 - 64) :
    ∃ enough, ∀ fuel ≥ enough, digest fuel context chunks = .ok (Rfc1321.md5 chunks.flatten) := by
  refine ⟨chunks.flatten.length + 2, fun fuel hfuel => ?_⟩
  have hchunk (chunk : List (BitVec 8)) (hc : chunk ∈ chunks) : chunk.length < 64 * fuel := by
    have := (List.sublist_flatten_of_mem hc).length_le
    omega
  have hinit : Represents (md5Init context) [] := ⟨[], [], holds_md5Init context, rfl⟩
  obtain ⟨context₁, hruns, h₁⟩ := md5Updates_represents hinit h hchunk
  obtain ⟨context₂, hfinal⟩ := md5Final_represents h₁ (show 1 < fuel by omega)
  rw [digest, hruns]
  simp only [bind, Except.bind]
  rw [hfinal]
  rfl

theorem digest_eq_md5_abc :
    ∃ enough, ∀ fuel ≥ enough,
      digest fuel ⟨#v[1, 2], #v[3, 4, 5, 6], Vector.replicate 64 7⟩ [[0x61], [], [0x62, 0x63]] =
        .ok (Rfc1321.md5 [0x61, 0x62, 0x63]) :=
  digest_eq_md5 _ [[0x61], [], [0x62, 0x63]] (by decide)

/-- The digest of "abc" among the test values of the source. -/
example :
    (digest 1 ⟨#v[1, 2], #v[3, 4, 5, 6], Vector.replicate 64 7⟩ [[0x61], [0x62, 0x63]]).toOption =
      some #v[0x90, 0x01, 0x50, 0x98, 0x3C, 0xD2, 0x4F, 0xB0, 0xD6, 0x96, 0x3F, 0x7D, 0x28, 0xE1,
        0x7F, 0x72] := by
  decide +kernel

end Hatch.Md5
