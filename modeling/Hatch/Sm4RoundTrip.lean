import Hatch.HexText
import Hatch.JavaLatin1
import Hatch.Sm4Stream

/-!
# The string methods of `Sm4.java` undo each other

The hexadecimal text of the DES result is a whole number of SM4 blocks, so the block loop
loses none of it. The round trip of a text is exact until a length leaves the range of
`int`, and that of `Encryption` and `Decrypt` also needs a text that `trim` leaves alone.
-/

namespace Hatch.Sm4

open BlockStream Hatch.Convert Java

variable (p : Platform) (des : DesCbc) (key : Vector Byte 16) (s : Str)

def desBytes : List Byte := des.encrypt (p.getBytes passwordCryptKey) iv (p.getBytes s)

theorem length_desBytes : (desBytes p des s).length = 8 * ((p.getBytes s).length / 8 + 1) :=
  des.length_encrypt ..

def sm4Input : List Byte := p.getBytes (hexText (desBytes p des s))

theorem length_sm4Input : (sm4Input p des s).length = 16 * ((p.getBytes s).length / 8 + 1) := by
  rw [sm4Input, p.length_getBytes _ (isAscii_hexText _), length_hexText, length_desBytes]
  omega

theorem encryptDES_eq :
    encryptDES p des s =
      if (sm4Input p des s).length < 2 ^ 31 then .ok (hexText (desBytes p des s))
      else .error .outOfMemory := by
  have hlen : 2 * (desBytes p des s).length = (sm4Input p des s).length := by
    rw [length_desBytes, length_sm4Input]
    omega
  rw [← hlen]
  exact parseByte2HexStr_eq p (desBytes p des s)

theorem decryptDES_eq : decryptDES p des (hexText (desBytes p des s)) =
    .ok (p.newString (p.getBytes s)) := by
  rw [decryptDES, hex2byte_hexText]
  simp only [bind, Except.bind, pure, Except.pure, desBytes, des.decrypt_encrypt]

theorem newString_sm4Input : p.newString (sm4Input p des s) = hexText (desBytes p des s) := by
  have hascii := isAscii_hexText (desBytes p des s)
  have h := p.newString_part _ hascii 0 (hexText (desBytes p des s)).length
  rwa [List.drop_zero, List.drop_zero, List.take_length, ← p.length_getBytes _ hascii,
    List.take_length] at h

def ciphertext : List Byte :=
  join ((blocks 16 (sm4Input p des s)).map (Sm4Standard.encipher key))

theorem exists_sm4Input_eq : ∃ bs : List (Vector Byte 16), sm4Input p des s = join bs ∧
    ciphertext p des key s = join (bs.map (Sm4Standard.encipher key)) := by
  obtain ⟨bs, hbs⟩ := exists_blocks_of_dvd (n := 16) (by decide)
    ⟨_, length_sm4Input p des s⟩
  exact ⟨bs, hbs, by rw [ciphertext, hbs, blocks_join (by decide)]⟩

theorem length_ciphertext : (ciphertext p des key s).length = (sm4Input p des s).length := by
  obtain ⟨bs, hinput, hcipher⟩ := exists_sm4Input_eq p des key s
  rw [hinput, hcipher, length_join, length_join, List.length_map]

theorem encodeSMS4_sm4Input (h : (sm4Input p des s).length < 2 ^ 31) :
    encodeSMS4 (sm4Input p des s) key =
      if (sm4Input p des s).length < 2 ^ 31 - 16 then .ok (ciphertext p des key s)
      else .error .indexOutOfBounds := by
  obtain ⟨bs, hinput, hcipher⟩ := exists_sm4Input_eq p des key s
  rw [hinput] at h
  have hencode := encodeSMS4_eq key bs (r := []) (by decide) (by rwa [List.append_nil])
  simp only [List.append_nil, List.length_nil, List.replicate_zero] at hencode
  rw [hinput, hcipher, hencode]

theorem decodeSMS4_ciphertext (h : (sm4Input p des s).length < 2 ^ 31 - 16) :
    decodeSMS4 (ciphertext p des key s) key = .ok (sm4Input p des s) := by
  obtain ⟨bs, hinput, hcipher⟩ := exists_sm4Input_eq p des key s
  have htrip := roundTrip_eq key bs (r := []) (by decide) (by rw [List.append_nil, ← hinput]; omega)
  rw [List.length_nil, List.replicate_zero, List.append_nil, ← hinput, if_pos h,
    encodeSMS4_sm4Input p des key s (by omega), if_pos h] at htrip
  exact htrip

variable {s}

theorem encodeSMS4String_eq (hs : s ≠ []) :
    encodeSMS4String p des (some s) key =
      if (sm4Input p des s).length < 2 ^ 31 - 16 then .ok (some (ciphertext p des key s))
      else if (sm4Input p des s).length < 2 ^ 31 then .error .indexOutOfBounds
      else .error .outOfMemory := by
  obtain ⟨c, cs, rfl⟩ := List.exists_cons_of_ne_nil hs
  change (encryptDES p des (c :: cs) >>= fun hex => encodeSMS4 (p.getBytes hex) key >>=
    fun ciphertext => pure (some ciphertext)) = _
  rw [encryptDES_eq]
  by_cases hlen : (sm4Input p des (c :: cs)).length < 2 ^ 31
  · have hencode := encodeSMS4_sm4Input p des key (c :: cs) hlen
    rw [if_pos hlen, if_pos hlen]
    change (encodeSMS4 (sm4Input p des (c :: cs)) key >>= _) = _
    rw [hencode]
    split
    · rfl
    · rfl
  · rw [if_neg hlen, if_neg (by omega), if_neg hlen]
    rfl

theorem decodeSMS4toString_ciphertext (h : (sm4Input p des s).length < 2 ^ 31 - 16) :
    decodeSMS4toString p des (some (ciphertext p des key s)) key =
      .ok (p.newString (p.getBytes s)) := by
  rw [decodeSMS4toString, decodeSMS4_ciphertext p des key s h]
  simp only [bind, Except.bind]
  rw [newString_sm4Input, decryptDES_eq]

/-- The hexadecimal text fills its blocks, the block loop keeps every byte of it, and the
text comes back, exactly when the block loop does not wrap. -/
theorem decodeSMS4toString_iff (hs : s ≠ []) (hcharset : p.newString (p.getBytes s) = s) :
    (∃ hex c, encryptDES p des s = .ok hex ∧ 16 ∣ (p.getBytes hex).length ∧
      encodeSMS4String p des (some s) key = .ok (some c) ∧
      decodeSMS4 c key = .ok (p.getBytes hex) ∧
      decodeSMS4toString p des (some c) key = .ok s) ↔
      (p.getBytes s).length < 2 ^ 30 - 16 := by
  have hlen := length_sm4Input p des s
  have hcond : (p.getBytes s).length < 2 ^ 30 - 16 ↔ (sm4Input p des s).length < 2 ^ 31 - 16 := by
    omega
  rw [hcond]
  constructor
  · rintro ⟨hex, c, -, -, hencode, -⟩
    rw [encodeSMS4String_eq p des key hs] at hencode
    by_contra hlong
    rw [if_neg hlong] at hencode
    split at hencode
    · cases hencode
    · cases hencode
  · intro h
    refine ⟨hexText (desBytes p des s), ciphertext p des key s, ?_, ?_, ?_, ?_, ?_⟩
    · rw [encryptDES_eq, if_pos (by omega)]
    · exact ⟨_, hlen⟩
    · rw [encodeSMS4String_eq p des key hs, if_pos h]
    · exact decodeSMS4_ciphertext p des key s h
    · rw [decodeSMS4toString_ciphertext p des key h, hcharset]

theorem decodeSMS4toString_iff_a :
    ∃ hex c, encryptDES latin1 desCbc [0x61] = .ok hex ∧ 16 ∣ (latin1.getBytes hex).length ∧
      encodeSMS4String latin1 desCbc (some [0x61]) (Vector.replicate 16 0) = .ok (some c) ∧
      decodeSMS4 c (Vector.replicate 16 0) = .ok (latin1.getBytes hex) ∧
      decodeSMS4toString latin1 desCbc (some c) (Vector.replicate 16 0) = .ok [0x61] :=
  (decodeSMS4toString_iff latin1 desCbc (Vector.replicate 16 0) (by decide) rfl).mpr (by decide)

/-- A text of `2 ^ 30 - 16` bytes has a hexadecimal text of `2 ^ 31 - 16`, at whose end
`k + 16` is negative. -/
theorem encodeSMS4String_wraps :
    encodeSMS4String latin1 desCbc (some (List.replicate (2 ^ 30 - 16) 0x61))
      (Vector.replicate 16 0) = .error .indexOutOfBounds := by
  have hbytes : (latin1.getBytes (List.replicate (2 ^ 30 - 16) 0x61)).length = 2 ^ 30 - 16 := by
    change (List.map latin1Byte (List.replicate (2 ^ 30 - 16) 0x61)).length = _
    rw [List.length_map, List.length_replicate]
  have hlen := length_sm4Input latin1 desCbc (List.replicate (2 ^ 30 - 16) 0x61)
  rw [hbytes] at hlen
  have hne : List.replicate (2 ^ 30 - 16) (0x61 : Char16) ≠ [] := by
    intro h
    have := congrArg List.length h
    rw [List.length_replicate] at this
    cases this
  rw [encodeSMS4String_eq latin1 desCbc _ hne, hlen, if_neg (by decide), if_pos (by decide)]

theorem encryption_eq (hs : s ≠ []) :
    encryption p des (some s) =
      if (sm4Input p des s).length < 2 ^ 30 then
        .ok (some (hexText (ciphertext p des (defaultKey p) s)))
      else if (sm4Input p des s).length < 2 ^ 31 - 16 then .error .outOfMemory
      else if (sm4Input p des s).length < 2 ^ 31 then .ok none
      else .error .outOfMemory := by
  have hencode := encodeSMS4String_eq p des (defaultKey p) hs
  have hhex := byteToHex_eq p (ciphertext p des (defaultKey p) s)
  rw [length_ciphertext] at hhex
  rw [encryption]
  by_cases hshort : (sm4Input p des s).length < 2 ^ 31 - 16
  · rw [if_pos hshort] at hencode
    rw [hencode, if_pos hshort]
    change orNull (byteToHex p (some (ciphertext p des (defaultKey p) s))) = _
    rw [hhex]
    by_cases hhalf : (sm4Input p des s).length < 2 ^ 30
    · rw [if_pos (by omega), if_pos hhalf]
      rfl
    · rw [if_neg (by omega), if_neg hhalf]
      rfl
  · have hhalf : ¬ (sm4Input p des s).length < 2 ^ 30 := by omega
    rw [if_neg hshort] at hencode
    rw [hencode, if_neg hhalf, if_neg hshort]
    split
    · rfl
    · rfl

theorem decrypt_hexText (h : (sm4Input p des s).length < 2 ^ 31 - 16) :
    decrypt p des (some (hexText (ciphertext p des (defaultKey p) s))) =
      .ok (some (trim (p.newString (p.getBytes s)))) := by
  have hne : ciphertext p des (defaultKey p) s ≠ [] := by
    apply List.ne_nil_of_length_pos
    rw [length_ciphertext, length_sm4Input]
    omega
  rw [decrypt, hexStringToBytes_hexText p hne, decodeSMS4toString_ciphertext p des _ h]
  rfl

/-- What `Decrypt` returns for what `Encryption` returns. -/
theorem decrypt_encryption_eq (hs : s ≠ []) :
    (encryption p des (some s) >>= decrypt p des) =
      if (sm4Input p des s).length < 2 ^ 30 then .ok (some (trim (p.newString (p.getBytes s))))
      else if (sm4Input p des s).length < 2 ^ 31 - 16 then .error .outOfMemory
      else if (sm4Input p des s).length < 2 ^ 31 then .ok none
      else .error .outOfMemory := by
  rw [encryption_eq p des hs]
  by_cases hhalf : (sm4Input p des s).length < 2 ^ 30
  · rw [if_pos hhalf, if_pos hhalf]
    exact decrypt_hexText p des (by omega)
  · rw [if_neg hhalf, if_neg hhalf]
    split
    · rfl
    · split
      · rfl
      · rfl

/-- The public methods give a text back exactly when no end of it is blank and the second
hexadecimal text is not too long for a string. -/
theorem decrypt_encryption_iff (hs : s ≠ []) (hcharset : p.newString (p.getBytes s) = s) :
    (encryption p des (some s) >>= decrypt p des) = .ok (some s) ↔
      (p.getBytes s).length < 2 ^ 29 - 8 ∧ Untrimmed s := by
  have hlen := length_sm4Input p des s
  have hcond : (p.getBytes s).length < 2 ^ 29 - 8 ↔ (sm4Input p des s).length < 2 ^ 30 := by
    omega
  rw [hcond, decrypt_encryption_eq p des hs, hcharset, ← trim_eq_self_iff]
  by_cases hhalf : (sm4Input p des s).length < 2 ^ 30
  · rw [if_pos hhalf, Except.ok.injEq, Option.some.injEq]
    exact ⟨fun h => ⟨hhalf, h⟩, And.right⟩
  · rw [if_neg hhalf]
    refine ⟨fun h => ?_, fun h => absurd h.1 hhalf⟩
    split at h
    · cases h
    · split at h
      · cases h
      · cases h

theorem decrypt_encryption_iff_a :
    (encryption latin1 desCbc (some [0x61]) >>= decrypt latin1 desCbc) = .ok (some [0x61]) :=
  (decrypt_encryption_iff latin1 desCbc (by decide) rfl).mpr
    ⟨by decide, (trim_eq_self_iff [0x61]).mp (by decide)⟩

/-- `trim` takes the space in front of a text away. -/
theorem decrypt_encryption_trims :
    (encryption latin1 desCbc (some [0x20, 0x61]) >>= decrypt latin1 desCbc) =
      .ok (some [0x61]) := by
  have hlen := length_sm4Input latin1 desCbc [0x20, 0x61]
  have hbytes : (latin1.getBytes [0x20, 0x61]).length = 2 := rfl
  rw [decrypt_encryption_eq latin1 desCbc (by decide), if_pos (by omega)]
  rfl

end Hatch.Sm4
