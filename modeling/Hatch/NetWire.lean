import Hatch.NetServices

/-!
# What a chat message carries

`Carries b t n` says that buffer `b` is a complete chat message of type `t` about
user `n`, as the fixed field offsets of the reader see it; `CarriesAddr` adds the
user address of an Update or BackSyn. Only the bytes from the protocol type on
matter, so the property survives the stripping and restoring of the local header
and the readdressing of a copy.
-/

namespace Hatch.Net

open ByteLayout

structure Carries (b : Bytes) (t : MsgType) (n : Bytes) : Prop where
  size : msgISize b = b.length
  long : sizeofMsgSt ≤ b.length
  short : b.length ≤ msgPacketMaxLength
  protocolType : msgProtocolType b = .chat
  msgType : msgMsgType b = t
  terminated : (0 : UInt8) ∈ field b offUserName usernameMaxLength
  name : msgUserName b = n

structure CarriesAddr (b : Bytes) (t : MsgType) (n : Bytes) (a : SockAddrIn) : Prop
    extends Carries b t n where
  addrInside : offUserAddr + sizeofSockAddrIn ≤ b.length
  addr : msgUserAddr b = a

def body (b : Bytes) : Bytes := b.drop offProtocolType

theorem Carries.congr {b b' : Bytes} {t : MsgType} {n : Bytes} (h : Carries b t n)
    (hb : body b' = body b) (hl : b'.length = b.length) (hs : msgISize b' = b'.length) :
    Carries b' t n := by
  have hf (off l : ℕ) (ho : offProtocolType ≤ off) : field b' off l = field b off l := by
    rw [field_eq_field_drop ho, field_eq_field_drop (b := b) ho]
    exact congrArg (fun x => field x _ _) hb
  have hd : b'.drop offUserName = b.drop offUserName := by
    have h1 : (b'.drop offProtocolType).drop 16 = (b.drop offProtocolType).drop 16 :=
      congrArg (List.drop 16) hb
    rwa [List.drop_drop, List.drop_drop] at h1
  refine ⟨hs, hl ▸ h.long, hl ▸ h.short, ?_, ?_, ?_, ?_⟩
  · rw [msgProtocolType, hf _ _ le_rfl]
    exact h.protocolType
  · rw [msgMsgType, hf _ _ (by simp)]
    exact h.msgType
  · rw [hf _ _ (by simp)]
    exact h.terminated
  · rw [msgUserName, cstr, hd]
    exact h.name

theorem CarriesAddr.congr {b b' : Bytes} {t : MsgType} {n : Bytes} {a : SockAddrIn}
    (h : CarriesAddr b t n a) (hb : body b' = body b) (hl : b'.length = b.length)
    (hs : msgISize b' = b'.length) : CarriesAddr b' t n a := by
  refine ⟨h.toCarries.congr hb hl hs, hl ▸ h.addrInside, ?_⟩
  rw [← h.addr, msgUserAddr, msgUserAddr, field_eq_field_drop (k := offProtocolType) (by simp),
    field_eq_field_drop (b := b) (k := offProtocolType) (by simp)]
  exact congrArg (fun x => SockAddrIn.decode (field x _ _)) hb

theorem MsgType.ofCode_code {t : MsgType} (h : ∀ n, t ≠ .other n) : MsgType.ofCode t.code = t := by
  cases t with
  | other n => exact absurd rfl (h n)
  | _ => rfl

theorem MsgType.code_lt {t : MsgType} (h : ∀ n, t ≠ .other n) : t.code < 256 ^ 4 := by
  cases t with
  | other n => exact absurd rfl (h n)
  | _ => decide

section Built

variable {junk : ℕ → UInt8} {t : MsgType} {n : Bytes} {a dest : SockAddrIn}

theorem carries_of_fields {b : Bytes} (hs : field b 0 4 = leBytes 4 b.length)
    (hb : sizeofMsgSt ≤ b.length) (hb' : b.length ≤ msgPacketMaxLength)
    (hp : field b offProtocolType 4 = leBytes 4 ProtocolType.chat.code)
    (ht : field b offMsgType 4 = leBytes 4 t.code) (hk : ∀ k, t ≠ .other k)
    (hname : field b offUserName (n.length + 1) = n ++ [0]) (hn : (0 : UInt8) ∉ n)
    (hl : n.length < usernameMaxLength) : Carries b t n := by
  refine ⟨?_, hb, hb', ?_, ?_, ?_, ?_⟩
  · rw [msgISize, hs, leNat_leBytes_of_lt]
    simp only [msgPacketMaxLength] at hb'
    omega
  · rw [msgProtocolType, hp, leNat_leBytes_of_lt (by decide)]
    rfl
  · rw [msgMsgType, ht, leNat_leBytes_of_lt (MsgType.code_lt hk), MsgType.ofCode_code hk]
  · apply mem_field_mono (k := n.length + 1) _ hl
    rw [hname]
    simp
  · exact cstr_of_field hname hn

theorem requestFields_fit (hl : n.length < usernameMaxLength) :
    ∀ w ∈ requestFields junk t n, w.1 + w.2.length ≤ (alloc sizeofMsgSt junk).length := by
  have hl' : n.length < 32 := hl
  simp [requestFields]
  omega

theorem requestFields_apart (hl : n.length < usernameMaxLength) :
    (requestFields junk t n).Pairwise Apart := by
  have hl' : n.length < 32 := hl
  simp [requestFields, Apart]
  omega

theorem msgFromAddr_requestMsg (hl : n.length < usernameMaxLength) :
    (msgFromAddr (requestMsg junk t n)).endpoint = serverEndpoint := by
  have hf : field (requestMsg junk t n) offFromAddr sizeofSockAddrIn =
      (localSockAddr junk serverEndpoint).encode :=
    field_assign (requestFields_fit hl) (requestFields_apart hl) (by simp [requestFields]) (by simp)
  rw [msgFromAddr, hf, SockAddrIn.decode_encode]
  rfl

theorem carries_requestMsg (ht : ∀ k, t ≠ .other k) (hn : (0 : UInt8) ∉ n)
    (hl : n.length < usernameMaxLength) : Carries (requestMsg junk t n) t n := by
  have hfit : ∀ w ∈ requestFields junk t n, _ := requestFields_fit hl
  have hapart : (requestFields junk t n).Pairwise Apart := requestFields_apart hl
  have hlen : (requestMsg junk t n).length = 69 := (length_assign hfit).trans (by simp)
  apply carries_of_fields
  · rw [hlen]
    exact field_assign hfit hapart (by simp [requestFields]) (by simp)
  · simp [hlen]
  · simp [hlen]
  · exact field_assign hfit hapart (by simp [requestFields]) (by simp)
  · exact field_assign hfit hapart (by simp [requestFields]) (by simp)
  · exact ht
  · exact field_assign hfit hapart (by simp [requestFields]) (by simp)
  · exact hn
  · exact hl

theorem contextUpdate_fit (hl : n.length < usernameMaxLength) :
    ∀ w ∈ contextUpdateFields n a, w.1 + w.2.length ≤
      (alloc sizeofMsgContextUpdateDown junk).length := by
  have hl' : n.length < 32 := hl
  simp [contextUpdateFields]
  omega

theorem contextUpdate_apart (hl : n.length < usernameMaxLength) :
    (contextUpdateFields n a).Pairwise Apart := by
  have hl' : n.length < 32 := hl
  simp [contextUpdateFields, Apart]
  omega

theorem length_contextUpdate (hl : n.length < usernameMaxLength) :
    (contextUpdate junk n a).length = 56 :=
  (length_assign (contextUpdate_fit hl)).trans (by simp)

theorem length_updateMsg {off : ℕ} {c : Bytes} (hc : c.length = 56) (ho : 24 ≤ off) :
    (updateMsg off dest c).length = 56 + off := by
  apply (length_assign _).trans (by simp)
  simp [updateFields, hc]
  omega

/-- A read of `l` bytes at offset `k` of the context an Update message carries. -/
theorem field_updateMsg {off k l : ℕ} {c : Bytes} (hc : c.length = 56) (ho : 24 ≤ off)
    (hk : k + l ≤ 56) : field (updateMsg off dest c) (off + k) l = field c k l := by
  have hin : field (updateMsg off dest c) off 56 = c := by
    apply field_assign
    · simp [updateFields, hc]
      omega
    · simp [updateFields, Apart]
      omega
    · simp [updateFields]
    · exact hc
  rw [← field_field hk, hin]

theorem carriesAddr_updateMsg (hn : (0 : UInt8) ∉ n) (hl : n.length < usernameMaxLength) :
    CarriesAddr (updateMsg updateDownOffset dest (contextUpdate junk n a)) .update n a := by
  have hc : (contextUpdate junk n a).length = 56 := length_contextUpdate hl
  have hl' : n.length < 32 := hl
  have hlen : (updateMsg updateDownOffset dest (contextUpdate junk n a)).length = 84 :=
    length_updateMsg hc (by decide)
  have hread {k l : ℕ} (hk : k + l ≤ 56) :
      field (updateMsg updateDownOffset dest (contextUpdate junk n a)) (28 + k) l =
        field (contextUpdate junk n a) k l := field_updateMsg hc (by decide) hk
  have hfit : ∀ w ∈ updateFields updateDownOffset dest (contextUpdate junk n a), w.1 + w.2.length ≤
      (List.replicate (sizeofMsgContextUpdateDown + updateDownOffset) (0 : UInt8)).length := by
    simp [updateFields, hc, updateDownOffset]
  have hapart : (updateFields updateDownOffset dest (contextUpdate junk n a)).Pairwise Apart := by
    simp [updateFields, Apart, updateDownOffset]
  refine ⟨carries_of_fields ?_ ?_ ?_ ?_ ?_ ?_ ?_ hn hl, ?_, ?_⟩
  · rw [hlen]
    exact field_assign hfit hapart (by simp [updateFields, updateDownOffset]) (by simp)
  · simp [hlen]
  · simp [hlen]
  · exact field_assign hfit hapart (by simp [updateFields]) (by simp)
  · rw [show offMsgType = 28 + 4 from rfl, hread (by omega)]
    exact field_assign (contextUpdate_fit hl) (contextUpdate_apart hl)
      (by simp [contextUpdateFields]) (by simp)
  · simp
  · rw [show offUserName = 28 + 8 from rfl, hread (by omega)]
    exact field_assign (contextUpdate_fit hl) (contextUpdate_apart hl)
      (by simp [contextUpdateFields]) (by simp)
  · simp [hlen]
  · have ha : field (contextUpdate junk n a) 40 16 = a.encode :=
      field_assign (contextUpdate_fit hl) (contextUpdate_apart hl)
        (by simp [contextUpdateFields]) (by simp)
    rw [msgUserAddr, show offUserAddr = 28 + 40 from rfl, hread (by simp), ha,
      SockAddrIn.decode_encode]

theorem carries_textMsg {own text : Bytes} (hn : (0 : UInt8) ∉ own)
    (hl : own.length < usernameMaxLength)
    (ht : offMsgText + text.length + 1 ≤ msgPacketMaxLength) :
    Carries (textMsg own text) .text own := by
  have hl' : own.length < 32 := hl
  have ht' : 68 + text.length + 1 ≤ 1024 := ht
  have hfit : ∀ w ∈ textFields own text,
      w.1 + w.2.length ≤ (List.replicate msgPacketMaxLength (0 : UInt8)).length := by
    rw [List.length_replicate]
    simp [textFields]
    omega
  have hapart : (textFields own text).Pairwise Apart := by
    simp [textFields, Apart]
    omega
  have hlen : (textMsg own text).length = text.length + 68 + 1 := by
    rw [textMsg, List.length_take, length_assign hfit, List.length_replicate]
    exact min_eq_left (by simp; omega)
  have hread {w : ℕ × Bytes} (hw : w ∈ textFields own text)
      (hin : w.1 + w.2.length ≤ text.length + offMsgText + 1) :
      field (textMsg own text) w.1 w.2.length = w.2 := by
    rw [textMsg, field_take hin]
    exact field_assign hfit hapart hw rfl
  apply carries_of_fields
  · rw [hlen]
    exact hread (w := (0, leBytes 4 (text.length + 68 + 1))) (by simp [textFields]) (by simp)
  · simp [hlen]
  · simp [hlen]
    omega
  · exact hread (w := (offProtocolType, leBytes 4 ProtocolType.chat.code)) (by simp [textFields])
      (by simp)
  · exact hread (w := (offMsgType, leBytes 4 MsgType.text.code)) (by simp [textFields]) (by simp)
  · simp
  · have h := hread (w := (offUserName, own ++ [0])) (by simp [textFields]) (by simp; omega)
    simpa using h
  · exact hn
  · exact hl

end Built

section Rewritten

variable {b : Bytes} {t : MsgType} {n : Bytes} {a : SockAddrIn}

/-- The reply to a request is the request under another name. -/
theorem Carries.rename {m : Bytes} (h : Carries b t n) (hm : (0 : UInt8) ∉ m)
    (hl : m.length < usernameMaxLength) : Carries (patch b offUserName (m ++ [0])) t m := by
  have hb : 69 ≤ b.length := h.long
  have hl' : m.length < 32 := hl
  have hlen : (patch b offUserName (m ++ [0])).length = b.length := by
    apply length_patch
    simp
    omega
  have hbefore {o l : ℕ} (ho : o + l ≤ 36) :
      field (patch b offUserName (m ++ [0])) o l = field b o l := by
    exact field_patch_before (by simp; omega) ho
  have hsame : field (patch b offUserName (m ++ [0])) offUserName (m.length + 1) = m ++ [0] := by
    have hs : field (patch b offUserName (m ++ [0])) offUserName (m ++ [0]).length = m ++ [0] :=
      field_patch_same (by simp; omega)
    simpa using hs
  refine ⟨?_, hlen ▸ h.long, hlen ▸ h.short, ?_, ?_, ?_, cstr_of_field hsame hm⟩
  · rw [hlen, msgISize, hbefore (by simp)]
    exact h.size
  · rw [msgProtocolType, hbefore (by simp)]
    exact h.protocolType
  · rw [msgMsgType, hbefore (by simp)]
    exact h.msgType
  · apply mem_field_mono (k := m.length + 1) _ hl
    rw [hsame]
    simp

section BackSyn

variable {me : Endpoint} {own : Bytes} (h : CarriesAddr b t n a)
  (hl : own.length < usernameMaxLength)

include hl in
theorem backSynFields_apart : (backSynFields a me own).Pairwise Apart := by
  have hl' : own.length < 32 := hl
  simp [backSynFields, Apart]
  omega

include h hl

theorem backSynFields_fit : ∀ w ∈ backSynFields a me own, w.1 + w.2.length ≤ b.length := by
  have hb : 84 ≤ b.length := h.addrInside
  have hl' : own.length < 32 := hl
  simp [backSynFields]
  omega

theorem msgFromAddr_backSynMsg : msgFromAddr (backSynMsg b a me own) = a := by
  have hf : field (backSynMsg b a me own) offFromAddr sizeofSockAddrIn = a.encode :=
    field_assign (backSynFields_fit h hl) (backSynFields_apart hl) (by simp [backSynFields])
      (by simp)
  rw [msgFromAddr, hf, SockAddrIn.decode_encode]

theorem CarriesAddr.backSyn (hm : (0 : UInt8) ∉ own) :
    CarriesAddr (backSynMsg b a me own) .backSyn own { a with addr := me.1, port := me.2 } := by
  have hfit : ∀ w ∈ backSynFields a me own, _ := backSynFields_fit h hl
  have hapart : (backSynFields a me own).Pairwise Apart := backSynFields_apart hl
  have hlen : (backSynMsg b a me own).length = b.length := length_assign hfit
  have hkeep {o l : ℕ} (ho : ∀ w ∈ backSynFields a me own, o + l ≤ w.1 ∨ w.1 + w.2.length ≤ o) :
      field (backSynMsg b a me own) o l = field b o l := by
    have hk := field_assign_of_apart (x := (o, List.replicate l 0)) hfit
      (by simpa [Apart] using ho)
    rwa [List.length_replicate] at hk
  have hname : field (backSynMsg b a me own) offUserName (own.length + 1) = own ++ [0] :=
    field_assign hfit hapart (by simp [backSynFields]) (by simp)
  refine ⟨⟨?_, hlen ▸ h.long, hlen ▸ h.short, ?_, ?_, ?_, cstr_of_field hname hm⟩,
    hlen ▸ h.addrInside, ?_⟩
  · rw [hlen, msgISize, hkeep (by simp [backSynFields])]
    exact h.size
  · rw [msgProtocolType, hkeep (by simp [backSynFields])]
    exact h.protocolType
  · have ht : field (backSynMsg b a me own) offMsgType 4 = leBytes 4 MsgType.backSyn.code :=
      field_assign hfit hapart (by simp [backSynFields]) (by simp)
    rw [msgMsgType, ht]
    rfl
  · apply mem_field_mono (k := own.length + 1) _ hl
    rw [hname]
    simp
  · have ha : field (backSynMsg b a me own) offUserAddr sizeofSockAddrIn =
        ({ a with addr := me.1, port := me.2 } : SockAddrIn).encode :=
      field_assign hfit hapart (by simp [backSynFields]) (by simp)
    rw [msgUserAddr, ha, SockAddrIn.decode_encode]

end BackSyn

end Rewritten

section Carried

variable {b : Bytes} {t : MsgType} {n : Bytes} {a sender : SockAddrIn} {u : UserInfo}

theorem Carries.size_lt (h : Carries b t n) : b.length < 256 ^ 4 := by
  have hs : b.length ≤ 1024 := h.short
  omega

theorem Carries.readable (h : Carries b t n) : (0 : UInt8) ∈ b.drop offUserName :=
  List.mem_of_mem_take h.terminated

theorem Carries.groupable (h : Carries b t n) : Groupable b := by
  have hb : 69 ≤ b.length := h.long
  refine ⟨by omega, h.size.le, ?_⟩
  rw [h.size]
  simp
  omega

theorem Carries.wireOf_eq (h : Carries b t n) : wireOf b = body b := by
  rw [wireOf, field, h.size]
  exact List.take_of_length_le (by simp)

theorem Carries.length_body (h : Carries b t n) : (body b).length + 20 = b.length := by
  have hb : 69 ≤ b.length := h.long
  rw [body, List.length_drop]
  simp
  omega

theorem body_readdress (h : Carries b t n) : body (readdress b u) = body b := by
  have hb : 69 ≤ b.length := h.long
  rw [body, readdress, patch, drop_append_add (k := 0)]
  · simp [body]
  · simp
    omega

theorem length_readdress (h : Carries b t n) : (readdress b u).length = b.length := by
  have hb : 69 ≤ b.length := h.long
  apply length_patch
  simp
  omega

theorem msgISize_readdress (h : Carries b t n) : msgISize (readdress b u) = msgISize b := by
  have hb : 69 ≤ b.length := h.long
  rw [msgISize, readdress, field_patch_before]
  · rfl
  · simp
    omega
  · simp

theorem msgFromAddr_readdress_of_le (h : offFromAddr ≤ b.length) (u : UserInfo) :
    msgFromAddr (readdress b u) =
      { msgFromAddr b with addr := u.addr, port := u.port, family := afInet } := by
  have hf : field (readdress b u) offFromAddr sizeofSockAddrIn =
      ({ msgFromAddr b with addr := u.addr, port := u.port, family := afInet } :
        SockAddrIn).encode := by
    have hs : field (readdress b u) offFromAddr
        ({ msgFromAddr b with addr := u.addr, port := u.port, family := afInet } :
          SockAddrIn).encode.length = _ := field_patch_same h
    simpa using hs
  rw [msgFromAddr, hf, SockAddrIn.decode_encode]

theorem msgFromAddr_readdress (h : Carries b t n) :
    (msgFromAddr (readdress b u)).endpoint = (u.addr, u.port) := by
  have hb : 69 ≤ b.length := h.long
  rw [msgFromAddr_readdress_of_le (by simp; omega) u]
  rfl

theorem Carries.readdress (h : Carries b t n) : Carries (readdress b u) t n :=
  h.congr (body_readdress h) (length_readdress h)
    (by rw [msgISize_readdress h, length_readdress h, h.size])

theorem CarriesAddr.readdress (h : CarriesAddr b t n a) : CarriesAddr (readdress b u) t n a :=
  h.congr (body_readdress h.toCarries) (length_readdress h.toCarries)
    (by rw [msgISize_readdress h.toCarries, length_readdress h.toCarries, h.size])

theorem recvFields_fit (d : Bytes) : ∀ w ∈ recvFields sender d, w.1 + w.2.length ≤
    (List.replicate (d.length + offProtocolType) (0 : UInt8)).length := by
  simp [recvFields]
  omega

theorem recvFields_apart (d : Bytes) : (recvFields sender d).Pairwise Apart := by
  simp [recvFields, Apart]

theorem length_recvMsg (d : Bytes) : (recvMsg sender d).length = d.length + 20 :=
  (length_assign (recvFields_fit d)).trans (by simp)

theorem body_recvMsg (d : Bytes) : body (recvMsg sender d) = d := by
  have hf : field (recvMsg sender d) offProtocolType d.length = d :=
    field_assign (recvFields_fit d) (recvFields_apart d) (by simp [recvFields]) rfl
  rw [field, List.take_of_length_le] at hf
  · exact hf
  · rw [List.length_drop, length_recvMsg]
    simp

theorem msgFromAddr_recvMsg (d : Bytes) : msgFromAddr (recvMsg sender d) = sender := by
  have hf : field (recvMsg sender d) offFromAddr sizeofSockAddrIn = sender.encode :=
    field_assign (recvFields_fit d) (recvFields_apart d) (by simp [recvFields]) (by simp)
  rw [msgFromAddr, hf, SockAddrIn.decode_encode]

theorem msgISize_recvMsg {d : Bytes} (h : d.length + 20 < 256 ^ 4) :
    msgISize (recvMsg sender d) = (recvMsg sender d).length := by
  have hf : field (recvMsg sender d) 0 4 = leBytes 4 (d.length + 20) :=
    field_assign (recvFields_fit d) (recvFields_apart d) (by simp [recvFields]) (by simp)
  rw [msgISize, hf, leNat_leBytes_of_lt h, length_recvMsg]

/-- A message survives the loss and the restoring of its local header. -/
theorem Carries.recvMsg (h : Carries b t n) : Carries (recvMsg sender (wireOf b)) t n := by
  have hl := h.length_body
  have hs := h.size_lt
  rw [h.wireOf_eq]
  exact h.congr (body_recvMsg _) (by rw [length_recvMsg, hl]) (msgISize_recvMsg (by omega))

theorem CarriesAddr.recvMsg (h : CarriesAddr b t n a) :
    CarriesAddr (recvMsg sender (wireOf b)) t n a := by
  have hl := h.length_body
  have hs := h.size_lt
  rw [h.wireOf_eq]
  exact h.congr (body_recvMsg _) (by rw [length_recvMsg, hl]) (msgISize_recvMsg (by omega))

end Carried

def bobName : UserName := ⟨[0x62, 0x6f, 0x62], by decide, by decide⟩

def arrivingRequest (t : MsgType) (n : Bytes) : Bytes :=
  recvMsg (localSockAddr (fun _ => 0) clientEndpoint) (wireOf (requestMsg (fun _ => 0) t n))

end Hatch.Net
