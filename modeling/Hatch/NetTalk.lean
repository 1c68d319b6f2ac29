import Hatch.NetHandling
import Hatch.NetLayout
import Hatch.NetRunners
import Hatch.NetTransport

/-!
# Talking

The chat system with its purpose: the users type words, and the clients print what others have
typed. A word is queued for the client's own handler, which sends it to everybody on the user
list; a client that takes it prints the name and the text if it knows the sender. The word
`close` is the call of `hatchClientLogout` and `hatchServicesEnd`, which the system has already.
`typed` and `shown` are histories.
-/

namespace Hatch.Net

open ByteLayout FaultProgram Prog TransitionSystem

def msgText (b : Bytes) : Bytes := cstr b offMsgText

def Process.prints (s : Process) (b : Bytes) : List (Bytes × Bytes) :=
  if IsChat b .text then
    match s.userList[1]?, s.userList[userIndex (msgUserName b) s.userList]? with
    | some own, some u =>
        if msgUserName b ≠ own.name ∧ u.Active then [(msgUserName b, msgText b)] else []
    | _, _ => []
  else []

structure Talk (ι : Type) where
  sys : System ι
  typed : ι → List Bytes
  shown : ι → List (Bytes × Bytes)

inductive TalkAction (ι : Type)
  | sys (a : SystemAction ι)
  | text (c : ι) (w : Bytes)
  | handleTemp (c : ι)

variable {ι : Type}

def Talk.start (cfg : Config ι) : Talk ι where
  sys := .start cfg
  typed _ := []
  shown _ := []

variable [DecidableEq ι]

def Talk.shows (s : Talk ι) (c : ι) (b : Bytes) : ι → List (Bytes × Bytes) :=
  Function.update s.shown c (s.shown c ++ (s.sys.proc (some c)).prints b)

def Talk.printed (s : Talk ι) : SystemAction ι → ι → List (Bytes × Bytes)
  | .handle (some c) =>
      match (s.sys.proc (some c)).recvList.pop with
      | some (b, _) => s.shows c b
      | none => s.shown
  | _ => s.shown

/-- The text runner is past its wait when it reads, and a word holds no terminator. -/
def Talk.execute (cfg : Config ι) (s : Talk ι) : TalkAction ι → Option (Talk ι)
  | .sys a => (s.sys.execute cfg a).map (fun t => { s with sys := t, shown := s.printed a })
  | .text c w =>
      if (s.sys.proc (some c)).startText = true ∧ (0 : UInt8) ∉ w ∧ w ≠ closeText then
        (s.sys.runOn (some c) (hatchTextProc w)).map (fun t =>
          { s with sys := t, typed := Function.update s.typed c (s.typed c ++ [w]) })
      else none
  | .handleTemp c =>
      match (s.sys.proc (some c)).tempList.pop with
      | some (b, q) =>
          ((s.sys.setProc (some c) { s.sys.proc (some c) with tempList := q }).runOn (some c)
            (hatchMsgProc clientProtocol b)).map
              (fun t => { s with sys := t, shown := s.shows c b })
      | none => none

def talk (cfg : Config ι) : Machine (Talk ι) (TalkAction ι) where
  init s := s = .start cfg
  step := Talk.execute cfg

/-- The network delivers in order per sender and receiver; it may lose. -/
def Fifo (s : Talk ι) : TalkAction ι → Prop
  | .sys (.deliver q i) => InOrder s.sys (.deliver q i)
  | _ => True

instance (s : Talk ι) (a : TalkAction ι) : Decidable (Fifo s a) :=
  match a with
  | .sys (.deliver q i) => inferInstanceAs (Decidable (InOrder s.sys (.deliver q i)))
  | .sys (.memory ..) | .sys (.login _) | .sys (.logout _) | .sys (.servicesEnd _)
  | .sys (.transmit _) | .sys (.handle _) | .sys (.discard ..) | .sys (.abandon _)
  | .sys (.lose _) | .text .. | .handleTemp _ => .isTrue trivial

/-! Text messages. -/

structure CarriesText (b n w : Bytes) : Prop extends Carries b .text n where
  inside : (0 : UInt8) ∈ b.drop offMsgText
  text : msgText b = w

section CarriesText

variable {b b' n w own : Bytes} {u : UserInfo} {sender : SockAddrIn}

theorem drop_msgText_congr (hb : body b' = body b) : b'.drop offMsgText = b.drop offMsgText := by
  have h : (b'.drop offProtocolType).drop 48 = (b.drop offProtocolType).drop 48 :=
    congrArg (List.drop 48) hb
  rwa [List.drop_drop, List.drop_drop] at h

theorem CarriesText.congr (h : CarriesText b n w) (hb : body b' = body b)
    (hl : b'.length = b.length) (hs : msgISize b' = b'.length) : CarriesText b' n w := by
  have hd := drop_msgText_congr hb
  refine ⟨h.toCarries.congr hb hl hs, hd ▸ h.inside, ?_⟩
  rw [← h.text, msgText, msgText, cstr, cstr, hd]

theorem CarriesText.readdress (h : CarriesText b n w) : CarriesText (readdress b u) n w :=
  h.congr (body_readdress h.toCarries) (length_readdress h.toCarries)
    (by rw [msgISize_readdress h.toCarries, length_readdress h.toCarries, h.size])

theorem CarriesText.recvMsg (h : CarriesText b n w) :
    CarriesText (recvMsg sender (wireOf b)) n w := by
  have hl := h.length_body
  have hs := h.size_lt
  rw [h.wireOf_eq]
  exact h.congr (body_recvMsg _) (by rw [length_recvMsg, hl]) (msgISize_recvMsg (by omega))

theorem carriesText_textMsg (hn : (0 : UInt8) ∉ own) (hl : own.length < usernameMaxLength)
    (hw : (0 : UInt8) ∉ w) (ht : offMsgText + w.length + 1 ≤ msgPacketMaxLength) :
    CarriesText (textMsg own w) own w := by
  have hl' : own.length < 32 := hl
  have ht' : 68 + w.length + 1 ≤ 1024 := ht
  have hfit : ∀ f ∈ textFields own w,
      f.1 + f.2.length ≤ (List.replicate msgPacketMaxLength (0 : UInt8)).length := by
    rw [List.length_replicate]
    simp [textFields]
    omega
  have hapart : (textFields own w).Pairwise Apart := by
    simp [textFields, Apart]
    omega
  have hf : field (textMsg own w) offMsgText (w.length + 1) = w ++ [0] := by
    rw [textMsg, field_take (by simp; omega)]
    exact field_assign hfit hapart (by simp [textFields]) (by simp)
  refine ⟨carries_textMsg hn hl ht, ?_, cstr_of_field hf hw⟩
  have hz : (0 : UInt8) ∈ field (textMsg own w) offMsgText (w.length + 1) := by
    rw [hf]
    simp
  exact List.mem_of_mem_take hz

end CarriesText

/-! The Update request of a client, which the server reads four bytes off. -/

/-- A chat message that no handler is for. -/
structure Unread (b : Bytes) : Prop where
  long : offMsgType + 4 ≤ b.length
  short : b.length ≤ msgPacketMaxLength
  protocolType : msgProtocolType b = .chat
  msgType : ∃ k, msgMsgType b = .other k

/-- A name whose first byte is not the code of a message type. -/
def Legible (n : Bytes) : Prop := ∀ x ∈ n.head?, 7 < x

theorem MsgType.ofCode_of_other {v : ℕ} (h : v = 0 ∨ 7 < v) : MsgType.ofCode v = .other v := by
  unfold MsgType.ofCode
  split <;> first | rfl | omega

section UpdateRequest

variable {junk : ℕ → UInt8} {n : UserName} {a sender : SockAddrIn} {server : Endpoint}

theorem leNat_of_head {b : Bytes} {x : UInt8} (h : b.head? = some x) : leNat b % 256 = x.toNat := by
  obtain ⟨r, rfl⟩ := List.head?_eq_some_iff.mp h
  have hx := x.toNat_lt
  rw [leNat]
  omega

theorem head_field {b : Bytes} {off k l : ℕ} (hk : 0 < k) (hl : 0 < l) :
    (field b off k).head? = (field b off l).head? := by
  rw [field, field, List.head?_take, List.head?_take, if_neg (by omega), if_neg (by omega)]

/-- The first byte the server takes for the message type is the first byte of the name. -/
theorem code_updateUp (hn : Legible n.bytes) :
    leNat (field (contextUpdate junk n.bytes a) 8 4) = 0 ∨
      7 < leNat (field (contextUpdate junk n.bytes a) 8 4) := by
  have hf : field (contextUpdate junk n.bytes a) 8 (n.bytes.length + 1) = n.bytes ++ [0] :=
    field_assign (contextUpdate_fit n.fits) (contextUpdate_apart n.fits)
      (by simp [contextUpdateFields]) (by simp)
  have hh : (field (contextUpdate junk n.bytes a) 8 4).head? = (n.bytes ++ [0]).head? := by
    rw [← hf]
    exact head_field (by decide) (by omega)
  cases hb : n.bytes with
  | nil =>
      rw [hb] at hh
      have h0 := leNat_of_head hh
      rw [UInt8.toNat_zero] at h0
      omega
  | cons x r =>
      rw [hb] at hh hn
      have hx : 7 < x.toNat := UInt8.lt_iff_toNat_lt.mp (hn x rfl)
      have h0 := leNat_of_head hh
      have h1 := Nat.mod_le (leNat (field (contextUpdate junk (x :: r) a) 8 4)) 256
      omega

theorem unread_updateUp (hn : Legible n.bytes) :
    Unread (recvMsg sender (wireOf (Built.updateUp junk n a server).bytes)) := by
  have hc : (contextUpdate junk n.bytes a).length = 56 := length_contextUpdate n.fits
  have hlen := length_updateUp_arrives junk n a sender server
  have hm : (Built.updateUp junk n a server).bytes.length = 80 :=
    show (updateMsg updateUpOffset _ _).length = _ from length_updateMsg hc (by decide)
  have hw : wireOf (Built.updateUp junk n a server).bytes =
      (Built.updateUp junk n a server).bytes.drop offProtocolType := by
    rw [length_recvMsg, wireOf, field, List.length_take, List.length_drop, hm] at hlen
    rw [wireOf, field]
    apply List.take_of_length_le
    rw [List.length_drop, hm]
    simp only [offProtocolType, offFromAddr, sizeofSockAddrIn] at hlen ⊢
    omega
  have hread {off l : ℕ} (ho : offProtocolType ≤ off) :
      field (recvMsg sender (wireOf (Built.updateUp junk n a server).bytes)) off l =
        field (Built.updateUp junk n a server).bytes off l := by
    rw [field_eq_field_drop ho,
      field_eq_field_drop (b := (Built.updateUp junk n a server).bytes) ho, ← hw]
    exact congrArg (field · _ _) (body_recvMsg _)
  refine ⟨by rw [hlen]; decide, by rw [hlen]; decide, ?_, ?_⟩
  · have hf : field (Built.updateUp junk n a server).bytes offProtocolType 4 =
        leBytes 4 ProtocolType.chat.code := by
      rw [Built.bytes, updateMsg]
      apply field_assign
      · simp [updateFields, hc, updateUpOffset]
      · simp [updateFields, Apart, updateUpOffset]
      · simp [updateFields]
      · simp
    rw [msgProtocolType, hread le_rfl, hf]
    rfl
  · have hf : field (Built.updateUp junk n a server).bytes offMsgType 4 =
        field (contextUpdate junk n.bytes a) 8 4 :=
      field_updateMsg (k := 8) hc (by decide) (by decide)
    refine ⟨leNat (field (contextUpdate junk n.bytes a) 8 4), ?_⟩
    rw [msgMsgType, hread (by decide), hf]
    exact MsgType.ofCode_of_other (code_updateUp hn)

end UpdateRequest

end Hatch.Net
