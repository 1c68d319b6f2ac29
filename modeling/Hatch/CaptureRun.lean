import Hatch.NetCapture
import Mathlib.Data.List.Nodup
import Mathlib.Data.List.Range

/-!
# The ids of a capture

`startCapture` hands every frame of at least 46 bytes to `procPacket` until a shorter one comes
or the database refuses a statement. The counter has 64 bits and its text 32: the statements of
a frame share their id, and two frames do until the counter has gone round once.
-/

namespace Hatch.NetCapture

open ByteLayout

/-- Whether a statement is accepted behind those that have been accepted. -/
abbrev Database := List Insert → Insert → Bool

/-- The statements that are sent, up to one that is refused, and whether none was. -/
def send (db : Database) (accepted : List Insert) : List Insert → List Insert × Bool
  | [] => ([], true)
  | s :: rest =>
      if db accepted s then
        let sent := send db (accepted ++ [s]) rest
        (s :: sent.1, sent.2)
      else ([s], false)

abbrev bufferMax : ℕ := 2048

/-- The statements that are sent for each frame, from a value of the counter on. A refused
statement and a short frame end the process. -/
def startCapture (db : Database) (id : BitVec 64) (accepted : List Insert) :
    List Bytes → List (List Insert)
  | [] => []
  | frame :: frames =>
      let buf := frame.take bufferMax
      if buf.length < 46 then []
      else
        let sent := send db accepted (procPacket (id + 1) buf)
        sent.1 :: if sent.2 then startCapture db (id + 1) (accepted ++ sent.1) frames else []

/-- Whenever `procPacket` is called, the counter is below `2 ^ 32` before `++id`. -/
def CounterLow (db : Database) (id : BitVec 64) (accepted : List Insert) : List Bytes → Prop
  | [] => True
  | frame :: frames =>
      let buf := frame.take bufferMax
      let sent := send db accepted (procPacket (id + 1) buf)
      46 ≤ buf.length → id.toNat < 2 ^ 32 ∧
        (sent.2 → CounterLow db (id + 1) (accepted ++ sent.1) frames)

def macIds (l : List Insert) : List (BitVec 32) :=
  (l.filter fun s => s.table = .tblMacPacket).map Insert.id

/-- The ids of `tbl_mac_packet` are distinct, and every statement has the id of the statement
for `tbl_mac_packet` of the same frame. -/
structure IdsIdentify (sent : List (List Insert)) : Prop where
  distinct : (macIds sent.flatten).Nodup
  shared : ∀ g ∈ sent, ∀ s ∈ g, ∃ m ∈ g, m.table = .tblMacPacket ∧ m.id = s.id

theorem counter_succ (n : ℕ) : BitVec.ofNat 64 n + 1 = BitVec.ofNat 64 (n + 1) :=
  (BitVec.ofNat_add n 1).symm

theorem setWidth_counter (n : ℕ) : (BitVec.ofNat 64 n).setWidth 32 = BitVec.ofNat 32 n :=
  BitVec.setWidth_ofNat_of_le (by decide) n

theorem macIds_append (l l' : List Insert) : macIds (l ++ l') = macIds l ++ macIds l' := by
  rw [macIds, List.filter_append, List.map_append]
  rfl

/-- All statements of a frame have the id of the counter, and only the first is for
`tbl_mac_packet`. -/
theorem mem_tail_procPacket {id : BitVec 64} {buf : Bytes} {s : Insert}
    (h : s ∈ (procPacket id buf).tail) :
    s.table ≠ .tblMacPacket ∧ s.id = id.setWidth 32 := by
  rcases List.mem_cons.mp h with rfl | h
  · exact ⟨nofun, rfl⟩
  · split at h
    · cases List.mem_singleton.mp h
      exact ⟨nofun, rfl⟩
    · cases h

section Group

variable (db : Database) (accepted : List Insert) (id : BitVec 64) (buf : Bytes)

theorem send_cons (s : Insert) (rest : List Insert) :
    ∃ k, (send db accepted (s :: rest)).1 = s :: rest.take k := by
  induction rest generalizing s accepted with
  | nil =>
      refine ⟨0, ?_⟩
      rw [send]
      split <;> rfl
  | cons s' rest ih =>
      rw [send]
      split
      · obtain ⟨k, hk⟩ := ih (accepted ++ [s]) s'
        refine ⟨k + 1, ?_⟩
        change s :: (send db (accepted ++ [s]) (s' :: rest)).1 = _
        rw [hk]
        rfl
      · exact ⟨0, rfl⟩

theorem send_procPacket : ∃ k, (send db accepted (procPacket id buf)).1 =
    macInsert id buf :: (procPacket id buf).tail.take k :=
  send_cons db accepted (macInsert id buf) (procPacket id buf).tail

theorem macIds_send : macIds (send db accepted (procPacket id buf)).1 = [id.setWidth 32] := by
  obtain ⟨k, hk⟩ := send_procPacket db accepted id buf
  have hrest :
      (((procPacket id buf).tail.take k).filter fun s => s.table = .tblMacPacket) = [] := by
    refine List.filter_eq_nil_iff.mpr fun s hs => ?_
    rw [decide_eq_true_eq]
    exact (mem_tail_procPacket (List.mem_of_mem_take hs)).1
  rw [hk, macIds, List.filter_cons_of_pos (by rfl), hrest]
  rfl

theorem send_shared : ∀ s ∈ (send db accepted (procPacket id buf)).1,
    ∃ m ∈ (send db accepted (procPacket id buf)).1, m.table = .tblMacPacket ∧ m.id = s.id := by
  obtain ⟨k, hk⟩ := send_procPacket db accepted id buf
  rw [hk]
  intro s hs
  refine ⟨macInsert id buf, List.mem_cons_self, rfl, ?_⟩
  rcases List.mem_cons.mp hs with rfl | hs
  · rfl
  · exact (mem_tail_procPacket (List.mem_of_mem_take hs)).2.symm

end Group

section Run

variable (db : Database)

theorem startCapture_shared (id : BitVec 64) (accepted : List Insert) (frames : List Bytes) :
    ∀ g ∈ startCapture db id accepted frames, ∀ s ∈ g,
      ∃ m ∈ g, m.table = .tblMacPacket ∧ m.id = s.id := by
  induction frames generalizing id accepted with
  | nil => exact nofun
  | cons frame frames ih =>
      rw [startCapture]
      split
      · exact nofun
      · intro g hg
        rcases List.mem_cons.mp hg with rfl | hg
        · exact send_shared db accepted _ _
        · split at hg
          · exact ih _ _ g hg
          · cases hg

/-- The ids of the frames count on from the counter. -/
theorem macIds_startCapture (n : ℕ) (accepted : List Insert) (frames : List Bytes) :
    macIds (startCapture db (BitVec.ofNat 64 n) accepted frames).flatten =
      (List.range (startCapture db (BitVec.ofNat 64 n) accepted frames).length).map
        fun k => BitVec.ofNat 32 (n + 1 + k) := by
  induction frames generalizing n accepted with
  | nil => rfl
  | cons frame frames ih =>
      rw [startCapture, counter_succ]
      split
      · rfl
      · rw [List.flatten_cons, macIds_append, macIds_send, setWidth_counter, List.length_cons,
          List.range_succ_eq_map, List.map_cons, List.map_map]
        split
        · rw [ih, List.singleton_append]
          congr 1
          refine List.map_congr_left fun k _ => ?_
          rw [Function.comp_apply]
          congr 1
          omega
        · rfl

theorem nodup_ids_iff (m : ℕ) :
    ((List.range m).map fun k => BitVec.ofNat 32 (0 + 1 + k)).Nodup ↔ m ≤ 2 ^ 32 := by
  constructor
  · intro h
    by_contra hm
    have hzero := List.inj_on_of_nodup_map h (List.mem_range.mpr (show 0 < m by omega))
      (List.mem_range.mpr (show 2 ^ 32 < m by omega)) rfl
    cases hzero
  · intro h
    refine List.Nodup.map_on (fun j hj k hk hjk => ?_) List.nodup_range
    have hj := List.mem_range.mp hj
    have hk := List.mem_range.mp hk
    have hmod := congrArg BitVec.toNat hjk
    rw [BitVec.toNat_ofNat, BitVec.toNat_ofNat] at hmod
    omega

theorem distinct_iff (frames : List Bytes) :
    (macIds (startCapture db 0 [] frames).flatten).Nodup ↔
      (startCapture db 0 [] frames).length ≤ 2 ^ 32 := by
  have hids : macIds (startCapture db 0 [] frames).flatten =
      (List.range (startCapture db 0 [] frames).length).map
        fun k => BitVec.ofNat 32 (0 + 1 + k) := macIds_startCapture db 0 [] frames
  rw [hids]
  exact nodup_ids_iff _

theorem counterLow_iff {n : ℕ} (hn : n ≤ 2 ^ 32) (accepted : List Insert) (frames : List Bytes) :
    CounterLow db (BitVec.ofNat 64 n) accepted frames ↔
      n + (startCapture db (BitVec.ofNat 64 n) accepted frames).length ≤ 2 ^ 32 := by
  induction frames generalizing n accepted with
  | nil => exact iff_of_true trivial hn
  | cons frame frames ih =>
      have hcounter : (BitVec.ofNat 64 n).toNat = n := by
        rw [BitVec.toNat_ofNat]
        omega
      rw [CounterLow, startCapture, counter_succ, hcounter]
      by_cases hshort : (frame.take bufferMax).length < 46
      · rw [if_pos hshort]
        exact iff_of_true (fun hlong => absurd hlong (Nat.not_le_of_lt hshort)) hn
      · rw [if_neg hshort, imp_iff_right (Nat.le_of_not_lt hshort), List.length_cons]
        by_cases hlt : n < 2 ^ 32
        · rw [and_iff_right hlt]
          split
          · next hok =>
            rw [imp_iff_right hok, ih (n := n + 1) hlt]
            omega
          · next hok =>
            rw [List.length_nil]
            exact iff_of_true (fun h => absurd h hok) (by omega)
        · exact iff_of_false (fun h => hlt h.1) (by omega)

end Run

/-- The ids identify the frames just if the counter is below `2 ^ 32` whenever a frame is
handled. -/
theorem ids_identify_iff (db : Database) (frames : List Bytes) :
    IdsIdentify (startCapture db 0 [] frames) ↔ CounterLow db 0 [] frames := by
  have hlow : CounterLow db 0 [] frames ↔ 0 + (startCapture db 0 [] frames).length ≤ 2 ^ 32 :=
    counterLow_iff db (Nat.zero_le _) [] frames
  rw [hlow, Nat.zero_add]
  constructor
  · intro h
    exact (distinct_iff db frames).mp h.distinct
  · intro h
    exact ⟨(distinct_iff db frames).mpr h, startCapture_shared db 0 [] frames⟩

theorem long_take {frame : Bytes} (h : 46 ≤ frame.length) :
    ¬ (frame.take bufferMax).length < 46 := by
  rw [List.length_take]
  change ¬ min 2048 _ < 46
  omega

section AcceptAll

def acceptAll : Database := fun _ _ => true

theorem send_acceptAll (accepted l : List Insert) : send acceptAll accepted l = (l, true) := by
  induction l generalizing accepted with
  | nil => rfl
  | cons s l ih => simp [send, acceptAll, ih]

theorem length_startCapture_acceptAll (id : BitVec 64) (accepted : List Insert)
    {frames : List Bytes} (hlong : ∀ f ∈ frames, 46 ≤ f.length) :
    (startCapture acceptAll id accepted frames).length = frames.length := by
  induction frames generalizing id accepted with
  | nil => rfl
  | cons frame frames ih =>
      obtain ⟨hframe, hlong⟩ := List.forall_mem_cons.mp hlong
      rw [startCapture, if_neg (long_take hframe), send_acceptAll]
      simp only [if_true, List.length_cons, ih _ _ hlong]

end AcceptAll

section Schema

/-- A database with the primary key of `tbl_mac_packet` and the references to it. -/
def schema : Database := fun accepted s =>
  match s.table with
  | .tblMacPacket => s.id ∉ macIds accepted
  | .tblIpPacket | .tblTcpPacket => s.id ∈ macIds accepted

variable {accepted : List Insert} {id : BitVec 64} {buf : Bytes}

theorem send_schema_references {l : List Insert} {i : BitVec 32}
    (h : ∀ s ∈ l, s.table ≠ .tblMacPacket ∧ s.id = i) (hi : i ∈ macIds accepted) :
    send schema accepted l = (l, true) := by
  induction l generalizing accepted with
  | nil => rfl
  | cons s l ih =>
      obtain ⟨⟨htable, rfl⟩, hl⟩ := List.forall_mem_cons.mp h
      have hs : schema accepted s = true := by
        unfold schema
        split
        · next hmac => exact absurd hmac htable
        · exact decide_eq_true hi
        · exact decide_eq_true hi
      have hids : s.id ∈ macIds (accepted ++ [s]) := by
        rw [macIds_append]
        exact List.mem_append_left _ hi
      rw [send, if_pos hs, ih hl hids]

theorem send_schema_new (h : id.setWidth 32 ∉ macIds accepted) :
    send schema accepted (procPacket id buf) = (procPacket id buf, true) := by
  have hmac : schema accepted (macInsert id buf) = true := decide_eq_true h
  have hrest : send schema (accepted ++ [macInsert id buf]) (procPacket id buf).tail =
      ((procPacket id buf).tail, true) := by
    refine send_schema_references (fun s hs => mem_tail_procPacket hs) ?_
    rw [macIds_append]
    exact List.mem_append_right _ (List.mem_singleton.mpr rfl)
  change send schema accepted (macInsert id buf :: (procPacket id buf).tail) = _
  rw [send, if_pos hmac, hrest]
  rfl

theorem send_schema_old (h : id.setWidth 32 ∈ macIds accepted) :
    send schema accepted (procPacket id buf) = ([macInsert id buf], false) := by
  have hmac : ¬ schema accepted (macInsert id buf) = true := fun ht => of_decide_eq_true ht h
  change send schema accepted (macInsert id buf :: (procPacket id buf).tail) = _
  rw [send, if_neg hmac]

/-- With the keys of the schema the capture goes on until the counter has gone round. -/
theorem length_startCapture_schema {n : ℕ} (hn : n ≤ 2 ^ 32) {frames : List Bytes}
    (hids : macIds accepted = (List.range n).map fun k => BitVec.ofNat 32 (0 + 1 + k))
    (hlong : ∀ f ∈ frames, 46 ≤ f.length) :
    (startCapture schema (BitVec.ofNat 64 n) accepted frames).length =
      min frames.length (2 ^ 32 + 1 - n) := by
  induction frames generalizing n accepted with
  | nil =>
      rw [List.length_nil, Nat.zero_min]
      rfl
  | cons frame frames ih =>
      obtain ⟨hframe, hlong⟩ := List.forall_mem_cons.mp hlong
      rw [startCapture, counter_succ, if_neg (long_take hframe), List.length_cons, List.length_cons]
      by_cases hlt : n < 2 ^ 32
      · have hnew : (BitVec.ofNat 64 (n + 1)).setWidth 32 ∉ macIds accepted := by
          rw [setWidth_counter, hids]
          intro hmem
          obtain ⟨k, hk, heq⟩ := List.mem_map.mp hmem
          have hk := List.mem_range.mp hk
          have hmod := congrArg BitVec.toNat heq
          rw [BitVec.toNat_ofNat, BitVec.toNat_ofNat] at hmod
          omega
        have hsent := macIds_send schema accepted (BitVec.ofNat 64 (n + 1))
          (frame.take bufferMax)
        rw [send_schema_new hnew] at hsent ⊢
        have hids' : macIds (accepted ++ procPacket (BitVec.ofNat 64 (n + 1))
            (frame.take bufferMax)) =
            (List.range (n + 1)).map fun k => BitVec.ofNat 32 (0 + 1 + k) := by
          rw [macIds_append, hids, hsent, setWidth_counter, List.range_succ, List.map_append,
            List.map_singleton, Nat.add_comm n 1, Nat.zero_add]
        rw [if_pos rfl, ih (n := n + 1) hlt hids' hlong]
        omega
      · have hn : n = 2 ^ 32 := Nat.le_antisymm hn (Nat.le_of_not_lt hlt)
        have hold : (BitVec.ofNat 64 (n + 1)).setWidth 32 ∈ macIds accepted := by
          rw [setWidth_counter, hids, hn]
          exact List.mem_map.mpr ⟨0, List.mem_range.mpr (by omega), rfl⟩
        rw [send_schema_old hold, if_neg nofun, List.length_nil]
        omega

end Schema

/-- The id of frame `2 ^ 32 + 1` is that of the first frame. With the keys of the schema its
statement is sent and refused, without them the row is stored. -/
theorem ids_repeat :
    ¬ IdsIdentify (startCapture schema 0 []
        (List.replicate (2 ^ 32 + 1) (List.replicate 46 0))) ∧
      ¬ IdsIdentify (startCapture acceptAll 0 []
        (List.replicate (2 ^ 32 + 1) (List.replicate 46 0))) := by
  have hlong : ∀ f ∈ List.replicate (2 ^ 32 + 1) (List.replicate 46 (0 : UInt8)),
      46 ≤ f.length := by
    intro f hf
    rw [List.eq_of_mem_replicate hf]
    decide
  constructor
  · intro h
    have hlen :
        (startCapture schema 0 [] (List.replicate (2 ^ 32 + 1) (List.replicate 46 0))).length =
          min _ (2 ^ 32 + 1 - 0) := length_startCapture_schema (Nat.zero_le _) rfl hlong
    have hle := (distinct_iff schema _).mp h.distinct
    rw [hlen, List.length_replicate] at hle
    omega
  · intro h
    have hle := (distinct_iff acceptAll _).mp h.distinct
    rw [length_startCapture_acceptAll 0 [] hlong, List.length_replicate] at hle
    omega

end Hatch.NetCapture
