import Hatch.TypesLoad

/-!
# Reloading the type mapping

`ReloadTypesMappingRelation` clears the table before it knows whether the file can be loaded. An
error leaves the lines read so far in the cleared table, with the first name of the line that
was rejected if it has one.
-/

namespace Hatch.Types

open ByteLayout (Bytes)

variable {m m' : TableMemory} {index : ℕ} {line : Bytes}

/-- If the call returns an error the table is as before, and otherwise it is what a load of the
file into the cleared table gives. -/
def ReloadsAtomically (config : Config) (old : TableMemory) : Prop :=
  ∀ ret m, (reloadTypesMappingRelation config old).result = .ok (ret, m) →
    (ret ≠ 0 → m = old) ∧
    (ret = 0 → (loadTypesMappingRelation config .zeroed).result = .ok (0, m))

/-- The loop ends with an error at the line `bad`, which follows complete lines. Behind 256 of
them that is a line without a colon. -/
structure StopsAt (index : ℕ) (good : List Bytes) (bad : Bytes) : Prop where
  complete : ∀ line ∈ good, (parseLine line).IsComplete ∧ (parseLine line).Stays
  incomplete : ¬ (parseLine bad).IsComplete
  stays : (parseLine bad).Stays
  room : index + good.length < uxTypesNumMax ∨
    index + good.length = uxTypesNumMax ∧ parseLine bad = .noColon

theorem stopsAt_cons {lines : List Bytes} {bad : Bytes} :
    StopsAt index (line :: lines) bad ↔
      ((parseLine line).IsComplete ∧ (parseLine line).Stays) ∧ StopsAt (index + 1) lines bad := by
  have hsum : index + (line :: lines).length = index + 1 + lines.length := by
    rw [List.length_cons]
    omega
  constructor
  · rintro ⟨hgood, hbad, hstays, hroom⟩
    rw [hsum] at hroom
    rw [List.forall_mem_cons] at hgood
    exact ⟨hgood.1, hgood.2, hbad, hstays, hroom⟩
  · rintro ⟨hline, hgood, hbad, hstays, hroom⟩
    rw [← hsum] at hroom
    exact ⟨List.forall_mem_cons.mpr ⟨hline, hgood⟩, hbad, hstays, hroom⟩

theorem enter_outside (m : TableMemory) (line : Bytes) : m.enter uxTypesNumMax line = m := by
  have hset : ∀ s, m.slots.set uxTypesNumMax s = m.slots := fun s =>
    List.set_eq_of_length_le m.length_eq.le
  simp only [TableMemory.enter, TableMemory.setSlot, hset]

theorem loadLoop_noColon {lines : List Bytes} (h : parseLine line = .noColon) :
    loadLoop (line :: lines) index m =
      ⟨[⟨index, line⟩], .ok (TransformErr.configFileErr.code, m)⟩ := by
  rw [loadLoop, addTypeMappingNode_eq, h]
  rfl

/-- An error is the work of a first line that is not complete. -/
theorem loadLoop_error (lines : List Bytes) (hi : index ≤ uxTypesNumMax) {ret : ℤ} (hret : ret ≠ 0)
    (h : (loadLoop lines index m).result = .ok (ret, m')) :
    ∃ good bad rest, lines = good ++ bad :: rest ∧ StopsAt index good bad ∧
      m' = m.enterAll index (good ++ [bad]) := by
  induction lines generalizing index m with
  | nil =>
      cases h
      exact absurd rfl hret
  | cons line lines ih =>
      cases hadd : addTypeMappingNode line index m with
      | error e =>
          rw [loadLoop, hadd] at h
          cases h
      | ok r =>
          obtain ⟨hstays, hroom⟩ := addTypeMappingNode_inv hadd
          by_cases hlt : index < uxTypesNumMax
          · by_cases hc : (parseLine line).IsComplete
            · rw [loadLoop_complete hlt hstays hc] at h
              obtain ⟨good, bad, rest, rfl, hstops, rfl⟩ := ih hlt h
              exact ⟨line :: good, bad, rest, rfl, stopsAt_cons.mpr ⟨⟨hc, hstays⟩, hstops⟩, rfl⟩
            · rw [loadLoop_incomplete hlt hstays hc] at h
              refine ⟨[], line, lines, rfl, ⟨List.forall_mem_nil _, hc, hstays, .inl hlt⟩, ?_⟩
              exact (Prod.mk.inj (Except.ok.inj h)).2.symm
          · have hnone := (hroom.resolve_left hlt).1
            obtain rfl : index = uxTypesNumMax := Nat.le_antisymm hi (Nat.not_lt.mp hlt)
            have hc : ¬ (parseLine line).IsComplete := by
              rw [hnone]
              exact id
            refine ⟨[], line, lines, rfl,
              ⟨List.forall_mem_nil _, hc, hstays, .inr ⟨rfl, hnone⟩⟩, ?_⟩
            rw [loadLoop_noColon hnone] at h
            rw [← (Prod.mk.inj (Except.ok.inj h)).2]
            exact (enter_outside m line).symm

theorem loadLoop_stops {good : List Bytes} {bad : Bytes} (h : StopsAt index good bad)
    (rest : List Bytes) (m : TableMemory) :
    (loadLoop (good ++ bad :: rest) index m).result =
      .ok (TransformErr.configFileErr.code, m.enterAll index (good ++ [bad])) := by
  induction good generalizing index m with
  | nil =>
      have hroom : index < uxTypesNumMax ∨ index = uxTypesNumMax ∧ parseLine bad = .noColon :=
        h.room
      rcases hroom with hlt | ⟨rfl, hnone⟩
      · rw [List.nil_append, loadLoop_incomplete hlt h.stays h.incomplete]
        have hret : (parseLine bad).ret = TransformErr.configFileErr.code := by
          cases hbad : parseLine bad with
          | noColon => rfl
          | oneColon o => rfl
          | fields o u f => exact absurd (hbad ▸ trivial) h.incomplete
        rw [hret]
        rfl
      · rw [List.nil_append, loadLoop_noColon hnone]
        exact congrArg (fun m => Except.ok (_, m)) (enter_outside m bad).symm
  | cons line good ih =>
      obtain ⟨⟨hc, hstays⟩, htail⟩ := stopsAt_cons.mp h
      have hlt : index < uxTypesNumMax := by
        have hroom := htail.room
        omega
      rw [List.cons_append, loadLoop_complete hlt hstays hc]
      exact ih htail (m.enter index line)

/-- A reload is atomic exactly if the file can be read and no line is rejected, or the table was
already what the lines up to the rejected one leave in the cleared table. -/
theorem reload_atomic_iff (config : Config) (old : TableMemory) :
    ReloadsAtomically config old ↔
      match config with
      | .null | .missing => old = .zeroed
      | .file text => ∀ good bad rest, configLines text = good ++ bad :: rest →
          StopsAt 0 good bad → old = TableMemory.zeroed.enterAll 0 (good ++ [bad]) := by
  have hload : ∀ ret m, (reloadTypesMappingRelation config old).result = .ok (ret, m) → ret = 0 →
      (loadTypesMappingRelation config .zeroed).result = .ok (0, m) := by
    rintro ret m h rfl
    exact h
  cases config with
  | null =>
      refine ⟨fun h => (((h _ _ rfl).1 TransformErr.unknownErr.code_ne_zero)).symm, ?_⟩
      rintro rfl ret m h
      exact ⟨fun _ => (Prod.mk.inj (Except.ok.inj h)).2.symm, hload ret m h⟩
  | missing =>
      refine ⟨fun h => (((h _ _ rfl).1 TransformErr.configFileErr.code_ne_zero)).symm, ?_⟩
      rintro rfl ret m h
      exact ⟨fun _ => (Prod.mk.inj (Except.ok.inj h)).2.symm, hload ret m h⟩
  | file text =>
      constructor
      · intro h good bad rest htext hstops
        have hrun := loadLoop_stops hstops rest .zeroed
        rw [← htext] at hrun
        exact ((h _ _ hrun).1 TransformErr.configFileErr.code_ne_zero).symm
      · intro h ret m hrun
        refine ⟨fun hret => ?_, hload ret m hrun⟩
        obtain ⟨good, bad, rest, htext, hstops, rfl⟩ :=
          loadLoop_error (configLines text) (Nat.zero_le _) hret hrun
        exact (h good bad rest htext hstops).symm

/-- The table with the line `a:b:1`. -/
def oneType : TableMemory := TableMemory.zeroed.enter 0 shortLine

theorem oneType_ne_zeroed : oneType ≠ .zeroed := by
  intro h
  have hname := congrArg (fun m => m.slots.head?.map fun s => s.otypeName.bytes.head?) h
  exact absurd hname (by decide)

/-- The type is lost if the file is missing, and if its first line is `x`. -/
theorem reload_clears :
    ((reloadTypesMappingRelation .missing oneType).result =
        .ok (TransformErr.configFileErr.code, .zeroed) ∧
      (reloadTypesMappingRelation (.file [120]) oneType).result =
        .ok (TransformErr.configFileErr.code, .zeroed)) ∧
    oneType ≠ .zeroed :=
  ⟨⟨rfl, rfl⟩, oneType_ne_zeroed⟩

end Hatch.Types
