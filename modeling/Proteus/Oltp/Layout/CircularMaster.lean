/-
**Circular master columns** (`circular-master-column.cpp`, `snapshot/circular_master_arena.hpp`).

One partition of a column: a block for each master version, a bit for each of its records that says
that the record was updated in this version, a flag that says that any was since the last snapshot,
the metadata of the last snapshot and of the last copy for analytics, and that copy. Bits are kept
in packs of 8192, in which loops over them may skip or stop.

`syncSnapshot` brings the active version up to date with the inactive one: it copies the records
whose bit is set in the inactive version and not in the active one. No bit is ever cleared by it.
`etl` brings the analytics copy up to date: packs with a bit, if the last snapshot saw an update,
and what is new.

* `syncSnapshot_element` — what a record is after a synchronisation.
* `etl_element` — what a record of the copy is after `etl`.
-/

import Proteus.Oltp.Layout.Column

namespace Proteus.Oltp.Layout

open Library Function

/-! ### The state -/

/-- `BIT_PACK_SIZE` -/
def bitPackSize : Nat := 8192

/-- `metadata`, as far as it is read. -/
structure Arena where
  numOfRecords : Nat
  masterVer : Nat
  updSinceLastSnapshot : Bool
deriving DecidableEq, Repr

/-- One partition of a `CircularMasterColumn`. -/
structure MasterColumn where
  masters : Nat → Memory
  updBits : Nat → Nat → Bool
  touched : Bool
  snapshotArena : Arena
  etlArena : Arena
  readonlyEtl : Memory

/-- As the constructor leaves it. -/
def MasterColumn.fresh : MasterColumn where
  masters _ _ := 0
  updBits _ _ := false
  touched := false
  snapshotArena := ⟨0, 0, false⟩
  etlArena := ⟨0, 0, true⟩
  readonlyEtl _ := 0

def Extent.numBitPacks (extent : Extent) : Nat :=
  extent.capacity / bitPackSize + extent.capacity % bitPackSize

/-- `any` of some bits. -/
def anyBit (bits : Nat → Bool) : Nat → Nat → Bool
  | _, 0 => false
  | start, count + 1 => bits start || anyBit bits (start + 1) count

namespace MasterColumn

variable (extent : Extent)

/-! ### Records -/

/-- What `getElem` copies. -/
def getElem (masterVer offset : Nat) (column : MasterColumn) : List UInt8 :=
  (column.masters masterVer).element extent.unitSize offset

/-- `insertElem`, into all versions. -/
def insert (numMasters offset : Nat) (elem : Option (List UInt8)) (column : MasterColumn) :
    Option MasterColumn :=
  (insertElem extent numMasters offset elem column.masters).map fun masters =>
    { column with masters }

/-- `updateElem`, in one version. -/
def updateElem (masterVer offset : Nat) (elem : Option (List UInt8)) (column : MasterColumn) :
    Option MasterColumn :=
  if offset < extent.capacity then
    (updateInPlace extent offset elem (column.masters masterVer)).map fun memory =>
      { column with
        masters := Function.update column.masters masterVer memory
        updBits := Function.update column.updBits masterVer
          (Function.update (column.updBits masterVer) offset true)
        touched := true }
  else none

/-! ### Snapshots -/

/-- `snapshot` -/
def snapshot (numOfRecords masterVer : Nat) (column : MasterColumn) : MasterColumn :=
  { column with
    snapshotArena := ⟨numOfRecords, masterVer, column.touched⟩
    etlArena := { column.etlArena with
      updSinceLastSnapshot := column.etlArena.updSinceLastSnapshot || column.touched }
    touched := false }

def syncBits (source : Memory) (src actv : Nat → Bool) (numOfRecords : Nat) : Nat → Nat → Memory →
    Memory
  | _, 0, memory => memory
  | dataIdx, remaining + 1, memory =>
    if numOfRecords < dataIdx then memory
    else
      -- a bit is set for records within the capacity only, so that the assertions on `mem_idx` hold
      let synced := if src dataIdx && !actv dataIdx then
          memory.write (dataIdx * extent.unitSize) (source.element extent.unitSize dataIdx)
        else memory
      syncBits source src actv numOfRecords (dataIdx + 1) remaining synced

def syncPacks (source : Memory) (src actv : Nat → Bool) (numOfRecords : Nat) : Nat → Nat → Memory →
    Memory
  | _, 0, memory => memory
  | msk, remaining + 1, memory =>
    if numOfRecords < msk * bitPackSize ∨ 2 ^ 31 ≤ msk * bitPackSize then memory
    else if !anyBit src (msk * bitPackSize) bitPackSize ||
        !anyBit (fun record => !actv record) (msk * bitPackSize) bitPackSize then
      syncPacks source src actv numOfRecords (msk + 1) remaining memory
    else
      syncPacks source src actv numOfRecords (msk + 1) remaining
        (syncBits extent source src actv numOfRecords (msk * bitPackSize) bitPackSize memory)

/-- `syncSnapshot`, for one of the other versions. -/
def syncSnapshot (inactive active : Nat) (column : MasterColumn) : MasterColumn :=
  let arena := column.snapshotArena
  if arena.numOfRecords = 0 ∨ arena.updSinceLastSnapshot = false then column
  else
    { column with
      masters := Function.update column.masters active
        (syncPacks extent (column.masters inactive) (column.updBits inactive)
        (column.updBits active)
          arena.numOfRecords 0 extent.numBitPacks (column.masters active)) }

/-! ### Copies for analytics -/

def packBytes (msk : Nat) : Nat :=
  let toCpy := bitPackSize * extent.unitSize
  let st := msk * toCpy
  if st + toCpy ≤ extent.totalSize then toCpy else extent.totalSize - st

/-- `reset` of a pack of bits. -/
def clearPack (msk : Nat) (bits : Nat → Bool) : Nat → Bool :=
  fun record => if msk * bitPackSize ≤ record ∧ record < (msk + 1) * bitPackSize then false else
    bits record

def etlPacks (chunk : Memory) (olapNumRec : Nat) : Nat → Nat → Memory × (Nat → Bool) →
    Memory × (Nat → Bool)
  | _, 0, copied => copied
  | msk, remaining + 1, (readonly, bits) =>
    if olapNumRec ≤ msk * bitPackSize then (readonly, bits)
    else if anyBit bits (msk * bitPackSize) bitPackSize then
      let st := msk * (bitPackSize * extent.unitSize)
      etlPacks chunk olapNumRec (msk + 1) remaining
        (readonly.write st (chunk.read st (packBytes extent msk)), clearPack msk bits)
    else etlPacks chunk olapNumRec (msk + 1) remaining (readonly, bits)

def etlUpdated (column : MasterColumn) : Memory × (Nat → Bool) :=
  let snap := column.snapshotArena
  let copied := (column.readonlyEtl, column.updBits snap.masterVer)
  if snap.updSinceLastSnapshot then
    etlPacks extent (column.masters snap.masterVer) column.etlArena.numOfRecords 0
      extent.numBitPacks copied
  else copied

/-- `ETL` -/
def etl (column : MasterColumn) : MasterColumn :=
  let snap := column.snapshotArena
  let olapNumRec := column.etlArena.numOfRecords
  let chunk := column.masters snap.masterVer
  let (readonly, bits) := etlUpdated extent column
  let st := olapNumRec * extent.unitSize
  let readonlyEtl := if olapNumRec < snap.numOfRecords then
      readonly.write st (chunk.read st ((snap.numOfRecords - olapNumRec) * extent.unitSize))
    else readonly
  { column with
    updBits := Function.update column.updBits snap.masterVer bits
    etlArena := ⟨snap.numOfRecords, snap.masterVer, false⟩
    readonlyEtl }

structure Segment where
  block : Memory
  first : Nat
  numRecords : Nat

/-- The records of a segment. -/
def Segment.records (segment : Segment) : List (List UInt8) :=
  (List.range segment.numRecords).map fun record =>
    segment.block.element extent.unitSize (segment.first + record)

/-- `elastic_partition`; `none` is the failed assertion. -/
def elasticPartition (column : MasterColumn) : Option (List Segment) :=
  let snap := column.snapshotArena
  let olap := column.etlArena
  let master := column.masters snap.masterVer
  if snap.updSinceLastSnapshot || olap.updSinceLastSnapshot then
    some [⟨master, 0, snap.numOfRecords⟩]
  else if snap.numOfRecords = olap.numOfRecords then
    some [⟨column.readonlyEtl, 0, olap.numOfRecords⟩]
  else if olap.numOfRecords < snap.numOfRecords then
    some [⟨column.readonlyEtl, 0, olap.numOfRecords⟩,
      ⟨master, olap.numOfRecords, snap.numOfRecords - olap.numOfRecords⟩]
  else none

end MasterColumn

open Nat

/-! ### What inserts and updates leave -/

theorem anyBit_iff (b : Nat → Bool) (s c : Nat) :
    anyBit b s c = true ↔ ∃ r, s ≤ r ∧ r < s + c ∧ b r = true := by
  induction c generalizing s with
  | zero =>
    refine ⟨fun hi => absurd hi Bool.false_ne_true, ?_⟩
    rintro ⟨r, low, hhi, -⟩
    omega
  | succ c ih =>
    rw [anyBit, Bool.or_eq_true, ih]
    refine ⟨?_, ?_⟩
    · rintro (hh | ⟨r, low, hhi, set⟩)
      · exact ⟨s, le_rfl, by omega, hh⟩
      · exact ⟨r, by omega, by omega, set⟩
    · rintro ⟨r, low, hhi, set⟩
      rcases eq_or_lt_of_le low with rfl | hl
      · exact .inl set
      · exact .inr ⟨r, hl, by omega, set⟩

namespace MasterColumn

variable {ex : Extent} {o record rc : Nat}

theorem insert_eq (hi : o < ex.capacity) (nm : Nat) (e : Option (List UInt8)) (c : MasterColumn) :
    c.insert ex nm o e = some { c with
      masters := fun m => if m < nm then
          (c.masters m).write (o * ex.unitSize) (elemBytes e)
        else c.masters m } := by
  rw [insert, insertElem_eq hi, Option.map_some]

theorem updateElem_eq (hi : o < ex.capacity) (mv : Nat) (e : Option (List UInt8))
    (c : MasterColumn) :
    c.updateElem ex mv o e = some { c with
      masters := update c.masters mv ((c.masters mv).write (o * ex.unitSize) (elemBytes e))
      updBits := update c.updBits mv (update (c.updBits mv) o true)
      touched := true } := by
  rw [updateElem, if_pos hi, updateInPlace, if_pos (room_iff.mpr hi), Option.map_some]

theorem pack_below {msk : Nat} (low : msk * bitPackSize < 2 ^ 31) :
    msk * bitPackSize + bitPackSize ≤ 2 ^ 31 := by
  unfold bitPackSize at *
  omega

section

variable (s : Memory) (src a : Nat → Bool) (nor : Nat)

theorem syncBits_element (di r : Nat) (m : Memory) (rc : Nat) :
    (syncBits ex s src a nor di r m).element ex.unitSize rc =
      if (di ≤ rc ∧ rc < di + r) ∧ rc ≤ nor ∧ src rc = true ∧ a rc = false then
        s.element ex.unitSize rc
      else m.element ex.unitSize rc := by
  induction r generalizing di m with
  | zero => rw [syncBits, if_neg (by omega)]
  | succ r ih =>
    rw [syncBits]
    by_cases hp : nor < di
    · rw [if_pos hp, if_neg (by omega)]
    have hh : (if src di && !a di then
        m.write (di * ex.unitSize) (s.element ex.unitSize di) else m).element ex.unitSize rc =
        if rc = di ∧ src rc = true ∧ a rc = false then
          s.element ex.unitSize rc
        else m.element ex.unitSize rc := by
      by_cases hc : (src di && !a di) = true
      · rw [if_pos hc, Memory.element_write_element]
        simp only [Bool.and_eq_true, Bool.not_eq_true'] at hc
        refine if_congr ⟨?_, fun hb => hb.1⟩ rfl rfl
        rintro rfl
        exact ⟨rfl, hc⟩
      · rw [if_neg hc, if_neg]
        rintro ⟨rfl, set, hcl⟩
        exact hc (by rw [set, hcl]; rfl)
    rw [if_neg hp, ih, hh, ← ite_or]
    refine if_congr ⟨?_, ?_⟩ rfl rfl
    · rintro (⟨⟨low, hhi⟩, hw, hbi⟩ | ⟨rfl, hbi⟩)
      · exact ⟨⟨by omega, by omega⟩, hw, hbi⟩
      · exact ⟨⟨le_rfl, by omega⟩, not_lt.mp hp, hbi⟩
    · rintro ⟨⟨low, hhi⟩, hw, hbi⟩
      rcases eq_or_lt_of_le low with rfl | hl
      · exact .inr ⟨rfl, hbi⟩
      · exact .inl ⟨⟨hl, by omega⟩, hw, hbi⟩

theorem syncPacks_element (msk r : Nat) (m : Memory) (rc : Nat) :
    (syncPacks ex s src a nor msk r m).element ex.unitSize rc =
      if (msk * bitPackSize ≤ rc ∧ rc < (msk + r) * bitPackSize ∧ rc < 2 ^ 31) ∧
          rc ≤ nor ∧ src rc = true ∧ a rc = false then
        s.element ex.unitSize rc
      else m.element ex.unitSize rc := by
  induction r generalizing msk m with
  | zero => rw [syncPacks, add_zero, if_neg (by omega)]
  | succ r ih =>
    rw [syncPacks]
    by_cases hp : nor < msk * bitPackSize ∨ 2 ^ 31 ≤ msk * bitPackSize
    · rw [if_pos hp, if_neg (by omega)]
    have next_pack : (msk + 1) * bitPackSize = msk * bitPackSize + bitPackSize :=
      succ_mul msk bitPackSize
    have hb := pack_below (not_le.mp fun hh => hp (.inr hh))
    have hen : (msk + 1 + r) * bitPackSize = (msk + (r + 1)) * bitPackSize := by
      rw [add_assoc, add_comm 1]
    have ha : (msk + 1) * bitPackSize ≤ (msk + (r + 1)) * bitPackSize :=
      mul_le_mul_right _ (by omega)
    rw [if_neg hp]
    by_cases hs : (!anyBit src (msk * bitPackSize) bitPackSize ||
        !anyBit (fun rc => !a rc) (msk * bitPackSize) bitPackSize) = true
    · -- no bit of the pack is set in one version and clear in the other
      rw [if_pos hs, ih]
      refine if_congr ⟨?_, ?_⟩ rfl rfl
      · rintro ⟨hi, hr⟩
        exact ⟨by omega, hr⟩
      · rintro ⟨hi, hw, set, hc⟩
        refine ⟨⟨not_lt.mp fun he => ?_, by omega⟩, hw, set, hc⟩
        have source_any : anyBit src (msk * bitPackSize) bitPackSize = true :=
          (anyBit_iff ..).mpr ⟨rc, by omega, by omega, set⟩
        have active_any : anyBit (fun rc => !a rc) (msk * bitPackSize) bitPackSize = true :=
          (anyBit_iff ..).mpr ⟨rc, by omega, by omega, by rw [hc, Bool.not_false]⟩
        rw [source_any, active_any] at hs
        cases hs
    · rw [if_neg hs, ih, syncBits_element, ← ite_or]
      refine if_congr ⟨?_, ?_⟩ rfl rfl
      · rintro (⟨hi, hr⟩ | ⟨hi, hr⟩)
        · exact ⟨by omega, hr⟩
        · exact ⟨by omega, hr⟩
      · rintro ⟨hi, hr⟩
        by_cases he : rc < msk * bitPackSize + bitPackSize
        · exact .inr ⟨by omega, hr⟩
        · exact .inl ⟨by omega, hr⟩

end

theorem capacity_le_packs (ex : Extent) : ex.capacity ≤ ex.numBitPacks * bitPackSize := by
  unfold Extent.numBitPacks bitPackSize
  omega

/-- **After a synchronisation** a record of the active version is the inactive one's where its bit
is set in the inactive version only, the last snapshot saw an update, and the record is among its
first `2 ^ 31`. -/
theorem syncSnapshot_element (i a : Nat) (c : MasterColumn) (hi : rc < ex.capacity) :
    ((c.syncSnapshot ex i a).masters a).element ex.unitSize rc =
      if (c.snapshotArena.numOfRecords ≠ 0 ∧ c.snapshotArena.updSinceLastSnapshot = true) ∧
          rc < 2 ^ 31 ∧ rc ≤ c.snapshotArena.numOfRecords ∧
          c.updBits i rc = true ∧ c.updBits a rc = false then
        (c.masters i).element ex.unitSize rc
      else (c.masters a).element ex.unitSize rc := by
  have hp := capacity_le_packs ex
  unfold syncSnapshot
  by_cases hid : c.snapshotArena.numOfRecords = 0 ∨ c.snapshotArena.updSinceLastSnapshot = false
  · rw [if_pos hid, if_neg]
    rintro ⟨⟨some_there, hu⟩, -⟩
    rcases hid with hn | hq
    · exact some_there hn
    · rw [hq] at hu
      cases hu
  · rw [if_neg hid]
    obtain ⟨some_there, hu⟩ := not_or.mp hid
    simp only [update_self]
    rw [syncPacks_element, zero_mul, zero_add]
    refine if_congr ⟨?_, ?_⟩ rfl rfl
    · rintro ⟨⟨-, -, low⟩, hr⟩
      exact ⟨⟨some_there, by simpa using hu⟩, low, hr⟩
    · rintro ⟨-, low, hr⟩
      exact ⟨⟨by omega, by omega, low⟩, hr⟩

/-! ### What a copy for analytics leaves -/

theorem anyBit_congr {b o : Nat → Bool} {s c : Nat}
    (hs : ∀ record, s ≤ record → record < s + c → b record = o record) :
    anyBit b s c = anyBit o s c := by
  induction c generalizing s with
  | zero => rfl
  | succ c ih =>
    rw [anyBit, anyBit, hs s le_rfl (by omega), ih fun record low hh =>
      hs record (by omega) (by omega)]

def packStart (record : Nat) : Nat := record / bitPackSize * bitPackSize

theorem pack_eq_iff {msk : Nat} :
    rc / bitPackSize = msk ↔ msk * bitPackSize ≤ rc ∧ rc < msk * bitPackSize + bitPackSize := by
  unfold bitPackSize
  omega

theorem packStart_le (rc : Nat) : packStart rc ≤ rc :=
  div_mul_le_self ..

theorem packBytes_eq (ex : Extent) (msk : Nat) :
    packBytes ex msk = min bitPackSize (ex.capacity - msk * bitPackSize) * ex.unitSize := by
  show (if msk * (bitPackSize * ex.unitSize) + bitPackSize * ex.unitSize ≤ ex.totalSize then
    bitPackSize * ex.unitSize else ex.totalSize - msk * (bitPackSize * ex.unitSize)) = _
  rw [← Nat.mul_assoc, ← Nat.add_mul, Extent.totalSize, ← Nat.sub_mul]
  split_ifs with hw
  all_goals rw [Nat.mul_le_mul_right_iff ex.unitSize_pos] at hw
  · rw [Nat.min_eq_left (by omega)]
  · rw [Nat.min_eq_right (by omega)]

theorem pack_copy (r c : Memory) (msk : Nat) (hi : rc < ex.capacity) :
    (r.write (msk * (bitPackSize * ex.unitSize)) (c.read
      (msk * (bitPackSize * ex.unitSize)) (packBytes ex msk))).element ex.unitSize rc =
    if rc / bitPackSize = msk then c.element ex.unitSize rc
    else r.element ex.unitSize rc := by
  rw [packBytes_eq, ← mul_assoc, Memory.element_copy]
  refine if_congr ?_ rfl rfl
  rw [pack_eq_iff]
  omega

theorem anyBit_clearPack {msk : Nat} (ha : rc / bitPackSize ≠ msk) (b : Nat → Bool) :
    anyBit (clearPack msk b) (packStart rc) bitPackSize = anyBit b (packStart rc) bitPackSize := by
  refine anyBit_congr fun o low hh => if_neg fun hb => ha ?_
  rw [succ_mul] at hb
  exact (pack_eq_iff.mpr ⟨low, hh⟩).symm.trans (pack_eq_iff.mpr hb)

theorem etlPacks_element (c : Memory) (onr msk r : Nat) (re : Memory) (b : Nat → Bool)
    (hi : rc < ex.capacity) :
    (etlPacks ex c onr msk r (re, b)).1.element ex.unitSize rc =
      if (msk ≤ rc / bitPackSize ∧ rc / bitPackSize < msk + r) ∧
          packStart rc < onr ∧ anyBit b (packStart rc) bitPackSize = true then
        c.element ex.unitSize rc
      else re.element ex.unitSize rc := by
  induction r generalizing msk re b with
  | zero => rw [etlPacks, if_neg (by omega)]
  | succ r ih =>
    rw [etlPacks]
    by_cases hp : onr ≤ msk * bitPackSize
    · rw [if_pos hp, if_neg]
      rintro ⟨⟨low, -⟩, he, -⟩
      have hl : msk * bitPackSize ≤ packStart rc := mul_le_mul_right _ low
      omega
    rw [if_neg hp]
    by_cases hm : anyBit b (msk * bitPackSize) bitPackSize = true
    · rw [if_pos hm, ih, pack_copy _ _ _ hi]
      by_cases hh : rc / bitPackSize = msk
      · rw [if_neg (by omega), if_pos hh, if_pos]
        rw [packStart, hh]
        exact ⟨⟨le_rfl, by omega⟩, not_le.mp hp, hm⟩
      · rw [if_neg hh, anyBit_clearPack hh]
        exact if_congr (and_congr_left fun _ => by omega) rfl rfl
    · rw [if_neg hm, ih]
      refine if_congr ⟨fun all => ⟨by omega, all.2⟩, fun all => ⟨?_, all.2⟩⟩ rfl rfl
      refine ⟨lt_of_le_of_ne all.1.1 fun hh => hm ?_, by omega⟩
      rw [hh]
      exact all.2.2

theorem pack_lt (hi : rc < ex.capacity) : rc / bitPackSize < ex.numBitPacks := by
  unfold Extent.numBitPacks bitPackSize
  omega

theorem etlUpdated_element (c : MasterColumn) (hi : rc < ex.capacity) :
    (etlUpdated ex c).1.element ex.unitSize rc =
      if c.snapshotArena.updSinceLastSnapshot = true ∧ packStart rc < c.etlArena.numOfRecords ∧
          anyBit (c.updBits c.snapshotArena.masterVer) (packStart rc) bitPackSize = true then
        c.getElem ex c.snapshotArena.masterVer rc
      else c.readonlyEtl.element ex.unitSize rc := by
  have hp : rc / bitPackSize < 0 + ex.numBitPacks := by
    rw [zero_add]
    exact pack_lt hi
  unfold etlUpdated
  by_cases hu : c.snapshotArena.updSinceLastSnapshot = true
  · rw [if_pos hu, etlPacks_element _ _ _ _ _ _ hi]
    exact if_congr ⟨fun all => ⟨hu, all.2⟩, fun all => ⟨⟨zero_le _, hp⟩, all.2⟩⟩ rfl rfl
  · rw [if_neg hu, if_neg fun all => hu all.1]

/-- **After `etl`** a record of the copy is the one of the snapshot's version if it is new, or if a
bit of its pack is set and the last snapshot saw an update. -/
theorem etl_element (c : MasterColumn) (hi : rc < ex.capacity) :
    (c.etl ex).readonlyEtl.element ex.unitSize rc =
      if (c.etlArena.numOfRecords ≤ rc ∧ rc < c.snapshotArena.numOfRecords) ∨
          (c.snapshotArena.updSinceLastSnapshot = true ∧ packStart rc < c.etlArena.numOfRecords ∧
            anyBit (c.updBits c.snapshotArena.masterVer) (packStart rc) bitPackSize = true) then
        c.getElem ex c.snapshotArena.masterVer rc
      else c.readonlyEtl.element ex.unitSize rc := by
  rw [ite_or, ← etlUpdated_element c hi]
  show (if c.etlArena.numOfRecords < c.snapshotArena.numOfRecords then _
    else (etlUpdated ex c).1 : Memory).element ex.unitSize rc = _
  by_cases hg : c.etlArena.numOfRecords < c.snapshotArena.numOfRecords
  · rw [if_pos hg, Memory.element_copy]
    exact if_congr (and_congr_right fun _ => by omega) rfl rfl
  · rw [if_neg hg, if_neg (by omega)]

end MasterColumn

end Proteus.Oltp.Layout
