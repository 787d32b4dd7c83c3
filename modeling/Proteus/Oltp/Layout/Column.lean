/-
**Columns** (`storage-utils.hpp`, `layout/column-store/column.cpp`, `circular-master-column.cpp`).

A record number has the offset of a record in its partition, the partition and the master version
the record is to be read from. A partition of a column is one block of memory; a
`CircularMasterColumn` has one for each master version and inserts into all of them, a `Column` has
a single one. What is here concerns one partition: `copies` is the number of its blocks.

A single insert checks that there is room for its element. A batch checks that there is room for one
element more than it has, and takes their number as a `uint16_t`.

* `insertElem_eq`, `insertElemBatch_eq` — what they store, and when: `offset < capacity` for an
  element, `offset + num_elem < capacity` for a batch.
-/

import Proteus.Library.ByteMemory

namespace Proteus.Oltp.Layout

open Library Option

/-! ### Record numbers -/

def createVid (vid partitionId masterVer : Nat) : Nat :=
  vid % 2 ^ 40 + partitionId % 2 ^ 8 * 2 ^ 40 + masterVer % 2 ^ 8 * 2 ^ 48

/-- `update_mVer` -/
def updateMVer (vid masterVersion : Nat) : Nat :=
  vid % 2 ^ 48 + masterVersion % 2 ^ 8 * 2 ^ 48 + vid / 2 ^ 56 * 2 ^ 56

def getOffset (vid : Nat) : Nat := vid % 2 ^ 40

def getPid (vid : Nat) : Nat := vid / 2 ^ 40 % 2 ^ 8

def getMVersion (vid : Nat) : Nat := vid / 2 ^ 48 % 2 ^ 8

section

variable (vid par mv : Nat)

@[simp]
theorem getOffset_createVid : getOffset (createVid vid par mv) = vid % 2 ^ 40 := by
  simp only [getOffset, createVid, Nat.reducePow]
  omega

@[simp]
theorem getPid_createVid : getPid (createVid vid par mv) = par % 2 ^ 8 := by
  simp only [getPid, createVid, Nat.reducePow]
  omega

@[simp]
theorem getMVersion_createVid : getMVersion (createVid vid par mv) = mv % 2 ^ 8 := by
  simp only [getMVersion, createVid, Nat.reducePow]
  omega

@[simp]
theorem getOffset_updateMVer : getOffset (updateMVer vid mv) = getOffset vid := by
  simp only [getOffset, updateMVer, Nat.reducePow]
  omega

@[simp]
theorem getPid_updateMVer : getPid (updateMVer vid mv) = getPid vid := by
  simp only [getPid, updateMVer, Nat.reducePow]
  omega

@[simp]
theorem getMVersion_updateMVer : getMVersion (updateMVer vid mv) = mv % 2 ^ 8 := by
  simp only [getMVersion, updateMVer, Nat.reducePow]
  omega

end

/-! ### One partition of a column -/

/-- The size of an element and the number of elements there is room for. -/
structure Extent where
  unitSize : Nat
  capacity : Nat
  unitSize_pos : 0 < unitSize

theorem word_pos : 0 < 8 := by decide

/-- `total_size_per_partition`, the size of a block. -/
def Extent.totalSize (extent : Extent) : Nat := extent.capacity * extent.unitSize

def elemBytes (elem : Option (List UInt8)) : List UInt8 :=
  elem.getD (Memory.wordBytes 25)

def updateInPlace (extent : Extent) (offset : Nat) (elem : Option (List UInt8)) (memory : Memory) :
    Option Memory :=
  if offset * extent.unitSize + extent.unitSize ≤ extent.totalSize then
    some (memory.write (offset * extent.unitSize) (elemBytes elem))
  else none

def eachCopy (change : Memory → Option Memory) (copies : Nat) (blocks : Nat → Memory) :
    Option (Nat → Memory) :=
  (List.range copies).foldlM
    (fun blocks copy => (change (blocks copy)).map (Function.update blocks copy)) blocks

/-- `insertElem`; `none` is a failed assertion. -/
def insertElem (extent : Extent) (copies offset : Nat) (elem : Option (List UInt8))
    (blocks : Nat → Memory) :
    Option (Nat → Memory) :=
  if offset < extent.capacity then eachCopy (updateInPlace extent offset elem) copies blocks else
    none

def batchFits (extent : Extent) (offset numElem : Nat) : Bool :=
  let dataIdxSt := offset * extent.unitSize
  let dataIdxEn := dataIdxSt + numElem * extent.unitSize
  dataIdxEn / extent.unitSize < extent.capacity && dataIdxEn < extent.totalSize &&
    dataIdxEn + extent.unitSize ≤ extent.totalSize

def insertElemBatch (extent : Extent) (copies offset numElem : Nat) (source : Memory)
    (address : Nat)
    (blocks : Nat → Memory) : Option (Nat → Memory) :=
  if batchFits extent offset numElem then
    eachCopy (fun block => some (block.write (offset * extent.unitSize)
      (source.read address (numElem * extent.unitSize)))) copies blocks
  else none

/-! ### What is stored -/

section

variable {ex : Extent} {cs o : Nat}

theorem eachCopy_eq (ch : Memory → Memory) (cs : Nat) (bs : Nat → Memory) :
    eachCopy (fun b => some (ch b)) cs bs = some fun c => if c < cs then ch (bs c) else bs c := by
  induction cs with
  | zero => simp [eachCopy]
  | succ cs ih =>
    unfold eachCopy at ih ⊢
    rw [List.range_succ, List.foldlM_append, ih]
    simp only [map_some, List.foldlM_cons, List.foldlM_nil, bind_eq_bind, bind_some,
      pure_def, lt_irrefl, if_false, Option.some.injEq]
    funext c
    by_cases hl : c = cs
    · subst hl
      rw [Function.update_self, if_pos (Nat.lt_succ_self _)]
    · rw [Function.update_of_ne hl]
      exact if_congr (by omega) rfl rfl

theorem room_iff : o * ex.unitSize + ex.unitSize ≤ ex.totalSize ↔ o < ex.capacity := by
  unfold Extent.totalSize
  rw [← Nat.succ_mul, Nat.mul_le_mul_right_iff ex.unitSize_pos, Nat.succ_le_iff]

/-- **A single insert** stores its element where there is room for it. -/
theorem insertElem_eq (hi : o < ex.capacity) (e : Option (List UInt8)) (bs : Nat → Memory) :
    insertElem ex cs o e bs = some fun c =>
      if c < cs then (bs c).write (o * ex.unitSize) (elemBytes e)
        else bs c := by
  have hc : updateInPlace ex o e = fun b =>
      some (b.write (o * ex.unitSize) (elemBytes e)) := by
    funext b
    exact if_pos (room_iff.mpr hi)
  rw [insertElem, if_pos hi, hc, eachCopy_eq]

theorem batchFits_iff (numElem : Nat) :
    batchFits ex o numElem = true ↔ o + numElem < ex.capacity := by
  unfold batchFits
  simp only [← Nat.add_mul, Nat.mul_div_cancel _ ex.unitSize_pos, Bool.and_eq_true,
    decide_eq_true_eq, room_iff]
  refine ⟨fun hf => hf.2, fun hf => ⟨⟨hf, ?_⟩, hf⟩⟩
  exact Nat.mul_lt_mul_of_pos_right hf ex.unitSize_pos

/-- **A batch** stores its elements where there is room for one more. -/
theorem insertElemBatch_eq (numElem : Nat) (s : Memory) (a : Nat) (bs : Nat → Memory) :
    insertElemBatch ex cs o numElem s a bs = if o + numElem < ex.capacity then some fun c =>
        if c < cs then
          (bs c).write (o * ex.unitSize) (s.read a (numElem * ex.unitSize))
        else bs c
      else none := by
  unfold insertElemBatch
  simp only [batchFits_iff, eachCopy_eq]

end

end Proteus.Oltp.Layout
