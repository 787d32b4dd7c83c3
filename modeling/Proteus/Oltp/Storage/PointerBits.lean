/-
**The bits of a pointer into a delta store** (`DeltaDataPtr` in `delta-memory-ptr.hpp`,
`CircularDeltaStore::allocate`).

A pointer is one word: 4 bits delta index, 4 bits partition, 20 bits tag and 36 bits offset.
`update` puts the fields together with shifts and masks, the getters take them apart, all in the
types of the source. The tag of a store has 32 bits, of which a pointer keeps 20; `verifyTag`
compares those.

* `update_toNat` — the word as a number, the sum of its fields. For the delta stores there are it is
  the pointer of the other modules (`update_eq_make`).
* `allocate_decodes` — a pointer from `allocate` decodes to what it was made of, the tag to its low
  20 bits; it leads to its address while the tag stays, and no other address has the same word.
-/

import Proteus.Oltp.Storage.DeltaStore

namespace Proteus.Oltp.Storage

/-- `data_memory_base` and the tags in `deltaStore_map`. -/
structure DeltaStoreMap where
  dataMemoryBase : BitVec 8 → BitVec 64
  tag : BitVec 8 → BitVec 32

namespace DeltaWord

/-- `create_delta_idx_pid_pair` -/
def createDeltaIdxPidPair (deltaId pid : BitVec 8) : BitVec 8 :=
  ((deltaId &&& 0x0f) <<< 4) ||| (pid &&& 0x0f)

def getDeltaIdx (val : BitVec 64) : BitVec 8 := (val >>> 60).setWidth 8

def getPartitionIdx (val : BitVec 64) : BitVec 8 := (val >>> 56).setWidth 8 &&& 0x0f

def getTag (val : BitVec 64) : BitVec 32 := (val >>> 36).setWidth 32 &&& 0x000fffff

def getOffset (val : BitVec 64) : BitVec 64 := val &&& 0x0000000fffffffff

def getDeltaIdxPidPair (val : BitVec 64) : BitVec 8 := (val >>> 56).setWidth 8

/-- The word that `update` leaves. -/
def update (stores : DeltaStoreMap) (dataPtr : BitVec 64) (tag : BitVec 32) (deltaIdx pid :
    BitVec 8) : BitVec 64 :=
  let offset := dataPtr - stores.dataMemoryBase (createDeltaIdxPidPair deltaIdx pid)
  0#64 ||| (offset &&& 0x0000000fffffffff#64) ||| ((tag &&& 0x000fffff).setWidth 64 <<< 36) |||
    ((pid &&& 0x0f).setWidth 64 <<< 56) ||| ((deltaIdx &&& 0x0f).setWidth 64 <<< 60)

def verifyTag (stores : DeltaStoreMap) (val : BitVec 64) : Bool :=
  stores.tag (getDeltaIdx val) &&& 0x000fffff == getTag val

/-- `get_ptr`, with zero for a null pointer. -/
def getPtr (stores : DeltaStoreMap) (val : BitVec 64) : BitVec 64 :=
  if verifyTag stores val then stores.dataMemoryBase (getDeltaIdxPidPair val) + getOffset val else 0

/-- `allocate`, for the chunk that the partition has handed out. -/
def allocate (stores : DeltaStoreMap) (deltaId partitionId : BitVec 8) (cnk : BitVec 64) :
    BitVec 64 :=
  update stores cnk (stores.tag deltaId) deltaId partitionId

/-! ### The word as a number -/

open BitVec

section

theorem toNat_or_shiftLeft (p w : Nat) {lo f : BitVec 64} (hb : lo.toNat < 2 ^ p)
    (hf : f.toNat < 2 ^ w) (hi : p + w ≤ 64) :
    (lo ||| f <<< p).toNat = lo.toNat + f.toNat * 2 ^ p := by
  have hr : f.toNat * 2 ^ p < 2 ^ 64 := by
    calc f.toNat * 2 ^ p < 2 ^ w * 2 ^ p := Nat.mul_lt_mul_of_pos_right hf (Nat.two_pow_pos _)
      _ = 2 ^ (p + w) := by rw [Nat.add_comm, Nat.pow_add]
      _ ≤ 2 ^ 64 := Nat.pow_le_pow_right (by decide) hi
  rw [toNat_or, toNat_shiftLeft, Nat.shiftLeft_eq, Nat.mod_eq_of_lt hr, Nat.or_comm,
    ← Nat.shiftLeft_eq, ← Nat.shiftLeft_add_eq_or_of_lt hb, Nat.shiftLeft_eq, Nat.add_comm]

theorem toNat_mask8 (v : BitVec 8) : (v &&& 0x0f).toNat = v.toNat % 2 ^ 4 := by
  rw [toNat_and]
  exact Nat.and_two_pow_sub_one_eq_mod v.toNat 4

theorem toNat_mask32 (v : BitVec 32) : (v &&& 0x000fffff).toNat = v.toNat % 2 ^ 20 := by
  rw [toNat_and]
  exact Nat.and_two_pow_sub_one_eq_mod v.toNat 20

theorem toNat_mask64 (v : BitVec 64) : (v &&& 0x0000000fffffffff).toNat = v.toNat % 2 ^ 36 := by
  rw [toNat_and]
  exact Nat.and_two_pow_sub_one_eq_mod v.toNat 36

variable (ss : DeltaStoreMap) (dp : BitVec 64) (tag : BitVec 32) (di pid : BitVec 8)

/-- **The fields do not meet**: the word is their sum. -/
theorem update_toNat : (update ss dp tag di pid).toNat =
    (dp - ss.dataMemoryBase (createDeltaIdxPidPair di pid)).toNat % 2 ^ 36 +
      tag.toNat % 2 ^ 20 * 2 ^ 36 + pid.toNat % 2 ^ 4 * 2 ^ 56 + di.toNat % 2 ^ 4 * 2 ^ 60 := by
  have ho := toNat_mask64 (dp - ss.dataMemoryBase (createDeltaIdxPidPair di pid))
  have htf : ((tag &&& 0x000fffff).setWidth 64).toNat = tag.toNat % 2 ^ 20 := by
    rw [toNat_setWidth, toNat_mask32]
    omega
  have hn : ∀ v : BitVec 8, ((v &&& 0x0f).setWidth 64).toNat = v.toNat % 2 ^ 4 := by
    intro v
    rw [toNat_setWidth, toNat_mask8]
    omega
  unfold update
  dsimp only
  rw [zero_or]
  have ht := toNat_or_shiftLeft 36 20 (ho.trans_lt (Nat.mod_lt _ (by decide)))
    (htf.trans_lt (Nat.mod_lt _ (by decide))) (by decide)
  rw [ho, htf] at ht
  have hp := toNat_or_shiftLeft 56 4 (ht.trans_lt (by omega))
    ((hn pid).trans_lt (Nat.mod_lt _ (by decide))) (by decide)
  rw [ht, hn] at hp
  have hw := toNat_or_shiftLeft 60 4 (hp.trans_lt (by omega))
    ((hn di).trans_lt (Nat.mod_lt _ (by decide))) (by decide)
  rwa [hp, hn] at hw

end

/-! ### Pointers that were allocated -/

section

variable (stores : DeltaStoreMap) {delta d pid : BitVec 8} {offset o : BitVec 64}

/-- The address of an offset in a partition. -/
def address (stores : DeltaStoreMap) (delta pid : BitVec 8) (offset : BitVec 64) : BitVec 64 :=
  stores.dataMemoryBase (createDeltaIdxPidPair delta pid) + offset

theorem allocate_toNat (hi : d.toNat < 16) (hpi : pid.toNat < 16) (hw : o.toNat < 2 ^ 36) :
    (allocate stores d pid (address stores d pid o)).toNat =
      o.toNat + (stores.tag d).toNat % 2 ^ 20 * 2 ^ 36 + pid.toNat * 2 ^ 56 + d.toNat * 2 ^ 60 := by
  unfold allocate address
  rw [update_toNat, BitVec.add_comm, BitVec.add_sub_cancel]
  omega

variable (val : BitVec 64)

theorem getDeltaIdx_toNat : (getDeltaIdx val).toNat = val.toNat / 2 ^ 60 := by
  unfold getDeltaIdx
  rw [toNat_setWidth, toNat_ushiftRight, Nat.shiftRight_eq_div_pow]
  omega

theorem getDeltaIdxPidPair_toNat : (getDeltaIdxPidPair val).toNat = val.toNat / 2 ^ 56 := by
  unfold getDeltaIdxPidPair
  rw [toNat_setWidth, toNat_ushiftRight, Nat.shiftRight_eq_div_pow]
  omega

theorem getPartitionIdx_toNat : (getPartitionIdx val).toNat = val.toNat / 2 ^ 56 % 2 ^ 4 := by
  unfold getPartitionIdx
  rw [toNat_mask8]
  exact congrArg (· % 2 ^ 4) (getDeltaIdxPidPair_toNat val)

theorem getTag_toNat : (getTag val).toNat = val.toNat / 2 ^ 36 % 2 ^ 20 := by
  unfold getTag
  rw [toNat_mask32, toNat_setWidth, toNat_ushiftRight, Nat.shiftRight_eq_div_pow]
  omega

theorem createDeltaIdxPidPair_toNat (hi : d.toNat < 2 ^ 4) (hpi : pid.toNat < 2 ^ 4) :
    (createDeltaIdxPidPair d pid).toNat = d.toNat * 2 ^ 4 + pid.toNat := by
  unfold createDeltaIdxPidPair
  rw [toNat_or, toNat_shiftLeft, toNat_mask8, toNat_mask8, Nat.mod_eq_of_lt hi,
    Nat.mod_eq_of_lt hpi, Nat.mod_eq_of_lt (by rw [Nat.shiftLeft_eq]; omega),
    ← Nat.shiftLeft_add_eq_or_of_lt hpi, Nat.shiftLeft_eq]

/-- What a pointer decodes to. -/
structure Decodes (val : BitVec 64) (delta pid : BitVec 8) (offset : BitVec 64) (tag : BitVec 32) :
    Prop where
  deltaIdx : getDeltaIdx val = delta
  partitionIdx : getPartitionIdx val = pid
  offset : getOffset val = offset
  tag : (getTag val).toNat = tag.toNat % 2 ^ 20

theorem allocate_fields (hi : d.toNat < 16) (hpi : pid.toNat < 16) (hw : o.toNat < 2 ^ 36) :
    Decodes (allocate stores d pid (address stores d pid o)) d pid o (stores.tag d) := by
  have hwo := allocate_toNat stores hi hpi hw
  constructor
  · apply eq_of_toNat_eq
    rw [getDeltaIdx_toNat, hwo]
    omega
  · apply eq_of_toNat_eq
    rw [getPartitionIdx_toNat, hwo]
    omega
  · apply eq_of_toNat_eq
    unfold getOffset
    rw [toNat_mask64, hwo]
    omega
  · rw [getTag_toNat, hwo]
    omega

theorem allocate_getPtr (hi : d.toNat < 16) (hpi : pid.toNat < 16)
    (hw : o.toNat < 2 ^ 36) {l : DeltaStoreMap} (hb : l.dataMemoryBase = stores.dataMemoryBase)
    (hu : l.tag d = stores.tag d) :
    getPtr l (allocate stores d pid (address stores d pid o)) = address stores d pid o := by
  have hwo := allocate_toNat stores hi hpi hw
  obtain ⟨hdi, _, hob, tag⟩ := allocate_fields stores hi hpi hw
  have hv : verifyTag l (allocate stores d pid (address stores d pid o)) = true := by
    unfold verifyTag
    rw [hdi, hu, beq_iff_eq]
    apply eq_of_toNat_eq
    rw [toNat_mask32, tag]
  have hp : getDeltaIdxPidPair (allocate stores d pid (address stores d pid o)) =
      createDeltaIdxPidPair d pid := by
    apply eq_of_toNat_eq
    rw [getDeltaIdxPidPair_toNat, hwo, createDeltaIdxPidPair_toNat hi hpi]
    omega
  unfold getPtr
  rw [if_pos hv, hp, hob, hb]
  rfl

/-- **Pointers round-trip.** -/
theorem allocate_decodes (index : delta.toNat < 16) (partitionId : pid.toNat < 16)
    (within : offset.toNat < 2 ^ 36) :
    Decodes (allocate stores delta pid (address stores delta pid offset)) delta pid offset
      (stores.tag delta) ∧
    (∀ later : DeltaStoreMap, later.dataMemoryBase = stores.dataMemoryBase →
      later.tag delta = stores.tag delta →
      getPtr later (allocate stores delta pid (address stores delta pid offset)) =
        address stores delta pid offset) ∧
    ∀ otherDelta otherPid : BitVec 8, ∀ otherOffset : BitVec 64, otherDelta.toNat < 16 →
      otherPid.toNat < 16 →
      otherOffset.toNat < 2 ^ 36 →
      allocate stores otherDelta otherPid (address stores otherDelta otherPid otherOffset) =
        allocate stores delta pid (address stores delta pid offset) →
      address stores otherDelta otherPid otherOffset = address stores delta pid offset := by
  refine ⟨allocate_fields stores index partitionId within,
    fun later hb hu => allocate_getPtr stores index partitionId within hb hu, ?_⟩
  intro otherDelta otherPid otherOffset hoi hop how hs
  calc address stores otherDelta otherPid otherOffset = getPtr stores
          (allocate stores otherDelta otherPid (address stores otherDelta otherPid otherOffset)) :=
        (allocate_getPtr stores hoi hop how rfl rfl).symm
    _ = getPtr stores (allocate stores delta pid (address stores delta pid offset)) := by rw [hs]
    _ = address stores delta pid offset := allocate_getPtr stores index partitionId within rfl rfl

/-- The last partition of the last store. -/
theorem allocate_decodes_last : Decodes (allocate ⟨fun _ => 4096, fun _ => 7⟩ 15 15
    (address ⟨fun _ => 4096, fun _ => 7⟩ 15 15 0xfffffffff)) 15 15 0xfffffffff 7 :=
  (allocate_decodes ⟨fun _ => 4096, fun _ => 7⟩ (by decide) (by decide) (by decide)).1

/-- A tag of more than 20 bits. -/
theorem wide_tag_cut : getTag (allocate ⟨fun _ => 4096, fun _ => 0x00100000⟩ 0 0
    (address ⟨fun _ => 4096, fun _ => 0x00100000⟩ 0 0 8)) = 0 ∧ (0 : BitVec 32) ≠ 0x00100000 := by
  decide

end

end DeltaWord

end Proteus.Oltp.Storage
