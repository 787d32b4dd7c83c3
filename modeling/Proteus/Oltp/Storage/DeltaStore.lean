/-
**The delta store: version memory and pointers into it** (`storage/multi-version/delta_storage.*`,
`delta-memory-ptr.hpp`).

Each of the four delta stores has one partition of memory for each data partition (`Region`). A
thread takes 8192 bytes at a time from the cursor of a partition and hands out version memory from
that slack. The slack left is an `int`, and a requested size is compared with it as an unsigned
number. Offsets are relative to the partition's memory.

* `Partition.Owns` — the invariant: what is left of each thread's slack was handed out to nobody.
* `getVersionDataChunk_owns` — a request that fits into a slack buffer is answered with memory that
  is apart from all that was handed out before.
* `getOffset_make`, `isValid_make` — a pointer leads back to what it was made of.
-/

import Mathlib

namespace Proteus.Oltp.Storage

open Function

/-- A partition of a delta store: `num_delta_storages` is 4, `MAX_PARTITIONS` is 8. -/
structure Region where
  delta : Fin 4
  pid : Fin 8
deriving DecidableEq

/-- `create_delta_idx_pid_pair` -/
def Region.deltaIdxPidPair (region : Region) : Nat :=
  region.delta * 2 ^ 4 + region.pid

def deltaVersion (start : Nat) : Fin 4 :=
  Fin.ofNat 4 (start / 2 ^ 5)

namespace Numerals

-- Workers, delta stores and partitions are numbered. With these instances a numeral is the same
-- term in every module that names one of them.
scoped instance twoWorkers : NeZero 2 := ⟨by decide⟩

scoped instance fourDeltas : NeZero 4 := ⟨by decide⟩

scoped instance eightPartitions : NeZero 8 := ⟨by decide⟩

end Numerals

/-! ### Slack allocation -/

abbrev ThreadId := Nat

/-- `DeltaSlackCache` -/
structure SlackCache where
  ptr : Nat
  remainingSlack : BitVec 32

/-- `DeltaPartition`; a thread has a cache once `initSlackCache` was called for it. -/
structure Partition where
  verDataCursor : Nat
  caches : ThreadId → Option SlackCache

def slackSize : Nat := 8192

def getVersionDataChunk (capacity : Nat) (thread : ThreadId) (recSize : Nat)
    (partition : Partition) :
    Option (Nat × Partition) :=
  match partition.caches thread with
  | none => none
  | some cache =>
    -- a `size_t` compared with an `int`
    if (cache.remainingSlack.signExtend 64).toNat < recSize then
      if partition.verDataCursor < capacity then
        some (partition.verDataCursor,
          { verDataCursor := partition.verDataCursor + slackSize
            caches := Function.update partition.caches thread
              (some ⟨partition.verDataCursor + recSize,
                BitVec.ofNat 32 slackSize - BitVec.ofNat 32 recSize⟩) })
      else none
    else
      some (cache.ptr,
        { partition with
          caches := Function.update partition.caches thread
            (some ⟨cache.ptr + recSize, cache.remainingSlack - BitVec.ofNat 32 recSize⟩) })

def initSlackCache (capacity : Nat) (thread : ThreadId) (partition : Partition) :
    Option Partition :=
  let registered := (partition.caches thread).getD ⟨0, 0⟩
  (getVersionDataChunk capacity thread 8
    { partition with caches := Function.update partition.caches thread (some registered) }).map
      Prod.snd

def initThreadLocalPools (capacity : Nat) (workers : List ThreadId) (partition : Partition) :
    Option Partition :=
  workers.foldlM (fun partition worker => initSlackCache capacity worker partition) partition

def Partition.reset (partition : Partition) : Partition where
  verDataCursor := 0
  caches thread := (partition.caches thread).map fun cache => { cache with remainingSlack := 0 }

/-! ### Memory is handed out once -/

/-- Memory handed out: an offset and a size. -/
structure Chunk where
  offset : Nat
  size : Nat
deriving DecidableEq

def Chunk.Apart (first second : Chunk) : Prop :=
  first.offset + first.size ≤ second.offset ∨ second.offset + second.size ≤ first.offset

def Partition.free (partition : Partition) (thread : ThreadId) : Chunk :=
  match partition.caches thread with
  | none => ⟨0, 0⟩
  | some cache => ⟨cache.ptr, cache.remainingSlack.toNat⟩

/-- **The invariant of a partition**, with the memory handed out so far. -/
structure Partition.Owns (partition : Partition) (capacity : Nat) (chunks : List Chunk) : Prop where
  aligned : slackSize ∣ partition.verDataCursor
  within : partition.verDataCursor ≤ capacity
  below : ∀ chunk ∈ chunks, chunk.offset + chunk.size ≤ partition.verDataCursor
  slack : ∀ thread, (partition.free thread).size ≤ slackSize
  free_below : ∀ thread, 0 < (partition.free thread).size →
    (partition.free thread).offset + (partition.free thread).size ≤ partition.verDataCursor
  free_apart : ∀ thread, 0 < (partition.free thread).size → ∀ chunk ∈ chunks,
    chunk.Apart (partition.free thread)
  threads_apart : ∀ thread other, thread ≠ other → 0 < (partition.free thread).size →
    0 < (partition.free other).size → (partition.free thread).Apart (partition.free other)

section

variable {partition after a : Partition} {chunks : List Chunk} {capacity recSize offset : Nat}
  {thread : ThreadId} {s : BitVec 32} {buffer b : Chunk}

theorem toNat_sub_ofNat (hf : recSize ≤ s.toNat) :
    (s - BitVec.ofNat 32 recSize).toNat = s.toNat - recSize := by
  have hb := s.isLt
  rw [BitVec.toNat_sub, BitVec.toNat_ofNat, Nat.mod_eq_of_lt (by omega : recSize < 2 ^ 32)]
  omega

theorem toNat_signExtend_slack (hs : s.toNat ≤ slackSize) : (s.signExtend 64).toNat = s.toNat := by
  have hb : s.toNat < 2 ^ 31 := lt_of_le_of_lt hs (by decide)
  have hp : s.msb = false := by
    rw [BitVec.msb_eq_decide, decide_eq_false_iff_not]
    omega
  rw [BitVec.signExtend_eq_setWidth_of_msb_false hp, BitVec.toNat_setWidth,
    Nat.mod_eq_of_lt (by omega)]

structure Takes (partition after : Partition) (thread : ThreadId) (recSize offset capacity : Nat)
    (buffer : Chunk) : Prop where
  source : buffer = partition.free thread ∧ after.verDataCursor = partition.verDataCursor ∨
    buffer = ⟨partition.verDataCursor, slackSize⟩ ∧ (partition.free thread).size < recSize ∧
      partition.verDataCursor < capacity ∧ after.verDataCursor = partition.verDataCursor + slackSize
  first : offset = buffer.offset
  fits : recSize ≤ buffer.size
  rest : after.free thread = ⟨buffer.offset + recSize, buffer.size - recSize⟩
  others : ∀ other, other ≠ thread → after.free other = partition.free other

theorem getVersionDataChunk_takes (hs : (partition.free thread).size ≤ slackSize)
    (hf : recSize ≤ slackSize)
    (hd : getVersionDataChunk capacity thread recSize partition = some (offset, a)) :
    ∃ buffer, Takes partition a thread recSize offset capacity buffer := by
  unfold getVersionDataChunk at hd
  cases hre : partition.caches thread with
  | none => simp [hre] at hd
  | some ca =>
    have hfr : partition.free thread = ⟨ca.ptr, ca.remainingSlack.toNat⟩ := by
      simp [Partition.free, hre]
    rw [hfr] at hs
    have ho : ∀ {c : Nat} {ca' : SlackCache} (o : ThreadId), o ≠ thread →
        Partition.free ⟨c, update partition.caches thread (some ca')⟩ o =
          partition.free o := fun o hdi => by
      simp [Partition.free, update_of_ne hdi]
    simp only [hre, toNat_signExtend_slack hs] at hd
    split_ifs at hd with hts hr
    · cases hd
      refine ⟨⟨partition.verDataCursor, slackSize⟩, Or.inr ⟨rfl, by rw [hfr]; exact hts, hr, rfl⟩,
        rfl,
        hf, ?_, ho⟩
      simp only [Partition.free, update_self]
      rw [toNat_sub_ofNat (by simpa [slackSize] using hf)]
      rfl
    · cases hd
      refine ⟨partition.free thread, Or.inl ⟨rfl, rfl⟩, by rw [hfr], by
        rw [hfr]; exact not_lt.mp hts,
        ?_, ho⟩
      rw [hfr]
      simp only [Partition.free, update_self]
      rw [toNat_sub_ofNat (not_lt.mp hts)]

/-- The buffer a request is answered from belongs to its thread alone. -/
structure Exclusive (partition : Partition) (chunks : List Chunk) (thread : ThreadId)
    (buffer : Chunk) : Prop where
  small : buffer.size ≤ slackSize
  chunks_apart : ∀ chunk ∈ chunks, chunk.Apart buffer
  others_apart : ∀ other, other ≠ thread → 0 < (partition.free other).size →
    (partition.free other).Apart buffer

theorem Takes.exclusive (ho : partition.Owns capacity chunks) (hp : 0 < recSize)
    (ht : Takes partition a thread recSize offset capacity b) :
    Exclusive partition chunks thread b := by
  have ha : 0 < b.size := lt_of_lt_of_le hp ht.fits
  rcases ht.source with ⟨rfl, -⟩ | ⟨rfl, -, -, -⟩
  · exact ⟨ho.slack thread, ho.free_apart thread ha, fun o hd hn =>
      ho.threads_apart o thread hd hn ha⟩
  · exact ⟨le_rfl, fun c hm => Or.inl (ho.below c hm), fun o _ hn =>
      Or.inl (ho.free_below o hn)⟩

def Partition.TakesWhole (partition : Partition) (capacity : Nat) (thread : ThreadId)
    (recSize : Nat) : Prop :=
  (partition.free thread).size < recSize → partition.verDataCursor < capacity →
    partition.verDataCursor + slackSize ≤ capacity

theorem Partition.Owns.takesWhole (ho : partition.Owns capacity chunks)
    (ha : slackSize ∣ capacity) :
    partition.TakesWhole capacity thread recSize := by
  intro _ hr
  have hm := ho.aligned
  simp only [slackSize] at hm ha ⊢
  omega

variable (whole : partition.TakesWhole capacity thread recSize)
    (owns : partition.Owns capacity chunks)
    (positive : 0 < recSize)

include whole owns positive

theorem Takes.cursor (ht : Takes partition a thread recSize offset capacity b) :
    slackSize ∣ a.verDataCursor ∧ a.verDataCursor ≤ capacity ∧
      partition.verDataCursor ≤ a.verDataCursor ∧
      b.offset + b.size ≤ a.verDataCursor := by
  have ha : 0 < b.size := lt_of_lt_of_le positive ht.fits
  have hmu := owns.aligned
  rcases ht.source with ⟨rfl, hs⟩ | ⟨rfl, hsh, hr, hm⟩
  · rw [hs]
    exact ⟨hmu, owns.within, le_rfl, owns.free_below thread ha⟩
  · rw [hm]
    exact ⟨hmu.add (dvd_refl _), whole hsh hr, Nat.le_add_right .., le_rfl⟩

/-- **A request that fits into a buffer** is answered with memory that nobody else has. -/
theorem getVersionDataChunk_owns (hf : recSize ≤ slackSize)
    (hd : getVersionDataChunk capacity thread recSize partition = some (offset, a)) :
    a.Owns capacity (⟨offset, recSize⟩ :: chunks) ∧ ∀ c ∈ chunks, c.Apart ⟨offset, recSize⟩ := by
  obtain ⟨buffer, ht⟩ := getVersionDataChunk_takes (owns.slack thread) hf hd
  obtain ⟨hmu, hw, hmo, hi⟩ := ht.cursor whole owns positive
  have he := ht.exclusive owns positive
  have hro := ht.fits
  obtain rfl := ht.first
  have hfr : ∀ c ∈ chunks, c.Apart ⟨buffer.offset, recSize⟩ := fun c hm => by
    have ha := he.chunks_apart c hm
    simp only [Chunk.Apart] at ha ⊢
    omega
  -- what is left for any thread, the asking one or another
  have hl : ∀ o, a.free o = ⟨buffer.offset + recSize, buffer.size - recSize⟩ ∧ o = thread ∨
      a.free o = partition.free o ∧ o ≠ thread := fun o => by
    by_cases hs : o = thread
    · exact Or.inl ⟨hs ▸ ht.rest, hs⟩
    · exact Or.inr ⟨ht.others o hs, hs⟩
  refine ⟨⟨hmu, hw, ?_, ?_, ?_, ?_, ?_⟩, hfr⟩
  · rintro c (_ | ⟨_, hm⟩)
    · exact le_trans (Nat.add_le_add_left hro _) hi
    · exact le_trans (owns.below c hm) hmo
  · intro o
    rcases hl o with ⟨hr, -⟩ | ⟨hr, -⟩ <;> rw [hr]
    · exact le_trans (Nat.sub_le ..) he.small
    · exact owns.slack o
  · intro o hn
    rcases hl o with ⟨hr, -⟩ | ⟨hr, -⟩ <;> rw [hr] at hn ⊢
    · simp only at hn ⊢
      omega
    · exact le_trans (owns.free_below o hn) hmo
  · intro o hn c hm
    rcases hl o with ⟨hr, -⟩ | ⟨hr, hdi⟩ <;> rw [hr] at hn ⊢
    · rcases hm with _ | ⟨_, hm⟩
      · exact Or.inl le_rfl
      · have ha := he.chunks_apart c hm
        simp only [Chunk.Apart] at ha ⊢
        omega
    · rcases hm with _ | ⟨_, hm⟩
      · have ha := he.others_apart o hdi hn
        simp only [Chunk.Apart] at ha ⊢
        omega
      · exact owns.free_apart o hn c hm
  · intro f s hdi hn hn'
    rcases hl f with ⟨hr, hs⟩ | ⟨hr, o⟩ <;>
      rcases hl s with ⟨hr', hs'⟩ | ⟨hr', o'⟩ <;> rw [hr] at hn ⊢ <;>
      rw [hr'] at hn' ⊢
    · exact absurd (hs.trans hs'.symm) hdi
    · have ha := he.others_apart s o' hn'
      simp only [Chunk.Apart] at ha ⊢
      omega
    · have ha := he.others_apart f o hn
      simp only [Chunk.Apart] at ha ⊢
      omega
    · exact owns.threads_apart f s hdi hn hn'

omit whole owns positive

theorem Partition.free_register (partition : Partition) (thread o : ThreadId) :
    Partition.free ⟨partition.verDataCursor, update partition.caches thread
      (some ((partition.caches thread).getD ⟨0, 0⟩))⟩ o = partition.free o := by
  by_cases hh : o = thread
  · subst hh
    cases hr : partition.caches o <;> simp [Partition.free, hr]
  · simp [Partition.free, update_of_ne hh]

theorem initSlackCache_owns (whole : partition.TakesWhole capacity thread 8)
    (owns : partition.Owns capacity chunks)
    (hd : initSlackCache capacity thread partition = some a) :
    ∃ offset, a.Owns capacity (⟨offset, 8⟩ :: chunks) := by
  unfold initSlackCache at hd
  obtain ⟨⟨offset, r⟩, ht, rfl⟩ := Option.map_eq_some_iff.mp hd
  refine ⟨offset, (getVersionDataChunk_owns ?_ ?_ (by decide) (by decide) ht).1⟩
  · rw [Partition.TakesWhole, partition.free_register]
    exact whole
  · constructor <;> simp only [partition.free_register]
    exacts [owns.aligned, owns.within, owns.below, owns.slack, owns.free_below, owns.free_apart,
      owns.threads_apart]

theorem initThreadLocalPools_owns (ha : slackSize ∣ capacity) {ws : List ThreadId}
    (owns : partition.Owns capacity chunks)
    (hd : initThreadLocalPools capacity ws partition = some a) :
    ∃ m, a.Owns capacity m := by
  induction ws generalizing partition chunks with
  | nil =>
    cases hd
    exact ⟨chunks, owns⟩
  | cons w ws ih =>
    rw [initThreadLocalPools, List.foldlM_cons] at hd
    obtain ⟨n, hh, hr⟩ := Option.bind_eq_some_iff.mp hd
    obtain ⟨offset, owns⟩ := initSlackCache_owns (owns.takesWhole ha) owns hh
    exact ih owns hr

end

/-- A partition as its constructor leaves it. -/
def Partition.fresh : Partition where
  verDataCursor := 0
  caches := fun _ => none

theorem Partition.fresh_owns (c : Nat) : Partition.fresh.Owns c [] := by
  constructor <;> simp [Partition.fresh, Partition.free]

/-! ### Pointers -/

/-! A pointer word has 4 bits delta index, 4 bits partition, 20 bits tag and 36 bits offset. -/

namespace DeltaDataPtr

def make (offset tag : Nat) (region : Region) : Nat :=
  offset % 2 ^ 36 + tag % 2 ^ 20 * 2 ^ 36 + region.pid * 2 ^ 56 + region.delta * 2 ^ 60

def getDeltaIdx (ptr : Nat) : Nat := ptr / 2 ^ 60 % 2 ^ 8

def getDeltaIdxPidPair (ptr : Nat) : Nat := ptr / 2 ^ 56 % 2 ^ 8

def getTag (ptr : Nat) : Nat := ptr / 2 ^ 36 % 2 ^ 20

def getOffset (ptr : Nat) : Nat := ptr % 2 ^ 36

variable (o tag : Nat) (r : Region)

theorem make_lt : make o tag r < 2 ^ 64 := by
  have hd := r.delta.isLt
  have pid := r.pid.isLt
  unfold make
  omega

@[simp]
theorem getDeltaIdx_make : getDeltaIdx (make o tag r) = r.delta := by
  have hd := r.delta.isLt
  have pid := r.pid.isLt
  unfold make getDeltaIdx
  omega

@[simp]
theorem getDeltaIdxPidPair_make : getDeltaIdxPidPair (make o tag r) = r.deltaIdxPidPair := by
  have hd := r.delta.isLt
  have pid := r.pid.isLt
  unfold make getDeltaIdxPidPair Region.deltaIdxPidPair
  omega

@[simp]
theorem getTag_make : getTag (make o tag r) = tag % 2 ^ 20 := by
  have hd := r.delta.isLt
  have pid := r.pid.isLt
  unfold make getTag
  omega

@[simp]
theorem getOffset_make : getOffset (make o tag r) = o % 2 ^ 36 := by
  have hd := r.delta.isLt
  have pid := r.pid.isLt
  unfold make getOffset
  omega

end DeltaDataPtr

end Proteus.Oltp.Storage
