/-
**Runs of the slack allocator** (`DeltaPartition` in `storage/multi-version/delta_storage.*`).

Threads register with a partition and take version memory from it, in any order, until the partition
is reset. Only the `fetch_add` on the cursor is shared between them, so a call is one step. A ledger
keeps what was handed out since the last reset.

A request of more than one buffer is answered with memory behind the buffer, and leaves a negative
number in `remaining_slack`, which is a large one when it is next compared with a size; and the
assertion on a new buffer looks at its first byte only. `WithinBuffers` excludes these two.

* `run_chunks_apart` — whatever else happens, the memory handed out is disjoint and in the
  partition.
-/

import Proteus.Library.Machine
import Proteus.Oltp.Storage.DeltaStore

namespace Proteus.Oltp.Storage

open Library List Option

/-! ### The machine -/

/-- A partition, and the memory handed out since the last reset. -/
structure Ledger where
  partition : Partition
  chunks : List Chunk

inductive Request
  | register (thread : ThreadId)
  | take (thread : ThreadId) (recSize : Nat)
  | reset

variable {capacity ca : Nat}

def Ledger.next (capacity : Nat) (ledger : Ledger) : Request → Option Ledger
  | .register thread =>
    (initSlackCache capacity thread ledger.partition).map fun partition => { ledger with partition }
  | .take thread recSize =>
    (getVersionDataChunk capacity thread recSize ledger.partition).map fun (offset, partition) =>
      ⟨partition, ⟨offset, recSize⟩ :: ledger.chunks⟩
  | .reset => some ⟨ledger.partition.reset, []⟩

/-- Threads on one partition; a size is a positive `size_t`. -/
def deltaPartition (capacity : Nat) : Machine Ledger Request where
  Start ledger := ledger = ⟨Partition.fresh, []⟩
  Enabled _ request :=
    match request with
    | .take _ recSize => 0 < recSize ∧ recSize < 2 ^ 64
    | _ => True
  next := Ledger.next capacity

/-- **The condition**: a request fits into a buffer, and a new buffer is a whole one. -/
def WithinBuffers (capacity : Nat) (ledger : Ledger) : Request → Prop
  | .register thread => ledger.partition.TakesWhole capacity thread 8
  | .take thread recSize => recSize ≤ slackSize ∧
      ledger.partition.TakesWhole capacity thread recSize
  | .reset => True

/-- What the allocator promises. -/
def Ledger.Apart (capacity : Nat) (ledger : Ledger) : Prop :=
  ledger.chunks.Pairwise Chunk.Apart ∧ ∀ chunk ∈ ledger.chunks, chunk.offset + chunk.size ≤ capacity

/-! ### The promise is kept -/

/-- The ledger is part of what the partition has handed out. -/
structure Ledger.Kept (capacity : Nat) (ledger : Ledger) : Prop where
  apart : ledger.chunks.Pairwise Chunk.Apart
  owns : ∃ all, ledger.chunks ⊆ all ∧ ledger.partition.Owns capacity all

theorem Chunk.Apart.symm {f s : Chunk} (ha : f.Apart s) : s.Apart f :=
  Or.symm ha

theorem Partition.reset_owns (p : Partition) (ca : Nat) : p.reset.Owns ca [] := by
  have he : ∀ t, (p.reset.free t).size = 0 := fun t => by
    cases hr : p.caches t <;> simp [Partition.free, Partition.reset, hr]
  have hs : p.reset.verDataCursor = 0 := rfl
  constructor <;> simp [he, hs]

variable {ledger l : Ledger} {request r : Request}

theorem Ledger.Kept.next {a : Ledger} (hk : l.Kept ca) (he : (deltaPartition ca).Enabled l r)
    (hw : WithinBuffers ca l r) (hd : l.next ca r = some a) :
    a.Kept ca := by
  obtain ⟨all, hkn, ho⟩ := hk.owns
  cases r with
  | register t =>
    obtain ⟨p, set, rfl⟩ := map_eq_some_iff.mp hd
    obtain ⟨o, ho⟩ := initSlackCache_owns hw ho set
    exact ⟨hk.apart, _, subset_cons_of_subset _ hkn, ho⟩
  | take t rs =>
    obtain ⟨⟨o, p⟩, ht, rfl⟩ := map_eq_some_iff.mp hd
    obtain ⟨ho, hf⟩ := getVersionDataChunk_owns hw.2 ho he.1 hw.1 ht
    refine ⟨pairwise_cons.mpr ⟨fun c hm => ?_, hk.apart⟩, _, ?_, ho⟩
    · exact (hf c (hkn hm)).symm
    · exact cons_subset_cons _ hkn
  | reset =>
    cases hd
    exact ⟨.nil, [], nil_subset _, l.partition.reset_owns ca⟩

/-- **The memory handed out is disjoint and in the partition** in every run within the buffers. -/
theorem run_chunks_apart {requests : List Request} {ledger : Ledger}
    (run : (deltaPartition capacity).Run (WithinBuffers capacity) requests ledger) :
    ledger.Apart capacity := by
  have hk : ledger.Kept capacity := by
    refine run.invariant (Ledger.Kept capacity) (fun s hi => ?_)
      fun _ _ _ hk he hw hd => hk.next he hw hd
    subst hi
    exact ⟨.nil, [], nil_subset _, Partition.fresh_owns capacity⟩
  obtain ⟨all, hkn, ho⟩ := hk.owns
  exact ⟨hk.apart, fun c hm => le_trans (ho.below c (hkn hm)) ho.within⟩

/-! ### Two threads -/

def demoRequests (recSize : Nat) : List Request :=
  [.register 0, .register 1, .take 0 recSize, .take 1 8192]

def demoLedger (test : Ledger → Request → Bool) (recSize : Nat) : Option Ledger :=
  (deltaPartition (2 ^ 20)).follow test ⟨Partition.fresh, []⟩ (demoRequests recSize)

/-- `WithinBuffers`, where there is a whole buffer left. -/
def isWithinBuffers (capacity : Nat) (ledger : Ledger) (request : Request) : Bool :=
  match request with
  | .register _ => ledger.partition.verDataCursor + slackSize ≤ capacity
  | .take _ recSize =>
    0 < recSize && recSize ≤ slackSize && ledger.partition.verDataCursor + slackSize ≤ capacity
  | .reset => true

theorem isWithinBuffers_sound (hw : isWithinBuffers ca l r = true) :
    (deltaPartition ca).Enabled l r ∧ WithinBuffers ca l r := by
  cases r with
  | register t => exact ⟨trivial, fun _ _ => of_decide_eq_true hw⟩
  | take t rs =>
    simp only [isWithinBuffers, Bool.and_eq_true, decide_eq_true_eq] at hw
    obtain ⟨⟨hp, hf⟩, hwh⟩ := hw
    exact ⟨⟨hp, lt_of_le_of_lt hf (by decide)⟩, hf, fun _ _ => hwh⟩
  | reset => exact ⟨trivial, trivial⟩

theorem run_chunks_apart_buffers :
    ((demoLedger (isWithinBuffers (2 ^ 20)) 8192).get (by decide +kernel)).Apart (2 ^ 20) := by
  have hs : (deltaPartition (2 ^ 20)).Run (WithinBuffers (2 ^ 20)) [] ⟨Partition.fresh, []⟩ :=
    .start rfl
  exact run_chunks_apart
    (hs.extend (Machine.Path.of_follow (fun _ _ => isWithinBuffers_sound) (some_get _).symm))

/-- A test for sizes only. -/
def isSized (_ : Ledger) : Request → Bool
  | .take _ recSize => 0 < recSize && recSize < 2 ^ 64
  | _ => true

theorem isSized_sound (hs : isSized l r = true) : (deltaPartition ca).Enabled l r ∧ True := by
  cases r with
  | take t rs =>
    simp only [isSized, Bool.and_eq_true, decide_eq_true_eq] at hs
    exact ⟨hs, trivial⟩
  | _ => exact ⟨trivial, trivial⟩

/-- A request of 10000 bytes reaches into the next buffer, which the other thread gets. -/
theorem large_request_overlaps : (deltaPartition (2 ^ 20)).Run (fun _ _ => True)
    (demoRequests 10000) ((demoLedger isSized 10000).get (by decide +kernel)) ∧
    ¬ ((demoLedger isSized 10000).get (by decide +kernel)).Apart (2 ^ 20) := by
  have hs : (deltaPartition (2 ^ 20)).Run (fun _ _ => True) [] ⟨Partition.fresh, []⟩ := .start rfl
  refine ⟨hs.extend (Machine.Path.of_follow (fun _ _ => isSized_sound) (some_get _).symm), ?_⟩
  rintro ⟨ha, -⟩
  have hc : ((demoLedger isSized 10000).get (by decide +kernel)).chunks = [⟨24576, 8192⟩,
      ⟨16384, 10000⟩] := by
    decide +kernel
  rw [hc] at ha
  have ho := (pairwise_cons.mp ha).1 _ mem_cons_self
  simp [Chunk.Apart] at ho

end Proteus.Oltp.Storage
