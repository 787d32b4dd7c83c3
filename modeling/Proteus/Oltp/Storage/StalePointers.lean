/-
**Stale pointers** (`DeltaDataPtr` in `delta-memory-ptr.hpp`, `CircularDeltaStore::allocate` and
`GC`).

A pointer carries 20 bits of the tag its store had when the memory was allocated; a collection that
goes through adds one to the tag, a `uint32_t`, and every older pointer is meant to be recognised as
such. A log keeps the pointers that were handed out and marks them stale when their store is reset.

The tag starts at 1 and the null pointer has tag 0 of store 0, so the comparison is right as long as
the tag stays below 2^20 (`TagsLast`); after 2^20 resets a stale pointer is valid again, and the
null pointer is valid one reset earlier.

* `run_stale_invalid` — while the tags last, no stale pointer and no null pointer is ever valid.
-/

import Proteus.Library.Machine
import Proteus.Oltp.Storage.DeltaStore

namespace Proteus.Oltp.Storage

open Library Function Numerals

/-! ### The machine -/

/-- `verifyTag`, for the tags of the stores. -/
def verifyTag (tag : Nat → Nat) (ptr : Nat) : Prop :=
  tag (DeltaDataPtr.getDeltaIdx ptr) % 2 ^ 20 = DeltaDataPtr.getTag ptr

instance (tag : Nat → Nat) (ptr : Nat) : Decidable (verifyTag tag ptr) :=
  inferInstanceAs (Decidable (_ = _))

/-- `get_ptr`: an address, or null. -/
def taggedAddress (dataMemoryBase tag : Nat → Nat) (ptr : Nat) : Option Nat :=
  if verifyTag tag ptr then
    some (dataMemoryBase (DeltaDataPtr.getDeltaIdxPidPair ptr) + DeltaDataPtr.getOffset ptr)
  else none

/-- A pointer that was handed out. -/
structure Issue where
  ptr : Nat
  delta : Fin 4
  stale : Bool

/-- The delta stores, and the pointers into them. -/
structure PointerLog where
  tag : Nat → Nat
  partitions : Region → Partition
  issued : List Issue

inductive StoreAction
  | allocate (region : Region) (thread : ThreadId) (size : Nat)
  | reset (delta : Fin 4)

/-- `CircularDeltaStore::allocate` -/
def PointerLog.allocate (capacity : Nat) (region : Region) (thread : ThreadId) (size : Nat)
    (log : PointerLog) : Option PointerLog :=
  (getVersionDataChunk capacity thread size (log.partitions region)).map fun (offset, partition) =>
    { log with
      partitions := Function.update log.partitions region partition
      issued := ⟨DeltaDataPtr.make offset (log.tag region.delta) region, region.delta,
        false⟩ :: log.issued }

/-- A collection that goes through: a new tag, and the partitions are reset. -/
def PointerLog.reset (delta : Fin 4) (log : PointerLog) : PointerLog where
  tag := Function.update log.tag delta ((log.tag delta + 1) % 2 ^ 32)
  partitions region :=
    if region.delta = delta then (log.partitions region).reset else log.partitions region
  issued := log.issued.map fun issue => { issue with stale := issue.stale || issue.delta = delta }

/-- The stores, with any threads set up; tags start at 1. -/
def deltaStores (capacity : Nat) : Machine PointerLog StoreAction where
  Start log := log.tag = (fun _ => 1) ∧ log.issued = []
  Enabled _ _ := True
  next log
    | .allocate region thread size => log.allocate capacity region thread size
    | .reset delta => some (log.reset delta)

/-- **The condition**: a store is reset only while its tag has a successor of 20 bits. -/
def TagsLast (log : PointerLog) : StoreAction → Prop
  | .allocate _ _ _ => True
  | .reset delta => log.tag delta + 1 < 2 ^ 20

/-- No pointer from before a reset is valid, nor is the null pointer. -/
def PointerLog.Safe (log : PointerLog) : Prop :=
  (∀ issue ∈ log.issued, issue.stale = true → ¬ verifyTag log.tag issue.ptr ∧
    ∀ dataMemoryBase, taggedAddress dataMemoryBase log.tag issue.ptr = none) ∧
  ¬ verifyTag log.tag 0

/-! ### While the tags last -/

structure PointerLog.Dated (log : PointerLog) : Prop where
  live : ∀ delta : Fin 4, 0 < log.tag delta ∧ log.tag delta < 2 ^ 20
  store : ∀ issue ∈ log.issued, DeltaDataPtr.getDeltaIdx issue.ptr = issue.delta
  older : ∀ issue ∈ log.issued, DeltaDataPtr.getTag issue.ptr ≤ log.tag issue.delta
  stale : ∀ issue ∈ log.issued, issue.stale = true →
    DeltaDataPtr.getTag issue.ptr < log.tag issue.delta

open DeltaDataPtr

section

variable {capacity : Nat} {log after : PointerLog}

theorem PointerLog.Dated.allocate (hda : log.Dated) {r : Region} {t : ThreadId} {sz : Nat}
    (hd : log.allocate capacity r t sz = some after) : after.Dated := by
  obtain ⟨⟨o, p⟩, -, rfl⟩ := Option.map_eq_some_iff.mp hd
  refine ⟨hda.live, ?_, ?_, ?_⟩
  · rintro i (_ | ⟨_, hm⟩)
    · exact getDeltaIdx_make ..
    · exact hda.store i hm
  · rintro i (_ | ⟨_, hm⟩)
    · exact le_of_eq_of_le (getTag_make ..) (Nat.mod_le ..)
    · exact hda.older i hm
  · rintro i (_ | ⟨_, hm⟩) hs
    · cases hs
    · exact hda.stale i hm hs

theorem reset_tag (log : PointerLog) (d : Fin 4) : (log.reset d).tag d = (log.tag d + 1) % 2 ^ 32 :=
  update_self ..

theorem PointerLog.Dated.reset (hd : log.Dated) {d : Fin 4} (hl : log.tag d + 1 < 2 ^ 20) :
    (log.reset d).Dated := by
  have hsu : (log.tag d + 1) % 2 ^ 32 = log.tag d + 1 := Nat.mod_eq_of_lt (by omega)
  have tag : ∀ o : Fin 4, (log.reset d).tag o =
      if o = d then log.tag d + 1 else log.tag o := fun o => by
    by_cases hs : o = d
    · subst hs
      rw [if_pos rfl, reset_tag, hsu]
    · rw [if_neg hs]
      exact update_of_ne (fun he => hs (Fin.val_inj.mp he)) ..
  refine ⟨fun o => ?_, ?_, ?_, ?_⟩
  · rw [tag]
    have hli := hd.live o
    split_ifs <;> omega
  all_goals
    intro i hm
    obtain ⟨i, hb, rfl⟩ := List.mem_map.mp hm
  · exact hd.store i hb
  · have ho := hd.older i hb
    simp only [tag]
    split_ifs with hs
    · rw [hs] at ho
      omega
    · exact ho
  · intro hst
    have ho := hd.older i hb
    simp only [tag]
    split_ifs with hs
    · rw [hs] at ho
      exact Nat.lt_succ_of_le ho
    · simp only [hs, decide_false, Bool.or_false] at hst
      exact hd.stale i hb hst

theorem PointerLog.Dated.safe (hd : log.Dated) : log.Safe := by
  refine ⟨fun i hm hs => ?_, fun hv => ?_⟩
  · have hi : ¬ verifyTag log.tag i.ptr := fun hv => by
      have hl := (hd.live i.delta).2
      have ho := hd.stale i hm hs
      rw [verifyTag, hd.store i hm, Nat.mod_eq_of_lt hl] at hv
      omega
    exact ⟨hi, fun _ => if_neg hi⟩
  · have hl := hd.live 0
    have hn : log.tag 0 % 2 ^ 20 = 0 := hv
    have idx : ((0 : Fin 4) : Nat) = 0 := rfl
    rw [idx] at hl
    omega

/-- **No stale pointer and no null pointer is ever valid**, in every run in which the tags last. -/
theorem run_stale_invalid {actions : List StoreAction}
    (run : (deltaStores capacity).Run TagsLast actions log) : log.Safe := by
  have hda : log.Dated := by
    refine run.invariant PointerLog.Dated (fun st hi => ?_) fun s a after hda _ hl hd => ?_
    · obtain ⟨ht, hn⟩ := hi
      refine ⟨fun d => ?_, ?_, ?_, ?_⟩
      · rw [ht]
        exact ⟨Nat.one_pos, Nat.one_lt_two_pow (by decide)⟩
      all_goals
        rw [hn]
        intro i hm
        cases hm
    · cases a with
      | allocate r t sz => exact hda.allocate hd
      | reset d =>
        cases hd
        exact hda.reset hl
  exact hda.safe

end

/-! ### Many resets -/

open PointerLog

section

variable {ca : Nat} (d : Fin 4) (log : PointerLog) (c : Nat)

theorem resets_path : (deltaStores ca).Path (fun _ _ => True) log (List.replicate c (.reset d))
      ((reset d)^[c] log) := by
  induction c generalizing log with
  | zero => exact .nil
  | succ c ih => exact .cons trivial trivial rfl (ih (log.reset d))

theorem tag_resets : ((reset d)^[c] log).tag d % 2 ^ 20 = (log.tag d + c) % 2 ^ 20 := by
  induction c generalizing log with
  | zero => rfl
  | succ c ih =>
    rw [iterate_succ_apply, ih, reset_tag]
    omega

theorem issued_resets {ptr : Nat} {s : Bool} (hm : ⟨ptr, d, s⟩ ∈ log.issued) :
    ⟨ptr, d, s || decide (0 < c)⟩ ∈ ((reset d)^[c] log).issued := by
  induction c generalizing log s with
  | zero => simpa using hm
  | succ c ih =>
    rw [iterate_succ_apply]
    have hma : (⟨ptr, d, true⟩ : Issue) ∈ (log.reset d).issued := List.mem_map.mpr ⟨_, hm, by simp⟩
    simpa using ih _ hma

end

def demoLog : PointerLog :=
  ⟨fun _ => 1, fun _ => ⟨8192, Function.update (fun _ => none) 0 (some ⟨0, 8192⟩)⟩, []⟩

def demoAllocation : StoreAction := .allocate ⟨0, 0⟩ 0 8

def demoAllocated : PointerLog := (demoLog.allocate (2 ^ 20) ⟨0, 0⟩ 0 8).get (by decide +kernel)

theorem demoAllocated_eq : (deltaStores (2 ^ 20)).next demoLog demoAllocation =
    some demoAllocated :=
  (Option.some_get _).symm

theorem run_stale_invalid_once : (demoAllocated.reset 0).Safe := by
  have hs : (deltaStores (2 ^ 20)).Run TagsLast [] demoLog := .start ⟨rfl, rfl⟩
  have ha : (deltaStores (2 ^ 20)).Run TagsLast [demoAllocation] demoAllocated :=
    .step hs trivial trivial demoAllocated_eq
  have hl : TagsLast demoAllocated (.reset 0) := by
    show 1 + 1 < 2 ^ 20
    decide
  exact run_stale_invalid (.step ha trivial hl rfl)

theorem demo_resets {c : Nat} (hp : 0 < c) (hw : (1 + c) % 2 ^ 20 = 1 % 2 ^ 20) :
    (deltaStores (2 ^ 20)).Run (fun _ _ => True) ([demoAllocation] ++ List.replicate c (.reset 0))
      ((reset 0)^[c] demoAllocated) ∧
    ¬ ((reset 0)^[c] demoAllocated).Safe := by
  have hs : (deltaStores (2 ^ 20)).Run (fun _ _ => True) [] demoLog := .start ⟨rfl, rfl⟩
  have ha : (deltaStores (2 ^ 20)).Run (fun _ _ => True) [demoAllocation] demoAllocated :=
    .step hs trivial trivial demoAllocated_eq
  refine ⟨ha.extend (resets_path 0 _ _), fun hsa => ?_⟩
  have hm : ⟨make 0 1 ⟨0, 0⟩, 0, false⟩ ∈ demoAllocated.issued := List.mem_cons_self
  have hst := issued_resets 0 demoAllocated c hm
  have hag := tag_resets 0 demoAllocated c
  have tag : demoAllocated.tag (0 : Fin 4) = 1 := rfl
  refine (hsa.1 _ hst (by simp [hp])).1 ?_
  rw [verifyTag, getDeltaIdx_make, getTag_make, hag, tag, hw]

theorem stale_pointer_valid_again : (deltaStores (2 ^ 20)).Run (fun _ _ => True)
    ([demoAllocation] ++ List.replicate (2 ^ 20) (.reset 0))
      ((PointerLog.reset 0)^[2 ^ 20] demoAllocated) ∧
    ¬ ((PointerLog.reset 0)^[2 ^ 20] demoAllocated).Safe :=
  demo_resets (by decide) (by decide)

end Proteus.Oltp.Storage
