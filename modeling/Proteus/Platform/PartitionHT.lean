/-
**The radix partition of a hash table** (`platform/lib/util/radix/joins/radix-join.cpp`,
`partitionHT`).

The two passes of the radix join over an array of tuples, with the overload of
`radix_cluster_nopadding` that takes arrays, and the number of tuples of every cluster.

* `partitionHT_partitions` — the array is sorted by the low bits of the keys, stably, and the counts
  delimit the classes.
-/

import Proteus.Platform.RadixJoin

namespace Proteus.Platform.RadixJoin

open Proteus.Library Option

/-- `partitionHT`: the array and the counts. Inside of a pass the number of tuples is a
`uint32_t`. -/
def partitionHT (numTuples : Nat) (inTuples : List (Option Tuple)) :
    Option (List (Option Tuple) × List Nat) := do
  let outTuples := List.replicate numTuples none
  let outRel ← radixClusterNopadding ⟨outTuples, numTuples % 2 ^ 32⟩
    ⟨inTuples, numTuples % 2 ^ 32⟩ 0
    (numRadixBits / numPasses)
  let inRel ← radixClusterNopadding ⟨inTuples, numTuples % 2 ^ 32⟩ outRel (numRadixBits / numPasses)
    (numRadixBits - numRadixBits / numPasses)
  let countPerCluster ← countPerCluster clusterOf (2 ^ numRadixBits) ⟨inRel.tuples, numTuples⟩
  return (inRel.tuples, countPerCluster)

/-- The class of a tuple: its key modulo `2 ^ NUM_RADIX_BITS`. -/
def residue (tuple : Tuple) : Nat := tuple.key.toNat % 2 ^ numRadixBits

theorem partitionHT_eq {ts : List Tuple} (hs : ts.length < 2 ^ 31) :
    partitionHT ts.length (ts.map some) = some ((ordered ts).map some, clusterCounts ts) := by
  have hf : ts.length % 2 ^ 32 = ts.length := Nat.mod_eq_of_lt (by omega)
  have ht : partitionHT ts.length (ts.map some) = (clusterTwice (Relation.of ts)).bind fun ir =>
      (countPerCluster clusterOf (2 ^ numRadixBits) ⟨ir.tuples, ts.length⟩).bind fun cs =>
        some (ir.tuples, cs) := by
    simp only [partitionHT, hf, clusterTwice, bind_eq_bind, bind_assoc, pure_def, Relation.of]
  have hc : (⟨(Relation.of (ordered ts)).tuples, ts.length⟩ : Relation) = Relation.of
      (ordered ts) := by
    simp only [Relation.of, (ordered_perm ts).length_eq]
  rw [ht, clusterTwice_orders hs, bind_some, hc, countPerCluster_ordered hs, bind_some, Relation.of]

theorem inCluster_clusterOf (ts : List Tuple) (c : Nat) :
    inCluster clusterOf ts c = ts.filter (residue · = c) := by
  refine List.filter_congr fun t _ => decide_eq_decide.mpr ?_
  show clusterOf t.key = c ↔ _
  rw [clusterOf_eq, residue, numRadixBits]

/-- **The radix partition.** For every array of tuples, the result is a permutation sorted by the
residues of the keys, with the tuples of a residue in their order, and the sums of the counts before
a residue and up to it delimit its tuples. -/
theorem partitionHT_partitions (tuples : List Tuple) (small : tuples.length < 2 ^ 31) :
    ∃ (sorted : List Tuple) (counts : Nat → Nat), partitionHT tuples.length (tuples.map some) =
        some (sorted.map some, (List.range (2 ^ numRadixBits)).map counts) ∧
      sorted.Perm tuples ∧
      sorted.Pairwise (fun first second => residue first ≤ residue second) ∧
      (∀ c, sorted.filter (residue · = c) = tuples.filter (residue · = c)) ∧
      ∀ c < 2 ^ numRadixBits, counts c = (tuples.filter (residue · = c)).length ∧
        (sorted.drop ((List.range c).map counts).sum).take (counts c) = tuples.filter
        (residue · = c) := by
  refine ⟨ordered tuples, fun c => (inCluster clusterOf tuples c).length, partitionHT_eq small,
    ordered_perm tuples,
    ?_, fun c => ?_, fun c hb => ⟨congrArg List.length (inCluster_clusterOf tuples c), ?_⟩⟩
  · refine clustered_sorted.imp fun {first second} le => ?_
    rw [clusterOf_eq, clusterOf_eq] at le
    exact le
  · rw [← inCluster_clusterOf, ← inCluster_clusterOf]
    have hs : inCluster clusterOf (ordered tuples) c = _ := classItems_clustered c
    rw [hs]
    refine (ite_eq_left_iff.mpr fun ho => ?_)
    refine (List.filter_eq_nil_iff.mpr fun t _ => ?_).symm
    rw [decide_eq_true_eq]
    rintro rfl
    exact ho (clusterOf_lt _)
  · obtain ⟨a, cut⟩ : ∃ a,
      (ordered tuples).drop (startOf (fun c => (inCluster clusterOf tuples c).length) c) =
          inCluster clusterOf tuples c ++ a := segments_drop hb
    have hst : ((List.range c).map fun c => (inCluster clusterOf tuples c).length).sum =
      startOf (fun c => (inCluster clusterOf tuples c).length) c := rfl
    rw [hst, ← inCluster_clusterOf]
    exact (congrArg (List.take _) cut).trans (List.take_left' rfl)

/-- Four tuples, two of them with a residue of 3: the negative key has the largest residue. -/
theorem partitionHT_partitions_four : ∃ (sorted : List Tuple) (counts : Nat → Nat),
    partitionHT 4 ([⟨-1, 10⟩, ⟨16387, 11⟩, ⟨1, 12⟩, ⟨3, 13⟩].map some) =
      some (sorted.map some, (List.range (2 ^ numRadixBits)).map counts) ∧
    sorted.filter (residue · = 3) = [⟨16387, 11⟩, ⟨3, 13⟩] ∧ counts 3 = 2 := by
  obtain ⟨sorted, counts, ran, _, _, hst, hs⟩ :=
    partitionHT_partitions [⟨-1, 10⟩, ⟨16387, 11⟩, ⟨1, 12⟩, ⟨3, 13⟩] (by decide)
  exact ⟨sorted, counts, ran, (hst 3).trans (by decide), (hs 3 (by decide)).1.trans (by decide)⟩

end Proteus.Platform.RadixJoin
