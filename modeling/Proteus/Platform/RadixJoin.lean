/-
**The radix join.**

`RJStepwise` joins two relations of tuples by their keys and returns how many pairs have the same
key. Two passes of `radix_cluster_nopadding` bring the tuples of each relation into an order by the
low 14 bits of the key: each pass counts the tuples of every cluster by 7 bits, derives from the
counts where every cluster starts and copies the tuples one after the other to their cluster. Then
the clusters are joined in turn: a table with chained buckets is built for the tuples of `R`, and
each tuple of `S` follows the chain of its bucket.

Every array is a list, and an access outside of it or to a cell that was never written fails, as
does a chain that is longer than the relation. Numbers of type `uint32_t` and `int` are kept as
their 32 bits, those of type `int64_t` as their 64 bits.

* `radixClusterNopadding_clusters` — a pass is a stable clustering, `clusterTwice_clusters` the two
  of them.
* `prepare_threads` — the chains of the table are those of the buckets.
* `probe_counts` — a probe counts the tuples of its key.
* `rjStepwise_counts_pairs` — **the join** fails nowhere, counts the pairs and permutes both
  relations.
-/

import Proteus.Library.Chain
import Proteus.Library.Segments

namespace Proteus.Platform.RadixJoin

open Proteus.Library List Option Function

/-! ### The code -/

/-- `joins::tuple_t`. -/
structure Tuple where
  key : BitVec 32
  payload : BitVec 64
  deriving DecidableEq

/-- `joins::relation_t`. The tuples are the cells of the array from the pointer on. -/
structure Relation where
  tuples : List (Option Tuple)
  numTuples : Nat

/-- `NUM_RADIX_BITS` -/
def numRadixBits : Nat := 14

/-- `NUM_PASSES` -/
def numPasses : Nat := 2

/-- `HASH_BIT_MODULO` -/
def hashBitModulo (key mask : BitVec 32) (bits : Nat) : Nat :=
  ((key &&& mask) >>> bits).toNat

/-- `NEXT_POW_2` -/
def nextPow2 (v : BitVec 32) : BitVec 32 :=
  let v := v - 1
  let v := v ||| v >>> 1
  let v := v ||| v >>> 2
  let v := v ||| v >>> 4
  let v := v ||| v >>> 8
  let v := v ||| v >>> 16
  v + 1

def Relation.forTuples {σ : Type} (rel : Relation) (body : σ → Nat → Tuple → Option σ) (state : σ) :
    Option σ :=
  (List.range rel.numTuples).foldlM (fun state i => do
    let tuple ← rel.tuples[i]?.join
    body state i tuple) state

def countTuple (clusterOf : BitVec 32 → Nat) (counts : List Nat) (tuple : Tuple) :
    Option (List Nat) := do
  let idx := clusterOf tuple.key
  let count ← counts[idx]?
  return counts.set idx ((count + 1) % 2 ^ 32)

/-- The tuples per cluster. -/
def countPerCluster (clusterOf : BitVec 32 → Nat) (clusters : Nat) (rel : Relation) :
    Option (List Nat) :=
  rel.forTuples (fun counts _ tuple => countTuple clusterOf counts tuple)
    (List.replicate clusters 0)

def clusterStarts (offset : Nat) : List Nat → List Nat
  | [] => []
  | count :: counts => offset :: clusterStarts ((offset + count) % 2 ^ 32) counts

def copyTuple (clusterOf : BitVec 32 → Nat) (state : List (Option Tuple) × List Nat)
    (tuple : Tuple) :
    Option (List (Option Tuple) × List Nat) := do
  let idx := clusterOf tuple.key
  let position ← state.2[idx]?
  if position < state.1.length then
    return (state.1.set position (some tuple), state.2.set idx (position + 1))
  else none

def passCluster (R D : Nat) (key : BitVec 32) : Nat :=
  hashBitModulo key (((1#32 <<< D) - 1#32) <<< R) R

/-- `radix_cluster_nopadding` -/
def radixClusterNopadding (outRel inRel : Relation) (R D : Nat) : Option Relation := do
  let tuplesPerCluster ← countPerCluster (passCluster R D) (2 ^ D) inRel
  let dst := clusterStarts 0 tuplesPerCluster
  let copied ← inRel.forTuples (fun state _ tuple => copyTuple (passCluster R D) state tuple)
    (outRel.tuples, dst)
  return { outRel with tuples := copied.1 }

/-- `HT` -/
structure HT where
  bucket : List Nat
  next : List (Option Nat)
  mask : BitVec 32

def insertTuple (ht : HT) (i : Nat) (tuple : Tuple) : Option HT := do
  let idx := hashBitModulo tuple.key ht.mask numRadixBits
  let head ← ht.bucket[idx]?
  if i < ht.next.length then
    return { ht with
      next := ht.next.set i (some head), bucket := ht.bucket.set idx ((i + 1) % 2 ^ 32) }
  else none

/-- `bucket_chaining_join_prepare` -/
def bucketChainingJoinPrepare (R : Relation) : Option HT :=
  let N := nextPow2 (BitVec.ofNat 32 R.numTuples)
  R.forTuples insertTuple
    { bucket := List.replicate N.toNat 0, next := List.replicate R.numTuples none,
      mask := (N - 1) <<< numRadixBits }

/-- An `int` is greater than 0. -/
def positive (value : Nat) : Bool := 0 < value && value < 2 ^ 31

def followHits (R : Relation) (ht : HT) (key : BitVec 32) : Nat → Nat → Option Nat
  | 0, hit => if positive hit then none else some 0
  | hits + 1, hit =>
    if positive hit then do
      let tuple ← R.tuples[hit - 1]?.join
      let next ← ht.next[hit - 1]?.join
      let found ← followHits R ht key hits next
      return if key = tuple.key then found + 1 else found
    else some 0

/-- `bucket_chaining_join_probe` -/
def bucketChainingJoinProbe (R : Relation) (ht : HT) (s : Tuple) : Option Nat := do
  let idx := hashBitModulo s.key ht.mask numRadixBits
  let hit ← ht.bucket[idx]?
  followHits R ht s.key R.numTuples hit

def clusterTwice (rel : Relation) : Option Relation := do
  let outRel : Relation :=
    { tuples := List.replicate rel.numTuples none, numTuples := rel.numTuples }
  let outRel ← radixClusterNopadding outRel rel 0 (numRadixBits / numPasses)
  radixClusterNopadding rel outRel (numRadixBits / numPasses)
    (numRadixBits - numRadixBits / numPasses)

/-- The cluster of a key after both passes. -/
def clusterOf (key : BitVec 32) : Nat := (key &&& ((1#32 <<< numRadixBits) - 1#32)).toNat

def addMatches (R : Relation) (ht : HT) (result : Nat) (s : Tuple) : Option Nat := do
  let found ← bucketChainingJoinProbe R ht s
  return (result + found) % 2 ^ 64

/-- The start of the next clusters, and the pairs counted so far. -/
structure Progress where
  r : Nat
  s : Nat
  result : Nat

/-- The join of the clusters with a number. -/
def joinCluster (relR relS : Relation) (rCounts sCounts : List Nat) (progress : Progress)
    (i : Nat) :
    Option Progress := do
  let rCount ← rCounts[i]?
  let sCount ← sCounts[i]?
  let r := (progress.r + rCount) % 2 ^ 32
  let s := (progress.s + sCount) % 2 ^ 32
  if positive rCount && positive sCount then
    let tmpR : Relation := { tuples := relR.tuples.drop progress.r, numTuples := rCount }
    let tmpS : Relation := { tuples := relS.tuples.drop progress.s, numTuples := sCount }
    let ht ← bucketChainingJoinPrepare tmpR
    let result ← tmpS.forTuples (fun result _ tuple => addMatches tmpR ht result tuple)
      progress.result
    return { r, s, result }
  else
    return { progress with r, s }

/-- `RJStepwise`: the number of pairs, and what becomes of the two relations. -/
def rjStepwise (relR relS : Relation) : Option (Nat × Relation × Relation) := do
  let relR ← clusterTwice relR
  let relS ← clusterTwice relS
  let rCounts ← countPerCluster clusterOf (2 ^ numRadixBits) relR
  let sCounts ← countPerCluster clusterOf (2 ^ numRadixBits) relS
  let last ← (List.range (2 ^ numRadixBits)).foldlM (joinCluster relR relS rCounts sCounts)
    ⟨0, 0, 0⟩
  return (last.result, relR, relS)

/-! ### Loops over the tuples -/

/-- The relation has these tuples. -/
structure Relation.Holds (rel : Relation) (tuples : List Tuple) : Prop where
  count : rel.numTuples = tuples.length
  cells : ∃ after, rel.tuples = tuples.map some ++ after

/-- A relation of tuples, in an array of its own. -/
def Relation.of (tuples : List Tuple) : Relation :=
    { tuples := tuples.map some, numTuples := tuples.length }

theorem Relation.of_holds (ts : List Tuple) : (Relation.of ts).Holds ts :=
  ⟨rfl, [], (append_nil _).symm⟩

variable {i : Nat} {tuple t : Tuple} {done dn tuples : List Tuple} {count ct : Nat} {N : BitVec 32}

section

variable {rel : Relation} {ts : List Tuple}

theorem Relation.Holds.read (hh : rel.Holds ts) (ht : ts[i]? = some t) :
    rel.tuples[i]?.join = some t := by
  obtain ⟨hi, hs⟩ := List.getElem?_eq_some_iff.mp ht
  obtain ⟨a, hc⟩ := hh.cells
  rw [hc, List.getElem?_append_left (by rw [length_map]; exact hi), List.getElem?_map, ht]
  rfl

/-- **The rule of the loops over a relation.** -/
theorem Relation.Holds.loop (hh : rel.Holds ts) {σ : Type} (b : σ → Nat → Tuple → Option σ) {s : σ}
    (Keeps : List Tuple → σ → Prop) (hs : Keeps [] s)
    (hst : ∀ done tuple tl s, ts = done ++ tuple :: tl → Keeps done s →
      ∃ n, b s done.length tuple = some n ∧ Keeps (done ++ [tuple]) n) :
    ∃ l, rel.forTuples b s = some l ∧ Keeps ts l := by
  unfold Relation.forTuples
  rw [hh.count]
  suffices hg : ∃ l, _ ∧ Keeps (ts.take ts.length) l by
    rw [take_length] at hg
    exact hg
  refine loop_range (fun i => Keeps (ts.take i)) hs fun i hi s hke => ?_
  have ht : ts[i]? = some ts[i] := List.getElem?_eq_getElem hi
  obtain ⟨n, hsd, hk⟩ := hst (ts.take i) ts[i] (ts.drop (i + 1)) s
    (by rw [← drop_eq_getElem_cons hi, take_append_drop]) hke
  rw [length_take, Nat.min_eq_left hi.le] at hsd
  refine ⟨n, ?_, ?_⟩
  · rw [hh.read ht]
    exact hsd
  · rw [take_concat_get' ts i hi] at hk
    exact hk

end

/-! ### A pass -/

section

variable {rel : Relation} {tuples : List Tuple} {classOf co : BitVec 32 → Nat} {n : Nat}

/-- The tuples of a cluster. -/
def inCluster (classOf : BitVec 32 → Nat) (tuples : List Tuple) : Nat → List Tuple :=
  classItems (fun tuple => classOf tuple.key) tuples

theorem inCluster_length_le (co : BitVec 32 → Nat) (tuples : List Tuple) (c : Nat) :
    (inCluster co tuples c).length ≤ tuples.length :=
  length_filter_le ..

theorem length_inCluster_perm {o : List Tuple} (hs : tuples.Perm o) (c : Nat) :
    (inCluster co tuples c).length = (inCluster co o c).length := by
  unfold inCluster classItems
  exact (hs.filter _).length_eq

theorem inCluster_append_self (dn : List Tuple) (t : Tuple) :
    inCluster co (dn ++ [t]) (co t.key) = inCluster co dn (co t.key) ++ [t] :=
  classItems_append_self ..

variable {c : Nat} {state s : List (Option Tuple) × List Nat} {rest tl : Nat → List (Option Tuple)}

theorem inCluster_append_other (dn : List Tuple) (ho : c ≠ co t.key) :
    inCluster co (dn ++ [t]) c = inCluster co dn c :=
  classItems_append_other dn ho.symm

theorem length_inCluster_append (dn : List Tuple) (t : Tuple) :
    (fun c => (inCluster co (dn ++ [t]) c).length) =
      update (fun c => (inCluster co dn c).length) (co t.key)
        ((inCluster co dn (co t.key)).length + 1) := by
  funext c
  by_cases own : c = co t.key
  · subst own
    rw [update_self]
    rw [inCluster_append_self, length_append, length_singleton]
  · rw [update_of_ne own, inCluster_append_other dn own]

theorem countPerCluster_counts (hh : rel.Holds tuples) (hsm : tuples.length < 2 ^ 32)
    (hi : ∀ k, co k < n) :
    countPerCluster co n rel = some (tabulate n fun c => (inCluster co tuples c).length) := by
  obtain ⟨cs, hc, rfl⟩ : ∃ cs, countPerCluster co n rel = some cs ∧
      cs = tabulate n fun c => (inCluster co tuples c).length := by
    refine hh.loop _ (fun done cs => cs = tabulate n fun c => (inCluster co done c).length)
      (replicate_eq_tabulate n 0) fun done tuple rest cs all hs => ?_
    subst hs
    have hb : (inCluster co done (co tuple.key)).length + 1 < 2 ^ 32 := by
      have hbo := inCluster_length_le co done (co tuple.key)
      have hl := congrArg List.length all
      rw [length_append, length_cons] at hl
      omega
    refine ⟨_, by rw [countTuple, get_tabulate (hi _)]; rfl, ?_⟩
    rw [Nat.mod_eq_of_lt hb, tabulate_set, length_inCluster_append]
  exact hc

theorem clusterStarts_eq (cs : List Nat) (o : Nat) (hs : o + cs.sum < 2 ^ 32) :
    clusterStarts o cs = tabulate cs.length fun c => o + (cs.take c).sum := by
  induction cs generalizing o with
  | nil => rfl
  | cons count cs ih =>
    rw [sum_cons] at hs
    rw [clusterStarts, Nat.mod_eq_of_lt (by omega), ih _ (by omega), length_cons]
    simp [tabulate, range_succ_eq_map, Nat.add_assoc]

theorem clusterStarts_tabulate (l : Nat → Nat) (hs : startOf l n < 2 ^ 32) :
    clusterStarts 0 (tabulate n l) = tabulate n (startOf l) := by
  rw [clusterStarts_eq _ _ (by rw [Nat.zero_add]; exact hs), length_tabulate]
  refine tabulate_congr fun c hi => ?_
  rw [Nat.zero_add, startOf, tabulate, ← map_take, take_range, Nat.min_eq_left hi.le, tabulate]

/-- Where a cluster starts. -/
def clusterStart (classOf : BitVec 32 → Nat) (tuples : List Tuple) : Nat → Nat :=
  startOf fun c => (inCluster classOf tuples c).length

def partOf (classOf : BitVec 32 → Nat) (done : List Tuple) (rest : Nat → List (Option Tuple))
    (c : Nat) :
    List (Option Tuple) :=
  (inCluster classOf done c).map some ++ rest c

/-- While a pass copies, every cluster has its tuples so far, and `dst` is the cell behind them. -/
structure Copied (n : Nat) (classOf : BitVec 32 → Nat) (tuples done : List Tuple)
    (state : List (Option Tuple) × List Nat) (rest : Nat → List (Option Tuple)) : Prop where
  dst : state.2 = tabulate n fun c =>
    clusterStart classOf tuples c + (inCluster classOf done c).length
  room : ∀ c < n, (inCluster classOf done c).length + (rest c).length =
    (inCluster classOf tuples c).length
  cells : state.1 = segments n (partOf classOf done rest)

theorem Copied.length_part (hc : Copied n co tuples dn s tl) (hi : c < n) :
    (partOf co dn tl c).length = (inCluster co tuples c).length := by
  rw [partOf, length_append, length_map]
  exact hc.room c hi

theorem Copied.step {m : List Tuple} (hc : Copied n co tuples dn s tl)
    (all : tuples = dn ++ t :: m) (hi : co t.key < n) :
    ∃ nx tl, copyTuple co s t = some nx ∧ Copied n co tuples (dn ++ [t]) nx tl := by
  obtain ⟨cs, dst⟩ := s
  set c := co t.key with own
  -- the cluster has a cell left for the tuple
  have hl : (inCluster co dn c).length < (inCluster co tuples c).length := by
    simp [inCluster, classItems, all, filter_append, own]
  obtain ⟨f, os, hsp⟩ : ∃ f os, tl c = f :: os :=
    exists_cons_of_length_pos (by have := hc.room c hi; omega)
  have hw : (inCluster co dn c).length < (partOf co dn tl c).length := by
    rw [hc.length_part hi]
    exact hl
  have hp : clusterStart co tuples c = startOf (fun c => (partOf co dn tl c).length) c :=
    startOf_congr fun d hb => (hc.length_part (hb.trans hi)).symm
  have ran : copyTuple co (cs, dst) t =
      some (cs.set (clusterStart co tuples c + (inCluster co dn c).length) (some t),
        dst.set c (clusterStart co tuples c + (inCluster co dn c).length + 1)) := by
    obtain rfl : dst = _ := hc.dst
    obtain rfl : cs = _ := hc.cells
    rw [copyTuple, ← own]
    dsimp only
    rw [get_tabulate hi, hp]
    exact if_pos (segments_position hi hw)
  refine ⟨_, update tl c os, ran, ?_, fun d hb => ?_, ?_⟩
  · dsimp only
    rw [show dst = _ from hc.dst, tabulate_set]
    refine tabulate_congr fun d hb => ?_
    rw [congrFun (length_inCluster_append dn t) d, ← own]
    by_cases hs : d = c
    · rw [hs, update_self, update_self, Nat.add_assoc]
    · rw [update_of_ne hs, update_of_ne hs]
  · rw [congrFun (length_inCluster_append dn t) d, ← own]
    by_cases hs : d = c
    · have now := hc.room d hb
      rw [hs, hsp, length_cons] at now
      rw [hs, update_self, update_self]
      omega
    · rw [update_of_ne hs, update_of_ne hs]
      exact hc.room d hb
  · dsimp only
    rw [show cs = _ from hc.cells, hp, segments_set hi hw]
    refine segments_congr fun d hb => ?_
    unfold partOf
    by_cases hs : d = c
    · rw [hs, update_self, update_self, hsp, own, inCluster_append_self]
      simp
    · rw [update_of_ne hs, update_of_ne hs, inCluster_append_other dn hs]

def byCluster (n : Nat) (classOf : BitVec 32 → Nat) (tuples : List Tuple) : List Tuple :=
  clustered n (fun tuple => classOf tuple.key) tuples

theorem Copied.all
    (hc : Copied n co tuples tuples s tl) : s.1 = (byCluster n co tuples).map some := by
  rw [hc.cells, byCluster, clustered, map_segments]
  refine segments_congr fun c hb => ?_
  have hn : tl c = [] := length_eq_zero_iff.mp (by have := hc.room c hb; omega)
  rw [partOf, hn, append_nil]
  rfl

theorem byCluster_holds (co : BitVec 32 → Nat) (tuples : List Tuple) (hi : c < n) :
    Relation.Holds ⟨(Relation.of (byCluster n co tuples)).tuples.drop
      (clusterStart co tuples c), (inCluster co tuples c).length⟩
      (inCluster co tuples c) := by
  refine ⟨rfl, ?_⟩
  have hc : (Relation.of (byCluster n co tuples)).tuples =
      segments n fun c => (inCluster co tuples c).map some := map_segments some
  have hs : clusterStart co tuples c = startOf (fun c => ((inCluster co tuples c).map some).length)
      c :=
    startOf_congr fun _ _ => (length_map ..).symm
  dsimp only
  rw [hc, hs]
  exact segments_drop hi

theorem startOf_inCluster (hi : ∀ k, co k < n) : clusterStart co tuples n = tuples.length :=
  sum_classes fun _ _ => hi _

theorem copyTuples_clusters (hh : rel.Holds tuples) (hi : ∀ k, co k < n)
    {cs : List (Option Tuple)} (hr : cs.length = tuples.length) :
    ∃ l, rel.forTuples (fun state _ tuple => copyTuple co state tuple)
        (cs, tabulate n (clusterStart co tuples)) = some l ∧
      l.1 = (byCluster n co tuples).map some := by
  obtain ⟨rest, cut, hl⟩ := exists_segments _ cs (hr.trans (startOf_inCluster hi).symm)
  have hs : Copied n co tuples [] (cs, tabulate n (clusterStart co tuples)) rest :=
    ⟨rfl, fun c hb => (Nat.zero_add _).trans (hl c hb), cut⟩
  obtain ⟨l, ran, lf, hc⟩ := hh.loop (fun state _ tuple => copyTuple co state tuple)
    (fun done state => ∃ rest, Copied n co tuples done state rest) ⟨rest, hs⟩
    fun done tuple m state all ⟨rest, hc⟩ => by
      obtain ⟨nx, rest, hst, hk⟩ := hc.step all (hi _)
      exact ⟨nx, hst, rest, hk⟩
  exact ⟨l, ran, hc.all⟩

end

/-- **A pass** leaves the tuples cluster after cluster. -/
theorem radixClusterNopadding_clusters (outRel : Relation) {ir : Relation} {R D : Nat}
    (hh : ir.Holds tuples) (hr : outRel.tuples.length = tuples.length) (hs : tuples.length < 2 ^ 32)
    (hi : ∀ k, passCluster R D k < 2 ^ D) :
    radixClusterNopadding outRel ir R D =
      some { outRel with tuples := (byCluster (2 ^ D) (passCluster R D) tuples).map some } := by
  have ht : clusterStart (passCluster R D) tuples (2 ^ D) = tuples.length := startOf_inCluster hi
  have hst :
    clusterStarts 0 (tabulate (2 ^ D) fun c => (inCluster (passCluster R D) tuples c).length) =
      tabulate (2 ^ D) (clusterStart (passCluster R D) tuples) :=
    clusterStarts_tabulate _ (lt_of_eq_of_lt ht hs)
  obtain ⟨l, hc, hce⟩ := copyTuples_clusters hh hi hr
  unfold radixClusterNopadding
  rw [countPerCluster_counts hh hs hi]
  dsimp only [bind_eq_bind, bind_some]
  rw [hst, hc, ← hce]
  rfl

variable (k : BitVec 32)

open BitVec

/-! ### Both passes -/

theorem passCluster_low : passCluster 0 7 k = k.toNat % 2 ^ 7 := by
  unfold passCluster hashBitModulo
  rw [show ((1#32 <<< 7) - 1#32) <<< 0 = 127#32 from by decide, ushiftRight_zero, toNat_and]
  exact Nat.and_two_pow_sub_one_eq_mod k.toNat 7

theorem passCluster_high : passCluster 7 7 k = k.toNat / 2 ^ 7 % 2 ^ 7 := by
  unfold passCluster hashBitModulo
  rw [ushiftRight_and_distrib, show ((1#32 <<< 7) - 1#32) <<< 7 >>> 7 = 127#32 from by decide,
    toNat_and, toNat_ushiftRight, Nat.shiftRight_eq_div_pow]
  exact Nat.and_two_pow_sub_one_eq_mod (k.toNat / 2 ^ 7) 7

theorem clusterOf_eq : clusterOf k = k.toNat % 2 ^ 14 := by
  unfold clusterOf numRadixBits
  rw [show (1#32 <<< 14) - 1#32 = 16383#32 from by decide, toNat_and]
  exact Nat.and_two_pow_sub_one_eq_mod k.toNat 14

theorem clusterOf_lt : clusterOf k < 2 ^ numRadixBits := by
  rw [clusterOf_eq]
  exact Nat.mod_lt _ (by decide)

theorem clusterOf_passes : clusterOf k = passCluster 7 7 k * 2 ^ 7 + passCluster 0 7 k := by
  rw [clusterOf_eq, passCluster_low, passCluster_high]
  omega

/-- **The two passes** leave the tuples in the order of the clusters by all the 14 bits. -/
theorem clusterTwice_clusters (hsm : tuples.length < 2 ^ 32) :
    clusterTwice (Relation.of tuples) = some
        (Relation.of (byCluster (2 ^ numRadixBits) clusterOf tuples)) := by
  have low : ∀ k, passCluster 0 7 k < 2 ^ 7 := fun k => by
    rw [passCluster_low]
    exact Nat.mod_lt _ (by decide)
  have hh : ∀ k, passCluster 7 7 k < 2 ^ 7 := fun k => by
    rw [passCluster_high]
    exact Nat.mod_lt _ (by decide)
  have hp : (byCluster (2 ^ 7) (passCluster 0 7) tuples).Perm tuples := clustered_perm fun _ _ =>
    low _
  have hb : byCluster (2 ^ 7) (passCluster 7 7) (byCluster (2 ^ 7) (passCluster 0 7) tuples) =
      byCluster (2 ^ numRadixBits) clusterOf tuples := by
    unfold byCluster
    rw [clustered_clustered _ fun _ _ => low _]
    simp only [← clusterOf_passes]
    rfl
  have hf := radixClusterNopadding_clusters ⟨List.replicate tuples.length none, tuples.length⟩
    (Relation.of_holds tuples) (by simp) hsm low
  have hm : Relation.Holds ⟨(byCluster (2 ^ 7) (passCluster 0 7) tuples).map some, tuples.length⟩
      (byCluster (2 ^ 7) (passCluster 0 7) tuples) :=
    ⟨hp.length_eq.symm, [], (append_nil _).symm⟩
  have hse := radixClusterNopadding_clusters (Relation.of tuples) hm
    (by rw [hp.length_eq]; exact length_map ..) (by rw [hp.length_eq]; exact hsm) hh
  rw [hb] at hse
  unfold clusterTwice
  show (radixClusterNopadding ⟨List.replicate tuples.length none, tuples.length⟩
    (Relation.of tuples) 0 7).bind
    (fun outRel => radixClusterNopadding (Relation.of tuples) outRel 7 7) = _
  rw [hf, bind_some, hse]
  have hs : (byCluster (2 ^ numRadixBits) clusterOf tuples).length = tuples.length :=
    (clustered_perm fun _ _ => clusterOf_lt _).length_eq
  rw [Relation.of, Relation.of, hs]

/-! ### The table of a cluster -/

theorem smear_lt {v : BitVec 32} (hs : v.toNat < 2 ^ 31) (s : Nat) :
    (v ||| v >>> s).toNat < 2 ^ 31 := by
  rw [toNat_or, toNat_ushiftRight]
  exact Nat.or_lt_two_pow hs (lt_of_le_of_lt (Nat.shiftRight_le ..) hs)

theorem nextPow2_pos (hn : 0 < ct) (hs : ct < 2 ^ 31) :
    0 < (nextPow2 (BitVec.ofNat 32 ct)).toNat := by
  have hl : (BitVec.ofNat 32 ct - 1).toNat < 2 ^ 31 := by
    rw [BitVec.toNat_sub, BitVec.toNat_ofNat]
    simp
    omega
  have hsm := smear_lt (smear_lt (smear_lt (smear_lt (smear_lt hl 1) 2) 4) 8) 16
  have one : (1 : BitVec 32).toNat = 1 := rfl
  unfold nextPow2
  dsimp only
  rw [BitVec.toNat_add, one, Nat.mod_eq_of_lt (by omega)]
  exact Nat.succ_pos _

theorem hashBitModulo_lt (k N : BitVec 32) (b : Nat) (hn : 0 < N.toNat) :
    hashBitModulo k ((N - 1) <<< b) b < N.toNat := by
  unfold hashBitModulo
  rw [ushiftRight_and_distrib, toNat_and]
  have hm : (((N - 1) <<< b) >>> b).toNat ≤ (N - 1).toNat := by
    rw [toNat_ushiftRight, toNat_shiftLeft, Nat.shiftRight_eq_div_pow, Nat.shiftLeft_eq]
    exact (Nat.div_le_div_right (Nat.mod_le ..)).trans (Nat.mul_div_cancel _ (Nat.two_pow_pos b)).le
  have hl : (N - 1).toNat = N.toNat - 1 := by
    rw [toNat_sub_of_le]
    · rfl
    · exact hn
  have := Nat.and_le_right (n := (k >>> b).toNat) (m := ((N - 1) <<< b >>> b).toNat)
  omega

section

variable {R : Relation} {tuples : List Tuple}

def inserted (tuples : List Tuple) : List (Tuple × Nat) := tuples.zipIdx.reverse

def hitOf (element : Tuple × Nat) : Nat := element.2 + 1

/-- The bucket of a tuple. -/
def bucketOf (mask : BitVec 32) (element : Tuple × Nat) : Nat :=
    hashBitModulo element.1.key mask numRadixBits

theorem inserted_append (dn : List Tuple) (t : Tuple) :
    inserted (dn ++ [t]) = (t, dn.length) :: inserted dn := by
  simp [inserted, List.zipIdx_append]

theorem inserted_filter (c : Tuple → Prop) [DecidablePred c] :
    ((inserted tuples).filter fun x => c x.1).map Prod.fst =
      (tuples.filter fun tuple => c tuple).reverse := by
  conv_rhs => rw [← List.zipIdx_map_fst 0 tuples]
  rw [inserted, List.filter_reverse, List.map_reverse, List.filter_map]
  rfl

theorem mem_inserted {x : Tuple × Nat} (hm : x ∈ inserted tuples) : tuples[x.2]? = some x.1 :=
  mem_zipIdx_iff_getElem?.mp (mem_reverse.mp hm)

/-- The table has chains of these tuples. -/
structure HT.Has (ht : HT) (N : BitVec 32) (count : Nat) (tuples : List Tuple) : Prop where
  mask : ht.mask = (N - 1) <<< numRadixBits
  room : ht.next.length = count
  heads : ht.bucket = tabulate N.toNat fun bucket =>
    headOf 0 hitOf (bucketOf ht.mask) bucket (inserted tuples)
  threaded :
    Threaded 0 hitOf (bucketOf ht.mask) (fun element head => ht.next[element.2]? = some (some head))
    (inserted tuples)

theorem HT.Has.insert {ht : HT} (has : ht.Has N ct dn)
    (hbu : 0 < N.toNat) (hi : dn.length < ct) (hs : ct < 2 ^ 32) (t : Tuple) :
    ∃ n, insertTuple ht dn.length t = some n ∧ n.Has N ct (dn ++ [t]) := by
  have hw : bucketOf ht.mask (t, dn.length) < N.toNat := by
    rw [has.mask]
    exact hashBitModulo_lt _ _ _ hbu
  set hd := headOf 0 hitOf (bucketOf ht.mask) (bucketOf ht.mask (t, dn.length))
    (inserted dn) with hf
  refine ⟨{ ht with
    next := ht.next.set dn.length (some hd)
    bucket := ht.bucket.set (bucketOf ht.mask (t, dn.length)) ((dn.length + 1) % 2 ^ 32) },
      ?_, has.mask, ?_,
    ?_, ?_⟩
  · have hth : ht.bucket[bucketOf ht.mask (t, dn.length)]? = some hd := by
      rw [has.heads, get_tabulate hw]
    unfold insertTuple
    show (ht.bucket[bucketOf ht.mask (t, dn.length)]?).bind _ = _
    rw [hth]
    exact if_pos (has.room ▸ hi)
  · exact (length_set ..).trans has.room
  · dsimp only
    rw [Nat.mod_eq_of_lt (by omega), has.heads, tabulate_set]
    refine tabulate_congr fun b hbe => ?_
    rw [inserted_append, headOf]
    by_cases own : bucketOf ht.mask (t, dn.length) = b
    · rw [if_pos own, own, update_self]
      rfl
    · rw [if_neg own, update_of_ne (Ne.symm own)]
  · rw [inserted_append]
    refine ⟨?_, has.threaded.imp fun x hm hd hl => ?_⟩
    · exact List.getElem?_set_self (has.room ▸ hi)
    · -- the tuples before it keep their links
      obtain ⟨hb, -⟩ := List.getElem?_eq_some_iff.mp (mem_inserted hm)
      dsimp only
      rw [List.getElem?_set_ne (Nat.ne_of_gt hb)]
      exact hl

/-- **The build** makes the chains of all the tuples. -/
theorem prepare_threads (hh : R.Holds tuples) (hn : 0 < tuples.length)
    (hsm : tuples.length < 2 ^ 31) :
    ∃ ht N, 0 < N.toNat ∧ bucketChainingJoinPrepare R = some ht ∧
        ht.Has N tuples.length tuples := by
  have hb := nextPow2_pos hn hsm
  have hs : HT.Has ⟨List.replicate (nextPow2 (BitVec.ofNat 32 tuples.length)).toNat 0,
      List.replicate tuples.length none,
        (nextPow2 (BitVec.ofNat 32 tuples.length) - 1) <<< numRadixBits⟩
      (nextPow2 (BitVec.ofNat 32 tuples.length)) tuples.length [] :=
    ⟨rfl, length_replicate, replicate_eq_tabulate .., trivial⟩
  obtain ⟨ht, hbu, has⟩ := hh.loop insertTuple
    (fun done ht => ht.Has (nextPow2 (BitVec.ofNat 32 tuples.length)) tuples.length done) hs
    fun done tuple tl ht all has => has.insert hb (by rw [all]; simp) (by omega) tuple
  refine ⟨ht, _, hb, ?_, has⟩
  unfold bucketChainingJoinPrepare
  rw [hh.count]
  exact hbu

end

/-! ### A probe -/

section

variable {R : Relation} {ts : List Tuple} {ht : HT} {N : BitVec 32}

def loadHit (R : Relation) (ht : HT) (hit : Nat) : Option (Nat × Tuple) := do
  let tuple ← R.tuples[hit - 1]?.join
  let next ← ht.next[hit - 1]?.join
  return (next, tuple)

theorem loadHit_eq_some {hit n : Nat} (hl : loadHit R ht hit = some (n, t)) :
    R.tuples[hit - 1]?.join = some t ∧ ht.next[hit - 1]?.join = some n := by
  unfold loadHit at hl
  simp only [bind_eq_bind, bind_eq_some_iff, pure, Option.some.injEq, Prod.mk.injEq] at hl
  obtain ⟨_, hf, _, hs, rfl, rfl⟩ := hl
  exact ⟨hf, hs⟩

theorem followHits_chain {k : BitVec 32} {hit h : Nat} {met : List Tuple}
    (hc : Chain (loadHit R ht) 0 hit met) (hsm : ht.next.length < 2 ^ 31) (he : met.length ≤ h) :
    followHits R ht k h hit = some (met.countP fun tuple => k = tuple.key) := by
  induction hc generalizing h with
  | stop => cases h <;> rfl
  | @link hit n tuple tl hi hl hta ih =>
    obtain ⟨h, rfl⟩ : ∃ m, h = m + 1 := Nat.exists_eq_add_one.mpr (by rw [length_cons] at he; omega)
    obtain ⟨hf, hfo⟩ := loadHit_eq_some hl
    obtain ⟨hb, -⟩ := List.getElem?_eq_some_iff.mp (join_eq_some_iff.mp hfo)
    have hih : positive hit = true := by
      unfold positive
      rw [Bool.and_eq_true, decide_eq_true_eq, decide_eq_true_eq]
      omega
    rw [followHits, if_pos hih, hf, hfo]
    show (followHits R ht k h n).bind _ = _
    rw [ih (Nat.le_of_succ_le_succ he), bind_some, countP_cons]
    by_cases hs : k = tuple.key <;> simp [hs]

/-- **A probe** counts the tuples that have its key. -/
theorem probe_counts (hh : R.Holds ts) (has : ht.Has N ts.length ts) (hbu : 0 < N.toNat)
    (hsm : ts.length < 2 ^ 31) (s : Tuple) :
    bucketChainingJoinProbe R ht s = some (ts.countP fun tuple => s.key = tuple.key) := by
  have hw : hashBitModulo s.key ht.mask numRadixBits < N.toNat := by
    rw [has.mask]
    exact hashBitModulo_lt _ _ _ hbu
  have hc : Chain (loadHit R ht) 0 _ (((inserted ts).filter fun x =>
      hashBitModulo x.1.key ht.mask numRadixBits = hashBitModulo s.key ht.mask numRadixBits).map
          Prod.fst) :=
    has.threaded.chain Prod.fst (fun x hm hd hl => by
      refine ⟨Nat.succ_ne_zero _, ?_⟩
      unfold loadHit hitOf
      rw [Nat.add_sub_cancel, hh.read (mem_inserted hm), hl]
      rfl) _
  rw [inserted_filter fun tuple =>
    hashBitModulo tuple.key ht.mask numRadixBits = hashBitModulo s.key ht.mask numRadixBits] at hc
  unfold bucketChainingJoinProbe
  dsimp only
  rw [has.heads, get_tabulate hw]
  show followHits R ht s.key R.numTuples _ = _
  rw [followHits_chain hc (has.room ▸ hsm) (by
    rw [hh.count, length_reverse]
    exact length_filter_le ..), countP_reverse, countP_filter]
  congr 1
  refine countP_congr fun tuple _ => ?_
  rw [Bool.and_eq_true, decide_eq_true_eq, decide_eq_true_eq]
  exact ⟨fun hb => hb.1, fun hs => ⟨hs, by rw [hs]⟩⟩

end

/-! ### The join -/

def partners (R : List Tuple) (s : Tuple) : Nat := R.countP fun r => s.key = r.key

/-- The number of pairs with equal keys. -/
def matchingPairs (R S : List Tuple) : Nat := (R ×ˢ S).countP fun pair => pair.1.key = pair.2.key

theorem partners_nil : partners [] = fun _ => 0 := rfl

theorem sum_ite_eq_countP (xs : List Tuple) (c : Tuple → Prop) [DecidablePred c] :
    (xs.map fun x => if c x then 1 else 0).sum = xs.countP fun x => c x := by
  induction xs with
  | nil => rfl
  | cons x xs ih =>
    rw [map_cons, sum_cons, ih, countP_cons, Nat.add_comm]
    simp

theorem matchingPairs_eq_sum (R S : List Tuple) : matchingPairs R S = (S.map (partners R)).sum := by
  induction R with
  | nil =>
    rw [partners_nil]
    simp [matchingPairs]
  | cons r R ih =>
    have hf : ∀ s ∈ S, partners (r :: R) s = partners R s + if r.key = s.key then 1 else 0 :=
        fun s _ => by
      rw [partners, countP_cons, partners]
      simp [eq_comm]
    rw [map_congr_left hf, sum_map_add, ← ih, sum_ite_eq_countP, matchingPairs, product_cons,
      countP_append, countP_map, Nat.add_comm]
    rfl

theorem matchingPairs_lt {R S : List Tuple} (hsr : R.length < 2 ^ 31) (hss : S.length < 2 ^ 31) :
    matchingPairs R S < 2 ^ 64 := by
  have hm : matchingPairs R S ≤ R.length * S.length := countP_le_length.trans (length_product ..).le
  have hp := Nat.mul_lt_mul'' hsr hss
  omega

section

variable {R S : List Tuple}

theorem partners_inCluster {s : Tuple} (hm : s ∈ inCluster clusterOf S i) :
    partners (inCluster clusterOf R i) s = partners R s := by
  have own : clusterOf s.key = i := of_decide_eq_true (mem_filter.mp hm).2
  unfold partners inCluster classItems
  rw [countP_filter]
  refine countP_congr fun r _ => ?_
  rw [Bool.and_eq_true, decide_eq_true_eq, decide_eq_true_eq]
  exact ⟨fun hb => hb.1, fun hs => ⟨hs, (congrArg clusterOf hs.symm).trans own⟩⟩

/-- The pairs of a cluster. -/
def clusterPairs (R S : List Tuple) (i : Nat) : Nat :=
    ((inCluster clusterOf S i).map (partners R)).sum

theorem clusterPairs_eq_zero (hn : inCluster clusterOf R i = [] ∨ inCluster clusterOf S i = []) :
    clusterPairs R S i = 0 := by
  unfold clusterPairs
  rcases hn with hl | hr
  · rw [map_congr_left fun s hm => (partners_inCluster (R := R) hm).symm, hl, partners_nil]
    simp
  · rw [hr]
    rfl

theorem positive_length_iff (hs : tuples.length < 2 ^ 31) : positive tuples.length = true ↔
    tuples ≠ [] := by
  unfold positive
  rw [Bool.and_eq_true, decide_eq_true_eq, decide_eq_true_eq, length_pos_iff]
  exact ⟨fun hb => hb.1, fun hn => ⟨hn, hs⟩⟩

theorem startOf_add (tuples : List Tuple) (hs : tuples.length < 2 ^ 31)
    (hi : i < 2 ^ numRadixBits) :
    (clusterStart clusterOf tuples i + (inCluster clusterOf tuples i).length) % 2 ^ 32 =
      clusterStart clusterOf tuples (i + 1) := by
  have ht : clusterStart clusterOf tuples (2 ^ numRadixBits) = tuples.length :=
    startOf_inCluster clusterOf_lt
  have hb : clusterStart clusterOf tuples (i + 1) ≤ clusterStart clusterOf tuples
      (2 ^ numRadixBits) :=
    startOf_le _ hi
  have hn : clusterStart clusterOf tuples (i + 1) =
      clusterStart clusterOf tuples i + (inCluster clusterOf tuples i).length := startOf_succ ..
  rw [← hn, Nat.mod_eq_of_lt (by omega)]

theorem probes_add {t : Nat} {tr ts : Relation} (hhr : tr.Holds (inCluster clusterOf R i))
    (hhs : ts.Holds (inCluster clusterOf S i)) {ht : HT}
    (has : ht.Has N (inCluster clusterOf R i).length (inCluster clusterOf R i)) (hbu : 0 < N.toNat)
    (hsm : (inCluster clusterOf R i).length < 2 ^ 31) (hf : t + clusterPairs R S i < 2 ^ 64) :
    ts.forTuples (fun r _ tuple => addMatches tr ht r tuple) t = some (t + clusterPairs R S i) := by
  obtain ⟨r, ran, rfl⟩ : ∃ r, ts.forTuples (fun r _ tuple => addMatches tr ht r tuple) t = some r ∧
        r = t + clusterPairs R S i := by
    refine hhs.loop _ (fun done r => r = t + (done.map (partners R)).sum) rfl
      fun done tuple tl r all hs => ?_
    have hm : tuple ∈ inCluster clusterOf S i := by
      rw [all]
      exact mem_append_right _ mem_cons_self
    have hb : t + (done.map (partners R)).sum + partners R tuple < 2 ^ 64 := by
      rw [clusterPairs, all, map_append, sum_append, map_cons, sum_cons] at hf
      omega
    refine ⟨_, ?_, rfl⟩
    rw [addMatches, probe_counts hhr has hbu hsm]
    show some ((r + partners (inCluster clusterOf R i) tuple) % 2 ^ 64) = _
    rw [partners_inCluster hm, hs, Nat.mod_eq_of_lt hb, map_append, sum_append, Nat.add_assoc]
    rfl
  exact ran

def ordered (tuples : List Tuple) : List Tuple := byCluster (2 ^ numRadixBits) clusterOf tuples

def clusterCounts (tuples : List Tuple) : List Nat :=
  tabulate (2 ^ numRadixBits) fun c => (inCluster clusterOf tuples c).length

/-- The loop before a cluster. -/
def progressAt (R S : List Tuple) (i : Nat) : Progress where
  r := clusterStart clusterOf R i
  s := clusterStart clusterOf S i
  result := startOf (clusterPairs R S) i

theorem ordered_perm (tuples : List Tuple) : (ordered tuples).Perm tuples :=
  clustered_perm fun _ _ => clusterOf_lt _

theorem clusterTwice_orders (hs : tuples.length < 2 ^ 31) :
    clusterTwice (Relation.of tuples) = some (Relation.of (ordered tuples)) :=
  clusterTwice_clusters (by omega)

theorem countPerCluster_ordered (hsm : tuples.length < 2 ^ 31) :
    countPerCluster clusterOf (2 ^ numRadixBits) (Relation.of (ordered tuples)) = some
        (clusterCounts tuples) := by
  have hs := ordered_perm tuples
  have hc : (tabulate (2 ^ numRadixBits) fun c => (inCluster clusterOf (ordered tuples) c).length) =
      clusterCounts tuples := tabulate_congr fun c _ => length_inCluster_perm hs c
  rw [countPerCluster_counts (Relation.of_holds _) (by rw [hs.length_eq]; omega) clusterOf_lt, hc]

theorem startOf_clusterPairs (R S : List Tuple) :
    startOf (clusterPairs R S) (2 ^ numRadixBits) = matchingPairs R S := by
  rw [matchingPairs_eq_sum, ← ((ordered_perm S).map (partners R)).sum_eq]
  exact (sum_map_segments _).symm

/-- **The join of two clusters** adds its pairs. -/
theorem joinCluster_adds (hi : i < 2 ^ numRadixBits) (hsr : R.length < 2 ^ 31)
    (hss : S.length < 2 ^ 31) :
    joinCluster (Relation.of (ordered R)) (Relation.of (ordered S)) (clusterCounts R)
      (clusterCounts S)
      (progressAt R S i) i = some (progressAt R S (i + 1)) := by
  have hcr := lt_of_le_of_lt (inCluster_length_le clusterOf R i) hsr
  have hcs := lt_of_le_of_lt (inCluster_length_le clusterOf S i) hss
  have hf : startOf (clusterPairs R S) i + clusterPairs R S i < 2 ^ 64 := by
    have hp := startOf_clusterPairs R S
    have hb := startOf_le (clusterPairs R S) (show i + 1 ≤ 2 ^ numRadixBits from hi)
    have hl := matchingPairs_lt hsr hss
    rw [← startOf_succ]
    omega
  unfold joinCluster clusterCounts progressAt
  rw [get_tabulate hi, get_tabulate hi]
  dsimp only [bind_eq_bind, bind_some]
  rw [startOf_add R hsr hi, startOf_add S hss hi, startOf_succ (clusterPairs R S)]
  split_ifs with hbo
  · rw [Bool.and_eq_true, positive_length_iff hcr, positive_length_iff hcs] at hbo
    have hhr := byCluster_holds clusterOf R hi
    obtain ⟨ht, N, hbu, hbl, has⟩ := prepare_threads hhr (length_pos_iff.mpr hbo.1) hcr
    have hpr := probes_add hhr (byCluster_holds clusterOf S hi) has hbu hcr hf
    unfold ordered
    rw [hbl, bind_some, hpr]
    rfl
  · rw [Bool.and_eq_true, positive_length_iff hcr, positive_length_iff hcs] at hbo
    rw [clusterPairs_eq_zero (by by_contra some; exact hbo (not_or.mp some))]
    rfl

end

/-- **The radix join** accesses no array outside of its bounds, returns the number of the pairs with
equal keys, and leaves permutations of the two relations. -/
theorem rjStepwise_counts_pairs (R S : List Tuple) (smallR : R.length < 2 ^ 31)
    (smallS : S.length < 2 ^ 31) :
    ∃ R' S', rjStepwise (Relation.of R) (Relation.of S) =
        some (matchingPairs R S, Relation.of R', Relation.of S') ∧ R'.Perm R ∧ S'.Perm S := by
  obtain ⟨l, hj, rfl⟩ : ∃ l, (List.range (2 ^ numRadixBits)).foldlM
      (joinCluster (Relation.of (ordered R)) (Relation.of (ordered S)) (clusterCounts R)
      (clusterCounts S))
      ⟨0, 0, 0⟩ = some l ∧ l = progressAt R S (2 ^ numRadixBits) :=
    loop_range (fun i p => p = progressAt R S i) rfl fun i hi p hs =>
      ⟨_, hs ▸ joinCluster_adds hi smallR smallS, rfl⟩
  refine ⟨ordered R, ordered S, ?_, ordered_perm R, ordered_perm S⟩
  unfold rjStepwise
  rw [clusterTwice_orders smallR, clusterTwice_orders smallS]
  dsimp only [bind_eq_bind, bind_some]
  rw [countPerCluster_ordered smallR, countPerCluster_ordered smallS]
  dsimp only [bind_some]
  rw [hj, bind_some, progressAt, startOf_clusterPairs]
  rfl

/-- Three pairs of tuples with the key 5, and a negative key in both relations. -/
theorem rjStepwise_counts_four : matchingPairs [⟨5, 10⟩, ⟨-1, 11⟩, ⟨5, 12⟩, ⟨5, 13⟩]
    [⟨-1, 20⟩, ⟨5, 21⟩, ⟨7, 22⟩] = 4 ∧
      ∃ R' S', rjStepwise (Relation.of [⟨5, 10⟩, ⟨-1, 11⟩, ⟨5, 12⟩, ⟨5, 13⟩])
          (Relation.of [⟨-1, 20⟩, ⟨5, 21⟩, ⟨7, 22⟩]) = some (4, Relation.of R', Relation.of S') ∧
        R'.Perm [⟨5, 10⟩, ⟨-1, 11⟩, ⟨5, 12⟩, ⟨5, 13⟩] ∧ S'.Perm [⟨-1, 20⟩, ⟨5, 21⟩, ⟨7, 22⟩] := by
  have hc : matchingPairs [⟨5, 10⟩, ⟨-1, 11⟩, ⟨5, 12⟩, ⟨5, 13⟩] [⟨-1, 20⟩, ⟨5, 21⟩, ⟨7, 22⟩] =
    4 := by decide
  refine ⟨hc, ?_⟩
  have hj := rjStepwise_counts_pairs [⟨5, 10⟩, ⟨-1, 11⟩, ⟨5, 12⟩, ⟨5, 13⟩] [⟨-1, 20⟩, ⟨5, 21⟩,
    ⟨7, 22⟩]
    (by decide) (by decide)
  rw [hc] at hj
  exact hj

end Proteus.Platform.RadixJoin
