/-
**Grouping by chained hashing** (`olap/lib/operators/hash-group-by-chained.cpp`).

The generated code looks for the group of a tuple along the chain of its bucket. It adds the tuple's
value to the group if there is one, else it takes a new index, writes an entry there and links it at
the end of the chain. Where it has written an entry and then finds the group after all, it marks the
entry by a link to itself. The scan reads the entries up to the counter and leaves the marked ones
out.

Indices are 32-bit numbers with a sign: the entry after the `2^31`-th one is in front of the arrays.
The sizes of the arrays are 64-bit numbers, and `Fits` says when they are what they should be.

* `groups_exact` — an accumulation in a list has one entry for each key, with the total of its
  values.
* `Represents.build` — a tuple changes the table as it changes the list, as long as there are
  indices.
* `groups_exactly_iff` — the build and the scan give one entry for each key, with the total of its
  values, exactly when there are at most `2^31` keys, and with assertions fewer.
-/

import Proteus.Library.Chain
import Proteus.Library.Loops
import Proteus.Platform.MemoryManager

namespace Proteus.Olap.GroupBy

open Library List Option

open Platform (fixSize fixSize_spec)

/-! ### Arrays -/

section

variable {α : Type}

def fetch (index : BitVec 32) (array : List (Option α)) : Option α :=
  if 0 ≤ index.toInt then array[index.toNat]?.join else none

def put (index : BitVec 32) (value : α) (array : List (Option α)) : Option (List (Option α)) :=
  if 0 ≤ index.toInt ∧ index.toInt < array.length then
    some (array.set index.toNat (some value)) else none

end

/-! ### The operator -/

section

variable {K M : Type}

/-- The parameters, and the widths in bits of the packets of keys and of aggregates. -/
structure HashGroupByChained where
  hashBits : Nat
  maxInputSize : Nat
  keyWidth : Nat
  aggregateWidth : Nat

/-- How many entries of a packet there is room for: eight times as many as the input may have,
unless the number of bytes is too large for a `size_t`. `mallocPinned` allocates what `fixSize`
makes of it. -/
def HashGroupByChained.room (groupBy : HashGroupByChained) (width : Nat) : Nat :=
  fixSize (width / 8 * groupBy.maxInputSize * 8 % 2 ^ 64) / (width / 8)

/-- How many heads are set to the end of a chain. The shift has no value from 64 bits on, LLVM
counts the size of the array in bits, and the `memset` must stay inside of it. -/
def HashGroupByChained.heads (groupBy : HashGroupByChained) : Option Nat :=
  let bytes := 2 ^ groupBy.hashBits * 4 % 2 ^ 64
  if groupBy.hashBits < 64 ∧ bytes ≤ fixSize (2 ^ groupBy.hashBits * 32 % 2 ^ 64 / 8) then
    some (bytes / 4) else none

/-- `~0`, the end of a chain. -/
def eochain : BitVec 32 := BitVec.allOnes 32

structure Table (K M : Type) where
  head : List (BitVec 32)
  cnt : BitVec 32
  next : List (Option (BitVec 32))
  keys : List (Option K)
  aggregates : List (Option M)

/-- `open`, and the heads as the state variable is made. -/
def HashGroupByChained.opened (groupBy : HashGroupByChained) : Option (Table K M) := do
  let heads ← groupBy.heads
  return {
    head := List.replicate heads eochain
    cnt := 0
    next := List.replicate (groupBy.room 32) none
    keys := List.replicate (groupBy.room groupBy.keyWidth) none
    aggregates := List.replicate (groupBy.room groupBy.aggregateWidth) none }

def Table.newEntry (table : Table K M) (key : K) (value : M) : Option (Table K M × BitVec 32) := do
  let idx := table.cnt
  let next ← put idx eochain table.next
  let keys ← put idx key table.keys
  let aggregates ← put idx value table.aggregates
  return ({ table with cnt := idx + 1, next, keys, aggregates }, idx)

def Table.entryFor (table : Table K M) (key : K) (value : M) : Option (BitVec 32) →
    Option (Table K M × BitVec 32)
  | some idx => some (table, idx)
  | none => table.newEntry key value

variable [AddMonoid M]

def Table.bucketFound (table : Table K M) (current : BitVec 32) (value : M)
    (written : Option (BitVec 32)) :
    Option (Table K M) := do
  let total ← fetch current table.aggregates
  let aggregates ← put current (total + value) table.aggregates
  match written with
  | none => return { table with aggregates }
  | some idx =>
    let next ← put idx idx table.next
    return { table with aggregates, next }

variable [DecidableEq K]

def Table.chainFollow (key : K) (value : M) : Nat → Option (BitVec 32) → BitVec 32 → Table K M →
    Option (Table K M)
  | 0, _, _, _ => none
  | passes + 1, written, current, table => do
    let stored ← fetch current table.keys
    let next ← fetch current table.next
    if stored = key then table.bucketFound current value written
    else if next = eochain then
      let (table, idx) ← table.entryFor key value written
      let newNext ← fetch current table.next
      if newNext = eochain then
        let next ← put current idx table.next
        return { table with next }
      else chainFollow key value passes (some idx) newNext table
    else chainFollow key value passes written next table

/-- `generate_build` for a tuple. -/
def HashGroupByChained.build (groupBy : HashGroupByChained) (hash : K → Nat) (passes : Nat)
    (table : Table K M)
    (tuple : K × M) : Option (Table K M) := do
  let bucket := hash tuple.1 % 2 ^ groupBy.hashBits
  let current ← table.head[bucket]?
  if current = eochain then
    let (table, idx) ← table.newEntry tuple.1 tuple.2
    -- the exchange succeeds if the head is what it was
    let old ← table.head[bucket]?
    if old = eochain then return { table with head := table.head.set bucket idx }
    else table.chainFollow tuple.1 tuple.2 passes (some idx) old
  else table.chainFollow tuple.1 tuple.2 passes none current

def Table.scanEntry (table : Table K M) (i : Nat) : Option (Option (K × M)) := do
  let next ← table.next[i]?.join
  let key ← table.keys[i]?.join
  let aggregate ← table.aggregates[i]?.join
  return if next.toNat = i then none else some (key, aggregate)

/-- `generate_scan` -/
def Table.scan (table : Table K M) : Option (List (K × M)) :=
  ((List.range table.cnt.toNat).mapM table.scanEntry).map List.reduceOption

/-- The assertion of `close`, `h_cnt <= maxInputSize`: the signed counter becomes a `size_t`. -/
def HashGroupByChained.closes (groupBy : HashGroupByChained) (ndebug : Bool) (table : Table K M) :
    Prop :=
  ndebug = true ∨ (table.cnt.signExtend 64).toNat ≤ groupBy.maxInputSize

instance HashGroupByChained.decidableCloses (groupBy : HashGroupByChained) (ndebug : Bool)
    (table : Table K M) :
    Decidable (groupBy.closes ndebug table) := by
  unfold closes
  infer_instance

/-- The build over a stream of tuples, the scan and the close. -/
def HashGroupByChained.run (groupBy : HashGroupByChained) (ndebug : Bool) (hash : K → Nat)
    (passes : Nat)
    (stream : List (K × M)) : Option (List (K × M)) := do
  let opened ← groupBy.opened
  let table ← stream.foldlM (groupBy.build hash passes) opened
  let groups ← table.scan
  if groupBy.closes ndebug table then return groups else none

/-! ### What grouping is -/

/-- The fold of a key's values. -/
def total (stream : List (K × M)) (key : K) : M :=
  ((stream.filter fun tuple => tuple.1 = key).map Prod.snd).sum

/-- One entry for each key of the stream, with the fold of its values, and nothing else. -/
def ExactGroups (stream groups : List (K × M)) : Prop :=
  (groups.map Prod.fst).Nodup ∧ ∀ entry, entry ∈ groups ↔ entry.1 ∈ stream.map Prod.fst ∧
    entry.2 = total stream entry.1

def accumulate (key : K) (value : M) : List (K × M) → List (K × M)
  | [] => [(key, value)]
  | entry :: rest =>
    if entry.1 = key then (entry.1, entry.2 + value) :: rest else entry :: accumulate key value rest

def groupsOf (stream : List (K × M)) : List (K × M) :=
  stream.foldl (fun groups tuple => accumulate tuple.1 tuple.2 groups) []

end

/-! ### The accumulation is exact -/

open Prod

section

variable {K M : Type} {gs : List (K × M)}

theorem exists_entry {k : K} (ht : k ∈ gs.map fst) :
    ∃ b v a, gs = b ++ (k, v) :: a ∧ k ∉ b.map fst := by
  induction gs with
  | nil => exact absurd ht not_mem_nil
  | cons e tl ih =>
    by_cases own : e.1 = k
    · exact ⟨[], e.2, tl, by rw [← own]; rfl, not_mem_nil⟩
    · rw [map_cons, mem_cons] at ht
      obtain ⟨b, v, a, rfl, hf⟩ := ih (ht.resolve_left (Ne.symm own))
      refine ⟨e :: b, v, a, rfl, ?_⟩
      rw [map_cons, mem_cons, not_or]
      exact ⟨Ne.symm own, hf⟩

variable [AddMonoid M] [DecidableEq K]

theorem accumulate_new {k : K} (new : k ∉ gs.map fst) (v : M) :
    accumulate k v gs = gs ++ [(k, v)] := by
  induction gs with
  | nil => rfl
  | cons e tl ih =>
    rw [map_cons, mem_cons, not_or] at new
    rw [accumulate, if_neg (Ne.symm new.1), ih new.2, cons_append]

theorem accumulate_found {k : K} {b : List (K × M)} (hf : k ∉ b.map fst)
    (before_value v : M) (a : List (K × M)) :
    accumulate k v (b ++ (k, before_value) :: a) = b ++ (k, before_value + v) :: a := by
  induction b with
  | nil => rw [nil_append, accumulate, if_pos rfl, nil_append]
  | cons e tl ih =>
    rw [map_cons, mem_cons, not_or] at hf
    rw [cons_append, accumulate, if_neg (Ne.symm hf.1), ih hf.2, cons_append]

theorem total_append_self (s : List (K × M)) (k : K) (v : M) :
    total (s ++ [(k, v)]) k = total s k + v := by
  unfold total
  rw [filter_append, filter_cons_of_pos (by simp), filter_nil, map_append, sum_append]
  simp

theorem total_append_ne (s : List (K × M)) {k o : K} (ha : o ≠ k) (v : M) :
    total (s ++ [(k, v)]) o = total s o := by
  unfold total
  rw [filter_append, filter_cons_of_neg (by simpa using Ne.symm ha), filter_nil, append_nil]

theorem total_absent {s : List (K × M)} {k : K} (ha : k ∉ s.map fst) : total s k = 0 := by
  have hn : s.filter (fun t => t.1 = k) = [] := by
    rw [filter_eq_nil_iff]
    intro t hm own
    exact ha (mem_map.mpr ⟨t, hm, of_decide_eq_true own⟩)
  unfold total
  rw [hn]
  rfl

theorem entry_append_iff (s : List (K × M)) {k : K} (v : M) {e : K × M} (ha : e.1 ≠ k) :
    e.1 ∈ (s ++ [(k, v)]).map fst ∧ e.2 = total (s ++ [(k, v)]) e.1 ↔
      e.1 ∈ s.map fst ∧ e.2 = total s e.1 := by
  rw [total_append_ne s ha, map_append, mem_append, map_singleton, mem_singleton, or_iff_left ha]

theorem ExactGroups.keys {s : List (K × M)} (he : ExactGroups s gs) (k : K) :
    k ∈ gs.map fst ↔ k ∈ s.map fst := by
  constructor
  · intro hm
    obtain ⟨e, ht, rfl⟩ := mem_map.mp hm
    exact ((he.2 e).mp ht).1
  · intro hm
    exact mem_map.mpr ⟨(k, total s k), (he.2 _).mpr ⟨hm, rfl⟩, rfl⟩

/-- **One more tuple.** -/
theorem ExactGroups.accumulate {stream : List (K × M)} (exactly : ExactGroups stream gs) (key : K)
    (value : M) : ExactGroups (stream ++ [(key, value)]) (accumulate key value gs) := by
  have last : key ∈ (stream ++ [(key, value)]).map fst := by
    rw [map_append]
    exact mem_append_right _ (mem_singleton_self key)
  by_cases there : key ∈ gs.map fst
  · obtain ⟨before, sum, after, rfl, first⟩ := exists_entry there
    rw [accumulate_found first]
    have distinct := exactly.1
    rw [map_append, map_cons] at distinct
    have old : sum = total stream key :=
      ((exactly.2 (key, sum)).mp (mem_append_right _ mem_cons_self)).2
    refine ⟨by rw [map_append, map_cons]; exact distinct, fun entry => ?_⟩
    have others : entry.1 = key → entry ∉ before ∧ entry ∉ after := fun own => by
      refine ⟨fun early => first (mem_map.mpr ⟨entry, early, own⟩), fun late => ?_⟩
      exact (nodup_cons.mp distinct.of_append_right).1 (mem_map.mpr ⟨entry, late, own⟩)
    rw [mem_append, mem_cons]
    by_cases own : entry.1 = key
    · obtain ⟨early, late⟩ := others own
      obtain ⟨entry_key, entry_sum⟩ := entry
      obtain rfl : entry_key = key := own
      rw [or_iff_right early, or_iff_left late, total_append_self, ← old, mk.injEq]
      exact ⟨fun same => ⟨last, same.2⟩, fun same => ⟨rfl, same.2⟩⟩
    · rw [entry_append_iff stream value own, ← exactly.2, mem_append, mem_cons]
      have fresh : ∀ sum, entry ≠ (key, sum) := fun sum same => own (by rw [same])
      rw [or_iff_right (fresh _), or_iff_right (fresh _)]
  · rw [accumulate_new there]
    have absent : key ∉ stream.map fst := fun member => there ((exactly.keys key).mpr member)
    refine ⟨?_, fun entry => ?_⟩
    · rw [map_append, map_singleton]
      refine nodup_append.mpr ⟨exactly.1, nodup_singleton _, ?_⟩
      intro first member second new same
      rw [same, mem_singleton.mp new] at member
      exact there member
    · rw [mem_append, mem_singleton]
      by_cases own : entry.1 = key
      · obtain ⟨entry_key, entry_sum⟩ := entry
        obtain rfl : entry_key = key := own
        have old : (entry_key, entry_sum) ∉ gs := fun member =>
          there (mem_map.mpr ⟨_, member, rfl⟩)
        rw [or_iff_right old, total_append_self, total_absent absent, zero_add, mk.injEq]
        exact ⟨fun same => ⟨last, same.2⟩, fun same => ⟨rfl, same.2⟩⟩
      · rw [entry_append_iff stream value own, ← exactly.2]
        exact or_iff_left fun same => own (by rw [same])

/-- **The accumulation is exact.** -/
theorem groups_exact (s : List (K × M)) : ExactGroups s (groupsOf s) := by
  induction s using List.reverseRecOn with
  | nil =>
    refine ⟨nodup_nil, fun e => ⟨fun hm => absurd hm not_mem_nil, ?_⟩⟩
    intro hb
    exact absurd hb.1 not_mem_nil
  | append_singleton s t ih =>
    have hs : groupsOf (s ++ [t]) = GroupBy.accumulate t.1 t.2 (groupsOf s) := foldl_append
    rw [hs]
    exact ih.accumulate t.1 t.2

theorem length_groupsOf (s : List (K × M)) : (groupsOf s).length = (s.map fst).toFinset.card := by
  have he := groups_exact s
  rw [← length_map fst, ← toFinset_card_of_nodup he.1]
  congr 1
  ext k
  rw [List.mem_toFinset, List.mem_toFinset]
  exact he.keys k

end

/-! ### Loads and stores -/

section

variable {α : Type} {i o : BitVec 32} {a : List (Option α)}

theorem toInt_nonneg_iff (i : BitVec 32) : 0 ≤ i.toInt ↔ i.toNat < 2 ^ 31 := by
  have hs := BitVec.toInt_eq_toNat_cond i
  have hb := i.isLt
  split_ifs at hs <;> omega

theorem fetch_eq (hs : i.toNat < 2 ^ 31) (a : List (Option α)) : fetch i a = a[i.toNat]?.join := by
  unfold fetch
  rw [if_pos ((toInt_nonneg_iff i).mpr hs)]

theorem put_eq (hs : i.toNat < 2 ^ 31) (hi : i.toNat < a.length) (v : α) :
    put i v a = some (a.set i.toNat (some v)) := by
  have hn : i.toInt = i.toNat := BitVec.toInt_eq_toNat_of_lt (by omega)
  unfold put
  rw [if_pos (by omega)]

theorem put_large (hl : ¬ i.toNat < 2 ^ 31) (v : α) (a : List (Option α)) : put i v a = none := by
  unfold put
  rw [if_neg fun hb => hl ((toInt_nonneg_iff i).mp hb.1)]

theorem fetch_set_self (hs : i.toNat < 2 ^ 31) (hi : i.toNat < a.length) (v : α) :
    fetch i (a.set i.toNat (some v)) = some v := by
  rw [fetch_eq hs, List.getElem?_set_self hi]
  rfl

theorem fetch_set_ne (ha : o ≠ i) (v : Option α) : fetch o (a.set i.toNat v) = fetch o a := by
  unfold fetch
  rw [List.getElem?_set_ne fun hs => ha (BitVec.eq_of_toNat_eq hs.symm)]

end

/-! ### Tables and lists of groups -/

open Nat Proteus.Olap.GroupBy.Table

section

variable {K M : Type} {groupBy : HashGroupByChained} {hash : K → Nat} {table t : Table K M}
    {groups : List (K × M)}

/-- The keys with the indices of their entries. -/
def slots (keys : List K) : List (BitVec 32 × K) :=
  keys.zipIdx.map fun entry => (BitVec.ofNat 32 entry.2, entry.1)

def HashGroupByChained.bucketOf (groupBy : HashGroupByChained) (hash : K → Nat)
    (slot : BitVec 32 × K) : Nat :=
  hash slot.2 % 2 ^ groupBy.hashBits

/-- The link of an entry. -/
def Table.Link (table : Table K M) (slot : BitVec 32 × K) (head : BitVec 32) : Prop :=
  fetch slot.1 table.next = some head

/-- The table has these groups, in the order of their entries. -/
structure Represents (groupBy : HashGroupByChained) (hash : K → Nat) (table : Table K M)
    (groups : List (K × M)) :
    Prop where
  count : table.cnt.toNat = groups.length
  small : groups.length ≤ 2 ^ 31
  buckets : table.head.length = 2 ^ groupBy.hashBits
  roomNext : groupBy.maxInputSize ≤ table.next.length
  roomKeys : groupBy.maxInputSize ≤ table.keys.length
  roomAggregates : groupBy.maxInputSize ≤ table.aggregates.length
  heads : ∀ bucket < 2 ^ groupBy.hashBits, table.head[bucket]? =
    some (headOf eochain Prod.fst (groupBy.bucketOf hash) bucket (slots (groups.map Prod.fst)))
  threaded : Threaded eochain Prod.fst (groupBy.bucketOf hash) table.Link
    (slots (groups.map Prod.fst))
  keys : ∀ i : Nat, ∀ entry, groups[i]? = some entry → table.keys[i]? = some (some entry.1)
  aggregates : ∀ i : Nat, ∀ entry, groups[i]? = some entry →
    table.aggregates[i]? = some (some entry.2)

/-- The sizes that are computed in 64 bits are not too large for them. -/
structure HashGroupByChained.Fits (groupBy : HashGroupByChained) : Prop where
  bits : groupBy.hashBits < 59
  packets : ∀ width ∈ [32, groupBy.keyWidth, groupBy.aggregateWidth],
    8 ≤ width ∧ width / 8 * groupBy.maxInputSize * 8 < 2 ^ 64 - 15

theorem le_fixSize {bs : Nat} (hs : bs < 2 ^ 64 - 15) : bs ≤ fixSize bs :=
  (le_max_left bs 1).trans (fixSize_spec (by omega)).1

theorem HashGroupByChained.Fits.heads_eq (hf : groupBy.Fits) :
    groupBy.heads = some (2 ^ groupBy.hashBits) := by
  have hs : 2 ^ groupBy.hashBits ≤ 2 ^ 58 := Nat.pow_le_pow_right two_pos (le_of_lt_succ hf.bits)
  have hbi := hf.bits
  have ha : 2 ^ groupBy.hashBits * 4 ≤ fixSize (2 ^ groupBy.hashBits * 4) := le_fixSize (by omega)
  have hb : 2 ^ groupBy.hashBits * 4 % 2 ^ 64 = 2 ^ groupBy.hashBits * 4 :=
    Nat.mod_eq_of_lt (by omega)
  have har : 2 ^ groupBy.hashBits * 32 % 2 ^ 64 / 8 = 2 ^ groupBy.hashBits * 4 := by omega
  unfold heads
  rw [hb, har, if_pos ⟨by omega, ha⟩, Nat.mul_div_cancel _ (by decide)]

theorem HashGroupByChained.Fits.le_room (hf : groupBy.Fits) {w : Nat}
    (hp : w ∈ [32, groupBy.keyWidth, groupBy.aggregateWidth]) :
        groupBy.maxInputSize ≤ groupBy.room w := by
  obtain ⟨hw, hs⟩ := hf.packets w hp
  unfold room
  rw [Nat.mod_eq_of_lt (by omega), Nat.le_div_iff_mul_le (by omega)]
  calc groupBy.maxInputSize * (w / 8) = w / 8 * groupBy.maxInputSize := Nat.mul_comm ..
    _ ≤ w / 8 * groupBy.maxInputSize * 8 := Nat.le_mul_of_pos_right _ (by decide)
    _ ≤ _ := le_fixSize hs

theorem HashGroupByChained.Fits.opened_represents (hf : groupBy.Fits) (hash : K → Nat) :
    ∃ opened : Table K M, groupBy.opened = some opened ∧ Represents groupBy hash opened [] := by
  refine ⟨_, by rw [opened, hf.heads_eq]; rfl, ?_⟩
  exact {
    count := rfl
    small := zero_le _
    buckets := length_replicate
    roomNext := (hf.le_room (by simp)).trans_eq length_replicate.symm
    roomKeys := (hf.le_room (by simp)).trans_eq length_replicate.symm
    roomAggregates := (hf.le_room (by simp)).trans_eq length_replicate.symm
    heads := fun _ hi => List.getElem?_replicate_of_lt hi
    threaded := trivial
    keys := fun _ _ ha => absurd ha (by simp)
    aggregates := fun _ _ ha => absurd ha (by simp) }

theorem slots_append (ke : List K) (k : K) :
    slots (ke ++ [k]) = slots ke ++ [(BitVec.ofNat 32 ke.length, k)] := by
  unfold slots
  rw [List.zipIdx_append, List.map_append, zero_add]
  rfl

variable {ke : List K}

theorem mem_slots {s : BitVec 32 × K} :
    s ∈ slots ke ↔ ∃ i : Nat, ke[i]? = some s.2 ∧ s.1 = BitVec.ofNat 32 i := by
  unfold slots
  rw [List.mem_map]
  constructor
  · intro him
    obtain ⟨e, hm, rfl⟩ := him
    exact ⟨e.2, List.mem_zipIdx_iff_getElem?.mp hm, rfl⟩
  · intro hp
    obtain ⟨i, ht, hi⟩ := hp
    exact ⟨(s.2, i), mem_zipIdx_iff_getElem?.mpr ht, by rw [← hi]⟩

theorem slots_split (b : List K) (k : K) (a : List K) :
    ∃ tl, slots (b ++ k :: a) = slots b ++ (BitVec.ofNat 32 b.length, k) :: tl ∧
      ∀ s ∈ tl, ∃ i, b.length < i ∧ i < (b ++ k :: a).length ∧ s.1 = BitVec.ofNat 32 i := by
  unfold slots
  rw [zipIdx_append, map_append, zipIdx_cons, map_cons, zero_add]
  refine ⟨_, rfl, fun s hm => ?_⟩
  obtain ⟨e, ht, rfl⟩ := mem_map.mp hm
  obtain ⟨ha, hb, -⟩ := mem_zipIdx ht
  rw [length_append, length_cons]
  exact ⟨e.2, by omega, by omega, rfl⟩

theorem mem_slots_key {s : BitVec 32 × K} (hm : s ∈ slots ke) : s.2 ∈ ke := by
  obtain ⟨i, ht, -⟩ := mem_slots.mp hm
  exact mem_of_getElem? ht

variable (few : ke.length ≤ 2 ^ 31)

include few

theorem slot_index {s : BitVec 32 × K} (hm : s ∈ slots ke) :
    ke[s.1.toNat]? = some s.2 ∧ s.1.toNat < ke.length := by
  obtain ⟨i, ht, hin⟩ := mem_slots.mp hm
  have hi : i < ke.length := (List.getElem?_eq_some_iff.mp ht).1
  have hs : s.1.toNat = i := by
    rw [hin, BitVec.toNat_ofNat]
    omega
  rw [hs]
  exact ⟨ht, hi⟩

theorem slot_ne_eochain {s : BitVec 32 × K} (hm : s ∈ slots ke) : s.1 ≠ eochain := by
  intro hl
  have hi := (slot_index few hm).2
  have hla : eochain.toNat = 2 ^ 32 - 1 := by decide
  rw [hl, hla] at hi
  omega

theorem slot_unique {f s : BitVec 32 × K}
    (first_member : f ∈ slots ke) (second_member : s ∈ slots ke) (hs : f.1 = s.1) :
    f = s := by
  have hl := (slot_index few first_member).1
  have hr := (slot_index few second_member).1
  rw [hs] at hl
  exact Prod.ext hs (some.inj (hl.symm.trans hr))

omit few

def Table.visit (table : Table K M) (current : BitVec 32) : Option (BitVec 32 × BitVec 32 × K) := do
  let stored ← fetch current table.keys
  let next ← fetch current table.next
  return (next, current, stored)

theorem Represents.chain (hr : Represents groupBy hash t groups) (b : Nat) :
    Chain t.visit eochain (headOf eochain fst (groupBy.bucketOf hash) b (slots (groups.map fst)))
      ((slots (groups.map fst)).filter fun s => groupBy.bucketOf hash s = b) := by
  have few : (groups.map fst).length ≤ 2 ^ 31 := by
    rw [List.length_map]
    exact hr.small
  have hlo : ∀ s ∈ slots (groups.map fst), ∀ hd, t.Link s hd →
      s.1 ≠ eochain ∧ t.visit s.1 = some (hd, s) := by
    intro s hm hd hl
    refine ⟨slot_ne_eochain few hm, ?_⟩
    obtain ⟨ht, hi⟩ := slot_index few hm
    rw [List.getElem?_map, map_eq_some_iff] at ht
    obtain ⟨e, hf, key⟩ := ht
    have hs : fetch s.1 t.keys = some s.2 := by
      rw [fetch_eq (lt_of_lt_of_le hi few), hr.keys _ e hf, key]
      rfl
    have hn := hl
    unfold visit
    rw [hs, hn]
    rfl
  have hc := hr.threaded.chain id hlo b
  rwa [List.map_id] at hc

theorem visit_eq_some {c n : BitVec 32} {s : BitVec 32 × K} (hv : t.visit c = some (n, s)) :
    s.1 = c ∧ fetch c t.keys = some s.2 ∧ fetch c t.next = some n := by
  obtain ⟨st, key, hl⟩ := bind_eq_some_iff.mp hv
  obtain ⟨l, hf, all⟩ := bind_eq_some_iff.mp hl
  obtain ⟨rfl, rfl⟩ := mk.inj (some.inj all)
  exact ⟨rfl, key, hf⟩

end

/-! ### The walk along a chain -/

variable {passes : Nat}

section

variable {K M : Type} [DecidableEq K] [AddMonoid M] {ta : Table K M} {k : K} {c : BitVec 32}

theorem chainFollow_reaches (v : M) {xs b a : List (BitVec 32 × K)} {s : BitVec 32 × K}
    (hc : Chain ta.visit eochain c xs) (hsp : xs = b ++ s :: a)
    (ho : ∀ p ∈ b, p.2 ≠ k) (he : xs.length ≤ passes) :
    ∃ l n, ta.chainFollow k v passes none c = ta.chainFollow k v (l + 1) none s.1 ∧
        ta.visit s.1 = some (n, s) ∧ Chain ta.visit eochain n a := by
  induction hc generalizing b passes with
  | stop => exact absurd hsp (by simp)
  | @link i n x tl hi hl ht ih =>
    obtain ⟨l, rfl⟩ := exists_eq_succ_of_ne_zero (ne_of_gt (lt_of_lt_of_le (succ_pos _) he))
    obtain ⟨hh, hs, hli⟩ := visit_eq_some hl
    cases b with
    | nil =>
      obtain ⟨rfl, rfl⟩ := List.cons.inj hsp
      exact ⟨l, n, by rw [hh], by rw [hh]; exact hl, ht⟩
    | cons fi b =>
      obtain ⟨rfl, rfl⟩ := List.cons.inj hsp
      rw [forall_mem_cons] at ho
      -- there is an entry left, so the chain goes on
      have hm : n ≠ eochain := by
        cases b <;> exact ht.ne_last
      obtain ⟨f, link_at, hw, hf⟩ := ih rfl ho.2 (le_of_succ_le_succ he)
      refine ⟨f, link_at, ?_, hf⟩
      rw [← hw, chainFollow, hs, hli]
      simp only [bind_eq_bind, bind_some, if_neg ho.1, if_neg hm]

theorem chainFollow_found {s : BitVec 32 × K} {n : BitVec 32} (v : M)
    (hv : ta.visit s.1 = some (n, s)) (own : s.2 = k) (l : Nat) :
    ta.chainFollow k v (l + 1) none s.1 = ta.bucketFound s.1 v none := by
  obtain ⟨-, hs, hl⟩ := visit_eq_some hv
  rw [chainFollow, hs, hl]
  simp only [bind_eq_bind, bind_some, if_pos own]

theorem chainFollow_end {s : BitVec 32 × K} (v : M) (hv : ta.visit s.1 = some (eochain, s))
    (ho : s.2 ≠ k) (l : Nat) :
    ta.chainFollow k v (l + 1) none s.1 = (do
      let (ta, idx) ← ta.newEntry k v
      let nn ← fetch s.1 ta.next
      if nn = eochain then
        let next ← put s.1 idx ta.next
        return { ta with next }
      else ta.chainFollow k v l (some idx) nn) := by
  obtain ⟨-, hs, hl⟩ := visit_eq_some hv
  rw [chainFollow, hs, hl]
  simp only [bind_eq_bind, bind_some, if_neg ho, if_true]
  rfl

end

/-! ### New entries -/

section

variable {K M : Type} {gb : HashGroupByChained} {h : K → Nat} {table : Table K M}
    {gs : List (K × M)}

def Table.withEntry (table : Table K M) (key : K) (value : M) : Table K M :=
  { table with
    cnt := table.cnt + 1
    next := table.next.set table.cnt.toNat (some eochain)
    keys := table.keys.set table.cnt.toNat (some key)
    aggregates := table.aggregates.set table.cnt.toNat (some value) }

section

variable (represents : Represents gb h table gs)

include represents

theorem Represents.few : (gs.map fst).length ≤ 2 ^ 31 := by
  rw [length_map]
  exact represents.small

theorem Represents.newEntry_eq (hf : gs.length < 2 ^ 31) (hr : gs.length < gb.maxInputSize)
    (k : K) (v : M) : table.newEntry k v = some (table.withEntry k v, table.cnt) := by
  have hs : table.cnt.toNat < 2 ^ 31 := by
    rw [represents.count]
    exact hf
  have hi : table.cnt.toNat < gb.maxInputSize := by
    rw [represents.count]
    exact hr
  unfold newEntry
  dsimp only
  rw [put_eq hs (lt_of_lt_of_le hi represents.roomNext),
    put_eq hs (lt_of_lt_of_le hi represents.roomKeys),
    put_eq hs (lt_of_lt_of_le hi represents.roomAggregates)]
  rfl

theorem Represents.newEntry_full (hf : ¬ gs.length < 2 ^ 31) (k : K) (v : M) :
    table.newEntry k v = none := by
  have hl : ¬ table.cnt.toNat < 2 ^ 31 := by
    rw [represents.count]
    exact hf
  unfold newEntry
  dsimp only
  rw [put_large hl]
  rfl

theorem Represents.slots_new (k : K) (v : M) :
    slots ((gs ++ [(k, v)]).map fst) = slots (gs.map fst) ++ [(table.cnt, k)] := by
  have hi : BitVec.ofNat 32 gs.length = table.cnt := by
    rw [← represents.count, BitVec.ofNat_toNat, BitVec.setWidth_eq]
  rw [map_append, map_singleton, slots_append, length_map, hi]

theorem Represents.slot_ne_cnt {s : BitVec 32 × K} (hm : s ∈ slots (gs.map fst)) :
    s.1 ≠ table.cnt := by
  intro hs
  have hi := (slot_index represents.few hm).2
  rw [hs, represents.count, length_map] at hi
  exact lt_irrefl _ hi

end

theorem getElem?_set_append {α β : Type} {a : List (Option α)} {xs : List β} {f : β → α} (new : β)
    (ht : ∀ i : Nat, ∀ x, xs[i]? = some x → a[i]? = some (some (f x)))
    (hr : xs.length < a.length) (i : Nat) (x : β) (hf : (xs ++ [new])[i]? = some x) :
    (a.set xs.length (some (f new)))[i]? = some (some (f x)) := by
  by_cases hl : i = xs.length
  · subst hl
    rw [List.getElem?_concat_length] at hf
    rw [List.getElem?_set_self hr, ← some.inj hf]
  · have hb : i < xs.length := by
      have hi := (List.getElem?_eq_some_iff.mp hf).1
      rw [length_append, length_singleton] at hi
      omega
    rw [List.getElem?_append_left hb] at hf
    rw [List.getElem?_set_ne (Ne.symm hl)]
    exact ht i x hf

/-- **One more group**: what is left to show is that it is in its chain. -/
theorem Represents.extend (hre : Represents gb h table gs) (hf : gs.length < 2 ^ 31)
    (hr : gs.length < gb.maxInputSize) (k : K) (v : M) {head : List (BitVec 32)}
    {next : List (Option (BitVec 32))} {a : Table K M}
    (hd : a = { table.withEntry k v with head, next })
    (hbu : head.length = 2 ^ gb.hashBits) (hrn : gb.maxInputSize ≤ next.length)
    (hh : ∀ b < 2 ^ gb.hashBits, head[b]? = some (headOf eochain fst (gb.bucketOf h) b
      (slots (gs.map fst) ++ [(table.cnt, k)])))
    (ht : Threaded eochain fst (gb.bucketOf h) a.Link (slots (gs.map fst) ++ [(table.cnt, k)])) :
    Represents gb h a (gs ++ [(k, v)]) := by
  have slots_eq := hre.slots_new k v
  have hk := getElem?_set_append (k, v) hre.keys (lt_of_lt_of_le hr hre.roomKeys)
  have ha := getElem?_set_append (k, v) hre.aggregates (lt_of_lt_of_le hr hre.roomAggregates)
  rw [← hre.count] at hk ha
  subst hd
  refine ⟨?_, ?_, hbu, hrn, hre.roomKeys.trans_eq (length_set ..).symm,
    hre.roomAggregates.trans_eq (length_set ..).symm, ?_, ?_, hk, ha⟩
  · show (table.cnt + 1).toNat = _
    have hb := hre.count
    rw [BitVec.toNat_add, length_append, length_singleton, hb]
    exact mod_eq_of_lt (by show gs.length + 1 < 2 ^ 32; omega)
  · rw [length_append, length_singleton]
    exact hf
  · rw [slots_eq]
    exact hh
  · rw [slots_eq]
    exact ht

end

/-! ### A tuple -/

section

variable {K M : Type} {gb : HashGroupByChained} {h : K → Nat} {ta : Table K M} {gs : List (K × M)}

theorem length_chain_le (gb : HashGroupByChained) (h : K → Nat) (k : List K) (b : Nat) :
    ((slots k).filter fun s => gb.bucketOf h s = b).length ≤ k.length := by
  refine le_trans (length_filter_le ..) (le_of_eq ?_)
  unfold slots
  rw [length_map, length_zipIdx]

section

variable (represents : Represents gb h ta gs) (fits : gs.length < 2 ^ 31)
    (room : gs.length < gb.maxInputSize) (k : K) (v : M)

include represents fits room

theorem Represents.first (he : headOf eochain fst (gb.bucketOf h) (h k % 2 ^ gb.hashBits)
      (slots (gs.map fst)) = eochain) :
    Represents gb h { ta.withEntry k v with
      head := ta.head.set (h k % 2 ^ gb.hashBits) ta.cnt } (gs ++ [(k, v)]) := by
  have hi : ∀ s ∈ slots (gs.map fst), s.1 ≠ eochain := fun s => slot_ne_eochain represents.few
  have ha := (headOf_eq_last_iff hi _).mp he
  have hsm : ta.cnt.toNat < 2 ^ 31 := by
    rw [represents.count]
    exact fits
  refine represents.extend fits room k v rfl ((length_set ..).trans represents.buckets)
    (represents.roomNext.trans_eq (length_set ..).symm) (fun b hv => ?_) ?_
  · rw [headOf_append hi]
    by_cases own : h k % 2 ^ gb.hashBits = b
    · rw [← own, if_pos ⟨he, rfl⟩,
        List.getElem?_set_self (by rw [represents.buckets]; exact Nat.mod_lt _ (Nat.two_pow_pos _))]
    · rw [if_neg fun hb => own hb.2, List.getElem?_set_ne own]
      exact represents.heads b hv
  · refine represents.threaded.append hi (fun s hm hd hl _ => ?_) (fun s hm _ hs => ?_) ?_
    · exact (fetch_set_ne (represents.slot_ne_cnt hm) _).trans hl
    · exact absurd hs (ha s hm)
    · refine fetch_set_self hsm (lt_of_lt_of_le ?_ represents.roomNext) _
      rw [represents.count]
      exact room

theorem Represents.append {s : BitVec 32 × K} (hm : s ∈ slots (gs.map fst))
    (hs : gb.bucketOf h s = h k % 2 ^ gb.hashBits)
    (hen : ta.Link s eochain) :
    Represents gb h { ta.withEntry k v with
      next := (ta.withEntry k v).next.set s.1.toNat (some ta.cnt) } (gs ++ [(k, v)]) := by
  have hi : ∀ s ∈ slots (gs.map fst), s.1 ≠ eochain := fun s => slot_ne_eochain represents.few
  have hf : ∀ s ∈ slots (gs.map fst), ∀ hd, ta.Link s hd → ta.Link s eochain →
      hd = eochain := fun s _ hd hli hl => some.inj (hli.symm.trans hl)
  have hsm : ta.cnt.toNat < 2 ^ 31 := by
    rw [represents.count]
    exact fits
  have ho : headOf eochain fst (gb.bucketOf h) (h k % 2 ^ gb.hashBits)
      (slots (gs.map fst)) ≠ eochain := fun he =>
    (headOf_eq_last_iff hi _).mp he s hm hs
  refine represents.extend fits room k v rfl represents.buckets ?_ (fun b hv => ?_) ?_
  · rw [length_set]
    exact represents.roomNext.trans_eq (length_set ..).symm
  · rw [headOf_append hi, if_neg]
    · exact represents.heads b hv
    · intro hb
      have own : h k % 2 ^ gb.hashBits = b := hb.2
      exact ho (own ▸ hb.1)
  · refine represents.threaded.append hi (fun o ht hd hli open_end => ?_) (fun o ht hl own => ?_) ?_
    · -- the entry at the end is the only one whose link changes
      have ha : o.1 ≠ s.1 := by
        intro hin
        obtain rfl := slot_unique represents.few ht hm hin
        exact open_end hs (hf o ht hd hli hen)
      exact (fetch_set_ne ha _).trans ((fetch_set_ne (represents.slot_ne_cnt ht) _).trans hli)
    · obtain rfl := represents.threaded.end_unique hi hf ht hm (own.trans hs.symm) hl hen
      refine fetch_set_self (lt_of_lt_of_le (slot_index represents.few ht).2 represents.few) ?_ _
      have hin := (slot_index represents.few ht).2
      rw [length_map] at hin
      have hi := represents.roomNext
      show o.1.toNat < (ta.next.set _ _).length
      rw [length_set]
      omega
    · refine (fetch_set_ne (Ne.symm (represents.slot_ne_cnt hm)) _).trans
        (fetch_set_self hsm (lt_of_lt_of_le ?_ represents.roomNext) _)
      rw [represents.count]
      exact room

end

variable [AddMonoid M] {sum : M}

theorem Represents.update {b a : List (K × M)} {k : K}
    (hr : Represents gb h ta (b ++ (k, sum) :: a)) (v : M) :
    Represents gb h { ta with aggregates := ta.aggregates.set b.length (some (sum + v)) }
      (b ++ (k, sum + v) :: a) := by
  have hk : (b ++ (k, sum + v) :: a).map fst = (b ++ (k, sum) :: a).map fst := by
    rw [map_append, map_append, map_cons, map_cons]
  have hl : (b ++ (k, sum + v) :: a).length = (b ++ (k, sum) :: a).length := by
    rw [length_append, length_append, length_cons, length_cons]
  have he (i : Nat) (e : K × M) (hf : (b ++ (k, sum + v) :: a)[i]? = some e) :
      i = b.length ∧ e = (k, sum + v) ∨ i ≠ b.length ∧ (b ++ (k, sum) :: a)[i]? = some e := by
    by_cases own : i = b.length
    · subst own
      rw [List.getElem?_append_right le_rfl, Nat.sub_self, List.getElem?_cons_zero] at hf
      exact .inl ⟨rfl, (some.inj hf).symm⟩
    · refine .inr ⟨own, ?_⟩
      rw [← hf]
      by_cases hea : i < b.length
      · rw [List.getElem?_append_left hea, List.getElem?_append_left hea]
      · obtain ⟨m, rfl⟩ : ∃ m, i = b.length + (m + 1) := ⟨i - b.length - 1, by omega⟩
        rw [List.getElem?_append_right (by omega), List.getElem?_append_right (by omega),
          Nat.add_sub_cancel_left,
          List.getElem?_cons_succ, List.getElem?_cons_succ]
  have hh : (b ++ (k, sum) :: a)[b.length]? = some (k, sum) := by
    rw [List.getElem?_append_right le_rfl, Nat.sub_self, List.getElem?_cons_zero]
  refine ⟨?_, ?_, hr.buckets, hr.roomNext, hr.roomKeys,
    hr.roomAggregates.trans_eq (length_set ..).symm, ?_, ?_, fun i e hf => ?_, fun i e hf => ?_⟩
  · rw [hl]
    exact hr.count
  · rw [hl]
    exact hr.small
  · rw [hk]
    exact hr.heads
  · rw [hk]
    exact hr.threaded
  · rcases he i e hf with ⟨rfl, rfl⟩ | ⟨-, old⟩
    · have hs := hr.keys _ _ hh
      exact hs
    · exact hr.keys i e old
  · show (ta.aggregates.set b.length (some (sum + v)))[i]? = _
    rcases he i e hf with ⟨rfl, rfl⟩ | ⟨ha, old⟩
    · refine List.getElem?_set_self ?_
      exact (List.getElem?_eq_some_iff.mp (hr.aggregates _ _ hh)).1
    · rw [List.getElem?_set_ne (Ne.symm ha)]
      exact hr.aggregates i e old

theorem bucketFound_eq {b a : List (K × M)} {k : K}
    (hr : Represents gb h ta (b ++ (k, sum) :: a)) (v : M) :
    ta.bucketFound (BitVec.ofNat 32 b.length) v none =
      some { ta with aggregates := ta.aggregates.set b.length (some (sum + v)) } := by
  have hsm := hr.small
  rw [length_append, length_cons] at hsm
  have hin : (BitVec.ofNat 32 b.length).toNat = b.length := by
    rw [BitVec.toNat_ofNat]
    omega
  have hh : (b ++ (k, sum) :: a)[b.length]? = some (k, sum) := by
    rw [List.getElem?_append_right le_rfl, Nat.sub_self, List.getElem?_cons_zero]
  have hs := hr.aggregates _ _ hh
  have hi := (List.getElem?_eq_some_iff.mp hs).1
  have hl : fetch (BitVec.ofNat 32 b.length) ta.aggregates = some sum := by
    rw [fetch_eq (by omega), hin, hs]
    rfl
  unfold bucketFound
  rw [hl, bind_eq_bind, bind_some, put_eq (by omega) (by omega), hin]
  rfl

variable [DecidableEq K]

theorem Represents.build_first (hre : Represents gb h ta gs)
    (hr : gs.length < gb.maxInputSize) (passes : Nat) (k : K) (v : M)
    (hem : headOf eochain fst (gb.bucketOf h) (h k % 2 ^ gb.hashBits)
      (slots (gs.map fst)) = eochain) :
    (gs.length < 2 ^ 31 ∧ ∃ a, gb.build h passes ta (k, v) = some a ∧
      Represents gb h a (gs ++ [(k, v)])) ∨
    ¬ gs.length < 2 ^ 31 ∧ gb.build h passes ta (k, v) = none := by
  have hh := hre.heads _ (Nat.mod_lt (h k) (Nat.two_pow_pos gb.hashBits))
  rw [hem] at hh
  have he : gb.build h passes ta (k, v) = (do
      let (ta, idx) ← ta.newEntry k v
      let o ← ta.head[h k % 2 ^ gb.hashBits]?
      if o = eochain then return { ta with head := ta.head.set (h k % 2 ^ gb.hashBits) idx }
      else ta.chainFollow k v passes (some idx) o) := by
    unfold HashGroupByChained.build
    simp only [hh, bind_eq_bind, bind_some, if_true]
  rw [he]
  by_cases hf : gs.length < 2 ^ 31
  · refine .inl ⟨hf, _, ?_, hre.first hf hr k v hem⟩
    have hs : (ta.withEntry k v).head = ta.head := rfl
    simp only [hre.newEntry_eq hf hr, hs, hh, bind_eq_bind, bind_some, if_true]
    rfl
  · refine .inr ⟨hf, ?_⟩
    rw [hre.newEntry_full hf]
    rfl

theorem Represents.build_occupied (hr : Represents gb h ta gs) (passes : Nat) (k : K)
    (v : M) {c : BitVec 32}
    (hh : headOf eochain fst (gb.bucketOf h) (h k % 2 ^ gb.hashBits)
      (slots (gs.map fst)) = c) (ho : c ≠ eochain) :
    gb.build h passes ta (k, v) = ta.chainFollow k v passes none c := by
  have hf := hr.heads _ (Nat.mod_lt (h k) (Nat.two_pow_pos gb.hashBits))
  rw [hh] at hf
  unfold HashGroupByChained.build
  simp only [hf, bind_eq_bind, bind_some, if_neg ho]

theorem Represents.build_found {b af : List (K × M)} {k : K}
    (hr : Represents gb h ta (b ++ (k, sum) :: af))
    (hf : k ∉ b.map fst)
    (he : (b ++ (k, sum) :: af).length ≤ passes) (v : M) :
    ∃ n, gb.build h passes ta (k, v) = some n ∧ Represents gb h n (b ++ (k, sum + v) :: af) := by
  obtain ⟨tl, hsp, -⟩ := slots_split (b.map fst) k (af.map fst)
  rw [← map_cons (f := fst) (a := (k, sum)), ← map_append, length_map] at hsp
  have hc := hr.chain (h k % 2 ^ gb.hashBits)
  have hs := length_chain_le gb h ((b ++ (k, sum) :: af).map fst) (h k % 2 ^ gb.hashBits)
  rw [length_map] at hs
  have hib : (fun s => decide (gb.bucketOf h s = h k % 2 ^ gb.hashBits))
      (BitVec.ofNat 32 b.length, k) = true := decide_eq_true rfl
  have hi := congrArg (List.filter fun s =>
    decide (gb.bucketOf h s = h k % 2 ^ gb.hashBits)) hsp
  rw [filter_append, filter_cons, if_pos hib] at hi
  have ho : ∀ p ∈ (slots (b.map fst)).filter fun s =>
      decide (gb.bucketOf h s = h k % 2 ^ gb.hashBits), p.2 ≠ k := by
    intro p hm own
    exact hf (own ▸ mem_slots_key (mem_filter.mp hm).1)
  obtain ⟨l, n, hw, hv, -⟩ := chainFollow_reaches v hc hi ho (le_trans hs he)
  have hoc : headOf eochain fst (gb.bucketOf h) (h k % 2 ^ gb.hashBits)
      (slots ((b ++ (k, sum) :: af).map fst)) ≠ eochain := by
    intro hem
    refine (headOf_eq_last_iff (fun s => slot_ne_eochain hr.few) _).mp hem
      (BitVec.ofNat 32 b.length, k) ?_ rfl
    rw [hsp]
    exact mem_append_right _ mem_cons_self
  refine ⟨_, ?_, hr.update v⟩
  rw [hr.build_occupied passes k v rfl hoc, hw, chainFollow_found v hv rfl, bucketFound_eq hr]

variable (represents : Represents gb h ta gs) (room : gs.length < gb.maxInputSize)
    (enough : gs.length ≤ passes)

include represents room enough

theorem Represents.build_append {k : K} (v : M) (new : k ∉ gs.map fst)
    (hoc : headOf eochain fst (gb.bucketOf h) (h k % 2 ^ gb.hashBits)
      (slots (gs.map fst)) ≠ eochain) :
    (gs.length < 2 ^ 31 ∧ ∃ a, gb.build h passes ta (k, v) = some a ∧
      Represents gb h a (gs ++ [(k, v)])) ∨
    ¬ gs.length < 2 ^ 31 ∧ gb.build h passes ta (k, v) = none := by
  have hc := represents.chain (h k % 2 ^ gb.hashBits)
  have hsh := length_chain_le gb h (gs.map fst) (h k % 2 ^ gb.hashBits)
  rw [length_map] at hsh
  -- the last entry of the chain
  rcases eq_nil_or_concat ((slots (gs.map fst)).filter fun s =>
    gb.bucketOf h s = h k % 2 ^ gb.hashBits) with none | ⟨b, s, hit⟩
  · rw [none] at hc
    exact absurd hc.eq_last hoc
  · rw [concat_eq_append] at hit
    have all : ∀ p ∈ b ++ [s], p ∈ slots (gs.map fst) ∧
        gb.bucketOf h p = h k % 2 ^ gb.hashBits := by
      intro p hm
      rw [← hit] at hm
      exact ⟨(mem_filter.mp hm).1, of_decide_eq_true (mem_filter.mp hm).2⟩
    have ho : ∀ p ∈ b ++ [s], p.2 ≠ k := fun p hm own =>
      new (own ▸ mem_slots_key (all p hm).1)
    obtain ⟨hm, hs⟩ := all s (mem_append_right _ (mem_singleton_self s))
    obtain ⟨l, n, hw, hv, ht⟩ := chainFollow_reaches v hc hit
      (fun p he => ho p (mem_append_left _ he)) (le_trans hsh enough)
    obtain rfl := ht.eq_last
    have hli : ta.Link s eochain := (visit_eq_some hv).2.2
    rw [represents.build_occupied passes k v rfl hoc, hw, chainFollow_end v hv
      (ho s (mem_append_right _ (mem_singleton_self s)))]
    by_cases hf : gs.length < 2 ^ 31
    · refine .inl ⟨hf, _, ?_, represents.append hf room k v hm hs hli⟩
      have hi := (slot_index represents.few hm).2
      rw [length_map] at hi
      have hl : fetch s.1 (ta.withEntry k v).next = some eochain :=
        (fetch_set_ne (represents.slot_ne_cnt hm) _).trans hli
      have hst : put s.1 ta.cnt (ta.withEntry k v).next =
          some ((ta.withEntry k v).next.set s.1.toNat (some ta.cnt)) := by
        refine put_eq (lt_trans hi hf) ?_ _
        show s.1.toNat < (ta.next.set _ _).length
        rw [length_set]
        exact lt_of_lt_of_le (lt_trans hi room) represents.roomNext
      simp only [represents.newEntry_eq hf room, hl, hst, bind_eq_bind, bind_some, if_true]
      rfl
    · refine .inr ⟨hf, ?_⟩
      rw [represents.newEntry_full hf]
      rfl

/-- **A tuple changes the table as it changes the list**, unless the indices are used up. -/
theorem Represents.build (t : K × M) :
    ((accumulate t.1 t.2 gs).length ≤ 2 ^ 31 ∧ ∃ a, gb.build h passes ta t = some a ∧
        Represents gb h a (accumulate t.1 t.2 gs)) ∨
    ¬ (accumulate t.1 t.2 gs).length ≤ 2 ^ 31 ∧ gb.build h passes ta t = none := by
  obtain ⟨k, v⟩ := t
  by_cases ht : k ∈ gs.map fst
  · obtain ⟨b, sum, a, rfl, hf⟩ := exists_entry ht
    have hs := represents.small
    rw [accumulate_found hf]
    refine .inl ⟨?_, represents.build_found hf enough v⟩
    rw [length_append, length_cons] at hs ⊢
    exact hs
  · rw [accumulate_new ht, length_append, length_singleton, add_one_le_iff]
    by_cases he : headOf eochain fst (gb.bucketOf h) (h k % 2 ^ gb.hashBits)
        (slots (gs.map fst)) = eochain
    · exact represents.build_first room passes k v he
    · exact represents.build_append room enough v ht he

end

/-! ### The scan and the close -/

section

variable {K M : Type} {gb : HashGroupByChained} {h : K → Nat} {ta : Table K M} {gs : List (K × M)}

theorem Represents.scanEntry_eq (hr : Represents gb h ta gs) {i : Nat} {e : K × M}
    (hf : gs[i]? = some e) : ta.scanEntry i = some (some e) := by
  have few := hr.small
  obtain ⟨hi, ht⟩ := List.getElem?_eq_some_iff.mp hf
  have hh : gs = gs.take i ++ e :: gs.drop (i + 1) := by
    rw [← ht, ← drop_eq_getElem_cons hi, take_append_drop]
  have hb : (gs.take i).length = i := length_take_of_le hi.le
  obtain ⟨tl, hsp, hla⟩ := slots_split ((gs.take i).map fst) e.1 ((gs.drop (i + 1)).map fst)
  rw [← map_cons, ← map_append, ← hh, length_map, hb] at hsp
  rw [← map_cons, ← map_append, ← hh, length_map, length_map, hb] at hla
  have hth := hr.threaded
  rw [hsp] at hth
  have hli : fetch (BitVec.ofNat 32 i) ta.next = some _ := hth.link_at
  have hin : (BitVec.ofNat 32 i).toNat = i := by
    rw [BitVec.toNat_ofNat]
    omega
  rw [fetch_eq (by omega), hin] at hli
  have ha : (headOf eochain fst (gb.bucketOf h)
      (gb.bucketOf h (BitVec.ofNat 32 i, e.1)) tl).toNat ≠ i := by
    rcases headOf_mem (gb.bucketOf h (BitVec.ofNat 32 i, e.1)) tl with hl | ⟨s, hm, hs⟩
    · have hlr : eochain.toNat = 2 ^ 32 - 1 := by decide
      rw [hl, hlr]
      omega
    · obtain ⟨j, hab, hbe, ht⟩ := hla s hm
      rw [hs, ht, BitVec.toNat_ofNat]
      omega
  unfold scanEntry
  rw [hli, hr.keys i e hf, hr.aggregates i e hf]
  simp only [join_some, bind_eq_bind, bind_some, if_neg ha]
  rfl

/-- **The scan reads the groups.** -/
theorem Represents.scan_eq (hr : Represents gb h ta gs) : ta.scan = some gs := by
  have he : ∀ i ∈ List.range gs.length, ta.scanEntry i = some gs[i]? := by
    intro i hm
    have hf := List.getElem?_eq_getElem (mem_range.mp hm)
    rw [hf]
    exact hr.scanEntry_eq hf
  have all : (List.range gs.length).map (fun i => gs[i]?) = gs.map some := by
    refine ext_getElem? fun i => ?_
    rw [List.getElem?_map, List.getElem?_map]
    by_cases hi : i < gs.length
    · rw [List.getElem?_range hi, map_some, List.getElem?_eq_getElem hi, map_some]
    · rw [List.getElem?_eq_none (by rw [length_range]; omega), List.getElem?_eq_none (by omega)]
      rfl
  unfold scan
  rw [hr.count, mapM_eq_some he, all, map_some, List.reduceOption, filterMap_map]
  exact congrArg some filterMap_some

theorem Represents.closes_iff (hr : Represents gb h ta gs) (hf : gb.Fits)
    (hbo : gs.length ≤ gb.maxInputSize) (n : Bool) :
    gb.closes n ta ↔ gs.length < 2 ^ 31 ∨ n = true := by
  have hc := hr.count
  have hs := hr.small
  have hm := (hf.packets 32 (by simp)).2
  have hw : (ta.cnt.signExtend 64).toNat =
      if gs.length < 2 ^ 31 then gs.length else 2 ^ 64 - 2 ^ 31 := by
    rw [BitVec.toNat_signExtend, BitVec.msb_eq_decide, BitVec.toNat_setWidth, hc]
    split_ifs <;> simp_all <;> omega
  rw [HashGroupByChained.closes, hw, or_comm]
  split_ifs with hb
  · exact iff_of_true (.inl hbo) (.inl hb)
  · simp only [hb, false_or, or_iff_right_iff_imp]
    omega

end

/-! ### Runs -/

section

variable {K M : Type} [DecidableEq K] [AddMonoid M]

theorem groupsOf_append (d : List (K × M)) (t : K × M) :
    groupsOf (d ++ [t]) = accumulate t.1 t.2 (groupsOf d) := foldl_append

/-- **The run lemma**: the loop builds the groups of the accumulation, or there are too many. -/
theorem build_within {gb : HashGroupByChained} {h : K → Nat} {s : List (K × M)} {o : Table K M}
    (hr : Represents gb h o []) (hb : s.length ≤ gb.maxInputSize)
    (he : s.length ≤ passes) :
    ((s.map fst).toFinset.card ≤ 2 ^ 31 ∧ ∃ ta,
      s.foldlM (gb.build h passes) o = some ta ∧ Represents gb h ta (groupsOf s)) ∨
    ¬ (s.map fst).toFinset.card ≤ 2 ^ 31 ∧ s.foldlM (gb.build h passes) o = none := by
  have hl := loop_within (f := gb.build h passes) s o
    (fun d ta => Represents gb h ta (groupsOf d)) (fun d => (groupsOf d).length ≤ 2 ^ 31)
    ?less hr ?step (zero_le _)
  case less =>
    intro d m hf
    refine le_trans ?_ hf
    rw [length_groupsOf, length_groupsOf, map_append, toFinset_append]
    exact Finset.card_le_card Finset.subset_union_left
  case step =>
    intro d t tl ta all hr
    have hs : (groupsOf d).length < s.length := by
      have hk := toFinset_card_le (d.map fst)
      rw [← length_groupsOf, length_map] at hk
      rw [all, length_append, length_cons]
      omega
    rw [groupsOf_append]
    exact hr.build (by omega) (by omega) t
  rwa [length_groupsOf] at hl

/-- **What the operator gives.** -/
theorem run_within {gb : HashGroupByChained} (hf : gb.Fits) (n : Bool) (h : K → Nat)
    {s : List (K × M)} (hbo : s.length ≤ gb.maxInputSize) (he : s.length ≤ passes) :
    gb.run n h passes s =
      if (s.map fst).toFinset.card < 2 ^ 31 ∨ (s.map fst).toFinset.card = 2 ^ 31 ∧ n = true
      then some (groupsOf s) else none := by
  obtain ⟨o, ho, hs⟩ := hf.opened_represents (K := K) (M := M) h
  have hk := length_groupsOf s
  have hsh : (groupsOf s).length ≤ gb.maxInputSize := by
    have hm := toFinset_card_le (s.map fst)
    rw [length_map] at hm
    omega
  unfold HashGroupByChained.run
  rcases build_within hs hbo he with ⟨few, t, hbu, hr⟩ | ⟨hma, hfa⟩
  · have hc := hr.closes_iff hf hsh n
    rw [hk] at hc
    simp only [ho, hbu, hr.scan_eq, bind_eq_bind, bind_some]
    by_cases hp : gb.closes n t
    · rw [if_pos hp, if_pos]
      · rfl
      · rcases lt_or_eq_of_le few with hb | hl
        · exact .inl hb
        · exact .inr ⟨hl, (hc.mp hp).resolve_left hl.not_lt⟩
    · rw [if_neg hp, if_neg]
      exact fun hse => hp (hc.mpr (hse.imp_right And.right))
  · simp only [ho, hfa, bind_eq_bind, bind_some, bind_none]
    rw [if_neg (by omega)]

end

/-- **The operator groups exactly**, for every hash, every aggregate with an identity and every
stream that the arrays admit, when there are fewer than `2^31` keys, or just as many and no
assertions. With more it leaves its arrays. -/
theorem groups_exactly_iff {K M : Type} [DecidableEq K] [AddMonoid M] {groupBy : HashGroupByChained}
    (fits : groupBy.Fits) (ndebug : Bool) (hash : K → Nat) (stream : List (K × M))
    (bounded : stream.length ≤ groupBy.maxInputSize) :
    (∀ passes ≥ stream.length, ∃ groups,
      groupBy.run ndebug hash passes stream = some groups ∧ ExactGroups stream groups) ↔
    (stream.map Prod.fst).toFinset.card < 2 ^ 31 ∨ (stream.map Prod.fst).toFinset.card = 2 ^ 31 ∧
        ndebug = true := by
  refine ⟨fun hex => ?_, fun few passes he => ?_⟩
  · obtain ⟨groups, ran, -⟩ := hex _ le_rfl
    rw [run_within fits ndebug hash bounded le_rfl] at ran
    by_contra hm
    rw [if_neg hm] at ran
    exact absurd ran.symm (some_ne_none groups)
  · exact ⟨_, (run_within fits ndebug hash bounded he).trans (if_pos few), groups_exact stream⟩

def demoGroupBy : HashGroupByChained := ⟨0, 3, 64, 64⟩

/-- Two keys in one bucket. -/
theorem groups_exactly_three : demoGroupBy.Fits ∧ ∃ groups,
    demoGroupBy.run false (fun key : Nat => key) 3 [(7, 1), (5, 10), (7, 2)] = some groups ∧
      ExactGroups [(7, 1), (5, 10), (7, 2)] groups := by
  have hf : demoGroupBy.Fits := ⟨by decide, by decide⟩
  exact ⟨hf,
    (groups_exactly_iff hf false (fun key : Nat => key) [(7, 1), (5, 10), (7, 2)] (by decide)).mpr
    (.inl (lt_of_le_of_lt (toFinset_card_le _) (by decide))) 3 le_rfl⟩

example : demoGroupBy.run false (fun key : Nat => key) 3 [(7, 1), (5, 10), (7, 2)] = some
    [(7, 3), (5, 10)] := by
  decide +kernel

/-- One tuple for each of so many keys. -/
def keysUpTo (count : Nat) : List (Nat × Nat) := (List.range count).map fun key => (key, 1)

/-- One key more than there are indices. -/
theorem index_turns_negative : (⟨8, 2 ^ 31 + 1, 64, 64⟩ : HashGroupByChained).Fits ∧
    (keysUpTo (2 ^ 31 + 1)).length ≤ 2 ^ 31 + 1 ∧
    (⟨8, 2 ^ 31 + 1, 64, 64⟩ : HashGroupByChained).run true (fun key => key) (2 ^ 31 + 1)
      (keysUpTo (2 ^ 31 + 1)) = none := by
  have hf : (⟨8, 2 ^ 31 + 1, 64, 64⟩ : HashGroupByChained).Fits := ⟨by decide, by decide⟩
  obtain ⟨c, hl⟩ : ∃ c, c = 2 ^ 31 + 1 := ⟨_, rfl⟩
  rw [← hl] at hf ⊢
  have length : (keysUpTo c).length = c := by
    unfold keysUpTo
    rw [length_map, length_range]
  have hk : ((keysUpTo c).map fst).toFinset.card = c := by
    unfold keysUpTo
    rw [List.map_map, List.toFinset_card_of_nodup]
    · rw [length_map, length_range]
    · exact List.Nodup.map (fun _ _ hs => hs) nodup_range
  exact ⟨hf, length.le, (run_within hf true (fun key => key) length.le length.le).trans
    (if_neg (by omega))⟩

end Proteus.Olap.GroupBy
