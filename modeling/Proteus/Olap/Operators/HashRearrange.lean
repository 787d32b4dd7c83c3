/-
**Hash rearrangement** (`olap/lib/operators/hash-rearrange.cpp`).

The operator packs tuples into blocks, one open block for each bucket. A tuple goes to the bucket of
its hash; the block is handed on with its last slot filled, under the next object ids, and new
buffers are taken. What is left is handed on by `consume_flush`, bucket after bucket, also where
nothing is left.

* `consume_collected` — one tuple: nothing is written outside a buffer, and what was handed on for a
  bucket, followed by what its open block holds, is what arrived for it.
* `flush_flushed` — one pass of the flush.
* `rearrange_partitions` — the blocks are a partition of the input by bucket, in arrival order,
  under ids of their own.
-/

import Proteus.Library.Loops
import Proteus.Library.Tiling

namespace Proteus.Olap

open Library List Option

/-! ### The operator -/

/-- `numOfBuckets`, an `int`; the bytes of a block, and those of the widest field, which fits a
block. -/
structure HashRearrange where
  numOfBuckets : Nat
  blockSize : Nat
  maxWidth : Nat
  buckets_pos : 0 < numOfBuckets
  buckets_int : numOfBuckets < 2 ^ 31
  width_pos : 0 < maxWidth
  width_le : maxWidth ≤ blockSize

structure OpenBlock (Row : Type) where
  slots : List (Option Row)
  index : Nat

/-- What the parent is given: the projected hash, `activeLoop`, `activeCnt` and the buffers. -/
structure PackedBlock (Row : Type) where
  bucket : Nat
  oid : Nat
  cnt : Nat
  slots : List (Option Row)

structure Rearranging (Row : Type) where
  blocks : List (OpenBlock Row)
  oid : Nat
  handed : List (PackedBlock Row)

/-- A pass of `consume_flush`. -/
def Rearranging.flush {Row : Type} (state : Rearranging Row) (target : Nat) :
    Option (Rearranging Row) := do
  let block ← state.blocks[target]?
  return { state with
    oid := state.oid + block.index
    handed := state.handed ++ [⟨target, state.oid, block.index, block.slots⟩] }

namespace HashRearrange

variable {Row : Type} (op : HashRearrange) (hash : Row → Nat)

def cap : Nat := op.blockSize / op.maxWidth

/-- Buffers from the pool. -/
def getBuffer : OpenBlock Row := ⟨List.replicate op.cap none, 0⟩

def openPipeline : Rearranging Row := ⟨List.replicate op.numOfBuckets op.getBuffer, 0, []⟩

def bucketOf (row : Row) : Nat := hash row % op.numOfBuckets

def consume (state : Rearranging Row) (row : Row) : Option (Rearranging Row) := do
  let h := op.bucketOf hash row
  -- the index of the bucket is the hash, truncated to 32 bits
  let target := h % 2 ^ 32
  let block ← state.blocks[target]?
  if block.index < block.slots.length then
    let slots := block.slots.set block.index (some row)
    if op.cap - 1 ≤ block.index then
      some { blocks := state.blocks.set target op.getBuffer
             oid := state.oid + op.cap
             handed := state.handed ++ [⟨h, state.oid, op.cap, slots⟩] }
    else some { state with blocks := state.blocks.set target ⟨slots, block.index + 1⟩ }
  else none

def consumeFlush (state : Rearranging Row) : Option (Rearranging Row) :=
  (List.range op.numOfBuckets).foldlM Rearranging.flush state

/-- All that one worker hands on for a stream. -/
def rearrange (stream : List Row) : Option (List (PackedBlock Row)) := do
  let state ← stream.foldlM (op.consume hash) op.openPipeline
  let flushed ← op.consumeFlush state
  return flushed.handed

end HashRearrange

/-! ### What the operator is for -/

namespace PackedBlock

variable {Row : Type}

/-- What the parent reads of a block. -/
def rows (block : PackedBlock Row) : List (Option Row) := block.slots.take block.cnt

def oids (block : PackedBlock Row) : Span := ⟨block.oid, block.cnt⟩

def delivered (blocks : List (PackedBlock Row)) : List (Nat × Option Row) :=
  blocks.flatMap fun block => block.rows.map (block.bucket, ·)

theorem delivered_concat (bs : List (PackedBlock Row)) (b : PackedBlock Row) :
    delivered (bs ++ [b]) = delivered bs ++ b.rows.map (b.bucket, ·) := by
  rw [delivered, delivered, flatMap_append, flatMap_singleton]

end PackedBlock

open PackedBlock

structure HashRearrange.Partitions {Row : Type} (op : HashRearrange) (hash : Row → Nat)
    (stream : List Row)
    (blocks : List (PackedBlock Row)) : Prop where
  once : (delivered blocks).Perm (stream.map fun row => (hash row % op.numOfBuckets, some row))
  arrival : SameByKey Prod.fst (delivered blocks) (stream.map fun row =>
    (hash row % op.numOfBuckets, some row))
  bounded : ∀ block ∈ blocks, block.rows.length = block.cnt ∧ block.cnt ≤ op.cap
  disjoint : blocks.Pairwise fun first second => first.oid + first.cnt ≤ second.oid

/-! ### One tuple -/

namespace HashRearrange

variable {Row : Type} {op : HashRearrange} {hash h : Row → Nat} {stream st : List Row}
    {state s : Rearranging Row}

theorem cap_pos (op : HashRearrange) : 0 < op.cap := Nat.div_pos op.width_le op.width_pos

theorem bucketOf_lt (op : HashRearrange) (h : Row → Nat) (r : Row) :
    op.bucketOf h r < op.numOfBuckets :=
  Nat.mod_lt _ op.buckets_pos

/-- What arrived for a bucket. -/
def arrived (op : HashRearrange) (hash : Row → Nat) (stream : List Row) (bucket : Nat) :
    List (Nat × Option Row) :=
  (stream.map fun row => (op.bucketOf hash row, some row)).filter fun item => item.1 = bucket

def handedTo (state : Rearranging Row) (bucket : Nat) : List (Nat × Option Row) :=
  (delivered state.handed).filter fun item => item.1 = bucket

/-- What the open block of a bucket holds. -/
def pending (block : OpenBlock Row) (bucket : Nat) : List (Nat × Option Row) :=
  (block.slots.take block.index).map (bucket, ·)

structure Handed (op : HashRearrange) (state : Rearranging Row) : Prop where
  buckets : ∀ block ∈ state.handed, block.bucket < op.numOfBuckets
  bounded : ∀ block ∈ state.handed, block.rows.length = block.cnt ∧ block.cnt ≤ op.cap
  oids : Tiles 0 (state.handed.map oids) state.oid

/-- The open blocks have room for one tuple more. -/
structure Roomy (op : HashRearrange) (blocks : List (OpenBlock Row)) : Prop where
  count : blocks.length = op.numOfBuckets
  room : ∀ block ∈ blocks, block.slots.length = op.cap ∧ block.index < op.cap

structure Collected (op : HashRearrange) (hash : Row → Nat) (stream : List Row)
    (state : Rearranging Row) :
    Prop where
  handed : op.Handed state
  roomy : op.Roomy state.blocks
  rows : ∀ bucket block, state.blocks[bucket]? = some block →
    handedTo state bucket ++ pending block bucket = op.arrived hash stream bucket

theorem arrived_concat (st : List Row) (r : Row) (b : Nat) : op.arrived h (st ++ [r]) b =
    op.arrived h st b ++ if op.bucketOf h r = b then [(b, some r)] else [] := by
  unfold arrived
  rw [map_append, filter_append]
  congr 1
  by_cases own : op.bucketOf h r = b
  · simp [own]
  · simp [own]

theorem filter_rows (r : List (Option Row)) (own b : Nat) :
    (r.map (own, ·)).filter (fun x => x.1 = b) = if own = b then r.map (b, ·) else [] := by
  by_cases hs : own = b
  · subst hs
    rw [if_pos rfl, filter_eq_self]
    intro x hm
    obtain ⟨_, _, rfl⟩ := mem_map.mp hm
    exact decide_eq_true rfl
  · rw [if_neg hs, filter_eq_nil_iff]
    intro x hm
    obtain ⟨_, _, rfl⟩ := mem_map.mp hm
    simpa using hs

variable {after a : Rearranging Row} {block bl : PackedBlock Row}

theorem handedTo_concat (hh : a.handed = s.handed ++ [bl]) (b : Nat) : handedTo a b =
      handedTo s b ++ if bl.bucket = b then bl.rows.map (b, ·) else [] := by
  unfold handedTo
  rw [hh, delivered_concat, filter_append, filter_rows]

theorem take_set_succ {α : Type} {ss : List α} {i : Nat} (hi : i < ss.length) (v : α) :
    (ss.set i v).take (i + 1) = ss.take i ++ [v] := by
  rw [take_add_one, take_set_of_le le_rfl, List.getElem?_set_self hi]
  rfl

theorem Handed.concat (hb : op.Handed s)
    (hh : a.handed = s.handed ++ [bl]) (oid : a.oid = s.oid + bl.cnt)
    (hs : bl.oid = s.oid) (hbu : bl.bucket < op.numOfBuckets)
    (bounded : bl.rows.length = bl.cnt ∧ bl.cnt ≤ op.cap) : op.Handed a := by
  refine ⟨?buckets, ?bounded, ?oids⟩
  case buckets =>
    intro o hm
    rw [hh] at hm
    rcases mem_append.mp hm with he | hl
    · exact hb.buckets o he
    · rw [mem_singleton.mp hl]
      exact hbu
  case bounded =>
    intro o hm
    rw [hh] at hm
    rcases mem_append.mp hm with he | hl
    · exact hb.bounded o he
    · rw [mem_singleton.mp hl]
      exact bounded
  case oids =>
    rw [hh, map_append, oid]
    exact hb.oids.append ⟨hs, rfl⟩

theorem Roomy.set {bs : List (OpenBlock Row)} (hro : op.Roomy bs) {bl : OpenBlock Row}
    (hr : bl.slots.length = op.cap ∧ bl.index < op.cap) (t : Nat) :
    op.Roomy (bs.set t bl) := by
  refine ⟨by rw [length_set]; exact hro.count, fun o hm => ?_⟩
  rcases mem_or_eq_of_mem_set hm with he | hs
  · exact hro.room o he
  · rw [hs]
    exact hr

/-- **One tuple.** -/
theorem consume_collected (hc : op.Collected h st s) (r : Row) :
    ∃ after, op.consume h s r = some after ∧ op.Collected h (st ++ [r]) after := by
  have target_lt := op.bucketOf_lt h r
  have htr : op.bucketOf h r % 2 ^ 32 = op.bucketOf h r :=
    Nat.mod_eq_of_lt (lt_trans target_lt (lt_trans op.buckets_int (by norm_num)))
  have hin := hc.roomy.count ▸ target_lt
  obtain ⟨block, hf⟩ : ∃ block, s.blocks[op.bucketOf h r]? = some block :=
    ⟨_, List.getElem?_eq_getElem hin⟩
  obtain ⟨hle, hb⟩ := hc.roomy.room block (mem_of_getElem? hf)
  have hi := hle ▸ hb
  have hw := take_set_succ hi (some r)
  have rows := hc.rows _ _ hf
  -- what the bucket holds with the tuple, and what the others hold
  have own : handedTo s (op.bucketOf h r) ++
      ((block.slots.set block.index (some r)).take (block.index + 1)).map (op.bucketOf h r, ·) =
      op.arrived h (st ++ [r]) (op.bucketOf h r) := by
    rw [arrived_concat, if_pos rfl, ← rows, hw, map_append, ← append_assoc]
    rfl
  have ho : ∀ b, op.bucketOf h r ≠ b → ∀ o, s.blocks[b]? = some o →
      handedTo s b ++ pending o b = op.arrived h (st ++ [r]) b := by
    intro b hd o ht
    rw [arrived_concat, if_neg hd, append_nil]
    exact hc.rows b o ht
  unfold consume
  simp only [htr, hf, bind_eq_bind, bind_some, if_pos hi]
  by_cases hfu : op.cap - 1 ≤ block.index
  · have hl : block.index + 1 = op.cap := by omega
    rw [if_pos hfu]
    refine ⟨_, rfl, ?handed, hc.roomy.set ⟨length_replicate, op.cap_pos⟩ _, ?rows⟩
    case handed =>
      refine hc.handed.concat rfl rfl rfl target_lt ⟨?_, le_rfl⟩
      unfold PackedBlock.rows
      rw [length_take, length_set, hle, Nat.min_self]
    case rows =>
      intro b o ht
      rw [handedTo_concat rfl b]
      by_cases hs : op.bucketOf h r = b
      · subst hs
        rw [List.getElem?_set_self hin] at ht
        obtain rfl := some_inj.mp ht
        rw [if_pos rfl, ← own, hl]
        exact append_nil _
      · rw [List.getElem?_set_ne hs] at ht
        rw [if_neg hs, append_nil]
        exact ho b hs o ht
  · have hr : block.index + 1 < op.cap := by omega
    rw [if_neg hfu]
    refine ⟨_, rfl, ⟨hc.handed.buckets, hc.handed.bounded, hc.handed.oids⟩,
      hc.roomy.set ⟨by rw [length_set]; exact hle, hr⟩ _, ?rows⟩
    intro b o ht
    by_cases hs : op.bucketOf h r = b
    · subst hs
      rw [List.getElem?_set_self hin] at ht
      obtain rfl := some_inj.mp ht
      exact own
    · rw [List.getElem?_set_ne hs] at ht
      exact ho b hs o ht

theorem openPipeline_collected (op : HashRearrange) (h : Row → Nat) :
    op.Collected h [] op.openPipeline := by
  refine ⟨⟨nofun, nofun, rfl⟩, ⟨length_replicate, fun block hm => ?_⟩, fun b block hf => ?_⟩
  · rw [eq_of_mem_replicate hm]
    exact ⟨length_replicate, op.cap_pos⟩
  · rw [eq_of_mem_replicate (mem_of_getElem? hf)]
    rfl

/-! ### The flush -/

structure Flushed (op : HashRearrange) (hash : Row → Nat) (stream : List Row) (done : List Nat)
    (state : Rearranging Row) : Prop where
  handed : op.Handed state
  roomy : op.Roomy state.blocks
  rows : ∀ bucket block, state.blocks[bucket]? = some block →
    handedTo state bucket ++ (if bucket ∈ done then [] else pending block bucket) =
      op.arrived hash stream bucket

/-- **One pass of the flush.** -/
theorem flush_flushed {d : List Nat} {t : Nat} (hfl : op.Flushed h st d s)
    (hi : t < op.numOfBuckets) (hfr : t ∉ d) :
    ∃ after, s.flush t = some after ∧ op.Flushed h st (d ++ [t]) after := by
  have hin := hfl.roomy.count ▸ hi
  obtain ⟨block, hf⟩ : ∃ block, s.blocks[t]? = some block := ⟨_, List.getElem?_eq_getElem hin⟩
  obtain ⟨hl, hbe⟩ := hfl.roomy.room block (mem_of_getElem? hf)
  unfold Rearranging.flush
  simp only [hf, bind_eq_bind, bind_some]
  refine ⟨_, rfl, ?handed, hfl.roomy, ?rows⟩
  case handed =>
    refine hfl.handed.concat rfl rfl rfl hi ⟨?_, hbe.le⟩
    unfold PackedBlock.rows
    rw [length_take, hl]
    exact Nat.min_eq_left hbe.le
  case rows =>
    intro b o ht
    have hb := hfl.rows b o ht
    rw [handedTo_concat rfl b]
    by_cases hs : t = b
    · subst hs
      obtain rfl : block = o := some_inj.mp (hf.symm.trans ht)
      rw [if_neg hfr] at hb
      rw [if_pos rfl, if_pos (mem_append_right _ (mem_singleton_self _)), append_nil]
      exact hb
    · have hm : b ∈ d ++ [t] ↔ b ∈ d := by
        rw [mem_append, mem_singleton, or_iff_left (Ne.symm hs)]
      rw [if_neg hs, append_nil]
      simp only [hm]
      exact hb

theorem consumeFlush_flushed (hc : op.Collected h st s) : ∃ after, op.consumeFlush s = some after ∧
        op.Flushed h st (List.range op.numOfBuckets) after := by
  refine loop_invariant (op.Flushed h st) ⟨hc.handed, hc.roomy, ?_⟩ ?_
  · intro b block hf
    rw [if_neg not_mem_nil]
    exact hc.rows b block hf
  · intro d t tl s all hfl
    have hm : t ∈ List.range op.numOfBuckets := by rw [all]; simp
    refine flush_flushed hfl (mem_range.mp hm) ?_
    have hd := nodup_range (n := op.numOfBuckets)
    rw [all, nodup_append] at hd
    exact fun hb => hd.2.2 t hb t mem_cons_self rfl

theorem Flushed.partitions (hf : op.Flushed h st (List.range op.numOfBuckets) s) :
    op.Partitions h st s.handed := by
  have ha : SameByKey Prod.fst (delivered s.handed)
      (st.map fun r => (h r % op.numOfBuckets, some r)) := by
    intro b
    by_cases hi : b < op.numOfBuckets
    · have hin := hf.roomy.count ▸ hi
      have hr := hf.rows b _ (List.getElem?_eq_getElem hin)
      rwa [if_pos (mem_range.mpr hi), append_nil] at hr
    · -- there are no other buckets
      rw [filter_eq_nil_iff.mpr, filter_eq_nil_iff.mpr]
      · intro x hm own
        obtain ⟨r, _, rfl⟩ := mem_map.mp hm
        exact hi (of_decide_eq_true own ▸ op.bucketOf_lt h r)
      · intro x hm own
        obtain ⟨block, hh, ht⟩ := mem_flatMap.mp hm
        obtain ⟨r, _, rfl⟩ := mem_map.mp ht
        exact hi (of_decide_eq_true own ▸ hf.handed.buckets block hh)
  exact ⟨ha.perm, ha, hf.handed.bounded, pairwise_map.mp hf.handed.oids.pairwise⟩

/-- **Hash rearrangement is a partition of its input.** For every number of buckets, capacity of a
block, bucketing expression and stream of one worker, nothing is written outside a buffer, and the
blocks that `consume` and the final flush hand on hold every tuple once, in a block of its own
bucket and in arrival order, none beyond the capacity, under object ids of their own. -/
theorem rearrange_partitions (op : HashRearrange) (hash : Row → Nat) (stream : List Row) :
    ∃ blocks, op.rearrange hash stream = some blocks ∧ op.Partitions hash stream blocks := by
  obtain ⟨state, hco, hc⟩ := loop_invariant (f := op.consume hash) (op.Collected hash)
    (op.openPipeline_collected hash) fun d r tl state (_ : stream = _) hc =>
      consume_collected hc r
  obtain ⟨after, hfl, hf⟩ := consumeFlush_flushed hc
  refine ⟨after.handed, ?_, hf.partitions⟩
  unfold rearrange
  rw [hco, bind_eq_bind, bind_some, hfl]
  rfl

example :
    ((⟨2, 16, 8, by decide, by decide, by decide, by decide⟩ : HashRearrange).rearrange id
    [1, 2, 3, 5, 4]).map
    (List.map fun block => (block.bucket, block.oid, block.rows)) =
    some [(1, 0, [some 1, some 3]), (0, 2, [some 2, some 4]), (0, 4, []), (1, 4, [some 5])] := by
      decide

end HashRearrange

end Proteus.Olap
