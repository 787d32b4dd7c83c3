/-
**The vectorised Bloom-filter scan** (`olap/lib/operators/bloom-filter/bloom-filter-repack.cpp`).

The rows of a block are tested sixteen at a time: the keys of a vector select words of the filter, a
bit of each word says whether the row stays, and the rows that stay are compressed into an output
block. The block is handed on when another vector may not fit, and what is left at the end by
`consume_flush`. Two things are missing.

* The mask that would leave out the elements behind the last row of a block (`indMask`) is commented
  out and all true, so the last vector of a block also selects from what lies behind it.
* An output buffer has the bytes of a block, and is taken to be full at a quarter as many elements,
  whatever the width of a field.

### Results

* `hit_eq` — the vector test is the test of the key's slot.
* `consumeVector_packs` — one vector: its hits follow those before, unless they do not fit the
  buffer.
* `selectedIn_eq` — the hits of a block are its own rows', followed by those behind them.
* `repack_exact_iff` — the scan hands on exactly the right rows iff nothing behind a block hits, and
  no field is wider than four bytes or the rows fit one buffer.
* `behind_block_selected` — one row, and fifteen more.
-/

import Proteus.Library.Loops

namespace Proteus.Olap

open Library List

/-! ### The operator -/

/-- The logarithm of `filterSize`, and the bytes of the widest wanted field. -/
structure BloomFilterRepack where
  filterBits : Nat
  maxWidth : Nat
  width_pos : 0 < maxWidth

/-- A block of the child: the rows from its start on, and how many of them are its own. -/
structure InputBlock (Row : Type) where
  rows : Nat → Row
  cnt : Nat

/-- A block for the parent: `activeLoop` and the rows of `activeCnt`. -/
structure RepackedBlock (Row : Type) where
  oid : Nat
  rows : List (Option Row)
deriving DecidableEq, Repr

structure Repacking (Row : Type) where
  buffer : Nat → Option Row
  outCnt : Nat
  oid : Nat
  handed : List (RepackedBlock Row)

namespace BloomFilterRepack

/-- `BlockManager::block_size`, in bytes. -/
def blockSize : Nat := 1024 * 1024 * 2 / 4 * 4

def capacity : Nat := blockSize / 4

def vsize : Nat := 16

variable {Row : Type} (op : BloomFilterRepack) (filter : Nat → Bool) (probe : Row → Nat)

def room : Nat := blockSize / op.maxWidth

/-- A key, masked in 32 bits. -/
def slot (key : Nat) : Nat := key % 2 ^ 32 &&& (2 ^ op.filterBits - 1) % 2 ^ 32

def gather (index : Nat) : Nat :=
  (filter (4 * index)).toNat + (filter (4 * index + 1)).toNat * 2 ^ 8 +
    (filter (4 * index + 2)).toNat * 2 ^ 16 + (filter (4 * index + 3)).toNat * 2 ^ 24

def hit (key : Nat) : Bool :=
  gather filter (op.slot key / 4) &&& 1 <<< (op.slot key % 4 * 8) ≠ 0

def hits (block : InputBlock Row) (offset : Nat) : List Nat :=
  ((List.range vsize).map (offset + ·)).filter fun index => op.hit filter (probe (block.rows index))

def compressStore (buffer : Nat → Option Row) (start : Nat) (rows : List Row) : Nat → Option Row :=
  fun index => if start ≤ index ∧ index < start + rows.length then rows[index - start]? else
    buffer index

def storeSelected (state : Repacking Row) (selected : List Row) : Option (Repacking Row) :=
  let popCnt := selected.length
  if popCnt ≠ 0 then
    if state.outCnt + popCnt ≤ op.room then
      let buffer := compressStore state.buffer state.outCnt selected
      let nextCnt := state.outCnt + popCnt
      if nextCnt > capacity - vsize then
        some { buffer := fun _ => none
               outCnt := 0
               oid := state.oid + nextCnt
               handed := state.handed ++ [⟨state.oid, (List.range nextCnt).map buffer⟩] }
      else some { state with buffer := buffer, outCnt := nextCnt }
    else none
  else some state

def consumeVector (state : Repacking Row) (vector : InputBlock Row × Nat) :
    Option (Repacking Row) :=
  op.storeSelected state ((op.hits filter probe vector.1 vector.2).map vector.1.rows)

def vectors (block : InputBlock Row) : List (InputBlock Row × Nat) :=
  (List.range ((block.cnt + (vsize - 1)) / vsize)).map fun index => (block, index * vsize)

def consume (state : Repacking Row) (block : InputBlock Row) : Option (Repacking Row) :=
  (vectors block).foldlM (op.consumeVector filter probe) state

def consumeFlush (state : Repacking Row) : List (RepackedBlock Row) :=
  state.handed ++ [⟨state.oid, (List.range state.outCnt).map state.buffer⟩]

/-- All that one worker hands on for a sequence of blocks. -/
def repack (blocks : List (InputBlock Row)) : Option (List (RepackedBlock Row)) :=
  (blocks.foldlM (op.consume filter probe) ⟨fun _ => none, 0, 0, []⟩).map consumeFlush

/-! ### What the operator is for -/

/-- The slot of a row is set. -/
def SlotSet (row : Row) : Prop := filter (probe row % 2 ^ 32 % 2 ^ op.filterBits) = true

instance (row : Row) : Decidable (op.SlotSet filter probe row) :=
    inferInstanceAs (Decidable (_ = _))

/-- The rows of a block whose slot is set. -/
def wantedIn (block : InputBlock Row) : List Row :=
  ((List.range block.cnt).map block.rows).filter fun row => op.SlotSet filter probe row

structure Exact (blocks : List (InputBlock Row)) : Prop where
  rows : ∃ handed, op.repack filter probe blocks = some handed ∧
    handed.flatMap RepackedBlock.rows = (blocks.flatMap (op.wantedIn filter probe)).map some
  inside : ∀ block ∈ blocks, ∀ vector ∈ vectors block,
    ∀ index ∈ op.hits filter probe block vector.2,
    index < block.cnt

/-- Nothing between the last row of a block and the next multiple of sixteen has its slot set. -/
def NothingBehind (blocks : List (InputBlock Row)) : Prop :=
  ∀ block ∈ blocks, ∀ index, block.cnt ≤ index → index < (block.cnt + (vsize - 1)) / vsize * vsize →
    ¬ op.SlotSet filter probe (block.rows index)

/-- The fields are at most four bytes wide, or the rows that stay fit one output buffer. -/
def FitsBuffer (rows : List Row) : Prop := op.maxWidth ≤ 4 ∨ rows.length ≤ op.room

/-! ### One test -/

open Nat

section

variable {op filter}

theorem slot_eq (k : Nat) : op.slot k = k % 2 ^ 32 % 2 ^ op.filterBits := by
  unfold slot
  rcases Nat.le_total op.filterBits 32 with hs | hl
  · rw [Nat.mod_eq_of_lt (show 2 ^ op.filterBits - 1 < 2 ^ 32 from
      lt_of_lt_of_le (Nat.sub_lt (Nat.two_pow_pos _) Nat.one_pos)
        (Nat.pow_le_pow_right Nat.two_pos hs)),
      Nat.and_two_pow_sub_one_eq_mod]
  · -- the mask is all ones in 32 bits
    have hb : k % 2 ^ 32 < 2 ^ op.filterBits :=
      lt_of_lt_of_le (Nat.mod_lt _ (by norm_num)) (Nat.pow_le_pow_right Nat.two_pos hl)
    have hm : (2 ^ op.filterBits - 1) % 2 ^ 32 = 2 ^ 32 - 1 := by
      have hpo : 2 ^ op.filterBits = 2 ^ 32 * 2 ^ (op.filterBits - 32) := by
        rw [← Nat.pow_add, Nat.add_sub_cancel' hl]
      have hp := Nat.two_pow_pos (op.filterBits - 32)
      rw [hpo]
      omega
    rw [hm, Nat.and_two_pow_sub_one_eq_mod, Nat.mod_mod, Nat.mod_eq_of_lt hb]

theorem gather_and (i b : Nat) (hi : b < 4) :
    decide (gather filter i &&& 1 <<< (b * 8) ≠ 0) = filter (4 * i + b) := by
  unfold gather
  have hc : b = 0 ∨ b = 1 ∨ b = 2 ∨ b = 3 := by omega
  rcases hc with rfl | rfl | rfl | rfl <;>
    cases filter (4 * i) <;> cases filter (4 * i + 1) <;> cases filter (4 * i + 2) <;>
    cases filter (4 * i + 3) <;> decide

/-- **The vector test** is the test of the key's slot. -/
theorem hit_eq (k : Nat) : op.hit filter k = filter (k % 2 ^ 32 % 2 ^ op.filterBits) := by
  unfold hit
  rw [gather_and _ _ (mod_lt _ (by norm_num)), div_add_mod, slot_eq]

end

/-! ### The hits of a block -/

section

variable {op filter probe} {block b : InputBlock Row} {bs : List (InputBlock Row)}

def selectedIn (op : BloomFilterRepack) (filter : Nat → Bool) (probe : Row → Nat)
    (block : InputBlock Row) : List Row :=
  (vectors block).flatMap fun vector => (op.hits filter probe vector.1 vector.2).map vector.1.rows

def reach (block : InputBlock Row) : Nat := (block.cnt + (vsize - 1)) / vsize * vsize

theorem cnt_le_reach (b : InputBlock Row) : b.cnt ≤ reach b := by
  unfold reach vsize
  omega

theorem flatMap_range_mul (c sz : Nat) :
    (List.range c).flatMap (fun i => (List.range sz).map (i * sz + ·)) = List.range (c * sz) := by
  induction c with
  | zero => simp
  | succ c ih =>
    rw [range_succ, flatMap_append, ih, flatMap_singleton, succ_mul, range_add]

def behindIn (op : BloomFilterRepack) (filter : Nat → Bool) (probe : Row → Nat)
    (block : InputBlock Row) : List Row :=
  ((List.range (reach block - block.cnt)).map fun index => block.rows (block.cnt + index)).filter
      fun row =>
    op.SlotSet filter probe row

/-- **The hits of a block**: those of its own rows, and then of what lies behind it. -/
theorem selectedIn_eq (b : InputBlock Row) :
    op.selectedIn filter probe b = op.wantedIn filter probe b ++ op.behindIn filter probe b := by
  have all : op.selectedIn filter probe b =
      ((List.range (reach b)).map b.rows).filter fun r => op.SlotSet filter probe r := by
    unfold selectedIn vectors hits reach
    rw [flatMap_map, ← flatMap_range_mul, map_flatMap, filter_flatMap]
    congr 1
    funext i
    refine Eq.trans ?_ filter_map.symm
    congr 2
    funext l
    rw [hit_eq]
    exact Bool.decide_eq_true.symm
  have hs : List.range (reach b) =
      List.range b.cnt ++ (List.range (reach b - b.cnt)).map (b.cnt + ·) := by
    rw [← range_add, Nat.add_sub_cancel' (cnt_le_reach b)]
  rw [all, hs, map_append, filter_append, map_map]
  rfl

theorem nothingBehind_iff : op.NothingBehind filter probe bs ↔
    ∀ block ∈ bs, op.behindIn filter probe block = [] := by
  refine forall₂_congr fun block _ => ?_
  unfold behindIn
  rw [filter_eq_nil_iff]
  constructor
  · intro hn r hm hs
    obtain ⟨i, hi, rfl⟩ := mem_map.mp hm
    have hb := mem_range.mp hi
    exact hn (block.cnt + i) (Nat.le_add_right ..) (by unfold reach at hb; omega)
      (of_decide_eq_true hs)
  · intro hn i hbe hb hs
    refine hn (block.rows i) (mem_map.mpr ⟨i - block.cnt, ?_, ?_⟩) (decide_eq_true hs)
    · rw [mem_range]
      unfold reach
      omega
    · rw [Nat.add_sub_cancel' hbe]

theorem inside_iff : (∀ block ∈ bs, ∀ v ∈ vectors block, ∀ i ∈ op.hits filter probe block v.2,
    i < block.cnt) ↔ op.NothingBehind filter probe bs := by
  refine forall₂_congr fun block _ => ?_
  constructor
  · intro hi i hbe hb hse
    have v : (block, i / vsize * vsize) ∈ vectors block := by
      refine mem_map.mpr ⟨i / vsize, mem_range.mpr ?_, rfl⟩
      exact Nat.div_lt_of_lt_mul (Nat.mul_comm .. ▸ hb)
    have hm : i ∈ op.hits filter probe block (i / vsize * vsize) := by
      unfold hits
      rw [mem_filter]
      refine ⟨mem_map.mpr ⟨i % vsize, mem_range.mpr (Nat.mod_lt _ (by decide)), ?_⟩, ?_⟩
      · exact Nat.div_add_mod' i vsize
      · rw [hit_eq]
        exact hse
    exact absurd (hi _ v i hm) (Nat.not_lt.mpr hbe)
  · intro hn v hm i hse
    by_contra hbe
    obtain ⟨s, hi, rfl⟩ := mem_map.mp hm
    obtain ⟨ht, hit⟩ := mem_filter.mp hse
    obtain ⟨l, hsm, rfl⟩ := mem_map.mp ht
    rw [hit_eq] at hit
    refine hn _ (Nat.not_lt.mp hbe) ?_ hit
    have hf := mem_range.mp hi
    have hs := mem_range.mp hsm
    calc s * vsize + l < s * vsize + vsize := Nat.add_lt_add_left hs _
      _ = (s + 1) * vsize := (Nat.succ_mul ..).symm
      _ ≤ (block.cnt + (vsize - 1)) / vsize * vsize := Nat.mul_le_mul_right _ hf

end

/-! ### One vector -/

section

variable {op filter probe} {blocks : List (InputBlock Row)} {state s : Repacking Row}
    {selected se : List Row}

theorem range_map_getElem? {α : Type} (r : List α) :
    (List.range r.length).map (fun i => r[i]?) = r.map some := by
  refine ext_getElem (by simp) fun i hi _ => ?_
  have hb : i < r.length := by simpa using hi
  rw [getElem_map, getElem_map, getElem_range, List.getElem?_eq_getElem hb]

theorem compressStore_rows (b : Nat → Option Row) (s : Nat) (r : List Row) :
    (List.range (s + r.length)).map (compressStore b s r) = (List.range s).map b ++ r.map some := by
  rw [range_add, map_append, map_map, ← range_map_getElem? r]
  congr 1
  · refine map_congr_left fun i hm => if_neg fun hi => ?_
    exact absurd (mem_range.mp hm) (Nat.not_lt.mpr hi.1)
  · refine map_congr_left fun i hm => ?_
    have hb := mem_range.mp hm
    refine (if_pos ⟨Nat.le_add_right .., Nat.add_lt_add_left hb _⟩).trans ?_
    rw [Nat.add_sub_cancel_left]

theorem capacity_le_room (hn : op.maxWidth ≤ 4) : capacity ≤ op.room :=
  div_le_div_left hn op.width_pos

theorem room_le_capacity (hw : ¬ op.maxWidth ≤ 4) : op.room ≤ capacity - vsize := by
  refine le_trans (div_le_div_left (show 5 ≤ op.maxWidth by omega) (by norm_num)) ?_
  decide

structure Packed (op : BloomFilterRepack) (selected : List Row) (state : Repacking Row) : Prop where
  rows : state.handed.flatMap RepackedBlock.rows ++ (List.range state.outCnt).map state.buffer =
    selected.map some
  room : state.outCnt ≤ capacity - vsize
  width : op.maxWidth ≤ 4 ∨ state.handed = []
  fits : op.FitsBuffer selected

theorem Packed.outCnt_eq (hp : op.Packed se s) (hw : ¬ op.maxWidth ≤ 4) : s.outCnt = se.length := by
  have hr := hp.rows
  rw [hp.width.resolve_left hw, flatMap_nil, nil_append] at hr
  have hl := congrArg List.length hr
  rwa [length_map, length_range, length_map] at hl

variable {new : List Row}

theorem Packed.store (hp : op.Packed se s)
    (hso : new.length ≠ 0) (hi : s.outCnt + new.length ≤ op.room) :
    ∃ n, op.storeSelected s new = Option.some n ∧ op.Packed (se ++ new) n := by
  have hs := compressStore_rows s.buffer s.outCnt new
  have hl : vsize ≤ capacity := by decide
  have hr : s.handed.flatMap RepackedBlock.rows ++
      (List.range (s.outCnt + new.length)).map (compressStore s.buffer s.outCnt new) =
      (se ++ new).map Option.some := by
    rw [hs, ← append_assoc, hp.rows, map_append]
  have hf : op.FitsBuffer (se ++ new) := by
    by_cases hn : op.maxWidth ≤ 4
    · exact .inl hn
    · rw [hp.outCnt_eq hn, ← length_append] at hi
      exact .inr hi
  unfold storeSelected
  simp only [if_pos hso, if_pos hi]
  by_cases hfu : s.outCnt + new.length > capacity - vsize
  · have hn : op.maxWidth ≤ 4 := by
      by_contra hw
      exact absurd (le_trans hi (room_le_capacity hw)) (not_le.mpr hfu)
    rw [if_pos hfu]
    refine ⟨_, rfl, ?_, zero_le _, .inl hn, hf⟩
    rw [← hr, flatMap_append, flatMap_singleton]
    exact append_nil _
  · rw [if_neg hfu]
    exact ⟨_, rfl, hr, not_lt.mp hfu, hp.width, hf⟩

/-- **The rows of a vector** follow those before, unless they pass the end of the buffer. -/
theorem storeSelected_packs (hp : op.Packed se s) (hm : new.length ≤ vsize) :
    (op.FitsBuffer (se ++ new) ∧ ∃ n, op.storeSelected s new = some n ∧ op.Packed (se ++ new) n) ∨
      ¬ op.FitsBuffer (se ++ new) ∧ op.storeSelected s new = none := by
  by_cases none : new.length = 0
  · have hs : op.storeSelected s new = some s := if_neg (not_not.mpr none)
    rw [eq_nil_of_length_eq_zero none, append_nil] at *
    exact .inl ⟨hp.fits, s, hs, hp⟩
  · by_cases hi : s.outCnt + new.length ≤ op.room
    · obtain ⟨n, hst, ha⟩ := hp.store none hi
      exact .inl ⟨ha.fits, n, hst, ha⟩
    · refine .inr ⟨fun hf => hi ?_, ?_⟩
      · by_cases hn : op.maxWidth ≤ 4
        · have hl := capacity_le_room hn
          have hb := hp.room
          have hbo : vsize ≤ capacity := by decide
          omega
        · rw [hp.outCnt_eq hn, ← length_append]
          exact hf.resolve_left hn
      · unfold storeSelected
        simp only [if_pos none, if_neg hi]

theorem hits_length_le (op : BloomFilterRepack) (filter : Nat → Bool) (probe : Row → Nat)
    (b : InputBlock Row)
    (o : Nat) : ((op.hits filter probe b o).map b.rows).length ≤ vsize := by
  unfold hits
  rw [length_map]
  refine le_trans (length_filter_le _ _) ?_
  rw [length_map, length_range]

/-! ### The scan -/

def selectedFrom (op : BloomFilterRepack) (filter : Nat → Bool) (probe : Row → Nat)
    (vectors : List (InputBlock Row × Nat)) : List Row :=
  vectors.flatMap fun vector => (op.hits filter probe vector.1 vector.2).map vector.1.rows

theorem selectedFrom_vectors (blocks : List (InputBlock Row)) :
    op.selectedFrom filter probe (blocks.flatMap vectors) = blocks.flatMap
        (op.selectedIn filter probe) :=
  flatMap_assoc

/-- **All vectors**: the scan hands on what it selects, as long as that fits. -/
theorem repack_selected (op : BloomFilterRepack) (filter : Nat → Bool) (probe : Row → Nat)
    (blocks : List (InputBlock Row)) :
    (op.FitsBuffer (blocks.flatMap (op.selectedIn filter probe)) ∧
        ∃ h, op.repack filter probe blocks = some h ∧
          h.flatMap RepackedBlock.rows = (blocks.flatMap (op.selectedIn filter probe)).map some) ∨
      ¬ op.FitsBuffer (blocks.flatMap (op.selectedIn filter probe)) ∧
          op.repack filter probe blocks = none := by
  have hl := loop_within (f := op.consumeVector filter probe) (blocks.flatMap vectors)
    ⟨fun _ => none, 0, 0, []⟩ (fun d => op.Packed (op.selectedFrom filter probe d))
    (fun d => op.FitsBuffer (op.selectedFrom filter probe d)) ?less ?start ?step
    (.inr (Nat.zero_le _))
  case less =>
    intro d m hf
    refine hf.imp_right fun hs => le_trans ?_ hs
    rw [selectedFrom, selectedFrom, flatMap_append, length_append]
    exact Nat.le_add_right ..
  case start => exact ⟨rfl, Nat.zero_le _, .inr rfl, .inr (Nat.zero_le _)⟩
  case step =>
    intro d v _ state _ hp
    have m : op.selectedFrom filter probe (d ++ [v]) = op.selectedFrom filter probe d ++
        (op.hits filter probe v.1 v.2).map v.1.rows := by
      rw [selectedFrom, flatMap_append, flatMap_singleton, selectedFrom]
    rw [m]
    exact storeSelected_packs hp (hits_length_le op filter probe v.1 v.2)
  have hw : op.repack filter probe blocks =
      ((blocks.flatMap vectors).foldlM (op.consumeVector filter probe) ⟨fun _ => none, 0, 0,
      []⟩).map consumeFlush :=
    congrArg (Option.map consumeFlush) (foldlM_flatMap _ _ _ _)
  rw [hw]
  rw [selectedFrom_vectors] at hl
  rcases hl with ⟨hf, l, ran, hp⟩ | ⟨hfu, hfa⟩
  · refine .inl ⟨hf, consumeFlush l, ?_, ?_⟩
    · rw [ran, Option.map_some]
    · rw [consumeFlush, flatMap_append, flatMap_singleton]
      exact hp.rows
  · refine .inr ⟨hfu, ?_⟩
    rw [hfa, Option.map_none]

/-- **The vectorised Bloom-filter scan selects exactly the right rows**, for every content of the
filter and every sequence of blocks with any row counts, iff nothing behind a block has its slot
set, and no wanted field is wider than four bytes or the rows that stay fit one buffer. -/
theorem repack_exact_iff (op : BloomFilterRepack) (filter : Nat → Bool) (probe : Row → Nat)
    (blocks : List (InputBlock Row)) :
    op.Exact filter probe blocks ↔ op.NothingBehind filter probe blocks ∧
      op.FitsBuffer (blocks.flatMap (op.wantedIn filter probe)) := by
  have hs : op.NothingBehind filter probe blocks →
      blocks.flatMap (op.selectedIn filter probe) = blocks.flatMap (op.wantedIn filter probe) := by
    intro hn
    refine flatMap_congr fun b hm => ?_
    rw [selectedIn_eq, nothingBehind_iff.mp hn b hm, append_nil]
  constructor
  · intro he
    have hn := inside_iff.mp he.inside
    obtain ⟨h, ran, _⟩ := he.rows
    refine ⟨hn, ?_⟩
    rw [← hs hn]
    rcases repack_selected op filter probe blocks with ⟨hf, _⟩ | ⟨_, hfa⟩
    · exact hf
    · rw [ran] at hfa
      cases hfa
  · intro hc
    obtain ⟨hn, hf⟩ := hc
    refine ⟨?_, inside_iff.mpr hn⟩
    rw [← hs hn] at hf ⊢
    rcases repack_selected op filter probe blocks with ⟨_, ran⟩ | ⟨hfu, _⟩
    · exact ran
    · exact absurd hf hfu

end

/-- **What lies behind a block is selected**: a block of one row, and a filter that lets everything
pass. -/
theorem behind_block_selected : (⟨4, 4, by decide⟩ : BloomFilterRepack).repack (fun _ => true) id
    [⟨id, 1⟩] = some [⟨0, (List.range 16).map some⟩] ∧
    ¬ (⟨4, 4, by decide⟩ : BloomFilterRepack).Exact (fun _ => true) id [⟨id, 1⟩] := by
  refine ⟨by decide +kernel, fun he => ?_⟩
  have hi := he.inside ⟨id, 1⟩ mem_cons_self (⟨id, 1⟩, 0) mem_cons_self 1 (by decide +kernel)
  exact absurd hi (by decide)

end BloomFilterRepack

end Proteus.Olap
