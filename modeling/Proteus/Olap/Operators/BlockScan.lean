/-
**The block scan** (`olap/lib/plugins/binary-block-plugin.cpp`).

The generated loop visits the partitions of a relation in turn. `block_i` is where all partitions
stand in a round, and grows by the block size when the last partition was visited; a partition that
ends before it is skipped. The object id of a block is computed from both counters, `block_i *
Nparts + part_i * blockSize`, as if every partition had a block in every round.

* `run_at` — the loop visits slot after slot: slot `k` is the partition `k % Nparts` in the round `k
  / Nparts`, and its object ids begin at `k * blockSize`.
* `blocksOf_visits` — the blocks of one partition are its range, cut into parts of the block size.
* `scan_covers` — the loop ends, and its blocks hold every tuple of every partition once, under ids
  of their own.
-/

import Proteus.Library.Tiling

namespace Proteus.Olap

open Library List Option

/-! ### The loop -/

/-- A scan: `N_parts_ptr`, the number of tuples of each partition, and how many tuples fit a
block. -/
structure BlockScan where
  sizes : List Nat
  blockSize : Nat

/-- The counters of the loop, in 64 bits. -/
structure ScanCursor where
  partI : Nat
  blockI : Nat
  itemCtr : Nat
deriving DecidableEq, Repr

/-- A pass through the loop: the counters, and how many tuples are handed on if the partition is not
finished. -/
structure Visit where
  cursor : ScanCursor
  blockN : Option Nat
deriving DecidableEq, Repr

namespace BlockScan

variable (scan : BlockScan)

def nparts : Nat := scan.sizes.length

/-- The largest partition, from `getPartitionSizes`. -/
def maxPackCnt : Nat := scan.sizes.foldl (fun largest size => if largest > size then largest else
    size) 0

def start : ScanCursor := ⟨0, 0, 0⟩

def nextEntry (cursor : ScanCursor) : ScanCursor :=
  let moved : Nat × Nat :=
    if cursor.partI < (scan.nparts + 2 ^ 64 - 1) % 2 ^ 64 then
      ((cursor.partI + 1) % 2 ^ 64, cursor.blockI)
    else (0, (cursor.blockI + scan.blockSize) % 2 ^ 64)
  { partI := moved.1
    blockI := moved.2
    itemCtr := (moved.2 * scan.nparts % 2 ^ 64 + moved.1 * scan.blockSize % 2 ^ 64) % 2 ^ 64 }

def blockAt (size : Nat) (cursor : ScanCursor) : Option Nat :=
  if cursor.blockI < size then
    let remaining := size - cursor.blockI
    some (if scan.blockSize < remaining then scan.blockSize else remaining)
  else none

/-- The loop, for at most `fuel` passes. It fails outside the array of the sizes, or where the fuel
runs out. -/
def run : Nat → ScanCursor → Option (List Visit)
  | 0, _ => none
  | fuel + 1, cursor =>
    if cursor.blockI < scan.maxPackCnt then do
      let size ← scan.sizes[cursor.partI]?
      let rest ← run fuel (scan.nextEntry cursor)
      return ⟨cursor, scan.blockAt size cursor⟩ :: rest
    else some []

/-! ### What the scan is for -/

/-- How many rounds there are. -/
def rounds : Nat := (scan.maxPackCnt + scan.blockSize - 1) / scan.blockSize

/-- No counter of the loop passes 64 bits: the last one is the object id behind the last round. -/
def Fits : Prop := scan.rounds * scan.nparts * scan.blockSize < 2 ^ 64

instance : Decidable scan.Fits := inferInstanceAs (Decidable (_ < _))

end BlockScan

def blocksOf (part : Nat) (visits : List Visit) : List Span :=
  visits.filterMap fun visit =>
    if visit.cursor.partI = part then visit.blockN.map fun size => ⟨visit.cursor.blockI, size⟩ else
      none

/-- The object ids of the blocks, in order. -/
def oidsOf (visits : List Visit) : List Span :=
  visits.filterMap fun visit => visit.blockN.map fun size => ⟨visit.cursor.itemCtr, size⟩

structure BlockScan.Covers (scan : BlockScan) (visits : List Visit) : Prop where
  tiles : ∀ part size, scan.sizes[part]? = some size → Tiles 0 (blocksOf part visits) size
  bounded : ∀ visit ∈ visits, ∀ size ∈ visit.blockN, 0 < size ∧ size ≤ scan.blockSize
  inside : ∀ visit ∈ visits, visit.cursor.partI < scan.nparts
  finished : ∀ visit ∈ visits, visit.blockN = none →
    ∀ size, scan.sizes[visit.cursor.partI]? = some size → size ≤ visit.cursor.blockI
  disjoint : (oidsOf visits).Pairwise fun first second => first.offset + first.size ≤ second.offset

/-! ### Slots -/

namespace BlockScan

variable {scan sc : BlockScan} {slot s : Nat}

theorem foldl_max_ge (ss : List Nat) (l : Nat) :
    l ≤ ss.foldl (fun la sz => if la > sz then la else sz) l ∧
      ∀ sz ∈ ss, sz ≤ ss.foldl (fun la sz => if la > sz then la else sz) l := by
  induction ss generalizing l with
  | nil => exact ⟨le_rfl, nofun⟩
  | cons sz ss ih =>
    obtain ⟨low, all⟩ := ih (if l > sz then l else sz)
    refine ⟨le_trans ?_ low, fun o hm => ?_⟩
    · split <;> omega
    · rcases mem_cons.mp hm with hs | hl
      · rw [hs]
        refine le_trans ?_ low
        split <;> omega
      · exact all o hl

variable {sz : Nat} {c : ScanCursor} {α : Type}

theorem le_maxPackCnt (hm : sz ∈ sc.sizes) : sz ≤ sc.maxPackCnt :=
  (foldl_max_ge sc.sizes 0).2 sz hm

open Nat

theorem maxPackCnt_le_rounds (hp : 0 < sc.blockSize) :
    sc.maxPackCnt ≤ sc.blockSize * sc.rounds := by
  rw [mul_comm]
  exact le_ceil_mul hp _

theorem rounds_of_empty (hn : sc.nparts = 0) : sc.rounds = 0 := by
  have he : sc.sizes = [] := eq_nil_of_length_eq_zero hn
  rw [rounds, maxPackCnt, he, foldl_nil, Nat.zero_add]
  rcases Nat.eq_zero_or_pos sc.blockSize with hz | hp
  · rw [hz, Nat.div_zero]
  · exact Nat.div_eq_of_lt (Nat.sub_lt hp Nat.one_pos)

theorem lt_maxPackCnt_iff (hp : 0 < sc.blockSize) {r : Nat} :
    r * sc.blockSize < sc.maxPackCnt ↔ r < sc.rounds := by
  rw [show r < sc.rounds ↔ r + 1 ≤ sc.rounds from Iff.rfl, rounds, le_div_iff_mul_le hp, succ_mul]
  omega

/-- The cursor at a slot. -/
def cursorAt (scan : BlockScan) (slot : Nat) : ScanCursor :=
  ⟨slot % scan.nparts, slot / scan.nparts * scan.blockSize, slot * scan.blockSize⟩

theorem cursorAt_zero : sc.cursorAt 0 = start := by
  simp [cursorAt, start]

theorem id_of_counters (s ps b : Nat) : s / ps * b * ps + s % ps * b = s * b := by
  calc s / ps * b * ps + s % ps * b = (ps * (s / ps) + s % ps) * b := by ring
    _ = s * b := by rw [div_add_mod]

theorem succ_div_mod {ps : Nat} (hp : 0 < ps) (s : Nat) :
    (s % ps + 1 < ps ∧ (s + 1) % ps = s % ps + 1 ∧ (s + 1) / ps = s / ps) ∨
      (s % ps + 1 = ps ∧ (s + 1) % ps = 0 ∧ (s + 1) / ps = s / ps + 1) := by
  have hd := Nat.div_add_mod s ps
  have hr := Nat.mod_lt s hp
  by_cases hl : s % ps + 1 < ps
  · obtain ⟨hq, hre⟩ := (Nat.div_mod_unique hp (a := s + 1) (d := s / ps)
      (c := s % ps + 1)).mpr ⟨by omega, hl⟩
    exact .inl ⟨hl, hre, hq⟩
  · have he : ps * (s / ps + 1) = s + 1 := by
      rw [Nat.mul_succ]
      omega
    obtain ⟨hq, hre⟩ := (Nat.div_mod_unique hp (a := s + 1) (d := s / ps + 1)
      (c := 0)).mpr ⟨by omega, hp⟩
    exact .inr ⟨by omega, hre, hq⟩

/-- **`nextEntry` goes to the next slot.** -/
theorem nextEntry_cursorAt (hf : sc.Fits) (hpo : 0 < sc.blockSize)
    (hi : s < sc.rounds * sc.nparts) :
    sc.nextEntry (sc.cursorAt s) = sc.cursorAt (s + 1) := by
  have hp : 0 < sc.nparts := Nat.pos_of_mul_pos_left (Nat.zero_lt_of_lt hi)
  have id : (s + 1) * sc.blockSize < 2 ^ 64 := lt_of_le_of_lt (Nat.mul_le_mul_right _ hi) hf
  have hs := id_of_counters (s + 1) sc.nparts sc.blockSize
  have hpl : sc.nparts < 2 ^ 64 := by
    have one : 1 ≤ sc.rounds := Nat.pos_of_mul_pos_right (Nat.zero_lt_of_lt hi)
    calc sc.nparts = 1 * sc.nparts * 1 := by ring
      _ ≤ sc.rounds * sc.nparts * sc.blockSize :=
        Nat.mul_le_mul (Nat.mul_le_mul_right _ one) hpo
      _ < 2 ^ 64 := hf
  have hl : (sc.nparts + 2 ^ 64 - 1) % 2 ^ 64 = sc.nparts - 1 := by omega
  have hb := Nat.mod_lt (s + 1) hp
  have hbl : (s + 1) / sc.nparts * sc.blockSize < 2 ^ 64 := by
    refine lt_of_le_of_lt ?_ id
    exact Nat.mul_le_mul_right _ (Nat.div_le_self ..)
  unfold nextEntry cursorAt
  rw [hl]
  rcases succ_div_mod hp s with ⟨hm, hr, hq⟩ | ⟨he, hr, hq⟩
  · rw [hr, hq] at hs
    rw [hq] at hbl
    simp only [if_pos (show s % sc.nparts < sc.nparts - 1 by omega), hr, hq]
    rw [Nat.mod_eq_of_lt (show s % sc.nparts + 1 < 2 ^ 64 by omega),
      Nat.mod_eq_of_lt (show s / sc.nparts * sc.blockSize * sc.nparts < 2 ^ 64 by omega),
      Nat.mod_eq_of_lt (show (s % sc.nparts + 1) * sc.blockSize < 2 ^ 64 by omega), hs,
      Nat.mod_eq_of_lt id]
  · have hmo : s / sc.nparts * sc.blockSize + sc.blockSize = (s + 1) / sc.nparts *
        sc.blockSize := by
      rw [hq, Nat.succ_mul]
    rw [hr, Nat.zero_mul, Nat.add_zero] at hs
    simp only [if_neg (show ¬ s % sc.nparts < sc.nparts - 1 by omega), hr, hmo]
    rw [Nat.mod_eq_of_lt hbl, hs, Nat.mod_eq_of_lt id, Nat.zero_mul, Nat.zero_mod,
      Nat.add_zero ((s + 1) * sc.blockSize), Nat.mod_eq_of_lt id]

/-- The pass at a slot. -/
def visitAt (scan : BlockScan) (slot : Nat) : Visit :=
  ⟨scan.cursorAt slot, scan.blockAt (scan.sizes.getD (slot % scan.nparts) 0) (scan.cursorAt slot)⟩

/-- **The loop from a slot on**, with enough fuel. -/
theorem run_at (hf : sc.Fits) (hpo : 0 < sc.blockSize) {l : Nat}
    (hr : s + l = sc.rounds * sc.nparts) {f : Nat} (he : l < f) :
    sc.run f (sc.cursorAt s) = some ((List.range' s l).map sc.visitAt) := by
  induction l generalizing s f with
  | zero =>
    obtain ⟨f, rfl⟩ := Nat.exists_eq_succ_of_ne_zero (Nat.ne_zero_of_lt he)
    have hd : ¬ (sc.cursorAt s).blockI < sc.maxPackCnt := by
      rw [cursorAt, lt_maxPackCnt_iff hpo, Nat.not_lt]
      rcases Nat.eq_zero_or_pos sc.nparts with hn | hp
      · rw [rounds_of_empty hn]
        exact Nat.zero_le _
      · rw [Nat.le_div_iff_mul_le hp]
        exact hr.ge
    simp only [run, if_neg hd, List.range'_zero, map_nil]
  | succ l ih =>
    obtain ⟨f, rfl⟩ := Nat.exists_eq_succ_of_ne_zero (Nat.ne_zero_of_lt he)
    have hi : s < sc.rounds * sc.nparts := by omega
    have hp : 0 < sc.nparts := Nat.pos_of_mul_pos_left (Nat.zero_lt_of_lt hi)
    have hgo : (sc.cursorAt s).blockI < sc.maxPackCnt := by
      rw [cursorAt, lt_maxPackCnt_iff hpo, Nat.div_lt_iff_lt_mul hp]
      exact hi
    have sz : sc.sizes[s % sc.nparts]? = some (sc.sizes.getD (s % sc.nparts) 0) := by
      have hin : s % sc.nparts < sc.sizes.length := Nat.mod_lt s hp
      rw [getD_eq_getElem _ _ hin, List.getElem?_eq_getElem hin]
    have hm : s + 1 + l = sc.rounds * sc.nparts := by omega
    have hl := ih hm (Nat.lt_of_succ_lt_succ he)
    rw [List.range'_succ, map_cons]
    simp only [run, if_pos hgo, nextEntry_cursorAt hf hpo hi, hl]
    show (sc.sizes[s % sc.nparts]?).bind _ = _
    rw [sz]
    rfl

/-! ### The blocks -/

theorem blockAt_eq_none (none : sc.blockAt sz c = none) : sz ≤ c.blockI := by
  unfold blockAt at none
  split at none
  · cases none
  · omega

theorem blockAt_bounded {b : Nat} (hp : 0 < sc.blockSize)
    (hf : sc.blockAt sz c = some b) : 0 < b ∧ b ≤ sc.blockSize := by
  unfold blockAt at hf
  split at hf
  · cases hf
    split <;> omega
  · cases hf

theorem filterMap_single {c i : Nat} (hi : i < c) (v : Option α) :
    (List.range c).filterMap (fun o => if o = i then v else none) = v.toList := by
  induction c with
  | zero => omega
  | succ c ih =>
    rw [range_succ, filterMap_append]
    rcases Nat.lt_succ_iff_lt_or_eq.mp hi with hb | hl
    · rw [ih hb, filterMap_cons, if_neg (Nat.ne_of_gt hb), filterMap_nil, append_nil]
    · have ho : (List.range c).filterMap (fun o => if o = i then v else none) = [] := by
        refine filterMap_eq_nil_iff.mpr fun o hm => if_neg ?_
        exact Nat.ne_of_lt (hl ▸ mem_range.mp hm)
      rw [ho, nil_append]
      cases v <;> simp [hl]

theorem filterMap_slots {ps p : Nat} (hi : p < ps) (f : Nat → Option α) (rs : Nat) :
    (List.range (rs * ps)).filterMap (fun slot => if slot % ps = p then f (slot / ps) else none) =
      (List.range rs).filterMap f := by
  have hp : 0 < ps := zero_lt_of_lt hi
  induction rs with
  | zero => simp
  | succ r ih =>
    -- the slots of the last round: only that of the partition counts
    have hl : (List.range ps).filterMap
        ((fun slot => if slot % ps = p then f (slot / ps) else none) ∘ (r * ps + ·)) =
        (f r).toList := by
      rw [← filterMap_single hi (f r)]
      refine filterMap_congr fun i hm => ?_
      have hb : i < ps := mem_range.mp hm
      have hq : (r * ps + i) / ps = r := by
        rw [mul_comm, mul_add_div hp, div_eq_of_lt hb, add_zero]
      have hr : (r * ps + i) % ps = i := by
        rw [mul_comm, mul_add_mod, mod_eq_of_lt hb]
      simp only [Function.comp_apply, hq, hr]
    rw [succ_mul, range_add, filterMap_append, ih, filterMap_map, range_succ, filterMap_append, hl]
    cases hv : f r <;> simp [hv]

theorem blockAt_span (sz : Nat) (c : ScanCursor) :
    (sc.blockAt sz c).map (fun b => (⟨c.blockI, b⟩ : Span)) =
      if c.blockI < sz then some ⟨c.blockI, min sc.blockSize (sz - c.blockI)⟩ else none := by
  unfold blockAt
  split
  · rw [map_some]
    congr 2
    split <;> omega
  · rfl

/-- **The blocks of a partition** are its range, cut at every round. -/
theorem blocksOf_visits {p : Nat} (hf : sc.sizes[p]? = some sz) :
    blocksOf p ((List.range (sc.rounds * sc.nparts)).map sc.visitAt) =
      cut sc.blockSize sz sc.rounds := by
  obtain ⟨hi, _⟩ := List.getElem?_eq_some_iff.mp hf
  have hs := filterMap_slots hi (fun i : Nat =>
    if sc.blockSize * i < sz then
      some (⟨sc.blockSize * i, min sc.blockSize (sz - sc.blockSize * i)⟩ : Span)
    else none) sc.rounds
  rw [blocksOf, filterMap_map, cut, ← hs]
  refine filterMap_congr fun slot _ => ?_
  by_cases own : slot % sc.nparts = p
  · have hw : sc.sizes.getD (slot % sc.nparts) 0 = sz := by
      rw [own, getD_eq_getElem?_getD, hf, getD_some]
    refine (if_pos own).trans (Eq.trans ?_ (if_pos own).symm)
    unfold visitAt
    rw [blockAt_span, hw, cursorAt, mul_comm]
    rfl
  · exact (if_neg own).trans (if_neg own).symm

theorem sizes_le_rounds (hp : 0 < sc.blockSize) {p : Nat} (hf : sc.sizes[p]? = some sz) :
    sz ≤ sc.blockSize * sc.rounds :=
  le_trans (le_maxPackCnt (mem_of_getElem? hf)) (maxPackCnt_le_rounds hp)

theorem oids_disjoint (hp : 0 < sc.blockSize) (c : Nat) :
    (oidsOf ((List.range c).map sc.visitAt)).Pairwise fun f s =>
      f.offset + f.size ≤ s.offset := by
  rw [oidsOf, filterMap_map, pairwise_filterMap]
  refine pairwise_lt_range.imp fun {slot l} hb f hfi s hsi => ?_
  obtain ⟨b, sz, rfl⟩ := map_eq_some_iff.mp hfi
  obtain ⟨_, _, rfl⟩ := map_eq_some_iff.mp hsi
  have hbo := (blockAt_bounded hp sz).2
  calc slot * sc.blockSize + b ≤ slot * sc.blockSize + sc.blockSize := Nat.add_le_add_left hbo _
    _ = (slot + 1) * sc.blockSize := (Nat.succ_mul ..).symm
    _ ≤ l * sc.blockSize := Nat.mul_le_mul_right _ hb

theorem visits_cover (hpo : 0 < sc.blockSize) :
    sc.Covers ((List.range (sc.rounds * sc.nparts)).map sc.visitAt) := by
  refine ⟨fun p sz hf => ?tiles, fun v hm => ?bounded, fun v hm => ?inside,
    fun v hm hsk sz hf => ?finished, oids_disjoint hpo _⟩
  case tiles =>
    rw [blocksOf_visits hf]
    have ht := cut_tiles sc.blockSize sz sc.rounds
    rwa [Nat.min_eq_left (sizes_le_rounds hpo hf)] at ht
  all_goals
    obtain ⟨slot, hsi, rfl⟩ := mem_map.mp hm
    have hp : 0 < sc.nparts := Nat.pos_of_mul_pos_left (Nat.zero_lt_of_lt (mem_range.mp hsi))
  case bounded => exact fun sz hf => blockAt_bounded hpo hf
  case inside => exact Nat.mod_lt slot hp
  case finished =>
    have he := blockAt_eq_none hsk
    have hs : sc.sizes[slot % sc.nparts]? = some sz := hf
    rwa [getD_eq_getElem?_getD, hs] at he

/-- **The block scan covers every tuple once.** For every number of partitions, their sizes and a
positive block size, while the counters stay in 64 bits, the loop ends; the blocks it hands on for a
partition follow each other from its first tuple to its last one and none is larger than the block
size, only finished partitions are skipped, and no two blocks share an object id. -/
theorem scan_covers (scan : BlockScan) (positive : 0 < scan.blockSize) (fits : scan.Fits) :
    ∃ visits, (∀ fuel, scan.rounds * scan.nparts < fuel → scan.run fuel start = some visits) ∧
        scan.Covers visits := by
  refine ⟨_, fun fuel he => ?_, visits_cover positive⟩
  rw [← cursorAt_zero, range_eq_range']
  exact run_at fits positive (zero_add _) he

/-- Three partitions, one of them empty, in blocks of three tuples. -/
theorem scan_covers_three : ∃ visits, (⟨[5, 0, 7], 3⟩ : BlockScan).run 10 start = some visits ∧
    (⟨[5, 0, 7], 3⟩ : BlockScan).Covers visits ∧
    visits.map Visit.blockN = [some 3, none, some 3, some 2, none, some 3, none, none, some 1] := by
  obtain ⟨visits, ran, hc⟩ := scan_covers ⟨[5, 0, 7], 3⟩ (by decide) (by decide)
  have hf := ran 10 (by decide)
  refine ⟨visits, hf, hc, ?_⟩
  have hb : ((⟨[5, 0, 7], 3⟩ : BlockScan).run 10 start).map (List.map Visit.blockN) =
      some [some 3, none, some 3, some 2, none, some 3, none, none, some 1] := by decide
  rw [hf] at hb
  exact some_inj.mp hb

end BlockScan

end Proteus.Olap
