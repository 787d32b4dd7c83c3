/-
**Batch inserts** (`ColumnStore::insertRecord` and `insertRecordBatch` in `column_store.cpp`).

Both take record numbers off the counter of a partition, stamp the entries of the meta column and
store the cells. A batch has its columns one after the other, each with room for `max_capacity`
elements, or for as many as there are records when that is zero.

A batch of `n` records should do what `n` single inserts do. It stores only the first `n % 2 ^ 16`
of them in the columns, since the columns take a `uint16_t`, asserts that these leave room for one
more, and counts the entries it stamps with a `uint`, which never reaches a larger number.

* `insertRecords_eq` — what single inserts of the rows of a batch leave.
* `insertRecordBatch_eq` — what the batch leaves.
* `batch_matches_iff` — when these are the same.
-/

import Proteus.Library.Loops
import Proteus.Oltp.Layout.Column

namespace Proteus.Oltp.Layout

open Library List Option Function

/-! ### Tables -/

/-- What is fixed for a table. The offset in a record number has five bytes. -/
structure Schema where
  capacityPerPartition : Nat
  nPartitions : Nat
  indexed : Bool
  metaSize : Nat
  nPartitions_pos : 0 < nPartitions
  metaSize_pos : 0 < metaSize
  capacity_lt : capacityPerPartition < 2 ^ 40

/-- A column with its blocks, by partition. There is one for each master version in a
`CircularMasterColumn`, and one in all. -/
structure Column where
  unitSize : Nat
  byteOffset : Nat
  copies : Nat
  blocks : Nat → Nat → Memory
  unitSize_pos : 0 < unitSize

/-- What an insert writes into an `IndexVal`. -/
structure IndexVal where
  tMin : Nat
  deleted : Bool
  vid : Nat
deriving DecidableEq, Repr

structure ColumnStore where
  vid : Nat → UInt64
  metaColumn : Nat → Nat → IndexVal
  columns : List Column

variable (schema : Schema)

def Column.extent (column : Column) : Extent :=
  ⟨column.unitSize, schema.capacityPerPartition, column.unitSize_pos⟩

def Schema.metaExtent : Extent :=
    ⟨schema.metaSize, schema.capacityPerPartition, schema.metaSize_pos⟩

def stampedVal (transactionId vid : Nat) : IndexVal := ⟨transactionId % 2 ^ 63, false, vid⟩

def Column.change (column : Column) (pid : Nat) (change : (Nat → Memory) → Option (Nat → Memory)) :
    Option Column :=
  (change (column.blocks pid)).map fun blocks =>
    { column with blocks := Function.update column.blocks pid blocks }

def stampRecord (transactionId vid : Nat) (metaColumn : Nat → IndexVal) : Option (Nat → IndexVal) :=
  if getOffset vid < schema.capacityPerPartition then
    some (Function.update metaColumn (getOffset vid) (stampedVal transactionId vid))
  else none

/-- The loop over the columns. -/
def insertCells (record : Memory) (vid : Nat) (columns : List Column) : Option (List Column) :=
  columns.mapM fun column =>
    column.change (getPid vid) (insertElem (column.extent schema) column.copies
    (getOffset vid) (some (record.read column.byteOffset column.unitSize)))

def insertRecord (record : Memory) (transactionId : Nat) (partitionId masterVer : Fin (2 ^ 8))
    (store : ColumnStore) :
    Option ColumnStore := do
  let pid := partitionId.val % schema.nPartitions
  let idx := store.vid pid
  let currVid := createVid idx.toNat pid masterVer
  let entries ← if schema.indexed then
    stampRecord schema transactionId currVid (store.metaColumn pid)
    else some (store.metaColumn pid)
  let columns ← insertCells schema record currVid store.columns
  return {
    vid := Function.update store.vid pid (idx + 1)
    metaColumn := Function.update store.metaColumn pid entries
    columns }

/-- `max_capacity == 0 ? num_records : max_capacity` -/
def stride (numRecords maxCapacity : Nat) : Nat :=
  if maxCapacity = 0 then numRecords else maxCapacity

def stampBatch (transactionId idxSt pid masterVer numRecords : Nat) (metaColumn : Nat → IndexVal) :
    Option (Nat → IndexVal) :=
  if batchFits schema.metaExtent (idxSt % 2 ^ 40) (numRecords % 2 ^ 16) && numRecords < 2 ^ 32 then
    some ((List.range numRecords).foldl (fun metaColumn i =>
      Function.update metaColumn (idxSt % 2 ^ 40 + i)
        (stampedVal transactionId (createVid (idxSt + i) pid masterVer))) metaColumn)
  else none

def insertCellsBatch (data : Memory) (vid numRecords stride : Nat) (columns : List Column) :
    Option (List Column) :=
  columns.mapM fun column =>
    column.change (getPid vid) (insertElemBatch (column.extent schema) column.copies
    (getOffset vid) (numRecords % 2 ^ 16) data (column.byteOffset * stride))

/-- `insertRecordBatch` -/
def insertRecordBatch (data : Memory) (numRecords maxCapacity transactionId : Nat)
    (partitionId masterVer : Fin (2 ^ 8)) (store : ColumnStore) : Option ColumnStore := do
  let pid := partitionId.val % schema.nPartitions
  let idxSt := store.vid pid
  let stVid := createVid idxSt.toNat pid masterVer
  let entries ← if schema.indexed then
      stampBatch schema transactionId idxSt.toNat pid masterVer numRecords (store.metaColumn pid)
    else some (store.metaColumn pid)
  let columns ← insertCellsBatch schema data stVid numRecords
    (stride numRecords maxCapacity) store.columns
  return {
    vid := Function.update store.vid pid (idxSt + UInt64.ofNat numRecords)
    metaColumn := Function.update store.metaColumn pid entries
    columns }

/-- Single inserts, one after the other. -/
def insertRecords (records : Nat → Memory) (transactionId : Nat) (partitionId masterVer :
    Fin (2 ^ 8)) :
    Nat → ColumnStore → Option ColumnStore
  | 0, store => some store
  | numRecords + 1, store => do
    let store ← insertRecords records transactionId partitionId masterVer numRecords store
    insertRecord schema (records numRecords) transactionId partitionId masterVer store

/-- The records have the cells of the batch. -/
def SameRows (records : Nat → Memory) (data : Memory) (numRecords maxCapacity : Nat)
    (columns : List Column) : Prop :=
  ∀ i < numRecords, ∀ column ∈ columns, (records i).read column.byteOffset column.unitSize =
    data.read (column.byteOffset * stride numRecords maxCapacity + i * column.unitSize)
      column.unitSize

/-! ### What is left -/

def stamped (transactionId idxSt pid masterVer numRecords : Nat) (metaColumn : Nat → IndexVal) :
    Nat → IndexVal :=
  fun place =>
    if idxSt % 2 ^ 40 ≤ place ∧ place < idxSt % 2 ^ 40 + numRecords then
      stampedVal transactionId (createVid (idxSt + (place - idxSt % 2 ^ 40)) pid masterVer)
    else metaColumn place

def Column.filled (column : Column) (data : Memory) (stride pid offset numCells : Nat) : Column :=
  { column with
    blocks := Function.update column.blocks pid fun copy =>
      if copy < column.copies then
        (column.blocks pid copy).write (offset * column.unitSize)
          (data.read (column.byteOffset * stride) (numCells * column.unitSize))
      else column.blocks pid copy }

def ColumnStore.filled (store : ColumnStore) (data : Memory)
    (stride transactionId pid masterVer numRecords numCells : Nat) :
    ColumnStore where
  vid := Function.update store.vid pid (store.vid pid + UInt64.ofNat numRecords)
  metaColumn := Function.update store.metaColumn pid (if schema.indexed then
      stamped transactionId (store.vid pid).toNat pid masterVer numRecords (store.metaColumn pid)
    else store.metaColumn pid)
  columns := store.columns.map fun column =>
    column.filled data stride pid ((store.vid pid).toNat % 2 ^ 40) numCells

open ColumnStore Nat

section

variable {sc : Schema}

theorem Column.extent_capacity (c : Column) : (c.extent sc).capacity = sc.capacityPerPartition :=
    rfl

theorem mapM_eq_none {A B : Type} {f : A → Option B} {xs : List A} (hn : xs ≠ [])
    (he : ∀ x ∈ xs, f x = none) : xs.mapM f = none := by
  cases xs with
  | nil => exact absurd rfl hn
  | cons x xs => simp [mapM_cons, he x mem_cons_self]

open Memory

theorem Column.filled_zero (c : Column) (d : Memory) (s pid o : Nat) :
    c.filled d s pid o 0 = c := by
  have hs : (fun co => if co < c.copies then
      (c.blocks pid co).write (o * c.unitSize) [] else c.blocks pid co) = c.blocks pid := by
    funext co
    rw [write_nil, ite_self]
  unfold Column.filled
  rw [zero_mul, show d.read (c.byteOffset * s) 0 = [] from rfl, hs, update_eq_self]

theorem Column.filled_succ (c : Column) (d : Memory) (s pid o nc : Nat) :
    (c.filled d s pid o nc).change pid (fun bs => some fun co =>
        if co < c.copies then (bs co).write ((o + nc) * c.unitSize)
          (d.read (c.byteOffset * s + nc * c.unitSize) c.unitSize)
        else bs co) =
      some (c.filled d s pid o (nc + 1)) := by
  have hg : ∀ b : Memory, (b.write (o * c.unitSize)
      (d.read (c.byteOffset * s) (nc * c.unitSize))).write ((o + nc) * c.unitSize)
        (d.read (c.byteOffset * s + nc * c.unitSize) c.unitSize) =
      b.write (o * c.unitSize) (d.read (c.byteOffset * s) ((nc + 1) * c.unitSize)) := by
    intro b
    rw [succ_mul, read_append, ← write_append, length_read, add_mul]
  unfold Column.change Column.filled
  simp only [map_some, update_self, update_idem]
  refine congrArg (fun bs => some { c with blocks := update c.blocks pid bs }) ?_
  funext co
  split_ifs
  · exact hg _
  · rfl

theorem stamped_zero (ti idxSt pid mv : Nat) (mc : Nat → IndexVal) :
    stamped ti idxSt pid mv 0 mc = mc := by
  funext p
  exact if_neg (by omega)

theorem stamped_succ (ti idxSt pid mv nr : Nat) (mc : Nat → IndexVal) :
    update (stamped ti idxSt pid mv nr mc) (idxSt % 2 ^ 40 + nr)
        (stampedVal ti (createVid (idxSt + nr) pid mv)) =
      stamped ti idxSt pid mv (nr + 1) mc := by
  funext p
  unfold stamped
  by_cases hl : p = idxSt % 2 ^ 40 + nr
  · subst hl
    rw [update_self, if_pos (by omega), Nat.add_sub_cancel_left]
  · rw [update_of_ne hl]
    exact if_congr (by omega) rfl rfl

theorem stampBatch_eq (sc : Schema) (ti idxSt pid mv nr : Nat) (mc : Nat → IndexVal) :
    stampBatch sc ti idxSt pid mv nr mc =
      if idxSt % 2 ^ 40 + nr % 2 ^ 16 < sc.capacityPerPartition ∧ nr < 2 ^ 32 then
        some (stamped ti idxSt pid mv nr mc)
      else none := by
  have hl : ∀ c, (List.range c).foldl (fun mc i =>
      update mc (idxSt % 2 ^ 40 + i) (stampedVal ti (createVid (idxSt + i) pid mv))) mc =
      stamped ti idxSt pid mv c mc := by
    intro c
    induction c with
    | zero => exact (stamped_zero ..).symm
    | succ c ih => rw [range_succ, foldl_append, ih, foldl_cons, foldl_nil, stamped_succ]
  unfold stampBatch
  rw [hl]
  simp only [Bool.and_eq_true, batchFits_iff, decide_eq_true_eq]
  rfl

variable {st a : ColumnStore} {d r : Memory} {rs : Nat → Memory}
    {par mv : Fin (2 ^ 8)}
  {ti : Nat}

theorem pid_small (sc : Schema) (par : Fin (2 ^ 8)) :
    par.val % sc.nPartitions % 2 ^ 8 = par.val % sc.nPartitions :=
  mod_eq_of_lt (lt_of_le_of_lt (mod_le ..) par.isLt)

theorem ColumnStore.filled_zero (d : Memory) (s pid : Nat) :
    st.filled sc d s ti pid mv 0 0 = st := by
  unfold filled
  simp only [stamped_zero, Column.filled_zero, Function.update_eq_self, ite_self, List.map_id']
  rw [show st.vid pid + UInt64.ofNat 0 = st.vid pid from UInt64.add_zero _, Function.update_eq_self]

variable {cs : List Column} {pid : Nat}

theorem insertCells_filled (hn : cs ≠ []) {vid o s nc : Nat} (own : getPid vid = pid)
    (hp : getOffset vid = o + nc)
    (hs : ∀ c ∈ cs, r.read c.byteOffset c.unitSize =
      d.read (c.byteOffset * s + nc * c.unitSize) c.unitSize) :
    insertCells sc r vid (cs.map fun c => c.filled d s pid o nc) =
      if o + nc < sc.capacityPerPartition then
        some (cs.map fun c => c.filled d s pid o (nc + 1))
      else none := by
  unfold insertCells
  rw [mapM_map, own, hp]
  split_ifs with hr
  · refine mapM_eq_some fun c hm => ?_
    rw [← c.filled_succ, ← hs c hm]
    refine congrArg _ (funext fun bs => ?_)
    exact insertElem_eq hr _ bs
  · refine mapM_eq_none hn fun c hm => ?_
    refine map_eq_none_iff.mpr ?_
    exact if_neg hr

theorem stampRecord_stamped (sc : Schema) (ti idxSt pid mv nr idx : Nat)
    (hp : idx % 2 ^ 40 = idxSt % 2 ^ 40 + nr) (mc : Nat → IndexVal) :
    stampRecord sc ti (createVid idx pid mv) (stamped ti idxSt pid mv nr mc) =
      if idxSt % 2 ^ 40 + nr < sc.capacityPerPartition then
        some (stamped ti idxSt pid mv (nr + 1) mc)
      else none := by
  have hn : createVid idx pid mv = createVid (idxSt + nr) pid mv := by
    unfold createVid
    omega
  rw [stampRecord, getOffset_createVid, hp, hn, stamped_succ]

variable (nonempty : st.columns ≠ []) (partition : par.val % sc.nPartitions = pid)

include nonempty partition

/-- **One more record**, where there is room for it. -/
theorem insertRecord_filled {s nr : Nat} (hne : (st.vid pid).toNat % 2 ^ 40 + nr < 2 ^ 40)
    (hs : ∀ c ∈ st.columns, r.read c.byteOffset c.unitSize =
      d.read (c.byteOffset * s + nr * c.unitSize) c.unitSize) :
    insertRecord sc r ti par mv (st.filled sc d s ti pid mv nr nr) =
      if (st.vid pid).toNat % 2 ^ 40 + nr < sc.capacityPerPartition then
        some (st.filled sc d s ti pid mv (nr + 1) (nr + 1))
      else none := by
  have hsm := partition ▸ pid_small sc par
  have hn : (st.vid pid + UInt64.ofNat nr).toNat % 2 ^ 40 = (st.vid pid).toNat % 2 ^ 40 + nr := by
    rw [UInt64.toNat_add, UInt64.toNat_ofNat']
    omega
  have hnx : st.vid pid + UInt64.ofNat nr + 1 = st.vid pid + UInt64.ofNat (nr + 1) := by
    rw [UInt64.add_assoc, UInt64.ofNat_add]
    rfl
  have own : getPid (createVid (st.vid pid + UInt64.ofNat nr).toNat pid mv) = pid := by
    rw [getPid_createVid, hsm]
  have hp := (getOffset_createVid (st.vid pid + UInt64.ofNat nr).toNat pid mv).trans hn
  unfold insertRecord
  simp only [partition, filled, update_self, insertCells_filled nonempty own hp hs, update_idem,
    hnx]
  split_ifs with hi hr hr
  · rw [stampRecord_stamped sc ti _ pid mv nr _ hn, if_pos hr]
    rfl
  · rw [stampRecord_stamped sc ti _ pid mv nr _ hn, if_neg hr]
    rfl
  · rfl
  · rfl

/-- **What single inserts leave**, and that there was room. -/
theorem insertRecords_eq {s nr : Nat}
    (hs : ∀ i < nr, ∀ c ∈ st.columns, (rs i).read c.byteOffset c.unitSize =
      d.read (c.byteOffset * s + i * c.unitSize) c.unitSize)
    (hi : insertRecords sc rs ti par mv nr st = some a) :
    a = st.filled sc d s ti pid mv nr nr ∧ (st.vid pid).toNat % 2 ^ 40 + nr < 2 ^ 40 := by
  induction nr generalizing a with
  | zero =>
    cases hi
    exact ⟨(filled_zero d s pid).symm, mod_lt _ (by decide)⟩
  | succ nr ih =>
    obtain ⟨m, he, hl⟩ := bind_eq_some_iff.mp hi
    obtain ⟨rfl, hn⟩ := ih (fun i low => hs i (lt_succ_of_lt low)) he
    rw [insertRecord_filled nonempty partition hn (hs nr (lt_succ_self _))] at hl
    split_ifs at hl with hr
    have hli := sc.capacity_lt
    exact ⟨(some.inj hl).symm, by omega⟩

omit nonempty partition

theorem insertCellsBatch_eq (nonempty : cs ≠ []) (vid nr s : Nat) :
    insertCellsBatch sc d vid nr s cs =
      if getOffset vid + nr % 2 ^ 16 < sc.capacityPerPartition then
        some (cs.map fun c => c.filled d s (getPid vid) (getOffset vid) (nr % 2 ^ 16))
      else none := by
  unfold insertCellsBatch
  split_ifs with hr
  · refine mapM_eq_some fun c hm => ?_
    rw [Column.change, insertElemBatch_eq, Column.extent_capacity, if_pos hr]
    rfl
  · refine mapM_eq_none nonempty fun c hm => ?_
    rw [Column.change, insertElemBatch_eq, Column.extent_capacity, if_neg hr]
    rfl

/-- **What a batch leaves.** -/
theorem insertRecordBatch_eq (nonempty : st.columns ≠ []) (nr mc : Nat)
    (partition : par.val % sc.nPartitions = pid) :
    insertRecordBatch sc d nr mc ti par mv st =
      if (st.vid pid).toNat % 2 ^ 40 + nr % 2 ^ 16 < sc.capacityPerPartition ∧
          (sc.indexed = true → nr < 2 ^ 32) then
        some (st.filled sc d (stride nr mc) ti pid mv nr (nr % 2 ^ 16))
      else none := by
  have hs := partition ▸ pid_small sc par
  unfold insertRecordBatch
  simp only [partition, insertCellsBatch_eq nonempty, getOffset_createVid, getPid_createVid, hs,
    stampBatch_eq,
    filled]
  by_cases hr : (st.vid pid).toNat % 2 ^ 40 + nr % 2 ^ 16 < sc.capacityPerPartition
  · rw [if_pos hr]
    by_cases hi : sc.indexed = true
    · rw [if_pos hi]
      by_cases hsh : nr < 2 ^ 32
      · rw [if_pos ⟨hr, hsh⟩, if_pos ⟨hr, fun _ => hsh⟩, if_pos hi]
        rfl
      · rw [if_neg fun hb => hsh hb.2, if_neg fun hb => hsh (hb.2 hi)]
        rfl
    · rw [if_neg hi, if_pos ⟨hr, fun yes => absurd yes hi⟩, if_neg hi]
      rfl
  · have hm : ¬ ((st.vid pid).toNat % 2 ^ 40 + nr % 2 ^ 16 < sc.capacityPerPartition ∧
        (sc.indexed = true → nr < 2 ^ 32)) := fun hb => hr hb.1
    rw [if_neg hr, if_neg hm]
    split_ifs <;> rfl

theorem Column.filled_eq_iff (c : Column) (d : Memory) (s pid o : Nat) {nc f : Nat} (few : f ≤ nc) :
    c.filled d s pid o f = c.filled d s pid o nc ↔
      ∀ co < c.copies, (c.blocks pid co).read ((o + f) * c.unitSize) ((nc - f) * c.unitSize) =
        d.read (c.byteOffset * s + f * c.unitSize) ((nc - f) * c.unitSize) := by
  have hsp : d.read (c.byteOffset * s) (nc * c.unitSize) =
      d.read (c.byteOffset * s) (f * c.unitSize) ++
        d.read (c.byteOffset * s + f * c.unitSize) ((nc - f) * c.unitSize) := by
    rw [← read_append, ← Nat.add_mul, Nat.add_sub_cancel' few]
  have hb : ∀ co, (c.blocks pid co).write (o * c.unitSize)
      (d.read (c.byteOffset * s) (f * c.unitSize)) = (c.blocks pid co).write (o * c.unitSize)
          (d.read (c.byteOffset * s) (nc * c.unitSize)) ↔
      (c.blocks pid co).read ((o + f) * c.unitSize) ((nc - f) * c.unitSize) =
        d.read (c.byteOffset * s + f * c.unitSize) ((nc - f) * c.unitSize) := by
    intro co
    rw [hsp, eq_comm, write_append_eq_iff, length_read, length_read, Nat.add_mul]
  refine ⟨fun hs co low => ?_, fun ht => ?_⟩
  · have hbl := congrFun (congrFun (congrArg Column.blocks hs) pid) co
    simp only [Column.filled, update_self, if_pos low] at hbl
    exact (hb co).mp hbl
  · refine congrArg (fun hbl => { c with blocks := update c.blocks pid hbl }) ?_
    funext co
    split_ifs with low
    · exact (hb co).mpr (ht co low)
    · rfl

end

/-! ### A batch as single inserts -/

structure BatchStores (store : ColumnStore) (data : Memory) (numRecords maxCapacity pid : Nat) :
    Prop where
  room : (store.vid pid).toNat % 2 ^ 40 + numRecords % 2 ^ 16 < schema.capacityPerPartition
  short : schema.indexed = true → numRecords < 2 ^ 32
  there : ∀ column ∈ store.columns, ∀ copy < column.copies,
    (column.blocks pid copy).read
    (((store.vid pid).toNat % 2 ^ 40 + numRecords % 2 ^ 16) * column.unitSize)
        ((numRecords - numRecords % 2 ^ 16) * column.unitSize) =
      data.read
        (column.byteOffset * stride numRecords maxCapacity + numRecords % 2 ^ 16 * column.unitSize)
        ((numRecords - numRecords % 2 ^ 16) * column.unitSize)

/-- **A batch does what single inserts of its rows do** exactly under this condition. -/
theorem batch_matches_iff {store after : ColumnStore} (nonempty : store.columns ≠ [])
    {data : Memory}
    {records : Nat → Memory} {numRecords maxCapacity transactionId : Nat}
    {partitionId masterVer : Fin (2 ^ 8)}
    (same : SameRows records data numRecords maxCapacity store.columns)
    (inserted : insertRecords schema records transactionId partitionId masterVer numRecords store =
      some after) :
    insertRecordBatch schema data numRecords maxCapacity transactionId partitionId masterVer store =
      some after ↔
      BatchStores schema store data numRecords maxCapacity
          (partitionId.val % schema.nPartitions) := by
  obtain ⟨rfl, -⟩ := insertRecords_eq nonempty rfl same inserted
  have few := mod_le numRecords (2 ^ 16)
  rw [insertRecordBatch_eq nonempty numRecords maxCapacity rfl]
  refine ⟨fun hd => ?_, fun hs => ?_⟩
  · split_ifs at hd with hf
    have columns := congrArg columns (some.inj hd)
    refine ⟨hf.1, hf.2, fun c hm => ?_⟩
    exact (c.filled_eq_iff data _ _ _ few).mp (map_inj_left.mp columns c hm)
  · rw [if_pos ⟨hs.room, hs.short⟩]
    unfold filled
    rw [map_congr_left fun c hm =>
      (c.filled_eq_iff data _ _ _ few).mpr (hs.there c hm)]

/-! ### Two records -/

def demoSchema (capacity : Nat) (capacity_lt : capacity < 2 ^ 40) : Schema :=
  ⟨capacity, 1, true, 32, by decide, by decide, capacity_lt⟩

def demoStore : ColumnStore where
  vid _ := 0
  metaColumn _ place := ⟨0, false, createVid place 0 0⟩
  columns := [⟨4, 0, 2, fun _ _ _ => 0, by decide⟩, ⟨1, 4, 1, fun _ _ _ => 0, by decide⟩]

def demoData : Memory := fun place => UInt8.ofNat (place + 1)

def demoRecords (i : Nat) : Memory := fun place =>
  if place < 4 then UInt8.ofNat (4 * i + place + 1) else UInt8.ofNat (i + 9)

theorem demo_sameRows : SameRows demoRecords demoData 2 0 demoStore.columns := by
  unfold SameRows
  decide

theorem batch_matches_two : ∃ after,
    insertRecords (demoSchema 3 (by decide)) demoRecords 5 0 0 2 demoStore = some after ∧
      insertRecordBatch (demoSchema 3 (by decide)) demoData 2 0 5 0 0 demoStore = some after := by
  obtain ⟨after, hi⟩ := isSome_iff_exists.mp
    (show (insertRecords (demoSchema 3 (by decide)) demoRecords 5 0 0 2 demoStore).isSome by
      decide +kernel)
  refine ⟨after, hi, (batch_matches_iff _ (show demoStore.columns ≠ [] from cons_ne_nil _ _)
    demo_sameRows hi).mpr ?_⟩
  exact ⟨by decide +kernel, fun _ => by decide, fun c _ co _ => by simp [Memory.read]⟩

/-- Two single inserts fill a partition of two records; the batch finds no room. -/
theorem full_batch_fails : SameRows demoRecords demoData 2 0 demoStore.columns ∧
    (insertRecords (demoSchema 2 (by decide)) demoRecords 5 0 0 2 demoStore).isSome ∧
      insertRecordBatch (demoSchema 2 (by decide)) demoData 2 0 5 0 0 demoStore = none :=
  ⟨demo_sameRows, by decide +kernel, isNone_iff_eq_none.mp (by decide +kernel)⟩

end Proteus.Oltp.Layout
