/-
**Records with versions** (`storage/layout/column-store/column_store.cpp`,
`storage/multi-version/mv-record-list.cpp`, `mv-versions.hpp`).

A record lives in the columns of its table; an update first copies it into the delta store, behind a
header that links to the version before. The delta store is bytes (`Memory`), so that the model says
what a version overwrites. The copy is placed `alignof` bytes further than the header is long, while
only the header and the record are asked from the allocator.

* `createVersions_spec` — what a new version changes: header, list, and nothing outside the header.
* `copyRecord_eq`, `readColumns_eq` — a record is one block of bytes, and its columns are read from
  it.
-/

import Proteus.Library.ByteMemory
import Proteus.Oltp.Storage.DeltaStore

namespace Proteus.Oltp.Storage

open Library List

/-! ### Tables -/

/-- A record: one cell of bytes for each column. -/
abbrev Row := List (List UInt8)

structure Table where
  unitSizes : List Nat

namespace Table

def columns (table : Table) : List Nat := List.range table.unitSizes.length

def unitSize (table : Table) (column : Nat) : Nat := table.unitSizes.getD column 0

/-- `byteOffset_record` -/
def byteOffset (table : Table) (column : Nat) : Nat := (table.unitSizes.take column).sum

def recordSize (table : Table) : Nat := table.unitSizes.sum

/-- `column_size_offset_pairs`: both are kept in 16 bits. -/
def columnSizeOffset (table : Table) (column : Nat) : Nat × Nat :=
  (table.unitSize column % 2 ^ 16, table.byteOffset column % 2 ^ 16)

def Shapes (table : Table) (row : Row) : Prop := row.map List.length = table.unitSizes

end Table

/-! ### The store -/

abbrev RecordId := Nat

structure Config where
  table : RecordId → Table
  capacity : Nat
  dataMemoryBase : Nat → Nat
  tag : Nat → Nat
  alignOf : Nat
  vptr : List UInt8
  capacity_aligned : slackSize ∣ capacity
  capacity_lt : capacity < 2 ^ 36
  regions_apart : ∀ first second : Region, first ≠ second →
    dataMemoryBase first.deltaIdxPidPair + capacity ≤ dataMemoryBase second.deltaIdxPidPair ∨
      dataMemoryBase second.deltaIdxPidPair + capacity ≤ dataMemoryBase first.deltaIdxPidPair
  addressable : ∀ region : Region, dataMemoryBase region.deltaIdxPidPair + capacity + 8 < 2 ^ 64
  alignOf_le : alignOf ≤ 8
  vptr_length : vptr.length = 8
  tag_live : ∀ delta, tag delta % 2 ^ 20 ≠ 0

/-- `PRIMARY_INDEX_VAL` -/
structure IndexVal where
  tMin : Nat
  deleted : Bool
  deltaList : Nat

structure Store where
  memory : Memory
  partitions : Region → Partition
  index : RecordId → Option IndexVal
  rows : RecordId → Row

/-- A transaction that writes, with the thread it runs on. -/
structure Txn where
  startTime : Nat
  partitionId : Fin 8
  thread : ThreadId

def Txn.region (txn : Txn) : Region := ⟨deltaVersion txn.startTime, txn.partitionId⟩

/-! ### Versions -/

variable (config : Config)

/-- `verifyTag` -/
def isValid (ptr : Nat) : Prop :=
  config.tag (DeltaDataPtr.getDeltaIdx ptr) % 2 ^ 20 = DeltaDataPtr.getTag ptr

instance (ptr : Nat) : Decidable (isValid config ptr) :=
  inferInstanceAs (Decidable (_ = _))

/-- `get_ptr`: the address, or null. -/
def getPtr (ptr : Nat) : Nat :=
  if isValid config ptr then
    config.dataMemoryBase (DeltaDataPtr.getDeltaIdxPidPair ptr) + DeltaDataPtr.getOffset ptr
  else 0

/-- `sizeof(VersionSingle)` -/
def versionSize : Nat := 48

def versionHeader (tMin data size : Nat) : List UInt8 :=
  config.vptr ++ (Memory.wordBytes tMin ++ (Memory.wordBytes 0 ++ (Memory.wordBytes data ++
    (Memory.wordBytes size ++ Memory.wordBytes 0))))

def versionTMin (memory : Memory) (version : Nat) : Nat := memory.readWord (version + 8)

def versionData (memory : Memory) (version : Nat) : Nat := memory.readWord (version + 24)

def versionNext (memory : Memory) (version : Nat) : Nat := memory.readWord (version + 40)

/-- The bytes asked for a version: `total_size`. -/
def totalSize (record : RecordId) : Nat := (config.table record).recordSize + versionSize

def newVersion (record : RecordId) (index : IndexVal) (basePtr : Nat) (memory : Memory) : Memory :=
  let built := memory.write basePtr (versionHeader config index.tMin
    (basePtr + config.alignOf + versionSize) (config.table record).recordSize)
  if isValid config index.deltaList then built.writeWord (basePtr + 40) index.deltaList else built

def createVersions (txn : Txn) (record : RecordId) (index : IndexVal) (store : Store) :
    Option (Nat × IndexVal × Store) :=
  match getVersionDataChunk config.capacity txn.thread (totalSize config record)
    (store.partitions txn.region) with
  | none => none
  | some (offset, partition) =>
    let deltaDataPtr := DeltaDataPtr.make offset (config.tag txn.region.delta) txn.region
    let basePtr := getPtr config deltaDataPtr
    some (basePtr, { index with deltaList := deltaDataPtr }, { store with
        memory := newVersion config record index basePtr store.memory
        partitions := Function.update store.partitions txn.region partition })

/-! ### Writing -/

/-- `t_min` has 63 bits. -/
def stamp (index : IndexVal) (txn : Txn) : IndexVal :=
  { index with tMin := txn.startTime % 2 ^ 63 }

/-- `insertRecord` -/
def insertRecord (txn : Txn) (record : RecordId) (row : Row) (store : Store) : Store :=
  { store with
    index := Function.update store.index record (some (stamp ⟨0, false, 0⟩ txn))
    rows := Function.update store.rows record row }

/-- The loop that copies the record into its version. -/
def copyRecord (table : Table) (row : Row) (destination : Nat) (memory : Memory) : Memory :=
  table.columns.foldl (fun memory column => memory.write (destination + table.byteOffset column)
    (row.getD column []))
    memory

def updateColumns (table : Table) : List Nat → List UInt8 → Row → Row
  | [], _, row => row
  | column :: columns, data, row =>
    updateColumns table columns (data.drop (table.unitSize column))
      (row.set column (data.take (table.unitSize column)))

/-- `num_columns > 0 ? num_columns : columns.size()` -/
def updatedColumns (table : Table) (columns : List Nat) : List Nat :=
  if columns = [] then table.columns else columns

/-- `updateRecord` -/
def updateRecord (txn : Txn) (record : RecordId) (columns : List Nat) (data : List UInt8)
    (store : Store) : Option Store := do
  let index ← store.index record
  let (version, index, store) ← createVersions config txn record index store
  let table := config.table record
  let memory := copyRecord table (store.rows record) (versionData store.memory version) store.memory
  let row := updateColumns table (updatedColumns table columns) data (store.rows record)
  return { store with
    memory
    index := Function.update store.index record (some (stamp index txn))
    rows := Function.update store.rows record row }

/-- `deleteRecord`: nothing is copied into the version. -/
def deleteRecord (txn : Txn) (record : RecordId) (store : Store) : Option Store := do
  let index ← store.index record
  let (_, index, store) ← createVersions config txn record index store
  return { store with
    index := Function.update store.index record (some { stamp index txn with deleted := true }) }

/-! ### Reading -/

/-- The time stamps of a transaction. -/
structure TxnTs where
  txnId : Nat
  startTime : Nat

/-- `txnPairGen`: both stamps of the transaction that took `ticket`. -/
def TxnTs.ofTicket (ticket : Nat) : TxnTs := ⟨ticket * 2 ^ 27 % 2 ^ 64, ticket⟩

/-- `is_readable` -/
def TxnTs.isReadable (reader : TxnTs) (tMin : Nat) : Prop :=
  tMin ≤ reader.startTime ∨ tMin = reader.txnId

instance (reader : TxnTs) (tMin : Nat) : Decidable (reader.isReadable tMin) :=
  inferInstanceAs (Decidable (_ ∨ _))

inductive Fault
  | noRecord
  | tagVerificationFailed
  | nullVersion
  | runtimeError (message : String)
  | diverges
deriving DecidableEq

/-- The exception of a read. -/
def recordDoesNotExist : Fault := .runtimeError "Record does not exists"

/-- `get_readable_ver` -/
def getReadableVer (memory : Memory) (reader : TxnTs) : Nat → Nat → Except Fault Nat
  | 0, _ => .error .diverges
  | fuel + 1, ptr =>
    if isValid config ptr then
      let version := getPtr config ptr
      if reader.isReadable (versionTMin memory version) then .ok version
      else getReadableVer memory reader fuel (versionNext memory version)
    else .error .nullVersion

def readColumns (table : Table) (memory : Memory) (data : Nat) (columns : List Nat) : List UInt8 :=
  columns.flatMap fun column =>
    memory.read (data + (table.columnSizeOffset column).2) (table.columnSizeOffset column).1

def versionColumns (table : Table) : Option (List Nat) → List Nat
  | none | some [] => table.columns
  | some (column :: columns) => column :: columns

/-- `get_readable_version` -/
def getReadableVersion (store : Store) (record : RecordId) (index : IndexVal) (reader : TxnTs)
    (columns : Option (List Nat)) (fuel : Nat) : Except Fault (List UInt8) :=
  if isValid config index.deltaList then
    match getReadableVer config store.memory reader fuel index.deltaList with
    | .error fault => .error fault
    | .ok version =>
      let data := versionData store.memory version
      if data = 0 then .error .nullVersion
      else if index.deleted then .error recordDoesNotExist
      else .ok
        (readColumns (config.table record) store.memory data
        (versionColumns (config.table record) columns))
  else .error .tagVerificationFailed

/-- The cells of a row, one after the other. -/
def selectCells (row : Row) (columns : List Nat) : List UInt8 :=
  columns.flatMap fun column => row.getD column []

/-- `getIndexedRecord` -/
def getIndexedRecord (store : Store) (record : RecordId) (reader : TxnTs)
    (columns : Option (List Nat)) (fuel : Nat) : Except Fault (List UInt8) :=
  match store.index record with
  | none => .error .noRecord
  | some index =>
    if reader.isReadable index.tMin then
      if index.deleted then .error recordDoesNotExist
      else .ok (selectCells (store.rows record) (columns.getD (config.table record).columns))
    else getReadableVersion config store record index reader columns fuel

/-! ### A walk that ends needs no more fuel -/

section

variable {config} {me : Memory} {s : Store} {rc : RecordId} {i : IndexVal} {re : TxnTs}
  {cs : Option (List Nat)} {bs : List UInt8} {fu m : Nat}

theorem getReadableVer_mono {ptr v : Nat}
    (hf : getReadableVer config me re fu ptr = .ok v) (le : fu ≤ m) :
    getReadableVer config me re m ptr = .ok v := by
  induction fu generalizing ptr m with
  | zero => cases hf
  | succ fu ih =>
    obtain ⟨m, rfl⟩ : ∃ tl, m = tl + 1 := ⟨m - 1, by omega⟩
    rw [getReadableVer] at hf ⊢
    by_cases hv : isValid config ptr
    · rw [if_pos hv] at hf ⊢
      by_cases hr : re.isReadable (versionTMin me (getPtr config ptr))
      · simpa only [if_pos hr] using hf
      · simp only [if_neg hr] at hf ⊢
        exact ih hf (Nat.le_of_succ_le_succ le)
    · rw [if_neg hv] at hf
      cases hf

theorem getReadableVersion_mono (hr : getReadableVersion config s rc i re cs fu = .ok bs)
    (le : fu ≤ m) : getReadableVersion config s rc i re cs m = .ok bs := by
  unfold getReadableVersion at hr ⊢
  by_cases hv : isValid config i.deltaList
  · rw [if_pos hv] at hr ⊢
    cases hw : getReadableVer config s.memory re fu i.deltaList with
    | error f =>
      rw [hw] at hr
      cases hr
    | ok v =>
      rw [hw] at hr
      rw [getReadableVer_mono hw le]
      exact hr
  · rw [if_neg hv] at hr
    cases hr

theorem getIndexedRecord_mono (hr : getIndexedRecord config s rc re cs fu = .ok bs)
    (le : fu ≤ m) : getIndexedRecord config s rc re cs m = .ok bs := by
  unfold getIndexedRecord at hr ⊢
  cases hi : s.index rc with
  | none =>
    rw [hi] at hr
    cases hr
  | some i =>
    simp only [hi] at hr ⊢
    by_cases hre : re.isReadable i.tMin
    · rwa [if_pos hre] at hr ⊢
    · rw [if_neg hre] at hr ⊢
      exact getReadableVersion_mono hr le

end

/-! ### A record is one block -/

open Memory

section

variable {config} {t : Table} {r : Row} (shapes : t.Shapes r)

include shapes

theorem Table.Shapes.length : r.length = t.unitSizes.length := by
  rw [← shapes, length_map]

theorem Table.Shapes.length_flatten : r.flatten.length = t.recordSize := by
  rw [List.length_flatten, shapes, Table.recordSize]

theorem Table.Shapes.length_take (c : Nat) : (r.take c).flatten.length = t.byteOffset c := by
  rw [List.length_flatten, map_take, shapes, Table.byteOffset]

theorem Table.Shapes.length_getD (c : Nat) : (r.getD c []).length = t.unitSize c := by
  rw [Table.unitSize, ← shapes]
  simp only [getD_eq_getElem?_getD, List.getElem?_map]
  cases r[c]? <;> rfl

omit shapes

theorem flatten_take_succ (r : Row) (c : Nat) :
    (r.take (c + 1)).flatten = (r.take c).flatten ++ r.getD c [] := by
  by_cases low : c < r.length
  · rw [getD_eq_getElem _ _ low, ← flatten_concat, take_concat_get' r c low]
  · simp [take_of_length_le (not_lt.mp low), List.getElem?_eq_none (not_lt.mp low),
      take_of_length_le (Nat.le_succ_of_le (not_lt.mp low))]

theorem flatten_around (r : Row) (c : Nat) : r.flatten =
    (r.take c).flatten ++ (r.getD c [] ++ (r.drop (c + 1)).flatten) := by
  rw [← append_assoc, ← flatten_take_succ, ← flatten_append, take_append_drop]

/-- **Copying the columns** writes the record as one block. -/
theorem copyRecord_eq (shapes : t.Shapes r) (d : Nat) (m : Memory) :
    copyRecord t r d m = m.write d r.flatten := by
  -- the block that the first `count` columns make
  have hut : ∀ c, (List.range c).foldl (fun m cl =>
        m.write (d + t.byteOffset cl) (r.getD cl [])) m =
      m.write d (r.take c).flatten := fun c => by
    induction c with
    | zero => simp
    | succ c ih =>
      rw [range_succ, foldl_append, ih, foldl_cons, foldl_nil,
        ← shapes.length_take, write_append, flatten_take_succ]
  rw [copyRecord, Table.columns, ← shapes.length, hut, take_length]

/-- **Reading columns** from the block of a record. -/
theorem readColumns_eq (shapes : t.Shapes r) (hs : t.recordSize < 2 ^ 16) {m : Memory}
    {d : Nat} (hb : m.read d t.recordSize = r.flatten) (cs : List Nat) :
    readColumns t m d cs = selectCells r cs := by
  refine flatMap_congr fun c _ => ?_
  have ha := congrArg List.length (flatten_around r c)
  rw [shapes.length_flatten, length_append, length_append, shapes.length_take,
    shapes.length_getD] at ha
  simp only [Table.columnSizeOffset]
  rw [Nat.mod_eq_of_lt (by omega), Nat.mod_eq_of_lt (by omega),
    read_within _ (show _ ≤ t.recordSize by omega), hb, flatten_around r c,
    ← shapes.length_take, ← shapes.length_getD, drop_left, take_left]

end

/-! ### A new version -/

section

variable {config} {rc : RecordId} {i : IndexVal} {me : Memory} {basePtr bp : Nat}

@[simp]
theorem length_versionHeader (tm d sz : Nat) :
    (versionHeader config tm d sz).length = versionSize := by
  simp [versionHeader, config.vptr_length, versionSize]

/-- What a placement leaves at its address. -/
structure Placed (config : Config) (before after : Memory) (basePtr tMin next : Nat) : Prop where
  outside : ∀ place, place < basePtr ∨ basePtr + versionSize ≤ place → after place = before place
  vptr : ∀ place < 8, after (basePtr + place) = config.vptr.getD place 0
  tMin : versionTMin after basePtr = tMin
  data : versionData after basePtr = basePtr + config.alignOf + versionSize
  next : versionNext after basePtr = next

theorem newVersion_placed (hs : i.tMin < 2 ^ 64) (hli : i.deltaList < 2 ^ 64)
    (hsp : bp + config.alignOf + versionSize < 2 ^ 64) :
    Placed config me (newVersion config rc i bp me) bp i.tMin
      (if isValid config i.deltaList then i.deltaList else 0) := by
  have hl : ∀ p, p < bp + 40 ∨ bp + 48 ≤ p → newVersion config rc i bp me p =
        me.write bp (versionHeader config i.tMin (bp + config.alignOf + versionSize)
          (config.table rc).recordSize) p := fun p ho => by
    unfold newVersion
    split_ifs with hv
    · exact write_outside (by rw [length_wordBytes]; omega)
    · rfl
  -- a word of the header that the link leaves alone
  have w : ∀ s w : Nat, s + 8 ≤ 40 → w < 2 ^ 64 →
      ((versionHeader config i.tMin (bp + config.alignOf + versionSize)
        (config.table rc).recordSize).drop s).take 8 = wordBytes w →
      (newVersion config rc i bp me).readWord (bp + s) = w := by
    intro s w he hsm hb
    rw [readWord_congr fun p _ _ => hl p (Or.inl (by omega)), readWord,
      read_write_within s (by rw [length_versionHeader, versionSize]; omega), hb,
      bytesWord_wordBytes hsm]
  constructor
  · intro p ho
    simp only [versionSize] at ho
    rw [hl p (by omega), write_outside (by rw [length_versionHeader, versionSize]; omega)]
  · intro p low
    rw [hl _ (Or.inl (by omega)), write_inside (by omega)
      (by rw [length_versionHeader, versionSize]; omega), Nat.add_sub_cancel_left, versionHeader,
      getD_append _ _ _ _ (by rw [config.vptr_length]; exact low)]
  · exact w 8 _ (by omega) hs (by simp [versionHeader, config.vptr_length])
  · exact w 24 _ (by omega) hsp
      (by simp [versionHeader, config.vptr_length, drop_append, drop_of_length_le])
  · unfold versionNext newVersion
    split_ifs with hv
    · exact readWord_writeWord _ _ hli
    · rw [readWord, read_write_within 40 (by rw [length_versionHeader, versionSize])]
      simp [versionHeader, config.vptr_length, drop_append, drop_of_length_le,
        bytesWord_wordBytes, take_of_length_le]

end

end Proteus.Oltp.Storage
