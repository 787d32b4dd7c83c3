/-
**Partial versions** (`multi-version/mv-record-list.cpp`, `mv-versions.hpp`,
`layout/column-store/column_store.cpp`).

`MV_RecordList_Full` keeps the whole record before each update, `MV_RecordList_Partial` only the
columns that the update changes, with a mask of these columns and an array of their offsets. A
reader that is older than the record undoes the updates column by column, and takes what no version
has from the record.

The two agree where the record is read in place. Behind it little is as it should be: the array of
offsets starts with two entries of another kind, its index and that of the output are counted from
the wrong end of the mask, output offsets are those of the end of a column, the first version that
has a column wins and not the last one, and the columns of the record are taken by their position in
the request.

* `history_same` — updates change the record in the same way.
* `getIndexedPartial_first` — behind the record, the first of some columns with low numbers is not
  written.
* `history_reads_same` — reads in place agree, and requests of columns with low numbers agree only
  then.
-/

import Proteus.Oltp.Storage.ColumnStore

namespace Proteus.Oltp.Storage

open Library List Option

/-! ### Records with versions -/

/-- The table; what memory contains that was not written, and what lies behind a vector. -/
structure PartialConfig where
  table : Table
  blank : Memory
  overrun : Nat → Nat

/-- A version of the whole record, as far as it is read. -/
structure FullVersion where
  tMin : Nat
  data : Memory

structure PartialVersion where
  tMin : Nat
  attributeMask : BitVec 64
  dataSize : Nat
  data : Memory

structure Versioned (W : Type) where
  tMin : Nat
  row : Row
  versions : List W

/-- An update of some columns of the table, of all if none is named. -/
structure Update where
  start : Nat
  columns : List Nat
  data : List UInt8

/-- `insertRecord` -/
def Versioned.inserted {W : Type} (start : Nat) (row : Row) : Versioned W :=
    ⟨start % 2 ^ 63, row, []⟩

/-- `column_size` -/
def Table.columnSize (table : Table) (column : Nat) : Nat := table.unitSize column % 2 ^ 16

/-- `count` of a bitset. -/
def popCount (mask : BitVec 64) : Nat := (List.range 64).countP fun bit => mask.getLsbD bit

/-- The bits of some columns. -/
def maskOf (columns : List Nat) : BitVec 64 :=
  columns.foldl (fun mask column => mask ||| BitVec.twoPow 64 column) 0

/-! ### Updates -/

section

variable (config : PartialConfig)

/-- `updateRecord` with full versions. -/
def updateFull (record : Versioned FullVersion) (update : Update) : Versioned FullVersion where
  tMin := update.start % 2 ^ 63
  row := updateColumns config.table (updatedColumns config.table update.columns) update.data
    record.row
  versions := ⟨record.tMin, copyRecord config.table record.row 0 config.blank⟩ :: record.versions

def packedOffsets (table : Table) : List Nat → Nat → List Nat × Nat
  | [], size => ([], size)
  | column :: columns, size =>
    let (offsets, total) := packedOffsets table columns (size + table.columnSize column)
    (size % 2 ^ 16 :: offsets, total)

def attrMask (columns : List Nat) : BitVec 64 :=
  if columns = [] then BitVec.allOnes 64 else maskOf columns

def offsetBytes (columns : List Nat) : List UInt8 :=
  let verOffsets :=
    [64, 0] ++ (packedOffsets config.table (updatedColumns config.table columns) 0).1
  (List.range (popCount (attrMask columns))).flatMap fun index =>
    let offset := verOffsets.getD index (config.overrun index)
    [UInt8.ofNat offset, UInt8.ofNat (offset / 256)]

/-- `create_versions` -/
def createPartial (tMin : Nat) (columns : List Nat) : PartialVersion :=
  let size := (packedOffsets config.table (updatedColumns config.table columns) 0).2
  ⟨tMin, attrMask columns, size, config.blank.write size (offsetBytes config columns)⟩

def moveColumns (table : Table) : List Nat → Nat → List UInt8 → Row → Memory → Row × Memory
  | [], _, _, row, version => (row, version)
  | column :: columns, cursor, data, row, version =>
    moveColumns table columns (cursor + table.unitSize column) (data.drop (table.unitSize column))
      (row.set column (data.take (table.unitSize column)))
      (version.write cursor (row.getD column []))

/-- `updateRecord` with partial versions. -/
def updatePartial (record : Versioned PartialVersion) (update : Update) :
    Versioned PartialVersion :=
  let version := createPartial config record.tMin update.columns
  let (row, data) := moveColumns config.table (updatedColumns config.table update.columns) 0
    update.data
    record.row version.data
  ⟨update.start % 2 ^ 63, row, { version with data } :: record.versions⟩

end

/-! ### Reads -/

/-- `col_idx` and `num_cols`: columns by name, or all with a null `col_idx`, where `num_cols` is
`-1` if it is left out. -/
inductive ColumnRequest
  | all (numCols : Int)
  | named (columns : List Nat)

namespace ColumnRequest

def colIdx : ColumnRequest → Option (List Nat)
  | .all _ => none
  | .named columns => some columns

/-- The columns that a reader gets, where the record is read in place. -/
def columns (table : Table) (request : ColumnRequest) : List Nat :=
    request.colIdx.getD table.columns

def size (table : Table) (request : ColumnRequest) : Nat :=
    ((request.columns table).map table.unitSize).sum

end ColumnRequest

section

variable (config : PartialConfig)

/-- Cells one behind the other in the output. -/
def writeCells (size : Nat → Nat) (cell : Nat → List UInt8) : List Nat → Nat → Memory → Memory
  | [], _, output => output
  | column :: columns, offset, output =>
    writeCells size cell columns (offset + size column) (output.write offset (cell column))

/-- The columns exist. -/
def Table.Has (table : Table) (columns : List Nat) : Prop :=
  ∀ column ∈ columns, column < table.unitSizes.length

instance (table : Table) (columns : List Nat) : Decidable (table.Has columns) :=
  inferInstanceAs (Decidable (∀ column ∈ columns, _))

def readInPlace (row : Row) (request : ColumnRequest) (output : Memory) : Option Memory :=
  if config.table.Has (request.columns config.table) then
    some (writeCells config.table.unitSize (fun column => row.getD column [])
      (request.columns config.table) 0 output)
  else none

/-- `getIndexedRecord` with full versions. -/
def getIndexedFull (record : Versioned FullVersion) (reader : TxnTs) (request : ColumnRequest)
    (output : Memory) :
    Option Memory :=
  if reader.isReadable record.tMin then readInPlace config record.row request output
  else
    match record.versions.find? fun version => decide (reader.isReadable version.tMin) with
    | none => none
    | some version =>
      let requested := versionColumns config.table request.colIdx
      if config.table.Has requested then
        some (writeCells config.table.columnSize (fun column =>
          version.data.read (config.table.columnSizeOffset column).2
            (config.table.columnSize column))
          requested 0 output)
      else none

/-- `VersionMultiAttr::get_offset` -/
def PartialVersion.getOffset (version : PartialVersion) (column : Nat) : Nat :=
  let place := version.dataSize + 2 * popCount (version.attributeMask >>> (64 - column))
  (version.data place).toNat + 256 * (version.data (place + 1)).toNat

def returnColOffsets (table : Table) : List Nat → Nat → List Nat
  | [], _ => []
  | column :: columns, offset =>
    (offset + table.columnSize column) % 2 ^ 16 :: returnColOffsets table columns
    (offset + table.columnSize column)

def notRequired : ColumnRequest → BitVec 64
  | .all _ | .named [] => 0
  | .named (column :: columns) => ~~~maskOf (column :: columns)

def offsetIdxOutput (request : ColumnRequest) (column : Nat) : Nat :=
  match request with
  | .all numCols => if numCols = 0 then (config.table.columnSizeOffset column).2 else 0
  | .named [] => (config.table.columnSizeOffset column).2
  | .named (first :: columns) =>
    (returnColOffsets config.table (first :: columns) 0).getD
    (popCount (~~~notRequired request >>> (64 - column))) 0

def copyBefore (request : ColumnRequest) (tmp : BitVec 64) (version : PartialVersion) :
    List Nat → Memory → Option Memory
  | [], output => some output
  | column :: rest, output =>
    if tmp.getLsbD column then
      if column < config.table.unitSizes.length then
        copyBefore request tmp version rest (output.write (offsetIdxOutput config request column)
            (version.data.read (version.getOffset column) (config.table.columnSize column)))
      else none
    else copyBefore request tmp version rest output

def undoUpdates (reader : TxnTs) (request : ColumnRequest) :
    List PartialVersion → BitVec 64 → Memory → Option (BitVec 64 × Memory)
  | [], doneMask, output => some (doneMask, output)
  | version :: older, doneMask, output =>
    let tmp := version.attributeMask &&& ~~~doneMask
    match copyBefore config request tmp version (List.range 64) output with
    | none => none
    | some output =>
      if version.tMin = reader.txnId ∨ version.tMin < reader.startTime then
        some (doneMask ||| tmp, output)
      else undoUpdates reader request older (doneMask ||| tmp) output

def mergeAll (table : Table) (row : Row) (doneMask : BitVec 64) (output : Memory) : Memory :=
  table.columns.foldl (fun output column =>
    if doneMask.getLsbD column then output
    else output.write (table.columnSizeOffset column).2 (row.getD column [])) output

def mergeNamed (table : Table) (row : Row) (doneMask : BitVec 64) : List Nat → Nat → Nat → Memory →
    Option Memory
  | [], _, _, output => some output
  | column :: columns, position, writeOffset, output =>
    if doneMask.getLsbD position then
      mergeNamed table row doneMask columns (position + 1) (writeOffset + table.columnSize column)
        output
    else if position < table.unitSizes.length then
      mergeNamed table row doneMask columns (position + 1) (writeOffset + table.columnSize column)
        (output.write (writeOffset + table.columnSize column) (row.getD position []))
    else none

/-- The end of `getIndexedRecord`. -/
def merge (table : Table) (row : Row) (request : ColumnRequest) (doneMask : BitVec 64)
    (output : Memory) :
    Option Memory :=
  if doneMask = BitVec.allOnes 64 then some output
  else
    match request with
    | .all _ => some (mergeAll table row doneMask output)
    | .named columns => mergeNamed table row doneMask columns 0 0 output

/-- `getIndexedRecord` with partial versions. -/
def getIndexedPartial (record : Versioned PartialVersion) (reader : TxnTs) (request : ColumnRequest)
    (output : Memory) : Option Memory :=
  if reader.isReadable record.tMin then readInPlace config record.row request output
  else if record.versions = [] ∨ ¬ config.table.Has (request.columns config.table) then none
  else
    match undoUpdates config reader request record.versions (notRequired request) output with
    | none => none
    | some (doneMask, output) => merge config.table record.row request doneMask output

end

/-! ### Histories -/

section

variable (config : PartialConfig)

/-- A record after updates, with full versions. -/
def fullHistory (start : Nat) (row : Row) (updates : List Update) : Versioned FullVersion :=
  updates.foldl (updateFull config) (.inserted start row)

/-- A record after updates, with partial versions. -/
def partialHistory (start : Nat) (row : Row) (updates : List Update) : Versioned PartialVersion :=
  updates.foldl (updatePartial config) (.inserted start row)

/-- When the record was written last. -/
def lastStart (start : Nat) (updates : List Update) : Nat :=
    (updates.getLast?.map Update.start).getD start

def SameReads (full : Versioned FullVersion) (kept : Versioned PartialVersion) (reader : TxnTs)
    (request : ColumnRequest) : Prop :=
  ∀ output : Memory, (getIndexedFull config full reader request output).map
    (·.read 0 (request.size config.table)) =
      (getIndexedPartial config kept reader request output).map
      (·.read 0 (request.size config.table))

variable {config} {start s : Nat} {row r : Row} {updates us : List Update} {reader rd : TxnTs}
    {request : ColumnRequest}

theorem moveColumns_row (t : Table) (cs : List Nat) (cu : Nat) (d : List UInt8) (r : Row)
    (v : Memory) :
    (moveColumns t cs cu d r v).1 = updateColumns t cs d r := by
  induction cs generalizing cu d r v with
  | nil => rfl
  | cons c cs ih => exact ih _ _ _ _

/-- **Updates** change the index entry and the columns alike. -/
theorem history_same (config : PartialConfig) (s : Nat) (r : Row) (us : List Update) :
    (fullHistory config s r us).tMin = (partialHistory config s r us).tMin ∧
      (fullHistory config s r us).row = (partialHistory config s r us).row := by
  induction us using List.reverseRecOn with
  | nil => exact ⟨rfl, rfl⟩
  | append_singleton us u ih =>
    unfold fullHistory partialHistory at ih ⊢
    rw [foldl_append, foldl_append]
    refine ⟨rfl, ?_⟩
    show updateColumns _ _ _ _ = (moveColumns _ _ _ _ _ _).1
    rw [moveColumns_row, ih.2]

theorem fullHistory_find (config : PartialConfig) (r : Row) (us : List Update)
    (hl : rd.isReadable (s % 2 ^ 63)) :
    rd.isReadable (fullHistory config s r us).tMin ∨ ∃ v, (fullHistory config s r us).versions.find?
        (fun v => decide (rd.isReadable v.tMin)) = some v := by
  induction us using List.reverseRecOn with
  | nil => exact .inl hl
  | append_singleton us u ih =>
    refine .inr ?_
    unfold fullHistory at ih ⊢
    rw [foldl_append]
    show ∃ v, List.find? _ (_ :: _) = some v
    rcases ih with hr | ⟨v, hf⟩
    · exact ⟨_, List.find?_cons_of_pos (decide_eq_true hr)⟩
    · rw [List.find?_cons]
      split
      · exact ⟨_, rfl⟩
      · exact ⟨v, hf⟩

variable {columns cs : List Nat} {pl column c : Nat} {w output ou : Memory} {dm : BitVec 64}

open Memory

/-! ### The first column of a request -/

theorem writeCells_before {sz : Nat → Nat} {c : Nat → List UInt8}
    {o : Nat} (hb : pl < o) (ou : Memory) :
    writeCells sz c cs o ou pl = ou pl := by
  induction cs generalizing o ou with
  | nil => rfl
  | cons column cs ih =>
    rw [writeCells, ih (by omega), write_outside (.inl hb)]

open BitVec

theorem getLsbD_maskOf {bit : Nat} (set : (maskOf cs).getLsbD bit = true) : bit ∈ cs := by
  -- the bits that were there, or those of the columns
  have hut : ∀ m : BitVec 64, (cs.foldl (fun m column => m ||| twoPow 64 column)
      m).getLsbD bit = true → m.getLsbD bit = true ∨ bit ∈ cs := by
    clear set
    induction cs with
    | nil => exact fun m set => .inl set
    | cons column cs ih =>
      intro m set
      rcases ih _ set with ht | hm
      · rw [getLsbD_or, getLsbD_twoPow, Bool.or_eq_true, Bool.and_eq_true, decide_eq_true_eq,
          decide_eq_true_eq] at ht
        rcases ht with ht | ⟨_, hs⟩
        · exact .inl ht
        · exact .inr (hs ▸ mem_cons_self)
      · exact .inr (mem_cons_of_mem _ hm)
  rcases hut 0 set with ht | hm
  · simp at ht
  · exact hm

/-- The columns whose numbers are small: the shifts of the masks leave nothing of them. -/
def Low (columns : List Nat) : Prop := ∀ column ∈ columns, column < 32

theorem popCount_low (low : Low cs) (hs : c < 32) : popCount (maskOf cs >>> (64 - c)) = 0 := by
  refine countP_eq_zero.mpr fun bit _ set => ?_
  rw [getLsbD_ushiftRight] at set
  have := low _ (getLsbD_maskOf set)
  omega

variable {first f : Nat} {rest tl : List Nat}

theorem offsetIdxOutput_low (low : Low (f :: tl)) (hs : c < 32) :
    offsetIdxOutput config (.named (f :: tl)) c = config.table.columnSize f := by
  have hm : ~~~notRequired (.named (f :: tl)) = maskOf (f :: tl) := not_not
  simp only [offsetIdxOutput, hm, popCount_low low hs, returnColOffsets, getD_cons_zero,
    Nat.zero_add]
  exact Nat.mod_mod _ _

theorem copyBefore_first (low : Low (f :: tl)) {tmp : BitVec 64} {v : PartialVersion}
    (hi : ∀ column, tmp.getLsbD column = true → column ∈ f :: tl)
    (hb : pl < config.table.columnSize f)
    (hc : copyBefore config (.named (f :: tl)) tmp v cs ou = some w) :
    w pl = ou pl := by
  induction cs generalizing ou with
  | nil => rw [← some.inj hc]
  | cons column cs ih =>
    rw [copyBefore] at hc
    by_cases set : tmp.getLsbD column = true
    · rw [if_pos set] at hc
      split at hc
      · rw [ih hc, offsetIdxOutput_low low (low _ (hi column set)), write_outside (.inl hb)]
      · cases hc
    · rw [if_neg set] at hc
      exact ih hc

theorem undoUpdates_first (low : Low (f :: tl)) {vs : List PartialVersion} {r : BitVec 64}
    (hi : ∀ column < 64, dm.getLsbD column = false → column ∈ f :: tl)
    (hb : pl < config.table.columnSize f)
    (hu : undoUpdates config rd (.named (f :: tl)) vs dm ou = some (r, w)) : w pl = ou pl := by
  induction vs generalizing dm ou with
  | nil =>
    cases hu
    rfl
  | cons v o ih =>
    rw [undoUpdates] at hu
    have hw : ∀ column, (v.attributeMask &&& ~~~dm).getLsbD column = true → column ∈ f :: tl := by
      intro column set
      rw [getLsbD_and, getLsbD_not, Bool.and_eq_true, Bool.and_eq_true, decide_eq_true_eq,
        Bool.not_eq_true'] at set
      exact hi column set.2.1 set.2.2
    cases hc : copyBefore config (.named (f :: tl)) (v.attributeMask &&& ~~~dm) v
        (List.range 64) ou with
    | none =>
      rw [hc] at hu
      cases hu
    | some b =>
      simp only [hc] at hu
      have hk := copyBefore_first low hw hb hc
      split at hu
      · cases hu
        exact hk
      · rw [ih (fun column hbo hcl => ?_) hu, hk]
        rw [getLsbD_or, Bool.or_eq_false_iff] at hcl
        exact hi column hbo hcl.1

theorem mergeNamed_before {t : Table} {p wo : Nat} (hb : pl < wo)
    (hm : mergeNamed t r dm cs p wo ou = some w) :
    w pl = ou pl := by
  induction cs generalizing p wo ou with
  | nil => rw [← some.inj hm]
  | cons column cs ih =>
    rw [mergeNamed] at hm
    split at hm
    · exact ih (by omega) hm
    · split at hm
      · rw [ih (by omega) hm, write_outside (.inl (by omega))]
      · cases hm

theorem merge_first (hb : pl < config.table.columnSize f)
    (hm : merge config.table r (.named (f :: tl)) dm ou = some w) :
    w pl = ou pl := by
  rw [merge] at hm
  split at hm
  · rw [← some.inj hm]
  · simp only [mergeNamed] at hm
    split at hm
    · exact mergeNamed_before (by omega) hm
    · split at hm
      · rw [mergeNamed_before (by omega) hm, write_outside (.inl (by omega))]
      · cases hm

/-- **Behind the record**, the first of some columns with low numbers is not written at all. -/
theorem getIndexedPartial_first {r : Versioned PartialVersion} (low : Low (f :: tl))
    (ho : ¬ rd.isReadable r.tMin)
    (hb : pl < config.table.columnSize f)
    (hr : getIndexedPartial config r rd (.named (f :: tl)) ou = some w) :
    w pl = ou pl := by
  rw [getIndexedPartial, if_neg ho] at hr
  split at hr
  · cases hr
  · cases hu : undoUpdates config rd (.named (f :: tl)) r.versions
        (notRequired (.named (f :: tl))) ou with
    | none =>
      rw [hu] at hr
      cases hr
    | some re =>
      rw [hu] at hr
      rw [merge_first hb hr]
      refine undoUpdates_first low (fun column hbo hc => ?_) hb hu
      refine getLsbD_maskOf ?_
      rw [notRequired, getLsbD_not, decide_eq_true hbo, Bool.true_and, Bool.not_eq_false'] at hc
      exact hc

open ColumnRequest

theorem getIndexedFull_first {r : Versioned FullVersion} (ho : ¬ rd.isReadable r.tMin)
    {v : FullVersion}
    (hf : r.versions.find? (fun v => decide (rd.isReadable v.tMin)) = some v)
    (has : config.table.Has (f :: tl)) (hs : 0 < config.table.columnSize f) (ou : Memory) :
    ∃ w, getIndexedFull config r rd (.named (f :: tl)) ou = some w ∧
      w 0 = v.data (config.table.columnSizeOffset f).2 := by
  have columns : versionColumns config.table (named (f :: tl)).colIdx = f :: tl := rfl
  simp only [getIndexedFull, if_neg ho, hf, columns, if_pos has, writeCells]
  refine ⟨_, rfl, ?_⟩
  rw [writeCells_before (by omega), write_inside le_rfl (by rw [length_read]; omega),
    getD_eq_getElem?_getD, Nat.sub_zero, getElem?_read hs, Nat.add_zero, getD_some]

theorem fullHistory_tMin (config : PartialConfig) (s : Nat) (r : Row) (us : List Update) :
    (fullHistory config s r us).tMin = lastStart s us % 2 ^ 63 := by
  induction us using List.reverseRecOn with
  | nil => rfl
  | append_singleton us u _ =>
    rw [fullHistory, foldl_append, lastStart, List.getLast?_concat]
    rfl

/-- **Both ways agree** on reads in place. Behind the record, requests of columns with low numbers
never agree: what is given for the first column is what the output held before. -/
theorem history_reads_same (config : PartialConfig) (start : Nat) (row : Row)
    (updates : List Update)
    (reader : TxnTs) (request : ColumnRequest) :
    (reader.isReadable (lastStart start updates % 2 ^ 63) →
      SameReads config (fullHistory config start row updates)
        (partialHistory config start row updates) reader
        request) ∧
    ∀ first rest, request = .named (first :: rest) → Low (first :: rest) →
      config.table.Has (first :: rest) →
      0 < config.table.columnSize first → reader.isReadable (start % 2 ^ 63) →
      (SameReads config (fullHistory config start row updates)
      (partialHistory config start row updates) reader
        request ↔ reader.isReadable (lastStart start updates % 2 ^ 63)) := by
  obtain ⟨hst, hro⟩ := history_same config start row updates
  have hip : reader.isReadable (lastStart start updates % 2 ^ 63) → SameReads config
      (fullHistory config start row updates) (partialHistory config start row updates) reader
          request := by
    intro hr output
    rw [← fullHistory_tMin config start row updates] at hr
    rw [getIndexedFull, if_pos hr, getIndexedPartial, if_pos (hst ▸ hr), hro]
  refine ⟨hip, ?_⟩
  rintro first rest rfl low has hsi hl
  refine ⟨fun hs => ?_, hip⟩
  by_contra hu
  rw [← fullHistory_tMin config start row updates] at hu
  obtain ⟨v, hf⟩ := (fullHistory_find config row updates hl).resolve_left hu
  have hn : 0 < (named (first :: rest)).size config.table := by
    have := Nat.mod_le (config.table.unitSize first) (2 ^ 16)
    rw [Table.columnSize] at hsi
    simp only [size, columns, colIdx, getD_some, map_cons, sum_cons]
    omega
  -- the first byte is that of the version, and that of the output
  have hby : ∀ output : Memory, v.data (config.table.columnSizeOffset first).2 = output 0 := by
    intro output
    obtain ⟨f, hrf, first⟩ := getIndexedFull_first hu hf has hsi output
    have he := hs output
    rw [hrf, map_some] at he
    obtain ⟨k, hrk, hb⟩ := map_eq_some_iff.mp he.symm
    have hh := congrArg (fun hb => hb[0]?) hb
    simp only [getElem?_read hn, Nat.add_zero, Option.some.injEq] at hh
    rw [← first, ← hh]
    exact getIndexedPartial_first low (hst ▸ hu) hsi hrk
  exact absurd ((hby fun _ => 0).symm.trans (hby fun _ => 1)) (by decide)

/-- A reader of two columns that were updated one after the other. -/
theorem history_reads_same_two : let config : PartialConfig := ⟨⟨[1, 2]⟩, fun _ => 0, fun _ => 0⟩
    let updates : List Update := [⟨2, [1], [7, 8]⟩, ⟨3, [0], [9]⟩]
    (TxnTs.ofTicket 4).isReadable (lastStart 1 updates % 2 ^ 63) ∧
      SameReads config (fullHistory config 1 [[5], [6, 6]] updates)
        (partialHistory config 1 [[5], [6, 6]] updates) (.ofTicket 4) (.named [1, 0]) :=
  ⟨by decide, (history_reads_same _ 1 _ _ (.ofTicket 4) _).1 (by decide)⟩

/-- **A reader gets what was in its buffer.** A record of one byte is inserted as `5` and updated to
`7`; the transaction that started before the update reads `5` from the full version, and nothing
from the partial one. -/
theorem older_reader_unwritten : let config : PartialConfig := ⟨⟨[1]⟩, fun _ => 0, fun _ => 0⟩
    let updates : List Update := [⟨2, [0], [7]⟩]
    let reader := TxnTs.ofTicket 1
    let output : Memory := fun _ => 3
    (getIndexedFull config (fullHistory config 1 [[5]] updates) reader (.named [0]) output).map
    (·.read 0 1) = some [5] ∧
      (getIndexedPartial config (partialHistory config 1 [[5]] updates) reader
      (.named [0]) output).map (·.read 0 1) = some [3] ∧
      ¬ SameReads config (fullHistory config 1 [[5]] updates)
        (partialHistory config 1 [[5]] updates) reader
        (.named [0]) := by
  refine ⟨by decide +kernel, by decide +kernel, fun hs => ?_⟩
  exact absurd (hs fun _ => 3) (by decide +kernel)

end

end Proteus.Oltp.Storage
