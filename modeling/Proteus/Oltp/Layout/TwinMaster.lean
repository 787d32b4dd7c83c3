/-
**Twin masters** (`ColumnStore::insertRecord` and `updateRecord`, `CircularMasterColumn`,
`TransactionManager::switch_master` and `snapshot`).

With two master versions, updates go to the current one and the number of the record says where to
read all of its columns. A switch makes the other version current, a snapshot takes the metadata of
every column, and `syncSnapshot` copies to the new version what was updated in the previous one,
before the next update.

It copies a record only while its bit is not set in the new version, and no bit is ever cleared. A
column of a record that has been updated in both versions is copied no more: whoever then updates
another column in the version that was not the last to be written moves the whole record there, and
the column is stale.

* `Ledger` — what was last written to each column of each record.
* `Follows` — the invariant: a record whose bit is missing in a version has its value in the version
  that updates go to, and in the other one unless it awaits the next synchronisation.
* `run_reads_last` — while each update that moves a record also writes the columns that are copied
  no more, or these have the same value in both versions, every column of every record is read as
  last written.
* `update_reads_last_iff` — this condition is exact.
-/

import Proteus.Library.Machine
import Proteus.Oltp.Layout.CircularMaster

namespace Proteus.Oltp.Layout

open Library List Option Function

/-! ### The store -/

/-- Columns of eight bytes; a `partition_id_t` has eight bits. -/
structure TwinConfig where
  nPartitions : Nat
  capacityPerPartition : Nat
  nPartitions_le : nPartitions ≤ 2 ^ 8

def TwinConfig.extent (config : TwinConfig) : Extent := ⟨8, config.capacityPerPartition, word_pos⟩

def otherMaster (master : Nat) : Nat := (master + 1) % 2

/-- What is still to be done for a switch of the master. -/
inductive Phase
  | settled
  | switched
  | snapped
deriving DecidableEq

/-- The counters of the partitions, the record numbers in the index, the columns and the current
master. -/
structure TwinStore (n : Nat) where
  vid : Nat → Nat
  index : Nat → Nat → Nat
  columns : Fin n → Nat → MasterColumn
  currentMaster : Nat
  phase : Phase

/-- Some columns of a record with the data for them, or null. -/
abbrev Cells (n : Nat) := List (Fin n × Option (List UInt8))

inductive TwinAction (n : Nat)
  | insertRecord (pid masterVer : Nat) (row : Fin n → List UInt8)
  | updateRecord (pid offset : Nat) (cells : Cells n)
  | switchMaster
  | snapshot
  | syncSnapshot

variable {n : Nat}

def setColumn (columns : Fin n → Nat → MasterColumn) (col : Fin n) (pid : Nat)
    (column : MasterColumn) :
    Fin n → Nat → MasterColumn :=
  Function.update columns col (Function.update (columns col) pid column)

def eachCell (change : Option (List UInt8) → MasterColumn → Option MasterColumn) (pid : Nat)
    (cells : Cells n)
    (columns : Fin n → Nat → MasterColumn) : Option (Fin n → Nat → MasterColumn) :=
  cells.foldlM (fun columns (col, elem) =>
    (change elem (columns col pid)).map (setColumn columns col pid)) columns

namespace TwinStore

variable (config : TwinConfig)

/-- `insertRecord` -/
def insertRecord (pid masterVer : Nat) (row : Fin n → List UInt8) (store : TwinStore n) :
    Option (TwinStore n) := do
  let idx := store.vid pid
  let currVid := createVid idx pid masterVer
  let columns ← eachCell (MasterColumn.insert config.extent 2 (getOffset currVid)) (getPid currVid)
    ((List.finRange n).map fun col => (col, some (row col))) store.columns
  return { store with
    vid := Function.update store.vid pid (idx + 1)
    index :=
      Function.update store.index pid
        (Function.update (store.index pid) (getOffset currVid) currVid)
    columns }

def updateRecord (pid offset : Nat) (cells : Cells n) (store : TwinStore n) :
    Option (TwinStore n) := do
  let vid := updateMVer (store.index pid offset) store.currentMaster
  let columns ← eachCell (MasterColumn.updateElem config.extent (getMVersion vid) (getOffset vid))
    (getPid vid)
    cells store.columns
  return { store with
    index := Function.update store.index pid (Function.update (store.index pid) offset vid)
    columns }

/-- `switch_master` -/
def switchMaster (store : TwinStore n) : TwinStore n :=
  { store with currentMaster := otherMaster store.currentMaster, phase := .switched }

/-- `snapshot` of every column, for the version before the switch. -/
def snapshot (store : TwinStore n) : TwinStore n :=
  { store with
    columns := fun col pid =>
      (store.columns col pid).snapshot (store.vid pid) (otherMaster store.currentMaster)
    phase := .snapped }

/-- `syncSnapshot` of every column, from the version before the switch. -/
def syncSnapshot (store : TwinStore n) : TwinStore n :=
  { store with
    columns := fun col pid =>
      (store.columns col pid).syncSnapshot config.extent
      (otherMaster store.currentMaster) store.currentMaster
    phase := .settled }

/-- A column of a record, through its number in the index. -/
def read (store : TwinStore n) (pid offset : Nat) (col : Fin n) : List UInt8 :=
  let vid := store.index pid offset
  (store.columns col (getPid vid)).getElem config.extent (getMVersion vid) (getOffset vid)

end TwinStore

/-- The store: inserts at any time, updates only when the last switch has been synchronised. -/
def twinMaster (config : TwinConfig) (n : Nat) : Machine (TwinStore n) (TwinAction n) where
  Start store := store.vid = (fun _ => 0) ∧ store.columns = (fun _ _ => .fresh) ∧
    store.currentMaster = 0 ∧
    store.phase = .settled
  Enabled store
    | .insertRecord pid masterVer row => pid < config.nPartitions ∧
      store.vid pid < config.capacityPerPartition ∧ masterVer < 2 ∧ ∀ col, (row col).length = 8
    | .updateRecord pid offset cells => store.phase = .settled ∧ offset < store.vid pid ∧
        ∀ cell ∈ cells, (elemBytes cell.2).length = 8
    | .switchMaster => store.phase = .settled
    | .snapshot => store.phase = .switched
    | .syncSnapshot => store.phase = .snapped
  next store
    | .insertRecord pid masterVer row => store.insertRecord config pid masterVer row
    | .updateRecord pid offset cells => store.updateRecord config pid offset cells
    | .switchMaster => some store.switchMaster
    | .snapshot => some store.snapshot
    | .syncSnapshot => some (store.syncSnapshot config)

/-! ### What it is for -/

/-- The last value that was written to each column of each record. -/
structure Ledger (n : Nat) where
  numRecords : Nat → Nat
  values : Nat → Nat → Fin n → List UInt8

def overwrite (cells : Cells n) (row : Fin n → List UInt8) : Fin n → List UInt8 :=
  cells.foldl (fun row cell => Function.update row cell.1 (elemBytes cell.2)) row

namespace Ledger

def setRow (ledger : Ledger n) (pid offset : Nat) (row : Fin n → List UInt8) : Nat → Nat → Fin n →
    List UInt8 :=
  Function.update ledger.values pid (Function.update (ledger.values pid) offset row)

def next (ledger : Ledger n) : TwinAction n → Ledger n
  | .insertRecord pid _ row =>
    ⟨Function.update ledger.numRecords pid (ledger.numRecords pid + 1),
      ledger.setRow pid (ledger.numRecords pid) row⟩
  | .updateRecord pid offset cells =>
    ⟨ledger.numRecords, ledger.setRow pid offset (overwrite cells (ledger.values pid offset))⟩
  | _ => ledger

/-- After some actions. -/
def after (actions : List (TwinAction n)) : Ledger n :=
  actions.foldl next ⟨fun _ => 0, fun _ _ _ => []⟩

end Ledger

def ledgers (n : Nat) : Machine (Ledger n) (TwinAction n) where
  Start ledger := ledger = .after []
  Enabled _ _ := True
  next ledger action := some (ledger.next action)

theorem ledgers_run {acs : List (TwinAction n)} {l : Ledger n}
    (run : (ledgers n).Run (fun _ _ => True) acs l) : l = .after acs := by
  induction run with
  | start hi => exact hi
  | step _ _ _ ht ih =>
    cases ht
    rw [ih, Ledger.after, Ledger.after, foldl_append]
    rfl

/-- Every column of every record is read as last written. -/
def TwinStore.ReadsLast (config : TwinConfig) (store : TwinStore n) (ledger : Ledger n) : Prop :=
  ∀ pid offset, offset < ledger.numRecords pid → ∀ col,
    store.read config pid offset col = ledger.values pid offset col

def MasterColumn.Unsynced (column : MasterColumn) (offset : Nat) : Prop :=
  2 ^ 31 ≤ offset ∨ (column.updBits 0 offset = true ∧ column.updBits 1 offset = true)

instance (column : MasterColumn) (offset : Nat) : Decidable (column.Unsynced offset) :=
  inferInstanceAs (Decidable (_ ∨ _))

def CarriesAll (config : TwinConfig) (store : TwinStore n) : TwinAction n → Prop
  | .insertRecord pid _ _ => store.vid pid < 2 ^ 40
  | .updateRecord pid offset cells => getMVersion (store.index pid offset) ≠ store.currentMaster →
      ∀ col, col ∉ cells.map Prod.fst → (store.columns col pid).Unsynced offset →
        (store.columns col pid).getElem config.extent 0 offset = (store.columns col pid).getElem
          config.extent 1 offset
  | _ => True

/-! ### One column -/

theorem otherMaster_lt (m : Nat) : otherMaster m < 2 :=
  Nat.mod_lt _ (by decide)

variable {master m offset : Nat} {e : Option (List UInt8)} {pid : Nat} {cells cs : Cells n}
    {columns : Fin n → Nat → MasterColumn}

theorem otherMaster_ne : otherMaster m ≠ m := by
  unfold otherMaster
  omega

theorem otherMaster_otherMaster (low : m < 2) : otherMaster (otherMaster m) = m := by
  unfold otherMaster
  omega

theorem eq_or_otherMaster {v : Nat} (low : m < 2) (view_low : v < 2) :
    v = m ∨ v = otherMaster m := by
  unfold otherMaster
  omega

namespace MasterColumn

variable {extent ex : Extent} {column cl : MasterColumn}

theorem insert_spec (hi : offset < ex.capacity) (hs : (elemBytes e).length = ex.unitSize) :
    ∃ masters, cl.insert ex 2 offset e = some { cl with masters } ∧ ∀ master < 2, ∀ r,
      (masters master).element ex.unitSize r =
        if r = offset then elemBytes e else cl.getElem ex master r := by
  refine ⟨_, insert_eq hi .., fun master low r => ?_⟩
  rw [if_pos low, Memory.element_write _ hs]
  rfl

theorem updateElem_spec (hi : offset < ex.capacity) (mv : Nat)
    (hs : (elemBytes e).length = ex.unitSize) :
    ∃ masters updBits, cl.updateElem ex mv offset e =
        some { cl with masters, updBits, touched := true } ∧
      (∀ master r, (masters master).element ex.unitSize r =
        if master = mv ∧ r = offset then elemBytes e
          else cl.getElem ex master r) ∧
      ∀ master r, updBits master r =
        if master = mv ∧ r = offset then true else cl.updBits master r := by
  refine ⟨_, _, updateElem_eq hi .., fun master r => ?_, fun master r => ?_⟩
  · by_cases hh : master = mv
    · subst hh
      rw [update_self, Memory.element_write _ hs]
      exact if_congr (by simp) rfl rfl
    · rw [update_of_ne hh, if_neg fun hb => hh hb.1]
      rfl
  · by_cases hh : master = mv
    · subst hh
      rw [update_self, update_apply]
      exact if_congr (by simp) rfl rfl
    · rw [update_of_ne hh, if_neg fun hb => hh hb.1]

theorem getElem_same (hs : cl.getElem ex 0 offset = cl.getElem ex 1 offset)
    {v : Nat} (low : m < 2) (view_low : v < 2) :
    cl.getElem ex m offset = cl.getElem ex v offset := by
  have hf : ∀ m < 2, cl.getElem ex m offset = cl.getElem ex 0 offset := by
    intro m low
    rcases eq_or_otherMaster (by decide : 0 < 2) low with rfl | rfl
    · rfl
    · exact hs.symm
  rw [hf m low, hf v view_low]

theorem syncSnapshot_frame (ex : Extent) (cl : MasterColumn) (i a : Nat) :
    ∃ m, cl.syncSnapshot ex i a = { cl with masters := Function.update cl.masters a m } := by
  unfold syncSnapshot
  by_cases hi : cl.snapshotArena.numOfRecords = 0 ∨ cl.snapshotArena.updSinceLastSnapshot = false
  · refine ⟨cl.masters a, (if_pos hi).trans ?_⟩
    rw [update_eq_self]
  · exact ⟨_, if_neg hi⟩

theorem syncSnapshot_updBits (i a : Nat) : (cl.syncSnapshot ex i a).updBits = cl.updBits := by
  obtain ⟨m, hf⟩ := syncSnapshot_frame ex cl i a
  rw [hf]

theorem syncSnapshot_touched (i a : Nat) : (cl.syncSnapshot ex i a).touched = cl.touched := by
  obtain ⟨m, hf⟩ := syncSnapshot_frame ex cl i a
  rw [hf]

theorem syncSnapshot_getElem_inactive {i a : Nat} (ha : i ≠ a) (r : Nat) :
    (cl.syncSnapshot ex i a).getElem ex i r = cl.getElem ex i r := by
  obtain ⟨m, hf⟩ := syncSnapshot_frame ex cl i a
  rw [hf]
  show (Function.update cl.masters a m i).element ex.unitSize r = _
  rw [update_of_ne ha]
  rfl

theorem unsynced_iff (low : m < 2) (offset : Nat) : cl.Unsynced offset ↔ 2 ^ 31 ≤ offset ∨
      (cl.updBits m offset = true ∧ cl.updBits (otherMaster m) offset = true) := by
  unfold Unsynced
  rcases eq_or_otherMaster (by decide : 0 < 2) low with rfl | rfl
  · exact Iff.rfl
  · exact or_congr_right And.comm

/-- A record has its value where it is read. Unless it is no longer synchronised it also has it in
the version `source` that updates go to, and in the other one if it was not updated since the last
synchronisation. -/
structure Tracks (extent : Extent) (source : Nat) (updated : Bool) (column : MasterColumn)
    (offset view : Nat)
    (value : List UInt8) : Prop where
  read : column.getElem extent view offset = value
  ahead : ¬ column.Unsynced offset → column.getElem extent source offset = value
  behind : ¬ column.Unsynced offset → column.updBits source offset = false ∨ updated = false →
    column.getElem extent (otherMaster source) offset = value

section

variable {so o vi : Nat} {u : Bool} {v : List UInt8}

theorem Tracks.of_all (source_low : so < 2) (view_low : vi < 2)
    (hw : ∀ master < 2, cl.getElem ex master o = v) :
    cl.Tracks ex so u o vi v :=
  ⟨hw vi view_low, fun _ => hw so source_low, fun _ _ => hw _ (otherMaster_lt so)⟩

/-- **The frame**: a record that a step does not touch. -/
theorem Tracks.congr (ht : cl.Tracks ex so u o vi v) (a : MasterColumn)
    (source_low : so < 2) (view_low : vi < 2)
    (hs : ∀ master < 2, a.getElem ex master o = cl.getElem ex master o)
    (hb : ∀ master, a.updBits master o = cl.updBits master o) {s : Bool}
    (hc : s = false → u = false) : a.Tracks ex so s o vi v := by
  have hu : a.Unsynced o ↔ cl.Unsynced o := by
    unfold Unsynced
    rw [hb, hb]
  refine ⟨?_, fun hsy => ?_, fun hsy hq => ?_⟩
  · rw [hs vi view_low]
    exact ht.read
  · rw [hs so source_low]
    exact ht.ahead (mt hu.mpr hsy)
  · rw [hs _ (otherMaster_lt so)]
    rw [hb] at hq
    exact ht.behind (mt hu.mpr hsy) (hq.imp_right hc)

theorem Tracks.of_update (hw : cl.getElem ex so o = v) (hm : cl.updBits so o = true) :
    cl.Tracks ex so true o so v := by
  refine ⟨hw, fun _ => hw, fun _ hq => ?_⟩
  rcases hq with hc | hn
  · rw [hm] at hc
    cases hc
  · cases hn

/-- **A synchronisation** brings the other version up to date. -/
theorem Tracks.sync {c : Nat} (low : c < 2) (view_low : vi < 2) (hi : o < ex.capacity)
    (htr : cl.Tracks ex (otherMaster c) cl.snapshotArena.updSinceLastSnapshot o vi v)
    (ht : cl.updBits (otherMaster c) o = true → o < cl.snapshotArena.numOfRecords) :
    (cl.syncSnapshot ex (otherMaster c) c).Tracks ex c false o vi v := by
  have hbe := htr.behind
  rw [otherMaster_otherMaster low] at hbe
  have hu : (cl.syncSnapshot ex (otherMaster c) c).Unsynced o ↔ cl.Unsynced o := by
    unfold Unsynced
    rw [syncSnapshot_updBits]
  have ha : ¬ cl.Unsynced o → (cl.syncSnapshot ex (otherMaster c) c).getElem ex c o = v := by
    intro hs
    have he := (not_or.mp (mt (unsynced_iff low o).mpr hs))
    rw [getElem, syncSnapshot_element _ _ _ hi]
    split_ifs with hc
    · exact htr.ahead hs
    · refine hbe hs ?_
      by_contra hp
      obtain ⟨hm, updated⟩ := not_or.mp hp
      simp only [Bool.not_eq_false] at hm updated
      have ham := ht hm
      refine hc ⟨⟨by omega, updated⟩, not_le.mp he.1, ham.le, hm, ?_⟩
      exact Bool.eq_false_iff.mpr fun set => he.2 ⟨set, hm⟩
  refine ⟨?_, fun hs => ha (mt hu.mpr hs), fun hs _ => ?_⟩
  · rcases eq_or_otherMaster low view_low with rfl | rfl
    · rw [getElem, syncSnapshot_element _ _ _ hi]
      split_ifs with hc
      · obtain ⟨-, he, -, -, hcl⟩ := hc
        refine htr.ahead fun hu => ?_
        rcases (unsynced_iff low o).mp hu with hl | hb
        · omega
        · rw [hb.1] at hcl
          cases hcl
      · exact htr.read
    · rw [syncSnapshot_getElem_inactive otherMaster_ne]
      exact htr.read
  · rw [syncSnapshot_getElem_inactive otherMaster_ne]
    exact htr.ahead (mt hu.mpr hs)

end

structure Marked (phase : Phase) (source numRecords : Nat) (column : MasterColumn) : Prop where
  marked : ∀ master offset, column.updBits master offset = true → offset < numRecords
  taken : phase = .snapped → column.touched = false ∧
    ∀ offset, column.updBits source offset = true → offset < column.snapshotArena.numOfRecords

end MasterColumn

/-! ### Some columns of a record -/

theorem setColumn_apply (columns : Fin n → Nat → MasterColumn) (cl o : Fin n) (pid p : Nat)
    (c : MasterColumn) :
    setColumn columns cl pid c o p = if o = cl ∧ p = pid then c else columns o p := by
  unfold setColumn
  by_cases hs : o = cl
  · subst hs
    rw [update_self, update_apply]
    exact if_congr (by simp) rfl rfl
  · rw [update_of_ne hs, if_neg fun hb => hs hb.1]

/-- **The rule for a loop over cells**: each change keeps what is `Kept` and makes its column
`Good`. -/
theorem eachCell_rule {ch : Option (List UInt8) → MasterColumn → Option MasterColumn}
    (Kept : Fin n → MasterColumn → Prop) (Good : Fin n → MasterColumn → List UInt8 → Prop)
    (hw : ∀ cl elem, (cl, elem) ∈ cs → ∀ c, Kept cl c → ∃ a,
      ch elem c = some a ∧ Kept cl a ∧ Good cl a (elemBytes elem))
    (hk : ∀ cl, Kept cl (columns cl pid))
    (r : Fin n → List UInt8)
    (hg : ∀ cl, cl ∉ cs.map Prod.fst → Good cl (columns cl pid) (r cl)) :
    ∃ a, eachCell ch pid cs columns = some a ∧
      (∀ cl p, p ≠ pid ∨ cl ∉ cs.map Prod.fst → a cl p = columns cl p) ∧
      (∀ cl, Kept cl (a cl pid)) ∧ ∀ cl, Good cl (a cl pid) (overwrite cs r cl) := by
  induction cs generalizing columns r with
  | nil => exact ⟨columns, rfl, fun _ _ _ => rfl, hk, fun cl => hg cl not_mem_nil⟩
  | cons ce cs ih =>
    obtain ⟨cl, elem⟩ := ce
    obtain ⟨c, hc, hke, hgo⟩ := hw cl elem mem_cons_self _ (hk cl)
    have kept_next : ∀ o, Kept o (setColumn columns cl pid c o pid) := fun o => by
      rw [setColumn_apply]
      split_ifs with hs
      · rwa [hs.1]
      · exact hk o
    have good_next : ∀ o, o ∉ cs.map Prod.fst → Good o (setColumn columns cl pid c o pid)
          (Function.update r cl (elemBytes elem) o) := by
      intro o out
      rw [setColumn_apply]
      by_cases hs : o = cl
      · rw [if_pos ⟨hs, rfl⟩, hs, update_self]
        exact hgo
      · rw [if_neg fun hb => hs hb.1, update_of_ne hs]
        exact hg o (by simpa [hs] using out)
    obtain ⟨a, hd, hf, hk, hg⟩ :=
      ih (fun cl elem hm => hw cl elem (.tail _ hm)) kept_next _ good_next
    refine ⟨a, ?_, fun o p ha => ?_, hk, hg⟩
    · show ((ch elem (columns cl pid)).map (setColumn columns cl pid)).bind _ = some a
      rw [hc]
      exact hd
    · have apart_rest := ha.imp_right fun out hm => out (.tail _ hm)
      rw [hf o p apart_rest, setColumn_apply, if_neg]
      rintro ⟨rfl, rfl⟩
      exact ha.elim (fun hdi => hdi rfl) fun out => out mem_cons_self

theorem overwrite_all (co : List (Fin n)) (r : Fin n → List UInt8) :
    overwrite (co.map fun c => (c, some (r c))) r = r := by
  induction co with
  | nil => rfl
  | cons c co ih =>
    show overwrite _ (Function.update r c (r c)) = r
    rw [update_eq_self]
    exact ih

/-! ### The store follows the ledger -/

def TwinStore.source (store : TwinStore n) : Nat :=
  match store.phase with
  | .settled => store.currentMaster
  | .switched | .snapped => otherMaster store.currentMaster

def Phase.updated (column : MasterColumn) : Phase → Bool
  | .settled | .switched => column.touched
  | .snapped => column.snapshotArena.updSinceLastSnapshot

abbrev TwinStore.Tracked (config : TwinConfig) (store : TwinStore n) (column : MasterColumn)
    (offset view : Nat)
    (value : List UInt8) : Prop :=
  column.Tracks config.extent store.source (store.phase.updated column) offset view value

/-- **The invariant.** -/
structure TwinStore.Follows (config : TwinConfig) (store : TwinStore n) (ledger : Ledger n) :
    Prop where
  current : store.currentMaster < 2
  counts : ledger.numRecords = store.vid
  inside : ∀ pid, store.vid pid ≤ config.capacityPerPartition
  numbers : ∀ pid, ∀ offset < store.vid pid, getOffset (store.index pid offset) = offset ∧
    getPid (store.index pid offset) = pid ∧ getMVersion (store.index pid offset) < 2
  marked : ∀ col pid, (store.columns col pid).Marked store.phase store.source (store.vid pid)
  tracks : ∀ col pid, ∀ offset < store.vid pid, store.Tracked config (store.columns col pid) offset
    (getMVersion (store.index pid offset)) (ledger.values pid offset col)

namespace TwinStore

variable {config : TwinConfig} {store : TwinStore n} {ledger : Ledger n}

theorem source_lt (hc : store.currentMaster < 2) : store.source < 2 := by
  unfold source
  split
  · exact hc
  all_goals exact otherMaster_lt _

theorem Follows.start (hi : (twinMaster config n).Start store) :
    store.Follows config (.after []) := by
  obtain ⟨hno, hf, hfi, hs⟩ := hi
  have he : ∀ pid, store.vid pid = 0 := fun pid => congrFun hno pid
  refine ⟨by rw [hfi]; decide, hno.symm, fun pid => by rw [he]; exact Nat.zero_le _, ?_, ?_, ?_⟩
  · intro pid offset low
    rw [he] at low
    omega
  · intro c pid
    rw [hf, hs]
    exact ⟨fun _ _ hn => (nomatch hn), fun hn => nomatch hn⟩
  · intro c pid offset low
    rw [he] at low
    omega

variable (follows : store.Follows config ledger)

include follows

theorem Follows.readsLast : store.ReadsLast config ledger := by
  intro pid offset low c
  rw [follows.counts] at low
  obtain ⟨hp, hpa, -⟩ := follows.numbers pid offset low
  rw [read, hp, hpa]
  exact (follows.tracks c pid offset low).read

open TwinStore

/-! ### Switches -/

theorem Follows.switchMaster (hse : store.phase = .settled) :
    store.switchMaster.Follows config ledger := by
  have source : store.switchMaster.source = store.source := by
    rw [source, source, hse]
    exact otherMaster_otherMaster follows.current
  refine ⟨otherMaster_lt _, follows.counts, follows.inside, follows.numbers, fun c pid => ?_,
    fun c pid offset low => ?_⟩
  · exact ⟨(follows.marked c pid).marked, fun hn => nomatch hn⟩
  · have ht := follows.tracks c pid offset low
    unfold Tracked at ht ⊢
    rw [hse] at ht
    rw [source]
    exact ht

theorem Follows.snapshot (hsw : store.phase = .switched) :
    store.snapshot.Follows config ledger := by
  have source : store.snapshot.source = store.source := by
    rw [source, source, hsw]
    rfl
  refine ⟨follows.current, follows.counts, follows.inside, follows.numbers, fun c pid => ?_,
    fun c pid offset low => ?_⟩
  · have hm := (follows.marked c pid).marked
    exact ⟨hm, fun _ => ⟨rfl, fun offset => hm _ offset⟩⟩
  · have ht := follows.tracks c pid offset low
    unfold Tracked at ht ⊢
    rw [hsw] at ht
    rw [source]
    exact ht.congr (store.snapshot.columns c pid) (source_lt follows.current)
      (follows.numbers pid offset low).2.2 (fun _ _ => rfl) (fun _ => rfl) id

theorem Follows.syncSnapshot (hsn : store.phase = .snapped) :
    (store.syncSnapshot config).Follows config ledger := by
  have source : store.source = otherMaster store.currentMaster := by
    rw [source, hsn]
  refine ⟨follows.current, follows.counts, follows.inside, follows.numbers, fun c pid => ?_,
    fun c pid offset low => ?_⟩
  · refine ⟨fun master offset => ?_, fun hn => nomatch hn⟩
    show (MasterColumn.syncSnapshot _ _ _ _).updBits master offset = true → _
    rw [MasterColumn.syncSnapshot_updBits]
    exact (follows.marked c pid).marked master offset
  · have htr := follows.tracks c pid offset low
    obtain ⟨hq, ht⟩ := (follows.marked c pid).taken hsn
    unfold Tracked at htr
    rw [source, hsn] at htr
    rw [source] at ht
    have hi := Nat.lt_of_lt_of_le low (follows.inside pid)
    have hto : ((store.syncSnapshot config).columns c pid).touched = false :=
      (MasterColumn.syncSnapshot_touched ..).trans hq
    have hsy := htr.sync follows.current (follows.numbers pid offset low).2.2 hi (ht offset)
    show MasterColumn.Tracks _ _ ((store.syncSnapshot config).columns c pid).touched _ _ _ _
    rw [hto]
    exact hsy

omit follows

/-! ### Inserts and updates -/

/-- A column is right but for one record, which is being written. -/
structure KeepsOthers (config : TwinConfig) (store : TwinStore n) (ledger : Ledger n)
    (pid offset numRecords : Nat)
    (col : Fin n) (column : MasterColumn) : Prop where
  marked : column.Marked store.phase store.source numRecords
  tracks : ∀ record < numRecords, record ≠ offset →
    store.Tracked config column record (getMVersion (store.index pid record))
      (ledger.values pid record col)

variable {row ro : Fin n → List UInt8} {col : Fin n}

/-- **A record is written**, whatever it was before. -/
theorem Follows.write (follows : store.Follows config ledger) {nr nu : Nat}
     (hp : getOffset nu = offset)
    (hpa : getPid nu = pid) (hv : getMVersion nu < 2)
    (ho : ∀ r < nr, r ≠ offset → r < store.vid pid)
    (hf : nr ≤ config.capacityPerPartition)
    (hfr : ∀ col o, o ≠ pid → columns col o = store.columns col o)
    (hk : ∀ col, store.KeepsOthers config ledger pid offset nr col (columns col pid))
    (hg : ∀ col, store.Tracked config (columns col pid) offset (getMVersion nu) (ro col)) :
    Follows config { store with
        vid := Function.update store.vid pid nr
        index := Function.update store.index pid (Function.update (store.index pid) offset nu)
        columns }
      ⟨Function.update ledger.numRecords pid nr, ledger.setRow pid offset ro⟩ := by
  refine ⟨follows.current, by rw [follows.counts], fun o => ?_, fun o r low => ?_, fun col o => ?_,
    fun col o r low => ?_⟩
  all_goals
    simp only [Ledger.setRow] at *
    by_cases hh : o = pid
  · rw [hh, update_self]
    exact hf
  · rw [update_of_ne hh]
    exact follows.inside o
  · subst hh
    rw [update_self] at low ⊢
    by_cases hs : r = offset
    · rw [hs, update_self]
      exact ⟨hp, hpa, hv⟩
    · rw [update_of_ne hs]
      exact follows.numbers _ r (ho r low hs)
  · rw [update_of_ne hh] at low ⊢
    exact follows.numbers o r low
  · rw [hh, update_self]
    exact (hk col).marked
  · rw [update_of_ne hh, hfr col o hh]
    exact follows.marked col o
  · subst hh
    rw [update_self] at low ⊢
    rw [update_self]
    by_cases hs : r = offset
    · rw [hs, update_self, update_self]
      exact hg col
    · rw [update_of_ne hs, update_of_ne hs]
      exact (hk col).tracks r low hs
  · rw [update_of_ne hh] at low ⊢
    rw [update_of_ne hh, hfr col o hh]
    exact follows.tracks col o r low

theorem updated_masters (p : Phase) (c : MasterColumn) (masters : Nat → Memory) :
    p.updated { c with masters } = p.updated c := by
  cases p <;> rfl

section

variable (follows : store.Follows config ledger)

include follows

variable {c : MasterColumn}

theorem KeepsOthers.insert {mv : Nat} (hr : store.vid pid < config.capacityPerPartition)
    (hv : mv < 2) (hs : (elemBytes e).length = 8)
    (hk : store.KeepsOthers config ledger pid (store.vid pid) (store.vid pid + 1) col c) :
    ∃ a, c.insert config.extent 2 (store.vid pid) e = some a ∧
      store.KeepsOthers config ledger pid (store.vid pid) (store.vid pid + 1) col a ∧
      store.Tracked config a (store.vid pid) mv (elemBytes e) := by
  have source_low := source_lt follows.current
  have hi := hr
  have hwi : (elemBytes e).length = config.extent.unitSize := hs
  obtain ⟨masters, hin, hw⟩ := MasterColumn.insert_spec hi hwi
  refine ⟨_, hin, ⟨⟨hk.marked.marked, hk.marked.taken⟩, fun r low ha => ?_⟩, ?_⟩
  · unfold Tracked
    rw [updated_masters]
    refine (hk.tracks r low ha).congr { c with masters } source_low
      (follows.numbers pid r (by omega)).2.2 (fun master hb => ?_) (fun _ => rfl) id
    exact (hw master hb r).trans (if_neg ha)
  · exact .of_all source_low hv fun master hb => (hw master hb _).trans (if_pos rfl)

theorem Follows.insertRecord {mv : Nat} (hs : pid < config.nPartitions)
    (hr : store.vid pid < config.capacityPerPartition) (hv : mv < 2)
    (hsi : ∀ col, (ro col).length = 8) (hsh : store.vid pid < 2 ^ 40) :
    ∃ a, store.insertRecord config pid mv ro = some a ∧
      a.Follows config (ledger.next (.insertRecord pid mv ro)) := by
  have hp : getOffset (createVid (store.vid pid) pid mv) = store.vid pid := by
    rw [getOffset_createVid, Nat.mod_eq_of_lt hsh]
  have hpa : getPid (createVid (store.vid pid) pid mv) = pid := by
    rw [getPid_createVid, Nat.mod_eq_of_lt (hs.trans_le config.nPartitions_le)]
  have hn : getMVersion (createVid (store.vid pid) pid mv) = mv := by
    rw [getMVersion_createVid, Nat.mod_eq_of_lt (hv.trans (by decide))]
  have hk : ∀ col, store.KeepsOthers config ledger pid (store.vid pid) (store.vid pid + 1) col
      (store.columns col pid) := by
    intro col
    have hma := follows.marked col pid
    refine ⟨⟨fun master r set => (hma.marked master r set).trans (Nat.lt_succ_self _), hma.taken⟩,
      fun r low ha => follows.tracks col pid r (by omega)⟩
  have hl : ∀ c ∈ (List.finRange n).map (fun col => (col, some (ro col))),
      (elemBytes c.2).length = 8 := by
    intro c hm
    obtain ⟨col, -, rfl⟩ := mem_map.mp hm
    exact hsi col
  obtain ⟨columns, hd, hf, hk, hg⟩ := eachCell_rule _
    (fun _ column v => store.Tracked config column (store.vid pid) mv v)
    (fun col elem hm column hk => hk.insert follows hr hv (hl (col, elem) hm)) hk
    ro (fun col out => absurd (by simp) out)
  rw [overwrite_all] at hg
  have hw := follows.write hp hpa (hn.trans_lt hv) (fun r low ha => by omega) hr
    (fun col o ha => hf col o (.inl ha)) hk (fun col => hn ▸ hg col)
  rw [← congrFun follows.counts pid] at hw
  refine ⟨_, ?_, hw⟩
  rw [TwinStore.insertRecord, hp, hpa, hd, follows.counts]
  rfl

theorem KeepsOthers.update (hse : store.phase = .settled) (low : offset < store.vid pid)
    (hs : (elemBytes e).length = 8)
    (hk : store.KeepsOthers config ledger pid offset (store.vid pid) col c) :
    ∃ a, c.updateElem config.extent store.currentMaster offset e = some a ∧
      store.KeepsOthers config ledger pid offset (store.vid pid) col a ∧
      store.Tracked config a offset store.currentMaster (elemBytes e) := by
  have source : store.source = store.currentMaster := by rw [source, hse]
  have source_low := source_lt follows.current
  have hi := Nat.lt_of_lt_of_le low (follows.inside pid)
  have hwi : (elemBytes e).length = config.extent.unitSize := hs
  obtain ⟨masters, updBits, hu, hw, hm⟩ := MasterColumn.updateElem_spec hi store.currentMaster hwi
  refine ⟨_, hu, ⟨⟨fun master r set => ?_, fun hsn => ?_⟩, fun r hbo ha => ?_⟩, ?_⟩
  · change updBits master r = true at set
    rw [hm] at set
    split_ifs at set with hh
    · rw [hh.2]
      exact low
    · exact hk.marked.marked master r set
  · rw [hse] at hsn
    cases hsn
  · refine (hk.tracks r hbo ha).congr { c with masters, updBits, touched := true } source_low
      (follows.numbers pid r hbo).2.2 (fun master _ => ?_) (fun master => ?_) fun hc => ?_
    · exact (hw master r).trans (if_neg fun hb => ha hb.2)
    · exact (hm master r).trans (if_neg fun hb => ha hb.2)
    · rw [hse] at hc
      cases hc
  · unfold Tracked
    rw [source, hse]
    exact .of_update ((hw _ _).trans (if_pos ⟨rfl, rfl⟩)) ((hm _ _).trans (if_pos ⟨rfl, rfl⟩))

theorem Follows.getMVersion_moved (vid : Nat) :
    getMVersion (updateMVer vid store.currentMaster) = store.currentMaster := by
  rw [getMVersion_updateMVer, Nat.mod_eq_of_lt (follows.current.trans (by decide))]

theorem Follows.keepsOthers (pid offset : Nat) (col : Fin n) :
    store.KeepsOthers config ledger pid offset (store.vid pid) col (store.columns col pid) :=
  ⟨follows.marked col pid, fun r hb _ => follows.tracks col pid r hb⟩

variable (settled : store.phase = .settled) (low : offset < store.vid pid)

include settled low

theorem Follows.moved (hc : CarriesAll config store (.updateRecord pid offset cs))
    (out : col ∉ cs.map Prod.fst) :
      store.Tracked config (store.columns col pid) offset store.currentMaster
      (ledger.values pid offset col) := by
  have source : store.source = store.currentMaster := by rw [source, settled]
  have ht := follows.tracks col pid offset low
  refine ⟨?_, ht.ahead, ht.behind⟩
  by_cases hst : getMVersion (store.index pid offset) = store.currentMaster
  · rw [← hst]
    exact ht.read
  by_cases hu : (store.columns col pid).Unsynced offset
  · have hs := hc hst col out hu
    rw [← ht.read]
    exact MasterColumn.getElem_same hs follows.current (follows.numbers pid offset low).2.2
  · rw [← source]
    exact ht.ahead hu

theorem Follows.updateRecord (hs : ∀ c ∈ cs, (elemBytes c.2).length = 8)
    (hc : CarriesAll config store (.updateRecord pid offset cs)) :
    ∃ a, store.updateRecord config pid offset cs = some a ∧
      a.Follows config (ledger.next (.updateRecord pid offset cs)) := by
  obtain ⟨hp, hpa, -⟩ := follows.numbers pid offset low
  have hv := follows.getMVersion_moved (store.index pid offset)
  obtain ⟨columns, hd, hf, hk, hg⟩ := eachCell_rule _
    (fun _ column v => store.Tracked config column offset store.currentMaster v)
    (fun col elem hm column hk => hk.update follows settled low (hs (col, elem) hm))
    (follows.keepsOthers pid offset) (ledger.values pid offset)
    (fun col out => follows.moved settled low hc out)
  have hw := follows.write ((getOffset_updateMVer ..).trans hp) ((getPid_updateMVer ..).trans hpa)
    (hv.trans_lt follows.current) (fun r hb _ => hb) (follows.inside pid)
    (fun col o ha => hf col o (.inl ha)) hk (fun col => hv ▸ hg col)
  rw [update_eq_self, ← congrFun follows.counts pid, update_eq_self] at hw
  refine ⟨_, ?_, hw⟩
  rw [TwinStore.updateRecord, hv, getOffset_updateMVer, getPid_updateMVer, hp, hpa, hd]
  rfl

omit follows settled low in
theorem overwrite_of_not_mem (out : col ∉ cells.map Prod.fst)
    (row : Fin n → List UInt8) : overwrite cells row col = row col := by
  induction cells generalizing row with
  | nil => rfl
  | cons cell cells ih =>
    rw [map_cons, mem_cons, not_or] at out
    exact (ih out.2 _).trans (update_of_ne out.1 ..)

theorem Follows.carriesAll (hs : ∀ c ∈ cs, (elemBytes c.2).length = 8) {a : TwinStore n}
    (hu : store.updateRecord config pid offset cs = some a)
    (hr : a.ReadsLast config (ledger.next (.updateRecord pid offset cs))) :
    CarriesAll config store (.updateRecord pid offset cs) := by
  intro hmo col out _
  obtain ⟨hp, hpa, view_low⟩ := follows.numbers pid offset low
  have hve := follows.getMVersion_moved (store.index pid offset)
  obtain ⟨columns, hd, hf, -⟩ :=
      eachCell_rule _ (fun _ _ _ => True) (fun col elem hm column hk => by
      obtain ⟨column, hw, hk, -⟩ := hk.update follows settled low (hs (col, elem) hm)
      exact ⟨column, hw, hk, trivial⟩)
    (follows.keepsOthers pid offset) (ledger.values pid offset) fun _ _ => trivial
  rw [TwinStore.updateRecord, hve, getOffset_updateMVer, getPid_updateMVer, hp, hpa, hd] at hu
  cases hu
  have hl := hr pid offset (by rwa [← follows.counts] at low) col
  have hv : (ledger.next (.updateRecord pid offset cs)).values pid offset col =
      ledger.values pid offset col := by
    show Function.update ledger.values pid (Function.update (ledger.values pid) offset _) pid offset
      col = _
    rw [update_self, update_self, overwrite_of_not_mem out]
  rw [hv, ← (follows.tracks col pid offset low).read, TwinStore.read] at hl
  simp only [update_self, hve, getOffset_updateMVer, getPid_updateMVer, hp, hpa,
    hf col pid (.inr out)] at hl
  have hc := follows.current
  have hvr : store.currentMaster = 0 ∧ getMVersion (store.index pid offset) = 1 ∨
      store.currentMaster = 1 ∧ getMVersion (store.index pid offset) = 0 := by omega
  rcases hvr with ⟨hz, one⟩ | ⟨one, hz⟩
  · rwa [hz, one] at hl
  · rw [hz, one] at hl
    exact hl.symm

end

end TwinStore

def twinSimulation (config : TwinConfig) (n : Nat) :
    (twinMaster config n).Simulation (ledgers n) (CarriesAll config) where
  Relates store ledger := store.Follows config ledger
  start store initial := ⟨.after [], rfl, .start initial⟩
  step store ledger action follows enabled allowed := by
    have stepped : ∃ after, (twinMaster config n).next store action = some after ∧
        after.Follows config (ledger.next action) := by
      cases action with
      | insertRecord pid masterVer row =>
        obtain ⟨small, room, version, sized⟩ := enabled
        exact follows.insertRecord small room version sized allowed
      | updateRecord pid offset cells =>
        obtain ⟨settled, low, sized⟩ := enabled
        exact follows.updateRecord settled low sized allowed
      | switchMaster => exact ⟨_, rfl, follows.switchMaster enabled⟩
      | snapshot => exact ⟨_, rfl, follows.snapshot enabled⟩
      | syncSnapshot => exact ⟨_, rfl, follows.syncSnapshot enabled⟩
    obtain ⟨after, done, kept⟩ := stepped
    exact ⟨after, _, done, trivial, rfl, kept⟩

section

variable {config cf : TwinConfig} {actions : List (TwinAction n)} {store : TwinStore n}

theorem run_follows (run : (twinMaster cf n).Run (CarriesAll cf) actions store) :
    store.Follows cf (.after actions) := by
  obtain ⟨l, ha, hf⟩ := (twinSimulation cf n).run run
  rw [← ledgers_run ha]
  exact hf

/-- **Every column of every record is read as last written**, in every run in which each update that
moves a record leaves out only columns that are synchronised or the same in both versions; and no
step fails. -/
theorem run_reads_last (run : (twinMaster config n).Run (CarriesAll config) actions store) :
    store.ReadsLast config (.after actions) ∧
    ∀ action, (twinMaster config n).Enabled store action → CarriesAll config store action →
      ∃ after, (twinMaster config n).next store action = some after :=
  ⟨(run_follows run).readsLast, fun _ he ha =>
    (twinSimulation config n).progress run he ha⟩

/-- **The condition is exact**: an update after such a run keeps this if and only if it meets it. -/
theorem update_reads_last_iff (run : (twinMaster config n).Run (CarriesAll config) actions store)
    (enabled : (twinMaster config n).Enabled store (.updateRecord pid offset cells)) :
    (∃ after, store.updateRecord config pid offset cells = some after ∧
      after.ReadsLast config (.after (actions ++ [.updateRecord pid offset cells]))) ↔
    CarriesAll config store (.updateRecord pid offset cells) := by
  have hf := run_follows run
  obtain ⟨hse, low, hs⟩ := enabled
  rw [Ledger.after, foldl_append]
  refine ⟨?_, fun hc => ?_⟩
  · rintro ⟨after, hu, hr⟩
    exact hf.carriesAll hse low hs hu hr
  · obtain ⟨after, hu, hk⟩ := hf.updateRecord hse low hs hc
    exact ⟨after, hu, hk.readsLast⟩

end

/-! ### Two columns -/

instance (config : TwinConfig) (store : TwinStore n) (action : TwinAction n) :
    Decidable ((twinMaster config n).Enabled store action) :=
  match action with
  | .insertRecord .. => inferInstanceAs (Decidable (_ ∧ _))
  | .updateRecord .. => inferInstanceAs (Decidable (_ ∧ _))
  | .switchMaster => inferInstanceAs (Decidable (_ = _))
  | .snapshot => inferInstanceAs (Decidable (_ = _))
  | .syncSnapshot => inferInstanceAs (Decidable (_ = _))

instance (config : TwinConfig) (store : TwinStore n) (action : TwinAction n) :
    Decidable (CarriesAll config store action) :=
  match action with
  | .insertRecord .. => inferInstanceAs (Decidable (_ < _))
  | .updateRecord .. => inferInstanceAs (Decidable (_ → _))
  | .switchMaster => inferInstanceAs (Decidable True)
  | .snapshot => inferInstanceAs (Decidable True)
  | .syncSnapshot => inferInstanceAs (Decidable True)

def demoTwinConfig : TwinConfig := ⟨1, 4, by decide⟩

def demoTwinStore : TwinStore 2 := ⟨fun _ => 0, fun _ _ => 0, fun _ _ => .fresh, 0, .settled⟩

def demoCell (col : Fin 2) (word : Nat) : Fin 2 × Option (List UInt8) :=
    (col, some (Memory.wordBytes word))

def demoUpdates : List (TwinAction 2) :=
  [.insertRecord 0 0 fun _ => Memory.wordBytes 1, .updateRecord 0 0 [demoCell 0 2],
    .switchMaster, .snapshot, .syncSnapshot, .updateRecord 0 0 [demoCell 0 3]]

def demoSwitchBack : List (TwinAction 2) :=
  [.switchMaster, .snapshot, .syncSnapshot, .updateRecord 0 0 [demoCell 1 4]]

theorem demoTwinStore_start : (twinMaster demoTwinConfig 2).Start demoTwinStore :=
  ⟨rfl, rfl, rfl, rfl⟩

theorem run_reads_last_moved : ∃ store,
    (twinMaster demoTwinConfig 2).Run (CarriesAll demoTwinConfig) demoUpdates store ∧
    store.ReadsLast demoTwinConfig (.after demoUpdates) := by
  have hr : ∃ store, (twinMaster demoTwinConfig 2).Run (CarriesAll demoTwinConfig) demoUpdates
      store :=
    Machine.Run.exists_computed demoTwinStore demoTwinStore_start (by decide +kernel)
  obtain ⟨store, run⟩ := hr
  exact ⟨store, run, (run_reads_last run).1⟩

theorem update_reads_last_iff_switched : ∃ store,
    (twinMaster demoTwinConfig 2).Run (CarriesAll demoTwinConfig)
      (demoUpdates ++ [.switchMaster, .snapshot, .syncSnapshot]) store ∧
    (∃ after, store.updateRecord demoTwinConfig 0 0 [demoCell 0 4] = some after ∧
      after.ReadsLast demoTwinConfig
      (.after (demoUpdates ++ [.switchMaster, .snapshot, .syncSnapshot] ++
      [.updateRecord 0 0 [demoCell 0 4]]))) ∧
    ¬ ∃ after, store.updateRecord demoTwinConfig 0 0 [demoCell 1 4] = some after ∧
      after.ReadsLast demoTwinConfig
      (.after (demoUpdates ++ [.switchMaster, .snapshot, .syncSnapshot] ++
      [.updateRecord 0 0 [demoCell 1 4]])) := by
  have hr : ∃ store, (twinMaster demoTwinConfig 2).Run (CarriesAll demoTwinConfig)
      (demoUpdates ++ [.switchMaster, .snapshot, .syncSnapshot]) store ∧
      [demoCell 0 4, demoCell 1 4].map (fun c =>
        (decide ((twinMaster demoTwinConfig 2).Enabled store (.updateRecord 0 0 [c])),
          decide (CarriesAll demoTwinConfig store (.updateRecord 0 0 [c])))) = [(true, true),
              (true, false)] :=
    Machine.Run.of_computed demoTwinStore demoTwinStore_start (by decide +kernel)
  obtain ⟨store, run, ht⟩ := hr
  simp only [map_cons, map_nil, cons.injEq, Prod.mk.injEq, decide_eq_true_eq,
    decide_eq_false_iff_not, and_true]
    at ht
  obtain ⟨⟨hf, hc⟩, hs, hst⟩ := ht
  exact ⟨store, run, (update_reads_last_iff run hf).mpr hc,
    fun hre => hst ((update_reads_last_iff run hs).mp hre)⟩

/-- After the second switch the first column is read from where it was not copied to. -/
theorem left_out_column_stale : ∃ store,
    (twinMaster demoTwinConfig 2).Run (fun _ _ => True) (demoUpdates ++ demoSwitchBack) store ∧
    store.read demoTwinConfig 0 0 0 = Memory.wordBytes 2 ∧
    (Ledger.after (demoUpdates ++ demoSwitchBack)).values 0 0 0 = Memory.wordBytes 3 ∧
    ¬ store.ReadsLast demoTwinConfig (.after (demoUpdates ++ demoSwitchBack)) := by
  have hr : ∃ store, (twinMaster demoTwinConfig 2).Run (fun _ _ => True)
    (demoUpdates ++ demoSwitchBack) store ∧ store.read demoTwinConfig 0 0 0 = Memory.wordBytes 2 :=
    Machine.Run.of_computed demoTwinStore demoTwinStore_start (by decide +kernel)
  obtain ⟨store, run, hs⟩ := hr
  have hw : (Ledger.after (demoUpdates ++ demoSwitchBack)).values 0 0 0 = Memory.wordBytes 3 := by
    decide +kernel
  refine ⟨store, run, hs, hw, fun hre => ?_⟩
  have hl := hre 0 0 (by decide +kernel) 0
  rw [hs, hw] at hl
  exact absurd hl (by decide +kernel)

end Proteus.Oltp.Layout
