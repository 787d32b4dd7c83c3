/-
**Records as histories.**

What multi-versioning is for, without memory: a record is the list of its entries, newest first, and
a read takes the first entry the reader may see (`History.read`). The column store represents these
histories (`Represents`) as long as versions fit into a slack buffer. What the versions *hold* is
right as long as no new version is placed over the end of a copy (`NoSpill`); the predicate has a
parameter `Clean` for whether that is known.

* `represents_step` — every operation is represented by its effect on the histories.
* `getIndexedRecord_represents` — a read of the store is a read of the history.
* `run_represents` — so do all runs.
-/

import Proteus.Library.Machine
import Proteus.Oltp.Storage.Versions

namespace Proteus.Oltp.Storage

open Library List Option Function

/-! ### Histories -/

/-- What happened to a record: its entries, newest first, and whether it was deleted. -/
structure History where
  entries : List Entry
  deleted : Bool

def History.visible (history : History) (reader : TxnTs) : Option Entry :=
  history.entries.find? fun entry => reader.isReadable entry.start

/-- The calls that write. -/
inductive Action
  | insert (txn : Txn) (record : RecordId) (row : Row)
  | update (txn : Txn) (record : RecordId) (columns : List Nat) (data : List UInt8)
  | delete (txn : Txn) (record : RecordId)

namespace Action

def txn : Action → Txn
  | insert txn _ _ | update txn _ _ _ | delete txn _ => txn

def record : Action → RecordId
  | insert _ record _ | update _ record _ _ | delete _ record => record

end Action

def History.update (table : Table) (txn : Txn) (columns : List Nat) (data : List UInt8)
    (history : History) : History :=
  match history.entries with
  | [] => history
  | entry :: entries =>
    { history with
      entries :=
        ⟨txn.startTime, updateColumns table (updatedColumns table columns) data entry.row⟩ ::
        entry :: entries }

def History.delete (txn : Txn) (history : History) : History :=
  match history.entries with
  | [] => history
  | entry :: entries => ⟨⟨txn.startTime, entry.row⟩ :: entry :: entries, true⟩

variable (config : Config)

/-- The effect of a call on the histories. -/
def applyAction (histories : RecordId → Option History) : Action → RecordId → Option History
  | .insert txn record row =>
      Function.update histories record (some ⟨[⟨txn.startTime, row⟩], false⟩)
  | .update txn record columns data => Function.update histories record
      ((histories record).map (History.update (config.table record) txn columns data))
  | .delete txn record =>
      Function.update histories record ((histories record).map (History.delete txn))

/-- The histories after some calls. -/
def historiesOf (actions : List Action) : RecordId → Option History :=
  actions.foldl (applyAction config) fun _ => none

/-! ### Runs of the column store -/

def WellFormed (store : Store) : Action → Prop
  | .insert _ record row => store.index record = none ∧ (config.table record).Shapes row
  | .update _ record columns data => store.index record ≠ none ∧
      (∀ column ∈ columns, column < (config.table record).unitSizes.length) ∧
      data.length = ((updatedColumns (config.table record) columns).map
        (config.table record).unitSize).sum
  | .delete _ record => store.index record ≠ none

def perform (store : Store) : Action → Option Store
  | .insert txn record row => some (insertRecord txn record row store)
  | .update txn record columns data => updateRecord config txn record columns data store
  | .delete txn record => deleteRecord config txn record store

def Initial (store : Store) : Prop :=
  (∀ region, ∃ workers, initThreadLocalPools config.capacity workers Partition.fresh = some
    (store.partitions region)) ∧
  ∀ record, store.index record = none

def columnStore : Machine Store Action where
  Start := Initial config
  Enabled := WellFormed config
  next := perform config

/-! ### Conditions on a call -/

/-- The start time fits into `t_min`, and the version into a slack buffer. -/
def Fits : Action → Prop
  | .insert txn _ _ => txn.startTime < 2 ^ 63
  | .update txn record _ _ | .delete txn record =>
    txn.startTime < 2 ^ 63 ∧ totalSize config record ≤ slackSize

def nextChunk (thread : ThreadId) (recSize : Nat) (partition : Partition) : Nat :=
  match partition.caches thread with
  | none => 0
  | some cache =>
    if (cache.remainingSlack.signExtend 64).toNat < recSize then partition.verDataCursor else
      cache.ptr

def nextVersion (store : Store) (txn : Txn) (record : RecordId) : Nat :=
  config.dataMemoryBase txn.region.deltaIdxPidPair +
    nextChunk txn.thread (totalSize config record) (store.partitions txn.region)

def Spares (store : Store) (address : Nat) : Prop :=
  ∀ record index, store.index record = some index →
    ∀ version, OnList config store.memory index.deltaList version → ∀ place < config.alignOf,
      address + place < version + config.alignOf + totalSize config record →
      version + config.alignOf + versionSize ≤ address + place →
      store.memory (address + place) = config.vptr.getD place 0

def NoSpill (store : Store) : Action → Prop
  | .insert _ _ _ => True
  | .update txn record _ _ | .delete txn record =>
      Spares config store (nextVersion config store txn record)

/-! ### The representation -/

/-- One record of the store and its history. -/
structure Held (Clean : Prop) (store : Store) (chunks : Region → List Chunk) (record : RecordId)
    (history : History) (index : IndexVal) (versions : List Version) : Prop where
  indexed : store.index record = some index
  entries : history.entries = ⟨index.tMin, store.rows record⟩ :: versions.map Version.entry
  deleted : index.deleted = history.deleted
  tMin_lt : index.tMin < 2 ^ 63
  shapes : ∀ entry ∈ history.entries, (config.table record).Shapes entry.row
  total_le : versions ≠ [] → totalSize config record ≤ slackSize
  linked : Linked config store.memory index.deltaList versions
  allocated : ∀ version ∈ versions,
    ⟨version.offset, totalSize config record⟩ ∈ chunks version.region
  keeps : Clean → history.deleted = false → ∀ version ∈ versions,
    version.Keeps config record store.memory

/-- The store and the histories of its records, with the version memory handed out so far. -/
structure Represents (Clean : Prop) (store : Store) (histories : RecordId → Option History)
    (chunks : Region → List Chunk) : Prop where
  owns : ∀ region, (store.partitions region).Owns config.capacity (chunks region)
  absent : ∀ record, histories record = none → store.index record = none
  held : ∀ record history, histories record = some history →
    ∃ index versions, Held config Clean store chunks record history index versions

def Clear (chunks : Region → List Chunk) (address total : Nat) : Prop :=
  ∀ region, ∀ chunk ∈ chunks region,
    config.dataMemoryBase region.deltaIdxPidPair + chunk.offset + chunk.size ≤ address ∨
      address + total ≤ config.dataMemoryBase region.deltaIdxPidPair + chunk.offset

/-- The memory handed out, once a version of a record has some. -/
def allocate (chunks : Region → List Chunk) (record : RecordId) (version : Version) : Region →
    List Chunk :=
  Function.update chunks version.region
    (⟨version.offset, totalSize config record⟩ :: chunks version.region)

structure Created (store : Store) (chunks : Region → List Chunk) (record : RecordId)
    (index : IndexVal)
    (txn : Txn) (version : Version) (created : Store) : Prop where
  entry : version.entry = ⟨index.tMin, store.rows record⟩
  next : version.address config = nextVersion config store txn record
  sameIndex : created.index = store.index
  sameRows : created.rows = store.rows
  placed : Placed config store.memory created.memory (version.address config) index.tMin
    index.deltaList
  clear : Clear config chunks (version.address config) (totalSize config record)
  owns : ∀ region, (created.partitions region).Owns config.capacity
    (allocate config chunks record version region)

section

variable {config} {Clean : Prop} {store : Store} {his : RecordId → Option History}
  {cs : Region → List Chunk} {record rc : RecordId} {history h : History} {index i : IndexVal}
  {vs : List Version} {txn : Txn}

/-! ### Reads -/

theorem Represents.offset_lt (hr : Represents config Clean store his cs)
    (hh : Held config Clean store cs rc h i vs) :
    ∀ v ∈ vs, v.offset < 2 ^ 36 := fun v hm => by
  have ho := hr.owns v.region
  have hb := ho.below _ (hh.allocated v hm)
  have hw := ho.within
  have hc := config.capacity_lt
  simp only [totalSize, versionSize] at hb
  omega

theorem Held.row_shapes (hh : Held config Clean store cs rc h i vs) :
    (config.table rc).Shapes (store.rows rc) :=
  hh.shapes ⟨i.tMin, store.rows rc⟩ (hh.entries ▸ mem_cons_self)

def History.Reads (history : History) (reader : TxnTs) (result : Except Fault (List UInt8))
    (Right : Entry → List UInt8 → Prop) : Prop :=
  match history.visible reader with
  | some entry =>
    if history.deleted then result = .error recordDoesNotExist else ∃ bytes, result = .ok bytes ∧
      Right entry bytes
  | none => ∃ fault, result = .error fault

variable {fu : Nat} {cr : Store} {v : Version} {row r : Row} {t : Table} {cos : List Nat}
    {data d : List UInt8}

open Version

theorem getReadableVersion_held (hh : Held config Clean store cs rc h i vs)
    (hs : ∀ v ∈ vs, v.offset < 2 ^ 36) (r : TxnTs) (cos : Option (List Nat))
    (he : vs.length < fu) :
    (∀ v, vs.find? (fun v => r.isReadable v.entry.start) = some v → if h.deleted then
        getReadableVersion config store rc i r cos fu = .error recordDoesNotExist
      else ∃ bs, getReadableVersion config store rc i r cos fu = .ok bs ∧ (Clean → cos ≠ some [] →
          bs = selectCells v.entry.row (cos.getD (config.table rc).columns))) ∧
    (vs.find? (fun v => r.isReadable v.entry.start) = none →
      ∃ f, getReadableVersion config store rc i r cos fu = .error f) := by
  have hw := getReadableVer_linked hh.linked hs r he
  have hv : isValid config i.deltaList ∨ vs = [] := by
    cases vs with
    | nil => exact Or.inr rfl
    | cons fi tl => exact Or.inl (hh.linked.1 ▸ fi.isValid_ptr)
  constructor
  · intro v hf
    have hm := mem_of_find?_eq_some hf
    have hv := hv.resolve_right (ne_nil_of_mem hm)
    have hn : v.data config ≠ 0 := by simp [data, versionSize]
    rw [hf] at hw
    unfold getReadableVersion
    simp only [if_pos hv, hw, hh.linked.data_eq hm, if_neg hn, hh.deleted]
    cases hg : h.deleted with
    | true => rfl
    | false =>
      refine ⟨_, rfl, fun hc hgi => ?_⟩
      have hsh := hh.shapes v.entry (hh.entries ▸ mem_cons_of_mem _ (mem_map_of_mem hm))
      have ht := hh.total_le (ne_nil_of_mem hm)
      simp only [totalSize, versionSize, slackSize] at ht
      rw [readColumns_eq hsh (by omega) (hh.keeps hc hg v hm)]
      rcases cos with _ | _ | ⟨c, cos⟩
      · rfl
      · exact absurd rfl hgi
      · rfl
  · intro hmi
    rw [hmi] at hw
    unfold getReadableVersion
    by_cases hv : isValid config i.deltaList
    · exact ⟨.nullVersion, by simp only [if_pos hv, hw]⟩
    · exact ⟨.tagVerificationFailed, if_neg hv⟩

/-- **A read of the store** is a read of the history. -/
theorem getIndexedRecord_represents (hr : Represents config Clean store his cs)
    (hi : his rc = some h) (r : TxnTs) (cos : Option (List Nat))
    (he : h.entries.length ≤ fu) :
    h.Reads r (getIndexedRecord config store rc r cos fu) fun e bs =>
      Clean → cos ≠ some [] → bs = selectCells e.row (cos.getD (config.table rc).columns) := by
  obtain ⟨index, vs, hh⟩ := hr.held rc h hi
  have hl := congrArg List.length hh.entries
  simp only [length_cons, length_map] at hl
  obtain ⟨hs, hm⟩ := getReadableVersion_held hh (hr.offset_lt hh) r cos
    (show vs.length < fu by omega)
  unfold History.Reads History.visible getIndexedRecord
  rw [hh.indexed, hh.entries, List.find?_cons]
  by_cases hre : r.isReadable index.tMin
  · cases hg : h.deleted with
    | true | false => simp [hre, hh.deleted, hg]
  · simp only [hre, decide_false, if_false, List.find?_map]
    cases hf : vs.find? fun v => r.isReadable v.entry.start with
    | none => simpa [comp_def, hf] using hm hf
    | some v => simpa [comp_def, hf] using hs v hf

/-! ### Writes -/

theorem getVersionDataChunk_nextChunk {c : Nat} {t : ThreadId} {rs o : Nat} {p a : Partition}
    (hd : getVersionDataChunk c t rs p = some (o, a)) :
    o = nextChunk t rs p := by
  unfold getVersionDataChunk at hd
  unfold nextChunk
  cases hr : p.caches t with
  | none => simp [hr] at hd
  | some ca =>
    simp only [hr] at hd ⊢
    split_ifs at hd ⊢ <;> cases hd <;> rfl

theorem Represents.allocated (hre : Represents config Clean store his cs)
    (hf : totalSize config rc ≤ slackSize) {o : Nat} {p : Partition} (e : Entry)
    (ht : getVersionDataChunk config.capacity txn.thread (totalSize config rc)
      (store.partitions txn.region) = some (o, p)) :
    o + totalSize config rc ≤ config.capacity ∧
      Clear config cs (address config ⟨txn.region, o, e⟩) (totalSize config rc) ∧
      ∀ r, (Function.update store.partitions txn.region p r).Owns config.capacity
        (allocate config cs rc ⟨txn.region, o, e⟩ r) := by
  have hp : 0 < totalSize config rc := Nat.succ_pos _
  obtain ⟨ho, hfr⟩ :=
    getVersionDataChunk_owns ((hre.owns txn.region).takesWhole config.capacity_aligned)
    (hre.owns txn.region) hp hf ht
  have hr : o + totalSize config rc ≤ config.capacity :=
    le_trans (ho.below _ mem_cons_self) ho.within
  refine ⟨hr, fun r c hm => ?_, fun r => ?_⟩
  · by_cases hs : r = txn.region
    · subst hs
      have ha := hfr c hm
      simp only [Chunk.Apart] at ha
      simp only [address]
      omega
    · have hb := (hre.owns r).below c hm
      have hi := (hre.owns r).within
      have ha := config.regions_apart r txn.region hs
      simp only [address]
      omega
  · by_cases hs : r = txn.region
    · subst hs
      simpa [allocate] using ho
    · simpa [allocate, update_of_ne hs] using hre.owns r

theorem createVersions_created (hre : Represents config Clean store his cs)
    (hh : Held config Clean store cs rc h i vs)
    (hf : totalSize config rc ≤ slackSize) {bp : Nat} {i' : IndexVal}
    (hd : createVersions config txn rc i store = some (bp, i', cr)) :
    ∃ v : Version, bp = v.address config ∧ i' = { i with deltaList := v.ptr config } ∧
      Created config store cs rc i txn v cr := by
  unfold createVersions at hd
  cases ht : getVersionDataChunk config.capacity txn.thread (totalSize config rc)
      (store.partitions txn.region) with
  | none => simp [ht] at hd
  | some r =>
    obtain ⟨o, p⟩ := r
    simp only [ht, Option.some.injEq, Prod.mk.injEq] at hd
    obtain ⟨rfl, rfl, rfl⟩ := hd
    obtain ⟨hr, hc, ho⟩ := hre.allocated hf ⟨i.tMin, store.rows rc⟩ ht
    have hbo := config.capacity_lt
    have had := config.addressable txn.region
    have ha := config.alignOf_le
    simp only [totalSize] at hr
    have hb : getPtr config (ptr config ⟨txn.region, o, ⟨i.tMin, store.rows rc⟩⟩) = _ :=
      getPtr_ptr (show o < 2 ^ 36 by simp only [versionSize] at hr; omega)
    refine ⟨⟨txn.region, o, ⟨i.tMin, store.rows rc⟩⟩, hb, rfl, rfl, ?_, rfl, rfl, ?_, hc, ho⟩
    · rw [nextVersion, ← getVersionDataChunk_nextChunk ht]
      rfl
    · have hp : Placed config store.memory (newVersion config rc i
          (config.dataMemoryBase txn.region.deltaIdxPidPair + o) store.memory)
          (config.dataMemoryBase txn.region.deltaIdxPidPair + o) i.tMin _ :=
        newVersion_placed (lt_of_lt_of_le hh.tMin_lt (by decide)) hh.linked.ptr_lt (by omega)
      rw [hh.linked.kept_ptr] at hp
      rw [show DeltaDataPtr.make o (config.tag txn.region.delta) txn.region = ptr config
        ⟨txn.region, o, ⟨i.tMin, store.rows rc⟩⟩ from rfl, hb]
      exact hp

theorem Placed.overwrites {b a : Memory} {ad tm n t : Nat}
    (hp : Placed config b a ad tm n) {bs : List UInt8}
    (hf : bs.length + versionSize ≤ t) :
    Overwrites config b (a.write (ad + config.alignOf + versionSize) bs) ad t where
  outside p ho := by
    rw [Memory.write_outside (by omega), hp.outside p (by omega)]
  vptr p low := by
    rw [Memory.write_outside (Or.inl (by simp only [versionSize]; omega)), hp.vptr p low]

/-- **The versions of a record are kept** when another version is placed. -/
theorem Held.frame (hh : Held config Clean store cs rc h i vs) {m : Memory} {a t : Nat}
    (ho : Overwrites config store.memory m a t)
    (hcl : Clear config cs a t) (hsp : Clean → Spares config store a)
    (hs : ∀ v ∈ vs, v.offset < 2 ^ 36) :
    Linked config m i.deltaList vs ∧
      (Clean → h.deleted = false → ∀ v ∈ vs, v.Keeps config rc m) := by
  have ha := fun v hm => hcl v.region _ (hh.allocated v hm)
  constructor
  · exact hh.linked.congr fun v hm p low hhi =>
      ho.header (Nat.le_add_left ..) (ha v hm) low hhi
  · intro hc hal v hm
    refine Eq.trans (Memory.read_congr fun p low hhi => ?_) (hh.keeps hc hal v hm)
    refine ho.payload (ha v hm) ?_ low (by
      simp only [Version.data, totalSize, Version.address] at hhi ⊢
      omega)
    exact fun p low hb hbe => hsp hc rc i hh.indexed _ (hh.linked.onList hs hm) p low hb hbe

theorem Placed.header {b a : Memory} {ad tm n : Nat}
    (hp : Placed config b a ad tm n) (bs : List UInt8) :
    versionTMin (a.write (ad + config.alignOf + versionSize) bs) ad = tm ∧
      versionData (a.write (ad + config.alignOf + versionSize) bs) ad =
        ad + config.alignOf + versionSize ∧
      versionNext (a.write (ad + config.alignOf + versionSize) bs) ad = n := by
  have hw : ∀ s, s + 8 ≤ versionSize →
      (a.write (ad + config.alignOf + versionSize) bs).readWord (ad + s) =
        a.readWord (ad + s) := fun s low =>
    Memory.readWord_congr fun p _ hh => Memory.write_outside (Or.inl (by omega))
  exact ⟨(hw 8 (by decide)).trans hp.tMin, (hw 24 (by decide)).trans hp.data,
    (hw 40 (by decide)).trans hp.next⟩

theorem mem_allocate {r : Region} {c : Chunk} (hm : c ∈ cs r) : c ∈ allocate config cs rc v r := by
  unfold allocate
  by_cases hs : r = v.region
  · subst hs
    simpa using Or.inr hm
  · simpa [update_of_ne hs] using hm

def Store.rewrite (store : Store) (record : RecordId) (data : Nat) (bytes : List UInt8)
    (index : IndexVal)
    (row : Row) : Store :=
  { store with
    memory := store.memory.write data bytes
    index := Function.update store.index record (some index)
    rows := Function.update store.rows record row }

/-- **A new version**, with the record copied into it, and the record as it is afterwards. -/
theorem Created.represents (hr : Represents config Clean store his cs)
    (hh : Held config Clean store cs rc h i vs)
    (hma : Created config store cs rc i txn v cr)
    (hfi : totalSize config rc ≤ slackSize) (hsp : Clean → Spares config store (v.address config))
    (bs : List UInt8) (hl : bs.length ≤ (config.table rc).recordSize) {tm : Nat}
    {g : Bool} (hst : tm < 2 ^ 63) (hsh : (config.table rc).Shapes r)
    (hc : Clean → g = false → h.deleted = false ∧ bs = (store.rows rc).flatten) :
    Represents config Clean (cr.rewrite rc (v.data config) bs ⟨tm, g, v.ptr config⟩ r)
      (Function.update his rc (some ⟨⟨tm, r⟩ :: h.entries, g⟩))
      (allocate config cs rc v) := by
  have ho := hma.placed.overwrites (Nat.add_le_add_right hl versionSize)
  have hk := fun {o : RecordId} {h : History} {i : IndexVal} {vs : List Version}
      (hh : Held config Clean store cs o h i vs) =>
    hh.frame ho hma.clear hsp (hr.offset_lt hh)
  refine ⟨hma.owns, fun o hmi => ?_, fun o h' hf => ?_⟩
  · have hd : o ≠ rc := by
      rintro rfl
      simp at hmi
    rw [update_of_ne hd] at hmi
    simpa [Store.rewrite, hd, hma.sameIndex] using hr.absent o hmi
  by_cases hs : o = rc
  · subst hs
    simp only [update_self, Option.some.injEq] at hf
    subst hf
    obtain ⟨hli, hke⟩ := hk hh
    obtain ⟨hht, hhd, hhn⟩ := hma.placed.header bs
    refine ⟨⟨tm, g, v.ptr config⟩, v :: vs, ?_⟩
    constructor
    · simp [Store.rewrite]
    · simp [Store.rewrite, hh.entries, hma.entry]
    · rfl
    · exact hst
    · rintro e (_ | ⟨_, hm⟩)
      · exact hsh
      · exact hh.shapes e hm
    · exact fun _ => hfi
    · refine ⟨rfl, hht.trans (by rw [hma.entry]), hhd, ?_⟩
      show Linked config _ (versionNext _ _) vs
      exact hhn ▸ hli
    · rintro ol (_ | ⟨_, hm⟩)
      · simp [allocate]
      · exact mem_allocate (hh.allocated ol hm)
    · intro hcl ha ol hm
      obtain ⟨hab, rfl⟩ := hc hcl ha
      rcases mem_cons.mp hm with rfl | hm
      · rw [Version.Keeps, hma.entry, ← hh.row_shapes.length_flatten]
        exact Memory.read_write ..
      · exact hke hcl hab ol hm
  · rw [update_of_ne hs] at hf
    obtain ⟨i', vs', hh'⟩ := hr.held o h' hf
    obtain ⟨hli, hke⟩ := hk hh'
    exact ⟨i', vs', {
      indexed := by simpa [Store.rewrite, hs, hma.sameIndex] using hh'.indexed
      entries := by simpa [Store.rewrite, hs, hma.sameRows] using hh'.entries
      deleted := hh'.deleted
      tMin_lt := hh'.tMin_lt
      shapes := hh'.shapes
      total_le := hh'.total_le
      linked := hli
      allocated := fun v hm => mem_allocate (hh'.allocated v hm)
      keeps := hke }⟩

/-! ### Every call is represented -/

theorem updateColumns_shapes (hs : t.Shapes r) (hi : ∀ c ∈ cos, c < t.unitSizes.length)
    (hl : d.length = (cos.map t.unitSize).sum) :
    t.Shapes (updateColumns t cos d r) := by
  induction cos generalizing d r with
  | nil => exact hs
  | cons c cos ih =>
    rw [map_cons, sum_cons] at hl
    refine ih ?_ (fun c hm => hi c (mem_cons_of_mem _ hm)) (by rw [length_drop]; omega)
    have low := hi c mem_cons_self
    rw [Table.Shapes, map_set, hs, length_take, hl, Nat.min_eq_left (Nat.le_add_right ..),
      Table.unitSize, getD_eq_getElem _ _ low, set_getElem_self]

theorem updatedColumns_lt (hi : ∀ c ∈ cos, c < t.unitSizes.length) :
    ∀ c ∈ updatedColumns t cos, c < t.unitSizes.length := by
  unfold updatedColumns
  split_ifs with all
  · exact fun c hm => mem_range.mp hm
  · exact hi

theorem stamp_eq (hs : txn.startTime < 2 ^ 63) :
    stamp i txn = { i with tMin := txn.startTime } := by
  rw [stamp, Nat.mod_eq_of_lt hs]

section

variable (represents : Represents config Clean store his cs)

include represents

theorem insertRecord_represents (hfr : store.index rc = none)
    (hsh : (config.table rc).Shapes r) (hst : txn.startTime < 2 ^ 63) :
    Represents config Clean (insertRecord txn rc r store)
      (Function.update his rc (some ⟨[⟨txn.startTime, r⟩], false⟩)) cs := by
  refine ⟨represents.owns, fun o hm => ?_, fun o h' hf => ?_⟩
  · have hd : o ≠ rc := by
      rintro rfl
      simp at hm
    rw [update_of_ne hd] at hm
    simpa [insertRecord, hd] using represents.absent o hm
  by_cases hs : o = rc
  · subst hs
    simp only [update_self, Option.some.injEq] at hf
    subst hf
    exact ⟨stamp ⟨0, false, 0⟩ txn, [], {
      indexed := by simp [insertRecord]
      entries := by simp [insertRecord, stamp_eq hst]
      deleted := rfl
      tMin_lt := Nat.mod_lt _ (by decide)
      shapes := by simpa using hsh
      total_le := fun hn => absurd rfl hn
      linked := rfl
      allocated := by simp
      keeps := by simp }⟩
  · rw [update_of_ne hs] at hf
    obtain ⟨i', vs', hh'⟩ := represents.held o h' hf
    exact ⟨i', vs', { hh' with
      indexed := by simpa [insertRecord, hs] using hh'.indexed
      entries := by simpa [insertRecord, hs] using hh'.entries }⟩

variable {af : Store}

theorem updateRecord_represents (hs : txn.startTime < 2 ^ 63)
    (hi : ∀ c ∈ cos, c < (config.table rc).unitSizes.length)
    (hl : d.length = ((updatedColumns (config.table rc) cos).map (config.table rc).unitSize).sum)
    (hf : totalSize config rc ≤ slackSize)
    (hsp : Clean → Spares config store (nextVersion config store txn rc))
    (hin : his rc = some h)
    (hd : updateRecord config txn rc cos d store = some af) :
    ∃ m, Represents config Clean af (Function.update his rc
      (some (h.update (config.table rc) txn cos d))) m := by
  obtain ⟨index, vs, hh⟩ := represents.held rc h hin
  simp only [updateRecord, hh.indexed, Option.bind_eq_bind, Option.bind_some, Option.pure_def] at hd
  obtain ⟨⟨bp, i', cr⟩, hc, hr⟩ := bind_eq_some_iff.mp hd
  obtain ⟨v, rfl, rfl, hm⟩ := createVersions_created represents hh hf hc
  have row := hh.row_shapes
  have hre := hm.represents represents hh hf (hm.next ▸ hsp) _ (le_of_eq row.length_flatten) hs
    (updateColumns_shapes row (updatedColumns_lt hi) hl)
    (fun _ ha => ⟨hh.deleted ▸ ha, rfl⟩ : Clean → index.deleted = false → _)
  refine ⟨allocate config cs rc v, ?_⟩
  simp only [Option.some.injEq, hm.sameRows, copyRecord_eq row, hm.placed.data, stamp_eq hs] at hr
  rw [History.update, hh.entries, ← hh.deleted, ← hr]
  rw [hh.entries, Store.rewrite, hm.sameRows] at hre
  exact hre

theorem deleteRecord_represents (hs : txn.startTime < 2 ^ 63) (hf : totalSize config rc ≤ slackSize)
    (hsp : Clean → Spares config store (nextVersion config store txn rc))
    (hi : his rc = some h) (hd : deleteRecord config txn rc store = some af) :
    ∃ m, Represents config Clean af (Function.update his rc (some (h.delete txn))) m := by
  obtain ⟨index, vs, hh⟩ := represents.held rc h hi
  simp only [deleteRecord, hh.indexed, Option.bind_eq_bind, Option.bind_some, Option.pure_def] at hd
  obtain ⟨⟨bp, i', cr⟩, hc, hr⟩ := bind_eq_some_iff.mp hd
  obtain ⟨v, rfl, rfl, hm⟩ := createVersions_created represents hh hf hc
  have row := hh.row_shapes
  have hre := hm.represents represents hh hf (hm.next ▸ hsp)
    [] (Nat.zero_le _) hs row (fun _ (ha : true = false) => absurd ha (by decide))
  refine ⟨allocate config cs rc v, ?_⟩
  simp only [Option.some.injEq, stamp_eq hs] at hr
  rw [History.delete, hh.entries, ← hr]
  rw [hh.entries] at hre
  simpa [Store.rewrite, hm.sameRows] using hre

/-- **Every call** has its effect on the histories. -/
theorem represents_step {a : Action} (hc : WellFormed config store a)
    (hf : Fits config a) (hs : Clean → NoSpill config store a)
    (hd : perform config store a = some af) :
    ∃ m, Represents config Clean af (applyAction config his a) m := by
  have hk : ∀ record, store.index record ≠ none → ∃ history, his record = some history :=
    fun record hin => ne_none_iff_exists'.mp fun hm =>
      hin (represents.absent record hm)
  cases a with
  | insert txn record row =>
    cases hd
    exact ⟨cs, insertRecord_represents represents hc.1 hc.2 hf⟩
  | update txn record cos data =>
    obtain ⟨history, hi⟩ := hk record hc.1
    rw [applyAction, hi]
    exact updateRecord_represents represents hf.1 hc.2.1 hc.2.2 hf.2 hs hi hd
  | delete txn record =>
    obtain ⟨history, hi⟩ := hk record hc
    rw [applyAction, hi]
    exact deleteRecord_represents represents hf.1 hf.2 hs hi hd

end

theorem Initial.represents (hi : Initial config store) :
    ∃ cs, Represents config Clean store (fun _ => none) cs := by
  have how : ∀ r, ∃ cs, (store.partitions r).Owns config.capacity cs := fun r => by
    obtain ⟨ws, set⟩ := hi.1 r
    exact initThreadLocalPools_owns config.capacity_aligned (Partition.fresh_owns _) set
  choose cs ho using how
  exact ⟨cs, ho, fun record _ => hi.2 record, fun record history hf => by cases hf⟩

/-- **Every run** has its histories. -/
theorem run_represents {Allowed : Store → Action → Prop}
    (hf : ∀ store a, Allowed store a → Fits config a)
    (hs : Clean → ∀ store a, Allowed store a → NoSpill config store a)
    {acs : List Action} (run : (columnStore config).Run Allowed acs store) :
    ∃ cs, Represents config Clean store (historiesOf config acs) cs := by
  induction run with
  | start hi => exact hi.represents
  | step _ he ha ht ih =>
    obtain ⟨cs, hr⟩ := ih
    rw [historiesOf, foldl_append]
    exact represents_step hr he (hf _ _ ha) (fun hc => hs hc _ _ ha) ht

end

end Proteus.Oltp.Storage
