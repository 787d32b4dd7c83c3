/-
**Lazy columns** (`lazy-column.cpp`, `column.cpp`).

A lazy column writes to its primary until the first snapshot. Each snapshot adds a secondary to
every partition, and updates go to the newest: a record gets a slot there with its first update, and
a read asks the secondaries from the newest to the oldest. A secondary that is full grows by a
chunk.

The index of the active snapshot has eight bits. With the 256th snapshot it is zero again, and
updates go to the primary and then to the old secondaries. A record that no secondary has is read by
`Column::getElem`, which is for meta-columns and aborts for every other one.

* `Frozen`, `run_keeps_snapshots` — while updates come before the 256th snapshot, whatever a
  snapshot has left behind stays as it is.
* `LastWrites`, `Tracks` — the last write of every record, and the invariant that ties the
  secondaries to it.
* `run_reads_moved` — up to the 255th snapshot, the records that are read as last written are those
  that were updated since the first one, and no call for which there is room fails.
-/

import Proteus.Library.Machine
import Proteus.Oltp.Layout.CircularMaster

namespace Proteus.Oltp.Layout

open Library List Option Function

/-! ### Chunks of memory -/

/-- `mem_chunk` -/
structure Chunk where
  size : Nat
  bytes : Memory

def updateChunks (unitSize : Nat) (bytes : List UInt8) : List Chunk → Nat →
    Option (List Chunk × Bool)
  | [], _ => some ([], false)
  | chunk :: chunks, stop =>
    if stop ≤ chunk.size then
      if unitSize ≤ stop ∧ stop - unitSize + bytes.length ≤ chunk.size then
        some ({ chunk with bytes := chunk.bytes.write (stop - unitSize) bytes } :: chunks, true)
      else none
    else (updateChunks unitSize bytes chunks (stop - chunk.size)).map fun (rest, done) =>
      (chunk :: rest, done)

def readChunks (unitSize : Nat) : List Chunk → Nat → Option (List UInt8)
  | [], _ => none
  | chunk :: chunks, stop =>
    if stop ≤ chunk.size then
      if unitSize ≤ stop then some (chunk.bytes.read (stop - unitSize) unitSize) else none
    else readChunks unitSize chunks (stop - chunk.size)

/-- There is a chunk with all of the element that ends at `stop`. -/
def holds (unitSize : Nat) : List Chunk → Nat → Bool
  | [], _ => false
  | chunk :: chunks, stop => if stop ≤ chunk.size then unitSize ≤ stop else
      holds unitSize chunks (stop - chunk.size)

/-- Where an element ends. -/
def elemStop (unitSize offset : Nat) : Nat := offset * unitSize + unitSize

/-! ### The column -/

/-- The parameters of the constructor, and what new memory contains, which is not known. -/
structure LazyConfig where
  unitSize : Nat
  capacity : Nat
  nPartitions : Nat
  isMeta : Bool
  blank : Memory
  unitSize_pos : 0 < unitSize

def LazyConfig.extent (config : LazyConfig) : Extent :=
  ⟨config.unitSize, config.capacity / config.nPartitions + config.capacity % config.nPartitions,
    config.unitSize_pos⟩

/-- `LazySecondary`; `bitPacks` is the size of its `dirty_upd_mask`. -/
structure LazySecondary where
  initialCapacity : Nat
  capacity : Nat
  secondaryVid : Nat
  secIdx : Nat → Option Nat
  bitPacks : Nat
  data : List Chunk

structure LazyColumn where
  activeSnapshotIdx : UInt8
  primary : Nat → List Chunk
  secondary : Nat → List LazySecondary

def numBitPacks (size : Nat) : Nat := size / bitPackSize + size % bitPackSize

namespace LazySecondary

variable (config : LazyConfig)

/-- The constructor. -/
def create (capacity : Nat) : LazySecondary where
  initialCapacity := capacity
  capacity := capacity
  secondaryVid := 0
  secIdx _ := none
  bitPacks := numBitPacks (capacity * config.unitSize)
  data := [⟨capacity * config.unitSize, config.blank⟩]

/-- `increaseCapacity(2)`, which takes the capacity for a number of bytes. -/
def increaseCapacity (sec : LazySecondary) : LazySecondary :=
  let incSize := sec.capacity * 2 + sec.capacity * 2 % config.unitSize
  { sec with
    capacity := sec.capacity + sec.initialCapacity
    bitPacks := sec.bitPacks + numBitPacks incSize
    data := sec.data ++ [⟨incSize, config.blank⟩] }

def slot (vid : Nat) (sec : LazySecondary) : Option (Nat × LazySecondary) :=
  match sec.secIdx vid with
  | some internalVid => some (internalVid, sec)
  | none =>
    if sec.secondaryVid / bitPackSize < sec.bitPacks then
      some (sec.secondaryVid, { sec with
        secondaryVid := sec.secondaryVid + 1
        secIdx := Function.update sec.secIdx vid (some sec.secondaryVid) })
    else none

def writeSlot (internalVid : Nat) (elem : Option (List UInt8)) (sec : LazySecondary) :
    Option LazySecondary := do
  let stop := elemStop config.unitSize internalVid
  let (data, done) ← updateChunks config.unitSize (elemBytes elem) sec.data stop
  if done then return { sec with data }
  let grown := sec.increaseCapacity config
  let (data, done) ← updateChunks config.unitSize (elemBytes elem) grown.data stop
  if done then return { grown with data }
  none

/-- What `updateElem` does with the active secondary. -/
def updateElem (vid : Nat) (elem : Option (List UInt8)) (sec : LazySecondary) :
    Option LazySecondary := do
  let (internalVid, sec) ← sec.slot vid
  sec.writeSlot config internalVid elem

end LazySecondary

def findElem (unitSize vid : Nat) (secondaries : List LazySecondary) : Nat →
    Option (Option (List UInt8))
  | 0 => some none
  | snap + 1 => do
    let sec ← secondaries[snap]?
    match sec.secIdx vid with
    | some internalVid => (readChunks unitSize sec.data (elemStop unitSize internalVid)).map some
    | none => findElem unitSize vid secondaries snap

namespace LazyColumn

variable (config : LazyConfig)

def writePrimary (vid : Nat) (elem : Option (List UInt8)) (column : LazyColumn) :
    Option LazyColumn := do
  let pid := getPid vid
  let (data, done) ← updateChunks config.unitSize (elemBytes elem) (column.primary pid)
    (elemStop config.unitSize (getOffset vid))
  if done then return { column with primary := Function.update column.primary pid data }
  none

/-- `Column::insertElem` -/
def insertElem (vid : Nat) (elem : Option (List UInt8)) (column : LazyColumn) : Option LazyColumn :=
  if getPid vid < config.nPartitions ∧ getOffset vid < config.extent.capacity then
    column.writePrimary config vid elem
  else none

/-- `updateElem` -/
def updateElem (vid : Nat) (elem : Option (List UInt8)) (column : LazyColumn) : Option LazyColumn :=
  if column.activeSnapshotIdx = 0 then column.writePrimary config vid elem
  else do
    let pid := getPid vid
    let snap := column.activeSnapshotIdx.toNat - 1
    let sec ← (column.secondary pid)[snap]?
    let sec ← sec.updateElem config vid elem
    return { column with
      secondary := Function.update column.secondary pid ((column.secondary pid).set snap sec) }

/-- `snapshot` -/
def snapshot (column : LazyColumn) : LazyColumn :=
  { column with
    activeSnapshotIdx := column.activeSnapshotIdx + 1
    secondary := fun pid =>
      if pid < config.nPartitions then
        column.secondary pid ++ [.create config (config.capacity / 10)]
      else column.secondary pid }

/-- `Column::getElem` -/
def columnGetElem (vid : Nat) (column : LazyColumn) : Option (List UInt8) :=
  if config.isMeta ∧ getMVersion vid = 0 then
    readChunks config.unitSize ((column.primary (getPid vid)).take 1)
      (elemStop config.unitSize (getOffset vid))
  else none

/-- `getElem` -/
def getElem (vid : Nat) (column : LazyColumn) : Option (List UInt8) := do
  match ← findElem config.unitSize vid (column.secondary (getPid vid))
    column.activeSnapshotIdx.toNat with
  | some bytes => return bytes
  | none => column.columnGetElem config vid

end LazyColumn

inductive LazyAction
  | insertElem (vid : Nat) (elem : Option (List UInt8))
  | updateElem (vid : Nat) (elem : Option (List UInt8))
  | snapshot

/-- The calls on a column. Data is as long as an element. -/
def lazyColumn (config : LazyConfig) : Machine LazyColumn LazyAction where
  Start column := column.activeSnapshotIdx = 0 ∧ (∀ pid, column.secondary pid = []) ∧
    ∀ pid, (column.primary pid).map Chunk.size = if pid < config.nPartitions then
      [config.extent.totalSize] else []
  Enabled _
    | .insertElem _ elem => ∀ bytes ∈ elem, bytes.length = config.unitSize
    | .updateElem _ elem => ∀ bytes ∈ elem, bytes.length = config.unitSize
    | .snapshot => True
  next column
    | .insertElem vid elem => column.insertElem config vid elem
    | .updateElem vid elem => column.updateElem config vid elem
    | .snapshot => some (column.snapshot config)

variable {config : LazyConfig}

/-! ### Elements in chunks -/

open Nat Bool

section

variable {us s o : Nat} {bs : List UInt8} {cs a : List Chunk} {d : Bool}

theorem updateChunks_cons {c : Chunk} (hu : updateChunks us bs (c :: cs) s = some (a, d)) :
    (s ≤ c.size ∧ us ≤ s ∧ d = true ∧ a = { c with bytes := c.bytes.write (s - us) bs } :: cs) ∨
    (c.size < s ∧ ∃ tl, a = c :: tl ∧ updateChunks us bs cs (s - c.size) = some (tl, d)) := by
  unfold updateChunks at hu
  split_ifs at hu with hh hi
  · obtain ⟨rfl, rfl⟩ := Prod.mk.inj (some.inj hu)
    exact .inl ⟨hh, hi.1, rfl, rfl⟩
  · obtain ⟨⟨tl, f⟩, hd, hs⟩ := map_eq_some_iff.mp hu
    cases hs
    exact .inr ⟨Nat.lt_of_not_le hh, tl, rfl, hd⟩

theorem updateChunks_false (hu : updateChunks us bs cs s = some (a, false)) : a = cs := by
  induction cs generalizing s a with
  | nil => exact (Prod.mk.inj (some.inj hu)).1.symm
  | cons c cs ih =>
    rcases updateChunks_cons hu with ⟨_, _, hf, _⟩ | ⟨_, tl, rfl, hd⟩
    · exact absurd hf false_ne_true
    · rw [ih hd]

theorem updateChunks_sizes (hu : updateChunks us bs cs s = some (a, d)) :
    a.map Chunk.size = cs.map Chunk.size := by
  induction cs generalizing s a with
  | nil => rw [(Prod.mk.inj (some.inj hu)).1]
  | cons c cs ih =>
    rcases updateChunks_cons hu with ⟨_, _, _, rfl⟩ | ⟨_, tl, rfl, hd⟩
    · rfl
    · rw [map_cons, map_cons, ih hd]

theorem updateChunks_holds (hs : bs.length = us) (hr : holds us cs s = true) :
    ∃ a, updateChunks us bs cs s = some (a, true) := by
  induction cs generalizing s with
  | nil => exact absurd hr false_ne_true
  | cons c cs ih =>
    unfold holds at hr
    unfold updateChunks
    split_ifs at hr ⊢ with hh hi
    · exact ⟨_, rfl⟩
    · have hw := of_decide_eq_true hr
      exact absurd ⟨hw, by omega⟩ hi
    · obtain ⟨a, hu⟩ := ih hr
      exact ⟨c :: a, by rw [hu]; rfl⟩

theorem updateChunks_past (hp : (cs.map Chunk.size).sum < s) :
    updateChunks us bs cs s = some (cs, false) := by
  induction cs generalizing s with
  | nil => rfl
  | cons c cs ih =>
    rw [map_cons, sum_cons] at hp
    rw [updateChunks, if_neg (by omega), ih (by omega)]
    rfl

theorem readChunks_updateChunks (hu : updateChunks us bs cs s = some (a, true))
    (hs : bs.length = us) : readChunks us a s = some bs := by
  induction cs generalizing s a with
  | nil => exact absurd (Prod.mk.inj (some.inj hu)).2 false_ne_true
  | cons c cs ih =>
    rcases updateChunks_cons hu with ⟨hh, hi, _, rfl⟩ | ⟨hp, tl, rfl, hd⟩
    · rw [readChunks, if_pos hh, if_pos hi, ← hs, Memory.read_write]
    · rw [readChunks, if_neg (by omega)]
      exact ih hd

theorem readChunks_updateChunks_other (hu : updateChunks us bs cs s = some (a, d))
    (hs : bs.length = us) (ha : o + us ≤ s ∨ s + us ≤ o) :
    readChunks us a o = readChunks us cs o := by
  induction cs generalizing s o a with
  | nil => rw [(Prod.mk.inj (some.inj hu)).1]
  | cons c cs ih =>
    rcases updateChunks_cons hu with ⟨hh, hi, _, rfl⟩ | ⟨hp, tl, rfl, hd⟩
    · unfold readChunks
      split_ifs with hf hw
      · rw [Memory.read_write_outside (by omega)]
      · rfl
      · rfl
    · by_cases hf : o ≤ c.size
      · simp only [readChunks, if_pos hf]
      · simp only [readChunks, if_neg hf]
        exact ih hd (by omega)

theorem readChunks_append {m : List Chunk} (hf : readChunks us cs s = some bs) :
    readChunks us (cs ++ m) s = some bs := by
  induction cs generalizing s with
  | nil => cases hf
  | cons c cs ih =>
    rw [cons_append]
    unfold readChunks at hf ⊢
    split_ifs at hf ⊢ with hfi hi
    · exact hf
    · exact ih hf

theorem elemStop_apart {f s : Nat} (ha : f ≠ s) : elemStop us f + us ≤ elemStop us s ∨
      elemStop us s + us ≤ elemStop us f := by
  unfold elemStop
  rcases lt_or_gt_of_ne ha with hb | hbe
  · have hn := mul_le_mul_right us hb
    rw [succ_mul] at hn
    omega
  · have hn := mul_le_mul_right us hbe
    rw [succ_mul] at hn
    omega

end

/-! ### Snapshots stay as they are -/

/-- The index of the active snapshot is the number of snapshots, in eight bits. -/
structure LazyColumn.Indexed (config : LazyConfig) (column : LazyColumn) : Prop where
  idx_eq : ∀ pid < config.nPartitions,
    column.activeSnapshotIdx.toNat = (column.secondary pid).length % 256
  nothing : ∀ pid, config.nPartitions ≤ pid → column.secondary pid = []
  sizes : ∀ pid, (column.primary pid).map Chunk.size =
    if pid < config.nPartitions then [config.extent.totalSize] else []

variable {actions : List LazyAction} {se : LazySecondary}

section

variable {c af : LazyColumn} {vid : Nat} {e : Option (List UInt8)}

theorem writePrimary_cases (hw : c.writePrimary config vid e = some af) :
    c.primary (getPid vid) ≠ [] ∧ ∃ da,
      da.map Chunk.size = (c.primary (getPid vid)).map Chunk.size ∧
      af = { c with primary := update c.primary (getPid vid) da } := by
  obtain ⟨⟨da, d⟩, hu, hfi⟩ := bind_eq_some_iff.mp hw
  dsimp only at hfi
  split_ifs at hfi with hf
  cases hfi
  rw [hf] at hu
  refine ⟨fun he => ?_, da, updateChunks_sizes hu, rfl⟩
  rw [he] at hu
  exact absurd (Prod.mk.inj (some.inj hu)).2 false_ne_true

theorem updateElem_cases (hu : c.updateElem config vid e = some af) :
    (c.activeSnapshotIdx = 0 ∧ c.writePrimary config vid e = some af) ∨
    (c.activeSnapshotIdx ≠ 0 ∧ ∃ sec se,
      (c.secondary (getPid vid))[c.activeSnapshotIdx.toNat - 1]? = some sec ∧
      sec.updateElem config vid e = some se ∧ af = { c with
        secondary := update c.secondary (getPid vid)
          ((c.secondary (getPid vid)).set (c.activeSnapshotIdx.toNat - 1) se) }) := by
  unfold LazyColumn.updateElem at hu
  split_ifs at hu with hfi
  · exact .inl ⟨hfi, hu⟩
  · obtain ⟨sec, ht, hu⟩ := bind_eq_some_iff.mp hu
    obtain ⟨se, hc, hf⟩ := bind_eq_some_iff.mp hu
    exact .inr ⟨hfi, sec, se, ht, hc, (some.inj hf).symm⟩

variable (indexed : c.Indexed config)

include indexed

theorem writePrimary_indexed (hw : c.writePrimary config vid e = some af) : af.Indexed config := by
  obtain ⟨_, d, hsi, rfl⟩ := writePrimary_cases hw
  refine ⟨indexed.idx_eq, indexed.nothing, fun pid => ?_⟩
  show (update c.primary _ _ pid).map Chunk.size = _
  rw [← indexed.sizes pid, update_apply]
  split_ifs with hs
  · rw [hsi, hs]
  · rfl

theorem pid_lt_of_writePrimary (hw : c.writePrimary config vid e = some af) :
    getPid vid < config.nPartitions := by
  by_contra ho
  have hn := indexed.sizes (getPid vid)
  rw [if_neg ho, map_eq_nil_iff] at hn
  exact (writePrimary_cases hw).1 hn

theorem pid_lt_of_getElem? {sec : LazySecondary} {s pid : Nat}
    (ht : (c.secondary pid)[s]? = some sec) : pid < config.nPartitions := by
  by_contra ho
  rw [indexed.nothing _ (Nat.le_of_not_lt ho)] at ht
  cases ht

theorem step_indexed {a : LazyAction}
    (ht : (lazyColumn config).next c a = some af) : af.Indexed config := by
  cases a with
  | insertElem vid e =>
    change c.insertElem config vid e = some af at ht
    unfold LazyColumn.insertElem at ht
    split_ifs at ht
    exact writePrimary_indexed indexed ht
  | updateElem vid e =>
    rcases updateElem_cases ht with ⟨_, hw⟩ | ⟨_, sec, se, hth, _, rfl⟩
    · exact writePrimary_indexed indexed hw
    · have hi := pid_lt_of_getElem? indexed hth
      refine ⟨fun pid hv => ?_, fun pid ho => ?_, indexed.sizes⟩
      · show c.activeSnapshotIdx.toNat = (update c.secondary _ _ pid).length % 256
        rw [indexed.idx_eq pid hv, update_apply]
        split_ifs with hs
        · rw [length_set, hs]
        · rfl
      · exact (update_of_ne (by omega) _ _).trans (indexed.nothing pid ho)
  | snapshot =>
    cases ht
    refine ⟨fun pid hv => ?_, fun pid ho => ?_, indexed.sizes⟩
    · have hh := indexed.idx_eq pid hv
      show (c.activeSnapshotIdx + 1).toNat = (ite _ _ _ : List LazySecondary).length % 256
      rw [if_pos hv, length_append, length_singleton, UInt8.toNat_add, hh]
      exact mod_add_mod _ _ _
    · exact (if_neg (not_lt.mpr ho)).trans (indexed.nothing pid ho)

omit indexed

theorem run_indexed {Allowed : LazyColumn → LazyAction → Prop}
    (run : (lazyColumn config).Run Allowed actions c) : c.Indexed config := by
  refine run.invariant _ (fun s hi => ?_) fun _ _ _ indexed _ _ ht => step_indexed indexed ht
  obtain ⟨hz, he, hs⟩ := hi
  exact ⟨fun pid _ => by rw [hz, he]; rfl, fun pid _ => he pid, hs⟩

end

/-- What `earlier` had is still there, with new secondaries behind it. -/
structure Frozen (config : LazyConfig) (earlier column : LazyColumn) : Prop where
  primary_eq : column.primary = earlier.primary
  secondary_eq : ∀ pid, ∃ more, column.secondary pid = earlier.secondary pid ++ more ∧
    (pid < config.nPartitions → more ≠ [])

/-- Updates and snapshots, no update after the 255th snapshot. -/
def BeforeWrap (column : LazyColumn) : LazyAction → Prop
  | .insertElem _ _ => False
  | .updateElem vid _ => (column.secondary (getPid vid)).length < 256
  | .snapshot => True

theorem snapshot_frozen (config : LazyConfig) (c : LazyColumn) :
    Frozen config c (c.snapshot config) := by
  refine ⟨rfl, fun pid => ?_⟩
  by_cases hv : pid < config.nPartitions
  · exact ⟨_, if_pos hv, fun _ => cons_ne_nil _ _⟩
  · exact ⟨[], (if_neg hv).trans (append_nil _).symm, fun hi => absurd hi hv⟩

section

variable {ea column af : LazyColumn} (frozen : Frozen config ea column)

include frozen

theorem Frozen.snapshot : Frozen config ea (column.snapshot config) := by
  refine ⟨frozen.primary_eq, fun pid => ?_⟩
  obtain ⟨m, hh, _⟩ := frozen.secondary_eq pid
  obtain ⟨l, hn, hp⟩ := (snapshot_frozen config column).secondary_eq pid
  refine ⟨m ++ l, by rw [hn, hh, append_assoc], fun hv he => ?_⟩
  exact hp hv (append_eq_nil_iff.mp he).2

/-- **An update before the wrap** goes to a secondary that is younger than the snapshot. -/
theorem Frozen.updateElem (hi : column.Indexed config)
    {vid : Nat} {e : Option (List UInt8)} (few : (column.secondary (getPid vid)).length < 256)
    (hu : column.updateElem config vid e = some af) : Frozen config ea af := by
  obtain ⟨m, hh, hp⟩ := frozen.secondary_eq (getPid vid)
  rcases updateElem_cases hu with ⟨hz, hw⟩ | ⟨_, sec, se, ht, _, rfl⟩
  · -- the index is zero only while there is no secondary
    have hv := pid_lt_of_writePrimary hi hw
    have idx := hi.idx_eq _ hv
    rw [hz, Nat.mod_eq_of_lt few, hh, length_append] at idx
    exact absurd (length_eq_zero_iff.mp (by rw [UInt8.toNat_zero] at idx; omega)) (hp hv)
  · have hv := pid_lt_of_getElem? hi ht
    have idx := hi.idx_eq _ hv
    have some := length_pos_iff.mpr (hp hv)
    rw [Nat.mod_eq_of_lt few] at idx
    have hy : (ea.secondary (getPid vid)).length ≤ column.activeSnapshotIdx.toNat - 1 := by
      rw [idx, hh, length_append]
      omega
    refine ⟨frozen.primary_eq, fun pid => ?_⟩
    by_cases hs : pid = getPid vid
    · subst hs
      refine ⟨m.set (column.activeSnapshotIdx.toNat - 1 - (ea.secondary (getPid vid)).length) se,
        (update_self _ _ _).trans ?_, fun _ => ?_⟩
      · rw [hh, set_append_right _ _ hy]
      · exact length_pos_iff.mp (by rwa [length_set])
    · obtain ⟨m, hb, hl⟩ := frozen.secondary_eq pid
      exact ⟨m, (update_of_ne hs _ _).trans hb, hl⟩

theorem Frozen.path (hi : column.Indexed config)
    (hp : (lazyColumn config).Path BeforeWrap column actions af) :
    Frozen config ea af := by
  induction hp with
  | nil => exact frozen
  | @cons column m _ a _ _ ha ht _ ih =>
    refine ih ?_ (step_indexed hi ht)
    cases a with
    | insertElem => exact ha.elim
    | updateElem => exact frozen.updateElem hi ha ht
    | snapshot =>
      cases ht
      exact frozen.snapshot

omit frozen

/-- **Snapshots are immutable** as long as updates come before the 256th one: what the primary and
the secondaries contain at a snapshot they contain ever after. -/
theorem run_keeps_snapshots {actions more : List LazyAction} {last : LazyColumn}
    (run : (lazyColumn config).Run (fun _ _ => True) actions column)
    (path : (lazyColumn config).Path BeforeWrap (column.snapshot config) more last) :
    last.primary = column.primary ∧ ∀ pid snap, snap < (column.secondary pid).length →
      (last.secondary pid)[snap]? = (column.secondary pid)[snap]? := by
  have hi := run_indexed (.step run trivial trivial rfl :
      (lazyColumn config).Run _ (actions ++ [.snapshot]) _)
  have frozen := (snapshot_frozen config column).path hi path
  refine ⟨frozen.primary_eq, fun pid snap old => ?_⟩
  obtain ⟨more, hh, _⟩ := frozen.secondary_eq pid
  rw [hh, List.getElem?_append_left old]

end

/-! ### A column of ten words -/

def demoLazyConfig : LazyConfig := ⟨8, 10, 1, false, fun _ => 0, word_pos⟩

def demoLazyColumn : LazyColumn where
  activeSnapshotIdx := 0
  primary pid := if pid = 0 then [⟨80, fun _ => 0⟩] else []
  secondary _ := []

theorem demoLazyColumn_start : (lazyColumn demoLazyConfig).Start demoLazyColumn := by
  refine ⟨rfl, fun _ => rfl, fun pid => ?_⟩
  rcases Nat.eq_zero_or_pos pid with rfl | hp
  · rfl
  · show (ite _ _ _ : List Chunk).map _ = ite _ _ _
    rw [if_neg (by omega), if_neg (by show ¬ pid < 1; omega)]
    rfl

instance (column : LazyColumn) (action : LazyAction) :
    Decidable ((lazyColumn demoLazyConfig).Enabled column action) :=
  match action with
  | .insertElem _ elem => inferInstanceAs (Decidable (∀ bytes ∈ elem, bytes.length = 8))
  | .updateElem _ elem => inferInstanceAs (Decidable (∀ bytes ∈ elem, bytes.length = 8))
  | .snapshot => .isTrue trivial

instance (column : LazyColumn) (action : LazyAction) : Decidable (BeforeWrap column action) :=
  match action with
  | .insertElem _ _ => .isFalse id
  | .updateElem vid _ => inferInstanceAs (Decidable ((column.secondary (getPid vid)).length < 256))
  | .snapshot => .isTrue trivial

def demoUpdate (word : Nat) : LazyAction := .updateElem 0 (some (Memory.wordBytes word))

def demoWord (column : LazyColumn) : List (List UInt8) :=
  (column.primary 0).map fun chunk => chunk.bytes.read 0 8

theorem run_keeps_snapshots_twice : ∃ last,
    (lazyColumn demoLazyConfig).Path BeforeWrap (demoLazyColumn.snapshot demoLazyConfig)
      [demoUpdate 7, .snapshot, demoUpdate 8] last ∧
    last.primary = demoLazyColumn.primary := by
  obtain ⟨last, hf⟩ := isSome_iff_exists.mp
    (by decide +kernel : ((lazyColumn demoLazyConfig).computed BeforeWrap
      (demoLazyColumn.snapshot demoLazyConfig) [demoUpdate 7, .snapshot, demoUpdate 8]).isSome)
  have hp := Machine.Path.of_computed hf
  exact ⟨last, hp, (run_keeps_snapshots (.start demoLazyColumn_start) hp).1⟩

/-- The update after the 256th snapshot goes to the primary. -/
theorem wrapped_update_changes_primary : ∃ column last,
    (lazyColumn demoLazyConfig).Run (fun _ _ => True) (List.replicate 255 .snapshot) column ∧
    (lazyColumn demoLazyConfig).Path (fun _ _ => True) (column.snapshot demoLazyConfig)
    [demoUpdate 7] last ∧
    last.primary ≠ column.primary := by
  have hre : ∃ column, (lazyColumn demoLazyConfig).Run (fun _ _ => True)
    (List.replicate 255 .snapshot) column ∧
      ((lazyColumn demoLazyConfig).computed (fun _ _ => True) (column.snapshot demoLazyConfig)
      [demoUpdate 7]).map (fun last => (demoWord column, demoWord last)) = some
        ([Memory.wordBytes 0], [Memory.wordBytes 7]) :=
    Machine.Run.of_computed demoLazyColumn demoLazyColumn_start (by decide +kernel)
  obtain ⟨column, run, hr⟩ := hre
  obtain ⟨last, hu, hw⟩ := map_eq_some_iff.mp hr
  refine ⟨column, last, run, .of_computed hu, fun hs => ?_⟩
  obtain ⟨hb, hbe⟩ := Prod.mk.inj hw
  have he : demoWord last = demoWord column := by rw [demoWord, demoWord, hs]
  rw [hb, hbe] at he
  exact absurd he (by decide +kernel)

/-! ### One secondary -/

/-- No two records share a slot, and new slots are free. -/
structure LazySecondary.Sound (sec : LazySecondary) : Prop where
  low : ∀ vid slot, sec.secIdx vid = some slot → slot < sec.secondaryVid
  unique : ∀ vid other slot, sec.secIdx vid = some slot → sec.secIdx other = some slot → vid = other

def LazySecondary.value (unitSize vid : Nat) (sec : LazySecondary) : Option (Option (List UInt8)) :=
  match sec.secIdx vid with
  | some internalVid => (readChunks unitSize sec.data (elemStop unitSize internalVid)).map some
  | none => some none

open LazySecondary

section

variable {sec a : LazySecondary} {vid iv : Nat} {e : Option (List UInt8)}

theorem slot_spec (hs : sec.Sound) (hf : sec.slot vid = some (iv, a)) :
    a.Sound ∧ a.secIdx vid = some iv ∧ a.data = sec.data ∧
      ∀ o ≠ vid, a.secIdx o = sec.secIdx o := by
  unfold slot at hf
  split at hf
  · next hh =>
    obtain ⟨rfl, rfl⟩ := Prod.mk.inj (some.inj hf)
    exact ⟨hs, hh, rfl, fun _ _ => rfl⟩
  · next hab =>
    split_ifs at hf
    obtain ⟨rfl, rfl⟩ := Prod.mk.inj (some.inj hf)
    refine ⟨⟨fun o slot ht => ?_, fun f s slot one two => ?_⟩, update_self _ _ _,
      rfl, fun o ha => update_of_ne ha _ _⟩
    · change update sec.secIdx vid _ o = _ at ht
      show slot < sec.secondaryVid + 1
      rw [update_apply] at ht
      split_ifs at ht
      · cases ht
        exact lt_succ_self _
      · exact lt_succ_of_lt (hs.low _ _ ht)
    · change update sec.secIdx vid _ f = _ at one
      change update sec.secIdx vid _ s = _ at two
      rw [update_apply] at one two
      split_ifs at one two with hh ht ht
      · rw [hh, ht]
      · -- the new slot is not among the old ones
        have hb := hs.low _ _ two
        cases one
        omega
      · have hb := hs.low _ _ one
        cases two
        omega
      · exact hs.unique _ _ _ one two

theorem writeSlot_spec (hw : sec.writeSlot config iv e = some a)
    (hsi : (elemBytes e).length = config.unitSize) :
    a.secIdx = sec.secIdx ∧ a.secondaryVid = sec.secondaryVid ∧
      readChunks config.unitSize a.data (elemStop config.unitSize iv) = some (elemBytes e) ∧
      ∀ o ≠ iv, ∀ bs, readChunks config.unitSize sec.data (elemStop config.unitSize o) = some bs →
          readChunks config.unitSize a.data (elemStop config.unitSize o) = some bs := by
  obtain ⟨⟨da, d⟩, hfi, hw⟩ := bind_eq_some_iff.mp hw
  dsimp only at hw
  split_ifs at hw with hf
  · cases hw
    rw [hf] at hfi
    refine ⟨rfl, rfl, readChunks_updateChunks hfi hsi, fun o ha bs ht => ?_⟩
    exact (readChunks_updateChunks_other hfi hsi (elemStop_apart ha)).trans ht
  · obtain ⟨⟨da, d⟩, hs, hw⟩ := bind_eq_some_iff.mp hw
    dsimp only at hw
    split_ifs at hw with hf
    cases hw
    rw [hf] at hs
    refine ⟨rfl, rfl, readChunks_updateChunks hs hsi, fun o ha bs ht => ?_⟩
    exact (readChunks_updateChunks_other hs hsi (elemStop_apart ha)).trans (readChunks_append ht)

/-- **An update of a secondary** gives it the record's new value and keeps the other records. -/
theorem LazySecondary.updateElem_spec (hso : sec.Sound) (hu : sec.updateElem config vid e = some a)
    (hsi : (elemBytes e).length = config.unitSize) :
    a.Sound ∧ a.value config.unitSize vid = some (some (elemBytes e)) ∧
      ∀ o ≠ vid, a.secIdx o = sec.secIdx o ∧ ∀ v, sec.value config.unitSize o = some v →
          a.value config.unitSize o = some v := by
  obtain ⟨⟨iv, r⟩, hf, hw⟩ := bind_eq_some_iff.mp hu
  obtain ⟨hfi, hh, hd, ho⟩ := slot_spec hso hf
  obtain ⟨hsa, hsv, hr, hk⟩ := writeSlot_spec hw hsi
  refine ⟨⟨fun o sl ht => ?_, fun f s sl one two => ?_⟩, ?_, fun o ha => ?_⟩
  · rw [hsa] at ht
    rw [hsv]
    exact hfi.low _ _ ht
  · rw [hsa] at one two
    exact hfi.unique _ _ _ one two
  · simp only [LazySecondary.value, hsa, hh, hr, map_some]
  · refine ⟨by rw [hsa, ho o ha], fun v ht => ?_⟩
    have idx : a.secIdx o = sec.secIdx o := by rw [hsa, ho o ha]
    unfold LazySecondary.value at ht ⊢
    rw [idx]
    cases sl : sec.secIdx o with
    | none => rwa [sl] at ht
    | some sl' =>
      rw [sl] at ht
      obtain ⟨bs, hb, hs⟩ := map_eq_some_iff.mp ht
      have hfr : sl' ≠ iv := by
        rintro rfl
        exact ha (hfi.unique _ _ _ ((ho o ha).trans sl) hh)
      refine map_eq_some_iff.mpr ⟨bs, hk _ hfr _ ?_, hs⟩
      rwa [hd]

end

/-! ### The search through the secondaries -/

section

variable {us vid sn : Nat} {ss os : List LazySecondary} {sec : LazySecondary}

theorem findElem_congr (hs : ∀ i < sn, ss[i]? = os[i]?) :
    findElem us vid ss sn = findElem us vid os sn := by
  induction sn with
  | zero => rfl
  | succ sn ih =>
    have hb := ih fun i low => hs i (lt_succ_of_lt low)
    simp only [findElem, hs sn (lt_succ_self sn), hb]

theorem findElem_succ (ht : ss[sn]? = some sec) : findElem us vid ss (sn + 1) =
      if sec.secIdx vid = none then findElem us vid ss sn
        else sec.value us vid := by
  rw [findElem, ht, bind_eq_bind, bind_some, value]
  cases sec.secIdx vid with
  | none | some s => rfl

theorem findElem_absent (hl : sn ≤ ss.length) (ha : ∀ sec ∈ ss, sec.secIdx vid = none) :
    findElem us vid ss sn = some none := by
  induction sn with
  | zero => rfl
  | succ sn ih =>
    have ht := List.getElem?_eq_getElem (lt_of_succ_le hl)
    rw [findElem_succ ht, if_pos (ha _ (mem_of_getElem? ht))]
    exact ih (le_of_succ_le hl)

theorem findElem_set_self {bs : List UInt8} (ht : ss[sn]? = some sec)
    (hv : se.value us vid = some (some bs)) :
    findElem us vid (ss.set sn se) (sn + 1) = some (some bs) := by
  have low := (List.getElem?_eq_some_iff.mp ht).1
  rw [findElem_succ (List.getElem?_set_self low), if_neg fun ha => ?_, hv]
  rw [LazySecondary.value, ha] at hv
  cases hv

theorem findElem_set_other {v : Option (List UInt8)}
    (ht : ss[sn]? = some sec) (hsi : se.secIdx vid = sec.secIdx vid)
    (hk : ∀ v, sec.value us vid = some v → se.value us vid = some v)
    (hf : findElem us vid ss (sn + 1) = some v) :
    findElem us vid (ss.set sn se) (sn + 1) = some v := by
  have low := (List.getElem?_eq_some_iff.mp ht).1
  rw [findElem_succ ht] at hf
  rw [findElem_succ (List.getElem?_set_self low), hsi]
  split_ifs at hf ⊢
  · rw [← hf]
    exact findElem_congr fun i hb => List.getElem?_set_ne (ne_of_gt hb)
  · exact hk _ hf

end

/-! ### Reads -/

/-- The last write of each record, whether a record was updated after a snapshot, and whether there
was one. -/
structure LastWrites where
  last : Nat → Option (List UInt8)
  moved : Nat → Bool
  snapped : Bool

namespace LastWrites

def next (writes : LastWrites) : LazyAction → LastWrites
  | .insertElem vid elem =>
      { writes with last := Function.update writes.last vid (some (elemBytes elem)) }
  | .updateElem vid elem => { writes with
      last := Function.update writes.last vid (some (elemBytes elem))
      moved := if writes.snapped then Function.update writes.moved vid true else writes.moved }
  | .snapshot => { writes with snapped := true }

/-- After some calls. -/
def after (actions : List LazyAction) : LastWrites :=
  actions.foldl next ⟨fun _ => none, fun _ => false, false⟩

end LastWrites

/-- What a search has to find. -/
def LastWrites.expected (writes : LastWrites) (vid : Nat) : Option (List UInt8) :=
  if writes.moved vid then writes.last vid else none

/-- **The invariant**: a search finds the last write of a record that was updated after a snapshot,
and nothing for another one. -/
structure Tracks (config : LazyConfig) (writes : LastWrites) (column : LazyColumn) : Prop where
  indexed : column.Indexed config
  lengths : ∀ pid < config.nPartitions,
    (column.secondary pid).length = column.activeSnapshotIdx.toNat
  snapped : writes.snapped = true ↔ column.activeSnapshotIdx ≠ 0
  sound : ∀ pid, ∀ sec ∈ column.secondary pid, sec.Sound
  inside : ∀ vid bytes, writes.last vid = some bytes → getPid vid < config.nPartitions
  written : ∀ vid, writes.moved vid = true → writes.last vid ≠ none
  found : ∀ vid, getPid vid < config.nPartitions → findElem config.unitSize vid
    (column.secondary (getPid vid)) column.activeSnapshotIdx.toNat = some (writes.expected vid)

/-- There is room for a record: a bit of the mask for a new slot, and memory for the slot in one of
the chunks, or behind all of them in the one that is added. -/
def LazySecondary.Room (config : LazyConfig) (vid : Nat) (sec : LazySecondary) : Prop :=
  let stop := elemStop config.unitSize ((sec.secIdx vid).getD sec.secondaryVid)
  (sec.secIdx vid = none → sec.secondaryVid / bitPackSize < sec.bitPacks) ∧
    (holds config.unitSize sec.data stop = true ∨ (sec.data.map Chunk.size).sum < stop ∧
      holds config.unitSize (sec.increaseCapacity config).data stop = true)

/-- There is room for an update: in the primary before the first snapshot, and then in the active
secondary. -/
def LazyColumn.Room (config : LazyConfig) (vid : Nat) (column : LazyColumn) : Prop :=
  getPid vid < config.nPartitions ∧
    if column.activeSnapshotIdx = 0 then getOffset vid < config.extent.capacity
    else ∀ sec ∈ (column.secondary (getPid vid))[column.activeSnapshotIdx.toNat - 1]?,
      sec.Room config vid

/-- Whole elements for which there is room, inserts of records that no secondary has, and at most
255 snapshots. -/
def Trackable (config : LazyConfig) (column : LazyColumn) : LazyAction → Prop
  | .insertElem vid elem => (elemBytes elem).length = config.unitSize ∧
      (∀ sec ∈ column.secondary (getPid vid), sec.secIdx vid = none) ∧
      getPid vid < config.nPartitions ∧ getOffset vid < config.extent.capacity
  | .updateElem vid elem => (elemBytes elem).length = config.unitSize ∧ column.Room config vid
  | .snapshot => column.activeSnapshotIdx ≠ 255

section

variable {ws : LastWrites} {column after : LazyColumn} {vid : Nat} {e : Option (List UInt8)}

open LastWrites

theorem LastWrites.expected_eq_none (hw : ws.moved vid = true → ws.last vid ≠ none) :
    ws.expected vid = none ↔ ws.moved vid = false := by
  unfold expected
  cases hm : ws.moved vid with
  | false => simp
  | true => simpa using hw hm

section

variable (tracks : Tracks config ws column)

include tracks

theorem Tracks.writePrimary (hw : column.writePrimary config vid e = some after)
    (hab : ws.moved vid = false) :
    Tracks config { ws with last := update ws.last vid (some (elemBytes e)) } after := by
  have hin := writePrimary_indexed tracks.indexed hw
  have hv := pid_lt_of_writePrimary tracks.indexed hw
  obtain ⟨_, d, _, rfl⟩ := writePrimary_cases hw
  refine ⟨hin, tracks.lengths, tracks.snapped, tracks.sound, fun o bs ht => ?_,
    fun o hm => ?_, fun o hi => ?_⟩
  · change update ws.last vid _ o = _ at ht
    rw [update_apply] at ht
    split_ifs at ht with hs
    · rwa [hs]
    · exact tracks.inside _ _ ht
  · show update ws.last vid _ o ≠ none
    have ha : o ≠ vid := by
      rintro rfl
      exact Bool.false_ne_true (hab.symm.trans hm)
    rw [update_of_ne ha]
    exact tracks.written _ hm
  · refine (tracks.found o hi).trans (congrArg some ?_)
    show ite _ _ _ = ite _ (update ws.last vid _ o) _
    by_cases hs : o = vid
    · rw [hs, hab, if_neg Bool.false_ne_true, if_neg Bool.false_ne_true]
    · rw [update_of_ne hs]

theorem Tracks.insertElem (ha : ∀ sec ∈ column.secondary (getPid vid), sec.secIdx vid = none)
    (ht : column.insertElem config vid e = some after) :
    Tracks config (ws.next (.insertElem vid e)) after := by
  unfold LazyColumn.insertElem at ht
  split_ifs at ht with hv
  refine tracks.writePrimary ht ((expected_eq_none (tracks.written vid)).mp ?_)
  have hf := tracks.found vid hv.1
  rw [findElem_absent (tracks.lengths _ hv.1).ge ha] at hf
  exact (some.inj hf).symm

theorem Tracks.updateSecondary {sec : LazySecondary} (ha : column.activeSnapshotIdx ≠ 0)
    (ht : (column.secondary (getPid vid))[column.activeSnapshotIdx.toNat - 1]? = some sec)
    (hu : sec.updateElem config vid e = some se) (hsi : (elemBytes e).length = config.unitSize)
    (hin : LazyColumn.Indexed config { column with
      secondary := update column.secondary (getPid vid)
        ((column.secondary (getPid vid)).set (column.activeSnapshotIdx.toNat - 1) se) }) :
    Tracks config (ws.next (.updateElem vid e)) { column with
      secondary := update column.secondary (getPid vid)
        ((column.secondary (getPid vid)).set (column.activeSnapshotIdx.toNat - 1) se) } := by
  have hva := pid_lt_of_getElem? tracks.indexed ht
  have hsn := tracks.snapped.mpr ha
  obtain ⟨hf, hv, ho⟩ := updateElem_spec (tracks.sound _ _ (mem_of_getElem? ht)) hu hsi
  obtain ⟨s, idx⟩ : ∃ s, column.activeSnapshotIdx.toNat = s + 1 :=
    Nat.exists_eq_succ_of_ne_zero fun hz => ha (UInt8.toNat_inj.mp hz)
  rw [idx, Nat.add_sub_cancel] at ht
  have hn : ws.next (.updateElem vid e) = { ws with
      last := update ws.last vid (some (elemBytes e))
      moved := update ws.moved vid true } := by
    simp only [LastWrites.next, hsn, if_true]
  rw [hn]
  refine ⟨hin, fun pid hi => ?_, tracks.snapped, fun pid => ?_, fun o bs hl => ?_,
    fun o hmo => ?_, fun o hi => ?_⟩
  · show (update column.secondary _ _ pid).length = _
    rw [← tracks.lengths pid hi, update_apply]
    split_ifs with hs
    · rw [length_set, hs]
    · rfl
  · show ∀ sec ∈ update column.secondary _ _ pid, sec.Sound
    rw [update_apply]
    split_ifs with hs
    · intro sec hm
      rcases mem_or_eq_of_mem_set hm with old | rfl
      · exact tracks.sound _ _ old
      · exact hf
    · exact tracks.sound pid
  · change update ws.last vid _ o = _ at hl
    rw [update_apply] at hl
    split_ifs at hl with hs
    · rwa [hs]
    · exact tracks.inside _ _ hl
  · change update ws.moved vid true o = true at hmo
    show update ws.last vid _ o ≠ none
    rw [update_apply] at hmo ⊢
    split_ifs at hmo ⊢ with hs
    · exact some_ne_none _
    · exact tracks.written _ hmo
  · show findElem config.unitSize o (update column.secondary _ _ (getPid o))
      column.activeSnapshotIdx.toNat = some (ite (update ws.moved vid true o = true)
        (update ws.last vid _ o) _)
    have hb := tracks.found o hi
    rw [idx] at hb
    rw [idx, Nat.add_sub_cancel]
    by_cases hs : o = vid
    · subst hs
      rw [update_self, update_self, if_pos rfl, update_self]
      exact findElem_set_self ht hv
    · rw [update_of_ne hs, update_of_ne hs]
      show _ = some (ws.expected o)
      by_cases hh : getPid o = getPid vid
      · obtain ⟨hsa, hk⟩ := ho o hs
        rw [hh] at hb ⊢
        rw [update_self]
        exact findElem_set_other ht hsa hk hb
      · rwa [update_of_ne hh]

theorem Tracks.updateElem (hsi : (elemBytes e).length = config.unitSize)
    (ht : column.updateElem config vid e = some after) :
    Tracks config (ws.next (.updateElem vid e)) after := by
  have hs : (lazyColumn config).next column (.updateElem vid e) = some after := ht
  have hi := step_indexed tracks.indexed hs
  rcases updateElem_cases ht with ⟨hz, hw⟩ | ⟨hac, sec, se, hth, hu, rfl⟩
  · have he : ws.snapped = false := by
      rw [← not_eq_true, tracks.snapped]
      exact not_not_intro hz
    have hv := pid_lt_of_writePrimary tracks.indexed hw
    have hf := tracks.found vid hv
    rw [hz] at hf
    have ha := (LastWrites.expected_eq_none (tracks.written vid)).mp (some.inj hf).symm
    simpa only [LastWrites.next, he, false_eq_true, if_false] using tracks.writePrimary hw ha
  · exact tracks.updateSecondary hac hth hu hsi hi

theorem Tracks.snapshot (few : column.activeSnapshotIdx ≠ 255) :
    Tracks config (ws.next .snapshot) (column.snapshot config) := by
  have idx : (column.activeSnapshotIdx + 1).toNat = column.activeSnapshotIdx.toNat + 1 := by
    have hbo := column.activeSnapshotIdx.toNat_lt
    have hb : column.activeSnapshotIdx.toNat ≠ 255 := fun hf => few (UInt8.toNat_inj.mp hf)
    rw [UInt8.toNat_add]
    exact mod_eq_of_lt (by show _ + 1 < 256; omega)
  have hs : (lazyColumn config).next column .snapshot = some (column.snapshot config) := rfl
  have hin := step_indexed tracks.indexed hs
  refine ⟨hin, fun pid hi => ?_, ?_, fun pid => ?_, tracks.inside, tracks.written, fun vid hi => ?_⟩
  · show (ite _ _ _ : List LazySecondary).length = (column.activeSnapshotIdx + 1).toNat
    rw [if_pos hi, length_append, length_singleton, tracks.lengths pid hi, idx]
  · show true = true ↔ column.activeSnapshotIdx + 1 ≠ 0
    refine iff_of_true rfl fun hz => ?_
    rw [hz] at idx
    cases idx
  · show ∀ sec ∈ (ite _ _ _ : List LazySecondary), sec.Sound
    split_ifs with hi
    · intro sec hm
      rcases mem_append.mp hm with old | new
      · exact tracks.sound pid sec old
      · obtain rfl := mem_singleton.mp new
        exact ⟨fun _ _ ht => (nomatch ht), fun _ _ _ ht => (nomatch ht)⟩
    · exact tracks.sound pid
  · show findElem config.unitSize vid (ite _ _ _) (column.activeSnapshotIdx + 1).toNat = _
    have hl := tracks.lengths _ hi
    have ha : (create config (config.capacity / 10)).secIdx vid = none := rfl
    rw [if_pos hi, idx, ← hl, findElem_succ (List.getElem?_concat_length), if_pos ha]
    refine (findElem_congr fun i low => List.getElem?_append_left low).trans ?_
    rw [hl]
    exact tracks.found vid hi

end

/-- **The invariant holds** in every such run. -/
theorem run_tracks (run : (lazyColumn config).Run (Trackable config) actions column) :
    Tracks config (.after actions) column := by
  induction run with
  | start hin =>
    have hi := run_indexed (.start hin : (lazyColumn config).Run (Trackable config) [] _)
    obtain ⟨hz, hem, _⟩ := hin
    refine ⟨hi, fun pid _ => by rw [hem, hz]; rfl, ?_, fun pid sec hm => ?_,
      fun vid bs hth => (nomatch hth), fun vid hmo => absurd hmo false_ne_true,
      fun vid _ => by rw [hz]; rfl⟩
    · exact iff_of_false false_ne_true (not_not_intro hz)
    · rw [hem] at hm
      exact absurd hm not_mem_nil
  | @step actions column after a run he ha ht ih =>
    have hn : LastWrites.after (actions ++ [a]) = (LastWrites.after actions).next a :=
      foldl_concat _ _ _ _
    rw [hn]
    cases a with
    | insertElem => exact ih.insertElem ha.2.1 ht
    | updateElem => exact ih.updateElem ha.1 ht
    | snapshot =>
      cases ht
      exact ih.snapshot ha

section

variable (sized : (elemBytes e).length = config.unitSize)

include sized

theorem LazySecondary.Room.updateElem {sec : LazySecondary} (hr : sec.Room config vid) :
    ∃ after, sec.updateElem config vid e = some after := by
  obtain ⟨bit, hm⟩ := hr
  obtain ⟨r, hsl, hd, hg⟩ : ∃ r,
      sec.slot vid = some ((sec.secIdx vid).getD sec.secondaryVid, r) ∧ r.data = sec.data ∧
        (r.increaseCapacity config).data = (sec.increaseCapacity config).data := by
    cases idx : sec.secIdx vid with
    | some iv => exact ⟨sec, by simp [LazySecondary.slot, idx], rfl, rfl⟩
    | none =>
      exact ⟨{ sec with
        secondaryVid := sec.secondaryVid + 1
        secIdx := update sec.secIdx vid (some sec.secondaryVid) }, by
          simp [LazySecondary.slot, idx, bit idx], rfl, rfl⟩
  simp only [LazySecondary.updateElem, hsl, bind_eq_bind, bind_some]
  unfold writeSlot
  rcases hm with hf | ⟨hp, hs⟩
  · rw [← hd] at hf
    obtain ⟨cs, hu⟩ := updateChunks_holds sized hf
    exact ⟨_, by simp [hu]; rfl⟩
  · rw [← hd] at hp
    rw [← hg] at hs
    obtain ⟨cs, hu⟩ := updateChunks_holds sized hs
    exact ⟨_, by simp [updateChunks_past hp, hu]; rfl⟩

theorem writePrimary_room (hin : column.Indexed config) (hv : getPid vid < config.nPartitions)
    (hi : getOffset vid < config.extent.capacity) : ∃ after,
        column.writePrimary config vid e = some after := by
  have hsi := hin.sizes (getPid vid)
  rw [if_pos hv] at hsi
  obtain ⟨c, ho, hs⟩ := map_eq_singleton_iff.mp hsi
  have hf : elemStop config.unitSize (getOffset vid) ≤ c.size := by
    rw [hs]
    exact (room_iff : _ ≤ config.extent.totalSize ↔ _).mpr hi
  have hr : holds config.unitSize (column.primary (getPid vid))
      (elemStop config.unitSize (getOffset vid)) = true := by
    rw [ho, holds, if_pos hf]
    exact decide_eq_true (Nat.le_add_left _ _)
  obtain ⟨d, hu⟩ := updateChunks_holds sized hr
  exact ⟨_, by simp [LazyColumn.writePrimary, hu]; rfl⟩

end

/-- **Such a call succeeds.** -/
theorem Tracks.progress (htr : Tracks config ws column) {a : LazyAction}
    (ha : Trackable config column a) : ∃ after, (lazyColumn config).next column a = some after := by
  cases a with
  | insertElem vid e =>
    obtain ⟨hs, _, hi⟩ := ha
    obtain ⟨after, hw⟩ := writePrimary_room hs htr.indexed hi.1 hi.2
    exact ⟨after, (if_pos hi).trans hw⟩
  | updateElem vid e =>
    obtain ⟨hs, hv, hr⟩ := ha
    show ∃ after, column.updateElem config vid e = some after
    unfold LazyColumn.updateElem
    split_ifs at hr ⊢ with hf
    · exact writePrimary_room hs htr.indexed hv hr
    · have low : column.activeSnapshotIdx.toNat - 1 < (column.secondary (getPid vid)).length := by
        have hp : column.activeSnapshotIdx.toNat ≠ 0 := fun hz => hf (UInt8.toNat_inj.mp hz)
        rw [htr.lengths _ hv]
        omega
      have ht := List.getElem?_eq_getElem low
      obtain ⟨sec, hu⟩ := (hr _ ht).updateElem hs
      exact ⟨_, by simp only [ht, hu, bind_eq_bind, bind_some]; rfl⟩
  | snapshot => exact ⟨_, rfl⟩

/-- **Reads return the last write** of exactly the records that were updated after a snapshot, and
no call for which there is room fails. -/
theorem run_reads_moved (noMeta : config.isMeta = false) {actions : List LazyAction}
    (run : (lazyColumn config).Run (Trackable config) actions column) :
    (∀ action, Trackable config column action →
      ∃ after, (lazyColumn config).next column action = some after) ∧
    ∀ vid bytes, (LastWrites.after actions).last vid = some bytes →
      (column.getElem config vid = some bytes ↔ (LastWrites.after actions).moved vid = true) := by
  have ht := run_tracks run
  refine ⟨fun action ha => ht.progress ha, fun vid bytes last => ?_⟩
  have hf := ht.found vid (ht.inside _ _ last)
  unfold LazyColumn.getElem
  rw [hf, expected, last]
  cases moved : (after actions).moved vid with
  | false =>
    have hfa : column.columnGetElem config vid = none := if_neg fun hb => by
      rw [noMeta] at hb
      exact false_ne_true hb.1
    simp [hfa]
  | true => simp

end

instance LazySecondary.decidableRoom (config : LazyConfig) (vid : Nat) (sec : LazySecondary) :
    Decidable (sec.Room config vid) := by
  unfold LazySecondary.Room
  infer_instance

instance LazyColumn.decidableRoom (config : LazyConfig) (vid : Nat) (column : LazyColumn) :
    Decidable (column.Room config vid) := by
  unfold LazyColumn.Room
  infer_instance

instance decidableTrackable (column : LazyColumn) (action : LazyAction) :
    Decidable (Trackable demoLazyConfig column action) := by
  cases action <;> unfold Trackable <;> infer_instance

def demoInsert : LazyAction := .insertElem 0 (some (Memory.wordBytes 6))

theorem run_reads_moved_twice : ∃ column, (lazyColumn demoLazyConfig).Run (Trackable demoLazyConfig)
      [demoInsert, .snapshot, demoUpdate 7, .snapshot, demoUpdate 8, .snapshot] column ∧
    (∃ after, (lazyColumn demoLazyConfig).next column (demoUpdate 9) = some after) ∧
    column.getElem demoLazyConfig 0 = some (Memory.wordBytes 8) := by
  have hre : ∃ column, (lazyColumn demoLazyConfig).Run (Trackable demoLazyConfig)
      [demoInsert, .snapshot, demoUpdate 7, .snapshot, demoUpdate 8, .snapshot] column ∧
      decide (Trackable demoLazyConfig column (demoUpdate 9)) = true :=
    Machine.Run.of_computed demoLazyColumn demoLazyColumn_start (by decide +kernel)
  obtain ⟨column, run, hr⟩ := hre
  obtain ⟨hs, hrd⟩ := run_reads_moved rfl run
  exact ⟨column, run, hs _ (of_decide_eq_true hr), (hrd 0 _ rfl).mpr rfl⟩

/-- A record that was only inserted cannot be read. -/
theorem inserted_not_read : ∃ column, (lazyColumn demoLazyConfig).Run (fun _ _ => True)
    [demoInsert] column ∧
    (LastWrites.after [demoInsert]).last 0 = some (Memory.wordBytes 6) ∧
    column.getElem demoLazyConfig 0 = none := by
  have hr : ∃ column, (lazyColumn demoLazyConfig).Run (fun _ _ => True) [demoInsert] column ∧
      column.getElem demoLazyConfig 0 = none :=
    Machine.Run.of_computed demoLazyColumn demoLazyColumn_start (by decide +kernel)
  obtain ⟨column, run, hre⟩ := hr
  exact ⟨column, run, rfl, hre⟩

end Proteus.Oltp.Layout
