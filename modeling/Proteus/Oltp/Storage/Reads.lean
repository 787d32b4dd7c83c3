/-
**Reads of the past, and of deleted records.**

* `run_reads_past` — a reader gets the record as it was after the last update it may see, in every
  run in which no version is placed over the end of another. Two versions in a row in one slack
  buffer are: each copy ends `alignof(VersionSingle)` bytes behind its chunk.
* `delete_respects_snapshots_iff` — the flag of a deleted record is in its index entry and not in
  its versions, so older readers lose the record as well.
-/

import Proteus.Oltp.Storage.History

namespace Proteus.Oltp.Storage

open Library List Option Numerals

/-- The entry that was current at a time: the last one written with a start time up to then. -/
def History.asOf (history : History) (time : Nat) : Option Entry :=
  history.entries.find? fun entry => entry.start ≤ time

/-- A call whose version fits, and is not placed over the end of another one. -/
def Safe (config : Config) (store : Store) (action : Action) : Prop :=
  Fits config action ∧ NoSpill config store action

variable {config : Config} {store : Store} {actions : List Action} {record : RecordId}
    {history h : History}
  {reader r : TxnTs} {columns : Option (List Nat)} {fuel : Nat}

theorem History.visible_eq_asOf (own : ∀ e ∈ h.entries, e.start = r.txnId → e.start ≤ r.startTime) :
    h.visible r = h.asOf r.startTime := by
  refine List.find?_congr fun e hm => decide_eq_decide.mpr ?_
  exact ⟨fun hr => hr.elim id (own e hm), Or.inl⟩

open History

/-- **Reads of the past.** -/
theorem run_reads_past (run : (columnStore config).Run (Safe config) actions store)
    (inserted : historiesOf config actions record = some history) (alive : history.deleted = false)
    {first : Entry} (oldest : history.entries.getLast? = some first)
    (since : first.start ≤ reader.startTime)
    (own : ∀ entry ∈ history.entries, entry.start = reader.txnId → entry.start ≤ reader.startTime)
    (given : columns ≠ some []) (enough : history.entries.length ≤ fuel) :
    ∃ entry, history.asOf reader.startTime = some entry ∧
      getIndexedRecord config store record reader columns fuel =
        .ok (selectCells entry.row (columns.getD (config.table record).columns)) := by
  obtain ⟨cs, hr⟩ : ∃ cs, Represents config True store (historiesOf config actions) cs :=
    run_represents (fun _ _ hs => hs.1) (fun _ _ _ hs => hs.2) run
  have hrd := getIndexedRecord_represents hr inserted reader columns enough
  rw [History.Reads, visible_eq_asOf own] at hrd
  cases hf : history.asOf reader.startTime with
  | none =>
    have hh := List.find?_eq_none.mp hf first (mem_of_getLast? oldest)
    exact absurd since (by simpa using hh)
  | some entry =>
    simp only [hf, alive] at hrd
    obtain ⟨bs, hre, hri⟩ := hrd
    exact ⟨entry, rfl, by rw [hre, hri trivial given]⟩

/-! ### A small database -/

def demo : Config where
  table _ := ⟨[8]⟩
  capacity := 8192
  dataMemoryBase pair := 4096 + pair * 8192
  tag _ := 1
  alignOf := 1
  vptr := [0xb0, 0x5d, 0x55, 0x55, 0x55, 0x55, 0, 0]
  capacity_aligned := dvd_refl _
  capacity_lt := by decide
  regions_apart := by
    rintro ⟨delta, pid⟩ ⟨delta', pid'⟩ different
    by_contra meet
    simp only [Region.deltaIdxPidPair] at meet
    have sameDelta : delta = delta' := Fin.ext (by omega)
    have samePid : pid = pid' := Fin.ext (by omega)
    exact different (by rw [sameDelta, samePid])
  addressable := by
    rintro ⟨delta, pid⟩
    simp only [Region.deltaIdxPidPair]
    omega
  alignOf_le := by decide
  vptr_length := rfl
  tag_live _ := by decide

def demoStore : Store where
  memory _ := 0
  partitions _ := (initThreadLocalPools demo.capacity [0] Partition.fresh).get rfl
  index _ := none
  rows _ := []

theorem demoStore_initial : Initial demo demoStore :=
  ⟨fun _ => ⟨[0], eq_some_of_isSome rfl⟩, fun _ => rfl⟩

def demoInsert : Action := .insert ⟨1, 0, 0⟩ 0 [[1, 2, 3, 4, 5, 6, 7, 8]]

def demoUpdate (start : Nat) : Action := .update ⟨start, 0, 0⟩ 0 [] (List.replicate 8 9)

def demoInserted : Store := (perform demo demoStore demoInsert).get rfl

def demoUpdated : Store := (perform demo demoInserted (demoUpdate 3)).get rfl

def demoUpdatedTwice : Store := (perform demo demoUpdated (demoUpdate 4)).get rfl

theorem demoUpdate_wellFormed {store : Store} (s : Nat) (hi : (store.index 0).isSome) :
    WellFormed demo store (demoUpdate s) :=
  ⟨isSome_iff_ne_none.mp hi, by simp, rfl⟩

theorem demo_inserts : (columnStore demo).Run (Safe demo) [demoInsert] demoInserted :=
  .step (.start demoStore_initial) ⟨rfl, rfl⟩ ⟨(by decide : 1 < 2 ^ 63), trivial⟩
    (eq_some_of_isSome rfl)

theorem demoInserted_spares (a : Nat) : Spares demo demoInserted a := by
  intro record i hi v hol
  have hu : i.deltaList = 0 := by
    by_cases hs : record = 0
    · subst hs
      exact congrArg IndexVal.deltaList (some.inj hi).symm
    · simp [demoInserted, perform, demoInsert, insertRecord, demoStore, hs] at hi
  rw [hu] at hol
  cases hol with
  | here hv | next hv _ => exact absurd hv not_isValid_zero

theorem demoUpdate_safe {s : Nat} (hs : s < 2 ^ 63) : Safe demo demoInserted (demoUpdate s) :=
  ⟨⟨hs, by decide⟩, demoInserted_spares _⟩

theorem demo_updates : (columnStore demo).Run (Safe demo) [demoInsert, demoUpdate 3] demoUpdated :=
  .step demo_inserts (demoUpdate_wellFormed 3 rfl) (demoUpdate_safe (by decide))
    (eq_some_of_isSome rfl)

theorem run_reads_past_update : getIndexedRecord demo demoUpdated 0 (TxnTs.ofTicket 2) none 2 = .ok
        [1, 2, 3, 4, 5, 6, 7, 8] := by
  obtain ⟨e, hc, hr⟩ : ∃ e,
      asOf ⟨[⟨3, [List.replicate 8 9]⟩, ⟨1, [[1, 2, 3, 4, 5, 6, 7, 8]]⟩], false⟩
        (TxnTs.ofTicket 2).startTime = some e ∧
      getIndexedRecord demo demoUpdated 0 (TxnTs.ofTicket 2) none 2 =
        .ok (selectCells e.row (none.getD (demo.table 0).columns)) :=
    run_reads_past demo_updates rfl rfl rfl (by decide) (by decide) (by decide) (by decide)
  obtain rfl : ⟨1, [[1, 2, 3, 4, 5, 6, 7, 8]]⟩ = e := some.inj hc
  exact hr

theorem adjacent_versions_overwrite :
    (columnStore demo).Run (fun _ action => Fits demo action) [demoInsert, demoUpdate 3,
      demoUpdate 4]
      demoUpdatedTwice ∧
    ((historiesOf demo [demoInsert, demoUpdate 3, demoUpdate 4] 0).bind (History.asOf · 2)).map
      Entry.row =
      some [[1, 2, 3, 4, 5, 6, 7, 8]] ∧
    getIndexedRecord demo demoUpdatedTwice 0 (TxnTs.ofTicket 2) none 3 = .ok
        [1, 2, 3, 4, 5, 6, 7, 0xb0] := by
  refine ⟨.step (demo_updates.mono fun _ _ hs => hs.1) (demoUpdate_wellFormed 4 rfl)
    ⟨(by decide : 4 < 2 ^ 63), by decide⟩ (eq_some_of_isSome rfl), rfl, rfl⟩

/-! ### Deleted records -/

/-- What readers are to get after a delete at time `start`: the older ones what they got before, the
others the exception. -/
def RespectsSnapshot (start : Nat) (reader : TxnTs) (before after : Except Fault (List UInt8)) :
    Prop :=
  (reader.startTime < start → ∀ bytes, before = .ok bytes → after = .ok bytes) ∧
    (start ≤ reader.startTime → after = .error recordDoesNotExist)

theorem History.visible_eq_none_iff :
    h.visible r = none ↔ ∀ e ∈ h.entries, ¬ r.isReadable e.start := by
  simp [visible]

variable {txn : Txn}

theorem History.delete_visible (hs : txn.startTime ≤ r.startTime ∨ h.visible r ≠ none)
    (hn : h.entries ≠ []) : (h.delete txn).visible r ≠ none := by
  obtain ⟨e, es, hsp⟩ := exists_cons_of_ne_nil hn
  simp only [ne_eq, visible_eq_none_iff, not_forall] at hs ⊢
  rw [delete, hsp]
  rcases hs with hl | ⟨s, hm, hr⟩
  · exact ⟨_, mem_cons_self, not_not.mpr (Or.inl hl)⟩
  · exact ⟨s, mem_cons_of_mem _ (hsp ▸ hm), hr⟩

theorem History.delete_deleted (hn : h.entries ≠ []) : (h.delete txn).deleted = true := by
  obtain ⟨e, es, hs⟩ := exists_cons_of_ne_nil hn
  rw [delete, hs]

theorem History.length_delete (hn : h.entries ≠ []) :
    (h.delete txn).entries.length = h.entries.length + 1 := by
  obtain ⟨e, es, hs⟩ := exists_cons_of_ne_nil hn
  simp [delete, hs]

/-- **Deletes and snapshots.** -/
theorem delete_respects_snapshots_iff {txn : Txn} {after : Store}
    (run : (columnStore config).Run (fun _ action => Fits config action) actions store)
    (inserted : historiesOf config actions record = some history) (alive : history.deleted = false)
    (fits : Fits config (.delete txn record))
    (done : deleteRecord config txn record store = some after)
    (enough : history.entries.length < fuel) :
    RespectsSnapshot txn.startTime reader (getIndexedRecord config store record reader columns fuel)
        (getIndexedRecord config after record reader columns fuel) ↔
      txn.startTime ≤ reader.startTime ∨ ∀ entry ∈ history.entries,
          ¬ reader.isReadable entry.start := by
  obtain ⟨cs, hre⟩ : ∃ cs, Represents config False store (historiesOf config actions) cs :=
    run_represents (fun _ _ fits => fits) False.elim run
  obtain ⟨_, vs, hh⟩ := hre.held record history inserted
  have hn : history.entries ≠ [] := by simp [hh.entries]
  obtain ⟨m, hre'⟩ := deleteRecord_represents hre fits.1 fits.2 False.elim inserted done
  have hb := getIndexedRecord_represents hre inserted reader columns (le_of_lt enough)
  have hg := getIndexedRecord_represents hre' (Function.update_self ..) reader columns
    (le_of_eq_of_le (length_delete hn) enough)
  -- whoever sees any entry gets the exception
  have hhi : txn.startTime ≤ reader.startTime ∨ history.visible reader ≠ none →
      getIndexedRecord config after record reader columns fuel = .error recordDoesNotExist :=
          fun hs => by
    obtain ⟨entry, hf⟩ := ne_none_iff_exists'.mp (delete_visible hs hn)
    simpa [History.Reads, hf, delete_deleted hn] using hg
  rw [← visible_eq_none_iff]
  constructor
  · rintro ⟨ho, -⟩
    by_contra hne
    obtain ⟨he, hs⟩ := not_or.mp hne
    obtain ⟨entry, hf⟩ := ne_none_iff_exists'.mp hs
    simp only [History.Reads, hf, alive, Bool.false_eq_true, if_false] at hb
    obtain ⟨bs, hr, -⟩ := hb
    have hk := ho (not_le.mp he) bs hr
    rw [hhi (Or.inr hs)] at hk
    cases hk
  · rintro (hl | hu)
    · exact ⟨fun he => absurd hl (not_le.mpr he), fun _ => hhi (Or.inl hl)⟩
    · refine ⟨fun _ bs hr => ?_, fun hl => hhi (Or.inl hl)⟩
      simp only [History.Reads, hu] at hb
      obtain ⟨f, hfa⟩ := hb
      rw [hfa] at hr
      cases hr

def demoDeleted : Store := (deleteRecord demo ⟨3, 0, 0⟩ 0 demoInserted).get rfl

theorem delete_respects_snapshots_late : RespectsSnapshot 3 (TxnTs.ofTicket 4)
      (getIndexedRecord demo demoInserted 0 (TxnTs.ofTicket 4) none 2)
      (getIndexedRecord demo demoDeleted 0 (TxnTs.ofTicket 4) none 2) := by
  have hd : deleteRecord demo ⟨3, 0, 0⟩ 0 demoInserted = some demoDeleted := eq_some_of_isSome rfl
  exact (delete_respects_snapshots_iff (demo_inserts.mono fun _ _ hs => hs.1) rfl rfl
    ⟨(by decide : 3 < 2 ^ 63), by decide⟩ hd (by decide)).mpr (Or.inl (by decide))

theorem older_reader_loses_record :
    (columnStore demo).Run (fun _ action => Fits demo action) [demoInsert] demoInserted ∧
    deleteRecord demo ⟨3, 0, 0⟩ 0 demoInserted = some demoDeleted ∧
    getIndexedRecord demo demoInserted 0 (TxnTs.ofTicket 2) none 2 = .ok [1, 2, 3, 4, 5, 6, 7, 8] ∧
    getIndexedRecord demo demoDeleted 0 (TxnTs.ofTicket 2) none 2 = .error recordDoesNotExist ∧
    ¬ RespectsSnapshot 3 (TxnTs.ofTicket 2)
      (getIndexedRecord demo demoInserted 0 (TxnTs.ofTicket 2) none 2)
      (getIndexedRecord demo demoDeleted 0 (TxnTs.ofTicket 2) none 2) := by
  refine ⟨demo_inserts.mono fun _ _ hs => hs.1, eq_some_of_isSome rfl, rfl, rfl, fun hr => ?_⟩
  have hk := hr.1 (by decide) [1, 2, 3, 4, 5, 6, 7, 8] rfl
  cases (show Except.error recordDoesNotExist = Except.ok _ from hk)

end Proteus.Oltp.Storage
