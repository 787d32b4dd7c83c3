/-
**The copy for analytics** (`CircularMasterColumn::ETL`, `snapshot` and `elastic_partition`).

With one master version and `HTAP_ETL`, a column has a second block that `ETL` brings up to date:
the packs with a bit set, if the last snapshot saw an update, and the records that are new.
`elastic_partition` then hands out the copy, the copy and the new records of the master, or only the
master.

A snapshot tells whether there was an update since the snapshot before it, not since the last `ETL`:
after an update and two snapshots the flag is clear, the next `ETL` skips the packs, and the copy it
leaves is handed out although it is stale.

* `Kept` — the invariant: where no bit is set the copy is the master, and everywhere if there was no
  update since the last `ETL`.
* `run_etl_copies` — while each `ETL` sees the flag or has nothing to copy for it, the copy is the
  master after each `ETL`, and the segments that are handed out spell the master of the last
  snapshot.
* `etl_copies_iff` — this condition on an `ETL` is exact.
-/

import Proteus.Library.Machine
import Proteus.Oltp.Layout.CircularMaster

namespace Proteus.Oltp.Layout

open Library List Option Function

/-! ### The column -/

/-- A column of one partition and one master version, and the number of its records. -/
structure EtlColumn where
  vid : Nat
  column : MasterColumn

inductive EtlAction
  | insertElem (elem : Option (List UInt8))
  | updateElem (offset : Nat) (elem : Option (List UInt8))
  | snapshot
  | etl

def Sized (extent : Extent) (elem : Option (List UInt8)) : Prop :=
  elem.all (fun bytes => bytes.length = extent.unitSize) = true

instance (extent : Extent) (elem : Option (List UInt8)) : Decidable (Sized extent elem) :=
  inferInstanceAs (Decidable (_ = true))

/-- The column: each record is inserted behind the others, and a snapshot is of all of them. -/
def etlColumn (extent : Extent) : Machine EtlColumn EtlAction where
  Start state := state = ⟨0, .fresh⟩
  Enabled state
    | .insertElem elem => state.vid < extent.capacity ∧ Sized extent elem
    | .updateElem offset elem => offset < extent.capacity ∧ Sized extent elem
    | .snapshot | .etl => True
  next state
    | .insertElem elem => (state.column.insert extent 1 state.vid elem).map fun column =>
      ⟨state.vid + 1, column⟩
    | .updateElem offset elem => (state.column.updateElem extent 0 offset elem).map fun column =>
      { state with column }
    | .snapshot => some { state with column := state.column.snapshot state.vid 0 }
    | .etl => some { state with column := state.column.etl extent }

/-- Some first records of the copy are the master's. -/
def MasterColumn.CopiedUpTo (extent : Extent) (column : MasterColumn) (numRecords : Nat) : Prop :=
  ∀ record < numRecords, column.readonlyEtl.element extent.unitSize record =
    column.getElem extent 0 record

/-- The records of the last snapshot have been copied. -/
def MasterColumn.Copied (extent : Extent) (column : MasterColumn) : Prop :=
  column.CopiedUpTo extent column.snapshotArena.numOfRecords

/-- What is handed out is the master of the last snapshot. -/
def MasterColumn.Spelled (extent : Extent) (column : MasterColumn) : Prop :=
  ∃ segments, column.elasticPartition = some segments ∧ segments.flatMap (Segment.records extent) =
    (List.range column.snapshotArena.numOfRecords).map (column.getElem extent 0)

def UpdatesSeen (extent : Extent) (state : EtlColumn) : EtlAction → Prop
  | .updateElem _ elem => (elemBytes elem).length ≤ extent.unitSize
  | .etl => state.column.snapshotArena.updSinceLastSnapshot = true ∨
      ∀ record < state.column.etlArena.numOfRecords, state.column.updBits 0 record = true →
        state.column.readonlyEtl.element extent.unitSize record = state.column.getElem extent
          0 record
  | _ => True

/-! ### What is kept -/

/-- **The invariant.** -/
structure EtlColumn.Kept (extent : Extent) (state : EtlColumn) : Prop where
  version : state.column.snapshotArena.masterVer = 0
  copied_le : state.column.etlArena.numOfRecords ≤ state.column.snapshotArena.numOfRecords
  snapped_le : state.column.snapshotArena.numOfRecords ≤ state.vid
  vid_le : state.vid ≤ extent.capacity
  clean : ∀ record < state.column.etlArena.numOfRecords, state.column.updBits 0 record = false →
    state.column.readonlyEtl.element extent.unitSize record = state.column.getElem extent 0 record
  quiet : state.column.etlArena.updSinceLastSnapshot = false → state.column.touched = false →
    state.column.CopiedUpTo extent state.column.etlArena.numOfRecords

open Memory

namespace EtlColumn

variable {e : Extent} {s after : EtlColumn}

theorem Kept.start : Kept e ⟨0, .fresh⟩ :=
  ⟨rfl, le_rfl, le_rfl, Nat.zero_le _, fun _ hn => absurd hn (Nat.not_lt_zero _), fun hn =>
    nomatch hn⟩

open MasterColumn

section

variable (kept : s.Kept e)

include kept

variable {el : Option (List UInt8)} {column : MasterColumn}

theorem Kept.insert (hr : s.vid < e.capacity) (hi : s.column.insert e 1 s.vid el = some column) :
    Kept e ⟨s.vid + 1, column⟩ := by
  rw [insert_eq hr] at hi
  cases hi
  have hc := kept.copied_le
  have hs := kept.snapped_le
  have ho : ∀ r < s.column.etlArena.numOfRecords,
      ((s.column.masters 0).write (s.vid * e.unitSize) (elemBytes el)).element e.unitSize r =
        s.column.getElem e 0 r := fun r low =>
    element_write_after (by omega)
  refine ⟨kept.version, hc, hs.trans (Nat.le_succ _), hr, fun r low hcl => ?_,
    fun hca hu r low => ?_⟩
  · exact (kept.clean r low hcl).trans (ho r low).symm
  · exact (kept.quiet hca hu r low).trans (ho r low).symm

theorem Kept.update {o : Nat} (hi : o < e.capacity) (hs : (elemBytes el).length ≤ e.unitSize)
    (hu : s.column.updateElem e 0 o el = some column) :
    Kept e { s with column } := by
  rw [updateElem_eq hi] at hu
  cases hu
  refine ⟨kept.version, kept.copied_le, kept.snapped_le, kept.vid_le, fun r low hc => ?_,
    fun _ hn => nomatch hn⟩
  simp only [update_self] at hc
  have ha : o ≠ r := by
    rintro rfl
    rw [update_self] at hc
    cases hc
  rw [update_of_ne (Ne.symm ha)] at hc
  have hw : (Function.update s.column.masters 0 ((s.column.masters 0).write (o * e.unitSize)
      (elemBytes el)) 0).element e.unitSize r = s.column.getElem e 0 r := by
    rw [update_self, element_write_other ha hs]
    rfl
  exact (kept.clean r low hc).trans hw.symm

theorem Kept.snapshot : Kept e { s with column := s.column.snapshot s.vid 0 } := by
  refine ⟨rfl, kept.copied_le.trans kept.snapped_le, le_rfl, kept.vid_le, kept.clean, fun hc _ =>
    ?_⟩
  obtain ⟨hc, hu⟩ := Bool.or_eq_false_iff.mp hc
  exact kept.quiet hc hu

theorem Kept.copied (hse : UpdatesSeen e s .etl) : (s.column.etl e).Copied e := by
  intro r low
  have hi : r < e.capacity := low.trans_le (kept.snapped_le.trans kept.vid_le)
  rw [etl_element _ hi, kept.version]
  split_ifs with hc
  · rfl
  obtain ⟨hk, hsk⟩ := not_or.mp hc
  have hk : r < s.column.etlArena.numOfRecords := by
    by_contra hl
    exact hk ⟨not_lt.mp hl, low⟩
  show _ = s.column.getElem e 0 r
  by_cases hm : s.column.updBits 0 r = true
  · rcases hse with hu | hs
    · have hf := packStart_le r
      refine absurd ⟨hu, hf.trans_lt hk, (anyBit_iff ..).mpr ⟨r, hf, ?_, hm⟩⟩ hsk
      exact (pack_eq_iff.mp rfl).2
    · exact hs r hk hm
  · exact kept.clean r hk (Bool.eq_false_iff.mpr hm)

theorem Kept.etl (hs : UpdatesSeen e s .etl) : Kept e { s with column := s.column.etl e } := by
  have hc := kept.copied hs
  exact ⟨kept.version, le_rfl, kept.snapped_le, kept.vid_le, fun r low _ => hc r low, fun _ _ => hc⟩

theorem Kept.step {a : EtlAction} (he : (etlColumn e).Enabled s a) (hs : UpdatesSeen e s a) :
    ∃ after, (etlColumn e).next s a = some after ∧ after.Kept e := by
  cases a with
  | insertElem elem =>
    have hi := insert_eq he.1 1 elem s.column
    exact ⟨_, congrArg (Option.map _) hi, kept.insert he.1 hi⟩
  | updateElem o elem =>
    have hu := updateElem_eq he.1 0 elem s.column
    exact ⟨_, congrArg (Option.map _) hu, kept.update he.1 hs hu⟩
  | snapshot => exact ⟨_, rfl, kept.snapshot⟩
  | etl => exact ⟨_, rfl, kept.etl hs⟩

end

/-! ### What is handed out -/

theorem records_zero (m : Memory) (nr : Nat) : MasterColumn.Segment.records e ⟨m, 0, nr⟩ =
      (List.range nr).map (m.element e.unitSize) := by
  unfold MasterColumn.Segment.records
  simp only [Nat.zero_add]

theorem Kept.spelled (hk : s.Kept e) (hs : s.column.etlArena.updSinceLastSnapshot = false →
      s.column.CopiedUpTo e s.column.etlArena.numOfRecords) : s.column.Spelled e := by
  unfold MasterColumn.Spelled elasticPartition
  simp only [hk.version]
  by_cases hr : (s.column.snapshotArena.updSinceLastSnapshot ||
      s.column.etlArena.updSinceLastSnapshot) = true
  · refine ⟨_, if_pos hr, ?_⟩
    rw [flatMap_singleton, records_zero]
    rfl
  have hc := hs (Bool.or_eq_false_iff.mp (Bool.eq_false_iff.mpr hr)).2
  have local_part := map_congr_left fun r hm => hc r (mem_range.mp hm)
  rw [if_neg hr]
  rcases Nat.eq_or_lt_of_le hk.copied_le with all | hg
  · refine ⟨_, if_pos all.symm, ?_⟩
    rw [flatMap_singleton, records_zero, local_part, all]
  · refine ⟨_, (if_neg (Nat.ne_of_gt hg)).trans (if_pos hg), ?_⟩
    have hw : List.range s.column.snapshotArena.numOfRecords =
      List.range s.column.etlArena.numOfRecords ++
        (List.range (s.column.snapshotArena.numOfRecords - s.column.etlArena.numOfRecords)).map
          (s.column.etlArena.numOfRecords + ·) := by
      rw [← range_add, Nat.add_sub_of_le hg.le]
    rw [flatMap_cons, flatMap_singleton, records_zero, local_part, hw, map_append, List.map_map]
    rfl

end EtlColumn

section

variable {extent : Extent} {actions : List EtlAction} {state : EtlColumn}
    (run : (etlColumn extent).Run (UpdatesSeen extent) actions state)

include run

theorem run_kept : state.Kept extent := by
  refine run.invariant (EtlColumn.Kept extent) (fun s hi => ?_) fun state ac a hk he hs ht => ?_
  · rw [hi]
    exact .start
  · obtain ⟨r, hd, hk⟩ := hk.step he hs
    obtain rfl := some.inj (hd.symm.trans ht)
    exact hk

theorem run_copied (hl : actions.getLast? = some .etl) : state.column.Copied extent := by
  cases run with
  | start hi => cases hl
  | step run he hs ht =>
    rw [List.getLast?_concat] at hl
    cases hl
    cases ht
    exact (run_kept run).copied hs

omit run

/-- **After each `ETL` the copy is the master**, and what is handed out then, or whenever there was
no update since the last snapshot, is the master of that snapshot, in every run in which each `ETL`
sees the updates. -/
theorem run_etl_copies (run : (etlColumn extent).Run (UpdatesSeen extent) actions state) :
    (actions.getLast? = some .etl → state.column.Copied extent) ∧
    (actions.getLast? = some .etl ∨ state.column.touched = false →
        state.column.Spelled extent) := by
  have hk := run_kept run
  refine ⟨run_copied run, fun hs => hk.spelled fun hc => ?_⟩
  rcases hs with hl | hu
  · exact fun r low => run_copied run hl r (low.trans_le hk.copied_le)
  · exact hk.quiet hc hu

/-- **The condition is exact.** -/
theorem etl_copies_iff (run : (etlColumn extent).Run (UpdatesSeen extent) actions state) :
    (state.column.etl extent).Copied extent ↔ UpdatesSeen extent state .etl := by
  have hk := run_kept run
  refine ⟨fun hc => ?_, hk.copied⟩
  by_cases hu : state.column.snapshotArena.updSinceLastSnapshot = true
  · exact .inl hu
  · refine .inr fun r low _ => ?_
    have hs := hc r (low.trans_le hk.copied_le)
    have hi : r < extent.capacity :=
      low.trans_le (hk.copied_le.trans (hk.snapped_le.trans hk.vid_le))
    rw [MasterColumn.etl_element _ hi, if_neg] at hs
    · exact hs
    · rintro (⟨hl, -⟩ | ⟨hse, -⟩)
      · omega
      · exact hu hse

end

/-! ### One record -/

instance (extent : Extent) (state : EtlColumn) (action : EtlAction) :
    Decidable ((etlColumn extent).Enabled state action) :=
  match action with
  | .insertElem _ => inferInstanceAs (Decidable (_ ∧ _))
  | .updateElem _ _ => inferInstanceAs (Decidable (_ ∧ _))
  | .snapshot => inferInstanceAs (Decidable True)
  | .etl => inferInstanceAs (Decidable True)

instance (extent : Extent) (state : EtlColumn) (action : EtlAction) :
    Decidable (UpdatesSeen extent state action) :=
  match action with
  | .insertElem _ => inferInstanceAs (Decidable True)
  | .updateElem _ _ => inferInstanceAs (Decidable (_ ≤ _))
  | .snapshot => inferInstanceAs (Decidable True)
  | .etl => inferInstanceAs (Decidable (_ ∨ _))

def demoExtent : Extent := ⟨8, 4, by decide⟩

def demoEtlUpdate : List EtlAction :=
  [.insertElem (some (Memory.wordBytes 1)), .snapshot, .etl,
    .updateElem 0 (some (Memory.wordBytes 2))]

theorem run_etl_copies_update : ∃ state,
    (etlColumn demoExtent).Run (UpdatesSeen demoExtent) (demoEtlUpdate ++ [.snapshot, .etl]) state ∧
    state.column.Copied demoExtent ∧ state.column.Spelled demoExtent := by
  have hr : ∃ state, (etlColumn demoExtent).Run (UpdatesSeen demoExtent)
      (demoEtlUpdate ++ [.snapshot, .etl]) state :=
    Machine.Run.exists_computed ⟨0, .fresh⟩ rfl (by decide +kernel)
  obtain ⟨state, run⟩ := hr
  obtain ⟨hc, hs⟩ := run_etl_copies run
  exact ⟨state, run, hc rfl, hs (.inl rfl)⟩

def EtlColumn.shown (state : EtlColumn) :
    Nat × List UInt8 × List UInt8 × Option (List (List UInt8)) :=
  (state.column.snapshotArena.numOfRecords, state.column.readonlyEtl.element 8 0,
    state.column.getElem demoExtent 0 0,
    state.column.elasticPartition.map (List.flatMap (MasterColumn.Segment.records demoExtent)))

/-- After a second snapshot the update is not copied, and the copy is handed out. -/
theorem second_snapshot_hides_update : ∃ state,
    (etlColumn demoExtent).Run (fun _ _ => True) (demoEtlUpdate ++ [.snapshot, .snapshot, .etl])
      state ∧
    state.shown = (1, Memory.wordBytes 1, Memory.wordBytes 2, some [Memory.wordBytes 1]) ∧
    ¬ state.column.Copied demoExtent ∧ ¬ state.column.Spelled demoExtent := by
  have hre : ∃ state,
      (etlColumn demoExtent).Run (fun _ _ => True) (demoEtlUpdate ++ [.snapshot, .snapshot, .etl])
        state ∧
        state.shown = (1, wordBytes 1, wordBytes 2, some [wordBytes 1]) :=
    Machine.Run.of_computed ⟨0, .fresh⟩ rfl (by decide +kernel)
  obtain ⟨state, run, hst⟩ := hre
  obtain ⟨hn, hr⟩ := Prod.mk.inj hst
  obtain ⟨hco, hr⟩ := Prod.mk.inj hr
  obtain ⟨hm, hh⟩ := Prod.mk.inj hr
  have hd : wordBytes 1 ≠ wordBytes 2 := by decide +kernel
  refine ⟨state, run, hst, fun hc => ?_, fun hsp => ?_⟩
  · have hs := hc 0 (by rw [hn]; exact Nat.one_pos)
    exact hd (hco.symm.trans (hs.trans hm))
  · obtain ⟨ss, out, hss⟩ := hsp
    rw [out, map_some, hss, hn] at hh
    have hf : [state.column.getElem demoExtent 0 0] = [wordBytes 1] := some.inj hh
    rw [hm] at hf
    exact hd (head_eq_of_cons_eq hf).symm

end Proteus.Oltp.Layout
