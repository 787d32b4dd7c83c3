/-
**Who may read what** (`transaction_manager.hpp`, `concurrency-control.hpp`, `mv-record-list.cpp`).

A transaction takes its start time from a counter, and its id is that time shifted by 27 bits. A
version is readable if its stamp is not above the reader's start time, or if it is the reader's id:
with this the stamps, which are start times, and the ids are numbers of one kind. The stamp has 63
bits.

* `visible_by_start_iff` — whether a version is readable is a matter of the start times, except
  where the writer started later and at the number that is the reader's id, or where the stamp has
  lost its highest bit.
* `refused_iff` — a record that has not been deleted is refused to no reader, so that one who is
  older than the record ends in a failed check: of the tag if there is no version yet, else of the
  version that was not found.
-/

import Proteus.Oltp.Storage.Reads

namespace Proteus.Oltp.Storage

open Library List Option Function Numerals

/-! ### Time stamps -/

/-- `txnPairGen` -/
structure TxnPairGen where
  gen : Nat

namespace TxnPairGen

/-- `get_txnID_startTime_Pair` -/
def getTxnIDStartTimePair (generator : TxnPairGen) : TxnTs × TxnPairGen :=
  (TxnTs.ofTicket generator.gen, ⟨(generator.gen + 1) % 2 ^ 64⟩)

/-- `get_commit_ts`, which `get_next_xid` is as well. -/
def getCommitTs (generator : TxnPairGen) : Nat × TxnPairGen :=
  (generator.gen, ⟨(generator.gen + 1) % 2 ^ 64⟩)

end TxnPairGen

/-- The generator, and the transactions it has created. -/
structure Timeline where
  generator : TxnPairGen
  created : List TxnTs

inductive Ticket
  | txn
  | commitTs

/-- The counter is exhausted when it is back at zero. -/
def timeline : Machine Timeline Ticket where
  Start line := line = ⟨⟨1⟩, []⟩
  Enabled line _ := line.generator.gen ≠ 0
  next line
    | .txn => some ⟨line.generator.getTxnIDStartTimePair.2,
        line.created ++ [line.generator.getTxnIDStartTimePair.1]⟩
    | .commitTs => some ⟨line.generator.getCommitTs.2, line.created⟩

theorem created_ofTicket {tis : List Ticket} {l : Timeline}
    (run : timeline.Run (fun _ _ => True) tis l) :
    ∀ ts ∈ l.created, ts = TxnTs.ofTicket ts.startTime := by
  refine run.invariant (fun l => ∀ ts ∈ l.created, ts = TxnTs.ofTicket ts.startTime) ?_ ?_
  · rintro l rfl ts hi
    cases hi
  · intro l t a hb _ _ ht
    cases t with
    | txn =>
      cases ht
      intro ts hi
      rcases mem_append.mp hi with old | new
      · exact hb ts old
      · rw [mem_singleton.mp new]
        rfl
    | commitTs =>
      cases ht
      exact hb

theorem exists_timeline (c : Nat) (hr : c < 2 ^ 64) :
    ∃ l, timeline.Run (fun _ _ => True) (List.replicate c .txn) l ∧
      l.generator.gen = (c + 1) % 2 ^ 64 ∧
      ∀ t, 0 < t → t ≤ c → TxnTs.ofTicket t ∈ l.created := by
  induction c with
  | zero => exact ⟨_, .start rfl, rfl, fun t hp hs => by omega⟩
  | succ c ih =>
    obtain ⟨l, run, hn, hc⟩ := ih (by omega)
    rw [Nat.mod_eq_of_lt hr] at hn
    rw [replicate_succ']
    refine ⟨_, .step run (by show l.generator.gen ≠ 0; omega) trivial rfl, ?_, fun t hp hs => ?_⟩
    · show (l.generator.gen + 1) % 2 ^ 64 = _
      rw [hn]
    · rcases Nat.lt_or_ge c t with hl | he
      · obtain rfl : t = c + 1 := by omega
        refine mem_append_right _ (mem_singleton.mpr ?_)
        show _ = TxnTs.ofTicket l.generator.gen
        rw [hn]
      · exact mem_append_left _ (hc t hp he)

section

variable {config : Config} {store after : Store} {txn : Txn} {record : RecordId} {index : IndexVal}

theorem updateRecord_tMin {cs : List Nat} {d : List UInt8}
    (hd : updateRecord config txn record cs d store = some after) :
    ∃ index, after.index record = some index ∧ index.tMin = txn.startTime % 2 ^ 63 := by
  unfold updateRecord at hd
  obtain ⟨o, _, hd⟩ := bind_eq_some_iff.mp hd
  obtain ⟨⟨v, l, c⟩, _, hd⟩ := bind_eq_some_iff.mp hd
  cases hd
  exact ⟨_, update_self .., rfl⟩

/-- **Visibility by start times**: what an update leaves is readable as the start times say, exactly
if a writer that started later has a stamp above the reader's start time that is not the reader's
id. -/
theorem visible_by_start_iff {tickets : List Ticket} {line : Timeline} {reader : TxnTs}
    (run : timeline.Run (fun _ _ => True) tickets line) (created : reader ∈ line.created)
    {columns : List Nat} {data : List UInt8}
    (done : updateRecord config txn record columns data store = some after)
    (indexed : after.index record = some index) :
    (reader.isReadable index.tMin ↔ txn.startTime ≤ reader.startTime) ↔
      (reader.startTime < txn.startTime → reader.startTime < txn.startTime % 2 ^ 63 ∧
        txn.startTime % 2 ^ 63 ≠ reader.startTime * 2 ^ 27 % 2 ^ 64) := by
  have id : reader.txnId = reader.startTime * 2 ^ 27 % 2 ^ 64 :=
    congrArg TxnTs.txnId (created_ofTicket run reader created)
  have low : txn.startTime % 2 ^ 63 ≤ txn.startTime := Nat.mod_le _ _
  obtain ⟨s, hf, tMin⟩ := updateRecord_tMin done
  obtain rfl : index = s := some.inj (indexed.symm.trans hf)
  unfold TxnTs.isReadable
  rw [tMin, id]
  generalize txn.startTime % 2 ^ 63 = st at low ⊢
  generalize reader.startTime * 2 ^ 27 % 2 ^ 64 = ti
  omega

/-- The writer with start time 2 and the reader with start time 1. -/
theorem visible_by_start_two : ∃ after index,
    updateRecord demo ⟨2, 0, 0⟩ 0 [] (List.replicate 8 9) demoInserted = some after ∧
      after.index 0 = some index ∧ ((TxnTs.ofTicket 1).isReadable index.tMin ↔ 2 ≤ 1) := by
  obtain ⟨l, run, _, hc⟩ := exists_timeline 2 (by decide)
  obtain ⟨after, hd⟩ := isSome_iff_exists.mp
    (rfl : (updateRecord demo ⟨2, 0, 0⟩ 0 [] (List.replicate 8 9) demoInserted).isSome = true)
  obtain ⟨index, hi, _⟩ := updateRecord_tMin hd
  exact ⟨after, index, hd, hi,
    (visible_by_start_iff run (hc 1 (by decide) (by decide)) hd hi).mpr (by decide)⟩

/-- The first transaction has the id `2 ^ 27`, and sees what the transaction with that start time
writes. -/
theorem later_writer_readable : ∃ tickets line after index,
    timeline.Run (fun _ _ => True) tickets line ∧ TxnTs.ofTicket 1 ∈ line.created ∧
      TxnTs.ofTicket (2 ^ 27) ∈ line.created ∧
      updateRecord demo ⟨2 ^ 27, 0, 0⟩ 0 [] (List.replicate 8 9) demoInserted = some after ∧
      after.index 0 = some index ∧ (TxnTs.ofTicket 1).isReadable index.tMin ∧ ¬ 2 ^ 27 ≤ 1 := by
  obtain ⟨line, run, _, created⟩ := exists_timeline (2 ^ 27) (by decide)
  obtain ⟨after, hd⟩ := isSome_iff_exists.mp
    (rfl : (updateRecord demo ⟨2 ^ 27, 0, 0⟩ 0 [] (List.replicate 8 9) demoInserted).isSome = true)
  obtain ⟨index, hi, tMin⟩ := updateRecord_tMin hd
  refine ⟨_, line, after, index, run, created 1 (by decide) (by decide),
    created (2 ^ 27) (by decide) le_rfl, hd, hi, .inr ?_, by decide⟩
  rw [tMin]
  rfl

end

/-! ### Records that did not exist yet -/

section

variable {config cf : Config} {store s af : Store} {txn : Txn} {actions : List Action}
    {record r : RecordId}
  {history : History} {reader re : TxnTs} {columns : Option (List Nat)} {fuel fu : Nat}

def Flagged (store : Store) (histories : RecordId → Option History) : Prop :=
  ∀ record history, histories record = some history → history.entries ≠ [] ∧
    ∃ index, store.index record = some index ∧ index.deleted = history.deleted

variable {index i : IndexVal}

theorem Flagged.update {his : RecordId → Option History} (hfd : Flagged s his)
    {c : Option History} (ho : ∀ o ≠ r, af.index o = s.index o)
    (hi : af.index r = some i)
    (own : ∀ history ∈ c, history.entries ≠ [] ∧ i.deleted = history.deleted) :
    Flagged af (Function.update his r c) := by
  intro o history hf
  by_cases hs : o = r
  · subst hs
    rw [update_self] at hf
    obtain ⟨hn, hfl⟩ := own history hf
    exact ⟨hn, i, hi, hfl⟩
  · rw [update_of_ne hs] at hf
    rw [ho o hs]
    exact hfd o history hf

theorem createVersions_index {l : IndexVal} {v : Nat} {c : Store}
    (hd : createVersions cf txn r i s = some (v, l, c)) :
    c.index = s.index ∧ l.deleted = i.deleted := by
  unfold createVersions at hd
  split at hd
  · cases hd
  · simp only [Option.some.injEq, Prod.mk.injEq] at hd
    obtain ⟨_, rfl, rfl⟩ := hd
    exact ⟨rfl, rfl⟩

theorem run_flagged (run : (columnStore cf).Run (fun _ _ => True) actions s) :
    Flagged s (historiesOf cf actions) := by
  induction run with
  | start hin =>
    intro record history hf
    cases hf
  | @step actions s af a _ _ _ ht ih =>
    rw [historiesOf, foldl_append]
    show Flagged af (applyAction cf (historiesOf cf actions) a)
    cases a with
    | insert txn record r =>
      cases ht
      refine ih.update (fun o ha => update_of_ne ha ..) (update_self ..) ?_
      intro history hf
      cases hf
      exact ⟨cons_ne_nil _ _, rfl⟩
    | update txn record columns d =>
      obtain ⟨index, hp, ht⟩ := bind_eq_some_iff.mp ht
      obtain ⟨⟨v, l, c⟩, hm, ht⟩ := bind_eq_some_iff.mp ht
      cases ht
      obtain ⟨hk, hfl⟩ := createVersions_index hm
      refine ih.update (fun o ha => ?_) (update_self ..) ?_
      · exact (update_of_ne ha ..).trans (congrFun hk o)
      · intro history hf
        obtain ⟨ol, hb, rfl⟩ := map_eq_some_iff.mp hf
        obtain ⟨hn, hf, hi, hs⟩ := ih record ol hb
        obtain rfl : index = hf := some.inj (hp.symm.trans hi)
        obtain ⟨e, es, hsp⟩ := exists_cons_of_ne_nil hn
        unfold History.update
        rw [hsp]
        exact ⟨cons_ne_nil _ _, hfl.trans hs⟩
    | delete txn record =>
      obtain ⟨index, hp, ht⟩ := bind_eq_some_iff.mp ht
      obtain ⟨⟨v, l, c⟩, hm, ht⟩ := bind_eq_some_iff.mp ht
      cases ht
      obtain ⟨hk, hfl⟩ := createVersions_index hm
      refine ih.update (fun o ha => ?_) (update_self ..) ?_
      · exact (update_of_ne ha ..).trans (congrFun hk o)
      · intro history hf
        obtain ⟨ol, hb, rfl⟩ := map_eq_some_iff.mp hf
        obtain ⟨hn, _⟩ := ih record ol hb
        obtain ⟨e, es, hsp⟩ := exists_cons_of_ne_nil hn
        unfold History.delete
        rw [hsp]
        exact ⟨cons_ne_nil _ _, rfl⟩

theorem getReadableVer_ne_refused {m : Memory} {ptr : Nat} :
    getReadableVer cf m re fu ptr ≠ .error recordDoesNotExist := by
  induction fu generalizing ptr with
  | zero => simp [getReadableVer, recordDoesNotExist]
  | succ fu ih =>
    unfold getReadableVer
    by_cases hv : isValid cf ptr
    · rw [if_pos hv]
      dsimp only
      split_ifs
      · simp
      · exact ih
    · rw [if_neg hv]
      simp [recordDoesNotExist]

theorem getIndexedRecord_refused (hi : s.index r = some i)
    (hre : getIndexedRecord cf s r re columns fu = .error recordDoesNotExist) :
    i.deleted = true ∧ (re.isReadable i.tMin ∨
      ∃ v, getReadableVer cf s.memory re fu i.deltaList = .ok v) := by
  unfold getIndexedRecord at hre
  rw [hi] at hre
  dsimp only at hre
  by_cases hr : re.isReadable i.tMin
  · rw [if_pos hr] at hre
    split_ifs at hre with hg
    exact ⟨hg, .inl hr⟩
  rw [if_neg hr] at hre
  unfold getReadableVersion at hre
  by_cases hv : isValid cf i.deltaList
  · rw [if_pos hv] at hre
    cases hw : getReadableVer cf s.memory re fu i.deltaList with
    | error f =>
      rw [hw] at hre
      rw [Except.error.inj hre] at hw
      exact absurd hw getReadableVer_ne_refused
    | ok v =>
      rw [hw] at hre
      dsimp only at hre
      by_cases hn : versionData s.memory v = 0
      · rw [if_pos hn] at hre
        simp [recordDoesNotExist] at hre
      · rw [if_neg hn] at hre
        split_ifs at hre with hg
        exact ⟨hg, .inr ⟨v, rfl⟩⟩
  · rw [if_neg hv] at hre
    simp [recordDoesNotExist] at hre

/-- **Who is refused a record.** Of a record that was not deleted nobody is; of a deleted one,
whoever may see one of its stamps. -/
theorem refused_iff (run : (columnStore config).Run (fun _ _ => True) actions store)
    (inserted : historiesOf config actions record = some history)
    (enough : history.entries.length ≤ fuel) :
    (history.deleted = false → getIndexedRecord config store record reader columns fuel ≠
      .error recordDoesNotExist) ∧
    ((∀ action ∈ actions, Fits config action) →
      (getIndexedRecord config store record reader columns fuel = .error recordDoesNotExist ↔
        history.deleted = true ∧ ∃ entry ∈ history.entries, reader.isReadable entry.start)) := by
  constructor
  · intro ha hrf
    obtain ⟨_, index, hi, hfl⟩ := run_flagged run record history inserted
    obtain ⟨hg, _⟩ := getIndexedRecord_refused hi hrf
    exact nomatch ha.symm.trans (hfl.symm.trans hg)
  intro hf
  obtain ⟨cs, hr⟩ : ∃ cs, Represents config False store (historiesOf config actions) cs :=
    run_represents (fun _ _ hf => hf) False.elim (run.of_forall hf)
  constructor
  · intro hrf
    obtain ⟨index, vs, hh⟩ := hr.held record history inserted
    obtain ⟨hg, hs⟩ := getIndexedRecord_refused hh.indexed hrf
    refine ⟨hh.deleted ▸ hg, ?_⟩
    rw [hh.entries]
    rcases hs with hre | ⟨v, hw⟩
    · exact ⟨_, mem_cons_self, hre⟩
    · have length := congrArg List.length hh.entries
      simp only [length_cons, length_map] at length
      rw [getReadableVer_linked hh.linked (hr.offset_lt hh) reader (by omega)] at hw
      split at hw
      · next f hfi =>
        refine ⟨f.entry, mem_cons_of_mem _ (mem_map_of_mem (mem_of_find?_eq_some hfi)), ?_⟩
        simpa using List.find?_some hfi
      · cases hw
  · intro hb
    obtain ⟨hg, entry, hm, hre⟩ := hb
    have hrd := getIndexedRecord_represents hr inserted reader columns enough
    unfold History.Reads at hrd
    cases f : history.visible reader with
    | none => exact absurd hre (History.visible_eq_none_iff.mp f entry hm)
    | some hfi => simpa only [f, hg, if_true] using hrd

/-- Transaction 2 inserts a record. -/
def lateInsert : Action := .insert ⟨2, 0, 0⟩ 0 [[1, 2, 3, 4, 5, 6, 7, 8]]

def lateInserted : Store := (perform demo demoStore lateInsert).get rfl

theorem lateInserted_run : (columnStore demo).Run (fun _ _ => True) [lateInsert] lateInserted :=
  .step (.start demoStore_initial) ⟨rfl, rfl⟩ trivial (eq_some_of_isSome rfl)

/-- It is deleted at the time that is the id of a reader older than the record. -/
def lateDeleted : Store := (perform demo lateInserted (.delete ⟨2 ^ 27, 0, 0⟩ 0)).get rfl

theorem refused_by_id : (columnStore demo).Run (fun _ _ => True)
    [lateInsert, .delete ⟨2 ^ 27, 0, 0⟩ 0] lateDeleted ∧
      getIndexedRecord demo lateDeleted 0 (TxnTs.ofTicket 1) none 2 =
          .error recordDoesNotExist := by
  have run : (columnStore demo).Run (fun _ _ => True) [lateInsert, .delete ⟨2 ^ 27, 0, 0⟩ 0]
      lateDeleted :=
    .step lateInserted_run (fun ha => nomatch ha) trivial (eq_some_of_isSome rfl)
  have hf : ∀ a ∈ [lateInsert, .delete ⟨2 ^ 27, 0, 0⟩ 0], Fits demo a := by
    rintro a (_ | ⟨_, _ | ⟨_, none⟩⟩)
    · exact (by decide : 2 < 2 ^ 63)
    · exact ⟨(by decide : 2 ^ 27 < 2 ^ 63), by decide⟩
    · cases none
  exact ⟨run, ((refused_iff run rfl (by decide)).2 hf).mpr ⟨rfl, _, mem_cons_self, .inr rfl⟩⟩

def lateUpdated : Store := (perform demo lateInserted (demoUpdate 3)).get rfl

/-- A reader who is older than a record, before its first update and after. -/
theorem early_reader_not_refused : (columnStore demo).Run (fun _ _ => True)
    [lateInsert] lateInserted ∧ getIndexedRecord demo lateInserted 0 (TxnTs.ofTicket 1) none 1 =
        .error .tagVerificationFailed ∧
    (columnStore demo).Run (fun _ _ => True) [lateInsert, demoUpdate 3] lateUpdated ∧
      getIndexedRecord demo lateUpdated 0 (TxnTs.ofTicket 1) none 2 = .error .nullVersion :=
  ⟨lateInserted_run, rfl, .step lateInserted_run (demoUpdate_wellFormed 3 rfl) trivial
    (eq_some_of_isSome rfl), rfl⟩

end

end Proteus.Oltp.Storage
