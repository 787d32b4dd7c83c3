/-
**Consolidation of version lists under Steam** (`multi-version/mv-record-list.cpp`,
`transaction_manager.hpp`, `txn-table.cpp`).

When an update puts a new version in front of a record's list, `steamConsolidation` walks the list
from its former head along a list of timestamps, and for each of them cuts out what lies between the
place it has reached and the version that a transaction of this timestamp would read.

The timestamps are meant to be those of the active transactions. They are the start times of the
transactions that each worker ended last, and they come in ascending order, so that all but the
first find themselves where they would go. What is cut out is what lies between the former head and
the version that the least timestamp sees, and every active transaction is younger than its worker's
entry.

* `steamConsolidation_eq` — what is left of a list.
* `update_keeps_iff` — in every reachable state, an update keeps the versions that active
  transactions see exactly if none of them is in this gap.
-/

import Proteus.Library.Machine
import Proteus.Oltp.Storage.ColumnStore

namespace Proteus.Oltp.Gc

open Library List Option Function Storage.Numerals
open Storage (RecordId TxnTs)

/-- A version of a record: where it is, and its `t_min`. -/
structure SteamVersion where
  place : Nat
  tMin : Nat
deriving DecidableEq, Repr

/-- An index entry with its versions, newest first. -/
structure SteamRecord where
  tMin : Nat
  deltaList : List SteamVersion

def getReadableVer (reader : TxnTs) : List SteamVersion → List SteamVersion
  | [] => []
  | version :: older =>
    if reader.isReadable version.tMin then version :: older else getReadableVer reader older

def steamConsolidation (recordTMin : Nat) : List Nat → List SteamVersion → List SteamVersion
  | [], curr => curr
  | _, [] => []
  | activeTxn :: rest, curr :: older =>
    if recordTMin ≤ activeTxn then curr :: older
    else if (TxnTs.ofTicket activeTxn).isReadable recordTMin then curr :: older
    -- `curr == visible`
    else if (TxnTs.ofTicket activeTxn).isReadable curr.tMin then curr :: older
    else
      match getReadableVer (TxnTs.ofTicket activeTxn) older with
      | [] => curr :: older
      | visible :: oldest => curr :: steamConsolidation recordTMin rest (visible :: oldest)

structure Steam (n : Nat) where
  gen : Nat
  active : Fin n → Option Nat
  maxLastAlive : Fin n → Nat
  activeTxnList : Fin n → Option (List Nat)
  records : RecordId → Option SteamRecord
  nextPlace : Nat

/-- `refetch`: whether the copy of the list has become too old. -/
inductive SteamAction (n : Nat)
  | begin (worker : Fin n)
  | insert (worker : Fin n) (record : RecordId)
  | update (worker : Fin n) (record : RecordId) (refetch : Bool)
  | endTxn (worker : Fin n)

namespace Steam

variable {n : Nat} (state : Steam n)

/-- `get_all_activeTxn` -/
def getAllActiveTxn : List Nat :=
  ((List.ofFn state.maxLastAlive).filter fun last => last ≠ 2 ^ 64 - 1).insertionSort (· ≤ ·)

/-- The list that a worker goes by. -/
def fetched (worker : Fin n) (refetch : Bool) : List Nat :=
  match state.activeTxnList worker with
  | some list => if refetch then state.getAllActiveTxn else list
  | none => state.getAllActiveTxn

/-- The new version of `create_versions`. -/
def newVersion (record : SteamRecord) : SteamVersion := ⟨state.nextPlace, record.tMin⟩

/-- The list of versions after `create_versions`. -/
def versions (worker : Fin n) (refetch : Bool) (record : SteamRecord) : List SteamVersion :=
  state.newVersion record :: steamConsolidation record.tMin (state.fetched worker refetch)
    record.deltaList

/-- `create_versions`, and the stamp of the writer. -/
def update (worker : Fin n) (refetch : Bool) (id : RecordId) (record : SteamRecord) (start : Nat) :
    Steam n :=
  { state with
    records :=
      Function.update state.records id (some ⟨start % 2 ^ 63, state.versions worker refetch record⟩)
    activeTxnList := if record.deltaList = [] then state.activeTxnList
      else Function.update state.activeTxnList worker (some (state.fetched worker refetch))
    nextPlace := state.nextPlace + 1 }

def next : SteamAction n → Option (Steam n)
  | .begin worker =>
    match state.active worker with
    | none => some { state with
        gen := state.gen + 1, active := Function.update state.active worker (some state.gen) }
    | some _ => none
  | .insert worker id =>
    match state.active worker, state.records id with
    | some start, none => some { state with
        records := Function.update state.records id (some ⟨start % 2 ^ 63, []⟩) }
    | _, _ => none
  | .update worker id refetch =>
    match state.active worker, state.records id with
    | some start, some record => some (state.update worker refetch id record start)
    | _, _ => none
  | .endTxn worker =>
    match state.active worker with
    | some start => some { state with
        active := Function.update state.active worker none
        maxLastAlive := Function.update state.maxLastAlive worker
          (max (state.maxLastAlive worker) start) }
    | none => none

end Steam

def Steam.initial (n : Nat) : Steam n :=
    ⟨1, fun _ => none, fun _ => 0, fun _ => none, fun _ => none, 0⟩

/-- Workers that begin and end transactions, insert and update. -/
def steam (n : Nat) : Machine (Steam n) (SteamAction n) where
  Start state := state = .initial n
  Enabled _ _ := True
  next := Steam.next

/-! ### What is left of a list -/

variable {ticket t : Nat} {older : List SteamVersion}

open Nat

section

theorem isReadable_iff {tm : Nat} (ticket_lt : t < 2 ^ 27) (tMin_lt : tm < 2 ^ 27) :
    (TxnTs.ofTicket t).isReadable tm ↔ tm ≤ t := by
  have id : t * 2 ^ 27 % 2 ^ 64 = t * 2 ^ 27 := mod_eq_of_lt (by omega)
  show tm ≤ t ∨ tm = t * 2 ^ 27 % 2 ^ 64 ↔ tm ≤ t
  rw [id]
  omega

theorem getReadableVer_eq (ticket_lt : t < 2 ^ 27) {c : List SteamVersion}
    (hs : ∀ v ∈ c, v.tMin < 2 ^ 27) :
    getReadableVer (TxnTs.ofTicket t) c = c.dropWhile fun v => t < v.tMin := by
  induction c with
  | nil => rfl
  | cons v older ih =>
    rw [forall_mem_cons] at hs
    rw [getReadableVer, dropWhile_cons]
    by_cases hse : v.tMin ≤ t
    · rw [if_pos ((isReadable_iff ticket_lt hs.1).mpr hse), if_neg (by simpa using hse)]
    · rw [if_neg (fun hr => hse ((isReadable_iff ticket_lt hs.1).mp hr)), ih hs.2,
        if_pos (by simpa using hse)]

theorem steamConsolidation_seen {rtm : Nat} {l : List Nat} {c : SteamVersion}
    (hs : ∀ ticket ∈ l, c.tMin ≤ ticket) :
    steamConsolidation rtm l (c :: older) = c :: older := by
  cases l with
  | nil => rfl
  | cons ticket tl =>
    have hr : (TxnTs.ofTicket ticket).isReadable c.tMin := .inl (hs ticket mem_cons_self)
    rw [steamConsolidation, if_pos hr]
    split_ifs <;> rfl

/-- What the least timestamp does to a list. -/
def Cuts (recordTMin oldest : Nat) (start : SteamVersion) (older : List SteamVersion) : Prop :=
  oldest < recordTMin ∧ oldest < start.tMin ∧ ∃ version ∈ older, version.tMin ≤ oldest

/-- **What is left**: the former head, and what the least timestamp sees. -/
theorem steamConsolidation_eq {rtm o : Nat} {tl : List Nat} {s : SteamVersion}
    (hso : (o :: tl).Pairwise (· ≤ ·)) (ticket_lt : o < 2 ^ 27)
    (record_lt : rtm < 2 ^ 27) (hs : ∀ v ∈ s :: older, v.tMin < 2 ^ 27) :
    (Cuts rtm o s older → steamConsolidation rtm (o :: tl) (s :: older) =
      s :: older.dropWhile fun v => o < v.tMin) ∧
    (¬ Cuts rtm o s older → steamConsolidation rtm (o :: tl) (s :: older) = s :: older) := by
  rw [forall_mem_cons] at hs
  have hr := isReadable_iff ticket_lt record_lt
  have hh := isReadable_iff ticket_lt hs.1
  have hw := getReadableVer_eq ticket_lt hs.2
  refine ⟨fun hc => ?_, fun hsp => ?_⟩
  · obtain ⟨hb, hu, v, hm, hse⟩ := hc
    rw [steamConsolidation, if_neg (by omega), if_neg (hr.not.mpr (by omega)),
      if_neg (hh.not.mpr (by omega)), hw]
    cases hl : older.dropWhile fun v => decide (o < v.tMin) with
    | nil =>
      have all := dropWhile_eq_nil_iff.mp hl v hm
      exact absurd (of_decide_eq_true all) (by omega)
    | cons vi d =>
      have hfi : vi.tMin ≤ o := by
        have hf := List.head?_dropWhile_not (fun v => decide (o < v.tMin)) older
        rw [hl] at hf
        simpa using hf
      show s :: _ = _
      rw [steamConsolidation_seen fun ticket hi => hfi.trans ((pairwise_cons.mp hso).1 ticket hi)]
  · rw [steamConsolidation]
    by_cases hb : rtm ≤ o
    · rw [if_pos hb]
    rw [if_neg hb, if_neg (hr.not.mpr hb)]
    by_cases hse : s.tMin ≤ o
    · rw [if_pos (hh.mpr hse)]
    rw [if_neg (hh.not.mpr hse), hw]
    have hn : older.dropWhile (fun v => decide (o < v.tMin)) = [] := by
      rw [dropWhile_eq_nil_iff]
      intro v hm
      by_contra hre
      exact hsp ⟨by omega, by omega, v, hm, by simpa using hre⟩
    rw [hn]

open List.Sublist

theorem getReadableVer_sublist (r : TxnTs) (c : List SteamVersion) :
    (getReadableVer r c).Sublist c := by
  induction c with
  | nil => exact refl _
  | cons v older ih =>
    rw [getReadableVer]
    split_ifs
    · exact refl _
    · exact ih.cons _

theorem steamConsolidation_sublist (rtm : Nat) (l : List Nat) (c : List SteamVersion) :
    (steamConsolidation rtm l c).Sublist c := by
  induction l generalizing c with
  | nil => rw [steamConsolidation]
  | cons ticket tl ih =>
    cases c with
    | nil => rw [steamConsolidation]; exact fun hn => nomatch hn
    | cons cu older =>
      rw [steamConsolidation]
      split_ifs
      · exact refl _
      · exact refl _
      · exact refl _
      · split
        · exact refl _
        · next v o hf =>
          refine cons_cons _ ((ih _).trans ?_)
          rw [← hf]
          exact getReadableVer_sublist _ _

end

/-! ### Reachable states -/

structure Steam.Regular {n : Nat} (state : Steam n) : Prop where
  active_lt : ∀ worker start, state.active worker = some start → start < state.gen
  last_lt : ∀ worker, state.maxLastAlive worker < state.gen
  list_sorted : ∀ worker list, state.activeTxnList worker = some list → list.Pairwise (· ≤ ·)
  list_lt : ∀ worker list, state.activeTxnList worker = some list → ∀ ticket ∈ list,
    ticket < state.gen
  record_lt : ∀ id record, state.records id = some record → record.tMin < state.gen
  version_lt : ∀ id record, state.records id = some record → ∀ version ∈ record.deltaList,
    version.tMin < state.gen ∧ version.place < state.nextPlace
  places : ∀ id record, state.records id = some record → record.deltaList.Nodup

section

variable {n : Nat} {st af : Steam n}

theorem getAllActiveTxn_sorted (st : Steam n) : st.getAllActiveTxn.Pairwise (· ≤ ·) :=
  pairwise_insertionSort _ _

theorem mem_getAllActiveTxn (hm : t ∈ st.getAllActiveTxn) : ∃ w, t = st.maxLastAlive w := by
  have hi := (mem_filter.mp ((mem_insertionSort _).mp hm)).1
  obtain ⟨w, hs⟩ := (mem_ofFn ..).mp hi
  exact ⟨w, hs.symm⟩

variable (regular : st.Regular)

include regular

theorem Steam.Regular.fetched_sorted (w : Fin n) (r : Bool) :
    (st.fetched w r).Pairwise (· ≤ ·) := by
  unfold Steam.fetched
  split
  · next l ht =>
    split_ifs
    · exact getAllActiveTxn_sorted st
    · exact regular.list_sorted w l ht
  · exact getAllActiveTxn_sorted st

theorem Steam.Regular.fetched_lt (w : Fin n) (r : Bool) : ∀ t ∈ st.fetched w r, t < st.gen := by
  have hf : ∀ t ∈ st.getAllActiveTxn, t < st.gen := by
    intro t hm
    obtain ⟨o, rfl⟩ := mem_getAllActiveTxn hm
    exact regular.last_lt o
  unfold Steam.fetched
  split
  · next l ht =>
    split_ifs
    · exact hf
    · exact regular.list_lt w l ht
  · exact hf

theorem Steam.Regular.update {w : Fin n} {re : Bool} {id : RecordId}
    {r : SteamRecord} {s : Nat} (hr : st.active w = some s)
    (ht : st.records id = some r) : (st.update w re id r s).Regular := by
  have hs := regular.active_lt w s hr
  have hk := steamConsolidation_sublist r.tMin (st.fetched w re) r.deltaList
  have hl : ∀ o l, (st.update w re id r s).activeTxnList o = some l →
      st.activeTxnList o = some l ∨ l = st.fetched w re := by
    intro o l has
    change (ite _ _ _ : Fin n → Option (List Nat)) o = some l at has
    split_ifs at has
    · exact .inl has
    · rw [update_apply] at has
      split_ifs at has
      · exact .inr (some.inj has).symm
      · exact .inl has
  have he : ∀ o e, (st.update w re id r s).records o = some e →
      st.records o = some e ∨ e = ⟨s % 2 ^ 63, st.versions w re r⟩ := by
    intro o e has
    change Function.update st.records id _ o = some e at has
    rw [update_apply] at has
    split_ifs at has
    · exact .inr (some.inj has).symm
    · exact .inl has
  refine ⟨regular.active_lt, regular.last_lt, fun o l has => ?_, fun o l has => ?_,
    fun o e has => ?_, fun o e has v hm => ?_, fun o e has => ?_⟩
  · rcases hl o l has with old | rfl
    · exact regular.list_sorted o l old
    · exact regular.fetched_sorted w re
  · rcases hl o l has with old | rfl
    · exact regular.list_lt o l old
    · exact regular.fetched_lt w re
  · rcases he o e has with old | rfl
    · exact regular.record_lt o e old
    · exact (mod_le _ _).trans_lt hs
  · show v.tMin < st.gen ∧ v.place < st.nextPlace + 1
    rcases he o e has with old | rfl
    · obtain ⟨hti, hp⟩ := regular.version_lt o e old v hm
      exact ⟨hti, lt_succ_of_lt hp⟩
    · rcases mem_cons.mp hm with rfl | hi
      · exact ⟨regular.record_lt id r ht, lt_succ_self _⟩
      · obtain ⟨hti, hp⟩ := regular.version_lt id r ht v (hk.subset hi)
        exact ⟨hti, lt_succ_of_lt hp⟩
  · rcases he o e has with old | rfl
    · exact regular.places o e old
    · refine nodup_cons.mpr ⟨fun hi => ?_, hk.nodup (regular.places id r ht)⟩
      exact absurd (regular.version_lt id r ht _ (hk.subset hi)).2 (lt_irrefl _)

theorem step_regular {a : SteamAction n} (ht : st.next a = some af) : af.Regular := by
  unfold Steam.next at ht
  split at ht
  · next w =>
    split at ht
    · cases ht
      have hl {t : Nat} (hea : t < st.gen) : t < st.gen + 1 := lt_succ_of_lt hea
      refine ⟨fun o s has => ?_, fun o => hl (regular.last_lt o), regular.list_sorted,
        fun o l has ticket hm => hl (regular.list_lt o l has ticket hm),
        fun id r has => hl (regular.record_lt id r has), fun id r has v hm => ?_,
        regular.places⟩
      · change Function.update st.active w (some st.gen) o = some s at has
        rw [update_apply] at has
        split_ifs at has
        · cases has
          exact lt_succ_self _
        · exact hl (regular.active_lt o s has)
      · obtain ⟨t, hp⟩ := regular.version_lt id r has v hm
        exact ⟨hl t, hp⟩
    · cases ht
  · next w id =>
    split at ht
    · next s hr ha =>
      cases ht
      have he : ∀ o e, Function.update st.records id (some ⟨s % 2 ^ 63, []⟩) o =
          some e → st.records o = some e ∨ e = ⟨s % 2 ^ 63, []⟩ := by
        intro o e has
        rw [update_apply] at has
        split_ifs at has
        · exact .inr (some.inj has).symm
        · exact .inl has
      refine { regular with record_lt := fun o e has => ?_, version_lt := fun o e has => ?_
                            places := fun o e has => ?_ }
      · rcases he o e has with old | rfl
        · exact regular.record_lt o e old
        · exact (mod_le _ _).trans_lt (regular.active_lt w s hr)
      · rcases he o e has with old | rfl
        · exact regular.version_lt o e old
        · exact fun _ none => absurd none not_mem_nil
      · rcases he o e has with old | rfl
        · exact regular.places o e old
        · exact nodup_nil
    · cases ht
  · next w id re =>
    split at ht
    · next s r hr hth =>
      cases ht
      exact regular.update hr hth
    · cases ht
  · next w =>
    split at ht
    · next s hr =>
      cases ht
      refine { regular with active_lt := fun o t has => ?_, last_lt := fun o => ?_ }
      · change Function.update st.active w none o = some t at has
        rw [update_apply] at has
        split_ifs at has
        exact regular.active_lt o t has
      · show Function.update st.maxLastAlive w _ o < st.gen
        rw [update_apply]
        split_ifs
        · exact max_lt (regular.last_lt w) (regular.active_lt w s hr)
        · exact regular.last_lt o
    · cases ht

omit regular

theorem run_regular {Allowed : Steam n → SteamAction n → Prop} {acs : List (SteamAction n)}
    (run : (steam n).Run Allowed acs st) : st.Regular := by
  refine run.invariant Steam.Regular (fun s hi => ?_) fun _ _ _ regular _ _ ht =>
    step_regular regular ht
  obtain rfl : s = .initial n := hi
  exact ⟨fun _ _ has => (nomatch has), fun _ => zero_lt_one, fun _ _ has => (nomatch has),
    fun _ _ has => (nomatch has), fun _ _ has => (nomatch has), fun _ _ has => (nomatch has),
    fun _ _ has => (nomatch has)⟩

end

/-! ### What active transactions see -/

def visible (start : Nat) (chain : List SteamVersion) : Option SteamVersion :=
  chain.find? fun version => version.tMin ≤ start

/-- The versions that active transactions see are still in the list after an update. -/
def Steam.KeepsVisible {n : Nat} (state : Steam n) (worker : Fin n) (refetch : Bool)
    (record : SteamRecord) : Prop :=
  ∀ reader, ∀ start ∈ state.active reader,
    ∀ version ∈ visible start (state.newVersion record :: record.deltaList),
      version ∈ state.versions worker refetch record

/-- No active transaction reads in the gap that the least timestamp of the list opens. -/
def Steam.Spared {n : Nat} (state : Steam n) (worker : Fin n) (refetch : Bool)
    (record : SteamRecord) : Prop :=
  ∀ oldest ∈ (state.fetched worker refetch).head?, ∀ newest ∈ record.deltaList.head?,
    Cuts record.tMin oldest newest record.deltaList.tail →
      ∀ reader, ∀ start ∈ state.active reader, start < record.tMin → start < newest.tMin →
        ∀ version ∈ record.deltaList.tail.takeWhile (fun version => oldest < version.tMin),
          start < version.tMin

section

variable {n : Nat} {state : Steam n}

theorem visible_cons (s : Nat) (v : SteamVersion) (older : List SteamVersion) :
    visible s (v :: older) = if v.tMin ≤ s then some v else visible s older := by
  unfold visible
  rw [List.find?_cons]
  by_cases hs : v.tMin ≤ s
  · simp [hs]
  · simp [hs]

theorem visible_dropWhile_iff {s ol : Nat} (hp : older.Nodup) :
    (∀ v, visible s older = some v → v ∈ older.dropWhile fun v => ol < v.tMin) ↔
      ∀ v ∈ older.takeWhile (fun v => ol < v.tMin), s < v.tMin := by
  have hsp : older.takeWhile (fun v => ol < v.tMin) ++
      older.dropWhile (fun v => ol < v.tMin) = older := takeWhile_append_dropWhile
  have ha : (older.takeWhile (fun v => ol < v.tMin)).Disjoint
      (older.dropWhile fun v => ol < v.tMin) := by
    rw [← hsp] at hp
    exact disjoint_of_nodup_append hp
  have he : visible s older = (visible s (older.takeWhile fun v => ol < v.tMin)).or
      (visible s (older.dropWhile fun v => ol < v.tMin)) := by
    conv_lhs => rw [← hsp]
    exact List.find?_append
  refine ⟨fun hk v hm => ?_, fun hu v hs => ?_⟩
  · by_contra hs
    obtain ⟨f, hf⟩ : ∃ f, visible s (older.takeWhile fun v => ol < v.tMin) = some f := by
      refine isSome_iff_exists.mp (List.find?_isSome.mpr ⟨v, hm, ?_⟩)
      exact decide_eq_true (Nat.le_of_not_lt hs)
    rw [hf, some_or] at he
    exact ha (mem_of_find?_eq_some hf) (hk f he)
  · have none : visible s (older.takeWhile fun v => ol < v.tMin) = none := by
      refine List.find?_eq_none.mpr fun o hm hr => ?_
      exact absurd (hu o hm) (Nat.not_lt.mpr (of_decide_eq_true hr))
    rw [none, none_or] at he
    exact mem_of_find?_eq_some (he.symm.trans hs)

/-- **Consolidation keeps what active transactions see** exactly if none of them reads in the gap,
in every reachable state, as long as no timestamp can be taken for a transaction id. -/
theorem update_keeps_iff {actions : List (SteamAction n)}
    (run : (steam n).Run (fun _ _ => True) actions state)
    (few : state.gen ≤ 2 ^ 27) {id : RecordId} {record : SteamRecord}
    (there : state.records id = some record)
    (worker : Fin n) (refetch : Bool) :
    state.KeepsVisible worker refetch record ↔ state.Spared worker refetch record := by
  have hre := run_regular run
  have hso := hre.fetched_sorted worker refetch
  have ht := hre.fetched_lt worker refetch
  have hv := hre.version_lt id record there
  have hpl := hre.places id record there
  have record_lt := hre.record_lt id record there
  unfold Steam.KeepsVisible Steam.Spared Steam.versions
  generalize state.fetched worker refetch = l at *
  cases hc : record.deltaList with
  | nil =>
    have hw : steamConsolidation record.tMin l [] = [] := by cases l <;> rfl
    rw [hw]
    exact iff_of_true (fun _ _ _ _ hse => mem_of_find?_eq_some hse) fun _ _ _ hno => (nomatch hno)
  | cons nw older =>
    cases l with
    | nil =>
      exact iff_of_true (fun _ _ _ _ hse => mem_of_find?_eq_some hse) fun _ hno => (nomatch hno)
    | cons o tl =>
      rw [hc] at hv hpl
      have ticket_lt : o < 2 ^ 27 := (ht o mem_cons_self).trans_le few
      obtain ⟨cut, hh⟩ := steamConsolidation_eq hso ticket_lt (record_lt.trans_le few)
        fun v hm => (hv v hm).1.trans_le few
      simp only [List.head?_cons, mem_def, Option.some.injEq, forall_eq', tail_cons]
      by_cases hcu : Cuts record.tMin o nw older
      · rw [cut hcu]
        obtain ⟨_, hd⟩ := nodup_cons.mp hpl
        -- what is seen behind the former head is neither this nor the new version
        have hbe : ∀ v ∈ older, v ≠ state.newVersion record ∧ v ≠ nw := by
          intro v hm
          refine ⟨fun hs => ?_, fun hs => (nodup_cons.mp hpl).1 (hs ▸ hm)⟩
          have hp := (hv v (mem_cons_of_mem _ hm)).2
          rw [hs] at hp
          exact absurd hp (lt_irrefl _)
        refine ⟨fun hk _ r s hr hb he => ?_, fun hsp r s hr v hse => ?_⟩
        · refine (visible_dropWhile_iff hd).mp fun v hse => ?_
          have hu : ¬ (state.newVersion record).tMin ≤ s := Nat.not_le.mpr hb
          have there := hk r s hr v (by
            rw [visible_cons, if_neg hu, visible_cons, if_neg (Nat.not_le.mpr he)]
            exact hse)
          obtain ⟨hnn, hn⟩ := hbe v (mem_of_find?_eq_some hse)
          exact ((mem_cons.mp there).resolve_left hnn |> mem_cons.mp).resolve_left hn
        · rw [visible_cons] at hse
          split_ifs at hse with hrn
          · cases hse
            exact mem_cons_self
          rw [visible_cons] at hse
          split_ifs at hse with hrd
          · cases hse
            exact mem_cons_of_mem _ mem_cons_self
          have hun := hsp hcu r s hr (Nat.lt_of_not_le hrn) (Nat.lt_of_not_le hrd)
          have hi := (visible_dropWhile_iff hd).mpr hun v hse
          exact mem_cons_of_mem _ (mem_cons_of_mem _ hi)
      · rw [hh hcu]
        exact iff_of_true (fun _ _ _ _ hse => mem_of_find?_eq_some hse) fun ho => absurd ho hcu

end

instance (recordTMin oldest : Nat) (start : SteamVersion) (older : List SteamVersion) :
    Decidable (Cuts recordTMin oldest start older) :=
  inferInstanceAs (Decidable (_ ∧ _ ∧ ∃ version ∈ older, version.tMin ≤ oldest))

instance {n : Nat} (state : Steam n) (worker : Fin n) (refetch : Bool) (record : SteamRecord) :
    Decidable (state.KeepsVisible worker refetch record) := by
  unfold Steam.KeepsVisible
  infer_instance

instance {n : Nat} (state : Steam n) (worker : Fin n) (refetch : Bool) (record : SteamRecord) :
    Decidable (state.Spared worker refetch record) := by
  unfold Steam.Spared
  infer_instance

def demoUpdate (worker : Fin 2) : List (SteamAction 2) :=
  [.begin worker, .update worker 0 true, .endTxn worker]

def demoBegin : List (SteamAction 2) :=
  [.begin 0, .insert 0 0, .endTxn 0, .begin 1, .endTxn 1] ++ demoUpdate 0

def demoSteam (actions : List (SteamAction 2)) : Option (Steam 2) :=
  (steam 2).follow (fun _ _ => true) (.initial 2) actions

theorem demoSteam_run {acs : List (SteamAction 2)} {s : Steam 2}
    (hf : demoSteam acs = some s) : (steam 2).Run (fun _ _ => True) acs s :=
  (Machine.Run.start (rfl : (steam 2).Start (.initial 2))).extend
    (Machine.Path.of_follow (fun _ _ _ => ⟨trivial, trivial⟩) hf)

/-- While no other transaction runs, the version in the gap is cut out, and nobody misses it. -/
theorem update_keeps_alone : ∃ state record,
    (steam 2).Run (fun _ _ => True) (demoBegin ++ demoUpdate 0 ++ demoUpdate 0 ++ [.begin 0])
      state ∧
    state.records 0 = some record ∧ (state.versions 0 true record).length = 3 ∧
    state.KeepsVisible 0 true record := by
  obtain ⟨state, hf, ho⟩ := bind_eq_some_iff.mp
    (by decide +kernel : ((demoSteam (demoBegin ++ demoUpdate 0 ++ demoUpdate 0 ++ [.begin 0])).bind
      fun state =>
      (state.records 0).map fun record =>
      (decide (state.gen ≤ 2 ^ 27), (state.versions 0 true record).length,
        decide (state.Spared 0 true record))) = some (true, 3, true))
  obtain ⟨record, ht, hs⟩ := map_eq_some_iff.mp ho
  obtain ⟨few, hr⟩ := Prod.mk.inj hs
  obtain ⟨length, hsp⟩ := Prod.mk.inj hr
  have run := demoSteam_run hf
  exact ⟨state, record, run, ht, length,
    (update_keeps_iff run (of_decide_eq_true few) ht 0 true).mpr
    (of_decide_eq_true hsp)⟩

/-- Worker 1 runs the transaction of time 4, which sees the version of time 3. Each worker has ended
one of time 2 or later, and the update cuts out what these do not see. -/
theorem active_reader_loses_version : ∃ state record, (steam 2).Run (fun _ _ => True)
      (demoBegin ++ [.begin 1] ++ demoUpdate 0 ++ demoUpdate 0 ++ [.begin 0]) state ∧
    state.records 0 = some record ∧ state.active 1 = some 4 ∧
        ¬ state.KeepsVisible 0 true record := by
  obtain ⟨state, hf, ho⟩ := bind_eq_some_iff.mp (by decide +kernel : ((demoSteam
      (demoBegin ++ [.begin 1] ++ demoUpdate 0 ++ demoUpdate 0 ++ [.begin 0])).bind
      fun state => (state.records 0).map fun record => (state.active 1,
        decide (state.KeepsVisible 0 true record))) = some (some 4, false))
  obtain ⟨record, ht, hs⟩ := map_eq_some_iff.mp ho
  obtain ⟨active, hl⟩ := Prod.mk.inj hs
  exact ⟨state, record, demoSteam_run hf, ht, active, of_decide_eq_false hl⟩

end Proteus.Oltp.Gc
