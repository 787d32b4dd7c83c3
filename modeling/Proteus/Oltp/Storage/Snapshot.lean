/-
**Transactions that run at the same time.**

Transactions take a start time, lock records, update them under the lock, and read records at any
time. `updateRecord` stamps a record with the start time of the transaction that writes, so what is
visible to a reader changes when a transaction that started *before* the reader writes after the
reader's first read. Locks do not help: readers do not take them.

* `step_consistent` — what a running transaction has read and not written since is still the entry
  it sees.
* `run_repeatable` — reads are repeatable in every run in which no update disturbs one.
-/

import Proteus.Oltp.Storage.Reads

namespace Proteus.Oltp.Storage

open Library Option Function Numerals

/-! ### Sessions -/

/-- What a transaction, named by its start time, did to a record. -/
inductive Event
  | read (start : Nat) (record : RecordId) (columns : Option (List Nat)) (bytes : List UInt8)
  | wrote (start : Nat) (record : RecordId)

/-- The store with the transactions that run on it; `events` has the last one first. -/
structure Session where
  store : Store
  gen : Nat
  running : Nat → Option Txn
  writeLck : RecordId → Option Nat
  events : List Event

/-- The steps of transactions. -/
inductive Move
  | begin (partitionId : Fin 8) (thread : ThreadId)
  | insert (start : Nat) (record : RecordId) (row : Row)
  | tryLock (start : Nat) (record : RecordId)
  | update (start : Nat) (record : RecordId) (columns : List Nat) (data : List UInt8)
  | unlock (start : Nat) (record : RecordId)
  | read (start : Nat) (record : RecordId) (columns : Option (List Nat))
  | finish (start : Nat)

variable (config : Config) (fuel : Nat)

def Session.Enabled (session : Session) : Move → Prop
  | .begin _ _ => True
  | .insert start record row => ∃ txn, session.running start = some txn ∧
      WellFormed config session.store (.insert txn record row)
  | .tryLock start _ => session.running start ≠ none
  | .update start record columns data => session.writeLck record = some start ∧
      ∃ txn, session.running start = some txn ∧
        WellFormed config session.store (.update txn record columns data)
  | .unlock start record => session.writeLck record = some start
  | .read start record _ => session.running start ≠ none ∧ session.store.index record ≠ none
  | .finish start => session.running start ≠ none

/-- One step. A read that does not return ends the run. -/
def Session.next (session : Session) : Move → Option Session
  | .begin partitionId thread =>
    -- `get_txnID_startTime_Pair`
    some { session with
      gen := session.gen + 1
      running := Function.update session.running session.gen
        (some ⟨session.gen, partitionId, thread⟩) }
  | .insert start record row => do
    let txn ← session.running start
    return { session with
      store := insertRecord txn record row session.store
      events := .wrote start record :: session.events }
  | .tryLock start record =>
    some { session with
      writeLck := Function.update session.writeLck record (session.writeLck record <|> some start) }
  | .update start record columns data => do
    let txn ← session.running start
    let store ← updateRecord config txn record columns data session.store
    return { session with store, events := .wrote start record :: session.events }
  | .unlock _ record =>
      some { session with writeLck := Function.update session.writeLck record none }
  | .read start record columns =>
    match getIndexedRecord config session.store record (TxnTs.ofTicket start) columns fuel with
    | .error _ => none
    | .ok bytes =>
        some { session with events := .read start record columns bytes :: session.events }
  | .finish start => some { session with running := Function.update session.running start none }

/-- Sessions from an empty store on; `gen` starts at 1. -/
def sessions : Machine Session Move where
  Start session := Initial config session.store ∧ session.gen = 1 ∧
    (∀ start, session.running start = none) ∧
    (∀ record, session.writeLck record = none) ∧ session.events = []
  Enabled := Session.Enabled config
  next := Session.next config fuel

/-! ### Repeatable reads -/

def ReadSince (events : List Event) (start : Nat) (record : RecordId) (columns : Option (List Nat))
    (bytes : List UInt8) : Prop :=
  ∃ later earlier, events = later ++ .read start record columns bytes :: earlier ∧
    .wrote start record ∉ later

/-- Two reads of a record by one transaction that did not write it in between give the same
bytes. -/
def Repeatable (events : List Event) : Prop :=
  ∀ later middle earlier start record columns first second,
    events = later ++ .read start record columns second ::
      (middle ++ .read start record columns first :: earlier) →
    .wrote start record ∉ middle → second = first

def Undisturbed (session : Session) : Move → Prop
  | .insert start record row => ∀ txn, session.running start = some txn →
      Fits config (.insert txn record row)
  | .update start record columns data =>
    (∀ txn, session.running start = some txn →
      Safe config session.store (.update txn record columns data)) ∧
    ∀ reader, reader ≠ start → session.running reader ≠ none →
      (∃ columns bytes, ReadSince session.events reader record columns bytes) →
        ¬ (TxnTs.ofTicket reader).isReadable start
  | .read _ _ columns => columns ≠ some []
  | _ => True

section

variable {es : List Event} {st o : Nat} {rc r : RecordId}
  {cs : Option (List Nat)} {bs : List UInt8}

theorem ReadSince.of_wrote (hs : ReadSince (.wrote o r :: es) st rc cs bs) :
    ReadSince es st rc cs bs ∧ ¬ (o = st ∧ r = rc) := by
  obtain ⟨l, e, hsp, hu⟩ := hs
  cases l with
  | nil => cases hsp
  | cons ev l =>
    obtain ⟨rfl, hr⟩ := List.cons.inj hsp
    refine ⟨⟨l, e, hr, fun hm => hu (List.mem_cons_of_mem _ hm)⟩, ?_⟩
    rintro ⟨rfl, rfl⟩
    exact hu List.mem_cons_self

theorem ReadSince.of_read {cs' : Option (List Nat)} {bs' : List UInt8}
    (hs : ReadSince (.read o r cs' bs' :: es) st rc cs bs) :
    ReadSince es st rc cs bs ∨ (o = st ∧ r = rc ∧ cs' = cs ∧ bs' = bs) := by
  obtain ⟨l, e, hsp, hu⟩ := hs
  cases l with
  | nil =>
    obtain ⟨⟨⟩, -⟩ := List.cons.inj hsp
    exact Or.inr ⟨rfl, rfl, rfl, rfl⟩
  | cons ev l =>
    obtain ⟨rfl, hr⟩ := List.cons.inj hsp
    exact Or.inl ⟨l, e, hr, fun hm => hu (List.mem_cons_of_mem _ hm)⟩

theorem Repeatable.wrote (hr : Repeatable es) : Repeatable (.wrote st rc :: es) := by
  intro l m e r rc columns f s hs hu
  cases l with
  | nil => cases hs
  | cons ev l => exact hr l _ _ _ _ _ _ _ (List.cons.inj hs).2 hu

theorem Repeatable.read (hre : Repeatable es) (hs : ∀ f, ReadSince es st rc cs f → bs = f) :
    Repeatable (.read st rc cs bs :: es) := by
  intro l m e r record' cs' f s hsp hu
  cases l with
  | nil =>
    obtain ⟨⟨⟩, hr⟩ := List.cons.inj hsp
    exact hs f ⟨m, e, hr, hu⟩
  | cons ev l => exact hre l _ _ _ _ _ _ _ (List.cons.inj hsp).2 hu

end

/-! ### Every step keeps what was read -/

/-- The entry a transaction read is the one it still sees. -/
structure Consistent (session : Session) (histories : RecordId → Option History)
    (chunks : Region → List Chunk) : Prop where
  represents : Represents config True session.store histories chunks
  alive : ∀ record history, histories record = some history → history.deleted = false
  started : ∀ start txn, session.running start = some txn → txn.startTime = start ∧
    start < session.gen
  past : ∀ start record columns bytes, ReadSince session.events start record columns bytes →
    start < session.gen
  sees : ∀ start record columns bytes, session.running start ≠ none →
    ReadSince session.events start record columns bytes → ∃ history entry,
      histories record = some history ∧ history.visible (TxnTs.ofTicket start) = some entry ∧
        bytes = selectCells entry.row (columns.getD (config.table record).columns)
  repeatable : Repeatable session.events

section

variable {config fuel} {session a : Session} {histories : RecordId → Option History}
  {chunks : Region → List Chunk} {s : Nat} {rc : RecordId}
    {store : Store} {t : Table} {txn : Txn} {cs : List Nat} {d : List UInt8} {h : History}

section

variable (consistent : Consistent config session histories chunks)

include consistent

theorem Consistent.begin (partitionId : Fin 8) (t : ThreadId) : Consistent config { session with
      gen := session.gen + 1
      running := Function.update session.running session.gen (some ⟨session.gen, partitionId, t⟩) }
      histories chunks := by
  refine { consistent with started := ?_, past := ?_, sees := ?_ }
  · intro start txn hr
    by_cases hs : start = session.gen
    · subst hs
      simp only [update_self, Option.some.injEq] at hr
      subst hr
      exact ⟨rfl, Nat.lt_succ_self _⟩
    · simp only [update_of_ne hs] at hr
      obtain ⟨hn, low⟩ := consistent.started start txn hr
      exact ⟨hn, Nat.lt_succ_of_lt low⟩
  · exact fun start record columns bs hsi =>
      Nat.lt_succ_of_lt (consistent.past start record columns bs hsi)
  · intro start record columns bs hr hsi
    have hd := ne_of_lt (consistent.past start record columns bs hsi)
    simp only [update_of_ne hd] at hr
    exact consistent.sees start record columns bs hr hsi

theorem Consistent.finish (s : Nat) :
    Consistent config { session with running := Function.update session.running s none } histories
        chunks := by
  refine { consistent with started := ?_, sees := ?_ }
  · intro o txn hr
    by_cases hs : o = s
    · simp [hs] at hr
    · exact consistent.started o txn (by simpa [hs] using hr)
  · intro o record columns bs hr hsi
    by_cases hs : o = s
    · simp [hs] at hr
    · exact consistent.sees o record columns bs (by simpa [hs] using hr) hsi

theorem Consistent.read {cs : Option (List Nat)} {bs : List UInt8}
    (hru : session.running s ≠ none) (hin : session.store.index rc ≠ none)
    (hg : cs ≠ some [])
    (hr : getIndexedRecord config session.store rc (TxnTs.ofTicket s) cs fuel = .ok bs) :
    Consistent config { session with events := .read s rc cs bs :: session.events }
      histories chunks := by
  obtain ⟨history, hi⟩ := ne_none_iff_exists'.mp fun hm =>
    hin (consistent.represents.absent rc hm)
  have hre := getIndexedRecord_represents consistent.represents hi (TxnTs.ofTicket s) cs
    (le_max_right fuel history.entries.length)
  rw [getIndexedRecord_mono hr (le_max_left ..)] at hre
  obtain ⟨e, hv, hri⟩ : ∃ e, history.visible (TxnTs.ofTicket s) = some e ∧
      bs = selectCells e.row (cs.getD (config.table rc).columns) := by
    unfold History.Reads at hre
    cases hf : history.visible (TxnTs.ofTicket s) with
    | none => simp [hf] at hre
    | some e =>
      simp only [hf, consistent.alive rc history hi, Bool.false_eq_true, if_false] at hre
      obtain ⟨_, ⟨⟩, hri⟩ := hre
      exact ⟨e, rfl, hri trivial hg⟩
  have low : s < session.gen := by
    obtain ⟨txn, hp⟩ := ne_none_iff_exists'.mp hru
    exact (consistent.started s txn hp).2
  refine { consistent with past := ?_, sees := ?_, repeatable := ?_ }
  · intro o r' cs' bs' hs
    rcases hs.of_read with he | ⟨rfl, -⟩
    · exact consistent.past o r' cs' bs' he
    · exact low
  · intro o r' cs' bs' hru' hs
    rcases hs.of_read with he | ⟨rfl, rfl, rfl, rfl⟩
    · exact consistent.sees o r' cs' bs' hru' he
    · exact ⟨history, e, hi, hv, hri⟩
  · refine consistent.repeatable.read fun f hs => ?_
    obtain ⟨h', e', hi', hv', hri'⟩ := consistent.sees s rc cs f hru hs
    obtain rfl := some.inj (hi.symm.trans hi')
    obtain rfl := some.inj (hv.symm.trans hv')
    rw [hri, hri']

theorem Consistent.wrote {hs' : RecordId → Option History} {cs' : Region → List Chunk} {w : History}
    (hr : Represents config True store hs' cs')
    (hc : hs' = Function.update histories rc (some w)) (ha : w.deleted = false)
    (hk : ∀ r columns bs history, r ≠ s → session.running r ≠ none →
      ReadSince session.events r rc columns bs → histories rc = some history →
        w.visible (TxnTs.ofTicket r) = history.visible (TxnTs.ofTicket r)) :
    Consistent config { session with store, events := .wrote s rc :: session.events } hs' cs' := by
  subst hc
  refine { consistent with
    represents := hr
    alive := ?_
    past := fun o r' columns bs hsi =>
      consistent.past o r' columns bs hsi.of_wrote.1
    sees := ?_
    repeatable := consistent.repeatable.wrote }
  · intro o history hi
    by_cases hs : o = rc
    · subst hs
      simp only [update_self, Option.some.injEq] at hi
      exact hi ▸ ha
    · exact consistent.alive o history (by simpa [hs] using hi)
  · intro o r' columns bs hru hsi
    obtain ⟨he, hu⟩ := hsi.of_wrote
    obtain ⟨history, e, hi, hv, hri⟩ := consistent.sees o r' columns bs hru he
    by_cases hs : r' = rc
    · subst hs
      refine ⟨w, e, update_self .., ?_, hri⟩
      rw [hk o columns bs history (fun own => hu ⟨own.symm, rfl⟩) hru he hi, hv]
    · exact ⟨history, e, by simpa [hs] using hi, hv, hri⟩

end

theorem History.visible_update {r : TxnTs} (hh : ¬ r.isReadable txn.startTime) :
    (h.update t txn cs d).visible r = h.visible r := by
  unfold History.update History.visible
  cases hs : h.entries with
  | nil => simp only [hs]
  | cons e es => simp [hh]

theorem History.update_deleted : (h.update t txn cs d).deleted = h.deleted := by
  unfold History.update
  cases h.entries <;> rfl

variable (consistent : Consistent config session histories chunks)

include consistent

theorem Consistent.insert {r : Row} (hc : WellFormed config session.store (.insert txn rc r))
    (hf : Fits config (.insert txn rc r)) :
    ∃ hs' cs', Consistent config { session with
      store := insertRecord txn rc r session.store
      events := .wrote s rc :: session.events } hs' cs' := by
  refine ⟨_, chunks, consistent.wrote (insertRecord_represents consistent.represents hc.1 hc.2 hf)
    rfl rfl ?_⟩
  intro re columns bs history _ _ _ hi
  obtain ⟨i, vs, hh⟩ := consistent.represents.held rc history hi
  exact absurd (hc.1.symm.trans hh.indexed) (by simp)

theorem Consistent.update (hc : WellFormed config session.store (.update txn rc cs d))
    (hsa : Safe config session.store (.update txn rc cs d))
    (hru : session.running s = some txn)
    (hu : ∀ r, r ≠ s → session.running r ≠ none → (∃ cs bs, ReadSince session.events r rc cs bs) →
        ¬ (TxnTs.ofTicket r).isReadable s)
    (hd : updateRecord config txn rc cs d session.store = some store) :
    ∃ hs' cs', Consistent config
      { session with store, events := .wrote s rc :: session.events } hs' cs' := by
  obtain ⟨history, hi⟩ := ne_none_iff_exists'.mp fun hm =>
    hc.1 (consistent.represents.absent rc hm)
  obtain ⟨cs', hr⟩ := updateRecord_represents consistent.represents hsa.1.1 hc.2.1
    hc.2.2 hsa.1.2 (fun _ => hsa.2) hi hd
  refine ⟨_, cs', consistent.wrote hr rfl
    (History.update_deleted.trans (consistent.alive rc history hi)) ?_⟩
  intro r cs bs h' hdi hl hs hi'
  obtain rfl := some.inj (hi.symm.trans hi')
  refine History.visible_update ?_
  rw [(consistent.started s txn hru).1]
  exact hu r hdi hl ⟨cs, bs, hs⟩

/-- **Every step** that disturbs no reader. -/
theorem step_consistent {m : Move}
    (he : session.Enabled config m) (ha : Undisturbed config session m)
    (hd : session.next config fuel m = some a) :
    ∃ hs' cs', Consistent config a hs' cs' := by
  cases m with
  | begin partitionId t =>
    cases hd
    exact ⟨histories, chunks, consistent.begin partitionId t⟩
  | insert start record r =>
    obtain ⟨txn, hru, hc⟩ := he
    simp only [Session.next, hru, bind_eq_bind, bind_some, pure_def, Option.some.injEq] at hd
    subst hd
    exact consistent.insert hc (ha txn hru)
  | tryLock start record | unlock start record =>
    cases hd
    exact ⟨histories, chunks, { consistent with }⟩
  | update start record columns data =>
    obtain ⟨-, txn, hru, hc⟩ := he
    simp only [Session.next, hru, bind_eq_bind, bind_some, pure_def] at hd
    obtain ⟨store, hw, rfl⟩ := map_eq_some_iff.mp (by rwa [map_eq_bind])
    exact consistent.update hc (ha.1 txn hru) hru ha.2 hw
  | read start record columns =>
    simp only [Session.next] at hd
    cases hr : getIndexedRecord config session.store record (TxnTs.ofTicket start) columns fuel with
    | error f => simp [hr] at hd
    | ok bs =>
      simp only [hr, Option.some.injEq] at hd
      subst hd
      exact ⟨histories, chunks, consistent.read he.1 he.2 ha hr⟩
  | finish start =>
    cases hd
    exact ⟨histories, chunks, consistent.finish start⟩

omit consistent

theorem start_consistent (hin : (sessions config fuel).Start session) :
    ∃ histories chunks, Consistent config session histories chunks := by
  obtain ⟨store, -, hi, -, hsi⟩ := hin
  obtain ⟨chunks, hr⟩ : ∃ chunks, Represents config True session.store (fun _ => none) chunks :=
    store.represents
  have hn : ∀ {start record columns bs}, ¬ ReadSince session.events start record columns bs := by
    rintro start record columns bs ⟨l, e, hsp, -⟩
    simp [hsi] at hsp
  refine ⟨_, chunks, hr, by simp, by simp [hi], fun _ _ _ _ hs => absurd hs hn,
    fun _ _ _ _ _ hs => absurd hs hn, ?_⟩
  intro l m e start record columns f s hsp
  simp [hsi] at hsp

/-- **Repeatable reads**, in every run in which no update is visible to a reader of the record. -/
theorem run_repeatable {moves : List Move}
    (run : (sessions config fuel).Run (Undisturbed config) moves session) :
        Repeatable session.events := by
  obtain ⟨histories, chunks, consistent⟩ := run.invariant
    (fun session => ∃ histories chunks, Consistent config session histories chunks)
    (fun _ => start_consistent) fun _ _ _ ⟨_, _, consistent⟩ he ha hd =>
      step_consistent consistent he ha hd
  exact consistent.repeatable

end

/-! ### Two transactions -/

def demoStart : Session := ⟨demoStore, 1, fun _ => none, fun _ => none, []⟩

def demoOpening : List Move :=
  [.begin 0 0, .insert 1 0 [[1, 2, 3, 4, 5, 6, 7, 8]], .begin 0 0, .begin 0 0]

def demoMoves (reader writer : Nat) : List Move :=
  [.read reader 0 none, .tryLock writer 0, .update writer 0 [] (List.replicate 8 9),
    .unlock writer 0,
    .read reader 0 none]

def demoOpened : Session := (demoOpening.foldlM (Session.next demo 4) demoStart).get rfl

def demoSession (reader writer : Nat) : Option Session :=
  (demoMoves reader writer).foldlM (Session.next demo 4) demoOpened

theorem demo_opens : (sessions demo 4).Run (Undisturbed demo) demoOpening demoOpened := by
  have hb : (sessions demo 4).Start demoStart :=
    ⟨demoStore_initial, rfl, fun _ => rfl, fun _ => rfl, rfl⟩
  have hp : (sessions demo 4).Path (Undisturbed demo) demoStart demoOpening demoOpened := by
    refine .cons trivial trivial rfl ?_
    refine .cons ⟨_, rfl, rfl, rfl⟩ ?_ rfl ?_
    · intro txn hr
      cases hr
      exact (by decide : 1 < 2 ^ 63)
    exact .cons trivial trivial rfl (.cons trivial trivial rfl .nil)
  exact (Machine.Run.start hb).extend hp

/-- A writer that started after the reader. -/
theorem run_repeatable_later_writer : Repeatable ((demoSession 2 3).get rfl).events := by
  have hp : (sessions demo 4).Path (Undisturbed demo) demoOpened (demoMoves 2 3)
      ((demoSession 2 3).get rfl) := by
    refine .cons ⟨isSome_iff_ne_none.mp rfl, isSome_iff_ne_none.mp rfl⟩ nofun rfl ?_
    refine .cons (isSome_iff_ne_none.mp rfl) trivial rfl ?_
    refine .cons ⟨rfl, _, rfl, isSome_iff_ne_none.mp rfl, by simp, rfl⟩ ⟨?_, ?_⟩ rfl ?_
    · intro txn hr
      cases hr
      exact demoUpdate_safe (by decide)
    · rintro r - - ⟨cs, bs, l, e, hs, -⟩
      have hm : Event.read r 0 cs bs ∈ [Event.read 2 0 none [1, 2, 3, 4, 5, 6, 7, 8], .wrote 1 0] :=
        (show [Event.read 2 0 none [1, 2, 3, 4, 5, 6, 7, 8], .wrote 1 0] = _ from hs) ▸ by simp
      obtain rfl : r = 2 := by
        simpa using (List.mem_pair.mp hm).imp (fun h => (Event.read.inj h).1) id
      decide
    refine .cons rfl trivial rfl ?_
    exact .cons ⟨isSome_iff_ne_none.mp rfl, isSome_iff_ne_none.mp rfl⟩ nofun rfl .nil
  exact run_repeatable (demo_opens.extend hp)

/-- A writer that started before the reader. -/
theorem writer_disturbs_reader :
    (sessions demo 4).Run (fun _ _ => True) (demoOpening ++ demoMoves 3 2)
    ((demoSession 3 2).get rfl) ∧ ¬ Repeatable ((demoSession 3 2).get rfl).events := by
  constructor
  · have hp : (sessions demo 4).Path (fun _ _ => True) demoOpened (demoMoves 3 2)
        ((demoSession 3 2).get rfl) := by
      refine .cons ⟨isSome_iff_ne_none.mp rfl, isSome_iff_ne_none.mp rfl⟩ trivial rfl ?_
      refine .cons (isSome_iff_ne_none.mp rfl) trivial rfl ?_
      refine .cons ⟨rfl, _, rfl, isSome_iff_ne_none.mp rfl, by simp, rfl⟩ trivial rfl ?_
      refine .cons rfl trivial rfl ?_
      exact .cons ⟨isSome_iff_ne_none.mp rfl, isSome_iff_ne_none.mp rfl⟩ trivial rfl .nil
    exact (demo_opens.mono fun _ _ _ => trivial).extend hp
  · intro hr
    have hs := hr [] [.wrote 2 0] [.wrote 1 0] 3 0 none [1, 2, 3, 4, 5, 6, 7, 8]
      [9, 9, 9, 9, 9, 9, 9, 9] rfl (by simp)
    cases hs

end Proteus.Oltp.Storage
