/-
**The reader count of a delta store** (`CircularDeltaStore` in
`storage/multi-version/delta_storage.*`).

A thread registers with a store by adding one to `readers` and unregisters by subtracting one; the
last one to leave, or any thread through `try_GC_all_partitions`, collects. A collector exchanges a
count of 0 for `INT64_MIN`, which keeps the others out: whoever adds one to a negative count spins
until it is no longer negative and tries again, and the collector's final store of 0 throws these
additions away. Every access to `readers` or `tag` and every partition reset is a step of its own.

The test that decides whether a collection goes through (`impl_gc_simple`,
`impl_gc_withConsolidation`) may come out either way. The number of threads is below 2^63: a thread
is a worker, and a `worker_id_t` has eight bits.

* `Counted` — the invariant: the count is the number of registered threads, or somebody collects,
  nobody is registered, and at most one addition of each spinning thread keeps the count from
  `INT64_MIN`.
* `run_counts_registered` — so in every run a count that is not negative is the number of registered
  threads, and no partition is reset while there is one.
-/

import Proteus.Library.Machine
import Proteus.Library.Tally
import Proteus.Oltp.Storage.DeltaStore

namespace Proteus.Oltp.Gc.Readers

open Library Storage.Numerals
open Storage (Partition)

/-! ### Threads -/

/-- Where a thread is in a call on the store. -/
inductive Call where
  | outside
  | spin
  | retry
  | exchange
  | test
  | bump
  | reset (rest : List Nat)
deriving DecidableEq

def Call.collects : Call → Bool
  | test | bump | reset _ => true
  | _ => false

structure Thread where
  registered : Bool
  call : Call

structure Store (n : Nat) where
  readers : BitVec 64
  tag : BitVec 32
  partitions : List Partition
  threads : Fin n → Thread

/-- `INT64_MIN` -/
def int64Min : BitVec 64 := BitVec.intMin 64

inductive Action (n : Nat)
  | incrementReader (thread : Fin n)
  | spin (thread : Fin n)
  | retry (thread : Fin n)
  | decrementReader (thread : Fin n)
  | callGC (thread : Fin n)
  | exchange (thread : Fin n) (succeeds : Bool)
  | test (thread : Fin n) (allowed : Bool)
  | bumpTag (thread : Fin n)
  | resetPartition (thread : Fin n)
  | release (thread : Fin n)

/-! ### Steps -/

namespace Store

variable {n : Nat}

def goto (store : Store n) (thread : Fin n) (state : Thread) : Store n :=
  { store with threads := Function.update store.threads thread state }

/-- `x = readers++`, and whether the loop is left. -/
def addReader (store : Store n) (thread : Fin n) : Store n :=
  let state : Thread := if store.readers.toInt < 0 then ⟨false, .spin⟩ else ⟨true, .outside⟩
  { store.goto thread state with readers := store.readers + 1 }

/-- One step, where the thread is at it. -/
def next (store : Store n) : Action n → Option (Store n)
  | .incrementReader thread =>
    match store.threads thread with
    | ⟨false, .outside⟩ => some (store.addReader thread)
    | _ => none
  | .spin thread =>
    match store.threads thread with
    | ⟨false, .spin⟩ =>
      if store.readers.toInt < 0 then none else some (store.goto thread ⟨false, .retry⟩)
    | _ => none
  | .retry thread =>
    match store.threads thread with
    | ⟨false, .retry⟩ => some (store.addReader thread)
    | _ => none
  | .decrementReader thread =>
    match store.threads thread with
    | ⟨true, .outside⟩ =>
      let call : Call := if store.readers = 1 then .exchange else .outside
      some { store.goto thread ⟨false, call⟩ with readers := store.readers - 1 }
    | _ => none
  | .callGC thread =>
    match store.threads thread with
    | ⟨registered, .outside⟩ => some (store.goto thread ⟨registered, .exchange⟩)
    | _ => none
  | .exchange thread succeeds =>
    match store.threads thread with
    | ⟨registered, .exchange⟩ =>
      -- a weak exchange may fail
      if succeeds ∧ store.readers = 0 then
        some { store.goto thread ⟨registered, .test⟩ with readers := int64Min }
      else some (store.goto thread ⟨registered, .outside⟩)
    | _ => none
  | .test thread allowed =>
    match store.threads thread with
    | ⟨registered, .test⟩ =>
      some (store.goto thread ⟨registered, if allowed then .bump else .reset []⟩)
    | _ => none
  | .bumpTag thread =>
    match store.threads thread with
    | ⟨registered, .bump⟩ =>
      some { store.goto thread ⟨registered, .reset (List.range store.partitions.length)⟩ with
        tag := store.tag + 1 }
    | _ => none
  | .resetPartition thread =>
    match store.threads thread with
    | ⟨registered, .reset (pid :: rest)⟩ =>
      some { store.goto thread ⟨registered, .reset rest⟩ with
        partitions := store.partitions.modify pid Partition.reset }
    | _ => none
  | .release thread =>
    match store.threads thread with
    | ⟨registered, .reset []⟩ => some { store.goto thread ⟨registered, .outside⟩ with readers := 0 }
    | _ => none

/-- How many threads are registered. -/
def registered (store : Store n) : Nat :=
    tally (fun thread => thread.registered = true) store.threads

end Store

def Store.Initial {n : Nat} (store : Store n) : Prop :=
  store.readers = 0 ∧ store.tag = 1 ∧ ∀ thread, store.threads thread = ⟨false, .outside⟩

/-- Threads on one store. -/
def circularDeltaStore (n : Nat) : Machine (Store n) (Action n) where
  Start := Store.Initial
  Enabled _ _ := True
  next := Store.next

/-! ### The invariant -/

section

variable {n : Nat} {store after af : Store n} {ac : Action n}

def Thread.collects (thread : Thread) : Bool := thread.call.collects

def Thread.spins (thread : Thread) : Bool := thread.call = .spin

/-- How many threads are in some state. -/
def count (part : Thread → Bool) (threads : Fin n → Thread) : Nat :=
  tally (fun thread => part thread = true) threads

variable (pa : Thread → Bool) (ts : Fin n → Thread)

theorem count_update (t : Fin n) (s : Thread) :
    count pa (Function.update ts t s) + (pa (ts t)).toNat = count pa ts + (pa s).toNat := by
  have hm := tally_update (p := fun t => pa t = true) ts t s
  simpa only [count, Bool.toNat, Bool.cond_eq_ite] using hm

theorem count_le : count pa ts ≤ n :=
  le_of_le_of_eq (tally_le_card _) (Fintype.card_fin n)

variable {readers rs : BitVec 64} {thread t : Fin n}

theorem toInt_add_one (hs : rs.toInt < 2 ^ 63 - 1) : (rs + 1).toInt = rs.toInt + 1 := by
  have hl := BitVec.le_toInt rs
  rw [BitVec.toInt_add, show (1 : BitVec 64).toInt = 1 from rfl]
  exact Int.bmod_eq_of_le (by omega) (by omega)

theorem toInt_sub_one (hl : 0 < rs.toInt) : (rs - 1).toInt = rs.toInt - 1 := by
  have hm := BitVec.toInt_lt (x := rs)
  rw [BitVec.toInt_sub, show (1 : BitVec 64).toInt = 1 from rfl]
  exact Int.bmod_eq_of_le (by omega) (by omega)

def Balanced (collecting registered spinning : Nat) (readers : Int) : Prop :=
  (collecting = 0 ∧ readers = registered) ∨
    (collecting = 1 ∧ registered = 0 ∧ readers ≤ -2 ^ 63 + spinning)

def Counted (store : Store n) : Prop :=
  Balanced (count Thread.collects store.threads) (count Thread.registered store.threads)
    (count Thread.spins store.threads) store.readers.toInt

open Thread

theorem initial_counted (hin : store.Initial) : Counted store := by
  obtain ⟨hn, -, hi⟩ := hin
  have he : ∀ pa : Thread → Bool, pa ⟨false, .outside⟩ = false → count pa store.threads = 0 :=
    fun pa ho => tally_eq_zero_iff.mpr fun thread => by simp [hi, ho]
  rw [Counted, he collects rfl, he registered rfl, hn]
  exact Or.inl ⟨rfl, rfl⟩

variable (few : n < 2 ^ 63) (counted : Counted store)

include few counted

theorem Counted.moved {b s : Thread}
    (hh : store.threads t = b) (hm : af.threads = (store.goto t s).threads)
    (hb : ∀ c r sp c' r' sp' : Nat, Balanced c r sp store.readers.toInt → sp < 2 ^ 63 →
      r' < 2 ^ 63 →
      c' + b.collects.toNat = c + s.collects.toNat →
      r' + b.registered.toNat = r + s.registered.toNat →
      sp' + b.spins.toNat = sp + s.spins.toNat →
      Balanced c' r' sp' af.readers.toInt) : Counted af := by
  subst hh
  rw [Counted, hm]
  exact hb _ _ _ _ _ _ counted (lt_of_le_of_lt (count_le ..) few) (lt_of_le_of_lt (count_le ..) few)
    (count_update ..) (count_update ..) (count_update ..)

open Bool

theorem Counted.same {b s : Thread}
    (hh : store.threads t = b) (hm : af.threads = (store.goto t s).threads)
    (rs : af.readers = store.readers) (hco : s.collects = b.collects)
    (hr : s.registered = b.registered)
    (hsp : b.spins = true → 0 ≤ store.readers.toInt) : Counted af := by
  refine counted.moved few hh hm fun _ _ _ _ _ _ hb few _ hc hre hs => ?_
  rw [hco] at hc
  rw [hr] at hre
  rw [rs]
  rw [Balanced] at hb ⊢
  cases hsn : b.spins with
  | false =>
    rw [hsn, toNat_false] at hs
    omega
  | true =>
    have hf := hsp hsn
    omega

theorem Counted.addReader {c : Call}
    (hh : store.threads t = ⟨false, c⟩) (hr : c = .outside ∨ c = .retry) :
    Counted (store.addReader t) := by
  have hco : (⟨false, c⟩ : Thread).collects.toNat = 0 := by
    rcases hr with rfl | rfl <;> rfl
  have hsp : (⟨false, c⟩ : Thread).spins.toNat = 0 := by
    rcases hr with rfl | rfl <;> rfl
  have ha : (store.addReader t).readers = store.readers + 1 := rfl
  by_cases hhe : store.readers.toInt < 0
  · have hm : (store.addReader t).threads = (store.goto t ⟨false, .spin⟩).threads := by
      simp [Store.addReader, hhe]
    refine counted.moved few hh hm fun _ _ _ _ _ _ hb _ _ hc hre hs => ?_
    rw [hco] at hc
    rw [hsp] at hs
    simp only [Thread.collects, Call.collects, Thread.spins, decide_true, toNat_true,
      toNat_false] at hc hre hs
    rw [ha, toInt_add_one (by omega)]
    rw [Balanced] at hb ⊢
    omega
  · have hm : (store.addReader t).threads = (store.goto t ⟨true, .outside⟩).threads := by
      simp [Store.addReader, hhe]
    refine counted.moved few hh hm fun _ _ _ _ _ _ hb _ _ hc hre hs => ?_
    rw [hco] at hc
    simp only [Thread.collects, Call.collects, toNat_true, toNat_false] at hc hre
    rw [Balanced] at hb
    rw [ha, toInt_add_one (by omega), Balanced]
    omega

open Store

/-- **The count is kept.** -/
theorem Counted.kept (hd : store.next ac = some af) : Counted af := by
  cases ac with
  | incrementReader thread | retry thread =>
    simp only [next] at hd
    split at hd
    · next hh =>
      cases hd
      exact counted.addReader few hh (by decide)
    · cases hd
  | spin thread =>
    simp only [next] at hd
    split at hd
    · next hh =>
      split_ifs at hd with hhe
      cases hd
      refine counted.same few hh rfl rfl rfl rfl fun _ => ?_
      exact not_lt.mp hhe
    · cases hd
  | decrementReader thread =>
    simp only [next] at hd
    split at hd
    · next hh =>
      cases hd
      refine counted.moved few hh rfl fun _ _ _ _ _ _ hb _ _ hc hr hs => ?_
      have hle : (⟨true, .outside⟩ : Thread).collects = false := rfl
      have hj : collects ⟨false, if store.readers = 1 then .exchange else .outside⟩ = false := by
        split_ifs <;> rfl
      rw [hle, hj] at hc
      simp only [toNat_true, toNat_false] at hc hr
      rw [Balanced] at hb
      rw [toInt_sub_one (by omega), Balanced]
      omega
    · cases hd
  | callGC thread | bumpTag thread | resetPartition thread =>
    simp only [next] at hd
    split at hd
    · next hh =>
      cases hd
      exact counted.same few hh rfl rfl rfl rfl nofun
    · cases hd
  | exchange thread ss =>
    simp only [next] at hd
    split at hd
    · next hh =>
      split_ifs at hd with hf
      · cases hd
        refine counted.moved few hh rfl fun _ _ _ _ _ _ hb _ _ hc hr hs => ?_
        have hz : store.readers.toInt = 0 := by rw [hf.2]; rfl
        simp only [collects, Call.collects, toNat_true, toNat_false] at hc hr
        have hl : int64Min.toInt = -2 ^ 63 := by decide
        rw [hl, Balanced]
        rw [Balanced] at hb
        omega
      · cases hd
        exact counted.same few hh rfl rfl rfl rfl nofun
    · cases hd
  | test thread a =>
    simp only [next] at hd
    split at hd
    · next hh =>
      cases hd
      cases a <;> exact counted.same few hh rfl rfl rfl rfl nofun
    · cases hd
  | release thread =>
    simp only [next] at hd
    split at hd
    · next hh =>
      cases hd
      refine counted.moved few hh rfl fun _ _ _ _ _ _ hb _ _ hc hr hs => ?_
      have hz : (0 : BitVec 64).toInt = 0 := rfl
      simp only [collects, Call.collects, toNat_true, toNat_false] at hc hr
      rw [hz, Balanced]
      rw [Balanced] at hb
      omega
    · cases hd

omit few counted

/-- **While somebody collects**, nobody is registered. -/
theorem Counted.unregistered (counted : Counted store)
    (hc : (store.threads t).collects = true) : store.registered = 0 := by
  rcases counted with ⟨hn, -⟩ | ⟨-, hn, -⟩
  · exact absurd hc (tally_eq_zero_iff.mp hn t)
  · exact hn

/-- **Registered threads are counted**: in every run, a count that is not negative is the number of
threads between `increment_reader` and `decrement_reader`, and while there is one no partition is
reset. -/
theorem run_counts_registered (few : n < 2 ^ 63) {actions : List (Action n)}
    (run : (circularDeltaStore n).Run (fun _ _ => True) actions store) :
    (0 ≤ store.readers.toInt → store.readers.toInt = store.registered) ∧
      ∀ thread after, store.next (.resetPartition thread) = some after → store.registered = 0 := by
  have counted : Counted store := run.invariant Counted (fun _ => initial_counted)
    fun _ _ _ counted _ _ hd => counted.kept few hd
  refine ⟨fun hf => ?_, fun thread after hd => ?_⟩
  · have hs := count_le spins store.threads
    rcases counted with ⟨-, he⟩ | ⟨-, -, hhe⟩
    · exact he
    · omega
  · simp only [next] at hd
    split at hd
    · next hh => exact counted.unregistered (by rw [hh]; rfl)
    · cases hd

end

/-! ### Two threads -/

def demoStore : Store 2 := ⟨0, 1, [Partition.fresh], fun _ => ⟨false, .outside⟩⟩

def demoActions : List (Action 2) :=
  [.incrementReader 0, .decrementReader 0, .exchange 0 true, .incrementReader 1, .test 0 true,
    .bumpTag 0,
    .resetPartition 0, .release 0, .spin 1, .retry 1]

def demoEnd : Store 2 := ((circularDeltaStore 2).follow (fun _ _ => true) demoStore demoActions).get
    rfl

theorem run_counts_registered_phantom :
    (0 ≤ demoEnd.readers.toInt → demoEnd.readers.toInt = demoEnd.registered) ∧
      ∀ thread after, demoEnd.next (.resetPartition thread) = some after →
          demoEnd.registered = 0 := by
  have hs : (circularDeltaStore 2).Run (fun _ _ => True) [] demoStore :=
    .start ⟨rfl, rfl, fun _ => rfl⟩
  have hp : (circularDeltaStore 2).Path (fun _ _ => True) demoStore demoActions demoEnd :=
    Machine.Path.of_follow (fun _ _ _ => ⟨trivial, trivial⟩) (Option.eq_some_of_isSome rfl)
  exact run_counts_registered (by decide) (hs.extend hp)

end Proteus.Oltp.Gc.Readers
