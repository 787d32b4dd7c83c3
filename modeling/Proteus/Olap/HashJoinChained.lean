/-
**Building a hash join** (`PelagoJoin.scala`, `olap/lib/operators/hash-join-chained.cpp`).

The planner gives a join the size of its build arrays, from two figures of the metadata: the row
estimate and the maximum row count of the build side, both cut at 64Mi rows. `open_build` allocates
the arrays, one for each packet of the materialised values, and the generated code takes an index
off a shared counter for each row, exchanges the head of the row's bucket for it and stores the
packets at it. Workers do this side by side, each step of theirs being atomic.

The size is the mean of the maximum and of the smaller figure, not the maximum: an estimate below
the maximum makes the arrays shorter than the inputs the maximum admits. Only `close_build` compares
the counter with the size, when everything is stored.

* `le_capped_iff` — what a figure says about numbers of rows up to 64Mi.
* `Build.Counted.next` — an index is below the number of rows taken, whatever the workers do.
* `takes_rows` — the workers may take an index for every row before they store anything.
* `builds_inside_iff` — the build stays inside its arrays for all admitted inputs exactly when the
  estimate admits what the maximum admits.
-/

import Proteus.Library.Machine

namespace Proteus.Olap

open Library

/-! ### The planner's size -/

/-- A figure of the metadata, a `Double` that is not negative. -/
inductive RowCount where
  | finite (rows : ℚ≥0)
  | infinite
deriving DecidableEq

/-- 64Mi rows. -/
def mostRows : Nat := 64 * 1024 * 1024

def RowCount.capped : RowCount → Nat
  | finite rows => ⌊min rows (mostRows : ℚ≥0)⌋₊
  | infinite => mostRows

def PelagoJoin.rowEst (exprow : Option RowCount) : Nat :=
  (exprow.getD (.finite (10 ^ 20))).capped

def PelagoJoin.maxEst : Option RowCount → Nat
  | some maxrow => maxrow.capped
  | none => mostRows

def PelagoJoin.maxBuildInputSize (exprow maxrow : Option RowCount) : Nat :=
  (min (rowEst exprow) (maxEst maxrow) + maxEst maxrow) / 2

def RowCount.Admits : RowCount → Nat → Prop
  | finite rows, count => (count : ℚ≥0) ≤ rows
  | infinite, _ => True

/-- A missing figure says nothing. -/
def Admitted (figure : Option RowCount) (count : Nat) : Prop :=
  ∀ known ∈ figure, known.Admits count

section

open PelagoJoin

theorem le_capped_iff (f : RowCount) (c : Nat) : c ≤ f.capped ↔ f.Admits c ∧ c ≤ mostRows := by
  cases f with
  | finite r => rw [RowCount.capped, Nat.le_floor_iff zero_le, le_min_iff, Nat.cast_le,
      RowCount.Admits]
  | infinite => exact (and_iff_right trivial).symm

theorem le_maxEst_iff (m : Option RowCount) (c : Nat) :
    c ≤ maxEst m ↔ Admitted m c ∧ c ≤ mostRows := by
  cases m with
  | none => simp [maxEst, Admitted]
  | some m => simp [maxEst, Admitted, le_capped_iff]

theorem le_rowEst_iff (e : Option RowCount) (c : Nat) :
    c ≤ rowEst e ↔ Admitted e c ∧ c ≤ mostRows := by
  cases e with
  | none =>
    rw [rowEst, Option.getD_none, le_capped_iff]
    simp only [RowCount.Admits, Admitted, Option.not_mem_none, false_implies, implies_true,
      true_and,
      and_iff_right_iff_imp]
    intro few
    exact_mod_cast le_trans few (show mostRows ≤ 10 ^ 20 by decide)
  | some e => simp [rowEst, Admitted, le_capped_iff]

theorem maxEst_le_size_iff (e m : Option RowCount) :
    maxEst m ≤ maxBuildInputSize e m ↔ maxEst m ≤ rowEst e := by
  unfold maxBuildInputSize
  omega

end

/-! ### The build -/

section

variable {V : Type}

/-- A planned join; the first packet has the link and the key. -/
structure HashJoinChained where
  buildPacketWidths : List Nat
  hashBits : Nat
  maxBuildInputSize : Nat
  packets_ne : buildPacketWidths ≠ []

/-- The join with the size that the planner computes. -/
def HashJoinChained.planned (join : HashJoinChained) (exprow maxrow : Option RowCount) :
    HashJoinChained :=
  { join with maxBuildInputSize := PelagoJoin.maxBuildInputSize exprow maxrow }

/-- A row of the build side: the hash of its key, and what is materialised of it in each packet. -/
structure BuildRow (V : Type) where
  hash : Nat
  packet : Nat → V

structure Element (V : Type) where
  link : Option (BitVec 32)
  value : V

structure Table (V : Type) where
  head : List (BitVec 32)
  cnt : BitVec 32
  arrays : List (List (Option (Element V)))

structure Worker (V : Type) where
  row : BuildRow V
  index : BitVec 32
  oldHead : Option (BitVec 32)

/-- A build under way, with the rows that no worker has come to. -/
structure Build (V : Type) where
  table : Table V
  remaining : List (BuildRow V)
  workers : List (Worker V)

/-- `open_build` -/
def HashJoinChained.openBuild (join : HashJoinChained) : Table V where
  head := List.replicate (2 ^ join.hashBits) (BitVec.allOnes 32)
  cnt := 0
  arrays := join.buildPacketWidths.map fun _ => List.replicate join.maxBuildInputSize none

/-- A store at an index of an array, or outside of it. -/
def store (index : BitVec 32) (element : Element V) (array : List (Option (Element V))) :
    Option (List (Option (Element V))) :=
  if 0 ≤ index.toInt ∧ index.toInt < array.length then
    some (array.set index.toNat (some element)) else none

def storePackets (worker : Worker V) (packet : Nat) :
    List (List (Option (Element V))) → Option (List (List (Option (Element V))))
  | [] => some []
  | array :: rest => do
    let link := if packet = 0 then worker.oldHead else none
    let stored ← store worker.index ⟨link, worker.row.packet packet⟩ array
    let others ← storePackets worker (packet + 1) rest
    return stored :: others

/-- What a worker does next. -/
inductive BuildStep where
  | nextIndex (row : Nat)
  | replaceHead (worker : Nat)
  | storeRow (worker : Nat)

def Build.nextIndex (build : Build V) (row : BuildRow V) (position : Nat) : Build V where
  table := { build.table with cnt := build.table.cnt + 1 }
  remaining := build.remaining.eraseIdx position
  workers := build.workers ++ [⟨row, build.table.cnt, none⟩]

def Build.replaceHead (join : HashJoinChained) (build : Build V) (worker : Worker V)
    (position : Nat) :
    Option (Build V) := do
  let bucket := worker.row.hash % 2 ^ join.hashBits
  let oldHead ← build.table.head[bucket]?
  return { build with
    table := { build.table with head := build.table.head.set bucket worker.index }
    workers := build.workers.set position { worker with oldHead } }

def Build.storeRow (build : Build V) (worker : Worker V) (position : Nat) : Option (Build V) := do
  let arrays ← storePackets worker 0 build.table.arrays
  return { build with
    table := { build.table with arrays }, workers := build.workers.eraseIdx position }

def Build.next (join : HashJoinChained) (build : Build V) : BuildStep → Option (Build V)
  | .nextIndex position => do
    let row ← build.remaining[position]?
    return build.nextIndex row position
  | .replaceHead position => do
    let worker ← build.workers[position]?
    build.replaceHead join worker position
  | .storeRow position => do
    let worker ← build.workers[position]?
    build.storeRow worker position

/-- The workers of a build with a given input. -/
def HashJoinChained.build (join : HashJoinChained) (input : List (BuildRow V)) :
    Machine (Build V) BuildStep where
  Start state := state = ⟨join.openBuild, input, []⟩
  Enabled state step :=
    match step with
    | .nextIndex position => ∃ row, state.remaining[position]? = some row
    | .replaceHead position => ∃ worker, state.workers[position]? = some worker ∧
        worker.oldHead = none
    | .storeRow position => ∃ worker, state.workers[position]? = some worker ∧ worker.oldHead ≠ none
  next := Build.next join

/-- **The build stays inside its arrays**: every index is one of theirs, and no access misses
them. -/
def HashJoinChained.BuildsInside (join : HashJoinChained) (input : List (BuildRow V)) : Prop :=
  ∀ steps state, (join.build input).Run (fun _ _ => True) steps state →
    (∀ worker ∈ state.workers, worker.index.toNat < join.maxBuildInputSize) ∧
      ∀ step, (join.build input).Enabled state step → (state.next join step).isSome

end

/-! ### Indices are counted -/

variable {i : BitVec 32}

open List

section

variable {V : Type} {join jo : HashJoinChained} {input : List (BuildRow V)}

structure Build.Counted (join : HashJoinChained) (input : List (BuildRow V)) (build : Build V) :
    Prop where
  taken : build.table.cnt.toNat + build.remaining.length = input.length
  below : ∀ worker ∈ build.workers, worker.index.toNat < build.table.cnt.toNat
  buckets : build.table.head.length = 2 ^ join.hashBits
  room : ∀ array ∈ build.table.arrays, array.length = join.maxBuildInputSize

theorem toNat_succ (hs : i.toNat + 1 < 2 ^ 32) : (i + 1).toNat = i.toNat + 1 := by
  rw [BitVec.toNat_add]
  exact Nat.mod_eq_of_lt hs

theorem openBuild_counted : (⟨jo.openBuild, input, []⟩ : Build V).Counted jo input := by
  refine ⟨?_, ?_, ?_, ?_⟩
  · simp [HashJoinChained.openBuild]
  · simp
  · exact length_replicate
  · intro a hm
    obtain ⟨_, _, rfl⟩ := mem_map.mp hm
    exact length_replicate

theorem store_eq_some {x : Element V} {ar a : List (Option (Element V))}
    (hs : store i x ar = some a) :
    i.toNat < ar.length ∧ a = ar.set i.toNat (some x) := by
  unfold store at hs
  split_ifs at hs with hi
  refine ⟨?_, (Option.some.inj hs).symm⟩
  have hsi := BitVec.toInt_eq_toNat_cond i
  split_ifs at hsi <;> omega

theorem storePackets_room {w : Worker V} {p sz : Nat} {ars a : List (List (Option (Element V)))}
    (hr : ∀ ar ∈ ars, ar.length = sz) (hs : storePackets w p ars = some a) :
    ∀ ar ∈ a, ar.length = sz := by
  induction ars generalizing p a with
  | nil =>
    cases hs
    exact hr
  | cons ar tl ih =>
    simp only [storePackets, Option.bind_eq_bind, Option.bind_eq_some_iff, Option.pure_def,
      Option.some.injEq] at hs
    obtain ⟨f, first_stored, os, others_stored, rfl⟩ := hs
    rw [forall_mem_cons] at hr ⊢
    refine ⟨?_, ih hr.2 others_stored⟩
    rw [(store_eq_some first_stored).2, length_set]
    exact hr.1

/-- **The step lemma**: whatever a worker does, the indices stay counted. -/
theorem Build.Counted.next (hsh : input.length < 2 ^ 32) {b a : Build V} {s : BuildStep}
    (hc : b.Counted jo input) (hd : b.next jo s = some a) :
    a.Counted jo input := by
  cases s with
  | nextIndex p =>
    obtain ⟨r, hth, ht⟩ := Option.bind_eq_some_iff.mp hd
    cases ht
    obtain ⟨hi, -⟩ := List.getElem?_eq_some_iff.mp hth
    have hto := hc.taken
    have hbu : (b.table.cnt + 1).toNat = _ := toNat_succ (by omega)
    refine ⟨?_, ?_, hc.buckets, hc.room⟩
    · show (b.table.cnt + 1).toNat + (b.remaining.eraseIdx p).length = input.length
      rw [hbu, List.length_eraseIdx_of_lt hi]
      omega
    · intro w hm
      show w.index.toNat < (b.table.cnt + 1).toNat
      rw [hbu]
      rcases List.mem_append.mp hm with hb | new
      · exact Nat.lt_succ_of_lt (hc.below w hb)
      · rw [List.mem_singleton.mp new]
        exact Nat.lt_succ_self _
  | replaceHead p =>
    obtain ⟨w, hth, hr⟩ := Option.bind_eq_some_iff.mp hd
    obtain ⟨oh, -, set⟩ := Option.bind_eq_some_iff.mp hr
    cases set
    refine ⟨hc.taken, ?_, (List.length_set ..).trans hc.buckets, hc.room⟩
    intro o hm
    rcases List.mem_or_eq_of_mem_set hm with hb | rfl
    · exact hc.below o hb
    · exact hc.below w (List.mem_of_getElem? hth)
  | storeRow p =>
    obtain ⟨w, -, row_stored⟩ := Option.bind_eq_some_iff.mp hd
    obtain ⟨ars, hs, hf⟩ := Option.bind_eq_some_iff.mp row_stored
    cases hf
    exact ⟨hc.taken, fun o hm => hc.below o (List.mem_of_mem_eraseIdx hm),
      hc.buckets, storePackets_room hc.room hs⟩

/-- **The run lemma.** -/
theorem run_counted (hs : input.length < 2 ^ 32) {ss : List BuildStep} {s : Build V}
    (run : (jo.build input).Run (fun _ _ => True) ss s) : s.Counted jo input := by
  refine run.invariant (Build.Counted jo input) (fun st hi => ?_)
    fun _ _ _ hc _ _ hd => hc.next hs hd
  rw [show st = _ from hi]
  exact openBuild_counted

end

/-! ### The build stays inside -/

section

variable {V : Type} {j : HashJoinChained} {inp : List (BuildRow V)}

theorem store_isSome (x : Element V) {a : List (Option (Element V))}
    (hi : i.toNat < a.length) (hs : a.length ≤ 2 ^ 31) :
    (store i x a).isSome := by
  have hn : i.toInt = i.toNat := BitVec.toInt_eq_toNat_of_lt (by omega)
  unfold store
  rw [if_pos (by omega)]
  rfl

theorem storePackets_isSome {w : Worker V} (p : Nat) {ars : List (List (Option (Element V)))}
    (hi : ∀ a ∈ ars, w.index.toNat < a.length ∧ a.length ≤ 2 ^ 31) :
    (storePackets w p ars).isSome := by
  induction ars generalizing p with
  | nil => rfl
  | cons a tl ih =>
    rw [forall_mem_cons] at hi
    obtain ⟨s, hf⟩ := Option.isSome_iff_exists.mp (store_isSome
      ⟨if p = 0 then w.oldHead else none, w.row.packet p⟩ hi.1.1 hi.1.2)
    obtain ⟨os, hl⟩ := Option.isSome_iff_exists.mp (ih (p + 1) hi.2)
    simp [storePackets, hf, hl]

theorem buildsInside_of_room (hr : inp.length ≤ j.maxBuildInputSize)
    (hsm : j.maxBuildInputSize ≤ 2 ^ 31) : j.BuildsInside inp := by
  intro ss s run
  have hc := run_counted (by omega) run
  have hin : ∀ w ∈ s.workers, w.index.toNat < j.maxBuildInputSize := fun w hm => by
    have hb := hc.below w hm
    have hto := hc.taken
    omega
  refine ⟨hin, fun st he => ?_⟩
  cases st with
  | nextIndex p =>
    obtain ⟨r, ht⟩ := he
    simp [Build.next, ht]
  | replaceHead p =>
    obtain ⟨w, ht, -⟩ := he
    have hbu : w.row.hash % 2 ^ j.hashBits < s.table.head.length := by
      rw [hc.buckets]
      exact Nat.mod_lt _ (Nat.two_pow_pos _)
    simp [Build.next, ht, Build.replaceHead, getElem?_eq_getElem hbu]
  | storeRow p =>
    obtain ⟨w, ht, -⟩ := he
    have i := hin w (mem_of_getElem? ht)
    have hi : ∀ a ∈ s.table.arrays, w.index.toNat < a.length ∧ a.length ≤ 2 ^ 31 := fun a hm => by
        rw [hc.room a hm]
        exact ⟨i, hsm⟩
    obtain ⟨ars, hs⟩ := Option.isSome_iff_exists.mp (storePackets_isSome 0 hi)
    simp [Build.next, ht, Build.storeRow, hs]

variable {ro : Nat} (j : HashJoinChained) (r : BuildRow V) (short : ro < 2 ^ 32)

include short

/-- **An index for every row**: the workers may take them all before anything is stored. -/
theorem takes_rows : ∀ c ≤ ro, ∃ ss s, (j.build (replicate ro r)).Run (fun _ _ => True) ss s ∧
      s.remaining = replicate (ro - c) r ∧ s.table.cnt.toNat = c ∧
        (∀ b, c = b + 1 → ∃ w ∈ s.workers, w.index.toNat = b) := by
  intro c
  induction c with
  | zero =>
    intro _
    exact ⟨[], _, .start rfl, rfl, rfl, fun b hi => by omega⟩
  | succ c ih =>
    intro hen
    obtain ⟨ss, s, run, hr, cnt, -⟩ := ih (by omega)
    have ht : s.remaining[0]? = some r := by
      rw [hr, getElem?_replicate, if_pos (by omega)]
    have hd : (j.build (replicate ro r)).next s (.nextIndex 0) = some (s.nextIndex r 0) := by
      show s.next j (.nextIndex 0) = _
      simp [Build.next, ht]
    have he : (j.build (replicate ro r)).Enabled s (.nextIndex 0) := ⟨r, ht⟩
    refine ⟨_, _, .step run he trivial hd, ?_, ?_, ?_⟩
    · show s.remaining.eraseIdx 0 = _
      rw [hr, eraseIdx_zero, tail_replicate, Nat.sub_sub]
    · show (s.table.cnt + 1).toNat = c + 1
      rw [toNat_succ (by omega), cnt]
    · rintro b hs
      obtain rfl := Nat.succ.inj hs
      exact ⟨⟨r, s.table.cnt, none⟩, mem_append_right _ (mem_singleton_self _), cnt⟩

theorem not_buildsInside (hn : j.maxBuildInputSize < ro) : ¬ j.BuildsInside (replicate ro r) := by
  intro hi
  obtain ⟨ss, s, run, -, -, hl⟩ := takes_rows j r short ro le_rfl
  obtain ⟨w, hm, i⟩ := hl (ro - 1) (by omega)
  have hb := (hi ss s run).1 w hm
  omega

end

/-- **A planned build stays inside its arrays**, for every input of at most 64Mi rows that the
maximum admits, exactly when the estimate admits all those numbers of rows as well. -/
theorem builds_inside_iff {V : Type} [Inhabited V] (join : HashJoinChained) (exprow maxrow :
    Option RowCount) :
    (∀ input : List (BuildRow V), Admitted maxrow input.length → input.length ≤ mostRows →
      (join.planned exprow maxrow).BuildsInside input) ↔
    ∀ count ≤ mostRows, Admitted maxrow count → Admitted exprow count := by
  have hl := (le_maxEst_iff maxrow (PelagoJoin.maxEst maxrow)).mp le_rfl
  have size_small : PelagoJoin.maxBuildInputSize exprow maxrow ≤ mostRows := by
    unfold PelagoJoin.maxBuildInputSize
    omega
  refine ⟨fun hi count few ha => ?_, fun hc input ha few => ?_⟩
  · by_contra hm
    have hr := (le_maxEst_iff maxrow count).mpr ⟨ha, few⟩
    have hu := mt (le_rowEst_iff exprow count).mp fun hb => hm hb.1
    have hn := mt (maxEst_le_size_iff exprow maxrow).mp (by omega)
    have hli : mostRows < 2 ^ 32 := by decide
    refine not_buildsInside (join.planned exprow maxrow) (⟨0, fun _ => default⟩ : BuildRow V)
      (lt_of_le_of_lt hl.2 hli) (not_le.mp hn) (hi _ ?_ ?_)
    · rw [length_replicate]
      exact hl.1
    · rw [length_replicate]
      exact hl.2
  · have he := (le_rowEst_iff exprow (PelagoJoin.maxEst maxrow)).mpr ⟨hc _ hl.2 hl.1, hl.2⟩
    have hro := (maxEst_le_size_iff exprow maxrow).mpr he
    have hf := (le_maxEst_iff maxrow input.length).mpr ⟨ha, few⟩
    exact buildsInside_of_room (le_trans hf hro) (le_trans size_small (by decide))

theorem size_ten_hundred : PelagoJoin.maxBuildInputSize (some (.finite 10)) (some (.finite 100)) =
    55 := by
  have hc : ∀ c ≤ mostRows, (RowCount.finite (c : ℚ≥0)).capped = c := fun c few => by
    rw [RowCount.capped, min_eq_left (by exact_mod_cast few), Nat.floor_natCast]
  have ten := hc 10 (by decide)
  have hh := hc 100 (by decide)
  simp only [Nat.cast_ofNat] at ten hh
  simp [PelagoJoin.maxBuildInputSize, PelagoJoin.rowEst, PelagoJoin.maxEst, ten, hh]

def demoJoin : HashJoinChained := ⟨[64], 7, 0, by decide⟩

/-- A hundred rows, as the maximum admits, are too many. -/
theorem hundred_rows_outside : Admitted (some (.finite 100)) 100 ∧
      ¬ (demoJoin.planned (some (.finite 10)) (some (.finite 100))).BuildsInside
      (List.replicate 100 (⟨0, fun _ => 0⟩ : BuildRow Nat)) := by
  refine ⟨?_, not_buildsInside _ _ (by decide) ?_⟩
  · simp [Admitted, RowCount.Admits]
  · show PelagoJoin.maxBuildInputSize _ _ < 100
    rw [size_ten_hundred]
    decide

end Proteus.Olap
