/-
**The array index** (`oltp/include/oltp/index/hash-array.hpp`, `HashArray`, partitioned).

A key is split into the number of a partition and a slot of it by division. The number is kept in 16
bits before it is compared with the number of partitions, of which there are at most 255.

* `last_insert_iff` — the keys that are told apart.
-/

import Mathlib

namespace Proteus.Oltp

open List

structure HashArray (V : Type) where
  capacity_per_partition : Nat
  some_capacity : 1 ≤ capacity_per_partition
  partitions : Nat
  few : partitions < 2 ^ 8
  arr : Nat → Nat → V

namespace HashArray

variable {V : Type} (index : HashArray V)

def pid (key : Nat) : Nat := key / index.capacity_per_partition % 2 ^ 16

def idx (key : Nat) : Nat := key % index.capacity_per_partition

def find (key : Nat) : Option V :=
  if index.pid key < index.partitions ∧ index.idx key < index.capacity_per_partition then
    some (index.arr (index.pid key) (index.idx key))
  else none

def store (key : Nat) (value : V) : HashArray V :=
  { index with arr := fun pid idx => if pid = index.pid key ∧ idx = index.idx key then value else
      index.arr pid idx }

/-- A faulty key ends the program. -/
def insert (key : Nat) (value : V) : Option (HashArray V) :=
  if index.pid key < index.partitions ∧ index.idx key < index.capacity_per_partition then
    some (index.store key value)
  else none

def inserts (index : HashArray V) : List (Nat × V) → Option (HashArray V)
  | [] => some index
  | (key, value) :: rest => do inserts (← index.insert key value) rest

/-- The keys below the capacity. -/
def Held (key : Nat) : Prop := key < index.partitions * index.capacity_per_partition

instance (key : Nat) : Decidable (index.Held key) := inferInstanceAs (Decidable (_ < _))

/-- The number of the partition is not cut, or is too large all the same. -/
def Narrow (key : Nat) : Prop :=
  key / index.capacity_per_partition < 2 ^ 16 ∨
    index.partitions ≤ key / index.capacity_per_partition % 2 ^ 16

/-- The value inserted last, or what was there before. -/
def latest (entries : List (Nat × V)) (key : Nat) : V :=
  ((entries.reverse.find? (·.1 = key)).map Prod.snd).getD
    (index.arr (index.pid key) (index.idx key))

variable {index} {key : Nat} {entries es : List (Nat × V)} {after a : HashArray V}

theorem held_iff : index.Held key ↔ key / index.capacity_per_partition < index.partitions :=
  (Nat.div_lt_iff_lt_mul index.some_capacity).symm

/-- **Acceptance** is right for the keys that are narrow, and for no others. -/
theorem accepts_iff : (index.pid key < index.partitions ↔ index.Held key) ↔ index.Narrow key := by
  have few := index.few
  rw [held_iff, pid, Narrow]
  generalize key / index.capacity_per_partition = q
  omega

theorem find_eq (key : Nat) : index.find key =
    if index.pid key < index.partitions then some (index.arr (index.pid key) (index.idx key)) else
        none := by
  simp [find, idx, Nat.mod_lt _ index.some_capacity]

theorem find_isSome (key : Nat) : (index.find key).isSome ↔ index.pid key < index.partitions := by
  rw [find_eq]
  split <;> simp_all

theorem insert_eq (key : Nat) (v : V) : index.insert key v =
    if index.pid key < index.partitions then some (index.store key v) else none := by
  simp [insert, idx, Nat.mod_lt _ index.some_capacity]

theorem pid_eq_div (hh : index.Held key) : index.pid key = key / index.capacity_per_partition := by
  have few := index.few
  have low := held_iff.mp hh
  exact Nat.mod_eq_of_lt (by omega)

/-- **Slots** tell the keys apart. -/
theorem slot_inj {o : Nat} (hh : index.Held key) (ht : index.Held o) :
    index.pid key = index.pid o ∧ index.idx key = index.idx o ↔ key = o := by
  constructor
  · rintro ⟨hq, hr⟩
    rw [pid_eq_div hh, pid_eq_div ht] at hq
    rw [← Nat.div_add_mod key index.capacity_per_partition,
      ← Nat.div_add_mod o index.capacity_per_partition, hq]
    exact congrArg _ hr
  · rintro rfl
    exact ⟨rfl, rfl⟩

theorem latest_cons {o : Nat} {v : V} {tl : List (Nat × V)} (hh : index.Held key)
    (ht : index.Held o) : (index.store o v).latest tl key = index.latest ((o, v) :: tl) key := by
  have hsl : (index.store o v).arr (index.pid key) (index.idx key) =
      if key = o then v else index.arr (index.pid key) (index.idx key) :=
    if_congr (slot_inj hh ht) rfl rfl
  rw [latest, latest, reverse_cons, find?_append]
  cases tl.reverse.find? (·.1 = key) with
  | some e => rfl
  | none =>
    refine hsl.trans ?_
    by_cases hs : key = o
    · simp [hs]
    · simp [hs, Ne.symm hs]

/-- **A run of inserts.** -/
theorem inserts_find (hn : ∀ k ∈ es.map Prod.fst, index.Narrow k) (hhe : index.Held key)
    (ran : index.inserts es = some a) : a.find key = some (index.latest es key) := by
  induction es generalizing index with
  | nil =>
    cases ran
    have low := held_iff.mp hhe
    rw [find_eq, if_pos (by rwa [pid_eq_div hhe])]
    rfl
  | cons e tl ih =>
    obtain ⟨o, v⟩ := e
    obtain ⟨hh, hl⟩ := forall_mem_cons.mp hn
    obtain ⟨n, hi, ran⟩ := Option.bind_eq_some_iff.mp ran
    rw [insert_eq] at hi
    obtain ⟨ha, ⟨⟩⟩ := Option.ite_none_right_eq_some.mp hi
    rw [@ih (index.store o v) hl hhe ran, latest_cons hhe ((accepts_iff.mpr hh).mp ha)]

theorem inserts_config (ran : index.inserts es = some a)
    (key : Nat) : (a.find key).isSome ↔ (index.find key).isSome := by
  induction es generalizing index with
  | nil => cases ran; rfl
  | cons e tl ih =>
    obtain ⟨n, hi, ran⟩ := Option.bind_eq_some_iff.mp ran
    rw [insert_eq] at hi
    obtain ⟨-, ⟨⟩⟩ := Option.ite_none_right_eq_some.mp hi
    rw [ih ran, find_isSome, find_isSome]
    rfl

/-- **Keys never alias** exactly as long as those in use are narrow. -/
theorem last_insert_iff (index : HashArray V) (entries : List (Nat × V)) (key : Nat) :
    ((∀ k ∈ key :: entries.map Prod.fst,
        ((index.find k).isSome ↔ index.Held k) ∧ ∀ value, (index.insert k value).isSome ↔
          index.Held k) ∧
      ∀ after, index.inserts entries = some after →
        after.find key = if index.Held key then some (index.latest entries key) else none) ↔
    ∀ k ∈ key :: entries.map Prod.fst, index.Narrow k := by
  have hs (k : Nat) (value : V) : (index.insert k value).isSome ↔
      index.pid k < index.partitions := by
    rw [insert_eq]
    split <;> simp_all
  constructor
  · rintro ⟨ha, -⟩ k hm
    exact accepts_iff.mp ((find_isSome k).symm.trans (ha k hm).1)
  · intro hn
    have ha (k : Nat) (hm : k ∈ key :: entries.map Prod.fst) := accepts_iff.mpr (hn k hm)
    refine ⟨fun k hm =>
      ⟨(find_isSome k).trans (ha k hm), fun value => (hs k value).trans (ha k hm)⟩,
      fun after ran => ?_⟩
    split
    · rename_i hh
      exact inserts_find (fun k hm => hn k (mem_cons_of_mem _ hm)) hh ran
    · rename_i ho
      rw [← Option.not_isSome_iff_eq_none, inserts_config ran, find_isSome, ha key mem_cons_self]
      exact ho

/-- Key 65536 finds what was inserted for key 0. -/
theorem cut_key_found : let index : HashArray Nat := ⟨1, le_rfl, 1, by decide, fun _ _ => 0⟩
    ¬index.Held 65536 ∧ (index.inserts [(0, 7)]).bind (·.find 65536) = some 7 := by
  decide

end HashArray

end Proteus.Oltp
