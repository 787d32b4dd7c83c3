/-
**The bit set** (`platform/util/atomic_bit_set.hpp`, `AtomicBitSet<N>`).

Bits are kept in blocks of 64, as many as `N / 64`. An operation on a bit touches one block, by a
mask; `count`, `any`, `all` and the `reset` of everything go through the blocks. `none` is an access
outside of `data_`.

* `refines_iff` — the operations are those of a set of numbers below `N` exactly if `N` is a
  multiple of 64.
-/

import Mathlib

namespace Proteus.Platform

abbrev BlockType := BitVec 64

structure AtomicBitSet (N : Nat) where
  data_ : List BlockType
  blocks : data_.length = N / 64

namespace AtomicBitSet

open List

/-- The static assertion on `N`. -/
def Accepted (N : Nat) : Prop := N / 64 % 8 = 0

inductive Operation
  | set (idx : Nat)
  | reset (idx : Nat)
  | setTo (idx : Nat) (value : Bool)
  | test (idx : Nat)
  | count
  | any
  | all
  | resetAll

def Operation.Below (N : Nat) : Operation → Prop
  | set idx | reset idx | setTo idx _ | test idx => idx < N
  | count | any | all | resetAll => True

inductive Result
  | bool (value : Bool)
  | size (value : Nat)
  | done
  deriving DecidableEq

variable {N : Nat}

def empty (N : Nat) : AtomicBitSet N := ⟨replicate (N / 64) 0, length_replicate⟩

def mask (idx : Nat) : BlockType := BitVec.twoPow 64 (idx % 64)

/-- `__builtin_popcountl`. -/
def popcount (block : BlockType) : Nat := Nat.count (block.getLsbD · = true) 64

def fetch (bits : AtomicBitSet N) (idx : Nat) (update : BlockType → BlockType) :
    Option (Result × AtomicBitSet N) :=
  bits.data_[idx / 64]?.map fun block =>
    (.bool (block &&& mask idx != 0),
      ⟨bits.data_.set (idx / 64) (update block), length_set.trans bits.blocks⟩)

def set (bits : AtomicBitSet N) (idx : Nat) : Option (Result × AtomicBitSet N) :=
  bits.fetch idx (· ||| mask idx)

def reset (bits : AtomicBitSet N) (idx : Nat) : Option (Result × AtomicBitSet N) :=
  bits.fetch idx (· &&& ~~~mask idx)

def test (bits : AtomicBitSet N) (idx : Nat) : Option (Result × AtomicBitSet N) :=
  bits.data_[idx / 64]?.map fun block => (.bool (block &&& mask idx != 0), bits)

def apply (bits : AtomicBitSet N) : Operation → Option (Result × AtomicBitSet N)
  | .set idx => bits.set idx
  | .reset idx => bits.reset idx
  | .setTo idx value => if value then bits.set idx else bits.reset idx
  | .test idx => bits.test idx
  | .count => some (.size (bits.data_.map popcount).sum, bits)
  | .any => some (.bool (bits.data_.any (0 < popcount ·)), bits)
  | .all => some (.bool (bits.data_.all (· = BitVec.allOnes 64)), bits)
  | .resetAll => some (.done, ⟨bits.data_.map fun _ => 0, (length_map _).trans bits.blocks⟩)

/-- The results of a sequence of operations. -/
def run (bits : AtomicBitSet N) : List Operation → Option (List Result)
  | [] => some []
  | operation :: rest => do
    let (result, next) ← bits.apply operation
    return result :: (← run next rest)

/-! ### Sets of numbers -/

def applyNumbers (N : Nat) (numbers : Finset Nat) : Operation → Result × Finset Nat
  | .set idx => (.bool (idx ∈ numbers), insert idx numbers)
  | .reset idx => (.bool (idx ∈ numbers), numbers.erase idx)
  | .setTo idx value => (.bool (idx ∈ numbers), if value then insert idx numbers else
      numbers.erase idx)
  | .test idx => (.bool (idx ∈ numbers), numbers)
  | .count => (.size numbers.card, numbers)
  | .any => (.bool numbers.Nonempty, numbers)
  | .all => (.bool (numbers = .range N), numbers)
  | .resetAll => (.done, ∅)

def runNumbers (N : Nat) (numbers : Finset Nat) : List Operation → List Result
  | [] => []
  | operation :: rest => (applyNumbers N numbers operation).1 :: runNumbers N
      (applyNumbers N numbers operation).2 rest

/-! ### Bits -/

def bit (data : List BlockType) (i : Nat) : Bool := (data.getD (i / 64) 0).getLsbD (i % 64)

def members (bits : AtomicBitSet N) : Finset Nat := {i ∈ .range N | bit bits.data_ i = true}

open Nat

theorem forall_bit (d : List BlockType) (p : Bool → Prop) :
    (∀ i < 64 * d.length, p (bit d i)) ↔ ∀ b ∈ d, ∀ j < 64, p (b.getLsbD j) := by
  constructor
  · intro hbi b hm j low
    obtain ⟨index, hs, rfl⟩ := mem_iff_getElem.mp hm
    have ht := hbi (64 * index + j) (by omega)
    rwa [bit, show (64 * index + j) / 64 = index by omega, show (64 * index + j) % 64 = j by omega,
      getD_eq_getElem _ _ hs] at ht
  · intro hb i low
    have hs : i / 64 < d.length := by omega
    rw [bit, getD_eq_getElem _ _ hs]
    exact hb _ (getElem_mem hs) _ (mod_lt _ (by decide))

theorem count_bit (d : List BlockType) :
    count (bit d · = true) (64 * d.length) = (d.map popcount).sum := by
  induction d with
  | nil => simp
  | cons b tl ih =>
    have hf : count (bit (b :: tl) · = true) 64 = popcount b := by
      simp only [popcount, count_eq_card_filter_range]
      refine congrArg _ (Finset.filter_congr fun i low => ?_)
      have low := Finset.mem_range.mp low
      rw [bit, div_eq_of_lt low, mod_eq_of_lt low, getD_cons_zero]
    have hb (k : Nat) : bit (b :: tl) (64 + k) = bit tl k := by
      simp [bit]
    rw [length_cons, mul_succ, add_comm, count_add, hf, map_cons, sum_cons, ← ih]
    simp only [hb]

variable {idx : Nat}

theorem bit_set {d : List BlockType} {i : Nat} {b : BlockType} (hs : idx / 64 < d.length) :
    bit (d.set (idx / 64) b) i = if i / 64 = idx / 64 then b.getLsbD (i % 64) else bit d i := by
  grind [bit]

theorem mask_bit (b : BlockType) (idx : Nat) : (b &&& mask idx != 0) = b.getLsbD (idx % 64) := by
  have hp : BitVec.twoPow 64 (idx % 64) ≠ 0#64 := by
    intro hz
    have hv := congrArg BitVec.toNat hz
    rw [BitVec.toNat_twoPow_of_lt (Nat.mod_lt _ (by decide))] at hv
    exact (Nat.two_pow_pos _).ne' hv
  rw [mask, BitVec.and_twoPow]
  cases b.getLsbD (idx % 64) <;> simp [hp]

theorem mem_members {b : AtomicBitSet N} {i : Nat} : i ∈ b.members ↔ i < N ∧
    bit b.data_ i = true := by
  simp [members]

/-! ### Refinement -/

section

variable (whole : 64 ∣ N) (bi : AtomicBitSet N)

include whole

theorem covered : 64 * bi.data_.length = N := by
  rw [bi.blocks, Nat.mul_div_cancel' whole]

/-- **The mask** of a number finds it. -/
theorem getElem?_block (low : idx < N) : ∃ b, bi.data_[idx / 64]? = some b ∧
      (∀ i, i / 64 = idx / 64 → bit bi.data_ i = b.getLsbD (i % 64)) ∧
      (b &&& mask idx != 0) = decide (idx ∈ bi.members) := by
  have whole := covered whole bi
  have hsh : idx / 64 < bi.data_.length := by omega
  have ht (i : Nat) (hs : i / 64 = idx / 64) : bit bi.data_ i = bi.data_[idx / 64].getLsbD
      (i % 64) := by
    rw [bit, hs, getD_eq_getElem _ _ hsh]
  refine ⟨_, getElem?_eq_getElem hsh, ht, ?_⟩
  rw [mask_bit, ← ht idx rfl]
  simp [mem_members, low]

/-- **One bit** changes in its block. -/
theorem fetch_eq (low : idx < N) (u : BlockType → BlockType) (v : Bool)
    (hu : ∀ b : BlockType, ∀ j < 64, (u b).getLsbD j = if j = idx % 64 then v else b.getLsbD j) :
    ∃ n, bi.fetch idx u = some (.bool (idx ∈ bi.members), n) ∧
      ∀ i, i ∈ n.members ↔ if i = idx then v else i ∈ bi.members := by
  obtain ⟨b, hf, ht, hm⟩ := getElem?_block whole bi low
  obtain ⟨hsh, -⟩ := List.getElem?_eq_some_iff.mp hf
  refine ⟨_, by rw [fetch, hf, Option.map_some, hm], fun i => ?_⟩
  rw [mem_members, bit_set hsh, hu _ _ (mod_lt _ (by decide))]
  by_cases hs : i / 64 = idx / 64
  · have iff : i % 64 = idx % 64 ↔ i = idx := by omega
    by_cases he : i = idx
    · subst he
      simp [low]
    · simp [hs, iff, he, mem_members, ht i hs]
  · have ho : i ≠ idx := fun he => hs (he ▸ rfl)
    simp [hs, ho, mem_members]

theorem any_eq : bi.data_.any (0 < popcount ·) = decide bi.members.Nonempty := by
  have hn := forall_bit bi.data_ (· = false)
  rw [covered whole] at hn
  have hz (b : BlockType) : ¬0 < popcount b ↔ ∀ j < 64, b.getLsbD j = false := by
    rw [not_lt, le_zero, popcount, count_iff_forall_not]
    simp only [Bool.not_eq_true]
  rw [Bool.eq_iff_iff, decide_eq_true_iff, ← not_iff_not, Finset.not_nonempty_iff_eq_empty,
    any_eq_true,
    Finset.eq_empty_iff_forall_notMem]
  simp only [mem_members, not_exists, not_and, decide_eq_true_iff, Bool.not_eq_true, hn, hz]

theorem all_eq : bi.data_.all (· = BitVec.allOnes 64) = decide (bi.members = .range N) := by
  have all := forall_bit bi.data_ (· = true)
  rw [covered whole] at all
  rw [Bool.eq_iff_iff, decide_eq_true_iff, all_eq_true, members, Finset.filter_eq_self]
  simp only [Finset.mem_range, all]
  refine forall₂_congr fun b _ => ?_
  rw [decide_eq_true_iff]
  constructor
  · rintro rfl j low
    rw [BitVec.getLsbD_allOnes, decide_eq_true low]
  · intro ho
    refine BitVec.eq_of_getLsbD_eq fun j low => ?_
    rw [ho j low, BitVec.getLsbD_allOnes, decide_eq_true low]

theorem apply_refines {o : Operation} (hb : o.Below N) :
    ∃ n, bi.apply o = some ((applyNumbers N bi.members o).1, n) ∧
      n.members = (applyNumbers N bi.members o).2 := by
  have hse (idx : Nat) (low : idx < N) : ∃ n, bi.set idx = some (.bool (idx ∈ bi.members), n) ∧
      n.members = insert idx bi.members := by
    obtain ⟨n, hfe, ha⟩ := fetch_eq whole bi low (· ||| mask idx) true
      (by intro b j hs; grind [mask])
    exact ⟨n, hfe, by ext i; grind⟩
  have hr (idx : Nat) (low : idx < N) : ∃ n, bi.reset idx = some (.bool (idx ∈ bi.members), n) ∧
      n.members = bi.members.erase idx := by
    obtain ⟨n, hfe, ha⟩ := fetch_eq whole bi low (· &&& ~~~mask idx) false
      (by intro b j hs; grind [mask])
    exact ⟨n, hfe, by ext i; grind⟩
  cases o with
  | set idx => exact hse idx hb
  | reset idx => exact hr idx hb
  | setTo idx v => cases v; exacts [hr idx hb, hse idx hb]
  | test idx =>
    obtain ⟨b, hf, -, hm⟩ := getElem?_block whole bi hb
    exact ⟨bi, by rw [apply, test, hf, Option.map_some, hm]; rfl, rfl⟩
  | count =>
    refine ⟨bi, ?_, rfl⟩
    rw [apply, ← count_bit, covered whole, count_eq_card_filter_range]
    rfl
  | any => exact ⟨bi, by rw [apply, any_eq whole]; rfl, rfl⟩
  | all => exact ⟨bi, by rw [apply, all_eq whole]; rfl, rfl⟩
  | resetAll =>
    refine ⟨_, rfl, Finset.filter_eq_empty_iff.mpr fun i _ => ?_⟩
    simp [bit]

/-- **Every sequence of operations** on numbers below `N`. -/
theorem run_refines {os : List Operation} (hb : ∀ op ∈ os, op.Below N) :
    bi.run os = some (runNumbers N bi.members os) := by
  induction os generalizing bi with
  | nil => rfl
  | cons op tl ih =>
    obtain ⟨n, hap, ha⟩ := apply_refines whole bi (hb _ mem_cons_self)
    rw [run, hap, runNumbers, ← ha]
    simp [ih n fun o hm => hb o (mem_cons_of_mem _ hm)]

end

theorem members_empty : (empty N).members = ∅ := by
  refine Finset.filter_eq_empty_iff.mpr fun i _ => ?_
  simp [bit, empty]

/-- **The bit set is a set of numbers** below `N` exactly if there is a block for every one of
them. -/
theorem refines_iff (N : Nat) :
    (∀ operations : List Operation, (∀ operation ∈ operations, operation.Below N) →
      (empty N).run operations = some (runNumbers N ∅ operations)) ↔ 64 ∣ N := by
  constructor
  · intro hr
    by_contra hp
    -- the last number has its bit in the block after the last
    have hl := hr [.set (N - 1)] (by simp [Operation.Below]; omega)
    have ho : (empty N).data_[(N - 1) / 64]? = none :=
      getElem?_eq_none (by simp only [empty, length_replicate]; omega)
    simp [run, apply, set, fetch, ho] at hl
  · intro hw operations hb
    rw [run_refines hw _ hb, members_empty]

/-- A set of 32 bits compiles, and has no block. -/
theorem half_block_outside : Accepted 32 ∧ (empty 32).run [.set 5] = none :=
  ⟨rfl, rfl⟩

end AtomicBitSet

end Proteus.Platform
