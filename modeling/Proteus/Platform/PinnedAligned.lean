/-
**Aligned blocks** (`platform/lib/memory/memory-manager.cpp`, `mallocPinnedAligned` and
`freePinnedAligned`; `platform/memory/allocator.hpp`, `PinnedMemoryAllocator`).

Both put the address of the block that they asked for into the word before the pointer that they
return. The first makes room for it by going on to the next multiple of the alignment, which may be
less than a word away. The second adds the room to the request, in a sum that its test for overflow
does not bound.

* `aligned_inside_iff`, `allocate_safe_iff` — when the pointer, its bytes and the word are inside of
  the block.
-/

import Mathlib
import Proteus.Library.ByteMemory

namespace Proteus.Platform.PinnedAligned

open Library

/-- A block that `mallocPinned` returned. Its end is an address. -/
structure PinnedBlock where
  base : BitVec 64
  bytes : Nat
  nonnull : base ≠ 0
  fits : base.toNat + bytes < 2 ^ 64

structure Placed (block : PinnedBlock) (size align : Nat) (free : Memory → BitVec 64 → BitVec 64)
    (result : BitVec 64 × Memory) : Prop where
  aligned : align ∣ result.1.toNat
  word : block.base.toNat + 8 ≤ result.1.toNat
  bytes : result.1.toNat + size ≤ block.base.toNat + block.bytes
  back : ∀ later : Memory, (∀ place, result.1.toNat ≤ place + 8 → place < result.1.toNat →
    later place = result.2 place) → free later result.1 = block.base

/-! ### The memory manager -/

def mallocPinnedAligned (mallocPinned : BitVec 64 → BitVec 64) (memory : Memory)
    (size align : BitVec 64) :
    BitVec 64 × Memory :=
  let ptr := mallocPinned (size + align)
  if ptr = 0 then (0, memory)
  else
    let res := (ptr &&& ~~~(align - 1)) + align
    (res, memory.writeWord (res - 8).toNat ptr.toNat)

/-- `freePinnedAligned`: what it passes to `freePinned`. -/
def freePinnedAligned (memory : Memory) (ptr : BitVec 64) : BitVec 64 :=
    .ofNat 64 (memory.readWord (ptr - 8).toNat)

open BitVec

theorem and_not_eq_sub (x m : BitVec 64) : x &&& ~~~m = x - (x &&& m) := by
  have hd : (x &&& ~~~m) &&& (x &&& m) = 0 := by
    ext i
    simp
    grind
  refine eq_sub_of_add_eq ?_
  rw [add_eq_or_of_and_eq_zero _ _ hd]
  ext i
  simp
  grind

variable {k : Nat} {p : BitVec 64}

theorem toNat_clearLow (x : BitVec 64) (low : k < 64) :
    (x &&& ~~~(twoPow 64 k - 1)).toNat = x.toNat - x.toNat % 2 ^ k := by
  have hp := toNat_twoPow_of_lt low
  have hm : (twoPow 64 k - 1).toNat = 2 ^ k - 1 := by
    rw [toNat_sub_of_le, hp]
    · rfl
    · rw [le_def, hp]
      exact Nat.one_le_two_pow
  have hr : (x &&& (twoPow 64 k - 1)).toNat = x.toNat % 2 ^ k := by
    rw [toNat_and, hm, Nat.and_two_pow_sub_one_eq_mod]
  rw [and_not_eq_sub, toNat_sub_of_le, hr]
  rw [le_def, hr]
  exact Nat.mod_le ..

theorem toNat_sub_eight (hw : 8 ≤ p.toNat) : (p - 8).toNat = p.toNat - 8 := by
  rw [toNat_sub_of_le (by simpa [le_def] using hw)]
  rfl

/-- **The way back** is in the block if the word before the pointer is. -/
theorem placed_of {b : PinnedBlock} {sz a : Nat} {m : Memory} (ha : a ∣ p.toNat)
    (hw : b.base.toNat + 8 ≤ p.toNat) (hb : p.toNat + sz ≤ b.base.toNat + b.bytes) :
    Placed b sz a freePinnedAligned (p, m.writeWord (p - 8).toNat b.base.toNat) := by
  have ht := toNat_sub_eight (p := p) (by omega)
  refine ⟨ha, hw, hb, fun l hs => ?_⟩
  dsimp only at hs ⊢
  rw [freePinnedAligned, Memory.readWord_congr (fun pl low hh => hs pl (by omega) (by omega)),
    Memory.readWord_writeWord _ _ b.base.isLt, ofNat_toNat, setWidth_eq]

/-- **Aligned allocation** stays inside of its block exactly if the alignment is that of a word at
least. -/
theorem aligned_inside_iff (mallocPinned : BitVec 64 → BitVec 64) (memory : Memory)
    (size : BitVec 64) {k : Nat}
    (power : k < 64) (block : PinnedBlock)
    (returns : mallocPinned (size + .twoPow 64 k) = block.base)
    (aligned : 16 ∣ block.base.toNat) (room : size.toNat + 2 ^ k ≤ block.bytes) :
    Placed block size.toNat (2 ^ k) freePinnedAligned
      (mallocPinnedAligned mallocPinned memory size (.twoPow 64 k)) ↔ 8 ≤ 2 ^ k := by
  have hf := block.fits
  have hc := toNat_clearLow block.base power
  have hr := Nat.mod_lt block.base.toNat (Nat.two_pow_pos k)
  have hp : ((block.base &&& ~~~(twoPow 64 k - 1)) + twoPow 64 k).toNat =
      block.base.toNat - block.base.toNat % 2 ^ k + 2 ^ k := by
    rw [toNat_add_of_lt, hc, toNat_twoPow_of_lt power]
    rw [hc, toNat_twoPow_of_lt power]
    omega
  have hd : 2 ^ k ∣ block.base.toNat - block.base.toNat % 2 ^ k + 2 ^ k :=
    (Nat.dvd_sub_mod _).add dvd_rfl
  simp only [mallocPinnedAligned, returns, if_neg block.nonnull]
  constructor
  · rintro ⟨-, hw, -, -⟩
    rw [hp] at hw
    omega
  · intro hwi
    have he : 8 ∣ 2 ^ k := by
      rw [show 8 = 2 ^ 3 from rfl] at hwi ⊢
      exact Nat.pow_dvd_pow 2 ((Nat.pow_le_pow_iff_right (by decide)).mp hwi)
    have hs : 8 ∣ block.base.toNat % 2 ^ k := (Nat.dvd_mod_iff he).mpr (by omega)
    exact placed_of (hp ▸ hd) (by omega) (by omega)

theorem aligned_inside_sixteen : Placed ⟨4096, 116, by decide, by decide⟩ 100
    (2 ^ 4) freePinnedAligned
      (mallocPinnedAligned (fun _ => 4096) (fun _ => 0) 100 (.twoPow 64 4)) :=
  (aligned_inside_iff (fun _ => 4096) (fun _ => 0) 100 (by decide) ⟨4096, 116, by decide, by
    decide⟩ rfl (by decide)
    (by decide)).mpr (by decide)

/-- At alignment 1, the word before the pointer begins before the block. -/
theorem byte_aligned_outside : ¬Placed ⟨4096, 101, by decide, by decide⟩ 100 1 freePinnedAligned
      (mallocPinnedAligned (fun _ => 4096) (fun _ => 0) 100 1) :=
  fun hp => absurd hp.word (by decide +kernel)

/-! ### The allocator -/

inductive BadAlloc
  | bad_alloc

def stdAlign (alignment size ptr space : Nat) : BitVec 64 :=
  let next := (ptr + (alignment - 1)) / alignment * alignment
  if next - ptr + size ≤ space then .ofNat 64 next else 0

section

variable (mallocPinned : BitVec 64 → BitVec 64) (memory : Memory) (sizeof alignof n : BitVec 64)

def requiredAlignment : BitVec 64 := if alignof < 8 then 8 else alignof

def tooMany : Prop := (BitVec.allOnes 64 - 8 - sizeof) / sizeof < n

instance : Decidable (tooMany sizeof n) := inferInstanceAs (Decidable (_ < _))

/-- The size that `allocate` asks `mallocPinned` for. -/
def requested : BitVec 64 := (requiredAlignment alignof - 1) + n * sizeof + 8

def allocate : Except BadAlloc (BitVec 64 × Memory) :=
  if tooMany sizeof n then .error .bad_alloc
  else
    let sz := requested sizeof alignof n
    let allocBase := mallocPinned sz
    let aligned_ptr := stdAlign (requiredAlignment alignof).toNat (n * sizeof).toNat
      (allocBase + 8).toNat
      (sz - 8).toNat
    .ok (aligned_ptr, memory.writeWord (aligned_ptr - 8).toNat allocBase.toNat)

end

/-- `deallocate`: what it passes to `freePinned`. -/
def deallocate (memory : Memory) (mem : BitVec 64) : BitVec 64 := freePinnedAligned memory mem

theorem toNat_requiredAlignment (hp : k < 64) :
    (requiredAlignment (.twoPow 64 k)).toNat = 2 ^ max k 3 := by
  have hv := toNat_twoPow_of_lt hp
  have hs : twoPow 64 k < 8 ↔ 2 ^ k < 2 ^ 3 := by rw [lt_def, hv]; rfl
  rw [Nat.pow_lt_pow_iff_right (by decide)] at hs
  by_cases low : k < 3
  · rw [requiredAlignment, if_pos (hs.mpr low), max_eq_right low.le]
    rfl
  · rw [requiredAlignment, if_neg (low ∘ hs.mp), max_eq_left (Nat.le_of_not_lt low), hv]

/-- **The test** bounds the bytes of the elements, but nothing else of the sum. -/
theorem elements_fit {s n : BitVec 64} (few : ¬tooMany s n) : n.toNat * s.toNat < 2 ^ 64 := by
  have hq := BitVec.not_lt.mp few
  rw [BitVec.le_def, BitVec.toNat_udiv] at hq
  exact ((Nat.mul_le_mul_right _ hq).trans (Nat.div_mul_le_self ..)).trans_lt (BitVec.isLt _)

theorem toNat_elements {s n : BitVec 64} (few : ¬tooMany s n) :
    (n * s).toNat = n.toNat * s.toNat := by
  rw [toNat_mul, Nat.mod_eq_of_lt (elements_fit few)]

theorem toNat_requested {s n : BitVec 64} (hpo : k < 64) (few : ¬tooMany s n) :
    (requested s (.twoPow 64 k) n).toNat = (2 ^ max k 3 + n.toNat * s.toNat + 7) % 2 ^ 64 := by
  have hp := Nat.two_pow_pos (max k 3)
  have hr := toNat_requiredAlignment hpo
  have one : (requiredAlignment (.twoPow 64 k) - 1).toNat = 2 ^ max k 3 - 1 := by
    rw [toNat_sub_of_le, hr]
    · rfl
    · rw [le_def, hr]
      exact hp
  rw [requested, toNat_add, toNat_add, one, toNat_elements few, Nat.mod_add_mod]
  congr 1
  change 2 ^ max k 3 - 1 + _ + 8 = _
  omega

theorem stdAlign_eq {al sz ptr s : Nat} (hp : 0 < al)
    (hr : al - 1 + sz ≤ s) (hf : ptr + s < 2 ^ 64) :
    al ∣ (stdAlign al sz ptr s).toNat ∧ ptr ≤ (stdAlign al sz ptr s).toNat ∧
      (stdAlign al sz ptr s).toNat + sz ≤ ptr + s := by
  have hw := Nat.div_mul_le_self (ptr + (al - 1)) al
  have hn := Nat.lt_div_mul_add (a := ptr + (al - 1)) hp
  rw [stdAlign, if_pos (by omega), toNat_ofNat, Nat.mod_eq_of_lt (by omega)]
  exact ⟨Nat.dvd_mul_left .., by omega, by omega⟩

/-- **The allocator** keeps to the blocks that it asks for exactly if it throws or the whole sum is
below `2 ^ 64`. -/
theorem allocate_safe_iff (memory : Memory) (sizeof n : BitVec 64) {k : Nat} (power : k < 64) :
    (∀ (mallocPinned : BitVec 64 → BitVec 64) (block : PinnedBlock),
      mallocPinned (requested sizeof (.twoPow 64 k) n) = block.base →
      (requested sizeof (.twoPow 64 k) n).toNat ≤ block.bytes →
      ∀ result, allocate mallocPinned memory sizeof (.twoPow 64 k) n = .ok result →
        Placed block (n.toNat * sizeof.toNat) (2 ^ k) deallocate result) ↔
    tooMany sizeof n ∨ n.toNat * sizeof.toNat + max (2 ^ k) 8 + 7 < 2 ^ 64 := by
  have hl : max (2 ^ k) 8 = 2 ^ max k 3 :=
    ((pow_right_monotone (a := 2) (by decide)).map_max (a := k) (b := 3)).symm
  have hbo : 2 ^ max k 3 ≤ 2 ^ 63 := Nat.pow_le_pow_right (by decide) (by omega)
  rw [hl]
  by_cases few : tooMany sizeof n
  · simp [few, allocate]
  rw [or_iff_right few]
  have had := toNat_requested power few
  have he := elements_fit few
  constructor
  · intro hsa
    by_contra hwr
    -- the sum wraps once, and what is left of it is less than the elements
    have hs : (requested sizeof (.twoPow 64 k) n).toNat + 2 ^ 64 =
        2 ^ max k 3 + n.toNat * sizeof.toNat + 7 := by
      rw [had]
      omega
    have hp := hsa (fun _ => 16) ⟨16, (requested sizeof (.twoPow 64 k) n).toNat, by decide,
      by change 16 + _ < _; omega⟩ rfl le_rfl _ (if_neg few)
    have hwo := hp.word
    have bytes := hp.bytes
    dsimp only at hwo bytes
    omega
  · intro hw mallocPinned block hre hr result hal
    simp only [allocate, if_neg few, hre, toNat_requiredAlignment power, toNat_elements few] at hal
    rw [Nat.mod_eq_of_lt (by omega)] at had
    have hf := block.fits
    have hpa : (block.base + 8).toNat = block.base.toNat + 8 := toNat_add_of_lt (by
      change block.base.toNat + 8 < _
      omega)
    have hsp : (requested sizeof (.twoPow 64 k) n - 8).toNat = 2 ^ max k 3 + n.toNat *
        sizeof.toNat - 1 := by
      rw [toNat_sub_eight (by omega), had]
      omega
    obtain ⟨hd, ha, hb⟩ := @stdAlign_eq (2 ^ max k 3) (n.toNat * sizeof.toNat)
      (block.base + 8).toNat
      (requested sizeof (.twoPow 64 k) n - 8).toNat (Nat.two_pow_pos _) (by omega) (by omega)
    cases hal
    exact placed_of ((Nat.pow_dvd_pow 2 (le_max_left ..)).trans hd) (by omega) (by omega)

theorem allocate_ten_words : Placed ⟨4096, 95, by decide, by decide⟩ 80 (2 ^ 3) deallocate
        (4104, Memory.writeWord (fun _ => 0) 4096 4096) :=
  (allocate_safe_iff (fun _ => 0) 8 10 (k := 3) (by decide)).mpr (.inr (by decide)) (fun _ => 4096)
    ⟨4096, 95, by decide, by decide⟩ rfl (by decide +kernel) _ rfl

/-- Nearly `2 ^ 64` single bytes pass the test, and five are asked for. -/
theorem bytes_wrap : ¬tooMany 1 (-10) ∧ requested 1 1 (-10) = 5 ∧
      ∀ result, allocate (fun _ => 16) (fun _ => 0) 1 1 (-10) = .ok result →
        ¬Placed ⟨16, 5, by decide, by decide⟩ (2 ^ 64 - 10) 1 deallocate result := by
  refine ⟨by decide +kernel, by decide +kernel, fun result _ hp => ?_⟩
  have hw := hp.word
  have hb := hp.bytes
  dsimp only at hw hb
  omega

end Proteus.Platform.PinnedAligned
