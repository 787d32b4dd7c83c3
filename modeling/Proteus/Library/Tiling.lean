/-
**Cutting a range into parts.**

`Tiles lo spans hi` says that spans follow each other from `lo` to `hi` without a gap. `cut` takes
parts of one size off a range until nothing is left, and `roundedPart` is the size of a part when a
range is divided among some takers in whole units.

* `Tiles.pairwise`, `Tiles.covers` — tiles are disjoint, and every point is in one.
* `Tiles.append`, `Tiles.move` — tilings are put one behind the other, and scaled.
* `cut_tiles` — what `cut` returns is a tiling; `le_roundedPart_mul`, that it misses nothing.
-/

import Mathlib

namespace Proteus.Library

open List

structure Span where
  offset : Nat
  size : Nat
deriving DecidableEq, Repr

def Span.move (factor offset : Nat) (span : Span) : Span :=
  ⟨span.offset * factor + offset, span.size * factor⟩

def Tiles : Nat → List Span → Nat → Prop
  | lo, [], hi => lo = hi
  | lo, span :: rest, hi => span.offset = lo ∧ Tiles (lo + span.size) rest hi

section

variable {lo mid hi : Nat} {ss m : List Span}

theorem Tiles.append (hf : Tiles lo ss mid) (hs : Tiles mid m hi) : Tiles lo (ss ++ m) hi := by
  induction ss generalizing lo with
  | nil =>
    obtain rfl : lo = mid := hf
    exact hs
  | cons s tl ih => exact ⟨hf.1, ih hf.2⟩

variable (tiles : Tiles lo ss hi)

include tiles

theorem Tiles.move (f o : Nat) : Tiles (lo * f + o) (ss.map (Span.move f o)) (hi * f + o) := by
  induction ss generalizing lo with
  | nil =>
    obtain rfl : lo = hi := tiles
    rfl
  | cons s tl ih =>
    obtain ⟨rfl, tiles⟩ := tiles
    refine ⟨rfl, ?_⟩
    have hn := ih tiles
    rwa [add_mul, add_right_comm] at hn

theorem Tiles.le : lo ≤ hi := by
  induction ss generalizing lo with
  | nil => exact le_of_eq tiles
  | cons s tl ih => exact le_trans (Nat.le_add_right ..) (ih tiles.2)

theorem Tiles.within {s : Span} (hm : s ∈ ss) : lo ≤ s.offset ∧ s.offset + s.size ≤ hi := by
  induction ss generalizing lo with
  | nil => cases hm
  | cons f tl ih =>
    obtain ⟨rfl, tiles⟩ := tiles
    rcases mem_cons.mp hm with rfl | hl
    · exact ⟨le_rfl, tiles.le⟩
    · obtain ⟨hb, ha⟩ := ih tiles hl
      exact ⟨le_trans (Nat.le_add_right ..) hb, ha⟩

/-- **Tiles are disjoint.** -/
theorem Tiles.pairwise : ss.Pairwise fun f s => f.offset + f.size ≤ s.offset := by
  induction ss generalizing lo with
  | nil => exact .nil
  | cons sp tl ih =>
    obtain ⟨rfl, tiles⟩ := tiles
    exact pairwise_cons.mpr ⟨fun o hm => (tiles.within hm).1, ih tiles⟩

/-- **Tiles cover** what is between their ends. -/
theorem Tiles.covers (p : Nat) :
    (∃ s ∈ ss, s.offset ≤ p ∧ p < s.offset + s.size) ↔ lo ≤ p ∧ p < hi := by
  induction ss generalizing lo with
  | nil =>
    obtain rfl : lo = hi := tiles
    simp only [not_mem_nil, false_and, exists_false, false_iff]
    omega
  | cons s tl ih =>
    obtain ⟨rfl, tiles⟩ := tiles
    have hr := tiles.le
    rw [exists_mem_cons_iff, ih tiles]
    omega

end

/-! ### Parts of one size -/

def cut (part total count : Nat) : List Span :=
  (List.range count).filterMap fun index =>
    if part * index < total then some ⟨part * index, min part (total - part * index)⟩ else none

def roundedPart (unit total count : Nat) : Nat :=
  ((total + unit - 1) / unit + count - 1) / count * unit

theorem cut_succ (p t c : Nat) : cut p t (c + 1) = cut p t c ++
    if p * c < t then [⟨p * c, min p (t - p * c)⟩] else [] := by
  rw [cut, range_succ, filterMap_append]
  split_ifs with hi <;> simp [cut, hi]

theorem cut_nothing (p c : Nat) : cut p 0 c = [] := by
  simp [cut]

open Nat

theorem cut_tiles (p t c : Nat) : Tiles 0 (cut p t c) (min t (p * c)) := by
  induction c with
  | zero => simp [cut, Tiles]
  | succ c ih =>
    rw [cut_succ]
    refine ih.append ?_
    rw [mul_succ]
    split_ifs with hi
    · simp only [Tiles]
      omega
    · simp only [Tiles]
      omega

variable {unit : Nat}

theorem le_ceil_mul (hp : 0 < unit) (t : Nat) : t ≤ (t + unit - 1) / unit * unit := by
  have hd := div_add_mod' (t + unit - 1) unit
  have hr := mod_lt (t + unit - 1) hp
  omega

/-- **The parts are large enough.** -/
theorem le_roundedPart_mul {c : Nat} (unit_pos : 0 < unit) (count_pos : 0 < c) (t : Nat) :
    t ≤ roundedPart unit t c * c := by
  calc t ≤ (t + unit - 1) / unit * unit := le_ceil_mul unit_pos t
    _ ≤ ((t + unit - 1) / unit + c - 1) / c * c * unit :=
        mul_le_mul_right unit (le_ceil_mul count_pos _)
    _ = roundedPart unit t c * c := by rw [roundedPart, mul_right_comm]

theorem roundedPart_pos {c t : Nat} (unit_pos : 0 < unit) (count_pos : 0 < c) (total_pos : 0 < t) :
    0 < roundedPart unit t c :=
  Nat.pos_of_mul_pos_right (lt_of_lt_of_le total_pos (le_roundedPart_mul unit_pos count_pos t))

theorem mul_lt_iff_lt_ceil {p : Nat} (hp : 0 < p) (t c : Nat) :
    p * c < t ↔ c < (t + p - 1) / p := by
  rw [lt_iff_add_one_le, lt_iff_add_one_le, le_div_iff_mul_le hp, succ_mul, mul_comm p]
  omega

theorem length_cut {p t c : Nat} (hp : 0 < p) (hre : t ≤ p * c) :
    (cut p t c).length = (t + p - 1) / p := by
  have hut : ∀ c, (cut p t c).length = min c ((t + p - 1) / p) := fun c => by
    induction c with
    | zero => simp [cut]
    | succ c ih =>
      have hi := mul_lt_iff_lt_ceil hp t c
      rw [cut_succ, length_append, ih]
      split_ifs with hr
      · simp only [length_singleton]
        omega
      · simp only [length_nil]
        omega
  rw [hut]
  refine min_eq_right ?_
  rw [div_le_iff_le_mul hp, mul_comm]
  omega

theorem ceil_ceil {s : Nat} (unit_pos : 0 < unit) (share_pos : 0 < s) (t : Nat) :
    (t + s * unit - 1) / (s * unit) = ((t + unit - 1) / unit + s - 1) / s := by
  simp only [← ceilDiv_eq_add_pred_div]
  refine eq_of_forall_ge_iff fun c => ?_
  rw [ceilDiv_le_iff_le_mul (mul_pos share_pos unit_pos), ceilDiv_le_iff_le_mul share_pos,
    ceilDiv_le_iff_le_mul unit_pos, ← mul_assoc, mul_comm unit]

def takers (unit total count : Nat) : Nat :=
  let units := (total + unit - 1) / unit
  let share := (units + count - 1) / count
  (units + share - 1) / share

section

variable {c tt : Nat} (unit_pos : 0 < unit) (count_pos : 0 < c)

include unit_pos count_pos

theorem takers_zero : takers unit 0 c = 0 := by
  have no_units : (unit - 1) / unit = 0 := div_eq_of_lt (by omega)
  have no_share : (c - 1) / c = 0 := div_eq_of_lt (by omega)
  simp [takers, no_units, no_share]

theorem takers_eq (total_pos : 0 < tt) :
    takers unit tt c = (tt + roundedPart unit tt c - 1) / roundedPart unit tt c :=
  (ceil_ceil unit_pos (Nat.pos_of_mul_pos_right (roundedPart_pos unit_pos count_pos total_pos))
    tt).symm

theorem length_cut_roundedPart (tt : Nat) :
    (cut (roundedPart unit tt c) tt c).length = takers unit tt c := by
  rcases Nat.eq_zero_or_pos tt with rfl | hp
  · rw [cut_nothing, takers_zero unit_pos count_pos, length_nil]
  · rw [length_cut (roundedPart_pos unit_pos count_pos hp)
      (le_roundedPart_mul unit_pos count_pos tt),
      takers_eq unit_pos count_pos hp]

theorem lt_takers_iff (tt t : Nat) : t < takers unit tt c ↔ roundedPart unit tt c * t < tt := by
  rcases Nat.eq_zero_or_pos tt with rfl | hp
  · simp [takers_zero unit_pos count_pos]
  · rw [takers_eq unit_pos count_pos hp, mul_lt_iff_lt_ceil (roundedPart_pos unit_pos count_pos hp)]

theorem takers_le (tt : Nat) : takers unit tt c ≤ c :=
  not_lt.mp fun hm => by
    have hr := (lt_takers_iff unit_pos count_pos tt c).mp hm
    exact absurd (le_roundedPart_mul unit_pos count_pos tt) (not_le.mpr hr)

end

end Proteus.Library
