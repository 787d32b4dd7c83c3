/-
**The digits of a number, least significant first.**

A number below `base ^ length` has `length` digits. Its order is decided by the most significant
digit in which two numbers differ (`GreatestDiffering.lt_iff`), the lexicographic order of the
digits by the least significant one (`LeastDiffering.digits_lt_iff`).
-/

import Mathlib

namespace Proteus.Library

open List

section

variable {base : Nat}

def digit (base number place : Nat) : Nat := number / base ^ place % base

/-- The first `length` digits. -/
def digits (base : Nat) [NeZero base] (length number : Nat) : List (Fin base) :=
  (List.range length).map fun place => Fin.ofNat base (number / base ^ place)

theorem length_digits [NeZero base] (l n : Nat) : (digits base l n).length = l := by
  unfold digits
  rw [length_map, length_range]

variable {length place second first : Nat}

theorem getElem_digits [NeZero base] {n : Nat} (hi : place < (digits base length n).length) :
    ((digits base length n)[place]).val = digit base n place := by
  unfold digits at hi ⊢
  rw [getElem_map, getElem_range]
  rfl

theorem div_eq_digit (n place : Nat) :
    n / base ^ place = base * (n / base ^ (place + 1)) + digit base n place := by
  rw [pow_succ, ← Nat.div_div_eq_div_mul]
  exact (Nat.div_add_mod _ _).symm

theorem div_eq_of_digits (hfb : first < base ^ length) (hsb : second < base ^ length) (a : Nat)
    (hs : ∀ place, length - a ≤ place → place < length →
      digit base first place = digit base second place) :
    first / base ^ (length - a) = second / base ^ (length - a) := by
  induction a with
  | zero => rw [Nat.sub_zero, Nat.div_eq_of_lt hfb, Nat.div_eq_of_lt hsb]
  | succ a ih =>
    by_cases hi : a < length
    · have hn : length - (a + 1) + 1 = length - a := by omega
      rw [div_eq_digit first, div_eq_digit second, hn, ih fun place low => hs place (by omega),
        hs (length - (a + 1)) (Nat.le_refl _) (by omega)]
    · have hd : length - (a + 1) = length - a := by omega
      rw [hd]
      exact ih fun place low => hs place (by omega)

structure LeastDiffering (base length first second place : Nat) : Prop where
  inside : place < length
  differs : digit base first place ≠ digit base second place
  same : ∀ lower, lower < place → digit base first lower = digit base second lower

structure GreatestDiffering (base length first second place : Nat) : Prop where
  inside : place < length
  differs : digit base first place ≠ digit base second place
  same : ∀ higher, place < higher → higher < length →
    digit base first higher = digit base second higher

section

variable {len f s : Nat}
  (firstBelow : f < base ^ len) (secondBelow : s < base ^ len) (apart : f ≠ s)

include firstBelow secondBelow apart

theorem exists_differing : ∃ place, place < len ∧ digit base f place ≠ digit base s place := by
  by_contra hn
  push Not at hn
  have hs := div_eq_of_digits firstBelow secondBelow len fun place _ hi => hn place hi
  rw [Nat.sub_self, pow_zero, Nat.div_one, Nat.div_one] at hs
  exact apart hs

theorem exists_leastDiffering : ∃ place, LeastDiffering base len f s place := by
  have some_place := exists_differing firstBelow secondBelow apart
  obtain ⟨hi, hd⟩ := Nat.find_spec some_place
  refine ⟨Nat.find some_place, hi, hd, fun l hb => ?_⟩
  by_contra ho
  exact Nat.find_min some_place hb ⟨hb.trans hi, ho⟩

theorem exists_greatestDiffering : ∃ place, GreatestDiffering base len f s place := by
  obtain ⟨place, hi, hd⟩ := exists_differing firstBelow secondBelow apart
  obtain ⟨g, ham, hm⟩ := Finset.exists_max_image
    ((Finset.range len).filter fun place => digit base f place ≠ digit base s place) id
    ⟨place, Finset.mem_filter.mpr ⟨Finset.mem_range.mpr hi, hd⟩⟩
  obtain ⟨hi, hd⟩ := Finset.mem_filter.mp ham
  refine ⟨g, Finset.mem_range.mp hi, hd, fun h ha hb => ?_⟩
  by_contra ho
  have hat : h ≤ g := hm h (Finset.mem_filter.mpr ⟨Finset.mem_range.mpr hb, ho⟩)
  omega

end

theorem GreatestDiffering.symm (hg : GreatestDiffering base length first second place) :
    GreatestDiffering base length second first place :=
  ⟨hg.inside, hg.differs.symm, fun h ha hb => (hg.same h ha hb).symm⟩

theorem LeastDiffering.symm (hl : LeastDiffering base length first second place) :
        LeastDiffering base length second first place :=
  ⟨hl.inside, hl.differs.symm, fun l hb => (hl.same l hb).symm⟩

variable (firstBelow : first < base ^ length) (secondBelow : second < base ^ length)
    (greatest : GreatestDiffering base length first second place)

include firstBelow secondBelow greatest

theorem GreatestDiffering.lt (hl : digit base first place < digit base second place) :
    first < second := by
  have hi := greatest.inside
  have ha := div_eq_of_digits firstBelow secondBelow (length - (place + 1)) fun h low hh =>
    greatest.same h (by omega) hh
  rw [show length - (length - (place + 1)) = place + 1 by omega] at ha
  apply Nat.lt_of_div_lt_div (c := base ^ place)
  rw [div_eq_digit first, div_eq_digit second, ha]
  exact Nat.add_lt_add_left hl _

/-- **The most significant differing digit decides the order of the numbers.** -/
theorem GreatestDiffering.lt_iff : first < second ↔
    digit base first place < digit base second place := by
  refine ⟨fun hl => ?_, greatest.lt firstBelow secondBelow⟩
  rcases Nat.lt_or_gt_of_ne greatest.differs with hh | ht
  · exact hh
  · exact absurd (greatest.symm.lt secondBelow firstBelow ht) (Nat.lt_asymm hl)

omit firstBelow secondBelow greatest

theorem LeastDiffering.digits_lt [NeZero base] (hle : LeastDiffering base length first second place)
    (hl : digit base first place < digit base second place) :
    digits base length first < digits base length second := by
  have hfi : place < (digits base length first).length := by
    rw [length_digits]
    exact hle.inside
  have hsi : place < (digits base length second).length := by
    rw [length_digits]
    exact hle.inside
  refine List.lt_iff_exists.mpr (.inr ⟨place, hfi, hsi, fun l hb => ?_, ?_⟩)
  · apply Fin.ext
    rw [getElem_digits, getElem_digits]
    exact hle.same l hb
  · show ((digits base length first)[place]).val < ((digits base length second)[place]).val
    rw [getElem_digits, getElem_digits]
    exact hl

/-- **The least significant differing digit decides the lexicographic order of the digits.** -/
theorem LeastDiffering.digits_lt_iff [NeZero base]
    (hle : LeastDiffering base length first second place) :
    digits base length first < digits base length second ↔
        digit base first place < digit base second place := by
  refine ⟨fun hl => ?_, hle.digits_lt⟩
  rcases Nat.lt_or_gt_of_ne hle.differs with hh | ht
  · exact hh
  · exact absurd (hle.symm.digits_lt ht) (lt_asymm hl)

theorem digits_injective [NeZero base] (firstBelow : first < base ^ length)
    (secondBelow : second < base ^ length)
    (hs : digits base length first = digits base length second) : first = second := by
  by_contra ha
  obtain ⟨place, hl⟩ := exists_leastDiffering firstBelow secondBelow ha
  rcases Nat.lt_or_gt_of_ne hl.differs with hh | ht
  · exact (hl.digits_lt hh).ne hs
  · exact (hl.symm.digits_lt ht).ne hs.symm

end

end Proteus.Library
