/-
**Counting workers.**

`tally p state` is the number of workers whose state satisfies `p`. A step changes the state of one
worker, and `tally_update` says what that does to the count.
-/

import Mathlib.Algebra.BigOperators.Group.Finset.Basic
import Mathlib.Algebra.BigOperators.Group.Finset.Piecewise
import Mathlib.Data.Fintype.Card

namespace Proteus.Library

open Function

variable {ι S : Type} [Fintype ι] (p : S → Prop) [DecidablePred p] {state : ι → S}

def tally (state : ι → S) : Nat := (Finset.univ.filter fun worker => p (state worker)).card

open Finset

theorem tally_le_card : tally p state ≤ Fintype.card ι := card_filter_le ..

variable {p}

theorem tally_eq_zero_iff : tally p state = 0 ↔ ∀ w, ¬ p (state w) := by
  simp [tally]

theorem tally_eq_card (all : ∀ w, p (state w)) : tally p state = Fintype.card ι := by
  rw [tally, filter_true_of_mem fun w _ => all w, card_univ]

/-- **One worker moves.** -/
theorem tally_update [DecidableEq ι] (state : ι → S) (w : ι) (n : S) :
    tally p (update state w n) + (if p (state w) then 1 else 0) =
      tally p state + if p n then 1 else 0 := by
  have hs : ∀ state : ι → S, tally p state = (if p (state w) then 1 else 0) +
        ∑ o ∈ univ.erase w, if p (state o) then 1 else 0 := fun state => by
    rw [tally, card_filter]
    exact (add_sum_erase _ (fun o => if p (state o) then 1 else 0) (mem_univ w)).symm
  have ho : ∑ o ∈ univ.erase w, (if p (update state w n o) then 1 else 0) =
      ∑ o ∈ univ.erase w, if p (state o) then 1 else 0 :=
    sum_congr rfl fun o hm => by
      rw [update_of_ne (ne_of_mem_erase hm)]
  rw [hs, hs state, ho, update_self]
  omega

end Proteus.Library
