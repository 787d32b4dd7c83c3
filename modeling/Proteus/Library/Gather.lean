/-
**What workers hold.**

`gather content state` collects what each worker holds, with repetitions. A step changes the state
of one worker, and `gather_update` says what that does to the whole; that nothing is lost or doubled
in a step is then an equation of multisets.
-/

import Mathlib

namespace Proteus.Library

open Function

variable {ι S α : Type} [Fintype ι] {content c : S → Multiset α} {state st : ι → S}

def gather (content : S → Multiset α) (state : ι → S) : Multiset α := ∑ worker,
    content (state worker)

open Finset

/-- **One worker moves.** -/
theorem gather_update [DecidableEq ι] (c : S → Multiset α) (st : ι → S) (w : ι) (n : S) :
    gather c (update st w n) + c (st w) = gather c st + c n := by
  have ho : ∑ o ∈ univ.erase w, c (update st w n o) = ∑ o ∈ univ.erase w, c (st o) :=
    sum_congr rfl fun o hm => by
      rw [update_of_ne (ne_of_mem_erase hm)]
  rw [gather, gather, ← add_sum_erase _ _ (mem_univ w), ho, update_self,
    ← add_sum_erase _ (fun o => c (st o)) (mem_univ w)]
  abel

variable {w : ι} {n : S} {m : Multiset α} {x : α}

theorem gather_update_add [DecidableEq ι] (hg : c n = c (st w) + m) :
    gather c (update st w n) = gather c st + m := by
  have hm := gather_update c st w n
  rw [hg, ← add_assoc, add_right_comm] at hm
  exact add_right_cancel hm

theorem gather_update_sub [DecidableEq ι] (hg : c (st w) = c n + m) :
    gather c (update st w n) + m = gather c st := by
  have hm := gather_update c st w n
  rw [hg, ← add_assoc, add_right_comm] at hm
  exact add_right_cancel hm

theorem gather_update_same [DecidableEq ι] (hk : c n = c (st w)) :
    gather c (update st w n) = gather c st := by
  have hm := gather_update c st w n
  rw [hk] at hm
  exact add_right_cancel hm

theorem mem_gather : x ∈ gather c st ↔ ∃ w, x ∈ c (st w) := by
  simp [gather, Multiset.mem_sum]

theorem not_nodup_gather {f s : ι} (ha : f ≠ s) (hh : x ∈ c (st f)) (ht : x ∈ c (st s)) :
    ¬ (gather c st).Nodup := by
  classical
  intro hn
  rw [gather, ← add_sum_erase _ _ (mem_univ f), Multiset.nodup_add] at hn
  refine Multiset.disjoint_left.mp hn.2.2 hh (Multiset.mem_sum.mpr ⟨s, ?_, ht⟩)
  exact mem_erase.mpr ⟨ha.symm, mem_univ _⟩

theorem gather_eq_zero (hn : ∀ w, c (st w) = 0) : gather c st = 0 :=
  sum_eq_zero fun w _ => hn w

end Proteus.Library
