/-
**The pool of a target, step by step.**

A firer emplaces into the pool while producers, and in the end the firer itself, pop from it.
`PoolInv` ties the tickets of the ring to how far these calls are.

* `PoolInv.emplaceStep`, `PoolInv.popStep` — a step of either kind keeps the invariant, and moves a
  buffer between the pool and its caller, or none.
-/

import Proteus.Olap.Router.Router

namespace Proteus.Olap.Router

open Library Platform Function

/-- The ticket of a call. -/
def Pop.ticketOf : Pop → Option Nat
  | .start => none
  | .ticket t | .checked t => some t

def filledBy (head : Nat) : Option Emplace → Nat
  | none | some .start => head
  | some (.ticket h) | some (.checked h) => h

def pendingOf {ι : Type} (pops : ι → Option Pop) (popper : ι) : Option Nat :=
    (pops popper).bind Pop.ticketOf

/-- A pool with one call of `emplace` and any number of calls of `pop` under way. -/
structure PoolInv {ι : Type} (pool : RingBuffer Nat) (emplace : Option Emplace)
    (pops : ι → Option Pop) :
    Prop where
  tickets : Tickets pool (filledBy pool.head emplace) (pendingOf pops)
  checked : ∀ popper t, pops popper = some (.checked t) → t < filledBy pool.head emplace
  head_eq : ∀ h, emplace = some (.ticket h) ∨ emplace = some (.checked h) → pool.head = h + 1
  even : ∀ h, emplace = some (.checked h) → pool.mayFill h = true

section

variable {ι : Type} {po a : RingBuffer Nat} {e : Option Emplace} {pops pp : ι → Option Pop}

theorem PoolInv.initial : PoolInv (.initial 0) (some .start) (fun _ : ι => none) where
  tickets := .initial 0
  checked := by nofun
  head_eq := by rintro h (⟨⟨⟩⟩ | ⟨⟨⟩⟩)
  even := by nofun

theorem PoolInv.begin (inv : PoolInv po none pp) : PoolInv po (some .start) pp where
  tickets := inv.tickets
  checked := inv.checked
  head_eq := by rintro h (⟨⟨⟩⟩ | ⟨⟨⟩⟩)
  even := by nofun

theorem PoolInv.end (inv : PoolInv po (some .start) pp) : PoolInv po none pp where
  tickets := inv.tickets
  checked := inv.checked
  head_eq := by rintro h (⟨⟨⟩⟩ | ⟨⟨⟩⟩)
  even := by nofun

/-- **A step of `emplace`.** -/
theorem PoolInv.emplaceStep {s : Emplace} {tl : Option Emplace} {b : Nat}
    (inv : PoolInv po (some s) pp) (ht : emplaceStep po b s = some (a, tl)) :
    PoolInv a tl pp ∧ a.free = po.free + tl.elim {b} (fun _ => 0) := by
  cases s with
  | start =>
    cases ht
    refine ⟨⟨inv.tickets.withHead _, inv.checked, ?_, by nofun⟩, (add_zero _).symm⟩
    rintro h (⟨⟨⟩⟩ | ⟨⟨⟩⟩)
    rfl
  | ticket h =>
    rw [Router.emplaceStep] at ht
    split at ht
    · next he =>
      cases ht
      refine ⟨⟨inv.tickets, inv.checked, ?_, ?_⟩, (add_zero _).symm⟩
      · rintro o (⟨⟨⟩⟩ | ⟨⟨⟩⟩)
        exact inv.head_eq h (.inl rfl)
      · rintro o ⟨⟩
        exact he
    · cases ht
  | checked h =>
    cases ht
    have hh := inv.head_eq h (.inr rfl)
    have he := inv.even h rfl
    refine ⟨⟨?_, fun p t hf => ?_, ?_, by nofun⟩, free_fill he b⟩
    · have hfi : filledBy (po.fill h b).head none = h + 1 := hh
      rw [hfi]
      exact inv.tickets.fill he b
    · have low : t < h := inv.checked p t hf
      show t < po.head
      omega
    · rintro o (⟨⟨⟩⟩ | ⟨⟨⟩⟩)

variable [DecidableEq ι] {p : ι}

theorem pendingOf_update (n : Option Pop) : pendingOf (update pp p n) =
      update (pendingOf pp) p (n.bind Pop.ticketOf) := by
  funext o
  by_cases hs : o = p
  · subst hs
    simp [pendingOf]
  · simp [pendingOf, update_of_ne hs]

theorem PoolInv.beginPop (inv : PoolInv po e pp) (hi : pp p = none) :
    PoolInv po e (update pp p (some .start)) := by
  have hp : pendingOf (update pp p (some .start)) = pendingOf pp := by
    rw [pendingOf_update]
    refine update_eq_self_iff.mpr ?_
    rw [pendingOf, hi]
    rfl
  refine ⟨hp ▸ inv.tickets, fun o t hf => ?_, inv.head_eq, inv.even⟩
  refine inv.checked o t ?_
  by_cases hs : o = p
  · subst hs
    rw [update_self] at hf
    cases hf
  · rwa [update_of_ne hs] at hf

variable [Fintype ι]

def FewWait (pops : ι → Option Pop) : Prop :=
  ringSlots + tally (fun waiting : Option Nat => waiting.isSome) (pendingOf pops) ≤ 2 ^ 31 + 1

/-- **A step of `pop`.** -/
theorem PoolInv.popStep {s : Pop} {tl : Pop ⊕ Nat} (inv : PoolInv po e pp) (few : FewWait pp)
    (hc : pp p = some s) (ht : popStep po s = some (a, tl)) :
    PoolInv a e (update pp p (tl.elim some fun _ => none)) ∧
      a.free + tl.elim (fun _ => 0) (fun b => {b}) = po.free ∧ a.head = po.head := by
  have ho : ∀ (n : Option Pop) o t, update pp p n o = some (.checked t) →
      (n = some (.checked t) → t < filledBy po.head e) → t < filledBy po.head e := by
    intro n o t hf hh
    by_cases hs : o = p
    · subst hs
      rw [update_self] at hf
      exact hh hf
    · rw [update_of_ne hs] at hf
      exact inv.checked o t hf
  cases s with
  | start =>
    cases ht
    refine ⟨⟨?_, fun o t hf => ho _ o t hf (by rintro ⟨⟩), inv.head_eq, inv.even⟩, add_zero _, rfl⟩
    rw [pendingOf_update]
    refine inv.tickets.takeTicket ?_
    rw [pendingOf, hc]
    rfl
  | ticket t =>
    rw [Router.popStep] at ht
    split at ht
    · next hm =>
      cases ht
      have hw : pendingOf pp p = some t := by
        rw [pendingOf, hc]
        rfl
      have low := (inv.tickets.mayTake_iff hw few).mp hm
      refine ⟨⟨?_, fun o t hf => ho _ o t hf ?_, inv.head_eq, inv.even⟩, add_zero _, rfl⟩
      · rw [pendingOf_update, update_eq_self_iff.mpr]
        · exact inv.tickets
        · exact hw.symm
      · rintro ⟨⟩
        exact low
    · cases ht
  | checked t =>
    cases ht
    have hw : pendingOf pp p = some t := by
      rw [pendingOf, hc]
      rfl
    have low := inv.checked p t hc
    refine ⟨⟨?_, fun o t hf => ho _ o t hf (by nofun), inv.head_eq, fun h hf => ?_⟩,
      free_take ((inv.tickets.mayTake_iff hw few).mpr low), rfl⟩
    · rw [pendingOf_update]
      exact inv.tickets.take hw low
    · exact mayFill_take (inv.even h hf)

end

end Proteus.Olap.Router
