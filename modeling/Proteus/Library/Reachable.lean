/-
**Machines from a step function.**

Where a step is taken whenever it is possible, a machine is a step function: `none` is a step that
has to wait. The states that such a machine reaches, and the invariant rule for them.
-/

import Proteus.Library.Machine

namespace Proteus.Library

namespace Machine

variable {S A : Type}

def ofStep (Start : S → Prop) (step : S → A → Option S) : Machine S A :=
  ⟨Start, fun state action => (step state action).isSome = true, step⟩

def Reachable (machine : Machine S A) (state : S) : Prop :=
  ∃ actions, machine.Run (fun _ _ => True) actions state

variable {Start : S → Prop} {st : S → A → Option S} {s af : S} {a : A}
    {Allowed : S → A → Prop} {acs : List A}

theorem Run.next (run : (ofStep Start st).Run Allowed acs s)
    (ha : Allowed s a) (ht : st s a = some af) :
    (ofStep Start st).Run Allowed (acs ++ [a]) af :=
  .step run (Option.isSome_iff_exists.mpr ⟨af, ht⟩) ha ht

theorem Run.of_follow [∀ s a, Decidable (Allowed s a)]
    (f : S) (hi : Start f) (hf : (ofStep Start st).follow
      (fun s a => decide (Allowed s a) && (st s a).isSome) f acs = some af) :
    (ofStep Start st).Run Allowed acs af := by
  refine Run.extend (.start hi) (Path.of_follow (fun s a hp => ?_) hf)
  rw [Bool.and_eq_true, decide_eq_true_eq] at hp
  exact hp.symm

theorem Reachable.start (hi : Start s) : (ofStep Start st).Reachable s := ⟨[], .start hi⟩

theorem Reachable.next (hr : (ofStep Start st).Reachable s) (ht : st s a = some af) :
    (ofStep Start st).Reachable af :=
  let ⟨_, run⟩ := hr
  ⟨_, run.next trivial ht⟩

theorem Reachable.follow (hre : (ofStep Start st).Reachable s) (acs : List A)
    (hf : acs.foldlM st s = some af) : (ofStep Start st).Reachable af := by
  induction acs generalizing s with
  | nil => exact Option.some.inj hf ▸ hre
  | cons a acs ih =>
    obtain ⟨m, ht, hr⟩ := Option.bind_eq_some_iff.mp hf
    exact ih (hre.next ht) hr

/-- **The invariant rule.** -/
theorem Reachable.invariant (Holds : S → Prop) (hs : ∀ s, Start s → Holds s)
    (hk : ∀ s a af, Holds s → st s a = some af → Holds af)
    (hr : (ofStep Start st).Reachable s) : Holds s :=
  let ⟨_, run⟩ := hr
  run.invariant Holds hs fun s a af hh _ _ ht => hk s a af hh ht

end Machine

theorem getElem?_concat_of_some {α : Type} {log : List α} {e f : α} {p : Nat}
    (hh : log[p]? = some f) : (log ++ [e])[p]? = some f :=
  (List.getElem?_append_left (List.getElem?_eq_some_iff.mp hh).1).trans hh

end Proteus.Library
