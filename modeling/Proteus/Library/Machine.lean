/-
**Machines, their runs, and simulations.**

A machine has start states, a guard for each action, and a transition that may fail: `next` is
`none` where the program crashes, while an action that only has to wait is not `Enabled`. A run is a
sequence of enabled actions; `Run` also asks each action to be `Allowed` in the state it is taken
in, so that a property of all runs and a property of the runs that meet a condition are one notion.

* `Run.invariant` — what holds at the start and survives each step holds in every state of a run;
  `Run.extend` continues a run along a `Path`, and `Run.of_computed` computes one.
* `Simulation` — a machine whose allowed steps neither crash nor leave a second machine behind.
  `Simulation.run` gives every run its abstract run, `Simulation.progress` that no allowed step of a
  run crashes.
-/

import Mathlib

namespace Proteus.Library

open List

/-- A labelled transition system whose steps may crash. -/
structure Machine (S A : Type) where
  Start : S → Prop
  Enabled : S → A → Prop
  next : S → A → Option S

namespace Machine

variable {S T A : Type}

/-- The runs that take only allowed actions, with the state they reach. -/
inductive Run (machine : Machine S A) (Allowed : S → A → Prop) : List A → S → Prop
  | start {state : S} (initial : machine.Start state) : Run machine Allowed [] state
  | step {actions : List A} {state after : S} {action : A} (run : Run machine Allowed actions state)
      (enabled : machine.Enabled state action) (allowed : Allowed state action)
      (taken : machine.next state action = some after) :
        Run machine Allowed (actions ++ [action]) after

variable {machine : Machine S A} {Allowed : S → A → Prop} {actions : List A} {state : S}

/-- **The invariant rule.** -/
theorem Run.invariant (Holds : S → Prop) (hs : ∀ state, machine.Start state → Holds state)
    (hst : ∀ state ac a, Holds state → machine.Enabled state ac → Allowed state ac →
      machine.next state ac = some a → Holds a)
    (run : machine.Run Allowed actions state) : Holds state := by
  induction run with
  | start hi => exact hs _ hi
  | step _ he ha ht ih => exact hst _ _ _ ih he ha ht

theorem Run.mono {Weaker : S → A → Prop} (hw : ∀ state a, Allowed state a → Weaker state a)
    (run : machine.Run Allowed actions state) : machine.Run Weaker actions state := by
  induction run with
  | start hi => exact .start hi
  | step _ he ha ht ih => exact .step ih he (hw _ _ ha) ht

theorem Run.of_forall {Passes : A → Prop}
    (run : machine.Run (fun _ _ => True) actions state) (hp : ∀ a ∈ actions, Passes a) :
    machine.Run (fun _ a => Passes a) actions state := by
  induction run with
  | start hin => exact .start hin
  | step _ he _ ht ih =>
    refine .step (ih fun a hi => hp a (mem_append_left _ hi)) he ?_ ht
    exact hp _ (mem_append_right _ mem_cons_self)

/-- The allowed ways from one state to another. -/
inductive Path (machine : Machine S A) (Allowed : S → A → Prop) : S → List A → S → Prop
  | nil {state : S} : Path machine Allowed state [] state
  | cons {state middle last : S} {action : A} {actions : List A}
      (enabled : machine.Enabled state action) (allowed : Allowed state action)
      (taken : machine.next state action = some middle)
      (rest : Path machine Allowed middle actions last) :
      Path machine Allowed state (action :: actions) last

theorem Run.extend {m : List A} {l : S} (run : machine.Run Allowed actions state)
    (hp : machine.Path Allowed state m l) : machine.Run Allowed (actions ++ m) l := by
  induction hp generalizing actions with
  | nil => rwa [append_nil]
  | cons he ha ht _ ih =>
    rw [append_cons]
    exact ih (.step run he ha ht)

/-- Follows some actions as long as each of them passes a test. -/
def follow (machine : Machine S A) (test : S → A → Bool) (state : S) (actions : List A) :
    Option S :=
  actions.foldlM (fun state action => if test state action then machine.next state action else
    none) state

theorem Path.of_follow {t : S → A → Bool}
    (hs : ∀ state a, t state a = true → machine.Enabled state a ∧ Allowed state a)
    {l : S} (hf : machine.follow t state actions = some l) :
    machine.Path Allowed state actions l := by
  induction actions generalizing state with
  | nil =>
    cases hf
    exact .nil
  | cons a actions ih =>
    rw [follow, foldlM_cons] at hf
    obtain ⟨m, hh, hr⟩ := Option.bind_eq_some_iff.mp hf
    split_ifs at hh with hp
    obtain ⟨he, ha⟩ := hs state a hp
    exact .cons he ha hh (ih hr)

section

variable [∀ state action, Decidable (machine.Enabled state action)]
    [∀ state action, Decidable (Allowed state action)]

/-- Follows some actions as long as they are enabled and allowed. -/
def computed (machine : Machine S A) (Allowed : S → A → Prop)
    [∀ state action, Decidable (machine.Enabled state action)]
    [∀ state action, Decidable (Allowed state action)]
    (first : S) (actions : List A) : Option S :=
  machine.follow (fun state action => decide (machine.Enabled state action ∧ Allowed state action))
    first actions

theorem Path.of_computed {l : S} (hf : machine.computed Allowed state actions = some l) :
    machine.Path Allowed state actions l :=
  .of_follow (fun _ _ hp => of_decide_eq_true hp) hf

theorem Run.of_computed {B : Type} {vi : S → B} {v : B} (f : S) (hi : machine.Start f)
    (hse : (machine.computed Allowed f actions).map vi = some v) :
    ∃ state, machine.Run Allowed actions state ∧ vi state = v := by
  obtain ⟨state, hf, hs⟩ := Option.map_eq_some_iff.mp hse
  exact ⟨state, Run.extend (.start hi) (.of_computed hf), hs⟩

theorem Run.exists_computed (f : S) (hi : machine.Start f)
    (hr : (machine.computed Allowed f actions).isSome = true) : ∃ state,
        machine.Run Allowed actions state := by
  obtain ⟨state, hf⟩ := Option.isSome_iff_exists.mp hr
  exact ⟨state, Run.extend (.start hi) (.of_computed hf)⟩

end

/-- Every allowed step of `low` succeeds and is matched by a step of `high`. -/
structure Simulation (low : Machine S A) (high : Machine T A) (Allowed : S → A → Prop) where
  Relates : S → T → Prop
  start : ∀ state, low.Start state → ∃ abstract, high.Start abstract ∧ Relates state abstract
  step : ∀ state abstract action, Relates state abstract → low.Enabled state action →
    Allowed state action → ∃ after above, low.next state action = some after ∧
      high.Enabled abstract action ∧ high.next abstract action = some above ∧ Relates after above

variable {lo : Machine S A} {high : Machine T A} {Allowed : S → A → Prop}

/-- **Every run has its abstract run.** -/
theorem Simulation.run (s : Simulation lo high Allowed) (run : lo.Run Allowed actions state) :
    ∃ ab, high.Run (fun _ _ => True) actions ab ∧ s.Relates state ab := by
  induction run with
  | start hi =>
    obtain ⟨ab, hb, hr⟩ := s.start _ hi
    exact ⟨ab, .start hb, hr⟩
  | step _ he hal ht ih =>
    obtain ⟨ab, ha, hr⟩ := ih
    obtain ⟨a, n, hd, hea, hda, hk⟩ := s.step _ _ _ hr he hal
    obtain rfl := Option.some.inj (hd.symm.trans ht)
    exact ⟨n, .step ha hea trivial hda, hk⟩

/-- **No allowed step of a run crashes.** -/
theorem Simulation.progress (s : Simulation lo high Allowed)
    (run : lo.Run Allowed actions state) {ac : A} (he : lo.Enabled state ac)
    (ha : Allowed state ac) : ∃ a, lo.next state ac = some a := by
  obtain ⟨ab, _, hr⟩ := s.run run
  obtain ⟨a, _, hd, _⟩ := s.step _ _ _ hr he ha
  exact ⟨a, hd⟩

end Machine

end Proteus.Library
