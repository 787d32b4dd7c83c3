/-
**Polling for a buffer** (`olap/lib/operators/router/router.cpp`, `Router::acquireBuffer`).

A polling call gives up if `empty_unsafe` finds as many tickets drawn as buffers handed in. Where
pops wait, more tickets are drawn than that; the call then takes the pool for not empty, draws a
ticket and waits behind them.

* `polls_return` — the runs in which polling calls do not wait.
* `poll_waits` — a run in which one does.
-/

import Proteus.Olap.Router.RingRuns

namespace Proteus.Olap.Router

open Library

def Popping.looks {α : Type} : Popping α → Bool
  | .polling _ claimed => claimed
  | _ => false

namespace RingRun

variable {ι α : Type} (state : RingRun ι α)

/-- The steps that draw a ticket, at either end. -/
def draws : RingAction ι α → Bool
  | .emplace _ => match state.emplacer with
    | .idle => true
    | _ => false
  | .proceed popper => match state.poppers popper with
    | .popping _ => true
    | _ => false
  | .pop _ | .poll _ => false

def Calm : RingAction ι α → Prop
  | .poll _ => state.filled ≤ state.ring.tail → state.ring.head = state.ring.tail
  | action => state.draws action = true → ∀ popper, (state.poppers popper).looks = false

instance [Fintype ι] : ∀ action, Decidable (state.Calm action)
  | .poll _ => inferInstanceAs (Decidable (_ → _))
  | .emplace _ | .pop _ | .proceed _ => inferInstanceAs (Decidable (_ = true → ∀ _, _ = false))

end RingRun

/-- A call that looks finds the pool empty, and none goes on to pop. -/
structure PollInv {ι α : Type} (state : RingRun ι α) : Prop where
  looking : ∀ popper head, state.poppers popper = .polling head true →
    head = state.ring.head ∧ head = state.ring.tail
  popping : ∀ popper, state.poppers popper ≠ .popping true

open RingRun

section

variable {ι α : Type} {s af : RingRun ι α}

theorem PollInv.withRing (inv : PollInv s) (hc : ∀ p, (s.poppers p).looks = false)
    (hp : af.poppers = s.poppers) : PollInv af := by
  refine ⟨fun p hd hl => ?_, fun p => hp ▸ inv.popping p⟩
  have hs := hc p
  rw [← hp, hl] at hs
  cases hs

variable [DecidableEq ι] {po : ι} {p : Popping α}

theorem PollInv.goto (inv : PollInv s)
    (hl : ∀ hd, p = .polling hd true → hd = s.ring.head ∧ hd = s.ring.tail)
    (hp : p ≠ .popping true) : PollInv (s.goto po p) :=
  ⟨(Function.forall_update_iff s.poppers fun _ p => ∀ hd, p = .polling hd true →
      hd = s.ring.head ∧ hd = s.ring.tail).mpr ⟨hl, fun o _ => inv.looking o⟩,
    (Function.forall_update_iff s.poppers fun _ p => p ≠ .popping true).mpr
      ⟨hp, fun o _ => inv.popping o⟩⟩

/-- **One step.** -/
theorem step_polls (inv : PollInv s) {a : RingAction ι α} (hc : s.Calm a)
    (ht : s.step a = some af) : PollInv af := by
  cases a with
  | emplace x =>
    simp only [step, emplace] at ht
    cases p : s.emplacer <;> simp only [p] at ht
    case idle =>
      cases ht
      exact inv.withRing (hc (by simp only [draws, p])) rfl
    case ticket =>
      obtain ⟨_, ⟨⟩⟩ := Option.ite_none_right_eq_some.mp ht
      exact ⟨inv.looking, inv.popping⟩
    all_goals
      cases ht
      exact ⟨inv.looking, inv.popping⟩
  | pop po =>
    cases p : s.poppers po <;> simp only [step, p, reduceCtorEq] at ht
    cases ht
    exact inv.goto (by rintro _ ⟨⟩) (by rintro ⟨⟩)
  | poll po =>
    cases p : s.poppers po <;> simp only [step, p, reduceCtorEq] at ht
    cases ht
    refine inv.goto (fun hd hb => ?_) (by rintro ⟨⟩)
    obtain ⟨rfl, hcl⟩ := Popping.polling.inj hb
    exact ⟨rfl, hc (of_decide_eq_true hcl)⟩
  | proceed po =>
    simp only [step, proceed] at ht
    cases p : s.poppers po <;> simp only [p, reduceCtorEq] at ht
    case polling hd hcl =>
      cases ht
      refine inv.goto ?_ ?_
      · split_ifs <;> rintro _ ⟨⟩
      · split_ifs with he
        · rintro ⟨⟩
        · rintro ⟨⟩
          obtain ⟨_, hs⟩ := inv.looking po hd p
          exact he (beq_iff_eq.mpr (congrArg (2 * · % indexCount) hs))
    case popping hcl =>
      cases ht
      have hdr : PollInv { s with ring := { s.ring with tail := s.ring.tail + 1 } } :=
        inv.withRing (hc (by simp only [draws, p])) rfl
      exact hdr.goto (by rintro _ ⟨⟩) (by rintro ⟨⟩)
    case ticket t =>
      obtain ⟨_, ⟨⟩⟩ := Option.ite_none_right_eq_some.mp ht
      exact inv.goto (by rintro _ ⟨⟩) (by rintro ⟨⟩)
    case checked t =>
      cases ht
      exact inv.goto (by rintro _ ⟨⟩) (by rintro ⟨⟩)
    case moved t x =>
      cases ht
      have hr : PollInv { s with ring := s.ring.take t, returned := s.returned ++ [(t, x)] } :=
        ⟨inv.looking, inv.popping⟩
      exact hr.goto (by rintro _ ⟨⟩) (by rintro ⟨⟩)

end

/-- **Polling does not block** in every run in which a polling call, where every buffer of the pool
is claimed, begins when nobody waits for a buffer and none is being handed in, and no ticket is
drawn while it looks: such a call never goes on to pop, and its next step returns. -/
theorem polls_return {ι α : Type} [DecidableEq ι] {blank : α} {actions : List (RingAction ι α)}
    {state : RingRun ι α} (run : (ringRun ι blank).Run RingRun.Calm actions state) (popper : ι) :
    state.poppers popper ≠ .popping true ∧ ∀ head, state.poppers popper = .polling head true →
      ∃ after, state.step (.proceed popper) = some after ∧ after.poppers popper = .idle := by
  have inv : PollInv state := run.invariant _ (by rintro _ rfl; exact ⟨nofun, nofun⟩)
    fun _ _ _ inv _ hc ht => step_polls inv hc ht
  refine ⟨inv.popping popper, fun head hp => ⟨state.goto popper .idle, ?_, Function.update_self ..⟩⟩
  obtain ⟨_, hs⟩ := inv.looking popper head hp
  have he : { state.ring with head }.isEmpty = true :=
    beq_iff_eq.mpr (congrArg (2 * · % indexCount) hs)
  simp only [step, proceed, hp, he, if_true]

/-- A buffer is handed in and popped, and then a call polls. -/
theorem polls_return_two : ∃ actions state, (ringRun (Fin 2) 0).Run RingRun.Calm actions state ∧
    state.poppers 1 = .polling 1 true ∧
    ∃ after, state.step (.proceed 1) = some after ∧ after.poppers 1 = .idle := by
  have run : ∃ state, (ringRun (Fin 2) 0).Run RingRun.Calm [.emplace 7, .emplace 7, .emplace 7,
    .emplace 7, .pop 0,
      .proceed 0, .proceed 0, .poll 1] state ∧ state.poppers 1 = .polling 1 true :=
    ⟨_, Machine.Run.of_follow _ (by exact rfl) (by exact rfl), rfl⟩
  obtain ⟨state, run, hl⟩ := run
  exact ⟨_, state, run, hl, (polls_return run 1).2 1 hl⟩

/-- The only buffer is held by the first producer and the second waits for one. The third polls,
draws a ticket and waits as well. -/
theorem poll_waits : ∃ state : RingRun (Fin 3) Nat, (ringRun (Fin 3) 0).Reachable state ∧
    state.poppers 2 = .popping true ∧
    ∃ after, state.step (.proceed 2) = some after ∧ after.step (.proceed 2) = none := by
  have run : ∃ state, (ringRun (Fin 3) 0).Run (fun _ _ => True) [.emplace 7, .emplace 7, .emplace 7,
    .emplace 7, .pop 0, .proceed 0, .proceed 0, .proceed 0, .proceed 0, .pop 1, .proceed 1, .poll 2,
        .proceed 2] state ∧
      state.poppers 2 = .popping true ∧ (state.step (.proceed 2)).map (·.step (.proceed 2)) =
          some none :=
    ⟨_, Machine.Run.of_follow _ (by exact rfl) (by exact rfl), rfl, rfl⟩
  obtain ⟨state, run, hg, hw⟩ := run
  exact ⟨state, ⟨_, run⟩, hg, Option.map_eq_some_iff.mp hw⟩

end Proteus.Olap.Router
