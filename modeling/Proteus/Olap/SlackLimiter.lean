/-
**The slack limiter** (`olap/lib/util/slack-limiter.cpp`).

A counter of free places. A caller takes its place first; if there was none, a polling caller gives
it back and a blocking one waits until the counter is positive, still holding the place it has
taken. A completion gives a place back and wakes one of those who wait, without the lock that they
wait under: between the look at the counter and the sleep of a waiting caller, a wake-up is lost.
And if more callers wait than there are places, the counter is not positive even when all tasks have
completed.

* `run_limits` — the limiter bounds and never starves in runs without these two.
-/

import Proteus.Library.Reachable
import Proteus.Library.Tally

namespace Proteus.Olap

open Library Option Function

inductive Caller where
  | idle
  | locking
  | dozing
  | asleep
  | admitted
  | undoing
  | notifying
deriving DecidableEq

namespace Caller

def charged : Caller → Bool
  | idle | notifying => false
  | _ => true

/-- In the wait of `addNewPending`. -/
def waits : Caller → Bool
  | locking | dozing | asleep => true
  | _ => false

/-- A step of the call, or the completion of its task, is to come. -/
def active : Caller → Bool
  | idle | asleep | dozing => false
  | _ => true

end Caller

structure SlackLimiter (n : Nat) where
  availableSlack : Int
  callers : Fin n → Caller

/-- `notify` names who is woken, and `wake` is a wake-up that nobody sent. -/
inductive LimiterAction (n : Nat) where
  | addNewPending (caller : Fin n)
  | poll (caller : Fin n)
  | check (caller : Fin n)
  | sleep (caller : Fin n)
  | notifyComplete (caller : Fin n)
  | notify (caller : Fin n) (woken : Option (Fin n))
  | wake (caller : Fin n)

/-- A step of a call that was begun. -/
def LimiterAction.inCall {n : Nat} : LimiterAction n → Bool
  | .addNewPending _ | .poll _ | .wake _ => false
  | _ => true

namespace SlackLimiter

variable {n : Nat} (state : SlackLimiter n)

/-- `int32_t` -/
def int32 (value : Int) : Int := value.bmod (2 ^ 32)

/-- `SlackLimiter(slack)` -/
def initial (n slack : Nat) : SlackLimiter n := ⟨int32 (slack + 1), fun _ => .idle⟩

def move (availableSlack : Int) (caller : Fin n) (phase : Caller) : SlackLimiter n :=
  ⟨availableSlack, Function.update state.callers caller phase⟩

/-- The decrement of both calls. -/
def take (caller : Fin n) (failed : Caller) : SlackLimiter n :=
  let availableSlack := int32 (state.availableSlack - 1)
  state.move availableSlack caller (if availableSlack ≤ 0 then failed else .admitted)

def step : LimiterAction n → Option (SlackLimiter n)
  | .addNewPending caller => if state.callers caller = .idle then
      some (state.take caller .locking) else none
  | .poll caller => if state.callers caller = .idle then some (state.take caller .undoing) else none
  | .check caller =>
    if state.callers caller = .locking ∧ ∀ other, state.callers other ≠ .dozing then
      some (state.move state.availableSlack caller (if 0 < state.availableSlack then .admitted else
        .dozing))
    else none
  | .sleep caller =>
    if state.callers caller = .dozing then
      some (state.move state.availableSlack caller .asleep) else none
  | .notifyComplete caller =>
    if state.callers caller = .admitted ∨ state.callers caller = .undoing then
      some (state.move (int32 (state.availableSlack + 1)) caller .notifying)
    else none
  | .notify caller none =>
    if state.callers caller = .notifying ∧ ∀ other, state.callers other ≠ .asleep then
      some (state.move state.availableSlack caller .idle)
    else none
  | .notify caller (some woken) =>
    if state.callers caller = .notifying ∧ state.callers woken = .asleep then
      some ((state.move state.availableSlack woken .locking).move state.availableSlack caller .idle)
    else none
  | .wake caller =>
    if state.callers caller = .asleep then
      some (state.move state.availableSlack caller .locking) else none

/-- Admitted and not completed. -/
def pending : Nat := tally (· = .admitted) state.callers

def waiting : Nat := tally (·.waits = true) state.callers

/-- Nothing is to be completed, a blocking call waits, and no call can go on. -/
def Stuck : Prop :=
  state.pending = 0 ∧ (∃ caller, (state.callers caller).waits = true) ∧
    ∀ action : LimiterAction n, action.inCall = true → state.step action = none

def Careful (slack : Nat) (state : SlackLimiter n) : LimiterAction n → Prop
  | .addNewPending _ => 1 < state.availableSlack ∨ state.waiting < slack
  | .notifyComplete _ => ∀ other, state.callers other ≠ .dozing
  | _ => True

instance (slack : Nat) : ∀ action, Decidable (state.Careful slack action)
  | .addNewPending _ => inferInstanceAs (Decidable (_ ∨ _))
  | .notifyComplete _ => inferInstanceAs (Decidable (∀ _, _))
  | .poll _ | .check _ | .sleep _ | .notify _ _ | .wake _ => isTrue trivial

end SlackLimiter

/-- A limiter with at most `n` tasks under way. -/
def slackLimiter (n slack : Nat) : Machine (SlackLimiter n) (LimiterAction n) :=
  .ofStep (· = .initial n slack) SlackLimiter.step

/-! ### Places and tasks -/

structure LimiterInv {n : Nat} (slack : Nat) (state : SlackLimiter n) : Prop where
  counted : state.availableSlack + tally (·.charged = true) state.callers = slack + 1
  pending : state.pending ≤ slack
  waiting : state.waiting ≤ slack
  dozing : ∀ caller, state.callers caller = .dozing → state.availableSlack ≤ 0
  asleep : ∀ caller, state.callers caller = .asleep → 0 < state.availableSlack →
    ∃ other, (state.callers other).active = true

open SlackLimiter

section

variable {n sl : Nat} {s af : SlackLimiter n} {a : LimiterAction n} {v : Int}

theorem int32_of_fits (low : -2 ^ 31 ≤ v) (hh : v < 2 ^ 31) : int32 v = v :=
  Int.bmod_eq_of_le (by omega) (by omega)

variable (inv : LimiterInv sl s)

include inv

/-- **One caller moves.** -/
theorem LimiterInv.move {c : Fin n} {ph : Caller} {availableSlack : Int}
    (hco : availableSlack + (if ph.charged = true then 1 else 0) =
      s.availableSlack + if (s.callers c).charged = true then 1 else 0)
    (had : ph = .admitted → 0 < availableSlack)
    (hw : ph.waits = true → (s.callers c).waits = true ∨ s.waiting < sl)
    (hdo : ph = .dozing → availableSlack ≤ 0)
    (hl : availableSlack ≤ s.availableSlack ∨ ∀ o, s.callers o ≠ .dozing)
    (hap : ph.active = true ∨ availableSlack ≤ 0 ∨ (∀ o, update s.callers c ph o ≠ .asleep) ∨
      ∃ o ≠ c, (s.callers o).active = true) :
    LimiterInv sl (s.move availableSlack c ph) := by
  have hch := tally_update (p := (·.charged = true)) s.callers c ph
  have hwa := tally_update (p := (·.waits = true)) s.callers c ph
  have hh := tally_update (p := (· = .admitted)) s.callers c ph
  have hc := inv.counted
  refine ⟨?_, ?_, ?_, ?_, fun o hs hp => ?_⟩
  · simp only [SlackLimiter.move]
    split_ifs at * <;> omega
  · show tally (· = .admitted) (update s.callers c ph) ≤ sl
    by_cases he : ph = .admitted
    · -- a task that is admitted has a place, and so have all others
      have ham : tally (· = .admitted) (update s.callers c ph) ≤
          tally (·.charged = true) (update s.callers c ph) :=
        Finset.card_le_card (Finset.monotone_filter_right _ fun _ _ had => by rw [had]; rfl)
      have := had he
      split_ifs at * <;> omega
    · rw [if_neg he] at hh
      exact (Nat.le_of_add_right_le hh.le).trans inv.pending
  · have := inv.waiting
    simp only [SlackLimiter.waiting, SlackLimiter.move] at *
    split_ifs at * <;> grind
  · refine (forall_update_iff s.callers fun _ ph => ph = .dozing → _).mpr ⟨hdo, fun o _ hdz => ?_⟩
    rcases hl with hl | hno
    · exact hl.trans (inv.dozing o hdz)
    · exact absurd hdz (hno o)
  · rcases hap with ha | hno | hn | ⟨o, hd, ha⟩
    · exact ⟨c, by simpa [SlackLimiter.move] using ha⟩
    · exact absurd hp (not_lt.mpr hno)
    · exact absurd hs (hn o)
    · exact ⟨o, by simpa [SlackLimiter.move, hd] using ha⟩

theorem LimiterInv.int32_eq (hf : sl + 1 < 2 ^ 31) (few : n < 2 ^ 31)
    (hn : v = s.availableSlack - 1 ∨
      v = s.availableSlack + 1 ∧ 0 < tally (·.charged = true) s.callers) :
    int32 v = v := by
  have hc := inv.counted
  have all : tally (·.charged = true) s.callers ≤ Fintype.card (Fin n) := tally_le_card _
  rw [Fintype.card_fin] at all
  exact int32_of_fits (by omega) (by omega)

theorem LimiterInv.take (hf : sl + 1 < 2 ^ 31) (few : n < 2 ^ 31)
    {c : Fin n} (hi : s.callers c = .idle) {f : Caller}
    (hc : f = .locking ∧ (1 < s.availableSlack ∨ s.waiting < sl) ∨ f = .undoing) :
    LimiterInv sl (s.take c f) := by
  rw [SlackLimiter.take, inv.int32_eq hf few (.inl rfl)]
  by_cases hn : s.availableSlack - 1 ≤ 0
  · rw [if_pos hn]
    rcases hc with ⟨rfl, hr⟩ | rfl
    · refine inv.move ?_ nofun (fun _ => .inr (hr.resolve_left (by omega))) nofun (.inl (by omega))
        (.inl rfl)
      rw [hi]
      simp [Caller.charged]
    · refine inv.move ?_ nofun nofun nofun (.inl (by omega)) (.inl rfl)
      rw [hi]
      simp [Caller.charged]
  · rw [if_neg hn]
    refine inv.move ?_ (fun _ => by omega) nofun nofun (.inl (by omega)) (.inl rfl)
    rw [hi]
    simp [Caller.charged]

theorem LimiterInv.wake {c : Fin n} (ha : s.callers c = .asleep) :
    LimiterInv sl (s.move s.availableSlack c .locking) :=
  inv.move (by rw [ha]; rfl) nofun (fun _ => .inl (by rw [ha]; rfl)) nofun (.inl le_rfl) (.inl rfl)

omit inv

/-- **One step.** -/
theorem step_limiter (hf : sl + 1 < 2 ^ 31) (few : n < 2 ^ 31) (inv : LimiterInv sl s)
    (hc : s.Careful sl a) (ht : s.step a = some af) : LimiterInv sl af := by
  cases a with
  | addNewPending c =>
    obtain ⟨hi, ⟨⟩⟩ := ite_none_right_eq_some.mp ht
    exact inv.take hf few hi (.inl ⟨rfl, hc⟩)
  | poll c =>
    obtain ⟨hi, ⟨⟩⟩ := ite_none_right_eq_some.mp ht
    exact inv.take hf few hi (.inr rfl)
  | check c =>
    obtain ⟨⟨hl, hno⟩, ⟨⟩⟩ := ite_none_right_eq_some.mp ht
    by_cases hfr : 0 < s.availableSlack
    · rw [if_pos hfr]
      exact inv.move (by rw [hl]; rfl) (fun _ => hfr) nofun nofun (.inl le_rfl) (.inl rfl)
    · rw [if_neg hfr]
      exact inv.move (by rw [hl]; rfl) nofun (fun _ => .inl (by rw [hl]; rfl))
        (fun _ => not_lt.mp hfr)
        (.inl le_rfl) (.inr (.inl (not_lt.mp hfr)))
  | sleep c =>
    obtain ⟨hdo, ⟨⟩⟩ := ite_none_right_eq_some.mp ht
    exact inv.move (by rw [hdo]; rfl) nofun (fun _ => .inl (by rw [hdo]; rfl)) nofun (.inl le_rfl)
      (.inr (.inl (inv.dozing c hdo)))
  | notifyComplete c =>
    obtain ⟨hp, ⟨⟩⟩ := ite_none_right_eq_some.mp ht
    have hch : (s.callers c).charged = true := by
      rcases hp with hp | hp <;> rw [hp] <;> rfl
    have some : 0 < tally (·.charged = true) s.callers :=
      Nat.pos_of_ne_zero fun hnn => tally_eq_zero_iff.mp hnn c hch
    rw [inv.int32_eq hf few (.inr ⟨rfl, some⟩)]
    exact inv.move (by rw [if_pos hch]; exact add_zero _) nofun nofun nofun (.inr hc) (.inl rfl)
  | notify c w =>
    cases w with
    | none =>
      obtain ⟨⟨hn, hno⟩, ⟨⟩⟩ := ite_none_right_eq_some.mp ht
      refine inv.move (by rw [hn]; rfl) nofun nofun nofun (.inl le_rfl) (.inr (.inr (.inl ?_)))
      exact (forall_update_iff _ fun _ hp => hp ≠ Caller.asleep).mpr ⟨nofun, fun o _ => hno o⟩
    | some w =>
      obtain ⟨⟨hn, ha⟩, ⟨⟩⟩ := ite_none_right_eq_some.mp ht
      have hd : w ≠ c := by
        rintro rfl
        rw [hn] at ha
        cases ha
      have hs : (s.move s.availableSlack w .locking).callers c = .notifying :=
        (update_of_ne hd.symm ..).trans hn
      refine (inv.wake ha).move (by rw [hs]; rfl) nofun nofun nofun (.inl le_rfl)
        (.inr (.inr (.inr ⟨w, hd, ?_⟩)))
      simp [move, Caller.active]
  | wake c =>
    obtain ⟨ha, ⟨⟩⟩ := ite_none_right_eq_some.mp ht
    exact inv.wake ha

end

theorem asleep_of_blocked {n : Nat} {s : SlackLimiter n}
    (hb : ∀ a : LimiterAction n, a.inCall = true → s.step a = none) (c : Fin n) :
    s.callers c = .idle ∨ s.callers c = .asleep := by
  have haw : ∀ o, s.callers o ≠ .dozing := fun o hd => by
    simpa [step, hd] using hb (.sleep o) rfl
  cases hp : s.callers c with
  | idle => exact .inl rfl
  | asleep => exact .inr rfl
  | dozing => exact absurd hp (haw c)
  | locking => simpa [step, hp, haw] using hb (.check c) rfl
  | admitted | undoing => simpa [step, hp] using hb (.notifyComplete c) rfl
  | notifying =>
    by_cases hs : ∃ o, s.callers o = .asleep
    · obtain ⟨w, ha⟩ := hs
      simpa [step, hp, ha] using hb (.notify c (.some w)) rfl
    · rw [not_exists] at hs
      simpa [step, hp, hs] using hb (.notify c none) rfl

/-- **The slack limiter.** In every run in which no caller has to wait beyond as many as there are
places, and nothing completes between the look at the counter and the sleep of a waiting caller, the
tasks under way never exceed the slack and no caller starves. -/
theorem run_limits {n slack : Nat} (fits : slack + 1 < 2 ^ 31) (few : n < 2 ^ 31)
    {actions : List (LimiterAction n)} {state : SlackLimiter n}
    (run : (slackLimiter n slack).Run (SlackLimiter.Careful slack) actions state) :
    state.pending ≤ slack ∧ ¬ state.Stuck := by
  have inv : LimiterInv slack state := by
    refine run.invariant _ ?_ fun _ _ _ inv _ hc ht => step_limiter fits few inv hc ht
    rintro _ rfl
    have hn : ∀ p : Caller → Prop, [DecidablePred p] → ¬ p .idle →
        tally p (initial n slack).callers = 0 := fun p _ out => tally_eq_zero_iff.mpr fun _ => out
    refine ⟨?_, (hn _ nofun).le.trans (Nat.zero_le _), (hn _ nofun).le.trans (Nat.zero_le _), nofun,
      nofun⟩
    rw [hn _ nofun, Nat.cast_zero, add_zero]
    simp only [initial]
    exact int32_of_fits (by omega) (by omega)
  refine ⟨inv.pending, ?_⟩
  rintro ⟨_, ⟨c, hw⟩, hb⟩
  have hph := asleep_of_blocked hb
  have hap : state.callers c = .asleep := by
    refine (hph c).resolve_left fun hi => ?_
    rw [hi] at hw
    cases hw
  have hfu : state.availableSlack ≤ 0 := by
    by_contra hf
    obtain ⟨o, ha⟩ := inv.asleep c hap (not_le.mp hf)
    rcases hph o with hp | hp <;> rw [hp] at ha <;> cases ha
  have hs : tally (·.charged = true) state.callers = state.waiting := by
    refine congrArg Finset.card (Finset.filter_congr fun o _ => ?_)
    rcases hph o with hp | hp <;> rw [hp] <;> rfl
  have := inv.counted
  have := inv.waiting
  omega

/-- Two callers and one place: the second waits until the first has completed. -/
theorem run_limits_two : ∃ actions state,
    (slackLimiter 2 1).Run (SlackLimiter.Careful 1) actions state ∧
    state.callers 1 = .admitted ∧ state.pending ≤ 1 ∧ ¬ state.Stuck := by
  have run : ∃ state, (slackLimiter 2 1).Run (SlackLimiter.Careful 1)
    [.addNewPending 0, .addNewPending 1, .check 1,
      .sleep 1, .notifyComplete 0, .notify 0 (some 1), .check 1] state ∧
          state.callers 1 = .admitted :=
    ⟨_, Machine.Run.of_follow _ (by exact rfl) (by exact rfl), by decide⟩
  obtain ⟨state, run, admitted⟩ := run
  exact ⟨_, state, run, admitted, run_limits (by decide) (by decide) run⟩

theorem stuck_of_asleep {n : Nat} {s : SlackLimiter n}
    (hp : ∀ c, s.callers c = .idle ∨ s.callers c = .asleep)
    {c : Fin n} (hap : s.callers c = .asleep) : s.Stuck := by
  have ha : ∀ p o, p ≠ .idle → p ≠ .asleep → s.callers o ≠ p := by
    rintro _ o hi hs rfl
    exact (hp o).elim hi hs
  refine ⟨tally_eq_zero_iff.mpr fun o => ha _ o nofun nofun, ⟨c, by rw [hap]; rfl⟩, ?_⟩
  intro a hic
  cases a with
  | addNewPending _ | poll _ | wake _ => cases hic
  | notify _ w => cases w <;> simp [step, ha]
  | _ => simp [step, ha]

/-- Three callers and one place: the first is admitted and completes, and the two others, which both
wait, wait for ever. -/
theorem two_waiters_starve : ∃ state : SlackLimiter 3, (slackLimiter 3 1).Reachable state ∧
    state.Stuck := by
  have run : ∃ state, (slackLimiter 3 1).Run (fun _ _ => True) [.addNewPending 0, .addNewPending 1,
    .addNewPending 2,
      .check 1, .sleep 1, .check 2, .sleep 2, .notifyComplete 0, .notify 0 (some 1), .check 1,
        .sleep 1] state ∧
      (∀ c, state.callers c = .idle ∨ state.callers c = .asleep) ∧ state.callers 1 = .asleep :=
    ⟨_, Machine.Run.of_follow _ (by exact rfl) (by exact rfl), by decide⟩
  obtain ⟨state, run, hp, ha⟩ := run
  exact ⟨state, ⟨_, run⟩, stuck_of_asleep hp ha⟩

end Proteus.Olap
