/-
**Buffer credits** (`platform/lib/network/infiniband/infiniband-handler.cpp`).

The sender's side of the buffers that the receiver lends it. `get_buffer` takes one; a call that
sees exactly a fifth of a grant in the pool asks for the next grant, unless it has asked already,
and a call that finds the pool empty waits. Calls come one at a time. A request is a job of the
thread pool, then a message, then a job of the peer, whose answer is again a message; each of these
takes as long as it likes.

Asking depends on a call that sees one particular size. It is not passed by: the pool shrinks one by
one, and only a grant, which is larger, makes it grow.

* `Credits.Balanced` — the invariant: the pool is at or above the threshold and nothing is under
  way, or one message is and the pool is below.
* `run_credits` — at most one request or grant is under way, one if the pool is empty, and a call
  that waits goes on within five steps, whichever they are.
-/

import Proteus.Network.Delivery

namespace Proteus.Network

open Library List Option

/-- The pool of the sender, with the stages of a request: the job that posts it, the request itself,
the job that grants it, and the grant. -/
structure Credits where
  pendBuffers : Nat
  hasRequestedBuffers : Bool
  availRemoteBuffs : Nat
  waiting : Bool
  requestJobs : Nat
  requests : Nat
  grantJobs : Nat
  grants : Nat
deriving DecidableEq, Repr

/-- The constructor has sent a request. -/
def Credits.initial : Credits := ⟨0, false, 0, false, 0, 1, 0, 0⟩

inductive CreditAction where
  | getBuffer
  | wake
  | postRequest
  | handleRequest
  | grant
  | refill
deriving DecidableEq, Repr

namespace Credits

def threshold (buffnum : Nat) : Nat := buffnum / 5

/-- What is under way. -/
def inFlight (credits : Credits) : Nat :=
  credits.requestJobs + credits.requests + credits.grantJobs + credits.grants

variable (ndebug : Bool) (buffnum : Nat) (credits : Credits)

/-- The end of `get_buffer`; without assertions `avail_remote_buffs` is not counted down. -/
def pop : Option Credits :=
  if ndebug then some { credits with pendBuffers := credits.pendBuffers - 1, waiting := false }
  else if credits.availRemoteBuffs = credits.pendBuffers then
    some { credits with
      pendBuffers := credits.pendBuffers - 1
      availRemoteBuffs := credits.availRemoteBuffs - 1
      waiting := false }
  else none

/-- The beginning of `get_buffer`. -/
def askFirst : Credits :=
  if credits.pendBuffers = threshold buffnum ∧ credits.hasRequestedBuffers = false then
    { credits with hasRequestedBuffers := true, requestJobs := credits.requestJobs + 1 }
  else credits

/-- `get_buffer`, up to its end or to the wait. -/
def getBuffer : Option Credits :=
  let asked := credits.askFirst buffnum
  if asked.pendBuffers = 0 then some { asked with waiting := true } else asked.pop ndebug

/-- The receive completion with immediate value 2. -/
def refill : Credits :=
  { credits with
    pendBuffers := credits.pendBuffers + buffnum
    availRemoteBuffs := credits.availRemoteBuffs + buffnum
    hasRequestedBuffers := false
    grants := credits.grants - 1 }

def Enabled : CreditAction → Prop
  | .getBuffer => credits.waiting = false
  | .wake => credits.waiting = true ∧ 0 < credits.pendBuffers
  | .postRequest => 0 < credits.requestJobs
  | .handleRequest => 0 < credits.requests
  | .grant => 0 < credits.grantJobs
  | .refill => 0 < credits.grants

def next : CreditAction → Option Credits
  | .getBuffer => credits.getBuffer ndebug buffnum
  | .wake => credits.pop ndebug
  | .postRequest => some { credits with
      requestJobs := credits.requestJobs - 1, requests := credits.requests + 1 }
  | .handleRequest => some { credits with
      requests := credits.requests - 1, grantJobs := credits.grantJobs + 1 }
  | .grant => some { credits with grantJobs := credits.grantJobs - 1, grants := credits.grants + 1 }
  | .refill => some (credits.refill buffnum)

end Credits

/-- The calls and messages of one sender. -/
def credits (ndebug : Bool) (buffnum : Nat) : Machine Credits CreditAction where
  Start state := state = .initial
  Enabled := Credits.Enabled
  next := Credits.next ndebug buffnum

/-! ### The balance -/

/-- The pool has a fifth of a grant and nothing is under way, or one message is: then it has less,
and none before the first grant. -/
def Credits.Level (buffnum pendBuffers inFlight : Nat) (hasRequestedBuffers : Bool) : Prop :=
  (Credits.threshold buffnum ≤ pendBuffers ∧ hasRequestedBuffers = false ∧ inFlight = 0) ∨
    (pendBuffers < Credits.threshold buffnum ∧ inFlight = 1 ∧
    (hasRequestedBuffers = false → pendBuffers = 0))

/-- **The balance**; a call that waits finds nothing, or a whole grant. -/
structure Credits.Balanced (ndebug : Bool) (buffnum : Nat) (state : Credits) : Prop where
  level : Credits.Level buffnum state.pendBuffers state.inFlight state.hasRequestedBuffers
  counted : ndebug = false → state.availRemoteBuffs = state.pendBuffers
  waits : state.waiting = true → state.pendBuffers = 0 ∨ state.pendBuffers = buffnum ∧
    state.inFlight = 0

variable {action ac : CreditAction} {actions : List CreditAction}

open Credits

section

variable {nd : Bool} {bu : Nat} {st a : Credits}

theorem threshold_bounds (he : 5 ≤ bu) : 0 < threshold bu ∧ threshold bu < bu := by
  unfold threshold
  omega

theorem initial_balanced (he : 5 ≤ bu) : initial.Balanced nd bu := by
  refine ⟨.inr ⟨(threshold_bounds he).1, rfl, fun _ => rfl⟩, fun _ => rfl, fun hw => ?_⟩
  exact absurd hw Bool.false_ne_true

theorem pop_balanced (hc : nd = false → st.availRemoteBuffs = st.pendBuffers)
    (hl : Credits.Level bu (st.pendBuffers - 1) st.inFlight st.hasRequestedBuffers) :
    ∃ a, st.pop nd = some a ∧ a.Balanced nd bu := by
  cases nd with
  | true =>
    exact ⟨_, rfl, hl, fun hd => (nomatch hd), fun hw => (nomatch hw)⟩
  | false =>
    have hs := hc rfl
    refine ⟨_, if_pos hs, hl, fun _ => ?_, fun hw => (nomatch hw)⟩
    rw [hs]

section

variable (enough : 5 ≤ bu) (balanced : st.Balanced nd bu)

include enough balanced

theorem getBuffer_balanced : ∃ a, st.getBuffer nd bu = some a ∧ a.Balanced nd bu := by
  obtain ⟨hp, hl⟩ := threshold_bounds enough
  obtain ⟨hle, hc, hw⟩ := balanced
  unfold getBuffer askFirst
  by_cases asks : st.pendBuffers = threshold bu ∧ st.hasRequestedBuffers = false
  · -- the call that sees the threshold: nothing is under way, and it asks
    rw [if_pos asks]
    have hq : st.inFlight = 0 := by
      rcases hle with ⟨_, _, hq⟩ | ⟨hb, _⟩
      · exact hq
      · omega
    have hpr : st.pendBuffers ≠ 0 := by omega
    simp only [if_neg hpr]
    refine pop_balanced hc (.inr ⟨?_, ?_, fun hf => (nomatch hf)⟩)
    · show st.pendBuffers - 1 < _
      omega
    · simp only [inFlight] at hq ⊢
      omega
  · rw [if_neg asks]
    by_cases he : st.pendBuffers = 0
    · simp only [if_pos he]
      exact ⟨_, rfl, hle, hc, fun _ => .inl he⟩
    · simp only [if_neg he]
      refine pop_balanced hc ?_
      rcases hle with ⟨hab, hf, hq⟩ | ⟨hb, one, hfi⟩
      · have ha : st.pendBuffers ≠ threshold bu := fun hs => asks ⟨hs, hf⟩
        exact .inl ⟨by omega, hf, hq⟩
      · exact .inr ⟨by omega, one, fun hf => absurd (hfi hf) he⟩

theorem wake_balanced (hwa : st.waiting = true) (hpr : 0 < st.pendBuffers) :
    ∃ a, st.pop nd = some a ∧ a.Balanced nd bu := by
  obtain ⟨hp, hl⟩ := threshold_bounds enough
  obtain ⟨hle, hc, hw⟩ := balanced
  obtain ⟨hf, hq⟩ := (hw hwa).resolve_left (by omega)
  refine pop_balanced hc ?_
  rcases hle with ⟨_, hfl, _⟩ | ⟨_, one, _⟩
  · exact .inl ⟨by omega, hfl, hq⟩
  · omega

theorem refill_balanced (hg : 0 < st.grants) : (st.refill bu).Balanced nd bu := by
  obtain ⟨hp, hl⟩ := threshold_bounds enough
  obtain ⟨hle, hc, hw⟩ := balanced
  have one : st.inFlight = 1 := by
    rcases hle with ⟨_, _, hq⟩ | ⟨_, one, _⟩
    · simp only [inFlight] at hq
      omega
    · exact one
  have hq : (st.refill bu).inFlight = 0 := by
    simp only [inFlight, refill] at one ⊢
    omega
  refine ⟨.inl ⟨?_, rfl, hq⟩, fun hd => ?_, fun hwa => .inr ⟨?_, hq⟩⟩
  · show _ ≤ st.pendBuffers + bu
    omega
  · show st.availRemoteBuffs + bu = st.pendBuffers + bu
    rw [hc hd]
  · have he : st.pendBuffers = 0 := (hw hwa).resolve_right (by omega)
    show st.pendBuffers + bu = bu
    omega

end

theorem Credits.Balanced.move (hb : st.Balanced nd bu) {requestJobs requests grantJobs grants : Nat}
    (hs : requestJobs + requests + grantJobs + grants = st.inFlight) :
    Credits.Balanced nd bu { st with requestJobs, requests, grantJobs, grants } := by
  have ht : inFlight { st with requestJobs, requests, grantJobs, grants } = st.inFlight := hs
  obtain ⟨hl, hc, hw⟩ := hb
  refine ⟨?_, hc, ?_⟩
  · rw [ht]
    exact hl
  · rw [ht]
    exact hw

/-- **Each step** succeeds and keeps the balance. -/
theorem step_balanced (hen : 5 ≤ bu) (hb : st.Balanced nd bu) (he : st.Enabled ac) :
    ∃ a, st.next nd bu ac = some a ∧ a.Balanced nd bu := by
  cases ac with
  | getBuffer => exact getBuffer_balanced hen hb
  | wake => exact wake_balanced hen hb he.1 he.2
  | postRequest =>
    have hp : 0 < st.requestJobs := he
    exact ⟨_, rfl, hb.move (by unfold inFlight; omega)⟩
  | handleRequest =>
    have hp : 0 < st.requests := he
    exact ⟨_, rfl, hb.move (by unfold inFlight; omega)⟩
  | grant =>
    have hp : 0 < st.grantJobs := he
    exact ⟨_, rfl, hb.move (by unfold inFlight; omega)⟩
  | refill => exact ⟨_, rfl, refill_balanced hen hb he⟩

theorem run_balanced (hen : 5 ≤ bu)
    (run : (credits nd bu).Run (fun _ _ => True) actions st) : st.Balanced nd bu := by
  refine run.invariant _ (fun s hi => ?_) fun b action a hb he _ ht => ?_
  · obtain rfl : s = .initial := hi
    exact initial_balanced hen
  · obtain ⟨n, hd, hk⟩ := step_balanced hen hb he
    obtain rfl := some.inj (hd.symm.trans ht)
    exact hk

end

/-! ### Waiting -/

def Credits.distance (state : Credits) : Nat :=
  4 * state.requestJobs + 3 * state.requests + 2 * state.grantJobs + state.grants

section

variable {nd : Bool} {bu : Nat} {st a : Credits}

theorem step_distance (hw : st.waiting = true) (he : st.Enabled ac)
    (ht : st.next nd bu ac = some a) (ha : ac ≠ .wake) :
    a.waiting = true ∧ a.distance + 1 = st.distance := by
  cases ac with
  | getBuffer => exact absurd (hw.symm.trans he) Bool.noConfusion
  | wake => exact absurd rfl ha
  | postRequest =>
    have hp : 0 < st.requestJobs := he
    cases ht
    refine ⟨hw, ?_⟩
    simp only [distance]
    omega
  | handleRequest =>
    have hp : 0 < st.requests := he
    cases ht
    refine ⟨hw, ?_⟩
    simp only [distance]
    omega
  | grant =>
    have hp : 0 < st.grantJobs := he
    cases ht
    refine ⟨hw, ?_⟩
    simp only [distance]
    omega
  | refill =>
    have hp : 0 < st.grants := he
    cases ht
    refine ⟨hw, ?_⟩
    simp only [distance, refill]
    omega

theorem pop_awake (hp : st.pop nd = some a) : a.waiting = false := by
  unfold pop at hp
  split_ifs at hp
  · cases hp
    rfl
  · cases hp
    rfl

theorem path_wakes (hp : (credits nd bu).Path (fun _ _ => True) st actions a)
    (hw : st.waiting = true) (hl : st.distance < actions.length) :
    ∃ b tl m, actions = b ++ .wake :: tl ∧
      (credits nd bu).Path (fun _ _ => True) st (b ++ [.wake]) m ∧ m.waiting = false := by
  induction hp with
  | nil => exact absurd hl (Nat.not_lt_zero _)
  | @cons st m l action actions he _ ht _ ih =>
    by_cases hwa : action = .wake
    · subst hwa
      exact ⟨[], actions, m, rfl, .cons he trivial ht .nil, pop_awake ht⟩
    · obtain ⟨hst, hc⟩ := step_distance hw he ht hwa
      rw [length_cons] at hl
      obtain ⟨b, tl, w, hs, hp, ha⟩ := ih hst (by omega)
      exact ⟨action :: b, tl, w, by rw [hs]; rfl, .cons he trivial ht hp, ha⟩

theorem Credits.Balanced.distance_le (hb : st.Balanced nd bu) : st.distance ≤ 4 := by
  have few : st.inFlight ≤ 1 := by
    rcases hb.level with ⟨_, _, hq⟩ | ⟨_, one, _⟩
    · omega
    · omega
  simp only [inFlight, distance] at few ⊢
  omega

theorem Credits.Balanced.enabled (hb : st.Balanced nd bu) (he : 5 ≤ bu)
    (hw : st.waiting = true) : ∃ action, st.Enabled action := by
  have hp := (threshold_bounds he).1
  rcases hb.level with ⟨ha, _, _⟩ | ⟨_, one, _⟩
  · exact ⟨.wake, hw, by omega⟩
  · simp only [inFlight] at one
    by_cases hj : 0 < st.requestJobs
    · exact ⟨.postRequest, hj⟩
    by_cases hr : 0 < st.requests
    · exact ⟨.handleRequest, hr⟩
    by_cases hgj : 0 < st.grantJobs
    · exact ⟨.grant, hgj⟩
    · exact ⟨.refill, by show 0 < st.grants; omega⟩

end

/-- **Credits never run dry unnoticed.** At most one request or grant is under way, and one is
whenever the pool is empty. While a call waits there is a step to take, and it goes on within any
five steps. -/
theorem run_credits {ndebug : Bool} {buffnum : Nat} (enough : 5 ≤ buffnum)
    {actions : List CreditAction}
    {state : Credits} (run : (credits ndebug buffnum).Run (fun _ _ => True) actions state) :
    state.inFlight ≤ 1 ∧ (state.pendBuffers = 0 → state.inFlight = 1) ∧ (state.waiting = true →
      (∃ action after, state.Enabled action ∧ state.next ndebug buffnum action = some after) ∧
        ∀ more last, (credits ndebug buffnum).Path (fun _ _ => True) state more last →
          5 ≤ more.length →
          ∃ before rest middle, more = before ++ .wake :: rest ∧
            (credits ndebug buffnum).Path (fun _ _ => True) state (before ++ [.wake]) middle ∧
            middle.waiting = false) := by
  have hb := run_balanced enough run
  have hpo := (threshold_bounds enough).1
  refine ⟨?_, fun hem => ?_, fun waiting => ⟨?_, fun more last hp hf => ?_⟩⟩
  · rcases hb.level with ⟨_, _, hq⟩ | ⟨_, one, _⟩
    · omega
    · omega
  · rcases hb.level with ⟨ha, _, _⟩ | ⟨_, one, _⟩
    · omega
    · exact one
  · obtain ⟨action, he⟩ := hb.enabled enough waiting
    obtain ⟨after, ht, _⟩ := step_balanced enough hb he
    exact ⟨action, after, he, ht⟩
  · have hn := hb.distance_le
    exact path_wakes hp waiting (by omega)

instance decidableCreditEnabled (ndebug : Bool) (buffnum : Nat) (state : Credits)
    (action : CreditAction) :
    Decidable ((credits ndebug buffnum).Enabled state action) := by
  cases action <;> unfold credits Credits.Enabled <;> infer_instance

def demoCalls : List CreditAction :=
  [.getBuffer, .handleRequest, .grant, .refill, .wake, .getBuffer, .getBuffer, .getBuffer,
    .getBuffer, .getBuffer]

theorem run_credits_five : ∃ state, (credits false 5).Run (fun _ _ => True) demoCalls state ∧
    state.waiting = true ∧ state.inFlight ≤ 1 ∧ (state.pendBuffers = 0 ∧ state.inFlight = 1) ∧
    (∃ action after, state.Enabled action ∧ state.next false 5 action = some after) ∧
    ∀ more last, (credits false 5).Path (fun _ _ => True) state more last → 5 ≤ more.length →
      ∃ before rest middle, more = before ++ .wake :: rest ∧
        (credits false 5).Path (fun _ _ => True) state (before ++ [.wake]) middle ∧
            middle.waiting = false := by
  have hr : ∃ state, (credits false 5).Run (fun _ _ => True) demoCalls state ∧
      (state.waiting, state.pendBuffers) = (true, 0) :=
    Machine.Run.of_computed .initial rfl (by decide)
  obtain ⟨state, run, hs⟩ := hr
  obtain ⟨waiting, he⟩ := Prod.mk.inj hs
  obtain ⟨few, hn, hgo⟩ := run_credits (by decide) run
  exact ⟨state, run, waiting, few, ⟨he, hn he⟩, hgo waiting⟩

end Proteus.Network
