/-
**Runs of the router.**

Each buffer of a target is in its pool, with a producer, in its ready queue or with its firer; what
a producer writes to its buffer is therefore still there when the firer consumes it.

* `TargetInv` — the invariant of a target, with what the producers have of it.
* `TargetInv.fire`, `TargetInv.pop`, … — one step, of the firer or of a producer.
* `run_conserves` — in every state of every run, buffers are conserved, items are consumed in order
  and all of them before the pipeline is closed, and the last loop of a firer does not wait and gets
  all buffers. The number of producers is limited by the tickets of the pool.
-/

import Proteus.Olap.Router.Pool

namespace Proteus.Olap.Router

open Library Platform List Option Function

/-! ### What producers and firers have -/

namespace Producer

variable {fanout : Nat}

/-- The call of `pop` at a target. -/
def popAt (target : Fin fanout) : Producer fanout → Option Pop
  | .acquiring other pop => if other = target then some pop else none
  | _ => none

/-- The buffers of a target. -/
def heldAt (target : Fin fanout) : Producer fanout → Multiset Nat
  | .holding other buffer => if other = target then {buffer} else 0
  | _ => 0

/-- A producer that has not called `close`. -/
def Active : Producer fanout → Prop
  | .idle | .acquiring .. | .holding .. => True
  | _ => False

instance : DecidablePred (@Active fanout)
  | .idle | .acquiring .. | .holding .. => isTrue trivial
  | .closing _ | .waiting _ | .joining | .closed => isFalse id

end Producer

namespace Firer

/-- The buffers of a firer. -/
def holds (slack : Nat) : Firer → Multiset Nat
  | .filling j _ => (List.range' j (slack - j) : List Nat)
  | .consuming buffer | .freeing buffer _ => {buffer}
  | .draining acquired _ | .finished acquired => (acquired : List Nat)
  | .ready | .closing => 0

/-- The buffer that is to be consumed. -/
def inHand : Firer → List Nat
  | .consuming buffer => [buffer]
  | _ => []

def popOf : Firer → Option Pop
  | .draining _ pop => some pop
  | _ => none

def emplaceOf : Firer → Option Emplace
  | .filling _ emplace | .freeing _ emplace => some emplace
  | _ => none

/-- A firer whose queue has ended. -/
def Ended : Firer → Prop
  | .closing | .draining .. | .finished _ => True
  | _ => False

end Firer

def popsWith {P : Nat} (firer : Firer) (pops : Fin P → Option Pop) : Option (Fin P) → Option Pop
  | none => firer.popOf
  | some producer => pops producer

/-! ### The invariant of a target -/

/-- A target, with the calls of `pop` by the producers and the buffers they hold. -/
structure TargetInv {α : Type} {P : Nat} (slack : Nat) (target : Target α)
    (pops : Fin P → Option Pop)
    (held : Multiset Nat) : Prop where
  pool : PoolInv target.freePool target.firer.emplaceOf (popsWith target.firer pops)
  partition : target.freePool.free + held + (target.readyFifo.contents : Multiset Nat) +
    target.firer.holds slack = Multiset.range slack
  delivered : target.released = target.consumed ++
    (target.firer.inHand ++ target.readyFifo.contents).map target.memory
  ended : target.firer.Ended → target.readyFifo.contents = [] ∧ target.readyFifo.terminating = true
  served : ∀ acquired t, target.firer = .draining acquired (.ticket t) → t < target.freePool.head
  filling : ∀ j emplace, target.firer = .filling j emplace → j ≤ slack ∧
    (emplace ≠ .start → j < slack)
  draining : ∀ acquired pop, target.firer = .draining acquired pop → pop ≠ .start →
    acquired.length < slack

/-- Producers that have nothing of a target. -/
def Quiet {P : Nat} (pops : Fin P → Option Pop) (held : Multiset Nat) : Prop :=
  (∀ producer, pops producer = none) ∧ held = 0

variable {tl : Pop ⊕ Nat} {b : Nat} {acquired ac : List Nat} {slack s : Nat}

open AsyncQueue

section

variable {α : Type} {P sl : Nat} {ta : Target α} {po : Fin P → Option Pop} {h : Multiset Nat}
  {pr : Fin P}

theorem popsWith_update (f : Firer) (n : Option Pop) : popsWith f (update po pr n) =
      update (popsWith f po) (some pr) n := by
  funext p
  cases p with
  | none => rfl
  | some o =>
    by_cases hs : o = pr
    · subst hs
      simp [popsWith]
    · have hd : some o ≠ some pr := fun he => hs (some.inj he)
      rw [update_of_ne hd]
      exact update_of_ne hs _ _

theorem fewWait (few : P + ringSlots ≤ 2 ^ 31 + 1)
    (ha : ta.firer.popOf ≠ none → ∀ pr, po pr = none) :
    FewWait (popsWith ta.firer po) := by
  have hc : tally (fun w : Option Nat => w.isSome)
      (pendingOf (popsWith ta.firer po)) ≤ max P 1 := by
    by_cases hf : ta.firer.popOf = none
    · refine le_max_of_le_left ?_
      have hi : (Finset.univ.filter fun p =>
          (pendingOf (popsWith ta.firer po) p).isSome = true) ⊆ Finset.univ.erase none := by
        intro p hm
        rw [Finset.mem_filter] at hm
        refine Finset.mem_erase.mpr ⟨?_, Finset.mem_univ _⟩
        rintro rfl
        simp [pendingOf, popsWith, hf] at hm
      have := Finset.card_le_card hi
      rwa [Finset.card_erase_of_mem (Finset.mem_univ _), Finset.card_univ, Fintype.card_option,
        Fintype.card_fin, Nat.add_sub_cancel] at this
    · refine le_max_of_le_right (Finset.card_le_one.mpr fun f hm s ho => ?_)
      have hon : ∀ p ∈ Finset.univ.filter fun p =>
          (pendingOf (popsWith ta.firer po) p).isSome = true, p = none := by
        intro p hm
        cases p with
        | none => rfl
        | some pr =>
          rw [Finset.mem_filter, pendingOf, popsWith, ha hf pr] at hm
          cases hm.2
      rw [hon f hm, hon s ho]
  have : 1 + ringSlots ≤ 2 ^ 31 + 1 := by decide
  unfold FewWait
  rcases max_cases P 1 with ⟨hmo, _⟩ | ⟨hmo, _⟩ <;> omega

namespace TargetInv

theorem initial (b : α) : TargetInv sl
    ⟨.initial 0, .initial 0, .filling 0 .start, fun _ => b, [], []⟩ (fun _ : Fin P => none) 0 where
  pool := by
    have none : popsWith (.filling 0 .start) (fun _ : Fin P => none) = fun _ => none := by
      funext p
      cases p <;> rfl
    rw [none]
    exact .initial
  partition := by
    simp only [free_initial, contents_initial, Firer.holds, Multiset.coe_nil, zero_add,
      Nat.sub_zero, ← range_eq_range']
    rfl
  delivered := rfl
  ended := nofun
  served := nofun
  filling := by
    rintro j e ⟨⟩
    exact ⟨Nat.zero_le _, fun hs => absurd rfl hs⟩
  draining := nofun

variable (inv : TargetInv sl ta po h)

include inv

theorem alone (hq : ta.readyFifo.terminating = true → Quiet po h) (hf : ta.firer.popOf ≠ none) :
    ∀ pr, po pr = none := by
  have he : ta.firer.Ended := by
    cases hp : ta.firer with
    | draining => trivial
    | _ =>
      rw [hp] at hf
      exact absurd rfl hf
  exact (hq (inv.ended he).2).1

/-- **A producer takes a step of `pop`.** -/
theorem pop (few : FewWait (popsWith ta.firer po))
    {s : Pop} {a : RingBuffer Nat} (hc : po pr = some s)
    (ht : popStep ta.freePool s = some (a, tl)) :
    TargetInv sl { ta with freePool := a } (update po pr (tl.elim some fun _ => none))
      (h + tl.elim (fun _ => 0) fun b => {b}) := by
  obtain ⟨hpo, hf, hh⟩ := inv.pool.popStep few
    (show popsWith ta.firer po (some pr) = some s from hc) ht
  refine ⟨?_, ?_, inv.delivered, inv.ended, fun acquired t hp => ?_, inv.filling, inv.draining⟩
  · rw [popsWith_update]
    exact hpo
  · rw [← inv.partition, ← hf]
    show a.free + (h + _) + _ + _ = _
    abel
  · exact lt_of_lt_of_eq (inv.served acquired t hp) hh.symm

/-- **A producer begins to acquire.** -/
theorem acquire (hi : po pr = none) : TargetInv sl ta (update po pr (some .start)) h := by
  refine { inv with pool := ?_ }
  rw [popsWith_update]
  exact inv.pool.beginPop hi

theorem held_apart (hh : b ∈ h) : b ∉ ta.firer.inHand ++ ta.readyFifo.contents := by
  intro hm
  have ha : ∀ f tl : Multiset Nat, (f + h + tl).Nodup → b ∉ tl := by
    intro f tl hn
    exact Multiset.disjoint_left.mp (Multiset.nodup_add.mp hn).2.2 (Multiset.mem_add.mpr (.inr hh))
  refine ha ta.freePool.free (ta.readyFifo.contents + ta.firer.holds sl) ?_ ?_
  · rw [← add_assoc, inv.partition]
    exact Multiset.nodup_range sl
  rcases mem_append.mp hm with hha | hq
  · have : b ∈ ta.firer.holds sl := by
      cases hp : ta.firer with
      | consuming o =>
        rw [hp] at hha
        exact Multiset.mem_singleton.mpr (mem_singleton.mp hha)
      | _ =>
        rw [hp] at hha
        cases hha
    simp [this]
  · simp [hq]

/-- **A producer writes** to a buffer it holds. -/
theorem fill (hh : b ∈ h) (x : α) :
    TargetInv sl { ta with memory := update ta.memory b x } po h := by
  refine { inv with delivered := ?_ }
  show ta.released = ta.consumed ++ List.map _ _
  rw [inv.delivered]
  refine congrArg (ta.consumed ++ ·) (map_congr_left fun o hm => ?_)
  refine (update_of_ne ?_ _ _).symm
  rintro rfl
  exact inv.held_apart hh hm

/-- **A producer releases** a buffer. -/
theorem release {tl : Multiset Nat} (hh : h = tl + {b}) (he : ta.readyFifo.terminating = false) :
    TargetInv sl { ta with
      readyFifo := ta.readyFifo.push b
      released := ta.released ++ [ta.memory b] } po tl := by
  refine ⟨inv.pool, ?_, ?_, fun hp => ?_, inv.served, inv.filling, inv.draining⟩
  · rw [← inv.partition, hh]
    simp only [contents_push, ← Multiset.coe_add, Multiset.coe_singleton]
    abel
  · simp only [contents_push, inv.delivered, map_append, append_assoc, map_cons, map_nil]
  · rw [(inv.ended hp).2] at he
    cases he

/-- **The queue is closed.** -/
theorem startClose : TargetInv sl { ta with readyFifo := ta.readyFifo.startClose } po h :=
  ⟨inv.pool, inv.partition, inv.delivered, fun hp => ⟨(inv.ended hp).1, rfl⟩, inv.served,
    inv.filling, inv.draining⟩

omit inv

/-! #### The firer -/

theorem popsWith_congr {f n : Firer} (hs : f.popOf = n.popOf) : popsWith f po = popsWith n po := by
  funext p
  cases p with
  | none => exact hs
  | some _ => rfl

theorem popsWith_firer (f : Firer) {n : Firer} :
    popsWith n po = update (popsWith f po) none n.popOf := by
  funext p
  cases p with
  | none =>
    rw [update_self]
    rfl
  | some _ => rfl

variable {e : Emplace} (inv : TargetInv sl ta po h)

include inv

theorem fire_filling {j : Nat} {a : Target α}
    (hp : ta.firer = .filling j e) (ht : fireStep sl ta = some a) :
    TargetInv sl a po h := by
  obtain ⟨hm, hb⟩ := inv.filling j e hp
  have hpo := inv.pool
  have hpa := inv.partition
  have hd := inv.delivered
  rw [hp] at hpo hpa hd
  simp only [fireStep, hp] at ht
  split at ht
  · next hl =>
    obtain ⟨⟨fp, tl⟩, hst, rfl⟩ := map_eq_some_iff.mp ht
    obtain ⟨hk, hf⟩ := hpo.emplaceStep hst
    cases tl with
    | none =>
      refine ⟨(popsWith_congr rfl ▸ hk).begin, ?_, hd, nofun, nofun, ?_, nofun⟩
      · rw [← hpa]
        show fp.free + h + _ + (List.range' (j + 1) (sl - (j + 1)) : Multiset Nat) =
          _ + _ + _ + (List.range' j (sl - j) : Multiset Nat)
        obtain ⟨tl, hsi⟩ : ∃ tl, sl - j = tl + 1 := ⟨sl - j - 1, by omega⟩
        rw [hf, hsi, show sl - (j + 1) = tl by omega, List.range'_succ, ← Multiset.cons_coe,
          ← Multiset.singleton_add]
        simp only [elim_none]
        abel
      · rintro o s ⟨⟩
        exact ⟨hl, fun hs => absurd rfl hs⟩
    | some n =>
      refine ⟨popsWith_congr rfl ▸ hk, ?_, hd, nofun, nofun, ?_, nofun⟩
      · rw [← hpa, hf]
        simp only [elim_some, add_zero]
        rfl
      · rintro o s ⟨⟩
        exact ⟨hm, fun _ => hl⟩
  · next hfu =>
    cases ht
    obtain rfl : e = .start := by
      by_contra hs
      exact hfu (hb hs)
    refine ⟨popsWith_congr rfl ▸ hpo.end, ?_, hd, nofun, nofun, nofun, nofun⟩
    rw [← hpa]
    show _ = _ + (List.range' j (sl - j) : Multiset Nat)
    rw [show sl - j = 0 by omega]
    rfl

theorem fire_freeing {a : Target α} (hp : ta.firer = .freeing b e)
    (ht : fireStep sl ta = some a) : TargetInv sl a po h := by
  have hpo := inv.pool
  have hpa := inv.partition
  have hd := inv.delivered
  rw [hp] at hpo hpa hd
  simp only [fireStep, hp] at ht
  obtain ⟨⟨fp, tl⟩, hs, rfl⟩ := map_eq_some_iff.mp ht
  obtain ⟨hk, hf⟩ := hpo.emplaceStep hs
  cases tl with
  | none =>
    refine ⟨popsWith_congr rfl ▸ hk, ?_, hd, nofun, nofun, nofun, nofun⟩
    rw [← hpa]
    show fp.free + h + _ + 0 = _ + _ + _ + {b}
    rw [hf]
    simp only [elim_none]
    abel
  | some n =>
    refine ⟨popsWith_congr rfl ▸ hk, ?_, hd, nofun, nofun, nofun, nofun⟩
    rw [← hpa, hf]
    simp only [elim_some, add_zero]
    rfl

theorem fire_ready {a : Target α} (hp : ta.firer = .ready) (ht : fireStep sl ta = some a) :
    TargetInv sl a po h := by
  have hpl := inv.pool
  have hpa := inv.partition
  have hd := inv.delivered
  rw [hp] at hpl hpa hd
  simp only [fireStep, hp] at ht
  obtain ⟨⟨r, rf⟩, hpo, rfl⟩ := map_eq_some_iff.mp ht
  obtain ⟨hc, _, hl⟩ := contents_pop hpo
  rw [hc] at hpa hd
  cases r with
  | none =>
    obtain ⟨hte, he, rfl⟩ := hl rfl
    exact ⟨popsWith_congr rfl ▸ hpl, hpa, hd, fun _ => ⟨he, hte⟩, nofun, nofun, nofun⟩
  | some b =>
    refine ⟨popsWith_congr rfl ▸ hpl, ?_, hd, nofun, nofun, nofun, nofun⟩
    rw [← hpa]
    show _ + (rf.contents : Multiset Nat) + {b} =
      _ + ((b :: rf.contents : List Nat) : Multiset Nat) + 0
    rw [← Multiset.cons_coe, ← Multiset.singleton_add]
    abel

theorem fire_consuming {a : Target α}
    (hp : ta.firer = .consuming b) (ht : fireStep sl ta = some a) :
    TargetInv sl a po h := by
  have hpo := inv.pool
  have hpa := inv.partition
  have hd := inv.delivered
  rw [hp] at hpo hpa hd
  simp only [fireStep, hp, Option.some.injEq] at ht
  subst ht
  refine ⟨(popsWith_congr rfl ▸ hpo : PoolInv _ none _).begin, hpa, ?_, nofun, nofun, nofun, nofun⟩
  rw [hd]
  simp [Firer.inHand]

theorem tail_lt (hq : Quiet po h) (hp : ta.firer = .draining ac .start) (hle : ac.length < sl) :
    ta.freePool.tail < ta.freePool.head := by
  have hpo := inv.pool
  have hpa := inv.partition
  obtain ⟨he, _⟩ := inv.ended (by rw [hp]; trivial)
  rw [hp, he, hq.2] at hpa
  rw [hp] at hpo
  have hso : ta.freePool.free ≠ 0 := by
    intro hn
    rw [hn] at hpa
    have hs := congrArg Multiset.card hpa
    simp only [Firer.holds, Multiset.coe_nil, add_zero, zero_add, Multiset.coe_card,
      Multiset.card_range] at hs
    omega
  obtain ⟨t, low, hl | ⟨p, hw⟩⟩ := hpo.tickets.exists_unread hso
  · exact hl.trans_lt low
  · cases p with
    | none => cases hw
    | some pr =>
      rw [pendingOf, popsWith, hq.1 pr] at hw
      cases hw

theorem fire_draining (few : FewWait (popsWith ta.firer po))
    (hq : Quiet po h) {pop : Pop} {a : Target α}
    (hp : ta.firer = .draining ac pop) (ht : fireStep sl ta = some a) :
    TargetInv sl a po h := by
  have hpo := inv.pool
  have hpa := inv.partition
  have hd := inv.delivered
  have he := inv.ended (by rw [hp]; trivial)
  simp only [fireStep, hp] at ht
  split at ht
  · next hl =>
    obtain ⟨⟨fp, tl⟩, hst, rfl⟩ := map_eq_some_iff.mp ht
    have hc : popsWith ta.firer po none = some pop := by
      rw [hp]
      rfl
    obtain ⟨hk, hfr, hh⟩ := hpo.popStep few hc hst
    rw [hp] at hk hpa hd
    cases tl with
    | inl n =>
      refine ⟨?_, ?_, hd, fun _ => he, ?_, by rintro _ _ ⟨⟩, ?_⟩
      · rw [popsWith_firer (.draining ac pop)]
        exact hk
      · rw [← hpa, ← hfr]
        simp only [Sum.elim_inl, add_zero]
        rfl
      · rintro _ t ⟨⟩
        cases pop with
        | start =>
          obtain ⟨rfl, ⟨⟩⟩ := Prod.mk.inj (some.inj hst)
          exact lt_of_lt_of_eq (inv.tail_lt hq hp hl) hh.symm
        | ticket _ =>
          rw [popStep] at hst
          split at hst <;> cases hst
        | checked _ => cases hst
      · rintro _ _ ⟨⟩ _
        exact hl
    | inr b =>
      refine ⟨?_, ?_, hd, fun _ => he, by rintro _ _ ⟨⟩, by rintro _ _ ⟨⟩, ?_⟩
      · have hb := hk.beginPop (update_self none ..)
        rw [update_idem] at hb
        rw [popsWith_firer (.draining ac pop)]
        exact hb
      · rw [← hpa, ← hfr]
        show fp.free + h + _ + ((ac ++ [b] : List Nat) : Multiset Nat) =
          _ + {b} + h + _ + (ac : Multiset Nat)
        rw [← Multiset.coe_add, Multiset.coe_singleton]
        abel
      · rintro _ _ ⟨⟩ hs
        exact absurd rfl hs
  · next hfu =>
    cases ht
    obtain rfl : pop = .start := by
      by_contra hs
      exact hfu (inv.draining ac pop hp hs)
    rw [hp] at hpo hpa hd
    refine ⟨?_, hpa, hd, fun _ => he, by rintro _ _ ⟨⟩, by rintro _ _ ⟨⟩, by rintro _ _ ⟨⟩⟩
    have hpe : pendingOf (popsWith (.finished ac) po) =
        pendingOf (popsWith (.draining ac .start) po) := by
      funext p
      cases p <;> rfl
    refine ⟨hpe ▸ hpo.tickets, fun p t hf => ?_, by rintro _ (⟨⟨⟩⟩ | ⟨⟨⟩⟩), by rintro _ ⟨⟩⟩
    cases p with
    | none => cases hf
    | some pr => exact hpo.checked (some pr) t hf

theorem acquired_all (he : ta.readyFifo.contents = []) (hq : Quiet po h) {pop : Pop}
    (hp : ta.firer = .draining ac pop)
    (all : sl ≤ ac.length) : (ac : Multiset Nat) = Multiset.range sl := by
  have hpa := inv.partition
  rw [hp, he, hq.2] at hpa
  simp only [Firer.holds, Multiset.coe_nil, add_zero] at hpa
  generalize ta.freePool.free = f at hpa
  have hs := congrArg Multiset.card hpa
  rw [Multiset.card_add, Multiset.coe_card, Multiset.card_range] at hs
  have hn : f = 0 := Multiset.card_eq_zero.mp (by omega)
  rwa [hn, zero_add] at hpa

theorem draining_fires (few : FewWait (popsWith ta.firer po))
    {pop : Pop} (hp : ta.firer = .draining ac pop) :
    ∃ a, fireStep sl ta = some a := by
  have hs : ∃ a, popStep ta.freePool pop = some a := by
    cases pop with
    | start | checked t => exact ⟨_, rfl⟩
    | ticket t =>
      have hw : pendingOf (popsWith ta.firer po) none = some t := by
        rw [hp]
        rfl
      have hf : filledBy ta.freePool.head ta.firer.emplaceOf = ta.freePool.head := by
        rw [hp]
        rfl
      have low := inv.served ac t hp
      rw [← hf] at low
      rw [popStep, if_pos ((inv.pool.tickets.mayTake_iff hw few).mpr low)]
      exact ⟨_, rfl⟩
  obtain ⟨s, hpo⟩ := hs
  simp only [fireStep, hp, hpo]
  split <;> exact ⟨_, rfl⟩

/-- **A step of the firer.** -/
theorem fire (few : P + ringSlots ≤ 2 ^ 31 + 1)
    (hq : ta.readyFifo.terminating = true → Quiet po h) {a : Target α}
    (ht : fireStep sl ta = some a) : TargetInv sl a po h := by
  cases hp : ta.firer with
  | filling j e => exact inv.fire_filling hp ht
  | ready => exact inv.fire_ready hp ht
  | consuming b => exact inv.fire_consuming hp ht
  | freeing b e => exact inv.fire_freeing hp ht
  | closing =>
    have hpo := inv.pool
    have hpa := inv.partition
    have hd := inv.delivered
    have he := inv.ended (by rw [hp]; trivial)
    rw [hp] at hpo hpa hd
    simp only [fireStep, hp, Option.some.injEq] at ht
    subst ht
    refine ⟨?_, hpa, hd, fun _ => he, nofun, nofun, ?_⟩
    · rw [popsWith_firer .closing]
      exact hpo.beginPop rfl
    · rintro _ _ ⟨⟩ hs
      exact absurd rfl hs
  | draining acquired pop =>
    have hq := hq (inv.ended (by rw [hp]; trivial)).2
    exact inv.fire_draining (fewWait few fun _ => hq.1) hq hp ht
  | finished acquired =>
    simp only [fireStep, hp] at ht
    cases ht

end TargetInv

end

theorem terminating_fireStep {α : Type} {t a : Target α} (ht : fireStep s t = some a) :
    a.readyFifo.terminating = t.readyFifo.terminating := by
  rw [fireStep] at ht
  split at ht
  · split at ht
    · obtain ⟨_, _, rfl⟩ := map_eq_some_iff.mp ht
      rfl
    · cases ht
      rfl
  · obtain ⟨_, hp, rfl⟩ := map_eq_some_iff.mp ht
    exact (contents_pop hp).2.1
  · cases ht
    rfl
  · obtain ⟨_, _, rfl⟩ := map_eq_some_iff.mp ht
    rfl
  · cases ht
    rfl
  · split at ht
    · obtain ⟨_, _, rfl⟩ := map_eq_some_iff.mp ht
      rfl
    · cases ht
      rfl
  · cases ht

/-! ### The invariant of the router -/

section

variable {config : RouterConfig} {α : Type}

namespace RouterState

variable (state : RouterState config α) (target : Fin config.fanout)

def popsAt (producer : Fin config.producers) : Option Pop := (state.producers producer).popAt target

/-- The buffers of a target that producers hold. -/
def held : Multiset Nat := gather (Producer.heldAt target) state.producers

end RouterState

def Producer.Closing {fanout : Nat} : Producer fanout → Prop
  | .closing _ | .waiting _ | .joining => True
  | _ => False

structure RouterInv (state : RouterState config α) : Prop where
  remaining : state.remainingProducers = tally Producer.Active state.producers
  closing : ∀ producer, (state.producers producer).Closing → ∀ other,
    ¬ (state.producers other).Active
  quiet : ∀ target, (state.targets target).readyFifo.terminating = true →
    ∀ producer, ¬ (state.producers producer).Active
  targets : ∀ target, TargetInv config.slack (state.targets target) (state.popsAt target)
    (state.held target)

theorem Producer.popAt_inactive {f : Nat} {p : Producer f} (hi : ¬ p.Active)
    (t : Fin f) : p.popAt t = none ∧ p.heldAt t = 0 := by
  cases p with
  | idle | acquiring | holding => exact absurd trivial hi
  | _ => exact ⟨rfl, rfl⟩

open RouterState

namespace RouterInv

variable {st : RouterState config α} {pr : Fin config.producers} {ta : Fin config.fanout}

theorem initial (b : α) : RouterInv (.initial config b) where
  remaining := by
    rw [tally_eq_card fun _ => trivial, Fintype.card_fin]
    rfl
  closing := fun _ hc => hc.elim
  quiet := nofun
  targets := fun ta => by
    have hn : (RouterState.initial config b).held ta = 0 := gather_eq_zero fun _ => rfl
    rw [hn]
    exact .initial b

open Producer

theorem quietAt (inv : RouterInv st) (hc : (st.targets ta).readyFifo.terminating = true) :
    Quiet (st.popsAt ta) (st.held ta) :=
  ⟨fun pr => (popAt_inactive (inv.quiet ta hc pr) ta).1,
    gather_eq_zero fun pr => (popAt_inactive (inv.quiet ta hc pr) ta).2⟩

theorem popsAt_setProducer (p : Producer config.fanout) : (st.setProducer pr p).popsAt ta =
      update (st.popsAt ta) pr (p.popAt ta) := by
  funext o
  by_cases hs : o = pr
  · subst hs
    simp [popsAt, setProducer]
  · simp [popsAt, setProducer, update_of_ne hs]

variable {ph : Producer config.fanout}

/-- **One producer moves**, and with it perhaps one target. -/
theorem move (inv : RouterInv st) (n : Target α)
    (ho : ∀ o ≠ ta, ph.popAt o = (st.producers pr).popAt o ∧
      ph.heldAt o = (st.producers pr).heldAt o)
    (hh : TargetInv config.slack n (update (st.popsAt ta) pr (ph.popAt ta))
      (((st.setTarget ta n).setProducer pr ph).held ta)) (o : Fin config.fanout) :
    TargetInv config.slack (((st.setTarget ta n).setProducer pr ph).targets o)
      (((st.setTarget ta n).setProducer pr ph).popsAt o)
      (((st.setTarget ta n).setProducer pr ph).held o) := by
  rw [popsAt_setProducer]
  by_cases hs : o = ta
  · subst hs
    have hc : ((st.setTarget o n).setProducer pr ph).targets o = n := update_self ..
    rw [hc]
    exact hh
  · obtain ⟨hp, hhe⟩ := ho o hs
    have hk : ((st.setTarget ta n).setProducer pr ph).targets o =
      st.targets o := update_of_ne hs _ _
    have hhs : ((st.setTarget ta n).setProducer pr ph).held o = st.held o := gather_update_same hhe
    rw [hk, hhs, hp]
    have hps : update ((st.setTarget ta n).popsAt o) pr ((st.producers pr).popAt o) = st.popsAt o :=
      update_eq_self pr (st.popsAt o)
    rw [hps]
    exact inv.targets o

theorem moveAway (inv : RouterInv st) (hp : ∀ ta, ph.popAt ta = (st.producers pr).popAt ta)
    (hh : ∀ ta, ph.heldAt ta = (st.producers pr).heldAt ta)
    (ta : Fin config.fanout) :
    TargetInv config.slack ((st.setProducer pr ph).targets ta)
      ((st.setProducer pr ph).popsAt ta) ((st.setProducer pr ph).held ta) := by
  have hps : (st.setProducer pr ph).popsAt ta = st.popsAt ta := by
    rw [popsAt_setProducer, hp]
    exact update_eq_self pr (st.popsAt ta)
  have hhs : (st.setProducer pr ph).held ta = st.held ta := gather_update_same (hh ta)
  rw [hps, hhs]
  exact inv.targets ta

theorem stay (inv : RouterInv st) {n : RouterState config α}
    (producers : n.producers = update st.producers pr ph)
    (hco : n.remainingProducers = st.remainingProducers)
    (ha : (st.producers pr).Active ↔ ph.Active)
    (hcg : ph.Closing → (st.producers pr).Closing)
    (hq : ∀ ta, (n.targets ta).readyFifo.terminating = true →
      (st.targets ta).readyFifo.terminating = true ∨ (st.producers pr).Closing)
    (ht : ∀ ta, TargetInv config.slack (n.targets ta) (n.popsAt ta) (n.held ta)) :
    RouterInv n := by
  have hac : ∀ o, (n.producers o).Active ↔ (st.producers o).Active := by
    intro o
    rw [producers]
    by_cases hs : o = pr
    · subst hs
      rw [update_self, ha]
    · rw [update_of_ne hs]
  refine ⟨?_, fun o hcl t => ?_, fun ta hc o => ?_, ht⟩
  · rw [hco, inv.remaining, producers]
    have hm := tally_update (p := Producer.Active) st.producers pr ph
    simp only [ha] at hm
    omega
  · rw [hac]
    rw [producers] at hcl
    by_cases hs : o = pr
    · subst hs
      rw [update_self] at hcl
      exact inv.closing o (hcg hcl) t
    · rw [update_of_ne hs] at hcl
      exact inv.closing o hcl t
  · rw [hac]
    rcases hq ta hc with hb | hcl
    · exact inv.quiet ta hb o
    · exact inv.closing pr hcl o

theorem setTarget_self : st.setTarget ta (st.targets ta) = st := by
  rw [setTarget, update_eq_self]

variable (inv : RouterInv st)

include inv

theorem acquire (hi : st.producers pr = .idle) :
    RouterInv (st.setProducer pr (.acquiring ta .start)) := by
  refine inv.stay rfl rfl (by rw [hi]; exact Iff.rfl) (fun hcl => hcl.elim) (fun _ hc => .inl hc) ?_
  have ha : ∀ o ≠ ta, (acquiring ta .start).popAt o = (st.producers pr).popAt o ∧
      (acquiring ta .start).heldAt o = (st.producers pr).heldAt o := by
    intro o hd
    rw [hi]
    exact ⟨if_neg hd.symm, rfl⟩
  have hm := inv.move (st.targets ta) ha
  rw [setTarget_self] at hm
  refine hm ?_
  have hh : (st.setProducer pr (.acquiring ta .start)).held ta = st.held ta :=
    gather_update_same (by rw [hi]; rfl)
  rw [hh, popAt, if_pos rfl]
  refine (inv.targets ta).acquire ?_
  rw [popsAt, hi]
  rfl

theorem pop (few : config.producers + ringSlots ≤ 2 ^ 31 + 1) {s : Pop}
    {freePool : RingBuffer Nat} (ph : st.producers pr = .acquiring ta s)
    (ht : popStep (st.targets ta).freePool s = some (freePool, tl)) :
    RouterInv ((st.setTarget ta { st.targets ta with freePool }).setProducer pr
      (tl.elim (.acquiring ta) (.holding ta))) := by
  have hh := inv.targets ta
  have hc : st.popsAt ta pr = some s := by
    rw [popsAt, ph]
    exact if_pos rfl
  refine inv.stay rfl rfl ?_ ?_ ?_ (inv.move _ (fun o hd => ?_) ?_)
  · rw [ph]
    cases tl <;> exact Iff.rfl
  · cases tl <;> exact fun hcs => hcs.elim
  · exact fun o hcl => .inl ((terminating_setTarget (by rfl) o).symm.trans hcl)
  · rw [ph]
    cases tl with
    | inl n => exact ⟨(if_neg hd.symm).trans (if_neg hd.symm).symm, rfl⟩
    | inr b => exact ⟨(if_neg hd.symm).symm, if_neg hd.symm⟩
  · have hw := fewWait few (hh.alone inv.quietAt)
    have hp := hh.pop hw hc ht
    cases tl with
    | inl n =>
      have hhe : ((st.setTarget ta { st.targets ta with freePool }).setProducer pr
          (.acquiring ta n)).held ta = st.held ta :=
        gather_update_same (by
          show _ = (st.producers pr).heldAt ta
          rw [ph]
          rfl)
      rw [Sum.elim_inl, hhe, popAt, if_pos rfl]
      simpa only [Sum.elim_inl, add_zero] using hp
    | inr b =>
      have hhe : ((st.setTarget ta { st.targets ta with freePool }).setProducer pr
          (.holding ta b)).held ta = st.held ta + {b} :=
        gather_update_add (by
          show _ = (st.producers pr).heldAt ta + _
          rw [ph, heldAt, if_pos rfl]
          exact (zero_add _).symm)
      rw [Sum.elim_inr, hhe]
      exact hp

theorem fill (ph : st.producers pr = .holding ta b)
    (x : α) : RouterInv (st.setTarget ta { st.targets ta with
      memory := update (st.targets ta).memory b x }) := by
  have hh : b ∈ st.held ta := by
    refine mem_gather.mpr ⟨pr, ?_⟩
    rw [ph, heldAt, if_pos rfl]
    exact Multiset.mem_singleton_self _
  refine ⟨inv.remaining, inv.closing, fun o hc => inv.quiet o ?_, fun o => ?_⟩
  · exact (terminating_setTarget (by rfl) o).symm.trans hc
  · by_cases hs : o = ta
    · subst hs
      rw [targets_setTarget]
      exact (inv.targets o).fill hh x
    · rw [targets_setTarget_of_ne hs]
      exact inv.targets o

theorem release (ph : st.producers pr = .holding ta b) :
    RouterInv ((st.setTarget ta { st.targets ta with
      readyFifo := (st.targets ta).readyFifo.push b
      released := (st.targets ta).released ++ [(st.targets ta).memory b] }).setProducer
        pr .idle) := by
  have ha : (st.producers pr).Active := by
    rw [ph]
    trivial
  have open_ : (st.targets ta).readyFifo.terminating = false := by
    by_contra hc
    exact inv.quiet ta (Bool.not_eq_false _ ▸ hc) pr ha
  refine inv.stay rfl rfl ?_ (fun hcl => hcl.elim) ?_ (inv.move _ (fun o hd => ?_) ?_)
  · exact ⟨fun _ => trivial, fun _ => ha⟩
  · exact fun o hc => .inl ((terminating_setTarget (by rfl) o).symm.trans hc)
  · rw [ph]
    exact ⟨rfl, (if_neg hd.symm).symm⟩
  · have hps : update (st.popsAt ta) pr (popAt ta .idle) = st.popsAt ta := by
      refine update_eq_self_iff.mpr ?_
      rw [popsAt, ph]
      rfl
    rw [hps]
    refine (inv.targets ta).release ?_ open_
    have hg : (st.producers pr).heldAt ta = idle.heldAt ta + {b} := by
      rw [ph, heldAt, if_pos rfl]
      exact (zero_add _).symm
    exact (gather_update_sub hg).symm

theorem startClose (hc : (st.producers pr).Closing) :
    RouterInv ((st.setTarget ta { st.targets ta with
      readyFifo := (st.targets ta).readyFifo.startClose }).setProducer pr (.waiting ta)) := by
  have hb := inv.closing pr hc pr
  have hn := popAt_inactive hb
  refine inv.stay rfl rfl ⟨fun ha => absurd ha hb, fun ha => ha.elim⟩ (fun _ => hc)
    (fun _ _ => .inr hc) (inv.move _ (fun o _ => ⟨(hn o).1.symm, (hn o).2.symm⟩) ?_)
  have hps : update (st.popsAt ta) pr (popAt ta (.waiting ta)) = st.popsAt ta :=
    update_eq_self_iff.mpr (hn ta).1.symm
  have hh : ((st.setTarget ta { st.targets ta with
      readyFifo := (st.targets ta).readyFifo.startClose }).setProducer pr
        (.waiting ta)).held ta = st.held ta :=
    gather_update_same (hn ta).2.symm
  rw [hps, hh]
  exact (inv.targets ta).startClose

theorem moveClosing (hcl : (st.producers pr).Closing) (hi : ¬ ph.Active) :
    RouterInv (st.setProducer pr ph) := by
  have hb := inv.closing pr hcl pr
  refine inv.stay rfl rfl ⟨fun ha => absurd ha hb, fun ha => absurd ha hi⟩
    (fun _ => hcl) (fun _ hc => .inl hc) (inv.moveAway (fun ta => ?_) fun ta => ?_)
  · rw [(popAt_inactive hi ta).1, (popAt_inactive hb ta).1]
  · rw [(popAt_inactive hi ta).2, (popAt_inactive hb ta).2]

theorem close (hi : st.producers pr = .idle) :
    RouterInv ({ st with remainingProducers := st.remainingProducers - 1 }.setProducer pr
      (if st.remainingProducers - 1 = 0 then .closing 0 else .closed)) := by
  have ha : (st.producers pr).Active := by
    rw [hi]
    trivial
  generalize hpe : (if st.remainingProducers - 1 = 0 then .closing 0 else .closed :
    Producer config.fanout) = ph
  have hin : ¬ ph.Active := by
    rw [← hpe]
    split <;> exact id
  have hc := tally_update (p := Producer.Active) st.producers pr ph
  rw [if_pos ha, if_neg hin] at hc
  have hr := inv.remaining
  refine ⟨?_, fun o hcs t => ?_, fun ta hcl => ?_, fun ta => ?_⟩
  · show st.remainingProducers - 1 = tally Producer.Active (update st.producers pr ph)
    omega
  · replace hcs : (update st.producers pr ph o).Closing := hcs
    by_cases hs : o = pr
    · have hcg : ph.Closing := by
        rwa [hs, update_self] at hcs
      have hl : st.remainingProducers - 1 = 0 := by
        by_contra hm
        rw [if_neg hm] at hpe
        rw [← hpe] at hcg
        exact hcg
      have hn : tally Producer.Active (update st.producers pr ph) = 0 := by omega
      exact tally_eq_zero_iff.mp hn t
    · have hcg : (st.producers o).Closing := by
        rwa [update_of_ne hs] at hcs
      exact absurd ha (inv.closing o hcg pr)
  · exact absurd ha (inv.quiet ta hcl pr)
  · refine inv.moveAway (fun ta => ?_) (fun ta => ?_) ta
    · rw [(popAt_inactive hin ta).1, hi]
      rfl
    · rw [(popAt_inactive hin ta).2, hi]
      rfl

theorem fire (few : config.producers + ringSlots ≤ 2 ^ 31 + 1) {a : Target α}
    (ht : fireStep config.slack (st.targets ta) = some a) :
    RouterInv (st.setTarget ta a) := by
  refine ⟨inv.remaining, inv.closing, fun o hc => inv.quiet o ?_, fun o => ?_⟩
  · rwa [terminating_setTarget (terminating_fireStep ht)] at hc
  · by_cases hs : o = ta
    · subst hs
      rw [targets_setTarget]
      exact (inv.targets o).fire few inv.quietAt ht
    · rw [targets_setTarget_of_ne hs]
      exact inv.targets o

/-- **Every step** keeps the invariant. -/
theorem step (few : config.producers + ringSlots ≤ 2 ^ 31 + 1)
    {ac : RouterAction config α} {a : RouterState config α} (ht : st.step ac = some a) :
    RouterInv a := by
  cases ac with
  | poll pr ta =>
    obtain ⟨_, ⟨⟩⟩ := ite_none_right_eq_some.mp ht
    exact inv
  | acquire pr ta =>
    obtain ⟨hi, ⟨⟩⟩ := ite_none_right_eq_some.mp ht
    exact inv.acquire hi
  | proceed pr =>
    simp only [RouterState.step, RouterState.proceed] at ht
    split at ht
    · next ta s ph =>
      obtain ⟨⟨fp, tl⟩, hs, rfl⟩ := map_eq_some_iff.mp ht
      exact inv.pop few ph hs
    · next n ph =>
      have hc : (st.producers pr).Closing := by
        rw [ph]
        trivial
      split at ht
      · cases ht
        exact inv.startClose hc
      · cases ht
        exact inv.moveClosing hc id
    · next ta ph =>
      obtain ⟨_, ⟨⟩⟩ := ite_none_right_eq_some.mp ht
      exact inv.moveClosing (by rw [ph]; trivial) id
    · next ph =>
      obtain ⟨_, ⟨⟩⟩ := ite_none_right_eq_some.mp ht
      exact inv.moveClosing (by rw [ph]; trivial) id
    · cases ht
  | fill pr x =>
    simp only [RouterState.step, RouterState.fill] at ht
    split at ht
    · next ta b ph =>
      cases ht
      exact inv.fill ph x
    · cases ht
  | release pr =>
    simp only [RouterState.step, RouterState.release] at ht
    split at ht
    · next ta b ph =>
      cases ht
      exact inv.release ph
    · cases ht
  | close pr =>
    obtain ⟨hi, ⟨⟩⟩ := ite_none_right_eq_some.mp ht
    exact inv.close hi
  | fire ta =>
    obtain ⟨n, hs, rfl⟩ := map_eq_some_iff.mp ht
    exact inv.fire few hs

end RouterInv

variable {state : RouterState config α}

theorem run_inv (few : config.producers + ringSlots ≤ 2 ^ 31 + 1)
    {acs : List (RouterAction config α)}
    (run : (router config α).Run (fun _ _ => True) acs state) :
    RouterInv state :=
  run.invariant RouterInv (by rintro _ ⟨b, rfl⟩; exact .initial b) fun _ _ _ inv _ _ ht =>
    inv.step few ht

/-! ### The last loop -/

def drainSteps (slack : Nat) : Firer → Nat
  | .draining acquired .start => 3 * (slack - acquired.length) + 1
  | .draining acquired (.ticket _) => 3 * (slack - acquired.length)
  | .draining acquired (.checked _) => 3 * (slack - acquired.length) - 1
  | _ => 0

theorem drainSteps_fireStep {ta a : Target α} {pop : Pop}
    (hp : ta.firer = .draining ac pop) (ht : fireStep s ta = some a) :
    a.firer = .finished ac ∧ s ≤ ac.length ∨ (∃ ac pop, a.firer = .draining ac pop) ∧
        drainSteps s a.firer < drainSteps s ta.firer := by
  simp only [fireStep, hp] at ht
  split at ht
  · next hl =>
    obtain ⟨⟨fp, tl⟩, hs, rfl⟩ := map_eq_some_iff.mp ht
    refine .inr ?_
    cases pop with
    | start =>
      cases hs
      exact ⟨⟨_, _, rfl⟩, by simp only [hp, drainSteps, Sum.elim_inl]; omega⟩
    | ticket t =>
      obtain ⟨_, ⟨⟩⟩ := ite_none_right_eq_some.mp hs
      exact ⟨⟨_, _, rfl⟩, by simp only [hp, drainSteps, Sum.elim_inl]; omega⟩
    | checked t =>
      cases hs
      refine ⟨⟨_, _, rfl⟩, ?_⟩
      simp only [hp, drainSteps, Sum.elim_inr, length_append, length_singleton]
      omega
  · next hf =>
    cases ht
    exact .inl ⟨rfl, not_lt.mp hf⟩

/-- **The last loop ends**, by steps of its own only, and has all buffers then. -/
theorem RouterInv.drains (few : config.producers + ringSlots ≤ 2 ^ 31 + 1) {t : Fin config.fanout}
    (inv : RouterInv state) {pop : Pop}
    (hp : (state.targets t).firer = .draining ac pop) :
    ∃ ss l co, (router config α).Path (fun _ _ => True) state (List.replicate ss (.fire t)) l ∧
      (l.targets t).firer = .finished co ∧
      (co : Multiset Nat) = Multiset.range config.slack := by
  -- by induction on what the loop has left
  generalize hle : drainSteps config.slack (state.targets t).firer = c
  induction c using Nat.strong_induction_on generalizing state ac pop with
  | _ c ih =>
    have hh := inv.targets t
    have hen := hh.ended (by rw [hp]; trivial)
    have hq := inv.quietAt hen.2
    obtain ⟨n, hf⟩ := hh.draining_fires (fewWait few fun _ => hq.1) hp
    have hst : state.step (.fire t) = some (state.setTarget t n) := by
      rw [RouterState.step, hf]
      rfl
    have he : (router config α).Enabled state (.fire t) := by
      show (state.step _).isSome = true
      rw [hst]
      rfl
    have hk := inv.step few hst
    rcases drainSteps_fireStep hp hf with ⟨hd, all⟩ | ⟨⟨m, s, hg⟩, hl⟩
    · refine ⟨1, _, ac, .cons he trivial hst .nil, ?_, ?_⟩
      · rw [RouterState.targets_setTarget, hd]
      · exact hh.acquired_all hen.1 hq hp all
    · have hs : ((state.setTarget t n).targets t).firer = .draining m s := by
        rw [RouterState.targets_setTarget, hg]
      obtain ⟨ss, l, co, hpa, hd, all⟩ := ih (drainSteps config.slack n.firer)
        (hle ▸ hl) hk hs (by rw [RouterState.targets_setTarget])
      exact ⟨ss + 1, l, co, .cons he trivial hst hpa, hd, all⟩

/-! ### Every run -/

/-- **The router** with at most `2 ^ 31 - 65535` producers. In every state of every run, the buffers
of each target are in its pool, with producers, in its ready queue and with its firer, each of them
once; what was consumed is what was released, in order, up to the items that are in the queue or in
the firer's hand; when the pipeline is about to be closed, and from then on, all producers have
closed and everything was consumed; and the last loop of the firer never waits and ends with all
buffers. -/
theorem run_conserves (config : RouterConfig) (few : config.producers ≤ 2 ^ 31 - 65535)
    {actions : List (RouterAction config α)} {state : RouterState config α}
    (run : (router config α).Run (fun _ _ => True) actions state) (target : Fin config.fanout) :
    (state.targets target).freePool.free + state.held target +
        ((state.targets target).readyFifo.contents : Multiset Nat) +
        (state.targets target).firer.holds config.slack = Multiset.range config.slack ∧
      (state.targets target).released = (state.targets target).consumed ++
        ((state.targets target).firer.inHand ++ (state.targets target).readyFifo.contents).map
          (state.targets target).memory ∧
      ((state.targets target).firer.Ended → (∀ producer, ¬ (state.producers producer).Active) ∧
        (state.targets target).consumed = (state.targets target).released) ∧
      ∀ acquired pop, (state.targets target).firer = .draining acquired pop →
        (router config α).Enabled state (.fire target) ∧
        ∃ steps last collected, (router config α).Path (fun _ _ => True) state
            (List.replicate steps (.fire target)) last ∧
          (last.targets target).firer = .finished collected ∧
          (collected : Multiset Nat) = Multiset.range config.slack := by
  have hl : config.producers + ringSlots ≤ 2 ^ 31 + 1 := by
    simp only [ringSlots]
    omega
  have inv := run_inv hl run
  have hh := inv.targets target
  refine ⟨hh.partition, hh.delivered, fun hen => ?_, fun acquired pop hp => ⟨?_, ?_⟩⟩
  · obtain ⟨he, hc⟩ := hh.ended hen
    have hha : (state.targets target).firer.inHand = [] := by
      cases hp : (state.targets target).firer with
      | consuming => exact (hp ▸ hen : Firer.Ended (.consuming _)).elim
      | _ => rfl
    refine ⟨inv.quiet target hc, ?_⟩
    rw [hh.delivered, he, hha, append_nil, map_nil, append_nil]
  · have hen := hh.ended (by rw [hp]; trivial)
    have ha := (inv.quietAt hen.2).1
    obtain ⟨n, hf⟩ := hh.draining_fires (fewWait hl fun _ => ha) hp
    show (state.step _).isSome = true
    rw [step, hf]
    rfl
  · exact inv.drains hl hp

/-- One producer sends an item through the only buffer of the only target. -/
theorem run_conserves_single : let config : RouterConfig := ⟨1, 1, 1, by decide, by decide⟩
    ∃ (actions : List (RouterAction config Nat)) (state : RouterState config Nat),
      config.producers ≤ 2 ^ 31 - 65535 ∧ (router config Nat).Run (fun _ _ => True) actions state ∧
      (state.targets 0).consumed = [7] ∧
      (state.targets 0).freePool.free + state.held 0 + ((state.targets 0).readyFifo.contents :
        Multiset Nat) +
        (state.targets 0).firer.holds config.slack = Multiset.range config.slack := by
  intro config
  have hr : ((router config Nat).follow (fun state a => (state.step a).isSome)
      (.initial config 0) [.fire 0, .fire 0, .fire 0, .fire 0, .acquire 0 0, .proceed 0, .proceed 0,
        .proceed 0,
        .fill 0 7, .release 0, .fire 0, .fire 0]).map (fun state => (state.targets 0).consumed) =
            some [7] := by
    decide +kernel
  obtain ⟨state, hf, consumed⟩ := map_eq_some_iff.mp hr
  have run : (router config Nat).Run (fun _ _ => True) _ state :=
    Machine.Run.extend (.start ⟨0, rfl⟩) (Machine.Path.of_follow (fun _ _ hp => ⟨hp, trivial⟩) hf)
  exact ⟨_, state, by decide, run, consumed, (run_conserves config (by decide) run 0).1⟩

end

end Proteus.Olap.Router
