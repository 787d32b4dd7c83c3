/-
**Collection never takes a version that is still needed**, provided that it sees every start time.

Between taking a start time and publishing it in `min_active`, a transaction is invisible to a
collector. `Visible` asks that a collector does not load a worker's `min_active` in this window,
unless the start time is larger than those of all writers of the store that is collected.

* `Transition` — what a step can do, said once; the invariants are case analyses of it.
* `Registered.step` — the count of readers: while a store is collected nobody is registered with it.
* `Collects.step` — what a collector knows from the words it has loaded so far.
* `Covered` — from each pointer, a reader that cannot use what it has found goes on to a version
  that is still there.
* `run_serves` — in every run in which start times are visible, every transaction is served.
-/

import Proteus.Library.Tally
import Proteus.Oltp.Gc.OneShot

namespace Proteus.Oltp.Gc

open Library List Option Function Storage.Numerals
open Storage (Region deltaVersion RecordId TxnTs)

variable {n : Nat} {engine a : Engine n} {st : Step n}

/-! ### What a step can do -/

/-- The steps, by the phase they are taken in. -/
inductive Transition (engine : Engine n) : Step n → Engine n → Prop
  | begin {worker : Fin n} {readOnly : Bool} (here : engine.phase worker = .idle) :
      Transition engine (.begin worker readOnly)
        { engine.goto worker (.taken engine.gen readOnly) with gen := (engine.gen + 1) % 2 ^ 64 }
  | publishReader {worker : Fin n} {start : Nat} (here : engine.phase worker = .taken start true) :
      Transition engine (.publish worker) { engine.goto worker (.running start true) with
          minActive := Function.update engine.minActive worker start }
  | publish {worker : Fin n} {start : Nat} (here : engine.phase worker = .taken start false) :
      Transition engine (.publish worker) { engine.goto worker (.attempt start) with
          minActive := Function.update engine.minActive worker start }
  | wait {worker : Fin n} {start : Nat} (here : engine.phase worker = .attempt start)
      (collected : engine.readers (deltaVersion start) < 0) :
      Transition engine (.incrementReader worker) { engine.goto worker (.spin start) with
          readers := Function.update engine.readers (deltaVersion start)
            (engine.readers (deltaVersion start) + 1) }
  | register {worker : Fin n} {start : Nat} (here : engine.phase worker = .attempt start)
      (free : 0 ≤ engine.readers (deltaVersion start)) :
      Transition engine (.incrementReader worker) { engine.goto worker (.enter start) with
          readers := Function.update engine.readers (deltaVersion start)
            (engine.readers (deltaVersion start) + 1) }
  | retry {worker : Fin n} {start : Nat} (here : engine.phase worker = .spin start)
      (free : 0 ≤ engine.readers (deltaVersion start)) :
      Transition engine (.retry worker) (engine.goto worker (.attempt start))
  | raiseEpoch {worker : Fin n} {start : Nat} (here : engine.phase worker = .enter start) :
      Transition engine (.raiseEpoch worker) { engine.goto worker (.running start false) with
          maxActiveEpoch := Function.update engine.maxActiveEpoch (deltaVersion start)
            (Function.update (engine.maxActiveEpoch (deltaVersion start)) worker
              (max (engine.maxActiveEpoch (deltaVersion start) worker) start)) }
  | insert {worker : Fin n} {record : RecordId} {start : Nat}
      (here : engine.phase worker = .running start false) (fresh : engine.records record = none) :
      Transition engine (.insert worker record) { engine with
          records := Function.update engine.records record
            (some ⟨start % 2 ^ 63, start % 2 ^ 63, Ptr.null⟩) }
  | update {worker : Fin n} {record : RecordId} {pid : Fin 8} {start : Nat} {entry : Entry}
      (here : engine.phase worker = .running start false)
      (found : engine.records record = some entry) :
      Transition engine (.update worker record pid) (engine.updateRecord start record pid entry)
  | endReader {worker : Fin n} {start : Nat} (here : engine.phase worker = .running start true) :
      Transition engine (.endTxn worker) { engine.goto worker .idle with
          minActive := Function.update engine.minActive worker uint64Max }
  | endTxn {worker : Fin n} {start : Nat} (here : engine.phase worker = .running start false) :
      Transition engine (.endTxn worker) { engine.goto worker (.leaving start) with
          minActive := Function.update engine.minActive worker uint64Max }
  | unregister {worker : Fin n} {start : Nat} {phase : Phase n}
      (here : engine.phase worker = .leaving start)
      (there : phase = .tryGc (deltaVersion start) ∨ phase = .idle) :
      Transition engine (.decrementReader worker) { engine.goto worker phase with
          readers := Function.update engine.readers (deltaVersion start)
            (engine.readers (deltaVersion start) - 1) }
  | giveUp {worker : Fin n} {succeeds : Bool} {delta : Fin 4}
      (here : engine.phase worker = .tryGc delta) :
      Transition engine (.exchange worker succeeds) (engine.goto worker .idle)
  | exchange {worker : Fin n} {delta : Fin 4} (here : engine.phase worker = .tryGc delta)
      (unused : engine.readers delta = 0) :
      Transition engine (.exchange worker true)
        { engine.goto worker (.loadMin delta (List.finRange n) uint64Max) with
          readers := Function.update engine.readers delta int64Min }
  | loadMin {worker other : Fin n} {delta : Fin 4} {rest : List (Fin n)} {least : Nat}
      (here : engine.phase worker = .loadMin delta (other :: rest) least) :
      Transition engine (.loadMinActive worker)
        (engine.goto worker (.loadMin delta rest (min least (engine.minActive other))))
  | loadedMin {worker : Fin n} {delta : Fin 4} {least : Nat}
      (here : engine.phase worker = .loadMin delta [] least) :
      Transition engine (.loadMinActive worker)
        (engine.goto worker (.loadMax delta (List.finRange n) least 0))
  | loadMax {worker other : Fin n} {delta : Fin 4} {rest : List (Fin n)} {least most : Nat}
      (here : engine.phase worker = .loadMax delta (other :: rest) least most) :
      Transition engine (.loadMaxActiveEpoch worker)
        (engine.goto worker
        (.loadMax delta rest least (max most (engine.maxActiveEpoch delta other))))
  | collect {worker : Fin n} {delta : Fin 4} {least most : Nat}
      (here : engine.phase worker = .loadMax delta [] least most) (older : most < least) :
      Transition engine (.decide worker) { engine.goto worker (.reset delta (List.finRange 8)) with
          tag := Function.update engine.tag delta ((engine.tag delta + 1) % 2 ^ 32) }
  | keep {worker : Fin n} {delta : Fin 4} {least most : Nat}
      (here : engine.phase worker = .loadMax delta [] least most) :
      Transition engine (.decide worker) (engine.goto worker (.reset delta []))
  | resetPartition {worker : Fin n} {delta : Fin 4} {pid : Fin 8} {rest : List (Fin 8)}
      (here : engine.phase worker = .reset delta (pid :: rest)) :
      Transition engine (.resetPartition worker)
        ((engine.resetPartition ⟨delta, pid⟩).goto worker (.reset delta rest))
  | release {worker : Fin n} {delta : Fin 4} (here : engine.phase worker = .reset delta []) :
      Transition engine (.release worker)
        { engine.goto worker .idle with readers := Function.update engine.readers delta 0 }

open Or

theorem next_transition (hd : engine.next st = some a) : Transition engine st a := by
  cases st with
  | begin w ro =>
    simp only [Engine.next] at hd
    split at hd
    · next hh => cases hd; exact .begin hh
    · cases hd
  | publish w =>
    simp only [Engine.next] at hd
    split at hd
    · next s ro hh =>
      cases ro <;> cases hd
      · exact .publish hh
      · exact .publishReader hh
    · cases hd
  | incrementReader w =>
    simp only [Engine.next] at hd
    split at hd
    · next s hh =>
      by_cases hc : engine.readers (deltaVersion s) < 0
      · rw [if_pos hc] at hd
        cases hd
        exact .wait hh hc
      · rw [if_neg hc] at hd
        cases hd
        exact .register hh (not_lt.mp hc)
    · cases hd
  | retry w =>
    simp only [Engine.next] at hd
    split at hd
    · next s hh =>
      split_ifs at hd with hc
      cases hd
      exact .retry hh (not_lt.mp hc)
    · cases hd
  | raiseEpoch w =>
    simp only [Engine.next] at hd
    split at hd
    · next s hh => cases hd; exact .raiseEpoch hh
    · cases hd
  | insert w r =>
    simp only [Engine.next] at hd
    split at hd
    · next s hh hfr => cases hd; exact .insert hh hfr
    · cases hd
  | update w r pid =>
    simp only [Engine.next] at hd
    split at hd
    · next s e hh hf => cases hd; exact .update hh hf
    · cases hd
  | endTxn w =>
    simp only [Engine.next] at hd
    split at hd
    · next s ro hh =>
      cases ro <;> cases hd
      · exact .endTxn hh
      · exact .endReader hh
    · cases hd
  | decrementReader w =>
    simp only [Engine.next] at hd
    split at hd
    · next s hh =>
      cases hd
      refine .unregister hh ?_
      split_ifs
      · exact inl rfl
      · exact inr rfl
    · cases hd
  | exchange w ss =>
    simp only [Engine.next] at hd
    split at hd
    · next d hh =>
      split_ifs at hd with won
      · cases hd
        obtain ⟨hs, hu⟩ := won
        subst hs
        exact .exchange hh hu
      · cases hd
        exact .giveUp hh
    · cases hd
  | loadMinActive w =>
    simp only [Engine.next] at hd
    split at hd
    · next hh => cases hd; exact .loadMin hh
    · next hh => cases hd; exact .loadedMin hh
    · cases hd
  | loadMaxActiveEpoch w =>
    simp only [Engine.next] at hd
    split at hd
    · next hh => cases hd; exact .loadMax hh
    · cases hd
  | decide w =>
    simp only [Engine.next] at hd
    split at hd
    · next hh =>
      split_ifs at hd with ho
      · cases hd
        exact .collect hh ho
      · cases hd
        exact .keep hh
    · cases hd
  | resetPartition w =>
    simp only [Engine.next] at hd
    split at hd
    · next hh => cases hd; exact .resetPartition hh
    · cases hd
  | release w =>
    simp only [Engine.next] at hd
    split at hd
    · next hh => cases hd; exact .release hh
    · cases hd

/-- A start time after those of all writers of a store. -/
def Later (engine : Engine n) (delta : Fin 4) (start : Nat) : Prop :=
  ∀ worker, engine.maxActiveEpoch delta worker < start

def Visible (engine : Engine n) : Step n → Prop
  | .begin _ _ => engine.gen < 2 ^ 63
  | .loadMinActive worker => ∀ delta other rest least start readOnly,
      engine.phase worker = .loadMin delta (other :: rest) least →
      engine.phase other = .taken start readOnly → Later engine delta start
  | _ => True

/-- `Visible`, computed. -/
def isVisible (engine : Engine n) : Step n → Bool
  | .begin _ _ => engine.gen < 2 ^ 63
  | .loadMinActive worker =>
    match engine.phase worker with
    | .loadMin delta (other :: _) _ =>
      match engine.phase other with
      | .taken start _ => decide (∀ worker, engine.maxActiveEpoch delta worker < start)
      | _ => true
    | _ => true
  | _ => true

theorem visible_of_isVisible {engine : Engine n} {st : Step n} (hv : isVisible engine st = true) :
    Visible engine st := by
  cases st with
  | begin w ro => simpa [isVisible, Visible] using hv
  | loadMinActive w =>
    intro d o tl l s ro hl ht
    simp only [isVisible, hl, ht, decide_eq_true_eq] at hv
    exact hv
  | _ => trivial

/-! ### Time stamps -/

/-- Start times are below `gen`, and the shared words hold them. -/
structure Stamped (engine : Engine n) : Prop where
  gen_le : engine.gen ≤ 2 ^ 63
  started_lt : ∀ worker start, (engine.phase worker).start? = some start → start < engine.gen
  epoch_lt : ∀ delta worker, engine.maxActiveEpoch delta worker < engine.gen
  published : ∀ worker start, (engine.phase worker).published? = some start →
    engine.minActive worker = start
  raised : ∀ worker start, (engine.phase worker).writing? = some start →
    start ≤ engine.maxActiveEpoch (deltaVersion start) worker

variable {phases ps : Fin n → Phase n} {worker w : Fin n} {phase p : Phase n} {start s : Nat}
    {part pa : Phase n → Option (Fin 4)}
    {delta d : Fin 4} {time t : Nat} {ptr : Ptr}

theorem update_phase {α : Type} (pa : Phase n → Option α)
    (hs : pa p = pa (ps w) ∨ pa p = none) {o : Fin n}
    {v : α} (has : pa (update ps w p o) = some v) :
    pa (ps o) = some v := by
  by_cases hh : o = w
  · subst hh
    rw [update_self] at has
    rcases hs with hs | hs
    · rw [← hs, has]
    · rw [hs] at has
      cases has
  · rwa [update_of_ne hh] at has

open Phase Engine

section

variable (transition : Transition engine st a)

include transition

theorem Transition.started (hst : (a.phase w).start? = some s) :
    (engine.phase w).start? = some s ∨ (s = engine.gen ∧ a.gen = (engine.gen + 1) % 2 ^ 64) := by
  cases transition with
  | @begin o ro hh =>
    by_cases hs : w = o
    · subst hs
      simp only [goto, update_self, start?, Option.some.injEq] at hst
      exact inr ⟨hst.symm, rfl⟩
    · simp only [goto, update_of_ne hs] at hst
      exact inl hst
  | insert _ _ | update _ _ => exact inl hst
  | unregister hh ht =>
    refine inl (update_phase start? (inr ?_) hst)
    rcases ht with rfl | rfl <;> rfl
  | publishReader hh | publish hh | wait hh _ | register hh _ | retry hh _
  | raiseEpoch hh => exact inl (update_phase start? (inl (by rw [hh]; rfl)) hst)
  | endReader hh | endTxn hh | giveUp hh | exchange hh _ | loadMin hh | loadedMin hh
  | loadMax hh | collect hh _ | keep hh | resetPartition hh
  | release hh => exact inl (update_phase start? (inr rfl) hst)

theorem Transition.epochs (d : Fin 4) : a.maxActiveEpoch d = engine.maxActiveEpoch d ∨
      ∃ worker start, engine.phase worker = .enter start ∧ deltaVersion start = d ∧
        a.maxActiveEpoch d = Function.update (engine.maxActiveEpoch d) worker
          (max (engine.maxActiveEpoch d worker) start) := by
  cases transition with
  | @raiseEpoch worker start hh =>
    by_cases hs : deltaVersion start = d
    · subst hs
      exact inr ⟨worker, start, hh, rfl, update_self ..⟩
    · exact inl (update_of_ne (Ne.symm hs) ..)
  | _ => exact inl rfl

theorem Transition.epoch_mono (d : Fin 4) (w : Fin n) :
    engine.maxActiveEpoch d w ≤ a.maxActiveEpoch d w := by
  rcases transition.epochs d with hs | ⟨o, start, -, -, hr⟩
  · rw [hs]
  · rw [hr]
    by_cases hs : w = o
    · subst hs
      rw [Function.update_self]
      exact le_max_left ..
    · rw [update_of_ne hs]

theorem Transition.gen (hv : Visible engine st) :
    a.gen = engine.gen ∨ (a.gen = engine.gen + 1 ∧ a.gen ≤ 2 ^ 63) := by
  cases transition with
  | begin _ =>
    have few : engine.gen < 2 ^ 63 := hv
    have hs : (engine.gen + 1) % 2 ^ 64 = engine.gen + 1 := Nat.mod_eq_of_lt (by omega)
    exact inr ⟨hs, le_of_eq_of_le hs few⟩
  | _ => exact inl rfl

theorem Transition.published (hp : (a.phase w).published? = some s) :
    ((engine.phase w).published? = some s ∧ a.minActive w = engine.minActive w) ∨
      a.minActive w = s := by
  cases transition with
  | begin _ => exact inl ⟨update_phase published? (inr rfl) hp, rfl⟩
  | insert _ _ | update _ _ => exact inl ⟨hp, rfl⟩
  | @publishReader o _ _ | @publish o _ _ =>
    by_cases hs : w = o
    · subst hs
      simp only [goto, update_self, published?, Option.some.injEq] at hp
      exact inr (by simp [hp])
    · simp only [goto, update_of_ne hs] at hp
      exact inl ⟨hp, update_of_ne hs ..⟩
  | wait hh _ | register hh _ | retry hh _ | raiseEpoch hh =>
    exact inl ⟨update_phase published? (inl (by rw [hh]; rfl)) hp, rfl⟩
  | @endReader o _ _ | @endTxn o _ _ =>
    by_cases hs : w = o
    · subst hs
      simp [goto, published?] at hp
    · simp only [goto, update_of_ne hs] at hp
      exact inl ⟨hp, update_of_ne hs ..⟩
  | unregister hh ht =>
    refine inl ⟨update_phase published? (inr ?_) hp, rfl⟩
    rcases ht with rfl | rfl <;> rfl
  | giveUp hh | exchange hh _ | loadMin hh | loadedMin hh | loadMax hh | collect hh _
  | keep hh | resetPartition hh
  | release hh => exact inl ⟨update_phase published? (inr rfl) hp, rfl⟩

theorem Transition.writing (hw : (a.phase w).writing? = some s) :
    (engine.phase w).writing? = some s ∨ s ≤ a.maxActiveEpoch (deltaVersion s) w := by
  cases transition with
  | insert _ _ | update _ _ => exact inl hw
  | @raiseEpoch o _ _ =>
    by_cases hs : w = o
    · subst hs
      simp only [goto, update_self, writing?, Option.some.injEq] at hw
      subst hw
      exact inr (by simp)
    · simp only [goto, update_of_ne hs] at hw
      exact inl hw
  | unregister hh ht =>
    refine inl (update_phase writing? (inr ?_) hw)
    rcases ht with rfl | rfl <;> rfl
  | begin hh | publishReader hh | publish hh | wait hh _ | register hh _ | retry hh _
  | endReader hh | endTxn hh | giveUp hh | exchange hh _ | loadMin hh | loadedMin hh
  | loadMax hh | collect hh _ | keep hh | resetPartition hh
  | release hh => exact inl (update_phase writing? (inr rfl) hw)

end

theorem Stamped.kept (hsd : Stamped engine) (ht : Transition engine st a)
    (hv : Visible engine st) : Stamped a := by
  have gen := ht.gen hv
  have gen_le := hsd.gen_le
  refine ⟨by omega, fun worker start hst => ?_, fun delta worker => ?_, fun worker start hp => ?_,
    fun worker start hw => ?_⟩
  · rcases ht.started hst with hb | ⟨rfl, hm⟩
    · have low := hsd.started_lt worker start hb
      omega
    · omega
  · have low := hsd.epoch_lt delta worker
    rcases ht.epochs delta with hs | ⟨o, start, hh, -, hr⟩
    · rw [hs]
      omega
    · rw [hr]
      by_cases hs : worker = o
      · subst hs
        have hst := hsd.started_lt worker start (by rw [hh]; rfl)
        rw [Function.update_self]
        omega
      · rw [update_of_ne hs]
        omega
  · rcases ht.published hp with ⟨hb, hs⟩ | now
    · rw [hs]
      exact hsd.published worker start hb
    · exact now
  · rcases ht.writing hw with hb | now
    · exact le_trans (hsd.raised worker start hb) (ht.epoch_mono ..)
    · exact now

/-! ### Readers -/

def counting (part : Phase n → Option (Fin 4)) (phases : Fin n → Phase n) (delta : Fin 4) : Nat :=
  tally (fun phase => part phase = some delta) phases

theorem counting_update (pa : Phase n → Option (Fin 4)) (ps : Fin n → Phase n) (d : Fin 4)
    (w : Fin n) (p : Phase n) :
    counting pa (update ps w p) d + (if pa (ps w) = some d then 1 else 0) =
      counting pa ps d + if pa p = some d then 1 else 0 :=
  tally_update ..

theorem counting_same (hs : pa p = pa (ps w)) (d : Fin 4) :
    counting pa (update ps w p) d = counting pa ps d := by
  have hm := counting_update pa ps d w p
  rw [hs] at hm
  omega

theorem counting_eq_zero_iff : counting pa ps d = 0 ↔ ∀ worker, pa (ps worker) ≠ some d :=
  tally_eq_zero_iff

theorem counting_le (pa : Phase n → Option (Fin 4)) (ps : Fin n → Phase n) (d : Fin 4) :
    counting pa ps d ≤ n :=
  le_of_le_of_eq (tally_le_card _) (Fintype.card_fin n)

def Counted (engine : Engine n) (delta : Fin 4) : Prop :=
  (counting Phase.collecting? engine.phase delta = 0 ∧
      engine.readers delta = counting Phase.registered? engine.phase delta) ∨
    (counting Phase.collecting? engine.phase delta = 1 ∧
      counting Phase.registered? engine.phase delta = 0 ∧
      engine.readers delta ≤ int64Min + counting Phase.waiting? engine.phase delta)

theorem Counted.same (hc : Counted engine d) (hre : a.readers d = engine.readers d)
    (hm : a.phase = update engine.phase w p)
    (hco : p.collecting? = (engine.phase w).collecting?)
    (hr : p.registered? = (engine.phase w).registered?)
    (hw : p.waiting? = (engine.phase w).waiting?) : Counted a d := by
  rw [Counted, hm, hre, counting_same hco, counting_same hr, counting_same hw]
  exact hc

def Moves (part : Phase n → Option (Fin 4)) (phases : Fin n → Phase n) (delta : Fin 4)
    (worker : Fin n)
    (before phase : Phase n) : Prop :=
  counting part (Function.update phases worker phase) delta + (if part before = some delta then
    1 else 0) =
    counting part phases delta + if part phase = some delta then 1 else 0

/-- **A worker that has to do with one store**: the counts of the others are kept. -/
theorem Counted.move (hc : Counted engine d) (o : Fin 4) {b : Phase n} (hh : engine.phase w = b)
    (hmo : a.phase = update engine.phase w p)
    (hr : d ≠ o → a.readers d = engine.readers d)
    (hp : ∀ part ∈ [collecting?, registered?, waiting?],
      (part b = none ∨ part b = some o) ∧ (part p = none ∨ part p = some o))
    (hk : Counted engine o → counting waiting? engine.phase o ≤ n →
      Moves collecting? engine.phase o w b p →
      Moves registered? engine.phase o w b p →
      Moves waiting? engine.phase o w b p → Counted a o) :
    Counted a d := by
  have hmv : ∀ part, Moves part engine.phase d w b p := fun part => by
    rw [Moves, ← hh]
    exact counting_update ..
  by_cases hs : d = o
  · subst hs
    exact hk hc (counting_le ..) (hmv _) (hmv _) (hmv _)
  · have hf : ∀ f : Option (Fin 4), f = none ∨ f = some o → f ≠ some d := by
      rintro f (rfl | rfl)
      · exact nofun
      · exact fun own => hs (some.inj own).symm
    have hst : ∀ part ∈ [collecting?, registered?, waiting?],
        counting part (update engine.phase w p) d = counting part engine.phase d := by
      intro part hm
      have hme := hmv part
      rw [Moves, if_neg (hf _ (hp part hm).1), if_neg (hf _ (hp part hm).2)] at hme
      exact hme
    rw [Counted, hmo, hr hs, hst collecting? (by simp), hst registered? (by simp),
      hst waiting? (by simp)]
    exact hc

/-- **The count is kept.** -/
theorem Counted.kept (few : n < 2 ^ 63) (hc : Counted engine d)
    (htr : Transition engine st a) : Counted a d := by
  cases htr
  case insert | update => exact hc
  case begin hh | publishReader hh | publish hh | endReader hh | raiseEpoch hh | endTxn hh
      | giveUp hh | loadMin hh | loadedMin hh | loadMax hh | collect hh _ | keep hh
      | resetPartition hh =>
    exact hc.same rfl rfl (by rw [hh]; rfl) (by rw [hh]; rfl) (by rw [hh]; rfl)
  case' wait start hh _ | register start hh _ =>
    refine hc.move (deltaVersion start) hh rfl (fun ha => update_of_ne ha ..)
      (by simp [collecting?, registered?, waiting?]) ?_
  case' retry start hh _ =>
    refine hc.move (deltaVersion start) hh rfl (fun _ => rfl)
      (by simp [collecting?, registered?, waiting?]) ?_
  case' unregister start _ hh ht =>
    refine hc.move (deltaVersion start) hh rfl (fun ha => update_of_ne ha ..)
      (by rcases ht with rfl | rfl <;> simp [collecting?, registered?, waiting?]) ?_
    rcases ht with rfl | rfl
  case' exchange o hh _ | release o hh =>
    refine hc.move o hh rfl (fun ha => update_of_ne ha ..)
      (by simp [collecting?, registered?, waiting?]) ?_
  all_goals
    intro hc hb hco hr hw
    simp only [Moves, collecting?, registered?, waiting?, reduceCtorEq, if_false, if_true]
      at hco hr hw
    simp only [Counted, goto, update_self, int64Min] at hc ⊢
    omega

/-- **While a store is collected**, nobody is registered with it. -/
theorem Counted.unregistered (hc : Counted engine d)
    (hco : (engine.phase w).collecting? = some d) (o : Fin n) :
    (engine.phase o).registered? ≠ some d := by
  rcases hc with ⟨hn, -⟩ | ⟨-, hn, -⟩
  · exact absurd hco (counting_eq_zero_iff.mp hn w)
  · exact counting_eq_zero_iff.mp hn o

/-! ### What a collector knows -/

theorem Phase.published_or_taken (hs : p.start? = some s) :
    p.published? = some s ∨ ∃ ro, p = .taken s ro := by
  cases p with
  | taken time ro =>
    cases hs
    exact inr ⟨ro, rfl⟩
  | attempt _ | spin _ | enter _ | running _ _ => exact inl hs
  | _ => cases hs

def AllLater (engine : Engine n) (delta : Fin 4) : Prop :=
  ∀ worker start, (engine.phase worker).start? = some start → Later engine delta start

def Knows (engine : Engine n) : Phase n → Prop
  | .loadMin delta rest least => ∀ worker, worker ∉ rest →
      ∀ start, (engine.phase worker).start? = some start → least ≤ start ∨ Later engine delta start
  | .loadMax delta rest least most =>
      (∀ worker start, (engine.phase worker).start? = some start → least ≤ start ∨
        Later engine delta start) ∧
        ∀ worker, worker ∉ rest → engine.maxActiveEpoch delta worker ≤ most
  | .reset delta rest => rest ≠ [] → AllLater engine delta
  | _ => True

def Collects (engine : Engine n) : Prop := ∀ worker, Knows engine (engine.phase worker)

variable (transition : Transition engine st a)

include transition

theorem Transition.epochs_frozen (hc : ∀ d, Counted engine d)
    (hco : (engine.phase w).collecting? = some d) :
    a.maxActiveEpoch d = engine.maxActiveEpoch d := by
  rcases transition.epochs d with hs | ⟨o, start, hh, rfl, -⟩
  · exact hs
  · exact absurd (by rw [hh]; rfl) ((hc _).unregistered hco o)

theorem Transition.later (hst : Stamped engine) (hf : a.maxActiveEpoch d = engine.maxActiveEpoch d)
    (hs : (a.phase w).start? = some s) :
    (engine.phase w).start? = some s ∨ Later a d s := by
  rcases transition.started hs with hb | ⟨rfl, -⟩
  · exact inl hb
  · refine inr fun o => ?_
    rw [hf]
    exact hst.epoch_lt d o

theorem Knows.frame (hsd : Stamped engine) (hk : Knows engine p)
    (hf : ∀ delta, p.collecting? = some delta →
      a.maxActiveEpoch delta = engine.maxActiveEpoch delta) : Knows a p := by
  have hl : ∀ {delta : Fin 4} {start : Nat}, p.collecting? = some delta →
      Later engine delta start → Later a delta start := fun hco hl worker => by
    rw [hf _ hco]
    exact hl worker
  cases p with
  | loadMin delta tl l =>
    intro worker hs start hst
    rcases transition.later hsd (hf delta rfl) hst with hb | hy
    · exact (hk worker hs start hb).imp_right (hl rfl)
    · exact inr hy
  | loadMax delta tl l m =>
    refine ⟨fun worker start hst => ?_, fun worker hs => ?_⟩
    · rcases transition.later hsd (hf delta rfl) hst with hb | hy
      · exact (hk.1 worker start hb).imp_right (hl rfl)
      · exact inr hy
    · rw [hf delta rfl]
      exact hk.2 worker hs
  | reset delta tl =>
    intro hc worker start hst
    rcases transition.later hsd (hf delta rfl) hst with hb | hy
    · exact hl rfl (hk hc worker start hb)
    · exact hy
  | _ => trivial

omit transition

/-- **A collector keeps what it knows and learns from each load.** -/
theorem Collects.kept (hcl : Collects engine) (hsd : Stamped engine)
    (hc : ∀ delta, Counted engine delta) (transition : Transition engine st a)
    (hv : Visible engine st) : Collects a := by
  have hf : ∀ worker, Knows a (engine.phase worker) := fun worker =>
    (hcl worker).frame transition hsd fun delta hco =>
      transition.epochs_frozen hc hco
  have hm : ∀ {ow : Fin n} {phase : Phase n}, Knows a phase →
      ∀ worker, Knows a (update engine.phase ow phase worker) :=
    fun {ow phase} hk worker => by
      by_cases hs : worker = ow
      · subst hs
        rwa [update_self]
      · rw [update_of_ne hs]
        exact hf worker
  have ht' := transition
  cases transition with
  | insert _ _ | update _ _ => exact hf
  | begin _ | publishReader _ | publish _ | wait _ _ | register _ _ | retry _ _ | raiseEpoch _
  | endReader _ | endTxn _ | giveUp _ | release _ => exact hm trivial
  | unregister _ hth =>
    refine hm ?_
    rcases hth with rfl | rfl <;> trivial
  | exchange _ _ => exact hm fun worker hu => absurd (mem_finRange worker) hu
  | @loadMin ow o delta tl l hh =>
    have hk := hf ow
    rw [hh] at hk
    refine hm fun worker hse start hst => ?_
    by_cases hs : worker = o
    · subst hs
      have hco : (engine.phase ow).collecting? = some delta := by rw [hh]; rfl
      rcases ht'.later hsd (ht'.epochs_frozen hc hco) hst with
        hb | hy
      · rcases published_or_taken hb with hp | ⟨ro, ht⟩
        · exact inl (le_of_le_of_eq (min_le_right ..) (hsd.published worker start hp))
        · exact inr (hv delta worker tl l start ro hh ht)
      · exact inr hy
    · exact (hk worker (by simp [hs, hse]) start hst).imp_left (le_trans (min_le_left ..))
  | @loadedMin ow delta l hh =>
    have hk := hf ow
    rw [hh] at hk
    exact hm ⟨fun worker => hk worker not_mem_nil, fun worker hu => absurd (mem_finRange worker) hu⟩
  | @loadMax ow o delta tl l m hh =>
    have hk := hf ow
    rw [hh] at hk
    refine hm ⟨hk.1, fun worker hse => ?_⟩
    by_cases hs : worker = o
    · subst hs
      exact le_max_right ..
    · exact le_trans (hk.2 worker (by simp [hs, hse])) (le_max_left ..)
  | @collect ow delta l m hh ho =>
    have hk := hf ow
    rw [hh] at hk
    refine hm fun _ worker start hst => ?_
    rcases hk.1 worker start hst with hy | hy
    · exact fun o => lt_of_le_of_lt (hk.2 o not_mem_nil) (lt_of_lt_of_le ho hy)
    · exact hy
  | keep _ => exact hm fun hn => absurd rfl hn
  | @resetPartition ow delta pid tl hh =>
    have hk := hf ow
    rw [hh] at hk
    exact hm fun _ => hk (cons_ne_nil _ _)

/-! ### Versions that are needed are there -/

def Passed (engine : Engine n) (time : Nat) : Prop :=
  time < engine.gen ∧ ∀ worker start, (engine.phase worker).start? = some start → time ≤ start

inductive Covered (engine : Engine n) (inserted : Nat) : Nat → Ptr → Prop
  | base {ptr : Ptr} : Covered engine inserted inserted ptr
  | passed {time : Nat} {ptr : Ptr} (passed : Passed engine time) : Covered engine inserted time ptr
  | live {time : Nat} {ptr : Ptr} {version : Node} {worker : Fin n} (valid : engine.isValid ptr)
      (there : engine.nodes ptr.node = some version) (inside : version.region.delta = ptr.delta)
      (below : time ≤ engine.maxActiveEpoch ptr.delta worker)
      (rest : Covered engine inserted version.tMin version.next) : Covered engine inserted time ptr

/-- **The walk succeeds** for every transaction that is not older than the record. -/
theorem Covered.finds {i : Nat} (hc : Covered engine i t ptr)
     (hs : (engine.phase w).start? = some s)
    (old : i ≤ s) (hh : ¬ (TxnTs.ofTicket s).isReadable t) :
    engine.isValid ptr ∧ ∃ fu v, engine.getReadableVer (TxnTs.ofTicket s) fu ptr = .ok v ∧
        (TxnTs.ofTicket s).isReadable v.tMin := by
  induction hc with
  | base => exact absurd (inl old) hh
  | passed hp => exact absurd (inl (hp.2 w s hs)) hh
  | @live t ptr v _ hv ht hi hb hr ih =>
    refine ⟨hv, ?_⟩
    by_cases hre : (TxnTs.ofTicket s).isReadable v.tMin
    · exact ⟨1, v, by simp [getReadableVer, hv, ht, hre], hre⟩
    · obtain ⟨-, fu, f, hw, hse⟩ := ih hre
      exact ⟨fu + 1, f, by simp [getReadableVer, hv, ht, hre, hw], hse⟩

theorem Passed.kept (hp : Passed engine t) (transition : Transition engine st a)
    (hv : Visible engine st) : Passed a t := by
  have gen := transition.gen hv
  refine ⟨by have := hp.1; omega, fun worker start hs => ?_⟩
  rcases transition.started hs with hb | ⟨rfl, -⟩
  · exact hp.2 worker start hb
  · exact le_of_lt hp.1

theorem Covered.kept {i : Nat} (hc : Covered engine i t ptr)
    (transition : Transition engine st a) (hvi : Visible engine st)
    (hs : ∀ t ptr v worker, engine.isValid ptr → engine.nodes ptr.node = some v →
      v.region.delta = ptr.delta → t ≤ engine.maxActiveEpoch ptr.delta worker →
        Passed a t ∨ (a.isValid ptr ∧ a.nodes ptr.node = some v)) :
    Covered a i t ptr := by
  induction hc with
  | base => exact .base
  | passed hp => exact .passed (hp.kept transition hvi)
  | live hv ht hi hb _ ih =>
    rcases hs _ _ _ _ hv ht hi hb with hp | ⟨hv, ht⟩
    · exact .passed hp
    · exact .live hv ht hi (le_trans hb (transition.epoch_mono ..)) ih

theorem AllLater.passed (hl : AllLater a d) (hst : Stamped a)
    (hb : t ≤ a.maxActiveEpoch d w) : Passed a t :=
  ⟨lt_of_le_of_lt hb (hst.epoch_lt d w), fun o start hs =>
    le_trans hb (le_of_lt (hl o start hs w))⟩

/-- The invariant of the engine. -/
structure Sound (engine : Engine n) : Prop where
  stamped : Stamped engine
  counted : ∀ delta, Counted engine delta
  collects : Collects engine
  fresh : ∀ node, engine.nextNode ≤ node → engine.nodes node = none
  covered : ∀ record entry, engine.records record = some entry →
    Covered engine entry.inserted entry.tMin entry.deltaList

theorem initial_sound (n : Nat) : Sound (initial n) where
  stamped := ⟨by simp [initial], by simp [initial, start?], by simp [initial],
    by simp [initial, published?], by simp [initial, writing?]⟩
  counted delta := by
    refine inl ⟨counting_eq_zero_iff.mpr (by simp [initial, collecting?]), ?_⟩
    rw [counting_eq_zero_iff.mpr (by simp [initial, registered?])]
    rfl
  collects _ := trivial
  fresh _ _ := rfl
  covered _ _ hf := by cases hf

/-- **No step takes a version that is needed.** -/
theorem Sound.stays (hso : Sound engine) (transition : Transition engine st a)
    (hvi : Visible engine st) (t : Nat) (ptr : Ptr) (v : Node) (w : Fin n)
    (hv : engine.isValid ptr) (ht : engine.nodes ptr.node = some v)
    (hi : v.region.delta = ptr.delta) (hb : t ≤ engine.maxActiveEpoch ptr.delta w) :
    Passed a t ∨ (a.isValid ptr ∧ a.nodes ptr.node = some v) := by
  have hst := hso.stamped.kept transition hvi
  have hc := hso.collects.kept hso.stamped hso.counted transition hvi
  have ht' := transition
  cases transition with
  | update hh hf =>
    refine inr ⟨hv, ?_⟩
    have old : ptr.node ≠ engine.nextNode := fun hs => by
      rw [hs, hso.fresh _ le_rfl] at ht
      cases ht
    rw [updateRecord]
    exact (update_of_ne old ..).trans ht
  | @collect o delta l m hh ho =>
    by_cases hs : ptr.delta = delta
    · subst hs
      have hkn := hc o
      simp only [goto, update_self] at hkn
      exact inl ((hkn (by decide)).passed hst hb)
    · refine inr ⟨?_, ht⟩
      rw [isValid]
      simp only [update_of_ne hs]
      exact hv
  | @resetPartition o delta pid tl hh =>
    by_cases hs : ptr.delta = delta
    · subst hs
      have hkn := hso.collects o
      rw [hh] at hkn
      exact inl (((hkn (cons_ne_nil _ _)).passed hso.stamped hb).kept ht' hvi)
    · refine inr ⟨hv, ?_⟩
      have hk : v.region ≠ ⟨delta, pid⟩ := fun he => hs (by rw [← hi, he])
      simp [goto, resetPartition, ht, hk]
  | _ => exact inr ⟨hv, ht⟩

theorem Transition.fresh (transition : Transition engine st a)
    (hf : ∀ node, engine.nextNode ≤ node → engine.nodes node = none) :
    ∀ node, a.nextNode ≤ node → a.nodes node = none := by
  intro node hh
  cases transition with
  | update _ _ =>
    have hn : engine.nextNode + 1 ≤ node := hh
    exact (update_of_ne (by omega) ..).trans (hf node (by omega))
  | resetPartition _ => simp [Engine.goto, Engine.resetPartition, hf node hh]
  | _ => exact hf node hh

theorem Covered.of_invalid {i : Nat} (hc : Covered engine i t ptr)
    (hi : ¬ engine.isValid ptr) (o : Ptr) : Covered engine i t o := by
  cases hc with
  | base => exact .base
  | passed hp => exact .passed hp
  | live hv _ _ _ _ => exact absurd hv hi

theorem Sound.kept (few : n < 2 ^ 63) (hso : Sound engine) (transition : Transition engine st a)
    (hvi : Visible engine st) : Sound a := by
  have hco : ∀ {i time : Nat} {ptr : Ptr}, Covered engine i time ptr →
      Covered a i time ptr := fun hc =>
    hc.kept transition hvi (hso.stays transition hvi)
  refine ⟨hso.stamped.kept transition hvi, fun delta => (hso.counted delta).kept few transition,
    hso.collects.kept hso.stamped hso.counted transition hvi, transition.fresh hso.fresh, ?_⟩
  intro r e hf
  cases transition with
  | @insert worker ow start hh _ =>
    by_cases hs : r = ow
    · subst hs
      simp only [update_self, Option.some.injEq] at hf
      subst hf
      exact .base
    · exact hco (hso.covered r e (by simpa [update_of_ne hs] using hf))
  | @update worker ow pid start o hh hp =>
    by_cases hs : r = ow
    · subst hs
      simp only [updateRecord, update_self, Option.some.injEq] at hf
      subst hf
      have hb := hso.stamped.raised worker start (by rw [hh]; rfl)
      refine .live rfl (update_self ..) rfl (le_trans (Nat.mod_le ..) hb) ?_
      split_ifs with hv
      · exact hco (hso.covered r o hp)
      · exact hco ((hso.covered r o hp).of_invalid hv Ptr.null)
    · exact hco (hso.covered r e (by simpa [updateRecord, update_of_ne hs] using hf))
  | _ => exact hco (hso.covered r e hf)

/-- **Every transaction is served** in every run in which start times are visible to collectors. -/
theorem run_serves (few : n < 2 ^ 63) {steps : List (Step n)}
    (run : (oneShot n).Run Visible steps engine) : engine.Serves := by
  have hs : Sound engine := run.invariant Sound (by rintro _ rfl; exact initial_sound n)
    fun _ _ _ hs _ hvi hd => hs.kept few (next_transition hd) hvi
  intro worker start hst r e hf hi
  by_cases hr : (TxnTs.ofTicket start).isReadable e.tMin
  · exact inl hr
  · obtain ⟨hv, f, v, hw, hse⟩ := (hs.covered r e hf).finds hst (le_of_lt hi) hr
    exact inr ⟨f, v, by rw [getReadableVersion, if_pos hv, hw], hse⟩

/-! ### Two workers -/

def demoTxn (worker : Fin 2) (write : Step 2) : List (Step 2) :=
  [.publish worker, .incrementReader worker, .raiseEpoch worker, write, .endTxn worker,
    .decrementReader worker]

def demoSteps (more : List (Step 2)) : List (Step 2) :=
  .begin 0 false :: (demoTxn 0 (.insert 0 0) ++ [.exchange 0 false]) ++ .begin 0 false :: more ++
    .begin 1 false :: demoTxn 1 (.update 1 0 0)

def demoCollect (partitions : Nat) : List (Step 2) :=
  [.exchange 1 true, .loadMinActive 1, .loadMinActive 1, .loadMinActive 1, .loadMaxActiveEpoch 1,
    .loadMaxActiveEpoch 1, .decide 1] ++ List.replicate partitions (.resetPartition 1) ++
      [.release 1]

def demoState (test : Engine 2 → Step 2 → Bool) (steps : List (Step 2)) : Option (Engine 2) :=
  (oneShot 2).follow test (Engine.initial 2) steps

/-- Start time 2 is published before worker 1 loads it. -/
theorem run_serves_published :
    ((demoState isVisible (demoSteps [.publish 0] ++ demoCollect 0)).get rfl).Serves :=
  run_serves (by decide) ((Machine.Run.start rfl).extend (Machine.Path.of_follow
    (fun _ _ hv => ⟨trivial, visible_of_isVisible hv⟩) (eq_some_of_isSome rfl)))

/-- Start time 2 is not published before worker 1 has collected. -/
theorem unpublished_start_loses_version :
    (oneShot 2).Run (fun _ _ => True) (demoSteps [] ++ demoCollect 8)
      ((demoState (fun _ _ => true) (demoSteps [] ++ demoCollect 8)).get rfl) ∧
    ¬ ((demoState (fun _ _ => true) (demoSteps [] ++ demoCollect 8)).get rfl).Serves := by
  constructor
  · exact (Machine.Run.start rfl).extend
      (Machine.Path.of_follow (fun _ _ _ => ⟨trivial, trivial⟩) (eq_some_of_isSome rfl))
  · intro hs
    have hi : ¬ ((demoState (fun _ _ => true) (demoSteps [] ++ demoCollect 8)).get rfl).isValid
        ⟨0, 1, 1⟩ := by
      decide
    rcases hs 0 2 rfl 0 ⟨1, 3, ⟨0, 1, 1⟩⟩ rfl (by decide) with hre | ⟨f, v, hr, -⟩
    · exact absurd hre (by decide)
    · rw [getReadableVersion, if_neg hi] at hr
      cases hr

end Proteus.Oltp.Gc
