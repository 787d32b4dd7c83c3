/-
**Which nodes a lookup trusts** (`oltp/index/ART/art.hpp`, `getByKey_opt`).

In each round, a lookup loads the word of a node, compares the word of the parent, and then that of
the node. All three calls share the flag `needRestart`. The first sets it if the word is locked or
obsolete; the other two assign it. So a word that is locked at the load is forgotten unless it
changes before the next call, and the lookup goes on to use the node while an insertion writes it.

* `Trusts` — the word of a node in use was free, and was still there at the validation.
* `run_trusts` — it holds in every state of every run in which no lookup validates a word that is
  locked or obsolete, and fails after each step that does.
* `locked_node_used` — a lookup uses a node that an insertion has locked.
-/

import Proteus.Oltp.Index.ArtThreads

namespace Proteus.Oltp.Index

open Library Option

variable {T : Type} {width : Nat} {V : Type}

def FindPhase.Trusts : FindPhase → Prop
  | .usePrefix _ v seen _ | .useChild _ v seen _ => IsFree v ∧ seen = v
  | _ => True

def Trusts (state : ArtState T width V) : Prop :=
  ∀ thread key phase, state.threads thread = .finding key phase → phase.Trusts

/-- No lookup validates a word that is locked or obsolete. -/
def ValidatesFree (state : ArtState T width V) : ArtAction T width V → Prop
  | .step thread _ => ∀ key node v depth,
      state.threads thread = .finding key (.validate node v depth) →
    state.heap.words node = v → IsFree v
  | _ => True

/-- The lookup of a thread. -/
def lookupOf : Thread width V → Option FindPhase
  | .finding _ phase => some phase
  | _ => none

def validatesFree (state : ArtState T width V) : ArtAction T width V → Bool
  | .step thread _ =>
    match lookupOf (state.threads thread) with
    | some (.validate node v _) => state.heap.words node ≠ v ∨ IsFree v
    | _ => true
  | _ => true

theorem validatesFree_sound {s : ArtState T width V} {a : ArtAction T width V}
    (hp : validatesFree s a = true) : ValidatesFree s a := by
  cases a with
  | insert | find => trivial
  | step t tr =>
    intro k n v d hf hs
    simpa [validatesFree, lookupOf, hf, hs] using hp

/-! ### Steps -/

section

variable {h : Heap width V} {k : Key width} {t : Torn} {p a : FindPhase}

/-- **A step of a lookup** keeps its trust, unless it validates a word that is not free. -/
theorem findStep_trusts (htr : p.Trusts) (ht : findStep h k t p = some (.inl a)) :
    a.Trusts ↔ ∀ n v d, p = .validate n v d → h.words n = v → IsFree v := by
  cases p with
  | validate n v d =>
    simp only [findStep] at ht
    split at ht
    · next hd =>
      cases ht
      refine ⟨fun _ => ?_, fun _ => trivial⟩
      rintro _ _ _ ⟨⟩ hs
      exact absurd hs.symm hd
    · next hs =>
      cases ht
      rw [ne_eq, not_not] at hs
      refine ⟨?_, fun hfr => ⟨hfr n v d rfl hs.symm, hs.symm⟩⟩
      rintro ⟨hfr, _⟩ _ _ _ ⟨⟩ _
      exact hfr
  | usePrefix n v s d =>
    refine iff_of_true ?_ nofun
    simp only [findStep] at ht
    split at ht
    · cases ht
      trivial
    · split at ht <;> cases ht
      · trivial
      · exact htr
  | start | load | first | checkParent | last =>
    refine iff_of_true ?_ nofun
    simp only [findStep] at ht
    split at ht <;> cases ht <;> trivial
  | useChild =>
    refine iff_of_true ?_ nofun
    obtain ⟨c, _, hf⟩ := map_eq_some_iff.mp ht
    cases hf
    trivial

end

section

variable [DecidableEq T] {state s after : ArtState T width V} {action : ArtAction T width V}

theorem trusts_become (ht : Trusts s) {t : T} {p : Thread width V} {heap : Heap width V}
    {inserted : List (Key width)} : Trusts { s.become t p with heap, inserted } ↔
      ∀ k n, p = .finding k n → n.Trusts := by
  refine ⟨fun all k n hf => ?_, fun hh o k n hf => ?_⟩
  · exact all t k n ((s.become_self t p).trans hf)
  · by_cases hs : o = t
    · subst hs
      exact hh k n ((s.become_self o p).symm.trans hf)
    · exact ht o k n ((s.become_other hs p).symm.trans hf)

/-- **A step keeps the trust of all lookups** exactly if it does not validate a word that is not
free. -/
theorem trusts_next (htr : Trusts s) (ht : s.next action = some after) :
    Trusts after ↔ ValidatesFree s action := by
  cases action with
  | insert t k value =>
    cases ht
    refine iff_of_true ((trusts_become htr).mpr nofun) trivial
  | find t k =>
    cases ht
    refine iff_of_true ((trusts_become htr).mpr ?_) trivial
    rintro _ _ ⟨⟩
    trivial
  | step t tr =>
    simp only [ArtState.next, ArtState.advance] at ht
    cases hp : s.threads t with
    | idle f =>
      rw [hp] at ht
      cases ht
    | inserting k value now =>
      rw [hp] at ht
      obtain ⟨⟨h, l⟩, _, rfl⟩ := map_eq_some_iff.mp ht
      refine iff_of_true ?_ fun _ _ _ _ f => ?_
      · cases l <;> exact (trusts_become htr).mpr nofun
      · rw [hp] at f
        cases f
    | finding k now =>
      rw [hp] at ht
      obtain ⟨l, hs, rfl⟩ := map_eq_some_iff.mp ht
      have hc : ValidatesFree s (.step t tr) ↔
          ∀ n v d, now = .validate n v d → s.heap.words n = v → IsFree v := by
        refine ⟨fun all n v d f => all k n v d (by rw [hp, f]), ?_⟩
        intro all o n v d f
        rw [hp] at f
        cases f
        exact all n v d rfl
      rw [hc]
      cases l with
      | inl nx =>
        rw [← findStep_trusts (htr t k now hp) hs]
        refine (trusts_become htr).trans ⟨fun all => all k nx rfl, ?_⟩
        rintro hh _ _ ⟨⟩
        exact hh
      | inr r =>
        refine iff_of_true ((trusts_become htr).mpr nofun) ?_
        rintro n v d rfl
        simp only [findStep] at hs
        split at hs <;> cases hs

/-- **Lookups trust free words only** in every run whose lookups do not validate a word that is
locked or obsolete; a step in which one does leads to a state in which a node is used under such a
word. -/
theorem run_trusts {actions : List (ArtAction T width V)}
    (run : (art T width V).Run ValidatesFree actions state) :
    Trusts state ∧ ∀ action after, (art T width V).next state action = some after →
      (Trusts after ↔ ValidatesFree state action) := by
  have htr : Trusts state := by
    refine run.invariant Trusts ?_ fun b action after htr _ ha ht => ?_
    · rintro _ rfl t k p hf
      cases hf
    · exact (trusts_next htr ht).mpr ha
  exact ⟨htr, fun action after ht => trusts_next htr ht⟩

/-- One thread inserts a key and looks it up. -/
theorem run_trusts_found : ∃ (actions : List (ArtAction Bool 1 Nat)) (state : ArtState Bool 1 Nat),
      (art Bool 1 Nat).Run ValidatesFree actions state ∧
      lookupOf (state.threads true) = some (.usePrefix 0 4 4 0) ∧ Trusts state := by
  have hr : ((art Bool 1 Nat).follow
    (fun state action => state.enabled action && validatesFree state action)
      .initial (.insert true ⟨[1], rfl⟩ 7 :: stepsOf true 2 ++ .find true
        ⟨[1], rfl⟩ :: stepsOf true 4)).map
      (fun state => lookupOf (state.threads true)) = some (some (.usePrefix 0 4 4 0)) := by
    decide +kernel
  obtain ⟨state, hfo, hf⟩ := map_eq_some_iff.mp hr
  have hs : ∀ state action, (ArtState.enabled state action && validatesFree state action) = true →
      (art Bool 1 Nat).Enabled state action ∧ ValidatesFree state action := fun state action hp =>
    ⟨((Bool.and_eq_true ..).mp hp).1, validatesFree_sound ((Bool.and_eq_true ..).mp hp).2⟩
  have run : (art Bool 1 Nat).Run ValidatesFree _ state :=
    Machine.Run.extend (.start rfl) (Machine.Path.of_follow hs hfo)
  exact ⟨_, state, run, hf, (run_trusts run).1⟩

/-- **A locked node is used.** The keys 1 and 2 are in the tree. A lookup has loaded the free word
of their node once; then an insertion of the key 3 locks it, and the lookup loads and validates the
locked word. -/
theorem locked_node_used : ∃ (actions : List (ArtAction Bool 1 Nat)) (state : ArtState Bool 1 Nat),
      (art Bool 1 Nat).Run (fun _ _ => True) actions state ∧
      lookupOf (state.threads false) = some (.usePrefix 2 6 6 0) ∧ isLocked 6 = true ∧
          ¬ Trusts state := by
  have hr : ((art Bool 1 Nat).follow ArtState.enabled .initial
      (.insert true ⟨[1], rfl⟩ 7 :: stepsOf true 2 ++ .insert true ⟨[2], rfl⟩ 8 :: stepsOf true 9 ++
        .find false ⟨[1], rfl⟩ :: stepsOf false 2 ++ .insert true ⟨[3], rfl⟩ 9 :: stepsOf true 7 ++
        stepsOf false 2)).map (fun state => lookupOf (state.threads false)) = some
            (some (.usePrefix 2 6 6 0)) := by
    decide +kernel
  obtain ⟨state, hfo, hf⟩ := map_eq_some_iff.mp hr
  have run : (art Bool 1 Nat).Run (fun _ _ => True) _ state :=
    Machine.Run.extend (.start rfl) (Machine.Path.of_follow (fun _ _ hpa => ⟨hpa, trivial⟩) hfo)
  refine ⟨_, state, run, hf, by decide, fun ht => ?_⟩
  cases hp : state.threads false with
  | idle | inserting =>
    rw [hp] at hf
    cases hf
  | finding k now =>
    rw [hp] at hf
    cases hf
    exact absurd (ht false k _ hp).1.1 (by decide)

end

end Proteus.Oltp.Index
