/-
**Loops over a list, and lists compared key by key.**

A loop that may fail is `List.foldlM` in `Option`. The rule for it is that of an invariant of what
was processed so far; it also says that no pass fails.

* `loop_invariant` — a property of the processed elements that each pass keeps holds of the whole
  list; `loop_range` is the rule of a counted loop, `loop_within` the one where passes may fail.
* `SameByKey` — two lists have, for every key, the same elements of that key in the same order; they
  are then permutations of each other (`SameByKey.perm`).
-/

import Mathlib

namespace Proteus.Library

open List

section

variable {α σ : Type*} {f : σ → α → Option σ} {s : σ} {β : Type*}

/-- **A loop that may run out of something.** If every pass keeps the invariant as long as what was
processed fits, and fails as soon as it does not, the loop succeeds exactly when all of it fits. -/
theorem loop_within (xs : List α) (s : σ) (Holds : List α → σ → Prop)
    (Fits : List α → Prop) (hl : ∀ d m, Fits (d ++ m) → Fits d) (hs : Holds [] s)
    (hst : ∀ d x tl s, xs = d ++ x :: tl → Holds d s →
      (Fits (d ++ [x]) ∧ ∃ n, f s x = some n ∧ Holds (d ++ [x]) n) ∨
        ¬ Fits (d ++ [x]) ∧ f s x = none) (hfi : Fits []) :
    (Fits xs ∧ ∃ l, xs.foldlM f s = some l ∧ Holds xs l) ∨ ¬ Fits xs ∧ xs.foldlM f s = none := by
  suffices hg : ∀ tl d s, xs = d ++ tl → Fits d → Holds d s →
      (Fits xs ∧ ∃ l, tl.foldlM f s = some l ∧ Holds xs l) ∨ ¬ Fits xs ∧ tl.foldlM f s = none from
    hg xs [] s rfl hfi hs
  intro tl
  induction tl with
  | nil =>
    intro d s all hf hh
    rw [append_nil] at all
    exact .inl ⟨all ▸ hf, s, rfl, all ▸ hh⟩
  | cons x tl ih =>
    intro d s all hf hh
    have hsp : xs = d ++ [x] ++ tl := by rw [all, append_assoc]; rfl
    rw [foldlM_cons]
    rcases hst d x tl s all hh with ⟨m, n, hsd, hk⟩ | ⟨hfu, hfa⟩
    · rw [hsd]
      exact ih (d ++ [x]) n hsp m hk
    · rw [hfa]
      exact .inr ⟨fun all => hfu (hl _ tl (hsp ▸ all)), rfl⟩

/-- **The rule of a loop.** If every pass succeeds and keeps the invariant, the loop succeeds and
ends in it. -/
theorem loop_invariant {xs : List α} (Holds : List α → σ → Prop) (hs : Holds [] s)
    (hst : ∀ d x tl s, xs = d ++ x :: tl → Holds d s → ∃ n, f s x = some n ∧ Holds (d ++ [x]) n) :
    ∃ l, xs.foldlM f s = some l ∧ Holds xs l := by
  rcases loop_within xs s Holds (fun _ => True) (fun _ _ _ => trivial) hs
    (fun d x tl s all hh => .inl ⟨trivial, hst d x tl s all hh⟩) trivial with
    ⟨_, he⟩ | ⟨hn, _⟩
  · exact he
  · exact absurd trivial hn

/-- **The rule of a counted loop.** -/
theorem loop_range {f : σ → Nat → Option σ} {c : Nat} (Holds : Nat → σ → Prop) (hs : Holds 0 s)
    (hst : ∀ i < c, ∀ s, Holds i s → ∃ n, f s i = some n ∧ Holds (i + 1) n) :
    ∃ l, (List.range c).foldlM f s = some l ∧ Holds c l := by
  induction c with
  | zero => exact ⟨s, rfl, hs⟩
  | succ c ih =>
    obtain ⟨m, ran, hh⟩ := ih fun i hi => hst i (Nat.lt_succ_of_lt hi)
    obtain ⟨l, hsd, he⟩ := hst c (Nat.lt_succ_self c) m hh
    refine ⟨l, ?_, he⟩
    rw [range_succ, foldlM_append, ran]
    simpa using hsd

theorem mapM_eq_some {f : α → Option β} {g : α → β} {xs : List α}
    (he : ∀ x ∈ xs, f x = some (g x)) : xs.mapM f = some (xs.map g) := by
  induction xs with
  | nil => rfl
  | cons x xs ih =>
    rw [forall_mem_cons] at he
    simp [mapM_cons, he.1, ih he.2]

theorem foldlM_flatMap (f : σ → α → Option σ) (i : β → List α) (o : List β) (s : σ) :
    o.foldlM (fun s x => (i x).foldlM f s) s = (o.flatMap i).foldlM f s := by
  induction o generalizing s with
  | nil => rfl
  | cons x o ih =>
    rw [foldlM_cons, flatMap_cons, foldlM_append]
    congr 1
    funext n
    exact ih n

end

section

theorem split_at {α : Type*} {xs : List α} {p : Nat} {x : α} (ht : xs[p]? = some x) :
    ∃ b a, xs = b ++ x :: a ∧ xs.eraseIdx p = b ++ a ∧ ∀ o, xs.set p o = b ++ o :: a := by
  obtain ⟨hi, rfl⟩ := List.getElem?_eq_some_iff.mp ht
  refine ⟨xs.take p, xs.drop (p + 1), ?_, eraseIdx_eq_take_drop_succ .., fun o => ?_⟩
  · rw [← drop_eq_getElem_cons hi, take_append_drop]
  · rw [set_eq_take_append_cons_drop, if_pos hi]

end

section

variable {α κ : Type*} [DecidableEq κ] {key k : α → κ} {first second : List α}

def SameByKey (key : α → κ) (first second : List α) : Prop :=
  ∀ value, first.filter (fun item => key item = value) = second.filter
    (fun item => key item = value)

theorem SameByKey.perm (hs : SameByKey k first second) : first.Perm second := by
  classical
  rw [perm_iff_count]
  intro x
  have own : decide (k x = k x) = true := decide_eq_true rfl
  rw [← count_filter (p := fun o => decide (k o = k x)) own, hs (k x),
    count_filter (p := fun o => decide (k o = k x)) own]

end

end Proteus.Library
