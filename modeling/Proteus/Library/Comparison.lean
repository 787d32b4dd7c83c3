/-
**Comparisons that may fail.**

A comparison of two values is made in both directions, and each direction may end with an error
instead of a truth value. `Decides` says what the two directions amount to: an error, the same place
in the order (`Alike`), both directions at once (`Crossed`), or a strict order of the two. `lessLex`
is the lexicographic comparison of two pairs of values by a program that compares both components
before it looks at the results.

* `Decides.lex` — what a lexicographic comparison decides, from what its components decide.
* `Consistent` — the outcomes that one weak order of three points can have; `Consistent.lex` and
  `consistent_cmp` build them up from linear orders.
-/
import Mathlib

namespace Proteus.Library

variable {K : Type}

section

variable {E : Type}

/-- The two directions of a comparison. -/
structure Directions (E : Type) where
  forward : Except E Bool
  backward : Except E Bool

namespace Directions

def swap (pair : Directions E) : Directions E :=
  ⟨pair.backward, pair.forward⟩

/-- `!(l < r) && !(r < l)` -/
def equivalent (pair : Directions E) : Except E Bool := do
  if ← pair.forward then .ok false
  else do .ok (! (← pair.backward))

def outcome (pair : Directions E) : Ordering :=
  match pair.forward, pair.backward with
  | .ok true, _ => .lt
  | _, .ok true => .gt
  | _, _ => .eq

theorem outcome_lt {p : Directions E} : p.outcome = .lt ↔ p.forward = .ok true := by
  obtain ⟨f, b⟩ := p
  rcases f with e | (_ | _) <;> rcases b with e' | (_ | _) <;> simp [outcome]

end Directions

/-- What the two directions of a comparison amount to. -/
structure Decides (pair : Directions E) (Clash Alike Crossed : Prop) : Prop where
  throws : Clash → (∃ error, pair.forward = .error error) ∧ ∃ error, pair.backward = .error error
  returns : ¬ Clash → ∃ less greater, pair.forward = .ok less ∧ pair.backward = .ok greater ∧
    (Alike ↔ less = false ∧ greater = false) ∧ (Crossed ↔ less = true ∧ greater = true)

variable {p first second third : Directions E} {Clash Alike Crossed : Prop}
  {Clash' Alike' Crossed' : Prop} {Clash'' Alike'' Crossed'' : Prop}

theorem Decides.eq_error (hd : Decides p Clash Alike Crossed) (hc : Clash) :
    ∃ e e', p = ⟨.error e, .error e'⟩ := by
  obtain ⟨⟨e, ht⟩, e', hb⟩ := hd.throws hc
  cases p
  cases ht
  cases hb
  exact ⟨e, e', rfl⟩

theorem Decides.eq_ok (hd : Decides p Clash Alike Crossed) (hc : ¬ Clash) :
    ∃ l g, p = ⟨.ok l, .ok g⟩ ∧
      (Alike ↔ l = false ∧ g = false) ∧ (Crossed ↔ l = true ∧ g = true) := by
  obtain ⟨l, g, ht, hb, hl⟩ := hd.returns hc
  cases p
  cases ht
  cases hb
  exact ⟨l, g, rfl, hl⟩

theorem Decides.congr (hd : Decides p Clash Alike Crossed) (hc : Clash ↔ Clash')
    (ha : Alike ↔ Alike') (hcr : Crossed ↔ Crossed') : Decides p Clash' Alike' Crossed' := by
  cases propext hc
  cases propext ha
  cases propext hcr
  exact hd

theorem decides_key [LinearOrder K] (l r : K) :
    Decides (⟨.ok (decide (l < r)), .ok (decide (r < l))⟩ : Directions E) False (l = r) False := by
  refine ⟨False.elim, fun _ => ⟨_, _, rfl, rfl, ?_, ?_⟩⟩
  · rw [decide_eq_false_iff_not, decide_eq_false_iff_not, not_lt, not_lt, and_comm]
    exact le_antisymm_iff
  · rw [decide_eq_true_iff, decide_eq_true_iff, false_iff, not_and]
    exact fun hl => hl.asymm

theorem outcome_key [LinearOrder K] (l r : K) :
    (⟨.ok (decide (l < r)), .ok (decide (r < l))⟩ : Directions E).outcome = cmp l r := by
  rcases lt_trichotomy l r with hl | rfl | hg
  · simp [Directions.outcome, hl, (cmp_eq_lt_iff l r).mpr hl]
  · simp [Directions.outcome]
  · simp [Directions.outcome, hg, hg.asymm, (cmp_eq_gt_iff l r).mpr hg]

theorem decides_error (e e' : E) (Alike Crossed : Prop) :
    Decides ⟨.error e, .error e'⟩ True Alike Crossed :=
  ⟨fun _ => ⟨⟨_, rfl⟩, ⟨_, rfl⟩⟩, fun hc => absurd trivial hc⟩

/-! ### Lexicographic comparison -/

def lessLex (first second third : Directions E) : Except E Bool := do
  let equivalentFirst ← first.equivalent
  let equivalentSecond ← second.equivalent
  let equivalentThird ← third.equivalent
  if equivalentFirst then
    if equivalentSecond then
      if equivalentThird then .ok false else third.forward
    else second.forward
  else first.forward

def lex (first second third : Directions E) : Directions E :=
  ⟨lessLex first second third, lessLex first.swap second.swap third.swap⟩

section

variable (left : Decides first Clash Alike Crossed)
  (middle : Decides second Clash' Alike' Crossed')
  (right : Decides third Clash'' Alike'' Crossed'')

include left middle right

theorem lex_throws (hc : Clash ∨ Clash' ∨ Clash'') :
    (∃ e, (lex first second third).forward = .error e) ∧
      ∃ e, (lex first second third).backward = .error e := by
  by_cases one : Clash
  · obtain ⟨e, e', rfl⟩ := left.eq_error one
    exact ⟨⟨e, rfl⟩, ⟨e', rfl⟩⟩
  obtain ⟨l, g, rfl, -⟩ := left.eq_ok one
  by_cases two : Clash'
  · obtain ⟨e, e', rfl⟩ := middle.eq_error two
    cases l <;> cases g <;> exact ⟨⟨e, rfl⟩, ⟨e', rfl⟩⟩
  obtain ⟨l', g', rfl, -⟩ := middle.eq_ok two
  obtain ⟨e, e', rfl⟩ := right.eq_error ((hc.resolve_left one).resolve_left two)
  cases l <;> cases g <;> cases l' <;> cases g' <;> exact ⟨⟨e, rfl⟩, ⟨e', rfl⟩⟩

/-- **Lexicographic comparison.** -/
theorem Decides.lex : Decides (lex first second third) (Clash ∨ Clash' ∨ Clash'')
    (Alike ∧ Alike' ∧ Alike'') (Crossed ∨ Alike ∧ (Crossed' ∨ Alike' ∧ Crossed'')) := by
  refine ⟨lex_throws left middle right, fun hcl => ?_⟩
  rw [not_or, not_or] at hcl
  obtain ⟨l, g, rfl, ha, hc⟩ := left.eq_ok hcl.1
  obtain ⟨l', g', rfl, ha', hc'⟩ := middle.eq_ok hcl.2.1
  obtain ⟨l'', g'', rfl, ha'', hc''⟩ := right.eq_ok hcl.2.2
  rw [ha, ha', ha'', hc, hc', hc'']
  cases l <;> cases g <;> cases l' <;> cases g' <;> cases l'' <;> cases g'' <;>
    exact ⟨_, _, rfl, rfl, by decide, by decide⟩

theorem outcome_lex (hc : ¬ (Clash ∨ Clash' ∨ Clash'')) :
    (lex first second third).outcome = first.outcome.then (second.outcome.then third.outcome) := by
  rw [not_or, not_or] at hc
  obtain ⟨l, g, rfl, -⟩ := left.eq_ok hc.1
  obtain ⟨l', g', rfl, -⟩ := middle.eq_ok hc.2.1
  obtain ⟨l'', g'', rfl, -⟩ := right.eq_ok hc.2.2
  cases l <;> cases g <;> cases l' <;> cases g' <;> cases l'' <;> cases g'' <;> rfl

end

theorem Decides.outcome_eq (hd : Decides p Clash Alike Crossed) (hcl : ¬ Clash)
    (hs : ¬ Crossed) : p.outcome = .eq ↔ Alike := by
  obtain ⟨f, b⟩ := p
  obtain ⟨l, g, ht, hb, ha, hc⟩ := hd.returns hcl
  cases ht
  cases hb
  rw [ha]
  cases l <;> cases g <;> simp_all [Directions.outcome]

end

/-! ### Three points -/

def Consistent (xy yz xz : Ordering) : Prop :=
  (xy ≠ .gt → yz ≠ .gt → xz ≠ .gt ∧ (xz = .eq → xy = .eq ∧ yz = .eq)) ∧
    (xy ≠ .lt → yz ≠ .lt → xz ≠ .lt ∧ (xz = .eq → xy = .eq ∧ yz = .eq))

theorem consistent_cmp [LinearOrder K] (x y z : K) : Consistent (cmp x y) (cmp y z) (cmp x z) := by
  simp only [Consistent, ne_eq, cmp_eq_gt_iff, cmp_eq_lt_iff, cmp_eq_eq_iff, not_lt]
  refine ⟨fun hf hs => ⟨hf.trans hs, ?_⟩, fun hf hs => ⟨hs.trans hf, ?_⟩⟩
  · rintro rfl
    exact ⟨le_antisymm hf hs, le_antisymm hs hf⟩
  · rintro rfl
    exact ⟨le_antisymm hs hf, le_antisymm hf hs⟩

/-- **A lexicographic comparison of three points** is consistent if the first one is, and the second
one is where the first ties. -/
theorem Consistent.lex {xy yz xz xy' yz' xz' : Ordering} (hf : Consistent xy yz xz)
    (hs : xy = .eq → yz = .eq → xz = .eq → Consistent xy' yz' xz') :
    Consistent (xy.then xy') (yz.then yz') (xz.then xz') := by
  cases xy <;> cases yz <;> cases xz <;> first
    | exact hs rfl rfl rfl
    | simp_all [Consistent, Ordering.then]

end Proteus.Library
