/-
**Joins of bags, and a partition of one side.**

Rows of two sides match by a relation `on`. When the second side is cut into parts and each part is
joined with the whole first side, the matching pairs and the unmatched rows of the second side add
up to those of the whole. The rows of the first side do not: a row is found in each part that has a
match for it, and missed in each that has none.

* `innerJoin_parts`, `unmatched_parts` — what adds up.
* `selected_parts_iff` — a selection of the first side's rows made in every part adds up to one
  selection exactly when each row is selected in as many parts as it should be.
* `missed_once_iff`, `found_once_iff` — how many parts have a match for a row.
-/

import Mathlib

namespace Proteus.Library

open List

variable {α β γ : Type} (on : α → β → Bool)

/-- The matching pairs. -/
def innerJoin (pair : α → β → γ) (left : List α) (right : List β) : List γ :=
  left.flatMap fun row => (right.filter (on row)).map (pair row)

/-- There is a match for the row. -/
def matched (right : List β) (row : α) : Bool := right.any (on row)

def unmatched (left : List α) (right : List β) : List β :=
  right.filter fun row => !left.any fun other => on other row

variable (pa : α → β → γ) (l : List α)

/-! ### What adds up -/

theorem innerJoin_append (f s : List β) : (innerJoin on pa l f ++ innerJoin on pa l s).Perm
      (innerJoin on pa l (f ++ s)) := by
  refine (flatMap_append_perm l _ _).trans (List.Perm.of_eq ?_)
  congr 1
  funext r
  rw [filter_append, map_append]

theorem innerJoin_parts (ps : List (List β)) :
    (ps.flatMap (innerJoin on pa l)).Perm (innerJoin on pa l ps.flatten) := by
  induction ps with
  | nil => simp [innerJoin]
  | cons p ps ih =>
    rw [flatMap_cons, flatten_cons]
    exact (ih.append_left _).trans (innerJoin_append on pa l p ps.flatten)

theorem innerJoin_perm {f s : List β} (hs : f.Perm s) :
    (innerJoin on pa l f).Perm (innerJoin on pa l s) :=
  List.Perm.flatMap_left _ fun r _ => (hs.filter (on r)).map (pa r)

theorem unmatched_parts (l : List α) (ps : List (List β)) :
    ps.flatMap (unmatched on l) = unmatched on l ps.flatten := by
  unfold unmatched
  rw [filter_flatten, flatMap_def]

theorem matched_perm {f s : List β} (hs : f.Perm s) : matched on f = matched on s := by
  funext r
  exact hs.any_eq

theorem matched_flatten (ps : List (List β)) (r : α) :
    matched on ps.flatten r = ps.any fun p => matched on p r := by
  unfold matched
  rw [any_flatten]

/-! ### What is selected in every part -/

section

variable {ι : Type} {ps : List ι} {l : List α}

theorem length_selected (ss : ι → α → Bool) (ps : List ι) (l : List α) :
    (ps.flatMap fun p => l.filter (ss p)).length = (l.map fun r => ps.countP (ss · r)).sum := by
  induction ps with
  | nil => simp
  | cons p ps ih =>
    rw [flatMap_cons, length_append, ih, ← countP_eq_length_filter]
    clear ih
    induction l with
    | nil => rfl
    | cons r l ih =>
      simp only [countP_cons, map_cons, sum_cons] at ih ⊢
      omega

theorem count_selected [DecidableEq α] (ss : ι → α → Bool) (ps : List ι) (l : List α) (r : α) :
    (ps.flatMap fun p => l.filter (ss p)).count r = ps.countP (ss · r) * l.count r := by
  induction ps with
  | nil => simp
  | cons p ps ih =>
    rw [flatMap_cons, count_append, ih, countP_cons]
    by_cases hs : ss p r = true
    · rw [count_filter hs, if_pos hs]
      ring
    · have ha : r ∉ l.filter (ss p) := fun hm => hs (of_mem_filter hm)
      rw [count_eq_zero_of_not_mem ha, if_neg hs]
      ring

theorem length_filter_eq_sum (w : α → Bool) (l : List α) :
    (l.filter w).length = (l.map fun r => (w r).toNat).sum := by
  rw [← countP_eq_length_filter]
  induction l with
  | nil => rfl
  | cons r l ih =>
    rw [countP_cons, map_cons, sum_cons, ih]
    cases w r <;> simp [Nat.add_comm]

theorem eq_of_sum_eq {f g : α → Nat} (le : ∀ r ∈ l, g r ≤ f r)
    (hs : (l.map f).sum = (l.map g).sum) : ∀ r ∈ l, f r = g r := by
  induction l with
  | nil => exact nofun
  | cons r l ih =>
    have hh := le r mem_cons_self
    have hr := sum_le_sum fun o hm => le o (mem_cons_of_mem _ hm)
    simp only [map_cons, sum_cons] at hs
    intro o hm
    rcases mem_cons.mp hm with rfl | hl
    · omega
    · exact ih (fun o hm => le o (mem_cons_of_mem _ hm)) (by omega) o hl

/-- **A selection in every part** is one selection of the whole exactly when each row is selected as
often as it should be. The rows may be changed afterwards; nowhere or everywhere they may be
selected too often. -/
theorem selected_parts_iff (ss : ι → α → Bool) (w : α → Bool) (c : α → γ)
    (way : (∀ r ∈ l, (w r).toNat ≤ ps.countP (ss · r)) ∨
      ∀ r ∈ l, ps.countP (ss · r) ≤ (w r).toNat) :
    (ps.flatMap fun p => (l.filter (ss p)).map c).Perm ((l.filter w).map c) ↔
      ∀ r ∈ l, ps.countP (ss · r) = (w r).toNat := by
  classical
  have ho : (ps.flatMap fun p => (l.filter (ss p)).map c) =
      (ps.flatMap fun p => l.filter (ss p)).map c := map_flatMap.symm
  rw [ho]
  constructor
  · intro hs
    have hle := hs.length_eq
    rw [length_map, length_map, length_selected, length_filter_eq_sum] at hle
    rcases way with hmo | hl
    · exact eq_of_sum_eq hmo hle
    · exact fun r hm => (eq_of_sum_eq hl hle.symm r hm).symm
  · intro hc
    refine List.Perm.map c (perm_iff_count.mpr fun r => ?_)
    rw [count_selected]
    by_cases hm : r ∈ l
    · rw [hc r hm]
      by_cases hw : w r = true
      · rw [count_filter hw, hw, Bool.toNat_true, Nat.one_mul]
      · have ha : r ∉ l.filter w := fun hi => hw (of_mem_filter hi)
        rw [count_eq_zero_of_not_mem ha, Bool.not_eq_true _ |>.mp hw, Bool.toNat_false,
          Nat.zero_mul]
    · rw [count_eq_zero_of_not_mem hm, Nat.mul_zero,
        count_eq_zero_of_not_mem fun hi => hm (mem_of_mem_filter hi)]

end

/-! ### Rows found and missed -/

section

variable {on} {ps : List (List β)} {r : α}

theorem toNat_matched_le : (matched on ps.flatten r).toNat ≤ ps.countP fun p => matched on p r := by
  rw [matched_flatten]
  cases hf : ps.any fun p => matched on p r with
  | false => exact Nat.zero_le _
  | true =>
    obtain ⟨p, hm, hh⟩ := any_eq_true.mp hf
    exact countP_pos_iff.mpr ⟨p, hm, hh⟩

theorem found_once_iff : (ps.countP fun p => matched on p r) = (matched on ps.flatten r).toNat ↔
    (ps.countP fun p => matched on p r) ≤ 1 := by
  have hl : (matched on ps.flatten r).toNat ≤ ps.countP fun p => matched on p r := toNat_matched_le
  constructor
  · intro hs
    rw [hs]
    exact Bool.toNat_le _
  · intro hmo
    refine le_antisymm ?_ hl
    rw [matched_flatten]
    cases hf : ps.any fun p => matched on p r with
    | false =>
      refine (countP_eq_zero.mpr fun p hm hh => ?_).le
      exact any_eq_false.mp hf p hm hh
    | true => exact hmo

theorem missed_once_iff : (ps.countP fun p => !matched on p r) = (!matched on ps.flatten r).toNat ↔
      ps.length = 1 ∨ ps ≠ [] ∧ ∀ p ∈ ps, matched on p r = true := by
  rw [matched_flatten]
  cases hf : ps.any fun p => matched on p r with
  | true =>
    obtain ⟨p, hm, hh⟩ := any_eq_true.mp hf
    have hn : (ps.countP fun p => !matched on p r) = 0 ↔ ∀ p ∈ ps, matched on p r = true := by
      rw [countP_eq_zero]
      exact forall₂_congr fun p _ => by simp
    rw [Bool.not_true, Bool.toNat_false, hn]
    refine ⟨fun all => .inr ⟨ne_nil_of_mem hm, all⟩, fun ho => ?_⟩
    rcases ho with hs | all
    · obtain ⟨onl, rfl⟩ := length_eq_one_iff.mp hs
      intro o ht
      rw [mem_singleton.mp ht, ← mem_singleton.mp hm]
      exact hh
    · exact all.2
  | false =>
    have hmi : ∀ p ∈ ps, matched on p r = false := fun p hm =>
      Bool.eq_false_of_not_eq_true (any_eq_false.mp hf p hm)
    have he : (ps.countP fun p => !matched on p r) = ps.length :=
      countP_eq_length.mpr fun p hm => by rw [hmi p hm]; rfl
    rw [he, Bool.not_false, Bool.toNat_true]
    refine ⟨.inl, fun ho => ?_⟩
    rcases ho with hs | all
    · exact hs
    · obtain ⟨p, hm⟩ := exists_mem_of_ne_nil ps all.1
      exact absurd (all.2 p hm) (by rw [hmi p hm]; exact Bool.false_ne_true)

theorem missed_way (ps : List (List β)) (l : List α) :
    (∀ r ∈ l, (!matched on ps.flatten r).toNat ≤ ps.countP fun p => !matched on p r) ∨
      ∀ r ∈ l, (ps.countP fun p => !matched on p r) ≤ (!matched on ps.flatten r).toNat := by
  cases ps with
  | nil => exact .inr fun r _ => Nat.zero_le _
  | cons f tl =>
    refine .inl fun r _ => ?_
    rw [matched_flatten]
    cases hf : (f :: tl).any fun p => matched on p r with
    | true => exact Nat.zero_le _
    | false =>
      refine countP_pos_iff.mpr ⟨f, mem_cons_self, ?_⟩
      rw [Bool.eq_false_of_not_eq_true (any_eq_false.mp hf f mem_cons_self)]
      rfl

end

end Proteus.Library
