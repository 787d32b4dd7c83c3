/-
**A dispenser of numbers.**

Numbers are handed out in turn, and each is held until it is given back. `Dispenser` relates the
next number, who holds which, and the list of those that were given back.
-/

import Mathlib.Data.List.Nodup
import Mathlib.Logic.Function.Basic
import Mathlib.Order.Nat

namespace Proteus.Library

open Option Function

variable {ι : Type}

structure Dispenser (next : Nat) (held : ι → Option Nat) (done : List Nat) : Prop where
  below : ∀ holder number, held holder = some number → number < next
  apart : ∀ holder other number, held holder = some number → held other = some number →
    holder = other
  once : done.Nodup
  done_iff : ∀ number, number ∈ done ↔ number < next ∧ ∀ holder, held holder ≠ some number

namespace Dispenser

variable {nx n : Nat} {he : ι → Option Nat} {d : List Nat} {h : ι}

theorem initial : Dispenser 0 (fun _ : ι => none) [] :=
  ⟨nofun, nofun, .nil, fun _ => iff_of_false nofun fun hd => Nat.not_lt_zero _ hd.1⟩

theorem done_or_held (hn : Dispenser nx he d) (hl : n < nx) : n ∈ d ∨ ∃ h, he h = some n := by
  rw [hn.done_iff, or_iff_not_imp_right, not_exists]
  exact fun hf => ⟨hl, hf⟩

variable [DecidableEq ι]

theorem outstanding_of_draw (hl : nx + 1 ≤ n ∨ ∃ o, update he h (some nx) o = some n) :
    nx ≤ n ∨ ∃ o, he o = some n := by
  rcases hl with hl | ⟨o, hh⟩
  · exact .inl (Nat.le_of_succ_le hl)
  · rcases eq_or_ne o h with rfl | hd
    · rw [update_self] at hh
      exact .inl (some.inj hh).le
    · rw [update_of_ne hd] at hh
      exact .inr ⟨o, hh⟩

theorem held_of_give {o : ι} (hh : update he h none o = some n) : he o = some n := by
  rcases eq_or_ne o h with rfl | hd
  · rw [update_self] at hh
    cases hh
  · rwa [update_of_ne hd] at hh

theorem outstanding_of_give (hl : nx ≤ n ∨ ∃ o, update he h none o = some n) :
    nx ≤ n ∨ ∃ o, he o = some n :=
  hl.imp_right fun ⟨o, hh⟩ => ⟨o, held_of_give hh⟩

theorem draw (hn : Dispenser nx he d) (hi : he h = none) :
    Dispenser (nx + 1) (update he h (some nx)) d := by
  have hb : ∀ o n, update he h (some nx) o = some n → o = h ∧ n = nx ∨ o ≠ h ∧ he o = some n := by
    intro o n hh
    rcases eq_or_ne o h with rfl | hd
    · rw [update_self] at hh
      exact .inl ⟨rfl, (some.inj hh).symm⟩
    · rw [update_of_ne hd] at hh
      exact .inr ⟨hd, hh⟩
  refine ⟨fun o n hh => ?_, fun f s n one two => ?_, hn.once, fun n => ?_⟩
  · rcases hb o n hh with ⟨_, rfl⟩ | ⟨_, old⟩
    · exact Nat.lt_succ_self _
    · exact (hn.below o n old).trans (Nat.lt_succ_self _)
  · rcases hb f n one with ⟨rfl, rfl⟩ | ⟨_, old⟩
    · rcases hb s _ two with ⟨rfl, _⟩ | ⟨_, old⟩
      · rfl
      · exact absurd (hn.below s _ old) (Nat.lt_irrefl _)
    · rcases hb s n two with ⟨_, rfl⟩ | ⟨_, o⟩
      · exact absurd (hn.below f _ old) (Nat.lt_irrefl _)
      · exact hn.apart f s n old o
  · refine (hn.done_iff n).trans (Iff.trans ?_
      (and_congr_right' (forall_update_iff he fun _ he => he ≠ some n).symm))
    constructor
    · rintro ⟨hl, hf⟩
      exact ⟨hl.trans (Nat.lt_succ_self _), fun hs => hl.ne (some.inj hs).symm, fun o _ => hf o⟩
    · rintro ⟨hl, new, hf⟩
      refine ⟨lt_of_le_of_ne (Nat.lt_succ_iff.mp hl) fun hs => new (congrArg some hs.symm), fun o =>
        ?_⟩
      rcases eq_or_ne o h with rfl | hd
      · rw [hi]
        nofun
      · exact hf o hd

theorem give (hn : Dispenser nx he d) (hh : he h = some n) :
    Dispenser nx (update he h none) (d ++ [n]) := by
  have new : n ∉ d := fun old => ((hn.done_iff n).mp old).2 h hh
  refine ⟨fun o _ old => hn.below o _ (held_of_give old),
    fun f s _ one two => hn.apart f s _ (held_of_give one) (held_of_give two),
    hn.once.append (List.nodup_singleton n) (List.disjoint_singleton.mpr new), fun o => ?_⟩
  refine Iff.trans ?_ (and_congr_right' (forall_update_iff he fun _ he => he ≠ some o).symm)
  rw [List.mem_append, hn.done_iff, List.mem_singleton]
  constructor
  · rintro (⟨hl, hf⟩ | rfl)
    · exact ⟨hl, nofun, fun o _ => hf o⟩
    · exact ⟨hn.below h o hh, nofun, fun s hd two => hd (hn.apart s h o two hh)⟩
  · rintro ⟨hl, _, hf⟩
    rcases eq_or_ne o n with rfl | hd
    · exact .inr rfl
    · refine .inl ⟨hl, fun s two => ?_⟩
      rcases eq_or_ne s h with rfl | ha
      · exact hd (some.inj (two.symm.trans hh))
      · exact hf s ha two

end Dispenser

end Proteus.Library
