/-
**Division and modulo** (`olap/lib/expressions/expressions-generator.cpp`, `visit(DivExpression)`
and `visit(ModExpression)`).

Each of the two visitors chooses its own instruction by the type of the left operand. For integers
the division is signed and the remainder is not.

* `agree_iff` — for which operands the two belong together.
-/

import Proteus.Olap.Expressions

namespace Proteus.Olap.DivMod

/-! ### The instructions -/

/-- `CreateSDiv`, `CreateFDiv`, `CreateURem` and `CreateFRem` -/
inductive Instruction where
  | sdiv
  | fdiv
  | urem
  | frem
deriving DecidableEq

def stringOperand : String := "[ExpressionGeneratorVisitor]: string operations not supported yet"

def unknownInput : String := "[ExpressionGeneratorVisitor]: Unknown Input"

def notPrimitive : String :=
    "[ExpressionGeneratorVisitor]: input of binary expression can only be primitive"

/-- `visit(DivExpression)`, by the type of the left operand. -/
def visitDiv : ExpressionType → Except String Instruction
  | .primitive .int64 | .primitive .int | .primitive .bool => .ok .sdiv
  | .primitive .float => .ok .fdiv
  | .primitive .string => .error stringOperand
  | .primitive _ => .error unknownInput
  | _ => .error notPrimitive

/-- `visit(ModExpression)` -/
def visitMod : ExpressionType → Except String Instruction
  | .primitive .int64 | .primitive .int | .primitive .bool => .ok .urem
  | .primitive .float => .ok .frem
  | .primitive .string => .error stringOperand
  | .primitive _ => .error unknownInput
  | _ => .error notPrimitive

def Instruction.run {w : Nat} (a b : BitVec w) : Instruction → Option (BitVec w)
  | .sdiv => if b = 0 ∨ a = .intMin w ∧ b = -1 then none else some (a.sdiv b)
  | .urem => if b = 0 then none else some (a % b)
  | _ => none

/-- The bits of `INT` and `INT64`. -/
def intWidth : Primitive → Option Nat
  | .int => some 32
  | .int64 => some 64
  | _ => none

/-- The quotient and the remainder make up `a`, and the remainder is less than `b`. -/
def Agree {w : Nat} (type : Primitive) (a b : BitVec w) : Prop :=
  ∃ div mod quotient rest, visitDiv (.primitive type) = .ok div ∧
    visitMod (.primitive type) = .ok mod ∧
    div.run a b = some quotient ∧ mod.run a b = some rest ∧
    quotient.toInt * b.toInt + rest.toInt = a.toInt ∧ |rest.toInt| < |b.toInt|

/-! ### The unsigned remainder -/

open Int

section

variable {a b W : Int}

/-- Operands for which the remainder of the words is the one of the numbers. -/
def Harmless (a b W : Int) : Prop :=
  0 ≤ a ∧ (0 < b ∨ a < -b) ∨ a < 0 ∧ 0 < b ∧ b ∣ a ∧ b ∣ W ∨ a = b

/-- **The remainder of two's complements.** -/
theorem twos_emod_iff (low : -W ≤ 2 * a) (hh : 2 * a < W) (hlo : -W ≤ 2 * b) (hho : 2 * b < W)
    (hno : b ≠ 0) {tl : Int} (hd : tl = (if a < 0 then a + W else a) % if b < 0 then b + W else b) :
    (if 2 * tl < W then tl else tl - W) = a.tmod b ↔ Harmless a b W := by
  unfold Harmless
  rcases lt_or_ge a 0 with hne | hn
  · rw [if_pos hne] at hd
    have hf : ∀ d, a.tmod d = -(-a % d) := fun d => by
      rw [← tmod_eq_emod_of_nonneg (by omega), neg_tmod, neg_neg]
    rcases lt_or_gt_of_ne hno with hb | ha
    · rw [← tmod_neg, hf]
      rcases lt_or_ge a b with hl | hm
      · rw [emod_eq_of_lt (by omega) (by omega)] at hd
        have hsm := emod_lt_of_pos (-a) (show 0 < -b by omega)
        rw [if_neg (by omega)]
        omega
      · rw [← sub_emod_right, emod_eq_of_lt (by omega) (by omega)] at hd
        rw [if_pos (by omega)]
        rcases hm.eq_or_lt with rfl | hm
        · rw [emod_self]
          omega
        · rw [emod_eq_of_lt (by omega) (by omega)]
          omega
    · rw [if_neg ha.not_gt] at hd
      have hn := emod_nonneg (a + W) hno
      have hn' := emod_nonneg (-a) hno
      have hl := emod_lt_of_pos (a + W) ha
      rw [if_pos (by omega), hf, hd]
      constructor
      · intro hs
        have hmu : b ∣ a := dvd_neg.mp (dvd_of_emod_eq_zero (by omega))
        exact .inr (.inl ⟨hne, ha, hmu, (dvd_add_right hmu).mp (dvd_of_emod_eq_zero (by omega))⟩)
      · rintro (⟨hn, _⟩ | ⟨_, _, hmu, hp⟩ | rfl)
        · omega
        · rw [emod_eq_zero_of_dvd (dvd_add hmu hp), emod_eq_zero_of_dvd (dvd_neg.mpr hmu)]
          rfl
        · omega
  · rw [if_neg hn.not_gt] at hd
    rw [tmod_eq_emod_of_nonneg hn]
    rcases lt_or_gt_of_ne hno with hb | ha
    · rw [if_pos hb, emod_eq_of_lt (by omega) (by omega)] at hd
      rw [if_pos (by omega), ← emod_neg, hd]
      have hsm := emod_lt_of_pos a (show 0 < -b by omega)
      constructor
      · omega
      · intro hl
        rw [emod_eq_of_lt hn (by omega)]
    · rw [if_neg ha.not_gt] at hd
      have hsm := emod_lt_of_pos a ha
      rw [if_pos (by omega), hd]
      exact iff_of_true rfl (.inl ⟨hn, .inl ha⟩)

end

theorem toInt_umod_iff {w : Nat} {a b : BitVec w} (hn : b.toInt ≠ 0) :
    (a % b).toInt = a.toInt.tmod b.toInt ↔ Harmless a.toInt b.toInt (2 ^ w : Nat) := by
  have hu : ∀ x : BitVec w, (x.toNat : Int) = if x.toInt < 0 then x.toInt + (2 ^ w : Nat) else
      x.toInt := by
    intro x
    rw [BitVec.toInt_eq_toNat_cond]
    split_ifs <;> omega
  have hb : ∀ x : BitVec w, -((2 ^ w : Nat) : Int) ≤ 2 * x.toInt ∧ 2 * x.toInt < (2 ^ w : Nat) := by
    intro x
    rw [BitVec.toInt_eq_toNat_cond]
    split <;> omega
  have hr : ((a % b).toNat : Int) = a.toNat % b.toNat := by rw [BitVec.toNat_umod, natCast_emod]
  rw [hu a, hu b] at hr
  rw [← twos_emod_iff (hb a).1 (hb a).2 (hb b).1 (hb b).2 hn hr, BitVec.toInt_eq_toNat_cond]
  norm_cast

/-- **Division and modulo agree** exactly where both operands are positive words, or the remainder
happens to be the same. -/
theorem agree_iff {type : Primitive} {w : Nat} (integer : intWidth type = some w) (a b : BitVec w)
    (nonzero : b ≠ 0)
    (fits : ¬ (a = .intMin w ∧ b = -1)) : Agree type a b ↔
        Harmless a.toInt b.toInt (2 ^ w : Nat) := by
  have hwo : b.toInt ≠ 0 := fun hz =>
    nonzero (BitVec.toInt_inj.mp (hz.trans BitVec.toInt_zero.symm))
  have hi : visitDiv (.primitive type) = .ok .sdiv ∧ visitMod (.primitive type) = .ok .urem := by
    cases type <;> cases integer <;> exact ⟨rfl, rfl⟩
  have hq : (a.sdiv b).toInt = a.toInt.tdiv b.toInt :=
    BitVec.toInt_sdiv_of_ne_or_ne _ _ (not_and_or.mp fits)
  have hw := tdiv_mul_add_tmod a.toInt b.toInt
  rw [← toInt_umod_iff hwo]
  constructor
  · rintro ⟨div, mod, q, r, hd, hm, ran, hl, sum, _⟩
    rw [hi.1] at hd
    rw [hi.2] at hm
    cases hd
    cases hm
    rw [Instruction.run, if_neg (not_or.mpr ⟨nonzero, fits⟩)] at ran
    rw [Instruction.run, if_neg nonzero] at hl
    cases ran
    cases hl
    rw [hq] at sum
    linarith
  · intro hs
    refine ⟨_, _, a.sdiv b, a % b, hi.1, hi.2, if_neg (not_or.mpr ⟨nonzero, fits⟩),
      if_neg nonzero, ?_, ?_⟩
    · rw [hs, hq, hw]
    · rw [hs, abs_eq_natAbs, abs_eq_natAbs, natAbs_tmod]
      exact ofNat_lt.mpr (Nat.mod_lt _ (natAbs_pos.mpr hwo))

theorem agree_seven : Agree .int (7 : BitVec 32) 2 :=
  (agree_iff rfl 7 2 (by decide) (by decide)).mpr (.inl ⟨by decide, .inl (by decide)⟩)

/-- Minus seven and two: the quotient is minus three and the remainder is one. -/
theorem negative_disagrees : ¬ Agree .int (-7 : BitVec 32) 2 := by
  rintro ⟨_, _, q, tl, ⟨⟩, ⟨⟩, ⟨⟩, ⟨⟩, sum, _⟩
  cases sum

end Proteus.Olap.DivMod
