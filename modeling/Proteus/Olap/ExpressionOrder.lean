/-
**What the order of expressions tells apart** (`olap/expressions/expressions.hpp`).

Three relations on pairs of trees describe what their comparison comes to, without comparing them:

* `Clash` — the comparison meets two constants of different types or two binary expressions with
  different operators, and throws.
* `Alike` — the trees differ at most in what the order does not look at: argument numbers, the
  record of a projection, the operands of a binary expression, the payload of a unary node,
  dictionaries, the names and types of attributes behind the names of their relations.
* `Crossed` — the types of two input arguments and the names of their attributes are in opposite
  orders, at the first place where the order looks.

`less_decides` is that the comparison does just that. Where none of the three holds, the trees are
strictly ordered; and the order is consistent on any three such trees (`less_consistent`), unless a
constant is not a number.
-/

import Proteus.Olap.Expressions

namespace Proteus.Olap

open Library

/-! ### Keys of the leaves -/

def RecordAttribute.key (attr : RecordAttribute) : String ×ₗ String :=
  toLex (attr.relName, attr.attrName)

def namesKey (projections : List RecordAttribute) : Nat ×ₗ List (String ×ₗ String) :=
  toLex (projections.length, projections.map RecordAttribute.key)

def typeText (projections : List RecordAttribute) : String :=
  (ExpressionType.record projections).getType

open RecordAttribute

theorem RecordAttribute.less_eq (l r : RecordAttribute) : l.less r = decide (l.key < r.key) := by
  rw [less, key, key, Bool.eq_iff_iff]
  split_ifs with hs
  · simp [Prod.Lex.toLex_lt_toLex, hs]
  · simp [Prod.Lex.toLex_lt_toLex, hs]

theorem lessProjection_eq (l r : RecordAttribute) :
    lessProjection l r = decide (l.key < r.key) := by
  rw [lessProjection, l.less_eq, r.less_eq, Bool.eq_iff_iff]
  split_ifs with hsr hsa
  · simp only [Bool.and_eq_true, Bool.not_eq_true', decide_eq_false_iff_not] at hsa
    simp [hsa.1]
  · rfl
  · have ha : l.relName ≠ r.relName := by
      intro hs
      exact hsr ⟨by rw [hs]; exact lt_irrefl _, by rw [hs]; exact lt_irrefl _⟩
    simp [key, Prod.Lex.toLex_lt_toLex, ha]

variable (left lf right ri : List RecordAttribute)

theorem lessProjections_eq (hle : lf.length = ri.length) : lessProjections lf ri =
      decide (lf.map key < ri.map key) := by
  induction lf generalizing ri with
  | nil =>
    obtain rfl : ri = [] := List.eq_nil_of_length_eq_zero hle.symm
    simp [lessProjections]
  | cons hd t ih =>
    cases ri with
    | nil => cases hle
    | cons hd' t' =>
      rw [lessProjections, ih t' (Nat.succ.inj hle), hd.less_eq, hd'.less_eq, Bool.eq_iff_iff]
      simp only [List.map_cons, List.cons_lt_cons_iff, decide_eq_true_eq]
      rcases lt_trichotomy hd.key hd'.key with hl | hs | hg
      · simp [hl]
      · simp [hs]
      · simp [hg, hg.asymm, hg.ne']

/-- **The comparison of input arguments** holds if one of its two keys is less. -/
theorem lessArgument_iff :
    lessArgument lf ri = true ↔ typeText lf < typeText ri ∨ namesKey lf < namesKey ri := by
  have hn : (if lf.length ≠ ri.length then decide (lf.length < ri.length)
      else lessProjections lf ri) = decide (namesKey lf < namesKey ri) := by
    rw [Bool.eq_iff_iff]
    split_ifs with hle
    · simp [namesKey, Prod.Lex.toLex_lt_toLex, hle]
    · rw [not_not] at hle
      simp [namesKey, Prod.Lex.toLex_lt_toLex, hle, lessProjections_eq lf ri hle]
  have hu : lessArgument lf ri = if ¬ typeText lf < typeText ri ∧ ¬ typeText ri < typeText ri then
        (if lf.length ≠ ri.length then decide (lf.length < ri.length)
          else lessProjections lf ri)
      else decide (typeText lf < typeText ri) := rfl
  rw [hu, hn]
  by_cases hl : typeText lf < typeText ri
  · rw [if_neg fun hb => hb.1 hl]
    simp only [hl, decide_true, true_or]
  · rw [if_pos ⟨hl, lt_irrefl _⟩, decide_eq_true_iff]
    simp only [hl, false_or]

/-! ### The three relations -/

def Constant.Alike : Constant → Constant → Prop
  | .int left, .int right => left = right
  | .int64 left, .int64 right => left = right
  | .bool left, .bool right => left = right
  | .float left, .float right => left.isNaN ∨ right.isNaN ∨ left.key = right.key
  | .string left, .string right => left = right
  | .dstring left _, .dstring right _ => left = right
  | .date left, .date right => left = right
  | _, _ => False

theorem Unary.getTypeID_ne (n : Unary) : n.getTypeID ≠ .constant ∧ n.getTypeID ≠ .argument ∧
    n.getTypeID ≠ .recordProjection ∧ n.getTypeID ≠ .ifThenElse ∧ n.getTypeID ≠ .binary := by
  cases n <;> simp [Unary.getTypeID]

theorem Double.less_decides (lf ri : Double) :
    Decides (⟨.ok (lf.less ri), .ok (ri.less lf)⟩ : Directions RuntimeError) False
      (lf.isNaN ∨ ri.isNaN ∨ lf.key = ri.key) False := by
  by_cases hn : lf.isNaN = false ∧ ri.isNaN = false
  · have hf : lf.less ri = decide (lf.key < ri.key) := by simp [Double.less, hn]
    have hb : ri.less lf = decide (ri.key < lf.key) := by simp [Double.less, hn]
    rw [hf, hb]
    exact (decides_key _ _).congr Iff.rfl (by simp [hn]) Iff.rfl
  · have hu : lf.less ri = false ∧ ri.less lf = false := by
      rw [not_and_or, Bool.not_eq_false, Bool.not_eq_false] at hn
      rcases hn with nan | nan <;> simp [Double.less, nan]
    rw [hu.1, hu.2]
    refine ⟨False.elim, fun _ => ⟨false, false, rfl, rfl, iff_of_true ?_ ⟨rfl, rfl⟩, by simp⟩⟩
    rw [not_and_or, Bool.not_eq_false, Bool.not_eq_false] at hn
    exact hn.elim Or.inl fun nan => Or.inr (Or.inl nan)

theorem Constant.less_decides (lf ri : Constant) :
    Decides ⟨lf.less ri, ri.less lf⟩ (lf.getConstantType ≠ ri.getConstantType)
      (lf.Alike ri) False := by
  cases lf <;> cases ri <;> first
    | exact (decides_key _ _).congr (by simp [Constant.getConstantType]) Iff.rfl Iff.rfl
    | exact (Double.less_decides _ _).congr (by simp [Constant.getConstantType]) Iff.rfl Iff.rfl
    | exact (decides_error _ _ _ _).congr (by simp [Constant.getConstantType]) Iff.rfl Iff.rfl

def Constant.key : Constant → Int ⊕ₗ String
  | .int val => toLex (.inl val)
  | .int64 val => toLex (.inl val)
  | .bool val => toLex (.inl val.toInt)
  | .float val => toLex (.inl val.key)
  | .string val => toLex (.inr val)
  | .dstring val _ => toLex (.inl val)
  | .date val => toLex (.inl val)

namespace Expression

def Clash : Expression → Expression → Prop
  | .constant left, .constant right => left.getConstantType ≠ right.getConstantType
  | .ifThenElse cond ifResult elseResult, .ifThenElse cond' ifResult' elseResult' =>
    Clash cond cond' ∨ Clash ifResult ifResult' ∨ Clash elseResult elseResult'
  | .binary op lhs rhs, .binary op' lhs' rhs' => op ≠ op' ∨ Clash lhs lhs' ∨ Clash rhs rhs'
  | .unary node expr, .unary node' expr' => node.getTypeID = node'.getTypeID ∧ Clash expr expr'
  | _, _ => False

def Alike : Expression → Expression → Prop
  | .constant left, .constant right => left.Alike right
  | .argument left _, .argument right _ => typeText left = typeText right ∧
      namesKey left = namesKey right
  | .projection _ left, .projection _ right => left.key = right.key
  | .ifThenElse cond ifResult elseResult, .ifThenElse cond' ifResult' elseResult' =>
    Alike cond cond' ∧ Alike ifResult ifResult' ∧ Alike elseResult elseResult'
  | .binary op lhs rhs, .binary op' lhs' rhs' =>
    op = op' ∧ (op = .max ∨ op = .min → Alike lhs lhs' ∧ Alike rhs rhs')
  | .unary node expr, .unary node' expr' => node.getTypeID = node'.getTypeID ∧ Alike expr expr'
  | _, _ => False

def Crossed : Expression → Expression → Prop
  | .argument left _, .argument right _ =>
    (typeText left < typeText right ∧ namesKey right < namesKey left) ∨
      (typeText right < typeText left ∧ namesKey left < namesKey right)
  | .ifThenElse cond ifResult elseResult, .ifThenElse cond' ifResult' elseResult' =>
    Crossed cond cond' ∨ Alike cond cond' ∧
      (Crossed ifResult ifResult' ∨ Alike ifResult ifResult' ∧ Crossed elseResult elseResult')
  | .binary op lhs rhs, .binary op' lhs' rhs' =>
    op = op' ∧ (op = .max ∨ op = .min) ∧ (Crossed lhs lhs' ∨ Alike lhs lhs' ∧ Crossed rhs rhs')
  | .unary node expr, .unary node' expr' => node.getTypeID = node'.getTypeID ∧ Crossed expr expr'
  | _, _ => False

def directions (left right : Expression) : Directions RuntimeError :=
  ⟨left.less right, right.less left⟩

/-! ### Nodes of different classes -/

theorem ctorIdx_injective {lf ri : ExpressionId} (hs : lf.ctorIdx = ri.ctorIdx) : lf = ri := by
  cases lf <;> cases ri <;> first | rfl | cases hs

/-- Two nodes of one class id. -/
inductive SameClass : Expression → Expression → Prop
  | constant (left right : Constant) : SameClass (.constant left) (.constant right)
  | argument (left right : List RecordAttribute) (argNo argNo' : Int) :
      SameClass (.argument left argNo) (.argument right argNo')
  | projection (expr expr' : Expression) (left right : RecordAttribute) :
      SameClass (.projection expr left) (.projection expr' right)
  | ifThenElse (cond ifResult elseResult cond' ifResult' elseResult' : Expression) :
      SameClass (.ifThenElse cond ifResult elseResult) (.ifThenElse cond' ifResult' elseResult')
  | binary (op op' : BinaryOperator) (lhs rhs lhs' rhs' : Expression) :
      SameClass (.binary op lhs rhs) (.binary op' lhs' rhs')
  | unary {node node' : Unary} (same : node.getTypeID = node'.getTypeID) (expr expr' : Expression) :
      SameClass (.unary node expr) (.unary node' expr')

theorem sameClass_of_typeID {lf ri : Expression} (hs : lf.getTypeID = ri.getTypeID) :
    SameClass lf ri := by
  cases lf <;> cases ri <;> simp only [getTypeID, reduceCtorEq] at hs <;> first
    | exact .unary hs _ _
    | constructor
    | exact absurd hs (by simp [Unary.getTypeID_ne])
    | exact absurd hs.symm (by simp [Unary.getTypeID_ne])

theorem less_of_ne {lf ri : Expression} (ha : lf.getTypeID ≠ ri.getTypeID) :
    lf.less ri = .ok (decide (lf.getTypeID.ctorIdx < ri.getTypeID.ctorIdx)) := by
  cases lf <;> cases ri <;> first
    | exact absurd rfl ha
    | (simp only [less, getTypeID] at ha ⊢; done)
    | (simp only [less, getTypeID] at ha ⊢; exact if_neg ha)

theorem not_sameClass {lf ri : Expression} (ha : lf.getTypeID ≠ ri.getTypeID) :
    ¬ Clash lf ri ∧ ¬ Alike lf ri ∧ ¬ Crossed lf ri := by
  cases lf <;> cases ri <;> first
    | exact absurd rfl ha
    | (simp [Clash, Alike, Crossed]; done)
    | (simp only [getTypeID] at ha; simp [Clash, Alike, Crossed, ha])

/-! ### What the comparison decides -/

theorem decides_of_ne {lf ri : Expression} (ha : lf.getTypeID ≠ ri.getTypeID) :
    Decides (directions lf ri) (Clash lf ri) (Alike lf ri) (Crossed lf ri) := by
  obtain ⟨hc, hd, hst⟩ := not_sameClass ha
  rw [directions, less_of_ne ha, less_of_ne ha.symm]
  refine (decides_key _ _).congr (iff_of_false id hc) (iff_of_false (fun hs => ?_) hd)
    (iff_of_false id hst)
  exact ha (ctorIdx_injective hs)

theorem argument_decides (lf ri : List RecordAttribute) :
    Decides (⟨.ok (lessArgument lf ri), .ok (lessArgument ri lf)⟩ : Directions RuntimeError) False
      (typeText lf = typeText ri ∧ namesKey lf = namesKey ri)
      ((typeText lf < typeText ri ∧ namesKey ri < namesKey lf) ∨
        (typeText ri < typeText lf ∧ namesKey lf < namesKey ri)) := by
  refine ⟨False.elim, fun _ => ⟨_, _, rfl, rfl, ?_, ?_⟩⟩
  · rw [← Bool.not_eq_true, ← Bool.not_eq_true, lessArgument_iff, lessArgument_iff]
    simp only [not_or, not_lt, le_antisymm_iff]
    exact ⟨fun ⟨⟨up, hd⟩, hm, hl⟩ => ⟨⟨hd, hl⟩, up, hm⟩,
      fun ⟨⟨hd, hl⟩, up, hm⟩ => ⟨⟨up, hd⟩, hm, hl⟩⟩
  · rw [lessArgument_iff, lessArgument_iff]
    constructor
    · rintro (⟨ht, hn⟩ | ⟨ht, hn⟩)
      · exact ⟨Or.inl ht, Or.inr hn⟩
      · exact ⟨Or.inr hn, Or.inl ht⟩
    · rintro ⟨ht | hn, ht' | hn'⟩
      · exact absurd ht' ht.asymm
      · exact Or.inl ⟨ht, hn'⟩
      · exact Or.inr ⟨ht', hn⟩
      · exact absurd hn' hn.asymm

/-- **A binary expression** is not less than any other with its operator. -/
theorem lessBinary_decides {lf ri : Directions RuntimeError} {Clash Alike Crossed : Prop}
    {Clash' Alike' Crossed' : Prop} (one : Decides lf Clash Alike Crossed)
    (two : Decides ri Clash' Alike' Crossed') :
    Decides ⟨lessBinary lf.forward ri.forward, lessBinary lf.backward ri.backward⟩
      (Clash ∨ Clash') True False := by
  obtain ⟨f, b⟩ := lf
  obtain ⟨f', b'⟩ := ri
  by_cases hc : Clash
  · obtain ⟨⟨e, ht⟩, ⟨e', hb⟩⟩ := one.throws hc
    cases ht
    cases hb
    exact (decides_error e e' _ _).congr (by simp [hc]) Iff.rfl Iff.rfl
  obtain ⟨l, g, ht, hb, -⟩ := one.returns hc
  cases ht
  cases hb
  by_cases hc' : Clash'
  · obtain ⟨⟨e, ht⟩, ⟨e', hb⟩⟩ := two.throws hc'
    cases ht
    cases hb
    exact (decides_error e e' _ _).congr (by simp [hc']) Iff.rfl Iff.rfl
  obtain ⟨l', g', ht, hb, -⟩ := two.returns hc'
  cases ht
  cases hb
  refine ⟨fun he => absurd he (by simp [hc, hc']), fun _ => ⟨false, false, ?_, ?_, ?_, ?_⟩⟩
  · cases l <;> cases l' <;> rfl
  · cases g <;> cases g' <;> rfl
  · simp
  · simp

/-- **The comparison of two trees** throws if they clash, and otherwise orders them unless they are
alike or crossed. -/
theorem less_decides (lf ri : Expression) :
    Decides (directions lf ri) (Clash lf ri) (Alike lf ri) (Crossed lf ri) := by
  induction lf generalizing ri with
  | constant v =>
    by_cases hs : (Expression.constant v).getTypeID = ri.getTypeID
    · cases sameClass_of_typeID hs with
      | constant _ v' =>
        rw [directions, less, less]
        exact v.less_decides v'
    · exact decides_of_ne hs
  | argument ps an =>
    by_cases hs : (Expression.argument ps an).getTypeID = ri.getTypeID
    · cases sameClass_of_typeID hs with
      | argument _ ps' _ an' =>
        rw [directions, less, less]
        exact argument_decides ps ps'
    · exact decides_of_ne hs
  | projection e a _ =>
    by_cases hs : (Expression.projection e a).getTypeID = ri.getTypeID
    · cases sameClass_of_typeID hs with
      | projection _ e' _ a' =>
        rw [directions, less, less, lessProjection_eq, lessProjection_eq]
        exact decides_key _ _
    · exact decides_of_ne hs
  | ifThenElse c ir er hci hii hei =>
    by_cases hs : (Expression.ifThenElse c ir er).getTypeID = ri.getTypeID
    · cases sameClass_of_typeID hs with
      | ifThenElse _ _ _ c' ir' er' =>
        rw [directions, less, less]
        exact (hci c').lex (hii ir') (hei er')
    · exact decides_of_ne hs
  | binary op lhs rhs hli hri =>
    by_cases hs : (Expression.binary op lhs rhs).getTypeID = ri.getTypeID
    · cases sameClass_of_typeID hs with
      | binary _ op' _ _ lhs' rhs' =>
        rw [directions, less, less]
        by_cases hso : op = op'
        · subst hso
          have ho := lessBinary_decides (hli lhs') (hri rhs')
          simp only [ne_eq, not_true_eq_false, if_false]
          by_cases he : op = .max ∨ op = .min
          · rw [if_pos he, if_pos he]
            refine (ho.lex (hli lhs') (hri rhs')).congr ?_ ?_ ?_
            · simp only [Clash, ne_eq, not_true_eq_false, false_or]
              tauto
            · simp [Alike, he]
            · simp [Crossed, he]
          · rw [if_neg he, if_neg he]
            exact ho.congr (by simp [Clash]) (by simp [Alike, he]) (by simp [Crossed, he])
        · rw [if_pos hso, if_pos (Ne.symm hso)]
          exact (decides_error _ _ _ _).congr (by simp [Clash, hso]) Iff.rfl Iff.rfl
    · exact decides_of_ne hs
  | unary n e ih =>
    by_cases hs : (Expression.unary n e).getTypeID = ri.getTypeID
    · cases sameClass_of_typeID hs with
      | unary hsn _ e' =>
        rw [directions, less, less, if_pos hsn, if_pos hsn.symm]
        exact (ih e').congr (by simp [Clash, hsn]) (by simp [Alike, hsn]) (by simp [Crossed, hsn])
    · exact decides_of_ne hs

/-! ### Three trees -/

/-- No constant of the tree is a NaN. -/
def NaNFree : Expression → Prop
  | .constant (.float value) => value.isNaN = false
  | .constant _ => True
  | .argument _ _ => True
  | .projection expr _ => NaNFree expr
  | .ifThenElse cond ifResult elseResult => NaNFree cond ∧ NaNFree ifResult ∧ NaNFree elseResult
  | .binary _ lhs rhs => NaNFree lhs ∧ NaNFree rhs
  | .unary _ expr => NaNFree expr

def Straight (left right : Expression) : Prop :=
  ¬ Clash left right ∧ ¬ Crossed left right

theorem outcome_eq_iff {lf ri : Expression} (hs : Straight lf ri) :
    (directions lf ri).outcome = .eq ↔ Alike lf ri :=
  (less_decides lf ri).outcome_eq hs.1 hs.2

theorem outcome_then (lf ri : Expression) : (directions lf ri).outcome =
      (cmp lf.getTypeID.ctorIdx ri.getTypeID.ctorIdx).then (directions lf ri).outcome := by
  by_cases hs : lf.getTypeID = ri.getTypeID
  · rw [hs, cmp_self_eq_eq, Ordering.eq_then]
  · rw [directions, less_of_ne hs, less_of_ne (Ne.symm hs), outcome_key]
    cases ho : cmp lf.getTypeID.ctorIdx ri.getTypeID.ctorIdx with
    | lt | gt => rfl
    | eq => exact absurd (ctorIdx_injective ((cmp_eq_eq_iff _ _).mp ho)) hs

theorem argument_outcome {lf ri : List RecordAttribute} {an an' : Int}
    (hs : Straight (.argument lf an) (.argument ri an')) :
    (directions (.argument lf an) (.argument ri an')).outcome =
      (cmp (typeText lf) (typeText ri)).then (cmp (namesKey lf) (namesKey ri)) := by
  rw [directions, less, less]
  rcases lt_trichotomy (typeText lf) (typeText ri) with ht | ht | ht
  · rw [(lessArgument_iff lf ri).mpr (Or.inl ht), (cmp_eq_lt_iff _ _).mpr ht]
    rfl
  · have hf : lessArgument lf ri = decide (namesKey lf < namesKey ri) := by
      rw [Bool.eq_iff_iff, lessArgument_iff, decide_eq_true_iff, ht]
      simp only [lt_irrefl, false_or]
    have hb : lessArgument ri lf = decide (namesKey ri < namesKey lf) := by
      rw [Bool.eq_iff_iff, lessArgument_iff, decide_eq_true_iff, ht]
      simp only [lt_irrefl, false_or]
    rw [hf, hb, outcome_key, ht, cmp_self_eq_eq, Ordering.eq_then]
  · have hn : ¬ namesKey lf < namesKey ri := fun less => hs.2 (Or.inr ⟨ht, less⟩)
    have hf : lessArgument lf ri = false := by
      rw [← Bool.not_eq_true, lessArgument_iff, not_or]
      exact ⟨ht.asymm, hn⟩
    rw [hf, (lessArgument_iff ri lf).mpr (Or.inl ht), (cmp_eq_gt_iff _ _).mpr ht]
    rfl

theorem constant_less_eq {lf ri : Constant} (hn : NaNFree (.constant lf) ∧ NaNFree (.constant ri))
    (hs : lf.getConstantType = ri.getConstantType) :
    lf.less ri = .ok (decide (lf.key < ri.key)) := by
  cases lf <;> cases ri <;> simp only [Constant.getConstantType, reduceCtorEq] at hs <;>
    simp_all [Constant.less, Constant.key, NaNFree, Double.less]
  case bool.bool lf ri => cases lf <;> cases ri <;> decide

theorem constant_outcome {lf ri : Constant} (hn : NaNFree (.constant lf) ∧ NaNFree (.constant ri))
    (hst : Straight (.constant lf) (.constant ri)) :
    (directions (.constant lf) (.constant ri)).outcome = cmp lf.key ri.key := by
  have hs : lf.getConstantType = ri.getConstantType := not_not.mp hst.1
  rw [directions, less, less, constant_less_eq hn hs, constant_less_eq hn.symm hs.symm, outcome_key]

theorem consistent_of_sameClass {x y z : Expression} (hw : SameClass x y → SameClass y z →
      Consistent (directions x y).outcome (directions y z).outcome (directions x z).outcome) :
    Consistent (directions x y).outcome (directions y z).outcome (directions x z).outcome := by
  rw [outcome_then x y, outcome_then y z, outcome_then x z]
  refine (consistent_cmp _ _ _).lex fun hf hs _ => ?_
  exact hw (sameClass_of_typeID (ctorIdx_injective ((cmp_eq_eq_iff _ _).mp hf)))
    (sameClass_of_typeID (ctorIdx_injective ((cmp_eq_eq_iff _ _).mp hs)))

section

variable {co ifR els c ir er lhs rhs l r : Expression}
  {op : BinaryOperator} (straight : Straight (.ifThenElse co ifR els) (.ifThenElse c ir er))

include straight

theorem ifThenElse_outcome : (directions (.ifThenElse co ifR els) (.ifThenElse c ir er)).outcome =
      (directions co c).outcome.then
        ((directions ifR ir).outcome.then (directions els er).outcome) := by
  rw [directions, less, less]
  exact outcome_lex (less_decides co c) (less_decides ifR ir) (less_decides els er) straight.1

theorem Straight.components : Straight co c ∧ ((directions co c).outcome = .eq → Straight ifR ir ∧
      ((directions ifR ir).outcome = .eq → Straight els er)) := by
  obtain ⟨hc, straight⟩ := straight
  simp only [Clash, not_or] at hc
  simp only [Crossed, not_or, not_and] at straight
  have hf : Straight co c := ⟨hc.1, straight.1⟩
  refine ⟨hf, fun tie => ?_⟩
  obtain ⟨his, hes⟩ := straight.2 ((outcome_eq_iff hf).mp tie)
  have hs : Straight ifR ir := ⟨hc.2.1, his⟩
  exact ⟨hs, fun tie => ⟨hc.2.2, hes ((outcome_eq_iff hs).mp tie)⟩⟩

omit straight

theorem extremum_outcome (he : op = .max ∨ op = .min)
    (straight : Straight (.binary op lhs rhs) (.binary op l r)) :
    (directions (.binary op lhs rhs) (.binary op l r)).outcome =
      (directions lhs l).outcome.then (directions rhs r).outcome := by
  have ho := lessBinary_decides (less_decides lhs l) (less_decides rhs r)
  have hc := straight.1
  simp only [Clash, ne_eq, not_true_eq_false, false_or] at hc
  rw [directions, less, less]
  simp only [ne_eq, not_true_eq_false, if_false, if_pos he]
  refine (outcome_lex ho (less_decides lhs l) (less_decides rhs r) ?_).trans ?_
  · tauto
  · rw [(ho.outcome_eq hc id).mpr trivial, Ordering.eq_then]

theorem Straight.operands (he : op = .max ∨ op = .min)
    (straight : Straight (.binary op lhs rhs) (.binary op l r)) :
    Straight lhs l ∧ ((directions lhs l).outcome = .eq → Straight rhs r) := by
  obtain ⟨hc, straight⟩ := straight
  simp only [Clash, not_or] at hc
  simp only [Crossed, true_and, he, not_or, not_and] at straight
  have hf : Straight lhs l := ⟨hc.2.1, straight.1⟩
  exact ⟨hf, fun tie => ⟨hc.2.2, straight.2 ((outcome_eq_iff hf).mp tie)⟩⟩

theorem Straight.operand {n n' : Unary} {e e' : Expression}
    (hs : n.getTypeID = n'.getTypeID) (straight : Straight (.unary n e) (.unary n' e')) :
    Straight e e' :=
  ⟨fun hc => straight.1 ⟨hs, hc⟩, fun hcr => straight.2 ⟨hs, hcr⟩⟩

theorem binary_outcome (hp : ¬ (op = .max ∨ op = .min))
    (straight : Straight (.binary op lhs rhs) (.binary op l r)) :
    (directions (.binary op lhs rhs) (.binary op l r)).outcome = .eq :=
  (outcome_eq_iff straight).mpr ⟨rfl, fun he => absurd he hp⟩

end

/-- **Three trees that compare without throwing or crossing** are in one weak order. The induction
is on the first tree; a component is compared where the ones before it tie, and there it is
straight. -/
theorem less_consistent (x y z : Expression) (hn : NaNFree x ∧ NaNFree y ∧ NaNFree z)
    (xy : Straight x y) (yz : Straight y z) (xz : Straight x z) :
    Consistent (directions x y).outcome (directions y z).outcome (directions x z).outcome := by
  induction x generalizing y z with
  | constant v =>
    refine consistent_of_sameClass fun hf hse => ?_
    cases hf with
    | constant _ v' =>
      cases hse with
      | constant _ v'' =>
        rw [constant_outcome ⟨hn.1, hn.2.1⟩ xy, constant_outcome hn.2 yz,
          constant_outcome ⟨hn.1, hn.2.2⟩ xz]
        exact consistent_cmp _ _ _
  | argument ps an =>
    refine consistent_of_sameClass fun hf hse => ?_
    cases hf with
    | argument _ ps' _ an' =>
      cases hse with
      | argument _ ps'' _ an'' =>
        rw [argument_outcome xy, argument_outcome yz, argument_outcome xz]
        exact (consistent_cmp _ _ _).lex fun _ _ _ => consistent_cmp _ _ _
  | projection e a _ =>
    refine consistent_of_sameClass fun hf hse => ?_
    cases hf with
    | projection _ e' _ a' =>
      cases hse with
      | projection _ e'' _ a'' =>
        simp only [directions, less, lessProjection_eq, outcome_key]
        exact consistent_cmp _ _ _
  | ifThenElse c ir er hci hii hei =>
    refine consistent_of_sameClass fun hf hse => ?_
    cases hf with
    | ifThenElse _ _ _ c' ir' er' =>
      cases hse with
      | ifThenElse _ _ _ c'' ir'' er'' =>
        rw [ifThenElse_outcome xy, ifThenElse_outcome yz, ifThenElse_outcome xz]
        obtain ⟨hxc, hxy⟩ := xy.components
        obtain ⟨hyc, hy⟩ := yz.components
        obtain ⟨hxz, hxl⟩ := xz.components
        refine (hci c' c'' ⟨hn.1.1, hn.2.1.1, hn.2.2.1⟩ hxc hyc hxz).lex fun hxt hyt hx => ?_
        obtain ⟨hxi, hxe⟩ := hxy hxt
        obtain ⟨hyi, hye⟩ := hy hyt
        obtain ⟨hxf, hhe⟩ := hxl hx
        refine (hii ir' ir'' ⟨hn.1.2.1, hn.2.1.2.1, hn.2.2.2.1⟩ hxi hyi hxf).lex
          fun hxt hyt hx => ?_
        exact hei er' er'' ⟨hn.1.2.2, hn.2.1.2.2, hn.2.2.2.2⟩ (hxe hxt) (hye hyt) (hhe hx)
  | binary op lhs rhs hli hri =>
    refine consistent_of_sameClass fun hf hse => ?_
    cases hf with
    | binary _ op' _ _ lhs' rhs' =>
      cases hse with
      | binary _ op'' _ _ lhs'' rhs'' =>
        obtain rfl : op = op' := not_not.mp fun ha => xy.1 (Or.inl ha)
        obtain rfl : op = op'' := not_not.mp fun ha => yz.1 (Or.inl ha)
        by_cases he : op = .max ∨ op = .min
        · rw [extremum_outcome he xy, extremum_outcome he yz, extremum_outcome he xz]
          obtain ⟨hxs, hxr⟩ := xy.operands he
          obtain ⟨hyl, hyr⟩ := yz.operands he
          obtain ⟨hhl, hhr⟩ := xz.operands he
          refine (hli lhs' lhs'' ⟨hn.1.1, hn.2.1.1, hn.2.2.1⟩ hxs hyl hhl).lex fun hxt hyt hx => ?_
          exact hri rhs' rhs'' ⟨hn.1.2, hn.2.1.2, hn.2.2.2⟩ (hxr hxt) (hyr hyt) (hhr hx)
        · rw [binary_outcome he xy, binary_outcome he yz, binary_outcome he xz]
          simp [Consistent]
  | unary n e ih =>
    refine consistent_of_sameClass fun hf hse => ?_
    cases hf with
    | unary hs _ e' =>
      cases hse with
      | unary hs' _ e'' =>
        simp only [directions, less, hs, hs', if_true]
        exact ih e' e'' hn (xy.operand hs) (yz.operand hs') (xz.operand (hs.trans hs'))

end Expression

end Proteus.Olap
