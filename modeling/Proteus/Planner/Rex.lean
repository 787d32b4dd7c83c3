/-
**Row expressions** (Calcite's `RexNode`, as far as the planner's rules read them).

Expressions over the fields of a row, with SQL's three truth values: a comparison with a null is
null, `AND` is false as soon as one operand is, and a filter or a join keeps a row only where its
condition is `TRUE` (`Rex.Holds`).

* `Rex.induct` — induction with a hypothesis for every operand.
* `eval_rename` — renaming field references and evaluating on a row that has the fields at their new
  places; `shift` and the swap of a join's inputs are such renamings.
* `holds_composeConjunction` — a composed conjunction holds when every expression does.
-/

import Mathlib

namespace Proteus.Planner

open List

inductive Value where
  | null
  | bool (value : Bool)
  | int (value : Int)
deriving DecidableEq, Repr

abbrev Row := List Value

inductive SqlKind where
  | and
  | or
  | not
  | equals
  | notEquals
  | lessThan
  | lessThanOrEqual
  | greaterThan
  | greaterThanOrEqual
  | isNull
  | plus
deriving DecidableEq, Repr

inductive Rex where
  | inputRef (index : Nat)
  | literal (value : Value)
  | call (kind : SqlKind) (operands : List Rex)

/-! ### Three-valued evaluation -/

def compareValues (test : Ordering → Bool) : List Value → Value
  | [.int first, .int second] => .bool (test (compare first second))
  | [.bool first, .bool second] => .bool (test (compare first second))
  | _ => .null

def SqlKind.apply : SqlKind → List Value → Value
  | .and, values =>
    if .bool false ∈ values then .bool false
    else if ∀ value ∈ values, value = .bool true then .bool true
    else .null
  | .or, values =>
    if .bool true ∈ values then .bool true
    else if ∀ value ∈ values, value = .bool false then .bool false
    else .null
  | .not, [.bool value] => .bool (!value)
  | .not, _ => .null
  | .equals, values => compareValues Ordering.isEq values
  | .notEquals, values => compareValues Ordering.isNe values
  | .lessThan, values => compareValues Ordering.isLT values
  | .lessThanOrEqual, values => compareValues Ordering.isLE values
  | .greaterThan, values => compareValues Ordering.isGT values
  | .greaterThanOrEqual, values => compareValues Ordering.isGE values
  | .isNull, [value] => .bool (value = .null)
  | .isNull, _ => .null
  | .plus, [.int first, .int second] => .int (first + second)
  | .plus, _ => .null

variable (vs : List Value)

open SqlKind

/-! The values of the logical operators. -/

theorem and_apply_true : and.apply vs = .bool true ↔ ∀ v ∈ vs, v = .bool true := by
  rw [apply]
  split_ifs with hw hr
  · simp only [Value.bool.injEq, Bool.false_eq_true, false_iff]
    exact fun all => by cases all _ hw
  · simpa using hr
  · simpa using hr

theorem and_apply_false : and.apply vs = .bool false ↔ .bool false ∈ vs := by
  rw [apply]
  split_ifs with hw hr
  · simpa using hw
  · simpa using hw
  · simpa using hw

theorem or_apply_true : or.apply vs = .bool true ↔ .bool true ∈ vs := by
  rw [apply]
  split_ifs with hr hw
  · simpa using hr
  · simpa using hr
  · simpa using hr

theorem or_apply_false : or.apply vs = .bool false ↔ ∀ v ∈ vs, v = .bool false := by
  rw [apply]
  split_ifs with hr hw
  · simp only [Value.bool.injEq, Bool.true_eq_false, false_iff]
    exact fun all => by cases all _ hr
  · simpa using hw
  · simpa using hw

theorem not_apply (b : Bool) (v : Value) : not.apply [v] = .bool b ↔ v = .bool !b := by
  cases v with
  | null | int v => simp [apply]
  | bool v => cases v <;> cases b <;> simp [apply]

theorem equals_apply (b : Bool) (v : Value) (o : Int) : equals.apply [v, .int o] = .bool b ↔
    ∃ c, v = .int c ∧ decide (o = c) = b := by
  cases v with
  | null | bool v => simp [apply, compareValues]
  | int c =>
    have he : (compare c o).isEq = decide (o = c) := by
      rw [Bool.eq_iff_iff, Ordering.isEq_iff_eq_eq, compare_eq_iff_eq, decide_eq_true_iff, eq_comm]
    simp [apply, compareValues, he]

namespace Rex

mutual

def eval (row : Row) : Rex → Value
  | .inputRef index => row.getD index .null
  | .literal value => value
  | .call kind operands => kind.apply (evalAll row operands)

def evalAll (row : Row) : List Rex → List Value
  | [] => []
  | operand :: operands => eval row operand :: evalAll row operands

end

/-- The condition is `TRUE`: neither false nor null. -/
def Holds (condition : Rex) (row : Row) : Prop :=
  condition.eval row = .bool true

instance (condition : Rex) (row : Row) : Decidable (condition.Holds row) := by
  unfold Holds; infer_instance

def isA (kind : SqlKind) : Rex → Bool
  | .call other _ => other = kind
  | _ => false

/-- `RexCall.getOperands`. -/
def operands : Rex → List Rex
  | .call _ operands => operands
  | _ => []

mutual

/-- The fields an expression reads (`RelOptUtil.InputFinder`). -/
def refs : Rex → List Nat
  | .inputRef index => [index]
  | .literal _ => []
  | .call _ operands => refsAll operands

def refsAll : List Rex → List Nat
  | [] => []
  | operand :: operands => refs operand ++ refsAll operands

end

mutual

def rename (places : Nat → Nat) : Rex → Rex
  | .inputRef index => .inputRef (places index)
  | .literal value => .literal value
  | .call kind operands => .call kind (renameAll places operands)

def renameAll (places : Nat → Nat) : List Rex → List Rex
  | [] => []
  | operand :: operands => rename places operand :: renameAll places operands

end

/-- `RexUtil.shift` by `-offset`. -/
def shiftDown (offset : Nat) : Rex → Rex :=
  rename fun index => index - offset

mutual

/-- `RelOptUtil.conjunctions`. -/
def conjunctions : Rex → List Rex
  | .call .and operands => conjunctionsAll operands
  | .literal (.bool true) => []
  | other => [other]

def conjunctionsAll : List Rex → List Rex
  | [] => []
  | operand :: operands => conjunctions operand ++ conjunctionsAll operands

end

def composeConjunction : List Rex → Rex
  | [] => .literal (.bool true)
  | [condition] => condition
  | conditions => .call .and conditions

/-! ### Laws -/

theorem induct {P : Rex → Prop} (inputRef : ∀ index, P (.inputRef index)) (literal : ∀ value,
    P (.literal value))
    (call : ∀ kind operands, (∀ operand ∈ operands, P operand) → P (.call kind operands))
    (expression : Rex) : P expression := by
  refine @Rex.rec P (fun operands => ∀ operand ∈ operands, P operand) inputRef literal call ?_ ?_
    expression
  · intro operand member
    cases member
  · intro head rest holds all operand member
    rcases mem_cons.mp member with rfl | inside
    · exact holds
    · exact all operand inside

theorem evalAll_eq_map (r : Row) (ops : List Rex) : evalAll r ops = ops.map (eval r) := by
  induction ops with
  | nil => rfl
  | cons op ops ih => rw [evalAll, ih, map_cons]

theorem refsAll_eq_flatMap (ops : List Rex) : refsAll ops = ops.flatMap refs := by
  induction ops with
  | nil => rfl
  | cons op ops ih => rw [refsAll, ih, flatMap_cons]

theorem renameAll_eq_map (ps : Nat → Nat) (ops : List Rex) :
    renameAll ps ops = ops.map (rename ps) := by
  induction ops with
  | nil => rfl
  | cons op ops ih => rw [renameAll, ih, map_cons]

/-- **Evaluation follows a renaming of the fields.** -/
theorem eval_rename {r m : Row} {ps : Nat → Nat} {e : Rex}
    (hs : ∀ i ∈ e.refs, m.getD (ps i) .null = r.getD i .null) :
    (e.rename ps).eval m = e.eval r := by
  induction e using induct with
  | inputRef i => exact hs i mem_cons_self
  | literal v => rfl
  | call k ops ih =>
    rw [rename, eval, eval, evalAll_eq_map, evalAll_eq_map, renameAll_eq_map, map_map]
    refine congrArg k.apply (map_congr_left fun op hi => ?_)
    refine ih op hi fun i hr => hs i ?_
    rw [refs, refsAll_eq_flatMap]
    exact mem_flatMap.mpr ⟨op, hi, hr⟩

theorem rename_id (e : Rex) : e.rename id = e := by
  induction e using induct with
  | inputRef i | literal v => rfl
  | call k ops ih =>
    rw [rename, renameAll_eq_map, map_congr_left ih, map_id']

theorem eval_congr {r o : Row} {e : Rex} (hs : ∀ i ∈ e.refs, o.getD i .null = r.getD i .null) :
    e.eval o = e.eval r := by
  have hm : (e.rename id).eval o = e.eval r := eval_rename hs
  rwa [rename_id] at hm

theorem and_holds {ops : List Rex} {r : Row} :
    (Rex.call .and ops).Holds r ↔ ∀ op ∈ ops, op.Holds r := by
  unfold Holds
  rw [eval, evalAll_eq_map, and_apply_true, forall_mem_map]

theorem composeConjunction_holds {cs : List Rex} {r : Row} :
    (composeConjunction cs).Holds r ↔ ∀ c ∈ cs, c.Holds r := by
  match cs with
  | [] => exact ⟨fun _ _ hi => (by cases hi), fun _ => rfl⟩
  | [c] => simp [composeConjunction]
  | f :: s :: tl => exact and_holds

theorem composeConjunction_refs {cs : List Rex} {i : Nat} (hr : i ∈ (composeConjunction cs).refs) :
    ∃ c ∈ cs, i ∈ c.refs := by
  match cs with
  | [] => cases hr
  | [c] => exact ⟨c, mem_cons_self, hr⟩
  | f :: s :: tl =>
    rw [composeConjunction, refs, refsAll_eq_flatMap] at hr
    · exact mem_flatMap.mp hr
    all_goals simp

end Rex

end Proteus.Planner
