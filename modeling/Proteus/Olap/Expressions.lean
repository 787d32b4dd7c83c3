/-
**Expression trees and their order** (`olap/expressions/expressions.hpp`, `expressionTypes.hpp`).

`Expression::operator<` compares the class ids of the two nodes; within one id it dispatches on both
nodes (`acceptTandem`), which throws when their classes differ: two constants of different types, or
two binary expressions with different operators. Then the class compares its own nodes.

The members of the class are not the whole order. What each of them looks at, and what not, is as in
the source: `InputArgument` compares its type twice in one direction and its argument number never,
`RecordProjection` ignores the record it projects from, a binary expression takes `l1 < r1` for
equality, and the nodes with one operand (`Unary`) ignore everything but the operand.
-/

import Proteus.Library.Comparison

namespace Proteus.Olap

open Library

/-! ### Types -/

inductive Primitive where
  | bool
  | string
  | dstring (dictionary : Nat)
  | float
  | int
  | int64
  | date
deriving DecidableEq

inductive Collection where
  | block
  | list
  | bag
  | set
  | indexedSeq
deriving DecidableEq

/-- `RecordAttribute` -/
structure Attribute (T : Type) where
  relName : String
  attrName : String
  originalRelName : String
  type : T
  attrNo : Int
  projected : Bool

inductive ExpressionType where
  | primitive (type : Primitive)
  | collection (kind : Collection) (nested : ExpressionType)
  | record (args : List (Attribute ExpressionType))

abbrev RecordAttribute := Attribute ExpressionType

def Primitive.name : Primitive → String
  | .bool => "Bool"
  | .string => "String"
  | .dstring _ => "DString"
  | .float => "Float"
  | .int => "Int"
  | .int64 => "Int64"
  | .date => "Date"

def Collection.name : Collection → String
  | .block => "Block"
  | .list => "List"
  | .bag => "Bag"
  | .set => "Set"
  | .indexedSeq => "IndexedSeq"

mutual

def ExpressionType.getType : ExpressionType → String
  | .primitive type => type.name
  | .collection kind nested => kind.name ++ "(" ++ nested.getType ++ ")"
  | .record args => "Record(" ++ argsType args ++ ")"

def argsType : List (Attribute ExpressionType) → String
  | [] => ""
  | ⟨_, attrName, _, type, _, _⟩ :: rest =>
    attrName ++ " " ++ type.getType ++ (if rest.isEmpty then "" else ", ") ++ argsType rest

end

def RecordAttribute.less (left right : RecordAttribute) : Bool :=
  if left.relName = right.relName then left.attrName < right.attrName else
    left.relName < right.relName

/-! ### Constants -/

/-- The bits of a `double`. -/
abbrev Double := BitVec 64

namespace Double

def magnitude (value : Double) : Nat := value.toNat % 2 ^ 63

def isNaN (value : Double) : Bool := 0x7FF0000000000000 < value.magnitude

def key (value : Double) : Int :=
  if value.toNat < 2 ^ 63 then value.magnitude else - value.magnitude

/-- `<` of IEEE 754. -/
def less (left right : Double) : Bool :=
  !left.isNaN && !right.isNaN && left.key < right.key

end Double

inductive Constant where
  | int (val : Int)
  | int64 (val : Int)
  | bool (val : Bool)
  | float (val : Double)
  | string (val : String)
  | dstring (val : Int) (dictionary : Nat)
  | date (val : Int)
deriving DecidableEq

inductive ConstantType where
  | int
  | int64
  | bool
  | float
  | string
  | dstring
  | date
deriving DecidableEq

def Constant.getConstantType : Constant → ConstantType
  | .int _ => .int
  | .int64 _ => .int64
  | .bool _ => .bool
  | .float _ => .float
  | .string _ => .string
  | .dstring _ _ => .dstring
  | .date _ => .date

/-- `std::runtime_error` -/
structure RuntimeError where
  message : String
deriving DecidableEq, Repr

def incompatiblePair : RuntimeError := ⟨"[Tandem Visitor: ] Incompatible Pair"⟩

def Constant.less : Constant → Constant → Except RuntimeError Bool
  | .int left, .int right => .ok (left < right)
  | .int64 left, .int64 right => .ok (left < right)
  | .bool left, .bool right => .ok (left < right)
  | .float left, .float right => .ok (left.less right)
  | .string left, .string right => .ok (left < right)
  | .dstring left _, .dstring right _ => .ok (left < right)
  | .date left, .date right => .ok (left < right)
  | _, _ => .error incompatiblePair

/-! ### Expressions -/

/-- `BinaryOperator::opID`: the class of a binary expression. -/
inductive BinaryOperator where
  | eq
  | neq
  | ge
  | gt
  | le
  | lt
  | add
  | sub
  | mult
  | div
  | and
  | or
  | max
  | min
  | mod
  | shl
  | lshr
  | ashr
  | xor
deriving DecidableEq

inductive ExtractUnit where
  | millisecond
  | second
  | minute
  | hour
  | dayOfWeek
  | isoDayOfWeek
  | dayOfMonth
  | dayOfYear
  | week
  | month
  | quarter
  | year
  | isoYear
  | decade
  | century
  | millennium
deriving DecidableEq

/-- The classes with one operand. -/
inductive Unary where
  | hint (selectivity : Double)
  | hash
  | testNull (nullTest : Bool)
  | extract (unit : ExtractUnit)
  | neg
  | cast (castTo : ExpressionType)
  | ref

inductive Expression where
  | constant (value : Constant)
  | argument (projections : List RecordAttribute) (argNo : Int)
  | projection (expr : Expression) (attr : RecordAttribute)
  | ifThenElse (ifCond ifResult elseResult : Expression)
  | binary (op : BinaryOperator) (lhs rhs : Expression)
  | unary (node : Unary) (expr : Expression)

inductive ExpressionId where
  | constant
  | rawValue
  | argument
  | recordProjection
  | recordConstruction
  | ifThenElse
  | binary
  | rand
  | hint
  | hasher
  | testNull
  | extract
  | neg
  | cast
  | ref
  | assign
  | placeholder
deriving DecidableEq

def Unary.getTypeID : Unary → ExpressionId
  | .hint _ => .hint
  | .hash => .hasher
  | .testNull _ => .testNull
  | .extract _ => .extract
  | .neg => .neg
  | .cast _ => .cast
  | .ref => .ref

def Expression.getTypeID : Expression → ExpressionId
  | .constant _ => .constant
  | .argument _ _ => .argument
  | .projection _ _ => .recordProjection
  | .ifThenElse _ _ _ => .ifThenElse
  | .binary _ _ _ => .binary
  | .unary node _ => node.getTypeID

def lessProjections : List RecordAttribute → List RecordAttribute → Bool
  | left :: lefts, right :: rights =>
    if !left.less right && !right.less left then lessProjections lefts rights else left.less right
  | _, _ => false

/-- `InputArgument::operator<` -/
def lessArgument (left right : List RecordAttribute) : Bool :=
  let leftType := (ExpressionType.record left).getType
  let rightType := (ExpressionType.record right).getType
  let cmpExprType1 := leftType < rightType
  let cmpExprType2 := rightType < rightType
  if ¬ cmpExprType1 ∧ ¬ cmpExprType2 then
    if left.length ≠ right.length then left.length < right.length else lessProjections left right
  else cmpExprType1

/-- `RecordProjection::operator<` -/
def lessProjection (left right : RecordAttribute) : Bool :=
  if ¬ left.relName < right.relName ∧ ¬ right.relName < left.relName then
    if !left.less right && !right.less left then false else left.less right
  else left.relName < right.relName

def lessBinary (left right : Except RuntimeError Bool) : Except RuntimeError Bool := do
  let eq1 ← left
  let eq2 ← right
  if eq1 then
    if eq2 then .ok false else right
  else left

def lessCond (left right : Directions RuntimeError) : Except RuntimeError Bool :=
  lessLex ⟨lessBinary left.forward right.forward, lessBinary left.backward right.backward⟩ left
    right

/-- `Expression::operator<` -/
def Expression.less : Expression → Expression → Except RuntimeError Bool
  | .constant left, .constant right => left.less right
  | .argument left _, .argument right _ => .ok (lessArgument left right)
  | .projection _ left, .projection _ right => .ok (lessProjection left right)
  | .ifThenElse cond ifResult elseResult, .ifThenElse cond' ifResult' elseResult' =>
    lessLex ⟨cond.less cond', cond'.less cond⟩ ⟨ifResult.less ifResult', ifResult'.less ifResult⟩
      ⟨elseResult.less elseResult', elseResult'.less elseResult⟩
  | .binary op lhs rhs, .binary op' lhs' rhs' =>
    if op ≠ op' then .error incompatiblePair
    else if op = .max ∨ op = .min then
      lessCond ⟨lhs.less lhs', lhs'.less lhs⟩ ⟨rhs.less rhs', rhs'.less rhs⟩
    else lessBinary (lhs.less lhs') (rhs.less rhs')
  | .unary node expr, .unary node' expr' =>
    if node.getTypeID = node'.getTypeID then expr.less expr'
    else .ok (node.getTypeID.ctorIdx < node'.getTypeID.ctorIdx)
  | left, right => .ok (left.getTypeID.ctorIdx < right.getTypeID.ctorIdx)
termination_by left right => sizeOf left + sizeOf right

end Proteus.Olap
