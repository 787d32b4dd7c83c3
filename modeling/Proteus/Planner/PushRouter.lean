/-
**Pushing routers below a join** (`PelagoPushRouterBelowJoin.scala`, `PelagoJoin.create`).

The rule takes a join that runs in one instance and runs it in many: the build (left) input is
broadcast to all instances, the probe (right) input is spread over them. It copies the type of the
join and does not look at it, and `create` refuses a pair of distributions only.

Each instance knows its own part of the probe input. That is enough for the pairs and for the
unmatched probe rows; an instance cannot know whether a build row has a match elsewhere.

* `pushed_eq` — what the rule makes of a join: the same join, over a broadcast and a spread input.
* `push_preserves_iff` — the instances together return what the join returned exactly when
  `Distributes` holds; for inner and right joins always.
* `left_join_repeats_row` — two instances, one of them without a match.
-/

import Proteus.Library.Joins
import Proteus.Planner.JoinSeq

namespace Proteus.Planner

open Library List

/-! ### Joins of every type -/

/-- Calcite's `JoinRelType`. -/
inductive JoinRelType where
  | inner
  | left
  | right
  | full
  | semi
  | anti
deriving DecidableEq, Repr

/-- How the rows of an input are spread over the instances of an operator. -/
inductive RelHomDistribution where
  | single
  | random
  | brdcst
deriving DecidableEq, Repr

/-- A join with the distributions of its inputs, and of its own instances. -/
structure PelagoJoin extends Join where
  joinType : JoinRelType
  leftDistribution : RelHomDistribution
  rightDistribution : RelHomDistribution
  distribution : RelHomDistribution

namespace PelagoJoin

/-- The rows of the two inputs match. -/
def on (join : PelagoJoin) (left right : Row) : Bool := join.condition.Holds (left ++ right)

def withNullsOnRight (join : PelagoJoin) (left right : List Row) : List Row :=
  (left.filter fun row => !matched join.on right row).map
    (· ++ List.replicate join.toJoin.right.length Value.null)

def withNullsOnLeft (join : PelagoJoin) (left right : List Row) : List Row :=
  (unmatched join.on left right).map (List.replicate join.toJoin.left.length Value.null ++ ·)

/-- The rows a join of any type returns. -/
def returns (join : PelagoJoin) (left right : List Row) : List Row :=
  match join.joinType with
  | .inner => join.rows left right
  | .left => join.rows left right ++ join.withNullsOnRight left right
  | .right => join.rows left right ++ join.withNullsOnLeft left right
  | .full => join.rows left right ++ join.withNullsOnRight left right ++ join.withNullsOnLeft left
      right
  | .semi => left.filter (matched join.on right)
  | .anti => left.filter fun row => !matched join.on right row

/-! ### The rule -/

def homDistribution : RelHomDistribution → RelHomDistribution → Option RelHomDistribution
  | .brdcst, .brdcst => some .brdcst
  | .random, .brdcst => some .random
  | .brdcst, .random => some .random
  | .single, .single => some .single
  | _, _ => none

def create (join : Join) (joinType : JoinRelType) (left right : RelHomDistribution) :
    Option PelagoJoin :=
  (homDistribution left right).map fun distribution => ⟨join, joinType, left, right, distribution⟩

/-- The rule looks at joins that run in one instance (`matches`), and copies them over routed inputs
(`onMatch`). -/
def pushRouterBelow (join : PelagoJoin) : Option PelagoJoin :=
  if join.distribution = .single then create join.toJoin join.joinType .brdcst .random else none

/-! ### Instances -/

end PelagoJoin

/-- The parts of an input that the instances are given. -/
def RelHomDistribution.Places (distribution : RelHomDistribution) (instances : Nat)
    (rows : List Row)
    (parts : List (List Row)) : Prop :=
  parts.length = instances ∧ match distribution with
    | .single => parts = [rows]
    | .random => parts.flatten.Perm rows
    | .brdcst => ∀ part ∈ parts, part = rows

namespace PelagoJoin

/-- What the instances of a join return together. -/
def returnsOver (join : PelagoJoin) (lefts rights : List (List Row)) : List Row :=
  (List.zipWith join.returns lefts rights).flatten

def Distributes (join : PelagoJoin) (left : List Row) (parts : List (List Row)) : Prop :=
  match join.joinType with
  | .inner | .right => True
  | .left | .full | .anti =>
    ∀ row ∈ left, parts.length = 1 ∨ parts ≠ [] ∧ ∀ part ∈ parts, matched join.on part row = true
  | .semi => ∀ row ∈ left, (parts.countP fun part => matched join.on part row) ≤ 1

/-! ### What adds up -/

section

variable {j : PelagoJoin} {l ri : List Row} {ps : List (List Row)}

theorem rows_eq_innerJoin (j : PelagoJoin) (l ri : List Row) :
    j.rows l ri = innerJoin j.on (· ++ ·) l ri := by
  unfold Join.rows product innerJoin
  rw [filter_flatMap]
  congr 1
  funext r
  rw [filter_map]
  rfl

theorem rows_parts (hp : ps.flatten.Perm ri) : (ps.flatMap (j.rows l)).Perm (j.rows l ri) := by
  rw [rows_eq_innerJoin, show j.rows l = innerJoin j.on (· ++ ·) l from
    funext fun p => rows_eq_innerJoin j l p]
  exact (innerJoin_parts j.on _ l ps).trans (innerJoin_perm j.on _ l hp)

theorem withNullsOnLeft_parts (hp : ps.flatten.Perm ri) :
    (ps.flatMap (j.withNullsOnLeft l)).Perm (j.withNullsOnLeft l ri) := by
  have ho : ps.flatMap (j.withNullsOnLeft l) =
      (ps.flatMap (unmatched j.on l)).map (List.replicate j.toJoin.left.length Value.null ++ ·) :=
    map_flatMap.symm
  rw [ho, unmatched_parts]
  exact (hp.filter _).map _

theorem missed_parts_iff (j : PelagoJoin) (l : List Row) (hp : ps.flatten.Perm ri) (c : Row → Row) :
    (ps.flatMap fun p => (l.filter fun r => !matched j.on p r).map c).Perm
        ((l.filter fun r => !matched j.on ri r).map c) ↔
      ∀ r ∈ l, ps.length = 1 ∨ ps ≠ [] ∧ ∀ p ∈ ps, matched j.on p r = true := by
  rw [← matched_perm j.on hp, selected_parts_iff _ _ _ (missed_way ps l)]
  exact forall₂_congr fun r _ => missed_once_iff

theorem found_parts_iff (hp : ps.flatten.Perm ri) :
    (ps.flatMap fun p => l.filter (matched j.on p)).Perm (l.filter (matched j.on ri)) ↔
      ∀ r ∈ l, (ps.countP fun p => matched j.on p r) ≤ 1 := by
  have he : ∀ r ∈ l, (matched j.on ps.flatten r).toNat ≤
      ps.countP fun p => matched j.on p r := fun r _ => toNat_matched_le
  have hs := selected_parts_iff (matched j.on) (matched j.on ps.flatten) id (.inl he)
  simp only [map_id] at hs
  rw [← matched_perm j.on hp, hs]
  exact forall₂_congr fun r _ => found_once_iff

theorem append_parts_iff {f s : List Row → List Row} {w tl : List Row}
    (had : (ps.flatMap f).Perm w) :
    (ps.flatMap fun p => f p ++ s p).Perm (w ++ tl) ↔ (ps.flatMap s).Perm tl := by
  have ha := (flatMap_append_perm ps f s).symm
  have hf := had.append_right (ps.flatMap s)
  constructor
  · intro hs
    exact (perm_append_left_iff w).mp (hf.symm.trans (ha.symm.trans hs))
  · intro hs
    exact ha.trans (hf.trans (hs.append_left w))

theorem parts_append_iff {f s : List Row → List Row} {w tl : List Row}
    (had : (ps.flatMap s).Perm tl) :
    (ps.flatMap fun p => f p ++ s p).Perm (w ++ tl) ↔ (ps.flatMap f).Perm w := by
  have ha := (flatMap_append_perm ps f s).symm
  have hb := had.append_left (ps.flatMap f)
  constructor
  · intro hs
    exact (perm_append_right_iff tl).mp (hb.symm.trans (ha.symm.trans hs))
  · intro hs
    exact ha.trans (hb.trans (hs.append_right tl))

/-- **A join over the parts of its probe input.** -/
theorem parts_preserve_iff (j : PelagoJoin) (l : List Row) (hp : ps.flatten.Perm ri) :
    (ps.flatMap (j.returns l)).Perm (j.returns l ri) ↔ j.Distributes l ps := by
  have hi : (ps.flatMap (j.rows l)).Perm (j.rows l ri) := rows_parts hp
  have ho : (ps.flatMap (j.withNullsOnLeft l)).Perm (j.withNullsOnLeft l ri) :=
    withNullsOnLeft_parts hp
  show (ps.flatMap fun p => j.returns l p).Perm _ ↔ _
  unfold returns Distributes
  cases j.joinType with
  | inner => exact iff_of_true hi trivial
  | left => exact (append_parts_iff hi).trans (missed_parts_iff j l hp _)
  | right => exact iff_of_true ((append_parts_iff hi).mpr ho) trivial
  | full =>
    rw [parts_append_iff ho, append_parts_iff hi]
    exact missed_parts_iff j l hp _
  | semi => exact found_parts_iff hp
  | anti =>
    have hm := missed_parts_iff j l hp id
    simp only [map_id] at hm
    exact hm

end

/-! ### The rule preserves -/

/-- **What the rule makes of a join**: the same join, its build input broadcast and its probe input
spread. -/
theorem pushed_eq {j p : PelagoJoin} (hf : j.pushRouterBelow = some p) :
    p = ⟨j.toJoin, j.joinType, .brdcst, .random, .random⟩ := by
  unfold pushRouterBelow at hf
  split at hf
  · exact (Option.some_inj.mp hf).symm
  · cases hf

theorem returnsOver_brdcst {j : PelagoJoin} {l : List Row} {ls rs : List (List Row)}
    (hl : ls.length = rs.length) (all : ∀ p ∈ ls, p = l) :
    j.returnsOver ls rs = rs.flatMap (j.returns l) := by
  unfold returnsOver
  rw [eq_replicate_of_mem all, hl, flatMap_def]
  congr 1
  clear hl all
  induction rs with
  | nil => rfl
  | cons r rs ih =>
    rw [length_cons, replicate_succ, zipWith_cons_cons, map_cons, ih]

/-- **Routers below a join.** For every join the rule fires on, every pair of inputs, number of
instances and way to spread the probe input over them, what the instances return together is what
the join returned, as bags, exactly when the join distributes over the parts; inner and right joins
always do. -/
theorem push_preserves_iff {join pushed : PelagoJoin} (fires : join.pushRouterBelow = some pushed)
    {left right : List Row} {instances : Nat} {lefts rights : List (List Row)}
    (build : pushed.leftDistribution.Places instances left lefts)
    (probe : pushed.rightDistribution.Places instances right rights) :
    (pushed.returnsOver lefts rights).Perm (join.returns left right) ↔
        join.Distributes left rights := by
  obtain rfl := pushed_eq fires
  rw [returnsOver_brdcst (build.1.trans probe.1.symm) build.2]
  exact parts_preserve_iff join left probe.2

/-- `$0 = $1` on inputs of one column. -/
def equalColumns (joinType : JoinRelType) : PelagoJoin where
  left := [⟨.int, false⟩]
  right := [⟨.int, false⟩]
  condition := .call .equals [.inputRef 0, .inputRef 1]
  inRange := by decide
  joinType := joinType
  leftDistribution := .single
  rightDistribution := .single
  distribution := .single

/-- An inner join over two instances. -/
theorem push_preserves_inner : ∃ pushed, (equalColumns .inner).pushRouterBelow = some pushed ∧
    (pushed.returnsOver [[[.int 1], [.int 2]], [[.int 1], [.int 2]]]
    [[[.int 2]], [[.int 1], [.int 2]]]).Perm
      ((equalColumns .inner).returns [[.int 1], [.int 2]] [[.int 1], [.int 2], [.int 2]]) := by
  have hb : RelHomDistribution.brdcst.Places 2 [[.int 1], [.int 2]]
      [[[.int 1], [.int 2]], [[.int 1], [.int 2]]] := by
    refine ⟨rfl, fun p hm => ?_⟩
    rcases mem_cons.mp hm with hs | hr
    · exact hs
    · exact mem_singleton.mp hr
  have hp : RelHomDistribution.random.Places 2 [[.int 1], [.int 2], [.int 2]]
      [[[.int 2]], [[.int 1], [.int 2]]] :=
        ⟨rfl, List.Perm.swap [Value.int 1] [Value.int 2] [[Value.int 2]]⟩
  have hf : (equalColumns .inner).pushRouterBelow =
      some ⟨(equalColumns .inner).toJoin, .inner, .brdcst, .random, .random⟩ := rfl
  exact ⟨_, hf, (push_preserves_iff hf hb hp).mpr trivial⟩

/-- **A left join repeats a row**: the only build row has its match in the first of two instances,
and the second returns it with a null. -/
theorem left_join_repeats_row : ∃ pushed, (equalColumns .left).pushRouterBelow = some pushed ∧
    pushed.leftDistribution.Places 2 [[.int 1]] [[[.int 1]], [[.int 1]]] ∧
    pushed.rightDistribution.Places 2 [[.int 1]] [[[.int 1]], []] ∧
    pushed.returnsOver [[[.int 1]], [[.int 1]]] [[[.int 1]], []] = [[.int 1, .int 1],
      [.int 1, .null]] ∧
    ¬ (pushed.returnsOver [[[.int 1]], [[.int 1]]] [[[.int 1]], []]).Perm
      ((equalColumns .left).returns [[.int 1]] [[.int 1]]) := by
  refine ⟨_, rfl, ⟨rfl, ?build⟩, ⟨rfl, List.Perm.refl _⟩, by decide +kernel, fun hs => ?_⟩
  case build =>
    intro p hm
    rcases mem_cons.mp hm with hs | hr
    · exact hs
    · exact mem_singleton.mp hr
  · exact absurd hs.length_eq (by decide +kernel)

end PelagoJoin

end Proteus.Planner
