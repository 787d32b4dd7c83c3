/-
**Splitting the condition of an inner join** (`PelagoRules.scala`, `PelagoJoinSeq`).

The rule turns a logical join into a hash join: it keeps the equalities over both inputs as the
condition of the join, moves the equalities over one input below it and the constant ones above it.
Acceptance looks at the conjunctive normal form of the condition, the conversion at its factored
form; what Calcite computes for the two is a parameter (`Calcite`), with the meaning it documents.

### What is kept

Each operand of the factored condition is put into a bucket only if it is an equality: the `else`
branches belong to the inner `if`, so an operand of any other kind is in none (`classify`).

* `mem_foldl_classify` — the four buckets hold the equalities among the operands, and nothing else.
* `eval_convert` — the converted plan, with its inputs swapped or not, returns the pairs of rows on
  which every kept operand holds.
* `convert_preserves_iff` — so it answers the query exactly when the operands that were dropped
  follow from those that were kept (`KeepsCondition`), on all rows the inputs' types admit.
-/

import Proteus.Planner.Rex

namespace Proteus.Planner

open List

/-! ### Rows and joins -/

inductive FieldSort where
  | bool
  | int
deriving DecidableEq, Repr

structure Field where
  sort : FieldSort
  nullable : Bool
deriving DecidableEq, Repr

def Field.Admits (field : Field) : Value → Prop
  | .null => field.nullable = true
  | .bool _ => field.sort = .bool
  | .int _ => field.sort = .int

abbrev RowType := List Field

/-- The rows of a type. -/
def RowType.Admits (type : RowType) (row : Row) : Prop :=
  List.Forall₂ Field.Admits type row

/-- An inner join; its condition reads fields of its two inputs. -/
structure Join where
  left : RowType
  right : RowType
  condition : Rex
  inRange : ∀ index ∈ condition.refs, index < left.length + right.length

def product (left right : List Row) : List Row :=
  left.flatMap fun first => right.map fun second => first ++ second

/-- The rows a join returns. -/
def Join.rows (join : Join) (left right : List Row) : List Row :=
  (product left right).filter fun row => join.condition.Holds row

/-! ### Plans -/

inductive Plan where
  | leftInput
  | rightInput
  | filter (condition : Rex) (input : Plan)
  | join (left right : Plan) (condition : Rex)
  | project (expressions : List Rex) (input : Plan)

def Plan.eval (left right : List Row) : Plan → List Row
  | .leftInput => left
  | .rightInput => right
  | .filter condition input => (input.eval left right).filter fun row => condition.Holds row
  | .join first second condition =>
    (product (first.eval left right) (second.eval left right)).filter fun row => condition.Holds row
  | .project expressions input =>
    (input.eval left right).map fun row => expressions.map fun expression => expression.eval row

def swapRef (thr width index : Nat) : Nat :=
  if index < thr then index + width else index - thr

def createSwappedJoinExprs (thr width : Nat) : List Rex :=
  (List.range thr).map (fun index => .inputRef (index + width)) ++
    (List.range width).map fun index => .inputRef index

def Plan.swapped (thr width : Nat) (left right : Plan) (condition : Rex) : Plan :=
  .project (createSwappedJoinExprs thr width)
    (.join right left (condition.rename (swapRef thr width)))

/-! ### The rule -/

/-- What the rule asks Calcite for. -/
structure Calcite where
  isAlwaysTrue : Rex → Bool
  isEqui : Join → Bool
  toCnf : Rex → Rex
  pullFactors : Rex → Rex
  pullFactors_eval : ∀ condition row, (pullFactors condition).eval row = condition.eval row
  pullFactors_refs : ∀ condition, ∀ index ∈ (pullFactors condition).refs, index ∈ condition.refs

/-- The four buckets of `convert`. -/
structure Split where
  equalities : List Rex
  rest0 : List Rex
  rest1 : List Rex
  rest : List Rex

def classify (thr : Nat) (split : Split) (predicate : Rex) : Split :=
  let rel0 := predicate.refs.any fun acc => acc < thr
  let rel1 := predicate.refs.any fun acc => thr ≤ acc
  if predicate.isA .equals then
    if rel0 && rel1 then { split with equalities := split.equalities ++ [predicate] }
    else if rel0 && !rel1 then { split with rest0 := split.rest0 ++ [predicate] }
    else if !rel0 && rel1 then { split with rest1 := split.rest1 ++ [predicate] }
    else { split with rest := split.rest ++ [predicate] }
  else split

namespace Calcite

variable (calcite : Calcite)

/-- `matches`. -/
def accepts (join : Join) : Bool :=
  if calcite.isAlwaysTrue join.condition then false
  else if calcite.isEqui join then true
  else (calcite.toCnf join.condition).conjunctions.any fun predicate => predicate.isA .equals

def split (join : Join) : Option Split :=
  if calcite.isEqui join then some ⟨[join.condition], [], [], []⟩
  else
    let condition := calcite.pullFactors join.condition
    if condition.isA .and || condition.isA .equals then
      some (condition.operands.foldl (classify join.left.length) ⟨[], [], [], []⟩)
    else none

end Calcite

def filterIf (conditions : List Rex) (condition : Rex) (input : Plan) : Plan :=
  if conditions.isEmpty then input else .filter condition input

def Split.plan (split : Split) (swap : Bool) (thr width : Nat) : Plan :=
  let joinCond := Rex.composeConjunction split.equalities
  let leftCond := Rex.composeConjunction split.rest0
  let rightCond := (Rex.composeConjunction split.rest1).shiftDown thr
  let aboveCond := Rex.composeConjunction split.rest
  let left := filterIf split.rest0 leftCond .leftInput
  let right := filterIf split.rest1 rightCond .rightInput
  let joined := if swap then Plan.swapped thr width left right joinCond else
    .join left right joinCond
  filterIf split.rest aboveCond joined

def Calcite.convert (calcite : Calcite) (swap : Bool) (join : Join) : Option Plan :=
  (calcite.split join).map fun split => split.plan swap join.left.length join.right.length

/-! ### The buckets -/

variable {split s : Split} {thr : Nat} {row ro : Row} {condition c : Rex} {index i : Nat}

namespace Split

def kept (split : Split) : List Rex :=
  split.equalities ++ split.rest0 ++ split.rest1 ++ split.rest

/-- The one-sided buckets read one side. -/
structure Sided (split : Split) (thr : Nat) : Prop where
  left : ∀ predicate ∈ split.rest0, ∀ index ∈ predicate.refs, index < thr
  right : ∀ predicate ∈ split.rest1, ∀ index ∈ predicate.refs, thr ≤ index

theorem mem_kept {p : Rex} : p ∈ s.kept ↔ p ∈ s.equalities ∨ p ∈ s.rest0 ∨
      p ∈ s.rest1 ∨ p ∈ s.rest := by
  simp only [kept, mem_append, or_assoc]

end Split

/-- **Only an equality is put into a bucket.** -/
theorem mem_classify {op p : Rex} : p ∈ (classify thr s op).kept ↔
      p ∈ s.kept ∨ (p = op ∧ op.isA .equals = true) := by
  unfold classify
  simp only [Split.mem_kept]
  split_ifs with he hb hl hr
  · simp only [mem_append, mem_singleton, he, and_true]
    tauto
  · simp only [mem_append, mem_singleton, he, and_true]
    tauto
  · simp only [mem_append, mem_singleton, he, and_true]
    tauto
  · simp only [mem_append, mem_singleton, he, and_true]
    tauto
  · simp only [he, Bool.false_eq_true, and_false, or_false]

theorem sided_classify (hs : s.Sided thr) (op : Rex) : (classify thr s op).Sided thr := by
  unfold classify
  dsimp only
  split_ifs with he hb hl hri
  · exact ⟨hs.left, hs.right⟩
  · refine ⟨fun p hi => ?_, hs.right⟩
    rcases mem_append.mp hi with old | new
    · exact hs.left p old
    · intro index hr
      simp only [Bool.and_eq_true, Bool.not_eq_true', any_eq_false, decide_eq_true_eq, not_le] at hl
      exact hl.2 index (mem_singleton.mp new ▸ hr)
  · refine ⟨hs.left, fun p hi => ?_⟩
    rcases mem_append.mp hi with old | new
    · exact hs.right p old
    · intro index hr
      simp only [Bool.and_eq_true, Bool.not_eq_true', any_eq_false, decide_eq_true_eq,
        not_lt] at hri
      exact hri.1 index (mem_singleton.mp new ▸ hr)
  · exact ⟨hs.left, hs.right⟩
  · exact hs

theorem foldl_classify (ops : List Rex) (hsi : s.Sided thr) :
    (ops.foldl (classify thr) s).Sided thr ∧ ∀ p, p ∈ (ops.foldl (classify thr) s).kept ↔
        p ∈ s.kept ∨ (p ∈ ops ∧ p.isA .equals = true) := by
  induction ops generalizing s with
  | nil => exact ⟨hsi, fun p => by simp⟩
  | cons op ops ih =>
    obtain ⟨hso, hm⟩ := ih (sided_classify hsi op)
    refine ⟨hso, fun p => ?_⟩
    rw [foldl_cons, hm, mem_classify, mem_cons, or_assoc, or_and_right]
    refine or_congr_right (or_congr_left (and_congr_right fun hs => ?_))
    rw [hs]

/-! ### What the plan returns -/

section

variable {l r : List Row}

theorem mem_product : ro ∈ product l r ↔ ∃ f ∈ l, ∃ s ∈ r, f ++ s = ro := by
  simp only [product, mem_flatMap, mem_map]

variable {k kp : Row → Bool}

theorem product_filter_left (hs : ∀ f ∈ l, ∀ s ∈ r, kp (f ++ s) = k f) :
    product (l.filter k) r = (product l r).filter kp := by
  induction l with
  | nil => rfl
  | cons f l ih =>
    have hh : (r.map fun s => f ++ s).filter kp = if k f then r.map fun s => f ++ s else [] := by
      split_ifs with hk
      · refine filter_eq_self.mpr fun row hi => ?_
        obtain ⟨s, hm, rfl⟩ := mem_map.mp hi
        rw [hs f mem_cons_self s hm, hk]
      · refine filter_eq_nil_iff.mpr fun row hi => ?_
        obtain ⟨s, hm, rfl⟩ := mem_map.mp hi
        rw [hs f mem_cons_self s hm]
        exact hk
    have hr := ih fun o hm => hs o (mem_cons_of_mem _ hm)
    simp only [product, flatMap_cons, filter_append] at hr ⊢
    rw [hh, ← hr, filter_cons]
    split_ifs with hk
    · rfl
    · rfl

theorem product_filter_right (hs : ∀ f ∈ l, ∀ s ∈ r, kp (f ++ s) = k s) :
    product l (r.filter k) = (product l r).filter kp := by
  rw [product, product, filter_flatMap]
  refine flatMap_congr fun f hm => ?_
  rw [filter_map]
  refine congrArg _ (filter_congr fun s hi => ?_)
  exact (hs f hm s hi).symm

theorem product_swap (l r : List Row) :
    ((r.flatMap fun s => l.map fun f => f ++ s : List Row) : Multiset Row) =
      (product l r : List Row) := by
  have hs : ((r : Multiset Row).bind fun s =>
      (l : Multiset Row).map fun f => f ++ s) =
        (l : Multiset Row).bind fun f => (r : Multiset Row).map fun s => f ++ s :=
    Multiset.bind_map_comm _ _
  simpa only [product, ← Multiset.coe_bind, Multiset.map_coe] using hs

end

theorem eval_filterIf {cs : List Rex} {i : Plan} {l r : List Row}
    (hn : cs = [] → ∀ row, c.Holds row) :
    (filterIf cs c i).eval l r = (i.eval l r).filter fun row => c.Holds row := by
  unfold filterIf
  split_ifs with he
  · exact (filter_eq_self.mpr fun row _ => by
      simpa using hn (isEmpty_iff.mp he) row).symm
  · rfl

theorem getD_append_left {f s : Row} (low : i < f.length) :
    (f ++ s).getD i .null = f.getD i .null := by
  rw [getD_eq_getElem?_getD, getD_eq_getElem?_getD, List.getElem?_append_left low]

theorem getD_append_right {f s : Row} (hh : f.length ≤ i) :
    (f ++ s).getD i .null = s.getD (i - f.length) .null := by
  rw [getD_eq_getElem?_getD, getD_eq_getElem?_getD, List.getElem?_append_right hh]

theorem map_getD_range (ro : Row) : ((List.range ro.length).map fun index => ro.getD index .null) =
    ro := by
  refine ext_getElem (by simp) fun index low _ => ?_
  simp only [length_map, length_range] at low
  simp [List.getElem?_eq_getElem low]

open Rex

theorem createSwappedJoinExprs_eval (f s : Row) :
    ((createSwappedJoinExprs f.length s.length).map fun e =>
      e.eval (s ++ f)) = f ++ s := by
  rw [createSwappedJoinExprs, map_append, map_map, map_map]
  refine congrArg₂ _ ?_ ?_
  · refine Eq.trans (map_congr_left fun index _ => ?_) (map_getD_range f)
    simp only [Function.comp, eval]
    rw [getD_append_right (Nat.le_add_left _ _), Nat.add_sub_cancel]
  · refine Eq.trans (map_congr_left fun index low => ?_) (map_getD_range s)
    simp only [Function.comp, eval]
    rw [getD_append_left (mem_range.mp low)]

theorem rename_swapRef_holds {f s : Row} (hir : ∀ index ∈ c.refs, index < f.length + s.length) :
    (c.rename (swapRef f.length s.length)).Holds (s ++ f) ↔ c.Holds (f ++ s) := by
  unfold Rex.Holds
  rw [eval_rename fun index hr => ?_]
  have hb := hir index hr
  unfold swapRef
  split_ifs with low
  · rw [getD_append_right (Nat.le_add_left _ _), Nat.add_sub_cancel, getD_append_left low]
  · rw [getD_append_left (by omega), getD_append_right (not_lt.mp low)]

/-- **The swapped join returns the same pairs.** -/
theorem eval_swapped {l r : List Row} {f s : Plan} {w : Nat}
    (hl : ∀ row ∈ f.eval l r, row.length = thr)
    (hr : ∀ row ∈ s.eval l r, row.length = w)
    (hir : ∀ index ∈ c.refs, index < thr + w) :
    (((Plan.swapped thr w f s c).eval l r : List Row) : Multiset Row) =
      ((Plan.join f s c).eval l r : List Row) := by
  rw [Plan.swapped, Plan.eval, Plan.eval, Plan.eval]
  generalize f.eval l r = fs at hl ⊢
  generalize s.eval l r = ss at hr ⊢
  have hk : ∀ row ∈ product ss fs, decide ((c.rename (swapRef thr w)).Holds row) = decide (c.Holds
        ((createSwappedJoinExprs thr w).map fun e => e.eval row)) := by
    intro row hi
    obtain ⟨s, hm, f, ho, rfl⟩ := mem_product.mp hi
    obtain rfl := hl f ho
    obtain rfl := hr s hm
    rw [createSwappedJoinExprs_eval]
    exact decide_eq_decide.mpr (rename_swapRef_holds hir)
  have hs : ((product ss fs).map fun row =>
      (createSwappedJoinExprs thr w).map fun e => e.eval row) =
      ss.flatMap fun s => fs.map fun f => f ++ s := by
    rw [product, map_flatMap]
    refine flatMap_congr fun s hm => ?_
    rw [map_map]
    refine map_congr_left fun f ho => ?_
    obtain rfl := hl f ho
    obtain rfl := hr s hm
    exact createSwappedJoinExprs_eval f s
  rw [filter_congr hk]
  refine Eq.trans (congrArg _ (filter_map (p := fun row => decide (c.Holds row))).symm) ?_
  rw [hs, ← Multiset.filter_coe, ← Multiset.filter_coe, product_swap]

/-! ### The result -/

section

variable {sp : Split} {thr w : Nat} {l r : List Row}

section

variable {f : Row} (sided : sp.Sided thr) (second : Row) (length : f.length = thr)

include sided second length

theorem leftCond_holds : (composeConjunction sp.rest0).Holds f ↔
      (composeConjunction sp.rest0).Holds (f ++ second) := by
  unfold Rex.Holds
  rw [eval_congr fun index hr => ?_]
  obtain ⟨p, hi, hr⟩ := composeConjunction_refs hr
  rw [getD_append_left (length ▸ sided.left p hi index hr)]

theorem rightCond_holds : ((composeConjunction sp.rest1).shiftDown thr).Holds second ↔
      (composeConjunction sp.rest1).Holds (f ++ second) := by
  unfold Rex.Holds shiftDown
  rw [eval_rename fun index hr => ?_]
  obtain ⟨p, hi, hr⟩ := composeConjunction_refs hr
  rw [getD_append_right (length ▸ sided.right p hi index hr), length]

/-- **The four conditions hold on a pair exactly when every kept operand does.** -/
theorem conditions_hold : ((composeConjunction sp.equalities).Holds (f ++ second) ∧
      (composeConjunction sp.rest0).Holds f ∧
      ((composeConjunction sp.rest1).shiftDown thr).Holds second ∧
      (composeConjunction sp.rest).Holds (f ++ second)) ↔
    ∀ p ∈ sp.kept, p.Holds (f ++ second) := by
  rw [leftCond_holds sided second length, rightCond_holds sided second length]
  simp only [composeConjunction_holds, Split.mem_kept, or_imp, forall_and]

end

/-- **The converted plan returns the pairs on which every kept operand holds.** -/
theorem eval_plan (sw : Bool) (hs : sp.Sided thr) (hl : ∀ row ∈ l, row.length = thr)
    (hri : ∀ row ∈ r, row.length = w)
    (hir : ∀ p ∈ sp.kept, ∀ index ∈ p.refs, index < thr + w) :
    (((sp.plan sw thr w).eval l r : List Row) : Multiset Row) =
      ((product l r).filter fun row => ∀ p ∈ sp.kept, p.Holds row : List Row) := by
  have hle : (filterIf sp.rest0 (composeConjunction sp.rest0) .leftInput).eval l r =
      l.filter fun row => (composeConjunction sp.rest0).Holds row :=
    eval_filterIf fun hn row => by rw [hn]; rfl
  have hre : (filterIf sp.rest1 ((composeConjunction sp.rest1).shiftDown thr)
      .rightInput).eval l r =
        r.filter fun row => ((composeConjunction sp.rest1).shiftDown thr).Holds row :=
    eval_filterIf fun hn row => by rw [hn]; rfl
  have hp : product (l.filter fun row => (composeConjunction sp.rest0).Holds row)
      (r.filter fun row => ((composeConjunction sp.rest1).shiftDown thr).Holds row) =
        ((product l r).filter fun row => (composeConjunction sp.rest1).Holds row).filter
          fun row => (composeConjunction sp.rest0).Holds row := by
    rw [← product_filter_right fun f hi s _ =>
        decide_eq_decide.mpr (rightCond_holds hs s (hl f hi)).symm,
      ← product_filter_left fun f hi s _ =>
        decide_eq_decide.mpr (leftCond_holds hs s (hl f hi)).symm]
  have hj : (((if sw then
        Plan.swapped thr w (filterIf sp.rest0 (composeConjunction sp.rest0) .leftInput)
          (filterIf sp.rest1 ((composeConjunction sp.rest1).shiftDown thr) .rightInput)
          (composeConjunction sp.equalities)
      else
        .join (filterIf sp.rest0 (composeConjunction sp.rest0) .leftInput)
          (filterIf sp.rest1 ((composeConjunction sp.rest1).shiftDown thr) .rightInput)
          (composeConjunction sp.equalities)).eval l r : List Row) : Multiset Row) =
      (((((product l r).filter fun row => (composeConjunction sp.rest1).Holds row).filter
        fun row => (composeConjunction sp.rest0).Holds row).filter
          fun row => (composeConjunction sp.equalities).Holds row : List Row) : Multiset Row) := by
    split_ifs
    · rw [eval_swapped, Plan.eval, hle, hre, hp]
      · exact fun row hi => hl row (mem_of_mem_filter (hle ▸ hi))
      · exact fun row hi => hri row (mem_of_mem_filter (hre ▸ hi))
      · intro index hr
        obtain ⟨p, hi, hr⟩ := composeConjunction_refs hr
        exact hir p (Split.mem_kept.mpr (Or.inl hi)) index hr
    · rw [Plan.eval, hle, hre, hp]
  rw [Split.plan, eval_filterIf fun hn row => by rw [hn]; rfl, ← Multiset.filter_coe, hj,
    Multiset.filter_coe]
  simp only [filter_filter]
  refine congrArg _ (filter_congr fun row hi => ?_)
  obtain ⟨f, hm, s, _, rfl⟩ := mem_product.mp hi
  rw [Bool.eq_iff_iff]
  simp only [Bool.and_eq_true, decide_eq_true_eq]
  rw [← conditions_hold hs s (hl f hm), leftCond_holds hs s (hl f hm),
    rightCond_holds hs s (hl f hm)]
  tauto

end

/-- A pair of rows the inputs of a join may hold. -/
def Join.AdmitsPair (join : Join) (first second : Row) : Prop :=
  join.left.Admits first ∧ join.right.Admits second

def Calcite.Preserves (calcite : Calcite) (swap : Bool) (join : Join) : Prop :=
  calcite.accepts join = true → ∃ plan, calcite.convert swap join = some plan ∧
    ∀ left right, (∀ row ∈ left, join.left.Admits row) → (∀ row ∈ right, join.right.Admits row) →
      ((plan.eval left right : List Row) : Multiset Row) = (join.rows left right : List Row)

def Calcite.KeepsCondition (calcite : Calcite) (join : Join) : Prop :=
  match calcite.pullFactors join.condition with
  | .call .and operands => ∀ first second, join.AdmitsPair first second →
      (∀ operand ∈ operands, operand.isA .equals = true → operand.Holds (first ++ second)) →
      ∀ operand ∈ operands, operand.isA .equals = false → operand.Holds (first ++ second)
  | .call .equals operands => ∀ first second, join.AdmitsPair first second →
      ((∀ operand ∈ operands, operand.isA .equals = true → operand.Holds (first ++ second)) ↔
        (Rex.call .equals operands).Holds (first ++ second))
  | _ => False

theorem same_pairs_iff (j : Join) (k q : Row → Prop) [DecidablePred k] [DecidablePred q] :
    (∀ l r, (∀ row ∈ l, j.left.Admits row) → (∀ row ∈ r, j.right.Admits row) →
      (((product l r).filter fun row => k row : List Row) : Multiset Row) =
        ((product l r).filter fun row => q row : List Row)) ↔
    ∀ f s, j.AdmitsPair f s → (k (f ++ s) ↔ q (f ++ s)) := by
  constructor
  · intro hs f s had
    have hsi := hs [f] [s] (by simpa using had.1) (by simpa using had.2)
    by_cases hk : k (f ++ s) <;> by_cases ha : q (f ++ s) <;> simp [product, hk, ha] at hsi ⊢
  · intro hs l r hl hr
    refine congrArg _ (filter_congr fun row hi => ?_)
    obtain ⟨f, hm, s, ho, rfl⟩ := mem_product.mp hi
    exact decide_eq_decide.mpr (hs f s ⟨hl f hm, hr s ho⟩)

section

variable {calcite ca : Calcite} {join j : Join} {sp : Split}

theorem RowType.Admits.length {t : RowType} (ha : t.Admits ro) : ro.length = t.length :=
  (List.Forall₂.length_eq ha).symm

theorem preserves_iff_kept (sw : Bool) (hf : ca.split j = some sp) (hs : sp.Sided j.left.length)
    (hir : ∀ p ∈ sp.kept, ∀ index ∈ p.refs, index < j.left.length + j.right.length) :
    ca.Preserves sw j ↔ (ca.accepts j = true → ∀ f s, j.AdmitsPair f s →
        ((∀ p ∈ sp.kept, p.Holds (f ++ s)) ↔ j.condition.Holds (f ++ s))) := by
  unfold Calcite.Preserves Calcite.convert
  simp only [hf, Option.map_some, Option.some.injEq, exists_eq_left']
  refine imp_congr_right fun _ => ?_
  rw [← same_pairs_iff j (fun row => ∀ p ∈ sp.kept, p.Holds row) fun row => j.condition.Holds row]
  refine forall₂_congr fun l r => forall₂_congr fun hl hr => ?_
  rw [eval_plan sw hs (fun row hi => (hl row hi).length) (fun row hi => (hr row hi).length) hir]
  rfl

theorem operands_refs {op : Rex} (hi : op ∈ c.operands) (hr : i ∈ op.refs) : i ∈ c.refs := by
  cases c with
  | inputRef i | literal v => cases hi
  | call k ops =>
    rw [refs, refsAll_eq_flatMap]
    exact mem_flatMap.mpr ⟨op, hi, hr⟩

theorem not_preserves_of_split (s : Bool) (hf : ca.split j = none) :
    ca.Preserves s j ↔ (ca.accepts j = true → False) := by
  unfold Calcite.Preserves Calcite.convert
  simp [hf]

/-- **What the loop over the operands leaves of a factored condition.** -/
theorem preserves_iff_equalities (sw : Bool) (heq : ¬ ca.isEqui j = true)
    (hfa : ca.pullFactors j.condition = c)
    (hsh : (c.isA .and || c.isA .equals) = true) :
    ca.Preserves sw j ↔ (ca.accepts j = true → ∀ f s, j.AdmitsPair f s →
        ((∀ op ∈ c.operands, op.isA .equals = true → op.Holds (f ++ s)) ↔ c.Holds (f ++ s))) := by
  have he : Split.Sided ⟨[], [], [], []⟩ j.left.length :=
    ⟨fun _ hi => (by cases hi), fun _ hi => (by cases hi)⟩
  obtain ⟨hs, hm⟩ := foldl_classify c.operands he
  have hf : ca.split j = some (c.operands.foldl (classify j.left.length) ⟨[], [], [], []⟩) := by
    rw [Calcite.split, if_neg heq]
    simp only [hfa, hsh, if_true]
  have hk : ∀ p, p ∈ (c.operands.foldl (classify j.left.length) ⟨[], [], [], []⟩).kept ↔
        p ∈ c.operands ∧ p.isA .equals = true := by
    intro p
    rw [hm]
    simp [Split.kept]
  have hir : ∀ index ∈ c.refs, index < j.left.length + j.right.length :=
    fun index hr => j.inRange index (ca.pullFactors_refs _ index (hfa ▸ hr))
  have hme : ∀ row, j.condition.Holds row ↔ c.Holds row := fun row => by
    rw [Rex.Holds, Rex.Holds, ← hfa, ca.pullFactors_eval]
  rw [preserves_iff_kept sw hf hs fun p hi index hr =>
    hir index (operands_refs ((hk p).mp hi).1 hr)]
  simp only [hk, and_imp, hme]

theorem and_kept_iff {ops : List Rex} : ((∀ op ∈ ops, op.isA .equals = true → op.Holds ro) ↔
      (call .and ops).Holds ro) ↔
    ((∀ op ∈ ops, op.isA .equals = true → op.Holds ro) →
      ∀ op ∈ ops, op.isA .equals = false → op.Holds ro) := by
  rw [and_holds]
  constructor
  · exact fun hs hk op hi _ => hs.mp hk op hi
  · refine fun him => ⟨fun hk op hi => ?_, fun all op hi _ => all op hi⟩
    rcases Bool.eq_false_or_eq_true (op.isA .equals) with he | ho
    · exact hk op hi he
    · exact him hk op hi ho

/-- **The rule is right exactly when the join is an equi-join or the dropped operands do not
matter.** -/
theorem convert_preserves_iff (calcite : Calcite) (swap : Bool) (join : Join) :
    calcite.Preserves swap join ↔
      (calcite.accepts join = true → calcite.isEqui join = true ∨ calcite.KeepsCondition join) := by
  by_cases he : calcite.isEqui join = true
  · have hf : calcite.split join = some ⟨[join.condition], [], [], []⟩ := if_pos he
    rw [preserves_iff_kept swap hf ⟨fun _ hi => (by cases hi), fun _ hi => (by cases hi)⟩
      (by simpa [Split.kept] using join.inRange)]
    simp [Split.kept, he]
  · have ho : ∀ condition, calcite.pullFactors join.condition = condition →
        (condition.isA .and || condition.isA .equals) = false →
        (calcite.Preserves swap join ↔ (calcite.accepts join = true → False)) := by
      intro condition hfa hs
      refine not_preserves_of_split swap ?_
      rw [Calcite.split, if_neg he]
      simp only [hfa, hs, Bool.false_eq_true, if_false]
    simp only [he, Bool.false_eq_true, false_or, Calcite.KeepsCondition]
    cases hfa : calcite.pullFactors join.condition with
    | inputRef index | literal v => exact ho _ hfa rfl
    | call k ops =>
      cases k with
      | and =>
        rw [preserves_iff_equalities swap he hfa rfl]
        exact imp_congr_right fun _ => forall₃_congr fun _ _ _ => and_kept_iff
      | equals =>
        rw [preserves_iff_equalities swap he hfa rfl]
        rfl
      | _ => exact ho _ hfa rfl

end

/-! ### A dropped predicate -/

/-- Calcite on conditions that are already in both normal forms. -/
def plainCalcite : Calcite where
  isAlwaysTrue condition := condition.conjunctions.isEmpty
  isEqui join := join.condition.conjunctions.all fun
    | .call .equals [.inputRef first, .inputRef second] =>
      decide (min first second < join.left.length ∧ join.left.length ≤ max first second)
    | _ => false
  toCnf := id
  pullFactors := id
  pullFactors_eval _ _ := rfl
  pullFactors_refs _ _ read := read

/-- `l.a = r.a AND l.b < r.b` -/
def equalAndLess : Join where
  left := [⟨.int, false⟩, ⟨.int, false⟩]
  right := [⟨.int, false⟩, ⟨.int, false⟩]
  condition :=
    .call .and [.call .equals [.inputRef 0, .inputRef 2],
      .call .lessThan [.inputRef 1, .inputRef 3]]
  inRange := by decide

/-- The comparison is dropped: the plan returns a pair that the join does not. -/
theorem equalAndLess_not_preserved : ¬ plainCalcite.Preserves false equalAndLess := by
  intro hpr
  obtain ⟨p, hc, hs⟩ := hpr (by decide)
  have hr : ((plainCalcite.convert false equalAndLess).map fun p =>
      p.eval [[.int 1, .int 2]] [[.int 1, .int 1]]) = some [[.int 1, .int 2, .int 1, .int 1]] := by
        decide
  have ha : equalAndLess.rows [[.int 1, .int 2]] [[.int 1, .int 1]] = [] := by decide
  have hp := hs [[.int 1, .int 2]] [[.int 1, .int 1]]
    (by simp [equalAndLess, RowType.Admits, Field.Admits])
    (by simp [equalAndLess, RowType.Admits, Field.Admits])
  rw [hc, Option.map_some, Option.some.injEq] at hr
  rw [hr, ha] at hp
  exact absurd hp (by decide)

end Proteus.Planner
