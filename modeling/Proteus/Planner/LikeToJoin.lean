/-
**Rewriting LIKE into joins** (`LikeToJoinRule.scala`).

A filter over dictionary-encoded columns cannot evaluate `LIKE`: a row has the code of a string. The
rule joins the input, on `TRUE`, with one scan of the dictionary for each `LIKE`, which returns the
codes whose strings match, replaces the call by an equality with the scanned code, and projects to
the old fields.

In the joined input a row stands beside every choice of one matching code for each `LIKE`, and the
plan returns it once for each choice that makes the rewritten condition true. Under `AND` only the
choice of the row's own codes does. Under `NOT` and beside the other operands of an `OR` it is any
of them, or none where a pattern matches nothing.

* `choices_eval` — the values of the rewritten condition over all choices.
* `eval_replacement` — so the plan returns a row as often as the condition comes out true.
* `once_iff`, `never_iff` — when it does so once, and never, along the condition.
* `replacement_preserves_iff` — the plan answers the query exactly when accepted rows come out once
  and the others never; `conjunctive_settled`, that they do where every `LIKE` is under `AND` alone.
-/

import Proteus.Planner.JoinSeq

namespace Proteus.Planner

/-! ### Conditions with LIKE -/

/-- What the rule and the evaluation of `LIKE` ask the catalog for. -/
structure Catalog (Column Regex Text : Type) where
  lineage : Rex → Column
  dictionary : Column → Int → Option Text
  isMatch : Regex → Text → Bool
  dictTableScan : Column → Regex → List Int
  dictTableScan_nodup : ∀ column regex, (dictTableScan column regex).Nodup
  mem_dictTableScan : ∀ column regex code, code ∈ dictTableScan column regex ↔
    ∃ text, dictionary column code = some text ∧ isMatch regex text = true

inductive Condition (Regex : Type) where
  | like (operand : Rex) (regex : Regex)
  | predicate (expression : Rex)
  | and (operands : List (Condition Regex))
  | or (operands : List (Condition Regex))
  | not (operand : Condition Regex)

section

variable {Column Regex Text : Type} (catalog : Catalog Column Regex Text)

namespace Catalog

def codes (operand : Rex) (regex : Regex) : List Int :=
  catalog.dictTableScan (catalog.lineage operand) regex

theorem codes_nodup (op : Rex) (r : Regex) : (catalog.codes op r).Nodup :=
  catalog.dictTableScan_nodup ..

/-- `LIKE` looks at the string; it is null for a null. -/
def like (operand : Rex) (regex : Regex) : Value → Value
  | .int code =>
      .bool ((catalog.dictionary (catalog.lineage operand) code).any (catalog.isMatch regex))
  | _ => .null

end Catalog

namespace Condition

mutual

def eval (row : Row) : Condition Regex → Value
  | .like operand regex => catalog.like operand regex (operand.eval row)
  | .predicate expression => expression.eval row
  | .and operands => SqlKind.and.apply (evalAll row operands)
  | .or operands => SqlKind.or.apply (evalAll row operands)
  | .not operand => SqlKind.not.apply [eval row operand]

def evalAll (row : Row) : List (Condition Regex) → List Value
  | [] => []
  | operand :: operands => eval row operand :: evalAll row operands

end

mutual

/-- The fields a condition reads. -/
def refs : Condition Regex → List Nat
  | .like operand _ => operand.refs
  | .predicate expression => expression.refs
  | .and operands | .or operands => refsAll operands
  | .not operand => refs operand

def refsAll : List (Condition Regex) → List Nat
  | [] => []
  | operand :: operands => refs operand ++ refsAll operands

end

mutual

def likes : Condition Regex → List (Rex × Regex)
  | .like operand regex => [(operand, regex)]
  | .predicate _ => []
  | .and operands | .or operands => likesAll operands
  | .not operand => likes operand

def likesAll : List (Condition Regex) → List (Rex × Regex)
  | [] => []
  | operand :: operands => likes operand ++ likesAll operands

end

end Condition

/-- A filter; its condition reads the fields of its input. -/
structure Filter (Regex : Type) where
  width : Nat
  condition : Condition Regex
  inRange : ∀ index ∈ condition.refs, index < width

def Filter.eval (filter : Filter Regex) (rows : List Row) : List Row :=
  rows.filter fun row => filter.condition.eval catalog row = .bool true

/-! ### The rule -/

inductive RelNode (Column Regex : Type) where
  | input
  | dictTableScan (column : Column) (regex : Regex)
  | join (left right : RelNode Column Regex) (condition : Rex)
  | filter (condition : Rex) (child : RelNode Column Regex)
  | project (expressions : List Rex) (child : RelNode Column Regex)

def RelNode.eval (rows : List Row) : RelNode Column Regex → List Row
  | .input => rows
  | .dictTableScan column regex => (catalog.dictTableScan column regex).map fun code => [.int code]
  | .join left right condition =>
    (product (left.eval rows) (right.eval rows)).filter fun row => condition.Holds row
  | .filter condition child => (child.eval rows).filter fun row => condition.Holds row
  | .project expressions child =>
    (child.eval rows).map fun row => expressions.map fun expression => expression.eval row

structure FindLikes (Column Regex : Type) where
  input : RelNode Column Regex
  cnt : Nat

namespace FindLikes

mutual

/-- `visitCall`; all other calls are visited operand by operand. -/
def visit : Condition Regex → FindLikes Column Regex → Rex × FindLikes Column Regex
  | .like operand regex, found =>
    (.call .equals [operand, .inputRef found.cnt],
      ⟨.join found.input (.dictTableScan (catalog.lineage operand) regex) (.literal (.bool true)),
        found.cnt + 1⟩)
  | .predicate expression, found => (expression, found)
  | .and operands, found =>
    let visited := visitAll operands found
    (.call .and visited.1, visited.2)
  | .or operands, found =>
    let visited := visitAll operands found
    (.call .or visited.1, visited.2)
  | .not operand, found =>
    let visited := visit operand found
    (.call .not [visited.1], visited.2)

def visitAll : List (Condition Regex) → FindLikes Column Regex → List Rex × FindLikes Column Regex
  | [], found => ([], found)
  | operand :: operands, found =>
    let first := visit operand found
    let rest := visitAll operands first.2
    (first.1 :: rest.1, rest.2)

end

end FindLikes

/-- `onMatch`: the replacement, where the filter has a `LIKE`. -/
def Filter.onMatch (filter : Filter Regex) : Option (RelNode Column Regex) :=
  let visited := FindLikes.visit catalog filter.condition ⟨.input, filter.width⟩
  match visited.2.input with
  | .input => none
  | newInput =>
      some (.project ((List.range filter.width).map .inputRef) (.filter visited.1 newInput))

end

/-! ### All choices of codes -/

section

variable {Column Regex Text : Type} (catalog : Catalog Column Regex Text)

namespace Condition

theorem induct {P : Condition Regex → Prop} (like : ∀ operand regex, P (.like operand regex))
    (predicate : ∀ expression, P (.predicate expression))
    (and : ∀ operands, (∀ operand ∈ operands, P operand) → P (.and operands))
    (or : ∀ operands, (∀ operand ∈ operands, P operand) → P (.or operands))
    (not : ∀ operand, P operand → P (.not operand)) (condition : Condition Regex) :
        P condition := by
  refine @Condition.rec Regex P (fun operands => ∀ operand ∈ operands, P operand) like predicate
    and or not ?_ ?_
    condition
  · intro operand member
    cases member
  · intro head rest holds all operand member
    rcases List.mem_cons.mp member with rfl | inside
    · exact holds
    · exact all operand inside

mutual

def choices : Condition Regex → List Row
  | .like operand regex => (catalog.codes operand regex).map fun code => [.int code]
  | .predicate _ => [[]]
  | .and operands | .or operands => choicesAll operands
  | .not operand => choices operand

def choicesAll : List (Condition Regex) → List Row
  | [] => [[]]
  | operand :: operands => product (choices operand) (choicesAll operands)

end

mutual

def outcomes (row : Row) : Condition Regex → List Value
  | .like operand regex =>
    (catalog.codes operand regex).map fun code => SqlKind.equals.apply [operand.eval row, .int code]
  | .predicate expression => [expression.eval row]
  | .and operands => (outcomesAll row operands).map SqlKind.and.apply
  | .or operands => (outcomesAll row operands).map SqlKind.or.apply
  | .not operand => (outcomes row operand).map fun value => SqlKind.not.apply [value]

def outcomesAll (row : Row) : List (Condition Regex) → List (List Value)
  | [] => [[]]
  | operand :: operands =>
    (outcomes row operand).flatMap fun value => (outcomesAll row operands).map (value :: ·)

end

end Condition

theorem product_assoc (f s t : List Row) : product (product f s) t = product f (product s t) := by
  simp only [product, List.flatMap_assoc, List.map_flatMap, List.flatMap_map, List.map_map,
    Function.comp_def,
    List.append_assoc]

theorem product_unit (r : List Row) : product r [[]] = r := by
  simp [product]

theorem filter_true (ro : List Row) : (ro.filter fun r => (Rex.literal (.bool true)).Holds r) =
    ro :=
  List.filter_eq_self.mpr fun _ _ => decide_eq_true rfl

structure Visits (before after : FindLikes Column Regex) (choices : List Row) (count : Nat) :
    Prop where
  joined : ∀ rows, after.input.eval catalog rows = product (before.input.eval catalog rows) choices
  counted : after.cnt = before.cnt + count
  lengths : ∀ choice ∈ choices, choice.length = count

variable {catalog}

theorem Visits.refl (f : FindLikes Column Regex) : Visits catalog f f [[]] 0 :=
  ⟨fun _ => (product_unit _).symm, rfl, by simp⟩

open Nat

theorem Visits.trans {fi s t : FindLikes Column Regex} {cs m : List Row} {c os : Nat}
    (hh : Visits catalog fi s cs c) (hn : Visits catalog s t m os) :
    Visits catalog fi t (product cs m) (c + os) := by
  refine ⟨fun r => ?_, ?_, fun ch hm => ?_⟩
  · rw [hn.joined, hh.joined, product_assoc]
  · rw [hn.counted, hh.counted, add_assoc]
  · obtain ⟨f, front_in, b, back_in, rfl⟩ := mem_product.mp hm
    rw [List.length_append, hh.lengths f front_in, hn.lengths b back_in]

open FindLikes Condition List Function

theorem visitAll_visits {ops : List (Condition Regex)}
    (he : ∀ op ∈ ops, ∀ f, Visits catalog f (visit catalog op f).2
      (choices catalog op) (likes op).length) (f : FindLikes Column Regex) :
    Visits catalog f (visitAll catalog ops f).2 (choicesAll catalog ops) (likesAll ops).length := by
  induction ops generalizing f with
  | nil => exact .refl f
  | cons op ops ih =>
    rw [forall_mem_cons] at he
    rw [visitAll, choicesAll, likesAll, length_append]
    exact (he.1 f).trans (ih he.2 _)

theorem visit_visits (catalog : Catalog Column Regex Text) (c : Condition Regex) : ∀ f,
    Visits catalog f
    (visit catalog c f).2 (choices catalog c) (likes c).length := by
  induction c using Condition.induct with
  | like op re =>
    intro f
    refine ⟨fun r => filter_true _, rfl, fun ch hm => ?_⟩
    obtain ⟨co, -, rfl⟩ := mem_map.mp hm
    rfl
  | predicate e => exact fun f => .refl f
  | and ops ih | or ops ih => exact visitAll_visits ih
  | not op ih => exact ih

theorem visitAll_refs {ops : List (Condition Regex)}
    (he : ∀ op ∈ ops, ∀ f, (∀ i ∈ op.refs, i < f.cnt) →
      ∀ i ∈ (visit catalog op f).1.refs, i < (visit catalog op f).2.cnt)
    (f : FindLikes Column Regex) (hir : ∀ i ∈ refsAll ops, i < f.cnt) :
    ∀ i ∈ Rex.refsAll (visitAll catalog ops f).1, i < (visitAll catalog ops f).2.cnt := by
  induction ops generalizing f with
  | nil => exact hir
  | cons op ops ih =>
    rw [forall_mem_cons] at he
    rw [refsAll, forall_mem_append] at hir
    have hf := (visit_visits catalog op f).counted
    have hr : (visitAll catalog ops (visit catalog op f).2).2.cnt = _ :=
      (visitAll_visits (fun o _ => visit_visits catalog o) _).counted
    rw [visitAll, Rex.refsAll, forall_mem_append]
    refine ⟨fun i hre => ?_, ih he.2 _ fun i hre => ?_⟩
    · have hh := he.1 f hir.1 i hre
      show i < (visitAll catalog ops (visit catalog op f).2).2.cnt
      omega
    · have hh := hir.2 i hre
      omega

theorem visit_refs (catalog : Catalog Column Regex Text) (c : Condition Regex) :
    ∀ f : FindLikes Column Regex,
    (∀ i ∈ c.refs, i < f.cnt) →
      ∀ i ∈ (visit catalog c f).1.refs, i < (visit catalog c f).2.cnt := by
  induction c using Condition.induct with
  | like op r =>
    intro f hir i hr
    simp only [visit, Rex.refs, Rex.refsAll, append_nil, mem_append, mem_singleton] at hr ⊢
    rcases hr with old | rfl
    · exact lt_succ_of_lt (hir i old)
    · exact lt_succ_self _
  | predicate e => exact fun f hir => hir
  | and ops ih | or ops ih => exact visitAll_refs ih
  | not op ih =>
    intro f hir i hr
    simp only [visit, Rex.refs, Rex.refsAll, append_nil] at hr
    exact ih f hir i hr

def Fronts (row base : Row) (refs : List Nat) : Prop :=
  ∀ index ∈ refs, index < base.length ∧ base.getD index .null = row.getD index .null

theorem Fronts.append {r b : Row} {re : List Nat} (hf : Fronts r b re) (m : Row) :
    Fronts r (b ++ m) re := fun i hr => by
  obtain ⟨hi, hs⟩ := hf i hr
  refine ⟨?_, (getD_append_left hi).trans hs⟩
  rw [length_append]
  omega

theorem Fronts.eval {r b : Row} {e : Rex} (hf : Fronts r b e.refs) : e.eval b = e.eval r :=
  Rex.eval_congr fun i hr => (hf i hr).2

/-- **The values of the rewritten condition** over all choices. -/
theorem choicesAll_eval {r : Row} {ops : List (Condition Regex)}
    (he : ∀ op ∈ ops, ∀ (f : FindLikes Column Regex) b, b.length = f.cnt →
      Fronts r b op.refs → ((choices catalog op).map fun c =>
        (visit catalog op f).1.eval (b ++ c)) = outcomes catalog r op)
    (f : FindLikes Column Regex) (b : Row) (hw : b.length = f.cnt)
    (hf : Fronts r b (refsAll ops)) :
    ((choicesAll catalog ops).map fun c =>
      Rex.evalAll (b ++ c) (visitAll catalog ops f).1) = outcomesAll catalog r ops := by
  induction ops generalizing f b with
  | nil => rfl
  | cons op ops ih =>
    rw [forall_mem_cons] at he
    have first_fronts : Fronts r b op.refs := fun i hr =>
      hf i (mem_append_left _ hr)
    have rest_fronts : Fronts r b (refsAll ops) := fun i hr =>
      hf i (mem_append_right _ hr)
    have hv := visit_visits catalog op f
    have hir := visit_refs catalog op f fun i hr =>
      hw ▸ (first_fronts i hr).1
    rw [choicesAll, outcomesAll, ← he.1 f b hw first_fronts, product, map_flatMap, flatMap_map]
    refine flatMap_congr fun c hm => ?_
    have hwi : (b ++ c).length = (visit catalog op f).2.cnt := by
      rw [length_append, hw, hv.counted, hv.lengths c hm]
    rw [← ih he.2 (visit catalog op f).2 (b ++ c) hwi (rest_fronts.append c), map_map, map_map]
    refine map_congr_left fun os _ => ?_
    simp only [comp, visitAll, Rex.evalAll, ← append_assoc]
    refine congrArg (· :: _) (Rex.eval_congr fun i hr => getD_append_left ?_)
    rw [hwi]
    exact hir i hr

theorem choices_eval (r : Row) (c : Condition Regex) : ∀ (f : FindLikes Column Regex) b,
    b.length = f.cnt → Fronts r b c.refs → ((choices catalog c).map fun ch =>
      (visit catalog c f).1.eval (b ++ ch)) = outcomes catalog r c := by
  induction c using Condition.induct with
  | like op re =>
    intro f b hw hf
    rw [choices, outcomes, map_map]
    refine map_congr_left fun co _ => ?_
    have hfi : (b ++ [Value.int co]).getD f.cnt .null = .int co := by
      rw [← hw, getD_append_right le_rfl, Nat.sub_self]
      rfl
    simp only [comp, visit, Rex.eval, Rex.evalAll, hfi]
    rw [(hf.append [.int co]).eval]
  | predicate e =>
    intro f b hw hf
    rw [choices, outcomes, map_singleton, append_nil, visit, hf.eval]
  | and ops ih | or ops ih =>
    intro f b hw hf
    rw [outcomes, ← choicesAll_eval ih f b hw hf, map_map]
    rfl
  | not op ih =>
    intro f b hw hf
    rw [outcomes, ← ih f b hw hf, map_map]
    rfl

end

/-! ### What the plan returns -/

section

variable {Column Regex Text : Type} {ca : Catalog Column Regex Text}

open Condition

theorem project_front {r : Row} (c : Row) :
    (((List.range r.length).map Rex.inputRef).map fun e => e.eval (r ++ c)) =
    r := by
  rw [List.map_map]
  refine Eq.trans (List.map_congr_left fun i low => ?_) (map_getD_range r)
  exact getD_append_left (List.mem_range.mp low)

variable {ro : List Row}

/-- **The plan returns a row as often** as the condition comes out true. -/
theorem eval_replacement {f : Filter Regex} {p : RelNode Column Regex} (hf : f.onMatch ca = some p)
    (hw : ∀ r ∈ ro, r.length = f.width) :
    p.eval ca ro = ro.flatMap fun r =>
      List.replicate ((outcomes ca r f.condition).count (.bool true)) r := by
  have hj := (visit_visits ca f.condition ⟨.input, f.width⟩).joined ro
  have hv : ∀ r ∈ ro, ((choices ca f.condition).map fun c =>
      (FindLikes.visit ca f.condition ⟨.input, f.width⟩).1.eval (r ++ c)) =
        outcomes ca r f.condition := fun r hm =>
    choices_eval r f.condition ⟨.input, f.width⟩ r (hw r hm) fun i hr =>
      ⟨hw r hm ▸ f.inRange i hr, rfl⟩
  unfold Filter.onMatch at hf
  generalize FindLikes.visit ca f.condition ⟨.input, f.width⟩ = v at hf hj hv
  obtain rfl : RelNode.project ((List.range f.width).map .inputRef)
    (.filter v.1 v.2.input) = p := by
    cases hs : v.2.input <;> simp_all
  rw [RelNode.eval, RelNode.eval, hj, RelNode.eval, product, List.filter_flatMap, List.map_flatMap]
  refine List.flatMap_congr fun r hm => ?_
  rw [← hw r hm, List.filter_map, List.map_map, ← hv r hm, List.count_eq_countP, List.countP_map,
    List.countP_eq_length_filter, ← List.map_const']
  exact congrArg₂ List.map (funext fun c => project_front c) (List.filter_congr fun c _ => rfl)

theorem count_flatMap_replicate (ro : List Row) (ts : Row → Nat) (r : Row) :
    (ro.flatMap fun r => List.replicate (ts r) r).count r = ts r * ro.count r := by
  induction ro with
  | nil => rfl
  | cons f ro ih =>
    rw [List.flatMap_cons, List.count_append, ih, List.count_replicate, List.count_cons, mul_add]
    by_cases hs : f = r
    · simp [hs, add_comm]
    · simp [hs]

theorem flatMap_replicate_perm_iff {ts : Row → Nat} {k : Row → Bool} :
    (ro.flatMap fun r => List.replicate (ts r) r).Perm (ro.filter k) ↔
      ∀ r ∈ ro, ts r = if k r then 1 else 0 := by
  have hk : ∀ r, (ro.filter k).count r = (if k r then 1 else 0) * ro.count r := fun r => by
    split_ifs with hke
    · rw [List.count_filter hke, Nat.one_mul]
    · rw [Nat.zero_mul, List.count_eq_zero]
      exact fun hm => hke (List.mem_filter.mp hm).2
  simp only [List.perm_iff_count, count_flatMap_replicate, hk]
  refine ⟨fun hs r hm => ?_, fun hs r => ?_⟩
  · exact Nat.eq_of_mul_eq_mul_right (List.count_pos_iff.mpr hm) (hs r)
  · by_cases hm : r ∈ ro
    · rw [hs r hm]
    · rw [List.count_eq_zero.mpr hm, Nat.mul_zero, Nat.mul_zero]

end

/-! ### Once and never -/

section

variable {Column Regex Text : Type} (catalog : Catalog Column Regex Text)

namespace Condition

def Single (likes : List (Rex × Regex)) : Prop :=
  ∀ like ∈ likes, (catalog.codes like.1 like.2).length = 1

def Unmatched (likes : List (Rex × Regex)) : Prop :=
  ∃ like ∈ likes, catalog.codes like.1 like.2 = []

mutual

def Never (row : Row) (b : Bool) : Condition Regex → Prop
  | .like operand regex => ∀ code, operand.eval row = .int code →
      ∀ other ∈ catalog.codes operand regex, decide (other = code) ≠ b
  | .predicate expression => expression.eval row ≠ .bool b
  | .and operands => if b then NeverAll row true operands else NeverAny row false operands
  | .or operands => if b then NeverAny row true operands else NeverAll row false operands
  | .not operand => Never row (!b) operand

def NeverAll (row : Row) (b : Bool) : List (Condition Regex) → Prop
  | [] => False
  | operand :: operands => Never row b operand ∨ NeverAll row b operands

def NeverAny (row : Row) (b : Bool) : List (Condition Regex) → Prop
  | [] => True
  | operand :: operands => Unmatched catalog (likesAll operands) ∨
      Never row b operand ∧ (Unmatched catalog (likes operand) ∨ NeverAny row b operands)

end

mutual

/-- Exactly one choice gives the condition the value `b`. -/
def Once (row : Row) (b : Bool) : Condition Regex → Prop
  | .like operand regex => ∃ code, operand.eval row = .int code ∧
      ∃! other, other ∈ catalog.codes operand regex ∧ decide (other = code) = b
  | .predicate expression => expression.eval row = .bool b
  | .and operands => if b then OnceAll row true operands else OnceAny row false operands
  | .or operands => if b then OnceAny row true operands else OnceAll row false operands
  | .not operand => Once row (!b) operand

def OnceAll (row : Row) (b : Bool) : List (Condition Regex) → Prop
  | [] => True
  | operand :: operands => Once row b operand ∧ OnceAll row b operands

def OnceAny (row : Row) (b : Bool) : List (Condition Regex) → Prop
  | [] => False
  | operand :: operands =>
    Once row b operand ∧ Single catalog (likesAll operands) ∧
        (Single catalog (likes operand) ∨ NeverAny catalog row b operands) ∨
      Never catalog row b operand ∧ Single catalog (likes operand) ∧ OnceAny row b operands

end

end Condition

variable {catalog}

open Condition

/-! The number of choices, and of those with a value. -/

theorem outcomesAll_length {r : Row} {ops : List (Condition Regex)}
    (he : ∀ op ∈ ops, (outcomes catalog r op).length =
      ((likes op).map fun l => (catalog.codes l.1 l.2).length).prod) :
    (outcomesAll catalog r ops).length =
      ((likesAll ops).map fun l => (catalog.codes l.1 l.2).length).prod := by
  induction ops with
  | nil => rfl
  | cons op ops ih =>
    rw [List.forall_mem_cons] at he
    rw [outcomesAll, likesAll, List.map_append, List.prod_append, ← he.1, ← ih he.2]
    simp [List.length_flatMap]

theorem outcomes_length (r : Row) (c : Condition Regex) : (outcomes catalog r c).length =
      ((likes c).map fun l => (catalog.codes l.1 l.2).length).prod := by
  induction c using Condition.induct with
  | like op re => simp [outcomes, likes]
  | predicate e => rfl
  | and ops ih | or ops ih =>
    rw [outcomes, List.length_map]
    exact outcomesAll_length ih
  | not op ih =>
    rw [outcomes, List.length_map]
    exact ih

theorem single_iff (ls : List (Rex × Regex)) :
    Single catalog ls ↔ (ls.map fun l => (catalog.codes l.1 l.2).length).prod = 1 := by
  induction ls with
  | nil => simp [Single]
  | cons l ls ih =>
    rw [List.map_cons, List.prod_cons, mul_eq_one, ← ih, Single, List.forall_mem_cons]
    rfl

theorem unmatched_iff (ls : List (Rex × Regex)) :
    Unmatched catalog ls ↔ (ls.map fun l => (catalog.codes l.1 l.2).length).prod = 0 := by
  rw [Unmatched, List.prod_eq_zero_iff]
  simp only [List.mem_map, List.length_eq_zero_iff]

def timesAll (catalog : Catalog Column Regex Text) (row : Row) (b : Bool)
    (operands : List (Condition Regex)) : Nat :=
  (outcomesAll catalog row operands).countP fun values => decide (∀ value ∈ values, value = .bool b)

def timesAny (catalog : Catalog Column Regex Text) (row : Row) (b : Bool)
    (operands : List (Condition Regex)) : Nat :=
  (outcomesAll catalog row operands).countP fun values => decide (.bool b ∈ values)

def times (catalog : Catalog Column Regex Text) (row : Row) (b : Bool)
    (condition : Condition Regex) : Nat :=
  (outcomes catalog row condition).count (.bool b)

section

variable {r : Row} {b : Bool} {op : Condition Regex} {ops : List (Condition Regex)}

theorem times_le : times catalog r b op ≤ (outcomes catalog r op).length := List.count_le_length

theorem timesAny_le : timesAny catalog r b ops ≤ (outcomesAll catalog r ops).length :=
  List.countP_le_length

theorem timesAll_cons : timesAll catalog r b (op :: ops) =
    times catalog r b op * timesAll catalog r b ops := by
  unfold times timesAll
  rw [outcomesAll]
  generalize outcomesAll catalog r ops = tl
  induction outcomes catalog r op with
  | nil => simp
  | cons v vs ih =>
    rw [List.flatMap_cons, List.countP_append, ih, List.countP_map, List.count_cons, add_mul,
      add_comm]
    by_cases hs : v = .bool b
    · simp [hs, Function.comp_def]
    · simp [hs, Function.comp_def]

theorem timesAny_cons : timesAny catalog r b (op :: ops) =
    times catalog r b op * (outcomesAll catalog r ops).length +
      ((outcomes catalog r op).length - times catalog r b op) * timesAny catalog r b ops := by
  unfold times timesAny
  rw [outcomesAll]
  generalize outcomesAll catalog r ops = tl
  induction outcomes catalog r op with
  | nil => simp
  | cons v vs ih =>
    rw [List.flatMap_cons, List.countP_append, ih, List.countP_map, List.count_cons,
      List.length_cons]
    by_cases hs : v = .bool b
    · simp [hs, Function.comp_def, Nat.add_mul]
      omega
    · have ho : .bool b ≠ v := Ne.symm hs
      have hm : vs.length + 1 - vs.count (.bool b) = vs.length - vs.count (.bool b) + 1 :=
        Nat.succ_sub List.count_le_length
      simp [hs, ho, Function.comp_def, Nat.add_mul, hm]
      omega

theorem times_and (b : Bool) : times catalog r b (.and ops) =
    if b then timesAll catalog r true ops else timesAny catalog r false ops := by
  unfold times timesAll timesAny
  rw [outcomes, List.count_eq_countP, List.countP_map]
  cases b with
  | false => exact List.countP_congr fun vs _ => by simp [and_apply_false]
  | true => exact List.countP_congr fun vs _ => by simp [and_apply_true]

theorem times_or (b : Bool) : times catalog r b (.or ops) =
    if b then timesAny catalog r true ops else timesAll catalog r false ops := by
  unfold times timesAll timesAny
  rw [outcomes, List.count_eq_countP, List.countP_map]
  cases b with
  | false => exact List.countP_congr fun vs _ => by simp [or_apply_false]
  | true => exact List.countP_congr fun vs _ => by simp [or_apply_true]

theorem times_not (b : Bool) : times catalog r b (.not op) = times catalog r (!b) op := by
  unfold times
  rw [outcomes, List.count_eq_countP, List.countP_map, List.count_eq_countP]
  exact List.countP_congr fun v _ => by simp [not_apply]

theorem timesAny_eq_zero {few all f tl : Nat} (hb : few ≤ all) (hl : f ≤ tl) :
    few * tl + (all - few) * f = 0 ↔ tl = 0 ∨ few = 0 ∧ (all = 0 ∨ f = 0) := by
  rw [Nat.add_eq_zero_iff, Nat.mul_eq_zero, Nat.mul_eq_zero]
  omega

theorem timesAny_eq_one {few all f tl : Nat} (hb : few ≤ all) (hl : f ≤ tl) :
    few * tl + (all - few) * f = 1 ↔
      few = 1 ∧ tl = 1 ∧ (all = 1 ∨ f = 0) ∨ few = 0 ∧ all = 1 ∧ f = 1 := by
  rw [Nat.add_eq_one_iff, mul_eq_one, mul_eq_one, Nat.mul_eq_zero, Nat.mul_eq_zero]
  omega

end

theorem countP_eq_one_iff {cs : List Int} (hn : cs.Nodup) (t : Int → Bool) :
    cs.countP t = 1 ↔ ∃! c, c ∈ cs ∧ t c = true := by
  rw [List.countP_eq_length_filter, List.length_eq_one_iff]
  refine ⟨?_, ?_⟩
  · rintro ⟨c, ho⟩
    refine ⟨c, List.mem_filter.mp (by simp [ho]), fun o hf => ?_⟩
    simpa [ho] using List.mem_filter.mpr hf
  · rintro ⟨c, hf, hu⟩
    refine ⟨c, List.perm_singleton.mp
        ((List.perm_ext_iff_of_nodup (hn.filter _) (List.nodup_singleton _)).mpr
      fun o => ?_)⟩
    rw [List.mem_filter, List.mem_singleton]
    exact ⟨hu o, fun hs => hs ▸ hf⟩

theorem times_like (r : Row) (b : Bool) (op : Rex) (re : Regex) :
    times catalog r b (.like op re) = (catalog.codes op re).countP fun o =>
      SqlKind.equals.apply [op.eval r, .int o] = .bool b := by
  unfold times
  rw [outcomes, List.count_eq_countP, List.countP_map]
  rfl

theorem neverAll_iff {r : Row} {b : Bool} {ops : List (Condition Regex)}
    (he : ∀ op ∈ ops, ∀ b, Never catalog r b op ↔ times catalog r b op = 0) :
    NeverAll catalog r b ops ↔ timesAll catalog r b ops = 0 := by
  induction ops with
  | nil => simp [NeverAll, timesAll, outcomesAll]
  | cons op ops ih =>
    rw [List.forall_mem_cons] at he
    rw [NeverAll, timesAll_cons, mul_eq_zero, he.1, ih he.2]

theorem neverAny_iff {r : Row} {b : Bool} {ops : List (Condition Regex)}
    (he : ∀ op ∈ ops, ∀ b, Never catalog r b op ↔ times catalog r b op = 0) :
    NeverAny catalog r b ops ↔ timesAny catalog r b ops = 0 := by
  induction ops with
  | nil => simp [NeverAny, timesAny, outcomesAll]
  | cons op ops ih =>
    rw [List.forall_mem_cons] at he
    rw [NeverAny, timesAny_cons, timesAny_eq_zero times_le timesAny_le, he.1, ih he.2,
      unmatched_iff, unmatched_iff,
      ← outcomes_length r, ← outcomesAll_length fun o _ => outcomes_length r o]

/-- **Never**, by the operands of the condition. -/
theorem never_iff (r : Row) (c : Condition Regex) :
    ∀ b, Never catalog r b c ↔ times catalog r b c = 0 := by
  induction c using Condition.induct with
  | like op re =>
    intro b
    rw [times_like, List.countP_eq_zero, Never]
    simp only [decide_eq_true_eq, equals_apply, not_exists, not_and]
    exact ⟨fun hn o hm co hs => hn co hs o hm, fun hn co hs o hm => hn o hm co hs⟩
  | predicate e =>
    intro b
    rw [Never, times, outcomes, List.count_eq_zero, List.mem_singleton, eq_comm]
  | and ops ih =>
    intro b
    rw [times_and, Never]
    cases b with
    | false => exact neverAny_iff ih
    | true => exact neverAll_iff ih
  | or ops ih =>
    intro b
    rw [times_or, Never]
    cases b with
    | false => exact neverAll_iff ih
    | true => exact neverAny_iff ih
  | not op ih =>
    intro b
    rw [times_not, Never]
    exact ih _

theorem onceAll_iff {r : Row} {b : Bool} {ops : List (Condition Regex)}
    (he : ∀ op ∈ ops, ∀ b, Once catalog r b op ↔ times catalog r b op = 1) :
    OnceAll catalog r b ops ↔ timesAll catalog r b ops = 1 := by
  induction ops with
  | nil => simp [OnceAll, timesAll, outcomesAll]
  | cons op ops ih =>
    rw [List.forall_mem_cons] at he
    rw [OnceAll, timesAll_cons, mul_eq_one, he.1, ih he.2]

theorem onceAny_iff {r : Row} {b : Bool} {ops : List (Condition Regex)}
    (he : ∀ op ∈ ops, ∀ b, Once catalog r b op ↔ times catalog r b op = 1) :
    OnceAny catalog r b ops ↔ timesAny catalog r b ops = 1 := by
  induction ops with
  | nil => simp [OnceAny, timesAny, outcomesAll]
  | cons op ops ih =>
    rw [List.forall_mem_cons] at he
    rw [OnceAny, timesAny_cons, timesAny_eq_one times_le timesAny_le, he.1, ih he.2, never_iff,
      neverAny_iff fun o _ => never_iff r o, single_iff, single_iff, ← outcomes_length r,
      ← outcomesAll_length fun o _ => outcomes_length r o]

/-- **Once**, by the operands of the condition. -/
theorem once_iff (r : Row) (c : Condition Regex) :
    ∀ b, Once catalog r b c ↔ times catalog r b c = 1 := by
  induction c using Condition.induct with
  | like op re =>
    intro b
    rw [times_like, countP_eq_one_iff (catalog.codes_nodup op re), Once]
    simp only [decide_eq_true_eq, equals_apply]
    refine ⟨?_, ?_⟩
    · rintro ⟨co, hs, o, ⟨hm, he⟩, hu⟩
      refine ⟨o, ⟨hm, co, hs, he⟩, ?_⟩
      rintro a ⟨another_member, own, own_same, own_equal⟩
      obtain rfl := Value.int.inj (hs.symm.trans own_same)
      exact hu a ⟨another_member, own_equal⟩
    · rintro ⟨o, ⟨hm, co, hs, he⟩, hu⟩
      exact ⟨co, hs, o, ⟨hm, he⟩, fun a hf =>
        hu a ⟨hf.1, co, hs, hf.2⟩⟩
  | predicate e =>
    intro b
    rw [Once, times, outcomes, List.count_singleton]
    simp
  | and ops ih =>
    intro b
    rw [times_and, Once]
    cases b with
    | false => exact onceAny_iff ih
    | true => exact onceAll_iff ih
  | or ops ih =>
    intro b
    rw [times_or, Once]
    cases b with
    | false => exact onceAll_iff ih
    | true => exact onceAny_iff ih
  | not op ih =>
    intro b
    rw [times_not, Once]
    exact ih _

/-- Exactly one choice makes the condition true for an accepted row, and none for the others. -/
def Condition.Settled (catalog : Catalog Column Regex Text) (row : Row)
    (condition : Condition Regex) : Prop :=
  if condition.eval catalog row = .bool true then condition.Once catalog row true
  else condition.Never catalog row true

theorem settled_iff (r : Row) (c : Condition Regex) : c.Settled catalog r ↔
    times catalog r true c = if c.eval catalog r = .bool true then 1 else 0 := by
  unfold Condition.Settled
  split_ifs
  · exact once_iff r c true
  · exact never_iff r c true

/-! Where every `LIKE` is under `AND` alone. -/

inductive Condition.Conjunctive : Condition Regex → Prop
  | like (operand : Rex) (regex : Regex) : Conjunctive (.like operand regex)
  | plain {condition : Condition Regex} (none : condition.likes = []) : Conjunctive condition
  | and {operands : List (Condition Regex)} (each : ∀ operand ∈ operands, Conjunctive operand) :
      Conjunctive (.and operands)

theorem outcomesAll_plain {r : Row} {ops : List (Condition Regex)} (hn : likesAll ops = [])
    (he : ∀ op ∈ ops, op.likes = [] → outcomes catalog r op = [op.eval catalog r]) :
    outcomesAll catalog r ops = [evalAll catalog r ops] := by
  induction ops with
  | nil => rfl
  | cons op ops ih =>
    rw [List.forall_mem_cons] at he
    obtain ⟨hf, hr⟩ := List.append_eq_nil_iff.mp hn
    rw [outcomesAll, he.1 hf, ih hr he.2]
    rfl

theorem outcomes_plain (r : Row) (c : Condition Regex) :
    c.likes = [] → outcomes catalog r c = [c.eval catalog r] := by
  induction c using Condition.induct with
  | like op re => exact fun hn => nomatch hn
  | predicate e => exact fun _ => rfl
  | and ops ih | or ops ih =>
    intro hn
    rw [outcomes, outcomesAll_plain hn ih]
    rfl
  | not op ih =>
    intro hn
    rw [outcomes, ih hn]
    rfl

variable (r : Row) (op : Rex) (re : Regex)

theorem like_eval : (Condition.like op re).eval catalog r = .bool true ↔
      ∃ c ∈ catalog.codes op re, op.eval r = .int c := by
  rw [Condition.eval]
  cases op.eval r with
  | null | bool v => simp [Catalog.like]
  | int c =>
    simp only [Catalog.like, Value.bool.injEq, Option.any_eq_true, Value.int.injEq,
      exists_eq_right', Catalog.codes,
      catalog.mem_dictTableScan]

theorem times_like_true : times catalog r true (.like op re) =
      if (Condition.like op re).eval catalog r = .bool true then 1 else 0 := by
  split_ifs with ha
  · obtain ⟨c, hm, hs⟩ := (like_eval r op re).mp ha
    refine (once_iff r _ true).mp ⟨c, hs, c, ⟨hm, decide_eq_true rfl⟩, fun o hf => ?_⟩
    exact of_decide_eq_true hf.2
  · refine (never_iff r _ true).mp fun c hs o hm he => ha ?_
    exact (like_eval r op re).mpr ⟨c, of_decide_eq_true he ▸ hm, hs⟩

theorem timesAll_true {r : Row} {ops : List (Condition Regex)}
    (he : ∀ op ∈ ops, times catalog r true op = if op.eval catalog r = .bool true then 1 else 0) :
    timesAll catalog r true ops = if ∀ v ∈ evalAll catalog r ops, v = .bool true
      then 1 else 0 := by
  induction ops with
  | nil => rfl
  | cons op ops ih =>
    rw [List.forall_mem_cons] at he
    rw [timesAll_cons, he.1, ih he.2, evalAll, ite_zero_mul_ite_zero, mul_one]
    simp only [List.forall_mem_cons]

/-- **Under `AND` alone every row is settled**, so that there the plan answers the query. -/
theorem conjunctive_settled (r : Row) {c : Condition Regex} (hc : c.Conjunctive) :
    c.Settled catalog r := by
  rw [settled_iff]
  induction hc with
  | like op re => exact times_like_true r op re
  | @plain c hn =>
    rw [times, outcomes_plain r c hn, List.count_singleton]
    simp
  | @and ops he ih =>
    rw [times_and, if_pos rfl, timesAll_true ih]
    simp only [Condition.eval, and_apply_true]

end

/-- **The plan answers the query** exactly when every accepted row comes out once and every other
row never. -/
theorem replacement_preserves_iff {Column Regex Text : Type} (catalog : Catalog Column Regex Text)
    {filter : Filter Regex} {plan : RelNode Column Regex}
    (found : filter.onMatch catalog = some plan)
    {rows : List Row} (wide : ∀ row ∈ rows, row.length = filter.width) :
    (plan.eval catalog rows).Perm (filter.eval catalog rows) ↔ ∀ row ∈ rows,
        filter.condition.Settled catalog row := by
  rw [eval_replacement found wide, Filter.eval, flatMap_replicate_perm_iff]
  refine forall₂_congr fun row _ => ?_
  rw [settled_iff]
  simp [times]

/-! ### Three nations -/

def demoDictionary (code : Int) : Option (List Char) :=
  if code = 0 then some ['A', 's', 'i', 'a'] else if code = 1 then
    some ['A', 'f', 'r', 'i', 'c', 'a']
  else if code = 2 then some ['E', 'u', 'r', 'o', 'p', 'e'] else none

def demoCatalog : Catalog Unit (List Char) (List Char) where
  lineage _ := ()
  dictionary _ := demoDictionary
  isMatch regex text := regex.isPrefixOf text
  dictTableScan _ regex := [0, 1, 2].filter fun code => (demoDictionary code).any regex.isPrefixOf
  dictTableScan_nodup _ _ := List.Nodup.filter _ (by decide)
  mem_dictTableScan _ regex code := by
    rw [List.mem_filter, Option.any_eq_true]
    refine and_iff_right_of_imp ?_
    rintro ⟨text, there, -⟩
    unfold demoDictionary at there
    split_ifs at there <;> simp_all

def demoFilter (condition : Condition (List Char)) (inRange : ∀ index ∈ condition.refs, index < 1) :
    Filter (List Char) := ⟨1, condition, inRange⟩

/-- `name LIKE 'A%'`, which two codes match, under `AND`. -/
def beginsWithA : Filter (List Char) :=
  demoFilter (.and [.like (.inputRef 0) ['A'], .predicate (.literal (.bool true))]) (by decide)

/-- `NOT (name LIKE 'A%')`. -/
def doesNotBeginWithA : Filter (List Char) :=
  demoFilter (.not (.like (.inputRef 0) ['A'])) (by decide)

def demoRows : List Row := [[.int 0], [.int 2], [.null]]

theorem replacement_preserves_and : ∃ plan, beginsWithA.onMatch demoCatalog = some plan ∧
    (plan.eval demoCatalog demoRows).Perm (beginsWithA.eval demoCatalog demoRows) :=
  ⟨_, rfl, (replacement_preserves_iff demoCatalog rfl (by decide)).mpr fun r _ =>
    conjunctive_settled r (.and (by
      simp only [List.forall_mem_cons, List.not_mem_nil, false_implies, implies_true, and_true]
      exact ⟨.like _ _, .plain rfl⟩))⟩

/-- Europe does not begin with an A, in either of two ways. -/
theorem negated_like_repeats : ∃ plan, doesNotBeginWithA.onMatch demoCatalog = some plan ∧
    ¬ (plan.eval demoCatalog demoRows).Perm (doesNotBeginWithA.eval demoCatalog demoRows) :=
  ⟨_, rfl, by decide⟩

end Proteus.Planner
