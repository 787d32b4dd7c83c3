/-
**Pushing a projection below the unpack** (`PelagoProjectPushBelowUnpack.onMatch`).

The scan is narrowed to the fields that the projection reads, in order, and the references are moved
to their places among them. If the projection then is the identity by its looks, it is left out.

* `onMatch_rows` — the plan has the same rows.
-/

import Proteus.Planner.Rex

namespace Proteus.Planner.ProjectPushBelowUnpack

open List

/-! ### Plans -/

/-- `PelagoTableScan`: a block of rows for each of the table, with the fields in their order. -/
def scan (table : List (List Row)) (fields : List Nat) : List (List Row) :=
  table.map (·.map fun row => fields.map (row.getD · .null))

def unpack (blocks : List (List Row)) : List Row := blocks.flatten

def project (projects : List Rex) (rows : List Row) : List Row := rows.map fun row =>
    projects.map (Rex.eval row)

/-- A scan of the fields, unpacked, with a projection or without. -/
structure Plan where
  fields : List Nat
  projects : Option (List Rex)

def Plan.rows (table : List (List Row)) (plan : Plan) : List Row :=
  match plan.projects with
  | none => unpack (scan table plan.fields)
  | some projects => project projects (unpack (scan table plan.fields))

/-! ### The rule -/

section

variable (scanfields : List Nat) (projects : List Rex)

/-- The set of the references, in order. -/
def projects2 : List Nat := ((projects.flatMap Rex.refs).dedup).insertionSort (· ≤ ·)

def renumber (state : Nat × List Nat × List Int) (j : Nat) : Nat × List Nat × List Int :=
  let (i, fields, revfields) := state
  (i + 1, fields ++ [scanfields.getD j 0], revfields.set j (i - j))

def renumbered (referenced : List Nat) : Nat × List Nat × List Int :=
  referenced.foldl (renumber scanfields) (0, [], replicate scanfields.length 0)

/-- `RexInputConverter`. -/
def convert (adjustments : List Int) : Rex → Rex :=
  Rex.rename fun index => (index + adjustments.getD index 0).toNat

def isRef (j : Nat) : Rex → Bool
  | .inputRef index => index = j
  | _ => false

def onMatch : Plan :=
  let (_, fields, revfields) := renumbered scanfields (projects2 projects)
  let projs := projects.map (convert revfields)
  let isId := projs.zipIdx.all fun (p, j) => isRef j p
  ⟨fields, if isId then none else some projs⟩

end

/-! ### The new places -/

section

variable {ss r : List Nat}

theorem foldl_renumber (hd : r.Nodup) (s : Nat) (fs : List Nat) (rs : List Int)
    (low : ∀ j ∈ r, j < rs.length) :
    ∃ a : List Int, r.foldl (renumber ss) (s, fs, rs) =
        (s + r.length, fs ++ r.map (ss.getD · 0), a) ∧
      a.length = rs.length ∧ (∀ j ∉ r, a.getD j 0 = rs.getD j 0) ∧
      ∀ k (hs : k < r.length), a.getD r[k] 0 = (s + k : Nat) - r[k] := by
  induction r generalizing s fs rs with
  | nil => exact ⟨rs, by simp, rfl, fun _ _ => rfl, fun _ hs => nomatch hs⟩
  | cons j tl ih =>
    obtain ⟨hfr, hd⟩ := nodup_cons.mp hd
    obtain ⟨a, hfo, hl, hf, hp⟩ := ih hd (s + 1) (fs ++ [ss.getD j 0])
      (rs.set j (s - j)) fun o hm => by
        rw [length_set]
        exact low o (mem_cons_of_mem _ hm)
    refine ⟨a, ?_, hl.trans (length_set ..), ?_, ?_⟩
    · rw [foldl_cons, renumber, hfo]
      simp [Nat.add_assoc, Nat.add_comm 1]
    · intro o ho
      rw [mem_cons, not_or] at ho
      rw [hf o ho.2]
      grind
    · intro k hs
      cases k with
      | zero =>
        rw [getElem_cons_zero, hf j hfr]
        have := low j mem_cons_self
        grind
      | succ k =>
        rw [getElem_cons_succ, hp k (Nat.lt_of_succ_lt_succ hs)]
        omega

/-- **The fields and the way to them.** -/
theorem renumbered_spec (hd : r.Nodup) (low : ∀ j ∈ r, j < ss.length) :
    (renumbered ss r).2.1 = r.map (ss.getD · 0) ∧ ∀ k (hs : k < r.length),
        ((r[k] : Int) + (renumbered ss r).2.2.getD r[k] 0).toNat = k := by
  obtain ⟨a, hf, -, -, hp⟩ := @foldl_renumber ss r hd 0 []
    (replicate ss.length 0) (by simpa using low)
  rw [renumbered, hf]
  refine ⟨rfl, fun k hs => ?_⟩
  rw [hp k hs]
  omega

end

section

variable {j : Nat} {e : Rex}

theorem eq_inputRef_of_isRef {ps : Nat → Nat} (ref : isRef j (e.rename ps)) :
    ∃ i, e = .inputRef i ∧ ps i = j := by
  cases e with
  | inputRef i => exact ⟨i, rfl, of_decide_eq_true ref⟩
  | literal v | call k ops => cases ref

theorem eval_of_isRef (ref : isRef j e) (r : Row) : e.eval r = r.getD j .null := by
  cases e with
  | inputRef i => rw [Rex.eval, of_decide_eq_true ref]
  | literal v | call k ops => cases ref

variable {ss : List Nat} {ps : List Rex}

theorem mem_projects2 : j ∈ projects2 ps ↔ ∃ e ∈ ps, j ∈ e.refs := by
  rw [projects2, (perm_insertionSort ..).mem_iff, mem_dedup, mem_flatMap]

theorem nodup_projects2 : (projects2 ps).Nodup :=
  (perm_insertionSort ..).nodup_iff.mpr (nodup_dedup _)

variable (bound : ∀ e ∈ ps, ∀ j ∈ e.refs, j < ss.length)

include bound

theorem projects2_low : ∀ j ∈ projects2 ps, j < ss.length := fun j hr => by
  obtain ⟨r, ht, refs⟩ := mem_projects2.mp hr
  exact bound r ht j refs

/-- **The moved projection** on a narrowed row. -/
theorem eval_convert (hm : e ∈ ps) (r : Row) : (convert (renumbered ss (projects2 ps)).2.2 e).eval
        (((renumbered ss (projects2 ps)).2.1).map (r.getD · .null)) =
      e.eval (ss.map (r.getD · .null)) := by
  obtain ⟨hf, hp⟩ := renumbered_spec nodup_projects2 (projects2_low bound)
  refine Rex.eval_rename fun j hr => ?_
  obtain ⟨k, hs, rfl⟩ := mem_iff_getElem.mp (mem_projects2.mpr ⟨e, hm, hr⟩)
  have low := bound e hm _ hr
  rw [hp k hs, hf]
  grind

/-- **An identity by its looks** reads as many fields as it has expressions. -/
theorem length_projects2 (hi : ∀ j (hs : j < ps.length),
    isRef j (convert (renumbered ss (projects2 ps)).2.2 ps[j])) :
    (projects2 ps).length = ps.length := by
  obtain ⟨-, hp⟩ := renumbered_spec nodup_projects2 (projects2_low bound)
  -- the `j`th expression is a reference to the `j`th field that is read
  have hre (j : Nat) (hs : j < ps.length) :
      ∃ low : j < (projects2 ps).length, ps[j] = .inputRef (projects2 ps)[j] := by
    obtain ⟨i, hso, hmv⟩ := eq_inputRef_of_isRef (hi j hs)
    have hr : i ∈ ps[j].refs := by
      rw [hso]
      exact mem_cons_self
    obtain ⟨k, low, rfl⟩ := mem_iff_getElem.mp (mem_projects2.mpr ⟨_, getElem_mem hs, hr⟩)
    rw [hp k low] at hmv
    subst hmv
    exact ⟨low, hso⟩
  refine le_antisymm (Nat.le_of_not_lt fun hmo => ?_) (Nat.le_of_not_lt fun hf => ?_)
  · obtain ⟨e, hm, hr⟩ := mem_projects2.mp (getElem_mem hmo)
    obtain ⟨j, hs, rfl⟩ := mem_iff_getElem.mp hm
    obtain ⟨low, hso⟩ := hre j hs
    rw [hso, Rex.refs, mem_singleton, nodup_projects2.getElem_inj_iff] at hr
    omega
  · obtain ⟨low, -⟩ := hre _ hf
    exact low.false

end

/-- **The pushed projection** has the same rows, in the same order. -/
theorem onMatch_rows (table : List (List Row)) (scanfields : List Nat) (projects : List Rex)
    (bound : ∀ expression ∈ projects, ∀ j ∈ expression.refs, j < scanfields.length) :
    (onMatch scanfields projects).rows table = project projects
    (unpack (scan table scanfields)) := by
  have hf (fs : List Nat) : unpack (scan table fs) =
      table.flatten.map fun r => fs.map (r.getD · .null) := by
    rw [unpack, scan, map_flatten]
  have hmo (r : Row) := map_congr_left fun (expression : Rex) hm => eval_convert bound hm r
  rw [onMatch]
  dsimp only
  split
  · rename_i hi
    have refs (j : Nat) (hs : j < projects.length) :
        isRef j (convert (renumbered scanfields (projects2 projects)).2.2 projects[j]) := by
      simpa using all_eq_true.mp hi (_, j) (by simp [mk_mem_zipIdx_iff_getElem?, hs])
    have hw := congrArg length (renumbered_spec nodup_projects2 (projects2_low bound)).1
    rw [length_map, length_projects2 bound refs] at hw
    simp only [Plan.rows, hf, project, map_map]
    refine map_congr_left fun r _ => ?_
    rw [Function.comp_apply, ← hmo]
    refine ext_getElem (by simpa using hw) fun j hs low => ?_
    rw [length_map] at low
    rw [getElem_map, getElem_map (h := by simpa using low), eval_of_isRef (refs j low)]
    simp_all
  · simp only [Plan.rows, hf, project, map_map]
    refine map_congr_left fun r _ => ?_
    simpa using hmo r

theorem onMatch_rows_swapped :
    (onMatch [3, 1, 2] [.inputRef 2, .call .plus [.inputRef 0, .inputRef 2]]).rows
    [[[.int 5, .int 6, .int 7, .int 8]]] = [[.int 7, .int 15]] :=
  onMatch_rows [[[.int 5, .int 6, .int 7, .int 8]]] [3, 1, 2]
    [.inputRef 2, .call .plus [.inputRef 0, .inputRef 2]]
    (by decide)

end Proteus.Planner.ProjectPushBelowUnpack
