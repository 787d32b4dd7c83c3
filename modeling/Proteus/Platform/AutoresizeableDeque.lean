/-
**The auto-resizing deque** (`platform/network/infiniband/infiniband-handler.hpp`).

A deque of pages with two directories of them. `at(i)` takes no lock when it finds `i` below `size`:
it loads which directory is active and indexes that one. `resize` extends the inactive directory,
makes it the active one, adds to `size` and then extends the other.

* `step_deque` — what each step keeps: both directories list the pages in the order of their
  allocation, and the active one covers `size` with pages that are built.
* `at_stable` — the calls of `at`, in every interleaving.
-/

import Proteus.Library.Reachable

namespace Proteus.Platform

open Library List Function

/-- `dqpage` -/
def dqpage : Nat := 1024

inductive AtPhase where
  | idle
  | locking (i : Nat)
  | resizing (i : Nat)
  | loading (i : Nat)
  | indexing (i : Nat) (directory : Bool)

inductive ResizePhase where
  | testing
  | building (newActive : Bool)
  | switching (newActive : Bool)
  | growing (newActive : Bool)
  | sharing (newActive : Bool)

/-- The page, by the number of its allocation, and the place in it. -/
abbrev ElementRef := Nat × Nat

structure AutoresizeableDeque (ι α : Type) where
  active : Bool := false
  size : Nat := 0
  data : Bool → List Nat := fun _ => []
  pages : Nat → List α := fun _ => []
  allocated : Nat := 0
  resizing : Option (ι × Nat × ResizePhase) := none
  threads : ι → AtPhase := fun _ => .idle
  returned : List (Nat × Option ElementRef) := []

inductive DequeAction (ι : Type) where
  | call (thread : ι) (i : Nat)
  | lock (thread : ι)
  | resize
  | load (thread : ι)
  | index (thread : ι)

namespace AutoresizeableDeque

variable {ι α : Type} [DecidableEq ι] (f : Nat → α) (state : AutoresizeableDeque ι α)

def goto (thread : ι) (phase : AtPhase) : AutoresizeableDeque ι α :=
  { state with threads := Function.update state.threads thread phase }

/-- `(*data[active][i / dqpage])[i % dqpage]`, of the directory that was loaded -/
def access (directory : Bool) (i : Nat) : Option ElementRef := do
  let page ← (state.data directory)[i / dqpage]?
  if i % dqpage < (state.pages page).length then some (page, i % dqpage) else none

def resize (thread : ι) (i : Nat) : ResizePhase → AutoresizeableDeque ι α
  | .testing =>
    if state.size ≤ i then
      { state with
        data := Function.update state.data (!state.active)
          (state.data (!state.active) ++ [state.allocated])
        allocated := state.allocated + 1
        resizing := some (thread, i, .building !state.active) }
    else { state with resizing := none }.goto thread (.loading i)
  | .building newActive =>
    { state with
      pages := Function.update state.pages ((state.data newActive).getLastD 0)
        ((List.range dqpage).map fun j => f ((state.size + j) % 2 ^ 64))
      resizing := some (thread, i, .switching newActive) }
  | .switching newActive =>
      { state with active := newActive, resizing := some (thread, i, .growing newActive) }
  | .growing newActive =>
    { state with size := (state.size + dqpage) % 2 ^ 64, resizing := some (thread,
      i, .sharing newActive) }
  | .sharing newActive =>
    { state with
      data := Function.update state.data (!newActive)
        (state.data (!newActive) ++ [(state.data newActive).getLastD 0])
      resizing := some (thread, i, .testing) }

def step : DequeAction ι → Option (AutoresizeableDeque ι α)
  | .call thread i =>
    match state.threads thread with
    | .idle => some (state.goto thread (if state.size ≤ i then .locking i else .loading i))
    | _ => none
  | .lock thread =>
    match state.threads thread, state.resizing with
    | .locking i, none =>
        some ({ state with resizing := some (thread, i, .testing) }.goto thread (.resizing i))
    | _, _ => none
  | .resize => state.resizing.map fun (thread, i, phase) => state.resize f thread i phase
  | .load thread =>
    match state.threads thread with
    | .loading i => some (state.goto thread (.indexing i state.active))
    | _ => none
  | .index thread =>
    match state.threads thread with
    | .indexing i directory =>
      some ({ state with returned := state.returned ++ [(i, state.access directory i)] }.goto thread
        .idle)
    | _ => none

end AutoresizeableDeque

/-- A deque that any threads use. -/
def autoresizeableDeque (ι : Type) [DecidableEq ι] {α : Type} (f : Nat → α) :
    Machine (AutoresizeableDeque ι α) (DequeAction ι) :=
  .ofStep (· = {}) fun state => state.step f

/-! ### What the readers rely on -/

section

variable {ι α : Type}

namespace AutoresizeableDeque

/-- The page is built. -/
def Built (state : AutoresizeableDeque ι α) (page : Nat) : Prop :=
    (state.pages page).length = dqpage

def Ahead (state : AutoresizeableDeque ι α) (newActive : Bool) (pages : Nat) : Prop :=
  state.allocated = pages + 1 ∧ state.data newActive = List.range (pages + 1) ∧
    state.data (!newActive) = List.range pages

def Directories (state : AutoresizeableDeque ι α) : Option (ι × Nat × ResizePhase) → Prop
  | none | some (_, _, .testing) => ∀ directory, state.data directory = List.range state.allocated
  | some (_, _, .building newActive) => state.active = !newActive ∧ ∃ pages,
      state.Ahead newActive pages
  | some (_, _, .switching newActive) =>
    state.active = !newActive ∧ ∃ pages, state.Ahead newActive pages ∧ state.Built pages
  | some (_, _, .growing newActive) =>
    state.active = newActive ∧ ∃ pages, state.Ahead newActive pages ∧ state.size ≤ dqpage * pages
  | some (_, _, .sharing newActive) => state.active = newActive ∧ ∃ pages,
      state.Ahead newActive pages

/-- What a call has seen stays. -/
def Covered (state : AutoresizeableDeque ι α) : AtPhase → Prop
  | .loading i => i / dqpage < (state.data state.active).length
  | .indexing i directory => i / dqpage < (state.data directory).length ∧ state.Built (i / dqpage)
  | _ => True

end AutoresizeableDeque

structure DequeInv (state : AutoresizeableDeque ι α) : Prop where
  directories : state.Directories state.resizing
  built : ∀ page < (state.data state.active).length, state.Built page
  size : state.size ≤ dqpage * (state.data state.active).length
  covered : ∀ thread, state.Covered (state.threads thread)
  returned : ∀ call ∈ state.returned, call.2 = some (call.1 / dqpage, call.1 % dqpage)

variable {s af : AutoresizeableDeque ι α} {di : Bool} {t : ι}

theorem DequeInv.getElem?_data (inv : DequeInv s) {p : Nat}
    (hi : p < (s.data di).length) : (s.data di)[p]? = some p := by
  have hr : ∃ ps, s.data di = List.range ps := by
    have hd := inv.directories
    have ha : ∀ {na ps}, s.Ahead na ps → ∃ ps, s.data di = List.range ps := by
      intro na ps ⟨_, hl, hs⟩
      rcases Bool.eq_or_eq_not di na with rfl | rfl
      · exact ⟨_, hl⟩
      · exact ⟨_, hs⟩
    rcases hp : s.resizing with _ | ⟨_, _, _ | na | na | na | na⟩ <;> rw [hp] at hd
    · exact ⟨_, hd di⟩
    · exact ⟨_, hd di⟩
    · exact ha hd.2.choose_spec
    · exact ha hd.2.choose_spec.1
    · exact ha hd.2.choose_spec.1
    · exact ha hd.2.choose_spec
  obtain ⟨ps, hr⟩ := hr
  rw [hr, length_range] at hi
  rw [hr, List.getElem?_range hi]

open AutoresizeableDeque

theorem DequeInv.access_eq (inv : DequeInv s) {i : Nat} (hc : s.Covered (.indexing i di)) :
    s.access di i = some (i / dqpage, i % dqpage) := by
  have hi : i % dqpage < (s.pages (i / dqpage)).length := by
    rw [hc.2]
    exact Nat.mod_lt _ (by decide)
  rw [access, inv.getElem?_data hc.1]
  exact if_pos hi

/-- **`resize` moves**: directories get longer and built pages stay. -/
theorem DequeInv.resized (inv : DequeInv s) (hd : af.Directories af.resizing)
    (hb : ∀ p < (af.data af.active).length, af.Built p)
    (hs : af.size ≤ dqpage * (af.data af.active).length)
    (hl : ∀ di, (s.data di).length ≤ (af.data di).length)
    (ha : (s.data s.active).length ≤ (af.data af.active).length)
    (hpa : ∀ p, s.Built p → af.Built p) (ht : af.threads = s.threads)
    (hr : af.returned = s.returned) : DequeInv af := by
  refine ⟨hd, hb, hs, fun t => ?_, hr ▸ inv.returned⟩
  have hc := inv.covered t
  rw [ht]
  cases hp : s.threads t <;> rw [hp] at hc
  case loading i => exact hc.trans_le ha
  case indexing i di => exact ⟨hc.1.trans_le (hl di), hpa _ hc.2⟩
  all_goals trivial

theorem length_le_update (d : Bool → List Nat) (di o : Bool) (ps : List Nat) :
    (d o).length ≤ (update d di (d di ++ ps) o).length := by
  rcases eq_or_ne o di with rfl | hd
  · simp
  · rw [update_of_ne hd]

variable [DecidableEq ι]

/-- **A call moves** to where it is covered. -/
theorem DequeInv.goto (inv : DequeInv s) {p : AtPhase} (hc : s.Covered p) : DequeInv (s.goto t p) :=
  ⟨inv.directories, inv.built, inv.size, (forall_update_iff s.threads fun _ p => s.Covered p).mpr
      ⟨hc, fun o _ => inv.covered o⟩,
    inv.returned⟩

theorem resize_deque (f : Nat → α) (inv : DequeInv s) {i : Nat} {p : ResizePhase}
    (hre : s.resizing = some (t, i, p)) : DequeInv (s.resize f t i p) := by
  have hdi := inv.directories
  rw [hre] at hdi
  cases p with
  | testing =>
    replace hdi : ∀ di, s.data di = List.range s.allocated := hdi
    rw [resize]
    split_ifs with hsh
    · refine inv.resized ⟨(Bool.not_not _).symm, s.allocated, rfl, ?_, ?_⟩ ?_ ?_ ?_ ?_
        (fun _ => id) rfl rfl
      · simp [hdi, range_succ]
      · simp [hdi]
      · simpa [AutoresizeableDeque.Built] using inv.built
      · simpa using inv.size
      · exact fun di => length_le_update ..
      · simp
    · have hr : DequeInv { s with resizing := none } :=
        inv.resized hdi inv.built inv.size (fun _ => le_rfl) le_rfl (fun _ => id) rfl rfl
      exact hr.goto (Nat.div_lt_of_lt_mul (lt_of_lt_of_le (not_le.mp hsh) inv.size))
  | building na =>
    obtain ⟨ha, ps, hal, hlo, hsr⟩ := hdi
    have hl : (s.data na).getLastD 0 = ps := by simp [hlo, range_succ]
    have hb : ∀ pa, s.Built pa ∨ pa = ps → (s.resize f t i (.building na)).Built pa := by
      intro pa old
      simp only [AutoresizeableDeque.Built, resize, hl]
      rcases eq_or_ne pa ps with rfl | hd
      · simp
      · rw [update_of_ne hd]
        exact old.resolve_right hd
    exact inv.resized ⟨ha, ps, ⟨hal, hlo, hsr⟩, hb ps (.inr rfl)⟩
      (fun pa hi => hb pa (.inl (inv.built pa hi))) inv.size (fun _ => le_rfl) le_rfl
      (fun pa old => hb pa (.inl old)) rfl rfl
  | switching na =>
    obtain ⟨ha, ps, ⟨hal, hlo, hsr⟩, new⟩ := hdi
    have hfu := inv.built
    have hs := inv.size
    rw [ha, hsr, length_range] at hfu hs
    refine inv.resized ⟨rfl, ps, ⟨hal, hlo, hsr⟩, hs⟩ ?_ ?_ (fun _ => le_rfl) ?_ (fun _ => id)
      rfl rfl
    · simp only [resize, hlo, length_range]
      intro pa hi
      rcases Nat.lt_succ_iff_lt_or_eq.mp hi with hi | rfl
      · exact hfu pa hi
      · exact new
    · simp only [resize, hlo, length_range]
      exact hs.trans (Nat.mul_le_mul_left _ (Nat.le_succ _))
    · simp [resize, ha, hlo, hsr]
  | growing na =>
    obtain ⟨ha, ps, ⟨hal, hlo, hsr⟩, hs⟩ := hdi
    have hf :=
      calc (s.size + dqpage) % 2 ^ 64 ≤ s.size + dqpage := Nat.mod_le _ _
        _ ≤ dqpage * ps + dqpage := Nat.add_le_add_right hs dqpage
        _ = dqpage * (ps + 1) := (Nat.mul_succ _ _).symm
    rw [resize]
    generalize (s.size + dqpage) % 2 ^ 64 = g at hf
    refine inv.resized ⟨ha, ps, hal, hlo, hsr⟩ inv.built ?_ (fun _ => le_rfl) le_rfl
      (fun _ => id) rfl rfl
    simpa only [ha, hlo, length_range] using hf
  | sharing na =>
    obtain ⟨rfl, ps, hal, hlo, hsr⟩ := hdi
    have hl : (s.data s.active).getLastD 0 = ps := by simp [hlo, range_succ]
    refine inv.resized ?_ ?_ ?_ (fun di => length_le_update ..) ?_ (fun _ => id) rfl rfl
    · intro di
      simp only [resize, hl, hal]
      rcases Bool.eq_or_eq_not di s.active with rfl | rfl
      · simp [hlo]
      · simp [hsr, range_succ]
    · simpa [resize, AutoresizeableDeque.Built] using inv.built
    · simpa [resize] using inv.size
    · simp [resize]

/-- **One step.** -/
theorem step_deque (f : Nat → α) (inv : DequeInv s) {a : DequeAction ι}
    (ht : s.step f a = some af) : DequeInv af := by
  cases a with
  | call t i =>
    cases hp : s.threads t <;> simp only [step, hp, reduceCtorEq] at ht
    cases ht
    refine inv.goto ?_
    split_ifs with hs
    · trivial
    · exact Nat.div_lt_of_lt_mul (lt_of_lt_of_le (not_le.mp hs) inv.size)
  | lock t =>
    simp only [step] at ht
    split at ht
    case h_1 i _ hf =>
      cases ht
      have hd := inv.directories
      rw [hf] at hd
      have hl : DequeInv { s with resizing := some (t, i, .testing) } :=
        inv.resized hd inv.built inv.size (fun _ => le_rfl) le_rfl (fun _ => id) rfl rfl
      exact hl.goto trivial
    case h_2 => cases ht
  | resize =>
    obtain ⟨⟨t, i, hp⟩, hre, ⟨⟩⟩ := Option.map_eq_some_iff.mp ht
    exact resize_deque f inv hre
  | load t =>
    cases hp : s.threads t <;> simp only [step, hp, reduceCtorEq] at ht
    cases ht
    have hc := inv.covered t
    rw [hp] at hc
    exact inv.goto ⟨hc, inv.built _ hc⟩
  | index t =>
    simp only [step] at ht
    split at ht
    case h_1 i di hp =>
      cases ht
      have hc := inv.covered t
      rw [hp] at hc
      have hr : ∀ c ∈ s.returned ++ [(i, s.access di i)],
          c.2 = some (c.1 / dqpage, c.1 % dqpage) := by
        intro c hm
        rcases mem_append.mp hm with old | new
        · exact inv.returned c old
        · rw [mem_singleton.mp new]
          exact inv.access_eq hc
      have hlo : DequeInv { s with returned := s.returned ++ [(i, s.access di i)] } :=
        ⟨inv.directories, inv.built, inv.size, inv.covered, hr⟩
      exact hlo.goto trivial
    case h_2 => cases ht

end

/-- **The auto-resizing deque.** In every interleaving of any calls of `at`, an access is inside of
the directory that was loaded and of the page, two calls with the same index have returned the same
element and two with different indices different ones. -/
theorem at_stable {ι α : Type} [DecidableEq ι] {f : Nat → α} {state : AutoresizeableDeque ι α}
    (reached : (autoresizeableDeque ι f).Reachable state) :
    (∀ thread i directory, state.threads thread = .indexing i directory →
      i / dqpage < (state.data directory).length ∧ (state.access directory i).isSome) ∧
    (∀ call ∈ state.returned, call.2.isSome) ∧
    ∀ call ∈ state.returned, ∀ other ∈ state.returned, call.2 = other.2 ↔ call.1 = other.1 := by
  have inv : DequeInv state := reached.invariant DequeInv
    (by rintro _ rfl; exact ⟨fun _ => rfl, nofun, Nat.zero_le _, fun _ => trivial, nofun⟩)
    fun _ _ _ inv ht => step_deque f inv ht
  refine ⟨fun thread i directory hp => ?_, fun call hm => ?_, fun call hm other hm' => ?_⟩
  · have hc := inv.covered thread
    rw [hp] at hc
    exact ⟨hc.1, by rw [inv.access_eq hc]; rfl⟩
  · rw [inv.returned call hm]
    rfl
  · rw [inv.returned call hm, inv.returned other hm', Option.some_inj, Prod.mk.injEq]
    refine ⟨fun ⟨hpa, hpl⟩ => ?_, fun hs => by rw [hs]; exact ⟨rfl, rfl⟩⟩
    rw [← Nat.div_add_mod call.1 dqpage, hpa, hpl, Nat.div_add_mod]

/-- Two threads ask for elements of the first page. -/
theorem at_stable_two : ∃ state, (autoresizeableDeque (Fin 2) id).Reachable state ∧
    state.returned.map Prod.fst = [7, 9] ∧
    ∀ call ∈ state.returned, ∀ other ∈ state.returned, call.2 = other.2 ↔ call.1 = other.1 := by
  have run : ∃ state, (autoresizeableDeque (Fin 2) id).Run (fun _ _ => True)
    [.call 0 7, .lock 0, .resize, .resize,
      .resize, .resize, .call 1 9, .load 1, .resize, .resize, .load 0, .index 0, .index 1] state ∧
      state.returned.map Prod.fst = [7, 9] :=
    ⟨_, Machine.Run.of_follow _ (by exact rfl) (by exact rfl), by decide⟩
  obtain ⟨state, run, hc⟩ := run
  exact ⟨state, ⟨_, run⟩, hc, (at_stable ⟨_, run⟩).2.2⟩

end Proteus.Platform
