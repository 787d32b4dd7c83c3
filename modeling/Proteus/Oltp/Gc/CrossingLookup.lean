/-
**What the lookup across the delta stores returns.**

A search for a version goes through the runs of a record's live versions in a fixed order: the
head's run first, then the saved runs, store by store down the ring, and in each store the oldest
run first.

* `Placement.Ordered`, `run_ordered` — newer versions have greater stamps.
* `Represents.getVersionWithConsolidation_eq` — the search returns what it finds first among the
  runs in the order `Placement.visited`.
* `newest_found_iff` — this is the newest readable version exactly if it lies in the head's run, or
  if no older run with a readable version is visited before.
-/

import Proteus.Oltp.Gc.InstanceCrossing

namespace Proteus.Oltp.Gc.Crossing

open Proteus.Library Proteus.Oltp.Storage List Option

/-! ### Newer versions have greater stamps -/

structure Placement.Ordered (placement : Placement) : Prop where
  few : placement.versions.length ≤ placement.next
  descending : placement.versions.Pairwise fun newer older => older.tMin < newer.tMin
  below : ∀ version ∈ placement.versions, version.tMin < placement.tMin

variable {inserted i : Nat} {actions : List CrossAction} {store : CrossStore} {run : LiveRun}
    {placement pl : Placement}
    {reader : TxnTs} {version v : LiveVersion}

theorem run_ordered
    (run : (crossing i).Run (fun _ _ => True) actions store) : (placed i actions).Ordered := by
  induction run with
  | start _ =>
    exact ⟨Nat.le_refl 0, List.Pairwise.nil, fun version hi => absurd hi not_mem_nil⟩
  | @step actions store a ac hb he _ _ ih =>
    have hs := (run_represents hb).tMin
    unfold placed at ih hs ⊢
    rw [foldl_append]
    set placement := actions.foldl Placement.after (Placement.initial i)
    cases ac with
    | update d s =>
      have hl : placement.tMin < s := by
        rw [hs]
        exact he
      have hv := placement.versions_extended d s
      refine ⟨?_, ?_, ?_⟩
      · show (placement.after (.update d s)).versions.length ≤ placement.next + 1
        rw [hv]
        exact Nat.succ_le_succ ih.few
      · show (placement.after (.update d s)).versions.Pairwise _
        rw [hv]
        exact pairwise_cons.mpr ⟨ih.below, ih.descending⟩
      · show ∀ version ∈ (placement.after (.update d s)).versions, version.tMin < s
        rw [hv]
        intro version hi
        rcases mem_cons.mp hi with rfl | hi
        · exact hl
        · exact (ih.below version hi).trans hl
    | reset d t =>
      have hf : (placement.after (.reset d t)).versions.Sublist placement.versions :=
        List.Sublist.flatMap filter_sublist _
      exact ⟨hf.length_le.trans ih.few, ih.descending.sublist hf,
        fun version hi => ih.below version (hf.subset hi)⟩

/-! ### The search visits the runs in a fixed order -/

/-- The stores that a search from the store `delta` visits. -/
def ring : Nat → Fin 4 → List (Fin 4)
  | 0, _ => []
  | visits + 1, delta => previousDelta delta :: ring visits (previousDelta delta)

def Placement.visited (placement : Placement) : List LiveRun :=
  (if placement.headLive then placement.runs.head?.toList else []) ++
    (ring (numDeltaStorages + 2) placement.head).flatMap placement.savedIn

def foundIn (store : CrossStore) (reader : TxnTs) (run : LiveRun) : Option Ptr :=
  (run.versions.find? fun version => reader.isReadable version.tMin).map fun version =>
    ptrTo store run.store version.node

open Placement CrossStore

section

variable {st : CrossStore} {p : Placement} {fu : Nat} (re : TxnTs) {ptr : Ptr}

theorem searchInChain_invalid (hi : ¬ st.isValid ptr) (he : 0 < fu) :
    st.searchInChain re fu ptr = some none := by
  obtain ⟨fu, rfl⟩ : ∃ m, fu = m + 1 := ⟨fu - 1, by omega⟩
  exact if_neg hi

theorem searchInChain_linked {d : Fin 4} {vs : List LiveVersion}
    (hl : LinkedFrom st d ptr vs) (hh : ptr.delta = d)
    (he : vs.length < fu) :
    st.searchInChain re fu ptr =
      some ((vs.find? fun version => re.isReadable version.tMin).map fun version =>
        ptrTo st d version.node) := by
  induction hl generalizing fu with
  | @leaves ptr ho =>
    apply searchInChain_invalid re _ he
    intro hv
    rcases ho with ho | ho
    · exact ho hh
    · exact ho (hv.symm.trans (by rw [hh]))
  | @version n tm nx o ht hta ih =>
    obtain ⟨fu, rfl⟩ : ∃ m, fu = m + 1 := ⟨fu - 1, by omega⟩
    have hv : st.isValid (ptrTo st d n) := rfl
    rw [searchInChain, if_pos hv]
    rw [show st.nodes (ptrTo st d n).node = _ from ht]
    by_cases hr : re.isReadable tm
    · simp [hr]
    · rw [List.find?_cons_of_neg (by simpa using hr)]
      simp only [if_neg hr]
      by_cases hs : (ptrTo st d n).delta = nx.delta
      · rw [if_pos hs]
        exact ih hs.symm (Nat.lt_of_succ_lt_succ he)
      · rw [if_neg hs]
        -- The chain leaves the store, so no version of the run is left.
        cases hta with
        | leaves _ => rfl
        | version _ _ => exact absurd rfl hs

section

variable (pictured : Represents st p) (enough : p.versions.length < fu)

include pictured enough

theorem Represents.searchInChain (hi : run ∈ p.runs) :
    st.searchInChain re fu (headPtr st run) = some (foundIn st re run) := by
  apply searchInChain_linked re (pictured.linked run hi) rfl
  refine Nat.lt_of_le_of_lt ?_ enough
  exact (sublist_flatten_of_mem (mem_map_of_mem hi)).length_le

theorem Represents.searchHeads {s : List Ptr} (hin : ∀ ptr ∈ s, ¬ st.isValid ptr)
    {r : List LiveRun} (hi : ∀ run ∈ r, run ∈ p.runs) :
    st.searchHeads fu re (s ++ r.map (headPtr st)) = some (r.findSome? (foundIn st re)) := by
  induction s with
  | nil =>
    induction r with
    | nil => rfl
    | cons run r ih =>
      have hr := ih fun o ha => hi o (mem_cons_of_mem _ ha)
      rw [nil_append] at hr
      rw [nil_append, map_cons, CrossStore.searchHeads,
        pictured.searchInChain re enough (hi run mem_cons_self), List.findSome?_cons]
      cases foundIn st re run with
      | none => exact hr
      | some f => rfl
  | cons ptr s ih =>
    rw [cons_append, CrossStore.searchHeads, searchInChain_invalid re (hin ptr mem_cons_self)
      (by omega)]
    exact ih fun o ha => hin o (mem_cons_of_mem _ ha)

theorem Represents.crossSearch (vs : Nat) (d : Fin 4) : st.crossSearch fu re vs d =
      ((ring vs d).flatMap p.savedIn).findSome? (foundIn st re) := by
  induction vs generalizing d with
  | zero => rfl
  | succ vs ih =>
    obtain ⟨s, hli, hin⟩ := pictured.saved (previousDelta d)
    have hd (ptr : Ptr) (hi : ptr ∈ s) : ¬ st.isValid ptr := by
      obtain ⟨hh, hb⟩ := hin ptr hi
      rw [← hh] at hb
      exact hb.ne'
    have hl (run : LiveRun) (hi : run ∈ p.savedIn (previousDelta d)) : run ∈ p.runs :=
      mem_of_mem_saved (mem_savedIn.mp hi).1
    rw [CrossStore.crossSearch, hli, pictured.searchHeads re enough hd hl, ring, flatMap_cons,
      List.findSome?_append, ih]
    cases (p.savedIn (previousDelta d)).findSome? (foundIn st re) with
    | none | some f => rfl

/-- **The search goes through the runs in the order in which it visits them**, and returns what it
finds first. -/
theorem Represents.getVersionWithConsolidation_eq :
    st.getVersionWithConsolidation fu re = p.visited.findSome? (foundIn st re) := by
  have hac := pictured.crossSearch re enough (numDeltaStorages + 2) p.head
  rw [getVersionWithConsolidation, pictured.head, hac, visited, List.findSome?_append]
  by_cases ha : p.headLive = true
  · obtain ⟨f, tl, hr, _, hh⟩ := pictured.live ha
    rw [hh, pictured.searchInChain re enough (hr ▸ mem_cons_self), if_pos ha, hr]
    cases hf : foundIn st re f with
    | none | some ptr => simp [hf]
  · have hi : ¬ st.isValid st.deltaList := fun hv => ha (pictured.isValid_iff.mp hv)
    rw [searchInChain_invalid re hi (by omega), if_neg ha]
    rfl

end

theorem foundIn_isSome :
    (foundIn st re run).isSome ↔ ∃ version ∈ run.versions, re.isReadable version.tMin := by
  unfold foundIn
  rw [isSome_map, List.find?_isSome]
  simp

theorem foundIn_eq_none :
    foundIn st re run = none ↔ ∀ version ∈ run.versions, ¬ re.isReadable version.tMin := by
  rw [← not_isSome_iff_eq_none, foundIn_isSome]
  push Not
  rfl

theorem foundIn_eq_some (hf : foundIn st re run = some ptr) :
    ∃ version ∈ run.versions, ptr = ptrTo st run.store version.node := by
  obtain ⟨version, hi, rfl⟩ := map_eq_some_iff.mp hf
  exact ⟨version, mem_of_find?_eq_some hi, rfl⟩

end

/-! ### The newest readable version -/

structure NewestReadable (placement : Placement) (reader : TxnTs) (newer : List LiveRun)
    (own : LiveRun)
    (older : List LiveRun) (newest : LiveVersion) : Prop where
  runs : placement.runs = newer ++ own :: older
  inside : newest ∈ own.versions
  readable : reader.isReadable newest.tMin
  greatest : ∀ version ∈ placement.versions, reader.isReadable version.tMin →
    version.tMin ≤ newest.tMin

/-- The turn at which a search that starts in the store `head` visits a store. -/
def turn (head delta : Fin 4) : Nat := (ring numDeltaStorages head).idxOf delta

theorem ring_split (hd d : Fin 4) : ∃ a, ring (numDeltaStorages + 2) hd =
    (ring numDeltaStorages hd).take (turn hd d) ++ d :: a := by
  refine ⟨(ring (numDeltaStorages + 2) hd).drop (turn hd d + 1), ?_⟩
  revert hd d
  decide

theorem mem_take_turn (hd d o : Fin 4) :
    o ∈ (ring numDeltaStorages hd).take (turn hd d) ↔ turn hd o < turn hd d := by
  revert hd d o
  decide

theorem turn_injective (hd : Fin 4) {d o : Fin 4} (hs : turn hd d = turn hd o) : d = o := by
  revert hd d o
  decide

section

variable {st : CrossStore} {p : Placement} {re : TxnTs} {nw o : List LiveRun}
  {own : LiveRun} {n : LiveVersion} (newestReadable : NewestReadable p re nw own o n)
  (ordered : p.Ordered)

include newestReadable

theorem NewestReadable.versions :
    p.versions = nw.flatMap LiveRun.versions ++ (own.versions ++ o.flatMap LiveRun.versions) := by
  rw [Placement.versions, newestReadable.runs, flatMap_append, flatMap_cons]

include ordered

theorem NewestReadable.newer_above (hi : run ∈ nw) (ha : v ∈ run.versions) : n.tMin < v.tMin := by
  have hd := ordered.descending
  rw [newestReadable.versions] at hd
  exact (pairwise_append.mp hd).2.2 v (mem_flatMap.mpr ⟨run, hi, ha⟩)
    n (mem_append_left _ newestReadable.inside)

theorem NewestReadable.older_below (hi : run ∈ o) (ha : v ∈ run.versions) : v.tMin < n.tMin := by
  have hd := ordered.descending
  rw [newestReadable.versions] at hd
  have hr := (pairwise_append.mp hd).2.1
  exact (pairwise_append.mp hr).2.2 n newestReadable.inside v (mem_flatMap.mpr ⟨run, hi, ha⟩)

theorem NewestReadable.foundIn_newer (hi : run ∈ nw) : foundIn st re run = none := by
  apply (foundIn_eq_none re).mpr
  intro version ham hr
  have hl : version ∈ p.versions := by
    rw [newestReadable.versions]
    exact mem_append_left _ (mem_flatMap.mpr ⟨run, hi, ham⟩)
  have ha := newestReadable.newer_above ordered hi ham
  have hat := newestReadable.greatest version hl hr
  omega

theorem NewestReadable.foundIn_own : foundIn st re own = some (ptrTo st own.store n.node) := by
  obtain ⟨b, be, hs⟩ := append_of_mem newestReadable.inside
  have hd := ordered.descending
  rw [newestReadable.versions, hs] at hd
  have hw := (pairwise_append.mp (pairwise_append.mp hd).2.1).1
  have hf : (own.versions.find? fun version => re.isReadable version.tMin) = some n := by
    rw [hs, List.find?_eq_some_iff_append]
    refine ⟨decide_eq_true newestReadable.readable, b, be, rfl, fun version hi => ?_⟩
    have ha := (pairwise_append.mp hw).2.2 version hi n mem_cons_self
    have hl : version ∈ p.versions := by
      rw [newestReadable.versions, hs]
      exact mem_append_right _ (mem_append_left _ (mem_append_left _ hi))
    have hu : ¬ re.isReadable version.tMin := fun hr => by
      have ham := newestReadable.greatest version hl hr
      omega
    simpa using hu
  rw [foundIn, hf]
  rfl

theorem NewestReadable.foundIn_older (hp : Represents st p) (hi : run ∈ o) :
    foundIn st re run ≠ some (ptrTo st own.store n.node) := by
  intro hf
  obtain ⟨version, ha, hs⟩ := foundIn_eq_some re hf
  have hb := newestReadable.older_below ordered hi ha
  have hr := newestReadable.runs
  obtain ⟨_, ht⟩ := (hp.linked run (by simp [hr, hi])).stored ha
  obtain ⟨_, hh⟩ := (hp.linked own (by simp [hr])).stored newestReadable.inside
  have hn : n.node = version.node := congrArg Ptr.node hs
  rw [hn, ht] at hh
  have hst : version.tMin = n.tMin := congrArg CrossNode.tMin (some.inj hh)
  omega

end

theorem NewestReadable.saved {n o : List LiveRun}
    {own : LiveRun} {nw : LiveVersion} (hnr : NewestReadable pl reader n own o nw)
    (he : ¬ (pl.headLive = true ∧ n = [])) :
    ∃ b, pl.saved = b ++ own :: o ∧ ∀ run ∈ b, run ∈ n := by
  unfold Placement.saved
  rw [hnr.runs]
  by_cases ha : pl.headLive = true
  · rw [if_pos ha]
    cases n with
    | nil => exact absurd ⟨ha, rfl⟩ he
    | cons f b => exact ⟨b, rfl, fun run hi => mem_cons_of_mem _ hi⟩
  · rw [if_neg ha]
    exact ⟨n, rfl, fun run hi => hi⟩

theorem findSome?_eq_iff_of_ne {α β : Type} {f : α → Option β} {b a : List α} {x : α} {r : β}
    (ht : f x = some r) (ho : ∀ o ∈ b, f o ≠ some r) :
    (b ++ x :: a).findSome? f = some r ↔ ∀ o ∈ b, f o = none := by
  rw [List.findSome?_append, List.findSome?_cons, ht, ← List.findSome?_eq_none_iff]
  constructor
  · intro hf
    apply eq_none_iff_forall_ne_some.mpr
    intro fi he
    obtain ⟨o, ha, hh⟩ := exists_of_findSome?_eq_some he
    rw [he] at hf
    obtain rfl : fi = r := some.inj hf
    exact ho o ha hh
  · intro hn
    rw [hn]
    rfl

section

variable {store s : CrossStore} {placement pl : Placement} {reader r : TxnTs}
    {newer older ol : List LiveRun}
  {own : LiveRun} {newest : LiveVersion}

theorem split_lists {b : List LiveRun} (hs : pl.saved = b ++ own :: ol) :
    ∃ e l, (ring (numDeltaStorages + 2) pl.head).flatMap pl.savedIn = e ++ own :: l ∧
      ∀ run, run ∈ e ↔ run ∈ pl.saved ∧ turn pl.head run.store < turn pl.head own.store ∨
          run ∈ ol ∧ run.store = own.store := by
  obtain ⟨tl, ring_eq⟩ := ring_split pl.head own.store
  set p := (ring numDeltaStorages pl.head).take (turn pl.head own.store)
  have hh : pl.savedIn own.store = (ol.filter (·.store = own.store)).reverse ++
        own :: (b.filter (·.store = own.store)).reverse := by
    unfold savedIn
    rw [hs]
    simp
  have mem_passed {run : LiveRun} : run ∈ p.flatMap pl.savedIn ↔
      run ∈ pl.saved ∧ turn pl.head run.store < turn pl.head own.store := by
    rw [mem_flatMap]
    constructor
    · intro hf
      obtain ⟨d, on_way, hl⟩ := hf
      obtain ⟨hi, rfl⟩ := mem_savedIn.mp hl
      exact ⟨hi, (mem_take_turn _ _ _).mp on_way⟩
    · intro hf
      exact ⟨run.store, (mem_take_turn _ _ _).mpr hf.2, mem_savedIn.mpr ⟨hf.1, rfl⟩⟩
  refine ⟨p.flatMap pl.savedIn ++ (ol.filter (·.store = own.store)).reverse,
    (b.filter (·.store = own.store)).reverse ++ tl.flatMap pl.savedIn, ?_, fun run => ?_⟩
  · rw [ring_eq, flatMap_append, flatMap_cons, hh]
    simp only [append_assoc, cons_append]
  · rw [mem_append, mem_passed, mem_reverse, mem_filter, decide_eq_true_iff]

theorem NewestReadable.visits_lists (hnr : NewestReadable pl r newer own ol newest)
    (hor : pl.Ordered) (hpi : Represents s pl)
    (he : ¬ (pl.headLive = true ∧ newer = [])) :
    ((ring (numDeltaStorages + 2) pl.head).flatMap pl.savedIn).findSome? (foundIn s r) =
        some (ptrTo s own.store newest.node) ↔
      ∀ run ∈ ol, (∃ version ∈ run.versions, r.isReadable version.tMin) →
        turn pl.head own.store < turn pl.head run.store := by
  obtain ⟨b, hsa, before_newer⟩ := hnr.saved he
  obtain ⟨e, l, hv, mem_earlier⟩ := split_lists hsa
  have ho : ∀ run ∈ e, foundIn s r run ≠ some (ptrTo s own.store newest.node) := by
    intro run ha hf
    rcases (mem_earlier run).mp ha with ⟨_, hp⟩ | ⟨hi, _⟩
    · obtain ⟨version, _, hs⟩ := foundIn_eq_some r hf
      have hst : own.store = run.store := congrArg Ptr.delta hs
      rw [hst] at hp
      exact Nat.lt_irrefl _ hp
    · exact hnr.foundIn_older hor hpi hi hf
  rw [hv, findSome?_eq_iff_of_ne (hnr.foundIn_own hor) ho]
  constructor
  · intro hn run hi hr
    have hit : foundIn s r run ≠ none := isSome_iff_ne_none.mp ((foundIn_isSome r).mpr hr)
    have his : run ∈ pl.saved := by simp [hsa, hi]
    have hnp : ¬ turn pl.head run.store < turn pl.head own.store := fun hp =>
      hit (hn run ((mem_earlier run).mpr (.inl ⟨his, hp⟩)))
    have hnh : turn pl.head own.store ≠ turn pl.head run.store := fun hs =>
      hit (hn run ((mem_earlier run).mpr (.inr ⟨hi, (turn_injective _ hs).symm⟩)))
    omega
  · intro l run ha
    have hu (hi : run ∈ ol) (hnl : ¬ turn pl.head own.store < turn pl.head run.store) :
        foundIn s r run = none :=
      (foundIn_eq_none r).mpr fun version ha hr =>
        hnl (l run hi ⟨version, ha, hr⟩)
    rcases (mem_earlier run).mp ha with ⟨hi, hp⟩ | ⟨hi, hs⟩
    · rw [hsa] at hi
      rcases mem_append.mp hi with hi | hi
      · exact hnr.foundIn_newer hor (before_newer run hi)
      · rcases mem_cons.mp hi with rfl | hi
        · exact absurd hp (Nat.lt_irrefl _)
        · exact hu hi (by omega)
    · exact hu hi (by rw [hs]; exact Nat.lt_irrefl _)

/-- **What the search returns.** With enough fuel for its walks it returns the newest readable
version exactly if this version lies in the head's run, or if every older run that holds a readable
version lies in a store that is visited later. -/
theorem newest_found_iff {inserted : Nat} {actions : List CrossAction} {store : CrossStore}
    (run : (crossing inserted).Run (fun _ _ => True) actions store)
    {reader : TxnTs} {newer older : List LiveRun} {own : LiveRun} {newest : LiveVersion}
    (newestReadable : NewestReadable (placed inserted actions) reader newer own older newest)
    {fuel : Nat} (enough : store.nextNode < fuel) :
    store.getVersionWithConsolidation fuel reader = some (ptrTo store own.store newest.node) ↔
      ((placed inserted actions).headLive = true ∧ newer = []) ∨
        ∀ run ∈ older, (∃ version ∈ run.versions, reader.isReadable version.tMin) →
          turn (placed inserted actions).head own.store < turn
              (placed inserted actions).head run.store := by
  have hp := run_represents run
  have ho := run_ordered run
  set placement := placed inserted actions
  have hf : placement.versions.length < fuel := by
    have few := ho.few
    rw [hp.next] at few
    omega
  have ht : foundIn store reader own = some (ptrTo store own.store newest.node) :=
    newestReadable.foundIn_own ho
  rw [hp.getVersionWithConsolidation_eq reader hf, visited, List.findSome?_append]
  by_cases hfi : placement.headLive = true ∧ newer = []
  · obtain ⟨ha, rfl⟩ := hfi
    refine iff_of_true ?_ (.inl ⟨ha, rfl⟩)
    rw [if_pos ha, newestReadable.runs]
    simp [ht]
  · rw [or_iff_right hfi, ← newestReadable.visits_lists ho hp hfi]
    have hn : (if placement.headLive = true then placement.runs.head?.toList else []).findSome?
        (foundIn store reader) = none := by
      by_cases ha : placement.headLive = true
      · cases newer with
        | nil => exact absurd ⟨ha, rfl⟩ hfi
        | cons head tl =>
          have hu : foundIn store reader head = none :=
            newestReadable.foundIn_newer ho mem_cons_self
          rw [if_pos ha, newestReadable.runs]
          simp [hu]
      · rw [if_neg ha]
        rfl
    rw [hn, none_or]

end

/-! ### Concrete runs -/

def mayTake (store : CrossStore) : CrossAction → Bool
  | .update _ start => store.tMin < start
  | .reset _ _ => true

theorem run_of_follow (hf : (crossing i).follow mayTake (initial i) actions = some store) :
    (crossing i).Run (fun _ _ => True) actions store := by
  have hb : (crossing i).Run (fun _ _ => True) [] (initial i) := .start rfl
  refine hb.extend (.of_follow (fun s a ht => ⟨?_, trivial⟩) hf)
  cases a with
  | update d st =>
    show s.tMin < st
    exact of_decide_eq_true ht
  | reset d t => trivial

/-- Writers at the times 1, 2, … that find the given stores active. -/
def writers (deltas : List (Fin 4)) : List CrossAction :=
  deltas.zipIdx.map fun entry => .update entry.1 (entry.2 + 1)

def afterWriters (deltas : List (Fin 4)) : CrossStore :=
  ((crossing 0).follow mayTake (CrossStore.initial 0) (writers deltas)).getD (CrossStore.initial 0)

/-- Three versions in the stores 0, 1 and 2: the reader at time 1 gets the one in store 1. -/
theorem newest_found_behind : (afterWriters [0, 1, 2]).getVersionWithConsolidation 4
    (TxnTs.ofTicket 1) =
    some (ptrTo (afterWriters [0, 1, 2]) 1 1) := by
  have hf : (crossing 0).follow mayTake (initial 0) (writers [0, 1, 2]) =
      some (afterWriters [0, 1, 2]) := rfl
  have hn : NewestReadable (placed 0 (writers [0, 1, 2])) (TxnTs.ofTicket 1)
      [⟨2, ⟨2, 2⟩, []⟩] ⟨1, ⟨1, 1⟩, []⟩ [⟨0, ⟨0, 0⟩, []⟩] ⟨1, 1⟩ :=
    ⟨rfl, mem_cons_self, by decide, by decide⟩
  refine (newest_found_iff (run_of_follow hf) hn (Nat.lt_succ_self 3)).mpr (.inr ?_)
  intro run hi _
  obtain rfl := mem_singleton.mp hi
  decide

/-- Four versions in the stores 1, 2, 1 and 2. The reader at time 2 may read the version of stamp 2
in store 1, and gets the one of stamp 0, which this store's list holds in front of it. -/
theorem oldest_head_returned : (crossing 0).follow mayTake (CrossStore.initial 0)
    (writers [1, 2, 1, 2]) = some (afterWriters [1, 2, 1, 2]) ∧
      NewestReadable (placed 0 (writers [1, 2, 1, 2])) (TxnTs.ofTicket 2)
        [⟨2, ⟨3, 3⟩, []⟩] ⟨1, ⟨2, 2⟩, []⟩ [⟨2, ⟨1, 1⟩, []⟩, ⟨1, ⟨0, 0⟩, []⟩] ⟨2, 2⟩ ∧
      (afterWriters [1, 2, 1, 2]).getVersionWithConsolidation 5 (TxnTs.ofTicket 2) =
        some (ptrTo (afterWriters [1, 2, 1, 2]) 1 0) := by
  refine ⟨rfl, ⟨rfl, mem_cons_self, by decide, by decide⟩, rfl⟩

end Proteus.Oltp.Gc.Crossing
