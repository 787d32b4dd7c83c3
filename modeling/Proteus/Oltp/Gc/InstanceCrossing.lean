/-
**The lookup of a version across the delta stores.**

With one-shot collection and consolidation, a record's versions lie scattered over the four delta
stores. `createVersions` hangs a version in front of the record's chain and, where the chain enters
another store, saves the former head in the list that this head's own store keeps for the row. A
store that is reset loses its versions and raises its tag, so the pointers into it become invalid.
`getVersionWithConsolidation` searches the head's chain up to the place where it leaves its store,
and then the saved heads of the other stores, going down the ring.

* `Placement` — what the stores are for: the record's live versions, newest first, cut into the runs
  that one walk can follow.
* `Represents` — the memory is a picture of a placement; `Represents.update` and `Represents.reset`
  say that each step keeps it, and `run_represents` that every run of updates and resets does.
-/

import Proteus.Oltp.Gc.OneShot

namespace Proteus.Oltp.Gc.Crossing

open Proteus.Library Proteus.Oltp.Storage List Function Numerals

/-! ### One record and its versions -/

structure CrossNode where
  tMin : Nat
  next : Ptr

structure CrossStore where
  tag : Fin 4 → Nat
  nodes : Nat → Option CrossNode
  nextNode : Nat
  consolidateHT : Fin 4 → Option (List Ptr)
  tMin : Nat
  deltaList : Ptr

namespace CrossStore

variable (store : CrossStore)

def isValid (ptr : Ptr) : Prop := store.tag ptr.delta = ptr.tag

instance (ptr : Ptr) : Decidable (store.isValid ptr) := inferInstanceAs (Decidable (_ = _))

def saveInstanceCrossingPtr (ptr : Ptr) : CrossStore :=
  { store with
    consolidateHT := Function.update store.consolidateHT ptr.delta
      (some ((store.consolidateHT ptr.delta).getD [] ++ [ptr])) }

def createVersions (delta : Fin 4) : CrossStore :=
  let deltaDataPtr : Ptr := ⟨delta, store.tag delta, store.nextNode⟩
  let saved :=
    if store.isValid store.deltaList ∧ delta ≠ store.deltaList.delta then
      store.saveInstanceCrossingPtr store.deltaList
    else store
  let next := if store.isValid store.deltaList then store.deltaList else Ptr.null
  { saved with
    nodes := Function.update store.nodes store.nextNode (some ⟨store.tMin, next⟩)
    nextNode := store.nextNode + 1
    deltaList := deltaDataPtr }

/-- An update by the transaction that started at `start`. -/
def update (delta : Fin 4) (start : Nat) : CrossStore :=
    { store.createVersions delta with tMin := start }

def reset (delta : Fin 4) (touched : Bool) : CrossStore :=
  { store with
    tag := Function.update store.tag delta (store.tag delta + 1)
    consolidateHT :=
      if touched then Function.update store.consolidateHT delta none else store.consolidateHT }

def searchInChain (reader : TxnTs) : Nat → Ptr → Option (Option Ptr)
  | 0, _ => none
  | fuel + 1, ptr =>
    if store.isValid ptr then
      match store.nodes ptr.node with
      | none => none
      | some node =>
        if reader.isReadable node.tMin then some (some ptr)
        else if ptr.delta = node.next.delta then searchInChain reader fuel node.next
        else some none
    else some none

def searchHeads (fuel : Nat) (reader : TxnTs) : List Ptr → Option (Option Ptr)
  | [] => some none
  | head :: heads =>
    match store.searchInChain reader fuel head with
    | none => none
    | some (some found) => some (some found)
    | some none => searchHeads fuel reader heads

end CrossStore

def numDeltaStorages : Nat := 4

def previousDelta (delta : Fin 4) : Fin 4 := if delta = 0 then 3 else delta - 1

namespace CrossStore

variable (store : CrossStore)

def crossSearch (fuel : Nat) (reader : TxnTs) : Nat → Fin 4 → Option Ptr
  | 0, _ => none
  | visits + 1, delta =>
    match store.searchHeads fuel reader ((store.consolidateHT (previousDelta delta)).getD []) with
    | none => none
    | some (some found) => some found
    | some none => crossSearch fuel reader visits (previousDelta delta)

def getVersionWithConsolidation (fuel : Nat) (reader : TxnTs) : Option Ptr :=
  match store.searchInChain reader fuel store.deltaList with
  | none => none
  | some (some found) => some found
  | some none => store.crossSearch fuel reader (numDeltaStorages + 2) store.deltaList.delta

end CrossStore

/-- The first updates and resets of a record that was inserted at time `inserted`. -/
def CrossStore.initial (inserted : Nat) : CrossStore where
  tag := fun _ => 1
  nodes := fun _ => none
  nextNode := 0
  consolidateHT := fun _ => none
  tMin := inserted
  deltaList := Ptr.null

inductive CrossAction
  | update (delta : Fin 4) (start : Nat)
  | reset (delta : Fin 4) (touched : Bool)

def crossing (inserted : Nat) : Machine CrossStore CrossAction where
  Start := fun store => store = CrossStore.initial inserted
  Enabled
    | store, .update _ start => store.tMin < start
    | _, .reset _ _ => True
  next
    | store, .update delta start => some (store.update delta start)
    | store, .reset delta touched => some (store.reset delta touched)

/-! ### The live versions -/

structure LiveVersion where
  node : Nat
  tMin : Nat
deriving DecidableEq

/-- Versions of one store that hang on each other, newest first. -/
structure LiveRun where
  store : Fin 4
  first : LiveVersion
  rest : List LiveVersion

def LiveRun.versions (run : LiveRun) : List LiveVersion := run.first :: run.rest

structure Placement where
  runs : List LiveRun
  head : Fin 4
  headLive : Bool
  next : Nat
  tMin : Nat

namespace Placement

def initial (inserted : Nat) : Placement := ⟨[], 0, false, 0, inserted⟩

variable (placement : Placement)

def versions : List LiveVersion := placement.runs.flatMap LiveRun.versions

def saved : List LiveRun := if placement.headLive then placement.runs.tail else placement.runs

def savedIn (delta : Fin 4) : List LiveRun := (placement.saved.filter (·.store = delta)).reverse

def newVersion : LiveVersion := ⟨placement.next, placement.tMin⟩

def extended (delta : Fin 4) : List LiveRun :=
  if placement.headLive ∧ delta = placement.head then
    ⟨delta, placement.newVersion, (placement.runs.head?.map LiveRun.versions).getD []⟩ ::
      placement.runs.tail
  else ⟨delta, placement.newVersion, []⟩ :: placement.runs

def after : CrossAction → Placement
  | .update delta start => ⟨placement.extended delta, delta, true, placement.next + 1, start⟩
  | .reset delta _ =>
    { placement with
      runs := placement.runs.filter fun run => run.store ≠ delta
      headLive := placement.headLive && placement.head ≠ delta }

end Placement

/-- Where the live versions lie after some updates and resets. -/
def placed (inserted : Nat) (actions : List CrossAction) : Placement :=
  actions.foldl Placement.after (Placement.initial inserted)

/-! ### The memory is a picture of the live versions -/

def ptrTo (store : CrossStore) (delta : Fin 4) (node : Nat) : Ptr := ⟨delta, store.tag delta, node⟩

def headPtr (store : CrossStore) (run : LiveRun) : Ptr := ptrTo store run.store run.first.node

inductive LinkedFrom (store : CrossStore) (delta : Fin 4) : Ptr → List LiveVersion → Prop
  | leaves {ptr : Ptr} (outside : ptr.delta ≠ delta ∨ ptr.tag ≠ store.tag delta) :
      LinkedFrom store delta ptr []
  | version {node tMin : Nat} {next : Ptr} {older : List LiveVersion}
      (there : store.nodes node = some ⟨tMin, next⟩) (tail : LinkedFrom store delta next older) :
      LinkedFrom store delta (ptrTo store delta node) (⟨node, tMin⟩ :: older)

structure Represents (store : CrossStore) (placement : Placement) : Prop where
  tags : ∀ delta, 0 < store.tag delta
  linked : ∀ run ∈ placement.runs, LinkedFrom store run.store (headPtr store run) run.versions
  bound : ∀ version ∈ placement.versions, version.node < placement.next
  next : placement.next = store.nextNode
  tMin : placement.tMin = store.tMin
  head : store.deltaList.delta = placement.head
  live : placement.headLive = true → ∃ first rest, placement.runs = first :: rest ∧
    first.store = placement.head ∧ store.deltaList = headPtr store first
  dead : placement.headLive = false → store.deltaList.tag < store.tag placement.head
  saved : ∀ delta, ∃ stale, (store.consolidateHT delta).getD [] =
      stale ++ (placement.savedIn delta).map (headPtr store) ∧
    ∀ ptr ∈ stale, ptr.delta = delta ∧ ptr.tag < store.tag delta

variable {st : CrossStore} {ptr : Ptr} {vs : List LiveVersion} {v : LiveVersion} {r : LiveRun}

theorem LinkedFrom.frame {a : CrossStore} {d : Fin 4}
    (hl : LinkedFrom st d ptr vs) (tag : a.tag d = st.tag d)
    (hn : ∀ version ∈ vs, a.nodes version.node = st.nodes version.node) :
    LinkedFrom a d ptr vs := by
  induction hl with
  | leaves ho =>
    apply LinkedFrom.leaves
    rwa [tag]
  | @version n tm nx o ht hta ih =>
    have hs : ptrTo st d n = ptrTo a d n := by
      unfold ptrTo
      rw [tag]
    rw [hs]
    refine .version ?_ (ih fun version hi => hn version (mem_cons_of_mem _ hi))
    rw [← ht]
    exact hn _ mem_cons_self

theorem LinkedFrom.stored {d : Fin 4} (hl : LinkedFrom st d ptr vs) (hi : v ∈ vs) :
    ∃ n, st.nodes v.node = some ⟨v.tMin, n⟩ := by
  induction hl with
  | leaves => simp at hi
  | version ht _ ih =>
    rcases mem_cons.mp hi with rfl | hi
    · exact ⟨_, ht⟩
    · exact ih hi

namespace Placement

variable {p : Placement}

theorem mem_versions : v ∈ p.versions ↔ ∃ run ∈ p.runs, v ∈ run.versions := mem_flatMap

theorem versions_extended (p : Placement) (d : Fin 4) (s : Nat) :
    (p.after (.update d s)).versions = p.newVersion :: p.versions := by
  unfold versions
  show (p.extended d).flatMap _ = _
  unfold extended
  by_cases hs : p.headLive ∧ d = p.head
  · rw [if_pos hs]
    cases p.runs <;> simp [LiveRun.versions]
  · rw [if_neg hs]
    simp [LiveRun.versions]

theorem mem_savedIn {d : Fin 4} : r ∈ p.savedIn d ↔ r ∈ p.saved ∧ r.store = d := by
  unfold savedIn
  rw [mem_reverse, mem_filter, decide_eq_true_iff]

theorem mem_of_mem_saved (hi : r ∈ p.saved) : r ∈ p.runs := by
  unfold saved at hi
  split_ifs at hi
  · exact mem_of_mem_tail hi
  · exact hi

theorem saved_reset (p : Placement) (d : Fin 4) (t : Bool) (hl : p.headLive = true →
      ∃ f tl, p.runs = f :: tl ∧ f.store = p.head) :
    (p.after (.reset d t)).saved = p.saved.filter fun run => run.store ≠ d := by
  unfold saved
  show (if (p.headLive && decide (p.head ≠ d)) = true then
    (p.runs.filter _).tail else p.runs.filter _) = _
  by_cases ha : p.headLive = true
  · obtain ⟨f, tl, hr, hh⟩ := hl ha
    by_cases hit : p.head = d
    · simp [ha, hit, hr, hh]
    · simp [ha, hit, hr, hh]
  · simp [ha]

end Placement

section

variable {st : CrossStore} {p : Placement} (pictured : Represents st p)

include pictured

theorem Represents.deltaList_tag (ha : p.headLive = true) : st.isValid st.deltaList := by
  obtain ⟨f, tl, _, _, hh⟩ := pictured.live ha
  rw [hh]
  rfl

theorem Represents.isValid_iff : st.isValid st.deltaList ↔ p.headLive = true := by
  refine ⟨fun hv => ?_, pictured.deltaList_tag⟩
  by_contra hd
  have hb := pictured.dead (Bool.eq_false_iff.mpr hd)
  have hs : st.tag p.head = st.deltaList.tag := by
    rw [← pictured.head]
    exact hv
  omega

theorem Represents.first (ha : p.headLive = true) :
    ∃ f tl, p.runs = f :: tl ∧ f.store = p.head := by
  obtain ⟨f, tl, hr, hh, _⟩ := pictured.live ha
  exact ⟨f, tl, hr, hh⟩

omit pictured

open Placement

theorem initial_represents (i : Nat) : Represents (CrossStore.initial i) (initial i) where
  tags := fun _ => Nat.one_pos
  linked := fun run hi => by simp [initial] at hi
  bound := fun version hi => by simp [initial, versions] at hi
  next := rfl
  tMin := rfl
  head := rfl
  live := fun ha => by simp [initial] at ha
  dead := fun _ => Nat.one_pos
  saved := fun d => ⟨[], rfl, by simp⟩

/-! ### An update -/

theorem update_tag (d : Fin 4) (s : Nat) : (st.update d s).tag = st.tag := by
  unfold CrossStore.update CrossStore.createVersions
  dsimp only
  split_ifs <;> rfl

theorem update_consolidateHT (d : Fin 4) (s : Nat) : (st.update d s).consolidateHT =
    if st.isValid st.deltaList ∧ d ≠ st.deltaList.delta then
      (st.saveInstanceCrossingPtr st.deltaList).consolidateHT
    else st.consolidateHT := by
  unfold CrossStore.update CrossStore.createVersions
  dsimp only
  split_ifs <;> rfl

theorem headPtr_update (d : Fin 4) (s : Nat) : headPtr (st.update d s) = headPtr st := by
  funext run
  unfold headPtr ptrTo
  rw [update_tag]

theorem Represents.linked_update (pictured : Represents st p) (d : Fin 4) (s : Nat)
    (hi : r ∈ p.runs) :
    LinkedFrom (st.update d s) r.store (headPtr st r) r.versions := by
  apply (pictured.linked r hi).frame
  · rw [update_tag]
  · intro version ha
    have hb := pictured.bound version (mem_versions.mpr ⟨r, hi, ha⟩)
    show Function.update st.nodes st.nextNode _ version.node = _
    apply update_of_ne
    rw [pictured.next] at hb
    exact Nat.ne_of_lt hb

theorem linked_new (d : Fin 4) (s : Nat) {n : Ptr}
    (next_eq : (if st.isValid st.deltaList then st.deltaList else Ptr.null) = n)
    (ht : LinkedFrom (st.update d s) d n vs) :
    LinkedFrom (st.update d s) d (ptrTo st d st.nextNode) (⟨st.nextNode, st.tMin⟩ :: vs) := by
  have hs : ptrTo st d st.nextNode = ptrTo (st.update d s) d st.nextNode := by
    unfold ptrTo
    rw [update_tag]
  rw [hs]
  refine .version ?_ ht
  rw [← next_eq]
  exact update_self _ _ _

section

variable (pictured : Represents st p) (delta : Fin 4) (start : Nat)

include pictured delta start

theorem Represents.linked_extended (hi : r ∈ p.extended delta) :
    LinkedFrom (st.update delta start) r.store (headPtr st r) r.versions := by
  have hf (n : Ptr) (next_eq : (if st.isValid st.deltaList then st.deltaList else Ptr.null) = n)
      (hou : n.delta ≠ delta ∨ n.tag ≠ st.tag delta) :
      LinkedFrom (st.update delta start) delta (ptrTo st delta st.nextNode)
        [⟨st.nextNode, st.tMin⟩] := by
    apply linked_new delta start next_eq
    apply LinkedFrom.leaves
    rwa [update_tag]
  have hn : Ptr.null.delta ≠ delta ∨ Ptr.null.tag ≠ st.tag delta := .inr (pictured.tags delta).ne
  have version_eq : p.newVersion = ⟨st.nextNode, st.tMin⟩ := by
    rw [Placement.newVersion, pictured.next, pictured.tMin]
  unfold Placement.extended at hi
  rw [version_eq] at hi
  by_cases ha : p.headLive = true
  · obtain ⟨f, tl, hr, hh, hhe⟩ := pictured.live ha
    have next_eq : (if st.isValid st.deltaList then st.deltaList else Ptr.null) = headPtr st f := by
      rw [if_pos (pictured.isValid_iff.mpr ha), hhe]
    have hk := fun {r : LiveRun} (ham : r ∈ f :: tl) =>
      pictured.linked_update delta start (hr ▸ ham)
    rw [hr] at hi
    by_cases hs : delta = p.head
    · rw [if_pos ⟨ha, hs⟩] at hi
      obtain rfl : delta = f.store := hs.trans hh.symm
      rcases mem_cons.mp hi with rfl | hi
      · exact linked_new f.store start next_eq (hk mem_cons_self)
      · exact hk (mem_cons_of_mem _ hi)
    · rw [if_neg fun hb => hs hb.2] at hi
      rcases mem_cons.mp hi with rfl | hi
      · exact hf _ next_eq (.inl fun ho => hs (ho.symm.trans hh))
      · exact hk hi
  · have next_eq : (if st.isValid st.deltaList then st.deltaList else Ptr.null) = Ptr.null :=
      if_neg fun hv => ha (pictured.isValid_iff.mp hv)
    rw [if_neg fun hb => ha hb.1] at hi
    rcases mem_cons.mp hi with rfl | hi
    · exact hf _ next_eq hn
    · exact pictured.linked_update delta start hi

theorem Represents.saved_update : (p.after (.update delta start)).saved =
      if st.isValid st.deltaList ∧ delta ≠ st.deltaList.delta then p.runs
      else p.saved := by
  have hv := pictured.isValid_iff
  have hh := pictured.head
  show (p.extended delta).tail = _
  unfold Placement.extended Placement.saved
  by_cases ha : p.headLive = true
  · by_cases hs : delta = p.head
    · simp [hv, hh, ha, hs]
    · simp [hv, hh, ha, hs]
  · simp [hv, ha]

theorem Represents.update : Represents (st.update delta start) (p.after (.update delta start)) where
  tags := fun o => by
    rw [update_tag]
    exact pictured.tags o
  linked := fun run hi => by
    rw [headPtr_update]
    exact pictured.linked_extended delta start hi
  bound := fun version hi => by
    rw [Placement.versions_extended] at hi
    show version.node < p.next + 1
    rcases mem_cons.mp hi with rfl | hi
    · exact Nat.lt_succ_self _
    · exact Nat.lt_succ_of_lt (pictured.bound version hi)
  next := by
    show p.next + 1 = st.nextNode + 1
    rw [pictured.next]
  tMin := rfl
  head := rfl
  live := fun _ => by
    have ht : ∃ f tl, p.extended delta = f :: tl ∧ f.store = delta ∧ f.first.node = p.next := by
      unfold Placement.extended
      by_cases hs : p.headLive ∧ delta = p.head
      · exact ⟨_, _, if_pos hs, rfl, rfl⟩
      · exact ⟨_, _, if_neg hs, rfl, rfl⟩
    obtain ⟨f, tl, hr, hh, hn⟩ := ht
    refine ⟨f, tl, hr, hh, ?_⟩
    rw [headPtr_update]
    show (⟨delta, st.tag delta, st.nextNode⟩ : Ptr) = ⟨f.store, st.tag f.store, f.first.node⟩
    rw [hh, hn, pictured.next]
  dead := fun hd => Bool.noConfusion hd
  saved := fun o => by
    rw [Placement.savedIn, pictured.saved_update, headPtr_update, update_consolidateHT, update_tag]
    obtain ⟨s, hl, hin⟩ := pictured.saved o
    refine ⟨s, ?_, hin⟩
    rw [Placement.savedIn] at hl
    by_cases hc : st.isValid st.deltaList ∧ delta ≠ st.deltaList.delta
    · rw [if_pos hc, if_pos hc]
      have ha := pictured.isValid_iff.mp hc.1
      obtain ⟨f, tl, hr, hh, hhe⟩ := pictured.live ha
      have hsa : p.saved = tl := by
        unfold Placement.saved
        rw [if_pos ha, hr]
        rfl
      rw [hsa] at hl
      rw [hr, CrossStore.saveInstanceCrossingPtr, pictured.head, ← hh]
      by_cases own : o = f.store
      · subst own
        simp [update_self, hl, hhe]
      · simp [update_of_ne own, hl, Ne.symm own]
    · rw [if_neg hc, if_neg hc]
      exact hl

end

/-! ### A reset -/

theorem reset_tag_of_ne {d o : Fin 4} (t : Bool) (hs : o ≠ d) : (st.reset d t).tag o = st.tag o :=
  update_of_ne hs _ _

theorem reset_tag_self (d : Fin 4) (t : Bool) : (st.reset d t).tag d = st.tag d + 1 :=
  update_self _ _ _

theorem tag_le_reset (d : Fin 4) (t : Bool) (o : Fin 4) : st.tag o ≤ (st.reset d t).tag o := by
  by_cases hit : o = d
  · subst hit
    rw [reset_tag_self]
    exact Nat.le_succ _
  · rw [reset_tag_of_ne t hit]

theorem headPtr_reset {d : Fin 4} (t : Bool) (hs : r.store ≠ d) :
    headPtr (st.reset d t) r = headPtr st r := by
  unfold headPtr ptrTo
  rw [reset_tag_of_ne t hs]

theorem mem_runs_reset {d : Fin 4} {t : Bool} :
    r ∈ (p.after (.reset d t)).runs ↔ r ∈ p.runs ∧ r.store ≠ d := by
  show r ∈ p.runs.filter _ ↔ _
  simp

variable (pictured : Represents st p)

include pictured

theorem Represents.saved_reset_self (d : Fin 4) (t : Bool)
    (hi : ptr ∈ ((st.reset d t).consolidateHT d).getD []) :
    ptr.delta = d ∧ ptr.tag < (st.reset d t).tag d := by
  have old : ptr.delta = d ∧ ptr.tag ≤ st.tag d := by
    unfold CrossStore.reset at hi
    cases t with
    | true => simp at hi
    | false =>
      obtain ⟨s, hl, hin⟩ := pictured.saved d
      simp only [Bool.false_eq_true, if_false] at hi
      rw [hl] at hi
      rcases mem_append.mp hi with hi | hi
      · exact ⟨(hin ptr hi).1, (hin ptr hi).2.le⟩
      · obtain ⟨run, ha, rfl⟩ := mem_map.mp hi
        obtain ⟨_, rfl⟩ := mem_savedIn.mp ha
        exact ⟨rfl, Nat.le_refl _⟩
  rw [reset_tag_self]
  exact ⟨old.1, Nat.lt_succ_of_le old.2⟩

theorem Represents.saved_reset_of_ne {d o : Fin 4} (t : Bool) (hs : o ≠ d) :
    (st.reset d t).consolidateHT o = st.consolidateHT o ∧
      ((p.after (.reset d t)).savedIn o).map (headPtr (st.reset d t)) =
        (p.savedIn o).map (headPtr st) := by
  have list_same : (st.reset d t).consolidateHT o = st.consolidateHT o := by
    unfold CrossStore.reset
    cases t with
    | true => exact update_of_ne hs _ _
    | false => rfl
  have saved_same : (p.after (.reset d t)).savedIn o = p.savedIn o := by
    rw [savedIn, p.saved_reset d t pictured.first, filter_filter]
    congr 1
    apply filter_congr
    intro run _
    by_cases hh : run.store = o
    · simp [hh, hs]
    · simp [hh]
  rw [saved_same]
  refine ⟨list_same, map_congr_left fun run hi => ?_⟩
  obtain ⟨_, hh⟩ := mem_savedIn.mp hi
  exact headPtr_reset t fun hit => hs (hh.symm.trans hit)

theorem Represents.reset (d : Fin 4) (t : Bool) :
    Represents (st.reset d t) (p.after (.reset d t)) where
  tags := fun o => (pictured.tags o).trans_le (tag_le_reset d t o)
  linked := fun run hi => by
    obtain ⟨hi, hs⟩ := mem_runs_reset.mp hi
    rw [headPtr_reset t hs]
    exact (pictured.linked run hi).frame (reset_tag_of_ne t hs) fun _ _ => rfl
  bound := fun version hi => by
    obtain ⟨run, hi, ham⟩ := Placement.mem_versions.mp hi
    exact pictured.bound version (Placement.mem_versions.mpr ⟨run, (mem_runs_reset.mp hi).1, ham⟩)
  next := pictured.next
  tMin := pictured.tMin
  head := pictured.head
  live := fun ha => by
    obtain ⟨ha, hs⟩ := Bool.and_eq_true_iff.mp ha
    obtain ⟨f, tl, hr, hh, hhe⟩ := pictured.live ha
    have hs : f.store ≠ d := by simpa [hh] using hs
    refine ⟨f, tl.filter fun run => run.store ≠ d, ?_, hh, ?_⟩
    · show p.runs.filter _ = _
      rw [hr, filter_cons_of_pos (by simpa using hs)]
    · rw [headPtr_reset t hs]
      exact hhe
  dead := fun hd => by
    show st.deltaList.tag < (st.reset d t).tag p.head
    by_cases ha : p.headLive = true
    · have hit : p.head = d := by simpa [Placement.after, ha] using hd
      have hv : st.tag st.deltaList.delta = st.deltaList.tag := pictured.isValid_iff.mpr ha
      rw [pictured.head, hit] at hv
      rw [hit, reset_tag_self, hv]
      exact Nat.lt_succ_self _
    · exact (pictured.dead (Bool.eq_false_iff.mpr ha)).trans_le (tag_le_reset d t _)
  saved := fun o => by
    by_cases hit : o = d
    · subst hit
      have none_left : (p.after (.reset o t)).savedIn o = [] := by
        rw [Placement.savedIn, p.saved_reset o t pictured.first]
        simp
      rw [none_left]
      exact ⟨_, (append_nil _).symm, fun ptr hi => pictured.saved_reset_self o t hi⟩
    · obtain ⟨s, hl, hin⟩ := pictured.saved o
      obtain ⟨list_same, saved_same⟩ := pictured.saved_reset_of_ne t hit
      rw [list_same, saved_same, reset_tag_of_ne t hit]
      exact ⟨s, hl, hin⟩

end

/-- **Every run of updates and resets leaves the memory a picture of the live versions.** -/
theorem run_represents {i : Nat} {acs : List CrossAction}
    (r : (crossing i).Run (fun _ _ => True) acs st) :
    Represents st (placed i acs) := by
  induction r with
  | start hi =>
    obtain rfl : _ = CrossStore.initial i := hi
    exact initial_represents i
  | @step acs st a ac _ _ _ ht ih =>
    unfold placed at ih ⊢
    rw [foldl_append]
    cases ac with
    | update d s =>
      cases ht
      exact ih.update d s
    | reset d t =>
      cases ht
      exact ih.reset d t

end Proteus.Oltp.Gc.Crossing
