/-
**Probing a hash join** (`olap/lib/operators/hash-join-chained.cpp`).

A row of the probe side takes the head of its bucket and follows the links through the build arrays.
Every element met is loaded from all the arrays, and is passed on if its key is the row's.

Workers exchange heads before they store the elements with the links, so a chain has holes while the
build is going on. The exchanges of a bucket are in some order, though, and each returns the index
of the one before it: the links are settled by then, whenever they are stored.

The hash is reduced modulo `size_t(1) << hash_bits`, but the heads are allocated as `1 << hash_bits`
of them, in `int`. From 31 bits on there is no such allocation.

* `Build.Linked.next` — a worker's step keeps the order of the exchanges, and what is stored agrees
  with it.
* `Build.Linked.chain` — the chain of a bucket when the build is over.
* `joins_exactly_iff` — the join passes on exactly the pairs with equal keys when there are fewer
  than 31 bits.
-/

import Proteus.Library.Chain
import Proteus.Library.Loops
import Proteus.Olap.HashJoinChained

namespace Proteus.Olap

open Library List Option

/-! ### The heads -/

def HashJoinChained.headSize (join : HashJoinChained) : Option (BitVec 32) :=
  if join.hashBits < 32 then some (1#32 <<< join.hashBits) else none

def HashJoinChained.headBytes (join : HashJoinChained) : Option (BitVec 64) := do
  let size ← join.headSize
  return 4 * size.signExtend 64 + 4

section

variable {V K P : Type}

def HashJoinChained.opened (join : HashJoinChained) : Option (Table V) := do
  let bytes ← join.headBytes
  if bytes.toNat < 2 ^ 63 then some join.openBuild else none

/-! ### The probe -/

def loadElement (index : BitVec 32) (array : List (Option (Element V))) : Option (Element V) :=
  if 0 ≤ index.toInt then array[index.toNat]?.join else none

def Table.load (table : Table V) (current : BitVec 32) : Option (BitVec 32 × List V) := do
  let elements ← table.arrays.mapM (loadElement current)
  let first ← elements.head?
  let next ← first.link
  return (next, elements.map Element.value)

/-- The end of a chain, `~0`. -/
def endOfChain : BitVec 32 := BitVec.allOnes 32

variable [DecidableEq K]

def Table.chainFollow (table : Table V) (buildKey : V → K) (key : K) : Nat → BitVec 32 →
    Option (List (List V))
  | 0, current => if current = endOfChain then some [] else none
  | passes + 1, current =>
    if current = endOfChain then some [] else do
      let (next, packets) ← table.load current
      let rest ← table.chainFollow buildKey key passes next
      return if packets.head?.map buildKey = some key then packets :: rest else rest

def HashJoinChained.probe (join : HashJoinChained) (hash : K → Nat) (buildKey : V → K)
    (probeKey : P → K)
    (table : Table V) (passes : Nat) (row : P) : Option (List (List V × P)) := do
  let current ← table.head[hash (probeKey row) % 2 ^ join.hashBits]?
  let found ← table.chainFollow buildKey (probeKey row) passes current
  return found.map fun packets => (packets, row)

def HashJoinChained.probeAll (join : HashJoinChained) (hash : K → Nat) (buildKey : V → K)
    (probeKey : P → K)
    (table : Table V) (passes : Nat) (rows : List P) : Option (List (List V × P)) :=
  (rows.mapM (join.probe hash buildKey probeKey table passes)).map List.flatten

/-! ### What a join is -/

/-- A tuple of the build side, given by its packets. -/
def buildRow (hash : K → Nat) (buildKey : V → K) (tuple : Nat → V) : BuildRow V :=
  ⟨hash (buildKey (tuple 0)), tuple⟩

def HashJoinChained.packets (join : HashJoinChained) (tuple : Nat → V) : List V :=
  (List.range join.buildPacketWidths.length).map tuple

/-- The pairs of build and probe rows with equal keys. -/
def HashJoinChained.pairs (join : HashJoinChained) (buildKey : V → K) (probeKey : P → K)
    (input : List (Nat → V)) (rows : List P) : List (List V × P) :=
  rows.flatMap fun row =>
    (input.filter fun tuple => buildKey (tuple 0) = probeKey row).map fun tuple =>
    (join.packets tuple, row)

def HashJoinChained.JoinsExactly (join : HashJoinChained) (hash : K → Nat) (buildKey : V → K)
    (probeKey : P → K) :
    Prop :=
  (join.opened : Option (Table V)).isSome ∧ ∀ input : List (Nat → V),
    input.length ≤ join.maxBuildInputSize →
      join.BuildsInside (input.map (buildRow hash buildKey)) ∧
      ∀ steps state, (join.build (input.map (buildRow hash buildKey))).Run
        (fun _ _ => True) steps state →
        state.remaining = [] → state.workers = [] →
          (∀ bucket < 2 ^ join.hashBits, ∃ first chain, state.table.head[bucket]? = some first ∧
            Chain state.table.load endOfChain first chain) ∧
          ∀ rows, ∃ out, join.probeAll hash buildKey probeKey state.table input.length rows =
            some out ∧
            out.Perm (join.pairs buildKey probeKey input rows)

end

open HashJoinChained

/-! ### The heads are allocated below 31 bits -/

theorem opened_isSome_iff {V : Type} (j : HashJoinChained) :
    (j.opened : Option (Table V)).isSome ↔ j.hashBits < 31 := by
  unfold opened headBytes headSize
  by_cases hd : j.hashBits < 32
  · have hc : ∀ b < 32, (4 * (1#32 <<< b).signExtend 64 + 4 : BitVec 64).toNat < 2 ^ 63 ↔
        b < 31 := by
      decide
    have hs := hc j.hashBits hd
    simp only [if_pos hd, Option.bind_eq_bind, Option.bind_some, Option.pure_def]
    split_ifs with hf
    · exact ⟨fun _ => hs.mp hf, fun _ => rfl⟩
    · exact ⟨fun ho => absurd ho Bool.false_ne_true, fun few => absurd (hs.mpr few) hf⟩
  · simp only [if_neg hd, Option.bind_eq_bind, Option.bind_none, Option.isSome_none]
    exact ⟨fun ho => absurd ho Bool.false_ne_true, fun few => absurd (by omega) hd⟩

/-! ### The order of the exchanges -/

open Worker

section

variable {V : Type} {join jo : HashJoinChained} {input : List (BuildRow V)}

def HashJoinChained.bucketOf (join : HashJoinChained) (worker : Worker V) : Nat :=
  worker.row.hash % 2 ^ join.hashBits

def Worker.element (worker : Worker V) (packet : Nat) : Element V :=
  ⟨if packet = 0 then worker.oldHead else none, worker.row.packet packet⟩

def Worker.StoredFrom (worker : Worker V) : Nat → List (List (Option (Element V))) → Prop
  | _, [] => True
  | packet, array :: rest =>
    array[worker.index.toNat]? = some (some (worker.element packet)) ∧
      worker.StoredFrom (packet + 1) rest

def Worker.waits (worker : Worker V) : Bool := worker.oldHead.isNone

def Build.fresh (build : Build V) : List (Worker V) := build.workers.filter Worker.waits

structure Build.Linked (join : HashJoinChained) (input : List (BuildRow V)) (build : Build V)
    (linked : List (Worker V)) : Prop where
  counted : build.Counted join input
  threaded : Threaded endOfChain Worker.index join.bucketOf (fun worker head =>
    worker.oldHead = some head) linked
  heads : ∀ bucket < 2 ^ join.hashBits,
    build.table.head[bucket]? = some (headOf endOfChain Worker.index join.bucketOf bucket linked)
  rows : ((linked ++ build.fresh).map Worker.row ++ build.remaining).Perm input
  indices : ((linked ++ build.fresh).map Worker.index).Nodup
  below : ∀ worker ∈ linked, worker.index.toNat < build.table.cnt.toNat
  pending : ∀ worker ∈ build.workers, worker.oldHead ≠ none → worker ∈ linked
  stored : ∀ worker ∈ linked, worker ∈ build.workers ∨ worker.StoredFrom 0 build.table.arrays
  packets : build.table.arrays.length = join.buildPacketWidths.length

theorem openBuild_linked : (⟨jo.openBuild, input, []⟩ : Build V).Linked jo input [] where
  counted := openBuild_counted
  threaded := trivial
  heads _ hi := List.getElem?_replicate_of_lt hi
  rows := .refl _
  indices := nodup_nil
  below _ hm := absurd hm not_mem_nil
  pending _ hm := absurd hm not_mem_nil
  stored _ hm := absurd hm not_mem_nil
  packets := length_map _

/-! ### A worker takes an index -/

theorem Build.Linked.nextIndex {b : Build V} {l : List (Worker V)} {r : BuildRow V} {p : Nat}
    (hh : b.Linked jo input l) (ht : b.remaining[p]? = some r)
    (hc : (b.nextIndex r p).Counted jo input)
    (hg : b.table.cnt.toNat < (b.table.cnt + 1).toNat) :
    (b.nextIndex r p).Linked jo input l := by
  have hf : (b.nextIndex r p).fresh = b.fresh ++ [⟨r, b.table.cnt, none⟩] := by
    unfold Build.fresh Build.nextIndex
    rw [filter_append]
    rfl
  obtain ⟨hi, rfl⟩ := List.getElem?_eq_some_iff.mp ht
  refine ⟨hc, hh.threaded, hh.heads, ?_, ?_, fun w hm => ?_, ?_, ?_, hh.packets⟩
  · rw [hf, ← append_assoc, map_append, append_assoc]
    exact (List.Perm.append_left _ (getElem_cons_eraseIdx_perm hi)).trans hh.rows
  · rw [hf, ← append_assoc, map_append, map_singleton]
    refine nodup_append.mpr ⟨hh.indices, nodup_singleton _, ?_⟩
    intro i hb o new hs
    obtain ⟨w, hm, rfl⟩ := mem_map.mp hb
    have old : w.index.toNat < b.table.cnt.toNat := by
      rcases mem_append.mp hm with he | hw
      · exact hh.below w he
      · exact hh.counted.below w (mem_filter.mp hw).1
    rw [hs, mem_singleton.mp new] at old
    exact lt_irrefl _ old
  · exact lt_trans (hh.below w hm) hg
  · intro w hm he
    rcases mem_append.mp hm with hb | new
    · exact hh.pending w hb he
    · rw [mem_singleton.mp new] at he
      exact absurd rfl he
  · intro w hm
    rcases hh.stored w hm with hgo | hd
    · exact .inl (mem_append_left _ hgo)
    · exact .inr hd

/-! ### A worker exchanges the head of a bucket -/

theorem moved_perm {β : Type*} (f : Worker V → β) {w : Worker V} (l b a : List (Worker V))
    (oh : BitVec 32) (hw : w.oldHead = none)
    (hs : f { w with oldHead := some oh } = f w) :
    (({ w with oldHead := some oh } :: l ++
      (b ++ { w with oldHead := some oh } :: a).filter Worker.waits).map f).Perm
      ((l ++ (b ++ w :: a).filter Worker.waits).map f) := by
  have hst : w.waits = true := by
    unfold Worker.waits
    rw [hw]
    rfl
  have hl := Bool.false_ne_true
  rw [filter_append, filter_append, filter_cons_of_neg hl, filter_cons_of_pos hst,
    cons_append, map_cons, hs, ← map_cons, ← append_assoc, ← append_assoc]
  exact List.Perm.map f perm_middle.symm

theorem Build.Linked.replaceHead {bu : Build V} {l : List (Worker V)} {w : Worker V} {p : Nat}
    {oldHead : BitVec 32} (hho : bu.Linked jo input l) (ht : bu.workers[p]? = some w)
    (hw : w.oldHead = none) (hf : bu.table.head[jo.bucketOf w]? = some oldHead)
    {n : Build V} (hd : n = { bu with
      table := { bu.table with head := bu.table.head.set (jo.bucketOf w) w.index }
      workers := bu.workers.set p { w with oldHead } })
    (hc : n.Counted jo input) :
    n.Linked jo input ({ w with oldHead } :: l) := by
  subst hd
  have hb : jo.bucketOf w < 2 ^ jo.hashBits := Nat.mod_lt _ (Nat.two_pow_pos _)
  obtain ⟨b, a, hwh, -, hr⟩ := split_at ht
  have hp {β : Type} (f : Worker V → β) (hs : f { w with oldHead := some oldHead } = f w) :
      (({ w with oldHead := some oldHead } :: l ++
        (bu.workers.set p { w with oldHead := some oldHead }).filter Worker.waits).map f).Perm
        ((l ++ bu.fresh).map f) := by
    rw [hr, Build.fresh, hwh]
    exact moved_perm f l b a oldHead hw hs
  refine ⟨hc, ⟨?_, hho.threaded⟩, fun o hi => ?_, ?_, ?_, ?_, ?_, ?_, hho.packets⟩
  · exact hf.symm.trans (hho.heads _ hb)
  · show (bu.table.head.set (jo.bucketOf w) w.index)[o]? = _
    have hs : jo.bucketOf { w with oldHead := some oldHead } = jo.bucketOf w := rfl
    rw [headOf, hs]
    by_cases own : jo.bucketOf w = o
    · rw [if_pos own, ← own, List.getElem?_set_self (by rw [hho.counted.buckets]; exact hb)]
    · rw [if_neg own, List.getElem?_set_ne own]
      exact hho.heads o hi
  · exact (List.Perm.append_right _ (hp Worker.row rfl)).trans hho.rows
  · exact (hp Worker.index rfl).nodup_iff.mpr hho.indices
  · intro o hm
    rcases mem_cons.mp hm with rfl | he
    · exact hho.counted.below w (mem_of_getElem? ht)
    · exact hho.below o he
  · intro o hm he
    rcases mem_or_eq_of_mem_set hm with hg | rfl
    · exact mem_cons_of_mem _ (hho.pending o hg he)
    · exact mem_cons_self
  · intro o hm
    show o ∈ bu.workers.set p _ ∨ _
    rw [hr]
    rcases mem_cons.mp hm with rfl | he
    · exact .inl (mem_append_right _ mem_cons_self)
    · rcases hho.stored o he with hg | hst
      · rw [hwh, mem_append, mem_cons] at hg
        rcases hg with hh | rfl | hh
        · exact .inl (mem_append_left _ hh)
        · obtain ⟨head, hma⟩ := hho.threaded.linked he
          rw [hw] at hma
          exact absurd hma (some_ne_none head).symm
        · exact .inl (mem_append_right _ (mem_cons_of_mem _ hh))
      · exact .inr hst

/-! ### A worker stores its row -/

theorem storePackets_spec {w : Worker V} {p : Nat} {ars a : List (List (Option (Element V)))}
    (hst : storePackets w p ars = some a) :
    a.length = ars.length ∧ w.StoredFrom p a ∧ ∀ o : Worker V, o.index ≠ w.index →
      o.StoredFrom p ars → o.StoredFrom p a := by
  induction ars generalizing p a with
  | nil =>
    rw [← some.inj hst]
    exact ⟨rfl, trivial, fun _ _ _ => trivial⟩
  | cons ar tl ih =>
    obtain ⟨f, first_stored, hl⟩ := bind_eq_some_iff.mp hst
    obtain ⟨os, others_stored, all⟩ := bind_eq_some_iff.mp hl
    obtain ⟨hle, own, hf⟩ := ih others_stored
    obtain ⟨hi, rfl⟩ := store_eq_some first_stored
    rw [← some.inj all]
    refine ⟨congrArg (· + 1) hle, ⟨?_, own⟩, fun o ha ht => ⟨?_, hf o ha ht.2⟩⟩
    · rw [List.getElem?_set_self hi]
      rfl
    · rw [List.getElem?_set_ne fun hs => ha (BitVec.eq_of_toNat_eq hs.symm)]
      exact ht.1

theorem Build.Linked.storeRow {bu : Build V} {l : List (Worker V)} {w : Worker V} {p : Nat}
    {arrays : List (List (Option (Element V)))} (hho : bu.Linked jo input l)
    (ht : bu.workers[p]? = some w) (he : w.oldHead ≠ none)
    (hst : storePackets w 0 bu.table.arrays = some arrays) {n : Build V}
    (hd : n = { bu with
      table := { bu.table with arrays }, workers := bu.workers.eraseIdx p })
    (hc : n.Counted jo input) : n.Linked jo input l := by
  subst hd
  have hm := hho.pending w (mem_of_getElem? ht) he
  obtain ⟨b, a, hw, her, -⟩ := split_at ht
  have hf : (bu.workers.eraseIdx p).filter waits = bu.fresh := by
    have hl : ¬ w.waits = true := by
      unfold waits
      rw [isNone_iff_eq_none]
      exact he
    rw [her, Build.fresh, hw, filter_append, filter_append, filter_cons_of_neg hl]
  refine ⟨hc, hho.threaded, hho.heads, ?_, ?_, hho.below, ?_, fun o linked_other => ?_, ?_⟩
  · show ((l ++ (bu.workers.eraseIdx p).filter _).map _ ++ _).Perm _
    rw [hf]
    exact hho.rows
  · show ((l ++ (bu.workers.eraseIdx p).filter _).map _).Nodup
    rw [hf]
    exact hho.indices
  · intro o hg
    exact hho.pending o (mem_of_mem_eraseIdx hg)
  · show o ∈ bu.workers.eraseIdx p ∨ o.StoredFrom 0 arrays
    have hdi : (l.map index).Nodup := by
      have hi := hho.indices
      rw [map_append] at hi
      exact hi.of_append_left
    -- indices tell the workers apart, so no other row is overwritten
    by_cases hs : o.index = w.index
    · rw [inj_on_of_nodup_map hdi linked_other hm hs]
      exact .inr (storePackets_spec hst).2.1
    · rcases hho.stored o linked_other with hg | hk
      · rw [hw, mem_append, mem_cons] at hg
        rw [her, mem_append]
        rcases hg with hh | rfl | hh
        · exact .inl (.inl hh)
        · exact absurd rfl hs
        · exact .inl (.inr hh)
      · exact .inr ((storePackets_spec hst).2.2 _ hs hk)
  · exact (storePackets_spec hst).1.trans hho.packets

/-! ### Runs -/

/-- **The step lemma**: a worker's step keeps the order of the exchanges, or makes the next one. -/
theorem Build.Linked.next (hsh : input.length < 2 ^ 32) {b a : Build V} {l : List (Worker V)}
    {st : BuildStep} (hh : b.Linked jo input l) (he : (jo.build input).Enabled b st)
    (hd : b.next jo st = some a) : ∃ l, a.Linked jo input l := by
  have hc := hh.counted.next hsh hd
  cases st with
  | nextIndex p =>
    obtain ⟨r, hth, ht⟩ := bind_eq_some_iff.mp hd
    obtain rfl := some.inj ht
    obtain ⟨hi, -⟩ := List.getElem?_eq_some_iff.mp hth
    have hto := hh.counted.taken
    have hg : (b.table.cnt + 1).toNat = _ := toNat_succ (by omega)
    exact ⟨l, hh.nextIndex hth hc (by omega)⟩
  | replaceHead p =>
    obtain ⟨w, hth, hw⟩ := he
    obtain ⟨s, ha, hr⟩ := bind_eq_some_iff.mp hd
    obtain rfl := some.inj (hth.symm.trans ha)
    obtain ⟨oh, hf, set⟩ := bind_eq_some_iff.mp hr
    exact ⟨_, hh.replaceHead hth hw hf (some.inj set).symm hc⟩
  | storeRow p =>
    obtain ⟨w, hth, hex⟩ := he
    obtain ⟨s, ha, row_stored⟩ := bind_eq_some_iff.mp hd
    obtain rfl := some.inj (hth.symm.trans ha)
    obtain ⟨ars, hs, hfi⟩ := bind_eq_some_iff.mp row_stored
    exact ⟨l, hh.storeRow hth hex hs (some.inj hfi).symm hc⟩

/-- **The run lemma.** -/
theorem run_linked (hs : input.length < 2 ^ 32) {ss : List BuildStep} {s : Build V}
    (run : (jo.build input).Run (fun _ _ => True) ss s) : ∃ l, s.Linked jo input l := by
  refine run.invariant (fun b => ∃ l, b.Linked jo input l) (fun st hi => ?_)
    fun _ _ _ hh he _ hd => ?_
  · rw [show st = _ from hi]
    exact ⟨[], openBuild_linked⟩
  · obtain ⟨l, hh⟩ := hh
    exact hh.next hs he hd

end

/-! ### The chains of a finished build -/

section

variable {V K P : Type} {j : HashJoinChained}

theorem mapM_loadElement {w : Worker V} (hn : 0 ≤ w.index.toInt) {p : Nat}
    {ars : List (List (Option (Element V)))} (hs : w.StoredFrom p ars) :
    ars.mapM (loadElement w.index) = some ((List.range' p ars.length).map w.element) := by
  induction ars generalizing p with
  | nil => rfl
  | cons a tl ih =>
    have hf : loadElement w.index a = some (w.element p) := by
      unfold loadElement
      rw [if_pos hn, hs.1]
      rfl
    rw [mapM_cons, hf, ih hs.2]
    rfl

theorem Table.load_stored {t : Table V} {w : Worker V} {hd : BitVec 32} (hn : 0 ≤ w.index.toInt)
    (hp : t.arrays.length = j.buildPacketWidths.length) (hs : w.StoredFrom 0 t.arrays)
    (hf : w.oldHead = some hd) :
    t.load w.index = some (hd, j.packets w.row.packet) := by
  obtain ⟨c, hm⟩ := Nat.exists_eq_succ_of_ne_zero fun hno =>
    j.packets_ne (List.length_eq_zero_iff.mp hno)
  have hfi : (List.range' 0 (c + 1)).map w.element = w.element 0 ::
      (List.range' 1 c).map w.element := rfl
  have hl : (w.element 0).link = some hd := hf
  unfold Table.load HashJoinChained.packets
  rw [mapM_loadElement hn hs, hp, hm, List.range_eq_range']
  simp only [Option.bind_eq_bind, Option.bind_some, hfi, List.head?_cons, hl, Option.pure_def]
  rw [← hfi, List.map_map]
  rfl

/-- **The chain of a bucket** when every row is stored. -/
theorem Build.Linked.chain {i : List (BuildRow V)} {bu : Build V} {l : List (Worker V)}
    (hh : bu.Linked j i l) (hsh : i.length < 2 ^ 31) (hfi : bu.workers = [])
    (b : Nat) :
    Chain bu.table.load endOfChain (headOf endOfChain index j.bucketOf b l)
      ((l.filter fun w => j.bucketOf w = b).map fun w =>
        j.packets w.row.packet) := by
  refine hh.threaded.chain (fun w => j.packets w.row.packet) (fun w hm hd hf => ?_) b
  have hsm : w.index.toNat < 2 ^ 31 := by
    have hb := hh.below w hm
    have ht := hh.counted.taken
    omega
  refine ⟨fun hl => ?_, ?_⟩
  · have hla : endOfChain.toNat = 2 ^ 32 - 1 := by decide
    rw [hl, hla] at hsm
    omega
  · have hn : w.index.toInt = w.index.toNat := BitVec.toInt_eq_toNat_of_lt (by omega)
    rcases hh.stored w hm with hg | hs
    · rw [hfi] at hg
      exact absurd hg not_mem_nil
    · exact Table.load_stored (by omega) hh.packets hs hf

theorem chainFollow_chain [DecidableEq K] {t : Table V} (bk : V → K) (k : K) {cu : BitVec 32}
    {c : List (List V)} (hf : Chain t.load endOfChain cu c) (ps : Nat)
    (he : c.length ≤ ps) :
    t.chainFollow bk k ps cu = some (c.filter fun pas => pas.head?.map bk = some k) := by
  induction hf generalizing ps with
  | stop => cases ps <;> rfl
  | @link i n x tl hi hl _ ih =>
    obtain ⟨m, rfl⟩ :=
      Nat.exists_eq_succ_of_ne_zero (Nat.ne_of_gt (lt_of_lt_of_le (Nat.succ_pos _) he))
    have ht := ih m (Nat.le_of_succ_le_succ he)
    rw [Table.chainFollow, if_neg hi, hl]
    simp only [Option.bind_eq_bind, Option.bind_some, ht, Option.pure_def, Option.some.injEq]
    by_cases own : x.head?.map bk = some k
    · rw [if_pos own, List.filter_cons_of_pos (by simpa using own)]
    · rw [if_neg own, List.filter_cons_of_neg (by simpa using own)]

/-! ### The pairs -/

theorem head?_packets (t : Nat → V) : (j.packets t).head? = some (t 0) := by
  obtain ⟨c, hm⟩ := Nat.exists_eq_succ_of_ne_zero fun hn => j.packets_ne (length_eq_zero_iff.mp hn)
  unfold packets
  rw [hm, range_eq_range']
  rfl

variable [DecidableEq K] {h : K → Nat} {bk : V → K}

theorem matches_perm (j : HashJoinChained) {l : List (Worker V)} {i : List (Nat → V)}
    (hr : (l.map row).Perm (i.map (buildRow h bk))) (k : K) :
    (((l.filter fun w => j.bucketOf w = h k % 2 ^ j.hashBits).map fun w =>
        j.packets w.row.packet).filter fun ps => ps.head?.map bk = some k).Perm
      ((i.filter fun t => bk (t 0) = k).map j.packets) := by
  let ib (row : BuildRow V) : Bool := row.hash % 2 ^ j.hashBits = h k % 2 ^ j.hashBits
  let ofRow (row : BuildRow V) : List V := j.packets row.packet
  let ok (ps : List V) : Bool := ps.head?.map bk = some k
  calc _ = (((l.map row).filter ib).map ofRow).filter ok := by
        refine congrArg (List.filter ok) ?_
        rw [List.filter_map, List.map_map]
        rfl
    List.Perm _ ((((i.map (buildRow h bk)).filter ib).map ofRow).filter ok) :=
      ((hr.filter ib).map ofRow).filter ok
    _ = (i.filter fun t => bk (t 0) = k).map j.packets := by
        rw [List.filter_map (f := buildRow h bk), List.map_map, List.filter_map, List.filter_filter]
        refine congrArg (List.map j.packets) (List.filter_congr fun t _ => ?_)
        have own : ok (ofRow (buildRow h bk t)) = decide (bk (t 0) = k) := by
          simp only [ok, ofRow, buildRow, head?_packets, Option.map_some, Option.some.injEq]
        show (ok (ofRow (buildRow h bk t)) && ib (buildRow h bk t)) = _
        rw [own]
        -- rows of the key are in its bucket
        by_cases hs : bk (t 0) = k
        · have ht : ib (buildRow h bk t) = true :=
            decide_eq_true (congrArg (fun k => h k % 2 ^ j.hashBits) hs)
          rw [ht, Bool.and_true]
        · rw [decide_eq_false hs, Bool.false_and]

theorem Build.Linked.probe {i : List (Nat → V)} {b : Build V} {l : List (Worker V)}
    (hh : b.Linked j (i.map (buildRow h bk)) l) (hs : i.length < 2 ^ 31)
    (ht : b.remaining = []) (hf : b.workers = []) (pk : P → K) (r : P) :
    ∃ f, j.probe h bk pk b.table i.length r = some f ∧
      f.Perm ((i.filter fun t => bk (t 0) = pk r).map fun t =>
        (j.packets t, r)) := by
  have hr : (l.map Worker.row).Perm (i.map (buildRow h bk)) := by
    have all := hh.rows
    rw [Build.fresh, hf, ht, List.filter_nil, List.append_nil, List.append_nil] at all
    exact all
  have hb : h (pk r) % 2 ^ j.hashBits < 2 ^ j.hashBits := Nat.mod_lt _ (Nat.two_pow_pos _)
  have hc := hh.chain (by rw [List.length_map]; exact hs) hf (h (pk r) % 2 ^ j.hashBits)
  have he := hr.length_eq
  rw [length_map, length_map] at he
  have hfo := chainFollow_chain bk (pk r) hc i.length (by
    rw [length_map]
    exact le_trans (length_filter_le ..) he.le)
  unfold HashJoinChained.probe
  rw [hh.heads _ hb, bind_eq_bind, bind_some, hfo, bind_eq_bind, bind_some]
  refine ⟨_, rfl, ?_⟩
  have hp := (matches_perm j hr (pk r)).map fun ps => (ps, r)
  rw [List.map_map] at hp
  exact hp

end

/-- **The join is exact**, with any hash and whatever the workers do, when there are fewer than 31
bits. With more there is no table. -/
theorem joins_exactly_iff {V K P : Type} [DecidableEq K] (join : HashJoinChained)
    (small : join.maxBuildInputSize < 2 ^ 31) (hash : K → Nat) (buildKey : V → K)
    (probeKey : P → K) :
    join.JoinsExactly hash buildKey probeKey ↔ join.hashBits < 31 := by
  refine ⟨fun he => (opened_isSome_iff join).mp he.1, fun few => ?_⟩
  refine ⟨(opened_isSome_iff join).mpr few, fun i hf => ⟨?_, fun ss s run ht hfi => ?_⟩⟩
  · exact buildsInside_of_room (by rw [length_map]; exact hf) small.le
  · have hs : (i.map (buildRow hash buildKey)).length < 2 ^ 31 := by
      rw [length_map]
      omega
    obtain ⟨l, hh⟩ := run_linked (by omega) run
    refine ⟨fun b hi => ⟨_, _, hh.heads b hi, hh.chain hs hfi b⟩, fun ro => ?_⟩
    choose f hpr hp using fun r : P =>
      hh.probe (by omega) ht hfi probeKey r
    refine ⟨ro.flatMap f, ?_, List.Perm.flatMap_left ro fun r _ => hp r⟩
    unfold probeAll
    rw [mapM_eq_some fun r _ => hpr r]
    rfl

/-- The join of one packet with a table of two buckets. -/
def twoBuckets : HashJoinChained := ⟨[64], 1, 2, demoJoin.packets_ne⟩

theorem joins_exactly_two :
    twoBuckets.JoinsExactly (fun key : Nat => key) (fun value : Nat × Nat => value.1)
        (fun row : Nat => row) :=
  (joins_exactly_iff twoBuckets (by decide) _ _ _).mpr (by decide)

/-- With 31 bits, `1 << hash_bits` is negative. -/
theorem no_heads_allocated : ¬ (⟨[64], 31, 2, by decide⟩ : HashJoinChained).JoinsExactly
    (fun key : Nat => key) (fun value : Nat × Nat => value.1) (fun row : Nat => row) := by
  intro he
  have ho : (opened ⟨[64], 31, 2, by decide⟩ : Option (Table (Nat × Nat))) = none := by decide
  have ha := he.1
  rw [ho] at ha
  exact absurd ha Bool.false_ne_true

end Proteus.Olap
