/-
**No insertion is lost, if the root stays** (`oltp/index/ART/art.hpp`, `insert`).

A locked node has one owner, so a step of one thread leaves the others what they know, and every key
that was inserted keeps a leaf in the tree. Once all calls have returned, no word is locked, and a
lookup walks down to the leaf.

The pointer to the root has no word. Two threads that find the tree empty both write their leaf to
it; and a thread that has read it may load the word of the node after another thread has put a new
root above.

* `ArtInv` — the tree, what each insertion knows, and whose the locks are.
* `run_finds` — in every run in which the root stays, every inserted key is found once all calls
  have returned.
* `run_locks` — at every moment of such a run a locked node has one owner, no node of the tree is
  obsolete, and the keys of all calls are in the tree or under way.
* `unprotected_root_loses_key` — a run for each of the two ways.
-/

import Proteus.Oltp.Index.ArtInserts

namespace Proteus.Oltp.Index

open Library List Option

variable {T : Type} {width : Nat} {V : Type}

/-! ### The invariant -/

/-- The nodes that a thread has locked. -/
def Thread.Holds (node : Nat) : Thread width V → Prop
  | .inserting _ _ phase => phase.Holds node
  | _ => False

variable {node : Nat} {action : ArtAction T width V} {key k : Key width} {value v : V}
    {actions : List (ArtAction T width V)} {number n : Nat} {result r : Option Nat}

theorem Thread.not_holds_of_idle {t : Thread width V} (hi : t.isIdle = true) : ¬ t.Holds node := by
  cases t with
  | idle => exact id
  | inserting | finding => cases hi

/-- **The condition on a run**: the root stays at every step of an insertion that relies on it. -/
def RootStays (state : ArtState T width V) : ArtAction T width V → Prop
  | .step thread _ => ∀ key value phase, state.threads thread = .inserting key value phase →
    phase.RootStays state.heap
  | _ => True

/-- The insertion of a thread. -/
def insertionOf : Thread width V → Option InsertPhase
  | .inserting _ _ phase => some phase
  | _ => none

def rootStays (state : ArtState T width V) : ArtAction T width V → Bool
  | .step thread _ =>
    match insertionOf (state.threads thread) with
    | some phase => phase.RootStays state.heap
    | none => true
  | _ => true

theorem rootStays_sound {s : ArtState T width V}
    (hp : rootStays s action = true) : RootStays s action := by
  cases action with
  | insert | find => trivial
  | step t tr =>
    intro key value p hf
    simpa only [rootStays, insertionOf, hf, decide_eq_true_iff] using hp

structure ArtInv (state : ArtState T width V) : Prop where
  heap : HeapInv state.heap
  phases : ∀ {thread key value phase}, state.threads thread = .inserting key value phase →
    phase.Inv state.heap key
  locks : ∀ {node}, isLocked (state.heap.words node) = true → ∃ thread,
    (state.threads thread).Holds node
  exclusive : ∀ {node first second}, (state.threads first).Holds node →
    (state.threads second).Holds node →
    first = second
  inserted : ∀ key ∈ state.inserted, Present state.heap key

open ArtState

theorem ArtInv.initial : ArtInv (initial : ArtState T width V) where
  heap := .initial
  phases := nofun
  locks := fun {node} hl => absurd (show isLocked 4 = true from hl) (by decide)
  exclusive := nofun
  inserted := nofun

namespace ArtInv

variable {st a : ArtState T width V} {th : T} {ac : ArtAction T width V} {node : Nat}

theorem locked (inv : ArtInv st) (hh : (st.threads th).Holds node) :
    isLocked (st.heap.words node) = true := by
  cases hp : st.threads th with
  | inserting key value now =>
    rw [hp] at hh
    exact (inv.phases hp).locked hh
  | idle | finding =>
    rw [hp] at hh
    exact hh.elim

theorem free_of_idle (inv : ArtInv st) (hi : ∀ th, (st.threads th).isIdle = true)
    {p : List KeyUnit} (hh : st.heap.trie.At p node) : IsFree (st.heap.words node) := by
  refine ⟨Bool.eq_false_of_not_eq_true fun hl => ?_, inv.heap.current hh⟩
  obtain ⟨th, hho⟩ := inv.locks hl
  exact Thread.not_holds_of_idle (hi th) hho

variable [DecidableEq T] {new : Thread width V} (inv : ArtInv st)

include inv

/-- **A step of one thread** that leaves the others what they know. -/
theorem update {heap : Heap width V} {inserted : List (Key width)}
    (hhi : HeapInv heap) (hl : Leaves st.heap heap fun node => (st.threads th).Holds node)
    (hmo : ∀ node, Moves st.heap heap (fun node => (st.threads th).Holds node)
      (fun node => new.Holds node) node)
    (hni : ∀ {key value p}, new = .inserting key value p → p.Inv heap key)
    (hp : ∀ key ∈ inserted, key ∈ st.inserted ∨ Present heap key) :
    ArtInv { st.become th new with heap, inserted } := by
  have hse := st.become_self th new
  have ho : ∀ {o}, o ≠ th → (st.become th new).threads o = st.threads o :=
    fun hd => st.become_other hd new
  -- a node that another thread holds is not one that this thread takes
  have ha : ∀ {node o}, o ≠ th → new.Holds node → ¬ (st.threads o).Holds node := by
    intro node o hd hh hth
    rcases hmo node with ⟨_, hs⟩ | ⟨hfr, _⟩ | ⟨_, hg, _⟩
    · exact hd (inv.exclusive hth (hs.mp hh))
    · have := isLocked_iff.mp (inv.locked hth)
      omega
    · exact hg hh
  refine ⟨hhi, ?_, ?_, ?_, ?_⟩
  · intro o key value p hf
    by_cases hs : o = th
    · subst hs
      exact hni (hse.symm.trans hf)
    · have hb := (ho hs).symm.trans hf
      refine (inv.phases hb).stable hl fun node hh own => hs ?_
      exact inv.exclusive (by rw [hb]; exact hh) own
  · intro node hlo
    have hko : (new.Holds node ↔ (st.threads th).Holds node) → (∃ o, (st.threads o).Holds node) →
          ∃ o, ((st.become th new).threads o).Holds node := by
      rintro hs ⟨o, hh⟩
      by_cases own : o = th
      · subst own
        exact ⟨o, by rw [hse]; exact hs.mpr hh⟩
      · exact ⟨o, by rw [ho own]; exact hh⟩
    rcases hmo node with ⟨hw, hs⟩ | ⟨_, ht⟩ | ⟨_, _, hu⟩
    · exact hko hs (inv.locks (hw ▸ hlo))
    · exact ⟨th, by rw [hse]; exact ht⟩
    · exact absurd (hu.symm.trans hlo) (by decide)
  · intro node f s hle hr
    replace hle : ((st.become th new).threads f).Holds node := hle
    replace hr : ((st.become th new).threads s).Holds node := hr
    by_cases hfo : f = th <;> by_cases hso : s = th
    · rw [hfo, hso]
    · subst hfo
      rw [hse] at hle
      rw [ho hso] at hr
      exact absurd hr (ha hso hle)
    · subst hso
      rw [hse] at hr
      rw [ho hfo] at hle
      exact absurd hle (ha hfo hr)
    · rw [ho hfo] at hle
      rw [ho hso] at hr
      exact inv.exclusive hle hr
  · intro key hm
    exact (hp key hm).elim (fun old => hl.keeps.present (inv.inserted key old)) id

theorem update_quiet (hb : ∀ node, ¬ (st.threads th).Holds node) (hl : ∀ node, ¬ new.Holds node)
    (hni : ∀ {key value p}, new = .inserting key value p → p.Inv st.heap key) :
    ArtInv (st.become th new) := by
  refine inv.update inv.heap ⟨.refl _ _, inv.locked, fun _ => le_rfl, fun _ _ => rfl⟩
    (fun node => .inl ⟨rfl, ?_⟩) hni fun _ => .inl
  exact iff_of_false (hl node) (hb node)

/-- **A step of an insertion.** -/
theorem insertion {p : InsertPhase}
    (now : st.threads th = .inserting k v p) (hst : p.RootStays st.heap)
    (t : Torn) :
    ∃ a, st.next (.step th t) = some a ∧ ArtInv a := by
  obtain ⟨h, l, ht, hs⟩ := insertStep_spec inv.heap (inv.phases now) hst v t
  have hl : Leaves st.heap h fun node => (st.threads th).Holds node := by
    rw [now]
    exact hs.leaves
  have hmo : ∀ (new : Thread width V), (∀ node, new.Holds node ↔ ∃ n ∈ l, n.Holds node) → ∀ node,
      Moves st.heap h (fun node => (st.threads th).Holds node)
          (fun node => new.Holds node) node := by
    intro new hh node
    rw [now, funext fun node => propext (hh node)]
    exact hs.moves node
  simp only [ArtState.next, ArtState.advance, now, ht, map_some]
  cases l with
  | some n =>
    refine ⟨_, rfl, inv.update hs.inv hl (hmo _ fun node => ?_) ?_ fun _ => .inl⟩
    · simp only [mem_some_iff, exists_eq_left']
      exact Iff.rfl
    · rintro _ _ _ ⟨⟩
      exact hs.phase n rfl
  | none =>
    refine ⟨_, rfl, inv.update hs.inv hl (hmo _ fun node => ?_) nofun fun o hm => ?_⟩
    · exact iff_of_false id nofun
    · rcases mem_append.mp hm with old | new
      · exact .inl old
      · rw [mem_singleton.mp new]
        exact .inr (hs.done rfl)

/-- **Every step keeps the invariant.** -/
theorem next (he : st.enabled ac = true) (hst : RootStays st ac)
    (ht : st.next ac = some a) : ArtInv a := by
  cases ac with
  | insert th key value =>
    cases ht
    refine inv.update_quiet (fun _ => Thread.not_holds_of_idle he) (fun _ => id) ?_
    rintro _ _ _ ⟨⟩
    trivial
  | find th key =>
    cases ht
    exact inv.update_quiet (fun _ => Thread.not_holds_of_idle he) (fun _ => id) nofun
  | step th t =>
    cases now : st.threads th with
    | idle f =>
      rw [ArtState.enabled, now] at he
      cases he
    | inserting key value p =>
      obtain ⟨_, hs, hk⟩ := inv.insertion now (hst key value p now) t
      cases hs.symm.trans ht
      exact hk
    | finding key p =>
      have hh : ∀ node, ¬ (st.threads th).Holds node := by
        rw [now]
        exact fun _ => id
      simp only [ArtState.next, ArtState.advance, now] at ht
      obtain ⟨l, _, rfl⟩ := map_eq_some_iff.mp ht
      cases l with
      | inl p | inr result => exact inv.update_quiet hh (fun _ => id) nofun

omit inv

theorem of_run (run : (art T width V).Run RootStays actions st) : ArtInv st := by
  refine run.invariant ArtInv ?_ fun _ _ _ inv he hs ht => inv.next he hs ht
  rintro _ rfl
  exact .initial

end ArtInv

/-! ### Calls -/

section

variable [DecidableEq T] {st a : ArtState T width V}

def ArtAction.thread : ArtAction T width V → T
  | .insert thread _ _ | .find thread _ | .step thread _ => thread

theorem next_update (he : st.enabled action = true) (ht : st.next action = some a) :
    ∃ new heap m, a = { st.become action.thread new with heap, inserted := st.inserted ++ m } ∧
      ∀ key value p, st.threads action.thread = .inserting key value p →
        key ∈ m ∨ ∃ l, new = .inserting key value l := by
  cases action with
  | insert t | find t =>
    cases ht
    refine ⟨_, _, [], by rw [append_nil]; rfl, fun key value p now => ?_⟩
    rw [ArtState.enabled, show st.threads t = _ from now] at he
    cases he
  | step t tr =>
    simp only [ArtState.next, ArtState.advance] at ht
    cases now : st.threads t with
    | idle f =>
      rw [now] at ht
      cases ht
    | inserting key value p =>
      rw [now] at ht
      obtain ⟨⟨heap, l⟩, _, rfl⟩ := map_eq_some_iff.mp ht
      cases l with
      | some l =>
        refine ⟨_, heap, [], by rw [append_nil]; rfl, fun k' v' p' hs => .inr ⟨l, ?_⟩⟩
        cases now.symm.trans hs
        rfl
      | none =>
        refine ⟨_, heap, [key], rfl, fun k' v' p' hs => .inl ?_⟩
        cases now.symm.trans hs
        exact mem_singleton_self _
    | finding key p =>
      rw [now] at ht
      obtain ⟨l, _, rfl⟩ := map_eq_some_iff.mp ht
      cases l with
      | inl l | inr result => exact ⟨_, _, [], by rw [append_nil]; rfl,
        fun _ _ _ hs => nomatch now.symm.trans hs⟩

/-- **A call of `insert`** has returned, or is not over. -/
theorem inserted_of_called {Allowed : ArtState T width V → ArtAction T width V → Prop}
    (run : (art T width V).Run Allowed actions st) {c : T} (hc : .insert c k v ∈ actions) :
    k ∈ st.inserted ∨ ∃ p, st.threads c = .inserting k v p := by
  induction run with
  | start => cases hc
  | @step actions st a action run he ha ht ih =>
    rcases mem_append.mp hc with hea | now
    · obtain ⟨new, h, m, rfl, hgo⟩ := next_update he ht
      rcases ih hea with hr | ⟨p, hf⟩
      · exact .inl (mem_append_left _ hr)
      · by_cases own : c = action.thread
        · subst own
          rcases hgo k v p hf with hre | ⟨l, rfl⟩
          · exact .inl (mem_append_right _ hre)
          · exact .inr ⟨l, st.become_self _ _⟩
        · exact .inr ⟨p, (st.become_other own new).trans hf⟩
    · cases mem_singleton.mp now
      cases ht
      exact .inr ⟨.start, st.become_self c _⟩

end

/-! ### Lookups between calls -/

section

variable {heap h : Heap width V} {key k : Key width}

inductive Returns (heap : Heap width V) (key : Key width) : FindPhase → Nat → Option Nat → Prop
  | last {phase : FindPhase} {result : Option Nat}
      (taken : ∀ torn, findStep heap key torn phase = some (.inr result)) :
        Returns heap key phase 1 result
  | step {phase next : FindPhase} {number : Nat} {result : Option Nat}
      (taken : ∀ torn, findStep heap key torn phase = some (.inl next))
      (rest : Returns heap key next number result) :
      Returns heap key phase (number + 1) result

theorem returns_load {d : Nat} {p : Option (Nat × Nat)} (hs : ∀ s ∈ p, s.2 = h.words s.1)
    (hr : Returns h k (.usePrefix node (h.words node) (h.words node) d) n r) :
    ∃ n, Returns h k (.load node p d) n r := by
  have hv : Returns h k (.validate node (h.words node) d) (n + 1) r :=
    .step (fun t => by simp only [findStep, ne_eq, not_true_eq_false, if_false]) hr
  cases p with
  | none => exact ⟨_, .step (fun t => rfl) hv⟩
  | some s =>
    have hc : Returns h k (.checkParent node (h.words node) s d) (n + 1 + 1) r :=
      .step (fun t => by simp only [findStep, hs s rfl, ne_eq, not_true_eq_false, if_false]) hv
    exact ⟨_, .step (fun t => rfl) hc⟩

theorem returns_leaf {d : Nat} (hc : h.cells node = some (.leaf k v)) :
    ∃ number, Returns h k (.usePrefix node (h.words node) (h.words node) d) number (some node) := by
  have hl : Returns h k (.last node (h.words node) (some node)) 1 (some node) :=
    .last fun t => by simp only [findStep, ne_eq, not_true_eq_false, if_false]
  exact ⟨_, .step (fun t => by simp only [findStep, hc, if_true]) hl⟩

theorem returns_inner {c : Nat} {p np : List KeyUnit} {l : Layout Nat}
    {u : KeyUnit} (hu : isLocked (h.words node) = false)
    (hc : h.cells node = some (.inner np l)) (hf : l.getChild u = some c)
    (hs : p ++ (np ++ [u]) <+: k.units)
    (hr : Returns h k (.load c (some (node, h.words node)) (p ++ (np ++ [u])).length) n r) :
    ∃ n, Returns h k (.usePrefix node (h.words node) (h.words node) p.length) n r := by
  have ha : p ++ np <+: k.units := by
    rw [← append_assoc] at hs
    exact (prefix_append _ _).trans hs
  have hua : k.units[p.length + np.length]? = some u := by
    obtain ⟨ta, hw⟩ := hs
    rw [← hw, ← length_append, ← append_assoc p, append_assoc, List.getElem?_append_right le_rfl,
      Nat.sub_self]
    rfl
  have hco : ∀ t, h.comparePrefix k node p.length t = .matched (p.length + np.length) := by
    intro t
    simp only [Heap.comparePrefix, hc, hu, Bool.false_eq_true, if_false, prefixMatch_eq ha, ne_eq,
      not_true_eq_false]
  have hca : ∀ t, h.childOf k node (p.length + np.length) t = some c := by
    intro t
    simp only [Heap.childOf, hc, hu, Bool.false_eq_true, if_false, hua, hf]
  have hl : (p ++ (np ++ [u])).length = p.length + np.length + 1 := by
    simp only [length_append, length_singleton, Nat.add_assoc]
  rw [hl] at hr
  have hd : Returns h k (.useChild node (h.words node) (h.words node) (p.length + np.length))
        (n + 1) r :=
    .step (fun t => by simp only [findStep, hca, map_some]) hr
  exact ⟨_, .step (fun t => by simp only [findStep, hc, hco]) hd⟩

/-- **A lookup walks down** to a leaf on the bytes of the key, if the nodes on the way are free. -/
theorem returns_below (hfr : ∀ {p node}, h.trie.At p node → IsFree (h.words node))
    {lf : Nat} {p tl : List KeyUnit} (hb : h.trie.Below node tl lf)
    (hc : h.cells lf = some (.leaf k v)) (hh : h.trie.At p node)
    (hsp : p ++ tl <+: k.units) (pa : Option (Nat × Nat))
    (hs : ∀ s ∈ pa, s.2 = h.words s.1) :
    ∃ number, Returns h k (.load node pa p.length) number (some lf) := by
  induction hb generalizing p pa with
  | refl =>
    obtain ⟨_, hf⟩ := returns_leaf hc
    exact returns_load hs hf
  | @step node c l lb tl he hb ih =>
    rw [← append_assoc] at hsp
    obtain ⟨_, hf⟩ := ih hc (hh.child he) hsp (some (node, h.words node)) (by rintro _ ⟨⟩; rfl)
    obtain ⟨_ | ⟨np, la⟩, hnc, hie⟩ := he
    · cases hie
    · obtain ⟨u, hic, rfl⟩ := hie
      obtain ⟨_, hw⟩ := returns_inner (hfr hh).1 hnc hic ((prefix_append _ _).trans hsp) hf
      exact returns_load hs hw

/-- **Where nobody writes, a key in the tree is found.** -/
theorem returns_present (inv : HeapInv h) (hfr : ∀ {p node}, h.trie.At p node →
    IsFree (h.words node))
    (hp : Present h k) :
    ∃ number l value, Returns h k .start number (some l) ∧ h.cells l = some (.leaf k value) := by
  obtain ⟨p, l, value, ht, hc⟩ := hp
  obtain ⟨r, hir, hb⟩ := ht.from_root
  have hh : h.trie.At [] r := .root hir
  obtain ⟨number, hf⟩ := returns_below hfr hb hc hh (inv.good ht hc) none nofun
  have hfi : Returns h k (.first r) (number + 1) (some l) :=
    .step (fun t => by simp only [findStep, if_pos (hfr hh), length_nil]) hf
  exact ⟨_, l, value, .step (fun t => by
    rw [findStep, show h.root = some r from hir]) hfi, hc⟩

end

section

variable [DecidableEq T] {state s : ArtState T width V} {key k : Key width} {thread : T}

theorem become_again (s : ArtState T width V) (thread : T) (o new : Thread width V) :
    (s.become thread o).become thread new = s.become thread new := by
  simp only [become, Function.update_idem]

variable {phase p : FindPhase}

theorem advance_finding {t : Torn} {l : FindPhase ⊕ Option Nat}
    (ht : findStep s.heap k t p = some l) :
    (s.become thread (.finding k p)).advance thread t =
      some (s.become thread (l.elim (.finding k) .idle)) := by
  simp only [advance, become_self]
  rw [show (s.become thread _).heap = s.heap from rfl, ht]
  cases l with
  | inl n | inr result => exact congrArg some (become_again ..)

theorem path_of_returns (hr : Returns s.heap k p n r) {ts : List Torn} (he : ts.length = n) :
    (art T width V).Path (fun _ _ => True) (s.become thread (.finding k p))
      (ts.map (ArtAction.step thread)) (s.become thread (.idle r)) := by
  have hb : ∀ (p : FindPhase) t,
      (art T width V).Enabled (s.become thread (.finding k p)) (.step thread t) := by
    intro p t
    show (!((s.become thread (.finding k p)).threads thread).isIdle) = true
    rw [become_self]
    rfl
  induction hr generalizing ts with
  | last ht =>
    obtain ⟨t, rfl⟩ := length_eq_one_iff.mp he
    exact .cons (hb _ t) trivial (advance_finding (ht t)) .nil
  | step ht _ ih =>
    obtain ⟨t, ts, rfl⟩ := exists_cons_of_length_eq_add_one he
    exact .cons (hb _ t) trivial (advance_finding (ht t)) (ih (Nat.succ.inj he))

/-- **No insertion is lost** in a run in which the root stays: once all calls have returned, a
lookup by any thread finds the key of every call of `insert`. -/
theorem run_finds {actions : List (ArtAction T width V)}
    (run : (art T width V).Run RootStays actions state)
    (returned : ∀ thread, (state.threads thread).isIdle = true) {caller : T} {value : V}
    (called : .insert caller key value ∈ actions) (thread : T) :
    ∃ number leaf stored, state.heap.cells leaf = some (.leaf key stored) ∧
      ∀ torns : List Torn, torns.length = number → (art T width V).Path (fun _ _ => True) state
        (.find thread key :: torns.map (ArtAction.step thread))
        (state.become thread (.idle (some leaf))) := by
  have inv := ArtInv.of_run run
  have hi : key ∈ state.inserted := by
    refine (inserted_of_called run called).resolve_right ?_
    rintro ⟨phase, hf⟩
    have idle := returned caller
    rw [hf] at idle
    cases idle
  obtain ⟨number, leaf, stored, hr, hc⟩ :=
    returns_present inv.heap (inv.free_of_idle returned) (inv.inserted key hi)
  refine ⟨number, leaf, stored, hc, fun torns he => ?_⟩
  exact .cons (returned thread) trivial rfl (path_of_returns hr he)

theorem run_of_follow {actions : List (ArtAction T width V)}
    (hf : (art T width V).follow (fun s action => s.enabled action && rootStays s action)
      .initial actions = some s) : (art T width V).Run RootStays actions s := by
  refine Machine.Run.extend (.start rfl) (Machine.Path.of_follow (fun s action hp => ?_) hf)
  obtain ⟨he, hs⟩ := (Bool.and_eq_true ..).mp hp
  exact ⟨he, rootStays_sound hs⟩

/-- Two threads insert the keys 2 and 3 at once, and one of them has to start again. -/
theorem run_finds_three : ∃ (actions : List (ArtAction Bool 1 Nat)) (state : ArtState Bool 1 Nat),
      (art Bool 1 Nat).Run RootStays actions state ∧
      (∀ thread, (state.threads thread).isIdle = true) ∧
      .insert false ⟨[3], rfl⟩ 9 ∈ actions ∧
      ∃ number leaf stored, state.heap.cells leaf = some (.leaf ⟨[3], rfl⟩ stored) ∧
        ∀ torns : List Torn, torns.length = number → (art Bool 1 Nat).Path (fun _ _ => True) state
          (.find true ⟨[3], rfl⟩ :: torns.map (ArtAction.step true))
          (state.become true (.idle (some leaf))) := by
  have hr :
    ((art Bool 1 Nat).follow (fun state action => state.enabled action && rootStays state action)
      .initial (.insert true ⟨[1], rfl⟩ 7 :: stepsOf true 2 ++ .insert true ⟨[2], rfl⟩ 8 ::
        .insert false ⟨[3], rfl⟩ 9 :: stepsOf false 6 ++ stepsOf true 9 ++ stepsOf false 11)).map
      (fun state => ((state.threads true).isIdle, (state.threads false).isIdle)) = some
      (true, true) := by
    decide +kernel
  obtain ⟨state, hf, idle⟩ := map_eq_some_iff.mp hr
  have run := run_of_follow hf
  have hre : ∀ thread, (state.threads thread).isIdle = true :=
    Bool.forall_bool.mpr ⟨(Prod.mk.inj idle).2, (Prod.mk.inj idle).1⟩
  refine ⟨_, state, run, hre, ?called, run_finds run hre ?called true⟩
  simp

/-- **The locks and the keys**: a locked node has one owner, no node of the tree is obsolete, and
the key of every call of `insert` is in the tree unless that call is not over. -/
structure Protected (actions : List (ArtAction T width V)) (state : ArtState T width V) : Prop where
  owner : ∀ node, isLocked (state.heap.words node) = true ↔ ∃! thread,
    (state.threads thread).Holds node
  current : ∀ path node, state.heap.trie.At path node → isObsolete (state.heap.words node) = false
  kept : ∀ caller key value, .insert caller key value ∈ actions →
    Present state.heap key ∨ ∃ phase, state.threads caller = .inserting key value phase

/-- **At every moment**, not only once all calls have returned. -/
theorem run_locks (run : (art T width V).Run RootStays actions state) :
    Protected actions state := by
  have inv := ArtInv.of_run run
  refine ⟨fun node => ⟨fun hl => ?_, ?_⟩, fun _ _ => inv.heap.current, fun c key value hc => ?_⟩
  · obtain ⟨thread, hh⟩ := inv.locks hl
    exact ⟨thread, hh, fun o ha => inv.exclusive ha hh⟩
  · rintro ⟨thread, hh, -⟩
    exact inv.locked hh
  · exact (inserted_of_called run hc).imp_left (inv.inserted key)

theorem run_locks_branch : ∃ (actions : List (ArtAction Bool 1 Nat)) (state : ArtState Bool 1 Nat),
    (art Bool 1 Nat).Run RootStays actions state ∧ state.heap.root = some 2 ∧
      isLocked (state.heap.words 0) = true ∧ .insert true ⟨[2], rfl⟩ 8 ∈ actions ∧
      .insert false ⟨[3], rfl⟩ 9 ∈ actions ∧ Protected actions state := by
  have hr :
    ((art Bool 1 Nat).follow (fun state action => state.enabled action && rootStays state action)
      .initial (.insert true ⟨[1], rfl⟩ 7 :: stepsOf true 2 ++ .insert true ⟨[2], rfl⟩ 8 ::
        .insert false ⟨[3], rfl⟩ 9 :: stepsOf false 6 ++ stepsOf true 8)).map
      (fun state => (state.heap.root, isLocked (state.heap.words 0))) = some (some 2, true) := by
    decide +kernel
  obtain ⟨state, hf, hs⟩ := map_eq_some_iff.mp hr
  obtain ⟨root, hl⟩ := Prod.mk.inj hs
  exact ⟨_, state, run_of_follow hf, root, hl, by simp, by simp, run_locks (run_of_follow hf)⟩

/-- All calls have returned, and a lookup of an inserted key finds nothing. -/
def LosesKey (actions : List (ArtAction T width V)) (key : Key width) : Prop :=
  ∃ state after caller value thread number, (art T width V).Run (fun _ _ => True) actions state ∧
    (∀ thread, (state.threads thread).isIdle = true) ∧ .insert caller key value ∈ actions ∧
    (art T width V).Path (fun _ _ => True) state (.find thread key :: stepsOf thread number) after ∧
    after.threads thread = .idle none

def foundBy : Thread width V → Option (Option Nat)
  | .idle found => some found
  | _ => none

theorem losesKey_of_follow {actions : List (ArtAction Bool width V)} (c thread : Bool) (v : V)
    (n : Nat) (hc : .insert c k v ∈ actions)
    (hl : (((art Bool width V).follow enabled .initial actions).bind fun state =>
      ((art Bool width V).follow enabled state (.find thread k :: stepsOf thread n)).map fun a =>
        ((state.threads true).isIdle, (state.threads false).isIdle, foundBy (a.threads thread))) =
      some (true, true, some none)) : LosesKey actions k := by
  obtain ⟨state, hfo, hr⟩ := bind_eq_some_iff.mp hl
  obtain ⟨a, hlo, hf⟩ := map_eq_some_iff.mp hr
  simp only [Prod.mk.injEq] at hf
  have hs : ∀ (state : ArtState Bool width V) action, state.enabled action = true →
      (art Bool width V).Enabled state action ∧ True := fun _ _ hp => ⟨hp, trivial⟩
  refine ⟨state, a, c, v, thread, n, Machine.Run.extend (.start rfl) (.of_follow hs hfo),
    Bool.forall_bool.mpr ⟨hf.2.1, hf.1⟩, hc, .of_follow hs hlo, ?_⟩
  cases now : a.threads thread with
  | idle result =>
    rw [now] at hf
    rw [some.inj hf.2.2]
  | inserting | finding =>
    rw [now] at hf
    exact nomatch hf.2.2

/-- **The root is not protected.** Two threads find the tree empty and both write their leaf to the
root. And a thread reads a leaf as the root, another one puts a node above it, and the first then
loads the word of the leaf and writes another node to the root. -/
theorem unprotected_root_loses_key :
    LosesKey (.insert true ⟨[1, 1], rfl⟩ 7 :: .insert false ⟨[2, 1], rfl⟩ 8 :: stepsOf true 1 ++
      stepsOf false 1 ++ stepsOf true 1 ++ stepsOf false 1 : List (ArtAction Bool 2 Nat))
        ⟨[1, 1], rfl⟩ ∧
    LosesKey (.insert true ⟨[1, 1], rfl⟩ 7 :: stepsOf true 2 ++ .insert true ⟨[1, 2], rfl⟩ 8 ::
      .insert false ⟨[2, 1], rfl⟩ 9 :: stepsOf true 1 ++ stepsOf false 9 ++ stepsOf true 8 :
        List (ArtAction Bool 2 Nat)) ⟨[2, 1], rfl⟩ := by
  refine ⟨losesKey_of_follow true true 7 6 (by simp) ?_,
    losesKey_of_follow false true 9 6 (by simp) ?_⟩
  · decide +kernel
  · decide +kernel

end

end Proteus.Oltp.Index
