/-
**Tries with words on their edges.**

The edges of a trie are labelled with non-empty words, and at most one edge of a node continues
along any given word. The place of a node is the word that is read on the way to it from the root.

* `At.split`, `At.parent_unique` — a place determines the way to it.
* `Graft` — one node is replaced by another one, at the same place, and the nodes below it are hung
  up again at their old places. `Graft.at_iff` says where every node is then.
* `replaces_root`, `replaces_child` — a node is replaced by one write, to the root or to its parent.
-/

import Mathlib.Data.List.Infix

namespace Proteus.Library

open List Option

structure Trie (N L : Type) where
  root : Option N
  edge : N → List L → N → Prop
  nonempty : ∀ {node label child}, edge node label child → label ≠ []
  deterministic : ∀ {node first second left right word}, edge node first left →
    edge node second right →
    first <+: word → second <+: word → first = second ∧ left = right

namespace Trie

variable {N L : Type}

/-- The place of a node. -/
inductive At (trie : Trie N L) : List L → N → Prop
  | root {node : N} (here : trie.root = some node) : At trie [] node
  | child {path label : List L} {node child : N} (above : At trie path node)
      (edge : trie.edge node label child) : At trie (path ++ label) child

/-- The word from a node to one below it. -/
inductive Below (trie : Trie N L) : N → List L → N → Prop
  | refl {node : N} : Below trie node [] node
  | step {node child last : N} {label path : List L} (edge : trie.edge node label child)
      (below : Below trie child path last) : Below trie node (label ++ path) last

/-- Every node has one place. -/
def Injective (trie : Trie N L) : Prop :=
  ∀ {first second node}, trie.At first node → trie.At second node → first = second

section

variable {t : Trie N L} {n o c : N} {p pl l s : List L}

theorem Below.snoc (hb : t.Below n p o) (he : t.edge o l c) : t.Below n (p ++ l) c := by
  induction hb with
  | refl =>
    have one := Below.step he .refl
    rwa [append_nil] at one
  | step hf _ ih =>
    rw [append_assoc]
    exact .step hf (ih he)

theorem Below.eq_of_nil (hb : t.Below n [] o) : n = o := by
  generalize hs : ([] : List L) = w at hb
  cases hb with
  | refl => rfl
  | step he _ => exact absurd (append_eq_nil_iff.mp hs.symm).1 (t.nonempty he)

variable {la : N}

theorem Below.split (hb : t.Below n p o) (hfu : t.Below n pl la)
    (hs : p <+: pl) : ∃ tl, pl = p ++ tl ∧ t.Below o tl la := by
  induction hb generalizing pl with
  | refl => exact ⟨pl, rfl, hfu⟩
  | step he _ ih =>
    cases hfu with
    | refl => exact absurd (append_eq_nil_iff.mp (prefix_nil.mp hs)).1 (t.nonempty he)
    | step he' hb' =>
      obtain ⟨rfl, rfl⟩ := t.deterministic he he' ((prefix_append _ _).trans hs) (prefix_append _ _)
      obtain ⟨tl, rfl, hf⟩ := ih hb' ((prefix_append_right_inj _).mp hs)
      exact ⟨tl, (append_assoc ..).symm, hf⟩

theorem At.from_root (hh : t.At p n) : ∃ r, t.root = some r ∧ t.Below r p n := by
  induction hh with
  | root hh => exact ⟨_, hh, .refl⟩
  | child _ he ih =>
    obtain ⟨r, hf, hb⟩ := ih
    exact ⟨r, hf, hb.snoc he⟩

/-- **A place on the way to another one.** -/
theorem At.split (hh : t.At p n) (ht : t.At pl o) (hs : p <+: pl) :
    ∃ tl, pl = p ++ tl ∧ t.Below n tl o := by
  obtain ⟨r, hf, hb⟩ := hh.from_root
  obtain ⟨r', hf', hb'⟩ := ht.from_root
  obtain rfl := some.inj (hf.symm.trans hf')
  exact hb.split hb' hs

theorem at_nil_iff : t.At [] n ↔ t.root = some n := by
  refine ⟨fun hh => ?_, .root⟩
  obtain ⟨r, hf, hb⟩ := hh.from_root
  exact hb.eq_of_nil ▸ hf

variable (here : t.At p n) (edge : t.edge n l c) (there : t.At pl o)
    (edge' : t.edge o s la) (same : p ++ l = pl ++ s)

include here edge there edge' same

theorem At.parent_of_prefix (hs : p <+: pl) : n = o ∧ p = pl ∧ l = s := by
  obtain ⟨tl, rfl, hb⟩ := here.split there hs
  rw [append_assoc] at same
  have hle := append_cancel_left same
  cases hb with
  | refl => exact ⟨rfl, (append_nil _).symm, hle⟩
  | @step _ _ _ f p first_edge _ =>
    have hbe : f <+: l := by
      rw [hle, append_assoc]
      exact prefix_append _ _
    obtain ⟨rfl, _⟩ := t.deterministic first_edge edge hbe prefix_rfl
    rw [append_assoc, self_eq_append_right] at hle
    exact absurd (append_eq_nil_iff.mp hle).2 (t.nonempty edge')

/-- **A place determines the last edge** on the way to it. -/
theorem At.parent_unique : n = o ∧ p = pl ∧ l = s := by
  have hf : p <+: pl ++ s := same ▸ prefix_append _ _
  rcases prefix_or_prefix_of_prefix hf (prefix_append pl s) with hs | hl
  · exact here.parent_of_prefix edge there edge' same hs
  · obtain ⟨rfl, rfl, rfl⟩ := there.parent_of_prefix edge' here edge same.symm hl
    exact ⟨rfl, rfl, rfl⟩

omit here edge there edge' same

theorem not_at_nil_of_edge (hi : t.Injective) (here : t.At p n)
    (edge : t.edge n l c) (hr : t.root = some c) : False :=
  t.nonempty edge (append_eq_nil_iff.mp (hi (here.child edge) (.root hr))).2

end

/-! ### Replacing a node -/

section

variable [DecidableEq N]

/-- The node that is at a place after `node` was replaced by `top`. -/
def exchange (node top other : N) : N := if other = node then top else other

theorem exchange_self (n top : N) : exchange n top n = top := if_pos rfl

variable {other ot : N} {place : List L}

theorem exchange_of_ne {n : N} (hd : ot ≠ n) (top : N) : exchange n top ot = ot :=
  if_neg hd

/-- One write replaces the node. -/
structure Replaces (old new : Trie N L) (node top : N) : Prop where
  root : new.root = old.root.map (exchange node top)
  kept : ∀ {place other label child}, old.At place other → other ≠ node →
    (new.edge other label child ↔ ∃ before, old.edge other label before ∧
      child = exchange node top before)

structure Graft (old new : Trie N L) (node top : N) (path : List L) (extra : List L → N → Prop) :
    Prop where
  injective : old.Injective
  here : old.At path node
  replaces : Replaces old new node top
  replaced : extra path top
  reached : ∀ {place other}, extra place other → new.At path top → new.At place other
  below : ∀ {label child}, old.edge node label child → new.At path top →
    new.At (path ++ label) child
  closed : ∀ {place other label child}, extra place other → new.edge other label child →
    extra (place ++ label) child ∨ ∃ before, place ++ label = path ++ before ∧
      old.edge node before child

variable {ol new : Trie N L} {n top : N} {p : List L} {e : List L → N → Prop}

namespace Graft

section

variable (graft : Graft ol new n top p e)

include graft

theorem child_ne {l : List L} {c : N} (he : ol.edge n l c) : c ≠ n := by
  rintro rfl
  have hs := graft.injective graft.here (graft.here.child he)
  exact ol.nonempty he (self_eq_append_right.mp hs)

theorem at_update (ht : ol.At place ot) : new.At place (exchange n top ot) := by
  induction ht with
  | root hf =>
    refine .root ?_
    rw [graft.replaces.root, hf, map_some]
  | @child place l ot c ht he ih =>
    by_cases hs : ot = n
    · subst hs
      obtain rfl := graft.injective graft.here ht
      rw [exchange_self] at ih
      rw [exchange_of_ne (graft.child_ne he)]
      exact graft.below he ih
    · rw [exchange_of_ne hs] at ih
      exact ih.child ((graft.replaces.kept ht hs).mpr ⟨c, he, rfl⟩)

/-- **Where the nodes are after the graft.** -/
theorem at_iff : new.At place ot ↔ ol.At place ot ∧ ot ≠ n ∨ e place ot := by
  refine ⟨fun ht => ?_, ?_⟩
  · -- a place that was the replaced node's has the new one now
    have hm : ∀ {place b}, ol.At place b → ol.At place (exchange n top b) ∧
        exchange n top b ≠ n ∨ e place (exchange n top b) := by
      intro place b ht
      by_cases hs : b = n
      · subst hs
        obtain rfl := graft.injective graft.here ht
        rw [exchange_self]
        exact .inr graft.replaced
      · rw [exchange_of_ne hs]
        exact .inl ⟨ht, hs⟩
    induction ht with
    | root hf =>
      rw [graft.replaces.root] at hf
      obtain ⟨b, hr, rfl⟩ := map_eq_some_iff.mp hf
      exact hm (.root hr)
    | child _ he ih =>
      rcases ih with ⟨ht, hd⟩ | ht
      · obtain ⟨b, hoe, rfl⟩ := (graft.replaces.kept ht hd).mp he
        exact hm (ht.child hoe)
      · rcases graft.closed ht he with hi | ⟨l, hs, hoe⟩
        · exact .inr hi
        · rw [hs]
          exact .inl ⟨graft.here.child hoe, graft.child_ne hoe⟩
  · rintro (⟨ht, hd⟩ | ht)
    · have hk := graft.at_update ht
      rwa [exchange_of_ne hd] at hk
    · have hre := graft.at_update graft.here
      rw [exchange_self] at hre
      exact graft.reached ht hre

theorem injective_new (ho : ∀ {f s other}, e f other → e s other → f = s)
    (hf : ∀ {place other f}, e place other → other ≠ n → ¬ ol.At f other) :
    new.Injective := by
  intro f s other hl hr
  rcases graft.at_iff.mp hl with ⟨hl, hd⟩ | hl <;> rcases graft.at_iff.mp hr with ⟨hr, _⟩ | hr
  · exact graft.injective hl hr
  · exact absurd hl (hf hr hd)
  · next hd => exact absurd hr (hf hl hd)
  · exact ho hl hr

end

end Graft

theorem replaces_self (hr : new.root = ol.root)
    (hs : ∀ {place other l c}, ol.At place other → other ≠ n →
      (new.edge other l c ↔ ol.edge other l c)) :
    Replaces ol new n n := by
  have hu : exchange n n = id := by
    funext other
    by_cases hh : other = n
    · rw [hh, exchange_self]
      rfl
    · exact exchange_of_ne hh n
  refine ⟨by rw [hr, hu, Option.map_id, id], fun ht hd => ?_⟩
  rw [hs ht hd, hu]
  refine ⟨fun he => ⟨_, he, rfl⟩, ?_⟩
  rintro ⟨_, he, rfl⟩
  exact he

theorem replaces_root (hi : ol.Injective) (hh : ol.root = some n) (hr : new.root = some top)
    (hs : ∀ {place other l c}, ol.At place other → other ≠ n →
      (new.edge other l c ↔ ol.edge other l c)) :
    Replaces ol new n top := by
  refine ⟨by rw [hr, hh, map_some, exchange_self], fun {place other l c} ht hd => ?_⟩
  have ha : ∀ {b}, ol.edge other l b → b ≠ n := by
    rintro _ he rfl
    exact not_at_nil_of_edge hi ht he hh
  rw [hs ht hd]
  refine ⟨fun he => ⟨c, he, (exchange_of_ne (ha he) _).symm⟩, ?_⟩
  rintro ⟨b, he, rfl⟩
  rw [exchange_of_ne (ha he)]
  exact he

theorem replaces_child (hi : ol.Injective) {p : N} {s : List L}
    (ha : ol.At place p) (he : ol.edge p s n) (hr : new.root = ol.root)
    (hw : ∀ {c}, new.edge p s c ↔ c = top)
    (other_slots : ∀ {l c}, l ≠ s → (new.edge p l c ↔ ol.edge p l c))
    (hs : ∀ {place other l c}, ol.At place other → other ≠ n → other ≠ p →
      (new.edge other l c ↔ ol.edge other l c)) :
    Replaces ol new n top := by
  refine ⟨?_, fun {e other l c} ht hd => ?_⟩
  · rw [hr]
    cases hf : ol.root with
    | none => rfl
    | some f =>
      have haw : f ≠ n := by
        rintro rfl
        exact not_at_nil_of_edge hi ha he hf
      rw [map_some, exchange_of_ne haw]
  · -- the slot is the only edge to the node
    have ho : ∀ {b}, ol.edge other l b → b = n → other = p ∧ l = s := by
      rintro _ he' rfl
      obtain ⟨rfl, _, rfl⟩ := ht.parent_unique he' ha he (hi (ht.child he') (ha.child he))
      exact ⟨rfl, rfl⟩
    by_cases hsh : other = p ∧ l = s
    · obtain ⟨rfl, rfl⟩ := hsh
      rw [hw]
      refine ⟨fun new => ⟨n, he, by rw [new, exchange_self]⟩, ?_⟩
      rintro ⟨b, he', rfl⟩
      obtain ⟨_, rfl⟩ := ol.deterministic he he' prefix_rfl prefix_rfl
      exact exchange_self ..
    · have hu : new.edge other l c ↔ ol.edge other l c := by
        by_cases hip : other = p
        · subst hip
          exact other_slots fun s => hsh ⟨rfl, s⟩
        · exact hs ht hd hip
      rw [hu]
      refine ⟨fun he' => ⟨c, he', ?_⟩, ?_⟩
      · exact (exchange_of_ne (fun hf => hsh (ho he' hf)) _).symm
      · rintro ⟨b, he', rfl⟩
        rw [exchange_of_ne fun hf => hsh (ho he' hf)]
        exact he'

end

end Trie

end Proteus.Library
