/-
**Lookup of absent keys in the adaptive radix tree** (`oltp/index/ART/art.hpp`).

`getByKey_opt` leaves its loop at a leaf with another key and at a prefix that does not match. Where
the node for the next byte of the key does not exist, it calls `readUnlockOrRestart` on the null
pointer first.

Whether a lookup gets there does not depend on the shape of the tree, only on the inserted keys:
`LeavesAtBranch` says that at the byte at which the key leaves them, two of them part.

* `getByKey_absent` — the result of every lookup of an absent key below any node.
* `find_absent_iff` — over every sequence of insertions, an absent key is reported as absent exactly
  if it does not leave the inserted keys at a branch.
-/

import Proteus.Oltp.Index.Art

namespace Proteus.Oltp.Index

open List Option

variable {width : Nat} {V : Type}

/-- Behind some bytes of `key`, two stored keys part, and none of those continues with the next byte
of `key`. -/
def LeavesAtBranch (stored : Key width → Prop) (key : Key width) : Prop :=
  ∃ path unit, path ++ [unit] <+: key.units ∧
    (∀ other, stored other → ¬ path ++ [unit] <+: other.units) ∧
    ∃ first second, first ≠ second ∧ (∃ other, stored other ∧ path ++ [first] <+: other.units) ∧
      ∃ other, stored other ∧ path ++ [second] <+: other.units

def Leaf (node : Node width V) (key : Key width) : Prop :=
  ∃ value, Member node key value

section

variable {k o : Key width} {pa lo np : List KeyUnit} {node : Node width V}
  {l : Layout (Node width V)}

theorem next_unique {f s : KeyUnit} (hl : pa ++ [f] <+: k.units)
    (hr : pa ++ [s] <+: k.units) : f = s := by
  have hs : pa <+: k.units := (prefix_append _ _).trans hl
  have hh := (spelled_snoc hs).mp hl
  rw [(spelled_snoc hs).mp hr] at hh
  exact (some.inj hh).symm

variable {st : Key width → Prop} {u : KeyUnit} {c : Node width V}

theorem not_leavesAtBranch_of_stored (hm : st k) : ¬ LeavesAtBranch st k := by
  rintro ⟨pa, u, hs, ha, _⟩
  exact ha k hm hs

theorem LeavesAtBranch.deep (hsh : ∀ o, st o → lo <+: o.units) {f s : KeyUnit}
    (ha : f ≠ s) (hle : ∃ o, st o ∧ pa ++ [f] <+: o.units)
    (hr : ∃ o, st o ∧ pa ++ [s] <+: o.units) : lo.length ≤ pa.length := by
  by_contra hl
  obtain ⟨one, ho, hos⟩ := hle
  obtain ⟨two, ht, hts⟩ := hr
  have hf : ∀ u : KeyUnit, (pa ++ [u]).length ≤ lo.length := fun u => by
    rw [length_append, length_singleton]
    omega
  have hop := prefix_of_prefix_length_le hos (hsh one ho) (hf f)
  have htp := prefix_of_prefix_length_le hts (hsh two ht) (hf s)
  have hs := List.IsPrefix.eq_of_length (prefix_of_prefix_length_le hop htp (by simp)) (by simp)
  exact ha (List.cons.inj (append_cancel_left hs)).1

variable (children : ∀ u c, l.getChild u = some c → Stored (pa ++ np ++ [u]) c)
    (found : l.getChild u = some c) (here : pa ++ np ++ [u] <+: k.units)

include children found here

theorem leaf_child : Leaf (.inner np l) k ↔ Leaf c k := by
  refine exists_congr fun v => (member_child children here).trans ?_
  simp [found]

/-- **Below a child**, the branches that matter are those of the child. -/
theorem leavesAtBranch_child :
    LeavesAtBranch (Leaf (.inner np l)) k ↔ LeavesAtBranch (Leaf c) k := by
  have hcs := children u c found
  have hsh : ∀ o, Leaf c o → pa ++ np ++ [u] <+: o.units := fun o ⟨v, hm⟩ => hcs.spelled hm
  have hi : ∀ o, Leaf c o → Leaf (.inner np l) o :=
    fun o hl => (leaf_child children found (hsh o hl)).mpr hl
  constructor
  · rintro ⟨p, n, hs, haw, f, s, ha, ⟨one, hol, ho⟩, ⟨two, htl, hts⟩⟩
    have hd : pa ++ np ++ [u] <+: p := by
      refine prefix_of_prefix_length_le here ((prefix_append _ _).trans hs) ?_
      by_contra hlo
      obtain ⟨some, v, hm⟩ := hcs.nonempty
      refine haw some (hi some ⟨v, hm⟩) ?_
      refine (prefix_of_prefix_length_le hs here ?_).trans (hsh some ⟨v, hm⟩)
      rw [length_append, length_singleton]
      omega
    have hb : ∀ {o u}, Leaf (.inner np l) o → p ++ [u] <+: o.units → Leaf c o := fun hl hos =>
      (leaf_child children found ((hd.trans (prefix_append _ _)).trans hos)).mp hl
    exact ⟨p, n, hs, fun o hl => haw o (hi o hl), f, s, ha,
      ⟨one, hb hol ho, ho⟩, ⟨two, hb htl hts, hts⟩⟩
  · rintro ⟨p, n, hs, haw, f, s, ha, one, two⟩
    have hd : pa ++ np ++ [u] <+: p :=
      prefix_of_prefix_length_le here ((prefix_append _ _).trans hs)
        (LeavesAtBranch.deep hsh ha one two)
    refine ⟨p, n, hs, fun o hl hos => ?_, f, s, ha, one.imp fun o hbo => ⟨hi o hbo.1, hbo.2⟩,
      two.imp fun o hbo => ⟨hi o hbo.1, hbo.2⟩⟩
    exact haw o ((leaf_child children found ((hd.trans (prefix_append _ _)).trans hos)).mp hl) hos

end

/-! ### The result of a lookup -/

section

variable {k : Key width} {pa : List KeyUnit} {n : Node width V}

/-- **A lookup of an absent key** ends at a null node if the key leaves the stored ones at a branch,
and without a result otherwise. No byte behind the key is read. -/
theorem getByKey_absent (hst : Stored pa n) (hsp : pa <+: k.units)
    (hab : ¬ Leaf n k) {f : Nat} (he : width < f + pa.length) :
    (LeavesAtBranch (Leaf n) k ∧ getByKey k f n pa.length = .error .nullNode) ∨
      (¬ LeavesAtBranch (Leaf n) k ∧ getByKey k f n pa.length = .ok none) := by
  induction hst generalizing f with
  | @leaf pa lk v hls =>
    have hw := hsp.length_le
    rw [k.length] at hw
    obtain ⟨f, rfl⟩ : ∃ l, f = l + 1 := ⟨f - 1, by omega⟩
    have ho : k ≠ lk := by
      rintro rfl
      exact hab ⟨v, .leaf _ _⟩
    refine Or.inr ⟨?_, congrArg Except.ok (if_neg ho)⟩
    rintro ⟨p, u, _, _, fi, s, ha, ⟨one, ⟨_, ⟨⟩⟩, hon⟩, ⟨two, ⟨_, ⟨⟩⟩, hts⟩⟩
    exact ha (next_unique hon hts)
  | @inner pa np la hsh hwf hc hbr ih =>
    obtain ⟨f, rfl⟩ : ∃ l, f = l + 1 := ⟨f - 1, by omega⟩
    have hsd : ∀ ho, Leaf (.inner np la) ho → pa ++ np <+: ho.units := by
      rintro ho ⟨v, hm⟩
      obtain ⟨u, c, hf, hb⟩ := member_inner.mp hm
      exact (prefix_append _ _).trans ((hc u c hf).spelled hb)
    rcases walk_inner hsh hsp with ⟨len, _, _, hco, _, ht, hh, ha⟩ | ⟨u, hco, hh, hn⟩
    · have low : len < np.length := (List.getElem?_eq_some_iff.mp ht).1
      refine Or.inr ⟨?_, ?_⟩
      · rintro ⟨p, hn, hns, haw, fi, s, hdi, one, two⟩
        have hd := LeavesAtBranch.deep hsd hdi one two
        obtain ⟨ho, hl, hos⟩ := one
        refine not_spelled_of_mismatch ht hh ha ?_
        exact (prefix_of_prefix_length_le (hsd ho hl)
          ((prefix_append _ _).trans hos) hd).trans ((prefix_append _ _).trans hns)
      · simp only [getByKey, hco, bind, Except.bind, ne_eq, low.ne, not_false_eq_true, if_true]
    · cases hf : la.getChild u with
      | none =>
        refine Or.inl ⟨⟨pa ++ np, u, hn, ?_, ?_⟩, ?_⟩
        · rintro ho ⟨v, hm⟩ hos
          obtain ⟨c, hb, _⟩ := (member_child hc hos).mp hm
          rw [hf] at hb
          cases hb
        · obtain ⟨fi, s, ha, hle, hri⟩ := hbr
          have hr : ∀ u, (la.getChild u).isSome → ∃ ho, Leaf (.inner np la) ho ∧
              pa ++ np ++ [u] <+: ho.units := by
            intro u hp
            obtain ⟨c, hb⟩ := isSome_iff_exists.mp hp
            obtain ⟨ho, v, hm⟩ := (hc u c hb).nonempty
            exact ⟨ho, ⟨v, .inner hb hm⟩, (hc u c hb).spelled hm⟩
          exact ⟨fi, s, ha, hr fi hle, hr s hri⟩
        · simp only [getByKey, hco, bind, Except.bind, ne_eq, not_true_eq_false, if_false,
            Key.unit_eq hh, hf]
      | some c =>
        have hs : getByKey k (f + 1) (.inner np la) pa.length =
            getByKey k f c (pa ++ np ++ [u]).length := by
          rw [deeper_length]
          simp only [getByKey, hco, bind, Except.bind, ne_eq, not_true_eq_false, if_false,
            Key.unit_eq hh, hf]
        rw [hs, leavesAtBranch_child hc hf hn]
        exact ih u c hf hn (fun hl => hab ((leaf_child hc hf hn).mpr hl))
          (by rw [deeper_length]; omega)

end

/-! ### Absent keys after any insertions -/

/-- The keys of a sequence of insertions. -/
def Inserted (entries : List (Key width × V)) (key : Key width) : Prop :=
  ∃ entry ∈ entries, entry.1 = key

theorem inserted_iff (es : List (Key width × V)) (k : Key width) :
    Inserted es k ↔ ∃ v, firstValue es k = some v := by
  unfold Inserted firstValue
  rw [← isSome_iff_exists, isSome_map, List.find?_isSome]
  simp

/-- **Lookup of absent keys.** After every sequence of insertions, a key that was not inserted is
reported as absent, by both versions of `find`, exactly if it does not leave the inserted keys at a
branch; otherwise the lookup dereferences a null node. -/
theorem find_absent_iff [Inhabited V] (entries : List (Key width × V)) (key : Key width) :
    ∃ root, insertAll entries = .ok root ∧
      ((¬ Inserted entries key → (∀ before, find root key before = .ok (false, before)) ∧
        findValue root key = .ok default) ↔ ¬ LeavesAtBranch (Inserted entries) key) := by
  obtain ⟨root, hd, hh⟩ := insertAll_spec entries
  refine ⟨root, hd, ?_⟩
  by_cases hi : Inserted entries key
  · exact iff_of_true (fun ha => absurd hi ha) (not_leavesAtBranch_of_stored hi)
  cases root with
  | none =>
    obtain rfl : entries = [] := hh
    refine iff_of_true (fun _ => ⟨fun _ => rfl, rfl⟩) ?_
    rintro ⟨_, _, _, _, _, _, _, ⟨_, ⟨_, hn, _⟩, _⟩, _⟩
    cases hn
  | some n =>
    obtain ⟨hst, hm⟩ := hh
    have hs : Inserted entries = Leaf n := by
      funext o
      refine propext ((inserted_iff entries o).trans (exists_congr fun v => ?_))
      exact (hm o v).symm
    rw [hs] at hi ⊢
    have he : width < width + 1 + ([] : List KeyUnit).length := Nat.lt_succ_self width
    rcases getByKey_absent hst nil_prefix hi he with ⟨hb, hf⟩ | ⟨hc, hmi⟩
    · refine iff_of_false (fun hr => ?_) (not_not.mpr hb)
      have v := (hr hi).2
      rw [length_nil] at hf
      simp only [findValue, findImpl, hf, bind, Except.bind, reduceCtorEq] at v
    · refine iff_of_true (fun _ => ?_) hc
      rw [length_nil] at hmi
      simp only [find, findValue, findImpl, hmi, bind, Except.bind, implies_true, and_self]

/-- Two one-byte keys, `0` and `1`, and a lookup of `2`. -/
theorem absent_byte_nullNode : ∃ root : Option (Node 1 Nat),
    insertAll [(⟨[0], rfl⟩, 10), (⟨[1], rfl⟩, 11)] = .ok root ∧
        ¬ Inserted [((⟨[0], rfl⟩ : Key 1), 10), (⟨[1], rfl⟩, 11)] ⟨[2], rfl⟩ ∧
        find root ⟨[2], rfl⟩ 0 = .error .nullNode ∧
            findValue root ⟨[2], rfl⟩ = .error .nullNode := by
  refine ⟨_, rfl, ?_, rfl, rfl⟩
  simp [Inserted]

end Proteus.Oltp.Index
