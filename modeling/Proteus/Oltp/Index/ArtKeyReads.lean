/-
**The bytes of a key that an insertion reads** (`insert_recursive_opt`, `prefix_match`,
`copyPrefix`).

An insertion compares its key with the prefixes on its way, takes one byte at each inner node, and
compares it with the key of the leaf it comes to. The loop of this last comparison tests its bound
after the bytes, and stops at the end of the keys only once it has taken a step: where the leaf
hangs at the end of its key, it reads the byte behind.

* `insertReads` — the indices that one insertion uses, node by node as `insertNode` goes.
* `Crowded` — a leaf of the key hangs at the end of the key: some other key shares all bytes but the
  last.
* `insertReads_inside_iff` — one insertion stays inside exactly if its key is not crowded.
* `reads_inside_iff` — so does a sequence of insertions, exactly if no key is inserted again after
  another key that differs from it in the last byte only.
-/

import Proteus.Oltp.Index.ArtMiss

namespace Proteus.Oltp.Index

open List

variable {width : Nat} {V : Type}

/-! ### The indices -/

def prefixReads (key : Key width) : Nat → List KeyUnit → List Nat
  | _, [] => []
  | depth, expected :: rest =>
    depth :: if key.units[depth]? = some expected then prefixReads key (depth + 1) rest else []

def comparisonReads (key2 key : Key width) : Nat → Nat → List Nat
  | 0, index => [index]
  | left + 1, index =>
    index :: if key2.units[index]? = key.units[index]? ∧ left ≠ 0 then
      comparisonReads key2 key left (index + 1) else []

def parentReads (parent : Bool) (depth : Nat) : List Nat := if parent then [depth - 1] else []

def insertReads (key : Key width) : Nat → Option (Node width V) → Nat → Bool → List Nat
  | 0, _, _, _ => []
  | _ + 1, none, _, _ => []
  | _ + 1, some (.leaf key2 _), depth, parent =>
    let newPrefixLength := sharedFrom key2 key (width - depth) depth
    comparisonReads key2 key (width - depth) depth ++ if width ≤ depth + newPrefixLength then []
      else (List.range newPrefixLength).map (depth + ·) ++
        [depth + newPrefixLength, depth + newPrefixLength] ++ parentReads parent depth
  | fuel + 1, some (.inner nodePrefix layout), depth, parent =>
    prefixReads key depth nodePrefix ++ match prefixMatch key depth nodePrefix with
      | .error _ => []
      | .ok mismatch =>
        if mismatch ≠ nodePrefix.length then (depth + mismatch) :: parentReads parent depth
        else
          (depth + nodePrefix.length) :: match key.unit (depth + nodePrefix.length) with
            | .error _ => []
            | .ok unit =>
              match layout.getChild unit with
              | none =>
                (depth + nodePrefix.length) :: if layout.isFull then parentReads parent depth else
                []
              | some child => insertReads key fuel (some child) (depth + nodePrefix.length + 1) true

/-- The indices that a sequence of insertions uses. -/
def insertAllReads : Option (Node width V) → List (Key width × V) → List Nat
  | _, [] => []
  | root, entry :: entries =>
    insertReads entry.1 (width + 1) root 0 false ++ match insert root entry with
      | .error _ => []
      | .ok after => insertAllReads after entries

/-! ### One insertion -/

variable {node n : Node width V}

section

variable {key k : Key width} {path pa np : List KeyUnit}

theorem prefixReads_below (d : Nat) (np : List KeyUnit) :
    ∀ i ∈ prefixReads key d np, i < d + np.length := by
  induction np generalizing d with
  | nil => simp [prefixReads]
  | cons e tl ih =>
    rw [prefixReads, length_cons, forall_mem_cons]
    refine ⟨by omega, ?_⟩
    split_ifs with hs
    · intro i hi
      have low := ih (d + 1) i hi
      omega
    · simp

theorem comparisonReads_below (l d : Nat) (some_left : 0 < l) :
    ∀ i ∈ comparisonReads k key l d, i < d + l := by
  induction l generalizing d with
  | zero => omega
  | succ l ih =>
    rw [comparisonReads, forall_mem_cons]
    refine ⟨by omega, ?_⟩
    split_ifs with hg
    · intro i hi
      have low := ih (d + 1) (by omega) i hi
      omega
    · simp

theorem parentReads_below (p : Bool) {d : Nat} (hp : 0 < width) (hw : d ≤ width) :
    ∀ i ∈ parentReads p d, i < width := by
  unfold parentReads
  split_ifs
  · rw [forall_mem_singleton]
    omega
  · simp

def Crowded (path : List KeyUnit) (node : Node width V) (key : Key width) : Prop :=
  ∃ value, Member node key value ∧ (path.length = width ∨ ∃ other stored, Member node other stored ∧
    other ≠ key ∧ other.units.take (width - 1) = key.units.take (width - 1))

variable {v : V} {f : Nat}

theorem crowded_leaf (hsp : pa <+: key.units) (hs2 : pa <+: k.units) :
    Crowded pa (.leaf k v) key ↔ pa.length = width := by
  constructor
  · intro hc
    obtain ⟨_, hm, he | ⟨o, _, hme, ha, _⟩⟩ := hc
    · exact he
    · cases hm
      cases hme
      exact absurd rfl ha
  · intro he
    have hs : k = key := by
      apply Key.ext_units
      rw [← hsp.eq_of_length (he.trans key.length.symm),
        ← hs2.eq_of_length (he.trans k.length.symm)]
    subst hs
    exact ⟨v, .leaf _ _, .inl he⟩

theorem take_eq_path (hs : pa <+: key.units) (hl : pa.length = width - 1) :
    key.units.take (width - 1) = pa := by
  rw [← hl]
  exact (prefix_iff_eq_take.mp hs).symm

theorem crowded_inner {l : Layout (Node width V)} {u : KeyUnit} {c : Node width V}
    (hp : InnerParts pa np l) (hn : pa ++ np ++ [u] <+: key.units)
    (hf : l.getChild u = some c) :
    Crowded pa (.inner np l) key ↔ Crowded (pa ++ np ++ [u]) c key := by
  obtain ⟨hsh, _, hc, hbr⟩ := hp
  have hb {key : Key width} (hh : pa ++ np ++ [u] <+: key.units) (v : V) :
      Member (.inner np l) key v ↔ Member c key v := by
    rw [member_child hc hh]
    simp [hf]
  constructor
  · intro hcr
    obtain ⟨v, hm, hen | ⟨o, st, hme, ha, hsd⟩⟩ := hcr
    · omega
    refine ⟨v, (hb hn v).mp hm, ?_⟩
    rw [deeper_length]
    by_cases hl : pa.length + np.length + 1 = width
    · exact .inl hl
    · -- The other key shares the byte at which the node decides.
      refine .inr ⟨o, st, (hb ?_ st).mp hme, ha, hsd⟩
      have he : (pa ++ np ++ [u]).length ≤ width - 1 := by
        rw [deeper_length]
        omega
      have cut := prefix_take_iff.mpr ⟨hn, he⟩
      rw [← hsd] at cut
      exact (prefix_take_iff.mp cut).1
  · intro hcr
    obtain ⟨v, hm, hen | ⟨o, st, hme, ha, hsd⟩⟩ := hcr
    · rw [deeper_length] at hen
      refine ⟨v, (hb hn v).mpr hm, .inr ?_⟩
      obtain ⟨u', hd, ht⟩ : ∃ u', u' ≠ u ∧ (l.getChild u').isSome := by
        obtain ⟨f, s, ha, hle, hr⟩ := hbr
        by_cases hs : f = u
        · exact ⟨s, fun second_same => ha (hs.trans second_same.symm), hr⟩
        · exact ⟨f, hs, hle⟩
      obtain ⟨si, hsf⟩ := Option.isSome_iff_exists.mp ht
      obtain ⟨o, st, hme⟩ := (hc u' si hsf).nonempty
      have hno := (hc u' si hsf).spelled hme
      have hl : (pa ++ np).length = width - 1 := by
        rw [length_append]
        omega
      refine ⟨o, st, .inner hsf hme, ?_, ?_⟩
      · intro hs
        subst hs
        exact hd (next_unique hno hn)
      · rw [take_eq_path ((prefix_append _ _).trans hn) hl,
          take_eq_path ((prefix_append _ _).trans hno) hl]
    · exact ⟨v, (hb hn v).mpr hm, .inr ⟨o, st, .inner hf hme, ha, hsd⟩⟩

theorem leafReads_inside_iff (p : Bool) (hp : 0 < width) (hs : pa <+: key.units) :
    (∀ i ∈ insertReads key (f + 1) (some (.leaf k v)) pa.length p, i < width) ↔
      pa.length ≠ width := by
  have hw : pa.length ≤ width := key.length ▸ hs.length_le
  constructor
  · intro hi hen
    have hf := hi pa.length (by
      rw [insertReads, hen, Nat.sub_self]
      exact mem_append_left _ mem_cons_self)
    omega
  · intro he
    rw [insertReads, forall_mem_append]
    refine ⟨fun i ha => ?_, ?_⟩
    · have low := comparisonReads_below (width - pa.length) pa.length (by omega) i ha
      omega
    · split_ifs with hwh
      · simp
      · simp only [forall_mem_append, forall_mem_cons, forall_mem_map, mem_range]
        refine ⟨⟨fun s low => by omega, by omega, by omega, by simp⟩, parentReads_below p hp hw⟩

/-- **One insertion reads inside its key** exactly if the key is not crowded below the node. -/
theorem insertReads_inside_iff (hp : 0 < width) (hs : Stored pa n)
    (hsp : pa <+: key.units) (he : width < f + pa.length) (p : Bool) :
    (∀ i ∈ insertReads key f (some n) pa.length p, i < width) ↔ ¬ Crowded pa n key := by
  induction hs generalizing f p with
  | @leaf pa k v hs2 =>
    have hw := hsp.length_le
    rw [key.length] at hw
    obtain ⟨f, rfl⟩ : ∃ l, f = l + 1 := ⟨f - 1, by omega⟩
    rw [leafReads_inside_iff p hp hsp, crowded_leaf hsp hs2]
  | @inner pa np la hsh hwf hc hbr ih =>
    obtain ⟨f, rfl⟩ : ∃ l, f = l + 1 := ⟨f - 1, by omega⟩
    have hfi : ∀ i ∈ prefixReads key pa.length np, i < width := fun i ham =>
      (prefixReads_below pa.length np i ham).trans hsh
    have hab := parentReads_below p hp (show pa.length ≤ width by omega)
    rcases walk_inner hsh hsp with
      ⟨m, _, _, hco, _, ht, hh, ha⟩ | ⟨u, hco, hh, hn⟩
    · have low := (List.getElem?_eq_some_iff.mp ht).1
      rw [insertReads, hco]
      simp only [ne_eq, low.ne, not_false_eq_true, if_true, forall_mem_append, forall_mem_cons]
      refine iff_of_true ⟨hfi, by omega, hab⟩ ?_
      intro hcr
      obtain ⟨v, hm, _⟩ := hcr
      obtain ⟨s, c, hf, hb⟩ := member_inner.mp hm
      exact not_spelled_of_mismatch ht hh ha ((prefix_append _ _).trans ((hc s c hf).spelled hb))
    · rw [insertReads, hco]
      cases hf : la.getChild u with
      | none =>
        simp only [ne_eq, not_true_eq_false, if_false, Key.unit_eq hh, hf, forall_mem_append,
          forall_mem_cons]
        refine iff_of_true ⟨hfi, hsh, hsh, ?_⟩ ?_
        · split_ifs
          · exact hab
          · simp
        · intro hcr
          obtain ⟨v, hm, _⟩ := hcr
          obtain ⟨c, hb, _⟩ := (member_child hc hn).mp hm
          rw [hf] at hb
          cases hb
      | some c =>
        have hd := ih u c hf hn (show width < f + _ by rw [deeper_length]; omega) true
        rw [deeper_length] at hd
        rw [crowded_inner ⟨hsh, hwf, hc, hbr⟩ hn hf, ← hd]
        simp only [ne_eq, not_true_eq_false, if_false, Key.unit_eq hh, hf, forall_mem_append,
          forall_mem_cons]
        exact ⟨fun hi => hi.2.2, fun hi => ⟨hfi, hsh, hi⟩⟩

end

/-! ### A sequence of insertions -/

section

variable {entries es : List (Key width × V)} {r : Option (Node width V)}

theorem firstValue_isSome {k : Key width} :
    (∃ v, firstValue es k = some v) ↔ k ∈ es.map Prod.fst := by
  rw [← inserted_iff]
  exact mem_map.symm

def Neighboured (entries : List (Key width × V)) (key : Key width) : Prop :=
  key ∈ entries.map Prod.fst ∧ ∃ other ∈ entries.map Prod.fst, other ≠ key ∧
    other.units.take (width - 1) = key.units.take (width - 1)

theorem crowded_root (hp : 0 < width)
    (hme : ∀ k v, Member n k v ↔ firstValue es k = some v) (k : Key width) :
    Crowded [] n k ↔ Neighboured es k := by
  have hs (k : Key width) : (∃ v, Member n k v) ↔ k ∈ es.map Prod.fst := by
    simp only [hme]
    exact firstValue_isSome
  unfold Crowded Neighboured
  constructor
  · intro hc
    obtain ⟨v, hm, he | ⟨o, ol, hmm, ha, hsh⟩⟩ := hc
    · rw [length_nil] at he
      omega
    · exact ⟨(hs k).mp ⟨v, hm⟩, o, (hs o).mp ⟨ol, hmm⟩, ha, hsh⟩
  · intro hn
    obtain ⟨hi, o, hoi, ha, hsh⟩ := hn
    obtain ⟨v, hm⟩ := (hs k).mpr hi
    obtain ⟨ol, hmm⟩ := (hs o).mpr hoi
    exact ⟨v, hm, .inr ⟨o, ol, hmm, ha, hsh⟩⟩

theorem insert_inside_iff (hp : 0 < width) (hh : Holds r es) (k : Key width) :
    (∀ i ∈ insertReads k (width + 1) r 0 false, i < width) ↔ ¬ Neighboured es k := by
  cases r with
  | none =>
    obtain rfl : es = [] := hh
    simp [insertReads, Neighboured]
  | some node =>
    obtain ⟨hs, hm⟩ := hh
    have he := Nat.lt_succ_self width
    rw [← crowded_root hp hm]
    exact insertReads_inside_iff hp hs nil_prefix he false

theorem insertAllReads_inside_iff (hp : 0 < width)
    {ea : List (Key width × V)} (hh : Holds r ea) (es : List (Key width × V)) :
    (∀ i ∈ insertAllReads r es, i < width) ↔
      ∀ b e a, es = b ++ e :: a → ¬ Neighboured (ea ++ b) e.1 := by
  induction es generalizing r ea with
  | nil => simp [insertAllReads]
  | cons e es ih =>
    obtain ⟨a, hd, hah⟩ := insert_holds hh e
    rw [insertAllReads, hd]
    simp only [forall_mem_append]
    rw [insert_inside_iff hp hh, ih hah]
    constructor
    · intro hb b o tl hs
      cases b with
      | nil =>
        obtain ⟨rfl, rfl⟩ := List.cons.inj hs
        rw [append_nil]
        exact hb.1
      | cons head b =>
        obtain ⟨rfl, ht⟩ := List.cons.inj hs
        rw [append_cons]
        exact hb.2 b o tl ht
    · intro all
      refine ⟨?_, fun b o tl hs => ?_⟩
      · have now := all [] e es rfl
        rwa [append_nil] at now
      · have hl := all (e :: b) o tl (by rw [hs]; rfl)
        rwa [append_cons] at hl

/-- **A sequence of insertions into the empty tree reads inside the keys** exactly if no key is
inserted again after another key that differs from it in the last byte only. -/
theorem reads_inside_iff (positive : 0 < width) (entries : List (Key width × V)) :
    (∀ index ∈ insertAllReads none entries, index < width) ↔
      ∀ before entry after, entries = before ++ entry :: after → entry.1 ∈ before.map Prod.fst →
        ∀ other ∈ before.map Prod.fst, other.units.take (width - 1) = entry.1.units.take
          (width - 1) →
          other = entry.1 := by
  have he : Holds (none : Option (Node width V)) [] := rfl
  rw [insertAllReads_inside_iff positive he entries]
  simp only [nil_append]
  constructor
  · intro all before entry after hsp hag other hi hs
    by_contra ha
    exact all before entry after hsp ⟨hag, other, hi, ha, hs⟩
  · intro all before entry after hsp hn
    obtain ⟨hag, other, hi, ha, hs⟩ := hn
    exact ha (all before entry after hsp hag other hi hs)

/-- A key of one byte. -/
def byteKey (unit : KeyUnit) : Key 1 := ⟨[unit], rfl⟩

/-- Two keys of one byte, both new. -/
theorem reads_inside_two : 0 ∈ insertAllReads none [(byteKey 1, 10), (byteKey 2, 20)] ∧
    ∀ index ∈ insertAllReads none [(byteKey 1, 10), (byteKey 2, 20)], index < 1 := by
  refine ⟨by decide, (reads_inside_iff Nat.one_pos _).mpr ?_⟩
  intro b e a hs ha
  match b, hs with
  | [], _ => simp at ha
  | [f], hs =>
    obtain ⟨hh, ht⟩ := List.cons.inj hs
    obtain ⟨rfl, _⟩ := List.cons.inj ht
    simp [byteKey, ← hh] at ha
  | _ :: _ :: b, hs => simp at hs

/-- The first of two keys of one byte again: its leaf hangs at the end of the key. -/
theorem reinserted_read_behind : 1 ∈ insertAllReads none [(byteKey 1, 10), (byteKey 2, 20),
    (byteKey 1, 30)] := by
  decide

end

end Proteus.Oltp.Index
