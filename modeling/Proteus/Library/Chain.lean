/-
**Chains of links.**

A chain goes from an index along links to an end mark. What is met on the way is a list; there is at
most one, and it is finite.

The elements of a table are in buckets, each with a chain of its own. In a list of all the elements,
a bucket starts at the first of its elements, and an element is linked to the next one of its
bucket. Pushes put an element in front of the list, appends at its end.

* `Threaded.chain` — the chain of a bucket has exactly the elements of the bucket, in the order of
  the list.
* `Threaded.append` — what an append does to the links.
-/

import Mathlib

namespace Proteus.Library

open List

section

variable {ι α : Type*}

inductive Chain (load : ι → Option (ι × α)) (last : ι) : ι → List α → Prop where
  | stop : Chain load last last []
  | link {index next : ι} {item : α} {rest : List α} (inside : index ≠ last)
      (loaded : load index = some (next, item)) (tail : Chain load last next rest) :
      Chain load last index (item :: rest)

variable {l : ι → Option (ι × α)} {la i : ι}

theorem Chain.mono {a : ι → Option (ι × α)} {xs : List α} (hc : Chain l la i xs)
    (hk : ∀ i n x, x ∈ xs → l i = some (n, x) → a i = some (n, x)) :
    Chain a la i xs := by
  induction hc with
  | stop => exact .stop
  | link hi hl _ ih =>
    refine .link hi (hk _ _ _ mem_cons_self hl) (ih fun i n x hm => ?_)
    exact hk i n x (mem_cons_of_mem _ hm)

theorem Chain.eq_last (hc : Chain l la i []) : i = la := by
  cases hc
  rfl

theorem Chain.ne_last {x : α} {tl : List α} (hc : Chain l la i (x :: tl)) : i ≠ la := by
  cases hc
  assumption

end

section

variable {ι α β γ : Type*} [DecidableEq β] (last : ι) (indexOf : γ → ι) (bucketOf : γ → β)

def headOf (bucket : β) : List γ → ι
  | [] => last
  | first :: rest => if bucketOf first = bucket then indexOf first else headOf bucket rest

def Threaded (Link : γ → ι → Prop) : List γ → Prop
  | [] => True
  | first :: rest => Link first (headOf last indexOf bucketOf (bucketOf first) rest) ∧
      Threaded Link rest

variable {last indexOf bucketOf} {Link : γ → ι → Prop} {xs : List γ} {l : ι → Option (ι × α)}
    {x : γ} {After : γ → ι → Prop} (threaded : Threaded last indexOf bucketOf Link xs)

include threaded

theorem Threaded.linked (hm : x ∈ xs) : ∃ hd, Link x hd := by
  induction xs with
  | nil => exact absurd hm not_mem_nil
  | cons f tl ih =>
    rcases mem_cons.mp hm with rfl | hl
    · exact ⟨_, threaded.1⟩
    · exact ih threaded.2 hl

theorem Threaded.imp (hk : ∀ x ∈ xs, ∀ hd, Link x hd → After x hd) :
    Threaded last indexOf bucketOf After xs := by
  induction xs with
  | nil => trivial
  | cons f tl ih =>
    rw [forall_mem_cons] at hk
    exact ⟨hk.1 _ threaded.1, ih threaded.2 hk.2⟩

/-- **The chain of a bucket** has the elements of the bucket. -/
theorem Threaded.chain (io : γ → α) (hlo : ∀ x ∈ xs, ∀ hd, Link x hd →
      indexOf x ≠ last ∧ l (indexOf x) = some (hd, io x)) (b : β) :
    Chain l last (headOf last indexOf bucketOf b xs)
      ((xs.filter fun x => bucketOf x = b).map io) := by
  induction xs generalizing b with
  | nil => exact .stop
  | cons f tl ih =>
    obtain ⟨hli, hb⟩ := threaded
    have ht := ih hb fun x hm => hlo x (mem_cons_of_mem _ hm)
    by_cases own : bucketOf f = b
    · obtain ⟨hi, hl⟩ := hlo f mem_cons_self _ hli
      rw [headOf, if_pos own, filter_cons_of_pos (by simpa using own), map_cons]
      exact .link hi hl (own ▸ ht b)
    · rw [headOf, if_neg own, filter_cons_of_neg (by simpa using own)]
      exact ht b

omit threaded

/-! ### Heads -/

theorem headOf_eq_last_iff (hi : ∀ x ∈ xs, indexOf x ≠ last) (b : β) :
    headOf last indexOf bucketOf b xs = last ↔ ∀ x ∈ xs, bucketOf x ≠ b := by
  induction xs with
  | nil => simp [headOf]
  | cons f tl ih =>
    rw [forall_mem_cons] at hi ⊢
    rw [headOf]
    by_cases own : bucketOf f = b
    · rw [if_pos own]
      exact ⟨fun hs => absurd hs hi.1, fun hn => absurd own hn.1⟩
    · rw [if_neg own, ih hi.2]
      exact ⟨fun hn => ⟨own, hn⟩, fun hn => hn.2⟩

theorem headOf_mem (b : β) (xs : List γ) : headOf last indexOf bucketOf b xs = last ∨
      ∃ x ∈ xs, headOf last indexOf bucketOf b xs = indexOf x := by
  induction xs with
  | nil => exact .inl rfl
  | cons f tl ih =>
    rw [headOf]
    by_cases own : bucketOf f = b
    · rw [if_pos own]
      exact .inr ⟨f, mem_cons_self, rfl⟩
    · rw [if_neg own]
      rcases ih with hn | ⟨x, hm, hs⟩
      · exact .inl hn
      · exact .inr ⟨x, mem_cons_of_mem _ hm, hs⟩

theorem headOf_append [DecidableEq ι] (hi : ∀ x ∈ xs, indexOf x ≠ last) (b : β) (new : γ) :
    headOf last indexOf bucketOf b (xs ++ [new]) =
      if headOf last indexOf bucketOf b xs = last ∧ bucketOf new = b then indexOf new
      else headOf last indexOf bucketOf b xs := by
  induction xs with
  | nil => simp [headOf]
  | cons f tl ih =>
    rw [forall_mem_cons] at hi
    rw [cons_append, headOf, headOf, ih hi.2]
    by_cases own : bucketOf f = b
    · rw [if_pos own, if_pos own, if_neg fun hb => hi.1 hb.1]
    · rw [if_neg own, if_neg own]

/-! ### Links -/

theorem Threaded.link_at {b a : List γ}
    (threaded : Threaded last indexOf bucketOf Link (b ++ x :: a)) :
    Link x (headOf last indexOf bucketOf (bucketOf x) a) := by
  induction b with
  | nil => exact threaded.1
  | cons f tl ih => exact ih threaded.2

variable (threaded : Threaded last indexOf bucketOf Link xs)
    (inside : ∀ x ∈ xs, indexOf x ≠ last)

include threaded inside

theorem Threaded.end_unique (hf : ∀ x ∈ xs, ∀ hd, Link x hd → Link x last → hd = last)
    {fi s : γ} (first_member : fi ∈ xs) (second_member : s ∈ xs)
    (hs : bucketOf fi = bucketOf s) (first_last : Link fi last) (second_last : Link s last) :
    fi = s := by
  induction xs with
  | nil => exact absurd first_member not_mem_nil
  | cons f tl ih =>
    obtain ⟨hli, hl⟩ := threaded
    rw [forall_mem_cons] at inside hf
    -- an element at the end has none of its bucket behind it
    have ha : Link f last → ∀ x ∈ tl, bucketOf x ≠ bucketOf f := fun he =>
      (headOf_eq_last_iff inside.2 _).mp (hf.1 _ hli he)
    rcases mem_cons.mp first_member with rfl | first_later
    · rcases mem_cons.mp second_member with rfl | second_later
      · rfl
      · exact absurd hs.symm (ha first_last s second_later)
    · rcases mem_cons.mp second_member with rfl | second_later
      · exact absurd hs (ha second_last fi first_later)
      · exact ih hl inside.2 hf.2 first_later second_later

/-- **An append** changes the link at the end of the bucket. -/
theorem Threaded.append {new : γ}
    (hst : ∀ x ∈ xs, ∀ hd, Link x hd → (bucketOf x = bucketOf new → hd ≠ last) → After x hd)
    (he : ∀ x ∈ xs, Link x last → bucketOf x = bucketOf new → After x (indexOf new))
    (hfi : After new last) : Threaded last indexOf bucketOf After (xs ++ [new]) := by
  classical
  induction xs with
  | nil => exact ⟨hfi, trivial⟩
  | cons f tl ih =>
    obtain ⟨hli, hl⟩ := threaded
    rw [forall_mem_cons] at inside hst he
    refine ⟨?_, ih hl inside.2 hst.2 he.2⟩
    show After f (headOf last indexOf bucketOf (bucketOf f) (tl ++ [new]))
    rw [headOf_append inside.2]
    split_ifs with hf
    · exact he.1 (hf.1 ▸ hli) hf.2.symm
    · exact hst.1 _ hli fun hs hn => hf ⟨hn, hs.symm⟩

end

end Proteus.Library
