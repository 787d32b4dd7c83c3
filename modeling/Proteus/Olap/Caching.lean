/-
**The cache of expressions, and the laws its order must keep** (`olap/util/caching.hpp`).

`CachingService` keeps two maps in the order of expressions: the cached entry, and whether the whole
dataset contributed to it. A registration for a key that is there replaces the entry only if it is
for the entire dataset.

* `Lawful` — the comparison never throws on a set of expressions, is a strict weak order on it, and
  tells different expressions apart.
* `Lawful.cache_spec` — with such expressions, the cache answers for each exactly what was
  registered for it.
* `lawful_iff` — the laws hold on a set without NaN constants exactly if no two of its expressions
  clash, are alike or are crossed.
-/

import Proteus.Library.ComparatorMap
import Proteus.Olap.ExpressionOrder

namespace Proteus.Olap

open Library List Option

/-! ### The service -/

/-- `typeID` -/
inductive TypeID where
  | bool
  | dstring
  | string
  | float
  | int
  | date
  | record
  | list
  | bag
  | set
  | int64
  | composite
  | block
  | indexedSeq
deriving DecidableEq

structure CacheInfo where
  objectTypes : List TypeID
  structFieldNo : Int
  payloadPtr : Nat
  itemCount : Nat
deriving DecidableEq

structure CachingService where
  binCaches : List (Expression × CacheInfo)
  binCacheIsFull : List (Expression × Bool)

structure Registration where
  expr : Expression
  payload : CacheInfo
  entireDataset : Bool

namespace CachingService

def empty : CachingService := ⟨[], []⟩

/-- `binCaches[expr] = payload; binCacheIsFull[expr] = entireDataset` -/
def store (service : CachingService) (call : Registration) :
    Except RuntimeError CachingService := do
  let binCaches ← ComparatorMap.insert Expression.less call.expr call.payload service.binCaches
  let binCacheIsFull ←
    ComparatorMap.insert Expression.less call.expr call.entireDataset service.binCacheIsFull
  .ok ⟨binCaches, binCacheIsFull⟩

def registerCache (service : CachingService) (call : Registration) :
    Except RuntimeError CachingService := do
  let it ← ComparatorMap.find Expression.less service.binCaches call.expr
  if it.isSome then do
    let _ ← ComparatorMap.find Expression.less service.binCacheIsFull call.expr
    if call.entireDataset then do
      let binCaches ← ComparatorMap.erase Expression.less call.expr service.binCaches
      let binCacheIsFull ← ComparatorMap.erase Expression.less call.expr service.binCacheIsFull
      store ⟨binCaches, binCacheIsFull⟩ call
    else .ok service
  else store service call

/-- `none` is the entry with the field number `-1`, whose other fields are not set. -/
def getCache (service : CachingService) (expr : Expression) :
    Except RuntimeError (Option CacheInfo) :=
  ComparatorMap.find Expression.less service.binCaches expr

def getCacheIsFull (service : CachingService) (expr : Expression) : Except RuntimeError Bool := do
  match ← ComparatorMap.find Expression.less service.binCacheIsFull expr with
  | some full => .ok full
  | none => .error ⟨"No Bin Cache Info found for expr "⟩

def registerAll (calls : List Registration) : Except RuntimeError CachingService :=
  calls.foldlM registerCache empty

end CachingService

/-! ### The laws -/

/-- **The laws of the order on a set of expressions.** -/
structure Lawful (expressions : Set Expression) : Prop where
  returns : ∀ a ∈ expressions, ∀ b ∈ expressions, ∃ result, a.less b = .ok result
  irreflexive : ∀ a ∈ expressions, a.less a = .ok false
  transitive : ∀ a ∈ expressions, ∀ b ∈ expressions, ∀ c ∈ expressions,
    a.less b = .ok true → b.less c = .ok true → a.less c = .ok true
  incomparable : ∀ a ∈ expressions, ∀ b ∈ expressions, ∀ c ∈ expressions,
    a.less b = .ok false → b.less a = .ok false → b.less c = .ok false → c.less b = .ok false →
      a.less c = .ok false ∧ c.less a = .ok false
  separates : ∀ a ∈ expressions, ∀ b ∈ expressions,
    a.less b = .ok false → b.less a = .ok false → a = b

def CacheSafe (expressions : Set Expression) : Prop :=
  ∀ calls : List Registration, (∀ call ∈ calls, call.expr ∈ expressions) →
    ∃ service, CachingService.registerAll calls = .ok service ∧ ∀ expr ∈ expressions,
      ∃ found, service.getCache expr = .ok found ∧
        ∀ info, found = some info → ∃ call ∈ calls, call.expr = expr ∧ call.payload = info

open Expression

theorem Lawful.strictTotal {es : Set Expression} (hl : Lawful es) : StrictTotal less es :=
  ⟨hl.returns, hl.irreflexive, hl.transitive, hl.separates⟩

/-! ### The cache under the laws -/

open CachingService ComparatorMap

section

open Classical in
noncomputable def registration (calls : List Registration) (expr : Expression) :
    Option Registration :=
  calls.foldl (fun kept call =>
    if call.expr = expr ∧ (kept = none ∨ call.entireDataset = true) then some call else kept) none

open Classical in
theorem registration_snoc (calls : List Registration) (call : Registration) (expr : Expression) :
    registration (calls ++ [call]) expr =
      if call.expr = expr ∧ (registration calls expr = none ∨ call.entireDataset = true) then
        some call
      else registration calls expr := by
  rw [registration, foldl_append]
  rfl

theorem registration_mem {cs : List Registration} {e : Expression} {c : Registration}
    (hc : registration cs e = some c) : c ∈ cs ∧ c.expr = e := by
  induction cs using List.reverseRecOn with
  | nil => cases hc
  | append_singleton cs l ih =>
    rw [registration_snoc] at hc
    split_ifs at hc with new
    · cases hc
      exact ⟨mem_append_right _ (mem_singleton.mpr rfl), new.1⟩
    · exact ⟨mem_append_left _ (ih hc).1, (ih hc).2⟩

/-- Both maps hold what counts for each expression. -/
structure Caches (expressions : Set Expression) (calls : List Registration)
    (service : CachingService) :
    Prop where
  caches_sorted : ComparatorMap.Sorted Expression.less expressions service.binCaches
  full_sorted : ComparatorMap.Sorted Expression.less expressions service.binCacheIsFull
  caches : ∀ expr info, (expr, info) ∈ service.binCaches ↔
    ∃ call, registration calls expr = some call ∧ call.payload = info
  full : ∀ expr isFull, (expr, isFull) ∈ service.binCacheIsFull ↔
    ∃ call, registration calls expr = some call ∧ call.entireDataset = isFull

variable {es : Set Expression} {cs : List Registration} {s : CachingService}
  {c : Registration}

theorem caches_empty : Caches es [] empty :=
  ⟨sorted_nil, sorted_nil, by simp [empty, registration], by simp [empty, registration]⟩

theorem store_caches (s : CachingService) (hor : StrictTotal less es)
    (hcs : ComparatorMap.Sorted less es s.binCaches)
    (hfs : ComparatorMap.Sorted less es s.binCacheIsFull)
    (hu : c.expr ∈ es)
    (hc : registration (cs ++ [c]) c.expr = some c)
    (hca : ∀ e i, e ≠ c.expr → ((e, i) ∈ s.binCaches ↔
      ∃ c, registration cs e = some c ∧ c.payload = i))
    (hf : ∀ e isFull, e ≠ c.expr → ((e, isFull) ∈ s.binCacheIsFull ↔
      ∃ c, registration cs e = some c ∧ c.entireDataset = isFull)) :
    ∃ a, s.store c = .ok a ∧ Caches es (cs ++ [c]) a := by
  obtain ⟨bc, hst, hso, hm⟩ := insert_spec hor hcs hu c.payload
  obtain ⟨b, hsl, hsf, hmf⟩ := insert_spec hor hfs hu c.entireDataset
  have hot : ∀ e, e ≠ c.expr → registration (cs ++ [c]) e = registration cs e :=
    fun e ho => by rw [registration_snoc, if_neg fun hb => ho hb.1.symm]
  refine ⟨⟨bc, b⟩, ?_, hso, hsf, fun e i => ?_, fun e isFull => ?_⟩
  · simp only [store, hst, hsl, bind, Except.bind]
  · rw [hm]
    by_cases hs : e = c.expr
    · subst hs
      simp [hc, eq_comm]
    · simp [hs, hot e hs, hca e i hs]
  · rw [hmf]
    by_cases hs : e = c.expr
    · subst hs
      simp [hc, eq_comm]
    · simp [hs, hot e hs, hf e isFull hs]

/-- **One registration.** -/
theorem registerCache_caches (hor : StrictTotal less es) (hca : Caches es cs s) (hu : c.expr ∈ es) :
    ∃ a, s.registerCache c = .ok a ∧ Caches es (cs ++ [c]) a := by
  obtain ⟨f, hse, hif⟩ := find_spec hor hca.caches_sorted hu
  obtain ⟨ff, hsr, -⟩ := find_spec hor hca.full_sorted hu
  have hp : f.isSome = true ↔ registration cs c.expr ≠ none := by
    rw [isSome_iff_exists, ne_none_iff_exists']
    simp only [hif, hca.caches]
    exact ⟨fun ⟨_, k, hc, _⟩ => ⟨k, hc⟩, fun ⟨k, hc⟩ => ⟨_, k, hc, rfl⟩⟩
  by_cases hk : f.isSome = true
  · by_cases hen : c.entireDataset = true
    · obtain ⟨bc, he, hso, hm⟩ := erase_spec hor hca.caches_sorted hu
      obtain ⟨b, hef, hsf, hmf⟩ := erase_spec hor hca.full_sorted hu
      have hc : registration (cs ++ [c]) c.expr = some c := by
        rw [registration_snoc, if_pos ⟨rfl, Or.inr hen⟩]
      obtain ⟨a, hst, hac⟩ := store_caches ⟨bc, b⟩ hor hso hsf hu hc
        (fun e i ho => by rw [hm, hca.caches]; simp [ho])
        (fun e isFull ho => by rw [hmf, hca.full]; simp [ho])
      refine ⟨a, ?_, hac⟩
      simp only [registerCache, hse, hsr, hk, hen, he, hef, hst, bind, Except.bind, if_true]
    · have hs : ∀ e, registration (cs ++ [c]) e = registration cs e := by
        intro e
        rw [registration_snoc, if_neg]
        rintro ⟨rfl, ha | all⟩
        · exact hp.mp hk ha
        · exact hen all
      refine ⟨s, ?_, ⟨hca.caches_sorted, hca.full_sorted, fun e i => ?_, fun e isFull => ?_⟩⟩
      · simp only [registerCache, hse, hsr, hk, hen, bind, Except.bind,
          if_true, if_false, Bool.false_eq_true]
      · rw [hs, hca.caches]
      · rw [hs, hca.full]
  · have ha : registration cs c.expr = none := by
      by_contra some
      exact hk (hp.mpr some)
    have hc : registration (cs ++ [c]) c.expr = some c := by
      rw [registration_snoc, if_pos ⟨rfl, Or.inl ha⟩]
    obtain ⟨a, hst, hac⟩ := store_caches s hor hca.caches_sorted
      hca.full_sorted hu hc (fun e i _ => hca.caches e i) (fun e isFull _ => hca.full e isFull)
    refine ⟨a, ?_, hac⟩
    simp only [registerCache, hse, hk, hst, bind, Except.bind, if_false, Bool.false_eq_true]

/-- **Every sequence of registrations.** -/
theorem registerAll_caches (ho : StrictTotal less es) (cs : List Registration)
    (hu : ∀ c ∈ cs, c.expr ∈ es) :
    ∃ s, registerAll cs = .ok s ∧ Caches es cs s := by
  induction cs using List.reverseRecOn with
  | nil => exact ⟨_, rfl, caches_empty⟩
  | append_singleton cs c ih =>
    obtain ⟨s, hd, hc⟩ := ih fun c hm => hu c (mem_append_left _ hm)
    obtain ⟨a, hr, hac⟩ := registerCache_caches ho hc
      (hu c (mem_append_right _ (mem_singleton.mpr rfl)))
    refine ⟨a, ?_, hac⟩
    rw [registerAll] at hd ⊢
    rw [foldlM_append, hd]
    simp only [bind, Except.bind, foldlM_cons, foldlM_nil, hr, pure, Except.pure]

/-- **The cache under the laws** answers for each expression with the registration that counts for
it, in both maps. -/
theorem Lawful.cache_spec (hl : Lawful es) (cs : List Registration) (hu : ∀ c ∈ cs, c.expr ∈ es) :
    ∃ s, registerAll cs = .ok s ∧ ∀ e ∈ es,
      s.getCache e = .ok ((registration cs e).map Registration.payload) ∧
        ∀ c, registration cs e = some c → s.getCacheIsFull e = .ok c.entireDataset := by
  obtain ⟨s, hd, hca⟩ := registerAll_caches hl.strictTotal cs hu
  refine ⟨s, hd, fun e hk => ⟨?_, fun c hc => ?_⟩⟩
  · obtain ⟨f, hs, hif⟩ := find_spec hl.strictTotal hca.caches_sorted hk
    rw [getCache, hs]
    refine congrArg Except.ok (Option.ext fun i => ?_)
    rw [hif, hca.caches, map_eq_some_iff]
  · obtain ⟨f, hs, hif⟩ := find_spec hl.strictTotal hca.full_sorted hk
    have hf : f = some c.entireDataset := (hif _).mpr ((hca.full e _).mpr ⟨c, hc, rfl⟩)
    simp only [getCacheIsFull, hs, hf, bind, Except.bind]

theorem Lawful.cacheSafe (hl : Lawful es) : CacheSafe es := by
  intro cs hu
  obtain ⟨s, hd, ha⟩ := hl.cache_spec cs hu
  refine ⟨s, hd, fun e hk => ⟨_, (ha e hk).1, fun i hf => ?_⟩⟩
  obtain ⟨c, hc, rfl⟩ := map_eq_some_iff.mp hf
  exact ⟨c, (registration_mem hc).1, (registration_mem hc).2, rfl⟩

end

/-! ### When the laws hold -/

/-- Two expressions that the order compares without throwing and puts one before the other. -/
def Separated (a b : Expression) : Prop :=
  ¬ a.Clash b ∧ ¬ a.Alike b ∧ ¬ a.Crossed b

section

variable {expressions : Set Expression}

theorem clash_self (a : Expression) : ¬ a.Clash a := by
  induction a with
  | constant v => exact fun ha => ha rfl
  | argument | projection => exact id
  | ifThenElse _ _ _ hci hii hei => exact not_or.mpr ⟨hci, not_or.mpr ⟨hii, hei⟩⟩
  | binary _ _ _ hli hri =>
    exact not_or.mpr ⟨not_not.mpr rfl, not_or.mpr ⟨hli, hri⟩⟩
  | unary _ _ ih => exact fun hb => ih hb.2

theorem alike_self (a : Expression) : a.Alike a := by
  induction a with
  | constant v => cases v <;> simp [Expression.Alike, Constant.Alike]
  | argument => exact ⟨rfl, rfl⟩
  | projection => exact rfl
  | ifThenElse _ _ _ hci hii hei => exact ⟨hci, hii, hei⟩
  | binary _ _ _ hli hri => exact ⟨rfl, fun _ => ⟨hli, hri⟩⟩
  | unary _ _ ih => exact ⟨rfl, ih⟩

theorem less_self (a : Expression) : a.less a = .ok false := by
  obtain ⟨l, g, hf, -, ha, -⟩ := (less_decides a a).returns (clash_self a)
  obtain ⟨rfl, -⟩ := ha.mp (alike_self a)
  exact hf

theorem Separated.straight {a b : Expression} (hs : Separated a b) : a.Straight b :=
  ⟨hs.1, hs.2.2⟩

theorem Lawful.separated (hl : Lawful expressions) {a b : Expression} (hle : a ∈ expressions)
    (hr : b ∈ expressions) (ha : a ≠ b) : Separated a b := by
  have hd := less_decides a b
  obtain ⟨f, ht⟩ := hl.returns a hle b hr
  have hcl : ¬ a.Clash b := by
    intro hc
    obtain ⟨⟨e, hth⟩, -⟩ := hd.throws hc
    rw [directions] at hth
    rw [ht] at hth
    cases hth
  obtain ⟨l, g, f, hba, hal, hcr⟩ := hd.returns hcl
  refine ⟨hcl, fun hs => ?_, fun hb => ?_⟩
  · obtain ⟨rfl, rfl⟩ := hal.mp hs
    exact ha (hl.separates a hle b hr f hba)
  · obtain ⟨rfl, rfl⟩ := hcr.mp hb
    have hlo := hl.transitive a hle b hr a hle f hba
    rw [hl.irreflexive a hle] at hlo
    cases hlo

theorem eq_of_incomparable {a b : Expression} (hs : a ≠ b → Separated a b)
    (hf : a.less b = .ok false) (hba : b.less a = .ok false) : a = b := by
  by_contra ha
  obtain ⟨hc, hd, -⟩ := hs ha
  obtain ⟨l, g, ht, hb, hal, -⟩ := (less_decides a b).returns hc
  rw [directions] at ht hb
  rw [hf] at ht
  rw [hba] at hb
  cases ht
  cases hb
  exact hd (hal.mpr ⟨rfl, rfl⟩)

theorem not_crossed {a b : Expression} (hse : a ≠ b → Separated a b)
    (hf : a.less b = .ok true) : a ≠ b ∧ b.less a ≠ .ok true := by
  have ha : a ≠ b := by
    rintro rfl
    rw [less_self] at hf
    cases hf
  refine ⟨ha, fun hba => ?_⟩
  obtain ⟨hcl, -, hs⟩ := hse ha
  obtain ⟨l, g, ht, hb, -, hc⟩ := (less_decides a b).returns hcl
  rw [directions] at ht hb
  rw [hf] at ht
  rw [hba] at hb
  cases ht
  cases hb
  exact hs (hc.mpr ⟨rfl, rfl⟩)

/-- **Separated expressions without NaN keep the laws.** -/
theorem lawful_of_separated (hn : ∀ a ∈ expressions, a.NaNFree)
    (hsp : ∀ a ∈ expressions, ∀ b ∈ expressions, a ≠ b → Separated a b) : Lawful expressions where
  returns := by
    intro a hl b hr
    by_cases hs : a = b
    · exact ⟨false, hs ▸ less_self a⟩
    · obtain ⟨l, _, ht, _⟩ := (less_decides a b).returns (hsp a hl b hr hs).1
      exact ⟨l, ht⟩
  irreflexive := fun a _ => less_self a
  transitive := by
    intro a hl b hm c hr hf hse
    obtain ⟨ab, hnb⟩ := not_crossed (hsp a hl b hm) hf
    obtain ⟨bc, -⟩ := not_crossed (hsp b hm c hr) hse
    have ac : a ≠ c := by
      rintro rfl
      exact hnb hse
    have hc := less_consistent a b c ⟨hn a hl, hn b hm, hn c hr⟩ (hsp a hl b hm ab).straight
      (hsp b hm c hr bc).straight (hsp a hl c hr ac).straight
    have hal : (directions a b).outcome = .lt := Directions.outcome_lt.mpr hf
    have hbl : (directions b c).outcome = .lt := Directions.outcome_lt.mpr hse
    rw [hal, hbl] at hc
    obtain ⟨hng, hne⟩ := hc.1 (by decide) (by decide)
    have ha : (directions a c).outcome = .lt := by
      cases ho : (directions a c).outcome with
      | lt => rfl
      | eq => cases (hne ho).1
      | gt => exact absurd ho hng
    exact Directions.outcome_lt.mp ha
  incomparable := by
    intro a hl b hm c hr hf hfb hse hsb
    obtain rfl := eq_of_incomparable (hsp a hl b hm) hf hfb
    exact ⟨hse, hsb⟩
  separates := fun a hl b hr => eq_of_incomparable (hsp a hl b hr)

/-- **The order of expressions** is lawful on a set without NaN constants, and the cache safe for
it, exactly if no two different expressions of the set clash, are alike or are crossed. -/
theorem lawful_iff (numbers : ∀ a ∈ expressions, a.NaNFree) :
    (Lawful expressions ∧ CacheSafe expressions) ↔
      ∀ a ∈ expressions, ∀ b ∈ expressions, a ≠ b → Separated a b := by
  constructor
  · rintro ⟨hl, -⟩ a hle b hr ha
    exact hl.separated hle hr ha
  · intro hs
    have hl := lawful_of_separated numbers hs
    exact ⟨hl, hl.cacheSafe⟩

/-- Two integer constants. -/
theorem lawful_oneTwo : (∀ a ∈ ({.constant (.int 1), .constant (.int 2)} : Set Expression),
    a.NaNFree) ∧ Lawful {.constant (.int 1), .constant (.int 2)} ∧
      CacheSafe {.constant (.int 1), .constant (.int 2)} := by
  have hn : ∀ a ∈ ({.constant (.int 1), .constant (.int 2)} : Set Expression), a.NaNFree := by
    rintro a (rfl | rfl) <;> trivial
  refine ⟨hn, (lawful_iff hn).mpr ?_⟩
  rintro a (rfl | rfl) b (rfl | rfl) ha
  · exact absurd rfl ha
  · simp [Separated, Expression.Clash, Expression.Alike, Expression.Crossed, Constant.Alike,
      Constant.getConstantType]
  · simp [Separated, Expression.Clash, Expression.Alike, Expression.Crossed, Constant.Alike,
      Constant.getConstantType]
  · exact absurd rfl ha

/-- A binary expression on two integer constants. -/
def intBinary (op : BinaryOperator) (lhs rhs : Int) : Expression :=
  .binary op (.constant (.int lhs)) (.constant (.int rhs))

/-- `1 + 2` and `3 + 4` are not told apart, so that the cache answers for one with the entry of the
other; and `1 + 2` cannot be compared with `1 - 2`. -/
theorem sums_share_entry :
    intBinary .add 1 2 ≠ intBinary .add 3 4 ∧ (intBinary .add 1 2).less (intBinary .add 3 4) =
      .ok false ∧
      (intBinary .add 3 4).less (intBinary .add 1 2) = .ok false ∧
      (∃ service, CachingService.registerAll [⟨intBinary .add 1 2, ⟨[.int], 1, 16, 32⟩, true⟩] =
        .ok service ∧
        service.getCache (intBinary .add 3 4) = .ok (some ⟨[.int], 1, 16, 32⟩)) ∧
      (intBinary .add 1 2).less (intBinary .sub 1 2) = .error incompatiblePair := by
  have hf : (intBinary .add 1 2).less (intBinary .add 3 4) = .ok false := by
    simp [intBinary, less, Constant.less, lessBinary, bind, Except.bind]
  have hb : (intBinary .add 3 4).less (intBinary .add 1 2) = .ok false := by
    simp [intBinary, less, Constant.less, lessBinary, bind, Except.bind]
  refine ⟨by simp [intBinary], hf, hb, ⟨_, rfl, ?_⟩, by simp [intBinary, less]⟩
  simp only [getCache, find, hf, hb, bind, Except.bind, Bool.false_eq_true, if_false]

end

end Proteus.Olap
