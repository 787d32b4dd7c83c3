/-
**Truncation of version lists under Steam** (`steamGC` in `multi-version/mv-record-list.cpp`).

Versions are nodes in memory, each with a pointer to the next older one. `steamGC` looks for the
version that the oldest transaction would read, takes the list behind it and releases it, node by
node; if that transaction reads the record itself, it takes the whole list.

The oldest transaction is given as a start time and the id made of it. A stamp that is equal to this
id is taken for one that the transaction may read, though it is above every start time in question:
then what lies behind it is released while a reader between the two still needs it.

* `steamGC_spec` — what is left, what is released, and that nothing is released twice or can still
  be reached.
* `truncation_keeps_iff` — a reader gets what it got before exactly if it was not such a reader.
-/

import Proteus.Library.Chain
import Proteus.Oltp.Storage.ColumnStore

namespace Proteus.Oltp.Gc

open Library List Option Function
open Storage (TxnTs)

/-! ### The code -/

section

variable {V : Type}

/-- A version in memory. -/
structure VersionNode (V : Type) where
  tMin : Nat
  value : V
  next : Nat

/-- What lives where; zero is the null pointer. -/
abbrev VersionHeap (V : Type) := Nat → Option (VersionNode V)

/-- An index entry with the record it stands for. -/
structure SteamEntry (V : Type) where
  tMin : Nat
  value : V
  deltaList : Nat

structure SteamMemory (V : Type) where
  entry : SteamEntry V
  heap : VersionHeap V

def findReadableVer (heap : VersionHeap V) (reader : TxnTs) : Nat → Nat → Option (Option Nat)
  | 0, _ => none
  | fuel + 1, ptr =>
    if ptr = 0 then some none
    else do
      let node ← heap ptr
      if reader.isReadable node.tMin then return some ptr
      findReadableVer heap reader fuel node.next

def releaseFrom : Nat → Nat → VersionHeap V → Option (VersionHeap V × List Nat)
  | 0, _, _ => none
  | fuel + 1, cleanable, heap =>
    if cleanable = 0 then some (heap, [])
    else do
      let node ← heap cleanable
      let (heap, released) ← releaseFrom fuel node.next (Function.update heap cleanable none)
      return (heap, cleanable :: released)

/-- `steamGC`, and the versions it has released. -/
def steamGC (fuel : Nat) (globalMin : TxnTs) (memory : SteamMemory V) :
    Option (SteamMemory V × List Nat) :=
  if memory.entry.deltaList = 0 then some (memory, [])
  else if globalMin.isReadable memory.entry.tMin then do
    let (heap, released) ← releaseFrom fuel memory.entry.deltaList memory.heap
    return (⟨{ memory.entry with deltaList := 0 }, heap⟩, released)
  else do
    match ← findReadableVer memory.heap globalMin fuel memory.entry.deltaList with
    | none => return (memory, [])
    | some versionBase =>
      let node ← memory.heap versionBase
      let cut := Function.update memory.heap versionBase (some { node with next := 0 })
      let (heap, released) ← releaseFrom fuel node.next cut
      return (⟨memory.entry, heap⟩, released)

/-- What a reader gets: the record, a version of it, or nothing. -/
def readRecord (fuel : Nat) (reader : TxnTs) (memory : SteamMemory V) : Option (Option V) :=
  if reader.isReadable memory.entry.tMin then some (some memory.entry.value)
  else do
    match ← findReadableVer memory.heap reader fuel memory.entry.deltaList with
    | none => return none
    | some version =>
      let node ← memory.heap version
      return some node.value

end

/-! ### Lists of versions -/

section

variable {V : Type} {heap : VersionHeap V} {ptr fu : Nat} {r : TxnTs}

/-- A version and where it is. -/
structure HeapVersion (V : Type) where
  place : Nat
  tMin : Nat
  value : V

/-- What a pointer leads to. -/
def loadVersion (heap : VersionHeap V) (place : Nat) : Option (Nat × HeapVersion V) :=
  (heap place).map fun node => (node.next, ⟨place, node.tMin, node.value⟩)

abbrev ListedFrom (heap : VersionHeap V) (ptr : Nat) (versions : List (HeapVersion V)) : Prop :=
  Chain (loadVersion heap) 0 ptr versions

variable {v : HeapVersion V} {a : VersionHeap V} {vs : List (HeapVersion V)}

theorem loadVersion_eq_some {p nx : Nat} : loadVersion heap p = some (nx, v) ↔
      v.place = p ∧ heap p = some ⟨v.tMin, v.value, nx⟩ := by
  unfold loadVersion
  rw [map_eq_some_iff]
  constructor
  · rintro ⟨n, ht, hs⟩
    cases hs
    exact ⟨rfl, ht⟩
  · rintro ⟨rfl, ht⟩
    exact ⟨_, ht, rfl⟩

theorem ListedFrom.head {tl : List (HeapVersion V)} (hli : ListedFrom heap ptr (v :: tl)) :
    ptr ≠ 0 ∧ v.place = ptr ∧ ∃ n, heap ptr = some ⟨v.tMin, v.value, n⟩ ∧ ListedFrom heap n tl := by
  cases hli with
  | link hi hl hta =>
    obtain ⟨hp, ht⟩ := loadVersion_eq_some.mp hl
    exact ⟨hi, hp, _, ht, hta⟩

variable (listed : ListedFrom heap ptr vs)

include listed

theorem ListedFrom.frame (hs : ∀ v ∈ vs, a v.place = heap v.place) : ListedFrom a ptr vs := by
  refine Chain.mono listed fun p n v hm hl => ?_
  obtain ⟨own, ht⟩ := loadVersion_eq_some.mp hl
  exact loadVersion_eq_some.mpr ⟨own, by rw [← own, hs v hm, own, ht]⟩

/-- **A walk** finds the first version that is readable. -/
theorem findReadableVer_listed (he : vs.length < fu) : findReadableVer heap r fu ptr =
      some ((vs.find? fun v => r.isReadable v.tMin).map HeapVersion.place) := by
  induction vs generalizing ptr fu with
  | nil =>
    obtain ⟨fu, rfl⟩ : ∃ l, fu = l + 1 := ⟨fu - 1, by omega⟩
    rw [Chain.eq_last listed, findReadableVer, if_pos rfl]
    rfl
  | cons v vs ih =>
    obtain ⟨fu, rfl⟩ : ∃ l, fu = l + 1 := ⟨fu - 1, by omega⟩
    obtain ⟨hi, hp, n, ht, hta⟩ := listed.head
    rw [findReadableVer, if_neg hi, ht, List.find?_cons]
    by_cases hr : r.isReadable v.tMin
    · simp [hr, hp]
    · simp only [bind_eq_bind, bind_some, hr, decide_false, if_false]
      exact ih hta (Nat.lt_of_succ_lt_succ he)

/-- **The loop releases the versions of its list**, and these alone. -/
theorem releaseFrom_listed (hdi : (vs.map HeapVersion.place).Nodup) (he : vs.length < fu) :
    ∃ a, releaseFrom fu ptr heap = some (a, vs.map HeapVersion.place) ∧
      ∀ p, p ∉ vs.map HeapVersion.place → a p = heap p := by
  induction vs generalizing ptr fu heap with
  | nil =>
    obtain ⟨fu, rfl⟩ : ∃ l, fu = l + 1 := ⟨fu - 1, by omega⟩
    refine ⟨heap, ?_, fun p _ => rfl⟩
    rw [Chain.eq_last listed, releaseFrom, if_pos rfl]
    rfl
  | cons v vs ih =>
    obtain ⟨fu, rfl⟩ : ∃ l, fu = l + 1 := ⟨fu - 1, by omega⟩
    obtain ⟨hi, rfl, n, ht, hta⟩ := listed.head
    rw [map_cons, nodup_cons] at hdi
    have ho : ListedFrom (update heap v.place none) n vs := by
      refine hta.frame fun o hm => update_of_ne (fun hs => ?_) _ _
      exact hdi.1 (hs ▸ mem_map_of_mem hm)
    obtain ⟨a, hd, hr⟩ := ih ho hdi.2 (Nat.lt_of_succ_lt_succ he)
    refine ⟨a, ?_, fun p ha => ?_⟩
    · rw [releaseFrom, if_neg hi, ht]
      simp only [bind_eq_bind, bind_some, hd]
      rfl
    · rw [map_cons, mem_cons, not_or] at ha
      rw [hr p ha.2, update_of_ne ha.1]

omit listed

theorem ListedFrom.behind {n o : List (HeapVersion V)}
    (listed : ListedFrom heap ptr (n ++ v :: o)) : ∃ nx,
      heap v.place = some ⟨v.tMin, v.value, nx⟩ ∧ ListedFrom heap nx o := by
  induction n generalizing ptr with
  | nil =>
    obtain ⟨_, rfl, nx, ht, hta⟩ := listed.head
    exact ⟨nx, ht, hta⟩
  | cons f n ih =>
    obtain ⟨_, _, nx, _, hta⟩ := listed.head
    exact ih hta

theorem ListedFrom.cut {n ol : List (HeapVersion V)} (listed : ListedFrom heap ptr (n ++ v :: ol))
    (hl : a v.place = some ⟨v.tMin, v.value, 0⟩)
    (hs : ∀ o ∈ n, a o.place = heap o.place) :
    ListedFrom a ptr (n ++ [v]) := by
  induction n generalizing ptr with
  | nil =>
    obtain ⟨hi, rfl, _⟩ := listed.head
    exact .link hi (loadVersion_eq_some.mpr ⟨rfl, hl⟩) .stop
  | cons f n ih =>
    obtain ⟨hi, rfl, nx, ht, hta⟩ := listed.head
    rw [forall_mem_cons] at hs
    exact .link hi (loadVersion_eq_some.mpr ⟨rfl, hs.1.trans ht⟩) (ih hta hs.2)

end

/-! ### What is left -/

section

variable {V : Type} {m : SteamMemory V} {versions : List (HeapVersion V)} {fu : Nat}
  {reader globalMin gm : TxnTs}

def readListed (reader : TxnTs) (entry : SteamEntry V) (versions : List (HeapVersion V)) :
    Option V :=
  if reader.isReadable entry.tMin then some entry.value
  else (versions.find? fun version => reader.isReadable version.tMin).map HeapVersion.value

theorem readRecord_listed (hl : ListedFrom m.heap m.entry.deltaList versions)
    (he : versions.length < fu) :
    readRecord fu reader m = some (readListed reader m.entry versions) := by
  unfold readRecord readListed
  split_ifs
  · rfl
  rw [findReadableVer_listed hl he]
  cases hf : versions.find? fun v => reader.isReadable v.tMin with
  | none => rfl
  | some v =>
    obtain ⟨n, o, hs⟩ := append_of_mem (mem_of_find?_eq_some hf)
    rw [hs] at hl
    obtain ⟨nx, ht, _⟩ := hl.behind
    simp [ht]

def keptFrom (globalMin : TxnTs) : List (HeapVersion V) → List (HeapVersion V)
  | [] => []
  | version :: older =>
    if globalMin.isReadable version.tMin then [version] else version :: keptFrom globalMin older

/-- Those behind it. -/
def freedFrom (globalMin : TxnTs) : List (HeapVersion V) → List (HeapVersion V)
  | [] => []
  | version :: older => if globalMin.isReadable version.tMin then older else
      freedFrom globalMin older

theorem keptFrom_cases (gm : TxnTs) (versions : List (HeapVersion V)) :
    (∀ v ∈ versions, ¬ gm.isReadable v.tMin) ∧ keptFrom gm versions = versions ∧
        freedFrom gm versions = [] ∨
      ∃ n vi, (∀ v ∈ n, ¬ gm.isReadable v.tMin) ∧
        gm.isReadable vi.tMin ∧ keptFrom gm versions = n ++ [vi] ∧
        versions = n ++ vi :: freedFrom gm versions := by
  induction versions with
  | nil => exact .inl ⟨nofun, rfl, rfl⟩
  | cons v o ih =>
    unfold keptFrom freedFrom
    by_cases hr : gm.isReadable v.tMin
    · rw [if_pos hr, if_pos hr]
      exact .inr ⟨[], v, nofun, hr, rfl, rfl⟩
    · rw [if_neg hr, if_neg hr]
      rcases ih with ⟨hn, hk, hf⟩ | ⟨n, vi, hh, hs, hk, hsp⟩
      · exact .inl ⟨forall_mem_cons.mpr ⟨hr, hn⟩, by rw [hk], hf⟩
      · refine .inr ⟨v :: n, vi, forall_mem_cons.mpr ⟨hr, hh⟩, hs, ?_, ?_⟩
        · rw [hk, cons_append]
        · rw [cons_append, ← hsp]

def keptBy (globalMin : TxnTs) (tMin : Nat) (versions : List (HeapVersion V)) :
    List (HeapVersion V) :=
  if globalMin.isReadable tMin then [] else keptFrom globalMin versions

def freedBy (globalMin : TxnTs) (tMin : Nat) (versions : List (HeapVersion V)) :
    List (HeapVersion V) :=
  if globalMin.isReadable tMin then versions else freedFrom globalMin versions

theorem keptBy_append_freedBy (tm : Nat) : keptBy gm tm versions ++ freedBy gm tm versions =
    versions := by
  unfold keptBy freedBy
  split_ifs
  · rfl
  rcases keptFrom_cases gm versions with ⟨_, hk, hf⟩ | ⟨n, v, _, _, hk, hs⟩
  · rw [hk, hf, append_nil]
  · rw [hk, append_assoc]
    exact hs.symm

/-- **What `steamGC` does**: it keeps the versions up to the one that the oldest transaction sees
and releases the others. -/
theorem steamGC_spec (hl : ListedFrom m.heap m.entry.deltaList versions)
    (hd : (versions.map HeapVersion.place).Nodup) (he : versions.length < fu) :
    ∃ a, steamGC fu gm m = some (a, (freedBy gm m.entry.tMin versions).map HeapVersion.place) ∧
      a.entry.tMin = m.entry.tMin ∧ a.entry.value = m.entry.value ∧
      ListedFrom a.heap a.entry.deltaList (keptBy gm m.entry.tMin versions) := by
  unfold steamGC keptBy freedBy
  by_cases hem : m.entry.deltaList = 0
  · obtain rfl : versions = [] := by
      cases versions with
      | nil => rfl
      | cons v o => exact absurd hem (Chain.ne_last hl)
    simp only [if_pos hem, keptFrom, freedFrom, ite_self]
    exact ⟨m, rfl, rfl, rfl, hl⟩
  rw [if_neg hem]
  by_cases hre : gm.isReadable m.entry.tMin
  · obtain ⟨a, hrl, _⟩ := releaseFrom_listed hl hd he
    rw [if_pos hre, if_pos hre, if_pos hre, hrl]
    exact ⟨_, rfl, rfl, rfl, .stop⟩
  rw [if_neg hre, if_neg hre, if_neg hre, findReadableVer_listed hl he]
  rcases keptFrom_cases gm versions with ⟨hn, hk, hf⟩ | ⟨n, vi, hh, hse, hk, hsp⟩
  · have hu : versions.find? (fun v => gm.isReadable v.tMin) = .none :=
      List.find?_eq_none.mpr fun v hm => by simpa using hn v hm
    rw [hu, hk, hf]
    exact ⟨m, rfl, rfl, rfl, hl⟩
  · generalize freedFrom gm versions = o at hsp
    subst hsp
    have hfi : (n ++ vi :: o).find? (fun v => gm.isReadable v.tMin) = some vi := by
      rw [List.find?_append, List.find?_eq_none.mpr fun v hm => by simpa using hh v hm]
      simp [hse]
    obtain ⟨nx, ht, hb⟩ := ListedFrom.behind hl
    rw [map_append, nodup_append, map_cons, nodup_cons] at hd
    obtain ⟨_, ⟨haw, ho⟩, ha⟩ := hd
    have hta : ListedFrom (update m.heap vi.place (some ⟨vi.tMin, vi.value, 0⟩)) nx o := by
      refine hb.frame fun v hm => update_of_ne (fun hs => ?_) _ _
      exact haw (hs ▸ mem_map_of_mem hm)
    obtain ⟨a, hrl, hr⟩ := releaseFrom_listed hta ho
      (show o.length < fu by rw [length_append, length_cons] at he; omega)
    refine ⟨⟨m.entry, a⟩, ?_, rfl, rfl, ?_⟩
    · simp only [hfi, map_some, bind_eq_bind, bind_some, ht, hrl]
      rfl
    · rw [hk]
      refine ListedFrom.cut hl ?_ fun v hm => ?_
      · show a vi.place = _
        rw [hr _ haw, update_self]
      · have hp := mem_map_of_mem (f := HeapVersion.place) hm
        show a v.place = _
        rw [hr _ fun hf => ha _ hp _ (mem_cons_of_mem _ hf) rfl,
          update_of_ne fun hs => ha _ hp _ mem_cons_self hs]

theorem ListedFrom.nodup (hli : ListedFrom m.heap m.entry.deltaList versions)
    (hso : versions.Pairwise fun n o => o.tMin < n.tMin) :
    (versions.map HeapVersion.place).Nodup := by
  refine pairwise_map.mpr (hso.imp_of_mem fun {n o} one ho hl hs => ?_)
  obtain ⟨_, _, hsp⟩ := append_of_mem one
  obtain ⟨_, ht, _⟩ := ListedFrom.behind (hsp ▸ hli)
  obtain ⟨_, _, hsp⟩ := append_of_mem ho
  obtain ⟨_, ha, _⟩ := ListedFrom.behind (hsp ▸ hli)
  rw [hs, ha] at ht
  have := congrArg VersionNode.tMin (some.inj ht)
  simp only at this
  omega

end

/-! ### Readers -/

variable {tMin tm : Nat}

section

variable {V : Type} {entry e : SteamEntry V} {versions : List (HeapVersion V)} {reader re : TxnTs}
    {globalMin gm : Nat}

def Descending (entry : SteamEntry V) (versions : List (HeapVersion V)) : Prop :=
  (∀ version ∈ versions, version.tMin < entry.tMin) ∧ versions.Pairwise fun newer older =>
    older.tMin < newer.tMin

/-- The reader's id is no stamp of the record. -/
def Foreign (reader : TxnTs) (entry : SteamEntry V) (versions : List (HeapVersion V)) : Prop :=
  reader.txnId ≠ entry.tMin ∧ ∀ version ∈ versions, reader.txnId ≠ version.tMin

def IdIsStamp (globalMin : Nat) (entry : SteamEntry V) (versions : List (HeapVersion V)) : Prop :=
  globalMin * 2 ^ 27 % 2 ^ 64 = entry.tMin ∨ ∃ version ∈ versions,
    globalMin * 2 ^ 27 % 2 ^ 64 = version.tMin

/-- A reader who needs what lies behind the stamp that is the id of the oldest transaction. -/
def Deprived (globalMin : Nat) (reader : TxnTs) (entry : SteamEntry V)
    (versions : List (HeapVersion V)) : Prop :=
  IdIsStamp globalMin entry versions ∧ reader.startTime < globalMin * 2 ^ 27 % 2 ^ 64 ∧
    ∃ version ∈ versions, version.tMin ≤ reader.startTime

theorem isReadable_foreign (hf : re.txnId ≠ tm) : re.isReadable tm ↔ tm ≤ re.startTime :=
  ⟨fun hr => hr.elim id fun hs => absurd hs.symm hf, .inl⟩

theorem eq_id_of_isReadable (ho : gm ≤ re.startTime) (ha : re.startTime < tm)
    (hr : (TxnTs.ofTicket gm).isReadable tm) : gm * 2 ^ 27 % 2 ^ 64 = tm := by
  rcases hr with low | hs
  · have : tm ≤ gm := low
    omega
  · exact hs.symm

variable {f : HeapVersion V}

theorem not_deprived_of_kept (hd : Descending e versions)
    (hk : f ∈ keptBy (TxnTs.ofTicket gm) e.tMin versions) (hse : f.tMin ≤ re.startTime) :
    ¬ Deprived gm re e versions := by
  rintro ⟨hst, ha, _⟩
  unfold keptBy at hk
  split_ifs at hk with hr
  · cases hk
  rcases hst with own | ⟨v, hm, hs⟩
  · exact hr (.inr own.symm)
  have hvi : (TxnTs.ofTicket gm).isReadable v.tMin := .inr hs.symm
  rcases keptFrom_cases (TxnTs.ofTicket gm) versions with
    ⟨hn, _, _⟩ | ⟨n, vi, hhi, _, hke, hsp⟩
  · exact hn v hm hvi
  generalize freedFrom (TxnTs.ofTicket gm) versions = o at hsp
  subst hsp
  -- nothing that is kept has a stamp below that of the version behind which the list is cut
  have low : v.tMin ≤ f.tMin := by
    obtain ⟨_, hbe, hac⟩ := pairwise_append.mp hd.2
    have cut : vi.tMin ≤ f.tMin := by
      rw [hke] at hk
      rcases mem_append.mp hk with hb | hl
      · exact (hac f hb vi mem_cons_self).le
      · rw [mem_singleton.mp hl]
    rcases mem_append.mp hm with hb | hh
    · exact absurd hvi (hhi v hb)
    · rcases mem_cons.mp hh with rfl | hla
      · exact cut
      · exact (rel_of_pairwise_cons hbe hla).le.trans cut
  omega

theorem deprived_of_freed (ho : gm ≤ re.startTime) (hr : re.startTime < e.tMin)
    (hu : ∀ v ∈ keptBy (TxnTs.ofTicket gm) e.tMin versions, re.startTime < v.tMin)
    (hm : f ∈ versions) (hse : f.tMin ≤ re.startTime) :
    Deprived gm re e versions := by
  unfold keptBy at hu
  split_ifs at hu with hre
  · have hs := eq_id_of_isReadable ho hr hre
    exact ⟨.inl hs, hs ▸ hr, f, hm, hse⟩
  rcases keptFrom_cases (TxnTs.ofTicket gm) versions with
    ⟨_, hk, _⟩ | ⟨n, vi, _, hvi, hk, hsp⟩
  · have := hu f (hk.symm ▸ hm)
    omega
  · have ha := hu vi (hk ▸ mem_append_right _ mem_cons_self)
    have hs := eq_id_of_isReadable ho ha hvi
    have hl : vi ∈ versions := hsp ▸ mem_append_right _ mem_cons_self
    exact ⟨.inr ⟨vi, hl, hs⟩, hs ▸ ha, f, hm, hse⟩

/-- **Which readers get what they got before.** -/
theorem readListed_kept_iff (hd : Descending e versions) (hf : Foreign re e versions)
    (ho : gm ≤ re.startTime) :
    readListed re e (keptBy (TxnTs.ofTicket gm) e.tMin versions) =
        readListed re e versions ↔ ¬ Deprived gm re e versions := by
  have hsp := @keptBy_append_freedBy V versions (TxnTs.ofTicket gm) e.tMin
  unfold readListed
  by_cases hre : re.isReadable e.tMin
  · rw [if_pos hre, if_pos hre]
    refine iff_of_true rfl ?_
    rintro ⟨hst, ha, _⟩
    have low := (isReadable_foreign hf.1).mp hre
    rcases hst with own | ⟨v, hm, hs⟩
    · omega
    · have := hd.1 v hm
      omega
  rw [if_neg hre, if_neg hre]
  have hr : re.startTime < e.tMin :=
    Nat.not_le.mp fun low => hre ((isReadable_foreign hf.1).mpr low)
  have hrd : ∀ v ∈ versions, re.isReadable v.tMin ↔ v.tMin ≤ re.startTime :=
    fun v hm => isReadable_foreign (hf.2 v hm)
  have ham : ∀ v ∈ keptBy (TxnTs.ofTicket gm) e.tMin versions, v ∈ versions :=
    fun v hk => hsp ▸ mem_append_left _ hk
  cases f : (keptBy (TxnTs.ofTicket gm) e.tMin versions).find? fun v =>
      re.isReadable v.tMin with
  | some v =>
    have hk := mem_of_find?_eq_some f
    have hse := (hrd v (ham v hk)).mp (by simpa using List.find?_some f)
    refine iff_of_true ?_ (not_deprived_of_kept hd hk hse)
    conv_rhs => rw [← hsp, List.find?_append, f]
    rfl
  | none =>
    have hu : ∀ v ∈ keptBy (TxnTs.ofTicket gm) e.tMin versions,
        re.startTime < v.tMin := fun v hk => by
      have := List.find?_eq_none.mp f v hk
      rw [decide_eq_true_eq, hrd v (ham v hk)] at this
      omega
    by_cases hn : ∃ v ∈ versions, v.tMin ≤ re.startTime
    · obtain ⟨v, hm, hse⟩ := hn
      refine iff_of_false (fun hs => ?_) (not_not.mpr (deprived_of_freed ho hr hu hm hse))
      have hg := map_eq_none_iff.mp hs.symm
      exact List.find?_eq_none.mp hg v hm (by simpa using (hrd v hm).mpr hse)
    · refine iff_of_true ?_ fun hde => hn hde.2.2
      have hg : versions.find? (fun v => re.isReadable v.tMin) = none := by
        refine List.find?_eq_none.mpr fun v hm => ?_
        rw [decide_eq_true_eq, hrd v hm]
        exact fun hse => hn ⟨v, hm, hse⟩
      rw [hg]

/-- The versions of a record in memory: a list with stamps that go down. -/
structure Holds (memory : SteamMemory V) (versions : List (HeapVersion V)) : Prop where
  listed : ListedFrom memory.heap memory.entry.deltaList versions
  descending : Descending memory.entry versions

/-- What is released is released once, and not reached from the record any more. -/
structure Truncated (versions : List (HeapVersion V)) (after : SteamMemory V)
    (released : List Nat) : Prop where
  once : released.Nodup
  own : ∀ place ∈ released, place ∈ versions.map HeapVersion.place
  unreachable : ∃ kept, ListedFrom after.heap after.entry.deltaList kept ∧
    ∀ version ∈ kept, version.place ∉ released

/-- **Truncation and readers.** `steamGC` always truncates the list, and a reader that is not older
than the oldest transaction gets what it got before exactly if it is not deprived. -/
theorem truncation_keeps_iff {memory : SteamMemory V} {fuel : Nat} (holds : Holds memory versions)
    (foreign : Foreign reader memory.entry versions) (oldest : globalMin ≤ reader.startTime)
    (enough : versions.length < fuel) :
    ∃ after released, steamGC fuel (TxnTs.ofTicket globalMin) memory = some (after, released) ∧
      ∃ value, readRecord fuel reader memory = some value ∧
        (Truncated versions after released ∧ readRecord fuel reader after = some value ↔
          ¬ Deprived globalMin reader memory.entry versions) := by
  have hdi := holds.listed.nodup holds.descending.2
  have hsp := @keptBy_append_freedBy V versions (TxnTs.ofTicket globalMin) memory.entry.tMin
  obtain ⟨after, hd, tMin, value, hk⟩ :=
    @steamGC_spec V memory versions fuel (TxnTs.ofTicket globalMin) holds.listed hdi enough
  have hs : (keptBy (TxnTs.ofTicket globalMin) memory.entry.tMin versions).length < fuel := by
    have := congrArg List.length hsp
    rw [length_append] at this
    omega
  rw [← hsp, map_append, nodup_append] at hdi
  obtain ⟨_, ho, ha⟩ := hdi
  have ht : Truncated versions after _ := ⟨ho, fun p hm => by
      obtain ⟨v, hf, rfl⟩ := mem_map.mp hm
      exact mem_map_of_mem (hsp ▸ mem_append_right _ hf),
    _, hk, fun v hm hf => ha _ (mem_map_of_mem hm) _ hf rfl⟩
  refine ⟨after, _, hd, _, readRecord_listed holds.listed enough, ?_⟩
  rw [readRecord_listed hk hs, Option.some.injEq, and_iff_right ht,
    ← readListed_kept_iff holds.descending foreign oldest]
  unfold readListed
  rw [tMin, value]

end

/-! ### A record with two versions -/

def demoMemory (tMin : Nat) : SteamMemory Nat where
  entry := ⟨tMin, 30, 1⟩
  heap place := if place = 1 then some ⟨4, 20, 2⟩ else if place = 2 then some ⟨2, 10, 0⟩ else none

def demoVersions : List (HeapVersion Nat) := [⟨1, 4, 20⟩, ⟨2, 2, 10⟩]

theorem demoMemory_holds (hl : 4 < tm) : Holds (demoMemory tm) demoVersions := by
  refine ⟨.link Nat.one_ne_zero rfl (.link two_ne_zero rfl .stop), fun v hm => ?_, ?_⟩
  · have low : v.tMin ≤ 4 := by
      revert v
      decide
    exact low.trans_lt hl
  · unfold demoVersions
    decide

/-- The oldest transaction sees the first version, and a younger reader still gets it. -/
theorem truncation_keeps_two : ∃ after released,
    steamGC 3 (TxnTs.ofTicket 4) (demoMemory 7) = some (after, released) ∧
      Truncated demoVersions after released ∧
      readRecord 3 (TxnTs.ofTicket 6) after = some (some 20) := by
  have hf : Foreign (TxnTs.ofTicket 6) (demoMemory 7).entry demoVersions := by
    unfold Foreign demoVersions
    decide
  obtain ⟨after, released, hd, v, hb, hs⟩ :=
    truncation_keeps_iff (demoMemory_holds (by decide)) hf (by decide : 4 ≤ 6) (by decide : 2 < 3)
  obtain rfl : some 20 = v := some.inj hb
  have hsp : ¬ Deprived 4 (TxnTs.ofTicket 6) (demoMemory 7).entry demoVersions := by
    unfold Deprived IdIsStamp demoVersions
    decide
  exact ⟨after, released, hd, hs.mpr hsp⟩

/-- The record is stamped with the id of the transaction 1, and a reader that started in between
loses the version it reads. -/
theorem stamp_taken_for_id : Holds (demoMemory (2 ^ 27)) demoVersions ∧
      Foreign (TxnTs.ofTicket 5) (demoMemory (2 ^ 27)).entry demoVersions ∧
      readRecord 3 (TxnTs.ofTicket 5) (demoMemory (2 ^ 27)) = some (some 20) ∧
      (steamGC 3 (TxnTs.ofTicket 1) (demoMemory (2 ^ 27))).map (fun result =>
        (readRecord 3 (TxnTs.ofTicket 5) result.1, result.2)) = some (some none, [1, 2]) := by
  refine ⟨demoMemory_holds (by decide), ?_, rfl, rfl⟩
  unfold Foreign demoVersions
  decide

end Proteus.Oltp.Gc
