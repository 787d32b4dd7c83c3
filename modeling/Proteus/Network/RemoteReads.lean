/-
**Remote reads** (`platform/lib/network/infiniband/infiniband-handler.cpp`).

Each `read` creates a promise and counts it, under a lock, and then posts an RDMA read, outside of
it. Only every 64th of these requests is signalled; a flush takes the count of the others and posts
an empty request that is. The identifier of a signalled request is the number of promises it answers
for, and when it completes the poller hands over the next that many promises to be published.

The order of the lock and the order of posting can differ. A request that is signalled may overtake
a read that it counts, whose promise is then published before the read was even posted.

* `RemoteReads.Shared` — the invariant of all runs: every promise is counted once, and each promise
  that was handed over is published or about to be, once.
* `run_publishes` — in the runs in which signalled requests do not overtake the reads they count, a
  promise is published after its read has completed.
-/

import Proteus.Library.Machine

namespace Proteus.Network

open Library List Option

/-- A work request: the promise of an RDMA read (none for a flush), `wr_id`, and
`IBV_SEND_SIGNALED`. -/
structure ReadRequest where
  promise : Option Nat
  wrId : Nat
  signalled : Bool
deriving DecidableEq, Repr

structure RemoteReads where
  reads : Nat
  promises : Nat
  flushing : Nat
  unposted : List ReadRequest
  posted : List ReadRequest
  completed : Nat
  polled : Nat
  readCnt : Nat
  jobs : List (Nat × Nat)
  published : List Nat
deriving DecidableEq, Repr

def RemoteReads.initial : RemoteReads := ⟨0, 0, 0, [], [], 0, 0, 0, [], []⟩

inductive ReadAction where
  | read
  | flushTest
  | flushTake
  | post (index : Nat)
  | complete
  | poll
  | publish (job : Nat)
deriving DecidableEq, Repr

namespace RemoteReads

variable (state : RemoteReads)

/-- `read`, up to the end of the critical section. -/
def read : RemoteReads :=
  let rid := state.reads + 1
  { state with
    reads := if rid % 64 = 0 then 0 else rid
    promises := state.promises + 1
    unposted := state.unposted ++ [⟨some state.promises, rid, rid % 64 = 0⟩] }

/-- `flush_read`, up to the test that there is something to flush. -/
def flushTest : RemoteReads :=
  if state.reads = 0 then state else { state with flushing := state.flushing + 1 }

/-- The critical section of `flush_read`. -/
def flushTake : RemoteReads :=
  { state with
    reads := 0
    flushing := state.flushing - 1
    unposted := state.unposted ++ [⟨none, state.reads, true⟩] }

/-- `send` of one of the threads. -/
def post (index : Nat) : Option RemoteReads :=
  state.unposted[index]?.map fun request =>
    { state with unposted := state.unposted.eraseIdx index, posted := state.posted ++ [request] }

/-- The poller goes on to the next request that has completed; only a signalled one has a
completion. -/
def poll : Option RemoteReads :=
  state.posted[state.polled]?.map fun request =>
    if request.signalled then
      { state with
        polled := state.polled + 1
        readCnt := state.readCnt + request.wrId
        jobs := state.jobs ++ [(state.readCnt, request.wrId)] }
    else { state with polled := state.polled + 1 }

/-- One turn of the loop of a job. -/
def publish (job : Nat) : Option RemoteReads :=
  match state.jobs[job]? with
  | some (start, count + 1) => some { state with
      published := state.published ++ [start], jobs := state.jobs.set job (start + 1, count) }
  | _ => none

def Enabled : ReadAction → Prop
  | .read => True
  | .flushTest => True
  | .flushTake => 0 < state.flushing
  | .post index => index < state.unposted.length
  | .complete => state.completed < state.posted.length
  | .poll => state.polled < state.completed
  | .publish job => ∃ start count, state.jobs[job]? = some (start, count + 1)

def next : ReadAction → Option RemoteReads
  | .read => some state.read
  | .flushTest => some state.flushTest
  | .flushTake => some state.flushTake
  | .post index => state.post index
  | .complete => some { state with completed := state.completed + 1 }
  | .poll => state.poll
  | .publish job => state.publish job

end RemoteReads

/-- Any number of threads that read and flush, the adapter, the poller and its jobs. -/
def remoteReads : Machine RemoteReads ReadAction where
  Start state := state = .initial
  Enabled := RemoteReads.Enabled
  next := RemoteReads.next

/-! ### Counts -/

def announced (requests : List ReadRequest) : Nat :=
  ((requests.filter ReadRequest.signalled).map ReadRequest.wrId).sum

/-- What a job has still to publish. -/
def toPublish (jobs : List (Nat × Nat)) : List Nat :=
  jobs.flatMap fun (start, count) => List.range' start count

theorem announced_append (f s : List ReadRequest) :
    announced (f ++ s) = announced f + announced s := by
  simp [announced]

theorem announced_single (r : ReadRequest) : announced [r] = if r.signalled then r.wrId else 0 := by
  cases hs : r.signalled <;> simp [announced, hs]

theorem announced_perm {f s : List ReadRequest} (hp : f.Perm s) : announced f = announced s :=
  ((hp.filter _).map _).sum_eq

theorem toPublish_set {j : List (Nat × Nat)} {job s c : Nat} (ht : j[job]? = some (s, c + 1)) :
    (toPublish j).Perm (s :: toPublish (j.set job (s + 1, c))) := by
  obtain ⟨hi, hh⟩ := List.getElem?_eq_some_iff.mp ht
  have hs : j = j.take job ++ (s, c + 1) :: j.drop (job + 1) := by
    rw [← hh, getElem_cons_drop, take_append_drop]
  rw [set_eq_take_append_cons_drop, if_pos hi]
  conv_lhs => rw [hs]
  simp only [toPublish, flatMap_append, flatMap_cons, List.range'_succ, cons_append]
  exact perm_middle

/-! ### All runs -/

/-- What holds however requests overtake each other. -/
structure RemoteReads.Shared (state : RemoteReads) : Prop where
  counted : announced state.posted + announced state.unposted + state.reads = state.promises
  polled_le : state.polled ≤ state.completed
  completed_le : state.completed ≤ state.posted.length
  readCnt_eq : state.readCnt = announced (state.posted.take state.polled)
  once : (state.published ++ toPublish state.jobs).Perm (List.range state.readCnt)

variable {action ac : ReadAction} {actions : List ReadAction}

open RemoteReads

section

variable {st a : RemoteReads} (shared : st.Shared)

include shared

theorem take_posted (r : ReadRequest) :
    (st.posted ++ [r]).take st.polled = st.posted.take st.polled :=
  take_append_of_le_length (shared.polled_le.trans shared.completed_le)

theorem post_shared {i : Nat} (ht : st.post i = some a) : a.Shared := by
  obtain ⟨r, hth, rfl⟩ := map_eq_some_iff.mp ht
  obtain ⟨hi, hh⟩ := List.getElem?_eq_some_iff.mp hth
  have hm : announced st.unposted = announced [r] + announced (st.unposted.eraseIdx i) := by
    rw [← announced_append, ← hh]
    exact (announced_perm (getElem_cons_eraseIdx_perm hi)).symm
  refine { shared with counted := ?_, completed_le := ?_, readCnt_eq := ?_ }
  · have hc := shared.counted
    show announced (st.posted ++ [r]) + announced (st.unposted.eraseIdx i) + st.reads = st.promises
    rw [announced_append]
    omega
  · exact shared.completed_le.trans (by simp)
  · rw [take_posted shared]
    exact shared.readCnt_eq

theorem poll_shared (hb : st.polled < st.completed) (ht : st.poll = some a) : a.Shared := by
  obtain ⟨r, hth, rfl⟩ := map_eq_some_iff.mp ht
  have hn : announced (st.posted.take (st.polled + 1)) = st.readCnt + announced [r] := by
    rw [take_add_one, hth, announced_append, shared.readCnt_eq]
    rfl
  rw [announced_single] at hn
  split_ifs at hn ⊢ with hs
  · refine { shared with polled_le := hb, readCnt_eq := hn.symm, once := ?_ }
    have hl : toPublish (st.jobs ++ [(st.readCnt, r.wrId)]) =
        toPublish st.jobs ++ List.range' st.readCnt r.wrId := by
      simp [toPublish]
    have hsp : List.range (st.readCnt + r.wrId) =
        List.range st.readCnt ++ List.range' st.readCnt r.wrId := by
      rw [range_add, List.range'_eq_map_range]
    rw [hl, hsp, ← append_assoc]
    exact shared.once.append_right _
  · exact { shared with polled_le := hb, readCnt_eq := hn.symm }

theorem publish_shared {job : Nat} (ht : st.publish job = some a) : a.Shared := by
  unfold publish at ht
  split at ht
  · next s c hth =>
    cases ht
    refine { shared with once := List.Perm.trans ?_ shared.once }
    rw [append_assoc]
    exact ((toPublish_set hth).symm).append_left _
  · cases ht

theorem step_shared (he : st.Enabled ac) (ht : st.next ac = some a) : a.Shared := by
  cases ac with
  | read =>
    cases ht
    refine { shared with counted := ?_ }
    have hc := shared.counted
    show announced st.posted + announced (st.unposted ++ [_]) + (ite _ _ _) = st.promises + 1
    rw [announced_append, announced_single]
    by_cases hf : (st.reads + 1) % 64 = 0
    · simp only [hf, decide_true, if_true]
      omega
    · simp only [hf, decide_false, if_false, Bool.false_eq_true]
      omega
  | flushTest =>
    cases ht
    unfold flushTest
    split_ifs
    · exact shared
    · exact { shared with }
  | flushTake =>
    cases ht
    refine { shared with counted := ?_ }
    have hc := shared.counted
    show announced st.posted + announced (st.unposted ++ [_]) + 0 = st.promises
    rw [announced_append, announced_single, if_pos rfl]
    show announced st.posted + (announced st.unposted + st.reads) + 0 = st.promises
    omega
  | post i => exact post_shared shared ht
  | complete =>
    cases ht
    exact { shared with polled_le := Nat.le_succ_of_le shared.polled_le, completed_le := he }
  | poll => exact poll_shared shared he ht
  | publish job => exact publish_shared shared ht

omit shared

theorem run_shared {Allowed : RemoteReads → ReadAction → Prop}
    (run : remoteReads.Run Allowed actions st) : st.Shared := by
  refine run.invariant RemoteReads.Shared (fun s hi => ?_) fun _ _ _ shared he _ ht =>
    step_shared shared he ht
  obtain rfl : s = .initial := hi
  exact ⟨rfl, le_rfl, le_rfl, rfl, List.Perm.refl _⟩

end

/-! ### Runs without overtaking -/

def Answered (requests : List ReadRequest) : Prop :=
  ∀ promise < announced requests, some promise ∈ requests.map ReadRequest.promise

/-- A signalled request is posted behind the reads that it and the requests before it answer for. -/
def Behind (state : RemoteReads) : ReadAction → Prop
  | .post index => ∀ request ∈ state.unposted[index]?, request.signalled = true →
      ∀ promise < announced state.posted + request.wrId,
        some promise ∈ (state.posted ++ [request]).map ReadRequest.promise
  | _ => True

/-- Nothing is left to do. -/
structure RemoteReads.Quiet (state : RemoteReads) : Prop where
  reads_eq : state.reads = 0
  unposted_eq : state.unposted = []
  polled_eq : state.polled = state.posted.length
  jobs_done : toPublish state.jobs = []

section

variable {state a : RemoteReads}

theorem answered_append {rs : List ReadRequest} (ha : Answered rs) {r : ReadRequest}
    (hb : r.signalled = true → ∀ p < announced rs + r.wrId,
      some p ∈ (rs ++ [r]).map ReadRequest.promise) : Answered (rs ++ [r]) := by
  intro p low
  rw [announced_append, announced_single] at low
  split_ifs at low with hs
  · exact hb hs p low
  · rw [map_append]
    exact mem_append_left _ (ha p low)

theorem posted_eq (ht : state.next ac = some a)
    (ho : ∀ i, ac ≠ .post i) : a.posted = state.posted := by
  cases ac with
  | post i => exact absurd rfl (ho i)
  | flushTest =>
    cases ht
    unfold flushTest
    split_ifs <;> rfl
  | poll =>
    obtain ⟨r, _, rfl⟩ := map_eq_some_iff.mp ht
    split_ifs <;> rfl
  | publish job =>
    change state.publish job = some a at ht
    unfold publish at ht
    split at ht
    · cases ht
      rfl
    · cases ht
  | read | flushTake | complete =>
    cases ht
    rfl

/-- **Without overtaking**, every beginning of what was posted has the reads it answers for. -/
theorem run_answered (run : remoteReads.Run Behind actions state) :
    ∀ f, f <+: state.posted → Answered f := by
  refine run.invariant (fun state => ∀ f, f <+: state.posted → Answered f)
    (fun s hi f hbe => ?_) fun b action a ha _ hb ht => ?_
  · obtain rfl : s = .initial := hi
    rw [prefix_nil.mp hbe]
    exact fun p low => absurd low (Nat.not_lt_zero _)
  · by_cases hp : ∃ i, action = .post i
    · obtain ⟨i, rfl⟩ := hp
      obtain ⟨r, hth, rfl⟩ := map_eq_some_iff.mp ht
      intro f hbe
      rcases prefix_concat_iff.mp hbe with rfl | old
      · exact answered_append (ha _ prefix_rfl) (hb r hth)
      · exact ha f old
    · rw [posted_eq ht fun i hs => hp ⟨i, hs⟩]
      exact ha

/-- **A promise is published after its read has completed**, and once, as long as no signalled
request overtakes a read that it counts. When nothing is left to do, every promise has been
published. -/
theorem run_publishes {actions : List ReadAction} (run : remoteReads.Run Behind actions state) :
    (∀ promise ∈ state.published,
      some promise ∈ (state.posted.take state.completed).map ReadRequest.promise) ∧
    state.published.Nodup ∧ (state.Quiet → state.published.Perm (List.range state.promises)) := by
  have hs := run_shared run
  refine ⟨fun promise hm => ?_, ?_, fun hq => ?_⟩
  · have low : promise < state.readCnt := mem_range.mp (hs.once.subset (mem_append_left _ hm))
    rw [hs.readCnt_eq] at low
    have ht := run_answered run _ ( take_prefix _ _) promise low
    refine map_subset _ (fun r he => ?_) ht
    exact (take_prefix_take_left hs.polled_le).subset he
  · exact ((hs.once.nodup_iff.mpr nodup_range).of_append_left)
  · have ho := hs.once
    have hc := hs.counted
    rw [hq.jobs_done, append_nil, hs.readCnt_eq, hq.polled_eq, take_length] at ho
    rw [hq.unposted_eq, hq.reads_eq] at hc
    rwa [← hc]

end

instance (state : RemoteReads) (action : ReadAction) :
    Decidable (remoteReads.Enabled state action) :=
  match action with
  | .read => .isTrue trivial
  | .flushTest => .isTrue trivial
  | .flushTake => inferInstanceAs (Decidable (0 < state.flushing))
  | .post index => inferInstanceAs (Decidable (index < state.unposted.length))
  | .complete => inferInstanceAs (Decidable (state.completed < state.posted.length))
  | .poll => inferInstanceAs (Decidable (state.polled < state.completed))
  | .publish job => match there : state.jobs[job]? with
    | some (start, count + 1) => .isTrue ⟨start, count, there⟩
    | some (_, 0) => .isFalse fun ⟨_, _, here⟩ => nomatch there.symm.trans here
    | none => .isFalse fun ⟨_, _, here⟩ => nomatch there.symm.trans here

instance (state : RemoteReads) (action : ReadAction) : Decidable (Behind state action) :=
  match action with
  | .post index =>
      inferInstanceAs (Decidable (∀ request ∈ state.unposted[index]?, request.signalled = true →
      ∀ promise < announced state.posted + request.wrId,
        some promise ∈ (state.posted ++ [request]).map ReadRequest.promise))
  | .read | .flushTest | .flushTake | .complete | .poll | .publish _ => .isTrue trivial

def demoReads : List ReadAction :=
  [.read, .post 0, .flushTest, .flushTake, .post 0, .complete, .complete, .poll, .poll, .publish 0]

theorem run_publishes_one : ∃ state, remoteReads.Run Behind demoReads state ∧
    state.published = [0] ∧
    ∀ promise ∈ state.published,
        some promise ∈ (state.posted.take state.completed).map ReadRequest.promise := by
  have hr : ∃ state, remoteReads.Run Behind demoReads state ∧ state.published = [0] :=
    Machine.Run.of_computed .initial rfl (by decide +kernel)
  obtain ⟨state, run, published⟩ := hr
  exact ⟨state, run, published, (run_publishes run).1⟩

/-- The flush is posted while the read that it counts is not: its promise is published, and nothing
was read. -/
theorem flush_overtakes_read : ∃ state, remoteReads.Run (fun _ _ => True)
      [.read, .flushTest, .flushTake, .post 1, .complete, .poll, .publish 0] state ∧
    0 ∈ state.published ∧ some 0 ∉ state.posted.map ReadRequest.promise := by
  have hr : ∃ state, remoteReads.Run (fun _ _ => True)
      [.read, .flushTest, .flushTake, .post 1, .complete, .poll, .publish 0] state ∧
        (state.published, state.posted) = ([0], [⟨none, 1, true⟩]) :=
    Machine.Run.of_computed .initial rfl (by decide +kernel)
  obtain ⟨state, run, hs⟩ := hr
  obtain ⟨published, posted⟩ := Prod.mk.inj hs
  refine ⟨state, run, ?_, ?_⟩
  · rw [published]
    exact mem_singleton.mpr rfl
  · rw [posted]
    decide

end Proteus.Network
