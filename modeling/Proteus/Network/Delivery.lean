/-
**The write protocol delivers what was written.**

`simulation` is the proof that the two sides of a connection are one channel, although they never
exchange which buffer a call used, or of which kind it was.

* `Refill` — at most one request for buffers is under way, so the blocks arrive at the sender in the
  order in which the receiver appended them.
* `Relates` — `send_buffers` is what the unhandled calls took followed by what is still free, no
  work request touches a buffer of a batch behind its notification, and once the wire is drained
  each such buffer holds what its call wrote.
* `run_delivers` — the messages and `send_buffers` in every state of a run.
-/

import Proteus.Network.Channel

namespace Proteus.Network

open Library

/-! ### Requests for buffers -/

namespace Connection

def askings (connection : Connection) : Nat :=
  connection.sender.requestJobs + connection.requests.count .request +
    connection.receiver.completions.count .recvRequest + connection.receiver.grantJobs +
    connection.receiver.replyJobs.length + connection.replies.length

structure Refill (connection : Connection) : Prop where
  one : connection.askings ≤ 1
  asked : connection.askings = 1 →
    connection.sender.hasRequestedBuffers = true ∨ connection.sender.pendBuffers = []

end Connection

variable {sender : Sender} {buffer bu : Buffer} {rest tl : List Buffer} {connection c : Connection}
    {posted p : WorkRequest}
    {requests rs : List WorkRequest} {buffers bs : List Buffer} {la : WorkRequest}
    {batches : List Batch}
    {channel : Channel} {action ac : Action}

open List Connection

theorem Connection.Refill.take (hr : c.Refill) (hav : c.sender.pendBuffers ≠ []) (hp : p ≠ .request)
    (asks : (sender.hasRequestedBuffers = c.sender.hasRequestedBuffers ∧
        sender.requestJobs = c.sender.requestJobs) ∨
      (c.sender.hasRequestedBuffers = false ∧ sender.hasRequestedBuffers = true ∧
        sender.requestJobs = c.sender.requestJobs + 1)) :
    Connection.Refill { c with sender, requests := c.requests ++ [p] } := by
  have hc : (c.requests ++ [p]).count .request = c.requests.count .request := by
    rw [count_append, count_singleton, if_neg (by simpa using hp), Nat.add_zero]
  obtain ⟨one, ha⟩ := hr
  rcases asks with ⟨hf, hs⟩ | ⟨off, on, hm⟩
  · constructor
    · simp only [askings, hc, hs]
      exact one
    · simp only [askings, hc, hs, hf]
      exact fun ht => Or.inl ((ha ht).resolve_right hav)
  · have hq : c.askings ≠ 1 := fun ht => by
      rcases ha ht with on | hn
      · exact absurd (off.symm.trans on) (by decide)
      · exact hav hn
    refine ⟨?_, fun _ => Or.inl on⟩
    simp only [askings] at one hq
    simp only [askings, hc, hm]
    omega

/-! ### The wire -/

def WorkRequest.target : WorkRequest → List Buffer
  | .rdmaWrite target _ => [target]
  | .rdmaWriteWithImm target _ _ => [target]
  | .request => []

def Untouched (requests : List WorkRequest) (buffers : List Buffer) : Prop :=
  ∀ posted ∈ requests, ∀ buffer ∈ posted.target, buffer ∉ buffers

/-- The memory once the requests have been delivered. -/
def settle (requests : List WorkRequest) (memory : Buffer → Option Content) : Buffer →
    Option Content :=
  requests.foldl WorkRequest.store memory

theorem store_of_not_target (ho : bu ∉ p.target) (m : Buffer → Option Content) :
    p.store m bu = m bu := by
  cases p with
  | rdmaWrite t bs => exact Function.update_of_ne (by simpa [WorkRequest.target] using ho) _ _
  | rdmaWriteWithImm t ps imm =>
    exact Function.update_of_ne (by simpa [WorkRequest.target] using ho) _ _
  | request => rfl

theorem settle_append (rs : List WorkRequest) (la : WorkRequest) (m : Buffer → Option Content) :
    settle (rs ++ [la]) m = la.store (settle rs m) := by
  rw [settle, foldl_append]
  rfl

theorem untouched_append : Untouched (rs ++ [la]) bs ↔
      Untouched rs bs ∧ ∀ buffer ∈ la.target, buffer ∉ bs := by
  simp only [Untouched, mem_append, mem_singleton, or_imp, forall_and, forall_eq]

def Batch.request (batch : Batch) : WorkRequest :=
  .rdmaWriteWithImm batch.sizes batch.packets batch.imm

def Aligned : List WorkRequest → List Batch → Prop
  | [], batches => batches = []
  | .rdmaWriteWithImm _ _ _ :: _, [] => False
  | .rdmaWriteWithImm target packets imm :: rest, batch :: later =>
    .rdmaWriteWithImm target packets imm = batch.request ∧ Untouched rest batch.buffers ∧
      Aligned rest later
  | .rdmaWrite _ _ :: rest, batches => Aligned rest batches
  | .request :: rest, batches => Aligned rest batches

theorem Aligned.append (hal : Aligned rs batches) (hp : ∀ batches, Aligned [la] batches ↔
    batches = [])
    (ha : ∀ b ∈ batches, ∀ buffer ∈ la.target, buffer ∉ b.buffers) :
    Aligned (rs ++ [la]) batches := by
  induction rs generalizing batches with
  | nil => exact (hp batches).mpr hal
  | cons hd rest ih =>
    cases hd with
    | rdmaWrite t bs | request => exact ih hal ha
    | rdmaWriteWithImm t ps imm =>
      cases batches with
      | nil => exact hal.elim
      | cons b l =>
        obtain ⟨hs, hu, ht⟩ := hal
        exact ⟨hs, untouched_append.mpr ⟨hu, ha b mem_cons_self⟩,
          ih ht fun o hi => ha o (mem_cons_of_mem _ hi)⟩

theorem Aligned.append_batch {new : Batch}
    (hal : Aligned rs batches) (ha : ∀ b ∈ batches, new.sizes ∉ b.buffers) :
    Aligned (rs ++ [new.request]) (batches ++ [new]) := by
  induction rs generalizing batches with
  | nil =>
    obtain rfl : batches = [] := hal
    exact ⟨rfl, (fun _ hi => by cases hi), rfl⟩
  | cons hd rest ih =>
    cases hd with
    | rdmaWrite t bs | request => exact ih hal ha
    | rdmaWriteWithImm t ps imm =>
      cases batches with
      | nil => exact hal.elim
      | cons b l =>
        obtain ⟨hs, hu, ht⟩ := hal
        refine ⟨hs, untouched_append.mpr ⟨hu, fun buffer hit => ?_⟩,
          ih ht fun o hi => ha o (mem_cons_of_mem _ hi)⟩
        rw [mem_singleton.mp hit]
        exact ha b mem_cons_self

/-! ### The simulation -/

def Connection.Covered (ndebug : Bool) (connection : Connection) : Action → Prop
  | .write _ bytes _ => bytes.toNat < 2 ^ 63 ∧ Connection.LengthOk ndebug bytes
  | .writeSilent _ bytes => Connection.LengthOk ndebug bytes
  | .writeTo _ bytes target =>
    (2 ≤ bytes.toNat ∧ bytes.toNat ≤ 2 ^ 63) ∧ Connection.LengthOk ndebug bytes ∧
      (some target ∈ connection.receiver.sendBuffers → target ∈ connection.sender.pendBuffers ∨
        target ∈ connection.replies.flatten ∨ target ∈ connection.receiver.replyJobs.flatten)
  | _ => True

structure Relates (connection : Connection) (channel : Channel) (arrived shipped : List Batch) :
    Prop where
  refill : connection.Refill
  published : connection.receiver.published = channel.published
  deque : connection.receiver.sendBuffers = channel.outstanding.map some
  nodup : channel.outstanding.Nodup
  free : channel.free = connection.sender.pendBuffers ++ connection.replies.flatten ++
    connection.receiver.replyJobs.flatten
  cnts : connection.sender.cnts = channel.current.map Call.packet
  actualWrites : connection.sender.actualWrites = (channel.current.flatMap Call.buffers).length
  small : connection.sender.cnts.length ≤ packNotifications
  open_small : connection.sender.flushing = false →
    connection.sender.cnts.length < packNotifications
  queued : channel.queued = arrived ++ shipped
  queued_small : ∀ batch ∈ channel.queued, batch.used.length ≤ packNotifications
  completions : connection.receiver.completions.filter
    (fun completion => completion ≠ .recvRequest) =
    arrived.map Batch.completion
  aligned : Aligned connection.requests shipped
  untouched : ∀ batch ∈ arrived, Untouched connection.requests batch.buffers
  stored : ∀ entry ∈ channel.stores,
    settle connection.requests connection.receiver.memory entry.1 = some entry.2
  exact : ∀ call ∈ channel.pending, call.Exact

open WorkRequest

namespace Relates

variable {cn after : Connection} {ch : Channel} {a s : List Batch}
    {b : Batch} {e : Buffer × Content}

theorem mem_used (hm : b ∈ ch.queued) (hi : bu ∈ b.buffers) : bu ∈ ch.used :=
  mem_append_left _ (mem_flatMap.mpr ⟨b, hm, hi⟩)

theorem call_stores_buffers {c : Call} (hi : e ∈ c.stores) : e.1 ∈ c.buffers := by
  cases c <;> simp_all [Call.stores, Call.buffers]

theorem batch_stores_buffers (hi : e ∈ b.stores) : e.1 ∈ b.buffers := by
  rcases mem_append.mp hi with he | last
  · obtain ⟨c, hm, hi⟩ := mem_flatMap.mp he
    exact mem_append_left _ (mem_flatMap.mpr ⟨c, hm, call_stores_buffers hi⟩)
  · rw [mem_singleton.mp last]
    exact mem_append_right _ mem_cons_self

theorem stores_used (hi : e ∈ ch.stores) : e.1 ∈ ch.used := by
  rcases mem_append.mp hi with he | hl
  · obtain ⟨batch, hm, hi⟩ := mem_flatMap.mp he
    exact mem_used hm (batch_stores_buffers hi)
  · obtain ⟨c, hm, hi⟩ := mem_flatMap.mp hl
    exact mem_append_right _ (mem_flatMap.mpr ⟨c, hm, call_stores_buffers hi⟩)

theorem call_buffers_length (c : Call) : c.buffers.length ≤ 1 := by
  cases c <;> simp [Call.buffers]

theorem calls_buffers_length (cs : List Call) : (cs.flatMap Call.buffers).length ≤ cs.length := by
  induction cs with
  | nil => exact le_rfl
  | cons c cs ih =>
    have := call_buffers_length c
    simp only [flatMap_cons, length_append, length_cons]
    omega

section

variable (related : Relates cn ch a s)

include related

theorem free_not_used (hi : bu ∈ ch.free) : bu ∉ ch.used :=
  fun hu => (nodup_append.mp related.nodup).2.2 bu hu bu hi rfl

theorem stored_append (ha : ∀ buffer ∈ p.target, buffer ∉ ch.used) :
    ∀ e ∈ ch.stores, settle (cn.requests ++ [p]) cn.receiver.memory e.1 = some e.2 := by
  intro e hi
  rw [settle_append, store_of_not_target fun hit => ha _ hit (stores_used hi)]
  exact related.stored e hi

/-- **A call.** Its buffers are the first free ones, and its payload goes to `target`. -/
theorem call (c : Call) {t : Buffer} {co : List UInt8}
    (hre : Connection.Refill { cn with sender, requests := cn.requests ++ [.rdmaWrite t co] })
    (hu : cn.sender.flushing = false) (he : c.Exact) (ha : t ∉ ch.used)
    (hon : c.stores = c.buffers.map fun _ => (t, .data co))
    (ht : ch.free = c.buffers ++ tl)
    (hlf : tl = sender.pendBuffers ++ cn.replies.flatten ++ cn.receiver.replyJobs.flatten)
    (hc : sender.cnts = cn.sender.cnts ++ [c.packet])
    (haw : sender.actualWrites = cn.sender.actualWrites + c.buffers.length)
    (hfl : sender.flushing = decide (sender.cnts.length % packNotifications = 0)) :
    Relates { cn with sender, requests := cn.requests ++ [.rdmaWrite t co] }
      { ch with free := tl, current := ch.current ++ [c] } a s := by
  have hr := related.open_small hu
  have ho : Channel.outstanding { ch with
      free := tl, current := ch.current ++ [c] } = ch.outstanding := by
    simp [Channel.outstanding, Channel.used, ht]
  have hcl : ∀ batch ∈ ch.queued, ∀ buffer ∈ (WorkRequest.rdmaWrite t co).target,
      buffer ∉ batch.buffers := by
    intro batch hm buffer hit hi
    rw [mem_singleton.mp hit] at hi
    exact ha (mem_used hm hi)
  refine { related with
      refill := hre
      deque := ho ▸ related.deque
      nodup := ho ▸ related.nodup
      free := hlf
      cnts := by simp [hc, related.cnts]
      actualWrites := by simp [haw, related.actualWrites]
      small := by simp [hc]; omega
      open_small := fun hu => ?_
      aligned := related.aligned.append (fun _ => Iff.rfl) fun batch hm =>
        hcl batch (related.queued ▸ mem_append_right _ hm)
      untouched := fun batch hm => untouched_append.mpr
        ⟨related.untouched batch hm, hcl batch (related.queued ▸ mem_append_left _ hm)⟩
      stored := fun entry hi => ?_
      exact := fun o hi => ?_ }
  · have hf : sender.cnts.length % packNotifications ≠ 0 := by
      simpa using hfl.symm.trans hu
    have hle : sender.cnts.length = cn.sender.cnts.length + 1 := by simp [hc]
    rcases (Nat.succ_le_of_lt hr).lt_or_eq with hl | hs
    · exact hle ▸ hl
    · rw [hle, show cn.sender.cnts.length + 1 = packNotifications from hs, Nat.mod_self] at hf
      exact absurd rfl hf
  · simp only [Channel.stores, flatMap_append, flatMap_singleton, ← append_assoc] at hi
    rcases mem_append.mp hi with old | new
    · exact related.stored_append (by simpa [WorkRequest.target] using ha) entry old
    · rw [hon] at new
      obtain ⟨_, _, rfl⟩ := mem_map.mp new
      rw [settle_append]
      exact Function.update_self _ _ _
  · simp only [Channel.pending, ← append_assoc] at hi
    rcases mem_append.mp hi with old | new
    · exact related.exact o old
    · rw [mem_singleton.mp new]
      exact he

/-- **A flush.** -/
theorem flushed (hr : Connection.Refill
    { cn with sender, requests := cn.requests ++ [Batch.request ⟨ch.current, bu⟩] })
    (ht : ch.free = bu :: tl)
    (hl : tl = sender.pendBuffers ++ cn.replies.flatten ++ cn.receiver.replyJobs.flatten)
    (hc : sender.cnts = []) (haw : sender.actualWrites = 0) : Relates { cn with
        sender, requests := cn.requests ++ [Batch.request ⟨ch.current, bu⟩] }
      { ch with
        free := tl, current := [], queued := ch.queued ++ [⟨ch.current, bu⟩] }
      a (s ++ [⟨ch.current, bu⟩]) := by
  have ha : bu ∉ ch.used := related.free_not_used (ht ▸ mem_cons_self)
  have ho : Channel.outstanding { ch with
      free := tl, current := [], queued := ch.queued ++ [⟨ch.current, bu⟩] } = ch.outstanding := by
    simp [Channel.outstanding, Channel.used, ht, Batch.buffers, Batch.used]
  have hcl : ∀ batch ∈ ch.queued, bu ∉ batch.buffers := fun batch hm hi => ha (mem_used hm hi)
  refine { related with
      refill := hr
      deque := ho ▸ related.deque
      nodup := ho ▸ related.nodup
      free := hl
      cnts := hc
      actualWrites := haw
      small := by simp [hc]
      open_small := fun _ => by simp [hc, packNotifications]
      queued := by simp [related.queued]
      queued_small := fun batch hm => ?_
      aligned := related.aligned.append_batch fun batch hm =>
        hcl batch (related.queued ▸ mem_append_right _ hm)
      untouched := fun batch hm => untouched_append.mpr ⟨related.untouched batch hm, ?_⟩
      stored := fun entry hi => ?_
      exact := fun o hi => related.exact o (by simpa [Channel.pending] using hi) }
  · rcases mem_append.mp hm with old | new
    · exact related.queued_small batch old
    · rw [mem_singleton.mp new]
      have := related.small
      rw [related.cnts, length_map] at this
      exact (calls_buffers_length _).trans this
  · intro o hit
    rw [mem_singleton.mp hit]
    exact hcl batch (related.queued ▸ mem_append_left _ hm)
  · simp only [Channel.stores, flatMap_append, flatMap_singleton, Batch.stores, flatMap_nil,
      append_nil, ← append_assoc] at hi
    rcases mem_append.mp hi with old | new
    · exact related.stored_append (by simpa [target, Batch.request] using ha) entry old
    · rw [mem_singleton.mp new, settle_append]
      exact Function.update_self _ _ _

/-- **A delivery.** The first notification on the wire joins the ones that wait. -/
theorem delivered {hd : WorkRequest} {tl : List WorkRequest} (hf : cn.requests = hd :: tl) :
    ∃ a s, Relates { cn with
      requests := tl
      receiver := { cn.receiver with
        memory := hd.store cn.receiver.memory
        completions := cn.receiver.completions ++ hd.completion } } ch a s := by
  have ha := related.aligned
  have hu : ∀ batch ∈ a, Untouched tl batch.buffers := fun batch hm posted hi =>
    related.untouched batch hm posted (hf ▸ mem_cons_of_mem _ hi)
  have hst : ∀ entry ∈ ch.stores,
      settle tl (hd.store cn.receiver.memory) entry.1 = some entry.2 := by
    intro entry hi
    have hse := related.stored entry hi
    rwa [hf] at hse
  have one := related.refill.one
  have had := related.refill.asked
  simp only [askings, hf] at one had
  rw [hf] at ha
  cases hd with
  | rdmaWrite t bs =>
    refine ⟨a, s, { related with
      refill := ?_, aligned := ha, untouched := hu, stored := hst, completions := ?_ }⟩
    · constructor <;> simpa [askings, completion] using ‹_›
    · simpa [completion] using related.completions
  | request =>
    refine ⟨a, s, { related with
      refill := ?_, aligned := ha, untouched := hu, stored := hst, completions := ?_ }⟩
    · simp only [count_cons_self] at one had
      constructor
      · simp only [askings, completion, count_append, count_singleton_self]
        omega
      · intro ht
        exact had (by omega)
    · simpa [completion] using related.completions
  | rdmaWriteWithImm t ps imm =>
    cases s with
    | nil => exact ha.elim
    | cons batch l =>
      obtain ⟨hs, hb, hta⟩ := ha
      refine ⟨a ++ [batch], l, { related with
        refill := ?_, aligned := hta, stored := hst, queued := ?_, untouched := ?_
        completions := ?_ }⟩
      · constructor <;> simpa [askings, completion] using ‹_›
      · rw [related.queued, append_assoc]
        rfl
      · injection hs with _ ps imm
        rw [completion, ps, imm, filter_append, related.completions, map_append,
          Batch.packets, length_map]
        rfl
      · intro o hm
        rcases mem_append.mp hm with old | new
        · exact hu o old
        · rw [mem_singleton.mp new]
          exact hb

theorem requested (he : 0 < cn.sender.requestJobs) : Relates cn.postRequest ch a s := by
  obtain ⟨one, ha⟩ := related.refill
  simp only [askings] at one ha
  refine { related with refill := ?_, aligned := ?_, untouched := ?_, stored := ?_ }
  · constructor
    · simp only [askings, postRequest, count_append, count_singleton_self]
      omega
    · intro ht
      exact ha (by omega)
  · exact related.aligned.append (fun _ => Iff.rfl) fun _ _ buffer hit => by cases hit
  · exact fun batch hm => untouched_append.mpr ⟨related.untouched batch hm, fun buffer hit => by
      cases hit⟩
  · exact related.stored_append fun buffer hit => by cases hit

theorem flush : Relates cn.flush ch a s :=
  { related with
    refill := ⟨related.refill.one, related.refill.asked⟩
    open_small := fun hi => by
      have hn : cn.sender.cnts = [] := by
        simpa [Connection.flush] using hi
      simp [Connection.flush, hn, packNotifications] }

end

end Relates

/-- A call without the buffer it is given. -/
inductive Asked where
  | write (sub bytes : BitVec 64) (content : List UInt8)
  | writeSilent (content : List UInt8)
  | writeTo (bytes : BitVec 64)

def Call.asked : Call → Asked
  | .write sub bytes _ content => .write sub bytes content
  | .writeSilent _ content => .writeSilent content
  | .writeTo bytes => .writeTo bytes

/-- The call an action makes. -/
def Action.asked : Action → List Asked
  | .write data bytes sub => [.write sub bytes (Connection.transferred data bytes)]
  | .writeSilent data bytes => [.writeSilent (Connection.transferred data bytes)]
  | .writeTo _ bytes _ => [.writeTo bytes]
  | _ => []

/-- The calls the channel holds, in the order in which they were made. -/
def Channel.calls (channel : Channel) : List Call :=
  channel.handled.flatMap Batch.calls ++ channel.pending

/-- The connection once they have arrived. -/
def opened (block : List Buffer) : Connection where
  sender := ⟨block, false, 0, [], 0, false⟩
  requests := []
  receiver := ⟨fun _ => none, [], 0, [], block.map some, []⟩
  replies := []

/-- The flush of a single call, and its handling. -/
def closing : List Action :=
  [.flush, .flushWrite, .deliver, .deliver, .notify]

/-- The connection after the call, of which nothing has been flushed. -/
def written (rest : List Buffer) : Connection where
  sender := ⟨1 :: rest, false, 0, [⟨1, 0⟩], 1, false⟩
  requests := [.rdmaWrite 0 [7]]
  receiver := ⟨fun _ => none, [], 0, [], (0 :: 1 :: rest).map some, []⟩
  replies := []

end Proteus.Network
