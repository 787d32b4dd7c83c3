/-
**The exchange between two servers** (`olap/lib/operators/router/router-scaleout.cpp`).

Each server has one producer. Items for the server itself go through the pool and the ready queue of
the router; items for the other one are sent as messages, which a second firer there moves into the
same queue, with the low bit of the pointer set. The size of a message says what it is: an item, the
announcement that no more items follow (3), or that the server is done (2). The queue is closed by
whoever is the second to see the end: the producer in its `close`, or the second firer at the
announcement.

Messages that were not flushed yet may be sent at any time. A wait is a step that is taken when what
it waits for is there.

* `exchange` — the machine of both servers.
* `ServerInv` — what holds of one server, whatever it receives.
* `Channel` — what one server received and what is under way to it is what the other sent.
* `ServerInv.fire` and the lemmas before it — a step of one of the threads of a server keeps its
  invariant.
-/

import Proteus.Library.Machine
import Proteus.Platform.AsyncQueue

namespace Proteus.Olap.Router

open Library Platform Option

/-! ### The servers -/

structure ScaleOutConfig (α : Type) where
  slack : Nat
  bufSize : Nat
  blank : α
  bufSize_ge : 8 ≤ bufSize

structure Message (α : Type) where
  size : Nat
  data : α
deriving DecidableEq

/-- Where the producer is: it has a buffer for the server itself or not, or is at one of the steps
of `close`. -/
inductive Sender where
  | running
  | holding
  | count
  | closeQueue
  | waitQueue
  | sendClose
  | join
  | sendDone
  | waitDone
  | closed
deriving DecidableEq

/-- Where the firer for the other server is. -/
inductive Receiver where
  | waiting
  | count
  | closeQueue
  | waitQueue
  | finished
deriving DecidableEq

/-- Where the firer of the server itself is, see `Firer`. -/
inductive LocalFirer (α : Type) where
  | filling (j : Nat)
  | ready
  | consuming (remote : Bool) (item : α)
  | freeing (remote : Bool)
  | closing
  | draining (j : Nat)
  | finished
deriving DecidableEq

structure Server (α : Type) where
  sender : Sender
  receiver : Receiver
  firer : LocalFirer α
  closed : Nat
  readyFifo : AsyncQueue (Bool × α)
  freePool : Nat
  cnt : Nat
  unsent : List (Message α)
  wire : List (Message α)
  sentLocal : List α
  sentRemote : List α
  consumed : List (Bool × α)

variable {α : Type}

namespace Server

/-- `open` -/
def initial (blank : α) : Server α where
  sender := .running
  receiver := .waiting
  firer := .filling 0
  closed := 0
  readyFifo := .initial (false, blank)
  freePool := 0
  cnt := 0
  unsent := []
  wire := []
  sentLocal := []
  sentRemote := []
  consumed := []

variable (config : ScaleOutConfig α) (server : Server α)

def flush : Server α := { server with wire := server.wire ++ server.unsent, unsent := [] }

def write (size : Nat) (data : α) : Server α :=
    { server with unsent := server.unsent ++ [⟨size, data⟩] }

def send (item : α) : Server α :=
  let cnt := (server.cnt + 1) % 2 ^ 64
  let written :=
    { server.write config.bufSize item with cnt, sentRemote := server.sentRemote ++ [item] }
  if cnt % (config.slack / (config.slack / 16)) = 0 then written.flush else written

/-- A step of `fire` for the server itself. -/
def fire : Option (Server α) :=
  match server.firer with
  | .filling j =>
    if j < config.slack then
      some { server with freePool := server.freePool + 1, firer := .filling (j + 1) }
    else some { server with firer := .ready }
  | .ready =>
    server.readyFifo.pop.map fun (ready, readyFifo) =>
      { server with
        readyFifo, firer := (ready.map fun found => .consuming found.1 found.2).getD .closing }
  | .consuming remote item =>
    some { server with consumed := server.consumed ++ [(remote, item)], firer := .freeing remote }
  | .freeing remote =>
    some { server with freePool := if remote then server.freePool else
      server.freePool + 1, firer := .ready }
  | .closing => some { server with firer := .draining 0 }
  | .draining j =>
    if j < config.slack then
      if 0 < server.freePool then
        some { server with freePool := server.freePool - 1, firer := .draining (j + 1) }
      else none
    else some { server with firer := .finished }
  | .finished => none

end Server

/-! ### The machine -/

/-- A step of one server. -/
inductive ServerAction (α : Type) where
  | acquire
  | release (item : α)
  | send (item : α)
  | close
  | proceed
  | receive
  | fire
  | transmit
deriving DecidableEq

section

variable (config : ScaleOutConfig α) (own peer : Server α)

def proceedClose : Option (Server α × Server α) :=
  match own.sender with
  | .count =>
    if own.closed + 1 = 2 then
      some ({ own.flush with closed := own.closed + 1, sender := .closeQueue }, peer)
    else some ({ own with closed := own.closed + 1, sender := .sendClose }, peer)
  | .closeQueue => some ({ own with readyFifo := own.readyFifo.startClose, sender := .waitQueue },
      peer)
  | .waitQueue => if own.readyFifo.isEmpty then some ({ own with sender := .sendClose }, peer) else
      none
  | .sendClose => some ({ (own.flush.write 3 config.blank).flush with sender := .join }, peer)
  | .join =>
    match own.firer, own.receiver with
    | .finished, .finished => some ({ own with sender := .sendDone }, peer)
    | _, _ => none
  | .sendDone => some ({ (own.write 2 config.blank).flush with sender := .waitDone }, peer)
  | .waitDone =>
    match peer.wire with
    | _ :: rest => some ({ own with sender := .closed, cnt := 0, closed := 0 },
        { peer with wire := rest })
    | [] => none
  | _ => none

def receiveStep : Option (Server α × Server α) :=
  match own.receiver with
  | .waiting =>
    match peer.wire with
    | message :: rest =>
      if message.size = 3 then some ({ own with receiver := .count }, { peer with wire := rest })
      else some ({ own with readyFifo := own.readyFifo.push (true, message.data) },
        { peer with wire := rest })
    | [] => none
  | .count =>
    if own.closed + 1 = 2 then some ({ own with closed := own.closed + 1, receiver := .closeQueue },
      peer)
    else some ({ own with closed := own.closed + 1, receiver := .finished }, peer)
  | .closeQueue => some ({ own with readyFifo := own.readyFifo.startClose, receiver := .waitQueue },
      peer)
  | .waitQueue => if own.readyFifo.isEmpty then some ({ own with receiver := .finished }, peer) else
      none
  | .finished => none

def serverStep : ServerAction α → Option (Server α × Server α)
  | .acquire =>
    if own.sender = .running ∧ 0 < own.freePool then
      some ({ own with sender := .holding, freePool := own.freePool - 1 }, peer)
    else none
  | .release item =>
    if own.sender = .holding then
      some ({ own with
        sender := .running
        readyFifo := own.readyFifo.push (false, item)
        sentLocal := own.sentLocal ++ [item] }, peer)
    else none
  | .send item =>
    -- `releaseBuffer` divides by `slack / 16`
    if own.sender = .running ∧ config.slack / 16 ≠ 0 then some (own.send config item, peer) else
      none
  | .close => if own.sender = .running then some ({ own with sender := .count }, peer) else none
  | .proceed => proceedClose config own peer
  | .receive => receiveStep own peer
  | .fire => (own.fire config).map fun after => (after, peer)
  | .transmit =>
    match own.unsent with
    | message :: rest => some ({ own with wire := own.wire ++ [message], unsent := rest }, peer)
    | [] => none

end

/-- Both servers; `false` is the first. -/
structure Exchange (α : Type) where
  server : Bool → Server α

/-- The exchange: each step is one of one server. -/
def exchange (config : ScaleOutConfig α) : Machine (Exchange α) (Bool × ServerAction α) where
  Start := fun state => state = ⟨fun _ => .initial config.blank⟩
  Enabled := fun state action =>
    (serverStep config (state.server action.1) (state.server !action.1) action.2).isSome = true
  next := fun state action =>
    (serverStep config (state.server action.1) (state.server !action.1) action.2).map fun (own,
        peer) =>
      ⟨fun side => if side = action.1 then own else peer⟩

/-! ### What was sent and what arrived -/

/-- A producer past the count of its `close`. -/
def Sender.counted : Sender → Bool
  | .running | .holding | .count => false
  | _ => true

def Receiver.counted : Receiver → Bool
  | .waiting | .count => false
  | _ => true

/-- The firer's queue has ended. -/
def LocalFirer.ended : LocalFirer α → Bool
  | .closing | .draining _ | .finished => true
  | _ => false

def LocalFirer.inHand : LocalFirer α → List (Bool × α)
  | .consuming remote item => [(remote, item)]
  | _ => []

def LocalFirer.buffers (slack : Nat) : LocalFirer α → Nat
  | .filling j => slack - j
  | .consuming false _ | .freeing false => 1
  | .draining j => j
  | .finished => slack
  | _ => 0

/-- The items of one origin. -/
def items (remote : Bool) (found : List (Bool × α)) : List α :=
  (found.filter fun entry => entry.1 == remote).map Prod.snd

@[simp]
theorem items_append (r : Bool) (f s : List (Bool × α)) :
    items r (f ++ s) = items r f ++ items r s := by
  simp [items]

@[simp]
theorem items_nil (r : Bool) : items r ([] : List (Bool × α)) = [] := rfl

@[simp]
theorem items_same (r : Bool) (x : α) : items r [(r, x)] = [x] := by
  simp [items]

namespace Server

/-- What was pushed into the ready queue. -/
def pushed (server : Server α) : List (Bool × α) :=
  server.consumed ++ (server.firer.inHand ++ server.readyFifo.contents)

/-- The announcements that a server sent. -/
def announced (config : ScaleOutConfig α) (server : Server α) : List (Message α) :=
  match server.sender with
  | .join | .sendDone => [⟨3, config.blank⟩]
  | .waitDone | .closed => [⟨3, config.blank⟩, ⟨2, config.blank⟩]
  | _ => []

def heard (config : ScaleOutConfig α) (server : Server α) : List (Message α) :=
  (if server.receiver = .waiting then [] else [⟨3, config.blank⟩]) ++
    if server.sender = .closed then [⟨2, config.blank⟩] else []

end Server

/-- The message of an item. -/
def ScaleOutConfig.message (config : ScaleOutConfig α) (item : α) : Message α :=
    ⟨config.bufSize, item⟩

/-- **The channel to a server**: what arrived and what is under way is what its peer sent, in
order. -/
def Channel (config : ScaleOutConfig α) (own peer : Server α) : Prop :=
  (items true own.pushed).map config.message ++ own.heard config ++ (peer.wire ++ peer.unsent) =
    peer.sentRemote.map config.message ++ peer.announced config

/-- The invariant of one server. -/
structure ServerInv (config : ScaleOutConfig α) (own : Server α) : Prop where
  localItems : items false own.pushed = own.sentLocal
  buffers : own.freePool + (if own.sender = .holding then 1 else 0) +
    (items false own.readyFifo.contents).length + own.firer.buffers config.slack = config.slack
  filling : ∀ j, own.firer = .filling j → j ≤ config.slack
  draining : ∀ j, own.firer = .draining j → j ≤ config.slack
  closed : own.sender ≠ .closed → own.closed =
    (if own.sender.counted then 1 else 0) + if own.receiver.counted then 1 else 0
  both : own.readyFifo.terminating = true → own.sender.counted = true ∧ own.receiver.counted = true
  closer : own.sender = .closeQueue ∨ own.sender = .waitQueue → own.receiver.counted = true
  closing : own.receiver = .closeQueue ∨ own.receiver = .waitQueue → own.sender.counted = true
  closes : own.sender.counted = true → own.receiver.counted = true →
    own.readyFifo.terminating = true ∨ own.sender = .closeQueue ∨ own.receiver = .closeQueue
  waits : own.sender = .waitQueue ∨ own.receiver = .waitQueue → own.readyFifo.terminating = true
  ended : own.firer.ended = true → own.readyFifo.contents = [] ∧ own.readyFifo.terminating = true
  joined : own.sender = .sendDone ∨ own.sender = .waitDone ∨ own.sender = .closed →
    own.receiver = .finished ∧ own.firer = .finished

/-! ### Steps of a server -/

namespace ServerInv

variable {c : ScaleOutConfig α} {own next n : Server α}

theorem initial (c : ScaleOutConfig α) : ServerInv c (.initial c.blank) where
  localItems := rfl
  buffers := by simp [Server.initial, LocalFirer.buffers]
  filling := by
    rintro j ⟨⟩
    exact Nat.zero_le _
  draining := nofun
  closed := fun _ => rfl
  both := nofun
  closer := by rintro (⟨⟨⟩⟩ | ⟨⟨⟩⟩)
  closing := by rintro (⟨⟨⟩⟩ | ⟨⟨⟩⟩)
  closes := nofun
  waits := by rintro (⟨⟨⟩⟩ | ⟨⟨⟩⟩)
  ended := nofun
  joined := by rintro (⟨⟨⟩⟩ | ⟨⟨⟩⟩ | ⟨⟨⟩⟩)

variable {readyFifo : AsyncQueue (Bool × α)}

section

variable (inv : ServerInv c own)

include inv

theorem isOpen (hb : own.sender.counted = false ∨ own.receiver.counted = false) :
    own.readyFifo.terminating = false := by
  by_contra hc
  obtain ⟨hs, hr⟩ := inv.both ((Bool.not_eq_false _).mp hc)
  rcases hb with hb | hb
  · rw [hs] at hb
    cases hb
  · rw [hr] at hb
    cases hb

theorem not_ended (ho : own.readyFifo.terminating = false) : own.firer.ended ≠ true := by
  intro he
  have hs := (inv.ended he).2
  rw [ho] at hs
  cases hs

theorem not_joined (hr : own.receiver ≠ .finished) :
    ¬ (own.sender = .sendDone ∨ own.sender = .waitDone ∨ own.sender = .closed) :=
  fun hj => hr (inv.joined hj).1

theorem uncounted (hb : own.sender.counted = false) (ha : n.sender.counted = false)
    (hr : n.receiver = own.receiver) (hcl : n.closed = own.closed)
    (ht : n.readyFifo.terminating = own.readyFifo.terminating) (hf : n.firer = own.firer)
    (hli : items false n.pushed = n.sentLocal)
    (hbu : n.freePool + (if n.sender = .holding then 1 else 0) +
      (items false n.readyFifo.contents).length + n.firer.buffers c.slack = c.slack) :
    ServerInv c n := by
  have ho := inv.isOpen (.inl hb)
  have hd : own.sender ≠ .closed := by
    intro hs
    rw [hs] at hb
    cases hb
  refine ⟨hli, hbu, hf ▸ inv.filling, hf ▸ inv.draining, fun _ => ?_, fun hsh => ?_,
    fun hcs => ?_, fun hcs => ?_, fun hco => ?_, fun hw => ?_, fun he => ?_, fun hj => ?_⟩
  · have hc := inv.closed hd
    rw [hb] at hc
    rw [hcl, hc, ha, hr]
  · rw [ht, ho] at hsh
    cases hsh
  · rcases hcs with hs | hs <;> · rw [hs] at ha; cases ha
  · rw [hr] at hcs
    have hco := inv.closing hcs
    rw [hb] at hco
    cases hco
  · rw [ha] at hco
    cases hco
  · rcases hw with hs | hs
    · rw [hs] at ha
      cases ha
    · rw [ht]
      exact inv.waits (.inr (hr ▸ hs))
  · rw [hf] at he
    exact absurd he (inv.not_ended ho)
  · rcases hj with hs | hs | hs <;> · rw [hs] at ha; cases ha

variable {sender : Sender} {receiver : Receiver}

theorem counted (hb : own.sender.counted = true) (hh : own.sender ≠ .closed)
    (ha : sender.counted = true) {closed cnt : Nat}
    {unsent wire : List (Message α)} (hcn : readyFifo.contents = own.readyFifo.contents)
    (hk : own.readyFifo.terminating = true → readyFifo.terminating = true)
    (hsh : readyFifo.terminating = true → own.readyFifo.terminating = true ∨
      own.sender = .closeQueue)
    (hcl : own.sender = .closeQueue → readyFifo.terminating = true)
    (hcr : sender = .closeQueue ∨ sender = .waitQueue → own.sender = .closeQueue ∨
      own.sender = .waitQueue)
    (hs : sender ≠ .closed → closed = own.closed)
    (hj : sender = .sendDone ∨ sender = .waitDone ∨ sender = .closed →
      own.receiver = .finished ∧ own.firer = .finished) :
    ServerInv c { own with sender, readyFifo, closed, cnt, unsent, wire } := by
  have hho : ∀ {p : Sender}, p.counted = true → p ≠ .holding := by
    rintro _ hco rfl
    cases hco
  refine ⟨?_, ?_, inv.filling, inv.draining, fun hd => ?_, fun hsn => ?_, fun hq => ?_,
    fun _ => ha, fun _ receiver => ?_, fun hw => ?_, fun hen => ?_, hj⟩
  · have hli := inv.localItems
    rw [Server.pushed, ← hcn] at hli
    exact hli
  · have hbu := inv.buffers
    rw [if_neg (hho hb), ← hcn] at hbu
    rw [if_neg (hho ha)]
    exact hbu
  · have hc := inv.closed hh
    rw [if_pos hb] at hc
    rw [if_pos ha, hs hd, hc]
  · refine ⟨ha, ?_⟩
    rcases hsh hsn with hb | hcg
    · exact (inv.both hb).2
    · exact inv.closer (.inl hcg)
  · exact inv.closer (hcr hq)
  · rcases inv.closes hb receiver with hsn | hcg | hcg
    · exact .inl (hk hsn)
    · exact .inl (hcl hcg)
    · exact .inr (.inr hcg)
  · rcases hw with hw | hw
    · rcases hcr (.inr hw) with hcg | hb
      · exact hcl hcg
      · exact hk (inv.waits (.inl hb))
    · exact hk (inv.waits (.inr hw))
  · obtain ⟨he, hsn⟩ := inv.ended hen
    exact ⟨hcn.trans he, hk hsn⟩

theorem senderCount (hp : own.sender = .count) {unsent wire : List (Message α)}
    (n : own.closed + 1 = 2 ∧ sender = .closeQueue ∨ own.closed + 1 ≠ 2 ∧ sender = .sendClose) :
    ServerInv c { own with sender, closed := own.closed + 1, unsent, wire } := by
  have hc := inv.closed (by rw [hp]; nofun)
  rw [hp] at hc
  have ho := inv.isOpen (.inl (by rw [hp]; rfl))
  have hb := inv.buffers
  rw [hp] at hb
  have hro : ¬ (own.receiver = .closeQueue ∨ own.receiver = .waitQueue) := by
    intro hcl
    have hco := inv.closing hcl
    rw [hp] at hco
    cases hco
  rcases n with ⟨hs, rfl⟩ | ⟨hf, rfl⟩
  · have receiver : own.receiver.counted = true := by
      by_contra hu
      have hn : own.closed = 0 := by simpa [Sender.counted, hu] using hc
      omega
    refine ⟨inv.localItems, hb, inv.filling, inv.draining, fun _ => ?_, ?_, fun _ => receiver,
      fun _ => rfl, fun _ _ => .inr (.inl rfl), ?_, fun he => absurd he (inv.not_ended ho),
      by rintro (⟨⟨⟩⟩ | ⟨⟨⟩⟩ | ⟨⟨⟩⟩)⟩
    · show own.closed + 1 = 1 + if own.receiver.counted then 1 else 0
      rw [if_pos receiver]
      omega
    · intro hsh
      exact ⟨rfl, receiver⟩
    · rintro (⟨⟨⟩⟩ | hw)
      exact absurd (.inr hw) hro
  · have receiver : own.receiver.counted = false := by
      by_contra hco
      have one : own.closed = 1 := by
        simpa [Sender.counted, (Bool.not_eq_false _).mp hco] using hc
      omega
    refine ⟨inv.localItems, hb, inv.filling, inv.draining, fun _ => ?_, ?_, by rintro (⟨⟨⟩⟩ | ⟨⟨⟩⟩),
      fun _ => rfl, fun _ hco => ?_, ?_, fun he => absurd he (inv.not_ended ho),
      by rintro (⟨⟨⟩⟩ | ⟨⟨⟩⟩ | ⟨⟨⟩⟩)⟩
    · show own.closed + 1 = 1 + if own.receiver.counted then 1 else 0
      rw [hc, receiver]
      rfl
    · intro hsh
      rw [ho] at hsh
      cases hsh
    · rw [receiver] at hco
      cases hco
    · rintro (⟨⟨⟩⟩ | hw)
      exact absurd (.inr hw) hro

theorem receive (hb : own.receiver.counted = false) (ha : receiver.counted = false)
    (ht : readyFifo.terminating = own.readyFifo.terminating)
    (hcn : items false readyFifo.contents = items false own.readyFifo.contents) :
    ServerInv c { own with receiver, readyFifo } := by
  have ho := inv.isOpen (.inr hb)
  have hnf : ∀ {p : Receiver}, p.counted = false → p ≠ .finished := by
    rintro _ hu rfl
    cases hu
  refine ⟨?_, ?_, inv.filling, inv.draining, fun hd => ?_, fun hs => ?_, fun hcl => ?_,
    fun hcl => ?_, fun _ hco => ?_, fun hw => ?_, fun he => ?_, fun hj => ?_⟩
  · have hli := inv.localItems
    simp only [Server.pushed, items_append] at hli ⊢
    rwa [hcn]
  · have hbu := inv.buffers
    rw [← hcn] at hbu
    exact hbu
  · have hc := inv.closed hd
    rw [hb] at hc
    rw [ha]
    exact hc
  · rw [ht, ho] at hs
    cases hs
  · have hco := inv.closer hcl
    rw [hb] at hco
    cases hco
  · replace hcl : receiver = .closeQueue ∨ receiver = .waitQueue := hcl
    rcases hcl with rfl | rfl <;> cases ha
  · rw [ha] at hco
    cases hco
  · replace hw : own.sender = .waitQueue ∨ receiver = .waitQueue := hw
    rcases hw with hw | rfl
    · have hco := inv.closer (.inr hw)
      rw [hb] at hco
      cases hco
    · cases ha
  · have hs := (inv.ended he).2
    rw [ho] at hs
    cases hs
  · exact absurd (inv.joined hj).1 (hnf hb)

theorem receiverCount (hp : own.receiver = .count)
    (n : own.closed + 1 = 2 ∧ receiver = .closeQueue ∨ own.closed + 1 ≠ 2 ∧ receiver = .finished) :
    ServerInv c { own with receiver, closed := own.closed + 1 } := by
  have hu : own.receiver.counted = false := by
    rw [hp]
    rfl
  have hnj := inv.not_joined (by rw [hp]; rintro ⟨⟩)
  have hc := inv.closed fun hcl => hnj (.inr (.inr hcl))
  have ho := inv.isOpen (.inr hu)
  have hso : ¬ (own.sender = .closeQueue ∨ own.sender = .waitQueue) := by
    intro hcs
    have hco := inv.closer hcs
    rw [hu] at hco
    cases hco
  rcases n with ⟨hs, rfl⟩ | ⟨hf, rfl⟩
  · have sender : own.sender.counted = true := by
      by_contra hco
      have hn : own.closed = 0 := by simpa [hu, hco] using hc
      omega
    refine ⟨inv.localItems, inv.buffers, inv.filling, inv.draining, fun _ => ?_, fun _ =>
      ⟨sender, rfl⟩,
      fun hcs => absurd hcs hso, fun _ => sender, fun _ _ => .inr (.inr rfl), fun hw => ?_,
      fun he => absurd he (inv.not_ended ho), fun hj => absurd hj hnj⟩
    · show own.closed + 1 = (if own.sender.counted then 1 else 0) + 1
      rw [if_pos sender]
      omega
    · rcases hw with hw | ⟨⟨⟩⟩
      exact absurd (.inr hw) hso
  · have sender : own.sender.counted = false := by
      by_contra hco
      have one : own.closed = 1 := by
        simpa [hu, (Bool.not_eq_false _).mp hco] using hc
      omega
    refine ⟨inv.localItems, inv.buffers, inv.filling, inv.draining, fun _ => ?_, fun hsh => ?_,
      fun hcs => absurd hcs hso, by rintro (⟨⟨⟩⟩ | ⟨⟨⟩⟩), fun hco _ => ?_, fun hw => ?_,
      fun he => absurd he (inv.not_ended ho), fun hj => absurd hj hnj⟩
    · show own.closed + 1 = (if own.sender.counted then 1 else 0) + 1
      rw [hc, sender, hu]
      rfl
    · rw [ho] at hsh
      cases hsh
    · rw [sender] at hco
      cases hco
    · rcases hw with hw | ⟨⟨⟩⟩
      exact absurd (.inr hw) hso

theorem receiverClose (hp : own.receiver = .closeQueue ∨ own.receiver = .waitQueue)
    (ha : receiver = .waitQueue ∨ receiver = .finished)
    (hcn : readyFifo.contents = own.readyFifo.contents) (hsh : readyFifo.terminating = true) :
    ServerInv c { own with receiver, readyFifo } := by
  have sender := inv.closing hp
  have hb : own.receiver.counted = true := by rcases hp with hs | hs <;> rw [hs] <;> rfl
  have hco : receiver.counted = true := by rcases ha with rfl | rfl <;> rfl
  have hnj := inv.not_joined (by rcases hp with hs | hs <;> rw [hs] <;> rintro ⟨⟩)
  refine ⟨?_, ?_, inv.filling, inv.draining, fun hd => ?_, fun _ => ⟨sender, hco⟩, fun _ => hco,
    fun _ => sender, fun _ _ => .inl hsh, fun _ => hsh, fun he => ⟨hcn.trans (inv.ended he).1, hsh⟩,
    fun hj => absurd hj hnj⟩
  · have hli := inv.localItems
    rw [Server.pushed, ← hcn] at hli
    exact hli
  · have hbu := inv.buffers
    rw [← hcn] at hbu
    exact hbu
  · have hc := inv.closed hd
    rw [hb] at hc
    rw [hco]
    exact hc

end

/-- What a step of the firer leaves as it is. -/
structure Refires (own next : Server α) : Prop where
  pushed : next.pushed = own.pushed
  sender : next.sender = own.sender
  receiver : next.receiver = own.receiver
  wire : next.wire = own.wire
  unsent : next.unsent = own.unsent
  sentRemote : next.sentRemote = own.sentRemote

theorem refire (inv : ServerInv c own) {o firer : LocalFirer α} (hp : own.firer = o)
    (hbs : o ≠ .finished) {freePool : Nat} {consumed : List (Bool × α)}
    (hpu : consumed ++ (firer.inHand ++ readyFifo.contents) = own.consumed ++
    (o.inHand ++ own.readyFifo.contents))
    (ht : readyFifo.terminating = own.readyFifo.terminating)
    (hbu : freePool + (items false readyFifo.contents).length + firer.buffers c.slack =
      own.freePool + (items false own.readyFifo.contents).length + o.buffers c.slack)
    (hf : ∀ j, firer = .filling j → j ≤ c.slack)
    (hd : ∀ j, firer = .draining j → j ≤ c.slack)
    (he : firer.ended = true → readyFifo.contents = [] ∧ readyFifo.terminating = true) :
    ServerInv c { own with firer, readyFifo, freePool, consumed } ∧
      Refires own { own with firer, readyFifo, freePool, consumed } := by
  subst hp
  refine ⟨⟨?_, ?_, hf, hd, inv.closed, ?_, inv.closer, inv.closing, ?_, ?_, he,
    fun hj => ?_⟩, ⟨hpu, rfl, rfl, rfl, rfl, rfl⟩⟩
  · exact (congrArg (items false) hpu).trans inv.localItems
  · have hb := inv.buffers
    show freePool + (if own.sender = .holding then 1 else 0) +
      (items false readyFifo.contents).length +
      firer.buffers c.slack = c.slack
    omega
  · rw [ht]
    exact inv.both
  · rw [ht]
    exact inv.closes
  · rw [ht]
    exact inv.waits
  · exact absurd (inv.joined hj).2 hbs

/-- **A step of the firer** moves items on, and buffers. -/
theorem fire (inv : ServerInv c own) (hf : own.fire c = some n) :
    ServerInv c n ∧ Refires own n := by
  cases hp : own.firer with
  | filling j =>
    have low := inv.filling j hp
    simp only [Server.fire, hp] at hf
    split at hf
    · next hle =>
      cases hf
      refine inv.refire hp nofun rfl rfl ?_ ?_ nofun nofun
      · simp only [LocalFirer.buffers]
        omega
      · rintro _ ⟨⟩
        exact hle
    · cases hf
      refine inv.refire hp nofun rfl rfl ?_ nofun nofun nofun
      · simp only [LocalFirer.buffers]
        omega
  | ready =>
    simp only [Server.fire, hp] at hf
    obtain ⟨⟨f, readyFifo⟩, hpo, rfl⟩ := map_eq_some_iff.mp hf
    obtain ⟨hc, ht, hl⟩ := AsyncQueue.contents_pop hpo
    cases f with
    | none =>
      obtain ⟨hs, he, rfl⟩ := hl rfl
      exact inv.refire hp nofun rfl rfl rfl nofun nofun fun _ => ⟨he, hs⟩
    | some f =>
      obtain ⟨r, x⟩ := f
      refine inv.refire hp nofun ?_ ht ?_ nofun nofun nofun
      · rw [hc]
        rfl
      · rw [hc]
        simp only [toList_some, items_append, List.length_append, map_some, getD_some]
        cases r with
        | false =>
          simp only [items_same, List.length_singleton, LocalFirer.buffers]
          omega
        | true =>
          have hn : items false [(true, x)] = [] := rfl
          simp only [hn, List.length_nil, LocalFirer.buffers]
          omega
  | consuming r x =>
    simp only [Server.fire, hp, Option.some.injEq] at hf
    subst hf
    refine inv.refire hp nofun ?_ rfl ?_ nofun nofun nofun
    · simp [LocalFirer.inHand]
    · cases r <;> rfl
  | freeing r =>
    simp only [Server.fire, hp, Option.some.injEq] at hf
    subst hf
    refine inv.refire hp nofun rfl rfl ?_ nofun nofun nofun
    · cases r with
      | false =>
        simp only [LocalFirer.buffers, Bool.false_eq_true, if_false]
        omega
      | true => rfl
  | closing =>
    simp only [Server.fire, hp, Option.some.injEq] at hf
    subst hf
    have hen := inv.ended (by rw [hp]; rfl)
    refine inv.refire hp nofun rfl rfl rfl nofun ?_ fun _ => hen
    rintro _ ⟨⟩
    exact Nat.zero_le _
  | draining j =>
    have low := inv.draining j hp
    have hen := inv.ended (by rw [hp]; rfl)
    simp only [Server.fire, hp] at hf
    split at hf
    · next hle =>
      obtain ⟨some, ⟨⟩⟩ := ite_none_right_eq_some.mp hf
      refine inv.refire hp nofun rfl rfl ?_ nofun ?_ fun _ => hen
      · simp only [LocalFirer.buffers]
        omega
      · rintro _ ⟨⟩
        exact hle
    · cases hf
      refine inv.refire hp nofun rfl rfl ?_ nofun nofun fun _ => hen
      · simp only [LocalFirer.buffers]
        omega
  | finished =>
    simp only [Server.fire, hp] at hf
    cases hf

end ServerInv

end Proteus.Olap.Router
