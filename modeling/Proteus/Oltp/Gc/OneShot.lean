/-
**One-shot garbage collection of the delta stores** (`transaction_manager.cpp`, `txn-table.*`,
`storage/multi-version/delta_storage.*`).

Each worker runs one transaction after the other through `TransactionManager::execute`. Every access
to a shared word is a step of its own: the start time is taken from `gen`, published in
`min_active`, the transaction registers with the delta store it writes to, and whoever unregisters
last collects: it loads every worker's `min_active` and `max_active_epoch`, and if no transaction is
as old as the last writer, a new tag makes all versions of the store invalid at once, and their
memory is used again.

Versions are objects here; a reset makes their contents unknown. What the copies hold is the subject
of the storage modules.

* `oneShot` — the machine.
* `Serves` — every transaction that has a start time finds a version to read.
-/

import Proteus.Library.Machine
import Proteus.Oltp.Storage.ColumnStore

namespace Proteus.Oltp.Gc

open Library Storage.Numerals
open Storage (Region deltaVersion RecordId TxnTs)

/-! ### Versions -/

/-- A tagged pointer; the null pointer has the tag 0 of store 0. -/
structure Ptr where
  delta : Fin 4
  tag : Nat
  node : Nat

def Ptr.null : Ptr := ⟨0, 0, 0⟩

/-- A version: its `t_min`, the pointer to the next one, and the memory it is in. -/
structure Node where
  tMin : Nat
  next : Ptr
  region : Region

/-- An index entry; `inserted` is the start time of the transaction that inserted the record. -/
structure Entry where
  inserted : Nat
  tMin : Nat
  deltaList : Ptr

/-! ### Workers -/

/-- Where a worker is in `execute`, or in the collection that follows. -/
inductive Phase (n : Nat)
  | idle
  | taken (start : Nat) (readOnly : Bool)
  | attempt (start : Nat)
  | spin (start : Nat)
  | enter (start : Nat)
  | running (start : Nat) (readOnly : Bool)
  | leaving (start : Nat)
  | tryGc (delta : Fin 4)
  | loadMin (delta : Fin 4) (rest : List (Fin n)) (min : Nat)
  | loadMax (delta : Fin 4) (rest : List (Fin n)) (min max : Nat)
  | reset (delta : Fin 4) (rest : List (Fin 8))

namespace Phase

variable {n : Nat}

def start? : Phase n → Option Nat
  | taken start _ | attempt start | spin start | enter start | running start _ => some start
  | _ => none

def published? : Phase n → Option Nat
  | attempt start | spin start | enter start | running start _ => some start
  | _ => none

def writing? : Phase n → Option Nat
  | running start false => some start
  | _ => none

def registered? : Phase n → Option (Fin 4)
  | enter start | running start false | leaving start => some (deltaVersion start)
  | _ => none

def waiting? : Phase n → Option (Fin 4)
  | spin start => some (deltaVersion start)
  | _ => none

def collecting? : Phase n → Option (Fin 4)
  | loadMin delta _ _ | loadMax delta _ _ _ | reset delta _ => some delta
  | _ => none

end Phase

/-- The shared words, and the phases of the workers. -/
structure Engine (n : Nat) where
  gen : Nat
  minActive : Fin n → Nat
  readers : Fin 4 → Int
  maxActiveEpoch : Fin 4 → Fin n → Nat
  tag : Fin 4 → Nat
  nodes : Nat → Option Node
  nextNode : Nat
  records : RecordId → Option Entry
  phase : Fin n → Phase n

/-- `UINT64_MAX` -/
def uint64Max : Nat := 2 ^ 64 - 1

/-- `INT64_MIN` -/
def int64Min : Int := -2 ^ 63

/-- The steps of a worker. -/
inductive Step (n : Nat)
  | begin (worker : Fin n) (readOnly : Bool)
  | publish (worker : Fin n)
  | incrementReader (worker : Fin n)
  | retry (worker : Fin n)
  | raiseEpoch (worker : Fin n)
  | insert (worker : Fin n) (record : RecordId)
  | update (worker : Fin n) (record : RecordId) (pid : Fin 8)
  | endTxn (worker : Fin n)
  | decrementReader (worker : Fin n)
  | exchange (worker : Fin n) (succeeds : Bool)
  | loadMinActive (worker : Fin n)
  | loadMaxActiveEpoch (worker : Fin n)
  | decide (worker : Fin n)
  | resetPartition (worker : Fin n)
  | release (worker : Fin n)

namespace Engine

variable {n : Nat}

/-- `verifyTag` -/
def isValid (engine : Engine n) (ptr : Ptr) : Prop := engine.tag ptr.delta % 2 ^ 20 = ptr.tag

instance (engine : Engine n) (ptr : Ptr) : Decidable (engine.isValid ptr) :=
  inferInstanceAs (Decidable (_ = _))

def goto (engine : Engine n) (worker : Fin n) (phase : Phase n) : Engine n :=
  { engine with phase := Function.update engine.phase worker phase }

/-- `create_versions` and the stamp of `updateRecord`, for a worker of transaction `start`. -/
def updateRecord (engine : Engine n) (start : Nat) (record : RecordId) (pid : Fin 8)
    (entry : Entry) : Engine n :=
  let delta := deltaVersion start
  let next := if engine.isValid entry.deltaList then entry.deltaList else Ptr.null
  { engine with
    nodes := Function.update engine.nodes engine.nextNode (some ⟨entry.tMin, next, ⟨delta, pid⟩⟩)
    nextNode := engine.nextNode + 1
    records := Function.update engine.records record (some
      { entry with
        tMin := start % 2 ^ 63
        deltaList := ⟨delta, engine.tag delta % 2 ^ 20, engine.nextNode⟩ }) }

/-- `DeltaPartition::reset`: the memory of a partition is going to be used again. -/
def resetPartition (engine : Engine n) (region : Region) : Engine n :=
  { engine with
    nodes := fun node => (engine.nodes node).filter fun version => version.region ≠ region }

/-- One step, where the phase of the worker allows it. -/
def next (engine : Engine n) : Step n → Option (Engine n)
  | .begin worker readOnly =>
    match engine.phase worker with
    | .idle => some
      { engine.goto worker (.taken engine.gen readOnly) with gen := (engine.gen + 1) % 2 ^ 64 }
    | _ => none
  | .publish worker =>
    match engine.phase worker with
    | .taken start readOnly => some
      { engine.goto worker (if readOnly then .running start true else .attempt start) with
        minActive := Function.update engine.minActive worker start }
    | _ => none
  | .incrementReader worker =>
    match engine.phase worker with
    | .attempt start =>
      let delta := deltaVersion start
      some { engine.goto worker (if engine.readers delta < 0 then .spin start else
        .enter start) with
        readers := Function.update engine.readers delta (engine.readers delta + 1) }
    | _ => none
  | .retry worker =>
    match engine.phase worker with
    | .spin start =>
      if engine.readers (deltaVersion start) < 0 then none else
        some (engine.goto worker (.attempt start))
    | _ => none
  | .raiseEpoch worker =>
    match engine.phase worker with
    | .enter start =>
      let epochs := engine.maxActiveEpoch (deltaVersion start)
      some { engine.goto worker (.running start false) with
        maxActiveEpoch := Function.update engine.maxActiveEpoch (deltaVersion start)
          (Function.update epochs worker (max (epochs worker) start)) }
    | _ => none
  | .insert worker record =>
    match engine.phase worker, engine.records record with
    | .running start false, none => some
      { engine with
        records := Function.update engine.records record
          (some ⟨start % 2 ^ 63, start % 2 ^ 63, Ptr.null⟩) }
    | _, _ => none
  | .update worker record pid =>
    match engine.phase worker, engine.records record with
    | .running start false, some entry => some (engine.updateRecord start record pid entry)
    | _, _ => none
  | .endTxn worker =>
    match engine.phase worker with
    | .running start readOnly => some
      { engine.goto worker (if readOnly then .idle else .leaving start) with
        minActive := Function.update engine.minActive worker uint64Max }
    | _ => none
  | .decrementReader worker =>
    match engine.phase worker with
    | .leaving start =>
      let delta := deltaVersion start
      some { engine.goto worker (if engine.readers delta = 1 then .tryGc delta else .idle) with
        readers := Function.update engine.readers delta (engine.readers delta - 1) }
    | _ => none
  | .exchange worker succeeds =>
    match engine.phase worker with
    | .tryGc delta =>
      -- a weak exchange may fail
      if succeeds ∧ engine.readers delta = 0 then some
        { engine.goto worker (.loadMin delta (List.finRange n) uint64Max) with
          readers := Function.update engine.readers delta int64Min }
      else some (engine.goto worker .idle)
    | _ => none
  | .loadMinActive worker =>
    match engine.phase worker with
    | .loadMin delta (other :: rest) least =>
      some (engine.goto worker (.loadMin delta rest (min least (engine.minActive other))))
    | .loadMin delta [] least =>
        some (engine.goto worker (.loadMax delta (List.finRange n) least 0))
    | _ => none
  | .loadMaxActiveEpoch worker =>
    match engine.phase worker with
    | .loadMax delta (other :: rest) least most =>
      some (engine.goto worker
        (.loadMax delta rest least (max most (engine.maxActiveEpoch delta other))))
    | _ => none
  | .decide worker =>
    match engine.phase worker with
    | .loadMax delta [] least most =>
      if most < least then some { engine.goto worker (.reset delta (List.finRange 8)) with
          tag := Function.update engine.tag delta ((engine.tag delta + 1) % 2 ^ 32) }
      else some (engine.goto worker (.reset delta []))
    | _ => none
  | .resetPartition worker =>
    match engine.phase worker with
    | .reset delta (pid :: rest) =>
        some ((engine.resetPartition ⟨delta, pid⟩).goto worker (.reset delta rest))
    | _ => none
  | .release worker =>
    match engine.phase worker with
    | .reset delta [] => some
      { engine.goto worker .idle with readers := Function.update engine.readers delta 0 }
    | _ => none

end Engine

def Engine.initial (n : Nat) : Engine n where
  gen := 1
  minActive _ := uint64Max
  readers _ := 0
  maxActiveEpoch _ _ := 0
  tag _ := 1
  nodes _ := none
  nextNode := 1
  records _ := none
  phase _ := .idle

/-- Workers on one engine. -/
def oneShot (n : Nat) : Machine (Engine n) (Step n) where
  Start state := state = Engine.initial n
  Enabled _ _ := True
  next := Engine.next

/-! ### Reading -/

/-- How the search for a version fails; `reclaimed` is memory that may have been used again. -/
inductive Fault
  | tagVerificationFailed
  | nullVersion
  | reclaimed
  | diverges
deriving DecidableEq

namespace Engine

variable {n : Nat}

/-- `get_readable_ver` -/
def getReadableVer (engine : Engine n) (reader : TxnTs) : Nat → Ptr → Except Fault Node
  | 0, _ => .error .diverges
  | fuel + 1, ptr =>
    if engine.isValid ptr then
      match engine.nodes ptr.node with
      | none => .error .reclaimed
      | some version =>
        if reader.isReadable version.tMin then .ok version
        else getReadableVer engine reader fuel version.next
    else .error .nullVersion

/-- `get_readable_version` -/
def getReadableVersion (engine : Engine n) (reader : TxnTs) (entry : Entry) (fuel : Nat) :
    Except Fault Node :=
  if engine.isValid entry.deltaList then engine.getReadableVer reader fuel entry.deltaList
  else .error .tagVerificationFailed

def Serves (engine : Engine n) : Prop :=
  ∀ worker start, (engine.phase worker).start? = some start →
    ∀ record entry, engine.records record = some entry → entry.inserted < start →
      (TxnTs.ofTicket start).isReadable entry.tMin ∨
        ∃ fuel version, engine.getReadableVersion (TxnTs.ofTicket start) entry fuel = .ok version ∧
          (TxnTs.ofTicket start).isReadable version.tMin

end Engine

end Proteus.Oltp.Gc
