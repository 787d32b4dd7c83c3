/-
**The InfiniBand write protocol** (`platform/lib/network/infiniband/infiniband-handler.cpp`).

One direction of a connection. The receiver grants blocks of `buffnum` of its buffers; the sender
takes them from the front of `pend_buffers`, one for every `write` and `write_silent`, and posts the
payload with an RDMA write. Every call leaves one packet in `cnts`; a flush takes one more buffer,
writes the packets into it and notifies the receiver, whose handler finds that buffer at the
position the immediate value names and replays the packets against the front of `send_buffers`.

### The steps

* The calls of the sender (`write`, `write_silent`, `write_to`, `flush`) hold `write_promises_m`. A
  call that has filled `cnts` goes on to `flush_write`, which may first have to wait for a buffer:
  the lock is then still held (`Sender.flushing`), and `flushWrite` is a step of its own.
* Work requests travel in order. `deliver` performs the remote effect of the first one and queues
  its completion, if it has one; `notify` and `handleRequest` are the poller taking that completion.
* Buffers are asked for by a job of the thread pool, granted by a job of the receiver's pool, which
  first appends them to `send_buffers` and then replies, and arrive at the sender's poller
  (`refill`).

A step is `none` where the program would read through a null or out-of-range pointer or, in a build
with assertions, fail one.
-/

import Proteus.Library.Machine

namespace Proteus.Network

open Library

def packNotifications : Nat := 256

def buffnum : Nat := 8 * packNotifications

/-- `sizeof(packet_t)`. -/
def packetSize : Nat := 16

/-- The address of a registered buffer of the receiver. -/
abbrev Buffer := Nat

/-- `packet_t`: a size, whose sign tells the kind of the call, and a subscription. -/
structure Packet where
  size : BitVec 64
  sub : BitVec 64
deriving DecidableEq, Repr

/-- What a buffer was last filled with. -/
inductive Content where
  | data (bytes : List UInt8)
  | packets (sizes : List Packet)
deriving DecidableEq, Repr

/-- A message of a subscription; `content` is what its buffer holds when it is published. -/
structure Message where
  sub : BitVec 64
  data : Option Buffer
  size : BitVec 64
  content : Option Content
deriving DecidableEq, Repr

/-- `IBV_WR_RDMA_WRITE`, `IBV_WR_RDMA_WRITE_WITH_IMM`, and the `IBV_WR_SEND_WITH_IMM` of
`request_buffers_unsafe`. -/
inductive WorkRequest where
  | rdmaWrite (target : Buffer) (bytes : List UInt8)
  | rdmaWriteWithImm (target : Buffer) (packets : List Packet) (imm : BitVec 32)
  | request
deriving DecidableEq, Repr

inductive Completion where
  | recvRdmaWithImm (byteLen : Nat) (imm : BitVec 32)
  | recvRequest
deriving DecidableEq, Repr

/-- The sending side of an `IBHandler`; `write_cnt` is the length of `cnts`. -/
structure Sender where
  pendBuffers : List Buffer
  hasRequestedBuffers : Bool
  requestJobs : Nat
  cnts : List Packet
  actualWrites : Nat
  flushing : Bool
deriving DecidableEq, Repr

/-- The receiving side; a released entry of `send_buffers` is `none`. -/
structure Receiver where
  memory : Buffer → Option Content
  completions : List Completion
  grantJobs : Nat
  replyJobs : List (List Buffer)
  sendBuffers : List (Option Buffer)
  published : List Message

structure Connection where
  sender : Sender
  requests : List WorkRequest
  receiver : Receiver
  replies : List (List Buffer)

def Connection.initial : Connection where
  sender := ⟨[], false, 0, [], 0, false⟩
  requests := [.request]
  receiver := ⟨fun _ => none, [], 0, [], [], []⟩
  replies := []

/-! ### The sender -/

def Sender.getBuffer (sender : Sender) : Option (Buffer × Sender) :=
  match sender.pendBuffers with
  | [] => none
  | buffer :: rest =>
    if sender.pendBuffers.length = buffnum / 5 ∧ sender.hasRequestedBuffers = false then
      some (buffer, { sender with
        pendBuffers := rest, hasRequestedBuffers := true, requestJobs := sender.requestJobs + 1 })
    else some (buffer, { sender with pendBuffers := rest })

namespace Connection

/-- `sge.length` is the low half of `bytes`. -/
def transferred (data : List UInt8) (bytes : BitVec 64) : List UInt8 :=
  data.take (bytes.setWidth 32).toNat

def LengthOk (ndebug : Bool) (bytes : BitVec 64) : Prop :=
  ndebug = false → bytes.toNat < 2 ^ 32

instance (ndebug : Bool) (bytes : BitVec 64) : Decidable (LengthOk ndebug bytes) := by
  unfold LengthOk; infer_instance

def writeToInt (ndebug : Bool) (connection : Connection) (data : List UInt8) (bytes : BitVec 64)
    (target : Buffer) : Option Connection :=
  if LengthOk ndebug bytes then
    some { connection with
      sender := { connection.sender with
        flushing := connection.sender.cnts.length % packNotifications = 0 }
      requests := connection.requests ++ [.rdmaWrite target (transferred data bytes)] }
  else none

def write (ndebug : Bool) (connection : Connection) (data : List UInt8) (bytes sub : BitVec 64) :
    Option Connection := do
  let (buffer, sender) ← connection.sender.getBuffer
  let sender := { sender with
    cnts := sender.cnts ++ [⟨bytes, sub⟩], actualWrites := sender.actualWrites + 1 }
  writeToInt ndebug { connection with sender } data bytes buffer

def writeSilent (ndebug : Bool) (connection : Connection) (data : List UInt8) (bytes : BitVec 64) :
    Option Connection := do
  let (buffer, sender) ← connection.sender.getBuffer
  let sender := { sender with
    cnts := sender.cnts ++ [⟨-1, 0⟩], actualWrites := sender.actualWrites + 1 }
  writeToInt ndebug { connection with sender } data bytes buffer

def writeTo (ndebug : Bool) (connection : Connection) (data : List UInt8) (bytes : BitVec 64)
    (target : Buffer) : Option Connection :=
  let sender := { connection.sender with cnts := connection.sender.cnts ++ [⟨-bytes, 0⟩] }
  writeToInt ndebug { connection with sender } data bytes target

def flush (connection : Connection) : Connection :=
  { connection with sender := { connection.sender with flushing := connection.sender.cnts ≠ [] } }

/-- The rest of `flush_write`. -/
def flushWrite (connection : Connection) : Option Connection := do
  let (buffer, sender) ← connection.sender.getBuffer
  some { connection with
    sender := { sender with cnts := [], actualWrites := 0, flushing := false }
    requests := connection.requests ++
      [.rdmaWriteWithImm buffer sender.cnts (BitVec.ofNat 32 sender.actualWrites)] }

/-- The thread-pool job runs `request_buffers_unsafe`. -/
def postRequest (connection : Connection) : Connection :=
  { connection with
    sender := { connection.sender with requestJobs := connection.sender.requestJobs - 1 }
    requests := connection.requests ++ [.request] }

/-- The receive completion with immediate value 2. -/
def refill (connection : Connection) : Option Connection :=
  match connection.replies with
  | [] => none
  | buffers :: rest => some { connection with
      sender := { connection.sender with
        pendBuffers := connection.sender.pendBuffers ++ buffers, hasRequestedBuffers := false }
      replies := rest }

end Connection

/-! ### The receiver -/

def WorkRequest.store (memory : Buffer → Option Content) : WorkRequest → Buffer → Option Content
  | .rdmaWrite target bytes => Function.update memory target (some (.data bytes))
  | .rdmaWriteWithImm target packets _ => Function.update memory target (some (.packets packets))
  | .request => memory

def WorkRequest.completion : WorkRequest → List Completion
  | .rdmaWrite _ _ => []
  | .rdmaWriteWithImm _ packets imm => [.recvRdmaWithImm (packets.length * packetSize) imm]
  | .request => [.recvRequest]

namespace Receiver

def publishEach (memory : Buffer → Option Content) :
    List Packet → List (Option Buffer) → Option (List Message × List (Option Buffer))
  | [], buffers => some ([], buffers)
  | packet :: packets, buffers =>
    match buffers with
    | [] => none
    | front :: rest =>
      if packet.size = -1 then publishEach memory packets rest
      else if 0 ≤ packet.size.toInt then
        (publishEach memory packets rest).map fun (messages, left) =>
          (⟨packet.sub, front, packet.size, front.bind memory⟩ :: messages, left)
      else
        (publishEach memory packets (front :: rest)).map fun (messages, left) =>
          (⟨0, none, -packet.size, none⟩ :: messages, left)

def readPackets (memory : Buffer → Option Content) (buffer : Buffer) (count : Nat) :
    Option (List Packet) :=
  match memory buffer with
  | some (.packets sizes) => if count ≤ sizes.length then some (sizes.take count) else none
  | _ => none

def handleRdmaWithImm (ndebug : Bool) (receiver : Receiver) (byteLen : Nat) (imm : BitVec 32) :
    Option Receiver := do
  let sizes ← receiver.sendBuffers[imm.toNat]?.join
  let packets ← readPackets receiver.memory sizes (byteLen / packetSize)
  let (messages, left) ←
    publishEach receiver.memory packets (receiver.sendBuffers.set imm.toNat none)
  match left with
  | [] => none
  | front :: rest =>
    if ndebug = false ∧ front ≠ some sizes ∧ front ≠ none then none
    else some { receiver with sendBuffers := rest, published := receiver.published ++ messages }

end Receiver

namespace Connection

def deliver (connection : Connection) : Option Connection :=
  match connection.requests with
  | [] => none
  | head :: rest => some { connection with
      requests := rest
      receiver := { connection.receiver with
        memory := head.store connection.receiver.memory
        completions := connection.receiver.completions ++ head.completion } }

def handleRequest (connection : Connection) : Option Connection :=
  match connection.receiver.completions with
  | .recvRequest :: rest => some { connection with
      receiver := { connection.receiver with
        completions := rest, grantJobs := connection.receiver.grantJobs + 1 } }
  | _ => none

def grant (connection : Connection) (buffers : List Buffer) : Connection :=
  { connection with
    receiver := { connection.receiver with
      grantJobs := connection.receiver.grantJobs - 1
      sendBuffers := connection.receiver.sendBuffers ++ buffers.map some
      replyJobs := connection.receiver.replyJobs ++ [buffers] } }

/-- One of the jobs sends its list to the sender. -/
def reply (connection : Connection) (job : Nat) : Option Connection :=
  match connection.receiver.replyJobs[job]? with
  | none => none
  | some buffers => some { connection with
      receiver := { connection.receiver with
        replyJobs := connection.receiver.replyJobs.eraseIdx job }
      replies := connection.replies ++ [buffers] }

/-- The poller takes a notification. -/
def notify (ndebug : Bool) (connection : Connection) : Option Connection :=
  match connection.receiver.completions with
  | .recvRdmaWithImm byteLen imm :: rest =>
    (Receiver.handleRdmaWithImm ndebug { connection.receiver with completions := rest } byteLen
      imm).map
      fun receiver => { connection with receiver }
  | _ => none

end Connection

/-! ### The machine -/

inductive Action where
  | write (data : List UInt8) (bytes sub : BitVec 64)
  | writeSilent (data : List UInt8) (bytes : BitVec 64)
  | writeTo (data : List UInt8) (bytes : BitVec 64) (target : Buffer)
  | flush
  | flushWrite
  | postRequest
  | deliver
  | handleRequest
  | grant (buffers : List Buffer)
  | reply (job : Nat)
  | refill
  | notify

def Connection.Enabled (connection : Connection) : Action → Prop
  | .write _ _ _ => connection.sender.flushing = false ∧ connection.sender.pendBuffers ≠ []
  | .writeSilent _ _ => connection.sender.flushing = false ∧ connection.sender.pendBuffers ≠ []
  | .writeTo _ _ _ => connection.sender.flushing = false
  | .flush => connection.sender.flushing = false
  | .flushWrite => connection.sender.flushing = true ∧ connection.sender.pendBuffers ≠ []
  | .postRequest => 0 < connection.sender.requestJobs
  | .deliver => connection.requests ≠ []
  | .handleRequest => connection.receiver.completions.head? = some .recvRequest
  | .grant buffers => 0 < connection.receiver.grantJobs ∧ buffers.length = buffnum ∧ buffers.Nodup ∧
      ∀ buffer ∈ buffers, some buffer ∉ connection.receiver.sendBuffers
  | .reply job => job < connection.receiver.replyJobs.length
  | .refill => connection.replies ≠ []
  | .notify => ∃ byteLen imm, connection.receiver.completions.head? = some
      (.recvRdmaWithImm byteLen imm)

def Connection.next (ndebug : Bool) (connection : Connection) : Action → Option Connection
  | .write data bytes sub => connection.write ndebug data bytes sub
  | .writeSilent data bytes => connection.writeSilent ndebug data bytes
  | .writeTo data bytes target => connection.writeTo ndebug data bytes target
  | .flush => some connection.flush
  | .flushWrite => connection.flushWrite
  | .postRequest => some connection.postRequest
  | .deliver => connection.deliver
  | .handleRequest => connection.handleRequest
  | .grant buffers => some (connection.grant buffers)
  | .reply job => connection.reply job
  | .refill => connection.refill
  | .notify => connection.notify ndebug

end Proteus.Network
