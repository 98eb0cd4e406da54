/- # KuttiDB.Server.Wire -- the requests of one connection

`conn_process` over the bytes a connection has received, and `on_readable`, which receives them. A
request is framed by its header `[op][key length:2][value length:4]`; the items of a batch have
headers of their own, and the connection remembers between calls how far into a batch it is.

What the engines answer is a parameter: `Engine` gives the result of an operation after those
performed before it, and the sequence of operations performed is kept. Reading the clock is such an
operation. The cache requests, the single-flight requests and `QUEUE_PUBLISH_BATCH` are modelled
operation by operation; a frame of the job, atomic, stream, exchange and queue families is handed
over whole (`Call.request`), since its handler reads nothing but the frame and appends one reply.

Output is drained: a flush sends all that is pending. Allocation succeeds.
-/
import KuttiDB.Server.KuttiVec

namespace KuttiDB.Wire

open KuttiDB.QueueStore (Bytes)
open KuttiDB.Theory

set_option autoImplicit false

/-! ## Operations of the engines -/

/-- What the cache has for a key. `failed` is a negative return code. -/
inductive Got where
  | hit (value : Bytes)
  | missed
  | failed
  deriving DecidableEq, Repr

/-- What `sf_resolve_or_register` does with a wait. `settled`: no live lease and no negative answer,
so the cache is asked. -/
inductive Resolved where
  | refused
  | negative
  | settled
  | deferred
  deriving DecidableEq, Repr

inductive Call where
  | put (key value : Bytes) (ttlMs : Nat) (batch : Bool)
  | batchCommit
  | get (key : Bytes) (now : Nat)
  | delete (key : Bytes)
  | time
  | negativeCheck (key : Bytes)
  | negativeRecord (key : Bytes) (ttlMs : Nat)
  | claimGetOrCreate (key : Bytes) (leaseMs : Nat)
  | claimRemove (key : Bytes)
  | anyWaiters
  | wakeWaiters (key : Bytes) (state : UInt8)
  | waitRegistered
  | resolveOrRegister (key : Bytes) (timeoutMs : Nat)
  | anyStale
  | staleStore (key value : Bytes) (ttlMs staleMs refreshMs : Nat)
  | staleServe (key : Bytes)
  | refreshDue (key : Bytes)
  | persistenceFailed
  | jobsWritable
  | serverInfo
  | stats
  | publishBatch (queue : Bytes) (messages : List Bytes)
  | request (op : Nat) (key value : Bytes)
  deriving DecidableEq, Repr

abbrev Call.Result : Call → Type
  | .put .. => Int
  | .batchCommit => Int
  | .get .. => Got
  | .delete _ => Int
  | .time => Nat
  | .negativeCheck _ => Bool
  | .negativeRecord .. => Unit
  | .claimGetOrCreate .. => Int
  | .claimRemove _ => Unit
  | .anyWaiters => Bool
  | .wakeWaiters .. => Unit
  | .waitRegistered => Bool
  | .resolveOrRegister .. => Resolved
  | .anyStale => Bool
  | .staleStore .. => Unit
  | .staleServe _ => Option Bytes
  | .refreshDue _ => Bool
  | .persistenceFailed => Bool
  | .jobsWritable => Bool
  | .serverInfo => Option Bytes
  | .stats => Bytes
  | .publishBatch .. => Option (Nat → Nat)
  | .request .. => Bytes

/-- The result of an operation, given those performed before it on the connection. -/
abbrev Engine := List Call → (c : Call) → c.Result

abbrev Asks := StateM (List Call)

def Engine.ask (engine : Engine) (c : Call) : Asks c.Result := fun calls =>
  (engine calls c, calls ++ [c])

theorem ask_bind {α : Type} (engine : Engine) (c : Call) (rest : c.Result → Asks α)
    (calls : List Call) :
    (engine.ask c >>= rest) calls = rest (engine calls c) (calls ++ [c]) := rfl

/-! ## Settings and the state between calls -/

structure Settings where
  maxVal : Nat
  maxBatchBytes : Nat
  token : Bytes

def maxBatch : Nat := 65536
def authMax : Nat := 1024
def streamNameMax : Nat := 255
def protoBatchMax : Nat := 256
def leaseMaxMs : Nat := 60000
def waitMaxMs : Nat := 60000
def staleWindowMaxMs : Nat := 7 * 24 * 3600 * 1000
def outFlushLimit : Nat := 2 ^ 20

/-- Subtraction of 64-bit unsigned numbers. -/
def sub64 (a b : Nat) : Nat := (a + 2 ^ 64 - b) % 2 ^ 64

/-- `batch_op`: none, 0x11, 0x13 or 0x12. -/
inductive BatchOp where
  | none
  | puts (withTtl : Bool)
  | gets
  deriving DecidableEq, Repr

/-- `stage` is true once the header of the current item has been read. -/
structure Conn where
  authenticated : Bool
  batchOp : BatchOp := .none
  batchLeft : Nat := 0
  batchErr : Bool := false
  stage : Bool := false
  curKlen : Nat := 0
  curVlen : Nat := 0
  curTtl : Nat := 0
  batchNow : Nat := 0
  batchBytes : Nat := 0
  batchOutBytes : Nat := 0
  deriving DecidableEq, Repr

/-! ## Headers and gates -/

/-- `width` bytes at an offset, as a number. -/
def field (bytes : Bytes) (offset width : Nat) : Nat := leNat ((bytes.drop offset).take width)

structure Header where
  op : Nat
  klen : Nat
  vlen : Nat

def Header.ofBytes (head : Bytes) : Header := ⟨field head 0 1, field head 1 2, field head 3 4⟩

/-- What the header alone decides: the connection is closed, after a status if one is given, or the
request is handled once `need` bytes are there. -/
inductive Gate where
  | refuse (status : Option UInt8)
  | body (need : Nat)
  deriving DecidableEq, Repr

/-- A request whose key and value follow its header. -/
def framed (h : Header) (refused : Bool) : Gate :=
  if refused then .refuse .none else .body (7 + h.klen + h.vlen)

def isList (op : Nat) : Bool := op = 0x69 || op = 0x6a || op = 0x2c

/-- The checks of `conn_process` on a request's header, in the order it makes them. -/
def requestGate (set : Settings) (authenticated : Bool) (h : Header) : Gate :=
  let long : Bool := set.maxVal < h.vlen
  let keyless : Bool := h.klen = 0
  if !authenticated then
    if h.op ≠ 0x06 ∨ h.vlen ≠ 0 ∨ h.klen = 0 ∨ authMax < h.klen then .refuse (some 0x02)
    else .body (7 + h.klen)
  else if h.op = 0x06 then .refuse (some 0x02)
  else if 0x50 ≤ h.op ∧ h.op ≤ 0x54 then framed h (long || keyless)
  else if 0x70 ≤ h.op ∧ h.op ≤ 0x77 then framed h long
  else if 0x40 ≤ h.op ∧ h.op ≤ 0x43 then framed h (long || keyless)
  else if h.op = 0x69 ∨ h.op = 0x6a then .body 7
  else if 0x60 ≤ h.op ∧ h.op ≤ 0x6d then
    framed h (keyless || streamNameMax < h.klen ||
      (if h.op = 0x67 then set.maxBatchBytes else set.maxVal) < h.vlen)
  else if 0x30 ≤ h.op ∧ h.op ≤ 0x33 then
    framed h (if h.op = 0x33 then h.vlen < 10 || set.maxVal < h.vlen - 10 else long)
  else if h.op = 0x2c then .body 7
  else if 0x20 ≤ h.op ∧ h.op ≤ 0x2f then
    framed h (keyless || if h.op = 0x25 then h.vlen < 8 || set.maxVal < h.vlen - 8 else long)
  else if h.op = 0x11 ∨ h.op = 0x12 ∨ h.op = 0x13 then
    if h.klen ≠ 0 ∨ maxBatch < h.vlen then .refuse .none else .body 7
  else if h.op = 0x05 then if long then .refuse .none else .body (11 + h.klen + h.vlen)
  else if h.op = 0x0b then if long then .refuse .none else .body (19 + h.klen + h.vlen)
  else if ¬ (h.op = 0x01 ∨ h.op = 0x02 ∨ h.op = 0x03 ∨ h.op = 0x04 ∨ h.op = 0x09 ∨ h.op = 0x0a ∨
      h.op = 0x0c) then .refuse (some 0x02)
  else if long || ((h.op = 0x02 || h.op = 0x03) && h.vlen ≠ 0) ||
      ((h.op = 0x04 || h.op = 0x09 || h.op = 0x0c) && (h.klen ≠ 0 || h.vlen ≠ 0)) ||
      (h.op = 0x0a && (h.klen ≠ 0 || h.vlen ≠ 4)) then .refuse .none
  else .body (7 + h.klen + if h.op = 0x01 ∨ h.op = 0x0a then h.vlen else 0)

/-- How many bytes are looked at before anything is decided. -/
def Conn.headerBytes (c : Conn) : Nat :=
  match c.batchOp with
  | .none => 7
  | .puts withTtl => if c.stage then c.curKlen + c.curVlen else if withTtl then 10 else 6
  | .gets => if c.stage then c.curKlen else 2

/-- The size of a batch item, its header included. -/
def Conn.itemBytes (c : Conn) (head : Bytes) : Nat :=
  match c.batchOp with
  | .none => 0
  | .puts _ => c.headerBytes + field head 0 2 + field head 2 4
  | .gets => field head 0 2 + 2

def Conn.gate (set : Settings) (c : Conn) (head : Bytes) : Gate :=
  match c.batchOp with
  | .none => requestGate set c.authenticated (.ofBytes head)
  | .puts _ =>
      if c.stage then .body c.headerBytes
      else if set.maxVal < field head 2 4 ∨
          sub64 set.maxBatchBytes c.batchBytes < c.itemBytes head then .refuse .none
      else .body c.headerBytes
  | .gets =>
      if c.stage then .body c.headerBytes
      else if sub64 set.maxBatchBytes c.batchBytes < c.itemBytes head then .refuse .none
      else .body c.headerBytes

/-! ## Handlers

A handler sees the whole frame, `need` bytes and no more. -/

def respStatus (status : UInt8) : Piece := .whole (status :: leBytes 4 0)

def stateClaimed : UInt8 := 0x01
def stateWait : UInt8 := 0x02
def stateNegative : UInt8 := 0x03
def stateReleased : UInt8 := 0x04
def stateStale : UInt8 := 0x07

/-- A single-flight answer without a value. -/
def envelope (state : UInt8) : Piece := .whole (0x00 :: leBytes 4 1 ++ [state])

/-- A reply `[OK][length:4][body]`. -/
def respBody (body : Bytes) : Piece := .whole (0x00 :: leBytes 4 body.length ++ body)

section Handlers

variable (engine : Engine)

def respGetAt (key : Bytes) (now : Nat) : Asks Piece := do
  match (← engine.ask (.get key now) : Got) with
  | .hit value => return .headed 0x00 [] value
  | .missed => return .headed 0x01 [] []
  | .failed => return .headed 0x02 [] []

def getOrClaim (key arg : Bytes) : Asks Piece := do
  if arg.length ≠ 4 ∨ leaseMaxMs < leNat arg then return respStatus 0x02
  let negative : Bool ← engine.ask (.negativeCheck key)
  if negative then return envelope stateNegative
  match (← engine.ask (.get key 0) : Got) with
  | .hit value => return .headed 0x00 [stateValue] value
  | _ =>
      let lease := if leNat arg = 0 then leaseMaxMs else leNat arg
      let created : Int ← engine.ask (.claimGetOrCreate key lease)
      return envelope (if created = 1 then stateClaimed else stateWait)

/-- A deferred wait is answered by a later wake, so nothing is appended for it here. -/
def waitForKey (key arg : Bytes) : Asks (List Piece) := do
  if arg.length ≠ 4 then return [respStatus 0x02]
  let waiting : Bool ← engine.ask .waitRegistered
  if waiting then return [respStatus 0x02]
  if leNat arg = 0 ∨ waitMaxMs < leNat arg then return [respStatus 0x02]
  match (← engine.ask (.resolveOrRegister key (leNat arg)) : Resolved) with
  | .refused => return [respStatus 0x02]
  | .negative => return [envelope stateNegative]
  | .deferred => return []
  | .settled =>
      match (← engine.ask (.get key 0) : Got) with
      | .hit value => return [.headed 0x00 [stateValue] value]
      | _ => return [envelope stateReleased]

def wake (key : Bytes) (state : UInt8) : Asks Unit := do
  let waiters : Bool ← engine.ask .anyWaiters
  if waiters then engine.ask (.wakeWaiters key state)

def putAndRelease (key arg : Bytes) : Asks Piece := do
  if arg.length < 5 ∨ 1 < field arg 4 1 then return respStatus 0x02
  let ttl := field arg 0 4
  if field arg 4 1 = 1 then
    let _ : Unit ← engine.ask (.negativeRecord key ttl)
    let _ : Unit ← engine.ask (.claimRemove key)
    wake engine key stateNegative
    return respStatus 0x00
  let rc : Int ← engine.ask (.put key (arg.drop 5) ttl false)
  if rc ≠ 0 then return respStatus 0x02
  let _ : Unit ← engine.ask (.claimRemove key)
  wake engine key stateValue
  return respStatus 0x00

def releaseClaim (key arg : Bytes) : Asks Piece := do
  if arg ≠ [] then return respStatus 0x02
  let _ : Unit ← engine.ask (.claimRemove key)
  wake engine key stateReleased
  return respStatus 0x00

/-- A fresh value is answered through the early pointer, and a caller may get the lease to reload
it ahead of its expiry. -/
def refreshHit (key : Bytes) (lease : Nat) (value : Bytes) : Asks Reply := do
  let held : Bool ← engine.ask .anyStale
  let due : Bool ← if held then engine.ask (.refreshDue key) else pure false
  if due then
    let created : Int ← engine.ask (.claimGetOrCreate key lease)
    return .refreshed true (created = 1) value
  return .refreshed false false value

/-- The header begun for a value is given up: its bytes are all overwritten by what is answered
instead, a retained stale copy or a state. -/
def refreshMiss (key : Bytes) (lease : Nat) (negative : Bool) : Asks Piece := do
  let held : Bool ← if negative then pure false else engine.ask .anyStale
  let served : Option Bytes ← if held then engine.ask (.staleServe key) else pure none
  let created : Int ← engine.ask (.claimGetOrCreate key lease)
  match served with
  | some value => return .headed 0x00 [stateStale, if created = 1 then 1 else 0] value
  | none =>
      let state := if negative then stateNegative
        else if created = 1 then stateClaimed else stateWait
      return .whole (0x00 :: leBytes 4 2 ++ [state, 0])

def getOrRefresh (key arg : Bytes) : Asks Reply := do
  if arg.length ≠ 4 ∨ leaseMaxMs < leNat arg then return .piece (respStatus 0x02)
  let lease := if leNat arg = 0 then leaseMaxMs else leNat arg
  let negative : Bool ← engine.ask (.negativeCheck key)
  if negative then return .piece (← refreshMiss engine key lease true)
  match (← engine.ask (.get key 0) : Got) with
  | .hit value => refreshHit engine key lease value
  | _ => return .piece (← refreshMiss engine key lease false)

/-- `count` messages `[length:4][message]` and nothing behind them. -/
def splitMessages : Nat → Bytes → Option (List Bytes)
  | 0, rest => if rest = [] then some [] else none
  | count + 1, rest =>
      if rest.length < 4 then none
      else if rest.length - 4 < field rest 0 4 then none
      else
        let body := rest.drop 4
        let size := field rest 0 4
        (splitMessages count (body.drop size)).map (body.take size :: ·)

/-- How many messages a `QUEUE_PUBLISH_BATCH` announces; 0 when it announces none. -/
def batchCount (arg : Bytes) : Nat := if 4 ≤ arg.length then field arg 0 4 else 0

def queuePublishBatch (queue arg : Bytes) : Asks Reply := do
  let count := batchCount arg
  if count < 1 ∨ protoBatchMax < count then return .piece (respStatus 0x02)
  match splitMessages count (arg.drop 4) with
  | none => return .piece (respStatus 0x02)
  | some messages =>
      match (← engine.ask (.publishBatch queue messages) : Option (Nat → Nat)) with
      | none => return .piece (respStatus 0x02)
      | some ids => return .published ((List.range count).map ids)

def putSwr (arg key value : Bytes) : Asks Piece := do
  let ttl := field arg 0 4
  let stale := field arg 4 4
  let refresh := field arg 8 4
  if ttl = 0 ∨ stale = 0 ∨ staleWindowMaxMs < stale ∨ staleWindowMaxMs < refresh then
    return respStatus 0x02
  let rc : Int ← engine.ask (.put key value ttl false)
  if rc ≠ 0 then return respStatus 0x02
  let _ : Unit ← engine.ask (.staleStore key value ttl stale refresh)
  return respStatus 0x00

def put (key value : Bytes) (ttlMs : Nat) : Asks Piece := do
  let rc : Int ← engine.ask (.put key value ttlMs false)
  return respStatus (if rc = 0 then 0x00 else 0x02)

def delete (key : Bytes) : Asks Piece := do
  let found : Int ← engine.ask (.delete key)
  return respStatus (if found < 0 then 0x02 else if found = 0 then 0x01 else 0x00)

/-- Every capability bit but that of the job engine. -/
def capabilityBits : Nat := 2 ^ 16 - 1 + 2 ^ 17

def capabilities (value : Bytes) : Asks Piece := do
  if field value 0 2 ≠ 1 then return respStatus 0x01
  let jobs : Bool ← engine.ask .jobsWritable
  let bits := capabilityBits + if jobs then 2 ^ 16 else 0
  return respBody (leBytes 2 1 ++ leBytes 2 9 ++ leBytes 8 bits)

/-- Requests that neither start a batch nor lay their reply down in a way of their own. -/
def plainRequest (h : Header) (frame : Bytes) : Asks (List Piece) := do
  let key := (frame.drop 7).take h.klen
  let value := frame.drop (7 + h.klen)
  if h.op = 0x50 then return [← getOrClaim engine key value]
  if h.op = 0x51 then waitForKey engine key value
  else if h.op = 0x52 then return [← putAndRelease engine key value]
  else if h.op = 0x53 then return [← releaseClaim engine key value]
  else if isList h.op then
    if h.klen ≠ 0 ∨ h.vlen ≠ 0 then return [respStatus 0x02]
    let reply : Bytes ← engine.ask (.request h.op [] [])
    return [.whole reply]
  else if 0x20 ≤ h.op then
    let reply : Bytes ← engine.ask (.request h.op key value)
    return [.whole reply]
  else if h.op = 0x05 then
    return [← put engine ((frame.drop 11).take h.klen) (frame.drop (11 + h.klen)) (field frame 7 4)]
  else if h.op = 0x0b then
    return [← putSwr engine (frame.drop 7) ((frame.drop 19).take h.klen)
      (frame.drop (19 + h.klen))]
  else if h.op = 0x01 then return [← put engine key value 0]
  else if h.op = 0x02 then return [← respGetAt engine key 0]
  else if h.op = 0x03 then return [← delete engine key]
  else if h.op = 0x09 then
    let failed : Bool ← engine.ask .persistenceFailed
    return [respStatus (if failed then 0x02 else 0x00)]
  else if h.op = 0x0a then return [← capabilities engine value]
  else if h.op = 0x0c then
    match (← engine.ask .serverInfo : Option Bytes) with
    | none => return [respStatus 0x01]
    | some info => return [respBody info]
  else
    let text : Bytes ← engine.ask .stats
    return [respBody text]

/-- What a step of `conn_process` leaves: `used` bytes consumed, replies to lay down, and whether
the connection is to be closed. -/
structure Effect where
  conn : Conn
  replies : List Reply
  eof : Bool := false
  used : Nat

/-- `[op][0:2][count:4]` starts a batch; an empty one is answered at once. -/
def startBatch (c : Conn) (h : Header) : Asks Effect := do
  let now : Nat ← if h.op = 0x12 then engine.ask .time else pure 0
  let op : BatchOp := if h.op = 0x12 then .gets else .puts (h.op = 0x13)
  let begun := { c with
    batchOp := if h.vlen = 0 then .none else op
    batchLeft := h.vlen
    batchErr := false
    batchBytes := 0
    batchOutBytes := if h.op = 0x12 then 4 else 0
    batchNow := now
    stage := false }
  let reply : List Piece :=
    if h.op = 0x12 then [.whole (leBytes 4 h.vlen)]
    else if h.vlen = 0 then [.whole [0x00]] else []
  return { conn := begun, replies := reply.map .piece, used := 7 }

/-- A complete request outside a batch. -/
def handleRequest (set : Settings) (c : Conn) (frame : Bytes) : Asks Effect := do
  let h := Header.ofBytes frame
  let key := (frame.drop 7).take h.klen
  let value := frame.drop (7 + h.klen)
  if !c.authenticated then
    let known : Bool := key = set.token
    return { conn := { c with authenticated := known },
             replies := [.piece (respStatus (if known then 0x00 else 0x02))],
             eof := !known, used := frame.length }
  else if h.op = 0x11 ∨ h.op = 0x12 ∨ h.op = 0x13 then startBatch engine c h
  else if h.op = 0x54 then
    return { conn := c, replies := [← getOrRefresh engine key value], used := frame.length }
  else if h.op = 0x2d then
    return { conn := c, replies := [← queuePublishBatch engine key value], used := frame.length }
  else
    let pieces ← plainRequest engine h frame
    return { conn := c, replies := pieces.map .piece, used := frame.length }

/-- The next part of a `PUT_BATCH`: the header of an item, or its key and value. -/
def handlePut (withTtl : Bool) (c : Conn) (frame : Bytes) : Asks Effect := do
  if !c.stage then
    return { conn := { c with
               curKlen := field frame 0 2
               curVlen := field frame 2 4
               curTtl := if withTtl then field frame 6 4 else 0
               batchBytes := c.batchBytes + c.itemBytes frame
               stage := true },
             replies := [], used := frame.length }
  let ttl := if withTtl then c.curTtl else 0
  let rc : Int ← engine.ask (.put (frame.take c.curKlen) (frame.drop c.curKlen) ttl true)
  let err : Bool := c.batchErr || rc ≠ 0
  let after := { c with batchLeft := c.batchLeft - 1, batchErr := err, stage := false }
  if after.batchLeft ≠ 0 then return { conn := after, replies := [], used := frame.length }
  let committed : Int ← engine.ask .batchCommit
  let err : Bool := err || committed < 0
  return { conn := { after with batchErr := err, batchOp := .none },
           replies := [.piece (.whole [if err then 0x02 else 0x00])], used := frame.length }

/-- The next part of a `GET_BATCH`. An answer that overruns the limit has been appended when the
connection is closed for it; `added` is what it added to the output. -/
def handleGet (set : Settings) (c : Conn) (frame : Bytes) : Asks Effect := do
  if !c.stage then
    return { conn := { c with
               curKlen := field frame 0 2
               batchBytes := c.batchBytes + c.itemBytes frame
               stage := true },
             replies := [], used := frame.length }
  let piece ← respGetAt engine frame c.batchNow
  let added := piece.bytes.length
  if sub64 set.maxBatchBytes c.batchOutBytes < added then
    return { conn := c, replies := [.piece piece], eof := true, used := 0 }
  let left := c.batchLeft - 1
  return { conn := { c with
             batchOutBytes := c.batchOutBytes + added
             batchLeft := left
             stage := false
             batchOp := if left = 0 then .none else .gets },
           replies := [.piece piece], used := frame.length }

def Conn.handle (set : Settings) (c : Conn) (frame : Bytes) : Asks Effect :=
  match c.batchOp with
  | .none => handleRequest engine set c frame
  | .puts withTtl => handlePut engine withTtl c frame
  | .gets => handleGet engine set c frame

end Handlers

/-- One round of the loop of `conn_process`, on the unconsumed bytes; `none` when it breaks to wait
for more. -/
def Conn.step (set : Settings) (engine : Engine) (c : Conn) (calls : List Call) (base : Bytes) :
    Option (Effect × List Call) :=
  if base.length < c.headerBytes then none
  else
    match c.gate set (base.take c.headerBytes) with
    | .refuse status =>
        some ({ conn := c, replies := status.toList.map fun s => .piece (respStatus s),
                eof := true, used := 0 }, calls)
    | .body need =>
        if base.length < need then none
        else some (c.handle engine set (base.take need) calls)

/-! ## The connection with its buffers -/

/-- `inPos` bytes of `input` are consumed. `sent` is what flushes have sent. `compacted` counts the
consumed bytes that are no longer in `input`; it is not in the source. -/
structure Link where
  conn : Conn
  calls : List Call := []
  input : Bytes := []
  inPos : Nat := 0
  compacted : Nat := 0
  out : KuttiVec := .empty
  sent : Bytes := []
  eof : Bool := false

structure Server where
  set : Settings
  engine : Engine
  alloc : Allocator

def Link.unread (l : Link) : Bytes := l.input.drop l.inPos

/-- `flush_out` with a peer that takes everything. -/
def Link.flushOut (l : Link) : Link :=
  { l with
    sent := l.sent ++ l.out.contents
    out := KuttiVec.shrinkIdle { l.out with len := 0 } (256 * 2 ^ 10) }

def Link.flushFull (l : Link) : Link := if outFlushLimit ≤ l.out.len then l.flushOut else l

def Link.apply (alloc : Allocator) (l : Link) (effect : Effect) (calls : List Call) : Link :=
  { l with
    conn := effect.conn
    calls := calls
    out := effect.replies.foldl (KuttiVec.lay alloc) l.out
    inPos := l.inPos + effect.used
    eof := effect.eof }

def Link.loop (s : Server) : Nat → Link → Link
  | 0, l => l
  | fuel + 1, l =>
      let l := l.flushFull
      match l.conn.step s.set s.engine l.calls l.unread with
      | none => l
      | some (effect, calls) =>
          let next := l.apply s.alloc effect calls
          if next.eof then next else next.loop s fuel

def Link.compact (l : Link) : Link :=
  if l.inPos = l.input.length then
    { l with input := [], inPos := 0, compacted := l.compacted + l.inPos }
  else if l.inPos ≠ 0 then
    { l with input := l.input.drop l.inPos, inPos := 0, compacted := l.compacted + l.inPos }
  else l

/-- Every round but a closing one consumes a byte or ends the current item, so twice the bytes and
two more rounds are enough. -/
def Link.connProcess (s : Server) (l : Link) : Link :=
  let l := ((l.loop s (2 * l.unread.length + 2)).compact).flushFull
  if s.set.maxBatchBytes + s.set.maxVal + outFlushLimit < l.out.len then { l with eof := true }
  else l

def Link.hold (l : Link) (chunk : Bytes) : Link := { l with input := l.input ++ chunk }

/-- A `recv` that returned `chunk`. -/
def Link.receive (s : Server) (l : Link) (chunk : Bytes) : Link :=
  if l.eof then l else (l.hold chunk).connProcess s

/-- One readable event: receives until there is nothing more, a last round over what is left, and a
flush. -/
def Link.onReadable (s : Server) (l : Link) (chunks : List Bytes) : Link :=
  let l := chunks.foldl (Link.receive s) l
  let l := if l.input ≠ [] ∧ l.eof = false then l.connProcess s else l
  l.flushOut

/-- The events of a connection until it is closed. -/
def Link.serve (s : Server) (l : Link) (events : List (List Bytes)) : Link :=
  events.foldl (fun l chunks => if l.eof then l else l.onReadable s chunks) l

end KuttiDB.Wire
