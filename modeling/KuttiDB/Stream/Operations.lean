/- # KuttiDB.Stream.Operations -- the calls of the stream store

Each definition is one call of the store, run from its lock to its unlock. `compaction` says how the
compaction check at the start of the call ends; clock readings (`now` the wall clock, `mono` the
monotonic one) and drawn identities are arguments. Return codes are the source's. The wait for the
sync at the end of a call changes nothing here: these are the calls of one thread, and a failed sync
is a failed store.

The calls that only read (`stream_fetch`, `stream_revision`, the snapshots and counters) are left out;
`stream_fetch_metadata` is kept for its retention pass.
-/
import KuttiDB.Stream.Replay

namespace KuttiDB.Stream

open KuttiDB.QueueStore (Bytes u64)
open KuttiDB.Theory

set_option autoImplicit false

/-- The start of a call: a failed store refuses it, and so does a failed compaction. -/
def guarded (s : StreamStore) (compaction : Compaction)
    (call : StreamStore → StreamStore × Int) : StreamStore × Int :=
  if s.failed then (s, -1)
  else match compactMaybeLocked s compaction with
    | (s', false) => (s', -1)
    | (s', true) => call s'

/-- Replaces the topic and then logs records; a failed write keeps the change and reports `-1`. -/
def applyThenLog (s : StreamStore) (t : StreamTopic) (records : List LogRecord) : StreamStore × Int :=
  match logEach { s with topics := setTopic s.topics t } records with
  | (s', true) => (s', 0)
  | (s', false) => (s', -1)

/-- Logs records and then replaces the topic; a failed write leaves it as it was. -/
def logThenApply (s : StreamStore) (records : List LogRecord) (t : StreamTopic) : StreamStore × Int :=
  match logEach s records with
  | (s', true) => ({ s' with topics := setTopic s'.topics t }, 0)
  | (s', false) => (s', -1)

/-! ## Topics -/

def streamDeclare (s : StreamStore) (compaction : Compaction) (fresh : StreamId) (name : Bytes)
    (partitions maxBytes maxAgeMs : Nat) : StreamStore × Int :=
  guarded s compaction fun s =>
    match addTopic s.topics name partitions maxBytes maxAgeMs fresh with
    | none => (s, -1)
    | some added =>
      if (findTopic s.topics name).isSome then (s, 0)
      else match logEach { s with topics := added }
          [.declare name partitions maxBytes maxAgeMs, .identity name fresh] with
        | (s', false) => (s', -1)
        | (s', true) =>
          let t := { newTopic name partitions maxBytes maxAgeMs fresh with idPersisted := true }
          ({ s' with topics := setTopic s'.topics t }, 0)

def trimRecords (name : Bytes) (touched : List (Nat × Nat)) : List LogRecord :=
  touched.map (fun (p, base) => .trim name p base)

/-- `enforce` with `persist` set, as the end of a call on topic `t`. -/
def enforceAndLog (s : StreamStore) (now : Nat) (t : StreamTopic) : StreamStore × Int :=
  applyThenLog s (enforce now t).1 (trimRecords t.name (enforce now t).2)

def streamTruncateIfRevision (s : StreamStore) (compaction : Compaction) (name : Bytes)
    (p base expected : Nat) : StreamStore × Int :=
  guarded s compaction fun s =>
    match findTopic s.topics name with
    | none => (s, 3)
    | some t =>
      if p ≥ t.partitions then (s, 3)
      else if t.revision ≠ expected then (s, 1)
      else if base < (t.part p).base ∨ base > (t.part p).next then (s, 2)
      else logThenApply s [.trim name p base] (trimPart t p base)

def streamSetRetentionIfRevision (s : StreamStore) (compaction : Compaction) (now : Nat)
    (name : Bytes) (maxBytes maxAgeMs expected : Nat) : StreamStore × Int :=
  if name = [] ∨ name.length > streamNameMax then (s, -1)
  else guarded s compaction fun s =>
    match findTopic s.topics name with
    | none => (s, 3)
    | some t =>
      if t.revision ≠ expected then (s, 1)
      else
        let changed :=
          { t with maxBytes := maxBytes, maxAgeMs := maxAgeMs, revision := bump t.revision }
        match logThenApply s [.retention name maxBytes maxAgeMs] changed with
        | (s', 0) => enforceAndLog s' now changed
        | failed => failed

/-- The record is logged before the topic leaves the list. -/
def streamDeleteIfRevision (s : StreamStore) (compaction : Compaction) (name : Bytes)
    (expected : Nat) : StreamStore × Int :=
  if name = [] ∨ name.length > streamNameMax then (s, -1)
  else guarded s compaction fun s =>
    match findTopic s.topics name with
    | none => (s, 3)
    | some t =>
      if t.revision ≠ expected then (s, 1)
      else match logEach s [.delete name] with
        | (s', false) => (s', -1)
        | (s', true) => ({ s' with topics := dropTopic s'.topics name }, 0)

def streamFetchMetadata (s : StreamStore) (now : Nat) (name : Bytes) (p : Nat) : StreamStore × Int :=
  match findTopic s.topics name with
  | none => (s, 3)
  | some t =>
    if p ≥ t.partitions then (s, 3)
    else match enforceAndLog s now t with
      | (s', 0) => (s', 1)
      | failed => failed

/-! ## Appends -/

structure AppendInput where
  key : Bytes
  body : Bytes
  deriving DecidableEq, Repr

/-- FNV-1a, 32 bits. -/
def hashKey (key : Bytes) : Nat :=
  (key.foldl (fun h b => (h ^^^ b.toUInt32) * 16777619) (2166136261 : UInt32)).toNat

/-- The partition of an input: the hint, or the key's hash when the hint is `UINT32_MAX`. -/
def choosePart (t : StreamTopic) (hint : Nat) (key : Bytes) : Nat :=
  if hint = uint32Max then (if key = [] then 0 else hashKey key % t.partitions) else hint

/-- What a record body of one append holds besides the data. -/
def appendOverhead (name key : Bytes) : Nat :=
  26 + name.length + (if key = [] then 0 else 2 + key.length)

def streamAppend (s : StreamStore) (compaction : Compaction) (now enforceNow : Nat) (name : Bytes)
    (hint : Nat) (input : AppendInput) : StreamStore × Int :=
  if input.body.length + appendOverhead name input.key > recordMax then (s, -1)
  else guarded s compaction fun s =>
    match findTopic s.topics name with
    | none => (s, -1)
    | some t =>
      let p := choosePart t hint input.key
      if p ≥ t.partitions then (s, -1)
      else
        let r : StreamRecord := ⟨(t.part p).next, now, input.key, input.body⟩
        match logThenApply s [.append name ⟨p, r⟩] (partLink t p r) with
        | (s', 0) => enforceAndLog s' enforceNow (partLink t p r)
        | failed => failed

/-- Partitions and offsets of a batch; `nexts` holds the next offset of every partition. -/
def batchItems (t : StreamTopic) (hint now : Nat) : List Nat → List AppendInput →
    Option (List BatchItem)
  | _, [] => some []
  | nexts, input :: rest =>
    let p := choosePart t hint input.key
    if p ≥ t.partitions then none
    else
      let off := nexts.getD p 0
      (batchItems t hint now (nexts.set p (bump off)) rest).map
        (fun items => ⟨p, ⟨off, now, input.key, input.body⟩⟩ :: items)

def linkItems (t : StreamTopic) (items : List BatchItem) : StreamTopic :=
  items.foldl (fun t item => partLink t item.part item.record) t

def streamAppendBatch (s : StreamStore) (compaction : Compaction) (now enforceNow : Nat)
    (name : Bytes) (hint : Nat) (inputs : List AppendInput) : StreamStore × Int :=
  if inputs = [] ∨ inputs.length > streamFetchMax then (s, -1)
  else guarded s compaction fun s =>
    match findTopic s.topics name with
    | none => (s, -1)
    | some t =>
      match batchItems t hint now (t.parts.map (·.next)) inputs with
      | none => (s, -1)
      | some items =>
        if (LogRecord.appendBatch name items).len > recordMax then (s, -1)
        else match logThenApply s [.appendBatch name items] (linkItems t items) with
          | (s', 0) => enforceAndLog s' enforceNow (linkItems t items)
          | failed => failed

/-! ## Groups -/

/-- An offset within the retained range of a partition, its end included. -/
def inRange (t : StreamTopic) (p offset : Nat) : Bool :=
  (t.part p).base ≤ offset && offset ≤ (t.part p).next

def StreamGroup.commitAll (g : StreamGroup) (commits : List (Nat × Nat)) : StreamGroup :=
  commits.foldl (fun g c => g.commit c.1 c.2) g

/-- Logs one commit record per entry, then sets the offsets. -/
def commitGroup (s : StreamStore) (t : StreamTopic) (g : StreamGroup) (commits : List (Nat × Nat)) :
    StreamStore × Int :=
  logThenApply s (commits.map (fun c => .commit t.name g.name c.1 c.2))
    (setGroup t (g.commitAll commits))

def streamCommit (s : StreamStore) (compaction : Compaction) (name group : Bytes)
    (p offset : Nat) : StreamStore × Int :=
  if group = [] ∨ group.length > streamGroupMax then (s, -1)
  else guarded s compaction fun s =>
    match findTopic s.topics name with
    | none => (s, -1)
    | some t =>
      if p ≥ t.partitions ∨ !inRange t p offset then (s, -1)
      else
        let (u, g) := ensureGroup t group
        let s' := { s with topics := setTopic s.topics u }
        if offset ≤ g.offsets.getD p 0 then (s', 0) else commitGroup s' u g [(p, offset)]

/-- A call on an existing group, which is reaped and put back before the call goes on. -/
def onGroup (s : StreamStore) (name group : Bytes) (mono : Nat) (missing : Int)
    (call : StreamStore → StreamTopic → StreamGroup → StreamStore × Int) : StreamStore × Int :=
  match findTopic s.topics name with
  | none => (s, missing)
  | some t =>
    match findGroup t group with
    | none => (s, missing)
    | some g =>
      let u := setGroup t (g.reap mono)
      call { s with topics := setTopic s.topics u } u (g.reap mono)

def streamCommitIfGeneration (s : StreamStore) (compaction : Compaction) (mono : Nat)
    (name group : Bytes) (p offset expected : Nat) : StreamStore × Int :=
  if group = [] ∨ group.length > streamGroupMax then (s, -1)
  else guarded s compaction fun s =>
    if (findTopic s.topics name).any (fun t => p ≥ t.partitions) then (s, 3)
    else onGroup s name group mono 3 fun s t g =>
      if g.generation ≠ expected then (s, 1)
      else if !inRange t p offset then (s, 2)
      else commitGroup s t g [(p, offset)]

/-- The first entry that is refused decides the code. -/
def checkCommits (t : StreamTopic) : List (Nat × Nat) → Int
  | [] => 0
  | (p, offset) :: rest =>
    if p ≥ t.partitions then 3 else if !inRange t p offset then 2 else checkCommits t rest

def streamCommitBatchIfGeneration (s : StreamStore) (compaction : Compaction) (mono : Nat)
    (name group : Bytes) (commits : List (Nat × Nat)) (expected : Nat) : StreamStore × Int :=
  if group = [] ∨ group.length > streamGroupMax ∨ commits = [] ∨ commits.length > streamFetchMax then
    (s, -1)
  else guarded s compaction fun s => onGroup s name group mono 3 fun s t g =>
    if g.generation ≠ expected then (s, 1)
    else if checkCommits t commits ≠ 0 then (s, checkCommits t commits)
    else commitGroup s t g commits

inductive ResetStrategy where
  | earliest
  | latest
  | absolute (offset : Nat)
  | relative (delta : Int)
  deriving DecidableEq, Repr

/-- The target of one partition; `none` is a sum or difference out of the 64-bit range. -/
def ResetStrategy.target (t : StreamTopic) (p current : Nat) : ResetStrategy → Option Nat
  | .earliest => some (t.part p).base
  | .latest => some (t.part p).next
  | .absolute offset => some offset
  | .relative delta =>
    if delta < 0 then
      if delta.natAbs > current then none else some (current - delta.natAbs)
    else if delta.natAbs > uint64Max - current then none else some (current + delta.natAbs)

/-- The targets of every partition, if all of them are in range. -/
def resetTargets (t : StreamTopic) (g : StreamGroup) (strategy : ResetStrategy) :
    Option (List (Nat × Nat)) :=
  (List.range t.partitions).mapM fun p =>
    match strategy.target t p (g.offsets.getD p 0) with
    | none => none
    | some value => if inRange t p value then some (p, value) else none

def streamGroupResetOffsetsIfGeneration (s : StreamStore) (compaction : Compaction) (mono : Nat)
    (name group : Bytes) (expected : Nat) (strategy : ResetStrategy) (force : Bool) :
    StreamStore × Int :=
  if group = [] ∨ group.length > streamGroupMax then (s, -1)
  else guarded s compaction fun s => onGroup s name group mono 3 fun s t g =>
    if g.generation ≠ expected then (s, 1)
    else if g.members ≠ [] ∧ !force then (s, 4)
    else match resetTargets t g strategy with
      | none => (s, 2)
      | some targets => commitGroup s t g targets

/-- No range check on the offset. -/
def streamCommitForOwner (s : StreamStore) (compaction : Compaction) (mono : Nat)
    (name group : Bytes) (p offset owner : Nat) : StreamStore × Int :=
  if group = [] ∨ group.length > streamGroupMax ∨ owner = 0 then (s, -1)
  else guarded s compaction fun s =>
    if (findTopic s.topics name).any (fun t => p ≥ t.partitions) then (s, -1)
    else onGroup s name group mono (-1) fun s t g =>
      if !g.assigned owner p then (s, -1) else commitGroup s t g [(p, offset)]

def streamCommitForOwnerIfGeneration (s : StreamStore) (compaction : Compaction) (mono : Nat)
    (name group : Bytes) (p offset owner expected : Nat) : StreamStore × Int :=
  if group = [] ∨ group.length > streamGroupMax ∨ owner = 0 then (s, -1)
  else guarded s compaction fun s =>
    if (findTopic s.topics name).any (fun t => p ≥ t.partitions) then (s, 3)
    else onGroup s name group mono 3 fun s t g =>
      if !g.assigned owner p then (s, 3)
      else if g.generation ≠ expected then (s, 1)
      else if !inRange t p offset then (s, 2)
      else commitGroup s t g [(p, offset)]

/-- Owner 0 commits without a membership and creates the group. A member's group is reaped when the
first entry's membership is looked up, that is, when its partition exists. -/
def streamCommitBatchForOwner (s : StreamStore) (compaction : Compaction) (mono : Nat)
    (name group : Bytes) (owner : Nat) (commits : List (Nat × Nat)) : StreamStore × Int :=
  if group = [] ∨ group.length > streamGroupMax ∨ commits = [] then (s, -1)
  else guarded s compaction fun s =>
    if owner = 0 then
      match findTopic s.topics name with
      | none => (s, -1)
      | some t =>
        let (u, g) := ensureGroup t group
        let s' := { s with topics := setTopic s.topics u }
        if commits.any (fun c => c.1 ≥ t.partitions) then (s', -1) else commitGroup s' u g commits
    else if (findTopic s.topics name).any
        (fun t => (commits.head?).any (fun c => c.1 ≥ t.partitions)) then (s, -1)
    else onGroup s name group mono (-1) fun s t g =>
      if commits.any (fun c => c.1 ≥ t.partitions || !g.assigned owner c.1) then (s, -1)
      else commitGroup s t g commits

/-! ## Membership

Members are not logged. -/

def streamGroupJoin (s : StreamStore) (mono : Nat) (name group : Bytes) (owner lease : Nat) :
    StreamStore × Int :=
  if group = [] ∨ group.length > streamGroupMax ∨ owner = 0 ∨ lease = 0 ∨ lease > 60000 then (s, -1)
  else match findTopic s.topics name with
    | none => (s, -1)
    | some t =>
      let (u, g) := ensureGroup t group
      let g := g.reap mono
      if g.members.any (fun m => m.owner == owner) then
        let renewed := updateFirst (fun m => m.owner == owner)
          (fun m => { m with deadlineMs := mono + lease }) g.members
        ({ s with topics := setTopic s.topics (setGroup u { g with members := renewed }) }, 0)
      else if g.members.length ≥ streamGroupMembersMax then
        ({ s with topics := setTopic s.topics (setGroup u g) }, -1)
      else
        let joined := { g with
          members := ⟨owner, mono + lease⟩ :: g.members, generation := g.generation + 1 }
        ({ s with topics := setTopic s.topics (setGroup u joined) }, 0)

def StreamGroup.leave (g : StreamGroup) (owner : Nat) : StreamGroup :=
  if g.members.any (fun m => m.owner == owner) then
    { g with members := g.members.eraseP (fun m => m.owner == owner), generation := g.generation + 1 }
  else g

def streamGroupLeaveMember (s : StreamStore) (name group : Bytes) (owner : Nat) : StreamStore × Int :=
  if group = [] ∨ group.length > streamGroupMax ∨ owner = 0 then (s, -1)
  else match findTopic s.topics name with
    | none => (s, -1)
    | some t =>
      match findGroup t group with
      | none => (s, -1)
      | some g =>
        if g.members.any (fun m => m.owner == owner) then
          ({ s with topics := setTopic s.topics (setGroup t (g.leave owner)) }, 0)
        else (s, -1)

/-- Changes the membership of every group of every topic. -/
def onEveryGroup (s : StreamStore) (change : StreamGroup → StreamGroup) : StreamStore :=
  { s with topics := s.topics.map (fun t => { t with groups := t.groups.map change }) }

def streamGroupLeaveOwner (s : StreamStore) (owner : Nat) : StreamStore :=
  if owner = 0 then s
  else onEveryGroup s fun g =>
    { g with
      members := g.members.filter (fun m => m.owner ≠ owner)
      generation := g.generation + (g.members.filter (fun m => m.owner = owner)).length }

def streamReap (s : StreamStore) (mono : Nat) : StreamStore :=
  onEveryGroup s (fun g => g.reap mono)

/-! ## Calls -/

inductive Call where
  | declare (compaction : Compaction) (fresh : StreamId) (name : Bytes)
      (partitions maxBytes maxAgeMs : Nat)
  | append (compaction : Compaction) (now enforceNow : Nat) (name : Bytes) (hint : Nat)
      (input : AppendInput)
  | appendBatch (compaction : Compaction) (now enforceNow : Nat) (name : Bytes) (hint : Nat)
      (inputs : List AppendInput)
  | truncate (compaction : Compaction) (name : Bytes) (p base expected : Nat)
  | setRetention (compaction : Compaction) (now : Nat) (name : Bytes)
      (maxBytes maxAgeMs expected : Nat)
  | delete (compaction : Compaction) (name : Bytes) (expected : Nat)
  | fetchMetadata (now : Nat) (name : Bytes) (p : Nat)
  | commit (compaction : Compaction) (name group : Bytes) (p offset : Nat)
  | commitIfGeneration (compaction : Compaction) (mono : Nat) (name group : Bytes)
      (p offset expected : Nat)
  | commitBatchIfGeneration (compaction : Compaction) (mono : Nat) (name group : Bytes)
      (commits : List (Nat × Nat)) (expected : Nat)
  | resetOffsets (compaction : Compaction) (mono : Nat) (name group : Bytes) (expected : Nat)
      (strategy : ResetStrategy) (force : Bool)
  | commitForOwner (compaction : Compaction) (mono : Nat) (name group : Bytes)
      (p offset owner : Nat)
  | commitForOwnerIfGeneration (compaction : Compaction) (mono : Nat) (name group : Bytes)
      (p offset owner expected : Nat)
  | commitBatchForOwner (compaction : Compaction) (mono : Nat) (name group : Bytes) (owner : Nat)
      (commits : List (Nat × Nat))
  | join (mono : Nat) (name group : Bytes) (owner lease : Nat)
  | leaveMember (name group : Bytes) (owner : Nat)
  | leaveOwner (owner : Nat)
  | reap (mono : Nat)
  | checkpointMaybe (compaction : Compaction)
  deriving DecidableEq, Repr

def Call.run (s : StreamStore) : Call → StreamStore × Int
  | .declare compaction fresh name partitions maxBytes maxAgeMs =>
    streamDeclare s compaction fresh name partitions maxBytes maxAgeMs
  | .append compaction now enforceNow name hint input =>
    streamAppend s compaction now enforceNow name hint input
  | .appendBatch compaction now enforceNow name hint inputs =>
    streamAppendBatch s compaction now enforceNow name hint inputs
  | .truncate compaction name p base expected =>
    streamTruncateIfRevision s compaction name p base expected
  | .setRetention compaction now name maxBytes maxAgeMs expected =>
    streamSetRetentionIfRevision s compaction now name maxBytes maxAgeMs expected
  | .delete compaction name expected => streamDeleteIfRevision s compaction name expected
  | .fetchMetadata now name p => streamFetchMetadata s now name p
  | .commit compaction name group p offset => streamCommit s compaction name group p offset
  | .commitIfGeneration compaction mono name group p offset expected =>
    streamCommitIfGeneration s compaction mono name group p offset expected
  | .commitBatchIfGeneration compaction mono name group commits expected =>
    streamCommitBatchIfGeneration s compaction mono name group commits expected
  | .resetOffsets compaction mono name group expected strategy force =>
    streamGroupResetOffsetsIfGeneration s compaction mono name group expected strategy force
  | .commitForOwner compaction mono name group p offset owner =>
    streamCommitForOwner s compaction mono name group p offset owner
  | .commitForOwnerIfGeneration compaction mono name group p offset owner expected =>
    streamCommitForOwnerIfGeneration s compaction mono name group p offset owner expected
  | .commitBatchForOwner compaction mono name group owner commits =>
    streamCommitBatchForOwner s compaction mono name group owner commits
  | .join mono name group owner lease => streamGroupJoin s mono name group owner lease
  | .leaveMember name group owner => streamGroupLeaveMember s name group owner
  | .leaveOwner owner => (streamGroupLeaveOwner s owner, 0)
  | .reap mono => (streamReap s mono, 0)
  | .checkpointMaybe compaction => guarded s compaction fun s => (s, 0)

end KuttiDB.Stream
