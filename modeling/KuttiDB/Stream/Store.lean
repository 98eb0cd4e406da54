/- # KuttiDB.Stream.Store -- topics, partitions and the changes made to them in memory

A stream topic is a fixed number of partitions. A partition keeps a linked list of records with the
offsets `base`, …, `next - 1`; records enter at the tail (`partLink`) and leave at the head
(`trimPart`), by an explicit boundary or by the retention pass (`enforce`).

The list is the chain of records reached from `head`; `tail` is the position in that chain which the
tail pointer designates, so that a stale tail pointer would cut the chain at the next append, as it
would in the source. Offsets and revisions are 64-bit: `bump` wraps. Byte counters are bounded by the
memory they count and do not.

`live_bytes` and `wal_bytes` only decide when a compaction is due; the operations take that decision
as an argument.
-/
import KuttiDB.QueueStore.Record
import KuttiDB.Theory.Lookup
import Mathlib.Data.List.Sort

namespace KuttiDB.Stream

open KuttiDB.QueueStore (Bytes u64)
open KuttiDB.Theory

set_option autoImplicit false

/-! ## Limits -/

def streamNameMax : Nat := 255

def streamGroupMax : Nat := 255

def streamPartitionsMax : Nat := 256

def streamFetchMax : Nat := 1024

def streamGroupMembersMax : Nat := 1024

/-- The longest record body `stream_store_open` reads back. -/
def recordMax : Nat := 64 * 2 ^ 20

def uint32Max : Nat := 2 ^ 32 - 1

def uint64Max : Nat := 2 ^ 64 - 1

/-- `x++` on a 64-bit counter. -/
def bump (n : Nat) : Nat := u64 (n + 1)

/-- `now - at` on 64-bit clocks: a record stamped after `now` is very old. -/
def age (now at_ : Nat) : Nat := u64 (now + 2 ^ 64 - at_)

/-! ## Data -/

/-- A topic incarnation: 128 bits drawn when the topic is declared. -/
abbrev StreamId := BitVec 128

structure StreamRecord where
  offset : Nat
  atMs : Nat
  key : Bytes
  body : Bytes
  deriving DecidableEq, Repr

structure StreamPart where
  chain : List StreamRecord
  tail : Option Nat
  base : Nat
  next : Nat
  bytes : Nat
  deriving DecidableEq, Repr

structure StreamMember where
  owner : Nat
  deadlineMs : Nat
  deriving DecidableEq, Repr

/-- `member_count` is the length of `members`. The 64 bits of `generation` are not wrapped here: each
step of it is a member that came or went, and 2 ^ 64 of them are out of reach. -/
structure StreamGroup where
  name : Bytes
  offsets : List Nat
  members : List StreamMember
  generation : Nat
  deriving DecidableEq, Repr

/-- The number of partitions is the length of `parts`. -/
structure StreamTopic where
  name : Bytes
  maxBytes : Nat
  maxAgeMs : Nat
  bytes : Nat
  records : Nat
  revision : Nat
  id : StreamId
  idPersisted : Bool
  parts : List StreamPart
  groups : List StreamGroup
  deriving DecidableEq, Repr

/-- A partition of a new topic. -/
def StreamPart.empty : StreamPart := ⟨[], none, 0, 0, 0⟩

def StreamTopic.partitions (t : StreamTopic) : Nat := t.parts.length

def StreamTopic.part (t : StreamTopic) (p : Nat) : StreamPart := t.parts.getD p .empty

def findTopic (topics : List StreamTopic) (name : Bytes) : Option StreamTopic :=
  lookup StreamTopic.name topics name

def setTopic (topics : List StreamTopic) (t : StreamTopic) : List StreamTopic :=
  updateFirst (fun u => u.name == t.name) (fun _ => t) topics

def dropTopic (topics : List StreamTopic) (name : Bytes) : List StreamTopic :=
  topics.eraseP (fun u => u.name == name)

/-- The topic `add_topic` links; `fresh` is the identity drawn for it. -/
def newTopic (name : Bytes) (partitions maxBytes maxAgeMs : Nat) (fresh : StreamId) :
    StreamTopic where
  name := name
  maxBytes := maxBytes
  maxAgeMs := maxAgeMs
  bytes := 0
  records := 0
  revision := 1
  id := fresh
  idPersisted := false
  parts := List.replicate partitions .empty
  groups := []

/-- `none` is the refusal; an existing topic is accepted with its own settings only. -/
def addTopic (topics : List StreamTopic) (name : Bytes) (partitions maxBytes maxAgeMs : Nat)
    (fresh : StreamId) : Option (List StreamTopic) :=
  if name = [] ∨ name.length > streamNameMax ∨ partitions = 0 ∨ partitions > streamPartitionsMax then
    none
  else match findTopic topics name with
    | some t =>
      if t.partitions = partitions ∧ t.maxBytes = maxBytes ∧ t.maxAgeMs = maxAgeMs then some topics
      else none
    | none => some (newTopic name partitions maxBytes maxAgeMs fresh :: topics)

/-! ## Records of a partition -/

def recordBytes (r : StreamRecord) : Nat := r.body.length + r.key.length

def chainBytes (chain : List StreamRecord) : Nat := (chain.map recordBytes).sum

/-- The chain after `tail->next = r`, or `head = r` when there is no tail. -/
def linkChain (chain : List StreamRecord) (tail : Option Nat) (r : StreamRecord) :
    List StreamRecord :=
  match tail with
  | none => [r]
  | some i => chain.take (i + 1) ++ [r]

def StreamPart.link (x : StreamPart) (r : StreamRecord) : StreamPart :=
  let chain := linkChain x.chain x.tail r
  { chain := chain, tail := some (chain.length - 1), base := x.base, next := bump x.next,
    bytes := x.bytes + recordBytes r }

def partLink (t : StreamTopic) (p : Nat) (r : StreamRecord) : StreamTopic :=
  { t with
    parts := t.parts.set p ((t.part p).link r)
    bytes := t.bytes + recordBytes r
    records := t.records + 1
    revision := bump t.revision }

def appendMemory (t : StreamTopic) (p : Nat) (r : StreamRecord) : Option StreamTopic :=
  if p ≥ t.partitions ∨ r.offset ≠ (t.part p).next then none else some (partLink t p r)

/-- The records `trim_part` frees. -/
def StreamPart.below (x : StreamPart) (base : Nat) : List StreamRecord :=
  x.chain.takeWhile (fun r => r.offset < base)

def StreamPart.trim (x : StreamPart) (base : Nat) : StreamPart :=
  let rest := x.chain.dropWhile (fun r => r.offset < base)
  { chain := rest
    tail := if rest = [] then none else x.tail.map (· - (x.below base).length)
    base := max x.base base
    next := max x.next base
    bytes := x.bytes - chainBytes (x.below base) }

def trimPart (t : StreamTopic) (p base : Nat) : StreamTopic :=
  let x := t.part p
  { t with
    parts := t.parts.set p (x.trim base)
    bytes := t.bytes - chainBytes (x.below base)
    records := t.records - (x.below base).length
    revision := if (x.trim base).base = x.base then t.revision else bump t.revision }

/-! ## Retention

Each pass returns the topic and the boundaries to log: `touched` in the order in which partitions were
first trimmed, each with its last boundary. A round of either loop frees the head record, so as many
rounds as there are records suffice; the one exception is a record at offset `2 ^ 64 - 1`, whose
boundary wraps to 0 and frees nothing: there the loop of the source does not end. -/

def expired (now maxAgeMs : Nat) (r : StreamRecord) : Bool := maxAgeMs ≤ age now r.atMs

/-- Trims the expired head records of one partition; the boundary is 0 when there was none. -/
def ageLoop (now p : Nat) : Nat → StreamTopic → Nat → StreamTopic × Nat
  | 0, t, b => (t, b)
  | rounds + 1, t, b =>
    match (t.part p).chain.head? with
    | none => (t, b)
    | some r =>
      if expired now t.maxAgeMs r then
        ageLoop now p rounds (trimPart t p (bump r.offset)) (bump r.offset)
      else (t, b)

/-- Notes the new boundary of a partition. -/
def touch (touched : List (Nat × Nat)) (p b : Nat) : List (Nat × Nat) :=
  if (lookup Prod.fst touched p).isSome then updateFirst (fun x => x.1 == p) (fun _ => (p, b)) touched
  else touched ++ [(p, b)]

def agePass (now : Nat) (t : StreamTopic) : StreamTopic × List (Nat × Nat) :=
  if t.maxAgeMs = 0 then (t, [])
  else (List.range t.partitions).foldl (fun (acc : StreamTopic × List (Nat × Nat)) p =>
    let (u, b) := ageLoop now p (acc.1.part p).chain.length acc.1 0
    (u, if b = 0 then acc.2 else touch acc.2 p b)) (t, [])

/-- The partition with the oldest head, the first of equals; a head stamped `2 ^ 64 - 1` is passed
over. -/
def oldestHead (t : StreamTopic) : Option (Nat × StreamRecord) :=
  (List.range t.partitions).foldl (fun best p =>
    match (t.part p).chain.head? with
    | none => best
    | some r => if r.atMs < best.elim uint64Max (·.2.atMs) then some (p, r) else best) none

def sizeLoop : Nat → StreamTopic → List (Nat × Nat) → StreamTopic × List (Nat × Nat)
  | 0, t, touched => (t, touched)
  | rounds + 1, t, touched =>
    if t.maxBytes ≠ 0 ∧ t.bytes > t.maxBytes then
      match oldestHead t with
      | none => (t, touched)
      | some (p, r) =>
        sizeLoop rounds (trimPart t p (bump r.offset)) (touch touched p (bump r.offset))
    else (t, touched)

def enforce (now : Nat) (t : StreamTopic) : StreamTopic × List (Nat × Nat) :=
  let (u, touched) := agePass now t
  sizeLoop (u.parts.map (·.chain.length)).sum u touched

/-! ## Consumer groups -/

def findGroup (t : StreamTopic) (name : Bytes) : Option StreamGroup :=
  lookup StreamGroup.name t.groups name

def setGroup (t : StreamTopic) (g : StreamGroup) : StreamTopic :=
  { t with groups := updateFirst (fun h => h.name == g.name) (fun _ => g) t.groups }

/-- `group` with `create` set: the group, and the topic that has it. -/
def ensureGroup (t : StreamTopic) (name : Bytes) : StreamTopic × StreamGroup :=
  match findGroup t name with
  | some g => (t, g)
  | none =>
    let g : StreamGroup := ⟨name, List.replicate t.partitions 0, [], 0⟩
    ({ t with groups := g :: t.groups }, g)

def StreamGroup.commit (g : StreamGroup) (p offset : Nat) : StreamGroup :=
  { g with offsets := g.offsets.set p offset }

/-- `group_reap_locked`. -/
def StreamGroup.reap (g : StreamGroup) (now : Nat) : StreamGroup :=
  let kept := g.members.filter (fun m => now < m.deadlineMs)
  { g with members := kept, generation := g.generation + (g.members.length - kept.length) }

/-- `group_owners_locked` on a reaped group. -/
def StreamGroup.owners (g : StreamGroup) : List Nat :=
  (g.members.map (·.owner)).insertionSort (· ≤ ·)

/-- `member_assigned_locked` on a reaped group. -/
def StreamGroup.assigned (g : StreamGroup) (owner p : Nat) : Bool :=
  match g.owners.findIdx? (fun o => o == owner) with
  | none => false
  | some i => p % g.owners.length == i

end KuttiDB.Stream
