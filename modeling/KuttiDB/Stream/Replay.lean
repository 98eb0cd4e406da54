/- # KuttiDB.Stream.Replay -- the stream log, its replay and its compaction

A `LogRecord` is one framed, checksum-valid record of the stream log. The two append opcodes with and
without keys are one constructor each: the keyed opcode is the one used when a key is present, and
replay treats an absent key and an empty one alike.

`openLog` is `stream_store_open`: records are applied up to the first one refused, the file is cut
there, topics without an identity get one, and the retention pass runs without being logged. A refused
batch may have been applied in part; what was applied stays in memory.

`compactRecords` is the file `stream_compact_locked` writes.
-/
import KuttiDB.Stream.Store

namespace KuttiDB.Stream

open KuttiDB.QueueStore (Bytes u64)
open KuttiDB.Theory

set_option autoImplicit false

/-! ## Records -/

structure BatchItem where
  part : Nat
  record : StreamRecord
  deriving DecidableEq, Repr

inductive LogRecord where
  | declare (name : Bytes) (partitions maxBytes maxAgeMs : Nat)
  | append (name : Bytes) (item : BatchItem)
  | commit (name group : Bytes) (part offset : Nat)
  | trim (name : Bytes) (part base : Nat)
  | appendBatch (name : Bytes) (items : List BatchItem)
  | delete (name : Bytes)
  | retention (name : Bytes) (maxBytes maxAgeMs : Nat)
  | revision (name : Bytes) (revision : Nat)
  | identity (name : Bytes) (id : StreamId)
  deriving DecidableEq, Repr

def LogRecord.name : LogRecord → Bytes
  | .declare name .. | .append name .. | .commit name .. | .trim name .. | .appendBatch name ..
  | .delete name | .retention name .. | .revision name .. | .identity name .. => name

def keyed (items : List BatchItem) : Bool := items.any (fun i => !i.record.key.isEmpty)

/-- The body length in the record's header. -/
def LogRecord.len : LogRecord → Nat
  | .declare name .. => 22 + name.length
  | .append name item =>
    (if item.record.key = [] then 26 else 28) + name.length + recordBytes item.record
  | .commit name group .. => 16 + name.length + group.length
  | .trim name .. => 14 + name.length
  | .appendBatch name items =>
    6 + name.length + (items.map (fun i => 24 + recordBytes i.record)).sum
      + (if keyed items then 2 * items.length else 0)
  | .delete name => 2 + name.length
  | .retention name .. => 18 + name.length
  | .revision name .. => 10 + name.length
  | .identity name _ => 18 + name.length

/-! ## Replay -/

/-- The items of a batch, up to the first one refused. -/
def appendItems : StreamTopic → List BatchItem → StreamTopic × Bool
  | t, [] => (t, true)
  | t, item :: rest =>
    match appendMemory t item.part item.record with
    | none => (t, false)
    | some u => appendItems u rest

/-- What a record does to the topic it names; `declare` and `delete` change the list instead. -/
def replayTopic (t : StreamTopic) : LogRecord → StreamTopic × Bool
  | .declare .. | .delete _ => (t, false)
  | .retention _ maxBytes maxAgeMs =>
    ({ t with maxBytes := maxBytes, maxAgeMs := maxAgeMs, revision := bump t.revision }, true)
  | .revision _ revision =>
    if revision = 0 then (t, false) else ({ t with revision := revision }, true)
  | .append _ item => appendItems t [item]
  | .appendBatch _ items =>
    if items = [] ∨ items.length > streamFetchMax then (t, false) else appendItems t items
  | .trim _ p base =>
    -- the boundary is read back from a 64-bit field
    if p ≥ t.partitions then (t, false) else (trimPart t p (u64 base), true)
  | .identity _ id => ({ t with id := id, idPersisted := true }, true)
  | .commit _ name p offset =>
    if p ≥ t.partitions then (t, false)
    else
      let (u, g) := ensureGroup t name
      (setGroup u (g.commit p offset), true)

/-- `fresh` gives the provisional identity of a declared topic. -/
def replay (fresh : Bytes → StreamId) (topics : List StreamTopic) (r : LogRecord) :
    List StreamTopic × Bool :=
  match r with
  | .declare name partitions maxBytes maxAgeMs =>
    match addTopic topics name partitions maxBytes maxAgeMs (fresh name) with
    | none => (topics, false)
    | some added => (added, true)
  | .delete name =>
    if (findTopic topics name).isNone then (topics, false) else (dropTopic topics name, true)
  | r =>
    if r.name.length > streamNameMax then (topics, false)
    else match findTopic topics r.name with
      | none => (topics, false)
      | some t =>
        let (u, ok) := replayTopic t r
        (setTopic topics u, ok)

/-- Applies records up to the first one refused; returns the topics and the accepted records. -/
def replayAll (fresh : Bytes → StreamId) :
    List StreamTopic → List LogRecord → List StreamTopic × List LogRecord
  | topics, [] => (topics, [])
  | topics, r :: rest =>
    if r.len > recordMax then (topics, [])
    else match replay fresh topics r with
      | (stopped, false) => (stopped, [])
      | (after, true) =>
        let (final, accepted) := replayAll fresh after rest
        (final, r :: accepted)

/-! ## The store -/

/-- `log` is the content of the file. `writes` counts the log writes that still succeed; `none` is a
store whose writes never fail. -/
structure StreamStore where
  topics : List StreamTopic
  log : List LogRecord
  failed : Bool
  writes : Option Nat
  deriving DecidableEq, Repr

def StreamStore.fresh : StreamStore := ⟨[], [], false, none⟩

def logRecord (s : StreamStore) (r : LogRecord) : StreamStore × Bool :=
  match s.writes with
  | none => ({ s with log := s.log ++ [r] }, true)
  | some 0 => ({ s with failed := true }, false)
  | some (n + 1) => ({ s with log := s.log ++ [r], writes := some n }, true)

/-- Logs records one by one until a write fails. -/
def logEach : StreamStore → List LogRecord → StreamStore × Bool
  | s, [] => (s, true)
  | s, r :: rest =>
    match logRecord s r with
    | (s', false) => (s', false)
    | (s', true) => logEach s' rest

/-- The identity pass of `stream_store_open` over topics declared without one. -/
def identityRecords (topics : List StreamTopic) : List LogRecord :=
  (topics.filter (fun t => !t.idPersisted)).map (fun t => .identity t.name t.id)

def openLog (fresh : Bytes → StreamId) (now : Nat) (file : List LogRecord) : StreamStore :=
  let (topics, accepted) := replayAll fresh [] file
  { topics := topics.map (fun t => (enforce now { t with idPersisted := true }).1)
    log := accepted ++ identityRecords topics
    failed := false
    writes := none }

/-! ## Compaction -/

def partRecords (name : Bytes) (p : Nat) (x : StreamPart) : List LogRecord :=
  (if x.base = 0 then [] else [.trim name p x.base])
    ++ x.chain.map (fun r => .append name ⟨p, r⟩)

def groupRecords (name : Bytes) (g : StreamGroup) : List LogRecord :=
  g.offsets.zipIdx.map (fun (offset, p) => .commit name g.name p offset)

def topicRecords (t : StreamTopic) : List LogRecord :=
  [.declare t.name t.partitions t.maxBytes t.maxAgeMs, .identity t.name t.id]
    ++ t.parts.zipIdx.flatMap (fun (x, p) => partRecords t.name p x)
    ++ t.groups.flatMap (groupRecords t.name)
    ++ [.revision t.name t.revision]

def compactRecords (topics : List StreamTopic) : List LogRecord := topics.flatMap topicRecords

/-- How a compaction ends: it was not due, it replaced the file, or it failed. -/
inductive Compaction where
  | notDue
  | done
  | failed
  deriving DecidableEq, Repr

def compactMaybeLocked (s : StreamStore) : Compaction → StreamStore × Bool
  | .notDue => (s, true)
  | .done => ({ s with log := compactRecords s.topics }, true)
  | .failed => ({ s with failed := true }, false)

end KuttiDB.Stream
