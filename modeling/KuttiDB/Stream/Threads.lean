/- # KuttiDB.Stream.Threads -- stream calls as threads run them

Every call takes the one lock of the store and works on it in one piece, but for two waits in which
it lets the lock go: a due compaction waits for a sync in flight, and a call that logged waits until
its records are synced. All calls but one have done their work before they wait. A deletion logs its
record and waits with the topic still in the list, then writes the list pointer it found before.

The list is modelled with its cells: `cells` has the address of each topic. A pointer is the head of
the list (`none`) or the next field of a cell, and writing through one that was freed, or freeing a
topic twice, sets `corrupt`. Writes and syncs succeed.

`history`, `durable`, `deleting` and `acked` are for the statements, no program branches on them:
`history` has the records logged since the store was opened (its length is the record counter),
`durable` counts those a finished sync covers, `deleting` has the deletions between their record and
the unlinking, and `acked` tells of each acknowledged call on how many records it rests.
-/
import KuttiDB.Stream.LogRuns
import KuttiDB.Theory.Interleaving

namespace KuttiDB.Stream

open KuttiDB.QueueStore (Bytes)
open KuttiDB.Theory

set_option autoImplicit false

/-! ## State -/

/-- A logged deletion: its record, its topic, and the pointer that led to the topic. -/
structure Waiting where
  seq : Nat
  name : Bytes
  cell : Nat
  link : Option Nat
  deriving DecidableEq, Repr

structure Shared where
  store : StreamStore
  cells : List Nat
  allocated : Nat
  corrupt : Bool
  syncedSeq : Nat
  syncer : Bool
  history : List LogRecord
  durable : Nat
  deleting : List Waiting
  acked : List Nat
  deriving DecidableEq, Repr

namespace Shared

def walSeq (s : Shared) : Nat := s.history.length

/-- The topics whose deletion is logged. -/
def hidden (s : Shared) : List Bytes := s.deleting.map Waiting.name

/-- A store just opened. -/
def opened (store : StreamStore) : Shared :=
  ⟨store, List.range store.topics.length, store.topics.length, false, 0, false, [], 0, [], []⟩

end Shared

/-! ## The list and its pointers -/

/-- The topic of this name, its cell, and the pointer to it; `link` points to the first cell. -/
def findLink : List StreamTopic → List Nat → Bytes → Option Nat →
    Option (StreamTopic × Nat × Option Nat)
  | t :: topics, cell :: cells, name, link =>
    if t.name = name then some (t, cell, link) else findLink topics cells name (some cell)
  | _, _, _, _ => none

/-- The cells from the first one to this one. -/
def upTo (cell : Nat) : List (Nat × StreamTopic) → List (Nat × StreamTopic)
  | [] => []
  | n :: rest => if n.1 = cell then [n] else n :: upTo cell rest

/-- The cells behind this one. -/
def behind (cell : Nat) (nodes : List (Nat × StreamTopic)) : List (Nat × StreamTopic) :=
  (nodes.dropWhile (fun n => n.1 != cell)).tail

/-- Writes the next pointer of a cell through `link`; `none` if either was freed. -/
def unlinkNode (cell : Nat) (link : Option Nat) (nodes : List (Nat × StreamTopic)) :
    Option (List (Nat × StreamTopic)) :=
  if cell ∉ nodes.map Prod.fst then none
  else match link with
    | none => some (behind cell nodes)
    | some prev =>
      if prev ∉ nodes.map Prod.fst then none else some (upTo prev nodes ++ behind cell nodes)

/-! ## Effects -/

/-- The records up to the last declaration of this topic. -/
def lastDeclare (name : Bytes) (history : List LogRecord) : Nat :=
  history.length - (history.reverse.takeWhile fun r =>
    match r with
    | .declare other .. => other != name
    | _ => true).length

/-- The topic a call declares. -/
def Call.declares : Call → Option Bytes
  | .declare _ _ name .. => some name
  | _ => none

namespace Shared

/-- A call that never lets the lock go while it works. A topic that exists already is declared
without a record, and that is acknowledged at once. -/
def apply (c : Call) (s : Shared) : Shared × Int :=
  let result := c.run s.store
  let logged := result.1.log.drop s.store.log.length
  ({ s with
      store := result.1
      cells := if result.1.topics.length = s.store.topics.length then s.cells
        else s.allocated :: s.cells
      allocated := s.allocated + 1
      history := s.history ++ logged
      acked := match c.declares with
        | none => s.acked
        | some name =>
          if result.2 = 0 ∧ logged = [] then lastDeclare name s.history :: s.acked else s.acked },
    result.2)

def compact (s : Shared) : Shared :=
  { s with store := (compactMaybeLocked s.store .done).1, syncedSeq := s.walSeq, durable := s.walSeq }

/-- The part of a deletion before its wait. -/
def logDelete (name : Bytes) (expected : Nat) (s : Shared) : Shared × Except Int Waiting :=
  if s.store.failed then (s, .error (-1))
  else match findLink s.store.topics s.cells name none with
    | none => (s, .error 3)
    | some (t, cell, link) =>
      if t.revision ≠ expected then (s, .error 1)
      else match logEach s.store [.delete name] with
        | (store, false) => ({ s with store := store }, .error (-1))
        | (store, true) =>
          let entry := ⟨s.walSeq + 1, name, cell, link⟩
          ({ s with
              store := store
              history := s.history ++ [.delete name]
              deleting := entry :: s.deleting }, .ok entry)

/-- The part of a deletion behind its wait. -/
def unlink (entry : Waiting) (s : Shared) : Shared :=
  match unlinkNode entry.cell entry.link (s.cells.zip s.store.topics) with
  | none => { s with corrupt := true, deleting := s.deleting.erase entry }
  | some nodes =>
    { s with
      store := { s.store with topics := nodes.map Prod.snd }
      cells := nodes.map Prod.fst
      deleting := s.deleting.erase entry }

def lead (s : Shared) : Shared := { s with syncer := true }

/-- A sync that began when the counter stood at `target` has finished. -/
def synced (target : Nat) (s : Shared) : Shared := { s with durable := max s.durable target }

def publish (target : Nat) (s : Shared) : Shared :=
  { s with syncer := false, syncedSeq := max s.syncedSeq target }

def ack (target : Nat) (s : Shared) : Shared := { s with acked := target :: s.acked }

end Shared

/-! ## Programs -/

/-- `record` is no lock of the source: a deletion holds that of its record until it returns. -/
inductive StreamLock where
  | mu
  | record (seq : Nat)
  deriving DecidableEq, Repr

inductive StreamSite where
  | enter (call : Call) (due : Bool)
  | compacting (call : Call)
  | waiting
  | logged
  deriving DecidableEq, Repr

abbrev StreamThread := Prog Shared StreamLock StreamSite Int

/-- `stream_wait_durable_locked`, entered and left with the lock held. After so many rounds the model
stops (`out 2`); the source goes on. -/
def waitThread (target : Nat) (covered : StreamThread) (out : Int → StreamThread) :
    Nat → StreamThread
  | 0 => out 2
  | round + 1 =>
    let again := waitThread target covered out round
    .act (fun s => if s.store.failed ∨ target ≤ s.syncedSeq ∨ s.syncer then s else s.lead) (fun s =>
      if s.store.failed then out (-1)
      else if target ≤ s.syncedSeq then covered
      else if s.syncer then .unlock .mu (.lock .waiting .mu again)
      else .unlock .mu (.write (Shared.synced s.walSeq)
        (.lock .waiting .mu (.write (Shared.publish s.walSeq) again))))

/-- The loop of `compact_maybe_locked`: a sync in flight is waited for. -/
def compactThread (c : Call) (next out : StreamThread) : Nat → StreamThread
  | 0 => out
  | round + 1 =>
    .act (fun s => if s.syncer ∧ s.store.failed = false then s else s.compact) (fun s =>
      if s.syncer ∧ s.store.failed = false then
        .unlock .mu (.lock (.compacting c) .mu (compactThread c next out round))
      else next)

/-- Leaves the lock with a result. -/
def leaveThread (code : Int) : StreamThread := .unlock .mu (.done code)

/-- Takes the lock and compacts if that is due. -/
def enterThread (c : Call) (due : Bool) (rounds : Nat) (body : StreamThread) : StreamThread :=
  .lock (.enter c due) .mu
    (if due then
      .read (fun s =>
        if s.store.failed then leaveThread (-1)
        else compactThread c body (leaveThread 2) rounds)
    else body)

/-- Every call but a deletion; `c` is the call without its compaction. -/
def callThread (c : Call) (due : Bool) (rounds : Nat) : StreamThread :=
  enterThread c due rounds
    (.act (fun s => (s.apply c).1) (fun s =>
      let after := (s.apply c).1
      let code := (s.apply c).2
      if code = 0 ∧ after.walSeq ≠ s.walSeq then
        waitThread after.walSeq (.write (Shared.ack after.walSeq) (leaveThread 0)) leaveThread rounds
      else leaveThread code))

def deleteThread (name : Bytes) (expected : Nat) (due : Bool) (rounds : Nat) : StreamThread :=
  if name = [] ∨ name.length > streamNameMax then .done (-1)
  else enterThread (.delete .notDue name expected) due rounds
    (.act (fun s => (s.logDelete name expected).1) (fun s =>
      match (s.logDelete name expected).2 with
      | .error code => leaveThread code
      | .ok entry =>
        .lock .logged (.record entry.seq)
          (waitThread entry.seq
            (.write (Shared.unlink entry) (.unlock (.record entry.seq) (leaveThread 0)))
            (fun code => .unlock (.record entry.seq) (leaveThread code)) rounds)))

/-- The calls threads make. -/
inductive StreamCalls : Set StreamThread where
  | call (c : Call) (due : Bool) (rounds : Nat) (plain : c.compaction = .notDue)
      (other : ∀ compaction name expected, c ≠ .delete compaction name expected) :
      StreamCalls (callThread c due rounds)
  | delete (name : Bytes) (expected : Nat) (due : Bool) (rounds : Nat) :
      StreamCalls (deleteThread name expected due rounds)

end KuttiDB.Stream
