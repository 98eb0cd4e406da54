/- # KuttiDB.QueueStore.LockPaths -- the queue operations as sequences of lock operations

Every operation of the queue store, reduced to the locks it takes, tries and releases on each of its
paths, and to the number of messages it adds to a queue or removes. How an inner step ends (a log
write, an allocation, a look at a message) is read from a list of outcomes that no operation can
predict; 0 stands for the usual one.

* `store`, `queue`, `state` and `wal` are the locks of the source: metadata, message state, job
  engine and log. `state_lock` is taken by the callbacks of the job engine.
* `inside` is no lock of the source. A thread tries for it when it looks whether a queue has room, and
  gives it up when it has added to the queue; for a transaction that lasts from prepare to commit.
  Finding it taken sets `overlapped` and changes nothing else. A transaction that is resolved after a
  restart looks for no room at all and sets `overlapped` too.
* `queue_tx_prepare` reaps its targets under the store lock alone. Its `depth--` is a load and a store;
  where an update of another thread is lost between them, or the store is, the counter is no longer
  the number of messages, and `overlapped` is set.

Queues are named by their position in creation order, so the list order of the source is the
reverse.
-/
import KuttiDB.Theory.LockSets
import Mathlib.Data.List.Sort

namespace KuttiDB.QueueStore.Locks

open KuttiDB.Theory

set_option autoImplicit false

/-! ## State -/

inductive QLock where
  | store
  | queue (i : Nat)
  | state
  | wal
  | inside (i : Nat)
  deriving DecidableEq, Repr

/-- What an acquisition asks for: `first` a queue with no other queue held, `climb` a further queue
in creation order, `collect` the queues of a checkpoint. -/
inductive QSite where
  | store
  | first
  | climb
  | collect
  | state
  | wal
  | attempt
  deriving DecidableEq, Repr

/-- A queue: its bound, the messages it holds, and whether the output of a completion stands beside its
input. -/
structure Slot where
  maxDepth : Nat
  depth : Nat
  doubled : Bool
  deriving DecidableEq, Repr

structure Shared where
  outcomes : List Nat
  slots : List Slot
  overlapped : Bool
  deriving DecidableEq, Repr

namespace Shared

def next (s : Shared) : Shared := { s with outcomes := s.outcomes.tail }

def depth (s : Shared) (i : Nat) : Nat := (s.slots[i]?.map Slot.depth).getD 0

/-- `count` more messages fit; a bound of 0 is none. There is no room in a queue that does not
exist. -/
def room (s : Shared) (i count : Nat) : Bool :=
  s.slots[i]?.any (fun q => q.maxDepth = 0 || q.depth + count ≤ q.maxDepth)

def modify (i : Nat) (change : Slot → Slot) (s : Shared) : Shared :=
  { s with slots := s.slots.modify i change }

def link (i : Nat) : Shared → Shared := modify i (fun q => { q with depth := q.depth + 1 })

def remove (i : Nat) : Shared → Shared := modify i (fun q => { q with depth := q.depth - 1 })

def purge (i : Nat) : Shared → Shared := modify i (fun q => { q with depth := 0 })

/-- The output of a completion goes behind its input, in one queue. -/
def linkBeside (i : Nat) : Shared → Shared :=
  modify i (fun q => { q with depth := q.depth + 1, doubled := true })

/-- The input of that completion leaves. -/
def removeBeside (i : Nat) : Shared → Shared :=
  modify i (fun q => { q with depth := q.depth - 1, doubled := false })

def create (maxDepth : Nat) (s : Shared) : Shared :=
  { s with slots := s.slots ++ [⟨maxDepth, 0, false⟩] }

def overlap (s : Shared) : Shared := { s with overlapped := true }

/-- The store of a `depth--` whose load has seen `seen`. -/
def storeDepth (i seen : Nat) (s : Shared) : Shared :=
  if s.depth i = seen then s.remove i
  else (s.modify i (fun q => { q with depth := seen - 1 })).overlap

end Shared

abbrev Path := Prog Shared QLock QSite Int

/-- An inner step whose outcome is a number. -/
def pick (next : Nat → Path) : Path := .act Shared.next (fun s => next (s.outcomes.headD 0))

def either (usual other : Path) : Path := pick (fun n => if n = 0 then usual else other)

/-! ## The log -/

/-- `append_record_ex`: nothing for a queue that is not durable, an error for a closed or failed
log. -/
def appendRecord (written refused : Path) : Path :=
  either (.lock .wal .wal (either (.unlock .wal written) (.unlock .wal refused)))
    (either written refused)

/-- `append_batch_records` has the paths of a single append. -/
def appendBatchRecords (written refused : Path) : Path := appendRecord written refused

/-- `sync_log`: the sync runs without the lock. -/
def syncLog (synced refused : Path) : Path :=
  either
    (.lock .wal .wal
      (either
        (.unlock .wal
          (either (.lock .wal .wal (either (.unlock .wal synced) (.unlock .wal refused))) refused))
        (.unlock .wal synced)))
    refused

/-- `q_wait_durable_locked` that takes at most so many rounds, entered and left with the log lock
held. -/
def waitDurable (reached refused : Path) : Nat → Path
  | 0 => refused
  | round + 1 =>
    let again := waitDurable reached refused round
    -- reached, led by this thread, led by another one, the sync under the lock, failed
    pick (fun n => match n with
      | 0 => reached
      | 1 => either (.unlock .wal (.lock .wal .wal (either again refused))) refused
      | 2 => .unlock .wal (.lock .wal .wal again)
      | 3 => either reached refused
      | _ => refused)

/-- Waits for the log if the operation wrote to it. -/
def joinSync (rounds : Nat) (synced refused : Path) : Path :=
  either (.lock .wal .wal (waitDurable (.unlock .wal synced) (.unlock .wal refused) rounds)) synced

/-! ## Room in a queue -/

/-- Begins to look at the room of a queue. -/
def enter (i : Nat) (next : Bool → Path) : Path :=
  .tryLock .attempt (.inside i) (next true) (.write Shared.overlap (next false))

def leave (i : Nat) (mine : Bool) (next : Path) : Path :=
  if mine then .unlock (.inside i) next else next

def leaveAll (next : Path) : List Nat → Path
  | [] => next
  | i :: owned => .unlock (.inside i) (leaveAll next owned)

/-- Looks whether `count` messages fit. -/
def findRoom (i count : Nat) (admitted : Bool → Path) (full : Path) : Path :=
  enter i (fun mine => .read (fun s => if s.room i count then admitted mine else leave i mine full))

/-- Adds messages; an allocation may fail. -/
def linkEach (i : Nat) (linked refused : Path) : Nat → Path
  | 0 => linked
  | count + 1 => either (.write (Shared.link i) (linkEach i linked refused count)) refused

/-! ## Dead-letter moves and retention -/

/-- The locks under which `dead_letter_locked` and `reap_queue_locked` are called: the queue's, the
store's as well, or the store's alone. -/
inductive Under where
  | queue
  | both
  | store
  deriving DecidableEq, Repr

/-- A message leaves the queue. Without the queue's lock, the store of the counter may come too late
for a thread that has loaded it before. -/
def drop (under : Under) (i : Nat) (next : Path) : Path :=
  match under with
  | .store =>
    either (.read (fun s => .write (Shared.storeDepth i (s.depth i)) next))
      (.write Shared.overlap next)
  | _ => .write (Shared.remove i) next

/-- `dead_letter_locked` with the dead-letter queue locked. -/
def deadLetterMove (under : Under) (i j : Nat) (next : Int → Path) : Path :=
  findRoom j 1
    (fun mine =>
      let keep := leave j mine (.unlock (.queue j) (next (-1)))
      let move := either
        (.write (Shared.link j) (leave j mine (.unlock (.queue j) (drop under i (next 1)))))
        keep
      either (appendRecord (appendRecord (syncLog move keep) keep) keep) move)
    (.unlock (.queue j) (next (-1)))

def deadLetterEnter (under : Under) (i : Nat) (next : Int → Path) : Option Nat → Path
  | none => next (-1)
  | some j => .tryLock .attempt (.queue j) (deadLetterMove under i j next) (next (-1))

/-- The dead-letter queue is found, or created without a bound. -/
def deadLetterResolve (next : Option Nat → Path) : Path :=
  either (pick (fun j => next (some j)))
    (appendRecord
      (either (.act (Shared.create 0) (fun s => next (some s.slots.length))) (next none))
      (next none))

/-- `dead_letter_locked`. -/
def deadLetter (under : Under) (i : Nat) (next : Int → Path) : Path :=
  either (next 0)
    (if under = .queue then
      .tryLock .attempt .store
        (deadLetterResolve (fun found => .unlock .store (deadLetterEnter under i next found)))
        (next (-1))
    else deadLetterResolve (deadLetterEnter under i next))

/-- The walk of `reap_queue_locked`: messages that stay and messages that have expired. -/
def reapWalk (under : Under) (i : Nat) (next : Path) : Nat → Path
  | 0 => next
  | left + 1 =>
    either (reapWalk under i next left)
      (deadLetter under i (fun routed =>
        if routed = 0 then drop under i (reapWalk under i next left)
        else reapWalk under i next left))

def reapQueue (under : Under) (i : Nat) (next : Path) : Path :=
  .read (fun s => reapWalk under i next (s.depth i))

/-! ## Operations on the store -/

def leaveStore (code : Int) : Path := .unlock .store (.done code)

/-- Operations that hold the store lock alone and log nothing: `queue_incarnation`,
`queue_wal_enabled`, `queue_tx_pending_ids`, `exchange_revision`, `queue_consumer_lookup`, the counts
and the walks over exchanges and consumers. -/
def storeRead : Path := .lock .store .store (either (leaveStore 1) (leaveStore 0))

/-- Operations that hold the store lock and log one synced record: `exchange_declare`,
`exchange_bind`, `exchange_unbind`, `exchange_delete_if_revision`,
`exchange_set_alternate_if_revision`, `queue_consumer_register`. -/
def storeRecord : Path :=
  .lock .store .store
    (either (appendRecord (either (leaveStore 1) (leaveStore (-1))) (leaveStore (-1)))
      (either (pick (fun code => leaveStore code)) (leaveStore (-1))))

/-- `queue_declare_ex`. -/
def queueDeclare (maxDepth rounds : Nat) : Path :=
  .lock .store .store
    (either
      (appendRecord
        (either
          (.write (Shared.create maxDepth) (.unlock .store (joinSync rounds (.done 0) (.done (-1)))))
          (leaveStore (-1)))
        (leaveStore (-1)))
      (either (leaveStore 0) (leaveStore (-1))))

/-- `queue_job_record_append_sync`, with the engine locked by its caller. -/
def jobRecordAppend : Path :=
  .lock .state .state (appendRecord (.unlock .state (.done 0)) (.unlock .state (.done (-1))))

/-- The queues in list order, each locked in turn while the store is. -/
def eachQueue (body : Nat → Path → Path) : List Nat → Path
  | [] => leaveStore 0
  | i :: rest =>
    either
      (.lock .first (.queue i) (body i (.unlock (.queue i) (eachQueue body rest))))
      (eachQueue body rest)

def walkQueues (body : Nat → Path → Path) : Path :=
  .lock .store .store (.read (fun s => eachQueue body (List.range s.slots.length).reverse))

/-- `queue_reap`. -/
def queueReap : Path := walkQueues (reapQueue .both)

/-- `queue_requeue_owner`, `queue_owner_inflight`, `queue_total_depth`, `queue_total_inflight`,
`queue_foreach_stats` and `queue_manifest_foreach`. -/
def queueWalk : Path := walkQueues (fun _ next => next)

/-- `queue_consumer_unregister` requeues the deliveries of the consumer at the end. -/
def queueConsumerUnregister : Path :=
  .lock .store .store
    (either (appendRecord (.unlock .store queueWalk) (leaveStore (-1))) (leaveStore 0))

/-! ## Operations on one queue -/

def leaveQueue (i : Nat) (code : Int) : Path := .unlock (.queue i) (.done code)

/-- Resolves a name under the store lock, then locks the queue and looks whether it was deleted. -/
def withQueue (i : Nat) (missing deleted : Int) (body : Path) : Path :=
  .lock .store .store
    (either
      (.unlock .store (.lock .first (.queue i) (either body (leaveQueue i deleted))))
      (leaveStore missing))

/-- `queue_depth`, `queue_inflight`, `queue_stats`, `queue_revision`, `queue_config_snapshot`,
`queue_delivery_snapshot`, `queue_message_snapshot` and `queue_peek_after`. -/
def queueRead (i : Nat) : Path :=
  withQueue i 0 0 (either (leaveQueue i 1) (pick (fun n => leaveQueue i (-(n : Int)))))

/-- `publish_one_locked`. -/
def publishOne (i : Nat) (published refused : Path) : Path :=
  reapQueue .queue i
    (findRoom i 1
      (fun mine =>
        appendRecord
          (either (.write (Shared.link i) (leave i mine published)) (leave i mine refused))
          (leave i mine refused))
      refused)

def queuePublish (i rounds : Nat) : Path :=
  withQueue i (-1) (-1)
    (publishOne i (.unlock (.queue i) (joinSync rounds (.done 0) (.done (-1)))) (leaveQueue i (-1)))

/-- `queue_publish_batch`: the wait is inside the queue lock. -/
def queuePublishBatch (i count rounds : Nat) : Path :=
  withQueue i (-1) (-1)
    (reapQueue .queue i
      (findRoom i count
        (fun mine =>
          let refused := leave i mine (leaveQueue i (-1))
          -- an entry is refused, or memory for the batch is
          either
            (appendBatchRecords
              (linkEach i (leave i mine (joinSync rounds (leaveQueue i 0) (leaveQueue i (-1)))) refused
                count)
              refused)
            refused)
        (leaveQueue i (-1))))

/-- `queue_purge_checked`. -/
def queuePurge (i rounds : Nat) : Path :=
  withQueue i 0 0
    (either
      (appendRecord
        (.write (Shared.purge i) (.unlock (.queue i) (joinSync rounds (.done 1) (.done (-1)))))
        (leaveQueue i (-1)))
      (leaveQueue i 2))

/-- `queue_delete_if_revision` keeps the store lock through the queue lock. -/
def queueDelete (i rounds : Nat) : Path :=
  let refuse (code : Int) : Path := .unlock (.queue i) (leaveStore code)
  .lock .store .store
    (either
      (.lock .first (.queue i)
        (either
          (appendRecord
            (.write (Shared.purge i)
              (.unlock (.queue i) (.unlock .store (joinSync rounds (.done 1) (.done (-1))))))
            (refuse (-1)))
          (either (refuse 2) (refuse 3))))
      (leaveStore 0))

/-- Hands a message out: a copy, the delivery record, and the wait outside the queue lock. -/
def deliver (i rounds : Nat) : Path :=
  either
    (appendRecord (.unlock (.queue i) (joinSync rounds (.done 1) (.done (-1)))) (leaveQueue i (-1)))
    (leaveQueue i (-1))

/-- The scan of a consume: messages handed out, out of deliveries, or passed over. -/
def consumeScan (i rounds : Nat) : Nat → Path
  | 0 => leaveQueue i 0
  | left + 1 =>
    pick (fun n => match n with
      | 0 => deliver i rounds
      | 1 => deadLetter .queue i (fun routed =>
          if routed = 0 then deliver i rounds else consumeScan i rounds left)
      | _ => consumeScan i rounds left)

/-- `queue_consume_for_owner`. -/
def queueConsume (i rounds : Nat) : Path :=
  withQueue i (-1) (-1) (reapQueue .queue i (.read (fun s => consumeScan i rounds (s.depth i))))

/-- `queue_consume_for_consumer` looks the consumer up first. -/
def queueConsumeForConsumer (i rounds : Nat) : Path :=
  .lock .store .store (either (.unlock .store (queueConsume i rounds)) (leaveStore 0))

/-- The scan of a batch: messages taken, out of deliveries, or passed over. The deliveries are logged
together at its end, and before that each needs memory for its copy. -/
def consumeBatchScan (i : Nat) (picked : Path) : Nat → Path
  | 0 => picked
  | left + 1 =>
    let take := either (consumeBatchScan i picked left) (leaveQueue i (-1))
    pick (fun n => match n with
      | 0 => take
      | 1 => deadLetter .queue i (fun routed =>
          if routed = 0 then take else consumeBatchScan i picked left)
      | 2 => picked
      | _ => consumeBatchScan i picked left)

/-- `queue_consume_batch`: the wait is inside the queue lock. -/
def queueConsumeBatch (i rounds : Nat) : Path :=
  withQueue i (-1) (-1)
    (reapQueue .queue i
      (.read (fun s =>
        pick (fun n => match n with
          | 0 => consumeBatchScan i
              (appendBatchRecords (joinSync rounds (leaveQueue i 0) (leaveQueue i (-1)))
                (leaveQueue i (-1)))
              (s.depth i)
          | 1 => leaveQueue i 0
          | _ => leaveQueue i (-1)))))

/-- A settled delivery: its record, the sync, and the change. -/
def settle (change : Shared → Shared) (settled refused : Path) : Path :=
  appendRecord (either (syncLog (.write change settled) refused) (.write change settled)) refused

/-- `queue_ack_for_owner`. -/
def queueAck (i : Nat) : Path :=
  withQueue i (-1) (-1)
    (either (settle (Shared.remove i) (leaveQueue i 1) (leaveQueue i (-1))) (leaveQueue i 0))

/-- `queue_nack_for_owner_delay`. -/
def queueNack (i : Nat) : Path :=
  withQueue i (-1) (-1)
    (pick (fun n => match n with
      | 0 => settle id (leaveQueue i 1) (leaveQueue i (-1))
      | 1 => deadLetter .queue i (leaveQueue i)
      | 2 => settle (Shared.remove i) (leaveQueue i 1) (leaveQueue i (-1))
      | _ => leaveQueue i 0))

/-! ## Batches of acknowledgements -/

/-- The first pass of `ack_nack_batch_locked`: each tag is passed over, logged, or dead-lettered. -/
def settleTags (i : Nat) (failed next : Path) : Nat → Path
  | 0 => next
  | left + 1 =>
    pick (fun n => match n with
      | 0 => appendRecord (settleTags i failed next left) failed
      | 1 => deadLetter .queue i (fun routed =>
          if routed < 0 then failed else settleTags i failed next left)
      | _ => settleTags i failed next left)

/-- The second pass applies what was logged. -/
def applyTags (i : Nat) (next : Path) : Nat → Path
  | 0 => next
  | left + 1 => either (.write (Shared.remove i) (applyTags i next left)) (applyTags i next left)

def ackNackBatchLocked (i count : Nat) (failed settled : Path) : Path :=
  let applied := applyTags i settled count
  settleTags i failed (either (syncLog applied failed) applied) count

/-- What the source does on an error: it releases the store lock, and its caller the queue lock. -/
def batchFailed (i : Nat) : Path := .unlock .store (leaveQueue i (-1))

/-- `queue_ack_batch` and `queue_nack_batch`, with the error path as a parameter. -/
def settleBatch (failed : Nat → Path) (i count : Nat) : Path :=
  if count = 0 then .done (-1)
  else
    .lock .store .store
      (either
        (.unlock .store
          (.lock .first (.queue i) (ackNackBatchLocked i count (failed i) (leaveQueue i 0))))
        (leaveStore (-1)))

def queueAckBatch (i count : Nat) : Path := settleBatch batchFailed i count

/-! ## Several queues -/

def climbTargets (next : Path) : List Nat → Path
  | [] => next
  | i :: rest => .lock .climb (.queue i) (climbTargets next rest)

def lockTargets (next : Path) : List Nat → Path
  | [] => next
  | i :: rest => .lock .first (.queue i) (climbTargets next rest)

def unlockTargets (next : Path) : List Nat → Path
  | [] => next
  | i :: rest => .unlock (.queue i) (unlockTargets next rest)

/-- The capacity pass over the targets; `owned` are the queues whose room is this thread's. -/
def capacityPass (under : Under) (room full : List Nat → Path) : List Nat → List Nat → Path
  | [], owned => room owned
  | i :: rest, owned =>
    reapQueue under i (enter i (fun mine =>
      let owned' := if mine then i :: owned else owned
      .read (fun s =>
        if s.room i 1 then capacityPass under room full rest owned' else full owned')))

def publishEach (published refused : Path) : List Nat → Path
  | [] => published
  | i :: rest =>
    appendRecord (either (.write (Shared.link i) (publishEach published refused rest)) refused)
      refused

/-- `exchange_publish`: the targets are locked in creation order. -/
def exchangePublish (targets : List Nat) (rounds : Nat) : Path :=
  let sorted := targets.dedup.insertionSort (· ≤ ·)
  let refuse (owned : List Nat) : Path := leaveAll (unlockTargets (.done (-1)) sorted) owned
  let published (owned : List Nat) : Path :=
    leaveAll (unlockTargets (joinSync rounds (.done 0) (.done (-1))) sorted) owned
  .lock .store .store
    (if sorted = [] then either (leaveStore 0) (leaveStore (-1))
    else
      .unlock .store
        (lockTargets
          (capacityPass .queue (fun owned => publishEach (published owned) (refuse owned) sorted)
            refuse sorted [])
          sorted))

/-! ## Job commits -/

/-- The queues of a commit, the older one first. -/
def jobQueues (i : Nat) : Option Nat → List Nat
  | none => [i]
  | some j => if j = i then [i] else if i < j then [i, j] else [j, i]

/-- The effects behind the commit point: the output is linked before the input goes. -/
def jobApply (i : Nat) (output : Option Nat) (leave : Int → Path) : Path :=
  match output with
  | none => .write (Shared.remove i) (leave 1)
  | some j =>
    if j = i then
      either (.write (Shared.linkBeside i) (.write (Shared.removeBeside i) (leave 1))) (leave (-1))
    else either (.write (Shared.link j) (.write (Shared.remove i) (leave 1))) (leave (-1))

/-- `prepare` returns with the engine locked; `apply` and `cancel` release it. -/
def jobWrite (i : Nat) (output : Option Nat) (leave : Int → Path) : Path :=
  .lock .state .state
    (either
      (appendRecord (.unlock .state (jobApply i output leave)) (.unlock .state (leave (-1))))
      (.unlock .state (leave 0)))

/-- Receipt, fence and room, with the queues locked. Input and output in one queue count as net. -/
def jobLocked (i : Nat) (output : Option Nat) (leave : Int → Path) : Path :=
  .lock .state .state (.unlock .state
    (either
      (match output with
      | none => jobWrite i none leave
      | some j =>
        findRoom j (if j = i then 0 else 1)
          (fun mine => jobWrite i (some j) (fun code => Locks.leave j mine (leave code)))
          (leave 0))
      (leave 0)))

def queueJobCommit (i : Nat) (output : Option Nat) : Path :=
  .lock .store .store
    (.unlock .store
      (either
        (.lock .store .store
          (.unlock .store
            (either
              (lockTargets
                (jobLocked i output (fun code => unlockTargets (.done code) (jobQueues i output)))
                (jobQueues i output))
              (.done 0))))
        (.done 0)))

/-! ## Transactions -/

/-- `tx_materialize_locked`. -/
def materialize (next : Path) : List Nat → Path
  | [] => next
  | i :: rest =>
    .lock .first (.queue i)
      (either (.write (Shared.link i) (.unlock (.queue i) (materialize next rest)))
        (.unlock (.queue i) (materialize next rest)))

/-- `queue_tx_prepare` keeps the store lock when it succeeds. -/
def queueTxPrepare (targets : List Nat) (prepared : List Nat → Path) : Path :=
  let refuse (owned : List Nat) : Path := leaveAll (leaveStore (-1)) owned
  .lock .store .store
    (either
      (capacityPass .store
        (fun owned =>
          either (appendRecord (prepared owned) (refuse owned)) (refuse owned))
        refuse targets.dedup [])
      (either (leaveStore 1) (leaveStore (-1))))

def queueTxCommit (targets owned : List Nat) : Path :=
  appendRecord (materialize (leaveAll (leaveStore 0) owned) targets.dedup)
    (leaveAll (leaveStore (-1)) owned)

def queueTxAbort (owned : List Nat) : Path := leaveAll (leaveStore 0) owned

/-- A transaction as its thread runs it. -/
def transaction (targets : List Nat) : Path :=
  queueTxPrepare targets (fun owned => either (queueTxCommit targets owned) (queueTxAbort owned))

/-- `queue_tx_resolve`. -/
def queueTxResolve (targets : List Nat) : Path :=
  .lock .store .store
    (either
      (either
        (appendRecord (.write Shared.overlap (materialize (leaveStore 1) targets.dedup))
          (leaveStore (-1)))
        (leaveStore 1))
      (leaveStore 0))

/-! ## Checkpoints -/

def collectQueues (next : Path) : List Nat → Path
  | [] => next
  | i :: rest => .lock .collect (.queue i) (collectQueues next rest)

/-- A callback of the engine that takes its lock. -/
def engineCallback (next : Path) : Path := either (.lock .state .state (.unlock .state next)) next

/-- The file is written and renamed with every lock held; the log lock is taken twice for the swap. -/
def checkpointWrite (leave : Int → Path) : Path :=
  engineCallback
    (either
      (.lock .wal .wal (.unlock .wal
        (either (.lock .wal .wal (.unlock .wal (leave 1))) (leave (-1)))))
      (leave (-1)))

/-- `queue_checkpoint_body`: the queues are locked in list order, the newest first. -/
def queueCheckpoint : Path :=
  .lock .wal .wal (.unlock .wal
    (either
      (.lock .store .store (.read (fun s =>
        let queues := List.range s.slots.length
        collectQueues
          (engineCallback
            (pick (fun n => match n with
              | 0 => checkpointWrite (fun code => unlockTargets (leaveStore code) queues)
              | 1 => unlockTargets (leaveStore 0) queues.reverse
              | _ => unlockTargets (leaveStore (-1)) queues)))
          queues.reverse)))
      (.done (-1))))

/-! ## The operations -/

/-- Every operation that one call makes, but for the batches of acknowledgements. A transaction is
made by two calls; it is listed as its thread runs it. -/
inductive QueueCall : Set Path where
  | storeRead : QueueCall storeRead
  | storeRecord : QueueCall storeRecord
  | declare (maxDepth rounds : Nat) : QueueCall (queueDeclare maxDepth rounds)
  | jobRecordAppend : QueueCall jobRecordAppend
  | reap : QueueCall queueReap
  | walk : QueueCall queueWalk
  | consumerUnregister : QueueCall queueConsumerUnregister
  | read (i : Nat) : QueueCall (queueRead i)
  | publish (i rounds : Nat) : QueueCall (queuePublish i rounds)
  | publishBatch (i count rounds : Nat) : QueueCall (queuePublishBatch i count rounds)
  | purge (i rounds : Nat) : QueueCall (queuePurge i rounds)
  | delete (i rounds : Nat) : QueueCall (queueDelete i rounds)
  | consume (i rounds : Nat) : QueueCall (queueConsume i rounds)
  | consumeForConsumer (i rounds : Nat) : QueueCall (queueConsumeForConsumer i rounds)
  | consumeBatch (i rounds : Nat) : QueueCall (queueConsumeBatch i rounds)
  | ack (i : Nat) : QueueCall (queueAck i)
  | nack (i : Nat) : QueueCall (queueNack i)
  | exchangePublish (targets : List Nat) (rounds : Nat) :
      QueueCall (exchangePublish targets rounds)
  | jobCommit (i : Nat) (output : Option Nat) : QueueCall (queueJobCommit i output)
  | transaction (targets : List Nat) : QueueCall (transaction targets)
  | txResolve (targets : List Nat) : QueueCall (queueTxResolve targets)
  | checkpoint : QueueCall queueCheckpoint

end KuttiDB.QueueStore.Locks
