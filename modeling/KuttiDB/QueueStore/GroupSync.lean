/- # KuttiDB.QueueStore.GroupSync -- the log as threads write, sync and replace it

The log functions of the queue store once more, now with what `Store` leaves out: the staging
buffer, the two sequence counters, the leader of a group sync, the file behind the descriptor and
the file at the path. What a record says does not matter here, only which operation it logs. A
checkpoint starts a file that has the effect of every operation in memory. Among its records are the
receipts that have not expired. `hook_checkpoint_emit` writes the kind of a receipt where `replay_log`
expects the format, 1, and opening the file is refused at any other byte: the receipt of a completion
has kind 1 and passes, those of state puts (2) and deletes (3) do not (`refused`).

A checkpoint renames its file over the log, opens it, then stores the counters. Threads that hold
no lock of the queue store go on meanwhile:

* a state mutation appends under the state lock and the log lock alone;
* a thread in the durability wait holds the log lock alone, and not even that while it syncs.

`cut` and `swapping` mark the phases of a checkpoint, `marks` the log position each number of the
counter stands for, `waiting` the numbers waited for, `acked` and `mutated` the operations reported
as done. No program reads them, except that a checkpoint finds the receipts of the mutations, which
are linked before the state lock is let go. Results of writes and syncs and which receipts have
expired are arguments.
-/
import KuttiDB.Theory.Interleaving

namespace KuttiDB.QueueStore.GroupSync

open KuttiDB.Theory

set_option autoImplicit false

/-! ## State -/

/-- A log file: the operations its checkpoint has the effect of, the number of records that took,
the operations logged behind it, how many of those a finished sync covers, and whether a record of the
checkpoint has a format that replay refuses. -/
structure LogFile where
  base : List Nat
  folded : Nat
  records : List Nat
  safe : Nat
  refused : Bool
  deriving DecidableEq, Repr

/-- What survives a crash. -/
def LogFile.durable (f : LogFile) : List Nat := f.base ++ f.records.take f.safe

/-- What a restart after a crash finds: a file with a refused record is not opened at all. -/
def LogFile.found (f : LogFile) : List Nat := if f.refused then [] else f.durable

/-- How many records of the file are covered. -/
def LogFile.covered (f : LogFile) : Nat := f.folded + f.safe

structure Wal where
  file : LogFile
  gen : Nat
  renamed : Option LogFile
  staged : List Nat
  walSeq : Nat
  syncedSeq : Nat
  syncer : Bool
  failed : Bool
  applied : List Nat
  cut : Option LogFile
  swapping : Bool
  marks : List Nat
  waiting : List Nat
  acked : List Nat
  mutated : List Nat
  deriving DecidableEq, Repr

def Wal.initial : Wal :=
  ⟨⟨[], 0, [], 0, false⟩, 0, none, [], 0, 0, false, false, [], none, false, [], [], [], []⟩

/-- The file a restart reads: the renamed one until the descriptor is opened again. -/
def Wal.path (s : Wal) : LogFile := s.renamed.getD s.file

/-- What was logged behind the checkpoint of the current file, written or staged. -/
def Wal.log (s : Wal) : List Nat := s.file.records ++ s.staged

/-- `syncer` is no lock of the source: a leader holds it from raising the flag to clearing it. -/
inductive WalLock where
  | store
  | queue (i : Nat)
  | state
  | wal
  | syncer
  deriving DecidableEq, Repr

inductive WalSite where
  | guard
  | append
  | stateAppend
  | enter
  | wait
  | lead
  | sync
  | checkpoint
  | swap
  deriving DecidableEq, Repr

abbrev WalThread := Prog Wal WalLock WalSite Int

/-! ## Effects -/

namespace Wal

def fail (s : Wal) : Wal := { s with failed := true }

def stage (op : Nat) (s : Wal) : Wal := { s with staged := s.staged ++ [op] }

def flush (s : Wal) : Wal :=
  { s with file := { s.file with records := s.file.records ++ s.staged }, staged := [] }

/-- A sync that began when the file `gen` had `count` records has finished. -/
def synced (gen count : Nat) (s : Wal) : Wal :=
  if s.gen = gen then { s with file := { s.file with safe := max s.file.safe count } } else s

def bump (s : Wal) : Wal := { s with walSeq := s.walSeq + 1, marks := s.marks ++ [s.log.length] }

/-- The sync under the lock covered every record so far. -/
def publishAll (s : Wal) : Wal := { s with syncedSeq := s.walSeq }

def publish (target : Nat) (s : Wal) : Wal := { s with syncedSeq := max s.syncedSeq target }

def storeTarget (target : Nat) (s : Wal) : Wal := { s with syncedSeq := target }

def setSyncer (flag : Bool) (s : Wal) : Wal := { s with syncer := flag }

def apply (ops : List Nat) (s : Wal) : Wal := { s with applied := ops ++ s.applied }

/-- Begins to wait for the number the counter has now. -/
def await (s : Wal) : Wal := { s with waiting := s.walSeq :: s.waiting }

def leave (target : Nat) (s : Wal) : Wal := { s with waiting := s.waiting.erase target }

def ack (ops : List Nat) (s : Wal) : Wal := { s with acked := ops ++ s.acked }

def ackMutation (op : Nat) (s : Wal) : Wal := { s with mutated := op :: s.mutated }

/-- The file the checkpoint writes now, synced as a whole before it is renamed. The receipts of the
mutations in `expired` are left out. -/
def snapshot (count : List Nat → Nat) (expired : List Nat) (s : Wal) : LogFile :=
  ⟨s.applied, count s.applied, [], 0, s.mutated.any (· ∉ expired)⟩

def takeCut (count : List Nat → Nat) (expired : List Nat) (s : Wal) : Wal :=
  { s with cut := some (s.snapshot count expired) }

def dropCut (s : Wal) : Wal := { s with cut := none }

def rename (f : LogFile) (s : Wal) : Wal := { s with renamed := some f }

def discard (s : Wal) : Wal := { s with staged := [], swapping := true }

def reopenFile (f : LogFile) (s : Wal) : Wal :=
  { s with file := f, gen := s.gen + 1, renamed := none, marks := [] }

def storeWalSeq (count : Nat) (s : Wal) : Wal := { s with walSeq := count }

def storeSyncedSeq (count : Nat) (s : Wal) : Wal :=
  { s with syncedSeq := count, swapping := false, cut := none }

end Wal

/-! ## Appends and syncs -/

/-- Results: a record fits the buffer, the buffer is written, the file is synced. -/
structure Io where
  stages : Bool
  writes : Bool
  syncs : Bool
  deriving DecidableEq, Repr

/-- How a record is appended: written at once, left in the buffer, or written and synced. -/
inductive AppendMode where
  | plain
  | deferred
  | synced
  deriving DecidableEq, Repr

/-- Failure is latched under the log lock. -/
def refuseThread (refused : WalThread) : WalThread := .write Wal.fail (.unlock .wal refused)

/-- A sync covers what the file has when the call begins. -/
def syncThread (ok : Bool) (covered refused : WalThread) : WalThread :=
  .read (fun s =>
    if ok then .write (Wal.synced s.gen s.file.records.length) covered else refused)

/-- A record whose write or sync fails stays where it got to and is not counted. -/
def appendThread (site : WalSite) (mode : AppendMode) (op : Nat) (io : Io)
    (written refused : WalThread) : WalThread :=
  .read (fun s =>
    if s.failed then refused
    else
      .lock site .wal
        (if !io.stages then refuseThread refused
        else
          .write (Wal.stage op)
            (match mode with
            | .deferred => .write Wal.bump (.unlock .wal written)
            | .plain =>
                if !io.writes then refuseThread refused
                else .write Wal.flush (.write Wal.bump (.unlock .wal written))
            | .synced =>
                if !io.writes then refuseThread refused
                else
                  .write Wal.flush (syncThread io.syncs
                    (.write Wal.bump (.write Wal.publishAll (.unlock .wal written)))
                    (refuseThread refused)))))

/-- Records one after the other; `applies` if each takes effect right behind its record. -/
def appendEachThread (mode : AppendMode) (applies : Bool) (io : Io) (written refused : WalThread) :
    List Nat → WalThread
  | [] => written
  | op :: rest =>
      let go := appendEachThread mode applies io written refused rest
      appendThread .append mode op io (if applies then .write (Wal.apply [op]) go else go) refused

def stageEachThread (next : WalThread) : List Nat → WalThread
  | [] => next
  | op :: rest => .write (Wal.stage op) (.write Wal.bump (stageEachThread next rest))

/-- A batch under one hold of the log lock, counted as it is staged. If nothing reached the file a
failure takes the batch back, otherwise the records stay. -/
def appendBatchThread (io : Io) (ops : List Nat) (written refused : WalThread) : WalThread :=
  if ops = [] then written
  else
    .read (fun s =>
      if s.failed then refused
      else
        .lock .append .wal
          (if !io.stages then refuseThread refused
          else
            stageEachThread
              (if !io.writes then refuseThread refused
              else .write Wal.flush (.unlock .wal written))
              ops))

def syncLogThread (io : Io) (done refused : WalThread) : WalThread :=
  .lock .sync .wal (.read (fun s =>
    if s.walSeq ≤ s.syncedSeq then .unlock .wal done
    else if !io.writes then refuseThread refused
    else
      .write Wal.flush (.unlock .wal (syncThread io.syncs
        (.lock .sync .wal (.write (Wal.publish s.walSeq) (.unlock .wal done)))
        (.lock .sync .wal (refuseThread refused))))))

/-- The leader's round: it publishes the number it read before it let the lock go. -/
def leadThread (io : Io) (again failure : WalThread) : WalThread :=
  .lock .lead .syncer
    (.write (Wal.setSyncer true) (.read (fun s =>
      if !io.writes then
        .write Wal.fail (.write (Wal.setSyncer false) (.unlock .syncer failure))
      else
        .write Wal.flush (.unlock .wal (syncThread io.syncs
          (.lock .wait .wal (.write (Wal.setSyncer false) (.unlock .syncer
            (.write (Wal.publish s.walSeq) again))))
          (.lock .wait .wal (.write (Wal.setSyncer false) (.unlock .syncer
            (.write Wal.fail failure)))))))))

/-- One record outstanding: the sync runs under the lock. -/
def fastThread (io : Io) (target : Nat) (success failure : WalThread) : WalThread :=
  if !io.writes then .write Wal.fail failure
  else
    .write Wal.flush (syncThread io.syncs
      (.write (Wal.storeTarget target) success) (.write Wal.fail failure))

/-- The loop of the durability wait, entered and left with the log lock held. `tired` is where the
model stops after so many rounds; the source goes on. -/
def waitThread (io : Nat → Io) (target : Nat) (success failure tired : WalThread) :
    Nat → WalThread
  | 0 => tired
  | round + 1 =>
      let again := waitThread io target success failure tired round
      let lead := leadThread (io round) again failure
      .read (fun s =>
        if s.failed then failure
        else .read (fun s =>
          if target ≤ s.syncedSeq then success
          else .read (fun s =>
            if s.syncer then .unlock .wal (.lock .wait .wal again)
            else .read (fun s =>
              if s.walSeq = target then
                .read (fun s =>
                  if s.syncedSeq = target - 1 then fastThread (io round) target success failure
                  else lead)
              else lead))))

/-- Takes the log lock and waits for everything counted so far, then reports the operations. -/
def durableThread (io : Nat → Io) (limit : Nat) (ops : List Nat) (leave : Int → WalThread) :
    WalThread :=
  .lock .enter .wal (.act Wal.await (fun s =>
    let out (code : Int) : WalThread :=
      .write (Wal.leave s.walSeq) (.unlock .wal (leave code))
    waitThread io s.walSeq (.write (Wal.ack ops) (out 0)) (out (-1)) (out 2) limit))

/-! ## Operations -/

def lockAll (site : WalSite) (next : WalThread) : List WalLock → WalThread
  | [] => next
  | l :: rest => .lock site l (lockAll site next rest)

def unlockAll (next : WalThread) : List WalLock → WalThread
  | [] => next
  | l :: rest => .unlock l (unlockAll next rest)

/-- Where an addition looks whether the counter moved: not at all (consume), before it lets its
locks go (declare), afterwards (publish, purge, delete), or to wait with them held (batches). -/
inductive Look where
  | never
  | inside
  | outside
  | holding
  deriving DecidableEq, Repr

/-- What an addition does when its records are written and applied. -/
def settleDownThread (look : Look) (guards : List WalLock) (ops : List Nat) (start : Nat)
    (io : Nat → Io) (limit : Nat) : WalThread :=
  let wait := durableThread io limit ops (fun code => .done code)
  let report : WalThread := .write (Wal.ack ops) (.done 0)
  match look with
  | .never => unlockAll wait guards
  | .inside => .read (fun s => unlockAll (if s.walSeq = start then report else wait) guards)
  | .outside => unlockAll (.read (fun s => if s.walSeq = start then report else wait)) guards
  | .holding =>
      .read (fun s =>
        if s.walSeq = start then .write (Wal.ack ops) (unlockAll (.done 0) guards)
        else durableThread io limit ops (fun code => unlockAll (.done code) guards))

/-- Declare, publish, purge, delete, consume and exchange publish. -/
def additionThread (look : Look) (guards : List WalLock) (ops : List Nat) (io : Io)
    (rounds : Nat → Io) (limit : Nat) : WalThread :=
  lockAll .guard
    (.read (fun s =>
      appendEachThread .plain true io (settleDownThread look guards ops s.walSeq rounds limit)
        (unlockAll (.done (-1)) guards) ops))
    guards

/-- Batch publish and batch consume. -/
def batchThread (guards : List WalLock) (ops : List Nat) (io : Io) (rounds : Nat → Io)
    (limit : Nat) : WalThread :=
  lockAll .guard
    (.read (fun s =>
      appendBatchThread io ops
        (.write (Wal.apply ops) (settleDownThread .holding guards ops s.walSeq rounds limit))
        (unlockAll (.done (-1)) guards)))
    guards

/-- Acknowledge, reject, dead-letter: applied once the records are synced. The batch forms defer the
write and skip the sync when the counter did not move. -/
def settleThread (mode : AppendMode) (looks : Bool) (guards : List WalLock) (ops : List Nat)
    (io sync : Io) : WalThread :=
  let finish : WalThread :=
    .write (Wal.apply ops) (.write (Wal.ack ops) (unlockAll (.done 1) guards))
  let refused : WalThread := unlockAll (.done (-1)) guards
  let covered : WalThread := syncLogThread sync finish refused
  lockAll .guard
    (.read (fun start =>
      appendEachThread mode false io
        (if looks then .read (fun s => if s.walSeq = start.walSeq then finish else covered)
        else covered)
        refused ops))
    guards

/-- Exchange, transaction and consumer records, and completions (which hold the state lock, too):
synced under the log lock. -/
def recordThread (guards : List WalLock) (op : Nat) (io : Io) : WalThread :=
  lockAll .guard
    (appendThread .append .synced op io
      (.write (Wal.apply [op]) (.write (Wal.ack [op]) (unlockAll (.done 0) guards)))
      (unlockAll (.done (-1)) guards))
    guards

/-- A state put or delete. -/
def mutationThread (op : Nat) (io : Io) : WalThread :=
  .lock .guard .state
    (appendThread .stateAppend .synced op io
      (.write (Wal.apply [op]) (.write (Wal.ackMutation op) (.unlock .state (.done 0))))
      (.unlock .state (.done (-1))))

/-! ## Checkpoint -/

/-- How far a checkpoint gets: its file is not written, the directory is not synced after the rename
(the old descriptor stays in use), the file does not open again, or all is well. -/
inductive CheckpointEnd where
  | unwritten
  | unsynced
  | unopened
  | published
  deriving DecidableEq, Repr

/-- The rest of a checkpoint, with all locks of the queue store held. -/
def swapThread (f : LogFile) (outcome : CheckpointEnd) (leave : Int → WalThread) : WalThread :=
  match outcome with
  | .unwritten => .write Wal.dropCut (leave (-1))
  | .unsynced => .write (Wal.rename f) (.write Wal.dropCut (leave (-1)))
  | .unopened =>
      .write (Wal.rename f) (.lock .swap .wal (.write Wal.discard (.unlock .wal
        (.write (Wal.reopenFile f) (.write Wal.fail (leave (-1)))))))
  | .published =>
      .write (Wal.rename f) (.lock .swap .wal (.write Wal.discard (.unlock .wal
        (.write (Wal.reopenFile f) (.lock .swap .wal (.unlock .wal
          (.write (Wal.storeWalSeq f.folded)
            (.write (Wal.storeSyncedSeq f.folded) (leave 1)))))))))

/-- `count` says how many records the checkpoint of these operations takes. -/
def checkpointThread (guards : List WalLock) (count : List Nat → Nat) (expired : List Nat) (io : Io)
    (outcome : CheckpointEnd) : WalThread :=
  let leave (code : Int) : WalThread := unlockAll (.done code) guards
  .lock .checkpoint .wal
    (if !io.writes then refuseThread (.done (-1))
    else
      .write Wal.flush (.unlock .wal (lockAll .checkpoint
        (.lock .checkpoint .state (.act (Wal.takeCut count expired) (fun s =>
          .unlock .state (swapThread (s.snapshot count expired) outcome leave))))
        guards)))

end KuttiDB.QueueStore.GroupSync
