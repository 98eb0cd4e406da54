/- # KuttiDB.Job.Engine -- durable state entries, receipts and delivery proofs

The in-memory side of the job engine: the state index, the receipt ledger and the proof registry.
The source keeps each index in hash buckets whose chains are newest first; a lookup walks one chain.
One list, newest first, gives the same answer to every lookup, so the buckets are only kept where
they show: the incremental receipt collector visits a window of them.
-/
import KuttiDB.Job.Digest
import KuttiDB.Theory.FirstMatch

namespace KuttiDB.Job

open KuttiDB.QueueStore (Bytes JobKind)
open KuttiDB.Theory (updateFirst)

set_option autoImplicit false

def jobReceiptBuckets : Nat := 4096
def jobGcBudget : Nat := 64

/-- `sizeof (JobReceiptRec)` and `JOB_RECEIPT_OVERHEAD`. -/
def receiptSize : Nat := 152 + 96

structure JobEngineConfig where
  stateMaxBytes : Nat
  receiptsMaxBytes : Nat
  receiptsMaxCount : Nat
  receiptRetentionMs : Nat
  maxOpBytes : Nat
  proofCapacity : Nat
  deriving DecidableEq, Repr

structure JobStateEntry where
  key : Bytes
  value : Bytes
  version : Nat
  lastCommitId : Nat
  deriving DecidableEq, Repr

structure JobReceiptRec where
  opId : Bytes
  digest : Bytes
  kind : JobKind
  commitId : Nat
  stateVersion : Nat
  inputQueue : Bytes
  inputMessageId : Nat
  outputQueue : Bytes
  outputMessageId : Nat
  completedAtMs : Nat
  receiptExpiresMs : Nat
  deriving DecidableEq, Repr

structure JobProof where
  proof : Bytes
  epoch : Bytes
  queue : Bytes
  queueIncarnation : Nat
  messageId : Nat
  deliveryTag : Nat
  owner : Nat
  expiresMonoMs : Nat
  deriving DecidableEq, Repr

/-- The engine. `storeId` is `none` until an identity record was replayed or written. -/
structure JobEngine where
  cfg : JobEngineConfig
  storeId : Option Bytes
  failed : Bool
  attached : Bool
  state : List JobStateEntry
  receipts : List JobReceiptRec
  proofs : List JobProof
  stateEntries : Nat
  stateBytes : Nat
  receiptCount : Nat
  receiptBytes : Nat
  versionHwm : Nat
  commitHwm : Nat
  gcCursor : Nat
  proofGcCursor : Nat
  inDoubtOp : Option Bytes
  epoch : Bytes
  deriving DecidableEq, Repr

def jobIdLen : Nat := 16

/-- A zero setting selects its default. -/
def orDefault (value default : Nat) : Nat := if value = 0 then default else value

def jobEngineCreate (cfg : JobEngineConfig) (epoch : Bytes) : JobEngine where
  cfg :=
    { stateMaxBytes := orDefault cfg.stateMaxBytes (64 * 2 ^ 20)
      receiptsMaxBytes := orDefault cfg.receiptsMaxBytes (64 * 2 ^ 20)
      receiptsMaxCount := orDefault cfg.receiptsMaxCount 100000
      receiptRetentionMs := orDefault cfg.receiptRetentionMs 86400000
      maxOpBytes := orDefault cfg.maxOpBytes 131072
      proofCapacity := orDefault cfg.proofCapacity 4096 }
  storeId := none
  failed := false
  attached := false
  state := []
  receipts := []
  proofs := []
  stateEntries := 0
  stateBytes := 0
  receiptCount := 0
  receiptBytes := 0
  versionHwm := 0
  commitHwm := 0
  gcCursor := 0
  proofGcCursor := 0
  inDoubtOp := none
  epoch := epoch

/-! ## Receipt ledger -/

def fnv1a (data : Bytes) : UInt32 :=
  data.foldl (fun h b => (h ^^^ b.toUInt32) * 16777619) 2166136261

def jobReceiptBucket (opId : Bytes) : Nat := (fnv1a opId).toNat % jobReceiptBuckets

def jobReceiptFindLocked (je : JobEngine) (opId : Bytes) : Option JobReceiptRec :=
  je.receipts.find? (fun r => r.opId == opId)

def JobReceiptRec.walFootprint (r : JobReceiptRec) : Nat :=
  receiptSize + r.inputQueue.length + r.outputQueue.length

def pushReceipt (je : JobEngine) (r : JobReceiptRec) : JobEngine :=
  { je with
    receipts := r :: je.receipts
    receiptCount := je.receiptCount + 1
    receiptBytes := je.receiptBytes + r.walFootprint }

/-- Insertion by replay: the same receipt again is accepted, a conflicting one is refused. -/
def jobReceiptInsertLocked (je : JobEngine) (r : JobReceiptRec) : Option JobEngine :=
  match jobReceiptFindLocked je r.opId with
  | some existing =>
      if existing.commitId = r.commitId && existing.stateVersion = r.stateVersion &&
          existing.digest = r.digest then some je
      else none
  | none => some (pushReceipt je r)

/-- Insertion by a live call: an existing receipt of the operation stays. -/
def receiptLinkLocked (je : JobEngine) (r : JobReceiptRec) : JobEngine :=
  match jobReceiptFindLocked je r.opId with
  | some _ => je
  | none => pushReceipt je r

/-- The collector visits the next `jobGcBudget` buckets. -/
def gcRemoves (je : JobEngine) (now : Nat) (r : JobReceiptRec) : Bool :=
  (jobReceiptBucket r.opId + jobReceiptBuckets - je.gcCursor) % jobReceiptBuckets < jobGcBudget &&
    r.receiptExpiresMs != 0 && r.receiptExpiresMs ≤ now

def jobReceiptGcLocked (je : JobEngine) (now : Nat) : JobEngine :=
  let removed := je.receipts.filter (gcRemoves je now)
  { je with
    receipts := je.receipts.filter (fun r => !gcRemoves je now r)
    receiptCount := je.receiptCount - removed.length
    receiptBytes := je.receiptBytes - (removed.map JobReceiptRec.walFootprint).sum
    gcCursor := (je.gcCursor + jobGcBudget) % jobReceiptBuckets }

end KuttiDB.Job
