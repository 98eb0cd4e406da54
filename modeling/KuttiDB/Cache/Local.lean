/- # KuttiDB.Cache.Local -- the sharded in-process cache

The cache of `kuttidb.c`: a power of two of shards, each a table of chains that doubles when it holds
more than two entries a bucket. A put overwrites in place when the new record fits the block of the
old one, replaces the block where it stands otherwise, and prepends a key that is new. Removals are
lazy (a get that finds its key expired), explicit (delete), by the sweep, or by budget eviction; only
some of them advance `revision`.

Left out: the bytes of the slab allocator and the memory counters (allocation succeeds; the size
class of an entry is kept, because it decides between overwriting and replacing), the random numbers
that choose what to evict (arguments of `evict`), and the locks. Each function below is one critical
section, `get` and `sweepExpired` are several of them in a row.
-/
import KuttiDB.QueueStore.Record
import KuttiDB.Theory.Expiring

namespace KuttiDB.Cache

open KuttiDB.QueueStore
open KuttiDB.Theory

set_option autoImplicit false

/-! ## Hashing -/

/-- Adds one word, multiplies and rotates by 13. -/
def mixWord (h word : Nat) : Nat :=
  let m := (h + word) % 2 ^ 32 * 0xc2b2ae35 % 2 ^ 32
  (m <<< 13) % 2 ^ 32 ||| m >>> 19

/-- Four bytes at a time, little-endian, then the rest one by one. -/
def mixBytes (h : Nat) : Bytes → Nat
  | a :: b :: c :: d :: rest =>
      mixBytes (mixWord h (a.toNat + b.toNat * 2 ^ 8 + c.toNat * 2 ^ 16 + d.toNat * 2 ^ 24)) rest
  | a :: rest => mixBytes (mixWord h a.toNat) rest
  | [] => h

/-- The finalizer of murmur3. -/
def finish (h : Nat) : Nat :=
  let h := h ^^^ h >>> 16
  let h := h * 0x85ebca6b % 2 ^ 32
  let h := h ^^^ h >>> 13
  let h := h * 0xc2b2ae35 % 2 ^ 32
  (h ^^^ h >>> 16) % 2 ^ 32

@[irreducible] def hashKey (key : Bytes) : Nat := finish (mixBytes (key.length % 2 ^ 32) key)

/-! ## Expiry -/

/-- `UINT32_MAX`. -/
def lastSecond : Nat := 2 ^ 32 - 1

/-- `max_add`. -/
def longestTtl : Nat := 0xFFFFFFF0

/-- `kuttidb_expiry_from_ttl` at the time `now`. -/
def expiryFromTtl (now ttlMs : Nat) : Nat :=
  if ttlMs = 0 then 0
  else
    let secs := ttlMs / 1000 + (if ttlMs % 1000 ≠ 0 then 1 else 0)
    let target := now + (if secs > longestTtl then longestTtl else secs)
    let target := if target > lastSecond then lastSecond else target
    let target := if target ≤ now ∧ now < lastSecond then now + 1 else target
    target % 2 ^ 32

/-! ## Entries -/

def entrySize : Nat := 32
def slabMaxEntry : Nat := 4096

def classSz : List Nat :=
  [48, 64, 80, 96, 128, 160, 192, 256, 320, 384, 512, 640, 768, 1024, 1280, 1536, 2048, 3072, 4096,
    6144, 8192, 12288, 16384, 24576, 32768, 49152, 65536]

/-- The size class of an entry; `none` for one with a block of its own. -/
def classFor (total : Nat) : Option Nat :=
  if total > slabMaxEntry then none else classSz.findIdx? (total ≤ ·)

structure Entry where
  hash : Nat
  key : Bytes
  value : Bytes
  exp : Nat
  cls : Option Nat
  deriving DecidableEq, Repr

namespace Entry

def named (h : Nat) (key : Bytes) (e : Entry) : Bool := e.hash == h && e.key == key

def isExpired (now : Nat) (e : Entry) : Bool := passed e.exp now

def capacity (e : Entry) : Nat :=
  match e.cls with
  | none => entrySize + e.key.length + e.value.length
  | some c => classSz.getD c 0

def create (h : Nat) (key value : Bytes) (exp : Nat) : Entry :=
  ⟨h, key, value, exp, classFor (entrySize + key.length + value.length)⟩

/-- In place when the record fits; otherwise a new block at the same link. -/
def overwrite (value : Bytes) (exp : Nat) (e : Entry) : Entry :=
  if entrySize + e.key.length + value.length ≤ e.capacity then { e with value := value, exp := exp }
  else create e.hash e.key value exp

def dated (e : Entry) : Dated Bytes Bytes := ⟨e.key, e.value, e.exp⟩

variable (h : Nat) (key value : Bytes) (exp : Nat)

@[simp] theorem create_key : (create h key value exp).key = key := rfl

@[simp] theorem create_hash : (create h key value exp).hash = h := rfl

@[simp] theorem create_dated : (create h key value exp).dated = ⟨key, value, exp⟩ := rfl

end Entry

/-- What an entry counts for in `ttl_entries`. -/
def ttlOf (exp : Nat) : Int := if exp = 0 then 0 else 1

/-! ## Shards -/

structure Shard where
  buckets : List (List Entry)
  count : Nat
  deriving DecidableEq, Repr

namespace Shard

def entries (s : Shard) : List Entry := s.buckets.flatten

def bucketOf (h : Nat) (s : Shard) : Nat := h &&& (s.buckets.length - 1)

def chain (h : Nat) (s : Shard) : List Entry := s.buckets.getD (s.bucketOf h) []

def find (h : Nat) (key : Bytes) (s : Shard) : Option Entry := (s.chain h).find? (Entry.named h key)

/-- Walks the old chains and pushes every entry on its new one. -/
def rehash (newn : Nat) (buckets : List (List Entry)) : List (List Entry) :=
  buckets.foldl (fun nb chain => chain.foldl
      (fun nb e => nb.modify (e.hash &&& (newn - 1)) (e :: ·)) nb)
    (List.replicate newn [])

def maybeResize (s : Shard) : Shard :=
  if s.count ≤ s.buckets.length * 2 then s
  else { s with buckets := rehash (s.buckets.length * 2) s.buckets }

/-- Changes one chain and sets the count. -/
def rechain (b : Nat) (f : List Entry → List Entry) (count : Nat) (s : Shard) : Shard :=
  ⟨s.buckets.modify b f, count⟩

def put (h : Nat) (key value : Bytes) (exp : Nat) (s : Shard) : Shard :=
  match s.find h key with
  | some _ => s.rechain (s.bucketOf h)
      (updateFirst (Entry.named h key) (Entry.overwrite value exp)) s.count
  | none => maybeResize
      (s.rechain (s.bucketOf h) (Entry.create h key value exp :: ·) (s.count + 1))

/-- `remove_locked` at the first entry of the key. -/
def remove (h : Nat) (key : Bytes) (s : Shard) : Shard :=
  s.rechain (s.bucketOf h) (List.eraseP (Entry.named h key)) (s.count - 1)

/-- Removes what has expired from one bucket. -/
def sweep (now b : Nat) (s : Shard) : Shard :=
  s.rechain b (List.filter (fun e => !e.isExpired now))
    (s.count - ((s.buckets.getD b []).filter (Entry.isExpired now)).length)

/-- The first bucket with an entry, from `idx` on and around. -/
def probe (idx : Nat) (s : Shard) : Option Nat :=
  ((List.range s.buckets.length).map (fun p => (idx + p) &&& (s.buckets.length - 1))).find?
    (fun b => s.buckets.getD b [] != [])

def evict (idx : Nat) (s : Shard) : Shard :=
  match s.probe idx with
  | some b => s.rechain b List.tail (s.count - 1)
  | none => s

end Shard

/-! ## The cache -/

/-- Counts bits up until `2 ^ bits` is enough. -/
def bitsFor (wanted : Nat) : Nat → Nat → Nat
  | 0, bits => bits
  | fuel + 1, bits => if 2 ^ bits < wanted then bitsFor wanted fuel (bits + 1) else bits

structure Local where
  shardBits : Nat
  shards : List Shard
  ttlEntries : Int
  sweepCursor : Nat
  revision : Nat
  deriving DecidableEq, Repr

namespace Local

def entries (c : Local) : List Entry := c.shards.flatMap Shard.entries

def contents (c : Local) : List (Dated Bytes Bytes) := c.entries.map Entry.dated

def nshards (c : Local) : Nat := c.shards.length

def shardOf (h : Nat) (c : Local) : Nat := h >>> (32 - c.shardBits)

def shardFor (h : Nat) (c : Local) : Shard := c.shards.getD (c.shardOf h) ⟨[], 0⟩

/-- Empty shards of `2 ^ bucketBits` buckets. -/
def blank (shardBits bucketBits : Nat) : Local :=
  ⟨shardBits, List.replicate (2 ^ shardBits) ⟨List.replicate (2 ^ bucketBits) [], 0⟩, 0, 0, 0⟩

/-- `kuttidb_create`: at least two shards and sixteen buckets, both rounded up to powers of two. -/
def create (nshards initialBuckets : Nat) : Local :=
  let asked := if nshards = 0 then 16 else nshards
  blank (bitsFor asked asked 1) (bitsFor initialBuckets initialBuckets 4)

def find (key : Bytes) (c : Local) : Option Entry :=
  (c.shardFor (hashKey key)).find (hashKey key) key

/-- The part of `ttl_entries` the key stands for now. -/
def ttlHeld (key : Bytes) (c : Local) : Int := ((c.find key).map (fun e => ttlOf e.exp)).getD 0

/-- `kuttidb_put_abs` with no budget: one critical section. -/
def putAbs (key value : Bytes) (exp : Nat) (c : Local) : Local :=
  { c with
    shards := c.shards.modify (c.shardOf (hashKey key)) (Shard.put (hashKey key) key value exp)
    ttlEntries := c.ttlEntries + ttlOf exp - c.ttlHeld key
    revision := c.revision + 1 }

/-- Takes the first entry of the key out of its chain. -/
def unlink (key : Bytes) (c : Local) : Local :=
  { c with
    shards := c.shards.modify (c.shardOf (hashKey key)) (Shard.remove (hashKey key) key)
    ttlEntries := c.ttlEntries - c.ttlHeld key }

inductive Looked where
  | miss
  | hit (value : Bytes)
  | expired
  deriving DecidableEq, Repr

/-- The first section of a get. -/
def lookupCopy (now : Nat) (key : Bytes) (c : Local) : Looked :=
  match c.find key with
  | none => .miss
  | some e => if e.isExpired now then .expired else .hit e.value

/-- The second section of a get: the key is looked up again and its entry removed. The expiry is not
looked at again, and `revision` stays. -/
def expire (key : Bytes) (c : Local) : Local :=
  match c.find key with
  | some _ => c.unlink key
  | none => c

/-- `get_common` with nothing in between its two sections. -/
def get (now : Nat) (key : Bytes) (c : Local) : Option Bytes × Local :=
  match c.lookupCopy now key with
  | .hit value => (some value, c)
  | .miss => (none, c)
  | .expired => (none, c.expire key)

def delete (key : Bytes) (c : Local) : Bool × Local :=
  match c.find key with
  | some _ => (true, { c.unlink key with revision := c.revision + 1 })
  | none => (false, c)

/-- One ticket of the sweep: a bucket of a shard. -/
def sweepBucket (now ticket : Nat) (c : Local) : Local :=
  let i := ticket &&& (c.nshards - 1)
  let s := c.shards.getD i ⟨[], 0⟩
  let b := (ticket / c.nshards) &&& (s.buckets.length - 1)
  let swept := ((s.buckets.getD b []).filter (Entry.isExpired now)).length
  { c with
    shards := c.shards.modify i (Shard.sweep now b)
    ttlEntries := c.ttlEntries - swept
    revision := c.revision + swept }

def takeTicket (c : Local) : Local := { c with sweepCursor := c.sweepCursor + 1 }

def sweepLoop (now : Nat) : Nat → Local → Local
  | 0, c => c
  | work + 1, c => sweepLoop now work (c.takeTicket.sweepBucket now c.sweepCursor)

def sweepExpired (now work : Nat) (c : Local) : Local :=
  if c.ttlEntries = 0 then c else sweepLoop now work c

/-- One round of `evict_under_budget`: the head of a bucket of shard `i`. `revision` stays. -/
def evict (i idx : Nat) (c : Local) : Local :=
  let s := c.shards.getD i ⟨[], 0⟩
  if s.count = 0 then c
  else { c with
    shards := c.shards.modify i (Shard.evict idx)
    ttlEntries := c.ttlEntries -
      (((s.probe idx).bind (fun b => (s.buckets.getD b []).head?)).map (fun e => ttlOf e.exp)).getD 0 }

/-- `kuttidb_count`. -/
def count (c : Local) : Nat := (c.shards.map Shard.count).sum

/-- The calls of the cache on one clock. -/
def run (now : Nat) : MapCall Bytes Bytes → Local → MapAnswer Bytes × Local
  | .put key value expiry, c => (.stored, c.putAbs key value expiry)
  | .get key, c => (.found (c.get now key).1, (c.get now key).2)
  | .delete key, c => (.deleted (c.delete key).1, (c.delete key).2)
  | .sweep work, c => (.swept, c.sweepExpired now work)

end Local

end KuttiDB.Cache
