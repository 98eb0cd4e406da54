/- # KuttiDB.Cache.Embedded -- the cache in a shared memory region

The cache of `embed_kuttidb.c`: chains of entries linked by offsets in a mapped file, 256 buckets a
shard, and one heap of blocks with a first-fit free list and a bump pointer. Several processes attach
the region; a lock is a word with the owner's process id, and a process that finds a dead owner clears
the word and goes on, without any other repair.

A call is a `Flow` with one step for every store, byte copies included, and for every look at the
lock words or at the memory. A block is addressed by its offset and an entry by the offset of its
block plus 16; `Cell` is the block header with the entry in it. The counters of bytes and of expired
and evicted entries are left out, and so are the random numbers of the eviction (arguments). A walk
takes fuel; a chain in a region of `size` bytes has fewer than `size` entries.
-/
import KuttiDB.Cache.Local
import KuttiDB.Theory.Workers

namespace KuttiDB.Cache

open KuttiDB.QueueStore
open KuttiDB.Theory

set_option autoImplicit false

/-! ## The region -/

def blockSize : Nat := 16
def embedSharedSize : Nat := 128
def embedHeaderSize : Nat := 608
def embedRegionMin : Nat := 2 ^ 24
def embedEntrySize : Nat := 24
def bucketsPerShard : Nat := 256

/-- `embed_align`: up to a multiple of 16. -/
def embedAlign (n : Nat) : Nat := (n + 15) / 16 * 16

structure Cell where
  blockNext : Nat
  capacity : Nat
  next : Nat
  exp : Nat
  hash : Nat
  klen : Nat
  vlen : Nat
  data : Nat → UInt8

namespace Cell

def key (c : Cell) : Bytes := (List.range c.klen).map c.data

def value (c : Cell) : Bytes := (List.range c.vlen).map (fun i => c.data (c.klen + i))

def named (h : Nat) (key : Bytes) (c : Cell) : Bool :=
  c.hash == h && c.klen == key.length && c.key == key

def dated (c : Cell) : Dated Bytes Bytes := ⟨c.key, c.value, c.exp⟩

end Cell

/-- The address of a link word. -/
inductive Link where
  | head (slot : Nat)
  | next (block : Nat)
  deriving DecidableEq, Repr

structure Memory where
  size : Nat
  shardBits : Nat
  cells : Nat → Cell
  /-- The bucket words of all shards, shard by shard. -/
  heads : Nat → Nat
  counts : Nat → Nat
  freeOff : Nat
  bumpOff : Nat
  ttlEntries : Int
  sweepCursor : Nat

namespace Memory

def nshards (m : Memory) : Nat := 2 ^ m.shardBits

def slots (m : Memory) : Nat := m.nshards * bucketsPerShard

def shardOf (h : Nat) (m : Memory) : Nat := h >>> (32 - m.shardBits)

def slotOf (h : Nat) (m : Memory) : Nat :=
  m.shardOf h * bucketsPerShard + (h &&& (bucketsPerShard - 1))

def setCell (b : Nat) (f : Cell → Cell) (m : Memory) : Memory :=
  { m with cells := Function.update m.cells b (f (m.cells b)) }

def load (m : Memory) : Link → Nat
  | .head slot => m.heads slot
  | .next b => (m.cells b).next

def store (link : Link) (off : Nat) (m : Memory) : Memory :=
  match link with
  | .head slot => { m with heads := Function.update m.heads slot off }
  | .next b => m.setCell b (fun c => { c with next := off })

/-- `entry_at`: the block of an entry offset, when it lies in the region. -/
def entryAt (off : Nat) (m : Memory) : Option Nat :=
  if off < blockSize ∨ m.size - embedEntrySize < off then none else some (off - blockSize)

inductive Found where
  | hit (link : Link) (block : Nat)
  | miss (link : Link)
  | broken
  deriving DecidableEq, Repr

/-- Follows a chain to the key or to the last link. A put and a get also refuse lengths beyond the
region. -/
def walk (lengths : Bool) (h : Nat) (key : Bytes) (m : Memory) : Nat → Link → Found
  | 0, _ => .broken
  | fuel + 1, link =>
      if m.load link = 0 then .miss link
      else
        match m.entryAt (m.load link) with
        | none => .broken
        | some b =>
            if lengths && (m.size < (m.cells b).klen || m.size < (m.cells b).vlen) then .broken
            else if (m.cells b).named h key then .hit link b
            else walk lengths h key m fuel (.next b)

inductive Search where
  | fit (prev : Option Nat) (block : Nat)
  | exhausted
  | malformed
  deriving DecidableEq, Repr

/-- The first free block that is large enough. -/
def searchFree (need : Nat) (m : Memory) : Nat → Option Nat → Nat → Search
  | 0, _, _ => .malformed
  | fuel + 1, prev, off =>
      if off = 0 then .exhausted
      else if m.size ≤ off ∨ (m.cells off).capacity < blockSize ∨
          m.size - off < (m.cells off).capacity then .malformed
      else if need ≤ (m.cells off).capacity then .fit prev off
      else searchFree need m fuel (some off) (m.cells off).blockNext

def setFree (prev : Option Nat) (off : Nat) (m : Memory) : Memory :=
  match prev with
  | none => { m with freeOff := off }
  | some p => m.setCell p (fun c => { c with blockNext := off })

/-- The blocks of a chain. -/
def chainFrom (m : Memory) : Nat → Nat → List Nat
  | 0, _ => []
  | fuel + 1, off =>
      if off = 0 then []
      else (off - blockSize) :: m.chainFrom fuel (m.cells (off - blockSize)).next

/-- The blocks that some chain leads to. -/
def reachable (m : Memory) : List Nat :=
  (List.range m.slots).flatMap (fun slot => m.chainFrom m.size (m.heads slot))

def contents (m : Memory) : List (Dated Bytes Bytes) :=
  m.reachable.map (fun b => (m.cells b).dated)

end Memory

inductive Lock where
  | shard (i : Nat)
  | heap
  deriving DecidableEq, Repr

/-- The mapped file, its lock words and the process ids that have died. -/
structure Region where
  mem : Memory
  owner : Lock → Nat
  dead : List Nat

namespace Region

/-- What `embed_lock` finds: the word is clear, or its owner has died and it is cleared. -/
def available (l : Lock) (r : Region) : Bool := r.owner l == 0 || decide (r.owner l ∈ r.dead)

def acquire (me : Nat) (l : Lock) (r : Region) : Region :=
  if r.available l then { r with owner := Function.update r.owner l me } else r

def release (l : Lock) (r : Region) : Region := { r with owner := Function.update r.owner l 0 }

def write (f : Memory → Memory) (r : Region) : Region := { r with mem := f r.mem }

end Region

/-- `embed_kuttidb_init` on a region of `size` bytes. Offset 0 is no place for the shared record, which
`embed_ptr` takes for a null pointer. -/
def embedInit (size kuttidbOff requestedShards : Nat) : Option Region :=
  let bits := bitsFor requestedShards requestedShards 1
  let shardsOff := embedAlign (kuttidbOff + embedSharedSize)
  let heapStart := embedAlign (shardsOff + 2 ^ bits * 40)
  let bumpOff := heapStart + 2 ^ bits * (bucketsPerShard * 8)
  if size < kuttidbOff + embedSharedSize ∨ kuttidbOff = 0 ∨ size < bumpOff then none
  else some ⟨⟨size, bits, fun _ => ⟨0, 0, 0, 0, 0, 0, 0, fun _ => 0⟩, fun _ => 0, fun _ => 0, 0,
    bumpOff, 0, 0⟩, fun _ => 0, []⟩

/-- `kuttidb_embed_create_sized` for a path without a file: whole pages, 16 MiB at least, and the
shared record behind the header. -/
def embedCreateSized (regionSize requestedShards : Nat) : Option Region :=
  if regionSize < embedRegionMin then none
  else embedInit ((regionSize + 4095) / 4096 * 4096) (embedAlign embedHeaderSize) requestedShards

/-! ## Programs -/

/-- A step that can leave a half-written value behind when it is not reached. -/
inductive Spot where
  | plain
  | overwrite
  deriving DecidableEq, Repr

/-- `none` when the call never gets its lock. -/
abbrev Program := Flow Region Spot (Option (MapAnswer Bytes))

def poke (f : Memory → Memory) (k : Program) : Program :=
  .step .plain (Region.write f) fun _ => k

def look (k : Memory → Program) : Program := .step .plain id fun r => k r.mem

def locking (me : Nat) (l : Lock) (k : Program) : Program :=
  .step .plain (Region.acquire me l) fun r => if r.available l then k else .done none

def unlocking (l : Lock) (k : Program) : Program := .step .plain (Region.release l) fun _ => k

/-- `memcpy` into the data of a block, byte by byte. -/
def copyBytes (spot : Spot) (b : Nat) : Nat → Bytes → Program → Program
  | _, [], k => k
  | start, byte :: rest, k =>
      .step spot (Region.write (Memory.setCell b fun c =>
        { c with data := Function.update c.data start byte })) fun _ =>
          copyBytes spot b (start + 1) rest k

/-- `heap_alloc`: the block, or `none` when the heap is exhausted or malformed. -/
def heapAlloc (me entrySize : Nat) (k : Option Nat → Program) : Program :=
  let need := embedAlign (blockSize + entrySize)
  locking me .heap <| look fun m =>
    match m.searchFree need (m.size + 1) none m.freeOff with
    | .malformed => unlocking .heap (k none)
    | .fit prev b =>
        poke (Memory.setFree prev (m.cells b).blockNext) <|
        poke (Memory.setCell b fun c => { c with blockNext := 0 }) <|
        unlocking .heap (k (some b))
    | .exhausted =>
        if m.size < m.bumpOff ∨ m.size - m.bumpOff < need then unlocking .heap (k none)
        else
          poke (fun m => { m with bumpOff := m.bumpOff + need }) <|
          poke (Memory.setCell m.bumpOff fun c => { c with blockNext := 0 }) <|
          poke (Memory.setCell m.bumpOff fun c => { c with capacity := need }) <|
          unlocking .heap (k (some m.bumpOff))

def addTtl (n : Int) (k : Program) : Program :=
  poke (fun m => { m with ttlEntries := m.ttlEntries + n }) k

/-- `entry_free`: the block goes to the head of the free list. -/
def entryFree (me b : Nat) (k : Program) : Program :=
  look fun m =>
    if (m.cells b).capacity = 0 then k
    else
      addTtl (-ttlOf (m.cells b).exp) <|
      locking me .heap <|
      poke (fun m => m.setCell b fun c => { c with blockNext := m.freeOff }) <|
      poke (fun m => { m with freeOff := b }) <|
      unlocking .heap k

def addCount (shard : Nat) (f : Nat → Nat) (k : Program) : Program :=
  poke (fun m => { m with counts := Function.update m.counts shard (f (m.counts shard)) }) k

/-- `remove_locked`: the entry at the link is unlinked, then freed, then no longer counted. -/
def removeLocked (me shard : Nat) (link : Link) (k : Program) : Program :=
  look fun m =>
    match m.entryAt (m.load link) with
    | none => poke (Memory.store link 0) k
    | some b =>
        poke (fun m => m.store link (m.cells b).next) <|
        entryFree me b <|
        addCount shard (· - 1) k

/-- Fills a block that no chain leads to yet. -/
def fill (b h next : Nat) (key value : Bytes) (exp : Nat) (k : Program) : Program :=
  poke (Memory.setCell b fun c => { c with hash := h }) <|
  poke (Memory.setCell b fun c => { c with klen := key.length }) <|
  poke (Memory.setCell b fun c => { c with vlen := value.length }) <|
  poke (Memory.setCell b fun c => { c with exp := exp }) <|
  poke (Memory.setCell b fun c => { c with next := next }) <|
  copyBytes .plain b 0 key <|
  copyBytes .plain b key.length value <|
  addTtl (ttlOf exp) k

/-- Overwrites the value of an entry where it stands. After the first store the entry is neither the
old one nor the new one until the last. -/
def overwriteValue (b klen : Nat) (value : Bytes) (exp : Nat) (k : Program) : Program :=
  look fun m =>
    addTtl (ttlOf exp - ttlOf (m.cells b).exp) <|
    poke (Memory.setCell b fun c => { c with vlen := value.length }) <|
    .step .overwrite (Region.write (Memory.setCell b fun c => { c with exp := exp })) fun _ =>
      copyBytes .overwrite b klen value k

def recordSize (key value : Bytes) : Nat := embedEntrySize + key.length + value.length

/-- `embed_kuttidb_put_abs` with no budget. -/
def embedPut (me : Nat) (key value : Bytes) (exp h shard slot : Nat) : Program :=
  let leave (answer : MapAnswer Bytes) : Program := unlocking (.shard shard) (.done (some answer))
  locking me (.shard shard) <| look fun m =>
    match m.walk true h key (m.size + 1) (.head slot) with
    | .broken => leave .failed
    | .hit link b =>
        if recordSize key value ≤ (m.cells b).capacity - blockSize then
          overwriteValue b key.length value exp (leave .stored)
        else
          heapAlloc me (recordSize key value) fun
            | none => leave .failed
            | some fresh =>
                fill fresh h (m.cells b).next key value exp <|
                poke (Memory.store link (fresh + blockSize)) <|
                entryFree me b (leave .stored)
    | .miss link =>
        heapAlloc me (recordSize key value) fun
          | none => leave .failed
          | some fresh =>
              fill fresh h (m.load link) key value exp <|
              poke (Memory.store link (fresh + blockSize)) <|
              addCount shard (· + 1) (leave .stored)

def embedGet (me now : Nat) (key : Bytes) (h shard slot : Nat) : Program :=
  let leave (answer : MapAnswer Bytes) : Program := unlocking (.shard shard) (.done (some answer))
  locking me (.shard shard) <| look fun m =>
    match m.walk true h key (m.size + 1) (.head slot) with
    | .broken => leave .failed
    | .miss _ => leave (.found none)
    | .hit link b =>
        if passed (m.cells b).exp now then removeLocked me shard link (leave (.found none))
        else leave (.found (some (m.cells b).value))

def embedDelete (me : Nat) (key : Bytes) (h shard slot : Nat) : Program :=
  let leave (answer : MapAnswer Bytes) : Program := unlocking (.shard shard) (.done (some answer))
  locking me (.shard shard) <| look fun m =>
    match m.walk false h key (m.size + 1) (.head slot) with
    | .broken => leave .failed
    | .miss _ => leave (.deleted false)
    | .hit link _ => removeLocked me shard link (leave (.deleted true))

/-- The inner loop of the sweep: every expired entry from the link on. -/
def sweepFrom (me now shard : Nat) (k : Program) : Nat → Link → Program
  | 0, _ => k
  | fuel + 1, link => look fun m =>
      if m.load link = 0 then k
      else
        match m.entryAt (m.load link) with
        | none => poke (Memory.store link 0) k
        | some b =>
            if passed (m.cells b).exp now then
              removeLocked me shard link (sweepFrom me now shard k fuel link)
            else sweepFrom me now shard k fuel (.next b)

/-- One bucket a ticket; the shard of a ticket is that of its product with 2654435761. -/
def sweepTickets (me now : Nat) : Nat → Program
  | 0 => .done (some .swept)
  | work + 1 =>
      .step .plain (Region.write fun m => { m with sweepCursor := m.sweepCursor + 1 }) fun r =>
        let ticket := r.mem.sweepCursor
        let shard := r.mem.shardOf (ticket * 2654435761 % 2 ^ 32)
        let slot := shard * bucketsPerShard +
          ((ticket / r.mem.nshards) &&& (bucketsPerShard - 1))
        locking me (.shard shard) <|
          sweepFrom me now shard (unlocking (.shard shard) (sweepTickets me now work))
            (r.mem.size + 1) (.head slot)

def embedSweep (me now work : Nat) : Program :=
  look fun m => if m.ttlEntries = 0 then .done (some .swept) else sweepTickets me now work

/-- One round of `evict_under_budget` on shard `i`: the first entry of the first bucket that has one,
from `start` on and around. -/
def embedEvict (me i start : Nat) : Program :=
  locking me (.shard i) <| look fun m =>
    let slots := (List.range bucketsPerShard).map (fun probe =>
      i * bucketsPerShard + ((start + probe) &&& (bucketsPerShard - 1)))
    if m.counts i = 0 then unlocking (.shard i) (.done (some .swept))
    else
      match slots.find? (fun slot => m.heads slot != 0) with
      | none => unlocking (.shard i) (.done (some .swept))
      | some slot => removeLocked me i (.head slot) (unlocking (.shard i) (.done (some .swept)))

/-- A call by process `me`; the shard and the bucket are those of the key's hash. -/
def embedCall (me now : Nat) (m : Memory) : MapCall Bytes Bytes → Program
  | .put key value exp =>
      embedPut me key value exp (hashKey key) (m.shardOf (hashKey key)) (m.slotOf (hashKey key))
  | .get key => embedGet me now key (hashKey key) (m.shardOf (hashKey key)) (m.slotOf (hashKey key))
  | .delete key => embedDelete me key (hashKey key) (m.shardOf (hashKey key)) (m.slotOf (hashKey key))
  | .sweep work => embedSweep me now work

/-- The call run to its end by process 1. -/
def embedRun (now : Nat) (call : MapCall Bytes Bytes) (r : Region) : MapAnswer Bytes × Region :=
  let result := (embedCall 1 now r.mem call).alone r
  (result.1.getD .failed, result.2)

end KuttiDB.Cache
