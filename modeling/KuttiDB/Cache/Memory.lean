/- # KuttiDB.Cache.Memory -- the memory counters of the local cache

Every shard has an allocator: slabs of 16 KiB cut into blocks of a size class, a free list for each
class, and blocks of their own for entries above 4096 bytes. `mem` (one for each shard) and
`total_mem` count the bucket tables and what was charged for every entry; `allocated_mem` counts what
was obtained from `malloc`. An entry is charged when its block is taken and refunded when it is freed,
from fields that an overwrite in place changes.

The counters are kept beside the cache of `Local`: `Metered.step` runs one critical section on both.
`charge` is not in the source: it is what was charged for the entry of a key when its block was
taken. `memory_recounted` holds in every run in which no put shortens the value of an entry with a
block of its own; the first part of `memory_drifts` is a run in which one does, the second a cache
whose table has grown. The counters are integers; that they stay natural is part of the result.
-/
import Mathlib.Algebra.BigOperators.Ring.Finset
import KuttiDB.Cache.Scan

namespace KuttiDB.Cache

open KuttiDB.QueueStore
open KuttiDB.Theory

set_option autoImplicit false

/-! ## The allocator of a shard -/

def slabSize : Nat := 16 * 1024

/-- The size of a pointer: the header of a slab, or one bucket. -/
def pointerSize : Nat := 8

/-- `slabs` is the length of the list of slabs, `freelist` has the length of each free list. -/
structure Arena where
  mem : Int
  slabs : Nat
  left : Nat
  freelist : List Nat
  charge : Bytes → Nat

/-- The arena of the locked shard and the counters of the cache. -/
structure Books where
  arena : Arena
  totalMem : Int
  allocatedMem : Int

/-- What `entry_free` takes off the counters. For a block of its own the two lengths are added as
32-bit numbers. -/
def Entry.refund (e : Entry) : Nat :=
  match e.cls with
  | none => (e.key.length + e.value.length) % 2 ^ 32 + entrySize
  | some c => classSz.getD c 0

/-- The part of it that is given back to `malloc`. -/
def Entry.returned (e : Entry) : Nat := if e.cls = none then e.refund else 0

namespace Books

def blockAlloc (size : Nat) (b : Books) : Books := { b with allocatedMem := b.allocatedMem + size }

/-- Finds a block for an entry, and says what is charged for it. -/
def takeBlock (total : Nat) (b : Books) : Books × Nat :=
  match classFor total with
  | none => (b.blockAlloc total, total)
  | some cls =>
    let csz := classSz.getD cls 0
    if b.arena.freelist.getD cls 0 ≠ 0 then
      ({ b with arena := { b.arena with freelist := b.arena.freelist.modify cls (· - 1) } }, csz)
    else if b.arena.left < csz then
      let b := b.blockAlloc slabSize
      ({ b with arena := { b.arena with
          slabs := b.arena.slabs + 1
          left := slabSize - pointerSize - csz } }, csz)
    else ({ b with arena := { b.arena with left := b.arena.left - csz } }, csz)

def entryAlloc (key : Bytes) (total : Nat) (b : Books) : Books :=
  let (b, got) := b.takeBlock total
  { b with
    arena := { b.arena with
      mem := b.arena.mem + got
      charge := Function.update b.arena.charge key got }
    totalMem := b.totalMem + got }

def entryFree (e : Entry) (b : Books) : Books :=
  let b := match e.cls with
    | none => { b with allocatedMem := b.allocatedMem - e.refund }
    | some c => { b with arena := { b.arena with freelist := b.arena.freelist.modify c (· + 1) } }
  { b with
    arena := { b.arena with mem := b.arena.mem - e.refund }
    totalMem := b.totalMem - e.refund }

def slabFreeAll (b : Books) : Books :=
  { b with
    arena := { b.arena with slabs := 0, left := 0, freelist := b.arena.freelist.map (fun _ => 0) }
    allocatedMem := b.allocatedMem - slabSize * b.arena.slabs }

/-- `remove_locked` on a shard with `count` entries. -/
def removeLocked (count : Nat) (e : Entry) (b : Books) : Books :=
  if count - 1 = 0 then (b.entryFree e).slabFreeAll else b.entryFree e

/-- Removes one entry after the other. -/
def removeEach : Nat → List Entry → Books → Books
  | _, [], b => b
  | count, e :: rest, b => removeEach (count - 1) rest (b.removeLocked count e)

/-- The new table is obtained before the old one is given back. -/
def maybeResize (count buckets : Nat) (b : Books) : Books :=
  if count ≤ buckets * 2 then b
  else
    let newn := buckets * 2
    let delta := newn * pointerSize - buckets * pointerSize
    let b := b.blockAlloc (newn * pointerSize)
    { arena := { b.arena with mem := b.arena.mem + delta }
      totalMem := b.totalMem + delta
      allocatedMem := b.allocatedMem - (buckets * pointerSize : Nat) }

def put (s : Shard) (h : Nat) (key value : Bytes) (b : Books) : Books :=
  let need := entrySize + key.length + value.length
  match s.find h key with
  | some e => if need ≤ e.capacity then b else (b.entryAlloc key need).entryFree e
  | none => (b.entryAlloc key need).maybeResize (s.count + 1) s.buckets.length

end Books

/-! ## The cache with its counters -/

structure Metered where
  cache : Local
  arenas : List Arena
  totalMem : Int
  allocatedMem : Int

/-- The critical sections of the calls. -/
inductive Section where
  | put (key value : Bytes) (exp : Nat)
  | expire (key : Bytes)
  | delete (key : Bytes)
  | ticket
  | sweep (now ticket : Nat)
  | evict (shard idx : Nat)
  deriving DecidableEq, Repr

def Section.run : Section → Local → Local
  | .put key value exp, c => c.putAbs key value exp
  | .expire key, c => c.expire key
  | .delete key, c => (c.delete key).2
  | .ticket, c => c.takeTicket
  | .sweep now turn, c => c.sweepBucket now turn
  | .evict shard idx, c => c.evict shard idx

def Arena.fresh (buckets : Nat) : Arena :=
  ⟨buckets * pointerSize, 0, 0, List.replicate classSz.length 0, fun _ => 0⟩

namespace Metered

/-- `init_shards`: every shard with a table of `2 ^ bucketBits` buckets. -/
def blank (shardBits bucketBits : Nat) : Metered where
  cache := .blank shardBits bucketBits
  arenas := List.replicate (2 ^ shardBits) (.fresh (2 ^ bucketBits))
  totalMem := (2 ^ shardBits * (2 ^ bucketBits * pointerSize) : Nat)
  allocatedMem := (2 ^ shardBits * (2 ^ bucketBits * pointerSize) : Nat)

/-- `kuttidb_create`. -/
def create (nshards initialBuckets : Nat) : Metered :=
  let asked := if nshards = 0 then 16 else nshards
  blank (bitsFor asked asked 1) (bitsFor initialBuckets initialBuckets 4)

/-- A section under the lock of shard `i`, with the cache it leaves. -/
def locked (i : Nat) (f : Books → Books) (next : Local) (m : Metered) : Metered :=
  let b := f ⟨m.arenas.getD i (.fresh 0), m.totalMem, m.allocatedMem⟩
  ⟨next, m.arenas.modify i (fun _ => b.arena), b.totalMem, b.allocatedMem⟩

/-- `remove_locked` for the entry of a key, if there is one. -/
def unlink (key : Bytes) (next : Local) (m : Metered) : Metered :=
  match m.cache.find key with
  | some e => m.locked (m.cache.shardOf (hashKey key))
      (Books.removeLocked (m.cache.shardFor (hashKey key)).count e) next
  | none => { m with cache := next }

def step (m : Metered) (x : Section) : Metered :=
  let next := x.run m.cache
  match x with
  | .put key value _ => m.locked (m.cache.shardOf (hashKey key))
      (Books.put (m.cache.shardFor (hashKey key)) (hashKey key) key value) next
  | .expire key => m.unlink key next
  | .delete key => m.unlink key next
  | .ticket => { m with cache := next }
  | .sweep now ticket =>
      let i := ticket &&& (m.cache.nshards - 1)
      m.locked i (Books.removeEach (m.cache.shards.getD i ⟨[], 0⟩).count (m.cache.due now ticket)) next
  | .evict i idx =>
      match m.cache.victim i idx with
      | some e => m.locked i (Books.removeLocked (m.cache.shards.getD i ⟨[], 0⟩).count e) next
      | none => { m with cache := next }

def steps (m : Metered) (sections : List Section) : Metered := sections.foldl step m

end Metered

/-! ## The books of one shard -/

/-- What was charged for the entries. -/
def chargedBytes (a : Arena) (held : List Entry) : Nat := (held.map (fun e => a.charge e.key)).sum

/-- What the entries with blocks of their own were given. -/
def ownBytes (a : Arena) (held : List Entry) : Nat :=
  (held.map (fun e => if e.cls = none then a.charge e.key else 0)).sum

/-- The bytes of a shard's table, slabs and own blocks. -/
def obtained (buckets : Nat) (held : List Entry) (a : Arena) : Nat :=
  buckets * pointerSize + slabSize * a.slabs + ownBytes a held

/-- `mem` is the recount, every entry would be refunded what was charged for it, and an empty shard
has no slabs. -/
structure Fits (buckets : Nat) (held : List Entry) (a : Arena) : Prop where
  mem : a.mem = (buckets * pointerSize + chargedBytes a held : Nat)
  sized : ∀ e ∈ held, a.charge e.key = e.refund
  empty : held = [] → a.slabs = 0

/-- The counters of the cache change as the shard's do. -/
structure Settles (b b' : Books) (buckets buckets' : Nat) (held held' : List Entry) : Prop where
  fits : Fits buckets' held' b'.arena
  total : b'.totalMem - b'.arena.mem = b.totalMem - b.arena.mem
  allocated : b'.allocatedMem - obtained buckets' held' b'.arena =
    b.allocatedMem - obtained buckets held b.arena

section Shards

variable {buckets : Nat} {held held' rest gone : List Entry} {a : Arena} {b : Books} {e : Entry}

theorem chargedBytes_perm (a : Arena) (perm : held.Perm held') :
    chargedBytes a held = chargedBytes a held' :=
  (perm.map _).sum_eq

theorem ownBytes_perm (a : Arena) (perm : held.Perm held') : ownBytes a held = ownBytes a held' :=
  (perm.map _).sum_eq

theorem chargedBytes_cons (a : Arena) (e : Entry) (rest : List Entry) :
    chargedBytes a (e :: rest) = a.charge e.key + chargedBytes a rest := by
  rw [chargedBytes, List.map_cons, List.sum_cons]
  rfl

theorem ownBytes_cons (a : Arena) (e : Entry) (rest : List Entry) :
    ownBytes a (e :: rest) = (if e.cls = none then a.charge e.key else 0) + ownBytes a rest := by
  rw [ownBytes, List.map_cons, List.sum_cons]
  rfl

theorem Fits.perm (fits : Fits buckets held a) (perm : held.Perm held') : Fits buckets held' a where
  mem := by rw [fits.mem, chargedBytes_perm a perm]
  sized e mem := fits.sized e (perm.mem_iff.mpr mem)
  empty none_ := fits.empty (by rw [none_] at perm; exact perm.eq_nil)

theorem Settles.refl (fits : Fits buckets held b.arena) : Settles b b buckets buckets held held :=
  ⟨fits, rfl, rfl⟩

theorem Settles.trans {b' b'' : Books} {buckets' buckets'' : Nat} {held'' : List Entry}
    (first : Settles b b' buckets buckets' held held')
    (second : Settles b' b'' buckets' buckets'' held' held'') :
    Settles b b'' buckets buckets'' held held'' :=
  ⟨second.fits, second.total.trans first.total, second.allocated.trans first.allocated⟩

theorem Settles.perm {b' : Books} {buckets' : Nat} {before after : List Entry}
    (settles : Settles b b' buckets buckets' held held') (left : before.Perm held)
    (right : held'.Perm after) : Settles b b' buckets buckets' before after where
  fits := settles.fits.perm right
  total := settles.total
  allocated := by
    have same := settles.allocated
    rw [obtained, obtained, ownBytes_perm _ right, ownBytes_perm b.arena left.symm] at same
    exact same

/-- The first entry's share, where it would be refunded what was charged for it. -/
theorem shares_cons (rest : List Entry) (charged : a.charge e.key = e.refund) :
    chargedBytes a (e :: rest) = e.refund + chargedBytes a rest ∧
      ownBytes a (e :: rest) = e.returned + ownBytes a rest := by
  rw [chargedBytes_cons, ownBytes_cons, charged]
  exact ⟨rfl, rfl⟩

theorem chargedBytes_congr {a a' : Arena} (same : ∀ e ∈ held, a'.charge e.key = a.charge e.key) :
    chargedBytes a' held = chargedBytes a held :=
  congrArg List.sum (List.map_congr_left same)

theorem ownBytes_congr {a a' : Arena} (same : ∀ e ∈ held, a'.charge e.key = a.charge e.key) :
    ownBytes a' held = ownBytes a held := by
  refine congrArg List.sum (List.map_congr_left fun e mem => ?_)
  rw [same e mem]

/-! ### Removing -/

/-- What `entry_free` does to the counters. -/
theorem entryFree_spec (e : Entry) (b : Books) :
    (b.entryFree e).arena.mem = b.arena.mem - e.refund ∧
      (b.entryFree e).totalMem = b.totalMem - e.refund ∧
      (b.entryFree e).allocatedMem = b.allocatedMem - e.returned ∧
      (b.entryFree e).arena.slabs = b.arena.slabs ∧
      (b.entryFree e).arena.charge = b.arena.charge := by
  unfold Books.entryFree Entry.returned
  cases e.cls with
  | none => exact ⟨rfl, rfl, rfl, rfl, rfl⟩
  | some c => exact ⟨rfl, rfl, (Int.sub_zero _).symm, rfl, rfl⟩

/-- A freed entry takes its charge with it; the last one takes the slabs. -/
theorem settles_removeLocked {count : Nat} (fits : Fits buckets (e :: rest) b.arena)
    (counted : count = rest.length + 1) :
    Settles b (b.removeLocked count e) buckets buckets (e :: rest) rest := by
  obtain ⟨mem, total, allocated, slabs, charge⟩ := entryFree_spec e b
  have charged := fits.sized e List.mem_cons_self
  obtain ⟨share, own⟩ := shares_cons rest charged
  have before := fits.mem
  have later : ∀ x ∈ rest, (b.entryFree e).arena.charge x.key = x.refund :=
    fun x inside => charge ▸ fits.sized x (List.mem_cons_of_mem e inside)
  have recount : chargedBytes (b.entryFree e).arena rest = chargedBytes b.arena rest :=
    chargedBytes_congr (fun x _ => by rw [charge])
  have recountOwn : ownBytes (b.entryFree e).arena rest = ownBytes b.arena rest :=
    ownBytes_congr (fun x _ => by rw [charge])
  have freed : (b.entryFree e).arena.mem
      = (buckets * pointerSize + chargedBytes (b.entryFree e).arena rest : Nat) := by
    omega
  have paid : (b.entryFree e).allocatedMem - ownBytes (b.entryFree e).arena rest =
      b.allocatedMem - ownBytes b.arena (e :: rest) := by
    rw [allocated, recountOwn, own]
    omega
  unfold Books.removeLocked
  split
  · refine ⟨⟨freed, later, fun _ => rfl⟩, ?_, ?_⟩
    · change (b.entryFree e).totalMem - (b.entryFree e).arena.mem = _
      omega
    · change (b.entryFree e).allocatedMem - slabSize * (b.entryFree e).arena.slabs
        - (buckets * pointerSize + slabSize * 0 + ownBytes (b.entryFree e).arena rest : Nat) = _
      rw [obtained, slabs]
      push_cast
      omega
  · refine ⟨⟨freed, later, fun none_ => ?_⟩, ?_, ?_⟩
    · rw [none_, List.length_nil] at counted
      omega
    · omega
    · rw [obtained, obtained, slabs]
      push_cast
      omega

theorem settles_removeEach : ∀ (gone : List Entry) {count : Nat} {b : Books},
    Fits buckets (gone ++ rest) b.arena → count = (gone ++ rest).length →
      Settles b (b.removeEach count gone) buckets buckets (gone ++ rest) rest
  | [], _, _, fits, _ => .refl fits
  | e :: gone, count, b, fits, counted => by
      have first : Settles b (b.removeLocked count e) buckets buckets (e :: (gone ++ rest))
          (gone ++ rest) := settles_removeLocked fits counted
      refine first.trans (settles_removeEach gone first.fits ?_)
      rw [counted]
      rfl

/-! ### Storing -/

/-- What a block takes from `malloc` is in the count of slabs, or it is a block of its own. -/
theorem takeBlock_spec (total : Nat) (b : Books) :
    (b.takeBlock total).1.arena.mem = b.arena.mem ∧
      (b.takeBlock total).1.arena.charge = b.arena.charge ∧
      (b.takeBlock total).1.totalMem = b.totalMem ∧
      (b.takeBlock total).1.allocatedMem - slabSize * (b.takeBlock total).1.arena.slabs =
        b.allocatedMem - slabSize * b.arena.slabs +
          (if classFor total = none then (b.takeBlock total).2 else 0 : Nat) := by
  unfold Books.takeBlock
  cases classFor total with
  | none =>
      refine ⟨rfl, rfl, rfl, ?_⟩
      simp only [Books.blockAlloc, if_true]
      omega
  | some cls =>
      dsimp only
      split
      · exact ⟨rfl, rfl, rfl, by simp⟩
      · split
        · refine ⟨rfl, rfl, rfl, ?_⟩
          simp only [Books.blockAlloc, reduceCtorEq, if_false]
          push_cast
          rw [Int.mul_add, Int.mul_one]
          omega
        · exact ⟨rfl, rfl, rfl, by simp⟩

/-- The charge for a new entry is what it will be refunded. -/
theorem takeBlock_charge {key value : Bytes} (b : Books) (short : key.length + value.length < 2 ^ 32)
    (h exp : Nat) : (b.takeBlock (entrySize + key.length + value.length)).2 =
      (Entry.create h key value exp).refund := by
  unfold Books.takeBlock Entry.refund Entry.create
  dsimp only
  cases classFor (entrySize + key.length + value.length) with
  | none =>
      dsimp only
      rw [Nat.mod_eq_of_lt short]
      omega
  | some cls =>
      dsimp only
      split
      · rfl
      · split <;> rfl

section Alloc

variable {h exp : Nat} {key value : Bytes}

/-- What `entry_alloc` does for the entry that the block is for. -/
theorem entryAlloc_spec (h exp : Nat) (b : Books) (short : key.length + value.length < 2 ^ 32) :
    let e := Entry.create h key value exp
    let b' := b.entryAlloc key (entrySize + key.length + value.length)
    b'.arena.mem = b.arena.mem + e.refund ∧ b'.totalMem = b.totalMem + e.refund ∧
      b'.allocatedMem - slabSize * b'.arena.slabs =
        b.allocatedMem - slabSize * b.arena.slabs + e.returned ∧
      b'.arena.charge = Function.update b.arena.charge key e.refund := by
  obtain ⟨mem, charge, total, allocated⟩ :=
    takeBlock_spec (entrySize + key.length + value.length) b
  have got := takeBlock_charge b short h exp
  rw [got] at allocated
  intro e b'
  refine ⟨?_, ?_, allocated, ?_⟩
  · change (b.takeBlock (entrySize + key.length + value.length)).1.arena.mem
      + (b.takeBlock (entrySize + key.length + value.length)).2 = _
    rw [mem, got]
  · change (b.takeBlock (entrySize + key.length + value.length)).1.totalMem
      + (b.takeBlock (entrySize + key.length + value.length)).2 = _
    rw [total, got]
  · change Function.update (b.takeBlock (entrySize + key.length + value.length)).1.arena.charge key
      (b.takeBlock (entrySize + key.length + value.length)).2 = _
    rw [charge, got]

/-- A charge for one key is not seen by entries of other keys. -/
theorem charge_apart {a a' : Arena} {got : Nat} (charge : a'.charge = Function.update a.charge key got)
    (apart : ∀ e ∈ held, e.key ≠ key) : ∀ e ∈ held, a'.charge e.key = a.charge e.key :=
  fun e mem => by rw [charge, Function.update_of_ne (apart e mem)]

/-- The entries of other keys beside a new one, once `mem` is right. -/
theorem fits_charged {a a' : Arena} {e : Entry} (buckets : Nat)
    (charge : a'.charge = Function.update a.charge e.key e.refund)
    (apart : ∀ x ∈ held, x.key ≠ e.key) (sized : ∀ x ∈ held, a.charge x.key = x.refund)
    (mem : a'.mem = (buckets * pointerSize + chargedBytes a held + e.refund : Nat)) :
    Fits buckets (e :: held) a' ∧ ownBytes a' (e :: held) = e.returned + ownBytes a held := by
  have same := charge_apart charge apart
  have own : a'.charge e.key = e.refund := by rw [charge, Function.update_self]
  refine ⟨⟨?_, ?_, fun none_ => by cases none_⟩, ?_⟩
  · rw [(shares_cons held own).1, chargedBytes_congr same, mem]
    omega
  · intro x inside
    rcases List.mem_cons.mp inside with rfl | old
    · exact own
    · rw [same x old, sized x old]
  · rw [(shares_cons held own).2, ownBytes_congr same]

theorem settles_new (fits : Fits buckets held b.arena) (absent : ∀ e ∈ held, e.key ≠ key)
    (short : key.length + value.length < 2 ^ 32) (h exp : Nat) :
    Settles b (b.entryAlloc key (entrySize + key.length + value.length)) buckets buckets held
      (Entry.create h key value exp :: held) := by
  obtain ⟨mem, total, allocated, charge⟩ := entryAlloc_spec h exp b short
  have before := fits.mem
  obtain ⟨fits', own⟩ := fits_charged buckets (e := Entry.create h key value exp) charge
    absent fits.sized (by rw [mem, before]; push_cast; omega)
  refine ⟨fits', by rw [mem, total]; omega, ?_⟩
  rw [obtained, obtained, own]
  push_cast
  omega

/-- The new block is taken before the old one is freed. -/
theorem settles_replaced (fits : Fits buckets (e :: rest) b.arena)
    (absent : ∀ x ∈ rest, x.key ≠ key) (short : key.length + value.length < 2 ^ 32) (h exp : Nat) :
    Settles b ((b.entryAlloc key (entrySize + key.length + value.length)).entryFree e) buckets buckets
      (e :: rest) (Entry.create h key value exp :: rest) := by
  obtain ⟨mem, total, allocated, charge⟩ := entryAlloc_spec h exp b short
  obtain ⟨freed, totalFreed, allocatedFreed, slabs, chargeFreed⟩ :=
    entryFree_spec e (b.entryAlloc key (entrySize + key.length + value.length))
  obtain ⟨share, old⟩ := shares_cons rest (fits.sized e List.mem_cons_self)
  have before := fits.mem
  rw [share] at before
  obtain ⟨fits', own⟩ := fits_charged buckets (e := Entry.create h key value exp)
    (chargeFreed.trans charge) absent (fun x inside => fits.sized x (List.mem_cons_of_mem e inside))
    (by rw [freed, mem, before]; push_cast; omega)
  refine ⟨fits', by rw [freed, totalFreed, mem, total]; omega, ?_⟩
  rw [obtained, obtained, own, old, slabs, allocatedFreed]
  push_cast
  omega

end Alloc

/-- A larger table. -/
theorem settles_maybeResize (fits : Fits buckets held b.arena) (count : Nat) :
    Settles b (b.maybeResize count buckets) buckets
      (if count ≤ buckets * 2 then buckets else buckets * 2) held held := by
  have before := fits.mem
  have delta : buckets * 2 * pointerSize - buckets * pointerSize = buckets * pointerSize := by
    unfold pointerSize
    omega
  have twice : buckets * 2 * pointerSize = buckets * pointerSize + buckets * pointerSize := by
    unfold pointerSize
    omega
  unfold Books.maybeResize
  split
  · exact .refl fits
  · dsimp only [Books.blockAlloc]
    rw [delta]
    refine ⟨⟨?_, fits.sized, fits.empty⟩, ?_, ?_⟩
    · change b.arena.mem + _ = ((buckets * 2 * pointerSize + chargedBytes b.arena held : Nat) : Int)
      rw [twice, before]
      omega
    · dsimp only
      omega
    · change b.allocatedMem + _ - _ - ((buckets * 2 * pointerSize + slabSize * b.arena.slabs
        + ownBytes b.arena held : Nat) : Int) = _
      rw [twice, obtained]
      omega

/-- A change of entries that the arena does not see. -/
theorem settles_updateKey {key : Bytes} {f : Entry → Entry} (fits : Fits buckets held b.arena)
    (same : ∀ e ∈ held, e.key = key → (f e).key = key ∧ (f e).cls = e.cls ∧ (f e).refund = e.refund) :
    Settles b b buckets buckets held (updateKey Entry.key key f held) := by
  have charged : chargedBytes b.arena (updateKey Entry.key key f held) = chargedBytes b.arena held := by
    have keys := map_key_updateKey Entry.key (fun e mem named => (same e mem named).1)
    have sums := congrArg (fun keys => (keys.map b.arena.charge).sum) keys
    simpa only [chargedBytes, List.map_map, Function.comp_def] using sums
  have own : ownBytes b.arena (updateKey Entry.key key f held) = ownBytes b.arena held := by
    rw [ownBytes, updateKey, List.map_map, ownBytes]
    refine congrArg List.sum (List.map_congr_left fun e mem => ?_)
    by_cases here : e.key = key
    · obtain ⟨named, cls, -⟩ := same e mem here
      simp only [Function.comp_def, here, if_true, named, cls]
    · simp only [Function.comp_def, here, if_false]
  refine ⟨⟨charged ▸ fits.mem, ?_, fun none_ => fits.empty ?_⟩, rfl, by rw [obtained, obtained, own]⟩
  · intro e mem
    rcases (mem_updateKey Entry.key).mp mem with ⟨old, -⟩ | ⟨x, old, named, rfl⟩
    · exact fits.sized e old
    · obtain ⟨key_, -, refund⟩ := same x old named
      rw [key_, refund, ← fits.sized x old, named]
  · rw [updateKey] at none_
    exact List.map_eq_nil_iff.mp none_

end Shards

/-! ## A put -/

section Put

variable {s : Shard} {b : Books} {key value : Bytes} {exp : Nat} {e : Entry}

theorem Shard.put_new_buckets (ok : s.Ok) (missing : s.find (hashKey key) key = none) :
    (s.put (hashKey key) key value exp).buckets.length =
      if s.count + 1 ≤ s.buckets.length * 2 then s.buckets.length else s.buckets.length * 2 := by
  simp only [Shard.put, missing, Shard.maybeResize, Shard.rechain, List.length_modify]
  split
  · exact List.length_modify ..
  · exact (Shard.rehash_spec (Nat.mul_pos ok.room (by decide)) _).1

theorem Shard.put_old_buckets (found : s.find (hashKey key) key = some e) :
    (s.put (hashKey key) key value exp).buckets.length = s.buckets.length := by
  simp only [Shard.put, found, Shard.rechain, List.length_modify]

/-- The one entry of a key beside the entries of other keys. -/
theorem Shard.entries_found (hashed : s.Hashed) (mem : e ∈ s.entries) (named : e.key = key) :
    s.entries.Perm (e :: dropKey Entry.key key s.entries) := by
  have constant : updateKey Entry.key key (fun _ => e) s.entries = s.entries := by
    refine (List.map_congr_left fun x inside => ?_).trans (List.map_id _)
    split
    · rename_i same
      exact (List.inj_on_of_nodup_map hashed.once inside mem (same.trans named.symm)).symm
    · rfl
  have perm := updateKey_perm (y := e) hashed.once ⟨e, mem, named⟩
  rwa [constant] at perm

/-- In place: the block and what it would be refunded stay. -/
theorem Entry.overwrite_kept (fitsIn : entrySize + e.key.length + value.length ≤ e.capacity)
    (kept : e.cls = none → e.value.length ≤ value.length) :
    (e.overwrite value exp).cls = e.cls ∧ (e.overwrite value exp).refund = e.refund := by
  rw [Entry.overwrite, if_pos fitsIn]
  refine ⟨rfl, ?_⟩
  unfold Entry.capacity at fitsIn
  unfold Entry.refund
  cases cls : e.cls with
  | none =>
      have length : value.length = e.value.length := by
        have long := kept cls
        rw [cls] at fitsIn
        dsimp only at fitsIn
        omega
      simp only [length]
  | some c => rfl

theorem settles_put (ok : s.Ok) (hashed : s.Hashed) (fits : Fits s.buckets.length s.entries b.arena)
    (short : key.length + value.length < 2 ^ 32)
    (kept : ∀ e, s.find (hashKey key) key = some e → e.cls = none → e.value.length ≤ value.length) :
    Settles b (b.put s (hashKey key) key value) s.buckets.length
      (s.put (hashKey key) key value exp).buckets.length s.entries
      (s.put (hashKey key) key value exp).entries := by
  unfold Books.put
  dsimp only
  cases found : s.find (hashKey key) key with
  | none =>
      obtain ⟨-, added⟩ := Shard.entries_put_new value exp ok found
      have stored := settles_new fits (Shard.find_none ok hashed found) short (hashKey key) exp
      rw [Shard.put_new_buckets ok found]
      exact (stored.trans (settles_maybeResize stored.fits _)).perm (.refl _) added.symm
  | some e =>
      obtain ⟨mem, named⟩ := Shard.find_some ok found
      obtain ⟨-, updated⟩ := Shard.entries_put_old value exp ok hashed found
      have only : ∀ x ∈ s.entries, x.key = key → x = e := fun x inside same =>
        List.inj_on_of_nodup_map hashed.once inside mem (same.trans named.symm)
      rw [Shard.put_old_buckets found, updated]
      dsimp only
      split
      · rename_i fitsIn
        refine settles_updateKey fits fun x inside same => ?_
        obtain rfl := only x inside same
        rw [← named] at fitsIn
        exact ⟨(Entry.overwrite_key ..).trans named, Entry.overwrite_kept fitsIn (kept x found)⟩
      · rename_i tooLong
        have before := Shard.entries_found hashed mem named
        have after : (updateKey Entry.key key (Entry.overwrite value exp) s.entries).Perm
            (Entry.create (hashKey key) key value exp :: dropKey Entry.key key s.entries) := by
          have constant : updateKey Entry.key key (Entry.overwrite value exp) s.entries =
              updateKey Entry.key key (fun _ => Entry.create (hashKey key) key value exp) s.entries := by
            refine List.map_congr_left fun x inside => ?_
            by_cases same : x.key = key
            · obtain rfl := only x inside same
              rw [if_pos same, if_pos same, Entry.overwrite, named, if_neg tooLong,
                hashed.hashed x mem, named]
            · rw [if_neg same, if_neg same]
          rw [constant]
          exact updateKey_perm hashed.once ⟨e, mem, named⟩
        have replaced := settles_replaced (fits.perm before)
          (fun x inside => ((mem_dropKey Entry.key).mp inside).2) short (hashKey key) exp
        exact replaced.perm before after.symm

end Put

/-! ## Removals -/

section Removals

variable {s : Shard} {b : Books} {key : Bytes} {e : Entry}

theorem settles_remove (ok : s.Ok) (hashed : s.Hashed) (found : s.find (hashKey key) key = some e)
    (fits : Fits s.buckets.length s.entries b.arena) :
    Settles b (b.removeLocked s.count e) s.buckets.length (s.remove (hashKey key) key).buckets.length
      s.entries (s.remove (hashKey key) key).entries := by
  obtain ⟨mem, named⟩ := Shard.find_some ok found
  have split := Shard.entries_found hashed mem named
  rw [Shard.entries_remove ok hashed, Shard.remove, Shard.rechain, List.length_modify]
  exact (settles_removeLocked (fits.perm split) (ok.counted.trans split.length_eq)).perm split (.refl _)

theorem settles_sweep {now bucket : Nat} {chain : List Entry} (ok : s.Ok)
    (at_ : s.buckets[bucket]? = some chain) (fits : Fits s.buckets.length s.entries b.arena) :
    Settles b (b.removeEach s.count (chain.filter (Entry.isExpired now))) s.buckets.length
      (s.sweep now bucket).buckets.length s.entries (s.sweep now bucket).entries := by
  obtain ⟨-, split⟩ := Shard.sweep_ok now ok at_
  have table : (s.sweep now bucket).buckets.length = s.buckets.length := List.length_modify ..
  rw [table]
  exact (settles_removeEach _ (fits.perm split) (ok.counted.trans split.length_eq)).perm split (.refl _)

theorem settles_evict {idx : Nat} (ok : s.Ok) (counted : s.count ≠ 0)
    (picked : (s.probe idx).bind (fun b => (s.buckets.getD b []).head?) = some e)
    (fits : Fits s.buckets.length s.entries b.arena) :
    Settles b (b.removeLocked s.count e) s.buckets.length (s.evict idx).buckets.length
      s.entries (s.evict idx).entries := by
  obtain ⟨-, split⟩ := Shard.evict_split idx ok counted
  rw [picked] at split
  have table : (s.evict idx).buckets.length = s.buckets.length := by
    unfold Shard.evict
    split
    · exact List.length_modify ..
    · rfl
  rw [table]
  exact (settles_removeLocked (fits.perm split) (ok.counted.trans split.length_eq)).perm split (.refl _)

end Removals

/-! ## The counters of the cache -/

section Sums

variable {α β : Type}

theorem sum_modify (weight : α → Int) {xs : List α} {i : Nat} {x : α} (at_ : xs[i]? = some x)
    (f : α → α) :
    ((xs.modify i f).map weight).sum = (xs.map weight).sum - weight x + weight (f x) := by
  obtain ⟨before, after, eq, changed⟩ := exists_split at_
  rw [changed f, eq]
  simp only [List.map_append, List.map_cons, List.sum_append, List.sum_cons]
  omega

theorem zip_modify (f : α → α) (g : β → β) (xs : List α) (ys : List β) (i : Nat) :
    (xs.modify i f).zip (ys.modify i g) = (xs.zip ys).modify i (Prod.map f g) := by
  refine List.ext_getElem? fun j => ?_
  simp only [List.zip, List.getElem?_zipWith, List.getElem?_modify]
  cases xs[j]? with
  | none => rfl
  | some x =>
      cases ys[j]? with
      | none => rfl
      | some y => by_cases here : i = j <;> simp [here]

end Sums

namespace Metered

/-- Every shard with its arena. -/
def pairs (m : Metered) : List (Shard × Arena) := m.cache.shards.zip m.arenas

/-- What a shard's table and entries were charged. -/
def shardCharged (x : Shard × Arena) : Nat :=
  x.1.buckets.length * pointerSize + chargedBytes x.2 x.1.entries

/-- What a shard has from `malloc`. -/
def shardObtained (x : Shard × Arena) : Nat := obtained x.1.buckets.length x.1.entries x.2

structure Accounted (m : Metered) : Prop where
  ok : m.cache.Ok
  length : m.arenas.length = m.cache.shards.length
  fits : ∀ x ∈ m.pairs, Fits x.1.buckets.length x.1.entries x.2
  total : m.totalMem = (m.pairs.map (fun x => x.2.mem)).sum
  allocated : m.allocatedMem = (m.pairs.map (fun x => (shardObtained x : Int))).sum

variable {m : Metered} {i : Nat} {s : Shard} {next : Local}

theorem Accounted.arena (accounted : m.Accounted) (at_ : m.cache.shards[i]? = some s) :
    ∃ a, m.arenas[i]? = some a ∧ m.arenas.getD i (.fresh 0) = a ∧ m.pairs[i]? = some (s, a) := by
  have lt : i < m.arenas.length := by
    rw [accounted.length]
    exact (List.getElem?_eq_some_iff.mp at_).1
  have found := List.getElem?_eq_getElem lt
  refine ⟨m.arenas[i], found, ?_, ?_⟩
  · rw [List.getD_eq_getElem?_getD, found, Option.getD_some]
  · rw [pairs, List.getElem?_zip_eq_some]
    exact ⟨at_, found⟩

/-- A section on one shard: the counters follow the shard's. -/
theorem Accounted.locked {f : Books → Books} {g : Shard → Shard} (accounted : m.Accounted)
    (at_ : m.cache.shards[i]? = some s) (shards : next.shards = m.cache.shards.modify i g)
    (nextOk : next.Ok)
    (settles : ∀ b : Books, Fits s.buckets.length s.entries b.arena →
      Settles b (f b) s.buckets.length (g s).buckets.length s.entries (g s).entries) :
    (m.locked i f next).Accounted := by
  obtain ⟨a, here, home, pair⟩ := accounted.arena at_
  have done := settles ⟨a, m.totalMem, m.allocatedMem⟩ (accounted.fits _ (List.mem_of_getElem? pair))
  generalize result : f ⟨a, m.totalMem, m.allocatedMem⟩ = b at done
  have eq : m.locked i f next =
      ⟨next, m.arenas.modify i (fun _ => b.arena), b.totalMem, b.allocatedMem⟩ := by
    rw [Metered.locked, home, result]
  have paired : (m.locked i f next).pairs =
      m.pairs.modify i (Prod.map g (fun _ => b.arena)) := by
    rw [eq, pairs, pairs, ← zip_modify, ← shards]
  refine ⟨eq ▸ nextOk, ?_, ?_, ?_, ?_⟩
  · rw [eq]
    dsimp only
    rw [shards, List.length_modify, List.length_modify, accounted.length]
  · intro x mem
    rw [paired] at mem
    obtain ⟨before, after, split, changed⟩ := exists_split pair
    rw [changed] at mem
    have old : ∀ y, y ∈ before ∨ y ∈ after → Fits y.1.buckets.length y.1.entries y.2 :=
      fun y side => accounted.fits y (split ▸ by simp only [List.mem_append, List.mem_cons]; tauto)
    rcases List.mem_append.mp mem with first | later
    · exact old x (Or.inl first)
    · rcases List.mem_cons.mp later with rfl | second
      · exact done.fits
      · exact old x (Or.inr second)
  · have total := done.total
    have sum := accounted.total
    rw [paired, sum_modify _ pair, ← sum, eq]
    dsimp only [Prod.map] at total ⊢
    omega
  · have allocated := done.allocated
    have sum := accounted.allocated
    rw [paired, sum_modify _ pair, ← sum, eq]
    dsimp only [Prod.map, shardObtained] at allocated ⊢
    omega

theorem Accounted.unchanged (accounted : m.Accounted) (shards : next.shards = m.cache.shards)
    (nextOk : next.Ok) : ({ m with cache := next } : Metered).Accounted := by
  have paired : ({ m with cache := next } : Metered).pairs = m.pairs := by
    rw [pairs, pairs, shards]
  refine ⟨nextOk, shards ▸ accounted.length, ?_, ?_, ?_⟩
  · rw [paired]
    exact accounted.fits
  · rw [paired]
    exact accounted.total
  · rw [paired]
    exact accounted.allocated

theorem Accounted.unlink {key : Bytes} (accounted : m.Accounted) (nextOk : next.Ok)
    (removed : next.shards = match m.cache.find key with
      | some _ => m.cache.shards.modify (m.cache.shardOf (hashKey key)) (Shard.remove (hashKey key) key)
      | none => m.cache.shards) :
    (m.unlink key next).Accounted := by
  unfold Metered.unlink
  cases found : m.cache.find key with
  | none =>
      rw [found] at removed
      exact accounted.unchanged removed nextOk
  | some e =>
      rw [found] at removed
      obtain ⟨shardOk, hashed⟩ := accounted.ok.home_ok key
      exact accounted.locked (accounted.ok.home key) removed nextOk
        (fun b fits => settles_remove shardOk hashed found fits)

theorem evict_none {c : Local} {idx : Nat} (nobody : c.victim i idx = none) :
    (c.evict i idx).shards = c.shards := by
  unfold Local.victim at nobody
  unfold Local.evict
  dsimp only at nobody ⊢
  split
  · rfl
  · rename_i counted
    rw [if_neg counted] at nobody
    refine modify_fixed fun s at_ => ?_
    have home : c.shards.getD i ⟨[], 0⟩ = s := by
      rw [List.getD_eq_getElem?_getD, at_, Option.getD_some]
    rw [home] at nobody
    unfold Shard.evict
    cases probed : s.probe idx with
    | none => rfl
    | some b =>
        have filled := List.find?_some probed
        rw [probed, Option.bind_some, List.head?_eq_none_iff] at nobody
        exact absurd nobody (by simpa using filled)

/-- A put does not shorten an entry with a block of its own, and its key and value have fewer than
`2 ^ 32` bytes together. -/
def keeps (c : Local) : Section → Bool
  | .put key value _ => key.length + value.length < 2 ^ 32 &&
      (c.find key).all (fun e => e.cls.isSome || e.value.length ≤ value.length)
  | _ => true

theorem keeps_put {c : Local} {key value : Bytes} {exp : Nat}
    (kept : keeps c (.put key value exp) = true) : key.length + value.length < 2 ^ 32 ∧
      ∀ e, c.find key = some e → e.cls = none → e.value.length ≤ value.length := by
  simp only [keeps, Bool.and_eq_true, decide_eq_true_eq] at kept
  refine ⟨kept.1, fun e found direct => ?_⟩
  have all := kept.2
  rw [found] at all
  simpa [direct] using all

theorem Accounted.step (accounted : m.Accounted) {x : Section} (kept : keeps m.cache x = true) :
    (m.step x).Accounted := by
  have ok := accounted.ok
  cases x with
  | put key value exp =>
      obtain ⟨shardOk, hashed⟩ := ok.home_ok key
      obtain ⟨short, lasting⟩ := keeps_put kept
      exact accounted.locked (ok.home key) (Local.putAbs_shards ..) ok.putAbs
        (fun b fits => settles_put shardOk hashed fits short lasting)
  | expire key =>
      refine accounted.unlink ?_ ?_
      all_goals
        simp only [Section.run, Local.expire]
        cases found : m.cache.find key
      · exact ok
      · exact ok.unlink found
      · rfl
      · exact Local.unlink_shards ..
  | delete key =>
      refine accounted.unlink ?_ ?_
      all_goals
        simp only [Section.run, Local.delete]
        cases found : m.cache.find key
      · exact ok
      · exact (ok.unlink found).revised _
      · rfl
      · exact Local.unlink_shards ..
  | ticket => exact accounted.unchanged rfl ⟨ok.length, ok.shards, ok.placed, ok.hashed, ok.once⟩
  | sweep now ticket =>
      obtain ⟨i, s, b, shard, at_, home, bucket, chainAt⟩ := ok.ticket_at ticket
      have due : m.cache.due now ticket = (s.buckets.getD b []).filter (Entry.isExpired now) := by
        simp only [Local.due, shard, home, bucket]
      have swept : (m.cache.sweepBucket now ticket).shards = m.cache.shards.modify i (Shard.sweep now b) := by
        simp only [Local.sweepBucket, shard, home, bucket]
      simp only [Metered.step, shard, home, due]
      exact accounted.locked at_ swept (Local.sweepBucket_split now ticket ok).1
        (fun books fits => settles_sweep (ok.shards s (List.mem_of_getElem? at_)) chainAt fits)
  | evict i idx =>
      simp only [Metered.step]
      cases picked : m.cache.victim i idx with
      | none => exact accounted.unchanged (evict_none picked) (Local.evict_ok ok i idx)
      | some e =>
          unfold Local.victim at picked
          dsimp only at picked
          split at picked
          · cases picked
          · rename_i counted
            have at_ : m.cache.shards[i]? = some (m.cache.shards.getD i ⟨[], 0⟩) := by
              rw [List.getD_eq_getElem?_getD] at counted ⊢
              cases found : m.cache.shards[i]? with
              | none => simp [found] at counted
              | some s => rfl
            have evicted : (m.cache.evict i idx).shards = m.cache.shards.modify i (Shard.evict idx) := by
              simp only [Local.evict, if_neg counted]
            exact accounted.locked at_ evicted (Local.evict_ok ok i idx) (fun books fits =>
              settles_evict (ok.shards _ (List.mem_of_getElem? at_)) counted picked fits)

def keepsAll : Metered → List Section → Bool
  | _, [] => true
  | m, x :: rest => keeps m.cache x && keepsAll (m.step x) rest

theorem Accounted.steps : ∀ {sections : List Section} {m : Metered}, m.Accounted →
    keepsAll m sections = true → (m.steps sections).Accounted
  | [], _, accounted, _ => accounted
  | x :: rest, m, accounted, kept => by
      obtain ⟨here, later⟩ := (Bool.and_eq_true_iff ..).mp kept
      exact (accounted.step here).steps later

theorem accounted_blank (shardBits bucketBits : Nat) : (blank shardBits bucketBits).Accounted := by
  have paired : (blank shardBits bucketBits).pairs = List.replicate (2 ^ shardBits)
      (⟨List.replicate (2 ^ bucketBits) [], 0⟩, .fresh (2 ^ bucketBits)) := by
    rw [pairs, blank, Local.blank, List.zip_replicate, Nat.min_self]
  have none_ : (List.replicate (2 ^ bucketBits) ([] : List Entry)).flatten = [] :=
    List.flatten_replicate_nil
  refine ⟨Local.blank_ok .., ?_, ?_, ?_, ?_⟩
  · rw [blank, Local.blank, List.length_replicate, List.length_replicate]
  · intro x mem
    rw [paired] at mem
    obtain ⟨-, rfl⟩ := List.mem_replicate.mp mem
    refine ⟨?_, ?_, fun _ => rfl⟩
    · simp [Arena.fresh, chargedBytes, Shard.entries]
    · simp [Shard.entries]
  · rw [paired]
    simp [blank, Arena.fresh]
  · rw [paired]
    simp [blank, shardObtained, obtained, ownBytes, Arena.fresh, Shard.entries]

/-- What the counters should be. -/
structure Recounted (m : Metered) : Prop where
  mem : ∀ x ∈ m.pairs, x.2.mem = shardCharged x
  total : m.totalMem = ((m.pairs.map shardCharged).sum : Nat)
  allocated : m.allocatedMem = ((m.pairs.map shardObtained).sum : Nat)

theorem Accounted.recounted (accounted : m.Accounted) : m.Recounted where
  mem x inside := (accounted.fits x inside).mem
  total := by
    rw [accounted.total, Nat.cast_list_sum, List.map_map]
    exact congrArg List.sum (List.map_congr_left fun x inside => (accounted.fits x inside).mem)
  allocated := by
    rw [accounted.allocated, Nat.cast_list_sum, List.map_map]
    rfl

/-- The bytes of all tables. -/
def tables (c : Local) : Nat := (c.shards.map (fun s => s.buckets.length * pointerSize)).sum

theorem Accounted.sides (accounted : m.Accounted) :
    m.pairs.map Prod.fst = m.cache.shards ∧ m.pairs.map Prod.snd = m.arenas :=
  ⟨List.map_fst_zip accounted.length.ge, List.map_snd_zip accounted.length.le⟩

/-- Without entries only the tables are left. -/
theorem Accounted.emptied (accounted : m.Accounted) (empty : m.cache.count = 0) :
    ∀ x ∈ m.pairs, shardCharged x = x.1.buckets.length * pointerSize ∧
      shardObtained x = x.1.buckets.length * pointerSize := by
  intro x inside
  have shard : x.1 ∈ m.cache.shards := accounted.sides.1 ▸ List.mem_map_of_mem inside
  have none_ : x.1.entries = [] := by
    have zero : x.1.count = 0 :=
      List.sum_eq_zero_iff_forall_eq_nat.mp empty _ (List.mem_map_of_mem shard)
    exact List.length_eq_zero_iff.mp ((accounted.ok.shards _ shard).counted.symm.trans zero)
  have slabs := (accounted.fits x inside).empty none_
  rw [shardCharged, shardObtained, obtained, none_, slabs]
  exact ⟨rfl, rfl⟩

theorem Accounted.tables_left (accounted : m.Accounted) (empty : m.cache.count = 0) :
    m.totalMem = tables m.cache ∧ m.allocatedMem = tables m.cache ∧
      m.arenas.map Arena.mem =
        m.cache.shards.map (fun s => ((s.buckets.length * pointerSize : Nat) : Int)) := by
  have left := accounted.emptied empty
  have recounted := accounted.recounted
  obtain ⟨shards, arenas⟩ := accounted.sides
  have sum : m.pairs.map shardCharged = m.cache.shards.map (fun s => s.buckets.length * pointerSize) := by
    rw [← shards, List.map_map]
    exact List.map_congr_left (fun x inside => (left x inside).1)
  have sum' : m.pairs.map shardObtained = m.cache.shards.map (fun s => s.buckets.length * pointerSize) := by
    rw [← shards, List.map_map]
    exact List.map_congr_left (fun x inside => (left x inside).2)
  refine ⟨recounted.total.trans (by rw [sum, tables]), recounted.allocated.trans (by rw [sum', tables]), ?_⟩
  rw [← shards, ← arenas, List.map_map, List.map_map]
  refine List.map_congr_left fun x inside => ?_
  rw [Function.comp_apply, recounted.mem x inside, (left x inside).1]
  rfl

/-- In every run in which no put shortens an entry with a block of its own, the counters are what a
recount gives. A cache without entries has the figures of its tables, which are the first ones where
no table has grown. -/
theorem memory_recounted (nshards initialBuckets : Nat) (sections : List Section)
    (kept : keepsAll (create nshards initialBuckets) sections = true) :
    let start := create nshards initialBuckets
    let m := start.steps sections
    m.Recounted ∧ (m.cache.count = 0 →
      (m.totalMem = tables m.cache ∧ m.allocatedMem = tables m.cache) ∧
      (m.cache.shards.map (fun s => s.buckets.length)
          = start.cache.shards.map (fun s => s.buckets.length) →
        m.totalMem = start.totalMem ∧ m.allocatedMem = start.allocatedMem ∧
          m.arenas.map Arena.mem = start.arenas.map Arena.mem)) := by
  intro start m
  have first : start.Accounted := accounted_blank _ _
  have accounted : m.Accounted := first.steps kept
  refine ⟨accounted.recounted, fun empty => ?_⟩
  have none_ : start.cache.count = 0 := by
    rw [Local.count_eq first.ok]
    exact congrArg List.length (Local.contents_create nshards initialBuckets)
  obtain ⟨total, allocated, mems⟩ := accounted.tables_left empty
  obtain ⟨total₀, allocated₀, mems₀⟩ := first.tables_left none_
  refine ⟨⟨total, allocated⟩, fun same => ?_⟩
  have sizes : m.cache.shards.map (fun s => s.buckets.length * pointerSize) =
      start.cache.shards.map (fun s => s.buckets.length * pointerSize) := by
    have scaled := congrArg (List.map (· * pointerSize)) same
    simpa only [List.map_map, Function.comp_def] using scaled
  have casts : m.cache.shards.map (fun s => ((s.buckets.length * pointerSize : Nat) : Int)) =
      start.cache.shards.map (fun s => ((s.buckets.length * pointerSize : Nat) : Int)) := by
    have scaled := congrArg (List.map (Nat.cast : Nat → Int)) sizes
    simpa only [List.map_map, Function.comp_def] using scaled
  rw [total, allocated, mems, total₀, allocated₀, mems₀, tables, tables, sizes]
  exact ⟨rfl, rfl, casts⟩

/-- A slab entry shortened in place and then replaced by a longer one, a block of its own overwritten
with as many bytes, an expiry, an eviction and deletes. -/
def balanced : List Section :=
  [.put [1] [7, 7, 7] 0, .put [1] [7] 0, .put [1] (List.replicate 100 7) 0,
    .put [2] (List.replicate 5000 7) 0, .put [2] (List.replicate 5000 8) 9, .put [3] [] 4,
    .expire [3], .put [4] [9] 0, .evict 0 0, .evict 1 0, .delete [1], .delete [2], .delete [4]]

theorem memory_recounted_balanced :
    keepsAll (create 2 16) balanced = true ∧
      ((create 2 16).steps balanced).totalMem = (create 2 16).totalMem ∧
      ((create 2 16).steps balanced).allocatedMem = (create 2 16).allocatedMem := by
  have kept : keepsAll (create 2 16) balanced = true := by decide +kernel
  obtain ⟨total, allocated, -⟩ := ((memory_recounted 2 16 balanced kept).2 (by decide +kernel)).2
    (by decide +kernel)
  exact ⟨kept, total, allocated⟩

/-- A put of 5000 bytes, an overwrite in place with 4500, and a delete: 500 bytes stay on the
counters of an empty cache. -/
def shortened : List Section :=
  [.put [1] (List.replicate 5000 0) 0, .put [1] (List.replicate 4500 0) 0, .delete [1]]

/-- 33 keys of one shard, stored and deleted again. -/
def crowded : List Section :=
  let keys := (((List.range 256).map (fun k => [UInt8.ofNat k])).filter
    (fun key => hashKey key >>> 31 == 0)).take 33
  keys.map (fun key => .put key [] 0) ++ keys.map .delete

theorem memory_drifts :
    ((create 2 16).steps shortened).cache.count = 0 ∧
      ((create 2 16).steps shortened).totalMem = (create 2 16).totalMem + 500 ∧
      ((create 2 16).steps shortened).allocatedMem = (create 2 16).allocatedMem + 500 ∧
      ((create 2 16).steps crowded).cache.count = 0 ∧
      ((create 2 16).steps crowded).totalMem = (create 2 16).totalMem + 128 ∧
      ((create 2 16).steps crowded).allocatedMem = (create 2 16).allocatedMem + 128 := by
  decide +kernel

end Metered

end KuttiDB.Cache
