/- # KuttiDB.Cache.Sweeping -- what a window of sweep tickets clears

A sweep takes tickets from a shared cursor and cleans one bucket for each. The local cache takes the
shard from the low bits of the ticket and the bucket from the bits above, so that any window of as
many tickets as there are buckets goes to every bucket once. Its counter of entries with an expiry
gates the sweep; the counter is exact in every state, so the gate is shut only when there is nothing
to clear, and whatever had expired when a window starts is gone when it ends.

The embedded cache takes the shard from the high bits of the ticket's product with 2654435761. That
product spreads the tickets over the shards but not evenly: in some run of as many tickets as there
are shards two tickets meet in one shard, so another shard is missed, and with it a bucket of the
whole window.
-/
import Mathlib.Order.Interval.Finset.Nat
import KuttiDB.Cache.Embedded
import KuttiDB.Cache.Scan

namespace KuttiDB.Cache

open KuttiDB.QueueStore
open KuttiDB.Theory

set_option autoImplicit false

/-! ## Caches that are swept by tickets -/

/-- A cache, the bucket each ticket of its sweep goes to, and when its tables have the sizes. -/
structure Swept (σ : Type) where
  start : σ → Prop
  step : Nat → Meanwhile → σ → σ
  contents : σ → List (Dated Bytes Bytes)
  ttlEntries : σ → Int
  sized : σ → Prop
  nshards : Nat
  nbuckets : Nat
  place : Nat → Nat × Nat

/-- The tickets a step asks for. -/
def Meanwhile.work : Meanwhile → Nat
  | .call (.sweep work) => work
  | .call (.put _ _ _) | .call (.get _) | .call (.delete _) | .evict _ _ => 0

def workOf (events : List (Nat × Meanwhile)) : Nat := (events.map (fun event => event.2.work)).sum

/-- The step puts this very entry. -/
def Meanwhile.Puts (d : Dated Bytes Bytes) : Meanwhile → Prop
  | .call (.put key value expiry) => (⟨key, value, expiry⟩ : Dated Bytes Bytes) = d
  | .call (.get _) | .call (.delete _) | .call (.sweep _) | .evict _ _ => False

namespace Swept

variable {σ : Type}

def run (w : Swept σ) (events : List (Nat × Meanwhile)) (c : σ) : σ :=
  events.foldl (fun c event => w.step event.1 event.2 c) c

/-- Any window of as many tickets as there are buckets goes to every bucket of every shard. -/
def Covers (w : Swept σ) : Prop :=
  ∀ first shard bucket, shard < w.nshards → bucket < w.nbuckets →
    ∃ ticket, first ≤ ticket ∧ ticket < first + w.nshards * w.nbuckets ∧
      w.place ticket = (shard, bucket)

/-- In every state the counter is zero only when no entry has an expiry. -/
def Counts (w : Swept σ) : Prop :=
  ∀ c events, w.start c → w.ttlEntries (w.run events c) = 0 →
    ∀ d ∈ w.contents (w.run events c), d.expiry = 0

/-- What has expired when a window of sweep work starts is gone when it ends. -/
def Clears (w : Swept σ) : Prop :=
  ∀ c before window now d, w.start c → d ∈ w.contents (w.run before c) →
    passed d.expiry now = true → (∀ event ∈ window, now ≤ event.1 ∧ ¬ event.2.Puts d) →
    (∀ early, early <+: window → w.sized (w.run (before ++ early) c)) →
    w.nshards * w.nbuckets ≤ workOf window → d ∉ w.contents (w.run (before ++ window) c)

structure Thorough (w : Swept σ) : Prop where
  covers : w.Covers
  counts : w.Counts
  clears : w.Clears

end Swept

/-! ## The two caches -/

/-- The bucket of a ticket in `kuttidb_sweep_expired`. -/
def localPlace (shardBits bucketBits ticket : Nat) : Nat × Nat :=
  (ticket &&& (2 ^ shardBits - 1), (ticket / 2 ^ shardBits) &&& (2 ^ bucketBits - 1))

/-- The bucket of a ticket in `embed_kuttidb_sweep_expired`. -/
def embedPlace (shardBits ticket : Nat) : Nat × Nat :=
  ((ticket * 2654435761 % 2 ^ 32) >>> (32 - shardBits),
    (ticket / 2 ^ shardBits) &&& (bucketsPerShard - 1))

def Region.meanwhile (now : Nat) : Meanwhile → Region → Region
  | .call request, r => (embedRun now request r).2
  | .evict shard start, r => ((embedEvict 1 shard start).alone r).2

/-- The tables of the local cache all have `2 ^ bucketBits` buckets. -/
def Local.Sized (bucketBits : Nat) (c : Local) : Prop :=
  ∀ s ∈ c.shards, s.buckets.length = 2 ^ bucketBits

def sweptLocal (shardBits bucketBits : Nat) : Swept Local where
  start c := ∃ initial, c = Local.blank shardBits initial
  step := Local.meanwhile
  contents := Local.contents
  ttlEntries := Local.ttlEntries
  sized := Local.Sized bucketBits
  nshards := 2 ^ shardBits
  nbuckets := 2 ^ bucketBits
  place := localPlace shardBits bucketBits

def sweptEmbedded (shardBits : Nat) : Swept Region where
  start r := r.mem.shardBits = shardBits ∧
    ∃ size shards, embedCreateSized size shards = some r
  step := Region.meanwhile
  contents r := r.mem.contents
  ttlEntries r := r.mem.ttlEntries
  sized r := r.mem.shardBits = shardBits
  nshards := 2 ^ shardBits
  nbuckets := bucketsPerShard
  place := embedPlace shardBits

/-- Which cache, and the sizes of its tables. -/
inductive TableLayout where
  | localCache (shardBits bucketBits : Nat)
  | embedded (shardBits : Nat)
  deriving DecidableEq, Repr

namespace TableLayout

/-- The shard number is part of a 32-bit hash. -/
def Addressed : TableLayout → Prop
  | .localCache shardBits _ => 1 ≤ shardBits
  | .embedded shardBits => 1 ≤ shardBits ∧ shardBits < 32

instance : DecidablePred Addressed
  | .localCache shardBits _ => inferInstanceAs (Decidable (1 ≤ shardBits))
  | .embedded shardBits => inferInstanceAs (Decidable (1 ≤ shardBits ∧ shardBits < 32))

def isLocal : TableLayout → Bool
  | .localCache _ _ => true
  | .embedded _ => false

def Thorough : TableLayout → Prop
  | .localCache shardBits bucketBits => (sweptLocal shardBits bucketBits).Thorough
  | .embedded shardBits => (sweptEmbedded shardBits).Thorough

end TableLayout

/-! ## Tickets of the local cache -/

/-- A window of `m` numbers has one of every residue. -/
theorem exists_residue (first : Nat) {m r : Nat} (lt : r < m) :
    ∃ t, first ≤ t ∧ t < first + m ∧ t % m = r := by
  have room : 0 < m := by omega
  refine ⟨first + (r + (m - first % m)) % m, Nat.le_add_right _ _,
    Nat.add_lt_add_left (Nat.mod_lt _ room) _, ?_⟩
  have below := Nat.mod_lt first room
  calc (first + (r + (m - first % m)) % m) % m
      = (first % m + (r + (m - first % m))) % m := by rw [Nat.add_mod_mod, Nat.mod_add_mod]
    _ = (r + m) % m := by congr 1; omega
    _ = r := by rw [Nat.add_mod_right, Nat.mod_eq_of_lt lt]

theorem covers_local (shardBits bucketBits : Nat) : (sweptLocal shardBits bucketBits).Covers := by
  intro first shard bucket inShards inBuckets
  have inside : shard < 2 ^ shardBits := inShards
  have lt : shard + 2 ^ shardBits * bucket < 2 ^ shardBits * 2 ^ bucketBits := by
    have room : bucket + 1 ≤ 2 ^ bucketBits := inBuckets
    have grown := Nat.mul_le_mul_left (2 ^ shardBits) room
    rw [Nat.mul_add, Nat.mul_one] at grown
    omega
  obtain ⟨ticket, lower, upper, residue⟩ := exists_residue first lt
  refine ⟨ticket, lower, upper, ?_⟩
  have low : ticket % 2 ^ shardBits = shard := by
    rw [← Nat.mod_mul_right_mod ticket (2 ^ shardBits) (2 ^ bucketBits), residue,
      Nat.add_mul_mod_self_left, Nat.mod_eq_of_lt inside]
  have high : ticket / 2 ^ shardBits % 2 ^ bucketBits = bucket := by
    rw [← Nat.mod_mul_right_div_self, residue, Nat.add_mul_div_left _ _ (Nat.two_pow_pos _),
      Nat.div_eq_of_lt inside, Nat.zero_add]
  show localPlace shardBits bucketBits ticket = _
  rw [localPlace, Nat.and_two_pow_sub_one_eq_mod, Nat.and_two_pow_sub_one_eq_mod, low, high]

/-! ## The counter of entries with an expiry -/

def ttlSum (entries : List (Dated Bytes Bytes)) : Int :=
  (entries.map (fun d => ttlOf d.expiry)).sum

theorem ttlSum_cons (d : Dated Bytes Bytes) (entries : List (Dated Bytes Bytes)) :
    ttlSum (d :: entries) = ttlOf d.expiry + ttlSum entries := List.sum_cons

theorem ttlSum_append (xs ys : List (Dated Bytes Bytes)) :
    ttlSum (xs ++ ys) = ttlSum xs + ttlSum ys := by
  rw [ttlSum, List.map_append, List.sum_append]
  rfl

theorem ttlSum_perm {xs ys : List (Dated Bytes Bytes)} (perm : xs.Perm ys) :
    ttlSum xs = ttlSum ys := (perm.map _).sum_eq

theorem ttlOf_nonneg (exp : Nat) : 0 ≤ ttlOf exp := by
  unfold ttlOf
  split <;> decide

theorem ttlSum_nonneg : ∀ entries : List (Dated Bytes Bytes), 0 ≤ ttlSum entries
  | [] => Int.le_refl 0
  | d :: entries => by
      have here := ttlOf_nonneg d.expiry
      have rest := ttlSum_nonneg entries
      rw [ttlSum_cons]
      omega

/-- An entry with an expiry shows in the sum. -/
theorem ttlSum_pos {d : Dated Bytes Bytes} {entries : List (Dated Bytes Bytes)} (mem : d ∈ entries)
    (dated : d.expiry ≠ 0) : 0 < ttlSum entries := by
  have rest := ttlSum_nonneg (entries.erase d)
  rw [ttlSum_perm (List.perm_cons_erase mem), ttlSum_cons, ttlOf, if_neg dated]
  omega

theorem ttlSum_expired {now : Nat} : ∀ {entries : List Entry},
    (∀ e ∈ entries, e.isExpired now = true) → ttlSum (entries.map Entry.dated) = entries.length
  | [], _ => rfl
  | e :: entries, past => by
      have here : e.exp ≠ 0 := by
        have expired := past e List.mem_cons_self
        simp only [Entry.isExpired, passed, Bool.and_eq_true, bne_iff_ne] at expired
        exact expired.1
      have rest := ttlSum_expired (fun x mem => past x (List.mem_cons_of_mem _ mem))
      have one : ttlOf e.dated.expiry = 1 := if_neg here
      rw [List.map_cons, ttlSum_cons, rest, one, List.length_cons]
      omega

namespace Local

variable {c : Local} {now : Nat} {key value : Bytes} {exp : Nat}

/-- `ttl_entries` is the number of entries with an expiry. -/
def Counted (c : Local) : Prop := c.ttlEntries = ttlSum c.contents

theorem ttlHeld_add (ok : c.Ok) (key : Bytes) :
    ttlSum c.contents = c.ttlHeld key + ttlSum (dropKey Dated.key key c.contents) := by
  cases found : c.find key with
  | none =>
      rw [dropKey_of_absent Dated.key (absent_of_find ok found), ttlHeld, found]
      simp
  | some e =>
      obtain ⟨held, rfl⟩ := mem_contents_of_find ok found
      have split := List.perm_cons_erase held
      have others : (dropKey Dated.key e.key c.contents).Perm _ := ok.once_contents.dropKey_perm split
      rw [ttlSum_perm split, ttlSum_cons, ttlSum_perm others, ttlHeld, found]
      rfl

theorem Counted.putAbs (counted : c.Counted) (ok : c.Ok) : (c.putAbs key value exp).Counted := by
  have held := ttlHeld_add ok key
  have stored : (c.putAbs key value exp).ttlEntries = c.ttlEntries + ttlOf exp - c.ttlHeld key := by
    rw [Local.putAbs]
  rw [Counted, stored, ttlSum_perm (contents_putAbs ok), ttlSum_cons, counted]
  show _ = ttlOf exp + _
  omega

theorem Counted.unlink (counted : c.Counted) (ok : c.Ok) : (c.unlink key).Counted := by
  have held := ttlHeld_add ok key
  have left : (c.unlink key).ttlEntries = c.ttlEntries - c.ttlHeld key := by rw [Local.unlink]
  rw [Counted, left, contents_unlink ok, counted]
  omega

theorem Counted.sweepBucket (counted : c.Counted) (ok : c.Ok) (now ticket : Nat) :
    (c.sweepBucket now ticket).Counted := by
  have perm := (sweepBucket_split now ticket ok).2.map Entry.dated
  rw [List.map_append] at perm
  have expired : ttlSum ((c.due now ticket).map Entry.dated) = (c.due now ticket).length :=
    ttlSum_expired (fun e mem => (List.mem_filter.mp mem).2)
  have all : ttlSum c.contents =
      (c.due now ticket).length + ttlSum (c.sweepBucket now ticket).contents := by
    rw [contents, ttlSum_perm perm, ttlSum_append, expired]
    rfl
  show c.ttlEntries - (c.due now ticket).length = _
  rw [counted, all]
  omega

theorem Counted.evict (counted : c.Counted) (ok : c.Ok) (i idx : Nat) : (c.evict i idx).Counted := by
  have perm := (evict_split ok i idx).2.map Entry.dated
  rw [List.map_append] at perm
  have all : ttlSum c.contents =
      ttlSum ((c.victim i idx).toList.map Entry.dated) + ttlSum (c.evict i idx).contents := by
    rw [contents, ttlSum_perm perm, ttlSum_append]
    rfl
  have taken : (c.evict i idx).ttlEntries =
      c.ttlEntries - ttlSum ((c.victim i idx).toList.map Entry.dated) := by
    simp only [Local.evict, victim]
    split
    · exact (Int.sub_zero _).symm
    · cases ((c.shards.getD i ⟨[], 0⟩).probe idx).bind
        (fun b => ((c.shards.getD i ⟨[], 0⟩).buckets.getD b []).head?) with
      | none => rfl
      | some e => exact congrArg (c.ttlEntries - ·) (Int.add_zero _).symm
  rw [Counted, taken, counted, all]
  omega

/-! ## One ticket -/

/-- A ticket changes neither the number of shards nor the sizes of their tables. -/
theorem Sized.sweepBucket {bucketBits : Nat} (sized : c.Sized bucketBits) (now ticket : Nat) :
    (c.sweepBucket now ticket).Sized bucketBits := by
  intro s mem
  obtain ⟨j, at_⟩ := List.mem_iff_getElem?.mp mem
  have changed : (c.shards.modify (ticket &&& (c.nshards - 1)) (Shard.sweep now
      ((ticket / c.nshards) &&&
        ((c.shards.getD (ticket &&& (c.nshards - 1)) ⟨[], 0⟩).buckets.length - 1))))[j]? = some s := at_
  rw [List.getElem?_modify] at changed
  obtain ⟨old, found, rfl⟩ := Option.map_eq_some_iff.mp changed
  have before := sized old (List.mem_of_getElem? found)
  split
  · rw [Shard.sweep, Shard.rechain, List.length_modify, before]
  · exact before

/-- The bucket of a key. -/
def homeOf (shardBits bucketBits : Nat) (key : Bytes) : Nat × Nat :=
  (hashKey key >>> (32 - shardBits), hashKey key &&& (2 ^ bucketBits - 1))

/-- A ticket leaves nothing expired in its bucket. -/
theorem sweepBucket_clears {bucketBits ticket : Nat} {d : Dated Bytes Bytes} (ok : c.Ok)
    (sized : c.Sized bucketBits) (past : passed d.expiry now = true)
    (left : d ∈ (c.sweepBucket now ticket).contents) :
    localPlace c.shardBits bucketBits ticket ≠ homeOf c.shardBits bucketBits d.key := by
  intro same
  obtain ⟨i, s, b, shard, at_, home, bucket, chainAt⟩ := ok.ticket_at ticket
  obtain ⟨sweptOk, -⟩ := sweepBucket_split now ticket ok
  obtain ⟨e, mem, rfl⟩ := List.mem_map.mp left
  have shards : (c.sweepBucket now ticket).shards = c.shards.modify i (Shard.sweep now b) := by
    simp only [Local.sweepBucket, shard, home, bucket]
  rw [nshards, ok.length] at shard
  rw [nshards, ok.length, sized s (List.mem_of_getElem? at_)] at bucket
  have hashed : e.hash = hashKey e.key := sweptOk.hashed e mem
  have parts := Prod.ext_iff.mp same
  have inShard : e.hash >>> (32 - c.shardBits) = i := hashed ▸ (parts.1.symm.trans shard)
  have inBucket : e.hash &&& (2 ^ bucketBits - 1) = b := hashed ▸ (parts.2.symm.trans bucket)
  -- the entry stands in shard `i` after the ticket, and there in bucket `b`
  have after : (c.sweepBucket now ticket).shards[i]? = some (Shard.sweep now b s) := by
    rw [shards, List.getElem?_modify_eq, at_]
    rfl
  obtain ⟨part, partAt, inPart⟩ := sweptOk.placed.mem_chain (entries_eq _ ▸ mem)
  have bits : (c.sweepBucket now ticket).shardBits = c.shardBits := rfl
  rw [bits, inShard, List.getElem?_map, after, Option.map_some] at partAt
  have inSwept : e ∈ (Shard.sweep now b s).entries := Option.some.inj partAt ▸ inPart
  have shardOk := sweptOk.shards _ (List.mem_of_getElem? after)
  have inChain := shardOk.mem_chain inSwept
  have length : (Shard.sweep now b s).buckets.length = 2 ^ bucketBits :=
    (sized.sweepBucket now ticket) _ (List.mem_of_getElem? after)
  rw [Shard.chain, Shard.bucketOf, length, inBucket, List.getD_eq_getElem?_getD] at inChain
  have swept : (Shard.sweep now b s).buckets[b]? =
      some ((s.buckets.getD b []).filter (fun e => !e.isExpired now)) := by
    show (s.buckets.modify b _)[b]? = _
    rw [List.getElem?_modify_eq, chainAt]
    rfl
  rw [swept, Option.getD_some] at inChain
  have fresh := (List.mem_filter.mp inChain).2
  have expired : e.isExpired now = true := past
  rw [expired] at fresh
  exact absurd fresh (by decide)

/-! ## Sweeps -/

theorem takeTicket_ok (ok : c.Ok) : c.takeTicket.Ok :=
  ⟨ok.length, ok.shards, ok.placed, ok.hashed, ok.once⟩

theorem Counted.sweepLoop (now : Nat) : ∀ (work : Nat) {c : Local}, c.Counted → c.Ok →
    (c.sweepLoop now work).Counted
  | 0, _, counted, _ => counted
  | work + 1, c, counted, ok => by
      have taken : c.takeTicket.Counted := counted
      have ticketOk := takeTicket_ok ok
      exact Counted.sweepLoop now work (taken.sweepBucket ticketOk now c.sweepCursor)
        (sweepBucket_split now c.sweepCursor ticketOk).1

theorem sweepLoop_cursor (now : Nat) : ∀ (work : Nat) (c : Local),
    (c.sweepLoop now work).sweepCursor = c.sweepCursor + work
  | 0, _ => rfl
  | work + 1, c => by
      refine (sweepLoop_cursor now work _).trans ?_
      show c.sweepCursor + 1 + work = _
      omega

/-- A sweep leaves nothing expired in the buckets of its tickets. -/
theorem sweepLoop_clears {bucketBits : Nat} {d : Dated Bytes Bytes}
    (past : passed d.expiry now = true) : ∀ {work : Nat} {c : Local}, c.Ok → c.Sized bucketBits →
      d ∈ (c.sweepLoop now work).contents → ∀ ticket, c.sweepCursor ≤ ticket →
        ticket < c.sweepCursor + work →
        localPlace c.shardBits bucketBits ticket ≠ homeOf c.shardBits bucketBits d.key
  | 0, _, _, _, _, _, lower, upper => absurd upper (by omega)
  | work + 1, c, ok, sized, left, ticket, lower, upper => by
      have ticketOk := takeTicket_ok ok
      have nextOk := (sweepBucket_split now c.sweepCursor ticketOk).1
      have nextSized : (c.takeTicket.sweepBucket now c.sweepCursor).Sized bucketBits :=
        Sized.sweepBucket (c := c.takeTicket) sized now c.sweepCursor
      rcases Nat.eq_or_lt_of_le lower with rfl | later
      · obtain ⟨-, gone, split, -⟩ := sweepLoop_ok now work nextOk
        have stayed : d ∈ (c.takeTicket.sweepBucket now c.sweepCursor).contents :=
          split.mem_iff.mpr (List.mem_append_right _ left)
        exact sweepBucket_clears (c := c.takeTicket) ticketOk sized past stayed
      · refine sweepLoop_clears past nextOk nextSized left ticket later ?_
        show ticket < c.sweepCursor + 1 + work
        omega

/-! ## Whole runs -/

-- over an arbitrary state: at `c.unlink key` the kernel would evaluate the hash
theorem Counted.revised (counted : c.Counted) (revision : Nat) :
    ({ c with revision := revision } : Local).Counted := counted

theorem Counted.meanwhile (counted : c.Counted) (ok : c.Ok) (now : Nat) :
    ∀ event, (c.meanwhile now event).Counted
  | .evict i idx => counted.evict ok i idx
  | .call (.put key value expiry) => by
      show (c.putAbs key value expiry).Counted
      exact counted.putAbs ok
  | .call (.get key) => by
      show (c.get now key).2.Counted
      unfold get
      cases c.lookupCopy now key with
      | miss => exact counted
      | hit value => exact counted
      | expired =>
          show (c.expire key).Counted
          unfold expire
          cases c.find key with
          | none => exact counted
          | some e => exact counted.unlink ok
  | .call (.delete key) => by
      show (c.delete key).2.Counted
      unfold delete
      cases c.find key with
      | none => exact counted
      | some e => exact (counted.unlink ok).revised _
  | .call (.sweep work) => by
      show (c.sweepExpired now work).Counted
      unfold sweepExpired
      split
      · exact counted
      · exact counted.sweepLoop now work ok

theorem meanwhile_ok (ok : c.Ok) (now : Nat) (event : Meanwhile) : (c.meanwhile now event).Ok :=
  meanwhiles_ok [(now, event)] ok

theorem Counted.meanwhiles : ∀ (events : List (Nat × Meanwhile)) {c : Local}, c.Counted → c.Ok →
    (c.meanwhiles events).Counted
  | [], _, counted, _ => counted
  | (now, event) :: rest, _, counted, ok =>
      Counted.meanwhiles rest (counted.meanwhile ok now event) (meanwhile_ok ok now event)

theorem blank_counted (shardBits bucketBits : Nat) : (blank shardBits bucketBits).Counted := by
  rw [Counted, contents, entries_blank]
  rfl

/-- An entry comes from a put of it. -/
theorem mem_of_meanwhile {d : Dated Bytes Bytes} {event : Meanwhile} (ok : c.Ok)
    (fresh : ¬ event.Puts d) (mem : d ∈ (c.meanwhile now event).contents) : d ∈ c.contents := by
  cases event with
  | evict i idx =>
      have perm := (evict_split ok i idx).2.map Entry.dated
      rw [List.map_append] at perm
      exact perm.mem_iff.mpr (List.mem_append_right _ mem)
  | call request =>
      have serves := (run_serves now request ok).2
      cases request with
      | put key value expiry =>
          rcases List.mem_cons.mp (serves.2.mem_iff.mp mem) with eq | old
          · exact absurd eq.symm fresh
          · exact ((mem_dropKey _).mp old).1
      | get key =>
          rcases serves with ⟨_, _, _, _, _, same⟩ | ⟨_, _, same⟩
          · exact same.mem_iff.mp mem
          · exact ((mem_dropKey _).mp (same.mem_iff.mp mem)).1
      | delete key => exact ((mem_dropKey _).mp (serves.2.mem_iff.mp mem)).1
      | sweep work =>
          obtain ⟨-, gone, split, -⟩ := serves
          exact split.mem_iff.mpr (List.mem_append_right _ mem)

theorem mem_of_meanwhiles {d : Dated Bytes Bytes} : ∀ {events : List (Nat × Meanwhile)} {c : Local},
    c.Ok → (∀ event ∈ events, ¬ event.2.Puts d) → d ∈ (c.meanwhiles events).contents →
      d ∈ c.contents
  | [], _, _, _, mem => mem
  | (now, event) :: rest, _, ok, fresh, mem => by
      have later := mem_of_meanwhiles (meanwhile_ok ok now event)
        (fun e inside => fresh e (List.mem_cons_of_mem _ inside)) mem
      exact mem_of_meanwhile ok (fresh _ List.mem_cons_self) later

theorem sweepLoop_shardBits (now : Nat) : ∀ (work : Nat) (c : Local),
    (c.sweepLoop now work).shardBits = c.shardBits
  | 0, _ => rfl
  | work + 1, _ => sweepLoop_shardBits now work _

theorem unlink_sweepCursor (c : Local) (key : Bytes) :
    (c.unlink key).sweepCursor = c.sweepCursor := by
  rw [unlink]

theorem expire_frame (c : Local) (key : Bytes) :
    (c.expire key).sweepCursor = c.sweepCursor ∧ (c.expire key).shardBits = c.shardBits := by
  unfold expire
  cases c.find key with
  | none => exact ⟨rfl, rfl⟩
  | some e => exact ⟨unlink_sweepCursor c key, unlink_shardBits c key⟩

theorem get_frame (c : Local) (now : Nat) (key : Bytes) :
    (c.get now key).2.sweepCursor = c.sweepCursor ∧ (c.get now key).2.shardBits = c.shardBits := by
  unfold get
  cases c.lookupCopy now key with
  | miss => exact ⟨rfl, rfl⟩
  | hit value => exact ⟨rfl, rfl⟩
  | expired => exact expire_frame c key

-- over an arbitrary state, as `Counted.revised`
theorem revised_frame (c : Local) (revision : Nat) :
    ({ c with revision := revision } : Local).sweepCursor = c.sweepCursor ∧
      ({ c with revision := revision } : Local).shardBits = c.shardBits := ⟨rfl, rfl⟩

theorem delete_frame (c : Local) (key : Bytes) :
    (c.delete key).2.sweepCursor = c.sweepCursor ∧ (c.delete key).2.shardBits = c.shardBits := by
  unfold delete
  cases c.find key with
  | none => exact ⟨rfl, rfl⟩
  | some e =>
      obtain ⟨cursor, bits⟩ := revised_frame (c.unlink key) (c.revision + 1)
      exact ⟨cursor.trans (unlink_sweepCursor c key), bits.trans (unlink_shardBits c key)⟩

theorem putAbs_sweepCursor (c : Local) (key value : Bytes) (exp : Nat) :
    (c.putAbs key value exp).sweepCursor = c.sweepCursor := by
  rw [putAbs]

theorem evict_frame (c : Local) (i idx : Nat) :
    (c.evict i idx).sweepCursor = c.sweepCursor ∧ (c.evict i idx).shardBits = c.shardBits := by
  unfold evict
  dsimp only
  split <;> exact ⟨rfl, rfl⟩

theorem meanwhile_shardBits (c : Local) (now : Nat) : ∀ event,
    (c.meanwhile now event).shardBits = c.shardBits
  | .evict i idx => (evict_frame c i idx).2
  | .call (.put key value expiry) => putAbs_shardBits c key value expiry
  | .call (.get key) => (get_frame c now key).2
  | .call (.delete key) => (delete_frame c key).2
  | .call (.sweep work) => by
      show (c.sweepExpired now work).shardBits = _
      unfold sweepExpired
      split
      · rfl
      · exact sweepLoop_shardBits now work c

theorem meanwhiles_shardBits : ∀ (events : List (Nat × Meanwhile)) (c : Local),
    (c.meanwhiles events).shardBits = c.shardBits
  | [], _ => rfl
  | (now, event) :: rest, c =>
      (meanwhiles_shardBits rest _).trans (meanwhile_shardBits c now event)

/-- The gate of the sweep is open while an entry with an expiry is there. -/
theorem Counted.gate {d : Dated Bytes Bytes} (counted : c.Counted) (mem : d ∈ c.contents)
    (dated : d.expiry ≠ 0) : c.ttlEntries ≠ 0 := by
  have pos := ttlSum_pos mem dated
  rw [counted]
  omega

/-- A step takes the tickets it asks for while the gate is open. -/
theorem meanwhile_cursor (gate : c.ttlEntries ≠ 0) (now : Nat) : ∀ event : Meanwhile,
    (c.meanwhile now event).sweepCursor = c.sweepCursor + event.work
  | .evict i idx => (evict_frame c i idx).1
  | .call (.put key value expiry) => putAbs_sweepCursor c key value expiry
  | .call (.get key) => (get_frame c now key).1
  | .call (.delete key) => (delete_frame c key).1
  | .call (.sweep work) => by
      show (c.sweepExpired now work).sweepCursor = _
      rw [sweepExpired, if_neg gate]
      exact sweepLoop_cursor now work c

/-- An expired entry that a run leaves stands in none of the buckets the run's tickets go to. -/
theorem meanwhiles_clear {bucketBits : Nat} {d : Dated Bytes Bytes}
    (past : passed d.expiry now = true) : ∀ {window : List (Nat × Meanwhile)} {c : Local}, c.Ok →
      c.Counted → (∀ event ∈ window, now ≤ event.1 ∧ ¬ event.2.Puts d) →
      (∀ early, early <+: window → (c.meanwhiles early).Sized bucketBits) →
      d ∈ (c.meanwhiles window).contents → ∀ ticket, c.sweepCursor ≤ ticket →
        ticket < c.sweepCursor + workOf window →
        localPlace c.shardBits bucketBits ticket ≠ homeOf c.shardBits bucketBits d.key
  | [], _, _, _, _, _, _, _, lower, upper => absurd upper (Nat.not_lt.mpr lower)
  | (at_, event) :: rest, c, ok, counted, window, sized, left, ticket, lower, upper => by
      have dated : d.expiry ≠ 0 := by
        simp only [passed, Bool.and_eq_true, bne_iff_ne] at past
        exact past.1
      have nextOk := meanwhile_ok ok at_ event
      have restWindow := fun e mem => window e (List.mem_cons_of_mem _ mem)
      have stayed : d ∈ (c.meanwhile at_ event).contents :=
        mem_of_meanwhiles nextOk (fun e mem => (restWindow e mem).2) left
      obtain ⟨due, fresh⟩ := window _ List.mem_cons_self
      have gate := counted.gate (mem_of_meanwhile ok fresh stayed) dated
      have cursor := meanwhile_cursor gate at_ event
      have total : workOf ((at_, event) :: rest) = event.work + workOf rest := List.sum_cons
      by_cases later : c.sweepCursor + event.work ≤ ticket
      · rw [← meanwhile_shardBits c at_ event]
        refine meanwhiles_clear past nextOk (counted.meanwhile ok at_ event) restWindow
          (fun early pre => sized _ (List.cons_prefix_cons.mpr ⟨rfl, pre⟩)) left ticket ?_ ?_
        · rw [cursor]
          exact later
        · rw [cursor]
          omega
      · -- the ticket is one of this step, which is therefore a sweep that was not turned away
        cases event with
        | evict i idx => exact absurd lower later
        | call request =>
            cases request with
            | put key value expiry => exact absurd lower later
            | get key => exact absurd lower later
            | delete key => exact absurd lower later
            | sweep work =>
                have swept : c.meanwhile at_ (.call (.sweep work)) = c.sweepLoop at_ work := by
                  show c.sweepExpired at_ work = _
                  rw [sweepExpired, if_neg gate]
                rw [swept] at stayed
                exact sweepLoop_clears (passed_mono due past) ok
                  (sized [] List.nil_prefix) stayed ticket lower (Nat.not_le.mp later)

theorem meanwhiles_append (early late : List (Nat × Meanwhile)) (c : Local) :
    c.meanwhiles (early ++ late) = (c.meanwhiles early).meanwhiles late := List.foldl_append

end Local

theorem counts_local (shardBits bucketBits : Nat) : (sweptLocal shardBits bucketBits).Counts := by
  rintro c events ⟨initial, rfl⟩ zero d mem
  by_contra dated
  have counted : ((Local.blank shardBits initial).meanwhiles events).Counted :=
    Local.Counted.meanwhiles events (Local.blank_counted ..) (Local.blank_ok ..)
  exact counted.gate mem dated zero

theorem clears_local (shardBits bucketBits : Nat) : (sweptLocal shardBits bucketBits).Clears := by
  rintro c before window now d ⟨initial, rfl⟩ - past meets sized enough left
  generalize reached : (Local.blank shardBits initial).meanwhiles before = c
  have ok : c.Ok := reached ▸ Local.meanwhiles_ok before (Local.blank_ok ..)
  have counted : c.Counted :=
    reached ▸ Local.Counted.meanwhiles before (Local.blank_counted ..) (Local.blank_ok ..)
  have bits : c.shardBits = shardBits := reached ▸ Local.meanwhiles_shardBits before _
  have split : ∀ late, (sweptLocal shardBits bucketBits).run (before ++ late)
      (Local.blank shardBits initial) = c.meanwhiles late :=
    fun late => reached ▸ Local.meanwhiles_append before late _
  have held : d ∈ (c.meanwhiles window).contents := split window ▸ left
  -- the window has a ticket for the bucket of the entry's key
  obtain ⟨ticket, lower, upper, home⟩ := covers_local shardBits bucketBits c.sweepCursor
    (Local.homeOf shardBits bucketBits d.key).1 (Local.homeOf shardBits bucketBits d.key).2
    (shiftRight_lt shardBits (hashKey_lt d.key)) (and_pred_lt _ (Nat.two_pow_pos bucketBits))
  have missed := Local.meanwhiles_clear past ok counted meets
    (fun early pre => split early ▸ sized early pre) held ticket lower (by omega)
  rw [bits] at missed
  exact missed home

/-! ## Tickets of the embedded cache -/

/-- For each number of shard bits, two tickets of one run of `2 ^ bits` that go to the same shard. -/
def clashes : List (Nat × Nat) :=
  [(4, 5), (0, 2), (0, 5), (0, 13), (1, 22), (0, 34), (0, 89), (0, 233), (0, 233), (0, 610),
   (0, 1597), (2, 2586), (0, 4181), (0, 10946), (0, 10946), (1, 50550), (1, 50550), (1, 50550),
   (0, 364789), (0, 364789), (0, 364789), (1, 2604073), (1, 2604073), (1, 2604073), (2, 2604074),
   (0, 47238085), (0, 97080242), (0, 244002641), (0, 244002641), (0, 244002641), (0, 244002641)]

theorem clashes_meet : ∀ entry ∈ clashes.zipIdx 1, entry.1.1 ≠ entry.1.2 ∧
    entry.1.1 / 2 ^ entry.2 = entry.1.2 / 2 ^ entry.2 ∧
    (embedPlace entry.2 entry.1.1).1 = (embedPlace entry.2 entry.1.2).1 := by
  decide +kernel

theorem exists_clash {shardBits : Nat} (one : 1 ≤ shardBits) (lt : shardBits < 32) :
    ∃ a b, a ≠ b ∧ a / 2 ^ shardBits = b / 2 ^ shardBits ∧
      (embedPlace shardBits a).1 = (embedPlace shardBits b).1 := by
  obtain ⟨i, rfl⟩ := Nat.exists_eq_add_of_le one
  have inside : i < clashes.length := by
    show i < 31
    omega
  have mem : (clashes[i], 1 + i) ∈ clashes.zipIdx 1 :=
    List.mem_zipIdx_iff_le_and_getElem?_sub.mpr ⟨by omega, by simp [inside]⟩
  exact ⟨_, _, clashes_meet _ mem⟩

/-- When a run of `n` tickets does not go to `n` shards, one shard is missed. -/
theorem exists_missed {n first a b : Nat} (f : Nat → Nat) (ne : a ≠ b)
    (inA : first ≤ a ∧ a < first + n) (inB : first ≤ b ∧ b < first + n) (same : f a = f b) :
    ∃ i < n, ∀ t, first ≤ t → t < first + n → f t ≠ i := by
  by_contra all
  push Not at all
  have onto : Finset.range n ⊆ (Finset.Ico first (first + n)).image f := by
    intro i mem
    obtain ⟨t, lower, upper, eq⟩ := all i (Finset.mem_range.mp mem)
    exact Finset.mem_image.mpr ⟨t, Finset.mem_Ico.mpr ⟨lower, upper⟩, eq⟩
  have many := Finset.card_le_card onto
  have few := Finset.card_image_le (s := Finset.Ico first (first + n)) (f := f)
  have size : (Finset.Ico first (first + n)).card = n := by simp
  rw [Finset.card_range] at many
  have full : ((Finset.Ico first (first + n)).image f).card = (Finset.Ico first (first + n)).card := by
    omega
  have injective := Finset.card_image_iff.mp full
  exact ne (injective (by simpa using inA) (by simpa using inB) same)

theorem not_covers_embedded {shardBits : Nat} (one : 1 ≤ shardBits) (lt : shardBits < 32) :
    ¬ (sweptEmbedded shardBits).Covers := by
  intro covers
  obtain ⟨a, b, ne, block, same⟩ := exists_clash one lt
  have room := Nat.two_pow_pos shardBits
  have inBlock : ∀ t q, t / 2 ^ shardBits = q →
      2 ^ shardBits * q ≤ t ∧ t < 2 ^ shardBits * q + 2 ^ shardBits := by
    rintro t q rfl
    exact ⟨Nat.mul_div_le t _, Nat.lt_mul_div_succ t room⟩
  obtain ⟨i, inside, missed⟩ := exists_missed
    (fun t => (embedPlace shardBits t).1) ne (inBlock a _ block) (inBlock b _ rfl) same
  generalize quotient : b / 2 ^ shardBits = q at missed
  obtain ⟨ticket, lower, upper, place⟩ := covers (2 ^ shardBits * q) i
    (q &&& (bucketsPerShard - 1)) inside (and_pred_lt _ (by decide))
  -- a window that starts with the run has the run's bucket in no other run
  have sameBucket : (ticket / 2 ^ shardBits) &&& (bucketsPerShard - 1) = q &&& (bucketsPerShard - 1) :=
    (Prod.ext_iff.mp place).2
  have mod : ticket / 2 ^ shardBits % 2 ^ 8 = q % 2 ^ 8 := by
    rw [← Nat.and_two_pow_sub_one_eq_mod, ← Nat.and_two_pow_sub_one_eq_mod]
    exact sameBucket
  have low : q ≤ ticket / 2 ^ shardBits := (Nat.le_div_iff_mul_le room).mpr (by rwa [Nat.mul_comm])
  have high : ticket / 2 ^ shardBits < q + 2 ^ 8 := by
    refine (Nat.div_lt_iff_lt_mul room).mpr ?_
    rw [Nat.mul_comm, Nat.mul_add]
    exact upper
  have here : ticket / 2 ^ shardBits = q := by omega
  obtain ⟨lower, upper⟩ := inBlock ticket q here
  exact missed ticket lower upper (Prod.ext_iff.mp place).1

/-! ## Both -/

/-- **Whose windows of tickets are thorough.** -/
theorem windows_thorough (layout : TableLayout) (addressed : layout.Addressed) :
    layout.Thorough ↔ layout.isLocal = true := by
  cases layout with
  | localCache shardBits bucketBits =>
      exact ⟨fun _ => rfl, fun _ => ⟨covers_local shardBits bucketBits,
        counts_local shardBits bucketBits, clears_local shardBits bucketBits⟩⟩
  | embedded shardBits =>
      refine ⟨fun thorough => ?_, fun eq => Bool.noConfusion eq⟩
      exact absurd thorough.covers (not_covers_embedded addressed.1 addressed.2)

theorem windows_thorough_sixteen :
    (TableLayout.localCache 4 10).Thorough ∧ ¬ (TableLayout.embedded 4).Thorough :=
  ⟨(windows_thorough (.localCache 4 10) (by decide)).mpr rfl,
    fun thorough => Bool.noConfusion ((windows_thorough (.embedded 4) (by decide)).mp thorough)⟩

/-- With two shards tickets 4 and 5 both go to shard 0: of the 512 tickets from 4 on none goes to
bucket 2 of shard 1, and an entry there that expired before them is still stored after them. -/
theorem expired_outlasts_window :
    (∀ k < 2 * 256, embedPlace 1 (4 + k) ≠ (1, 2)) ∧
      (embedCreateSized (2 ^ 24) 2).map (fun r => ((sweptEmbedded 1).run
        [(0, .call (.put [139] [] 1)), (5, .call (.sweep 4)), (5, .call (.sweep (2 * 256)))] r).mem.contents)
        = some [⟨[139], [], 1⟩] := by
  constructor <;> decide +kernel

end KuttiDB.Cache
