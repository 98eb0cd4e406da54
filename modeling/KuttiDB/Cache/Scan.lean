/- # KuttiDB.Cache.Scan -- reading the metadata of the local cache page by page

`metadataPage` walks shards, buckets and chains from a cursor (shard, bucket, position in the chain),
delivers the live entries that match, and returns the position behind the last one. `Local.rest` is
what lies at or behind a cursor; `metadataPage_spec` says a page takes the wanted entries of a front
part of it and leaves the rest to its own cursor.

Between two pages the cache may change. Every put, delete and swept entry advances `revision`; the
lazy removal of a get and an eviction do not, and they shift the chain under the cursor. Pages at one
revision are exact when neither happened (`pages_exact`); `get_shifts_cursor` is a scan in which a get
makes the next page leave out an entry.
-/
import KuttiDB.Cache.LocalInvariant

namespace KuttiDB.Cache

open KuttiDB.QueueStore
open KuttiDB.Theory

set_option autoImplicit false

/-! ## One page -/

structure MetadataCursor where
  shard : Nat
  bucket : Nat
  entry : Nat
  deriving DecidableEq, Repr

/-- What the callback of a scan is given. -/
structure Metadata where
  key : Bytes
  valueLen : Nat
  exp : Nat
  deriving DecidableEq, Repr

def Entry.metadata (e : Entry) : Metadata := ⟨e.key, e.value.length, e.exp⟩

structure Page where
  delivered : List Metadata
  next : MetadataCursor
  more : Bool
  deriving DecidableEq, Repr

/-- The variables of the walk. -/
structure Scan where
  delivered : List Metadata
  next : MetadataCursor
  position : MetadataCursor
  more : Bool

section Page

variable (now maxEntries : Nat) (wanted : Metadata → Bool)

def Entry.visible (e : Entry) : Bool := !e.isExpired now && wanted e.metadata

/-- One entry of a chain; after `found_more` the loops are left. -/
def scanEntry (i b skip : Nat) (s : Scan) (item : Entry × Nat) : Scan :=
  if s.more then s
  else if item.2 < skip || !item.1.visible now wanted then s
  else if s.delivered.length = maxEntries then { s with more := true }
  else { s with delivered := s.delivered ++ [item.1.metadata], next := ⟨i, b, item.2 + 1⟩ }

def scanBucket (i : Nat) (s : Scan) (item : List Entry × Nat) : Scan :=
  if s.more then s
  else
    let skip := if i = s.position.shard ∧ item.2 = s.position.bucket then s.position.entry else 0
    let s := item.1.zipIdx.foldl (scanEntry now maxEntries wanted i item.2 skip) s
    if s.more then s else { s with position := ⟨i, item.2 + 1, 0⟩ }

def scanShard (s : Scan) (item : Shard × Nat) : Scan :=
  if s.more then s
  else
    let first := if item.2 = s.position.shard then s.position.bucket else 0
    let s := (item.1.buckets.zipIdx.drop first).foldl (scanBucket now maxEntries wanted item.2) s
    if s.more then s else { s with position := ⟨item.2 + 1, 0, 0⟩ }

/-- `kuttidb_foreach_metadata_page_filtered` for a callback that accepts every entry. -/
def metadataPage (start : MetadataCursor) (c : Local) : Page :=
  if c.nshards ≤ start.shard then ⟨[], start, false⟩
  else
    let s := (c.shards.zipIdx.drop start.shard).foldl (scanShard now maxEntries wanted)
      ⟨[], start, start, false⟩
    ⟨s.delivered, if s.delivered = [] then s.position else s.next, s.more⟩

end Page

/-! ## What lies behind a cursor -/

def Shard.rest (bucket entry : Nat) (s : Shard) : List Entry :=
  match s.buckets.drop bucket with
  | [] => []
  | chain :: later => chain.drop entry ++ later.flatten

/-- The entries a walk from the cursor meets. -/
def Local.rest (c : Local) (cursor : MetadataCursor) : List Entry :=
  match c.shards.drop cursor.shard with
  | [] => []
  | s :: later => s.rest cursor.bucket cursor.entry ++ later.flatMap Shard.entries

theorem Shard.rest_zero (s : Shard) (bucket : Nat) :
    s.rest bucket 0 = (s.buckets.drop bucket).flatten := by
  unfold rest
  split <;> rename_i eq <;> simp [eq]

theorem Local.rest_shard (c : Local) (shard : Nat) :
    c.rest ⟨shard, 0, 0⟩ = (c.shards.drop shard).flatMap Shard.entries := by
  unfold rest
  split
  · rename_i eq
    simp [eq]
  · rename_i s later eq
    rw [eq, List.flatMap_cons, Shard.rest_zero, List.drop_zero, Shard.entries]

/-! ## The walk -/

section Walk

variable {now maxEntries : Nat} {wanted : Metadata → Bool} {c : Local} {all : List Entry}

/-- With `left` still ahead: what has been seen, and what has been passed over since the last entry
delivered. -/
def Along (now maxEntries : Nat) (wanted : Metadata → Bool) (c : Local) (all left : List Entry)
    (s : Scan) : Prop :=
  ∃ seen idle, all = seen ++ (idle ++ left) ∧ idle.filter (Entry.visible now wanted) = [] ∧
    s.delivered = (seen.filter (Entry.visible now wanted)).map Entry.metadata ∧
    (s.delivered ≠ [] → c.rest s.next = idle ++ left) ∧ s.delivered.length ≤ maxEntries

/-- The page is full and another entry was met: the cursor of the page is where it goes on. -/
def Stopped (now : Nat) (wanted : Metadata → Bool) (c : Local) (all : List Entry) (s : Scan) : Prop :=
  ∃ seen, all = seen ++ c.rest s.next ∧
    s.delivered = (seen.filter (Entry.visible now wanted)).map Entry.metadata ∧ s.delivered ≠ []

def Walked (now maxEntries : Nat) (wanted : Metadata → Bool) (c : Local) (all left : List Entry)
    (s : Scan) : Prop :=
  (s.more = true ∧ Stopped now wanted c all s) ∨
    (s.more = false ∧ Along now maxEntries wanted c all left s)

theorem Walked.anywhere {s : Scan} {left : List Entry} (other : List Entry)
    (walked : Walked now maxEntries wanted c all left s) (full : s.more = true) :
    Walked now maxEntries wanted c all other s := by
  rcases walked with stopped | ⟨going, -⟩
  · exact Or.inl stopped
  · rw [full] at going
    cases going

theorem Walked.reposition {s : Scan} {left : List Entry} (position : MetadataCursor)
    (walked : Walked now maxEntries wanted c all left s) :
    Walked now maxEntries wanted c all left { s with position := position } := walked

theorem scanEntry_more {i b skip : Nat} {s : Scan} (full : s.more = true) (item : Entry × Nat) :
    scanEntry now maxEntries wanted i b skip s item = s := by
  rw [scanEntry, if_pos full]

theorem scanEntry_walked (room : 0 < maxEntries) {i b skip j : Nat} {e : Entry} {left : List Entry}
    {s : Scan} (past : skip ≤ j) (behind : c.rest ⟨i, b, j + 1⟩ = left)
    (walked : Walked now maxEntries wanted c all (e :: left) s) :
    Walked now maxEntries wanted c all left (scanEntry now maxEntries wanted i b skip s (e, j)) := by
  rcases walked with ⟨full, stopped⟩ | ⟨going, seen, idle, split, quiet, taken, cursor, fits⟩
  · rw [scanEntry_more full]
    exact Or.inl ⟨full, stopped⟩
  · have notSkipped : decide (j < skip) = false := decide_eq_false (by omega)
    simp only [scanEntry, going, Bool.false_eq_true, if_false, notSkipped, Bool.false_or,
      Bool.not_eq_true']
    cases seeable : e.visible now wanted with
    | false =>
        refine Or.inr ⟨going, seen, idle ++ [e], by simpa using split, ?_, taken, fun some => ?_, fits⟩
        · simp [quiet, seeable]
        · simpa using cursor some
    | true =>
        simp only [Bool.true_eq_false, if_false]
        split
        · rename_i full
          have some : s.delivered ≠ [] := fun none_ => by
            rw [none_, List.length_nil] at full
            omega
          exact Or.inl ⟨rfl, seen, by rw [cursor some]; exact split, taken, some⟩
        · refine Or.inr ⟨rfl, seen ++ (idle ++ [e]), [], by simpa using split, rfl, ?_,
            fun _ => by simpa using behind, ?_⟩
          · simp [taken, quiet, seeable]
          · simp only [List.length_append, List.length_singleton]
            omega

theorem scanChain_walked (room : 0 < maxEntries) {i b skip : Nat} {later : List Entry} :
    ∀ (chain : List Entry) {j : Nat} {s : Scan}, skip ≤ j →
      (∀ n, c.rest ⟨i, b, j + n⟩ = chain.drop n ++ later) →
      Walked now maxEntries wanted c all (chain ++ later) s →
      Walked now maxEntries wanted c all later
        ((chain.zipIdx j).foldl (scanEntry now maxEntries wanted i b skip) s)
  | [], _, _, _, _, walked => walked
  | e :: rest, j, s, past, behind, walked => by
      have here := scanEntry_walked room past (by simpa using behind 1) walked
      refine scanChain_walked room rest (Nat.le_succ_of_le past) (fun n => ?_) here
      rw [Nat.add_assoc, Nat.add_comm 1 n]
      simpa using behind (n + 1)

/-- The entries in front of the cursor are skipped. -/
theorem foldl_skipped {i b skip : Nat} : ∀ (items : List (Entry × Nat)) (s : Scan),
    (∀ item ∈ items, item.2 < skip) →
      items.foldl (scanEntry now maxEntries wanted i b skip) s = s
  | [], _, _ => rfl
  | item :: rest, s, before => by
      have same : scanEntry now maxEntries wanted i b skip s item = s := by
        have skipped : decide (item.2 < skip) = true := decide_eq_true (before item List.mem_cons_self)
        simp [scanEntry, skipped]
      rw [List.foldl_cons, same]
      exact foldl_skipped rest s fun other mem => before other (List.mem_cons_of_mem _ mem)

theorem foldl_from_skip {i b skip : Nat} (chain : List Entry) (s : Scan) :
    chain.zipIdx.foldl (scanEntry now maxEntries wanted i b skip) s =
      ((chain.drop skip).zipIdx skip).foldl (scanEntry now maxEntries wanted i b skip) s := by
  have parts : chain.zipIdx = (chain.take skip).zipIdx ++ (chain.drop skip).zipIdx skip := by
    conv_lhs => rw [← List.take_append_drop skip chain, List.zipIdx_append, Nat.zero_add,
      List.length_take]
    rcases Nat.le_total skip chain.length with short | long
    · rw [Nat.min_eq_left short]
    · simp [List.drop_eq_nil_of_le long]
  rw [parts, List.foldl_append, foldl_skipped (chain.take skip).zipIdx s fun item mem => ?_]
  have lt := List.snd_lt_of_mem_zipIdx mem
  rw [List.length_take] at lt
  omega

variable {i : Nat} {shard : Shard} {later : List Shard}

theorem rest_eq (at_ : c.shards.drop i = shard :: later) (b k : Nat) :
    c.rest ⟨i, b, k⟩ = shard.rest b k ++ later.flatMap Shard.entries := by
  simp only [Local.rest, at_]

theorem scanBuckets_walked (room : 0 < maxEntries) (at_ : c.shards.drop i = shard :: later) :
    ∀ (chains : List (List Entry)) {b k : Nat} {s : Scan}, shard.buckets.drop b = chains →
      (s.more = false → s.position = ⟨i, b, k⟩) →
      Walked now maxEntries wanted c all (c.rest ⟨i, b, k⟩) s →
      Walked now maxEntries wanted c all (later.flatMap Shard.entries)
        ((chains.zipIdx b).foldl (scanBucket now maxEntries wanted i) s)
  | [], b, k, s, none_, _, walked => by
      rw [rest_eq at_, Shard.rest, none_] at walked
      exact walked
  | chain :: chains, b, k, s, suffix, position, walked => by
      have tail : shard.buckets.drop (b + 1) = chains := by
        rw [← List.tail_drop, suffix, List.tail_cons]
      have left : c.rest ⟨i, b + 1, 0⟩ = chains.flatten ++ later.flatMap Shard.entries := by
        rw [rest_eq at_, Shard.rest_zero, tail]
      have entries : ∀ n, c.rest ⟨i, b, n⟩ =
          chain.drop n ++ (chains.flatten ++ later.flatMap Shard.entries) := fun n => by
        rw [rest_eq at_, Shard.rest, suffix, List.append_assoc]
      rw [List.zipIdx_cons, List.foldl_cons]
      cases full : s.more with
      | true =>
          rw [scanBucket, if_pos full]
          exact scanBuckets_walked room at_ chains (k := 0) tail
            (fun going => by rw [full] at going; cases going) (walked.anywhere _ full)
      | false =>
          rw [entries] at walked
          have here := scanChain_walked room (chain.drop k) (Nat.le_refl k)
            (fun n => by rw [entries, List.drop_drop]) walked
          rw [← foldl_from_skip] at here
          have skip : (if i = s.position.shard ∧ b = s.position.bucket then s.position.entry else 0) =
              k := by rw [position full]; simp
          simp only [scanBucket, full, Bool.false_eq_true, if_false, skip]
          split
          · rename_i stopped
            exact scanBuckets_walked room at_ chains (k := 0) tail
              (fun going => by rw [stopped] at going; cases going) (here.anywhere _ stopped)
          · exact scanBuckets_walked room at_ chains (k := 0) tail (fun _ => rfl)
              (left ▸ here.reposition _)

theorem drop_zipIdx {α : Type} (xs : List α) (n : Nat) :
    xs.zipIdx.drop n = (xs.drop n).zipIdx n := by
  refine List.ext_getElem? fun j => ?_
  simp [List.getElem?_drop, List.getElem?_zipIdx]

theorem scanShards_walked (room : 0 < maxEntries) : ∀ (shards : List Shard) {i b k : Nat} {s : Scan},
    c.shards.drop i = shards → (s.more = false → s.position = ⟨i, b, k⟩) →
    Walked now maxEntries wanted c all (c.rest ⟨i, b, k⟩) s →
    let s' := (shards.zipIdx i).foldl (scanShard now maxEntries wanted) s
    Walked now maxEntries wanted c all [] s' ∧ (s'.more = false → c.rest s'.position = [])
  | [], i, b, k, s, none_, position, walked => by
      have empty : c.rest ⟨i, b, k⟩ = [] := by simp only [Local.rest, none_]
      exact ⟨empty ▸ walked, fun going => by rw [List.zipIdx_nil, List.foldl_nil, position going, empty]⟩
  | shard :: later, i, b, k, s, at_, position, walked => by
      have tail : c.shards.drop (i + 1) = later := by
        rw [← List.tail_drop, at_, List.tail_cons]
      have left : c.rest ⟨i + 1, 0, 0⟩ = later.flatMap Shard.entries := by
        rw [Local.rest_shard, tail]
      rw [List.zipIdx_cons, List.foldl_cons]
      cases full : s.more with
      | true =>
          rw [scanShard, if_pos full]
          exact scanShards_walked room later (b := 0) (k := 0) tail
            (fun going => by rw [full] at going; cases going) (walked.anywhere _ full)
      | false =>
          have here := scanBuckets_walked room at_ (shard.buckets.drop b) rfl position walked
          have first : (if i = s.position.shard then s.position.bucket else 0) = b := by
            rw [position full]; simp
          simp only [scanShard, full, Bool.false_eq_true, if_false, first, drop_zipIdx]
          split
          · rename_i stopped
            exact scanShards_walked room later (b := 0) (k := 0) tail
              (fun going => by rw [stopped] at going; cases going) (here.anywhere _ stopped)
          · exact scanShards_walked room later (b := 0) (k := 0) tail (fun _ => rfl)
              (left ▸ here.reposition _)

/-- **One page.** It delivers what is visible of a front part of the entries behind its cursor; the
rest lies behind the cursor it returns, and nothing visible is left when it says so. -/
theorem metadataPage_spec (room : 0 < maxEntries) (start : MetadataCursor) (c : Local) :
    ∃ seen, c.rest start = seen ++ c.rest (metadataPage now maxEntries wanted start c).next ∧
      (metadataPage now maxEntries wanted start c).delivered =
        (seen.filter (Entry.visible now wanted)).map Entry.metadata ∧
      ((metadataPage now maxEntries wanted start c).more = false →
        (c.rest (metadataPage now maxEntries wanted start c).next).filter
          (Entry.visible now wanted) = []) := by
  unfold metadataPage
  split
  · rename_i beyond
    have empty : c.rest start = [] := by
      simp only [Local.rest, List.drop_eq_nil_of_le beyond]
    exact ⟨[], rfl, rfl, fun _ => by rw [empty, List.filter_nil]⟩
  · have begun : Walked now maxEntries wanted c (c.rest start) (c.rest start)
        ⟨[], start, start, false⟩ :=
      Or.inr ⟨rfl, [], [], rfl, rfl, rfl, fun some => (some rfl).elim, Nat.zero_le _⟩
    obtain ⟨walked, ended⟩ := scanShards_walked room (c.shards.drop start.shard) rfl
      (fun _ => rfl) begun
    rw [drop_zipIdx]
    generalize (List.zipIdx _ _).foldl (scanShard now maxEntries wanted) _ = s at walked ended
    rcases walked with ⟨full, seen, split, taken, some⟩ | ⟨going, seen, idle, split, quiet, taken, cursor, -⟩
    · simp only [some, if_false]
      exact ⟨seen, split, taken, fun going => by rw [full] at going; cases going⟩
    · rw [List.append_nil] at split cursor
      by_cases none_ : s.delivered = []
      · simp only [none_, if_true]
        refine ⟨c.rest start, by rw [ended going, List.append_nil], ?_, fun _ => by
          rw [ended going, List.filter_nil]⟩
        rw [split, List.filter_append, quiet, List.append_nil, ← taken, none_]
      · simp only [none_, if_false]
        exact ⟨seen, by rw [cursor none_]; exact split, taken, fun _ => by rw [cursor none_, quiet]⟩

end Walk

/-! ## What happens between pages -/

/-- One round of a budget eviction takes the head of the bucket it probes. -/
theorem Shard.evict_split {s : Shard} (idx : Nat) (shardOk : s.Ok) (counted : s.count ≠ 0) :
    (Shard.evict idx s).Ok ∧
    s.entries.Perm (((s.probe idx).bind (fun b => (s.buckets.getD b []).head?)).toList ++
      (Shard.evict idx s).entries) := by
  unfold Shard.evict
  cases probed : s.probe idx with
  | none => exact ⟨shardOk, .refl _⟩
  | some b =>
      have filled := List.find?_some probed
      have chainAt : s.buckets[b]? = some (s.buckets.getD b []) := by
        rw [List.getD_eq_getElem?_getD] at filled ⊢
        cases found : s.buckets[b]? with
        | none => simp [found] at filled
        | some chain => rfl
      obtain ⟨before, after, eq, changed⟩ := exists_split chainAt
      rw [Option.bind_some]
      generalize s.buckets.getD b [] = chain at filled chainAt eq changed ⊢
      cases chain with
      | nil => simp at filled
      | cons e tail =>
          refine ⟨shardOk.rechain chainAt (fun x mem => shardOk.placed b _ chainAt x
            (List.mem_cons_of_mem _ mem)) ?_, ?_⟩
          · rw [List.tail_cons, List.length_cons]
            omega
          · show s.buckets.flatten.Perm (e :: (s.buckets.modify b List.tail).flatten)
            rw [changed, eq]
            simp only [List.flatten_append, List.flatten_cons, List.tail_cons, List.cons_append]
            exact List.perm_middle

/-- A call of the cache, or one round of a budget eviction. -/
inductive Meanwhile where
  | call (request : MapCall Bytes Bytes)
  | evict (shard idx : Nat)

namespace Local

variable {c c' : Local} {now : Nat}

def meanwhile (now : Nat) : Meanwhile → Local → Local
  | .call request, c => (c.run now request).2
  | .evict shard idx, c => c.evict shard idx

def meanwhiles (events : List (Nat × Meanwhile)) (c : Local) : Local :=
  events.foldl (fun c event => c.meanwhile event.1 event.2) c

/-- No entry is taken away without `revision` being told: no get finds its key expired and no eviction
finds an entry. -/
def Steady (now : Nat) (c : Local) : Meanwhile → Prop
  | .call (.get key) => c.lookupCopy now key ≠ .expired
  | .call _ => True
  | .evict shard _ => (c.shards.getD shard ⟨[], 0⟩).count = 0

instance decidableSteady (now : Nat) (c : Local) : ∀ event, Decidable (c.Steady now event)
  | .call (.get key) => inferInstanceAs (Decidable (c.lookupCopy now key ≠ .expired))
  | .call (.put _ _ _) | .call (.delete _) | .call (.sweep _) => .isTrue trivial
  | .evict shard _ => inferInstanceAs (Decidable ((c.shards.getD shard ⟨[], 0⟩).count = 0))

def SteadyAll : List (Nat × Meanwhile) → Local → Prop
  | [], _ => True
  | (now, event) :: rest, c => c.Steady now event ∧ SteadyAll rest (c.meanwhile now event)

instance decidableSteadyAll : ∀ events c, Decidable (SteadyAll events c)
  | [], _ => .isTrue trivial
  | (now, event) :: rest, c =>
      have : Decidable (SteadyAll rest (c.meanwhile now event)) := decidableSteadyAll rest _
      inferInstanceAs (Decidable (c.Steady now event ∧ SteadyAll rest (c.meanwhile now event)))

/-- `revision` tells whether the shards have changed. -/
structure Told (c c' : Local) : Prop where
  le : c.revision ≤ c'.revision
  same : c'.revision = c.revision → c'.shards = c.shards

theorem Told.refl (c : Local) : Told c c := ⟨Nat.le_refl _, fun _ => rfl⟩

theorem Told.trans {c'' : Local} (first : Told c c') (second : Told c' c'') : Told c c'' := by
  have up := first.le
  have up' := second.le
  exact ⟨by omega, fun eq => (second.same (by omega)).trans (first.same (by omega))⟩

theorem Told.advanced (lt : c.revision < c'.revision) : Told c c' :=
  ⟨Nat.le_of_lt lt, fun eq => absurd eq (by omega)⟩

theorem sweepBucket_told (now ticket : Nat) (c : Local) : Told c (c.sweepBucket now ticket) := by
  generalize shard : ticket &&& (c.nshards - 1) = i
  generalize home : c.shards.getD i ⟨[], 0⟩ = s
  generalize bucket : (ticket / c.nshards) &&& (s.buckets.length - 1) = b
  have eq : c.sweepBucket now ticket = { c with
      shards := c.shards.modify i (Shard.sweep now b)
      ttlEntries := c.ttlEntries - ((s.buckets.getD b []).filter (Entry.isExpired now)).length
      revision := c.revision + ((s.buckets.getD b []).filter (Entry.isExpired now)).length } := by
    simp only [sweepBucket, shard, home, bucket]
  rw [eq]
  refine ⟨Nat.le_add_right _ _, fun same => ?_⟩
  have none_ : (s.buckets.getD b []).filter (Entry.isExpired now) = [] :=
    List.length_eq_zero_iff.mp (by simpa using same)
  refine modify_fixed fun x at_ => ?_
  have here : x = s := by rw [← home, List.getD_eq_getElem?_getD, at_, Option.getD_some]
  subst here
  have chains : x.buckets.modify b (List.filter (fun e => !e.isExpired now)) = x.buckets := by
    refine modify_fixed fun chain found => List.filter_eq_self.mpr fun e mem => ?_
    rw [List.getD_eq_getElem?_getD, found, Option.getD_some] at none_
    simpa using List.filter_eq_nil_iff.mp none_ e mem
  rw [Shard.sweep, Shard.rechain, chains, none_, List.length_nil, Nat.sub_zero]

theorem sweepLoop_told (now : Nat) : ∀ (work : Nat) (c : Local), Told c (c.sweepLoop now work)
  | 0, c => .refl c
  | work + 1, c => by
      have taken : Told c c.takeTicket := ⟨Nat.le_refl _, fun _ => rfl⟩
      exact taken.trans ((sweepBucket_told now c.sweepCursor _).trans (sweepLoop_told now work _))

theorem meanwhile_told {event : Meanwhile} (steady : c.Steady now event) :
    Told c (c.meanwhile now event) := by
  cases event with
  | evict shard idx =>
      have empty : (c.shards.getD shard ⟨[], 0⟩).count = 0 := steady
      have same : c.evict shard idx = c := by rw [evict, if_pos empty]
      rw [meanwhile, same]
      exact .refl c
  | call request =>
      cases request with
      | put key value expiry => exact .advanced (Nat.lt_succ_self _)
      | sweep work =>
          rw [meanwhile, run, sweepExpired]
          split
          · exact .refl c
          · exact sweepLoop_told now work c
      | delete key =>
          rw [meanwhile, run, delete]
          cases c.find key with
          | none => exact .refl c
          | some e => exact .advanced (Nat.lt_succ_self _)
      | get key =>
          have kept : c.lookupCopy now key ≠ .expired := steady
          rw [meanwhile, run, get]
          cases looked : c.lookupCopy now key with
          | miss => exact .refl c
          | hit value => exact .refl c
          | expired => exact absurd looked kept

theorem meanwhiles_told : ∀ (events : List (Nat × Meanwhile)) {c : Local}, SteadyAll events c →
    Told c (c.meanwhiles events)
  | [], c, _ => .refl c
  | _ :: rest, _, steady =>
      (meanwhile_told steady.1).trans (meanwhiles_told rest steady.2)

/-- What one round of a budget eviction takes. -/
def victim (i idx : Nat) (c : Local) : Option Entry :=
  let s := c.shards.getD i ⟨[], 0⟩
  if s.count = 0 then none
  else (s.probe idx).bind (fun b => (s.buckets.getD b []).head?)

theorem evict_split (ok : c.Ok) (i idx : Nat) : (c.evict i idx).Ok ∧
    c.entries.Perm ((c.victim i idx).toList ++ (c.evict i idx).entries) := by
  unfold evict victim
  dsimp only
  split
  · exact ⟨ok, .refl _⟩
  · rename_i counted
    have at_ : c.shards[i]? = some (c.shards.getD i ⟨[], 0⟩) := by
      rw [List.getD_eq_getElem?_getD] at counted ⊢
      cases found : c.shards[i]? with
      | none => simp [found] at counted
      | some s => rfl
    generalize c.shards.getD i ⟨[], 0⟩ = s at at_ counted
    obtain ⟨shardOk, split⟩ := Shard.evict_split idx (ok.shards s (List.mem_of_getElem? at_))
      counted
    obtain ⟨rest, all, changed⟩ := entries_split at_
    have perm := all.trans ((split.append_right rest).trans
      (.trans (.of_eq (List.append_assoc ..)) ((changed (Shard.evict idx)).symm.append_left _)))
    refine ⟨ok.change at_ rfl rfl shardOk
      (fun e mem => ok.members at_ e (split.mem_iff.mpr (List.mem_append_right _ mem))) ?_, perm⟩
    have both := (perm.map Entry.key).nodup_iff.mp ok.once
    rw [List.map_append] at both
    rw [Once, keys_contents]
    exact (List.nodup_append.mp both).2.1

theorem evict_ok (ok : c.Ok) (i idx : Nat) : (c.evict i idx).Ok := (evict_split ok i idx).1

theorem meanwhiles_ok : ∀ (events : List (Nat × Meanwhile)) {c : Local}, c.Ok → (c.meanwhiles events).Ok
  | [], _, ok => ok
  | (now, .call request) :: rest, _, ok => meanwhiles_ok rest (run_serves now request ok).1
  | (_, .evict i idx) :: rest, _, ok => meanwhiles_ok rest (evict_ok ok i idx)

end Local

/-! ## Whole scans -/

/-- A page and what happens after it. -/
structure Round where
  now : Nat
  maxEntries : Nat
  meanwhile : List (Nat × Meanwhile)

/-- A page as it was read. -/
structure PageRead where
  cache : Local
  now : Nat
  page : Page

/-- Each page starts from the cursor of the one before. -/
def readPages (wanted : Metadata → Bool) : MetadataCursor → List Round → Local → List PageRead
  | _, [], _ => []
  | cursor, r :: rest, c =>
      let page := metadataPage r.now r.maxEntries wanted cursor c
      ⟨c, r.now, page⟩ :: readPages wanted page.next rest (c.meanwhiles r.meanwhile)

/-- The keys a scan delivers, in order. -/
def deliveredKeys (reads : List PageRead) : List Bytes :=
  reads.flatMap (fun r => r.page.delivered.map Metadata.key)

/-- Nothing is taken away unnoticed between the pages. -/
def SteadyScan : List Round → Local → Prop
  | [], _ => True
  | r :: rest, c => Local.SteadyAll r.meanwhile c ∧ SteadyScan rest (c.meanwhiles r.meanwhile)

instance decidableSteadyScan : ∀ rounds c, Decidable (SteadyScan rounds c)
  | [], _ => .isTrue trivial
  | r :: rest, c =>
      have : Decidable (SteadyScan rest (c.meanwhiles r.meanwhile)) := decidableSteadyScan rest _
      inferInstanceAs
        (Decidable (Local.SteadyAll r.meanwhile c ∧ SteadyScan rest (c.meanwhiles r.meanwhile)))

/-- The key has a live entry that matches. -/
def Local.Shows (c : Local) (now : Nat) (wanted : Metadata → Bool) (key : Bytes) : Prop :=
  ∃ e ∈ c.entries, e.key = key ∧ e.visible now wanted = true

section Exact

variable {wanted : Metadata → Bool}

theorem Local.rest_congr {c c' : Local} (same : c'.shards = c.shards) (cursor : MetadataCursor) :
    c'.rest cursor = c.rest cursor := by
  rw [rest, rest, same]

theorem keys_visible (now : Nat) (seen : List Entry) :
    (((seen.filter (Entry.visible now wanted)).map Entry.metadata).map Metadata.key).Sublist
      (seen.map Entry.key) := by
  rw [List.map_map]
  exact List.filter_sublist.map _

/-- Over one table, the pages deliver keys of what lies behind the first cursor, in its order. -/
theorem deliveredKeys_sublist {shards : List Shard} : ∀ (rounds : List Round) {cursor : MetadataCursor}
    {c : Local}, (∀ r ∈ rounds, 0 < r.maxEntries) →
    (∀ r ∈ readPages wanted cursor rounds c, r.cache.shards = shards) →
    ∀ table : Local, table.shards = shards →
    (deliveredKeys (readPages wanted cursor rounds c)).Sublist ((table.rest cursor).map Entry.key)
  | [], _, _, _, _, _, _ => List.nil_sublist _
  | r :: rest, cursor, c, room, fixed, table, same => by
      have here : c.shards = shards := fixed _ List.mem_cons_self
      obtain ⟨seen, split, taken, -⟩ :=
        metadataPage_spec (room r List.mem_cons_self) cursor c
      have later := deliveredKeys_sublist rest (fun x mem => room x (List.mem_cons_of_mem _ mem))
        (fun x mem => fixed x (List.mem_cons_of_mem _ mem)) table same
      rw [Local.rest_congr (here.trans same.symm), Local.rest_congr (here.trans same.symm)] at split
      rw [split, List.map_append]
      refine List.Sublist.append ?_ later
      show (List.map _ _).Sublist _
      rw [taken]
      exact keys_visible r.now seen

/-- A key shown by every page is delivered before the scan says it has ended. -/
theorem mem_deliveredKeys {shards : List Shard} {key : Bytes} : ∀ (rounds : List Round)
    {cursor : MetadataCursor} {c : Local}, (∀ r ∈ rounds, 0 < r.maxEntries) →
    (∀ r ∈ readPages wanted cursor rounds c, r.cache.shards = shards) →
    (∀ r ∈ readPages wanted cursor rounds c, ∀ e ∈ r.cache.entries, e.key = key →
      e.visible r.now wanted = true) →
    (∃ last, (readPages wanted cursor rounds c).getLast? = some last ∧ last.page.more = false) →
    ∀ table : Local, table.shards = shards → (∃ e ∈ table.rest cursor, e ∈ table.entries ∧ e.key = key) →
    key ∈ deliveredKeys (readPages wanted cursor rounds c)
  | [], _, _, _, _, _, ended, _, _, _ => by
      obtain ⟨_, none_, -⟩ := ended
      cases none_
  | r :: rest, cursor, c, room, fixed, shown, ended, table, same, ⟨e, ahead, held, named⟩ => by
      have here : c.shards = shards := fixed _ List.mem_cons_self
      have sameRest : ∀ at_, c.rest at_ = table.rest at_ := Local.rest_congr (here.trans same.symm)
      have visible : e.visible r.now wanted = true := by
        refine shown _ List.mem_cons_self e ?_ named
        rwa [Local.entries, here, ← same]
      obtain ⟨seen, split, taken, complete⟩ :=
        metadataPage_spec (room r List.mem_cons_self) cursor c
      rw [sameRest, sameRest] at split
      rw [split] at ahead
      rcases List.mem_append.mp ahead with now_ | later
      · refine List.mem_append_left _ ?_
        show key ∈ List.map _ _
        rw [taken, List.map_map]
        exact List.mem_map.mpr ⟨e, List.mem_filter.mpr ⟨now_, visible⟩, named⟩
      · cases rest with
        | nil =>
            obtain ⟨last, is, finished⟩ := ended
            obtain rfl := Option.some.inj is
            have empty := complete finished
            rw [sameRest] at empty
            have left := List.filter_eq_nil_iff.mp empty e later
            exact absurd visible left
        | cons next more =>
            refine List.mem_append_right _ ?_
            refine mem_deliveredKeys (next :: more) (fun x mem => room x (List.mem_cons_of_mem _ mem))
              (fun x mem => fixed x (List.mem_cons_of_mem _ mem))
              (fun x mem => shown x (List.mem_cons_of_mem _ mem)) ?_ table same ⟨e, later, held, named⟩
            obtain ⟨last, is, finished⟩ := ended
            exact ⟨last, by simpa [readPages] using is, finished⟩

/-- In a steady scan the table is the same at every page of one revision. -/
theorem steady_shards {revision : Nat} : ∀ (rounds : List Round) {cursor : MetadataCursor} {c : Local},
    SteadyScan rounds c → (∀ r ∈ readPages wanted cursor rounds c, r.cache.revision = revision) →
    ∀ r ∈ readPages wanted cursor rounds c, r.cache.shards = c.shards
  | [], _, _, _, _, _, mem => (List.not_mem_nil mem).elim
  | first :: rest, cursor, c, steady, one, r, mem => by
      rcases List.mem_cons.mp mem with rfl | later
      · rfl
      · have told := Local.meanwhiles_told first.meanwhile steady.1
        have same := steady_shards rest steady.2 (fun x inside => one x (List.mem_cons_of_mem _ inside))
          r later
        cases rest with
        | nil => exact (List.not_mem_nil later).elim
        | cons next more =>
            have before : c.revision = revision := one _ List.mem_cons_self
            have after : (c.meanwhiles first.meanwhile).revision = revision :=
              one _ (List.mem_cons_of_mem _ List.mem_cons_self)
            exact same.trans (told.same (after.trans before.symm))

end Exact

/-- **Pages of one revision.** When between the pages no get found its key expired and no eviction
took an entry, a scan whose pages all see the same `revision` delivers no key twice, and once it has
ended it has delivered every key that had a live matching entry at every page exactly once. -/
theorem pages_exact {nshards initialBuckets revision : Nat} {history : List (Nat × Meanwhile)}
    {wanted : Metadata → Bool} {rounds : List Round} {c : Local}
    (reached : c = (Local.create nshards initialBuckets).meanwhiles history)
    (room : ∀ r ∈ rounds, 0 < r.maxEntries) (steady : SteadyScan rounds c)
    (one : ∀ r ∈ readPages wanted ⟨0, 0, 0⟩ rounds c, r.cache.revision = revision) :
    (deliveredKeys (readPages wanted ⟨0, 0, 0⟩ rounds c)).Nodup ∧
      ((∃ last, (readPages wanted ⟨0, 0, 0⟩ rounds c).getLast? = some last ∧ last.page.more = false) →
        ∀ key, (∀ r ∈ readPages wanted ⟨0, 0, 0⟩ rounds c, r.cache.Shows r.now wanted key) →
          (deliveredKeys (readPages wanted ⟨0, 0, 0⟩ rounds c)).count key = 1) := by
  have ok : c.Ok := reached ▸ Local.meanwhiles_ok history (Local.create_ok nshards initialBuckets)
  have fixed := steady_shards rounds steady one
  have whole : c.rest ⟨0, 0, 0⟩ = c.entries := by
    rw [Local.rest_shard, List.drop_zero, Local.entries]
  have distinct : (deliveredKeys (readPages wanted ⟨0, 0, 0⟩ rounds c)).Nodup := by
    have part := deliveredKeys_sublist rounds room fixed c rfl
    rw [whole] at part
    exact ok.once.sublist part
  refine ⟨distinct, fun ended key shown => List.nodup_iff_count_eq_one.mp distinct key ?_⟩
  have everywhere : ∀ r ∈ readPages wanted ⟨0, 0, 0⟩ rounds c, ∀ e ∈ r.cache.entries, e.key = key →
      e.visible r.now wanted = true := by
    intro r mem e held named
    obtain ⟨shownEntry, there, same, visible⟩ := shown r mem
    have distinctKeys : (r.cache.entries.map Entry.key).Nodup := by
      rw [Local.entries, fixed r mem]
      exact ok.once
    exact List.inj_on_of_nodup_map distinctKeys held there (named.trans same.symm) ▸ visible
  have present : ∃ e ∈ c.rest ⟨0, 0, 0⟩, e ∈ c.entries ∧ e.key = key := by
    obtain ⟨last, is, -⟩ := ended
    have mem := List.mem_of_getLast? is
    obtain ⟨e, held, named, -⟩ := shown last mem
    rw [Local.entries, fixed last mem] at held
    exact ⟨e, by rw [whole]; exact held, held, named⟩
  exact mem_deliveredKeys rounds room fixed everywhere ended c rfl present

/-! ## Two scans -/

instance decidableShows (c : Local) (now : Nat) (wanted : Metadata → Bool) (key : Bytes) :
    Decidable (c.Shows now wanted key) :=
  inferInstanceAs (Decidable (∃ e ∈ c.entries, e.key = key ∧ e.visible now wanted = true))

/-- Three keys of one chain; the first of the chain expires at second 5. -/
def chained : List (Nat × Meanwhile) :=
  [(0, .call (.put [122] [1] 0)), (0, .call (.put [106] [2] 0)), (0, .call (.put [100] [3] 5))]

def steadyRounds : List Round :=
  [⟨1, 1, [(1, .call (.get [106])), (1, .call (.delete [7]))]⟩, ⟨5, 8, []⟩]

/-- A scan over two pages with a hit and a failed delete in between. -/
theorem pages_exact_steady :
    SteadyScan steadyRounds ((Local.create 2 16).meanwhiles chained) ∧
      (deliveredKeys (readPages (fun _ => true) ⟨0, 0, 0⟩ steadyRounds
        ((Local.create 2 16).meanwhiles chained))).count [106] = 1 := by
  have steady : SteadyScan steadyRounds ((Local.create 2 16).meanwhiles chained) := by decide +kernel
  have one : ∀ r ∈ readPages (fun _ => true) ⟨0, 0, 0⟩ steadyRounds
      ((Local.create 2 16).meanwhiles chained), r.cache.revision = 3 := by decide +kernel
  refine ⟨steady, (pages_exact rfl (by decide) steady one).2 ?_ _ (by decide +kernel)⟩
  exact ⟨_, List.getLast?_eq_some_getLast (by decide +kernel), by decide +kernel⟩

def shiftingRounds : List Round := [⟨1, 1, [(5, .call (.get [100]))]⟩, ⟨5, 8, []⟩]

/-- A get of the expired head of the chain between two pages: `revision` stays, the chain moves up
under the cursor, and an entry that is live and matching all the time is never delivered. -/
theorem get_shifts_cursor :
    (∀ r ∈ shiftingRounds, 0 < r.maxEntries) ∧
    (∀ r ∈ readPages (fun _ => true) ⟨0, 0, 0⟩ shiftingRounds
      ((Local.create 2 16).meanwhiles chained), r.cache.revision = 3) ∧
    ((readPages (fun _ => true) ⟨0, 0, 0⟩ shiftingRounds
      ((Local.create 2 16).meanwhiles chained)).getLast?.map (fun r => r.page.more)) = some false ∧
    (∀ r ∈ readPages (fun _ => true) ⟨0, 0, 0⟩ shiftingRounds
      ((Local.create 2 16).meanwhiles chained), r.cache.Shows r.now (fun _ => true) [106]) ∧
    deliveredKeys (readPages (fun _ => true) ⟨0, 0, 0⟩ shiftingRounds
      ((Local.create 2 16).meanwhiles chained)) = [[100], [122]] := by
  decide +kernel

end KuttiDB.Cache
